import Mathlib.Logic.Function.Basic
import OCRemote.Factory.Action
import OCRemote.Lib.Machine

/-! What a client does for a transfer out of an ME network (`client.lua`). Its database and the slots
of the interfaces keep what one request leaves for the next. Both are counted from one. -/

namespace OCRemote
namespace MEInterface
variable {ι : Type}

/-- A request for a transfer, and what is in the network when it comes. -/
structure Request (ι : Type) where
  me : String
  entry : ℕ
  filter : ι → Bool
  size : ℤ
  network : List ι
  entry_pos : 0 < entry

/-- The request that a client is sent, given which items the filter matches. -/
def Request.ofAction {ν : Type} (action : Action.XferME ν) (filter : Value ν → ι → Bool)
    (network : List ι) : Request ι where
  me := action.meAddr
  entry := action.meSlot + 1
  filter := filter action.filter
  size := action.size
  network := network
  entry_pos := action.meSlot.succ_pos

/-- The item that is asked for. -/
def Request.item (r : Request ι) : Option ι := r.network.find? r.filter

structure World (ι : Type) where
  db : List (Option ι)
  config : String → ℕ → Option (ι × ℤ)

/-- `db.clear(entry)`. -/
def clear (db : List (Option ι)) (entry : ℕ) : List (Option ι) := db.set (entry - 1) none

/-- An item is written to the first empty entry from a position on. -/
def storeFrom (item : ι) : ℕ → List (Option ι) → List (Option ι)
  | _, [] => []
  | 0, none :: db => some item :: db
  | 0, some old :: db => some old :: storeFrom item 0 db
  | i + 1, entry :: db => entry :: storeFrom item i db

/-- `me.store(filter, dbAddr, entry, 1)`. -/
def store (item : Option ι) (db : List (Option ι)) (entry : ℕ) : List (Option ι) :=
  match item with
  | none => db
  | some item => storeFrom item (entry - 1) db

/-- `me.setInterfaceConfiguration(slot, ...)`. -/
def setInterfaceConfiguration (config : String → ℕ → Option (ι × ℤ)) (me : String) (slot : ℕ)
    (stack : Option (ι × ℤ)) : String → ℕ → Option (ι × ℤ) :=
  Function.update config me (Function.update (config me) slot stack)

/-- The request up to `inv.transferItem`. -/
def beforeTransfer (w : World ι) (r : Request ι) : World ι :=
  let db := store r.item (clear w.db 1) r.entry
  { db := db
    config := setInterfaceConfiguration w.config r.me r.entry
      (db[r.entry - 1]?.join.map fun item => (item, r.size)) }

/-- The whole request. -/
def next (w : World ι) (r : Request ι) : World ι :=
  let w := beforeTransfer w r
  { w with config := setInterfaceConfiguration w.config r.me 1 none }

/-- A database of some size, without anything in it or in the interfaces. -/
def fresh (size : ℕ) : World ι := ⟨List.replicate size none, fun _ _ => none⟩

/-- The entry is one of the database, and the filter matches something. -/
def Request.Ok (size : ℕ) (r : Request ι) : Prop := r.entry ≤ size ∧ r.item.isSome

def machine (ι : Type) (size : ℕ) : Machine (World ι) (Request ι) := ⟨fun _ r => r.Ok size, next⟩

/-- The transfer runs while the slot is configured to the item that is asked for. -/
def Configured (w : World ι) (r : Request ι) : Prop :=
  (beforeTransfer w r).config r.me r.entry = r.item.map fun item => (item, r.size)

/-- What a request should do: transfer the right item, clear its slot, and leave no entry that
another request could take for its own. -/
structure Right (size : ℕ) (w : World ι) (r : Request ι) : Prop where
  configured : Configured w r
  cleared : (next w r).config r.me r.entry = none
  left : ∀ r', r'.Ok size → Configured (next w r) r'

/-! What is stored. -/

theorem storeFrom_self {item : ι} {db : List (Option ι)} {i : ℕ} (h : i < db.length) :
    (storeFrom item i db)[i]? = some (some ((db[i]?.join).getD item)) := by
  induction db generalizing i with
  | nil => simp at h
  | cons entry db ih =>
    cases i with
    | zero => cases entry <;> rfl
    | succ i => simpa [storeFrom] using ih (by simpa using h)

/-- Nothing else changes where the entry is empty. -/
theorem storeFrom_of_empty {item : ι} {db : List (Option ι)} {i : ℕ} (h : db[i]? = some none) :
    storeFrom item i db = db.set i (some item) := by
  induction db generalizing i with
  | nil => simp at h
  | cons entry db ih =>
    cases i with
    | zero =>
      obtain rfl : entry = none := by simpa using h
      rfl
    | succ i => rw [storeFrom, ih (by simpa using h), List.set_cons_succ]

theorem config_self (config : String → ℕ → Option (ι × ℤ)) (me : String) (slot : ℕ)
    (stack : Option (ι × ℤ)) : setInterfaceConfiguration config me slot stack me slot = stack := by
  simp [setInterfaceConfiguration]

theorem config_of_ne (config : String → ℕ → Option (ι × ℤ)) (me : String) {slot other : ℕ}
    (hne : other ≠ slot) (stack : Option (ι × ℤ)) :
    setInterfaceConfiguration config me slot stack me other = config me other := by
  simp [setInterfaceConfiguration, hne]

theorem beforeTransfer_config (w : World ι) (r : Request ι) :
    (beforeTransfer w r).config r.me r.entry =
      ((beforeTransfer w r).db[r.entry - 1]?).join.map fun item => (item, r.size) :=
  config_self ..

theorem length_store (item : Option ι) (db : List (Option ι)) (entry : ℕ) :
    (store item db entry).length = db.length := by
  have hfrom (item : ι) (i : ℕ) : (storeFrom item i db).length = db.length := by
    induction db generalizing i with
    | nil => cases i <;> rfl
    | cons entry db ih =>
      cases i with
      | zero => cases entry <;> simp [storeFrom, ih]
      | succ i => simp [storeFrom, ih]
  cases item with
  | none => rfl
  | some item => exact hfrom item _

/-- The entry of a request holds something when the slot is configured from it. -/
theorem exists_configured {size : ℕ} {w : World ι} (hlength : w.db.length = size) {r : Request ι}
    (hr : r.Ok size) : ∃ item, (beforeTransfer w r).config r.me r.entry = some (item, r.size) := by
  obtain ⟨item, hitem⟩ := Option.isSome_iff_exists.mp hr.2
  have hlt : r.entry - 1 < (clear w.db 1).length := by
    have hpos := r.entry_pos
    have hle := hr.1
    simp only [clear, List.length_set]
    omega
  refine ⟨(((clear w.db 1)[r.entry - 1]?).join).getD item, ?_⟩
  rw [beforeTransfer_config, beforeTransfer, hitem]
  simp only [store, storeFrom_self hlt, Option.join_some, Option.map_some]

/-- A slot other than the first stays configured. -/
theorem cleared_iff {size : ℕ} {w : World ι} (hlength : w.db.length = size) {r : Request ι}
    (hr : r.Ok size) : (next w r).config r.me r.entry = none ↔ r.entry = 1 := by
  constructor
  · intro hnone
    by_contra hne
    obtain ⟨item, hitem⟩ := exists_configured hlength hr
    have hsame : (next w r).config r.me r.entry = (beforeTransfer w r).config r.me r.entry :=
      config_of_ne _ _ hne _
    rw [hsame, hitem] at hnone
    cases hnone
  · intro hone
    rw [hone]
    exact config_self ..

/-! Runs. -/

/-- All entries but the first are empty. -/
structure Clean (size : ℕ) (w : World ι) : Prop where
  length : w.db.length = size
  empty : ∀ i, 0 < i → i < size → w.db[i]? = some none

theorem clean_fresh (size : ℕ) : Clean size (fresh size : World ι) := by
  refine ⟨List.length_replicate, fun i _ hi => ?_⟩
  simp [fresh, hi]

theorem Clean.store_eq {size : ℕ} {w : World ι} (h : Clean size w) {r : Request ι} (hr : r.Ok size)
    {item : ι} (hitem : r.item = some item) :
    (beforeTransfer w r).db = (clear w.db 1).set (r.entry - 1) (some item) := by
  have hpos := r.entry_pos
  have hle := hr.1
  have hempty : (clear w.db 1)[r.entry - 1]? = some none := by
    rw [clear, List.getElem?_set]
    split_ifs with hfirst hlength
    · rfl
    · rw [h.length] at hlength
      omega
    · exact h.empty _ (by omega) (by omega)
  rw [beforeTransfer, hitem, store, storeFrom_of_empty hempty]

theorem Clean.configured {size : ℕ} {w : World ι} (h : Clean size w) {r : Request ι}
    (hr : r.Ok size) : Configured w r := by
  obtain ⟨item, hitem⟩ := Option.isSome_iff_exists.mp hr.2
  have hpos := r.entry_pos
  have hle := hr.1
  have hlt : r.entry - 1 < (clear w.db 1).length := by
    rw [clear, List.length_set, h.length]
    omega
  rw [Configured, beforeTransfer_config, h.store_eq hr hitem, hitem,
    List.getElem?_set_self hlt, Option.join_some]

theorem Clean.next {size : ℕ} {w : World ι} (h : Clean size w) {r : Request ι} (hr : r.Ok size)
    (hone : r.entry = 1) : Clean size (next w r) := by
  obtain ⟨item, hitem⟩ := Option.isSome_iff_exists.mp hr.2
  have hdb : (MEInterface.next w r).db = (clear w.db 1).set (r.entry - 1) (some item) :=
    h.store_eq hr hitem
  constructor
  · rw [hdb, List.length_set, clear, List.length_set, h.length]
  · intro i hi hlt
    rw [hdb, hone, clear, List.getElem?_set_ne (by omega), List.getElem?_set_ne (by omega)]
    exact h.empty i hi hlt

theorem length_exec {size : ℕ} (rs : List (Request ι)) {w : World ι} (h : w.db.length = size) :
    ((machine ι size).exec w rs).db.length = size := by
  induction rs generalizing w with
  | nil => exact h
  | cons r rs ih =>
    have hnext : (MEInterface.next w r).db.length = size :=
      (length_store _ _ _).trans ((List.length_set ..).trans h)
    exact ih hnext

theorem clean_exec {size : ℕ} {rs : List (Request ι)} (hrs : ∀ r ∈ rs, r.Ok size)
    (hone : ∀ r ∈ rs, r.entry = 1) {w : World ι} (h : Clean size w) :
    Clean size ((machine ι size).exec w rs) := by
  induction rs generalizing w with
  | nil => exact h
  | cons r rs ih =>
    obtain ⟨hr, hrs⟩ := List.forall_mem_cons.mp hrs
    obtain ⟨hfirst, hone⟩ := List.forall_mem_cons.mp hone
    exact ih hrs hone (h.next hr hfirst)

/-- Every request of a run is right if and only if all of them are for the first slot. -/
theorem requests_right_iff {size : ℕ} {rs : List (Request ι)} (hrs : ∀ r ∈ rs, r.Ok size) :
    (∀ k r, rs[k]? = some r → Right size ((machine ι size).exec (fresh size) (rs.take k)) r) ↔
      ∀ r ∈ rs, r.entry = 1 := by
  constructor
  · intro hright r hr
    obtain ⟨k, hk⟩ := List.mem_iff_getElem?.mp hr
    have hlength : ((machine ι size).exec (fresh size) (rs.take k)).db.length = size :=
      length_exec _ List.length_replicate
    exact (cleared_iff hlength (hrs r hr)).mp (hright k r hk).cleared
  · intro hone k r hk
    have hr := List.mem_of_getElem? hk
    have hclean : Clean size ((machine ι size).exec (fresh size) (rs.take k)) :=
      clean_exec (fun r h => hrs r (List.mem_of_mem_take h))
        (fun r h => hone r (List.mem_of_mem_take h)) (clean_fresh size)
    refine ⟨hclean.configured (hrs r hr), ?_, fun r' hr' => ?_⟩
    · exact (cleared_iff hclean.length (hrs r hr)).mpr (hone r hr)
    · exact (hclean.next (hrs r hr) (hone r hr)).configured hr'

/-- A request for an item of a network with iron and gold. -/
def wantItem (entry : ℕ) (entry_pos : 0 < entry) (item : Item ℤ) : Request (Item ℤ) where
  me := "me"
  entry := entry
  filter := fun other => other = item
  size := 1
  network := [iron, gold]
  entry_pos := entry_pos

/-- Through the second slot gold is asked for after iron, and iron is transferred. -/
theorem second_slot_wrong :
    (∀ r ∈ [wantItem 2 (by decide) iron, wantItem 2 (by decide) gold], r.Ok 9) ∧
    (beforeTransfer (next (fresh 9) (wantItem 2 (by decide) iron))
      (wantItem 2 (by decide) gold)).config "me" 2 = some (iron, 1) ∧
    (next (fresh 9) (wantItem 2 (by decide) iron)).config "me" 2 = some (iron, 1) ∧
    ¬ ∀ k r, [wantItem 2 (by decide) iron, wantItem 2 (by decide) gold][k]? = some r →
      Right 9 ((machine (Item ℤ) 9).exec (fresh 9)
        ([wantItem 2 (by decide) iron, wantItem 2 (by decide) gold].take k)) r := by
  refine ⟨?_, by decide, by decide, fun h => ?_⟩
  · simp [Request.Ok, Request.item, wantItem, iron, gold]
  · have hcleared := (h 0 _ rfl).cleared
    exact absurd hcleared (by decide)

/-- Through the first slot both transfers are right. -/
theorem requests_right_iff_first :
    (∀ r ∈ [wantItem 1 (by decide) iron, wantItem 1 (by decide) gold], r.entry = 1) ∧
    ∀ k r, [wantItem 1 (by decide) iron, wantItem 1 (by decide) gold][k]? = some r →
      Right 9 ((machine (Item ℤ) 9).exec (fresh 9)
        ([wantItem 1 (by decide) iron, wantItem 1 (by decide) gold].take k)) r := by
  have hfirst : ∀ r ∈ [wantItem 1 (by decide) iron, wantItem 1 (by decide) gold],
      r.entry = 1 := by simp [wantItem]
  refine ⟨hfirst, (requests_right_iff ?_).mpr hfirst⟩
  simp [Request.Ok, Request.item, wantItem, iron, gold]

end MEInterface
end OCRemote
