import Mathlib.Data.List.AList
import OCRemote.Factory.Item
import OCRemote.Lib.MaxHeap
import OCRemote.Lib.Tally

/-! The table of stored items (`factory.rs`): the providers of each item in a heap ordered by
priority, and the maps that `search_item` looks an item up in. -/

namespace OCRemote
open Tally

structure Provider (ε : Type) where
  priority : ℤ
  nProvided : ℤ
  extractor : ε
  deriving DecidableEq

structure ItemInfo (ε : Type) where
  nStored : ℤ
  nBackup : ℤ
  providers : List (Provider ε)
  deriving DecidableEq

structure Reservation (ε : Type) where
  extractors : List (ε × ℤ)
  deriving DecidableEq

namespace ItemInfo
variable {ε : Type}

def provide (info : ItemInfo ε) (provider : Provider ε) : ItemInfo ε :=
  if 0 < provider.nProvided then
    { info with nStored := info.nStored + provider.nProvided, providers := provider :: info.providers }
  else info

/-- The differences are those of `i32`, which wrap in a release build. -/
def getAvailability (info : ItemInfo ε) (allowBackup : Bool) (extraBackup : ℤ) : ℤ :=
  let result := toI32 (info.nStored - extraBackup)
  max 0 (if allowBackup then result else toI32 (result - info.nBackup))

/-- The loop of `reserve`. No value means that `unwrap` met an empty heap. -/
def reserveLoop (rule : TopRule (Provider ε) Provider.priority) :
    ℕ → ItemInfo ε → ℤ → List (ε × ℤ) → Option (ItemInfo ε × Reservation ε)
  | 0, _, _, _ => none
  | fuel + 1, info, size, extractors =>
    if 0 < size then
      match MaxHeap.peek rule info.providers with
      | none => none
      | some best =>
        let toReserve := min size best.nProvided
        let nProvided := best.nProvided - toReserve
        let providers :=
          -- an empty provider leaves the heap, another one is changed where it is
          if nProvided ≤ 0 then MaxHeap.pop rule info.providers
          else MaxHeap.setTop rule info.providers fun p => { p with nProvided := nProvided }
        reserveLoop rule fuel { info with nStored := info.nStored - toReserve, providers := providers }
          (size - toReserve) (extractors ++ [(best.extractor, toReserve)])
    else some (info, ⟨extractors⟩)

/-- Every turn takes a provider off the heap or is the last one. -/
def reserve (rule : TopRule (Provider ε) Provider.priority) (info : ItemInfo ε) (size : ℤ) :
    Option (ItemInfo ε × Reservation ε) :=
  reserveLoop rule (info.providers.length + 1) info size []

end ItemInfo

/-! What a reservation means for the heap: amounts are drawn from it one after the other, each
from an entry of the greatest priority that is left. -/

section Draws
variable {ε : Type}

def total (heap : List (Provider ε)) : ℤ := (heap.map Provider.nProvided).sum

def amount [DecidableEq ε] (e : ε) (heap : List (Provider ε)) : ℤ :=
  (heap.map fun p => if p.extractor = e then p.nProvided else 0).sum

structure Draw (heap : List (Provider ε)) (d : ε × ℤ) (heap' : List (Provider ε)) : Prop where
  positive : 0 < d.2
  cut : ∃ l₁ p l₂ rest, heap = l₁ ++ p :: l₂ ∧ heap' = l₁ ++ rest ++ l₂ ∧ p.extractor = d.1 ∧
    (∀ q ∈ heap, q.priority ≤ p.priority) ∧
    (rest = [] ∧ d.2 = p.nProvided ∨
      d.2 < p.nProvided ∧ rest = [{ p with nProvided := p.nProvided - d.2 }])

inductive Draws : List (Provider ε) → List (ε × ℤ) → List (Provider ε) → Prop
  | nil (heap) : Draws heap [] heap
  | cons {heap heap' heap'' d ds} :
      Draw heap d heap' → Draws heap' ds heap'' → Draws heap (d :: ds) heap''

def Positive (heap : List (Provider ε)) : Prop := ∀ p ∈ heap, 0 < p.nProvided

theorem Draw.total_eq {heap heap' : List (Provider ε)} {d : ε × ℤ} (h : Draw heap d heap') :
    total heap' = total heap - d.2 := by
  obtain ⟨-, l₁, p, l₂, rest, rfl, rfl, -, -, h⟩ := h
  rcases h with ⟨rfl, hd⟩ | ⟨-, rfl⟩ <;>
  · simp only [total, List.map_append, List.map_cons, List.map_nil, List.sum_append, List.sum_cons,
      List.sum_nil]
    omega

theorem Draw.amount_eq [DecidableEq ε] {heap heap' : List (Provider ε)} {d : ε × ℤ}
    (h : Draw heap d heap')
    (e : ε) : amount e heap = (if d.1 = e then d.2 else 0) + amount e heap' := by
  obtain ⟨-, l₁, p, l₂, rest, rfl, rfl, hp, -, h⟩ := h
  rw [← hp]
  rcases h with ⟨rfl, hd⟩ | ⟨-, rfl⟩ <;>
  · simp only [amount, List.map_append, List.map_cons, List.map_nil, List.sum_append, List.sum_cons,
      List.sum_nil]
    split_ifs <;> omega

/-- Entries are only lowered or taken away. -/
theorem Draw.mem_of_mem {heap heap' : List (Provider ε)} {d : ε × ℤ} (h : Draw heap d heap')
    (hpos : Positive heap) : ∀ q ∈ heap', 0 < q.nProvided ∧
      ∃ p ∈ heap, p.extractor = q.extractor ∧ p.priority = q.priority := by
  obtain ⟨-, l₁, p, l₂, rest, rfl, rfl, -, -, h⟩ := h
  intro q hq
  simp only [List.mem_append] at hq
  rcases hq with (hq | hq) | hq
  · exact ⟨hpos q (by simp [hq]), q, by simp [hq], rfl, rfl⟩
  · rcases h with ⟨rfl, -⟩ | ⟨hlt, rfl⟩
    · simp at hq
    · obtain rfl := List.mem_singleton.mp hq
      exact ⟨by simpa using hlt, p, by simp, rfl, rfl⟩
  · exact ⟨hpos q (by simp [hq]), q, by simp [hq], rfl, rfl⟩

theorem Draw.exists_top {heap heap' : List (Provider ε)} {d : ε × ℤ} (h : Draw heap d heap') :
    ∃ p ∈ heap, p.extractor = d.1 ∧ ∀ q ∈ heap, q.priority ≤ p.priority := by
  obtain ⟨-, l₁, p, l₂, rest, rfl, -, hp, hmax, -⟩ := h
  exact ⟨p, by simp, hp, hmax⟩

theorem Draws.total_eq {heap heap' : List (Provider ε)} {ds : List (ε × ℤ)}
    (h : Draws heap ds heap') :
    total heap' = total heap - (ds.map Prod.snd).sum := by
  induction h with
  | nil => simp
  | cons hd _ ih =>
    rw [ih, hd.total_eq, List.map_cons, List.sum_cons]
    omega

theorem Draws.amount_eq [DecidableEq ε] {heap heap' : List (Provider ε)} {ds : List (ε × ℤ)}
    (h : Draws heap ds heap') (e : ε) : amount e heap = sumOf e ds + amount e heap' := by
  induction h with
  | nil => simp [sumOf]
  | cons hd _ ih =>
    rw [hd.amount_eq, ih]
    rw [sumOf_cons]
    omega

theorem Draws.mem_of_mem {heap heap' : List (Provider ε)} {ds : List (ε × ℤ)}
    (h : Draws heap ds heap')
    (hpos : Positive heap) : ∀ q ∈ heap', 0 < q.nProvided ∧
      ∃ p ∈ heap, p.extractor = q.extractor ∧ p.priority = q.priority := by
  induction h with
  | nil heap => exact fun q hq => ⟨hpos q hq, q, hq, rfl, rfl⟩
  | cons hd _ ih =>
    have hstep := hd.mem_of_mem hpos
    intro q hq
    obtain ⟨hq0, p, hp, he, hprio⟩ := ih (fun p hp => (hstep p hp).1) q hq
    obtain ⟨-, p', hp', he', hprio'⟩ := hstep p hp
    exact ⟨hq0, p', hp', he'.trans he, hprio'.trans hprio⟩

theorem amount_nonneg [DecidableEq ε] {heap : List (Provider ε)} (h : Positive heap) (e : ε) :
    0 ≤ amount e heap := by
  apply List.sum_nonneg
  intro a ha
  obtain ⟨p, hp, rfl⟩ := List.mem_map.mp ha
  split_ifs
  · exact (h p hp).le
  · exact le_rfl

theorem amount_eq_zero [DecidableEq ε] {heap : List (Provider ε)} {e : ε}
    (h : ∀ p ∈ heap, p.extractor ≠ e) : amount e heap = 0 := by
  apply List.sum_eq_zero
  intro a ha
  obtain ⟨p, hp, rfl⟩ := List.mem_map.mp ha
  simp [h p hp]

theorem total_nonneg {heap : List (Provider ε)} (h : Positive heap) : 0 ≤ total heap := by
  apply List.sum_nonneg
  intro a ha
  obtain ⟨p, hp, rfl⟩ := List.mem_map.mp ha
  exact (h p hp).le

end Draws

namespace ItemInfo
variable {ε : Type} (rule : TopRule (Provider ε) Provider.priority)

/-- One turn of the loop draws from the best provider. -/
theorem draw_of_peek {heap : List (Provider ε)} {best : Provider ε}
    (hbest : MaxHeap.peek rule heap = some best) (hpos : Positive heap) {size : ℤ}
    (hsize : 0 < size) :
    Draw heap (best.extractor, min size best.nProvided)
      (if best.nProvided - min size best.nProvided ≤ 0 then MaxHeap.pop rule heap
        else MaxHeap.setTop rule heap
          fun p => { p with nProvided := best.nProvided - min size best.nProvided }) := by
  obtain ⟨l₁, l₂, hl, hpop, hset, hmax⟩ := MaxHeap.peek_cut rule hbest
  have hbest0 : 0 < best.nProvided := hpos best (by simp [hl])
  refine ⟨by simp only; omega, l₁, best, l₂, ?_⟩
  by_cases hc : best.nProvided - min size best.nProvided ≤ 0
  · refine ⟨[], hl, ?_, rfl, hmax, .inl ⟨rfl, by simp only; omega⟩⟩
    rw [if_pos hc, hpop, List.append_nil]
  · refine ⟨[{ best with nProvided := best.nProvided - min size best.nProvided }], hl, ?_, rfl, hmax,
      .inr ⟨by simp only; omega, rfl⟩⟩
    rw [if_neg hc, hset, List.append_assoc, List.singleton_append]

theorem reserveLoop_draws (fuel : ℕ) (info : ItemInfo ε) (size : ℤ) (extractors : List (ε × ℤ))
    (hpos : Positive info.providers) (h0 : 0 ≤ size) (hle : size ≤ total info.providers)
    (hfuel : info.providers.length + (if 0 < size then 1 else 0) < fuel + 1) (hf : 0 < fuel) :
    ∃ info' ds, reserveLoop rule fuel info size extractors = some (info', ⟨extractors ++ ds⟩) ∧
      Draws info.providers ds info'.providers ∧ (∀ d ∈ ds, 0 < d.2) ∧ (ds.map Prod.snd).sum = size ∧
      info'.nStored = info.nStored - size ∧ info'.nBackup = info.nBackup := by
  induction fuel generalizing info size extractors with
  | zero => omega
  | succ fuel ih =>
    by_cases hsize : 0 < size
    · have hne : info.providers ≠ [] := by
        rintro hnil
        simp only [hnil, total, List.map_nil, List.sum_nil] at hle
        omega
      obtain ⟨best, hbest⟩ := MaxHeap.peek_isSome rule hne
      obtain ⟨l₁, l₂, hl, hpop, hset, -⟩ := MaxHeap.peek_cut rule hbest
      have hdraw := draw_of_peek rule hbest hpos hsize
      have hbest0 : 0 < best.nProvided := hpos best (by simp [hl])
      simp only [reserveLoop, if_pos hsize, hbest]
      set providers :=
        if best.nProvided - min size best.nProvided ≤ 0 then MaxHeap.pop rule info.providers
          else MaxHeap.setTop rule info.providers
            fun p => { p with nProvided := best.nProvided - min size best.nProvided } with hproviders
      -- one provider less, or nothing is left to reserve
      have hlen : providers.length + (if 0 < size - min size best.nProvided then 1 else 0) <
          info.providers.length + 1 := by
        by_cases hc : best.nProvided - min size best.nProvided ≤ 0
        · rw [hproviders, if_pos hc, hpop, hl]
          simp only [List.length_append, List.length_cons]
          split_ifs <;> omega
        · rw [hproviders, if_neg hc, hset, hl]
          simp only [List.length_append, List.length_cons]
          rw [if_neg (by omega)]
          omega
      have hlen0 : 0 < info.providers.length := List.length_pos_of_ne_nil hne
      rw [if_pos hsize] at hfuel
      obtain ⟨info', ds, hrun, hds, hds0, hsum, hstored, hbackup⟩ := ih
        { info with nStored := info.nStored - min size best.nProvided, providers := providers }
        (size - min size best.nProvided) (extractors ++ [(best.extractor, min size best.nProvided)])
        (fun p hp => (hdraw.mem_of_mem hpos p hp).1) (by omega)
        (by simp only [hdraw.total_eq]; omega) (by simp only; omega) (by omega)
      refine ⟨info', (best.extractor, min size best.nProvided) :: ds, ?_, .cons hdraw hds, ?_, ?_,
        ?_, hbackup⟩
      · rw [hrun, List.append_assoc, List.singleton_append]
      · simpa only [List.forall_mem_cons] using ⟨hdraw.positive, hds0⟩
      · rw [List.map_cons, List.sum_cons, hsum]
        omega
      · rw [hstored]
        simp only
        omega
    · obtain rfl : size = 0 := by omega
      exact ⟨info, [], by simp [reserveLoop], .nil _, by simp, rfl, by simp, rfl⟩

/-- `n_stored` is the sum over the heap, and the heap holds no empty provider. -/
structure Stocked (info : ItemInfo ε) : Prop where
  stored : info.nStored = total info.providers
  positive : Positive info.providers

theorem Stocked.nonneg {info : ItemInfo ε} (h : info.Stocked) : 0 ≤ info.nStored :=
  h.stored ▸ total_nonneg h.positive

theorem Stocked.provide {info : ItemInfo ε} (h : info.Stocked) (provider : Provider ε) :
    (info.provide provider).Stocked := by
  unfold ItemInfo.provide
  split_ifs with hpos
  · constructor
    · simp only [total, List.map_cons, List.sum_cons, h.stored]
      omega
    · rintro p (_ | ⟨_, hp⟩)
      · exact hpos
      · exact h.positive p hp
  · exact h

/-- A reservation of any size keeps this, if it succeeds. -/
theorem Stocked.reserveLoop {fuel : ℕ} {info : ItemInfo ε} {size : ℤ} {extractors : List (ε × ℤ)}
    {r : ItemInfo ε × Reservation ε} (h : info.Stocked)
    (hrun : ItemInfo.reserveLoop rule fuel info size extractors = some r) : r.1.Stocked := by
  induction fuel generalizing info size extractors with
  | zero => cases hrun
  | succ fuel ih =>
    rw [ItemInfo.reserveLoop] at hrun
    split_ifs at hrun with hsize
    · split at hrun
      · cases hrun
      · rename_i best hbest
        have hdraw := draw_of_peek rule hbest h.positive hsize
        refine ih ⟨?_, fun p hp => (hdraw.mem_of_mem h.positive p hp).1⟩ hrun
        simp only [hdraw.total_eq, h.stored]
    · obtain rfl := Option.some.inj hrun
      exact h

/-- A reservation that succeeds is for all that was asked for. -/
theorem reserveLoop_sum {fuel : ℕ} {info : ItemInfo ε} {size : ℤ} {extractors : List (ε × ℤ)}
    {r : ItemInfo ε × Reservation ε} (h0 : 0 ≤ size)
    (h : reserveLoop rule fuel info size extractors = some r) :
    (r.2.extractors.map Prod.snd).sum = (extractors.map Prod.snd).sum + size := by
  induction fuel generalizing info size extractors with
  | zero => cases h
  | succ fuel ih =>
    rw [reserveLoop] at h
    split_ifs at h with hsize
    · split at h
      · cases h
      · rename_i best hbest
        rw [ih (by omega) h, List.map_append, List.sum_append]
        simp
    · obtain rfl := Option.some.inj h
      simp only
      omega

/-- A reservation of at most what is stored succeeds, and draws what was asked for. -/
theorem reserve_draws {info : ItemInfo ε} {size : ℤ} (h : info.Stocked) (h0 : 0 ≤ size)
    (hle : size ≤ info.nStored) :
    ∃ info' r, info.reserve rule size = some (info', r) ∧
      Draws info.providers r.extractors info'.providers ∧ (∀ d ∈ r.extractors, 0 < d.2) ∧
      (r.extractors.map Prod.snd).sum = size ∧ info'.nStored = info.nStored - size ∧
      info'.nBackup = info.nBackup ∧ info'.Stocked := by
  obtain ⟨info', ds, hrun, hdraws, hds, hsum, hstored, hbackup⟩ :=
    reserveLoop_draws rule (info.providers.length + 1) info size [] h.positive h0 (h.stored ▸ hle)
      (by split_ifs <;> omega) (Nat.succ_pos _)
  refine ⟨info', ⟨ds⟩, by simpa [reserve] using hrun, hdraws, hds, hsum, hstored, hbackup, ?_, ?_⟩
  · rw [hstored, hdraws.total_eq, hsum, h.stored]
  · exact fun p hp => (hdraws.mem_of_mem h.positive p hp).1

/-- How much of an item has to be left. -/
def keptBack (info : ItemInfo ε) (allowBackup : Bool) (extraBackup : ℤ) : ℤ :=
  extraBackup + if allowBackup then 0 else info.nBackup

theorem getAvailability_eq (info : ItemInfo ε) (allowBackup : Bool) (extraBackup : ℤ) :
    info.getAvailability allowBackup extraBackup =
      max 0 (toI32 (info.nStored - info.keptBack allowBackup extraBackup)) := by
  unfold getAvailability keptBack
  cases allowBackup
  · simp only [Bool.false_eq_true, if_false, toI32_sub]
    rw [sub_sub]
  · simp

/-- A difference that does not wrap below is at least what is available. -/
theorem getAvailability_le_max {info : ItemInfo ε} {allowBackup : Bool} {extraBackup : ℤ}
    (h : i32Min ≤ info.nStored - info.keptBack allowBackup extraBackup) :
    info.getAvailability allowBackup extraBackup ≤
      max 0 (info.nStored - info.keptBack allowBackup extraBackup) := by
  rw [getAvailability_eq]
  exact max_le_max le_rfl (toI32_le h)

/-- Nothing wraps where the difference fits. -/
theorem getAvailability_of_bounds {info : ItemInfo ε} {allowBackup : Bool} {extraBackup : ℤ}
    (h0 : i32Min ≤ info.nStored - info.keptBack allowBackup extraBackup)
    (h1 : info.nStored - info.keptBack allowBackup extraBackup ≤ i32Max) :
    info.getAvailability allowBackup extraBackup =
      max 0 (info.nStored - info.keptBack allowBackup extraBackup) := by
  rw [getAvailability_eq, toI32_of_bounds h0 h1]

theorem keptBack_nonneg {info : ItemInfo ε} {allowBackup : Bool} {extraBackup : ℤ}
    (hb : 0 ≤ info.nBackup) (he : 0 ≤ extraBackup) : 0 ≤ info.keptBack allowBackup extraBackup := by
  unfold keptBack
  split_ifs <;> omega

theorem getAvailability_le {info : ItemInfo ε} {allowBackup : Bool} {extraBackup : ℤ}
    (hs : 0 ≤ info.nStored) (hb : 0 ≤ info.nBackup) (he : 0 ≤ extraBackup)
    (hfits : info.keptBack allowBackup extraBackup ≤ i32Max) :
    info.getAvailability allowBackup extraBackup ≤ info.nStored := by
  have hkept : 0 ≤ info.keptBack allowBackup extraBackup := keptBack_nonneg hb he
  refine (getAvailability_le_max ?_).trans (max_le hs (by omega))
  simp only [i32Min, i32Max] at hfits ⊢
  omega

theorem getAvailability_nonneg (info : ItemInfo ε) (allowBackup : Bool) (extraBackup : ℤ) :
    0 ≤ info.getAvailability allowBackup extraBackup := le_max_left _ _

end ItemInfo

/-- The order in which a hash map is enumerated: any one. -/
structure Enumeration (α : Type) where
  list : List α → List α
  perm : ∀ l, (list l).Perm l

structure ItemTable (ι ε : Type) where
  items : AList fun _ : ι => ItemInfo ε
  labelMap : AList fun _ : String => List ι
  nameMap : AList fun _ : String => List ι
  /-- Every item that is listed under a label or a name is in the table. -/
  label_mem : ∀ label l, labelMap.lookup label = some l → ∀ item ∈ l, item ∈ items
  name_mem : ∀ name l, nameMap.lookup name = some l → ∀ item ∈ l, item ∈ items

namespace ItemTable
variable {ι ε : Type} [DecidableEq ι]

/-- `entry(key).or_default().push(item)`. -/
def pushEntry (m : AList fun _ : String => List ι) (key : String) (item : ι) :
    AList fun _ : String => List ι := m.insert key ((m.lookup key).getD [] ++ [item])

omit [DecidableEq ι] in
theorem mem_of_pushEntry {m : AList fun _ : String => List ι} {key key' : String} {item : ι}
    {l : List ι}
    (h : (pushEntry m key item).lookup key' = some l) :
    ∀ i ∈ l, i = item ∨ ∃ l', m.lookup key' = some l' ∧ i ∈ l' := by
  intro i hi
  by_cases hk : key' = key
  · subst hk
    simp only [pushEntry, AList.lookup_insert, Option.some.injEq] at h
    subst h
    rcases List.mem_append.mp hi with hi | hi
    · cases hm : m.lookup key' with
      | none => simp [hm] at hi
      | some l' => exact .inr ⟨l', rfl, by simpa [hm] using hi⟩
    · exact .inl (List.mem_singleton.mp hi)
  · simp only [pushEntry, AList.lookup_insert_ne hk] at h
    exact .inr ⟨l, h, hi⟩

def empty : ItemTable ι ε := ⟨∅, ∅, ∅, by simp, by simp⟩

def setInfo (t : ItemTable ι ε) (item : ι) (info : ItemInfo ε) : ItemTable ι ε where
  items := t.items.insert item info
  labelMap := t.labelMap
  nameMap := t.nameMap
  label_mem label l h i hi := (AList.mem_insert _).mpr (.inr (t.label_mem label l h i hi))
  name_mem name l h i hi := (AList.mem_insert _).mpr (.inr (t.name_mem name l h i hi))

variable [ItemClass ι]

def registerStoredItem (t : ItemTable ι ε) (item : ι) : ItemTable ι ε :=
  match t.items.lookup item with
  | some _ => t
  | none =>
    { items := t.items.insert item ⟨0, 0, []⟩
      labelMap := pushEntry t.labelMap (ItemClass.label item) item
      nameMap := pushEntry t.nameMap (ItemClass.name item) item
      label_mem := fun label l h i hi => by
        rcases mem_of_pushEntry h i hi with rfl | ⟨l', hl', hi'⟩
        · exact (AList.mem_insert _).mpr (.inl rfl)
        · exact (AList.mem_insert _).mpr (.inr (t.label_mem label l' hl' i hi'))
      name_mem := fun name l h i hi => by
        rcases mem_of_pushEntry h i hi with rfl | ⟨l', hl', hi'⟩
        · exact (AList.mem_insert _).mpr (.inl rfl)
        · exact (AList.mem_insert _).mpr (.inr (t.name_mem name l' hl' i hi')) }

/-- `register_stored_item(item).provide(provider)`. -/
def provide (t : ItemTable ι ε) (item : ι) (provider : Provider ε) : ItemTable ι ε :=
  let t := t.registerStoredItem item
  match t.items.lookup item with
  | some info => t.setInfo item (info.provide provider)
  | none => t

def onCandidate (best : Option (ι × ItemInfo ε)) (new : ι × ItemInfo ε) : Option (ι × ItemInfo ε) :=
  match best with
  | some old => if new.2.nStored ≤ old.2.nStored then best else some new
  | none => some new

def candidates (order : Enumeration ι) (t : ItemTable ι ε) : Filter ι → List ι
  | .Label label => (t.labelMap.lookup label).getD []
  | .Name name => (t.nameMap.lookup name).getD []
  | .Both label name =>
    ((t.labelMap.lookup label).getD []).filter fun item => ItemClass.name item == name
  | .Custom _ func => (order.list t.items.keys).filter func

/-- No outer value means that an `unwrap` on the table failed. -/
def searchItem (order : Enumeration ι) (t : ItemTable ι ε) (filter : Filter ι) :
    Option (Option (ι × ItemInfo ε)) :=
  (t.candidates order filter).foldlM
    (fun best item => (t.items.lookup item).map fun info => onCandidate best (item, info)) none

def reserveItem (rule : TopRule (Provider ε) Provider.priority) (t : ItemTable ι ε) (item : ι)
    (size : ℤ) :
    Option (ItemTable ι ε × Reservation ε) :=
  match t.items.lookup item with
  | none => none
  | some info => (info.reserve rule size).map fun p => (t.setInfo item p.1, p.2)

/-- The end of `update_storages`: `n_backup` of the item that each filter finds is raised. -/
def addBackups (order : Enumeration ι) (t : ItemTable ι ε) :
    List (Filter ι × ℤ) → Option (ItemTable ι ε)
  | [] => some t
  | (filter, nBackup) :: backups =>
    match t.searchItem order filter with
    | none => none
    | some none => t.addBackups order backups
    | some (some (item, info)) =>
      (t.setInfo item { info with nBackup := info.nBackup + nBackup }).addBackups order backups

def endOfCycle (_ : ItemTable ι ε) : ItemTable ι ε := empty

omit [ItemClass ι] in
@[simp] theorem lookup_setInfo (t : ItemTable ι ε) (item item' : ι) (info : ItemInfo ε) :
    (t.setInfo item info).items.lookup item' =
      if item' = item then some info else t.items.lookup item' := by
  unfold setInfo
  split_ifs with h
  · rw [h, AList.lookup_insert]
  · rw [AList.lookup_insert_ne h]

omit [ItemClass ι] in
/-- What holds of every item still does when one of them gets an entry that it holds of. -/
theorem forall_setInfo {P : ι → ItemInfo ε → Prop} {t : ItemTable ι ε}
    (h : ∀ item info, t.items.lookup item = some info → P item info) {item' : ι}
    {info' : ItemInfo ε}
    (hnew : P item' info') :
    ∀ item info, (t.setInfo item' info').items.lookup item = some info → P item info := by
  intro item info hi
  rw [lookup_setInfo] at hi
  split_ifs at hi with heq
  · obtain rfl := Option.some.inj hi
    rw [heq]
    exact hnew
  · exact h item info hi

theorem lookup_registerStoredItem (t : ItemTable ι ε) (item item' : ι) :
    (t.registerStoredItem item).items.lookup item' =
      if item' = item then some ((t.items.lookup item).getD ⟨0, 0, []⟩) else t.items.lookup item' := by
  unfold registerStoredItem
  cases h : t.items.lookup item with
  | some info =>
    split_ifs with hi
    · rw [hi, h, Option.getD_some]
    · rfl
  | none =>
    split_ifs with hi
    · rw [hi, AList.lookup_insert, Option.getD_none]
    · exact AList.lookup_insert_ne hi

theorem lookup_provide (t : ItemTable ι ε) (item item' : ι) (provider : Provider ε) :
    (t.provide item provider).items.lookup item' =
      if item' = item then some (((t.items.lookup item).getD ⟨0, 0, []⟩).provide provider)
      else t.items.lookup item' := by
  have hreg := lookup_registerStoredItem t item
  have hself := hreg item
  rw [if_pos rfl] at hself
  simp only [provide, hself, lookup_setInfo]
  split_ifs with hi
  · rfl
  · rw [hreg, if_neg hi]

/-- What holds of every item, and of a new one, still does when an entry of it takes a provider. -/
theorem forall_provide {P : ι → ItemInfo ε → Prop} {t : ItemTable ι ε}
    (h : ∀ item info, t.items.lookup item = some info → P item info) {item' : ι}
    {provider : Provider ε}
    (hnew : P item' ⟨0, 0, []⟩) (hstep : ∀ info, P item' info → P item' (info.provide provider)) :
    ∀ item info, (t.provide item' provider).items.lookup item = some info → P item info := by
  have hold : P item' ((t.items.lookup item').getD ⟨0, 0, []⟩) := by
    cases hinfo : t.items.lookup item' with
    | none => exact hnew
    | some info => exact h item' info hinfo
  intro item info hi
  rw [lookup_provide] at hi
  split_ifs at hi with heq
  · obtain rfl := Option.some.inj hi
    rw [heq]
    exact hstep _ hold
  · exact h item info hi

/-- What is left of a provider in the heap of an item. -/
def left [DecidableEq ε] (t : ItemTable ι ε) (item : ι) (e : ε) : ℤ :=
  (t.items.lookup item).elim 0 fun info => amount e info.providers

theorem left_provide [DecidableEq ε] (t : ItemTable ι ε) (item' : ι) (provider : Provider ε)
    (item : ι) (e : ε) :
    (t.provide item' provider).left item e =
      t.left item e + if item = item' ∧ e = provider.extractor then
        max 0 provider.nProvided else 0 := by
  have hold : t.left item' e = amount e ((t.items.lookup item').getD ⟨0, 0, []⟩).providers := by
    unfold left
    cases t.items.lookup item' <;> rfl
  unfold left at hold ⊢
  rw [lookup_provide]
  by_cases heq : item = item'
  · subst heq
    rw [hold, if_pos rfl]
    simp only [Option.elim_some, ItemInfo.provide, true_and]
    by_cases hpos : 0 < provider.nProvided
    · rw [if_pos hpos]
      simp only [amount, List.map_cons, List.sum_cons, eq_comm (a := e)]
      split_ifs <;> omega
    · rw [if_neg hpos]
      split_ifs <;> omega
  · have hne : ¬(item = item' ∧ e = provider.extractor) := fun hc => heq hc.1
    rw [if_neg heq, if_neg hne, add_zero]

omit [ItemClass ι] in
theorem reserveItem_draws (rule : TopRule (Provider ε) Provider.priority) {t : ItemTable ι ε}
    {item : ι}
    {info : ItemInfo ε} (hinfo : t.items.lookup item = some info) {size : ℤ} (h : info.Stocked)
    (h0 : 0 ≤ size) (hle : size ≤ info.nStored) :
    ∃ info' r, t.reserveItem rule item size = some (t.setInfo item info', r) ∧
      Draws info.providers r.extractors info'.providers ∧ (∀ d ∈ r.extractors, 0 < d.2) ∧
      (r.extractors.map Prod.snd).sum = size ∧ info'.nStored = info.nStored - size ∧
      info'.nBackup = info.nBackup ∧ info'.Stocked := by
  obtain ⟨info', r, hrun, hspec⟩ := ItemInfo.reserve_draws rule h h0 hle
  refine ⟨info', r, ?_, hspec⟩
  unfold reserveItem
  rw [hinfo]
  simp only [hrun, Option.map_some]

omit [DecidableEq ι] in
theorem mem_of_mem_candidates {order : Enumeration ι} {t : ItemTable ι ε} {filter : Filter ι}
    {item : ι}
    (h : item ∈ t.candidates order filter) : item ∈ t.items := by
  have hlabel (label : String) (hi : item ∈ (t.labelMap.lookup label).getD []) :
      item ∈ t.items := by
    cases hm : t.labelMap.lookup label with
    | none => simp [hm] at hi
    | some l => exact t.label_mem label l hm item (by simpa [hm] using hi)
  cases filter with
  | Label label => exact hlabel label h
  | Name name =>
    unfold candidates at h
    cases hm : t.nameMap.lookup name with
    | none => simp [hm] at h
    | some l => exact t.name_mem name l hm item (by simpa [hm] using h)
  | Both label name => exact hlabel label (List.mem_filter.mp h).1
  | Custom desc func =>
    have hk := (order.perm _).mem_iff.mp (List.mem_filter.mp h).1
    exact AList.mem_keys.mpr hk

omit [DecidableEq ι] [ItemClass ι] in
theorem eq_or_eq_of_onCandidate {best : Option (ι × ItemInfo ε)} {new c : ι × ItemInfo ε}
    (h : onCandidate best new = some c) : best = some c ∨ new = c := by
  unfold onCandidate at h
  cases best with
  | none => exact .inr (Option.some.inj h)
  | some old =>
    simp only at h
    split_ifs at h
    · exact .inl h
    · exact .inr (Option.some.inj h)

/-- A search never fails, and what it finds is in the table. -/
theorem searchItem_spec (order : Enumeration ι) (t : ItemTable ι ε) (filter : Filter ι) :
    ∃ best, t.searchItem order filter = some best ∧
      ∀ item info, best = some (item, info) → t.items.lookup item = some info := by
  have hfold (l : List ι) (hl : ∀ item ∈ l, item ∈ t.items) (best : Option (ι × ItemInfo ε))
      (hbest : ∀ item info, best = some (item, info) → t.items.lookup item = some info) :
      ∃ best', l.foldlM (fun best item =>
          (t.items.lookup item).map fun info => onCandidate best (item, info))
          best = some best' ∧
          ∀ item info, best' = some (item, info) → t.items.lookup item = some info := by
    induction l generalizing best with
    | nil => exact ⟨best, rfl, hbest⟩
    | cons item l ih =>
      obtain ⟨hitem, hl⟩ := List.forall_mem_cons.mp hl
      obtain ⟨info, hinfo⟩ := Option.isSome_iff_exists.mp (AList.lookup_isSome.mpr hitem)
      rw [List.foldlM_cons, hinfo]
      apply ih hl
      intro item' info' h
      rcases eq_or_eq_of_onCandidate h with h | h
      · exact hbest item' info' h
      · obtain ⟨rfl, rfl⟩ := Prod.mk.inj h
        exact hinfo
  exact hfold _ (fun item h => mem_of_mem_candidates h) none (by simp)

omit [ItemClass ι] in
theorem reserveItem_sum {rule : TopRule (Provider ε) Provider.priority} {t : ItemTable ι ε} {item : ι}
    {size : ℤ} (h0 : 0 ≤ size) {r : ItemTable ι ε × Reservation ε}
    (h : t.reserveItem rule item size = some r) : (r.2.extractors.map Prod.snd).sum = size := by
  unfold reserveItem at h
  split at h
  · cases h
  · rename_i info hinfo
    obtain ⟨p, hreserve, rfl⟩ := Option.map_eq_some_iff.mp h
    simpa using ItemInfo.reserveLoop_sum rule h0 hreserve

end ItemTable

end OCRemote
