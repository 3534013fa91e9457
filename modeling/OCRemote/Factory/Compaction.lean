import OCRemote.Factory.DepositRounds
import OCRemote.Lib.Machine
import OCRemote.Lib.Split

/-! How many stacks of an item are left unfilled. A deposit goes onto the fullest stack of any chest
that has room, and into an empty slot only when there is none, so that only what is taken out of
full stacks makes more of them. -/

namespace OCRemote
variable {ι : Type}

namespace Storage

def slots : Storage ι → List (Option (ItemStack ι))
  | .chest c => c.invStacks
  | _ => []

theorem slots_contents (storage : Storage ι) : storage.contents.slots = storage.slots := by
  cases storage <;> rfl

end Storage

namespace Compaction

def allSlots (storages : List (Storage ι)) : List (Option (ItemStack ι)) :=
  storages.flatMap Storage.slots

/-- No stack of a chest is empty, as none that is listed is. -/
def Positive (storages : List (Storage ι)) : Prop :=
  ∀ stack : ItemStack ι, some stack ∈ allSlots storages → 0 < stack.size

theorem allSlots_map_contents (storages : List (Storage ι)) :
    allSlots (storages.map Storage.contents) = allSlots storages := by
  rw [allSlots, List.flatMap_map]
  exact List.flatMap_congr fun storage _ => storage.slots_contents

/-- A storage changes without the others. -/
theorem allSlots_of_moved {storages storages' : List (Storage ι)} {i : ℕ}
    {storage storage' : Storage ι} (h : storages[i]? = some storage)
    (h' : storages'[i]? = some storage')
    (hothers : ∀ j, j ≠ i →
      storages'[j]?.map Storage.contents = storages[j]?.map Storage.contents) :
    ∃ before after, allSlots storages = before ++ storage.slots ++ after ∧
      allSlots storages' = before ++ storage'.slots ++ after := by
  obtain ⟨l₁, l₂, hl, hset⟩ := List.exists_cut_set h storage'
  have hcontents : storages'.map Storage.contents =
      (storages.set i storage').map Storage.contents := by
    apply List.ext_getElem?
    intro j
    rw [List.getElem?_map, List.getElem?_map]
    by_cases hj : j = i
    · rw [hj, h', List.getElem?_set_self (List.getElem?_eq_some_iff.mp h).1]
    · rw [hothers j hj, List.getElem?_set_ne (Ne.symm hj)]
  refine ⟨allSlots l₁, allSlots l₂, ?_, ?_⟩
  · rw [hl]
    simp [allSlots]
  · rw [← allSlots_map_contents, hcontents, allSlots_map_contents, hset]
    simp [allSlots]

theorem mem_allSlots {storages : List (Storage ι)} {storage : Storage ι} (h : storage ∈ storages)
    {stack : Option (ItemStack ι)} (hstack : stack ∈ storage.slots) : stack ∈ allSlots storages :=
  List.mem_flatMap.mpr ⟨storage, h, hstack⟩

variable [DecidableEq ι] [ItemClass ι]

/-- How many stacks of an item have room. -/
def loose (item : ι) (storages : List (Storage ι)) : ℕ :=
  (allSlots storages).countP fun stack => (ChestStorage.sizeWithRoom item stack).isSome

theorem loose_eq_zero {item : ι} {storages : List (Storage ι)}
    (h : ∀ size, some ⟨item, size⟩ ∈ allSlots storages → ItemClass.maxSize item ≤ size) :
    loose item storages = 0 := by
  apply List.countP_eq_zero.mpr
  intro stack hstack hroom
  obtain ⟨size, hsize⟩ := Option.isSome_iff_exists.mp hroom
  obtain ⟨rfl, hlt⟩ := ChestStorage.sizeWithRoom_eq_some.mp hsize
  exact absurd (h size hstack) (not_le.mpr hlt)

/-- One slot changes, and nothing else. -/
def Changes (storages storages' : List (Storage ι)) (old new : Option (ItemStack ι)) : Prop :=
  ∃ before after, allSlots storages = before ++ old :: after ∧
    allSlots storages' = before ++ new :: after

omit [DecidableEq ι] [ItemClass ι] in
/-- A chest of which one slot changes. -/
theorem changes_of_set {storages storages' : List (Storage ι)} {i : ℕ} {c c' : ChestStorage ι}
    (h : storages[i]? = some (.chest c)) (h' : storages'[i]? = some (.chest c'))
    (hothers : ∀ j, j ≠ i → storages'[j]?.map Storage.contents = storages[j]?.map Storage.contents)
    {invSlot : ℕ} {old new : Option (ItemStack ι)} (hold : c.invStacks[invSlot]? = some old)
    (hnew : c'.invStacks = c.invStacks.set invSlot new) : Changes storages storages' old new := by
  obtain ⟨before, after, hbefore, hafter⟩ := allSlots_of_moved h h' hothers
  obtain ⟨l₁, l₂, hl, hset⟩ := List.exists_cut_set hold new
  refine ⟨before ++ l₁, l₂ ++ after, ?_, ?_⟩
  · rw [hbefore, Storage.slots, hl]
    simp
  · rw [hafter, Storage.slots, hnew, hset]
    simp

theorem Changes.loose {storages storages' : List (Storage ι)} {old new : Option (ItemStack ι)}
    (h : Changes storages storages' old new) (item : ι) :
    Compaction.loose item storages' + (ChestStorage.sizeWithRoom item old).isSome.toNat =
      Compaction.loose item storages + (ChestStorage.sizeWithRoom item new).isSome.toNat := by
  obtain ⟨before, after, hold, hnew⟩ := h
  unfold Compaction.loose
  rw [hold, hnew, List.countP_append, List.countP_append, List.countP_cons, List.countP_cons]
  cases (ChestStorage.sizeWithRoom item old).isSome <;>
    cases (ChestStorage.sizeWithRoom item new).isSome <;> simp <;> omega

omit [DecidableEq ι] [ItemClass ι] in
theorem Changes.positive {storages storages' : List (Storage ι)} {old new : Option (ItemStack ι)}
    (h : Changes storages storages' old new) (hpos : Positive storages)
    (hnew : ∀ stack, new = some stack → 0 < stack.size) : Positive storages' := by
  obtain ⟨before, after, hold, hafter⟩ := h
  intro stack hstack
  rw [hafter, List.mem_append, List.mem_cons] at hstack
  rcases hstack with hstack | hstack | hstack
  · apply hpos
    rw [hold]
    exact List.mem_append_left _ hstack
  · exact hnew stack hstack.symm
  · apply hpos
    rw [hold]
    exact List.mem_append_right _ (List.mem_cons_of_mem _ hstack)

/-- The priority of a chest is the size of a stack that has room, and where there is no such stack
it is that of an empty slot. -/
theorem depositPriority_cases (c : ChestStorage ι) (item : ι) :
    (∃ size, some ⟨item, size⟩ ∈ c.invStacks ∧ size < ItemClass.maxSize item ∧
      (c.depositPriority item).2 = some size) ∨
      (∀ size, some ⟨item, size⟩ ∈ c.invStacks → ItemClass.maxSize item ≤ size) ∧
      ∀ prio, (c.depositPriority item).2 = some prio → prio = i32Min + 1 := by
  have hbest := ChestStorage.best_scan item 0 c.invStacks ⟨none, none, c.invSlotToDeposit⟩
  unfold ChestStorage.depositPriority
  simp only
  set s := ChestStorage.scan item 0 c.invStacks ⟨none, none, c.invSlotToDeposit⟩
  have hscan : s.best = FirstBest.firstBest (ChestStorage.sizeWithRoom item)
      (fun size best => decide (best < size)) c.invStacks := hbest
  cases hsize : s.sizeOfBestSlot with
  | some size =>
    rw [ChestStorage.Scan.best, hsize, Option.map_some] at hscan
    obtain ⟨stack, hstack, hkey⟩ := FirstBest.firstBest_spec hscan.symm
    obtain ⟨rfl, hlt⟩ := ChestStorage.sizeWithRoom_eq_some.mp hkey
    exact .inl ⟨size, List.mem_of_getElem? hstack, hlt, rfl⟩
  | none =>
    rw [ChestStorage.Scan.best, hsize, Option.map_none] at hscan
    refine .inr ⟨fun size hmem => ?_, fun prio hprio => ?_⟩
    · by_contra hlt
      have hkey := FirstBest.firstBest_eq_none hscan.symm _ hmem
      rw [ChestStorage.sizeWithRoom_eq_some.mpr ⟨rfl, not_le.mp hlt⟩] at hkey
      cases hkey
    · cases hempty : s.emptySlot with
      | none => simp [hempty] at hprio
      | some x =>
        rw [hempty] at hprio
        exact (Option.some.inj hprio).symm

/-- Where an empty slot leads, no stack of the item has room. -/
theorem full_of_leads {storages : List (Storage ι)} (hpos : Positive storages) {item : ι} {i : ℕ}
    (h : FirstBest.Leads (fun storage : Storage ι => (storage.depositPriority item).2) storages
      (some (i, i32Min + 1))) {size : ℤ} (hmem : some ⟨item, size⟩ ∈ allSlots storages) :
    ItemClass.maxSize item ≤ size := by
  obtain ⟨storage, hstorage, hslot⟩ := List.mem_flatMap.mp hmem
  obtain ⟨j, hj⟩ := List.mem_iff_getElem?.mp hstorage
  cases storage with
  | chest c =>
    rcases depositPriority_cases c item with ⟨best, hbest, -, hprio⟩ | ⟨hfull, -⟩
    · -- a stack with room would have a higher priority
      have hle : best ≤ i32Min + 1 := (h.2 j _ best hj hprio).1
      have hbestpos : 0 < best := hpos ⟨item, best⟩ (mem_allSlots hstorage hbest)
      simp only [i32Min] at hle
      omega
    · exact hfull size hslot
  | drawer filters => simp [Storage.slots] at hslot
  | me => simp [Storage.slots] at hslot

/-- A round leaves the slots alone, or it puts something of the item onto a stack with room, or,
if there is none, into an empty slot. -/
theorem round_changes {busSlot : ℕ} {item : ι} {size : ℤ} {storages storages' : List (Storage ι)}
    {t : Transfer} (h : Round busSlot item size storages t storages') (hpos : Positive storages) :
    allSlots storages' = allSlots storages ∨
      ∃ old n, Changes storages storages' old (some ⟨item, n⟩) ∧ 0 < n ∧
        ((ChestStorage.sizeWithRoom item old).isSome ∨ old = none ∧ loose item storages = 0) := by
  obtain ⟨i, prio, storage, storage', hleads, hstorage, hstorage', hreceives, hothers⟩ := h.moved
  cases hreceives with
  | @chest c c' _ invSlot htarget _ hput _ =>
    refine .inr ?_
    rcases htarget with ⟨n, hslot, hlt, -⟩ | ⟨hslot, hfull⟩
    · have hset : c'.invStacks = c.invStacks.set invSlot (some ⟨item, n + t.size⟩) := by
        rw [hput, Slots.putIn, hslot]
      have hn : 0 < n := hpos ⟨item, n⟩
        (mem_allSlots (List.mem_of_getElem? hstorage) (List.mem_of_getElem? hslot))
      have ht := h.positive
      refine ⟨_, _, changes_of_set hstorage hstorage' hothers hslot hset, by omega, .inl ?_⟩
      rw [ChestStorage.sizeWithRoom_eq_some.mpr ⟨rfl, hlt⟩]
      rfl
    · have hset : c'.invStacks = c.invStacks.set invSlot (some ⟨item, t.size⟩) := by
        rw [hput, Slots.putIn, hslot]
      have hprio : prio = i32Min + 1 := by
        obtain ⟨⟨storage, hsame, hkey⟩, -⟩ := hleads
        obtain rfl := Option.some.inj (hsame.symm.trans hstorage)
        rcases depositPriority_cases c item with ⟨size, hmem, hlt, -⟩ | ⟨-, hprio⟩
        · exact absurd (hfull size hmem) (not_le.mpr hlt)
        · exact hprio prio hkey
      subst hprio
      refine ⟨_, _, changes_of_set hstorage hstorage' hothers hslot hset, h.positive,
        .inr ⟨rfl, ?_⟩⟩
      exact loose_eq_zero fun size hmem => full_of_leads hpos hleads hmem
  | drawer haccepts hsize =>
    obtain ⟨before, after, hbefore, hafter⟩ := allSlots_of_moved hstorage hstorage' hothers
    exact .inl (hafter.trans hbefore.symm)
  | me hsize =>
    obtain ⟨before, after, hbefore, hafter⟩ := allSlots_of_moved hstorage hstorage' hothers
    exact .inl (hafter.trans hbefore.symm)

theorem round_loose {busSlot : ℕ} {item : ι} {size : ℤ} {storages storages' : List (Storage ι)}
    {t : Transfer} (h : Round busSlot item size storages t storages') (hpos : Positive storages) :
    Positive storages' ∧ ∀ x, loose x storages' ≤ max 1 (loose x storages) := by
  rcases round_changes h hpos with hsame | ⟨old, n, hchanges, hn, hold⟩
  · unfold Positive loose
    rw [hsame]
    exact ⟨hpos, fun x => le_max_right _ _⟩
  · refine ⟨hchanges.positive hpos ?_, fun x => ?_⟩
    · rintro stack ⟨⟩
      exact hn
    · have hcount := hchanges.loose x
      by_cases hx : x = item
      · subst hx
        have hnew := Bool.toNat_le (ChestStorage.sizeWithRoom x (some ⟨x, n⟩)).isSome
        rcases hold with hroom | ⟨rfl, hzero⟩
        · rw [hroom, Bool.toNat_true] at hcount
          omega
        · omega
      · -- stacks of other items stay as they are
        have hnone : ChestStorage.sizeWithRoom x (some ⟨item, n⟩) = none := by
          simp [ChestStorage.sizeWithRoom, Ne.symm hx]
        rw [hnone, Option.isSome_none, Bool.toNat_false] at hcount
        omega

theorem rounds_loose {busSlot : ℕ} {item : ι} {size : ℤ} {storages final : List (Storage ι)}
    {tasks : List (Except String Transfer)} (h : Rounds busSlot item size storages tasks final)
    (hpos : Positive storages) :
    Positive final ∧ ∀ x, loose x final ≤ max 1 (loose x storages) := by
  induction h with
  | done storages => exact ⟨hpos, fun x => le_max_right _ _⟩
  | rejected _ _ hsame =>
    unfold Positive loose
    rw [← allSlots_map_contents, hsame, allSlots_map_contents]
    exact ⟨hpos, fun x => le_max_right _ _⟩
  | round hround _ ih =>
    obtain ⟨hpos', hloose⟩ := round_loose hround hpos
    obtain ⟨hfinal, hrest⟩ := ih hpos'
    refine ⟨hfinal, fun x => (hrest x).trans ?_⟩
    have := hloose x
    omega

/-! Runs of deposits and extractions. -/

inductive Event (ι : Type) where
  | deposit (busSlot : ℕ) (stack : ItemStack ι)
  /-- The end of an extraction from a slot of a chest. -/
  | extract (i invSlot : ℕ) (stack : ItemStack ι)

def next (storages : List (Storage ι)) : Event ι → List (Storage ι)
  | .deposit busSlot stack => ((depositItem storages busSlot stack).map Prod.fst).getD storages
  | .extract i invSlot stack =>
    match storages[i]? with
    | some (.chest c) =>
      storages.set i (.chest ((c.extracted invSlot stack.size).getD c))
    | _ => storages

/-- Only what there is is extracted, and no more than a full stack is deposited. -/
def enabled (storages : List (Storage ι)) : Event ι → Prop
  | .deposit _ stack => 0 < stack.size ∧ stack.size ≤ ItemClass.maxSize stack.item
  | .extract i invSlot stack => 0 < stack.size ∧ ∃ c n, storages[i]? = some (.chest c) ∧
    c.invStacks[invSlot]? = some (some ⟨stack.item, n⟩) ∧ stack.size ≤ n

def machine (ι : Type) [DecidableEq ι] [ItemClass ι] : Machine (List (Storage ι)) (Event ι) :=
  ⟨enabled, next⟩

/-- An extraction of the item. -/
def Event.takes (item : ι) : Event ι → Bool
  | .deposit .. => false
  | .extract _ _ stack => stack.item = item

theorem extract_changes {storages : List (Storage ι)} {i invSlot : ℕ} {c : ChestStorage ι}
    (hstorage : storages[i]? = some (.chest c)) {item : ι} {n : ℤ}
    (hslot : c.invStacks[invSlot]? = some (some ⟨item, n⟩)) (size : ℤ) :
    Changes storages (next storages (.extract i invSlot ⟨item, size⟩)) (some ⟨item, n⟩)
      (if n - size ≤ 0 then none else some ⟨item, n - size⟩) := by
  have hnext : next storages (.extract i invSlot ⟨item, size⟩) =
      storages.set i (.chest { c with invStacks := Slots.takeOut c.invStacks invSlot size }) := by
    rw [next, hstorage]
    simp only [ChestStorage.extracted_eq hslot, Option.getD_some]
  rw [hnext]
  apply changes_of_set hstorage (List.getElem?_set_self (List.getElem?_eq_some_iff.mp hstorage).1)
    (fun j hj => by rw [List.getElem?_set_ne (Ne.symm hj)]) hslot
  simp only [Slots.takeOut, hslot]

theorem step_loose {storages : List (Storage ι)} {e : Event ι} (he : enabled storages e)
    (hpos : Positive storages) : Positive (next storages e) ∧
      ∀ x, loose x (next storages e) ≤ max 1 (loose x storages) + (e.takes x).toNat := by
  cases e with
  | deposit busSlot stack =>
    obtain ⟨h0, hmax⟩ := he
    have hfuel : stack.size < (stack.size.toNat + 1 : ℕ) := by push_cast; omega
    obtain ⟨final, tasks, hrun, hrounds⟩ :
        ∃ final more, depositItemLoop busSlot (stack.size.toNat + 1) storages stack [] =
          some (final, [] ++ more) ∧
        Rounds busSlot stack.item stack.size storages more final :=
      depositItemLoop_rounds [] h0.le hmax hfuel
    have hnext : next storages (.deposit busSlot stack) = final := by
      rw [next, depositItem, hrun]
      rfl
    rw [hnext]
    exact rounds_loose hrounds hpos
  | extract i invSlot stack =>
    obtain ⟨item, size⟩ := stack
    obtain ⟨hsize, c, n, hstorage, hslot, hle⟩ := he
    simp only at hsize hle hslot
    have hchanges := extract_changes hstorage hslot size
    refine ⟨hchanges.positive hpos fun left hleft => ?_, fun x => ?_⟩
    · split_ifs at hleft with hnone
      obtain rfl := Option.some.inj hleft
      show 0 < n - size
      omega
    · have hcount := hchanges.loose x
      by_cases hx : item = x
      · have htakes : (Event.takes x (.extract i invSlot ⟨item, size⟩)).toNat = 1 := by
          simp [Event.takes, hx]
        have hnew := Bool.toNat_le (ChestStorage.sizeWithRoom x
          (if n - size ≤ 0 then none else some ⟨item, n - size⟩)).isSome
        omega
      · have hnone : ChestStorage.sizeWithRoom x
            (if n - size ≤ 0 then none else some ⟨item, n - size⟩) = none := by
          split_ifs <;> simp [ChestStorage.sizeWithRoom, hx]
        rw [hnone, Option.isSome_none, Bool.toNat_false] at hcount
        omega

/-- Over any deposits and extractions, the stacks of an item that are not full do not become more
than the one that deposits fill, or those that were there, and one for each extraction of it. -/
theorem stays_compact {storages : List (Storage ι)} (hpos : Positive storages) {es : List (Event ι)}
    (hv : (machine ι).Valid storages es) (item : ι) :
    loose item ((machine ι).exec storages es) ≤
      max 1 (loose item storages) + es.countP (Event.takes item) := by
  induction es generalizing storages with
  | nil =>
    rw [List.countP_nil, add_zero]
    exact le_max_right _ _
  | cons e es ih =>
    obtain ⟨he, hes⟩ := hv
    obtain ⟨hpos', hstep⟩ := step_loose he hpos
    have hfirst := hstep item
    have hrest := ih hpos' hes
    rw [List.countP_cons]
    show loose item ((machine ι).exec (next storages e) es) ≤ _
    refine hrest.trans ?_
    show max 1 (loose item (next storages e)) + _ ≤ _
    cases htakes : Event.takes item e <;> simp [htakes] at hfirst ⊢ <;> omega

def ironChest : List (Storage (Item ℤ)) :=
  [.chest ⟨[some ⟨iron, 60⟩, none, some ⟨iron, 64⟩], 0⟩, .me]

/-- The deposit fills a stack and opens another one, and the extraction leaves a second one. -/
theorem stays_compact_ironChest : loose iron ((machine (Item ℤ)).exec ironChest
      [.deposit 3 ⟨iron, 10⟩, .extract 0 2 ⟨iron, 5⟩]) ≤
    max 1 (loose iron ironChest) +
      [Event.deposit 3 ⟨iron, 10⟩, .extract 0 2 ⟨iron, 5⟩].countP (Event.takes iron) := by
  have hpos : Positive ironChest := by
    intro stack hstack
    rcases (by simpa [ironChest, allSlots, Storage.slots] using hstack :
      stack = ⟨iron, 60⟩ ∨ stack = ⟨iron, 64⟩) with rfl | rfl <;> decide
  have hextract : enabled (next ironChest (.deposit 3 ⟨iron, 10⟩)) (.extract 0 2 ⟨iron, 5⟩) :=
    ⟨by decide, ⟨[some ⟨iron, 64⟩, some ⟨iron, 6⟩, some ⟨iron, 64⟩], 1⟩, 64, rfl, rfl, by decide⟩
  have hvalid : (machine (Item ℤ)).Valid ironChest
      [.deposit 3 ⟨iron, 10⟩, .extract 0 2 ⟨iron, 5⟩] :=
    ⟨⟨by decide, by decide⟩, hextract, trivial⟩
  exact stays_compact hpos hvalid iron

end Compaction
end OCRemote
