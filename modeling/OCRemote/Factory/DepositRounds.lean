import OCRemote.Factory.Storage

/-! The rounds of `deposit_item`. In each of them the storage with the highest priority takes some
of the stack, a chest the fullest stack that has room or an empty slot. -/

namespace OCRemote
open FirstBest
variable {ι : Type} [DecidableEq ι] [ItemClass ι]

namespace ChestStorage

/-- The size of a stack that the item can go onto. -/
def sizeWithRoom (item : ι) (stack : Option (ItemStack ι)) : Option ℤ :=
  stack.bind fun stack =>
    if stack.item = item ∧ stack.size < ItemClass.maxSize item then some stack.size else none

theorem sizeWithRoom_eq_some {item : ι} {stack : Option (ItemStack ι)} {size : ℤ} :
    sizeWithRoom item stack = some size ↔ stack = some ⟨item, size⟩ ∧
      size < ItemClass.maxSize item := by
  unfold sizeWithRoom
  cases stack with
  | none => simp
  | some stack =>
    obtain ⟨item', size'⟩ := stack
    simp only [Option.bind_some, Option.ite_none_right_eq_some, Option.some.injEq,
      ItemStack.mk.injEq]
    constructor
    · rintro ⟨⟨rfl, hlt⟩, rfl⟩
      exact ⟨⟨rfl, rfl⟩, hlt⟩
    · rintro ⟨⟨rfl, rfl⟩, hlt⟩
      exact ⟨⟨rfl, hlt⟩, rfl⟩

def Scan.best (s : Scan) : Option (ℕ × ℤ) := s.sizeOfBestSlot.map (Prod.mk s.invSlotToDeposit)

/-- The look at a slot is a step of the scan for the fullest stack that has room. -/
theorem best_look (item : ι) (s : Scan) (invSlot : ℕ) (stack : Option (ItemStack ι)) :
    (look item s invSlot stack).best =
      step (sizeWithRoom item) (fun size best => decide (best < size)) s.best invSlot stack := by
  cases stack with
  | none => rfl
  | some stack =>
    simp only [look, step, sizeWithRoom, Option.bind_some]
    by_cases hroom : stack.item = item ∧ stack.size < ItemClass.maxSize item
    · rw [if_pos hroom, if_pos hroom]
      unfold Scan.best
      cases hbest : s.sizeOfBestSlot with
      | none => simp
      | some size =>
        by_cases hle : stack.size ≤ size
        · simp [hle, hbest, not_lt.mpr hle]
        · simp [hle, not_le.mp hle]
    · rw [if_neg hroom, if_neg hroom]

theorem best_scan (item : ι) (invSlot : ℕ) (invStacks : List (Option (ItemStack ι))) (s : Scan) :
    (scan item invSlot invStacks s).best =
      FirstBest.scan (sizeWithRoom item) (fun size best => decide (best < size)) invSlot invStacks
        s.best := by
  induction invStacks generalizing invSlot s with
  | nil => rfl
  | cons stack invStacks ih => rw [scan, ih, best_look, FirstBest.scan]

/-- An empty slot is remembered if there is one. -/
theorem emptySlot_scan (item : ι) (invSlot : ℕ) (invStacks : List (Option (ItemStack ι)))
    (s : Scan) :
    (scan item invSlot invStacks s).emptySlot = none ↔ s.emptySlot = none ∧ none ∉ invStacks := by
  induction invStacks generalizing invSlot s with
  | nil => simp [scan]
  | cons stack invStacks ih =>
    rw [scan, ih]
    cases stack with
    | none => simp [look]
    | some stack =>
      rcases look_some item s invSlot stack with hsame | ⟨-, -, hnew⟩
      · simp [hsame]
      · simp [hnew]

/-- The slot of a chest for an item: the fullest of those that have room on a stack of it, or an
empty one if there is none. -/
def Target (item : ι) (invStacks : List (Option (ItemStack ι))) (invSlot : ℕ) : Prop :=
  (∃ size, invStacks[invSlot]? = some (some ⟨item, size⟩) ∧ size < ItemClass.maxSize item ∧
    ∀ other, some ⟨item, other⟩ ∈ invStacks → other < ItemClass.maxSize item → other ≤ size) ∨
  invStacks[invSlot]? = some none ∧
    ∀ other, some ⟨item, other⟩ ∈ invStacks → ItemClass.maxSize item ≤ other

/-- A chest with a priority has found a slot, and one without has none. -/
theorem depositPriority_target (c : ChestStorage ι) (item : ι) :
    ((c.depositPriority item).2 = none →
      none ∉ c.invStacks ∧
      ∀ other, some ⟨item, other⟩ ∈ c.invStacks → ItemClass.maxSize item ≤ other) ∧
    ∀ prio, (c.depositPriority item).2 = some prio →
      Target item c.invStacks (c.depositPriority item).1.invSlotToDeposit := by
  have hleads := firstBest_leads (sizeWithRoom item) c.invStacks
  have hbest := best_scan item 0 c.invStacks ⟨none, none, c.invSlotToDeposit⟩
  have hempty := emptySlot_scan item 0 c.invStacks ⟨none, none, c.invSlotToDeposit⟩
  obtain ⟨-, hslot⟩ := @scan_spec _ _ _ item c.invStacks [] c.invStacks rfl
    ⟨none, none, c.invSlotToDeposit⟩ (by simp) (by simp)
  unfold depositPriority
  simp only [List.length_nil] at hslot ⊢
  set s := scan item 0 c.invStacks ⟨none, none, c.invSlotToDeposit⟩
  have hscan : s.best = firstBest (sizeWithRoom item) (fun size best => decide (best < size))
      c.invStacks := hbest
  rw [← hscan, Scan.best] at hleads
  -- no stack has room when none is remembered
  have hfull (hnone : s.sizeOfBestSlot = none) (other : ℤ)
      (hmem : some ⟨item, other⟩ ∈ c.invStacks) : ItemClass.maxSize item ≤ other := by
    rw [hnone] at hleads
    by_contra hlt
    have hsome : sizeWithRoom item (some ⟨item, other⟩) = some other :=
      sizeWithRoom_eq_some.mpr ⟨rfl, not_le.mp hlt⟩
    have hkey := hleads _ hmem
    rw [hsome] at hkey
    cases hkey
  cases hsize : s.sizeOfBestSlot with
  | none =>
    cases hx : s.emptySlot with
    | none => exact ⟨fun _ => ⟨(hempty.mp hx).2, hfull hsize⟩, by simp⟩
    | some x => exact ⟨by simp, fun _ _ => .inr ⟨hslot x hx, hfull hsize⟩⟩
  | some size =>
    rw [hsize] at hleads
    obtain ⟨⟨stack, hstack, hkey⟩, hmax⟩ := hleads
    obtain ⟨rfl, hlt⟩ := sizeWithRoom_eq_some.mp hkey
    refine ⟨by simp, fun _ _ => .inl ⟨size, hstack, hlt, fun other hmem hother => ?_⟩⟩
    obtain ⟨j, hj⟩ := List.mem_iff_getElem?.mp hmem
    exact (hmax j _ other hj (sizeWithRoom_eq_some.mpr ⟨rfl, hother⟩)).1

end ChestStorage
namespace Storage

/-- A storage that takes some of the item: a chest with an empty slot or room on a stack of it, a
drawer with a filter for it, or an ME system. -/
def Accepts (item : ι) : Storage ι → Prop
  | .chest c => none ∈ c.invStacks ∨
    ∃ size, some ⟨item, size⟩ ∈ c.invStacks ∧ size < ItemClass.maxSize item
  | .drawer filters => ∃ filter ∈ filters, filter.apply item = true
  | .me => True

theorem not_accepts_of_depositPriority {storage : Storage ι} {item : ι}
    (h : (storage.depositPriority item).2 = none) : ¬ storage.Accepts item := by
  cases storage with
  | chest c =>
    obtain ⟨hempty, hfull⟩ := (c.depositPriority_target item).1 h
    rintro (hnone | ⟨size, hmem, hlt⟩)
    · exact hempty hnone
    · exact absurd (hfull size hmem) (not_le.mpr hlt)
  | drawer filters => simpa [depositPriority, Accepts] using h
  | me => cases h

/-- A storage without the slot that was last chosen in it. -/
def contents : Storage ι → Storage ι
  | .chest c => .chest { c with invSlotToDeposit := 0 }
  | storage => storage

theorem contents_depositPriority (storage : Storage ι) (item : ι) :
    (storage.depositPriority item).1.contents = storage.contents := by
  cases storage with
  | chest c =>
    simp only [depositPriority, contents, c.depositPriority_stacks item]
  | drawer filters => rfl
  | me => rfl

omit [DecidableEq ι] in
theorem accepts_of_contents {storage storage' : Storage ι} {item : ι}
    (h : storage.contents = storage'.contents) (haccepts : storage.Accepts item) :
    storage'.Accepts item := by
  have hsame (storage : Storage ι) : storage.contents.Accepts item ↔ storage.Accepts item := by
    cases storage <;> exact Iff.rfl
  rwa [← hsame, ← h, hsame]

/-- A storage takes so much of an item by a transfer from the bus. -/
inductive Receives (item : ι) (size : ℤ) : Storage ι → Transfer → Storage ι → Prop
  | chest {c c' : ChestStorage ι} {t : Transfer} {invSlot : ℕ} :
    ChestStorage.Target item c.invStacks invSlot → t.invSlot = some (invSlot + 1) →
    c'.invStacks = Slots.putIn c.invStacks invSlot ⟨item, t.size⟩ →
    Slots.sizeAt c.invStacks invSlot + t.size ≤ ItemClass.maxSize item →
    Receives item size (.chest c) t (.chest c')
  | drawer {filters : List (Filter ι)} {t : Transfer} : (Storage.drawer filters).Accepts item →
    t.size = size → Receives item size (.drawer filters) t (.drawer filters)
  | me {t : Transfer} : t.size = size → Receives item size .me t .me

/-- A storage with a priority takes something, and a chest no more than fits. -/
theorem deposit_receives {storage : Storage ι} {item : ι} {prio : ℤ}
    (h : (storage.depositPriority item).2 = some prio) {size : ℤ} (hsize : 0 < size)
    (hmax : size ≤ ItemClass.maxSize item) (busSlot : ℕ) :
    ∃ storage' r, (storage.depositPriority item).1.deposit ⟨item, size⟩ busSlot =
        some (storage', r) ∧ r.task.busSlot = busSlot + 1 ∧ r.nDeposited = r.task.size ∧
      0 < r.task.size ∧ r.task.size ≤ size ∧ Receives item size storage r.task storage' := by
  cases storage with
  | chest c =>
    have hc : c.depositPriority item = ((c.depositPriority item).1, some prio) := by rw [← h]; rfl
    obtain ⟨n, hrun, hcase⟩ := ChestStorage.deposit_eq hc size busSlot
    have htarget := (c.depositPriority_target item).2 prio h
    refine ⟨_, _, by simp only [depositPriority, deposit, hrun, Option.map_some]; rfl, rfl, rfl, ?_⟩
    rcases hcase with ⟨stack, hstack, -, hlt, rfl⟩ | ⟨hnone, rfl⟩
    · refine ⟨by simp only; omega, min_le_left _ _, .chest htarget rfl rfl ?_⟩
      rw [Slots.sizeAt_some hstack]
      simp only
      omega
    · refine ⟨hsize, le_rfl, .chest htarget rfl rfl ?_⟩
      rw [Slots.sizeAt_none hnone]
      simp only
      omega
  | drawer filters =>
    refine ⟨_, _, rfl, rfl, rfl, hsize, le_rfl, .drawer ?_ rfl⟩
    have hfilter : (∃ filter ∈ filters, filter.apply item = true) ∧ i32Max = prio := by
      simpa [depositPriority] using h
    exact hfilter.1
  | me => exact ⟨_, _, rfl, rfl, rfl, hsize, le_rfl, .me rfl⟩

end Storage

/-- One round: the first of the storages with the highest priority takes some of the stack, and
the others keep what they hold. -/
structure Round (busSlot : ℕ) (item : ι) (size : ℤ) (storages : List (Storage ι)) (t : Transfer)
    (storages' : List (Storage ι)) : Prop where
  positive : 0 < t.size
  le : t.size ≤ size
  source : t.busSlot = busSlot + 1
  moved : ∃ i prio storage storage',
    Leads (fun storage : Storage ι => (storage.depositPriority item).2) storages (some (i, prio)) ∧
    storages[i]? = some storage ∧ storages'[i]? = some storage' ∧
    storage.Receives item size t storage' ∧
    ∀ j, j ≠ i → storages'[j]?.map Storage.contents = storages[j]?.map Storage.contents

/-- The rounds until nothing is left, or nobody accepts what is left and one task fails. -/
inductive Rounds (busSlot : ℕ) (item : ι) : ℤ → List (Storage ι) →
    List (Except String Transfer) → List (Storage ι) → Prop
  | done (storages : List (Storage ι)) : Rounds busSlot item 0 storages [] storages
  | rejected {size : ℤ} {storages storages' : List (Storage ι)} : 0 < size →
    (∀ storage ∈ storages, ¬ storage.Accepts item) →
    storages'.map Storage.contents = storages.map Storage.contents →
    Rounds busSlot item size storages [.error "storage is full"] storages'
  | round {size : ℤ} {storages storages' final : List (Storage ι)} {t : Transfer}
      {tasks : List (Except String Transfer)} :
    Round busSlot item size storages t storages' →
    Rounds busSlot item (size - t.size) storages' tasks final →
    Rounds busSlot item size storages (.ok t :: tasks) final

/-- The amounts deposited are the stack, or all but what nobody accepts. -/
theorem Rounds.sum {busSlot : ℕ} {item : ι} {size : ℤ} {storages final : List (Storage ι)}
    {tasks : List (Except String Transfer)}
    (h : Rounds busSlot item size storages tasks final) :
    (tasks = (transfers tasks).map .ok ∧ ((transfers tasks).map Transfer.size).sum = size) ∨
      tasks = (transfers tasks).map .ok ++ [.error "storage is full"] ∧
        ((transfers tasks).map Transfer.size).sum < size ∧
        ∀ storage ∈ final, ¬ storage.Accepts item := by
  induction h with
  | done storages => exact .inl ⟨rfl, rfl⟩
  | rejected hpos hnone hsame =>
    refine .inr ⟨rfl, hpos, fun storage hmem haccepts => ?_⟩
    have hcontents : storage.contents ∈ _ := List.mem_map.mpr ⟨storage, hmem, rfl⟩
    rw [hsame] at hcontents
    obtain ⟨storage', hmem', heq⟩ := List.mem_map.mp hcontents
    exact hnone storage' hmem' (Storage.accepts_of_contents heq.symm haccepts)
  | @round size storages storages' final t tasks hround _ ih =>
    have hcons : transfers (.ok t :: tasks) = t :: transfers tasks := rfl
    rw [hcons, List.map_cons, List.map_cons, List.sum_cons]
    rcases ih with ⟨htasks, hsum⟩ | ⟨htasks, hsum, hnone⟩
    · exact .inl ⟨congrArg _ htasks, by omega⟩
    · exact .inr ⟨congrArg _ htasks, by omega, hnone⟩

theorem depositItemLoop_rounds {busSlot fuel : ℕ} {storages : List (Storage ι)}
    {stack : ItemStack ι}
    (tasks : List (Except String Transfer)) (h0 : 0 ≤ stack.size)
    (hmax : stack.size ≤ ItemClass.maxSize stack.item) (hfuel : stack.size < fuel) :
    ∃ final more, depositItemLoop busSlot fuel storages stack tasks = some (final, tasks ++ more) ∧
      Rounds busSlot stack.item stack.size storages more final := by
  induction fuel generalizing storages stack tasks with
  | zero =>
    simp at hfuel
    omega
  | succ fuel ih =>
    obtain ⟨item, size⟩ := stack
    simp only at h0 hmax hfuel
    unfold depositItemLoop
    by_cases hsize : 0 < size
    · simp only [if_pos hsize]
      have hleads := leads_map (firstBest_leads Prod.snd
        (storages.map fun storage => storage.depositPriority item))
      have hcontents : (storages.map fun storage => storage.depositPriority item).map
          (fun asked => asked.1.contents) = storages.map Storage.contents := by
        simp [Function.comp_def, Storage.contents_depositPriority]
      cases hbest : firstBest Prod.snd (fun prio best => decide (best < prio))
          (storages.map fun storage => storage.depositPriority item) with
      | none =>
        rw [hbest] at hleads
        refine ⟨_, _, rfl, .rejected hsize (fun storage hmem => ?_) (by simpa using hcontents)⟩
        exact Storage.not_accepts_of_depositPriority (hleads storage hmem)
      | some b =>
        obtain ⟨i, prio⟩ := b
        rw [hbest] at hleads
        obtain ⟨⟨storage, hstorage, hprio⟩, -⟩ := id hleads
        obtain ⟨storage', r, hrun, hslot, hn, hpos, hle, hreceives⟩ :=
          Storage.deposit_receives hprio hsize hmax busSlot
        have hget : (storages.map fun storage => storage.depositPriority item)[i]? =
            some (storage.depositPriority item) := by
          rw [List.getElem?_map, hstorage, Option.map_some]
        simp only [hget, Option.bind_some, hrun]
        obtain ⟨final, more, hloop, hrounds⟩ := @ih
          (((storages.map fun storage => storage.depositPriority item).map Prod.fst).set i storage')
          ⟨item, size - r.nDeposited⟩ (tasks ++ [.ok r.task]) (by simp only; omega)
          (by simp only; omega) (by push_cast at hfuel; simp only; omega)
        rw [hn] at hrounds
        refine ⟨final, .ok r.task :: more, ?_, .round ⟨hpos, hle, hslot, ?_⟩ hrounds⟩
        · rw [hloop, List.append_assoc, List.singleton_append]
        · refine ⟨i, prio, storage, storage', hleads, hstorage, ?_, hreceives, fun j hj => ?_⟩
          · rw [List.getElem?_set_self]
            simpa using (List.getElem?_eq_some_iff.mp hstorage).1
          · rw [List.getElem?_set_ne (Ne.symm hj)]
            simp [Function.comp_def, Storage.contents_depositPriority]
    · rw [if_neg hsize]
      obtain rfl : size = 0 := by omega
      exact ⟨storages, [], by simp, .done storages⟩

/-- `deposit_item` ends; each round goes by the priorities of that moment, and in the end all of the
stack is deposited, or one task fails because no storage accepts the rest. -/
theorem depositItem_rounds (storages : List (Storage ι)) (busSlot : ℕ) {stack : ItemStack ι}
    (hpos : 0 < stack.size) (hmax : stack.size ≤ ItemClass.maxSize stack.item) :
    ∃ final tasks, depositItem storages busSlot stack = some (final, tasks) ∧
      Rounds busSlot stack.item stack.size storages tasks final ∧
      ((tasks = (transfers tasks).map .ok ∧
          ((transfers tasks).map Transfer.size).sum = stack.size) ∨
        tasks = (transfers tasks).map .ok ++ [.error "storage is full"] ∧
          ((transfers tasks).map Transfer.size).sum < stack.size ∧
          ∀ storage ∈ final, ¬ storage.Accepts stack.item) := by
  have hfuel : stack.size < (stack.size.toNat + 1 : ℕ) := by push_cast; omega
  obtain ⟨final, tasks, hrun, hrounds⟩ :=
    @depositItemLoop_rounds _ _ _ busSlot _ storages stack [] hpos.le hmax hfuel
  exact ⟨final, tasks, hrun, hrounds, hrounds.sum⟩

/-- Ten pieces of iron go onto a stack with room for four, and the rest into the empty slot. -/
theorem depositItem_rounds_iron :
    ∃ final tasks, depositItem [.chest ⟨[some ⟨iron, 60⟩, none], 0⟩, .me] 3 ⟨iron, 10⟩ =
        some (final, tasks) ∧
      Rounds 3 iron 10 [.chest ⟨[some ⟨iron, 60⟩, none], 0⟩, .me] tasks final ∧
      tasks = [.ok ⟨4, 4, some 1⟩, .ok ⟨6, 4, some 2⟩] := by
  obtain ⟨final, tasks, hrun, hrounds, -⟩ :=
    @depositItem_rounds _ _ _ [.chest ⟨[some ⟨iron, 60⟩, none], 0⟩, .me] 3 ⟨iron, 10⟩ (by decide)
      (by decide)
  exact ⟨final, tasks, hrun, hrounds, (Prod.mk.inj (Option.some.inj (hrun.symm.trans rfl))).2⟩

end OCRemote
