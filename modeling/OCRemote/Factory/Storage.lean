import Mathlib.Algebra.Order.Ring.Int
import OCRemote.Factory.Item
import OCRemote.Lib.FirstBest

/-! Storages that take items from the bus (`storage/`), and `deposit_item`, which spreads a
stack over them (`factory.rs`). -/

namespace OCRemote
variable {ι : Type}

/-- The arguments of `transferItem` from the bus to a storage. -/
structure Transfer where
  size : ℤ
  busSlot : ℕ
  invSlot : Option ℕ
  deriving DecidableEq

/-! The slots of an inventory, and what moving items into and out of one does to it. -/

namespace Slots

def sizeAt (slots : List (Option (ItemStack ι))) (i : ℕ) : ℤ :=
  match slots[i]? with
  | some (some stack) => stack.size
  | _ => 0

def takeOut (slots : List (Option (ItemStack ι))) (i : ℕ) (size : ℤ) :
    List (Option (ItemStack ι)) :=
  match slots[i]? with
  | some (some stack) =>
    slots.set i (if stack.size - size ≤ 0 then none else some { stack with size := stack.size - size })
  | _ => slots

def putIn (slots : List (Option (ItemStack ι))) (i : ℕ) (stack : ItemStack ι) :
    List (Option (ItemStack ι)) :=
  match slots[i]? with
  | some (some old) => slots.set i (some { old with size := old.size + stack.size })
  | some none => slots.set i (some stack)
  | none => slots

variable {slots : List (Option (ItemStack ι))} {i : ℕ} {stack : ItemStack ι}

theorem sizeAt_some (h : slots[i]? = some (some stack)) : sizeAt slots i = stack.size := by
  unfold sizeAt
  rw [h]

theorem sizeAt_none (h : slots[i]? = some none) : sizeAt slots i = 0 := by
  unfold sizeAt
  rw [h]

/-- Only an occupied slot has a size. -/
theorem exists_of_sizeAt_pos (h : 0 < sizeAt slots i) : ∃ stack, slots[i]? = some (some stack) := by
  unfold sizeAt at h
  split at h
  · rename_i stack hs
    exact ⟨stack, hs⟩
  · exact absurd h (lt_irrefl 0)

theorem sizeAt_set (hi : i < slots.length) (v : Option (ItemStack ι)) (j : ℕ) :
    sizeAt (slots.set i v) j = if i = j then v.elim 0 ItemStack.size else sizeAt slots j := by
  unfold sizeAt
  by_cases hij : i = j
  · subst hij
    rw [List.getElem?_set_self hi, if_pos rfl]
    cases v <;> rfl
  · rw [List.getElem?_set_ne hij, if_neg hij]

theorem lt_length_of_some {v : Option (ItemStack ι)} (h : slots[i]? = some v) : i < slots.length :=
  (List.getElem?_eq_some_iff.mp h).1

theorem sizeAt_congr {slots' : List (Option (ItemStack ι))} (h : slots'[i]? = slots[i]?) :
    sizeAt slots' i = sizeAt slots i := by
  unfold sizeAt
  rw [h]

theorem getElem?_takeOut_ne (slots : List (Option (ItemStack ι))) {i j : ℕ} (hij : i ≠ j)
    (size : ℤ) :
    (takeOut slots i size)[j]? = slots[j]? := by
  unfold takeOut
  split
  · exact List.getElem?_set_ne hij
  · rfl

theorem getElem?_putIn_ne (slots : List (Option (ItemStack ι))) {i j : ℕ} (hij : i ≠ j)
    (stack : ItemStack ι) :
    (putIn slots i stack)[j]? = slots[j]? := by
  unfold putIn
  split
  · exact List.getElem?_set_ne hij
  · exact List.getElem?_set_ne hij
  · rfl

@[simp] theorem length_takeOut (slots : List (Option (ItemStack ι))) (i : ℕ) (size : ℤ) :
    (takeOut slots i size).length = slots.length := by
  unfold takeOut
  split <;> simp

@[simp] theorem length_putIn (slots : List (Option (ItemStack ι))) (i : ℕ) (stack : ItemStack ι) :
    (putIn slots i stack).length = slots.length := by
  unfold putIn
  split <;> simp

theorem sizeAt_takeOut (h : slots[i]? = some (some stack)) {size : ℤ} (hle : size ≤ stack.size)
    (j : ℕ) :
    sizeAt (takeOut slots i size) j = sizeAt slots j - if i = j then size else 0 := by
  have hslot := sizeAt_some h
  unfold takeOut
  rw [h]
  simp only
  rw [sizeAt_set (lt_length_of_some h)]
  by_cases hij : i = j
  · subst hij
    rw [if_pos rfl, if_pos rfl, hslot]
    split_ifs
    · simp only [Option.elim_none]
      omega
    · rfl
  · rw [if_neg hij, if_neg hij, sub_zero]

theorem sizeAt_putIn (hi : i < slots.length) (j : ℕ) :
    sizeAt (putIn slots i stack) j = sizeAt slots j + if i = j then stack.size else 0 := by
  have hcell : slots[i]? = some slots[i] := List.getElem?_eq_getElem hi
  have hsize : sizeAt slots i = (slots[i]).elim 0 ItemStack.size := by
    unfold sizeAt
    rw [hcell]
    cases slots[i] <;> rfl
  unfold putIn
  rw [hcell]
  cases hv : slots[i] with
  | none =>
    simp only [hv, Option.elim_none] at hsize
    simp only [sizeAt_set hi, Option.elim_some]
    split_ifs with hij
    · rw [← hij, hsize, zero_add]
    · rw [add_zero]
  | some old =>
    simp only [hv, Option.elim_some] at hsize
    simp only [sizeAt_set hi, Option.elim_some]
    split_ifs with hij
    · rw [← hij, hsize]
    · rw [add_zero]

/-- What is left after taking something out was there before. -/
theorem item_of_takeOut {size : ℤ} {j : ℕ} {q : ItemStack ι}
    (h : (takeOut slots i size)[j]? = some (some q)) :
    ∃ p, slots[j]? = some (some p) ∧ p.item = q.item ∧ (0 < p.size → 0 < q.size) := by
  unfold takeOut at h
  split at h
  · rename_i stack hs
    by_cases hij : i = j
    · subst hij
      rw [List.getElem?_set_self (lt_length_of_some hs)] at h
      split_ifs at h with hc
      · simp at h
      · obtain rfl : _ = q := by simpa using h
        exact ⟨stack, hs, rfl, fun _ => by simp only; omega⟩
    · rw [List.getElem?_set_ne hij] at h
      exact ⟨q, h, rfl, id⟩
  · exact ⟨q, h, rfl, id⟩

/-- A stack that is there after putting something in was there before, or is what was put in. -/
theorem item_of_putIn {j : ℕ} {q : ItemStack ι} (h : (putIn slots i stack)[j]? = some (some q)) :
    (∃ p, slots[j]? = some (some p) ∧ p.item = q.item ∧
      (0 < p.size → 0 < stack.size → 0 < q.size)) ∨
      i = j ∧ slots[i]? = some none ∧ q = stack := by
  unfold putIn at h
  split at h
  · rename_i old hs
    by_cases hij : i = j
    · subst hij
      rw [List.getElem?_set_self (lt_length_of_some hs)] at h
      obtain rfl : _ = q := by simpa using h
      exact .inl ⟨old, hs, rfl, fun h₁ h₂ => by simp only; omega⟩
    · rw [List.getElem?_set_ne hij] at h
      exact .inl ⟨q, h, rfl, fun h₁ _ => h₁⟩
  · rename_i hs
    by_cases hij : i = j
    · subst hij
      rw [List.getElem?_set_self (lt_length_of_some hs)] at h
      exact .inr ⟨rfl, hs, by simpa using h.symm⟩
    · rw [List.getElem?_set_ne hij] at h
      exact .inl ⟨q, h, rfl, fun h₁ _ => h₁⟩
  · exact .inl ⟨q, h, rfl, fun h₁ _ => h₁⟩

end Slots

open Slots

structure DepositResult where
  nDeposited : ℤ
  task : Transfer

structure ChestStorage (ι : Type) where
  invStacks : List (Option (ItemStack ι))
  invSlotToDeposit : ℕ
  deriving DecidableEq

namespace ChestStorage

/-- The variables of `deposit_priority` while it looks through the slots. -/
structure Scan where
  emptySlot : Option ℕ
  sizeOfBestSlot : Option ℤ
  invSlotToDeposit : ℕ

section
variable [DecidableEq ι] [ItemClass ι]

def look (item : ι) (s : Scan) (invSlot : ℕ) : Option (ItemStack ι) → Scan
  | some stack =>
    if stack.item = item ∧ stack.size < ItemClass.maxSize item then
      match s.sizeOfBestSlot with
      | some bestSize =>
        if stack.size ≤ bestSize then s
        else { s with sizeOfBestSlot := some stack.size, invSlotToDeposit := invSlot }
      | none => { s with sizeOfBestSlot := some stack.size, invSlotToDeposit := invSlot }
    else s
  | none => { s with emptySlot := some invSlot }

def scan (item : ι) : ℕ → List (Option (ItemStack ι)) → Scan → Scan
  | _, [], s => s
  | invSlot, stack :: invStacks, s => scan item (invSlot + 1) invStacks (look item s invSlot stack)

def depositPriority (c : ChestStorage ι) (item : ι) : ChestStorage ι × Option ℤ :=
  let s := scan item 0 c.invStacks ⟨none, none, c.invSlotToDeposit⟩
  match s.sizeOfBestSlot, s.emptySlot with
  | some size, _ => ({ c with invSlotToDeposit := s.invSlotToDeposit }, some size)
  | none, some x => ({ c with invSlotToDeposit := x }, some (i32Min + 1))
  | none, none => ({ c with invSlotToDeposit := s.invSlotToDeposit }, none)

/-- No value means that the slot is out of bounds. -/
def deposit (c : ChestStorage ι) (stack : ItemStack ι) (busSlot : ℕ) :
    Option (ChestStorage ι × DepositResult) :=
  let result (nDeposited : ℤ) (invStack : ItemStack ι) :=
    ({ c with invStacks := c.invStacks.set c.invSlotToDeposit (some invStack) },
      ⟨nDeposited, nDeposited, busSlot + 1, some (c.invSlotToDeposit + 1)⟩)
  match c.invStacks[c.invSlotToDeposit]? with
  | none => none
  | some (some invStack) =>
    let nDeposited := min stack.size (ItemClass.maxSize invStack.item - invStack.size)
    some (result nDeposited { invStack with size := invStack.size + nDeposited })
  | some none => some (result stack.size stack)

/-- A slot that `item` can go to. -/
def Fits (item : ι) (invStacks : List (Option (ItemStack ι))) (invSlot : ℕ) : Prop :=
  ∃ stack, invStacks[invSlot]? = some (some stack) ∧
    stack.item = item ∧ stack.size < ItemClass.maxSize item

theorem look_some (item : ι) (s : Scan) (invSlot : ℕ) (stack : ItemStack ι) :
    look item s invSlot (some stack) = s ∨ stack.item = item ∧ stack.size < ItemClass.maxSize item ∧
      look item s invSlot (some stack) =
        { s with sizeOfBestSlot := some stack.size, invSlotToDeposit := invSlot } := by
  simp only [look]
  by_cases hc : stack.item = item ∧ stack.size < ItemClass.maxSize item
  · rw [if_pos hc]
    cases s.sizeOfBestSlot with
    | none => exact .inr ⟨hc.1, hc.2, rfl⟩
    | some bestSize =>
      by_cases hle : stack.size ≤ bestSize
      · exact .inl (if_pos hle)
      · exact .inr ⟨hc.1, hc.2, if_neg hle⟩
  · exact .inl (if_neg hc)

theorem scan_spec {item : ι} {invStacks before rest : List (Option (ItemStack ι))}
    (hcut : invStacks = before ++ rest)
    {s : Scan} (hbest : s.sizeOfBestSlot ≠ none → Fits item invStacks s.invSlotToDeposit)
    (hempty : ∀ x, s.emptySlot = some x → invStacks[x]? = some none) :
    ((scan item before.length rest s).sizeOfBestSlot ≠ none →
      Fits item invStacks (scan item before.length rest s).invSlotToDeposit) ∧
    ∀ x, (scan item before.length rest s).emptySlot = some x → invStacks[x]? = some none := by
  induction rest generalizing before s with
  | nil => exact ⟨hbest, hempty⟩
  | cons stack rest ih =>
    have hhere : invStacks[before.length]? = some stack := by simp [hcut]
    have hcut' : invStacks = (before ++ [stack]) ++ rest := by simp [hcut]
    have hlen : before.length + 1 = (before ++ [stack]).length := by simp
    rw [scan, hlen]
    apply ih hcut'
    · cases stack with
      | none => exact hbest
      | some stack =>
        rcases look_some item s before.length stack with hsame | ⟨hitem, hlt, hnew⟩
        · rwa [hsame]
        · rw [hnew]
          exact fun _ => ⟨stack, hhere, hitem, hlt⟩
    · cases stack with
      | none =>
        intro x hx
        obtain rfl : before.length = x := by simpa [look] using hx
        exact hhere
      | some stack =>
        rcases look_some item s before.length stack with hsame | ⟨-, -, hnew⟩
        · rwa [hsame]
        · rwa [hnew]

theorem depositPriority_stacks (c : ChestStorage ι) (item : ι) :
    (c.depositPriority item).1.invStacks = c.invStacks := by
  unfold depositPriority
  simp only
  split <;> rfl

/-- A chest that has a priority for an item has also found where to put it. -/
theorem depositPriority_spec {c c' : ChestStorage ι} {item : ι} {prio : ℤ}
    (h : c.depositPriority item = (c', some prio)) :
    Fits item c.invStacks c'.invSlotToDeposit ∨ c.invStacks[c'.invSlotToDeposit]? = some none := by
  obtain ⟨hbest, hempty⟩ := @scan_spec _ _ _ item c.invStacks [] c.invStacks rfl
    ⟨none, none, c.invSlotToDeposit⟩ (by simp) (by simp)
  unfold depositPriority at h
  simp only at h
  split at h
  · rename_i size _ hsize
    obtain ⟨rfl, -⟩ := Prod.mk.inj h
    exact .inl (hbest fun hnone => Option.some_ne_none _ (hsize.symm.trans hnone))
  · rename_i x _ hx
    obtain ⟨rfl, -⟩ := Prod.mk.inj h
    exact .inr (hempty _ hx)
  · simp at h

/-- A deposit puts into the chosen slot what fits there. -/
theorem deposit_eq {c c' : ChestStorage ι} {item : ι} {prio : ℤ}
    (h : c.depositPriority item = (c', some prio))
    (size : ℤ) (busSlot : ℕ) :
    ∃ n, c'.deposit ⟨item, size⟩ busSlot =
        some ({ c' with invStacks := putIn c.invStacks c'.invSlotToDeposit ⟨item, n⟩ },
          ⟨n, n, busSlot + 1, some (c'.invSlotToDeposit + 1)⟩) ∧
      ((∃ stack, c.invStacks[c'.invSlotToDeposit]? = some (some stack) ∧ stack.item = item ∧
          stack.size < ItemClass.maxSize item ∧ n = min size (ItemClass.maxSize item - stack.size)) ∨
        c.invStacks[c'.invSlotToDeposit]? = some none ∧ n = size) := by
  have hslots : c'.invStacks = c.invStacks := by
    have := depositPriority_stacks c item
    rwa [h] at this
  unfold deposit putIn
  rw [hslots]
  rcases depositPriority_spec h with ⟨stack, hstack, rfl, hlt⟩ | hnone
  · rw [hstack]
    exact ⟨min size (ItemClass.maxSize stack.item - stack.size), rfl,
      .inl ⟨stack, rfl, rfl, hlt, rfl⟩⟩
  · rw [hnone]
    exact ⟨size, rfl, .inr ⟨rfl, rfl⟩⟩

end

/-- The end of `ChestExtractor::extract`. No value means that the index or `unwrap` failed. -/
def extracted (c : ChestStorage ι) (invSlot : ℕ) (size : ℤ) : Option (ChestStorage ι) :=
  match c.invStacks[invSlot]? with
  | some (some invStack) =>
    let invSize := invStack.size - size
    some { c with
      invStacks := c.invStacks.set invSlot
        (if invSize ≤ 0 then none else some { invStack with size := invSize }) }
  | _ => none

theorem extracted_eq {c : ChestStorage ι} {invSlot : ℕ} {stack : ItemStack ι}
    (h : c.invStacks[invSlot]? = some (some stack)) (size : ℤ) :
    c.extracted invSlot size = some { c with invStacks := takeOut c.invStacks invSlot size } := by
  unfold extracted takeOut
  rw [h]

end ChestStorage

inductive Storage (ι : Type) where
  | chest (c : ChestStorage ι)
  | drawer (filters : List (Filter ι))
  | me

namespace Storage
variable [DecidableEq ι] [ItemClass ι]

def depositPriority (storage : Storage ι) (item : ι) : Storage ι × Option ℤ :=
  match storage with
  | .chest c => ((.chest (c.depositPriority item).1), (c.depositPriority item).2)
  | .drawer filters =>
    (storage, if filters.any fun filter => filter.apply item then some i32Max else none)
  | .me => (storage, some i32Min)

def deposit (storage : Storage ι) (stack : ItemStack ι) (busSlot : ℕ) :
    Option (Storage ι × DepositResult) :=
  match storage with
  | .chest c => (c.deposit stack busSlot).map fun r => (.chest r.1, r.2)
  | .drawer _ => some (storage, ⟨stack.size, stack.size, busSlot + 1, none⟩)
  | .me => some (storage, ⟨stack.size, stack.size, busSlot + 1, some 9⟩)

/-- A storage that has a priority for an item takes some of it. -/
theorem deposit_spec {storage storage' : Storage ι} {item : ι} {prio : ℤ}
    (h : storage.depositPriority item = (storage', some prio)) {size : ℤ} (hsize : 0 < size)
    (busSlot : ℕ) :
    ∃ storage'' r, storage'.deposit ⟨item, size⟩ busSlot = some (storage'', r) ∧
      r.task.busSlot = busSlot + 1 ∧ r.task.size = r.nDeposited ∧ 0 < r.nDeposited ∧
        r.nDeposited ≤ size := by
  cases storage with
  | chest c =>
    obtain ⟨rfl, hprio⟩ := Prod.mk.inj h
    have hc : c.depositPriority item = ((c.depositPriority item).1, some prio) := by rw [← hprio]
    obtain ⟨n, hrun, hcase⟩ := ChestStorage.deposit_eq hc size busSlot
    refine ⟨_, _, by simp only [deposit, hrun, Option.map_some]; rfl, rfl, rfl, ?_⟩
    rcases hcase with ⟨stack, -, -, hlt, rfl⟩ | ⟨-, rfl⟩
    · exact ⟨by simp only; omega, min_le_left _ _⟩
    · exact ⟨hsize, le_rfl⟩
  | drawer filters =>
    obtain ⟨rfl, -⟩ := Prod.mk.inj h
    exact ⟨_, _, rfl, rfl, rfl, hsize, le_rfl⟩
  | me =>
    obtain ⟨rfl, -⟩ := Prod.mk.inj h
    exact ⟨_, _, rfl, rfl, rfl, hsize, le_rfl⟩

end Storage

section
variable [DecidableEq ι] [ItemClass ι]

/-- The loop of `deposit_item`: the storage with the highest priority takes what it can until
nothing is left. A task is a transfer or the error that ends the loop. -/
def depositItemLoop (busSlot : ℕ) :
    ℕ → List (Storage ι) → ItemStack ι → List (Except String Transfer) →
    Option (List (Storage ι) × List (Except String Transfer))
  | 0, _, _, _ => none
  | fuel + 1, storages, stack, tasks =>
    if 0 < stack.size then
      let asked := storages.map fun storage => storage.depositPriority stack.item
      match FirstBest.firstBest Prod.snd (fun prio best => decide (best < prio)) asked with
      | none => some (asked.map Prod.fst, tasks ++ [.error "storage is full"])
      | some (i, _) =>
        match (asked[i]?).bind fun storage => storage.1.deposit stack busSlot with
        | none => none
        | some (storage, r) =>
          depositItemLoop busSlot fuel ((asked.map Prod.fst).set i storage)
            { stack with size := stack.size - r.nDeposited } (tasks ++ [.ok r.task])
    else some (storages, tasks)

def depositItem (storages : List (Storage ι)) (busSlot : ℕ) (stack : ItemStack ι) :
    Option (List (Storage ι) × List (Except String Transfer)) :=
  depositItemLoop busSlot (stack.size.toNat + 1) storages stack []

/-- The transfers among some tasks. -/
def transfers (tasks : List (Except String Transfer)) : List Transfer :=
  tasks.filterMap fun
    | .ok t => some t
    | .error _ => none

@[simp] theorem transfers_append (tasks tasks' : List (Except String Transfer)) :
    transfers (tasks ++ tasks') = transfers tasks ++ transfers tasks' := by simp [transfers]

/-- The tasks of a stack that lies in a slot of the bus: transfers from that slot, of no more than
the stack, and at least one task unless the stack is empty. -/
structure Takes (busSlot : ℕ) (size : ℤ) (tasks : List (Except String Transfer)) : Prop where
  source : ∀ t ∈ transfers tasks, t.busSlot = busSlot + 1 ∧ 0 < t.size
  charged : ((transfers tasks).map Transfer.size).sum ≤ size
  nonempty : 0 < size → tasks ≠ []

theorem depositItemLoop_spec {busSlot fuel : ℕ} {storages : List (Storage ι)} {stack : ItemStack ι}
    (tasks : List (Except String Transfer)) (h0 : 0 ≤ stack.size) (hfuel : stack.size < fuel) :
    ∃ storages' more, depositItemLoop busSlot fuel storages stack tasks =
      some (storages', tasks ++ more) ∧
      Takes busSlot stack.size more := by
  induction fuel generalizing storages stack tasks with
  | zero => simp at hfuel; omega
  | succ fuel ih =>
    unfold depositItemLoop
    by_cases hsize : 0 < stack.size
    · simp only [if_pos hsize]
      cases hbest : FirstBest.firstBest Prod.snd (fun prio best => decide (best < prio))
          (storages.map fun storage => storage.depositPriority stack.item) with
      | none => exact ⟨_, _, rfl, by simp [transfers], by simpa [transfers] using h0, by simp⟩
      | some b =>
        obtain ⟨i, prio⟩ := b
        obtain ⟨⟨storage', prio'⟩, hget, hprio⟩ := FirstBest.firstBest_spec hbest
        simp only at hprio
        subst hprio
        obtain ⟨storage, -, hstorage⟩ : ∃ storage, storages[i]? = some storage ∧
            storage.depositPriority stack.item = (storage', some prio) := by simpa using hget
        obtain ⟨storage'', r, hrun, hslot, hn, hpos, hle⟩ :=
          Storage.deposit_spec hstorage hsize busSlot
        simp only [hget, Option.bind_some, hrun]
        obtain ⟨storages', more, hloop, hsource, hcharged, -⟩ := @ih
          (((storages.map fun storage => storage.depositPriority stack.item).map Prod.fst).set
            i storage'')
          { stack with size := stack.size - r.nDeposited } (tasks ++ [.ok r.task]) (by simp only; omega)
          (by push_cast at hfuel; simp only; omega)
        refine ⟨storages', .ok r.task :: more, ?_, ?_, ?_, by simp⟩
        · rw [hloop, List.append_assoc, List.singleton_append]
        · have hcons : transfers (.ok r.task :: more) = r.task :: transfers more := rfl
          rw [hcons]
          exact List.forall_mem_cons.mpr ⟨⟨hslot, hn ▸ hpos⟩, hsource⟩
        · have hcons : transfers (.ok r.task :: more) = r.task :: transfers more := rfl
          rw [hcons, List.map_cons, List.sum_cons, hn]
          simp only at hcharged
          omega
    · rw [if_neg hsize]
      exact ⟨storages, [], by simp, by simp [transfers], by simpa [transfers] using h0,
        fun h => absurd h hsize⟩

/-- `deposit_item` ends. -/
theorem depositItem_spec (storages : List (Storage ι)) (busSlot : ℕ) {stack : ItemStack ι}
    (h0 : 0 ≤ stack.size) :
    ∃ storages' tasks, depositItem storages busSlot stack = some (storages', tasks) ∧
      Takes busSlot stack.size tasks :=
  depositItemLoop_spec [] h0 (by push_cast; omega)

end

end OCRemote
