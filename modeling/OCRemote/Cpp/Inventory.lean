import OCRemote.Factory.Inventory

/-! The plans of the C++ server (`Item.cpp`). Where the other server asks whether something is left
or can be inserted, this one asks whether it is not zero, so that a stack that is larger than a full
one gets a negative insertion. -/

namespace OCRemote
namespace CppInventory
open Inventory
variable {ι : Type} [DecidableEq ι] [ItemClass ι]

/-- The loop over the slots from `slot` on. -/
def insertLoop (item : ι) : ℕ → Stacks ι → ℤ → Option ℕ → InsertPlan → Scan ι
  | _, [], size, firstEmptySlot, result => ⟨[], size, firstEmptySlot, result⟩
  | slot, stack :: inventory, size, firstEmptySlot, result =>
    if size = 0 then ⟨stack :: inventory, size, firstEmptySlot, result⟩
    else
      match stack with
      | none =>
        let scan := insertLoop item (slot + 1) inventory size
          (if firstEmptySlot = none then some slot else firstEmptySlot) result
        { scan with inventory := none :: scan.inventory }
      | some stack =>
        let toProc := min size (ItemClass.maxSize item - stack.size)
        if stack.item = item ∧ toProc ≠ 0 then
          let scan := insertLoop item (slot + 1) inventory (size - toProc) firstEmptySlot
            (result.insert slot toProc)
          { scan with inventory := some ⟨stack.item, stack.size + toProc⟩ :: scan.inventory }
        else
          let scan := insertLoop item (slot + 1) inventory size firstEmptySlot result
          { scan with inventory := some stack :: scan.inventory }

def insertIntoInventory (inventory : Stacks ι) (item : ι) (size : ℤ) : Stacks ι × InsertPlan :=
  let scan := insertLoop item 0 inventory (min size (ItemClass.maxSize item)) none .empty
  match scan.firstEmptySlot with
  | some slot =>
    if scan.remaining ≠ 0 then
      (scan.inventory.set slot (some ⟨item, scan.remaining⟩),
        scan.result.insert slot scan.remaining)
    else (scan.inventory, scan.result)
  | none => (scan.inventory, scan.result)

/-- How much of an item goes onto what is in a slot. -/
def stackRoom (item : ι) : Option (ItemStack ι) → ℤ
  | none => 0
  | some stack => if stack.item = item then max 0 (ItemClass.maxSize item - stack.size) else 0

/-- The stacks before one that is larger than a full one take all of it. -/
def Spared (item : ι) (inventory : Stacks ι) (size : ℤ) : Prop :=
  ∀ before stack after, inventory = before ++ some stack :: after → stack.item = item →
    ItemClass.maxSize item < stack.size → size ≤ (before.map (stackRoom item)).sum

variable {item : ι} {inventory : Stacks ι} {size : ℤ}

theorem stackRoom_nonneg (item : ι) (stack : Option (ItemStack ι)) : 0 ≤ stackRoom item stack := by
  unfold stackRoom
  split
  · exact le_rfl
  · split_ifs
    · exact le_max_left _ _
    · exact le_rfl

theorem spared_of_nonpos (h : size ≤ 0) (inventory : Stacks ι) : Spared item inventory size := by
  intro before stack after _ _ _
  refine h.trans (List.sum_nonneg fun n hn => ?_)
  obtain ⟨stack, -, rfl⟩ := List.mem_map.mp hn
  exact stackRoom_nonneg item stack

/-- What a slot takes does not come to the others. -/
theorem spared_cons (hsize : 0 < size) (stack : Option (ItemStack ι)) :
    Spared item (stack :: inventory) size ↔
      (∀ s ∈ stack, s.item = item → s.size ≤ ItemClass.maxSize item) ∧
        Spared item inventory (size - stackRoom item stack) := by
  constructor
  · intro h
    refine ⟨fun s hs hitem => ?_, fun before s after hcut hitem hover => ?_⟩
    · obtain rfl : stack = some s := hs
      by_contra hover
      have hnone := h [] s inventory rfl hitem (not_le.mp hover)
      simp at hnone
      omega
    · have hbefore := h (stack :: before) s after (by rw [hcut, List.cons_append]) hitem hover
      rw [List.map_cons, List.sum_cons] at hbefore
      omega
  · rintro ⟨hhere, hrest⟩ before s after hcut hitem hover
    cases before with
    | nil =>
      obtain ⟨rfl, -⟩ := List.cons.inj hcut
      exact absurd (hhere s rfl hitem) (not_le.mpr hover)
    | cons stack' before =>
      obtain ⟨rfl, htail⟩ := List.cons.inj hcut
      have hbefore := hrest before s after htail hitem hover
      rw [List.map_cons, List.sum_cons]
      omega

/-- What the loop takes away from what is left does not matter for the stacks behind, whether it is
the whole room or all that is left. -/
theorem spared_take {stack : ItemStack ι} (hitem : stack.item = item)
    (hsize : stack.size ≤ ItemClass.maxSize item) :
    Spared item inventory (size - min size (ItemClass.maxSize item - stack.size)) ↔
      Spared item inventory (size - stackRoom item (some stack)) := by
  have hroom : stackRoom item (some stack) = ItemClass.maxSize item - stack.size := by
    rw [stackRoom, if_pos hitem, max_eq_right (by omega)]
  rw [hroom]
  rcases le_total size (ItemClass.maxSize item - stack.size) with hle | hle
  · exact iff_of_true (spared_of_nonpos (by omega) _) (spared_of_nonpos (by omega) _)
  · rw [min_eq_right hle]

/-- The loops agree as long as no stack is larger than a full one. -/
theorem insertLoop_eq (slot : ℕ) (hsize : 0 ≤ size) (firstEmptySlot : Option ℕ)
    (result : InsertPlan) (hspared : Spared item inventory size) :
    insertLoop item slot inventory size firstEmptySlot result =
      Inventory.insertLoop item slot inventory size firstEmptySlot result := by
  induction inventory generalizing slot size firstEmptySlot result with
  | nil => rfl
  | cons stack inventory ih =>
    unfold insertLoop Inventory.insertLoop
    rcases hsize.eq_or_lt with rfl | hpos
    · simp
    obtain ⟨hhere, hrest⟩ := (spared_cons hpos stack).mp hspared
    rw [if_neg hpos.ne', if_neg (not_le.mpr hpos)]
    cases stack with
    | none =>
      have hrest : Spared item inventory size := by simpa [stackRoom] using hrest
      simp only [ih _ hsize _ _ hrest]
    | some stack =>
      simp only
      by_cases hitem : stack.item = item
      · have hle : stack.size ≤ ItemClass.maxSize item := hhere stack rfl hitem
        have hiff : min size (ItemClass.maxSize item - stack.size) ≠ 0 ↔
            0 < min size (ItemClass.maxSize item - stack.size) := by omega
        have htake := (spared_take hitem hle).mpr hrest
        simp only [hitem, true_and, hiff]
        split_ifs with hproc
        · rw [ih _ (by omega) _ _ htake]
        · have hzero : min size (ItemClass.maxSize item - stack.size) = 0 := by omega
          rw [hzero, sub_zero] at htake
          rw [ih _ hsize _ _ htake]
      · have hrest : Spared item inventory size := by simpa [stackRoom, hitem] using hrest
        simp only [hitem, false_and, if_false, ih _ hsize _ _ hrest]

/-- The first stack that is larger than a full one gets a negative insertion. -/
theorem insertLoop_negative (item : ι) (inventory : Stacks ι) (slot : ℕ) (hsize : 0 ≤ size)
    (firstEmptySlot : Option ℕ) (result : InsertPlan) :
    ∃ moves, (insertLoop item slot inventory size firstEmptySlot result).result.insertions =
      result.insertions ++ moves ∧ (¬Spared item inventory size → ∃ move ∈ moves, move.2 < 0) := by
  induction inventory generalizing slot size firstEmptySlot result with
  | nil =>
    refine ⟨[], (List.append_nil _).symm, fun hover => absurd ?_ hover⟩
    intro before stack after hcut
    simp at hcut
  | cons stack inventory ih =>
    unfold insertLoop
    rcases hsize.eq_or_lt with rfl | hpos
    · rw [if_pos rfl]
      exact ⟨[], (List.append_nil _).symm, fun hover => absurd (spared_of_nonpos le_rfl _) hover⟩
    rw [if_neg hpos.ne', spared_cons hpos]
    cases stack with
    | none =>
      obtain ⟨moves, hmoves, hover⟩ := ih (slot + 1) hsize
        (if firstEmptySlot = none then some slot else firstEmptySlot) result
      refine ⟨moves, hmoves, fun hnot => hover fun hspared => hnot ⟨by simp, ?_⟩⟩
      simpa [stackRoom] using hspared
    | some stack =>
      simp only
      split_ifs with hproc
      · obtain ⟨hitem, hproc⟩ := hproc
        have hleft : 0 ≤ size - min size (ItemClass.maxSize item - stack.size) := by omega
        obtain ⟨moves, hmoves, hover⟩ := ih (slot + 1) hleft firstEmptySlot
          (result.insert slot (min size (ItemClass.maxSize item - stack.size)))
        refine ⟨(slot, min size (ItemClass.maxSize item - stack.size)) :: moves, ?_, fun hnot => ?_⟩
        · rw [hmoves]
          simp [InsertPlan.insert]
        by_cases hle : stack.size ≤ ItemClass.maxSize item
        · obtain ⟨move, hmove, hneg⟩ := hover fun hspared =>
            hnot ⟨by simpa [hitem] using hle, (spared_take hitem hle).mp hspared⟩
          exact ⟨move, .tail _ hmove, hneg⟩
        · exact ⟨_, List.mem_cons_self .., by simp only; omega⟩
      · obtain ⟨moves, hmoves, hover⟩ := ih (slot + 1) hsize firstEmptySlot result
        refine ⟨moves, hmoves, fun hnot => hover fun hspared => hnot ?_⟩
        by_cases hitem : stack.item = item
        · -- a stack that gets nothing is a full one
          have hfull : ItemClass.maxSize item = stack.size := by
            by_contra hne
            exact hproc ⟨hitem, by omega⟩
          simpa [stackRoom, hitem, hfull] using hspared
        · simpa [stackRoom, hitem] using hspared

/-- The servers make the same plan exactly when no stack that is larger than a full one is reached
while something is left. Otherwise this one plans to insert a negative number. -/
theorem plans_agree (inventory : Stacks ι) (item : ι) {size : ℤ} (hsize : 0 ≤ size)
    (hmax : 0 ≤ ItemClass.maxSize item) :
    (insertIntoInventory inventory item size = Inventory.insertIntoInventory inventory item size ↔
      Spared item inventory (min size (ItemClass.maxSize item))) ∧
    (¬Spared item inventory (min size (ItemClass.maxSize item)) →
      ∃ move ∈ (insertIntoInventory inventory item size).2.insertions, move.2 < 0) := by
  have hmin : 0 ≤ min size (ItemClass.maxSize item) := le_min hsize hmax
  have hnegative (hover : ¬Spared item inventory (min size (ItemClass.maxSize item))) :
      ∃ move ∈ (insertIntoInventory inventory item size).2.insertions, move.2 < 0 := by
    obtain ⟨moves, hmoves, hneg⟩ := insertLoop_negative item inventory 0 hmin none .empty
    obtain ⟨move, hmove, hlt⟩ := hneg hover
    have hmem : move ∈ (insertLoop item 0 inventory (min size (ItemClass.maxSize item)) none
        .empty).result.insertions := by
      rw [hmoves]
      exact List.mem_append_right _ hmove
    refine ⟨move, ?_, hlt⟩
    unfold insertIntoInventory
    simp only
    split
    · split_ifs
      · exact List.mem_append_left _ hmem
      · exact hmem
    · exact hmem
  refine ⟨⟨fun heq => ?_, fun hspared => ?_⟩, hnegative⟩
  · by_contra hover
    obtain ⟨move, hmove, hlt⟩ := hnegative hover
    obtain ⟨after, plan, hplan, -, -, hpos, -⟩ :=
      Inventory.insertIntoInventory_spec inventory item size
    rw [heq, hplan] at hmove
    exact absurd (hpos move hmove) (not_lt.mpr hlt.le)
  · unfold insertIntoInventory Inventory.insertIntoInventory
    rw [insertLoop_eq 0 hmin none .empty hspared]
    obtain ⟨moves, hok⟩ := insertLoop_spec item 0 inventory
      (min size (ItemClass.maxSize item)) none .empty
    have hleft := hok.left hmin
    generalize Inventory.insertLoop item 0 inventory _ none .empty = scan at hleft
    have hiff : scan.remaining ≠ 0 ↔ 0 < scan.remaining := by omega
    simp only
    cases scan.firstEmptySlot with
    | none => rfl
    | some slot => simp only [hiff]

example : (insertIntoInventory [some ⟨iron, 65⟩, none] iron 10).2 = ⟨10, [(0, -1), (1, 11)]⟩ := by
  decide

theorem plans_agree_iron :
    let inventory := [some ⟨gold, 70⟩, some ⟨iron, 60⟩, some ⟨iron, 65⟩]
    (insertIntoInventory inventory iron 4 = Inventory.insertIntoInventory inventory iron 4 ↔
      Spared iron inventory (min 4 (ItemClass.maxSize iron))) ∧
    (¬Spared iron inventory (min 4 (ItemClass.maxSize iron)) →
      ∃ move ∈ (insertIntoInventory inventory iron 4).2.insertions, move.2 < 0) :=
  plans_agree _ iron (by decide) (by decide)

end CppInventory
end OCRemote
