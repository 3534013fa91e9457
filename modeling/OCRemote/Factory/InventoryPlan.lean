import OCRemote.Factory.InventoryCover
import OCRemote.Lib.Tally

/-! A plan of insertions says exactly what the inventory will be, and it is complete: less is
inserted than was asked for only when no slot has room. -/

namespace OCRemote
open Tally

namespace Inventory
variable {ι : Type}

/-- So much more of an item in a slot. -/
def addTo (item : ι) (n : ℤ) (stack : Option (ItemStack ι)) : Option (ItemStack ι) :=
  if n = 0 then stack else some ⟨item, amount stack + n⟩

theorem addTo_zero (item : ι) : addTo item 0 = id := funext fun _ => if_pos rfl

theorem addTo_eq_none {item : ι} {n : ℤ} {stack : Option (ItemStack ι)} :
    addTo item n stack = none ↔ n = 0 ∧ stack = none := by
  unfold addTo
  split_ifs with hn <;> simp [hn]

theorem addTo_addTo (item : ι) {m n : ℤ} (hm : 0 ≤ m) (hn : 0 ≤ n)
    (stack : Option (ItemStack ι)) :
    addTo item n (addTo item m stack) = addTo item (m + n) stack := by
  unfold addTo
  by_cases hm0 : m = 0
  · rw [if_pos hm0, hm0, zero_add]
  · by_cases hn0 : n = 0
    · rw [if_neg hm0, if_pos hn0, hn0, add_zero, if_neg hm0]
    · rw [if_neg hm0, if_neg hn0, if_neg (by omega)]
      simp [amount, add_assoc]

/-- The inventory afterwards is that before with so much of the item added to each slot. -/
def Added (item : ι) (amounts : ℕ → ℤ) (before after : Stacks ι) : Prop :=
  ∀ slot, after[slot]? = before[slot]?.map (addTo item (amounts slot))

theorem Added.refl (item : ι) (inventory : Stacks ι) :
    Added item (fun _ => 0) inventory inventory := by
  intro slot
  rw [addTo_zero, Option.map_id_fun, id]

theorem Added.trans {item : ι} {f g : ℕ → ℤ} {before between after : Stacks ι}
    (h : Added item f before between) (h' : Added item g between after) (hf : ∀ slot, 0 ≤ f slot)
    (hg : ∀ slot, 0 ≤ g slot) : Added item (fun slot => f slot + g slot) before after := by
  intro slot
  rw [h' slot, h slot, Option.map_map]
  congr 1
  funext stack
  exact addTo_addTo item (hf slot) (hg slot) stack

theorem Added.set {item : ι} {inventory : Stacks ι} {slot : ℕ} {stack : Option (ItemStack ι)}
    (hslot : inventory[slot]? = some stack) {n : ℤ} (hn : 0 < n) :
    Added item (fun slot' => sumOf slot' [(slot, n)]) inventory
      (inventory.set slot (some ⟨item, amount stack + n⟩)) := by
  intro slot'
  have hlt := (List.getElem?_eq_some_iff.mp hslot).1
  rw [List.getElem?_set]
  by_cases hsame : slot = slot'
  · subst hsame
    rw [if_pos rfl, if_pos hlt, hslot]
    simp [addTo, hn.ne']
  · simp [hsame, addTo_zero]

/-- A slot to which nothing is added does not change. -/
theorem Added.eq_of_zero {item : ι} {f : ℕ → ℤ} {before after : Stacks ι}
    (h : Added item f before after) {slot : ℕ} (hzero : f slot = 0) :
    after[slot]? = before[slot]? := by
  rw [h slot, hzero, addTo_zero, Option.map_id_fun, id]

/-- What insertions do to an inventory whose slots are filled up to `cap` at most. -/
structure Fills (cap : ℤ) (item : ι) (before : Stacks ι) (insertions : List (ℕ × ℤ))
    (after : Stacks ι) : Prop where
  distinct : (insertions.map Prod.fst).Nodup
  positive : ∀ move ∈ insertions, 0 < move.2
  added : Added item (fun slot => sumOf slot insertions) before after
  others : ∀ (slot : ℕ) (stack : ItemStack ι), before[slot]? = some (some stack) →
    stack.item ≠ item →
    after[slot]? = some (some stack)
  capped : ∀ move ∈ insertions, ∃ n, after[move.1]? = some (some ⟨item, n⟩) ∧ n ≤ cap

variable [DecidableEq ι] [ItemClass ι]

theorem placeAll_cons_iff {item : ι} {inventory after : Stacks ι} {move : ℕ × ℤ}
    {moves : List (ℕ × ℤ)} : placeAll item inventory (move :: moves) = some after ↔
      ∃ between, place item inventory move = some between ∧
        placeAll item between moves = some after := by
  simp [placeAll, Option.bind_eq_some_iff]

theorem positive_of_placeAll {item : ι} {inventory after : Stacks ι} {moves : List (ℕ × ℤ)}
    (h : placeAll item inventory moves = some after) : ∀ move ∈ moves, 0 < move.2 := by
  induction moves generalizing inventory with
  | nil => simp
  | cons move moves ih =>
    obtain ⟨between, hplace, hrest⟩ := placeAll_cons_iff.mp h
    obtain ⟨-, -, -, hpos, -⟩ := place_iff.mp hplace
    exact List.forall_mem_cons.mpr ⟨hpos, ih hrest⟩

theorem added_of_placeAll {item : ι} {inventory after : Stacks ι} {moves : List (ℕ × ℤ)}
    (h : placeAll item inventory moves = some after) :
    Added item (fun slot => sumOf slot moves) inventory after := by
  induction moves generalizing inventory with
  | nil =>
    obtain rfl : inventory = after := by simpa [placeAll] using h
    exact .refl item inventory
  | cons move moves ih =>
    obtain ⟨between, hplace, hrest⟩ := placeAll_cons_iff.mp h
    obtain ⟨stack, hslot, -, hpos, -, rfl⟩ := place_iff.mp hplace
    have hfirst : Added item _ inventory _ := .set hslot hpos
    have hnonneg (slot : ℕ) : 0 ≤ sumOf slot [(move.1, move.2)] := by
      refine sumOf_nonneg (fun d hd => ?_) slot
      rw [List.mem_singleton.mp hd]
      exact hpos.le
    have hall := hfirst.trans (ih hrest) hnonneg
      (sumOf_nonneg fun d hd => (positive_of_placeAll hrest d hd).le)
    simpa using hall

/-- Whoever is placed somewhere is accepted there. -/
theorem others_of_placeAll {item : ι} {inventory after : Stacks ι} {moves : List (ℕ × ℤ)}
    (h : placeAll item inventory moves = some after) {slot : ℕ} {stack : ItemStack ι}
    (hslot : inventory[slot]? = some (some stack)) (hitem : stack.item ≠ item) :
    after[slot]? = some (some stack) := by
  induction moves generalizing inventory with
  | nil =>
    obtain rfl : inventory = after := by simpa [placeAll] using h
    exact hslot
  | cons move moves ih =>
    obtain ⟨between, hplace, hrest⟩ := placeAll_cons_iff.mp h
    obtain ⟨stack', hslot', haccepts, -, -, rfl⟩ := place_iff.mp hplace
    refine ih hrest ?_
    have hne : move.1 ≠ slot := by
      rintro rfl
      obtain rfl := Option.some.inj (hslot'.symm.trans hslot)
      exact hitem (haccepts stack rfl)
    rwa [List.getElem?_set_ne hne]

theorem capped_of_placeAll {item : ι} {inventory after : Stacks ι} {moves : List (ℕ × ℤ)}
    (h : placeAll item inventory moves = some after) : ∀ move ∈ moves,
      ∃ n, after[move.1]? = some (some ⟨item, n⟩) ∧ n ≤ ItemClass.maxSize item := by
  induction moves generalizing inventory with
  | nil => simp
  | cons move moves ih =>
    obtain ⟨between, hplace, hrest⟩ := placeAll_cons_iff.mp h
    obtain ⟨stack, hslot, -, -, hle, rfl⟩ := place_iff.mp hplace
    refine List.forall_mem_cons.mpr ⟨?_, ih hrest⟩
    -- a later move to the same slot decides, else it stays what this one made it
    by_cases hlater : ∃ move' ∈ moves, move'.1 = move.1
    · obtain ⟨move', hmove', hsame⟩ := hlater
      rw [← hsame]
      exact ih hrest move' hmove'
    · have hzero : sumOf move.1 moves = 0 :=
        sumOf_eq_zero fun move' hmove' hsame => hlater ⟨move', hmove', hsame⟩
      rw [(added_of_placeAll hrest).eq_of_zero hzero]
      have hlt := (List.getElem?_eq_some_iff.mp hslot).1
      exact ⟨_, by rw [List.getElem?_set_self hlt], hle⟩

/-- Placements into distinct slots fill the inventory. -/
theorem fills_of_placeAll {item : ι} {inventory after : Stacks ι} {moves : List (ℕ × ℤ)}
    (h : placeAll item inventory moves = some after) (hdistinct : (moves.map Prod.fst).Nodup) :
    Fills (ItemClass.maxSize item) item inventory moves after :=
  ⟨hdistinct, positive_of_placeAll h, added_of_placeAll h, fun _ _ => others_of_placeAll h,
    capped_of_placeAll h⟩

/-- What the loop knows of the slots: it goes up through stacks of the item, and where something
remains none of them has room, and no slot is empty unless it is remembered. -/
structure Scan.Full (item : ι) (slot : ℕ) (inventory : Stacks ι) (firstEmptySlot : Option ℕ)
    (scan : Scan ι) (moves : List (ℕ × ℤ)) : Prop where
  slots : ∀ move ∈ moves, ∃ j stack, move.1 = slot + j ∧ inventory[j]? = some (some stack)
  increasing : (moves.map Prod.fst).Pairwise (· < ·)
  full : 0 < scan.remaining → ∀ stack : ItemStack ι, some stack ∈ scan.inventory →
    stack.item = item → ItemClass.maxSize item ≤ stack.size
  empty : 0 < scan.remaining → scan.firstEmptySlot = none →
    firstEmptySlot = none ∧ none ∉ scan.inventory

theorem insertLoop_remaining_le (item : ι) (slot : ℕ) (inventory : Stacks ι) (remaining : ℤ)
    (firstEmptySlot : Option ℕ) (result : InsertPlan) :
    (insertLoop item slot inventory remaining firstEmptySlot result).remaining ≤ remaining := by
  obtain ⟨moves, hok⟩ := insertLoop_spec item slot inventory remaining firstEmptySlot result
  have hmoved := moved_nonneg hok.positive
  rw [hok.rest]
  omega

theorem insertLoop_full (item : ι) (slot : ℕ) (inventory : Stacks ι) (remaining : ℤ)
    (firstEmptySlot : Option ℕ) (result : InsertPlan) :
    ∃ moves, (insertLoop item slot inventory remaining firstEmptySlot result).Full item slot
      inventory firstEmptySlot moves ∧
      (insertLoop item slot inventory remaining firstEmptySlot result).result.insertions =
        result.insertions ++ moves := by
  fun_induction insertLoop item slot inventory remaining firstEmptySlot result with
  | case1 slot remaining firstEmptySlot result =>
    exact ⟨[], ⟨by simp, by simp, by simp, fun _ h => ⟨h, by simp⟩⟩, by simp⟩
  | case2 slot stack inventory remaining firstEmptySlot result h =>
    exact ⟨[], ⟨by simp, by simp, fun hpos => absurd h (not_le.mpr hpos),
      fun hpos => absurd h (not_le.mpr hpos)⟩, by simp⟩
  | case3 slot inventory remaining firstEmptySlot result h scan ih =>
    obtain ⟨moves, hfull, hresult⟩ := ih
    refine ⟨moves, ⟨fun move hmove => ?_, hfull.increasing, fun hpos stack hstack => ?_,
      fun hpos hnone => ?_⟩, hresult⟩
    · obtain ⟨j, stack, hj, hstack⟩ := hfull.slots move hmove
      exact ⟨j + 1, stack, by omega, by simpa using hstack⟩
    · exact hfull.full hpos stack (by simpa using hstack)
    · -- the empty slot is remembered
      have hfirst := (hfull.empty hpos hnone).1
      split_ifs at hfirst
      exact absurd hfirst ‹_›
  | case4 slot inventory remaining firstEmptySlot result h stack toInsert hroom scan ih =>
    obtain ⟨moves, hfull, hresult⟩ := ih
    refine ⟨(slot, toInsert) :: moves, ⟨?_, ?_, fun hpos stack' hstack hitem => ?_,
      fun hpos hnone => ?_⟩, ?_⟩
    · refine List.forall_mem_cons.mpr ⟨⟨0, stack, rfl, rfl⟩, fun move hmove => ?_⟩
      obtain ⟨j, stack', hj, hstack⟩ := hfull.slots move hmove
      exact ⟨j + 1, stack', by omega, by simpa using hstack⟩
    · refine List.pairwise_cons.mpr ⟨fun slot' hslot' => ?_, hfull.increasing⟩
      obtain ⟨move, hmove, rfl⟩ := List.mem_map.mp hslot'
      obtain ⟨j, -, hj, -⟩ := hfull.slots move hmove
      simp only
      omega
    · rcases List.mem_cons.mp hstack with heq | hstack
      · obtain rfl := Option.some.inj heq
        have hle : scan.remaining ≤ remaining - toInsert := insertLoop_remaining_le ..
        simp only at hpos ⊢
        omega
      · exact hfull.full hpos stack' hstack hitem
    · obtain ⟨hfirst, hmem⟩ := hfull.empty hpos hnone
      exact ⟨hfirst, by simpa using hmem⟩
    · rw [hresult]
      simp [InsertPlan.insert]
  | case5 slot inventory remaining firstEmptySlot result h stack toInsert hroom scan ih =>
    obtain ⟨moves, hfull, hresult⟩ := ih
    refine ⟨moves, ⟨fun move hmove => ?_, hfull.increasing, fun hpos stack' hstack hitem => ?_,
      fun hpos hnone => ?_⟩, hresult⟩
    · obtain ⟨j, stack', hj, hstack⟩ := hfull.slots move hmove
      exact ⟨j + 1, stack', by omega, by simpa using hstack⟩
    · rcases List.mem_cons.mp hstack with heq | hstack
      · obtain rfl := Option.some.inj heq
        have : ¬ 0 < toInsert := fun hlt => hroom ⟨hitem, hlt⟩
        omega
      · exact hfull.full hpos stack' hstack hitem
    · obtain ⟨hfirst, hmem⟩ := hfull.empty hpos hnone
      exact ⟨hfirst, by simpa using hmem⟩

/-- A plan that fills the inventory with as much of the item as was asked for, or as far as there
is room. -/
structure Planned (inventory : Stacks ι) (item : ι) (toInsert : ℤ) (plan : InsertPlan)
    (after : Stacks ι) : Prop where
  sum : plan.nInserted = moved plan.insertions
  bound : plan.nInserted ≤ max 0 (min toInsert (ItemClass.maxSize item))
  fills : Fills (ItemClass.maxSize item) item inventory plan.insertions after
  oneEmpty : ∀ move ∈ plan.insertions, ∀ move' ∈ plan.insertions,
    inventory[move.1]? = some none → inventory[move'.1]? = some none → move = move'
  complete : plan.nInserted < min toInsert (ItemClass.maxSize item) → ∀ stack ∈ after,
    ∃ s, stack = some s ∧ (s.item = item → ItemClass.maxSize item ≤ s.size)

omit [DecidableEq ι] in
/-- Nothing goes into a slot that was empty. -/
theorem Scan.Full.stacked {item : ι} {inventory : Stacks ι} {firstEmptySlot : Option ℕ}
    {scan : Scan ι} {moves : List (ℕ × ℤ)}
    (h : scan.Full item 0 inventory firstEmptySlot moves) :
    ∀ move ∈ moves, inventory[move.1]? ≠ some none := by
  intro move hmove
  obtain ⟨j, stack, hj, hslot⟩ := h.slots move hmove
  simp [hj, hslot]

omit [DecidableEq ι] in
theorem Scan.Full.distinct {item : ι} {slot : ℕ} {inventory : Stacks ι}
    {firstEmptySlot : Option ℕ} {scan : Scan ι} {moves : List (ℕ × ℤ)}
    (h : scan.Full item slot inventory firstEmptySlot moves) : (moves.map Prod.fst).Nodup :=
  h.increasing.imp fun hlt => hlt.ne

section
variable {inventory : Stacks ι} {item : ι} {toInsert : ℤ} {scan : Scan ι} {moves : List (ℕ × ℤ)}
  (hpos : 0 < min toInsert (ItemClass.maxSize item))
  (hok : scan.Ok item 0 inventory (min toInsert (ItemClass.maxSize item)) none .empty moves)
  (hfull : scan.Full item 0 inventory none moves)
include hpos hok hfull

/-- What the loop did is the plan where it left nothing, or where no slot is empty. -/
theorem Scan.Full.planned (hend : scan.firstEmptySlot = none ∨ scan.remaining ≤ 0) :
    Planned inventory item toInsert scan.result scan.inventory := by
  have hplan : scan.result = ⟨moved moves, moves⟩ := by simpa [InsertPlan.empty] using hok.plan
  have hrest := hok.rest
  have hleft := hok.left hpos.le
  rw [hplan]
  refine ⟨rfl, by simp only; omega, fills_of_placeAll (hok.placed [] rfl) hfull.distinct,
    fun move hmove _ _ h => absurd h (hfull.stacked move hmove), fun hlt stack hmem => ?_⟩
  have hmore : 0 < scan.remaining := by
    simp only at hlt
    omega
  obtain ⟨-, hnone⟩ := hfull.empty hmore (hend.resolve_right (not_le.mpr hmore))
  cases stack with
  | none => exact absurd hmem hnone
  | some s => exact ⟨s, rfl, hfull.full hmore s hmem⟩

/-- What remains goes into the empty slot that is remembered. -/
theorem Scan.Full.planned_insert {slot : ℕ} (hslot : scan.firstEmptySlot = some slot)
    (hmore : 0 < scan.remaining) :
    Planned inventory item toInsert (scan.result.insert slot scan.remaining)
      (scan.inventory.set slot (some ⟨item, scan.remaining⟩)) := by
  have hplan : scan.result = ⟨moved moves, moves⟩ := by simpa [InsertPlan.empty] using hok.plan
  have hplaced : placeAll item inventory moves = some scan.inventory := hok.placed [] rfl
  have hrest := hok.rest
  have hmoved := moved_nonneg hok.positive
  have hleft := hok.left hpos.le
  obtain ⟨-, j, rfl, hj⟩ := (hok.first slot hslot).resolve_left (by simp)
  rw [zero_add]
  have hempty : inventory[j]? = some none := by
    have hadded := added_of_placeAll hplaced j
    rw [hj] at hadded
    obtain ⟨stack, hstack, hnone⟩ := Option.map_eq_some_iff.mp hadded.symm
    rw [hstack, (addTo_eq_none.mp hnone).2]
  have hnot (move : ℕ × ℤ) (hmove : move ∈ moves) : move.1 ≠ j := by
    rintro rfl
    exact hfull.stacked move hmove hempty
  have hplace : placeAll item inventory (moves ++ [(j, scan.remaining)]) =
      some (scan.inventory.set j (some ⟨item, scan.remaining⟩)) := by
    rw [placeAll_append, hplaced, Option.bind_some, placeAll_cons (place_none hj hmore (by omega))]
    rfl
  rw [hplan, InsertPlan.insert]
  refine ⟨by simp [moved], by simp only; omega, fills_of_placeAll hplace ?_, ?_, ?_⟩
  · rw [List.map_append, List.map_singleton, List.nodup_append]
    exact ⟨hfull.distinct, List.nodup_singleton j,
      by simpa using fun a n hmem => hnot (a, n) hmem⟩
  · intro move hmove move' hmove' hnone hnone'
    simp only [List.mem_append, List.mem_singleton] at hmove hmove'
    rw [hmove.resolve_left fun h => hfull.stacked move h hnone,
      hmove'.resolve_left fun h => hfull.stacked move' h hnone']
  · intro hlt
    simp only at hlt
    omega

end

theorem insertIntoInventory_planned (inventory : Stacks ι) (item : ι) (toInsert : ℤ) :
    Planned inventory item toInsert (insertIntoInventory inventory item toInsert).2
      (insertIntoInventory inventory item toInsert).1 := by
  by_cases hle : min toInsert (ItemClass.maxSize item) ≤ 0
  · rw [insertIntoInventory_nonpos inventory item hle]
    exact ⟨rfl, by simp [InsertPlan.empty], fills_of_placeAll rfl (by simp [InsertPlan.empty]),
      by simp [InsertPlan.empty], fun hlt => absurd hle (not_le.mpr hlt)⟩
  have hpos := not_le.mp hle
  generalize hscan :
    insertLoop item 0 inventory (min toInsert (ItemClass.maxSize item)) none .empty = scan
  obtain ⟨moves, hok⟩ : ∃ moves, scan.Ok item 0 inventory _ none .empty moves :=
    hscan ▸ insertLoop_spec ..
  obtain ⟨moves', hfull, hresult⟩ : ∃ moves', scan.Full item 0 inventory none moves' ∧
      scan.result.insertions = InsertPlan.empty.insertions ++ moves' := hscan ▸ insertLoop_full ..
  obtain rfl : moves = moves' := by simpa [hok.plan, InsertPlan.empty] using hresult
  rcases insertIntoInventory_cases hscan with ⟨slot, hslot, hmore, heq⟩ | ⟨hend, heq⟩
  · rw [heq]
    exact hfull.planned_insert hpos hok hslot hmore
  · rw [heq]
    exact hfull.planned hpos hok hend

end Inventory
end OCRemote
