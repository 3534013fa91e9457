import Mathlib.Algebra.BigOperators.Group.Finset.Piecewise
import Mathlib.Algebra.Order.BigOperators.Group.Finset
import OCRemote.Factory.InventoryCover
import OCRemote.Process.BufferedRejected

/-! What one run of `BufferedProcess` inserts: it stays within the three budgets, and the plans can
be carried out on the inventory as it was listed. -/

namespace OCRemote
open Inventory hiding total
open Tally
namespace Buffered

section
variable {ι ε κ : Type}

/-- A slot where nothing may be inserted: it is being extracted, or the filter rejects it. -/
def Blocked (cfg : Config ι ε κ) (factory : Factory ι ε) (listing : Stacks ι) (slot : ℕ) : Prop :=
  isRejected cfg slot = true ∨
    ∃ stack, listing[slot]? = some stack ∧ isExtracted cfg factory slot stack = true

/-- The stacks in the slots that are not blocked. -/
def usable (cfg : Config ι ε κ) (factory : Factory ι ε) : ℕ → Stacks ι → List (ItemStack ι)
  | _, [] => []
  | slot, stack :: inventory =>
    (if isExtracted cfg factory slot stack || isRejected cfg slot then [] else stack.toList) ++
      usable cfg factory (slot + 1) inventory

def listed [DecidableEq ι] (cfg : Config ι ε κ) (factory : Factory ι ε) (listing : Stacks ι)
    (item : ι) : ℤ :=
  sumOf item ((usable cfg factory 0 listing).map fun stack => (stack.item, stack.size))

/-- The stacks among these that match no stock. -/
def unstocked [ItemClass ι] (cfg : Config ι ε κ) (present : List (ItemStack ι)) : ℤ :=
  ((present.filter fun stack => !cfg.stocks.any fun stock => stock.item.apply stack.item).map
    ItemStack.size).sum

def planMoves (item : ι) (plan : InsertPlan) : List (Move ι) :=
  plan.insertions.map fun move => (item, move)

namespace Task

def moves : Task ι ε → List (Move ι)
  | extractOutput _ _ => []
  | scatteringInsert _ item _ plan => planMoves item plan
  | executeRecipe _ _ items _ plans => (items.zip plans).flatMap fun p => planMoves p.1 p.2

def isRecipe : Task ι ε → Bool
  | executeRecipe .. => true
  | _ => false

end Task

def movesOf (tasks : List (Task ι ε)) : List (Move ι) := tasks.flatMap Task.moves

/-- How much of an item the tasks insert. -/
def planned [DecidableEq ι] (tasks : List (Task ι ε)) (item : ι) : ℤ :=
  sumOf item ((movesOf tasks).map fun move => (move.1, move.2.2))

/-- How much the executed recipes insert. -/
def inserted (tasks : List (Task ι ε)) : ℤ :=
  ((movesOf (tasks.filter Task.isRecipe)).map fun move => move.2.2).sum

variable [DecidableEq ι] [ItemClass ι]

/-- What is right about a task after the tasks before it. Of every input a recipe inserts the size
for as many sets as it makes. -/
def TaskOk (cfg : Config ι ε κ) (order : Enumeration ι) (existing : ι → ℤ)
    (before : List (Task ι ε)) : Task ι ε → Prop
  | .extractOutput _ _ => True
  | .scatteringInsert stock item reservation plan =>
    stock ∈ cfg.stocks ∧ existing item +
      planned (before ++ [.scatteringInsert stock item reservation plan]) item ≤ stock.size
  | .executeRecipe iRecipe nSets items reservations plans =>
    ∃ recipe, cfg.recipes[iRecipe]? = some recipe ∧ 1 ≤ nSets ∧
      (∃ (table : ItemTable ι ε) (inputs : ResolvedInputs ι),
        resolveInputs order table recipe.inputs = some (some inputs) ∧ inputs.items = items) ∧
      List.Forall₂ (fun input plan => moved plan.insertions = nSets * input.size)
        recipe.inputs plans ∧
      ∑ item ∈ items.toFinset, (existing item +
        planned (before ++ [.executeRecipe iRecipe nSets items reservations plans]) item) ≤
          recipe.maxInputs

/-- The buffer is regulated by a run with these tasks. -/
structure Regulated (cfg : Config ι ε κ) (order : Enumeration ι) (factory : Factory ι ε)
    (listing : Stacks ι) (tasks : List (Task ι ε)) : Prop where
  task : ∀ before task after, tasks = before ++ task :: after →
    TaskOk cfg order (listed cfg factory listing) before task
  budget : (∃ task ∈ tasks, task.isRecipe) →
    inserted tasks ≤ cfg.maxRecipeInputs - unstocked cfg (usable cfg factory 0 listing)
  free : ∀ move ∈ movesOf tasks, ¬ Blocked cfg factory listing move.2.1
  placed : ∃ inventory, placeEach listing (movesOf tasks) = some inventory

/-! The loop over the slots. -/

omit [DecidableEq ι] [ItemClass ι] in
theorem mem_usable {cfg : Config ι ε κ} {factory : Factory ι ε} {slot : ℕ} {inventory : Stacks ι}
    {stack : ItemStack ι} (h : stack ∈ usable cfg factory slot inventory) :
    some stack ∈ inventory := by
  induction inventory generalizing slot with
  | nil => simp [usable] at h
  | cons first inventory ih =>
    rcases List.mem_append.mp h with h | h
    · split_ifs at h
      · simp at h
      · obtain rfl := Option.mem_toList.mp h
        exact List.mem_cons_self ..
    · exact .tail _ (ih h)

omit [DecidableEq ι] [ItemClass ι] in
theorem movesOf_extracts {tasks : List (Task ι ε)}
    (h : ∀ task ∈ tasks, ∃ slot size, task = .extractOutput slot size) : movesOf tasks = [] := by
  rw [movesOf, List.flatMap_eq_nil_iff]
  intro task htask
  obtain ⟨slot, size, rfl⟩ := h task htask
  rfl

/-- The model of the inventory after the loop. -/
def masked (jammer : ι) (cfg : Config ι ε κ) (factory : Factory ι ε) : ℕ → Stacks ι → Stacks ι
  | _, [] => []
  | slot, stack :: inventory =>
    (if isExtracted cfg factory slot stack || isRejected cfg slot then some ⟨jammer, 1⟩
      else stack) ::
      masked jammer cfg factory (slot + 1) inventory

omit [DecidableEq ι] in
theorem unstocked_cons (cfg : Config ι ε κ) (stack : ItemStack ι) (present : List (ItemStack ι)) :
    unstocked cfg (stack :: present) =
      (if cfg.stocks.any fun stock => stock.item.apply stack.item then 0 else stack.size) +
        unstocked cfg present := by
  unfold unstocked
  rw [List.filter_cons]
  cases cfg.stocks.any fun stock => stock.item.apply stack.item <;> simp

theorem slotLoop_spec (jammer : ι) (cfg : Config ι ε κ) (s : State ι ε) (slot : ℕ)
    (inventory : Stacks ι) :
    ∃ extracts : List (Task ι ε),
      (∀ task ∈ extracts, ∃ slot size, task = .extractOutput slot size) ∧
      slotLoop jammer cfg s slot inventory =
        { factory := s.factory
          inventory := s.inventory ++ masked jammer cfg s.factory slot inventory
          remainingSize := s.remainingSize - unstocked cfg (usable cfg s.factory slot inventory)
          existingSize := fun item => s.existingSize item +
            sumOf item ((usable cfg s.factory slot inventory).map fun stack =>
              (stack.item, stack.size))
          tasks := s.tasks ++ extracts } := by
  induction inventory generalizing s slot with
  | nil => exact ⟨[], by simp, by simp [slotLoop, masked, usable, unstocked]⟩
  | cons stack inventory ih =>
    obtain ⟨extracts, hextracts, hloop⟩ := ih (onSlot jammer cfg s slot stack) (slot + 1)
    rw [slotLoop, hloop]
    by_cases hextracted : isExtracted cfg s.factory slot stack = true
    · refine ⟨(stack.toList.map fun stack => .extractOutput slot (ItemClass.maxSize stack.item)) ++
        extracts, ?_, ?_⟩
      · refine List.forall_mem_append.mpr ⟨fun task htask => ?_, hextracts⟩
        obtain ⟨stack, -, rfl⟩ := List.mem_map.mp htask
        exact ⟨_, _, rfl⟩
      · simp [onSlot, hextracted, masked, usable]
    · by_cases hrejected : isRejected cfg slot = true
      · exact ⟨extracts, hextracts, by simp [onSlot, hextracted, hrejected, masked, usable]⟩
      · refine ⟨extracts, hextracts, ?_⟩
        cases stack with
        | none => simp [onSlot, hextracted, hrejected, masked, usable]
        | some stack =>
          have hremaining : (onSlot jammer cfg s slot (some stack)).remainingSize =
              s.remainingSize -
                (if cfg.stocks.any fun stock => stock.item.apply stack.item then 0
                  else stack.size) := by
            rw [onSlot, if_neg hextracted, if_neg hrejected]
            cases cfg.stocks.any fun stock => stock.item.apply stack.item <;> simp
          have hexisting (item : ι) : (onSlot jammer cfg s slot (some stack)).existingSize item =
              s.existingSize item + if stack.item = item then stack.size else 0 := by
            rw [onSlot, if_neg hextracted, if_neg hrejected]
            simp only [Function.update_apply]
            by_cases hitem : item = stack.item
            · simp [hitem]
            · simp [hitem, Ne.symm hitem]
          simp only [hremaining, hexisting]
          simp [onSlot, hextracted, hrejected, masked, usable, unstocked_cons, sub_sub, add_assoc]

omit [DecidableEq ι] [ItemClass ι] in
/-- The model covers the listing at first. -/
theorem covers_masked (jammer : ι) (cfg : Config ι ε κ) (factory : Factory ι ε)
    (listing : Stacks ι) :
    Covers jammer (Blocked cfg factory listing) (masked jammer cfg factory 0 listing) listing := by
  have hget (slot k : ℕ) (inventory : Stacks ι) :
      (masked jammer cfg factory slot inventory)[k]? = inventory[k]?.map fun stack =>
        if isExtracted cfg factory (slot + k) stack || isRejected cfg (slot + k) then
          some ⟨jammer, 1⟩ else stack := by
    induction inventory generalizing slot k with
    | nil => simp [masked]
    | cons stack inventory ih =>
      cases k with
      | zero => simp [masked]
      | succ k =>
        rw [masked, List.getElem?_cons_succ, List.getElem?_cons_succ, ih, Nat.add_right_comm,
          add_assoc]
  have hlen (slot : ℕ) (inventory : Stacks ι) :
      (masked jammer cfg factory slot inventory).length = inventory.length := by
    induction inventory generalizing slot with
    | nil => rfl
    | cons stack inventory ih => rw [masked, List.length_cons, List.length_cons, ih]
  refine ⟨hlen 0 listing, fun k m r hm hr item hitem haccepts => ?_⟩
  rw [hget, hr, Option.map_some, zero_add] at hm
  split_ifs at hm with hblocked
  · obtain rfl := Option.some.inj hm
    exact absurd (haccepts _ rfl).symm hitem
  · obtain rfl := Option.some.inj hm
    refine ⟨haccepts, le_rfl, ?_⟩
    rw [Bool.or_eq_true, not_or] at hblocked
    rintro (hrejected | ⟨stack, hstack, hextracted⟩)
    · exact hblocked.2 hrejected
    · obtain rfl := Option.some.inj (hr.symm.trans hstack)
      exact hblocked.1 hextracted

/-! What every task of the run leaves true. -/

structure Inv (jammer : ι) (cfg : Config ι ε κ) (order : Enumeration ι) (factory : Factory ι ε)
    (listing : Stacks ι) (s : State ι ε) : Prop where
  existing : ∀ item, s.existingSize item = listed cfg factory listing item + planned s.tasks item
  nonneg : ∀ item, 0 ≤ s.existingSize item
  remaining : s.remainingSize =
    cfg.maxRecipeInputs - unstocked cfg (usable cfg factory 0 listing) - inserted s.tasks
  budget : (∃ task ∈ s.tasks, task.isRecipe) → 0 ≤ s.remainingSize
  task : ∀ before task after, s.tasks = before ++ task :: after →
    TaskOk cfg order (listed cfg factory listing) before task
  free : ∀ move ∈ movesOf s.tasks, ¬ Blocked cfg factory listing move.2.1
  covers : ∃ real, placeEach listing (movesOf s.tasks) = some real ∧
    Covers jammer (Blocked cfg factory listing) s.inventory real
  real : jammer ∉ s.factory.items.items

variable {jammer : ι} {cfg : Config ι ε κ} {order : Enumeration ι} {factory : Factory ι ε}
  {listing : Stacks ι} {s : State ι ε}

theorem Inv.regulated (h : Inv jammer cfg order factory listing s) :
    Regulated cfg order factory listing s.tasks where
  task := h.task
  budget hrecipe := by
    have hremaining := h.remaining
    have := h.budget hrecipe
    omega
  free := h.free
  placed := h.covers.imp fun _ => And.left

/-- After the loop over the slots. -/
theorem slotLoop_inv (order : Enumeration ι)
    (hsize : ∀ stack, some stack ∈ listing → 0 < stack.size)
    (hjammer : jammer ∉ factory.items.items) :
    Inv jammer cfg order factory listing (slotLoop jammer cfg (start cfg factory) 0 listing) := by
  obtain ⟨extracts, hextracts, hloop⟩ := slotLoop_spec jammer cfg (start cfg factory) 0 listing
  have hmoves := movesOf_extracts hextracts
  have hnone : ∀ task ∈ extracts, task.isRecipe = false := by
    intro task htask
    obtain ⟨slot, size, rfl⟩ := hextracts task htask
    rfl
  have hrecipes : extracts.filter Task.isRecipe = [] := by
    rw [List.filter_eq_nil_iff]
    exact fun task htask => by simp [hnone task htask]
  have husable (stack : ItemStack ι) (hstack : stack ∈ usable cfg factory 0 listing) :
      0 < stack.size := hsize stack (mem_usable hstack)
  rw [hloop]
  refine ⟨fun item => ?_, fun item => ?_, ?_, ?_, ?_, ?_, ?_, hjammer⟩
  · simp [start, listed, planned, hmoves]
  · simp only [start, zero_add]
    apply sumOf_nonneg
    intro d hd
    obtain ⟨stack, hstack, rfl⟩ := List.mem_map.mp hd
    exact (husable stack hstack).le
  · simp [start, inserted, hrecipes, movesOf]
  · rintro ⟨task, htask, hrecipe⟩
    rw [hnone task (by simpa [start] using htask)] at hrecipe
    contradiction
  · intro before task after hsplit
    obtain ⟨slot, size, rfl⟩ := hextracts task (by
      rw [show extracts = before ++ task :: after by simpa [start] using hsplit]
      simp)
    trivial
  · simp [start, hmoves]
  · exact ⟨listing, by simp [start, hmoves, placeEach], by
      simpa [start] using covers_masked jammer cfg factory listing⟩

omit [DecidableEq ι] [ItemClass ι] in
@[simp] theorem movesOf_append (tasks : List (Task ι ε)) (task : Task ι ε) :
    movesOf (tasks ++ [task]) = movesOf tasks ++ task.moves := by
  simp [movesOf]

omit [ItemClass ι] in
theorem planned_append (tasks : List (Task ι ε)) (task : Task ι ε) (item : ι) :
    planned (tasks ++ [task]) item =
      planned tasks item + sumOf item (task.moves.map fun move => (move.1, move.2.2)) := by
  simp [planned]

/-- One more task, with plans that were made in the model. -/
theorem Inv.add (h : Inv jammer cfg order factory listing s) {s' : State ι ε} {task : Task ι ε}
    (htasks : s'.tasks = s.tasks ++ [task])
    (hmoves : ∀ move ∈ task.moves, move.1 ≠ jammer ∧ 0 < move.2.2)
    (hplaced : placeEach s.inventory task.moves = some s'.inventory)
    (hexisting : ∀ item, s'.existingSize item =
      s.existingSize item + sumOf item (task.moves.map fun move => (move.1, move.2.2)))
    (hremaining : s'.remainingSize =
      s.remainingSize - if task.isRecipe then (task.moves.map fun move => move.2.2).sum else 0)
    (hbudget : task.isRecipe = true → 0 ≤ s'.remainingSize)
    (hok : TaskOk cfg order (listed cfg factory listing) s.tasks task)
    (hreal : jammer ∉ s'.factory.items.items) : Inv jammer cfg order factory listing s' := by
  obtain ⟨real, hreal', hcovers⟩ := h.covers
  obtain ⟨hfree, real', hboth, hcovers'⟩ :=
    hcovers.placeEach_both (fun move hmove => (hmoves move hmove).1) hplaced
  refine ⟨fun item => ?_, fun item => ?_, ?_, ?_, ?_, ?_, ⟨real', ?_, hcovers'⟩, hreal⟩
  · rw [hexisting, h.existing, htasks, planned_append, add_assoc]
  · rw [hexisting]
    refine add_nonneg (h.nonneg item) (sumOf_nonneg (fun d hd => ?_) item)
    obtain ⟨move, hmove, rfl⟩ := List.mem_map.mp hd
    exact (hmoves move hmove).2.le
  · rw [hremaining, h.remaining, htasks, inserted, inserted, List.filter_append]
    cases hrecipe : task.isRecipe <;> simp [hrecipe, sub_sub, add_assoc]
  · rintro ⟨old, hold, hrecipe⟩
    cases hnew : task.isRecipe with
    | true => exact hbudget hnew
    | false =>
      rw [htasks, List.mem_append, List.mem_singleton] at hold
      rcases hold with hold | rfl
      · simpa [hremaining, hnew] using h.budget ⟨old, hold, hrecipe⟩
      · simp [hrecipe] at hnew
  · intro before old after hsplit
    rw [htasks] at hsplit
    rcases List.eq_nil_or_concat after with rfl | ⟨after, last, rfl⟩
    · obtain ⟨rfl, heq⟩ := List.append_inj' hsplit rfl
      obtain rfl : task = old := by simpa using heq
      exact hok
    · rw [List.concat_eq_append, ← List.cons_append, ← List.append_assoc] at hsplit
      exact h.task before old after (List.append_inj' hsplit rfl).1
  · rw [htasks, movesOf_append]
    exact List.forall_mem_append.mpr ⟨h.free, hfree⟩
  · rw [htasks, movesOf_append, placeEach_append, hreal', Option.bind_some, hboth]

/-- An attempt that comes to nothing. -/
theorem Inv.grow (h : Inv jammer cfg order factory listing s) {moves : List (Move ι)}
    (hmoves : ∀ move ∈ moves, move.1 ≠ jammer) {inventory : Stacks ι}
    (hplaced : placeEach s.inventory moves = some inventory) :
    Inv jammer cfg order factory listing { s with inventory := inventory } :=
  { h with
    covers := h.covers.imp fun _ hreal => ⟨hreal.1, hreal.2.placeEach_model hmoves hplaced⟩ }

omit [ItemClass ι] in
theorem sumOf_planMoves (item item' : ι) (plan : InsertPlan) :
    sumOf item ((planMoves item' plan).map fun move => (move.1, move.2.2)) =
      if item' = item then moved plan.insertions else 0 := by
  unfold planMoves
  induction plan.insertions with
  | nil => simp
  | cons move moves ih =>
    rw [List.map_cons, List.map_cons, sumOf_cons, ih, moved_cons]
    split_ifs <;> simp

omit [ItemClass ι] in
/-- Items stay in the table when something of them is reserved. -/
theorem mem_reserveItem {rule : TopRule (Provider ε) Provider.priority} {t t' : ItemTable ι ε}
    {item : ι} {size : ℤ} {r : Reservation ε} (h : t.reserveItem rule item size = some (t', r))
    (i : ι) : i ∈ t'.items ↔ i ∈ t.items := by
  unfold ItemTable.reserveItem at h
  cases hinfo : t.items.lookup item with
  | none => simp [hinfo] at h
  | some info =>
    rw [hinfo] at h
    obtain ⟨p, -, hp⟩ := Option.map_eq_some_iff.mp h
    obtain ⟨rfl, -⟩ := Prod.mk.inj hp
    have hmem : item ∈ t.items := AList.lookup_isSome.mp (by rw [hinfo]; rfl)
    rw [ItemTable.setInfo, AList.mem_insert]
    exact or_iff_right_of_imp fun heq => heq ▸ hmem

theorem onStock_inv (h : Inv jammer cfg order factory listing s) {stock : Input ι}
    (hstock : stock ∈ cfg.stocks) {rule : ℕ → TopRule (Provider ε) Provider.priority}
    {s' : State ι ε} (hs : onStock order rule s stock = some s') :
    Inv jammer cfg order factory listing s' := by
  unfold onStock at hs
  obtain ⟨best, hbest, hlookup⟩ := s.factory.items.searchItem_spec order stock.item
  rw [hbest] at hs
  cases best with
  | none =>
    obtain rfl := Option.some.inj hs
    exact h
  | some found =>
    obtain ⟨item, info⟩ := found
    have hitem : item ≠ jammer := by
      rintro rfl
      exact h.real (AList.lookup_isSome.mp (by rw [hlookup _ _ rfl]; rfl))
    simp only at hs
    split at hs
    · obtain rfl := Option.some.inj hs
      exact h
    · rename_i hsome
      obtain ⟨after, plan, heq, hplaced, hn, hpos, hle⟩ := insertIntoInventory_spec s.inventory item
        (min (stock.size - s.existingSize item)
          (info.getAvailability stock.allowBackup stock.extraBackup))
      rw [placeAll_eq_placeEach] at hplaced
      have hmoves : ∀ move ∈ planMoves item plan, move.1 ≠ jammer ∧ 0 < move.2.2 := by
        intro move hmove
        obtain ⟨m, hm, rfl⟩ := List.mem_map.mp hmove
        exact ⟨hitem, hpos m hm⟩
      rw [heq] at hs
      simp only at hs
      split_ifs at hs with hn0
      · obtain rfl := Option.some.inj hs
        exact h.grow (fun move hmove => (hmoves move hmove).1) hplaced
      · split at hs
        · simp at hs
        · rename_i items reservation hreserve
          obtain rfl := Option.some.inj hs
          have hsum (i : ι) : sumOf i ((planMoves item plan).map fun move => (move.1, move.2.2)) =
              if item = i then plan.nInserted else 0 := by rw [sumOf_planMoves, hn]
          refine h.add rfl hmoves hplaced (fun i => ?_) (by simp [Task.isRecipe])
            (by simp [Task.isRecipe])
            ⟨hstock, ?_⟩ ((mem_reserveItem hreserve _).not.mpr h.real)
          · simp only [Task.moves, hsum, Function.update_apply]
            by_cases hi : i = item
            · simp [hi]
            · simp [hi, Ne.symm hi]
          · rw [planned_append, ← add_assoc, ← h.existing]
            simp only [Task.moves, hsum, if_true]
            have := hle (by omega)
            omega

/-! A recipe. -/

/-- A plan for all of an input, for `nSets` sets. -/
structure Whole (nSets : ℤ) (input : ι × ℤ) (plan : InsertPlan) : Prop where
  all : plan.nInserted = nSets * input.2
  moved : plan.nInserted = moved plan.insertions
  positive : ∀ move ∈ plan.insertions, 0 < move.2

def planAll (items : List ι) (plans : List InsertPlan) : List (Move ι) :=
  (items.zip plans).flatMap fun p => planMoves p.1 p.2

/-- What an attempt leaves comes from moves of its items, and if it succeeds from its plans. -/
theorem tryInputs_spec (nSets : ℤ) (inventory : Stacks ι) (inputs : List (ι × ℤ))
    (plans : List InsertPlan) :
    (∃ moves : List (Move ι),
      placeEach inventory moves = some (tryInputs nSets inventory inputs plans).1 ∧
      ∀ move ∈ moves, move.1 ∈ inputs.map Prod.fst) ∧
    ∀ plans', (tryInputs nSets inventory inputs plans).2 = some plans' →
      ∃ new, plans' = plans ++ new ∧ List.Forall₂ (Whole nSets) inputs new ∧
        placeEach inventory (planAll (inputs.map Prod.fst) new) =
          some (tryInputs nSets inventory inputs plans).1 := by
  fun_induction tryInputs nSets inventory inputs plans with
  | case1 inventory plans =>
    refine ⟨⟨[], rfl, by simp⟩, ?_⟩
    rintro plans' h
    obtain rfl := Option.some.inj h
    exact ⟨[], by simp, .nil, rfl⟩
  | case2 inventory item size inputs plans after plan heq hall ih =>
    obtain ⟨after', plan', heq', hplaced, hn, hpos, -⟩ :=
      insertIntoInventory_spec inventory item (nSets * size)
    obtain ⟨rfl, rfl⟩ := Prod.mk.inj (heq.symm.trans heq')
    rw [placeAll_eq_placeEach] at hplaced
    obtain ⟨⟨moves, hmoves, hitems⟩, hsome⟩ := ih
    constructor
    · refine ⟨planMoves item plan ++ moves, ?_, ?_⟩
      · rw [placeEach_append, planMoves, hplaced, Option.bind_some, hmoves]
      · refine List.forall_mem_append.mpr ⟨fun move hmove => ?_,
          fun move hmove => .tail _ (hitems move hmove)⟩
        obtain ⟨m, -, rfl⟩ := List.mem_map.mp hmove
        exact List.mem_cons_self ..
    · intro plans' h
      obtain ⟨new, rfl, hwhole, hnew⟩ := hsome plans' h
      refine ⟨plan :: new, by simp, .cons ⟨hall, hn, hpos⟩ hwhole, ?_⟩
      rw [← hnew, planAll, List.map_cons, List.zip_cons_cons, List.flatMap_cons, placeEach_append,
        planMoves, hplaced, Option.bind_some, planAll]
  | case3 inventory item size inputs plans after plan heq hpart =>
    obtain ⟨after', plan', heq', hplaced, -, -, -⟩ :=
      insertIntoInventory_spec inventory item (nSets * size)
    obtain ⟨rfl, rfl⟩ := Prod.mk.inj (heq.symm.trans heq')
    rw [placeAll_eq_placeEach] at hplaced
    refine ⟨⟨_, hplaced, fun move hmove => ?_⟩, by simp⟩
    obtain ⟨m, -, rfl⟩ := List.mem_map.mp hmove
    exact List.mem_cons_self ..

theorem retryLoop_some {backup : Stacks ι} {inputs : List (ι × ℤ)} {n : ℕ} {inventory : Stacks ι}
    {nSets : ℤ} {plans : List InsertPlan}
    (h : retryLoop backup inputs n backup = (inventory, some (nSets, plans))) :
    0 < nSets ∧ nSets ≤ n ∧ tryInputs nSets backup inputs [] = (inventory, some plans) := by
  induction n with
  | zero => simp [retryLoop] at h
  | succ n ih =>
    rw [retryLoop] at h
    split at h
    · rename_i after plans' heq
      simp only [Prod.mk.injEq, Option.some.injEq] at h
      obtain ⟨rfl, rfl, rfl⟩ := h
      exact ⟨by omega, le_rfl, heq⟩
    · split_ifs at h
      · simp at h
      · obtain ⟨hpos, hle, htry⟩ := ih h
        exact ⟨hpos, by omega, htry⟩

omit [ItemClass ι] in
theorem addPlanned_eq {existing : ι → ℤ} {items : List ι} {plans : List InsertPlan}
    (h : ∀ plan ∈ plans, plan.nInserted = moved plan.insertions) (item : ι) :
    addPlanned existing (items.zip plans) item =
      existing item + sumOf item ((planAll items plans).map fun move => (move.1, move.2.2)) := by
  induction items generalizing existing plans with
  | nil => simp [addPlanned, planAll]
  | cons first items ih =>
    cases plans with
    | nil => simp [addPlanned, planAll]
    | cons plan plans =>
      obtain ⟨hplan, h⟩ := List.forall_mem_cons.mp h
      have hsplit : planAll (first :: items) (plan :: plans) =
          planMoves first plan ++ planAll items plans :=
        rfl
      rw [List.zip_cons_cons, addPlanned, ih h, hsplit, List.map_append, sumOf_append,
        sumOf_planMoves,
        ← add_assoc, Function.update_apply, hplan]
      by_cases hitem : item = first
      · simp [hitem]
      · simp [hitem, Ne.symm hitem]

omit [DecidableEq ι] [ItemClass ι] in
theorem sum_planAll {nSets : ℤ} {inputs : List (ι × ℤ)} {plans : List InsertPlan}
    (h : List.Forall₂ (Whole nSets) inputs plans) :
    ((planAll (inputs.map Prod.fst) plans).map fun move => move.2.2).sum =
      nSets * (inputs.map Prod.snd).sum := by
  induction h with
  | nil => simp [planAll]
  | @cons input plan inputs plans hwhole _ ih =>
    have hplan : ((planMoves input.1 plan).map fun move => move.2.2).sum =
        moved plan.insertions := by
      simp [planMoves, moved, Function.comp_def]
    have hsplit : planAll ((input :: inputs).map Prod.fst) (plan :: plans) =
        planMoves input.1 plan ++ planAll (inputs.map Prod.fst) plans := rfl
    rw [hsplit, List.map_append, List.sum_append, ih, hplan, ← hwhole.moved, hwhole.all,
      List.map_cons, List.sum_cons, mul_add]

omit [ItemClass ι] in
/-- The shares of the items sum up to what there is. -/
theorem sum_sumOf {items : List ι} {ds : List (ι × ℤ)} (h : ∀ d ∈ ds, d.1 ∈ items) :
    ∑ item ∈ items.toFinset, sumOf item ds = (ds.map Prod.snd).sum := by
  have hmem : ∀ d ∈ ds, d.1 ∈ items.dedup := fun d hd => List.mem_dedup.mpr (h d hd)
  have hdedup : items.dedup.toFinset = items.toFinset := by
    ext item
    rw [List.mem_toFinset, List.mem_toFinset, List.mem_dedup]
  rw [← Tally.sum_sumOf items.nodup_dedup hmem, ← List.sum_toFinset _ items.nodup_dedup, hdedup]

omit [ItemClass ι] in
/-- An item that is counted once for each input is counted at least once. -/
theorem sum_toFinset_le {f : ι → ℤ} (hf : ∀ item, 0 ≤ f item) (items : List ι) :
    ∑ item ∈ items.toFinset, f item ≤ (items.map f).sum := by
  rw [Finset.sum_list_map_count]
  apply Finset.sum_le_sum
  intro item hitem
  have : 1 ≤ items.count item := List.count_pos_iff.mpr (List.mem_toFinset.mp hitem)
  rw [nsmul_eq_mul]
  exact le_mul_of_one_le_left (hf item) (by exact_mod_cast this)

omit [ItemClass ι] in
theorem mem_reserveInputs {rule : TopRule (Provider ε) Provider.priority} {t t' : ItemTable ι ε}
    {inputs : List (ι × InsertPlan)} {rs : List (Reservation ε)}
    (h : reserveInputs rule t inputs = some (t', rs)) (i : ι) : i ∈ t'.items ↔ i ∈ t.items := by
  induction inputs generalizing t rs with
  | nil =>
    obtain ⟨rfl, -⟩ : t = t' ∧ [] = rs := by simpa [reserveInputs] using h
    rfl
  | cons input inputs ih =>
    rw [reserveInputs] at h
    split at h
    · simp at h
    · rename_i items r hreserve
      obtain ⟨rest, hrest, heq⟩ := Option.map_eq_some_iff.mp h
      obtain ⟨rfl, -⟩ := Prod.mk.inj heq
      rw [ih hrest, mem_reserveItem hreserve]

def Outcome.state : Outcome ι ε → State ι ε
  | .skipped s => s
  | .executed s => s

omit [DecidableEq ι] [ItemClass ι] in
theorem mem_planAll {nSets : ℤ} {inputs : List (ι × ℤ)} {plans : List InsertPlan}
    (h : List.Forall₂ (Whole nSets) inputs plans) {move : Move ι}
    (hmove : move ∈ planAll (inputs.map Prod.fst) plans) :
    move.1 ∈ inputs.map Prod.fst ∧ 0 < move.2.2 := by
  obtain ⟨⟨item, plan⟩, hp, hmove⟩ := List.mem_flatMap.mp hmove
  obtain ⟨m, hm, rfl⟩ := List.mem_map.mp hmove
  obtain ⟨input, -, hplan⟩ := List.exists_of_forall₂ h (List.of_mem_zip hp).2
  exact ⟨(List.of_mem_zip hp).1, hplan.positive m hm⟩

section
variable {iRecipe : ℕ} {recipe : BufferedRecipe ι ε κ} {inputs : ResolvedInputs ι} {nSets : ℤ}
  {plans : List InsertPlan} (h : Inv jammer cfg order factory listing s)
  (hrecipe : cfg.recipes[iRecipe]? = some recipe)
  (hinputs : resolveInputs order s.factory.items recipe.inputs = some (some inputs))
  (hpos : 0 < nSets)
  (hwhole : List.Forall₂ (Whole nSets) (inputs.items.zip (recipe.inputs.map Input.size)) plans)
include hinputs

theorem map_fst_resolved :
    (inputs.items.zip (recipe.inputs.map Input.size)).map Prod.fst = inputs.items :=
  List.map_fst_zip (by simp [(resolveInputs_found hinputs).2.1])

theorem map_snd_resolved : (inputs.items.zip (recipe.inputs.map Input.size)).map Prod.snd =
    recipe.inputs.map Input.size :=
  List.map_snd_zip (by simp [(resolveInputs_found hinputs).2.1])

include h in
theorem Inv.resolved_ne (item : ι) (hitem : item ∈ inputs.items) : item ≠ jammer := by
  rintro rfl
  exact h.real ((resolveInputs_found hinputs).2.2.1 item hitem)

include h hrecipe hpos hwhole

/-- A recipe whose sets fit under its limit is executed rightly. -/
theorem Inv.recipe_ok {reservations : List (Reservation ε)}
    (hmax : nSets * (recipe.inputs.map Input.size).sum ≤
      recipe.maxInputs - (inputs.items.map s.existingSize).sum) :
    TaskOk cfg order (listed cfg factory listing) s.tasks
      (.executeRecipe iRecipe nSets inputs.items reservations plans) := by
  have hfst := map_fst_resolved hinputs
  have hsnd := map_snd_resolved hinputs
  refine ⟨recipe, hrecipe, hpos, ⟨_, inputs, hinputs, rfl⟩, ?_, ?_⟩
  · have hsets : List.Forall₂ (fun size plan => moved plan.insertions = nSets * size)
        (recipe.inputs.map Input.size) plans := by
      rw [← hsnd, List.forall₂_map_left_iff]
      exact hwhole.imp fun _ _ h => h.moved ▸ h.all
    rwa [List.forall₂_map_left_iff] at hsets
  · have hshare (item : ι) : listed cfg factory listing item +
        planned (s.tasks ++ [.executeRecipe iRecipe nSets inputs.items reservations plans]) item =
          s.existingSize item +
            sumOf item ((planAll inputs.items plans).map fun move => (move.1, move.2.2)) := by
      rw [planned_append, ← add_assoc, ← h.existing]
      rfl
    have hall : ∑ item ∈ inputs.items.toFinset,
        sumOf item ((planAll inputs.items plans).map fun move => (move.1, move.2.2)) =
          nSets * (recipe.inputs.map Input.size).sum := by
      have hsum := sum_planAll hwhole
      rw [hfst, hsnd] at hsum
      rw [sum_sumOf, List.map_map, ← hsum]
      · rfl
      · intro d hd
        obtain ⟨move, hmove, rfl⟩ := List.mem_map.mp hd
        rw [← hfst] at hmove ⊢
        exact (mem_planAll hwhole hmove).1
    have hold := sum_toFinset_le h.nonneg inputs.items
    simp only [hshare, Finset.sum_add_distrib]
    omega

theorem Inv.execute (hset : 0 < (recipe.inputs.map Input.size).sum)
    (hallowed : Allowed s recipe inputs nSets) {after : Stacks ι}
    (hplaced : placeEach s.inventory (planAll inputs.items plans) = some after)
    {rule : TopRule (Provider ε) Provider.priority} {items : ItemTable ι ε}
    {reservations : List (Reservation ε)}
    (hreserve : reserveInputs rule s.factory.items (inputs.items.zip plans) =
      some (items, reservations)) :
    Inv jammer cfg order factory listing { s with
      factory := { s.factory with items := items }
      inventory := after
      existingSize := addPlanned s.existingSize (inputs.items.zip plans)
      remainingSize := s.remainingSize - nSets * (recipe.inputs.map Input.size).sum
      tasks := s.tasks ++ [.executeRecipe iRecipe nSets inputs.items reservations plans] } := by
  obtain ⟨-, hremaining, hmax⟩ := hallowed
  rw [le_tdiv_iff hpos hset] at hremaining hmax
  have hfst := map_fst_resolved hinputs
  have hsum := sum_planAll hwhole
  rw [hfst, map_snd_resolved hinputs] at hsum
  have hmoves : ∀ move ∈ planAll inputs.items plans, move.1 ∈ inputs.items ∧ 0 < move.2.2 := by
    rw [← hfst]
    exact fun move hmove => mem_planAll hwhole hmove
  have hexisting (item : ι) : addPlanned s.existingSize (inputs.items.zip plans) item =
      s.existingSize item +
        sumOf item ((planAll inputs.items plans).map fun move => (move.1, move.2.2)) := by
    refine addPlanned_eq (fun plan hplan => ?_) item
    obtain ⟨_, -, hplan⟩ := List.exists_of_forall₂ hwhole hplan
    exact hplan.moved
  refine h.add rfl (fun move hmove => ?_) hplaced hexisting ?_ (fun _ => ?_)
    (h.recipe_ok hrecipe hinputs hpos hwhole hmax) ((mem_reserveInputs hreserve _).not.mpr h.real)
  · exact ⟨h.resolved_ne hinputs _ (hmoves move hmove).1, (hmoves move hmove).2⟩
  · rw [← hsum]
    rfl
  · exact sub_nonneg.mpr hremaining

end

theorem onDemand_inv (h : Inv jammer cfg order factory listing s)
    (hrecipes : ∀ recipe ∈ cfg.recipes,
      recipe.inputs ≠ [] ∧ ∀ input ∈ recipe.inputs, 0 < input.size)
    {rule : ℕ → TopRule (Provider ε) Provider.priority} {iRecipe : ℕ} {outcome : Outcome ι ε}
    (hs : onDemand cfg order rule s iRecipe = some outcome) :
    Inv jammer cfg order factory listing outcome.state := by
  unfold onDemand at hs
  split at hs
  · simp at hs
  rename_i recipe hrecipe
  obtain ⟨hne, hsizes⟩ := hrecipes recipe (List.mem_of_getElem? hrecipe)
  split at hs
  · simp at hs
  · obtain rfl := Option.some.inj hs
    exact h
  rename_i inputs hinputs
  have hfst := map_fst_resolved hinputs
  simp only at hs
  split_ifs at hs with hdiv hlimit
  · obtain rfl := Option.some.inj hs
    exact h
  have htoNat : ((limitedSets s recipe inputs).toNat : ℤ) = limitedSets s recipe inputs := by omega
  split at hs
  · -- not even one set fits, and what the last attempt placed stays in the model
    rename_i after hretry
    obtain rfl := Option.some.inj hs
    obtain ⟨hlast, -⟩ := retryLoop_none (by omega) (congrArg Prod.snd hretry)
    obtain ⟨⟨moves, hmoves, hmem⟩, -⟩ := tryInputs_spec 1 s.inventory
      (inputs.items.zip (recipe.inputs.map Input.size)) []
    rw [← hlast, hretry] at hmoves
    rw [hfst] at hmem
    exact h.grow (fun move hmove => h.resolved_ne hinputs _ (hmem move hmove)) hmoves
  · rename_i after nSets plans hretry
    obtain ⟨hpos, hle, htry⟩ := retryLoop_some hretry
    obtain ⟨-, hsome⟩ := tryInputs_spec nSets s.inventory
      (inputs.items.zip (recipe.inputs.map Input.size)) []
    obtain ⟨new, hnew, hwhole, hplaced⟩ := hsome plans (by rw [htry])
    obtain rfl : plans = new := hnew
    rw [hfst, htry] at hplaced
    split at hs
    · simp at hs
    rename_i items reservations hreserve
    obtain rfl := Option.some.inj hs
    have hset : 0 < (recipe.inputs.map Input.size).sum := by
      refine List.sum_pos _ (fun size hsize => ?_) (by simpa using hne)
      obtain ⟨input, hinput, rfl⟩ := List.mem_map.mp hsize
      exact hsizes input hinput
    have hallowed := (le_limitedSets_iff hpos).mp (hle.trans_eq htoNat)
    exact h.execute hrecipe hinputs hpos hwhole hset hallowed hplaced hreserve

theorem recipeLoop_inv
    (hrecipes : ∀ recipe ∈ cfg.recipes,
      recipe.inputs ≠ [] ∧ ∀ input ∈ recipe.inputs, 0 < input.size)
    {rule : ℕ → TopRule (Provider ε) Provider.priority} {demands : List ℕ}
    (h : Inv jammer cfg order factory listing s) {s' : State ι ε}
    (hs : recipeLoop cfg order rule s demands = some s') :
    Inv jammer cfg order factory listing s' := by
  induction demands generalizing s with
  | nil =>
    obtain rfl := Option.some.inj hs
    exact h
  | cons iRecipe demands ih =>
    rw [recipeLoop] at hs
    split at hs
    · simp at hs
    · rename_i next hnext
      exact ih (onDemand_inv h hrecipes hnext) hs
    · rename_i next hnext
      have hinv := onDemand_inv h hrecipes hnext
      split_ifs at hs
      · obtain rfl := Option.some.inj hs
        exact hinv
      · exact ih hinv hs

theorem stockLoop_inv {rule : ℕ → TopRule (Provider ε) Provider.priority} {stocks : List (Input ι)}
    (hstocks : ∀ stock ∈ stocks, stock ∈ cfg.stocks) (h : Inv jammer cfg order factory listing s)
    {s' : State ι ε} (hs : stocks.foldlM (onStock order rule) s = some s') :
    Inv jammer cfg order factory listing s' :=
  List.foldlM_inv (fun stock hstock _ _ h hnext => onStock_inv h (hstocks stock hstock) hnext) h hs

/-- A run regulates the buffer, whatever is listed. -/
theorem run_regulated [LinearOrder κ] (jammer : ι) (cfg : Config ι ε κ) (order : Enumeration ι)
    (rule : ℕ → TopRule (Provider ε) Provider.priority) (scale : κ → ℤ → κ) (factory : Factory ι ε)
    (listing : Stacks ι)
    (hrecipes : ∀ recipe ∈ cfg.recipes,
      recipe.inputs ≠ [] ∧ ∀ input ∈ recipe.inputs, 0 < input.size)
    (hsize : ∀ stack, some stack ∈ listing → 0 < stack.size)
    (hjammer : jammer ∉ factory.items.items) {s : State ι ε}
    (hs : run jammer cfg order rule scale factory listing = some s) :
    Regulated cfg order factory listing s.tasks := by
  unfold run at hs
  split at hs
  · simp at hs
  · rename_i refilled hrefilled
    have hinv := stockLoop_inv (fun _ => id) (slotLoop_inv order hsize hjammer) hrefilled
    split_ifs at hs
    · split at hs
      · simp at hs
      · exact (recipeLoop_inv hrecipes hinv hs).regulated
    · obtain rfl := Option.some.inj hs
      exact hinv.regulated

end

/-- The last slot is rejected, one iron is missing in the first, and the gold goes into the second. -/
def ironBuffer : Config (Item ℤ) ℕ ℤ where
  slotFilter := some (· ≠ 2)
  toExtract := none
  recipes := [goldRecipe]
  maxRecipeInputs := 3
  stocks := [⟨.Label "Iron", 4, false, 0⟩]

theorem run_regulated_ironBuffer : ∃ s, run (Item.jammer ℤ) ironBuffer ⟨id, List.Perm.refl⟩
    (fun _ => MaxHeap.firstTop _) (· * ·) fiveEach [some ⟨iron, 3⟩, none, none] = some s ∧
    movesOf s.tasks = [(iron, 0, 1), (gold, 1, 3)] ∧
    Regulated ironBuffer ⟨id, List.Perm.refl⟩ fiveEach [some ⟨iron, 3⟩, none, none] s.tasks := by
  have hmoves : (run (Item.jammer ℤ) ironBuffer ⟨id, List.Perm.refl⟩ (fun _ => MaxHeap.firstTop _)
      (· * ·) fiveEach [some ⟨iron, 3⟩, none, none]).map (fun s => movesOf s.tasks) =
        some [(iron, 0, 1), (gold, 1, 3)] := by decide +kernel
  obtain ⟨s, hrun, hmoves⟩ := Option.map_eq_some_iff.mp hmoves
  exact ⟨s, hrun, hmoves,
    run_regulated _ ironBuffer _ _ _ fiveEach _ (by decide) (by simp) (by decide +kernel) hrun⟩

end Buffered
end OCRemote
