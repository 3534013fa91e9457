import OCRemote.Factory.Inventory
import OCRemote.Process.Demand

/-! `BufferedProcess` once the inventory is listed: the slots are looked through, the stocks are
refilled, and then recipes are executed as long as their inputs fit into the buffer. -/

namespace OCRemote
open Inventory

/-- The item that is put where nothing may be inserted. -/
def Item.jammer (ν : Type) : Item ν := ⟨"", "", 0, 0, 1, false, []⟩

namespace Buffered

structure BufferedRecipe (ι ε κ : Type) extends Recipe ι ε κ where
  maxInputs : ℤ

structure Config (ι ε κ : Type) where
  slotFilter : Option (ℕ → Bool)
  toExtract : Option (Factory ι ε → ℕ → ItemStack ι → Bool)
  recipes : List (BufferedRecipe ι ε κ)
  maxRecipeInputs : ℤ
  stocks : List (Input ι)

/-- What the process starts, with what each of it is given. A recipe also has its number and the
number of sets. -/
inductive Task (ι ε : Type) where
  | extractOutput (slot : ℕ) (size : ℤ)
  | scatteringInsert (stock : Input ι) (item : ι) (reservation : Reservation ε) (plan : InsertPlan)
  | executeRecipe (iRecipe : ℕ) (nSets : ℤ) (items : List ι) (reservations : List (Reservation ε))
    (plans : List InsertPlan)

structure State (ι ε : Type) where
  factory : Factory ι ε
  inventory : Stacks ι
  remainingSize : ℤ
  existingSize : ι → ℤ
  tasks : List (Task ι ε)

section
variable {ι ε κ : Type}

def isExtracted (cfg : Config ι ε κ) (factory : Factory ι ε) (slot : ℕ) :
    Option (ItemStack ι) → Bool
  | none => false
  | some stack =>
    match cfg.toExtract with
    | none => false
    | some toExtract => toExtract factory slot stack

def isRejected (cfg : Config ι ε κ) (slot : ℕ) : Bool :=
  match cfg.slotFilter with
  | none => false
  | some slotFilter => !slotFilter slot

variable [DecidableEq ι] [ItemClass ι] (jammer : ι) (cfg : Config ι ε κ)

/-- One turn of the loop over the slots, which collects the slots up to this one in `inventory`. -/
def onSlot (s : State ι ε) (slot : ℕ) (stack : Option (ItemStack ι)) : State ι ε :=
  if isExtracted cfg s.factory slot stack then
    { s with
      inventory := s.inventory ++ [some ⟨jammer, 1⟩]
      tasks := s.tasks ++ stack.toList.map fun stack =>
        .extractOutput slot (ItemClass.maxSize stack.item) }
  else if isRejected cfg slot then { s with inventory := s.inventory ++ [some ⟨jammer, 1⟩] }
  else
    match stack with
    | none => { s with inventory := s.inventory ++ [none] }
    | some stack =>
      { s with
        inventory := s.inventory ++ [some stack]
        existingSize := Function.update s.existingSize stack.item
          (s.existingSize stack.item + stack.size)
        remainingSize :=
          if cfg.stocks.any fun stock => stock.item.apply stack.item then s.remainingSize
          else s.remainingSize - stack.size }

def slotLoop (s : State ι ε) : ℕ → Stacks ι → State ι ε
  | _, [] => s
  | slot, stack :: inventory => slotLoop (onSlot jammer cfg s slot stack) (slot + 1) inventory

/-- Before the loop over the slots. -/
def start (factory : Factory ι ε) : State ι ε := ⟨factory, [], cfg.maxRecipeInputs, fun _ => 0, []⟩

variable (order : Enumeration ι) (rule : ℕ → TopRule (Provider ε) Provider.priority)

/-- One turn of the loop over the stocks. No value means that an `unwrap` failed. -/
def onStock (s : State ι ε) (stock : Input ι) : Option (State ι ε) :=
  match s.factory.items.searchItem order stock.item with
  | none => none
  | some none => some s
  | some (some (item, info)) =>
    let toInsert := min (stock.size - s.existingSize item)
      (info.getAvailability stock.allowBackup stock.extraBackup)
    if toInsert ≤ 0 then some s
    else
      match insertIntoInventory s.inventory item toInsert with
      | (inventory, plan) =>
        if plan.nInserted ≤ 0 then some { s with inventory := inventory }
        else
          match s.factory.items.reserveItem (rule s.tasks.length) item plan.nInserted with
          | none => none
          | some (items, reservation) =>
            some { s with
              factory := { s.factory with items := items }
              inventory := inventory
              existingSize := Function.update s.existingSize item
                (s.existingSize item + plan.nInserted)
              tasks := s.tasks ++ [.scatteringInsert stock item reservation plan] }

/-- The plans for `nSets` sets, each made in what the ones before it leave, up to the first that
does not insert all of its input. -/
def tryInputs (nSets : ℤ) : Stacks ι → List (ι × ℤ) → List InsertPlan →
    Stacks ι × Option (List InsertPlan)
  | inventory, [], plans => (inventory, some plans)
  | inventory, (item, size) :: inputs, plans =>
    match insertIntoInventory inventory item (nSets * size) with
    | (inventory, plan) =>
      if plan.nInserted = nSets * size then tryInputs nSets inventory inputs (plans ++ [plan])
      else (inventory, none)

/-- `'retry`. When not even one set fits, the inventory is the one that the last attempt left. -/
def retryLoop (backup : Stacks ι) (inputs : List (ι × ℤ)) :
    ℕ → Stacks ι → Stacks ι × Option (ℤ × List InsertPlan)
  | 0, inventory => (inventory, none)
  | nSets + 1, inventory =>
    match tryInputs (nSets + 1 : ℕ) inventory inputs [] with
    | (inventory, some plans) => (inventory, some ((nSets + 1 : ℕ), plans))
    | (inventory, none) =>
      if nSets = 0 then (inventory, none) else retryLoop backup inputs nSets backup

/-- The reservations at the start of `execute_recipe`. -/
def reserveInputs (rule : TopRule (Provider ε) Provider.priority) :
    ItemTable ι ε → List (ι × InsertPlan) → Option (ItemTable ι ε × List (Reservation ε))
  | items, [] => some (items, [])
  | items, (item, plan) :: inputs =>
    match items.reserveItem rule item plan.nInserted with
    | none => none
    | some (items, reservation) =>
      (reserveInputs rule items inputs).map fun r => (r.1, reservation :: r.2)

/-- `existing_size` with the plans of a recipe added. -/
def addPlanned (existingSize : ι → ℤ) : List (ι × InsertPlan) → ι → ℤ
  | [] => existingSize
  | (item, plan) :: inputs =>
    addPlanned (Function.update existingSize item (existingSize item + plan.nInserted)) inputs

/-- How a turn of the loop over the demands ends. -/
inductive Outcome (ι ε : Type) where
  | skipped (s : State ι ε)
  | executed (s : State ι ε)

/-- The size limits: no more sets than these two bounds allow, nor more than were resolved. -/
def limitedSets (s : State ι ε) (recipe : BufferedRecipe ι ε κ) (inputs : ResolvedInputs ι) : ℤ :=
  let sizePerSet := (recipe.inputs.map Input.size).sum
  let nSets := min inputs.nSets (s.remainingSize.tdiv sizePerSet)
  if nSets ≤ 0 then nSets
  else min nSets ((recipe.maxInputs - (inputs.items.map s.existingSize).sum).tdiv sizePerSet)

/-- One turn of the loop over the demands. No value means that an `unwrap` failed, or that a size
was divided by zero. -/
def onDemand (s : State ι ε) (iRecipe : ℕ) : Option (Outcome ι ε) :=
  match cfg.recipes[iRecipe]? with
  | none => none
  | some recipe =>
    match resolveInputs order s.factory.items recipe.inputs with
    | none => none
    | some none => some (.skipped s)
    | some (some inputs) =>
      let sizePerSet := (recipe.inputs.map Input.size).sum
      if sizePerSet = 0 then none
      else if limitedSets s recipe inputs ≤ 0 then some (.skipped s)
      else
        match retryLoop s.inventory (inputs.items.zip (recipe.inputs.map Input.size))
          (limitedSets s recipe inputs).toNat s.inventory with
        | (inventory, none) => some (.skipped { s with inventory := inventory })
        | (inventory, some (nSets, plans)) =>
          match reserveInputs (rule s.tasks.length) s.factory.items (inputs.items.zip plans) with
          | none => none
          | some (items, reservations) =>
            some (.executed { s with
              factory := { s.factory with items := items }
              inventory := inventory
              existingSize := addPlanned s.existingSize (inputs.items.zip plans)
              remainingSize := s.remainingSize - nSets * sizePerSet
              tasks := s.tasks ++
                [.executeRecipe iRecipe nSets inputs.items reservations plans] })

/-- `'recipe`, which ends when nothing more may be inserted. -/
def recipeLoop : State ι ε → List ℕ → Option (State ι ε)
  | s, [] => some s
  | s, iRecipe :: demands =>
    match onDemand cfg order rule s iRecipe with
    | none => none
    | some (.skipped s) => recipeLoop s demands
    | some (.executed s) => if s.remainingSize ≤ 0 then some s else recipeLoop s demands

variable [LinearOrder κ]

/-- The part of `run` after the listing. -/
def run (scale : κ → ℤ → κ) (factory : Factory ι ε) (inventory : Stacks ι) : Option (State ι ε) :=
  match cfg.stocks.foldlM (onStock order rule)
    (slotLoop jammer cfg (start cfg factory) 0 inventory) with
  | none => none
  | some s =>
    if 0 < s.remainingSize then
      match computeDemands order scale s.factory (cfg.recipes.map BufferedRecipe.toRecipe) with
      | none => none
      | some demands => recipeLoop cfg order rule s (demands.map Demand.iRecipe)
    else some s

end
end Buffered
end OCRemote
