import OCRemote.Process.Job
import OCRemote.Process.Slotted

/-! `run_crafting_grid_process`, for the crafting robot and the workbench. -/

namespace OCRemote

structure CraftingGridInput (ι : Type) extends Input ι where
  slots : List ℕ

def CraftingGridInput.new {ι : Type} (item : Filter ι) (slots : List ℕ) : CraftingGridInput ι where
  item := item
  size := slots.length
  allowBackup := false
  extraBackup := 0
  slots := slots

structure NonConsumable where
  storageSlot : ℕ
  craftingGridSlot : ℕ
  deriving DecidableEq

structure CraftingGridRecipe (ι ε κ : Type) where
  outputs : Factory ι ε → Option κ
  inputs : List (CraftingGridInput ι)
  maxSets : ℤ
  nonConsumables : List NonConsumable

def CraftingGridRecipe.toRecipe {ι ε κ : Type} (recipe : CraftingGridRecipe ι ε κ) : Recipe ι ε κ :=
  ⟨recipe.outputs, recipe.inputs.map CraftingGridInput.toInput⟩

/-- The calls of a kind of crafting grid. -/
structure CraftingGrid where
  loadInput : (iInput invSlot : ℕ) → (size : ℤ) → List Action
  loadNonConsumable : NonConsumable → List Action
  storeOutput : (nSets : ℤ) → List Action
  storeNonConsumable : NonConsumable → List Action

namespace CraftingGrid

/-- `select` and `suckFromSlot`, `select` and `transferTo`, or `select`, `craft` and
`dropIntoSlot`. -/
def craftingRobot : CraftingGrid where
  loadInput iInput _ size := [.other, .unload iInput size]
  loadNonConsumable _ := [.other, .other]
  storeOutput _ := [.other, .other, .load none]
  storeNonConsumable _ := [.other, .other]

def workbench : CraftingGrid where
  loadInput iInput _ size := [.unload iInput size]
  loadNonConsumable _ := [.other]
  storeOutput nSets := List.replicate nSets.toNat (.load (some 64))
  storeNonConsumable _ := [.other]

def Known (grid : CraftingGrid) : Prop := grid = craftingRobot ∨ grid = workbench

section
variable {ι ε κ : Type}

/-- `load_input` for each input and each slot of it, the inputs being numbered from `iInput` on. -/
def loadInputs (grid : CraftingGrid) (nSets : ℤ) : ℕ → List (CraftingGridInput ι) → List Action
  | _, [] => []
  | iInput, input :: inputs =>
    (input.slots.flatMap fun invSlot => grid.loadInput iInput invSlot nSets) ++
      grid.loadInputs nSets (iInput + 1) inputs

/-- The job for so many sets. With no inputs there still is a slot for the output. -/
def job (grid : CraftingGrid) (recipe : CraftingGridRecipe ι ε κ) (nSets : ℤ)
    (reservations : List (Reservation ε)) : JobPlan where
  inputs :=
    if reservations.isEmpty then [(.item, [])]
    else reservations.map fun r => (.item, r.extractors.map Prod.snd)
  actions := grid.loadInputs nSets 0 recipe.inputs ++
    recipe.nonConsumables.flatMap grid.loadNonConsumable ++ grid.storeOutput nSets ++
    recipe.nonConsumables.flatMap grid.storeNonConsumable
  ending := .freeButFirst

variable [DecidableEq ι] [ItemClass ι] (grid : CraftingGrid) (order : Enumeration ι)
  (rule : ℕ → TopRule (Provider ε) Provider.priority) (recipes : List (CraftingGridRecipe ι ε κ))

/-- One turn of the loop over the demands. The inputs are resolved anew, as less is left. -/
def onDemand (s : Factory ι ε × List JobPlan) (iRecipe : ℕ) :
    Option (Factory ι ε × List JobPlan) :=
  match recipes[iRecipe]? with
  | none => none
  | some recipe =>
    if recipe.maxSets ≤ 0 then some s
    else
      match resolveInputs order s.1.items recipe.toRecipe.inputs with
      | none => none
      | some none => some s
      | some (some inputs) =>
        let nSets := min inputs.nSets recipe.maxSets
        match Slotted.reserveInputs (rule s.2.length) nSets s.1.items
          (inputs.items.zip (recipe.inputs.map fun input => input.size)) with
        | none => none
        | some (items, reservations) =>
          some ({ s.1 with items := items }, s.2 ++ [grid.job recipe nSets reservations])

variable [LinearOrder κ] (scale : κ → ℤ → κ)

def run (factory : Factory ι ε) : Option (Factory ι ε × List JobPlan) :=
  match computeDemands order scale factory (recipes.map CraftingGridRecipe.toRecipe) with
  | none => none
  | some demands =>
    (demands.map Demand.iRecipe).foldlM (onDemand grid order rule recipes) (factory, [])

end
end CraftingGrid

/-! `ItemCycleProcess` once the inventory is listed. -/

structure ItemCycleConfig (ι : Type) where
  name : String
  slot : ℕ
  items : List (Input ι)

namespace ItemCycle
variable {ι ε : Type} [DecidableEq ι]

/-- What is reserved for the slot, if it is to be filled. No value means that an index was out of
bounds or that an `unwrap` failed. -/
def run (order : Enumeration ι) (rule : TopRule (Provider ε) Provider.priority) [ItemClass ι]
    (cfg : ItemCycleConfig ι) (nextItem : ℕ) (factory : Factory ι ε) (listing : Stacks ι) :
    Option (Except String (Option (Factory ι ε × Reservation ε))) :=
  match listing[cfg.slot]? with
  | none => some (.error (cfg.name ++ ": invalid slot"))
  | some (some _) => some (.ok none)
  | some none =>
    match cfg.items[nextItem]? with
    | none => none
    | some input =>
      match factory.items.searchItem order input.item with
      | none => none
      | some none => some (.ok none)
      | some (some (item, info)) =>
        if info.getAvailability input.allowBackup input.extraBackup < 1 then some (.ok none)
        else (factory.items.reserveItem rule item 1).map fun r =>
          .ok (some ({ factory with items := r.1 }, r.2))

end ItemCycle
end OCRemote
