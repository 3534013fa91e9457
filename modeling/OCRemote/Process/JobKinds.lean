import OCRemote.Process.BufferedBudget
import OCRemote.Process.CraftingGrid
import OCRemote.Process.FluidSlottedPlan
import OCRemote.Process.JobProgress
import OCRemote.Process.Scattering

/-! The jobs that the processes start. -/

namespace OCRemote

section
variable {ι ε κ : Type}

def Reservation.sizes (reservation : Reservation ε) : List ℤ := reservation.extractors.map Prod.snd

/-- `extract_output`. -/
def extractOutput (size : ℤ) : JobPlan := ⟨[(.item, [])], [.load (some size)], .deposit⟩

/-- What `extract_fluids` and `BlockingFluidOutputProcess` start for a fluid. -/
def extractFluid (qty : ℤ) : JobPlan := ⟨[(.fluid, [])], [.load (some qty)], .deposit⟩

/-- `scattering_insert`. -/
def scatteringInsert (reservation : Reservation ε) (insertions : List (ℕ × ℤ)) : JobPlan where
  inputs := [(.item, reservation.sizes)]
  actions := insertions.map fun insertion => .unload 0 insertion.2
  ending := .free

/-- `execute_recipe` of `SlottedProcess` and of `MultiInvSlottedProcess`. -/
def Slotted.Execution.job {α : Type} (execution : Slotted.Execution α ι ε) : JobPlan where
  inputs := execution.reservations.map fun reservation => (.item, reservation.sizes)
  actions := execution.transfers.map fun transfer => .unload transfer.1 transfer.2.2
  ending := .free

/-- `execute_recipe` of `FluidSlottedProcess`. The buses for the fluids come after the slots. -/
def FluidSlottedProcess.Execution.job (execution : FluidSlottedProcess.Execution ι ε) : JobPlan where
  inputs := execution.toExecution.job.inputs ++
    execution.fluidReservations.map fun reservation => (.fluid, reservation.map Prod.snd)
  actions := execution.toExecution.job.actions ++ execution.fluidTransfers.map fun transfer =>
    .unload (execution.reservations.length + transfer.1) transfer.2.2
  ending := .free

/-- `execute_recipe` of `BufferedProcess`. -/
def Buffered.executeRecipe (reservations : List (Reservation ε)) (plans : List InsertPlan) :
    JobPlan where
  inputs := reservations.map fun reservation => (.item, reservation.sizes)
  actions := plans.zipIdx.flatMap fun p => p.1.insertions.map fun insertion =>
    .unload p.2 insertion.2
  ending := .free

/-- What `ItemCycleProcess` does with the one item that it reserves. -/
def ItemCycle.job (reservation : Reservation ε) : JobPlan :=
  ⟨[(.item, reservation.sizes)], [.unload 0 1], .free⟩

/-- The inputs are as their public constructor makes them. -/
def SlotRecipe.Built {α : Type} (recipe : SlotRecipe α ι ε κ) : Prop :=
  ∀ input ∈ recipe.inputs, input.size = (input.slots.map Prod.snd).sum

variable [DecidableEq ι] [ItemClass ι] [LinearOrder κ] (ι ε κ)

/-- The jobs that are started, by the processes that start them. A recipe does not take less than
nothing of a fluid. -/
inductive IsJob : JobPlan → Prop where
  | extractOutput (size : ℤ) : IsJob (extractOutput size)
  | extractFluid (qty : ℤ) : IsJob (extractFluid qty)
  /-- `insert_into_inventory` made the plan, for a stock of a buffer or for a manual request. -/
  | inserted {inventory : Stacks ι} {item : ι} {toInsert : ℤ}
      (hpos : 0 < (Inventory.insertIntoInventory inventory item toInsert).2.nInserted)
      {rule : TopRule (Provider ε) Provider.priority} {t : ItemTable ι ε}
      {r : ItemTable ι ε × Reservation ε}
      (h : t.reserveItem rule item
        (Inventory.insertIntoInventory inventory item toInsert).2.nInserted = some r) :
      IsJob (scatteringInsert r.2
        (Inventory.insertIntoInventory inventory item toInsert).2.insertions)
  | scattered {order : Enumeration ι} {rule : ℕ → TopRule (Provider ε) Provider.priority}
      {scale : κ → ℤ → κ} {cfg : ScatteringConfig ι ε κ} {factory : Factory ι ε}
      {listing : Stacks ι} {s : Scattering.State ι ε}
      (h : Scattering.run order rule scale cfg factory listing = some (.ok s)) {item : ι}
      {reservation : Reservation ε} {insertions : List (ℕ × ℤ)}
      (htask : .scatteringInsert item reservation insertions ∈ s.tasks) :
      IsJob (scatteringInsert reservation insertions)
  | slotted {order : Enumeration ι} {rule : TopRule (Provider ε) Provider.priority}
      {scale : κ → ℤ → κ} {cfg : SlottedConfig ι ε κ} {factory : Factory ι ε} {listing : Stacks ι}
      {run : Slotted.Run ℕ ι ε} (hbuilt : ∀ recipe ∈ cfg.recipes, recipe.Built)
      (h : SlottedProcess.run order rule scale cfg factory listing = some run)
      {execution : Slotted.Execution ℕ ι ε} (hexecuted : run.executed = some execution) :
      IsJob execution.job
  | multiInvSlotted {order : Enumeration ι} {rule : TopRule (Provider ε) Provider.priority}
      {scale : κ → ℤ → κ} {cfg : MultiInvSlottedConfig ι ε κ} {factory : Factory ι ε}
      {listings : List (Stacks ι)} {run : Slotted.Run (ℕ × ℕ) ι ε}
      (hbuilt : ∀ recipe ∈ cfg.recipes, recipe.Built)
      (h : MultiInvSlottedProcess.run order rule scale cfg factory listings = some run)
      {execution : Slotted.Execution (ℕ × ℕ) ι ε} (hexecuted : run.executed = some execution) :
      IsJob execution.job
  | fluidSlotted {order : Enumeration ι} {rule : TopRule (Provider ε) Provider.priority}
      {scale : κ → ℤ → κ} {cfg : FluidSlottedConfig ι ε κ} {factory : Factory ι ε}
      {listings : List (Stacks ι)} {tanks : List (List Tank)} {run : FluidSlottedProcess.Run ι ε}
      (hbuilt : ∀ recipe ∈ cfg.recipes,
        recipe.toSlotRecipe.Built ∧ ∀ input ∈ recipe.fluids, 0 ≤ input.size)
      (h : FluidSlottedProcess.run order rule scale cfg factory listings tanks = some run)
      {execution : FluidSlottedProcess.Execution ι ε} (hexecuted : run.executed = some execution) :
      IsJob execution.job
  | buffered {jammer : ι} {cfg : Buffered.Config ι ε κ} {order : Enumeration ι}
      {rule : ℕ → TopRule (Provider ε) Provider.priority} {scale : κ → ℤ → κ}
      {factory : Factory ι ε} {inventory : Stacks ι} {s : Buffered.State ι ε}
      (h : Buffered.run jammer cfg order rule scale factory inventory = some s) {iRecipe : ℕ}
      {nSets : ℤ} {items : List ι} {reservations : List (Reservation ε)} {plans : List InsertPlan}
      (htask : .executeRecipe iRecipe nSets items reservations plans ∈ s.tasks) :
      IsJob (Buffered.executeRecipe reservations plans)
  | craftingGrid {grid : CraftingGrid} (hgrid : grid.Known) {order : Enumeration ι}
      {rule : ℕ → TopRule (Provider ε) Provider.priority} {scale : κ → ℤ → κ}
      {recipes : List (CraftingGridRecipe ι ε κ)}
      (hbuilt : ∀ recipe ∈ recipes, ∀ input ∈ recipe.inputs, input.size = input.slots.length)
      {factory : Factory ι ε} {r : Factory ι ε × List JobPlan}
      (h : CraftingGrid.run grid order rule recipes scale factory = some r) {job : JobPlan}
      (hjob : job ∈ r.2) : IsJob job
  | itemCycle {order : Enumeration ι} {rule : TopRule (Provider ε) Provider.priority}
      {cfg : ItemCycleConfig ι} {nextItem : ℕ} {factory : Factory ι ε} {listing : Stacks ι}
      {r : Factory ι ε × Reservation ε}
      (h : ItemCycle.run order rule cfg nextItem factory listing = some (.ok (some r))) :
      IsJob (ItemCycle.job r.2)

end
end OCRemote
