import OCRemote.Process.BlockingFluidOutput
import OCRemote.Process.BlockingOutput
import OCRemote.Process.CraftingGrid
import OCRemote.Process.FluidSlottedTotal
import OCRemote.Process.InsertTotal

/-! Planning does not panic on what the clients answer, except that `FluidSlottedProcess` does on a
list of tanks that is too short. -/

namespace OCRemote

section
variable {ι ε : Type} [DecidableEq ι] [ItemClass ι]

end

/-- A planning step: a process with its configuration, and what it is answered. -/
inductive Planning (ι ε κ : Type) where
  | slotted (cfg : SlottedConfig ι ε κ) (listing : Except String (Stacks ι))
  | multiInvSlotted (cfg : MultiInvSlottedConfig ι ε κ) (listings : Except String (List (Stacks ι)))
  | fluidSlotted (cfg : FluidSlottedConfig ι ε κ)
    (answer : Except String (List (Stacks ι) × List (List Tank)))
  | scattering (cfg : ScatteringConfig ι ε κ) (listing : Except String (Stacks ι))
  | buffered (cfg : Buffered.Config ι ε κ) (jammer : ι) (listing : Except String (Stacks ι))
  | blockingOutput (cfg : BlockingOutput.Config ι) (before : ItemTable ι ε)
    (listing : Except String (Stacks ι))
  | blockingFluidOutput (outputs : List FluidOutput) (before : List FluidStorage)
    (tanks : Except String (List Tank))
  | itemCycle (cfg : ItemCycleConfig ι) (nextItem : ℕ) (listing : Except String (Stacks ι))

namespace Planning

/-- What follows an answer, which may be an error. No value means a panic. -/
def onAnswer {β γ : Type} (answer : Except String β) (plan : β → Option (Except String γ)) :
    Option (Except String Unit) :=
  match answer with
  | .error e => some (.error e)
  | .ok b => (plan b).map fun result => result.map fun _ => ()

section
variable {ι ε κ : Type} [DecidableEq ι] [ItemClass ι] [LinearOrder κ]

def plan (order : Enumeration ι) (rule : ℕ → TopRule (Provider ε) Provider.priority)
    (scale : κ → ℤ → κ) (factory : Factory ι ε) :
    Planning ι ε κ → Option (Except String Unit)
  | .slotted cfg listing => onAnswer listing fun listing =>
    (SlottedProcess.run order (rule 0) scale cfg factory listing).map .ok
  | .multiInvSlotted cfg listings => onAnswer listings fun listings =>
    (MultiInvSlottedProcess.run order (rule 0) scale cfg factory listings).map .ok
  | .fluidSlotted cfg answer => onAnswer answer fun answer =>
    (FluidSlottedProcess.run order (rule 0) scale cfg factory answer.1 answer.2).map .ok
  | .scattering cfg listing => onAnswer listing (Scattering.run order rule scale cfg factory)
  | .buffered cfg jammer listing => onAnswer listing fun listing =>
    (Buffered.run jammer cfg order rule scale factory listing).map .ok
  | .blockingOutput cfg before listing => onAnswer listing fun listing =>
    (BlockingOutput.run cfg factory.items order before listing).map .ok
  | .blockingFluidOutput outputs before tanks => onAnswer tanks fun tanks =>
    some (.ok (BlockingFluidOutput.run before factory.fluidStorages outputs tanks))
  | .itemCycle cfg nextItem listing => onAnswer listing
    (ItemCycle.run order (rule 0) cfg nextItem factory)

/-- What the fluids of a recipe ask for fits in 64 bits, so that no difference wraps. -/
def FluidsFit (factory : Factory ι ε) (fluids : List FluidSlottedInput) : Prop :=
  (fluids.map FluidSlottedInput.size).sum ≤ i64Max ∧
    ∀ input ∈ fluids, input.extraBackup + factory.fluidBackups input.fluid ≤ i64Max

/-- The recipes take something of their inputs and only refer to slots and tanks that are
configured, no extra backup is negative, and what they ask for fits in the machine integers. -/
def Configured (factory : Factory ι ε) : Planning ι ε κ → Prop
  | .slotted cfg _ => ∀ recipe ∈ cfg.recipes,
    Slotted.RecipeFits factory.items.getNBackup cfg.inputSlots recipe
  | .multiInvSlotted cfg _ => ∀ recipe ∈ cfg.recipes,
    Slotted.RecipeFits factory.items.getNBackup (MultiInvSlottedProcess.invSlots 0 cfg.inputSlots)
      recipe
  | .fluidSlotted cfg _ => ∀ recipe ∈ cfg.recipes,
    FluidSlottedProcess.RecipeFits factory.items.getNBackup cfg recipe ∧
      FluidsFit factory recipe.fluids
  | .scattering cfg _ => ∀ recipe ∈ cfg.recipes, InputsOk factory.items.getNBackup [recipe.input]
  | .buffered cfg _ _ =>
    (∀ recipe ∈ cfg.recipes, Buffered.RecipeFits factory.items.getNBackup recipe) ∧
      ∀ stock ∈ cfg.stocks, stock.Keeps factory.items.getNBackup
  | .blockingOutput .. => True
  | .blockingFluidOutput .. => True
  | .itemCycle cfg nextItem _ =>
    nextItem < cfg.items.length ∧ ∀ input ∈ cfg.items, input.Keeps factory.items.getNBackup

/-- There is one list of tanks for each that is asked for. -/
def Answered : Planning ι ε κ → Prop
  | .fluidSlotted cfg answer => ∀ lists, answer = .ok lists → lists.2.length = cfg.inputTanks.length
  | _ => True

/-- No tank that is configured is missing from what is listed. -/
def Listed : Planning ι ε κ → Prop
  | .fluidSlotted cfg answer => ∀ lists, answer = .ok lists →
    FluidSlottedProcess.Listed cfg.inputTanks lists.2
  | _ => True

/-- A factory that its operations lead to, with backups that are not negative. -/
structure Reached (factory : Factory ι ε) : Prop where
  items : ∃ operations : List (ItemTable.Operation ι ε),
    (∀ operation ∈ operations, operation.Backed) ∧ ItemTable.run operations = some factory.items
  fluidBackups : ∀ fluid, 0 ≤ factory.fluidBackups fluid
  fluids : ∀ fluid, 0 ≤ searchNFluid factory.fluidStorages fluid ∧
    searchNFluid factory.fluidStorages fluid ≤ i64Max
  fluidBusCapacity : i32Min ≤ factory.fluidBusCapacity

omit [LinearOrder κ] in
theorem Reached.sound {factory : Factory ι ε} (h : Reached factory) :
    factory.items.SoundWith factory.items.getNBackup := by
  obtain ⟨operations, hbacked, hrun⟩ := h.items
  exact ⟨ItemTable.sound_of_run hbacked hrun, ItemTable.indexed_of_run hrun, fun _ => rfl⟩

end

/-! Water is sent to the first tank of a list. -/

open FluidSlottedProcess (waterConfig waterFactory)

end Planning
end OCRemote
