import OCRemote.Factory.ReserveEach
import OCRemote.Process.FluidSlottedPlan

/-! `SlottedProcess` and `MultiInvSlottedProcess` plan for any listing. -/

namespace OCRemote
open Tally

section
variable {ι ε κ : Type} [DecidableEq ι] [ItemClass ι]

end

namespace Slotted
variable {α ι ε κ : Type} [DecidableEq α] [DecidableEq ι] [ItemClass ι]

/-- A recipe takes something of each input, and goes to input slots only. -/
structure RecipeFits (backups : ι → ℤ) (inputSlots : List α) (recipe : SlotRecipe α ι ε κ) :
    Prop where
  inputs : InputsOk backups (recipe.inputs.map SlotInput.toInput)
  slots : ∀ input ∈ recipe.inputs, ∀ slot ∈ input.slots, 0 < slot.2 ∧ slot.1 ∈ inputSlots

end Slotted

open Slotted

section
variable {ι ε κ : Type} [DecidableEq ι] [ItemClass ι] [LinearOrder κ]
  (order : Enumeration ι) (rule : TopRule (Provider ε) Provider.priority) (scale : κ → ℤ → κ)
  {backups : ι → ℤ} {factory : Factory ι ε}

end
end OCRemote
