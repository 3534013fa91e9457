import OCRemote.Process.BufferedBudget
import OCRemote.Process.BufferedRejected
import OCRemote.Process.Scattering
import OCRemote.Process.SlottedTotal

/-! `ScatteringProcess` and `BufferedProcess` plan for any listing. -/

namespace OCRemote
open Tally Inventory

/-! The process that scatters. -/

namespace Scattering
section
variable {ι : Type} [DecidableEq ι] [ItemClass ι]

end

section
variable {ι ε κ : Type} [DecidableEq ι] [ItemClass ι] {cfg : ScatteringConfig ι ε κ}

end
end Scattering

/-! The process that keeps a buffer. -/

namespace Buffered
variable {ι ε κ : Type} [DecidableEq ι] [ItemClass ι] {cfg : Config ι ε κ}

/-- A recipe as it has to be configured. -/
def RecipeFits (backups : ι → ℤ) (recipe : BufferedRecipe ι ε κ) : Prop :=
  recipe.inputs ≠ [] ∧ InputsOk backups recipe.inputs

end Buffered
end OCRemote
