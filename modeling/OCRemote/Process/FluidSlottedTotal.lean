import OCRemote.Process.SlottedTotal

/-! `FluidSlottedProcess` reads each of its tanks from the list of the tanks, which may be shorter.
It plans exactly if none of them is missing. -/

namespace OCRemote
open Tally Slotted

/-! Reservations of fluids, one after the other. -/

namespace FluidSlottedProcess

section
variable {ι ε κ : Type}

variable [DecidableEq ι] [ItemClass ι]

/-- A recipe takes something of each fluid, and sends it to tanks that are configured. -/
structure RecipeFits (backups : ι → ℤ) (cfg : FluidSlottedConfig ι ε κ)
    (recipe : FluidSlottedRecipe ι ε κ) : Prop where
  items : Slotted.RecipeFits backups (MultiInvSlottedProcess.invSlots 0 cfg.inputSlots)
    recipe.toSlotRecipe
  fluids : ∀ input ∈ recipe.fluids, 0 < input.size ∧ 0 ≤ input.extraBackup
  tanks : ∀ input ∈ recipe.fluids, ∀ tank ∈ input.tanks, 0 < tank.2 ∧ tank.1 < cfg.inputTanks.length

/-- No tank of the configuration is missing from its list. -/
def Listed (inputTanks : List (List ℕ)) (tanks : List (List Tank)) : Prop :=
  List.Forall₂ (fun slots ts => ∀ slot ∈ slots, slot < ts.length) inputTanks tanks

instance (inputTanks : List (List ℕ)) (tanks : List (List Tank)) :
    Decidable (Listed inputTanks tanks) :=
  inferInstanceAs (Decidable (List.Forall₂ _ _ _))

end
end FluidSlottedProcess
end OCRemote
