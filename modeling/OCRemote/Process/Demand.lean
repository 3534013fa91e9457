import Mathlib.Data.List.Sort
import OCRemote.Factory.FluidStorage
import OCRemote.Factory.Recipe

/-! Which recipes are wanted and possible, the most wanted first (`recipe.rs`). Priorities are a
linear order with a product by the number of sets: those that cannot be compared are a panic. -/

namespace OCRemote

/-- What the processes read of a factory. -/
structure Factory (ι ε : Type) where
  items : ItemTable ι ε
  fluidStorages : List FluidStorage
  fluidBackups : String → ℤ
  fluidBusCapacity : ℤ

/-- A factory for examples, with five of iron and of gold. -/
def fiveEach : Factory (Item ℤ) ℕ where
  items := (ItemTable.empty.provide iron ⟨0, 5, 0⟩).provide gold ⟨0, 5, 1⟩
  fluidStorages := []
  fluidBackups _ := 0
  fluidBusCapacity := 0

structure Recipe (ι ε κ : Type) where
  outputs : Factory ι ε → Option κ
  inputs : List (Input ι)

structure Demand (ι κ : Type) where
  iRecipe : ℕ
  inputs : ResolvedInputs ι
  priority : κ

section
variable {ι ε κ : Type} [DecidableEq ι] [ItemClass ι]

/-- The loop over the recipes from `iRecipe` on. No value means that a search panicked. -/
def demandsFrom (order : Enumeration ι) (scale : κ → ℤ → κ) (factory : Factory ι ε) :
    ℕ → List (Recipe ι ε κ) → Option (List (Demand ι κ))
  | _, [] => some []
  | iRecipe, recipe :: recipes =>
    match recipe.outputs factory with
    | none => demandsFrom order scale factory (iRecipe + 1) recipes
    | some priority =>
      match resolveInputs order factory.items recipe.inputs with
      | none => none
      | some none => demandsFrom order scale factory (iRecipe + 1) recipes
      | some (some inputs) =>
        (demandsFrom order scale factory (iRecipe + 1) recipes).map fun result =>
          ⟨iRecipe, inputs, scale priority inputs.priority⟩ :: result

variable [LinearOrder κ]

/-- A stable sort, the greatest priority first. -/
def sortDemands (demands : List (Demand ι κ)) : List (Demand ι κ) :=
  demands.insertionSort fun x y => y.priority ≤ x.priority

def computeDemands (order : Enumeration ι) (scale : κ → ℤ → κ) (factory : Factory ι ε)
    (recipes : List (Recipe ι ε κ)) : Option (List (Demand ι κ)) :=
  (demandsFrom order scale factory 0 recipes).map sortDemands

variable {order : Enumeration ι} {scale : κ → ℤ → κ} {factory : Factory ι ε}

omit [LinearOrder κ] in
theorem mem_demandsFrom {i : ℕ} {recipes : List (Recipe ι ε κ)} {demands : List (Demand ι κ)}
    (h : demandsFrom order scale factory i recipes = some demands) {d : Demand ι κ}
    (hd : d ∈ demands) : ∃ j recipe, d.iRecipe = i + j ∧ recipes[j]? = some recipe ∧
      resolveInputs order factory.items recipe.inputs = some (some d.inputs) := by
  induction recipes generalizing i demands with
  | nil =>
    obtain rfl : [] = demands := by simpa [demandsFrom] using h
    simp at hd
  | cons recipe recipes ih =>
    have hlater {demands : List (Demand ι κ)}
        (h : demandsFrom order scale factory (i + 1) recipes = some demands) (hd : d ∈ demands) :
        ∃ j r, d.iRecipe = i + j ∧ (recipe :: recipes)[j]? = some r ∧
          resolveInputs order factory.items r.inputs = some (some d.inputs) := by
      obtain ⟨j, r, hi, hj, hr⟩ := ih h hd
      exact ⟨j + 1, r, by omega, by simpa using hj, hr⟩
    rw [demandsFrom] at h
    split at h
    · exact hlater h hd
    · split at h
      · simp at h
      · exact hlater h hd
      · rename_i inputs hinputs
        obtain ⟨result, hresult, rfl⟩ := Option.map_eq_some_iff.mp h
        rcases List.mem_cons.mp hd with rfl | hd
        · exact ⟨0, recipe, rfl, rfl, hinputs⟩
        · exact hlater hresult hd

/-- A demand is for a recipe of the list, with what its inputs resolve to. -/
theorem mem_computeDemands {recipes : List (Recipe ι ε κ)} {demands : List (Demand ι κ)}
    (h : computeDemands order scale factory recipes = some demands) {d : Demand ι κ}
    (hd : d ∈ demands) : ∃ recipe, recipes[d.iRecipe]? = some recipe ∧
      resolveInputs order factory.items recipe.inputs = some (some d.inputs) := by
  obtain ⟨unsorted, hunsorted, rfl⟩ := Option.map_eq_some_iff.mp h
  obtain ⟨j, recipe, hi, hj, hr⟩ :=
    mem_demandsFrom hunsorted ((List.perm_insertionSort _ unsorted).mem_iff.mp hd)
  exact ⟨recipe, by rw [hi, zero_add, hj], hr⟩

end
end OCRemote
