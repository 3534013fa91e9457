import Mathlib.Data.Finset.Basic
import OCRemote.Process.Slotted

/-! `FluidSlottedProcess` once the inventories and the tanks are listed. It does to its slots what
`MultiInvSlottedProcess` does, and computes its demands by itself. -/

namespace OCRemote
open Slotted MultiInvSlottedProcess

def i64Max : ℤ := 2 ^ 63 - 1

/-- An input of a recipe, with the tanks that a set of it goes to and how much of it each gets. -/
structure FluidSlottedInput where
  fluid : String
  size : ℤ
  tanks : List (ℕ × ℤ)
  allowBackup : Bool
  extraBackup : ℤ
  size_eq : size = (tanks.map Prod.snd).sum

structure FluidSlottedRecipe (ι ε κ : Type) extends SlotRecipe (ℕ × ℕ) ι ε κ where
  fluids : List FluidSlottedInput

structure FluidSlottedConfig (ι ε κ : Type) where
  inputSlots : List (List ℕ)
  inputTanks : List (List ℕ)
  toExtract : Option (Factory ι ε → ℕ → ℕ → ItemStack ι → Bool)
  /-- The slots that it returns are enumerated in some order. -/
  fluidExtract : Option (Factory ι ε → ℕ → List Tank → List (ℕ × ℤ))
  recipes : List (FluidSlottedRecipe ι ε κ)
  strictPriority : Bool

namespace FluidSlottedProcess

/-- What is executed, with the reservations for its fluids, and for each fluid the tanks that it
goes to with what each of them gets. -/
structure Execution (ι ε : Type) extends Slotted.Execution (ℕ × ℕ) ι ε where
  fluidReservations : List (List (ℕ × ℤ))
  fluidTransfers : List (ℕ × ℕ × ℤ)

structure Run (ι ε : Type) where
  factory : Factory ι ε
  extracted : List ((ℕ × ℕ) × ℤ)
  extractedFluids : List (ℕ × ℕ × ℤ)
  executed : Option (Execution ι ε)

section
variable {ι ε κ : Type}

/-- Backup params are considered for only the first input of the same fluid. -/
def needFluid (factory : Factory ι ε) (infos : AList fun _ : String => InputInfo)
    (input : FluidSlottedInput) : AList fun _ : String => InputInfo :=
  match infos.lookup input.fluid with
  | some i => infos.insert input.fluid { i with nNeeded := i.nNeeded + input.size }
  | none => infos.insert input.fluid
      ⟨getFluidAvailability factory.fluidStorages (factory.fluidBackups input.fluid) input.fluid
        input.allowBackup input.extraBackup, input.size⟩

/-- The loop over the fluids. No value means a division by zero. -/
def fluidLoop (factory : Factory ι ε) : List FluidSlottedInput →
    (AList fun _ : String => InputInfo) → ℤ → Option ((AList fun _ : String => InputInfo) × ℤ)
  | [], infos, busBound => some (infos, busBound)
  | input :: inputs, infos, busBound =>
    if input.size = 0 then none
    else fluidLoop factory inputs (needFluid factory infos input)
      (min busBound (factory.fluidBusCapacity.tdiv input.size))

def fluidAvailabilityBound (infos : AList fun _ : String => InputInfo) : Option ℤ :=
  infos.entries.foldlM (fun bound e =>
    if e.2.nNeeded = 0 then none else some (min bound (e.2.nAvailable.tdiv e.2.nNeeded))) i64Max

/-- `bus_bound` and `availability_bound` of the fluids of a recipe. -/
def fluidBounds (factory : Factory ι ε) (fluids : List FluidSlottedInput) : Option (ℤ × ℤ) :=
  match fluidLoop factory fluids ∅ i64Max with
  | none => none
  | some (infos, busBound) => (fluidAvailabilityBound infos).map fun bound => (busBound, bound)

variable [DecidableEq ι] [ItemClass ι]

/-- The loop over the recipes from `iRecipe` on. -/
def fluidDemandsFrom (order : Enumeration ι) (scale : κ → ℤ → κ) (factory : Factory ι ε) :
    ℕ → List (FluidSlottedRecipe ι ε κ) → Option (List (Demand ι κ))
  | _, [] => some []
  | iRecipe, recipe :: recipes =>
    match recipe.outputs factory with
    | none => fluidDemandsFrom order scale factory (iRecipe + 1) recipes
    | some priority =>
      match resolveInputs order factory.items recipe.toRecipe.inputs with
      | none => none
      | some none => fluidDemandsFrom order scale factory (iRecipe + 1) recipes
      | some (some inputs) =>
        match fluidBounds factory recipe.fluids with
        | none => none
        | some (busBound, availabilityBound) =>
          let nSets := toI32 (min (min inputs.nSets busBound) availabilityBound)
          if 0 < nSets then
            let least := toI32 (min inputs.priority availabilityBound)
            (fluidDemandsFrom order scale factory (iRecipe + 1) recipes).map fun result =>
              ⟨iRecipe, ⟨nSets, least, inputs.items⟩, scale priority least⟩ :: result
          else fluidDemandsFrom order scale factory (iRecipe + 1) recipes

/-- The fluids in the tanks of these slots, with how much there is of each. No value means that a
tank is missing. -/
def fluidMap (tanks : List Tank) :
    List ℕ → (AList fun _ : String => ℤ) → Option (AList fun _ : String => ℤ)
  | [], fluids => some fluids
  | slot :: slots, fluids =>
    match tanks[slot]? with
    | none => none
    | some tank =>
      match tank.fluid with
      | none => fluidMap tanks slots fluids
      | some fluid =>
        fluidMap tanks slots (fluids.insert fluid ((fluids.lookup fluid).getD 0 + tank.qty))

/-- `existing_fluids`, for the tanks from some index on. -/
def existingFluids :
    List (List ℕ) → List (List Tank) → Option (List (AList fun _ : String => ℤ))
  | _, [] => some []
  | [], _ :: _ => none
  | slots :: inputTanks, tanks :: rest =>
    match fluidMap tanks slots ∅ with
    | none => none
    | some fluids => (existingFluids inputTanks rest).map fun existing => fluids :: existing

/-- What `extract_fluids` is called for, from `i` on. -/
def extractFluids (fluidExtract : Option (ℕ → List Tank → List (ℕ × ℤ))) :
    ℕ → List (List Tank) → List (ℕ × ℕ × ℤ)
  | _, [] => []
  | i, tanks :: rest =>
    (fluidExtract.elim [] fun fluidExtract => (fluidExtract i tanks).map (Prod.mk i)) ++
      extractFluids fluidExtract (i + 1) rest

/-- Every fluid that is anywhere in the tanks from `i` on. -/
def presentFluids : ℕ → List (AList fun _ : String => ℤ) → Finset (ℕ × String)
  | _, [] => ∅
  | i, fluids :: rest => (fluids.keys.map (Prod.mk i)).toFinset ∪ presentFluids (i + 1) rest

/-- For each fluid and each tank of it: the fluid, the tank and how much of it a set takes. -/
def fluidTargets (fluids : List FluidSlottedInput) : List (String × ℕ × ℤ) :=
  fluids.flatMap fun input => input.tanks.map fun tank => (input.fluid, tank)

/-- The loop over the fluids and their tanks. -/
def narrowFluids (existing : List (AList fun _ : String => ℤ)) (maxSets : ℤ) :
    List (String × ℕ × ℤ) → ℤ → Finset (ℕ × String) → Option (Option (ℤ × Finset (ℕ × String)))
  | [], nSets, mismatched => some (some (nSets, mismatched))
  | (fluid, i, mult) :: rest, nSets, mismatched =>
    match existing[i]? with
    | none => none
    | some fluids =>
      if mult = 0 then none
      else
        let existingSize := (fluids.lookup fluid).getD 0
        let nSets := min nSets
          (toI32 (max 0 (min ((maxSets * mult - existingSize).tdiv mult) i32Max)))
        if nSets ≤ 0 then some none
        else narrowFluids existing maxSets rest nSets (mismatched.erase (i, fluid))

/-- The number of sets, if the recipe may be made. -/
def narrow (existing : AList fun _ : ℕ × ℕ => Option (ItemStack ι))
    (fluids : List (AList fun _ : String => ℤ)) (recipe : FluidSlottedRecipe ι ε κ)
    (inputs : ResolvedInputs ι) : Option (Option ℤ) :=
  match Slotted.narrow existing recipe.toSlotRecipe inputs with
  | none => none
  | some none => some none
  | some (some nSets) =>
    match narrowFluids fluids recipe.maxSets (fluidTargets recipe.fluids) nSets
      (presentFluids 0 fluids) with
    | none => none
    | some none => some none
    | some (some (nSets, mismatched)) =>
      if mismatched = ∅ then some (some nSets) else some none

/-- One turn of the loop over the demands. -/
def judge (existing : AList fun _ : ℕ × ℕ => Option (ItemStack ι))
    (fluids : List (AList fun _ : String => ℤ)) (recipes : List (FluidSlottedRecipe ι ε κ))
    (demand : Demand ι κ) : Option (Option ℤ) :=
  match recipes[demand.iRecipe]? with
  | none => none
  | some recipe => narrow existing fluids recipe demand.inputs

/-- The reservations of fluids in `execute_recipe`. -/
def reserveFluids (nSets : ℤ) : List FluidStorage → List FluidSlottedInput →
    Option (List FluidStorage × List (List (ℕ × ℤ)))
  | storages, [] => some (storages, [])
  | storages, input :: inputs =>
    match reserveFluid storages input.fluid (input.size * nSets) with
    | none => none
    | some (storages, reservation) =>
      (reserveFluids nSets storages inputs).map fun r => (r.1, reservation :: r.2)

/-- The fluids that `execute_recipe` transfers, input by input. -/
def fluidTransfers (nSets : ℤ) : ℕ → List FluidSlottedInput → List (ℕ × ℕ × ℤ)
  | _, [] => []
  | iInput, input :: inputs =>
    (input.tanks.map fun tank => (iInput, tank.1, nSets * tank.2)) ++
      fluidTransfers nSets (iInput + 1) inputs

def executeRecipe (rule : TopRule (Provider ε) Provider.priority) (factory : Factory ι ε)
    (recipe : FluidSlottedRecipe ι ε κ) (demand : Demand ι κ) (nSets : ℤ) :
    Option (Factory ι ε × Execution ι ε) :=
  match Slotted.executeRecipe rule factory recipe.toSlotRecipe demand nSets with
  | none => none
  | some (factory, execution) =>
    (reserveFluids nSets factory.fluidStorages recipe.fluids).map fun r =>
      ({ factory with fluidStorages := r.1 },
        ⟨execution, r.2, fluidTransfers nSets 0 recipe.fluids⟩)

variable [LinearOrder κ] (order : Enumeration ι)
  (rule : TopRule (Provider ε) Provider.priority) (scale : κ → ℤ → κ)

def computeFluidDemands (factory : Factory ι ε) (recipes : List (FluidSlottedRecipe ι ε κ)) :
    Option (List (Demand ι κ)) :=
  (fluidDemandsFrom order scale factory 0 recipes).map sortDemands

variable (cfg : FluidSlottedConfig ι ε κ)

/-- `run` lists nothing. -/
def isIdle (factory : Factory ι ε) : Option Bool :=
  if cfg.toExtract.isNone && cfg.fluidExtract.isNone then
    (computeFluidDemands order scale factory cfg.recipes).map List.isEmpty
  else some false

/-- The part of `run` after the listing. -/
def run (factory : Factory ι ε) (listings : List (Stacks ι)) (tanks : List (List Tank)) :
    Option (Run ι ε) :=
  let found := found cfg.inputSlots (cfg.toExtract.map fun toExtract => toExtract factory) listings
  match existingFluids cfg.inputTanks tanks with
  | none => none
  | some fluids =>
    let extractedFluids :=
      extractFluids (cfg.fluidExtract.map fun fluidExtract => fluidExtract factory) 0 tanks
    match computeFluidDemands order scale factory cfg.recipes with
    | none => none
    | some demands =>
      match recipeLoop (judge found.existing fluids cfg.recipes)
        (considered cfg.strictPriority demands) with
      | none => none
      | some none => some ⟨factory, found.extracted, extractedFluids, none⟩
      | some (some (demand, nSets)) =>
        match cfg.recipes[demand.iRecipe]? with
        | none => none
        | some recipe =>
          (executeRecipe rule factory recipe demand nSets).map fun r =>
            ⟨r.1, found.extracted, extractedFluids, some r.2⟩

end
end FluidSlottedProcess
end OCRemote
