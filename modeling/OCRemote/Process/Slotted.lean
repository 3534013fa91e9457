import Mathlib.Data.Finset.Insert
import Mathlib.Data.List.AList
import OCRemote.Factory.Inventory
import OCRemote.Process.Demand

/-! `SlottedProcess` and `MultiInvSlottedProcess` once the inventories are listed: what is not in an
input slot is extracted, and the first recipe that may be made is. The two are one algorithm over
the names of the slots: numbers here, pairs of an inventory and a slot of it there. -/

namespace OCRemote

/-- An input of a recipe, with the slots that a set of it goes to and how much of it each gets. -/
structure SlotInput (α ι : Type) extends Input ι where
  slots : List (α × ℤ)

def SlotInput.new {α ι : Type} (item : Filter ι) (slots : List (α × ℤ)) : SlotInput α ι where
  item := item
  size := (slots.map Prod.snd).sum
  allowBackup := false
  extraBackup := 0
  slots := slots

structure SlotRecipe (α ι ε κ : Type) where
  outputs : Factory ι ε → Option κ
  inputs : List (SlotInput α ι)
  maxSets : ℤ

def SlotRecipe.toRecipe {α ι ε κ : Type} (recipe : SlotRecipe α ι ε κ) : Recipe ι ε κ :=
  ⟨recipe.outputs, recipe.inputs.map SlotInput.toInput⟩

namespace Slotted

/-- `existing_inputs`, and the slots that are extracted. -/
structure Found (α ι : Type) where
  existing : AList fun _ : α => Option (ItemStack ι)
  extracted : List (α × ℤ)

/-- What is executed: the reservations for its inputs, and for each input the slots that it goes to
with what each of them gets. -/
structure Execution (α ι ε : Type) where
  iRecipe : ℕ
  nSets : ℤ
  items : List ι
  reservations : List (Reservation ε)
  transfers : List (ℕ × α × ℤ)

structure Run (α ι ε : Type) where
  factory : Factory ι ε
  extracted : List (α × ℤ)
  executed : Option (Execution α ι ε)

section
variable {α ι ε κ : Type} [DecidableEq α] [DecidableEq ι] [ItemClass ι]

def noInputs (inputSlots : List α) : AList fun _ : α => Option (ItemStack ι) :=
  inputSlots.foldl (fun existing slot => existing.insert slot none) ∅

/-- One slot of a listing. -/
def onStack (toExtract : Option (α → ItemStack ι → Bool)) (found : Found α ι) (slot : α) :
    Option (ItemStack ι) → Found α ι
  | none => found
  | some stack =>
    if slot ∈ found.existing then
      { found with existing := found.existing.insert slot (some stack) }
    else
      match toExtract with
      | none => found
      | some toExtract =>
        if toExtract slot stack then
          { found with extracted := found.extracted ++ [(slot, ItemClass.maxSize stack.item)] }
        else found

/-- The loop over the slots of an inventory, whose names are given by `name`. -/
def listLoop (toExtract : Option (α → ItemStack ι → Bool)) (name : ℕ → α) :
    ℕ → Stacks ι → Found α ι → Found α ι
  | _, [], found => found
  | slot, stack :: listing, found =>
    listLoop toExtract name (slot + 1) listing (onStack toExtract found (name slot) stack)

/-- For each input and each slot of it: the item, the slot and how much of the item a set takes. -/
def targets (inputs : List (SlotInput α ι)) (items : List ι) : List (ι × α × ℤ) :=
  (inputs.zip items).flatMap fun p => p.1.slots.map fun slot => (p.2, slot)

/-- The loop over the inputs and their slots, which lowers `n_sets` and notes the slots. The outer
`none` is an `unwrap` that failed or a division by zero, the inner one `continue 'recipe`. -/
def narrowLoop (existing : AList fun _ : α => Option (ItemStack ι)) (maxSets : ℤ) :
    List (ι × α × ℤ) → ℤ → Finset α → Option (Option (ℤ × Finset α))
  | [], nSets, usedSlots => some (some (nSets, usedSlots))
  | (item, slot, mult) :: rest, nSets, usedSlots =>
    match existing.lookup slot with
    | none => none
    | some existingInput =>
      if existingInput.any fun stack => stack.item ≠ item then some none
      else if mult = 0 then none
      else
        let existingSize := existingInput.elim 0 ItemStack.size
        let nSets := min nSets
          ((min (maxSets * mult) (ItemClass.maxSize item) - existingSize).tdiv mult)
        if nSets ≤ 0 then some none
        else narrowLoop existing maxSets rest nSets (insert slot usedSlots)

/-- A slot holds something and is not used by the recipe. -/
def isLeftOver (existing : AList fun _ : α => Option (ItemStack ι)) (usedSlots : Finset α) : Bool :=
  existing.entries.any fun e => e.2.isSome && e.1 ∉ usedSlots

omit [DecidableEq ι] [ItemClass ι] in
theorem isLeftOver_iff (existing : AList fun _ : α => Option (ItemStack ι)) (usedSlots : Finset α) :
    isLeftOver existing usedSlots = true ↔
      ∃ slot stack, existing.lookup slot = some (some stack) ∧ slot ∉ usedSlots := by
  simp only [isLeftOver, List.any_eq_true, Bool.and_eq_true, Option.isSome_iff_exists,
    decide_eq_true_eq]
  constructor
  · rintro ⟨⟨slot, existingInput⟩, he, ⟨stack, rfl⟩, hslot⟩
    exact ⟨slot, stack, AList.mem_lookup_iff.mpr he, hslot⟩
  · rintro ⟨slot, stack, he, hslot⟩
    exact ⟨⟨slot, some stack⟩, AList.mem_lookup_iff.mp he, ⟨stack, rfl⟩, hslot⟩

/-- The number of sets, if the recipe may be made. -/
def narrow (existing : AList fun _ : α => Option (ItemStack ι)) (recipe : SlotRecipe α ι ε κ)
    (inputs : ResolvedInputs ι) : Option (Option ℤ) :=
  match narrowLoop existing recipe.maxSets (targets recipe.inputs inputs.items) inputs.nSets ∅ with
  | none => none
  | some none => some none
  | some (some (nSets, usedSlots)) =>
    if isLeftOver existing usedSlots then some none else some (some nSets)

/-- One turn of the loop over the demands. -/
def judge (existing : AList fun _ : α => Option (ItemStack ι)) (recipes : List (SlotRecipe α ι ε κ))
    (demand : Demand ι κ) : Option (Option ℤ) :=
  match recipes[demand.iRecipe]? with
  | none => none
  | some recipe => narrow existing recipe demand.inputs

/-- `'recipe`, which ends with the first demand that is executed. -/
def recipeLoop (turn : Demand ι κ → Option (Option ℤ)) :
    List (Demand ι κ) → Option (Option (Demand ι κ × ℤ))
  | [] => some none
  | demand :: demands =>
    match turn demand with
    | none => none
    | some none => recipeLoop turn demands
    | some (some nSets) => some (some (demand, nSets))

/-- The reservations at the start of `execute_recipe`. -/
def reserveInputs (rule : TopRule (Provider ε) Provider.priority) (nSets : ℤ) :
    ItemTable ι ε → List (ι × ℤ) → Option (ItemTable ι ε × List (Reservation ε))
  | items, [] => some (items, [])
  | items, (item, size) :: inputs =>
    match items.reserveItem rule item (nSets * size) with
    | none => none
    | some (items, reservation) =>
      (reserveInputs rule nSets items inputs).map fun r => (r.1, reservation :: r.2)

/-- What `execute_recipe` transfers, input by input. -/
def transfers (nSets : ℤ) : ℕ → List (SlotInput α ι) → List (ℕ × α × ℤ)
  | _, [] => []
  | iInput, input :: inputs =>
    (input.slots.map fun slot => (iInput, slot.1, nSets * slot.2)) ++
      transfers nSets (iInput + 1) inputs

def executeRecipe (rule : TopRule (Provider ε) Provider.priority) (factory : Factory ι ε)
    (recipe : SlotRecipe α ι ε κ) (demand : Demand ι κ) (nSets : ℤ) :
    Option (Factory ι ε × Execution α ι ε) :=
  (reserveInputs rule nSets factory.items
    (demand.inputs.items.zip (recipe.inputs.map fun input => input.size))).map fun r =>
      ({ factory with items := r.1 },
        ⟨demand.iRecipe, nSets, demand.inputs.items, r.2, transfers nSets 0 recipe.inputs⟩)

/-- The demands that are looked at. -/
def considered (strictPriority : Bool) (demands : List (Demand ι κ)) : List (Demand ι κ) :=
  if strictPriority then demands.take 1 else demands

/-- The end of `run`: the first demand that may be executed is. -/
def plan (rule : TopRule (Provider ε) Provider.priority) (factory : Factory ι ε)
    (recipes : List (SlotRecipe α ι ε κ)) (found : Found α ι) (demands : List (Demand ι κ)) :
    Option (Run α ι ε) :=
  match recipeLoop (judge found.existing recipes) demands with
  | none => none
  | some none => some ⟨factory, found.extracted, none⟩
  | some (some (demand, nSets)) =>
    match recipes[demand.iRecipe]? with
    | none => none
    | some recipe =>
      (executeRecipe rule factory recipe demand nSets).map fun r =>
        ⟨r.1, found.extracted, some r.2⟩

end
end Slotted

open Slotted

structure SlottedConfig (ι ε κ : Type) where
  inputSlots : List ℕ
  toExtract : Option (Factory ι ε → ℕ → ItemStack ι → Bool)
  recipes : List (SlotRecipe ℕ ι ε κ)
  strictPriority : Bool

structure MultiInvSlottedConfig (ι ε κ : Type) where
  inputSlots : List (List ℕ)
  toExtract : Option (Factory ι ε → ℕ → ℕ → ItemStack ι → Bool)
  recipes : List (SlotRecipe (ℕ × ℕ) ι ε κ)
  strictPriority : Bool

section
variable {ι ε κ : Type} [DecidableEq ι] [ItemClass ι] [LinearOrder κ]
  (order : Enumeration ι) (rule : TopRule (Provider ε) Provider.priority) (scale : κ → ℤ → κ)

namespace SlottedProcess
variable (cfg : SlottedConfig ι ε κ)

/-- `run` lists nothing. No value means that a search panicked. -/
def isIdle (factory : Factory ι ε) : Option Bool :=
  if cfg.toExtract.isNone then
    (computeDemands order scale factory (cfg.recipes.map SlotRecipe.toRecipe)).map List.isEmpty
  else some false

def found (factory : Factory ι ε) (listing : Stacks ι) : Found ℕ ι :=
  listLoop (cfg.toExtract.map fun toExtract => toExtract factory) id 0 listing
    ⟨noInputs cfg.inputSlots, []⟩

/-- The part of `run` after the listing. -/
def run (factory : Factory ι ε) (listing : Stacks ι) : Option (Run ℕ ι ε) :=
  match computeDemands order scale factory (cfg.recipes.map SlotRecipe.toRecipe) with
  | none => none
  | some demands =>
    plan rule factory cfg.recipes (found cfg factory listing)
      (considered cfg.strictPriority demands)

end SlottedProcess

namespace MultiInvSlottedProcess
variable (cfg : MultiInvSlottedConfig ι ε κ)

def isIdle (factory : Factory ι ε) : Option Bool :=
  if cfg.toExtract.isNone then
    (computeDemands order scale factory (cfg.recipes.map SlotRecipe.toRecipe)).map List.isEmpty
  else some false

/-- The input slots of the inventories from `inv` on. -/
def invSlots : ℕ → List (List ℕ) → List (ℕ × ℕ)
  | _, [] => []
  | inv, slots :: rest => slots.map (Prod.mk inv) ++ invSlots (inv + 1) rest

/-- The loop over the inventories from `inv` on. -/
def listInvs (toExtract : Option (ℕ → ℕ → ItemStack ι → Bool)) :
    ℕ → List (Stacks ι) → Found (ℕ × ℕ) ι → Found (ℕ × ℕ) ι
  | _, [], found => found
  | inv, listing :: rest, found =>
    listInvs toExtract (inv + 1) rest
      (listLoop (toExtract.map fun toExtract slot => toExtract slot.1 slot.2) (Prod.mk inv) 0
        listing found)

def found (inputSlots : List (List ℕ)) (toExtract : Option (ℕ → ℕ → ItemStack ι → Bool))
    (listings : List (Stacks ι)) : Found (ℕ × ℕ) ι :=
  listInvs toExtract 0 listings ⟨noInputs (invSlots 0 inputSlots), []⟩

/-- The part of `run` after the listing. -/
def run (factory : Factory ι ε) (listings : List (Stacks ι)) : Option (Run (ℕ × ℕ) ι ε) :=
  match computeDemands order scale factory (cfg.recipes.map SlotRecipe.toRecipe) with
  | none => none
  | some demands =>
    plan rule factory cfg.recipes
      (found cfg.inputSlots (cfg.toExtract.map fun toExtract => toExtract factory) listings)
      (considered cfg.strictPriority demands)

end MultiInvSlottedProcess
end
end OCRemote
