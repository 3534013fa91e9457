import Mathlib.Data.Finset.Image
import OCRemote.Process.FluidSlotted

/-! The three slotted processes take the same decisions. A single inventory only renames its slots,
and without tanks and fluids the third process bounds nothing that the second does not. -/

namespace OCRemote

section
variable {α β ι ε κ : Type}

/-! Slots under other names. -/

def SlotInput.rename (f : α → β) (input : SlotInput α ι) : SlotInput β ι where
  toInput := input.toInput
  slots := input.slots.map fun slot => (f slot.1, slot.2)

def SlotRecipe.rename (f : α → β) (recipe : SlotRecipe α ι ε κ) : SlotRecipe β ι ε κ where
  outputs := recipe.outputs
  inputs := recipe.inputs.map (SlotInput.rename f)
  maxSets := recipe.maxSets

namespace Slotted

def Execution.rename (f : α → β) (execution : Execution α ι ε) : Execution β ι ε where
  iRecipe := execution.iRecipe
  nSets := execution.nSets
  items := execution.items
  reservations := execution.reservations
  transfers := execution.transfers.map fun transfer => (transfer.1, f transfer.2.1, transfer.2.2)

def Run.rename (f : α → β) (run : Run α ι ε) : Run β ι ε where
  factory := run.factory
  extracted := run.extracted.map fun slot => (f slot.1, slot.2)
  executed := run.executed.map (Execution.rename f)

variable [DecidableEq α] [DecidableEq β]

/-- The same inputs under other names. -/
structure Renamed (f : α → β) (existing : AList fun _ : α => Option (ItemStack ι))
    (existing' : AList fun _ : β => Option (ItemStack ι)) : Prop where
  lookup : ∀ slot, existing'.lookup (f slot) = existing.lookup slot
  surjective : ∀ slot' ∈ existing', ∃ slot, slot' = f slot

variable {f : α → β} {existing : AList fun _ : α => Option (ItemStack ι)}
  {existing' : AList fun _ : β => Option (ItemStack ι)}

theorem Renamed.insert (h : Renamed f existing existing') (hf : Function.Injective f) (slot : α)
    (stack : Option (ItemStack ι)) :
    Renamed f (existing.insert slot stack) (existing'.insert (f slot) stack) := by
  constructor
  · intro other
    by_cases hother : other = slot
    · rw [hother, AList.lookup_insert, AList.lookup_insert]
    · rw [AList.lookup_insert_ne hother, AList.lookup_insert_ne (hf.ne hother), h.lookup]
  · intro slot' hslot'
    rcases (AList.mem_insert _).mp hslot' with rfl | hslot'
    · exact ⟨slot, rfl⟩
    · exact h.surjective slot' hslot'

theorem Renamed.mem_iff (h : Renamed f existing existing') (slot : α) :
    f slot ∈ existing' ↔ slot ∈ existing := by
  rw [← AList.lookup_isSome, ← AList.lookup_isSome, h.lookup]

theorem renamed_noInputs (hf : Function.Injective f) (inputSlots : List α) :
    Renamed f (noInputs inputSlots : AList fun _ => Option (ItemStack ι))
      (noInputs (inputSlots.map f)) := by
  have hfold (inputSlots : List α) (existing : AList fun _ : α => Option (ItemStack ι))
      (existing' : AList fun _ : β => Option (ItemStack ι)) (h : Renamed f existing existing') :
      Renamed f (inputSlots.foldl (fun existing slot => existing.insert slot none) existing)
        ((inputSlots.map f).foldl (fun existing slot => existing.insert slot none) existing') := by
    induction inputSlots generalizing existing existing' with
    | nil => exact h
    | cons slot inputSlots ih => exact ih _ _ (h.insert hf slot none)
  exact hfold inputSlots ∅ ∅ ⟨fun slot => rfl, fun slot' hslot' => by simp at hslot'⟩

variable [DecidableEq ι] [ItemClass ι]

omit [DecidableEq ι] in
theorem renamed_onStack (hf : Function.Injective f) {toExtract : Option (α → ItemStack ι → Bool)}
    {toExtract' : Option (β → ItemStack ι → Bool)}
    (hextract : toExtract = toExtract'.map fun toExtract' slot => toExtract' (f slot))
    {found : Found α ι} {found' : Found β ι} (h : Renamed f found.existing found'.existing)
    (hextracted : found'.extracted = found.extracted.map fun slot => (f slot.1, slot.2)) (slot : α)
    (stack : Option (ItemStack ι)) :
    Renamed f (onStack toExtract found slot stack).existing
        (onStack toExtract' found' (f slot) stack).existing ∧
      (onStack toExtract' found' (f slot) stack).extracted =
        (onStack toExtract found slot stack).extracted.map fun slot => (f slot.1, slot.2) := by
  subst hextract
  cases stack with
  | none => exact ⟨h, hextracted⟩
  | some stack =>
    by_cases hslot : slot ∈ found.existing
    · simp only [onStack, if_pos hslot, if_pos ((h.mem_iff slot).mpr hslot)]
      exact ⟨h.insert hf slot _, hextracted⟩
    · simp only [onStack, if_neg hslot, if_neg ((h.mem_iff slot).not.mpr hslot)]
      cases toExtract' with
      | none => exact ⟨h, hextracted⟩
      | some toExtract' =>
        cases hyes : toExtract' (f slot) stack with
        | false => simpa [hyes] using ⟨h, hextracted⟩
        | true => simpa [hyes] using ⟨h, hextracted⟩

omit [DecidableEq ι] in
theorem renamed_listLoop (hf : Function.Injective f) {toExtract : Option (α → ItemStack ι → Bool)}
    {toExtract' : Option (β → ItemStack ι → Bool)}
    (hextract : toExtract = toExtract'.map fun toExtract' slot => toExtract' (f slot))
    {name : ℕ → α} {name' : ℕ → β} (hname : ∀ slot, name' slot = f (name slot)) (slot : ℕ)
    (listing : Stacks ι) {found : Found α ι} {found' : Found β ι}
    (h : Renamed f found.existing found'.existing)
    (hextracted : found'.extracted = found.extracted.map fun slot => (f slot.1, slot.2)) :
    Renamed f (listLoop toExtract name slot listing found).existing
        (listLoop toExtract' name' slot listing found').existing ∧
      (listLoop toExtract' name' slot listing found').extracted =
        (listLoop toExtract name slot listing found).extracted.map fun slot =>
          (f slot.1, slot.2) := by
  induction listing generalizing slot found found' with
  | nil => exact ⟨h, hextracted⟩
  | cons stack listing ih =>
    obtain ⟨hnext, hnext'⟩ := renamed_onStack hf hextract h hextracted (name slot) stack
    rw [listLoop, listLoop, hname]
    exact ih (slot + 1) hnext hnext'

omit [DecidableEq α] [DecidableEq β] [DecidableEq ι] [ItemClass ι] in
theorem targets_rename (inputs : List (SlotInput α ι)) (items : List ι) :
    targets (inputs.map (SlotInput.rename f)) items =
      (targets inputs items).map fun target => (target.1, f target.2.1, target.2.2) := by
  induction inputs generalizing items with
  | nil => rfl
  | cons input inputs ih =>
    cases items with
    | nil => simp [targets]
    | cons item items =>
      simp only [targets] at ih ⊢
      rw [List.map_cons, List.zip_cons_cons, List.zip_cons_cons, List.flatMap_cons,
        List.flatMap_cons,
        ih, List.map_append]
      simp [SlotInput.rename]

theorem narrowLoop_rename (h : Renamed f existing existing') (maxSets : ℤ)
    (rest : List (ι × α × ℤ)) (nSets : ℤ) (usedSlots : Finset α) :
    narrowLoop existing' maxSets (rest.map fun target => (target.1, f target.2.1, target.2.2)) nSets
        (usedSlots.image f) =
      (narrowLoop existing maxSets rest nSets usedSlots).map
        (Option.map fun r => (r.1, r.2.image f)) := by
  induction rest generalizing nSets usedSlots with
  | nil => rfl
  | cons target rest ih =>
    obtain ⟨item, slot, mult⟩ := target
    rw [List.map_cons, narrowLoop, narrowLoop, h.lookup]
    cases existing.lookup slot with
    | none => rfl
    | some existingInput =>
      simp only
      split_ifs
      · rfl
      · rfl
      · rfl
      · rw [← Finset.image_insert, ih]

omit [DecidableEq ι] [ItemClass ι] in
theorem isLeftOver_rename (h : Renamed f existing existing') (hf : Function.Injective f)
    (usedSlots : Finset α) :
    isLeftOver existing' (usedSlots.image f) = isLeftOver existing usedSlots := by
  rw [Bool.eq_iff_iff, isLeftOver_iff, isLeftOver_iff]
  constructor
  · rintro ⟨slot', stack, hlookup, hslot'⟩
    obtain ⟨slot, rfl⟩ := h.surjective slot' (AList.lookup_isSome.mp (by rw [hlookup]; rfl))
    rw [h.lookup] at hlookup
    exact ⟨slot, stack, hlookup, fun hslot => hslot' (Finset.mem_image_of_mem f hslot)⟩
  · rintro ⟨slot, stack, hlookup, hslot⟩
    refine ⟨f slot, stack, by rw [h.lookup, hlookup], fun hslot' => hslot ?_⟩
    obtain ⟨other, hother, heq⟩ := Finset.mem_image.mp hslot'
    exact hf heq ▸ hother

/-- The number of sets does not depend on the names of the slots. -/
theorem narrow_rename (h : Renamed f existing existing') (hf : Function.Injective f)
    (recipe : SlotRecipe α ι ε κ) (inputs : ResolvedInputs ι) :
    narrow existing' (recipe.rename f) inputs = narrow existing recipe inputs := by
  have hloop := narrowLoop_rename h recipe.maxSets (targets recipe.inputs inputs.items)
    inputs.nSets ∅
  rw [Finset.image_empty] at hloop
  simp only [narrow, SlotRecipe.rename, targets_rename, hloop]
  cases narrowLoop existing recipe.maxSets (targets recipe.inputs inputs.items) inputs.nSets ∅ with
  | none => rfl
  | some found =>
    cases found with
    | none => rfl
    | some r => simp only [Option.map_some, isLeftOver_rename h hf]

omit [DecidableEq α] [DecidableEq β] [DecidableEq ι] [ItemClass ι] in
theorem transfers_rename (nSets : ℤ) (iInput : ℕ) (inputs : List (SlotInput α ι)) :
    transfers nSets iInput (inputs.map (SlotInput.rename f)) =
      (transfers nSets iInput inputs).map fun t => (t.1, f t.2.1, t.2.2) := by
  induction inputs generalizing iInput with
  | nil => rfl
  | cons input inputs ih => simp [transfers, ih, SlotInput.rename]

omit [DecidableEq α] [DecidableEq β] [ItemClass ι] in
theorem executeRecipe_rename (rule : TopRule (Provider ε) Provider.priority) (factory : Factory ι ε)
    (recipe : SlotRecipe α ι ε κ) (demand : Demand ι κ) (nSets : ℤ) :
    executeRecipe rule factory (recipe.rename f) demand nSets =
      (executeRecipe rule factory recipe demand nSets).map (Prod.map id (Execution.rename f)) := by
  have hsizes : (recipe.rename f).inputs.map (fun input => input.size) =
      recipe.inputs.map fun input => input.size := by
    simp [SlotRecipe.rename, SlotInput.rename, Function.comp_def]
  simp only [executeRecipe, hsizes, Option.map_map]
  congr 1
  funext r
  simp [SlotRecipe.rename, Execution.rename, transfers_rename]

/-- The decision does not depend on the names of the slots. -/
theorem plan_rename (hf : Function.Injective f) (rule : TopRule (Provider ε) Provider.priority)
    (factory : Factory ι ε) (recipes : List (SlotRecipe α ι ε κ)) {found : Found α ι}
    {found' : Found β ι} (h : Renamed f found.existing found'.existing)
    (hextracted : found'.extracted = found.extracted.map fun slot => (f slot.1, slot.2))
    (demands : List (Demand ι κ)) :
    plan rule factory (recipes.map (SlotRecipe.rename f)) found' demands =
      (plan rule factory recipes found demands).map (Run.rename f) := by
  have hjudge : judge found'.existing (recipes.map (SlotRecipe.rename f)) =
      (judge found.existing recipes : Demand ι κ → Option (Option ℤ)) := by
    funext demand
    rw [judge, judge, List.getElem?_map]
    cases recipes[demand.iRecipe]? with
    | none => rfl
    | some recipe => exact narrow_rename h hf recipe demand.inputs
  rw [plan, plan, hjudge]
  split
  · rfl
  · simp [Run.rename, hextracted]
  · rename_i demand nSets _
    rw [List.getElem?_map]
    cases recipes[demand.iRecipe]? with
    | none => rfl
    | some recipe =>
      simp [executeRecipe_rename, Option.map_map, Function.comp_def, Run.rename, hextracted]

end Slotted

open Slotted

/-- The same configuration with a single inventory. -/
def SlottedConfig.toMultiInv (cfg : SlottedConfig ι ε κ) : MultiInvSlottedConfig ι ε κ where
  inputSlots := [cfg.inputSlots]
  toExtract := cfg.toExtract.map fun toExtract factory _ slot stack => toExtract factory slot stack
  recipes := cfg.recipes.map (SlotRecipe.rename (Prod.mk 0))
  strictPriority := cfg.strictPriority

/-- The same configuration without tanks and fluids. The fluid extraction filter is never asked. -/
def MultiInvSlottedConfig.toFluid (cfg : MultiInvSlottedConfig ι ε κ)
    (fluidExtract : Option (Factory ι ε → ℕ → List Tank → List (ℕ × ℤ))) :
    FluidSlottedConfig ι ε κ where
  inputSlots := cfg.inputSlots
  inputTanks := []
  toExtract := cfg.toExtract
  fluidExtract := fluidExtract
  recipes := cfg.recipes.map fun recipe => ⟨recipe, []⟩
  strictPriority := cfg.strictPriority

/-- What a run of the fluid process is that does nothing to fluids. -/
def Slotted.Run.toFluid (run : Slotted.Run (ℕ × ℕ) ι ε) : FluidSlottedProcess.Run ι ε where
  factory := run.factory
  extracted := run.extracted
  extractedFluids := []
  executed := run.executed.map fun execution => ⟨execution, [], []⟩

variable [DecidableEq ι] [ItemClass ι] [LinearOrder κ]

omit [DecidableEq ι] [ItemClass ι] [LinearOrder κ] in
theorem toMultiInv_recipes (cfg : SlottedConfig ι ε κ) :
    cfg.toMultiInv.recipes.map SlotRecipe.toRecipe = cfg.recipes.map SlotRecipe.toRecipe := by
  simp [SlottedConfig.toMultiInv, Function.comp_def, SlotRecipe.toRecipe, SlotRecipe.rename,
    SlotInput.rename]

theorem multiInv_run_eq (order : Enumeration ι) (rule : TopRule (Provider ε) Provider.priority)
    (scale : κ → ℤ → κ) (cfg : SlottedConfig ι ε κ) (factory : Factory ι ε) (listing : Stacks ι) :
    MultiInvSlottedProcess.run order rule scale cfg.toMultiInv factory [listing] =
      (SlottedProcess.run order rule scale cfg factory listing).map (Run.rename (Prod.mk 0)) := by
  have hf : Function.Injective (Prod.mk 0 : ℕ → ℕ × ℕ) := Prod.mk_right_injective 0
  have hslots : MultiInvSlottedProcess.invSlots 0 [cfg.inputSlots] =
      cfg.inputSlots.map (Prod.mk 0) := by
    simp [MultiInvSlottedProcess.invSlots]
  have hstart : Renamed (Prod.mk 0)
      (⟨noInputs cfg.inputSlots, []⟩ : Found ℕ ι).existing
      (⟨noInputs (MultiInvSlottedProcess.invSlots 0 [cfg.inputSlots]), []⟩ :
        Found (ℕ × ℕ) ι).existing := by
    rw [hslots]
    exact renamed_noInputs hf cfg.inputSlots
  have hextract : (cfg.toExtract.map fun toExtract => toExtract factory) =
      ((cfg.toMultiInv.toExtract.map fun toExtract => toExtract factory).map
        fun toExtract (slot : ℕ × ℕ) => toExtract slot.1 slot.2).map
          fun toExtract' slot => toExtract' (0, slot) := by
    simp [SlottedConfig.toMultiInv, Option.map_map, Function.comp_def]
  have hname (slot : ℕ) : Prod.mk 0 slot = (Prod.mk 0 (id slot) : ℕ × ℕ) := rfl
  obtain ⟨hfound, hextracted⟩ := renamed_listLoop hf hextract hname 0 listing hstart rfl
  rw [MultiInvSlottedProcess.run, SlottedProcess.run, toMultiInv_recipes]
  cases computeDemands order scale factory (cfg.recipes.map SlotRecipe.toRecipe) with
  | none => rfl
  | some demands => exact plan_rename hf rule factory cfg.recipes hfound hextracted _

omit [LinearOrder κ] in
theorem fluidDemandsFrom_eq (order : Enumeration ι) (scale : κ → ℤ → κ) (factory : Factory ι ε)
    (iRecipe : ℕ) (recipes : List (SlotRecipe (ℕ × ℕ) ι ε κ)) :
    FluidSlottedProcess.fluidDemandsFrom order scale factory iRecipe
        (recipes.map fun recipe => ⟨recipe, []⟩) =
      demandsFrom order scale factory iRecipe (recipes.map SlotRecipe.toRecipe) := by
  induction recipes generalizing iRecipe with
  | nil => rfl
  | cons recipe recipes ih =>
    rw [List.map_cons, List.map_cons, FluidSlottedProcess.fluidDemandsFrom, demandsFrom, ih]
    have houtputs : recipe.toRecipe.outputs factory = recipe.outputs factory := rfl
    rw [houtputs]
    cases recipe.outputs factory with
    | none => rfl
    | some priority =>
      cases hinputs : resolveInputs order factory.items recipe.toRecipe.inputs with
      | none => rfl
      | some found =>
        cases found with
        | none => rfl
        | some inputs =>
          obtain ⟨hpos, hle, hmax⟩ := resolveInputs_bounds hinputs
          have hmin (n : ℤ) (h : n ≤ i32Max) : min n i64Max = n := by
            rw [i32Max] at h
            exact min_eq_left (by rw [i64Max]; omega)
          have hsame (n : ℤ) (h0 : 0 ≤ n) (h : n ≤ i32Max) : toI32 n = n :=
            toI32_of_bounds (by rw [i32Min]; omega) h
          have hbounds : FluidSlottedProcess.fluidBounds factory [] = some (i64Max, i64Max) := rfl
          simp only [hbounds, hmin _ hmax, hmin _ (hle.trans hmax),
            hsame _ hpos.le (hle.trans hmax),
            hsame _ (hpos.le.trans hle) hmax, if_pos hpos]

theorem computeFluidDemands_eq (order : Enumeration ι) (scale : κ → ℤ → κ) (factory : Factory ι ε)
    (recipes : List (SlotRecipe (ℕ × ℕ) ι ε κ)) :
    FluidSlottedProcess.computeFluidDemands order scale factory
        (recipes.map fun recipe => ⟨recipe, []⟩) =
      computeDemands order scale factory (recipes.map SlotRecipe.toRecipe) := by
  rw [FluidSlottedProcess.computeFluidDemands, computeDemands, fluidDemandsFrom_eq]

theorem fluid_run_eq (order : Enumeration ι) (rule : TopRule (Provider ε) Provider.priority)
    (scale : κ → ℤ → κ) (cfg : MultiInvSlottedConfig ι ε κ)
    (fluidExtract : Option (Factory ι ε → ℕ → List Tank → List (ℕ × ℤ))) (factory : Factory ι ε)
    (listings : List (Stacks ι)) :
    FluidSlottedProcess.run order rule scale (cfg.toFluid fluidExtract) factory listings [] =
      (MultiInvSlottedProcess.run order rule scale cfg factory listings).map Slotted.Run.toFluid := by
  have hdemands : FluidSlottedProcess.computeFluidDemands order scale factory
      (cfg.toFluid fluidExtract).recipes =
        computeDemands order scale factory (cfg.recipes.map SlotRecipe.toRecipe) :=
    computeFluidDemands_eq order scale factory cfg.recipes
  have hget (i : ℕ) : (cfg.toFluid fluidExtract).recipes[i]? =
      cfg.recipes[i]?.map fun recipe => ⟨recipe, []⟩ := by
    simp [MultiInvSlottedConfig.toFluid]
  -- nothing to send and nothing present
  have hnarrow (existing : AList fun _ : ℕ × ℕ => Option (ItemStack ι))
      (recipe : SlotRecipe (ℕ × ℕ) ι ε κ) (inputs : ResolvedInputs ι) :
      FluidSlottedProcess.narrow existing [] ⟨recipe, []⟩ inputs =
        Slotted.narrow existing recipe inputs := by
    rw [FluidSlottedProcess.narrow]
    cases Slotted.narrow existing recipe inputs with
    | none => rfl
    | some r => cases r <;> rfl
  have hjudge (existing : AList fun _ : ℕ × ℕ => Option (ItemStack ι)) :
      FluidSlottedProcess.judge existing [] (cfg.toFluid fluidExtract).recipes =
        (Slotted.judge existing cfg.recipes : Demand ι κ → Option (Option ℤ)) := by
    funext demand
    rw [FluidSlottedProcess.judge, Slotted.judge, hget]
    cases cfg.recipes[demand.iRecipe]? with
    | none => rfl
    | some recipe => exact hnarrow existing recipe demand.inputs
  have hexecute (recipe : SlotRecipe (ℕ × ℕ) ι ε κ) (demand : Demand ι κ) (nSets : ℤ) :
      FluidSlottedProcess.executeRecipe rule factory ⟨recipe, []⟩ demand nSets =
        (Slotted.executeRecipe rule factory recipe demand nSets).map fun r =>
          (r.1, ⟨r.2, [], []⟩) := by
    rw [FluidSlottedProcess.executeRecipe]
    cases Slotted.executeRecipe rule factory recipe demand nSets <;> rfl
  have hfluids : FluidSlottedProcess.existingFluids (cfg.toFluid fluidExtract).inputTanks [] =
      some [] :=
    rfl
  rw [FluidSlottedProcess.run, MultiInvSlottedProcess.run, hfluids, hdemands]
  cases computeDemands order scale factory (cfg.recipes.map SlotRecipe.toRecipe) with
  | none => rfl
  | some demands =>
    have hsame : MultiInvSlottedProcess.found (cfg.toFluid fluidExtract).inputSlots
        ((cfg.toFluid fluidExtract).toExtract.map fun toExtract => toExtract factory) listings =
          MultiInvSlottedProcess.found cfg.inputSlots
            (cfg.toExtract.map fun toExtract => toExtract factory) listings := rfl
    have hstrict : (cfg.toFluid fluidExtract).strictPriority = cfg.strictPriority := rfl
    simp only [plan, hjudge, hsame, hstrict, FluidSlottedProcess.extractFluids]
    cases recipeLoop (Slotted.judge (MultiInvSlottedProcess.found cfg.inputSlots
        (cfg.toExtract.map fun toExtract => toExtract factory) listings).existing cfg.recipes)
      (considered cfg.strictPriority demands) with
    | none => rfl
    | some chosen =>
      cases chosen with
      | none => rfl
      | some r =>
        simp only [hget]
        cases cfg.recipes[r.1.iRecipe]? with
        | none => rfl
        | some recipe =>
          simp only [Option.map_some, hexecute, Option.map_map]
          rfl

/-- The three processes find the same things to do: nothing to list, the same slots to extract in the
same order, and the same recipe for the same number of sets, with the same items, reservations and
transfers. -/
theorem slotted_processes_agree (order : Enumeration ι)
    (rule : TopRule (Provider ε) Provider.priority) (scale : κ → ℤ → κ) (factory : Factory ι ε) :
    (∀ (cfg : SlottedConfig ι ε κ) (listing : Stacks ι),
      MultiInvSlottedProcess.isIdle order scale cfg.toMultiInv factory =
        SlottedProcess.isIdle order scale cfg factory ∧
      MultiInvSlottedProcess.run order rule scale cfg.toMultiInv factory [listing] =
        (SlottedProcess.run order rule scale cfg factory listing).map (Run.rename (Prod.mk 0))) ∧
    ∀ (cfg : MultiInvSlottedConfig ι ε κ) (listings : List (Stacks ι)),
      FluidSlottedProcess.isIdle order scale (cfg.toFluid none) factory =
        MultiInvSlottedProcess.isIdle order scale cfg factory ∧
      ∀ fluidExtract,
        FluidSlottedProcess.run order rule scale (cfg.toFluid fluidExtract) factory listings [] =
          (MultiInvSlottedProcess.run order rule scale cfg factory listings).map
            Slotted.Run.toFluid := by
  refine ⟨fun cfg listing => ⟨?_, multiInv_run_eq order rule scale cfg factory listing⟩,
    fun cfg listings => ⟨?_, fun fluidExtract =>
      fluid_run_eq order rule scale cfg fluidExtract factory listings⟩⟩
  · rw [MultiInvSlottedProcess.isIdle, SlottedProcess.isIdle, toMultiInv_recipes]
    simp [SlottedConfig.toMultiInv]
  · simp [FluidSlottedProcess.isIdle, MultiInvSlottedProcess.isIdle,
      computeFluidDemands_eq, MultiInvSlottedConfig.toFluid]

end
end OCRemote
