import OCRemote.Process.SlottedPlan

/-! The loop of the slotted processes over the slots of a recipe as it computes with 32 bits. The
three processes have the same loop, over slots that are named by their numbers or by pairs. -/

namespace OCRemote
namespace Slotted

def FitsI32 (n : ℤ) : Prop := i32Min ≤ n ∧ n ≤ i32Max

instance (n : ℤ) : Decidable (FitsI32 n) := inferInstanceAs (Decidable (_ ∧ _))

theorem toI32_eq {n : ℤ} (h : FitsI32 n) : toI32 n = n := toI32_of_bounds h.1 h.2

section
variable {α ι ε κ : Type} [DecidableEq α] [DecidableEq ι] [ItemClass ι]

/-- How many sets a slot takes. A quotient by a positive number has no more bits. -/
def slotBound (maxSets mult maxSize existingSize : ℤ) : ℤ :=
  (toI32 (min (toI32 (maxSets * mult)) maxSize - existingSize)).tdiv mult

/-- `narrowLoop` with 32 bits. -/
def narrowLoop32 (existing : AList fun _ : α => Option (ItemStack ι)) (maxSets : ℤ) :
    List (ι × α × ℤ) → ℤ → Finset α → Option (Option (ℤ × Finset α))
  | [], nSets, usedSlots => some (some (nSets, usedSlots))
  | (item, slot, mult) :: rest, nSets, usedSlots =>
    match existing.lookup slot with
    | none => none
    | some existingInput =>
      if existingInput.any fun stack => stack.item ≠ item then some none
      else if mult = 0 then none
      else
        let existingSize := existingInput.elim 0 ItemStack.size
        let nSets := min nSets (slotBound maxSets mult (ItemClass.maxSize item) existingSize)
        if nSets ≤ 0 then some none
        else narrowLoop32 existing maxSets rest nSets (insert slot usedSlots)

/-- Nothing that the loop computes is beyond 32 bits. -/
def NoOverflow (existing : AList fun _ : α => Option (ItemStack ι)) (maxSets : ℤ) :
    List (ι × α × ℤ) → ℤ → Prop
  | [], _ => True
  | (item, slot, mult) :: rest, nSets =>
    ∀ existingInput, existing.lookup slot = some existingInput →
      (∀ stack, existingInput = some stack → stack.item = item) →
        let existingSize := existingInput.elim 0 ItemStack.size
        let room := min (toI32 (maxSets * mult)) (ItemClass.maxSize item) - existingSize
        let nSets := min nSets (slotBound maxSets mult (ItemClass.maxSize item) existingSize)
        FitsI32 (maxSets * mult) ∧ FitsI32 room ∧
          (0 < nSets → NoOverflow existing maxSets rest nSets)

/-- How many sets a slot takes, exactly. -/
def slotSets (existing : AList fun _ : α => Option (ItemStack ι)) (maxSets : ℤ)
    (target : ι × α × ℤ) : ℤ :=
  (min (maxSets * target.2.2) (ItemClass.maxSize target.1) -
    Inventory.amount (existing.lookup target.2.1).join) / target.2.2

/-- The least of these numbers, bounded by another one. -/
def exactSets (existing : AList fun _ : α => Option (ItemStack ι)) (maxSets : ℤ)
    (targets : List (ι × α × ℤ)) (nSets : ℤ) : ℤ :=
  targets.foldl (fun nSets target => min nSets (slotSets existing maxSets target)) nSets

/-- A slot holds an item that is not the one of its input. -/
def Mismatched (existing : AList fun _ : α => Option (ItemStack ι)) (target : ι × α × ℤ) : Prop :=
  ∃ stack, existing.lookup target.2.1 = some (some stack) ∧ stack.item ≠ target.1

/-- The loop neither overflows nor finds another number of sets than there are. -/
structure Exact (existing : AList fun _ : α => Option (ItemStack ι)) (recipe : SlotRecipe α ι ε κ)
    (inputs : ResolvedInputs ι) : Prop where
  noOverflow : NoOverflow existing recipe.maxSets (targets recipe.inputs inputs.items) inputs.nSets
  nSets : ∀ nSets usedSlots,
    narrowLoop32 existing recipe.maxSets (targets recipe.inputs inputs.items) inputs.nSets ∅ =
      some (some (nSets, usedSlots)) →
    nSets = exactSets existing recipe.maxSets (targets recipe.inputs inputs.items) inputs.nSets
  skipped :
    narrowLoop32 existing recipe.maxSets (targets recipe.inputs inputs.items) inputs.nSets ∅ =
      some none →
    (∃ target ∈ targets recipe.inputs inputs.items, Mismatched existing target) ∨
      exactSets existing recipe.maxSets (targets recipe.inputs inputs.items) inputs.nSets ≤ 0

/-- The loop comes to a slot: those before it take a set, and it holds nothing but the right item. -/
def Reached (existing : AList fun _ : α => Option (ItemStack ι)) (maxSets : ℤ)
    (targets : List (ι × α × ℤ)) (target : ι × α × ℤ) : Prop :=
  ∃ before after, targets = before ++ target :: after ∧
    (∀ other ∈ before, SlotFits existing maxSets 1 other) ∧
    (existing.lookup target.2.1).isSome ∧ ¬ Mismatched existing target

/-- What is computed for a slot fits into 32 bits. -/
def Narrow (existing : AList fun _ : α => Option (ItemStack ι)) (maxSets : ℤ)
    (target : ι × α × ℤ) : Prop :=
  FitsI32 (maxSets * target.2.2) ∧
    FitsI32 (min (maxSets * target.2.2) (ItemClass.maxSize target.1) -
      Inventory.amount (existing.lookup target.2.1).join)

variable {existing : AList fun _ : α => Option (ItemStack ι)} {maxSets : ℤ}

omit [DecidableEq ι] in
theorem reached_cons {first target : ι × α × ℤ} {rest : List (ι × α × ℤ)} :
    Reached existing maxSets (first :: rest) target ↔
      (target = first ∧ (existing.lookup first.2.1).isSome ∧ ¬ Mismatched existing first) ∨
        (SlotFits existing maxSets 1 first ∧ Reached existing maxSets rest target) := by
  constructor
  · rintro ⟨before, after, heq, hbefore, hsome, hmatch⟩
    cases before with
    | nil =>
      obtain ⟨rfl, -⟩ := List.cons.inj heq
      exact .inl ⟨rfl, hsome, hmatch⟩
    | cons other before =>
      obtain ⟨rfl, hrest⟩ := List.cons.inj heq
      obtain ⟨hfirst, hbefore⟩ := List.forall_mem_cons.mp hbefore
      exact .inr ⟨hfirst, before, after, hrest, hbefore, hsome, hmatch⟩
  · rintro (⟨rfl, hsome, hmatch⟩ | ⟨hfirst, before, after, rfl, hbefore, hsome, hmatch⟩)
    · exact ⟨[], rest, rfl, by simp, hsome, hmatch⟩
    · exact ⟨first :: before, after, rfl, List.forall_mem_cons.mpr ⟨hfirst, hbefore⟩, hsome, hmatch⟩

omit [DecidableEq ι] in
/-- What fits is computed exactly. -/
theorem Narrow.slotBound_eq {item : ι} {slot : α} {mult : ℤ} {existingInput : Option (ItemStack ι)}
    (hlookup : existing.lookup slot = some existingInput)
    (h : Narrow existing maxSets (item, slot, mult)) :
    slotBound maxSets mult (ItemClass.maxSize item) (existingInput.elim 0 ItemStack.size) =
      (min (maxSets * mult) (ItemClass.maxSize item) -
        existingInput.elim 0 ItemStack.size).tdiv mult := by
  obtain ⟨hproduct, hroom⟩ := h
  simp only [hlookup, Option.join_some, Inventory.amount] at hproduct hroom
  rw [slotBound, toI32_eq hproduct, toI32_eq hroom]

omit [DecidableEq ι] in
/-- A slot takes a set when the bound is positive. -/
theorem slotFits_one_iff {item : ι} {slot : α} {mult : ℤ} {existingInput : Option (ItemStack ι)}
    (hlookup : existing.lookup slot = some existingInput)
    (hmatch : ∀ stack, existingInput = some stack → stack.item = item) (hmult : 0 < mult) :
    SlotFits existing maxSets 1 (item, slot, mult) ↔
      0 < (min (maxSets * mult) (ItemClass.maxSize item) -
        existingInput.elim 0 ItemStack.size).tdiv mult := by
  have hone := @le_tdiv_iff 1 (min (maxSets * mult) (ItemClass.maxSize item) -
    existingInput.elim 0 ItemStack.size) mult one_pos hmult
  rw [← Int.add_one_le_iff, zero_add, hone]
  simp only [SlotFits, hlookup, Option.some.injEq, exists_eq_left', Inventory.amount]
  constructor
  · rintro ⟨-, hle⟩
    omega
  · intro hle
    exact ⟨hmatch, by omega⟩

omit [DecidableEq ι] in
theorem noOverflow_cons {item : ι} {slot : α} {mult : ℤ} {rest : List (ι × α × ℤ)} (hmult : 0 < mult)
    {existingInput : Option (ItemStack ι)} (hlookup : existing.lookup slot = some existingInput)
    (hmatch : ∀ stack, existingInput = some stack → stack.item = item) {nSets : ℤ}
    (hpos : 0 < nSets) :
    NoOverflow existing maxSets ((item, slot, mult) :: rest) nSets ↔
      Narrow existing maxSets (item, slot, mult) ∧
        (SlotFits existing maxSets 1 (item, slot, mult) →
          NoOverflow existing maxSets rest (min nSets
            ((min (maxSets * mult) (ItemClass.maxSize item) -
              existingInput.elim 0 ItemStack.size).tdiv mult))) := by
  have hnarrow : Narrow existing maxSets (item, slot, mult) ↔ FitsI32 (maxSets * mult) ∧
      FitsI32 (min (toI32 (maxSets * mult)) (ItemClass.maxSize item) -
        existingInput.elim 0 ItemStack.size) := by
    simp only [Narrow, hlookup, Option.join_some, Inventory.amount]
    refine and_congr_right fun hproduct => ?_
    rw [toI32_eq hproduct]
  have hstep : NoOverflow existing maxSets ((item, slot, mult) :: rest) nSets ↔
      Narrow existing maxSets (item, slot, mult) ∧
        (0 < min nSets (slotBound maxSets mult (ItemClass.maxSize item)
            (existingInput.elim 0 ItemStack.size)) →
          NoOverflow existing maxSets rest (min nSets (slotBound maxSets mult
            (ItemClass.maxSize item) (existingInput.elim 0 ItemStack.size)))) := by
    rw [hnarrow]
    simp only [NoOverflow, hlookup, Option.some.injEq, forall_eq', and_assoc]
    exact ⟨fun h => h hmatch, fun h _ => h⟩
  rw [hstep]
  refine and_congr_right fun hfits => ?_
  rw [hfits.slotBound_eq hlookup, slotFits_one_iff hlookup hmatch hmult, lt_min_iff]
  exact ⟨fun h hbound => h ⟨hpos, hbound⟩, fun h hbound => h hbound.2⟩

/-- Nothing overflows if and only if everything that is computed fits. -/
theorem noOverflow_iff {rest : List (ι × α × ℤ)} (hmult : ∀ target ∈ rest, 0 < target.2.2)
    {nSets : ℤ} (hpos : 0 < nSets) :
    NoOverflow existing maxSets rest nSets ↔
      ∀ target, Reached existing maxSets rest target → Narrow existing maxSets target := by
  induction rest generalizing nSets with
  | nil => simp [NoOverflow, Reached]
  | cons first rest ih =>
    obtain ⟨item, slot, mult⟩ := first
    obtain ⟨hfirst, hmult⟩ := List.forall_mem_cons.mp hmult
    simp only [reached_cons]
    cases hlookup : existing.lookup slot with
    | none => simp [NoOverflow, SlotFits, hlookup]
    | some existingInput =>
      by_cases hmatch : ∀ stack, existingInput = some stack → stack.item = item
      · have hmismatch : ¬ Mismatched existing (item, slot, mult) := by
          rintro ⟨stack, hstack, hne⟩
          exact hne (hmatch stack (Option.some.inj (hlookup.symm.trans hstack)))
        rw [noOverflow_cons hfirst hlookup hmatch hpos]
        constructor
        · rintro ⟨hnarrow, hrest⟩ target (⟨rfl, -, -⟩ | ⟨hfits, hreached⟩)
          · exact hnarrow
          · have hbound := (slotFits_one_iff hlookup hmatch hfirst).mp hfits
            exact (ih hmult (lt_min hpos hbound)).mp (hrest hfits) target hreached
        · intro hall
          refine ⟨hall _ (.inl ⟨rfl, rfl, hmismatch⟩), fun hfits => ?_⟩
          have hbound := (slotFits_one_iff hlookup hmatch hfirst).mp hfits
          exact (ih hmult (lt_min hpos hbound)).mpr fun target hreached =>
            hall target (.inr ⟨hfits, hreached⟩)
      · -- a wrong item ends the loop before anything is computed
        refine iff_of_true ?_ ?_
        · intro other hother hmatch'
          exact absurd (Option.some.inj (hlookup.symm.trans hother) ▸ hmatch') hmatch
        · rintro target (⟨-, -, hmismatch⟩ | ⟨⟨other, hother, hmatch', -⟩, -⟩)
          · push Not at hmatch
            obtain ⟨stack, rfl, hne⟩ := hmatch
            exact absurd ⟨stack, hlookup, hne⟩ hmismatch
          · exact absurd (Option.some.inj (hlookup.symm.trans hother) ▸ hmatch') hmatch

/-- A loop that does not overflow is the one over all integers. -/
theorem narrowLoop32_eq {rest : List (ι × α × ℤ)} (hmult : ∀ target ∈ rest, 0 < target.2.2)
    {nSets : ℤ} (hpos : 0 < nSets) (h : NoOverflow existing maxSets rest nSets)
    (usedSlots : Finset α) :
    narrowLoop32 existing maxSets rest nSets usedSlots =
      narrowLoop existing maxSets rest nSets usedSlots := by
  induction rest generalizing nSets usedSlots with
  | nil => rfl
  | cons first rest ih =>
    obtain ⟨item, slot, mult⟩ := first
    obtain ⟨hfirst, hmult⟩ := List.forall_mem_cons.mp hmult
    rw [narrowLoop32, narrowLoop]
    cases hlookup : existing.lookup slot with
    | none => rfl
    | some existingInput =>
      by_cases hmatch : ∀ stack, existingInput = some stack → stack.item = item
      · obtain ⟨hnarrow, hrest⟩ := (noOverflow_cons hfirst hlookup hmatch hpos).mp h
        simp only [hnarrow.slotBound_eq hlookup]
        split_ifs with hitem hzero hskip
        · rfl
        · rfl
        · rfl
        · have hbound := (lt_min_iff.mp (not_le.mp hskip)).2
          have hfits := (slotFits_one_iff hlookup hmatch hfirst).mpr hbound
          exact ih hmult (not_le.mp hskip) (hrest hfits) _
      · push Not at hmatch
        obtain ⟨stack, rfl, hne⟩ := hmatch
        simp [hne]

/-! The number of sets that the loop leaves. -/

theorem tdiv_of_pos {n mult : ℤ} (hmult : 0 < mult) :
    (0 < n.tdiv mult → n.tdiv mult = n / mult) ∧ (n.tdiv mult ≤ 0 → n / mult ≤ 0) := by
  by_cases hn : 0 ≤ n
  · rw [Int.tdiv_eq_ediv_of_nonneg hn]
    exact ⟨fun _ => rfl, id⟩
  · have hneg := Int.ediv_neg_of_neg_of_pos (not_le.mp hn) hmult
    have hle := Int.tdiv_nonneg (show 0 ≤ -n by omega) hmult.le
    rw [Int.neg_tdiv] at hle
    exact ⟨fun h => by omega, fun _ => hneg.le⟩

omit [DecidableEq ι] in
theorem exactSets_le (rest : List (ι × α × ℤ)) (nSets : ℤ) :
    exactSets existing maxSets rest nSets ≤ nSets := by
  induction rest generalizing nSets with
  | nil => exact le_rfl
  | cons first rest ih => exact (ih _).trans (min_le_left _ _)

theorem narrowLoop_sets {rest : List (ι × α × ℤ)} (hmult : ∀ target ∈ rest, 0 < target.2.2)
    {nSets : ℤ} (hpos : 0 < nSets) (usedSlots : Finset α) :
    (∀ n used, narrowLoop existing maxSets rest nSets usedSlots = some (some (n, used)) →
      n = exactSets existing maxSets rest nSets) ∧
    (narrowLoop existing maxSets rest nSets usedSlots = some none →
      (∃ target ∈ rest, Mismatched existing target) ∨ exactSets existing maxSets rest nSets ≤ 0) := by
  induction rest generalizing nSets usedSlots with
  | nil =>
    refine ⟨fun n used h => ?_, nofun⟩
    exact (congrArg Prod.fst (Option.some.inj (Option.some.inj h))).symm
  | cons first rest ih =>
    obtain ⟨item, slot, mult⟩ := first
    obtain ⟨hfirst, hmult⟩ := List.forall_mem_cons.mp hmult
    have hcons : exactSets existing maxSets ((item, slot, mult) :: rest) nSets =
        exactSets existing maxSets rest
          (min nSets (slotSets existing maxSets (item, slot, mult))) := rfl
    rw [narrowLoop, hcons]
    cases hlookup : existing.lookup slot with
    | none => simp
    | some existingInput =>
      have hsets : slotSets existing maxSets (item, slot, mult) =
          (min (maxSets * mult) (ItemClass.maxSize item) -
            existingInput.elim 0 ItemStack.size) / mult := by
        simp [slotSets, hlookup, Inventory.amount]
      obtain ⟨hbound, hnone⟩ := @tdiv_of_pos (min (maxSets * mult) (ItemClass.maxSize item) -
        existingInput.elim 0 ItemStack.size) mult hfirst
      simp only
      split_ifs with hitem hzero hskip
      · refine ⟨by simp, fun _ => .inl ⟨_, .head _, ?_⟩⟩
        obtain ⟨stack, rfl, hne⟩ := (Option.any_eq_true _ _).mp hitem
        exact ⟨stack, hlookup, of_decide_eq_true hne⟩
      · exact absurd hzero hfirst.ne'
      · refine ⟨by simp, fun _ => .inr ((exactSets_le _ _).trans ?_)⟩
        rw [hsets]
        rcases min_le_iff.mp hskip with hle | hle
        · exact absurd hpos (not_lt.mpr hle)
        · exact (min_le_right _ _).trans (hnone hle)
      · have hpos' := not_le.mp hskip
        rw [hsets, ← hbound (lt_min_iff.mp hpos').2]
        obtain ⟨hsome, hskipped⟩ := ih hmult hpos' (insert slot usedSlots)
        refine ⟨hsome, fun h => ?_⟩
        rcases hskipped h with ⟨target, htarget, hmismatch⟩ | hle
        · exact .inl ⟨target, .tail _ htarget, hmismatch⟩
        · exact .inr hle

/-- The loop is exact if and only if `max_sets * mult` and the room that it leaves fit into 32 bits
at each slot that it comes to. -/
theorem exact_iff_narrow {recipe : SlotRecipe α ι ε κ} {inputs : ResolvedInputs ι}
    (hmult : ∀ input ∈ recipe.inputs, ∀ slot ∈ input.slots, 0 < slot.2) (hpos : 0 < inputs.nSets)
    (existing : AList fun _ : α => Option (ItemStack ι)) :
    Exact existing recipe inputs ↔
      ∀ target, Reached existing recipe.maxSets (targets recipe.inputs inputs.items) target →
        Narrow existing recipe.maxSets target := by
  have hmult' : ∀ target ∈ targets recipe.inputs inputs.items, 0 < target.2.2 := by
    intro target htarget
    obtain ⟨input, hinput, -, hslot⟩ := mem_targets htarget
    exact hmult input hinput _ hslot
  rw [← noOverflow_iff hmult' hpos]
  refine ⟨fun h => h.noOverflow, fun h => ?_⟩
  have heq := narrowLoop32_eq hmult' hpos h ∅
  obtain ⟨hsets, hskipped⟩ := @narrowLoop_sets _ _ _ _ _ existing recipe.maxSets _ hmult' _ hpos ∅
  refine ⟨h, fun nSets usedSlots hrun => ?_, fun hrun => ?_⟩
  · exact hsets nSets usedSlots (heq ▸ hrun)
  · exact hskipped (heq ▸ hrun)

/-! The processes with this loop. -/

def narrow32 (existing : AList fun _ : α => Option (ItemStack ι)) (recipe : SlotRecipe α ι ε κ)
    (inputs : ResolvedInputs ι) : Option (Option ℤ) :=
  match narrowLoop32 existing recipe.maxSets (targets recipe.inputs inputs.items) inputs.nSets
      ∅ with
  | none => none
  | some none => some none
  | some (some (nSets, usedSlots)) =>
    if isLeftOver existing usedSlots then some none else some (some nSets)

def judge32 (existing : AList fun _ : α => Option (ItemStack ι))
    (recipes : List (SlotRecipe α ι ε κ)) (demand : Demand ι κ) : Option (Option ℤ) :=
  match recipes[demand.iRecipe]? with
  | none => none
  | some recipe => narrow32 existing recipe demand.inputs

/-- At each slot `max_sets * mult` fits into 32 bits. -/
structure Moderate (recipe : SlotRecipe α ι ε κ) : Prop where
  maxSets : 0 ≤ recipe.maxSets
  mult : ∀ input ∈ recipe.inputs, ∀ slot ∈ input.slots,
    0 < slot.2 ∧ recipe.maxSets * slot.2 ≤ i32Max

def Counted (size : ℤ) : Prop := 0 ≤ size ∧ size ≤ i32Max

instance (size : ℤ) : Decidable (Counted size) := inferInstanceAs (Decidable (_ ∧ _))

omit [DecidableEq ι] in
theorem narrow_of_moderate {recipe : SlotRecipe α ι ε κ} (h : Moderate recipe)
    (hlisted : ∀ slot stack, existing.lookup slot = some (some stack) → Counted stack.size)
    {items : List ι} (hmax : ∀ item ∈ items, Counted (ItemClass.maxSize item))
    {target : ι × α × ℤ} (htarget : target ∈ targets recipe.inputs items) :
    Narrow existing recipe.maxSets target := by
  obtain ⟨input, hinput, hitem, hslot⟩ := mem_targets htarget
  obtain ⟨hmult, hproduct⟩ := h.mult input hinput _ hslot
  obtain ⟨hmax0, hmaxle⟩ := hmax _ hitem
  have hproduct0 : 0 ≤ recipe.maxSets * target.2.2 := mul_nonneg h.maxSets hmult.le
  have hzero : Counted 0 := by decide
  have hamount : Counted (Inventory.amount (existing.lookup target.2.1).join) := by
    cases hlookup : existing.lookup target.2.1 with
    | none => exact hzero
    | some existingInput =>
      cases existingInput with
      | none => exact hzero
      | some stack => exact hlisted _ stack hlookup
  obtain ⟨hamount0, hamountle⟩ := hamount
  rw [i32Max] at hproduct hmaxle hamountle
  refine ⟨⟨?_, ?_⟩, ?_, ?_⟩ <;> simp only [i32Min, i32Max] <;> omega

theorem narrow32_eq {recipe : SlotRecipe α ι ε κ} (h : Moderate recipe)
    (hlisted : ∀ slot stack, existing.lookup slot = some (some stack) → Counted stack.size)
    {inputs : ResolvedInputs ι} (hpos : 0 < inputs.nSets)
    (hmax : ∀ item ∈ inputs.items, Counted (ItemClass.maxSize item)) :
    narrow32 existing recipe inputs = narrow existing recipe inputs := by
  have hmult : ∀ target ∈ targets recipe.inputs inputs.items, 0 < target.2.2 := by
    intro target htarget
    obtain ⟨input, hinput, -, hslot⟩ := mem_targets htarget
    exact (h.mult input hinput _ hslot).1
  have hfits : NoOverflow existing recipe.maxSets (targets recipe.inputs inputs.items)
      inputs.nSets := by
    refine (noOverflow_iff hmult hpos).mpr fun target hreached => ?_
    obtain ⟨before, after, heq, -⟩ := hreached
    exact narrow_of_moderate h hlisted hmax (by rw [heq]; simp)
  rw [narrow32, narrowLoop32_eq hmult hpos hfits]
  rfl

theorem recipeLoop_judge32 {order : Enumeration ι} {table : ItemTable ι ε}
    {recipes : List (SlotRecipe α ι ε κ)} (hrecipes : ∀ recipe ∈ recipes, Moderate recipe)
    (hlisted : ∀ slot stack, existing.lookup slot = some (some stack) → Counted stack.size)
    (hmax : ∀ item ∈ table.items, Counted (ItemClass.maxSize item)) {demands : List (Demand ι κ)}
    (hdemands : ∀ d ∈ demands, ∃ recipe, recipes[d.iRecipe]? = some recipe ∧
      resolveInputs order table (recipe.inputs.map SlotInput.toInput) = some (some d.inputs)) :
    recipeLoop (judge32 existing recipes) demands =
      recipeLoop (judge existing recipes) demands := by
  induction demands with
  | nil => rfl
  | cons demand demands ih =>
    obtain ⟨⟨recipe, hrecipe, hinputs⟩, hrest⟩ := List.forall_mem_cons.mp hdemands
    obtain ⟨hpos, -, hitems, -⟩ := resolveInputs_found hinputs
    have hmoderate := hrecipes recipe (List.mem_of_getElem? hrecipe)
    have hturn : judge32 existing recipes demand = judge existing recipes demand := by
      simp only [judge32, judge, hrecipe]
      exact narrow32_eq hmoderate hlisted hpos fun item hitem => hmax item (hitems item hitem)
    rw [recipeLoop, recipeLoop, hturn, ih hrest]

/-- Where `max_sets * mult` fits into 32 bits at each slot, the 32-bit loop of either process
chooses the demand and the number of sets that are planned. -/
theorem slotted_runs_narrow [LinearOrder κ] (order : Enumeration ι) (scale : κ → ℤ → κ)
    (factory : Factory ι ε)
    (hmax : ∀ item ∈ factory.items.items, Counted (ItemClass.maxSize item)) :
    (∀ (cfg : SlottedConfig ι ε κ) (listing : Stacks ι) (demands : List (Demand ι κ)),
      (∀ recipe ∈ cfg.recipes, Moderate recipe) →
      (∀ (slot : ℕ) (stack : ItemStack ι),
        listing[slot]?.join = some stack → Counted stack.size) →
      computeDemands order scale factory (cfg.recipes.map SlotRecipe.toRecipe) = some demands →
      recipeLoop (judge32 (SlottedProcess.found cfg factory listing).existing cfg.recipes)
          (considered cfg.strictPriority demands) =
        recipeLoop (judge (SlottedProcess.found cfg factory listing).existing cfg.recipes)
          (considered cfg.strictPriority demands)) ∧
    ∀ (cfg : MultiInvSlottedConfig ι ε κ) (listings : List (Stacks ι))
      (demands : List (Demand ι κ)),
      (∀ recipe ∈ cfg.recipes, Moderate recipe) →
      (∀ (slot : ℕ × ℕ) (stack : ItemStack ι),
        slotOf listings slot = some stack → Counted stack.size) →
      computeDemands order scale factory (cfg.recipes.map SlotRecipe.toRecipe) = some demands →
      let existing := (MultiInvSlottedProcess.found cfg.inputSlots
        (cfg.toExtract.map fun toExtract => toExtract factory) listings).existing
      recipeLoop (judge32 existing cfg.recipes) (considered cfg.strictPriority demands) =
        recipeLoop (judge existing cfg.recipes) (considered cfg.strictPriority demands) := by
  constructor
  · intro cfg listing demands hrecipes hlisted hdemands
    refine recipeLoop_judge32 hrecipes (fun slot stack hslot => ?_) hmax
      (computeDemands_resolved hdemands _)
    rw [slotted_found_lookup] at hslot
    split_ifs at hslot
    exact hlisted slot stack (Option.some.inj hslot)
  · intro cfg listings demands hrecipes hlisted hdemands
    refine recipeLoop_judge32 hrecipes (fun slot stack hslot => ?_) hmax
      (computeDemands_resolved hdemands _)
    rw [multiInv_found_lookup] at hslot
    split_ifs at hslot
    exact hlisted slot stack (Option.some.inj hslot)

end

/-- An unlimited recipe that puts so many of iron into one slot for a set. -/
def charger (mult : ℤ) : SlotRecipe ℕ (Item ℤ) ℕ ℤ where
  outputs _ := some 1
  inputs := [SlotInput.new (.Label "Iron") [(0, mult)]]
  maxSets := i32Max

/-- With two of iron for a set the product wraps to -2, and the recipe is left out although there is
iron and room for ten sets. -/
theorem charger_wraps :
    resolveInputs ⟨id, List.Perm.refl⟩ (ItemTable.empty.provide iron ⟨0, 20, 0⟩)
        ((charger 2).inputs.map SlotInput.toInput) = some (some ⟨10, 10, [iron]⟩) ∧
      narrowLoop32 (noInputs [0]) i32Max (targets (charger 2).inputs [iron]) 10 ∅ = some none ∧
      narrow (noInputs [0]) (charger 2) ⟨10, 10, [iron]⟩ = some (some 10) ∧
      ¬ Exact (noInputs [0]) (charger 2) ⟨10, 10, [iron]⟩ := by
  refine ⟨rfl, by decide, by decide, fun h => ?_⟩
  rcases h.skipped (by decide) with ⟨target, -, stack, hstack, -⟩ | hle
  · have hempty : ∀ slot, (noInputs [0] : AList fun _ : ℕ => Option (ItemStack (Item ℤ))).lookup
        slot ≠ some (some stack) := by
      intro slot
      rw [noInputs_lookup]
      split_ifs <;> simp
    exact hempty _ hstack
  · exact absurd hle (by decide)

/-- With one of iron for a set nothing wraps. -/
theorem exact_iff_narrow_charger : Exact (noInputs [0]) (charger 1) ⟨20, 20, [iron]⟩ := by
  refine (exact_iff_narrow (by decide) (by decide) (noInputs [0])).mpr fun target hreached => ?_
  obtain ⟨before, after, heq, -⟩ := hreached
  have hmem : target ∈ targets (charger 1).inputs [iron] := heq ▸ by simp
  obtain rfl := List.mem_singleton.mp hmem
  exact ⟨by decide, by decide⟩

end Slotted
end OCRemote
