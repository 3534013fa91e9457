import Mathlib.Algebra.Order.Ring.Int
import OCRemote.Process.Buffered

/-! A recipe that is considered and not executed: the retry loop leaves the inventory of its last
attempt behind, which is the one before unless that attempt inserted something. -/

namespace OCRemote
open Inventory hiding total
namespace Buffered

section
variable {ι ε κ : Type} [DecidableEq ι] [ItemClass ι]

/-- All inputs fit for this many sets, each into what the ones before it leave. -/
def Fits (nSets : ℤ) : Stacks ι → List (ι × ℤ) → Prop
  | _, [] => True
  | inventory, (item, size) :: inputs =>
    (insertIntoInventory inventory item (nSets * size)).2.nInserted = nSets * size ∧
      Fits nSets (insertIntoInventory inventory item (nSets * size)).1 inputs

/-- There is nothing that the first input could go onto or into. -/
def NoRoom (inventory : Stacks ι) : List (ι × ℤ) → Prop
  | [] => True
  | (item, size) :: _ => 0 < size → ∀ stack ∈ inventory, room item stack ≤ 0

/-- The size limits leave this many sets. -/
def Allowed (s : State ι ε) (recipe : BufferedRecipe ι ε κ) (inputs : ResolvedInputs ι)
    (nSets : ℤ) : Prop :=
  nSets ≤ inputs.nSets ∧ nSets ≤ s.remainingSize.tdiv (recipe.inputs.map Input.size).sum ∧
    nSets ≤ (recipe.maxInputs - (inputs.items.map s.existingSize).sum).tdiv
      (recipe.inputs.map Input.size).sum

omit [DecidableEq ι] [ItemClass ι] in
theorem le_limitedSets_iff {s : State ι ε} {recipe : BufferedRecipe ι ε κ}
    {inputs : ResolvedInputs ι} {nSets : ℤ} (hpos : 0 < nSets) :
    nSets ≤ limitedSets s recipe inputs ↔ Allowed s recipe inputs nSets := by
  simp only [limitedSets, Allowed]
  split_ifs with hle
  · constructor
    · intro h
      exact absurd (hpos.trans_le h) (not_lt.mpr hle)
    · rintro ⟨h₁, h₂, -⟩
      exact le_min h₁ h₂
  · rw [le_min_iff, le_min_iff, and_assoc]

theorem tryInputs_isSome (nSets : ℤ) (inventory : Stacks ι) (inputs : List (ι × ℤ))
    (plans : List InsertPlan) :
    (tryInputs nSets inventory inputs plans).2 ≠ none ↔ Fits nSets inventory inputs := by
  fun_induction tryInputs nSets inventory inputs plans with
  | case1 inventory plans => simp [Fits]
  | case2 inventory item size inputs plans inventory' plan heq hall ih =>
    rw [ih, Fits, heq]
    exact ⟨fun h => ⟨hall, h⟩, And.right⟩
  | case3 inventory item size inputs plans inventory' plan heq hpart =>
    rw [Fits, heq]
    exact iff_of_false (by simp) fun h => hpart h.1

/-- An attempt takes nothing out of the inventory. -/
theorem le_total_tryInputs (nSets : ℤ) (inventory : Stacks ι) (inputs : List (ι × ℤ))
    (plans : List InsertPlan) :
    Inventory.total inventory ≤ Inventory.total (tryInputs nSets inventory inputs plans).1 := by
  have hstep {inventory after : Stacks ι} {item : ι} {size : ℤ} {plan : InsertPlan}
      (heq : insertIntoInventory inventory item (nSets * size) = (after, plan)) :
      Inventory.total inventory ≤ Inventory.total after := by
    obtain ⟨after', plan', heq', hplaced, -, hpos, -⟩ :=
      insertIntoInventory_spec inventory item (nSets * size)
    obtain ⟨rfl, rfl⟩ := Prod.mk.inj (heq.symm.trans heq')
    rw [total_placeAll hplaced]
    exact le_add_of_nonneg_right (moved_nonneg hpos)
  fun_induction tryInputs nSets inventory inputs plans with
  | case1 inventory plans => exact le_rfl
  | case2 inventory item size inputs plans after plan heq hall ih => exact (hstep heq).trans ih
  | case3 inventory item size inputs plans after plan heq hpart => exact hstep heq

/-- An attempt at one set that fails leaves the inventory as it was exactly when there was no room
for the first input. -/
theorem tryInputs_one {inventory : Stacks ι} {inputs : List (ι × ℤ)}
    (hsize : ∀ p ∈ inputs, p.2 ≠ 0 ∧ (0 < p.2 → 0 < ItemClass.maxSize p.1))
    (hfail : (tryInputs 1 inventory inputs []).2 = none) :
    (tryInputs 1 inventory inputs []).1 = inventory ↔ NoRoom inventory inputs := by
  cases inputs with
  | nil => simp [tryInputs] at hfail
  | cons p inputs =>
    obtain ⟨item, size⟩ := p
    obtain ⟨hne, hmax⟩ := hsize _ (List.mem_cons_self ..)
    obtain ⟨after, plan, heq, hplaced, hn, hpos, -⟩ :=
      insertIntoInventory_spec inventory item (1 * size)
    -- the first input decides: what it is given stays, whatever the others do
    have hroom : plan.insertions = [] ↔ NoRoom inventory ((item, size) :: inputs) := by
      by_cases hlt : 0 < size
      · have hask : 0 < 1 * size := by omega
        have hfull := insertIntoInventory_full inventory item hask (hmax hlt)
        rw [heq] at hfull
        simpa [NoRoom, hlt] using hfull
      · rw [insertIntoInventory_nonpos _ _ (by omega)] at heq
        obtain ⟨-, rfl⟩ := Prod.mk.inj heq
        exact iff_of_true rfl fun h => absurd h hlt
    have hsame : plan.insertions = [] → after = inventory := by
      intro hnil
      rw [hnil] at hplaced
      exact (Option.some.inj hplaced).symm
    have hgrown : plan.insertions ≠ [] → Inventory.total inventory < Inventory.total after := by
      intro hnil
      rw [total_placeAll hplaced]
      have : 0 < moved plan.insertions := by
        obtain ⟨move, moves, hmoves⟩ := List.exists_cons_of_ne_nil hnil
        rw [hmoves] at hpos ⊢
        obtain ⟨hmove, hpos⟩ := List.forall_mem_cons.mp hpos
        rw [moved_cons]
        exact add_pos_of_pos_of_nonneg hmove (moved_nonneg hpos)
      omega
    rw [← hroom]
    simp only [tryInputs, heq]
    split_ifs with hall
    · -- all of it was inserted, so it was not nothing
      have hnil : plan.insertions ≠ [] := by
        intro hnil
        rw [hnil, moved_nil] at hn
        omega
      refine iff_of_false (fun hrest => ?_) hnil
      have := le_total_tryInputs 1 after inputs ([] ++ [plan])
      rw [hrest] at this
      exact absurd (hgrown hnil) (not_lt.mpr this)
    · constructor
      · intro hafter
        by_contra hnil
        exact absurd (hafter ▸ hgrown hnil) (lt_irrefl _)
      · exact hsame

/-- No number of sets up to `n` fits. What is left is the inventory of the attempt at one set. -/
theorem retryLoop_eq_none {backup : Stacks ι} {inputs : List (ι × ℤ)} (n : ℕ) :
    (retryLoop backup inputs n backup).2 = none ↔
      ∀ k : ℤ, 0 < k → k ≤ n → ¬ Fits k backup inputs := by
  induction n with
  | zero =>
    refine iff_of_true rfl fun k hk hle => ?_
    exact absurd (hk.trans_le hle) (lt_irrefl _)
  | succ n ih =>
    have hlast := tryInputs_isSome ((n + 1 : ℕ) : ℤ) backup inputs []
    have hsplit : (∀ k : ℤ, 0 < k → k ≤ (n + 1 : ℕ) → ¬ Fits k backup inputs) ↔
        ¬ Fits ((n + 1 : ℕ) : ℤ) backup inputs ∧
          ∀ k : ℤ, 0 < k → k ≤ n → ¬ Fits k backup inputs := by
      constructor
      · intro h
        exact ⟨h _ (by omega) le_rfl, fun k hk hle => h k hk (by omega)⟩
      · rintro ⟨h, hrest⟩ k hk hle
        rcases eq_or_lt_of_le hle with rfl | hlt
        · exact h
        · exact hrest k hk (by omega)
    rw [hsplit, ← hlast, not_not, ← ih, retryLoop]
    split
    · rename_i heq
      rw [heq]
      simp
    · rename_i heq
      rw [heq]
      split_ifs with hn
      · subst hn
        simp [retryLoop]
      · simp

theorem retryLoop_none {backup : Stacks ι} {inputs : List (ι × ℤ)} {n : ℕ} (hn : n ≠ 0)
    (h : (retryLoop backup inputs n backup).2 = none) :
    (retryLoop backup inputs n backup).1 = (tryInputs 1 backup inputs []).1 ∧
      (tryInputs 1 backup inputs []).2 = none := by
  induction n with
  | zero => exact absurd rfl hn
  | succ n ih =>
    rw [retryLoop] at h ⊢
    split at h
    · simp at h
    · rename_i heq
      split_ifs at h ⊢ with hzero
      · subst hzero
        rw [zero_add, Nat.cast_one] at heq
        rw [heq]
        exact ⟨rfl, rfl⟩
      · exact ih hzero h

variable (cfg : Config ι ε κ) (order : Enumeration ι)
  (rule : ℕ → TopRule (Provider ε) Provider.priority)

/-- The loop gets through these demands, and would go on. -/
inductive Reaches : State ι ε → List ℕ → State ι ε → Prop
  | here (s : State ι ε) : Reaches s [] s
  | skipped {s s' s'' : State ι ε} {iRecipe : ℕ} {demands : List ℕ}
      (h : onDemand cfg order rule s iRecipe = some (.skipped s'))
      (hrest : Reaches s' demands s'') : Reaches s (iRecipe :: demands) s''
  | executed {s s' s'' : State ι ε} {iRecipe : ℕ} {demands : List ℕ}
      (h : onDemand cfg order rule s iRecipe = some (.executed s')) (hleft : ¬ s'.remainingSize ≤ 0)
      (hrest : Reaches s' demands s'') : Reaches s (iRecipe :: demands) s''

/-- After a recipe that is not executed the rest of the run sees what was there before it, and
ends as a run without that recipe does. -/
def LeavesNoTrace (s : State ι ε) (demands : List ℕ) : Prop :=
  ∀ before iRecipe after s₁ s₂, demands = before ++ iRecipe :: after →
    Reaches cfg order rule s before s₁ → onDemand cfg order rule s₁ iRecipe = some (.skipped s₂) →
    s₂.inventory = s₁.inventory ∧ s₂.existingSize = s₁.existingSize ∧
      s₂.remainingSize = s₁.remainingSize ∧
      recipeLoop cfg order rule s (before ++ iRecipe :: after) =
        recipeLoop cfg order rule s (before ++ after)

/-- Where the limits leave a set, some number of sets that they allow fits, or the first input has
no room at all. -/
def FitsOrNoRoom (s : State ι ε) (iRecipe : ℕ) : Prop :=
  ∀ recipe inputs, cfg.recipes[iRecipe]? = some recipe →
    resolveInputs order s.factory.items recipe.inputs = some (some inputs) →
    Allowed s recipe inputs 1 →
    (∃ nSets, 0 < nSets ∧ Allowed s recipe inputs nSets ∧
      Fits nSets s.inventory (inputs.items.zip (recipe.inputs.map Input.size))) ∨
    NoRoom s.inventory (inputs.items.zip (recipe.inputs.map Input.size))

variable {cfg order rule}

theorem Reaches.recipeLoop_append {s s' : State ι ε} {before : List ℕ}
    (h : Reaches cfg order rule s before s') (demands : List ℕ) :
    recipeLoop cfg order rule s (before ++ demands) = recipeLoop cfg order rule s' demands := by
  induction h with
  | here s => rfl
  | skipped h hrest ih => rw [List.cons_append, recipeLoop, h, ← ih]
  | executed h hleft hrest ih =>
    rw [List.cons_append, recipeLoop, h, ← ih]
    exact if_neg hleft

/-- What a resolved recipe asks for at once is neither nothing nor more than a stack. -/
theorem resolved_size {t : ItemTable ι ε} {inputs : List (Input ι)} {r : ResolvedInputs ι}
    (h : resolveInputs order t inputs = some (some r)) :
    ∀ p ∈ r.items.zip (inputs.map Input.size), p.2 ≠ 0 ∧ (0 < p.2 → 0 < ItemClass.maxSize p.1) := by
  intro p hp
  obtain ⟨hpos, -, -, hbound⟩ := resolveInputs_found h
  have hdiv : 0 < (ItemClass.maxSize p.1).tdiv p.2 := hpos.trans_le (hbound p hp)
  refine ⟨fun hzero => ?_, fun hsize => ?_⟩
  · simp [hzero] at hdiv
  · by_contra hmax
    have := Int.tdiv_nonneg (neg_nonneg.mpr (not_lt.mp hmax)) hsize.le
    rw [Int.neg_tdiv] at this
    omega

/-- A recipe that is skipped changes the inventory at most. -/
theorem onDemand_skipped {s s' : State ι ε} {iRecipe : ℕ}
    (h : onDemand cfg order rule s iRecipe = some (.skipped s')) :
    s' = { s with inventory := s'.inventory } ∧
      (s'.inventory = s.inventory ↔ FitsOrNoRoom cfg order s iRecipe) := by
  unfold onDemand at h
  cases hrecipe : cfg.recipes[iRecipe]? with
  | none => simp [hrecipe] at h
  | some recipe =>
    simp only [hrecipe] at h
    cases hinputs : resolveInputs order s.factory.items recipe.inputs with
    | none => simp [hinputs] at h
    | some found =>
      rw [hinputs] at h
      cases found with
      | none =>
        obtain rfl : s = s' := by simpa using h
        refine ⟨rfl, iff_of_true rfl fun recipe' inputs hrecipe' hinputs' => ?_⟩
        obtain rfl := Option.some.inj (hrecipe.symm.trans hrecipe')
        simp [hinputs] at hinputs'
      | some inputs =>
        have hiff : FitsOrNoRoom cfg order s iRecipe ↔ (Allowed s recipe inputs 1 →
            (∃ nSets, 0 < nSets ∧ Allowed s recipe inputs nSets ∧
              Fits nSets s.inventory (inputs.items.zip (recipe.inputs.map Input.size))) ∨
            NoRoom s.inventory (inputs.items.zip (recipe.inputs.map Input.size))) := by
          constructor
          · exact fun h => h recipe inputs hrecipe hinputs
          · intro h recipe' inputs' hrecipe' hinputs'
            obtain rfl := Option.some.inj (hrecipe.symm.trans hrecipe')
            obtain rfl := Option.some.inj (Option.some.inj (hinputs.symm.trans hinputs'))
            exact h
        rw [hiff]
        simp only at h
        split_ifs at h with hdiv hlimit
        · obtain rfl : s = s' := by simpa using h
          refine ⟨rfl, iff_of_true rfl fun hone => ?_⟩
          exact absurd ((le_limitedSets_iff one_pos).mpr hone) (by omega)
        · have hone : 1 ≤ limitedSets s recipe inputs := not_le.mp hlimit
          have htoNat : ((limitedSets s recipe inputs).toNat : ℤ) =
              limitedSets s recipe inputs := by
            omega
          split at h
          · rename_i inventory heq
            obtain rfl : { s with inventory := inventory } = s' := by simpa using h
            have hnone := congrArg Prod.snd heq
            obtain ⟨hlast, hfail⟩ := retryLoop_none (by omega) hnone
            rw [retryLoop_eq_none, htoNat] at hnone
            refine ⟨rfl, ?_⟩
            rw [heq] at hlast
            simp only at hlast ⊢
            rw [hlast, tryInputs_one (resolved_size hinputs) hfail]
            constructor
            · exact fun hroom _ => .inr hroom
            · intro h
              refine (h ((le_limitedSets_iff one_pos).mp hone)).resolve_left ?_
              rintro ⟨nSets, hpos, hallowed, hfits⟩
              exact hnone nSets hpos ((le_limitedSets_iff hpos).mpr hallowed) hfits
          · split at h <;> simp at h

variable (rule) in
/-- A recipe that does not fit although there is room is skipped. -/
theorem exists_skipped {s : State ι ε} {iRecipe : ℕ} (h : ¬ FitsOrNoRoom cfg order s iRecipe) :
    ∃ s', onDemand cfg order rule s iRecipe = some (.skipped s') := by
  simp only [FitsOrNoRoom, not_forall, not_or, not_exists, not_and] at h
  obtain ⟨recipe, inputs, hrecipe, hinputs, hone, hfits, -⟩ := h
  have hdiv : (recipe.inputs.map Input.size).sum ≠ 0 := by
    intro hzero
    have := hone.2.1
    rw [hzero, Int.tdiv_zero] at this
    omega
  have hlimit : 1 ≤ limitedSets s recipe inputs := (le_limitedSets_iff one_pos).mpr hone
  have hnone : (retryLoop s.inventory (inputs.items.zip (recipe.inputs.map Input.size))
      (limitedSets s recipe inputs).toNat s.inventory).2 = none := by
    rw [retryLoop_eq_none]
    intro k hpos hle
    exact hfits k hpos ((le_limitedSets_iff hpos).mp (by omega))
  obtain ⟨inventory, hinventory⟩ : ∃ inventory, retryLoop s.inventory
      (inputs.items.zip (recipe.inputs.map Input.size)) (limitedSets s recipe inputs).toNat
      s.inventory = (inventory, none) := ⟨_, Prod.ext rfl hnone⟩
  refine ⟨{ s with inventory := inventory }, ?_⟩
  unfold onDemand
  simp only [hrecipe, hinputs, if_neg hdiv,
    if_neg (show ¬ limitedSets s recipe inputs ≤ 0 by omega),
    hinventory]

/-- Rejected recipes leave no trace exactly when every recipe that the run considers either fits or
has no room at all. -/
theorem leavesNoTrace_iff (cfg : Config ι ε κ) (order : Enumeration ι)
    (rule : ℕ → TopRule (Provider ε) Provider.priority) (s : State ι ε) (demands : List ℕ) :
    LeavesNoTrace cfg order rule s demands ↔
      ∀ before iRecipe after s₁, demands = before ++ iRecipe :: after →
        Reaches cfg order rule s before s₁ → FitsOrNoRoom cfg order s₁ iRecipe := by
  constructor
  · intro h before iRecipe after s₁ hsplit hreach
    by_contra hnot
    obtain ⟨s₂, hskip⟩ := exists_skipped rule hnot
    have hinventory := (h before iRecipe after s₁ s₂ hsplit hreach hskip).1
    exact hnot ((onDemand_skipped hskip).2.mp hinventory)
  · intro h before iRecipe after s₁ s₂ hsplit hreach hskip
    obtain ⟨hrest, hiff⟩ := onDemand_skipped hskip
    have hinventory := hiff.mpr (h before iRecipe after s₁ hsplit hreach)
    have hsame : s₂ = s₁ := by rw [hrest, hinventory]
    subst hsame
    refine ⟨rfl, rfl, rfl, ?_⟩
    rw [hreach.recipeLoop_append, hreach.recipeLoop_append, recipeLoop, hskip]

end

def goldRecipe : BufferedRecipe (Item ℤ) ℕ ℤ where
  outputs _ := some 1
  inputs := [⟨.Label "Gold", 1, false, 0⟩]
  maxInputs := 64

def pairRecipe : BufferedRecipe (Item ℤ) ℕ ℤ where
  outputs _ := some 2
  inputs := [⟨.Label "Iron", 1, false, 0⟩, ⟨.Label "Gold", 1, false, 0⟩]
  maxInputs := 64

def buffer (recipes : List (BufferedRecipe (Item ℤ) ℕ ℤ)) : Config (Item ℤ) ℕ ℤ :=
  ⟨none, none, recipes, 64, []⟩

/-- One empty slot: the iron of the first recipe stays in it in the model, so the gold of the second
recipe is not inserted, although it is in a run without the first. -/
theorem pairRecipe_leaves_iron :
    ((run (Item.jammer ℤ) (buffer [pairRecipe, goldRecipe]) ⟨id, List.Perm.refl⟩
      (fun _ => MaxHeap.firstTop _) (· * ·) fiveEach [none]).map fun s => s.tasks.length) = some 0 ∧
    ((run (Item.jammer ℤ) (buffer [goldRecipe]) ⟨id, List.Perm.refl⟩
      (fun _ => MaxHeap.firstTop _) (· * ·) fiveEach [none]).map fun s => s.tasks.length) = some 1 ∧
    ¬ LeavesNoTrace (buffer [pairRecipe, goldRecipe]) ⟨id, List.Perm.refl⟩
      (fun _ => MaxHeap.firstTop _) ⟨fiveEach, [none], 64, fun _ => 0, []⟩ [0, 1] := by
  refine ⟨by decide +kernel, by decide +kernel, fun h => ?_⟩
  have hsame := (h [] 0 [1] _ _ rfl (.here _) rfl).1
  exact absurd hsame (by decide +kernel)

end Buffered
end OCRemote
