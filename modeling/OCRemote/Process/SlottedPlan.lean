import Mathlib.Data.Finset.Image
import OCRemote.Factory.InventoryCover
import OCRemote.Process.Slotted

/-! What a slotted process executes: the first demand that admits a set, for as many sets as it
admits. -/

namespace OCRemote
open Tally
namespace Slotted

section
variable {α ι ε κ : Type} [DecidableEq α] [DecidableEq ι] [ItemClass ι]

/-- There are so many sets for a recipe with these items: no occupied input slot is left out, those
of the recipe hold the right item and get no more than they may, and the stock lasts. `at` is what
was listed in a slot. -/
structure Admits (inputSlots : List α) (content : α → Option (ItemStack ι)) (table : ItemTable ι ε)
    (recipe : SlotRecipe α ι ε κ) (items : List ι) (nSets : ℤ) : Prop where
  used : ∀ slot ∈ inputSlots, ∀ stack, content slot = some stack →
    ∃ target ∈ targets recipe.inputs items, target.2.1 = slot
  item : ∀ target ∈ targets recipe.inputs items, ∀ stack, content target.2.1 = some stack →
    stack.item = target.1
  room : ∀ target ∈ targets recipe.inputs items,
    Inventory.amount (content target.2.1) +
        nSets * sumOf target.2.1 ((targets recipe.inputs items).map Prod.snd) ≤
      min (recipe.maxSets * target.2.2) (ItemClass.maxSize target.1)
  available : ∀ item ∈ items, nSets * needed item (items.zip (recipe.inputs.map SlotInput.toInput)) ≤
    firstAvailability table item (items.zip (recipe.inputs.map SlotInput.toInput))
  stack : ∀ p ∈ items.zip recipe.inputs, nSets * p.2.size ≤ ItemClass.maxSize p.1

/-- A recipe as it has to be configured. -/
structure RecipeOk (inputSlots : List α) (recipe : SlotRecipe α ι ε κ) : Prop where
  inputs : recipe.inputs ≠ []
  slots : ∀ input ∈ recipe.inputs, input.slots ≠ []
  positive : ∀ input ∈ recipe.inputs, 0 < input.size ∧ ∀ slot ∈ input.slots, 0 < slot.2
  distinct : ((recipe.inputs.flatMap SlotInput.slots).map Prod.fst).Nodup
  configured : ∀ input ∈ recipe.inputs, ∀ slot ∈ input.slots, slot.1 ∈ inputSlots

/-! One slot after another. -/

/-- A slot takes its part of so many sets. -/
def SlotFits (existing : AList fun _ : α => Option (ItemStack ι)) (maxSets nSets : ℤ)
    (target : ι × α × ℤ) : Prop :=
  ∃ existingInput, existing.lookup target.2.1 = some existingInput ∧
    (∀ stack, existingInput = some stack → stack.item = target.1) ∧
    Inventory.amount existingInput + nSets * target.2.2 ≤
      min (maxSets * target.2.2) (ItemClass.maxSize target.1)

theorem narrowLoop_spec {existing : AList fun _ : α => Option (ItemStack ι)} {maxSets : ℤ}
    {rest : List (ι × α × ℤ)} (hmult : ∀ target ∈ rest, 0 < target.2.2) {nSets : ℤ}
    {usedSlots : Finset α} {result : Option (ℤ × Finset α)} (hpos : 0 < nSets)
    (h : narrowLoop existing maxSets rest nSets usedSlots = some result) :
    (∀ r, result = some r → 0 < r.1 ∧
      (∀ slot, slot ∈ r.2 ↔ slot ∈ usedSlots ∨ ∃ target ∈ rest, target.2.1 = slot) ∧
      ∀ n, 0 < n → (n ≤ r.1 ↔ n ≤ nSets ∧ ∀ target ∈ rest, SlotFits existing maxSets n target)) ∧
    (result = none → ∀ n, 0 < n → n ≤ nSets →
      ¬ ∀ target ∈ rest, SlotFits existing maxSets n target) := by
  induction rest generalizing nSets usedSlots with
  | nil =>
    obtain rfl := Option.some.inj h
    refine ⟨?_, by simp⟩
    rintro r hr
    obtain rfl := Option.some.inj hr
    exact ⟨hpos, by simp, by simp⟩
  | cons target rest ih =>
    obtain ⟨item, slot, mult⟩ := target
    obtain ⟨hfirst, hmult⟩ := List.forall_mem_cons.mp hmult
    rw [narrowLoop] at h
    cases hlookup : existing.lookup slot with
    | none => simp [hlookup] at h
    | some existingInput =>
      simp only [hlookup] at h
      have hfits (n : ℤ) (hn : 0 < n) : SlotFits existing maxSets n (item, slot, mult) ↔
          (∀ stack, existingInput = some stack → stack.item = item) ∧
            n ≤ (min (maxSets * mult) (ItemClass.maxSize item) -
              Inventory.amount existingInput).tdiv mult := by
        rw [le_tdiv_iff hn hfirst]
        simp only [SlotFits, hlookup, Option.some.injEq, exists_eq_left']
        exact and_congr_right fun _ => by omega
      split_ifs at h with hitem hzero hnone
      · obtain rfl := Option.some.inj h
        refine ⟨by simp, fun _ n hn _ hall => ?_⟩
        obtain ⟨stack, rfl, hne⟩ := (Option.any_eq_true _ _).mp hitem
        exact of_decide_eq_true hne (((hfits n hn).mp (hall _ (List.mem_cons_self ..))).1 stack rfl)
      · obtain rfl := Option.some.inj h
        refine ⟨by simp, fun _ n hn hle hall => ?_⟩
        have := ((hfits n hn).mp (hall _ (List.mem_cons_self ..))).2
        exact absurd (hn.trans_le (le_min hle this)) (not_lt.mpr hnone)
      · have hsame : ∀ stack, existingInput = some stack → stack.item = item := by
          intro stack hstack
          by_contra hne
          exact hitem ((Option.any_eq_true _ _).mpr ⟨stack, hstack, decide_eq_true hne⟩)
        have hnext (n : ℤ) (hn : 0 < n) : (n ≤ nSets ∧
            ∀ target ∈ (item, slot, mult) :: rest, SlotFits existing maxSets n target) ↔
              n ≤ min nSets ((min (maxSets * mult) (ItemClass.maxSize item) -
                existingInput.elim 0 ItemStack.size).tdiv mult) ∧
              ∀ target ∈ rest, SlotFits existing maxSets n target := by
          rw [List.forall_mem_cons, hfits n hn, le_min_iff]
          constructor
          · rintro ⟨hle, ⟨-, hle'⟩, hrest⟩
            exact ⟨⟨hle, hle'⟩, hrest⟩
          · rintro ⟨⟨hle, hle'⟩, hrest⟩
            exact ⟨hle, ⟨hsame, hle'⟩, hrest⟩
        obtain ⟨hsome, hnone'⟩ := ih hmult (not_le.mp hnone) h
        constructor
        · intro r hr
          obtain ⟨hr, hused, hiff⟩ := hsome r hr
          refine ⟨hr, fun other => ?_, fun n hn => ?_⟩
          · rw [hused, Finset.mem_insert]
            simp only [List.mem_cons, exists_eq_or_imp]
            rw [eq_comm, or_assoc, or_left_comm]
          · rw [hiff n hn, hnext n hn]
        · intro hr n hn hle hall
          obtain ⟨hle', hall'⟩ := (hnext n hn).mp ⟨hle, hall⟩
          exact hnone' hr n hn hle' hall'

/-! What the loop over the listings leaves. -/

/-- What was listed in a slot, the first slot of the listing being that of some number. -/
def listedAt (name : ℕ → α) : ℕ → Stacks ι → α → Option (ItemStack ι)
  | _, [], _ => none
  | slot, stack :: listing, other =>
    (listedAt name (slot + 1) listing other).or (if name slot = other then stack else none)

omit [DecidableEq ι] in
theorem listLoop_lookup (toExtract : Option (α → ItemStack ι → Bool)) (name : ℕ → α) (slot : ℕ)
    (listing : Stacks ι) (found : Found α ι) (other : α) :
    (listLoop toExtract name slot listing found).existing.lookup other =
      (found.existing.lookup other).map fun old => (listedAt name slot listing other).or old := by
  induction listing generalizing slot found with
  | nil => simp [listLoop, listedAt]
  | cons stack listing ih =>
    have hstep : (onStack toExtract found (name slot) stack).existing.lookup other =
        (found.existing.lookup other).map fun old =>
          (if name slot = other then stack else none).or old := by
      cases stack with
      | none => simp [onStack]
      | some stack =>
        by_cases hslot : name slot ∈ found.existing
        · simp only [onStack, if_pos hslot]
          by_cases hother : name slot = other
          · subst hother
            obtain ⟨old, hold⟩ := Option.isSome_iff_exists.mp (AList.lookup_isSome.mpr hslot)
            simp [hold]
          · simp [hother, AList.lookup_insert_ne (Ne.symm hother)]
        · have hsame : (onStack toExtract found (name slot) (some stack)).existing =
              found.existing := by
            simp only [onStack, if_neg hslot]
            split
            · rfl
            · split_ifs <;> rfl
          rw [hsame]
          by_cases hother : name slot = other
          · subst hother
            rw [AList.lookup_eq_none.mpr hslot, Option.map_none]
          · simp [hother]
    rw [listLoop, ih, hstep, Option.map_map, listedAt]
    simp [Function.comp_def, Option.or_assoc]

omit [DecidableEq ι] [ItemClass ι] in
theorem listedAt_of_ne {name : ℕ → α} {slot : ℕ} {listing : Stacks ι} {other : α}
    (h : ∀ k, name (slot + k) ≠ other) : listedAt name slot listing other = none := by
  induction listing generalizing slot with
  | nil => rfl
  | cons stack listing ih =>
    rw [listedAt, if_neg (show name slot ≠ other from h 0), Option.or_none]
    refine ih fun k => ?_
    rw [show slot + 1 + k = slot + (k + 1) by omega]
    exact h (k + 1)

omit [DecidableEq ι] [ItemClass ι] in
theorem listedAt_name {name : ℕ → α} (hname : Function.Injective name) (slot k : ℕ)
    (listing : Stacks ι) : listedAt name slot listing (name (slot + k)) = listing[k]?.join := by
  induction listing generalizing slot k with
  | nil => rfl
  | cons stack listing ih =>
    cases k with
    | zero =>
      have hlater : listedAt name (slot + 1) listing (name slot) = none :=
        listedAt_of_ne fun k => hname.ne (by omega)
      rw [listedAt, add_zero, hlater, if_pos rfl, Option.none_or]
      rfl
    | succ k =>
      have hne : name slot ≠ name (slot + (k + 1)) := hname.ne (by omega)
      rw [listedAt, if_neg hne, Option.or_none, show slot + (k + 1) = slot + 1 + k by omega, ih]
      rfl

omit [DecidableEq ι] [ItemClass ι] in
theorem noInputs_lookup (inputSlots : List α) (slot : α) :
    (noInputs inputSlots : AList fun _ => Option (ItemStack ι)).lookup slot =
      if slot ∈ inputSlots then some none else none := by
  have hfold (existing : AList fun _ : α => Option (ItemStack ι)) :
      (inputSlots.foldl (fun existing slot => existing.insert slot none) existing).lookup slot =
        if slot ∈ inputSlots then some none else existing.lookup slot := by
    induction inputSlots generalizing existing with
    | nil => rfl
    | cons first inputSlots ih =>
      rw [List.foldl_cons, ih]
      by_cases hfirst : slot = first
      · subst hfirst
        rw [AList.lookup_insert, ite_self, if_pos (List.mem_cons_self ..)]
      · simp [hfirst]
  exact hfold ∅

/-! What a demand admits. -/

omit [DecidableEq α] [DecidableEq ι] [ItemClass ι] in
theorem targets_slots {inputs : List (SlotInput α ι)} {items : List ι}
    (hlen : items.length = inputs.length) :
    (targets inputs items).map Prod.snd = inputs.flatMap SlotInput.slots := by
  induction inputs generalizing items with
  | nil => rfl
  | cons input inputs ih =>
    cases items with
    | nil => simp at hlen
    | cons item items =>
      have hrest : targets (input :: inputs) (item :: items) =
          input.slots.map (Prod.mk item) ++ targets inputs items := rfl
      rw [hrest, List.map_append, ih (by simpa using hlen), List.flatMap_cons, List.map_map]
      simp [Function.comp_def]

omit [DecidableEq α] [DecidableEq ι] [ItemClass ι] in
theorem mem_targets {inputs : List (SlotInput α ι)} {items : List ι} {target : ι × α × ℤ}
    (h : target ∈ targets inputs items) :
    ∃ input ∈ inputs, target.1 ∈ items ∧ target.2 ∈ input.slots := by
  obtain ⟨⟨input, item⟩, hp, h⟩ := List.mem_flatMap.mp h
  obtain ⟨slot, hslot, rfl⟩ := List.mem_map.mp h
  exact ⟨input, (List.of_mem_zip hp).1, (List.of_mem_zip hp).2, hslot⟩

variable {inputSlots : List α} {content : α → Option (ItemStack ι)} {table : ItemTable ι ε}
  {recipe : SlotRecipe α ι ε κ} {inputs : ResolvedInputs ι} {order : Enumeration ι}

omit [DecidableEq α] in
/-- The bounds that are resolved before any slot is looked at. -/
theorem le_nSets_iff (hrecipe : RecipeOk inputSlots recipe)
    (hinputs : resolveInputs order table (recipe.inputs.map SlotInput.toInput) = some (some inputs))
    (hmax : ∀ item ∈ table.items, ItemClass.maxSize item ≤ i32Max) {n : ℤ} (hn : 0 < n) :
    n ≤ inputs.nSets ↔
      (∀ p ∈ inputs.items.zip recipe.inputs, n * p.2.size ≤ ItemClass.maxSize p.1) ∧
      ∀ item ∈ inputs.items,
        n * needed item (inputs.items.zip (recipe.inputs.map SlotInput.toInput)) ≤
          firstAvailability table item (inputs.items.zip (recipe.inputs.map SlotInput.toInput)) := by
  obtain ⟨-, hlen, htable, -⟩ := resolveInputs_found hinputs
  rw [List.length_map] at hlen
  have hsizes : (∀ p ∈ inputs.items.zip ((recipe.inputs.map SlotInput.toInput).map Input.size),
      n ≤ (ItemClass.maxSize p.1).tdiv p.2) ↔
        ∀ p ∈ inputs.items.zip recipe.inputs, n * p.2.size ≤ ItemClass.maxSize p.1 := by
    rw [List.map_map, List.zip_map_right, List.forall_mem_map]
    refine forall₂_congr fun p hp => ?_
    exact le_tdiv_iff hn (hrecipe.positive p.2 (List.of_mem_zip hp).2).1
  have hneeded (item : ι) (hitem : item ∈ inputs.items) :
      0 < needed item (inputs.items.zip (recipe.inputs.map SlotInput.toInput)) := by
    obtain ⟨k, hk, rfl⟩ := List.mem_iff_getElem.mp hitem
    have hk' : k < (inputs.items.zip (recipe.inputs.map SlotInput.toInput)).length := by
      simp
      omega
    have hpos : ∀ d ∈ (inputs.items.zip (recipe.inputs.map SlotInput.toInput)).map
        fun p => (p.1, p.2.size), 0 < d.2 := by
      intro d hd
      obtain ⟨p, hp, rfl⟩ := List.mem_map.mp hd
      obtain ⟨input, hinput, heq⟩ := List.mem_map.mp (List.of_mem_zip hp).2
      exact heq ▸ (hrecipe.positive input hinput).1
    have hmem := List.mem_map_of_mem (f := fun p : ι × Input ι => (p.1, p.2.size))
      (List.getElem_mem hk')
    have hle := le_sumOf (fun d hd => (hpos d hd).le) hmem
    rw [List.getElem_zip] at hmem hle
    exact (hpos _ hmem).trans_le hle
  rw [resolveInputs_le_iff hinputs, hsizes]
  constructor
  · rintro ⟨-, hstack, havailable⟩
    exact ⟨hstack, fun item hitem => (le_tdiv_iff hn (hneeded item hitem)).mp (havailable item hitem)⟩
  · rintro ⟨hstack, havailable⟩
    refine ⟨?_, hstack, fun item hitem => (le_tdiv_iff hn (hneeded item hitem)).mpr
      (havailable item hitem)⟩
    -- the first input alone keeps the number within an `i32`
    obtain ⟨input, rest, hfirst⟩ := List.exists_cons_of_ne_nil hrecipe.inputs
    obtain ⟨item, items, hitems⟩ : ∃ item items, inputs.items = item :: items := by
      cases hitems : inputs.items with
      | nil => simp [hitems, hfirst] at hlen
      | cons item items => exact ⟨item, items, rfl⟩
    have hle := hstack (item, input) (by rw [hitems, hfirst]; exact List.mem_cons_self ..)
    have hsize := (hrecipe.positive input (by rw [hfirst]; exact List.mem_cons_self ..)).1
    have htop := hmax item (htable item (by rw [hitems]; exact List.mem_cons_self ..))
    exact (le_mul_of_one_le_right hn.le hsize).trans (hle.trans htop)

/-- The loop looks at everything that decides whether sets are admitted. -/
theorem admits_iff_slotFits {existing : AList fun _ : α => Option (ItemStack ι)}
    (hexisting : ∀ slot, existing.lookup slot = if slot ∈ inputSlots then some (content slot) else none)
    (hrecipe : RecipeOk inputSlots recipe)
    (hinputs : resolveInputs order table (recipe.inputs.map SlotInput.toInput) = some (some inputs))
    (hmax : ∀ item ∈ table.items, ItemClass.maxSize item ≤ i32Max) {n : ℤ} (hn : 0 < n) :
    Admits inputSlots content table recipe inputs.items n ↔
      (n ≤ inputs.nSets ∧ ∀ target ∈ targets recipe.inputs inputs.items,
        SlotFits existing recipe.maxSets n target) ∧
      ∀ slot stack, existing.lookup slot = some (some stack) →
        ∃ target ∈ targets recipe.inputs inputs.items, target.2.1 = slot := by
  obtain ⟨-, hlen, -, -⟩ := resolveInputs_found hinputs
  rw [List.length_map] at hlen
  have hslots := targets_slots hlen
  have hfits (target : ι × α × ℤ) (htarget : target ∈ targets recipe.inputs inputs.items) :
      SlotFits existing recipe.maxSets n target ↔
        (∀ stack, content target.2.1 = some stack → stack.item = target.1) ∧
        Inventory.amount (content target.2.1) +
            n * sumOf target.2.1 ((targets recipe.inputs inputs.items).map Prod.snd) ≤
          min (recipe.maxSets * target.2.2) (ItemClass.maxSize target.1) := by
    obtain ⟨input, hinput, -, hslot⟩ := mem_targets htarget
    have hshare : sumOf target.2.1 ((targets recipe.inputs inputs.items).map Prod.snd) = target.2.2 :=
      sumOf_of_nodup (hslots ▸ hrecipe.distinct) (List.mem_map_of_mem htarget)
    rw [SlotFits, hexisting, if_pos (hrecipe.configured input hinput _ hslot), hshare]
    simp
  have hused : (∀ slot stack, existing.lookup slot = some (some stack) →
      ∃ target ∈ targets recipe.inputs inputs.items, target.2.1 = slot) ↔
        ∀ slot ∈ inputSlots, ∀ stack, content slot = some stack →
          ∃ target ∈ targets recipe.inputs inputs.items, target.2.1 = slot := by
    constructor
    · intro h slot hslot stack hstack
      exact h slot stack (by rw [hexisting, if_pos hslot, hstack])
    · intro h slot stack hlookup
      rw [hexisting] at hlookup
      split_ifs at hlookup with hslot
      exact h slot hslot stack (Option.some.inj hlookup)
  rw [le_nSets_iff hrecipe hinputs hmax hn, hused]
  constructor
  · intro h
    exact ⟨⟨⟨h.stack, h.available⟩, fun target htarget =>
      (hfits target htarget).mpr ⟨h.item target htarget, h.room target htarget⟩⟩, h.used⟩
  · rintro ⟨⟨⟨hstack, havailable⟩, hall⟩, hused⟩
    exact ⟨hused, fun target htarget => ((hfits target htarget).mp (hall target htarget)).1,
      fun target htarget => ((hfits target htarget).mp (hall target htarget)).2, havailable, hstack⟩

/-- A demand is judged by what it admits. -/
theorem narrow_admits {existing : AList fun _ : α => Option (ItemStack ι)}
    (hexisting : ∀ slot, existing.lookup slot = if slot ∈ inputSlots then some (content slot) else none)
    (hrecipe : RecipeOk inputSlots recipe)
    (hinputs : resolveInputs order table (recipe.inputs.map SlotInput.toInput) = some (some inputs))
    (hmax : ∀ item ∈ table.items, ItemClass.maxSize item ≤ i32Max) {result : Option ℤ}
    (h : narrow existing recipe inputs = some result) :
    (∀ nSets, result = some nSets → 0 < nSets ∧
      ∀ n, 0 < n → (n ≤ nSets ↔ Admits inputSlots content table recipe inputs.items n)) ∧
    (result = none → ∀ n, 0 < n → ¬ Admits inputSlots content table recipe inputs.items n) := by
  have hpos := (resolveInputs_found hinputs).1
  have hmult : ∀ target ∈ targets recipe.inputs inputs.items, 0 < target.2.2 := by
    intro target htarget
    obtain ⟨input, hinput, -, hslot⟩ := mem_targets htarget
    exact (hrecipe.positive input hinput).2 _ hslot
  have hadmits (n : ℤ) (hn : 0 < n) := admits_iff_slotFits hexisting hrecipe hinputs hmax hn
  unfold narrow at h
  split at h
  · simp at h
  · rename_i hloop
    obtain ⟨-, hnone⟩ := narrowLoop_spec hmult hpos hloop
    obtain rfl := Option.some.inj h
    refine ⟨by simp, fun _ n hn hall => ?_⟩
    obtain ⟨⟨hle, hall⟩, -⟩ := (hadmits n hn).mp hall
    exact hnone rfl n hn hle hall
  · rename_i nSets usedSlots hloop
    obtain ⟨hsome, -⟩ := narrowLoop_spec hmult hpos hloop
    obtain ⟨hr, hused, hiff⟩ := hsome _ rfl
    have hleft : isLeftOver existing usedSlots = true ↔ ¬ ∀ slot stack,
        existing.lookup slot = some (some stack) →
          ∃ target ∈ targets recipe.inputs inputs.items, target.2.1 = slot := by
      rw [isLeftOver_iff]
      simp only [not_forall, hused, Finset.notMem_empty, false_or]
      constructor
      · rintro ⟨slot, stack, hlookup, hnot⟩
        exact ⟨slot, stack, hlookup, hnot⟩
      · rintro ⟨slot, stack, hlookup, hnot⟩
        exact ⟨slot, stack, hlookup, hnot⟩
    split_ifs at h with hover
    · obtain rfl := Option.some.inj h
      exact ⟨by simp, fun _ n hn hall => hleft.mp hover ((hadmits n hn).mp hall).2⟩
    · obtain rfl := Option.some.inj h
      rw [hleft, not_not] at hover
      refine ⟨?_, by simp⟩
      rintro _ ⟨⟩
      refine ⟨hr, fun n hn => ?_⟩
      rw [hiff n hn, hadmits n hn]
      exact (and_iff_left hover).symm

/-! What a run executes. -/

omit [DecidableEq α] [DecidableEq ι] [ItemClass ι] in
theorem recipeLoop_spec {turn : Demand ι κ → Option (Option ℤ)} {demands : List (Demand ι κ)}
    {chosen : Option (Demand ι κ × ℤ)} (h : recipeLoop turn demands = some chosen) :
    (chosen = none → ∀ d ∈ demands, turn d = some none) ∧
    ∀ c, chosen = some c → ∃ before after, demands = before ++ c.1 :: after ∧
      turn c.1 = some (some c.2) ∧ ∀ d ∈ before, turn d = some none := by
  induction demands with
  | nil =>
    obtain rfl := Option.some.inj h
    simp
  | cons demand demands ih =>
    rw [recipeLoop] at h
    split at h
    · simp at h
    · rename_i hskip
      obtain ⟨hnone, hsome⟩ := ih h
      refine ⟨fun hc => List.forall_mem_cons.mpr ⟨hskip, hnone hc⟩, fun c hc => ?_⟩
      obtain ⟨before, after, rfl, hturn, hbefore⟩ := hsome c hc
      exact ⟨demand :: before, after, rfl, hturn, List.forall_mem_cons.mpr ⟨hskip, hbefore⟩⟩
    · rename_i nSets hturn
      obtain rfl := Option.some.inj h
      refine ⟨by simp, ?_⟩
      rintro _ ⟨⟩
      exact ⟨[], demands, rfl, hturn, by simp⟩

/-- The demand admits this number of sets. -/
def Demand.Admits (inputSlots : List α) (content : α → Option (ItemStack ι)) (table : ItemTable ι ε)
    (recipes : List (SlotRecipe α ι ε κ)) (demand : Demand ι κ) (nSets : ℤ) : Prop :=
  ∃ recipe, recipes[demand.iRecipe]? = some recipe ∧
    Slotted.Admits inputSlots content table recipe demand.inputs.items nSets

/-- A run executes the first demand that admits a set, for the most sets that it admits, or nothing
when there is none. -/
structure Planned (inputSlots : List α) (content : α → Option (ItemStack ι)) (table : ItemTable ι ε)
    (recipes : List (SlotRecipe α ι ε κ)) (demands : List (Demand ι κ)) (run : Run α ι ε) : Prop where
  idle : run.executed = none → ∀ d ∈ demands, ¬ Demand.Admits inputSlots content table recipes d 1
  executed : ∀ e, run.executed = some e → ∃ before d after recipe,
    demands = before ++ d :: after ∧ recipes[d.iRecipe]? = some recipe ∧ e.iRecipe = d.iRecipe ∧
      e.items = d.inputs.items ∧ e.transfers = transfers e.nSets 0 recipe.inputs ∧ 1 ≤ e.nSets ∧
      Demand.Admits inputSlots content table recipes d e.nSets ∧
      (∀ n, Demand.Admits inputSlots content table recipes d n → n ≤ e.nSets) ∧
      ∀ d' ∈ before, ¬ Demand.Admits inputSlots content table recipes d' 1

theorem plan_planned {rule : TopRule (Provider ε) Provider.priority} {factory : Factory ι ε}
    {recipes : List (SlotRecipe α ι ε κ)} {found : Found α ι} {demands : List (Demand ι κ)}
    (hexisting : ∀ slot, found.existing.lookup slot =
      if slot ∈ inputSlots then some (content slot) else none)
    (hrecipes : ∀ recipe ∈ recipes, RecipeOk inputSlots recipe)
    (hdemands : ∀ d ∈ demands, ∃ recipe, recipes[d.iRecipe]? = some recipe ∧
      resolveInputs order factory.items (recipe.inputs.map SlotInput.toInput) = some (some d.inputs))
    (hmax : ∀ item ∈ factory.items.items, ItemClass.maxSize item ≤ i32Max) {run : Run α ι ε}
    (h : plan rule factory recipes found demands = some run) :
    Planned inputSlots content factory.items recipes demands run := by
  have hjudge (d : Demand ι κ) (hd : d ∈ demands) (result : Option ℤ)
      (hturn : judge found.existing recipes d = some result) :
      (∀ nSets, result = some nSets → 0 < nSets ∧ ∀ n, 0 < n →
        (n ≤ nSets ↔ Demand.Admits inputSlots content factory.items recipes d n)) ∧
      (result = none → ¬ Demand.Admits inputSlots content factory.items recipes d 1) := by
    obtain ⟨recipe, hrecipe, hinputs⟩ := hdemands d hd
    have hiff (n : ℤ) : Demand.Admits inputSlots content factory.items recipes d n ↔
        Admits inputSlots content factory.items recipe d.inputs.items n := by
      simp [Demand.Admits, hrecipe]
    simp only [judge, hrecipe] at hturn
    obtain ⟨hsome, hnone⟩ := narrow_admits hexisting
      (hrecipes recipe (List.mem_of_getElem? hrecipe)) hinputs hmax hturn
    simp only [hiff]
    exact ⟨hsome, fun hr => hnone hr 1 one_pos⟩
  unfold plan at h
  split at h
  · simp at h
  · rename_i hloop
    obtain ⟨hnone, -⟩ := recipeLoop_spec hloop
    obtain rfl := Option.some.inj h
    exact ⟨fun _ d hd => (hjudge d hd none (hnone rfl d hd)).2 rfl, by simp⟩
  · rename_i demand nSets hloop
    obtain ⟨-, hsome⟩ := recipeLoop_spec hloop
    obtain ⟨before, after, rfl, hturn, hbefore⟩ := hsome _ rfl
    obtain ⟨hchosen, -⟩ := hjudge demand (by simp) _ hturn
    obtain ⟨hpos, hiff⟩ := hchosen nSets rfl
    split at h
    · simp at h
    · rename_i recipe hrecipe
      obtain ⟨r, hr, rfl⟩ := Option.map_eq_some_iff.mp h
      obtain ⟨-, -, rfl⟩ := Option.map_eq_some_iff.mp hr
      refine ⟨by simp, ?_⟩
      rintro _ ⟨⟩
      refine ⟨before, demand, after, recipe, rfl, hrecipe, rfl, rfl, rfl, hpos,
        (hiff nSets hpos).mp le_rfl, fun n hn => ?_, fun d hd => ?_⟩
      · rcases le_or_gt n 0 with hle | hlt
        · exact hle.trans hpos.le
        · exact (hiff n hlt).mpr hn
      · exact (hjudge d (by simp [hd]) none (hbefore d hd)).2 rfl

end
end Slotted

open Slotted

section
variable {ι ε κ : Type} [DecidableEq ι] [ItemClass ι] [LinearOrder κ]

omit [DecidableEq ι] [ItemClass ι] in
theorem sortDemands_sorted (demands : List (Demand ι κ)) :
    (sortDemands demands).Pairwise fun x y => y.priority ≤ x.priority := by
  have : Std.Total fun x y : Demand ι κ => y.priority ≤ x.priority := ⟨fun x y => le_total _ _⟩
  have : IsTrans (Demand ι κ) fun x y => y.priority ≤ x.priority := ⟨fun x y z h h' => h'.trans h⟩
  exact List.pairwise_insertionSort _ demands

omit [DecidableEq ι] [ItemClass ι] [LinearOrder κ] in
theorem mem_of_mem_considered {strictPriority : Bool} {demands : List (Demand ι κ)}
    {d : Demand ι κ} (hd : d ∈ considered strictPriority demands) : d ∈ demands := by
  unfold considered at hd
  split_ifs at hd
  · exact List.mem_of_mem_take hd
  · exact hd

/-- The demands come from the recipes, with what their inputs resolve to. -/
theorem computeDemands_resolved {α : Type} {order : Enumeration ι} {scale : κ → ℤ → κ}
    {factory : Factory ι ε} {recipes : List (SlotRecipe α ι ε κ)} {demands : List (Demand ι κ)}
    (h : computeDemands order scale factory (recipes.map SlotRecipe.toRecipe) = some demands)
    (strictPriority : Bool) : ∀ d ∈ considered strictPriority demands,
      ∃ recipe, recipes[d.iRecipe]? = some recipe ∧
        resolveInputs order factory.items (recipe.inputs.map SlotInput.toInput) =
          some (some d.inputs) := by
  intro d hd
  obtain ⟨recipe, hrecipe, hinputs⟩ := mem_computeDemands h (mem_of_mem_considered hd)
  rw [List.getElem?_map] at hrecipe
  obtain ⟨slotRecipe, hslotRecipe, rfl⟩ := Option.map_eq_some_iff.mp hrecipe
  exact ⟨slotRecipe, hslotRecipe, hinputs⟩

omit [DecidableEq ι] [LinearOrder κ] in
theorem slotted_found_lookup (cfg : SlottedConfig ι ε κ) (factory : Factory ι ε)
    (listing : Stacks ι) (slot : ℕ) :
    (SlottedProcess.found cfg factory listing).existing.lookup slot =
      if slot ∈ cfg.inputSlots then some listing[slot]?.join else none := by
  have hlisted := listedAt_name (ι := ι) Function.injective_id 0 slot listing
  rw [zero_add, id] at hlisted
  rw [SlottedProcess.found, listLoop_lookup, noInputs_lookup, hlisted]
  split_ifs <;> simp

/-- What was listed in a slot of an inventory. -/
def slotOf (listings : List (Stacks ι)) (slot : ℕ × ℕ) : Option (ItemStack ι) :=
  (listings[slot.1]?.bind fun listing => listing[slot.2]?).join

omit [DecidableEq ι] in
theorem listInvs_lookup (toExtract : Option (ℕ → ℕ → ItemStack ι → Bool)) (inv : ℕ)
    (listings : List (Stacks ι)) (found : Found (ℕ × ℕ) ι) (slot : ℕ × ℕ) :
    (MultiInvSlottedProcess.listInvs toExtract inv listings found).existing.lookup slot =
      (found.existing.lookup slot).map fun old =>
        (if inv ≤ slot.1 then slotOf listings (slot.1 - inv, slot.2) else none).or old := by
  induction listings generalizing inv found with
  | nil => simp [MultiInvSlottedProcess.listInvs, slotOf]
  | cons listing listings ih =>
    rw [MultiInvSlottedProcess.listInvs, ih, listLoop_lookup, Option.map_map]
    congr 1
    funext old
    obtain ⟨i, k⟩ := slot
    rcases lt_trichotomy i inv with hlt | rfl | hlt
    · have hnone : listedAt (Prod.mk inv) 0 listing (i, k) = none := by
        refine listedAt_of_ne fun j heq => ?_
        simp only [Prod.mk.injEq] at heq
        omega
      simp [hnone, show ¬ inv ≤ i by omega, show ¬ inv + 1 ≤ i by omega]
    · have hlisted := listedAt_name (Prod.mk_right_injective i) 0 k listing
      rw [zero_add] at hlisted
      simp [hlisted, slotOf]
    · have hnone : listedAt (Prod.mk inv) 0 listing (i, k) = none := by
        refine listedAt_of_ne fun j heq => ?_
        simp only [Prod.mk.injEq] at heq
        omega
      obtain ⟨j, rfl⟩ : ∃ j, i = inv + 1 + j := ⟨i - (inv + 1), by omega⟩
      have hindex : inv + 1 + j - inv = j + 1 := by omega
      simp [hnone, slotOf, hindex, show inv ≤ inv + 1 + j by omega]

omit [DecidableEq ι] in
theorem multiInv_found_lookup (inputSlots : List (List ℕ))
    (toExtract : Option (ℕ → ℕ → ItemStack ι → Bool)) (listings : List (Stacks ι)) (slot : ℕ × ℕ) :
    (MultiInvSlottedProcess.found inputSlots toExtract listings).existing.lookup slot =
      if slot ∈ MultiInvSlottedProcess.invSlots 0 inputSlots then some (slotOf listings slot)
      else none := by
  rw [MultiInvSlottedProcess.found, listInvs_lookup, noInputs_lookup]
  simp only [Nat.zero_le, if_true, Nat.sub_zero]
  split_ifs <;> simp

/-- Either process executes the first of its demands, the most wanted first, that admits a set. -/
theorem slotted_runs_planned (order : Enumeration ι)
    (rule : TopRule (Provider ε) Provider.priority) (scale : κ → ℤ → κ) (factory : Factory ι ε)
    (hmax : ∀ item ∈ factory.items.items, ItemClass.maxSize item ≤ i32Max) :
    (∀ (cfg : SlottedConfig ι ε κ) (listing : Stacks ι) (run : Run ℕ ι ε),
      (∀ recipe ∈ cfg.recipes, RecipeOk cfg.inputSlots recipe) →
      SlottedProcess.run order rule scale cfg factory listing = some run →
      ∃ demands, computeDemands order scale factory (cfg.recipes.map SlotRecipe.toRecipe) =
          some demands ∧ demands.Pairwise (fun x y => y.priority ≤ x.priority) ∧
        Planned cfg.inputSlots (fun slot => listing[slot]?.join) factory.items cfg.recipes
          (considered cfg.strictPriority demands) run) ∧
    ∀ (cfg : MultiInvSlottedConfig ι ε κ) (listings : List (Stacks ι)) (run : Run (ℕ × ℕ) ι ε),
      (∀ recipe ∈ cfg.recipes,
        RecipeOk (MultiInvSlottedProcess.invSlots 0 cfg.inputSlots) recipe) →
      MultiInvSlottedProcess.run order rule scale cfg factory listings = some run →
      ∃ demands, computeDemands order scale factory (cfg.recipes.map SlotRecipe.toRecipe) =
          some demands ∧ demands.Pairwise (fun x y => y.priority ≤ x.priority) ∧
        Planned (MultiInvSlottedProcess.invSlots 0 cfg.inputSlots) (slotOf listings) factory.items
          cfg.recipes (considered cfg.strictPriority demands) run := by
  have hsorted {recipes : List (Recipe ι ε κ)} {demands : List (Demand ι κ)}
      (h : computeDemands order scale factory recipes = some demands) :
      demands.Pairwise fun x y => y.priority ≤ x.priority := by
    obtain ⟨unsorted, -, rfl⟩ := Option.map_eq_some_iff.mp h
    exact sortDemands_sorted unsorted
  constructor
  · intro cfg listing run hrecipes h
    unfold SlottedProcess.run at h
    split at h
    · simp at h
    · rename_i demands hdemands
      exact ⟨demands, hdemands, hsorted hdemands, plan_planned (slotted_found_lookup cfg factory listing)
        hrecipes (computeDemands_resolved hdemands _) hmax h⟩
  · intro cfg listings run hrecipes h
    unfold MultiInvSlottedProcess.run at h
    split at h
    · simp at h
    · rename_i demands hdemands
      refine ⟨demands, hdemands, hsorted hdemands, plan_planned (fun slot => ?_)
        hrecipes (computeDemands_resolved hdemands _) hmax h⟩
      rw [multiInv_found_lookup]
      congr

end

/-- One iron into each of two slots, for at most three sets. -/
def ironPair : SlotRecipe ℕ (Item ℤ) ℕ ℤ where
  outputs _ := some 1
  inputs := [.new (.Label "Iron") [(0, 1), (1, 1)]]
  maxSets := 3

def ironPairs : SlottedConfig (Item ℤ) ℕ ℤ := ⟨[0, 1], none, [ironPair], false⟩

/-- The same with the second slot in another inventory. -/
def ironInvs : MultiInvSlottedConfig (Item ℤ) ℕ ℤ where
  inputSlots := [[0], [3]]
  toExtract := none
  recipes := [⟨fun _ => some 1, [.new (.Label "Iron") [((0, 0), 1), ((1, 3), 1)]], 3⟩]
  strictPriority := true

/-- Two sets are made, as there are five of iron and one in the first slot. -/
theorem slotted_runs_planned_iron :
    (∃ run demands, SlottedProcess.run ⟨id, List.Perm.refl⟩ (MaxHeap.firstTop _) (· * ·) ironPairs
        fiveEach [some ⟨iron, 1⟩, none, some ⟨gold, 5⟩] = some run ∧
      run.executed.map Execution.nSets = some 2 ∧
      Planned [0, 1] (fun slot => [some ⟨iron, 1⟩, none, some ⟨gold, 5⟩][slot]?.join) fiveEach.items
        [ironPair] (considered false demands) run) ∧
    ∃ run demands, MultiInvSlottedProcess.run ⟨id, List.Perm.refl⟩ (MaxHeap.firstTop _) (· * ·)
        ironInvs fiveEach [[some ⟨iron, 1⟩], []] = some run ∧
      run.executed.map Execution.nSets = some 2 ∧
      Planned [(0, 0), (1, 3)] (slotOf [[some ⟨iron, 1⟩], []]) fiveEach.items ironInvs.recipes
        (considered true demands) run := by
  obtain ⟨hslotted, hmulti⟩ := slotted_runs_planned (κ := ℤ) ⟨id, List.Perm.refl⟩ (MaxHeap.firstTop _)
    (· * ·) fiveEach (by decide +kernel)
  constructor
  · have hrun : (SlottedProcess.run ⟨id, List.Perm.refl⟩ (MaxHeap.firstTop _) (· * ·) ironPairs
        fiveEach [some ⟨iron, 1⟩, none, some ⟨gold, 5⟩]).map
          (fun run => run.executed.map Execution.nSets) = some (some 2) := by decide +kernel
    obtain ⟨run, hrun, hsets⟩ := Option.map_eq_some_iff.mp hrun
    have hok : ∀ recipe ∈ ironPairs.recipes, RecipeOk ironPairs.inputSlots recipe := by
      refine List.forall_mem_singleton.mpr ⟨by decide, by decide, by decide, by decide, by decide⟩
    obtain ⟨demands, -, -, hplanned⟩ := hslotted ironPairs _ run hok hrun
    exact ⟨run, demands, hrun, hsets, hplanned⟩
  · have hrun : (MultiInvSlottedProcess.run ⟨id, List.Perm.refl⟩ (MaxHeap.firstTop _) (· * ·) ironInvs
        fiveEach [[some ⟨iron, 1⟩], []]).map
          (fun run => run.executed.map Execution.nSets) = some (some 2) := by decide +kernel
    obtain ⟨run, hrun, hsets⟩ := Option.map_eq_some_iff.mp hrun
    have hok : ∀ recipe ∈ ironInvs.recipes,
        RecipeOk (MultiInvSlottedProcess.invSlots 0 ironInvs.inputSlots) recipe := by
      refine List.forall_mem_singleton.mpr ⟨by decide, by decide, by decide, by decide, by decide⟩
    obtain ⟨demands, -, -, hplanned⟩ := hmulti ironInvs _ run hok hrun
    exact ⟨run, demands, hrun, hsets, hplanned⟩

end OCRemote
