import OCRemote.Factory.InventoryPlan
import OCRemote.Process.Scattering

/-! The items of a recipe are spread evenly over the input slots, one at a time into the slot that
holds least, until all of them are full. -/

namespace OCRemote
open Tally Inventory

namespace Scattering
variable {ι : Type} [DecidableEq ι] [ItemClass ι]

/-- What a scan of the slots may find: one that takes the item and holds least of it. -/
def Lowest (inventory : Stacks ι) (item : ι) (slots : List ℕ) : Option (ℕ × ℤ) → Prop
  | none => ∀ slot ∈ slots, ∀ stack, inventory[slot]? = some stack → ¬ Accepts item stack
  | some best => best.1 ∈ slots ∧
    (∃ stack, inventory[best.1]? = some stack ∧ Accepts item stack ∧ Inventory.amount stack = best.2) ∧
    ∀ slot ∈ slots, ∀ stack, inventory[slot]? = some stack → Accepts item stack →
      best.2 ≤ Inventory.amount stack

omit [DecidableEq ι] [ItemClass ι] in
/-- One more slot is seen and is not better. -/
theorem Lowest.skip {inventory : Stacks ι} {item : ι} {seen : List ℕ} {best : Option (ℕ × ℤ)}
    (h : Lowest inventory item seen best) {slot : ℕ} {stack : Option (ItemStack ι)}
    (hslot : inventory[slot]? = some stack)
    (hskip : Accepts item stack → ∃ b, best = some b ∧ b.2 ≤ Inventory.amount stack) :
    Lowest inventory item (seen ++ [slot]) best := by
  cases best with
  | none =>
    intro slot' hmem stack' hslot' haccepts
    rcases List.mem_append.mp hmem with hmem | hmem
    · exact h slot' hmem stack' hslot' haccepts
    · obtain rfl := List.mem_singleton.mp hmem
      obtain rfl := Option.some.inj (hslot.symm.trans hslot')
      obtain ⟨b, hb, -⟩ := hskip haccepts
      cases hb
  | some best =>
    obtain ⟨hbest, hstack, hleast⟩ := h
    refine ⟨List.mem_append_left _ hbest, hstack, fun slot' hmem stack' hslot' haccepts => ?_⟩
    rcases List.mem_append.mp hmem with hmem | hmem
    · exact hleast slot' hmem stack' hslot' haccepts
    · obtain rfl := List.mem_singleton.mp hmem
      obtain rfl := Option.some.inj (hslot.symm.trans hslot')
      obtain ⟨b, hb, hle⟩ := hskip haccepts
      obtain rfl := Option.some.inj hb
      exact hle

omit [DecidableEq ι] [ItemClass ι] in
/-- One more slot is seen and is better than all before it. -/
theorem Lowest.replace {inventory : Stacks ι} {item : ι} {seen : List ℕ} {best : Option (ℕ × ℤ)}
    (h : Lowest inventory item seen best) {slot : ℕ} {stack : Option (ItemStack ι)}
    (hslot : inventory[slot]? = some stack) (haccepts : Accepts item stack)
    (hbetter : ∀ b, best = some b → Inventory.amount stack < b.2) :
    Lowest inventory item (seen ++ [slot]) (some (slot, Inventory.amount stack)) := by
  refine ⟨by simp, ⟨stack, hslot, haccepts, rfl⟩, fun slot' hmem stack' hslot' haccepts' => ?_⟩
  rcases List.mem_append.mp hmem with hmem | hmem
  · cases best with
    | none => exact absurd haccepts' (h slot' hmem stack' hslot')
    | some b => exact (hbetter b rfl).le.trans (h.2.2 slot' hmem stack' hslot' haccepts')
  · obtain rfl := List.mem_singleton.mp hmem
    obtain rfl := Option.some.inj (hslot.symm.trans hslot')
    exact le_rfl

omit [ItemClass ι] in
/-- An empty slot ends the scan, as no slot can hold less. -/
theorem bestSlot_lowest {inventory : Stacks ι} {item : ι}
    (hpos : ∀ stack ∈ inventory, 0 ≤ Inventory.amount stack) {slots : List ℕ}
    (hslots : ∀ slot ∈ slots, slot < inventory.length) {seen : List ℕ} {best : Option (ℕ × ℤ)}
    (h : Lowest inventory item seen best) :
    ∃ best', bestSlot inventory item slots best = some best' ∧
      Lowest inventory item (seen ++ slots) best' := by
  induction slots generalizing seen best with
  | nil => exact ⟨best, rfl, by rwa [List.append_nil]⟩
  | cons slot slots ih =>
    obtain ⟨hlt, hslots⟩ := List.forall_mem_cons.mp hslots
    obtain ⟨stack, hslot⟩ : ∃ stack, inventory[slot]? = some stack :=
      ⟨_, List.getElem?_eq_getElem hlt⟩
    rw [List.append_cons]
    unfold bestSlot
    rw [hslot]
    cases stack with
    | none =>
      refine ⟨_, rfl, by simp, ⟨none, hslot, by simp [Accepts], rfl⟩, ?_⟩
      exact fun slot' _ stack' hslot' _ => hpos stack' (List.mem_of_getElem? hslot')
    | some stack =>
      simp only
      split_ifs with hitem hbest
      · refine ih hslots (h.skip hslot fun _ => ?_)
        cases best with
        | none => simp at hbest
        | some b =>
          refine ⟨b, rfl, ?_⟩
          show b.2 ≤ stack.size
          simpa using hbest
      · refine ih hslots (h.replace hslot (fun s hs => Option.some.inj hs ▸ hitem) fun b hb => ?_)
        rw [hb] at hbest
        show stack.size < b.2
        simpa using hbest
      · exact ih hslots (h.skip hslot fun haccepts => absurd (haccepts stack rfl) hitem)

theorem mem_entriesOf {insertions : AList fun _ : ℕ => ℤ} {move : ℕ × ℤ} :
    move ∈ entriesOf insertions ↔ insertions.lookup move.1 = some move.2 := by
  rw [← Option.mem_def, AList.mem_lookup_iff, entriesOf, List.mem_map]
  constructor
  · rintro ⟨e, he, rfl⟩
    exact he
  · exact fun h => ⟨_, h, rfl⟩

theorem nodup_entriesOf (insertions : AList fun _ : ℕ => ℤ) :
    ((entriesOf insertions).map Prod.fst).Nodup := by
  rw [entriesOf, List.map_map]
  exact insertions.keys_nodup

theorem sumOf_entriesOf (insertions : AList fun _ : ℕ => ℤ) (slot : ℕ) :
    sumOf slot (entriesOf insertions) = (insertions.lookup slot).getD 0 := by
  cases hlookup : insertions.lookup slot with
  | none =>
    refine sumOf_eq_zero fun d hd heq => ?_
    rw [mem_entriesOf, heq, hlookup] at hd
    cases hd
  | some n =>
    have hmem : (slot, n) ∈ entriesOf insertions := mem_entriesOf.mpr hlookup
    exact sumOf_of_nodup (nodup_entriesOf insertions) hmem

omit [DecidableEq ι] [ItemClass ι] in
theorem modify_addOne {inventory : Stacks ι} {item : ι} {slot : ℕ} {stack : Option (ItemStack ι)}
    (hslot : inventory[slot]? = some stack) (haccepts : Accepts item stack) :
    inventory.modify slot (addOne item) =
      inventory.set slot (some ⟨item, Inventory.amount stack + 1⟩) := by
  have hone : addOne item stack = some ⟨item, Inventory.amount stack + 1⟩ := by
    cases stack with
    | none => rfl
    | some s => simp [addOne, Inventory.amount, ← haccepts s rfl]
  obtain ⟨l₁, l₂, hl, -, hmodify⟩ := List.exists_cut hslot
  rw [List.set_eq_modify, hmodify, hmodify, hone]

omit [DecidableEq ι] [ItemClass ι] in
/-- One more of the item goes where there is room for it. -/
theorem fills_addOne {cap : ℤ} {item : ι} {before : Stacks ι} {s : Spread ι}
    (h : Fills cap item before (entriesOf s.insertions) s.inventory) {slot : ℕ}
    {stack : Option (ItemStack ι)} (hslot : s.inventory[slot]? = some stack)
    (haccepts : Accepts item stack) (hroom : Inventory.amount stack < cap) :
    Fills cap item before
      (entriesOf (s.insertions.insert slot ((s.insertions.lookup slot).getD 0 + 1)))
      (s.inventory.modify slot (addOne item)) := by
  have hlt := (List.getElem?_eq_some_iff.mp hslot).1
  have hold (slot' : ℕ) : 0 ≤ sumOf slot' (entriesOf s.insertions) :=
    sumOf_nonneg (fun d hd => (h.positive d hd).le) slot'
  rw [modify_addOne hslot haccepts]
  refine ⟨nodup_entriesOf _, fun move hmove => ?_, fun slot' => ?_,
    fun slot' stack' hstack hitem => ?_,
    fun move hmove => ?_⟩
  · rw [mem_entriesOf] at hmove
    by_cases hsame : move.1 = slot
    · rw [hsame, AList.lookup_insert, ← sumOf_entriesOf] at hmove
      have := hold slot
      have := Option.some.inj hmove
      omega
    · rw [AList.lookup_insert_ne hsame] at hmove
      exact h.positive move (mem_entriesOf.mpr hmove)
  · have hone : Added item _ s.inventory _ := .set hslot one_pos
    have hadded := h.added.trans hone hold fun slot' => sumOf_nonneg (by simp) slot'
    rw [hadded slot']
    simp only [sumOf_entriesOf]
    by_cases hsame : slot = slot'
    · subst hsame
      simp
    · simp [hsame, AList.lookup_insert_ne (Ne.symm hsame)]
  · have hkept := h.others slot' stack' hstack hitem
    have hne : slot ≠ slot' := by
      rintro rfl
      obtain rfl := Option.some.inj (hslot.symm.trans hkept)
      exact hitem (haccepts stack' rfl)
    rwa [List.getElem?_set_ne hne]
  · rw [mem_entriesOf] at hmove
    by_cases hsame : move.1 = slot
    · rw [hsame]
      exact ⟨_, List.getElem?_set_self hlt, hroom⟩
    · rw [AList.lookup_insert_ne hsame] at hmove
      rw [List.getElem?_set_ne (Ne.symm hsame)]
      exact h.capped move (mem_entriesOf.mpr hmove)

/-- What the loop keeps: only input slots are filled, none above the cap, and none more than one
above another that takes the item. -/
structure Even (cap : ℤ) (item : ι) (inputSlots : List ℕ) (before : Stacks ι) (s : Spread ι) :
    Prop where
  fills : Fills cap item before (entriesOf s.insertions) s.inventory
  inputs : ∀ move ∈ entriesOf s.insertions, move.1 ∈ inputSlots
  even : ∀ move ∈ entriesOf s.insertions, ∀ slot ∈ inputSlots, ∀ stack stack',
    s.inventory[move.1]? = some stack → s.inventory[slot]? = some stack' → Accepts item stack' →
      Inventory.amount stack ≤ Inventory.amount stack' + 1
  nonneg : ∀ stack ∈ s.inventory, 0 ≤ Inventory.amount stack

omit [DecidableEq ι] [ItemClass ι] in
/-- An item in the lowest slot that takes it keeps the slots even. -/
theorem Even.addOne {cap : ℤ} {item : ι} {inputSlots : List ℕ} {before : Stacks ι} {s : Spread ι}
    (h : Even cap item inputSlots before s) {slot : ℕ} {size : ℤ}
    (hlowest : Lowest s.inventory item inputSlots (some (slot, size))) (hroom : size < cap) :
    Even cap item inputSlots before
      { inventory := s.inventory.modify slot (Scattering.addOne item)
        insertions := s.insertions.insert slot ((s.insertions.lookup slot).getD 0 + 1)
        nInserted := s.nInserted + 1 } := by
  obtain ⟨hinput, ⟨stack, hslot, haccepts, rfl⟩, hleast⟩ := hlowest
  have hlt := (List.getElem?_eq_some_iff.mp hslot).1
  have hamount := h.nonneg stack (List.mem_of_getElem? hslot)
  -- what a slot holds afterwards
  have hafter (slot' : ℕ) (stack' : Option (ItemStack ι))
      (hstack' : (s.inventory.modify slot (Scattering.addOne item))[slot']? = some stack') :
      (slot' = slot ∧ Inventory.amount stack' = Inventory.amount stack + 1) ∨
        (slot' ≠ slot ∧ s.inventory[slot']? = some stack') := by
    rw [modify_addOne hslot haccepts] at hstack'
    by_cases hsame : slot' = slot
    · subst hsame
      rw [List.getElem?_set_self hlt] at hstack'
      obtain rfl := Option.some.inj hstack'
      exact .inl ⟨rfl, rfl⟩
    · rw [List.getElem?_set_ne (Ne.symm hsame)] at hstack'
      exact .inr ⟨hsame, hstack'⟩
  have hmoves (move : ℕ × ℤ)
      (hmove : move ∈ entriesOf
        (s.insertions.insert slot ((s.insertions.lookup slot).getD 0 + 1)))
      (hne : move.1 ≠ slot) : move ∈ entriesOf s.insertions := by
    rw [mem_entriesOf, AList.lookup_insert_ne hne] at hmove
    exact mem_entriesOf.mpr hmove
  refine ⟨fills_addOne h.fills hslot haccepts hroom, fun move hmove => ?_,
    fun move hmove slot' hslot' first second hfirst hsecond haccepts' => ?_, fun stack' hmem => ?_⟩
  · by_cases hsame : move.1 = slot
    · rwa [hsame]
    · exact h.inputs move (hmoves move hmove hsame)
  · rcases hafter move.1 first hfirst with ⟨-, hone⟩ | ⟨hne, hfirst⟩ <;>
      rcases hafter slot' second hsecond with ⟨-, hone'⟩ | ⟨-, hsecond⟩
    · omega
    · -- the slot was the lowest
      have := hleast slot' hslot' second hsecond haccepts'
      omega
    · have := h.even move (hmoves move hmove hne) slot hinput first stack hfirst hslot haccepts
      omega
    · exact h.even move (hmoves move hmove hne) slot' hslot' first second hfirst hsecond haccepts'
  · obtain ⟨slot', hslot'⟩ := List.mem_iff_getElem?.mp hmem
    rcases hafter slot' stack' hslot' with ⟨-, hone⟩ | ⟨-, hold⟩
    · omega
    · exact h.nonneg stack' (List.mem_of_getElem? hold)

/-- The loop ends, and when it ends early every input slot that takes the item is full. -/
theorem spreadLoop_inv {maxPerSlot : ℤ} {item : ι} {inputSlots : List ℕ} {before : Stacks ι}
    {nSets : ℕ} {s : Spread ι} (hslots : ∀ slot ∈ inputSlots, slot < s.inventory.length)
    (h : Even (min maxPerSlot (ItemClass.maxSize item)) item inputSlots before s) :
    ∃ s', spreadLoop maxPerSlot inputSlots item nSets s = some s' ∧
      Even (min maxPerSlot (ItemClass.maxSize item)) item inputSlots before s' ∧
      s'.nInserted ≤ s.nInserted + nSets ∧
      (s'.nInserted < s.nInserted + nSets → ∀ slot ∈ inputSlots, ∀ stack,
        s'.inventory[slot]? = some stack → Accepts item stack →
          min maxPerSlot (ItemClass.maxSize item) ≤ Inventory.amount stack) := by
  induction nSets generalizing s with
  | zero => exact ⟨s, rfl, h, by simp, by simp⟩
  | succ nSets ih =>
    have hnone : Lowest s.inventory item [] none := by simp [Lowest]
    obtain ⟨best, hbest, hlowest⟩ := bestSlot_lowest h.nonneg hslots hnone
    rw [List.nil_append] at hlowest
    unfold spreadLoop
    rw [hbest]
    cases best with
    | none =>
      refine ⟨s, rfl, h, by omega, fun _ slot hslot stack hstack haccepts => ?_⟩
      exact absurd haccepts (hlowest slot hslot stack hstack)
    | some best =>
      obtain ⟨slot, size⟩ := best
      simp only
      split_ifs with hfull
      · refine ⟨s, rfl, h, by omega, fun _ slot' hslot stack hstack haccepts => ?_⟩
        exact hfull.trans (hlowest.2.2 slot' hslot stack hstack haccepts)
      · obtain ⟨s', hrun, heven, hle, hcomplete⟩ :=
          ih (by simpa using hslots) (h.addOne hlowest (not_le.mp hfull))
        refine ⟨s', hrun, heven, ?_, fun hlt => hcomplete ?_⟩ <;> · push_cast at *; omega

/-- For any listing and any input slots in it the loop ends with the items spread evenly, and with
fewer of them than asked for only if every input slot that takes the item is full. -/
theorem spreadLoop_even {inventory : Stacks ι}
    (hpos : ∀ stack : ItemStack ι, some stack ∈ inventory → 0 < stack.size) {inputSlots : List ℕ}
    (hslots : ∀ slot ∈ inputSlots, slot < inventory.length) (item : ι) (maxPerSlot : ℤ)
    (nSets : ℕ) :
    ∃ s, spreadLoop maxPerSlot inputSlots item nSets ⟨inventory, ∅, 0⟩ = some s ∧
      s.nInserted = moved (entriesOf s.insertions) ∧ s.nInserted ≤ nSets ∧
      (∀ move ∈ entriesOf s.insertions, move.1 ∈ inputSlots) ∧
      Fills (min maxPerSlot (ItemClass.maxSize item)) item inventory (entriesOf s.insertions)
        s.inventory ∧
      (∀ move ∈ entriesOf s.insertions, ∀ slot ∈ inputSlots, ∀ stack stack',
        s.inventory[move.1]? = some stack → s.inventory[slot]? = some stack' →
          Accepts item stack' → Inventory.amount stack ≤ Inventory.amount stack' + 1) ∧
      (s.nInserted < nSets → ∀ slot ∈ inputSlots, ∀ stack, s.inventory[slot]? = some stack →
        Accepts item stack → min maxPerSlot (ItemClass.maxSize item) ≤ Inventory.amount stack) := by
  have hstart : Even (min maxPerSlot (ItemClass.maxSize item)) item inputSlots inventory
      ⟨inventory, ∅, 0⟩ := by
    refine ⟨⟨by simp [entriesOf], by simp [entriesOf], .refl item inventory, fun _ _ h _ => h,
      by simp [entriesOf]⟩, by simp [entriesOf], by simp [entriesOf], fun stack hstack => ?_⟩
    cases stack with
    | none => exact le_rfl
    | some stack => exact (hpos stack hstack).le
  obtain ⟨s, hrun, heven, hle, hcomplete⟩ := @spreadLoop_inv _ _ _ _ _ _ _ nSets _ hslots hstart
  refine ⟨s, hrun, (spreadLoop_sum hrun rfl).symm, by simpa using hle, heven.inputs, heven.fills,
    heven.even, fun hlt => hcomplete (by simpa using hlt)⟩

theorem spreadLoop_even_iron :
    ∃ s, spreadLoop 4 [0, 1, 2] iron 5 ⟨[some ⟨iron, 3⟩, none, some ⟨gold, 1⟩], ∅, 0⟩ = some s ∧
      s.nInserted = moved (entriesOf s.insertions) ∧ s.nInserted ≤ (5 : ℕ) ∧
      Fills 4 iron [some ⟨iron, 3⟩, none, some ⟨gold, 1⟩] (entriesOf s.insertions) s.inventory := by
  obtain ⟨s, hrun, hsum, hle, -, hfills, -⟩ :=
    @spreadLoop_even _ _ _ [some ⟨iron, 3⟩, none, some ⟨gold, 1⟩] (by simp) [0, 1, 2] (by decide)
      iron 4 5
  exact ⟨s, hrun, hsum, hle, hfills⟩

end Scattering
end OCRemote
