import OCRemote.Factory.Inventory

/-! Plans are made in a copy of the listed inventory, which may come to hold more than the inventory
itself. Whatever can be moved into the copy can be moved into the inventory as long as the copy
covers it. -/

namespace OCRemote
namespace Inventory
variable {ι : Type} [DecidableEq ι] [ItemClass ι]

/-- An item, the slot that it goes to, and how much of it. -/
abbrev Move (ι : Type) := ι × ℕ × ℤ

def placeEach (inventory : Stacks ι) (moves : List (Move ι)) : Option (Stacks ι) :=
  moves.foldlM (fun inventory move => place move.1 inventory move.2) inventory

theorem placeEach_append (inventory : Stacks ι) (moves moves' : List (Move ι)) :
    placeEach inventory (moves ++ moves') =
      (placeEach inventory moves).bind fun inventory' => placeEach inventory' moves' := by
  simp [placeEach, List.foldlM_append]

theorem placeAll_eq_placeEach (item : ι) (inventory : Stacks ι) (moves : List (ℕ × ℤ)) :
    placeAll item inventory moves = placeEach inventory (moves.map fun move => (item, move)) := by
  induction moves generalizing inventory with
  | nil => rfl
  | cons move moves ih =>
    cases h : place item inventory move with
    | none => simp [placeAll, placeEach, h]
    | some inventory' =>
      rw [placeAll_cons h, ih]
      simp [placeEach, h]

def amount (stack : Option (ItemStack ι)) : ℤ := stack.elim 0 ItemStack.size

/-- The item may go there: the slot is empty or holds the same item. -/
def Accepts (item : ι) (stack : Option (ItemStack ι)) : Prop := ∀ s, stack = some s → s.item = item

theorem place_iff {item : ι} {inventory inventory' : Stacks ι} {move : ℕ × ℤ} :
    place item inventory move = some inventory' ↔ ∃ stack, inventory[move.1]? = some stack ∧
      Accepts item stack ∧ 0 < move.2 ∧ amount stack + move.2 ≤ ItemClass.maxSize item ∧
      inventory' = inventory.set move.1 (some ⟨item, amount stack + move.2⟩) := by
  unfold place
  split
  · simp [*]
  · simp [*, Accepts, amount, and_assoc, eq_comm]
  · simp [*, Accepts, amount, and_assoc, eq_comm]

/-- `model` covers the inventory `real`: what may go onto a stack or into an empty slot of the model
may go there, where there is no less room. Nothing but the jammer may go where it is blocked. -/
structure Covers (jammer : ι) (blocked : ℕ → Prop) (model real : Stacks ι) : Prop where
  length : model.length = real.length
  slot : ∀ k m r, model[k]? = some m → real[k]? = some r → ∀ item, item ≠ jammer → Accepts item m →
    Accepts item r ∧ amount r ≤ amount m ∧ ¬ blocked k

namespace Covers
variable {jammer : ι} {blocked : ℕ → Prop} {model model' real real' : Stacks ι} {item : ι}

omit [DecidableEq ι] [ItemClass ι] in
/-- One slot of the model, and perhaps of what is there, gets more of an item. -/
theorem set (h : Covers jammer blocked model real) (hitem : item ≠ jammer) {k : ℕ}
    {m : Option (ItemStack ι)} (hm : model[k]? = some m) (haccepts : Accepts item m) {size : ℤ}
    (hreal : real' = real ∧ amount m ≤ size ∨
      ∃ size', size' ≤ size ∧ real' = real.set k (some ⟨item, size'⟩)) :
    Covers jammer blocked (model.set k (some ⟨item, size⟩)) real' := by
  obtain ⟨hk, -⟩ := List.getElem?_eq_some_iff.mp hm
  have hk' : k < real.length := h.length ▸ hk
  have hlen : real'.length = real.length := by
    rcases hreal with ⟨rfl, -⟩ | ⟨size', -, rfl⟩
    · rfl
    · exact List.length_set
  constructor
  · rw [List.length_set, hlen, h.length]
  · intro j m' r hm' hr item' hitem' haccepts'
    by_cases hj : k = j
    · subst hj
      rw [List.getElem?_set_self hk] at hm'
      obtain rfl := Option.some.inj hm'
      obtain rfl : item = item' := haccepts' _ rfl
      obtain ⟨hold, hle, hfree⟩ :=
        h.slot k m _ hm (List.getElem?_eq_getElem hk') item hitem haccepts
      rcases hreal with ⟨rfl, hsize⟩ | ⟨size', hsize, rfl⟩
      · rw [List.getElem?_eq_getElem hk'] at hr
        obtain rfl := Option.some.inj hr
        exact ⟨hold, hle.trans hsize, hfree⟩
      · rw [List.getElem?_set_self hk'] at hr
        obtain rfl := Option.some.inj hr
        exact ⟨by rintro s ⟨⟩; rfl, hsize, hfree⟩
    · rw [List.getElem?_set_ne hj] at hm'
      refine h.slot j m' r hm' ?_ item' hitem' haccepts'
      rcases hreal with ⟨rfl, -⟩ | ⟨size', -, rfl⟩
      · exact hr
      · rwa [List.getElem?_set_ne hj] at hr

/-- A move that is made in the model alone. -/
theorem place_model (h : Covers jammer blocked model real) (hitem : item ≠ jammer) {move : ℕ × ℤ}
    (hplace : place item model move = some model') : Covers jammer blocked model' real := by
  obtain ⟨m, hm, haccepts, hpos, -, rfl⟩ := place_iff.mp hplace
  exact h.set hitem hm haccepts (.inl ⟨rfl, by omega⟩)

/-- A move that can be made in the model can be made. -/
theorem place_both (h : Covers jammer blocked model real) (hitem : item ≠ jammer) {move : ℕ × ℤ}
    (hplace : place item model move = some model') : ¬ blocked move.1 ∧
      ∃ real', place item real move = some real' ∧ Covers jammer blocked model' real' := by
  obtain ⟨m, hm, haccepts, hpos, hle, rfl⟩ := place_iff.mp hplace
  obtain ⟨hk, -⟩ := List.getElem?_eq_some_iff.mp hm
  have hr := List.getElem?_eq_getElem (h.length ▸ hk : move.1 < real.length)
  obtain ⟨hreal, hroom, hfree⟩ := h.slot move.1 m _ hm hr item hitem haccepts
  refine ⟨hfree, _, place_iff.mpr ⟨_, hr, hreal, hpos, by omega, rfl⟩, ?_⟩
  exact h.set hitem hm haccepts (.inr ⟨_, by omega, rfl⟩)

/-- Moves that are made in the model alone, whatever becomes of the plan they belong to. -/
theorem placeEach_model (h : Covers jammer blocked model real) {moves : List (Move ι)}
    (hitem : ∀ move ∈ moves, move.1 ≠ jammer) (hplace : placeEach model moves = some model') :
    Covers jammer blocked model' real := by
  induction moves generalizing model with
  | nil =>
    obtain rfl : model = model' := by simpa [placeEach] using hplace
    exact h
  | cons move moves ih =>
    obtain ⟨hmove, hitem⟩ := List.forall_mem_cons.mp hitem
    obtain ⟨between, hfirst, hrest⟩ : ∃ between, place move.1 model move.2 = some between ∧
        placeEach between moves = some model' := by
      simpa [placeEach, Option.bind_eq_some_iff] using hplace
    exact ih (h.place_model hmove hfirst) hitem hrest

/-- Plans made in the model can be carried out. -/
theorem placeEach_both (h : Covers jammer blocked model real) {moves : List (Move ι)}
    (hitem : ∀ move ∈ moves, move.1 ≠ jammer) (hplace : placeEach model moves = some model') :
    (∀ move ∈ moves, ¬ blocked move.2.1) ∧
      ∃ real', placeEach real moves = some real' ∧ Covers jammer blocked model' real' := by
  induction moves generalizing model real with
  | nil =>
    obtain rfl : model = model' := by simpa [placeEach] using hplace
    exact ⟨by simp, real, rfl, h⟩
  | cons move moves ih =>
    obtain ⟨hmove, hitem⟩ := List.forall_mem_cons.mp hitem
    obtain ⟨between, hfirst, hrest⟩ : ∃ between, place move.1 model move.2 = some between ∧
        placeEach between moves = some model' := by
      simpa [placeEach, Option.bind_eq_some_iff] using hplace
    obtain ⟨hfree, between', hfirst', hcovers⟩ := h.place_both hmove hfirst
    obtain ⟨hfrees, real', hrest', hcovers'⟩ := ih hcovers hitem hrest
    refine ⟨List.forall_mem_cons.mpr ⟨hfree, hfrees⟩, real', ?_, hcovers'⟩
    rw [← hrest']
    simp [placeEach, hfirst']

end Covers
end Inventory
end OCRemote
