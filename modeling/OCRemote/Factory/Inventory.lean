import OCRemote.Factory.Item
import OCRemote.Lib.Split

/-! Plans of insertions into an inventory (`item.rs`): an item goes onto the stacks of the same item
and what is left of it into the first empty slot. -/

namespace OCRemote

/-- What a listing of an inventory shows: its slots in order. -/
abbrev Stacks (ι : Type) := List (Option (ItemStack ι))

structure InsertPlan where
  nInserted : ℤ
  insertions : List (ℕ × ℤ)
  deriving DecidableEq

namespace InsertPlan

def empty : InsertPlan := ⟨0, []⟩

def insert (plan : InsertPlan) (slot : ℕ) (n : ℤ) : InsertPlan :=
  ⟨plan.nInserted + n, plan.insertions ++ [(slot, n)]⟩

end InsertPlan

namespace Inventory
variable {ι : Type} [DecidableEq ι] [ItemClass ι]

/-- What the loop knows when it leaves the inventory. -/
structure Scan (ι : Type) where
  inventory : Stacks ι
  remaining : ℤ
  firstEmptySlot : Option ℕ
  result : InsertPlan

/-- The loop over the slots from `slot` on. -/
def insertLoop (item : ι) : ℕ → Stacks ι → ℤ → Option ℕ → InsertPlan → Scan ι
  | _, [], remaining, firstEmptySlot, result => ⟨[], remaining, firstEmptySlot, result⟩
  | slot, stack :: inventory, remaining, firstEmptySlot, result =>
    if remaining ≤ 0 then ⟨stack :: inventory, remaining, firstEmptySlot, result⟩
    else
      match stack with
      | none =>
        let scan := insertLoop item (slot + 1) inventory remaining
          (if firstEmptySlot = none then some slot else firstEmptySlot) result
        { scan with inventory := none :: scan.inventory }
      | some stack =>
        let toInsert := min remaining (ItemClass.maxSize item - stack.size)
        if stack.item = item ∧ 0 < toInsert then
          let scan := insertLoop item (slot + 1) inventory (remaining - toInsert) firstEmptySlot
            (result.insert slot toInsert)
          { scan with inventory := some ⟨stack.item, stack.size + toInsert⟩ :: scan.inventory }
        else
          let scan := insertLoop item (slot + 1) inventory remaining firstEmptySlot result
          { scan with inventory := some stack :: scan.inventory }

def insertIntoInventory (inventory : Stacks ι) (item : ι) (toInsert : ℤ) :
    Stacks ι × InsertPlan :=
  let scan := insertLoop item 0 inventory (min toInsert (ItemClass.maxSize item)) none .empty
  match scan.firstEmptySlot with
  | some slot =>
    if 0 < scan.remaining then
      (scan.inventory.set slot (some ⟨item, scan.remaining⟩),
        scan.result.insert slot scan.remaining)
    else (scan.inventory, scan.result)
  | none => (scan.inventory, scan.result)

/-! What a plan means for the slots: each insertion goes into an empty slot or onto a stack of the
same item, and the stack stays within the size of a full one. -/

def place (item : ι) (inventory : Stacks ι) (move : ℕ × ℤ) : Option (Stacks ι) :=
  match inventory[move.1]? with
  | none => none
  | some none =>
    if 0 < move.2 ∧ move.2 ≤ ItemClass.maxSize item then
      some (inventory.set move.1 (some ⟨item, move.2⟩))
    else none
  | some (some stack) =>
    if stack.item = item ∧ 0 < move.2 ∧ stack.size + move.2 ≤ ItemClass.maxSize item then
      some (inventory.set move.1 (some ⟨item, stack.size + move.2⟩))
    else none

def placeAll (item : ι) (inventory : Stacks ι) (moves : List (ℕ × ℤ)) : Option (Stacks ι) :=
  moves.foldlM (place item) inventory

/-- How much of an item a slot has room for. -/
def room (item : ι) : Option (ItemStack ι) → ℤ
  | none => ItemClass.maxSize item
  | some stack => if stack.item = item then ItemClass.maxSize item - stack.size else 0

def moved (moves : List (ℕ × ℤ)) : ℤ := (moves.map Prod.snd).sum

def total (inventory : Stacks ι) : ℤ :=
  (inventory.map fun stack => stack.elim 0 ItemStack.size).sum

example : insertIntoInventory [some ⟨iron, 60⟩, none, some ⟨gold, 1⟩] iron 10 =
    ([some ⟨iron, 64⟩, some ⟨iron, 6⟩, some ⟨gold, 1⟩], ⟨10, [(0, 4), (1, 6)]⟩) := by decide

variable {item : ι}

omit [DecidableEq ι] [ItemClass ι] in
@[simp] theorem moved_nil : moved [] = 0 := rfl

omit [DecidableEq ι] [ItemClass ι] in
@[simp] theorem moved_cons (move : ℕ × ℤ) (moves : List (ℕ × ℤ)) :
    moved (move :: moves) = move.2 + moved moves := by simp [moved]

omit [DecidableEq ι] [ItemClass ι] in
theorem moved_nonneg {moves : List (ℕ × ℤ)} (h : ∀ move ∈ moves, 0 < move.2) : 0 ≤ moved moves := by
  apply List.sum_nonneg
  intro a ha
  obtain ⟨move, hmove, rfl⟩ := List.mem_map.mp ha
  exact (h move hmove).le

theorem placeAll_cons {inventory inventory' : Stacks ι} {move : ℕ × ℤ}
    (h : place item inventory move = some inventory') (moves : List (ℕ × ℤ)) :
    placeAll item inventory (move :: moves) = placeAll item inventory' moves := by
  simp [placeAll, h]

theorem placeAll_append (inventory : Stacks ι) (moves moves' : List (ℕ × ℤ)) :
    placeAll item inventory (moves ++ moves') =
      (placeAll item inventory moves).bind fun inventory' => placeAll item inventory' moves' := by
  simp [placeAll, List.foldlM_append]

theorem place_some {before after : Stacks ι} {stack : ItemStack ι} {n : ℤ}
    (hitem : stack.item = item) (hn : 0 < n) (hle : stack.size + n ≤ ItemClass.maxSize item) :
    place item (before ++ some stack :: after) (before.length, n) =
      some (before ++ some ⟨item, stack.size + n⟩ :: after) := by
  simp [place, hitem, hn, hle]

theorem place_none {inventory : Stacks ι} {slot : ℕ} (hslot : inventory[slot]? = some none)
    {n : ℤ} (hn : 0 < n) (hle : n ≤ ItemClass.maxSize item) :
    place item inventory (slot, n) = some (inventory.set slot (some ⟨item, n⟩)) := by
  simp [place, hslot, hn, hle]

/-- What the loop did from `slot` on: the insertions it added, each of them possible when it was
planned, and the empty slot it remembers. -/
structure Scan.Ok (item : ι) (slot : ℕ) (inventory : Stacks ι) (remaining : ℤ)
    (firstEmptySlot : Option ℕ) (result : InsertPlan) (scan : Scan ι) (moves : List (ℕ × ℤ)) :
    Prop where
  plan : scan.result = ⟨result.nInserted + moved moves, result.insertions ++ moves⟩
  rest : scan.remaining = remaining - moved moves
  placed : ∀ before : Stacks ι, before.length = slot →
    placeAll item (before ++ inventory) moves = some (before ++ scan.inventory)
  positive : ∀ move ∈ moves, 0 < move.2
  left : 0 ≤ remaining → 0 ≤ scan.remaining
  first : ∀ k, scan.firstEmptySlot = some k → firstEmptySlot = some k ∨
    none ∈ inventory ∧ ∃ j, k = slot + j ∧ scan.inventory[j]? = some none
  used : moves ≠ [] → ∃ stack ∈ inventory, 0 < room item stack
  full : moves = [] → 0 < remaining → (∀ stack ∈ inventory, stack = none ∨ room item stack ≤ 0) ∧
    (scan.firstEmptySlot = none → firstEmptySlot = none ∧ none ∉ inventory)

theorem insertLoop_spec (item : ι) (slot : ℕ) (inventory : Stacks ι) (remaining : ℤ)
    (firstEmptySlot : Option ℕ) (result : InsertPlan) :
    ∃ moves, (insertLoop item slot inventory remaining firstEmptySlot result).Ok item slot inventory
      remaining firstEmptySlot result moves := by
  fun_induction insertLoop item slot inventory remaining firstEmptySlot result with
  | case1 slot remaining firstEmptySlot result =>
    exact ⟨[], by simp, by simp, by simp [placeAll], by simp, id, fun k => .inl, by simp, by simp⟩
  | case2 slot stack inventory remaining firstEmptySlot result h =>
    exact ⟨[], by simp, by simp, by simp [placeAll], by simp, id, fun k => .inl, by simp,
      fun _ hpos => absurd h (not_le.mpr hpos)⟩
  | case3 slot inventory remaining firstEmptySlot result h scan ih =>
    obtain ⟨moves, hok⟩ : ∃ moves, Scan.Ok _ _ _ _ _ _ scan moves := ih
    refine ⟨moves, hok.plan, hok.rest, fun before hlen => ?_, hok.positive, hok.left,
      fun k hk => ?_, fun hmoves => ?_, fun hmoves hpos => ?_⟩
    · have hplaced := hok.placed (before ++ [none]) (by simp [hlen])
      rw [List.append_assoc, List.append_assoc] at hplaced
      exact hplaced
    · rcases hok.first k hk with hfirst | ⟨hnone, j, rfl, hj⟩
      · split_ifs at hfirst
        · exact .inr ⟨List.mem_cons_self .., 0, by simpa using hfirst.symm, rfl⟩
        · exact .inl hfirst
      · exact .inr ⟨.tail _ hnone, j + 1, by omega, by simpa using hj⟩
    · exact (hok.used hmoves).imp fun a ha => ⟨.tail _ ha.1, ha.2⟩
    · obtain ⟨hroom, hfirst⟩ := hok.full hmoves hpos
      refine ⟨by simpa using hroom, fun hnone => ?_⟩
      have := (hfirst hnone).1
      split_ifs at this
      exact absurd this ‹_›
  | case4 slot inventory remaining firstEmptySlot result h stack toInsert hroom scan ih =>
    obtain ⟨moves, hok⟩ : ∃ moves, Scan.Ok _ _ _ _ _ _ scan moves := ih
    obtain ⟨hitem, hpos⟩ := hroom
    refine ⟨(slot, toInsert) :: moves, ?_, ?_, fun before hlen => ?_, ?_, fun h0 => ?_,
      fun k hk => ?_, fun _ => ?_, by simp⟩
    · simp [hok.plan, InsertPlan.insert, add_assoc]
    · rw [hok.rest, moved_cons]
      simp only
      omega
    · subst hlen
      have hplaced := hok.placed (before ++ [some ⟨stack.item, stack.size + toInsert⟩]) (by simp)
      rw [List.append_assoc, List.append_assoc, hitem] at hplaced
      rw [placeAll_cons (place_some hitem hpos (by omega)), hitem]
      exact hplaced
    · exact List.forall_mem_cons.mpr ⟨hpos, hok.positive⟩
    · exact hok.left (by omega)
    · rcases hok.first k hk with hfirst | ⟨hnone, j, rfl, hj⟩
      · exact .inl hfirst
      · exact .inr ⟨.tail _ hnone, j + 1, by omega, by simpa using hj⟩
    · refine ⟨some stack, List.mem_cons_self .., ?_⟩
      rw [room, if_pos hitem]
      exact hpos.trans_le (min_le_right _ _)
  | case5 slot inventory remaining firstEmptySlot result h stack toInsert hroom scan ih =>
    obtain ⟨moves, hok⟩ : ∃ moves, Scan.Ok _ _ _ _ _ _ scan moves := ih
    refine ⟨moves, hok.plan, hok.rest, fun before hlen => ?_, hok.positive, hok.left,
      fun k hk => ?_, fun hmoves => ?_, fun hmoves hpos => ?_⟩
    · simpa using hok.placed (before ++ [some stack]) (by simp [hlen])
    · rcases hok.first k hk with hfirst | ⟨hnone, j, rfl, hj⟩
      · exact .inl hfirst
      · exact .inr ⟨.tail _ hnone, j + 1, by omega, by simpa using hj⟩
    · exact (hok.used hmoves).imp fun a ha => ⟨.tail _ ha.1, ha.2⟩
    · obtain ⟨hfull, hfirst⟩ := hok.full hmoves hpos
      refine ⟨List.forall_mem_cons.mpr ⟨.inr ?_, hfull⟩, fun hnone => ?_⟩
      · simp only [room]
        split_ifs with hitem
        · have : ¬ 0 < toInsert := fun hlt => hroom ⟨hitem, hlt⟩
          omega
        · exact le_rfl
      · simpa using hfirst hnone

/-- What is left after the loop goes into the first empty slot, if there is one. -/
theorem insertIntoInventory_cases {inventory : Stacks ι} {item : ι} {toInsert : ℤ} {scan : Scan ι}
    (hscan : insertLoop item 0 inventory (min toInsert (ItemClass.maxSize item)) none .empty =
      scan) :
    (∃ slot, scan.firstEmptySlot = some slot ∧ 0 < scan.remaining ∧
      insertIntoInventory inventory item toInsert =
        (scan.inventory.set slot (some ⟨item, scan.remaining⟩),
          scan.result.insert slot scan.remaining)) ∨
    ((scan.firstEmptySlot = none ∨ scan.remaining ≤ 0) ∧
      insertIntoInventory inventory item toInsert = (scan.inventory, scan.result)) := by
  subst hscan
  unfold insertIntoInventory
  simp only
  split
  · rename_i slot hslot
    split_ifs with hpos
    · exact .inl ⟨slot, hslot, hpos, rfl⟩
    · exact .inr ⟨.inr (not_lt.mp hpos), rfl⟩
  · exact .inr ⟨.inl ‹_›, rfl⟩

/-- Nothing is inserted where nothing is asked for. -/
theorem insertIntoInventory_nonpos (inventory : Stacks ι) (item : ι) {toInsert : ℤ}
    (h : min toInsert (ItemClass.maxSize item) ≤ 0) :
    insertIntoInventory inventory item toInsert = (inventory, .empty) := by
  unfold insertIntoInventory
  cases inventory with
  | nil => rfl
  | cons stack inventory => simp [insertLoop, h]

/-- The plan is possible, the inventory afterwards is that with the plan applied, and the number of
items in the plan is the sum over its insertions. -/
theorem insertIntoInventory_spec (inventory : Stacks ι) (item : ι) (toInsert : ℤ) :
    ∃ after plan, insertIntoInventory inventory item toInsert = (after, plan) ∧
      placeAll item inventory plan.insertions = some after ∧
      plan.nInserted = moved plan.insertions ∧ (∀ move ∈ plan.insertions, 0 < move.2) ∧
      (0 ≤ toInsert → plan.nInserted ≤ toInsert) := by
  by_cases hle : min toInsert (ItemClass.maxSize item) ≤ 0
  · refine ⟨_, _, insertIntoInventory_nonpos inventory item hle, ?_⟩
    simp [InsertPlan.empty, placeAll]
  generalize hscan :
    insertLoop item 0 inventory (min toInsert (ItemClass.maxSize item)) none .empty = scan
  have hcases := insertIntoInventory_cases hscan
  obtain ⟨moves, hok⟩ : ∃ moves, scan.Ok item 0 inventory _ none .empty moves :=
    hscan ▸ insertLoop_spec ..
  have hplaced : placeAll item inventory moves = some scan.inventory := hok.placed [] rfl
  have hplan : scan.result = ⟨moved moves, moves⟩ := by simpa [InsertPlan.empty] using hok.plan
  have hrest := hok.rest
  rcases hcases with ⟨slot, hslot, hpos, heq⟩ | ⟨-, heq⟩
  · obtain ⟨-, j, rfl, hj⟩ := (hok.first slot hslot).resolve_left (by simp)
    have hmoved := moved_nonneg hok.positive
    have hplace : place item scan.inventory (0 + j, scan.remaining) = _ :=
      place_none (by simpa using hj) hpos (by omega)
    refine ⟨_, _, heq, ?_, ?_, ?_, fun h0 => ?_⟩
    · rw [hplan, InsertPlan.insert, placeAll_append, hplaced, Option.bind_some,
        placeAll_cons hplace]
      rfl
    · simp [hplan, InsertPlan.insert, moved]
    · rw [hplan]
      exact List.forall_mem_append.mpr ⟨hok.positive, List.forall_mem_singleton.mpr hpos⟩
    · simp only [hplan, InsertPlan.insert]
      omega
  · refine ⟨_, _, heq, by rw [hplan, hplaced], by rw [hplan], by rw [hplan]; exact hok.positive,
      fun h0 => ?_⟩
    have hleft := hok.left
    simp only [hplan]
    omega

/-- Nothing is planned exactly when no slot has room. -/
theorem insertIntoInventory_full (inventory : Stacks ι) (item : ι) {toInsert : ℤ}
    (hsize : 0 < toInsert) (hmax : 0 < ItemClass.maxSize item) :
    (insertIntoInventory inventory item toInsert).2.insertions = [] ↔
      ∀ stack ∈ inventory, room item stack ≤ 0 := by
  generalize hscan :
    insertLoop item 0 inventory (min toInsert (ItemClass.maxSize item)) none .empty = scan
  have hcases := insertIntoInventory_cases hscan
  obtain ⟨moves, hok⟩ : ∃ moves, scan.Ok item 0 inventory _ none .empty moves :=
    hscan ▸ insertLoop_spec ..
  have hplan : scan.result = ⟨moved moves, moves⟩ := by simpa [InsertPlan.empty] using hok.plan
  have hrest := hok.rest
  rcases hcases with ⟨slot, hslot, hpos, heq⟩ | ⟨hend, heq⟩
  · have hnone := ((hok.first slot hslot).resolve_left (by simp)).1
    rw [heq]
    refine iff_of_false (by simp [InsertPlan.insert]) fun hfull => ?_
    exact absurd (hfull none hnone) (not_le.mpr hmax)
  · rw [heq, hplan]
    constructor
    · rintro rfl
      obtain ⟨hroom, hfirst⟩ := hok.full rfl (by omega)
      have hnone : none ∉ inventory := by
        refine (hfirst (hend.resolve_right fun hle => ?_)).2
        simp only [moved_nil] at hrest
        omega
      exact fun stack hstack => (hroom stack hstack).resolve_left fun h => hnone (h ▸ hstack)
    · intro hfull
      by_contra hne
      obtain ⟨stack, hstack, hpos⟩ := hok.used hne
      exact absurd (hfull stack hstack) (not_le.mpr hpos)

omit [DecidableEq ι] [ItemClass ι] in
theorem total_set {inventory : Stacks ι} {slot : ℕ} {stack : Option (ItemStack ι)}
    (h : inventory[slot]? = some stack) (new : ItemStack ι) :
    total (inventory.set slot (some new)) =
      total inventory - stack.elim 0 ItemStack.size + new.size := by
  obtain ⟨l₁, l₂, hl, -, hmodify⟩ := List.exists_cut h
  rw [List.set_eq_modify, hmodify, hl]
  simp [total]
  omega

theorem total_place {inventory after : Stacks ι} {move : ℕ × ℤ}
    (h : place item inventory move = some after) : total after = total inventory + move.2 := by
  unfold place at h
  cases hslot : inventory[move.1]? with
  | none => simp [hslot] at h
  | some stack =>
    rw [hslot] at h
    cases stack with
    | none =>
      simp only at h
      split_ifs at h
      obtain rfl := Option.some.inj h
      rw [total_set hslot]
      simp
    | some stack =>
      simp only at h
      split_ifs at h
      obtain rfl := Option.some.inj h
      rw [total_set hslot]
      simp only [Option.elim_some]
      omega

/-- What is inserted is there afterwards. -/
theorem total_placeAll {inventory after : Stacks ι} {moves : List (ℕ × ℤ)}
    (h : placeAll item inventory moves = some after) :
    total after = total inventory + moved moves := by
  induction moves generalizing inventory with
  | nil =>
    obtain rfl : inventory = after := by simpa [placeAll] using h
    simp
  | cons move moves ih =>
    obtain ⟨between, hplace, hrest⟩ : ∃ between, place item inventory move = some between ∧
        placeAll item between moves = some after := by
      simpa [placeAll, Option.bind_eq_some_iff] using h
    rw [ih hrest, total_place hplace, moved_cons]
    omega

end Inventory
end OCRemote
