import OCRemote.Factory.InventoryPlan
import OCRemote.Factory.ReserveEach
import OCRemote.Process.JobBalanced

/-! `manual_ui.rs`: items that a user asks for, as `pattern*count`. -/

namespace OCRemote

/-- `i32::from_str`. -/
def i32FromStr (text : String) : Option ℤ :=
  let negative : Bool := text.toList.head? = some '-'
  let digits :=
    if negative ∨ text.toList.head? = some '+' then text.toList.tail else text.toList
  let n : ℤ := Nat.ofDigitChars 10 digits 0
  let n := if negative then -n else n
  if digits = [] ∨ digits.all Char.isDigit = false ∨ n < i32Min ∨ i32Max < n then none else some n

namespace Inventory
variable {ι : Type} [DecidableEq ι] [ItemClass ι]

/-- How much of an item goes into the inventory. -/
def capacity (item : ι) (inventory : Stacks ι) : ℤ :=
  if 0 < ItemClass.maxSize item then (inventory.map fun stack => max 0 (room item stack)).sum else 0

variable {item : ι} {inventory after : Stacks ι}

theorem capacity_nonneg (item : ι) (inventory : Stacks ι) : 0 ≤ capacity item inventory := by
  unfold capacity
  split_ifs
  · apply List.sum_nonneg
    intro n hn
    obtain ⟨stack, -, rfl⟩ := List.mem_map.mp hn
    exact le_max_left _ _
  · exact le_rfl

theorem capacity_place (hmax : 0 < ItemClass.maxSize item) {move : ℕ × ℤ}
    (h : place item inventory move = some after) :
    capacity item after = capacity item inventory - move.2 := by
  obtain ⟨stack, hslot, haccepts, hpos, hle, rfl⟩ := place_iff.mp h
  -- both rooms are what is missing to a full stack
  have hroom : room item stack = ItemClass.maxSize item - amount stack := by
    cases stack with
    | none => simp [room, amount]
    | some stack => simp [room, amount, haccepts stack rfl]
  have hafter : room item (some ⟨item, amount stack + move.2⟩) =
      ItemClass.maxSize item - (amount stack + move.2) := if_pos rfl
  obtain ⟨l₁, l₂, hl, -, hmodify⟩ := List.exists_cut hslot
  rw [List.set_eq_modify, hmodify, hl]
  simp only [capacity, if_pos hmax, List.map_append, List.map_cons, List.sum_append,
    List.sum_cons, hroom, hafter]
  omega

theorem capacity_placeAll (hmax : 0 < ItemClass.maxSize item) {moves : List (ℕ × ℤ)}
    (h : placeAll item inventory moves = some after) :
    capacity item after = capacity item inventory - moved moves := by
  induction moves generalizing inventory with
  | nil =>
    obtain rfl : inventory = after := by simpa [placeAll] using h
    simp
  | cons move moves ih =>
    obtain ⟨between, hplace, hrest⟩ := placeAll_cons_iff.mp h
    rw [ih hrest, capacity_place hmax hplace, moved_cons]
    omega

end Inventory

namespace ManualUi
variable {ι ε : Type}

/-- What is before and behind the last `*`. -/
def splitLast : List Char → Option (List Char × List Char)
  | [] => none
  | c :: rest =>
    match splitLast rest with
    | some (before, after) => some (c :: before, after)
    | none => if c = '*' then some ([], rest) else none

/-- `make_pred`. An expression that is not regular matches nothing. -/
def makePred [ItemClass ι] (regex : String → Option (String → Bool)) :
    List Char → ItemStack ι → Bool
  | [], _ => true
  | '=' :: needle, x => (regex (String.ofList needle)).elim false fun r => r (ItemClass.name x.item)
  | needle, x => (regex (String.ofList needle)).elim false fun r => r (ItemClass.label x.item)

/-- The argument of `scattering_insert`. -/
structure Task (ι ε : Type) where
  item : ι
  reservation : Reservation ε
  insertions : List (ℕ × ℤ)

def Task.job (task : Task ι ε) : JobPlan := scatteringInsert task.reservation task.insertions

structure State (ι ε : Type) where
  items : ItemTable ι ε
  inventory : Stacks ι
  tasks : List (Task ι ε)

variable [DecidableEq ι] [ItemClass ι]

/-- `latest_view`: everything that is stored, most of it first. -/
def latestView (order : Enumeration ι) (items : ItemTable ι ε) : List (ItemStack ι) :=
  ((order.list items.items.keys).map fun item => ⟨item, items.getNStored item⟩).insertionSort
    fun x y => -x.size ≤ -y.size

theorem nInserted_le_toNat {inventory : Stacks ι} {item : ι} {size : ℤ}
    (h : 0 < (Inventory.insertIntoInventory inventory item
      (min size (ItemClass.maxSize item))).2.nInserted) :
    (size - (Inventory.insertIntoInventory inventory item
      (min size (ItemClass.maxSize item))).2.nInserted).toNat < size.toNat := by
  by_cases hsize : min (min size (ItemClass.maxSize item)) (ItemClass.maxSize item) ≤ 0
  · rw [Inventory.insertIntoInventory_nonpos inventory item hsize] at h
    exact absurd h (lt_irrefl 0)
  · omega

/-- The loop over what is still to be inserted. No value means that the reservation panicked. -/
def fulfil (rule : TopRule (Provider ε) Provider.priority) (item : ι) (s : State ι ε) (size : ℤ) :
    Option (State ι ε) :=
  let r := Inventory.insertIntoInventory s.inventory item (min size (ItemClass.maxSize item))
  if _ : 0 < r.2.nInserted then
    match s.items.reserveItem rule item r.2.nInserted with
    | none => none
    | some (items, reservation) =>
      fulfil rule item ⟨items, r.1, s.tasks ++ [⟨item, reservation, r.2.insertions⟩]⟩
        (size - r.2.nInserted)
  else some { s with inventory := r.1 }
termination_by size.toNat
decreasing_by exact nInserted_le_toNat ‹_›

/-- What a request asks for, if it can be read and something matches. -/
def asked (regex : String → Option (String → Bool)) (view : List (ItemStack ι)) (request : String) :
    Option (ι × ℤ) :=
  match splitLast request.toList with
  | none => none
  | some (needle, count) =>
    match view.find? (makePred regex needle) with
    | none => none
    | some stack => (i32FromStr (String.ofList count)).map fun size => (stack.item, size)

def onRequest (regex : String → Option (String → Bool))
    (rule : TopRule (Provider ε) Provider.priority) (view : List (ItemStack ι)) (s : State ι ε)
    (request : String) : Option (State ι ε) :=
  match asked regex view request with
  | none => some s
  | some (item, size) => fulfil rule item s (min (s.items.getNStored item) size)

/-- The part of `run` that comes after the listing, with the requests of `input_queue`. -/
def run (regex : String → Option (String → Bool)) (order : Enumeration ι)
    (rule : TopRule (Provider ε) Provider.priority) (items : ItemTable ι ε) (inventory : Stacks ι)
    (requests : List String) : Option (State ι ε) :=
  requests.foldlM (onRequest regex rule (latestView order items)) ⟨items, inventory, []⟩

/-- How much of an item a request for so much of it moves. -/
def granted (item : ι) (size : ℤ) (inventory : Stacks ι) : ℤ :=
  max 0 (min size (Inventory.capacity item inventory))

/-- The tasks of a request move what is granted, each what it reserved, to slots that have room for
it, and the table has as much less of it. -/
structure Served (item : ι) (size : ℤ) (s s' : State ι ε) (tasks : List (Task ι ε)) : Prop where
  stocked : s'.items.Stocked
  appended : s'.tasks = s.tasks ++ tasks
  jobs : ∀ task ∈ tasks, task.item = item ∧ task.job.Balanced
  placed : Inventory.placeAll item s.inventory (tasks.flatMap Task.insertions) = some s'.inventory
  moved : Inventory.moved (tasks.flatMap Task.insertions) = granted item size s.inventory
  stored : ∀ item', s'.items.getNStored item' =
    s.items.getNStored item' - if item = item' then granted item size s.inventory else 0

/-- An insertion and what the rest of the loop grants make up what is granted. -/
theorem granted_placeAll {item : ι} {size : ℤ} {inventory after : Stacks ι}
    {moves : List (ℕ × ℤ)} (h : Inventory.placeAll item inventory moves = some after)
    (hpos : 0 < Inventory.moved moves)
    (hle : Inventory.moved moves ≤ min size (ItemClass.maxSize item)) :
    Inventory.moved moves + granted item (size - Inventory.moved moves) after =
      granted item size inventory := by
  have hcapacity := Inventory.capacity_placeAll (by omega) h
  have hnonneg := Inventory.capacity_nonneg item after
  unfold granted
  omega

/-- Where nothing is inserted, nothing changes. -/
theorem Served.refl {item : ι} {size : ℤ} {s : State ι ε} (hstocked : s.items.Stocked)
    (h : granted item size s.inventory = 0) : Served item size s s [] where
  stocked := hstocked
  appended := (List.append_nil _).symm
  jobs := by simp
  placed := rfl
  moved := h.symm
  stored item' := by simp [h]

/-- An insertion before the rest of the loop. -/
theorem Served.cons {item : ι} {size : ℤ} {s between s' : State ι ε} {task : Task ι ε}
    {tasks : List (Task ι ε)} (hitem : task.item = item) (hjob : task.job.Balanced)
    (happended : between.tasks = s.tasks ++ [task])
    (hplaced : Inventory.placeAll item s.inventory task.insertions = some between.inventory)
    (hpos : 0 < Inventory.moved task.insertions)
    (hle : Inventory.moved task.insertions ≤ min size (ItemClass.maxSize item))
    (hstored : ∀ item', between.items.getNStored item' =
      s.items.getNStored item' - if item = item' then Inventory.moved task.insertions else 0)
    (h : Served item (size - Inventory.moved task.insertions) between s' tasks) :
    Served item size s s' (task :: tasks) where
  stocked := h.stocked
  appended := by rw [h.appended, happended, List.append_assoc, List.singleton_append]
  jobs := List.forall_mem_cons.mpr ⟨⟨hitem, hjob⟩, h.jobs⟩
  placed := by
    rw [List.flatMap_cons, Inventory.placeAll_append, hplaced, Option.bind_some]
    exact h.placed
  moved := by
    rw [← granted_placeAll hplaced hpos hle, ← h.moved]
    simp [Inventory.moved]
  stored item' := by
    have hgranted := granted_placeAll hplaced hpos hle
    rw [h.stored, hstored]
    split_ifs <;> omega

end ManualUi
end OCRemote
