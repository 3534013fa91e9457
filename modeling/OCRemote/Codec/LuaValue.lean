import Mathlib.Data.Prod.Lex
import Mathlib.Data.String.Basic
import Mathlib.Data.Sum.Order
import OCRemote.Lib.OrderedMap
import OCRemote.Lib.Utf8

/-! The values that travel between server and clients (`lua_value.rs`). Numbers are a linear
order `ν`: `NotNan<f64>` compares them as real numbers, with both zeros equal. -/

namespace OCRemote

inductive Key (ν : Type) where
  | F (x : ν)
  | S (s : String)
  | B (b : Bool)
  deriving DecidableEq

namespace Key
variable {ν : Type}

/-- The derived order: by variant first, then by content. -/
def rank : Key ν → ν ⊕ₗ (String ⊕ₗ Bool)
  | F x => Sum.inlₗ x
  | S s => Sum.inrₗ (Sum.inlₗ s)
  | B b => Sum.inrₗ (Sum.inrₗ b)

theorem rank_injective : Function.Injective (rank : Key ν → _) := by
  rintro (x | s | b) (y | t | c) h <;> simp_all [rank]

instance [LinearOrder ν] : LinearOrder (Key ν) := LinearOrder.lift' rank rank_injective

end Key

inductive Value (ν : Type) where
  | N
  | F (x : ν)
  | S (s : String)
  | B (b : Bool)
  | T (table : List (Key ν × Value ν))

/-- `BTreeMap<Key, Value>`: its entries in increasing order of keys. -/
abbrev Table (ν : Type) := List (Key ν × Value ν)

mutual

def Value.decEq {ν : Type} [DecidableEq ν] : (a b : Value ν) → Decidable (a = b)
  | .N, .N => .isTrue rfl
  | .F x, .F y => decidable_of_iff (x = y) (by simp)
  | .S x, .S y => decidable_of_iff (x = y) (by simp)
  | .B x, .B y => decidable_of_iff (x = y) (by simp)
  | .T x, .T y =>
    have := Table.decEq x y
    decidable_of_iff (x = y) (by simp)
  | .N, .F _ | .N, .S _ | .N, .B _ | .N, .T _ | .F _, .N | .F _, .S _ | .F _, .B _ | .F _, .T _
  | .S _, .N | .S _, .F _ | .S _, .B _ | .S _, .T _ | .B _, .N | .B _, .F _ | .B _, .S _
  | .B _, .T _ | .T _, .N | .T _, .F _ | .T _, .S _ | .T _, .B _ => .isFalse nofun

def Table.decEq {ν : Type} [DecidableEq ν] : (a b : List (Key ν × Value ν)) → Decidable (a = b)
  | [], [] => .isTrue rfl
  | [], _ :: _ | _ :: _, [] => .isFalse nofun
  | (k, v) :: a, (l, w) :: b =>
    have := Value.decEq v w
    have := Table.decEq a b
    decidable_of_iff (k = l ∧ v = w ∧ a = b) (by simp [and_assoc])

end

instance {ν : Type} [DecidableEq ν] : DecidableEq (Value ν) := Value.decEq

section
variable {ν : Type} [LinearOrder ν]

mutual

/-- All tables in a value have their keys in order, as those of a `BTreeMap` are. -/
def Value.Ordered : Value ν → Prop
  | .N | .F _ | .S _ | .B _ => True
  | .T table => OrderedMap.Sorted table ∧ Table.Ordered table

def Table.Ordered : List (Key ν × Value ν) → Prop
  | [] => True
  | (_, v) :: es => v.Ordered ∧ Table.Ordered es

end

theorem Table.ordered_iff {es : Table ν} : Table.Ordered es ↔ ∀ e ∈ es, e.2.Ordered := by
  induction es with
  | nil => simp [Table.Ordered]
  | cons e es ih => simp only [Table.Ordered, ih, List.forall_mem_cons]

theorem Value.Ordered.nil : (Value.T ([] : Table ν)).Ordered := ⟨List.Pairwise.nil, trivial⟩

theorem Value.Ordered.insert {table : Table ν} (h : (Value.T table).Ordered) (key : Key ν)
    {value : Value ν}
    (hvalue : value.Ordered) : (Value.T (OrderedMap.insert key value table)).Ordered := by
  refine ⟨OrderedMap.sorted_insert h.1, Table.ordered_iff.mpr fun e he => ?_⟩
  rcases OrderedMap.key_mem_insert he with rfl | he
  · exact hvalue
  · exact Table.ordered_iff.mp h.2 e he

theorem Value.Ordered.insertAll {table : Table ν} (h : (Value.T table).Ordered) {es : Table ν}
    (hes : Table.Ordered es) : (Value.T (OrderedMap.insertAll es table)).Ordered := by
  induction es generalizing table with
  | nil => exact h
  | cons e es ih => exact ih (h.insert e.1 hes.1) hes.2

theorem Value.Ordered.eraseAll {table : Table ν} (h : (Value.T table).Ordered)
    (keys : List (Key ν)) : (Value.T (OrderedMap.eraseAll keys table)).Ordered := by
  refine ⟨OrderedMap.sorted_eraseAll h.1 keys, Table.ordered_iff.mpr fun e he => ?_⟩
  exact Table.ordered_iff.mp h.2 e ((OrderedMap.eraseAll_sublist keys table).subset he)

end

/-- How numbers are printed by one side and read by the other. -/
structure NumberFormat (ν : Type) where
  print : ν → String
  parse : String → Option ν
  finite : ν → Prop
  parse_print : ∀ x, finite x → parse (print x) = some x
  print_no_at : ∀ x, finite x → 0x40 ∉ Utf8.bytes (print x)

end OCRemote
