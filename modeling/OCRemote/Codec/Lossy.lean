import OCRemote.Codec.Encode

/-! What the server makes of a Lua value whose strings are arbitrary bytes: bytes that are not
UTF-8 are replaced, and of two entries whose keys are no longer told apart the later one stays. -/

namespace OCRemote
namespace LuaValue
variable {ν : Type}

def lossyKey : LuaValue ν → Option (Key ν)
  | .number x => some (.F x)
  | string s => some (.S (Utf8.fromUtf8Lossy s))
  | boolean b => some (.B b)
  | nil | table _ => none

mutual

/-- Finite numbers, and tables as Lua has them: keys are neither nil nor tables, and values are
not nil. -/
def Regular (number : NumberFormat ν) : LuaValue ν → Prop
  | nil | string _ | boolean _ => True
  | .number x => number.finite x
  | table es => RegularPairs number es

def RegularPairs (number : NumberFormat ν) : List (LuaValue ν × LuaValue ν) → Prop
  | [] => True
  | (k, v) :: es => (Regular number k ∧ k ≠ nil ∧ ∀ t, k ≠ table t) ∧
      (Regular number v ∧ v ≠ nil) ∧ RegularPairs number es

end

variable {number : NumberFormat ν}

theorem lossyKey_isSome {k : LuaValue ν} (hn : k ≠ nil) (ht : ∀ t, k ≠ table t) :
    (lossyKey k).isSome := by
  cases k with
  | nil => exact absurd rfl hn
  | number x | string s | boolean b => rfl
  | table es => exact absurd rfl (ht es)

theorem regularPairs_iff {es : List (LuaValue ν × LuaValue ν)} :
    RegularPairs number es ↔ ∀ e ∈ es, (Regular number e.1 ∧ e.1 ≠ nil ∧ ∀ t, e.1 ≠ table t) ∧
      Regular number e.2 ∧ e.2 ≠ nil := by
  induction es with
  | nil => simp [RegularPairs]
  | cons e es ih => simp only [RegularPairs, ih, List.forall_mem_cons, and_assoc]

mutual

theorem Encodable.regular : ∀ {v : LuaValue ν}, Encodable number v → Regular number v
  | .nil, _ | .string _, _ | .boolean _, _ => trivial
  | .number _, h => h
  | .table _, h => h.1.regular

theorem EncodablePairs.regular : ∀ {es : List (LuaValue ν × LuaValue ν)},
    EncodablePairs number es → RegularPairs number es
  | [], _ => trivial
  | (_, _) :: _, ⟨⟨hk, hkey⟩, ⟨hv, hne⟩, hes⟩ =>
    ⟨⟨hk.regular, hkey⟩, ⟨hv.regular, hne⟩, hes.regular⟩

end

theorem toKey_eq_lossyKey {k : LuaValue ν} (hk : Encodable number k) : toKey k = lossyKey k := by
  cases k with
  | string s =>
    obtain ⟨t, rfl⟩ := hk
    simp [toKey, lossyKey]
  | nil | number x | boolean b | table es => rfl

theorem toKey_isSome {k : LuaValue ν} (hk : Encodable number k ∧ k ≠ nil ∧ ∀ t, k ≠ table t) :
    (toKey k).isSome := by
  rw [toKey_eq_lossyKey hk.1]
  exact lossyKey_isSome hk.2.1 hk.2.2

variable [LinearOrder ν]

mutual

def lossy : LuaValue ν → Value ν
  | nil => .N
  | .number x => .F x
  | string s => .S (Utf8.fromUtf8Lossy s)
  | boolean b => .B b
  | table es => .T (OrderedMap.ofList (lossyPairs es))

def lossyPairs : List (LuaValue ν × LuaValue ν) → List (Key ν × Value ν)
  | [] => []
  | (k, v) :: es =>
    match lossyKey k with
    | some k => (k, lossy v) :: lossyPairs es
    | none => lossyPairs es

end

theorem lossyPairs_eq {es : List (LuaValue ν × LuaValue ν)} :
    lossyPairs es = OrderedMap.mapEntries lossyKey lossy es := by
  induction es with
  | nil => rfl
  | cons e es ih =>
    obtain ⟨k, v⟩ := e
    simp only [lossyPairs, OrderedMap.mapEntries, List.filterMap_cons] at ih ⊢
    cases lossyKey k <;> simp [ih]

mutual

/-- Nothing is replaced in text. -/
theorem Encodable.lossy_eq : ∀ {v : LuaValue ν}, Encodable number v → lossy v = denote v
  | .nil, _ | .number _, _ | .boolean _, _ => rfl
  | .string s, h => by
    obtain ⟨t, rfl⟩ := h
    simp [lossy, denote]
  | .table es, h => by rw [lossy, denote, h.1.lossyPairs_eq]

theorem EncodablePairs.lossyPairs_eq : ∀ {es : List (LuaValue ν × LuaValue ν)},
    EncodablePairs number es → lossyPairs es = denotePairs es
  | [], _ => rfl
  | (k, v) :: es, ⟨⟨hk, _⟩, ⟨hv, _⟩, hes⟩ => by
    have hkey := toKey_eq_lossyKey hk
    cases h : lossyKey k with
    | none => simp only [lossyPairs, denotePairs, hkey, h, hes.lossyPairs_eq]
    | some key => simp only [lossyPairs, denotePairs, hkey, h, hv.lossy_eq, hes.lossyPairs_eq]

end

mutual

/-- The server's tables are in order. -/
theorem lossy_ordered : ∀ v : LuaValue ν, (lossy v).Ordered
  | .nil | .number _ | .string _ | .boolean _ => trivial
  | .table es => Value.Ordered.nil.insertAll (lossyPairs_ordered es)

theorem lossyPairs_ordered :
    ∀ es : List (LuaValue ν × LuaValue ν), Table.Ordered (lossyPairs es)
  | [] => trivial
  | (k, v) :: es => by
    simp only [lossyPairs]
    cases lossyKey k with
    | none => exact lossyPairs_ordered es
    | some key => exact ⟨lossy_ordered v, lossyPairs_ordered es⟩

end

end LuaValue
end OCRemote
