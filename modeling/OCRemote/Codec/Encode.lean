import OCRemote.Codec.LuaValue

/-! `encode` of `client.lua`. The entries of a Lua table stand in the order in which `pairs`
enumerates them; the same table in another order is related to it by `Reordered`. -/

namespace OCRemote

inductive LuaValue (ν : Type) where
  | nil
  | number (x : ν)
  | string (s : List UInt8)
  | boolean (b : Bool)
  | table (entries : List (LuaValue ν × LuaValue ν))

namespace LuaValue
variable {ν : Type}

/-- `string.gsub(x, '@', '@.')`. -/
def gsub (s : List UInt8) : List UInt8 := s.flatMap fun b => if b = 0x40 then [0x40, 0x2E] else [b]

mutual

def encode (number : NumberFormat ν) : LuaValue ν → List UInt8
  | nil => [0x21]
  | .number x => 0x23 :: (Utf8.bytes (number.print x) ++ [0x40])
  | string s => 0x40 :: (gsub s ++ [0x40, 0x7E])
  | boolean b => [if b then 0x2B else 0x2D]
  | table es => 0x3D :: (encodePairs number es ++ [0x21])

def encodePairs (number : NumberFormat ν) : List (LuaValue ν × LuaValue ν) → List UInt8
  | [] => []
  | (k, v) :: es => encode number k ++ encode number v ++ encodePairs number es

end

/-- The key of the decoded table that stands for a Lua key. -/
def toKey : LuaValue ν → Option (Key ν)
  | .number x => some (.F x)
  | string s => (Utf8.read? s).map .S
  | boolean b => some (.B b)
  | nil | table _ => none

mutual

/-- Finite numbers, text in UTF-8, and tables whose keys are distinct and neither nil nor
tables and whose values are not nil. -/
def Encodable (number : NumberFormat ν) : LuaValue ν → Prop
  | nil => True
  | .number x => number.finite x
  | string s => Utf8.Valid s
  | boolean _ => True
  | table es => EncodablePairs number es ∧ (es.map fun e => toKey e.1).Nodup

def EncodablePairs (number : NumberFormat ν) : List (LuaValue ν × LuaValue ν) → Prop
  | [] => True
  | (k, v) :: es => (Encodable number k ∧ k ≠ nil ∧ ∀ t, k ≠ table t) ∧
      (Encodable number v ∧ v ≠ nil) ∧ EncodablePairs number es

end

mutual

/-- The same value with its tables, at any depth, enumerated in another order. -/
inductive Reordered : LuaValue ν → LuaValue ν → Prop where
  | refl (v : LuaValue ν) : Reordered v v
  | table {es fs gs : List (LuaValue ν × LuaValue ν)} :
      ReorderedPairs es fs → fs.Perm gs → Reordered (.table es) (.table gs)

inductive ReorderedPairs :
    List (LuaValue ν × LuaValue ν) → List (LuaValue ν × LuaValue ν) → Prop where
  | nil : ReorderedPairs [] []
  | cons {k v w : LuaValue ν} {es fs : List (LuaValue ν × LuaValue ν)} :
      Reordered v w → ReorderedPairs es fs → ReorderedPairs ((k, v) :: es) ((k, w) :: fs)

end

variable {number : NumberFormat ν}

theorem encodablePairs_iff {es : List (LuaValue ν × LuaValue ν)} :
    EncodablePairs number es ↔ ∀ e ∈ es, (Encodable number e.1 ∧ e.1 ≠ nil ∧ ∀ t, e.1 ≠ table t) ∧
      Encodable number e.2 ∧ e.2 ≠ nil := by
  induction es with
  | nil => simp [EncodablePairs]
  | cons e es ih => simp only [EncodablePairs, ih, List.forall_mem_cons, and_assoc]

variable [LinearOrder ν]

mutual

/-- The value a Lua value stands for. -/
def denote : LuaValue ν → Value ν
  | nil => .N
  | .number x => .F x
  | string s => .S ((Utf8.read? s).getD "")
  | boolean b => .B b
  | table es => .T (OrderedMap.ofList (denotePairs es))

def denotePairs : List (LuaValue ν × LuaValue ν) → List (Key ν × Value ν)
  | [] => []
  | (k, v) :: es =>
    match toKey k with
    | some k => (k, denote v) :: denotePairs es
    | none => denotePairs es

end

theorem denotePairs_eq {es : List (LuaValue ν × LuaValue ν)} :
    denotePairs es = OrderedMap.mapEntries toKey denote es := by
  induction es with
  | nil => rfl
  | cons e es ih =>
    obtain ⟨k, v⟩ := e
    simp only [denotePairs, OrderedMap.mapEntries, List.filterMap_cons] at ih ⊢
    cases toKey k <;> simp [ih]

theorem denotePairs_perm {es fs : List (LuaValue ν × LuaValue ν)} (h : es.Perm fs) :
    (denotePairs es).Perm (denotePairs fs) := by
  rw [denotePairs_eq, denotePairs_eq]
  exact OrderedMap.mapEntries_perm h

theorem denotePairs_nodup {es : List (LuaValue ν × LuaValue ν)}
    (h : (es.map fun e => toKey e.1).Nodup) : ((denotePairs es).map Prod.fst).Nodup := by
  rw [denotePairs_eq]
  exact OrderedMap.mapEntries_nodup h

end LuaValue
end OCRemote
