import OCRemote.Codec.Encode

/-! `serialize` of `lua_value.rs`: what the server writes to its clients. -/

namespace OCRemote

namespace Value
variable {ν : Type}

/-- The loop writes '.' after each '@', as `gsub` does. -/
def serializeString (x : String) : List UInt8 :=
  0x40 :: (LuaValue.gsub (Utf8.bytes x) ++ [0x40, 0x7E])

def serializeBool (x : Bool) : List UInt8 := [if x then 0x2B else 0x2D]

def serializeNum (number : NumberFormat ν) (x : ν) : List UInt8 :=
  0x23 :: (Utf8.bytes (number.print x) ++ [0x40])

def serializeKey (number : NumberFormat ν) : Key ν → List UInt8
  | .F x => serializeNum number x
  | .S x => serializeString x
  | .B x => serializeBool x

mutual

def serialize (number : NumberFormat ν) : Value ν → List UInt8
  | .N => [0x21]
  | .F x => serializeNum number x
  | .S x => serializeString x
  | .B x => serializeBool x
  | .T x => 0x3D :: (serializeEntries number x ++ [0x21])

def serializeEntries (number : NumberFormat ν) : Table ν → List UInt8
  | [] => []
  | (k, v) :: x => serializeKey number k ++ serialize number v ++ serializeEntries number x

end

mutual

/-- Finite numbers, and no `N` inside tables. -/
def Sendable (number : NumberFormat ν) : Value ν → Prop
  | .N | .S _ | .B _ => True
  | .F x => number.finite x
  | .T x => SendableEntries number x

def SendableEntries (number : NumberFormat ν) : Table ν → Prop
  | [] => True
  | (k, v) :: x =>
    (∀ y, k = .F y → number.finite y) ∧ (Sendable number v ∧ v ≠ .N) ∧ SendableEntries number x

end

end Value

namespace LuaValue
variable {ν : Type}

def ofKey : Key ν → LuaValue ν
  | .F x => .number x
  | .S x => .string (Utf8.bytes x)
  | .B x => .boolean x

mutual

/-- The Lua value denoted by a value. -/
def ofValue : Value ν → LuaValue ν
  | .N => nil
  | .F x => .number x
  | .S x => .string (Utf8.bytes x)
  | .B x => .boolean x
  | .T x => .table (ofEntries x)

def ofEntries : Table ν → List (LuaValue ν × LuaValue ν)
  | [] => []
  | (k, v) :: x => (ofKey k, ofValue v) :: ofEntries x

end

@[simp] theorem toKey_ofKey (k : Key ν) : toKey (ofKey k) = some k := by
  cases k <;> simp [toKey, ofKey]

variable [LinearOrder ν]

mutual

/-- The Lua value denoted by a value stands for that value. -/
theorem denote_ofValue : ∀ {v : Value ν}, v.Ordered → denote (ofValue v) = v
  | .N, _ | .F _, _ | .B _, _ => rfl
  | .S x, _ => by simp [ofValue, denote]
  | .T x, h => by rw [ofValue, denote, denotePairs_ofEntries h.2, OrderedMap.ofList_sorted h.1]

theorem denotePairs_ofEntries : ∀ {x : Table ν}, Table.Ordered x → denotePairs (ofEntries x) = x
  | [], _ => rfl
  | (k, v) :: x, h => by
    simp only [ofEntries, denotePairs, toKey_ofKey, denote_ofValue h.1, denotePairs_ofEntries h.2]

end

end LuaValue
end OCRemote
