import OCRemote.Factory.Listing

/-! What `client.lua` does with one request. The computer that the script runs on and the components
of its network are a parameter. -/

namespace OCRemote

/-- How numbers travel. All whole numbers up to `exact` are sent as they are. -/
structure Wire (ν : Type) where
  number : NumberFormat ν
  conv : Conversion ν
  exact : ℕ
  exact_le : exact ≤ 2 ^ 53
  finite_ofInt : ∀ n : ℕ, n ≤ exact → number.finite (conv.ofInt n)

namespace Client
variable {ν ω : Type}

/-- The computer. A call may raise an error, and may change its state in any case. -/
structure Computer (ν ω : Type) where
  /-- The addresses that `component.list` goes through, of one type of components or of all. -/
  list : ω → Option (List UInt8) → List (List UInt8)
  /-- A method of the component with some address. -/
  invoke : List UInt8 → LuaValue ν → List (LuaValue ν) → ω → Except String (List (LuaValue ν)) × ω
  /-- A method that does not return a table but something to enumerate it with. -/
  getAllStacks : List UInt8 → LuaValue ν → ω → Except String (Option (List (Slot ν))) × ω
  beep : LuaValue ν → ω → Except String Unit × ω
  /-- The order in which `pairs` goes through the tables in a value. -/
  pairs : ω → LuaValue ν → LuaValue ν
  reordered : ∀ w v, LuaValue.Reordered v (pairs w v)

/-- The arguments of the script, and the components it looks up when it starts. -/
structure Setup (ν : Type) where
  clientName : String
  resX : LuaValue ν
  resY : LuaValue ν
  gpu : Option (List UInt8)
  dbAddr : Option (List UInt8)

structure Env (ω : Type) where
  invCache : List (List UInt8 × List UInt8)
  machine : ω

/-- A piece of the script. What it did before an error stays done. -/
abbrev Script (ω α : Type) := StateT (Env ω) (Except (String × Env ω)) α

namespace Script

def raise {α : Type} (e : String) : Script ω α := fun env => .error (e, env)

def call {α : Type} (f : ω → Except String α × ω) : Script ω α := fun env =>
  match f env.machine with
  | (.error e, w) => .error (e, { env with machine := w })
  | (.ok a, w) => .ok (a, { env with machine := w })

/-- An operation of Lua that raises an error on the wrong type. -/
def ofOption {α : Type} (e : String) : Option α → Script ω α
  | none => raise e
  | some a => pure a

end Script

/-- `string.lower`. -/
def lower (s : List UInt8) : List UInt8 :=
  s.map fun b => if 0x41 ≤ b && b ≤ 0x5A then b + 0x20 else b

def resolve (computer : Computer ν ω) (short : List UInt8) (w : ω) : Option (List UInt8) :=
  match computer.list w (some short) with
  | addr :: _ => some addr
  | [] => (computer.list w none).find? fun addr => lower (addr.take short.length) == lower short

/-- A component is its address. -/
def getInv (computer : Computer ν ω) (invName : LuaValue ν) : Script ω (List UInt8) := fun env =>
  match invName with
  | .string short =>
    match env.invCache.lookup short with
    | some addr => .ok (addr, env)
    | none =>
      match resolve computer short env.machine with
      | none => .error ("bad argument #1 (string expected, got no value)", env)
      | some addr => .ok (addr, { env with invCache := (short, addr) :: env.invCache })
  | _ => .error ("bad argument #1 (string expected)", env)

section
variable [DecidableEq ν]

/-- The values that `ipairs` goes through from `i` on, which are no more than `fuel`. -/
def ipairsFrom (conv : Conversion ν) (data : List (LuaValue ν × LuaValue ν)) :
    ℕ → ℕ → List (LuaValue ν)
  | 0, _ => []
  | fuel + 1, i =>
    match LuaValue.index (.number (conv.ofInt i)) data with
    | .nil => []
    | x => x :: ipairsFrom conv data fuel (i + 1)

/-- `ipairs` of a table, and `table.unpack` with the least border. -/
def ipairs (conv : Conversion ν) (data : List (LuaValue ν × LuaValue ν)) : List (LuaValue ν) :=
  ipairsFrom conv data data.length 1

/-- `{...}`. -/
def packFrom (conv : Conversion ν) : ℕ → List (LuaValue ν) → List (LuaValue ν × LuaValue ν)
  | _, [] => []
  | i, .nil :: xs => packFrom conv (i + 1) xs
  | i, x :: xs => (.number (conv.ofInt i), x) :: packFrom conv (i + 1) xs

def pack (conv : Conversion ν) (xs : List (LuaValue ν)) : LuaValue ν :=
  .table (packFrom conv 1 xs)

/-- `p.key`. -/
def field (p : List (LuaValue ν × LuaValue ν)) (key : String) : LuaValue ν :=
  LuaValue.index (.string (Utf8.bytes key)) p

def luaString (s : String) : LuaValue ν := .string (Utf8.bytes s)

/-- An argument that has to be a table. -/
def tableOf : LuaValue ν → Option (List (LuaValue ν × LuaValue ν))
  | .table data => some data
  | _ => none

def method (computer : Computer ν ω) (inv : Option (List UInt8)) (fn : LuaValue ν)
    (args : List (LuaValue ν)) : Script ω (List (LuaValue ν)) := do
  let addr ← Script.ofOption "attempt to index a nil value" inv
  Script.call (computer.invoke addr fn args)

/-- `print`. -/
def print (conv : Conversion ν) (computer : Computer ν ω) (setup : Setup ν)
    (p : List (LuaValue ν × LuaValue ν)) : Script ω Unit := do
  if setup.gpu.isSome then
    let one := .number (conv.ofInt 1)
    let copy := [one, one, setup.resX, setup.resY, .number (conv.ofInt 0), .number (conv.ofInt (-1))]
    let _ ← method computer setup.gpu (luaString "copy") copy
    let fill := [one, setup.resY, setup.resX, setup.resY, luaString " "]
    let _ ← method computer setup.gpu (luaString "fill") fill
    let _ ← method computer setup.gpu (luaString "setForeground") [field p "color"]
    let _ ← method computer setup.gpu (luaString "set") [one, setup.resY, field p "text"]
  if (field p "beep").truthy then
    Script.call (computer.beep (field p "beep"))

end

section
variable [LinearOrder ν]

theorem luaString_lossy (s : String) : (luaString s : LuaValue ν).lossy = .S s := by
  rw [luaString, LuaValue.lossy, Utf8.fromUtf8Lossy_bytes]

/-- The item of a list that passes the test of `listME`. No value means that it raises an error. -/
def kept (conv : Conversion ν) : LuaValue ν → Option (Slot ν)
  | .table item => Listing.occupied conv (some item)
  | .nil | .boolean false | .string _ => some none
  | .boolean true | .number _ => none

/-- The loop of `listME`, where `result` has no gaps. -/
def listMELoop (conv : Conversion ν) : List (LuaValue ν) → List (LuaValue ν × LuaValue ν) →
    Option (List (LuaValue ν × LuaValue ν))
  | [], result => some result
  | item :: items, result =>
    match kept conv item with
    | none => none
    | some none => listMELoop conv items result
    | some (some item) =>
      listMELoop conv items
        (LuaValue.assign (.number (conv.ofInt (result.length + 1 : ℕ))) (.table item) result)

def listME (conv : Conversion ν) (items : List (LuaValue ν)) : Option (LuaValue ν) :=
  (listMELoop conv items []).map .table

/-- The branch of `xferME`. -/
def xferME (conv : Conversion ν) (computer : Computer ν ω) (setup : Setup ν)
    (inv : Option (List UInt8)) (p : List (LuaValue ν × LuaValue ν)) : Script ω Unit := do
  let me ← getInv computer (field p "me")
  let one := .number (conv.ofInt 1)
  let dbAddr := setup.dbAddr.elim .nil .string
  let _ ← method computer setup.dbAddr (luaString "clear") [one]
  let store := [field p "filter", dbAddr, field p "entry", one]
  let _ ← method computer (some me) (luaString "store") store
  let configuration := [field p "entry", dbAddr, field p "entry", field p "size"]
  let _ ← method computer (some me) (luaString "setInterfaceConfiguration") configuration
  let args ← Script.ofOption "bad argument #1 (table expected)" (tableOf (field p "args"))
  let _ ← method computer inv (luaString "transferItem") (ipairs conv args)
  let _ ← method computer (some me) (luaString "setInterfaceConfiguration") [one]

/-- The component that a request is for, if it names one. -/
def target (computer : Computer ν ω) (p : List (LuaValue ν × LuaValue ν)) :
    Script ω (Option (List UInt8)) :=
  if (field p "inv").truthy then some <$> getInv computer (field p "inv") else pure none

/-- The body of the loop over the requests of a packet, up to its result. -/
def dispatch (wire : Wire ν) (computer : Computer ν ω) (setup : Setup ν) :
    LuaValue ν → Script ω (LuaValue ν)
  | .table p => do
    let inv ← target computer p
    if LuaValue.rawEqual (field p "op") (luaString "print") then
      print wire.conv computer setup p
      pure .nil
    else if LuaValue.rawEqual (field p "op") (luaString "list") then
      let addr ← Script.ofOption "attempt to index a nil value" inv
      let slots ← Script.call (computer.getAllStacks addr (field p "side"))
      Script.ofOption "attempt to compare" (Listing.list wire.conv slots)
    else if LuaValue.rawEqual (field p "op") (luaString "listME") then
      let out ← method computer inv (luaString "getItemsInNetwork") []
      let items ← Script.ofOption "attempt to index" (tableOf (out.headD .nil))
      Script.ofOption "attempt to compare" (listME wire.conv (ipairs wire.conv items))
    else if LuaValue.rawEqual (field p "op") (luaString "xferME") then
      xferME wire.conv computer setup inv p
      pure .nil
    else if LuaValue.rawEqual (field p "op") (luaString "call") then
      let args ← Script.ofOption "bad argument #1 (table expected)" (tableOf (field p "args"))
      let out ← method computer inv (field p "fn") (ipairs wire.conv args)
      pure (pack wire.conv out)
    else Script.raise "invalid op"
  | _ => Script.raise "attempt to index"

end
end Client
end OCRemote
