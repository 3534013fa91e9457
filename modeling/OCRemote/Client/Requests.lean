import OCRemote.Client.Sequence
import OCRemote.Client.Session

/-! The requests of `action.rs`, and what a client does for each of them. -/

namespace OCRemote
namespace Action
variable {ν : Type}

structure Print (ν : Type) where
  text : String
  color : ℕ
  beep : Option ν

structure CallAction (ν : Type) where
  addr : String
  func : String
  args : List (Value ν)

section
variable [LinearOrder ν]

def Print.buildRequest (conv : Conversion ν) (action : Print ν) : Value ν :=
  let result := []
  let result := OrderedMap.insert (.S "op") (.S "print") result
  let result := OrderedMap.insert (.S "color") (.F (conv.ofInt action.color)) result
  let result := OrderedMap.insert (.S "text") (.S action.text) result
  let result :=
    match action.beep with
    | none => result
    | some beep => OrderedMap.insert (.S "beep") (.F beep) result
  .T result

def List.buildRequest (conv : Conversion ν) (addr : String) (side : ℕ) : Value ν :=
  let result := []
  let result := OrderedMap.insert (.S "op") (.S "list") result
  let result := OrderedMap.insert (.S "side") (.F (conv.ofInt side)) result
  let result := OrderedMap.insert (.S "inv") (.S addr) result
  .T result

def ListME.buildRequest (addr : String) : Value ν :=
  let result := []
  let result := OrderedMap.insert (.S "op") (.S "listME") result
  let result := OrderedMap.insert (.S "inv") (.S addr) result
  .T result

def CallAction.buildRequest (conv : Conversion ν) (action : CallAction ν) : Value ν :=
  let result := []
  let result := OrderedMap.insert (.S "op") (.S "call") result
  let result := OrderedMap.insert (.S "inv") (.S action.addr) result
  let result := OrderedMap.insert (.S "fn") (.S action.func) result
  let result := OrderedMap.insert (.S "args") (.T (vecToTable conv action.args)) result
  .T result

end

/-- The actions that the program has. -/
inductive Request (ν : Type) where
  | print (action : Print ν)
  | list (addr : String) (side : ℕ)
  | listME (addr : String)
  | xferME (action : XferME ν)
  | call (action : CallAction ν)

namespace Request

/-- The values that an action hands on to a component. -/
def args : Request ν → List (Value ν)
  | .print _ | .list _ _ | .listME _ => []
  | .xferME action => action.transposerArgs
  | .call action => action.args

/-- The arguments can be counted, and there are no gaps in them. -/
structure WellFormed (request : Request ν) : Prop where
  length : request.args.length ≤ 2 ^ 53
  args : ∀ v ∈ request.args, v ≠ .N

/-- What a request says in numbers. -/
def numbers (conv : Conversion ν) : Request ν → List ν
  | .print action => conv.ofInt action.color :: action.beep.toList
  | .list _ side => [conv.ofInt side]
  | .listME _ | .call _ => []
  | .xferME action => [conv.ofInt ((action.meSlot + 1 : ℕ) : ℤ), conv.ofInt action.size]

/-- And in values of the program. -/
def values : Request ν → List (Value ν)
  | .xferME action => action.filter :: action.transposerArgs
  | request => request.args

theorem args_subset_values (request : Request ν) : request.args ⊆ request.values := by
  cases request with
  | xferME action => exact List.subset_cons_self ..
  | print _ | list _ _ | listME _ | call _ => exact fun _ h => h

variable [LinearOrder ν]

/-- What may be put into a table that is sent. -/
def Fits (wire : Wire ν) (v : Value ν) : Prop := v.Ordered ∧ Value.Sendable wire.number v ∧ v ≠ .N

/-- The request can be written down. -/
structure Sendable (wire : Wire ν) (request : Request ν) : Prop where
  length : request.args.length ≤ wire.exact
  numbers : ∀ x ∈ request.numbers wire.conv, wire.number.finite x
  values : ∀ v ∈ request.values, Fits wire v

theorem Sendable.wellFormed {wire : Wire ν} {request : Request ν} (h : request.Sendable wire) :
    request.WellFormed :=
  ⟨h.length.trans wire.exact_le, fun v hv => (h.values v (request.args_subset_values hv)).2.2⟩

def build (conv : Conversion ν) : Request ν → Value ν
  | .print action => action.buildRequest conv
  | .list addr side => Action.List.buildRequest conv addr side
  | .listME addr => Action.ListME.buildRequest addr
  | .xferME action => action.buildRequest conv
  | .call action => action.buildRequest conv

theorem Fits.insert {wire : Wire ν} {x : Table ν} (h : Fits wire (.T x)) (key : String)
    {value : Value ν} (hvalue : Fits wire value) :
    Fits wire (.T (OrderedMap.insert (.S key) value x)) := by
  refine ⟨h.1.insert (.S key) hvalue.1, Value.sendableEntries_iff.mpr fun e he => ?_, nofun⟩
  rcases OrderedMap.key_mem_insert he with rfl | hold
  · exact ⟨nofun, hvalue.2⟩
  · exact Value.sendableEntries_iff.mp h.2.1 e hold

theorem fits_nil (wire : Wire ν) : Fits wire (.T []) := ⟨.nil, trivial, nofun⟩

theorem fits_string (wire : Wire ν) (s : String) : Fits wire (.S s) :=
  ⟨trivial, trivial, by simp⟩

theorem fits_number {wire : Wire ν} {x : ν} (h : wire.number.finite x) : Fits wire (.F x) :=
  ⟨trivial, h, by simp⟩

theorem fits_vecToTable {wire : Wire ν} {vec : List (Value ν)} (hlen : vec.length ≤ wire.exact)
    (h : ∀ v ∈ vec, Fits wire v) : Fits wire (.T (vecToTable wire.conv vec)) :=
  ⟨vecToTable_ordered wire.conv fun v hv => (h v hv).1,
    vecToTable_sendable hlen fun v hv => (h v hv).2, nofun⟩

theorem Sendable.fits {wire : Wire ν} {request : Request ν} (h : request.Sendable wire) :
    Fits wire (request.build wire.conv) := by
  have hop (op : String) : Fits wire (.T (OrderedMap.insert (.S "op") (.S op) [])) :=
    (fits_nil wire).insert "op" (fits_string wire op)
  cases request with
  | print action =>
    obtain ⟨hcolor, hbeep⟩ := List.forall_mem_cons.mp h.numbers
    have hline := ((hop "print").insert "color" (fits_number hcolor)).insert "text"
      (fits_string wire action.text)
    obtain ⟨text, color, beep⟩ := action
    cases beep with
    | none => exact hline
    | some beep => exact hline.insert "beep" (fits_number (hbeep beep (by simp)))
  | list addr side =>
    have hside := List.forall_mem_singleton.mp h.numbers
    exact ((hop "list").insert "side" (fits_number hside)).insert "inv" (fits_string wire addr)
  | listME addr => exact (hop "listME").insert "inv" (fits_string wire addr)
  | xferME action =>
    obtain ⟨hentry, hsize⟩ := List.forall_mem_cons.mp h.numbers
    obtain ⟨hfilter, hargs⟩ := List.forall_mem_cons.mp h.values
    exact ((((((hop "xferME").insert "me" (fits_string wire action.meAddr)).insert "entry"
      (fits_number hentry)).insert "filter" hfilter).insert "size"
      (fits_number (List.forall_mem_singleton.mp hsize))).insert "inv"
      (fits_string wire action.transposerAddr)).insert "args" (fits_vecToTable h.length hargs)
  | call action =>
    exact (((hop "call").insert "inv" (fits_string wire action.addr)).insert "fn"
      (fits_string wire action.func)).insert "args" (fits_vecToTable h.length h.values)

end Request
end Action

namespace Client
variable {ν ω : Type}

section
variable (wire : Wire ν) (computer : Computer ν ω) (setup : Setup ν)

/-- A line at the bottom of the screen, and a beep. -/
def display (color text : LuaValue ν) (beep : Option ν) : Script ω Unit := do
  if setup.gpu.isSome then
    let one := .number (wire.conv.ofInt 1)
    let copy := [one, one, setup.resX, setup.resY, .number (wire.conv.ofInt 0),
      .number (wire.conv.ofInt (-1))]
    let _ ← method computer setup.gpu (luaString "copy") copy
    let fill := [one, setup.resY, setup.resX, setup.resY, luaString " "]
    let _ ← method computer setup.gpu (luaString "fill") fill
    let _ ← method computer setup.gpu (luaString "setForeground") [color]
    let _ ← method computer setup.gpu (luaString "set") [one, setup.resY, text]
  match beep with
  | none => pure ()
  | some beep => Script.call (computer.beep (.number beep))

/-- An item goes from the network through a slot of an interface, which is emptied again. -/
def transfer (action : Action.XferME ν) (inv : List UInt8) : Script ω Unit := do
  let me ← getInv computer (luaString action.meAddr)
  let one := .number (wire.conv.ofInt 1)
  let entry := .number (wire.conv.ofInt ((action.meSlot + 1 : ℕ) : ℤ))
  let dbAddr := setup.dbAddr.elim .nil .string
  let _ ← method computer setup.dbAddr (luaString "clear") [one]
  let store := [LuaValue.ofValue action.filter, dbAddr, entry, one]
  let _ ← method computer (some me) (luaString "store") store
  let configuration := [entry, dbAddr, entry, .number (wire.conv.ofInt action.size)]
  let _ ← method computer (some me) (luaString "setInterfaceConfiguration") configuration
  let args := action.transposerArgs.map LuaValue.ofValue
  let _ ← method computer (some inv) (luaString "transferItem") args
  let _ ← method computer (some me) (luaString "setInterfaceConfiguration") [one]

variable [LinearOrder ν]

/-- What the server wants a client to do, in terms of the fields of the action. -/
def perform : Action.Request ν → Script ω (LuaValue ν)
  | .print action => do
    display wire computer setup (.number (wire.conv.ofInt action.color)) (luaString action.text)
      action.beep
    pure .nil
  | .list addr side => do
    let inv ← getInv computer (luaString addr)
    let slots ← Script.call (computer.getAllStacks inv (.number (wire.conv.ofInt side)))
    Script.ofOption "attempt to compare" (Listing.list wire.conv slots)
  | .listME addr => do
    let inv ← getInv computer (luaString addr)
    let out ← method computer (some inv) (luaString "getItemsInNetwork") []
    let items ← Script.ofOption "attempt to index" (tableOf (out.headD .nil))
    Script.ofOption "attempt to compare" (listME wire.conv (ipairs wire.conv items))
  | .xferME action => do
    let inv ← getInv computer (luaString action.transposerAddr)
    transfer wire computer setup action inv
    pure .nil
  | .call action => do
    let inv ← getInv computer (luaString action.addr)
    let out ← method computer (some inv) (luaString action.func) (action.args.map LuaValue.ofValue)
    pure (pack wire.conv out)

end

/-! The client finds the fields that the server wrote. -/

section
variable [LinearOrder ν] {wire : Wire ν} {computer : Computer ν ω} {setup : Setup ν}

theorem field_ofEntries (x : Table ν) (key : String) :
    field (LuaValue.ofEntries x) key = (x.lookup (.S key)).elim .nil LuaValue.ofValue :=
  LuaValue.index_ofKey (.S key) x

theorem luaString_equal (s t : String) :
    LuaValue.rawEqual (luaString s : LuaValue ν) (luaString t) = decide (s = t) := by
  rw [Bool.eq_iff_iff, decide_eq_true_iff]
  exact (LuaValue.rawEqual_ofKey (.S s) (.S t)).trans (by simp)

/-- The fields of a table that was built key by key. -/
theorem field_insert (key key' : String) (value : Value ν) (x : Table ν) :
    field (LuaValue.ofEntries (OrderedMap.insert (.S key') value x)) key =
      if key = key' then LuaValue.ofValue value else field (LuaValue.ofEntries x) key := by
  rw [field_ofEntries, field_ofEntries, OrderedMap.lookup_insert]
  by_cases h : key = key' <;> simp [h]

theorem field_nil (key : String) : field (LuaValue.ofEntries ([] : Table ν)) key = .nil := rfl

section
omit [LinearOrder ν]

theorem ofValue_S (s : String) : (LuaValue.ofValue (.S s) : LuaValue ν) = luaString s := rfl

theorem ofValue_F (x : ν) : LuaValue.ofValue (.F x) = .number x := rfl

theorem ofValue_T (x : Table ν) : LuaValue.ofValue (.T x) = .table (LuaValue.ofEntries x) := rfl

theorem truthy_nil : (.nil : LuaValue ν).truthy = false := rfl

theorem truthy_number (x : ν) : (LuaValue.number x).truthy = true := rfl

theorem truthy_luaString (s : String) : (luaString s : LuaValue ν).truthy = true := rfl

theorem ofOption_some {α : Type} (e : String) (a : α) :
    (Script.ofOption e (some a) : Script ω α) = pure a := rfl

theorem tableOf_table (x : List (LuaValue ν × LuaValue ν)) : tableOf (.table x) = some x := rfl

end

theorem dispatch_print (action : Action.Print ν) :
    dispatch wire computer setup (LuaValue.ofValue (action.buildRequest wire.conv)) =
      perform wire computer setup (.print action) := by
  obtain ⟨text, color, beep⟩ := action
  cases beep <;>
    simp [Action.Print.buildRequest, dispatch, target, perform, print, display, luaString_equal,
      field_insert, field_nil, ofValue_S, ofValue_F, ofValue_T, truthy_nil, truthy_number]

theorem dispatch_list (addr : String) (side : ℕ) :
    dispatch wire computer setup
        (LuaValue.ofValue (Action.List.buildRequest wire.conv addr side)) =
      perform wire computer setup (.list addr side) := by
  simp [Action.List.buildRequest, dispatch, target, perform, luaString_equal, field_insert,
    ofValue_S, ofValue_F, ofValue_T, truthy_luaString, ofOption_some]

theorem dispatch_listME (addr : String) :
    dispatch wire computer setup (LuaValue.ofValue (Action.ListME.buildRequest addr)) =
      perform wire computer setup (.listME addr) := by
  simp [Action.ListME.buildRequest, dispatch, target, perform, luaString_equal, field_insert,
    ofValue_S, ofValue_T, truthy_luaString]

theorem dispatch_xferME (action : Action.XferME ν)
    (h : (Action.Request.xferME action).WellFormed) :
    dispatch wire computer setup (LuaValue.ofValue (action.buildRequest wire.conv)) =
      perform wire computer setup (.xferME action) := by
  have hargs := @ipairs_vecToTable ν _ wire.conv _ h.length h.args
  simp only [Action.Request.args] at hargs
  simp [Action.XferME.buildRequest, dispatch, target, perform, xferME, transfer, luaString_equal,
    field_insert, ofValue_S, ofValue_F, ofValue_T, truthy_luaString, ofOption_some, tableOf_table,
    hargs]

theorem dispatch_call (action : Action.CallAction ν) (h : (Action.Request.call action).WellFormed) :
    dispatch wire computer setup (LuaValue.ofValue (action.buildRequest wire.conv)) =
      perform wire computer setup (.call action) := by
  have hargs := @ipairs_vecToTable ν _ wire.conv _ h.length h.args
  simp only [Action.Request.args] at hargs
  simp [Action.CallAction.buildRequest, dispatch, target, perform, luaString_equal, field_insert,
    ofValue_S, ofValue_T, truthy_luaString, ofOption_some, tableOf_table, hargs]

theorem dispatch_build {request : Action.Request ν} (h : request.WellFormed) :
    dispatch wire computer setup (LuaValue.ofValue (request.build wire.conv)) =
      perform wire computer setup request := by
  cases request with
  | print action => exact dispatch_print action
  | list addr side => exact dispatch_list addr side
  | listME addr => exact dispatch_listME addr
  | xferME action => exact dispatch_xferME action h
  | call action => exact dispatch_call action h

end
end Client
end OCRemote
