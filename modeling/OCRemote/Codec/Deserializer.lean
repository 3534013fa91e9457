import OCRemote.Codec.Lossy
import OCRemote.Codec.RoundTrip

/-! `Deserializer` of `Serialize.cpp`, with which the server of `CPPImpl` reads the same streams. Its
strings are bytes, and a table keeps the first value of a key that it gets twice. -/

namespace OCRemote

inductive SKey (ν : Type) where
  | D (x : ν)
  | S (s : List UInt8)
  | B (b : Bool)
  deriving DecidableEq

namespace SKey
variable {ν : Type}

/-- The order of a variant: by index first, then by content. Characters are compared as unsigned. -/
def rank : SKey ν → ν ⊕ₗ (List ℕ ⊕ₗ Bool)
  | D x => Sum.inlₗ x
  | S s => Sum.inrₗ (Sum.inlₗ (s.map UInt8.toNat))
  | B b => Sum.inrₗ (Sum.inrₗ b)

theorem rank_injective : Function.Injective (rank : SKey ν → _) := by
  have hbytes : Function.Injective (List.map UInt8.toNat) :=
    List.map_injective_iff.mpr fun _ _ => UInt8.toNat_inj.mp
  rintro (x | s | b) (y | t | c) h <;> simp_all [rank, hbytes.eq_iff]

instance [LinearOrder ν] : LinearOrder (SKey ν) := LinearOrder.lift' rank rank_injective

end SKey

inductive SValue (ν : Type) where
  | N
  | D (x : ν)
  | S (s : List UInt8)
  | B (b : Bool)
  | T (table : List (SKey ν × SValue ν))

/-- `std::map<SKey, SValue>`: its entries in increasing order of keys. -/
abbrev STable (ν : Type) := List (SKey ν × SValue ν)

namespace Deserializer

inductive State (ν : Type) where
  | Number (buffer : List UInt8)
  | String (buffer : List UInt8) (escape : Bool)
  | Root
  | Table (result : STable ν) (key : Option (SKey ν))
  | Start

/-- What is thrown. `stod` stands for the exceptions of `std::stod`. -/
inductive Error (ε : Type) where
  | unknownEscape
  | invalidTag
  | invalidTableKey
  | stod
  | cbError (e : ε)
  | invalidReduce
  | invalidShift

/-- The constructor: `Start`, which enters `Root`. -/
def new {ν : Type} : List (State ν) := [.Root, .Start]

variable {ν ε σ : Type} [LinearOrder ν]

abbrev Result (ν ε σ : Type) := Except (Error ε × σ) (List (State ν) × σ)

/-- `env.s->reduce(x, ..)` up to `env.s->shift(..)`, where each state has the next one as its `p`. -/
def reduce (cb : SValue ν → σ → Except (ε × σ) σ) : List (State ν) → SValue ν → σ → Result ν ε σ
  | .Start :: p, x, s =>
    match cb x s with
    | .error (e, s) => .error (.cbError e, s)
    | .ok s => .ok (.Root :: .Start :: p, s)
  | .Table result (some key) :: p, x, s =>
    .ok (.Root :: .Table (OrderedMap.emplace key x result) none :: p, s)
  | .Table result none :: p, x, s =>
    match x with
    | .N => reduce cb p (.T result) s
    | .D x => .ok (.Root :: .Table result (some (.D x)) :: p, s)
    | .S x => .ok (.Root :: .Table result (some (.S x)) :: p, s)
    | .B x => .ok (.Root :: .Table result (some (.B x)) :: p, s)
    | .T _ => .error (.invalidTableKey, s)
  | _, _, s => .error (.invalidReduce, s)

/-- `env.s->shift(data, size)`. The loops that look for the end of a number and of a string do what
those of `Parser` do. -/
def shift (stod : List UInt8 → Option ν) (cb : SValue ν → σ → Except (ε × σ) σ) :
    List (State ν) → List UInt8 → σ → Result ν ε σ
  | .Root :: p, [], s => .ok (.Root :: p, s)
  | .Root :: p, now :: data, s =>
    if now = 0x21 then
      (reduce cb p .N s).bind fun (p, s) => shift stod cb p data s
    else if now = 0x23 then shift stod cb (.Number [] :: p) data s
    else if now = 0x40 then shift stod cb (.String [] false :: p) data s
    else if now = 0x2B then
      (reduce cb p (.B true) s).bind fun (p, s) => shift stod cb p data s
    else if now = 0x2D then
      (reduce cb p (.B false) s).bind fun (p, s) => shift stod cb p data s
    else if now = 0x3D then shift stod cb (.Root :: .Table [] none :: p) data s
    else .error (.invalidTag, s)
  | .Number buffer :: p, data, s =>
    match _ : Parser.scanNumber buffer data with
    | (buffer, none) => .ok (.Number buffer :: p, s)
    | (buffer, some data) =>
      match stod buffer with
      | none => .error (.stod, s)
      | some x => (reduce cb p (.D x) s).bind fun (p, s) => shift stod cb p data s
  | .String buffer escape :: p, data, s =>
    match _ : Parser.scanString buffer escape data with
    | .more buffer escape => .ok (.String buffer escape :: p, s)
    | .unknown _ => .error (.unknownEscape, s)
    | .done buffer data => (reduce cb p (.S buffer) s).bind fun (p, s) => shift stod cb p data s
  | _, _, s => .error (.invalidShift, s)
termination_by _ data => data.length
decreasing_by
  all_goals first
    | exact Nat.lt_succ_self _
    | exact Parser.scanNumber_length ‹_›
    | exact Parser.scanString_length ‹_›

/-- The buffers that were read, one after another up to the first exception. -/
def shiftAll (stod : List UInt8 → Option ν) (cb : SValue ν → σ → Except (ε × σ) σ) :
    List (State ν) → List (List UInt8) → σ → Result ν ε σ
  | p, [], s => .ok (p, s)
  | p, data :: chunks, s =>
    (shift stod cb p data s).bind fun (p, s) => shiftAll stod cb p chunks s

/-- A callback that remembers the values it is called with. -/
def record (x : SValue ν) (seen : List (SValue ν)) :
    Except (String × List (SValue ν)) (List (SValue ν)) := .ok (seen ++ [x])

end Deserializer

/-! What the two servers make of the same text. Its tables are lists of all the entries that were
written, in order. -/

namespace LuaValue
variable {ν : Type}

def sKey : LuaValue ν → Option (SKey ν)
  | .number x => some (.D x)
  | string s => some (.S s)
  | boolean b => some (.B b)
  | nil | table _ => none

section
variable [LinearOrder ν]

mutual

def sValue : LuaValue ν → SValue ν
  | nil => .N
  | .number x => .D x
  | string s => .S s
  | boolean b => .B b
  | table es => .T (OrderedMap.emplaceAll (sPairs es) [])

def sPairs : List (LuaValue ν × LuaValue ν) → STable ν
  | [] => []
  | (k, v) :: es =>
    match sKey k with
    | some k => (k, sValue v) :: sPairs es
    | none => sPairs es

end

theorem sPairs_append (es fs : List (LuaValue ν × LuaValue ν)) :
    sPairs (es ++ fs) = sPairs es ++ sPairs fs := by
  induction es with
  | nil => rfl
  | cons e es ih =>
    obtain ⟨k, v⟩ := e
    simp only [List.cons_append, sPairs]
    cases sKey k <;> simp [ih]

theorem lossyPairs_append (es fs : List (LuaValue ν × LuaValue ν)) :
    lossyPairs (es ++ fs) = lossyPairs es ++ lossyPairs fs := by
  induction es with
  | nil => rfl
  | cons e es ih =>
    obtain ⟨k, v⟩ := e
    simp only [List.cons_append, lossyPairs]
    cases lossyKey k <;> simp [ih]

end

mutual

/-- No table has two keys that one of the servers takes for the same. -/
def Distinct : LuaValue ν → Prop
  | nil | .number _ | string _ | boolean _ => True
  | table es => (es.map fun e => lossyKey e.1).Nodup ∧ DistinctPairs es

def DistinctPairs : List (LuaValue ν × LuaValue ν) → Prop
  | [] => True
  | (_, v) :: es => Distinct v ∧ DistinctPairs es

end

section
variable (read : List UInt8 → Option ν)

mutual

/-- The bytes that spell a text. A number may stand in any form that is read as it. -/
inductive Written : LuaValue ν → List UInt8 → Prop
  | nil : Written nil [0x21]
  | number {digits : List UInt8} {x : ν} (hat : 0x40 ∉ digits) (hx : read digits = some x) :
    Written (.number x) (0x23 :: (digits ++ [0x40]))
  | string (s : List UInt8) : Written (string s) (0x40 :: (gsub s ++ [0x40, 0x7E]))
  | boolean (b : Bool) : Written (boolean b) [if b then 0x2B else 0x2D]
  | table {es : List (LuaValue ν × LuaValue ν)} {body : List UInt8} (h : WrittenPairs es body) :
    Written (table es) (0x3D :: (body ++ [0x21]))

inductive WrittenPairs : List (LuaValue ν × LuaValue ν) → List UInt8 → Prop
  | nil : WrittenPairs [] []
  | snoc {es : List (LuaValue ν × LuaValue ν)} {body front back : List UInt8} {k v : LuaValue ν}
    (h : WrittenPairs es body) (hkey : (sKey k).isSome = true) (hk : Written k front)
    (hv : Written v back) : WrittenPairs (es ++ [(k, v)]) (body ++ front ++ back)

end

/-- The bytes end where a value has to follow: after whole texts, or in a table. -/
inductive Open : List UInt8 → Prop
  | start {vs : List (LuaValue ν)} {pieces : List (List UInt8)}
    (h : List.Forall₂ (Written read) vs pieces) : Open pieces.flatten
  | key {front : List UInt8} {es : List (LuaValue ν × LuaValue ν)} {body : List UInt8}
    (h : Open front) (hes : WrittenPairs read es body) : Open (front ++ 0x3D :: body)
  | value {front : List UInt8} {es : List (LuaValue ν × LuaValue ν)} {body piece : List UInt8}
    {k : LuaValue ν} (h : Open front) (hes : WrittenPairs read es body)
    (hkey : (sKey k).isSome = true) (hk : Written read k piece) :
    Open (front ++ 0x3D :: (body ++ piece))

end

end LuaValue

/-! With its strings read as text, the one value is the other. -/

def SKey.lossy {ν : Type} : SKey ν → Key ν
  | D x => .F x
  | S s => .S (Utf8.fromUtf8Lossy s)
  | B b => .B b

namespace SValue
variable {ν : Type} [LinearOrder ν]

mutual

def lossy : SValue ν → Value ν
  | N => .N
  | D x => .F x
  | S s => .S (Utf8.fromUtf8Lossy s)
  | B b => .B b
  | T table => .T (OrderedMap.ofList (lossyEntries table))

def lossyEntries : STable ν → Table ν
  | [] => []
  | (k, v) :: table => (k.lossy, lossy v) :: lossyEntries table

end

theorem lossyEntries_eq (table : STable ν) :
    lossyEntries table = table.map fun e => (e.1.lossy, lossy e.2) := by
  induction table with
  | nil => rfl
  | cons e table ih => rw [lossyEntries, ih, List.map_cons]

end SValue

namespace LuaValue
variable {ν : Type}

theorem lossyKey_eq (k : LuaValue ν) : lossyKey k = (sKey k).map SKey.lossy := by
  cases k <;> rfl

/-- Keys that are told apart as text are told apart as bytes. -/
theorem nodup_sPairs [LinearOrder ν] {es : List (LuaValue ν × LuaValue ν)}
    (h : (es.map fun e => lossyKey e.1).Nodup) : ((sPairs es).map Prod.fst).Nodup := by
  have heq : sPairs es = OrderedMap.mapEntries sKey sValue es := by
    clear h
    induction es with
    | nil => rfl
    | cons e es ih =>
      obtain ⟨k, v⟩ := e
      simp only [sPairs, OrderedMap.mapEntries, List.filterMap_cons] at ih ⊢
      cases sKey k <;> simp [ih]
  rw [heq]
  refine OrderedMap.mapEntries_nodup (List.Nodup.of_map (Option.map SKey.lossy) ?_)
  rw [List.map_map]
  simpa only [lossyKey_eq, Function.comp_def] using h

variable [LinearOrder ν]

mutual

theorem Distinct.lossy_sValue : ∀ {v : LuaValue ν}, Distinct v → (sValue v).lossy = lossy v
  | .nil, _ | .number _, _ | .string _, _ | .boolean _, _ => rfl
  | .table es, h => by
    have hpairs := h.2.lossyEntries_sPairs
    have hbytes := nodup_sPairs h.1
    -- nothing is dropped, and the order of the entries does not matter
    have hall : OrderedMap.emplaceAll (sPairs es) [] = OrderedMap.ofList (sPairs es) :=
      OrderedMap.emplaceAll_eq_insertAll (by rwa [List.append_nil])
    have hperm : (SValue.lossyEntries (OrderedMap.ofList (sPairs es))).Perm (lossyPairs es) := by
      rw [← hpairs, SValue.lossyEntries_eq, SValue.lossyEntries_eq]
      exact (OrderedMap.ofList_perm_self hbytes).map _
    have hkeys : ((lossyPairs es).map Prod.fst).Nodup := by
      rw [lossyPairs_eq]
      exact OrderedMap.mapEntries_nodup h.1
    rw [sValue, SValue.lossy, hall, lossy,
      OrderedMap.ofList_perm hperm ((hperm.map Prod.fst).nodup_iff.mpr hkeys)]

theorem DistinctPairs.lossyEntries_sPairs : ∀ {es : List (LuaValue ν × LuaValue ν)},
    DistinctPairs es → SValue.lossyEntries (sPairs es) = lossyPairs es
  | [], _ => rfl
  | (k, v) :: es, ⟨hv, hes⟩ => by
    have hkey := lossyKey_eq k
    cases h : sKey k with
    | none =>
      rw [h, Option.map_none] at hkey
      simp only [sPairs, lossyPairs, h, hkey, hes.lossyEntries_sPairs]
    | some key =>
      rw [h, Option.map_some] at hkey
      simp only [sPairs, lossyPairs, h, hkey, SValue.lossyEntries, hv.lossy_sValue,
        hes.lossyEntries_sPairs]

end

end LuaValue

/-- How the other server reads what stands between '#' and '@'. -/
def NumberFormat.read {ν : Type} (number : NumberFormat ν) (digits : List UInt8) : Option ν :=
  (Utf8.read? digits).bind number.parse

/-! The two read the same text at every moment, and stop at the same errors. -/

namespace Deserializer
variable {ν : Type} [LinearOrder ν] {number : NumberFormat ν} {stod : List UInt8 → Option ν}

/-- Where a value has to follow and a number does, the two read it in the same way. -/
def NumbersAgree (number : NumberFormat ν) (stod : List UInt8 → Option ν) (stream : List UInt8) :
    Prop :=
  ∀ front digits, LuaValue.Open number.read front → 0x40 ∉ digits →
    front ++ 0x23 :: (digits ++ [0x40]) <+: stream → stod digits = number.read digits

def Error.ofParseError {ε : Type} : ParseError ν ε → Error ε
  | .tableKey _ => .invalidTableKey
  | .invalidTag _ => .invalidTag
  | .nonUtf8Number | .invalidNumber => .stod
  | .unknownEscape _ => .unknownEscape
  | .handlerError e => .cbError e
  | .panicked => .invalidReduce

section
variable (number) (vs : List (LuaValue ν))

/-- What waits for a value, after bytes that spell the texts so far and the entries of the open
tables. -/
inductive Below : List UInt8 → List (OCRemote.State ν) → List (State ν) → Prop
  | start {pieces} (h : List.Forall₂ (LuaValue.Written number.read) vs pieces) :
    Below pieces.flatten [] [.Start]
  | table {front stack p} {es : List (LuaValue ν × LuaValue ν)} {body : List UInt8}
    (h : Below front stack p) (hes : LuaValue.WrittenPairs number.read es body) :
    Below (front ++ 0x3D :: body) (.T (OrderedMap.ofList (LuaValue.lossyPairs es)) none :: stack)
      (.Table (OrderedMap.emplaceAll (LuaValue.sPairs es) []) none :: p)
  | value {front stack p} {es : List (LuaValue ν × LuaValue ν)} {body piece : List UInt8}
    {k : LuaValue ν} {key key'} (h : Below front stack p)
    (hes : LuaValue.WrittenPairs number.read es body) (hk : LuaValue.Written number.read k piece)
    (hkey : k.lossyKey = some key) (hkey' : k.sKey = some key') :
    Below (front ++ 0x3D :: (body ++ piece))
      (.T (OrderedMap.ofList (LuaValue.lossyPairs es)) (some key) :: stack)
      (.Table (OrderedMap.emplaceAll (LuaValue.sPairs es) []) (some key') :: p)

/-- A string that is not complete. -/
def part (buffer : List UInt8) (escape : Bool) : List UInt8 :=
  LuaValue.gsub buffer ++ if escape then [0x40] else []

/-- The two are at the same point of a stream, of which this much is read. -/
inductive Agree : List UInt8 → List (OCRemote.State ν) → List (State ν) → Prop
  | root {front stack p} (h : Below number vs front stack p) :
    Agree front (.V :: stack) (.Root :: p)
  | number {front stack p} (buffer : List UInt8) (h : Below number vs front stack p)
    (hat : 0x40 ∉ buffer) :
    Agree (front ++ 0x23 :: buffer) (.F buffer :: stack) (.Number buffer :: p)
  | string {front stack p} (buffer : List UInt8) (escape : Bool)
    (h : Below number vs front stack p) :
    Agree (front ++ 0x40 :: part buffer escape) (.S buffer escape :: stack)
      (.String buffer escape :: p)

end

inductive Corresponds (number : NumberFormat ν) (before : List UInt8) :
    Parser.Result ν String (List (Value ν)) → Result ν String (List (SValue ν)) → Prop
  | ok {stack p} {vs : List (LuaValue ν)} (h : Agree number vs before stack p) :
    Corresponds number before (.ok (stack, vs.map LuaValue.lossy)) (.ok (p, vs.map LuaValue.sValue))
  | error {e} {vs : List (LuaValue ν)} {pieces : List (List UInt8)} {rest : List UInt8}
    (hvs : List.Forall₂ (LuaValue.Written number.read) vs pieces)
    (hbefore : before = pieces.flatten ++ rest) (he : e ≠ .panicked) :
    Corresponds number before (.error (e, vs.map LuaValue.lossy))
      (.error (.ofParseError e, vs.map LuaValue.sValue))

section
variable {vs : List (LuaValue ν)} {before front : List UInt8} {stack : List (OCRemote.State ν)}
  {p : List (State ν)}

theorem Below.isOpen (h : Below number vs front stack p) : LuaValue.Open number.read front := by
  induction h with
  | start h => exact .start h
  | table _ hes ih => exact ih.key hes
  | value _ hes hk _ hkey' ih => exact ih.value hes (Option.isSome_of_eq_some hkey') hk

/-- The texts so far stand at its front. -/
theorem Below.exists_pieces (h : Below number vs front stack p) : ∃ pieces rest,
    List.Forall₂ (LuaValue.Written number.read) vs pieces ∧ front = pieces.flatten ++ rest := by
  induction h with
  | start h => exact ⟨_, [], h, (List.append_nil _).symm⟩
  | table _ _ ih | value _ _ _ _ _ ih =>
    obtain ⟨pieces, rest, hvs, rfl⟩ := ih
    exact ⟨pieces, _, hvs, List.append_assoc ..⟩

theorem Agree.exists_pieces (h : Agree number vs before stack p) : ∃ pieces rest,
    List.Forall₂ (LuaValue.Written number.read) vs pieces ∧ before = pieces.flatten ++ rest := by
  cases h with
  | root h => exact h.exists_pieces
  | number _ h _ | string _ _ h =>
    obtain ⟨pieces, rest, hvs, rfl⟩ := h.exists_pieces
    exact ⟨pieces, _, hvs, List.append_assoc ..⟩

/-- Both stop, at a point after `front`. -/
theorem Below.error (h : Below number vs front stack p) (tail : List UInt8)
    {e : ParseError ν String} (he : e ≠ .panicked) :
    Corresponds number (front ++ tail) (.error (e, vs.map LuaValue.lossy))
      (.error (.ofParseError e, vs.map LuaValue.sValue)) := by
  obtain ⟨pieces, rest, hvs, rfl⟩ := h.exists_pieces
  exact .error hvs (List.append_assoc ..) he

theorem Corresponds.bind {back : List UInt8} {x : Parser.Result ν String (List (Value ν))}
    {y : Result ν String (List (SValue ν))} (h : Corresponds number before x y)
    {f : List (OCRemote.State ν) × List (Value ν) → Parser.Result ν String (List (Value ν))}
    {g : List (State ν) × List (SValue ν) → Result ν String (List (SValue ν))}
    (hfg : ∀ stack p (vs : List (LuaValue ν)), Agree number vs before stack p →
      Corresponds number (before ++ back) (f (stack, vs.map LuaValue.lossy))
        (g (p, vs.map LuaValue.sValue))) :
    Corresponds number (before ++ back) (x.bind f) (y.bind g) := by
  cases h with
  | ok h => exact hfg _ _ _ h
  | error hvs hbefore he => exact .error hvs (by rw [hbefore, List.append_assoc]) he

theorem reduce_corresponds (h : Below number vs front stack p) {v : LuaValue ν}
    {piece : List UInt8} (hv : LuaValue.Written number.read v piece) :
    Corresponds number (front ++ piece)
      (Parser.reduce Parser.record stack v.lossy (vs.map LuaValue.lossy))
      (reduce record p v.sValue (vs.map LuaValue.sValue)) := by
  induction h generalizing v piece with
  | @start pieces h =>
    have hstart : Below number (vs ++ [v]) (pieces ++ [piece]).flatten [] [.Start] :=
      .start (List.rel_append h (.cons hv .nil))
    have hseen := Corresponds.ok (.root hstart)
    rw [List.map_append, List.map_append, List.flatten_append, List.flatten_singleton] at hseen
    exact hseen
  | @table front stack p es body h hes ih =>
    have hbefore : front ++ 0x3D :: body ++ piece = front ++ 0x3D :: (body ++ piece) :=
      List.append_assoc ..
    cases hv with
    | nil =>
      rw [hbefore]
      exact ih (.table hes)
    | number hat hx =>
      rw [hbefore]
      exact .ok (.root (.value h hes (.number hat hx) rfl rfl))
    | string x =>
      rw [hbefore]
      exact .ok (.root (.value h hes (.string x) rfl rfl))
    | boolean x =>
      rw [hbefore]
      exact .ok (.root (.value h hes (.boolean x) rfl rfl))
    | table hfs =>
      rw [hbefore]
      exact h.error _ (by simp)
  | @value front stack p es body piece₀ k key key' h hes hk hkey hkey' _ =>
    have hsome : (LuaValue.sKey k).isSome = true := Option.isSome_of_eq_some hkey'
    have hentry := Corresponds.ok (.root (.table h (hes.snoc hsome hk hv)))
    have hlossy : LuaValue.lossyPairs [(k, v)] = [(key, v.lossy)] := by
      simp [LuaValue.lossyPairs, hkey]
    have hbytes : LuaValue.sPairs [(k, v)] = [(key', v.sValue)] := by simp [LuaValue.sPairs, hkey']
    have hbefore : front ++ 0x3D :: (body ++ piece₀) ++ piece =
        front ++ 0x3D :: (body ++ piece₀ ++ piece) := List.append_assoc ..
    rw [LuaValue.lossyPairs_append, LuaValue.sPairs_append, hlossy, hbytes,
      OrderedMap.emplaceAll_append, OrderedMap.ofList, List.foldl_append] at hentry
    rw [hbefore]
    exact hentry

end

omit [LinearOrder ν] in
/-- A number goes on to the end of the data, or to the first '@'. -/
theorem scanNumber_cases (data : List UInt8) :
    (0x40 ∉ data ∧ ∀ buffer, Parser.scanNumber buffer data = (buffer ++ data, none)) ∨
    ∃ digits rest, data = digits ++ 0x40 :: rest ∧ 0x40 ∉ digits ∧
      ∀ buffer, Parser.scanNumber buffer data = (buffer ++ digits, some rest) := by
  induction data with
  | nil => exact .inl ⟨by simp, fun buffer => by simp [Parser.scanNumber]⟩
  | cons x data ih =>
    by_cases hx : x = 0x40
    · subst hx
      exact .inr ⟨[], data, rfl, by simp, fun buffer => by simp [Parser.scanNumber]⟩
    · have hne : ¬ (0x40 : UInt8) = x := fun heq => hx heq.symm
      rcases ih with ⟨hat, hscan⟩ | ⟨digits, rest, rfl, hat, hscan⟩
      · exact .inl ⟨by simp [hat, hne], fun buffer => by simp [Parser.scanNumber, hx, hscan]⟩
      · exact .inr ⟨x :: digits, rest, rfl, by simp [hat, hne],
          fun buffer => by simp [Parser.scanNumber, hx, hscan]⟩

theorem shift_root {σ ε : Type} (cb : SValue ν → σ → Except (ε × σ) σ) (p : List (State ν))
    (now : UInt8) (data : List UInt8) (s : σ) :
    shift stod cb (.Root :: p) (now :: data) s =
      if now = 0x21 then (reduce cb p .N s).bind fun q => shift stod cb q.1 data q.2
      else if now = 0x23 then shift stod cb (.Number [] :: p) data s
      else if now = 0x40 then shift stod cb (.String [] false :: p) data s
      else if now = 0x2B then (reduce cb p (.B true) s).bind fun q => shift stod cb q.1 data q.2
      else if now = 0x2D then (reduce cb p (.B false) s).bind fun q => shift stod cb q.1 data q.2
      else if now = 0x3D then shift stod cb (.Root :: .Table [] none :: p) data s
      else .error (.invalidTag, s) := by
  rw [shift]

theorem shift_number {σ ε : Type} (cb : SValue ν → σ → Except (ε × σ) σ) (p : List (State ν))
    (buffer data : List UInt8) (s : σ) :
    shift stod cb (.Number buffer :: p) data s =
      match Parser.scanNumber buffer data with
      | (buffer, none) => .ok (.Number buffer :: p, s)
      | (buffer, some data) =>
        match stod buffer with
        | none => .error (.stod, s)
        | some x => (reduce cb p (.D x) s).bind fun q => shift stod cb q.1 data q.2 := by
  rw [shift]
  split <;> simp_all

theorem shift_string {σ ε : Type} (cb : SValue ν → σ → Except (ε × σ) σ) (p : List (State ν))
    (buffer data : List UInt8) (escape : Bool) (s : σ) :
    shift stod cb (.String buffer escape :: p) data s =
      match Parser.scanString buffer escape data with
      | .more buffer escape => .ok (.String buffer escape :: p, s)
      | .unknown _ => .error (.unknownEscape, s)
      | .done buffer data => (reduce cb p (.S buffer) s).bind fun q => shift stod cb q.1 data q.2 := by
  rw [shift]
  split <;> simp_all

theorem parser_shift_V (stack : List (OCRemote.State ν)) (x : UInt8) (rem : List UInt8)
    (s : List (Value ν)) :
    Parser.shift number Parser.record (.V :: stack) (x :: rem) s =
      if x = 0x21 then (Parser.reduce Parser.record stack .N s).bind fun q =>
        Parser.shift number Parser.record q.1 rem q.2
      else if x = 0x23 then Parser.shift number Parser.record (.F [] :: stack) rem s
      else if x = 0x40 then Parser.shift number Parser.record (.S [] false :: stack) rem s
      else if x = 0x2B then (Parser.reduce Parser.record stack (.B true) s).bind fun q =>
        Parser.shift number Parser.record q.1 rem q.2
      else if x = 0x2D then (Parser.reduce Parser.record stack (.B false) s).bind fun q =>
        Parser.shift number Parser.record q.1 rem q.2
      else if x = 0x3D then
        Parser.shift number Parser.record (.V :: .T [] none :: stack) rem s
      else .error (.invalidTag x, s) := by
  rw [Parser.shift]

/-! A string, with what is read of it. -/

section
variable {buffer buffer' data rest : List UInt8} {escape escape' : Bool}

theorem scanString_more (h : Parser.scanString buffer escape data = .more buffer' escape') :
    part buffer escape ++ data = part buffer' escape' := by
  induction data generalizing buffer escape with
  | nil =>
    obtain ⟨rfl, rfl⟩ := Parser.StringScan.more.inj h
    exact List.append_nil _
  | cons x data ih =>
    simp only [Parser.scanString] at h
    split_ifs at h with h₁ h₂ h₃ h₄
    · rw [← ih h]
      simp [part, LuaValue.gsub, h₁, h₂]
    · rw [← ih h]
      simp [part, h₁, h₄]
    · rw [← ih h]
      simp [part, LuaValue.gsub, h₁, h₄]

theorem scanString_done (h : Parser.scanString buffer escape data = .done buffer' rest) :
    ∃ piece, data = piece ++ rest ∧ piece ≠ [] ∧
      part buffer escape ++ piece = LuaValue.gsub buffer' ++ [0x40, 0x7E] := by
  induction data generalizing buffer escape with
  | nil => simp [Parser.scanString] at h
  | cons x data ih =>
    simp only [Parser.scanString] at h
    split_ifs at h with h₁ h₂ h₃ h₄
    · obtain ⟨piece, rfl, -, hpart⟩ := ih h
      refine ⟨x :: piece, rfl, by simp, ?_⟩
      rw [← hpart]
      simp [part, LuaValue.gsub, h₁, h₂]
    · obtain ⟨rfl, rfl⟩ := Parser.StringScan.done.inj h
      exact ⟨[x], rfl, by simp, by simp [part, h₁, h₃]⟩
    · obtain ⟨piece, rfl, -, hpart⟩ := ih h
      refine ⟨x :: piece, rfl, by simp, ?_⟩
      rw [← hpart]
      simp [part, h₁, h₄]
    · obtain ⟨piece, rfl, -, hpart⟩ := ih h
      refine ⟨x :: piece, rfl, by simp, ?_⟩
      rw [← hpart]
      simp [part, LuaValue.gsub, h₁, h₄]

end

/-! One piece of the stream, in each state, where the two read what is shorter in the same way. -/

section
variable {stream before front data : List UInt8} {stack : List (OCRemote.State ν)}
  {p : List (State ν)} {vs : List (LuaValue ν)}

def Alike (number : NumberFormat ν) (stod : List UInt8 → Option ν) (stream data : List UInt8) :
    Prop :=
  ∀ ⦃before stack p⦄ ⦃vs : List (LuaValue ν)⦄, before ++ data <+: stream →
    Agree number vs before stack p →
    Corresponds number (before ++ data)
      (Parser.shift number Parser.record stack data (vs.map LuaValue.lossy))
      (shift stod record p data (vs.map LuaValue.sValue))

variable (hshorter : ∀ rest : List UInt8, rest.length < data.length →
  Alike number stod stream rest)
include hshorter

/-- A value is complete, and what is left is shorter. -/
theorem value_corresponds
    (hstream : before ++ data <+: stream) (hbelow : Below number vs front stack p)
    {v : LuaValue ν} {text piece rest : List UInt8} (hv : LuaValue.Written number.read v text)
    (htext : before ++ piece = front ++ text) (hdata : data = piece ++ rest) (hpiece : piece ≠ []) :
    Corresponds number (before ++ data)
      ((Parser.reduce Parser.record stack v.lossy (vs.map LuaValue.lossy)).bind fun q =>
        Parser.shift number Parser.record q.1 rest q.2)
      ((reduce record p v.sValue (vs.map LuaValue.sValue)).bind fun q =>
        shift stod record q.1 rest q.2) := by
  have hlt : rest.length < data.length := by
    have hpos := List.length_pos_iff.mpr hpiece
    rw [hdata, List.length_append]
    omega
  have hsplit : before ++ data = (front ++ text) ++ rest := by
    rw [hdata, ← List.append_assoc, htext]
  rw [hsplit] at hstream ⊢
  exact (reduce_corresponds hbelow hv).bind fun stack' p' vs' h' => hshorter _ hlt hstream h'

theorem root_corresponds
    (hstream : before ++ data <+: stream) (hbelow : Below number vs before stack p) :
    Corresponds number (before ++ data)
      (Parser.shift number Parser.record (.V :: stack) data (vs.map LuaValue.lossy))
      (shift stod record (.Root :: p) data (vs.map LuaValue.sValue)) := by
  cases data with
  | nil => simpa [Parser.shift, shift] using Corresponds.ok (.root hbelow)
  | cons x rem =>
    have hone : x :: rem = [x] ++ rem := rfl
    -- a state is entered
    have hopen {stack' : List (OCRemote.State ν)} {p' : List (State ν)}
        (h' : Agree number vs (before ++ [x]) stack' p') :
        Corresponds number (before ++ x :: rem)
          (Parser.shift number Parser.record stack' rem (vs.map LuaValue.lossy))
          (shift stod record p' rem (vs.map LuaValue.sValue)) := by
      rw [hone, ← List.append_assoc] at hstream ⊢
      exact hshorter rem (Nat.lt_succ_self _) hstream h'
    rw [parser_shift_V, shift_root]
    split_ifs with h₁ h₂ h₃ h₄ h₅ h₆
    · exact value_corresponds hshorter hstream hbelow .nil (by rw [h₁]) hone (by simp)
    · subst h₂
      exact hopen (.number [] hbelow (by simp))
    · subst h₃
      exact hopen (.string [] false hbelow)
    · exact value_corresponds hshorter hstream hbelow (.boolean true) (by rw [h₄]; rfl) hone
        (by simp)
    · exact value_corresponds hshorter hstream hbelow (.boolean false) (by rw [h₅]; rfl) hone
        (by simp)
    · subst h₆
      exact hopen (.root (.table hbelow .nil))
    · exact hbelow.error _ (by simp)

theorem number_corresponds (hagree : NumbersAgree number stod stream)
    {buffer : List UInt8} (hstream : front ++ 0x23 :: buffer ++ data <+: stream)
    (hbelow : Below number vs front stack p) (hat : 0x40 ∉ buffer) :
    Corresponds number (front ++ 0x23 :: buffer ++ data)
      (Parser.shift number Parser.record (.F buffer :: stack) data (vs.map LuaValue.lossy))
      (shift stod record (.Number buffer :: p) data (vs.map LuaValue.sValue)) := by
  rw [shift_number]
  rcases scanNumber_cases data with ⟨hdata, hscan⟩ | ⟨digits, rest, hdata, hdigits, hscan⟩
  · rw [Parser.shift_F_more (hscan buffer), hscan, List.append_assoc, List.cons_append]
    exact .ok (.number _ hbelow (by simp [hat, hdata]))
  · rw [Parser.shift_F_done (hscan buffer), hscan]
    have hnumber : 0x40 ∉ buffer ++ digits := by simp [hat, hdigits]
    have hpiece : data = (digits ++ [0x40]) ++ rest := by simp [hdata]
    have htext : front ++ 0x23 :: buffer ++ (digits ++ [0x40]) =
        front ++ 0x23 :: (buffer ++ digits ++ [0x40]) := by simp
    have hvalue : stod (buffer ++ digits) = number.read (buffer ++ digits) := by
      refine hagree front _ hbelow.isOpen hnumber ?_
      rw [hpiece, ← List.append_assoc, htext] at hstream
      exact (List.prefix_append ..).trans hstream
    simp only [hvalue]
    cases htext' : Utf8.read? (buffer ++ digits) with
    | none =>
      simp only [NumberFormat.read, htext', Option.bind_none]
      rw [List.append_assoc]
      exact hbelow.error _ (by simp)
    | some text =>
      cases hx : number.parse text with
      | none =>
        simp only [NumberFormat.read, htext', Option.bind_some, hx]
        rw [List.append_assoc]
        exact hbelow.error _ (by simp)
      | some x =>
        have hread : number.read (buffer ++ digits) = some x := by
          simp only [NumberFormat.read, htext', Option.bind_some, hx]
        simp only [hread, hx]
        exact value_corresponds hshorter hstream hbelow (.number hnumber hread) htext hpiece
          (by simp)

theorem string_corresponds
    {buffer : List UInt8} {escape : Bool}
    (hstream : front ++ 0x40 :: part buffer escape ++ data <+: stream)
    (hbelow : Below number vs front stack p) :
    Corresponds number (front ++ 0x40 :: part buffer escape ++ data)
      (Parser.shift number Parser.record (.S buffer escape :: stack) data (vs.map LuaValue.lossy))
      (shift stod record (.String buffer escape :: p) data (vs.map LuaValue.sValue)) := by
  rw [Parser.shift_S, shift_string]
  cases hscan : Parser.scanString buffer escape data with
  | more buffer' escape' =>
    rw [List.append_assoc, List.cons_append, scanString_more hscan]
    exact .ok (.string buffer' escape' hbelow)
  | unknown x =>
    rw [List.append_assoc]
    exact hbelow.error _ (by simp)
  | done buffer' rest =>
    obtain ⟨piece, hdata, hpiece, htext⟩ := scanString_done hscan
    refine value_corresponds hshorter hstream hbelow (.string buffer') ?_ hdata hpiece
    rw [List.append_assoc, List.cons_append, htext]

omit hshorter in
/-- One piece of the stream. -/
theorem shift_corresponds (hagree : NumbersAgree number stod stream) (data : List UInt8) :
    Alike number stod stream data := by
  induction hn : data.length using Nat.strong_induction_on generalizing data with
  | _ n ih =>
    have hshorter (rest : List UInt8) (hlt : rest.length < data.length) :
        Alike number stod stream rest := ih _ (hn ▸ hlt) rest rfl
    intro before stack p vs hstream h
    cases h with
    | root hbelow => exact root_corresponds hshorter hstream hbelow
    | number buffer hbelow hat => exact number_corresponds hshorter hagree hstream hbelow hat
    | string buffer escape hbelow => exact string_corresponds hshorter hstream hbelow

end

theorem shiftAll_corresponds {chunks : List (List UInt8)} {stream before : List UInt8}
    (hagree : NumbersAgree number stod stream) (hstream : before ++ chunks.flatten <+: stream)
    {stack : List (OCRemote.State ν)} {p : List (State ν)} {vs : List (LuaValue ν)}
    (h : Agree number vs before stack p) :
    Corresponds number (before ++ chunks.flatten)
      (Parser.shiftAll number Parser.record stack chunks (vs.map LuaValue.lossy))
      (shiftAll stod record p chunks (vs.map LuaValue.sValue)) := by
  induction chunks generalizing before stack p vs with
  | nil =>
    rw [List.flatten_nil, List.append_nil]
    exact .ok h
  | cons data chunks ih =>
    rw [List.flatten_cons, ← List.append_assoc] at hstream ⊢
    have hdata : before ++ data <+: stream := (List.prefix_append ..).trans hstream
    exact (shift_corresponds hagree data hdata h).bind fun stack' p' vs' h' => ih hstream h'

/-- The two servers read the same texts from every stream, well formed or not, and stop at the same
error. Of a key that a table has twice the one server keeps the last value and the other the
first; of a text without such keys they make the same value. -/
theorem servers_agree (number : NumberFormat ν) (stod : List UInt8 → Option ν)
    (chunks : List (List UInt8)) (hagree : NumbersAgree number stod chunks.flatten) :
    ∃ (texts : List (LuaValue ν)) (pieces : List (List UInt8)) (rest : List UInt8)
      (packets : List (Value ν)) (packets' : List (SValue ν)),
      chunks.flatten = pieces.flatten ++ rest ∧
      List.Forall₂ (LuaValue.Written number.read) texts pieces ∧
      packets = texts.map LuaValue.lossy ∧ packets' = texts.map LuaValue.sValue ∧
      (∀ (i : ℕ) (text : LuaValue ν), texts[i]? = some text → text.Distinct →
        packets'[i]?.map SValue.lossy = packets[i]?) ∧
      ((∃ stack p,
        Parser.shiftAll number Parser.record Parser.new chunks [] = .ok (stack, packets) ∧
        shiftAll stod record new chunks [] = .ok (p, packets')) ∨
      ∃ e, e ≠ .panicked ∧
        Parser.shiftAll number Parser.record Parser.new chunks [] = .error (e, packets) ∧
        shiftAll stod record new chunks [] = .error (.ofParseError e, packets')) := by
  have hsame (vs : List (LuaValue ν)) (i : ℕ) (text : LuaValue ν) (htext : vs[i]? = some text)
      (hdistinct : text.Distinct) :
      (vs.map LuaValue.sValue)[i]?.map SValue.lossy = (vs.map LuaValue.lossy)[i]? := by
    rw [List.getElem?_map, List.getElem?_map, htext, Option.map_some, Option.map_some,
      Option.map_some, hdistinct.lossy_sValue]
  have hrun : Corresponds number chunks.flatten
      (Parser.shiftAll number Parser.record Parser.new chunks [])
      (shiftAll stod record new chunks []) :=
    shiftAll_corresponds hagree List.prefix_rfl (.root (.start .nil))
  generalize hparser : Parser.shiftAll number Parser.record Parser.new chunks [] = x at hrun
  generalize hother : shiftAll stod record new chunks [] = y at hrun
  cases hrun with
  | ok h =>
    obtain ⟨pieces, rest, hvs, hstream⟩ := h.exists_pieces
    exact ⟨_, pieces, rest, _, _, hstream, hvs, rfl, rfl, hsame _, .inl ⟨_, _, rfl, rfl⟩⟩
  | error hvs hstream he =>
    exact ⟨_, _, _, _, _, hstream, hvs, rfl, rfl, hsame _, .inr ⟨_, he, rfl, rfl⟩⟩

def stodDigit (text : List UInt8) : Option ℤ := (Utf8.read? text).bind Parser.digits.parse

/-- A table that has a key twice, in two pieces, and a tag that there is not. -/
def twice : List (List UInt8) := [Utf8.bytes "=@a@~#", Utf8.bytes "1@@a@~+!?"]

theorem twice_bytes : twice = [[0x3D, 0x40, 0x61, 0x40, 0x7E, 0x23],
    [0x31, 0x40, 0x40, 0x61, 0x40, 0x7E, 0x2B, 0x21, 0x3F]] := by decide +kernel

/-- The one server keeps the last value of the key and the other the first. -/
theorem servers_agree_twice :
    Parser.shiftAll Parser.digits Parser.record Parser.new twice [] =
      .error (.invalidTag 0x3F, [.T [(.S "a", .B true)]]) ∧
    shiftAll stodDigit record new twice [] =
      .error (.invalidTag, [.T [(.S [0x61], .D 1)]]) ∧
    ∃ (texts : List (LuaValue ℤ)) (pieces : List (List UInt8)) (rest : List UInt8)
      (packets : List (Value ℤ)) (packets' : List (SValue ℤ)),
      twice.flatten = pieces.flatten ++ rest ∧
      List.Forall₂ (LuaValue.Written Parser.digits.read) texts pieces ∧
      packets = texts.map LuaValue.lossy ∧ packets' = texts.map LuaValue.sValue ∧
      (∀ (i : ℕ) (text : LuaValue ℤ), texts[i]? = some text → text.Distinct →
        packets'[i]?.map SValue.lossy = packets[i]?) ∧
      ((∃ stack p,
        Parser.shiftAll Parser.digits Parser.record Parser.new twice [] = .ok (stack, packets) ∧
        shiftAll stodDigit record new twice [] = .ok (p, packets')) ∨
      ∃ e, e ≠ .panicked ∧
        Parser.shiftAll Parser.digits Parser.record Parser.new twice [] = .error (e, packets) ∧
        shiftAll stodDigit record new twice [] = .error (.ofParseError e, packets')) := by
  refine ⟨?_, ?_, servers_agree Parser.digits stodDigit twice fun _ _ _ _ _ => rfl⟩
  · have htext : Utf8.read? [0x31] = some "1" := by decide +kernel
    have hnumber : Parser.digits.parse "1" = some 1 := by decide +kernel
    have hkey : Utf8.fromUtf8Lossy [0x61] = "a" := by decide +kernel
    rw [twice_bytes]
    simp [Parser.new, Parser.shiftAll, Parser.shift, Parser.scanNumber, Parser.scanString,
      Parser.reduce, Parser.record, htext, hnumber, hkey, Except.bind, OrderedMap.insert]
  · have hnumber : stodDigit [0x31] = some 1 := by decide +kernel
    rw [twice_bytes]
    simp [new, shiftAll, shift, Parser.scanNumber, Parser.scanString, reduce, record, hnumber,
      Except.bind, OrderedMap.emplace, OrderedMap.insert]

end Deserializer
end OCRemote
