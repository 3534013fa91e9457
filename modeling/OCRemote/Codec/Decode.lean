import OCRemote.Codec.RoundTrip
import OCRemote.Codec.Serialize

/-! `decode` of `client.lua`. Its closures replace the function `s` by one another; each is a
constructor here, with the variables it closes over. -/

namespace OCRemote
namespace LuaValue
variable {ν : Type}

/-- Equality of table keys. Tables are compared by identity, and each is new when it is read. -/
def rawEqual [DecidableEq ν] : LuaValue ν → LuaValue ν → Bool
  | nil, nil => true
  | .number x, .number y => x = y
  | .string x, .string y => x = y
  | .boolean x, .boolean y => x = y
  | _, _ => false

/-- `data[key] = x`. -/
def assign [DecidableEq ν] (key x : LuaValue ν) :
    List (LuaValue ν × LuaValue ν) → List (LuaValue ν × LuaValue ν)
  | [] =>
    match x with
    | nil => []
    | x => [(key, x)]
  | e :: data =>
    if rawEqual key e.1 then
      match x with
      | nil => data
      | x => (key, x) :: data
    else e :: assign key x data

/-- `data[key]`. -/
def index [DecidableEq ν] (key : LuaValue ν) (data : List (LuaValue ν × LuaValue ν)) :
    LuaValue ν := (data.find? fun e => rawEqual key e.1).elim nil Prod.snd

/-! Keys of one table are told apart by the client as well. -/

theorem rawEqual_ofKey [DecidableEq ν] (k l : Key ν) :
    rawEqual (ofKey k) (ofKey l) = true ↔ k = l := by
  have hbytes : Function.Injective Utf8.bytes := fun x y h => by
    simpa using congrArg Utf8.read? h
  cases k <;> cases l <;> simp [rawEqual, ofKey, hbytes.eq_iff]

theorem ofEntries_append (x y : Table ν) : ofEntries (x ++ y) = ofEntries x ++ ofEntries y := by
  induction x with
  | nil => rfl
  | cons e x ih => simp only [List.cons_append, ofEntries, ih]

theorem assign_append [DecidableEq ν] {key x : LuaValue ν} (hx : x ≠ nil)
    {data : List (LuaValue ν × LuaValue ν)} (hkey : ∀ e ∈ data, ¬ rawEqual key e.1 = true) :
    assign key x data = data ++ [(key, x)] := by
  induction data with
  | nil => cases x <;> simp_all [assign]
  | cons e data ih =>
    obtain ⟨he, hdata⟩ := List.forall_mem_cons.mp hkey
    simp only [assign, if_neg he, ih hdata, List.cons_append]

theorem mem_ofEntries {x : Table ν} {e : LuaValue ν × LuaValue ν} (he : e ∈ ofEntries x) :
    ∃ f ∈ x, e = (ofKey f.1, ofValue f.2) := by
  induction x with
  | nil => cases he
  | cons f x ih =>
    rcases List.mem_cons.mp he with rfl | he
    · exact ⟨f, List.mem_cons_self .., rfl⟩
    · obtain ⟨g, hg, heq⟩ := ih he
      exact ⟨g, List.mem_cons_of_mem _ hg, heq⟩

theorem assign_new [DecidableEq ν] {k : Key ν} {v : LuaValue ν} (hv : v ≠ nil) {data : Table ν}
    (hk : ∀ e ∈ data, e.1 ≠ k) :
    assign (ofKey k) v (ofEntries data) = ofEntries data ++ [(ofKey k, v)] := by
  refine assign_append hv fun e he heq => ?_
  obtain ⟨f, hf, rfl⟩ := mem_ofEntries he
  exact hk f hf ((rawEqual_ofKey ..).mp heq).symm

theorem ofValue_ne_nil {v : Value ν} (h : v ≠ .N) : ofValue v ≠ nil := by
  cases v <;> simp_all [ofValue]

end LuaValue

namespace Decode

/-- The functions that are called with a value: the one that passes it to the callback, and that of
`sTable`. -/
inductive Sink (ν : Type) where
  | cb
  | sTable (p : Sink ν) (data : List (LuaValue ν × LuaValue ν)) (key : LuaValue ν)

/-- The functions that are called with bytes. -/
inductive Source (ν : Type) where
  | sRoot (p : Sink ν)
  | sNumber (p : Sink ν) (data : List UInt8)
  | sString (p : Sink ν) (data : List UInt8) (escape : Bool)

inductive Error (ε : Type) where
  | unknownEscape (now : UInt8)
  | invalidTag (tag : UInt8)
  | cbError (e : ε)

variable {ν ε σ : Type} [LinearOrder ν]

def tonumber (number : NumberFormat ν) (x : List UInt8) : LuaValue ν :=
  match (Utf8.read? x).bind number.parse with
  | none => .nil
  | some y => .number y

/-- A call `s(x, rem)` up to its call of `s(rem)`, which always finds `sRoot` in the place of
`s`: what `sRoot` goes back to. -/
def resume (cb : LuaValue ν → σ → Except (ε × σ) σ) :
    Sink ν → LuaValue ν → σ → Except (Error ε × σ) (Sink ν × σ)
  | .cb, x, s =>
    match cb x s with
    | .error (e, s) => .error (.cbError e, s)
    | .ok s => .ok (.cb, s)
  | .sTable p data .nil, .nil, s => resume cb p (.table data) s
  | .sTable p data .nil, x, s => .ok (.sTable p data x, s)
  | .sTable p data key, x, s => .ok (.sTable p (LuaValue.assign key x data) .nil, s)

/-- A call `s(x)`. The loops that look for the end of a number and of a string do what those of
the server's parser do. -/
def feed (number : NumberFormat ν) (cb : LuaValue ν → σ → Except (ε × σ) σ) :
    Source ν → List UInt8 → σ → Except (Error ε × σ) (Source ν × σ)
  | .sRoot p, [], s => .ok (.sRoot p, s)
  | .sRoot p, tag :: rem, s =>
    if tag = 0x21 then (resume cb p .nil s).bind fun (p, s) => feed number cb (.sRoot p) rem s
    else if tag = 0x23 then feed number cb (.sNumber p []) rem s
    else if tag = 0x40 then feed number cb (.sString p [] false) rem s
    else if tag = 0x2B then
      (resume cb p (.boolean true) s).bind fun (p, s) => feed number cb (.sRoot p) rem s
    else if tag = 0x2D then
      (resume cb p (.boolean false) s).bind fun (p, s) => feed number cb (.sRoot p) rem s
    else if tag = 0x3D then feed number cb (.sRoot (.sTable p [] .nil)) rem s
    else .error (.invalidTag tag, s)
  | .sNumber p data, x, s =>
    match _ : Parser.scanNumber data x with
    | (data, none) => .ok (.sNumber p data, s)
    | (data, some rem) =>
      (resume cb p (tonumber number data) s).bind fun (p, s) => feed number cb (.sRoot p) rem s
  | .sString p data escape, x, s =>
    match _ : Parser.scanString data escape x with
    | .more data escape => .ok (.sString p data escape, s)
    | .unknown now => .error (.unknownEscape now, s)
    | .done data rem =>
      (resume cb p (.string data) s).bind fun (p, s) => feed number cb (.sRoot p) rem s
termination_by _ x => x.length
decreasing_by
  all_goals first
    | exact Nat.lt_succ_self _
    | exact Parser.scanNumber_length ‹_›
    | exact Parser.scanString_length ‹_›

/-- The function that `decode` returns, called with one chunk after another. -/
def feedAll (number : NumberFormat ν) (cb : LuaValue ν → σ → Except (ε × σ) σ) :
    Source ν → List (List UInt8) → σ → Except (Error ε × σ) (Source ν × σ)
  | r, [], s => .ok (r, s)
  | r, x :: chunks, s => (feed number cb r x s).bind fun (r, s) => feedAll number cb r chunks s

/-- What `decode` starts with. -/
def new : Source ν := .sRoot .cb

/-! A call with many bytes is calls with one byte each. -/

section
variable {number : NumberFormat ν} {cb : LuaValue ν → σ → Except (ε × σ) σ}

@[simp] theorem feed_nil (r : Source ν) (s : σ) : feed number cb r [] s = .ok (r, s) := by
  rcases r with p | ⟨p, data⟩ | ⟨p, data, escape⟩
  · rw [feed]
  · rw [feed]
    split <;> simp_all [Parser.scanNumber]
  · rw [feed]
    split <;> simp_all [Parser.scanString]

theorem feed_sNumber (p : Sink ν) (data x : List UInt8) (s : σ) :
    feed number cb (.sNumber p data) x s =
      match Parser.scanNumber data x with
      | (data, none) => .ok (.sNumber p data, s)
      | (data, some rem) => (resume cb p (tonumber number data) s).bind fun q =>
          feed number cb (.sRoot q.1) rem q.2 := by
  rw [feed]
  split <;> simp_all

theorem feed_sString (p : Sink ν) (data x : List UInt8) (escape : Bool) (s : σ) :
    feed number cb (.sString p data escape) x s =
      match Parser.scanString data escape x with
      | .more data escape => .ok (.sString p data escape, s)
      | .unknown now => .error (.unknownEscape now, s)
      | .done data rem => (resume cb p (.string data) s).bind fun q =>
          feed number cb (.sRoot q.1) rem q.2 := by
  rw [feed]
  split <;> simp_all

theorem feed_cons (r : Source ν) (x : UInt8) (rem : List UInt8) (s : σ) :
    feed number cb r (x :: rem) s =
      (feed number cb r [x] s).bind fun q => feed number cb q.1 rem q.2 := by
  have hvalue (run : Except (Error ε × σ) (Sink ν × σ)) :
      (run.bind fun q => feed number cb (.sRoot q.1) rem q.2) =
        (run.bind fun q => feed number cb (.sRoot q.1) [] q.2).bind
          fun q => feed number cb q.1 rem q.2 := by
    cases run with
    | error e => rfl
    | ok q => simp [Except.bind]
  rcases r with p | ⟨p, data⟩ | ⟨p, data, escape⟩
  · rw [feed, feed]
    split_ifs <;> first | exact hvalue _ | simp [Except.bind]
  · rw [feed_sNumber, feed_sNumber]
    by_cases hx : x = 0x40
    · simpa [Parser.scanNumber, hx] using hvalue _
    · simp only [Parser.scanNumber, if_neg hx, Except.bind, feed_sNumber]
  · rw [feed_sString, feed_sString]
    cases escape with
    | false => by_cases hx : x = 0x40 <;> simp [Parser.scanString, hx, Except.bind, feed_sString]
    | true =>
      by_cases hdot : x = 0x2E
      · simp [Parser.scanString, hdot, Except.bind, feed_sString]
      · by_cases htilde : x = 0x7E
        · simpa [Parser.scanString, htilde] using hvalue _
        · simp [Parser.scanString, hdot, htilde, Except.bind]

theorem feed_append (r : Source ν) (xs ys : List UInt8) (s : σ) :
    feed number cb r (xs ++ ys) s =
      (feed number cb r xs s).bind fun q => feed number cb q.1 ys q.2 := by
  induction xs generalizing r s with
  | nil => simp [Except.bind]
  | cons x xs ih =>
    rw [List.cons_append, feed_cons, feed_cons r x xs]
    cases feed number cb r [x] s with
    | error e => rfl
    | ok q => exact ih q.1 q.2

theorem feedAll_eq_feed (r : Source ν) (chunks : List (List UInt8)) (s : σ) :
    feedAll number cb r chunks s = feed number cb r chunks.flatten s := by
  induction chunks generalizing r s with
  | nil => simp [feedAll]
  | cons x chunks ih => simp only [feedAll, List.flatten_cons, feed_append, ih]

/-! What one written value does to the client. -/

omit [LinearOrder ν] in
theorem tonumber_print {x : ν} (hx : number.finite x) :
    tonumber number (Utf8.bytes (number.print x)) = .number x := by
  simp [tonumber, number.parse_print x hx]

theorem feed_serializeNum {x : ν} (hx : number.finite x) (p : Sink ν) (rest : List UInt8) (s : σ) :
    feed number cb (.sRoot p) (Value.serializeNum number x ++ rest) s =
      (resume cb p (.number x) s).bind fun q => feed number cb (.sRoot q.1) rest q.2 := by
  have hscan : Parser.scanNumber [] (Utf8.bytes (number.print x) ++ 0x40 :: rest) =
      (Utf8.bytes (number.print x), some rest) := Parser.scanNumber_token (number.print_no_at x hx)
  have hfeed : feed number cb (.sRoot p) (Value.serializeNum number x ++ rest) s =
      feed number cb (.sNumber p []) (Utf8.bytes (number.print x) ++ 0x40 :: rest) s := by
    simp [Value.serializeNum, feed]
  rw [hfeed, feed_sNumber, hscan, ← tonumber_print hx]

theorem feed_serializeString (x : String) (p : Sink ν) (rest : List UInt8) (s : σ) :
    feed number cb (.sRoot p) (Value.serializeString x ++ rest) s =
      (resume cb p (.string (Utf8.bytes x)) s).bind fun q =>
        feed number cb (.sRoot q.1) rest q.2 := by
  have hfeed : feed number cb (.sRoot p) (Value.serializeString x ++ rest) s =
      feed number cb (.sString p [] false)
        (LuaValue.gsub (Utf8.bytes x) ++ 0x40 :: 0x7E :: rest) s := by
    simp [Value.serializeString, feed]
  rw [hfeed, feed_sString, Parser.scanString_token, List.nil_append]

theorem feed_serializeBool (x : Bool) (p : Sink ν) (rest : List UInt8) (s : σ) :
    feed number cb (.sRoot p) (Value.serializeBool x ++ rest) s =
      (resume cb p (.boolean x) s).bind fun q => feed number cb (.sRoot q.1) rest q.2 := by
  cases x <;> simp [Value.serializeBool, feed]

theorem feed_serializeKey {k : Key ν} (hk : ∀ y, k = .F y → number.finite y) (p : Sink ν)
    (rest : List UInt8) (s : σ) :
    feed number cb (.sRoot p) (Value.serializeKey number k ++ rest) s =
      (resume cb p (LuaValue.ofKey k) s).bind fun q => feed number cb (.sRoot q.1) rest q.2 := by
  cases k with
  | F x => exact feed_serializeNum (hk x rfl) p rest s
  | S x => exact feed_serializeString x p rest s
  | B x => exact feed_serializeBool x p rest s

/-- A key comes when there is none yet, also when it is false. -/
theorem resume_key (k : Key ν) (p : Sink ν) (data : List (LuaValue ν × LuaValue ν)) (s : σ) :
    resume cb (.sTable p data .nil) (LuaValue.ofKey k) s =
      .ok (.sTable p data (LuaValue.ofKey k), s) := by
  cases k <;> rfl

theorem resume_entry (k : Key ν) (p : Sink ν) (data : List (LuaValue ν × LuaValue ν))
    (x : LuaValue ν) (s : σ) :
    resume cb (.sTable p data (LuaValue.ofKey k)) x s =
      .ok (.sTable p (LuaValue.assign (LuaValue.ofKey k) x data) .nil, s) := by
  cases k <;> rfl

mutual

/-- Reading a written value is one call of the function that waits for it. -/
theorem feed_serialize : ∀ (v : Value ν), v.Ordered → Value.Sendable number v →
    ∀ (p : Sink ν) (rest : List UInt8) (s : σ),
      feed number cb (.sRoot p) (Value.serialize number v ++ rest) s =
        (resume cb p (LuaValue.ofValue v) s).bind fun q => feed number cb (.sRoot q.1) rest q.2
  | .N, _, _, p, rest, s => by simp [Value.serialize, LuaValue.ofValue, feed]
  | .F x, _, hx, p, rest, s => feed_serializeNum hx p rest s
  | .S x, _, _, p, rest, s => feed_serializeString x p rest s
  | .B x, _, _, p, rest, s => feed_serializeBool x p rest s
  | .T x, hord, hx, p, rest, s => by
    have hopen : feed number cb (.sRoot p) (Value.serialize number (.T x) ++ rest) s =
        feed number cb (.sRoot (.sTable p [] .nil))
          (Value.serializeEntries number x ++ 0x21 :: rest) s := by
      simp [Value.serialize, feed]
    have hentries := feed_serializeEntries x hord.2 hx [] hord.1 p (0x21 :: rest) s
    rw [hopen]
    refine hentries.trans ?_
    simp [feed, resume, LuaValue.ofValue]

theorem feed_serializeEntries : ∀ (x : Table ν), Table.Ordered x → Value.SendableEntries number x →
    ∀ (data : Table ν), OrderedMap.Sorted (data ++ x) →
    ∀ (p : Sink ν) (rest : List UInt8) (s : σ),
      feed number cb (.sRoot (.sTable p (LuaValue.ofEntries data) .nil))
          (Value.serializeEntries number x ++ rest) s =
        feed number cb (.sRoot (.sTable p (LuaValue.ofEntries (data ++ x)) .nil)) rest s
  | [], _, _, data, _, p, rest, s => by simp [Value.serializeEntries]
  | (k, v) :: x, hord, ⟨hk, ⟨hv, hne⟩, hx⟩, data, hsorted, p, rest, s => by
    have hassign : LuaValue.assign (LuaValue.ofKey k) (LuaValue.ofValue v)
        (LuaValue.ofEntries data) = LuaValue.ofEntries (data ++ [(k, v)]) := by
      have hnew : ∀ e ∈ data, e.1 ≠ k := fun e he =>
        ((List.pairwise_append.mp hsorted).2.2 e he (k, v) (List.mem_cons_self ..)).ne
      rw [LuaValue.assign_new (LuaValue.ofValue_ne_nil hne) hnew, LuaValue.ofEntries_append]
      rfl
    simp only [Value.serializeEntries, List.append_assoc]
    rw [feed_serializeKey hk, resume_key]
    simp only [Except.bind]
    rw [feed_serialize v hord.1 hv, resume_entry]
    simp only [Except.bind]
    rw [hassign, feed_serializeEntries x hord.2 hx (data ++ [(k, v)])]
    · simp
    · simpa using hsorted

end

end

/-- A callback that remembers the values it is called with. -/
def record (x : LuaValue ν) (seen : List (LuaValue ν)) :
    Except (String × List (LuaValue ν)) (List (LuaValue ν)) := .ok (seen ++ [x])

theorem feed_serialize_stream {number : NumberFormat ν} (vs : List (Value ν))
    (hord : ∀ v ∈ vs, v.Ordered) (hvs : ∀ v ∈ vs, Value.Sendable number v)
    (seen : List (LuaValue ν)) :
    feed number record new (vs.flatMap (Value.serialize number)) seen =
      .ok (new, seen ++ vs.map LuaValue.ofValue) := by
  induction vs generalizing seen with
  | nil => simp
  | cons v vs ih =>
    obtain ⟨hv, hord⟩ := List.forall_mem_cons.mp hord
    obtain ⟨hsend, hvs⟩ := List.forall_mem_cons.mp hvs
    rw [List.flatMap_cons, new, feed_serialize v hv hsend]
    simp only [resume, record, Except.bind]
    rw [← new, ih hord hvs, List.append_assoc, List.map_cons, List.singleton_append]

/-- The callback is called once for each value the server wrote, in order, with the Lua value that
it denotes, which stands for that value, however the stream is cut, and the client is ready for the
next one. -/
theorem feedAll_serialize (number : NumberFormat ν) (vs : List (Value ν))
    (hord : ∀ v ∈ vs, v.Ordered) (hvs : ∀ v ∈ vs, Value.Sendable number v)
    (chunks : List (List UInt8))
    (hchunks : chunks.flatten = vs.flatMap (Value.serialize number)) :
    feedAll number record new chunks [] = .ok (new, vs.map LuaValue.ofValue) ∧
      ∀ v ∈ vs, (LuaValue.ofValue v).denote = v := by
  refine ⟨?_, fun v hv => LuaValue.denote_ofValue (hord v hv)⟩
  rw [feedAll_eq_feed, hchunks, feed_serialize_stream vs hord hvs, List.nil_append]

/-- A table in a table, with false as a key, and `nil`, cut inside the escape and the number. -/
theorem feedAll_serialize_example :
    feedAll Parser.digits record new [[0x3D, 0x40, 0x40], [0x2E, 0x40, 0x7E, 0x23], [0x35, 0x40],
        [0x2D, 0x3D, 0x21, 0x21, 0x21]] [] =
      .ok (new, [.table [(.string [0x40], .number 5), (.boolean false, .table [])], .nil]) :=
  (feedAll_serialize Parser.digits [.T [(.S "@", .F 5), (.B false, .T [])], .N]
    (by simp [Value.Ordered, Table.Ordered, OrderedMap.Sorted]; decide)
    (by simp [Value.Sendable, Value.SendableEntries, Parser.digits])
    _ (by decide)).1

end Decode
end OCRemote
