import OCRemote.Codec.RoundTrip

/-! The language of the parser as a grammar, with a reader that descends along it:
value ::= '!' | '#' number '@' | '@' text '@~' | '+' | '-' | '=' (key value)* '!'.
The parser is that reader, cut into steps that can stop between any two bytes. -/

namespace OCRemote
namespace Grammar
variable {ν ε σ : Type}

/-- What makes a text no beginning of a value. -/
inductive Malformed (ν : Type) where
  | tableKey (key : Table ν)
  | invalidTag (x : UInt8)
  | nonUtf8Number
  | invalidNumber
  | unknownEscape (x : UInt8)

/-- The outcome on a text of `n` bytes: it ends too early, it is malformed, or something was read
from it and a shorter text is left. -/
inductive Reading (ν α : Type) (n : ℕ) where
  | more
  | malformed (e : Malformed ν)
  | done (a : α) (rest : List UInt8) (h : rest.length < n)

namespace Reading
variable {α β : Type} {m n : ℕ}

def map (f : α → β) : Reading ν α n → Reading ν β n
  | more => more
  | malformed e => malformed e
  | done a rest h => done (f a) rest h

/-- The same outcome on a longer text. -/
def lift (hmn : m ≤ n) : Reading ν α m → Reading ν α n
  | more => more
  | malformed e => malformed e
  | done a rest h => done a rest (h.trans_le hmn)

end Reading

/-- text ::= (byte other than '@' | '@.')* -/
def readText : (data : List UInt8) → Reading ν (List UInt8) data.length
  | [] => .more
  | x :: data =>
    if x = 0x40 then
      match data with
      | [] => .more
      | y :: rest =>
        if y = 0x2E then
          ((readText rest).map fun text => 0x40 :: text).lift
            ((Nat.le_succ _).trans (Nat.le_succ _))
        else if y = 0x7E then .done [] rest ((Nat.lt_succ_self _).trans (Nat.lt_succ_self _))
        else .malformed (.unknownEscape y)
    else ((readText data).map fun text => x :: text).lift (Nat.le_succ _)

/-- The bytes up to '@'. -/
def readDigits : (data : List UInt8) → Reading ν (List UInt8) data.length
  | [] => .more
  | x :: data =>
    if x = 0x40 then .done [] data (Nat.lt_succ_self _)
    else ((readDigits data).map fun digits => x :: digits).lift (Nat.le_succ _)

/-- number '@', where what a number looks like is left to `parse`. -/
def readNumber (parse : String → Option ν) (data : List UInt8) : Reading ν ν data.length :=
  match readDigits data with
  | .more => .more
  | .malformed e => .malformed e
  | .done digits rest h =>
    match Utf8.read? digits with
    | none => .malformed .nonUtf8Number
    | some text =>
      match parse text with
      | none => .malformed .invalidNumber
      | some x => .done x rest h

variable [LinearOrder ν]

mutual

def readValue (parse : String → Option ν) :
    (data : List UInt8) → Reading ν (Value ν) data.length
  | [] => .more
  | x :: data =>
    if x = 0x21 then .done .N data (Nat.lt_succ_self _)
    else if x = 0x23 then ((readNumber parse data).map .F).lift (Nat.le_succ _)
    else if x = 0x40 then
      ((readText data).map fun text => .S (Utf8.fromUtf8Lossy text)).lift (Nat.le_succ _)
    else if x = 0x2B then .done (.B true) data (Nat.lt_succ_self _)
    else if x = 0x2D then .done (.B false) data (Nat.lt_succ_self _)
    else if x = 0x3D then ((readEntries parse [] data).map .T).lift (Nat.le_succ _)
    else .malformed (.invalidTag x)
termination_by data => (data.length, 0)

/-- (key value)* '!', added to the entries before. A key is neither nil nor a table. -/
def readEntries (parse : String → Option ν) (result : Table ν) (data : List UInt8) :
    Reading ν (Table ν) data.length :=
  match readValue parse data with
  | .more => .more
  | .malformed e => .malformed e
  | .done .N rest h => .done result rest h
  | .done (.T key) _ _ => .malformed (.tableKey key)
  | .done (.F x) rest h => readEntry parse result (.F x) data rest h
  | .done (.S x) rest h => readEntry parse result (.S x) data rest h
  | .done (.B x) rest h => readEntry parse result (.B x) data rest h
termination_by (data.length, 2)

def readEntry (parse : String → Option ν) (result : Table ν) (key : Key ν) (data rest : List UInt8)
    (h : rest.length < data.length) : Reading ν (Table ν) data.length :=
  match readValue parse rest with
  | .more => .more
  | .malformed e => .malformed e
  | .done value rest' h' =>
    (readEntries parse (OrderedMap.insert key value result) rest').lift (h'.trans h).le
termination_by (data.length, 1)

end

/-- The errors of a stream: it is malformed, or the handler refuses a value. -/
inductive StreamError (ν ε : Type) where
  | malformed (e : Malformed ν)
  | handlerError (e : ε)

/-- Values one after the other, each handed over as soon as it is read. -/
def readStream (parse : String → Option ν) (handler : Value ν → σ → Except (ε × σ) σ)
    (data : List UInt8) (s : σ) : Except (StreamError ν ε × σ) σ :=
  match readValue parse data with
  | .more => .ok s
  | .malformed e => .error (.malformed e, s)
  | .done v rest _ =>
    match handler v s with
    | .error (e, s) => .error (.handlerError e, s)
    | .ok s => readStream parse handler rest s
termination_by data.length

def Malformed.toParseError : Malformed ν → ParseError ν ε
  | tableKey key => .tableKey key
  | invalidTag x => .invalidTag x
  | nonUtf8Number => .nonUtf8Number
  | invalidNumber => .invalidNumber
  | unknownEscape x => .unknownEscape x

def StreamError.toParseError : StreamError ν ε → ParseError ν ε
  | malformed e => e.toParseError
  | handlerError e => .handlerError e

/-! The parser follows the reader. -/

omit [LinearOrder ν] in
theorem StreamError.toParseError_ne (e : StreamError ν ε) : e.toParseError ≠ .panicked := by
  rcases e with (_ | _ | _ | _ | _) | _ <;> simp [toParseError, Malformed.toParseError]

omit [LinearOrder ν] in
theorem readDigits_cases (data : List UInt8) :
    ((readDigits data : Reading ν _ _) = .more ∧
      ∀ result, Parser.scanNumber result data = (result ++ data, none)) ∨
    ∃ digits rest h, (readDigits data : Reading ν _ _) = .done digits rest h ∧
      ∀ result, Parser.scanNumber result data = (result ++ digits, some rest) := by
  induction data with
  | nil => exact .inl ⟨rfl, fun result => by simp [Parser.scanNumber]⟩
  | cons x data ih =>
    by_cases hx : x = 0x40
    · exact .inr ⟨[], data, _, by rw [readDigits, if_pos hx],
        fun result => by simp [Parser.scanNumber, hx]⟩
    · rw [readDigits, if_neg hx]
      rcases ih with ⟨hread, hscan⟩ | ⟨digits, rest, h, hread, hscan⟩
      · exact .inl ⟨by rw [hread]; rfl, fun result => by simp [Parser.scanNumber, hx, hscan]⟩
      · exact .inr ⟨x :: digits, rest, _, by rw [hread]; rfl,
          fun result => by simp [Parser.scanNumber, hx, hscan]⟩

omit [LinearOrder ν] in
theorem readText_cases (data : List UInt8) :
    ((readText data : Reading ν _ _) = .more ∧
      ∀ result, ∃ r e, Parser.scanString result false data = .more r e) ∨
    (∃ y, (readText data : Reading ν _ _) = .malformed (.unknownEscape y) ∧
      ∀ result, Parser.scanString result false data = .unknown y) ∨
    ∃ text rest h, (readText data : Reading ν _ _) = .done text rest h ∧
      ∀ result, Parser.scanString result false data = .done (result ++ text) rest := by
  fun_induction readText (ν := ν) data with
  | case1 => exact .inl ⟨rfl, fun result => ⟨_, _, rfl⟩⟩
  | case2 => exact .inl ⟨rfl, fun result => ⟨_, _, rfl⟩⟩
  | case3 rest ih =>
    -- an escaped '@'
    have hscan (result : List UInt8) : Parser.scanString result false (0x40 :: 0x2E :: rest) =
        Parser.scanString (result ++ [0x40]) false rest := by simp [Parser.scanString]
    simp only [hscan]
    rcases ih with ⟨hread, hmore⟩ | ⟨y, hread, hunknown⟩ | ⟨text, rest', h, hread, hdone⟩
    · exact .inl ⟨by rw [hread]; rfl, fun result => hmore _⟩
    · exact .inr (.inl ⟨y, by rw [hread]; rfl, fun result => hunknown _⟩)
    · refine .inr (.inr ⟨0x40 :: text, rest', ?_, ?_, fun result => ?_⟩)
      · exact h.trans_le ((Nat.le_succ _).trans (Nat.le_succ _))
      · rw [hread]
        rfl
      · rw [hdone, List.append_assoc, List.singleton_append]
  | case4 rest hne => exact .inr (.inr ⟨[], rest, _, rfl, fun result => by simp [Parser.scanString]⟩)
  | case5 y rest hy hy' =>
    exact .inr (.inl ⟨y, rfl, fun result => by simp [Parser.scanString, hy, hy']⟩)
  | case6 x data hx ih =>
    have hscan (result : List UInt8) : Parser.scanString result false (x :: data) =
        Parser.scanString (result ++ [x]) false data := by simp [Parser.scanString, hx]
    simp only [hscan]
    rcases ih with ⟨hread, hmore⟩ | ⟨y, hread, hunknown⟩ | ⟨text, rest', h, hread, hdone⟩
    · exact .inl ⟨by rw [hread]; rfl, fun result => hmore _⟩
    · exact .inr (.inl ⟨y, by rw [hread]; rfl, fun result => hunknown _⟩)
    · refine .inr (.inr ⟨x :: text, rest', h.trans_le (Nat.le_succ _), ?_, fun result => ?_⟩)
      · rw [hread]
        rfl
      · rw [hdone, List.append_assoc, List.singleton_append]

/-- What the parser does with the bytes after it began to read something: it waits for more
bytes, stops with the error, or goes on from what it read as `next` says. -/
def Follows {α : Type} {n : ℕ} (reading : Reading ν α n) (s : σ)
    (next : α → List UInt8 → Parser.Result ν ε σ) (run : Parser.Result ν ε σ) : Prop :=
  match reading with
  | .more => ∃ stack, run = .ok (stack, s)
  | .malformed e => run = .error (e.toParseError, s)
  | .done a rest _ => run = next a rest

section
variable {α β : Type} {m n : ℕ} {s : σ} {run : Parser.Result ν ε σ}

omit [LinearOrder ν] in
theorem follows_lift {reading : Reading ν α m} (hmn : m ≤ n)
    {next : α → List UInt8 → Parser.Result ν ε σ} :
    Follows (reading.lift hmn) s next run ↔ Follows reading s next run := by
  cases reading <;> rfl

omit [LinearOrder ν] in
theorem follows_map {reading : Reading ν α n} {f : α → β}
    {next : β → List UInt8 → Parser.Result ν ε σ} :
    Follows (reading.map f) s next run ↔ Follows reading s (fun a rest => next (f a) rest) run := by
  cases reading <;> rfl

end

section
variable {number : NumberFormat ν} {handler : Value ν → σ → Except (ε × σ) σ}

theorem shift_readNumber (data : List UInt8) (stack : List (State ν)) (s : σ) :
    Follows (readNumber number.parse data) s
      (fun x rest => (Parser.reduce handler stack (.F x) s).bind fun p =>
        Parser.shift number handler p.1 rest p.2)
      (Parser.shift number handler (.F [] :: stack) data s) := by
  unfold readNumber
  rcases readDigits_cases (ν := ν) data with ⟨hread, hscan⟩ | ⟨digits, rest, h, hread, hscan⟩
  · rw [hread]
    exact ⟨_, Parser.shift_F_more (hscan [])⟩
  · rw [hread, Parser.shift_F_done (hscan []), List.nil_append]
    simp only
    cases Utf8.read? digits with
    | none => rfl
    | some text =>
      simp only
      cases number.parse text <;> rfl

theorem shift_readText (data : List UInt8) (stack : List (State ν)) (s : σ) :
    Follows (readText data) s
      (fun text rest => (Parser.reduce handler stack (.S (Utf8.fromUtf8Lossy text)) s).bind fun p =>
        Parser.shift number handler p.1 rest p.2)
      (Parser.shift number handler (.S [] false :: stack) data s) := by
  rw [Parser.shift_S]
  rcases readText_cases (ν := ν) data with ⟨hread, hscan⟩ | ⟨y, hread, hscan⟩ |
    ⟨text, rest, h, hread, hscan⟩
  · obtain ⟨r, e, hscan⟩ := hscan []
    rw [hread, hscan]
    exact ⟨_, rfl⟩
  · rw [hread, hscan]
    rfl
  · rw [hread, hscan]
    rfl

mutual

/-- Over any stack, reading a value is one call of `reduce` on it. -/
theorem shift_readValue (data : List UInt8) (stack : List (State ν)) (s : σ) :
    Follows (readValue number.parse data) s
      (fun v rest => (Parser.reduce handler stack v s).bind fun p =>
        Parser.shift number handler p.1 rest p.2)
      (Parser.shift number handler (.V :: stack) data s) := by
  cases data with
  | nil =>
    rw [readValue]
    exact ⟨_, Parser.shift_nil _ _⟩
  | cons x data =>
    rw [readValue, Parser.shift]
    split_ifs
    · rfl
    · exact (follows_lift _).mpr (follows_map.mpr (shift_readNumber data stack s))
    · exact (follows_lift _).mpr (follows_map.mpr (shift_readText data stack s))
    · rfl
    · rfl
    · exact (follows_lift _).mpr (follows_map.mpr (shift_readEntries [] data stack s))
    · rfl
termination_by (data.length, 0)

theorem shift_readEntries (result : Table ν) (data : List UInt8) (stack : List (State ν)) (s : σ) :
    Follows (readEntries number.parse result data) s
      (fun table rest => (Parser.reduce handler stack (.T table) s).bind fun p =>
        Parser.shift number handler p.1 rest p.2)
      (Parser.shift number handler (.V :: .T result none :: stack) data s) := by
  have hkey := shift_readValue data (.T result none :: stack) s
  rw [readEntries]
  cases hread : readValue number.parse data with rw [hread] at hkey
  | more => exact hkey
  | malformed e => exact hkey
  | done v rest h =>
    -- what ends the table, what cannot be a key, and the keys
    cases v with
    | N => exact hkey
    | T key => exact hkey
    | F x => exact shift_readEntry result (.F x) data rest h stack s hkey
    | S x => exact shift_readEntry result (.S x) data rest h stack s hkey
    | B x => exact shift_readEntry result (.B x) data rest h stack s hkey
termination_by (data.length, 2)

theorem shift_readEntry (result : Table ν) (key : Key ν) (data rest : List UInt8)
    (h : rest.length < data.length) (stack : List (State ν)) (s : σ)
    {run : Parser.Result ν ε σ}
    (hrun : run = Parser.shift number handler (.V :: .T result (some key) :: stack) rest s) :
    Follows (readEntry number.parse result key data rest h) s
      (fun table rest => (Parser.reduce handler stack (.T table) s).bind fun p =>
        Parser.shift number handler p.1 rest p.2) run := by
  subst hrun
  have hvalue := shift_readValue rest (.T result (some key) :: stack) s
  rw [readEntry]
  cases hread : readValue number.parse rest with rw [hread] at hvalue
  | more => exact hvalue
  | malformed e => exact hvalue
  | done value rest' h' =>
    have hentries := shift_readEntries (OrderedMap.insert key value result) rest' stack s
    have hinsert : Parser.shift number handler (.V :: .T result (some key) :: stack) rest s =
        Parser.shift number handler (.V :: .T (OrderedMap.insert key value result) none :: stack)
          rest' s := hvalue
    rw [hinsert]
    exact (follows_lift _).mpr hentries
termination_by (data.length, 1)

end

theorem shift_readStream (number : NumberFormat ν) (handler : Value ν → σ → Except (ε × σ) σ)
    (data : List UInt8) (s : σ) :
    (Parser.shift number handler Parser.new data s).map Prod.snd =
      (readStream number.parse handler data s).mapError (Prod.map StreamError.toParseError id) := by
  rw [Parser.new]
  fun_induction readStream number.parse handler data s with
  | case1 data s hread =>
    have hvalue : Follows _ s _ (Parser.shift number handler [.V] data s) := shift_readValue ..
    rw [hread] at hvalue
    obtain ⟨stack, hrun⟩ := hvalue
    rw [hrun]
    rfl
  | case2 data s e hread =>
    have hvalue : Follows _ s _ (Parser.shift number handler [.V] data s) := shift_readValue ..
    rw [hread] at hvalue
    exact congrArg (Except.map Prod.snd) hvalue
  | case3 data s v rest h hread e s' hcall =>
    have hvalue : Follows _ s _ (Parser.shift number handler [.V] data s) := shift_readValue ..
    simp only [hread, Follows, Parser.reduce, hcall] at hvalue
    rw [hvalue]
    rfl
  | case4 data s v rest h hread s' hcall ih =>
    have hvalue : Follows _ s _ (Parser.shift number handler [.V] data s) := shift_readValue ..
    simp only [hread, Follows, Parser.reduce, hcall] at hvalue
    rw [hvalue, ← ih]
    rfl

/-- However the stream is cut, the parser does what the reader does on the whole of it: the same
calls of the handler in the same states, and the same end. None of it is a panic. -/
theorem shiftAll_eq_readStream (number : NumberFormat ν)
    (handler : Value ν → σ → Except (ε × σ) σ) (chunks : List (List UInt8)) (s : σ) :
    Parser.shiftAll number handler Parser.new chunks s =
        Parser.shift number handler Parser.new chunks.flatten s ∧
      (Parser.shiftAll number handler Parser.new chunks s).map Prod.snd =
        (readStream number.parse handler chunks.flatten s).mapError
          (Prod.map StreamError.toParseError id) ∧
      ∀ s', Parser.shiftAll number handler Parser.new chunks s ≠ .error (.panicked, s') := by
  have hwhole : Parser.shiftAll number handler Parser.new chunks s =
    Parser.shift number handler Parser.new chunks.flatten s := Parser.shiftAll_eq_shift ..
  have hread := shift_readStream number handler chunks.flatten s
  refine ⟨hwhole, by rw [hwhole, hread], fun s' hpanic => ?_⟩
  rw [← hwhole, hpanic] at hread
  cases hstream : readStream number.parse handler chunks.flatten s with
  | ok s =>
    rw [hstream] at hread
    cases hread
  | error e =>
    rw [hstream] at hread
    have he : (.panicked, s') = Prod.map StreamError.toParseError id e := Except.error.inj hread
    exact e.1.toParseError_ne (congrArg Prod.fst he).symm

end

end Grammar
end OCRemote
