import OCRemote.Codec.LuaValue

/-! `Parser` of `lua_value.rs`: the server's reader of what clients send, resumed at
arbitrary byte boundaries. The vector `stack` is a list with its last element first. -/

namespace OCRemote

inductive State (ν : Type) where
  | V
  | T (result : Table ν) (key : Option (Key ν))
  | F (result : List UInt8)
  | S (result : List UInt8) (escape : Bool)

def State.Ordered {ν : Type} [LinearOrder ν] : State ν → Prop
  | .T result _ => (Value.T result).Ordered
  | .V | .F _ | .S _ _ => True

/-- The errors of `Parser::shift`, with the data their texts show. `panicked` stands for the
arms `unreachable!()` and for the `unwrap` of an empty stack. -/
inductive ParseError (ν ε : Type) where
  | tableKey (key : Table ν)
  | invalidTag (x : UInt8)
  | nonUtf8Number
  | invalidNumber
  | unknownEscape (x : UInt8)
  | handlerError (e : ε)
  | panicked

namespace Parser

/-- `Parser::new`. -/
def new {ν : Type} : List (State ν) := [.V]

/-- The inner loop on a number: the bytes up to `@`, and what follows it if it was found. -/
def scanNumber (result : List UInt8) : List UInt8 → List UInt8 × Option (List UInt8)
  | [] => (result, none)
  | x :: rem => if x = 0x40 then (result, some rem) else scanNumber (result ++ [x]) rem

inductive StringScan where
  | more (result : List UInt8) (escape : Bool)
  | done (result : List UInt8) (rem : List UInt8)
  | unknown (x : UInt8)

/-- The inner loop on a string. -/
def scanString (result : List UInt8) (escape : Bool) : List UInt8 → StringScan
  | [] => .more result escape
  | x :: rem =>
    if escape then
      if x = 0x2E then scanString (result ++ [0x40]) false rem
      else if x = 0x7E then .done result rem
      else .unknown x
    else if x = 0x40 then scanString result true rem
    else scanString (result ++ [x]) false rem

theorem scanNumber_length {result data r rem : List UInt8}
    (h : scanNumber result data = (r, some rem)) : rem.length < data.length := by
  induction data generalizing result with
  | nil => simp [scanNumber] at h
  | cons x data ih =>
    simp only [scanNumber] at h
    split_ifs at h with hx
    · simp_all
    · exact (ih h).trans (Nat.lt_succ_self _)

theorem scanString_length {result data r rem : List UInt8} {escape : Bool}
    (h : scanString result escape data = .done r rem) : rem.length < data.length := by
  induction data generalizing result escape with
  | nil => simp [scanString] at h
  | cons x data ih =>
    simp only [scanString] at h
    split_ifs at h with h₁ h₂ h₃ h₄
    · exact (ih h).trans (Nat.lt_succ_self _)
    · simp_all
    · exact (ih h).trans (Nat.lt_succ_self _)
    · exact (ih h).trans (Nat.lt_succ_self _)

variable {ν ε σ : Type} [LinearOrder ν]

/-- What a call of the parser leaves: its stack and the handler's state, or the first error
with the handler's state at that moment. -/
abbrev Result (ν ε σ : Type) := Except (ParseError ν ε × σ) (List (State ν) × σ)

def reduce (handler : Value ν → σ → Except (ε × σ) σ) :
    List (State ν) → Value ν → σ → Result ν ε σ
  | [], value, s =>
    match handler value s with
    | .error (e, s) => .error (.handlerError e, s)
    | .ok s => .ok ([.V], s)
  | .T result (some key) :: stack, value, s =>
    .ok (.V :: .T (OrderedMap.insert key value result) none :: stack, s)
  | .T result none :: stack, value, s =>
    match value with
    | .N => reduce handler stack (.T result) s
    | .F x => .ok (.V :: .T result (some (.F x)) :: stack, s)
    | .S x => .ok (.V :: .T result (some (.S x)) :: stack, s)
    | .B x => .ok (.V :: .T result (some (.B x)) :: stack, s)
    | .T x => .error (.tableKey x, s)
  | _ :: _, _, s => .error (.panicked, s)

def shift (number : NumberFormat ν) (handler : Value ν → σ → Except (ε × σ) σ) :
    List (State ν) → List UInt8 → σ → Result ν ε σ
  | stack, [], s => .ok (stack, s)
  | .V :: stack, x :: rem, s =>
    if x = 0x21 then
      (reduce handler stack .N s).bind fun (stack, s) => shift number handler stack rem s
    else if x = 0x23 then shift number handler (.F [] :: stack) rem s
    else if x = 0x40 then shift number handler (.S [] false :: stack) rem s
    else if x = 0x2B then
      (reduce handler stack (.B true) s).bind fun (stack, s) => shift number handler stack rem s
    else if x = 0x2D then
      (reduce handler stack (.B false) s).bind fun (stack, s) => shift number handler stack rem s
    else if x = 0x3D then shift number handler (.V :: .T [] none :: stack) rem s
    else .error (.invalidTag x, s)
  | .F result :: stack, x :: rem, s =>
    match _ : scanNumber result (x :: rem) with
    | (result, none) => .ok (.F result :: stack, s)
    | (result, some rest) =>
      match Utf8.read? result with
      | none => .error (.nonUtf8Number, s)
      | some text =>
        match number.parse text with
        | none => .error (.invalidNumber, s)
        | some y =>
          (reduce handler stack (.F y) s).bind fun (stack, s) => shift number handler stack rest s
  | .S result escape :: stack, x :: rem, s =>
    match _ : scanString result escape (x :: rem) with
    | .more result escape => .ok (.S result escape :: stack, s)
    | .unknown y => .error (.unknownEscape y, s)
    | .done result rest =>
      (reduce handler stack (.S (Utf8.fromUtf8Lossy result)) s).bind fun (stack, s) =>
        shift number handler stack rest s
  | .T .. :: _, _ :: _, s => .error (.panicked, s)
  | [], _ :: _, s => .error (.panicked, s)
termination_by _ data => data.length
decreasing_by
  all_goals first
    | exact Nat.lt_succ_self _
    | exact scanNumber_length ‹_›
    | exact scanString_length ‹_›

/-- The chunks of `reader_main`, fed one after another up to the first error. -/
def shiftAll (number : NumberFormat ν) (handler : Value ν → σ → Except (ε × σ) σ) :
    List (State ν) → List (List UInt8) → σ → Result ν ε σ
  | stack, [], s => .ok (stack, s)
  | stack, data :: chunks, s =>
    (shift number handler stack data s).bind fun (stack, s) =>
      shiftAll number handler stack chunks s

/-! The tables that a handler gets are those of a `BTreeMap`, whatever a client sends. -/

/-- The handler keeps `I` when the values it gets are in order. -/
structure Respects (handler : Value ν → σ → Except (ε × σ) σ) (I : σ → Prop) : Prop where
  ok : ∀ v s s', v.Ordered → I s → handler v s = .ok s' → I s'
  error : ∀ v s e s', v.Ordered → I s → handler v s = .error (e, s') → I s'

def Keeps (I : σ → Prop) : Result ν ε σ → Prop
  | .ok (stack, s) => (∀ x ∈ stack, x.Ordered) ∧ I s
  | .error (_, s) => I s

section
variable {number : NumberFormat ν} {handler : Value ν → σ → Except (ε × σ) σ} {I : σ → Prop}

theorem Keeps.bind {r : Result ν ε σ} (h : Keeps I r) {f : List (State ν) × σ → Result ν ε σ}
    (hf : ∀ stack s, (∀ x ∈ stack, x.Ordered) → I s → Keeps I (f (stack, s))) :
    Keeps I (r.bind f) := by
  cases r with
  | error e => exact h
  | ok p => exact hf p.1 p.2 h.1 h.2

theorem reduce_keeps (hhandler : Respects handler I) {stack : List (State ν)} {v : Value ν} {s : σ}
    (hstack : ∀ x ∈ stack, x.Ordered) (hv : v.Ordered) (hs : I s) :
    Keeps I (reduce handler stack v s) := by
  induction stack generalizing v with
  | nil =>
    unfold reduce
    cases hrun : handler v s with
    | error e => exact hhandler.error v s e.1 e.2 hv hs hrun
    | ok s' => exact ⟨by simp [State.Ordered], hhandler.ok v s s' hv hs hrun⟩
  | cons top stack ih =>
    obtain ⟨htop, hrest⟩ := List.forall_mem_cons.mp hstack
    cases top with
    | V | F _ | S _ _ => exact hs
    | T result key =>
      have htop : (Value.T result).Ordered := htop
      cases key with
      | some key =>
        have hinsert := htop.insert key hv
        exact ⟨List.forall_mem_cons.mpr ⟨trivial, List.forall_mem_cons.mpr ⟨hinsert, hrest⟩⟩, hs⟩
      | none =>
        -- the value is a key, or ends the table
        cases v with
        | N => exact ih hrest htop
        | T _ => exact hs
        | F _ | S _ | B _ =>
          exact ⟨List.forall_mem_cons.mpr ⟨trivial, List.forall_mem_cons.mpr ⟨htop, hrest⟩⟩, hs⟩

theorem shift_keeps (hhandler : Respects handler I) (stack : List (State ν))
    (data : List UInt8) (s : σ)
    (hstack : ∀ x ∈ stack, x.Ordered) (hs : I s) : Keeps I (shift number handler stack data s) := by
  fun_induction shift number handler stack data s with
  | case1 stack s => exact ⟨hstack, hs⟩
  | case2 stack rem s ih | case5 stack rem s _ _ _ ih | case6 stack rem s _ _ _ _ ih =>
    refine (reduce_keeps hhandler (List.forall_mem_cons.mp hstack).2 ?_ hs).bind ih
    trivial
  | case3 stack rem s _ ih | case4 stack rem s _ _ ih =>
    exact ih (List.forall_mem_cons.mpr ⟨trivial, (List.forall_mem_cons.mp hstack).2⟩) hs
  | case7 stack rem s _ _ _ _ _ ih =>
    have hopen : ∀ x ∈ State.T [] none :: stack, x.Ordered :=
      List.forall_mem_cons.mpr ⟨Value.Ordered.nil, (List.forall_mem_cons.mp hstack).2⟩
    exact ih (List.forall_mem_cons.mpr ⟨trivial, hopen⟩) hs
  | case9 | case13 =>
    exact ⟨List.forall_mem_cons.mpr ⟨trivial, (List.forall_mem_cons.mp hstack).2⟩, hs⟩
  | case12 | case15 =>
    -- a number or a string is complete
    rename_i ih
    refine (reduce_keeps hhandler (List.forall_mem_cons.mp hstack).2 ?_ hs).bind ih
    trivial
  | case8 | case10 | case11 | case14 | case16 | case17 => exact hs

/-- Values are in order when they are handed over, whatever bytes they were read from. -/
theorem shiftAll_keeps (hhandler : Respects handler I) (stack : List (State ν))
    (chunks : List (List UInt8)) (s : σ)
    (hstack : ∀ x ∈ stack, x.Ordered) (hs : I s) :
    Keeps I (shiftAll number handler stack chunks s) := by
  induction chunks generalizing stack s with
  | nil => exact ⟨hstack, hs⟩
  | cons data chunks ih => exact (shift_keeps hhandler stack data s hstack hs).bind ih

end

end Parser
end OCRemote
