import OCRemote.Codec.Decode
import OCRemote.Lib.Reader

/-! The parser of the server and the decoder of the client as readers: what they hand over does not
depend on what is done with it. -/

namespace OCRemote
variable {ν ε : Type} [LinearOrder ν]

namespace Parser

theorem reduce_traced (stack : List (State ν)) (value : Value ν) :
    ∃ t : Trace (Value ν) (ParseError ν ε) (List (State ν)),
      ∀ {σ : Type} (handler : Value ν → σ → Except (ε × σ) σ) (s : σ),
        reduce handler stack value s = t.run .handlerError handler s := by
  induction stack generalizing value with
  | nil =>
    refine ⟨⟨[value], .ok [.V]⟩, fun handler s => ?_⟩
    cases hrun : handler value s <;> simp [Trace.run_singleton, reduce, hrun]
  | cons top stack ih =>
    cases top with
    | V | F _ | S _ _ => exact ⟨⟨[], .error .panicked⟩, fun _ _ => rfl⟩
    | T result key =>
      cases key with
      | some key => exact ⟨⟨[], .ok _⟩, fun _ _ => rfl⟩
      | none =>
        -- the value is a key, or ends the table
        cases value with
        | N => exact ih (.T result)
        | F x | S x | B x => exact ⟨⟨[], .ok _⟩, fun _ _ => rfl⟩
        | T x => exact ⟨⟨[], .error (.tableKey x)⟩, fun _ _ => rfl⟩

theorem shift_traced (number : NumberFormat ν) (stack : List (State ν)) (data : List UInt8) :
    ∃ t : Trace (Value ν) (ParseError ν ε) (List (State ν)),
      ∀ {σ : Type} (handler : Value ν → σ → Except (ε × σ) σ) (s : σ),
        shift number handler stack data s = t.run .handlerError handler s := by
  induction hn : data.length using Nat.strong_induction_on generalizing data stack with
  | _ n ih =>
    subst hn
    -- one call of `reduce` and then the rest, which is shorter
    have hrest (stack : List (State ν)) (value : Value ν) (rest : List UInt8)
        (hlt : rest.length < data.length) :
        ∃ t : Trace (Value ν) (ParseError ν ε) (List (State ν)),
          ∀ {σ : Type} (handler : Value ν → σ → Except (ε × σ) σ) (s : σ),
            ((reduce handler stack value s).bind fun p => shift number handler p.1 rest p.2) =
              t.run .handlerError handler s := by
      obtain ⟨t, ht⟩ := reduce_traced (ε := ε) stack value
      choose f hf using fun stack => ih rest.length hlt stack rest rfl
      refine ⟨t.bind f, fun handler s => ?_⟩
      rw [Trace.run_bind, ht]
      apply congrArg
      funext p
      exact hf p.1 handler p.2
    have hstop (result : Except (ParseError ν ε) (List (State ν))) :
        ∃ t : Trace (Value ν) (ParseError ν ε) (List (State ν)),
          ∀ {σ : Type} (handler : Value ν → σ → Except (ε × σ) σ) (s : σ),
            (match result with
              | .error e => .error (e, s)
              | .ok stack => .ok (stack, s)) = t.run .handlerError handler s := by
      refine ⟨⟨[], result⟩, fun handler s => ?_⟩
      cases result <;> rfl
    cases data with
    | nil => simpa using hstop (.ok stack)
    | cons x rem =>
      have hrem : rem.length < (x :: rem).length := Nat.lt_succ_self _
      cases stack with
      | nil => simpa [shift] using hstop (.error .panicked)
      | cons top stack =>
        cases top with
        | V =>
          simp only [shift]
          split_ifs
          · exact hrest stack .N rem hrem
          · exact ih _ hrem _ rem rfl
          · exact ih _ hrem _ rem rfl
          · exact hrest stack (.B true) rem hrem
          · exact hrest stack (.B false) rem hrem
          · exact ih _ hrem _ rem rfl
          · exact hstop (.error (.invalidTag x))
        | T result key => simpa [shift] using hstop (.error .panicked)
        | F result =>
          rcases hscan : scanNumber result (x :: rem) with ⟨r, _ | rest⟩
          · simpa only [shift_F_more hscan] using hstop (.ok (.F r :: stack))
          · simp only [shift_F_done hscan]
            cases Utf8.read? r with
            | none => exact hstop (.error .nonUtf8Number)
            | some text =>
              simp only
              cases number.parse text with
              | none => exact hstop (.error .invalidNumber)
              | some y => exact hrest stack (.F y) rest (scanNumber_length hscan)
        | S result escape =>
          simp only [shift_S]
          cases hscan : scanString result escape (x :: rem) with
          | more r e => exact hstop (.ok (.S r e :: stack))
          | unknown y => exact hstop (.error (.unknownEscape y))
          | done r rest => exact hrest stack _ rest (scanString_length hscan)

def reader (number : NumberFormat ν) (ε : Type) :
    Reader UInt8 (Value ν) ε (ParseError ν ε) (List (State ν)) where
  wrap := .handlerError
  feed := shift number
  feed_nil _ := shift_nil
  feed_append _ := shift_append
  traced := shift_traced number

/-- The code of a Lua value, in whatever order its tables are enumerated. -/
theorem reader_decodes (number : NumberFormat ν) :
    (reader number ε).Decodes new (LuaValue.encode number) LuaValue.lossy
      (LuaValue.Regular number) := by
  intro v hv
  have hencode := @shift_encode_lossy ν ε _ _ number Trace.collect v hv [] [] []
  rw [List.append_nil] at hencode
  change Trace.ofRun (shift number Trace.collect [.V] (LuaValue.encode number v) []) = _
  rw [hencode]
  simp [reduce, Trace.collect, Except.bind, Trace.ofRun, new]

end Parser

namespace Decode

theorem resume_traced (p : Sink ν) (x : LuaValue ν) :
    ∃ t : Trace (LuaValue ν) (Error ε) (Sink ν),
      ∀ {σ : Type} (cb : LuaValue ν → σ → Except (ε × σ) σ) (s : σ),
        resume cb p x s = t.run .cbError cb s := by
  induction p generalizing x with
  | cb =>
    refine ⟨⟨[x], .ok .cb⟩, fun cb s => ?_⟩
    cases hrun : cb x s <;> simp [Trace.run_singleton, resume, hrun]
  | sTable p data key ih =>
    cases key with
    | nil =>
      cases x with
      | nil => exact ih (.table data)
      | number x | string x | boolean x | table x => exact ⟨⟨[], .ok _⟩, fun _ _ => rfl⟩
    | number k | string k | boolean k | table k =>
      cases x <;> exact ⟨⟨[], .ok _⟩, fun _ _ => rfl⟩

theorem feed_sRoot {σ : Type} {number : NumberFormat ν} {cb : LuaValue ν → σ → Except (ε × σ) σ}
    (p : Sink ν) (tag : UInt8) (rem : List UInt8) (s : σ) :
    feed number cb (.sRoot p) (tag :: rem) s =
      if tag = 0x21 then (resume cb p .nil s).bind fun q => feed number cb (.sRoot q.1) rem q.2
      else if tag = 0x23 then feed number cb (.sNumber p []) rem s
      else if tag = 0x40 then feed number cb (.sString p [] false) rem s
      else if tag = 0x2B then
        (resume cb p (.boolean true) s).bind fun q => feed number cb (.sRoot q.1) rem q.2
      else if tag = 0x2D then
        (resume cb p (.boolean false) s).bind fun q => feed number cb (.sRoot q.1) rem q.2
      else if tag = 0x3D then feed number cb (.sRoot (.sTable p [] .nil)) rem s
      else .error (.invalidTag tag, s) := by
  rw [feed]

theorem feed_traced (number : NumberFormat ν) (r : Source ν) (x : List UInt8) :
    ∃ t : Trace (LuaValue ν) (Error ε) (Source ν),
      ∀ {σ : Type} (cb : LuaValue ν → σ → Except (ε × σ) σ) (s : σ),
        feed number cb r x s = t.run .cbError cb s := by
  induction hn : x.length using Nat.strong_induction_on generalizing x r with
  | _ n ih =>
    subst hn
    have hrest (p : Sink ν) (value : LuaValue ν) (rem : List UInt8) (hlt : rem.length < x.length) :
        ∃ t : Trace (LuaValue ν) (Error ε) (Source ν),
          ∀ {σ : Type} (cb : LuaValue ν → σ → Except (ε × σ) σ) (s : σ),
            ((resume cb p value s).bind fun q => feed number cb (.sRoot q.1) rem q.2) =
              t.run .cbError cb s := by
      obtain ⟨t, ht⟩ := resume_traced (ε := ε) p value
      choose f hf using fun p => ih rem.length hlt (.sRoot p) rem rfl
      refine ⟨t.bind f, fun cb s => ?_⟩
      rw [Trace.run_bind, ht]
      apply congrArg
      funext q
      exact hf q.1 cb q.2
    have hstop (result : Except (Error ε) (Source ν)) :
        ∃ t : Trace (LuaValue ν) (Error ε) (Source ν),
          ∀ {σ : Type} (cb : LuaValue ν → σ → Except (ε × σ) σ) (s : σ),
            (match result with
              | .error e => .error (e, s)
              | .ok r => .ok (r, s)) = t.run .cbError cb s := by
      refine ⟨⟨[], result⟩, fun cb s => ?_⟩
      cases result <;> rfl
    rcases r with p | ⟨p, data⟩ | ⟨p, data, escape⟩
    · cases x with
      | nil => simpa using hstop (.ok (.sRoot p))
      | cons tag rem =>
        have hrem : rem.length < (tag :: rem).length := Nat.lt_succ_self _
        simp only [feed_sRoot]
        split_ifs
        · exact hrest p .nil rem hrem
        · exact ih _ hrem _ rem rfl
        · exact ih _ hrem _ rem rfl
        · exact hrest p (.boolean true) rem hrem
        · exact hrest p (.boolean false) rem hrem
        · exact ih _ hrem _ rem rfl
        · exact hstop (.error (.invalidTag tag))
    · simp only [feed_sNumber]
      rcases hscan : Parser.scanNumber data x with ⟨data', _ | rem⟩
      · exact hstop (.ok (.sNumber p data'))
      · exact hrest p _ rem (Parser.scanNumber_length hscan)
    · simp only [feed_sString]
      cases hscan : Parser.scanString data escape x with
      | more data' escape' => exact hstop (.ok (.sString p data' escape'))
      | unknown now => exact hstop (.error (.unknownEscape now))
      | done data' rem => exact hrest p _ rem (Parser.scanString_length hscan)

def reader (number : NumberFormat ν) (ε : Type) :
    Reader UInt8 (LuaValue ν) ε (Error ε) (Source ν) where
  wrap := .cbError
  feed := feed number
  feed_nil _ := feed_nil
  feed_append _ := feed_append
  traced := feed_traced number

theorem reader_decodes (number : NumberFormat ν) :
    (reader number ε).Decodes new (Value.serialize number) LuaValue.ofValue
      fun v => v.Ordered ∧ Value.Sendable number v := by
  intro v hv
  have hfeed := @feed_serialize ν ε _ _ number Trace.collect v hv.1 hv.2 .cb [] []
  rw [List.append_nil] at hfeed
  change Trace.ofRun (feed number Trace.collect (.sRoot .cb) (Value.serialize number v) []) = _
  rw [hfeed]
  simp [resume, Trace.collect, Except.bind, Trace.ofRun, new]

end Decode
end OCRemote
