import Mathlib.Data.List.Basic

/-! Readers of a stream that may stop after any piece of it and go on with the next. A reader hands
messages to a handler, which may refuse one. -/

/-- What a piece of the stream makes a reader hand over, and how the reader ends. -/
@[ext] structure Trace (μ E R : Type) where
  messages : List μ
  result : Except E R

namespace Trace
variable {μ ε E R R' σ : Type}

/-- The messages are handled one after another, up to the first that is refused. -/
def run (wrap : ε → E) (handler : μ → σ → Except (ε × σ) σ) (t : Trace μ E R) (s : σ) :
    Except (E × σ) (R × σ) :=
  match t.messages.foldlM (fun s m => handler m s) s with
  | .error (e, s) => .error (wrap e, s)
  | .ok s =>
    match t.result with
    | .error e => .error (e, s)
    | .ok r => .ok (r, s)

def bind (t : Trace μ E R) (f : R → Trace μ E R') : Trace μ E R' :=
  match t.result with
  | .error e => ⟨t.messages, .error e⟩
  | .ok r => ⟨t.messages ++ (f r).messages, (f r).result⟩

@[simp] theorem bind_ok (ms : List μ) (r : R) (f : R → Trace μ E R') :
    (⟨ms, .ok r⟩ : Trace μ E R).bind f = ⟨ms ++ (f r).messages, (f r).result⟩ := rfl

@[simp] theorem bind_error (ms : List μ) (e : E) (f : R → Trace μ E R') :
    (⟨ms, .error e⟩ : Trace μ E R).bind f = ⟨ms, .error e⟩ := rfl

theorem foldlM_append (handler : μ → σ → Except (ε × σ) σ) (ms ms' : List μ) (s : σ) :
    (ms ++ ms').foldlM (fun s m => handler m s) s =
      (ms.foldlM (fun s m => handler m s) s).bind
        fun s => ms'.foldlM (fun s m => handler m s) s := List.foldlM_append

theorem run_singleton (wrap : ε → E) (handler : μ → σ → Except (ε × σ) σ) (m : μ) (r : R) (s : σ) :
    (⟨[m], .ok r⟩ : Trace μ E R).run wrap handler s =
      match handler m s with
      | .error (e, s) => .error (wrap e, s)
      | .ok s => .ok (r, s) := by
  simp only [run, List.foldlM_cons, List.foldlM_nil, bind_pure]

/-- Handling what two pieces hand over is handling the one after the other. -/
theorem run_bind (wrap : ε → E) (handler : μ → σ → Except (ε × σ) σ) (t : Trace μ E R)
    (f : R → Trace μ E R') (s : σ) :
    (t.bind f).run wrap handler s =
      (t.run wrap handler s).bind fun p => (f p.1).run wrap handler p.2 := by
  obtain ⟨ms, e | r⟩ := t
  · simp only [bind, run]
    cases ms.foldlM (fun s m => handler m s) s <;> rfl
  · simp only [bind, run, foldlM_append]
    cases ms.foldlM (fun s m => handler m s) s <;> rfl

/-- The handler that remembers every message. -/
def collect (m : μ) (seen : List μ) : Except (ε × List μ) (List μ) := .ok (seen ++ [m])

def ofRun : Except (E × List μ) (R × List μ) → Trace μ E R
  | .error (e, seen) => ⟨seen, .error e⟩
  | .ok (r, seen) => ⟨seen, .ok r⟩

theorem foldlM_collect (ms seen : List μ) :
    ms.foldlM (fun seen m => (collect m seen : Except (ε × List μ) (List μ))) seen =
      .ok (seen ++ ms) := by
  induction ms generalizing seen with
  | nil => simp [pure, Except.pure]
  | cons m ms ih =>
    rw [List.foldlM_cons, collect]
    exact (ih _).trans (by rw [List.append_assoc, List.singleton_append])

/-- A run that remembers everything is the trace. -/
theorem ofRun_run_collect (wrap : ε → E) (t : Trace μ E R) : ofRun (t.run wrap collect []) = t := by
  obtain ⟨ms, e | r⟩ := t <;> simp [run, foldlM_collect, ofRun]

end Trace

/-- A reader that goes on where it stopped and does nothing else with its handler than to hand it
messages. -/
structure Reader (β μ ε E R : Type) where
  wrap : ε → E
  feed : ∀ {σ : Type}, (μ → σ → Except (ε × σ) σ) → R → List β → σ → Except (E × σ) (R × σ)
  feed_nil : ∀ {σ : Type} (handler : μ → σ → Except (ε × σ) σ) (r : R) (s : σ),
    feed handler r [] s = .ok (r, s)
  feed_append : ∀ {σ : Type} (handler : μ → σ → Except (ε × σ) σ) (r : R) (xs ys : List β) (s : σ),
    feed handler r (xs ++ ys) s = (feed handler r xs s).bind fun p => feed handler p.1 ys p.2
  traced : ∀ (r : R) (xs : List β), ∃ t : Trace μ E R,
    ∀ {σ : Type} (handler : μ → σ → Except (ε × σ) σ) (s : σ),
      feed handler r xs s = t.run wrap handler s

namespace Reader
variable {β μ ε E R : Type} (A : Reader β μ ε E R)

def trace (r : R) (xs : List β) : Trace μ E R := .ofRun (A.feed Trace.collect r xs [])

theorem feed_eq_run {σ : Type} (handler : μ → σ → Except (ε × σ) σ) (r : R) (xs : List β) (s : σ) :
    A.feed handler r xs s = (A.trace r xs).run A.wrap handler s := by
  obtain ⟨t, ht⟩ := A.traced r xs
  rw [trace, ht Trace.collect, Trace.ofRun_run_collect, ht]

theorem trace_nil (r : R) : A.trace r [] = ⟨[], .ok r⟩ := by
  rw [trace, A.feed_nil, Trace.ofRun]

theorem trace_append (r : R) (xs ys : List β) :
    A.trace r (xs ++ ys) = (A.trace r xs).bind fun r => A.trace r ys := by
  have hrun : (A.feed Trace.collect r xs []).bind (fun p => A.feed Trace.collect p.1 ys p.2) =
      ((A.trace r xs).bind fun r => A.trace r ys).run A.wrap Trace.collect [] := by
    rw [Trace.run_bind, ← A.feed_eq_run]
    apply congrArg
    funext p
    exact A.feed_eq_run ..
  rw [trace, A.feed_append, hrun, Trace.ofRun_run_collect]

variable {A}

/-- A stream that is read to its end is read up to any point of it: the messages so far are the
first ones of the stream, and the rest of the stream gives the others. -/
theorem trace_cut {r r' : R} {xs ys : List β} {ms : List μ}
    (h : A.trace r (xs ++ ys) = ⟨ms, .ok r'⟩) :
    ∃ ms₁ ms₂ r₁, ms = ms₁ ++ ms₂ ∧ A.trace r xs = ⟨ms₁, .ok r₁⟩ ∧
      A.trace r₁ ys = ⟨ms₂, .ok r'⟩ := by
  rw [trace_append] at h
  rcases hxs : A.trace r xs with ⟨ms₁, e | r₁⟩
  · simp [hxs] at h
  · rw [hxs] at h
    simp only [Trace.bind_ok, Trace.mk.injEq] at h
    obtain ⟨hms, hr⟩ := h
    exact ⟨ms₁, _, r₁, hms.symm, rfl, by rw [← hr]⟩

/-- The code of one message brings the reader back to where it was. -/
def Decodes (A : Reader β μ ε E R) (start : R) {α : Type} (encode : α → List β) (decode : α → μ)
    (P : α → Prop) : Prop := ∀ a, P a → A.trace start (encode a) = ⟨[decode a], .ok start⟩

section
variable {start : R} {α : Type} {encode : α → List β} {decode : α → μ} {P : α → Prop}

theorem Decodes.stream (h : A.Decodes start encode decode P) {as : List α} (has : ∀ a ∈ as, P a) :
    A.trace start (as.flatMap encode) = ⟨as.map decode, .ok start⟩ := by
  induction as with
  | nil => exact A.trace_nil start
  | cons a as ih =>
    obtain ⟨ha, has⟩ := List.forall_mem_cons.mp has
    rw [List.flatMap_cons, trace_append, h a ha, Trace.bind_ok, ih has]
    rfl

/-- The rest of a stream, and what the reader made of the part before it. -/
def Behind (A : Reader β μ ε E R) (start : R) (sent : List β) (rest : List β) (seen : List μ)
    (r : R) : Prop := ∃ consumed, consumed ++ rest = sent ∧ A.trace start consumed = ⟨seen, .ok r⟩

theorem behind_start : A.Behind start [] [] [] start := ⟨[], rfl, A.trace_nil start⟩

/-- More is sent. -/
theorem Behind.send {sent rest : List β} {seen : List μ} {r : R} (h : A.Behind start sent rest seen r)
    (more : List β) : A.Behind start (sent ++ more) (rest ++ more) seen r := by
  obtain ⟨consumed, hsent, htrace⟩ := h
  exact ⟨consumed, by rw [← hsent, List.append_assoc], htrace⟩

/-- What is seen of a stream of codes is a first part of its messages. -/
theorem Behind.prefix_seen (h : A.Decodes start encode decode P) {as : List α} (has : ∀ a ∈ as, P a)
    {rest : List β} {seen : List μ} {r : R}
    (hbehind : A.Behind start (as.flatMap encode) rest seen r) : seen <+: as.map decode := by
  obtain ⟨consumed, hsent, htrace⟩ := hbehind
  have hstream := h.stream has
  rw [← hsent] at hstream
  obtain ⟨ms₁, ms₂, r₁, hms, hread, -⟩ := trace_cut hstream
  rw [htrace] at hread
  obtain rfl : seen = ms₁ := congrArg Trace.messages hread
  exact ⟨ms₂, hms.symm⟩

/-- When nothing is left of a stream of codes, all of its messages were seen. -/
theorem Behind.seen_all (h : A.Decodes start encode decode P) {as : List α} (has : ∀ a ∈ as, P a)
    {seen : List μ} {r : R} (hbehind : A.Behind start (as.flatMap encode) [] seen r) :
    seen = as.map decode := by
  obtain ⟨consumed, hsent, htrace⟩ := hbehind
  rw [List.append_nil] at hsent
  rw [hsent, h.stream has] at htrace
  exact (congrArg Trace.messages htrace).symm

/-- Any piece of what is left of a stream of codes is read, and gives its next messages. -/
theorem Behind.read (h : A.Decodes start encode decode P) {as : List α} (has : ∀ a ∈ as, P a)
    {piece rest : List β} {seen : List μ} {r : R}
    (hbehind : A.Behind start (as.flatMap encode) (piece ++ rest) seen r) :
    ∃ new r', A.trace r piece = ⟨new, .ok r'⟩ ∧
      A.Behind start (as.flatMap encode) rest (seen ++ new) r' := by
  obtain ⟨consumed, hsent, htrace⟩ := hbehind
  have hstream := h.stream has
  rw [← hsent, trace_append, htrace, Trace.bind_ok] at hstream
  -- the rest of the stream is read to its end
  have hresult : (A.trace r (piece ++ rest)).result = .ok start := congrArg Trace.result hstream
  have hrest : A.trace r (piece ++ rest) = ⟨(A.trace r (piece ++ rest)).messages, .ok start⟩ :=
    Trace.ext rfl hresult
  obtain ⟨new, -, r', -, hpiece, -⟩ := trace_cut hrest
  refine ⟨new, r', hpiece, consumed ++ piece, by rw [List.append_assoc, hsent], ?_⟩
  rw [trace_append, htrace, Trace.bind_ok, hpiece]

end
end Reader
