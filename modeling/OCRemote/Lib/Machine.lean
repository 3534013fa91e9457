import Mathlib.Data.List.Basic

/-! Labelled machines. A label is enabled in a state or it is not, and taking it is a
function, so a run is a list of labels and every nondeterministic choice is in its labels. -/

structure Machine (σ ε : Type*) where
  enabled : σ → ε → Prop
  next : σ → ε → σ

namespace Machine
variable {σ ε : Type*} (M : Machine σ ε)

def exec (s : σ) (es : List ε) : σ := es.foldl M.next s

def Valid : σ → List ε → Prop
  | _, [] => True
  | s, e :: es => M.enabled s e ∧ Valid (M.next s e) es

instance decidableValid [∀ s e, Decidable (M.enabled s e)] : ∀ s es, Decidable (M.Valid s es)
  | _, [] => .isTrue trivial
  | s, e :: es =>
    have := decidableValid (M.next s e) es
    inferInstanceAs (Decidable (M.enabled s e ∧ M.Valid (M.next s e) es))

/-- The runs of `M` in which every label is taken from a state that `P` allows it in. -/
def restrict (P : σ → ε → Prop) : Machine σ ε := ⟨fun s e => M.enabled s e ∧ P s e, M.next⟩

theorem exec_append (s : σ) (es es' : List ε) : M.exec s (es ++ es') = M.exec (M.exec s es) es' :=
  List.foldl_append

/-- An invariant of one step is an invariant of every run. -/
theorem invariant {I : σ → Prop} (hstep : ∀ s e, I s → M.enabled s e → I (M.next s e))
    {s : σ} (h0 : I s) {es : List ε} (hv : M.Valid s es) : I (M.exec s es) := by
  induction es generalizing s with
  | nil => exact h0
  | cons e es ih =>
    obtain ⟨he, hes⟩ := hv
    exact ih (hstep s e h0 he) hes

/-- A relation that a step keeps, while `f` follows the labels, is kept by every run. -/
theorem related {τ : Type*} {f : τ → ε → τ} {R : σ → τ → Prop}
    (hstep : ∀ s t e, R s t → M.enabled s e → R (M.next s e) (f t e)) {s : σ} {t : τ} (h0 : R s t)
    {es : List ε} (hv : M.Valid s es) : R (M.exec s es) (es.foldl f t) := by
  induction es generalizing s t with
  | nil => exact h0
  | cons e es ih =>
    obtain ⟨he, hes⟩ := hv
    exact ih (hstep s t e h0 he) hes

/-- The rule for runs whose labels are all allowed by `P`. -/
theorem invariant_restrict {P : σ → ε → Prop} {I : σ → Prop}
    (hstep : ∀ s e, I s → M.enabled s e → P s e → I (M.next s e))
    {s : σ} (h0 : I s) {es : List ε} (hv : (M.restrict P).Valid s es) : I (M.exec s es) :=
  (M.restrict P).invariant (fun s e hI he => hstep s e hI he.1 he.2) h0 hv

theorem valid_append {s : σ} {es es' : List ε} :
    M.Valid s (es ++ es') ↔ M.Valid s es ∧ M.Valid (M.exec s es) es' := by
  induction es generalizing s with
  | nil => exact ⟨fun h => ⟨trivial, h⟩, And.right⟩
  | cons e es ih => exact (and_congr_right fun _ => ih).trans and_assoc.symm

theorem valid_of_restrict {P : σ → ε → Prop} {s : σ} {es : List ε} (hv : (M.restrict P).Valid s es) :
    M.Valid s es := by
  induction es generalizing s with
  | nil => trivial
  | cons e es ih => exact ⟨hv.1.1, ih hv.2⟩

/-- Some run from `s` leads to a state with `Q`. -/
def CanReach (s : σ) (Q : σ → Prop) : Prop := ∃ es, M.Valid s es ∧ Q (M.exec s es)

section
variable {M} {s : σ} {Q Q' : σ → Prop}

theorem CanReach.here (h : Q s) : M.CanReach s Q := ⟨[], trivial, h⟩

theorem CanReach.step (e : ε) (he : M.enabled s e) (h : M.CanReach (M.next s e) Q) :
    M.CanReach s Q := by
  obtain ⟨es, hv, hQ⟩ := h
  exact ⟨e :: es, ⟨he, hv⟩, hQ⟩

theorem CanReach.bind (h : M.CanReach s Q) (hQ : ∀ s', Q s' → M.CanReach s' Q') :
    M.CanReach s Q' := by
  obtain ⟨es, hv, hs⟩ := h
  obtain ⟨es', hv', hs'⟩ := hQ _ hs
  refine ⟨es ++ es', M.valid_append.mpr ⟨hv, hv'⟩, ?_⟩
  rwa [M.exec_append]

/-- Where the run may also end early. -/
theorem CanReach.bind_or {E : σ → Prop} (h : M.CanReach s fun s => E s ∨ Q s)
    (hQ : ∀ s', Q s' → M.CanReach s' fun s => E s ∨ Q' s) : M.CanReach s fun s => E s ∨ Q' s :=
  h.bind fun s' hs' => hs'.elim (fun hE => .here (.inl hE)) (hQ s')

end

/-- What `f` sees of a step of `M`, in the states that `I` describes, is a run of `N` that `R` allows
for the label. -/
def Refines {τ ε' : Type*} (N : Machine τ ε') (f : σ → τ) (I : σ → Prop)
    (R : ε → List ε' → Prop) : Prop :=
  ∀ s e, I s → M.enabled s e → ∃ es, R e es ∧ N.Valid (f s) es ∧ f (M.next s e) = N.exec (f s) es

/-- What is seen of a run is a run. -/
theorem Refines.run {τ ε' : Type*} {N : Machine τ ε'} {f : σ → τ} {I : σ → Prop}
    {R : ε → List ε' → Prop} (h : M.Refines N f I R)
    (hstep : ∀ s e, I s → M.enabled s e → I (M.next s e)) {s : σ} (h0 : I s) {es : List ε}
    (hv : M.Valid s es) :
    ∃ ess, List.Forall₂ R es ess ∧ N.Valid (f s) ess.flatten ∧
      f (M.exec s es) = N.exec (f s) ess.flatten := by
  induction es generalizing s with
  | nil => exact ⟨[], .nil, trivial, rfl⟩
  | cons e es ih =>
    obtain ⟨he, hes⟩ := hv
    obtain ⟨es₁, hR, hv₁, hrun₁⟩ := h s e h0 he
    obtain ⟨ess, hRs, hv₂, hrun₂⟩ := ih (hstep s e h0 he) hes
    rw [hrun₁] at hv₂ hrun₂
    refine ⟨es₁ :: ess, .cons hR hRs, N.valid_append.mpr ⟨hv₁, hv₂⟩, ?_⟩
    exact hrun₂.trans (N.exec_append ..).symm

end Machine
