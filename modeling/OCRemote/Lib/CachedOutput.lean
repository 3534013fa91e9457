import Mathlib.Data.List.Induction
import OCRemote.Lib.Machine

/-! A device whose output is set by requests, and a cache of the value that it was last known to
have. A cycle that wants the value in the cache makes no request. -/

namespace CachedOutput

structure State (V : Type*) where
  cache : Option V
  device : V
  deriving DecidableEq

/-- How a request ends: answered, without having been executed, or executed with its answer lost. -/
inductive Outcome where
  | acknowledged
  | failed
  | lost
  deriving DecidableEq

/-- What a cycle wants of the device. It may find out only by other requests, which may fail. -/
inductive Want (V : Type*) where
  | unknown
  | anything
  | value (v : V)
  deriving DecidableEq

section
variable {V : Type*}

/-- A request for a value, and whether the cycle ends well. -/
def request (s : State V) (value : V) : Outcome → State V × Bool
  | .acknowledged => (⟨some value, value⟩, true)
  | .failed => (s, false)
  | .lost => (⟨s.cache, value⟩, false)

variable [DecidableEq V]

def cycle (s : State V) (want : Want V) (outcome : Outcome) : State V × Bool :=
  match want with
  | .unknown => (s, false)
  | .anything => (s, true)
  | .value v => if s.cache = some v then (s, true) else request s v outcome

/-- The device has the value in the cache. -/
def Coherent (s : State V) : Prop := ∀ v, s.cache = some v → s.device = v

/-- A cycle that ends well leaves the device with the value that it wants. -/
def Faithful (s : State V) (want : Want V) (outcome : Outcome) : Prop :=
  ∀ v, want = .value v → (cycle s want outcome).2 = true → (cycle s want outcome).1.device = v

/-- No answer is lost to a request that changes a value in the cache. -/
def Answered (s : State V) (want : Want V) (outcome : Outcome) : Prop :=
  ∀ v, want = .value v → ∀ old, s.cache = some old → old ≠ v → outcome ≠ .lost

omit [DecidableEq V] in
theorem coherent_of_empty (device : V) : Coherent ⟨none, device⟩ := by
  intro v h
  cases h

theorem Coherent.faithful {s : State V} (h : Coherent s) (want : Want V) (outcome : Outcome) :
    Faithful s want outcome := by
  rintro v rfl hok
  unfold cycle at hok ⊢
  simp only at hok ⊢
  split_ifs at hok ⊢ with hcache
  · exact h v hcache
  · cases outcome with
    | acknowledged => rfl
    | failed => cases hok
    | lost => cases hok

/-- A cycle keeps this exactly if no answer is lost while the cache holds another value. -/
theorem Coherent.cycle_iff {s : State V} (h : Coherent s) (want : Want V) (outcome : Outcome) :
    Coherent (cycle s want outcome).1 ↔ Answered s want outcome := by
  unfold Answered cycle
  cases want with
  | unknown => simpa using h
  | anything => simpa using h
  | value v =>
    simp only [Want.value.injEq, forall_eq']
    split_ifs with hcache
    · refine iff_of_true h fun old hold hne => ?_
      exact absurd (Option.some.inj (hold.symm.trans hcache)) hne
    · cases outcome with
      | acknowledged =>
        refine iff_of_true ?_ (by simp)
        exact fun w hw => Option.some.inj hw
      | failed => exact iff_of_true h (by simp)
      | lost =>
        simp only [request, ne_eq, not_true_eq_false, imp_false, not_not, Coherent]
        exact forall₂_congr fun old hold => eq_comm

omit [DecidableEq V] in
theorem request_cache (s : State V) (v : V) (outcome : Outcome) :
    (request s v outcome).1.cache = s.cache ∨ (request s v outcome).1.cache = some v := by
  cases outcome with
  | acknowledged => exact .inr rfl
  | failed => exact .inl rfl
  | lost => exact .inl rfl

/-- A value that comes into the cache was wanted. -/
theorem cycle_cache (s : State V) (want : Want V) (outcome : Outcome) :
    (cycle s want outcome).1.cache = s.cache ∨
      ∃ v, want = .value v ∧ (cycle s want outcome).1.cache = some v := by
  unfold cycle
  cases want with
  | unknown => exact .inl rfl
  | anything => exact .inl rfl
  | value v =>
    simp only
    split_ifs
    · exact .inl rfl
    · rcases request_cache s v outcome with hsame | hnew
      · exact .inl hsame
      · exact .inr ⟨v, rfl, hnew⟩

/-! Cycles of a process that decides what it wants from what each cycle brings. -/

variable {L : Type*} (run : State V → L → State V × Bool) (want : L → Want V) (outcome : L → Outcome)

def machine : Machine (State V) L := ⟨fun _ _ => True, fun s c => (run s c).1⟩

/-- The cycle that comes after some others. -/
def after (device : V) (cs : List L) : State V := (machine run).exec ⟨none, device⟩ cs

/-- Whatever cycle comes next, if it ends well then the device has the value that it wants. -/
def NeverStale (device : V) (cs : List L) : Prop :=
  ∀ c v, want c = .value v → (run (after run device cs) c).2 = true →
    (run (after run device cs) c).1.device = v

/-- No answer is lost while the cache holds another value, in any of the cycles. -/
def AllAnswered (device : V) (cs : List L) : Prop :=
  ((machine run).restrict fun s c => Answered s (want c) (outcome c)).Valid ⟨none, device⟩ cs

variable {run want outcome}

theorem AllAnswered.coherent (hrun : ∀ s c, run s c = cycle s (want c) (outcome c)) {device : V}
    {cs : List L} (h : AllAnswered run want outcome device cs) : Coherent (after run device cs) := by
  refine (machine run).invariant_restrict (fun s c hs _ hc => ?_) (coherent_of_empty device) h
  have hnext : (machine run).next s c = (cycle s (want c) (outcome c)).1 := congrArg Prod.fst (hrun s c)
  rw [hnext]
  exact (hs.cycle_iff (want c) (outcome c)).mpr hc

theorem after_append (hrun : ∀ s c, run s c = cycle s (want c) (outcome c)) (device : V) (cs : List L)
    (c : L) : after run device (cs ++ [c]) =
      (cycle (after run device cs) (want c) (outcome c)).1 := by
  rw [after, Machine.exec_append]
  exact congrArg Prod.fst (hrun _ c)

theorem exists_want_of_cache (hrun : ∀ s c, run s c = cycle s (want c) (outcome c)) {device : V}
    {cs : List L} {v : V} (h : (after run device cs).cache = some v) :
    ∃ c ∈ cs, want c = .value v := by
  induction cs using List.reverseRecOn with
  | nil => cases h
  | append_singleton cs c ih =>
    rw [after_append hrun] at h
    rcases cycle_cache (after run device cs) (want c) (outcome c) with hsame | ⟨w, hwant, hnew⟩
    · obtain ⟨c', hc', hwant⟩ := ih (hsame ▸ h)
      exact ⟨c', List.mem_append_left _ hc', hwant⟩
    · obtain rfl := Option.some.inj (hnew.symm.trans h)
      exact ⟨c, by simp, hwant⟩

/-- After such a run nothing is stale, and the next cycle keeps it so exactly if it loses no answer
while the cache holds another value. -/
theorem AllAnswered.neverStale (hrun : ∀ s c, run s c = cycle s (want c) (outcome c)) {device : V}
    {cs : List L} (h : AllAnswered run want outcome device cs) :
    NeverStale run want device cs ∧
      ∀ c, NeverStale run want device (cs ++ [c]) ↔
        Answered (after run device cs) (want c) (outcome c) := by
  have hfresh {cs : List L} (hcoherent : Coherent (after run device cs)) :
      NeverStale run want device cs := by
    intro c v hwant hok
    rw [hrun] at hok ⊢
    exact hcoherent.faithful (want c) (outcome c) v hwant hok
  refine ⟨hfresh (h.coherent hrun), fun c => ?_⟩
  rw [← (h.coherent hrun).cycle_iff, ← after_append hrun]
  refine ⟨fun hall v hcache => ?_, hfresh⟩
  -- the value in the cache was wanted before, and may be wanted again
  obtain ⟨c', -, hwant⟩ := exists_want_of_cache hrun hcache
  have hright := hall c' v hwant
  rw [hrun, hwant] at hright
  simpa [cycle, hcache] using hright

end
end CachedOutput
