import OCRemote.Lib.FirstBest
import OCRemote.Lib.Machine

/-! `PlasticMixerProcess`. A cycle that makes a request does not wait for it: the task that it leaves
stores the choice, whatever becomes of the request. A cycle ends when its task has. -/

namespace OCRemote
namespace PlasticMixer

def colors : List String :=
  ["Black", "Red", "Green", "Brown", "Blue", "Purple", "Cyan", "Light Gray", "Gray", "Pink", "Lime",
    "Yellow", "Light Blue", "Magenta", "Orange", "White"]

/-- The color of which there is least, the first of them, with how much there is. -/
def scarcest (stock : String → ℤ) : Option (ℕ × ℤ) :=
  FirstBest.firstBest (fun color => some (stock color)) (fun n least => n < least) colors

/-- There is always a color, so that `unwrap` does not fail. -/
def choice (nWanted : ℤ) (stock : String → ℤ) : ℕ :=
  match scarcest stock with
  | none => 0
  | some (i, nStored) => if nStored < nWanted then i + 1 else 0

inductive Status where
  | pending
  | acknowledged
  | failed
  deriving DecidableEq

/-- The process, the task of its current cycle, all requests for a choice so far, the setting of the
mixer and the choice that it acknowledged last. -/
structure World where
  prevChoice : Option ℕ
  task : Option ℕ
  requests : List (ℕ × Status)
  setting : ℕ
  lastAcknowledged : Option ℕ
  deriving DecidableEq

inductive Event where
  /-- `run`. Without a connection the request fails at once. -/
  | run (stock : String → ℤ) (connected : Bool)
  | completeTask
  | acknowledge (k : ℕ)
  | fail (k : ℕ)

def enabled (w : World) : Event → Prop
  | .run _ _ => w.task = none
  | .completeTask => w.task ≠ none
  | .acknowledge k => ∃ choice, w.requests[k]? = some (choice, .pending)
  | .fail k => ∃ choice, w.requests[k]? = some (choice, .pending)

/-- `enqueue_request_group`. -/
def enqueue (connected : Bool) : Status := if connected then .pending else .failed

def run (nWanted : ℤ) (w : World) (stock : String → ℤ) (connected : Bool) : World :=
  let choice := choice nWanted stock
  if some choice = w.prevChoice then w
  else
    { w with
      requests := w.requests ++ [(choice, enqueue connected)]
      task := some choice }

/-- The client does what is asked for, and its answer arrives. -/
def acknowledge (w : World) (k : ℕ) : World :=
  match w.requests[k]? with
  | none => w
  | some (choice, _) =>
    { w with
      requests := w.requests.set k (choice, .acknowledged)
      setting := choice
      lastAcknowledged := some choice }

def fail (w : World) (k : ℕ) : World :=
  match w.requests[k]? with
  | none => w
  | some (choice, _) => { w with requests := w.requests.set k (choice, .failed) }

def next (nWanted : ℤ) (w : World) : Event → World
  | .run stock connected => run nWanted w stock connected
  | .completeTask =>
    { w with
      prevChoice := w.task
      task := none }
  | .acknowledge k => acknowledge w k
  | .fail k => fail w k

def machine (nWanted : ℤ) : Machine World Event := ⟨enabled, next nWanted⟩

/-- A mixer with some setting, and a process that has done nothing. -/
def start (setting : ℕ) : World := ⟨none, none, [], setting, none⟩

/-- The latest request is acknowledged. -/
def Settled (w : World) : Prop := ∀ r, w.requests.getLast? = some r → r.2 = .acknowledged

/-- Cycles start with the latest request acknowledged. -/
def Patient (w : World) : Event → Prop
  | .run _ _ => Settled w
  | _ => True

/-- What should hold when a cycle starts. -/
structure Right (nWanted : ℤ) (w : World) : Prop where
  cached : ∀ choice, w.prevChoice = some choice → w.lastAcknowledged = some choice
  retried : ∀ stock connected, choice nWanted stock ≠ w.setting →
    ∃ status, (run nWanted w stock connected).requests =
      w.requests ++ [(choice nWanted stock, status)]

/-! Runs. -/

structure Inv (w : World) : Prop where
  setting : ∀ choice, w.lastAcknowledged = some choice → w.setting = choice
  /-- Only the latest request is not acknowledged. -/
  older : ∀ k r, w.requests[k]? = some r → k + 1 < w.requests.length → r.2 = .acknowledged
  latest : ∀ choice status, w.requests.getLast? = some (choice, status) →
    (w.lastAcknowledged = some choice ↔ status = .acknowledged)
  fresh : w.requests = [] → w.lastAcknowledged = none
  idle : w.task = none → w.prevChoice = w.requests.getLast?.map Prod.fst
  busy : ∀ choice, w.task = some choice → w.requests.getLast?.map Prod.fst = some choice

theorem inv_start (setting : ℕ) : Inv (start setting) := by
  constructor <;> simp [start]

theorem Inv.run {nWanted : ℤ} {w : World} (h : Inv w) (htask : w.task = none) (hsettled : Settled w)
    (stock : String → ℤ) (connected : Bool) : Inv (run nWanted w stock connected) := by
  unfold PlasticMixer.run
  simp only
  split_ifs with hsame
  · exact h
  · have hprev := h.idle htask
    refine ⟨h.setting, fun k r hk hlt => ?_, fun c status hlast => ?_, by simp, by simp, by simp⟩
    · simp only [List.length_append, List.length_singleton] at hlt
      rw [List.getElem?_append_left (by omega)] at hk
      by_cases hlater : k + 1 < w.requests.length
      · exact h.older k r hk hlater
      · refine hsettled r ?_
        rw [List.getLast?_eq_getElem?, ← hk]
        congr 1
        omega
    · obtain ⟨rfl, rfl⟩ : choice nWanted stock = c ∧ enqueue connected = status := by
        simpa using hlast
      have hissued : enqueue connected ≠ .acknowledged := by cases connected <;> decide
      refine iff_of_false (fun hknown => hsame ?_) hissued
      -- the mixer was told this choice before, so it is the previous one
      rw [hprev]
      cases hold : w.requests.getLast? with
      | none =>
        have hnone := h.fresh (List.getLast?_eq_none_iff.mp hold)
        rw [hnone] at hknown
        cases hknown
      | some r =>
        have hr : w.lastAcknowledged = some r.1 :=
          (h.latest r.1 r.2 hold).mpr (hsettled r hold)
        rw [Option.map_some, ← hr, hknown]

/-- A pending request is the latest one. -/
theorem Inv.latest_of_pending {w : World} (h : Inv w) {k choice : ℕ}
    (hk : w.requests[k]? = some (choice, .pending)) : k + 1 = w.requests.length := by
  by_contra hne
  have hlt := (List.getElem?_eq_some_iff.mp hk).1
  have hold := h.older k _ hk (by omega)
  cases hold

theorem getLast?_set {l : List (ℕ × Status)} {k : ℕ} (h : k + 1 = l.length) (r : ℕ × Status) :
    (l.set k r).getLast? = some r := by
  rw [List.getLast?_eq_getElem?, List.length_set, ← h, Nat.add_sub_cancel,
    List.getElem?_set_self (by omega)]

/-- A request that has ended was the latest one, and still is. -/
theorem Inv.resolve {w : World} (h : Inv w) {k choice : ℕ}
    (hk : w.requests[k]? = some (choice, .pending)) {status : Status} {setting : ℕ}
    {lastAcknowledged : Option ℕ}
    (hsetting : ∀ c, lastAcknowledged = some c → setting = c)
    (hlatest : lastAcknowledged = some choice ↔ status = .acknowledged) :
    Inv ⟨w.prevChoice, w.task, w.requests.set k (choice, status), setting, lastAcknowledged⟩ := by
  have hlast := h.latest_of_pending hk
  have hchoice : w.requests.getLast?.map Prod.fst = some choice := by
    rw [List.getLast?_eq_getElem?, ← hlast, Nat.add_sub_cancel, hk, Option.map_some]
  have hnew := getLast?_set hlast (choice, status)
  refine ⟨hsetting, fun j r hj hlt => ?_, fun c status' hr => ?_, fun hnil => ?_, fun htask => ?_,
    fun c htask => ?_⟩
  · simp only [List.length_set] at hlt
    simp only [List.getElem?_set_ne (show k ≠ j by omega)] at hj
    exact h.older j r hj hlt
  · obtain ⟨rfl, rfl⟩ : choice = c ∧ status = status' := by simpa [hnew] using hr
    exact hlatest
  · rw [List.set_eq_nil_iff] at hnil
    simp [hnil] at hlast
  · rw [hnew, Option.map_some, ← hchoice]
    exact h.idle htask
  · rw [hnew, Option.map_some, ← hchoice]
    exact h.busy c htask

theorem Inv.next {nWanted : ℤ} {w : World} (h : Inv w) {e : Event} (he : enabled w e)
    (hpatient : Patient w e) : Inv (next nWanted w e) := by
  cases e with
  | run stock connected => exact h.run he hpatient stock connected
  | completeTask =>
    obtain ⟨choice, htask⟩ := Option.ne_none_iff_exists'.mp he
    refine ⟨h.setting, h.older, h.latest, h.fresh, fun _ => ?_, by simp [PlasticMixer.next]⟩
    simp only [PlasticMixer.next, htask]
    exact (h.busy choice htask).symm
  | acknowledge k =>
    obtain ⟨choice, hk⟩ := he
    simp only [PlasticMixer.next, acknowledge, hk]
    exact h.resolve hk (fun c hc => Option.some.inj hc) (by simp)
  | fail k =>
    obtain ⟨choice, hk⟩ := he
    have hlast := h.latest_of_pending hk
    have hpending := (h.latest choice .pending (by
      rw [List.getLast?_eq_getElem?, ← hlast, Nat.add_sub_cancel, hk])).not.mpr (by decide)
    simp only [PlasticMixer.next, fail, hk]
    exact h.resolve hk h.setting (iff_of_false hpending (by decide))

/-- At the start of a cycle all is right exactly if the latest request is acknowledged. -/
theorem Inv.right_iff_idle {nWanted : ℤ} {w : World} (h : Inv w) (htask : w.task = none) :
    Right nWanted w ↔ Settled w := by
  have hprev := h.idle htask
  constructor
  · intro hright r hlast
    have hcached := hright.cached r.1 (by rw [hprev, hlast, Option.map_some])
    exact (h.latest r.1 r.2 hlast).mp hcached
  · intro hsettled
    have hcached (c : ℕ) (hc : w.prevChoice = some c) : w.lastAcknowledged = some c := by
      rw [hprev] at hc
      obtain ⟨r, hlast, rfl⟩ := Option.map_eq_some_iff.mp hc
      exact (h.latest r.1 r.2 hlast).mpr (hsettled r hlast)
    refine ⟨hcached, fun stock connected hne => ⟨enqueue connected, ?_⟩⟩
    have hnew : some (choice nWanted stock) ≠ w.prevChoice := by
      intro hsame
      exact hne (h.setting _ (hcached _ hsame.symm)).symm
    simp only [PlasticMixer.run, if_neg hnew]

/-- In a run whose cycles start with the latest request acknowledged, the next cycle starts right
exactly if it does so as well. -/
theorem starts_right_iff (nWanted : ℤ) (setting : ℕ) {es : List Event}
    (hv : ((machine nWanted).restrict Patient).Valid (start setting) es)
    (htask : ((machine nWanted).exec (start setting) es).task = none) :
    Right nWanted ((machine nWanted).exec (start setting) es) ↔
      Settled ((machine nWanted).exec (start setting) es) := by
  refine Inv.right_iff_idle ?_ htask
  exact (machine nWanted).invariant_restrict
    (fun w e hw he hpatient => hw.next he hpatient) (inv_start setting) hv

def nothing : String → ℤ := fun _ => 0

/-- Without a connection the mixer is told once, in vain, and then never again. -/
theorem never_retried :
    choice 64 nothing = 1 ∧
    run 64 ((machine 64).exec (start 0) [.run nothing false, .completeTask]) nothing true =
      ⟨some 1, none, [(1, .failed)], 0, none⟩ ∧
    ¬ ∀ es, (machine 64).Valid (start 0) es → ((machine 64).exec (start 0) es).task = none →
      Right 64 ((machine 64).exec (start 0) es) := by
  have hchoice : choice 64 nothing = 1 := by decide
  have hstate : (machine 64).exec (start 0) [.run nothing false, .completeTask] =
      ⟨some 1, none, [(1, .failed)], 0, none⟩ := by
    simp [Machine.exec, machine, next, run, hchoice, start, enqueue]
  refine ⟨hchoice, ?_, fun h => ?_⟩
  · rw [hstate]
    simp [run, hchoice]
  · have hvalid : (machine 64).Valid (start 0) [.run nothing false, .completeTask] := by
      refine ⟨rfl, ?_, trivial⟩
      simp [machine, enabled, next, run, hchoice, start]
    have hright := h _ hvalid (by rw [hstate])
    rw [hstate] at hright
    cases hright.cached 1 rfl

/-- A request that is acknowledged before the next cycle. -/
theorem starts_right_iff_answered :
    Right 64 ((machine 64).exec (start 0) [.run nothing true, .acknowledge 0, .completeTask]) := by
  have hchoice : choice 64 nothing = 1 := by decide
  have hstate : (machine 64).exec (start 0) [.run nothing true, .acknowledge 0, .completeTask] =
      ⟨some 1, none, [(1, .acknowledged)], 1, some 1⟩ := by
    simp [Machine.exec, machine, next, run, hchoice, start, enqueue, acknowledge]
  have hvalid : ((machine 64).restrict Patient).Valid (start 0)
      [.run nothing true, .acknowledge 0, .completeTask] := by
    refine ⟨⟨rfl, by simp [Patient, Settled, start]⟩, ⟨⟨1, ?_⟩, trivial⟩, ⟨?_, trivial⟩, trivial⟩
    · simp [Machine.restrict, machine, next, run, hchoice, start, enqueue]
    · simp [Machine.restrict, machine, enabled, next, run, hchoice, start, enqueue, acknowledge]
  refine (starts_right_iff 64 0 hvalid (by rw [hstate])).mpr ?_
  rw [hstate]
  simp [Settled]

end PlasticMixer
end OCRemote
