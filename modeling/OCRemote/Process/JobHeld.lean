import OCRemote.Process.JobRelease

/-! What a job has at any time: the slots that it holds and the requests that it waits for. A step
trades them for what it is granted, what it releases and what it asks for. -/

namespace OCRemote

theorem output_ne_none {tasks : List InputTask} {busSlots : List BusSlot}
    (h : tasks.map InputTask.output = busSlots.map fun slot => some (.ok slot)) :
    ∀ task ∈ tasks, task.output ≠ none := by
  intro task htask
  obtain ⟨slot, -, hslot⟩ := List.mem_map.mp (h ▸ List.mem_map.mpr ⟨task, htask, rfl⟩ :
    task.output ∈ busSlots.map fun slot => some (.ok slot))
  rw [← hslot]
  nofun

theorem grantedIn_map_release (rs : List Release) : grantedIn (rs.map .release) = [] := by
  simp [grantedIn, List.filterMap_map]

namespace Job

/-- The slots that were granted to the job and are not released. -/
def held (job : Job) : List BusSlot :=
  match job.phase with
  | .fetching tasks => tasks.flatMap InputTask.granted
  | .acting _ => job.toFree
  | .finished _ => []

/-- `slots_to_free` is what the tasks have marked. -/
def Marked (job : Job) : Prop :=
  match job.phase with
  | .fetching tasks => job.toFree.Perm (tasks.flatMap InputTask.held)
  | _ => True

/-- The task for the input `i` has a receiver of the bus `k` that was not answered. -/
def Waits (job : Job) (k : BusKind) (i : ℕ) : Prop :=
  match job.phase with
  | .fetching tasks => ∃ task, tasks[i]? = some task ∧ task.bus = k ∧ task.state = .waiting
  | _ => False

theorem held_fetching {job : Job} {tasks : List InputTask} (h : job.phase = .fetching tasks) :
    job.held = tasks.flatMap InputTask.granted := by rw [held, h]

theorem held_acting {job : Job} {tasks : List (Call × Option (Except String Unit))}
    (h : job.phase = .acting tasks) : job.held = job.toFree := by rw [held, h]

theorem waits_fetching {job : Job} {tasks : List InputTask} (h : job.phase = .fetching tasks)
    (k : BusKind) (i : ℕ) : job.Waits k i ↔
      ∃ task, tasks[i]? = some task ∧ task.bus = k ∧ task.state = .waiting := by rw [Waits, h]

theorem not_waits {job : Job} (h : ∀ tasks, job.phase ≠ .fetching tasks) (k : BusKind) (i : ℕ) :
    ¬ job.Waits k i := by
  unfold Waits
  split
  · rename_i tasks hphase
    exact absurd hphase (h tasks)
  · exact not_false

/-- A step of one task leaves what the others wait for. -/
theorem waits_set {job job' : Job} {tasks : List InputTask} (h : job.phase = .fetching tasks)
    {i : ℕ} {task task' : InputTask} (hi : tasks[i]? = some task)
    (h' : job'.phase = .fetching (tasks.set i task')) (k : BusKind) (i' : ℕ) :
    job'.Waits k i' ↔
      if i' = i then task'.bus = k ∧ task'.state = .waiting else job.Waits k i' := by
  rw [waits_fetching h', waits_fetching h]
  split_ifs with heq
  · subst heq
    rw [List.getElem?_set_self (List.getElem?_eq_some_iff.mp hi).1]
    simp
  · rw [List.getElem?_set_ne (Ne.symm heq)]

/-- The task of a waiting input. -/
theorem waits_iff {job : Job} {tasks : List InputTask} (h : job.phase = .fetching tasks) {i : ℕ}
    {task : InputTask} (hi : tasks[i]? = some task) (k : BusKind) :
    job.Waits k i ↔ task.bus = k ∧ task.state = .waiting := by
  rw [waits_fetching h, hi]
  simp

theorem Waits.bus_eq {job : Job} {k k' : BusKind} {i : ℕ} (h : job.Waits k i)
    (h' : job.Waits k' i) : k = k' := by
  cases hphase : job.phase with
  | fetching tasks =>
    obtain ⟨task, htask, rfl, -⟩ := (waits_fetching hphase k i).mp h
    obtain ⟨task', htask', rfl, -⟩ := (waits_fetching hphase k' i).mp h'
    rw [Option.some.inj (htask.symm.trans htask')]
  | acting tasks => exact absurd h (not_waits (fun _ h => by simp [hphase] at h) k i)
  | finished result => exact absurd h (not_waits (fun _ h => by simp [hphase] at h) k i)

/-- Tasks that have returned wait for nothing. -/
theorem not_waits_of_output {job : Job} {tasks : List InputTask} (h : job.phase = .fetching tasks)
    (houtput : ∀ task ∈ tasks, task.output ≠ none) (k : BusKind) (i : ℕ) : ¬ job.Waits k i := by
  rw [waits_fetching h]
  rintro ⟨task, htask, -, hstate⟩
  refine houtput task (List.mem_of_getElem? htask) ?_
  rw [InputTask.output, hstate]

def Finished (job : Job) : Prop := ∃ result, job.phase = .finished result

theorem start_marked (plan : JobPlan) : (start plan).Marked := by
  show [].Perm _
  simp [List.flatMap_map, InputTask.held]

theorem start_held (plan : JobPlan) : (start plan).held = [] := by
  simp [held, start, List.flatMap_map, InputTask.granted]

theorem start_waits (plan : JobPlan) (k : BusKind) (i : ℕ) : ¬ (start plan).Waits k i := by
  rintro ⟨task, htask, -, hstate⟩
  rw [List.getElem?_map] at htask
  obtain ⟨input, -, rfl⟩ := Option.map_eq_some_iff.mp htask
  cases hstate

/-- What is granted is held until it is released. -/
theorem step_held {job job' : Job} (hmarked : job.Marked) {e : JobEvent} {effects : List Effect}
    (h : job.step e = some (job', effects)) : job'.Marked ∧
      (job'.held ++ (releasesIn effects).flatMap Release.slots).Perm
        (job.held ++ grantedIn effects) := by
  cases step_stepped h with
  | input hphase hi hstep =>
    have hstep := InputTask.step_stepped hstep
    simp only [Marked, hphase] at hmarked
    refine ⟨(hmarked.append_right _).trans (List.perm_flatMap_set hi hstep.held).symm, ?_⟩
    rw [hstep.quiet.1, List.flatMap_nil, List.append_nil, held_fetching hphase]
    exact List.perm_flatMap_set hi hstep.granted
  | @refused tasks hphase outputs houtputs e hjoin =>
    simp only [Marked, hphase] at hmarked
    refine ⟨trivial, ?_⟩
    rw [releasesIn_map, grantedIn_map_release, List.append_nil, held_fetching hphase,
      InputTask.flatMap_granted (results_ne_none houtputs)]
    exact (depositAll_perm job.toFree).trans hmarked
  | @joined tasks hphase busSlots houtputs calls hcalls =>
    simp only [Marked, hphase] at hmarked
    refine ⟨trivial, ?_⟩
    rw [held_fetching hphase, InputTask.flatMap_granted (output_ne_none houtputs)]
    show (job.toFree ++ []).Perm (_ ++ [])
    rwa [List.append_nil, List.append_nil]
  | @acted tasks hphase j call hj result =>
    refine ⟨trivial, ?_⟩
    rw [held_acting hphase]
    show (job.toFree ++ _).Perm _
    cases result with
    | ok _ => cases call <;> simp [releasesIn, grantedIn, Call.effects]
    | error e => simp [releasesIn, grantedIn]
  | @finished tasks hphase rs hrs =>
    refine ⟨trivial, ?_⟩
    rw [releasesIn_map, grantedIn_map_release, List.append_nil, held_acting hphase]
    cases joinTasks rs with
    | ok _ => exact releases_perm _ _
    | error e => exact depositAll_perm _

/-- The requests that a step makes. -/
def asks (effects : List Effect) : List (BusKind × ℕ) :=
  effects.filterMap fun
    | .asked k i => some (k, i)
    | _ => none

theorem asks_map_release (rs : List Release) : asks (rs.map .release) = [] := by
  simp [asks, List.filterMap_map]

/-- A job waits for what it has asked for until it is answered. -/
theorem step_waits {job job' : Job} {e : JobEvent} {effects : List Effect}
    (h : job.step e = some (job', effects)) (he : ∀ i result, e ≠ .input i (.answer result)) :
    grantedIn effects = [] ∧ (asks effects).Nodup ∧ (∀ r ∈ asks effects, ¬ job.Waits r.1 r.2) ∧
      ∀ k i, job'.Waits k i ↔ (k, i) ∈ asks effects ∨ job.Waits k i := by
  have hquiet {effects : List Effect} (hgranted : grantedIn effects = []) (hasks : asks effects = [])
      (hwaits : ∀ k i, job'.Waits k i ↔ job.Waits k i) :
      grantedIn effects = [] ∧ (asks effects).Nodup ∧
        (∀ r ∈ asks effects, ¬ job.Waits r.1 r.2) ∧
        ∀ k i, job'.Waits k i ↔ (k, i) ∈ asks effects ∨ job.Waits k i := by
    simpa [hasks, hgranted] using hwaits
  cases step_stepped h with
  | @input tasks hphase i task task' hi e pushed effects hstep =>
    have hset (k : BusKind) (i' : ℕ) :
        Waits { job with phase := .fetching (tasks.set i task'), toFree := job.toFree ++ pushed } k i' ↔
          if i' = i then task'.bus = k ∧ task'.state = .waiting else job.Waits k i' :=
      waits_set hphase hi rfl k i'
    -- a task that waits neither before nor after
    have hsame (hbefore : task.state ≠ .waiting) (hafter : task'.state ≠ .waiting) (k : BusKind)
        (i' : ℕ) : Waits { job with
          phase := .fetching (tasks.set i task')
          toFree := job.toFree ++ pushed } k i' ↔ job.Waits k i' := by
      rw [hset]
      split_ifs with heq
      · subst heq
        simp [waits_iff hphase hi, hbefore, hafter]
      · rfl
    obtain ⟨bus, sizes, state⟩ := task
    cases e with
    | allocate =>
      cases state <;> simp only [InputTask.step, Option.some.injEq, Prod.mk.injEq, reduceCtorEq]
        at hstep
      obtain ⟨rfl, rfl, rfl⟩ := hstep
      refine ⟨rfl, List.nodup_singleton _, ?_, fun k i' => ?_⟩
      · intro r hr
        obtain rfl := List.mem_singleton.mp hr
        rw [waits_iff hphase hi]
        simp
      · rw [hset]
        by_cases heq : i' = i
        · subst heq
          simp [asks, waits_iff hphase hi, eq_comm]
        · simp [asks, heq]
    | answer result => exact absurd rfl (he i result)
    | poll =>
      cases state with
      | answered result =>
        cases result <;> simp only [InputTask.step, Option.some.injEq, Prod.mk.injEq] at hstep <;>
          obtain ⟨rfl, rfl, rfl⟩ := hstep
        · exact hquiet rfl rfl (hsame (by simp) (by simp))
        · exact hquiet rfl rfl (hsame (by simp) (by simp))
      | _ => simp [InputTask.step] at hstep
    | extracted j result =>
      cases state with
      | extracting slot extractions =>
        simp only [InputTask.step] at hstep
        split at hstep
        · simp only [Option.some.injEq, Prod.mk.injEq] at hstep
          obtain ⟨rfl, rfl, rfl⟩ := hstep
          refine hquiet ?_ ?_ (hsame (by simp) (by simp))
          · cases result <;> rfl
          · cases result <;> rfl
        · cases hstep
      | _ => simp [InputTask.step] at hstep
  | @refused tasks hphase outputs houtputs e hjoin =>
    refine hquiet (grantedIn_map_release _) (asks_map_release _) fun k i => ?_
    exact iff_of_false (not_waits (fun _ h => by cases h) k i)
      (not_waits_of_output hphase (results_ne_none houtputs) k i)
  | @joined tasks hphase busSlots houtputs calls hcalls =>
    refine hquiet rfl rfl fun k i => ?_
    exact iff_of_false (not_waits (fun _ h => by cases h) k i)
      (not_waits_of_output hphase (output_ne_none houtputs) k i)
  | @acted tasks hphase j call hj result =>
    refine hquiet ?_ ?_ fun k i => iff_of_false (not_waits (fun _ h => by cases h) k i) ?_
    · cases result with
      | ok _ => cases call <;> rfl
      | error e => rfl
    · cases result with
      | ok _ => cases call <;> rfl
      | error e => rfl
    · exact not_waits (fun _ h => by simp [hphase] at h) k i
  | @finished tasks hphase rs hrs =>
    refine hquiet (grantedIn_map_release _) (asks_map_release _) fun k i => ?_
    exact iff_of_false (not_waits (fun _ h => by cases h) k i)
      (not_waits (fun _ h => by simp [hphase] at h) k i)

/-- An answer to a job that waits for it. -/
theorem step_answer {job : Job} {k : BusKind} {i : ℕ} (h : job.Waits k i)
    (result : Except String ℕ) : ∃ job' effects,
      job.step (.input i (.answer result)) = some (job', effects) ∧ ¬ job'.Finished ∧
      releasesIn effects = [] ∧
      (grantedIn effects = match result with
        | .ok slot => [(k, slot)]
        | .error _ => []) ∧
      ∀ k' i', job'.Waits k' i' ↔ job.Waits k' i' ∧ i' ≠ i := by
  cases hphase : job.phase with
  | fetching tasks =>
    obtain ⟨⟨bus, sizes, state⟩, hi, rfl, hstate⟩ := (waits_fetching hphase k i).mp h
    obtain rfl : state = .waiting := hstate
    have hset (job' : Job) (task' : InputTask) (hstate : task'.state ≠ .waiting)
        (h' : job'.phase = .fetching (tasks.set i task')) (k' : BusKind) (i' : ℕ) :
        job'.Waits k' i' ↔ job.Waits k' i' ∧ i' ≠ i := by
      rw [waits_set hphase hi h']
      split_ifs with heq
      · simp [heq, hstate]
      · simp [heq]
    cases result with
    | ok slot =>
      refine ⟨_, _, by simp [step, hphase, hi, InputTask.step]; exact ⟨rfl, rfl⟩, ?_, rfl, rfl,
        hset _ _ ?_ rfl⟩
      · rintro ⟨result, hresult⟩
        cases hresult
      · intro h
        cases h
    | error e =>
      refine ⟨_, _, by simp [step, hphase, hi, InputTask.step]; exact ⟨rfl, rfl⟩, ?_, rfl, rfl,
        hset _ _ ?_ rfl⟩
      · rintro ⟨result, hresult⟩
        cases hresult
      · intro h
        cases h
  | acting tasks => exact absurd h (not_waits (fun _ h => by simp [hphase] at h) k i)
  | finished result => exact absurd h (not_waits (fun _ h => by simp [hphase] at h) k i)

theorem step_unfinished {job job' : Job} {e : JobEvent} {effects : List Effect}
    (h : job.step e = some (job', effects)) : ¬ job.Finished := by
  rintro ⟨result, hphase⟩
  cases step_stepped h <;> simp_all

theorem Finished.held {job : Job} (h : job.Finished) : job.held = [] := by
  obtain ⟨result, hphase⟩ := h
  rw [Job.held, hphase]

theorem Finished.not_waits {job : Job} (h : job.Finished) (k : BusKind) (i : ℕ) :
    ¬ job.Waits k i := by
  obtain ⟨result, hphase⟩ := h
  exact Job.not_waits (fun _ h => by simp [hphase] at h) k i

end Job
end OCRemote
