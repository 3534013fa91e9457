import OCRemote.Process.JobRelease

/-! A job whose grants, extractions and actions all end comes to its end. -/

namespace OCRemote

/-- The number of tasks that have not ended. -/
def pending {α : Type} (tasks : List (α × Option (Except String Unit))) : ℕ :=
  tasks.countP fun t => t.2.isNone

theorem pending_set {α : Type} {tasks : List (α × Option (Except String Unit))} {j : ℕ} {a : α}
    (h : tasks[j]? = some (a, none)) (result : Except String Unit) :
    pending (tasks.set j (a, some result)) + 1 = pending tasks := by
  obtain ⟨l₁, l₂, hl, hset⟩ := List.exists_cut_set h (a, some result)
  rw [hset, hl]
  simp [pending, add_assoc]

theorem pending_map {α : Type} (l : List α) : pending (l.map (·, none)) = l.length := by
  induction l with
  | nil => rfl
  | cons a l ih => simp [pending]

theorem results_map_eq_none {α β : Type} {f : α → Option β} {l : List α}
    (h : results (l.map f) = none) : ∃ (i : ℕ) (a : α), l[i]? = some a ∧ f a = none := by
  induction l with
  | nil => cases h
  | cons a l ih =>
    cases ha : f a with
    | none => exact ⟨0, a, rfl, ha⟩
    | some b =>
      rw [List.map_cons, ha] at h
      obtain ⟨i, c, hi, hc⟩ := ih (Option.map_eq_none_iff.mp h)
      exact ⟨i + 1, c, hi, hc⟩

theorem exists_pending {α β : Type} {tasks : List (α × Option β)}
    (h : results (tasks.map Prod.snd) = none) : ∃ (j : ℕ) (a : α), tasks[j]? = some (a, none) := by
  obtain ⟨j, ⟨a, result⟩, hj, rfl⟩ := results_map_eq_none h
  exact ⟨j, a, hj⟩

/-- How many steps a task has left at most. -/
def InputTask.remaining (task : InputTask) : ℕ :=
  match task.state with
  | .fresh => task.sizes.length + 3
  | .waiting => task.sizes.length + 2
  | .answered _ => task.sizes.length + 1
  | .refused _ => 0
  | .extracting _ tasks => pending tasks

def Job.remaining (job : Job) : ℕ :=
  match job.phase with
  | .fetching tasks => (tasks.map InputTask.remaining).sum + job.plan.actions.length + 2
  | .acting tasks => pending tasks + 1
  | .finished _ => 0

theorem InputTask.step_remaining {task task' : InputTask} {i : ℕ} {e : InputEvent}
    {pushed : List BusSlot} {effects : List Effect}
    (h : task.step i e = some (task', pushed, effects)) : task'.remaining < task.remaining := by
  obtain ⟨bus, sizes, state⟩ := task
  cases e with
  | allocate =>
    cases state <;> simp only [step, Option.some.injEq, Prod.mk.injEq, reduceCtorEq] at h
    obtain ⟨rfl, -, -⟩ := h
    exact Nat.lt_succ_self _
  | answer result =>
    cases state <;> cases result <;>
      simp only [step, Option.some.injEq, Prod.mk.injEq, reduceCtorEq] at h
    all_goals
      obtain ⟨rfl, -, -⟩ := h
      exact Nat.lt_succ_self _
  | poll =>
    cases state with
    | answered result =>
      cases result <;> simp only [step, Option.some.injEq, Prod.mk.injEq] at h
      · obtain ⟨rfl, -, -⟩ := h
        exact Nat.succ_pos _
      · obtain ⟨rfl, -, -⟩ := h
        show pending (sizes.map (·, none)) < sizes.length + 1
        rw [pending_map]
        exact Nat.lt_succ_self _
    | _ => simp [step] at h
  | extracted j result =>
    cases state with
    | extracting slot tasks =>
      simp only [step] at h
      split at h
      · rename_i size hj
        simp only [Option.some.injEq, Prod.mk.injEq] at h
        obtain ⟨rfl, -, -⟩ := h
        have hless := pending_set hj result
        simp only [remaining]
        omega
      · cases h
    | _ => simp [step] at h

theorem Job.step_remaining {job job' : Job} {e : JobEvent} {effects : List Effect}
    (h : job.step e = some (job', effects)) : job'.remaining < job.remaining := by
  cases Job.step_stepped h with
  | @input tasks hphase i task task' hi e pushed _ hstep =>
    have hlt := InputTask.step_remaining hstep
    obtain ⟨l₁, l₂, hl, hset⟩ := List.exists_cut_set hi task'
    rw [Job.remaining, Job.remaining, hphase]
    simp only
    rw [hset, hl]
    simp only [List.map_append, List.map_cons, List.sum_append, List.sum_cons]
    omega
  | refused hphase =>
    rw [Job.remaining, Job.remaining, hphase]
    exact Nat.succ_pos _
  | @joined tasks hphase busSlots _ calls hcalls =>
    have hlength := congrArg List.length hcalls
    rw [List.length_map, List.length_map] at hlength
    rw [Job.remaining, Job.remaining, hphase]
    simp only [pending_map]
    omega
  | acted hphase hj result =>
    have hless := pending_set hj result
    rw [Job.remaining, Job.remaining, hphase]
    simp only
    omega
  | finished hphase =>
    rw [Job.remaining, Job.remaining, hphase]
    exact Nat.succ_pos _

theorem Job.run_remaining {job job' : Job} {es : List JobEvent} {effects : List Effect}
    (h : job.run es = some (job', effects)) : job'.remaining + es.length ≤ job.remaining := by
  induction es generalizing job effects with
  | nil =>
    obtain ⟨rfl, -⟩ := Prod.mk.inj (Option.some.inj h)
    exact le_rfl
  | cons e es ih =>
    rw [Job.run] at h
    split at h
    · cases h
    · rename_i next first hstep
      obtain ⟨⟨last, rest⟩, hrest, heq⟩ := Option.map_eq_some_iff.mp h
      obtain ⟨rfl, -⟩ := Prod.mk.inj heq
      have hlt := Job.step_remaining hstep
      have hle := ih hrest
      rw [List.length_cons]
      omega

/-- A task that did not return has a step to take. -/
theorem InputTask.exists_step {task : InputTask} (h : task.output = none) (i : ℕ) :
    ∃ e, task.step i e ≠ none := by
  obtain ⟨bus, sizes, state⟩ := task
  cases state with
  | fresh => exact ⟨.allocate, by simp [step]⟩
  | waiting => exact ⟨.answer (.ok 0), by simp [step]⟩
  | answered result => cases result <;> exact ⟨.poll, by simp [step]⟩
  | refused e => simp [output] at h
  | extracting slot tasks =>
    obtain ⟨j, size, hj⟩ := exists_pending (Option.map_eq_none_iff.mp h)
    exact ⟨.extracted j (.ok ()), by simp [step, hj]⟩

/-- A job that has its inputs has a slot. -/
theorem Fetching.exists_held {job : Job} {tasks : List InputTask} {trace : List Effect}
    (h : Fetching job tasks trace) (hinputs : job.plan.inputs ≠ []) {busSlots : List BusSlot}
    (houtputs : tasks.map InputTask.output = busSlots.map fun slot => some (.ok slot)) :
    ∃ first, job.toFree[0]? = some first := by
  have htasks : tasks ≠ [] := by
    rintro rfl
    exact hinputs h.inputs.symm
  obtain ⟨task, rest, rfl⟩ := List.exists_cons_of_ne_nil htasks
  obtain ⟨slot, -, heq⟩ := List.mem_map.mp (houtputs ▸ List.mem_cons_self .. :
    task.output ∈ busSlots.map fun slot => some (.ok slot))
  have hheld := (InputTask.output_ok heq.symm (h.ok task (List.mem_cons_self ..))).2.2.1
  have hmem : slot ∈ job.toFree := by
    rw [h.held.mem_iff, List.flatMap_cons, hheld]
    exact List.mem_cons_self ..
  obtain ⟨first, toFree, hcons⟩ := List.exists_cons_of_ne_nil (List.ne_nil_of_mem hmem)
  exact ⟨first, by rw [hcons]; rfl⟩

theorem Job.exists_step {job : Job} (hplan : job.plan.Balanced) {trace : List Effect}
    (h : job.Inv trace) (hphase : ∀ result, job.phase ≠ .finished result) :
    ∃ e, job.step e ≠ none := by
  rw [Job.Inv] at h
  cases hjob : job.phase with
  | fetching tasks =>
    rw [hjob] at h
    cases houtputs : results (tasks.map InputTask.output) with
    | none =>
      obtain ⟨i, task, hi, htask⟩ := results_map_eq_none houtputs
      obtain ⟨e, he⟩ := InputTask.exists_step htask i
      exact ⟨.input i e, by simpa [step, hjob, hi] using he⟩
    | some outputs =>
      refine ⟨.join, ?_⟩
      cases hjoin : joinOutputs outputs with
      | error e => simp [step, hjob, houtputs, hjoin]
      | ok busSlots =>
        cases hcalls : results (job.plan.actions.map (Action.call busSlots job.toFree)) with
        | some calls => simp [step, hjob, houtputs, hjoin, hcalls]
        | none =>
          -- the indices of the plan are within bounds
          obtain ⟨i, action, hi, hnone⟩ := results_map_eq_none hcalls
          have haction := List.mem_of_getElem? hi
          have hslots : tasks.map InputTask.output = busSlots.map fun slot => some (.ok slot) := by
            rw [results_eq_some.mp houtputs, joinOutputs_eq_ok.mp hjoin, List.map_map]
            rfl
          have hlength : busSlots.length = job.plan.inputs.length := by
            have hmap := congrArg List.length hslots
            rw [List.length_map, List.length_map] at hmap
            rw [← h.inputs, List.length_map, hmap]
          cases action with
          | unload iInput size =>
            have hlt := hplan.index (iInput, size) (List.mem_filterMap.mpr ⟨_, haction, rfl⟩)
            rw [← hlength] at hlt
            simp [Action.call, List.getElem?_eq_getElem hlt] at hnone
          | load size =>
            obtain ⟨first, htoFree⟩ :=
              h.exists_held (hplan.nonempty size haction).1 hslots
            simp [Action.call, htoFree] at hnone
          | other => cases hnone
  | acting tasks =>
    cases hrs : results (tasks.map Prod.snd) with
    | none =>
      obtain ⟨j, call, hj⟩ := exists_pending hrs
      exact ⟨.acted j (.ok ()), by simp [step, hjob, hj]⟩
    | some rs => exact ⟨.finish, by simp [step, hjob, hrs]⟩
  | finished result => exact absurd hjob (hphase result)

/-- A job ends after finitely many steps, and then it has released each slot that it was granted
once. Before that it has released nothing, and it can go on. -/
theorem Job.run_released {plan : JobPlan} (hplan : plan.Balanced) {es : List JobEvent} {job : Job}
    {trace : List Effect} (h : (Job.start plan).run es = some (job, trace)) :
    (∀ result, job.phase = .finished result → Released trace) ∧
    ((∀ result, job.phase ≠ .finished result) →
      releasesIn trace = [] ∧ ∃ e, job.step e ≠ none) ∧
    es.length ≤ (Job.start plan).remaining := by
  obtain ⟨hinv, hsame⟩ := (Job.start_inv plan).run hplan h
  rw [List.nil_append] at hinv
  refine ⟨fun result hphase => ?_, fun hphase => ⟨?_, ?_⟩, ?_⟩
  · rwa [Job.Inv, hphase] at hinv
  · rw [Job.Inv] at hinv
    cases hjob : job.phase with
    | fetching tasks =>
      rw [hjob] at hinv
      exact hinv.quiet.1
    | acting tasks =>
      rw [hjob] at hinv
      exact hinv.quiet
    | finished result => exact absurd hjob (hphase result)
  · have hplan' : job.plan.Balanced := hsame ▸ hplan
    exact Job.exists_step hplan' hinv hphase
  · exact (Nat.le_add_left _ _).trans (Job.run_remaining h)

end OCRemote
