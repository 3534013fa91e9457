import OCRemote.Lib.Tally
import OCRemote.Process.Job

/-! A job releases each slot that it was granted once, when it ends, and gives a slot to `bus_free`
only when nothing failed and what was extracted into the slot was transferred out of it. -/

namespace OCRemote
open Tally

/-! The parts of a trace. -/

def grantedIn (trace : List Effect) : List BusSlot :=
  trace.filterMap fun
    | .granted slot => some slot
    | _ => none

def extractedIn (trace : List Effect) : List (BusSlot × ℤ) :=
  trace.filterMap fun
    | .extracted slot size => some (slot, size)
    | _ => none

def unloadedIn (trace : List Effect) : List (BusSlot × ℤ) :=
  trace.filterMap fun
    | .unloaded slot size => some (slot, size)
    | _ => none

def loadedIn (trace : List Effect) : List BusSlot :=
  trace.filterMap fun
    | .loaded slot => some slot
    | _ => none

def releasesIn (trace : List Effect) : List Release :=
  trace.filterMap fun
    | .release r => some r
    | _ => none

def Release.slots : Release → List BusSlot
  | .free slot => [slot]
  | .deposit bus slots => slots.map (Prod.mk bus)

/-- How a job that ended has released its slots. -/
structure Released (trace : List Effect) : Prop where
  once : ((releasesIn trace).flatMap Release.slots).Perm (grantedIn trace)
  freed : ∀ slot, .free slot ∈ releasesIn trace → .failed ∉ trace ∧
    sumOf slot (unloadedIn trace) = sumOf slot (extractedIn trace) ∧
    ((grantedIn trace).Nodup → slot ∉ loadedIn trace)
  deposited : .failed ∈ trace → ∀ r ∈ releasesIn trace, ∃ bus slots, r = .deposit bus slots

namespace JobPlan

/-- What the plan transfers out of the slot for each input. -/
def unloads (plan : JobPlan) : List (ℕ × ℤ) :=
  plan.actions.filterMap fun
    | .unload iInput size => some (iInput, size)
    | _ => none

/-- A plan transfers out of each slot what it extracts into it, and does not give a slot to
`bus_free` that it transfers into. -/
structure Balanced (plan : JobPlan) : Prop where
  nonempty : ∀ size, .load size ∈ plan.actions → plan.inputs ≠ [] ∧ plan.ending ≠ .free
  index : ∀ d ∈ plan.unloads, d.1 < plan.inputs.length
  sums : ∀ i, sumOf i plan.unloads = plan.inputs[i]?.elim 0 fun input => input.2.sum

end JobPlan

/-! The tasks for the inputs. -/

namespace InputTask

/-- The slots that the task was granted. -/
def granted (task : InputTask) : List BusSlot :=
  match task.state with
  | .answered (.ok slot) | .extracting slot _ => [(task.bus, slot)]
  | _ => []

/-- The slots that the task has marked as to be freed. -/
def held (task : InputTask) : List BusSlot :=
  match task.state with
  | .extracting slot _ => [(task.bus, slot)]
  | _ => []

def extracted (task : InputTask) : List (BusSlot × ℤ) :=
  match task.state with
  | .extracting slot tasks => tasks.flatMap fun t =>
      match t.2 with
      | some (.ok _) => [((task.bus, slot), t.1)]
      | _ => []
  | _ => []

def Failed (task : InputTask) : Prop :=
  match task.state with
  | .answered (.error _) | .refused _ => True
  | .extracting _ tasks => ∃ t ∈ tasks, ∃ e, t.2 = some (.error e)
  | _ => False

/-- The task extracts what it was made for. -/
def Ok (task : InputTask) : Prop :=
  match task.state with
  | .extracting _ tasks => tasks.map Prod.fst = task.sizes
  | _ => True

/-- What one step of a task does to all that is recorded of it. -/
structure Stepped (task task' : InputTask) (pushed : List BusSlot) (effects : List Effect) : Prop where
  plan : (task'.bus, task'.sizes) = (task.bus, task.sizes)
  ok : task.Ok → task'.Ok
  granted : task'.granted.Perm (task.granted ++ grantedIn effects)
  held : task'.held.Perm (task.held ++ pushed)
  extracted : task'.extracted.Perm (task.extracted ++ extractedIn effects)
  failed : task'.Failed ↔ task.Failed ∨ .failed ∈ effects
  quiet : releasesIn effects = [] ∧ unloadedIn effects = [] ∧ loadedIn effects = []

theorem step_stepped {task task' : InputTask} {i : ℕ} {e : InputEvent} {pushed : List BusSlot}
    {effects : List Effect} (h : task.step i e = some (task', pushed, effects)) :
    Stepped task task' pushed effects := by
  obtain ⟨bus, sizes, state⟩ := task
  cases e with
  | allocate =>
    cases state <;> simp only [step, Option.some.injEq, Prod.mk.injEq, reduceCtorEq] at h
    obtain ⟨rfl, rfl, rfl⟩ := h
    exact ⟨rfl, fun _ => trivial, .refl _, .refl _, .refl _, by simp [Failed], rfl, rfl, rfl⟩
  | answer result =>
    cases state <;> cases result <;>
      simp only [step, Option.some.injEq, Prod.mk.injEq, reduceCtorEq] at h
    all_goals
      obtain ⟨rfl, rfl, rfl⟩ := h
      exact ⟨rfl, fun _ => trivial, .refl _, .refl _, .refl _, by simp [Failed], rfl, rfl, rfl⟩
  | poll =>
    cases state with
    | answered result =>
      cases result <;> simp only [step, Option.some.injEq, Prod.mk.injEq] at h
      · obtain ⟨rfl, rfl, rfl⟩ := h
        exact ⟨rfl, fun _ => trivial, .refl _, .refl _, .refl _, by simp [Failed], rfl, rfl, rfl⟩
      · obtain ⟨rfl, rfl, rfl⟩ := h
        exact ⟨rfl, fun _ => by simp [Ok, Function.comp_def], .refl _, .refl _,
          by simp [extracted, extractedIn], by simp [Failed], rfl, rfl, rfl⟩
    | _ => simp [step] at h
  | extracted j result =>
    cases state with
    | extracting slot tasks =>
      simp only [step] at h
      split at h
      · rename_i size hj
        simp only [Option.some.injEq, Prod.mk.injEq] at h
        obtain ⟨rfl, rfl, rfl⟩ := h
        refine ⟨rfl, fun hok => ?_, ?_, .refl _, ?_, ?_, ?_⟩
        · show (tasks.set j _).map Prod.fst = sizes
          have hsizes : tasks.map Prod.fst = sizes := hok
          obtain ⟨l₁, l₂, hl, hset⟩ := List.exists_cut_set hj (size, some result)
          rw [hset, ← hsizes, hl]
          simp
        · cases result <;> simp [granted, grantedIn]
        · refine List.perm_flatMap_set hj ?_
          cases result <;> simp [extractedIn]
        · refine List.exists_mem_set hj ?_
          cases result <;> simp
        · cases result <;> exact ⟨rfl, rfl, rfl⟩
      · cases h
    | _ => simp [step] at h

/-- A task that has returned a slot has it and has extracted everything into it. -/
theorem output_ok {task : InputTask} {slot : BusSlot} (h : task.output = some (.ok slot))
    (hok : task.Ok) : ¬ task.Failed ∧ task.granted = [slot] ∧ task.held = [slot] ∧
      task.extracted = task.sizes.map (Prod.mk slot) ∧ slot.1 = task.bus := by
  obtain ⟨bus, sizes, state⟩ := task
  cases state with
  | extracting n tasks =>
    obtain ⟨rs, hrs, hjoin⟩ := Option.map_eq_some_iff.mp h
    cases hjoined : joinTasks rs with
    | error e => simp [hjoined, Except.map] at hjoin
    | ok _ =>
      obtain rfl : (bus, n) = slot := by simpa [hjoined, Except.map] using hjoin
      have hall := (joinTasks_results hrs).1 hjoined
      obtain rfl : tasks.map Prod.fst = sizes := hok
      refine ⟨?_, rfl, rfl, ?_, rfl⟩
      · rintro ⟨t, ht, e, he⟩
        rw [hall t ht] at he
        cases he
      · rw [List.map_map]
        refine Eq.trans (List.flatMap_congr fun t ht => ?_) List.map_eq_flatMap.symm
        rw [hall t ht]
        rfl
  | _ => simp [output] at h

/-- A task that has returned an error has marked every slot that it was granted. -/
theorem output_held {task : InputTask} {result : Except String BusSlot}
    (h : task.output = some result) : task.granted = task.held := by
  obtain ⟨bus, sizes, state⟩ := task
  cases state <;> first | rfl | simp [output] at h

theorem flatMap_granted {tasks : List InputTask}
    (h : ∀ task ∈ tasks, task.output ≠ none) :
    tasks.flatMap granted = tasks.flatMap held :=
  List.flatMap_congr fun task htask =>
    let ⟨_, hresult⟩ := Option.ne_none_iff_exists'.mp (h task htask)
    output_held hresult

end InputTask

/-! The phases of a job. -/

@[simp] theorem grantedIn_append (trace trace' : List Effect) :
    grantedIn (trace ++ trace') = grantedIn trace ++ grantedIn trace' := List.filterMap_append ..

@[simp] theorem extractedIn_append (trace trace' : List Effect) :
    extractedIn (trace ++ trace') = extractedIn trace ++ extractedIn trace' :=
  List.filterMap_append ..

@[simp] theorem unloadedIn_append (trace trace' : List Effect) :
    unloadedIn (trace ++ trace') = unloadedIn trace ++ unloadedIn trace' := List.filterMap_append ..

@[simp] theorem loadedIn_append (trace trace' : List Effect) :
    loadedIn (trace ++ trace') = loadedIn trace ++ loadedIn trace' := List.filterMap_append ..

@[simp] theorem releasesIn_append (trace trace' : List Effect) :
    releasesIn (trace ++ trace') = releasesIn trace ++ releasesIn trace' := List.filterMap_append ..

/-- While a job fetches its inputs. -/
structure Fetching (job : Job) (tasks : List InputTask) (trace : List Effect) : Prop where
  inputs : tasks.map (fun task => (task.bus, task.sizes)) = job.plan.inputs
  ok : ∀ task ∈ tasks, task.Ok
  granted : (grantedIn trace).Perm (tasks.flatMap InputTask.granted)
  held : job.toFree.Perm (tasks.flatMap InputTask.held)
  extracted : (extractedIn trace).Perm (tasks.flatMap InputTask.extracted)
  failed : .failed ∈ trace ↔ ∃ task ∈ tasks, task.Failed
  quiet : releasesIn trace = [] ∧ unloadedIn trace = [] ∧ loadedIn trace = []

/-- While the actions of a job are executed. -/
structure Acting (job : Job) (tasks : List (Call × Option (Except String Unit)))
    (trace : List Effect) : Prop where
  granted : (grantedIn trace).Perm job.toFree
  sums : ∀ slot, sumOf slot (tasks.flatMap fun t => unloadedIn t.1.effects) =
    sumOf slot (extractedIn trace)
  unloaded : (unloadedIn trace).Perm (tasks.flatMap fun t =>
    match t.2 with
    | some (.ok _) => unloadedIn t.1.effects
    | _ => [])
  loads : ∀ t ∈ tasks, ∀ slot ∈ loadedIn t.1.effects,
    job.toFree[0]? = some slot ∧ job.plan.ending ≠ .free
  loaded : ∀ slot ∈ loadedIn trace, job.toFree[0]? = some slot ∧ job.plan.ending ≠ .free
  failed : .failed ∈ trace ↔ ∃ t ∈ tasks, ∃ e, t.2 = some (.error e)
  quiet : releasesIn trace = []

/-- What holds of a job after what it did so far. -/
def Job.Inv (job : Job) (trace : List Effect) : Prop :=
  match job.phase with
  | .fetching tasks => Fetching job tasks trace
  | .acting tasks => Acting job tasks trace
  | .finished _ => Released trace

theorem Job.start_inv (plan : JobPlan) : (Job.start plan).Inv [] := by
  have hnone (g : InputTask → List BusSlot)
      (hg : ∀ input : BusKind × List ℤ, g ⟨input.1, input.2, .fresh⟩ = []) :
      (plan.inputs.map fun input => (⟨input.1, input.2, .fresh⟩ : InputTask)).flatMap g = [] := by
    simp [List.flatMap_map, hg]
  refine ⟨?_, ?_, ?_, ?_, ?_, ?_, rfl, rfl, rfl⟩
  · simp [Job.start, Function.comp_def]
  · intro task htask
    obtain ⟨input, -, rfl⟩ := List.mem_map.mp htask
    trivial
  · rw [hnone _ fun _ => rfl]
    exact .refl _
  · rw [hnone _ fun _ => rfl]
    exact .refl _
  · simp [extractedIn, List.flatMap_map, InputTask.extracted]
  · simp [InputTask.Failed]

theorem Fetching.input {job : Job} {tasks : List InputTask} {trace : List Effect}
    (h : Fetching job tasks trace) {i : ℕ} {task task' : InputTask} (hi : tasks[i]? = some task)
    {pushed : List BusSlot} {effects : List Effect}
    (hstep : InputTask.Stepped task task' pushed effects) :
    Fetching { job with phase := .fetching (tasks.set i task'), toFree := job.toFree ++ pushed }
      (tasks.set i task') (trace ++ effects) := by
  obtain ⟨hquiet, hunloaded, hloaded⟩ := hstep.quiet
  refine ⟨?_, ?_, ?_, ?_, ?_, ?_, ?_, ?_, ?_⟩
  · obtain ⟨l₁, l₂, hl, hset⟩ := List.exists_cut_set hi task'
    rw [hset, ← h.inputs, hl]
    simp [hstep.plan]
  · intro t ht
    rcases List.mem_or_eq_of_mem_set ht with ht | rfl
    · exact h.ok t ht
    · exact hstep.ok (h.ok task (List.mem_of_getElem? hi))
  · rw [grantedIn_append]
    exact (h.granted.append_right _).trans (List.perm_flatMap_set hi hstep.granted).symm
  · exact (h.held.append_right _).trans (List.perm_flatMap_set hi hstep.held).symm
  · rw [extractedIn_append]
    exact (h.extracted.append_right _).trans (List.perm_flatMap_set hi hstep.extracted).symm
  · rw [List.mem_append, h.failed]
    exact (List.exists_mem_set hi hstep.failed).symm
  · rw [releasesIn_append, h.quiet.1, hquiet, List.append_nil]
  · rw [unloadedIn_append, h.quiet.2.1, hunloaded, List.append_nil]
  · rw [loadedIn_append, h.quiet.2.2, hloaded, List.append_nil]

theorem Acting.acted {job : Job} {tasks : List (Call × Option (Except String Unit))}
    {trace : List Effect} (h : Acting job tasks trace) {j : ℕ} {call : Call}
    (hj : tasks[j]? = some (call, none)) (result : Except String Unit) :
    Acting { job with phase := .acting (tasks.set j (call, some result)) }
      (tasks.set j (call, some result)) (trace ++
        match result with
        | .ok _ => call.effects
        | .error _ => [.failed]) := by
  have hcalls : (tasks.set j (call, some result)).map Prod.fst = tasks.map Prod.fst := by
    obtain ⟨l₁, l₂, hl, hset⟩ := List.exists_cut_set hj (call, some result)
    rw [hset, hl]
    simp
  have hmem {t : Call × Option (Except String Unit)} (ht : t ∈ tasks.set j (call, some result)) :
      ∃ t' ∈ tasks, t'.1 = t.1 :=
    List.mem_map.mp (hcalls ▸ List.mem_map.mpr ⟨t, ht, rfl⟩)
  have hcall := List.mem_of_getElem? hj
  refine ⟨?_, ?_, ?_, ?_, ?_, ?_, ?_⟩
  · rw [grantedIn_append]
    cases result <;> cases call <;> simpa [grantedIn, Call.effects] using h.granted
  · intro slot
    have hunloads : ((tasks.set j (call, some result)).flatMap fun t => unloadedIn t.1.effects) =
        tasks.flatMap fun t => unloadedIn t.1.effects := by
      have hflat := congrArg (List.flatMap fun c : Call => unloadedIn c.effects) hcalls
      rwa [List.flatMap_map, List.flatMap_map] at hflat
    rw [hunloads, h.sums slot, extractedIn_append]
    cases result <;> cases call <;> simp [extractedIn, Call.effects]
  · rw [unloadedIn_append]
    refine (h.unloaded.append_right _).trans (List.perm_flatMap_set hj ?_).symm
    cases result <;> simp [unloadedIn]
  · intro t ht slot hslot
    obtain ⟨t', ht', heq⟩ := hmem ht
    exact h.loads t' ht' slot (heq ▸ hslot)
  · intro slot hslot
    rw [loadedIn_append, List.mem_append] at hslot
    rcases hslot with hslot | hslot
    · exact h.loaded slot hslot
    · cases result with
      | ok _ => exact h.loads _ hcall slot hslot
      | error e => simp [loadedIn] at hslot
  · rw [List.mem_append, h.failed]
    refine (List.exists_mem_set hj ?_).symm
    cases result <;> cases call <;> simp [Call.effects]
  · rw [releasesIn_append, h.quiet]
    cases result <;> cases call <;> rfl

/-! The releases at the end. -/

theorem perm_filter_bus (slots : List BusSlot) :
    ((slots.filter fun slot => slot.1 = .item) ++ slots.filter fun slot => slot.1 = .fluid).Perm
      slots := by
  have hnot : (slots.filter fun slot => slot.1 = .fluid) =
      slots.filter fun slot => !decide (slot.1 = .item) := by
    refine List.filter_congr fun slot _ => ?_
    rcases slot with ⟨_ | _, n⟩ <;> rfl
  rw [hnot]
  exact List.filter_append_perm _ slots

theorem map_ofBus (bus : BusKind) (slots : List BusSlot) :
    (ofBus bus slots).map (Prod.mk bus) = slots.filter fun slot => slot.1 = bus := by
  rw [ofBus, List.map_map]
  refine (List.map_congr_left fun slot hslot => ?_).trans (List.map_id _)
  obtain ⟨-, hbus⟩ := List.mem_filter.mp hslot
  exact Prod.ext (of_decide_eq_true hbus).symm rfl

theorem depositAll_perm (slots : List BusSlot) :
    ((depositAll slots).flatMap Release.slots).Perm slots := by
  have hslots : (depositAll slots).flatMap Release.slots =
      (slots.filter fun slot => slot.1 = .item) ++ slots.filter fun slot => slot.1 = .fluid := by
    simp [depositAll, Release.slots, map_ofBus]
  rw [hslots]
  exact perm_filter_bus slots

theorem releases_perm (ending : Ending) (slots : List BusSlot) :
    ((ending.releases slots).flatMap Release.slots).Perm slots := by
  have hfree (slots : List BusSlot) : (slots.map Release.free).flatMap Release.slots = slots := by
    rw [List.flatMap_map]
    exact List.flatMap_singleton' slots
  cases ending with
  | free =>
    rw [Ending.releases, List.flatMap_append, hfree, hfree]
    exact perm_filter_bus slots
  | freeButFirst =>
    rw [Ending.releases, List.flatMap_append, hfree]
    have hperm := (List.reverse_perm (slots.drop 1)).append (depositAll_perm (slots.take 1))
    refine hperm.trans (List.perm_append_comm.trans ?_)
    rw [List.take_append_drop]
  | deposit => exact depositAll_perm slots

theorem free_not_mem_depositAll (slot : BusSlot) (slots : List BusSlot) :
    .free slot ∉ depositAll slots := by simp [depositAll]

/-- The slot that was granted first is not among those that are freed, if it may hold something. -/
theorem free_mem_releases {ending : Ending} {slots : List BusSlot} {slot : BusSlot}
    (h : .free slot ∈ ending.releases slots) :
    ending ≠ .deposit ∧ (ending ≠ .free → slots.Nodup → slots[0]? ≠ some slot) := by
  cases ending with
  | free => exact ⟨by decide, fun hne => absurd rfl hne⟩
  | freeButFirst =>
    refine ⟨by decide, fun _ hnd hfirst => ?_⟩
    rcases List.mem_append.mp h with hmem | hmem
    · cases slots with
      | nil => simp at hfirst
      | cons first slots =>
        obtain rfl : first = slot := by simpa using hfirst
        exact (List.nodup_cons.mp hnd).1 (by simpa using hmem)
    · exact absurd hmem (free_not_mem_depositAll slot _)
  | deposit => exact absurd h (free_not_mem_depositAll slot _)

@[simp] theorem releasesIn_map (rs : List Release) : releasesIn (rs.map .release) = rs := by
  simp [releasesIn, List.filterMap_map]

/-- The trace of a job that releases its slots now. -/
theorem Released.of_quiet {trace : List Effect} (hquiet : releasesIn trace = []) {rs : List Release}
    (honce : (rs.flatMap Release.slots).Perm (grantedIn trace))
    (hfreed : ∀ slot, .free slot ∈ rs → .failed ∉ trace ∧
      sumOf slot (unloadedIn trace) = sumOf slot (extractedIn trace) ∧
      ((grantedIn trace).Nodup → slot ∉ loadedIn trace))
    (hdeposited : .failed ∈ trace → ∀ r ∈ rs, ∃ bus slots, r = .deposit bus slots) :
    Released (trace ++ rs.map .release) := by
  have hfailed : .failed ∈ trace ++ rs.map .release ↔ .failed ∈ trace := by simp
  have hgranted : grantedIn (trace ++ rs.map .release) = grantedIn trace := by
    simp [grantedIn, List.filterMap_map]
  have hextracted : extractedIn (trace ++ rs.map .release) = extractedIn trace := by
    simp [extractedIn, List.filterMap_map]
  have hunloaded : unloadedIn (trace ++ rs.map .release) = unloadedIn trace := by
    simp [unloadedIn, List.filterMap_map]
  have hloaded : loadedIn (trace ++ rs.map .release) = loadedIn trace := by
    simp [loadedIn, List.filterMap_map]
  have hreleases : releasesIn (trace ++ rs.map .release) = rs := by
    rw [releasesIn_append, hquiet, releasesIn_map, List.nil_append]
  refine ⟨?_, ?_, ?_⟩
  · rwa [hreleases, hgranted]
  · rwa [hreleases, hgranted, hextracted, hunloaded, hloaded, hfailed]
  · rwa [hreleases, hfailed]

/-- A job that failed deposits all of its slots. -/
theorem Released.of_failed {trace : List Effect} (hquiet : releasesIn trace = [])
    {slots : List BusSlot} (hgranted : (grantedIn trace).Perm slots) :
    Released (trace ++ (depositAll slots).map .release) := by
  refine .of_quiet hquiet ((depositAll_perm slots).trans hgranted.symm) ?_ ?_
  · exact fun slot hslot => absurd hslot (free_not_mem_depositAll slot slots)
  · simp [depositAll]

theorem Fetching.granted_perm {job : Job} {tasks : List InputTask} {trace : List Effect}
    (h : Fetching job tasks trace) {outputs : List (Except String BusSlot)}
    (houtputs : results (tasks.map InputTask.output) = some outputs) :
    (grantedIn trace).Perm job.toFree := by
  have hsame := InputTask.flatMap_granted (results_ne_none houtputs)
  exact h.granted.trans (hsame ▸ h.held.symm)

theorem Acting.finish {job : Job} {tasks : List (Call × Option (Except String Unit))}
    {trace : List Effect} (h : Acting job tasks trace) {rs : List (Except String Unit)}
    (hrs : results (tasks.map Prod.snd) = some rs) :
    Released (trace ++ (match joinTasks rs with
      | .ok _ => job.plan.ending.releases job.toFree
      | .error _ => depositAll job.toFree).map .release) := by
  cases hjoin : joinTasks rs with
  | error e => exact .of_failed h.quiet h.granted
  | ok _ =>
    have hall := (joinTasks_results hrs).1 hjoin
    have hok : .failed ∉ trace := by
      rw [h.failed]
      rintro ⟨t, ht, e, he⟩
      rw [hall t ht] at he
      cases he
    have hunloaded : (unloadedIn trace).Perm (tasks.flatMap fun t => unloadedIn t.1.effects) := by
      refine h.unloaded.trans (.of_eq (List.flatMap_congr fun t ht => ?_))
      rw [hall t ht]
    refine .of_quiet h.quiet ((releases_perm ..).trans h.granted.symm) ?_ fun hf => absurd hf hok
    intro slot hslot
    refine ⟨hok, (sumOf_perm hunloaded slot).trans (h.sums slot), fun hnd hloaded => ?_⟩
    obtain ⟨hfirst, hending⟩ := h.loaded slot hloaded
    exact (free_mem_releases hslot).2 hending (h.granted.nodup_iff.mp hnd) hfirst

/-- The calls of a plan transfer out of the slots what the plan says for their inputs. -/
theorem unloads_calls {busSlots toFree : List BusSlot} (f : ℕ → BusSlot)
    (hf : ∀ i slot, busSlots[i]? = some slot → f i = slot) {actions : List Action}
    {calls : List Call} (h : actions.map (Action.call busSlots toFree) = calls.map some) :
    (calls.flatMap fun call => unloadedIn call.effects) =
      (actions.filterMap fun
        | .unload iInput size => some (iInput, size)
        | _ => none).map fun d => (f d.1, d.2) := by
  induction actions generalizing calls with
  | nil =>
    obtain rfl := List.map_eq_nil_iff.mp h.symm
    rfl
  | cons action actions ih =>
    cases calls with
    | nil => simp at h
    | cons call calls =>
      obtain ⟨hcall, hcalls⟩ := List.cons.inj h
      rw [List.flatMap_cons, ih hcalls]
      cases action with
      | unload iInput size =>
        obtain ⟨slot, hslot, rfl⟩ := Option.map_eq_some_iff.mp hcall
        rw [← hf iInput slot hslot]
        rfl
      | load size =>
        obtain ⟨slot, hslot, rfl⟩ := Option.map_eq_some_iff.mp hcall
        rfl
      | other =>
        obtain rfl := Option.some.inj hcall
        rfl

/-- Tasks that returned these slots extracted into them what they were made for. -/
theorem extracted_tasks {busSlots : List BusSlot} (f : ℕ → BusSlot)
    (hf : ∀ i slot, busSlots[i]? = some slot → f i = slot) {tasks : List InputTask}
    (hok : ∀ task ∈ tasks, task.Ok)
    (h : tasks.map InputTask.output = busSlots.map fun slot => some (.ok slot)) :
    tasks.flatMap InputTask.extracted = ((tasks.map fun task => (task.bus, task.sizes)).zipIdx.flatMap
      fun p => p.1.2.map (Prod.mk p.2)).map fun d => (f d.1, d.2) := by
  rw [List.map_flatMap, List.zipIdx_map, List.flatMap_map]
  refine List.flatMap_eq_zipIdx fun task i htask => ?_
  have houtput : (busSlots.map fun slot => some (Except.ok slot))[i]? = some task.output := by
    rw [← h, List.getElem?_map, htask]
    rfl
  rw [List.getElem?_map] at houtput
  obtain ⟨slot, hslot, heq⟩ := Option.map_eq_some_iff.mp houtput
  obtain ⟨-, -, -, hextracted, -⟩ :=
    InputTask.output_ok heq.symm (hok task (List.mem_of_getElem? htask))
  rw [hextracted, List.map_map]
  simp [hf i slot hslot]

theorem Fetching.join {job : Job} (hplan : job.plan.Balanced) {tasks : List InputTask}
    {trace : List Effect} (h : Fetching job tasks trace) {busSlots : List BusSlot}
    (houtputs : tasks.map InputTask.output = busSlots.map fun slot => some (.ok slot))
    {calls : List Call}
    (hcalls : job.plan.actions.map (Action.call busSlots job.toFree) = calls.map some) :
    Acting { job with phase := .acting (calls.map (·, none)) } (calls.map (·, none)) trace := by
  obtain ⟨hreleases, hunloaded, hloaded⟩ := h.quiet
  have hf : ∀ i slot, busSlots[i]? = some slot → busSlots.getD i (.item, 0) = slot :=
    fun i slot hslot => by simp [List.getD, hslot]
  refine ⟨?_, ?_, ?_, ?_, by simp [hloaded], ?_, hreleases⟩
  · have hresults : results (tasks.map InputTask.output) = some (busSlots.map .ok) := by
      rw [results_eq_some, houtputs, List.map_map]
      rfl
    exact h.granted_perm hresults
  · intro slot
    rw [List.flatMap_map, unloads_calls _ hf hcalls, sumOf_perm h.extracted,
      extracted_tasks _ hf h.ok houtputs, h.inputs]
    have hsame (i : ℕ) : sumOf i job.plan.unloads =
        sumOf i (job.plan.inputs.zipIdx.flatMap fun p => p.1.2.map (Prod.mk p.2)) := by
      have hsum := sumOf_zipIdx (fun input : BusKind × List ℤ => input.2) job.plan.inputs 0 i
      rw [zero_add] at hsum
      rw [hplan.sums i, hsum]
    exact sumOf_map_congr hsame (fun i => busSlots.getD i (.item, 0)) slot
  · rw [hunloaded]
    simp [List.flatMap_map]
  · intro t ht slot hslot
    obtain ⟨call, hcall, rfl⟩ := List.mem_map.mp ht
    obtain ⟨action, haction, heq⟩ :=
      List.mem_map.mp (hcalls ▸ List.mem_map.mpr ⟨call, hcall, rfl⟩ :
        some call ∈ job.plan.actions.map _)
    cases action with
    | unload iInput size =>
      obtain ⟨_, -, rfl⟩ := Option.map_eq_some_iff.mp heq
      simp [loadedIn, Call.effects] at hslot
    | load size =>
      obtain ⟨first, hfirst, rfl⟩ := Option.map_eq_some_iff.mp heq
      obtain rfl : slot = first := by simpa [loadedIn, Call.effects] using hslot
      exact ⟨hfirst, (hplan.nonempty size haction).2⟩
    | other =>
      obtain rfl := Option.some.inj heq
      simp [loadedIn, Call.effects] at hslot
  · rw [h.failed]
    constructor
    · rintro ⟨task, htask, hfailed⟩
      obtain ⟨slot, -, heq⟩ := List.mem_map.mp (houtputs ▸ List.mem_map.mpr ⟨task, htask, rfl⟩ :
        task.output ∈ busSlots.map fun slot => some (.ok slot))
      exact absurd hfailed (InputTask.output_ok heq.symm (h.ok task htask)).1
    · rintro ⟨t, ht, e, he⟩
      obtain ⟨call, -, rfl⟩ := List.mem_map.mp ht
      cases he

/-- What one step of a job preserves. -/
theorem Job.Inv.step {job job' : Job} (hplan : job.plan.Balanced) {trace effects : List Effect}
    {e : JobEvent} (h : job.Inv trace) (hstep : job.step e = some (job', effects)) :
    job'.Inv (trace ++ effects) ∧ job'.plan = job.plan := by
  cases Job.step_stepped hstep with
  | input hphase hi hstep =>
    rw [Job.Inv, hphase] at h
    exact ⟨Fetching.input h hi (InputTask.step_stepped hstep), rfl⟩
  | refused hphase houtputs hjoin =>
    rw [Job.Inv, hphase] at h
    exact ⟨.of_failed h.quiet.1 (h.granted_perm houtputs), rfl⟩
  | joined hphase houtputs hcalls =>
    rw [Job.Inv, hphase] at h
    rw [List.append_nil]
    exact ⟨Fetching.join hplan h houtputs hcalls, rfl⟩
  | acted hphase hj result =>
    rw [Job.Inv, hphase] at h
    exact ⟨Acting.acted h hj result, rfl⟩
  | finished hphase hrs =>
    rw [Job.Inv, hphase] at h
    exact ⟨Acting.finish h hrs, rfl⟩

theorem Job.Inv.run {job job' : Job} (hplan : job.plan.Balanced) {trace effects : List Effect}
    {es : List JobEvent} (h : job.Inv trace) (hrun : job.run es = some (job', effects)) :
    job'.Inv (trace ++ effects) ∧ job'.plan = job.plan := by
  induction es generalizing job trace effects with
  | nil =>
    obtain ⟨rfl, rfl⟩ := Prod.mk.inj (Option.some.inj hrun)
    exact ⟨by rwa [List.append_nil], rfl⟩
  | cons e es ih =>
    rw [Job.run] at hrun
    split at hrun
    · cases hrun
    · rename_i next first hstep
      obtain ⟨⟨last, rest⟩, hrest, heq⟩ := Option.map_eq_some_iff.mp hrun
      obtain ⟨rfl, rfl⟩ := Prod.mk.inj heq
      obtain ⟨hnext, hsame⟩ := h.step hplan hstep
      obtain ⟨hlast, hplan'⟩ := ih (hsame ▸ hplan) hnext hrest
      rw [← List.append_assoc]
      exact ⟨hlast, hplan'.trans hsame⟩

end OCRemote
