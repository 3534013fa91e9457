import Mathlib.Data.List.Basic
import OCRemote.Factory.Bus

/-! What a job does with the buses. It asks for slots and extracts into those it is granted, waits
for all of that, has a group of actions executed, and gives its slots back. The jobs of the
processes differ in what they extract and transfer, and in how they end. -/

namespace OCRemote

/-! `join_tasks` and `join_outputs` (`util.rs`). -/

def addOutput {α : Type} :
    Except (List String) (List α) → Except String α → Except (List String) (List α)
  | .error result, .error e => .error (result ++ ["; ", e])
  | .error result, .ok _ => .error result
  | .ok _, .error e => .error [e]
  | .ok result, .ok output => .ok (result ++ [output])

def joinOutputs {α : Type} (tasks : List (Except String α)) : Except String (List α) :=
  (tasks.foldl addOutput (.ok [])).mapError String.join

def joinTasks (tasks : List (Except String Unit)) : Except String Unit :=
  (joinOutputs tasks).map fun _ => ()

/-- The results of tasks that have all ended. -/
def results {α : Type} : List (Option α) → Option (List α)
  | [] => some []
  | none :: _ => none
  | some result :: tasks => (results tasks).map fun rest => result :: rest

theorem results_eq_some {α : Type} {tasks : List (Option α)} {rs : List α} :
    results tasks = some rs ↔ tasks = rs.map some := by
  induction tasks generalizing rs with
  | nil => cases rs <;> simp [results]
  | cons task tasks ih =>
    cases task with
    | none => cases rs <;> simp [results]
    | some r => cases rs <;> simp [results, ih, and_comm]

theorem results_ne_none {α β : Type} {tasks : List α} {f : α → Option β} {outputs : List β}
    (h : results (tasks.map f) = some outputs) : ∀ task ∈ tasks, f task ≠ none := by
  intro task htask
  have hmem : f task ∈ outputs.map some :=
    results_eq_some.mp h ▸ List.mem_map.mpr ⟨task, htask, rfl⟩
  obtain ⟨output, -, houtput⟩ := List.mem_map.mp hmem
  rw [← houtput]
  nofun

theorem foldl_addOutput_error {α : Type} (tasks : List (Except String α)) (es : List String) :
    ∃ es', tasks.foldl addOutput (.error es) = .error es' := by
  induction tasks generalizing es with
  | nil => exact ⟨es, rfl⟩
  | cons task tasks ih => cases task <;> exact ih _

theorem foldl_addOutput_ok {α : Type} {tasks : List (Except String α)} {before outputs : List α} :
    tasks.foldl addOutput (.ok before) = .ok outputs ↔
      ∃ rest, tasks = rest.map .ok ∧ outputs = before ++ rest := by
  induction tasks generalizing before with
  | nil =>
    refine ⟨fun h => ⟨[], rfl, ?_⟩, ?_⟩
    · rw [List.append_nil]
      exact (Except.ok.inj h).symm
    · rintro ⟨rest, hrest, rfl⟩
      obtain rfl := List.map_eq_nil_iff.mp hrest.symm
      rw [List.append_nil]
      rfl
  | cons task tasks ih =>
    rw [List.foldl_cons]
    cases task with
    | error e =>
      obtain ⟨es, hes⟩ := foldl_addOutput_error tasks [e]
      constructor
      · intro h
        rw [addOutput, hes] at h
        cases h
      · rintro ⟨rest, hrest, -⟩
        cases rest <;> simp at hrest
    | ok output =>
      rw [addOutput, ih]
      constructor
      · rintro ⟨rest, rfl, rfl⟩
        exact ⟨output :: rest, rfl, by simp⟩
      · rintro ⟨rest, hrest, rfl⟩
        cases rest with
        | nil => simp at hrest
        | cons first rest =>
          obtain ⟨rfl, rfl⟩ : output = first ∧ tasks = rest.map .ok := by simpa using hrest
          exact ⟨rest, rfl, by simp⟩

/-- Tasks that are joined succeed together. -/
theorem joinOutputs_eq_ok {α : Type} {tasks : List (Except String α)} {outputs : List α} :
    joinOutputs tasks = .ok outputs ↔ tasks = outputs.map .ok := by
  unfold joinOutputs
  cases h : tasks.foldl addOutput (.ok []) with
  | error es =>
    constructor
    · intro h'
      cases h'
    · intro h'
      rw [foldl_addOutput_ok.mpr ⟨outputs, h', rfl⟩] at h
      cases h
  | ok found =>
    obtain ⟨rest, rfl, hrest⟩ := foldl_addOutput_ok.mp h
    obtain rfl : found = rest := hrest
    constructor
    · intro h'
      rw [Except.ok.inj h']
    · intro h'
      rw [List.map_injective_iff.mpr (fun _ _ => Except.ok.inj) h']
      rfl

theorem joinTasks_eq_ok {tasks : List (Except String Unit)} :
    joinTasks tasks = .ok () ↔ ∀ task ∈ tasks, task = .ok () := by
  unfold joinTasks
  constructor
  · intro h task htask
    cases hjoin : joinOutputs tasks with
    | error e => simp [hjoin, Except.map] at h
    | ok outputs =>
      rw [joinOutputs_eq_ok.mp hjoin] at htask
      obtain ⟨_, -, rfl⟩ := List.mem_map.mp htask
      rfl
  · intro h
    have hall : tasks = (tasks.map fun _ => ()).map .ok := by
      rw [List.map_map]
      exact (List.map_id tasks).symm.trans (List.map_congr_left h)
    rw [joinOutputs_eq_ok.mpr hall]
    rfl

/-- What ended well or not, when all of it is joined. -/
theorem joinTasks_results {α : Type} {tasks : List (α × Option (Except String Unit))}
    {rs : List (Except String Unit)} (h : results (tasks.map Prod.snd) = some rs) :
    (joinTasks rs = .ok () → ∀ t ∈ tasks, t.2 = some (.ok ())) ∧
    ∀ e, joinTasks rs = .error e → ∃ t ∈ tasks, ∃ e, t.2 = some (.error e) := by
  rw [results_eq_some] at h
  have hsome (t : α × Option (Except String Unit)) (ht : t ∈ tasks) : ∃ r ∈ rs, t.2 = some r := by
    have hmem : t.2 ∈ rs.map some := h ▸ List.mem_map.mpr ⟨t, ht, rfl⟩
    obtain ⟨r, hr, heq⟩ := List.mem_map.mp hmem
    exact ⟨r, hr, heq.symm⟩
  constructor
  · intro hok t ht
    obtain ⟨r, hr, heq⟩ := hsome t ht
    rw [heq, joinTasks_eq_ok.mp hok r hr]
  · intro e he
    by_contra hnone
    have hall : joinTasks rs = .ok () := by
      refine joinTasks_eq_ok.mpr fun r hr => ?_
      obtain ⟨t, ht, heq⟩ := List.mem_map.mp (h ▸ List.mem_map.mpr ⟨r, hr, rfl⟩ :
        some r ∈ tasks.map Prod.snd)
      cases r with
      | ok _ => rfl
      | error e => exact absurd ⟨t, ht, e, heq⟩ hnone
    rw [hall] at he
    cases he

inductive BusKind where
  | item
  | fluid
  deriving DecidableEq

/-- A slot of one of the buses. -/
abbrev BusSlot := BusKind × ℕ

/-- A request of the group that a job has executed. -/
inductive Action where
  /-- A transfer out of the slot for the input of this index. -/
  | unload (iInput : ℕ) (size : ℤ)
  /-- A transfer into the slot that was granted first, of so much if that is said. -/
  | load (size : Option ℤ)
  | other
  deriving DecidableEq

/-- Which slots are given to `bus_free` when all went well. The others are for `bus_deposit`. -/
inductive Ending where
  | free
  | freeButFirst
  | deposit
  deriving DecidableEq

/-- The slots that a job asks for, with what is extracted into each, and what it does with them. -/
structure JobPlan where
  inputs : List (BusKind × List ℤ)
  actions : List Action
  ending : Ending

inductive InputState where
  /-- Has not called `bus_allocate`, which some jobs leave to the first poll of their tasks. -/
  | fresh
  | waiting
  /-- The request was answered and the task was not polled since. -/
  | answered (result : Except String ℕ)
  | refused (e : String)
  /-- Has a slot, and a task for each amount that is extracted into it. -/
  | extracting (slot : ℕ) (tasks : List (ℤ × Option (Except String Unit)))
  deriving DecidableEq

/-- The task for an input. -/
structure InputTask where
  bus : BusKind
  sizes : List ℤ
  state : InputState
  deriving DecidableEq

/-- An action as it is sent, for the slots that were granted. -/
inductive Call where
  | unload (slot : BusSlot) (size : ℤ)
  | load (slot : BusSlot) (size : Option ℤ)
  | other
  deriving DecidableEq

inductive Phase where
  | fetching (tasks : List InputTask)
  | acting (tasks : List (Call × Option (Except String Unit)))
  | finished (result : Except String Unit)
  deriving DecidableEq

/-- `toFree` is `slots_to_free`, together with `fluid_buses_to_free`. -/
structure Job where
  plan : JobPlan
  phase : Phase
  toFree : List BusSlot

inductive Release where
  | free (slot : BusSlot)
  | deposit (bus : BusKind) (slots : List ℕ)
  deriving DecidableEq

/-- What a step does that the rest of the program sees. -/
inductive Effect where
  | asked (bus : BusKind) (iInput : ℕ)
  | granted (slot : BusSlot)
  | extracted (slot : BusSlot) (size : ℤ)
  | unloaded (slot : BusSlot) (size : ℤ)
  | loaded (slot : BusSlot)
  | failed
  | release (r : Release)
  deriving DecidableEq

inductive InputEvent where
  | allocate
  | answer (result : Except String ℕ)
  | poll
  /-- An extraction ends. -/
  | extracted (j : ℕ) (result : Except String Unit)
  deriving DecidableEq

inductive JobEvent where
  | input (i : ℕ) (e : InputEvent)
  /-- `join_outputs` has all results. -/
  | join
  /-- An action ends. -/
  | acted (j : ℕ) (result : Except String Unit)
  /-- `join_tasks` has all results. -/
  | finish
  deriving DecidableEq

namespace InputTask

/-- What the task returns, once it has. -/
def output (task : InputTask) : Option (Except String BusSlot) :=
  match task.state with
  | .refused e => some (.error e)
  | .extracting slot tasks =>
    (results (tasks.map Prod.snd)).map fun rs => (joinTasks rs).map fun _ => (task.bus, slot)
  | _ => none

/-- A step of the task, with the slots that it adds to those that are to be freed. -/
def step (task : InputTask) (i : ℕ) : InputEvent → Option (InputTask × List BusSlot × List Effect)
  | .allocate =>
    match task.state with
    | .fresh => some ({ task with state := .waiting }, [], [.asked task.bus i])
    | _ => none
  | .answer result =>
    match task.state, result with
    | .waiting, .ok slot =>
      some ({ task with state := .answered (.ok slot) }, [], [.granted (task.bus, slot)])
    | .waiting, .error e => some ({ task with state := .answered (.error e) }, [], [.failed])
    | _, _ => none
  | .poll =>
    match task.state with
    | .answered (.ok slot) =>
      some ({ task with state := .extracting slot (task.sizes.map (·, none)) }, [(task.bus, slot)], [])
    | .answered (.error e) => some ({ task with state := .refused e }, [], [])
    | _ => none
  | .extracted j result =>
    match task.state with
    | .extracting slot tasks =>
      match tasks[j]? with
      | some (size, none) =>
        some ({ task with state := .extracting slot (tasks.set j (size, some result)) }, [],
          match result with
          | .ok _ => [.extracted (task.bus, slot) size]
          | .error _ => [.failed])
      | _ => none
    | _ => none

end InputTask

/-- The call for an action. No value means that an index was out of bounds. -/
def Action.call (busSlots toFree : List BusSlot) : Action → Option Call
  | .unload iInput size => busSlots[iInput]?.map fun slot => .unload slot size
  | .load size => toFree[0]?.map fun slot => .load slot size
  | .other => some .other

def Call.effects : Call → List Effect
  | .unload slot size => [.unloaded slot size]
  | .load slot _ => [.loaded slot]
  | .other => []

/-- The slots of one bus. -/
def ofBus (bus : BusKind) (slots : List BusSlot) : List ℕ :=
  (slots.filter fun slot => slot.1 = bus).map Prod.snd

def depositAll (slots : List BusSlot) : List Release :=
  [.deposit .item (ofBus .item slots), .deposit .fluid (ofBus .fluid slots)]

/-- What is released when all went well. -/
def Ending.releases (toFree : List BusSlot) : Ending → List Release
  | .free => (toFree.filter fun slot => slot.1 = .item).map .free ++
      (toFree.filter fun slot => slot.1 = .fluid).map .free
  | .freeButFirst => (toFree.drop 1).reverse.map .free ++ depositAll (toFree.take 1)
  | .deposit => depositAll toFree

namespace Job

def start (plan : JobPlan) : Job where
  plan := plan
  phase := .fetching (plan.inputs.map fun input => ⟨input.1, input.2, .fresh⟩)
  toFree := []

/-- A step of a job. No value means that it cannot be taken, or that it panics. -/
def step (job : Job) : JobEvent → Option (Job × List Effect)
  | .input i e =>
    match job.phase with
    | .fetching tasks =>
      match tasks[i]? with
      | none => none
      | some task => (task.step i e).map fun r =>
          ({ job with phase := .fetching (tasks.set i r.1), toFree := job.toFree ++ r.2.1 }, r.2.2)
    | _ => none
  | .join =>
    match job.phase with
    | .fetching tasks =>
      match results (tasks.map InputTask.output) with
      | none => none
      | some outputs =>
        match joinOutputs outputs with
        | .error e => some ({ job with phase := .finished (.error e) },
            (depositAll job.toFree).map .release)
        | .ok busSlots =>
          match results (job.plan.actions.map (Action.call busSlots job.toFree)) with
          | none => none
          | some calls => some ({ job with phase := .acting (calls.map (·, none)) }, [])
    | _ => none
  | .acted j result =>
    match job.phase with
    | .acting tasks =>
      match tasks[j]? with
      | some (call, none) =>
        some ({ job with phase := .acting (tasks.set j (call, some result)) },
          match result with
          | .ok _ => call.effects
          | .error _ => [.failed])
      | _ => none
    | _ => none
  | .finish =>
    match job.phase with
    | .acting tasks =>
      match results (tasks.map Prod.snd) with
      | none => none
      | some rs =>
        some ({ job with phase := .finished (joinTasks rs) },
          (match joinTasks rs with
            | .ok _ => job.plan.ending.releases job.toFree
            | .error _ => depositAll job.toFree).map .release)
    | _ => none

/-- The steps of a job, one by one. -/
inductive Stepped (job : Job) : JobEvent → Job → List Effect → Prop where
  | input {tasks : List InputTask} (hphase : job.phase = .fetching tasks) {i : ℕ}
      {task task' : InputTask}
      (hi : tasks[i]? = some task) {e : InputEvent} {pushed : List BusSlot} {effects : List Effect}
      (hstep : task.step i e = some (task', pushed, effects)) :
      Stepped job (.input i e)
        { job with phase := .fetching (tasks.set i task'), toFree := job.toFree ++ pushed } effects
  | refused {tasks : List InputTask} (hphase : job.phase = .fetching tasks)
      {outputs : List (Except String BusSlot)}
      (houtputs : results (tasks.map InputTask.output) = some outputs) {e : String}
      (hjoin : joinOutputs outputs = .error e) :
      Stepped job .join { job with phase := .finished (.error e) }
        ((depositAll job.toFree).map .release)
  | joined {tasks : List InputTask} (hphase : job.phase = .fetching tasks) {busSlots : List BusSlot}
      (houtputs : tasks.map InputTask.output = busSlots.map fun slot => some (.ok slot))
      {calls : List Call}
      (hcalls : job.plan.actions.map (Action.call busSlots job.toFree) = calls.map some) :
      Stepped job .join { job with phase := .acting (calls.map (·, none)) } []
  | acted {tasks : List (Call × Option (Except String Unit))} (hphase : job.phase = .acting tasks)
      {j : ℕ} {call : Call} (hj : tasks[j]? = some (call, none)) (result : Except String Unit) :
      Stepped job (.acted j result)
        { job with phase := .acting (tasks.set j (call, some result)) }
        (match result with
          | .ok _ => call.effects
          | .error _ => [.failed])
  | finished {tasks : List (Call × Option (Except String Unit))} (hphase : job.phase = .acting tasks)
      {rs : List (Except String Unit)} (hrs : results (tasks.map Prod.snd) = some rs) :
      Stepped job .finish { job with phase := .finished (joinTasks rs) }
        ((match joinTasks rs with
          | .ok _ => job.plan.ending.releases job.toFree
          | .error _ => depositAll job.toFree).map .release)

theorem step_stepped {job job' : Job} {e : JobEvent} {effects : List Effect}
    (h : job.step e = some (job', effects)) : Stepped job e job' effects := by
  cases e with
  | input i e =>
    simp only [step] at h
    split at h
    · rename_i tasks hphase
      split at h
      · cases h
      · rename_i task hi
        obtain ⟨⟨task', pushed, effects'⟩, hstep, heq⟩ := Option.map_eq_some_iff.mp h
        obtain ⟨rfl, rfl⟩ := Prod.mk.inj heq
        exact .input hphase hi hstep
    · cases h
  | join =>
    simp only [step] at h
    split at h
    · rename_i tasks hphase
      split at h
      · cases h
      · rename_i outputs houtputs
        split at h
        · rename_i e hjoin
          obtain ⟨rfl, rfl⟩ := Prod.mk.inj (Option.some.inj h)
          exact .refused hphase houtputs hjoin
        · rename_i busSlots hjoin
          split at h
          · cases h
          · rename_i calls hcalls
            obtain ⟨rfl, rfl⟩ := Prod.mk.inj (Option.some.inj h)
            have hslots : tasks.map InputTask.output =
                busSlots.map fun slot => some (.ok slot) := by
              rw [results_eq_some.mp houtputs, joinOutputs_eq_ok.mp hjoin, List.map_map]
              rfl
            exact .joined hphase hslots (results_eq_some.mp hcalls)
    · cases h
  | acted j result =>
    simp only [step] at h
    split at h
    · rename_i tasks hphase
      split at h
      · rename_i call hj
        obtain ⟨rfl, rfl⟩ := Prod.mk.inj (Option.some.inj h)
        exact .acted hphase hj result
      · cases h
    · cases h
  | finish =>
    simp only [step] at h
    split at h
    · rename_i tasks hphase
      split at h
      · cases h
      · rename_i rs hrs
        obtain ⟨rfl, rfl⟩ := Prod.mk.inj (Option.some.inj h)
        exact .finished hphase hrs
    · cases h

def run : Job → List JobEvent → Option (Job × List Effect)
  | job, [] => some (job, [])
  | job, e :: es =>
    match job.step e with
    | none => none
    | some (job, effects) => (run job es).map fun r => (r.1, effects ++ r.2)

end Job
end OCRemote
