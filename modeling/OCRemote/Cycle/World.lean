import Mathlib.Logic.Function.Basic
import OCRemote.Process.Job

/-! `factory_main` as a transition system. In a cycle the storages are updated, the processes run
and start jobs, and the updaters of the two buses are waited for before the storages and the tables
are cleared. Whatever is waited for may succeed or fail. -/

namespace OCRemote
namespace Cycle

/-- A sender in one of the wait queues, named by the input of a job that has the receiver. -/
@[ext]
structure Request where
  bus : BusKind
  job : ℕ
  input : ℕ
  deriving DecidableEq

/-- Where `bus_main` or `fluid_bus_main` is. -/
inductive Updater where
  | idle
  | spawned
  /-- Waits for what is on the bus. -/
  | listing
  /-- Waits for the deposits that it started in the cycle `born`. The fluid bus gives out the buses
  that it has emptied after that. -/
  | depositing (born : ℕ) (emptied : List ℕ) (tasks : List (Option (Except String Unit)))
  deriving DecidableEq

/-- One of the buses, with its updater. -/
structure Side where
  bus : Bus Request
  updater : Updater
  /-- `factory_main` has taken the updater and waits for it. -/
  awaited : Bool
  /-- The last update succeeded. -/
  updated : Bool
  /-- An updater was spawned while there was one. -/
  doubled : Bool

/-- A process of this cycle. -/
inductive Process where
  /-- Waits for what it has listed, or for anything else that is not a job. -/
  | waiting
  /-- Waits for its jobs. -/
  | working
  | ended (result : Except String Unit)
  deriving DecidableEq

def Process.result : Process → Option (Except String Unit)
  | .ended result => some result
  | _ => none

/-- A job, with the process and the cycle that it was started in. -/
structure Started where
  process : ℕ
  born : ℕ
  job : Job

def Started.result (s : Started) : Option (Except String Unit) :=
  match s.job.phase with
  | .finished result => some result
  | _ => none

/-- Where `factory_main` is. -/
inductive Main where
  | sleeping
  /-- Waits for the updates of the storages. -/
  | updating (tasks : List (Option (Except String Unit)))
  /-- Waits for the processes. -/
  | running
  /-- Waits for the updaters. -/
  | awaiting
  deriving DecidableEq

/-- An access to the chests and the tables by an extraction or a deposit that was made in the cycle
`born`, in the cycle `cycle`. -/
structure Touch where
  born : ℕ
  cycle : ℕ
  cleared : Bool
  deriving DecidableEq

structure World where
  main : Main
  /-- How often the storages and the tables were cleared. -/
  cycle : ℕ
  /-- They were cleared and no update of the storages was started since. -/
  cleared : Bool
  processes : List Process
  jobs : List Started
  side : BusKind → Side
  touches : List Touch

def start : World where
  main := .sleeping
  cycle := 0
  cleared := true
  processes := []
  jobs := []
  side _ := ⟨.new, .idle, false, true, false⟩
  touches := []

/-- The numbers of storages and of processes, and whether there are accesses to the fluid bus. -/
structure Config where
  nStorages : ℕ
  nProcesses : ℕ
  fluidBus : Bool

inductive Event where
  | wake
  /-- The update of a storage ends. -/
  | updated (i : ℕ) (result : Except String Unit)
  | joinUpdates
  /-- A process ends without jobs. -/
  | ended (p : ℕ) (result : Except String Unit)
  | starts (p : ℕ) (plans : List JobPlan)
  | job (j : ℕ) (e : JobEvent)
  | joinJobs (p : ℕ)
  | joinProcesses
  | poll (bus : BusKind)
  /-- The updater learns what is on the bus: for each slot nothing, or how many transfers it takes
  to deposit what is there. -/
  | listed (bus : BusKind) (slots : List (Option ℕ))
  | listFailed (bus : BusKind) (e : String)
  | deposited (bus : BusKind) (i : ℕ) (result : Except String Unit)
  | joinDeposits (bus : BusKind)
  | endOfCycle

namespace Side

/-- `spawn(bus_main(..))` -/
def spawn (s : Side) : Side :=
  if s.updater = .idle then { s with updater := .spawned } else { s with doubled := true }

/-- A job has called a function of the bus, which spawns the updater if there is no handle of it. -/
def wake (s : Side) (bus : Bus Request) : Side :=
  if bus.busTask && !s.bus.busTask then { s with bus := bus }.spawn else { s with bus := bus }

/-- The end of `bus_main`. -/
def stop (s : Side) (bus : Bus Request) (updated : Bool) : Side where
  bus := { bus with busTask := false }
  updater := .idle
  awaited := false
  updated := updated
  doubled := s.doubled

/-- What `factory_main` does with the handle after a cycle that went well or not. -/
def take (s : Side) (ok : Bool) : Side :=
  if s.bus.busTask then { s with bus := { s.bus with busTask := false }, awaited := true }
  else if ok && s.bus.nBusUpdates = 0 then { s.spawn with awaited := true }
  else s

end Side

namespace World

def setSide (w : World) (k : BusKind) (s : Side) : World :=
  { w with side := Function.update w.side k s }

def setBus (w : World) (k : BusKind) (bus : Bus Request) : World :=
  w.setSide k { w.side k with bus := bus }

/-- `send`. What is sent to a receiver that does not wait is lost. -/
def deliver (w : World) (r : Request) (result : Except String ℕ) : World :=
  match w.jobs[r.job]? with
  | none => w
  | some s =>
    match s.job.step (.input r.input (.answer result)) with
    | none => w
    | some (job, _) => { w with jobs := w.jobs.set r.job { s with job := job } }

def release (w : World) : Release → World
  | .free (k, slot) =>
    match (w.side k).bus.free slot with
    | (bus, some request) => (w.setBus k bus).deliver request (.ok slot)
    | (bus, none) => w.setBus k bus
  | .deposit k slots => w.setSide k ((w.side k).wake ((w.side k).bus.deposit slots))

/-- What a step of a job does to the buses. -/
def effect (j : ℕ) (w : World) : Effect → World
  | .asked k i => w.setSide k ((w.side k).wake ((w.side k).bus.allocate ⟨k, j, i⟩))
  | .release r => w.release r
  | _ => w

/-- The extractions of a reservation begin, or one of them ends. -/
def isExtraction : JobEvent → Bool
  | .input _ .poll | .input _ (.extracted _ _) => true
  | _ => false

/-- Requests are answered by the buses. -/
def isAnswer : JobEvent → Bool
  | .input _ (.answer _) => true
  | _ => false

def touch (w : World) (born n : ℕ) : World :=
  { w with touches := w.touches ++ List.replicate n ⟨born, w.cycle, w.cleared⟩ }

def stepJob (w : World) (j : ℕ) (e : JobEvent) : Option World :=
  if isAnswer e then none
  else
    match w.jobs[j]? with
    | none => none
    | some s => (s.job.step e).map fun r =>
        r.2.foldl (effect j) ({ w with jobs := w.jobs.set j { s with job := r.1 } }.touch s.born
          (if isExtraction e then 1 else 0))

section
variable (cfg : Config)

/-- The beginning of `bus_update`. That of `fluid_bus_update` returns without accesses. -/
def beginUpdate (w : World) (k : BusKind) : World :=
  let bus := { (w.side k).bus with nBusUpdates := (w.side k).bus.nBusUpdates + 1 }
  if k = .fluid && !cfg.fluidBus then w.setSide k ((w.side k).stop bus true)
  else w.setSide k { w.side k with bus := bus, updater := .listing }

/-- Free slots are given to requests. -/
def give (w : World) (k : BusKind) (slots : List ℕ) : World :=
  ((w.side k).bus.giveOut slots).2.foldl (fun w grant => w.deliver grant.1 (.ok grant.2))
    (w.setBus k ((w.side k).bus.giveOut slots).1)

def failText : BusKind → String
  | .item => "bus update failed: "
  | .fluid => "fluid bus failed: "

/-- An update that fails. -/
def failUpdate (w : World) (k : BusKind) (e : String) : World :=
  (w.side k).bus.busWaitQueue.foldl (fun w request => w.deliver request (.error (failText k ++ e)))
    (w.setSide k ((w.side k).stop (w.side k).bus.abort false))

/-- The end of an update, from where it has drained the queue of freed slots. -/
def conclude (w : World) (k : BusKind) (everDeposited : Bool) : World :=
  let r := (w.side k).bus.drain
  if r.2 || (k = .item && everDeposited && !r.1.busWaitQueue.isEmpty) then
    beginUpdate cfg (w.setBus k r.1) k
  else w.setSide k ((w.side k).stop r.1 true)

/-- The slots that nobody has, with what is there. -/
def idleSlots (allocations : Finset ℕ) (slots : List (Option ℕ)) : List (Option ℕ × ℕ) :=
  slots.zipIdx.filter fun p => p.2 ∉ allocations

def freeSlots (allocations : Finset ℕ) (slots : List (Option ℕ)) : List ℕ :=
  ((idleSlots allocations slots).filter fun p => p.1 = none).map Prod.snd

/-- The slots that are emptied. -/
def fullSlots (allocations : Finset ℕ) (slots : List (Option ℕ)) : List ℕ :=
  ((idleSlots allocations slots).filter fun p => p.1 ≠ none).map Prod.snd

def nDeposits (allocations : Finset ℕ) (slots : List (Option ℕ)) : ℕ :=
  ((idleSlots allocations slots).map fun p => p.1.getD 0).sum

/-- The middle of an update. With no deposits there is nothing to wait for. -/
def onListed (w : World) (k : BusKind) (slots : List (Option ℕ)) : World :=
  let allocations := (w.side k).bus.busAllocations
  let n := nDeposits allocations slots
  let emptied := if k = .fluid then fullSlots allocations slots else []
  let w := (w.touch w.cycle n).give k (freeSlots allocations slots)
  if n = 0 then conclude cfg (w.give k emptied) k false
  else
    w.setSide k
      { w.side k with updater := .depositing w.cycle emptied (List.replicate n none) }

/-- What `factory_main` does after a cycle that went well or not. -/
def takeUpdaters (w : World) (ok : Bool) : World :=
  { w with main := .awaiting, side := fun k => (w.side k).take ok }

def step (w : World) : Event → Option World
  | .wake =>
    if w.main = .sleeping then
      some { w with
        main := .updating (List.replicate cfg.nStorages none)
        cleared := false
        side := fun k => { w.side k with bus := { (w.side k).bus with nBusUpdates := 0 } } }
    else none
  | .updated i result =>
    match w.main with
    | .updating tasks =>
      if tasks[i]? = some none then some { w with main := .updating (tasks.set i (some result)) }
      else none
    | _ => none
  | .joinUpdates =>
    match w.main with
    | .updating tasks =>
      match results tasks with
      | none => none
      | some rs =>
        match joinTasks rs with
        | .ok _ => some { w with
            main := .running
            processes := List.replicate cfg.nProcesses .waiting }
        | .error _ => some (w.takeUpdaters false)
    | _ => none
  | .ended p result =>
    if w.processes[p]? = some .waiting then
      some { w with processes := w.processes.set p (.ended result) }
    else none
  | .starts p plans =>
    if w.processes[p]? = some .waiting then
      some { w with
        processes := w.processes.set p .working
        jobs := w.jobs ++ plans.map fun plan => ⟨p, w.cycle, Job.start plan⟩ }
    else none
  | .job j e => w.stepJob j e
  | .joinJobs p =>
    if w.processes[p]? = some .working then
      (results ((w.jobs.filter fun s => s.born = w.cycle && s.process = p).map
        Started.result)).map fun rs =>
          { w with processes := w.processes.set p (.ended (joinTasks rs)) }
    else none
  | .joinProcesses =>
    if w.main = .running then
      (results (w.processes.map Process.result)).map fun rs =>
        w.takeUpdaters (joinTasks rs).isOk
    else none
  | .poll k => if (w.side k).updater = .spawned then some (w.beginUpdate cfg k) else none
  | .listed k slots =>
    if (w.side k).updater = .listing then some (w.onListed cfg k slots) else none
  | .listFailed k e => if (w.side k).updater = .listing then some (w.failUpdate k e) else none
  | .deposited k i result =>
    match (w.side k).updater with
    | .depositing born emptied tasks =>
      if tasks[i]? = some none then
        some ((w.touch born 1).setSide k
          { w.side k with updater := .depositing born emptied (tasks.set i (some result)) })
      else none
    | _ => none
  | .joinDeposits k =>
    match (w.side k).updater with
    | .depositing _ emptied tasks =>
      (results tasks).map fun rs =>
        match joinTasks rs with
        | .ok _ => (w.give k emptied).conclude cfg k (!tasks.isEmpty)
        | .error e => w.failUpdate k e
    | _ => none
  | .endOfCycle =>
    if w.main = .awaiting ∧ (w.side .item).awaited = false ∧ (w.side .fluid).awaited = false then
      some { w with main := .sleeping, cycle := w.cycle + 1, cleared := true }
    else none

def run (es : List Event) : Option World := es.foldlM (step cfg) start

end
end World
end Cycle
end OCRemote
