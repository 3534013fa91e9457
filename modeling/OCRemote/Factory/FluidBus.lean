import OCRemote.Factory.Bus
import OCRemote.Factory.FluidStorage
import OCRemote.Lib.Machine

/-! The fluid bus as a transition system. `fluid_bus_update` gives out buses twice: those that it
sees empty before it waits for its deposits, and those that it has emptied after that. -/

namespace OCRemote

/-- What `or_insert` and `+=` do to the entry of a fluid. -/
def addFluid (fluid : String) (slot : ℕ) (qty : ℤ) : List (String × ℕ × ℤ) → List (String × ℕ × ℤ)
  | [] => [(fluid, slot, qty)]
  | e :: es => if e.1 = fluid then (e.1, e.2.1, e.2.2 + qty) :: es else e :: addFluid fluid slot qty es

def addTanksToFluidMap : ℕ → List Tank → List (String × ℕ × ℤ) → List (String × ℕ × ℤ)
  | _, [], result => result
  | slot, tank :: tanks, result =>
    match tank.fluid with
    | none => addTanksToFluidMap (slot + 1) tanks result
    | some fluid => addTanksToFluidMap (slot + 1) tanks (addFluid fluid slot tank.qty result)

def tanksToFluidMap (tanks : List Tank) : List (String × ℕ × ℤ) := addTanksToFluidMap 0 tanks []

/-- The tanks of a bus as they are read, and their fluids in the order of the hash map. -/
structure Listed where
  tanks : List Tank
  fluids : List (String × ℕ × ℤ)
  read : ∀ tank ∈ tanks, tank.fluid ≠ none → 0 < tank.qty
  perm : fluids.Perm (tanksToFluidMap tanks)

namespace FluidBus

/-- A transfer from a tank of a bus to a storage. -/
structure Transfer where
  bus : ℕ
  slot : ℕ
  storage : ℕ
  nDeposited : ℤ
  deriving DecidableEq

/-- Where `fluid_bus_main` is. -/
inductive Updater where
  | idle
  | spawned
  | reading
  /-- Waits for its deposits, with `empty_buses_after_deposit`, and knows whether one failed. -/
  | depositing (emptied : List ℕ) (tasks : List Transfer) (failed : Bool)
  deriving DecidableEq

def Updater.emptied : Updater → List ℕ
  | .depositing emptied _ _ => emptied
  | _ => []

def Updater.tasks : Updater → List Transfer
  | .depositing _ tasks _ => tasks
  | _ => []

def Updater.failed : Updater → Bool
  | .depositing _ _ failed => failed
  | _ => false

structure World where
  bus : Bus ℕ
  updater : Updater
  storages : List FluidStorage
  /-- The requests that were granted, each with its bus. -/
  held : List (ℕ × ℕ)
  panicked : Bool

def start (storages : List FluidStorage) : World := ⟨.new, .idle, storages, [], false⟩

inductive Event where
  | allocate (request : ℕ)
  | free (k : ℕ)
  | deposit (buses : List ℕ)
  | poll
  /-- All buses were read. -/
  | respond (buses : List Listed)
  | readFailed
  | settle (k : ℕ) (ok : Bool)
  | join
  /-- The storages change as other things happen to them. -/
  | change (storages : List FluidStorage)
  /-- `factory_main` runs an update of its own at the end of a cycle, when no job is left. -/
  | sweep

/-- The variables of `fluid_bus_update` while it goes through the buses. -/
structure Sweep where
  storages : List FluidStorage
  tasks : List (Except String Transfer)
  emptyBuses : List ℕ
  emptyBusesAfterDeposit : List ℕ

/-- The loop over `fluids`. -/
def depositFluids (bus : ℕ) :
    List (String × ℕ × ℤ) → List FluidStorage → List (Except String Transfer) →
    Option (List FluidStorage × List (Except String Transfer))
  | [], storages, tasks => some (storages, tasks)
  | (fluid, slot, qty) :: fluids, storages, tasks =>
    match fluidDeposit storages fluid qty with
    | none => none
    | some (storages, more) =>
      depositFluids bus fluids storages (tasks ++ more.map (Except.map fun d => ⟨bus, slot, d.1, d.2⟩))

/-- The loop over `buses.into_iter().enumerate()`. -/
def sweepBuses (allocations : Finset ℕ) : ℕ → List Listed → Sweep → Option Sweep
  | _, [], s => some s
  | i, listed :: buses, s =>
    if i ∈ allocations then sweepBuses allocations (i + 1) buses s
    else if listed.fluids.isEmpty then
      sweepBuses allocations (i + 1) buses { s with emptyBuses := s.emptyBuses ++ [i] }
    else
      match depositFluids i listed.fluids s.storages s.tasks with
      | none => none
      | some (storages, tasks) =>
        sweepBuses allocations (i + 1) buses
          { s with
            storages := storages
            tasks := tasks
            emptyBusesAfterDeposit := s.emptyBusesAfterDeposit ++ [i] }

/-- The transfers among some tasks. -/
def transfers (tasks : List (Except String Transfer)) : List Transfer :=
  tasks.filterMap fun
    | .ok t => some t
    | .error _ => none

def give (w : World) (buses : List ℕ) : World :=
  { w with bus := (w.bus.giveOut buses).1, held := w.held ++ (w.bus.giveOut buses).2 }

section
variable (nBuses : Option ℕ)

/-- The beginning of `fluid_bus_update`, which ends at once without accesses. -/
def beginUpdate (w : World) : World :=
  let bus := { w.bus with nBusUpdates := w.bus.nBusUpdates + 1 }
  match nBuses with
  | none => { w with bus := { bus with busTask := false }, updater := .idle }
  | some _ => { w with bus := bus, updater := .reading }

/-- The loop over `fluid_bus_free_queue`, and what `fluid_bus_main` does with the result. -/
def conclude (w : World) : World :=
  -- `Ok(ever_freed)`
  if w.bus.drain.2 then beginUpdate nBuses { w with bus := w.bus.drain.1 }
  else { w with bus := { w.bus.drain.1 with busTask := false }, updater := .idle }

/-- The end of `fluid_bus_update`, after its deposits. -/
def finish (w : World) (emptied : List ℕ) : World := conclude nBuses (give w emptied)

/-- An update that fails. -/
def abort (w : World) : World := { w with bus := w.bus.abort, updater := .idle }

/-- The middle of `fluid_bus_update`. With no deposits there is nothing to wait for. -/
def respond (w : World) (buses : List Listed) : World :=
  match sweepBuses w.bus.busAllocations 0 buses ⟨w.storages, [], [], []⟩ with
  | none => { w with panicked := true }
  | some s =>
    if s.tasks.isEmpty then
      finish nBuses (give { w with storages := s.storages } s.emptyBuses) s.emptyBusesAfterDeposit
    else
      { give { w with storages := s.storages } s.emptyBuses with
        updater := .depositing s.emptyBusesAfterDeposit (transfers s.tasks)
          (s.tasks.any fun t => !t.isOk) }

/-- The updater is spawned when a call of a job found none. -/
def wake (w : World) (bus : Bus ℕ) : World :=
  { w with bus := bus, updater := if bus.busTask && !w.bus.busTask then .spawned else w.updater }

def enabled (w : World) : Event → Prop
  | .allocate _ => True
  | .free k => k < w.held.length
  | .deposit buses => buses.Nodup ∧ ∀ b ∈ buses, b ∈ w.held.map Prod.snd
  | .poll => w.updater = .spawned
  | .respond buses => w.updater = .reading ∧ nBuses = some buses.length
  | .readFailed => w.updater = .reading
  | .settle k _ => k < w.updater.tasks.length
  | .join => w.updater = .depositing w.updater.emptied [] w.updater.failed
  | .change _ => True
  | .sweep => w.updater = .idle ∧ w.held = [] ∧ w.bus.busWaitQueue = []

def next (w : World) : Event → World
  | .allocate request => wake w (w.bus.allocate request)
  | .free k =>
    match w.held[k]? with
    | none => w
    | some h =>
      match w.bus.free h.2 with
      | (bus, some request) => { w with bus := bus, held := w.held.eraseIdx k ++ [(request, h.2)] }
      | (bus, none) => { w with bus := bus, held := w.held.eraseIdx k }
  | .deposit buses =>
    wake { w with held := w.held.filter fun h => h.2 ∉ buses } (w.bus.deposit buses)
  | .poll => beginUpdate nBuses w
  | .respond buses => respond nBuses w buses
  | .readFailed => abort w
  | .settle k ok =>
    match w.updater with
    | .depositing emptied tasks failed =>
      { w with updater := .depositing emptied (tasks.eraseIdx k) (failed || !ok) }
    | _ => w
  | .join =>
    match w.updater with
    | .depositing emptied _ failed => if failed then abort w else finish nBuses w emptied
    | _ => w
  | .change storages => { w with storages := storages }
  | .sweep => { w with bus := { w.bus with busTask := true }, updater := .spawned }

def machine : Machine World Event := ⟨enabled nBuses, next nBuses⟩

end

instance (nBuses : Option ℕ) (w : World) : ∀ e, Decidable (enabled nBuses w e)
  | .allocate _ | .change _ => .isTrue trivial
  | .free k => inferInstanceAs (Decidable (k < w.held.length))
  | .deposit buses =>
    inferInstanceAs (Decidable (buses.Nodup ∧ ∀ b ∈ buses, b ∈ w.held.map Prod.snd))
  | .poll => inferInstanceAs (Decidable (w.updater = .spawned))
  | .respond buses =>
    inferInstanceAs (Decidable (w.updater = .reading ∧ nBuses = some buses.length))
  | .readFailed => inferInstanceAs (Decidable (w.updater = .reading))
  | .settle k _ => inferInstanceAs (Decidable (k < w.updater.tasks.length))
  | .join => inferInstanceAs (Decidable (w.updater = .depositing w.updater.emptied [] w.updater.failed))
  | .sweep => inferInstanceAs (Decidable (w.updater = .idle ∧ w.held = [] ∧ w.bus.busWaitQueue = []))

instance (nBuses : Option ℕ) (w : World) (e : Event) : Decidable ((machine nBuses).enabled w e) :=
  inferInstanceAs (Decidable (enabled nBuses w e))

end FluidBus
end OCRemote
