import OCRemote.Factory.Bus
import OCRemote.Factory.Storage
import OCRemote.Lib.Machine

/-! The item bus as a transition system. Jobs ask for slots, have clients move items into and out
of the slots they hold, and give them back. The updater lists the bus, deposits what lies in
slots of nobody, and gives out the empty ones. A client may execute what it was asked at any time
before its answer is processed. -/

namespace OCRemote
open Slots

namespace ItemBus
variable {ι : Type}

/-- A transfer that a job asked for, into or out of its slot. -/
structure Move (ι : Type) where
  inward : Bool
  stack : ItemStack ι
  executed : Bool
  deriving DecidableEq

/-- A granted slot, with the transfers that are not resolved and the sums of those that
succeeded. -/
structure Holding (ι : Type) where
  job : ℕ
  slot : ℕ
  moves : List (Move ι)
  movedIn : ℤ
  movedOut : ℤ
  failed : Bool
  deriving DecidableEq

def Holding.new (job slot : ℕ) : Holding ι := ⟨job, slot, [], 0, 0, false⟩

/-- All transfers succeeded, and everything that was moved in was moved out. -/
def Holding.Settled (h : Holding ι) : Prop :=
  h.moves = [] ∧ h.failed = false ∧ h.movedIn = h.movedOut

/-- A listing that a client executed, with the slots that jobs held then. -/
structure Listing (ι : Type) where
  slots : List (Option (ItemStack ι))
  heldAt : List ℕ
  deriving DecidableEq

/-- Where `bus_main` is. -/
inductive Updater (ι : Type) where
  | idle
  | spawned
  /-- Waits for the listing, which a client executed or not. -/
  | listing (response : Option (Listing ι))
  /-- Waits for its deposits, each executed or not, and knows whether one failed. -/
  | depositing (tasks : List (Transfer × Bool)) (failed : Bool)
  deriving DecidableEq

def Updater.response : Updater ι → Option (Listing ι)
  | .listing response => response
  | _ => none

def Updater.tasks : Updater ι → List (Transfer × Bool)
  | .depositing tasks _ => tasks
  | _ => []

theorem Updater.eq_of_response {updater : Updater ι} {listing : Listing ι}
    (h : updater.response = some listing) :
    updater = .listing (some listing) := by
  unfold Updater.response at h
  split at h
  · rw [h]
  · simp at h

theorem Updater.eq_of_tasks {updater : Updater ι} {k : ℕ} {t : Transfer × Bool}
    (h : updater.tasks[k]? = some t) :
    ∃ failed, updater = .depositing updater.tasks failed := by
  unfold Updater.tasks at h ⊢
  split at h
  · exact ⟨_, rfl⟩
  · simp at h

/-- A grant, with what was physically in the slot. -/
structure Grant (ι : Type) where
  job : ℕ
  slot : ℕ
  found : Option (ItemStack ι)
  deriving DecidableEq

/-- A call of `deposit_item` by the updater, with the slots that jobs held when the listing was
executed and what was physically in the slot at the call. -/
structure Call (ι : Type) where
  slot : ℕ
  stack : ItemStack ι
  tasks : List (Except String Transfer)
  heldAt : List ℕ
  found : Option (ItemStack ι)

structure World (ι : Type) where
  bus : Bus ℕ
  updater : Updater ι
  storages : List (Storage ι)
  phys : List (Option (ItemStack ι))
  held : List (Holding ι)
  grants : List (Grant ι)
  calls : List (Call ι)
  /-- The jobs that asked for slots. -/
  started : List ℕ
  panicked : Bool

def start (storages : List (Storage ι)) (phys : List (Option (ItemStack ι))) : World ι :=
  ⟨.new, .idle, storages, phys, [], [], [], [], false⟩

inductive Event (ι : Type) where
  /-- A job calls `bus_allocate` `n` times without an await. -/
  | allocate (job n : ℕ)
  | issue (k : ℕ) (inward : Bool) (stack : ItemStack ι)
  | execute (k i : ℕ)
  | resolve (k i : ℕ) (ok : Bool)
  | free (k : ℕ)
  | deposit (slots : List ℕ)
  | poll
  | list
  | respond
  | listFailed
  | drain (k : ℕ) (moved : ℤ)
  | settle (k : ℕ) (ok : Bool)
  | join
  /-- The storages change as other things happen to them. -/
  | change (storages : List (Storage ι))
  /-- `factory_main` runs an update of its own at the end of a cycle, when no job is left. -/
  | sweep

def found (phys : List (Option (ItemStack ι))) (slot : ℕ) : Option (ItemStack ι) :=
  (phys[slot]?).join

def heldSlots (w : World ι) : List ℕ := w.held.map Holding.slot

/-- What a client does to the slots. -/
def Move.apply (m : Move ι) (phys : List (Option (ItemStack ι))) (slot : ℕ) :
    List (Option (ItemStack ι)) :=
  if m.inward then putIn phys slot m.stack else takeOut phys slot m.stack.size

/-- A transfer moves the amount it was asked for, so there has to be room or enough to take. -/
def Move.Possible [DecidableEq ι] (m : Move ι) (phys : List (Option (ItemStack ι)))
    (slot : ℕ) : Prop :=
  if m.inward then ∀ stack ∈ found phys slot, stack.item = m.stack.item
  else m.stack.size ≤ sizeAt phys slot

def Holding.execute (i : ℕ) (h : Holding ι) : Holding ι :=
  { h with moves := h.moves.modify i fun m => { m with executed := true } }

def Holding.resolve (i : ℕ) (ok : Bool) (h : Holding ι) : Holding ι :=
  match h.moves[i]? with
  | none => h
  | some m =>
    { h with
      moves := h.moves.eraseIdx i
      movedIn := if ok && m.inward then h.movedIn + m.stack.size else h.movedIn
      movedOut := if ok && !m.inward then h.movedOut + m.stack.size else h.movedOut
      failed := h.failed || !ok }

@[simp] theorem Holding.slot_resolve (h : Holding ι) (i : ℕ) (ok : Bool) :
    (h.resolve i ok).slot = h.slot := by
  unfold Holding.resolve
  split <;> rfl

@[simp] theorem Holding.job_resolve (h : Holding ι) (i : ℕ) (ok : Bool) :
    (h.resolve i ok).job = h.job := by
  unfold Holding.resolve
  split <;> rfl

/-- The variables of `bus_update` while it goes through the listed slots. -/
structure Sweep (ι : Type) where
  storages : List (Storage ι)
  tasks : List (Except String Transfer)
  freeSlots : List ℕ
  calls : List (ℕ × ItemStack ι × List (Except String Transfer))

variable [DecidableEq ι] [ItemClass ι]

/-- The loop over `stacks.into_iter().enumerate()`. -/
def sweepSlots (allocations : Finset ℕ) :
    ℕ → List (Option (ItemStack ι)) → Sweep ι → Option (Sweep ι)
  | _, [], s => some s
  | slot, stack :: slots, s =>
    if slot ∈ allocations then sweepSlots allocations (slot + 1) slots s
    else
      match stack with
      | some stack =>
        match depositItem s.storages slot stack with
        | none => none
        | some (storages, tasks) =>
          sweepSlots allocations (slot + 1) slots
            { s with
              storages := storages
              tasks := s.tasks ++ tasks
              calls := s.calls ++ [(slot, stack, tasks)] }
      | none => sweepSlots allocations (slot + 1) slots { s with freeSlots := s.freeSlots ++ [slot] }

/-- The beginning of `bus_update`. -/
def beginUpdate (w : World ι) : World ι :=
  { w with bus := { w.bus with nBusUpdates := w.bus.nBusUpdates + 1 }, updater := .listing none }

/-- The end of `bus_update`, and what `bus_main` does with its result. -/
def finish (w : World ι) (everDeposited : Bool) : World ι :=
  -- `Ok(ever_freed || ever_deposited && !bus_wait_queue.is_empty())`
  if w.bus.drain.2 || everDeposited && !w.bus.busWaitQueue.isEmpty then
    beginUpdate { w with bus := w.bus.drain.1 }
  else { w with bus := { w.bus.drain.1 with busTask := false }, updater := .idle }

/-- An update that fails. -/
def abort (w : World ι) : World ι := { w with bus := w.bus.abort, updater := .idle }

/-- The free slots are given out, and the storages know of the deposits. -/
def receive (w : World ι) (listing : Listing ι) (s : Sweep ι) : World ι :=
  let r := w.bus.giveOut s.freeSlots
  { w with
    bus := r.1
    storages := s.storages
    held := w.held ++ r.2.map fun g => .new g.1 g.2
    grants := w.grants ++ r.2.map fun g => ⟨g.1, g.2, found w.phys g.2⟩
    calls := w.calls ++ s.calls.map fun c => ⟨c.1, c.2.1, c.2.2, listing.heldAt, found w.phys c.1⟩ }

/-- The middle of `bus_update`, from the response to the await of the deposits. With no deposits
there is nothing to wait for. -/
def respond (w : World ι) (listing : Listing ι) : World ι :=
  match sweepSlots w.bus.busAllocations 0 listing.slots ⟨w.storages, [], [], []⟩ with
  | none => { w with panicked := true }
  | some s =>
    if s.tasks.isEmpty then finish (receive w listing s) false
    else
      { receive w listing s with
        updater := .depositing ((transfers s.tasks).map (·, false)) (s.tasks.any fun t => !t.isOk) }

/-- The updater is spawned when a call of a job found none. -/
def wake (w : World ι) (bus : Bus ℕ) : World ι :=
  { w with bus := bus, updater := if bus.busTask && !w.bus.busTask then .spawned else w.updater }

def enabled (w : World ι) : Event ι → Prop
  | .allocate _ _ => True
  | .issue k _ stack => k < w.held.length ∧ 0 < stack.size
  | .execute k i =>
    ∃ h ∈ w.held[k]?, ∃ m ∈ h.moves[i]?, m.executed = false ∧ m.Possible w.phys h.slot
  | .resolve k i ok => ∃ h ∈ w.held[k]?, ∃ m ∈ h.moves[i]?, ok = true → m.executed = true
  | .free k => ∃ h ∈ w.held[k]?, h.Settled
  | .deposit slots => slots.Nodup ∧ ∀ s ∈ slots, ∃ h ∈ w.held, h.slot = s ∧ h.moves = []
  | .poll => w.updater = .spawned
  | .list => w.updater = .listing none
  | .respond => w.updater.response ≠ none
  | .listFailed => w.updater = .listing none ∨ w.updater.response ≠ none
  | .drain k moved => ∃ t ∈ w.updater.tasks[k]?,
      t.2 = false ∧ 0 ≤ moved ∧ moved ≤ t.1.size ∧ moved ≤ sizeAt w.phys (t.1.busSlot - 1)
  | .settle k ok => ∃ t ∈ w.updater.tasks[k]?, ok = true → t.2 = true
  | .join => w.updater = .depositing [] true ∨ w.updater = .depositing [] false
  | .change _ => True
  | .sweep => w.updater = .idle ∧ w.held = [] ∧ w.bus.busWaitQueue = []

def next (w : World ι) : Event ι → World ι
  | .allocate job n =>
    wake { w with started := job :: w.started } ((List.replicate n job).foldl Bus.allocate w.bus)
  | .issue k inward stack =>
    { w with held := w.held.modify k fun h => { h with moves := h.moves ++ [⟨inward, stack, false⟩] } }
  | .execute k i =>
    match w.held[k]? with
    | none => w
    | some h =>
      match h.moves[i]? with
      | none => w
      | some m => { w with phys := m.apply w.phys h.slot, held := w.held.modify k (Holding.execute i) }
  | .resolve k i ok => { w with held := w.held.modify k (Holding.resolve i ok) }
  | .free k =>
    match w.held[k]? with
    | none => w
    | some h =>
      match w.bus.free h.slot with
      | (bus, some job) =>
        { w with
          bus := bus
          held := w.held.eraseIdx k ++ [.new job h.slot]
          grants := w.grants ++ [⟨job, h.slot, found w.phys h.slot⟩] }
      | (bus, none) => { w with bus := bus, held := w.held.eraseIdx k }
  | .deposit slots =>
    wake { w with held := w.held.filter fun h => h.slot ∉ slots } (w.bus.deposit slots)
  | .poll => beginUpdate w
  | .list => { w with updater := .listing (some ⟨w.phys, heldSlots w⟩) }
  | .respond =>
    match w.updater.response with
    | some listing => respond w listing
    | none => w
  | .listFailed => abort w
  | .drain k moved =>
    match w.updater with
    | .depositing tasks failed =>
      match tasks[k]? with
      | none => w
      | some t =>
        { w with
          phys := takeOut w.phys (t.1.busSlot - 1) moved
          updater := .depositing (tasks.modify k fun t => (t.1, true)) failed }
    | _ => w
  | .settle k ok =>
    match w.updater with
    | .depositing tasks failed =>
      { w with updater := .depositing (tasks.eraseIdx k) (failed || !ok) }
    | _ => w
  | .join =>
    match w.updater with
    | .depositing [] true => abort w
    | .depositing [] false => finish w true
    | _ => w
  | .change storages => { w with storages := storages }
  | .sweep => { w with bus := { w.bus with busTask := true }, updater := .spawned }

instance (h : Holding ι) : Decidable h.Settled :=
  inferInstanceAs (Decidable (h.moves = [] ∧ h.failed = false ∧ h.movedIn = h.movedOut))

instance (m : Move ι) (phys : List (Option (ItemStack ι))) (slot : ℕ) :
    Decidable (m.Possible phys slot) :=
  inferInstanceAs (Decidable (if m.inward then ∀ stack ∈ found phys slot, stack.item = m.stack.item
    else m.stack.size ≤ sizeAt phys slot))

instance (w : World ι) : ∀ e, Decidable (enabled w e)
  | .allocate _ _ | .change _ => .isTrue trivial
  | .issue k _ stack => inferInstanceAs (Decidable (k < w.held.length ∧ 0 < stack.size))
  | .execute k i => inferInstanceAs (Decidable (∃ h ∈ w.held[k]?, ∃ m ∈ h.moves[i]?,
      m.executed = false ∧ m.Possible w.phys h.slot))
  | .resolve k i ok =>
    inferInstanceAs (Decidable (∃ h ∈ w.held[k]?, ∃ m ∈ h.moves[i]?, ok = true → m.executed = true))
  | .free k => inferInstanceAs (Decidable (∃ h ∈ w.held[k]?, h.Settled))
  | .deposit slots =>
    inferInstanceAs (Decidable (slots.Nodup ∧ ∀ s ∈ slots, ∃ h ∈ w.held, h.slot = s ∧ h.moves = []))
  | .poll => inferInstanceAs (Decidable (w.updater = .spawned))
  | .list => inferInstanceAs (Decidable (w.updater = .listing none))
  | .respond => inferInstanceAs (Decidable (w.updater.response ≠ none))
  | .listFailed =>
    inferInstanceAs (Decidable (w.updater = .listing none ∨ w.updater.response ≠ none))
  | .drain k moved => inferInstanceAs (Decidable (∃ t ∈ w.updater.tasks[k]?,
      t.2 = false ∧ 0 ≤ moved ∧ moved ≤ t.1.size ∧ moved ≤ sizeAt w.phys (t.1.busSlot - 1)))
  | .settle k ok => inferInstanceAs (Decidable (∃ t ∈ w.updater.tasks[k]?, ok = true → t.2 = true))
  | .join =>
    inferInstanceAs (Decidable (w.updater = .depositing [] true ∨ w.updater = .depositing [] false))
  | .sweep => inferInstanceAs (Decidable (w.updater = .idle ∧ w.held = [] ∧ w.bus.busWaitQueue = []))

def machine (ι : Type) [DecidableEq ι] [ItemClass ι] : Machine (World ι) (Event ι) :=
  ⟨enabled, next⟩

instance (w : World ι) (e : Event ι) : Decidable ((machine ι).enabled w e) :=
  inferInstanceAs (Decidable (enabled w e))

end ItemBus
end OCRemote
