import OCRemote.Factory.ItemBusProgress

/-! The item bus of the C++ server (`Factory.cpp`). Its functions are those of the other server
word for word, with two differences. An update starts at once where the other server spawns a task,
and an update that inserts nothing waits for a promise that is scheduled, so that requests can come
between its grants and its end. -/

namespace OCRemote
open ItemBus Slots

theorem Bus.deposit_nil {ρ : Type} {b : Bus ρ} (h : b.busTask = false) : b.deposit [] = b := by
  cases b
  simp_all [Bus.deposit]

namespace CppItemBus
variable {ι : Type}

structure World (ι : Type) where
  base : ItemBus.World ι
  /-- What the second continuation of `doBusUpdate` gets from the first one. -/
  everInserted : Bool
  /-- How many requests came since the last grants of an update that inserted nothing. -/
  nLate : ℕ

def start (storages : List (Storage ι)) (phys : List (Option (ItemStack ι))) : World ι :=
  ⟨ItemBus.start storages phys, false, 0⟩

/-- `doBusUpdate`, where the other server spawns a task. -/
def doBusUpdate (w : ItemBus.World ι) : ItemBus.World ι :=
  match w.updater with
  | .spawned => beginUpdate w
  | _ => w

/-- Everything is inserted that was to be, and the update has not ended. -/
def World.ending (w : World ι) : Bool :=
  match w.base.updater with
  | .depositing [] false => !w.everInserted
  | _ => false

variable [DecidableEq ι] [ItemClass ι]

/-- The first continuation. -/
def respond (w : World ι) (listing : Listing ι) : World ι :=
  match sweepSlots w.base.bus.busAllocations 0 listing.slots ⟨w.base.storages, [], [], []⟩ with
  | none => { w with base := { w.base with panicked := true } }
  | some s =>
    { base := { receive w.base listing s with
        updater := .depositing ((transfers s.tasks).map (·, false)) (s.tasks.any fun t => !t.isOk) }
      everInserted := !s.tasks.isEmpty
      nLate := 0 }

def next (w : World ι) : Event ι → World ι
  | .allocate job n =>
    { w with
      base := doBusUpdate (ItemBus.next w.base (.allocate job n))
      nLate := if w.ending then w.nLate + n else w.nLate }
  | .deposit slots => { w with base := doBusUpdate (ItemBus.next w.base (.deposit slots)) }
  | .respond =>
    match w.base.updater.response with
    | some listing => respond w listing
    | none => w
  | .join =>
    match w.base.updater with
    | .depositing [] true => { w with base := abort w.base }
    | .depositing [] false => { w with base := finish w.base w.everInserted }
    | _ => w
  | .sweep => { w with base := doBusUpdate (ItemBus.next w.base .sweep) }
  | e => { w with base := ItemBus.next w.base e }

def machine (ι : Type) [DecidableEq ι] [ItemClass ι] : Machine (World ι) (Event ι) :=
  ⟨fun w e => ItemBus.enabled w.base e, next⟩

instance (w : World ι) (e : Event ι) : Decidable ((machine ι).enabled w e) :=
  inferInstanceAs (Decidable (ItemBus.enabled w.base e))

/-! Who has which slot. -/

omit [DecidableEq ι] [ItemClass ι] in
theorem inv_doBusUpdate {w : ItemBus.World ι} (h : ItemBus.Inv w) :
    ItemBus.Inv (doBusUpdate w) := by
  unfold doBusUpdate
  split
  · rename_i hspawned
    exact h.toCore.beginUpdate (h.running.mpr (by simp [hspawned]))
  · exact h

/-- The first continuation is the middle of the other server's update, only that it always waits. -/
theorem respond_eq (w : World ι) {listing : Listing ι} (hstacked : Stacked listing.slots) :
    ∃ s, Swept w.base.bus.busAllocations listing.slots s ∧
      respond w listing =
        { base := { receive w.base listing s with
            updater := .depositing ((transfers s.tasks).map (·, false))
              (s.tasks.any fun t => !t.isOk) }
          everInserted := !s.tasks.isEmpty
          nLate := 0 } := by
  obtain ⟨s, hrun, hs⟩ := sweepSlots_spec w.base.bus.busAllocations hstacked w.base.storages
  refine ⟨s, hs, ?_⟩
  unfold respond
  rw [hrun]

theorem inv_respond {w : World ι} (h : ItemBus.Inv w.base) {listing : Listing ι}
    (hupd : w.base.updater = .listing (some listing)) : ItemBus.Inv (respond w listing).base := by
  have hfresh : listing.Fresh w.base.bus.busAllocations w.base.phys := by
    have hok := h.updater
    rwa [hupd] at hok
  obtain ⟨s, hs, heq⟩ := respond_eq w hfresh.stacked
  have hcore := h.toCore.receive hs hfresh
  have htask : (receive w.base listing s).bus.busTask = true := by
    rw [receive, Bus.giveOut_busTask]
    exact h.running.mpr (by simp [hupd])
  rw [heq]
  refine ⟨⟨hcore.alive, hcore.owns, hcore.stacked, hcore.holdings, hcore.grants⟩,
    iff_of_true htask (by simp), ?_⟩
  intro t ht
  obtain ⟨t, htask', rfl⟩ := List.mem_map.mp ht
  exact hs.deposits htask'

theorem inv_step {w : World ι} (h : ItemBus.Inv w.base) {e : Event ι}
    (he : ItemBus.enabled w.base e) : ItemBus.Inv (next w e).base := by
  cases e with
  | allocate job n => exact inv_doBusUpdate (h.step he)
  | deposit slots => exact inv_doBusUpdate (h.step he)
  | sweep => exact inv_doBusUpdate (h.step he)
  | respond =>
    obtain ⟨listing, hresponse⟩ := Option.ne_none_iff_exists'.mp he
    simp only [next, hresponse]
    exact inv_respond h (Updater.eq_of_response hresponse)
  | join =>
    rcases he with hupd | hupd
    · simp only [next, hupd]
      exact h.toCore.abort
    · simp only [next, hupd]
      exact h.toCore.finish (h.running.mpr (by simp [hupd])) w.everInserted
  | issue k inward stack => exact h.step he
  | execute k i => exact h.step he
  | resolve k i ok => exact h.step he
  | free k => exact h.step he
  | poll => exact h.step he
  | list => exact h.step he
  | listFailed => exact h.step he
  | drain k moved => exact h.step he
  | settle k ok => exact h.step he
  | change storages => exact h.step he

/-! Who may be left waiting. -/

/-- When the updater is about to stop or has stopped, every slot is in use, unless all that wait
came after the grants of its last update. -/
structure Waits (limit : ℕ) (w : World ι) : Prop where
  length : w.base.phys.length = limit
  started : w.base.updater ≠ .spawned
  listed : ∀ listing ∈ w.base.updater.response, listing.slots.length = limit
  ending : ∀ tasks failed, w.base.updater = .depositing tasks failed → w.everInserted = false →
    tasks = [] ∧ failed = false ∧ (w.nLate < w.base.bus.busWaitQueue.length → Full limit w.base)
  stopped : w.base.updater = .idle → w.nLate < w.base.bus.busWaitQueue.length →
    w.base.bus.busFreeQueue = [] ∧ Full limit w.base

variable {limit : ℕ} {w : World ι}

omit [DecidableEq ι] [ItemClass ι] in
/-- An update that has not heard of the bus owes nothing. -/
theorem waits_of_listing (hlength : w.base.phys.length = limit)
    (hupd : w.base.updater = .listing none) : Waits limit w := by
  constructor <;> simp [hlength, hupd, Updater.response]

omit [DecidableEq ι] [ItemClass ι] in
/-- Neither does one that has failed. -/
theorem waits_of_abort (hlength : w.base.phys.length = limit) :
    Waits limit { w with base := abort w.base } := by
  constructor <;> simp [abort, Bus.abort, hlength, Updater.response]

omit [DecidableEq ι] [ItemClass ι] in
theorem Waits.frame (h : Waits limit w) {base : ItemBus.World ι}
    (hlength : base.phys.length = w.base.phys.length) (hbus : base.bus = w.base.bus)
    (hupd : base.updater = w.base.updater) : Waits limit { w with base := base } := by
  refine ⟨hlength.trans h.length, ?_, ?_, ?_, ?_⟩ <;> simp only [hupd, hbus, Full]
  · exact h.started
  · exact h.listed
  · exact h.ending
  · exact h.stopped

/-- A slot that is handed over stays in use, and without requests there is nobody to wait. -/
theorem Waits.free (h : Waits limit w) {k : ℕ} {a : Holding ι} (hk : w.base.held[k]? = some a) :
    Waits limit { w with base := ItemBus.next w.base (.free k) } := by
  obtain ⟨hlength, hstarted, hlisted, hending, hstopped⟩ := h
  rw [next_free hk]
  generalize w.base.bus.busWaitQueue = queue at hending hstopped ⊢
  cases queue with
  | nil =>
    refine ⟨hlength, hstarted, hlisted, fun tasks failed hupd hever => ?_, fun _ hlate => ?_⟩
    · obtain ⟨htasks, hfailed, -⟩ := hending tasks failed hupd hever
      exact ⟨htasks, hfailed, fun hlate => absurd hlate (Nat.not_lt_zero _)⟩
    · exact absurd hlate (Nat.not_lt_zero _)
  | cons job requests =>
    refine ⟨hlength, hstarted, hlisted, fun tasks failed hupd hever => ?_, fun hupd hlate => ?_⟩
    · obtain ⟨htasks, hfailed, hfull⟩ := hending tasks failed hupd hever
      exact ⟨htasks, hfailed, fun hlate => hfull (Nat.lt_succ_of_lt hlate)⟩
    · exact hstopped hupd (Nat.lt_succ_of_lt hlate)

omit [DecidableEq ι] [ItemClass ι] in
/-- An update that does not start another one has seen every slot in use, or leaves only those who
came late. -/
theorem Waits.finish (h : Waits limit w) (hupd : w.base.updater = .depositing [] false) :
    Waits limit { w with base := finish w.base w.everInserted } := by
  unfold ItemBus.finish
  split
  · exact waits_of_listing h.length rfl
  · rename_i hstop
    refine ⟨h.length, by simp, by simp [Updater.response], by simp, fun _ hlate => ?_⟩
    have hlate : w.nLate < w.base.bus.busWaitQueue.length := hlate
    have hqueue : w.base.bus.busWaitQueue ≠ [] := List.ne_nil_of_length_pos (by omega)
    obtain ⟨hfree, hever⟩ : w.base.bus.busFreeQueue = [] ∧ w.everInserted = false := by
      simpa [Bus.drain, hqueue] using hstop
    refine ⟨rfl, fun slot hslot => ?_⟩
    have hin := (h.ending [] false hupd hever).2.2 hlate slot hslot
    simpa [Bus.drain, hfree] using hin

theorem waits_respond (h : Waits limit w) {listing : Listing ι} (hstacked : Stacked listing.slots)
    (hlength : listing.slots.length = limit) : Waits limit (respond w listing) := by
  obtain ⟨s, hs, heq⟩ := respond_eq w hstacked
  rw [heq]
  refine ⟨h.length, by simp, by simp [Updater.response], fun tasks failed hupd hever => ?_, by simp⟩
  obtain ⟨rfl, rfl⟩ := Updater.depositing.inj hupd
  have htasks : s.tasks = [] := by simpa using hever
  refine ⟨by simp [htasks, transfers], by simp [htasks], fun hlate => ?_⟩
  have hfull : Full limit (receive w.base listing s) :=
    hs.full hlength htasks (List.ne_nil_of_length_pos hlate)
  exact hfull

omit [DecidableEq ι] [ItemClass ι] in
theorem doBusUpdate_of_ne {w : ItemBus.World ι} (h : w.updater ≠ .spawned) : doBusUpdate w = w := by
  unfold doBusUpdate
  split
  · exact absurd ‹_› h
  · rfl

/-- Who comes while the updater is about to stop comes late. -/
theorem Waits.allocate (h : Waits limit w)
    (hrun : w.base.bus.busTask = true ↔ w.base.updater ≠ .idle) (job n : ℕ) :
    Waits limit (next w (.allocate job n)) := by
  cases hbefore : w.base.bus.busTask with
  | true =>
    have hbusy : w.base.updater ≠ .idle := hrun.mp hbefore
    have hnext : doBusUpdate (ItemBus.next w.base (.allocate job n)) =
        { w.base with
          started := job :: w.base.started
          bus := { w.base.bus with
            busWaitQueue := w.base.bus.busWaitQueue ++ List.replicate n job
            busTask := true } } := by
      rw [doBusUpdate_of_ne] <;>
        simp [ItemBus.next, wake, Bus.foldl_allocate, hbefore, h.started]
    rw [next, hnext]
    refine ⟨h.length, h.started, h.listed, fun tasks failed hupd hever => ?_,
      fun hidle => absurd hidle hbusy⟩
    obtain ⟨rfl, rfl, hfull⟩ := h.ending tasks failed hupd hever
    have hending : w.ending = true := by
      have hever : w.everInserted = false := hever
      have hupd : w.base.updater = .depositing [] false := hupd
      simp [World.ending, hupd, hever]
    refine ⟨rfl, rfl, fun hlate => hfull ?_⟩
    simpa [hending] using hlate
  | false =>
    have hidle : w.base.updater = .idle := by simpa [hbefore] using hrun
    cases n with
    | zero =>
      have hnext : doBusUpdate (ItemBus.next w.base (.allocate job 0)) =
          { w.base with started := job :: w.base.started } := by
        rw [doBusUpdate_of_ne] <;> simp [ItemBus.next, wake, hbefore, hidle]
      have hending : w.ending = false := by simp [World.ending, hidle]
      simp only [next, hnext, hending]
      exact h.frame rfl rfl rfl
    | succ n =>
      apply waits_of_listing
      · simp [next, doBusUpdate, ItemBus.next, wake, Bus.foldl_allocate, hbefore, beginUpdate,
          h.length]
      · simp [next, doBusUpdate, ItemBus.next, wake, Bus.foldl_allocate, hbefore, beginUpdate]

/-- Slots that are given back to an updater that has stopped start another update. -/
theorem Waits.deposit (h : Waits limit w)
    (hrun : w.base.bus.busTask = true ↔ w.base.updater ≠ .idle) (slots : List ℕ) :
    Waits limit (next w (.deposit slots)) := by
  cases hbefore : w.base.bus.busTask with
  | true =>
    have hbusy : w.base.updater ≠ .idle := hrun.mp hbefore
    have hnext : doBusUpdate (ItemBus.next w.base (.deposit slots)) =
        { w.base with
          held := w.base.held.filter fun a => a.slot ∉ slots
          bus := { w.base.bus with busFreeQueue := w.base.bus.busFreeQueue ++ slots } } := by
      rw [doBusUpdate_of_ne] <;> simp [ItemBus.next, wake, Bus.deposit, hbefore, h.started]
    rw [next, hnext]
    exact ⟨h.length, h.started, h.listed, h.ending, fun hidle => absurd hidle hbusy⟩
  | false =>
    have hidle : w.base.updater = .idle := by simpa [hbefore] using hrun
    cases slots with
    | nil =>
      have hnext : doBusUpdate (ItemBus.next w.base (.deposit [])) =
          { w.base with held := w.base.held.filter fun a => a.slot ∉ [] } := by
        rw [doBusUpdate_of_ne] <;>
          simp [ItemBus.next, wake, Bus.deposit_nil hbefore, hbefore, hidle]
      rw [next, hnext]
      exact h.frame rfl rfl rfl
    | cons slot slots =>
      apply waits_of_listing
      · simp [next, doBusUpdate, ItemBus.next, wake, Bus.deposit, hbefore, beginUpdate, h.length]
      · simp [next, doBusUpdate, ItemBus.next, wake, Bus.deposit, hbefore, beginUpdate]

omit [DecidableEq ι] [ItemClass ι] in
/-- An update that has inserted something looks again at who waits. -/
theorem waits_of_inserting (hlength : w.base.phys.length = limit) {tasks : List (Transfer × Bool)}
    {failed : Bool} (hupd : w.base.updater = .depositing tasks failed)
    (hever : w.everInserted = true) : Waits limit w := by
  constructor <;> simp [hlength, hupd, hever, Updater.response]

omit [DecidableEq ι] [ItemClass ι] in
theorem Waits.everInserted (h : Waits limit w) {tasks : List (Transfer × Bool)} {failed : Bool}
    (hupd : w.base.updater = .depositing tasks failed) {k : ℕ} {t : Transfer × Bool}
    (ht : tasks[k]? = some t) : w.everInserted = true := by
  by_contra hever
  obtain ⟨rfl, -⟩ := h.ending tasks failed hupd (by simpa using hever)
  simp at ht

theorem Waits.step (h : Waits limit w) (hinv : ItemBus.Inv w.base)
    {e : Event ι} (he : ItemBus.enabled w.base e) : Waits limit (next w e) := by
  cases e with
  | allocate job n => exact h.allocate hinv.running job n
  | deposit slots => exact h.deposit hinv.running slots
  | sweep =>
    apply waits_of_listing
    · exact h.length
    · rfl
  | respond =>
    obtain ⟨listing, hresponse⟩ := Option.ne_none_iff_exists'.mp he
    have hfresh := hinv.updater
    rw [Updater.eq_of_response hresponse] at hfresh
    simp only [next, hresponse]
    exact waits_respond h hfresh.stacked (h.listed listing hresponse)
  | join =>
    rcases he with hupd | hupd
    · simp only [next, hupd]
      exact waits_of_abort h.length
    · simp only [next, hupd]
      exact h.finish hupd
  | issue k inward stack => exact h.frame rfl rfl rfl
  | execute k i =>
    obtain ⟨a, hk, m, hm, -⟩ := he
    rw [Option.mem_def] at hk hm
    simp only [next, ItemBus.next, hk, hm]
    exact h.frame Move.length_apply rfl rfl
  | resolve k i ok => exact h.frame rfl rfl rfl
  | free k =>
    obtain ⟨a, hk, -⟩ := he
    exact h.free hk
  | poll => exact absurd he h.started
  | list =>
    refine ⟨h.length, by simp [next, ItemBus.next], fun listing hl => ?_,
      by simp [next, ItemBus.next], by simp [next, ItemBus.next]⟩
    obtain rfl : _ = listing := Option.some_inj.mp hl
    exact h.length
  | listFailed => exact waits_of_abort h.length
  | drain k moved =>
    obtain ⟨t, ht, -⟩ := he
    obtain ⟨failed, hupd⟩ := Updater.eq_of_tasks ht
    have hever := h.everInserted hupd ht
    rw [Option.mem_def] at ht
    generalize w.base.updater.tasks = tasks at hupd ht
    simp only [next, ItemBus.next, hupd, ht]
    exact waits_of_inserting ((length_takeOut ..).trans h.length) rfl hever
  | settle k ok =>
    obtain ⟨t, ht, -⟩ := he
    obtain ⟨failed, hupd⟩ := Updater.eq_of_tasks ht
    have hever := h.everInserted hupd ht
    generalize w.base.updater.tasks = tasks at hupd
    simp only [next, ItemBus.next, hupd]
    exact waits_of_inserting h.length rfl hever
  | change storages => exact h.frame rfl rfl rfl

/-- Whatever the order of the steps, and whatever fails, every slot has one holder at most and is
empty when it is granted. When the updater has stopped while more wait than have come since the
grants of its last update, every slot is held by a job. -/
theorem slots_held (storages : List (Storage ι)) (phys : List (Option (ItemStack ι)))
    (hphys : ∀ v ∈ phys, ∀ stack ∈ v, 0 < stack.size) (es : List (Event ι))
    (hv : (machine ι).Valid (start storages phys) es) :
    let w := (machine ι).exec (start storages phys) es
    Exclusive w.base ∧ (w.base.bus.busTask = false → w.nLate < w.base.bus.busWaitQueue.length →
      ∀ slot < phys.length, slot ∈ heldSlots w.base) := by
  let I (w : World ι) : Prop := ItemBus.Inv w.base ∧ Waits phys.length w
  have hstart : I (start storages phys) := by
    refine ⟨start_inv storages hphys, ⟨rfl, ?_, ?_, ?_, ?_⟩⟩ <;>
      simp [start, ItemBus.start, Bus.new, Updater.response]
  obtain ⟨hinv, hwaits⟩ : I ((machine ι).exec (start storages phys) es) :=
    (machine ι).invariant (fun w e hI he => ⟨inv_step hI.1 he, hI.2.step hI.1 he⟩) hstart hv
  refine ⟨hinv.exclusive, fun hstop hlate slot hslot => ?_⟩
  have hidle : ((machine ι).exec (start storages phys) es).base.updater = .idle := by
    by_contra hbusy
    have := hinv.running.mpr hbusy
    simp [hstop] at this
  obtain ⟨hfree, hfull⟩ := hwaits.stopped hidle hlate
  rcases List.mem_append.mp ((hinv.owns.mem_iff slot).mp (hfull slot hslot)) with hheld | hfreed
  · exact hheld
  · simp [hfree] at hfreed

/-- Of two slots one is granted, and the job that comes before the update has ended waits for the
other one, which nobody has. -/
def lateRequest : List (Event (Item ℤ)) :=
  [.allocate 1 1, .list, .respond, .allocate 2 1, .join]

theorem slots_held_lateRequest :
    let w := (machine (Item ℤ)).exec (start [.me] [none, none]) lateRequest
    (heldSlots w.base = [1] ∧ w.base.bus.busTask = false ∧ w.base.bus.busWaitQueue = [2] ∧
      w.nLate = 1) ∧
    Exclusive w.base ∧ (w.base.bus.busTask = false → w.nLate < w.base.bus.busWaitQueue.length →
      ∀ slot < 2, slot ∈ heldSlots w.base) :=
  ⟨by decide +kernel, slots_held [.me] [none, none] (by decide) lateRequest (by decide +kernel)⟩

end CppItemBus
end OCRemote
