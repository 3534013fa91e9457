import OCRemote.Factory.FluidBus

/-! When the updater of the fluid bus stops. The buses that it saw empty and gave to nobody are
forgotten while it waits for its deposits, so requests that arrive then only get the buses that it
has emptied. -/

namespace OCRemote

/-! The fluids of a bus. -/

theorem addFluid_pos {fluid : String} {slot : ℕ} {qty : ℤ} {es : List (String × ℕ × ℤ)}
    (hqty : 0 < qty)
    (h : ∀ e ∈ es, 0 < e.2.2) : ∀ e ∈ addFluid fluid slot qty es, 0 < e.2.2 := by
  induction es with
  | nil => exact List.forall_mem_singleton.mpr hqty
  | cons e es ih =>
    obtain ⟨he, hes⟩ := List.forall_mem_cons.mp h
    unfold addFluid
    split_ifs
    · exact List.forall_mem_cons.mpr ⟨add_pos he hqty, hes⟩
    · exact List.forall_mem_cons.mpr ⟨he, ih hes⟩

theorem addTanksToFluidMap_pos {tanks : List Tank}
    (hread : ∀ tank ∈ tanks, tank.fluid ≠ none → 0 < tank.qty)
    (slot : ℕ) {result : List (String × ℕ × ℤ)} (h : ∀ e ∈ result, 0 < e.2.2) :
    ∀ e ∈ addTanksToFluidMap slot tanks result, 0 < e.2.2 := by
  induction tanks generalizing slot result with
  | nil => exact h
  | cons tank tanks ih =>
    obtain ⟨htank, htanks⟩ := List.forall_mem_cons.mp hread
    unfold addTanksToFluidMap
    split
    · exact ih htanks _ h
    · rename_i fluid hfluid
      have hqty : 0 < tank.qty := htank (by simp [hfluid])
      exact ih htanks _ (addFluid_pos hqty h)

theorem Listed.pos (listed : Listed) : ∀ e ∈ listed.fluids, 0 < e.2.2 := by
  intro e he
  exact addTanksToFluidMap_pos listed.read 0 (by simp) e (listed.perm.subset he)

namespace FluidBus
variable {nBuses : Option ℕ} {w : World}

theorem depositFluids_spec (bus : ℕ) {fluids : List (String × ℕ × ℤ)}
    (hpos : ∀ e ∈ fluids, 0 < e.2.2)
    (storages : List FluidStorage) (tasks : List (Except String Transfer)) :
    ∃ storages' more, depositFluids bus fluids storages tasks = some (storages', tasks ++ more) ∧
      (fluids ≠ [] → more ≠ []) := by
  induction fluids generalizing storages tasks with
  | nil => exact ⟨storages, [], by simp [depositFluids], fun h => absurd rfl h⟩
  | cons e fluids ih =>
    obtain ⟨fluid, slot, qty⟩ := e
    obtain ⟨hqty, hrest⟩ := List.forall_mem_cons.mp hpos
    have hqty : 0 < qty := hqty
    obtain ⟨storages₁, placed, ds, hrun, hplaced, -⟩ := @fluidDeposit_spec storages fluid _ hqty.le
    obtain ⟨storages₂, more, hloop, -⟩ := ih hrest storages₁
      (tasks ++ placed.map (Except.map fun d => ⟨bus, slot, d.1, d.2⟩))
    have hsome : placed ≠ [] := by
      rintro rfl
      rcases hplaced with ⟨hnil, hsum⟩ | ⟨herr, -⟩
      · rw [List.map_eq_nil_iff.mp hnil.symm, List.map_nil, List.sum_nil] at hsum
        omega
      · simp at herr
    refine ⟨storages₂, placed.map (Except.map fun d => ⟨bus, slot, d.1, d.2⟩) ++ more, ?_,
      fun _ => ?_⟩
    · simp only [depositFluids, hrun]
      rw [hloop, List.append_assoc]
    · simpa using fun h => absurd h hsome

/-- The state of the loop after `n` buses. -/
structure Swept (allocations : Finset ℕ) (n : ℕ) (s : Sweep) : Prop where
  seen : ∀ bus < n, bus ∈ allocations ∨ bus ∈ s.emptyBuses ∨ bus ∈ s.emptyBusesAfterDeposit
  tasks : s.tasks = [] → s.emptyBusesAfterDeposit = []

/-- One more bus is seen. -/
theorem Swept.snoc {allocations : Finset ℕ} {n : ℕ} {s s' : Sweep} (h : Swept allocations n s)
    (hempty : s.emptyBuses ⊆ s'.emptyBuses)
    (hafter : s.emptyBusesAfterDeposit ⊆ s'.emptyBusesAfterDeposit)
    (hn : n ∈ allocations ∨ n ∈ s'.emptyBuses ∨ n ∈ s'.emptyBusesAfterDeposit)
    (htasks : s'.tasks = [] → s'.emptyBusesAfterDeposit = []) : Swept allocations (n + 1) s' := by
  refine ⟨fun bus hbus => ?_, htasks⟩
  rcases Nat.lt_succ_iff_lt_or_eq.mp hbus with hlt | rfl
  · rcases h.seen bus hlt with hin | hin | hin
    · exact .inl hin
    · exact .inr (.inl (hempty hin))
    · exact .inr (.inr (hafter hin))
  · exact hn

theorem sweepBuses_spec {allocations : Finset ℕ} {n : ℕ} {s : Sweep} (h : Swept allocations n s)
    (buses : List Listed) :
    ∃ s', sweepBuses allocations n buses s = some s' ∧ Swept allocations (n + buses.length) s' := by
  induction buses generalizing n s with
  | nil => exact ⟨s, rfl, h⟩
  | cons listed buses ih =>
    have hlen : n + (listed :: buses).length = n + 1 + buses.length := by
      rw [List.length_cons]
      omega
    rw [hlen]
    unfold sweepBuses
    split_ifs with hin hempty
    · exact ih (h.snoc (List.Subset.refl _) (List.Subset.refl _) (.inl hin) h.tasks)
    · apply ih
      refine h.snoc (List.subset_append_left _ _) (List.Subset.refl _) ?_ h.tasks
      exact .inr (.inl (List.mem_append_right _ (List.mem_singleton_self _)))
    · obtain ⟨storages, more, hrun, hmore⟩ := depositFluids_spec n listed.pos s.storages s.tasks
      have hne : listed.fluids ≠ [] := fun hnil => hempty (List.isEmpty_iff.mpr hnil)
      rw [hrun]
      apply ih
      refine h.snoc (List.Subset.refl _) (List.subset_append_left _ _) ?_ ?_
      · exact .inr (.inr (List.mem_append_right _ (List.mem_singleton_self _)))
      · exact fun hnil => absurd (List.append_eq_nil_iff.mp hnil).2 (hmore hne)

/-! What every run keeps. -/

structure Inv (w : World) : Prop where
  /-- No loop went on. -/
  alive : w.panicked = false
  running : w.bus.busTask = true ↔ w.updater ≠ .idle

/-- The updater is there. -/
structure Busy (w : World) : Prop where
  alive : w.panicked = false
  task : w.bus.busTask = true

theorem Inv.busy (h : Inv w) (hrun : w.updater ≠ .idle) : Busy w :=
  ⟨h.alive, h.running.mpr hrun⟩

theorem Busy.beginUpdate (h : Busy w) : Inv (beginUpdate nBuses w) := by
  unfold FluidBus.beginUpdate
  cases nBuses with
  | none => exact ⟨h.alive, by simp⟩
  | some n => exact ⟨h.alive, iff_of_true h.task (by simp)⟩

theorem Busy.give (h : Busy w) (buses : List ℕ) : Busy (give w buses) := by
  refine ⟨h.alive, ?_⟩
  rw [FluidBus.give, Bus.giveOut_busTask]
  exact h.task

theorem Busy.conclude (h : Busy w) : Inv (conclude nBuses w) := by
  unfold FluidBus.conclude
  split_ifs
  · exact Busy.beginUpdate ⟨h.alive, h.task⟩
  · exact ⟨h.alive, by simp⟩

theorem respond_eq (nBuses : Option ℕ) (w : World) (buses : List Listed) :
    ∃ s, Swept w.bus.busAllocations buses.length s ∧
      respond nBuses w buses =
        if s.tasks.isEmpty then
          finish nBuses (give { w with storages := s.storages } s.emptyBuses) s.emptyBusesAfterDeposit
        else
          { give { w with storages := s.storages } s.emptyBuses with
            updater := .depositing s.emptyBusesAfterDeposit (transfers s.tasks)
              (s.tasks.any fun t => !t.isOk) } := by
  have h0 : Swept w.bus.busAllocations 0 ⟨w.storages, [], [], []⟩ := ⟨by simp, by simp⟩
  obtain ⟨s, hsweep, hs⟩ := sweepBuses_spec h0 buses
  rw [Nat.zero_add] at hs
  refine ⟨s, hs, ?_⟩
  unfold respond
  rw [hsweep]

theorem Inv.respond (h : Inv w) (hread : w.updater = .reading) (buses : List Listed) :
    Inv (respond nBuses w buses) := by
  obtain ⟨s, hs, heq⟩ := respond_eq nBuses w buses
  have hbusy : Busy { w with storages := s.storages } :=
    ⟨h.alive, (h.busy (by simp [hread])).task⟩
  have hgiven := hbusy.give s.emptyBuses
  rw [heq]
  split_ifs
  · exact (hgiven.give _).conclude
  · exact ⟨hgiven.alive, iff_of_true hgiven.task (by simp)⟩

theorem Inv.wake (h : Inv w) {bus : Bus ℕ} (hmono : w.bus.busTask = true → bus.busTask = true)
    (held : List (ℕ × ℕ)) : Inv (wake { w with held := held } bus) := by
  refine ⟨h.alive, ?_⟩
  unfold FluidBus.wake
  cases hbefore : w.bus.busTask with
  | true =>
    have hafter := hmono hbefore
    simpa [hafter] using h.running.mp hbefore
  | false =>
    have hidle : w.updater = .idle := by simpa [hbefore] using h.running
    cases hafter : bus.busTask with
    | true => simp
    | false => simpa using hidle

theorem Inv.step (h : Inv w) {e : Event} (he : enabled nBuses w e) : Inv (next nBuses w e) := by
  cases e with
  | allocate request => exact h.wake (fun _ => rfl) w.held
  | free k =>
    have hget := List.getElem?_eq_getElem he
    simp only [next, hget, Bus.free]
    split <;> rename_i heq <;> split at heq <;> simp at heq <;> obtain ⟨rfl, -⟩ := heq
    all_goals exact ⟨h.alive, h.running⟩
  | deposit buses =>
    refine h.wake (fun hrun => ?_) _
    simp only [Bus.deposit, if_pos hrun]
    exact hrun
  | poll => exact (h.busy (by simp [show w.updater = .spawned from he])).beginUpdate
  | respond buses => exact h.respond he.1 buses
  | readFailed => exact ⟨h.alive, by simp [next, abort, Bus.abort]⟩
  | settle k ok =>
    simp only [next]
    split
    · rename_i hupd
      exact ⟨h.alive, iff_of_true (h.running.mpr (by simp [hupd])) (by simp)⟩
    · exact h
  | join =>
    simp only [next]
    split
    · rename_i hupd
      split_ifs
      · exact ⟨h.alive, by simp [abort, Bus.abort]⟩
      · exact ((h.busy (by simp [hupd])).give _).conclude
    · exact h
  | change storages => exact ⟨h.alive, h.running⟩
  | sweep => exact ⟨h.alive, iff_of_true rfl (by simp [next])⟩

/-! When the updater may stop. -/

def Full (nBuses : Option ℕ) (w : World) : Prop := ∀ bus < nBuses.getD 0, bus ∈ w.bus.busAllocations

/-- Nobody waits for a bus that is free while the updater is not there. -/
def Served (nBuses : Option ℕ) (w : World) : Prop :=
  w.updater = .idle → w.bus.busWaitQueue ≠ [] → Full nBuses w

/-- When an update has done its deposits, a bus waits to be emptied by the next one, or there is
one for every request among the emptied ones, or no other bus is free. -/
def Enough (nBuses : Option ℕ) (w : World) : Event → Prop
  | .join => w.updater.failed = true ∨ w.bus.busFreeQueue ≠ [] ∨
      w.bus.busWaitQueue.length ≤ w.updater.emptied.length ∨
      ∀ bus < nBuses.getD 0, bus ∈ w.bus.busAllocations ∨ bus ∈ w.updater.emptied
  | _ => True

theorem served_of_busy (h : w.updater ≠ .idle) : Served nBuses w := fun hidle => absurd hidle h

theorem served_beginUpdate (nBuses : Option ℕ) (w : World) :
    Served nBuses (beginUpdate nBuses w) := by
  unfold beginUpdate
  cases nBuses with
  | none => exact fun _ _ bus hbus => absurd hbus (Nat.not_lt_zero bus)
  | some n => exact served_of_busy (by simp)

/-- The second round of grants leaves a request and a bus over exactly when there is no next update,
there are too few emptied buses, and another bus is free. -/
theorem served_finish_iff (emptied : List ℕ) :
    Served nBuses (finish nBuses w emptied) ↔
      w.bus.busFreeQueue ≠ [] ∨ w.bus.busWaitQueue.length ≤ emptied.length ∨
        ∀ bus < nBuses.getD 0, bus ∈ w.bus.busAllocations ∨ bus ∈ emptied := by
  have hfree : (give w emptied).bus.busFreeQueue = w.bus.busFreeQueue :=
    w.bus.giveOut_busFreeQueue emptied
  have hqueue : (give w emptied).bus.busWaitQueue = w.bus.busWaitQueue.drop emptied.length :=
    w.bus.giveOut_busWaitQueue emptied
  unfold finish conclude
  by_cases hnone : w.bus.busFreeQueue = []
  · have hstop : ¬(give w emptied).bus.drain.2 = true := by simp [Bus.drain, hfree, hnone]
    have hkeep : (give w emptied).bus.drain.1.busAllocations =
        (give w emptied).bus.busAllocations := by
      simp [Bus.drain, hfree, hnone]
    rw [if_neg hstop]
    unfold Served Full
    simp only [Bus.drain, hqueue, hfree, hnone, ne_eq, not_true_eq_false, false_or, true_imp_iff,
      List.toFinset_nil, Finset.sdiff_empty, List.drop_eq_nil_iff]
    by_cases hmany : w.bus.busWaitQueue.length ≤ emptied.length
    · simp [hmany]
    · have hall := w.bus.mem_giveOut_of_le (not_le.mp hmany).le
      simp [hmany, give, hall]
  · have hgo : (give w emptied).bus.drain.2 = true := by simp [Bus.drain, hfree, hnone]
    rw [if_pos hgo]
    exact iff_of_true (served_beginUpdate nBuses _) (.inl hnone)

theorem served_join_iff (he : enabled nBuses w .join) :
    Served nBuses (next nBuses w .join) ↔ Enough nBuses w .join := by
  have hupd : w.updater = .depositing w.updater.emptied [] w.updater.failed := he
  unfold Enough
  generalize w.updater.emptied = emptied at hupd ⊢
  generalize w.updater.failed = failed at hupd ⊢
  simp only [next, hupd]
  cases failed with
  | true => exact iff_of_true (fun _ hqueue => absurd rfl hqueue) (.inl rfl)
  | false =>
    simp only [Bool.false_eq_true, if_false, false_or]
    exact served_finish_iff emptied

/-- Without deposits the first round of grants is enough. -/
theorem served_respond {buses : List Listed} (hlen : nBuses = some buses.length) :
    Served nBuses (FluidBus.respond nBuses w buses) := by
  obtain ⟨s, hs, heq⟩ := respond_eq nBuses w buses
  rw [heq]
  split_ifs with hnone
  · refine (served_finish_iff _).mpr (.inr ?_)
    have hemptied := hs.tasks (List.isEmpty_iff.mp hnone)
    by_cases hmany : w.bus.busWaitQueue.length ≤ s.emptyBuses.length
    · left
      simp [give, hmany]
    · right
      have hall := w.bus.mem_giveOut_of_le (not_le.mp hmany).le
      intro bus hbus
      rw [hlen, Option.getD_some] at hbus
      have hseen := hs.seen bus hbus
      rw [hemptied] at hseen
      simpa [give, hall, hemptied] using hseen
  · exact served_of_busy (by simp)

theorem Served.free (h : Served nBuses w) {k : ℕ} (hk : k < w.held.length) :
    Served nBuses (next nBuses w (.free k)) := by
  have hget := List.getElem?_eq_getElem hk
  obtain ⟨⟨task, allocations, queue, freeQueue, n⟩, updater, storages, held, panicked⟩ := w
  simp only at hget
  simp only [next, hget, Bus.free]
  cases queue with
  | nil => exact fun _ hqueue => absurd rfl hqueue
  | cons request requests => exact fun hidle _ => h hidle (List.cons_ne_nil _ _)

theorem Served.step (h : Served nBuses w) (hinv : Inv w) {e : Event} (he : enabled nBuses w e)
    (hallow : Enough nBuses w e) : Served nBuses (next nBuses w e) := by
  have hnext := hinv.step he
  cases e with
  | allocate request => exact served_of_busy (hnext.running.mp rfl)
  | free k => exact h.free he
  | deposit buses =>
    -- an updater that is not there after this was not there before, and no bus was given back
    intro hidle
    have hstop : ¬(w.bus.deposit buses).busTask = true := fun htask => hnext.running.mp htask hidle
    unfold Bus.deposit at hstop
    split_ifs at hstop with hrun
    · exact absurd hrun hstop
    · obtain rfl : buses = [] := by simpa using hstop
      have hold : w.updater = .idle := by simpa [hrun] using hinv.running
      simpa [next, wake, Bus.deposit, hrun, Full] using h hold
  | poll => exact served_beginUpdate nBuses w
  | respond buses => exact served_respond he.2
  | readFailed => exact fun _ hqueue => absurd rfl hqueue
  | settle k ok =>
    simp only [next]
    split
    · exact served_of_busy (by simp)
    · exact h
  | join => exact (served_join_iff he).mpr hallow
  | change storages => exact h
  | sweep => exact served_of_busy (by simp [next])

/-- In runs whose updates all leave enough, nobody waits while the updater is not there and some
bus is not allocated. -/
theorem waiters_served (nBuses : Option ℕ) (storages : List FluidStorage) (es : List Event)
    (hv : ((machine nBuses).restrict (Enough nBuses)).Valid (start storages) es)
    (hidle : ((machine nBuses).exec (start storages) es).bus.busTask = false)
    (hqueue : ((machine nBuses).exec (start storages) es).bus.busWaitQueue ≠ []) :
    ∀ bus < nBuses.getD 0, bus ∈ ((machine nBuses).exec (start storages) es).bus.busAllocations := by
  have h0 : Inv (start storages) := ⟨rfl, by simp [start, Bus.new]⟩
  have h1 : Served nBuses (start storages) := fun _ hqueue => absurd rfl hqueue
  obtain ⟨hinv, hserved⟩ :=
    (machine nBuses).invariant_restrict (I := fun w => Inv w ∧ Served nBuses w)
    (fun w e hI he hallow => ⟨hI.1.step he, hI.2.step hI.1 he hallow⟩) ⟨h0, h1⟩ hv
  have hstop : ((machine nBuses).exec (start storages) es).updater = .idle := by
    simpa [hidle] using hinv.running
  exact hserved hstop hqueue

/-- An update that does not leave enough ends with somebody waiting for a bus that is free. -/
theorem waiters_left {es : List Event} {storages : List FluidStorage}
    (he : enabled nBuses ((machine nBuses).exec (start storages) es) .join)
    (hbreak : ¬Enough nBuses ((machine nBuses).exec (start storages) es) .join) :
    let w := (machine nBuses).exec (start storages) (es ++ [.join])
    w.updater = .idle ∧ w.bus.busWaitQueue ≠ [] ∧ ¬Full nBuses w := by
  have hnot : ¬Served nBuses ((machine nBuses).exec (start storages) (es ++ [.join])) := by
    rw [Machine.exec_append]
    exact fun hserved => hbreak ((served_join_iff he).mp hserved)
  unfold Served at hnot
  push Not at hnot
  exact hnot

instance (nBuses : Option ℕ) (w : World) : ∀ e, Decidable (Enough nBuses w e)
  | .join => inferInstanceAs (Decidable (w.updater.failed = true ∨ w.bus.busFreeQueue ≠ [] ∨
      w.bus.busWaitQueue.length ≤ w.updater.emptied.length ∨
      ∀ bus < nBuses.getD 0, bus ∈ w.bus.busAllocations ∨ bus ∈ w.updater.emptied))
  | .allocate _ | .free _ | .deposit _ | .poll | .respond _ | .readFailed | .settle ..
  | .change _ | .sweep =>
    .isTrue trivial

instance (nBuses : Option ℕ) (w : World) (e : Event) :
    Decidable (((machine nBuses).restrict (Enough nBuses)).enabled w e) :=
  inferInstanceAs (Decidable (enabled nBuses w e ∧ Enough nBuses w e))

def emptyTank : Listed := ⟨[⟨1000, 0, none⟩], [], by simp, .refl _⟩

def waterTank : Listed := ⟨[⟨1000, 500, some "water"⟩], [("water", 0, 500)], by simp, .refl _⟩

/-- Two buses were used and given back, the second one with water in it, and an update for nobody
waits for the deposit of the water. -/
def depositingWater : List Event :=
  [.allocate 1, .allocate 2, .poll, .respond [emptyTank, emptyTank], .deposit [1], .free 0, .poll,
    .respond [emptyTank, waterTank]]

def waterStorage : FluidStorage := ⟨"water", some 0, 1000, 0, 0⟩

/-- One request comes during the deposit, and gets the bus that was emptied. Later there are more
requests than buses. -/
def oneRequest : List Event :=
  depositingWater ++
    [.allocate 3, .settle 0 true, .join,
     .allocate 4, .allocate 5, .poll, .respond [emptyTank, emptyTank]]

theorem waiters_served_oneRequest :
    ((machine (some 2)).exec (start [waterStorage]) oneRequest).bus.busWaitQueue = [5] ∧
      ∀ bus < 2, bus ∈ ((machine (some 2)).exec (start [waterStorage]) oneRequest).bus.busAllocations :=
  ⟨by decide +kernel, waiters_served (some 2) [waterStorage] oneRequest (by decide +kernel)
    (by decide +kernel) (by decide +kernel)⟩

/-- Two requests come during the deposit. -/
def twoRequests : List Event := depositingWater ++ [.allocate 3, .allocate 4, .settle 0 true, .join]

/-- One of them gets the bus that was emptied, and the updater stops although the other bus was seen
empty and is not allocated. -/
theorem waiter_stuck :
    (machine (some 2)).Valid (start [waterStorage]) twoRequests ∧
      ((machine (some 2)).exec (start [waterStorage]) twoRequests).bus.busTask = false ∧
      ((machine (some 2)).exec (start [waterStorage]) twoRequests).bus.busWaitQueue = [4] ∧
      ¬∀ bus < 2,
        bus ∈ ((machine (some 2)).exec (start [waterStorage]) twoRequests).bus.busAllocations :=
  ⟨by decide +kernel, by decide +kernel, by decide +kernel, by decide +kernel⟩

end FluidBus
end OCRemote
