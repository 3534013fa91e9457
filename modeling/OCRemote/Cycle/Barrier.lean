import Mathlib.Algebra.Order.Ring.Int
import OCRemote.Cycle.Phases

/-! The barrier at the end of a cycle. Nothing that was started in the cycle is left when the
storages and the tables are cleared, whatever failed in it. -/

namespace OCRemote
namespace Cycle
namespace World

/-! The slots that an update finds. -/

theorem mem_freeSlots {allocations : Finset ℕ} {slots : List (Option ℕ)} {slot : ℕ} :
    slot ∈ freeSlots allocations slots ↔ slots[slot]? = some none ∧ slot ∉ allocations := by
  simp [freeSlots, idleSlots, List.mem_filter, List.mk_mem_zipIdx_iff_getElem?]

theorem mem_fullSlots {allocations : Finset ℕ} {slots : List (Option ℕ)} {slot : ℕ} :
    slot ∈ fullSlots allocations slots ↔
      (∃ n, slots[slot]? = some (some n)) ∧ slot ∉ allocations := by
  simp [fullSlots, idleSlots, List.mem_filter, List.mk_mem_zipIdx_iff_getElem?,
    Option.ne_none_iff_exists']

theorem idleSlots_nodup (allocations : Finset ℕ) (slots : List (Option ℕ))
    (p : Option ℕ × ℕ → Bool) : (((idleSlots allocations slots).filter p).map Prod.snd).Nodup := by
  have hrange : (slots.zipIdx.map Prod.snd).Nodup := by
    rw [List.zipIdx_map_snd]
    exact List.nodup_range'
  exact hrange.sublist ((List.filter_sublist.trans List.filter_sublist).map _)

/-! Only the updater of a bus gives out the slots that it has emptied. -/

theorem apart_setSide {w : World} {k : BusKind} (h : ∀ k', k' ≠ k → (w.side k').Apart) {s : Side}
    (hs : s.Apart) (k' : BusKind) : ((w.setSide k s).side k').Apart := by
  rcases eq_or_ne k' k with rfl | hk
  · rwa [setSide_self]
  · rw [setSide_of_ne w hk]
    exact h k' hk

theorem apart_release {w : World} (h : ∀ k, (w.side k).Apart) (r : Release) :
    ∀ k, ((w.release r).side k).Apart := by
  cases r with
  | free slot =>
    obtain ⟨k, n⟩ := slot
    have hfree : ∀ k', ((w.setBus k ((w.side k).bus.free n).1).side k').Apart :=
      apart_setSide (fun k' _ => h k') ((h k).of_subset (Bus.free_subset ..))
    simp only [World.release]
    split
    · rename_i bus request heq
      rw [heq] at hfree
      obtain ⟨jobs, hdeliver⟩ := (w.setBus k bus).deliver_eq request (.ok n)
      rw [hdeliver]
      exact hfree
    · rename_i heq
      rwa [heq] at hfree
  | deposit k slots => exact apart_setSide (fun k' _ => h k') ((h k).wake (Bus.deposit_subset ..))

theorem apart_effects {w : World} (h : ∀ k, (w.side k).Apart) (j : ℕ) (effects : List Effect) :
    ∀ k, ((effects.foldl (effect j) w).side k).Apart := by
  induction effects generalizing w with
  | nil => exact h
  | cons e effects ih =>
    refine ih ?_
    cases e with
    | asked k i => exact apart_setSide (fun k' _ => h k') ((h k).wake (Finset.Subset.refl _))
    | release r => exact apart_release h r
    | _ => exact h

theorem apart_beginUpdate (cfg : Config) {w : World} {k : BusKind}
    (h : ∀ k', k' ≠ k → (w.side k').Apart) : ∀ k', ((w.beginUpdate cfg k).side k').Apart := by
  unfold beginUpdate
  split_ifs
  · exact apart_setSide h Side.apart_stop
  · exact apart_setSide h (Side.apart_of_ne nofun)

theorem apart_conclude (cfg : Config) {w : World} {k : BusKind}
    (h : ∀ k', k' ≠ k → (w.side k').Apart) (everDeposited : Bool) :
    ∀ k', ((w.conclude cfg k everDeposited).side k').Apart := by
  unfold conclude
  simp only
  split_ifs
  · refine apart_beginUpdate cfg fun k' hk => ?_
    rw [setBus, setSide_of_ne w hk]
    exact h k' hk
  · exact apart_setSide h Side.apart_stop

theorem give_side_of_ne (w : World) {k k' : BusKind} (hk : k' ≠ k) (slots : List ℕ) :
    (w.give k slots).side k' = w.side k' := by
  rw [give_side, setBus, setSide_of_ne w hk]

/-- What holds in every state that is reached. -/
structure Inv (cfg : Config) (w : World) : Prop where
  holds : Holds w [] []
  phased : Phased cfg w
  apart : ∀ k, (w.side k).Apart

namespace Inv
variable {cfg : Config} {w : World}

theorem start : Inv cfg start where
  holds := .start
  phased := {
    fits := fun k => {
      handled := by simp [Cycle.start, Bus.new]
      single := rfl
      taken := nofun
      untaken := nofun
      drained := fun _ _ => rfl
      closed := fun _ _ => ⟨rfl, .inl rfl⟩
      born := nofun }
    ended := nofun
    working := nofun
    cleared := fun _ => rfl
    touches := nofun }
  apart k := Side.apart_of_ne nofun

/-- A step of `factory_main` that is not about the buses. -/
theorem goOn (h : Inv cfg w) (hmain : w.main ≠ .running)
    (hawaited : ∀ k, (w.side k).awaited = false)
    (main : Main) (cycle : ℕ) (cleared : Bool) (hcleared : cleared = true → main = .sleeping)
    {processes : List Process}
    (hended : main ≠ .running → ∀ p ∈ processes, ∃ result, p = .ended result) :
    Inv cfg { w with
      main := main
      cycle := cycle
      cleared := cleared
      processes := processes } where
  holds := h.holds.of_eq rfl (fun _ => rfl) (fun _ => rfl) fun _ => rfl
  phased := {
    fits := fun k => (h.phased.fits k).rest ((h.phased.fits k).busTask_eq hmain) (hawaited k) _ _
    ended := hended
    working := fun _ hs hfinished => absurd (h.phased.finished hmain hs) hfinished
    cleared := hcleared
    touches := h.phased.touches }
  apart := h.apart

theorem resetUpdates (h : Inv cfg w) :
    Inv cfg { w with side := fun k =>
      { w.side k with bus := { (w.side k).bus with nBusUpdates := 0 } } } where
  holds := h.holds.of_eq rfl (fun _ => rfl) (fun _ => rfl) fun _ => rfl
  phased := {
    fits := fun k => (h.phased.fits k).setBus rfl rfl fun hk hcfg =>
      ((h.phased.fits k).closed hk hcfg).1
    ended := h.phased.ended
    working := h.phased.working
    cleared := h.phased.cleared
    touches := h.phased.touches }
  apart k := (h.apart k).of_subset (Finset.Subset.refl _)

theorem takeUpdaters (h : Inv cfg w) (hawake : w.main ≠ .sleeping) (hmain : w.main ≠ .awaiting)
    (hended : ∀ p ∈ w.processes, ∃ result, p = .ended result) (ok : Bool) :
    Inv cfg (w.takeUpdaters ok) where
  holds := h.holds.of_eq rfl (fun _ => (Side.take_bus ..).1) (fun _ => (Side.take_bus ..).2.1)
    fun _ => (Side.take_bus ..).2.2
  phased := h.phased.takeUpdaters hawake hmain hended ok
  apart k := (h.apart k).take ok

/-- A process ends. -/
theorem endProcess (h : Inv cfg w) {p : ℕ} {result : Except String Unit}
    (hjobs : ∀ s ∈ w.jobs, ¬ s.job.Finished → s.process ≠ p) :
    Inv cfg { w with processes := w.processes.set p (.ended result) } where
  holds := h.holds.of_eq rfl (fun _ => rfl) (fun _ => rfl) fun _ => rfl
  phased := {
    fits := h.phased.fits
    ended := fun hmain q hq => by
      rcases List.mem_or_eq_of_mem_set hq with hq | rfl
      · exact h.phased.ended hmain q hq
      · exact ⟨result, rfl⟩
    working := fun s hs hfinished => by
      obtain ⟨hborn, hworking⟩ := h.phased.working s hs hfinished
      exact ⟨hborn, (List.getElem?_set_ne (hjobs s hs hfinished).symm).trans hworking⟩
    cleared := h.phased.cleared
    touches := h.phased.touches }
  apart := h.apart

theorem starts (h : Inv cfg w) {p : ℕ} (hp : w.processes[p]? = some .waiting)
    (plans : List JobPlan) :
    Inv cfg { w with
      processes := w.processes.set p .working
      jobs := w.jobs ++ plans.map fun plan => ⟨p, w.cycle, Job.start plan⟩ } where
  holds := by
    refine (h.holds.append ?_).of_eq rfl (fun _ => rfl) (fun _ => rfl) fun _ => rfl
    intro s hs
    obtain ⟨plan, -, rfl⟩ := List.mem_map.mp hs
    exact ⟨plan, rfl⟩
  phased := {
    fits := h.phased.fits
    ended := fun hmain => by
      obtain ⟨result, hended⟩ := h.phased.ended hmain _ (List.mem_of_getElem? hp)
      cases hended
    working := fun s hs hfinished => by
      have hset : (w.processes.set p .working)[p]? = some .working :=
        List.getElem?_set_self (List.getElem?_eq_some_iff.mp hp).1
      rcases List.mem_append.mp hs with hs | hs
      · obtain ⟨hborn, hworking⟩ := h.phased.working s hs hfinished
        refine ⟨hborn, ?_⟩
        rcases eq_or_ne p s.process with heq | hne
        · rwa [← heq]
        · exact (List.getElem?_set_ne hne).trans hworking
      · obtain ⟨plan, -, rfl⟩ := List.mem_map.mp hs
        exact ⟨rfl, hset⟩
    cleared := h.phased.cleared
    touches := h.phased.touches }
  apart := h.apart

theorem stepJob (h : Inv cfg w) {j : ℕ} {e : JobEvent} {w' : World}
    (hstep : w.stepJob j e = some w') : Inv cfg w' where
  holds := h.holds.stepJob hstep
  phased := h.phased.stepJob hstep
  apart := by
    unfold World.stepJob at hstep
    split at hstep
    · cases hstep
    split at hstep
    · cases hstep
    obtain ⟨r, -, rfl⟩ := Option.map_eq_some_iff.mp hstep
    refine apart_effects (fun k => ?_) j _
    exact h.apart k

/-- The first poll of an updater. -/
theorem poll (h : Inv cfg w) {k : BusKind} (hspawned : (w.side k).updater = .spawned) :
    Inv cfg (w.beginUpdate cfg k) where
  holds := h.holds.beginUpdate cfg k
  phased := by
    refine h.phased.beginUpdate (by rw [hspawned]; nofun) fun hk hcfg => ?_
    refine List.eq_nil_iff_forall_not_mem.mpr fun slot hslot => ?_
    have hin := ((h.holds.owns k).mem_iff slot).mpr (List.mem_append_right _ hslot)
    rw [((h.phased.fits k).closed hk hcfg).1] at hin
    exact Finset.notMem_empty _ hin
  apart := apart_beginUpdate cfg fun k' _ => h.apart k'

theorem failUpdate (h : Inv cfg w) (k : BusKind) (e : String) : Inv cfg (w.failUpdate k e) where
  holds := h.holds.failUpdate k e
  phased := h.phased.failUpdate k e
  apart := by
    obtain ⟨jobs, hfail⟩ := w.failUpdate_eq k e
    rw [hfail]
    exact apart_setSide (fun k' _ => h.apart k') Side.apart_stop

/-- A deposit ends. -/
theorem deposited (h : Inv cfg w) {k : BusKind} {born : ℕ} {emptied : List ℕ}
    {tasks : List (Option (Except String Unit))}
    (hdepositing : (w.side k).updater = .depositing born emptied tasks)
    (tasks' : List (Option (Except String Unit))) :
    Inv cfg ((w.touch born 1).setSide k
      { w.side k with updater := .depositing born emptied tasks' }) := by
  have hrunning : (w.side k).updater ≠ .idle := by simp [hdepositing]
  have hopen := (h.phased.fits k).isOpen hrunning (by simp [hdepositing])
  have hborn := (h.phased.fits k).born _ _ _ hdepositing
  refine ⟨h.holds.touch.setSide_of_eq rfl rfl rfl, ?_, ?_⟩
  · refine (h.phased.touch (h.phased.awake hrunning) hborn 1).setSide ?_
    refine (h.phased.fits k).setUpdater hrunning _ ?_ _ nofun hopen ?_
    · rfl
    · rintro n emptied tasks ⟨⟩
      exact hborn
  · refine apart_setSide (fun k' _ => h.apart k') ?_
    rintro n emptied tasks ⟨⟩
    exact h.apart k _ _ _ hdepositing

/-- The emptied slots are given out and the update ends. -/
theorem conclude (hholds : Holds w [] []) (hphased : Phased cfg w) {k : BusKind}
    (hapart : ∀ k', k' ≠ k → (w.side k').Apart)
    (hopen : ¬ (k = .fluid ∧ cfg.fluidBus = false)) (hrunning : (w.side k).updater ≠ .idle)
    {emptied : List ℕ} (hnodup : emptied.Nodup)
    (hout : ∀ slot ∈ emptied, slot ∉ (w.side k).bus.busAllocations) (everDeposited : Bool) :
    Inv cfg ((w.give k emptied).conclude cfg k everDeposited) where
  holds := (hholds.give hnodup hout).conclude cfg k everDeposited
  phased := by
    refine (hphased.give hopen emptied).conclude hopen ?_ everDeposited
    rwa [give_updater]
  apart := by
    refine apart_conclude cfg (fun k' hk => ?_) everDeposited
    rw [give_side_of_ne w hk]
    exact hapart k' hk

theorem onListed (h : Inv cfg w) {k : BusKind} (hlisting : (w.side k).updater = .listing)
    (slots : List (Option ℕ)) : Inv cfg (w.onListed cfg k slots) := by
  have hrunning : (w.side k).updater ≠ .idle := by
    rw [hlisting]
    nofun
  have hopen := (h.phased.fits k).isOpen hrunning (by rw [hlisting]; nofun)
  have hfree : (freeSlots (w.side k).bus.busAllocations slots).Nodup := idleSlots_nodup ..
  unfold World.onListed
  simp only
  generalize hn : nDeposits (w.side k).bus.busAllocations slots = n
  generalize hemptied :
    (if k = .fluid then fullSlots (w.side k).bus.busAllocations slots else []) = emptied
  generalize hw : (w.touch w.cycle n).give k (freeSlots (w.side k).bus.busAllocations slots) = w'
  have hholds : Holds w' [] [] := by
    rw [← hw]
    exact h.holds.touch.give hfree fun slot hslot => (mem_freeSlots.mp hslot).2
  have hphased : Phased cfg w' := by
    rw [← hw]
    exact (h.phased.touch (h.phased.awake hrunning) rfl n).give hopen _
  have hupdater : (w'.side k).updater ≠ .idle := by
    rw [← hw, give_updater]
    exact hrunning
  have hother (k' : BusKind) (hk : k' ≠ k) : (w'.side k').Apart := by
    rw [← hw, give_side_of_ne _ hk]
    exact h.apart k'
  have hnodup : emptied.Nodup := by
    rw [← hemptied]
    split_ifs
    · exact idleSlots_nodup ..
    · exact List.nodup_nil
  have hout : ∀ slot ∈ emptied, slot ∉ (w'.side k).bus.busAllocations := by
    rw [← hemptied, ← hw]
    intro slot hslot hin
    split_ifs at hslot with hk
    · obtain ⟨⟨n, hfull⟩, hidle⟩ := mem_fullSlots.mp hslot
      rcases mem_give hin with hallocated | hgiven
      · exact hidle hallocated
      · rw [(mem_freeSlots.mp hgiven).1] at hfull
        cases hfull
    · cases hslot
  split_ifs
  · exact conclude hholds hphased hother hopen hupdater hnodup hout false
  · refine ⟨hholds.setSide_of_eq rfl rfl rfl, hphased.setSide ?_, apart_setSide hother ?_⟩
    · refine (hphased.fits k).setUpdater hupdater _ ?_ _ nofun hopen ?_
      · rfl
      · rintro n emptied tasks ⟨⟩
        rfl
    · rintro n emptied tasks ⟨⟩
      exact ⟨hnodup, hout⟩

theorem step (h : Inv cfg w) {e : Event} {w' : World} (hstep : World.step cfg w e = some w') :
    Inv cfg w' := by
  cases e with
  | wake =>
    simp only [World.step] at hstep
    split_ifs at hstep with hmain
    obtain rfl := Option.some.inj hstep
    have hrunning : w.main ≠ .running := by simp [hmain]
    have hawaiting : w.main ≠ .awaiting := by simp [hmain]
    have hawaited (k : BusKind) := (h.phased.fits k).awaited_eq hawaiting
    have hgone := h.goOn hrunning hawaited (.updating (List.replicate cfg.nStorages none)) w.cycle
      false nofun fun _ => h.phased.ended hrunning
    exact hgone.resetUpdates
  | updated i result =>
    simp only [World.step] at hstep
    split at hstep
    · rename_i tasks hmain
      split_ifs at hstep
      obtain rfl := Option.some.inj hstep
      have hrunning : w.main ≠ .running := by simp [hmain]
      have hawaiting : w.main ≠ .awaiting := by simp [hmain]
      have hawaited (k : BusKind) := (h.phased.fits k).awaited_eq hawaiting
      refine h.goOn hrunning hawaited _ w.cycle w.cleared (fun hcleared => ?_)
        fun _ => h.phased.ended hrunning
      cases hmain.symm.trans (h.phased.cleared hcleared)
    · cases hstep
  | joinUpdates =>
    simp only [World.step] at hstep
    split at hstep
    · rename_i tasks hmain
      split at hstep
      · cases hstep
      have hrunning : w.main ≠ .running := by simp [hmain]
      have hsleeping : w.main ≠ .sleeping := by simp [hmain]
      have hawaiting : w.main ≠ .awaiting := by simp [hmain]
      have hended := h.phased.ended hrunning
      split at hstep
      · obtain rfl := Option.some.inj hstep
        have hawaited (k : BusKind) := (h.phased.fits k).awaited_eq hawaiting
        exact h.goOn hrunning hawaited .running w.cycle w.cleared
          (fun hcleared => absurd (h.phased.cleared hcleared) hsleeping) fun hne => absurd rfl hne
      · obtain rfl := Option.some.inj hstep
        exact h.takeUpdaters hsleeping hawaiting hended false
    · cases hstep
  | ended p result =>
    simp only [World.step] at hstep
    split_ifs at hstep with hp
    obtain rfl := Option.some.inj hstep
    refine h.endProcess fun s hs hfinished hprocess => ?_
    have hworking := (h.phased.working s hs hfinished).2
    rw [hprocess, hp] at hworking
    cases hworking
  | starts p plans =>
    simp only [World.step] at hstep
    split_ifs at hstep with hp
    obtain rfl := Option.some.inj hstep
    exact h.starts hp plans
  | job j e => exact h.stepJob hstep
  | joinJobs p =>
    simp only [World.step] at hstep
    split_ifs at hstep with hp
    obtain ⟨rs, hrs, rfl⟩ := Option.map_eq_some_iff.mp hstep
    refine h.endProcess fun s hs hfinished hprocess => ?_
    -- the job would be one of those that have been joined
    have hborn := (h.phased.working s hs hfinished).1
    have hresult := results_ne_none hrs s (List.mem_filter.mpr ⟨hs, by simp [hborn, hprocess]⟩)
    obtain ⟨result, hresult⟩ := Option.ne_none_iff_exists'.mp hresult
    exact hfinished ⟨result, Started.result_eq_some.mp hresult⟩
  | joinProcesses =>
    simp only [World.step] at hstep
    split_ifs at hstep with hmain
    obtain ⟨rs, hrs, rfl⟩ := Option.map_eq_some_iff.mp hstep
    refine h.takeUpdaters (by simp [hmain]) (by simp [hmain]) (fun p hp => ?_) _
    obtain ⟨result, hresult⟩ := Option.ne_none_iff_exists'.mp (results_ne_none hrs p hp)
    exact ⟨result, Process.result_eq_some.mp hresult⟩
  | poll k =>
    simp only [World.step] at hstep
    split_ifs at hstep with hspawned
    obtain rfl := Option.some.inj hstep
    exact h.poll hspawned
  | listed k slots =>
    simp only [World.step] at hstep
    split_ifs at hstep with hlisting
    obtain rfl := Option.some.inj hstep
    exact h.onListed hlisting slots
  | listFailed k e =>
    simp only [World.step] at hstep
    split_ifs at hstep
    obtain rfl := Option.some.inj hstep
    exact h.failUpdate k e
  | deposited k i result =>
    simp only [World.step] at hstep
    split at hstep
    · rename_i born emptied tasks hdepositing
      split_ifs at hstep
      obtain rfl := Option.some.inj hstep
      exact h.deposited hdepositing _
    · cases hstep
  | joinDeposits k =>
    simp only [World.step] at hstep
    split at hstep
    · rename_i born emptied tasks hdepositing
      obtain ⟨rs, -, rfl⟩ := Option.map_eq_some_iff.mp hstep
      split
      · have hrunning : (w.side k).updater ≠ .idle := by simp [hdepositing]
        have hopen := (h.phased.fits k).isOpen hrunning (by simp [hdepositing])
        obtain ⟨hnodup, hout⟩ := h.apart k _ _ _ hdepositing
        exact conclude h.holds h.phased (fun k' _ => h.apart k') hopen hrunning hnodup hout _
      · exact h.failUpdate k _
    · cases hstep
  | endOfCycle =>
    simp only [World.step] at hstep
    split_ifs at hstep with hawaiting
    obtain rfl := Option.some.inj hstep
    obtain ⟨hmain, hitem, hfluid⟩ := hawaiting
    have hrunning : w.main ≠ .running := by simp [hmain]
    have hawaited : ∀ k, (w.side k).awaited = false
      | .item => hitem
      | .fluid => hfluid
    exact h.goOn hrunning hawaited .sleeping (w.cycle + 1) true
      (fun _ => rfl) fun _ => h.phased.ended hrunning

end Inv

theorem run_inv {cfg : Config} {es : List Event} {w : World} (h : run cfg es = some w) :
    Inv cfg w :=
  List.foldlM_inv (fun _ _ _ _ hinv hstep => hinv.step hstep) .start h

/-- Nothing of the cycle is left. -/
structure Barrier (w : World) : Prop where
  ended : ∀ p ∈ w.processes, ∃ result, p = .ended result
  finished : ∀ s ∈ w.jobs, s.job.Finished
  stopped : ∀ k, (w.side k).updater = .idle ∧ (w.side k).bus.busTask = false
  queues : ∀ k, (w.side k).bus.busWaitQueue = []
  held : ∀ k, w.heldOn k = []
  /-- What is allocated waits to be emptied. -/
  allocated : ∀ k, (w.side k).bus.busAllocations = (w.side k).bus.busFreeQueue.toFinset
  clean : ∀ k, (w.side k).updated = true → (w.side k).bus.busAllocations = ∅

theorem Inv.barrier {cfg : Config} {w : World} (h : Inv cfg w) (hmain : w.main ≠ .running)
    (hawaited : ∀ k, (w.side k).awaited = false) : w.Barrier := by
  have htask (k : BusKind) := (h.phased.fits k).busTask_eq hmain
  have hidle (k : BusKind) := (h.phased.fits k).idle (htask k) (hawaited k)
  have hfinished (s : Started) (hs : s ∈ w.jobs) := h.phased.finished hmain hs
  have hheld (k : BusKind) : w.heldOn k = [] := by
    refine List.flatMap_eq_nil_iff.mpr fun s hs => ?_
    rw [(hfinished s hs).held]
    rfl
  have hallocated (k : BusKind) :
      (w.side k).bus.busAllocations = (w.side k).bus.busFreeQueue.toFinset := by
    ext slot
    rw [(h.holds.owns k).mem_iff, hheld, List.mem_toFinset]
    rfl
  refine ⟨h.phased.ended hmain, hfinished, fun k => ⟨hidle k, htask k⟩, fun k => ?_, hheld,
    hallocated, fun k hupdated => ?_⟩
  · refine List.eq_nil_iff_forall_not_mem.mpr fun r hr => ?_
    obtain ⟨s, hs, hwait⟩ := (h.holds.waits r).mpr (.inr (h.holds.kinds k r hr ▸ hr))
    exact (hfinished s (List.mem_of_getElem? hs)).not_waits _ _ hwait
  · rw [hallocated, (h.phased.fits k).drained (hidle k) hupdated]
    rfl

end World

/-- The barrier: whatever succeeded or failed in a run, nothing is left of a cycle when
`end_of_cycle` is called and while the storages and the tables are clear, every extraction and
deposit is made in the cycle that it was started in before they are cleared, and a bus has one
updater at most. -/
theorem cycle_barrier (cfg : Config) {es : List Event} {w : World}
    (h : World.run cfg es = some w) :
    (∀ w', World.step cfg w .endOfCycle = some w' → w.Barrier) ∧
    (w.cleared = true → w.Barrier) ∧
    (∀ t ∈ w.touches, t.born = t.cycle ∧ t.cleared = false) ∧
    ∀ k, (w.side k).doubled = false := by
  have hinv := World.run_inv h
  refine ⟨fun w' hstep => ?_, fun hcleared => ?_, hinv.phased.touches,
    fun k => (hinv.phased.fits k).single⟩
  · simp only [World.step] at hstep
    split_ifs at hstep with hawaiting
    obtain ⟨hmain, hitem, hfluid⟩ := hawaiting
    refine hinv.barrier (by simp [hmain]) fun k => ?_
    cases k with
    | item => exact hitem
    | fluid => exact hfluid
  · have hmain := hinv.phased.cleared hcleared
    exact hinv.barrier (by simp [hmain]) fun k =>
      (hinv.phased.fits k).awaited_eq (by simp [hmain])

/-- An extraction of a job and then a deposit fail. -/
def failedCycle : List Event :=
  [.wake, .updated 0 (.ok ()), .joinUpdates, .starts 0 [⟨[(.item, [2])], [.load none], .deposit⟩],
    .job 0 (.input 0 .allocate), .poll .item, .listed .item [none, some 1], .job 0 (.input 0 .poll),
    .job 0 (.input 0 (.extracted 0 (.error "chest"))), .job 0 .join, .joinJobs 0, .joinProcesses,
    .deposited .item 0 (.error "bus"), .joinDeposits .item]

theorem cycle_barrier_failedCycle : ∃ w w', World.run ⟨1, 1, true⟩ failedCycle = some w ∧
    World.step ⟨1, 1, true⟩ w .endOfCycle = some w' ∧ (w.side .item).bus.busFreeQueue = [0] ∧
    w.Barrier := by
  have hreached : ((World.run ⟨1, 1, true⟩ failedCycle).bind fun w =>
      (World.step ⟨1, 1, true⟩ w .endOfCycle).map fun _ => (w.side .item).bus.busFreeQueue) =
      some [0] := by decide +kernel
  obtain ⟨w, hrun, hend⟩ := Option.bind_eq_some_iff.mp hreached
  obtain ⟨w', hstep, hfree⟩ := Option.map_eq_some_iff.mp hend
  exact ⟨w, w', hrun, hstep, hfree, (cycle_barrier _ hrun).1 w' hstep⟩

end Cycle
end OCRemote
