import OCRemote.Cycle.Slots

/-! Where the parties can be together. The updater of a bus is referred to by the factory or by
`factory_main`, processes run only while they are waited for, and jobs run only while their process
waits for them. -/

namespace OCRemote
namespace Cycle

namespace Side

/-- What holds of a bus and its updater while `factory_main` is at `main`. -/
structure Fits (cfg : Config) (k : BusKind) (main : Main) (cycle : ℕ) (s : Side) : Prop where
  handled : s.updater ≠ .idle ↔ s.bus.busTask = true ∨ s.awaited = true
  single : s.doubled = false
  taken : s.awaited = true → main = .awaiting
  untaken : s.bus.busTask = true → main = .running
  drained : s.updater = .idle → s.updated = true → s.bus.busFreeQueue = []
  closed : k = .fluid → cfg.fluidBus = false →
    s.bus.busAllocations = ∅ ∧ (s.updater = .idle ∨ s.updater = .spawned)
  born : ∀ n emptied tasks, s.updater = .depositing n emptied tasks → n = cycle

/-- The slots that the updater has emptied are nobody's. -/
def Apart (s : Side) : Prop :=
  ∀ n emptied tasks, s.updater = .depositing n emptied tasks →
    emptied.Nodup ∧ ∀ slot ∈ emptied, slot ∉ s.bus.busAllocations

theorem apart_of_ne {s : Side} (h : ∀ n emptied tasks, s.updater ≠ .depositing n emptied tasks) :
    s.Apart := fun n emptied tasks hs => absurd hs (h n emptied tasks)

theorem Apart.of_subset {s : Side} (h : s.Apart) {bus : Bus Request}
    (hsub : bus.busAllocations ⊆ s.bus.busAllocations) : Apart { s with bus := bus } :=
  fun n emptied tasks hs =>
    ⟨(h n emptied tasks hs).1, fun slot hslot hin => (h n emptied tasks hs).2 slot hslot (hsub hin)⟩

theorem Apart.spawn {s : Side} (h : s.Apart) : s.spawn.Apart := by
  unfold Side.spawn
  split_ifs
  · exact apart_of_ne nofun
  · exact h

theorem Apart.wake {s : Side} (h : s.Apart) {bus : Bus Request}
    (hsub : bus.busAllocations ⊆ s.bus.busAllocations) : (s.wake bus).Apart := by
  unfold Side.wake
  split_ifs
  · exact (h.of_subset hsub).spawn
  · exact h.of_subset hsub

theorem Apart.take {s : Side} (h : s.Apart) (ok : Bool) : (s.take ok).Apart := by
  unfold Side.take
  split_ifs
  · exact h
  · exact h.spawn
  · exact h

theorem take_bus (s : Side) (ok : Bool) :
    (s.take ok).bus.busAllocations = s.bus.busAllocations ∧
      (s.take ok).bus.busFreeQueue = s.bus.busFreeQueue ∧
      (s.take ok).bus.busWaitQueue = s.bus.busWaitQueue := by
  unfold Side.take Side.spawn
  split_ifs <;> exact ⟨rfl, rfl, rfl⟩

theorem apart_stop {s : Side} {bus : Bus Request} {updated : Bool} : (s.stop bus updated).Apart :=
  apart_of_ne nofun

namespace Fits
variable {cfg : Config} {k : BusKind} {main : Main} {cycle : ℕ} {s : Side}

theorem busTask_eq (h : s.Fits cfg k main cycle) (hmain : main ≠ .running) :
    s.bus.busTask = false := Bool.eq_false_iff.mpr fun htask => hmain (h.untaken htask)

theorem awaited_eq (h : s.Fits cfg k main cycle) (hmain : main ≠ .awaiting) : s.awaited = false :=
  Bool.eq_false_iff.mpr fun hawaited => hmain (h.taken hawaited)

theorem idle (h : s.Fits cfg k main cycle) (htask : s.bus.busTask = false)
    (hawaited : s.awaited = false) : s.updater = .idle := by
  by_contra hrunning
  rcases h.handled.mp hrunning with hon | hon
  · simp [htask] at hon
  · simp [hawaited] at hon

/-- With no updater `factory_main` can go on. -/
theorem rest (h : s.Fits cfg k main cycle) (htask : s.bus.busTask = false)
    (hawaited : s.awaited = false) (main' : Main) (cycle' : ℕ) : s.Fits cfg k main' cycle' where
  handled := h.handled
  single := h.single
  taken hon := by simp [hawaited] at hon
  untaken hon := by simp [htask] at hon
  drained := h.drained
  closed := h.closed
  born n emptied tasks hs := by simp [h.idle htask hawaited] at hs

/-- An update of the bus that leaves the updater where it is. -/
theorem setBus (h : s.Fits cfg k main cycle) {bus : Bus Request}
    (htask : bus.busTask = s.bus.busTask) (hfree : bus.busFreeQueue = s.bus.busFreeQueue)
    (hclosed : k = .fluid → cfg.fluidBus = false → bus.busAllocations = ∅) :
    Fits cfg k main cycle { s with bus := bus } where
  handled := by
    rw [htask]
    exact h.handled
  single := h.single
  taken := h.taken
  untaken hon := h.untaken (htask ▸ hon)
  drained hidle hupdated := hfree.trans (h.drained hidle hupdated)
  closed hk hcfg := ⟨hclosed hk hcfg, (h.closed hk hcfg).2⟩
  born := h.born

theorem closed_of_subset (h : s.Fits cfg k main cycle) {bus : Bus Request}
    (hsub : bus.busAllocations ⊆ s.bus.busAllocations) (hk : k = .fluid)
    (hcfg : cfg.fluidBus = false) : bus.busAllocations = ∅ := by
  rw [(h.closed hk hcfg).1] at hsub
  exact Finset.subset_empty.mp hsub

/-- A job wakes the updater if there is none, which is so if the factory has no handle of it. -/
theorem wake (h : s.Fits cfg k .running cycle) {bus : Bus Request}
    (hon : s.bus.busTask = true → bus.busTask = true)
    (hfree : s.bus.busTask = false → bus.busFreeQueue = s.bus.busFreeQueue)
    (hsub : bus.busAllocations ⊆ s.bus.busAllocations) :
    (s.wake bus).Fits cfg k .running cycle := by
  have hawaited := h.awaited_eq (by decide)
  have hclosed := h.closed_of_subset hsub
  cases htask : s.bus.busTask with
  | true =>
    have hrunning : s.updater ≠ .idle := h.handled.mpr (.inl htask)
    have hwake : s.wake bus = { s with bus := bus } := by simp [Side.wake, htask]
    rw [hwake]
    exact {
      handled := iff_of_true hrunning (.inl (hon htask))
      single := h.single
      taken := h.taken
      untaken := fun _ => rfl
      drained := fun hidle => absurd hidle hrunning
      closed := fun hk hcfg => ⟨hclosed hk hcfg, (h.closed hk hcfg).2⟩
      born := h.born }
  | false =>
    have hidle := h.idle htask hawaited
    cases hnew : bus.busTask with
    | false =>
      have hwake : s.wake bus = { s with bus := bus } := by simp [Side.wake, hnew]
      rw [hwake]
      exact h.setBus (hnew.trans htask.symm) (hfree htask) hclosed
    | true =>
      have hwake : s.wake bus = { s with
          bus := bus
          updater := .spawned } := by simp [Side.wake, Side.spawn, hnew, htask, hidle]
      rw [hwake]
      exact {
        handled := iff_of_true nofun (.inl hnew)
        single := h.single
        taken := h.taken
        untaken := fun _ => rfl
        drained := nofun
        closed := fun hk hcfg => ⟨hclosed hk hcfg, .inr rfl⟩
        born := nofun }

theorem stop (h : s.Fits cfg k main cycle) {bus : Bus Request} {updated : Bool}
    (hfree : updated = true → bus.busFreeQueue = [])
    (hclosed : k = .fluid → cfg.fluidBus = false → bus.busAllocations = ∅) :
    (s.stop bus updated).Fits cfg k main cycle where
  handled := by simp [Side.stop]
  single := h.single
  taken := nofun
  untaken := nofun
  drained _ := hfree
  closed hk hcfg := ⟨hclosed hk hcfg, .inl rfl⟩
  born := nofun

/-- The updater goes on. -/
theorem setUpdater (h : s.Fits cfg k main cycle) (hrunning : s.updater ≠ .idle) (bus : Bus Request)
    (htask : bus.busTask = s.bus.busTask) (updater : Updater) (hstays : updater ≠ .idle)
    (hopen : ¬ (k = .fluid ∧ cfg.fluidBus = false))
    (hborn : ∀ n emptied tasks, updater = .depositing n emptied tasks → n = cycle) :
    Fits cfg k main cycle { s with
      bus := bus
      updater := updater } where
  handled := by
    rw [htask]
    exact iff_of_true hstays (h.handled.mp hrunning)
  single := h.single
  taken := h.taken
  untaken hon := h.untaken (htask ▸ hon)
  drained hidle := absurd hidle hstays
  closed hk hcfg := absurd ⟨hk, hcfg⟩ hopen
  born := hborn

/-- After the processes, `factory_main` takes the updater or spawns one. -/
theorem take (h : s.Fits cfg k main cycle) (hmain : main ≠ .awaiting) (ok : Bool) :
    (s.take ok).Fits cfg k .awaiting cycle := by
  have hawaited := h.awaited_eq hmain
  unfold Side.take
  split_ifs with htask hspawn
  · have hrunning : s.updater ≠ .idle := h.handled.mpr (.inl htask)
    exact {
      handled := iff_of_true hrunning (.inr rfl)
      single := h.single
      taken := fun _ => rfl
      untaken := nofun
      drained := fun hidle => absurd hidle hrunning
      closed := h.closed
      born := h.born }
  · have htask := Bool.eq_false_iff.mpr htask
    have hwake : s.spawn = { s with updater := .spawned } := by
      simp [Side.spawn, h.idle htask hawaited]
    rw [hwake]
    exact {
      handled := iff_of_true nofun (.inr rfl)
      single := h.single
      taken := fun _ => rfl
      untaken := fun hon => by simp [htask] at hon
      drained := nofun
      closed := fun hk hcfg => ⟨(h.closed hk hcfg).1, .inr rfl⟩
      born := nofun }
  · exact h.rest (Bool.eq_false_iff.mpr htask) hawaited _ _

/-- A bus with accesses has an updater that does something. -/
theorem isOpen (h : s.Fits cfg k main cycle) (hidle : s.updater ≠ .idle)
    (hspawned : s.updater ≠ .spawned) : ¬ (k = .fluid ∧ cfg.fluidBus = false) :=
  fun ⟨hk, hcfg⟩ => (h.closed hk hcfg).2.elim hidle hspawned

end Fits
end Side

theorem Process.result_eq_some {p : Process} {result : Except String Unit} :
    p.result = some result ↔ p = .ended result := by
  cases p <;> simp [Process.result]

theorem Started.result_eq_some {s : Started} {result : Except String Unit} :
    s.result = some result ↔ s.job.phase = .finished result := by
  unfold Started.result
  cases s.job.phase <;> simp

namespace World

theorem deliver_eq (w : World) (r : Request) (result : Except String ℕ) :
    ∃ jobs, w.deliver r result = { w with jobs := jobs } := by
  unfold World.deliver
  split
  · exact ⟨w.jobs, rfl⟩
  · split
    · exact ⟨w.jobs, rfl⟩
    · exact ⟨_, rfl⟩

theorem deliver_main (w : World) (r : Request) (result : Except String ℕ) :
    (w.deliver r result).main = w.main := by
  obtain ⟨jobs, hdeliver⟩ := w.deliver_eq r result
  rw [hdeliver]

theorem effect_main (w : World) (j : ℕ) (e : Effect) : (effect j w e).main = w.main := by
  cases e with
  | release r =>
    cases r with
    | free slot =>
      show World.main (w.release _) = w.main
      simp only [World.release]
      split
      · exact deliver_main ..
      · rfl
    | deposit k slots => rfl
  | _ => rfl

theorem foldl_deliver_eq {α : Type} {f : World → α → World}
    (hf : ∀ w a, ∃ r result, f w a = w.deliver r result) (l : List α) (w : World) :
    ∃ jobs, l.foldl f w = { w with jobs := jobs } := by
  induction l generalizing w with
  | nil => exact ⟨w.jobs, rfl⟩
  | cons a l ih =>
    obtain ⟨r, result, hfirst⟩ := hf w a
    obtain ⟨jobs, hdeliver⟩ := w.deliver_eq r result
    obtain ⟨jobs', hrest⟩ := ih (f w a)
    refine ⟨jobs', ?_⟩
    rw [List.foldl_cons, hrest, hfirst, hdeliver]

/-- Slots are given by sending them to jobs. -/
theorem give_eq (w : World) (k : BusKind) (slots : List ℕ) :
    ∃ jobs, w.give k slots =
      { w.setBus k ((w.side k).bus.giveOut slots).1 with jobs := jobs } :=
  foldl_deliver_eq (fun _ _ => ⟨_, _, rfl⟩) _ _

theorem failUpdate_eq (w : World) (k : BusKind) (e : String) :
    ∃ jobs, w.failUpdate k e =
      { w.setSide k ((w.side k).stop (w.side k).bus.abort false) with jobs := jobs } :=
  foldl_deliver_eq (fun _ _ => ⟨_, _, rfl⟩) _ _

theorem give_side (w : World) (k : BusKind) (slots : List ℕ) :
    (w.give k slots).side = (w.setBus k ((w.side k).bus.giveOut slots).1).side := by
  obtain ⟨jobs, hgive⟩ := w.give_eq k slots
  rw [hgive]

theorem give_updater (w : World) (k : BusKind) (slots : List ℕ) :
    ((w.give k slots).side k).updater = (w.side k).updater := by
  rw [give_side, setBus, setSide_self]

theorem mem_give {w : World} {k : BusKind} {slots : List ℕ} {slot : ℕ}
    (h : slot ∈ ((w.give k slots).side k).bus.busAllocations) :
    slot ∈ (w.side k).bus.busAllocations ∨ slot ∈ slots := by
  rw [give_side, setBus, setSide_self, Bus.mem_giveOut] at h
  exact h.imp_right fun hslot => List.mem_reverse.mp (List.mem_of_mem_take hslot)

/-- Where the parties are together. -/
structure Phased (cfg : Config) (w : World) : Prop where
  fits : ∀ k, (w.side k).Fits cfg k w.main w.cycle
  ended : w.main ≠ .running → ∀ p ∈ w.processes, ∃ result, p = .ended result
  working : ∀ s ∈ w.jobs, ¬ s.job.Finished →
    s.born = w.cycle ∧ w.processes[s.process]? = some .working
  cleared : w.cleared = true → w.main = .sleeping
  touches : ∀ t ∈ w.touches, t.born = t.cycle ∧ t.cleared = false

namespace Phased
variable {cfg : Config} {w : World}

theorem setSide (h : Phased cfg w) {k : BusKind} {s : Side} (hs : s.Fits cfg k w.main w.cycle) :
    Phased cfg (w.setSide k s) := by
  refine ⟨fun k' => ?_, h.ended, h.working, h.cleared, h.touches⟩
  rcases eq_or_ne k' k with rfl | hk
  · rwa [setSide_self]
  · rw [setSide_of_ne w hk]
    exact h.fits k'

/-- A process that works is waited for. -/
theorem running (h : Phased cfg w) {s : Started} (hs : s ∈ w.jobs) (hfinished : ¬ s.job.Finished) :
    w.main = .running := by
  by_contra hmain
  obtain ⟨result, hended⟩ := h.ended hmain _ (List.mem_of_getElem? (h.working s hs hfinished).2)
  cases hended

/-- An updater is waited for, now or later. -/
theorem awake (h : Phased cfg w) {k : BusKind} (hrunning : (w.side k).updater ≠ .idle) :
    w.main ≠ .sleeping := by
  intro hmain
  rcases (h.fits k).handled.mp hrunning with hon | hon
  · cases hmain.symm.trans ((h.fits k).untaken hon)
  · cases hmain.symm.trans ((h.fits k).taken hon)

/-- Jobs have finished when the processes have ended. -/
theorem finished (h : Phased cfg w) (hmain : w.main ≠ .running) {s : Started} (hs : s ∈ w.jobs) :
    s.job.Finished := by
  by_contra hfinished
  exact hmain (h.running hs hfinished)

theorem setJob (h : Phased cfg w) {j : ℕ} {s : Started} (hj : w.jobs[j]? = some s)
    (hfinished : ¬ s.job.Finished) (job : Job) :
    Phased cfg { w with jobs := w.jobs.set j { s with job := job } } := by
  refine ⟨h.fits, h.ended, fun t ht hrest => ?_, h.cleared, h.touches⟩
  rcases List.mem_or_eq_of_mem_set ht with ht | rfl
  · exact h.working t ht hrest
  · exact h.working s (List.mem_of_getElem? hj) hfinished

theorem deliver (h : Phased cfg w) (r : Request) (result : Except String ℕ) :
    Phased cfg (w.deliver r result) := by
  unfold World.deliver
  split
  · exact h
  · rename_i s hj
    split
    · exact h
    · rename_i hstep
      exact h.setJob hj (Job.step_unfinished hstep) _

theorem touch (h : Phased cfg w) (hmain : w.main ≠ .sleeping) {born : ℕ} (hborn : born = w.cycle)
    (n : ℕ) : Phased cfg (w.touch born n) := by
  refine ⟨h.fits, h.ended, h.working, h.cleared, fun t ht => ?_⟩
  rcases List.mem_append.mp ht with ht | ht
  · exact h.touches t ht
  · obtain rfl := List.eq_of_mem_replicate ht
    exact ⟨hborn, Bool.eq_false_iff.mpr fun hcleared => hmain (h.cleared hcleared)⟩

theorem release (h : Phased cfg w) (hmain : w.main = .running) (r : Release) :
    Phased cfg (w.release r) := by
  cases r with
  | free slot =>
    obtain ⟨k, n⟩ := slot
    have hfree : Phased cfg (w.setBus k ((w.side k).bus.free n).1) := by
      refine h.setSide ((h.fits k).setBus ?_ ?_ fun hk hcfg => ?_)
      · unfold Bus.free
        split <;> rfl
      · unfold Bus.free
        split <;> rfl
      · exact (h.fits k).closed_of_subset (Bus.free_subset ..) hk hcfg
    simp only [World.release]
    split
    · rename_i heq
      rw [heq] at hfree
      exact hfree.deliver ..
    · rename_i heq
      rwa [heq] at hfree
  | deposit k slots =>
    have hfits := h.fits k
    rw [hmain] at hfits
    refine h.setSide (hmain ▸ hfits.wake (fun htask => ?_) (fun htask => ?_) ?_)
    · simp [Bus.deposit, htask]
    · simp [Bus.deposit, htask]
    · exact Bus.deposit_subset ..

theorem effect (h : Phased cfg w) (hmain : w.main = .running) (j : ℕ) (e : Effect) :
    Phased cfg (effect j w e) := by
  cases e with
  | asked k i =>
    have hfits := h.fits k
    rw [hmain] at hfits
    exact h.setSide (hmain ▸ hfits.wake (fun _ => rfl) (fun _ => rfl) (Finset.Subset.refl _))
  | release r => exact h.release hmain r
  | _ => exact h

theorem effects (h : Phased cfg w) (hmain : w.main = .running) (j : ℕ) (effects : List Effect) :
    Phased cfg (effects.foldl (World.effect j) w) := by
  induction effects generalizing w with
  | nil => exact h
  | cons e effects ih => exact ih (h.effect hmain j e) ((effect_main ..).trans hmain)

theorem stepJob (h : Phased cfg w) {j : ℕ} {e : JobEvent} {w' : World}
    (hstep : w.stepJob j e = some w') : Phased cfg w' := by
  unfold World.stepJob at hstep
  split at hstep
  · cases hstep
  split at hstep
  · cases hstep
  rename_i s hj
  obtain ⟨⟨job, effects⟩, hjob, rfl⟩ := Option.map_eq_some_iff.mp hstep
  have hfinished := Job.step_unfinished hjob
  have hs := List.mem_of_getElem? hj
  have hmain := h.running hs hfinished
  have hawake : w.main ≠ .sleeping := by
    rw [hmain]
    nofun
  have htouched := (h.setJob hj hfinished job).touch hawake (h.working s hs hfinished).1
    (if isExtraction e then 1 else 0)
  exact htouched.effects hmain j effects

theorem give (h : Phased cfg w) {k : BusKind} (hopen : ¬ (k = .fluid ∧ cfg.fluidBus = false))
    (slots : List ℕ) : Phased cfg (w.give k slots) := by
  refine List.foldlRecOn _ _ ?_ fun _ h _ _ => h.deliver ..
  exact h.setSide ((h.fits k).setBus (Bus.giveOut_busTask ..) (Bus.giveOut_busFreeQueue ..)
    fun hk hcfg => absurd ⟨hk, hcfg⟩ hopen)

theorem failUpdate (h : Phased cfg w) (k : BusKind) (e : String) :
    Phased cfg (w.failUpdate k e) := by
  refine List.foldlRecOn _ _ ?_ fun _ h _ _ => h.deliver ..
  exact h.setSide ((h.fits k).stop nofun fun hk hcfg => ((h.fits k).closed hk hcfg).1)

theorem beginUpdate (h : Phased cfg w) {k : BusKind} (hrunning : (w.side k).updater ≠ .idle)
    (hfree : k = .fluid → cfg.fluidBus = false → (w.side k).bus.busFreeQueue = []) :
    Phased cfg (w.beginUpdate cfg k) := by
  unfold World.beginUpdate
  split_ifs with hk
  · obtain ⟨hk, hcfg⟩ : k = .fluid ∧ cfg.fluidBus = false := by simpa using hk
    have hclosed := ((h.fits k).closed hk hcfg).1
    exact h.setSide ((h.fits k).stop (fun _ => hfree hk hcfg) fun _ _ => hclosed)
  · have hopen : ¬ (k = .fluid ∧ cfg.fluidBus = false) := by simpa using hk
    refine h.setSide ((h.fits k).setUpdater hrunning _ ?_ .listing nofun hopen nofun)
    rfl

theorem conclude (h : Phased cfg w) {k : BusKind} (hopen : ¬ (k = .fluid ∧ cfg.fluidBus = false))
    (hrunning : (w.side k).updater ≠ .idle) (everDeposited : Bool) :
    Phased cfg (w.conclude cfg k everDeposited) := by
  have hclosed {p : Prop} (hk : k = .fluid) (hcfg : cfg.fluidBus = false) : p :=
    absurd ⟨hk, hcfg⟩ hopen
  have hdrained : Phased cfg (w.setBus k (w.side k).bus.drain.1) := by
    refine h.setSide ((h.fits k).setUpdater hrunning _ ?_ _ hrunning hopen (h.fits k).born)
    rfl
  unfold World.conclude
  simp only
  split_ifs
  · refine hdrained.beginUpdate ?_ hclosed
    rwa [setBus, setSide_self]
  · exact h.setSide ((h.fits k).stop (fun _ => rfl) hclosed)

theorem takeUpdaters (h : Phased cfg w) (hawake : w.main ≠ .sleeping) (hmain : w.main ≠ .awaiting)
    (hended : ∀ p ∈ w.processes, ∃ result, p = .ended result) (ok : Bool) :
    Phased cfg (w.takeUpdaters ok) :=
  ⟨fun k => (h.fits k).take hmain ok, fun _ => hended, h.working,
    fun hon => absurd (h.cleared hon) hawake, h.touches⟩

end Phased
end World
end Cycle
end OCRemote
