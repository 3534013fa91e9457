import OCRemote.Cycle.World
import OCRemote.Process.JobHeld

/-! Who has the slots of the buses and who waits for one. In the middle of a step some slots are
owed, as they were released or popped and not handed over yet, and some requests are called, as they
are in no queue. -/

namespace OCRemote

theorem ofBus_append (k : BusKind) (slots slots' : List BusSlot) :
    ofBus k (slots ++ slots') = ofBus k slots ++ ofBus k slots' := by
  simp [ofBus]

theorem ofBus_perm {slots slots' : List BusSlot} (h : slots.Perm slots') (k : BusKind) :
    (ofBus k slots).Perm (ofBus k slots') := (h.filter _).map _

theorem ofBus_map_self (k : BusKind) (slots : List ℕ) :
    ofBus k (slots.map (Prod.mk k)) = slots := by
  simp [ofBus, List.filter_map, Function.comp_def]

theorem ofBus_map_ne {k k' : BusKind} (h : k' ≠ k) (slots : List ℕ) :
    ofBus k' (slots.map (Prod.mk k)) = [] := by
  simp [ofBus, List.filter_map, Function.comp_def, Ne.symm h]

namespace Bus.Owns
variable {ρ : Type} {b : Bus ρ} {held : List ℕ}

/-- Slots that are given back leave the others. -/
theorem deposit_append {slots : List ℕ} (h : Owns b (held ++ slots)) :
    Owns (b.deposit slots) held := by
  obtain ⟨hheld, hslots, hdisjoint⟩ := List.nodup_append.mp (List.nodup_append.mp h.nodup).1
  have hdeposit := h.deposit hslots fun s hs => List.mem_append_right _ hs
  have hrest : (held ++ slots).filter (· ∉ slots) = held := by
    rw [List.filter_append, List.filter_eq_self.mpr, List.filter_eq_nil_iff.mpr, List.append_nil]
    · intro s hs
      simpa using hs
    · intro s hs
      simpa using fun hs' => hdisjoint s hs s hs' rfl
  rwa [hrest] at hdeposit

theorem free_cons {slot : ℕ} (h : Owns b (slot :: held)) :
    Owns { b with busAllocations := b.busAllocations.erase slot } held := h.free (k := 0) rfl

end Bus.Owns

namespace Cycle
namespace World

/-- The slots of a bus that jobs hold. -/
def heldOn (w : World) (k : BusKind) : List ℕ := w.jobs.flatMap fun s => ofBus k s.job.held

def Waits (w : World) (r : Request) : Prop :=
  ∃ s, w.jobs[r.job]? = some s ∧ s.job.Waits r.bus r.input

@[simp] theorem setSide_self (w : World) (k : BusKind) (s : Side) : (w.setSide k s).side k = s :=
  Function.update_self ..

theorem setSide_of_ne (w : World) {k k' : BusKind} (h : k' ≠ k) (s : Side) :
    (w.setSide k s).side k' = w.side k' := Function.update_of_ne h ..

theorem heldOn_set {w : World} {j : ℕ} {s : Started} (hj : w.jobs[j]? = some s) (s' : Started)
    {old new : List BusSlot} (hheld : (s'.job.held ++ old).Perm (s.job.held ++ new)) (k : BusKind) :
    (heldOn { w with jobs := w.jobs.set j s' } k ++ ofBus k old).Perm
      (w.heldOn k ++ ofBus k new) := by
  refine List.perm_flatMap_trade hj ?_
  rw [← ofBus_append, ← ofBus_append]
  exact ofBus_perm hheld k

theorem waits_set {w : World} {j : ℕ} {s s' : Started} (hj : w.jobs[j]? = some s) (r : Request) :
    Waits { w with jobs := w.jobs.set j s' } r ↔
      if r.job = j then s'.job.Waits r.bus r.input else w.Waits r := by
  unfold Waits
  split_ifs with heq
  · rw [heq, List.getElem?_set_self (List.getElem?_eq_some_iff.mp hj).1]
    simp
  · rw [List.getElem?_set_ne (Ne.symm heq)]

/-- The allocated slots are those that jobs hold, those that are owed and those that wait to be
emptied. The requests that jobs wait for are those that are called and those that are queued. -/
structure Holds (w : World) (owed : List BusSlot) (called : List Request) : Prop where
  marked : ∀ s ∈ w.jobs, s.job.Marked
  owns : ∀ k, (w.side k).bus.Owns (w.heldOn k ++ ofBus k owed)
  kinds : ∀ k, ∀ r ∈ (w.side k).bus.busWaitQueue, r.bus = k
  nodup : ∀ k, (called ++ (w.side k).bus.busWaitQueue).Nodup
  waits : ∀ r, w.Waits r ↔ r ∈ called ∨ r ∈ (w.side r.bus).bus.busWaitQueue

namespace Holds
variable {w : World} {owed : List BusSlot} {called : List Request}

/-- A step on one of the buses. -/
theorem setSide (h : Holds w owed called) {k : BusKind} {s : Side} {owed' : List BusSlot}
    {called' : List Request} (howns : s.bus.Owns (w.heldOn k ++ ofBus k owed'))
    (hother : ∀ k', k' ≠ k → ofBus k' owed' = ofBus k' owed)
    (hkind : ∀ r ∈ s.bus.busWaitQueue, r.bus = k)
    (hperm : (called' ++ s.bus.busWaitQueue).Perm (called ++ (w.side k).bus.busWaitQueue)) :
    Holds (w.setSide k s) owed' called' := by
  have hmem (r : Request) : r ∈ called' ∨ r ∈ s.bus.busWaitQueue ↔
      r ∈ called ∨ r ∈ (w.side k).bus.busWaitQueue := by
    rw [← List.mem_append, hperm.mem_iff, List.mem_append]
  have hnodup : (called' ++ s.bus.busWaitQueue).Nodup := hperm.nodup_iff.mpr (h.nodup k)
  refine ⟨h.marked, fun k' => ?_, fun k' => ?_, fun k' => ?_, fun r => ?_⟩
  · rcases eq_or_ne k' k with rfl | hk
    · rwa [setSide_self]
    · rw [setSide_of_ne w hk, hother k' hk]
      exact h.owns k'
  · rcases eq_or_ne k' k with rfl | hk
    · rwa [setSide_self]
    · rw [setSide_of_ne w hk]
      exact h.kinds k'
  · rcases eq_or_ne k' k with rfl | hk
    · rwa [setSide_self]
    · rw [setSide_of_ne w hk]
      obtain ⟨-, hqueue, hout⟩ := List.nodup_append.mp (h.nodup k')
      refine List.nodup_append.mpr ⟨(List.nodup_append.mp hnodup).1, hqueue, ?_⟩
      rintro r hr _ hr' rfl
      rcases (hmem r).mp (.inl hr) with hcalled | hqueued
      · exact hout r hcalled r hr' rfl
      · exact hk ((h.kinds k' r hr').symm.trans (h.kinds k r hqueued))
  · show w.Waits r ↔ _
    rw [h.waits]
    rcases eq_or_ne r.bus k with hbus | hk
    · rw [hbus, setSide_self]
      exact (hmem r).symm
    · rw [setSide_of_ne w hk]
      have hout : r ∉ s.bus.busWaitQueue ∧ r ∉ (w.side k).bus.busWaitQueue :=
        ⟨fun hr => hk (hkind r hr), fun hr => hk (h.kinds k r hr)⟩
      have hcalled : r ∈ called' ↔ r ∈ called := by simpa [hout] using hmem r
      rw [hcalled]

/-- A step that leaves the queues and the allocations of its bus alone. -/
theorem setSide_of_eq (h : Holds w owed called) {k : BusKind} {s : Side}
    (hallocations : s.bus.busAllocations = (w.side k).bus.busAllocations)
    (hfree : s.bus.busFreeQueue = (w.side k).bus.busFreeQueue)
    (hqueue : s.bus.busWaitQueue = (w.side k).bus.busWaitQueue) :
    Holds (w.setSide k s) owed called := by
  have howns := h.owns k
  refine h.setSide ⟨?_, ?_⟩ (fun _ _ => rfl) (hqueue ▸ h.kinds k) (by rw [hqueue])
  · rw [hfree]
    exact howns.nodup
  · rw [hallocations, hfree]
    exact howns.mem_iff

theorem of_eq (h : Holds w owed called) {w' : World} (hjobs : w'.jobs = w.jobs)
    (hallocations : ∀ k, (w'.side k).bus.busAllocations = (w.side k).bus.busAllocations)
    (hfree : ∀ k, (w'.side k).bus.busFreeQueue = (w.side k).bus.busFreeQueue)
    (hqueue : ∀ k, (w'.side k).bus.busWaitQueue = (w.side k).bus.busWaitQueue) :
    Holds w' owed called := by
  have hheld (k : BusKind) : w'.heldOn k = w.heldOn k := by rw [heldOn, heldOn, hjobs]
  refine ⟨hjobs ▸ h.marked, fun k => ⟨?_, fun slot => ?_⟩, fun k => ?_, fun k => ?_, fun r => ?_⟩
  · rw [hheld, hfree]
    exact (h.owns k).nodup
  · rw [hheld, hfree, hallocations]
    exact (h.owns k).mem_iff slot
  · rw [hqueue]
    exact h.kinds k
  · rw [hqueue]
    exact h.nodup k
  · rw [hqueue, ← h.waits, Waits, Waits, hjobs]

theorem start : Holds start [] [] where
  marked := nofun
  owns k := ⟨List.nodup_nil, fun slot => by simp [Cycle.start, Bus.new, heldOn, ofBus]⟩
  kinds k := nofun
  nodup k := List.nodup_nil
  waits r := by simp [Waits, Cycle.start, Bus.new]

/-! Steps of a job. -/

/-- Jobs have nothing when they start. -/
theorem append (h : Holds w owed called) {new : List Started}
    (hnew : ∀ s ∈ new, ∃ plan, s.job = .start plan) :
    Holds { w with jobs := w.jobs ++ new } owed called := by
  have hheld (k : BusKind) : heldOn { w with jobs := w.jobs ++ new } k = w.heldOn k := by
    have hnone : new.flatMap (fun s => ofBus k s.job.held) = [] := by
      refine List.flatMap_eq_nil_iff.mpr fun s hs => ?_
      obtain ⟨plan, hplan⟩ := hnew s hs
      rw [hplan, Job.start_held]
      rfl
    rw [heldOn, heldOn, List.flatMap_append, hnone, List.append_nil]
  refine ⟨fun s hs => ?_, fun k => hheld k ▸ h.owns k, h.kinds, h.nodup, fun r => ?_⟩
  · rcases List.mem_append.mp hs with hs | hs
    · exact h.marked s hs
    · obtain ⟨plan, hplan⟩ := hnew s hs
      exact hplan ▸ Job.start_marked plan
  · refine Iff.trans ⟨?_, ?_⟩ (h.waits r)
    · rintro ⟨s, hs, hwait⟩
      by_cases hlt : r.job < w.jobs.length
      · exact ⟨s, (List.getElem?_append_left hlt).symm.trans hs, hwait⟩
      · rw [List.getElem?_append_right (Nat.not_lt.mp hlt)] at hs
        obtain ⟨plan, hplan⟩ := hnew s (List.mem_of_getElem? hs)
        exact absurd (hplan ▸ hwait) (Job.start_waits plan _ _)
    · rintro ⟨s, hs, hwait⟩
      have hlt := (List.getElem?_eq_some_iff.mp hs).1
      exact ⟨s, (List.getElem?_append_left hlt).trans hs, hwait⟩

theorem setJob (h : Holds w owed called) {j : ℕ} {s s' : Started} (hj : w.jobs[j]? = some s)
    (hmarked : s'.job.Marked) {owed' : List BusSlot} {called' : List Request}
    (howns : ∀ k, (heldOn { w with jobs := w.jobs.set j s' } k ++ ofBus k owed').Perm
      (w.heldOn k ++ ofBus k owed))
    (hnodup : ∀ k, (called' ++ (w.side k).bus.busWaitQueue).Nodup)
    (hwaits : ∀ r, (if r.job = j then s'.job.Waits r.bus r.input else w.Waits r) ↔
      r ∈ called' ∨ r ∈ (w.side r.bus).bus.busWaitQueue) :
    Holds { w with jobs := w.jobs.set j s' } owed' called' := by
  refine ⟨fun t ht => ?_, fun k => (h.owns k).perm (howns k), h.kinds, hnodup, fun r => ?_⟩
  · rcases List.mem_or_eq_of_mem_set ht with ht | rfl
    · exact h.marked t ht
    · exact hmarked
  · rw [waits_set hj]
    exact hwaits r

/-- What a request is answered with. -/
def given (r : Request) : Except String ℕ → List BusSlot
  | .ok slot => [(r.bus, slot)]
  | .error _ => []

/-- An answer to a request that is called reaches its job. -/
theorem deliver {r : Request} {result : Except String ℕ}
    (h : Holds w (given r result ++ owed) (r :: called)) :
    Holds (w.deliver r result) owed called := by
  obtain ⟨s, hj, hwait⟩ := (h.waits r).mpr (.inl (List.mem_cons_self ..))
  obtain ⟨job', effects, hstep, -, hreleases, hgranted, hwaits⟩ := Job.step_answer hwait result
  obtain ⟨hmarked, hheld⟩ := Job.step_held (h.marked s (List.mem_of_getElem? hj)) hstep
  have hgiven : grantedIn effects = given r result := hgranted.trans (by cases result <;> rfl)
  rw [hreleases, hgiven] at hheld
  have hdeliver : w.deliver r result =
      { w with jobs := w.jobs.set r.job { s with job := job' } } := by
    rw [World.deliver, hj]
    simp only [hstep]
  rw [hdeliver]
  refine h.setJob hj hmarked (fun k => ?_) (fun k => (List.nodup_cons.mp (h.nodup k)).2)
    fun r' => ?_
  · have hset := heldOn_set hj { s with job := job' } hheld k
    rw [ofBus_append, ← List.append_assoc]
    refine List.Perm.append_right _ ?_
    simpa [ofBus] using hset
  · have hout : r ∉ called ∧ r ∉ (w.side r.bus).bus.busWaitQueue := by
      have hnot : r ∉ called ++ (w.side r.bus).bus.busWaitQueue :=
        (List.nodup_cons.mp (h.nodup r.bus)).1
      rwa [List.mem_append, not_or] at hnot
    have hcalled := h.waits r'
    rw [List.mem_cons, or_assoc] at hcalled
    split_ifs with hjob
    · have hsame : w.Waits r' ↔ s.job.Waits r'.bus r'.input := by
        simp [Waits, hjob, hj]
      rw [hwaits, ← hsame, hcalled]
      constructor
      · rintro ⟨rfl | hrest, hinput⟩
        · exact absurd rfl hinput
        · exact hrest
      · intro hrest
        refine ⟨.inr hrest, fun hinput => ?_⟩
        have hother := hsame.mp (hcalled.mpr (.inr hrest))
        rw [hinput] at hother
        obtain rfl : r' = r := Request.ext (hother.bus_eq hwait) hjob hinput
        exact hrest.elim hout.1 hout.2
    · rw [hcalled, or_iff_right]
      rintro rfl
      exact hjob rfl

@[simp] theorem wake_bus (s : Side) (bus : Bus Request) :
    (s.wake bus).bus = bus := by
  unfold Side.wake Side.spawn
  split_ifs <;> rfl

/-- What is released is handed over, or it is not allocated any more, or it waits to be emptied. -/
theorem release {r : Release} (h : Holds w (r.slots ++ owed) called) :
    Holds (w.release r) owed called := by
  cases r with
  | free slot =>
    obtain ⟨k, n⟩ := slot
    have hself : ofBus k (Release.slots (.free (k, n)) ++ owed) = n :: ofBus k owed := by
      simp [Release.slots, ofBus]
    have hother (k' : BusKind) (hk : k' ≠ k) :
        ofBus k' owed = ofBus k' (Release.slots (.free (k, n)) ++ owed) := by
      simp [Release.slots, ofBus, Ne.symm hk]
    have howns := h.owns k
    rw [hself] at howns
    cases hqueue : (w.side k).bus.busWaitQueue with
    | nil =>
      simp only [World.release, Bus.free_of_nil hqueue]
      exact h.setSide (howns.perm List.perm_middle.symm).free_cons hother (h.kinds k) (.refl _)
    | cons request requests =>
      simp only [World.release, Bus.free_of_cons hqueue]
      have hkind : ∀ r ∈ request :: requests, r.bus = k := hqueue ▸ h.kinds k
      obtain rfl : request.bus = k := hkind request (List.mem_cons_self ..)
      have hpopped : Holds
          (w.setBus request.bus { (w.side request.bus).bus with busWaitQueue := requests })
          (Release.slots (.free (request.bus, n)) ++ owed) (request :: called) := by
        refine h.setSide ?_ (fun _ _ => rfl) (fun r hr => hkind r (.tail _ hr)) ?_
        · rw [hself]
          exact ⟨howns.nodup, howns.mem_iff⟩
        · rw [hqueue]
          exact List.perm_middle.symm
      exact deliver hpopped
  | deposit k slots =>
    have hself : ofBus k (Release.slots (.deposit k slots) ++ owed) = slots ++ ofBus k owed := by
      rw [ofBus_append, Release.slots, ofBus_map_self]
    have hother (k' : BusKind) (hk : k' ≠ k) :
        ofBus k' owed = ofBus k' (Release.slots (.deposit k slots) ++ owed) := by
      rw [ofBus_append, Release.slots, ofBus_map_ne hk, List.nil_append]
    have howns := h.owns k
    rw [hself] at howns
    have hqueue : ((w.side k).bus.deposit slots).busWaitQueue = (w.side k).bus.busWaitQueue := by
      unfold Bus.deposit
      split_ifs <;> rfl
    refine h.setSide (k := k) ?_ hother ?_ ?_
    · rw [wake_bus]
      refine (howns.perm ?_).deposit_append
      rw [List.append_assoc]
      exact List.perm_append_comm.append_left _
    · rw [wake_bus, hqueue]
      exact h.kinds k
    · rw [wake_bus, hqueue]

/-- The request that the effect is, if it is one. -/
def requests (j : ℕ) (effects : List Effect) : List Request :=
  (Job.asks effects).map fun r => ⟨r.1, j, r.2⟩

/-- A job has asked for a slot. -/
theorem asked {k : BusKind} {j i : ℕ} (h : Holds w owed (⟨k, j, i⟩ :: called)) :
    Holds (w.effect j (.asked k i)) owed called := by
  have howns := h.owns k
  refine h.setSide (k := k) ?_ (fun _ _ => rfl) ?_ ?_
  · rw [wake_bus]
    exact ⟨howns.nodup, howns.mem_iff⟩
  · rw [wake_bus]
    refine List.forall_mem_append.mpr ⟨h.kinds k, List.forall_mem_singleton.mpr rfl⟩
  · rw [wake_bus]
    show (called ++ (_ ++ [_])).Perm _
    rw [← List.append_assoc]
    exact List.perm_append_singleton _ _

/-- All that a step of a job does to the buses. -/
theorem effects {j : ℕ} {effects : List Effect}
    (h : Holds w ((releasesIn effects).flatMap Release.slots) (requests j effects)) :
    Holds (effects.foldl (effect j) w) [] [] := by
  induction effects generalizing w with
  | nil => exact h
  | cons e effects ih =>
    rw [List.foldl_cons]
    refine ih ?_
    cases e with
    | asked k i => exact asked h
    | release r => exact release h
    | _ => exact h

theorem touch (h : Holds w owed called) {born n : ℕ} : Holds (w.touch born n) owed called :=
  ⟨h.marked, h.owns, h.kinds, h.nodup, h.waits⟩

/-- A step of a job by itself. -/
theorem stepJob (h : Holds w [] []) {j : ℕ} {e : JobEvent} {w' : World}
    (hstep : w.stepJob j e = some w') : Holds w' [] [] := by
  unfold World.stepJob at hstep
  split at hstep
  · cases hstep
  rename_i hanswer
  split at hstep
  · cases hstep
  rename_i s hj
  obtain ⟨⟨job', effects⟩, hjob, rfl⟩ := Option.map_eq_some_iff.mp hstep
  have he (i : ℕ) (result : Except String ℕ) : e ≠ .input i (.answer result) := by
    rintro rfl
    exact hanswer rfl
  obtain ⟨hgranted, hnodup, hnew, hwaits⟩ := Job.step_waits hjob he
  obtain ⟨hmarked, hheld⟩ := Job.step_held (h.marked s (List.mem_of_getElem? hj)) hjob
  rw [hgranted] at hheld
  have hmem (r : Request) :
      r ∈ requests j effects ↔ r.job = j ∧ (r.bus, r.input) ∈ Job.asks effects := by
    constructor
    · intro hr
      obtain ⟨a, ha, rfl⟩ := List.mem_map.mp hr
      exact ⟨rfl, ha⟩
    · rintro ⟨hjob, ha⟩
      exact List.mem_map.mpr ⟨_, ha, Request.ext rfl hjob.symm rfl⟩
  refine Holds.effects (touch (h.setJob hj hmarked (fun k => ?_) (fun k => ?_) fun r => ?_))
  · have hset := heldOn_set hj { s with job := job' } hheld k
    simpa [ofBus] using hset
  · have hinj : Function.Injective fun r : BusKind × ℕ => (⟨r.1, j, r.2⟩ : Request) := by
      rintro ⟨k, i⟩ ⟨k', i'⟩ heq
      simpa using heq
    refine List.nodup_append.mpr ⟨hnodup.map hinj, h.nodup k, ?_⟩
    rintro r hr _ hr' rfl
    -- a job that waits already does not ask again
    obtain ⟨rfl, ha⟩ := (hmem r).mp hr
    obtain ⟨t, ht, hwait⟩ := (h.waits r).mpr (.inr (h.kinds k r hr' ▸ hr'))
    obtain rfl : s = t := Option.some.inj (hj.symm.trans ht)
    exact hnew _ ha hwait
  · rw [hmem]
    have hqueued := h.waits r
    rw [or_iff_right (List.not_mem_nil)] at hqueued
    rw [← hqueued]
    split_ifs with heq
    · have hsame : w.Waits r ↔ s.job.Waits r.bus r.input := by simp [Waits, heq, hj]
      rw [hsame, hwaits]
      simp [heq]
    · simp [heq]

/-! The updates of a bus. -/

theorem deliver_grants {k : BusKind} {grants : List (Request × ℕ)}
    (hbus : ∀ grant ∈ grants, grant.1.bus = k)
    (h : Holds w (grants.map (fun grant => (k, grant.2)) ++ owed) (grants.map Prod.fst ++ called)) :
    Holds (grants.foldl (fun w grant => w.deliver grant.1 (.ok grant.2)) w) owed called := by
  induction grants generalizing w with
  | nil => exact h
  | cons grant grants ih =>
    obtain ⟨rfl, hrest⟩ := List.forall_mem_cons.mp hbus
    rw [List.foldl_cons]
    exact ih hrest (deliver h)

theorem deliver_refusals {requests : List Request} {e : String}
    (h : Holds w owed (requests ++ called)) :
    Holds (requests.foldl (fun w request => w.deliver request (.error e)) w) owed called := by
  induction requests generalizing w with
  | nil => exact h
  | cons request requests ih =>
    rw [List.foldl_cons]
    exact ih (deliver h)

/-- Slots that nobody has are given to requests. -/
theorem give (h : Holds w owed called) {k : BusKind} {slots : List ℕ} (hnodup : slots.Nodup)
    (hout : ∀ slot ∈ slots, slot ∉ (w.side k).bus.busAllocations) :
    Holds (w.give k slots) owed called := by
  have hgrants : ((w.side k).bus.giveOut slots).2 =
      (w.side k).bus.busWaitQueue.zip slots.reverse := by rw [Bus.giveOut_eq]
  have hfst : ((w.side k).bus.giveOut slots).2.map Prod.fst =
      (w.side k).bus.busWaitQueue.take slots.length := by
    rw [hgrants, Bus.map_fst_zip, List.length_reverse]
  have hself : ofBus k (((w.side k).bus.giveOut slots).2.map (fun grant => (k, grant.2)) ++ owed) =
      ((w.side k).bus.giveOut slots).2.map Prod.snd ++ ofBus k owed := by
    rw [ofBus_append, ← ofBus_map_self k (((w.side k).bus.giveOut slots).2.map Prod.snd),
      List.map_map]
    rfl
  have hother (k' : BusKind) (hk : k' ≠ k) :
      ofBus k' (((w.side k).bus.giveOut slots).2.map (fun grant => (k, grant.2)) ++ owed) =
        ofBus k' owed := by
    have hnone := ofBus_map_ne hk (((w.side k).bus.giveOut slots).2.map Prod.snd)
    rw [List.map_map] at hnone
    rw [ofBus_append]
    exact (congrArg (· ++ ofBus k' owed) hnone).trans (List.nil_append _)
  have hqueue := Bus.giveOut_busWaitQueue (w.side k).bus slots
  refine deliver_grants (k := k) (fun grant hgrant => ?_) (h.setSide ?_ hother ?_ ?_)
  · have hmem : grant.1 ∈ ((w.side k).bus.giveOut slots).2.map Prod.fst :=
      List.mem_map.mpr ⟨grant, hgrant, rfl⟩
    rw [hfst] at hmem
    exact h.kinds k _ (List.mem_of_mem_take hmem)
  · have howns := (h.owns k).grant (List.nodup_reverse.mpr hnodup)
      fun slot hslot => hout slot (List.mem_reverse.mp hslot)
    rw [hself]
    refine howns.perm ?_
    rw [List.append_assoc]
    exact List.perm_append_comm.append_left _
  · intro r hr
    rw [hqueue] at hr
    exact h.kinds k r (List.mem_of_mem_drop hr)
  · rw [hqueue, hfst]
    refine (List.perm_append_comm.append_right _).trans ?_
    rw [List.append_assoc, List.take_append_drop]

theorem failUpdate (h : Holds w [] []) (k : BusKind) (e : String) :
    Holds (w.failUpdate k e) [] [] := by
  have howns := h.owns k
  refine deliver_refusals ?_
  rw [List.append_nil]
  refine h.setSide ⟨howns.nodup, howns.mem_iff⟩ (fun _ _ => rfl) (fun _ hr => ?_) ?_
  · cases hr
  · exact .of_eq (List.append_nil _)

theorem beginUpdate (cfg : Config) (h : Holds w [] []) (k : BusKind) :
    Holds (w.beginUpdate cfg k) [] [] := by
  unfold World.beginUpdate
  split_ifs
  · exact h.setSide_of_eq rfl rfl rfl
  · exact h.setSide_of_eq rfl rfl rfl

theorem conclude (cfg : Config) (h : Holds w [] []) (k : BusKind) (everDeposited : Bool) :
    Holds (w.conclude cfg k everDeposited) [] [] := by
  have hdrained (s : Side) (hallocations : s.bus.busAllocations =
      (w.side k).bus.drain.1.busAllocations) (hfree : s.bus.busFreeQueue = [])
      (hqueue : s.bus.busWaitQueue = (w.side k).bus.busWaitQueue) :
      Holds (w.setSide k s) [] [] := by
    obtain ⟨hnodup, hmem⟩ := (h.owns k).drain
    refine h.setSide ⟨?_, ?_⟩ (fun _ _ => rfl) (hqueue ▸ h.kinds k) (by rw [hqueue])
    · rw [hfree]
      exact hnodup
    · rw [hallocations, hfree]
      exact hmem
  unfold World.conclude
  simp only
  split_ifs
  · exact beginUpdate cfg (hdrained { w.side k with bus := (w.side k).bus.drain.1 } rfl rfl rfl) k
  · exact hdrained _ rfl rfl rfl

end Holds
end World
end Cycle
end OCRemote
