import Mathlib.Data.Finset.Card
import OCRemote.Factory.ItemBusSafety
import OCRemote.Lib.Line

/-! The updater of the item bus does not stop while it could still help somebody, and the jobs do
not wait for each other. -/

namespace OCRemote
open Line Slots

namespace ItemBus
variable {ι : Type} {limit : ℕ} {w : World ι}

/-- A job asks for its slots once, and for no more than there are. -/
def AsksOnce (limit : ℕ) (w : World ι) : Event ι → Prop
  | .allocate job n => job ∉ w.started ∧ n ≤ limit
  | _ => True

def owners (w : World ι) : List ℕ := w.held.map Holding.job

/-- The jobs stand in line for `limit` slots. -/
structure Lined (limit : ℕ) (w : World ι) : Prop where
  length : w.phys.length = limit
  started : ∀ job ∈ w.bus.busWaitQueue ++ owners w, job ∈ w.started
  orderly : Orderly limit w.bus.busWaitQueue (owners w)

def Full (limit : ℕ) (w : World ι) : Prop := ∀ slot < limit, slot ∈ w.bus.busAllocations

structure Fair (limit : ℕ) (w : World ι) : Prop extends Lined limit w where
  listed : ∀ listing ∈ w.updater.response, listing.slots.length = limit
  stopped : w.updater = .idle → w.bus.busWaitQueue ≠ [] → w.bus.busFreeQueue = [] ∧ Full limit w

/-- An updater that is not idle and has no listing owes nothing. -/
theorem Lined.fair (h : Lined limit w) (hresponse : w.updater.response = none)
    (hrun : w.updater ≠ .idle) :
    Fair limit w := by
  refine ⟨h, fun listing hl => ?_, fun hidle => absurd hidle hrun⟩
  rw [hresponse] at hl
  simp at hl

theorem Lined.beginUpdate (h : Lined limit w) : Fair limit (beginUpdate w) :=
  Lined.fair ⟨h.length, h.started, h.orderly⟩ rfl (by simp [ItemBus.beginUpdate])

/-- An update that does not start another one has seen every slot in use. -/
theorem Lined.finish (h : Lined limit w) {everDeposited : Bool}
    (hfull : everDeposited = false → w.bus.busWaitQueue ≠ [] → Full limit w) :
    Fair limit (finish w everDeposited) := by
  unfold ItemBus.finish
  split
  · exact Lined.beginUpdate ⟨h.length, h.started, h.orderly⟩
  · rename_i hstop
    refine ⟨⟨h.length, h.started, h.orderly⟩, by simp [Updater.response], fun _ hqueue => ?_⟩
    have hqueue : w.bus.busWaitQueue ≠ [] := hqueue
    -- an update that stops while somebody waits has neither freed nor deposited anything
    obtain ⟨hfree, hdep⟩ : w.bus.busFreeQueue = [] ∧ everDeposited = false := by
      simpa [Bus.drain, hqueue] using hstop
    refine ⟨rfl, fun slot hslot => ?_⟩
    have hin := hfull hdep hqueue slot hslot
    simpa [Bus.drain, hfree] using hin

theorem Lined.abort (h : Lined limit w) : Fair limit (abort w) := by
  refine ⟨⟨h.length,
    fun job hjob => h.started job (List.mem_append_right _ ?_), h.orderly.refuse⟩, ?_, ?_⟩
  · simpa [owners, ItemBus.abort, Bus.abort] using hjob
  · simp [ItemBus.abort, Updater.response]
  · simp [ItemBus.abort, Bus.abort]

section
variable {listing : Listing ι} {s : Sweep ι}

theorem receive_queue :
    (receive w listing s).bus.busWaitQueue = w.bus.busWaitQueue.drop s.freeSlots.length := by
  rw [receive, Bus.giveOut_busWaitQueue]

theorem receive_owners :
    owners (receive w listing s) = owners w ++ w.bus.busWaitQueue.take s.freeSlots.length := by
  have hfst := Bus.map_fst_zip w.bus.busWaitQueue s.freeSlots.reverse
  rw [List.length_reverse] at hfst
  simp only [owners, receive, Bus.giveOut_eq, List.map_append, List.map_map]
  rw [← hfst]
  rfl

theorem Lined.receive (h : Lined limit w) : Lined limit (receive w listing s) := by
  refine ⟨h.length, fun job hjob => h.started job ?_, ?_⟩
  · rw [receive_queue, receive_owners] at hjob
    simp only [List.mem_append] at hjob ⊢
    rcases hjob with hjob | hjob | hjob
    · exact .inl (List.mem_of_mem_drop hjob)
    · exact .inr hjob
    · exact .inl (List.mem_of_mem_take hjob)
  · rw [receive_queue, receive_owners]
    exact h.orderly.serveMany _

/-- When nothing was deposited and somebody still waits, the free slots were not enough. -/
theorem Swept.full (hs : Swept w.bus.busAllocations listing.slots s)
    (hlen : listing.slots.length = limit)
    (htasks : s.tasks = []) (hqueue : (ItemBus.receive w listing s).bus.busWaitQueue ≠ []) :
    Full limit (ItemBus.receive w listing s) := by
  intro slot hslot
  have hmany : s.freeSlots.length < w.bus.busWaitQueue.length := by
    rw [receive_queue] at hqueue
    exact List.drop_eq_nil_iff.not.mp hqueue |> not_le.mp
  rw [ItemBus.receive, Bus.mem_giveOut_of_le w.bus hmany.le, hs.free]
  by_cases hin : slot ∈ w.bus.busAllocations
  · exact .inl hin
  · refine .inr ⟨hin, ?_⟩
    have hget := List.getElem?_eq_getElem (hlen ▸ hslot)
    cases hv : listing.slots[slot] with
    | none => rw [hget, hv]
    | some stack =>
      rw [hv] at hget
      exact absurd (hs.empty htasks slot stack hget) hin

end

variable [DecidableEq ι] [ItemClass ι]

theorem Lined.respond (h : Lined limit w) {listing : Listing ι} (hstacked : Stacked listing.slots)
    (hlen : listing.slots.length = limit) : Fair limit (respond w listing) := by
  obtain ⟨s, hs, heq⟩ := respond_eq w hstacked
  have hline : Lined limit (ItemBus.receive w listing s) := h.receive
  rw [heq]
  split
  · rename_i htasks
    exact hline.finish fun _ => hs.full hlen (List.isEmpty_iff.mp htasks)
  · exact Lined.fair ⟨hline.length, hline.started, hline.orderly⟩ rfl (by simp)

theorem Lined.allocate (h : Lined limit w) {job n : ℕ} (hask : AsksOnce limit w (.allocate job n)) :
    Lined limit (next w (.allocate job n)) := by
  obtain ⟨hnew, hn⟩ := hask
  have hqueue : job ∉ w.bus.busWaitQueue :=
    fun hin => hnew (h.started job (List.mem_append_left _ hin))
  have hheld : job ∉ owners w := fun hin => hnew (h.started job (List.mem_append_right _ hin))
  simp only [next, Bus.foldl_allocate]
  refine ⟨h.length, fun j hj => ?_, h.orderly.ask hqueue hheld hn⟩
  show j ∈ job :: w.started
  rcases List.mem_append.mp hj with hj | hj
  · rcases List.mem_append.mp hj with hj | hj
    · exact List.mem_cons_of_mem _ (h.started j (List.mem_append_left _ hj))
    · rw [List.eq_of_mem_replicate hj]
      exact List.mem_cons_self
  · exact List.mem_cons_of_mem _ (h.started j (List.mem_append_right _ hj))

theorem Fair.free (h : Fair limit w) {k : ℕ} {a : Holding ι} (hk : w.held[k]? = some a) :
    Fair limit (next w (.free k)) := by
  have hsub : (w.held.eraseIdx k).Sublist w.held := List.eraseIdx_sublist ..
  have hle (j : ℕ) : ((w.held.eraseIdx k).map Holding.job).count j ≤ (owners w).count j :=
    (hsub.map Holding.job).count_le j
  have hmem {j : ℕ} (hj : j ∈ (w.held.eraseIdx k).map Holding.job) : j ∈ w.started :=
    h.started j (List.mem_append_right _ ((hsub.map Holding.job).subset hj))
  have horderly := h.orderly
  have hstarted := h.started
  have hstopped := h.stopped
  rw [next_free hk]
  generalize w.bus.busWaitQueue = queue at horderly hstarted hstopped ⊢
  cases queue with
  | nil => exact ⟨⟨h.length, fun j hj => hmem hj, horderly.release hle⟩, h.listed, by simp⟩
  | cons job requests =>
    have howners : (w.held.eraseIdx k ++ [Holding.new job a.slot]).map Holding.job =
        (w.held.eraseIdx k).map Holding.job ++ [job] := by simp [Holding.new]
    refine ⟨⟨h.length, fun j hj => ?_, ?_⟩, h.listed,
      fun hidle _ => hstopped hidle (List.cons_ne_nil _ _)⟩
    · simp only [owners, howners] at hj
      rcases List.mem_append.mp hj with hj | hj
      · exact hstarted j (List.mem_append_left _ (List.mem_cons_of_mem _ hj))
      · rcases List.mem_append.mp hj with hj | hj
        · exact hmem hj
        · rw [List.mem_singleton.mp hj]
          exact hstarted job (List.mem_append_left _ List.mem_cons_self)
    · simp only [owners, howners]
      exact (horderly.release hle).serve

/-- Slots that are given back to an idle updater wake it. -/
theorem Fair.deposit (h : Fair limit w) (slots : List ℕ)
    (hrun : w.bus.busTask = true ↔ w.updater ≠ .idle) :
    Fair limit (next w (.deposit slots)) := by
  have hsub : ((w.held.filter fun a => a.slot ∉ slots).map Holding.job).Sublist (owners w) :=
    List.filter_sublist.map Holding.job
  have hqueue : (w.bus.deposit slots).busWaitQueue = w.bus.busWaitQueue := by
    unfold Bus.deposit
    split_ifs <;> rfl
  have hline : Lined limit (next w (.deposit slots)) := by
    refine ⟨h.length, fun j hj => h.started j ?_, ?_⟩
    · simp only [next, wake, hqueue] at hj
      exact (hsub.append_left _).subset hj
    · simp only [next, wake, hqueue]
      exact h.orderly.release fun j => hsub.count_le j
  cases hbefore : w.bus.busTask with
  | true =>
    have hbusy : w.updater ≠ .idle := hrun.mp hbefore
    refine ⟨hline, ?_, fun hidle => absurd ?_ hbusy⟩
    · simpa [next, wake, hbefore] using h.listed
    · simpa [next, wake, hbefore] using hidle
  | false =>
    have hidle : w.updater = .idle := by simpa [hbefore] using hrun
    cases slots with
    | nil =>
      refine ⟨hline, ?_, ?_⟩
      · simpa [next, wake, Bus.deposit, hbefore] using h.listed
      · intro _ hne
        have hold := h.stopped hidle (by simpa [next, wake, hqueue] using hne)
        simpa [next, wake, Bus.deposit, hbefore, Full] using hold
    | cons slot slots =>
      exact hline.fair (by simp [next, wake, Bus.deposit, hbefore, Updater.response])
        (by simp [next, wake, Bus.deposit, hbefore])

omit [DecidableEq ι] [ItemClass ι] in
/-- What a job does in its slot does not matter to the others. -/
theorem Fair.modify (h : Fair limit w) {f : Holding ι → Holding ι}
    (hjob : ∀ a, (f a).job = a.job) (k : ℕ)
    {phys : List (Option (ItemStack ι))} (hlen : phys.length = w.phys.length) :
    Fair limit { w with phys := phys, held := w.held.modify k f } := by
  have howners : (w.held.modify k f).map Holding.job = owners w := List.map_modify_of_eq hjob _ _
  refine ⟨⟨hlen.trans h.length, ?_, ?_⟩, h.listed, h.stopped⟩
  · simp only [owners, howners]
    exact h.started
  · simp only [owners, howners]
    exact h.orderly

theorem Fair.step (h : Fair limit w) (hinv : Inv w) {e : Event ι} (he : enabled w e)
    (hask : AsksOnce limit w e) :
    Fair limit (next w e) := by
  cases e with
  | allocate job n =>
    have hline := h.toLined.allocate hask
    cases hbefore : w.bus.busTask with
    | true =>
      have hbusy : w.updater ≠ .idle := hinv.running.mp hbefore
      refine ⟨hline, ?_, fun hidle => absurd ?_ hbusy⟩
      · simpa [next, wake, Bus.foldl_allocate, hbefore] using h.listed
      · simpa [next, wake, Bus.foldl_allocate, hbefore] using hidle
    | false =>
      have hidle : w.updater = .idle := by simpa [hbefore] using hinv.running
      cases n with
      | zero =>
        refine ⟨hline, ?_, ?_⟩
        · simpa [next, wake, hbefore] using h.listed
        · simpa [next, wake, hbefore, Full] using h.stopped
      | succ n =>
        exact hline.fair (by simp [next, wake, Bus.foldl_allocate, hbefore, Updater.response])
          (by simp [next, wake, Bus.foldl_allocate, hbefore])
  | issue k inward stack =>
    exact h.modify (f := fun a => { a with moves := a.moves ++ [⟨inward, stack, false⟩] })
      (fun _ => rfl) k rfl
  | execute k i =>
    obtain ⟨a, hk, m, hm, -⟩ := he
    rw [Option.mem_def] at hk hm
    simp only [next, hk, hm]
    exact h.modify (f := Holding.execute i) (fun _ => rfl) k Move.length_apply
  | resolve k i ok => exact h.modify (fun b => b.job_resolve i ok) k rfl
  | free k =>
    obtain ⟨a, hk, -⟩ := he
    exact h.free hk
  | deposit slots => exact h.deposit slots hinv.running
  | poll => exact h.toLined.beginUpdate
  | list =>
    refine ⟨⟨h.length, h.started, h.orderly⟩, fun listing hl => ?_, by simp [next]⟩
    obtain rfl : _ = listing := Option.some_inj.mp hl
    exact h.length
  | respond =>
    obtain ⟨listing, hresponse⟩ := Option.ne_none_iff_exists'.mp he
    have hfresh := hinv.updater
    rw [Updater.eq_of_response hresponse] at hfresh
    simp only [next, hresponse]
    exact h.toLined.respond hfresh.stacked (h.listed listing hresponse)
  | listFailed => exact h.toLined.abort
  | drain k moved =>
    obtain ⟨t, ht, -⟩ := he
    obtain ⟨failed, hupd⟩ := Updater.eq_of_tasks ht
    rw [Option.mem_def] at ht
    generalize w.updater.tasks = tasks at hupd ht
    simp only [next, hupd, ht]
    exact Lined.fair ⟨(length_takeOut ..).trans h.length, h.started, h.orderly⟩ rfl (by simp)
  | settle k ok =>
    obtain ⟨t, ht, -⟩ := he
    obtain ⟨failed, hupd⟩ := Updater.eq_of_tasks ht
    generalize w.updater.tasks = tasks at hupd
    simp only [next, hupd]
    exact Lined.fair ⟨h.length, h.started, h.orderly⟩ rfl (by simp)
  | join =>
    rcases he with hupd | hupd
    · simp only [next, hupd]
      exact h.toLined.abort
    · simp only [next, hupd]
      exact h.toLined.finish (by simp)
  | change storages => exact ⟨⟨h.length, h.started, h.orderly⟩, h.listed, h.stopped⟩
  | sweep => exact Lined.fair ⟨h.length, h.started, h.orderly⟩ rfl (by simp [next])

omit [DecidableEq ι] [ItemClass ι] in
theorem start_fair (storages : List (Storage ι)) (phys : List (Option (ItemStack ι))) :
    Fair phys.length (start storages phys) := by
  refine ⟨⟨rfl, ?_, Orderly.nil _⟩, ?_, ?_⟩ <;> simp [start, owners, Bus.new, Updater.response]

omit [DecidableEq ι] [ItemClass ι] in
/-- All slots are held when the updater stopped, and one of their jobs has all that it needs. -/
theorem Fair.served (h : Fair limit w) (hinv : Inv w) (hstop : w.bus.busTask = false)
    (hqueue : w.bus.busWaitQueue ≠ []) :
    Full limit w ∧ ∃ a ∈ w.held, a.job ∉ w.bus.busWaitQueue := by
  have hidle : w.updater = .idle := by simpa [hstop] using hinv.running
  obtain ⟨hfree, hfull⟩ := h.stopped hidle hqueue
  have hsub : Finset.range limit ⊆ (heldSlots w).toFinset := by
    intro slot hslot
    have hin := (hinv.owns.mem_iff slot).mp (hfull slot (Finset.mem_range.mp hslot))
    rw [hfree, List.append_nil] at hin
    exact List.mem_toFinset.mpr hin
  -- all slots are held, since none waits to be emptied
  have hcard : limit ≤ (owners w).length := by
    calc limit = (Finset.range limit).card := (Finset.card_range limit).symm
      _ ≤ (heldSlots w).toFinset.card := Finset.card_le_card hsub
      _ ≤ (heldSlots w).length := List.toFinset_card_le _
      _ = (owners w).length := by simp [heldSlots, owners]
  obtain ⟨job, hjob, hout⟩ := h.orderly.exists_served hqueue hcard
  obtain ⟨a, ha, rfl⟩ := List.mem_map.mp hjob
  exact ⟨hfull, a, ha, hout⟩

/-- When the updater is not there and somebody waits, every slot of the bus is allocated, and a
job that holds one of them waits for no other. -/
theorem never_stuck (storages : List (Storage ι)) (phys : List (Option (ItemStack ι)))
    (hphys : ∀ v ∈ phys, ∀ stack ∈ v, 0 < stack.size) (es : List (Event ι))
    (hv : ((machine ι).restrict (AsksOnce phys.length)).Valid (start storages phys) es)
    (hstop : ((machine ι).exec (start storages phys) es).bus.busTask = false)
    (hqueue : ((machine ι).exec (start storages phys) es).bus.busWaitQueue ≠ []) :
    (∀ slot < phys.length, slot ∈ ((machine ι).exec (start storages phys) es).bus.busAllocations) ∧
      ∃ a ∈ ((machine ι).exec (start storages phys) es).held,
        a.job ∉ ((machine ι).exec (start storages phys) es).bus.busWaitQueue := by
  have hboth := (machine ι).invariant_restrict (I := fun w => Inv w ∧ Fair phys.length w)
    (fun w e hI he hask => ⟨hI.1.step he, hI.2.step hI.1 he hask⟩)
    ⟨start_inv storages hphys, start_fair storages phys⟩ hv
  exact hboth.2.served hboth.1 hstop hqueue

instance (limit : ℕ) (w : World ι) (e : Event ι) :
    Decidable (((machine ι).restrict (AsksOnce limit)).enabled w e) :=
  match e with
  | .allocate job n => inferInstanceAs (Decidable (True ∧ job ∉ w.started ∧ n ≤ limit))
  | .issue .. | .execute .. | .resolve ..
  | .free _ | .deposit _ | .poll | .list | .respond | .listFailed | .drain ..
  | .settle .. | .join | .change _ | .sweep => inferInstanceAs (Decidable (_ ∧ True))

/-- The first job gets both slots after a failed update, and the second one has to wait. -/
def crowdedBus : List (Event (Item ℤ)) :=
  [.allocate 0 1, .poll, .listFailed, .allocate 1 2, .poll, .allocate 2 2, .list, .respond,
    .drain 0 5, .settle 0 true, .join, .list, .respond]

theorem never_stuck_crowdedBus :
    let w := (machine (Item ℤ)).exec (start [.me] [some ⟨iron, 5⟩, none]) crowdedBus
    w.bus.busWaitQueue = [2, 2] ∧ owners w = [1, 1] ∧ (∀ slot < 2, slot ∈ w.bus.busAllocations) ∧
      ∃ a ∈ w.held, a.job ∉ w.bus.busWaitQueue :=
  ⟨by decide +kernel, by decide +kernel,
    never_stuck [.me] [some ⟨iron, 5⟩, none] (by decide) crowdedBus
      (by decide +kernel) (by decide +kernel)
      (by decide +kernel)⟩

end ItemBus
end OCRemote
