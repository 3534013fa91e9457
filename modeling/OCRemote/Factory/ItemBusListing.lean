import OCRemote.Factory.ItemBusSafety

/-! Which listings the updater of the item bus deposits from. `bus_deposit` leaves the slot
allocated while an update runs, but `bus_free` does not when no request waits. So a slot that a
listing shows as full, emptied by its job since, is deposited again. -/

namespace OCRemote
open Slots

namespace ItemBus
variable {ι : Type} {w : World ι}

/-- Nobody had the slot when the bus was listed, and the stack is there. -/
structure Call.Real (c : Call ι) : Prop where
  unheld : c.slot ∉ c.heldAt
  there : c.found = some c.stack
  charged : ((transfers c.tasks).map Transfer.size).sum ≤ c.stack.size

/-- No slot stops being allocated while a listing shows something in it that was not looked at. -/
def NotListed (w : World ι) : Event ι → Prop
  | .free k => w.bus.busWaitQueue = [] → ∀ a ∈ w.held[k]?, ∀ listing ∈ w.updater.response,
      found listing.slots a.slot = none
  | _ => True

structure Honest (w : World ι) : Prop where
  held : ∀ listing ∈ w.updater.response, ∀ slot ∈ heldSlots w, slot ∈ listing.heldAt
  listed : ∀ listing ∈ w.updater.response, ∀ slot ∉ w.bus.busAllocations, ∀ stack,
    listing.slots[slot]? = some (some stack) → slot ∉ listing.heldAt ∧ w.phys[slot]? = some (some stack)
  calls : ∀ c ∈ w.calls, c.Real

theorem found_some {slots : List (Option (ItemStack ι))} {slot : ℕ} {stack : ItemStack ι}
    (h : slots[slot]? = some (some stack)) : found slots slot = some stack := by
  unfold found
  rw [h]
  rfl

/-- Without a listing there is only what was done before. -/
theorem Honest.quiet {w' : World ι} (h : Honest w) (hcalls : w'.calls = w.calls)
    (hnone : w'.updater.response = none) :
    Honest w' := by
  have hno (listing : Listing ι) : listing ∉ w'.updater.response := by simp [hnone]
  exact ⟨fun l hl => absurd hl (hno l), fun l hl => absurd hl (hno l), hcalls ▸ h.calls⟩

theorem response_finish (w : World ι) (everDeposited : Bool) :
    (finish w everDeposited).updater.response = none := by
  unfold finish
  split <;> rfl

theorem calls_finish (w : World ι) (everDeposited : Bool) :
    (finish w everDeposited).calls = w.calls := by
  unfold finish
  split <;> rfl

theorem response_wake {bus : Bus ℕ} {listing : Listing ι}
    (h : (wake w bus).updater.response = some listing) :
    w.updater.response = some listing := by
  unfold wake at h
  split at h
  · simp [Updater.response] at h
  · exact h

theorem Inv.busy (h : Inv w) {listing : Listing ι} (hl : w.updater.response = some listing) :
    w.bus.busTask = true :=
  h.running.mpr (by simp [Updater.eq_of_response hl])

/-- A woken updater knows of no listing, and one that was there keeps the allocations. -/
theorem Honest.wake (h : Honest w) (hinv : Inv w) {held : List (Holding ι)} (hsub : held ⊆ w.held)
    {bus : Bus ℕ}
    (hkeep : w.bus.busTask = true → bus.busAllocations = w.bus.busAllocations) (started : List ℕ) :
    Honest (wake { w with held := held, started := started } bus) := by
  refine ⟨fun listing hl slot hslot => ?_, fun listing hl slot hout => ?_, h.calls⟩
  · exact h.held listing (response_wake hl) slot (List.map_subset Holding.slot hsub hslot)
  · have hold : w.updater.response = some listing := response_wake hl
    have hout : slot ∉ bus.busAllocations := hout
    rw [hkeep (hinv.busy hold)] at hout
    exact h.listed listing hold slot hout

theorem Honest.modify (h : Honest w) (hinv : Inv w) {k : ℕ} {a : Holding ι}
    (hk : w.held[k]? = some a)
    {f : Holding ι → Holding ι} (hslot : ∀ b, (f b).slot = b.slot)
    {phys : List (Option (ItemStack ι))}
    (hother : ∀ j, a.slot ≠ j → phys[j]? = w.phys[j]?) :
    Honest { w with phys := phys, held := w.held.modify k f } := by
  have hheld : heldSlots { w with phys := phys, held := w.held.modify k f } = heldSlots w :=
    List.map_modify_of_eq hslot _ _
  refine ⟨fun listing hl slot hs => h.held listing hl slot (hheld ▸ hs),
    fun listing hl slot hout stack hs => ?_,
    h.calls⟩
  have hne : a.slot ≠ slot := by
    rintro rfl
    exact hout (hinv.mem_allocations (List.mem_of_getElem? hk))
  obtain ⟨hnot, hthere⟩ := h.listed listing hl slot hout stack hs
  exact ⟨hnot, (hother slot hne).trans hthere⟩

variable [DecidableEq ι] [ItemClass ι]

theorem Honest.respond (h : Honest w) (hinv : Inv w) {listing : Listing ι}
    (hl : w.updater.response = some listing) : Honest (respond w listing) := by
  have hfresh := hinv.updater
  rw [Updater.eq_of_response hl] at hfresh
  obtain ⟨s, hs, heq⟩ := respond_eq w hfresh.stacked
  have hcalls : ∀ c ∈ (receive w listing s).calls, c.Real := by
    intro c hc
    rcases List.mem_append.mp hc with hc | hc
    · exact h.calls c hc
    · obtain ⟨c, hc', rfl⟩ := List.mem_map.mp hc
      obtain ⟨hout, hlisted, htakes⟩ := hs.calls c hc'
      obtain ⟨hnot, hthere⟩ := h.listed listing hl c.1 hout c.2.1 hlisted
      exact ⟨hnot, found_some hthere, htakes.charged⟩
  rw [heq]
  split
  · have hno (l : Listing ι) : l ∉ (finish (receive w listing s) false).updater.response := by
      simp [response_finish]
    refine ⟨fun l hl => absurd hl (hno l), fun l hl => absurd hl (hno l), ?_⟩
    rw [calls_finish]
    exact hcalls
  · exact ⟨by simp [Updater.response], by simp [Updater.response], hcalls⟩

theorem Honest.free (h : Honest w) {k : ℕ} {a : Holding ι} (hk : w.held[k]? = some a)
    (hallow : NotListed w (.free k)) : Honest (next w (.free k)) := by
  have hslot : a.slot ∈ heldSlots w := List.mem_map_of_mem (List.mem_of_getElem? hk)
  have hsub {slot : ℕ} (hs : slot ∈ (w.held.eraseIdx k).map Holding.slot) : slot ∈ heldSlots w :=
    (List.eraseIdx_sublist ..).map Holding.slot |>.subset hs
  have hallow : w.bus.busWaitQueue = [] → _ := hallow
  rw [next_free hk]
  generalize w.bus.busWaitQueue = queue at hallow ⊢
  cases queue with
  | nil =>
    refine ⟨fun l hl slot hs => h.held l hl slot (hsub hs), fun l hl slot hout stack hs => ?_,
      h.calls⟩
    -- the slot that was freed is not one that the listing shows as full
    have hne : slot ≠ a.slot := by
      rintro rfl
      have hnone := hallow rfl a hk l hl
      rw [found_some hs] at hnone
      simp at hnone
    exact h.listed l hl slot (fun hin => hout (Finset.mem_erase.mpr ⟨hne, hin⟩)) stack hs
  | cons job requests =>
    refine ⟨fun l hl slot hs => h.held l hl slot ?_, h.listed, h.calls⟩
    have hcases : slot ∈ (w.held.eraseIdx k).map Holding.slot ∨ slot = a.slot := by
      simpa [heldSlots, Holding.new] using hs
    rcases hcases with hs | rfl
    · exact hsub hs
    · exact hslot

theorem Honest.step (h : Honest w) (hinv : Inv w) {e : Event ι} (he : enabled w e)
    (hallow : NotListed w e) :
    Honest (next w e) := by
  cases e with
  | allocate job n =>
    simp only [next, Bus.foldl_allocate]
    refine h.wake hinv (List.Subset.refl w.held) (fun hrun => ?_) _
    rfl
  | issue k inward stack =>
    have hget := List.getElem?_eq_getElem he.1
    exact h.modify hinv hget (f := fun a => { a with moves := a.moves ++ [⟨inward, stack, false⟩] })
      (fun _ => rfl) (fun _ _ => rfl)
  | execute k i =>
    obtain ⟨a, hk, m, hm, -⟩ := he
    rw [Option.mem_def] at hk hm
    simp only [next, hk, hm]
    exact h.modify hinv hk (f := Holding.execute i) (fun _ => rfl) fun j hj => Move.getElem?_apply_ne hj
  | resolve k i ok =>
    obtain ⟨a, hk, -⟩ := he
    exact h.modify hinv hk (fun b => b.slot_resolve i ok) (fun _ _ => rfl)
  | free k =>
    obtain ⟨a, hk, -⟩ := he
    exact h.free hk hallow
  | deposit slots =>
    refine h.wake hinv (fun _ ha => (List.mem_filter.mp ha).1) (fun hrun => ?_) w.started
    simp only [Bus.deposit, if_pos hrun]
  | poll => exact h.quiet rfl rfl
  | list =>
    refine ⟨fun l hl slot hs => ?_, fun l hl slot hout stack hs => ?_, h.calls⟩
    · obtain rfl : _ = l := Option.some_inj.mp hl
      exact hs
    · obtain rfl : _ = l := Option.some_inj.mp hl
      refine ⟨fun hin => hout ((hinv.owns.mem_iff slot).mpr (List.mem_append_left _ hin)), hs⟩
  | respond =>
    obtain ⟨listing, hl⟩ := Option.ne_none_iff_exists'.mp he
    simp only [next, hl]
    exact h.respond hinv hl
  | listFailed => exact h.quiet rfl rfl
  | drain k moved =>
    obtain ⟨t, ht, -⟩ := he
    obtain ⟨failed, hupd⟩ := Updater.eq_of_tasks ht
    rw [Option.mem_def] at ht
    generalize w.updater.tasks = tasks at hupd ht
    simp only [next, hupd, ht]
    exact h.quiet rfl rfl
  | settle k ok =>
    obtain ⟨t, ht, -⟩ := he
    obtain ⟨failed, hupd⟩ := Updater.eq_of_tasks ht
    generalize w.updater.tasks = tasks at hupd
    simp only [next, hupd]
    exact h.quiet rfl rfl
  | join =>
    rcases he with hupd | hupd
    · simp only [next, hupd]
      exact h.quiet rfl rfl
    · simp only [next, hupd]
      exact h.quiet (calls_finish w true) (response_finish w true)
  | change storages => exact ⟨h.held, h.listed, h.calls⟩
  | sweep => exact h.quiet rfl rfl

theorem Honest.run {storages : List (Storage ι)} {phys : List (Option (ItemStack ι))}
    (hphys : Stacked phys)
    {es : List (Event ι)} (hv : ((machine ι).restrict NotListed).Valid (start storages phys) es) :
    Inv ((machine ι).exec (start storages phys) es) ∧
      Honest ((machine ι).exec (start storages phys) es) := by
  have h0 : Honest (start storages phys) := by
    constructor <;> simp [start, Updater.response]
  exact (machine ι).invariant_restrict (I := fun w => Inv w ∧ Honest w)
    (fun w e hI he hallow => ⟨hI.1.step he, hI.2.step hI.1 he hallow⟩) ⟨start_inv storages hphys, h0⟩ hv

/-- While no slot stops being allocated that a listing shows as full, all deposits are of stacks
that are there, in slots that nobody had when the bus was listed. -/
theorem deposits_real (storages : List (Storage ι)) (phys : List (Option (ItemStack ι)))
    (hphys : ∀ v ∈ phys, ∀ stack ∈ v, 0 < stack.size) (es : List (Event ι))
    (hv : ((machine ι).restrict NotListed).Valid (start storages phys) es) :
    ∀ c ∈ ((machine ι).exec (start storages phys) es).calls, c.Real :=
  (Honest.run hphys hv).2.calls

/-- A slot that stops being allocated although the listing shows something in it is deposited from. -/
theorem Honest.wrong (h : Honest w) (hinv : Inv w) {k : ℕ} {a : Holding ι}
    (hk : w.held[k]? = some a)
    (hs : a.Settled) (hqueue : w.bus.busWaitQueue = []) {listing : Listing ι}
    (hl : w.updater.response = some listing) {stack : ItemStack ι}
    (hfull : listing.slots[a.slot]? = some (some stack)) :
    ∃ c ∈ (next (next w (.free k)) .respond).calls, c.slot ∈ c.heldAt ∧ c.found = none := by
  have hmem := List.mem_of_getElem? hk
  have hempty := (hinv.holdings a hmem).empty hinv.stacked hs
  have hheld := h.held listing hl a.slot (List.mem_map_of_mem hmem)
  have hfresh := hinv.updater
  rw [Updater.eq_of_response hl] at hfresh
  rw [next_free hk, hqueue]
  simp only [next, hl]
  generalize hw : ({ w with
    bus := { w.bus with busAllocations := w.bus.busAllocations.erase a.slot, busWaitQueue := [] }
    held := w.held.eraseIdx k } : World ι) = w'
  have hout : a.slot ∉ w'.bus.busAllocations := by simp [← hw]
  have hphys : w'.phys = w.phys := by rw [← hw]
  obtain ⟨s, hs, heq⟩ := respond_eq w' hfresh.stacked
  obtain ⟨c, hc, hslot⟩ := hs.called a.slot stack hfull hout
  have hcalls : (ItemBus.respond w' listing).calls = (receive w' listing s).calls := by
    rw [heq]
    split
    · exact calls_finish _ _
    · rfl
  refine ⟨⟨c.1, c.2.1, c.2.2, listing.heldAt, found w'.phys c.1⟩, ?_, ?_, ?_⟩
  · rw [hcalls]
    exact List.mem_append_right _ (List.mem_map_of_mem hc)
  · rw [← hslot] at hheld
    exact hheld
  · rw [hphys, hslot]
    exact found_none hempty

/-- The condition on `bus_free` is needed: once it fails, the response that the updater waits for
leads to a deposit from a slot that a job had when the bus was listed. -/
theorem deposits_wrong {storages : List (Storage ι)} {phys : List (Option (ItemStack ι))}
    (hphys : Stacked phys)
    {es : List (Event ι)}
    (hv : ((machine ι).restrict NotListed).Valid (start storages phys) es) {k : ℕ}
    (he : enabled ((machine ι).exec (start storages phys) es) (.free k))
    (hbreak : ¬NotListed ((machine ι).exec (start storages phys) es) (.free k)) :
    ∃ c ∈ ((machine ι).exec (start storages phys) (es ++ [.free k, .respond])).calls,
      c.slot ∈ c.heldAt ∧ c.found = none := by
  obtain ⟨hinv, hhonest⟩ := Honest.run hphys hv
  rw [Machine.exec_append]
  generalize (machine ι).exec (start storages phys) es = w at he hbreak hinv hhonest ⊢
  obtain ⟨a, hk, hs⟩ := he
  have hall : ¬(w.bus.busWaitQueue = [] → ∀ a ∈ w.held[k]?, ∀ listing ∈ w.updater.response,
      found listing.slots a.slot = none) := hbreak
  push Not at hall
  obtain ⟨hqueue, a', hk', listing, hl, hfull⟩ := hall
  obtain rfl : a = a' := Option.some_inj.mp (hk.symm.trans hk')
  have hstack : ∃ stack, listing.slots[a.slot]? = some (some stack) := by
    obtain ⟨stack, hstack⟩ := Option.ne_none_iff_exists'.mp hfull
    exact ⟨stack, Option.join_eq_some_iff.mp hstack⟩
  obtain ⟨stack, hstack⟩ := hstack
  exact hhonest.wrong hinv hk hs hqueue hl hstack

instance (w : World ι) : ∀ e, Decidable (NotListed w e)
  | .free k =>
    inferInstanceAs (Decidable (w.bus.busWaitQueue = [] →
      ∀ a ∈ w.held[k]?, ∀ listing ∈ w.updater.response, found listing.slots a.slot = none))
  | .allocate .. | .issue .. | .execute .. | .resolve ..
  | .deposit _ | .poll | .list | .respond | .listFailed
  | .drain .. | .settle .. | .join | .change _ | .sweep => .isTrue trivial

instance (w : World ι) (e : Event ι) : Decidable (((machine ι).restrict NotListed).enabled w e) :=
  inferInstanceAs (Decidable (enabled w e ∧ NotListed w e))

/-- Two jobs get the slots of an empty bus, and one has put iron into its slot. The other one gives
its slot back, which starts an update, and the listing shows the iron. -/
def listedIron : List (Event (Item ℤ)) :=
  [.allocate 1 1, .allocate 2 1, .poll, .list, .respond, .issue 0 true ⟨iron, 3⟩, .execute 0 0,
    .resolve 0 0 true, .deposit [0], .poll, .list, .issue 0 false ⟨iron, 3⟩, .execute 0 0,
    .resolve 0 0 true]

/-- The first job keeps its slot for now, and only the gold was deposited. -/
theorem deposits_real_listedIron :
    let w := (machine (Item ℤ)).exec (start [.me] [some ⟨gold, 1⟩, none])
      ([.sweep, .poll, .list, .respond, .drain 0 1, .settle 0 true, .join] ++ listedIron ++ [.respond])
    w.calls.map Call.stack = [⟨gold, 1⟩] ∧ ∀ c ∈ w.calls, c.Real :=
  ⟨by decide +kernel, deposits_real [.me] _ (by decide) _ (by decide +kernel)⟩

/-- The first job gives its slot back before the response is processed, and three units of iron are
deposited that are not there any more. -/
theorem deposits_stale :
    let w := (machine (Item ℤ)).exec (start [.me] [none, none]) (listedIron ++ [.free 0, .respond])
    (machine (Item ℤ)).Valid (start [.me] [none, none]) (listedIron ++ [.free 0, .respond]) ∧
      (∃ c ∈ w.calls, c.slot ∈ c.heldAt ∧ c.found = none ∧
        ((transfers c.tasks).map Transfer.size).sum = 3) ∧
      ¬∀ c ∈ w.calls, c.Real := by
  intro w
  have hcall : ∃ c ∈ w.calls,
      c.slot ∈ c.heldAt ∧ c.found = none ∧ ((transfers c.tasks).map Transfer.size).sum = 3 := by
    decide +kernel
  refine ⟨by decide +kernel, hcall, fun hreal => ?_⟩
  obtain ⟨c, hc, hheld, -⟩ := hcall
  exact (hreal c hc).unheld hheld

end ItemBus
end OCRemote
