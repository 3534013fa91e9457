import OCRemote.Factory.ItemBus

/-! No slot of the item bus has two holders, the allocations are known exactly, and a slot is
empty when it is granted. -/

namespace OCRemote
open Slots

theorem Bus.foldl_allocate (b : Bus ℕ) (job n : ℕ) :
    (List.replicate n job).foldl Bus.allocate b =
      { b with
        busWaitQueue := b.busWaitQueue ++ List.replicate n job
        busTask := b.busTask || decide (0 < n) } := by
  induction n generalizing b with
  | zero => simp
  | succ n ih => simp [List.replicate_succ, ih, Bus.allocate]

namespace ItemBus
variable {ι : Type}

/-! What `bus_update` does with a listing. -/

theorem getElem?_snoc {α : Type} {l : List α} {v w : α} {i : ℕ} :
    (l ++ [v])[i]? = some w ↔ l[i]? = some w ∨ i = l.length ∧ v = w := by
  rcases lt_trichotomy i l.length with hlt | rfl | hgt
  · rw [List.getElem?_append_left hlt]
    simp [hlt.ne]
  · simp
  · rw [List.getElem?_eq_none (by simp; omega), List.getElem?_eq_none hgt.le]
    simp [hgt.ne']

/-- The state of the loop after the slots of `listing`. -/
structure Swept (allocations : Finset ℕ) (listing : List (Option (ItemStack ι))) (s : Sweep ι) :
    Prop where
  free : ∀ slot, slot ∈ s.freeSlots ↔ slot ∉ allocations ∧ listing[slot]? = some none
  nodup : s.freeSlots.Nodup
  calls : ∀ c ∈ s.calls, c.1 ∉ allocations ∧ listing[c.1]? = some (some c.2.1) ∧
    Takes c.1 c.2.1.size c.2.2
  called : ∀ (slot : ℕ) (stack : ItemStack ι), listing[slot]? = some (some stack) →
    slot ∉ allocations →
    ∃ c ∈ s.calls, c.1 = slot
  tasks : ∀ t ∈ transfers s.tasks, ∃ c ∈ s.calls, t ∈ transfers c.2.2
  /-- Without tasks every listed stack is in an allocated slot. -/
  empty : s.tasks = [] → ∀ (slot : ℕ) (stack : ItemStack ι), listing[slot]? = some (some stack) →
    slot ∈ allocations

section
variable {allocations : Finset ℕ} {listing : List (Option (ItemStack ι))} {s : Sweep ι}

theorem Swept.skip (h : Swept allocations listing s) {v : Option (ItemStack ι)}
    (hin : listing.length ∈ allocations) :
    Swept allocations (listing ++ [v]) s := by
  refine ⟨fun slot => ?_, h.nodup, fun c hc => ?_, fun slot stack hs hout => ?_, h.tasks,
    fun hnone slot stack hs => ?_⟩
  · rw [h.free, getElem?_snoc]
    constructor
    · exact fun hs => ⟨hs.1, .inl hs.2⟩
    · rintro ⟨hout, hs | ⟨rfl, -⟩⟩
      · exact ⟨hout, hs⟩
      · exact absurd hin hout
  · obtain ⟨hout, hs, htakes⟩ := h.calls c hc
    exact ⟨hout, getElem?_snoc.mpr (.inl hs), htakes⟩
  · rcases getElem?_snoc.mp hs with hs | ⟨rfl, -⟩
    · exact h.called slot stack hs hout
    · exact absurd hin hout
  · rcases getElem?_snoc.mp hs with hs | ⟨rfl, -⟩
    · exact h.empty hnone slot stack hs
    · exact hin

theorem Swept.addFree (h : Swept allocations listing s) (hout : listing.length ∉ allocations) :
    Swept allocations (listing ++ [none])
    { s with freeSlots := s.freeSlots ++ [listing.length] } := by
  refine ⟨fun slot => ?_, ?_, fun c hc => ?_, fun slot stack hs hout' => ?_, h.tasks,
    fun hnone slot stack hs => ?_⟩
  · rw [List.mem_append, List.mem_singleton, h.free, getElem?_snoc]
    constructor
    · rintro (hs | rfl)
      · exact ⟨hs.1, .inl hs.2⟩
      · exact ⟨hout, .inr ⟨rfl, rfl⟩⟩
    · rintro ⟨hs, hl | ⟨rfl, -⟩⟩
      · exact .inl ⟨hs, hl⟩
      · exact .inr rfl
  · refine List.nodup_append.mpr ⟨h.nodup, List.nodup_singleton _, fun slot hs slot' hs' => ?_⟩
    obtain rfl := List.mem_singleton.mp hs'
    exact (lt_length_of_some ((h.free slot).mp hs).2).ne
  · obtain ⟨hc, hs, htakes⟩ := h.calls c hc
    exact ⟨hc, getElem?_snoc.mpr (.inl hs), htakes⟩
  · rcases getElem?_snoc.mp hs with hs | ⟨-, hs⟩
    · exact h.called slot stack hs hout'
    · simp at hs
  · rcases getElem?_snoc.mp hs with hs | ⟨-, hs⟩
    · exact h.empty hnone slot stack hs
    · simp at hs

theorem Swept.addCall (h : Swept allocations listing s) (hout : listing.length ∉ allocations)
    {stack : ItemStack ι} (hpos : 0 < stack.size) {tasks : List (Except String Transfer)}
    (htakes : Takes listing.length stack.size tasks) (storages : List (Storage ι)) :
    Swept allocations (listing ++ [some stack])
      { s with
        storages := storages
        tasks := s.tasks ++ tasks
        calls := s.calls ++ [(listing.length, stack, tasks)] } := by
  refine ⟨fun slot => ?_, h.nodup, fun c hc => ?_, fun slot q hs hout' => ?_, fun t ht => ?_,
    fun hnone => ?_⟩
  · rw [h.free, getElem?_snoc]
    simp
  · rcases List.mem_append.mp hc with hc | hc
    · obtain ⟨hc, hs, ht⟩ := h.calls c hc
      exact ⟨hc, getElem?_snoc.mpr (.inl hs), ht⟩
    · obtain rfl := List.mem_singleton.mp hc
      exact ⟨hout, getElem?_snoc.mpr (.inr ⟨rfl, rfl⟩), htakes⟩
  · rcases getElem?_snoc.mp hs with hs | ⟨rfl, -⟩
    · obtain ⟨c, hc, heq⟩ := h.called slot q hs hout'
      exact ⟨c, List.mem_append_left _ hc, heq⟩
    · exact ⟨_, List.mem_append_right _ (List.mem_singleton_self _), rfl⟩
  · rw [transfers_append] at ht
    rcases List.mem_append.mp ht with ht | ht
    · obtain ⟨c, hc, htc⟩ := h.tasks t ht
      exact ⟨c, List.mem_append_left _ hc, htc⟩
    · exact ⟨_, List.mem_append_right _ (List.mem_singleton_self _), ht⟩
  · exact absurd (List.append_eq_nil_iff.mp hnone).2 (htakes.nonempty hpos)

variable [DecidableEq ι] [ItemClass ι]

theorem sweepSlots_swept {before rest : List (Option (ItemStack ι))}
    (hpos : ∀ v ∈ rest, ∀ stack ∈ v, 0 < stack.size) (h : Swept allocations before s) :
    ∃ s', sweepSlots allocations before.length rest s = some s' ∧
      Swept allocations (before ++ rest) s' := by
  induction rest generalizing before s with
  | nil => exact ⟨s, rfl, by simpa using h⟩
  | cons v rest ih =>
    obtain ⟨hv, hrest⟩ := List.forall_mem_cons.mp hpos
    have hlen : before.length + 1 = (before ++ [v]).length := by simp
    have hcut : before ++ v :: rest = (before ++ [v]) ++ rest := by simp
    unfold sweepSlots
    rw [hlen, hcut]
    by_cases hin : before.length ∈ allocations
    · rw [if_pos hin]
      exact ih hrest (h.skip hin)
    · rw [if_neg hin]
      cases v with
      | none => exact ih hrest (h.addFree hin)
      | some stack =>
        have hstack := hv stack rfl
        obtain ⟨storages, tasks, hrun, htakes⟩ :=
          depositItem_spec s.storages before.length hstack.le
        simp only [hrun]
        exact ih hrest (h.addCall hin hstack htakes storages)

/-- Going through a listing of real stacks never fails. -/
theorem sweepSlots_spec (allocations : Finset ℕ) (hpos : ∀ v ∈ listing, ∀ stack ∈ v, 0 < stack.size)
    (storages : List (Storage ι)) :
    ∃ s, sweepSlots allocations 0 listing ⟨storages, [], [], []⟩ = some s ∧
      Swept allocations listing s := by
  have h0 : Swept allocations ([] : List (Option (ItemStack ι))) ⟨storages, [], [], []⟩ := by
    constructor <;> simp [transfers]
  exact sweepSlots_swept hpos h0

end

/-! What the transfers of a job do to its slot. -/

/-- Every stack has items in it. -/
def Stacked (slots : List (Option (ItemStack ι))) : Prop := ∀ v ∈ slots, ∀ stack ∈ v, 0 < stack.size

section
variable {phys phys' : List (Option (ItemStack ι))} {slot : ℕ}

theorem Stacked.get (h : Stacked phys) {stack : ItemStack ι}
    (hs : phys[slot]? = some (some stack)) :
    0 < stack.size := h _ (List.mem_of_getElem? hs) _ rfl

theorem stacked_of_get
    (h : ∀ (slot : ℕ) (stack : ItemStack ι), phys[slot]? = some (some stack) → 0 < stack.size) :
    Stacked phys := by
  intro v hv stack hstack
  obtain ⟨slot, hslot⟩ := List.mem_iff_getElem?.mp hv
  obtain rfl : v = some stack := hstack
  exact h slot stack hslot

theorem Stacked.takeOut (h : Stacked phys) (slot : ℕ) (size : ℤ) :
    Stacked (takeOut phys slot size) := by
  refine stacked_of_get fun j stack hj => ?_
  obtain ⟨old, hold, -, hpos⟩ := item_of_takeOut hj
  exact hpos (h.get hold)

theorem Stacked.putIn (h : Stacked phys) (slot : ℕ) {stack : ItemStack ι}
    (hstack : 0 < stack.size) :
    Stacked (putIn phys slot stack) := by
  refine stacked_of_get fun j q hj => ?_
  rcases item_of_putIn hj with ⟨old, hold, -, hpos⟩ | ⟨-, -, rfl⟩
  · exact hpos (h.get hold) hstack
  · exact hstack

/-- A slot of size zero is empty. -/
theorem Stacked.empty (h : Stacked phys) (hin : slot < phys.length) (hsize : sizeAt phys slot = 0) :
    phys[slot]? = some none := by
  have hcell : phys[slot]? = some phys[slot] := List.getElem?_eq_getElem hin
  cases hv : phys[slot] with
  | none => rw [hcell, hv]
  | some stack =>
    rw [hv] at hcell
    have hpos := h.get hcell
    rw [sizeAt_some hcell] at hsize
    omega

theorem found_none (h : phys[slot]? = some none) : found phys slot = none := by
  unfold found
  rw [h]
  rfl

variable {m : Move ι}

@[simp] theorem Move.length_apply : (m.apply phys slot).length = phys.length := by
  unfold Move.apply
  split_ifs <;> simp

theorem Move.getElem?_apply_ne {j : ℕ} (hj : slot ≠ j) : (m.apply phys slot)[j]? = phys[j]? := by
  unfold Move.apply
  split_ifs
  · exact getElem?_putIn_ne _ hj _
  · exact getElem?_takeOut_ne _ hj _

theorem Stacked.apply (h : Stacked phys) (hm : 0 < m.stack.size) : Stacked (m.apply phys slot) := by
  unfold Move.apply
  split_ifs
  · exact h.putIn slot hm
  · exact h.takeOut slot _

/-- What a transfer has added to its slot. -/
def Move.effect (m : Move ι) : ℤ :=
  if m.executed then (if m.inward then m.stack.size else -m.stack.size) else 0

/-- What is in the slot as far as its job can know. -/
def Holding.net (h : Holding ι) : ℤ := h.movedIn - h.movedOut + (h.moves.map Move.effect).sum

structure Holding.Ok (phys : List (Option (ItemStack ι))) (h : Holding ι) : Prop where
  positive : ∀ m ∈ h.moves, 0 < m.stack.size
  inside : h.slot < phys.length
  net : h.failed = false → sizeAt phys h.slot = h.net

namespace Holding.Ok
variable {h : Holding ι} {i : ℕ}

theorem new (job : ℕ) (hs : phys[slot]? = some none) : (Holding.new job slot).Ok phys := by
  have hsize := sizeAt_none hs
  exact ⟨by simp [Holding.new], lt_length_of_some hs,
    fun _ => by simpa [Holding.new, Holding.net] using hsize⟩

theorem congr (hok : h.Ok phys) (hlen : phys'.length = phys.length)
    (hcell : phys'[h.slot]? = phys[h.slot]?) :
    h.Ok phys' :=
  ⟨hok.positive, hlen ▸ hok.inside, fun hf => (sizeAt_congr hcell).trans (hok.net hf)⟩

theorem issue (hok : h.Ok phys) (inward : Bool) {stack : ItemStack ι} (hstack : 0 < stack.size) :
    Ok phys { h with moves := h.moves ++ [⟨inward, stack, false⟩] } := by
  refine ⟨?_, hok.inside, fun hf => ?_⟩
  · exact List.forall_mem_append.mpr ⟨hok.positive, List.forall_mem_singleton.mpr hstack⟩
  · have hnet := hok.net hf
    simpa [Holding.net, Move.effect] using hnet

/-- A transfer that is executed changes the slot by what it is then said to have done. -/
theorem execute [DecidableEq ι] (hok : h.Ok phys) (hm : h.moves[i]? = some m)
    (hnew : m.executed = false)
    (hposs : m.Possible phys h.slot) : (h.execute i).Ok (m.apply phys h.slot) := by
  have hpos := hok.positive m (List.mem_of_getElem? hm)
  obtain ⟨l₁, l₂, hmoves, -, hmod⟩ := List.exists_cut hm
  refine ⟨fun m' hm' => ?_, ?_, fun hf => ?_⟩
  · rcases List.mem_modify hm' with hm' | ⟨m', hm'', rfl⟩
    · exact hok.positive m' hm'
    · exact hok.positive m' (List.mem_of_getElem? hm'')
  · rw [Move.length_apply]
    exact hok.inside
  · have hnet := hok.net hf
    simp only [Holding.net, Holding.execute, hmod, List.map_append, List.map_cons, List.sum_append,
      List.sum_cons]
    simp only [Holding.net, hmoves, List.map_append, List.map_cons, List.sum_append,
      List.sum_cons] at hnet
    have hbefore : m.effect = 0 := by simp [Move.effect, hnew]
    have hafter : Move.effect { m with executed := true } =
        if m.inward then m.stack.size else -m.stack.size := by
      simp [Move.effect]
    unfold Move.apply
    unfold Move.Possible at hposs
    by_cases hin : m.inward = true
    · rw [if_pos hin] at hafter ⊢
      rw [sizeAt_putIn hok.inside, if_pos rfl]
      omega
    · rw [if_neg hin] at hafter hposs ⊢
      obtain ⟨stack, hstack⟩ := exists_of_sizeAt_pos (hpos.trans_le hposs)
      have hle : m.stack.size ≤ stack.size := sizeAt_some hstack ▸ hposs
      rw [sizeAt_takeOut hstack hle, if_pos rfl]
      omega

theorem resolve (hok : h.Ok phys) (hm : h.moves[i]? = some m) {ok : Bool}
    (hdone : ok = true → m.executed = true) :
    (h.resolve i ok).Ok phys := by
  obtain ⟨l₁, l₂, hmoves, herase, -⟩ := List.exists_cut hm
  unfold Holding.resolve
  rw [hm]
  refine ⟨fun m' hm' => hok.positive m' (List.mem_of_mem_eraseIdx hm'), hok.inside, fun hf => ?_⟩
  have hboth : h.failed = false ∧ ok = true := by simpa using hf
  obtain ⟨hnot, rfl⟩ := hboth
  have hnet := hok.net hnot
  have heffect : m.effect =
      if m.inward then m.stack.size else -m.stack.size := by simp [Move.effect, hdone rfl]
  have hsum : (h.moves.map Move.effect).sum =
      m.effect + ((h.moves.eraseIdx i).map Move.effect).sum := by
    rw [herase, hmoves, List.map_append, List.map_cons, List.sum_append, List.sum_cons,
      List.map_append,
      List.sum_append]
    omega
  rw [hnet]
  unfold Holding.net
  rw [hsum, heffect]
  by_cases hin : m.inward = true
  · simp only [hin, if_true, Bool.true_and, Bool.not_true, Bool.and_false, Bool.false_eq_true,
      if_false]
    omega
  · have hout : m.inward = false := Bool.not_eq_true _ ▸ hin
    simp only [hout, Bool.true_and, Bool.not_false, Bool.false_eq_true, if_true, if_false]
    omega

/-- When all went well and everything was moved out again, nothing is left. -/
theorem empty (hok : h.Ok phys) (hpos : Stacked phys) (hs : h.Settled) :
    phys[h.slot]? = some none := by
  obtain ⟨hmoves, hfailed, hmoved⟩ := hs
  have hnet := hok.net hfailed
  refine hpos.empty hok.inside ?_
  rw [hnet]
  simp [Holding.net, hmoves, hmoved]

end Holding.Ok
end

/-! The invariant. -/

/-- What holds wherever the updater is. -/
structure Core (w : World ι) : Prop where
  alive : w.panicked = false
  owns : w.bus.Owns (heldSlots w)
  stacked : Stacked w.phys
  holdings : ∀ h ∈ w.held, h.Ok w.phys
  grants : ∀ g ∈ w.grants, g.found = none

/-- A listing may be old, but what it shows as empty is empty unless a job has it. -/
structure Listing.Fresh (allocations : Finset ℕ) (phys : List (Option (ItemStack ι)))
    (l : Listing ι) : Prop where
  stacked : Stacked l.slots
  empty : ∀ slot ∉ allocations, l.slots[slot]? = some none → phys[slot]? = some none

/-- What the updater waits for concerns slots that no job has. -/
def Updater.Ok (allocations : Finset ℕ) (phys : List (Option (ItemStack ι))) : Updater ι → Prop
  | .listing (some l) => l.Fresh allocations phys
  | .depositing tasks _ => ∀ t ∈ tasks, t.1.busSlot - 1 ∉ allocations
  | _ => True

theorem Updater.Ok.erase {allocations : Finset ℕ} {phys : List (Option (ItemStack ι))}
    {updater : Updater ι}
    (h : updater.Ok allocations phys) {slot : ℕ} (hempty : phys[slot]? = some none) :
    updater.Ok (allocations.erase slot) phys := by
  unfold Updater.Ok at h ⊢
  split at h
  · refine ⟨h.stacked, fun slot' hout hlisted => ?_⟩
    by_cases heq : slot' = slot
    · rw [heq]
      exact hempty
    · exact h.empty slot' (fun hin => hout (Finset.mem_erase.mpr ⟨heq, hin⟩)) hlisted
  · exact fun t ht hin => h t ht (Finset.mem_of_mem_erase hin)
  · trivial

/-- What a job does to its slot is none of the updater's business. -/
theorem Updater.Ok.touch {allocations : Finset ℕ} {phys phys' : List (Option (ItemStack ι))}
    {updater : Updater ι}
    (h : updater.Ok allocations phys) {slot : ℕ} (hin : slot ∈ allocations)
    (hother : ∀ j, slot ≠ j → phys'[j]? = phys[j]?) : updater.Ok allocations phys' := by
  unfold Updater.Ok at h ⊢
  split at h
  · refine ⟨h.stacked, fun slot' hout hlisted => ?_⟩
    rw [hother slot' fun heq => hout (heq ▸ hin)]
    exact h.empty slot' hout hlisted
  · exact h
  · trivial

structure Inv (w : World ι) : Prop extends Core w where
  running : w.bus.busTask = true ↔ w.updater ≠ .idle
  updater : w.updater.Ok w.bus.busAllocations w.phys

variable {w : World ι}

theorem Core.mem_allocations (h : Core w) {a : Holding ι} (ha : a ∈ w.held) :
    a.slot ∈ w.bus.busAllocations :=
  (h.owns.mem_iff _).mpr (List.mem_append_left _ (List.mem_map_of_mem ha))

/-- The other jobs have other slots. -/
theorem Core.slot_ne (h : Core w) {k : ℕ} {a b : Holding ι} (hk : w.held[k]? = some a)
    (hb : b ∈ w.held.eraseIdx k) :
    a.slot ≠ b.slot := by
  obtain ⟨l₁, l₂, hheld, herase, -⟩ := List.exists_cut hk
  have hnd : (heldSlots w).Nodup := (List.nodup_append.mp h.owns.nodup).1
  have hperm : (heldSlots w).Perm (a.slot :: (l₁ ++ l₂).map Holding.slot) := by
    unfold heldSlots
    rw [hheld]
    simp
  have hnot := (List.nodup_cons.mp (hperm.nodup_iff.mp hnd)).1
  rw [herase] at hb
  intro heq
  exact hnot (heq ▸ List.mem_map_of_mem hb)

/-- A slot that is not allocated may be emptied. -/
theorem Core.outside (h : Core w) {phys : List (Option (ItemStack ι))} {slot : ℕ}
    (hout : slot ∉ w.bus.busAllocations)
    (hstacked : Stacked phys) (hlen : phys.length = w.phys.length)
    (hother : ∀ j, slot ≠ j → phys[j]? = w.phys[j]?)
    (updater : Updater ι) : Core { w with phys := phys, updater := updater } := by
  refine ⟨h.alive, h.owns, hstacked, fun a ha => (h.holdings a ha).congr hlen (hother _ ?_),
    h.grants⟩
  rintro rfl
  exact hout (h.mem_allocations ha)

/-- One job does something to its slot. -/
theorem Core.modify (h : Core w) {k : ℕ} {a : Holding ι} (hk : w.held[k]? = some a)
    {f : Holding ι → Holding ι}
    (hslot : ∀ b, (f b).slot = b.slot) {phys : List (Option (ItemStack ι))}
    (hstacked : Stacked phys)
    (hlen : phys.length = w.phys.length) (hother : ∀ j, a.slot ≠ j → phys[j]? = w.phys[j]?)
    (hok : (f a).Ok phys) :
    Core { w with phys := phys, held := w.held.modify k f } := by
  have hheld : heldSlots { w with phys := phys, held := w.held.modify k f } = heldSlots w :=
    List.map_modify_of_eq hslot _ _
  refine ⟨h.alive, ?_, hstacked, fun b hb => ?_, h.grants⟩
  · rw [hheld]
    exact h.owns
  · obtain ⟨l₁, l₂, hcut, herase, hmod⟩ := List.exists_cut hk
    have hmem : b = f a ∨ b ∈ w.held.eraseIdx k := by
      rw [herase]
      simp only [hmod, List.mem_append, List.mem_cons] at hb ⊢
      tauto
    rcases hmem with rfl | hmem
    · exact hok
    · exact (h.holdings b (List.mem_of_mem_eraseIdx hmem)).congr hlen (hother _ (h.slot_ne hk hmem))

/-! The steps of the updater. -/

theorem Core.beginUpdate (h : Core w) (hrun : w.bus.busTask = true) : Inv (ItemBus.beginUpdate w) :=
  ⟨⟨h.alive, ⟨h.owns.nodup, h.owns.mem_iff⟩, h.stacked, h.holdings, h.grants⟩,
    iff_of_true hrun (by simp [ItemBus.beginUpdate]), trivial⟩

theorem Core.abort (h : Core w) : Inv (ItemBus.abort w) :=
  ⟨⟨h.alive, ⟨h.owns.nodup, h.owns.mem_iff⟩, h.stacked, h.holdings, h.grants⟩, by
    simp [ItemBus.abort, Bus.abort], trivial⟩

theorem Core.finish (h : Core w) (hrun : w.bus.busTask = true) (everDeposited : Bool) :
    Inv (ItemBus.finish w everDeposited) := by
  have hdrain : Core { w with bus := w.bus.drain.1 } :=
    ⟨h.alive, h.owns.drain, h.stacked, h.holdings, h.grants⟩
  unfold ItemBus.finish
  split
  · exact hdrain.beginUpdate hrun
  · exact ⟨⟨h.alive, ⟨hdrain.owns.nodup, hdrain.owns.mem_iff⟩, h.stacked, h.holdings, h.grants⟩,
      by simp, trivial⟩

/-- The updater is woken by calls that change the allocations only if it is not there. -/
theorem Core.wake {bus : Bus ℕ} (h : Core { w with bus := bus })
    (hrun : w.bus.busTask = true ↔ w.updater ≠ .idle)
    (hmono : w.bus.busTask = true → bus.busTask = true)
    (hupd : w.bus.busTask = true → w.updater.Ok bus.busAllocations w.phys) :
    Inv (ItemBus.wake w bus) := by
  refine ⟨⟨h.alive, h.owns, h.stacked, h.holdings, h.grants⟩, ?_, ?_⟩
  · unfold ItemBus.wake
    cases hbefore : w.bus.busTask with
    | true =>
      have hafter := hmono hbefore
      simpa [hafter] using hrun.mp hbefore
    | false =>
      have hidle : w.updater = .idle := by simpa [hbefore] using hrun
      cases hafter : bus.busTask with
      | true => simp
      | false => simpa using hidle
  · unfold ItemBus.wake
    cases hbefore : w.bus.busTask with
    | true => simpa using hupd hbefore
    | false =>
      have hidle : w.updater = .idle := by simpa [hbefore] using hrun
      cases hafter : bus.busTask with
      | true => simp [Updater.Ok]
      | false => simp [hidle, Updater.Ok]

/-- The grants of an update are of slots that were listed as empty and that nobody had. -/
theorem mem_giveOut {listing : Listing ι} {s : Sweep ι}
    (hs : Swept w.bus.busAllocations listing.slots s) {g : ℕ × ℕ}
    (hg : g ∈ (w.bus.giveOut s.freeSlots).2) :
    g.2 ∉ w.bus.busAllocations ∧ listing.slots[g.2]? = some none := by
  rw [Bus.giveOut_eq] at hg
  have hmem := (List.of_mem_zip hg).2
  exact (hs.free _).mp (List.mem_reverse.mp hmem)

theorem Core.receive (h : Core w) {listing : Listing ι} {s : Sweep ι}
    (hs : Swept w.bus.busAllocations listing.slots s)
    (hfresh : listing.Fresh w.bus.busAllocations w.phys) : Core (ItemBus.receive w listing s) := by
  have hempty (g : ℕ × ℕ) (hg : g ∈ (w.bus.giveOut s.freeSlots).2) : w.phys[g.2]? = some none := by
    obtain ⟨hout, hlisted⟩ := mem_giveOut hs hg
    exact hfresh.empty g.2 hout hlisted
  have hheld : heldSlots (ItemBus.receive w listing s) =
      heldSlots w ++ (w.bus.giveOut s.freeSlots).2.map Prod.snd := by
    simp [heldSlots, ItemBus.receive, Holding.new, Function.comp_def]
  refine ⟨h.alive, ?_, h.stacked, fun a ha => ?_, fun g hg => ?_⟩
  · rw [hheld]
    refine h.owns.grant (List.nodup_reverse.mpr hs.nodup) fun slot hslot => ?_
    exact ((hs.free slot).mp (List.mem_reverse.mp hslot)).1
  · rcases List.mem_append.mp ha with ha | ha
    · exact h.holdings a ha
    · obtain ⟨g, hg, rfl⟩ := List.mem_map.mp ha
      exact .new g.1 (hempty g hg)
  · rcases List.mem_append.mp hg with hg | hg
    · exact h.grants g hg
    · obtain ⟨g, hg', rfl⟩ := List.mem_map.mp hg
      exact found_none (hempty g hg')

/-- The deposits take from slots that nobody gets. -/
theorem Swept.deposits {listing : Listing ι} {s : Sweep ι}
    (hs : Swept w.bus.busAllocations listing.slots s)
    {t : Transfer} (ht : t ∈ transfers s.tasks) :
    t.busSlot - 1 ∉ (ItemBus.receive w listing s).bus.busAllocations := by
  obtain ⟨c, hc, htc⟩ := hs.tasks t ht
  obtain ⟨hout, hlisted, htakes⟩ := hs.calls c hc
  have hslot : t.busSlot - 1 = c.1 := by
    rw [(htakes.source t htc).1]
    exact Nat.add_sub_cancel _ _
  rw [hslot, ItemBus.receive, Bus.mem_giveOut]
  rintro (hin | hgiven)
  · exact hout hin
  · have hfree := (hs.free _).mp (List.mem_reverse.mp (List.mem_of_mem_take hgiven))
    rw [hlisted] at hfree
    simp at hfree

variable [DecidableEq ι] [ItemClass ι]

theorem respond_eq (w : World ι) {listing : Listing ι} (hstacked : Stacked listing.slots) :
    ∃ s, Swept w.bus.busAllocations listing.slots s ∧
      respond w listing =
        if s.tasks.isEmpty then finish (receive w listing s) false
        else
          { receive w listing s with
            updater := .depositing ((transfers s.tasks).map (·, false))
              (s.tasks.any fun t => !t.isOk) } := by
  obtain ⟨s, hrun, hs⟩ := sweepSlots_spec w.bus.busAllocations hstacked w.storages
  refine ⟨s, hs, ?_⟩
  unfold respond
  rw [hrun]

theorem Inv.respond (h : Inv w) {listing : Listing ι} (hupd : w.updater = .listing (some listing)) :
    Inv (ItemBus.respond w listing) := by
  have hfresh : listing.Fresh w.bus.busAllocations w.phys := by
    have hok := h.updater
    rwa [hupd] at hok
  have hrun : w.bus.busTask = true := h.running.mpr (by simp [hupd])
  obtain ⟨s, hs, heq⟩ := respond_eq w hfresh.stacked
  have hcore := h.toCore.receive hs hfresh
  have htask : (ItemBus.receive w listing s).bus.busTask = true := by
    rwa [ItemBus.receive, Bus.giveOut_busTask]
  rw [heq]
  split
  · exact hcore.finish htask false
  · refine ⟨⟨hcore.alive, hcore.owns, hcore.stacked, hcore.holdings, hcore.grants⟩,
      iff_of_true htask (by simp), ?_⟩
    intro t ht
    obtain ⟨t, htask', rfl⟩ := List.mem_map.mp ht
    exact hs.deposits htask'

/-- A slot is handed over to the first request, or it is not allocated any more. -/
theorem next_free {k : ℕ} {a : Holding ι} (hk : w.held[k]? = some a) :
    next w (.free k) =
      match w.bus.busWaitQueue with
      | [] =>
        { w with
          bus := { w.bus with busAllocations := w.bus.busAllocations.erase a.slot, busWaitQueue := [] }
          held := w.held.eraseIdx k }
      | job :: requests =>
        { w with
          bus := { w.bus with busWaitQueue := requests }
          held := w.held.eraseIdx k ++ [.new job a.slot]
          grants := w.grants ++ [⟨job, a.slot, found w.phys a.slot⟩] } := by
  obtain ⟨⟨task, allocations, queue, free, n⟩,
    updater, storages, phys, held, grants, calls, started, panicked⟩ := w
  simp only [next, hk, Bus.free]
  cases queue <;> simp

theorem Inv.free (h : Inv w) {k : ℕ} {a : Holding ι} (hk : w.held[k]? = some a) (hs : a.Settled) :
    Inv (next w (.free k)) := by
  have hempty := (h.holdings a (List.mem_of_getElem? hk)).empty h.stacked hs
  have hslot : (heldSlots w)[k]? = some a.slot := by simp [heldSlots, hk]
  rw [next_free hk]
  cases w.bus.busWaitQueue with
  | cons job requests =>
    -- the slot goes from one job to another, so what is allocated stays
    have hperm : ((heldSlots w).eraseIdx k ++ [a.slot]).Perm (heldSlots w) := by
      obtain ⟨m₁, m₂, hcut, hcut', -⟩ := List.exists_cut hslot
      rw [hcut', hcut, List.append_assoc]
      exact (List.perm_append_singleton _ _).append_left m₁
    have hheld : (w.held.eraseIdx k ++ [Holding.new job a.slot]).map Holding.slot =
        (heldSlots w).eraseIdx k ++ [a.slot] := by
      simp only [heldSlots, List.map_append, List.eraseIdx_map]
      rfl
    have hown := h.owns.perm (hheld ▸ hperm)
    refine ⟨⟨h.alive, ⟨hown.nodup, hown.mem_iff⟩, h.stacked, fun b hb => ?_, fun g hg => ?_⟩,
      h.running, h.updater⟩
    · rcases List.mem_append.mp hb with hb | hb
      · exact h.holdings b (List.mem_of_mem_eraseIdx hb)
      · obtain rfl := List.mem_singleton.mp hb
        exact .new job hempty
    · rcases List.mem_append.mp hg with hg | hg
      · exact h.grants g hg
      · obtain rfl := List.mem_singleton.mp hg
        exact found_none hempty
  | nil =>
    have hheld : (w.held.eraseIdx k).map Holding.slot = (heldSlots w).eraseIdx k :=
      (List.eraseIdx_map ..).symm
    have hown := h.owns.free hslot
    rw [← hheld] at hown
    exact ⟨⟨h.alive, ⟨hown.nodup, hown.mem_iff⟩, h.stacked,
      fun b hb => h.holdings b (List.mem_of_mem_eraseIdx hb),
      h.grants⟩, h.running, h.updater.erase hempty⟩

theorem Inv.deposit (h : Inv w) {slots : List ℕ} (hnd : slots.Nodup)
    (hheld : ∀ s ∈ slots, ∃ a ∈ w.held, a.slot = s ∧ a.moves = []) :
    Inv (next w (.deposit slots)) := by
  have hsub (s : ℕ) (hs : s ∈ slots) : s ∈ heldSlots w := by
    obtain ⟨a, ha, rfl, -⟩ := hheld s hs
    exact List.mem_map_of_mem ha
  have hfilter : (w.held.filter fun a => a.slot ∉ slots).map Holding.slot =
      (heldSlots w).filter (· ∉ slots) := by
    rw [heldSlots, List.filter_map]
    rfl
  have hown := h.owns.deposit hnd hsub
  rw [← hfilter] at hown
  refine Core.wake ⟨h.alive, hown, h.stacked, fun a ha => h.holdings a (List.mem_filter.mp ha).1,
    h.grants⟩
    h.running ?_ ?_
  · intro hrun
    simp only [Bus.deposit, if_pos hrun]
    exact hrun
  · intro hrun
    simp only [Bus.deposit, if_pos hrun]
    exact h.updater

theorem Inv.drain (h : Inv w) {k : ℕ} {moved : ℤ} {tasks : List (Transfer × Bool)} {failed : Bool}
    (hupd : w.updater = .depositing tasks failed) : Inv (next w (.drain k moved)) := by
  have hok : ∀ t ∈ tasks, t.1.busSlot - 1 ∉ w.bus.busAllocations := by
    have hok := h.updater
    rwa [hupd] at hok
  simp only [next, hupd]
  cases ht : tasks[k]? with
  | none => exact h
  | some t =>
    have hout := hok t (List.mem_of_getElem? ht)
    refine ⟨h.toCore.outside hout (h.stacked.takeOut _ _) (length_takeOut ..)
      (fun j hj => getElem?_takeOut_ne _ hj _) _,
      iff_of_true (h.running.mpr (by simp [hupd])) (by simp), ?_⟩
    intro t' ht'
    rcases List.mem_modify ht' with hmem | ⟨t', hmem, rfl⟩
    · exact hok t' hmem
    · exact hok t' (List.mem_of_getElem? hmem)

theorem Inv.step (h : Inv w) {e : Event ι} (he : enabled w e) : Inv (next w e) := by
  cases e with
  | allocate job n =>
    simp only [next, Bus.foldl_allocate]
    refine Core.wake ⟨h.alive, ⟨h.owns.nodup, h.owns.mem_iff⟩, h.stacked, h.holdings,
      h.grants⟩ h.running ?_
      fun _ => h.updater
    intro hrun
    have hrun : w.bus.busTask = true := hrun
    simp [hrun]
  | issue k inward stack =>
    obtain ⟨hk, hstack⟩ := he
    have hget := List.getElem?_eq_getElem hk
    have hok := (h.holdings _ (List.mem_of_getElem? hget)).issue inward hstack
    have hcore := h.toCore.modify hget
      (f := fun a => { a with moves := a.moves ++ [⟨inward, stack, false⟩] })
      (fun _ => rfl) h.stacked rfl (fun _ _ => rfl) hok
    exact ⟨hcore, h.running, h.updater⟩
  | execute k i =>
    obtain ⟨a, hk, m, hm, hnew, hposs⟩ := he
    have hok := h.holdings a (List.mem_of_getElem? hk)
    have hpos := hok.positive m (List.mem_of_getElem? hm)
    have hin := h.mem_allocations (List.mem_of_getElem? hk)
    have hcore := h.toCore.modify hk (f := Holding.execute i) (fun _ => rfl)
      (h.stacked.apply hpos) Move.length_apply
      (fun j hj => Move.getElem?_apply_ne hj) (hok.execute hm hnew hposs)
    rw [Option.mem_def] at hk hm
    simp only [next, hk, hm]
    exact ⟨hcore, h.running, h.updater.touch hin fun j hj => Move.getElem?_apply_ne hj⟩
  | resolve k i ok =>
    obtain ⟨a, hk, m, hm, hdone⟩ := he
    have hok := h.holdings a (List.mem_of_getElem? hk)
    have hcore := h.toCore.modify hk (fun b => b.slot_resolve i ok) h.stacked rfl (fun _ _ => rfl)
      (hok.resolve hm hdone)
    exact ⟨hcore, h.running, h.updater⟩
  | free k =>
    obtain ⟨a, hk, hs⟩ := he
    exact h.free hk hs
  | deposit slots => exact h.deposit he.1 he.2
  | poll => exact h.toCore.beginUpdate (h.running.mpr (by simp [show w.updater = .spawned from he]))
  | list =>
    have hrun : w.bus.busTask = true :=
      h.running.mpr (by simp [show w.updater = .listing none from he])
    -- what is listed now is what is there
    exact ⟨⟨h.alive, h.owns, h.stacked, h.holdings, h.grants⟩, iff_of_true hrun (by simp [next]),
      ⟨h.stacked, fun _ _ hs => hs⟩⟩
  | respond =>
    obtain ⟨listing, hresponse⟩ := Option.ne_none_iff_exists'.mp he
    simp only [next, hresponse]
    exact h.respond (Updater.eq_of_response hresponse)
  | listFailed => exact h.toCore.abort
  | drain k moved =>
    obtain ⟨t, ht, -⟩ := he
    obtain ⟨failed, hupd⟩ := Updater.eq_of_tasks ht
    exact h.drain hupd
  | settle k ok =>
    obtain ⟨t, ht, -⟩ := he
    obtain ⟨failed, hupd⟩ := Updater.eq_of_tasks ht
    generalize w.updater.tasks = tasks at hupd
    have hok := h.updater
    simp only [next, hupd] at hok ⊢
    refine ⟨⟨h.alive, h.owns, h.stacked, h.holdings, h.grants⟩,
      iff_of_true (h.running.mpr (by simp [hupd])) (by simp), ?_⟩
    exact fun t ht => hok t (List.mem_of_mem_eraseIdx ht)
  | join =>
    rcases he with hupd | hupd
    · simp only [next, hupd]
      exact h.toCore.abort
    · have hrun : w.bus.busTask = true := h.running.mpr (by simp [hupd])
      simp only [next, hupd]
      exact h.toCore.finish hrun true
  | change storages =>
    exact ⟨⟨h.alive, h.owns, h.stacked, h.holdings, h.grants⟩, h.running, h.updater⟩
  | sweep =>
    exact ⟨⟨h.alive, ⟨h.owns.nodup, h.owns.mem_iff⟩, h.stacked, h.holdings, h.grants⟩,
      iff_of_true rfl (by simp [next]), trivial⟩

/-- Who has which slot, in any state that is reached. -/
structure Exclusive (w : World ι) : Prop where
  /-- No `unwrap` failed and no loop went on. -/
  alive : w.panicked = false
  held : (heldSlots w).Nodup
  freeQueue : w.bus.busFreeQueue.Nodup
  disjoint : (heldSlots w).Disjoint w.bus.busFreeQueue
  allocated : ∀ slot, slot ∈ w.bus.busAllocations ↔ slot ∈ heldSlots w ∨ slot ∈ w.bus.busFreeQueue
  /-- Whoever granted a slot, there was nothing in it. -/
  empty : ∀ g ∈ w.grants, g.found = none
  inside : ∀ a ∈ w.held, a.slot < w.phys.length

omit [DecidableEq ι] [ItemClass ι] in
theorem Core.exclusive (h : Core w) : Exclusive w := by
  obtain ⟨hheld, hfree, hdisjoint⟩ := List.nodup_append'.mp h.owns.nodup
  exact ⟨h.alive, hheld, hfree, hdisjoint, fun slot => (h.owns.mem_iff slot).trans List.mem_append,
    h.grants,
    fun a ha => (h.holdings a ha).inside⟩

omit [DecidableEq ι] [ItemClass ι] in
theorem start_inv (storages : List (Storage ι)) {phys : List (Option (ItemStack ι))}
    (hphys : Stacked phys) :
    Inv (start storages phys) := by
  refine ⟨⟨rfl, ⟨?_, ?_⟩, hphys, ?_, ?_⟩, ?_, trivial⟩ <;> simp [start, heldSlots, Bus.new]

/-- Whatever the order of the steps, and whatever fails, no slot has two holders, the allocations
are the held slots and the ones that wait to be emptied, and slots are empty when they are granted. -/
theorem exclusive_hold (storages : List (Storage ι)) (phys : List (Option (ItemStack ι)))
    (hphys : ∀ v ∈ phys, ∀ stack ∈ v, 0 < stack.size) (es : List (Event ι))
    (hv : (machine ι).Valid (start storages phys) es) :
    Exclusive ((machine ι).exec (start storages phys) es) :=
  ((machine ι).invariant (fun _ _ hI he => hI.step he) (start_inv storages hphys) hv).exclusive

/-- Iron of nobody is deposited while a job waits, an old listing is processed after a slot was
handed over, and a full slot waits for the updater to empty it. -/
def busyBus : List (Event (Item ℤ)) :=
  [.allocate 1 1, .poll, .list, .respond, .issue 0 true ⟨iron, 3⟩, .execute 0 0, .allocate 2 1,
    .resolve 0 0 true, .drain 0 5, .settle 0 true, .join, .list, .issue 0 false ⟨iron, 3⟩,
    .execute 0 0, .resolve 0 0 true, .free 0, .allocate 3 1, .respond, .issue 0 true ⟨gold, 1⟩,
    .allocate 4 1, .poll, .execute 0 0, .resolve 0 0 true, .deposit [1], .list, .respond]

theorem exclusive_hold_busyBus :
    let w := (machine (Item ℤ)).exec (start [.me] [some ⟨iron, 5⟩, none]) busyBus
    w.held.map (fun a => (a.job, a.slot)) = [(3, 0)] ∧
    w.bus.busFreeQueue = [] ∧ w.bus.busWaitQueue = [4] ∧
      w.bus.busAllocations = {0} ∧ Exclusive w :=
  ⟨by decide +kernel, by decide +kernel, by decide +kernel, by decide +kernel,
    exclusive_hold [.me] _ (by decide) busyBus (by decide +kernel)⟩

end ItemBus
end OCRemote
