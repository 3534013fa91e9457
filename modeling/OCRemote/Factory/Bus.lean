import Mathlib.Data.Finset.Basic
import Mathlib.Data.Finset.Lattice.Lemmas
import Mathlib.Data.List.Nodup
import OCRemote.Lib.Split

/-! The bus of the factory (`factory.rs`). Requests wait in a queue, slots are handed out by the
updater or by the job that frees one, and a slot that is to be emptied while the updater runs
waits in `bus_free_queue`. The item bus and the fluid bus have the same functions. -/

namespace OCRemote

structure Bus (ρ : Type) where
  busTask : Bool
  busAllocations : Finset ℕ
  busWaitQueue : List ρ
  busFreeQueue : List ℕ
  nBusUpdates : ℕ

namespace Bus
variable {ρ : Type}

def new : Bus ρ := ⟨false, ∅, [], [], 0⟩

/-- `bus_allocate`. The updater is spawned if it is not there. -/
def allocate (b : Bus ρ) (request : ρ) : Bus ρ :=
  { b with busWaitQueue := b.busWaitQueue ++ [request], busTask := true }

/-- `bus_free`, with the request that the slot is handed over to. -/
def free (b : Bus ρ) (slot : ℕ) : Bus ρ × Option ρ :=
  match b.busWaitQueue with
  | request :: requests => ({ b with busWaitQueue := requests }, some request)
  | [] => ({ b with busAllocations := b.busAllocations.erase slot }, none)

theorem free_of_nil {b : Bus ρ} (h : b.busWaitQueue = []) (slot : ℕ) :
    b.free slot = ({ b with busAllocations := b.busAllocations.erase slot }, none) := by
  obtain ⟨task, allocations, queue, free, n⟩ := b
  obtain rfl : queue = [] := h
  rfl

theorem free_of_cons {b : Bus ρ} {request : ρ} {requests : List ρ}
    (h : b.busWaitQueue = request :: requests) (slot : ℕ) :
    b.free slot = ({ b with busWaitQueue := requests }, some request) := by rw [free, h]

/-- `bus_deposit`. -/
def deposit (b : Bus ρ) (slots : List ℕ) : Bus ρ :=
  if b.busTask then { b with busFreeQueue := b.busFreeQueue ++ slots }
  else { b with busAllocations := b.busAllocations \ slots.toFinset, busTask := !slots.isEmpty }

theorem free_subset (b : Bus ρ) (slot : ℕ) :
    (b.free slot).1.busAllocations ⊆ b.busAllocations := by
  unfold free
  split
  · exact Finset.Subset.refl _
  · exact Finset.erase_subset ..

theorem deposit_subset (b : Bus ρ) (slots : List ℕ) :
    (b.deposit slots).busAllocations ⊆ b.busAllocations := by
  unfold deposit
  split_ifs
  · exact Finset.Subset.refl _
  · exact Finset.sdiff_subset

/-- The loop that gives free slots to requests, with the slots in the order they are popped. -/
def grant : List ℕ → Bus ρ → Bus ρ × List (ρ × ℕ)
  | [], b => (b, [])
  | slot :: slots, b =>
    match b.busWaitQueue with
    | [] => (b, [])
    | request :: requests =>
      let r := grant slots
        { b with busAllocations := insert slot b.busAllocations, busWaitQueue := requests }
      (r.1, (request, slot) :: r.2)

/-- `pop` takes free slots from the end. -/
def giveOut (b : Bus ρ) (freeSlots : List ℕ) : Bus ρ × List (ρ × ℕ) := grant freeSlots.reverse b

/-- The loop over `take(bus_free_queue)`, with `ever_freed`. -/
def drain (b : Bus ρ) : Bus ρ × Bool :=
  ({ b with busAllocations := b.busAllocations \ b.busFreeQueue.toFinset, busFreeQueue := [] },
    !b.busFreeQueue.isEmpty)

/-- A failed update: every request is refused and the updater ends. -/
def abort (b : Bus ρ) : Bus ρ := { b with busWaitQueue := [], busTask := false }

theorem map_fst_zip (l : List ρ) (slots : List ℕ) :
    (l.zip slots).map Prod.fst = l.take slots.length := by
  induction l generalizing slots with
  | nil => simp
  | cons a l ih =>
    cases slots with
    | nil => simp
    | cons slot slots => simp [ih]

theorem map_snd_zip (l : List ρ) (slots : List ℕ) :
    (l.zip slots).map Prod.snd = slots.take l.length := by
  induction l generalizing slots with
  | nil => simp
  | cons a l ih =>
    cases slots with
    | nil => simp
    | cons slot slots => simp [ih]

theorem grant_eq (slots : List ℕ) (b : Bus ρ) :
    grant slots b =
      ({ b with
          busAllocations := b.busAllocations ∪ (slots.take b.busWaitQueue.length).toFinset
          busWaitQueue := b.busWaitQueue.drop slots.length },
        b.busWaitQueue.zip slots) := by
  induction slots generalizing b with
  | nil => simp [grant]
  | cons slot slots ih =>
    obtain ⟨task, allocations, queue, free, n⟩ := b
    cases queue with
    | nil => simp [grant]
    | cons request requests =>
      simp only [grant, ih, List.length_cons, List.take_succ_cons, List.toFinset_cons,
        List.drop_succ_cons, List.zip_cons_cons, Finset.insert_union, Finset.union_insert]

/-- Giving out ends with the slots or with the requests. -/
theorem giveOut_eq (b : Bus ρ) (freeSlots : List ℕ) :
    b.giveOut freeSlots =
      ({ b with
          busAllocations :=
            b.busAllocations ∪ (freeSlots.reverse.take b.busWaitQueue.length).toFinset
          busWaitQueue := b.busWaitQueue.drop freeSlots.length },
        b.busWaitQueue.zip freeSlots.reverse) := by
  rw [giveOut, grant_eq, List.length_reverse]

@[simp] theorem giveOut_busTask (b : Bus ρ) (freeSlots : List ℕ) :
    (b.giveOut freeSlots).1.busTask = b.busTask := by rw [giveOut_eq]

@[simp] theorem giveOut_busFreeQueue (b : Bus ρ) (freeSlots : List ℕ) :
    (b.giveOut freeSlots).1.busFreeQueue = b.busFreeQueue := by rw [giveOut_eq]

@[simp] theorem giveOut_busWaitQueue (b : Bus ρ) (freeSlots : List ℕ) :
    (b.giveOut freeSlots).1.busWaitQueue = b.busWaitQueue.drop freeSlots.length := by
  rw [giveOut_eq]

theorem mem_giveOut (b : Bus ρ) (freeSlots : List ℕ) (slot : ℕ) :
    slot ∈ (b.giveOut freeSlots).1.busAllocations ↔
      slot ∈ b.busAllocations ∨ slot ∈ freeSlots.reverse.take b.busWaitQueue.length := by
  rw [giveOut_eq, Finset.mem_union, List.mem_toFinset]

/-- Requests enough for all free slots leave none of them. -/
theorem mem_giveOut_of_le (b : Bus ρ) {freeSlots : List ℕ}
    (h : freeSlots.length ≤ b.busWaitQueue.length)
    (slot : ℕ) : slot ∈ (b.giveOut freeSlots).1.busAllocations ↔
      slot ∈ b.busAllocations ∨ slot ∈ freeSlots := by
  have hall : freeSlots.reverse.take b.busWaitQueue.length = freeSlots.reverse := by
    apply List.take_of_length_le
    rwa [List.length_reverse]
  rw [mem_giveOut, hall, List.mem_reverse]

/-- The slots of `held` and those in the free queue are different ones, and they are exactly the
allocated ones. -/
structure Owns (b : Bus ρ) (held : List ℕ) : Prop where
  nodup : (held ++ b.busFreeQueue).Nodup
  mem_iff : ∀ slot, slot ∈ b.busAllocations ↔ slot ∈ held ++ b.busFreeQueue

namespace Owns
variable {b : Bus ρ} {held : List ℕ}

theorem perm (h : Owns b held) {held' : List ℕ} (hp : held'.Perm held) : Owns b held' :=
  ⟨(hp.append_right _).nodup_iff.mpr h.nodup,
    fun slot => (h.mem_iff slot).trans (hp.append_right _).mem_iff.symm⟩

theorem free (h : Owns b held) {k slot : ℕ} (hk : held[k]? = some slot) :
    Owns { b with busAllocations := b.busAllocations.erase slot } (held.eraseIdx k) := by
  obtain ⟨l₁, l₂, hl, herase, -⟩ := List.exists_cut hk
  have hperm : held.Perm (slot :: (l₁ ++ l₂)) := hl ▸ List.perm_middle
  obtain ⟨hnd, hmem⟩ := h.perm hperm.symm
  obtain ⟨hnot, hnd⟩ := List.nodup_cons.mp hnd
  rw [herase]
  refine ⟨hnd, fun s => ?_⟩
  have hs := hmem s
  rw [Finset.mem_erase, hs, List.cons_append, List.mem_cons]
  constructor
  · rintro ⟨hne, rfl | hs⟩
    · exact absurd rfl hne
    · exact hs
  · intro hs
    refine ⟨?_, .inr hs⟩
    rintro rfl
    exact hnot hs

/-- What is given back leaves the held slots, and stays allocated while it waits to be emptied. -/
theorem defer (h : Owns b held) {slots : List ℕ} (hnd : slots.Nodup)
    (hsub : ∀ s ∈ slots, s ∈ held) :
    Owns { b with busFreeQueue := b.busFreeQueue ++ slots } (held.filter (· ∉ slots)) := by
  have hheld := List.nodup_append.mp h.nodup
  constructor
  · have hrest : (held.filter (· ∉ slots)).Nodup := hheld.1.filter _
    refine List.nodup_append.mpr ⟨hrest, List.nodup_append.mpr ⟨hheld.2.1, hnd, ?_⟩, ?_⟩
    · intro s hs s' hs'
      exact (hheld.2.2 s' (hsub s' hs') s hs).symm
    · intro s hs s' hs'
      obtain ⟨hs, hout⟩ := List.mem_filter.mp hs
      rcases List.mem_append.mp hs' with hs' | hs'
      · exact hheld.2.2 s hs s' hs'
      · rintro rfl
        simp [hs'] at hout
  · intro s
    rw [h.mem_iff]
    simp only [List.mem_append, List.mem_filter, decide_eq_true_eq]
    constructor
    · rintro (hs | hs)
      · by_cases hin : s ∈ slots
        · exact .inr (.inr hin)
        · exact .inl ⟨hs, hin⟩
      · exact .inr (.inl hs)
    · rintro (hs | hs | hs)
      · exact .inl hs.1
      · exact .inr hs
      · exact .inl (hsub s hs)

theorem remove (h : Owns b held) {slots : List ℕ} (hsub : ∀ s ∈ slots, s ∈ held) (task : Bool) :
    Owns { b with busAllocations := b.busAllocations \ slots.toFinset, busTask := task }
      (held.filter (· ∉ slots)) := by
  have hheld := List.nodup_append.mp h.nodup
  constructor
  · refine List.nodup_append.mpr ⟨hheld.1.filter _, hheld.2.1, fun s hs => ?_⟩
    exact hheld.2.2 s (List.mem_filter.mp hs).1
  · intro s
    rw [Finset.mem_sdiff, h.mem_iff]
    simp only [List.mem_append, List.mem_filter, decide_eq_true_eq, List.mem_toFinset]
    constructor
    · rintro ⟨hs | hs, hout⟩
      · exact .inl ⟨hs, hout⟩
      · exact .inr hs
    · rintro (hs | hs)
      · exact ⟨.inl hs.1, hs.2⟩
      · exact ⟨.inr hs, fun hin => hheld.2.2 s (hsub s hin) s hs rfl⟩

theorem deposit (h : Owns b held) {slots : List ℕ} (hnd : slots.Nodup)
    (hsub : ∀ s ∈ slots, s ∈ held) :
    Owns (b.deposit slots) (held.filter (· ∉ slots)) := by
  unfold Bus.deposit
  split_ifs
  · exact h.defer hnd hsub
  · exact h.remove hsub _

theorem grant (h : Owns b held) {slots : List ℕ} (hnd : slots.Nodup)
    (hout : ∀ s ∈ slots, s ∉ b.busAllocations) :
    Owns (Bus.grant slots b).1 (held ++ (Bus.grant slots b).2.map Prod.snd) := by
  have hfree (s : ℕ) (hs : s ∈ slots) : s ∉ held ++ b.busFreeQueue :=
    fun hin => hout s hs ((h.mem_iff s).mpr hin)
  rw [grant_eq]
  simp only [map_snd_zip]
  have hnd' : ((held ++ b.busFreeQueue) ++ slots.take b.busWaitQueue.length).Nodup := by
    refine List.nodup_append.mpr ⟨h.nodup, hnd.sublist (List.take_sublist ..), ?_⟩
    rintro s hs s' hs' rfl
    exact hfree s (List.mem_of_mem_take hs') hs
  have hperm : ((held ++ b.busFreeQueue) ++ slots.take b.busWaitQueue.length).Perm
      (held ++ slots.take b.busWaitQueue.length ++ b.busFreeQueue) := by
    rw [List.append_assoc, List.append_assoc]
    exact List.perm_append_comm.append_left held
  refine ⟨hperm.nodup_iff.mp hnd', fun s => ?_⟩
  rw [Finset.mem_union, h.mem_iff, List.mem_toFinset, ← List.mem_append]
  exact hperm.mem_iff

theorem drain (h : Owns b held) : Owns b.drain.1 held := by
  have hheld := List.nodup_append.mp h.nodup
  refine ⟨by simpa [Bus.drain] using hheld.1, fun s => ?_⟩
  simp only [Bus.drain, Finset.mem_sdiff, h.mem_iff, List.mem_append, List.mem_toFinset,
    List.append_nil]
  constructor
  · rintro ⟨hs | hs, hout⟩
    · exact hs
    · exact absurd hs hout
  · exact fun hs => ⟨.inl hs, fun hin => hheld.2.2 s hs s hin rfl⟩

end Owns
end Bus
end OCRemote
