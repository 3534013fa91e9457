import OCRemote.Factory.FluidStorage
import OCRemote.Lib.Machine

/-! The fluid storages during one cycle. `n_stored_lo` falls when something is reserved and
`n_stored_hi` rises when a deposit is asked for, while the fluid moves some time later. -/

namespace OCRemote
open Tally

namespace FluidRun

structure World where
  storages : List FluidStorage
  /-- What each storage physically holds, in its tanks together. -/
  phys : ℕ → ℤ
  /-- Reserved, asked of a client, and taken by it, but not completed. -/
  waiting : List (ℕ × ℤ)
  requested : List (ℕ × ℤ)
  taken : List (ℕ × ℤ)
  /-- On the way into a storage, and put there by the client, but not completed. -/
  depositing : List (ℕ × ℤ)
  delivered : List (ℕ × ℤ)
  /-- The calls of `reserve_fluid` and `fluid_deposit` with what they returned. -/
  reservations : List (ℤ × List (ℕ × ℤ))
  deposits : List (String × ℤ × List (Except String (ℕ × ℤ)))
  panicked : Bool

inductive Event where
  | reserve (fluid : String) (qty : ℤ)
  | extract (k : ℕ)
  | take (k : ℕ)
  | complete (k : ℕ)
  | failRequested (k : ℕ)
  | failTaken (k : ℕ)
  | deposit (fluid : String) (qty : ℤ)
  | deliver (k : ℕ)
  | completeDeposit (k : ℕ)
  | failDeposit (k : ℕ)

def accepts (fluid : String) (tank : Tank) : Bool :=
  decide (¬(tank.fluid ≠ none ∧ tank.fluid ≠ some fluid))

/-- What the tanks of a storage hold of its fluid. -/
def held (fluid : String) (tanks : List Tank) : ℤ :=
  ((tanks.filter (accepts fluid)).map Tank.qty).sum

def room (fluid : String) (tanks : List Tank) : ℤ :=
  ((tanks.filter (accepts fluid)).map Tank.capacity).sum

def start (listing : List (String × List Tank)) : World where
  storages := listing.map fun c => (FluidStorage.new c.1).update c.2
  phys i := (listing[i]?).elim 0 fun c => held c.1 c.2
  waiting := []
  requested := []
  taken := []
  depositing := []
  delivered := []
  reservations := []
  deposits := []
  panicked := false

def transfers (tasks : List (Except String (ℕ × ℤ))) : List (ℕ × ℤ) :=
  tasks.filterMap fun
    | .ok f => some f
    | .error _ => none

def enabled (w : World) : Event → Prop
  | .reserve fluid qty => 0 ≤ qty ∧ qty ≤ searchNFluid w.storages fluid
  | .extract k => k < w.waiting.length
  | .take k => k < w.requested.length
  | .complete k => k < w.taken.length
  | .failRequested k => k < w.requested.length
  | .failTaken k => k < w.taken.length
  | .deposit _ qty => 0 ≤ qty
  | .deliver k => k < w.depositing.length
  | .completeDeposit k => k < w.delivered.length
  | .failDeposit k => k < w.depositing.length

instance (w : World) : ∀ e, Decidable (enabled w e)
  | .reserve fluid qty => inferInstanceAs (Decidable (0 ≤ qty ∧ qty ≤ searchNFluid w.storages fluid))
  | .extract k => inferInstanceAs (Decidable (k < w.waiting.length))
  | .take k | .failRequested k => inferInstanceAs (Decidable (k < w.requested.length))
  | .complete k | .failTaken k => inferInstanceAs (Decidable (k < w.taken.length))
  | .deposit _ qty => inferInstanceAs (Decidable (0 ≤ qty))
  | .deliver k | .failDeposit k => inferInstanceAs (Decidable (k < w.depositing.length))
  | .completeDeposit k => inferInstanceAs (Decidable (k < w.delivered.length))

def next (w : World) : Event → World
  | .reserve fluid qty =>
    match reserveFluid w.storages fluid qty with
    | some (storages, ds) =>
      { w with
        storages := storages
        waiting := w.waiting ++ ds
        reservations := w.reservations ++ [(qty, ds)] }
    | none => { w with panicked := true }
  | .extract k =>
    match w.waiting[k]? with
    | some f =>
      -- `storage.slot.unwrap()`
      match (w.storages[f.1]?).bind FluidStorage.slot with
      | some _ => { w with waiting := w.waiting.eraseIdx k, requested := w.requested ++ [f] }
      | none => { w with panicked := true }
    | none => w
  | .take k =>
    match w.requested[k]? with
    | some f =>
      { w with
        phys := Function.update w.phys f.1 (w.phys f.1 - f.2)
        requested := w.requested.eraseIdx k
        taken := w.taken ++ [f] }
    | none => w
  | .complete k =>
    match w.taken[k]? with
    | some f =>
      { w with storages := w.storages.modify f.1 (raiseHi (-f.2)), taken := w.taken.eraseIdx k }
    | none => w
  | .failRequested k => { w with requested := w.requested.eraseIdx k }
  | .failTaken k => { w with taken := w.taken.eraseIdx k }
  | .deposit fluid qty =>
    match fluidDeposit w.storages fluid qty with
    | some (storages, tasks) =>
      { w with
        storages := storages
        depositing := w.depositing ++ transfers tasks
        deposits := w.deposits ++ [(fluid, qty, tasks)] }
    | none => { w with panicked := true }
  | .deliver k =>
    match w.depositing[k]? with
    | some f =>
      { w with
        phys := Function.update w.phys f.1 (w.phys f.1 + f.2)
        depositing := w.depositing.eraseIdx k
        delivered := w.delivered ++ [f] }
    | none => w
  | .completeDeposit k => { w with delivered := w.delivered.eraseIdx k }
  | .failDeposit k => { w with depositing := w.depositing.eraseIdx k }

def machine : Machine World Event := ⟨enabled, next⟩

instance (w : World) (e : Event) : Decidable (machine.enabled w e) :=
  inferInstanceAs (Decidable (enabled w e))

/-! The bounds of one storage, with what is on its way. -/

structure StorageInv (w : World) (i : ℕ) (sto : FluidStorage) : Prop where
  lo_nonneg : 0 ≤ sto.nStoredLo
  lo_le : sto.nStoredLo + sumOf i w.waiting + sumOf i w.requested ≤ w.phys i
  le_hi : w.phys i + sumOf i w.taken + sumOf i w.depositing ≤ sto.nStoredHi
  hi_le : sto.nStoredHi ≤ sto.capacity
  slot : sto.slot = none → sto.capacity = 0

def InFlight (w : World) (ds : List (ℕ × ℤ)) : Prop := ∀ d ∈ ds, 0 < d.2 ∧ d.1 < w.storages.length

structure Inv (w : World) : Prop where
  alive : w.panicked = false
  storage : ∀ (i : ℕ) (sto : FluidStorage), w.storages[i]? = some sto → StorageInv w i sto
  waiting : InFlight w w.waiting
  requested : InFlight w w.requested
  taken : InFlight w w.taken
  depositing : InFlight w w.depositing
  reservations : ∀ r ∈ w.reservations, (r.2.map Prod.snd).sum = r.1 ∧ ∀ d ∈ r.2, 0 < d.2
  deposits : ∀ c ∈ w.deposits, ∃ ds, Placed c.1 c.2.1 c.2.2 ds ∧ ∀ d ∈ ds, 0 < d.2

variable {w : World}

theorem InFlight.nonneg {ds : List (ℕ × ℤ)} (h : InFlight w ds) (i : ℕ) : 0 ≤ sumOf i ds :=
  sumOf_nonneg (fun d hd => (h d hd).1.le) i

theorem InFlight.erase {ds : List (ℕ × ℤ)} (h : InFlight w ds) (k : ℕ) :
    InFlight w (ds.eraseIdx k) :=
  fun d hd => h d (List.mem_of_mem_eraseIdx hd)

theorem InFlight.append {ds ds' : List (ℕ × ℤ)} (h : InFlight w ds) (h' : InFlight w ds') :
    InFlight w (ds ++ ds') :=
  fun d hd => (List.mem_append.mp hd).elim (h d) (h' d)

theorem InFlight.of_mem {ds : List (ℕ × ℤ)} (h : InFlight w ds) {f : ℕ × ℤ} (hf : f ∈ ds) :
    InFlight w [f] :=
  fun _ hd => List.mem_singleton.mp hd ▸ h f hf

/-- What is in flight stays in flight when the storages keep their places. -/
theorem InFlight.of_length {w' : World} (hlen : w'.storages.length = w.storages.length)
    {ds : List (ℕ × ℤ)}
    (h : InFlight w ds) : InFlight w' ds := fun d hd => ⟨(h d hd).1, hlen ▸ (h d hd).2⟩

theorem transfers_of_placed {fluid : String} {qty : ℤ} {tasks : List (Except String (ℕ × ℤ))}
    {ds : List (ℕ × ℤ)}
    (h : Placed fluid qty tasks ds) : transfers tasks = ds := by
  have hok : transfers (ds.map .ok) = ds := by
    unfold transfers
    rw [List.filterMap_map]
    exact List.filterMap_some
  rcases h with ⟨rfl, -⟩ | ⟨rfl, -⟩
  · exact hok
  · unfold transfers at hok ⊢
    rw [List.filterMap_append, hok]
    simp

theorem Inv.nonneg (h : Inv w) (i : ℕ) : 0 ≤ sumOf i w.waiting ∧ 0 ≤ sumOf i w.requested ∧
    0 ≤ sumOf i w.taken ∧ 0 ≤ sumOf i w.depositing :=
  ⟨h.waiting.nonneg i, h.requested.nonneg i, h.taken.nonneg i, h.depositing.nonneg i⟩

theorem Inv.reserve (h : Inv w) {fluid : String} {qty : ℤ} (he : enabled w (.reserve fluid qty)) :
    Inv (next w (.reserve fluid qty)) := by
  have hlo : ∀ sto ∈ w.storages, 0 ≤ sto.nStoredLo := by
    intro sto hsto
    obtain ⟨i, hi⟩ := List.mem_iff_getElem?.mp hsto
    exact (h.storage i sto hi).lo_nonneg
  obtain ⟨storages, ds, hrun, hds, hsum, hlo', hlen, hmoved⟩ := reserveFluid_spec he.1 he.2 hlo
  simp only [next, hrun]
  refine ⟨h.alive, fun i sto' hs => ?_, ?_, h.requested.of_length hlen, h.taken.of_length hlen,
    h.depositing.of_length hlen, ?_, h.deposits⟩
  · obtain ⟨sto, hsto, hmv⟩ := hmoved i sto' hs
    obtain ⟨-, hle, hhi, hcap, hslot⟩ := h.storage i sto hsto
    have hlo₁ := hlo' sto' (List.mem_of_getElem? hs)
    unfold Moved at hmv
    subst hmv
    simp only [sumOf_nil, add_zero] at hlo₁ ⊢
    refine ⟨hlo₁, ?_, hhi, hcap, hslot⟩
    simp only [sumOf_append]
    omega
  · intro d hd
    rcases List.mem_append.mp hd with hd | hd
    · exact ⟨(h.waiting d hd).1, hlen ▸ (h.waiting d hd).2⟩
    · exact ⟨(hds d hd).1, hlen ▸ (hds d hd).2⟩
  · intro r hr
    rcases List.mem_append.mp hr with hr | hr
    · exact h.reservations r hr
    · obtain rfl := List.mem_singleton.mp hr
      exact ⟨hsum, fun d hd => (hds d hd).1⟩

theorem Inv.extract (h : Inv w) (k : ℕ) : Inv (next w (.extract k)) := by
  simp only [next]
  cases hk : w.waiting[k]? with
  | none => exact h
  | some f =>
    have hf : f ∈ w.waiting := List.mem_of_getElem? hk
    obtain ⟨hpos, hlt⟩ := h.waiting f hf
    have hsto : w.storages[f.1]? = some w.storages[f.1] := List.getElem?_eq_getElem hlt
    obtain ⟨hlo, hle, hhi, hcap, hslot⟩ := h.storage f.1 _ hsto
    -- a storage without a slot has no capacity, so nothing can wait for it
    cases hs : w.storages[f.1].slot with
    | none =>
      have hmem := le_sumOf (fun d hd => (h.waiting d hd).1.le) hf
      have hn := h.nonneg f.1
      have hzero := hslot hs
      omega
    | some slot =>
      simp only [hsto, Option.bind_some, hs]
      refine { h with
        storage := fun i sto hi => { h.storage i sto hi with lo_le := ?_ }
        waiting := h.waiting.erase k
        requested := h.requested.append (h.waiting.of_mem hf) }
      have hb := (h.storage i sto hi).lo_le
      have hsum := sumOf_eraseIdx hk i
      simp only [sumOf_append, sumOf_cons, sumOf_nil]
      omega

theorem Inv.take (h : Inv w) (k : ℕ) : Inv (next w (.take k)) := by
  simp only [next]
  cases hk : w.requested[k]? with
  | none => exact h
  | some f =>
    have hf : f ∈ w.requested := List.mem_of_getElem? hk
    refine { h with
      storage := fun i sto hi => ?_
      requested := h.requested.erase k
      taken := h.taken.append (h.requested.of_mem hf) }
    obtain ⟨hlo, hle, hhi, hcap, hslot⟩ := h.storage i sto hi
    have hsum := sumOf_eraseIdx hk i
    refine ⟨hlo, ?_, ?_, hcap, hslot⟩
    · simp only [Function.update_apply]
      split_ifs at hsum ⊢ <;> grind
    · simp only [Function.update_apply, sumOf_append, sumOf_cons, sumOf_nil]
      split_ifs at hsum ⊢ <;> grind

theorem Inv.complete (h : Inv w) (k : ℕ) : Inv (next w (.complete k)) := by
  simp only [next]
  cases hk : w.taken[k]? with
  | none => exact h
  | some f =>
    have hf : f ∈ w.taken := List.mem_of_getElem? hk
    have hlen : (w.storages.modify f.1 (raiseHi (-f.2))).length = w.storages.length := by simp
    refine ⟨h.alive, fun i sto' hi => ?_, h.waiting.of_length hlen, h.requested.of_length hlen,
      (h.taken.erase k).of_length hlen, h.depositing.of_length hlen, h.reservations, h.deposits⟩
    obtain ⟨sto, hsto, rfl⟩ := getElem?_modify_some hi
    obtain ⟨hlo, hle, hhi, hcap, hslot⟩ := h.storage i sto hsto
    have hpos := (h.taken f hf).1
    have hsum := sumOf_eraseIdx hk i
    split_ifs at hsum ⊢
    · exact ⟨hlo, hle, by simp only [raiseHi]; omega, by simp only [raiseHi]; omega, hslot⟩
    · exact ⟨hlo, hle, by simp only; omega, hcap, hslot⟩

theorem sumOf_erase_le {ds : List (ℕ × ℤ)} (h : InFlight w ds) (k i : ℕ) :
    sumOf i (ds.eraseIdx k) ≤ sumOf i ds := by
  cases hk : ds[k]? with
  | none => rw [List.eraseIdx_of_length_le (by simpa using hk)]
  | some f =>
    have hpos := (h f (List.mem_of_getElem? hk)).1
    have hsum := sumOf_eraseIdx hk i
    split_ifs at hsum <;> omega

theorem Inv.deposit (h : Inv w) {fluid : String} {qty : ℤ} (h0 : 0 ≤ qty) :
    Inv (next w (.deposit fluid qty)) := by
  have hfits : Fits w.storages := by
    intro sto hsto
    obtain ⟨i, hi⟩ := List.mem_iff_getElem?.mp hsto
    exact (h.storage i sto hi).hi_le
  obtain ⟨storages, tasks, ds, hrun, hplaced, hds, hkeeps, hlen, hmoved⟩ :=
    @fluidDeposit_spec w.storages fluid qty h0
  simp only [next, hrun, transfers_of_placed hplaced]
  refine ⟨h.alive, fun i sto' hs => ?_, h.waiting.of_length hlen, h.requested.of_length hlen,
    h.taken.of_length hlen, ?_, h.reservations, ?_⟩
  · obtain ⟨sto, hsto, hmv⟩ := hmoved i sto' hs
    obtain ⟨hlo, hle, hhi, -, hslot⟩ := h.storage i sto hsto
    have hcap := hkeeps hfits sto' (List.mem_of_getElem? hs)
    unfold Moved at hmv
    subst hmv
    simp only [sumOf_nil, sub_zero] at hcap ⊢
    refine ⟨hlo, hle, ?_, hcap, hslot⟩
    simp only [sumOf_append]
    omega
  · intro d hd
    rcases List.mem_append.mp hd with hd | hd
    · exact ⟨(h.depositing d hd).1, hlen ▸ (h.depositing d hd).2⟩
    · exact ⟨(hds d hd).1, hlen ▸ (hds d hd).2⟩
  · intro c hc
    rcases List.mem_append.mp hc with hc | hc
    · exact h.deposits c hc
    · obtain rfl := List.mem_singleton.mp hc
      exact ⟨ds, hplaced, fun d hd => (hds d hd).1⟩

theorem Inv.deliver (h : Inv w) (k : ℕ) : Inv (next w (.deliver k)) := by
  simp only [next]
  cases hk : w.depositing[k]? with
  | none => exact h
  | some f =>
    have hf : f ∈ w.depositing := List.mem_of_getElem? hk
    have hpos := (h.depositing f hf).1
    refine { h with
      storage := fun i sto hi => ?_
      depositing := h.depositing.erase k }
    obtain ⟨hlo, hle, hhi, hcap, hslot⟩ := h.storage i sto hi
    have hsum := sumOf_eraseIdx hk i
    refine ⟨hlo, ?_, ?_, hcap, hslot⟩
    · simp only [Function.update_apply]
      split_ifs <;> grind
    · simp only [Function.update_apply]
      split_ifs at hsum ⊢ <;> grind

theorem Inv.step (h : Inv w) {e : Event} (he : enabled w e) : Inv (next w e) := by
  cases e with
  | reserve fluid qty => exact h.reserve he
  | extract k => exact h.extract k
  | take k => exact h.take k
  | complete k => exact h.complete k
  | failRequested k =>
    refine { h with
      storage := fun i sto hi => { h.storage i sto hi with lo_le := ?_ }
      requested := h.requested.erase k }
    have hle := (h.storage i sto hi).lo_le
    have herase := sumOf_erase_le h.requested k i
    simp only [next]
    omega
  | failTaken k =>
    refine { h with
      storage := fun i sto hi => { h.storage i sto hi with le_hi := ?_ }
      taken := h.taken.erase k }
    have hle := (h.storage i sto hi).le_hi
    have herase := sumOf_erase_le h.taken k i
    simp only [next]
    omega
  | deposit fluid qty => exact h.deposit he
  | deliver k => exact h.deliver k
  | completeDeposit k => exact { h with storage := fun i sto hi => { h.storage i sto hi with } }
  | failDeposit k =>
    refine { h with
      storage := fun i sto hi => { h.storage i sto hi with le_hi := ?_ }
      depositing := h.depositing.erase k }
    have hle := (h.storage i sto hi).le_hi
    have herase := sumOf_erase_le h.depositing k i
    simp only [next]
    omega

theorem addTanks_spec (i : ℕ) (tanks : List Tank) (sto : FluidStorage) :
    (sto.addTanks i tanks).capacity = sto.capacity + room sto.fluid tanks ∧
    (sto.addTanks i tanks).nStoredHi = sto.nStoredHi + held sto.fluid tanks ∧
    (sto.addTanks i tanks).nStoredLo = sto.nStoredLo + held sto.fluid tanks ∧
    ((sto.addTanks i tanks).slot = none → sto.slot = none ∧ room sto.fluid tanks = 0) := by
  induction tanks generalizing i sto with
  | nil => simp [FluidStorage.addTanks, held, room]
  | cons tank tanks ih =>
    unfold FluidStorage.addTanks
    by_cases hc : tank.fluid ≠ none ∧ tank.fluid ≠ some sto.fluid
    · have hout : ¬accepts sto.fluid tank = true := by
        unfold accepts
        rw [decide_eq_true_eq]
        exact not_not_intro hc
      rw [if_pos hc]
      simp only [held, room, List.filter_cons_of_neg hout]
      exact ih (i + 1) sto
    · have hin : accepts sto.fluid tank = true := decide_eq_true hc
      rw [if_neg hc]
      obtain ⟨hcap, hhi, hlo, hslot⟩ := ih (i + 1)
        { sto with
          slot := some i
          capacity := sto.capacity + tank.capacity
          nStoredHi := sto.nStoredHi + tank.qty
          nStoredLo := sto.nStoredLo + tank.qty }
      simp only [held, room, List.filter_cons_of_pos hin, List.map_cons,
        List.sum_cons] at hcap hhi hlo ⊢
      refine ⟨by omega, by omega, by omega, fun hnone => ?_⟩
      obtain ⟨habs, -⟩ := hslot hnone
      simp at habs

theorem update_spec (fluid : String) (tanks : List Tank) :
    ((FluidStorage.new fluid).update tanks).capacity = room fluid tanks ∧
    ((FluidStorage.new fluid).update tanks).nStoredHi = held fluid tanks ∧
    ((FluidStorage.new fluid).update tanks).nStoredLo = held fluid tanks ∧
    (((FluidStorage.new fluid).update tanks).slot = none → room fluid tanks = 0) := by
  have h := addTanks_spec 0 tanks (FluidStorage.new fluid)
  simpa [FluidStorage.new, FluidStorage.update] using h

theorem start_inv {listing : List (String × List Tank)}
    (hlist : ∀ c ∈ listing, ∀ tank ∈ c.2, 0 ≤ tank.qty ∧ tank.qty ≤ tank.capacity) :
    Inv (start listing) := by
  refine ⟨rfl, fun i sto hi => ?_, ?_, ?_, ?_, ?_, ?_, ?_⟩
  · obtain ⟨c, hc, hsto⟩ : ∃ c, listing[i]? = some c ∧ (FluidStorage.new c.1).update c.2 = sto := by
      simpa [start] using hi
    obtain ⟨hcap, hhi, hlo, hslot⟩ := update_spec c.1 c.2
    rw [hsto] at hcap hhi hlo hslot
    have htank := hlist c (List.mem_of_getElem? hc)
    have hheld : 0 ≤ held c.1 c.2 := by
      apply List.sum_nonneg
      intro a ha
      obtain ⟨tank, ht, rfl⟩ := List.mem_map.mp ha
      exact (htank tank (List.mem_filter.mp ht).1).1
    have hroom : held c.1 c.2 ≤ room c.1 c.2 :=
      List.sum_le_sum fun tank ht => (htank tank (List.mem_filter.mp ht).1).2
    have hphys : (start listing).phys i = held c.1 c.2 := by simp [start, hc]
    have hnone : sumOf i (start listing).waiting = 0 ∧ sumOf i (start listing).requested = 0 ∧
      sumOf i (start listing).taken = 0 ∧ sumOf i (start listing).depositing = 0 := ⟨rfl, rfl, rfl, rfl⟩
    exact ⟨by omega, by omega, by omega, by omega, fun hs => hcap.trans (hslot hs)⟩
  all_goals simp [start, InFlight]

/-- What the server can rely on in the fluid storages. -/
structure Bounds (w : World) : Prop where
  /-- No `unwrap` failed and no loop went on. -/
  alive : w.panicked = false
  bounds : ∀ (i : ℕ) (sto : FluidStorage), w.storages[i]? = some sto →
    0 ≤ sto.nStoredLo ∧ sto.nStoredLo ≤ w.phys i ∧
      w.phys i ≤ sto.nStoredHi ∧ sto.nStoredHi ≤ sto.capacity
  reservations : ∀ r ∈ w.reservations, (r.2.map Prod.snd).sum = r.1 ∧ ∀ d ∈ r.2, 0 < d.2
  /-- What was reserved and not taken yet is there, in a storage that exists. -/
  present : ∀ d ∈ w.waiting ++ w.requested, d.1 < w.storages.length ∧ d.2 ≤ w.phys d.1
  /-- What is on the way into a storage fits. -/
  fits : ∀ d ∈ w.depositing, ∃ sto, w.storages[d.1]? = some sto ∧ w.phys d.1 + d.2 ≤ sto.capacity
  /-- A deposit placed exactly what it was given, or less and said that the fluid is full. -/
  deposits : ∀ c ∈ w.deposits, ∃ ds, Placed c.1 c.2.1 c.2.2 ds ∧ ∀ d ∈ ds, 0 < d.2

theorem Inv.bounds (h : Inv w) : Bounds w := by
  refine ⟨h.alive, fun i sto hs => ?_, h.reservations, ?_, ?_, h.deposits⟩
  · obtain ⟨hlo, hle, hhi, hcap, -⟩ := h.storage i sto hs
    have hn := h.nonneg i
    exact ⟨hlo, by omega, by omega, hcap⟩
  · intro d hd
    have hflight := h.waiting.append h.requested
    obtain ⟨hpos, hlt⟩ := hflight d hd
    obtain ⟨hlo, hle, -⟩ := h.storage d.1 _ (List.getElem?_eq_getElem hlt)
    have hmem := le_sumOf (fun d' hd' => (hflight d' hd').1.le) hd
    rw [sumOf_append] at hmem
    exact ⟨hlt, by omega⟩
  · intro d hd
    have hsto := List.getElem?_eq_getElem (h.depositing d hd).2
    obtain ⟨-, -, hhi, hcap, -⟩ := h.storage d.1 _ hsto
    have hmem := le_sumOf (fun d' hd' => (h.depositing d' hd').1.le) hd
    have hn := h.nonneg d.1
    exact ⟨_, hsto, by omega⟩

/-- Whatever the order of reservations, extractions and deposits, each storage holds at least
`n_stored_lo` and at most `n_stored_hi`, which never leave the range from nothing to the capacity. -/
theorem bounds_hold (listing : List (String × List Tank))
    (hlist : ∀ c ∈ listing, ∀ tank ∈ c.2, 0 ≤ tank.qty ∧ tank.qty ≤ tank.capacity) (es : List Event)
    (hv : machine.Valid (start listing) es) : Bounds (machine.exec (start listing) es) :=
  (machine.invariant (fun _ _ hI he => hI.step he) (start_inv hlist) hv).bounds

def waterListing : List (String × List Tank) :=
  [("water", [⟨10, 6, some "water"⟩, ⟨10, 3, some "lava"⟩]),
   ("water", [⟨10, 0, none⟩, ⟨5, 4, some "water"⟩])]

/-- Seven units are reserved from both storages, more comes in than there is room for, and one of
the extractions fails. -/
def busyTanks : List Event :=
  [.reserve "water" 7, .extract 0, .deposit "water" 30, .take 0, .extract 0,
    .failRequested 0, .deliver 1, .complete 0, .deposit "water" 3]

theorem bounds_hold_busyTanks :
    let w := machine.exec (start waterListing) busyTanks
    w.storages.map FluidStorage.nStoredLo = [3, 0] ∧
      w.storages.map FluidStorage.nStoredHi = [10, 14] ∧ Bounds w :=
  ⟨by decide, by decide, bounds_hold waterListing (by decide) busyTanks (by decide)⟩

end FluidRun
end OCRemote
