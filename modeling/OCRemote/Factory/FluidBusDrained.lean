import OCRemote.Factory.FluidBusProgress
import OCRemote.Factory.FluidMap

/-! What `fluid_bus_update` asks of the tanks of a bus that nobody uses. All of a fluid is asked of
the first tank that holds it, so the bus is drained exactly when no fluid is in two of its tanks. -/

namespace OCRemote
open Tally FirstBest

/-! Storages with room take all of a fluid. -/

/-- How much more of a fluid the storages can hold. One that is too full has no room. -/
def fluidRoom (storages : List FluidStorage) (fluid : String) : ℤ :=
  (storages.map fun sto =>
    if sto.fluid = fluid then max 0 (sto.capacity - sto.nStoredHi) else 0).sum

theorem fluidRoom_modify {storages : List FluidStorage} {i : ℕ} {sto : FluidStorage}
    (h : storages[i]? = some sto) {n : ℤ} (h0 : 0 ≤ n) (hn : n ≤ sto.capacity - sto.nStoredHi)
    (fluid : String) :
    fluidRoom (storages.modify i (raiseHi n)) fluid =
      fluidRoom storages fluid - if sto.fluid = fluid then n else 0 := by
  obtain ⟨l₁, l₂, hl, -, hm⟩ := List.exists_cut h
  rw [hm, hl]
  simp only [fluidRoom, List.map_append, List.map_cons, List.sum_append, List.sum_cons, raiseHi]
  split_ifs <;> omega

theorem fluidRoom_nonpos {storages : List FluidStorage} {fluid : String}
    (h : ∀ sto ∈ storages, ¬(sto.fluid = fluid ∧ sto.nStoredHi < sto.capacity)) :
    fluidRoom storages fluid ≤ 0 := by
  induction storages with
  | nil => exact le_rfl
  | cons sto storages ih =>
    obtain ⟨hsto, hrest⟩ := List.forall_mem_cons.mp h
    have hsum := ih hrest
    unfold fluidRoom at hsum ⊢
    rw [List.map_cons, List.sum_cons]
    split_ifs with hf
    · have hfull := not_and.mp hsto hf
      omega
    · omega

/-- The room of the storages after so much of each fluid came in. -/
def RoomLess (storages storages' : List FluidStorage) (placed : List (String × ℤ)) : Prop :=
  ∀ fluid, fluidRoom storages' fluid = fluidRoom storages fluid - sumOf fluid placed

theorem fluidDepositLoop_room {fluid : String} {fuel : ℕ} {storages : List FluidStorage} {qty : ℤ}
    (tasks : List (Except String (ℕ × ℤ))) (h0 : 0 ≤ qty) (hfuel : qty < fuel)
    (hroom : qty ≤ fluidRoom storages fluid) :
    ∃ (storages' : List FluidStorage) (ds : List (ℕ × ℤ)),
      fluidDepositLoop fluid fuel storages qty tasks = some (storages', tasks ++ ds.map .ok) ∧
      (∀ d ∈ ds, 0 < d.2) ∧ (ds.map Prod.snd).sum = qty ∧
      RoomLess storages storages' [(fluid, qty)] := by
  induction fuel generalizing storages qty tasks with
  | zero =>
    simp at hfuel
    omega
  | succ fuel ih =>
    rcases fluidDepositLoop_cases fluid fuel storages qty tasks with ⟨hq, hturn⟩ | ⟨hq, hfull, -⟩ |
      ⟨hq, i, sto, n, hsto, rfl, hlt, hn, hturn⟩
    · obtain rfl : qty = 0 := by omega
      exact ⟨storages, [], by simpa using hturn, by simp, rfl, fun fluid => by simp⟩
    · have hnone := fluidRoom_nonpos hfull
      omega
    · have hless := fluidRoom_modify hsto (n := n) (by omega) (by omega)
      have hself := hless sto.fluid
      rw [if_pos rfl] at hself
      obtain ⟨storages', ds, hrun, hpos, hsum, hroom'⟩ := @ih (storages.modify i (raiseHi n))
        (qty - n) (tasks ++ [.ok (i, n)]) (by omega) (by push_cast at hfuel; omega) (by omega)
      refine ⟨storages', (i, n) :: ds, ?_, ?_, ?_, fun fluid => ?_⟩
      · rw [hturn, hrun, List.append_assoc, List.map_cons, List.singleton_append]
      · exact List.forall_mem_cons.mpr ⟨by simp only; omega, hpos⟩
      · rw [List.map_cons, List.sum_cons, hsum]
        omega
      · rw [hroom' fluid, hless fluid]
        simp only [sumOf_cons, sumOf_nil]
        split_ifs <;> omega

/-- Where there is room for it, all of an amount is placed. -/
theorem fluidDeposit_room {fluid : String} {storages : List FluidStorage} {qty : ℤ} (h0 : 0 ≤ qty)
    (hroom : qty ≤ fluidRoom storages fluid) :
    ∃ (storages' : List FluidStorage)
    (ds : List (ℕ × ℤ)), fluidDeposit storages fluid qty = some (storages', ds.map .ok) ∧
      (∀ d ∈ ds, 0 < d.2) ∧ (ds.map Prod.snd).sum = qty ∧
      RoomLess storages storages' [(fluid, qty)] :=
  fluidDepositLoop_room [] h0 (by push_cast; omega) hroom

namespace FluidBus

/-- What some transfers ask of a slot. -/
def asked (ts : List Transfer) (slot : ℕ) : ℤ := sumOf slot (ts.map fun t => (t.slot, t.nDeposited))

@[simp] theorem asked_append (ts ts' : List Transfer) (slot : ℕ) :
    asked (ts ++ ts') slot = asked ts slot + asked ts' slot := by simp [asked]

/-- The transfers of one slot. -/
def ofSlot (bus slot : ℕ) (ds : List (ℕ × ℤ)) : List Transfer :=
  ds.map fun d => ⟨bus, slot, d.1, d.2⟩

theorem asked_ofSlot (bus slot : ℕ) (ds : List (ℕ × ℤ)) (slot' : ℕ) :
    asked (ofSlot bus slot ds) slot' = if slot = slot' then (ds.map Prod.snd).sum else 0 := by
  induction ds with
  | nil => simp [asked, ofSlot]
  | cons d ds ih =>
    have hcons : asked (ofSlot bus slot (d :: ds)) slot' =
        (if slot = slot' then d.2 else 0) + asked (ofSlot bus slot ds) slot' := sumOf_cons ..
    rw [hcons, ih, List.map_cons, List.sum_cons]
    split_ifs <;> simp

/-- What is to be placed from a bus, by fluid and by slot. -/
def byFluid (fluids : List (String × ℕ × ℤ)) : List (String × ℤ) := fluids.map fun e => (e.1, e.2.2)

def bySlot (fluids : List (String × ℕ × ℤ)) : List (ℕ × ℤ) := fluids.map Prod.snd

theorem depositFluids_asked (bus : ℕ) {fluids : List (String × ℕ × ℤ)}
    (hpos : ∀ e ∈ fluids, 0 < e.2.2) {storages : List FluidStorage}
    (hroom : ∀ fluid, sumOf fluid (byFluid fluids) ≤ fluidRoom storages fluid)
    (tasks : List (Except String Transfer)) :
    ∃ (storages' : List FluidStorage)
    (ts : List Transfer), depositFluids bus fluids storages tasks =
        some (storages', tasks ++ ts.map .ok) ∧ (∀ t ∈ ts, 0 < t.nDeposited ∧ t.bus = bus) ∧
      (∀ slot, asked ts slot = sumOf slot (bySlot fluids)) ∧
      RoomLess storages storages' (byFluid fluids) := by
  induction fluids generalizing storages tasks with
  | nil =>
    exact ⟨storages, [], by simp [depositFluids], by simp, fun _ => rfl,
      fun fluid => by simp [byFluid]⟩
  | cons e fluids ih =>
    obtain ⟨fluid, slot, qty⟩ := e
    obtain ⟨hqty, hrest⟩ := List.forall_mem_cons.mp hpos
    have hqty : 0 < qty := hqty
    have hrest0 (fluid' : String) : 0 ≤ sumOf fluid' (byFluid fluids) := by
      refine sumOf_nonneg (fun d hd => ?_) fluid'
      obtain ⟨e, he, rfl⟩ := List.mem_map.mp hd
      exact (hrest e he).le
    have hcons (fluid' : String) : sumOf fluid' (byFluid ((fluid, slot, qty) :: fluids)) =
        (if fluid = fluid' then qty else 0) + sumOf fluid' (byFluid fluids) := sumOf_cons ..
    have hfirst : qty ≤ fluidRoom storages fluid := by
      have hall := hroom fluid
      have hnonneg := hrest0 fluid
      rw [hcons, if_pos rfl] at hall
      omega
    obtain ⟨storages₁, ds, hrun, hds, hsum, hless⟩ := fluidDeposit_room hqty.le hfirst
    obtain ⟨storages₂, ts, hloop, hts, hasked, hless'⟩ := @ih hrest storages₁ (fun fluid' => by
        have hall := hroom fluid'
        have hone := hless fluid'
        rw [hcons] at hall
        simp only [sumOf_cons, sumOf_nil] at hone
        omega) (tasks ++ (ofSlot bus slot ds).map .ok)
    refine ⟨storages₂, ofSlot bus slot ds ++ ts, ?_, ?_, fun slot' => ?_, fun fluid' => ?_⟩
    · simp only [depositFluids, hrun]
      rw [List.map_append, ← List.append_assoc, ← hloop]
      simp [ofSlot, Function.comp_def, Except.map]
    · intro t ht
      rcases List.mem_append.mp ht with ht | ht
      · obtain ⟨d, hd, rfl⟩ := List.mem_map.mp ht
        exact ⟨hds d hd, rfl⟩
      · exact hts t ht
    · have hcons' : sumOf slot' (bySlot ((fluid, slot, qty) :: fluids)) =
          (if slot = slot' then qty else 0) + sumOf slot' (bySlot fluids) := sumOf_cons ..
      rw [asked_append, asked_ofSlot, hasked, hsum, hcons']
    · rw [hless' fluid', hless fluid', hcons]
      simp only [sumOf_cons, sumOf_nil]
      omega

/-- How much of a fluid is to be placed from the buses that nobody uses. -/
def toPlace (allocations : Finset ℕ) : ℕ → List Listed → String → ℤ
  | _, [], _ => 0
  | i, listed :: buses, fluid =>
    (if i ∈ allocations then 0 else fluidAmount listed.tanks fluid) +
      toPlace allocations (i + 1) buses fluid

def ofBus (bus : ℕ) (ts : List Transfer) : List Transfer := ts.filter fun t => t.bus = bus

theorem sumOf_byFluid (listed : Listed) (fluid : String) :
    sumOf fluid (byFluid listed.fluids) = fluidAmount listed.tanks fluid :=
  (sumOf_perm (listed.perm.map _) fluid).trans (sumOf_fluid_tanksToFluidMap listed.tanks fluid)

theorem fluidAmount_nonneg (listed : Listed) (fluid : String) :
    0 ≤ fluidAmount listed.tanks fluid := by
  rw [← sumOf_byFluid]
  refine sumOf_nonneg (fun d hd => ?_) fluid
  obtain ⟨e, he, rfl⟩ := List.mem_map.mp hd
  exact (listed.pos e he).le

theorem toPlace_nonneg (allocations : Finset ℕ) (i : ℕ) (buses : List Listed) (fluid : String) :
    0 ≤ toPlace allocations i buses fluid := by
  induction buses generalizing i with
  | nil => exact le_rfl
  | cons listed buses ih =>
    have hlisted := fluidAmount_nonneg listed fluid
    have hrest := ih (i + 1)
    unfold toPlace
    split_ifs <;> omega

theorem ofBus_eq_self {bus : ℕ} {ts : List Transfer} (h : ∀ t ∈ ts, t.bus = bus) :
    ofBus bus ts = ts := List.filter_eq_self.mpr fun t ht => decide_eq_true (h t ht)

theorem ofBus_eq_nil {bus : ℕ} {ts : List Transfer} (h : ∀ t ∈ ts, t.bus ≠ bus) :
    ofBus bus ts = [] :=
  List.filter_eq_nil_iff.mpr fun t ht heq => h t ht (of_decide_eq_true heq)

/-- What the loop over the buses did from the bus `i` on, without errors. -/
structure Asks (allocations : Finset ℕ) (i : ℕ) (buses : List Listed) (s s' : Sweep)
    (ts : List Transfer) : Prop where
  tasks : s'.tasks = s.tasks ++ ts.map .ok
  positive : ∀ t ∈ ts, i ≤ t.bus ∧ 0 < t.nDeposited
  asked : ∀ j listed, buses[j]? = some listed → i + j ∉ allocations →
    ∀ slot, FluidBus.asked (ofBus (i + j) ts) slot = sumOf slot (bySlot listed.fluids)
  emptied : ∀ bus ∈ s'.emptyBusesAfterDeposit, bus ∈ s.emptyBusesAfterDeposit ∨
    i ≤ bus ∧ bus < i + buses.length ∧ bus ∉ allocations

/-- One more bus, from which some transfers are started first. -/
theorem Asks.cons {allocations : Finset ℕ} {i : ℕ} {listed : Listed} {buses : List Listed}
    {s between s' : Sweep} {first ts : List Transfer}
    (h : Asks allocations (i + 1) buses between s' ts)
    (htasks : between.tasks = s.tasks ++ first.map .ok)
    (hfirst : ∀ t ∈ first, 0 < t.nDeposited ∧ t.bus = i)
    (hasked : i ∉ allocations →
      ∀ slot, FluidBus.asked first slot = sumOf slot (bySlot listed.fluids))
    (hemptied : ∀ bus ∈ between.emptyBusesAfterDeposit, bus ∈ s.emptyBusesAfterDeposit ∨
      bus = i ∧ i ∉ allocations) :
    Asks allocations i (listed :: buses) s s' (first ++ ts) := by
  refine ⟨?_, fun t ht => ?_, fun j other hother hnot slot => ?_, fun bus hbus => ?_⟩
  · rw [h.tasks, htasks, List.append_assoc, List.map_append]
  · rcases List.mem_append.mp ht with ht | ht
    · obtain ⟨hpos, hbus⟩ := hfirst t ht
      exact ⟨hbus.ge, hpos⟩
    · obtain ⟨hle, hpos⟩ := h.positive t ht
      exact ⟨by omega, hpos⟩
  · have hsplit : ofBus (i + j) (first ++ ts) = ofBus (i + j) first ++ ofBus (i + j) ts :=
      List.filter_append ..
    rw [hsplit]
    cases j with
    | zero =>
      obtain rfl : listed = other := by simpa using hother
      rw [add_zero] at hnot ⊢
      rw [ofBus_eq_self fun t ht => (hfirst t ht).2, ofBus_eq_nil fun t ht => ?_, List.append_nil]
      · exact hasked hnot slot
      · have := (h.positive t ht).1
        omega
    | succ j =>
      have hshift : i + (j + 1) = i + 1 + j := by omega
      rw [hshift] at hnot ⊢
      rw [ofBus_eq_nil fun t ht => ?_, List.nil_append]
      · exact h.asked j other (by simpa using hother) hnot slot
      · have := (hfirst t ht).2
        omega
  · rw [List.length_cons]
    rcases h.emptied bus hbus with hmem | ⟨hle, hlt, hnot⟩
    · rcases hemptied bus hmem with hmem | ⟨rfl, hnot⟩
      · exact .inl hmem
      · exact .inr ⟨le_rfl, by omega, hnot⟩
    · exact .inr ⟨by omega, by omega, hnot⟩

theorem sweepBuses_asks (allocations : Finset ℕ) (i : ℕ) {buses : List Listed} {s : Sweep}
    (hroom : ∀ fluid, toPlace allocations i buses fluid ≤ fluidRoom s.storages fluid) :
    ∃ s' ts, sweepBuses allocations i buses s = some s' ∧ Asks allocations i buses s s' ts := by
  induction buses generalizing i s with
  | nil => exact ⟨s, [], rfl, by simp, by simp, by simp, fun bus hbus => .inl hbus⟩
  | cons listed buses ih =>
    unfold toPlace at hroom
    unfold sweepBuses
    split_ifs with hin hempty
    · obtain ⟨s', ts, hrun, hasks⟩ := @ih (i + 1) s fun fluid => by
        simpa [hin] using hroom fluid
      exact ⟨s', [] ++ ts, hrun, hasks.cons (by simp) (by simp) (fun hnot => absurd hin hnot)
        fun bus hbus => .inl hbus⟩
    · have hnil : listed.fluids = [] := List.isEmpty_iff.mp hempty
      obtain ⟨s', ts, hrun, hasks⟩ := @ih (i + 1)
        { s with emptyBuses := s.emptyBuses ++ [i] } fun fluid => by
          have hnonneg := fluidAmount_nonneg listed fluid
          have hall := hroom fluid
          rw [if_neg hin] at hall
          simp only
          omega
      refine ⟨s', [] ++ ts, hrun, hasks.cons (by simp) (by simp) (fun _ slot => ?_)
        fun bus hbus => .inl hbus⟩
      rw [hnil]
      rfl
    · have hfits (fluid : String) :
          sumOf fluid (byFluid listed.fluids) ≤ fluidRoom s.storages fluid := by
        have hall := hroom fluid
        have hrest := toPlace_nonneg allocations (i + 1) buses fluid
        rw [if_neg hin] at hall
        rw [sumOf_byFluid]
        omega
      obtain ⟨storages, first, hdeposit, hfirst, hasked, hless⟩ :=
        depositFluids_asked i listed.pos hfits s.tasks
      rw [hdeposit]
      obtain ⟨s', ts, hrun, hasks⟩ := @ih (i + 1)
        { s with
          storages := storages
          tasks := s.tasks ++ first.map .ok
          emptyBusesAfterDeposit := s.emptyBusesAfterDeposit ++ [i] } fun fluid => by
          have hall := hroom fluid
          have hone := hless fluid
          rw [if_neg hin] at hall
          rw [sumOf_byFluid] at hone
          simp only
          omega
      refine ⟨s', first ++ ts, hrun, hasks.cons rfl hfirst (fun _ => hasked) fun bus hbus => ?_⟩
      rcases List.mem_append.mp hbus with hbus | hbus
      · exact .inl hbus
      · exact .inr ⟨List.mem_singleton.mp hbus, hin⟩

/-! What the transfers do to the bus. -/

def held (tank : Tank) : ℤ := tank.fluid.elim 0 fun _ => tank.qty

/-- A tank that so much is asked of gives no more than it holds. -/
def drain (n : ℤ) (tank : Tank) : Tank := { tank with qty := tank.qty - min n (max 0 tank.qty) }

/-- A transfer moves fluid out of its slot only. -/
def moveOut (tanks : List Tank) (t : Transfer) : List Tank :=
  tanks.modify t.slot (drain t.nDeposited)

theorem drain_zero : drain 0 = id := by
  funext tank
  simp only [drain, id]
  rw [min_eq_left (le_max_left _ _), sub_zero]

theorem drain_drain {m n : ℤ} (hm : 0 ≤ m) (hn : 0 ≤ n) (tank : Tank) :
    drain n (drain m tank) = drain (m + n) tank := by
  have hqty : tank.qty - min m (max 0 tank.qty) -
      min n (max 0 (tank.qty - min m (max 0 tank.qty))) =
        tank.qty - min (m + n) (max 0 tank.qty) := by omega
  simp only [drain, hqty]

theorem getElem?_moveOut {ts : List Transfer} (hpos : ∀ t ∈ ts, 0 < t.nDeposited)
    (tanks : List Tank) (slot : ℕ) :
    (ts.foldl moveOut tanks)[slot]? = tanks[slot]?.map (drain (asked ts slot)) := by
  induction ts generalizing tanks with
  | nil =>
    show tanks[slot]? = tanks[slot]?.map (drain 0)
    rw [drain_zero, Option.map_id_fun, id]
  | cons t ts ih =>
    obtain ⟨ht, hts⟩ := List.forall_mem_cons.mp hpos
    have hcons : asked (t :: ts) slot =
        (if t.slot = slot then t.nDeposited else 0) + asked ts slot := sumOf_cons ..
    have hrest : 0 ≤ asked ts slot := by
      refine sumOf_nonneg (fun d hd => ?_) slot
      obtain ⟨t', ht', rfl⟩ := List.mem_map.mp hd
      exact (hts t' ht').le
    rw [List.foldl_cons, ih hts, moveOut, List.getElem?_modify, hcons]
    cases tanks[slot]? with
    | none => simp
    | some tank =>
      split_ifs with heq
      · simp [drain_drain ht.le hrest]
      · simp

/-- The transfers of a bus ask of each tank what it holds, and after them, in any order, the bus
holds nothing. -/
structure Drained (tanks : List Tank) (ts : List Transfer) : Prop where
  asked : ∀ slot tank, tanks[slot]? = some tank → FluidBus.asked ts slot = held tank
  empty : ∀ done : List Transfer, done.Perm ts → ∀ tank ∈ done.foldl moveOut tanks, held tank = 0

/-- Everything is asked of the first tank of a fluid, so no other may hold it. -/
theorem drained_iff {listed : Listed} {ts : List Transfer} (hpos : ∀ t ∈ ts, 0 < t.nDeposited)
    (hasked : ∀ slot, asked ts slot = sumOf slot (bySlot listed.fluids)) :
    Drained listed.tanks ts ↔ DistinctFluids listed.tanks := by
  have hfirst (slot : ℕ) (tank : Tank) (htank : listed.tanks[slot]? = some tank) :
      asked ts slot = tank.fluid.elim 0 fun fluid =>
        if firstTank listed.tanks fluid = some slot then fluidAmount listed.tanks fluid else 0 := by
    rw [hasked, bySlot, sumOf_perm (listed.perm.map Prod.snd), sumOf_slot_tanksToFluidMap htank]
  constructor
  · intro hdrained j k tank tank' fluid hj hk hfluid hfluid'
    have hisFirst (slot : ℕ) (tank : Tank) (htank : listed.tanks[slot]? = some tank)
        (hfluid : tank.fluid = some fluid) : firstTank listed.tanks fluid = some slot := by
      have hqty := listed.read tank (List.mem_of_getElem? htank) (by simp [hfluid])
      have hall := (hfirst slot tank htank).symm.trans (hdrained.asked slot tank htank)
      simp only [held, hfluid, Option.elim_some] at hall
      by_contra hnot
      rw [if_neg hnot] at hall
      omega
    have hsame := (hisFirst j tank hj hfluid).symm.trans (hisFirst k tank' hk hfluid')
    exact Option.some.inj hsame
  · intro hdistinct
    have hall (slot : ℕ) (tank : Tank) (htank : listed.tanks[slot]? = some tank) :
        asked ts slot = held tank := by
      rw [hfirst slot tank htank]
      cases hfluid : tank.fluid with
      | none => simp [held, hfluid]
      | some fluid =>
        obtain ⟨j, hj⟩ := Option.isSome_iff_exists.mp
          (firstTank_isSome.mpr ⟨tank, List.mem_of_getElem? htank, hfluid⟩)
        obtain ⟨tank', htank', hfluid'⟩ := firstTank_eq_some hj
        obtain rfl := hdistinct j slot tank' tank fluid htank' htank hfluid' hfluid
        simp [held, hfluid, hj, hdistinct.fluidAmount_eq htank hfluid]
    refine ⟨hall, fun done hperm tank htank => ?_⟩
    obtain ⟨slot, hslot⟩ := List.mem_iff_getElem?.mp htank
    rw [getElem?_moveOut (fun t ht => hpos t (hperm.mem_iff.mp ht))] at hslot
    obtain ⟨before, hbefore, rfl⟩ := Option.map_eq_some_iff.mp hslot
    have hsame : asked done slot = asked ts slot := sumOf_perm (hperm.map _) slot
    rw [hsame, hall slot before hbefore]
    cases hfluid : before.fluid with
    | none => simp [held, drain, hfluid]
    | some fluid =>
      have hqty := listed.read before (List.mem_of_getElem? hbefore) (by simp [hfluid])
      simp only [held, drain, hfluid, Option.elim_some]
      omega

theorem transfers_map_ok (ts : List Transfer) : transfers (ts.map .ok) = ts := by
  simp [transfers, List.filterMap_map]

/-- Where the storages have room for all fluids of the buses that nobody uses, no task fails, and
such a bus is drained exactly when no fluid is in two of its tanks. -/
theorem sweepBuses_drained_iff {allocations : Finset ℕ} {buses : List Listed}
    {storages : List FluidStorage}
    (hroom : ∀ fluid, toPlace allocations 0 buses fluid ≤ fluidRoom storages fluid) :
    ∃ s, sweepBuses allocations 0 buses ⟨storages, [], [], []⟩ = some s ∧
      s.tasks = (transfers s.tasks).map .ok ∧
      (∀ bus ∈ s.emptyBusesAfterDeposit, bus < buses.length ∧ bus ∉ allocations) ∧
      ∀ i listed, buses[i]? = some listed → i ∉ allocations →
        (Drained listed.tanks (ofBus i (transfers s.tasks)) ↔ DistinctFluids listed.tanks) := by
  obtain ⟨s, ts, hrun, hasks⟩ := @sweepBuses_asks allocations 0 buses ⟨storages, [], [], []⟩ hroom
  have htasks : s.tasks = ts.map .ok := by simpa using hasks.tasks
  refine ⟨s, hrun, ?_, fun bus hbus => ?_, fun i listed hlisted hnot => ?_⟩
  · rw [htasks, transfers_map_ok]
  · rcases hasks.emptied bus hbus with hmem | ⟨-, hlt, hnot⟩
    · simp at hmem
    · exact ⟨by omega, hnot⟩
  · rw [htasks, transfers_map_ok]
    refine drained_iff (fun t ht => ?_) fun slot => ?_
    · exact (hasks.positive t (List.mem_filter.mp ht).1).2
    · have hslot := hasks.asked i listed hlisted (by rwa [zero_add]) slot
      rwa [zero_add] at hslot

/-- A bus with the same fluid in two tanks. -/
def waterTwice : Listed where
  tanks := [⟨16000, 1000, some "water"⟩, ⟨16000, 1000, some "water"⟩]
  fluids := [("water", 0, 2000)]
  read := by decide
  perm := by decide

/-- All of the water is asked of the first tank, and the second is still full afterwards. -/
theorem sweepBuses_waterTwice :
    ∃ s, sweepBuses ∅ 0 [waterTwice] ⟨[⟨"water", some 0, 8000, 0, 0⟩], [], [], []⟩ = some s ∧
      s.tasks = [.ok ⟨0, 0, 0, 2000⟩] ∧ s.emptyBusesAfterDeposit = [0] ∧
      ¬ Drained waterTwice.tanks (ofBus 0 (transfers s.tasks)) := by
  refine ⟨_, rfl, rfl, rfl, fun hdrained => ?_⟩
  exact absurd (hdrained.asked 1 _ rfl) (by decide)

/-- A bus with two fluids. -/
def waterAndLava : Listed where
  tanks := [⟨16000, 1000, some "water"⟩, ⟨16000, 500, some "lava"⟩]
  fluids := [("lava", 1, 500), ("water", 0, 1000)]
  read := by decide
  perm := by decide

theorem sweepBuses_drained_iff_waterAndLava :
    ∃ s, sweepBuses ∅ 0 [waterAndLava]
        ⟨[⟨"water", some 0, 8000, 0, 0⟩, ⟨"lava", some 0, 8000, 0, 0⟩], [], [], []⟩ = some s ∧
      Drained waterAndLava.tanks (ofBus 0 (transfers s.tasks)) := by
  obtain ⟨s, hrun, -, -, hdrained⟩ :=
    @sweepBuses_drained_iff ∅ [waterAndLava]
      [⟨"water", some 0, 8000, 0, 0⟩, ⟨"lava", some 0, 8000, 0, 0⟩] fun fluid => by
        simp only [toPlace, waterAndLava, fluidRoom, fluidAmount, List.map_cons, List.map_nil,
          List.sum_cons, List.sum_nil, Option.some.injEq, Finset.notMem_empty]
        split_ifs <;> omega
  refine ⟨s, hrun, (hdrained 0 waterAndLava rfl (by simp)).mpr ?_⟩
  have hget (j : ℕ) (tank : Tank) (h : waterAndLava.tanks[j]? = some tank) :
      j = 0 ∧ tank.fluid = some "water" ∨ j = 1 ∧ tank.fluid = some "lava" := by
    rcases j with _ | _ | j
    · exact .inl ⟨rfl, Option.some.inj h ▸ rfl⟩
    · exact .inr ⟨rfl, Option.some.inj h ▸ rfl⟩
    · simp [waterAndLava] at h
  intro j k tank tank' fluid hj hk hfluid hfluid'
  have hdiff : some "water" ≠ some "lava" := by decide
  rcases hget j tank hj with ⟨rfl, hfirst⟩ | ⟨rfl, hfirst⟩
  · rcases hget k tank' hk with ⟨rfl, -⟩ | ⟨rfl, hsecond⟩
    · rfl
    · exact absurd (hfirst.symm.trans (hfluid.trans (hfluid'.symm.trans hsecond))) hdiff
  · rcases hget k tank' hk with ⟨rfl, hsecond⟩ | ⟨rfl, -⟩
    · exact absurd (hsecond.symm.trans (hfluid'.trans (hfluid.symm.trans hfirst))) hdiff
    · rfl

end FluidBus
end OCRemote
