import Mathlib.Algebra.Order.Ring.Int
import OCRemote.Lib.FirstBest
import OCRemote.Lib.Tally

/-! Fluid storages and the two loops that spread an amount over them (`factory.rs`). -/

namespace OCRemote
open Tally FirstBest

/-- A tank as `read_tanks` returns it. -/
structure Tank where
  capacity : ℤ
  qty : ℤ
  fluid : Option String
  deriving DecidableEq

def Tank.read (capacity amount : ℤ) (name : String) : Tank :=
  ⟨capacity, amount, if 0 < amount then some name else none⟩

structure FluidStorage where
  fluid : String
  slot : Option ℕ
  capacity : ℤ
  nStoredHi : ℤ
  nStoredLo : ℤ
  deriving DecidableEq

namespace FluidStorage

def new (fluid : String) : FluidStorage := ⟨fluid, none, 0, 0, 0⟩

/-- The loop of `update`. Tanks with another fluid are only reported. -/
def addTanks : ℕ → List Tank → FluidStorage → FluidStorage
  | _, [], sto => sto
  | i, tank :: tanks, sto =>
    if tank.fluid ≠ none ∧ tank.fluid ≠ some sto.fluid then addTanks (i + 1) tanks sto
    else
      addTanks (i + 1) tanks
        { sto with
          slot := some i
          capacity := sto.capacity + tank.capacity
          nStoredHi := sto.nStoredHi + tank.qty
          nStoredLo := sto.nStoredLo + tank.qty }

def update (sto : FluidStorage) (tanks : List Tank) : FluidStorage := addTanks 0 tanks sto

def endOfCycle (sto : FluidStorage) : FluidStorage :=
  { sto with slot := none, capacity := 0, nStoredHi := 0, nStoredLo := 0 }

end FluidStorage

def searchNFluid (storages : List FluidStorage) (fluid : String) : ℤ :=
  (storages.map fun sto => if sto.fluid = fluid then sto.nStoredLo else 0).sum

def getFluidAvailability (storages : List FluidStorage) (backup : ℤ) (fluid : String)
    (allowBackup : Bool)
    (extraBackup : ℤ) : ℤ :=
  let nAvailable := searchNFluid storages fluid - extraBackup
  max 0 (if allowBackup then nAvailable else nAvailable - backup)

def lowerLo (n : ℤ) (sto : FluidStorage) : FluidStorage :=
  { sto with nStoredLo := sto.nStoredLo - n }

def raiseHi (n : ℤ) (sto : FluidStorage) : FluidStorage :=
  { sto with nStoredHi := sto.nStoredHi + n }

/-- The loop of `reserve_fluid`, which takes from the emptiest storages first. No value means that
`best.unwrap()` failed. -/
def reserveFluidLoop (fluid : String) : ℕ → List FluidStorage → ℤ → List (ℕ × ℤ) →
    Option (List FluidStorage × List (ℕ × ℤ))
  | 0, _, _, _ => none
  | fuel + 1, storages, qty, extractors =>
    if 0 < qty then
      match firstBest (fun sto =>
          if sto.fluid = fluid ∧ 0 < sto.nStoredLo then some sto.nStoredLo else none)
          (fun lo best => decide (lo < best)) storages with
      | none => none
      | some (i, nStoredLo) =>
        let toReserve := min qty nStoredLo
        reserveFluidLoop fluid fuel (storages.modify i (lowerLo toReserve)) (qty - toReserve)
          (extractors ++ [(i, toReserve)])
    else some (storages, extractors)

def reserveFluid (storages : List FluidStorage) (fluid : String) (qty : ℤ) :
    Option (List FluidStorage × List (ℕ × ℤ)) :=
  reserveFluidLoop fluid (qty.toNat + 1) storages qty []

/-- The loop of `fluid_deposit`, which fills up the fullest storages first. A task is a transfer
to a storage or the error that ends the loop. -/
def fluidDepositLoop (fluid : String) : ℕ → List FluidStorage → ℤ → List (Except String (ℕ × ℤ)) →
    Option (List FluidStorage × List (Except String (ℕ × ℤ)))
  | 0, _, _, _ => none
  | fuel + 1, storages, qty, tasks =>
    if 0 < qty then
      match firstBest (fun sto => if sto.fluid = fluid ∧ sto.nStoredHi < sto.capacity then
            some (sto.nStoredHi, sto.capacity) else none)
          (fun hi best => decide (best.1 < hi.1)) storages with
      | none => some (storages, tasks ++ [.error (fluid ++ " is full")])
      | some (i, nStoredHi, capacity) =>
        let nDeposited := min qty (capacity - nStoredHi)
        fluidDepositLoop fluid fuel (storages.modify i (raiseHi nDeposited)) (qty - nDeposited)
          (tasks ++ [.ok (i, nDeposited)])
    else some (storages, tasks)

def fluidDeposit (storages : List FluidStorage) (fluid : String) (qty : ℤ) :
    Option (List FluidStorage × List (Except String (ℕ × ℤ))) :=
  fluidDepositLoop fluid (qty.toNat + 1) storages qty []

/-- `sto'` is `sto` after some amounts were reserved from it and deposited into it. -/
def Moved (sto sto' : FluidStorage) (reserved deposited : ℤ) : Prop :=
  sto' = { sto with nStoredLo := sto.nStoredLo - reserved, nStoredHi := sto.nStoredHi + deposited }

theorem Moved.lowerLo {sto sto' : FluidStorage} {n reserved deposited : ℤ}
    (h : Moved (lowerLo n sto) sto' reserved deposited) :
    Moved sto sto' (n + reserved) deposited := by
  unfold Moved at h ⊢
  rw [h]
  simp only [OCRemote.lowerLo, sub_sub]

theorem Moved.raiseHi {sto sto' : FluidStorage} {n reserved deposited : ℤ}
    (h : Moved (raiseHi n sto) sto' reserved deposited) :
    Moved sto sto' reserved (n + deposited) := by
  unfold Moved at h ⊢
  rw [h]
  simp only [OCRemote.raiseHi, add_assoc]

/-- Storages before and after, with what was taken from each and given to each. -/
def MovedAll (storages storages' : List FluidStorage) (reserved deposited : List (ℕ × ℤ)) : Prop :=
  ∀ i sto', storages'[i]? = some sto' →
    ∃ sto, storages[i]? = some sto ∧ Moved sto sto' (sumOf i reserved) (sumOf i deposited)

theorem MovedAll.refl (storages : List FluidStorage) : MovedAll storages storages [] [] :=
  fun _ sto hsto => ⟨sto, hsto, by simp [Moved]⟩

theorem getElem?_modify_some {storages : List FluidStorage} {i j : ℕ}
    {f : FluidStorage → FluidStorage}
    {sto' : FluidStorage} (h : (storages.modify i f)[j]? = some sto') :
    ∃ sto, storages[j]? = some sto ∧ sto' = if i = j then f sto else sto := by
  rw [List.getElem?_modify] at h
  cases hj : storages[j]? with
  | none => simp [hj] at h
  | some sto =>
    rw [hj] at h
    exact ⟨sto, rfl, by simpa [apply_ite, eq_comm] using h⟩

theorem MovedAll.lowerLo {storages storages' : List FluidStorage} {i : ℕ} {n : ℤ}
    {reserved deposited : List (ℕ × ℤ)}
    (h : MovedAll (storages.modify i (lowerLo n)) storages' reserved deposited) :
    MovedAll storages storages' ((i, n) :: reserved) deposited := by
  intro j sto' hsto'
  obtain ⟨mid, hmid, hmoved⟩ := h j sto' hsto'
  obtain ⟨old, hold, rfl⟩ := getElem?_modify_some hmid
  refine ⟨old, hold, ?_⟩
  rw [sumOf_cons]
  split_ifs at hmoved ⊢
  · exact hmoved.lowerLo
  · rwa [zero_add]

theorem MovedAll.raiseHi {storages storages' : List FluidStorage} {i : ℕ} {n : ℤ}
    {reserved deposited : List (ℕ × ℤ)}
    (h : MovedAll (storages.modify i (raiseHi n)) storages' reserved deposited) :
    MovedAll storages storages' reserved ((i, n) :: deposited) := by
  intro j sto' hsto'
  obtain ⟨mid, hmid, hmoved⟩ := h j sto' hsto'
  obtain ⟨old, hold, rfl⟩ := getElem?_modify_some hmid
  refine ⟨old, hold, ?_⟩
  rw [sumOf_cons]
  split_ifs at hmoved ⊢
  · exact hmoved.raiseHi
  · rwa [zero_add]

theorem searchNFluid_modify {storages : List FluidStorage} {i : ℕ} {sto : FluidStorage}
    {fluid : String}
    (h : storages[i]? = some sto) (hf : sto.fluid = fluid) (n : ℤ) :
    searchNFluid (storages.modify i (lowerLo n)) fluid = searchNFluid storages fluid - n := by
  obtain ⟨l₁, l₂, hl, -, hm⟩ := List.exists_cut h
  rw [hm, hl]
  simp only [searchNFluid, List.map_append, List.map_cons, List.sum_append, List.sum_cons, lowerLo,
    hf, if_pos]
  omega

theorem searchNFluid_nonpos {storages : List FluidStorage} {fluid : String}
    (h : ∀ sto ∈ storages,
      (if sto.fluid = fluid ∧ 0 < sto.nStoredLo then some sto.nStoredLo else none) = none) :
    searchNFluid storages fluid ≤ 0 := by
  induction storages with
  | nil => exact le_rfl
  | cons sto storages ih =>
    obtain ⟨hsto, hrest⟩ := List.forall_mem_cons.mp h
    have hsum := ih hrest
    simp only [ite_eq_right_iff, reduceCtorEq, imp_false, not_and, not_lt] at hsto
    unfold searchNFluid at hsum ⊢
    rw [List.map_cons, List.sum_cons]
    split_ifs with hf
    · have hlo := hsto hf
      omega
    · omega

theorem reserveFluidLoop_spec {fluid : String} {fuel : ℕ} {storages : List FluidStorage} {qty : ℤ}
    (extractors : List (ℕ × ℤ)) (h0 : 0 ≤ qty) (hle : qty ≤ searchNFluid storages fluid)
    (hlo : ∀ sto ∈ storages, 0 ≤ sto.nStoredLo) (hfuel : qty < fuel) :
    ∃ storages' ds, reserveFluidLoop fluid fuel storages qty extractors =
      some (storages', extractors ++ ds) ∧
      (∀ d ∈ ds, 0 < d.2 ∧ d.1 < storages.length) ∧ (ds.map Prod.snd).sum = qty ∧
        (∀ sto ∈ storages', 0 ≤ sto.nStoredLo) ∧
      storages'.length = storages.length ∧ MovedAll storages storages' ds [] := by
  induction fuel generalizing storages qty extractors with
  | zero => simp at hfuel; omega
  | succ fuel ih =>
    unfold reserveFluidLoop
    by_cases hq : 0 < qty
    · rw [if_pos hq]
      cases hbest : firstBest (fun sto : FluidStorage =>
          if sto.fluid = fluid ∧ 0 < sto.nStoredLo then some sto.nStoredLo else none)
          (fun lo best => decide (lo < best)) storages with
      | none =>
        have hn := searchNFluid_nonpos (firstBest_eq_none hbest)
        omega
      | some b =>
        obtain ⟨i, lo⟩ := b
        obtain ⟨sto, hsto, hkey⟩ := firstBest_spec hbest
        have hlt := (List.getElem?_eq_some_iff.mp hsto).1
        obtain ⟨⟨hf, hpos⟩, rfl⟩ : (sto.fluid = fluid ∧ 0 < sto.nStoredLo) ∧ sto.nStoredLo = lo := by
          simpa using hkey
        simp only
        have hsum := searchNFluid_modify hsto hf (min qty sto.nStoredLo)
        have hlo' : ∀ sto' ∈ storages.modify i (lowerLo (min qty sto.nStoredLo)),
            0 ≤ sto'.nStoredLo := by
          intro sto' hsto'
          rcases List.mem_modify hsto' with hmem | ⟨old, hold, rfl⟩
          · exact hlo sto' hmem
          · obtain rfl : sto = old := Option.some.inj (hsto.symm.trans hold)
            simp only [lowerLo]
            omega
        obtain ⟨storages', ds, hrun, hds, htotal, hlo₁, hlen, hmoved⟩ := @ih _
          (qty - min qty sto.nStoredLo)
          (extractors ++ [(i, min qty sto.nStoredLo)]) (by omega) (by omega) hlo'
          (by push_cast at hfuel; omega)
        refine ⟨storages', (i, min qty sto.nStoredLo) :: ds, ?_, ?_, ?_, hlo₁, ?_, ?_⟩
        · rw [hrun, List.append_assoc, List.singleton_append]
        · exact List.forall_mem_cons.mpr ⟨⟨by simp only; omega, hlt⟩,
            fun d hd => by simpa using hds d hd⟩
        · rw [List.map_cons, List.sum_cons, htotal]
          omega
        · rw [hlen, List.length_modify]
        · exact hmoved.lowerLo
    · obtain rfl : qty = 0 := by omega
      rw [if_neg hq]
      exact ⟨storages, [], by simp, by simp, rfl, hlo, rfl, .refl storages⟩

/-- A reservation that succeeds is for all that was asked for. -/
theorem reserveFluidLoop_sum {fluid : String} {fuel : ℕ} {storages : List FluidStorage} {qty : ℤ}
    {extractors : List (ℕ × ℤ)} {r : List FluidStorage × List (ℕ × ℤ)} (h0 : 0 ≤ qty)
    (h : reserveFluidLoop fluid fuel storages qty extractors = some r) :
    (r.2.map Prod.snd).sum = (extractors.map Prod.snd).sum + qty := by
  induction fuel generalizing storages qty extractors with
  | zero => simp [reserveFluidLoop] at h
  | succ fuel ih =>
    rw [reserveFluidLoop] at h
    split_ifs at h with hq
    · split at h
      · simp at h
      · rename_i i lo hbest
        rw [ih (by omega) h, List.map_append, List.sum_append]
        simp
    · obtain rfl := Option.some.inj h
      simp only
      omega

/-- Reserving at most what there is never finds no storage, and takes exactly `qty`. -/
theorem reserveFluid_spec {storages : List FluidStorage} {fluid : String} {qty : ℤ} (h0 : 0 ≤ qty)
    (hle : qty ≤ searchNFluid storages fluid) (hlo : ∀ sto ∈ storages, 0 ≤ sto.nStoredLo) :
    ∃ storages' ds, reserveFluid storages fluid qty = some (storages', ds) ∧
      (∀ d ∈ ds, 0 < d.2 ∧ d.1 < storages.length) ∧ (ds.map Prod.snd).sum = qty ∧
        (∀ sto ∈ storages', 0 ≤ sto.nStoredLo) ∧
      storages'.length = storages.length ∧ MovedAll storages storages' ds [] :=
  reserveFluidLoop_spec [] h0 hle hlo (by push_cast; omega)

/-- No storage is charged with more than it holds. -/
def Fits (storages : List FluidStorage) : Prop := ∀ sto ∈ storages, sto.nStoredHi ≤ sto.capacity

/-- A task list of `fluid_deposit`: transfers, and the error at the end if not all could be placed. -/
def Placed (fluid : String) (qty : ℤ) (tasks : List (Except String (ℕ × ℤ)))
    (ds : List (ℕ × ℤ)) : Prop :=
  tasks = ds.map .ok ∧ (ds.map Prod.snd).sum = qty ∨
    tasks = ds.map .ok ++ [.error (fluid ++ " is full")] ∧ (ds.map Prod.snd).sum < qty

/-- One turn: all is placed, nothing has room, or a storage with room takes what it can. -/
theorem fluidDepositLoop_cases (fluid : String) (fuel : ℕ) (storages : List FluidStorage) (qty : ℤ)
    (tasks : List (Except String (ℕ × ℤ))) :
    qty ≤ 0 ∧ fluidDepositLoop fluid (fuel + 1) storages qty tasks = some (storages, tasks) ∨
    0 < qty ∧ (∀ sto ∈ storages, ¬(sto.fluid = fluid ∧ sto.nStoredHi < sto.capacity)) ∧
      fluidDepositLoop fluid (fuel + 1) storages qty tasks =
        some (storages, tasks ++ [.error (fluid ++ " is full")]) ∨
    0 < qty ∧ ∃ i sto n, storages[i]? = some sto ∧ sto.fluid = fluid ∧
      sto.nStoredHi < sto.capacity ∧ n = min qty (sto.capacity - sto.nStoredHi) ∧
      fluidDepositLoop fluid (fuel + 1) storages qty tasks =
        fluidDepositLoop fluid fuel (storages.modify i (raiseHi n)) (qty - n)
          (tasks ++ [.ok (i, n)]) := by
  rw [fluidDepositLoop]
  split_ifs with hq
  · cases hbest : firstBest (fun sto : FluidStorage =>
        if sto.fluid = fluid ∧ sto.nStoredHi < sto.capacity then
          some (sto.nStoredHi, sto.capacity) else none)
        (fun hi best => decide (best.1 < hi.1)) storages with
    | none =>
      refine .inr (.inl ⟨hq, fun sto hsto hfits => ?_, rfl⟩)
      simpa [hfits] using firstBest_eq_none hbest sto hsto
    | some b =>
      obtain ⟨i, hi, cap⟩ := b
      obtain ⟨sto, hsto, hkey⟩ := firstBest_spec hbest
      obtain ⟨⟨hf, hroom⟩, rfl, rfl⟩ : (sto.fluid = fluid ∧ sto.nStoredHi < sto.capacity) ∧
          sto.nStoredHi = hi ∧ sto.capacity = cap := by simpa using hkey
      exact .inr (.inr ⟨hq, i, sto, _, hsto, hf, hroom, rfl, rfl⟩)
  · exact .inl ⟨not_lt.mp hq, rfl⟩

theorem fluidDepositLoop_spec {fluid : String} {fuel : ℕ} {storages : List FluidStorage} {qty : ℤ}
    (tasks : List (Except String (ℕ × ℤ))) (h0 : 0 ≤ qty) (hfuel : qty < fuel) :
    ∃ storages' more ds, fluidDepositLoop fluid fuel storages qty tasks =
      some (storages', tasks ++ more) ∧
      Placed fluid qty more ds ∧ (∀ d ∈ ds, 0 < d.2 ∧ d.1 < storages.length) ∧
      (Fits storages → Fits storages') ∧
      storages'.length = storages.length ∧ MovedAll storages storages' [] ds := by
  induction fuel generalizing storages qty tasks with
  | zero =>
    simp at hfuel
    omega
  | succ fuel ih =>
    rcases fluidDepositLoop_cases fluid fuel storages qty tasks with ⟨hq, hturn⟩ | ⟨hq, -, hturn⟩ |
      ⟨hq, i, sto, n, hsto, hf, hroom, hn, hturn⟩
    · obtain rfl : qty = 0 := by omega
      exact ⟨storages, [], [], by simpa using hturn, .inl ⟨rfl, rfl⟩, by simp, id, rfl,
        .refl storages⟩
    · exact ⟨storages, _, [], hturn, .inr ⟨rfl, hq⟩, by simp, id, rfl, .refl storages⟩
    · have hlt := (List.getElem?_eq_some_iff.mp hsto).1
      have hturn' (hfits : Fits storages) : Fits (storages.modify i (raiseHi n)) := by
        intro sto' hsto'
        rcases List.mem_modify hsto' with hmem | ⟨old, hold, rfl⟩
        · exact hfits sto' hmem
        · obtain rfl : sto = old := Option.some.inj (hsto.symm.trans hold)
          simp only [raiseHi]
          omega
      obtain ⟨storages', more, ds, hrun, hplaced, hds, hfits, hlen, hmoved⟩ :=
        @ih (storages.modify i (raiseHi n)) (qty - n) (tasks ++ [.ok (i, n)]) (by omega)
          (by push_cast at hfuel; omega)
      refine ⟨storages', .ok (i, n) :: more, (i, n) :: ds, ?_, ?_, ?_, hfits ∘ hturn', ?_, ?_⟩
      · rw [hturn, hrun, List.append_assoc, List.singleton_append]
      · rcases hplaced with ⟨rfl, htotal⟩ | ⟨rfl, htotal⟩
        · refine .inl ⟨rfl, ?_⟩
          rw [List.map_cons, List.sum_cons, htotal]
          omega
        · refine .inr ⟨rfl, ?_⟩
          rw [List.map_cons, List.sum_cons]
          omega
      · exact List.forall_mem_cons.mpr ⟨⟨by simp only; omega, hlt⟩,
          fun d hd => by simpa using hds d hd⟩
      · rw [hlen, List.length_modify]
      · exact hmoved.raiseHi

/-- A deposit ends, and it places all of `qty` or reports that the fluid is full. -/
theorem fluidDeposit_spec {storages : List FluidStorage} {fluid : String} {qty : ℤ} (h0 : 0 ≤ qty) :
    ∃ storages' tasks ds, fluidDeposit storages fluid qty = some (storages', tasks) ∧
      Placed fluid qty tasks ds ∧ (∀ d ∈ ds, 0 < d.2 ∧ d.1 < storages.length) ∧
      (Fits storages → Fits storages') ∧
      storages'.length = storages.length ∧ MovedAll storages storages' [] ds :=
  fluidDepositLoop_spec [] h0 (by push_cast; omega)

end OCRemote
