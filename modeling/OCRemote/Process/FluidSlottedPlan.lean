import Mathlib.Algebra.BigOperators.Ring.List
import OCRemote.Process.FluidSlotted
import OCRemote.Process.SlottedPlan

/-! What the fluid process executes keeps within the stock, the fluid bus and the tanks. -/

namespace OCRemote
open Tally Slotted
namespace FluidSlottedProcess

/-- How much of a fluid there is in the tanks of these slots. -/
def heldIn (tanks : List Tank) (slots : List ℕ) (fluid : String) : ℤ :=
  (slots.map fun slot =>
    tanks[slot]?.elim 0 fun tank => if tank.fluid = some fluid then tank.qty else 0).sum

theorem heldIn_cons (tanks : List Tank) (slot : ℕ) (slots : List ℕ) (fluid : String) :
    heldIn tanks (slot :: slots) fluid = (tanks[slot]?.elim 0 fun tank =>
      if tank.fluid = some fluid then tank.qty else 0) + heldIn tanks slots fluid := by
  simp [heldIn]

theorem fluidMap_spec {tanks : List Tank} {slots : List ℕ} {fluids m : AList fun _ : String => ℤ}
    (h : fluidMap tanks slots fluids = some m) (fluid : String) :
    (m.lookup fluid).getD 0 = (fluids.lookup fluid).getD 0 + heldIn tanks slots fluid ∧
      (fluid ∈ m ↔ fluid ∈ fluids ∨
        ∃ slot ∈ slots, ∃ tank, tanks[slot]? = some tank ∧ tank.fluid = some fluid) := by
  induction slots generalizing fluids with
  | nil =>
    obtain rfl := Option.some.inj h
    simp [heldIn]
  | cons slot slots ih =>
    rw [fluidMap] at h
    rw [heldIn_cons]
    cases htank : tanks[slot]? with
    | none => simp [htank] at h
    | some tank =>
      simp only [htank] at h
      simp only [Option.elim_some, List.mem_cons, exists_eq_or_imp, htank, Option.some.injEq,
        exists_eq_left']
      cases hfluid : tank.fluid with
      | none =>
        simp only [hfluid] at h
        simpa using ih h
      | some other =>
        simp only [hfluid] at h
        obtain ⟨hamount, hmem⟩ := ih h
        rw [hamount, hmem, AList.mem_insert]
        by_cases hother : fluid = other
        · subst hother
          simp [AList.lookup_insert, add_assoc]
        · simp [AList.lookup_insert_ne hother, Ne.symm hother, hother]

theorem existingFluids_spec {inputTanks : List (List ℕ)} {tanks : List (List Tank)}
    {existing : List (AList fun _ : String => ℤ)}
    (h : existingFluids inputTanks tanks = some existing)
    (i : ℕ) : (∀ m, existing[i]? = some m → ∃ slots ts, inputTanks[i]? = some slots ∧
      tanks[i]? = some ts ∧ fluidMap ts slots ∅ = some m) ∧
      (i < tanks.length → ∃ m, existing[i]? = some m) := by
  induction tanks generalizing inputTanks existing i with
  | nil =>
    obtain rfl : [] = existing := by simpa [existingFluids] using h
    simp
  | cons ts tanks ih =>
    cases inputTanks with
    | nil => simp [existingFluids] at h
    | cons slots inputTanks =>
      rw [existingFluids] at h
      split at h
      · simp at h
      · rename_i m hm
        obtain ⟨rest, hrest, rfl⟩ := Option.map_eq_some_iff.mp h
        cases i with
        | zero => simpa using hm
        | succ i => simpa using ih hrest i

theorem mem_presentFluids (first i : ℕ) (fluid : String)
    (existing : List (AList fun _ : String => ℤ)) :
    (first + i, fluid) ∈ presentFluids first existing ↔ ∃ m, existing[i]? = some m ∧ fluid ∈ m := by
  have hlow (first i : ℕ) (hlt : i < first) (existing : List (AList fun _ : String => ℤ)) :
      (i, fluid) ∉ presentFluids first existing := by
    induction existing generalizing first with
    | nil => simp [presentFluids]
    | cons m existing ih =>
      rw [presentFluids, Finset.mem_union, not_or]
      refine ⟨?_, ih (first + 1) (by omega)⟩
      simp [hlt.ne']
  induction existing generalizing first i with
  | nil => simp [presentFluids]
  | cons m existing ih =>
    rw [presentFluids, Finset.mem_union]
    cases i with
    | zero =>
      have := hlow (first + 1) first (by omega) existing
      simp [this, AList.mem_keys]
    | succ i =>
      have hnext := ih (first + 1) i
      rw [show first + 1 + i = first + (i + 1) by omega] at hnext
      rw [or_iff_right (by simp)]
      exact hnext.trans (by simp)

/-- The loop over the tanks leaves a set to do, or it gives the recipe up. -/
theorem narrowFluids_pos {existing : List (AList fun _ : String => ℤ)} {maxSets : ℤ}
    {rest : List (String × ℕ × ℤ)} {nSets n : ℤ} {mismatched left : Finset (ℕ × String)}
    (hpos : 0 < nSets)
    (h : narrowFluids existing maxSets rest nSets mismatched = some (some (n, left))) : 0 < n := by
  induction rest generalizing nSets mismatched with
  | nil =>
    obtain ⟨rfl, rfl⟩ : nSets = n ∧ mismatched = left := by simpa [narrowFluids] using h
    exact hpos
  | cons target rest ih =>
    obtain ⟨fluid, i, mult⟩ := target
    rw [narrowFluids] at h
    cases hm : existing[i]? with
    | none => simp [hm] at h
    | some m =>
      simp only [hm] at h
      split_ifs at h with hzero hnone
      · simp at h
      · exact ih (not_le.mp hnone) h

theorem narrowFluids_spec {existing : List (AList fun _ : String => ℤ)} {maxSets : ℤ}
    {rest : List (String × ℕ × ℤ)} (hmult : ∀ target ∈ rest, 0 < target.2.2) {nSets n : ℤ}
    {mismatched left : Finset (ℕ × String)}
    (h : narrowFluids existing maxSets rest nSets mismatched = some (some (n, left))) :
    n ≤ nSets ∧
    (∀ target ∈ rest, ∃ m, existing[target.2.1]? = some m ∧
      (m.lookup target.1).getD 0 + n * target.2.2 ≤ maxSets * target.2.2) ∧
    ∀ p ∈ mismatched, p ∈ left ∨ ∃ target ∈ rest, (target.2.1, target.1) = p := by
  induction rest generalizing nSets mismatched with
  | nil =>
    obtain ⟨rfl, rfl⟩ : nSets = n ∧ mismatched = left := by simpa [narrowFluids] using h
    exact ⟨le_rfl, by simp, fun p hp => .inl hp⟩
  | cons target rest ih =>
    obtain ⟨fluid, i, mult⟩ := target
    obtain ⟨hfirst, hmult⟩ := List.forall_mem_cons.mp hmult
    simp only at hfirst
    rw [narrowFluids] at h
    cases hm : existing[i]? with
    | none => simp [hm] at h
    | some m =>
      simp only [hm] at h
      split_ifs at h with hzero hnone
      · simp at h
      have hn := narrowFluids_pos (not_le.mp hnone) h
      obtain ⟨hle, hall, hleft⟩ := ih hmult h
      refine ⟨hle.trans (min_le_left _ _), List.forall_mem_cons.mpr ⟨⟨m, hm, ?_⟩, hall⟩,
        fun p hp => ?_⟩
      · have hbound := (not_le.mp hnone).trans_le (min_le_right _ _)
        have hcast :
            toI32 (max 0 (min ((maxSets * mult - (m.lookup fluid).getD 0).tdiv mult) i32Max)) =
              max 0 (min ((maxSets * mult - (m.lookup fluid).getD 0).tdiv mult) i32Max) :=
          toI32_of_bounds (by rw [i32Min]; omega) (by simp [i32Max])
        have hdiv : n ≤ (maxSets * mult - (m.lookup fluid).getD 0).tdiv mult := by
          have hmin := hle.trans (min_le_right _ _)
          rw [hcast] at hmin hbound
          omega
        rw [le_tdiv_iff hn hfirst] at hdiv
        simp only
        omega
      · by_cases hsame : p = (i, fluid)
        · exact .inr ⟨_, List.mem_cons_self .., hsame.symm⟩
        · rcases hleft p (Finset.mem_erase.mpr ⟨hsame, hp⟩) with hp | ⟨target, htarget, heq⟩
          · exact .inl hp
          · exact .inr ⟨target, .tail _ htarget, heq⟩

section
variable {ι ε κ : Type}

/-! The bounds of the demands. -/

def fluidAvailability (factory : Factory ι ε) (input : FluidSlottedInput) : ℤ :=
  getFluidAvailability factory.fluidStorages (factory.fluidBackups input.fluid) input.fluid
    input.allowBackup input.extraBackup

/-- The availability of a fluid under the backup params of the first input of it. -/
def firstFluidAvailability (factory : Factory ι ε) (fluids : List FluidSlottedInput)
    (fluid : String) : ℤ :=
  (fluids.find? fun input => input.fluid = fluid).elim 0 (fluidAvailability factory)

/-- How much of a fluid one set takes. -/
def neededFluid (fluids : List FluidSlottedInput) (fluid : String) : ℤ :=
  sumOf fluid (fluids.map fun input => (input.fluid, input.size))

theorem fluidLoop_spec {factory : Factory ι ε} {fluids : List FluidSlottedInput}
    {infos infos' : AList fun _ : String => InputInfo} {bound bound' : ℤ}
    (h : fluidLoop factory fluids infos bound = some (infos', bound'))
    {entries : List (String × ℤ × ℤ)} (hnoted : Noted infos entries) :
    Noted infos' (entries ++ fluids.map fun input =>
      (input.fluid, fluidAvailability factory input, input.size)) ∧
    ∀ n, n ≤ bound' ↔ n ≤ bound ∧
      ∀ input ∈ fluids, n ≤ factory.fluidBusCapacity.tdiv input.size := by
  induction fluids generalizing infos bound entries with
  | nil =>
    obtain ⟨rfl, rfl⟩ : infos = infos' ∧ bound = bound' := by simpa [fluidLoop] using h
    simpa using hnoted
  | cons input fluids ih =>
    rw [fluidLoop] at h
    split_ifs at h with hzero
    obtain ⟨hnoted', hbound⟩ :=
      ih h (hnoted.step input.fluid (fluidAvailability factory input) input.size)
    refine ⟨by simpa using hnoted', fun n => ?_⟩
    rw [hbound, le_min_iff, List.forall_mem_cons, and_assoc]

theorem fluidAvailabilityBound_spec {infos : AList fun _ : String => InputInfo} {bound : ℤ}
    (h : fluidAvailabilityBound infos = some bound) (n : ℤ) :
    n ≤ bound ↔ n ≤ i64Max ∧ ∀ e ∈ infos.entries, n ≤ e.2.nAvailable.tdiv e.2.nNeeded := by
  have hfold (l : List (Sigma fun _ : String => InputInfo)) (first : ℤ)
      (h : l.foldlM (fun bound e => if e.2.nNeeded = 0 then none
        else some (min bound (e.2.nAvailable.tdiv e.2.nNeeded))) first = some bound) :
      n ≤ bound ↔ n ≤ first ∧ ∀ e ∈ l, n ≤ e.2.nAvailable.tdiv e.2.nNeeded := by
    induction l generalizing first with
    | nil =>
      obtain rfl : first = bound := by simpa using h
      simp
    | cons e l ih =>
      obtain ⟨next, hnext, hrest⟩ := Option.bind_eq_some_iff.mp (by simpa using h)
      split_ifs at hnext
      obtain rfl := Option.some.inj hnext
      rw [ih _ hrest, le_min_iff, List.forall_mem_cons, and_assoc]
  exact hfold infos.entries i64Max h

theorem fluidBounds_spec {factory : Factory ι ε} {fluids : List FluidSlottedInput}
    {busBound availabilityBound : ℤ}
    (h : fluidBounds factory fluids = some (busBound, availabilityBound)) (n : ℤ) :
    (n ≤ busBound ↔ n ≤ i64Max ∧
      ∀ input ∈ fluids, n ≤ factory.fluidBusCapacity.tdiv input.size) ∧
    (n ≤ availabilityBound ↔ n ≤ i64Max ∧ ∀ input ∈ fluids,
      n ≤ (firstFluidAvailability factory fluids input.fluid).tdiv
        (neededFluid fluids input.fluid)) := by
  unfold fluidBounds at h
  split at h
  · simp at h
  · rename_i infos bus hloop
    obtain ⟨bound, hbound, heq⟩ := Option.map_eq_some_iff.mp h
    obtain ⟨rfl, rfl⟩ := Prod.mk.inj heq
    have hstart : Noted (∅ : AList fun _ : String => InputInfo) [] := fun key => by simp
    obtain ⟨hnoted, hbus⟩ := fluidLoop_spec hloop hstart
    rw [List.nil_append] at hnoted
    have hlookup (fluid : String) : infos.lookup fluid =
        (fluids.find? fun input => input.fluid = fluid).map fun input =>
          ⟨fluidAvailability factory input, neededFluid fluids fluid⟩ := by
      rw [hnoted fluid, List.find?_map, Option.map_map, List.map_map]
      rfl
    refine ⟨hbus n, ?_⟩
    rw [fluidAvailabilityBound_spec hbound]
    refine and_congr_right fun _ => ⟨fun hall input hinput => ?_, fun hall e he => ?_⟩
    · obtain ⟨first, hfirst⟩ :
          ∃ first, fluids.find? (fun i => i.fluid = input.fluid) = some first :=
        Option.isSome_iff_exists.mp (List.find?_isSome.mpr ⟨input, hinput, by simp⟩)
      have hinfo := hlookup input.fluid
      rw [hfirst] at hinfo
      have hle := hall ⟨input.fluid, _⟩ (AList.mem_lookup_iff.mp hinfo)
      rwa [firstFluidAvailability, hfirst]
    · have hinfo := hlookup e.1
      rw [AList.mem_lookup_iff.mpr he] at hinfo
      obtain ⟨first, hfirst, heq⟩ := Option.map_eq_some_iff.mp hinfo.symm
      have hfluid : first.fluid = e.1 := by simpa using List.find?_some hfirst
      have hle := hall first (List.mem_of_find?_eq_some hfirst)
      rw [hfluid, firstFluidAvailability, hfirst] at hle
      rw [← heq]
      exact hle

variable [DecidableEq ι] [ItemClass ι]

/-- A demand is for a recipe, with the number of sets as it is cast. -/
theorem mem_fluidDemandsFrom {order : Enumeration ι} {scale : κ → ℤ → κ} {factory : Factory ι ε}
    {first : ℕ} {recipes : List (FluidSlottedRecipe ι ε κ)} {demands : List (Demand ι κ)}
    (h : fluidDemandsFrom order scale factory first recipes = some demands) {d : Demand ι κ}
    (hd : d ∈ demands) : ∃ j recipe inputs busBound availabilityBound, d.iRecipe = first + j ∧
      recipes[j]? = some recipe ∧
      resolveInputs order factory.items recipe.toRecipe.inputs = some (some inputs) ∧
      fluidBounds factory recipe.fluids = some (busBound, availabilityBound) ∧
      d.inputs.nSets = toI32 (min (min inputs.nSets busBound) availabilityBound) ∧
      0 < d.inputs.nSets ∧ d.inputs.items = inputs.items := by
  induction recipes generalizing first demands with
  | nil =>
    obtain rfl := Option.some.inj h
    simp at hd
  | cons recipe recipes ih =>
    have hlater {demands : List (Demand ι κ)}
        (h : fluidDemandsFrom order scale factory (first + 1) recipes = some demands)
        (hd : d ∈ demands) :
        ∃ j r inputs busBound availabilityBound, d.iRecipe = first + j ∧
          (recipe :: recipes)[j]? = some r ∧
          resolveInputs order factory.items r.toRecipe.inputs = some (some inputs) ∧
          fluidBounds factory r.fluids = some (busBound, availabilityBound) ∧
          d.inputs.nSets = toI32 (min (min inputs.nSets busBound) availabilityBound) ∧
          0 < d.inputs.nSets ∧ d.inputs.items = inputs.items := by
      obtain ⟨j, r, inputs, bus, bound, hi, hj, hr⟩ := ih h hd
      exact ⟨j + 1, r, inputs, bus, bound, by omega, by simpa using hj, hr⟩
    rw [fluidDemandsFrom] at h
    split at h
    · exact hlater h hd
    · split at h
      · simp at h
      · exact hlater h hd
      · rename_i inputs hinputs
        split at h
        · simp at h
        · rename_i bus bound hbounds
          simp only at h
          split_ifs at h with hpos
          · obtain ⟨result, hresult, rfl⟩ := Option.map_eq_some_iff.mp h
            rcases List.mem_cons.mp hd with rfl | hd
            · exact ⟨0, recipe, inputs, bus, bound, rfl, rfl, hinputs, hbounds, rfl, hpos, rfl⟩
            · exact hlater hresult hd
          · exact hlater h hd

/-! What is executed. -/

/-- A recipe as it has to be configured. -/
structure FluidRecipeOk (fluids : List FluidSlottedInput) : Prop where
  positive : ∀ input ∈ fluids, 0 < input.size ∧ ∀ tank ∈ input.tanks, 0 < tank.2
  backup : ∀ input ∈ fluids, 0 ≤ input.extraBackup
  distinct : ((fluidTargets fluids).map fun target => (target.2.1, target.1)).Nodup

/-- How much of a fluid is sent to a tank. -/
def sentTo (fluids : List FluidSlottedInput) (transfers : List (ℕ × ℕ × ℤ)) (fluid : String)
    (tank : ℕ) : ℤ :=
  sumOf (some fluid, tank)
    (transfers.map fun t => ((fluids[t.1]?.map FluidSlottedInput.fluid, t.2.1), t.2.2))

/-- What is executed keeps within the stock, the fluid bus and the tanks, and sends what it
reserves. -/
structure FluidPlanned (factory : Factory ι ε) (inputTanks : List (List ℕ))
    (tanks : List (List Tank)) (fluids : List FluidSlottedInput) (maxSets : ℤ)
    (execution : Execution ι ε) : Prop where
  sets : 1 ≤ execution.nSets
  available : ∀ input ∈ fluids, neededFluid fluids input.fluid * execution.nSets ≤
    firstFluidAvailability factory fluids input.fluid
  stored : ∀ input ∈ fluids, neededFluid fluids input.fluid * execution.nSets ≤
    searchNFluid factory.fluidStorages input.fluid
  bus : ∀ input ∈ fluids, input.size * execution.nSets ≤ factory.fluidBusCapacity
  room : ∀ input ∈ fluids, ∀ tank ∈ input.tanks, ∃ slots ts, inputTanks[tank.1]? = some slots ∧
    tanks[tank.1]? = some ts ∧ heldIn ts slots input.fluid +
      sentTo fluids execution.fluidTransfers input.fluid tank.1 ≤ maxSets * tank.2
  foreign : ∀ (i : ℕ) slots ts, inputTanks[i]? = some slots → tanks[i]? = some ts →
    ∀ slot ∈ slots, ∀ tank, ts[slot]? = some tank → ∀ fluid, tank.fluid = some fluid →
      ∃ input ∈ fluids, input.fluid = fluid ∧ ∃ mult, (i, mult) ∈ input.tanks
  sent : ∀ (iInput : ℕ) input, fluids[iInput]? = some input →
    ∃ reservation, execution.fluidReservations[iInput]? = some reservation ∧
      (reservation.map Prod.snd).sum = input.size * execution.nSets ∧
      sumOf iInput (execution.fluidTransfers.map fun t => (t.1, t.2.2)) =
        (reservation.map Prod.snd).sum

theorem mem_fluidTargets {fluids : List FluidSlottedInput} {target : String × ℕ × ℤ} :
    target ∈ fluidTargets fluids ↔ ∃ input ∈ fluids, input.fluid = target.1 ∧
      target.2 ∈ input.tanks := by
  rw [fluidTargets, List.mem_flatMap]
  refine exists_congr fun input => and_congr_right fun _ => ?_
  rw [List.mem_map]
  constructor
  · rintro ⟨tank, htank, rfl⟩
    exact ⟨rfl, htank⟩
  · rintro ⟨hfluid, htank⟩
    exact ⟨target.2, htank, by rw [hfluid]⟩

theorem fluidTransfers_eq (nSets : ℤ) (first : ℕ) (fluids : List FluidSlottedInput) :
    fluidTransfers nSets first fluids = (fluids.zipIdx first).flatMap fun p =>
      p.1.tanks.map fun tank => (p.2, tank.1, nSets * tank.2) := by
  induction fluids generalizing first with
  | nil => rfl
  | cons input fluids ih => rw [fluidTransfers, ih, List.zipIdx_cons, List.flatMap_cons]

/-- From each bus goes what its input takes. -/
theorem fluidTransfers_sum (nSets : ℤ) {fluids : List FluidSlottedInput} {iInput : ℕ}
    {input : FluidSlottedInput} (h : fluids[iInput]? = some input) :
    sumOf iInput ((fluidTransfers nSets 0 fluids).map fun t => (t.1, t.2.2)) =
      input.size * nSets := by
  have hsum := sumOf_zipIdx (fun input : FluidSlottedInput => input.tanks.map fun tank =>
    nSets * tank.2) fluids 0 iInput
  rw [zero_add, h, Option.elim_some] at hsum
  rw [fluidTransfers_eq, List.map_flatMap, input.size_eq, mul_comm,
    ← List.map_id (input.tanks.map _),
    ← List.sum_map_mul_left, List.map_map]
  simp only [List.map_map] at hsum ⊢
  exact hsum

/-- To each tank goes what a set takes, as it is listed only once. -/
theorem fluidTransfers_sentTo (nSets : ℤ) {fluids : List FluidSlottedInput}
    (hdistinct : ((fluidTargets fluids).map fun target => (target.2.1, target.1)).Nodup)
    {target : String × ℕ × ℤ} (h : target ∈ fluidTargets fluids) :
    sentTo fluids (fluidTransfers nSets 0 fluids) target.1 target.2.1 = nSets * target.2.2 := by
  have hmap : (fluidTransfers nSets 0 fluids).map
      (fun t => ((fluids[t.1]?.map FluidSlottedInput.fluid, t.2.1), t.2.2)) =
        (fluidTargets fluids).map fun target =>
          ((some target.1, target.2.1), nSets * target.2.2) := by
    rw [fluidTransfers_eq, fluidTargets, List.map_flatMap, List.map_flatMap]
    refine (List.flatMap_eq_zipIdx fun input i hinput => ?_).symm
    simp [hinput, Function.comp_def]
  rw [sentTo, hmap]
  have hmem : ((some target.1, target.2.1), nSets * target.2.2) ∈ (fluidTargets fluids).map
      fun target => ((some target.1, target.2.1), nSets * target.2.2) :=
    List.mem_map.mpr ⟨target, h, rfl⟩
  refine sumOf_of_nodup ?_ hmem
  have hinj : Function.Injective fun p : ℕ × String => (some p.2, p.1) := by
    rintro ⟨i, fluid⟩ ⟨j, other⟩ heq
    simpa [and_comm] using heq
  simpa [List.map_map, Function.comp_def] using hdistinct.map hinj

theorem reserveFluids_spec {nSets : ℤ} {storages : List FluidStorage}
    {fluids : List FluidSlottedInput} {r : List FluidStorage × List (List (ℕ × ℤ))}
    (hpos : ∀ input ∈ fluids, 0 ≤ input.size * nSets)
    (h : reserveFluids nSets storages fluids = some r) :
    List.Forall₂ (fun input reservation => (reservation.map Prod.snd).sum = input.size * nSets)
      fluids r.2 := by
  induction fluids generalizing storages r with
  | nil =>
    obtain rfl := Option.some.inj h
    exact .nil
  | cons input fluids ih =>
    obtain ⟨hfirst, hpos⟩ := List.forall_mem_cons.mp hpos
    rw [reserveFluids] at h
    split at h
    · simp at h
    · rename_i storages' reservation hreserve
      obtain ⟨rest, hrest, rfl⟩ := Option.map_eq_some_iff.mp h
      refine .cons ?_ (ih hpos hrest)
      simpa using reserveFluidLoop_sum hfirst hreserve

/-- The loop over the slots only lowers the number of sets, and not below one. -/
theorem narrowLoop_le {α : Type} [DecidableEq α]
    {existing : AList fun _ : α => Option (ItemStack ι)}
    {maxSets nSets : ℤ} {rest : List (ι × α × ℤ)} {usedSlots : Finset α} {r : ℤ × Finset α}
    (hpos : 0 < nSets) (h : narrowLoop existing maxSets rest nSets usedSlots = some (some r)) :
    0 < r.1 ∧ r.1 ≤ nSets := by
  induction rest generalizing nSets usedSlots with
  | nil =>
    obtain rfl : (nSets, usedSlots) = r := by simpa [narrowLoop] using h
    exact ⟨hpos, le_rfl⟩
  | cons target rest ih =>
    obtain ⟨item, slot, mult⟩ := target
    rw [narrowLoop] at h
    cases hlookup : existing.lookup slot with
    | none => simp [hlookup] at h
    | some existingInput =>
      simp only [hlookup] at h
      split_ifs at h with hitem hzero hnone
      · simp at h
      · simp at h
      · obtain ⟨hr, hle⟩ := ih (not_le.mp hnone) h
        exact ⟨hr, hle.trans (min_le_left _ _)⟩

theorem slotted_narrow_le {α : Type} [DecidableEq α]
    {existing : AList fun _ : α => Option (ItemStack ι)}
    {recipe : SlotRecipe α ι ε κ} {inputs : ResolvedInputs ι} {n : ℤ} (hpos : 0 < inputs.nSets)
    (h : Slotted.narrow existing recipe inputs = some (some n)) : 0 < n ∧ n ≤ inputs.nSets := by
  unfold Slotted.narrow at h
  split at h
  · simp at h
  · simp at h
  · rename_i nSets usedSlots hloop
    split_ifs at h
    · simp at h
    · obtain rfl := Option.some.inj (Option.some.inj h)
      exact narrowLoop_le hpos hloop

theorem narrow_pos {existing : AList fun _ : ℕ × ℕ => Option (ItemStack ι)}
    {fluids : List (AList fun _ : String => ℤ)} {recipe : FluidSlottedRecipe ι ε κ}
    {inputs : ResolvedInputs ι} {nSets : ℤ} (hpos : 0 < inputs.nSets)
    (h : narrow existing fluids recipe inputs = some (some nSets)) : 0 < nSets := by
  unfold narrow at h
  split at h
  · simp at h
  · simp at h
  · rename_i first hfirst
    split at h
    · simp at h
    · simp at h
    · rename_i n mismatched hfluids
      split_ifs at h
      · obtain rfl := Option.some.inj (Option.some.inj h)
        exact narrowFluids_pos (slotted_narrow_le hpos hfirst).1 hfluids
      · simp at h

/-- A recipe that may be made has room in its tanks, and nothing else is in the tanks. -/
theorem narrow_spec {existing : AList fun _ : ℕ × ℕ => Option (ItemStack ι)}
    {fluids : List (AList fun _ : String => ℤ)} {recipe : FluidSlottedRecipe ι ε κ}
    {inputs : ResolvedInputs ι} {nSets : ℤ}
    (hmult : ∀ target ∈ fluidTargets recipe.fluids, 0 < target.2.2) (hpos : 0 < inputs.nSets)
    (h : narrow existing fluids recipe inputs = some (some nSets)) :
    0 < nSets ∧ nSets ≤ inputs.nSets ∧
    (∀ target ∈ fluidTargets recipe.fluids, ∃ m, fluids[target.2.1]? = some m ∧
      (m.lookup target.1).getD 0 + nSets * target.2.2 ≤ recipe.maxSets * target.2.2) ∧
    ∀ i m fluid, fluids[i]? = some m → fluid ∈ m →
      ∃ target ∈ fluidTargets recipe.fluids, (target.2.1, target.1) = (i, fluid) := by
  unfold narrow at h
  split at h
  · simp at h
  · simp at h
  · rename_i first hfirst
    obtain ⟨hfirst, hle⟩ := slotted_narrow_le hpos hfirst
    split at h
    · simp at h
    · simp at h
    · rename_i n mismatched hfluids
      split_ifs at h with hempty
      swap
      · simp at h
      obtain rfl := Option.some.inj (Option.some.inj h)
      obtain ⟨hle', hroom, hleft⟩ := narrowFluids_spec hmult hfluids
      refine ⟨narrowFluids_pos hfirst hfluids, hle'.trans hle, hroom, fun i m fluid hm hfluid => ?_⟩
      have hpresent := (mem_presentFluids 0 i fluid fluids).mpr ⟨m, hm, hfluid⟩
      rw [zero_add] at hpresent
      rcases hleft _ hpresent with hmem | htarget
      · simp [hempty] at hmem
      · exact htarget

theorem neededFluid_pos {fluids : List FluidSlottedInput} (hpos : ∀ input ∈ fluids, 0 < input.size)
    {input : FluidSlottedInput} (h : input ∈ fluids) : 0 < neededFluid fluids input.fluid := by
  have hnonneg : ∀ d ∈ fluids.map fun input => (input.fluid, input.size), 0 ≤ d.2 := by
    simpa using fun i hi => (hpos i hi).le
  exact (hpos input h).trans_le (le_sumOf hnonneg (List.mem_map.mpr ⟨input, h, rfl⟩))

omit [DecidableEq ι] [ItemClass ι] in
/-- The cast of the number of sets of a demand leaves it alone. -/
theorem nSets_of_cast {factory : Factory ι ε} (hcapacity : i32Min ≤ factory.fluidBusCapacity)
    {fluids : List FluidSlottedInput} (hsize : ∀ input ∈ fluids, 0 < input.size)
    {busBound availabilityBound n : ℤ}
    (h : fluidBounds factory fluids = some (busBound, availabilityBound)) (h0 : 0 < n)
    (hn : n ≤ i32Max) :
    toI32 (min (min n busBound) availabilityBound) = min (min n busBound) availabilityBound := by
  obtain ⟨hbus, havailable⟩ := fluidBounds_spec h i32Min
  have hbus : i32Min ≤ busBound := by
    refine hbus.mpr ⟨by decide, fun input hinput => ?_⟩
    rcases le_total 0 factory.fluidBusCapacity with hpos | hneg
    · exact (show i32Min ≤ 0 by decide).trans (Int.tdiv_nonneg hpos (hsize input hinput).le)
    · have hself := Int.tdiv_le_self input.size (neg_nonneg.mpr hneg)
      rw [Int.neg_tdiv] at hself
      omega
  have havailable : i32Min ≤ availabilityBound := by
    refine havailable.mpr ⟨by decide, fun input hinput => ?_⟩
    refine (show i32Min ≤ 0 by decide).trans (Int.tdiv_nonneg ?_ (neededFluid_pos hsize hinput).le)
    unfold firstFluidAvailability
    cases fluids.find? fun i => i.fluid = input.fluid with
    | none => simp
    | some first => simp [fluidAvailability, getFluidAvailability]
  refine toI32_of_bounds (le_min (le_min ?_ hbus) havailable) ?_
  · rw [i32Min]
    omega
  · exact (min_le_left _ _).trans ((min_le_left _ _).trans hn)

/-- What a demand is for, and what its number of sets is bounded by. -/
theorem computeFluidDemands_spec [LinearOrder κ] {order : Enumeration ι} {scale : κ → ℤ → κ}
    {factory : Factory ι ε} (hcapacity : i32Min ≤ factory.fluidBusCapacity)
    {recipes : List (FluidSlottedRecipe ι ε κ)}
    (hsize : ∀ recipe ∈ recipes, ∀ input ∈ recipe.fluids, 0 < input.size)
    {demands : List (Demand ι κ)}
    (h : computeFluidDemands order scale factory recipes = some demands) {d : Demand ι κ}
    (hd : d ∈ demands) : ∃ recipe inputs, recipes[d.iRecipe]? = some recipe ∧
      resolveInputs order factory.items recipe.toRecipe.inputs = some (some inputs) ∧
      d.inputs.items = inputs.items ∧ d.inputs.nSets ≤ inputs.nSets ∧ 0 < d.inputs.nSets ∧
      ∀ input ∈ recipe.fluids, d.inputs.nSets ≤ factory.fluidBusCapacity.tdiv input.size ∧
        d.inputs.nSets ≤ (firstFluidAvailability factory recipe.fluids input.fluid).tdiv
          (neededFluid recipe.fluids input.fluid) := by
  obtain ⟨unsorted, hunsorted, rfl⟩ := Option.map_eq_some_iff.mp h
  obtain ⟨j, recipe, inputs, busBound, availabilityBound, hi, hj, hinputs, hbounds, hsets, hpos,
    hitems⟩ := mem_fluidDemandsFrom hunsorted ((List.perm_insertionSort _ unsorted).mem_iff.mp hd)
  rw [zero_add] at hi
  obtain ⟨hpos', hle, hmax⟩ := resolveInputs_bounds hinputs
  have hsize := hsize recipe (List.mem_of_getElem? hj)
  rw [nSets_of_cast hcapacity hsize hbounds hpos' (hle.trans hmax)] at hsets
  have hsets_le := hsets.trans_le ((min_le_left _ _).trans (min_le_left _ _))
  refine ⟨recipe, inputs, by rw [hi, hj], hinputs, hitems, hsets_le, hpos, ?_⟩
  obtain ⟨hbus, havailable⟩ := fluidBounds_spec hbounds d.inputs.nSets
  have hbus := hbus.mp (hsets.trans_le ((min_le_left _ _).trans (min_le_right _ _)))
  have havailable := havailable.mp (hsets.trans_le (min_le_right _ _))
  exact fun input hinput => ⟨hbus.2 input hinput, havailable.2 input hinput⟩

omit [DecidableEq ι] [ItemClass ι] in
/-- With backups that are not negative no more is available than is stored. -/
theorem le_searchNFluid {factory : Factory ι ε} (hbackup : ∀ fluid, 0 ≤ factory.fluidBackups fluid)
    {fluids : List FluidSlottedInput} (hextra : ∀ input ∈ fluids, 0 ≤ input.extraBackup)
    {fluid : String} {n : ℤ} (hpos : 0 < n) (h : n ≤ firstFluidAvailability factory fluids fluid) :
    n ≤ searchNFluid factory.fluidStorages fluid := by
  unfold firstFluidAvailability at h
  cases hfirst : fluids.find? fun input => input.fluid = fluid with
  | none =>
    rw [hfirst, Option.elim_none] at h
    omega
  | some first =>
    have hfluid : first.fluid = fluid := by simpa using List.find?_some hfirst
    have hextra := hextra first (List.mem_of_find?_eq_some hfirst)
    have hbackup := hbackup fluid
    rw [hfirst, Option.elim_some, fluidAvailability, getFluidAvailability, hfluid] at h
    split_ifs at h <;> omega

omit [ItemClass ι] in
/-- What is executed of a recipe: the number of sets, the reservations and the transfers. -/
theorem executeRecipe_spec {rule : TopRule (Provider ε) Provider.priority} {factory : Factory ι ε}
    {recipe : FluidSlottedRecipe ι ε κ} {demand : Demand ι κ} {nSets : ℤ}
    {r : Factory ι ε × Execution ι ε} (hpos : ∀ input ∈ recipe.fluids, 0 ≤ input.size * nSets)
    (h : executeRecipe rule factory recipe demand nSets = some r) :
    r.2.iRecipe = demand.iRecipe ∧ r.2.nSets = nSets ∧
      r.2.fluidTransfers = fluidTransfers nSets 0 recipe.fluids ∧
      List.Forall₂ (fun input reservation => (reservation.map Prod.snd).sum = input.size * nSets)
        recipe.fluids r.2.fluidReservations := by
  unfold executeRecipe at h
  split at h
  · simp at h
  · rename_i factory' execution hslotted
    obtain ⟨reserved, hreserved, rfl⟩ := Option.map_eq_some_iff.mp h
    obtain ⟨table, -, heq⟩ := Option.map_eq_some_iff.mp hslotted
    obtain ⟨-, rfl⟩ := Prod.mk.inj heq
    exact ⟨rfl, rfl, rfl, reserveFluids_spec hpos hreserved⟩

/-- What is executed of a recipe that may be made, for a demand within its bounds. -/
theorem execution_planned {rule : TopRule (Provider ε) Provider.priority} {factory : Factory ι ε}
    (hbackup : ∀ fluid, 0 ≤ factory.fluidBackups fluid) {recipe : FluidSlottedRecipe ι ε κ}
    (hok : FluidRecipeOk recipe.fluids) {inputTanks : List (List ℕ)} {tanks : List (List Tank)}
    {existing : AList fun _ : ℕ × ℕ => Option (ItemStack ι)}
    {fluids : List (AList fun _ : String => ℤ)}
    (hexisting : existingFluids inputTanks tanks = some fluids)
    {demand : Demand ι κ} (hpos : 0 < demand.inputs.nSets)
    (hbounds : ∀ input ∈ recipe.fluids,
      demand.inputs.nSets ≤ factory.fluidBusCapacity.tdiv input.size ∧
      demand.inputs.nSets ≤ (firstFluidAvailability factory recipe.fluids input.fluid).tdiv
        (neededFluid recipe.fluids input.fluid))
    {nSets : ℤ} (hnarrow : narrow existing fluids recipe demand.inputs = some (some nSets))
    {r : Factory ι ε × Execution ι ε}
    (h : executeRecipe rule factory recipe demand nSets = some r) :
    r.2.iRecipe = demand.iRecipe ∧
      FluidPlanned factory inputTanks tanks recipe.fluids recipe.maxSets r.2 := by
  have hmult : ∀ target ∈ fluidTargets recipe.fluids, 0 < target.2.2 := by
    intro target htarget
    obtain ⟨input, hinput, -, htank⟩ := mem_fluidTargets.mp htarget
    exact (hok.positive input hinput).2 _ htank
  obtain ⟨hsets, hle, hroom, hforeign⟩ := narrow_spec hmult hpos hnarrow
  obtain ⟨hi, hn, htransfers, hreserved⟩ := executeRecipe_spec (fun input hinput =>
    (mul_pos (hok.positive input hinput).1 hsets).le) h
  have hneeded : ∀ input ∈ recipe.fluids, 0 < neededFluid recipe.fluids input.fluid :=
    fun input => neededFluid_pos fun i hi => (hok.positive i hi).1
  have havailable : ∀ input ∈ recipe.fluids, neededFluid recipe.fluids input.fluid * r.2.nSets ≤
      firstFluidAvailability factory recipe.fluids input.fluid := by
    intro input hinput
    rw [hn, mul_comm, ← le_tdiv_iff hsets (hneeded input hinput)]
    exact hle.trans (hbounds input hinput).2
  refine ⟨hi, by rw [hn]; omega, havailable, ?stored, ?bus, ?room, ?foreign, ?sent⟩
  case stored =>
    intro input hinput
    refine le_searchNFluid hbackup hok.backup (mul_pos (hneeded input hinput) ?_)
      (havailable input hinput)
    rwa [hn]
  case bus =>
    intro input hinput
    rw [hn, mul_comm, ← le_tdiv_iff hsets (hok.positive input hinput).1]
    exact hle.trans (hbounds input hinput).1
  case room =>
    intro input hinput tank htank
    have htarget : (input.fluid, tank) ∈ fluidTargets recipe.fluids :=
      mem_fluidTargets.mpr ⟨input, hinput, rfl, htank⟩
    obtain ⟨m, hm, hfits⟩ := hroom _ htarget
    obtain ⟨slots, ts, hslots, hts, hmap⟩ := (existingFluids_spec hexisting tank.1).1 m hm
    refine ⟨slots, ts, hslots, hts, ?_⟩
    have hheld := (fluidMap_spec hmap input.fluid).1
    rw [AList.lookup_empty, Option.getD_none, zero_add] at hheld
    rw [htransfers, fluidTransfers_sentTo nSets hok.distinct htarget, ← hheld]
    exact hfits
  case foreign =>
    intro i slots ts hslots hts slot hslot tank htank fluid hfluid
    obtain ⟨m, hm⟩ := (existingFluids_spec hexisting i).2 (List.getElem?_eq_some_iff.mp hts).1
    obtain ⟨slots', ts', hslots', hts', hmap⟩ := (existingFluids_spec hexisting i).1 m hm
    obtain rfl : slots = slots' := Option.some.inj (hslots.symm.trans hslots')
    obtain rfl : ts = ts' := Option.some.inj (hts.symm.trans hts')
    have hmem := (fluidMap_spec hmap fluid).2.mpr (.inr ⟨slot, hslot, tank, htank, hfluid⟩)
    obtain ⟨⟨fluid', j, mult⟩, htarget, heq⟩ := hforeign i m fluid hm hmem
    obtain ⟨rfl, rfl⟩ := Prod.mk.inj heq
    obtain ⟨input, hinput, hfluid, htank⟩ := mem_fluidTargets.mp htarget
    exact ⟨input, hinput, hfluid, mult, htank⟩
  case sent =>
    intro iInput input hinput
    obtain ⟨reservation, hreservation, hsum⟩ := List.getElem?_of_forall₂ hreserved hinput
    refine ⟨reservation, hreservation, by rw [hsum, hn], ?_⟩
    rw [htransfers, fluidTransfers_sum nSets hinput, hsum]

/-- What is executed is a recipe that may be made, for one of the demands. -/
theorem run_executed [LinearOrder κ] {order : Enumeration ι}
    {rule : TopRule (Provider ε) Provider.priority} {scale : κ → ℤ → κ}
    {cfg : FluidSlottedConfig ι ε κ} {factory : Factory ι ε} {listings : List (Stacks ι)}
    {tanks : List (List Tank)} {r : Run ι ε}
    (h : run order rule scale cfg factory listings tanks = some r) {e : Execution ι ε}
    (he : r.executed = some e) : ∃ existing fluids demands demand recipe nSets,
      existingFluids cfg.inputTanks tanks = some fluids ∧
      computeFluidDemands order scale factory cfg.recipes = some demands ∧ demand ∈ demands ∧
      cfg.recipes[demand.iRecipe]? = some recipe ∧
      narrow existing fluids recipe demand.inputs = some (some nSets) ∧
      executeRecipe rule factory recipe demand nSets = some (r.factory, e) := by
  unfold run at h
  split at h
  · cases h
  · rename_i fluids hexisting
    simp only at h
    split at h
    · cases h
    · rename_i demands hdemands
      split at h
      · cases h
      · obtain rfl := Option.some.inj h
        cases he
      · rename_i demand nSets hloop
        obtain ⟨before, after, hcut, hturn, -⟩ := (recipeLoop_spec hloop).2 _ rfl
        simp only at hcut hturn
        split at h
        · cases h
        · rename_i recipe hrecipe
          obtain ⟨executed, hexecute, rfl⟩ := Option.map_eq_some_iff.mp h
          obtain rfl := Option.some.inj he
          have hmem : demand ∈ considered cfg.strictPriority demands := hcut ▸ by simp
          rw [judge, hrecipe] at hturn
          exact ⟨_, fluids, demands, demand, recipe, nSets, hexisting, hdemands,
            mem_of_mem_considered hmem, hrecipe, hturn, hexecute⟩

/-- What the fluid process executes is planned, if the bus has a capacity that an `i32` holds or
more. -/
theorem fluid_run_planned [LinearOrder κ] (order : Enumeration ι)
    (rule : TopRule (Provider ε) Provider.priority) (scale : κ → ℤ → κ)
    (cfg : FluidSlottedConfig ι ε κ) (factory : Factory ι ε) (listings : List (Stacks ι))
    (tanks : List (List Tank)) (r : Run ι ε)
    (hrecipes : ∀ recipe ∈ cfg.recipes, FluidRecipeOk recipe.fluids)
    (hbackup : ∀ fluid, 0 ≤ factory.fluidBackups fluid)
    (hcapacity : i32Min ≤ factory.fluidBusCapacity)
    (h : run order rule scale cfg factory listings tanks = some r) :
    ∀ e, r.executed = some e → ∃ recipe, cfg.recipes[e.iRecipe]? = some recipe ∧
      FluidPlanned factory cfg.inputTanks tanks recipe.fluids recipe.maxSets e := by
  intro e he
  obtain ⟨existing, fluids, demands, demand, recipe, nSets, hexisting, hdemands, hmem, hrecipe,
    hnarrow, hexecute⟩ := run_executed h he
  have hsize : ∀ recipe ∈ cfg.recipes, ∀ input ∈ recipe.fluids, 0 < input.size :=
    fun recipe hrecipe input hinput => ((hrecipes recipe hrecipe).positive input hinput).1
  obtain ⟨found, -, hfound, -, -, -, hpos, hbounds⟩ :=
    computeFluidDemands_spec hcapacity hsize hdemands hmem
  obtain rfl : recipe = found := Option.some.inj (hrecipe.symm.trans hfound)
  obtain ⟨hi, hplanned⟩ := execution_planned hbackup
    (hrecipes recipe (List.mem_of_getElem? hrecipe)) hexisting hpos hbounds hnarrow hexecute
  exact ⟨recipe, by rw [hi, hrecipe], hplanned⟩

end

/-! Water is sent to a tank. -/

def waterInto (size : ℤ) : FluidSlottedRecipe (Item ℤ) ℕ ℤ where
  outputs _ := some 1
  inputs := []
  maxSets := 4
  fluids := [⟨"Water", size, [(0, size)], false, 0, by simp⟩]

def waterConfig (size : ℤ) : FluidSlottedConfig (Item ℤ) ℕ ℤ where
  inputSlots := []
  inputTanks := [[0]]
  toExtract := none
  fluidExtract := none
  recipes := [waterInto size]
  strictPriority := false

/-- A factory with five thousand of water, for a fluid bus of some capacity. -/
def waterFactory (capacity : ℤ) : Factory (Item ℤ) ℕ where
  items := .empty
  fluidStorages := [⟨"Water", some 0, 8000, 5000, 5000⟩]
  fluidBackups _ := 500
  fluidBusCapacity := capacity

def waterRun (size capacity held : ℤ) : Option (Run (Item ℤ) ℕ) :=
  run ⟨id, fun l => List.Perm.refl (id l)⟩ (MaxHeap.firstTop _) (· * ·) (waterConfig size)
    (waterFactory capacity) [] [[⟨8000, held, some "Water"⟩]]

/-- Two sets are made of the four that the stock admits, as the bus holds no more. -/
theorem fluid_run_planned_water : ∃ r e, waterRun 1000 2500 1000 = some r ∧ r.executed = some e ∧
    e.nSets = 2 ∧ FluidPlanned (waterFactory 2500) [[0]] [[⟨8000, 1000, some "Water"⟩]]
      (waterInto 1000).fluids 4 e := by
  have hrun : (waterRun 1000 2500 1000).map
      (fun r => r.executed.map fun e => (e.iRecipe, e.nSets)) = some (some (0, 2)) := by decide +kernel
  obtain ⟨r, hr, hexecuted⟩ := Option.map_eq_some_iff.mp hrun
  obtain ⟨e, he, heq⟩ := Option.map_eq_some_iff.mp hexecuted
  obtain ⟨hi, hsets⟩ := Prod.mk.inj heq
  obtain ⟨recipe, hrecipe, hplanned⟩ := fluid_run_planned (κ := ℤ) ⟨id, List.Perm.refl⟩
    (MaxHeap.firstTop _) (· * ·) (waterConfig 1000) (waterFactory 2500) [] _ r
    (List.forall_mem_singleton.mpr ⟨by decide, by decide, by decide⟩)
    (fun _ => show (0 : ℤ) ≤ 500 by decide) (by decide) hr e he
  rw [hi] at hrecipe
  obtain rfl := Option.some.inj hrecipe
  exact ⟨r, e, hr, he, hsets, hplanned⟩

/-- A capacity below what an `i32` holds is cast to a number of sets that is positive. -/
theorem negative_bus_executes : ∃ r e, waterRun 1 (-(2 ^ 32 - 1)) 1 = some r ∧ r.executed = some e ∧
    FluidRecipeOk (waterInto 1).fluids ∧
    ∃ input ∈ (waterInto 1).fluids,
      (waterFactory (-(2 ^ 32 - 1))).fluidBusCapacity < input.size * e.nSets := by
  have hrun : (waterRun 1 (-(2 ^ 32 - 1)) 1).map (fun r => r.executed.map fun e => e.nSets) =
      some (some 1) := by decide +kernel
  obtain ⟨r, hr, hexecuted⟩ := Option.map_eq_some_iff.mp hrun
  obtain ⟨e, he, hsets⟩ := Option.map_eq_some_iff.mp hexecuted
  refine ⟨r, e, hr, he, ⟨by decide, by decide, by decide⟩, _, List.mem_singleton_self _, ?_⟩
  rw [hsets]
  decide

end FluidSlottedProcess
end OCRemote
