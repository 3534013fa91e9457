import OCRemote.Factory.FluidBus
import OCRemote.Lib.OrderedMap

/-! What `tanks_to_fluid_map` says of a fluid: the first slot that holds it, and how much of it
there is in all slots. -/

namespace OCRemote
open Tally

/-- How much of a fluid the tanks hold. -/
def fluidAmount (tanks : List Tank) (fluid : String) : ℤ :=
  (tanks.map fun tank => if tank.fluid = some fluid then tank.qty else 0).sum

def firstTank (tanks : List Tank) (fluid : String) : Option ℕ :=
  tanks.findIdx? fun tank => tank.fluid = some fluid

@[simp] theorem fluidAmount_cons (tank : Tank) (tanks : List Tank) (fluid : String) :
    fluidAmount (tank :: tanks) fluid =
      (if tank.fluid = some fluid then tank.qty else 0) + fluidAmount tanks fluid := by
  simp [fluidAmount]

theorem lookup_addFluid (fluid : String) (slot : ℕ) (qty : ℤ) (es : List (String × ℕ × ℤ))
    (fluid' : String) :
    (addFluid fluid slot qty es).lookup fluid' =
      if fluid' = fluid then
        some ((es.lookup fluid).elim (slot, qty) fun e => (e.1, e.2 + qty))
      else es.lookup fluid' := by
  induction es with
  | nil => simp [addFluid, OrderedMap.lookup_cons_ite]
  | cons e es ih =>
    obtain ⟨key, slot', qty'⟩ := e
    unfold addFluid
    by_cases hkey : key = fluid
    · subst hkey
      by_cases h : fluid' = key <;> simp [OrderedMap.lookup_cons_ite, h]
    · simp only [hkey, if_false, OrderedMap.lookup_cons_ite, ih]
      by_cases h : fluid' = fluid
      · subst h
        simp [Ne.symm hkey]
      · simp [h]

/-- Adding goes on from the entry that there is, or begins with the first tank of the fluid. -/
theorem lookup_addTanksToFluidMap (slot : ℕ) (tanks : List Tank) (result : List (String × ℕ × ℤ))
    (fluid : String) :
    (addTanksToFluidMap slot tanks result).lookup fluid =
      match result.lookup fluid with
      | some e => some (e.1, e.2 + fluidAmount tanks fluid)
      | none => (firstTank tanks fluid).map fun j => (slot + j, fluidAmount tanks fluid) := by
  induction tanks generalizing slot result with
  | nil =>
    unfold addTanksToFluidMap
    cases result.lookup fluid <;> simp [firstTank, fluidAmount]
  | cons tank tanks ih =>
    have hfirst : firstTank (tank :: tanks) fluid =
        if tank.fluid = some fluid then some 0 else (firstTank tanks fluid).map (· + 1) := by
      simp [firstTank, List.findIdx?_cons]
    rw [hfirst, fluidAmount_cons]
    unfold addTanksToFluidMap
    cases hfluid : tank.fluid with
    | none =>
      rw [ih]
      cases result.lookup fluid <;> simp [Function.comp_def, add_assoc, add_comm 1]
    | some other =>
      simp only [ih, lookup_addFluid, Option.some.injEq]
      by_cases h : fluid = other
      · subst h
        cases result.lookup fluid <;> simp [add_assoc]
      · cases result.lookup fluid <;> simp [h, Ne.symm h, Function.comp_def, add_assoc, add_comm 1]

theorem lookup_tanksToFluidMap (tanks : List Tank) (fluid : String) :
    (tanksToFluidMap tanks).lookup fluid =
      (firstTank tanks fluid).map fun j => (j, fluidAmount tanks fluid) := by
  rw [tanksToFluidMap, lookup_addTanksToFluidMap]
  simp

theorem firstTank_eq_some {tanks : List Tank} {fluid : String} {j : ℕ}
    (h : firstTank tanks fluid = some j) :
    ∃ tank, tanks[j]? = some tank ∧ tank.fluid = some fluid := by
  obtain ⟨hj, htank, -⟩ := List.findIdx?_eq_some_iff_getElem.mp h
  exact ⟨tanks[j], List.getElem?_eq_getElem hj, by simpa using htank⟩

theorem firstTank_isSome {tanks : List Tank} {fluid : String} :
    (firstTank tanks fluid).isSome ↔ ∃ tank ∈ tanks, tank.fluid = some fluid := by
  simp [firstTank]

theorem keys_addFluid (fluid : String) (slot : ℕ) (qty : ℤ) (es : List (String × ℕ × ℤ)) :
    (addFluid fluid slot qty es).map Prod.fst =
      if fluid ∈ es.map Prod.fst then es.map Prod.fst else es.map Prod.fst ++ [fluid] := by
  induction es with
  | nil => rfl
  | cons e es ih =>
    unfold addFluid
    by_cases h : e.1 = fluid
    · simp [h]
    · simp only [h, if_false, List.map_cons, ih, List.mem_cons, Ne.symm h, false_or]
      split_ifs <;> rfl

theorem nodup_addTanksToFluidMap (slot : ℕ) (tanks : List Tank) {result : List (String × ℕ × ℤ)}
    (h : (result.map Prod.fst).Nodup) :
    ((addTanksToFluidMap slot tanks result).map Prod.fst).Nodup := by
  induction tanks generalizing slot result with
  | nil => exact h
  | cons tank tanks ih =>
    unfold addTanksToFluidMap
    split
    · exact ih _ h
    · rename_i fluid _
      apply ih
      rw [keys_addFluid]
      split_ifs with hmem
      · exact h
      · exact List.nodup_append_comm.mp (List.nodup_cons.mpr ⟨hmem, h⟩)

theorem nodup_tanksToFluidMap (tanks : List Tank) : ((tanksToFluidMap tanks).map Prod.fst).Nodup :=
  nodup_addTanksToFluidMap 0 tanks List.nodup_nil

/-- The map has one entry for each fluid, with its first tank and its amount. -/
theorem mem_tanksToFluidMap {tanks : List Tank} {e : String × ℕ × ℤ} :
    e ∈ tanksToFluidMap tanks ↔
      firstTank tanks e.1 = some e.2.1 ∧ e.2.2 = fluidAmount tanks e.1 := by
  obtain ⟨fluid, slot, qty⟩ := e
  have hnodup := nodup_tanksToFluidMap tanks
  have hlookup := lookup_tanksToFluidMap tanks fluid
  constructor
  · intro hmem
    obtain ⟨l₁, l₂, hcut⟩ := List.append_of_mem hmem
    rw [hcut, List.map_append, List.map_cons] at hnodup
    have hfirst := (List.nodup_cons.mp (List.nodup_middle.mp hnodup)).1
    have hfind : (tanksToFluidMap tanks).lookup fluid = some (slot, qty) := by
      refine List.lookup_eq_some_iff.mpr ⟨l₁, l₂, hcut, fun p hp => ?_⟩
      rw [bne_iff_ne]
      rintro rfl
      exact hfirst (List.mem_append_left _ (List.mem_map.mpr ⟨p, hp, rfl⟩))
    rw [hfind] at hlookup
    obtain ⟨j, hj, heq⟩ := Option.map_eq_some_iff.mp hlookup.symm
    obtain ⟨rfl, rfl⟩ := Prod.mk.inj heq
    exact ⟨hj, rfl⟩
  · rintro ⟨hslot, hqty⟩
    simp only at hslot hqty
    rw [hslot, ← hqty, Option.map_some] at hlookup
    obtain ⟨l₁, l₂, hcut, -⟩ := List.lookup_eq_some_iff.mp hlookup
    rw [hcut]
    simp

theorem fluidAmount_eq_zero {tanks : List Tank} {fluid : String}
    (h : firstTank tanks fluid = none) : fluidAmount tanks fluid = 0 := by
  apply List.sum_eq_zero
  intro n hn
  obtain ⟨tank, htank, rfl⟩ := List.mem_map.mp hn
  refine if_neg fun hfluid => ?_
  have hsome := firstTank_isSome.mpr ⟨tank, htank, hfluid⟩
  simp [h] at hsome

/-- By fluid the map holds all that the tanks hold. -/
theorem sumOf_fluid_tanksToFluidMap (tanks : List Tank) (fluid : String) :
    sumOf fluid ((tanksToFluidMap tanks).map fun e => (e.1, e.2.2)) = fluidAmount tanks fluid := by
  cases hfirst : firstTank tanks fluid with
  | none =>
    rw [fluidAmount_eq_zero hfirst]
    refine sumOf_eq_zero fun d hd heq => ?_
    obtain ⟨e, he, rfl⟩ := List.mem_map.mp hd
    have hentry := (mem_tanksToFluidMap.mp he).1
    rw [show e.1 = fluid from heq, hfirst] at hentry
    cases hentry
  | some j =>
    have hmem : (fluid, fluidAmount tanks fluid) ∈
        (tanksToFluidMap tanks).map fun e => (e.1, e.2.2) :=
      List.mem_map.mpr ⟨(fluid, j, _), mem_tanksToFluidMap.mpr ⟨hfirst, rfl⟩, rfl⟩
    refine sumOf_of_nodup ?_ hmem
    rw [List.map_map]
    exact nodup_tanksToFluidMap tanks

/-- By slot the map holds everything at the first tank of a fluid. -/
theorem sumOf_slot_tanksToFluidMap {tanks : List Tank} {slot : ℕ} {tank : Tank}
    (htank : tanks[slot]? = some tank) :
    sumOf slot ((tanksToFluidMap tanks).map Prod.snd) = tank.fluid.elim 0 fun fluid =>
      if firstTank tanks fluid = some slot then fluidAmount tanks fluid else 0 := by
  -- an entry for the slot is for the fluid that the tank holds
  have hentry (e : String × ℕ × ℤ) (he : e ∈ tanksToFluidMap tanks) (hslot : e.2.1 = slot) :
      tank.fluid = some e.1 := by
    obtain ⟨tank', htank', hfluid⟩ := firstTank_eq_some (mem_tanksToFluidMap.mp he).1
    rw [hslot, htank] at htank'
    rw [Option.some.inj htank', hfluid]
  by_cases hfirst : ∃ fluid, tank.fluid = some fluid ∧ firstTank tanks fluid = some slot
  · obtain ⟨fluid, hfluid, hfirst⟩ := hfirst
    have hmem : (slot, fluidAmount tanks fluid) ∈ (tanksToFluidMap tanks).map Prod.snd :=
      List.mem_map.mpr ⟨(fluid, _), mem_tanksToFluidMap.mpr ⟨hfirst, rfl⟩, rfl⟩
    rw [hfluid, Option.elim_some, if_pos hfirst]
    refine sumOf_of_nodup ?_ hmem
    rw [List.map_map]
    refine (List.Nodup.of_map _ (nodup_tanksToFluidMap tanks)).map_on fun e he e' he' heq => ?_
    obtain ⟨hslot, hqty⟩ := mem_tanksToFluidMap.mp he
    obtain ⟨hslot', hqty'⟩ := mem_tanksToFluidMap.mp he'
    obtain ⟨first, hget, hfluid⟩ := firstTank_eq_some hslot
    obtain ⟨first', hget', hfluid'⟩ := firstTank_eq_some hslot'
    have heq : e.2.1 = e'.2.1 := heq
    rw [heq, hget'] at hget
    obtain rfl := Option.some.inj hget
    have hkey : e.1 = e'.1 := Option.some.inj (hfluid.symm.trans hfluid')
    exact Prod.ext hkey (Prod.ext heq (by rw [hqty, hqty', hkey]))
  · rw [sumOf_eq_zero fun d hd heq => ?_]
    · cases hfluid : tank.fluid with
      | none => rfl
      | some fluid => rw [Option.elim_some, if_neg fun h => hfirst ⟨fluid, hfluid, h⟩]
    · obtain ⟨e, he, rfl⟩ := List.mem_map.mp hd
      have heq : e.2.1 = slot := heq
      exact hfirst ⟨e.1, hentry e he heq, heq ▸ (mem_tanksToFluidMap.mp he).1⟩

/-- No fluid is in two of the tanks. -/
def DistinctFluids (tanks : List Tank) : Prop :=
  ∀ (j k : ℕ) (tank tank' : Tank) (fluid : String), tanks[j]? = some tank →
    tanks[k]? = some tank' → tank.fluid = some fluid → tank'.fluid = some fluid → j = k

theorem DistinctFluids.fluidAmount_eq {tanks : List Tank} (h : DistinctFluids tanks) {slot : ℕ}
    {tank : Tank} {fluid : String} (htank : tanks[slot]? = some tank)
    (hfluid : tank.fluid = some fluid) : fluidAmount tanks fluid = tank.qty := by
  have hsum : fluidAmount tanks fluid =
      sumOf (some fluid) (tanks.map fun tank => (tank.fluid, tank.qty)) := by
    simp [fluidAmount, sumOf, Function.comp_def]
  have hget : (tanks.map fun tank => (tank.fluid, tank.qty))[slot]? =
      some (tank.fluid, tank.qty) := by
    rw [List.getElem?_map, htank, Option.map_some]
  rw [hsum, sumOf_eraseIdx hget, if_pos hfluid, sumOf_eq_zero, add_zero]
  intro d hd heq
  obtain ⟨j, hj, hne⟩ := List.mem_eraseIdx_iff_getElem?.mp hd
  rw [List.getElem?_map] at hne
  obtain ⟨tank', htank', rfl⟩ := Option.map_eq_some_iff.mp hne
  exact hj (h j slot tank' tank fluid htank' htank heq hfluid)

end OCRemote
