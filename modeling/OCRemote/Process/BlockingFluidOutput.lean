import OCRemote.Factory.FluidMap

/-! `BlockingFluidOutputProcess`, which extracts the fluids that are wanted from its tanks. It takes
the amount in the map of the fluids for the slot. -/

namespace OCRemote

structure FluidOutput where
  fluid : String
  nWanted : ℤ
  deriving DecidableEq

namespace BlockingFluidOutput

/-- The `transferFluid` request of an output. -/
structure Request where
  output : FluidOutput
  qty : ℤ
  sourceSlot : ℤ
  deriving DecidableEq

def enough (storages : List FluidStorage) (outputs : List FluidOutput) : Bool :=
  outputs.all fun output => output.nWanted ≤ searchNFluid storages output.fluid

/-- One turn of the loop over the outputs, with the map of the tanks that were read. -/
def request (storages : List FluidStorage) (tanks : List (String × ℕ × ℤ)) (output : FluidOutput) :
    Option Request :=
  (tanks.lookup output.fluid).bind fun (_, slot) =>
    let nStored := searchNFluid storages output.fluid
    let qty := output.nWanted - nStored
    if 0 < qty then some ⟨output, qty, slot + 1⟩ else none

def requests (storages : List FluidStorage) (outputs : List FluidOutput) (tanks : List Tank) :
    List Request := outputs.filterMap (request storages (tanksToFluidMap tanks))

/-- No value means that the tanks are not read. The storages may change until they are. -/
def run (before storages : List FluidStorage) (outputs : List FluidOutput) (tanks : List Tank) :
    Option (List Request) :=
  if enough before outputs then none else some (requests storages outputs tanks)

/-- There is a tank with the fluid of an output that is below its wanted amount. -/
def Due (storages : List FluidStorage) (tanks : List Tank) (output : FluidOutput) : Prop :=
  (∃ tank ∈ tanks, tank.fluid = some output.fluid) ∧
    searchNFluid storages output.fluid < output.nWanted

/-- The tank in the slot, counted from one, holds the fluid. -/
def HoldsFluid (tanks : List Tank) (fluid : String) (sourceSlot : ℤ) : Prop :=
  ∃ (slot : ℕ) (tank : Tank), tanks[slot]? = some tank ∧ tank.fluid = some fluid ∧
    sourceSlot = slot + 1

/-- What the requests should be. -/
structure Right (storages : List FluidStorage) (outputs : List FluidOutput) (tanks : List Tank)
    (requests : List Request) : Prop where
  slot : ∀ r ∈ requests, HoldsFluid tanks r.output.fluid r.sourceSlot
  qty : ∀ r ∈ requests, 0 < r.qty ∧
    r.qty ≤ r.output.nWanted - searchNFluid storages r.output.fluid
  one : ∀ output ∈ outputs, Due storages tanks output →
    (requests.filter fun r => r.output = output).length = 1

/-- An output that is due has its request, with the amount in all tanks as the slot. -/
theorem request_eq_some {storages : List FluidStorage} {tanks : List Tank} {output : FluidOutput}
    {r : Request} : request storages (tanksToFluidMap tanks) output = some r ↔
      Due storages tanks output ∧ r = ⟨output,
        output.nWanted - searchNFluid storages output.fluid, fluidAmount tanks output.fluid + 1⟩ := by
  have hfirst := @firstTank_isSome tanks output.fluid
  unfold request Due
  rw [lookup_tanksToFluidMap, ← hfirst]
  cases firstTank tanks output.fluid with
  | none => simp
  | some j =>
    simp only [Option.map_some, Option.bind_some, Option.isSome_some, true_and, sub_pos,
      Option.ite_none_right_eq_some, Option.some.injEq]
    exact and_congr_right fun _ => eq_comm

theorem mem_requests {storages : List FluidStorage} {outputs : List FluidOutput} {tanks : List Tank}
    {r : Request} : r ∈ requests storages outputs tanks ↔ r.output ∈ outputs ∧
      Due storages tanks r.output ∧
      r.qty = r.output.nWanted - searchNFluid storages r.output.fluid ∧
      r.sourceSlot = fluidAmount tanks r.output.fluid + 1 := by
  obtain ⟨output, qty, sourceSlot⟩ := r
  simp only [requests, List.mem_filterMap, request_eq_some, Request.mk.injEq]
  constructor
  · rintro ⟨_, hmem, hdue, rfl, rfl, rfl⟩
    exact ⟨hmem, hdue, rfl, rfl⟩
  · rintro ⟨hmem, hdue, rfl, rfl⟩
    exact ⟨output, hmem, hdue, rfl, rfl, rfl⟩

/-- Outputs of distinct fluids have one request each. -/
theorem length_requests {storages : List FluidStorage} {outputs : List FluidOutput}
    {tanks : List Tank} (hdistinct : (outputs.map FluidOutput.fluid).Nodup) {output : FluidOutput}
    (hmem : output ∈ outputs) (hdue : Due storages tanks output) :
    ((requests storages outputs tanks).filter fun r => r.output = output).length = 1 := by
  obtain ⟨before, after, rfl⟩ := List.append_of_mem hmem
  have hnodup := List.nodup_middle.mp (List.Nodup.of_map _ hdistinct)
  have hnone (l : List FluidOutput) (hl : output ∉ l) :
      (requests storages l tanks).filter (fun r => r.output = output) = [] := by
    rw [List.filter_eq_nil_iff]
    intro r hr heq
    obtain ⟨hr, -⟩ := mem_requests.mp hr
    exact hl ((of_decide_eq_true heq) ▸ hr)
  have hcut : requests storages (before ++ output :: after) tanks =
      requests storages before tanks ++ ⟨output, output.nWanted -
        searchNFluid storages output.fluid, fluidAmount tanks output.fluid + 1⟩ ::
          requests storages after tanks := by
    rw [requests, List.filterMap_append,
      List.filterMap_cons_some (request_eq_some.mpr ⟨hdue, rfl⟩)]
    rfl
  have hmem' := (List.nodup_cons.mp hnodup).1
  rw [hcut, List.filter_append, List.filter_cons_of_pos (by simp),
    hnone before fun h => hmem' (List.mem_append_left _ h),
    hnone after fun h => hmem' (List.mem_append_right _ h)]
  rfl

/-- The requests are right exactly when, for every output that is due, the amount of its fluid in
all tanks, taken as a slot, is the slot of a tank that holds the fluid. -/
theorem run_right_iff {before storages : List FluidStorage} {outputs : List FluidOutput}
    {tanks : List Tank} (hdistinct : (outputs.map FluidOutput.fluid).Nodup) {rs : List Request}
    (hrun : run before storages outputs tanks = some rs) :
    Right storages outputs tanks rs ↔ ∀ output ∈ outputs, Due storages tanks output →
      ∃ (slot : ℕ) (tank : Tank), tanks[slot]? = some tank ∧ tank.fluid = some output.fluid ∧
        (slot : ℤ) = fluidAmount tanks output.fluid := by
  unfold run at hrun
  split_ifs at hrun with henough
  obtain rfl := Option.some.inj hrun
  constructor
  · intro hright output hmem hdue
    have hr : (⟨output, output.nWanted - searchNFluid storages output.fluid,
        fluidAmount tanks output.fluid + 1⟩ : Request) ∈ requests storages outputs tanks :=
      mem_requests.mpr ⟨hmem, hdue, rfl, rfl⟩
    obtain ⟨slot, tank, htank, hfluid, hslot⟩ := hright.slot _ hr
    exact ⟨slot, tank, htank, hfluid, by simpa using hslot.symm⟩
  · intro hslots
    refine ⟨fun r hr => ?_, fun r hr => ?_, fun output hmem hdue => ?_⟩
    · obtain ⟨hmem, hdue, -, hsource⟩ := mem_requests.mp hr
      obtain ⟨slot, tank, htank, hfluid, hslot⟩ := hslots r.output hmem hdue
      exact ⟨slot, tank, htank, hfluid, by rw [hsource, hslot]⟩
    · obtain ⟨-, hdue, hqty, -⟩ := mem_requests.mp hr
      have hlt := hdue.2
      omega
    · exact length_requests hdistinct hmem hdue

/-- A tank that holds one bucket of water and no more tanks: slot 1001 is asked for. -/
theorem run_wrong_water :
    run [] [] [⟨"water", 1000⟩] [⟨16000, 1000, some "water"⟩] =
      some [⟨⟨"water", 1000⟩, 1000, 1001⟩] ∧
    ¬ Right [] [⟨"water", 1000⟩] [⟨16000, 1000, some "water"⟩]
      [⟨⟨"water", 1000⟩, 1000, 1001⟩] := by
  refine ⟨by decide, fun hright => ?_⟩
  obtain ⟨slot, tank, htank, -, hslot⟩ := hright.slot _ (List.mem_singleton_self _)
  obtain ⟨hlt, -⟩ := List.getElem?_eq_some_iff.mp htank
  simp only [List.length_singleton] at hlt hslot
  omega

/-- One unit of water in the second tank happens to name that tank. -/
theorem run_right_iff_unit :
    Right [] [⟨"water", 1000⟩] [⟨16000, 0, none⟩, ⟨16000, 1, some "water"⟩]
      [⟨⟨"water", 1000⟩, 1000, 2⟩] := by
  have hrun : run [] [] [⟨"water", 1000⟩] [⟨16000, 0, none⟩, ⟨16000, 1, some "water"⟩] =
      some [⟨⟨"water", 1000⟩, 1000, 2⟩] := by decide
  refine (run_right_iff (by decide) hrun).mpr fun output hmem _ => ?_
  obtain rfl := List.mem_singleton.mp hmem
  exact ⟨1, _, rfl, rfl, by decide⟩

end BlockingFluidOutput
end OCRemote
