import OCRemote.Process.JobKinds

/-! The jobs that the processes start are balanced: for each input as much is transferred as was
extracted. So they release the slots that they are granted once and empty. -/

namespace OCRemote
open Tally

/-! What is transferred for an input and what is extracted for it are the same. -/

/-- A plan that transfers for each input parts that sum up to what is extracted for it. -/
theorem JobPlan.Balanced.of_parts {plan : JobPlan} (parts : List (List ℤ))
    (hload : ∀ size, .load size ∈ plan.actions → plan.inputs ≠ [] ∧ plan.ending ≠ .free)
    (hunloads : plan.unloads = parts.zipIdx.flatMap fun p => p.1.map (Prod.mk p.2))
    (hparts : List.Forall₂ (fun part (input : BusKind × List ℤ) => part.sum = input.2.sum) parts
      plan.inputs) : plan.Balanced := by
  refine ⟨hload, fun d hd => ?_, fun i => ?_⟩
  · rw [hunloads] at hd
    obtain ⟨p, hp, hd⟩ := List.mem_flatMap.mp hd
    obtain ⟨size, -, rfl⟩ := List.mem_map.mp hd
    have hi := (List.getElem?_eq_some_iff.mp (List.mk_mem_zipIdx_iff_getElem?.mp hp)).1
    exact hi.trans_eq hparts.length_eq
  · have hsum := sumOf_zipIdx id parts 0 i
    rw [zero_add] at hsum
    rw [hunloads]
    refine hsum.trans ?_
    cases hpart : parts[i]? with
    | some part =>
      obtain ⟨input, hinput, heq⟩ := List.getElem?_of_forall₂ hparts hpart
      rw [hinput]
      exact heq
    | none =>
      have hnone : plan.inputs[i]? = none := by
        rw [List.getElem?_eq_none_iff] at hpart ⊢
        exact hparts.length_eq ▸ hpart
      rw [hnone]
      rfl

/-- A plan that only transfers out of its slots. -/
theorem JobPlan.Balanced.of_transfers {plan : JobPlan} (transfers : List (ℕ × ℤ))
    (hactions : plan.actions = transfers.map fun transfer => .unload transfer.1 transfer.2)
    (parts : List (List ℤ))
    (htransfers : transfers = parts.zipIdx.flatMap fun p => p.1.map (Prod.mk p.2))
    (hparts : List.Forall₂ (fun part (input : BusKind × List ℤ) => part.sum = input.2.sum) parts
      plan.inputs) : plan.Balanced := by
  refine .of_parts parts (fun size hsize => ?_) ?_ hparts
  · simp [hactions] at hsize
  · rw [JobPlan.unloads, hactions, List.filterMap_map, ← htransfers]
    exact List.filterMap_some

/-- A plan for a slot that is only transferred into. -/
theorem JobPlan.Balanced.of_load (bus : BusKind) (size : Option ℤ) :
    JobPlan.Balanced ⟨[(bus, [])], [.load size], .deposit⟩ := by
  refine .of_parts [[]] ?_ ?_ ?_
  · exact fun _ _ => ⟨List.cons_ne_nil _ _, nofun⟩
  · rfl
  · exact .cons rfl .nil

section
variable {ι ε κ : Type}

namespace Slotted
variable {α : Type}

theorem transfers_eq (nSets : ℤ) (first : ℕ) (inputs : List (SlotInput α ι)) :
    transfers nSets first inputs = (inputs.zipIdx first).flatMap fun p =>
      p.1.slots.map fun slot => (p.2, slot.1, nSets * slot.2) := by
  induction inputs generalizing first with
  | nil => rfl
  | cons input inputs ih => rw [transfers, ih, List.zipIdx_cons, List.flatMap_cons]

/-- What is transferred for each input. -/
def partsOf (nSets : ℤ) (inputs : List (SlotInput α ι)) : List (List ℤ) :=
  inputs.map fun input => input.slots.map fun slot => nSets * slot.2

theorem transfers_parts (nSets : ℤ) (inputs : List (SlotInput α ι)) :
    (transfers nSets 0 inputs).map (fun t => (t.1, t.2.2)) =
      (partsOf nSets inputs).zipIdx.flatMap fun p => p.1.map (Prod.mk p.2) := by
  rw [transfers_eq, partsOf, List.zipIdx_map, List.flatMap_map, List.map_flatMap]
  simp [Function.comp_def]

theorem partsOf_sum (nSets : ℤ) {input : SlotInput α ι}
    (h : input.size = (input.slots.map Prod.snd).sum) :
    (input.slots.map fun slot => nSets * slot.2).sum = nSets * input.size := by
  rw [h, ← List.sum_map_mul_left]

/-- What is transferred for each input is what its reservation has. -/
theorem partsOf_forall₂ {nSets : ℤ} {inputs : List (SlotInput α ι)}
    (hsize : ∀ input ∈ inputs, input.size = (input.slots.map Prod.snd).sum)
    {reservations : List (Reservation ε)}
    (hreserved : List.Forall₂ (fun size reservation => reservation.sizes.sum = nSets * size)
      (inputs.map fun input => input.size) reservations) :
    List.Forall₂ (fun part (input : BusKind × List ℤ) => part.sum = input.2.sum)
      (partsOf nSets inputs) (reservations.map fun reservation => (.item, reservation.sizes)) := by
  rw [partsOf, List.forall₂_map_left_iff, List.forall₂_map_right_iff]
  rw [List.forall₂_map_left_iff] at hreserved
  refine ((List.forall₂_and_left _ _).mpr ⟨hsize, hreserved⟩).imp fun input reservation h => ?_
  exact (partsOf_sum nSets h.1).trans h.2.symm

variable [DecidableEq ι]

theorem reserveInputs_spec {rule : TopRule (Provider ε) Provider.priority} {nSets : ℤ}
    {items : ItemTable ι ε} {inputs : List (ι × ℤ)} (hpos : ∀ input ∈ inputs, 0 ≤ nSets * input.2)
    {r : ItemTable ι ε × List (Reservation ε)}
    (h : reserveInputs rule nSets items inputs = some r) :
    List.Forall₂ (fun size reservation => reservation.sizes.sum = nSets * size)
      (inputs.map Prod.snd) r.2 := by
  induction inputs generalizing items r with
  | nil =>
    obtain rfl := Option.some.inj h
    exact .nil
  | cons input inputs ih =>
    obtain ⟨hfirst, hpos⟩ := List.forall_mem_cons.mp hpos
    rw [reserveInputs] at h
    split at h
    · cases h
    · rename_i items' reservation hreserve
      obtain ⟨rest, hrest, rfl⟩ := Option.map_eq_some_iff.mp h
      exact .cons (ItemTable.reserveItem_sum hfirst hreserve) (ih hpos hrest)

/-- For each input of a recipe as much is reserved as its sets take. -/
theorem reserveInputs_sizes {rule : TopRule (Provider ε) Provider.priority} {nSets : ℤ}
    {table : ItemTable ι ε} {items : List ι} {sizes : List ℤ} (hlen : items.length = sizes.length)
    (hpos : ∀ size ∈ sizes, 0 ≤ nSets * size) {r : ItemTable ι ε × List (Reservation ε)}
    (h : reserveInputs rule nSets table (items.zip sizes) = some r) :
    List.Forall₂ (fun size reservation => reservation.sizes.sum = nSets * size) sizes r.2 := by
  have hsnd : (items.zip sizes).map Prod.snd = sizes := List.map_snd_zip hlen.ge
  have hreserved := reserveInputs_spec
    (fun input hinput => hpos input.2 (List.of_mem_zip hinput).2) h
  rwa [hsnd] at hreserved

omit [DecidableEq ι] in
/-- A job that transfers for each input what its reservation has. -/
theorem Execution.job_balanced {execution : Slotted.Execution α ι ε} {nSets : ℤ}
    {inputs : List (SlotInput α ι)}
    (hsize : ∀ input ∈ inputs, input.size = (input.slots.map Prod.snd).sum)
    (htransfers : execution.transfers = Slotted.transfers nSets 0 inputs)
    (hreserved : List.Forall₂ (fun size reservation => reservation.sizes.sum = nSets * size)
      (inputs.map fun input => input.size) execution.reservations) : execution.job.Balanced := by
  refine .of_transfers (execution.transfers.map fun t => (t.1, t.2.2)) ?_ _
    (by rw [htransfers, transfers_parts]) (partsOf_forall₂ hsize hreserved)
  rw [Execution.job, List.map_map]
  rfl

theorem executeRecipe_spec {rule : TopRule (Provider ε) Provider.priority} {factory : Factory ι ε}
    {recipe : SlotRecipe α ι ε κ} (hsize : ∀ input ∈ recipe.inputs, 0 ≤ input.size)
    {demand : Demand ι κ} (hlen : demand.inputs.items.length = recipe.inputs.length) {nSets : ℤ}
    (hpos : 0 < nSets) {r : Factory ι ε × Slotted.Execution α ι ε}
    (h : executeRecipe rule factory recipe demand nSets = some r) :
    r.2.transfers = transfers nSets 0 recipe.inputs ∧
      List.Forall₂ (fun size reservation => reservation.sizes.sum = nSets * size)
        (recipe.inputs.map fun input => input.size) r.2.reservations := by
  obtain ⟨reserved, hreserved, rfl⟩ := Option.map_eq_some_iff.mp h
  refine ⟨rfl, reserveInputs_sizes (by simp [hlen]) (fun size hmem => ?_) hreserved⟩
  obtain ⟨input, hinput, rfl⟩ := List.mem_map.mp hmem
  exact mul_nonneg hpos.le (hsize input hinput)

variable [ItemClass ι]

theorem slotInputs_nonneg {order : Enumeration ι} {t : ItemTable ι ε} {inputs : List (SlotInput α ι)}
    {r : ResolvedInputs ι}
    (h : resolveInputs order t (inputs.map SlotInput.toInput) = some (some r)) :
    ∀ input ∈ inputs, 0 ≤ input.size :=
  fun input hinput => (resolveInputs_pos h _ (List.mem_map.mpr ⟨input, hinput, rfl⟩)).le

variable [DecidableEq α]

/-- What is executed is a recipe that may be made, for one of the demands. -/
theorem plan_executed {rule : TopRule (Provider ε) Provider.priority} {factory : Factory ι ε}
    {recipes : List (SlotRecipe α ι ε κ)} {found : Found α ι} {demands : List (Demand ι κ)}
    {run : Run α ι ε} (h : plan rule factory recipes found demands = some run)
    {execution : Slotted.Execution α ι ε} (he : run.executed = some execution) :
    ∃ d ∈ demands, ∃ recipe nSets, recipes[d.iRecipe]? = some recipe ∧
      narrow found.existing recipe d.inputs = some (some nSets) ∧
      executeRecipe rule factory recipe d nSets = some (run.factory, execution) := by
  unfold plan at h
  split at h
  · cases h
  · obtain rfl := Option.some.inj h
    cases he
  · rename_i demand nSets hloop
    obtain ⟨before, after, rfl, hturn, -⟩ := (recipeLoop_spec hloop).2 _ rfl
    split at h
    · cases h
    · rename_i recipe hrecipe
      obtain ⟨r, hr, rfl⟩ := Option.map_eq_some_iff.mp h
      obtain rfl := Option.some.inj he
      simp only [judge, hrecipe] at hturn
      exact ⟨demand, by simp, recipe, nSets, hrecipe, hturn, hr⟩

/-- The job of a recipe of the process. -/
theorem plan_balanced {order : Enumeration ι} {rule : TopRule (Provider ε) Provider.priority}
    {factory : Factory ι ε} {recipes : List (SlotRecipe α ι ε κ)}
    (hbuilt : ∀ recipe ∈ recipes, recipe.Built) {found : Found α ι} {demands : List (Demand ι κ)}
    (hdemands : ∀ d ∈ demands, ∃ recipe, recipes[d.iRecipe]? = some recipe ∧
      resolveInputs order factory.items (recipe.inputs.map SlotInput.toInput) = some (some d.inputs))
    {run : Run α ι ε} (h : plan rule factory recipes found demands = some run)
    {execution : Slotted.Execution α ι ε} (he : run.executed = some execution) :
    execution.job.Balanced := by
  obtain ⟨d, hd, recipe, nSets, hrecipe, hnarrow, hexecute⟩ := plan_executed h he
  obtain ⟨recipe', hrecipe', hinputs⟩ := hdemands d hd
  obtain rfl : recipe = recipe' := Option.some.inj (hrecipe.symm.trans hrecipe')
  have hbuilt := hbuilt recipe (List.mem_of_getElem? hrecipe)
  obtain ⟨hpos, hlen, -⟩ := resolveInputs_found hinputs
  rw [List.length_map] at hlen
  obtain ⟨htransfers, hreserved⟩ := executeRecipe_spec (slotInputs_nonneg hinputs) hlen
    (FluidSlottedProcess.slotted_narrow_le hpos hnarrow).1 hexecute
  exact Execution.job_balanced hbuilt htransfers hreserved

end Slotted
end

section
variable {ι ε κ : Type}

namespace FluidSlottedProcess
open Slotted

/-- What is transferred for each fluid. -/
def fluidPartsOf (nSets : ℤ) (fluids : List FluidSlottedInput) : List (List ℤ) :=
  fluids.map fun input => input.tanks.map fun tank => nSets * tank.2

theorem fluidTransfers_parts (nSets : ℤ) (first : ℕ) (fluids : List FluidSlottedInput) :
    (fluidTransfers nSets 0 fluids).map (fun t => (first + t.1, t.2.2)) =
      ((fluidPartsOf nSets fluids).zipIdx first).flatMap fun p => p.1.map (Prod.mk p.2) := by
  rw [fluidTransfers_eq, fluidPartsOf, List.zipIdx_map, List.flatMap_map, List.map_flatMap]
  conv_rhs => rw [List.zipIdx_eq_map_add, List.flatMap_map]
  simp [Function.comp_def]

theorem fluidPartsOf_forall₂ {nSets : ℤ} {fluids : List FluidSlottedInput}
    {reservations : List (List (ℕ × ℤ))}
    (hreserved : List.Forall₂ (fun input reservation =>
      (reservation.map Prod.snd).sum = input.size * nSets) fluids reservations) :
    List.Forall₂ (fun part (input : BusKind × List ℤ) => part.sum = input.2.sum)
      (fluidPartsOf nSets fluids)
      (reservations.map fun reservation => (.fluid, reservation.map Prod.snd)) := by
  rw [fluidPartsOf, List.forall₂_map_left_iff, List.forall₂_map_right_iff]
  refine hreserved.imp fun input reservation hsum => ?_
  rw [hsum, input.size_eq, mul_comm, ← List.sum_map_mul_left]

/-- The buses for the fluids come after the slots. -/
theorem Execution.job_balanced {execution : Execution ι ε} {nSets : ℤ}
    {inputs : List (SlotInput (ℕ × ℕ) ι)} {fluids : List FluidSlottedInput}
    (hsize : ∀ input ∈ inputs, input.size = (input.slots.map Prod.snd).sum)
    (htransfers : execution.transfers = Slotted.transfers nSets 0 inputs)
    (hreserved : List.Forall₂ (fun size reservation => reservation.sizes.sum = nSets * size)
      (inputs.map fun input => input.size) execution.reservations)
    (hfluidTransfers :
      execution.fluidTransfers = FluidSlottedProcess.fluidTransfers nSets 0 fluids)
    (hfluidReserved : List.Forall₂ (fun input reservation =>
      (reservation.map Prod.snd).sum = input.size * nSets) fluids execution.fluidReservations) :
    execution.job.Balanced := by
  have hparts := partsOf_forall₂ hsize hreserved
  have hlen : (partsOf nSets inputs).length = execution.reservations.length := by
    rw [hparts.length_eq, List.length_map]
  refine .of_transfers (execution.transfers.map (fun t => (t.1, t.2.2)) ++
    execution.fluidTransfers.map fun t => (execution.reservations.length + t.1, t.2.2)) ?_
    (partsOf nSets inputs ++ fluidPartsOf nSets fluids) ?_
    (List.rel_append hparts (fluidPartsOf_forall₂ hfluidReserved))
  · simp [job, Slotted.Execution.job, Function.comp_def]
  · rw [htransfers, hfluidTransfers, transfers_parts, fluidTransfers_parts, List.zipIdx_append,
      List.flatMap_append, hlen, zero_add]

variable [DecidableEq ι] [ItemClass ι] [LinearOrder κ]

theorem run_balanced {order : Enumeration ι} {rule : TopRule (Provider ε) Provider.priority}
    {scale : κ → ℤ → κ} {cfg : FluidSlottedConfig ι ε κ} {factory : Factory ι ε}
    {listings : List (Stacks ι)} {tanks : List (List Tank)} {r : Run ι ε}
    (hbuilt : ∀ recipe ∈ cfg.recipes,
      recipe.toSlotRecipe.Built ∧ ∀ input ∈ recipe.fluids, 0 ≤ input.size)
    (h : run order rule scale cfg factory listings tanks = some r) {execution : Execution ι ε}
    (he : r.executed = some execution) : execution.job.Balanced := by
  obtain ⟨existing, fluids, demands, demand, recipe, nSets, -, hdemands, hmem, hrecipe, hnarrow,
    hexecute⟩ := run_executed h he
  obtain ⟨hbuilt, hfluids⟩ := hbuilt recipe (List.mem_of_getElem? hrecipe)
  obtain ⟨unsorted, hunsorted, rfl⟩ := Option.map_eq_some_iff.mp hdemands
  obtain ⟨j, recipe', inputs, -, -, hi, hj, hinputs, -, -, hpos, hitems⟩ :=
    mem_fluidDemandsFrom hunsorted ((List.perm_insertionSort _ unsorted).mem_iff.mp hmem)
  rw [zero_add] at hi
  obtain rfl : recipe = recipe' := Option.some.inj (hrecipe.symm.trans (hi ▸ hj))
  obtain ⟨-, hlen, -⟩ := resolveInputs_found hinputs
  have hlen : demand.inputs.items.length = recipe.inputs.length := by
    rw [hitems, hlen]
    exact List.length_map _
  have hsets := narrow_pos hpos hnarrow
  obtain ⟨-, -, hfluidTransfers, hfluidReserved⟩ :=
    executeRecipe_spec (fun input hinput => mul_nonneg (hfluids input hinput) hsets.le) hexecute
  unfold executeRecipe at hexecute
  split at hexecute
  · cases hexecute
  · rename_i factory' slotted hslotted
    obtain ⟨htransfers, hreserved⟩ :=
      Slotted.executeRecipe_spec (slotInputs_nonneg hinputs) hlen hsets hslotted
    obtain ⟨reserved, -, heq⟩ := Option.map_eq_some_iff.mp hexecute
    obtain ⟨-, rfl⟩ := Prod.mk.inj heq
    exact Execution.job_balanced hbuilt htransfers hreserved hfluidTransfers hfluidReserved

end FluidSlottedProcess
end

section
variable {ι ε κ : Type}

/-- A job that transfers all that is reserved for its one input. -/
theorem scatteringInsert_balanced {reservation : Reservation ε} {insertions : List (ℕ × ℤ)}
    (h : (insertions.map Prod.snd).sum = reservation.sizes.sum) :
    (scatteringInsert reservation insertions).Balanced := by
  refine .of_transfers (insertions.map fun insertion => (0, insertion.2)) ?_
    [insertions.map Prod.snd] ?_ (.cons h .nil)
  · rw [scatteringInsert, List.map_map]
    rfl
  · simp [Function.comp_def]

variable [DecidableEq ι] [ItemClass ι]

namespace Scattering

/-- An insertion transfers what is reserved for it. -/
def Task.Ok : Task ι ε → Prop
  | .extractOutput _ _ => True
  | .scatteringInsert _ reservation insertions =>
    (insertions.map Prod.snd).sum = reservation.sizes.sum

omit [DecidableEq ι] in
theorem extracts_ok (cfg : ScatteringConfig ι ε κ) (factory : Factory ι ε) (slot : ℕ)
    (inventory : Stacks ι) : ∀ task ∈ extracts cfg factory slot inventory, task.Ok := by
  induction inventory generalizing slot with
  | nil => simp [extracts]
  | cons stack inventory ih =>
    refine List.forall_mem_append.mpr ⟨fun task htask => ?_, ih (slot + 1)⟩
    split_ifs at htask
    · obtain ⟨stack, -, rfl⟩ := List.mem_map.mp htask
      trivial
    · cases htask

theorem onDemand_ok {order : Enumeration ι} {rule : ℕ → TopRule (Provider ε) Provider.priority}
    {cfg : ScatteringConfig ι ε κ} {s s' : State ι ε} {iRecipe : ℕ}
    (hs : ∀ task ∈ s.tasks, task.Ok) (h : onDemand order rule cfg s iRecipe = some s') :
    ∀ task ∈ s'.tasks, task.Ok := by
  unfold onDemand at h
  split at h
  · cases h
  split at h
  · cases h
  · obtain rfl := Option.some.inj h
    exact hs
  split at h
  · cases h
  split at h
  · cases h
  rename_i spread hspread
  split_ifs at h with hpos
  · split at h
    · cases h
    · rename_i items reservation hreserve
      obtain rfl := Option.some.inj h
      refine List.forall_mem_append.mpr ⟨hs, List.forall_mem_singleton.mpr ?_⟩
      exact (spreadLoop_sum hspread rfl).trans (ItemTable.reserveItem_sum hpos.le hreserve).symm
  · obtain rfl := Option.some.inj h
    exact hs

theorem run_ok [LinearOrder κ] {order : Enumeration ι}
    {rule : ℕ → TopRule (Provider ε) Provider.priority} {scale : κ → ℤ → κ}
    {cfg : ScatteringConfig ι ε κ} {factory : Factory ι ε} {listing : Stacks ι} {s : State ι ε}
    (h : run order rule scale cfg factory listing = some (.ok s)) : ∀ task ∈ s.tasks, task.Ok := by
  unfold run at h
  split_ifs at h
  · cases h
  · split at h
    · cases h
    · obtain ⟨last, hlast, heq⟩ := Option.map_eq_some_iff.mp h
      obtain rfl := Except.ok.inj heq
      exact List.foldlM_inv (fun _ _ _ _ => onDemand_ok) (extracts_ok cfg factory 0 listing) hlast

end Scattering

namespace Buffered
open Inventory

/-- A recipe transfers for each input what is reserved for it. -/
def Task.Ok : Task ι ε → Prop
  | .executeRecipe _ _ _ reservations plans => List.Forall₂
      (fun plan reservation => moved plan.insertions = reservation.sizes.sum) plans reservations
  | _ => True

omit [ItemClass ι] in
theorem reserveInputs_spec {rule : TopRule (Provider ε) Provider.priority} {items : ItemTable ι ε}
    {inputs : List (ι × InsertPlan)} (hpos : ∀ input ∈ inputs, 0 ≤ input.2.nInserted)
    {r : ItemTable ι ε × List (Reservation ε)} (h : reserveInputs rule items inputs = some r) :
    List.Forall₂ (fun plan reservation => plan.nInserted = reservation.sizes.sum)
      (inputs.map Prod.snd) r.2 := by
  induction inputs generalizing items r with
  | nil =>
    obtain rfl := Option.some.inj h
    exact .nil
  | cons input inputs ih =>
    obtain ⟨hfirst, hpos⟩ := List.forall_mem_cons.mp hpos
    rw [reserveInputs] at h
    split at h
    · cases h
    · rename_i items' reservation hreserve
      obtain ⟨rest, hrest, rfl⟩ := Option.map_eq_some_iff.mp h
      exact .cons (ItemTable.reserveItem_sum hfirst hreserve).symm (ih hpos hrest)

theorem slotLoop_ok (jammer : ι) (cfg : Config ι ε κ) {s : State ι ε} (slot : ℕ)
    (inventory : Stacks ι) (hs : ∀ task ∈ s.tasks, task.Ok) :
    ∀ task ∈ (slotLoop jammer cfg s slot inventory).tasks, task.Ok := by
  induction inventory generalizing s slot with
  | nil => exact hs
  | cons stack inventory ih =>
    refine ih (slot + 1) ?_
    unfold onSlot
    split_ifs
    · refine List.forall_mem_append.mpr ⟨hs, fun task htask => ?_⟩
      obtain ⟨stack, -, rfl⟩ := List.mem_map.mp htask
      trivial
    · exact hs
    · cases stack <;> exact hs

theorem onStock_ok {order : Enumeration ι} {rule : ℕ → TopRule (Provider ε) Provider.priority}
    {s s' : State ι ε} {stock : Input ι} (hs : ∀ task ∈ s.tasks, task.Ok)
    (h : onStock order rule s stock = some s') : ∀ task ∈ s'.tasks, task.Ok := by
  unfold onStock at h
  split at h
  · cases h
  · obtain rfl := Option.some.inj h
    exact hs
  · simp only at h
    split_ifs at h
    · obtain rfl := Option.some.inj h
      exact hs
    · obtain rfl := Option.some.inj h
      exact hs
    · split at h
      · cases h
      · obtain rfl := Option.some.inj h
        exact List.forall_mem_append.mpr ⟨hs, List.forall_mem_singleton.mpr trivial⟩

/-- The plans of a recipe are for as much as is reserved. -/
theorem onDemand_ok {cfg : Config ι ε κ} {order : Enumeration ι}
    {rule : ℕ → TopRule (Provider ε) Provider.priority} {s : State ι ε} {iRecipe : ℕ}
    {outcome : Outcome ι ε} (hs : ∀ task ∈ s.tasks, task.Ok)
    (h : onDemand cfg order rule s iRecipe = some outcome) :
    ∀ task ∈ outcome.state.tasks, task.Ok := by
  unfold onDemand at h
  split at h
  · cases h
  rename_i recipe hrecipe
  split at h
  · cases h
  · obtain rfl := Option.some.inj h
    exact hs
  rename_i inputs hinputs
  obtain ⟨-, hlen, -⟩ := resolveInputs_found hinputs
  simp only at h
  split_ifs at h
  · obtain rfl := Option.some.inj h
    exact hs
  split at h
  · obtain rfl := Option.some.inj h
    exact hs
  rename_i after nSets plans hretry
  split at h
  · cases h
  rename_i items reservations hreserve
  obtain rfl := Option.some.inj h
  refine List.forall_mem_append.mpr ⟨hs, List.forall_mem_singleton.mpr ?_⟩
  obtain ⟨-, -, htry⟩ := retryLoop_some hretry
  obtain ⟨-, hsome⟩ := tryInputs_spec nSets s.inventory
    (inputs.items.zip (recipe.inputs.map Input.size)) []
  obtain ⟨new, hnew, hwhole, -⟩ := hsome plans (by rw [htry])
  obtain rfl : plans = new := hnew
  have hmoved (plan : InsertPlan) (hplan : plan ∈ plans) :
      plan.nInserted = moved plan.insertions ∧ 0 ≤ plan.nInserted := by
    obtain ⟨_, -, hplan⟩ := List.exists_of_forall₂ hwhole hplan
    exact ⟨hplan.moved, hplan.moved ▸ moved_nonneg hplan.positive⟩
  have hsnd : (inputs.items.zip plans).map Prod.snd = plans := by
    refine List.map_snd_zip ?_
    rw [← hwhole.length_eq, List.length_zip]
    exact min_le_left _ _
  have hreserved := reserveInputs_spec
    (fun input hinput => (hmoved input.2 (List.of_mem_zip hinput).2).2) hreserve
  rw [hsnd] at hreserved
  exact ((List.forall₂_and_left _ _).mpr ⟨fun plan hplan => (hmoved plan hplan).1,
    hreserved⟩).imp fun plan reservation h => h.1.symm.trans h.2

theorem recipeLoop_ok {cfg : Config ι ε κ} {order : Enumeration ι}
    {rule : ℕ → TopRule (Provider ε) Provider.priority} {demands : List ℕ} {s s' : State ι ε}
    (hs : ∀ task ∈ s.tasks, task.Ok) (h : recipeLoop cfg order rule s demands = some s') :
    ∀ task ∈ s'.tasks, task.Ok := by
  induction demands generalizing s with
  | nil =>
    obtain rfl := Option.some.inj h
    exact hs
  | cons iRecipe demands ih =>
    rw [recipeLoop] at h
    split at h
    · cases h
    · rename_i next hnext
      exact ih (onDemand_ok hs hnext) h
    · rename_i next hnext
      split_ifs at h
      · obtain rfl := Option.some.inj h
        exact onDemand_ok hs hnext
      · exact ih (onDemand_ok hs hnext) h

theorem run_ok [LinearOrder κ] {jammer : ι} {cfg : Config ι ε κ} {order : Enumeration ι}
    {rule : ℕ → TopRule (Provider ε) Provider.priority} {scale : κ → ℤ → κ} {factory : Factory ι ε}
    {inventory : Stacks ι} {s : State ι ε}
    (h : run jammer cfg order rule scale factory inventory = some s) :
    ∀ task ∈ s.tasks, task.Ok := by
  unfold run at h
  split at h
  · cases h
  rename_i stocked hstocked
  have hstart := slotLoop_ok jammer cfg (s := start cfg factory) 0 inventory (by simp [start])
  have hs := List.foldlM_inv (fun _ _ _ _ => onStock_ok) hstart hstocked
  split_ifs at h
  · split at h
    · cases h
    · exact recipeLoop_ok hs h
  · obtain rfl := Option.some.inj h
    exact hs

omit [DecidableEq ι] [ItemClass ι] in
theorem executeRecipe_balanced {reservations : List (Reservation ε)} {plans : List InsertPlan}
    (h : List.Forall₂ (fun plan reservation => moved plan.insertions = reservation.sizes.sum) plans
      reservations) : (executeRecipe reservations plans).Balanced := by
  refine .of_transfers (plans.zipIdx.flatMap fun p => p.1.insertions.map fun insertion =>
    (p.2, insertion.2)) ?_ (plans.map fun plan => plan.insertions.map Prod.snd) ?_ ?_
  · rw [executeRecipe, List.map_flatMap]
    simp [Function.comp_def]
  · rw [List.zipIdx_map, List.flatMap_map]
    simp [Function.comp_def]
  · show List.Forall₂ _ _ (reservations.map _)
    rw [List.forall₂_map_left_iff, List.forall₂_map_right_iff]
    exact h

end Buffered
end

section
variable {ι ε κ : Type}

namespace CraftingGrid

/-- What a group of actions transfers out of the slots for the inputs. -/
def unloadsOf (actions : List Action) : List (ℕ × ℤ) :=
  actions.filterMap fun
    | .unload iInput size => some (iInput, size)
    | _ => none

theorem unloads_eq (plan : JobPlan) : plan.unloads = unloadsOf plan.actions := rfl

theorem unloadsOf_append (actions actions' : List Action) :
    unloadsOf (actions ++ actions') = unloadsOf actions ++ unloadsOf actions' :=
  List.filterMap_append

/-- What the kinds of crafting grid have in common. -/
structure Ok (grid : CraftingGrid) : Prop where
  loadInput : ∀ iInput invSlot size, unloadsOf (grid.loadInput iInput invSlot size) = [(iInput, size)]
  loadNonConsumable : ∀ n, unloadsOf (grid.loadNonConsumable n) = []
  storeOutput : ∀ nSets, unloadsOf (grid.storeOutput nSets) = []
  storeNonConsumable : ∀ n, unloadsOf (grid.storeNonConsumable n) = []

theorem Known.ok {grid : CraftingGrid} (h : grid.Known) : grid.Ok := by
  rcases h with rfl | rfl
  · exact ⟨fun _ _ _ => rfl, fun _ => rfl, fun _ => rfl, fun _ => rfl⟩
  · refine ⟨fun _ _ _ => rfl, fun _ => rfl, fun nSets => ?_, fun _ => rfl⟩
    simp [unloadsOf, workbench]

theorem unloadsOf_flatMap_nil {α : Type} {f : α → List Action} (h : ∀ a, unloadsOf (f a) = [])
    (l : List α) : unloadsOf (l.flatMap f) = [] := by
  induction l with
  | nil => rfl
  | cons a l ih => rw [List.flatMap_cons, unloadsOf_append, h, ih, List.nil_append]

theorem loadInputs_unloads {grid : CraftingGrid} (hgrid : grid.Ok) (nSets : ℤ) (first : ℕ)
    (inputs : List (CraftingGridInput ι)) : unloadsOf (grid.loadInputs nSets first inputs) =
      ((inputs.map fun input => input.slots.map fun _ => nSets).zipIdx first).flatMap
        fun p => p.1.map (Prod.mk p.2) := by
  induction inputs generalizing first with
  | nil => rfl
  | cons input inputs ih =>
    have hslots (slots : List ℕ) :
        unloadsOf (slots.flatMap fun invSlot => grid.loadInput first invSlot nSets) =
          (slots.map fun _ => nSets).map (Prod.mk first) := by
      induction slots with
      | nil => rfl
      | cons invSlot slots ih =>
        rw [List.flatMap_cons, unloadsOf_append, hgrid.loadInput, ih]
        rfl
    rw [loadInputs, unloadsOf_append, hslots, ih, List.map_cons, List.zipIdx_cons,
      List.flatMap_cons]

/-- Of each input a grid takes one for each of its slots. -/
theorem job_balanced {grid : CraftingGrid} (hgrid : grid.Ok) {recipe : CraftingGridRecipe ι ε κ}
    {nSets : ℤ} (hbuilt : ∀ input ∈ recipe.inputs, input.size = input.slots.length)
    {reservations : List (Reservation ε)}
    (hreserved : List.Forall₂ (fun size reservation => reservation.sizes.sum = nSets * size)
      (recipe.inputs.map fun input => input.size) reservations) :
    (grid.job recipe nSets reservations).Balanced := by
  have hunloads : (grid.job recipe nSets reservations).unloads =
      ((recipe.inputs.map fun input => input.slots.map fun _ => nSets).zipIdx).flatMap
        fun p => p.1.map (Prod.mk p.2) := by
    rw [unloads_eq, job, unloadsOf_append, unloadsOf_append, unloadsOf_append,
      unloadsOf_flatMap_nil hgrid.loadNonConsumable, unloadsOf_flatMap_nil hgrid.storeNonConsumable,
      hgrid.storeOutput, loadInputs_unloads hgrid]
    simp only [List.append_nil]
  rw [List.forall₂_map_left_iff] at hreserved
  cases reservations with
  | nil =>
    -- the one slot is for the output
    rw [List.forall₂_nil_right_iff.mp hreserved] at hunloads
    refine .of_parts [[]] (fun _ _ => ?_) hunloads (.cons rfl .nil)
    exact ⟨List.cons_ne_nil _ _, nofun⟩
  | cons reservation reservations =>
    refine .of_parts _ (fun _ _ => ?_) hunloads ?_
    · exact ⟨List.cons_ne_nil _ _, nofun⟩
    · have hinputs : (grid.job recipe nSets (reservation :: reservations)).inputs =
          (reservation :: reservations).map fun r => (.item, r.sizes) := rfl
      rw [hinputs, List.forall₂_map_left_iff, List.forall₂_map_right_iff]
      refine ((List.forall₂_and_left _ _).mpr ⟨hbuilt, hreserved⟩).imp fun input r h => ?_
      rw [h.1] at h
      simpa [mul_comm] using h.2.symm

variable [DecidableEq ι] [ItemClass ι]

theorem onDemand_balanced {grid : CraftingGrid} (hgrid : grid.Ok) {order : Enumeration ι}
    {rule : ℕ → TopRule (Provider ε) Provider.priority} {recipes : List (CraftingGridRecipe ι ε κ)}
    (hbuilt : ∀ recipe ∈ recipes, ∀ input ∈ recipe.inputs, input.size = input.slots.length)
    {s s' : Factory ι ε × List JobPlan} {iRecipe : ℕ} (hs : ∀ job ∈ s.2, job.Balanced)
    (h : onDemand grid order rule recipes s iRecipe = some s') : ∀ job ∈ s'.2, job.Balanced := by
  unfold onDemand at h
  split at h
  · cases h
  rename_i recipe hrecipe
  have hbuilt := hbuilt recipe (List.mem_of_getElem? hrecipe)
  split_ifs at h with hmax
  · obtain rfl := Option.some.inj h
    exact hs
  split at h
  · cases h
  · obtain rfl := Option.some.inj h
    exact hs
  rename_i inputs hinputs
  obtain ⟨hpos, hlen, -⟩ := resolveInputs_found hinputs
  simp only at h
  split at h
  · cases h
  rename_i items reservations hreserve
  obtain rfl := Option.some.inj h
  refine List.forall_mem_append.mpr ⟨hs, List.forall_mem_singleton.mpr (job_balanced hgrid hbuilt ?_)⟩
  refine Slotted.reserveInputs_sizes (hlen.trans ?_) (fun size hsize => ?_) hreserve
  · simp [CraftingGridRecipe.toRecipe]
  · obtain ⟨input, hinput, rfl⟩ := List.mem_map.mp hsize
    rw [hbuilt input hinput]
    exact mul_nonneg (le_min hpos.le (not_le.mp hmax).le) (Int.natCast_nonneg _)

theorem run_balanced [LinearOrder κ] {grid : CraftingGrid} (hgrid : grid.Ok) {order : Enumeration ι}
    {rule : ℕ → TopRule (Provider ε) Provider.priority} {scale : κ → ℤ → κ}
    {recipes : List (CraftingGridRecipe ι ε κ)}
    (hbuilt : ∀ recipe ∈ recipes, ∀ input ∈ recipe.inputs, input.size = input.slots.length)
    {factory : Factory ι ε} {r : Factory ι ε × List JobPlan}
    (h : run grid order rule recipes scale factory = some r) : ∀ job ∈ r.2, job.Balanced := by
  unfold run at h
  split at h
  · cases h
  · exact List.foldlM_inv (fun _ _ _ _ => onDemand_balanced hgrid hbuilt) (by simp) h

end CraftingGrid

theorem ItemCycle.run_sum [DecidableEq ι] [ItemClass ι] {order : Enumeration ι}
    {rule : TopRule (Provider ε) Provider.priority} {cfg : ItemCycleConfig ι} {nextItem : ℕ}
    {factory : Factory ι ε} {listing : Stacks ι} {r : Factory ι ε × Reservation ε}
    (h : run order rule cfg nextItem factory listing = some (.ok (some r))) :
    r.2.sizes.sum = 1 := by
  unfold run at h
  split at h
  · cases h
  · cases h
  · split at h
    · cases h
    split at h
    · cases h
    · cases h
    · split_ifs at h
      · cases h
      · obtain ⟨reserved, hreserved, heq⟩ := Option.map_eq_some_iff.mp h
        obtain rfl := Option.some.inj (Except.ok.inj heq)
        exact ItemTable.reserveItem_sum (by decide) hreserved

variable [DecidableEq ι] [ItemClass ι] [LinearOrder κ]

/-- The jobs that the processes start are balanced. -/
theorem IsJob.balanced {plan : JobPlan} (h : IsJob ι ε κ plan) : plan.Balanced := by
  cases h with
  | extractOutput size => exact .of_load .item (some size)
  | extractFluid qty => exact .of_load .fluid (some qty)
  | @inserted inventory item toInsert hpos rule t r h =>
    obtain ⟨after, insertions, heq, -, hn, -, -⟩ :=
      Inventory.insertIntoInventory_spec inventory item toInsert
    rw [heq] at hpos h ⊢
    refine scatteringInsert_balanced ?_
    exact hn.symm.trans (ItemTable.reserveItem_sum hpos.le h).symm
  | scattered h htask => exact scatteringInsert_balanced (Scattering.run_ok h _ htask)
  | slotted hbuilt h hexecuted =>
    unfold SlottedProcess.run at h
    split at h
    · cases h
    · rename_i demands hdemands
      exact Slotted.plan_balanced hbuilt (computeDemands_resolved hdemands _) h hexecuted
  | multiInvSlotted hbuilt h hexecuted =>
    unfold MultiInvSlottedProcess.run at h
    split at h
    · cases h
    · rename_i demands hdemands
      exact Slotted.plan_balanced hbuilt (computeDemands_resolved hdemands _) h hexecuted
  | fluidSlotted hbuilt h hexecuted =>
    exact FluidSlottedProcess.run_balanced hbuilt h hexecuted
  | buffered h htask => exact Buffered.executeRecipe_balanced (Buffered.run_ok h _ htask)
  | craftingGrid hgrid hbuilt h hjob => exact CraftingGrid.run_balanced hgrid.ok hbuilt h plan hjob
  | @itemCycle order rule cfg nextItem factory listing r h =>
    have hsum : ([((0 : ℕ), (1 : ℤ))].map Prod.snd).sum = r.2.sizes.sum := (ItemCycle.run_sum h).symm
    exact scatteringInsert_balanced hsum

end

/-- Whatever succeeds and fails, a job ends after finitely many steps with each slot that it was
granted released once, and freed only when nothing failed and it is empty. -/
theorem slots_released_once (ι ε κ : Type) [DecidableEq ι] [ItemClass ι] [LinearOrder κ]
    (plan : JobPlan) (hplan : IsJob ι ε κ plan) (es : List JobEvent) (job : Job)
    (trace : List Effect) (h : (Job.start plan).run es = some (job, trace)) :
    (∀ result, job.phase = .finished result → Released trace) ∧
    ((∀ result, job.phase ≠ .finished result) →
      releasesIn trace = [] ∧ ∃ e, job.step e ≠ none) ∧
    es.length ≤ (Job.start plan).remaining :=
  Job.run_released hplan.balanced h

/-! Water is sent to a tank. -/

namespace FluidSlottedProcess

/-- The slot is granted, everything is extracted into it and transferred, and it is released. -/
def waterEvents (slot nExtractions : ℕ) : List JobEvent :=
  [.input 0 .allocate, .input 0 (.answer (.ok slot)), .input 0 .poll] ++
    (List.range nExtractions).map (fun j => .input 0 (.extracted j (.ok ()))) ++
    [.join, .acted 0 (.ok ()), .finish]

/-- How the job for the water ends, and what it does. -/
def waterJob (size capacity : ℤ) (nExtractions : ℕ) : Option (Phase × List Effect) := do
  let r ← waterRun size capacity 1000
  let e ← r.executed
  let (job, trace) ← (Job.start e.job).run (waterEvents 3 nExtractions)
  pure (job.phase, trace)

theorem exists_waterJob {size capacity : ℤ} {nExtractions : ℕ} {phase : Phase} {trace : List Effect}
    (h : waterJob size capacity nExtractions = some (phase, trace)) : ∃ r e job,
      waterRun size capacity 1000 = some r ∧ r.executed = some e ∧
      (Job.start e.job).run (waterEvents 3 nExtractions) = some (job, trace) ∧
      job.phase = phase := by
  obtain ⟨r, hr, h⟩ := Option.bind_eq_some_iff.mp h
  obtain ⟨e, he, h⟩ := Option.bind_eq_some_iff.mp h
  obtain ⟨⟨job, trace'⟩, hrun, h⟩ := Option.bind_eq_some_iff.mp h
  obtain ⟨rfl, rfl⟩ := Prod.mk.inj (Option.some.inj h)
  exact ⟨r, e, job, hr, he, hrun, rfl⟩

/-- Two sets go to the tank, and the slot is freed. -/
theorem slots_released_once_water : ∃ r e job trace, waterRun 1000 2500 1000 = some r ∧
    r.executed = some e ∧ (Job.start e.job).run (waterEvents 3 1) = some (job, trace) ∧
    .free (.fluid, 3) ∈ releasesIn trace ∧ Released trace := by
  have hjob : waterJob 1000 2500 1 = some (.finished (.ok ()), [.asked .fluid 0,
      .granted (.fluid, 3), .extracted (.fluid, 3) 2000, .unloaded (.fluid, 3) 2000,
      .release (.free (.fluid, 3))]) := by decide +kernel
  obtain ⟨r, e, job, hr, he, hrun, hphase⟩ := exists_waterJob hjob
  have hrecipes : ∀ recipe ∈ (waterConfig 1000).recipes,
      recipe.toSlotRecipe.Built ∧ ∀ input ∈ recipe.fluids, 0 ≤ input.size :=
    List.forall_mem_singleton.mpr ⟨fun _ hinput => (List.not_mem_nil hinput).elim, by decide⟩
  obtain ⟨hreleased, -, -⟩ := slots_released_once (Item ℤ) ℕ ℤ e.job (.fluidSlotted hrecipes hr he)
    (waterEvents 3 1) job _ hrun
  exact ⟨r, e, job, _, hr, he, hrun, by decide, hreleased _ hphase⟩

/-- A set takes less than nothing of a fluid. The cast makes one of it, nothing is extracted into
the slot that is granted, and the slot is freed after a transfer out of it. -/
theorem negative_tank_frees : ∃ r e job trace, waterRun (-1) (2 ^ 33 - 1) 1000 = some r ∧
    (∀ recipe ∈ (waterConfig (-1)).recipes, recipe.toSlotRecipe.Built) ∧
    r.executed = some e ∧ (Job.start e.job).run (waterEvents 3 0) = some (job, trace) ∧
    job.phase = .finished (.ok ()) ∧ .free (.fluid, 3) ∈ releasesIn trace ∧
    sumOf (.fluid, 3) (unloadedIn trace) ≠ sumOf (.fluid, 3) (extractedIn trace) := by
  have hjob : waterJob (-1) (2 ^ 33 - 1) 0 = some (.finished (.ok ()), [.asked .fluid 0,
      .granted (.fluid, 3), .unloaded (.fluid, 3) (-1), .release (.free (.fluid, 3))]) := by
    decide +kernel
  obtain ⟨r, e, job, hr, he, hrun, hphase⟩ := exists_waterJob hjob
  exact ⟨r, e, job, _, hr, List.forall_mem_singleton.mpr fun _ h => (List.not_mem_nil h).elim, he,
    hrun, hphase, by decide, by decide⟩

end FluidSlottedProcess

end OCRemote
