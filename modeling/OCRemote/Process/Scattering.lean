import Mathlib.Data.List.AList
import OCRemote.Factory.Inventory
import OCRemote.Process.Demand

/-! `ScatteringProcess` once the inventory is listed: what is not in an input slot is extracted, and
the one input of each wanted recipe is spread over the input slots. -/

namespace OCRemote

/-- `ScatteringInput::new`. -/
def ScatteringInput.new {ι : Type} (item : Filter ι) : Input ι where
  item := item
  size := 1
  allowBackup := false
  extraBackup := 0

structure ScatteringRecipe (ι ε κ : Type) where
  outputs : Factory ι ε → Option κ
  input : Input ι

def ScatteringRecipe.toRecipe {ι ε κ : Type} (recipe : ScatteringRecipe ι ε κ) : Recipe ι ε κ :=
  ⟨recipe.outputs, [recipe.input]⟩

structure ScatteringConfig (ι ε κ : Type) where
  name : String
  inputSlots : List ℕ
  toExtract : Option (Factory ι ε → ℕ → ItemStack ι → Bool)
  recipes : List (ScatteringRecipe ι ε κ)
  maxPerSlot : ℤ

namespace Scattering

/-- The inventory as it will be, and what is inserted into which slot. -/
structure Spread (ι : Type) where
  inventory : Stacks ι
  insertions : AList fun _ : ℕ => ℤ
  nInserted : ℤ

inductive Task (ι ε : Type) where
  | extractOutput (slot : ℕ) (size : ℤ)
  | scatteringInsert (item : ι) (reservation : Reservation ε) (insertions : List (ℕ × ℤ))

structure State (ι ε : Type) where
  factory : Factory ι ε
  inventory : Stacks ι
  tasks : List (Task ι ε)

section
variable {ι ε κ : Type} [DecidableEq ι] [ItemClass ι]

/-- The loop over the input slots, which stops at an empty one. No value means that a slot is
missing. -/
def bestSlot (inventory : Stacks ι) (item : ι) :
    List ℕ → Option (ℕ × ℤ) → Option (Option (ℕ × ℤ))
  | [], best => some best
  | slot :: slots, best =>
    match inventory[slot]? with
    | none => none
    | some none => some (some (slot, 0))
    | some (some stack) =>
      if stack.item = item then
        if best.any fun best => best.2 ≤ stack.size then bestSlot inventory item slots best
        else bestSlot inventory item slots (some (slot, stack.size))
      else bestSlot inventory item slots best

/-- One more of the item in a slot. -/
def addOne (item : ι) : Option (ItemStack ι) → Option (ItemStack ι)
  | none => some ⟨item, 1⟩
  | some stack => some { stack with size := stack.size + 1 }

/-- The loop over `n_sets`. -/
def spreadLoop (maxPerSlot : ℤ) (inputSlots : List ℕ) (item : ι) :
    ℕ → Spread ι → Option (Spread ι)
  | 0, s => some s
  | nSets + 1, s =>
    match bestSlot s.inventory item inputSlots none with
    | none => none
    | some none => some s
    | some (some (slot, size)) =>
      if min maxPerSlot (ItemClass.maxSize item) ≤ size then some s
      else spreadLoop maxPerSlot inputSlots item nSets
        { inventory := s.inventory.modify slot (addOne item)
          insertions := s.insertions.insert slot ((s.insertions.lookup slot).getD 0 + 1)
          nInserted := s.nInserted + 1 }

def entriesOf (insertions : AList fun _ : ℕ => ℤ) : List (ℕ × ℤ) :=
  insertions.entries.map fun e => (e.1, e.2)

variable (order : Enumeration ι) (rule : ℕ → TopRule (Provider ε) Provider.priority)
  (scale : κ → ℤ → κ) (cfg : ScatteringConfig ι ε κ)

/-- The loop that extracts, over the slots from `slot` on. -/
def extracts (factory : Factory ι ε) : ℕ → Stacks ι → List (Task ι ε)
  | _, [] => []
  | slot, stack :: inventory =>
    let isExtracted := stack.any fun stack =>
      slot ∉ cfg.inputSlots && cfg.toExtract.any fun toExtract => toExtract factory slot stack
    (if isExtracted then
      stack.toList.map fun stack => .extractOutput slot (ItemClass.maxSize stack.item) else []) ++
        extracts factory (slot + 1) inventory

/-- One turn of the loop over the demands. -/
def onDemand (s : State ι ε) (iRecipe : ℕ) : Option (State ι ε) :=
  match cfg.recipes[iRecipe]? with
  | none => none
  | some recipe =>
    match resolveInputs order s.factory.items recipe.toRecipe.inputs with
    | none => none
    | some none => some s
    | some (some inputs) =>
      match inputs.items with
      | [] => none
      | item :: _ =>
        match spreadLoop cfg.maxPerSlot cfg.inputSlots item inputs.nSets.toNat
          ⟨s.inventory, ∅, 0⟩ with
        | none => none
        | some spread =>
          if 0 < spread.nInserted then
            match s.factory.items.reserveItem (rule s.tasks.length) item spread.nInserted with
            | none => none
            | some (items, reservation) =>
              some
                { factory := { s.factory with items := items }
                  inventory := spread.inventory
                  tasks := s.tasks ++
                    [.scatteringInsert item reservation (entriesOf spread.insertions)] }
          else some { s with inventory := spread.inventory }

variable [LinearOrder κ]

/-- The part of `run` after the listing. -/
def run (factory : Factory ι ε) (listing : Stacks ι) : Option (Except String (State ι ε)) :=
  if cfg.inputSlots.any fun slot => listing.length ≤ slot then
    some (.error (cfg.name ++ ": invalid slot"))
  else
    match computeDemands order scale factory (cfg.recipes.map ScatteringRecipe.toRecipe) with
    | none => none
    | some demands =>
      ((demands.map Demand.iRecipe).foldlM (onDemand order rule cfg)
        ⟨factory, listing, extracts cfg factory 0 listing⟩).map .ok

end

/-! What is inserted into the slots is what is reserved. -/

theorem sum_entriesOf_insert (insertions : AList fun _ : ℕ => ℤ) (slot : ℕ) (n : ℤ) :
    ((entriesOf (insertions.insert slot n)).map Prod.snd).sum =
      ((entriesOf insertions).map Prod.snd).sum - (insertions.lookup slot).getD 0 + n := by
  have hcut (es : List (Sigma fun _ : ℕ => ℤ)) : ((es.kerase slot).map Sigma.snd).sum +
      (es.dlookup slot).getD 0 = (es.map Sigma.snd).sum := by
    induction es with
    | nil => simp
    | cons e es ih =>
      by_cases he : slot = e.1
      · subst he
        rw [List.kerase_cons_eq rfl, List.dlookup_cons_eq]
        simp [add_comm]
      · rw [List.kerase_cons_ne he, List.dlookup_cons_ne _ _ he]
        simp only [List.map_cons, List.sum_cons]
        rw [← ih, add_assoc]
  have hentries (m : AList fun _ : ℕ => ℤ) :
      (entriesOf m).map Prod.snd = m.entries.map Sigma.snd := by
    simp [entriesOf, Function.comp_def]
  have hall := hcut insertions.entries
  rw [hentries, hentries, AList.entries_insert, List.map_cons, List.sum_cons]
  show n + _ = _ - (insertions.entries.dlookup slot).getD 0 + n
  omega

variable {ι : Type} [DecidableEq ι] [ItemClass ι]

theorem spreadLoop_sum {maxPerSlot : ℤ} {inputSlots : List ℕ} {item : ι} {nSets : ℕ}
    {s s' : Spread ι} (h : spreadLoop maxPerSlot inputSlots item nSets s = some s')
    (hs : ((entriesOf s.insertions).map Prod.snd).sum = s.nInserted) :
    ((entriesOf s'.insertions).map Prod.snd).sum = s'.nInserted := by
  induction nSets generalizing s with
  | zero =>
    obtain rfl := Option.some.inj h
    exact hs
  | succ nSets ih =>
    rw [spreadLoop] at h
    split at h
    · cases h
    · obtain rfl := Option.some.inj h
      exact hs
    · rename_i slot size hbest
      split_ifs at h
      · obtain rfl := Option.some.inj h
        exact hs
      · refine ih h ?_
        show ((entriesOf (s.insertions.insert slot _)).map Prod.snd).sum = s.nInserted + 1
        rw [sum_entriesOf_insert, hs]
        omega

end Scattering
end OCRemote
