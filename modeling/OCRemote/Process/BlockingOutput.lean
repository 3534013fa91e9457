import OCRemote.Factory.InventoryCover
import OCRemote.Factory.ItemIndex

/-! `BlockingOutputProcess`, which extracts the items that are wanted from its inventory, up to the
amounts that are wanted. -/

namespace OCRemote

structure Output (ι : Type) where
  item : Filter ι
  nWanted : ℤ

namespace BlockingOutput

structure Config (ι : Type) where
  slotFilter : Option (ℕ → Bool)
  outputs : List (Output ι)

structure Info where
  nStored : ℤ
  nWanted : ℤ
  deriving DecidableEq

/-- `infos`, and the slots that are asked for so far. -/
structure State (ι : Type) where
  infos : AList fun _ : ι => Info
  tasks : List (ℕ × ℤ)

section
variable {ι ε : Type} [DecidableEq ι] [ItemClass ι]

/-- The loop over the outputs, which ends at one that is short. No value means that a search
panicked. -/
def enough (order : Enumeration ι) (factory : ItemTable ι ε) : List (Output ι) → Option Bool
  | [] => some true
  | output :: outputs =>
    match factory.searchNStored order output.item with
    | none => none
    | some nStored => if nStored < output.nWanted then some false else enough order factory outputs

/-- The entry of an item that has none yet. -/
def newInfo (factory : ItemTable ι ε) (outputs : List (Output ι)) (item : ι) : Info where
  nStored := factory.getNStored item
  nWanted := outputs.foldl
    (fun nWanted output => if output.item.apply item then max nWanted output.nWanted else nWanted) 0

def passes (cfg : Config ι) (slot : ℕ) : Bool :=
  match cfg.slotFilter with
  | none => true
  | some slotFilter => slotFilter slot

variable (cfg : Config ι) (factory : ItemTable ι ε)

def infoOf (s : State ι) (item : ι) : Info :=
  (s.infos.lookup item).getD (newInfo factory cfg.outputs item)

/-- One turn of the loop over the slots. -/
def onSlot (s : State ι) (slot : ℕ) : Option (ItemStack ι) → State ι
  | none => s
  | some stack =>
    if passes cfg slot then
      let info := infoOf cfg factory s stack.item
      let toExtract := min (info.nWanted - info.nStored) stack.size
      if toExtract ≤ 0 then { s with infos := s.infos.insert stack.item info }
      else
        { s with
          infos := s.infos.insert stack.item { info with nStored := info.nStored + toExtract }
          tasks := s.tasks ++ [(slot, toExtract)] }
    else s

def slotLoop (s : State ι) : ℕ → Stacks ι → State ι
  | _, [] => s
  | slot, stack :: listing => slotLoop (onSlot cfg factory s slot stack) (slot + 1) listing

def requests (listing : Stacks ι) : List (ℕ × ℤ) := (slotLoop cfg factory ⟨∅, []⟩ 0 listing).tasks

/-- The inner `none` means that nothing is listed. The factory may change until it is. -/
def run (order : Enumeration ι) (before : ItemTable ι ε) (listing : Stacks ι) :
    Option (Option (List (ℕ × ℤ))) :=
  (enough order before cfg.outputs).map fun enough =>
    if enough then none else some (requests cfg factory listing)

/-- The largest wanted amount of the outputs that an item satisfies. -/
def wanted (outputs : List (Output ι)) (item : ι) : ℤ :=
  ((outputs.filter fun output => output.item.apply item).map Output.nWanted).max?.getD 0

def held (item : ι) (stack : Option (ItemStack ι)) : ℤ :=
  stack.elim 0 fun stack => if stack.item = item then stack.size else 0

/-- How much of an item is in the slots from `first` on that pass the filter. -/
def present (first : ℕ) (listing : Stacks ι) (item : ι) : ℤ :=
  ((listing.zipIdx first).map fun p => if passes cfg p.2 then held item p.1 else 0).sum

/-- How much of an item is asked for. -/
def asked (listing : Stacks ι) (item : ι) (rs : List (ℕ × ℤ)) : ℤ :=
  (rs.map fun r => if listing[r.1]?.join.map ItemStack.item = some item then r.2 else 0).sum

/-! One slot after another. -/

variable {cfg factory}

/-- What a turn takes of a stack, given the entry of its item. -/
def Info.take (info : Info) (size : ℤ) : ℤ := max 0 (min (info.nWanted - info.nStored) size)

omit [ItemClass ι] in
theorem asked_append (listing : Stacks ι) (item : ι) (rs rs' : List (ℕ × ℤ)) :
    asked listing item (rs ++ rs') = asked listing item rs + asked listing item rs' := by
  simp [asked]

/-- The requests for the slots from `first` on. -/
structure Asks (cfg : Config ι) (listing : Stacks ι) (first : ℕ) (rs : List (ℕ × ℤ)) : Prop where
  fits : ∀ r ∈ rs, 0 < r.2 ∧ passes cfg r.1 ∧
    ∃ stack, listing[r.1]? = some (some stack) ∧ r.2 ≤ stack.size
  from_first : ∀ r ∈ rs, first ≤ r.1
  distinct : (rs.map Prod.fst).Nodup

omit [DecidableEq ι] [ItemClass ι] in
theorem Asks.of_succ {listing : Stacks ι} {first : ℕ} {rs : List (ℕ × ℤ)}
    (h : Asks cfg listing (first + 1) rs) : Asks cfg listing first rs :=
  ⟨h.fits, fun r hr => Nat.le_of_succ_le (h.from_first r hr), h.distinct⟩

omit [DecidableEq ι] [ItemClass ι] in
theorem Asks.cons {listing : Stacks ι} {first : ℕ} {rs : List (ℕ × ℤ)}
    (h : Asks cfg listing (first + 1) rs) {size : ℤ} (hpos : 0 < size) (hpasses : passes cfg first)
    {stack : ItemStack ι} (hstack : listing[first]? = some (some stack)) (hle : size ≤ stack.size) :
    Asks cfg listing first ((first, size) :: rs) := by
  refine ⟨?_, ?_, ?_⟩
  · exact List.forall_mem_cons.mpr ⟨⟨hpos, hpasses, stack, hstack, hle⟩, h.fits⟩
  · exact List.forall_mem_cons.mpr ⟨le_rfl, h.of_succ.from_first⟩
  · refine List.nodup_cons.mpr ⟨fun hmem => ?_, h.distinct⟩
    obtain ⟨r, hr, heq⟩ := List.mem_map.mp hmem
    have hlt := h.from_first r hr
    omega

structure Info.Fits (info : Info) : Prop where
  stored : 0 ≤ info.nStored ∧ info.nStored ≤ i32Max
  wanted : 0 ≤ info.nWanted ∧ info.nWanted ≤ i32Max

theorem Info.Fits.take {info : Info} (h : info.Fits) (size : ℤ) :
    ({ info with nStored := info.nStored + info.take size } : Info).Fits := by
  obtain ⟨hstored, hwanted⟩ := h
  refine ⟨?_, hwanted⟩
  simp only [Info.take]
  omega

end
end BlockingOutput
end OCRemote
