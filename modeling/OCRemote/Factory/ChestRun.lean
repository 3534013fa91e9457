import OCRemote.Factory.ItemTable
import OCRemote.Factory.Storage
import OCRemote.Lib.Machine

/-! A chest during one cycle. The server's picture of the slots, what the slots physically
hold, and what was reserved or is on its way move at different times. -/

namespace OCRemote
open Tally Slots

namespace ChestRun
variable {ι : Type} [DecidableEq ι] [ItemClass ι]

inductive Source where
  | slot (invSlot : ℕ)
  | other (k : ℕ)
  deriving DecidableEq

abbrev Rule := TopRule (Provider Source) Provider.priority

structure World (ι : Type) where
  chest : ChestStorage ι
  table : ItemTable ι Source
  phys : List (Option (ItemStack ι))
  /-- Reserved from a slot, asked of a client, and taken by it, but not completed. -/
  waiting : List (ℕ × ℤ)
  requested : List (ℕ × ℤ)
  taken : List (ℕ × ℤ)
  /-- On the way into a slot, and put there by the client, but not completed. -/
  depositing : List (ℕ × ItemStack ι)
  delivered : List (ℕ × ItemStack ι)
  /-- Everything that was issued and completed so far. -/
  deposits : List (ℕ × ℤ)
  completions : List (ℕ × ℤ)
  panicked : Bool

inductive Event (ι : Type) where
  | reserve (rule : Rule) (item : ι) (size : ℤ)
  | extract (k : ℕ)
  | take (k : ℕ)
  | complete (k : ℕ)
  | failRequested (k : ℕ)
  | failTaken (k : ℕ)
  | depositPriority (item : ι)
  | deposit (stack : ItemStack ι) (busSlot : ℕ)
  | deliver (k : ℕ)
  | completeDeposit (k : ℕ)
  | failDeposit (k : ℕ)

/-- `update` of a chest: every listed stack becomes a provider. -/
def registerFrom : ℕ → List (Option (ItemStack ι)) → ItemTable ι Source → ItemTable ι Source
  | _, [], t => t
  | invSlot, some stack :: slots, t =>
    registerFrom (invSlot + 1) slots (t.provide stack.item ⟨-stack.size, stack.size, .slot invSlot⟩)
  | invSlot, none :: slots, t => registerFrom (invSlot + 1) slots t

/-- What the other storages register. -/
def registerOthers (others : List (ι × ℤ × ℤ × ℕ)) (t : ItemTable ι Source) : ItemTable ι Source :=
  others.foldl (fun t o => t.provide o.1 ⟨o.2.1, o.2.2.1, .other o.2.2.2⟩) t

def start (before after : List (ι × ℤ × ℤ × ℕ)) (listing : List (Option (ItemStack ι))) :
    World ι where
  chest := ⟨listing, 0⟩
  table := registerOthers after (registerFrom 0 listing (registerOthers before .empty))
  phys := listing
  waiting := []
  requested := []
  taken := []
  depositing := []
  delivered := []
  deposits := []
  completions := []
  panicked := false

def ofSlot (d : Source × ℤ) : Option (ℕ × ℤ) :=
  match d.1 with
  | .slot invSlot => some (invSlot, d.2)
  | .other _ => none

def enabled (w : World ι) : Event ι → Prop
  | .reserve _ item size => ∃ info ∈ w.table.items.lookup item, 0 ≤ size ∧ size ≤ info.nStored
  | .extract k => k < w.waiting.length
  | .take k => k < w.requested.length
  | .complete k => k < w.taken.length
  | .failRequested k => k < w.requested.length
  | .failTaken k => k < w.taken.length
  | .depositPriority _ => True
  | .deposit stack _ => 0 < stack.size ∧ stack.size ≤ ItemClass.maxSize stack.item
  | .deliver k => k < w.depositing.length
  | .completeDeposit k => k < w.delivered.length
  | .failDeposit k => k < w.depositing.length

def next (w : World ι) : Event ι → World ι
  | .reserve rule item size =>
    match w.table.reserveItem rule item size with
    | some (t, r) => { w with table := t, waiting := w.waiting ++ r.extractors.filterMap ofSlot }
    | none => { w with panicked := true }
  | .extract k =>
    { w with waiting := w.waiting.eraseIdx k, requested := w.requested ++ w.waiting[k]?.toList }
  | .take k =>
    match w.requested[k]? with
    | some f =>
      { w with
        phys := takeOut w.phys f.1 f.2
        requested := w.requested.eraseIdx k
        taken := w.taken ++ [f] }
    | none => w
  | .complete k =>
    match w.taken[k]? with
    | some f =>
      match w.chest.extracted f.1 f.2 with
      | some chest =>
        { w with chest := chest, taken := w.taken.eraseIdx k, completions := w.completions ++ [f] }
      | none => { w with panicked := true }
    | none => w
  | .failRequested k => { w with requested := w.requested.eraseIdx k }
  | .failTaken k => { w with taken := w.taken.eraseIdx k }
  | .depositPriority item => { w with chest := (w.chest.depositPriority item).1 }
  | .deposit stack busSlot =>
    match w.chest.depositPriority stack.item with
    | (chest, none) => { w with chest := chest }
    | (chest, some _) =>
      match chest.deposit stack busSlot with
      | some (chest', r) =>
        { w with
          chest := chest'
          depositing := w.depositing ++ [(chest.invSlotToDeposit, ⟨stack.item, r.nDeposited⟩)]
          deposits := w.deposits ++ [(chest.invSlotToDeposit, r.nDeposited)] }
      | none => { w with panicked := true }
  | .deliver k =>
    match w.depositing[k]? with
    | some f =>
      { w with
        phys := putIn w.phys f.1 f.2
        depositing := w.depositing.eraseIdx k
        delivered := w.delivered ++ [f] }
    | none => w
  | .completeDeposit k => { w with delivered := w.delivered.eraseIdx k }
  | .failDeposit k => { w with depositing := w.depositing.eraseIdx k }

instance (w : World ι) : ∀ e, Decidable (enabled w e)
  | .reserve _ item size =>
    inferInstanceAs (Decidable (∃ info ∈ w.table.items.lookup item, 0 ≤ size ∧ size ≤ info.nStored))
  | .extract k => inferInstanceAs (Decidable (k < w.waiting.length))
  | .take k | .failRequested k => inferInstanceAs (Decidable (k < w.requested.length))
  | .complete k | .failTaken k => inferInstanceAs (Decidable (k < w.taken.length))
  | .depositPriority _ => .isTrue trivial
  | .deposit stack _ =>
    inferInstanceAs (Decidable (0 < stack.size ∧ stack.size ≤ ItemClass.maxSize stack.item))
  | .deliver k | .failDeposit k => inferInstanceAs (Decidable (k < w.depositing.length))
  | .completeDeposit k => inferInstanceAs (Decidable (k < w.delivered.length))

def machine (ι : Type) [DecidableEq ι] [ItemClass ι] : Machine (World ι) (Event ι) :=
  ⟨enabled, next⟩

instance (w : World ι) (e : Event ι) : Decidable ((machine ι).enabled w e) :=
  inferInstanceAs (Decidable (enabled w e))

/-! The three views of a slot. -/

/-- What is left to reserve of the stack that was listed in a slot. -/
def left (listing : List (Option (ItemStack ι))) (t : ItemTable ι Source) (i : ℕ) : ℤ :=
  match listing[i]? with
  | some (some stack) => t.left stack.item (.slot i)
  | _ => 0

def amounts (flights : List (ℕ × ItemStack ι)) : List (ℕ × ℤ) :=
  flights.map fun f => (f.1, f.2.size)

/-- Heaps hold something of every provider, and the chest's providers under the item they were
listed with. -/
def TableInv (listing : List (Option (ItemStack ι))) (t : ItemTable ι Source) : Prop :=
  ∀ item info, t.items.lookup item = some info → info.Stocked ∧
    ∀ p ∈ info.providers, ∀ i, p.extractor = .slot i →
      ∃ stack, listing[i]? = some (some stack) ∧ stack.item = item

/-- The stack that the server sees in a slot agrees with all that is there or on the way. -/
structure Agrees (listing : List (Option (ItemStack ι))) (w : World ι) (i : ℕ)
    (stack : ItemStack ι) : Prop where
  positive : 0 < stack.size
  le_max : stack.size ≤ ItemClass.maxSize stack.item
  phys : ∀ p, w.phys[i]? = some (some p) → p.item = stack.item
  depositing : ∀ f ∈ w.depositing, f.1 = i → f.2.item = stack.item
  reserved : 0 < left listing w.table i + sumOf i w.waiting + sumOf i w.requested + sumOf i w.taken →
    ∃ old, listing[i]? = some (some old) ∧ old.item = stack.item

structure Inv (listing : List (Option (ItemStack ι))) (w : World ι) : Prop where
  alive : w.panicked = false
  chest_length : w.chest.invStacks.length = listing.length
  phys_length : w.phys.length = listing.length
  table : TableInv listing w.table
  waiting : ∀ f ∈ w.waiting, 0 < f.2
  requested : ∀ f ∈ w.requested, 0 < f.2
  taken : ∀ f ∈ w.taken, 0 < f.2
  depositing : ∀ f ∈ w.depositing, 0 < f.2.size
  phys : ∀ (i : ℕ) (p : ItemStack ι), w.phys[i]? = some (some p) → 0 < p.size
  /-- What can still be taken from a slot is physically there. -/
  backed : ∀ i, left listing w.table i + sumOf i w.waiting + sumOf i w.requested ≤ sizeAt w.phys i
  /-- The server sees at least what is there, was taken without being reported, or is on the way. -/
  covered : ∀ i, sizeAt w.phys i + sumOf i w.taken + sumOf i (amounts w.depositing) ≤
    sizeAt w.chest.invStacks i
  history : ∀ i, sizeAt w.chest.invStacks i =
    sizeAt listing i + sumOf i w.deposits - sumOf i w.completions
  agrees : ∀ (i : ℕ) (stack : ItemStack ι), w.chest.invStacks[i]? = some (some stack) →
    Agrees listing w i stack

section
variable {listing : List (Option (ItemStack ι))} {w : World ι}

omit [ItemClass ι] in
theorem left_nonneg (h : TableInv listing w.table) (i : ℕ) : 0 ≤ left listing w.table i := by
  unfold left
  split
  · rename_i stack _
    unfold ItemTable.left
    cases hinfo : w.table.items.lookup stack.item with
    | none => exact le_rfl
    | some info => exact amount_nonneg (h _ info hinfo).1.positive _
  · exact le_rfl

/-- The parts of what is outstanding are not negative. -/
theorem Inv.nonneg (h : Inv listing w) (i : ℕ) :
    0 ≤ left listing w.table i ∧ 0 ≤ sumOf i w.waiting ∧ 0 ≤ sumOf i w.requested ∧
      0 ≤ sumOf i w.taken ∧
      0 ≤ sumOf i (amounts w.depositing) := by
  refine ⟨left_nonneg h.table i, sumOf_nonneg (fun f hf => (h.waiting f hf).le) i,
    sumOf_nonneg (fun f hf => (h.requested f hf).le) i, sumOf_nonneg (fun f hf => (h.taken f hf).le) i,
    sumOf_nonneg (fun f hf => ?_) i⟩
  obtain ⟨g, hg, rfl⟩ := List.mem_map.mp hf
  exact (h.depositing g hg).le

theorem Inv.phys_nonneg (h : Inv listing w) (i : ℕ) : 0 ≤ sizeAt w.phys i := by
  have hb := h.backed i
  have hn := h.nonneg i
  omega

theorem sumOf_filterMap (i : ℕ) (ds : List (Source × ℤ)) :
    sumOf i (ds.filterMap ofSlot) = sumOf (.slot i) ds := by
  induction ds with
  | nil => rfl
  | cons d ds ih =>
    obtain ⟨e, n⟩ := d
    cases e with
    | slot j => simp [ofSlot, ih]
    | other k =>
      rw [List.filterMap_cons_none rfl, ih]
      simp

theorem Inv.reserve (h : Inv listing w) {rule : Rule} {item : ι} {size : ℤ}
    (he : enabled w (.reserve rule item size)) :
    Inv listing (next w (.reserve rule item size)) := by
  obtain ⟨info, hinfo, h0, hle⟩ := he
  replace hinfo : w.table.items.lookup item = some info := hinfo
  obtain ⟨hstocked, hslots⟩ := h.table item info hinfo
  obtain ⟨info', r, hrun, hdraws, hpos, -, -, -, hstocked'⟩ :=
    w.table.reserveItem_draws rule hinfo hstocked h0 hle
  simp only [next, hrun]
  have hwaiting : ∀ f ∈ r.extractors.filterMap ofSlot, 0 < f.2 := by
    intro f hf
    obtain ⟨d, hd, hf⟩ := List.mem_filterMap.mp hf
    obtain ⟨e, n⟩ := d
    cases e with
    | slot j =>
      obtain rfl : (j, n) = f := by simpa [ofSlot] using hf
      exact hpos _ hd
    | other k => simp [ofSlot] at hf
  -- only the chest's own providers of this item count, and they lose what now waits
  have hleft (i : ℕ) :
      left listing (w.table.setInfo item info') i + sumOf i (r.extractors.filterMap ofSlot) =
      left listing w.table i := by
    have hamount := hdraws.amount_eq (.slot i)
    have hamount₀ := amount_nonneg hstocked.positive (.slot i)
    rw [sumOf_filterMap]
    by_cases hlist : ∃ stack, listing[i]? = some (some stack) ∧ stack.item = item
    · obtain ⟨stack, hstack, rfl⟩ := hlist
      unfold left ItemTable.left
      rw [hstack]
      simp only [ItemTable.lookup_setInfo, if_pos, hinfo, Option.elim_some]
      omega
    · have hout : amount (.slot i) info.providers = 0 :=
        amount_eq_zero fun p hp hpe => hlist (hslots p hp i hpe)
      have hnone : sumOf (.slot i) r.extractors = 0 := by
        have hr := amount_nonneg hstocked'.positive (.slot i)
        have hs : 0 ≤ sumOf (.slot i) r.extractors := sumOf_nonneg (fun d hd => (hpos d hd).le) _
        omega
      rw [hnone, add_zero]
      unfold left
      split
      · rename_i stack hstack
        have hne : stack.item ≠ item := fun heq => hlist ⟨stack, hstack, heq⟩
        unfold ItemTable.left
        rw [ItemTable.lookup_setInfo, if_neg hne]
      · rfl
  have hback (i : ℕ) :
      left listing (w.table.setInfo item info') i +
          sumOf i (w.waiting ++ r.extractors.filterMap ofSlot) =
      left listing w.table i + sumOf i w.waiting := by
    rw [sumOf_append, ← hleft i]
    omega
  exact { h with
    table := ItemTable.forall_setInfo h.table ⟨hstocked', fun p hp i hpi => by
      obtain ⟨-, q, hq, hqe, -⟩ := hdraws.mem_of_mem hstocked.positive p hp
      exact hslots q hq i (hqe.trans hpi)⟩
    waiting := fun f hf => (List.mem_append.mp hf).elim (h.waiting f) (hwaiting f)
    backed := fun i => by
      rw [hback]
      exact h.backed i
    agrees := fun i stack hs => { h.agrees i stack hs with
      reserved := fun hpos => (h.agrees i stack hs).reserved (by rwa [hback] at hpos) } }

theorem Inv.extract (h : Inv listing w) (k : ℕ) : Inv listing (next w (.extract k)) := by
  simp only [next]
  cases hk : w.waiting[k]? with
  | none =>
    rw [List.eraseIdx_of_length_le (by simpa using hk), Option.toList_none, List.append_nil]
    exact h
  | some f =>
    have hsum (i : ℕ) := sumOf_eraseIdx hk i
    have hmove (i : ℕ) : sumOf i (w.waiting.eraseIdx k) + sumOf i (w.requested ++ [f]) =
        sumOf i w.waiting + sumOf i w.requested := by
      rw [sumOf_append, hsum i, sumOf_cons, sumOf_nil]
      omega
    exact { h with
      waiting := fun g hg => h.waiting g (List.mem_of_mem_eraseIdx hg)
      requested := fun g hg => by
        rcases List.mem_append.mp hg with hg | hg
        · exact h.requested g hg
        · exact List.mem_singleton.mp hg ▸ h.waiting f (List.mem_of_getElem? hk)
      backed := fun i => by
        have hb := h.backed i
        have hm := hmove i
        simp only [Option.toList_some]
        omega
      agrees := fun i stack hs => { h.agrees i stack hs with
        reserved := fun hpos => (h.agrees i stack hs).reserved (by
          have hm := hmove i
          simp only [Option.toList_some] at hpos
          omega) } }

theorem Inv.take (h : Inv listing w) (k : ℕ) : Inv listing (next w (.take k)) := by
  simp only [next]
  cases hk : w.requested[k]? with
  | none => exact h
  | some f =>
    have hf : f ∈ w.requested := List.mem_of_getElem? hk
    have hpos := h.requested f hf
    have hsum (i : ℕ) := sumOf_eraseIdx hk i
    have hle : f.2 ≤ sizeAt w.phys f.1 := by
      have hb := h.backed f.1
      have hmem := le_sumOf (fun g hg => (h.requested g hg).le) hf
      have hn := h.nonneg f.1
      omega
    -- the slot holds what was reserved, since it holds at least as much
    obtain ⟨p, hp⟩ := exists_of_sizeAt_pos (lt_of_lt_of_le hpos hle)
    have hsize := sizeAt_takeOut hp (hle.trans (sizeAt_some hp).le)
    simp only
    exact { h with
      phys_length := by simpa using h.phys_length
      requested := fun g hg => h.requested g (List.mem_of_mem_eraseIdx hg)
      taken := fun g hg => by
        rcases List.mem_append.mp hg with hg | hg
        · exact h.taken g hg
        · exact List.mem_singleton.mp hg ▸ hpos
      phys := fun i q hq => by
        obtain ⟨p', hp', -, hsize'⟩ := item_of_takeOut hq
        exact hsize' (h.phys i p' hp')
      backed := fun i => by
        have hb := h.backed i
        have hs := hsum i
        simp only [hsize i]
        omega
      covered := fun i => by
        have hc := h.covered i
        simp only [hsize i, sumOf_append, sumOf_cons, sumOf_nil]
        omega
      agrees := fun i stack hs => { h.agrees i stack hs with
        phys := fun q hq => by
          obtain ⟨p', hp', hitem, -⟩ := item_of_takeOut hq
          exact hitem ▸ (h.agrees i stack hs).phys p' hp'
        reserved := fun hout => (h.agrees i stack hs).reserved (by
          have hm := hsum i
          simp only [sumOf_append, sumOf_cons, sumOf_nil] at hout
          omega) } }

theorem Inv.complete (h : Inv listing w) (k : ℕ) : Inv listing (next w (.complete k)) := by
  simp only [next]
  cases hk : w.taken[k]? with
  | none => exact h
  | some f =>
    have hf : f ∈ w.taken := List.mem_of_getElem? hk
    have hpos := h.taken f hf
    have hsum (i : ℕ) := sumOf_eraseIdx hk i
    have hphys := h.phys_nonneg f.1
    have hle : f.2 ≤ sizeAt w.chest.invStacks f.1 := by
      have hc := h.covered f.1
      have hmem := le_sumOf (fun g hg => (h.taken g hg).le) hf
      have hn := h.nonneg f.1
      omega
    -- the server still sees what was taken, so the index and `unwrap` succeed
    obtain ⟨stack, hstack⟩ := exists_of_sizeAt_pos (lt_of_lt_of_le hpos hle)
    have hsize := sizeAt_takeOut hstack (hle.trans (sizeAt_some hstack).le)
    simp only [ChestStorage.extracted_eq hstack]
    exact { h with
      chest_length := by simpa using h.chest_length
      taken := fun g hg => h.taken g (List.mem_of_mem_eraseIdx hg)
      covered := fun i => by
        have hc := h.covered i
        have hs := hsum i
        simp only [hsize i]
        omega
      history := fun i => by
        have hh := h.history i
        simp only [hsize i, sumOf_append, sumOf_cons, sumOf_nil]
        omega
      agrees := fun i q hq => by
        obtain ⟨q', hq', hitem, hq0⟩ := item_of_takeOut hq
        have hag := h.agrees i q' hq'
        have hqsize : q.size ≤ q'.size := by
          have hs := hsize i
          rw [sizeAt_some hq, sizeAt_some hq'] at hs
          split_ifs at hs <;> omega
        exact
          { positive := hq0 hag.positive
            le_max := hitem ▸ hqsize.trans hag.le_max
            phys := fun p hp => (hag.phys p hp).trans hitem
            depositing := fun g hg hgi => (hag.depositing g hg hgi).trans hitem
            reserved := fun hout => by
              have hs := hsum i
              obtain ⟨old, hold, holdi⟩ :=
                hag.reserved (by simp only at hout; split_ifs at hs <;> omega)
              exact ⟨old, hold, holdi.trans hitem⟩ } }

theorem Inv.failRequested (h : Inv listing w) (k : ℕ) :
    Inv listing (next w (.failRequested k)) := by
  simp only [next]
  cases hk : w.requested[k]? with
  | none =>
    rw [List.eraseIdx_of_length_le (by simpa using hk)]
    exact h
  | some f =>
    have hpos := h.requested f (List.mem_of_getElem? hk)
    have hsum (i : ℕ) : sumOf i (w.requested.eraseIdx k) ≤ sumOf i w.requested := by
      have hs := sumOf_eraseIdx hk i
      split_ifs at hs <;> omega
    exact { h with
      requested := fun g hg => h.requested g (List.mem_of_mem_eraseIdx hg)
      backed := fun i => by
        have hb := h.backed i
        have hs := hsum i
        simp only
        omega
      agrees := fun i stack hs => { h.agrees i stack hs with
        reserved := fun hout => (h.agrees i stack hs).reserved (by
          have hs := hsum i
          simp only at hout
          omega) } }

theorem Inv.failTaken (h : Inv listing w) (k : ℕ) : Inv listing (next w (.failTaken k)) := by
  simp only [next]
  cases hk : w.taken[k]? with
  | none =>
    rw [List.eraseIdx_of_length_le (by simpa using hk)]
    exact h
  | some f =>
    have hpos := h.taken f (List.mem_of_getElem? hk)
    have hsum (i : ℕ) : sumOf i (w.taken.eraseIdx k) ≤ sumOf i w.taken := by
      have hs := sumOf_eraseIdx hk i
      split_ifs at hs <;> omega
    exact { h with
      taken := fun g hg => h.taken g (List.mem_of_mem_eraseIdx hg)
      covered := fun i => by
        have hc := h.covered i
        have hs := hsum i
        simp only
        omega
      agrees := fun i stack hs => { h.agrees i stack hs with
        reserved := fun hout => (h.agrees i stack hs).reserved (by
          have hs := hsum i
          simp only at hout
          omega) } }

omit [DecidableEq ι] [ItemClass ι] in
theorem sumOf_amounts_eraseIdx {flights : List (ℕ × ItemStack ι)} {k : ℕ} {f : ℕ × ItemStack ι}
    (h : flights[k]? = some f) (i : ℕ) : sumOf i (amounts flights) =
      (if f.1 = i then f.2.size else 0) + sumOf i (amounts (flights.eraseIdx k)) := by
  have hk : (amounts flights)[k]? = some (f.1, f.2.size) := by simp [amounts, h]
  rw [sumOf_eraseIdx hk, amounts, amounts, List.eraseIdx_map]

omit [DecidableEq ι] [ItemClass ι] in
theorem sumOf_amounts_append (flights : List (ℕ × ItemStack ι)) (f : ℕ × ItemStack ι) (i : ℕ) :
    sumOf i (amounts (flights ++ [f])) =
      sumOf i (amounts flights) + if f.1 = i then f.2.size else 0 := by
  simp [amounts]

/-- A stack on the way into a slot is part of what the server sees there. -/
theorem Inv.le_chest (h : Inv listing w) {f : ℕ × ItemStack ι} (hf : f ∈ w.depositing) :
    sizeAt w.phys f.1 + f.2.size ≤ sizeAt w.chest.invStacks f.1 := by
  have hc := h.covered f.1
  have hn := h.nonneg f.1
  have hpos : ∀ g ∈ amounts w.depositing, 0 ≤ g.2 := by
    intro g hg
    obtain ⟨g', hg', rfl⟩ := List.mem_map.mp hg
    exact (h.depositing g' hg').le
  have hmem : f.2.size ≤ sumOf f.1 (amounts w.depositing) :=
    @le_sumOf _ _ _ hpos (f.1, f.2.size) (List.mem_map.mpr ⟨f, hf, rfl⟩)
  omega

theorem Inv.deliver (h : Inv listing w) (k : ℕ) : Inv listing (next w (.deliver k)) := by
  simp only [next]
  cases hk : w.depositing[k]? with
  | none => exact h
  | some f =>
    have hf : f ∈ w.depositing := List.mem_of_getElem? hk
    have hpos := h.depositing f hf
    have hsum (i : ℕ) := sumOf_amounts_eraseIdx hk i
    have hle := h.le_chest hf
    have hphys := h.phys_nonneg f.1
    -- what is on the way is in the picture already, so the slot exists
    obtain ⟨stack, hstack⟩ := exists_of_sizeAt_pos (by omega : 0 < sizeAt w.chest.invStacks f.1)
    have hlt : f.1 < w.phys.length := by
      rw [h.phys_length, ← h.chest_length]
      exact lt_length_of_some hstack
    have hsize (i : ℕ) := @sizeAt_putIn _ w.phys f.1 f.2 hlt i
    simp only
    exact { h with
      phys_length := by simpa using h.phys_length
      depositing := fun g hg => h.depositing g (List.mem_of_mem_eraseIdx hg)
      phys := fun i q hq => by
        rcases item_of_putIn hq with ⟨q', hq', -, hpos'⟩ | ⟨-, -, rfl⟩
        · exact hpos' (h.phys i q' hq') hpos
        · exact hpos
      backed := fun i => by
        have hb := h.backed i
        simp only [hsize i]
        split_ifs <;> omega
      covered := fun i => by
        have hc := h.covered i
        have hs := hsum i
        simp only [hsize i]
        omega
      agrees := fun i st hs => { h.agrees i st hs with
        phys := fun q hq => by
          have hag := h.agrees i st hs
          rcases item_of_putIn hq with ⟨q', hq', hitem, -⟩ | ⟨hi, -, rfl⟩
          · exact hitem ▸ hag.phys q' hq'
          · exact hag.depositing f hf hi
        depositing := fun g hg hgi =>
          (h.agrees i st hs).depositing g (List.mem_of_mem_eraseIdx hg) hgi } }

theorem Inv.failDeposit (h : Inv listing w) (k : ℕ) : Inv listing (next w (.failDeposit k)) := by
  simp only [next]
  cases hk : w.depositing[k]? with
  | none =>
    rw [List.eraseIdx_of_length_le (by simpa using hk)]
    exact h
  | some f =>
    have hpos := h.depositing f (List.mem_of_getElem? hk)
    exact { h with
      depositing := fun g hg => h.depositing g (List.mem_of_mem_eraseIdx hg)
      covered := fun i => by
        have hc := h.covered i
        have hs := sumOf_amounts_eraseIdx hk i
        simp only
        split_ifs at hs <;> omega
      agrees := fun i stack hs => { h.agrees i stack hs with
        depositing := fun g hg hgi =>
          (h.agrees i stack hs).depositing g (List.mem_of_mem_eraseIdx hg) hgi } }

/-- An empty slot of the server's picture is empty, and nothing is on its way to or from it. -/
theorem Inv.empty (h : Inv listing w) {i : ℕ} (hi : sizeAt w.chest.invStacks i = 0) :
    (∀ p, w.phys[i]? ≠ some (some p)) ∧ (∀ f ∈ w.depositing, f.1 ≠ i) ∧
      left listing w.table i + sumOf i w.waiting + sumOf i w.requested + sumOf i w.taken = 0 := by
  have hc := h.covered i
  have hb := h.backed i
  have hn := h.nonneg i
  have hp := h.phys_nonneg i
  refine ⟨fun p hp' => ?_, ?_, by omega⟩
  · have hpos := h.phys i p hp'
    have hsize := sizeAt_some hp'
    omega
  · rintro f hf rfl
    have hpos := h.depositing f hf
    have hle := h.le_chest hf
    omega

theorem Inv.deposit (h : Inv listing w) {stack : ItemStack ι} {busSlot : ℕ}
    (he : enabled w (.deposit stack busSlot)) : Inv listing (next w (.deposit stack busSlot)) := by
  obtain ⟨hpos, hmax⟩ := he
  have hsame := ChestStorage.depositPriority_stacks w.chest stack.item
  rcases hprio : w.chest.depositPriority stack.item with ⟨chest, _ | prio⟩
  · rw [hprio] at hsame
    simp only at hsame
    simp only [next, hprio]
    exact { h with
      chest_length := hsame ▸ h.chest_length
      covered := fun i => hsame ▸ h.covered i
      history := fun i => hsame ▸ h.history i
      agrees := fun i st hs => { h.agrees i st (hsame ▸ hs) with } }
  · obtain ⟨n, hrun, hcase⟩ := ChestStorage.deposit_eq hprio stack.size busSlot
    simp only [next, hprio, hrun]
    set slot := chest.invSlotToDeposit
    have hlt : slot < w.chest.invStacks.length := by
      rcases hcase with ⟨st, hst, -⟩ | ⟨hst, -⟩
      · exact lt_length_of_some hst
      · exact lt_length_of_some hst
    have hsize (i : ℕ) := @sizeAt_putIn _ w.chest.invStacks slot ⟨stack.item, n⟩ hlt i
    have hn : 0 < n := by
      rcases hcase with ⟨st, -, -, hst, rfl⟩ | ⟨-, rfl⟩
      · omega
      · exact hpos
    exact { h with
      chest_length := by simpa using h.chest_length
      depositing := fun f hf => by
        rcases List.mem_append.mp hf with hf | hf
        · exact h.depositing f hf
        · exact List.mem_singleton.mp hf ▸ hn
      covered := fun i => by
        have hc := h.covered i
        simp only [hsize i, sumOf_amounts_append]
        omega
      history := fun i => by
        have hh := h.history i
        simp only [hsize i, sumOf_append, sumOf_cons, sumOf_nil]
        omega
      agrees := fun i q hq => by
        rcases item_of_putIn hq with ⟨q', hq', hitem, hqpos⟩ | ⟨hi, hnone, rfl⟩
        · have hag := h.agrees i q' hq'
          have hs := hsize i
          rw [sizeAt_some hq, sizeAt_some hq'] at hs
          have hfit : slot = i → q'.item = stack.item ∧
              q'.size + n ≤ ItemClass.maxSize stack.item := by
            rintro rfl
            rcases hcase with ⟨st, hst, hsti, hlt', hn'⟩ | ⟨hnone, -⟩
            · obtain rfl : st = q' := by simpa [hst] using hq'
              exact ⟨hsti, by omega⟩
            · simp [hnone] at hq'
          exact
            { positive := hqpos hag.positive hn
              le_max := by
                rw [hs]
                split_ifs with hi
                · exact hitem ▸ (hfit hi).1 ▸ (hfit hi).2
                · exact hitem ▸ (add_zero q'.size).symm ▸ hag.le_max
              phys := fun p hp => (hag.phys p hp).trans hitem
              depositing := fun f hf hfi => by
                rcases List.mem_append.mp hf with hf | hf
                · exact (hag.depositing f hf hfi).trans hitem
                · obtain rfl := List.mem_singleton.mp hf
                  exact (hfit hfi).1.symm.trans hitem
              reserved := fun hout => by
                obtain ⟨old, hold, holdi⟩ := hag.reserved hout
                exact ⟨old, hold, holdi.trans hitem⟩ }
        · subst hi
          obtain ⟨hphys, hdep, hout⟩ := h.empty (sizeAt_none hnone)
          exact
            { positive := hn
              le_max := by
                rcases hcase with ⟨st, hst, -⟩ | ⟨-, rfl⟩
                · simp [hnone] at hst
                · exact hmax
              phys := fun p hp => absurd hp (hphys p)
              depositing := fun f hf hfi => by
                rcases List.mem_append.mp hf with hf | hf
                · exact absurd hfi (hdep f hf)
                · obtain rfl := List.mem_singleton.mp hf
                  rfl
              reserved := fun hpos => absurd hpos (by simp only; omega) } }

theorem Inv.step (h : Inv listing w) {e : Event ι} (he : enabled w e) : Inv listing (next w e) := by
  cases e with
  | reserve rule item size => exact h.reserve he
  | extract k => exact h.extract k
  | take k => exact h.take k
  | complete k => exact h.complete k
  | failRequested k => exact h.failRequested k
  | failTaken k => exact h.failTaken k
  | depositPriority item =>
    have hsame := ChestStorage.depositPriority_stacks w.chest item
    exact { h with
      chest_length := by simpa only [next, hsame] using h.chest_length
      covered := fun i => by simpa only [next, hsame] using h.covered i
      history := fun i => by simpa only [next, hsame] using h.history i
      agrees := fun i st hs => { h.agrees i st (by simpa only [next, hsame] using hs) with } }
  | deposit stack busSlot => exact h.deposit he
  | deliver k => exact h.deliver k
  | completeDeposit k => exact { h with agrees := fun i st hs => { h.agrees i st hs with } }
  | failDeposit k => exact h.failDeposit k

theorem TableInv.provide {t : ItemTable ι Source} (h : TableInv listing t) (item : ι)
    (p : Provider Source)
    (hp : ∀ i, p.extractor = .slot i → ∃ stack, listing[i]? = some (some stack) ∧ stack.item = item) :
    TableInv listing (t.provide item p) := by
  refine ItemTable.forall_provide h ⟨⟨rfl, by simp [Positive]⟩, by simp⟩ fun info hold =>
    ⟨hold.1.provide p, ?_⟩
  unfold ItemInfo.provide
  split_ifs
  · exact List.forall_mem_cons.mpr ⟨hp, hold.2⟩
  · exact hold.2

theorem registerOthers_spec (others : List (ι × ℤ × ℤ × ℕ)) {t : ItemTable ι Source}
    (h : TableInv listing t) :
    TableInv listing (registerOthers others t) ∧
      ∀ item i, (registerOthers others t).left item (.slot i) = t.left item (.slot i) := by
  induction others generalizing t with
  | nil => exact ⟨h, fun _ _ => rfl⟩
  | cons o others ih =>
    obtain ⟨hinv, hleft⟩ := ih (h.provide o.1 ⟨o.2.1, o.2.2.1, .other o.2.2.2⟩ (by simp))
    refine ⟨hinv, fun item i => ?_⟩
    have hstep := hleft item i
    rw [ItemTable.left_provide, if_neg (by simp), add_zero] at hstep
    exact hstep

theorem registerFrom_spec
    (hpos : ∀ (i : ℕ) (stack : ItemStack ι), listing[i]? = some (some stack) → 0 < stack.size)
    {before rest : List (Option (ItemStack ι))} (hcut : listing = before ++ rest)
    {t : ItemTable ι Source}
    (h : TableInv listing t)
    (hleft : ∀ (i : ℕ) (stack : ItemStack ι), listing[i]? = some (some stack) →
      t.left stack.item (.slot i) = if i < before.length then stack.size else 0) :
    TableInv listing (registerFrom before.length rest t) ∧
      ∀ (i : ℕ) (stack : ItemStack ι), listing[i]? = some (some stack) →
        (registerFrom before.length rest t).left stack.item (.slot i) = stack.size := by
  induction rest generalizing before t with
  | nil =>
    refine ⟨h, fun i stack hs => ?_⟩
    have hlt := lt_length_of_some hs
    rw [hcut, List.append_nil] at hlt
    rw [registerFrom, hleft i stack hs, if_pos hlt]
  | cons v rest ih =>
    have hhere : listing[before.length]? = some v := by simp [hcut]
    have hcut' : listing = (before ++ [v]) ++ rest := by simp [hcut]
    have hlen : before.length + 1 = (before ++ [v]).length := by simp
    cases v with
    | none =>
      rw [registerFrom, hlen]
      apply ih hcut' h
      intro i stack hs
      have hne : i ≠ before.length := by
        rintro rfl
        simp [hhere] at hs
      rw [hleft i stack hs, ← hlen]
      split_ifs <;> omega
    | some new =>
      rw [registerFrom, hlen]
      apply ih hcut' (h.provide _ _ (by
        rintro i hi
        obtain rfl : before.length = i := by simpa using hi
        exact ⟨new, hhere, rfl⟩))
      intro i stack hs
      rw [ItemTable.left_provide, hleft i stack hs, ← hlen]
      by_cases hi : i = before.length
      · subst hi
        obtain rfl : new = stack := by simpa [hhere] using hs
        have hnew := hpos _ _ hhere
        simp only [true_and, if_pos, lt_irrefl, if_false, Nat.lt_succ_self]
        omega
      · have hne : ¬(stack.item = new.item ∧ Source.slot i = Source.slot before.length) := by simp [hi]
        rw [if_neg hne, add_zero]
        split_ifs <;> omega

theorem start_inv (before after : List (ι × ℤ × ℤ × ℕ))
    (hlist : ∀ (i : ℕ) (stack : ItemStack ι), listing[i]? = some (some stack) →
      0 < stack.size ∧ stack.size ≤ ItemClass.maxSize stack.item) :
    Inv listing (start before after listing) := by
  have hempty : TableInv listing (ItemTable.empty : ItemTable ι Source) := by
    intro item info h
    simp [ItemTable.empty] at h
  obtain ⟨hbefore, hleft₁⟩ := registerOthers_spec before hempty
  obtain ⟨hchest, hleft₂⟩ :=
    registerFrom_spec (fun i st hs => (hlist i st hs).1) (List.nil_append listing).symm
    hbefore (fun i st _ => by rw [hleft₁]; simp [ItemTable.left, ItemTable.empty])
  obtain ⟨hafter, hleft₃⟩ := registerOthers_spec after hchest
  have hleft (i : ℕ) : left listing (start before after listing).table i ≤ sizeAt listing i := by
    unfold left
    split
    · rename_i st hst
      rw [sizeAt_some hst]
      exact ((hleft₃ st.item i).trans (hleft₂ i st hst)).le
    · unfold sizeAt
      split
      · exact (hlist i _ ‹_›).1.le
      · exact le_rfl
  exact
    { alive := rfl
      chest_length := rfl
      phys_length := rfl
      table := hafter
      waiting := by simp [start]
      requested := by simp [start]
      taken := by simp [start]
      depositing := by simp [start]
      phys := fun i p hp => (hlist i p hp).1
      backed := fun i => by simpa [start] using hleft i
      covered := fun i => by simp [start, amounts]
      history := fun i => by simp [start]
      agrees := fun i st hs =>
        { positive := (hlist i st hs).1
          le_max := (hlist i st hs).2
          phys := fun p hp => by
            obtain rfl : st = p := by simpa using hs.symm.trans hp
            rfl
          depositing := by simp [start]
          reserved := fun _ => ⟨st, hs, rfl⟩ } }

/-- What the server can rely on in a chest. -/
structure Books (listing : List (Option (ItemStack ι))) (w : World ι) : Prop where
  /-- No index and no `unwrap` failed. -/
  alive : w.panicked = false
  history : ∀ i, sizeAt w.chest.invStacks i =
    sizeAt listing i + sumOf i w.deposits - sumOf i w.completions
  outstanding : ∀ i, sumOf i w.waiting + sumOf i w.requested + sumOf i w.taken ≤
    sizeAt w.chest.invStacks i
  emptied : ∀ i, w.chest.invStacks[i]? = some none →
    ∀ f ∈ w.waiting ++ w.requested ++ w.taken, f.1 ≠ i
  bounded : ∀ (i : ℕ) (stack : ItemStack ι), w.chest.invStacks[i]? = some (some stack) →
    0 < stack.size ∧ stack.size ≤ ItemClass.maxSize stack.item
  physical : ∀ i, sizeAt w.phys i ≤ sizeAt w.chest.invStacks i
  /-- What is on the way into a slot meets no other item there and has room. -/
  fits : ∀ f ∈ w.depositing, (∀ p, w.phys[f.1]? = some (some p) → p.item = f.2.item) ∧
    sizeAt w.phys f.1 + f.2.size ≤ ItemClass.maxSize f.2.item
  /-- What was reserved and not taken yet is there, and is what was reserved. -/
  present : ∀ f ∈ w.waiting ++ w.requested, ∃ p old, w.phys[f.1]? = some (some p) ∧ f.2 ≤ p.size ∧
    listing[f.1]? = some (some old) ∧ p.item = old.item

theorem Inv.books (h : Inv listing w) : Books listing w := by
  have hpos : ∀ f ∈ w.waiting ++ w.requested ++ w.taken, 0 < f.2 := by
    intro f hf
    simp only [List.mem_append] at hf
    rcases hf with (hf | hf) | hf
    · exact h.waiting f hf
    · exact h.requested f hf
    · exact h.taken f hf
  refine ⟨h.alive, h.history, fun i => ?_, ?_,
    fun i st hs => ⟨(h.agrees i st hs).positive, (h.agrees i st hs).le_max⟩, fun i => ?_, ?_, ?_⟩
  · have hc := h.covered i
    have hb := h.backed i
    have hn := h.nonneg i
    omega
  · rintro i hi f hf rfl
    have hout := (h.empty (sizeAt_none hi)).2.2
    have hn := h.nonneg f.1
    have hle := le_sumOf (fun g hg => (hpos g hg).le) hf
    have h0 := hpos f hf
    rw [sumOf_append, sumOf_append] at hle
    omega
  · have hc := h.covered i
    have hn := h.nonneg i
    omega
  · intro f hf
    have hle := h.le_chest hf
    have h0 := h.depositing f hf
    have hp0 := h.phys_nonneg f.1
    obtain ⟨st, hst⟩ := exists_of_sizeAt_pos (by omega : 0 < sizeAt w.chest.invStacks f.1)
    have hag := h.agrees f.1 st hst
    have hitem := hag.depositing f hf rfl
    refine ⟨fun p hp => (hag.phys p hp).trans hitem.symm, ?_⟩
    rw [hitem]
    rw [sizeAt_some hst] at hle
    exact hle.trans hag.le_max
  · intro f hf
    have h0 := hpos f (List.mem_append_left _ hf)
    have hn := h.nonneg f.1
    have hb := h.backed f.1
    have hc := h.covered f.1
    have hle := le_sumOf (fun g hg => (hpos g (List.mem_append_left _ hg)).le) hf
    rw [sumOf_append] at hle
    obtain ⟨p, hp⟩ := exists_of_sizeAt_pos (by omega : 0 < sizeAt w.phys f.1)
    obtain ⟨st, hst⟩ := exists_of_sizeAt_pos (by omega : 0 < sizeAt w.chest.invStacks f.1)
    have hag := h.agrees f.1 st hst
    obtain ⟨old, hold, hitem⟩ := hag.reserved (by omega)
    have hsize := sizeAt_some hp
    exact ⟨p, old, hp, by omega, hold, (hag.phys p hp).trans hitem.symm⟩

end

/-- Whatever the order of reservations, extractions and deposits, the picture that the server has
of a chest accounts for everything, covers what is outstanding, never overflows and is never
below what is there, so that deposits fit and extractions find their items. -/
theorem books_agree (before after : List (ι × ℤ × ℤ × ℕ)) (listing : List (Option (ItemStack ι)))
    (hlist : ∀ v ∈ listing, ∀ stack ∈ v, 0 < stack.size ∧ stack.size ≤ ItemClass.maxSize stack.item)
    (es : List (Event ι)) (hv : (machine ι).Valid (start before after listing) es) :
    Books listing ((machine ι).exec (start before after listing) es) :=
  have hstart : Inv listing (start before after listing) :=
    start_inv before after fun _ stack hs => hlist _ (List.mem_of_getElem? hs) stack rfl
  ((machine ι).invariant (fun _ _ hI he => hI.step he) hstart hv).books

/-- Iron is reserved and taken while iron and gold come in, and the extraction completes last. -/
def busyChest : List (Event (Item ℤ)) :=
  [.reserve (MaxHeap.firstTop _) iron 5, .extract 0, .deposit ⟨iron, 10⟩ 0,
    .deposit ⟨gold, 64⟩ 1, .take 0,
    .deliver 1, .deliver 0, .completeDeposit 0, .complete 0]

theorem books_agree_busyChest :
    let w := (machine (Item ℤ)).exec (start [] [] [some ⟨iron, 5⟩, none]) busyChest
    w.chest.invStacks = [some ⟨iron, 10⟩, some ⟨gold, 64⟩] ∧ w.phys = w.chest.invStacks ∧
      Books [some ⟨iron, 5⟩, none] w :=
  ⟨by decide, by decide, books_agree [] [] _ (by decide) busyChest (by decide +kernel)⟩

end ChestRun
end OCRemote
