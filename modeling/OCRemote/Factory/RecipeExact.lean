import Mathlib.Order.Bounds.Defs
import OCRemote.Factory.ItemIndex
import OCRemote.Factory.Recipe

/-! The number of sets that a recipe can be made in is exactly the greatest that the stock, the
backups and the sizes of full stacks allow. -/

namespace OCRemote
open Tally

section
variable {ι ε : Type} [DecidableEq ι] [ItemClass ι]

/-- Each input is resolved to the item that its search finds. -/
def Resolved (order : Enumeration ι) (t : ItemTable ι ε) (inputs : List (Input ι))
    (items : List ι) : Prop :=
  List.Forall₂ (fun input item => ∃ info, t.searchItem order input.item = some (some (item, info)))
    inputs items

/-- The stacks of `n` sets are not more than full. -/
def Stackable (pairs : List (ι × Input ι)) (n : ℤ) : Prop :=
  ∀ p ∈ pairs, n * p.2.size ≤ ItemClass.maxSize p.1

/-- All inputs of `n` sets that take an item together take no more of it than what is available
for the first of them. -/
def Available (t : ItemTable ι ε) (pairs : List (ι × Input ι)) (n : ℤ) : Prop :=
  ∀ item ∈ pairs.map Prod.fst, n * needed item pairs ≤ firstAvailability t item pairs

omit [DecidableEq ι] in
theorem stackable_iff {pairs : List (ι × Input ι)} (hpos : ∀ p ∈ pairs, 0 < p.2.size) {n : ℤ}
    (hn : 0 < n) :
    (∀ p ∈ pairs, n ≤ (ItemClass.maxSize p.1).tdiv p.2.size) ↔ Stackable pairs n :=
  forall₂_congr fun p hp => le_tdiv_iff hn (hpos p hp)

omit [ItemClass ι] in
theorem needed_pos {pairs : List (ι × Input ι)} (hpos : ∀ p ∈ pairs, 0 < p.2.size) {item : ι}
    (hitem : item ∈ pairs.map Prod.fst) : 0 < needed item pairs := by
  obtain ⟨p, hp, rfl⟩ := List.mem_map.mp hitem
  have hle : p.2.size ≤ needed p.1 pairs := by
    have hmem : (p.1, p.2.size) ∈ pairs.map fun q => (q.1, q.2.size) :=
      List.mem_map.mpr ⟨p, hp, rfl⟩
    refine le_sumOf (fun d hd => ?_) hmem
    obtain ⟨q, hq, rfl⟩ := List.mem_map.mp hd
    exact (hpos q hq).le
  exact (hpos p hp).trans_le hle

omit [ItemClass ι] in
theorem available_iff {t : ItemTable ι ε} {pairs : List (ι × Input ι)}
    (hpos : ∀ p ∈ pairs, 0 < p.2.size) {n : ℤ} (hn : 0 < n) :
    (∀ item ∈ pairs.map Prod.fst,
      n ≤ (firstAvailability t item pairs).tdiv (needed item pairs)) ↔ Available t pairs n :=
  forall₂_congr fun _ hitem => le_tdiv_iff hn (needed_pos hpos hitem)

/-- The loop never fails, and ends early only for an input that nothing matches. -/
theorem resolveLoop_eq_none_iff (order : Enumeration ι) (t : ItemTable ι ε)
    (inputs : List (Input ι)) (items : List ι) (infos : AList fun _ : ι => InputInfo)
    (bound : ℤ) :
    ∃ found, resolveLoop order t inputs items infos bound = some found ∧
      (found = none ↔ ∃ input ∈ inputs, t.searchItem order input.item = some none) := by
  induction inputs generalizing items infos bound with
  | nil => exact ⟨_, rfl, by simp⟩
  | cons input inputs ih =>
    obtain ⟨best, hbest, -⟩ := t.searchItem_spec order input.item
    unfold resolveLoop
    rw [hbest]
    cases best with
    | none => exact ⟨none, rfl, by simp [hbest]⟩
    | some c =>
      obtain ⟨found, hloop, hnone⟩ := ih (items ++ [c.1]) (needInput infos c.1 c.2 input)
        (min bound ((ItemClass.maxSize c.1).tdiv input.size))
      exact ⟨found, hloop, by simp [hnone, hbest]⟩

theorem resolveInputs_of_unmatched {order : Enumeration ι} {t : ItemTable ι ε}
    {inputs : List (Input ι)}
    (h : ∃ input ∈ inputs, t.searchItem order input.item = some none) :
    resolveInputs order t inputs = some none := by
  obtain ⟨found, hloop, hnone⟩ := resolveLoop_eq_none_iff order t inputs [] ∅ i32Max
  rw [resolveInputs, hloop, hnone.mpr h]

theorem Resolved.unique {order : Enumeration ι} {t : ItemTable ι ε} {inputs : List (Input ι)}
    {items items' : List ι} (h : Resolved order t inputs items)
    (h' : Resolved order t inputs items') : items = items' := by
  induction h generalizing items' with
  | nil =>
    cases h'
    rfl
  | cons hfirst _ ih =>
    cases h' with
    | cons hfirst' hrest' =>
      obtain ⟨info, hsearch⟩ := hfirst
      obtain ⟨info', hsearch'⟩ := hfirst'
      have heq := Option.some.inj (Option.some.inj (hsearch.symm.trans hsearch'))
      rw [(Prod.mk.inj heq).1, ih hrest']

/-- What the loop computes when every input matches something. -/
theorem resolveInputs_resolved {order : Enumeration ι} {t : ItemTable ι ε} {inputs : List (Input ι)}
    (hmatch : ∀ input ∈ inputs, t.searchItem order input.item ≠ some none) :
    ∃ items sets priority, Resolved order t inputs items ∧
      resolveInputs order t inputs =
        some (if 0 < sets then some ⟨sets, priority, items⟩ else none) ∧
      (∀ n, n ≤ priority ↔ n ≤ i32Max ∧ ∀ item ∈ (items.zip inputs).map Prod.fst,
        n ≤ (firstAvailability t item (items.zip inputs)).tdiv
          (needed item (items.zip inputs))) ∧
      ∀ n, n ≤ sets ↔ n ≤ priority ∧
        ∀ p ∈ items.zip inputs, n ≤ (ItemClass.maxSize p.1).tdiv p.2.size := by
  obtain ⟨found, hloop, hnone⟩ := resolveLoop_eq_none_iff order t inputs [] ∅ i32Max
  cases found with
  | none =>
    obtain ⟨input, hinput, hsearch⟩ := hnone.mp rfl
    exact absurd hsearch (hmatch input hinput)
  | some c =>
    obtain ⟨items, infos, bound⟩ := c
    obtain ⟨_, rfl, hresolved, hbound⟩ := resolveLoop_found hloop
    have hstart : Noted (∅ : AList fun _ : ι => InputInfo) (entriesOf t []) := fun item => by
      simp [entriesOf]
    have hnoted : Noted infos (entriesOf t (items.zip inputs)) := resolveLoop_noted hloop hstart
    refine ⟨items, min bound (availabilityBound infos), availabilityBound infos, hresolved, ?_,
      hnoted.le_availabilityBound_iff, fun n => ?_⟩
    · unfold resolveInputs
      rw [hloop]
      simp only
      split_ifs <;> rfl
    · rw [le_min_iff, hbound, List.zip_map_right, List.forall_mem_map]
      have hmax := hnoted.le_availabilityBound_iff n
      constructor
      · rintro ⟨⟨-, hsizes⟩, havailable⟩
        exact ⟨havailable, hsizes⟩
      · rintro ⟨havailable, hsizes⟩
        exact ⟨⟨(hmax.mp havailable).1, hsizes⟩, havailable⟩

/-- A positive number that bounds what is allowed, and is allowed, is the greatest that is. -/
theorem isGreatest_of_le_iff {P : ℤ → Prop} {m : ℤ} (hm : 0 < m)
    (h : ∀ n, 0 < n → (n ≤ m ↔ P n)) : IsGreatest {n | P n} m := by
  refine ⟨(h m hm).mp le_rfl, fun n hn => ?_⟩
  by_cases hpos : 0 < n
  · exact (h n hpos).mpr hn
  · omega

omit [ItemClass ι] in
/-- What the first input of an item keeps back is still there after the sets are made. -/
theorem Available.backup {t : ItemTable ι ε} {pairs : List (ι × Input ι)} {n : ℤ}
    (h : Available t pairs n) (hpos : ∀ p ∈ pairs, 0 < p.2.size) (hn : 0 < n) {item : ι}
    {input : Input ι} (hfirst : pairs.find? (fun p => p.1 = item) = some (item, input))
    {info : ItemInfo ε} (hinfo : t.items.lookup item = some info)
    (hfits : i32Min ≤ info.nStored - info.keptBack input.allowBackup input.extraBackup) :
    info.keptBack input.allowBackup input.extraBackup ≤ info.nStored - n * needed item pairs := by
  have hitem : item ∈ pairs.map Prod.fst :=
    List.mem_map.mpr ⟨_, List.mem_of_find?_eq_some hfirst, rfl⟩
  have hle := h item hitem
  have htaken : 0 < n * needed item pairs := mul_pos hn (needed_pos hpos hitem)
  have havailable : firstAvailability t item pairs =
      info.getAvailability input.allowBackup input.extraBackup := by
    simp [firstAvailability, hfirst, availability, hinfo]
  have hmax := info.getAvailability_le_max hfits
  omega

/-- In every state of the factory the inputs resolve to items of which there is most, and the
number of sets and the priority are exactly the greatest that are allowed. -/
theorem resolveInputs_exact {operations : List (ItemTable.Operation ι ε)} {t : ItemTable ι ε}
    (hoperations : ItemTable.run operations = some t) (order : Enumeration ι)
    {inputs : List (Input ι)} (hpos : ∀ input ∈ inputs, 0 < input.size) :
    ∃ found, resolveInputs order t inputs = some found ∧
      (found = none ↔
        (∃ input ∈ inputs, ∀ item ∈ t.items, input.item.apply item = false) ∨
        ∃ items, Resolved order t inputs items ∧
          ¬(Stackable (items.zip inputs) 1 ∧ Available t (items.zip inputs) 1)) ∧
      ∀ r, found = some r →
        List.Forall₂ (fun input item => ∃ info, t.Scanned input.item (some (item, info)))
          inputs r.items ∧
        IsGreatest {n | n ≤ i32Max ∧ Stackable (r.items.zip inputs) n ∧
          Available t (r.items.zip inputs) n} r.nSets ∧
        IsGreatest {n | n ≤ i32Max ∧ Available t (r.items.zip inputs) n} r.priority ∧
        ∀ item input, (r.items.zip inputs).find? (fun p => p.1 = item) = some (item, input) →
          input.allowBackup = false → ∀ info, t.items.lookup item = some info →
            -- the sum fits in 32 bits
            info.nBackup + input.extraBackup ≤ i32Max → info.nBackup + input.extraBackup ≤
              info.nStored - r.nSets * needed item (r.items.zip inputs) := by
  have hindexed := ItemTable.indexed_of_run hoperations
  by_cases hmatch : ∃ input ∈ inputs, t.searchItem order input.item = some none
  · refine ⟨none, resolveInputs_of_unmatched hmatch, iff_of_true rfl (.inl ?_), nofun⟩
    obtain ⟨input, hinput, hsearch⟩ := hmatch
    exact ⟨input, hinput, (hindexed.searchItem_eq_none_iff order input.item).mp hsearch⟩
  · obtain ⟨items, sets, priority, hresolved, hrun, hpriority, hsets⟩ :=
      resolveInputs_resolved fun input hinput hsearch => hmatch ⟨input, hinput, hsearch⟩
    have hpairs (p : ι × Input ι) (hp : p ∈ items.zip inputs) : 0 < p.2.size :=
      hpos p.2 (List.of_mem_zip hp).2
    have hpriority' (n : ℤ) (hn : 0 < n) :
        n ≤ priority ↔ n ≤ i32Max ∧ Available t (items.zip inputs) n := by
      rw [hpriority, available_iff hpairs hn]
    have hsets' (n : ℤ) (hn : 0 < n) : n ≤ sets ↔
        n ≤ i32Max ∧ Stackable (items.zip inputs) n ∧ Available t (items.zip inputs) n := by
      rw [hsets, hpriority' n hn, stackable_iff hpairs hn, and_assoc, and_comm (b := Stackable _ n)]
    refine ⟨_, hrun, ?_, ?_⟩
    · have hone := hsets' 1 one_pos
      constructor
      · intro hnone
        split_ifs at hnone with h0
        exact .inr ⟨items, hresolved, fun hall => h0 (hone.mpr ⟨by decide, hall⟩)⟩
      · rintro (⟨input, hinput, hnone⟩ | ⟨items', hresolved', hnot⟩)
        · exact absurd ⟨input, hinput,
            (hindexed.searchItem_eq_none_iff order input.item).mpr hnone⟩ hmatch
        · obtain rfl := hresolved.unique hresolved'
          exact if_neg fun h0 => hnot (hone.mp h0).2
    · intro r hr
      split_ifs at hr with h0
      obtain rfl := Option.some.inj hr
      have hmost := isGreatest_of_le_iff h0 hsets'
      refine ⟨hresolved.imp fun input item h => ?_, hmost, ?_, ?_⟩
      · obtain ⟨info, hsearch⟩ := h
        obtain ⟨best, hbest, hscan⟩ := hindexed.searchItem_scanned order input.item
        obtain rfl := Option.some.inj (hbest.symm.trans hsearch)
        exact ⟨info, hscan⟩
      · exact isGreatest_of_le_iff (h0.trans_le ((hsets sets).mp le_rfl).1) hpriority'
      · intro item input hfirst hallow info hinfo hfits
        have hkept : info.keptBack input.allowBackup input.extraBackup =
            info.nBackup + input.extraBackup := by
          simp [ItemInfo.keptBack, hallow, add_comm]
        have hstored := (ItemTable.stocked_of_run hoperations item info hinfo).nonneg
        have hbackup := hmost.1.2.2.backup hpairs h0 hfirst hinfo
        rw [hkept] at hbackup
        refine hbackup ?_
        rw [i32Min]
        simp only [i32Max] at hfits
        omega

/-- Two inputs that share ten pieces of iron, of which the first leaves one. -/
def ironInputs : List (Input (Item ℤ)) := [⟨.Label "Iron", 2, false, 1⟩, ⟨.Name "iron", 1, true, 0⟩]

theorem resolveInputs_exact_ironInputs :
    ∃ t : ItemTable (Item ℤ) ℕ, ItemTable.run [.provide iron ⟨0, 10, 0⟩] = some t ∧
      resolveInputs ⟨id, List.Perm.refl⟩ t ironInputs = some (some ⟨3, 3, [iron, iron]⟩) ∧
      IsGreatest {n | n ≤ i32Max ∧ Stackable ([iron, iron].zip ironInputs) n ∧
        Available t ([iron, iron].zip ironInputs) n} 3 := by
  refine ⟨_, rfl, rfl, ?_⟩
  obtain ⟨found, hfound, -, hexact⟩ :=
    @resolveInputs_exact _ _ _ _ [.provide iron ⟨0, 10, 0⟩] _ rfl ⟨id, List.Perm.refl⟩ ironInputs
      (by decide)
  exact (hexact _ (Option.some.inj (hfound.symm.trans rfl))).2.1

end

end OCRemote
