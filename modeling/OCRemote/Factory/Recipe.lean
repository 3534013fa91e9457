import OCRemote.Factory.ItemTable

/-! Inputs of recipes and how many sets of them the stock allows (`recipe.rs`). -/

namespace OCRemote
open Tally

structure Input (ι : Type) where
  item : Filter ι
  size : ℤ
  allowBackup : Bool
  extraBackup : ℤ

structure ResolvedInputs (ι : Type) where
  nSets : ℤ
  priority : ℤ
  items : List ι

structure InputInfo where
  nAvailable : ℤ
  nNeeded : ℤ

section
variable {ι ε : Type} [DecidableEq ι] [ItemClass ι]

/-- Backup params are considered for only the first input of the same item. -/
def needInput (infos : AList fun _ : ι => InputInfo) (item : ι) (info : ItemInfo ε)
    (input : Input ι) :
    AList fun _ : ι => InputInfo :=
  match infos.lookup item with
  | some i => infos.insert item { i with nNeeded := i.nNeeded + input.size }
  | none => infos.insert item ⟨info.getAvailability input.allowBackup input.extraBackup, input.size⟩

/-- The loop over the inputs. The outer `none` is a panic of the search, the inner one the early
return when nothing matches. -/
def resolveLoop (order : Enumeration ι) (t : ItemTable ι ε) : List (Input ι) → List ι →
    (AList fun _ : ι => InputInfo) → ℤ →
      Option (Option (List ι × (AList fun _ : ι => InputInfo) × ℤ))
  | [], items, infos, maxSizeBound => some (some (items, infos, maxSizeBound))
  | input :: inputs, items, infos, maxSizeBound =>
    match t.searchItem order input.item with
    | none => none
    | some none => some none
    | some (some (item, info)) =>
      resolveLoop order t inputs (items ++ [item]) (needInput infos item info input)
        (min maxSizeBound ((ItemClass.maxSize item).tdiv input.size))

def availabilityBound (infos : AList fun _ : ι => InputInfo) : ℤ :=
  infos.entries.foldl (fun bound e => min bound (e.2.nAvailable.tdiv e.2.nNeeded)) i32Max

def resolveInputs (order : Enumeration ι) (t : ItemTable ι ε) (inputs : List (Input ι)) :
    Option (Option (ResolvedInputs ι)) :=
  match resolveLoop order t inputs [] ∅ i32Max with
  | none => none
  | some none => some none
  | some (some (items, infos, maxSizeBound)) =>
    let nSets := min maxSizeBound (availabilityBound infos)
    if 0 < nSets then some (some ⟨nSets, availabilityBound infos, items⟩) else some none

omit [ItemClass ι] in
theorem sumOf_map_mul (k : ℤ) (rs : List (ι × ℤ)) (item : ι) :
    sumOf item (rs.map fun r => (r.1, k * r.2)) = k * sumOf item rs := by
  induction rs with
  | nil => simp
  | cons r rs ih =>
    rw [List.map_cons, sumOf_cons, sumOf_cons, ih, Int.mul_add]
    split_ifs <;> simp

theorem le_tdiv_iff {n a b : ℤ} (hn : 0 < n) (hb : 0 < b) : n ≤ a.tdiv b ↔ n * b ≤ a := by
  constructor
  · intro h
    have ha : 0 ≤ a := by
      by_contra hneg
      have := Int.tdiv_nonneg (show 0 ≤ -a by omega) hb.le
      rw [Int.neg_tdiv] at this
      omega
    rw [Int.tdiv_eq_ediv_of_nonneg ha] at h
    exact Int.mul_le_of_le_ediv hb h
  · exact Int.le_tdiv_of_mul_le hb

/-- What the loop knows after it resolved `requests`, one pair of an item and a size for each
input so far. -/
def Needs (t : ItemTable ι ε) (infos : AList fun _ : ι => InputInfo)
    (requests : List (ι × ℤ)) : Prop :=
  (∀ r ∈ requests, 0 < r.2 ∧ r.1 ∈ infos) ∧
  ∀ item i, infos.lookup item = some i → i.nNeeded = sumOf item requests ∧ 0 < i.nNeeded ∧
    ∃ info, t.items.lookup item = some info ∧ 0 ≤ i.nAvailable ∧ i.nAvailable ≤ info.nStored

omit [ItemClass ι] in
theorem Needs.sumOf_eq_zero {t : ItemTable ι ε} {infos : AList fun _ : ι => InputInfo}
    {requests : List (ι × ℤ)}
    (h : Needs t infos requests) {item : ι} (hi : infos.lookup item = none) :
    sumOf item requests = 0 := by
  apply Tally.sumOf_eq_zero
  rintro r hr rfl
  have hmem := AList.lookup_isSome.mpr (h.1 r hr).2
  simp [hi] at hmem

omit [ItemClass ι] in
theorem Needs.step {t : ItemTable ι ε} {infos : AList fun _ : ι => InputInfo}
    {requests : List (ι × ℤ)}
    (h : Needs t infos requests) {item : ι} {info : ItemInfo ε} {input : Input ι}
    (hitem : t.items.lookup item = some info) (hs : 0 ≤ info.nStored) (hb : 0 ≤ info.nBackup)
    (hsize : 0 < input.size) (hextra : 0 ≤ input.extraBackup)
    (hfits : info.keptBack input.allowBackup input.extraBackup ≤ i32Max) :
    Needs t (needInput infos item info input) (requests ++ [(item, input.size)]) := by
  have hlookup (item' : ι) : (needInput infos item info input).lookup item' =
      if item' = item then
        some (match infos.lookup item with
          | some i => { i with nNeeded := i.nNeeded + input.size }
          | none => ⟨info.getAvailability input.allowBackup input.extraBackup, input.size⟩)
      else infos.lookup item' := by
    unfold needInput
    split_ifs with hi
    · subst hi
      cases infos.lookup item' <;> exact AList.lookup_insert _
    · cases infos.lookup item <;> exact AList.lookup_insert_ne hi
  constructor
  · intro r hr
    rw [← AList.lookup_isSome, hlookup]
    rcases List.mem_append.mp hr with hr | hr
    · refine ⟨(h.1 r hr).1, ?_⟩
      split_ifs
      · rfl
      · exact AList.lookup_isSome.mpr (h.1 r hr).2
    · obtain rfl := List.mem_singleton.mp hr
      exact ⟨hsize, by rw [if_pos rfl]; rfl⟩
  · intro item' i hi
    rw [hlookup] at hi
    have hsum : sumOf item' (requests ++ [(item, input.size)]) =
        sumOf item' requests + if item = item' then input.size else 0 := by simp
    rw [hsum]
    by_cases heq : item' = item
    · subst heq
      rw [if_pos rfl] at hi ⊢
      cases hold : infos.lookup item' with
      | none =>
        simp only [hold, Option.some.injEq] at hi
        subst hi
        rw [Needs.sumOf_eq_zero h hold]
        exact ⟨(zero_add _).symm, hsize, info, hitem, ItemInfo.getAvailability_nonneg ..,
          ItemInfo.getAvailability_le hs hb hextra hfits⟩
      | some i' =>
        simp only [hold, Option.some.injEq] at hi
        subst hi
        obtain ⟨hneed, hpos, hrest⟩ := h.2 item' i' hold
        exact ⟨by rw [hneed], by simp only; omega, hrest⟩
    · rw [if_neg heq] at hi
      rw [if_neg (Ne.symm heq), add_zero]
      exact h.2 item' i hi

/-- What the inputs ask to be left of the items that they find fits in 32 bits. -/
def KeptFits (order : Enumeration ι) (t : ItemTable ι ε) (inputs : List (Input ι)) : Prop :=
  ∀ input ∈ inputs, ∀ c ∈ (t.searchItem order input.item).join,
    c.2.keptBack input.allowBackup input.extraBackup ≤ i32Max

instance (order : Enumeration ι) (t : ItemTable ι ε) (inputs : List (Input ι)) :
    Decidable (KeptFits order t inputs) :=
  inferInstanceAs (Decidable (∀ input ∈ inputs, ∀ c ∈ (t.searchItem order input.item).join, _))

/-- The loop finishes, and what it found is right for all inputs together. -/
theorem resolveLoop_needs (order : Enumeration ι) {t : ItemTable ι ε}
    (ht : ∀ item info, t.items.lookup item = some info → 0 ≤ info.nStored ∧ 0 ≤ info.nBackup)
    {inputs : List (Input ι)} (hin : ∀ input ∈ inputs, 0 < input.size ∧ 0 ≤ input.extraBackup)
    (hfits : KeptFits order t inputs)
    {items : List ι} {infos : AList fun _ : ι => InputInfo} {sizes : List ℤ}
    (hlen : items.length = sizes.length)
    (h : Needs t infos (items.zip sizes)) (bound : ℤ) :
    ∃ found, resolveLoop order t inputs items infos bound = some found ∧
      ∀ items' infos' bound', found = some (items', infos', bound') →
        items'.length = (sizes ++ inputs.map Input.size).length ∧
          Needs t infos' (items'.zip (sizes ++ inputs.map Input.size)) := by
  induction inputs generalizing items infos sizes bound with
  | nil =>
    refine ⟨_, rfl, fun items' infos' bound' hf => ?_⟩
    obtain ⟨rfl, rfl, -⟩ : items = items' ∧ infos = infos' ∧ bound = bound' := by simpa using hf
    simpa using ⟨hlen, h⟩
  | cons input inputs ih =>
    obtain ⟨hinput, hin⟩ := List.forall_mem_cons.mp hin
    obtain ⟨hfirst, hfits⟩ := List.forall_mem_cons.mp hfits
    obtain ⟨best, hbest, hmem⟩ := t.searchItem_spec order input.item
    unfold resolveLoop
    rw [hbest]
    cases best with
    | none => exact ⟨none, rfl, by simp⟩
    | some c =>
      have hitem := hmem c.1 c.2 rfl
      have hkept := hfirst c (by rw [hbest]; rfl)
      have hlen' : (items ++ [c.1]).length = (sizes ++ [input.size]).length := by simp [hlen]
      have hstep := h.step hitem (ht _ _ hitem).1 (ht _ _ hitem).2 hinput.1 hinput.2 hkept
      have hzip : items.zip sizes ++ [(c.1, input.size)] =
          (items ++ [c.1]).zip (sizes ++ [input.size]) := by
        rw [List.zip_append hlen]
        rfl
      rw [hzip] at hstep
      simpa using ih hin hfits hlen' hstep (min bound ((ItemClass.maxSize c.1).tdiv input.size))

omit [DecidableEq ι] [ItemClass ι] in
theorem le_foldl_min (l : List (Sigma fun _ : ι => InputInfo)) (bound n : ℤ) :
    n ≤ l.foldl (fun bound e => min bound (e.2.nAvailable.tdiv e.2.nNeeded)) bound ↔
      n ≤ bound ∧ ∀ e ∈ l, n ≤ e.2.nAvailable.tdiv e.2.nNeeded := by
  induction l generalizing bound with
  | nil => simp
  | cons e l ih => rw [List.foldl_cons, ih, le_min_iff, List.forall_mem_cons, and_assoc]

/-- The loop appends one item for each input, the one that its search finds, and the sizes of
full stacks lower the bound. -/
theorem resolveLoop_found {order : Enumeration ι} {t : ItemTable ι ε} {inputs : List (Input ι)}
    {items items' : List ι} {infos infos' : AList fun _ : ι => InputInfo} {bound bound' : ℤ}
    (h : resolveLoop order t inputs items infos bound = some (some (items', infos', bound'))) :
    ∃ found, items' = items ++ found ∧
      List.Forall₂ (fun input item => ∃ info,
        t.searchItem order input.item = some (some (item, info))) inputs found ∧
      ∀ n, n ≤ bound' ↔ n ≤ bound ∧
        ∀ p ∈ found.zip (inputs.map Input.size), n ≤ (ItemClass.maxSize p.1).tdiv p.2 := by
  induction inputs generalizing items infos bound with
  | nil =>
    obtain ⟨rfl, rfl, rfl⟩ : items = items' ∧ infos = infos' ∧ bound = bound' := by
      simpa [resolveLoop] using h
    exact ⟨[], by simp, .nil, by simp⟩
  | cons input inputs ih =>
    unfold resolveLoop at h
    split at h
    · simp at h
    · simp at h
    · rename_i item info hsearch
      obtain ⟨found, rfl, hfound, hbound⟩ := ih h
      refine ⟨item :: found, by simp, .cons ⟨info, hsearch⟩ hfound, fun n => ?_⟩
      rw [hbound, le_min_iff, List.map_cons, List.zip_cons_cons, List.forall_mem_cons, and_assoc]

/-- A recipe that can be made has an item of the table for each input, and no stack of it is more
than full. -/
theorem resolveInputs_found {order : Enumeration ι} {t : ItemTable ι ε} {inputs : List (Input ι)}
    {r : ResolvedInputs ι} (h : resolveInputs order t inputs = some (some r)) :
    0 < r.nSets ∧ r.items.length = inputs.length ∧ (∀ item ∈ r.items, item ∈ t.items) ∧
      ∀ p ∈ r.items.zip (inputs.map Input.size), r.nSets ≤ (ItemClass.maxSize p.1).tdiv p.2 := by
  unfold resolveInputs at h
  split at h
  · simp at h
  · simp at h
  · rename_i items infos bound hloop
    obtain ⟨found, rfl, hfound, hbound⟩ := resolveLoop_found hloop
    simp only at h
    split_ifs at h with hsets
    · obtain rfl := Option.some.inj (Option.some.inj h)
      refine ⟨hsets, hfound.length_eq.symm, fun item hitem => ?_,
        ((hbound _).mp (min_le_left _ _)).2⟩
      obtain ⟨input, -, info, hsearch⟩ := List.exists_of_forall₂ hfound hitem
      obtain ⟨best, hbest, hlookup⟩ := t.searchItem_spec order input.item
      have hitem := hlookup item info (Option.some.inj (hbest.symm.trans hsearch))
      exact AList.lookup_isSome.mp (by rw [hitem]; rfl)
    · simp at h

/-- Each item of a recipe that can be made is what the search of its input finds. -/
theorem resolveInputs_search {order : Enumeration ι} {t : ItemTable ι ε} {inputs : List (Input ι)}
    {r : ResolvedInputs ι} (h : resolveInputs order t inputs = some (some r)) {p : ι × Input ι}
    (hp : p ∈ r.items.zip inputs) :
    ∃ info, t.searchItem order p.2.item = some (some (p.1, info)) := by
  unfold resolveInputs at h
  split at h
  · simp at h
  · simp at h
  · rename_i items infos bound hloop
    obtain ⟨found, rfl, hfound, -⟩ := resolveLoop_found hloop
    simp only at h
    split_ifs at h
    · obtain rfl := Option.some.inj (Option.some.inj h)
      exact (List.forall₂_iff_zip.mp hfound.flip).2 hp
    · simp at h

theorem resolveInputs_bounds {order : Enumeration ι} {t : ItemTable ι ε} {inputs : List (Input ι)}
    {r : ResolvedInputs ι} (h : resolveInputs order t inputs = some (some r)) :
    0 < r.nSets ∧ r.nSets ≤ r.priority ∧ r.priority ≤ i32Max := by
  unfold resolveInputs at h
  split at h
  · simp at h
  · simp at h
  · rename_i items infos bound hloop
    simp only at h
    split_ifs at h with hsets
    · obtain rfl := Option.some.inj (Option.some.inj h)
      exact ⟨hsets, min_le_right _ _, ((le_foldl_min infos.entries i32Max _).mp le_rfl).1⟩
    · simp at h

/-- What `needInput` does to the infos, for anything of which so much is available. -/
def need {κ : Type} [DecidableEq κ] (infos : AList fun _ : κ => InputInfo) (key : κ)
    (nAvailable size : ℤ) : AList fun _ : κ => InputInfo :=
  match infos.lookup key with
  | some i => infos.insert key { i with nNeeded := i.nNeeded + size }
  | none => infos.insert key ⟨nAvailable, size⟩

/-- The entries so far: what is available of a key is what its first entry says, and what is needed
of it is the sum of all. -/
def Noted {κ : Type} [DecidableEq κ] (infos : AList fun _ : κ => InputInfo)
    (entries : List (κ × ℤ × ℤ)) : Prop :=
  ∀ key, infos.lookup key = (entries.find? fun e => e.1 = key).map fun e =>
    ⟨e.2.1, sumOf key (entries.map fun e => (e.1, e.2.2))⟩

omit [DecidableEq ι] [ItemClass ι] in
theorem Noted.step {κ : Type} [DecidableEq κ] {infos : AList fun _ : κ => InputInfo}
    {entries : List (κ × ℤ × ℤ)} (h : Noted infos entries) (key : κ) (nAvailable size : ℤ) :
    Noted (need infos key nAvailable size) (entries ++ [(key, nAvailable, size)]) := by
  intro other
  have hlookup : (need infos key nAvailable size).lookup other =
      if other = key then some (match infos.lookup key with
        | some i => { i with nNeeded := i.nNeeded + size }
        | none => ⟨nAvailable, size⟩)
      else infos.lookup other := by
    unfold need
    split_ifs with hother
    · subst hother
      cases infos.lookup other <;> exact AList.lookup_insert _
    · cases infos.lookup key <;> exact AList.lookup_insert_ne hother
  rw [hlookup, List.find?_append, List.map_append, sumOf_append]
  by_cases hother : other = key
  · subst hother
    rw [if_pos rfl, h other]
    cases hfirst : entries.find? fun e => e.1 = other with
    | some e => simp
    | none =>
      have hzero : sumOf other (entries.map fun e => (e.1, e.2.2)) = 0 := by
        apply sumOf_eq_zero
        intro d hd
        obtain ⟨e, he, rfl⟩ := List.mem_map.mp hd
        simpa using List.find?_eq_none.mp hfirst e he
      simp [hzero]
  · rw [if_neg hother, h other]
    simp [Ne.symm hother]

/-- What is available of an item for an input. -/
def availability (t : ItemTable ι ε) (item : ι) (input : Input ι) : ℤ :=
  (t.items.lookup item).elim 0 fun info =>
    info.getAvailability input.allowBackup input.extraBackup

/-- The availability of an item under the backup params of the first input that takes it. -/
def firstAvailability (t : ItemTable ι ε) (item : ι) (pairs : List (ι × Input ι)) : ℤ :=
  (pairs.find? fun p => p.1 = item).elim 0 fun p => availability t item p.2

/-- How much of an item one set takes. -/
def needed (item : ι) (pairs : List (ι × Input ι)) : ℤ :=
  sumOf item (pairs.map fun p => (p.1, p.2.size))

def entriesOf (t : ItemTable ι ε) (pairs : List (ι × Input ι)) : List (ι × ℤ × ℤ) :=
  pairs.map fun p => (p.1, availability t p.1 p.2, p.2.size)

omit [ItemClass ι] in
theorem Noted.lookup {t : ItemTable ι ε} {infos : AList fun _ : ι => InputInfo}
    {pairs : List (ι × Input ι)} (h : Noted infos (entriesOf t pairs)) (item : ι) :
    infos.lookup item = if item ∈ pairs.map Prod.fst then
      some ⟨firstAvailability t item pairs, needed item pairs⟩ else none := by
  rw [h item, entriesOf, List.find?_map, firstAvailability, needed, List.map_map]
  split_ifs with hmem
  · obtain ⟨p, hp, rfl⟩ := List.mem_map.mp hmem
    obtain ⟨q, hq⟩ : ∃ q, pairs.find? (fun q => q.1 = p.1) = some q :=
      Option.isSome_iff_exists.mp (List.find?_isSome.mpr ⟨p, hp, by simp⟩)
    have hkey : q.1 = p.1 := by simpa using List.find?_some hq
    simp [Function.comp_def, hq, hkey]
  · have hnone : pairs.find? (fun p => p.1 = item) = none := by
      rw [List.find?_eq_none]
      intro p hp heq
      exact hmem (List.mem_map.mpr ⟨p, hp, by simpa using heq⟩)
    simp [Function.comp_def, hnone]

omit [ItemClass ι] in
/-- The bound is the least of the bounds of the items that are noted. -/
theorem Noted.le_availabilityBound_iff {t : ItemTable ι ε} {infos : AList fun _ : ι => InputInfo}
    {pairs : List (ι × Input ι)} (h : Noted infos (entriesOf t pairs)) (n : ℤ) :
    n ≤ availabilityBound infos ↔ n ≤ i32Max ∧ ∀ item ∈ pairs.map Prod.fst,
      n ≤ (firstAvailability t item pairs).tdiv (needed item pairs) := by
  rw [availabilityBound, le_foldl_min]
  refine and_congr_right fun _ => ⟨fun havailable item hitem => ?_, fun havailable e he => ?_⟩
  · have hlookup := h.lookup item
    rw [if_pos hitem] at hlookup
    exact havailable ⟨item, _⟩ (AList.mem_lookup_iff.mp hlookup)
  · have hlookup := h.lookup e.1
    rw [AList.mem_lookup_iff.mpr he] at hlookup
    split_ifs at hlookup with hitem
    rw [Option.some.inj hlookup]
    exact havailable e.1 hitem

/-- The loop notes what it finds. -/
theorem resolveLoop_noted {order : Enumeration ι} {t : ItemTable ι ε} {inputs : List (Input ι)}
    {items found : List ι} {infos infos' : AList fun _ : ι => InputInfo} {bound bound' : ℤ}
    (h : resolveLoop order t inputs items infos bound = some (some (items ++ found, infos', bound')))
    {pairs : List (ι × Input ι)} (hnoted : Noted infos (entriesOf t pairs)) :
    Noted infos' (entriesOf t (pairs ++ found.zip inputs)) := by
  induction inputs generalizing items infos bound pairs found with
  | nil =>
    obtain ⟨hitems, rfl, -⟩ : items = items ++ found ∧ infos = infos' ∧ bound = bound' := by
      simpa [resolveLoop] using h
    obtain rfl : found = [] := by simpa using hitems
    simpa using hnoted
  | cons input inputs ih =>
    unfold resolveLoop at h
    split at h
    · simp at h
    · simp at h
    · rename_i item info hsearch
      obtain ⟨rest, hrest, -, -⟩ := resolveLoop_found h
      rw [List.append_assoc, List.append_cancel_left_eq] at hrest
      subst hrest
      obtain ⟨best, hbest, hlookup⟩ := t.searchItem_spec order input.item
      have hinfo := hlookup item info (Option.some.inj (hbest.symm.trans hsearch))
      rw [List.singleton_append, List.zip_cons_cons, List.append_cons]
      refine ih (by rwa [List.append_assoc]) ?_
      have hneed : needInput infos item info input =
          need infos item (availability t item input) input.size := by
        rw [availability, hinfo]
        rfl
      rw [hneed]
      simpa [entriesOf] using hnoted.step item (availability t item input) input.size

/-- The number of sets is the greatest that the sizes of full stacks and the availabilities allow. -/
theorem resolveInputs_le_iff {order : Enumeration ι} {t : ItemTable ι ε} {inputs : List (Input ι)}
    {r : ResolvedInputs ι} (h : resolveInputs order t inputs = some (some r)) (n : ℤ) :
    n ≤ r.nSets ↔ n ≤ i32Max ∧
      (∀ p ∈ r.items.zip (inputs.map Input.size), n ≤ (ItemClass.maxSize p.1).tdiv p.2) ∧
      ∀ item ∈ r.items, n ≤ (firstAvailability t item (r.items.zip inputs)).tdiv
        (needed item (r.items.zip inputs)) := by
  unfold resolveInputs at h
  split at h
  · simp at h
  · simp at h
  · rename_i items infos bound hloop
    obtain ⟨_, rfl, hfound, hbound⟩ := resolveLoop_found hloop
    have hstart : Noted (∅ : AList fun _ : ι => InputInfo) (entriesOf t []) := fun item => by
      simp [entriesOf]
    have hnoted : Noted infos (entriesOf t (items.zip inputs)) := resolveLoop_noted hloop hstart
    simp only at h
    split_ifs at h with hsets
    · obtain rfl := Option.some.inj (Option.some.inj h)
      simp only [le_min_iff, hbound, hnoted.le_availabilityBound_iff,
        List.map_fst_zip hfound.length_eq.ge]
      constructor
      · rintro ⟨⟨hmax, hsizes⟩, -, havailable⟩
        exact ⟨hmax, hsizes, havailable⟩
      · rintro ⟨hmax, hsizes, havailable⟩
        exact ⟨⟨hmax, hsizes⟩, hmax, havailable⟩
    · simp at h

omit [ItemClass ι] in
theorem firstAvailability_nonneg (t : ItemTable ι ε) (item : ι) (pairs : List (ι × Input ι)) :
    0 ≤ firstAvailability t item pairs := by
  unfold firstAvailability
  cases pairs.find? fun p => p.1 = item with
  | none => exact le_rfl
  | some p =>
    show 0 ≤ (t.items.lookup item).elim 0 _
    cases t.items.lookup item with
    | none => exact le_rfl
    | some info => exact info.getAvailability_nonneg _ _

/-- A recipe that can be made takes something of each of its inputs. -/
theorem resolveInputs_pos {order : Enumeration ι} {t : ItemTable ι ε} {inputs : List (Input ι)}
    {r : ResolvedInputs ι} (h : resolveInputs order t inputs = some (some r)) :
    ∀ input ∈ inputs, 0 < input.size := by
  obtain ⟨hpos, hlen, -⟩ := resolveInputs_found h
  obtain ⟨-, hmax, havailable⟩ := (resolveInputs_le_iff h r.nSets).mp le_rfl
  rw [List.zip_map_right] at hmax
  intro input hinput
  obtain ⟨item, hmem⟩ : ∃ item, (item, input) ∈ r.items.zip inputs := by
    rw [← List.map_snd_zip hlen.ge] at hinput
    obtain ⟨p, hp, rfl⟩ := List.mem_map.mp hinput
    exact ⟨p.1, hp⟩
  have hbound (p : ι × Input ι) (hp : p ∈ r.items.zip inputs) :
      0 < (ItemClass.maxSize p.1).tdiv p.2.size :=
    hpos.trans_le (hmax _ (List.mem_map.mpr ⟨p, hp, rfl⟩))
  by_contra hneg
  -- all inputs of one item have the sign of the size of a full stack of it
  have hstack : ItemClass.maxSize item < 0 := by
    by_contra hstack
    have hle := Int.tdiv_nonpos_of_nonneg_of_nonpos (not_lt.mp hstack) (not_lt.mp hneg)
    exact absurd (hbound _ hmem) (not_lt.mpr hle)
  have hneeded : needed item (r.items.zip inputs) ≤ 0 := by
    refine sumOf_nonpos fun d hd heq => ?_
    obtain ⟨p, hp, rfl⟩ := List.mem_map.mp hd
    obtain rfl : p.1 = item := heq
    by_contra hsize
    have hsize : 0 < p.2.size := not_le.mp hsize
    have hle := Int.tdiv_nonneg (neg_nonneg.mpr hstack.le) hsize.le
    rw [Int.neg_tdiv] at hle
    have := hbound p hp
    omega
  have hle := havailable item (List.of_mem_zip hmem).1
  have hnone := Int.tdiv_nonpos_of_nonneg_of_nonpos
    (firstAvailability_nonneg t item (r.items.zip inputs)) hneeded
  omega

/-- Resolving never fails, and for no item do the sets it allows need more than is stored,
however many inputs share the item. -/
theorem resolveInputs_spec (order : Enumeration ι) {t : ItemTable ι ε}
    (ht : ∀ item info, t.items.lookup item = some info → 0 ≤ info.nStored ∧ 0 ≤ info.nBackup)
    {inputs : List (Input ι)} (hin : ∀ input ∈ inputs, 0 < input.size ∧ 0 ≤ input.extraBackup)
    (hfits : KeptFits order t inputs) :
    ∃ found, resolveInputs order t inputs = some found ∧ ∀ r, found = some r →
      0 < r.nSets ∧ r.items.length = inputs.length ∧
        (∀ item ∈ r.items, item ∈ t.items) ∧
        ∀ item info, t.items.lookup item = some info →
          r.nSets * sumOf item (r.items.zip (inputs.map Input.size)) ≤ info.nStored := by
  have h0 : Needs t (∅ : AList fun _ : ι => InputInfo) (([] : List ι).zip ([] : List ℤ)) := by
    constructor <;> simp
  obtain ⟨found, hfound, hspec⟩ := resolveLoop_needs order ht hin hfits rfl h0 i32Max
  unfold resolveInputs
  rw [hfound]
  cases found with
  | none => exact ⟨none, rfl, by simp⟩
  | some c =>
    obtain ⟨items, infos, bound⟩ := c
    obtain ⟨hlen, hneeds⟩ := hspec items infos bound rfl
    simp only [List.nil_append, List.length_map] at hlen hneeds
    simp only
    split_ifs with hsets
    · refine ⟨_, rfl, ?_⟩
      rintro r hr
      obtain rfl := (Option.some.inj hr).symm
      -- every item that was found has its needs noted
      have hlookup (item : ι) (hi : item ∈ items) : item ∈ infos := by
        obtain ⟨k, hk, rfl⟩ := List.mem_iff_getElem.mp hi
        have hk' : k < (items.zip (inputs.map Input.size)).length := by simp; omega
        have hm := List.getElem_mem hk'
        rw [List.getElem_zip] at hm
        exact (hneeds.1 _ hm).2
      refine ⟨hsets, hlen, fun item hi => ?_, fun item info hinfo => ?_⟩
      · obtain ⟨i, hi⟩ := Option.isSome_iff_exists.mp (AList.lookup_isSome.mpr (hlookup item hi))
        obtain ⟨-, -, info, hinfo, -⟩ := hneeds.2 item i hi
        exact AList.lookup_isSome.mp (by rw [hinfo]; rfl)
      · cases hi : infos.lookup item with
        | none =>
          rw [Needs.sumOf_eq_zero hneeds hi, Int.mul_zero]
          exact (ht item info hinfo).1
        | some i =>
          obtain ⟨hneed, hpos, info', hinfo', hav0, hav⟩ := hneeds.2 item i hi
          obtain rfl : info' = info := Option.some.inj (hinfo'.symm.trans hinfo)
          have hmem : (⟨item, i⟩ : Sigma fun _ : ι => InputInfo) ∈ infos.entries :=
            AList.mem_lookup_iff.mp hi
          have hbound : min bound (availabilityBound infos) ≤ i.nAvailable / i.nNeeded := by
            rw [← Int.tdiv_eq_ediv_of_nonneg hav0]
            exact (min_le_right _ _).trans (((le_foldl_min infos.entries i32Max _).mp le_rfl).2 _ hmem)
          rw [← hneed]
          exact (Int.mul_le_of_le_ediv hpos hbound).trans hav
    · exact ⟨none, rfl, by simp⟩

end

end OCRemote
