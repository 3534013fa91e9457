import OCRemote.Factory.ReserveEach

/-! The sets of a recipe in the C++ server (`Factory.h`, `Factory.cpp`). An item that several inputs
take keeps its backup as soon as one of them must not take it, where the other server asks only the
first of them. The maps of this server have an order of their own. -/

namespace OCRemote
open Tally

namespace CppRecipe
variable {ι ε : Type} [DecidableEq ι]

structure InputAvailInfo where
  avail : ℤ
  needed : ℤ
  allowBackup : Bool

/-- `Factory::getAvail` of an item. -/
def getAvail (t : ItemTable ι ε) (item : ι) (allowBackup : Bool) : ℤ :=
  (t.items.lookup item).elim 0 fun info =>
    if allowBackup then info.nStored else max 0 (info.nStored - info.nBackup)

/-- `addResult` of the visitor. Of a null item nothing is available. -/
def addResult (t : ItemTable ι ε) (result : Option ι) (item : ι) : Option ι :=
  if getAvail t item true > result.elim 0 (getAvail t · true) then some item else result

/-- What an input adds to the map. -/
def note (avails : AList fun _ : ι => InputAvailInfo) (item : ι) (avail size : ℤ)
    (allowBackup : Bool) : AList fun _ : ι => InputAvailInfo :=
  match avails.lookup item with
  | none => avails.insert item ⟨avail, size, allowBackup⟩
  | some info =>
    if info.allowBackup && !allowBackup then
      avails.insert item ⟨avail, info.needed + size, allowBackup⟩
    else avails.insert item { info with needed := info.needed + size }

variable [ItemClass ι]

/-- What `Factory::getItem` visits for a filter, in the order of the map that it asks. -/
def visited (order : Filter ι → Enumeration ι) (t : ItemTable ι ε) : Filter ι → List ι
  | .Label label => (order (.Label label)).list ((t.labelMap.lookup label).getD [])
  | .Name name => (order (.Name name)).list ((t.nameMap.lookup name).getD [])
  | .Both label name =>
    ((order (.Label label)).list ((t.labelMap.lookup label).getD [])).filter fun item =>
      ItemClass.name item == name
  | .Custom desc func => ((order (.Custom desc func)).list t.items.keys).filter func

/-- `Factory::getItem`. -/
def getItem (order : Filter ι → Enumeration ι) (t : ItemTable ι ε) (filter : Filter ι) : Option ι :=
  (visited order t filter).foldl (addResult t) none

structure Resolving (ι : Type) where
  items : List (Option ι)
  avails : AList fun _ : ι => InputAvailInfo
  inAvail : ℤ

def resolveInput (order : Filter ι → Enumeration ι) (t : ItemTable ι ε) (clipToMaxStackSize : Bool)
    (s : Resolving ι) (input : Input ι) : Resolving ι :=
  match getItem order t input.item with
  | none => { s with items := s.items ++ [none], inAvail := 0 }
  | some item =>
    { items := s.items ++ [some item]
      avails := note s.avails item (max 0 (getAvail t item input.allowBackup - input.extraBackup))
        input.size input.allowBackup
      inAvail :=
        if clipToMaxStackSize then min s.inAvail ((ItemClass.maxSize item).tdiv input.size)
        else s.inAvail }

/-- The items of the inputs, and of how many sets they are. -/
def resolveRecipeInputs (order : Filter ι → Enumeration ι) (t : ItemTable ι ε)
    (clipToMaxStackSize : Bool) (inputs : List (Input ι)) : List (Option ι) × ℤ :=
  let s := inputs.foldl (resolveInput order t clipToMaxStackSize) ⟨[], ∅, i32Max⟩
  (s.items, s.avails.entries.foldl (fun bound e => min bound (e.2.avail.tdiv e.2.needed)) s.inAvail)

/-- The inputs that have an item, with it. -/
def resolved (order : Filter ι → Enumeration ι) (t : ItemTable ι ε) (inputs : List (Input ι)) :
    List (ι × Input ι) :=
  inputs.filterMap fun input => (getItem order t input.item).map (·, input)

/-- The input whose backup params count for an item: the first that must not take the backup, or
else the first. -/
def strictest (item : ι) (pairs : List (ι × Input ι)) : Option (ι × Input ι) :=
  (pairs.find? fun p => p.1 = item ∧ p.2.allowBackup = false).or (pairs.find? fun p => p.1 = item)

variable {t : ItemTable ι ε} {pairs : List (ι × Input ι)} {item : ι}

omit [ItemClass ι] in
theorem strictest_append (item : ι) (pairs : List (ι × Input ι)) (p : ι × Input ι) :
    strictest item (pairs ++ [p]) =
      if p.1 = item then
        match strictest item pairs with
        | none => some p
        | some q => if q.2.allowBackup && !p.2.allowBackup then some p else some q
      else strictest item pairs := by
  unfold strictest
  rw [List.find?_append, List.find?_append]
  by_cases hitem : p.1 = item
  · rw [if_pos hitem]
    cases hstrict : pairs.find? fun p => p.1 = item ∧ p.2.allowBackup = false with
    | some q =>
      have hq : q.2.allowBackup = false := (by simpa using List.find?_some hstrict : _ ∧ _).2
      simp [hq]
    | none =>
      cases hfirst : pairs.find? fun p => p.1 = item with
      | none => cases hp : p.2.allowBackup <;> simp [hitem, hp]
      | some q =>
        have hq : q.2.allowBackup = true := by
          have hkey : q.1 = item := by simpa using List.find?_some hfirst
          simpa [hkey] using List.find?_eq_none.mp hstrict q (List.mem_of_find?_eq_some hfirst)
        cases hp : p.2.allowBackup <;> simp [hitem, hp, hq]
  · simp [hitem]

omit [ItemClass ι] in
theorem strictest_isSome : (strictest item pairs).isSome ↔ item ∈ pairs.map Prod.fst := by
  unfold strictest
  rw [Option.isSome_or, Bool.or_eq_true, List.find?_isSome, List.find?_isSome, List.mem_map]
  simp only [decide_eq_true_eq]
  constructor
  · rintro (⟨p, hp, hitem, -⟩ | ⟨p, hp, hitem⟩) <;> exact ⟨p, hp, hitem⟩
  · rintro ⟨p, hp, hitem⟩
    exact .inr ⟨p, hp, hitem⟩

omit [ItemClass ι] in
theorem needed_append (item : ι) (pairs : List (ι × Input ι)) (p : ι × Input ι) :
    needed item (pairs ++ [p]) = needed item pairs + if p.1 = item then p.2.size else 0 := by
  simp [needed]

/-- What is available to an input. -/
def availability (t : ItemTable ι ε) (p : ι × Input ι) : ℤ :=
  max 0 (getAvail t p.1 p.2.allowBackup - p.2.extraBackup)

/-- The map says of each item what is available to its strictest input, and what all need. -/
def Noted (t : ItemTable ι ε) (avails : AList fun _ : ι => InputAvailInfo)
    (pairs : List (ι × Input ι)) : Prop :=
  ∀ item, avails.lookup item = (strictest item pairs).map fun p =>
    ⟨availability t p, needed item pairs, p.2.allowBackup⟩

omit [ItemClass ι] in
theorem Noted.step {avails : AList fun _ : ι => InputAvailInfo} (h : Noted t avails pairs)
    (item : ι) (input : Input ι) :
    Noted t (note avails item (availability t (item, input)) input.size input.allowBackup)
      (pairs ++ [(item, input)]) := by
  intro other
  have hlookup : (note avails item (availability t (item, input)) input.size
      input.allowBackup).lookup other =
      if other = item then some (match avails.lookup item with
        | none => ⟨availability t (item, input), input.size, input.allowBackup⟩
        | some info =>
          if info.allowBackup && !input.allowBackup then
            ⟨availability t (item, input), info.needed + input.size, input.allowBackup⟩
          else { info with needed := info.needed + input.size })
      else avails.lookup other := by
    unfold note
    split_ifs with hother
    · subst hother
      cases avails.lookup other with
      | none => exact AList.lookup_insert _
      | some info =>
        simp only
        split_ifs <;> exact AList.lookup_insert _
    · cases avails.lookup item with
      | none => exact AList.lookup_insert_ne hother
      | some info =>
        simp only
        split_ifs <;> exact AList.lookup_insert_ne hother
  rw [hlookup, strictest_append, needed_append]
  by_cases hother : other = item
  · subst hother
    rw [if_pos rfl, if_pos rfl, if_pos rfl, h other]
    cases hstrictest : strictest other pairs with
    | none =>
      have hzero : needed other pairs = 0 := by
        apply sumOf_eq_zero
        rintro d hd rfl
        obtain ⟨p, hp, rfl⟩ := List.mem_map.mp hd
        have hsome := strictest_isSome.mpr (List.mem_map_of_mem (f := Prod.fst) hp)
        simp [hstrictest] at hsome
      simp [hzero]
    | some p =>
      simp only [Option.map_some]
      split_ifs <;> rfl
  · rw [if_neg hother, if_neg (Ne.symm hother), if_neg (Ne.symm hother), add_zero, h other]

theorem resolved_cons (order : Filter ι → Enumeration ι) (t : ItemTable ι ε) (input : Input ι)
    (inputs : List (Input ι)) :
    resolved order t (input :: inputs) =
      ((getItem order t input.item).map (·, input)).toList ++ resolved order t inputs := by
  unfold resolved
  cases h : getItem order t input.item <;> simp [h]

/-- What the loop does to the items, the map and the number of sets. -/
theorem foldl_resolveInput (order : Filter ι → Enumeration ι) (t : ItemTable ι ε)
    (inputs : List (Input ι)) {s : Resolving ι} (hnoted : Noted t s.avails pairs) :
    let s' := inputs.foldl (resolveInput order t true) s
    s'.items = s.items ++ inputs.map (fun input => getItem order t input.item) ∧
      Noted t s'.avails (pairs ++ resolved order t inputs) ∧
      ∀ n, 0 < n → (n ≤ s'.inAvail ↔ n ≤ s.inAvail ∧
        (∀ input ∈ inputs, (getItem order t input.item).isSome) ∧
        ∀ p ∈ resolved order t inputs, n ≤ (ItemClass.maxSize p.1).tdiv p.2.size) := by
  induction inputs generalizing s pairs with
  | nil => simpa [resolved] using hnoted
  | cons input inputs ih =>
    rw [List.foldl_cons, resolved_cons]
    cases hitem : getItem order t input.item with
    | none =>
      have hstep : resolveInput order t true s input =
          { s with items := s.items ++ [none], inAvail := 0 } := by
        unfold resolveInput
        rw [hitem]
      rw [hstep]
      obtain ⟨hitems, hnoted', havail⟩ :=
        ih (s := { s with items := s.items ++ [none], inAvail := 0 }) hnoted
      refine ⟨by simpa [hitem] using hitems, by simpa using hnoted', fun n hn => ?_⟩
      rw [havail n hn]
      refine iff_of_false (fun h => absurd h.1 (not_le.mpr hn)) fun h => ?_
      have hsome := h.2.1 input (List.mem_cons_self ..)
      simp [hitem] at hsome
    | some item =>
      let s₁ : Resolving ι :=
        { items := s.items ++ [some item]
          avails := note s.avails item (availability t (item, input)) input.size input.allowBackup
          inAvail := min s.inAvail ((ItemClass.maxSize item).tdiv input.size) }
      have hstep : resolveInput order t true s input = s₁ := by
        unfold resolveInput
        rw [hitem]
        rfl
      rw [hstep]
      obtain ⟨hitems, hnoted', havail⟩ := ih (s := s₁) (hnoted.step item input)
      refine ⟨by simpa [hitem, s₁] using hitems, by simpa using hnoted', fun n hn => ?_⟩
      rw [havail n hn]
      simp only [s₁, le_min_iff, List.forall_mem_cons, hitem, Option.map_some, Option.toList_some,
        List.singleton_append, Option.isSome_some, true_and]
      tauto

omit [DecidableEq ι] [ItemClass ι] in
theorem le_foldl_min {α : Type} (f : α → ℤ) (l : List α) (bound n : ℤ) :
    n ≤ l.foldl (fun bound e => min bound (f e)) bound ↔ n ≤ bound ∧ ∀ e ∈ l, n ≤ f e := by
  induction l generalizing bound with
  | nil => simp
  | cons e l ih => rw [List.foldl_cons, ih, le_min_iff, List.forall_mem_cons, and_assoc]

/-- What is available of an item to its strictest input. -/
def strictAvailability (t : ItemTable ι ε) (item : ι) (pairs : List (ι × Input ι)) : ℤ :=
  (strictest item pairs).elim 0 (availability t)

/-- All inputs of `n` sets that take an item together take no more of it than what is available for
the strictest of them. -/
def Spares (t : ItemTable ι ε) (pairs : List (ι × Input ι)) (n : ℤ) : Prop :=
  ∀ item ∈ pairs.map Prod.fst, n * needed item pairs ≤ strictAvailability t item pairs

omit [ItemClass ι] in
theorem Noted.forall_iff {avails : AList fun _ : ι => InputAvailInfo} (h : Noted t avails pairs)
    (n : ℤ) :
    (∀ e ∈ avails.entries, n ≤ e.2.avail.tdiv e.2.needed) ↔
      ∀ item ∈ pairs.map Prod.fst,
        n ≤ (strictAvailability t item pairs).tdiv (needed item pairs) := by
  unfold strictAvailability
  constructor
  · intro havail item hitem
    obtain ⟨p, hp⟩ := Option.isSome_iff_exists.mp (strictest_isSome.mpr hitem)
    have hlookup := h item
    rw [hp, Option.map_some] at hlookup
    rw [hp, Option.elim_some]
    exact havail ⟨item, _⟩ (AList.mem_lookup_iff.mp hlookup)
  · intro havail e he
    have hlookup := h e.1
    rw [AList.mem_lookup_iff.mpr he] at hlookup
    obtain ⟨p, hp, hinfo⟩ := Option.map_eq_some_iff.mp hlookup.symm
    have hitem := strictest_isSome.mp (Option.isSome_iff_exists.mpr ⟨p, hp⟩)
    have hle := havail e.1 hitem
    rw [hp, Option.elim_some] at hle
    rw [← hinfo]
    exact hle

theorem le_resolveRecipeInputs (order : Filter ι → Enumeration ι) (t : ItemTable ι ε)
    {inputs : List (Input ι)} (hsize : ∀ input ∈ inputs, 0 < input.size) {n : ℤ} (hn : 0 < n) :
    n ≤ (resolveRecipeInputs order t true inputs).2 ↔ n ≤ i32Max ∧
      (∀ input ∈ inputs, (getItem order t input.item).isSome) ∧
      Stackable (resolved order t inputs) n ∧ Spares t (resolved order t inputs) n := by
  have hempty : Noted t ∅ [] := fun item => by simp [strictest]
  obtain ⟨-, hnoted, havail⟩ := foldl_resolveInput order t inputs (s := ⟨[], ∅, i32Max⟩) hempty
  have hpos : ∀ p ∈ resolved order t inputs, 0 < p.2.size := by
    intro p hp
    obtain ⟨input, hinput, hitem⟩ := List.mem_filterMap.mp hp
    obtain ⟨item, -, rfl⟩ := Option.map_eq_some_iff.mp hitem
    exact hsize input hinput
  rw [List.nil_append] at hnoted
  have hspares : (∀ item ∈ (resolved order t inputs).map Prod.fst,
      n ≤ (strictAvailability t item (resolved order t inputs)).tdiv
        (needed item (resolved order t inputs))) ↔ Spares t (resolved order t inputs) n :=
    forall₂_congr fun _ hitem => le_tdiv_iff hn (needed_pos hpos hitem)
  unfold resolveRecipeInputs
  simp only [le_foldl_min, havail n hn]
  rw [hnoted.forall_iff n, hspares, stackable_iff hpos hn]
  tauto

/-! What is found. -/

omit [ItemClass ι] in
theorem getAvail_true (t : ItemTable ι ε) (item : ι) :
    getAvail t item true = t.getNStored item := by
  unfold getAvail ItemTable.getNStored
  cases t.items.lookup item <;> rfl

/-- The result of a search through some items: one of those of which most is stored, or none if
nothing of them is. -/
def Picked (t : ItemTable ι ε) (l : List ι) (result : Option ι) : Prop :=
  (∀ item ∈ result, item ∈ l ∧ 0 < t.getNStored item) ∧
    ∀ item ∈ l, t.getNStored item ≤ result.elim 0 t.getNStored

omit [ItemClass ι] in
theorem Picked.addResult {l : List ι} {result : Option ι} (h : Picked t l result) (item : ι) :
    Picked t (l ++ [item]) (addResult t result item) := by
  obtain ⟨hfrom, hmax⟩ := h
  have hold : result.elim 0 (getAvail t · true) = result.elim 0 t.getNStored := by
    simp only [getAvail_true]
  have h0 : 0 ≤ result.elim 0 t.getNStored := by
    cases result with
    | none => exact le_rfl
    | some found => exact (hfrom found rfl).2.le
  unfold CppRecipe.addResult
  rw [hold, getAvail_true]
  split_ifs with hmore
  · refine ⟨?_, fun other hother => ?_⟩
    · rintro _ ⟨⟩
      exact ⟨by simp, h0.trans_lt hmore⟩
    · rcases List.mem_append.mp hother with hother | hother
      · exact (hmax other hother).trans hmore.le
      · rw [List.mem_singleton.mp hother]
        exact le_rfl
  · refine ⟨fun found hfound => ?_, fun other hother => ?_⟩
    · exact ⟨List.mem_append_left _ (hfrom found hfound).1, (hfrom found hfound).2⟩
    · rcases List.mem_append.mp hother with hother | hother
      · exact hmax other hother
      · rw [List.mem_singleton.mp hother]
        exact not_lt.mp hmore

omit [DecidableEq ι] in
theorem mem_visited (h : t.Indexed) (order : Filter ι → Enumeration ι) (filter : Filter ι)
    (item : ι) : item ∈ visited order t filter ↔ item ∈ t.items ∧ filter.apply item = true := by
  -- the order does not matter for what is visited
  have hsame : item ∈ visited order t filter ↔ item ∈ t.candidates (order filter) filter := by
    cases filter with
    | Label label => exact ((order _).perm _).mem_iff
    | Name name => exact ((order _).perm _).mem_iff
    | Both label name =>
      simp only [visited, ItemTable.candidates, List.mem_filter, ((order _).perm _).mem_iff]
    | Custom desc func => exact Iff.rfl
  exact hsame.trans (h.mem_candidates _ filter item)

theorem getItem_picked (order : Filter ι → Enumeration ι) (t : ItemTable ι ε) (filter : Filter ι) :
    Picked t (visited order t filter) (getItem order t filter) := by
  have hfold (l before : List ι) (result : Option ι) (h : Picked t before result) :
      Picked t (before ++ l) (l.foldl (addResult t) result) := by
    induction l generalizing before result with
    | nil => simpa using h
    | cons item l ih =>
      rw [List.foldl_cons, List.append_cons]
      exact ih _ _ (h.addResult item)
  exact hfold _ [] none ⟨by simp, by simp⟩

/-- Both servers find the same items, as far as anything of them is stored. -/
def Agree (order : Enumeration ι) (cppOrder : Filter ι → Enumeration ι) (t : ItemTable ι ε)
    (inputs : List (Input ι)) : Prop :=
  ∀ input ∈ inputs, ∀ c ∈ (t.searchItem order input.item).join, 0 < c.2.nStored →
    getItem cppOrder t input.item = some c.1

/-- Of no two items that match the filter equally much is stored, and most. -/
def Untied (t : ItemTable ι ε) (filter : Filter ι) : Prop :=
  ∀ c c', t.Scanned filter (some c) → t.Scanned filter (some c') → 0 < c.2.nStored → c = c'

/-- A picked item is one that a scan finds. -/
theorem scanned_of_getItem (h : t.Indexed) {order : Filter ι → Enumeration ι} {filter : Filter ι}
    (hitem : getItem order t filter = some item) :
    ∃ info, t.items.lookup item = some info ∧ t.Scanned filter (some (item, info)) ∧
      0 < info.nStored := by
  obtain ⟨hfrom, hmax⟩ := getItem_picked order t filter
  rw [hitem] at hfrom hmax
  obtain ⟨hvisited, hpos⟩ := hfrom item rfl
  obtain ⟨hmem, hmatch⟩ := (mem_visited h order filter item).mp hvisited
  obtain ⟨info, hinfo⟩ := Option.isSome_iff_exists.mp (AList.lookup_isSome.mpr hmem)
  rw [ItemTable.getNStored_of_lookup hinfo] at hpos
  refine ⟨info, hinfo, ⟨hinfo, hmatch, fun other info' hinfo' hmatch' => ?_⟩, hpos⟩
  have hother : other ∈ t.items := AList.lookup_isSome.mp (by rw [hinfo']; rfl)
  have hle := hmax other ((mem_visited h order filter other).mpr ⟨hother, hmatch'⟩)
  rwa [Option.elim_some, ItemTable.getNStored_of_lookup hinfo',
    ItemTable.getNStored_of_lookup hinfo] at hle

theorem agree_of_untied (h : t.Indexed) (order : Enumeration ι)
    (cppOrder : Filter ι → Enumeration ι) {inputs : List (Input ι)}
    (huntied : ∀ input ∈ inputs, Untied t input.item) : Agree order cppOrder t inputs := by
  intro input hinput c hc hpos
  obtain ⟨best, hbest, hscanned⟩ := h.searchItem_scanned order input.item
  obtain rfl := Option.some.inj (hbest.symm.trans (Option.join_eq_some_iff.mp hc))
  have hmem : c.1 ∈ t.items := AList.lookup_isSome.mp (by rw [hscanned.1]; rfl)
  cases hitem : getItem cppOrder t input.item with
  | none =>
    obtain ⟨-, hmax⟩ := getItem_picked cppOrder t input.item
    have hle := hmax c.1 ((mem_visited h cppOrder input.item c.1).mpr ⟨hmem, hscanned.2.1⟩)
    rw [hitem, Option.elim_none, ItemTable.getNStored_of_lookup hscanned.1] at hle
    omega
  | some item =>
    obtain ⟨info, -, hpicked, -⟩ := scanned_of_getItem h hitem
    rw [huntied input hinput c (item, info) hscanned hpicked hpos]

/-- Where the servers agree, this one finds what the other one does if anything of it is stored. -/
theorem Agree.getItem_eq_some_iff {order : Enumeration ι} {cppOrder : Filter ι → Enumeration ι}
    {inputs : List (Input ι)} (hagree : Agree order cppOrder t inputs) (h : t.Indexed)
    {input : Input ι} (hinput : input ∈ inputs) :
    getItem cppOrder t input.item = some item ↔
      ∃ info, t.searchItem order input.item = some (some (item, info)) ∧ 0 < info.nStored := by
  constructor
  · intro hitem
    obtain ⟨info, hinfo, hpicked, hpos⟩ := scanned_of_getItem h hitem
    obtain ⟨best, hbest, hscanned⟩ := h.searchItem_scanned order input.item
    have hmem : item ∈ t.items := AList.lookup_isSome.mp (by rw [hinfo]; rfl)
    cases best with
    | none => exact absurd hpicked.2.1 (by simp [hscanned item hmem])
    | some c =>
      have hmore : 0 < c.2.nStored := hpos.trans_le (hscanned.2.2 item info hinfo hpicked.2.1)
      have hsame := hagree input hinput c (by rw [hbest]; rfl) hmore
      obtain rfl := Option.some.inj (hitem.symm.trans hsame)
      exact ⟨c.2, hbest, hmore⟩
  · rintro ⟨info, hsearch, hpos⟩
    exact hagree input hinput (item, info) (by rw [hsearch]; rfl) hpos

/-! The same on both servers. -/

/-- If an input of an item must not take its backup, then neither must the first one. -/
def FirstStrict (pairs : List (ι × Input ι)) : Prop :=
  ∀ p ∈ pairs, p.2.allowBackup = false → ∀ q, pairs.find? (fun q => q.1 = p.1) = some q →
    q.2.allowBackup = false

omit [ItemClass ι] in
theorem strictest_eq (h : FirstStrict pairs) (item : ι) :
    strictest item pairs = pairs.find? fun p => p.1 = item := by
  unfold strictest
  cases hstrict : pairs.find? fun p => p.1 = item ∧ p.2.allowBackup = false with
  | none => rfl
  | some p =>
    obtain ⟨hitem, hallow⟩ : p.1 = item ∧ p.2.allowBackup = false := by
      simpa using List.find?_some hstrict
    obtain ⟨q, hfirst⟩ := Option.isSome_iff_exists.mp (List.find?_isSome (p := fun q => q.1 = item)
      |>.mpr ⟨p, List.mem_of_find?_eq_some hstrict, by simpa using hitem⟩)
    have hq := h p (List.mem_of_find?_eq_some hstrict) hallow q (by rw [hitem]; exact hfirst)
    obtain ⟨hkey, before, after, hcut, hbefore⟩ := List.find?_eq_some_iff_append.mp hfirst
    have hsame : pairs.find? (fun p => p.1 = item ∧ p.2.allowBackup = false) = some q := by
      refine List.find?_eq_some_iff_append.mpr ⟨by simpa [hq] using hkey, before, after, hcut, ?_⟩
      intro a ha
      have hne := hbefore a ha
      simp only [Bool.not_eq_eq_eq_not, Bool.not_true, decide_eq_false_iff_not] at hne ⊢
      exact fun hboth => hne hboth.1
    rw [Option.some_or, hfirst, ← hsame, hstrict]

omit [ItemClass ι] in
theorem availability_eq (h : t.Sound) {p : ι × Input ι} (hextra : 0 ≤ p.2.extraBackup)
    {info : ItemInfo ε} (hinfo : t.items.lookup p.1 = some info) (hstored : info.nStored ≤ i32Max)
    (hfits : info.keptBack p.2.allowBackup p.2.extraBackup ≤ i32Max) :
    availability t p = OCRemote.availability t p.1 p.2 := by
  have h0 := (h.stocked p.1 info hinfo).nonneg
  have hkept : 0 ≤ info.keptBack p.2.allowBackup p.2.extraBackup :=
    ItemInfo.keptBack_nonneg (h.backup p.1 info hinfo) hextra
  have hmin : i32Min ≤ info.nStored - info.keptBack p.2.allowBackup p.2.extraBackup := by
    rw [i32Max] at hfits
    rw [i32Min]
    omega
  rw [OCRemote.availability, hinfo, Option.elim_some,
    ItemInfo.getAvailability_of_bounds hmin (by omega), availability, getAvail, hinfo,
    Option.elim_some, ItemInfo.keptBack]
  cases p.2.allowBackup
  · simp only [Bool.false_eq_true, if_false]
    omega
  · simp

theorem mem_resolved {order : Filter ι → Enumeration ι} {inputs : List (Input ι)} {p : ι × Input ι}
    (hp : p ∈ resolved order t inputs) :
    p.2 ∈ inputs ∧ getItem order t p.2.item = some p.1 := by
  obtain ⟨input, hinput, hitem⟩ := List.mem_filterMap.mp hp
  obtain ⟨item, hfound, rfl⟩ := Option.map_eq_some_iff.mp hitem
  exact ⟨hinput, hfound⟩

omit [ItemClass ι] in
/-- Without its backup an item is available to its strictest input. -/
theorem Spares.backup {n : ℤ} (h : Spares t pairs n) (hn : 0 < n)
    (hpairs : ∀ p ∈ pairs, 0 < p.2.size ∧ 0 ≤ p.2.extraBackup) {p : ι × Input ι} (hp : p ∈ pairs)
    (hallow : p.2.allowBackup = false) {info : ItemInfo ε}
    (hinfo : t.items.lookup p.1 = some info) :
    info.nBackup ≤ info.nStored - n * needed p.1 pairs := by
  have hitem : p.1 ∈ pairs.map Prod.fst := List.mem_map_of_mem hp
  obtain ⟨q, hq⟩ : ∃ q, pairs.find? (fun q => q.1 = p.1 ∧ q.2.allowBackup = false) = some q :=
    Option.isSome_iff_exists.mp (List.find?_isSome.mpr ⟨p, hp, by simp [hallow]⟩)
  obtain ⟨hkey, hstrict⟩ : q.1 = p.1 ∧ q.2.allowBackup = false := by simpa using List.find?_some hq
  have hextra := (hpairs q (List.mem_of_find?_eq_some hq)).2
  have havailable : strictAvailability t p.1 pairs =
      max 0 (max 0 (info.nStored - info.nBackup) - q.2.extraBackup) := by
    rw [strictAvailability, strictest, hq, Option.some_or, Option.elim_some, availability, getAvail,
      hkey, hinfo, hstrict]
    rfl
  have hle := h p.1 hitem
  have htaken : 0 < n * needed p.1 pairs :=
    mul_pos hn (needed_pos (fun p hp => (hpairs p hp).1) hitem)
  omega

/-- The items of inputs that all have one. -/
theorem Agree.exists_zip (h : t.Indexed) {order : Enumeration ι}
    {cppOrder : Filter ι → Enumeration ι} {inputs : List (Input ι)}
    (hagree : Agree order cppOrder t inputs)
    (hfound : ∀ input ∈ inputs, (getItem cppOrder t input.item).isSome) :
    ∃ items, Resolved order t inputs items ∧ resolved cppOrder t inputs = items.zip inputs := by
  induction inputs with
  | nil => exact ⟨[], .nil, rfl⟩
  | cons input inputs ih =>
    obtain ⟨hhere, hrest⟩ := List.forall_mem_cons.mp hfound
    obtain ⟨items, hitems, hzip⟩ := ih (fun other hother => hagree other (.tail _ hother)) hrest
    obtain ⟨item, hitem⟩ := Option.isSome_iff_exists.mp hhere
    obtain ⟨info, hsearch, -⟩ := (hagree.getItem_eq_some_iff h (List.mem_cons_self ..)).mp hitem
    refine ⟨item :: items, .cons ⟨info, hsearch⟩ hitems, ?_⟩
    rw [resolved_cons, hitem, hzip]
    rfl

theorem Agree.found_of_stored {order : Enumeration ι} {cppOrder : Filter ι → Enumeration ι}
    {inputs : List (Input ι)} (hagree : Agree order cppOrder t inputs) {items : List ι}
    (hitems : Resolved order t inputs items) (hstored : ∀ item ∈ items, 0 < t.getNStored item) :
    ∀ input ∈ inputs, (getItem cppOrder t input.item).isSome := by
  induction hitems with
  | nil => simp
  | @cons input item inputs items hsearch _ ih =>
    obtain ⟨hhere, hrest⟩ := List.forall_mem_cons.mp hstored
    obtain ⟨info, hsearch⟩ := hsearch
    have htail := ih (fun other hother => hagree other (.tail _ hother)) hrest
    refine List.forall_mem_cons.mpr ⟨?_, htail⟩
    obtain ⟨best, hbest, hlookup⟩ := t.searchItem_spec order input.item
    have hinfo := hlookup item info (Option.some.inj (hbest.symm.trans hsearch))
    rw [ItemTable.getNStored_of_lookup hinfo] at hhere
    rw [hagree input (List.mem_cons_self ..) (item, info) (by rw [hsearch]; rfl) hhere]
    rfl

/-- What is stored, and what is asked to be left of it, fits in 32 bits. -/
def InRange (order : Enumeration ι) (t : ItemTable ι ε) (inputs : List (Input ι)) : Prop :=
  (∀ item, t.getNStored item ≤ i32Max) ∧ KeptFits order t inputs

theorem spares_iff (h : t.Sound) {order : Enumeration ι} {inputs : List (Input ι)}
    (hrange : InRange order t inputs) (hpairs : ∀ p ∈ pairs, p.2 ∈ inputs ∧ 0 ≤ p.2.extraBackup ∧
      ∃ info, t.searchItem order p.2.item = some (some (p.1, info)))
    (hfirst : FirstStrict pairs) (n : ℤ) : Spares t pairs n ↔ Available t pairs n := by
  refine forall₂_congr fun item _ => ?_
  unfold strictAvailability firstAvailability
  rw [strictest_eq hfirst]
  cases hfind : pairs.find? fun p => p.1 = item with
  | none => rfl
  | some p =>
    have hkey : p.1 = item := by simpa using List.find?_some hfind
    obtain ⟨hinput, hextra, info, hsearch⟩ := hpairs p (List.mem_of_find?_eq_some hfind)
    obtain ⟨best, hbest, hlookup⟩ := t.searchItem_spec order p.2.item
    have hinfo := hlookup p.1 info (Option.some.inj (hbest.symm.trans hsearch))
    have hstored := hrange.1 p.1
    rw [ItemTable.getNStored_of_lookup hinfo] at hstored
    have hkept := hrange.2 p.2 hinput (p.1, info) (by rw [hsearch]; rfl)
    rw [Option.elim_some, Option.elim_some, availability_eq h hextra hinfo hstored hkept, hkey]

/-- What one set takes of an item is stored. -/
theorem stored_of_available (h : t.Sound) {order : Enumeration ι} {inputs : List (Input ι)}
    {items : List ι} (hitems : Resolved order t inputs items) (hfits : KeptFits order t inputs)
    (hinputs : ∀ input ∈ inputs, 0 < input.size ∧ 0 ≤ input.extraBackup) {n : ℤ} (hn : 0 < n)
    (havailable : Available t (items.zip inputs) n) : ∀ item ∈ items, 0 < t.getNStored item := by
  intro item hitem
  rw [← List.map_fst_zip hitems.length_eq.ge] at hitem
  have hle := havailable item hitem
  have htaken := mul_pos hn (needed_pos (fun p hp => (hinputs p.2 (List.of_mem_zip hp).2).1) hitem)
  have hpos := htaken.trans_le hle
  unfold firstAvailability at hpos
  cases hfind : (items.zip inputs).find? fun p => p.1 = item with
  | none => simp [hfind] at hpos
  | some p =>
    have hmem := List.mem_of_find?_eq_some hfind
    have hkey : p.1 = item := by simpa using List.find?_some hfind
    have hinput := (List.of_mem_zip hmem).2
    obtain ⟨info, hsearch⟩ := (List.forall₂_iff_zip.mp hitems.flip).2 hmem
    obtain ⟨best, hbest, hlookup⟩ := t.searchItem_spec order p.2.item
    have hinfo := hlookup p.1 info (Option.some.inj (hbest.symm.trans hsearch))
    have hkept := hfits p.2 hinput (p.1, info) (by rw [hsearch]; rfl)
    rw [hfind, Option.elim_some, OCRemote.availability, ← hkey, hinfo, Option.elim_some] at hpos
    rw [← hkey, ItemTable.getNStored_of_lookup hinfo]
    exact hpos.trans_le (ItemInfo.getAvailability_le (h.stocked p.1 info hinfo).nonneg
      (h.backup p.1 info hinfo) (hinputs p.2 hinput).2 hkept)

/-- Where the first input of each item is its strictest, both servers make as many sets. -/
theorem Agree.le_resolveInputs_iff (h : t.Sound) (hindexed : t.Indexed) {order : Enumeration ι}
    {cppOrder : Filter ι → Enumeration ι} {inputs : List (Input ι)}
    (hagree : Agree order cppOrder t inputs) (hrange : InRange order t inputs)
    (hinputs : ∀ input ∈ inputs, 0 < input.size ∧ 0 ≤ input.extraBackup)
    (hfirst : FirstStrict (resolved cppOrder t inputs)) {n : ℤ} (hn : 0 < n) :
    n ≤ (resolveRecipeInputs cppOrder t true inputs).2 ↔
      ∃ r, resolveInputs order t inputs = some (some r) ∧ n ≤ r.nSets := by
  have hresolved : ∀ p ∈ resolved cppOrder t inputs, p.2 ∈ inputs ∧ 0 ≤ p.2.extraBackup ∧
      ∃ info, t.searchItem order p.2.item = some (some (p.1, info)) := by
    intro p hp
    obtain ⟨hinput, hitem⟩ := mem_resolved hp
    obtain ⟨info, hsearch, -⟩ := (hagree.getItem_eq_some_iff hindexed hinput).mp hitem
    exact ⟨hinput, (hinputs p.2 hinput).2, info, hsearch⟩
  rw [le_resolveRecipeInputs cppOrder t (fun input hinput => (hinputs input hinput).1) hn,
    spares_iff h hrange hresolved hfirst]
  by_cases hmatch : ∃ input ∈ inputs, t.searchItem order input.item = some none
  · obtain ⟨input, hinput, hsearch⟩ := hmatch
    refine iff_of_false (fun hall => ?_) ?_
    · obtain ⟨item, hitem⟩ := Option.isSome_iff_exists.mp (hall.2.1 input hinput)
      obtain ⟨info, hfound, -⟩ := (hagree.getItem_eq_some_iff hindexed hinput).mp hitem
      simp [hsearch] at hfound
    · rintro ⟨r, hr, -⟩
      rw [resolveInputs_of_unmatched ⟨input, hinput, hsearch⟩] at hr
      simp at hr
  · obtain ⟨items, sets, priority, hitems, hrun, hpriority, hsets⟩ :=
      resolveInputs_resolved fun input hinput hsearch => hmatch ⟨input, hinput, hsearch⟩
    have hpairs : ∀ p ∈ items.zip inputs, 0 < p.2.size := fun p hp =>
      (hinputs p.2 (List.of_mem_zip hp).2).1
    have hsome : (∃ r, resolveInputs order t inputs = some (some r) ∧ n ≤ r.nSets) ↔ n ≤ sets := by
      rw [hrun]
      split_ifs with hpos
      · simp
      · refine iff_of_false (by simp) (by omega)
    rw [hsome, hsets, hpriority, available_iff hpairs hn, stackable_iff hpairs hn]
    constructor
    · rintro ⟨hmax, hfound, hstackable, havailable⟩
      obtain ⟨items', hitems', hzip⟩ := hagree.exists_zip hindexed hfound
      obtain rfl := hitems.unique hitems'
      rw [hzip] at hstackable havailable
      exact ⟨⟨hmax, havailable⟩, hstackable⟩
    · rintro ⟨⟨hmax, havailable⟩, hstackable⟩
      have hfound := hagree.found_of_stored hitems
        (stored_of_available h hitems hrange.2 hinputs hn havailable)
      obtain ⟨items', hitems', hzip⟩ := hagree.exists_zip hindexed hfound
      obtain rfl := hitems.unique hitems'
      rw [hzip]
      exact ⟨hmax, hfound, hstackable, havailable⟩

/-- In every state of the factory the C++ server makes as many sets as full stacks and the strictest
input of each item allow, so that they leave the backup of every item that some input must not take
it of. These are as many as in the other server where both find the same items and no input that may
take the backup of an item comes before one that must not. They find the same items unless there is
equally much of two that match. -/
theorem strictest_counts {operations : List (ItemTable.Operation ι ε)} {t : ItemTable ι ε}
    (hbacked : ∀ operation ∈ operations, operation.Backed)
    (hrun : ItemTable.run operations = some t) (order : Enumeration ι)
    (cppOrder : Filter ι → Enumeration ι) {inputs : List (Input ι)}
    (hinputs : ∀ input ∈ inputs, 0 < input.size ∧ 0 ≤ input.extraBackup) :
    let sets := (resolveRecipeInputs cppOrder t true inputs).2
    let pairs := resolved cppOrder t inputs
    (∀ n, 0 < n → (n ≤ sets ↔ n ≤ i32Max ∧
      (∀ input ∈ inputs, (getItem cppOrder t input.item).isSome) ∧ Stackable pairs n ∧
        Spares t pairs n)) ∧
    (0 < sets → ∀ p ∈ pairs, p.2.allowBackup = false → ∀ info, t.items.lookup p.1 = some info →
      info.nBackup ≤ info.nStored - sets * needed p.1 pairs) ∧
    (FirstStrict pairs → Agree order cppOrder t inputs → InRange order t inputs → ∀ n, 0 < n →
      (n ≤ sets ↔ ∃ r, resolveInputs order t inputs = some (some r) ∧ n ≤ r.nSets)) ∧
    ((∀ input ∈ inputs, Untied t input.item) → Agree order cppOrder t inputs) := by
  intro sets pairs
  have hle (n : ℤ) (hn : 0 < n) := le_resolveRecipeInputs cppOrder t
    (fun input hinput => (hinputs input hinput).1) hn
  have hsound := ItemTable.sound_of_run hbacked hrun
  have hindexed := ItemTable.indexed_of_run hrun
  refine ⟨hle, fun hpos p hp hallow info hinfo => ?_, fun hfirst hagree hrange n hn => ?_,
    agree_of_untied hindexed order cppOrder⟩
  · obtain ⟨-, -, -, hspares⟩ := (hle sets hpos).mp le_rfl
    exact hspares.backup hpos (fun p hp => hinputs p.2 (mem_resolved hp).1) hp hallow hinfo
  · exact hagree.le_resolveInputs_iff hsound hindexed hrange hinputs hfirst hn

/-- The other server makes ten sets of these inputs, because the first one may take the backup. -/
def greedyInputs : List (Input (Item ℤ)) :=
  [⟨.Name "iron", 1, true, 0⟩, ⟨.Label "Iron", 1, false, 0⟩]

theorem strictest_counts_greedyInputs :
    let operations : List (ItemTable.Operation (Item ℤ) ℕ) :=
      [.provide iron ⟨0, 20, 0⟩, .addBackups ⟨id, List.Perm.refl⟩ [(.Name "iron", 16)]]
    ∃ t : ItemTable (Item ℤ) ℕ, ItemTable.run operations = some t ∧
      (∃ r, resolveInputs ⟨id, List.Perm.refl⟩ t greedyInputs = some (some r) ∧ r.nSets = 10) ∧
      (resolveRecipeInputs (fun _ => ⟨id, List.Perm.refl⟩) t true greedyInputs).2 = 2 ∧
      ∀ info, t.items.lookup iron = some info → info.nBackup ≤ info.nStored - 2 * 2 := by
  refine ⟨_, rfl, ⟨_, rfl, rfl⟩, rfl, ?_⟩
  exact (@strictest_counts _ _ _ _ [.provide iron ⟨0, 20, 0⟩,
    .addBackups ⟨id, List.Perm.refl⟩ [(.Name "iron", 16)]] _
    (by simp [ItemTable.Operation.Backed]) rfl ⟨id, List.Perm.refl⟩ (fun _ => ⟨id, List.Perm.refl⟩)
    greedyInputs (by decide)).2.1 (by decide) (iron, greedyInputs[1])
    (List.mem_of_getElem? (i := 1) rfl) rfl

/-- Of two items with one label there is equally much, but a stack of the second one is full with a
single piece. The servers find different ones. -/
example :
    let small : Item ℤ := { iron with maxSize := 1 }
    let t : ItemTable (Item ℤ) ℕ :=
      (ItemTable.empty.provide iron ⟨0, 10, 0⟩).provide small ⟨0, 10, 0⟩
    (resolveInputs ⟨id, List.Perm.refl⟩ t [⟨.Label "Iron", 1, false, 0⟩]).join.map
      ResolvedInputs.nSets = some 10 ∧
    (resolveRecipeInputs (fun _ => ⟨List.reverse, List.reverse_perm⟩) t true
      [⟨.Label "Iron", 1, false, 0⟩]).2 = 1 := by
  decide

end CppRecipe
end OCRemote
