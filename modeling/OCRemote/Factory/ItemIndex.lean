import OCRemote.Factory.ItemTable
import OCRemote.Lib.Index

/-! The label and name maps as indexes of the table. They are right after any operations of a
cycle, so that a search finds what a scan of all items finds. -/

namespace OCRemote
open Index

namespace ItemTable
variable {ι ε : Type} [DecidableEq ι]

/-- The items of the table. -/
def registered (t : ItemTable ι ε) : Set ι := {item | item ∈ t.items}

theorem registered_setInfo {t : ItemTable ι ε} {item : ι} (hitem : item ∈ t.items)
    (info : ItemInfo ε) : (t.setInfo item info).registered = t.registered := by
  ext item'
  refine (AList.mem_insert _).trans (or_iff_right_of_imp ?_)
  rintro rfl
  exact hitem

variable [ItemClass ι]

/-- The maps list each item of the table under its own label and under its own name. -/
structure Indexed (t : ItemTable ι ε) : Prop where
  label : Indexes t.labelMap ItemClass.label t.registered
  name : Indexes t.nameMap ItemClass.name t.registered

omit [DecidableEq ι] in
theorem indexed_empty : (empty : ItemTable ι ε).Indexed := by
  have hnone : (empty : ItemTable ι ε).registered = ∅ := by
    ext item
    simp [registered, empty]
  constructor
  · rw [hnone]
    exact indexes_empty _
  · rw [hnone]
    exact indexes_empty _

theorem Indexed.setInfo {t : ItemTable ι ε} (h : t.Indexed) {item : ι} (hitem : item ∈ t.items)
    (info : ItemInfo ε) : (t.setInfo item info).Indexed := by
  have hsame := registered_setInfo hitem info
  constructor
  · rw [hsame]
    exact h.label
  · rw [hsame]
    exact h.name

theorem Indexed.registerStoredItem {t : ItemTable ι ε} (h : t.Indexed) (item : ι) :
    (t.registerStoredItem item).Indexed := by
  unfold ItemTable.registerStoredItem
  split
  · exact h
  · -- a new item is told to both maps
    constructor
    · exact (h.label.push item).congr fun item' => (AList.mem_insert _).symm
    · exact (h.name.push item).congr fun item' => (AList.mem_insert _).symm

theorem Indexed.provide {t : ItemTable ι ε} (h : t.Indexed) (item : ι) (provider : Provider ε) :
    (t.provide item provider).Indexed := by
  have hreg := h.registerStoredItem item
  unfold ItemTable.provide
  simp only
  split
  · rename_i info hinfo
    exact hreg.setInfo (AList.lookup_isSome.mp (by rw [hinfo]; rfl)) _
  · exact hreg

theorem Indexed.reserveItem {t : ItemTable ι ε} (h : t.Indexed)
    {rule : TopRule (Provider ε) Provider.priority} {item : ι} {size : ℤ}
    {r : ItemTable ι ε × Reservation ε} (hr : t.reserveItem rule item size = some r) :
    r.1.Indexed := by
  unfold ItemTable.reserveItem at hr
  split at hr
  · cases hr
  · rename_i info hinfo
    obtain ⟨p, -, rfl⟩ := Option.map_eq_some_iff.mp hr
    exact h.setInfo (AList.lookup_isSome.mp (by rw [hinfo]; rfl)) _

theorem Indexed.addBackups {order : Enumeration ι} {t t' : ItemTable ι ε} (h : t.Indexed)
    {backups : List (Filter ι × ℤ)} (hrun : t.addBackups order backups = some t') :
    t'.Indexed := by
  induction backups generalizing t with
  | nil =>
    obtain rfl := Option.some.inj hrun
    exact h
  | cons backup backups ih =>
    obtain ⟨best, hbest, hlookup⟩ := t.searchItem_spec order backup.1
    unfold ItemTable.addBackups at hrun
    rw [hbest] at hrun
    cases best with
    | none => exact ih h hrun
    | some c =>
      have hitem : c.1 ∈ t.items := AList.lookup_isSome.mp (by rw [hlookup c.1 c.2 rfl]; rfl)
      exact ih (h.setInfo hitem _) hrun

/-! The operations of the cycles, in any order. -/

inductive Operation (ι ε : Type) where
  | registerStoredItem (item : ι)
  | provide (item : ι) (provider : Provider ε)
  | reserve (rule : TopRule (Provider ε) Provider.priority) (item : ι) (size : ℤ)
  | addBackups (order : Enumeration ι) (backups : List (Filter ι × ℤ))
  | endOfCycle

/-- No value means that an `unwrap` failed. -/
def operate (t : ItemTable ι ε) : Operation ι ε → Option (ItemTable ι ε)
  | .registerStoredItem item => some (t.registerStoredItem item)
  | .provide item provider => some (t.provide item provider)
  | .reserve rule item size => (t.reserveItem rule item size).map Prod.fst
  | .addBackups order backups => t.addBackups order backups
  | .endOfCycle => some t.endOfCycle

def run (operations : List (Operation ι ε)) : Option (ItemTable ι ε) :=
  operations.foldlM operate empty

theorem Indexed.operate {t t' : ItemTable ι ε} (h : t.Indexed) {operation : Operation ι ε}
    (hop : t.operate operation = some t') : t'.Indexed := by
  cases operation with
  | registerStoredItem item =>
    obtain rfl := Option.some.inj hop
    exact h.registerStoredItem item
  | provide item provider =>
    obtain rfl := Option.some.inj hop
    exact h.provide item provider
  | reserve rule item size =>
    obtain ⟨r, hr, rfl⟩ := Option.map_eq_some_iff.mp hop
    exact h.reserveItem hr
  | addBackups order backups => exact h.addBackups hop
  | endOfCycle =>
    obtain rfl := Option.some.inj hop
    exact indexed_empty

/-- The indexes are right in every table that the factory reaches. -/
theorem indexed_of_run {operations : List (Operation ι ε)} {t : ItemTable ι ε}
    (h : run operations = some t) : t.Indexed :=
  List.foldlM_inv (fun _ _ _ _ ht hop => Indexed.operate ht hop) indexed_empty h

/-! The stock of an item is the sum of its heap, also after any operations. -/

def Stocked (t : ItemTable ι ε) : Prop :=
  ∀ item info, t.items.lookup item = some info → info.Stocked

omit [DecidableEq ι] [ItemClass ι] in
theorem stocked_new : (⟨0, 0, []⟩ : ItemInfo ε).Stocked := ⟨rfl, by simp [Positive]⟩

theorem Stocked.registerStoredItem {t : ItemTable ι ε} (h : t.Stocked) (item : ι) :
    (t.registerStoredItem item).Stocked := by
  intro item' info hinfo
  rw [lookup_registerStoredItem] at hinfo
  split_ifs at hinfo
  · cases hold : t.items.lookup item with
    | none =>
      rw [hold] at hinfo
      exact Option.some.inj hinfo ▸ stocked_new
    | some old =>
      rw [hold] at hinfo
      exact Option.some.inj hinfo ▸ h item old hold
  · exact h item' info hinfo

omit [ItemClass ι] in
theorem Stocked.reserveItem {t : ItemTable ι ε} (h : t.Stocked)
    {rule : TopRule (Provider ε) Provider.priority} {item : ι} {size : ℤ}
    {r : ItemTable ι ε × Reservation ε} (hr : t.reserveItem rule item size = some r) :
    r.1.Stocked := by
  unfold ItemTable.reserveItem at hr
  split at hr
  · cases hr
  · rename_i info hinfo
    obtain ⟨p, hp, rfl⟩ := Option.map_eq_some_iff.mp hr
    exact forall_setInfo h ((h item info hinfo).reserveLoop rule hp)

theorem Stocked.addBackups {order : Enumeration ι} {t t' : ItemTable ι ε} (h : t.Stocked)
    {backups : List (Filter ι × ℤ)} (hrun : t.addBackups order backups = some t') :
    t'.Stocked := by
  induction backups generalizing t with
  | nil =>
    obtain rfl := Option.some.inj hrun
    exact h
  | cons backup backups ih =>
    obtain ⟨best, hbest, hlookup⟩ := t.searchItem_spec order backup.1
    unfold ItemTable.addBackups at hrun
    rw [hbest] at hrun
    cases best with
    | none => exact ih h hrun
    | some c =>
      have hold := h c.1 c.2 (hlookup c.1 c.2 rfl)
      have hset : (t.setInfo c.1 { c.2 with nBackup := c.2.nBackup + backup.2 }).Stocked :=
        forall_setInfo h ⟨hold.stored, hold.positive⟩
      exact ih hset hrun

theorem Stocked.operate {t t' : ItemTable ι ε} (h : t.Stocked) {operation : Operation ι ε}
    (hop : t.operate operation = some t') : t'.Stocked := by
  cases operation with
  | registerStoredItem item =>
    obtain rfl := Option.some.inj hop
    exact h.registerStoredItem item
  | provide item provider =>
    obtain rfl := Option.some.inj hop
    exact forall_provide h stocked_new fun info hinfo => hinfo.provide provider
  | reserve rule item size =>
    obtain ⟨r, hr, rfl⟩ := Option.map_eq_some_iff.mp hop
    exact h.reserveItem hr
  | addBackups order backups => exact h.addBackups hop
  | endOfCycle =>
    obtain rfl := Option.some.inj hop
    rintro item info ⟨⟩

theorem stocked_of_run {operations : List (Operation ι ε)} {t : ItemTable ι ε}
    (h : run operations = some t) : t.Stocked :=
  List.foldlM_inv (fun _ _ _ _ ht hop => Stocked.operate ht hop) (by rintro item info ⟨⟩) h

/-- `get_n_stored`. -/
def getNStored (t : ItemTable ι ε) (item : ι) : ℤ :=
  (t.items.lookup item).elim 0 ItemInfo.nStored

omit [ItemClass ι] in
theorem Stocked.getNStored_nonneg {t : ItemTable ι ε} (h : t.Stocked) (item : ι) :
    0 ≤ t.getNStored item := by
  unfold getNStored
  cases hinfo : t.items.lookup item with
  | none => exact le_rfl
  | some info => exact (h item info hinfo).nonneg

omit [DecidableEq ι] [ItemClass ι] in
theorem mem_keys_filter (order : Enumeration ι) (t : ItemTable ι ε) (func : ι → Bool) (item : ι) :
    item ∈ (order.list t.items.keys).filter func ↔ item ∈ t.items ∧ func item = true := by
  rw [List.mem_filter, (order.perm _).mem_iff, AList.mem_keys]

omit [DecidableEq ι] in
/-- The branches of the search have the same candidates as a scan of the table. -/
theorem Indexed.mem_candidates {t : ItemTable ι ε} (h : t.Indexed) (order : Enumeration ι)
    (filter : Filter ι) (item : ι) :
    item ∈ t.candidates order filter ↔ item ∈ t.items ∧ filter.apply item = true := by
  cases filter with
  | Label label =>
    rw [Filter.apply, beq_iff_eq]
    exact h.label label item
  | Name name =>
    rw [Filter.apply, beq_iff_eq]
    exact h.name name item
  | Both label name =>
    have hlabel := h.label label item
    simp only [candidates, Filter.apply, List.mem_filter, Bool.and_eq_true, beq_iff_eq]
    exact (and_congr_left fun _ => hlabel).trans and_assoc
  | Custom desc func => exact mem_keys_filter order t func item

/-! The shared closure keeps the best of the candidates so far. -/

/-- The best of some entries is one of them, and no other has more stored. -/
def Best (l : List (ι × ItemInfo ε)) : Option (ι × ItemInfo ε) → Prop
  | none => l = []
  | some c => c ∈ l ∧ ∀ d ∈ l, d.2.nStored ≤ c.2.nStored

omit [DecidableEq ι] [ItemClass ι] in
theorem Best.onCandidate {l : List (ι × ItemInfo ε)} {best : Option (ι × ItemInfo ε)}
    (h : Best l best) (new : ι × ItemInfo ε) : Best (l ++ [new]) (onCandidate best new) := by
  cases best with
  | none =>
    obtain rfl : l = [] := h
    exact ⟨by simp, by simp⟩
  | some old =>
    obtain ⟨hold, hmax⟩ := h
    unfold ItemTable.onCandidate
    simp only
    split_ifs with hle
    · refine ⟨List.mem_append_left _ hold, fun d hd => ?_⟩
      rcases List.mem_append.mp hd with hd | hd
      · exact hmax d hd
      · rwa [List.mem_singleton.mp hd]
    · refine ⟨by simp, fun d hd => ?_⟩
      rcases List.mem_append.mp hd with hd | hd
      · exact (hmax d hd).trans (not_le.mp hle).le
      · rw [List.mem_singleton.mp hd]

/-- The entry of an item in the table. -/
def entry (t : ItemTable ι ε) (item : ι) : Option (ι × ItemInfo ε) :=
  (t.items.lookup item).map (Prod.mk item)

omit [ItemClass ι] in
theorem entry_eq_some {t : ItemTable ι ε} {item : ι} {c : ι × ItemInfo ε} :
    t.entry item = some c ↔ c.1 = item ∧ t.items.lookup item = some c.2 := by
  obtain ⟨item', info⟩ := c
  simp only [entry, Option.map_eq_some_iff, Prod.mk.injEq]
  constructor
  · rintro ⟨_, hinfo, rfl, rfl⟩
    exact ⟨rfl, hinfo⟩
  · rintro ⟨rfl, hinfo⟩
    exact ⟨info, hinfo, rfl, rfl⟩

/-- The search never fails, and finds the best of the candidates. -/
theorem searchItem_best (order : Enumeration ι) (t : ItemTable ι ε) (filter : Filter ι) :
    ∃ best, t.searchItem order filter = some best ∧
      Best ((t.candidates order filter).filterMap t.entry) best := by
  have hfold (l : List ι) (hl : ∀ item ∈ l, item ∈ t.items) (seen : List (ι × ItemInfo ε))
      (best : Option (ι × ItemInfo ε)) (hbest : Best seen best) :
      ∃ best', l.foldlM (fun best item =>
          (t.items.lookup item).map fun info => ItemTable.onCandidate best (item, info))
          best = some best' ∧ Best (seen ++ l.filterMap t.entry) best' := by
    induction l generalizing seen best with
    | nil => exact ⟨best, rfl, by simpa using hbest⟩
    | cons item l ih =>
      obtain ⟨hitem, hl⟩ := List.forall_mem_cons.mp hl
      obtain ⟨info, hinfo⟩ := Option.isSome_iff_exists.mp (AList.lookup_isSome.mpr hitem)
      have hentry : t.entry item = some (item, info) := entry_eq_some.mpr ⟨rfl, hinfo⟩
      rw [List.foldlM_cons, hinfo, List.filterMap_cons_some hentry, List.append_cons]
      exact ih hl _ _ (hbest.onCandidate (item, info))
  exact hfold _ (fun item h => mem_of_mem_candidates h) [] none rfl

/-- `search_n_stored`. -/
def searchNStored (order : Enumeration ι) (t : ItemTable ι ε) (filter : Filter ι) : Option ℤ :=
  (t.searchItem order filter).map fun best => best.elim 0 fun c => c.2.nStored

/-- What a scan of the table with `Filter::apply` may find. -/
def Scanned (t : ItemTable ι ε) (filter : Filter ι) : Option (ι × ItemInfo ε) → Prop
  | none => ∀ item ∈ t.items, filter.apply item = false
  | some c => t.items.lookup c.1 = some c.2 ∧ filter.apply c.1 = true ∧
    ∀ item info, t.items.lookup item = some info → filter.apply item = true →
      info.nStored ≤ c.2.nStored

theorem Indexed.searchItem_scanned {t : ItemTable ι ε} (h : t.Indexed) (order : Enumeration ι)
    (filter : Filter ι) :
    ∃ best, t.searchItem order filter = some best ∧ t.Scanned filter best := by
  obtain ⟨best, hsearch, hbest⟩ := searchItem_best order t filter
  have hmem (c : ι × ItemInfo ε) : c ∈ (t.candidates order filter).filterMap t.entry ↔
      t.items.lookup c.1 = some c.2 ∧ filter.apply c.1 = true := by
    rw [List.mem_filterMap]
    constructor
    · rintro ⟨item, hitem, hentry⟩
      obtain ⟨rfl, hinfo⟩ := entry_eq_some.mp hentry
      exact ⟨hinfo, ((h.mem_candidates order filter c.1).mp hitem).2⟩
    · rintro ⟨hinfo, hfilter⟩
      have hitem : c.1 ∈ t.items := AList.lookup_isSome.mp (by rw [hinfo]; rfl)
      exact ⟨c.1, (h.mem_candidates order filter c.1).mpr ⟨hitem, hfilter⟩,
        entry_eq_some.mpr ⟨rfl, hinfo⟩⟩
  refine ⟨best, hsearch, ?_⟩
  cases best with
  | none =>
    have hnone : (t.candidates order filter).filterMap t.entry = [] := hbest
    intro item hitem
    obtain ⟨info, hinfo⟩ := Option.isSome_iff_exists.mp (AList.lookup_isSome.mpr hitem)
    have hnot := hmem (item, info)
    rw [hnone] at hnot
    simpa [hinfo] using hnot
  | some c =>
    obtain ⟨hc, hmax⟩ := hbest
    obtain ⟨hinfo, hfilter⟩ := (hmem c).mp hc
    exact ⟨hinfo, hfilter, fun item info hitem hf => hmax (item, info) ((hmem _).mpr ⟨hitem, hf⟩)⟩

theorem Indexed.searchItem_eq_none_iff {t : ItemTable ι ε} (h : t.Indexed) (order : Enumeration ι)
    (filter : Filter ι) : t.searchItem order filter = some none ↔
      ∀ item ∈ t.items, filter.apply item = false := by
  obtain ⟨best, hsearch, hbest⟩ := h.searchItem_scanned order filter
  cases best with
  | none => exact iff_of_true hsearch hbest
  | some c =>
    have hitem : c.1 ∈ t.items := AList.lookup_isSome.mp (by rw [hbest.1]; rfl)
    refine iff_of_false (by simp [hsearch]) fun hnone => ?_
    exact absurd hbest.2.1 (by simp [hnone c.1 hitem])

/-- Two scans with filters that agree find equally much. -/
theorem Scanned.nStored_eq {t : ItemTable ι ε} {filter filter' : Filter ι}
    {best best' : Option (ι × ItemInfo ε)} (h : t.Scanned filter best)
    (h' : t.Scanned filter' best') (heq : ∀ item, filter.apply item = filter'.apply item) :
    (best.elim 0 fun c => c.2.nStored) = best'.elim 0 fun c => c.2.nStored := by
  have hnot (c : ι × ItemInfo ε) (f : Filter ι) (hnone : t.Scanned f none)
      (hinfo : t.items.lookup c.1 = some c.2) : f.apply c.1 ≠ true := by
    have hitem : c.1 ∈ t.items := AList.lookup_isSome.mp (by rw [hinfo]; rfl)
    simp [show f.apply c.1 = false from hnone c.1 hitem]
  cases best with
  | none =>
    cases best' with
    | none => rfl
    | some c' => exact absurd ((heq _).trans h'.2.1) (hnot c' filter h h'.1)
  | some c =>
    cases best' with
    | none => exact absurd ((heq _).symm.trans h.2.1) (hnot c filter' h' h.1)
    | some c' =>
      have hle := h'.2.2 c.1 c.2 h.1 ((heq _).symm.trans h.2.1)
      have hge := h.2.2 c'.1 c'.2 h'.1 ((heq _).trans h'.2.1)
      exact le_antisymm hle hge

/-- After any operations a search finds something if and only if a registered item satisfies the
filter, and then a registered item of which there is most; a scan of all items finds as much. -/
theorem searchItem_eq_scan {operations : List (Operation ι ε)} {t : ItemTable ι ε}
    (h : run operations = some t) (order : Enumeration ι) (filter : Filter ι) :
    ∃ best, t.searchItem order filter = some best ∧
      (best.isSome ↔ ∃ item ∈ t.items, filter.apply item = true) ∧
      (∀ item info, best = some (item, info) →
        t.items.lookup item = some info ∧ filter.apply item = true ∧
        ∀ item' info', t.items.lookup item' = some info' → filter.apply item' = true →
          info'.nStored ≤ info.nStored) ∧
      ∀ order' desc, t.searchNStored order' (.Custom desc filter.apply) =
        t.searchNStored order filter := by
  have hindexed := indexed_of_run h
  obtain ⟨best, hsearch, hbest⟩ := hindexed.searchItem_scanned order filter
  refine ⟨best, hsearch, ?_, ?_, ?_⟩
  · cases best with
    | none =>
      refine iff_of_false (by simp) ?_
      rintro ⟨item, hitem, hfilter⟩
      simp [show filter.apply item = false from hbest item hitem] at hfilter
    | some c =>
      exact iff_of_true rfl ⟨c.1, AList.lookup_isSome.mp (by rw [hbest.1]; rfl), hbest.2.1⟩
  · rintro item info rfl
    exact hbest
  · intro order' desc
    obtain ⟨best', hsearch', hbest'⟩ :=
      hindexed.searchItem_scanned order' (.Custom desc filter.apply)
    rw [searchNStored, searchNStored, hsearch, hsearch', Option.map_some, Option.map_some,
      hbest'.nStored_eq hbest fun _ => rfl]

/-- Of two providers of iron and one of gold, the search by label finds the iron. -/
theorem searchItem_eq_scan_iron :
    ∃ t : ItemTable (Item ℤ) ℕ,
      run [.provide iron ⟨0, 5, 0⟩, .provide gold ⟨0, 9, 1⟩, .provide iron ⟨0, 2, 2⟩] = some t ∧
      ∃ item info, t.searchItem ⟨id, List.Perm.refl⟩ (.Label "Iron") = some (some (item, info)) ∧
        (Filter.Label "Iron").apply item = true := by
  refine ⟨_, rfl, ?_⟩
  obtain ⟨best, hsearch, hsome, hbest, -⟩ :=
    @searchItem_eq_scan _ _ _ _ [.provide iron ⟨0, 5, 0⟩, .provide gold ⟨0, 9, 1⟩,
      .provide iron ⟨0, 2, 2⟩] _ rfl ⟨id, List.Perm.refl⟩ (.Label "Iron")
  obtain ⟨c, rfl⟩ := Option.isSome_iff_exists.mp (hsome.mpr ⟨iron, by decide, rfl⟩)
  exact ⟨c.1, c.2, hsearch, (hbest c.1 c.2 rfl).2.1⟩

end ItemTable
end OCRemote
