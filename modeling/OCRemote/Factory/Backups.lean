import OCRemote.Factory.Reservations
import OCRemote.Factory.ReserveEach

/-! Backups over a whole cycle. What takes of an item leaves what it has to keep back of it, so that
the item never goes below that unless there was less of it to begin with. -/

namespace OCRemote
open Tally

namespace Reservations
variable {ι : Type} [DecidableEq ι]

/-- How much of an item is left where so much of it has to be kept back. -/
def leaves (t : ItemTable ι ℕ) (item : ι) (allowBackup : Bool) (extraBackup : ℤ) : ℤ :=
  extraBackup + if allowBackup then 0 else t.getNBackup item

theorem getNBackup_reserve (w : World ι) (rule : Rule) (item : ι) (size : ℤ) (item' : ι) :
    (reserve w rule item size).table.getNBackup item' = w.table.getNBackup item' := by
  unfold reserve
  split
  · rename_i hrun
    exact ItemTable.getNBackup_reserveItem hrun item'
  · rfl

theorem getNBackup_reserveEach (rule : ℕ → Rule) (w : World ι) (requests : List (ι × ℤ))
    (item : ι) : (reserveEach rule w requests).table.getNBackup item = w.table.getNBackup item := by
  induction requests generalizing w with
  | nil => rfl
  | cons request requests ih =>
    rw [reserveEach, ih]
    exact getNBackup_reserve ..

/-- What is taken is available, so that what has to be kept back is left. -/
theorem min_le_of_taken {t : ItemTable ι ℕ} (ht : t.Sound) {item : ι} {info : ItemInfo ℕ}
    (hinfo : t.items.lookup item = some info) {allowBackup : Bool} {extraBackup n floor : ℤ}
    (hfits : info.keptBack allowBackup extraBackup ≤ i32Max)
    (hle : n ≤ info.getAvailability allowBackup extraBackup)
    (hfloor : floor ≤ leaves t item allowBackup extraBackup) :
    min floor (t.getNStored item) ≤ t.getNStored item - n := by
  have hleaves : leaves t item allowBackup extraBackup = info.keptBack allowBackup extraBackup := by
    rw [leaves, ItemTable.getNBackup, hinfo, Option.elim_some, ItemInfo.keptBack]
  have hstored := (ht.stocked item info hinfo).nonneg
  have hmin : i32Min ≤ info.nStored - info.keptBack allowBackup extraBackup := by
    rw [i32Max] at hfits
    rw [i32Min]
    omega
  have hmax := hle.trans (ItemInfo.getAvailability_le_max hmin)
  rw [hleaves] at hfloor
  rw [ItemTable.getNStored_of_lookup hinfo]
  omega

theorem Inv.sound {registered : List (Supply ι)} {w : World ι} (h : Inv registered w) :
    w.table.Sound :=
  ⟨fun item info hinfo => (h.table item info hinfo).stocked,
    fun item info hinfo => (h.table item info hinfo).backup⟩

theorem reserve_stored {w : World ι} (h : w.table.Sound) (rule : Rule) {item : ι}
    (hitem : item ∈ w.table.items) {size : ℤ} (h0 : 0 ≤ size)
    (hle : size ≤ w.table.getNStored item) :
    (reserve w rule item size).table.Sound ∧
      (∀ item', item' ∈ (reserve w rule item size).table.items ↔ item' ∈ w.table.items) ∧
      ∀ item', (reserve w rule item size).table.getNStored item' =
        w.table.getNStored item' - if item = item' then size else 0 := by
  obtain ⟨t, r, hrun, hspec⟩ := h.exists_reserveItem rule hitem h0 hle
  unfold reserve
  rw [hrun]
  exact hspec

theorem reserveEach_stored {w : World ι} (h : w.table.Sound) (rule : ℕ → Rule)
    {requests : List (ι × ℤ)} (h0 : ∀ r ∈ requests, 0 ≤ r.2 ∧ r.1 ∈ w.table.items)
    (hle : ∀ item, sumOf item requests ≤ w.table.getNStored item) (item : ι) :
    (reserveEach rule w requests).table.getNStored item =
      w.table.getNStored item - sumOf item requests := by
  induction requests generalizing w with
  | nil => simp [reserveEach]
  | cons r requests ih =>
    obtain ⟨⟨hr, hitem⟩, hrest⟩ := List.forall_mem_cons.mp h0
    have hfirst : r.2 ≤ w.table.getNStored r.1 := by
      have hsum := hle r.1
      have hrest0 := sumOf_nonneg (fun r' hr' => (hrest r' hr').1) r.1
      rw [sumOf_cons, if_pos rfl] at hsum
      omega
    obtain ⟨hsound, hmem, hstored⟩ := reserve_stored h (rule requests.length) hitem hr hfirst
    rw [reserveEach, ih hsound, hstored, sumOf_cons]
    · omega
    · intro r' hr'
      exact ⟨(hrest r' hr').1, (hmem r'.1).mpr (hrest r' hr').2⟩
    · intro item'
      have hsum := hle item'
      rw [sumOf_cons] at hsum
      rw [hstored]
      omega

variable [ItemClass ι]

theorem getNBackup_next (w : World ι) (e : Event ι) (item : ι) :
    (next w e).table.getNBackup item = w.table.getNBackup item := by
  cases e with
  | recipe order rule inputs k =>
    unfold next
    simp only
    split
    · exact getNBackup_reserveEach ..
    · rfl
    · rfl
  | stock order rule filter allowBackup extraBackup n =>
    unfold next
    simp only
    split
    · exact getNBackup_reserve ..
    · rfl
    · rfl
  | manual rule item' n => exact getNBackup_reserve ..

/-- An event leaves so much of an item where it takes of it. Of the inputs of a recipe that take the
item, the first one says what has to be kept back. -/
def Leaves (item : ι) (floor : ℤ) (w : World ι) : Event ι → Prop
  | .recipe order _ inputs _ => ∀ r ∈ (resolveInputs order w.table inputs).join,
    ∀ p ∈ (r.items.zip inputs).find? fun p => p.1 = item,
      floor ≤ leaves w.table item p.2.allowBackup p.2.extraBackup
  | .stock order _ filter allowBackup extraBackup _ =>
    ∀ c ∈ (w.table.searchItem order filter).join,
      c.1 = item → floor ≤ leaves w.table item allowBackup extraBackup
  | .manual _ item' _ => item' = item → floor ≤ 0

instance (item : ι) (floor : ℤ) (w : World ι) : ∀ e, Decidable (Leaves item floor w e)
  | .recipe order _ inputs _ =>
    inferInstanceAs (Decidable (∀ r ∈ (resolveInputs order w.table inputs).join, ∀ p ∈ _, _ ≤ _))
  | .stock order _ filter _ _ _ =>
    inferInstanceAs (Decidable (∀ c ∈ (w.table.searchItem order filter).join, c.1 = item → _ ≤ _))
  | .manual _ item' _ => inferInstanceAs (Decidable (item' = item → floor ≤ 0))

instance (item : ι) (floor : ℤ) (w : World ι) (e : Event ι) :
    Decidable (((machine ι).restrict (Leaves item floor)).enabled w e) :=
  inferInstanceAs (Decidable (_ ∧ _))

omit [ItemClass ι] in
theorem sumOf_requests (r : ResolvedInputs ι) (inputs : List (Input ι)) (k : ℤ) (item : ι) :
    sumOf item (requests r inputs k) = k * needed item (r.items.zip inputs) := by
  rw [requests, sumOf_map_mul, List.zip_map_right]
  rfl

/-- What the sets of a recipe take of an item is available to the first input that takes it. -/
theorem sumOf_requests_le {t : ItemTable ι ℕ} {order : Enumeration ι} {inputs : List (Input ι)}
    {r : ResolvedInputs ι} (hr : resolveInputs order t inputs = some (some r)) {k : ℤ} (h0 : 0 ≤ k)
    (hk : k ≤ r.nSets) (item : ι) : 0 ≤ sumOf item (requests r inputs k) ∧
      sumOf item (requests r inputs k) ≤ firstAvailability t item (r.items.zip inputs) := by
  obtain ⟨hsets, hlen, -⟩ := resolveInputs_found hr
  have hpos : ∀ p ∈ r.items.zip inputs, 0 < p.2.size := fun p hp =>
    resolveInputs_pos hr p.2 (List.of_mem_zip hp).2
  have havailable : Available t (r.items.zip inputs) r.nSets := by
    rw [← available_iff hpos hsets, List.map_fst_zip hlen.le]
    exact ((resolveInputs_le_iff hr r.nSets).mp le_rfl).2.2
  rw [sumOf_requests]
  by_cases hitem : item ∈ (r.items.zip inputs).map Prod.fst
  · have hneeded := needed_pos hpos hitem
    exact ⟨mul_nonneg h0 hneeded.le,
      (mul_le_mul_of_nonneg_right hk hneeded.le).trans (havailable item hitem)⟩
  · have hzero : needed item (r.items.zip inputs) = 0 := by
      apply sumOf_eq_zero
      rintro d hd rfl
      obtain ⟨p, hp, rfl⟩ := List.mem_map.mp hd
      exact hitem (List.mem_map_of_mem hp)
    rw [hzero, mul_zero]
    exact ⟨le_rfl, firstAvailability_nonneg ..⟩

theorem Inv.recipe_leaves {registered : List (Supply ι)} {w : World ι} (h : Inv registered w)
    {order : Enumeration ι} {rule : ℕ → Rule} {inputs : List (Input ι)} {k : ℤ}
    (he : enabled w (.recipe order rule inputs k)) {item : ι} {floor : ℤ}
    (hleaves : Leaves item floor w (.recipe order rule inputs k)) :
    min floor (w.table.getNStored item) ≤
      (next w (.recipe order rule inputs k)).table.getNStored item := by
  obtain ⟨hinputs, hfits, he⟩ := he
  obtain ⟨found, hfound⟩ := exists_resolveInputs order w.table inputs
  simp only [hfound] at he
  simp only [Leaves, hfound, Option.join_some] at hleaves
  simp only [next, hfound]
  cases found with
  | none => exact min_le_right _ _
  | some r =>
    obtain ⟨hk0, hk⟩ := he
    obtain ⟨hmem, hbound⟩ := h.sound.resolved_le hinputs hfits hfound
    have hsizes : ∀ request ∈ requests r inputs k, 0 ≤ request.2 ∧ request.1 ∈ w.table.items := by
      intro request hrequest
      obtain ⟨p, hp, rfl⟩ := List.mem_map.mp hrequest
      obtain ⟨input, hinput, hsize⟩ := List.mem_map.mp (List.of_mem_zip hp).2
      exact ⟨mul_nonneg hk0 (hsize ▸ (hinputs input hinput).1.le), hmem p.1 (List.of_mem_zip hp).1⟩
    have hle (item' : ι) : sumOf item' (requests r inputs k) ≤ w.table.getNStored item' := by
      have h0 : 0 ≤ sumOf item' (r.items.zip (inputs.map Input.size)) := by
        refine sumOf_nonneg (fun p hp => ?_) item'
        obtain ⟨input, hinput, hsize⟩ := List.mem_map.mp (List.of_mem_zip hp).2
        exact hsize ▸ (hinputs input hinput).1.le
      rw [requests, sumOf_map_mul]
      exact (mul_le_mul_of_nonneg_right hk h0).trans (hbound item')
    obtain ⟨htaken0, htaken⟩ := sumOf_requests_le hfound hk0 hk item
    rw [reserveEach_stored h.sound rule hsizes hle]
    unfold firstAvailability at htaken
    cases hfirst : (r.items.zip inputs).find? fun p => p.1 = item with
    | none =>
      -- no input takes the item
      rw [hfirst, Option.elim_none] at htaken
      omega
    | some p =>
      obtain ⟨info, hsearch⟩ := resolveInputs_search hfound (List.mem_of_find?_eq_some hfirst)
      have hkey : p.1 = item := by simpa using List.find?_some hfirst
      rw [hkey] at hsearch
      obtain ⟨best, hbest, hlookup⟩ := w.table.searchItem_spec order p.2.item
      have hinfo := hlookup item info (Option.some.inj (hbest.symm.trans hsearch))
      have hinput := (List.of_mem_zip (List.mem_of_find?_eq_some hfirst)).2
      have hkept := hfits p.2 hinput (item, info) (by rw [hsearch]; rfl)
      rw [hfirst, Option.elim_some, availability, hinfo, Option.elim_some] at htaken
      exact min_le_of_taken h.sound hinfo hkept htaken (hleaves r rfl p hfirst)

theorem Inv.step_leaves {registered : List (Supply ι)} {w : World ι} (h : Inv registered w)
    {e : Event ι} (he : enabled w e) {item : ι} {floor : ℤ} (hleaves : Leaves item floor w e) :
    min floor (w.table.getNStored item) ≤ (next w e).table.getNStored item := by
  cases e with
  | recipe order rule inputs k => exact h.recipe_leaves he hleaves
  | stock order rule filter allowBackup extraBackup n =>
    obtain ⟨best, hbest, hmem⟩ := w.table.searchItem_spec order filter
    obtain ⟨hextra, he⟩ := he
    simp only [hbest] at he
    simp only [Leaves, hbest, Option.join_some] at hleaves
    simp only [next, hbest]
    cases best with
    | none => exact min_le_right _ _
    | some c =>
      have hinfo := hmem c.1 c.2 rfl
      obtain ⟨hfits, h0, he⟩ := he
      have hle : n ≤ w.table.getNStored c.1 := by
        rw [ItemTable.getNStored_of_lookup hinfo]
        exact he.trans
          (ItemInfo.getAvailability_le (h.nonneg hinfo).1 (h.nonneg hinfo).2 hextra hfits)
      have hitem : c.1 ∈ w.table.items := AList.lookup_isSome.mp (by rw [hinfo]; rfl)
      rw [(reserve_stored h.sound rule hitem h0 hle).2.2]
      split_ifs with hsame
      · subst hsame
        exact min_le_of_taken h.sound hinfo hfits he (hleaves c rfl rfl)
      · simp
  | manual rule item' n =>
    simp only [enabled] at he
    cases hinfo : w.table.items.lookup item' with
    | none => simp [hinfo] at he
    | some info =>
      rw [hinfo] at he
      have hitem : item' ∈ w.table.items := AList.lookup_isSome.mp (by rw [hinfo]; rfl)
      have hle : n ≤ w.table.getNStored item' := by
        rw [ItemTable.getNStored_of_lookup hinfo]
        exact he.2
      show _ ≤ (Reservations.reserve w rule item' n).table.getNStored item
      rw [(reserve_stored h.sound rule hitem he.1 hle).2.2]
      split_ifs with hsame
      · subst hsame
        have hfloor : floor ≤ 0 := hleaves rfl
        omega
      · simp

/-- However many recipes, stocks and requests take of an item in a cycle, they leave so much of it,
if each of them leaves so much where it takes of it, unless there was less from the beginning. The
backup of the item stays the one that the cycle began with. -/
theorem backups_kept (order : Enumeration ι) (registered : List (Supply ι))
    (backups : List (Filter ι × ℤ)) (hb : ∀ b ∈ backups, 0 ≤ b.2) (item : ι) (floor : ℤ)
    (es : List (Event ι))
    (hv : ((machine ι).restrict (Leaves item floor)).Valid (start order registered backups) es) :
    let w := (machine ι).exec (start order registered backups) es
    min floor ((start order registered backups).table.getNStored item) ≤
      w.table.getNStored item ∧
    w.table.getNBackup item = (start order registered backups).table.getNBackup item := by
  let Kept (w : World ι) : Prop := Inv registered w ∧
    min floor ((start order registered backups).table.getNStored item) ≤ w.table.getNStored item ∧
    w.table.getNBackup item = (start order registered backups).table.getNBackup item
  have hkept : Kept ((machine ι).exec (start order registered backups) es) := by
    refine (machine ι).invariant_restrict (fun w e hw he hleaves => ?_) ?_ hv
    · obtain ⟨hinv, hstored, hbackup⟩ := hw
      have hstep := hinv.step_leaves he hleaves
      exact ⟨hinv.step he, (le_min (min_le_left _ _) hstored).trans hstep,
        (getNBackup_next w e item).trans hbackup⟩
    · exact ⟨start_inv order registered hb, min_le_right _ _, rfl⟩
  exact hkept.2

/-- Without the manual request. The second input of the recipe and the backup that it allows do not
matter, as the first one takes iron. -/
def modestCycle : List (Event (Item ℤ)) := busyCycle.take 2

theorem backups_kept_modestCycle :
    min 1 (twoSlots.table.getNStored iron) ≤
      ((machine _).exec twoSlots modestCycle).table.getNStored iron ∧
    ((machine _).exec twoSlots modestCycle).table.getNBackup iron =
      twoSlots.table.getNBackup iron :=
  backups_kept _ _ _ (by decide) iron 1 modestCycle (by decide +kernel)

end Reservations
end OCRemote
