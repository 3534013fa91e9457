import OCRemote.Factory.ItemIndex
import OCRemote.Factory.RecipeExact

/-! Reservations one after the other. They succeed as long as no more of anything is asked for than
is stored, which is so for the sets of a recipe. -/

namespace OCRemote
open Tally

namespace ItemInfo
variable {ε : Type}

theorem reserveLoop_nBackup {rule : TopRule (Provider ε) Provider.priority} {fuel : ℕ}
    {info : ItemInfo ε} {size : ℤ} {extractors : List (ε × ℤ)} {r : ItemInfo ε × Reservation ε}
    (h : reserveLoop rule fuel info size extractors = some r) : r.1.nBackup = info.nBackup := by
  induction fuel generalizing info size extractors with
  | zero => cases h
  | succ fuel ih =>
    rw [reserveLoop] at h
    split_ifs at h
    · split at h
      · cases h
      · have hrest := ih h
        exact hrest
    · obtain rfl := Option.some.inj h
      rfl

end ItemInfo

namespace ItemTable
variable {ι ε : Type} [DecidableEq ι]

/-- No backup of the table is negative. -/
def Backed (t : ItemTable ι ε) : Prop :=
  ∀ item info, t.items.lookup item = some info → 0 ≤ info.nBackup

/-- A table that every reservation of what is available can be taken from. -/
structure Sound (t : ItemTable ι ε) : Prop where
  stocked : t.Stocked
  backup : t.Backed

def getNBackup (t : ItemTable ι ε) (item : ι) : ℤ := (t.items.lookup item).elim 0 ItemInfo.nBackup

/-- Reservations do not touch the backups. -/
theorem getNBackup_reserveItem {rule : TopRule (Provider ε) Provider.priority} {t : ItemTable ι ε}
    {item : ι} {size : ℤ} {r : ItemTable ι ε × Reservation ε}
    (h : t.reserveItem rule item size = some r) (item' : ι) :
    r.1.getNBackup item' = t.getNBackup item' := by
  unfold reserveItem at h
  split at h
  · cases h
  · rename_i info hinfo
    obtain ⟨p, hreserve, rfl⟩ := Option.map_eq_some_iff.mp h
    have hbackup : p.1.nBackup = info.nBackup := ItemInfo.reserveLoop_nBackup hreserve
    unfold getNBackup
    rw [lookup_setInfo]
    split_ifs with heq
    · rw [heq, hinfo, Option.elim_some, Option.elim_some, hbackup]
    · rfl

theorem getNStored_of_lookup {t : ItemTable ι ε} {item : ι} {info : ItemInfo ε}
    (h : t.items.lookup item = some info) : t.getNStored item = info.nStored := by
  rw [getNStored, h, Option.elim_some]

theorem getNStored_setInfo (t : ItemTable ι ε) (item item' : ι) (info : ItemInfo ε) :
    (t.setInfo item info).getNStored item' =
      if item' = item then info.nStored else t.getNStored item' := by
  unfold getNStored
  rw [lookup_setInfo]
  split_ifs <;> rfl

section
variable [ItemClass ι]

/-- The operation adds no backup that is negative. -/
def Operation.Backed : Operation ι ε → Prop
  | .addBackups _ backups => ∀ backup ∈ backups, 0 ≤ backup.2
  | _ => True

theorem Backed.addBackups {order : Enumeration ι} {t t' : ItemTable ι ε} (h : t.Backed)
    {backups : List (Filter ι × ℤ)} (hbackups : ∀ backup ∈ backups, 0 ≤ backup.2)
    (hrun : t.addBackups order backups = some t') : t'.Backed := by
  induction backups generalizing t with
  | nil =>
    obtain rfl := Option.some.inj hrun
    exact h
  | cons backup backups ih =>
    obtain ⟨hbackup, hbackups⟩ := List.forall_mem_cons.mp hbackups
    obtain ⟨best, hbest, hlookup⟩ := t.searchItem_spec order backup.1
    unfold ItemTable.addBackups at hrun
    rw [hbest] at hrun
    cases best with
    | none => exact ih h hbackups hrun
    | some c =>
      have hold := h c.1 c.2 (hlookup c.1 c.2 rfl)
      have hset : (t.setInfo c.1 { c.2 with nBackup := c.2.nBackup + backup.2 }).Backed :=
        forall_setInfo h (add_nonneg hold hbackup)
      exact ih hset hbackups hrun

theorem Backed.operate {t t' : ItemTable ι ε} (h : t.Backed) {operation : Operation ι ε}
    (hbacked : operation.Backed) (hop : t.operate operation = some t') : t'.Backed := by
  cases operation with
  | registerStoredItem item =>
    obtain rfl := Option.some.inj hop
    intro item' info hinfo
    rw [lookup_registerStoredItem] at hinfo
    split_ifs at hinfo
    · cases hold : t.items.lookup item with
      | none =>
        rw [hold] at hinfo
        exact Option.some.inj hinfo ▸ le_rfl
      | some old =>
        rw [hold] at hinfo
        exact Option.some.inj hinfo ▸ h item old hold
    · exact h item' info hinfo
  | provide item provider =>
    obtain rfl := Option.some.inj hop
    refine forall_provide h le_rfl fun info hinfo => ?_
    unfold ItemInfo.provide
    split_ifs
    · exact hinfo
    · exact hinfo
  | reserve rule item size =>
    obtain ⟨r, hr, rfl⟩ := Option.map_eq_some_iff.mp hop
    unfold ItemTable.reserveItem at hr
    split at hr
    · cases hr
    · rename_i info hinfo
      obtain ⟨p, hp, rfl⟩ := Option.map_eq_some_iff.mp hr
      exact forall_setInfo h ((h item info hinfo).trans_eq (ItemInfo.reserveLoop_nBackup hp).symm)
  | addBackups order backups => exact h.addBackups hbacked hop
  | endOfCycle =>
    obtain rfl := Option.some.inj hop
    rintro item info ⟨⟩

/-- Every table that the factory reaches is sound, if no backup is negative. -/
theorem sound_of_run {operations : List (Operation ι ε)} {t : ItemTable ι ε}
    (hbacked : ∀ operation ∈ operations, operation.Backed) (h : run operations = some t) :
    t.Sound := by
  have hstart : (empty : ItemTable ι ε).Backed := by
    rintro item info ⟨⟩
  refine ⟨stocked_of_run h, List.foldlM_inv (P := Backed) (fun operation hmem t t' ht hop => ?_)
    hstart h⟩
  exact ht.operate (hbacked operation hmem) hop

end

/-! One reservation, and some after one another. -/

/-- What is stored can be reserved. -/
theorem Stocked.exists_reserveItem {t : ItemTable ι ε} (h : t.Stocked)
    (rule : TopRule (Provider ε) Provider.priority) {item : ι} (hitem : item ∈ t.items) {size : ℤ}
    (h0 : 0 ≤ size) (hle : size ≤ t.getNStored item) :
    ∃ t' r, t.reserveItem rule item size = some (t', r) ∧ t'.Stocked ∧ (t.Backed → t'.Backed) ∧
      (∀ item', item' ∈ t'.items ↔ item' ∈ t.items) ∧
      ∀ item', t'.getNStored item' = t.getNStored item' - if item = item' then size else 0 := by
  obtain ⟨info, hinfo⟩ := Option.isSome_iff_exists.mp (AList.lookup_isSome.mpr hitem)
  rw [getNStored_of_lookup hinfo] at hle
  obtain ⟨info', r, hrun, -, -, -, hstored, hbackup, hstocked⟩ :=
    t.reserveItem_draws rule hinfo (h item info hinfo) h0 hle
  refine ⟨_, r, hrun, forall_setInfo h hstocked, fun hbacked => ?_, fun item' => ?_,
    fun item' => ?_⟩
  · exact forall_setInfo hbacked (hbackup ▸ hbacked item info hinfo)
  · exact (AList.mem_insert _).trans (or_iff_right_of_imp fun heq => heq ▸ hitem)
  · rw [getNStored_setInfo]
    by_cases heq : item' = item
    · rw [if_pos heq, if_pos heq.symm, heq, getNStored_of_lookup hinfo, hstored]
    · rw [if_neg heq, if_neg (Ne.symm heq), sub_zero]

theorem Sound.exists_reserveItem {t : ItemTable ι ε} (h : t.Sound)
    (rule : TopRule (Provider ε) Provider.priority) {item : ι} (hitem : item ∈ t.items) {size : ℤ}
    (h0 : 0 ≤ size) (hle : size ≤ t.getNStored item) :
    ∃ t' r, t.reserveItem rule item size = some (t', r) ∧ t'.Sound ∧
      (∀ item', item' ∈ t'.items ↔ item' ∈ t.items) ∧
      ∀ item', t'.getNStored item' = t.getNStored item' - if item = item' then size else 0 := by
  obtain ⟨t', r, hrun, hstocked, hbacked, hrest⟩ := h.stocked.exists_reserveItem rule hitem h0 hle
  exact ⟨t', r, hrun, ⟨hstocked, hbacked h.backup⟩, hrest⟩

/-- A sound table with these backups, which a cycle does not change, in which the filters find what
they match. -/
structure SoundWith [ItemClass ι] (backups : ι → ℤ) (t : ItemTable ι ε) : Prop extends t.Sound where
  indexed : t.Indexed
  backups : ∀ item, t.getNBackup item = backups item

theorem SoundWith.reserveItem [ItemClass ι] {backups : ι → ℤ} {t : ItemTable ι ε}
    (h : t.SoundWith backups) {rule : TopRule (Provider ε) Provider.priority} {item : ι} {size : ℤ}
    {r : ItemTable ι ε × Reservation ε} (hr : t.reserveItem rule item size = some r)
    (hsound : r.1.Sound) : r.1.SoundWith backups :=
  ⟨hsound, h.indexed.reserveItem hr, fun item' =>
    (getNBackup_reserveItem hr item').trans (h.backups item')⟩

def reserveEach (rule : TopRule (Provider ε) Provider.priority) :
    ItemTable ι ε → List (ι × ℤ) → Option (ItemTable ι ε × List (Reservation ε))
  | items, [] => some (items, [])
  | items, (item, size) :: requests =>
    match items.reserveItem rule item size with
    | none => none
    | some (items, reservation) =>
      (reserveEach rule items requests).map fun r => (r.1, reservation :: r.2)

end ItemTable

/-! Recipes. -/

section
variable {ι ε : Type} [DecidableEq ι] [ItemClass ι]

theorem exists_resolveInputs (order : Enumeration ι) (t : ItemTable ι ε) (inputs : List (Input ι)) :
    ∃ found, resolveInputs order t inputs = some found := by
  obtain ⟨found, hloop, -⟩ := resolveLoop_eq_none_iff order t inputs [] ∅ i32Max
  unfold resolveInputs
  rw [hloop]
  cases found with
  | none => exact ⟨none, rfl⟩
  | some c =>
    simp only
    split_ifs
    · exact ⟨_, rfl⟩
    · exact ⟨none, rfl⟩

/-- What was resolved is in the table, and the sets take no more of anything than is stored. -/
theorem ItemTable.Sound.resolved_le {t : ItemTable ι ε} (h : t.Sound) {order : Enumeration ι}
    {inputs : List (Input ι)} (hinputs : ∀ input ∈ inputs, 0 < input.size ∧ 0 ≤ input.extraBackup)
    (hfits : KeptFits order t inputs) {r : ResolvedInputs ι}
    (hr : resolveInputs order t inputs = some (some r)) :
    (∀ item ∈ r.items, item ∈ t.items) ∧
      ∀ item, r.nSets * sumOf item (r.items.zip (inputs.map Input.size)) ≤ t.getNStored item := by
  have ht : ∀ item info, t.items.lookup item = some info → 0 ≤ info.nStored ∧ 0 ≤ info.nBackup :=
    fun item info hinfo => ⟨(h.stocked item info hinfo).nonneg, h.backup item info hinfo⟩
  obtain ⟨found, hfound, hspec⟩ := resolveInputs_spec order ht hinputs hfits
  obtain rfl := Option.some.inj (hfound.symm.trans hr)
  obtain ⟨-, -, hitems, hstored⟩ := hspec r rfl
  refine ⟨hitems, fun item => ?_⟩
  cases hinfo : t.items.lookup item with
  | none =>
    -- an item that is not in the table is not asked for
    have hzero : sumOf item (r.items.zip (inputs.map Input.size)) = 0 := by
      apply sumOf_eq_zero
      rintro p hp rfl
      have hmem := AList.lookup_isSome.mpr (hitems p.1 (List.of_mem_zip hp).1)
      simp [hinfo] at hmem
    rw [hzero, mul_zero]
    exact h.stocked.getNStored_nonneg item
  | some info =>
    rw [ItemTable.getNStored_of_lookup hinfo]
    exact hstored item info hinfo

/-- An input that asks for no negative backup, and for no more of what it matches than 32 bits
hold. -/
structure Input.Keeps (backups : ι → ℤ) (input : Input ι) : Prop where
  nonneg : 0 ≤ input.extraBackup
  fits : ∀ item, input.item.apply item = true →
    input.extraBackup + (if input.allowBackup then 0 else backups item) ≤ i32Max

/-- Inputs as they have to be configured. -/
structure InputsOk (backups : ι → ℤ) (inputs : List (Input ι)) : Prop where
  size : ∀ input ∈ inputs, 0 < input.size
  keeps : ∀ input ∈ inputs, input.Keeps backups
  total : (inputs.map Input.size).sum ≤ i32Max

omit [DecidableEq ι] in
theorem InputsOk.positive {backups : ι → ℤ} {inputs : List (Input ι)} (h : InputsOk backups inputs)
    (input : Input ι) (hinput : input ∈ inputs) : 0 < input.size ∧ 0 ≤ input.extraBackup :=
  ⟨h.size input hinput, (h.keeps input hinput).nonneg⟩

end
end OCRemote
