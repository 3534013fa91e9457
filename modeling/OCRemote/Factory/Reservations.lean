import Mathlib.Algebra.Order.Ring.Int
import OCRemote.Factory.Recipe
import OCRemote.Lib.Machine

/-! One cycle of reservations. The storages register their providers, the backups are set, and
then the processes reserve for recipes, stocks and manual requests in any order. A provider is
known by its position among the registered ones. -/

namespace OCRemote
open Tally

structure Supply (ι : Type) where
  item : ι
  priority : ℤ
  nProvided : ℤ

namespace Reservations
variable {ι : Type} [DecidableEq ι] [ItemClass ι]

abbrev Rule := TopRule (Provider ℕ) Provider.priority

structure Entry (ι : Type) where
  item : ι
  size : ℤ
  reservation : Reservation ℕ
  deriving DecidableEq

structure World (ι : Type) where
  table : ItemTable ι ℕ
  reservations : List (Entry ι)
  panicked : Bool

def World.drawn (w : World ι) : List (ℕ × ℤ) :=
  w.reservations.flatMap fun r => r.reservation.extractors

inductive Event (ι : Type) where
  /-- `resolve_inputs`, then `reserve_item(items[i], k * size_i)` for every input. -/
  | recipe (order : Enumeration ι) (rule : ℕ → Rule) (inputs : List (Input ι)) (k : ℤ)
  | stock (order : Enumeration ι) (rule : Rule) (filter : Filter ι)
      (allowBackup : Bool) (extraBackup n : ℤ)
  | manual (rule : Rule) (item : ι) (n : ℤ)

def registerFrom : ℕ → List (Supply ι) → ItemTable ι ℕ → ItemTable ι ℕ
  | _, [], t => t
  | i, s :: registered, t =>
    registerFrom (i + 1) registered (t.provide s.item ⟨s.priority, s.nProvided, i⟩)

/-- `update_storages`. -/
def start (order : Enumeration ι) (registered : List (Supply ι)) (backups : List (Filter ι × ℤ)) :
    World ι :=
  match (registerFrom 0 registered .empty).addBackups order backups with
  | some t => ⟨t, [], false⟩
  | none => ⟨.empty, [], true⟩

def reserve (w : World ι) (rule : Rule) (item : ι) (size : ℤ) : World ι :=
  match w.table.reserveItem rule item size with
  | some (t, r) => { w with table := t, reservations := w.reservations ++ [⟨item, size, r⟩] }
  | none => { w with panicked := true }

def reserveEach (rule : ℕ → Rule) : World ι → List (ι × ℤ) → World ι
  | w, [] => w
  | w, (item, size) :: requests =>
    reserveEach rule (reserve w (rule requests.length) item size) requests

def requests (r : ResolvedInputs ι) (inputs : List (Input ι)) (k : ℤ) : List (ι × ℤ) :=
  (r.items.zip (inputs.map Input.size)).map fun r => (r.1, k * r.2)

/-- What may happen. What is asked to be left of an item fits in 32 bits. -/
def enabled (w : World ι) : Event ι → Prop
  | .recipe order _ inputs k =>
    (∀ input ∈ inputs, 0 < input.size ∧ 0 ≤ input.extraBackup) ∧ KeptFits order w.table inputs ∧
      match resolveInputs order w.table inputs with
      | some (some r) => 0 ≤ k ∧ k ≤ r.nSets
      | some none => False
      | none => True
  | .stock order _ filter allowBackup extraBackup n =>
    0 ≤ extraBackup ∧
      match w.table.searchItem order filter with
      | some (some c) => c.2.keptBack allowBackup extraBackup ≤ i32Max ∧ 0 ≤ n ∧
        n ≤ c.2.getAvailability allowBackup extraBackup
      | some none => False
      | none => True
  | .manual _ item n =>
    match w.table.items.lookup item with
    | some info => 0 ≤ n ∧ n ≤ info.nStored
    | none => False

def next (w : World ι) : Event ι → World ι
  | .recipe order rule inputs k =>
    match resolveInputs order w.table inputs with
    | some (some r) => reserveEach rule w (requests r inputs k)
    | some none => w
    | none => { w with panicked := true }
  | .stock order rule filter _ _ n =>
    match w.table.searchItem order filter with
    | some (some c) => reserve w rule c.1 n
    | some none => w
    | none => { w with panicked := true }
  | .manual rule item n => reserve w rule item n

instance (w : World ι) : ∀ e, Decidable (enabled w e)
  | .recipe order _ inputs k =>
    have : Decidable (match resolveInputs order w.table inputs with
        | some (some r) => 0 ≤ k ∧ k ≤ r.nSets
        | some none => False
        | none => True) :=
      match resolveInputs order w.table inputs with
      | some (some r) => inferInstanceAs (Decidable (0 ≤ k ∧ k ≤ r.nSets))
      | some none => .isFalse id
      | none => .isTrue trivial
    inferInstanceAs (Decidable (_ ∧ _ ∧ _))
  | .stock order _ filter allowBackup extraBackup n =>
    have : Decidable (match w.table.searchItem order filter with
        | some (some c) => c.2.keptBack allowBackup extraBackup ≤ i32Max ∧ 0 ≤ n ∧
          n ≤ c.2.getAvailability allowBackup extraBackup
        | some none => False
        | none => True) :=
      match w.table.searchItem order filter with
      | some (some c) =>
        inferInstanceAs (Decidable (c.2.keptBack allowBackup extraBackup ≤ i32Max ∧ 0 ≤ n ∧
          n ≤ c.2.getAvailability allowBackup extraBackup))
      | some none => .isFalse id
      | none => .isTrue trivial
    inferInstanceAs (Decidable (_ ∧ _))
  | .manual _ item n =>
    match h : w.table.items.lookup item with
    | some info => decidable_of_iff (0 ≤ n ∧ n ≤ info.nStored) (by simp [enabled, h])
    | none => .isFalse (by simp [enabled, h])

def machine (ι : Type) [DecidableEq ι] [ItemClass ι] : Machine (World ι) (Event ι) :=
  ⟨enabled, next⟩

instance (w : World ι) (e : Event ι) : Decidable ((machine ι).enabled w e) :=
  inferInstanceAs (Decidable (enabled w e))

/-! What holds in every cycle. -/

/-- The heap of an item holds registered providers of that item. -/
def Offered (registered : List (Supply ι)) (item : ι) (heap : List (Provider ℕ)) : Prop :=
  ∀ p ∈ heap, ∃ s, registered[p.extractor]? = some s ∧ s.item = item ∧ s.priority = p.priority

structure InfoInv (registered : List (Supply ι)) (item : ι) (info : ItemInfo ℕ) : Prop where
  stocked : info.Stocked
  backup : 0 ≤ info.nBackup
  offered : Offered registered item info.providers

def TableInv (registered : List (Supply ι)) (t : ItemTable ι ℕ) : Prop :=
  ∀ item info, t.items.lookup item = some info → InfoInv registered item info

/-- What was drawn from a provider and what is left of it are together what it provided. -/
def Balanced (registered : List (Supply ι)) (ds : List (ℕ × ℤ)) (left : ι → ℕ → ℤ) : Prop :=
  ∀ e s, registered[e]? = some s → sumOf e ds + left s.item e = max 0 s.nProvided

/-- A provider is drawn on only after those of the same item with a higher priority are used up. -/
def Ordered (registered : List (Supply ι)) (ds : List (ℕ × ℤ)) : Prop :=
  ∀ k d, ds[k]? = some d → ∃ s, registered[d.1]? = some s ∧
    ∀ e' s', registered[e']? = some s' → s'.item = s.item → s.priority < s'.priority →
      sumOf e' (ds.take k) = max 0 s'.nProvided

def Entry.Ok (registered : List (Supply ι)) (r : Entry ι) : Prop :=
  (r.reservation.extractors.map Prod.snd).sum = r.size ∧
    ∀ d ∈ r.reservation.extractors, 0 < d.2 ∧ ∃ s, registered[d.1]? = some s ∧ s.item = r.item

structure Inv (registered : List (Supply ι)) (w : World ι) : Prop where
  alive : w.panicked = false
  table : TableInv registered w.table
  balanced : Balanced registered w.drawn w.table.left
  ordered : Ordered registered w.drawn
  entries : ∀ r ∈ w.reservations, r.Ok registered

omit [DecidableEq ι] [ItemClass ι] in
theorem Ordered.append {registered : List (Supply ι)} {ds : List (ℕ × ℤ)}
    (h : Ordered registered ds)
    {d : ℕ × ℤ} {s : Supply ι} (hs : registered[d.1]? = some s)
    (hd : ∀ e' s', registered[e']? = some s' → s'.item = s.item → s.priority < s'.priority →
      sumOf e' ds = max 0 s'.nProvided) : Ordered registered (ds ++ [d]) := by
  intro k d' hk
  by_cases hlt : k < ds.length
  · rw [List.getElem?_append_left hlt] at hk
    rw [List.take_append_of_le_length hlt.le]
    exact h k d' hk
  · have hklen := (List.getElem?_eq_some_iff.mp hk).1
    rw [List.length_append, List.length_singleton] at hklen
    obtain rfl : k = ds.length := by omega
    obtain rfl : d = d' := by simpa using hk
    rw [List.take_left']
    · exact ⟨s, hs, hd⟩
    · rfl

omit [DecidableEq ι] [ItemClass ι] in
/-- Draws from the heap of one item keep the balance of its providers and the order. -/
theorem Draws.keep {registered : List (Supply ι)} {item : ι} {heap heap' : List (Provider ℕ)}
    {ds : List (ℕ × ℤ)} (h : Draws heap ds heap') (hpos : Positive heap)
    (hoff : Offered registered item heap) {before : List (ℕ × ℤ)}
    (hbal : ∀ e s, registered[e]? = some s → s.item = item →
      sumOf e before + amount e heap = max 0 s.nProvided)
    (hord : Ordered registered before) :
    Offered registered item heap' ∧ Ordered registered (before ++ ds) ∧
      (∀ d ∈ ds, ∃ s, registered[d.1]? = some s ∧ s.item = item) ∧
      ∀ e s, registered[e]? = some s → s.item = item →
        sumOf e (before ++ ds) + amount e heap' = max 0 s.nProvided := by
  induction h generalizing before with
  | nil heap => simpa using ⟨hoff, hord, hbal⟩
  | @cons heap heap₁ heap' d ds hd _ ih =>
    obtain ⟨top, htop, hdtop, hmax⟩ := hd.exists_top
    obtain ⟨s, hs, hsitem, hsprio⟩ := hoff top htop
    rw [hdtop] at hs
    have hoff₁ : Offered registered item heap₁ := by
      intro q hq
      obtain ⟨-, p, hp, he, hprio⟩ := hd.mem_of_mem hpos q hq
      obtain ⟨s', hs', hitem', hprio'⟩ := hoff p hp
      exact ⟨s', he ▸ hs', hitem', hprio'.trans hprio⟩
    -- a provider of higher priority would be on top if anything was left of it
    have hord₁ : Ordered registered (before ++ [d]) := by
      apply hord.append hs
      intro e' s' hs' hitem' hlt
      have hout : amount e' heap = 0 := by
        apply amount_eq_zero
        rintro p hp rfl
        obtain ⟨s'', hs'', -, hprio''⟩ := hoff p hp
        obtain rfl : s' = s'' := Option.some.inj (hs'.symm.trans hs'')
        have hle := hmax p hp
        omega
      have hb := hbal e' s' hs' (hitem'.trans hsitem)
      rwa [hout, add_zero] at hb
    have hbal₁ (e : ℕ) (s' : Supply ι) (hs' : registered[e]? = some s') (hitem : s'.item = item) :
        sumOf e (before ++ [d]) + amount e heap₁ = max 0 s'.nProvided := by
      have hb := hbal e s' hs' hitem
      rw [hd.amount_eq e] at hb
      rw [sumOf_append, add_assoc]
      simpa [sumOf] using hb
    obtain ⟨hoff', hord', hfrom, hbal'⟩ :=
      ih (fun q hq => (hd.mem_of_mem hpos q hq).1) hoff₁ hbal₁ hord₁
    rw [List.append_assoc, List.singleton_append] at hord' hbal'
    exact ⟨hoff', hord', List.forall_mem_cons.mpr ⟨⟨s, hs, hsitem⟩, hfrom⟩, hbal'⟩

omit [DecidableEq ι] [ItemClass ι] in
theorem sumOf_eq_zero_of_ne {registered : List (Supply ι)} {item : ι} {ds : List (ℕ × ℤ)}
    (h : ∀ d ∈ ds, ∃ s, registered[d.1]? = some s ∧ s.item = item) {e : ℕ} {s : Supply ι}
    (hs : registered[e]? = some s) (hne : s.item ≠ item) : sumOf e ds = 0 := by
  apply sumOf_eq_zero
  rintro d hd rfl
  obtain ⟨s', hs', hitem⟩ := h d hd
  obtain rfl : s = s' := Option.some.inj (hs.symm.trans hs')
  exact hne hitem

omit [ItemClass ι] in
/-- A reservation of at most what is stored succeeds and keeps everything. -/
theorem Inv.reserve {registered : List (Supply ι)} {w : World ι} (h : Inv registered w)
    (rule : Rule) {item : ι}
    {info : ItemInfo ℕ} (hinfo : w.table.items.lookup item = some info) {size : ℤ} (h0 : 0 ≤ size)
    (hle : size ≤ info.nStored) :
    Inv registered (reserve w rule item size) ∧
      ∃ info₁, info₁.nStored = info.nStored - size ∧
        ∀ item', (Reservations.reserve w rule item size).table.items.lookup item' =
          if item' = item then some info₁ else w.table.items.lookup item' := by
  obtain ⟨hstocked, hbackup, hoff⟩ := h.table item info hinfo
  obtain ⟨info₁, r, hrun, hdraws, hds, hsum, hstored₁, hbackup₁, hstocked₁⟩ :=
    w.table.reserveItem_draws rule hinfo hstocked h0 hle
  have hbal (e : ℕ) (s : Supply ι) (hs : registered[e]? = some s) (hitem : s.item = item) :
      sumOf e w.drawn + amount e info.providers = max 0 s.nProvided := by
    have hb := h.balanced e s hs
    unfold ItemTable.left at hb
    rwa [hitem, hinfo] at hb
  obtain ⟨hoff₁, hord₁, hfrom, hbal₁⟩ := Draws.keep hdraws hstocked.positive hoff hbal h.ordered
  have hw : Reservations.reserve w rule item size =
      { w with
        table := w.table.setInfo item info₁
        reservations := w.reservations ++ [⟨item, size, r⟩] } := by
    unfold Reservations.reserve
    rw [hrun]
  have hdrawn : (Reservations.reserve w rule item size).drawn = w.drawn ++ r.extractors := by
    rw [hw]
    simp [World.drawn]
  have hlookup (item' : ι) : (Reservations.reserve w rule item size).table.items.lookup item' =
      if item' = item then some info₁ else w.table.items.lookup item' := by
    rw [hw]
    exact ItemTable.lookup_setInfo ..
  refine ⟨⟨?_, ?_, ?_, ?_, ?_⟩, info₁, hstored₁, hlookup⟩
  · rw [hw]
    exact h.alive
  · rw [hw]
    exact ItemTable.forall_setInfo h.table ⟨hstocked₁, hbackup₁ ▸ hbackup, hoff₁⟩
  · intro e s hs
    rw [hdrawn]
    unfold ItemTable.left
    rw [hlookup]
    by_cases heq : s.item = item
    · rw [if_pos heq]
      exact hbal₁ e s hs heq
    · rw [if_neg heq, sumOf_append, sumOf_eq_zero_of_ne hfrom hs heq, add_zero]
      exact h.balanced e s hs
  · rw [hdrawn]
    exact hord₁
  · rw [hw]
    intro r' hr'
    rcases List.mem_append.mp hr' with hr' | hr'
    · exact h.entries r' hr'
    · obtain rfl := List.mem_singleton.mp hr'
      exact ⟨hsum, fun d hd => ⟨hds d hd, hfrom d hd⟩⟩

omit [ItemClass ι] in
theorem Inv.reserveEach {registered : List (Supply ι)} {w : World ι} (h : Inv registered w)
    (rule : ℕ → Rule)
    {requests : List (ι × ℤ)} (h0 : ∀ r ∈ requests, 0 ≤ r.2 ∧ r.1 ∈ w.table.items)
    (hle : ∀ item info, w.table.items.lookup item = some info → sumOf item requests ≤ info.nStored) :
    Inv registered (reserveEach rule w requests) := by
  induction requests generalizing w with
  | nil => exact h
  | cons r requests ih =>
    obtain ⟨hr, hrest⟩ := List.forall_mem_cons.mp h0
    obtain ⟨info, hinfo⟩ := Option.isSome_iff_exists.mp (AList.lookup_isSome.mpr hr.2)
    have hrest0 : 0 ≤ sumOf r.1 requests := sumOf_nonneg (fun r' hr' => (hrest r' hr').1) r.1
    have hsize := hle r.1 info hinfo
    rw [sumOf_cons, if_pos rfl] at hsize
    -- the rest is still covered after the first request
    obtain ⟨hinv, info₁, hstored, hlookup⟩ := h.reserve (rule requests.length) hinfo hr.1 (by omega)
    apply ih hinv
    · intro r' hr'
      obtain ⟨h0', hmem⟩ := hrest r' hr'
      refine ⟨h0', AList.lookup_isSome.mp ?_⟩
      rw [hlookup]
      split_ifs
      · rfl
      · exact AList.lookup_isSome.mpr hmem
    · intro item info' hinfo'
      rw [hlookup] at hinfo'
      split_ifs at hinfo' with heq
      · obtain rfl := Option.some.inj hinfo'
        subst heq
        omega
      · have hd := hle item info' hinfo'
        rwa [sumOf_cons, if_neg (Ne.symm heq), zero_add] at hd

omit [ItemClass ι] in
theorem Inv.nonneg {registered : List (Supply ι)} {w : World ι} (h : Inv registered w) {item : ι}
    {info : ItemInfo ℕ} (hinfo : w.table.items.lookup item = some info) :
    0 ≤ info.nStored ∧ 0 ≤ info.nBackup :=
  ⟨(h.table item info hinfo).stocked.nonneg, (h.table item info hinfo).backup⟩

theorem Inv.recipe {registered : List (Supply ι)} {w : World ι} (h : Inv registered w)
    {order : Enumeration ι}
    {rule : ℕ → Rule} {inputs : List (Input ι)} {k : ℤ}
    (he : enabled w (.recipe order rule inputs k)) :
    Inv registered (next w (.recipe order rule inputs k)) := by
  obtain ⟨hinputs, hfits, he⟩ := he
  obtain ⟨found, hfound, hspec⟩ :=
    resolveInputs_spec order (fun item info hinfo => h.nonneg hinfo) hinputs hfits
  simp only [hfound] at he
  simp only [next, hfound]
  cases found with
  | none => exact h
  | some r =>
    obtain ⟨hsets, hlen, hmem, hbound⟩ := hspec r rfl
    obtain ⟨hk0, hk⟩ := he
    have hsize (x : ι × ℤ) (hx : x ∈ r.items.zip (inputs.map Input.size)) : 0 < x.2 := by
      obtain ⟨input, hi, hx2⟩ := List.mem_map.mp (List.of_mem_zip hx).2
      exact hx2 ▸ (hinputs input hi).1
    apply h.reserveEach
    · intro x hx
      obtain ⟨y, hy, rfl⟩ := List.mem_map.mp hx
      exact ⟨mul_nonneg hk0 (hsize y hy).le, hmem _ (List.of_mem_zip hy).1⟩
    · intro item info hinfo
      have hd0 : 0 ≤ sumOf item (r.items.zip (inputs.map Input.size)) :=
        sumOf_nonneg (fun y hy => (hsize y hy).le) item
      rw [requests, sumOf_map_mul]
      exact (mul_le_mul_of_nonneg_right hk hd0).trans (hbound item info hinfo)

theorem Inv.step {registered : List (Supply ι)} {w : World ι} (h : Inv registered w) {e : Event ι}
    (he : enabled w e) : Inv registered (next w e) := by
  cases e with
  | recipe order rule inputs k => exact h.recipe he
  | stock order rule filter allowBackup extraBackup n =>
    obtain ⟨best, hbest, hmem⟩ := w.table.searchItem_spec order filter
    obtain ⟨hextra, he⟩ := he
    simp only [hbest] at he
    simp only [next, hbest]
    cases best with
    | none => exact h
    | some c =>
      have hinfo := hmem c.1 c.2 rfl
      obtain ⟨hfits, h0, he⟩ := he
      have hle : c.2.getAvailability allowBackup extraBackup ≤ c.2.nStored :=
        ItemInfo.getAvailability_le (h.nonneg hinfo).1 (h.nonneg hinfo).2 hextra hfits
      exact (h.reserve rule hinfo h0 (he.trans hle)).1
  | manual rule item n =>
    simp only [enabled] at he
    cases hinfo : w.table.items.lookup item with
    | none => simp [hinfo] at he
    | some info =>
      rw [hinfo] at he
      exact (h.reserve rule hinfo he.1 he.2).1

theorem TableInv.provide {registered : List (Supply ι)} {t : ItemTable ι ℕ}
    (h : TableInv registered t) {i : ℕ}
    {s : Supply ι} (hs : registered[i]? = some s) :
    TableInv registered (t.provide s.item ⟨s.priority, s.nProvided, i⟩) := by
  have hnew : InfoInv registered s.item ⟨0, 0, []⟩ :=
    ⟨⟨rfl, by simp [Positive]⟩, le_rfl, by simp [Offered]⟩
  refine ItemTable.forall_provide h hnew fun info hold => ⟨hold.stocked.provide _, ?_, ?_⟩
  · unfold ItemInfo.provide
    split_ifs <;> exact hold.backup
  · unfold ItemInfo.provide
    split_ifs
    · exact List.forall_mem_cons.mpr ⟨⟨s, hs, rfl, rfl⟩, hold.offered⟩
    · exact hold.offered

theorem registerFrom_spec {registered before rest : List (Supply ι)} {t : ItemTable ι ℕ} (i : ℕ)
    (hreg : registered = before ++ rest) (hi : before.length = i) (h : TableInv registered t)
    (hleft : ∀ e s, registered[e]? = some s →
      t.left s.item e = if e < i then max 0 s.nProvided else 0) :
    TableInv registered (registerFrom i rest t) ∧
      ∀ e s, registered[e]? = some s → (registerFrom i rest t).left s.item e =
        max 0 s.nProvided := by
  induction rest generalizing before t i with
  | nil =>
    refine ⟨h, fun e s hs => ?_⟩
    have hlt : e < i := by
      have := (List.getElem?_eq_some_iff.mp hs).1
      rwa [hreg, List.append_nil, hi] at this
    rw [registerFrom, hleft e s hs, if_pos hlt]
  | cons s rest ih =>
    have hs : registered[i]? = some s := by
      rw [hreg, ← hi]
      simp
    have hreg' : registered = (before ++ [s]) ++ rest := by simp [hreg]
    apply ih (i + 1) hreg' (by simp [hi]) (h.provide hs)
    intro e s' hs'
    rw [ItemTable.left_provide, hleft e s' hs']
    by_cases he : e = i
    · subst he
      obtain rfl : s = s' := Option.some.inj (hs.symm.trans hs')
      simp
    · have hne : ¬(s'.item = s.item ∧ e = i) := fun hc => he hc.2
      rw [if_neg hne, add_zero]
      split_ifs <;> omega

theorem addBackups_spec (order : Enumeration ι) {registered : List (Supply ι)}
    {backups : List (Filter ι × ℤ)}
    (hb : ∀ b ∈ backups, 0 ≤ b.2) {t : ItemTable ι ℕ} (h : TableInv registered t) :
    ∃ t', t.addBackups order backups = some t' ∧ TableInv registered t' ∧ ∀ item e, t'.left item e =
      t.left item e := by
  induction backups generalizing t with
  | nil => exact ⟨t, rfl, h, fun _ _ => rfl⟩
  | cons b backups ih =>
    obtain ⟨hb0, hb⟩ := List.forall_mem_cons.mp hb
    obtain ⟨best, hbest, hmem⟩ := t.searchItem_spec order b.1
    unfold ItemTable.addBackups
    simp only [hbest]
    cases best with
    | none => exact ih hb h
    | some c =>
      have hinfo := hmem c.1 c.2 rfl
      obtain ⟨⟨hstored, hpos⟩, hbackup, hoff⟩ := h _ _ hinfo
      have hset : TableInv registered (t.setInfo c.1 { c.2 with nBackup := c.2.nBackup + b.2 }) :=
        ItemTable.forall_setInfo h ⟨⟨hstored, hpos⟩, add_nonneg hbackup hb0, hoff⟩
      obtain ⟨t', ht', hinv, hleft⟩ := ih hb hset
      refine ⟨t', ht', hinv, fun item e => ?_⟩
      rw [hleft]
      unfold ItemTable.left
      rw [ItemTable.lookup_setInfo]
      split_ifs with heq
      · rw [heq, hinfo]
        rfl
      · rfl

theorem start_inv (order : Enumeration ι) (registered : List (Supply ι))
    {backups : List (Filter ι × ℤ)}
    (hb : ∀ b ∈ backups, 0 ≤ b.2) : Inv registered (start order registered backups) := by
  have hempty : TableInv registered (ItemTable.empty : ItemTable ι ℕ) := by
    intro item info h
    simp [ItemTable.empty] at h
  obtain ⟨hreg, hleft⟩ := registerFrom_spec 0 (List.nil_append registered).symm rfl hempty
    (fun e s _ => by simp [ItemTable.left, ItemTable.empty])
  obtain ⟨t, ht, hinv, hsame⟩ := addBackups_spec order hb hreg
  unfold start
  rw [ht]
  refine ⟨rfl, hinv, fun e s hs => ?_, fun k d hd => ?_, by simp⟩
  · rw [hsame, hleft e s hs]
    simp [World.drawn, sumOf]
  · simp [World.drawn] at hd

/-- Whatever the processes do in a cycle, what is stored is what the heaps still offer, nothing
panics, every reservation is filled exactly, no provider gives more than it has, and the
providers of an item are used up in the order of their priorities. -/
theorem never_overReserved (order : Enumeration ι) (registered : List (Supply ι))
    (backups : List (Filter ι × ℤ))
    (hb : ∀ b ∈ backups, 0 ≤ b.2) (es : List (Event ι))
    (hv : (machine ι).Valid (start order registered backups) es) :
    let w := (machine ι).exec (start order registered backups) es
    w.panicked = false ∧
    (∀ item info, w.table.items.lookup item = some info →
      info.nStored = (info.providers.map Provider.nProvided).sum ∧ 0 ≤ info.nStored) ∧
    (∀ r ∈ w.reservations, (r.reservation.extractors.map Prod.snd).sum = r.size ∧
      ∀ d ∈ r.reservation.extractors, 0 < d.2 ∧ ∃ s, registered[d.1]? = some s ∧ s.item = r.item) ∧
    (∀ e s, registered[e]? = some s → sumOf e w.drawn ≤ max 0 s.nProvided) ∧
    ∀ k d, w.drawn[k]? = some d → ∃ s, registered[d.1]? = some s ∧
      ∀ e' s', registered[e']? = some s' → s'.item = s.item → s.priority < s'.priority →
        sumOf e' (w.drawn.take k) = max 0 s'.nProvided := by
  have h : Inv registered ((machine ι).exec (start order registered backups) es) :=
    (machine ι).invariant (I := Inv registered) (fun w e hI he => hI.step he)
      (start_inv order registered hb) hv
  refine ⟨h.alive,
    fun item info hinfo => ⟨(h.table item info hinfo).stocked.stored, (h.nonneg hinfo).1⟩, h.entries,
    fun e s hs => ?_, h.ordered⟩
  have hbal := h.balanced e s hs
  have hleft : 0 ≤ ((machine ι).exec (start order registered backups) es).table.left s.item e := by
    unfold ItemTable.left
    cases hinfo : ((machine ι).exec (start order registered backups) es).table.items.lookup s.item with
    | none => exact le_rfl
    | some info => exact amount_nonneg (h.table _ info hinfo).stocked.positive e
  omega

def twoSlots : World (Item ℤ) :=
  start ⟨id, List.Perm.refl⟩ [⟨iron, -5, 5⟩, ⟨iron, -3, 3⟩] [(.Label "Iron", 1)]

/-- A recipe takes iron under two filters at once, a stock and a manual request take the rest. -/
def busyCycle : List (Event (Item ℤ)) :=
  [.recipe ⟨id, List.Perm.refl⟩ (fun _ => MaxHeap.firstTop _)
      [⟨.Label "Iron", 1, false, 0⟩, ⟨.Name "iron", 2, true, 0⟩] 2,
    .stock ⟨id, List.Perm.refl⟩ (MaxHeap.firstTop _) (.Both "Iron" "iron") false 0 1,
    .manual (MaxHeap.firstTop _) iron 1]

theorem never_overReserved_busyCycle :
    ((machine _).exec twoSlots busyCycle).drawn = [(1, 2), (1, 1), (0, 3), (0, 1), (0, 1)] ∧
      ∀ item info, ((machine _).exec twoSlots busyCycle).table.items.lookup item = some info →
        info.nStored = (info.providers.map Provider.nProvided).sum ∧ 0 ≤ info.nStored :=
  ⟨by decide, (never_overReserved _ _ _ (by decide) busyCycle (by decide +kernel)).2.1⟩

end Reservations
end OCRemote
