import Mathlib.Data.List.ReduceOption
import OCRemote.Factory.ItemIndex

/-! `update_storages` with counts of 32 bits, which wrap. What the storages list is registered with
the table of the stored items, in the order in which their listings arrive. -/

namespace OCRemote
open Tally

namespace StockCounts

/-- What a storage gets as its listing. The items of a network are those that it registers. -/
inductive Listing (ι : Type) where
  | chest (slots : List (Option (ItemStack ι)))
  | drawer (slots : List (Option (ItemStack ι)))
  | me (types : List (ItemStack ι))

/-- The storage that an item is taken from, and what it has to know for that. -/
inductive Extractor (ι : Type) where
  | chest (storage invSlot : ℕ)
  | drawer (storage invSlot : ℕ)
  | me (storage : ℕ) (item : ι)

section
variable {ι : Type}

def Listing.contents : Listing ι → List (ItemStack ι)
  | .chest slots => slots.reduceOption
  | .drawer slots => slots.reduceOption
  | .me types => types

/-- The occupied slots of an inventory, each with its provider. -/
def slotOffers (provider : ℕ → ItemStack ι → Provider (Extractor ι))
    (slots : List (Option (ItemStack ι))) : List (ι × Provider (Extractor ι)) :=
  slots.zipIdx.filterMap fun p => p.1.map fun stack => (stack.item, provider p.2 stack)

/-- What the update of a storage provides. -/
def offers (storage : ℕ) : Listing ι → List (ι × Provider (Extractor ι))
  | .chest slots =>
    slotOffers (fun invSlot stack => ⟨-stack.size, stack.size, .chest storage invSlot⟩) slots
  | .drawer slots =>
    slotOffers (fun invSlot stack => ⟨i32Min, stack.size, .drawer storage invSlot⟩) slots
  | .me types => types.map fun stack => (stack.item, ⟨i32Max, stack.size, .me storage stack.item⟩)

variable {ε : Type} [DecidableEq ι] [ItemClass ι]

def provide (info : ItemInfo ε) (provider : Provider ε) : ItemInfo ε :=
  if 0 < provider.nProvided then
    { info with
      nStored := toI32 (info.nStored + provider.nProvided)
      providers := provider :: info.providers }
  else info

/-- `register_stored_item(item).provide(provider)`. -/
def register (t : ItemTable ι ε) (offer : ι × Provider ε) : ItemTable ι ε :=
  let t := t.registerStoredItem offer.1
  match t.items.lookup offer.1 with
  | some info => t.setInfo offer.1 (provide info offer.2)
  | none => t

/-- The sum over the table, enumerated in some order. -/
def nTotal (order : Enumeration ι) (t : ItemTable ι ε) : ℤ :=
  (order.list t.items.keys).foldl (fun n item => toI32 (n + t.getNStored item)) 0

/-- The table and `n_total` once all listings, each of them with its storage, have arrived. -/
def updateStorages (order : Enumeration ι) (backups : List (Filter ι × ℤ))
    (listings : List (ℕ × Listing ι)) : Option (ItemTable ι (Extractor ι) × ℤ) :=
  let t := (listings.flatMap fun p => offers p.1 p.2).foldl register .empty
  (t.addBackups order backups).map fun t' => (t', nTotal order t)

/-! The exact amounts. -/

/-- Everything that is listed. -/
def stocked (listings : List (ℕ × Listing ι)) : List (ι × ℤ) :=
  (listings.flatMap fun p => p.2.contents).map fun stack => (stack.item, stack.size)

def provided (listings : List (ℕ × Listing ι)) (item : ι) : ℤ := sumOf item (stocked listings)

def total (listings : List (ℕ × Listing ι)) : ℤ := ((stocked listings).map Prod.snd).sum

/-- The table that counts without a bound. -/
def provideAll (listings : List (ℕ × Listing ι)) : ItemTable ι (Extractor ι) :=
  (listings.flatMap fun p => offers p.1 p.2).foldl (fun t offer => t.provide offer.1 offer.2) .empty

/-- The counts are what is listed, and so is what is available. -/
structure Exact (order : Enumeration ι) (backups : List (Filter ι × ℤ))
    (listings : List (ℕ × Listing ι)) (t : ItemTable ι (Extractor ι)) (n : ℤ) : Prop where
  run : updateStorages order backups listings = some (t, n)
  stored : ∀ item, t.getNStored item = provided listings item
  total : n = total listings
  available : ∀ item info, t.items.lookup item = some info →
    info.getAvailability true 0 = provided listings item

omit [DecidableEq ι] [ItemClass ι] in
theorem slotOffers_amounts {provider : ℕ → ItemStack ι → Provider (Extractor ι)}
    (h : ∀ invSlot stack, (provider invSlot stack).nProvided = stack.size)
    (slots : List (Option (ItemStack ι))) :
    (slotOffers provider slots).map (fun offer => (offer.1, offer.2.nProvided)) =
      slots.reduceOption.map fun stack => (stack.item, stack.size) := by
  have hfst : slots = (slots.zipIdx).map Prod.fst := (List.zipIdx_map_fst 0 slots).symm
  conv_rhs => rw [hfst, List.reduceOption, List.filterMap_map, List.map_filterMap]
  rw [slotOffers, List.map_filterMap]
  refine List.filterMap_congr fun p _ => ?_
  simp [h, Function.comp_def]

omit [DecidableEq ι] [ItemClass ι] in
theorem offers_amounts (storage : ℕ) (listing : Listing ι) :
    (offers storage listing).map (fun offer => (offer.1, offer.2.nProvided)) =
      listing.contents.map fun stack => (stack.item, stack.size) := by
  cases listing with
  | chest slots =>
    unfold offers Listing.contents
    exact slotOffers_amounts (fun _ _ => rfl) slots
  | drawer slots =>
    unfold offers Listing.contents
    exact slotOffers_amounts (fun _ _ => rfl) slots
  | me types => simp [offers, Listing.contents]

/-! One provider after another. -/

theorem lookup_register (t : ItemTable ι ε) (offer : ι × Provider ε) (item : ι) :
    (register t offer).items.lookup item =
      if item = offer.1 then some (provide ((t.items.lookup item).getD ⟨0, 0, []⟩) offer.2)
      else t.items.lookup item := by
  have hreg := ItemTable.lookup_registerStoredItem t offer.1
  have hself := hreg offer.1
  rw [if_pos rfl] at hself
  simp only [register, hself, ItemTable.lookup_setInfo]
  split_ifs with hitem
  · rw [hitem]
  · rw [hreg, if_neg hitem]

theorem getNStored_register (t : ItemTable ι ε) {offer : ι × Provider ε}
    (hpos : 0 < offer.2.nProvided) (item : ι) :
    (register t offer).getNStored item =
      if item = offer.1 then toI32 (t.getNStored item + offer.2.nProvided)
      else t.getNStored item := by
  rw [ItemTable.getNStored, lookup_register]
  split_ifs with hitem
  · rw [Option.elim_some, provide, if_pos hpos, ItemTable.getNStored]
    cases t.items.lookup item <;> rfl
  · rfl

theorem mem_register (t : ItemTable ι ε) (offer : ι × Provider ε) (item : ι) :
    item ∈ (register t offer).items ↔ item = offer.1 ∨ item ∈ t.items := by
  rw [← AList.lookup_isSome, ← AList.lookup_isSome, lookup_register]
  split_ifs with hitem <;> simp [hitem]

/-- Every stock is what was offered, wrapped. -/
structure Counted (offers : List (ι × Provider ε)) (t : ItemTable ι ε) : Prop where
  stored : ∀ item, t.getNStored item =
    toI32 (sumOf item (offers.map fun offer => (offer.1, offer.2.nProvided)))
  mem : ∀ offer ∈ offers, offer.1 ∈ t.items

omit [ItemClass ι] in
theorem counted_empty : Counted [] (.empty : ItemTable ι ε) := by
  refine ⟨fun item => ?_, by simp⟩
  rfl

theorem Counted.register {offers : List (ι × Provider ε)} {t : ItemTable ι ε} (h : Counted offers t)
    {offer : ι × Provider ε} (hpos : 0 < offer.2.nProvided) (hmax : offer.2.nProvided ≤ i32Max) :
    Counted (offers ++ [offer]) (register t offer) := by
  constructor
  · intro item
    have hfits : toI32 offer.2.nProvided = offer.2.nProvided :=
      toI32_of_bounds (by rw [i32Min]; omega) hmax
    rw [getNStored_register t hpos, h.stored, List.map_append, sumOf_append]
    split_ifs with hitem
    · have hadd := toI32_add
        (sumOf item (offers.map fun offer => (offer.1, offer.2.nProvided))) offer.2.nProvided
      rw [hfits] at hadd
      simpa [hitem] using hadd
    · have hne : offer.1 ≠ item := fun h => hitem h.symm
      simp [hne]
  · intro other hother
    rw [mem_register]
    rcases List.mem_append.mp hother with hother | hother
    · exact .inr (h.mem other hother)
    · exact .inl (congrArg Prod.fst (List.mem_singleton.mp hother))

theorem counted_foldl {offers done : List (ι × Provider ε)}
    (hoffers : ∀ offer ∈ offers, 0 < offer.2.nProvided ∧ offer.2.nProvided ≤ i32Max)
    {t : ItemTable ι ε} (h : Counted done t) :
    Counted (done ++ offers) (offers.foldl StockCounts.register t) := by
  induction offers generalizing done t with
  | nil => simpa using h
  | cons offer offers ih =>
    obtain ⟨⟨hpos, hmax⟩, hoffers⟩ := List.forall_mem_cons.mp hoffers
    rw [List.foldl_cons, List.append_cons]
    exact ih hoffers (h.register hpos hmax)

omit [ItemClass ι] in
/-- The total is everything that was offered, wrapped. -/
theorem Counted.nTotal_eq {offers : List (ι × Provider ε)} {t : ItemTable ι ε}
    (h : Counted offers t) (order : Enumeration ι) :
    nTotal order t = toI32 ((offers.map fun offer => offer.2.nProvided).sum) := by
  have hkeys := order.perm t.items.keys
  have hsum : ((order.list t.items.keys).map fun item =>
      sumOf item (offers.map fun offer => (offer.1, offer.2.nProvided))).sum =
        (offers.map fun offer => offer.2.nProvided).sum := by
    rw [sum_sumOf (hkeys.nodup_iff.mpr t.items.keys_nodup), List.map_map]
    · rfl
    · intro d hd
      obtain ⟨offer, hoffer, rfl⟩ := List.mem_map.mp hd
      exact hkeys.mem_iff.mpr (AList.mem_keys.mp (h.mem offer hoffer))
  have hfold := foldl_toI32
    (fun item => sumOf item (offers.map fun offer => (offer.1, offer.2.nProvided)))
    (order.list t.items.keys) 0
  rw [zero_add, hsum] at hfold
  rw [nTotal]
  simp only [h.stored]
  exact hfold

/-! As long as everything fits into 32 bits, the table is the one with exact counts. -/

theorem register_eq_provide {t : ItemTable ι ε} {offer : ι × Provider ε}
    (h0 : 0 ≤ t.getNStored offer.1)
    (hle : t.getNStored offer.1 + offer.2.nProvided ≤ i32Max) :
    register t offer = t.provide offer.1 offer.2 := by
  have hself := ItemTable.lookup_registerStoredItem t offer.1 offer.1
  rw [if_pos rfl] at hself
  have hstored : ((t.items.lookup offer.1).getD ⟨0, 0, []⟩).nStored = t.getNStored offer.1 := by
    rw [ItemTable.getNStored]
    cases t.items.lookup offer.1 <;> rfl
  simp only [register, ItemTable.provide, hself, provide, ItemInfo.provide, hstored]
  split_ifs with hpos
  · rw [toI32_of_bounds (by rw [i32Min]; omega) hle]
  · rfl

theorem foldl_register_eq {offers done : List (ι × Provider ε)}
    (hdone : ∀ offer ∈ done, 0 < offer.2.nProvided)
    (hoffers : ∀ offer ∈ offers, 0 < offer.2.nProvided) {t : ItemTable ι ε} (h : Counted done t)
    (hle : ((done ++ offers).map fun offer => offer.2.nProvided).sum ≤ i32Max) :
    offers.foldl register t = offers.foldl (fun t offer => t.provide offer.1 offer.2) t := by
  induction offers generalizing done t with
  | nil => rfl
  | cons offer offers ih =>
    obtain ⟨hpos, hoffers⟩ := List.forall_mem_cons.mp hoffers
    have hrest : 0 ≤ (offers.map fun offer => offer.2.nProvided).sum := by
      refine List.sum_nonneg fun n hn => ?_
      obtain ⟨other, hother, rfl⟩ := List.mem_map.mp hn
      exact (hoffers other hother).le
    have hnonneg : 0 ≤ sumOf offer.1 (done.map fun offer => (offer.1, offer.2.nProvided)) := by
      refine sumOf_nonneg (fun d hd => ?_) offer.1
      obtain ⟨other, hother, rfl⟩ := List.mem_map.mp hd
      exact (hdone other hother).le
    have hsum : sumOf offer.1 (done.map fun offer => (offer.1, offer.2.nProvided)) ≤
        (done.map fun offer => offer.2.nProvided).sum := by
      rw [sumOf, List.map_map]
      refine List.sum_le_sum fun other hother => ?_
      simp only [Function.comp_apply]
      split_ifs
      · exact le_rfl
      · exact (hdone other hother).le
    have hcons := hle
    simp only [List.map_append, List.map_cons, List.sum_append, List.sum_cons] at hcons
    have hstored : t.getNStored offer.1 =
        sumOf offer.1 (done.map fun offer => (offer.1, offer.2.nProvided)) := by
      rw [h.stored]
      exact toI32_of_bounds (by rw [i32Min]; omega) (by omega)
    rw [List.foldl_cons, List.foldl_cons,
      ← register_eq_provide (hstored ▸ hnonneg) (by omega)]
    refine @ih (done ++ [offer]) ?_ hoffers _ (h.register hpos (by omega)) ?_
    · intro other hother
      rcases List.mem_append.mp hother with hother | hother
      · exact hdone other hother
      · exact (List.mem_singleton.mp hother) ▸ hpos
    · rwa [← List.append_cons]

/-! All listings. -/

omit [ItemClass ι] in
theorem getNStored_of_lookup {t : ItemTable ι ε} {item : ι} {info : ItemInfo ε}
    (h : t.items.lookup item = some info) : t.getNStored item = info.nStored := by
  rw [ItemTable.getNStored, h, Option.elim_some]

/-- Raising the backups never fails and leaves the stocks alone. -/
theorem exists_addBackups (order : Enumeration ι) (backups : List (Filter ι × ℤ))
    (t : ItemTable ι ε) : ∃ t', t.addBackups order backups = some t' ∧
      ∀ item, t'.getNStored item = t.getNStored item := by
  induction backups generalizing t with
  | nil => exact ⟨t, rfl, fun item => rfl⟩
  | cons backup backups ih =>
    obtain ⟨best, hbest, hlookup⟩ := t.searchItem_spec order backup.1
    rw [ItemTable.addBackups, hbest]
    cases best with
    | none => exact ih t
    | some c =>
      have hc : t.getNStored c.1 = c.2.nStored := getNStored_of_lookup (hlookup c.1 c.2 rfl)
      obtain ⟨t', ht', hsame⟩ := ih (t.setInfo c.1 { c.2 with nBackup := c.2.nBackup + backup.2 })
      refine ⟨t', ht', fun item => ?_⟩
      rw [hsame, ItemTable.getNStored, ItemTable.lookup_setInfo]
      split_ifs with hitem
      · rw [hitem, hc, Option.elim_some]
      · rfl

omit [DecidableEq ι] [ItemClass ι] in
theorem amounts_eq (listings : List (ℕ × Listing ι)) :
    (listings.flatMap fun p => offers p.1 p.2).map (fun offer => (offer.1, offer.2.nProvided)) =
      stocked listings := by
  rw [stocked, List.map_flatMap, List.map_flatMap]
  exact List.flatMap_congr fun p _ => offers_amounts p.1 p.2

/-- The run always ends, with the amounts wrapped. -/
theorem updateStorages_eq (order : Enumeration ι) (backups : List (Filter ι × ℤ))
    {listings : List (ℕ × Listing ι)}
    (hsizes : ∀ d ∈ stocked listings, 0 < d.2 ∧ d.2 ≤ i32Max) :
    ∃ t, updateStorages order backups listings = some (t, toI32 (total listings)) ∧
      ∀ item, t.getNStored item = toI32 (provided listings item) := by
  have hamounts := amounts_eq listings
  have hoffers : ∀ offer ∈ listings.flatMap fun p => offers p.1 p.2,
      0 < offer.2.nProvided ∧ offer.2.nProvided ≤ i32Max := by
    intro offer hoffer
    refine hsizes (offer.1, offer.2.nProvided) ?_
    rw [← hamounts]
    exact List.mem_map_of_mem hoffer
  have hcounted := counted_foldl hoffers (@counted_empty ι (Extractor ι) _)
  rw [List.nil_append] at hcounted
  obtain ⟨t, ht, hsame⟩ := exists_addBackups order backups
    ((listings.flatMap fun p => offers p.1 p.2).foldl StockCounts.register .empty)
  refine ⟨t, ?_, fun item => ?_⟩
  · have htotal : total listings =
        ((listings.flatMap fun p => offers p.1 p.2).map fun offer => offer.2.nProvided).sum := by
      rw [total, ← hamounts, List.map_map]
      rfl
    rw [updateStorages, ht, Option.map_some, hcounted.nTotal_eq, htotal]
  · rw [hsame, hcounted.stored, hamounts, provided]

omit [ItemClass ι] in
theorem provided_bounds {listings : List (ℕ × Listing ι)} (hpos : ∀ d ∈ stocked listings, 0 < d.2)
    (item : ι) : 0 ≤ provided listings item ∧ provided listings item ≤ total listings := by
  refine ⟨sumOf_nonneg (fun d hd => (hpos d hd).le) item, ?_⟩
  rw [provided, sumOf, total]
  refine List.sum_le_sum fun d hd => ?_
  split_ifs
  · exact le_rfl
  · exact (hpos d hd).le

/-- The table when nothing wraps. -/
theorem updateStorages_provide (order : Enumeration ι) (backups : List (Filter ι × ℤ))
    {listings : List (ℕ × Listing ι)}
    (hsizes : ∀ d ∈ stocked listings, 0 < d.2 ∧ d.2 ≤ i32Max) (hle : total listings ≤ i32Max) :
    (updateStorages order backups listings).map Prod.fst =
      (provideAll listings).addBackups order backups := by
  have hpos : ∀ offer ∈ listings.flatMap fun p => offers p.1 p.2, 0 < offer.2.nProvided := by
    intro offer hoffer
    refine (hsizes (offer.1, offer.2.nProvided) ?_).1
    rw [← amounts_eq listings]
    exact List.mem_map_of_mem hoffer
  have hsum : ((listings.flatMap fun p => offers p.1 p.2).map
      fun offer => offer.2.nProvided).sum ≤ i32Max := by
    rw [total, ← amounts_eq listings, List.map_map] at hle
    exact hle
  have htable := foldl_register_eq (by simp) hpos (@counted_empty ι (Extractor ι) _)
    (by rwa [List.nil_append])
  rw [updateStorages, htable, ← provideAll, Option.map_map]
  exact Option.map_id'

/-- The counts are exact if and only if all that is listed adds up to at most what 32 bits hold, and
then the table is the one that counts without a bound. -/
theorem exact_iff (order : Enumeration ι) (backups : List (Filter ι × ℤ))
    {listings : List (ℕ × Listing ι)}
    (hsizes : ∀ d ∈ stocked listings, 0 < d.2 ∧ d.2 ≤ i32Max) :
    ((∃ t n, Exact order backups listings t n) ↔ total listings ≤ i32Max) ∧
      (total listings ≤ i32Max → (updateStorages order backups listings).map Prod.fst =
        (provideAll listings).addBackups order backups) := by
  refine ⟨?_, updateStorages_provide order backups hsizes⟩
  obtain ⟨t, hrun, hstored⟩ := updateStorages_eq order backups hsizes
  constructor
  · rintro ⟨t', n, hexact⟩
    have heq := hexact.run.symm.trans hrun
    have hn : n = toI32 (total listings) := congrArg Prod.snd (Option.some.inj heq)
    rw [← hexact.total, hn]
    exact (toI32_bounds _).2
  · intro hle
    have hfits (n : ℤ) (h0 : 0 ≤ n) (h : n ≤ total listings) : toI32 n = n :=
      toI32_of_bounds (by rw [i32Min]; omega) (h.trans hle)
    have hbounds := provided_bounds fun d hd => (hsizes d hd).1
    have hitem (item : ι) : t.getNStored item = provided listings item :=
      (hstored item).trans (hfits _ (hbounds item).1 (hbounds item).2)
    have htotal : 0 ≤ total listings := by
      refine List.sum_nonneg fun n hn => ?_
      obtain ⟨d, hd, rfl⟩ := List.mem_map.mp hn
      exact (hsizes d hd).1.le
    refine ⟨t, total listings, by rw [hrun, hfits _ htotal le_rfl], hitem, rfl,
      fun item info hinfo => ?_⟩
    have hstock := hitem item
    rw [getNStored_of_lookup hinfo] at hstock
    have h0 := (hbounds item).1
    simp only [ItemInfo.getAvailability, if_true, sub_zero, hstock, hfits _ h0 (hbounds item).2]
    exact max_eq_right h0

/-- Two drawers full of iron. -/
def fullDrawers : List (ℕ × Listing (Item ℤ)) :=
  [(0, .drawer [some ⟨iron, i32Max⟩]), (1, .drawer [none, some ⟨iron, i32Max⟩])]

/-- The stock of iron wraps, and nothing of it is available. -/
theorem fullDrawers_wrap :
    (∃ t info, updateStorages ⟨id, List.Perm.refl⟩ [] fullDrawers = some (t, -2) ∧
      t.items.lookup iron = some info ∧ info.nStored = -2 ∧ info.getAvailability true 0 = 0) ∧
    (∀ d ∈ stocked fullDrawers, 0 < d.2 ∧ d.2 ≤ i32Max) ∧
    ¬ ∃ t n, Exact ⟨id, List.Perm.refl⟩ [] fullDrawers t n := by
  refine ⟨⟨_, _, rfl, rfl, by decide, by decide⟩, by decide, ?_⟩
  rintro ⟨t, n, hexact⟩
  have hrun : updateStorages ⟨id, List.Perm.refl⟩ [] fullDrawers = some (_, -2) := rfl
  have hn : n = -2 := congrArg Prod.snd (Option.some.inj (hexact.run.symm.trans hrun))
  have htotal : n = 4294967294 := hexact.total.trans (by decide)
  omega

/-- A drawer and a network that both hold iron. -/
theorem exact_iff_iron :
    ∃ t n, Exact ⟨id, List.Perm.refl⟩ [(.Label "Iron", 3)]
      [(0, .drawer [some ⟨iron, 70⟩]), (1, .me [⟨gold, 5⟩, ⟨iron, 1000⟩])] t n :=
  (exact_iff ⟨id, List.Perm.refl⟩ [(.Label "Iron", 3)] (by decide)).1.mpr (by decide)

end
end StockCounts
end OCRemote
