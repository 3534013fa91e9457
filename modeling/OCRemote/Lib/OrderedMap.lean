import Mathlib.Data.List.Nodup
import Mathlib.Data.List.Perm.Basic
import Mathlib.Order.Lattice
import Mathlib.Order.Defs.LinearOrder

/-! Finite maps over a linear order of keys, as lists of entries with increasing keys. -/

namespace OrderedMap
variable {κ α : Type*} [LinearOrder κ]

/-- Add the entry, or replace the value of its key. -/
def insert (k : κ) (a : α) : List (κ × α) → List (κ × α)
  | [] => [(k, a)]
  | e :: m =>
    if k < e.1 then (k, a) :: e :: m
    else if e.1 < k then e :: insert k a m
    else (k, a) :: m

def ofList (es : List (κ × α)) : List (κ × α) := es.foldl (fun m e => insert e.1 e.2 m) []

def Sorted (m : List (κ × α)) : Prop := m.Pairwise fun e f => e.1 < f.1

instance (m : List (κ × α)) : Decidable (Sorted m) :=
  inferInstanceAs (Decidable (m.Pairwise fun e f => e.1 < f.1))

theorem insert_comm {k k' : κ} (h : k ≠ k') (a b : α) (m : List (κ × α)) :
    insert k a (insert k' b m) = insert k' b (insert k a m) := by
  wlog hlt : k < k' generalizing k k' a b
  · exact (this h.symm b a (lt_of_le_of_ne (not_lt.mp hlt) h.symm)).symm
  induction m with
  | nil => simp [insert, hlt, hlt.not_gt]
  | cons e m ih =>
    -- where the head stands among the two keys
    rcases lt_trichotomy k' e.1 with h' | h' | h'
    · simp [insert, h', hlt, hlt.not_gt, hlt.trans h']
    · simp [insert, ← h', hlt, hlt.not_gt]
    · rcases lt_trichotomy k e.1 with hk | hk | hk
      · simp [insert, h', h'.not_gt, hk, hlt.not_gt, hlt]
      · simp [insert, h'.not_gt, h', hk]
      · simp [insert, h'.not_gt, h', hk, hk.not_gt, ih]

theorem key_mem_insert {k : κ} {a : α} {m : List (κ × α)} {e : κ × α} (h : e ∈ insert k a m) :
    e = (k, a) ∨ e ∈ m := by
  induction m with
  | nil => simpa [insert] using h
  | cons f m ih =>
    simp only [insert] at h
    split_ifs at h with h₁ h₂
    · simpa using h
    · rcases List.mem_cons.mp h with rfl | h
      · exact .inr (List.mem_cons_self ..)
      · exact (ih h).imp_right (List.mem_cons_of_mem _)
    · rcases List.mem_cons.mp h with rfl | h
      · exact .inl rfl
      · exact .inr (List.mem_cons_of_mem _ h)

theorem sorted_insert {k : κ} {a : α} {m : List (κ × α)} (h : Sorted m) :
    Sorted (insert k a m) := by
  induction m with
  | nil => exact List.pairwise_singleton _ _
  | cons e m ih =>
    obtain ⟨he, hm⟩ := List.pairwise_cons.mp h
    simp only [insert]
    split_ifs with h₁ h₂
    · refine List.pairwise_cons.mpr ⟨fun f hf => ?_, h⟩
      rcases List.mem_cons.mp hf with rfl | hf
      · exact h₁
      · exact h₁.trans (he f hf)
    · refine List.pairwise_cons.mpr ⟨fun f hf => ?_, ih hm⟩
      rcases key_mem_insert hf with rfl | hf
      · exact h₂
      · exact he f hf
    · obtain rfl : k = e.1 := le_antisymm (not_lt.mp h₂) (not_lt.mp h₁)
      exact List.pairwise_cons.mpr ⟨he, hm⟩

/-- With distinct keys the order in which the entries are added does not matter. -/
theorem ofList_perm {es fs : List (κ × α)} (h : es.Perm fs) (hd : (es.map Prod.fst).Nodup) :
    ofList es = ofList fs := by
  refine h.foldl_eq' (fun e he f hf m => ?_) []
  by_cases hk : e.1 = f.1
  · rw [List.inj_on_of_nodup_map hd he hf hk]
  · exact insert_comm (Ne.symm hk) f.2 e.2 m

theorem insert_last {k : κ} {a : α} {m : List (κ × α)} (h : ∀ e ∈ m, e.1 < k) :
    insert k a m = m ++ [(k, a)] := by
  induction m with
  | nil => rfl
  | cons e m ih =>
    obtain ⟨he, hm⟩ := List.forall_mem_cons.mp h
    rw [insert, if_neg he.not_gt, if_pos he, ih hm, List.cons_append]

theorem foldl_insert_sorted {m es : List (κ × α)} (h : Sorted (m ++ es)) :
    es.foldl (fun m e => insert e.1 e.2 m) m = m ++ es := by
  induction es generalizing m with
  | nil => simp
  | cons e es ih =>
    have hlast : ∀ f ∈ m, f.1 < e.1 := fun f hf =>
      (List.pairwise_append.mp h).2.2 f hf e (List.mem_cons_self ..)
    rw [List.foldl_cons, insert_last hlast, ih (by simpa using h), List.append_assoc,
      List.singleton_append]

/-- A list in order is the map it describes. -/
theorem ofList_sorted {m : List (κ × α)} (h : Sorted m) : ofList m = m :=
  foldl_insert_sorted (show Sorted ([] ++ m) from h)

theorem insert_perm {k : κ} {a : α} {m : List (κ × α)} (h : k ∉ m.map Prod.fst) :
    (insert k a m).Perm ((k, a) :: m) := by
  induction m with
  | nil => exact List.Perm.refl _
  | cons e m ih =>
    obtain ⟨he, hm⟩ := not_or.mp (List.mem_cons.not.mp h)
    rw [insert]
    split_ifs with h₁ h₂
    · exact List.Perm.refl _
    · exact ((ih hm).cons e).trans (List.Perm.swap ..)
    · exact absurd (le_antisymm (not_lt.mp h₂) (not_lt.mp h₁)) he

theorem foldl_insert_perm {m es : List (κ × α)} (h : ((es ++ m).map Prod.fst).Nodup) :
    (es.foldl (fun m e => insert e.1 e.2 m) m).Perm (es ++ m) := by
  induction es generalizing m with
  | nil => exact List.Perm.refl _
  | cons e es ih =>
    have hmiddle : (es ++ insert e.1 e.2 m).Perm (e :: (es ++ m)) := by
      have hnot : e.1 ∉ m.map Prod.fst := fun hmem =>
        (List.nodup_cons.mp h).1 (by simp [List.map_append, hmem])
      exact ((insert_perm hnot).append_left es).trans List.perm_middle
    have hnodup := (hmiddle.map Prod.fst).nodup_iff.mpr h
    exact (ih hnodup).trans hmiddle

/-- With distinct keys nothing is lost. -/
theorem ofList_perm_self {es : List (κ × α)} (h : (es.map Prod.fst).Nodup) :
    (ofList es).Perm es := by
  have hperm := @foldl_insert_perm κ α _ [] es (by rwa [List.append_nil])
  rwa [List.append_nil] at hperm

/-! Entries are taken out, and many of them at once. -/

def erase (k : κ) (m : List (κ × α)) : List (κ × α) := m.filter fun e => e.1 ≠ k

theorem erase_cons (k : κ) (e : κ × α) (m : List (κ × α)) :
    erase k (e :: m) = if e.1 = k then erase k m else e :: erase k m := by
  by_cases h : e.1 = k <;> simp [erase, h]

theorem erase_eq_self {k : κ} {m : List (κ × α)} (h : k ∉ m.map Prod.fst) : erase k m = m :=
  List.filter_eq_self.mpr fun e he => by
    simpa using fun heq => h (List.mem_map.mpr ⟨e, he, heq⟩)

theorem sorted_erase {m : List (κ × α)} (h : Sorted m) (k : κ) : Sorted (erase k m) :=
  h.filter _

def insertAll (es m : List (κ × α)) : List (κ × α) := es.foldl (fun m e => insert e.1 e.2 m) m

def eraseAll (ks : List κ) (m : List (κ × α)) : List (κ × α) := ks.foldl (fun m k => erase k m) m

theorem eraseAll_sublist (ks : List κ) (m : List (κ × α)) : (eraseAll ks m).Sublist m := by
  induction ks generalizing m with
  | nil => exact List.Sublist.refl m
  | cons k ks ih => exact (ih (erase k m)).trans List.filter_sublist

theorem sorted_insertAll {m : List (κ × α)} (h : Sorted m) (es : List (κ × α)) :
    Sorted (insertAll es m) := by
  induction es generalizing m with
  | nil => exact h
  | cons e es ih => exact ih (sorted_insert h)

theorem sorted_ofList (es : List (κ × α)) : Sorted (ofList es) :=
  sorted_insertAll List.Pairwise.nil es

theorem sorted_eraseAll {m : List (κ × α)} (h : Sorted m) (ks : List κ) :
    Sorted (eraseAll ks m) :=
  h.sublist (eraseAll_sublist ks m)

/-! Entries are found by their keys, and a map is what it gives for each key. -/

section
variable [BEq κ] [LawfulBEq κ]

omit [LinearOrder κ] in
theorem lookup_cons_ite [DecidableEq κ] (k : κ) (e : κ × α) (m : List (κ × α)) :
    (e :: m).lookup k = if k = e.1 then some e.2 else m.lookup k := by
  rw [List.lookup_cons]
  by_cases h : k = e.1
  · simp [h]
  · simp [h, beq_false_of_ne h]

theorem lookup_insert (k k' : κ) (a : α) (m : List (κ × α)) :
    (insert k a m).lookup k' = if k' = k then some a else m.lookup k' := by
  induction m with
  | nil => simp [insert, lookup_cons_ite]
  | cons e m ih =>
    simp only [insert]
    rcases lt_trichotomy k e.1 with hk | hk | hk
    · rw [if_pos hk, lookup_cons_ite]
    · rw [if_neg hk.not_lt, if_neg hk.not_gt, lookup_cons_ite, lookup_cons_ite, ← hk]
      split_ifs <;> rfl
    · rw [if_neg hk.not_gt, if_pos hk, lookup_cons_ite, ih, lookup_cons_ite]
      by_cases h : k' = e.1
      · simp [h, hk.ne]
      · simp [h]

theorem lookup_erase (k k' : κ) (m : List (κ × α)) :
    (erase k m).lookup k' = if k' = k then none else m.lookup k' := by
  induction m with
  | nil => simp [erase]
  | cons e m ih =>
    rw [erase_cons, lookup_cons_ite]
    by_cases he : e.1 = k
    · rw [if_pos he, ih, he]
      by_cases h : k' = k <;> simp [h]
    · rw [if_neg he, lookup_cons_ite, ih]
      by_cases h : k' = e.1
      · simp [h, he]
      · simp [h]

omit [LinearOrder κ] in
theorem lookup_eq_none {es : List (κ × α)} {k : κ} :
    es.lookup k = none ↔ k ∉ es.map Prod.fst := by
  simp only [List.lookup_eq_none_iff, bne_iff_ne, List.mem_map, not_exists, not_and]
  exact ⟨fun h e he heq => h e he heq.symm, fun h e he heq => h e he heq.symm⟩

theorem lookup_eq_some {es : List (κ × α)} (hd : (es.map Prod.fst).Nodup) {k : κ} {a : α} :
    es.lookup k = some a ↔ (k, a) ∈ es := by
  induction es with
  | nil => simp
  | cons e es ih =>
    obtain ⟨he, hes⟩ := List.nodup_cons.mp hd
    rw [lookup_cons_ite, List.mem_cons]
    split_ifs with hk
    · -- no later entry has the key of the head
      subst hk
      have hnot : (e.1, a) ∉ es := fun hmem => he (List.mem_map.mpr ⟨_, hmem, rfl⟩)
      simp [hnot, Prod.ext_iff, eq_comm]
    · rw [ih hes]
      simp [Prod.ext_iff, hk]

omit [BEq κ] [LawfulBEq κ] in
theorem Sorted.nodup_keys {m : List (κ × α)} (h : Sorted m) : (m.map Prod.fst).Nodup :=
  List.pairwise_map.mpr (h.imp fun hlt => hlt.ne)

theorem ext_lookup {m n : List (κ × α)} (hm : Sorted m) (hn : Sorted n)
    (h : ∀ k, m.lookup k = n.lookup k) : m = n := by
  have hmem : ∀ e, e ∈ m ↔ e ∈ n := fun e => by
    rw [← lookup_eq_some hm.nodup_keys, h e.1, lookup_eq_some hn.nodup_keys]
  have hperm : m.Perm n :=
    (List.perm_ext_iff_of_nodup hm.nodup_keys.of_map hn.nodup_keys.of_map).mpr hmem
  exact hperm.eq_of_pairwise (fun e f _ _ hlt hgt => absurd hlt hgt.not_gt) hm hn

/-- Maps that agree but for one key. -/
theorem erase_eq_erase_iff {m n : List (κ × α)} (hm : Sorted m) (hn : Sorted n) (k : κ) :
    erase k m = erase k n ↔ ∀ k' ≠ k, m.lookup k' = n.lookup k' := by
  constructor
  · intro heq k' hk
    have hlookup := congrArg (List.lookup k') heq
    rwa [lookup_erase, lookup_erase, if_neg hk, if_neg hk] at hlookup
  · intro hagree
    refine ext_lookup (sorted_erase hm k) (sorted_erase hn k) fun k' => ?_
    rw [lookup_erase, lookup_erase]
    split_ifs with hk
    · rfl
    · exact hagree k' hk

/-! Taking entries out and putting them back. -/

theorem lookup_insertAll {es : List (κ × α)} (hd : (es.map Prod.fst).Nodup) (m : List (κ × α))
    (k : κ) : (insertAll es m).lookup k = (es.lookup k).or (m.lookup k) := by
  induction es generalizing m with
  | nil => simp [insertAll]
  | cons e es ih =>
    obtain ⟨he, hes⟩ := List.nodup_cons.mp hd
    have hrest : (insertAll (e :: es) m).lookup k =
        (es.lookup k).or ((insert e.1 e.2 m).lookup k) := ih hes _
    rw [hrest, lookup_insert, lookup_cons_ite]
    by_cases hk : k = e.1
    · have hnone : es.lookup k = none := lookup_eq_none.mpr (hk ▸ he)
      rw [hnone, if_pos hk, if_pos hk, Option.none_or, Option.some_or]
    · rw [if_neg hk, if_neg hk]

theorem lookup_ofList {es : List (κ × α)} (hd : (es.map Prod.fst).Nodup) (k : κ) :
    (ofList es).lookup k = es.lookup k := by
  have h : (ofList es).lookup k = (es.lookup k).or none := lookup_insertAll hd [] k
  rw [h, Option.or_none]

theorem erase_ofList {es : List (κ × α)} (hd : (es.map Prod.fst).Nodup) (k : κ) :
    erase k (ofList es) = ofList (erase k es) := by
  have hd' : ((erase k es).map Prod.fst).Nodup := hd.sublist (List.filter_sublist.map Prod.fst)
  refine ext_lookup (sorted_erase (sorted_ofList es) k) (sorted_ofList _) fun k' => ?_
  rw [lookup_erase, lookup_ofList hd, lookup_ofList hd', lookup_erase]

theorem lookup_eraseAll (ks : List κ) (m : List (κ × α)) (k : κ) :
    (eraseAll ks m).lookup k = if k ∈ ks then none else m.lookup k := by
  induction ks generalizing m with
  | nil => simp [eraseAll]
  | cons k' ks ih =>
    have hrest : (eraseAll (k' :: ks) m).lookup k =
        if k ∈ ks then none else (erase k' m).lookup k :=
      ih _
    rw [hrest, lookup_erase]
    by_cases hk : k = k' <;> by_cases hks : k ∈ ks <;> simp [hk, hks]

theorem insertAll_eraseAll {m es : List (κ × α)} (hm : Sorted m) (hd : (es.map Prod.fst).Nodup)
    (h : ∀ e ∈ es, m.lookup e.1 = some e.2) : insertAll es (eraseAll (es.map Prod.fst) m) = m := by
  refine ext_lookup (sorted_insertAll (sorted_eraseAll hm _) es) hm fun k => ?_
  rw [lookup_insertAll hd, lookup_eraseAll]
  cases hk : es.lookup k with
  | none =>
    rw [if_neg (lookup_eq_none.mp hk), Option.none_or]
  | some a =>
    obtain ⟨l₁, l₂, rfl, -⟩ := List.lookup_eq_some_iff.mp hk
    rw [Option.some_or, h (k, a) (by simp)]

theorem eraseAll_insertAll {m es : List (κ × α)} {ks : List κ} (hm : Sorted m)
    (hd : (es.map Prod.fst).Nodup) (hes : ∀ e ∈ es, e.1 ∈ ks) (h : ∀ k ∈ ks, m.lookup k = none) :
    eraseAll ks (insertAll es m) = m := by
  refine ext_lookup (sorted_eraseAll (sorted_insertAll hm es) ks) hm fun k => ?_
  rw [lookup_eraseAll, lookup_insertAll hd]
  split_ifs with hk
  · exact (h k hk).symm
  · have hnone : es.lookup k = none := by
      refine lookup_eq_none.mpr fun hmem => ?_
      obtain ⟨e, he, rfl⟩ := List.mem_map.mp hmem
      exact hk (hes e he)
    rw [hnone, Option.none_or]

theorem erase_insertAll {m es : List (κ × α)} (hm : Sorted m) (hd : (es.map Prod.fst).Nodup)
    {k : κ} (hk : es.lookup k = none) : erase k (insertAll es m) = insertAll es (erase k m) := by
  refine ext_lookup (sorted_erase (sorted_insertAll hm es) k)
    (sorted_insertAll (sorted_erase hm k) es) fun k' => ?_
  rw [lookup_erase, lookup_insertAll hd, lookup_insertAll hd, lookup_erase]
  by_cases h : k' = k
  · rw [if_pos h, if_pos h, h, hk, Option.none_or]
  · rw [if_neg h, if_neg h]

end

/-! A map that keeps the first value of every key. -/

/-- Add the entry, unless its key is there. -/
def emplace (k : κ) (a : α) (m : List (κ × α)) : List (κ × α) :=
  if k ∈ m.map Prod.fst then m else insert k a m

def emplaceAll (es m : List (κ × α)) : List (κ × α) := es.foldl (fun m e => emplace e.1 e.2 m) m

theorem emplaceAll_append (es fs m : List (κ × α)) :
    emplaceAll (es ++ fs) m = emplaceAll fs (emplaceAll es m) := List.foldl_append

/-- With distinct keys it does not matter which value is kept. -/
theorem emplaceAll_eq_insertAll {es m : List (κ × α)} (h : ((es ++ m).map Prod.fst).Nodup) :
    emplaceAll es m = insertAll es m := by
  induction es generalizing m with
  | nil => rfl
  | cons e es ih =>
    have hnew : e.1 ∉ m.map Prod.fst := fun hmem =>
      (List.nodup_cons.mp h).1 (by simp [List.map_append, hmem])
    have hmiddle : (es ++ insert e.1 e.2 m).Perm (e :: (es ++ m)) :=
      ((insert_perm hnew).append_left es).trans List.perm_middle
    have hrest : emplaceAll es (insert e.1 e.2 m) = insertAll es (insert e.1 e.2 m) :=
      ih ((hmiddle.map Prod.fst).nodup_iff.mpr h)
    calc emplaceAll (e :: es) m = emplaceAll es (emplace e.1 e.2 m) := rfl
      _ = emplaceAll es (insert e.1 e.2 m) := by rw [emplace, if_neg hnew]
      _ = insertAll (e :: es) m := hrest

/-! Entries whose keys need not stand for one of the map's. -/

section
variable {κ' α' : Type*} {f : κ' → Option κ} {g : α' → α}

omit [LinearOrder κ]

def mapEntries (f : κ' → Option κ) (g : α' → α) (es : List (κ' × α')) : List (κ × α) :=
  es.filterMap fun e => (f e.1).map fun k => (k, g e.2)

theorem mem_mapEntries {es : List (κ' × α')} {e : κ × α} :
    e ∈ mapEntries f g es ↔ ∃ k a, (k, a) ∈ es ∧ f k = some e.1 ∧ g a = e.2 := by
  rw [mapEntries, List.mem_filterMap]
  constructor
  · rintro ⟨⟨k, a⟩, hmem, h⟩
    obtain ⟨key, hkey, rfl⟩ := Option.map_eq_some_iff.mp h
    exact ⟨k, a, hmem, hkey, rfl⟩
  · rintro ⟨k, a, hmem, hkey, ha⟩
    exact ⟨(k, a), hmem, by rw [hkey, ha, Option.map_some]⟩

theorem mapEntries_perm {es es' : List (κ' × α')} (h : es.Perm es') :
    (mapEntries f g es).Perm (mapEntries f g es') :=
  h.filterMap _

theorem mapEntries_nodup {es : List (κ' × α')} (h : (es.map fun e => f e.1).Nodup) :
    ((mapEntries f g es).map Prod.fst).Nodup := by
  have hkeys : (mapEntries f g es).map Prod.fst = (es.map fun e => f e.1).filterMap id := by
    rw [mapEntries, List.map_filterMap, List.filterMap_map]
    congr 1
    funext e
    change ((f e.1).map fun k => (k, g e.2)).map Prod.fst = f e.1
    cases f e.1 <;> rfl
  rw [hkeys]
  exact h.filterMap fun a b c ha hb => ha.trans hb.symm

end

end OrderedMap
