import Mathlib.Algebra.BigOperators.Group.Finset.Piecewise
import OCRemote.Lib.Split

/-! Amounts listed together with who they belong to, and the sum of what belongs to one owner. -/

namespace Tally
variable {ε : Type*} [DecidableEq ε]

def sumOf (e : ε) (ds : List (ε × ℤ)) : ℤ := (ds.map fun d => if d.1 = e then d.2 else 0).sum

@[simp] theorem sumOf_nil (e : ε) : sumOf e [] = 0 := rfl

@[simp] theorem sumOf_cons (e : ε) (d : ε × ℤ) (ds : List (ε × ℤ)) :
    sumOf e (d :: ds) = (if d.1 = e then d.2 else 0) + sumOf e ds := by simp [sumOf]

@[simp] theorem sumOf_append (e : ε) (ds ds' : List (ε × ℤ)) :
    sumOf e (ds ++ ds') = sumOf e ds + sumOf e ds' := by simp [sumOf]

theorem sumOf_eraseIdx {ds : List (ε × ℤ)} {k : ℕ} {d : ε × ℤ} (h : ds[k]? = some d) (e : ε) :
    sumOf e ds = (if d.1 = e then d.2 else 0) + sumOf e (ds.eraseIdx k) := by
  obtain ⟨l₁, l₂, hl, herase, -⟩ := List.exists_cut h
  rw [herase, hl, sumOf_append, sumOf_cons, sumOf_append]
  omega

theorem sumOf_nonneg {ds : List (ε × ℤ)} (h : ∀ d ∈ ds, 0 ≤ d.2) (e : ε) : 0 ≤ sumOf e ds := by
  apply List.sum_nonneg
  intro a ha
  obtain ⟨d, hd, rfl⟩ := List.mem_map.mp ha
  split_ifs
  · exact h d hd
  · exact le_rfl

theorem sumOf_nonpos {ds : List (ε × ℤ)} {e : ε}
    (h : ∀ d ∈ ds, d.1 = e → d.2 ≤ 0) : sumOf e ds ≤ 0 := by
  induction ds with
  | nil => simp
  | cons d ds ih =>
    obtain ⟨hd, hds⟩ := List.forall_mem_cons.mp h
    rw [sumOf_cons]
    refine add_nonpos ?_ (ih hds)
    split_ifs with heq
    · exact hd heq
    · exact le_rfl

theorem le_sumOf {ds : List (ε × ℤ)} (h : ∀ d ∈ ds, 0 ≤ d.2) {d : ε × ℤ} (hd : d ∈ ds) :
    d.2 ≤ sumOf d.1 ds := by
  obtain ⟨k, hk⟩ := List.mem_iff_getElem?.mp hd
  have hsum := sumOf_eraseIdx hk d.1
  have hrest : 0 ≤ sumOf d.1 (ds.eraseIdx k) :=
    sumOf_nonneg (fun d' hd' => h d' (List.mem_of_mem_eraseIdx hd')) d.1
  rw [if_pos rfl] at hsum
  omega

theorem sumOf_eq_zero {ds : List (ε × ℤ)} {e : ε} (h : ∀ d ∈ ds, d.1 ≠ e) : sumOf e ds = 0 := by
  apply List.sum_eq_zero
  intro a ha
  obtain ⟨d, hd, rfl⟩ := List.mem_map.mp ha
  rw [if_neg (h d hd)]

theorem sumOf_of_nodup {ds : List (ε × ℤ)} (h : (ds.map Prod.fst).Nodup) {d : ε × ℤ} (hd : d ∈ ds) :
    sumOf d.1 ds = d.2 := by
  induction ds with
  | nil => simp at hd
  | cons first ds ih =>
    rw [List.map_cons, List.nodup_cons] at h
    rw [sumOf_cons]
    rcases List.mem_cons.mp hd with rfl | hd
    · rw [if_pos rfl, sumOf_eq_zero, add_zero]
      exact fun other hother heq => h.1 (List.mem_map.mpr ⟨other, hother, heq⟩)
    · rw [ih h.2 hd, if_neg, zero_add]
      exact fun heq => h.1 (List.mem_map.mpr ⟨d, hd, heq.symm⟩)

/-- What is listed under the position of an entry is what is listed for that entry. -/
theorem sumOf_zipIdx {α : Type*} (g : α → List ℤ) (l : List α) (first i : ℕ) :
    sumOf (first + i) ((l.zipIdx first).flatMap fun p => (g p.1).map (Prod.mk p.2)) =
      l[i]?.elim 0 fun a => (g a).sum := by
  have hsame (k j : ℕ) (ns : List ℤ) :
      sumOf k (ns.map (Prod.mk j)) = if j = k then ns.sum else 0 := by
    induction ns with
    | nil => simp
    | cons n ns ih =>
      rw [List.map_cons, sumOf_cons, ih, List.sum_cons]
      split_ifs <;> simp
  have hlow (k : ℕ) (l : List α) (first : ℕ) (hlt : k < first) :
      sumOf k ((l.zipIdx first).flatMap fun p => (g p.1).map (Prod.mk p.2)) = 0 := by
    induction l generalizing first with
    | nil => simp
    | cons a l ih =>
      rw [List.zipIdx_cons, List.flatMap_cons, sumOf_append, hsame, if_neg hlt.ne',
        ih (first + 1) (by omega), add_zero]
  induction l generalizing first i with
  | nil => simp
  | cons a l ih =>
    rw [List.zipIdx_cons, List.flatMap_cons, sumOf_append, hsame]
    cases i with
    | zero => simp [hlow first l (first + 1) (by omega)]
    | succ i =>
      have hnext := ih (first + 1) i
      rw [show first + 1 + i = first + (i + 1) by omega] at hnext
      rw [if_neg (by omega), zero_add, hnext, List.getElem?_cons_succ]

/-- The owners may be grouped: a sum over a group only depends on the sums of its owners. -/
theorem sumOf_map_congr {κ : Type*} [DecidableEq κ] {ds ds' : List (ε × ℤ)}
    (h : ∀ e, sumOf e ds = sumOf e ds') (f : ε → κ) (k : κ) :
    sumOf k (ds.map fun d => (f d.1, d.2)) = sumOf k (ds'.map fun d => (f d.1, d.2)) := by
  have hsum (s : Finset ε) (ds : List (ε × ℤ)) (hs : ∀ d ∈ ds, d.1 ∈ s) :
      sumOf k (ds.map fun d => (f d.1, d.2)) = ∑ e ∈ s, if f e = k then sumOf e ds else 0 := by
    induction ds with
    | nil => simp
    | cons d ds ih =>
      obtain ⟨hd, hds⟩ := List.forall_mem_cons.mp hs
      rw [List.map_cons, sumOf_cons, ih hds]
      have hone : (if f d.1 = k then d.2 else 0) =
          ∑ e ∈ s, if d.1 = e then (if f e = k then d.2 else 0) else 0 := by
        rw [Finset.sum_ite_eq, if_pos hd]
      rw [hone, ← Finset.sum_add_distrib]
      refine Finset.sum_congr rfl fun e _ => ?_
      rw [sumOf_cons]
      split_ifs <;> simp
  have hmem : ∀ d ∈ ds, d.1 ∈ (ds.map Prod.fst ++ ds'.map Prod.fst).toFinset :=
    fun d hd => List.mem_toFinset.mpr
      (List.mem_append_left _ (List.mem_map.mpr ⟨d, hd, rfl⟩))
  have hmem' : ∀ d ∈ ds', d.1 ∈ (ds.map Prod.fst ++ ds'.map Prod.fst).toFinset :=
    fun d hd => List.mem_toFinset.mpr
      (List.mem_append_right _ (List.mem_map.mpr ⟨d, hd, rfl⟩))
  rw [hsum _ ds hmem, hsum _ ds' hmem']
  exact Finset.sum_congr rfl fun e _ => by rw [h e]

/-- What all owners have together is everything. -/
theorem sum_sumOf {owners : List ε} (hdistinct : owners.Nodup) {ds : List (ε × ℤ)}
    (hmem : ∀ d ∈ ds, d.1 ∈ owners) :
    (owners.map fun e => sumOf e ds).sum = (ds.map Prod.snd).sum := by
  induction ds with
  | nil => simp
  | cons d ds ih =>
    obtain ⟨hd, hds⟩ := List.forall_mem_cons.mp hmem
    have hone : (owners.map fun e => if d.1 = e then d.2 else 0).sum = d.2 := by
      rw [← List.sum_toFinset _ hdistinct, Finset.sum_ite_eq, if_pos (List.mem_toFinset.mpr hd)]
    rw [List.map_cons, List.sum_cons, ← ih hds]
    conv_rhs => rw [← hone, ← List.sum_map_add]
    simp only [sumOf_cons]

theorem sumOf_perm {ds ds' : List (ε × ℤ)} (h : ds.Perm ds') (e : ε) : sumOf e ds = sumOf e ds' :=
  (h.map _).sum_eq

end Tally
