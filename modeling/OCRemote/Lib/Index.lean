import Mathlib.Data.List.AList
import Mathlib.Data.Set.Insert

/-! Lists of entries under keys, as an index of a set. -/

namespace Index
variable {κ α : Type*} [DecidableEq κ]

/-- What is listed under a key. -/
def listed (m : AList fun _ : κ => List α) (k : κ) : List α := (m.lookup k).getD []

/-- `a` is appended to the list of `k`, which may have to be made. -/
def push (m : AList fun _ : κ => List α) (k : κ) (a : α) : AList fun _ : κ => List α :=
  m.insert k (listed m k ++ [a])

@[simp] theorem listed_empty (k : κ) : listed (∅ : AList fun _ : κ => List α) k = [] := rfl

theorem mem_listed_push (m : AList fun _ : κ => List α) (k : κ) (a : α) (k' : κ) (a' : α) :
    a' ∈ listed (push m k a) k' ↔ a' ∈ listed m k' ∨ a' = a ∧ k' = k := by
  unfold push
  by_cases hk : k' = k
  · subst hk
    simp [listed]
  · simp [listed, AList.lookup_insert_ne hk, hk]

/-- Each entry of the set is listed under its own key, and nothing else is listed. -/
def Indexes (m : AList fun _ : κ => List α) (key : α → κ) (s : Set α) : Prop :=
  ∀ k a, a ∈ listed m k ↔ a ∈ s ∧ key a = k

theorem indexes_empty (key : α → κ) : Indexes (∅ : AList fun _ : κ => List α) key ∅ := by
  simp [Indexes]

/-- An index that is told of a new entry indexes the larger set. -/
theorem Indexes.push {m : AList fun _ : κ => List α} {key : α → κ} {s : Set α}
    (h : Indexes m key s) (a : α) : Indexes (push m (key a) a) key (insert a s) := by
  intro k a'
  rw [mem_listed_push, h k a', Set.mem_insert_iff, or_and_right, or_comm]
  refine or_congr (and_congr_right fun ha => ?_) Iff.rfl
  rw [ha]
  exact eq_comm

theorem Indexes.congr {m : AList fun _ : κ => List α} {key : α → κ} {s s' : Set α}
    (h : Indexes m key s) (hs : ∀ a, a ∈ s ↔ a ∈ s') : Indexes m key s' := by
  rwa [← Set.ext hs]

end Index
