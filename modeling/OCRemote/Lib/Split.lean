import Mathlib.Algebra.BigOperators.Group.List.Basic
import Mathlib.Algebra.Order.BigOperators.Group.List
import Mathlib.Algebra.Order.Ring.Int
import Mathlib.Data.List.Forall2

/-! A list cut at one of its positions, with what an update and a removal there do to it, lists
related entry by entry, and loops over a list that may fail. -/

namespace List
variable {α β : Type*}

theorem exists_cut {l : List α} {i : ℕ} {a : α} (h : l[i]? = some a) :
    ∃ l₁ l₂, l = l₁ ++ a :: l₂ ∧ l.eraseIdx i = l₁ ++ l₂ ∧
      ∀ f : α → α, l.modify i f = l₁ ++ f a :: l₂ := by
  induction l generalizing i with
  | nil => simp at h
  | cons b l ih =>
    cases i with
    | zero =>
      obtain rfl : b = a := by simpa using h
      exact ⟨[], l, rfl, rfl, fun f => rfl⟩
    | succ i =>
      obtain ⟨l₁, l₂, hl, he, hm⟩ := ih (by simpa using h)
      exact ⟨b :: l₁, l₂, by rw [hl, cons_append], by rw [eraseIdx_cons_succ, he, cons_append],
        fun f => by rw [modify_succ_cons, hm, cons_append]⟩

/-- An update that leaves `g` of the updated entry alone leaves all of `g` alone. -/
theorem map_modify_of_eq {g : α → β} {f : α → α} (h : ∀ a, g (f a) = g a) (l : List α) (i : ℕ) :
    (l.modify i f).map g = l.map g := by
  induction l generalizing i with
  | nil => simp
  | cons a l ih =>
    cases i with
    | zero => simp [h]
    | succ i => simp [ih]

theorem mem_modify {l : List α} {i : ℕ} {f : α → α} {b : α} (h : b ∈ l.modify i f) :
    b ∈ l ∨ ∃ a, l[i]? = some a ∧ b = f a := by
  cases ha : l[i]? with
  | none =>
    rw [modify_eq_self (by simpa using ha)] at h
    exact .inl h
  | some a =>
    obtain ⟨l₁, l₂, hl, -, hm⟩ := exists_cut ha
    rw [hm f] at h
    rw [hl]
    simp only [mem_append, mem_cons] at h ⊢
    rcases h with h | rfl | h
    · exact .inl (.inl h)
    · exact .inr ⟨a, rfl, rfl⟩
    · exact .inl (.inr (.inr h))

theorem exists_cut_set {l : List α} {i : ℕ} {a : α} (h : l[i]? = some a) (b : α) :
    ∃ l₁ l₂, l = l₁ ++ a :: l₂ ∧ l.set i b = l₁ ++ b :: l₂ := by
  obtain ⟨l₁, l₂, hl, -, hm⟩ := exists_cut h
  exact ⟨l₁, l₂, hl, by rw [set_eq_modify, hm]⟩

/-- What an entry trades is what the whole trades. -/
theorem perm_flatMap_trade {l : List α} {i : ℕ} {a b : α} (h : l[i]? = some a) {g : α → List β}
    {old new : List β} (hg : (g b ++ old).Perm (g a ++ new)) :
    ((l.set i b).flatMap g ++ old).Perm (l.flatMap g ++ new) := by
  obtain ⟨l₁, l₂, hl, hset⟩ := exists_cut_set h b
  have hend (x : α) (rest : List β) :
      ((l₁ ++ x :: l₂).flatMap g ++ rest).Perm (l₁.flatMap g ++ (g x ++ rest ++ l₂.flatMap g)) := by
    simp only [flatMap_append, flatMap_cons, append_assoc]
    exact (perm_append_comm.append_left (g x)).append_left (l₁.flatMap g)
  rw [hset, hl]
  exact (hend b old).trans (((hg.append_right _).append_left _).trans (hend a new).symm)

/-- An entry whose part grows by `new` makes the whole grow by `new`. -/
theorem perm_flatMap_set {l : List α} {i : ℕ} {a b : α} (h : l[i]? = some a) {g : α → List β}
    {new : List β} (hg : (g b).Perm (g a ++ new)) :
    ((l.set i b).flatMap g).Perm (l.flatMap g ++ new) := by
  rw [← append_nil ((l.set i b).flatMap g)]
  refine perm_flatMap_trade h ?_
  rwa [append_nil]

theorem exists_mem_set {l : List α} {i : ℕ} {a b : α} (h : l[i]? = some a) {p : α → Prop} {q : Prop}
    (hp : p b ↔ p a ∨ q) : (∃ x ∈ l.set i b, p x) ↔ (∃ x ∈ l, p x) ∨ q := by
  obtain ⟨l₁, l₂, hl, hset⟩ := exists_cut_set h b
  rw [hset, hl]
  simp only [mem_append, mem_cons, or_and_right, exists_or, exists_eq_left, hp, or_assoc]
  rw [@or_comm q]

theorem exists_of_forall₂ {R : α → β → Prop} {l : List α} {m : List β} (h : Forall₂ R l m) {b : β}
    (hb : b ∈ m) : ∃ a ∈ l, R a b := by
  induction h with
  | nil => simp at hb
  | cons hfirst _ ih =>
    rcases mem_cons.mp hb with rfl | hb
    · exact ⟨_, mem_cons_self .., hfirst⟩
    · exact (ih hb).imp fun _ h => ⟨.tail _ h.1, h.2⟩

theorem getElem?_of_forall₂ {R : α → β → Prop} {l : List α} {m : List β} (h : Forall₂ R l m) {i : ℕ}
    {a : α} (ha : l[i]? = some a) : ∃ b, m[i]? = some b ∧ R a b := by
  obtain ⟨hi, rfl⟩ := getElem?_eq_some_iff.mp ha
  have hi' : i < m.length := h.length_eq ▸ hi
  exact ⟨m[i], getElem?_eq_getElem hi', h.get hi hi'⟩

/-- An entry may be read back at its position. -/
theorem flatMap_eq_zipIdx {l : List α} {f : α → List β} {g : α × ℕ → List β}
    (h : ∀ a i, l[i]? = some a → f a = g (a, i)) : l.flatMap f = l.zipIdx.flatMap g := by
  conv_lhs => rw [← zipIdx_map_fst 0 l, flatMap_map]
  refine flatMap_congr fun p hp => ?_
  exact h p.1 p.2 (mk_mem_zipIdx_iff_getElem?.mp hp)

/-- What every turn of a loop keeps holds after the loop. -/
theorem foldlM_inv {f : β → α → Option β} {P : β → Prop} {l : List α}
    (hstep : ∀ a ∈ l, ∀ b b', P b → f b a = some b' → P b') {b b' : β} (h0 : P b)
    (h : l.foldlM f b = some b') : P b' := by
  induction l generalizing b with
  | nil =>
    obtain rfl := Option.some.inj h
    exact h0
  | cons a l ih =>
    obtain ⟨hfirst, hrest⟩ := forall_mem_cons.mp hstep
    rw [foldlM_cons] at h
    obtain ⟨next, hnext, h⟩ := Option.bind_eq_some_iff.mp h
    exact ih hrest (hfirst b next h0 hnext) h

end List
