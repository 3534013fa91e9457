import Mathlib.Data.List.Nodup
import Mathlib.Logic.Function.Basic

/-! Doubly linked lists with a head: the links of each element, next to the list that they stand
for. An element is put in front, or taken out from wherever it is. -/

@[ext]
structure Links (α : Type*) where
  head : Option α
  next : α → Option α
  prev : α → Option α

namespace Links
variable {α : Type*}

/-- From the head the links run through `order`, and back. -/
structure Linked (L : Links α) (order : List α) : Prop where
  head : L.head = order.head?
  next : ∀ l₁ a l₂, order = l₁ ++ a :: l₂ → L.next a = l₂.head?
  prev : ∀ l₁ a l₂, order = l₁ ++ a :: l₂ → L.prev a = l₁.getLast?
  nodup : order.Nodup

theorem linked_nil (next prev : α → Option α) : Linked ⟨none, next, prev⟩ [] where
  head := rfl
  next _ _ _ h := by simp at h
  prev _ _ _ h := by simp at h
  nodup := List.nodup_nil

variable [DecidableEq α]

def push (L : Links α) (a : α) : Links α where
  head := some a
  next := Function.update L.next a L.head
  prev :=
    match L.head with
    | none => Function.update L.prev a none
    | some b => Function.update (Function.update L.prev a none) b (some a)

def unlink (L : Links α) (a : α) : Links α where
  head :=
    match L.prev a with
    | none => L.next a
    | some _ => L.head
  next :=
    match L.prev a with
    | none => Function.update L.next a none
    | some b => Function.update (Function.update L.next b (L.next a)) a none
  prev :=
    match L.next a with
    | none => L.prev
    | some b => Function.update L.prev b (L.prev a)

section
variable {L : Links α} {order : List α}

theorem unlink_head (a : α) :
    (L.unlink a).head = if L.prev a = none then L.next a else L.head := by
  cases h : L.prev a <;> simp [unlink, h]

theorem unlink_next {a c : α} (hc : c ≠ a) :
    (L.unlink a).next c = if L.prev a = some c then L.next a else L.next c := by
  cases h : L.prev a with
  | none => simp [unlink, h, hc]
  | some b => simp [unlink, h, hc, Function.update_apply, eq_comm]

theorem unlink_next_self (a : α) : (L.unlink a).next a = none := by
  cases h : L.prev a <;> simp [unlink, h]

theorem unlink_prev (a c : α) :
    (L.unlink a).prev c = if L.next a = some c then L.prev a else L.prev c := by
  cases h : L.next a with
  | none => simp [unlink, h]
  | some b => simp [unlink, h, Function.update_apply, eq_comm]

theorem push_prev {a c : α} (hc : c ≠ a) :
    (L.push a).prev c = if L.head = some c then some a else L.prev c := by
  cases h : L.head with
  | none => simp [push, h, hc]
  | some b => simp [push, h, hc, Function.update_apply, eq_comm]

theorem push_prev_self {a : α} (ha : L.head ≠ some a) : (L.push a).prev a = none := by
  cases h : L.head with
  | none => simp [push, h]
  | some b =>
    have hb : a ≠ b := fun heq => ha (heq ▸ h)
    simp [push, h, hb]

namespace Linked

omit [DecidableEq α] in
theorem congr {L' : Links α} (h : Linked L order) (hhead : L'.head = L.head)
    (hlinks : ∀ a ∈ order, L'.next a = L.next a ∧ L'.prev a = L.prev a) : Linked L' order where
  head := hhead.trans h.head
  next l₁ a l₂ hcut := (hlinks a (by simp [hcut])).1.trans (h.next l₁ a l₂ hcut)
  prev l₁ a l₂ hcut := (hlinks a (by simp [hcut])).2.trans (h.prev l₁ a l₂ hcut)
  nodup := h.nodup

omit [DecidableEq α] in
theorem mem_of_next (h : Linked L order) {a b : α} (ha : a ∈ order) (hb : L.next a = some b) :
    b ∈ order := by
  obtain ⟨l₁, l₂, hcut⟩ := List.append_of_mem ha
  rw [h.next l₁ a l₂ hcut] at hb
  rw [hcut]
  simp [List.mem_of_head? hb]

omit [DecidableEq α] in
theorem mem_of_prev (h : Linked L order) {a b : α} (ha : a ∈ order) (hb : L.prev a = some b) :
    b ∈ order := by
  obtain ⟨l₁, l₂, hcut⟩ := List.append_of_mem ha
  rw [h.prev l₁ a l₂ hcut] at hb
  rw [hcut]
  simp [List.mem_of_getLast? hb]

omit [DecidableEq α] in
/-- A cut of what is left when `a` is taken out from between two lists, by where it is. -/
theorem exists_cut_of_append {l₁ l₂ m₁ m₂ : List α} {c : α} (h : l₁ ++ l₂ = m₁ ++ c :: m₂) :
    (∃ k, l₁ = m₁ ++ c :: k ∧ m₂ = k ++ l₂) ∨ ∃ k, m₁ = l₁ ++ k ∧ l₂ = k ++ c :: m₂ := by
  rcases List.append_eq_append_iff.mp h with ⟨k, hm, hl⟩ | ⟨k, hl, hk⟩
  · exact .inr ⟨k, hm, hl⟩
  · rcases List.cons_eq_append_iff.mp hk with ⟨rfl, hk⟩ | ⟨k, rfl, hk⟩
    · exact .inr ⟨[], by simpa using hl.symm, by simpa using hk.symm⟩
    · exact .inl ⟨k, hl, by simpa using hk⟩

omit [DecidableEq α] in
/-- Each link back is the inverse of a link forth. -/
theorem prev_eq_some_iff (h : Linked L order) {a b : α} (ha : a ∈ order) (hb : b ∈ order) :
    L.prev b = some a ↔ L.next a = some b := by
  constructor
  · intro hprev
    obtain ⟨l₁, l₂, hcut⟩ := List.append_of_mem hb
    rw [h.prev l₁ b l₂ hcut] at hprev
    obtain ⟨k, rfl⟩ := List.getLast?_eq_some_iff.mp hprev
    exact h.next k a (b :: l₂) (by simpa using hcut)
  · intro hnext
    obtain ⟨l₁, l₂, hcut⟩ := List.append_of_mem ha
    rw [h.next l₁ a l₂ hcut] at hnext
    obtain ⟨k, rfl⟩ := List.head?_eq_some_iff.mp hnext
    rw [h.prev (l₁ ++ [a]) b k (by simpa using hcut), List.getLast?_concat]

omit [DecidableEq α] in
theorem next_ne_self (h : Linked L order) {a : α} (ha : a ∈ order) : L.next a ≠ some a := by
  obtain ⟨l₁, l₂, rfl⟩ := List.append_of_mem ha
  have hnd := (List.nodup_cons.mp (List.nodup_middle.mp h.nodup)).1
  rw [h.next l₁ a l₂ rfl]
  exact fun heq => hnd (List.mem_append_right _ (List.mem_of_head? heq))

omit [DecidableEq α] in
theorem prev_ne_self (h : Linked L order) {a : α} (ha : a ∈ order) : L.prev a ≠ some a :=
  fun hprev => h.next_ne_self ha ((h.prev_eq_some_iff ha ha).mp hprev)

theorem push (h : Linked L order) {a : α} (ha : a ∉ order) : Linked (L.push a) (a :: order) where
  head := rfl
  next l₁ b l₂ hcut := by
    rcases List.cons_eq_append_iff.mp hcut with ⟨rfl, heq⟩ | ⟨k, rfl, horder⟩
    · obtain ⟨rfl, rfl⟩ := List.cons.inj heq
      simp [Links.push, h.head]
    · have hb : b ≠ a := fun heq => ha (by simp [horder, ← heq])
      simp [Links.push, hb, h.next k b l₂ horder]
  prev l₁ b l₂ hcut := by
    rcases List.cons_eq_append_iff.mp hcut with ⟨rfl, heq⟩ | ⟨k, rfl, horder⟩
    · obtain ⟨rfl, rfl⟩ := List.cons.inj heq
      exact push_prev_self fun hhead => ha (List.mem_of_head? (h.head ▸ hhead))
    · have hb : b ≠ a := fun heq => ha (by simp [horder, ← heq])
      have hprev := h.prev k b l₂ horder
      rw [push_prev hb, h.head, hprev]
      subst horder
      cases k with
      | nil => simp
      | cons c k =>
        have hc : c ≠ b := fun heq => by simpa [heq] using h.nodup
        simp [hc]
  nodup := List.nodup_cons.mpr ⟨ha, h.nodup⟩

/-- The neighbours of what is taken out are linked with each other. -/
theorem unlink (h : Linked L order) {a : α} (ha : a ∈ order) :
    Linked (L.unlink a) (order.erase a) := by
  obtain ⟨l₁, l₂, rfl⟩ := List.append_of_mem ha
  have hnd := List.nodup_cons.mp (List.nodup_middle.mp h.nodup)
  obtain ⟨ha₁, ha₂⟩ : a ∉ l₁ ∧ a ∉ l₂ := by simpa using hnd.1
  have hnext := h.next l₁ a l₂ rfl
  have hprev := h.prev l₁ a l₂ rfl
  rw [List.erase_append_right _ ha₁, List.erase_cons_head]
  constructor
  · rw [unlink_head, hprev, hnext, h.head]
    cases l₁ <;> simp
  · intro m₁ c m₂ hcut
    have hc : c ∈ l₁ ++ l₂ := by simp [hcut]
    have hca : c ≠ a := fun heq => hnd.1 (heq ▸ hc)
    have hback := h.prev_eq_some_iff (List.perm_middle.mem_iff.mpr (.tail _ hc)) ha
    simp only [unlink_next hca, hback, hnext]
    rcases exists_cut_of_append hcut with ⟨k, rfl, rfl⟩ | ⟨k, rfl, rfl⟩
    · rw [h.next m₁ c (k ++ a :: l₂) (by simp)]
      cases k with
      | nil => simp
      | cons d k =>
        have hd : d ≠ a := fun heq => ha₁ (by simp [heq])
        simp [hd]
    · have hm : m₂.head? ≠ some a := fun heq => ha₂ (by simp [List.mem_of_head? heq])
      rw [h.next (l₁ ++ a :: k) c m₂ (by simp), if_neg hm]
  · intro m₁ c m₂ hcut
    have hc : c ∈ l₁ ++ l₂ := by simp [hcut]
    have hback := h.prev_eq_some_iff ha (List.perm_middle.mem_iff.mpr (.tail _ hc))
    simp only [unlink_prev, ← hback, hprev]
    rcases exists_cut_of_append hcut with ⟨k, rfl, rfl⟩ | ⟨k, rfl, rfl⟩
    · have hm : m₁.getLast? ≠ some a := fun heq => ha₁ (by simp [List.mem_of_getLast? heq])
      rw [h.prev m₁ c (k ++ a :: l₂) (by simp), if_neg hm]
    · rw [h.prev (l₁ ++ a :: k) c m₂ (by simp)]
      rcases List.eq_nil_or_concat k with rfl | ⟨k, d, rfl⟩
      · simp
      · have hd : d ≠ a := fun heq => ha₂ (by simp [heq])
        have hlast : (l₁ ++ a :: k.concat d).getLast? = some d := by
          rw [List.concat_eq_append, ← List.cons_append, ← List.append_assoc, List.getLast?_concat]
        rw [hlast, if_neg (by simpa using hd), List.concat_eq_append, ← List.append_assoc,
          List.getLast?_concat]
  · exact hnd.2

end Linked
end
end Links
