import Mathlib.Data.List.Basic
import Mathlib.Data.List.Count
import Mathlib.Data.Nat.Basic

/-! A line of owners who ask for units of one resource, each with all requests at once, and are
served first come first served. Only the owner in front can have some units and wait for more, so
when no more units than there are can be asked for by one owner, somebody always has all of theirs. -/

namespace Line
variable {α : Type*}

/-- The requests of an owner stand together. -/
def Grouped : List α → Prop
  | [] => True
  | a :: l => (a ∈ l → l.head? = some a) ∧ Grouped l

theorem grouped_replicate (a : α) (n : ℕ) : Grouped (List.replicate n a) := by
  induction n with
  | zero => trivial
  | succ n ih =>
    refine ⟨fun ha => ?_, ih⟩
    have hn : n ≠ 0 := (List.mem_replicate.mp ha).1
    rw [List.head?_replicate, if_neg hn]

/-- A newcomer goes to the end of the line. -/
theorem Grouped.append {l : List α} (h : Grouped l) {a : α} (hnew : a ∉ l) (n : ℕ) :
    Grouped (l ++ List.replicate n a) := by
  induction l with
  | nil => exact grouped_replicate a n
  | cons b l ih =>
    obtain ⟨hne, hout⟩ : ¬a = b ∧ a ∉ l := by simpa using hnew
    refine ⟨fun hb => ?_, ih h.2 hout⟩
    have hmem : b ∈ l := by
      rcases List.mem_append.mp hb with hb | hb
      · exact hb
      · exact absurd (List.eq_of_mem_replicate hb).symm hne
    show (l ++ List.replicate n a).head? = some b
    rw [List.head?_append, h.1 hmem, Option.some_or]

variable [DecidableEq α]

/-- `held` lists the owner of each unit that was given out. -/
structure Orderly (limit : ℕ) (queue held : List α) : Prop where
  grouped : Grouped queue
  bounded : ∀ a, queue.count a + held.count a ≤ limit
  waiting : ∀ a ∈ queue, queue.head? ≠ some a → a ∉ held

namespace Orderly
variable {limit : ℕ} {queue held : List α}

theorem nil (limit : ℕ) : Orderly limit ([] : List α) [] := ⟨trivial, by simp, by simp⟩

theorem ask (h : Orderly limit queue held) {a : α} (hqueue : a ∉ queue) (hheld : a ∉ held) {n : ℕ}
    (hn : n ≤ limit) : Orderly limit (queue ++ List.replicate n a) held := by
  refine ⟨h.grouped.append hqueue n, fun b => ?_, fun b hb hhead => ?_⟩
  · rw [List.count_append, List.count_replicate]
    have hbound := h.bounded b
    by_cases hab : a = b
    · subst hab
      rw [List.count_eq_zero_of_not_mem hqueue, List.count_eq_zero_of_not_mem hheld]
      simpa using hn
    · simpa [hab] using hbound
  · rcases List.mem_append.mp hb with hb | hb
    · refine h.waiting b hb fun hsome => hhead ?_
      rw [List.head?_append, hsome, Option.some_or]
    · rw [List.eq_of_mem_replicate hb]
      exact hheld

/-- The first request is served. -/
theorem serve {a : α} (h : Orderly limit (a :: queue) held) :
    Orderly limit queue (held ++ [a]) := by
  refine ⟨h.grouped.2, fun b => ?_, fun b hb hhead => ?_⟩
  · have hbound := h.bounded b
    rw [List.count_cons] at hbound
    rw [List.count_append, List.count_singleton]
    omega
  · have hne : b ≠ a := by
      rintro rfl
      exact hhead (h.grouped.1 hb)
    have hout := h.waiting b (List.mem_cons_of_mem _ hb) (by simpa using hne.symm)
    simp [hout, hne]

theorem serveMany (h : Orderly limit queue held) (n : ℕ) :
    Orderly limit (queue.drop n) (held ++ queue.take n) := by
  induction n generalizing queue held with
  | zero => simpa using h
  | succ n ih =>
    cases queue with
    | nil => simpa using h
    | cons a queue =>
      have hrest := ih h.serve
      rwa [List.append_assoc, List.singleton_append] at hrest

/-- Units are given back. -/
theorem release (h : Orderly limit queue held) {held' : List α}
    (hle : ∀ a, held'.count a ≤ held.count a) :
    Orderly limit queue held' := by
  refine ⟨h.grouped, fun a => ?_, fun a ha hhead hin => ?_⟩
  · have hbound := h.bounded a
    have hless := hle a
    omega
  · have hpos : 0 < held'.count a := List.count_pos_iff.mpr hin
    exact h.waiting a ha hhead (List.count_pos_iff.mp (Nat.lt_of_lt_of_le hpos (hle a)))

/-- Everybody in the line is sent away. -/
theorem refuse (h : Orderly limit queue held) : Orderly limit [] held :=
  ⟨trivial, fun a => by
    have hbound := h.bounded a
    rw [List.count_nil]
    omega, by simp⟩

/-- When all units are given out, one of the owners waits for nothing. -/
theorem exists_served (h : Orderly limit queue held) (hqueue : queue ≠ [])
    (hall : limit ≤ held.length) :
    ∃ a ∈ held, a ∉ queue := by
  by_contra hnone
  have hwait : ∀ a ∈ held, a ∈ queue := by
    intro a ha
    by_contra hout
    exact hnone ⟨a, ha, hout⟩
  obtain ⟨first, rest, rfl⟩ := List.exists_cons_of_ne_nil hqueue
  -- if all owners waited, they would all be the one in front, who may not have that many
  have hsame : ∀ a ∈ held, first = a := by
    intro a ha
    by_contra hne
    exact h.waiting a (hwait a ha) (by simpa using hne) ha
  have hcount : held.count first = held.length := List.count_eq_length.mpr hsame
  have hbound := h.bounded first
  rw [List.count_cons_self, hcount] at hbound
  omega

end Orderly
end Line
