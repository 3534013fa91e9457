import Mathlib.Data.List.MinMax
import OCRemote.Lib.Split

/-! A max-heap as its users see it: the greatest entry is on top, and among several greatest
ones the implementation chooses. -/

/-- A choice of the entry on top of every heap. -/
structure TopRule (α : Type*) {β : Type*} [LinearOrder β] (key : α → β) where
  top : List α → ℕ
  top_lt : ∀ l, l ≠ [] → top l < l.length
  top_max : ∀ l a, l[top l]? = some a → ∀ b ∈ l, key b ≤ key a

namespace MaxHeap
variable {α β : Type*} [LinearOrder β] {key : α → β} (r : TopRule α key)

def peek (l : List α) : Option α := l[r.top l]?

def pop (l : List α) : List α := l.eraseIdx (r.top l)

/-- Change the entry on top in place. -/
def setTop (l : List α) (f : α → α) : List α := l.modify (r.top l) f

theorem peek_isSome {l : List α} (h : l ≠ []) : ∃ a, peek r l = some a :=
  ⟨_, List.getElem?_eq_getElem (r.top_lt l h)⟩

theorem peek_cut {l : List α} {a : α} (h : peek r l = some a) :
    ∃ l₁ l₂, l = l₁ ++ a :: l₂ ∧ pop r l = l₁ ++ l₂ ∧ (∀ f, setTop r l f = l₁ ++ f a :: l₂) ∧
      ∀ b ∈ l, key b ≤ key a := by
  obtain ⟨l₁, l₂, hl, hpop, hset⟩ := List.exists_cut h
  exact ⟨l₁, l₂, hl, hpop, hset, r.top_max l a h⟩

theorem exists_greatest {l : List α} (h : l ≠ []) : ∃ a ∈ l, ∀ b ∈ l, key b ≤ key a := by
  have hne : List.argmax key l ≠ none := fun hn => h (List.argmax_eq_none.mp hn)
  obtain ⟨a, ha⟩ := Option.ne_none_iff_exists'.mp hne
  exact ⟨a, List.argmax_mem ha, fun b hb => List.le_of_mem_argmax hb ha⟩

/-- The rule that takes the first of the greatest entries. -/
def firstTop (key : α → β) : TopRule α key where
  top l := l.findIdx fun a => l.all fun b => key b ≤ key a
  top_lt l h := by
    obtain ⟨a, ha, hmax⟩ : ∃ a ∈ l, ∀ b ∈ l, key b ≤ key a := exists_greatest h
    exact List.findIdx_lt_length.mpr ⟨a, ha, by simpa using hmax⟩
  top_max l a h := by
    obtain ⟨hlt, rfl⟩ := List.getElem?_eq_some_iff.mp h
    have hp := @List.findIdx_getElem _ (fun a => l.all fun b => decide (key b ≤ key a)) l hlt
    simpa using hp

end MaxHeap
