import Mathlib.Data.List.Basic
import Mathlib.Algebra.Order.Ring.Int

/-! A scan for the first of the best entries of a list, among those that have a key. -/

namespace FirstBest
variable {α κ : Type*} (key : α → Option κ) (better : κ → κ → Bool)

def step (best : Option (ℕ × κ)) (i : ℕ) (a : α) : Option (ℕ × κ) :=
  match key a, best with
  | none, _ => best
  | some k, none => some (i, k)
  | some k, some b => if better k b.2 then some (i, k) else best

def scan : ℕ → List α → Option (ℕ × κ) → Option (ℕ × κ)
  | _, [], best => best
  | i, a :: l, best => scan (i + 1) l (step key better best i a)

def firstBest (l : List α) : Option (ℕ × κ) := scan key better 0 l none

variable {key better}

theorem step_cases (best : Option (ℕ × κ)) (i : ℕ) (a : α) :
    step key better best i a = best ∨ ∃ k, key a = some k ∧ step key better best i a =
      some (i, k) := by
  unfold step
  cases hk : key a with
  | none => exact .inl rfl
  | some k =>
    cases best with
    | none => exact .inr ⟨k, rfl, rfl⟩
    | some b =>
      by_cases hb : better k b.2
      · exact .inr ⟨k, rfl, by simp [hb]⟩
      · exact .inl (by simp [hb])

theorem scan_spec {l before rest : List α} (hcut : l = before ++ rest) {best : Option (ℕ × κ)}
    (hbest : ∀ i k, best = some (i, k) → ∃ a, l[i]? = some a ∧ key a = some k) :
    ∀ i k, scan key better before.length rest best = some (i, k) → ∃ a, l[i]? = some a ∧ key a =
      some k := by
  induction rest generalizing before best with
  | nil => exact hbest
  | cons a rest ih =>
    have hhere : l[before.length]? = some a := by simp [hcut]
    have hcut' : l = (before ++ [a]) ++ rest := by simp [hcut]
    have hlen : before.length + 1 = (before ++ [a]).length := by simp
    rw [scan, hlen]
    apply ih hcut'
    intro i k h
    rcases @step_cases _ _ key better best before.length a with hsame | ⟨k', hk', hnew⟩
    · exact hbest i k (hsame.symm.trans h)
    · obtain ⟨rfl, rfl⟩ : before.length = i ∧ k' = k := by simpa [hnew] using h
      exact ⟨a, hhere, hk'⟩

/-- What the scan finds is an entry of the list with its key. -/
theorem firstBest_spec {l : List α} {i : ℕ} {k : κ} (h : firstBest key better l = some (i, k)) :
    ∃ a, l[i]? = some a ∧ key a = some k :=
  scan_spec (List.nil_append l).symm (by simp) i k h

theorem scan_isSome {i : ℕ} {l : List α} {best : Option (ℕ × κ)} (h : best.isSome) :
    (scan key better i l best).isSome := by
  induction l generalizing i best with
  | nil => exact h
  | cons a l ih =>
    apply ih
    rcases @step_cases _ _ key better best i a with hsame | ⟨k, -, hnew⟩
    · rwa [hsame]
    · rw [hnew]
      rfl

theorem scan_eq_none {i : ℕ} {l : List α} (h : scan key better i l none = none) :
    ∀ a ∈ l, key a = none := by
  induction l generalizing i with
  | nil => simp
  | cons a l ih =>
    rw [scan] at h
    cases hk : key a with
    | none =>
      have hstep : step key better none i a = none := by simp [step, hk]
      rw [hstep] at h
      exact List.forall_mem_cons.mpr ⟨hk, ih h⟩
    | some k =>
      have hstep : step key better none i a = some (i, k) := by simp [step, hk]
      have hsome := @scan_isSome _ _ key better (i + 1) l (some (i, k)) rfl
      rw [hstep] at h
      simp [h] at hsome

/-- It finds nothing only when no entry has a key. -/
theorem firstBest_eq_none {l : List α} (h : firstBest key better l = none) :
    ∀ a ∈ l, key a = none :=
  scan_eq_none h

section
variable [LinearOrder κ]

/-- The first of the greatest keys of a list. -/
def Leads (key : α → Option κ) (l : List α) : Option (ℕ × κ) → Prop
  | none => ∀ a ∈ l, key a = none
  | some b => (∃ a, l[b.1]? = some a ∧ key a = some b.2) ∧
    ∀ j a k, l[j]? = some a → key a = some k → k ≤ b.2 ∧ (k = b.2 → b.1 ≤ j)

theorem leads_map {β : Type*} {f : β → α} {l : List β} {best : Option (ℕ × κ)}
    (h : Leads key (l.map f) best) : Leads (fun b => key (f b)) l best := by
  cases best with
  | none => simpa [Leads] using h
  | some best =>
    obtain ⟨⟨a, ha, hk⟩, hmax⟩ := h
    rw [List.getElem?_map] at ha
    obtain ⟨b, hb, rfl⟩ := Option.map_eq_some_iff.mp ha
    refine ⟨⟨b, hb, hk⟩, fun j b' k hb' hk' => hmax j (f b') k ?_ hk'⟩
    rw [List.getElem?_map, hb', Option.map_some]

theorem getElem?_append_singleton {l : List α} {a a' : α} {j : ℕ} (h : (l ++ [a])[j]? = some a') :
    l[j]? = some a' ∨ j = l.length ∧ a = a' := by
  rcases lt_or_ge j l.length with hlt | hge
  · rw [List.getElem?_append_left hlt] at h
    exact .inl h
  · rw [List.getElem?_append_right hge] at h
    obtain ⟨hj, heq⟩ := List.getElem?_eq_some_iff.mp h
    simp only [List.length_singleton] at hj
    exact .inr ⟨by omega, by simpa using heq⟩

theorem Leads.step {l : List α} {best : Option (ℕ × κ)} (h : Leads key l best) (a : α) :
    Leads key (l ++ [a]) (step key (fun k k' => decide (k' < k)) best l.length a) := by
  have hlast : (l ++ [a])[l.length]? = some a := by simp
  unfold FirstBest.step
  cases hk : key a with
  | none =>
    cases best with
    | none => simpa [Leads, or_imp, forall_and, hk] using h
    | some b =>
      obtain ⟨⟨a₀, ha₀, hk₀⟩, hmax⟩ := h
      refine ⟨⟨a₀, ?_, hk₀⟩, fun j a' k' ha' hk' => ?_⟩
      · rw [List.getElem?_append_left (List.getElem?_eq_some_iff.mp ha₀).1, ha₀]
      · rcases getElem?_append_singleton ha' with ha' | ⟨-, rfl⟩
        · exact hmax j a' k' ha' hk'
        · simp [hk] at hk'
  | some k =>
    cases best with
    | none =>
      refine ⟨⟨a, hlast, hk⟩, fun j a' k' ha' hk' => ?_⟩
      rcases getElem?_append_singleton ha' with ha' | ⟨rfl, rfl⟩
      · simp [h a' (List.mem_of_getElem? ha')] at hk'
      · obtain rfl := Option.some.inj (hk.symm.trans hk')
        exact ⟨le_rfl, fun _ => le_rfl⟩
    | some b =>
      obtain ⟨⟨a₀, ha₀, hk₀⟩, hmax⟩ := h
      have hlt := (List.getElem?_eq_some_iff.mp ha₀).1
      simp only [decide_eq_true_eq]
      split_ifs with hbetter
      · refine ⟨⟨a, hlast, hk⟩, fun j a' k' ha' hk' => ?_⟩
        rcases getElem?_append_singleton ha' with ha' | ⟨rfl, rfl⟩
        · have hle := (hmax j a' k' ha' hk').1.trans_lt hbetter
          exact ⟨hle.le, fun heq => absurd heq hle.ne⟩
        · obtain rfl := Option.some.inj (hk.symm.trans hk')
          exact ⟨le_rfl, fun _ => le_rfl⟩
      · refine ⟨⟨a₀, by rw [List.getElem?_append_left hlt, ha₀], hk₀⟩, fun j a' k' ha' hk' => ?_⟩
        rcases getElem?_append_singleton ha' with ha' | ⟨rfl, rfl⟩
        · exact hmax j a' k' ha' hk'
        · obtain rfl := Option.some.inj (hk.symm.trans hk')
          exact ⟨not_lt.mp hbetter, fun _ => hlt.le⟩

/-- A scan for a strictly greater key finds the first of the greatest. -/
theorem firstBest_leads (key : α → Option κ) (l : List α) :
    Leads key l (firstBest key (fun k k' => decide (k' < k)) l) := by
  have hscan (rest seen : List α) (best : Option (ℕ × κ)) (h : Leads key seen best) :
      Leads key (seen ++ rest) (scan key (fun k k' => decide (k' < k)) seen.length rest best) := by
    induction rest generalizing seen best with
    | nil => rwa [List.append_nil]
    | cons a rest ih =>
      have hnext := ih (seen ++ [a]) _ (h.step a)
      rwa [List.append_assoc, List.length_append] at hnext
  exact hscan l [] none (by simp [Leads])

end

end FirstBest
