import OCRemote.Codec.Convert
import OCRemote.Lib.Binary

/-! The numbers of `lua_value.rs` as doubles, and which of them the conversion to an index takes. -/

namespace OCRemote

/-- `f64`. -/
def binary64 : Format where
  precision := 53
  minExp := -1074
  maxExp := 1024
  precision_pos := by decide
  minExp_nonpos := by decide
  precision_lt := by decide

abbrev Double := Number binary64

namespace Double
open Number

theorem ofRat_intCast {n : ℤ} {x : ℚ} (h : binary64.Finite x) (hx : x = n) :
    (ofRat n : Double) = fin x h := by
  subst hx
  exact ofRat_of_finite h

/-- `NotNan<f64>` with its casts. -/
def conv : Conversion Double where
  trunc := trunc
  ofInt n := ofRat n
  pred f := f.sub 1
  trunc_ofInt n hn := by
    rw [ofRat_intCast (Format.finite_intCast hn) rfl, trunc_of_eq rfl]
  pred_ofInt n h0 hn := by
    have habs : |n + 1| ≤ 2 ^ 53 := abs_le.mpr ⟨by omega, by omega⟩
    rw [ofRat_intCast (@Format.finite_intCast binary64 _ habs) rfl, sub, Int.cast_add,
      Int.cast_one, add_sub_cancel_right]

/-! Of the doubles, the conversion takes the integers up to 2^64. -/

theorem tryIntoInteger_ok {f : Double} {n : ℤ} (hcast : max 0 (min usizeMax (trunc f)) = n)
    (hback : conv.ofInt n = f) : tryIntoInteger conv 0 usizeMax f = .ok n := by
  subst hcast
  exact if_pos hback

theorem tryIntoInteger_error {f : Double} {n : ℤ} (hcast : max 0 (min usizeMax (trunc f)) = n)
    (hback : conv.ofInt n ≠ f) : ∃ error, tryIntoInteger conv 0 usizeMax f = .error error := by
  subst hcast
  exact ⟨.nonInteger f, if_neg hback⟩

theorem tryIntoInteger_of_eq {x : ℚ} {h : binary64.Finite x} {n : ℤ} (h0 : 0 ≤ n)
    (h1 : n ≤ usizeMax) (hx : x = n) : tryIntoInteger conv 0 usizeMax (fin x h) = .ok n := by
  apply tryIntoInteger_ok
  · rw [trunc_of_eq hx, min_eq_right h1, max_eq_right h0]
  · exact ofRat_intCast h hx

theorem finite_zero : binary64.Finite ((0 : ℤ) : ℚ) :=
  Format.finite_intCast (by decide)

/-- A negative number saturates at zero. -/
theorem tryIntoInteger_of_neg {f : Double} (h : f < fin ((0 : ℤ) : ℚ) finite_zero) :
    ∃ error, tryIntoInteger conv 0 usizeMax f = .error error := by
  have htrunc : trunc f ≤ 0 := by
    rcases f with _ | ⟨x, hx⟩ | _
    · rw [trunc]
      exact neg_nonpos.mpr (pow_nonneg two_pos.le _)
    · have hneg : x < 0 := by simpa using fin_lt_fin.mp h
      rw [trunc, if_neg (not_le.mpr hneg)]
      exact Int.ceil_le.mpr (by simpa using hneg.le)
    · exact absurd h (not_posInf_lt _)
  have hback : conv.ofInt 0 = fin ((0 : ℤ) : ℚ) finite_zero := ofRat_intCast finite_zero rfl
  apply tryIntoInteger_error (max_eq_left ((min_le_right _ _).trans htrunc))
  rw [hback]
  exact h.ne'

theorem tryIntoInteger_of_fraction {x : ℚ} {h : binary64.Finite x} (h0 : 0 ≤ x) (h1 : x ≤ 2 ^ 53)
    (hx : ∀ n : ℤ, x ≠ n) : ∃ error, tryIntoInteger conv 0 usizeMax (fin x h) = .error error := by
  have hlo : 0 ≤ ⌊x⌋ := Int.floor_nonneg.mpr h0
  have hhi : ⌊x⌋ ≤ 2 ^ 53 := by
    have hfloor := (Int.floor_le x).trans h1
    exact_mod_cast hfloor
  have hcast : max 0 (min usizeMax (trunc (fin x h))) = ⌊x⌋ := by
    unfold usizeMax
    rw [trunc, if_pos h0, min_eq_right (by omega), max_eq_right hlo]
  have habs : |⌊x⌋| ≤ 2 ^ 53 := abs_le.mpr ⟨by omega, hhi⟩
  have hback : conv.ofInt ⌊x⌋ = fin ⌊x⌋ (@Format.finite_intCast binary64 _ habs) :=
    ofRat_intCast _ rfl
  apply tryIntoInteger_error hcast
  rw [hback]
  intro heq
  exact hx ⌊x⌋ (Number.fin.inj heq).symm

/-- A result that is one less than a number is rounded to between this number and two less. -/
theorem round_sub_one_bounds {x : ℚ} (h : binary64.Exact x) :
    x - 2 ≤ binary64.round (x - 1) ∧ binary64.round (x - 1) ≤ x := by
  have hnear := Format.abs_round_sub_le (q := x - 1) h
  rw [sub_sub_cancel, abs_one] at hnear
  obtain ⟨hlo, hhi⟩ := abs_le.mp hnear
  exact ⟨by linarith, by linarith⟩

theorem finite_two64 : binary64.Finite ((2 ^ 64 : ℤ) : ℚ) := by
  refine ⟨⟨1, 64, by decide, by decide, by norm_num⟩, ?_⟩
  have hlt : (2 ^ 64 : ℚ) < 2 ^ 1024 := pow_lt_pow_right₀ one_lt_two (by decide)
  push_cast
  rw [abs_of_pos (by positivity)]
  exact hlt

/-- The greatest index has no double of its own. -/
theorem ofInt_usizeMax : conv.ofInt usizeMax = fin ((2 ^ 64 : ℤ) : ℚ) finite_two64 := by
  have hsub : ((usizeMax : ℤ) : ℚ) = ((2 ^ 64 : ℤ) : ℚ) - 1 := by norm_num [usizeMax]
  obtain ⟨hlo, hhi⟩ := round_sub_one_bounds finite_two64.1
  -- near 2^64 numbers are multiples of 2^11
  have hpos : (2 : ℚ) ^ (53 + 10) ≤ binary64.round (((2 ^ 64 : ℤ) : ℚ) - 1) := by
    push_cast at hlo ⊢
    linarith
  obtain ⟨n, hn⟩ := (@Format.exact_round binary64 (((2 ^ 64 : ℤ) : ℚ) - 1)).exists_mul_pow
    (hpos.trans (le_abs_self _))
  have heq : binary64.round (((2 ^ 64 : ℤ) : ℚ) - 1) = (2 ^ 64 : ℤ) := by
    rw [hn] at hlo hhi ⊢
    have hlo' : (2 ^ 64 : ℤ) - 2 ≤ n * 2 ^ (10 + 1) := by exact_mod_cast hlo
    have hhi' : n * 2 ^ (10 + 1) ≤ (2 ^ 64 : ℤ) := by exact_mod_cast hhi
    exact congrArg _ (by omega)
  change ofRat ((usizeMax : ℤ) : ℚ) = _
  have hlt : |binary64.round ((usizeMax : ℤ) : ℚ)| < 2 ^ binary64.maxExp := by
    rw [hsub, heq]
    exact finite_two64.2
  rw [ofRat_of_abs_lt hlt]
  congr
  rw [hsub, heq]

/-- The cast of 2^64 saturates, and the greatest index is taken for it. -/
theorem tryIntoInteger_two64 :
    tryIntoInteger conv 0 usizeMax (fin ((2 ^ 64 : ℤ) : ℚ) finite_two64) = .ok usizeMax := by
  have hcast : max 0 (min usizeMax (trunc (fin ((2 ^ 64 : ℤ) : ℚ) finite_two64))) =
      usizeMax := by
    rw [trunc_of_eq rfl]
    decide
  exact tryIntoInteger_ok hcast ofInt_usizeMax

theorem tryIntoInteger_of_gt {f : Double} (h : fin ((2 ^ 64 : ℤ) : ℚ) finite_two64 < f) :
    ∃ error, tryIntoInteger conv 0 usizeMax f = .error error := by
  have htrunc : 2 ^ 64 ≤ trunc f := by
    rcases f with _ | ⟨x, hx⟩ | _
    · exact absurd h (not_lt_negInf _)
    · have hgt : ((2 ^ 64 : ℤ) : ℚ) < x := fin_lt_fin.mp h
      have hnonneg : 0 ≤ x := le_trans (by norm_num) hgt.le
      rw [trunc, if_pos hnonneg]
      exact Int.le_floor.mpr hgt.le
    · rw [trunc]
      exact pow_le_pow_right₀ one_le_two (by decide)
  have hcast : max 0 (min usizeMax (trunc f)) = usizeMax := by
    unfold usizeMax
    omega
  apply tryIntoInteger_error hcast
  rw [ofInt_usizeMax]
  exact h.ne

/-! The index of a number is one less, rounded. -/

/-- Below one, or with a fraction. -/
def IsLow : Double → Prop
  | negInf => True
  | fin x _ => x < 1 ∨ ∀ n : ℤ, x ≠ n
  | posInf => False

def IsNat (f : Double) (n : ℕ) : Prop := ∃ h, f = fin n h

def IsAbove (b : ℕ) : Double → Prop
  | negInf => False
  | fin x _ => b < x
  | posInf => True

def index (f : Double) : Except (ConvertError Double) ℤ :=
  tryIntoInteger conv 0 usizeMax (conv.pred f)

theorem sub_one_of_le {x : ℚ} (h : binary64.Finite x) (h0 : 1 / 2 ≤ x) (h1 : x ≤ 2 ^ 53) :
    ∃ h', conv.pred (fin x h) = fin (x - 1) h' := by
  have habs : |x - 1| ≤ 2 ^ 53 := abs_le.mpr ⟨by linarith, by linarith⟩
  have hfinite : binary64.Finite (x - 1) :=
    ⟨h.1.sub_one h0 h1, habs.trans_lt (pow_lt_pow_right₀ one_lt_two (by decide))⟩
  exact ⟨hfinite, ofRat_of_finite hfinite⟩

/-- A number that is below zero by one half is not rounded to zero. -/
theorem sub_one_neg {x : ℚ} (h : binary64.Finite x) (hx : x ≤ 1 / 2) :
    conv.pred (fin x h) < fin ((0 : ℤ) : ℚ) finite_zero := by
  change ofRat (x - 1) < _
  have hhalf : binary64.Exact (-1 / 2) := ⟨-1, -1, by decide, by decide, by norm_num⟩
  have hnear := Format.abs_round_sub_le (q := x - 1) hhalf
  rw [abs_of_nonneg (by linarith : 0 ≤ -1 / 2 - (x - 1))] at hnear
  have hneg : binary64.round (x - 1) < 0 := by
    linarith [le_abs_self (binary64.round (x - 1) - (x - 1))]
  by_cases hlt : |binary64.round (x - 1)| < 2 ^ binary64.maxExp
  · rw [ofRat_of_abs_lt hlt, fin_lt_fin, Int.cast_zero]
    exact hneg
  · rw [ofRat, dif_neg hlt, if_neg (by linarith)]
    exact negInf_lt_fin

theorem sub_one_of_gt {x : ℚ} (h : binary64.Finite x) (hx : 2 ^ 53 < x) :
    ∃ y h', conv.pred (fin x h) = fin y h' ∧ x - 2 ≤ y ∧ y ≤ x := by
  obtain ⟨hlo, hhi⟩ := round_sub_one_bounds h.1
  have hlt : |binary64.round (x - 1)| < 2 ^ binary64.maxExp := by
    have hfinite := h.2
    rw [abs_of_nonneg (by linarith)] at hfinite ⊢
    exact hhi.trans_lt hfinite
  exact ⟨binary64.round (x - 1), _, ofRat_of_abs_lt hlt, hlo, hhi⟩

theorem exists_mul_pow_of_le {x : ℚ} (h : binary64.Finite x) (k : ℕ) (hx : 2 ^ (53 + k) ≤ x) :
    ∃ n : ℤ, x = (n * 2 ^ (k + 1) : ℤ) :=
  h.1.exists_mul_pow (hx.trans (le_abs_self x))

theorem index_of_isLow {f : Double} (h : f.IsLow) : ∃ error, f.index = .error error := by
  rcases f with _ | ⟨x, hx⟩ | _
  · exact tryIntoInteger_of_neg negInf_lt_fin
  · rcases le_total x (1 / 2) with hhalf | hhalf
    · exact tryIntoInteger_of_neg (sub_one_neg hx hhalf)
    have hle : x ≤ 2 ^ 53 := by
      rcases h with hlt | hfrac
      · exact hlt.le.trans (by norm_num)
      · by_contra hgt
        obtain ⟨n, hn⟩ := exists_mul_pow_of_le hx 0 (not_le.mp hgt).le
        exact hfrac _ hn
    obtain ⟨hy, hpred⟩ := sub_one_of_le hx hhalf hle
    rw [index, hpred]
    rcases lt_or_ge x 1 with hlt | hge
    · exact tryIntoInteger_of_neg (fin_lt_fin.mpr (by rw [Int.cast_zero]; linarith))
    · have hfrac := h.resolve_left hge.not_gt
      refine tryIntoInteger_of_fraction (by linarith) (by linarith) fun n hn => hfrac (n + 1) ?_
      rw [Int.cast_add, ← hn, Int.cast_one, sub_add_cancel]
  · exact h.elim

theorem index_of_le {f : Double} {n : ℕ} (h : f.IsNat n) (h0 : 0 < n) (h1 : n ≤ 2 ^ 53) :
    f.index = .ok ((n - 1 : ℕ) : ℤ) := by
  obtain ⟨hx, rfl⟩ := h
  have hlo : (1 : ℚ) ≤ n := by exact_mod_cast h0
  have hhi : (n : ℚ) ≤ 2 ^ 53 := by exact_mod_cast h1
  obtain ⟨hy, hpred⟩ := sub_one_of_le hx (by linarith) hhi
  rw [index, hpred]
  refine tryIntoInteger_of_eq (by omega) (by unfold usizeMax; omega) ?_
  push_cast [Nat.cast_pred h0]
  rfl

/-- Numbers above 2^53 are even, and so are their indices. -/
theorem index_of_gt {f : Double} {n : ℕ} (h : f.IsNat n) (h0 : 2 ^ 53 < n) (h1 : n < 2 ^ 64) :
    Even n ∧ ∃ i : ℕ, f.index = .ok i ∧ Even i ∧ 2 ^ 53 ≤ i ∧ i ≤ n := by
  obtain ⟨hx, rfl⟩ := h
  have hgt : (2 ^ 53 : ℚ) < n := by exact_mod_cast h0
  obtain ⟨a, ha⟩ := exists_mul_pow_of_le hx 0 hgt.le
  have ha' : (n : ℤ) = a * 2 ^ (0 + 1) := by exact_mod_cast ha
  obtain ⟨y, hy, hpred, hlo, hhi⟩ := sub_one_of_gt hx hgt
  have hge : (2 ^ 53 + 2 : ℚ) ≤ n := by
    have hint : (2 ^ 53 + 2 : ℤ) ≤ n := by omega
    exact_mod_cast hint
  obtain ⟨b, rfl⟩ := exists_mul_pow_of_le hy 0 (by norm_num; linarith)
  have hlo' : (n : ℤ) - 2 ≤ b * 2 ^ (0 + 1) := by exact_mod_cast hlo
  have hhi' : b * 2 ^ (0 + 1) ≤ (n : ℤ) := by exact_mod_cast hhi
  have hb : ((b * 2 ^ (0 + 1)).toNat : ℤ) = b * 2 ^ (0 + 1) := Int.toNat_of_nonneg (by omega)
  refine ⟨⟨a.toNat, by omega⟩, (b * 2 ^ (0 + 1)).toNat, ?_, ⟨b.toNat, by omega⟩, by omega,
    by omega⟩
  rw [index, hpred, hb]
  exact tryIntoInteger_of_eq (by omega) (by unfold usizeMax; omega) rfl

/-- Near 2^58 numbers are multiples of 2^5, so that the index does not fall below it. -/
theorem index_of_ge {f : Double} {n : ℕ} (h : f.IsNat n) (h0 : 2 ^ 58 ≤ n) (h1 : n < 2 ^ 64) :
    ∃ i : ℕ, f.index = .ok i ∧ 2 ^ 58 ≤ i := by
  obtain ⟨hx, rfl⟩ := h
  have hge : (2 ^ 58 : ℚ) ≤ n := by exact_mod_cast h0
  obtain ⟨y, hy, hpred, hlo, hhi⟩ := sub_one_of_gt hx (by linarith)
  obtain ⟨b, rfl⟩ := exists_mul_pow_of_le hy 4 (by norm_num; linarith)
  have hlo' : (n : ℤ) - 2 ≤ b * 2 ^ (4 + 1) := by exact_mod_cast hlo
  have hhi' : b * 2 ^ (4 + 1) ≤ (n : ℤ) := by exact_mod_cast hhi
  have hb : ((b * 2 ^ (4 + 1)).toNat : ℤ) = b * 2 ^ (4 + 1) := Int.toNat_of_nonneg (by omega)
  refine ⟨(b * 2 ^ (4 + 1)).toNat, ?_, by omega⟩
  rw [index, hpred, hb]
  exact tryIntoInteger_of_eq (by omega) (by unfold usizeMax; omega) rfl

theorem index_two64 {f : Double} (h : f.IsNat (2 ^ 64)) : f.index = .ok usizeMax := by
  obtain ⟨hx, rfl⟩ := h
  obtain ⟨y, hy, hpred, hlo, hhi⟩ := sub_one_of_gt hx (by norm_num)
  obtain ⟨b, rfl⟩ := exists_mul_pow_of_le hy 10 (by norm_num at hlo ⊢; linarith)
  have hlo' : ((2 ^ 64 : ℕ) : ℤ) - 2 ≤ b * 2 ^ (10 + 1) := by exact_mod_cast hlo
  have hhi' : b * 2 ^ (10 + 1) ≤ ((2 ^ 64 : ℕ) : ℤ) := by exact_mod_cast hhi
  have hb : b * 2 ^ (10 + 1) = 2 ^ 64 := by omega
  rw [index, hpred]
  simp only [hb]
  exact tryIntoInteger_two64

theorem index_of_isAbove {f : Double} (h : f.IsAbove (2 ^ 64)) :
    ∃ error, f.index = .error error := by
  rcases f with _ | ⟨x, hx⟩ | _
  · exact h.elim
  · have hgt : (2 : ℚ) ^ 64 < x := by exact_mod_cast h
    obtain ⟨a, rfl⟩ := exists_mul_pow_of_le hx 11 hgt.le
    have ha : (2 : ℤ) ^ 64 < a * 2 ^ (11 + 1) := by exact_mod_cast hgt
    obtain ⟨y, hy, hpred, hlo, hhi⟩ := sub_one_of_gt hx (by linarith)
    have hge : ((2 ^ 64 + 4096 : ℤ) : ℚ) ≤ (a * 2 ^ (11 + 1) : ℤ) := by
      have hint : (2 ^ 64 + 4096 : ℤ) ≤ a * 2 ^ (11 + 1) := by omega
      exact_mod_cast hint
    rw [index, hpred]
    refine tryIntoInteger_of_gt (fin_lt_fin.mpr ?_)
    push_cast at hge hlo ⊢
    linarith
  · exact tryIntoInteger_of_gt fin_lt_posInf

/-- The numbers by what becomes of them as keys. -/
theorem isLow_or (f : Double) :
    f.IsLow ∨ (∃ n, 0 < n ∧ n < 2 ^ 58 ∧ f.IsNat n) ∨
      (∃ n, 2 ^ 58 ≤ n ∧ n ≤ 2 ^ 64 ∧ f.IsNat n) ∨ f.IsAbove (2 ^ 64) := by
  rcases f with _ | ⟨x, hx⟩ | _
  · exact .inl trivial
  · by_cases hlow : x < 1 ∨ ∀ n : ℤ, x ≠ n
    · exact .inl hlow
    push Not at hlow
    obtain ⟨hge, n, rfl⟩ := hlow
    have hpos : 1 ≤ n := by exact_mod_cast hge
    lift n to ℕ using by omega
    rcases lt_or_ge n (2 ^ 58) with hlt | hbig
    · exact .inr (.inl ⟨n, by omega, hlt, hx, rfl⟩)
    rcases le_or_gt n (2 ^ 64) with hle | hgt
    · exact .inr (.inr (.inl ⟨n, hbig, hle, hx, rfl⟩))
    · refine .inr (.inr (.inr ?_))
      change ((2 ^ 64 : ℕ) : ℚ) < ((n : ℤ) : ℚ)
      exact_mod_cast hgt
  · exact .inr (.inr (.inr trivial))

end Double
end OCRemote
