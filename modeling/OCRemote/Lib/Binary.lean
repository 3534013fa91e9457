import Mathlib.Algebra.Order.Round
import Mathlib.Data.Int.Log
import Mathlib.Data.Rat.Floor
import Mathlib.Order.WithBot
import Mathlib.Tactic.Linarith
import Mathlib.Tactic.Ring

/-! Binary floating point: the numbers are exact rationals and infinities, and results are rounded
to the nearest number. -/

namespace OCRemote

/-- The nearest integer, of two the even one. -/
def roundEven (q : ℚ) : ℤ := if Int.fract q = 1 / 2 ∧ Even ⌊q⌋ then ⌊q⌋ else round q

theorem abs_roundEven_sub_le (q : ℚ) (n : ℤ) : |roundEven q - q| ≤ |n - q| := by
  have hround : |q - round q| ≤ |n - q| := by
    rw [abs_sub_comm (n : ℚ)]
    exact round_le q n
  unfold roundEven
  split_ifs with htie
  · -- halfway, both neighbours are equally far
    obtain ⟨hhalf, -⟩ := htie
    have hfloor : |(⌊q⌋ : ℚ) - q| = 1 / 2 := by
      rw [abs_sub_comm, Int.self_sub_floor, hhalf, abs_of_pos (by norm_num)]
    have hmin : |q - round q| = 1 / 2 := by
      rw [abs_sub_round_eq_min, hhalf]
      norm_num
    rw [hfloor, ← hmin]
    exact hround
  · rw [abs_sub_comm]
    exact hround

/-- Numbers of `precision` binary digits that are multiples of `2 ^ minExp`, the finite ones of
which lie below `2 ^ maxExp`. -/
structure Format where
  precision : ℕ
  minExp : ℤ
  maxExp : ℕ
  precision_pos : 0 < precision
  minExp_nonpos : minExp ≤ 0
  precision_lt : precision < maxExp

namespace Format
variable {fmt : Format}

def Exact (fmt : Format) (q : ℚ) : Prop :=
  ∃ m e : ℤ, fmt.minExp ≤ e ∧ |m| < 2 ^ fmt.precision ∧ q = m * 2 ^ e

def Finite (fmt : Format) (q : ℚ) : Prop := fmt.Exact q ∧ |q| < 2 ^ fmt.maxExp

/-- The exponent of the last digit of a number near `q`. -/
def exponent (fmt : Format) (q : ℚ) : ℤ := max fmt.minExp (Int.log 2 |q| + 1 - fmt.precision)

/-- The nearest number if there were no greatest one. -/
def round (fmt : Format) (q : ℚ) : ℚ := roundEven (q / 2 ^ fmt.exponent q) * 2 ^ fmt.exponent q

theorem abs_roundEven_mul_sub_le (q : ℚ) (n e : ℤ) :
    |roundEven (q / 2 ^ e) * 2 ^ e - q| ≤ |n * 2 ^ e - q| := by
  have hpos : (0 : ℚ) < 2 ^ e := zpow_pos two_pos e
  have hscale : ∀ a : ℚ, |a * 2 ^ e - q| = |a - q / 2 ^ e| * 2 ^ e := fun a => by
    rw [← abs_of_pos hpos, ← abs_mul, abs_of_pos hpos, sub_mul, div_mul_cancel₀ q hpos.ne']
  rw [hscale, hscale]
  exact mul_le_mul_of_nonneg_right (abs_roundEven_sub_le _ n) hpos.le

/-- Between a number and `q` lies a multiple that is nearer to `q`. -/
theorem abs_roundEven_mul_sub_le_of_abs_le {q d : ℚ} {n e : ℤ} (hd : |d| ≤ n * 2 ^ e)
    (hq : n * 2 ^ e ≤ |q|) : |roundEven (q / 2 ^ e) * 2 ^ e - q| ≤ |d - q| := by
  obtain ⟨hlower, hupper⟩ := abs_le.mp hd
  rcases le_total 0 q with hsign | hsign
  · rw [abs_of_nonneg hsign] at hq
    refine (abs_roundEven_mul_sub_le q n e).trans ?_
    rw [abs_of_nonpos (sub_nonpos.mpr hq), abs_of_nonpos (sub_nonpos.mpr (hupper.trans hq))]
    linarith
  · rw [abs_of_nonpos hsign] at hq
    refine (abs_roundEven_mul_sub_le q (-n) e).trans ?_
    push_cast
    rw [abs_of_nonneg (by linarith), abs_of_nonneg (by linarith)]
    linarith

theorem abs_lt_zpow {m e : ℤ} {p : ℕ} (hm : |m| < 2 ^ p) : |(m * 2 ^ e : ℚ)| < 2 ^ (p + e) := by
  have hpos : (0 : ℚ) < 2 ^ e := zpow_pos two_pos e
  have hcast : |(m : ℚ)| < 2 ^ p := by exact_mod_cast hm
  rw [abs_mul, abs_of_pos hpos, zpow_add₀ two_ne_zero, zpow_natCast]
  exact mul_lt_mul_of_pos_right hcast hpos

theorem mul_zpow_of_le {m e e' : ℤ} (h : e ≤ e') :
    (m * 2 ^ e' : ℚ) = (m * 2 ^ (e' - e).toNat : ℤ) * 2 ^ e := by
  have hexp : e' = (e' - e).toNat + e := by omega
  push_cast
  rw [mul_assoc, ← zpow_natCast, ← zpow_add₀ two_ne_zero, ← hexp]

theorem abs_round_sub_le {q d : ℚ} (hd : fmt.Exact d) : |fmt.round q - q| ≤ |d - q| := by
  obtain ⟨m, e, hmin, hm, rfl⟩ := hd
  unfold round
  rcases le_or_gt (fmt.exponent q) e with hle | hgt
  · rw [mul_zpow_of_le hle]
    exact abs_roundEven_mul_sub_le q _ _
  rcases eq_or_ne q 0 with rfl | hne
  · have hzero := abs_roundEven_mul_sub_le 0 0 (fmt.exponent 0)
    have heq : |((0 : ℤ) : ℚ) * 2 ^ fmt.exponent 0 - 0| = 0 := by simp
    exact (hzero.trans heq.le).trans (abs_nonneg _)
  -- a number of a smaller exponent is below the power of two below `q`
  have hexp : fmt.exponent q = Int.log 2 |q| + 1 - fmt.precision := by
    unfold exponent at hgt ⊢
    omega
  have hlow : (2 : ℚ) ^ (fmt.precision - 1 + fmt.exponent q) ≤ |q| := by
    have hlog := Int.zpow_log_le_self one_lt_two (abs_pos.mpr hne)
    have hdigits : fmt.precision - 1 + fmt.exponent q = Int.log 2 |q| := by omega
    rwa [hdigits]
  have hsmall : |(m * 2 ^ e : ℚ)| ≤ 2 ^ (fmt.precision - 1 + fmt.exponent q) :=
    (abs_lt_zpow hm).le.trans (zpow_le_zpow_right₀ one_le_two (by omega))
  have hpower : (2 : ℚ) ^ (fmt.precision - 1 + fmt.exponent q) =
      ((2 ^ (fmt.precision - 1) : ℤ) : ℚ) * 2 ^ fmt.exponent q := by
    rw [zpow_add₀ two_ne_zero, ← Nat.cast_pred fmt.precision_pos, zpow_natCast]
    push_cast
    rfl
  rw [hpower] at hlow hsmall
  exact abs_roundEven_mul_sub_le_of_abs_le hsmall hlow

theorem round_eq_self {q : ℚ} (h : fmt.Exact q) : fmt.round q = q := by
  have hnear := @abs_round_sub_le fmt q q h
  rw [sub_self, abs_zero] at hnear
  exact sub_eq_zero.mp (abs_nonpos_iff.mp hnear)

theorem exact_mul_zpow {m e : ℤ} (hmin : fmt.minExp ≤ e) (hm : |m| ≤ 2 ^ fmt.precision) :
    fmt.Exact (m * 2 ^ e) := by
  rcases hm.lt_or_eq with hlt | heq
  · exact ⟨m, e, hmin, hlt, rfl⟩
  -- the power of two itself has one digit
  have hhalf : (2 : ℤ) ^ fmt.precision = 2 * 2 ^ (fmt.precision - 1) := by
    rw [← pow_succ', Nat.sub_add_cancel fmt.precision_pos]
  have hpos : (0 : ℤ) < 2 ^ (fmt.precision - 1) := pow_pos two_pos _
  have hdouble : ∀ a : ℚ, a * 2 ^ (e + 1) = 2 * a * 2 ^ e := fun a => by
    rw [zpow_add_one₀ two_ne_zero]
    ring
  rcases abs_cases m with ⟨habs, -⟩ | ⟨habs, -⟩
  · refine ⟨2 ^ (fmt.precision - 1), e + 1, by omega, ?_, ?_⟩
    · rw [abs_of_pos hpos, hhalf]
      omega
    · rw [hdouble, ← habs, heq, hhalf]
      push_cast
      ring
  · refine ⟨-2 ^ (fmt.precision - 1), e + 1, by omega, ?_, ?_⟩
    · rw [abs_neg, abs_of_pos hpos, hhalf]
      omega
    · have hm' : m = -(2 * 2 ^ (fmt.precision - 1)) := by omega
      rw [hdouble, hm']
      push_cast
      ring

theorem exact_round (q : ℚ) : fmt.Exact (fmt.round q) := by
  have hpos : (0 : ℚ) < 2 ^ fmt.exponent q := zpow_pos two_pos _
  refine exact_mul_zpow (le_max_left _ _) ?_
  -- `q` is below the power of two, which is an integer of these units
  have hlt : |q / 2 ^ fmt.exponent q| < 2 ^ fmt.precision := by
    rw [abs_div, abs_of_pos hpos, div_lt_iff₀ hpos, ← zpow_natCast, ← zpow_add₀ two_ne_zero]
    refine (Int.lt_zpow_succ_log_self one_lt_two |q|).trans_le ?_
    refine zpow_le_zpow_right₀ one_le_two ?_
    have hmax := le_max_right fmt.minExp (Int.log 2 |q| + 1 - fmt.precision)
    unfold exponent
    omega
  obtain ⟨hlo, hhi⟩ := abs_lt.mp hlt
  have hupper := abs_roundEven_sub_le (q / 2 ^ fmt.exponent q) (2 ^ fmt.precision)
  have hlower := abs_roundEven_sub_le (q / 2 ^ fmt.exponent q) (-2 ^ fmt.precision)
  push_cast at hupper hlower
  rw [abs_of_pos (sub_pos.mpr hhi)] at hupper
  rw [abs_of_neg (sub_neg.mpr hlo)] at hlower
  have hle : (roundEven (q / 2 ^ fmt.exponent q) : ℚ) ≤ 2 ^ fmt.precision := by
    linarith [le_abs_self ((roundEven (q / 2 ^ fmt.exponent q) : ℚ) - q / 2 ^ fmt.exponent q)]
  have hge : -2 ^ fmt.precision ≤ (roundEven (q / 2 ^ fmt.exponent q) : ℚ) := by
    linarith [neg_le_abs ((roundEven (q / 2 ^ fmt.exponent q) : ℚ) - q / 2 ^ fmt.exponent q)]
  exact abs_le.mpr ⟨by exact_mod_cast hge, by exact_mod_cast hle⟩

theorem exact_intCast {n : ℤ} (h : |n| ≤ 2 ^ fmt.precision) : fmt.Exact n := by
  have hexact := exact_mul_zpow fmt.minExp_nonpos h
  rwa [zpow_zero, mul_one] at hexact

/-- The greater a number is, the more powers of two divide it. -/
theorem Exact.exists_mul_pow {x : ℚ} (h : fmt.Exact x) {k : ℕ}
    (hk : 2 ^ (fmt.precision + k) ≤ |x|) : ∃ n : ℤ, x = (n * 2 ^ (k + 1) : ℤ) := by
  obtain ⟨m, e, -, hm, rfl⟩ := h
  have hlt := hk.trans_lt (abs_lt_zpow hm)
  rw [← zpow_natCast, zpow_lt_zpow_iff_right₀ one_lt_two] at hlt
  refine ⟨m * 2 ^ (e - (k + 1 : ℕ)).toNat, ?_⟩
  have hle : ((k + 1 : ℕ) : ℤ) ≤ e := by omega
  rw [mul_zpow_of_le hle, zpow_natCast]
  push_cast
  rfl

theorem Exact.sub_one {x : ℚ} (h : fmt.Exact x) (hlo : 1 / 2 ≤ x) (hhi : x ≤ 2 ^ fmt.precision) :
    fmt.Exact (x - 1) := by
  obtain ⟨m, e, hmin, hm, rfl⟩ := h
  rcases le_total e 0 with he | he
  · -- one is a multiple of the unit of `x`
    have hgap : -(fmt.precision : ℤ) ≤ e := by
      have hlt := hlo.trans_lt ((le_abs_self _).trans_lt (abs_lt_zpow hm))
      have hhalf : (1 / 2 : ℚ) = 2 ^ (-1 : ℤ) := by norm_num
      rw [hhalf, zpow_lt_zpow_iff_right₀ one_lt_two] at hlt
      omega
    have hone : (1 : ℚ) = ((2 ^ (-e).toNat : ℤ) : ℚ) * 2 ^ e := by
      have hscale := @mul_zpow_of_le 1 e 0 he
      rw [zero_sub, one_mul, zpow_zero, Int.cast_one, one_mul] at hscale
      exact hscale
    have hle : (2 : ℤ) ^ (-e).toNat ≤ 2 ^ fmt.precision :=
      pow_le_pow_right₀ one_le_two (by omega)
    have hpos : (0 : ℤ) < 2 ^ (-e).toNat := pow_pos two_pos _
    have hm0 : 0 < m := by
      have hprod : (0 : ℚ) < m * 2 ^ e := by linarith
      exact_mod_cast pos_of_mul_pos_left hprod (zpow_pos two_pos e).le
    refine ⟨m - 2 ^ (-e).toNat, e, hmin, ?_, ?_⟩
    · rw [abs_of_pos hm0] at hm
      exact abs_lt.mpr ⟨by omega, by omega⟩
    · push_cast at hone ⊢
      rw [sub_mul, ← hone]
  · -- `x` is an integer
    have hint := @mul_zpow_of_le m 0 e he
    rw [zpow_zero, mul_one] at hint
    rw [hint] at hlo hhi ⊢
    have hlo' : (0 : ℤ) < m * 2 ^ (e - 0).toNat := by
      have hpos : (0 : ℚ) < (m * 2 ^ (e - 0).toNat : ℤ) := by linarith
      exact_mod_cast hpos
    have hhi' : m * 2 ^ (e - 0).toNat ≤ 2 ^ fmt.precision := by exact_mod_cast hhi
    have hsub := @exact_intCast fmt (m * 2 ^ (e - 0).toNat - 1) (abs_le.mpr ⟨by omega, by omega⟩)
    rwa [Int.cast_sub, Int.cast_one] at hsub

theorem finite_intCast {n : ℤ} (h : |n| ≤ 2 ^ fmt.precision) : fmt.Finite n := by
  refine ⟨exact_intCast h, ?_⟩
  have hlt : |n| < 2 ^ fmt.maxExp := h.trans_lt (pow_lt_pow_right₀ one_lt_two fmt.precision_lt)
  exact_mod_cast hlt

theorem finite_round {q : ℚ} (h : |fmt.round q| < 2 ^ fmt.maxExp) : fmt.Finite (fmt.round q) :=
  ⟨exact_round q, h⟩

end Format

/-- The numbers of a format, both zeros as one. -/
inductive Number (fmt : Format) where
  | negInf
  | fin (x : ℚ) (h : fmt.Finite x)
  | posInf

namespace Number
variable {fmt : Format}

def rank : Number fmt → WithBot (WithTop ℚ)
  | negInf => ⊥
  | fin x _ => ((x : WithTop ℚ) : WithBot (WithTop ℚ))
  | posInf => ((⊤ : WithTop ℚ) : WithBot (WithTop ℚ))

theorem rank_injective : Function.Injective (rank : Number fmt → _) := by
  rintro (_ | ⟨x, hx⟩ | _) (_ | ⟨y, hy⟩ | _) h <;> simp_all [rank]

instance : LinearOrder (Number fmt) := LinearOrder.lift' rank rank_injective

theorem fin_lt_fin {x y : ℚ} {hx : fmt.Finite x} {hy : fmt.Finite y} :
    fin x hx < fin y hy ↔ x < y := by
  change rank (fin x hx) < rank (fin y hy) ↔ x < y
  rw [rank, rank, WithBot.coe_lt_coe, WithTop.coe_lt_coe]

theorem negInf_lt_fin {x : ℚ} {h : fmt.Finite x} : negInf < fin x h := by
  change ⊥ < rank (fin x h)
  rw [rank]
  exact WithBot.bot_lt_coe _

theorem fin_lt_posInf {x : ℚ} {h : fmt.Finite x} : fin x h < posInf := by
  change rank (fin x h) < rank posInf
  rw [rank, rank, WithBot.coe_lt_coe]
  exact WithTop.coe_lt_top x

theorem not_lt_negInf (f : Number fmt) : ¬f < negInf := by
  change ¬rank f < ⊥
  exact not_lt_bot

theorem not_posInf_lt (f : Number fmt) : ¬posInf < f := by
  change ¬((⊤ : WithTop ℚ) : WithBot (WithTop ℚ)) < rank f
  exact not_top_lt

/-- The number nearest to a rational, an infinity beyond the greatest. -/
def ofRat (q : ℚ) : Number fmt :=
  if h : |fmt.round q| < 2 ^ fmt.maxExp then .fin (fmt.round q) (Format.finite_round h)
  else if 0 < q then .posInf else .negInf

/-- The difference to a finite number. -/
def sub (f : Number fmt) (y : ℚ) : Number fmt :=
  match f with
  | negInf => negInf
  | fin x _ => ofRat (x - y)
  | posInf => posInf

/-- The integer part, that of an infinity beyond all numbers. -/
def trunc : Number fmt → ℤ
  | negInf => -2 ^ fmt.maxExp
  | fin x _ => if 0 ≤ x then ⌊x⌋ else ⌈x⌉
  | posInf => 2 ^ fmt.maxExp

theorem ofRat_of_finite {q : ℚ} (h : fmt.Finite q) : ofRat q = fin q h := by
  have hround := Format.round_eq_self h.1
  have hlt : |fmt.round q| < 2 ^ fmt.maxExp := by rw [hround]; exact h.2
  rw [ofRat, dif_pos hlt]
  congr

theorem ofRat_of_abs_lt {q : ℚ} (h : |fmt.round q| < 2 ^ fmt.maxExp) :
    ofRat q = fin (fmt.round q) (Format.finite_round h) := dif_pos h

theorem trunc_of_eq {x : ℚ} {h : fmt.Finite x} {n : ℤ} (hx : x = n) : (fin x h).trunc = n := by
  subst hx
  rw [trunc, Int.floor_intCast, Int.ceil_intCast, ite_self]

end Number
end OCRemote
