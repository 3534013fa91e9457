import Mathlib.Algebra.Order.Group.Abs
import Mathlib.Algebra.Order.Ring.Int
import OCRemote.Codec.LuaValue

/-! The conversions of `lua_value.rs` between values and the program's own types. -/

namespace OCRemote

def i16Max : ℤ := 2 ^ 15 - 1

def i16Min : ℤ := -2 ^ 15

def i32Max : ℤ := 2 ^ 31 - 1

def i32Min : ℤ := -2 ^ 31

def usizeMax : ℤ := 2 ^ 64 - 1

/-- A number as an `i32` cast leaves it. -/
def toI32 (n : ℤ) : ℤ := n.bmod (2 ^ 32)

theorem toI32_of_bounds {n : ℤ} (h0 : i32Min ≤ n) (h1 : n ≤ i32Max) : toI32 n = n := by
  simp only [i32Min, i32Max] at h0 h1
  simp only [toI32, Int.bmod]
  omega

theorem toI32_bounds (n : ℤ) : i32Min ≤ toI32 n ∧ toI32 n ≤ i32Max := by
  simp only [toI32, Int.bmod, i32Min, i32Max]
  omega

theorem toI32_add (m n : ℤ) : toI32 (toI32 m + toI32 n) = toI32 (m + n) := by
  rw [toI32, toI32, toI32, toI32, Int.bmod_add_bmod, Int.add_bmod_bmod]

theorem toI32_sub (m n : ℤ) : toI32 (toI32 m - n) = toI32 (m - n) := by
  rw [toI32, toI32, toI32, Int.bmod_sub_bmod]

theorem toI32_le {n : ℤ} (h : i32Min ≤ n) : toI32 n ≤ n := by
  simp only [i32Min] at h
  simp only [toI32, Int.bmod]
  omega

/-- A sum that is wrapped at each step is the sum wrapped once. -/
theorem foldl_toI32 {α : Type*} (f : α → ℤ) (l : List α) (n : ℤ) :
    l.foldl (fun n a => toI32 (n + toI32 (f a))) (toI32 n) = toI32 (n + (l.map f).sum) := by
  induction l generalizing n with
  | nil => simp
  | cons a l ih => rw [List.foldl_cons, toI32_add, ih, List.map_cons, List.sum_cons, add_assoc]

/-- The casts between `f64` and integers: `trunc` rounds towards zero and takes infinities beyond
all machine integers, `ofInt` rounds to the nearest number, and `pred` subtracts 1.0. -/
structure Conversion (ν : Type) where
  trunc : ν → ℤ
  ofInt : ℤ → ν
  pred : ν → ν
  trunc_ofInt : ∀ n, |n| ≤ 2 ^ 53 → trunc (ofInt n) = n
  pred_ofInt : ∀ n, 0 ≤ n → n < 2 ^ 53 → pred (ofInt (n + 1)) = ofInt n

/-- Numbers that are all whole. -/
def wholes : Conversion ℤ where
  trunc x := x
  ofInt n := n
  pred x := x - 1
  trunc_ofInt _ _ := rfl
  pred_ofInt n _ _ := Int.add_sub_cancel n 1

/-- The errors of the conversions, with the data their texts show. -/
inductive ConvertError (ν : Type) where
  | nonInteger (f : ν)
  | nonNumeric (value : Value ν)
  | nonString (value : Value ν)
  | nonBoolean (value : Value ν)
  | nonTable (value : Value ν)
  | nonNumericIndex (k : Key ν)
  | keyNotFound (key : String)

section
variable {ν : Type}

/-- The cast of a float to an integer type saturates at the bounds `lo` and `hi` of the type. -/
def tryIntoInteger [DecidableEq ν] (conv : Conversion ν) (lo hi : ℤ) (f : ν) :
    Except (ConvertError ν) ℤ :=
  let i := max lo (min hi (conv.trunc f))
  if conv.ofInt i = f then .ok i else .error (.nonInteger f)

namespace Value

def tryIntoNotNan : Value ν → Except (ConvertError ν) ν
  | .F result => .ok result
  | value => .error (.nonNumeric value)

def tryIntoI16 [DecidableEq ν] (conv : Conversion ν) (value : Value ν) :
    Except (ConvertError ν) ℤ :=
  value.tryIntoNotNan.bind (tryIntoInteger conv i16Min i16Max)

def tryIntoI32 [DecidableEq ν] (conv : Conversion ν) (value : Value ν) :
    Except (ConvertError ν) ℤ :=
  value.tryIntoNotNan.bind (tryIntoInteger conv i32Min i32Max)

def tryIntoStr : Value ν → Except (ConvertError ν) String
  | .S result => .ok result
  | value => .error (.nonString value)

def tryIntoBool : Value ν → Except (ConvertError ν) Bool
  | .B result => .ok result
  | value => .error (.nonBoolean value)

def tryIntoTable : Value ν → Except (ConvertError ν) (Table ν)
  | .T result => .ok result
  | value => .error (.nonTable value)

end Value

/-- `table_remove`: the value of the key as a `τ`, and the table without it. -/
def tableRemove [LinearOrder ν] {τ : Type} (tryInto : Value ν → Except (ConvertError ν) τ)
    (table : Table ν) (key : String) : Except (ConvertError ν) (τ × Table ν) :=
  match table.lookup (.S key) with
  | none => .error (.keyNotFound key)
  | some value => (tryInto value).map fun x => (x, OrderedMap.erase (.S key) table)

/-- `vec_to_table`. -/
def vecToTable [LinearOrder ν] (conv : Conversion ν) (vec : List (Value ν)) : Table ν :=
  vec.zipIdx.foldl
    (fun result (x, i) => OrderedMap.insert (.F (conv.ofInt ((i + 1 : ℕ) : ℤ))) x result) []

/-- One turn of the loop of `table_to_vec`. That memory runs out for a great index is left out. -/
def tableToVecStep [DecidableEq ν] (conv : Conversion ν) (result : List (Value ν)) :
    Key ν × Value ν → Except (ConvertError ν) (List (Value ν))
  | (.F k, v) =>
    (tryIntoInteger conv 0 usizeMax (conv.pred k)).map fun i =>
      (result.rightpad (i.toNat + 1) .N).set i.toNat v
  | (k, _) => .error (.nonNumericIndex k)

/-- `table_to_vec`. -/
def tableToVec [DecidableEq ν] (conv : Conversion ν) (table : Table ν) :
    Except (ConvertError ν) (List (Value ν)) :=
  table.foldlM (tableToVecStep conv) []

/-! A conversion succeeds on the values converted the other way, and on no others. -/

theorem tryIntoInteger_ofInt [DecidableEq ν] {conv : Conversion ν} {lo hi n : ℤ} (hlo : lo ≤ n)
    (hhi : n ≤ hi) (habs : |n| ≤ 2 ^ 53) : tryIntoInteger conv lo hi (conv.ofInt n) = .ok n := by
  have hcast : max lo (min hi (conv.trunc (conv.ofInt n))) = n := by
    rw [conv.trunc_ofInt n habs, min_eq_right hhi, max_eq_right hlo]
  simp only [tryIntoInteger, hcast, if_true]

theorem tryIntoInteger_eq_ok [DecidableEq ν] {conv : Conversion ν} {lo hi : ℤ} (hle : lo ≤ hi)
    (hlo : -2 ^ 53 ≤ lo) (hhi : hi ≤ 2 ^ 53) {f : ν} {n : ℤ} :
    tryIntoInteger conv lo hi f = .ok n ↔ (lo ≤ n ∧ n ≤ hi) ∧ f = conv.ofInt n := by
  constructor
  · intro h
    simp only [tryIntoInteger] at h
    split_ifs at h with heq
    obtain rfl := Except.ok.inj h
    exact ⟨⟨le_max_left .., max_le hle (min_le_left ..)⟩, heq.symm⟩
  · rintro ⟨⟨hn₀, hn₁⟩, rfl⟩
    exact tryIntoInteger_ofInt hn₀ hn₁ (abs_le.mpr ⟨hlo.trans hn₀, hn₁.trans hhi⟩)

namespace Value

theorem tryIntoNotNan_bind_eq_ok [DecidableEq ν] {conv : Conversion ν} {lo hi : ℤ} (hle : lo ≤ hi)
    (hlo : -2 ^ 53 ≤ lo) (hhi : hi ≤ 2 ^ 53) {v : Value ν} {n : ℤ} :
    v.tryIntoNotNan.bind (tryIntoInteger conv lo hi) = .ok n ↔
      (lo ≤ n ∧ n ≤ hi) ∧ v = .F (conv.ofInt n) := by
  cases v with
  | F x =>
    have hinteger := @tryIntoInteger_eq_ok ν _ conv lo hi hle hlo hhi x n
    simpa [tryIntoNotNan, Except.bind] using hinteger
  | N | S x | B x | T x => simp [tryIntoNotNan, Except.bind]

theorem tryIntoI16_eq_ok [DecidableEq ν] {conv : Conversion ν} {v : Value ν} {n : ℤ} :
    v.tryIntoI16 conv = .ok n ↔ (i16Min ≤ n ∧ n ≤ i16Max) ∧ v = .F (conv.ofInt n) :=
  tryIntoNotNan_bind_eq_ok (by decide) (by decide) (by decide)

theorem tryIntoI32_eq_ok [DecidableEq ν] {conv : Conversion ν} {v : Value ν} {n : ℤ} :
    v.tryIntoI32 conv = .ok n ↔ (i32Min ≤ n ∧ n ≤ i32Max) ∧ v = .F (conv.ofInt n) :=
  tryIntoNotNan_bind_eq_ok (by decide) (by decide) (by decide)

theorem tryIntoStr_eq_ok {v : Value ν} {x : String} : v.tryIntoStr = .ok x ↔ v = .S x := by
  cases v <;> simp [tryIntoStr]

theorem tryIntoBool_eq_ok {v : Value ν} {x : Bool} : v.tryIntoBool = .ok x ↔ v = .B x := by
  cases v <;> simp [tryIntoBool]

end Value

theorem tableRemove_bind_eq_ok [LinearOrder ν] {τ υ : Type}
    {tryInto : Value ν → Except (ConvertError ν) τ} {table : Table ν} {key : String}
    {f : τ × Table ν → Except (ConvertError ν) υ} {y : υ} :
    tableRemove tryInto table key >>= f = .ok y ↔
      ∃ x, (∃ value, table.lookup (.S key) = some value ∧ tryInto value = .ok x) ∧
        f (x, OrderedMap.erase (.S key) table) = .ok y := by
  unfold tableRemove
  cases table.lookup (.S key) with
  | none => simp [bind, Except.bind]
  | some value => cases hinto : tryInto value <;> simp [bind, Except.bind, Except.map, hinto]

/-! A table whose keys are positions counted from one becomes the vector that has its values at
these positions, whatever is between them. -/

/-- The key of position `i`. -/
def positionKey (conv : Conversion ν) (i : ℕ) : Key ν := .F (conv.ofInt ((i + 1 : ℕ) : ℤ))

theorem Conversion.ofInt_inj {conv : Conversion ν} {i j : ℕ} (hi : i ≤ 2 ^ 53) (hj : j ≤ 2 ^ 53)
    (h : conv.ofInt (i : ℕ) = conv.ofInt (j : ℕ)) : i = j := by
  have habs : ∀ k : ℕ, k ≤ 2 ^ 53 → |(k : ℤ)| ≤ 2 ^ 53 := fun k hk =>
    abs_le.mpr ⟨by omega, by omega⟩
  have htrunc := congrArg conv.trunc h
  rw [conv.trunc_ofInt _ (habs i hi), conv.trunc_ofInt _ (habs j hj)] at htrunc
  exact_mod_cast htrunc

theorem positionKey_inj {conv : Conversion ν} {i j : ℕ} (hi : i < 2 ^ 53) (hj : j < 2 ^ 53)
    (h : positionKey conv i = positionKey conv j) : i = j :=
  Nat.succ_injective (Conversion.ofInt_inj hi hj (Key.F.inj h))

theorem tableToVecStep_position [DecidableEq ν] {conv : Conversion ν} {i : ℕ} (hi : i < 2 ^ 53)
    (vec : List (Value ν)) (v : Value ν) :
    tableToVecStep conv vec (positionKey conv i, v) =
      .ok ((vec.rightpad (i + 1) .N).set i v) := by
  have hpred : conv.pred (conv.ofInt ((i + 1 : ℕ) : ℤ)) = conv.ofInt i := by
    rw [Nat.cast_succ]
    exact conv.pred_ofInt i (by omega) (by omega)
  have habs : |(i : ℤ)| ≤ 2 ^ 53 := abs_le.mpr ⟨by omega, by omega⟩
  have hcast : tryIntoInteger conv 0 usizeMax (conv.ofInt i) = .ok (i : ℤ) :=
    tryIntoInteger_ofInt (by omega) (by unfold usizeMax; omega) habs
  simp only [positionKey, tableToVecStep, hpred, hcast, Except.map, Int.toNat_natCast]

theorem length_rightpad_set (vec : List (Value ν)) (v : Value ν) (i : ℕ) :
    ((vec.rightpad (i + 1) .N).set i v).length = max (i + 1) vec.length := by
  rw [List.length_set, List.rightpad, List.length_append, List.length_replicate]
  omega

theorem getD_rightpad_set (vec : List (Value ν)) (v : Value ν) (i j : ℕ) :
    (((vec.rightpad (i + 1) .N).set i v)[j]?).getD .N = if j = i then v else (vec[j]?).getD .N := by
  split_ifs with hj
  · subst hj
    have hlen : j < (vec.rightpad (j + 1) Value.N).length := by
      have hmax := length_rightpad_set vec v j
      rw [List.length_set] at hmax
      omega
    rw [List.getElem?_set_self hlen, Option.getD_some]
  · rw [List.getElem?_set_ne (Ne.symm hj), List.rightpad]
    rcases lt_or_ge j vec.length with hlt | hge
    · rw [List.getElem?_append_left hlt]
    · -- padding is what is read past the end
      rw [List.getElem?_append_right hge, List.getElem?_eq_none hge, List.getElem?_replicate]
      split_ifs <;> rfl

theorem foldlM_tableToVecStep [LinearOrder ν] {conv : Conversion ν} {n : ℕ} (hn : n ≤ 2 ^ 53)
    {table : Table ν} (hkeys : ∀ e ∈ table, ∃ i < n, e.1 = positionKey conv i)
    (hnodup : (table.map Prod.fst).Nodup) {vec : List (Value ν)} (hvec : vec.length ≤ n) :
    ∃ vec', table.foldlM (tableToVecStep conv) vec = .ok vec' ∧
      vec.length ≤ vec'.length ∧ vec'.length ≤ n ∧
      (∀ i < n, positionKey conv i ∈ table.map Prod.fst → i < vec'.length) ∧
      ∀ j < n, (vec'[j]?).getD .N =
        (table.lookup (positionKey conv j)).getD ((vec[j]?).getD .N) := by
  induction table generalizing vec with
  | nil => exact ⟨vec, rfl, le_rfl, hvec, by simp, by simp⟩
  | cons e table ih =>
    obtain ⟨⟨i, hi, hkey⟩, hrest⟩ := List.forall_mem_cons.mp hkeys
    obtain ⟨hnew, hfresh⟩ := List.nodup_cons.mp hnodup
    obtain ⟨k, v⟩ := e
    obtain rfl : k = positionKey conv i := hkey
    have hlen := length_rightpad_set vec v i
    have hvec' : ((vec.rightpad (i + 1) .N).set i v).length ≤ n := by omega
    obtain ⟨vec', hrun, hle, hle', hreach, hread⟩ := ih hrest hfresh hvec'
    refine ⟨vec', ?_, by omega, hle', fun j hj hmem => ?_, fun j hj => ?_⟩
    · rw [List.foldlM_cons, tableToVecStep_position (by omega)]
      exact hrun
    · rcases List.mem_cons.mp hmem with heq | hmem
      · obtain rfl := positionKey_inj (by omega) (by omega) heq
        omega
      · exact hreach j hj hmem
    · rw [hread j hj, OrderedMap.lookup_cons_ite, getD_rightpad_set]
      by_cases hji : j = i
      · subst hji
        have hnone : table.lookup (positionKey conv j) = none := OrderedMap.lookup_eq_none.mpr hnew
        rw [hnone, if_pos rfl, if_pos rfl, Option.getD_none, Option.getD_some]
      · have hne : positionKey conv j ≠ positionKey conv i := fun heq =>
          hji (positionKey_inj (by omega) (by omega) heq)
        rw [if_neg hji, if_neg hne]

/-- The vector ends at the last position that is a key. -/
theorem tableToVec_positions [LinearOrder ν] {conv : Conversion ν} {n : ℕ} (hn : n ≤ 2 ^ 53)
    {table : Table ν} (hkeys : ∀ e ∈ table, ∃ i < n, e.1 = positionKey conv i)
    (hnodup : (table.map Prod.fst).Nodup)
    (hlast : ∀ i, n = i + 1 → positionKey conv i ∈ table.map Prod.fst) :
    ∃ vec, tableToVec conv table = .ok vec ∧ vec.length = n ∧
      ∀ i < n, vec[i]? = some ((table.lookup (positionKey conv i)).getD .N) := by
  have hempty : ([] : List (Value ν)).length ≤ n := Nat.zero_le n
  obtain ⟨vec, hrun, -, hle, hreach, hread⟩ := foldlM_tableToVecStep hn hkeys hnodup hempty
  have hlen : vec.length = n := by
    cases n with
    | zero => omega
    | succ i =>
      have hi := hreach i (by omega) (hlast i rfl)
      omega
  refine ⟨vec, hrun, hlen, fun i hi => ?_⟩
  have hi' : i < vec.length := by omega
  have hgetD := hread i hi
  rw [List.getElem?_eq_getElem hi', Option.getD_some] at hgetD
  rw [List.getElem?_eq_getElem hi', hgetD, List.getElem?_nil, Option.getD_none]

end
end OCRemote
