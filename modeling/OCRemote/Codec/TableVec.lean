import OCRemote.Codec.Double

/-! `table_to_vec` on every table that a client can send. Its keys are any doubles, strings and
booleans, and an index that no vector can have ends the server. -/

namespace OCRemote

section
variable {ν : Type} [DecidableEq ν] (conv : Conversion ν)

/-- How many values of 32 bytes are not more than `isize::MAX` bytes. -/
def maxCapacity : ℤ := (2 ^ 63 - 1) / 32

/-- `resize_with` panics, as no vector has room for the index, or `i + 1` overflows. Where this
wraps around the vector becomes empty, and the index is out of its range. -/
def resizePanics (result : List (Value ν)) : Key ν → Bool
  | .F k =>
    match tryIntoInteger conv 0 usizeMax (conv.pred k) with
    | .ok i => result.length ≤ i && maxCapacity < i + 1
    | .error _ => false
  | _ => false

/-- The loop of `table_to_vec` from some vector on, `none` for a panic. There is memory for any
vector of at most `maxCapacity` values. -/
def tableToVecFrom :
    List (Value ν) → Table ν → Option (Except (ConvertError ν) (List (Value ν)))
  | result, [] => some (.ok result)
  | result, e :: table =>
    if resizePanics conv result e.1 then none
    else
      match tableToVecStep conv result e with
      | .error error => some (.error error)
      | .ok result => tableToVecFrom result table

variable {conv}

theorem tableToVecFrom_cons {vec vec' : List (Value ν)} {e : Key ν × Value ν} {table : Table ν}
    (hindex : resizePanics conv vec e.1 = false) (hstep : tableToVecStep conv vec e = .ok vec') :
    tableToVecFrom conv vec (e :: table) = tableToVecFrom conv vec' table := by
  rw [tableToVecFrom, hindex, hstep]
  rfl

theorem tableToVecFrom_error {vec : List (Value ν)} {e : Key ν × Value ν} {table : Table ν}
    {error : ConvertError ν} (hindex : resizePanics conv vec e.1 = false)
    (hstep : tableToVecStep conv vec e = .error error) :
    tableToVecFrom conv vec (e :: table) = some (.error error) := by
  rw [tableToVecFrom, hindex, hstep]
  rfl

/-- Where every index has room the loop is that of the conversion. -/
theorem tableToVecFrom_eq_foldlM {table : Table ν}
    (h : ∀ e ∈ table, ∀ vec, resizePanics conv vec e.1 = false) (vec : List (Value ν)) :
    tableToVecFrom conv vec table = some (table.foldlM (tableToVecStep conv) vec) := by
  induction table generalizing vec with
  | nil => rfl
  | cons e table ih =>
    obtain ⟨hindex, hrest⟩ := List.forall_mem_cons.mp h
    rw [List.foldlM_cons]
    cases hstep : tableToVecStep conv vec e with
    | error error => exact tableToVecFrom_error (hindex vec) hstep
    | ok vec' =>
      rw [tableToVecFrom_cons (hindex vec) hstep]
      exact ih hrest vec'

end

namespace Key

/-- A number below one or with a fraction. -/
def IsLow : Key Double → Prop
  | F f => f.IsLow
  | _ => False

def IsNat : Key Double → ℕ → Prop
  | F f, n => f.IsNat n
  | _, _ => False

/-- In a table the key comes after the number. -/
def IsAbove (b : ℕ) : Key Double → Prop
  | F f => f.IsAbove b
  | _ => True

end Key

/-- The values of the vector are those of the table at its positions, and all its keys are
positions. -/
structure Represents (table : Table Double) (vec : List (Value Double)) : Prop where
  positions : ∀ e ∈ table, ∃ n, 0 < n ∧ e.1.IsNat n
  le_length : ∀ e ∈ table, ∀ n, e.1.IsNat n → n ≤ vec.length
  length_mem : vec = [] ∨ ∃ e ∈ table, e.1.IsNat vec.length
  value : ∀ e ∈ table, ∀ i, e.1.IsNat (i + 1) → vec[i]? = some e.2
  padding : ∀ i < vec.length, (∀ e ∈ table, ¬e.1.IsNat (i + 1)) → vec[i]? = some .N

/-- The conversion does not panic, and what it returns represents the table. -/
def ConvertsRight (table : Table Double) : Prop :=
  ∃ result, tableToVecFrom Double.conv [] table = some result ∧
    ∀ vec, result = .ok vec → Represents table vec

/-- Some key is below one or has a fraction; or none is from 2^58 to 2^64, and some key comes after
these or none after 2^53. -/
def IndicesExact (table : Table Double) : Prop :=
  (∃ e ∈ table, e.1.IsLow) ∨
    (∀ e ∈ table, ∀ n, 2 ^ 58 ≤ n → n ≤ 2 ^ 64 → ¬e.1.IsNat n) ∧
      ((∃ e ∈ table, e.1.IsAbove (2 ^ 64)) ∨ ∀ e ∈ table, ¬e.1.IsAbove (2 ^ 53))

/-! What one key does to the vector. -/

namespace Double
open Number

theorem IsNat.inj {f : Double} {m n : ℕ} (hm : f.IsNat m) (hn : f.IsNat n) : m = n := by
  obtain ⟨hx, rfl⟩ := hm
  obtain ⟨hy, heq⟩ := hn
  exact_mod_cast Number.fin.inj heq

theorem IsNat.isAbove_iff {f : Double} {n b : ℕ} (h : f.IsNat n) : f.IsAbove b ↔ b < n := by
  obtain ⟨hx, rfl⟩ := h
  change (b : ℚ) < n ↔ b < n
  exact Nat.cast_lt

theorem IsNat.not_isLow {f : Double} {n : ℕ} (h : f.IsNat n) (h0 : 0 < n) : ¬f.IsLow := by
  obtain ⟨hx, rfl⟩ := h
  rintro (hlt | hfrac)
  · have hlt' : n < 1 := by exact_mod_cast hlt
    omega
  · exact hfrac n rfl

/-- Numbers from 2^53 on are integers. -/
theorem IsAbove.not_isLow {f : Double} (h : f.IsAbove (2 ^ 53)) : ¬f.IsLow := by
  rcases f with _ | ⟨x, hx⟩ | _
  · exact h.elim
  · have hgt : (2 : ℚ) ^ 53 < x := by exact_mod_cast h
    obtain ⟨n, hn⟩ := exists_mul_pow_of_le hx 0 hgt.le
    rintro (hlt | hfrac)
    · linarith
    · exact hfrac _ hn
  · exact id

theorem IsAbove.mono {f : Double} {b c : ℕ} (h : f.IsAbove c) (hbc : b ≤ c) : f.IsAbove b := by
  rcases f with _ | ⟨x, hx⟩ | _
  · exact h
  · have hcast : (b : ℚ) ≤ c := by exact_mod_cast hbc
    exact lt_of_le_of_lt hcast h
  · trivial

theorem IsNat.isAbove_of_lt {f g : Double} {n : ℕ} (h : f.IsNat n) (hlt : f < g) : g.IsAbove n := by
  obtain ⟨hx, rfl⟩ := h
  rcases g with _ | ⟨y, hy⟩ | _
  · exact absurd hlt (not_lt_negInf _)
  · exact fin_lt_fin.mp hlt
  · trivial

theorem IsAbove.of_lt {f g : Double} {b : ℕ} (h : f.IsAbove b) (hlt : f < g) : g.IsAbove b := by
  rcases f with _ | ⟨x, hx⟩ | _
  · exact h.elim
  · rcases g with _ | ⟨y, hy⟩ | _
    · exact absurd hlt (not_lt_negInf _)
    · exact lt_trans h (fin_lt_fin.mp hlt)
    · trivial
  · exact absurd hlt (not_posInf_lt _)

theorem resizePanics_of_ok {f : Double} {i : ℤ} (h : f.index = .ok i) (vec : List (Value Double)) :
    resizePanics conv vec (.F f) = (decide (vec.length ≤ i) && decide (maxCapacity < i + 1)) := by
  rw [index] at h
  rw [resizePanics, h]

theorem resizePanics_of_lt {f : Double} {i : ℤ} (h : f.index = .ok i) (hi : i + 1 < 2 ^ 58)
    (vec : List (Value Double)) : resizePanics conv vec (.F f) = false := by
  rw [resizePanics_of_ok h, Bool.and_eq_false_iff]
  exact .inr (decide_eq_false (by unfold maxCapacity; omega))

theorem tableToVecStep_of_ok {f : Double} {i : ℕ} (h : f.index = .ok i) (vec : List (Value Double))
    (v : Value Double) :
    tableToVecStep conv vec (.F f, v) = .ok ((vec.rightpad (i + 1) .N).set i v) := by
  rw [index] at h
  rw [tableToVecStep, h]
  rfl

end Double

namespace Key
open Double

theorem IsNat.inj {k : Key Double} {m n : ℕ} (hm : k.IsNat m) (hn : k.IsNat n) : m = n := by
  cases k with
  | F f => exact Double.IsNat.inj hm hn
  | S s | B b => exact hm.elim

theorem IsNat.isAbove_iff {k : Key Double} {n b : ℕ} (h : k.IsNat n) : k.IsAbove b ↔ b < n := by
  cases k with
  | F f => exact Double.IsNat.isAbove_iff h
  | S s | B b => exact h.elim

theorem IsNat.not_isLow {k : Key Double} {n : ℕ} (h : k.IsNat n) (h0 : 0 < n) : ¬k.IsLow := by
  cases k with
  | F f => exact Double.IsNat.not_isLow h h0
  | S s | B b => exact h.elim

theorem IsAbove.not_isLow {k : Key Double} {b : ℕ} (h : k.IsAbove b) (hb : 2 ^ 53 ≤ b) :
    ¬k.IsLow := by
  cases k with
  | F f => exact Double.IsAbove.not_isLow (Double.IsAbove.mono h hb)
  | S s | B b => exact id

theorem IsAbove.not_isNat {k : Key Double} {b n : ℕ} (h : k.IsAbove b) (hn : n ≤ b) :
    ¬k.IsNat n := fun hnat => absurd (hnat.isAbove_iff.mp h) hn.not_gt

/-- Above any number is what comes later than it. -/
theorem isAbove_of_lt {k l : Key Double} {n : ℕ} (h : k.IsNat n ∨ k.IsAbove n) (hlt : k < l) :
    l.IsAbove n := by
  change rank k < rank l at hlt
  cases l with
  | S s | B b => trivial
  | F g =>
    cases k with
    | F f =>
      have hlt' : f < g := Sum.Lex.inl_lt_inl_iff.mp hlt
      rcases h with h | h
      · exact Double.IsNat.isAbove_of_lt h hlt'
      · exact Double.IsAbove.of_lt h hlt'
    | S s | B b => exact absurd hlt Sum.Lex.not_inr_lt_inl

/-- What becomes of an entry. -/
theorem isLow_or (k : Key Double) :
    k.IsLow ∨ (∃ n, 0 < n ∧ n < 2 ^ 58 ∧ k.IsNat n) ∨
      (∃ n, 2 ^ 58 ≤ n ∧ n ≤ 2 ^ 64 ∧ k.IsNat n) ∨ k.IsAbove (2 ^ 64) := by
  cases k with
  | F f => exact Double.isLow_or f
  | S s | B b => exact .inr (.inr (.inr trivial))

end Key

/-! The loop up to the first key that ends it. -/

section
open Double

/-- The vector ends at most at 2^53, or behind an even index, and is not too long. -/
structure EndsEven (vec : List (Value Double)) : Prop where
  even : vec.length ≤ 2 ^ 53 ∨ Odd vec.length
  lt : vec.length < 2 ^ 58

theorem endsEven_nil : EndsEven [] := ⟨.inl (Nat.zero_le _), by decide⟩

theorem tableToVecFrom_isNat {e : Key Double × Value Double} {n : ℕ} (h : e.1.IsNat n)
    (h0 : 0 < n) (h1 : n < 2 ^ 58) {vec : List (Value Double)} (hvec : EndsEven vec) :
    ∃ vec', EndsEven vec' ∧ ∀ table,
      tableToVecFrom conv vec (e :: table) = tableToVecFrom conv vec' table := by
  obtain ⟨k, v⟩ := e
  cases k with
  | S s | B b => exact h.elim
  | F f =>
    have hindex : ∃ i : ℕ, f.index = .ok (i : ℤ) ∧ i + 1 < 2 ^ 58 ∧
        (i + 1 ≤ 2 ^ 53 ∨ Odd (i + 1)) := by
      rcases le_or_gt n (2 ^ 53) with hle | hgt
      · exact ⟨n - 1, index_of_le h h0 hle, by omega, .inl (by omega)⟩
      · obtain ⟨hn, i, hi, heven, -, hle⟩ := index_of_gt h hgt (h1.trans (by decide))
        refine ⟨i, hi, ?_, .inr heven.add_one⟩
        obtain ⟨m, rfl⟩ := hn
        omega
    obtain ⟨i, hi, hlt, hend⟩ := hindex
    refine ⟨(vec.rightpad (i + 1) .N).set i v, ?_, fun table => ?_⟩
    · have hlength := length_rightpad_set vec v i
      rcases le_total vec.length (i + 1) with hle | hle
      · rw [max_eq_left hle] at hlength
        exact ⟨hlength.symm ▸ hend, hlength.symm ▸ hlt⟩
      · rw [max_eq_right hle] at hlength
        exact ⟨hlength ▸ hvec.even, hlength ▸ hvec.lt⟩
    · exact tableToVecFrom_cons (resizePanics_of_lt hi (by exact_mod_cast hlt) vec)
        (tableToVecStep_of_ok hi vec v)

theorem tableToVecFrom_isLow_or_isAbove {e : Key Double × Value Double}
    (h : e.1.IsLow ∨ e.1.IsAbove (2 ^ 64)) (vec : List (Value Double)) (table : Table Double) :
    ∃ error, tableToVecFrom conv vec (e :: table) = some (.error error) := by
  obtain ⟨k, v⟩ := e
  cases k with
  | S s => exact ⟨.nonNumericIndex (.S s), tableToVecFrom_error rfl rfl⟩
  | B b => exact ⟨.nonNumericIndex (.B b), tableToVecFrom_error rfl rfl⟩
  | F f =>
    have hindex : ∃ error, f.index = .error error := h.elim index_of_isLow index_of_isAbove
    obtain ⟨error, herror⟩ := hindex
    rw [index] at herror
    refine ⟨error, tableToVecFrom_error ?_ ?_⟩
    · rw [resizePanics, herror]
    · rw [tableToVecStep, herror]
      rfl

theorem index_large {f : Double} {n : ℕ} (h : f.IsNat n) (h0 : 2 ^ 58 ≤ n) (h1 : n ≤ 2 ^ 64) :
    ∃ i : ℤ, f.index = .ok i ∧ 2 ^ 58 ≤ i := by
  rcases h1.eq_or_lt with rfl | hlt
  · exact ⟨usizeMax, index_two64 h, by decide⟩
  · obtain ⟨i, hi, hge⟩ := index_of_ge h h0 hlt
    exact ⟨i, hi, by exact_mod_cast hge⟩

theorem tableToVecFrom_large {e : Key Double × Value Double} {n : ℕ} (h : e.1.IsNat n)
    (h0 : 2 ^ 58 ≤ n) (h1 : n ≤ 2 ^ 64) {vec : List (Value Double)} (hvec : vec.length < 2 ^ 58)
    (table : Table Double) : tableToVecFrom conv vec (e :: table) = none := by
  obtain ⟨k, v⟩ := e
  cases k with
  | S s | B b => exact h.elim
  | F f =>
    obtain ⟨i, hi, hge⟩ := index_large h h0 h1
    have hpanics : resizePanics conv vec (.F f) = true := by
      rw [resizePanics_of_ok hi, Bool.and_eq_true, decide_eq_true_iff, decide_eq_true_iff]
      exact ⟨by omega, by unfold maxCapacity; omega⟩
    rw [tableToVecFrom, hpanics, if_pos rfl]

theorem tableToVecFrom_append {pre : Table Double}
    (hpre : ∀ e ∈ pre, ∃ n, 0 < n ∧ n < 2 ^ 58 ∧ e.1.IsNat n) {vec : List (Value Double)}
    (hvec : EndsEven vec) :
    ∃ vec', EndsEven vec' ∧ ∀ table,
      tableToVecFrom conv vec (pre ++ table) = tableToVecFrom conv vec' table := by
  induction pre generalizing vec with
  | nil => exact ⟨vec, hvec, fun table => rfl⟩
  | cons e pre ih =>
    obtain ⟨⟨n, h0, h1, hn⟩, hrest⟩ := List.forall_mem_cons.mp hpre
    obtain ⟨vec₁, hvec₁, hstep⟩ := tableToVecFrom_isNat hn h0 h1 hvec
    obtain ⟨vec₂, hvec₂, hrun⟩ := ih hrest hvec₁
    exact ⟨vec₂, hvec₂, fun table => (hstep (pre ++ table)).trans (hrun table)⟩

/-! Up to 2^53 indices are exact, and the vector is the table. -/

theorem finite_succ {i : ℕ} (hi : i < 2 ^ 53) : binary64.Finite ((i + 1 : ℕ) : ℚ) := by
  have habs : |((i + 1 : ℕ) : ℤ)| ≤ 2 ^ 53 := abs_le.mpr ⟨by omega, by omega⟩
  exact_mod_cast @Format.finite_intCast binary64 _ habs

theorem positionKey_eq {i : ℕ} (hi : i < 2 ^ 53) :
    positionKey conv i = .F (.fin ((i + 1 : ℕ) : ℚ) (finite_succ hi)) :=
  congrArg Key.F (ofRat_intCast (finite_succ hi) (Int.cast_natCast (i + 1)).symm)

theorem isNat_succ_iff {k : Key Double} {i : ℕ} (hi : i < 2 ^ 53) :
    k.IsNat (i + 1) ↔ k = positionKey conv i := by
  rw [positionKey_eq hi]
  cases k with
  | F f =>
    rw [Key.F.injEq]
    exact ⟨fun ⟨_, heq⟩ => heq, fun heq => ⟨_, heq⟩⟩
  | S s | B b => simp [Key.IsNat]

theorem resizePanics_positionKey {i : ℕ} (hi : i < 2 ^ 53) (vec : List (Value Double)) :
    resizePanics conv vec (positionKey conv i) = false := by
  rw [positionKey_eq hi]
  exact resizePanics_of_lt (index_of_le ⟨_, rfl⟩ (Nat.succ_pos i) hi) (by omega) vec

theorem exists_end {table : Table Double}
    (h : ∀ e ∈ table, ∃ i < 2 ^ 53, e.1 = positionKey conv i) :
    ∃ n ≤ 2 ^ 53, (∀ e ∈ table, ∃ i < n, e.1 = positionKey conv i) ∧
      ∀ i, n = i + 1 → positionKey conv i ∈ table.map Prod.fst := by
  induction table with
  | nil => exact ⟨0, by omega, by simp, by simp⟩
  | cons e table ih =>
    obtain ⟨⟨i, hi, hkey⟩, hrest⟩ := List.forall_mem_cons.mp h
    obtain ⟨n, hn, hlt, hlast⟩ := ih hrest
    rcases lt_or_ge i n with hin | hin
    · refine ⟨n, hn, List.forall_mem_cons.mpr ⟨⟨i, hin, hkey⟩, hlt⟩, fun j hj => ?_⟩
      exact List.mem_cons_of_mem _ (hlast j hj)
    · refine ⟨i + 1, hi, List.forall_mem_cons.mpr ⟨⟨i, i.lt_succ_self, hkey⟩, ?_⟩, ?_⟩
      · intro f hf
        obtain ⟨j, hj, hfkey⟩ := hlt f hf
        exact ⟨j, by omega, hfkey⟩
      · rintro j heq
        obtain rfl : i = j := Nat.succ_injective heq
        rw [List.map_cons, hkey]
        exact List.mem_cons_self ..

theorem represents_of_positions {table : Table Double} (hsorted : OrderedMap.Sorted table)
    (h : ∀ e ∈ table, ∃ i < 2 ^ 53, e.1 = positionKey conv i) :
    ∃ vec, tableToVecFrom conv [] table = some (.ok vec) ∧ Represents table vec := by
  obtain ⟨n, hn, hkeys, hlast⟩ := exists_end h
  obtain ⟨vec, hrun, hlen, hread⟩ := tableToVec_positions hn hkeys hsorted.nodup_keys hlast
  have hroom : ∀ e ∈ table, ∀ vec, resizePanics conv vec e.1 = false := by
    intro e he vec
    obtain ⟨i, hi, hkey⟩ := h e he
    rw [hkey]
    exact resizePanics_positionKey hi vec
  refine ⟨vec, (tableToVecFrom_eq_foldlM hroom []).trans (congrArg some hrun), ?_, ?_, ?_, ?_, ?_⟩
  · intro e he
    obtain ⟨i, hi, hkey⟩ := h e he
    exact ⟨i + 1, i.succ_pos, (isNat_succ_iff hi).mpr hkey⟩
  · intro e he m hm
    obtain ⟨i, hi, hkey⟩ := hkeys e he
    have hm' := hm.inj ((isNat_succ_iff (by omega)).mpr hkey)
    omega
  · cases n with
    | zero => exact .inl (List.length_eq_zero_iff.mp hlen)
    | succ i =>
      obtain ⟨e, he, hkey⟩ := List.mem_map.mp (hlast i rfl)
      rw [hlen]
      exact .inr ⟨e, he, (isNat_succ_iff hn).mpr hkey⟩
  · intro e he i hi
    obtain ⟨j, hj, hkey⟩ := hkeys e he
    obtain rfl : i = j :=
      Nat.succ_injective (hi.inj ((isNat_succ_iff (by omega)).mpr hkey))
    have hlookup : table.lookup (positionKey conv i) = some e.2 :=
      (OrderedMap.lookup_eq_some hsorted.nodup_keys).mpr (hkey ▸ he)
    rw [hread i hj, hlookup, Option.getD_some]
  · intro i hi hnone
    have hlookup : table.lookup (positionKey conv i) = none := by
      refine OrderedMap.lookup_eq_none.mpr fun hmem => ?_
      obtain ⟨e, he, hkey⟩ := List.mem_map.mp hmem
      exact hnone e he ((isNat_succ_iff (by omega)).mpr hkey)
    rw [hread i (by omega), hlookup, Option.getD_none]

theorem positionKey_lt {i j : ℕ} (hij : i < j) (hj : j < 2 ^ 53) :
    positionKey conv i < positionKey conv j := by
  have hlt : ((i + 1 : ℕ) : ℚ) < ((j + 1 : ℕ) : ℚ) := by exact_mod_cast Nat.succ_lt_succ hij
  rw [positionKey_eq (hij.trans hj), positionKey_eq hj]
  exact Sum.Lex.inl_lt_inl_iff.mpr (Number.fin_lt_fin.mpr hlt)

theorem sorted_positions {vec : List (Value Double)} (h : vec.length ≤ 2 ^ 53) :
    OrderedMap.Sorted (vec.zipIdx.map fun e => (positionKey conv e.2, e.1)) := by
  refine List.pairwise_iff_getElem.mpr fun i j hi hj hij => ?_
  rw [List.length_map, List.length_zipIdx] at hj
  simp only [List.getElem_map, List.getElem_zipIdx, zero_add]
  exact positionKey_lt hij (by omega)

theorem vecToTable_eq {vec : List (Value Double)} (h : vec.length ≤ 2 ^ 53) :
    vecToTable conv vec = vec.zipIdx.map fun e => (positionKey conv e.2, e.1) := by
  rw [← OrderedMap.ofList_sorted (sorted_positions h), OrderedMap.ofList, List.foldl_map]
  rfl

theorem tableToVecFrom_vecToTable {vec : List (Value Double)} (h : vec.length ≤ 2 ^ 53) :
    tableToVecFrom conv [] (vecToTable conv vec) = some (.ok vec) := by
  rw [vecToTable_eq h]
  have hmem : ∀ e ∈ vec.zipIdx.map fun e => (positionKey conv e.2, e.1),
      ∃ i < vec.length, e.1 = positionKey conv i := by
    intro e he
    obtain ⟨⟨v, i⟩, hvi, rfl⟩ := List.mem_map.mp he
    exact ⟨i, (List.mem_zipIdx' hvi).1, rfl⟩
  obtain ⟨vec', hrun, hrep⟩ := represents_of_positions (sorted_positions h) fun e he => by
    obtain ⟨i, hi, hkey⟩ := hmem e he
    exact ⟨i, by omega, hkey⟩
  have hlen : vec'.length ≤ vec.length := by
    rcases hrep.length_mem with rfl | ⟨e, he, hnat⟩
    · exact Nat.zero_le _
    · obtain ⟨i, hi, hkey⟩ := hmem e he
      have heq := hnat.inj ((isNat_succ_iff (by omega)).mpr hkey)
      omega
  have hvec : vec' = vec := by
    refine List.ext_getElem? fun i => ?_
    rcases lt_or_ge i vec.length with hi | hi
    · have hentry : (positionKey conv i, vec[i]) ∈
          vec.zipIdx.map fun e => (positionKey conv e.2, e.1) :=
        List.mem_map.mpr ⟨(vec[i], i), List.mk_mem_zipIdx_iff_getElem?.mpr
          (List.getElem?_eq_getElem hi), rfl⟩
      rw [hrep.value _ hentry i ((isNat_succ_iff (by omega)).mpr rfl),
        List.getElem?_eq_getElem hi]
    · rw [List.getElem?_eq_none hi, List.getElem?_eq_none (hlen.trans hi)]
  rw [hrun, hvec]

/-- A number beyond 2^53 is even, while the vector ends behind an even index. -/
theorem not_represents {table : Table Double} {vec : List (Value Double)}
    (hkeys : ∀ e ∈ table, ∃ n, 0 < n ∧ n < 2 ^ 58 ∧ e.1.IsNat n) (hvec : EndsEven vec)
    (habove : ∃ e ∈ table, e.1.IsAbove (2 ^ 53)) : ¬Represents table vec := by
  intro hrep
  obtain ⟨e, he, hgt⟩ := habove
  obtain ⟨n, -, -, hn⟩ := hkeys e he
  have hlen : 2 ^ 53 < vec.length := (hn.isAbove_iff.mp hgt).trans_le (hrep.le_length e he n hn)
  rcases hrep.length_mem with rfl | ⟨⟨k, v⟩, hk, hnat⟩
  · exact absurd hlen (Nat.not_lt_zero _)
  obtain ⟨m, -, hm, hkm⟩ := hkeys _ hk
  cases k with
  | S s | B b => exact hnat
  | F f =>
    obtain rfl := hnat.inj hkm
    have heven := (index_of_gt hnat hlen (hm.trans (by decide))).1
    have hodd := hvec.even.resolve_left hlen.not_ge
    exact (Nat.not_even_iff_odd.mpr hodd) heven

theorem convertsRight_iff_of_isNat {table : Table Double} (hsorted : OrderedMap.Sorted table)
    (hkeys : ∀ e ∈ table, ∃ n, 0 < n ∧ n < 2 ^ 58 ∧ e.1.IsNat n) :
    ConvertsRight table ↔ IndicesExact table := by
  by_cases habove : ∃ e ∈ table, e.1.IsAbove (2 ^ 53)
  · obtain ⟨vec, hvec, hrun⟩ := tableToVecFrom_append hkeys endsEven_nil
    have hrun' := hrun []
    rw [List.append_nil, tableToVecFrom] at hrun'
    refine iff_of_false ?_ ?_
    · rintro ⟨result, hresult, hright⟩
      obtain rfl := Option.some.inj (hrun'.symm.trans hresult)
      exact not_represents hkeys hvec habove (hright vec rfl)
    · rintro (⟨e, he, hlow⟩ | ⟨-, ⟨e, he, hgt⟩ | hnone⟩)
      · obtain ⟨n, h0, -, hn⟩ := hkeys e he
        exact hn.not_isLow h0 hlow
      · obtain ⟨n, -, h1, hn⟩ := hkeys e he
        have hlt := hn.isAbove_iff.mp hgt
        omega
      · obtain ⟨e, he, hgt⟩ := habove
        exact hnone e he hgt
  · push Not at habove
    have hpositions : ∀ e ∈ table, ∃ i < 2 ^ 53, e.1 = positionKey conv i := by
      intro e he
      obtain ⟨n, h0, -, hn⟩ := hkeys e he
      have hle : n ≤ 2 ^ 53 := not_lt.mp fun hgt => habove e he (hn.isAbove_iff.mpr hgt)
      obtain ⟨i, rfl⟩ := Nat.exists_eq_add_one.mpr h0
      exact ⟨i, hle, (isNat_succ_iff hle).mp hn⟩
    refine iff_of_true ?_ (.inr ⟨fun e he m hm _ hnat => ?_, .inr habove⟩)
    · obtain ⟨vec, hrun, hrep⟩ := represents_of_positions hsorted hpositions
      refine ⟨.ok vec, hrun, fun vec' heq => ?_⟩
      obtain rfl := Except.ok.inj heq
      exact hrep
    · obtain ⟨n, -, h1, hn⟩ := hkeys e he
      obtain rfl := hn.inj hnat
      exact absurd hm h1.not_ge

/-- The first key that is no position below 2^58 decides the outcome. -/
theorem convertsRight_iff_of_cut {pre rest : Table Double} {e : Key Double × Value Double}
    (hsorted : OrderedMap.Sorted (pre ++ e :: rest))
    (hkeys : ∀ e ∈ pre, ∃ n, 0 < n ∧ n < 2 ^ 58 ∧ e.1.IsNat n)
    (he : ¬∃ n, 0 < n ∧ n < 2 ^ 58 ∧ e.1.IsNat n) :
    ConvertsRight (pre ++ e :: rest) ↔ IndicesExact (pre ++ e :: rest) := by
  obtain ⟨vec, hvec, hrun⟩ := tableToVecFrom_append hkeys endsEven_nil
  have hmem : e ∈ pre ++ e :: rest := List.mem_append_right pre (List.mem_cons_self ..)
  have herror : e.1.IsLow ∨ e.1.IsAbove (2 ^ 64) → ConvertsRight (pre ++ e :: rest) := by
    intro hout
    obtain ⟨error, hfail⟩ := tableToVecFrom_isLow_or_isAbove hout vec rest
    exact ⟨.error error, (hrun (e :: rest)).trans hfail, fun vec' heq => nomatch heq⟩
  have hlater {n : ℕ} (hge : e.1.IsNat n ∨ e.1.IsAbove n) : ∀ f ∈ rest, f.1.IsAbove n :=
    fun f hf =>
      Key.isAbove_of_lt hge (List.rel_of_pairwise_cons (List.pairwise_append.mp hsorted).2.1 hf)
  rcases e.1.isLow_or with hlow | hposition | ⟨n, h0, h1, hn⟩ | habove
  · exact iff_of_true (herror (.inl hlow)) (.inl ⟨e, hmem, hlow⟩)
  · exact absurd hposition he
  · refine iff_of_false ?_ ?_
    · rintro ⟨result, hresult, -⟩
      rw [hrun, tableToVecFrom_large hn h0 h1 hvec.lt] at hresult
      cases hresult
    · rintro (⟨f, hf, hlow⟩ | ⟨hnone, -⟩)
      · rcases List.mem_append.mp hf with hf | hf
        · obtain ⟨m, hm, -, hnat⟩ := hkeys f hf
          exact hnat.not_isLow hm hlow
        rcases List.mem_cons.mp hf with rfl | hf
        · exact hn.not_isLow (by omega) hlow
        · exact (hlater (.inl hn) f hf).not_isLow (by omega) hlow
      · exact hnone e hmem n h0 h1 hn
  · refine iff_of_true (herror (.inr habove))
      (.inr ⟨fun f hf n h0 h1 hn => ?_, .inl ⟨e, hmem, habove⟩⟩)
    rcases List.mem_append.mp hf with hf | hf
    · obtain ⟨m, -, hm, hnat⟩ := hkeys f hf
      obtain rfl := hn.inj hnat
      exact absurd h0 hm.not_ge
    rcases List.mem_cons.mp hf with rfl | hf
    · exact habove.not_isNat h1 hn
    · exact (hlater (.inr habove) f hf).not_isNat h1 hn

theorem convertsRight_iff {table : Table Double} (hsorted : OrderedMap.Sorted table) :
    ConvertsRight table ↔ IndicesExact table := by
  classical
  cases hfind : table.find? fun e => ¬∃ n, 0 < n ∧ n < 2 ^ 58 ∧ e.1.IsNat n with
  | none =>
    have hkeys : ∀ e ∈ table, ∃ n, 0 < n ∧ n < 2 ^ 58 ∧ e.1.IsNat n := by simpa using hfind
    exact convertsRight_iff_of_isNat hsorted hkeys
  | some e =>
    obtain ⟨he, pre, rest, rfl, hpre⟩ := List.find?_eq_some_iff_append.mp hfind
    have hkeys : ∀ e ∈ pre, ∃ n, 0 < n ∧ n < 2 ^ 58 ∧ e.1.IsNat n := by simpa using hpre
    exact convertsRight_iff_of_cut hsorted hkeys (of_decide_eq_true he)

/-- The conversion is right on the tables with exact indices and on no others, and it undoes the
one of a vector into a table. -/
theorem converts_right_iff {table : Table Double} (hsorted : OrderedMap.Sorted table)
    {vec : List (Value Double)} (hlen : vec.length < 2 ^ 53) :
    (ConvertsRight table ↔ IndicesExact table) ∧
      tableToVecFrom conv [] (vecToTable conv vec) = some (.ok vec) :=
  ⟨convertsRight_iff hsorted, tableToVecFrom_vecToTable hlen.le⟩

/-- A table with a gap, and a vector of two values. -/
theorem converts_right_iff_gap :
    (ConvertsRight [(positionKey conv 0, .B true), (positionKey conv 2, .B false)] ↔
      IndicesExact [(positionKey conv 0, .B true), (positionKey conv 2, .B false)]) ∧
    tableToVecFrom conv [] (vecToTable conv [.B true, .N]) = some (.ok [.B true, .N]) := by
  have hlt : positionKey conv 0 < positionKey conv 2 := positionKey_lt (by decide) (by decide)
  exact converts_right_iff (List.pairwise_pair.mpr hlt) (by decide)

/-- The key `#18446744073709551616@`. -/
def two64Key : Key Double := .F (.fin ((2 ^ 64 : ℤ) : ℚ) finite_two64)

theorem two64Key_isNat : two64Key.IsNat (2 ^ 64) := by
  have hcast : ((2 ^ 64 : ℤ) : ℚ) = ((2 ^ 64 : ℕ) : ℚ) := by norm_num
  have hfinite : binary64.Finite ((2 ^ 64 : ℕ) : ℚ) := hcast ▸ finite_two64
  refine ⟨hfinite, ?_⟩
  simp only [hcast]

/-- It passes for the greatest index, and ends the server. -/
theorem two64_key_panics :
    OrderedMap.Sorted [(two64Key, (.B true : Value Double))] ∧
      tableToVecFrom conv [] [(two64Key, .B true)] = none ∧
      ¬∀ table : Table Double, OrderedMap.Sorted table → ConvertsRight table := by
  have hsorted : OrderedMap.Sorted [(two64Key, (.B true : Value Double))] :=
    List.pairwise_singleton ..
  have hpanic : tableToVecFrom conv [] [(two64Key, .B true)] = none :=
    tableToVecFrom_large two64Key_isNat (by decide) le_rfl (by decide) []
  refine ⟨hsorted, hpanic, fun hall => ?_⟩
  obtain ⟨result, hresult, -⟩ := hall _ hsorted
  rw [hpanic] at hresult
  cases hresult

end
end OCRemote
