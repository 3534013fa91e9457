import OCRemote.Client.Script
import OCRemote.Codec.Decode

/-! A vector of the server is a sequence for the client: `ipairs` and `table.unpack` go through the
values that `vec_to_table` numbered. -/

namespace OCRemote
variable {ν : Type} [LinearOrder ν]

/-- The entries of `vec_to_table`, in the order of the vector. -/
def positions (conv : Conversion ν) (vec : List (Value ν)) : Table ν :=
  vec.zipIdx.map fun e => (positionKey conv e.2, e.1)

theorem vecToTable_eq_ofList (conv : Conversion ν) (vec : List (Value ν)) :
    vecToTable conv vec = OrderedMap.ofList (positions conv vec) := by
  rw [OrderedMap.ofList, positions, List.foldl_map]
  rfl

section
variable {conv : Conversion ν} {vec : List (Value ν)}

omit [LinearOrder ν] in
theorem mem_positions {e : Key ν × Value ν} :
    e ∈ positions conv vec ↔ ∃ i, vec[i]? = some e.2 ∧ e.1 = positionKey conv i := by
  obtain ⟨k, v⟩ := e
  unfold positions
  rw [List.mem_map]
  constructor
  · rintro ⟨⟨v', i⟩, hmem, heq⟩
    cases heq
    exact ⟨i, List.mem_zipIdx_iff_getElem?.mp hmem, rfl⟩
  · rintro ⟨i, hi, rfl⟩
    exact ⟨(v, i), List.mem_zipIdx_iff_getElem?.mpr hi, rfl⟩

omit [LinearOrder ν] in
theorem positions_nodup (h : vec.length ≤ 2 ^ 53) : ((positions conv vec).map Prod.fst).Nodup := by
  have hkeys : (positions conv vec).map Prod.fst =
      (vec.zipIdx.map Prod.snd).map (positionKey conv) := by
    rw [positions, List.map_map, List.map_map]
    rfl
  rw [hkeys, List.zipIdx_map_snd]
  refine List.Nodup.map_on (fun i hi j hj heq => ?_) List.nodup_range'
  have hi := (List.mem_range'_1.mp hi).2
  have hj := (List.mem_range'_1.mp hj).2
  exact positionKey_inj (by omega) (by omega) heq

theorem lookup_vecToTable (h : vec.length ≤ 2 ^ 53) {i : ℕ} (hi : i < vec.length) :
    (vecToTable conv vec).lookup (positionKey conv i) = some vec[i] := by
  rw [vecToTable_eq_ofList, OrderedMap.lookup_ofList (positions_nodup h),
    OrderedMap.lookup_eq_some (positions_nodup h), mem_positions]
  exact ⟨i, List.getElem?_eq_getElem hi, rfl⟩

theorem vecToTable_perm (h : vec.length ≤ 2 ^ 53) :
    (vecToTable conv vec).Perm (positions conv vec) := by
  rw [vecToTable_eq_ofList]
  exact OrderedMap.ofList_perm_self (positions_nodup h)

theorem length_vecToTable (h : vec.length ≤ 2 ^ 53) : (vecToTable conv vec).length = vec.length := by
  rw [(vecToTable_perm h).length_eq, positions, List.length_map, List.length_zipIdx]

theorem vecToTable_ordered (conv : Conversion ν) (hvec : ∀ v ∈ vec, v.Ordered) :
    (Value.T (vecToTable conv vec)).Ordered := by
  rw [vecToTable_eq_ofList]
  refine Value.Ordered.nil.insertAll (Table.ordered_iff.mpr fun e he => ?_)
  obtain ⟨i, hi, -⟩ := mem_positions.mp he
  exact hvec _ (List.mem_of_getElem? hi)

omit [LinearOrder ν] in
theorem Value.sendableEntries_iff {number : NumberFormat ν} {x : Table ν} :
    Value.SendableEntries number x ↔ ∀ e ∈ x, (∀ y, e.1 = .F y → number.finite y) ∧
      Value.Sendable number e.2 ∧ e.2 ≠ .N := by
  induction x with
  | nil => simp [Value.SendableEntries]
  | cons e x ih =>
    obtain ⟨k, v⟩ := e
    simp only [Value.SendableEntries, ih, List.forall_mem_cons, and_assoc]

theorem vecToTable_sendable {wire : Wire ν} (h : vec.length ≤ wire.exact)
    (hvec : ∀ v ∈ vec, Value.Sendable wire.number v ∧ v ≠ .N) :
    Value.Sendable wire.number (.T (vecToTable wire.conv vec)) := by
  refine Value.sendableEntries_iff.mpr fun e he => ?_
  have hle := wire.exact_le
  obtain ⟨i, hi, hkey⟩ := mem_positions.mp ((vecToTable_perm (h.trans hle)).subset he)
  refine ⟨fun y hy => ?_, hvec _ (List.mem_of_getElem? hi)⟩
  have hlt := (List.getElem?_eq_some_iff.mp hi).1
  obtain rfl := Key.F.inj (hkey.symm.trans hy)
  exact wire.finite_ofInt (i + 1) (by omega)

namespace LuaValue

theorem index_ofKey (key : Key ν) (x : Table ν) :
    index (ofKey key) (ofEntries x) = (x.lookup key).elim nil ofValue := by
  induction x with
  | nil => rfl
  | cons e x ih =>
    obtain ⟨k, v⟩ := e
    rw [OrderedMap.lookup_cons_ite]
    unfold index at ih ⊢
    rw [ofEntries, List.find?_cons]
    by_cases hk : key = k
    · subst hk
      have hequal : rawEqual (ofKey key) (ofKey key) = true := (rawEqual_ofKey key key).mpr rfl
      simp [hequal]
    · have hequal : rawEqual (ofKey key) (ofKey k) = false :=
        Bool.eq_false_iff.mpr fun h => hk ((rawEqual_ofKey key k).mp h)
      simpa [hequal, hk] using ih

omit [LinearOrder ν] in
theorem length_ofEntries (x : Table ν) : (ofEntries x).length = x.length := by
  induction x with
  | nil => rfl
  | cons e x ih => rw [ofEntries, List.length_cons, List.length_cons, ih]

end LuaValue

namespace Client

theorem ipairsFrom_vecToTable (h : vec.length ≤ 2 ^ 53) (hvec : ∀ v ∈ vec, v ≠ .N) {fuel i : ℕ}
    (hi : i + fuel = vec.length) :
    ipairsFrom conv (LuaValue.ofEntries (vecToTable conv vec)) fuel (i + 1) =
      (vec.drop i).map LuaValue.ofValue := by
  induction fuel generalizing i with
  | zero =>
    have hdrop : vec.drop i = [] := List.drop_eq_nil_of_le (by omega)
    rw [hdrop]
    rfl
  | succ fuel ih =>
    have hlt : i < vec.length := by omega
    have hindex : LuaValue.index (.number (conv.ofInt (i + 1 : ℕ)))
        (LuaValue.ofEntries (vecToTable conv vec)) = LuaValue.ofValue vec[i] := by
      refine (LuaValue.index_ofKey (positionKey conv i) _).trans ?_
      rw [lookup_vecToTable h hlt, Option.elim_some]
    have hne := LuaValue.ofValue_ne_nil (hvec _ (List.getElem_mem hlt))
    rw [ipairsFrom, hindex, List.drop_eq_getElem_cons hlt, List.map_cons, ← ih (by omega)]
    split
    · rename_i hnil
      exact absurd hnil hne
    · rfl

/-- `ipairs` goes through the values of a vector, in order. -/
theorem ipairs_vecToTable (h : vec.length ≤ 2 ^ 53) (hvec : ∀ v ∈ vec, v ≠ .N) :
    ipairs conv (LuaValue.ofEntries (vecToTable conv vec)) = vec.map LuaValue.ofValue := by
  rw [ipairs, LuaValue.length_ofEntries, length_vecToTable h]
  exact ipairsFrom_vecToTable h hvec (Nat.zero_add _)

end Client
end
end OCRemote
