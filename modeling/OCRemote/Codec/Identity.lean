import OCRemote.Codec.Decode

/-! Lua values of text that stand for the same value are the same but for the order in which
their tables are enumerated. -/

namespace OCRemote
namespace LuaValue
variable {ν : Type} {number : NumberFormat ν}

theorem eq_ofKey {k : LuaValue ν} {key : Key ν} (hk : Encodable number k)
    (h : toKey k = some key) : k = ofKey key := by
  cases k with
  | nil | table es => cases h
  | number x | boolean b =>
    obtain rfl := Option.some.inj h
    rfl
  | string s =>
    obtain ⟨t, rfl⟩ := hk
    obtain rfl : Key.S t = key := by simpa [toKey] using h
    rfl

variable [LinearOrder ν]

mutual

theorem Encodable.reordered : ∀ {v w : LuaValue ν}, Encodable number v → Encodable number w →
    denote v = denote w → Reordered v w
  | .nil, w, _, _, h => by
    cases w with
    | nil => exact .refl _
    | number y | string t | boolean b | table fs => simp [denote] at h
  | .number x, w, _, _, h => by
    cases w with
    | number y =>
      obtain rfl : x = y := by simpa [denote] using h
      exact .refl _
    | nil | string t | boolean b | table fs => simp [denote] at h
  | .string s, w, hv, hw, h => by
    cases w with
    | string t =>
      obtain ⟨s, rfl⟩ := hv
      obtain ⟨t, rfl⟩ := hw
      obtain rfl : s = t := by simpa [denote] using h
      exact .refl _
    | nil | number y | boolean b | table fs => simp [denote] at h
  | .boolean b, w, _, _, h => by
    cases w with
    | boolean c =>
      obtain rfl : b = c := by simpa [denote] using h
      exact .refl _
    | nil | number y | string t | table fs => simp [denote] at h
  | .table es, w, hv, hw, h => by
    cases w with
    | table fs =>
      have hlists : OrderedMap.ofList (denotePairs es) = OrderedMap.ofList (denotePairs fs) := by
        simpa only [denote, Value.T.injEq] using h
      have hes := OrderedMap.ofList_perm_self (denotePairs_nodup hv.2)
      have hfs := OrderedMap.ofList_perm_self (denotePairs_nodup hw.2)
      obtain ⟨gs, hgs, hperm⟩ := hv.1.reordered hw.1 ((hlists ▸ hes.symm).trans hfs)
      exact .table hgs hperm
    | nil | number y | string t | boolean b => simp [denote] at h

theorem EncodablePairs.reordered : ∀ {es fs : List (LuaValue ν × LuaValue ν)},
    EncodablePairs number es → EncodablePairs number fs → (denotePairs es).Perm (denotePairs fs) →
    ∃ gs, ReorderedPairs es gs ∧ gs.Perm fs
  | [], fs, _, hfs, h => by
    cases fs with
    | nil => exact ⟨[], .nil, List.Perm.refl _⟩
    | cons f fs =>
      obtain ⟨key, hkey⟩ := Option.isSome_iff_exists.mp (toKey_isSome hfs.1)
      simp [denotePairs, hkey] at h
  | (k, v) :: es, fs, ⟨hk, hv, hes⟩, hfs, h => by
    obtain ⟨key, hkey⟩ := Option.isSome_iff_exists.mp (toKey_isSome hk)
    have hcons : denotePairs ((k, v) :: es) = (key, denote v) :: denotePairs es := by
      simp only [denotePairs, hkey]
    rw [hcons] at h
    -- the entry of the other table with this key
    have hhead := h.subset (List.mem_cons_self ..)
    rw [denotePairs_eq] at hhead
    obtain ⟨l, w, hmem, hl, hw⟩ := OrderedMap.mem_mapEntries.mp hhead
    have hpair := encodablePairs_iff.mp hfs (l, w) hmem
    obtain rfl : l = k := (eq_ofKey hpair.1.1 hl).trans (eq_ofKey hk.1 hkey).symm
    obtain ⟨fs₁, fs₂, rfl⟩ := List.append_of_mem hmem
    have hmiddle : (fs₁ ++ (l, w) :: fs₂).Perm ((l, w) :: (fs₁ ++ fs₂)) := List.perm_middle
    have hrest : (denotePairs es).Perm (denotePairs (fs₁ ++ fs₂)) := by
      have hfs' := h.trans (denotePairs_perm hmiddle)
      simp only [denotePairs, hkey, hw] at hfs'
      exact hfs'.cons_inv
    have hencodable : EncodablePairs number (fs₁ ++ fs₂) :=
      encodablePairs_iff.mpr fun e he =>
        encodablePairs_iff.mp hfs e (hmiddle.mem_iff.mpr (List.mem_cons_of_mem _ he))
    obtain ⟨gs, hgs, hperm⟩ := hes.reordered hencodable hrest
    have hvw := hv.1.reordered hpair.2.1 hw.symm
    exact ⟨(l, w) :: gs, .cons hvw hgs, (hperm.cons _).trans hmiddle.symm⟩

end

theorem Encodable.denote_eq_iff {v w : LuaValue ν} (hv : Encodable number v)
    (hw : Encodable number w) : denote v = denote w ↔ Reordered v w :=
  ⟨hv.reordered hw, fun h => (h.denote_eq hv).symm⟩

/-! What a table stands for without one of its fields. -/

omit [LinearOrder ν] in
theorem assign_nil_sublist [DecidableEq ν] (key : LuaValue ν)
    (es : List (LuaValue ν × LuaValue ν)) : (assign key nil es).Sublist es := by
  induction es with
  | nil => exact List.Sublist.refl _
  | cons e es ih =>
    rw [assign]
    split_ifs
    · exact List.sublist_cons_self e es
    · exact ih.cons_cons e

theorem Encodable.assign_nil {es : List (LuaValue ν × LuaValue ν)}
    (h : Encodable number (.table es)) (key : LuaValue ν) :
    Encodable number (.table (assign key nil es)) := by
  have hsub := assign_nil_sublist key es
  exact ⟨encodablePairs_iff.mpr fun e he => encodablePairs_iff.mp h.1 e (hsub.subset he),
    h.2.sublist (hsub.map _)⟩

theorem denotePairs_assign_nil {es : List (LuaValue ν × LuaValue ν)}
    (h : Encodable number (.table es)) (key : Key ν) :
    denotePairs (assign (ofKey key) nil es) = OrderedMap.erase key (denotePairs es) := by
  obtain ⟨hes, hnodup⟩ := h
  have hkeys := denotePairs_nodup hnodup
  induction es with
  | nil => rfl
  | cons e es ih =>
    obtain ⟨k, v⟩ := e
    obtain ⟨hk, -, hes⟩ := hes
    obtain ⟨key', hkey'⟩ := Option.isSome_iff_exists.mp (toKey_isSome hk)
    obtain rfl := eq_ofKey hk.1 hkey'
    have hcons : denotePairs ((ofKey key', v) :: es) = (key', denote v) :: denotePairs es := by
      simp only [denotePairs, hkey']
    rw [hcons] at hkeys ⊢
    obtain ⟨hnew, hkeys⟩ := List.nodup_cons.mp hkeys
    rw [assign]
    by_cases heq : key = key'
    · -- no other entry has this key
      subst heq
      rw [if_pos ((rawEqual_ofKey ..).mpr rfl), OrderedMap.erase_cons, if_pos rfl,
        OrderedMap.erase_eq_self hnew]
    · rw [if_neg fun h => heq ((rawEqual_ofKey ..).mp h), OrderedMap.erase_cons,
        if_neg (Ne.symm heq), ← ih hes (List.nodup_cons.mp hnodup).2 hkeys]
      simp only [denotePairs, hkey']

theorem denote_assign_nil {es : List (LuaValue ν × LuaValue ν)} (h : Encodable number (.table es))
    (key : Key ν) : denote (.table (assign (ofKey key) nil es)) =
      .T (OrderedMap.erase key (OrderedMap.ofList (denotePairs es))) := by
  rw [denote, denotePairs_assign_nil h, OrderedMap.erase_ofList (denotePairs_nodup h.2)]

end LuaValue
end OCRemote
