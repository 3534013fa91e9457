import Mathlib.Tactic.IntervalCases
import OCRemote.Codec.Lossy
import OCRemote.Codec.Parser

/-! The server reads back what the clients write, however the stream is cut. -/

namespace OCRemote
namespace Parser
variable {ν ε σ : Type} [LinearOrder ν]
variable {number : NumberFormat ν} {handler : Value ν → σ → Except (ε × σ) σ}

theorem scanNumber_append_none {result xs r : List UInt8} (ys : List UInt8)
    (h : scanNumber result xs = (r, none)) : scanNumber result (xs ++ ys) = scanNumber r ys := by
  induction xs generalizing result with
  | nil =>
    obtain rfl : result = r := by simpa [scanNumber] using h
    rfl
  | cons x xs ih =>
    simp only [scanNumber] at h
    split_ifs at h with hx
    · simp at h
    · simpa only [List.cons_append, scanNumber, if_neg hx] using ih h

theorem scanNumber_append_some {result xs r rest : List UInt8} (ys : List UInt8)
    (h : scanNumber result xs = (r, some rest)) :
    scanNumber result (xs ++ ys) = (r, some (rest ++ ys)) := by
  induction xs generalizing result with
  | nil => simp [scanNumber] at h
  | cons x xs ih =>
    simp only [scanNumber] at h
    split_ifs at h with hx
    · obtain ⟨rfl, rfl⟩ : result = r ∧ xs = rest := by simpa using h
      simp only [List.cons_append, scanNumber, if_pos hx]
    · simpa only [List.cons_append, scanNumber, if_neg hx] using ih h

/-- A scan of a string goes on where it stopped, and a scan that ended is not changed by what
comes later. -/
theorem scanString_append (result xs ys : List UInt8) (escape : Bool) :
    scanString result escape (xs ++ ys) =
      match scanString result escape xs with
      | .more r e => scanString r e ys
      | .done r rest => .done r (rest ++ ys)
      | .unknown x => .unknown x := by
  induction xs generalizing result escape with
  | nil => rfl
  | cons x xs ih =>
    simp only [List.cons_append, scanString]
    split_ifs <;> first | exact ih _ _ | rfl

@[simp] theorem shift_nil (stack : List (State ν)) (s : σ) :
    shift number handler stack [] s = .ok (stack, s) := by rw [shift]

theorem shift_F_more {result r xs : List UInt8} {stack : List (State ν)} {s : σ}
    (h : scanNumber result xs = (r, none)) :
    shift number handler (.F result :: stack) xs s = .ok (.F r :: stack, s) := by
  cases xs with
  | nil =>
    obtain rfl : result = r := by simpa [scanNumber] using h
    exact shift_nil _ _
  | cons x xs =>
    rw [shift]
    split <;> simp_all

theorem shift_F_done {result r rest xs : List UInt8} {stack : List (State ν)} {s : σ}
    (h : scanNumber result xs = (r, some rest)) :
    shift number handler (.F result :: stack) xs s =
      match Utf8.read? r with
      | none => .error (.nonUtf8Number, s)
      | some text =>
        match number.parse text with
        | none => .error (.invalidNumber, s)
        | some y => (reduce handler stack (.F y) s).bind fun p =>
          shift number handler p.1 rest p.2 := by
  cases xs with
  | nil => simp [scanNumber] at h
  | cons x xs =>
    rw [shift]
    split
    · simp_all
    · rename_i heq
      obtain ⟨rfl, rfl⟩ : _ = r ∧ _ = rest := by simpa [heq] using h
      rfl

theorem shift_S {result xs : List UInt8} {escape : Bool} {stack : List (State ν)} {s : σ} :
    shift number handler (.S result escape :: stack) xs s =
      match scanString result escape xs with
      | .more r e => .ok (.S r e :: stack, s)
      | .unknown y => .error (.unknownEscape y, s)
      | .done r rest => (reduce handler stack (.S (Utf8.fromUtf8Lossy r)) s).bind fun p =>
          shift number handler p.1 rest p.2 := by
  cases xs with
  | nil => simp [scanString]
  | cons x xs =>
    rw [shift]
    split <;> simp_all

/-- Feeding a concatenation is feeding its parts one after the other. -/
theorem shift_append (stack : List (State ν)) (xs ys : List UInt8) (s : σ) :
    shift number handler stack (xs ++ ys) s =
      (shift number handler stack xs s).bind fun p => shift number handler p.1 ys p.2 := by
  induction hn : xs.length using Nat.strong_induction_on generalizing xs stack s with
  | _ n ih =>
    subst hn
    -- one call of `reduce` and then the rest, which is shorter
    have hrest (r : Result ν ε σ) (rest : List UInt8) (hlt : rest.length < xs.length) :
        (r.bind fun p => shift number handler p.1 (rest ++ ys) p.2) =
          (r.bind fun p => shift number handler p.1 rest p.2).bind
            fun p => shift number handler p.1 ys p.2 := by
      cases r with
      | error e => rfl
      | ok p => exact ih rest.length hlt p.1 rest p.2 rfl
    cases xs with
    | nil => simp [Except.bind]
    | cons x rem =>
      have hrem : rem.length < (x :: rem).length := Nat.lt_succ_self _
      cases stack with
      | nil => simp [shift, Except.bind]
      | cons top stack =>
        cases top with
        | V =>
          simp only [List.cons_append, shift]
          split_ifs
          · exact hrest _ rem hrem
          · exact ih _ hrem _ rem s rfl
          · exact ih _ hrem _ rem s rfl
          · exact hrest _ rem hrem
          · exact hrest _ rem hrem
          · exact ih _ hrem _ rem s rfl
          · rfl
        | T result key => simp [shift, Except.bind]
        | F result =>
          rcases hscan : scanNumber result (x :: rem) with ⟨r, _ | rest⟩
          · have happ := scanNumber_append_none ys hscan
            rw [shift_F_more hscan]
            -- the number goes on in `ys`
            rcases hys : scanNumber r ys with ⟨r', _ | rest'⟩
            · rw [shift_F_more (happ.trans hys)]
              exact (shift_F_more hys).symm
            · rw [shift_F_done (happ.trans hys)]
              exact (shift_F_done hys).symm
          · rw [shift_F_done hscan, shift_F_done (scanNumber_append_some ys hscan)]
            cases Utf8.read? r with
            | none => rfl
            | some text =>
              simp only
              cases number.parse text with
              | none => rfl
              | some y => exact hrest _ rest (scanNumber_length hscan)
        | S result escape =>
          rw [shift_S, shift_S, scanString_append]
          cases hscan : scanString result escape (x :: rem) with
          | more r e =>
            simp only [Except.bind]
            exact shift_S.symm
          | done r rest =>
            simp only
            exact hrest _ rest (scanString_length hscan)
          | unknown y => rfl

/-- The cuts between chunks do not matter. -/
theorem shiftAll_eq_shift (stack : List (State ν)) (chunks : List (List UInt8)) (s : σ) :
    shiftAll number handler stack chunks s = shift number handler stack chunks.flatten s := by
  induction chunks generalizing stack s with
  | nil => simp [shiftAll]
  | cons data chunks ih => simp only [shiftAll, List.flatten_cons, shift_append, ih]

/-! What one encoded value does to the parser. -/

theorem scanNumber_token {result bs rest : List UInt8} (h : 0x40 ∉ bs) :
    scanNumber result (bs ++ 0x40 :: rest) = (result ++ bs, some rest) := by
  induction bs generalizing result with
  | nil => simp [scanNumber]
  | cons b bs ih =>
    obtain ⟨hb, hbs⟩ : b ≠ 0x40 ∧ 0x40 ∉ bs := by simpa [eq_comm] using h
    simp only [List.cons_append, scanNumber, if_neg hb, ih hbs, List.append_assoc, List.nil_append]

theorem scanString_token {result s rest : List UInt8} :
    scanString result false (LuaValue.gsub s ++ 0x40 :: 0x7E :: rest) =
      .done (result ++ s) rest := by
  induction s generalizing result with
  | nil => simp [LuaValue.gsub, scanString]
  | cons b s ih =>
    have hrest : LuaValue.gsub (b :: s) =
        (if b = 0x40 then [0x40, 0x2E] else [b]) ++ LuaValue.gsub s := rfl
    rw [hrest]
    by_cases hb : b = 0x40
    · subst hb
      simp [scanString, ih]
    · simp [scanString, hb, ih]

theorem reduce_key {k : LuaValue ν} {key : Key ν} (h : LuaValue.lossyKey k = some key)
    (result : Table ν) (stack : List (State ν)) (s : σ) :
    reduce handler (.T result none :: stack) (LuaValue.lossy k) s =
      .ok (.V :: .T result (some key) :: stack, s) := by
  cases k with
  | nil | table es => simp [LuaValue.lossyKey] at h
  | number x | string bs | boolean b =>
    obtain rfl := Option.some.inj h
    rfl

mutual

/-- Reading an encoded value is one call of `reduce` on what the server makes of it. -/
theorem shift_encode_lossy : ∀ (v : LuaValue ν), LuaValue.Regular number v →
    ∀ (stack : List (State ν)) (rest : List UInt8) (s : σ),
      shift number handler (.V :: stack) (LuaValue.encode number v ++ rest) s =
        (reduce handler stack (LuaValue.lossy v) s).bind fun p => shift number handler p.1 rest p.2
  | .nil, _, stack, rest, s => by simp [LuaValue.encode, LuaValue.lossy, shift]
  | .number x, hx, stack, rest, s => by
    have hscan : scanNumber [] (Utf8.bytes (number.print x) ++ 0x40 :: rest) =
        (Utf8.bytes (number.print x), some rest) := scanNumber_token (number.print_no_at x hx)
    have hshift : shift number handler (.V :: stack) (LuaValue.encode number (.number x) ++ rest) s =
        shift number handler (.F [] :: stack) (Utf8.bytes (number.print x) ++ 0x40 :: rest) s := by
      simp [LuaValue.encode, shift]
    rw [hshift, shift_F_done hscan, Utf8.read?_bytes]
    simp only [number.parse_print x hx, LuaValue.lossy]
  | .string bs, _, stack, rest, s => by
    have hshift : shift number handler (.V :: stack)
          (LuaValue.encode number (.string bs) ++ rest) s =
        shift number handler (.S [] false :: stack)
          (LuaValue.gsub bs ++ 0x40 :: 0x7E :: rest) s := by
      simp [LuaValue.encode, shift]
    rw [hshift, shift_S, scanString_token]
    simp only [List.nil_append, LuaValue.lossy]
  | .boolean b, _, stack, rest, s => by cases b <;> simp [LuaValue.encode, LuaValue.lossy, shift]
  | .table es, hes, stack, rest, s => by
    have hopen : shift number handler (.V :: stack) (LuaValue.encode number (.table es) ++ rest) s =
        shift number handler (.V :: .T [] none :: stack)
          (LuaValue.encodePairs number es ++ 0x21 :: rest) s := by
      simp [LuaValue.encode, shift]
    rw [hopen, shift_encodePairs_lossy es hes]
    simp [shift, reduce, LuaValue.lossy, OrderedMap.ofList]

theorem shift_encodePairs_lossy :
    ∀ (es : List (LuaValue ν × LuaValue ν)), LuaValue.RegularPairs number es →
    ∀ (result : Table ν) (stack : List (State ν)) (rest : List UInt8) (s : σ),
      shift number handler (.V :: .T result none :: stack)
          (LuaValue.encodePairs number es ++ rest) s =
        shift number handler (.V :: .T ((LuaValue.lossyPairs es).foldl
          (fun m e => OrderedMap.insert e.1 e.2 m) result) none :: stack) rest s
  | [], _, result, stack, rest, s => rfl
  | (k, v) :: es, ⟨⟨hk, hnil, htable⟩, ⟨hv, _⟩, hes⟩, result, stack, rest, s => by
    obtain ⟨key, hkey⟩ := Option.isSome_iff_exists.mp (LuaValue.lossyKey_isSome hnil htable)
    simp only [LuaValue.encodePairs, List.append_assoc, LuaValue.lossyPairs, hkey, List.foldl_cons]
    rw [shift_encode_lossy k hk, reduce_key hkey]
    simp only [Except.bind]
    rw [shift_encode_lossy v hv]
    simp only [reduce, Except.bind]
    exact shift_encodePairs_lossy es hes _ stack rest s

end

/-- Of text the server makes the value it stands for. -/
theorem shift_encode (v : LuaValue ν) (hv : LuaValue.Encodable number v) (stack : List (State ν))
    (rest : List UInt8) (s : σ) :
    shift number handler (.V :: stack) (LuaValue.encode number v ++ rest) s =
      (reduce handler stack (LuaValue.denote v) s).bind fun p => shift number handler p.1 rest p.2 := by
  rw [shift_encode_lossy v hv.regular, hv.lossy_eq]

end Parser

namespace LuaValue
variable {ν : Type} {number : NumberFormat ν}

theorem Reordered.ne_nil {v w : LuaValue ν} (h : Reordered v w) (hv : v ≠ .nil) : w ≠ .nil := by
  cases h with
  | refl => exact hv
  | table => nofun

theorem ReorderedPairs.refl (es : List (LuaValue ν × LuaValue ν)) : ReorderedPairs es es := by
  induction es with
  | nil => exact .nil
  | cons e es ih => exact .cons (.refl e.2) ih

theorem Reordered.exists_table {es : List (LuaValue ν × LuaValue ν)} {w : LuaValue ν}
    (h : Reordered (.table es) w) :
    ∃ fs gs, w = .table gs ∧ ReorderedPairs es fs ∧ fs.Perm gs := by
  cases h with
  | refl => exact ⟨es, es, rfl, .refl es, List.Perm.refl es⟩
  | table hes hperm => exact ⟨_, _, rfl, hes, hperm⟩

theorem ReorderedPairs.exists_right {es fs : List (LuaValue ν × LuaValue ν)}
    (h : ReorderedPairs es fs) {k v : LuaValue ν} (hmem : (k, v) ∈ es) :
    ∃ w, (k, w) ∈ fs ∧ Reordered v w :=
  match h, hmem with
  | .cons hv _, .head _ => ⟨_, List.mem_cons_self .., hv⟩
  | .cons _ hes, .tail _ hmem =>
    (hes.exists_right hmem).imp fun _ hw => hw.imp_left (List.mem_cons_of_mem _)

theorem ReorderedPairs.exists_left {es fs : List (LuaValue ν × LuaValue ν)}
    (h : ReorderedPairs es fs) {k w : LuaValue ν} (hmem : (k, w) ∈ fs) :
    ∃ v, (k, v) ∈ es ∧ Reordered v w :=
  match h, hmem with
  | .cons hv _, .head _ => ⟨_, List.mem_cons_self .., hv⟩
  | .cons _ hes, .tail _ hmem =>
    (hes.exists_left hmem).imp fun _ hv => hv.imp_left (List.mem_cons_of_mem _)

theorem ReorderedPairs.map_fst {es fs : List (LuaValue ν × LuaValue ν)}
    (h : ReorderedPairs es fs) : es.map Prod.fst = fs.map Prod.fst :=
  match h with
  | .nil => rfl
  | .cons _ hes => by rw [List.map_cons, List.map_cons, hes.map_fst]

theorem ReorderedPairs.keys {es fs : List (LuaValue ν × LuaValue ν)} (h : ReorderedPairs es fs) :
    es.map (fun e => toKey e.1) = fs.map fun e => toKey e.1 := by
  have hkeys := congrArg (List.map toKey) h.map_fst
  rwa [List.map_map, List.map_map] at hkeys

mutual

theorem Reordered.encodable : ∀ {v w : LuaValue ν}, Reordered v w → Encodable number v →
    Encodable number w
  | _, _, .refl _, hv => hv
  | _, _, .table hes hperm, ⟨hpairs, hkeys⟩ => by
    refine ⟨encodablePairs_iff.mpr fun e he => ?_, ?_⟩
    · exact encodablePairs_iff.mp (hes.encodable hpairs) e (hperm.mem_iff.mpr he)
    · rw [hes.keys] at hkeys
      exact (hperm.map fun e => toKey e.1).nodup hkeys

theorem ReorderedPairs.encodable :
    ∀ {es fs : List (LuaValue ν × LuaValue ν)}, ReorderedPairs es fs →
    EncodablePairs number es → EncodablePairs number fs
  | _, _, .nil, h => h
  | _, _, .cons hv hes, ⟨hk, ⟨he, hne⟩, hrest⟩ =>
    ⟨hk, ⟨hv.encodable he, hv.ne_nil hne⟩, hes.encodable hrest⟩

end

mutual

theorem Reordered.regular : ∀ {v w : LuaValue ν}, Reordered v w → Regular number v →
    Regular number w
  | _, _, .refl _, hv => hv
  | _, _, .table hes hperm, hpairs => regularPairs_iff.mpr fun e he =>
    regularPairs_iff.mp (hes.regular hpairs) e (hperm.mem_iff.mpr he)

theorem ReorderedPairs.regular :
    ∀ {es fs : List (LuaValue ν × LuaValue ν)}, ReorderedPairs es fs →
    RegularPairs number es → RegularPairs number fs
  | _, _, .nil, h => h
  | _, _, .cons hv hes, ⟨hk, ⟨he, hne⟩, hrest⟩ =>
    ⟨hk, ⟨hv.regular he, hv.ne_nil hne⟩, hes.regular hrest⟩

end

variable [LinearOrder ν]

mutual

/-- The value a table stands for does not depend on the order of its entries. -/
theorem Reordered.denote_eq : ∀ {v w : LuaValue ν}, Reordered v w → Encodable number v →
    denote w = denote v
  | _, _, .refl _, _ => rfl
  | _, _, @Reordered.table _ es fs gs hes hperm, ⟨hpairs, hkeys⟩ => by
    have hnd : ((denotePairs fs).map Prod.fst).Nodup := by
      rw [hes.keys] at hkeys
      exact denotePairs_nodup hkeys
    have hlist := OrderedMap.ofList_perm (denotePairs_perm hperm) hnd
    rw [denote, denote, ← hlist, hes.denotePairs_eq hpairs]

theorem ReorderedPairs.denotePairs_eq : ∀ {es fs : List (LuaValue ν × LuaValue ν)},
    ReorderedPairs es fs → EncodablePairs number es → denotePairs fs = denotePairs es
  | _, _, .nil, _ => rfl
  | _, _, .cons hv hes, ⟨_, ⟨he, _⟩, hrest⟩ => by
    simp only [denotePairs, hv.denote_eq he, hes.denotePairs_eq hrest]

end

theorem forall₂_reordered {vs ws : List (LuaValue ν)} (hws : List.Forall₂ Reordered vs ws)
    (hvs : ∀ v ∈ vs, Encodable number v) :
    (∀ w ∈ ws, Encodable number w) ∧ ws.map denote = vs.map denote := by
  induction hws with
  | nil => exact ⟨hvs, rfl⟩
  | cons h _ ih =>
    obtain ⟨hv, hvs⟩ := List.forall_mem_cons.mp hvs
    obtain ⟨henc, heq⟩ := ih hvs
    exact ⟨List.forall_mem_cons.mpr ⟨h.encodable hv, henc⟩, by
      rw [List.map_cons, List.map_cons, h.denote_eq hv, heq]⟩

end LuaValue

namespace Parser
variable {ν : Type} [LinearOrder ν] {number : NumberFormat ν}

/-- A handler that accepts every value and remembers it. -/
def record (value : Value ν) (seen : List (Value ν)) :
    Except (String × List (Value ν)) (List (Value ν)) := .ok (seen ++ [value])

/-- The server sees tables with their keys in order, whatever a client sends. -/
theorem shiftAll_ordered (chunks : List (List UInt8)) :
    Keeps (fun seen => ∀ v ∈ seen, v.Ordered) (shiftAll number record new chunks []) := by
  have hrecord : Respects (record : Value ν → _ → _) fun seen => ∀ v ∈ seen, v.Ordered := by
    refine ⟨fun v seen seen' hv hseen hrun => ?_,
      fun v seen e seen' _ _ hrun => by simp [record] at hrun⟩
    obtain rfl : seen ++ [v] = seen' := Except.ok.inj hrun
    exact List.forall_mem_append.mpr ⟨hseen, List.forall_mem_singleton.mpr hv⟩
  exact shiftAll_keeps hrecord new chunks [] (by simp [new, State.Ordered]) (by simp)

/-- One value of arbitrary bytes. -/
theorem shiftAll_encode_lossy {v : LuaValue ν} (hv : LuaValue.Regular number v)
    {chunks : List (List UInt8)} (hchunks : chunks.flatten = LuaValue.encode number v) :
    shiftAll number record new chunks [] = .ok (new, [LuaValue.lossy v]) := by
  have hend := @shift_encode_lossy _ _ _ _ number record v hv [] [] []
  rw [List.append_nil] at hend
  rw [shiftAll_eq_shift, hchunks, new, hend]
  simp [reduce, record, Except.bind]

theorem shift_encode_stream (vs : List (LuaValue ν)) (hvs : ∀ v ∈ vs, LuaValue.Encodable number v)
    (seen : List (Value ν)) :
    shift number record new (vs.flatMap (LuaValue.encode number)) seen =
      .ok (new, seen ++ vs.map LuaValue.denote) := by
  induction vs generalizing seen with
  | nil => simp
  | cons v vs ih =>
    obtain ⟨hv, hvs⟩ := List.forall_mem_cons.mp hvs
    rw [List.flatMap_cons, new, shift_encode v hv]
    simp only [reduce, record, Except.bind]
    rw [← new, ih hvs, List.append_assoc, List.map_cons, List.singleton_append]

/-- The server sees exactly the values the client printed, in order and whatever the order
of table entries and the cuts of the stream, and is ready for the next one. The tables that it sees
are in order. -/
theorem shiftAll_encode (vs ws : List (LuaValue ν)) (hvs : ∀ v ∈ vs, LuaValue.Encodable number v)
    (hws : List.Forall₂ LuaValue.Reordered vs ws) (chunks : List (List UInt8))
    (hchunks : chunks.flatten = ws.flatMap (LuaValue.encode number)) :
    shiftAll number record new chunks [] = .ok (new, vs.map LuaValue.denote) ∧
      ∀ v ∈ vs.map LuaValue.denote, v.Ordered := by
  obtain ⟨henc, hdenote⟩ := LuaValue.forall₂_reordered hws hvs
  have hrun : shiftAll number record new chunks [] = .ok (new, vs.map LuaValue.denote) := by
    rw [shiftAll_eq_shift, hchunks, shift_encode_stream ws henc, hdenote, List.nil_append]
  have hordered := @shiftAll_ordered _ _ number chunks
  rw [hrun] at hordered
  exact ⟨hrun, hordered.2⟩

/-- One decimal digit, printed and read. -/
def digits : NumberFormat ℤ where
  print n := String.singleton (Char.ofNat (48 + n.toNat))
  parse t :=
    match t.toList with
    | [c] => if c.isDigit then some (c.toNat - 48) else none
    | _ => none
  finite n := 0 ≤ n ∧ n ≤ 9
  parse_print n := by
    rintro ⟨h₀, h₁⟩
    interval_cases n <;> rfl
  print_no_at n := by
    rintro ⟨h₀, h₁⟩
    interval_cases n <;> decide

/-- `{["@"] = 5, [true] = {}}` and `nil`, with the table enumerated the other way round and the
stream cut inside the escape. -/
theorem shiftAll_encode_example :
    shiftAll digits record new [[0x3D, 0x2B, 0x3D, 0x21, 0x40, 0x40], [0x2E, 0x40],
        [0x7E, 0x23, 0x35, 0x40, 0x21, 0x21]] [] =
      .ok (new, [.T [(.S "@", .F 5), (.B true, .T [])], .N]) :=
  (shiftAll_encode
    [.table [(.string [0x40], .number 5), (.boolean true, .table [])], .nil]
    [.table [(.boolean true, .table []), (.string [0x40], .number 5)], .nil]
    (by
      have hat : Utf8.Valid [0x40] := ⟨"@", by decide⟩
      simp [LuaValue.Encodable, LuaValue.EncodablePairs, LuaValue.toKey, digits, hat])
    (.cons (.table (.cons (.refl _) (.cons (.refl _) .nil)) (List.Perm.swap ..))
      (.cons (.refl _) .nil))
    _ (by decide)).1

end Parser
end OCRemote
