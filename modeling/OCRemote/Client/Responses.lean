import OCRemote.Client.Requests
import OCRemote.Client.Results

/-! What the server makes of a sequence that a client sends, which is a table of positions without the
values that are nil: the results of a call, and the items of a network. -/

namespace OCRemote
variable {ν : Type}

namespace Client
variable {conv : Conversion ν}

theorem packFrom_cons {v : LuaValue ν} (hv : v ≠ .nil) (i : ℕ) (out : List (LuaValue ν)) :
    packFrom conv i (v :: out) = (.number (conv.ofInt i), v) :: packFrom conv (i + 1) out := by
  cases v with
  | nil => exact absurd rfl hv
  | number _ | string _ | boolean _ | table _ => rfl

/-- An enumeration of a sequence is one of its values. -/
theorem reordered_packFrom {out : List (LuaValue ν)} {i : ℕ} {fs : List (LuaValue ν × LuaValue ν)}
    (h : LuaValue.ReorderedPairs (packFrom conv i out) fs) :
    ∃ ws, List.Forall₂ LuaValue.Reordered out ws ∧ fs = packFrom conv i ws := by
  induction out generalizing i fs with
  | nil =>
    cases h
    exact ⟨[], .nil, rfl⟩
  | cons v out ih =>
    by_cases hv : v = .nil
    · subst hv
      obtain ⟨ws, hws, rfl⟩ := ih h
      exact ⟨.nil :: ws, .cons (.refl .nil) hws, rfl⟩
    · rw [packFrom_cons hv] at h
      obtain _ | ⟨hw, hrest⟩ := h
      obtain ⟨ws, hws, rfl⟩ := ih hrest
      exact ⟨_, .cons hw hws, (packFrom_cons (hw.ne_nil hv) ..).symm⟩

theorem mem_packFrom {ws : List (LuaValue ν)} {i : ℕ} {e : LuaValue ν × LuaValue ν} :
    e ∈ packFrom conv i ws ↔ ∃ j w, ws[j]? = some w ∧ w ≠ .nil ∧
      e = (.number (conv.ofInt ((i + j : ℕ) : ℤ)), w) := by
  induction ws generalizing i with
  | nil => simp [packFrom]
  | cons v ws ih =>
    have htail : e ∈ packFrom conv (i + 1) ws ↔ ∃ j w, ws[j]? = some w ∧ w ≠ .nil ∧
        e = (.number (conv.ofInt ((i + (j + 1) : ℕ) : ℤ)), w) := by
      rw [ih]
      simp only [Nat.add_assoc, Nat.add_comm 1]
    rw [← Nat.or_exists_add_one]
    simp only [List.getElem?_cons_zero, List.getElem?_cons_succ, Nat.add_zero]
    rw [← htail]
    by_cases hv : v = .nil
    · subst hv
      simp [packFrom]
    · simp [packFrom_cons hv, hv]

theorem packFrom_nodup {ws : List (LuaValue ν)} {i : ℕ} (h : i + ws.length ≤ 2 ^ 53 + 1) :
    ((packFrom conv i ws).map Prod.fst).Nodup := by
  induction ws generalizing i with
  | nil => exact List.nodup_nil
  | cons v ws ih =>
    rw [List.length_cons] at h
    have hrest : ((packFrom conv (i + 1) ws).map Prod.fst).Nodup := ih (by omega)
    by_cases hv : v = .nil
    · subst hv
      exact hrest
    · rw [packFrom_cons hv, List.map_cons]
      refine List.nodup_cons.mpr ⟨fun hmem => ?_, hrest⟩
      obtain ⟨e, he, hkey⟩ := List.mem_map.mp hmem
      obtain ⟨j, w, hj, -, rfl⟩ := mem_packFrom.mp he
      have hlt := (List.getElem?_eq_some_iff.mp hj).1
      have hposition := Conversion.ofInt_inj (by omega) (by omega) (LuaValue.number.inj hkey)
      omega

section
variable [LinearOrder ν]

/-- The entries of a sequence as the server has them. -/
structure Unpacked (conv : Conversion ν) (ws : List (LuaValue ν)) (table : Table ν) : Prop where
  nodup : (table.map Prod.fst).Nodup
  keys : ∀ e ∈ table, ∃ i < ws.length, e.1 = positionKey conv i
  there : ∀ (j : ℕ) w, ws[j]? = some w → w ≠ .nil →
    table.lookup (positionKey conv j) = some w.lossy
  gone : ∀ j : ℕ, ws[j]? = some .nil → table.lookup (positionKey conv j) = none

theorem lossy_pack {out : List (LuaValue ν)} (hlen : out.length ≤ 2 ^ 53) {w : LuaValue ν}
    (h : LuaValue.Reordered (pack conv out) w) :
    ∃ ws table, List.Forall₂ LuaValue.Reordered out ws ∧ w.lossy = .T table ∧
      Unpacked conv ws table := by
  obtain ⟨fs, gs, rfl, hfs, hgs⟩ := h.exists_table
  obtain ⟨ws, hws, rfl⟩ := reordered_packFrom hfs
  have hlen' : ws.length ≤ 2 ^ 53 := hws.length_eq ▸ hlen
  -- the entries that are there, in any order
  have hmem : ∀ e, e ∈ LuaValue.lossyPairs gs ↔ ∃ j w, ws[j]? = some w ∧ w ≠ .nil ∧
      e = (positionKey conv j, w.lossy) := by
    intro e
    rw [LuaValue.lossyPairs_eq]
    constructor
    · intro he
      obtain ⟨k, w, hkw, hkey, hw⟩ := OrderedMap.mem_mapEntries.mp he
      obtain ⟨j, w', hj, hne, heq⟩ := mem_packFrom.mp (hgs.mem_iff.mpr hkw)
      obtain ⟨rfl, rfl⟩ := Prod.mk.inj heq
      refine ⟨j, w, hj, hne, Prod.ext ?_ hw.symm⟩
      rw [← Option.some.inj hkey, positionKey, Nat.add_comm]
    · rintro ⟨j, w, hj, hne, rfl⟩
      refine OrderedMap.mem_mapEntries.mpr
        ⟨_, w, hgs.mem_iff.mp (mem_packFrom.mpr ⟨j, w, hj, hne, rfl⟩), ?_, rfl⟩
      rw [LuaValue.lossyKey, positionKey, Nat.add_comm]
  have hkeys : (((packFrom conv 1 ws).map Prod.fst).map LuaValue.lossyKey).Nodup := by
    refine (packFrom_nodup (by omega)).map_on fun k hk k' hk' heq => ?_
    obtain ⟨e, he, rfl⟩ := List.mem_map.mp hk
    obtain ⟨e', he', rfl⟩ := List.mem_map.mp hk'
    obtain ⟨i, v, -, -, rfl⟩ := mem_packFrom.mp he
    obtain ⟨j, v', -, -, rfl⟩ := mem_packFrom.mp he'
    simpa [LuaValue.lossyKey] using heq
  have hnodup : ((LuaValue.lossyPairs gs).map Prod.fst).Nodup := by
    rw [LuaValue.lossyPairs_eq]
    refine OrderedMap.mapEntries_nodup ((hgs.map fun e => LuaValue.lossyKey e.1).nodup ?_)
    rwa [List.map_map] at hkeys
  have hperm := OrderedMap.ofList_perm_self hnodup
  refine ⟨ws, _, hws, rfl, (hperm.map Prod.fst).nodup_iff.mpr hnodup, fun e he => ?_,
    fun j w hj hne => ?_, fun j hj => ?_⟩
  · obtain ⟨j, w, hj, -, rfl⟩ := (hmem e).mp (hperm.mem_iff.mp he)
    exact ⟨j, (List.getElem?_eq_some_iff.mp hj).1, rfl⟩
  · rw [OrderedMap.lookup_ofList hnodup]
    exact (OrderedMap.lookup_eq_some hnodup).mpr ((hmem _).mpr ⟨j, w, hj, hne, rfl⟩)
  · rw [OrderedMap.lookup_ofList hnodup]
    refine OrderedMap.lookup_eq_none.mpr fun hmem' => ?_
    obtain ⟨e, he, hkey⟩ := List.mem_map.mp hmem'
    obtain ⟨j', w, hj', hne, rfl⟩ := (hmem e).mp he
    have hlt := (List.getElem?_eq_some_iff.mp hj).1
    have hlt' := (List.getElem?_eq_some_iff.mp hj').1
    obtain rfl : j' = j := positionKey_inj (by omega) (by omega) hkey
    exact hne (Option.some.inj (hj'.symm.trans hj))

/-- A sequence without gaps is the vector of its values. -/
theorem Unpacked.tableToVec {ws : List (LuaValue ν)} {table : Table ν}
    (h : Unpacked conv ws table) (hlen : ws.length ≤ 2 ^ 53) (hne : ∀ w ∈ ws, w ≠ .nil) :
    OCRemote.tableToVec conv table = .ok (ws.map LuaValue.lossy) := by
  have hthere : ∀ i (hi : i < ws.length),
      table.lookup (positionKey conv i) = some ws[i].lossy := fun i hi =>
    h.there i ws[i] (List.getElem?_eq_getElem hi) (hne _ (List.getElem_mem hi))
  obtain ⟨vec, hvec, hveclen, hread⟩ := tableToVec_positions hlen h.keys h.nodup fun i hi => by
    have hmem := (OrderedMap.lookup_eq_some h.nodup).mp (hthere i (by omega))
    exact List.mem_map_of_mem hmem
  have hvalues : vec = ws.map LuaValue.lossy := by
    refine List.ext_getElem? fun i => ?_
    rcases lt_or_ge i ws.length with hi | hi
    · rw [hread i hi, hthere i hi, List.getElem?_map, List.getElem?_eq_getElem hi]
      rfl
    · rw [List.getElem?_eq_none (hveclen ▸ hi), List.getElem?_eq_none (by simpa using hi)]
  rw [hvec, hvalues]

end
end Client

/-! The results of a call. -/

/-- The errors of `call_result`. -/
inductive CallError (ν : Type) where
  | convert (e : ConvertError ν)
  | invalidCallResult (value : Table ν)

section
variable [LinearOrder ν] {τ : Type}

/-- `call_result`. -/
def callResult (conv : Conversion ν) (tryInto : Value ν → Except (ConvertError ν) τ)
    (value : Value ν) : Except (CallError ν) τ :=
  match value.tryIntoTable with
  | .error e => .error (.convert e)
  | .ok value =>
    match value.lookup (.F (conv.ofInt 1)) with
    | none => .error (.invalidCallResult (OrderedMap.erase (.F (conv.ofInt 1)) value))
    | some value => (tryInto value).mapError .convert

namespace Client
variable {ω : Type} {wire : Wire ν} {computer : Computer ν ω} {setup : Setup ν}

/-- The first value that came back. -/
def Returns (conv : Conversion ν) (tryInto : Value ν → Except (ConvertError ν) τ) (packet : Value ν) :
    List (LuaValue ν) → Prop
  | [] | .nil :: _ => ∃ value, callResult conv tryInto packet = .error (.invalidCallResult value)
  | v :: _ => ∃ w, LuaValue.Reordered v w ∧
      callResult conv tryInto packet = (tryInto w.lossy).mapError .convert

theorem returns_of_pack {conv : Conversion ν} {out : List (LuaValue ν)} (hlen : out.length ≤ 2 ^ 53)
    {w : LuaValue ν} (h : LuaValue.Reordered (pack conv out) w)
    (tryInto : Value ν → Except (ConvertError ν) τ) : Returns conv tryInto w.lossy out := by
  obtain ⟨ws, table, hws, htable, hunpacked⟩ := lossy_pack hlen h
  have hread : callResult conv tryInto w.lossy =
      match table.lookup (positionKey conv 0) with
      | none => .error (.invalidCallResult (OrderedMap.erase (.F (conv.ofInt 1)) table))
      | some value => (tryInto value).mapError .convert := by
    rw [htable]
    rfl
  cases hws with
  | nil =>
    have hnone : table.lookup (positionKey conv 0) = none := by
      refine OrderedMap.lookup_eq_none.mpr fun hmem => ?_
      obtain ⟨e, he, -⟩ := List.mem_map.mp hmem
      obtain ⟨i, hi, -⟩ := hunpacked.keys e he
      exact absurd hi (Nat.not_lt_zero i)
    rw [hnone] at hread
    exact ⟨_, hread⟩
  | @cons v v' out ws hv hrest =>
    by_cases hnil : v = .nil
    · subst hnil
      cases hv
      rw [hunpacked.gone 0 rfl] at hread
      exact ⟨_, hread⟩
    · rw [hunpacked.there 0 v' rfl (hv.ne_nil hnil)] at hread
      have hfound : ∃ w', LuaValue.Reordered v w' ∧
        callResult conv tryInto w.lossy = (tryInto w'.lossy).mapError .convert := ⟨v', hv, hread⟩
      cases v with
      | nil => exact absurd rfl hnil
      | number _ | string _ | boolean _ | table _ => exact hfound

/-- In an environment the address resolves to a component, and a method of it that is invoked then
gives these values. -/
def Called (computer : Computer ν ω) (env : Env ω) (addr : String) (fn : LuaValue ν)
    (args out : List (LuaValue ν)) : Prop :=
  ∃ inv env' m, getInv computer (luaString addr) env = .ok (inv, env') ∧
    computer.invoke inv fn args env'.machine = (.ok out, m)

omit [LinearOrder ν] in
theorem method_eq_ok {inv : List UInt8} {fn : LuaValue ν} {args out : List (LuaValue ν)}
    {env env' : Env ω} (h : method computer (some inv) fn args env = .ok (out, env')) :
    ∃ m, computer.invoke inv fn args env.machine = (.ok out, m) := by
  obtain ⟨addr, mid, hfirst, hcall⟩ := Script.bind_eq_ok.mp h
  obtain ⟨haddr, rfl⟩ := Script.ofOption_eq_ok.mp hfirst
  obtain rfl := Option.some.inj haddr
  obtain ⟨m, hinvoke, -⟩ := Script.call_eq_ok.mp hcall
  exact ⟨m, hinvoke⟩

theorem perform_call {action : Action.CallAction ν} {env env' : Env ω} {value : LuaValue ν}
    (h : perform wire computer setup (.call action) env = .ok (value, env')) :
    ∃ out, Called computer env action.addr (luaString action.func)
        (action.args.map LuaValue.ofValue) out ∧ value = pack wire.conv out := by
  obtain ⟨inv, found, hinv, hrest⟩ := Script.bind_eq_ok.mp h
  obtain ⟨out, called, hout, hpure⟩ := Script.bind_eq_ok.mp hrest
  obtain ⟨m, hinvoke⟩ := method_eq_ok hout
  cases hpure
  exact ⟨out, ⟨inv, found, m, hinv, hinvoke⟩, rfl⟩

/-! The items of a network. -/

/-- The items that are listed. -/
def passing (conv : Conversion ν) (items : List (LuaValue ν)) :
    List (List (LuaValue ν × LuaValue ν)) := items.filterMap fun item => (kept conv item).join

omit [LinearOrder ν] in
theorem packFrom_append (conv : Conversion ν) (i : ℕ) (xs ys : List (LuaValue ν)) :
    packFrom conv i (xs ++ ys) = packFrom conv i xs ++ packFrom conv (i + xs.length) ys := by
  induction xs generalizing i with
  | nil => rfl
  | cons x xs ih =>
    have hlen : i + 1 + xs.length = i + (x :: xs).length := by
      rw [List.length_cons]
      omega
    by_cases hx : x = .nil
    · subst hx
      change packFrom conv (i + 1) (xs ++ ys) = packFrom conv (i + 1) xs ++ _
      rw [ih, hlen]
    · rw [List.cons_append, packFrom_cons hx, packFrom_cons hx, ih, hlen, List.cons_append]

omit [LinearOrder ν] in
theorem length_packFrom_tables (conv : Conversion ν) (i : ℕ)
    (xs : List (List (LuaValue ν × LuaValue ν))) :
    (packFrom conv i (xs.map LuaValue.table)).length = xs.length := by
  induction xs generalizing i with
  | nil => rfl
  | cons x xs ih =>
    have hx : LuaValue.table x ≠ .nil := nofun
    rw [List.map_cons, packFrom_cons hx, List.length_cons, List.length_cons, ih]

theorem listMELoop_eq {conv : Conversion ν} {items : List (LuaValue ν)}
    {xs : List (List (LuaValue ν × LuaValue ν))} (hlen : xs.length + items.length ≤ 2 ^ 53)
    {result : List (LuaValue ν × LuaValue ν)}
    (h : listMELoop conv items (packFrom conv 1 (xs.map .table)) = some result) :
    result = packFrom conv 1 ((xs ++ passing conv items).map .table) := by
  induction items generalizing xs with
  | nil =>
    obtain rfl := Option.some.inj h
    rw [passing, List.filterMap_nil, List.append_nil]
  | cons item items ih =>
    rw [List.length_cons] at hlen
    rw [listMELoop] at h
    cases hc : kept conv item with
    | none => simp [hc] at h
    | some found =>
      cases found with
      | none =>
        simp only [hc] at h
        rw [ih (by omega) h, passing, passing, List.filterMap_cons, hc]
        rfl
      | some x =>
        simp only [hc] at h
        have hpassing : passing conv (item :: items) = x :: passing conv items := by
          rw [passing, List.filterMap_cons, hc]
          rfl
        -- the next position is free
        have hassign : LuaValue.assign (.number (conv.ofInt (xs.length + 1 : ℕ))) (.table x)
            (packFrom conv 1 (xs.map .table)) = packFrom conv 1 ((xs ++ [x]).map .table) := by
          have hx : LuaValue.table x ≠ .nil := by simp
          rw [List.map_append, packFrom_append, List.length_map]
          refine (LuaValue.assign_append hx fun e he heq => ?_).trans ?_
          · obtain ⟨j, w, hj, -, rfl⟩ := mem_packFrom.mp he
            have hlt := (List.getElem?_eq_some_iff.mp hj).1
            rw [List.length_map] at hlt
            have hnumber : conv.ofInt (xs.length + 1 : ℕ) = conv.ofInt ((1 + j : ℕ) : ℤ) := by
              simpa [LuaValue.rawEqual] using heq
            have hposition := Conversion.ofInt_inj (by omega) (by omega) hnumber
            omega
          · rw [Nat.add_comm xs.length 1]
            rfl
        rw [length_packFrom_tables, hassign] at h
        have hlen' : (xs ++ [x]).length + items.length ≤ 2 ^ 53 := by
          rw [List.length_append, List.length_singleton]
          omega
        rw [ih hlen' h, hpassing, List.append_assoc]
        rfl

/-- The network that the address resolves to in an environment has these items then. -/
def Listed (computer : Computer ν ω) (env : Env ω) (addr : String)
    (items : List (LuaValue ν × LuaValue ν)) : Prop :=
  ∃ out, Called computer env addr (luaString "getItemsInNetwork") [] out ∧
    tableOf (out.headD .nil) = some items

theorem perform_listME {addr : String} {env env' : Env ω} {value : LuaValue ν}
    (h : perform wire computer setup (.listME addr) env = .ok (value, env')) :
    ∃ items, Listed computer env addr items ∧
      listME wire.conv (ipairs wire.conv items) = some value := by
  obtain ⟨inv, found, hinv, hrest⟩ := Script.bind_eq_ok.mp h
  obtain ⟨out, called, hout, hrest⟩ := Script.bind_eq_ok.mp hrest
  obtain ⟨m, hinvoke⟩ := method_eq_ok hout
  obtain ⟨items, looked, hlooked, hlast⟩ := Script.bind_eq_ok.mp hrest
  obtain ⟨hitems, -⟩ := Script.ofOption_eq_ok.mp hlooked
  obtain ⟨hvalue, -⟩ := Script.ofOption_eq_ok.mp hlast
  exact ⟨items, ⟨out, ⟨inv, found, m, hinv, hinvoke⟩, hitems⟩, hvalue⟩

/-- The server reads the items that are listed, in their order. -/
theorem listME_read {conv : Conversion ν} {items : List (LuaValue ν)} (hlen : items.length ≤ 2 ^ 53)
    {value : LuaValue ν} (h : listME conv items = some value) {w : LuaValue ν}
    (hw : LuaValue.Reordered value w) :
    ∃ ws, List.Forall₂ (fun item w => LuaValue.Reordered (.table item) w) (passing conv items) ws ∧
      Action.ListME.parseResponse conv w.lossy =
        (ws.map LuaValue.lossy).mapM (ItemStack.parse conv) := by
  obtain ⟨result, hresult, rfl⟩ := Option.map_eq_some_iff.mp h
  have hpacked := @listMELoop_eq ν _ conv items [] (by simpa using hlen) result hresult
  rw [List.nil_append] at hpacked
  have hcount : ((passing conv items).map LuaValue.table).length ≤ 2 ^ 53 := by
    rw [List.length_map]
    exact (List.length_filterMap_le ..).trans hlen
  rw [hpacked] at hw
  obtain ⟨ws, table, hws, htable, hunpacked⟩ := lossy_pack hcount hw
  have hitems := List.forall₂_map_left_iff.mp hws
  have hne : ∀ w ∈ ws, w ≠ .nil := by
    intro w hmem
    obtain ⟨j, hj, rfl⟩ := List.getElem_of_mem hmem
    have hj' : j < (passing conv items).length := hitems.length_eq ▸ hj
    exact (hitems.get hj' hj).ne_nil nofun
  refine ⟨ws, hitems, ?_⟩
  have hvec := hunpacked.tableToVec (hws.length_eq ▸ hcount) hne
  rw [htable]
  change (tableToVec conv table >>= List.mapM (ItemStack.parse conv)) = _
  rw [hvec]
  rfl

/-! The slots of an inventory. -/

/-- What arrives for a slot: its item in some order, or nothing. -/
def Shown (conv : Conversion ν) (slot : Slot ν) (shown : Option (LuaValue ν)) : Prop :=
  ∃ found, Listing.occupied conv slot = some found ∧
    Option.Rel (fun item w => LuaValue.Reordered (.table item) w) found shown

def readSlot (conv : Conversion ν) (shown : Option (LuaValue ν)) :
    Except (ConvertError ν) (Option (ItemStack (Item ν))) :=
  shown.elim (.ok none) fun w => (ItemStack.parse conv w.lossy).map some

theorem mapM_eq_mapM {α β γ ε : Type} {f : α → Except ε γ} {g : β → Except ε γ} {l : List α}
    {l' : List β} (h : List.Forall₂ (fun a b => f a = g b) l l') : l.mapM f = l'.mapM g := by
  induction h with
  | nil => rfl
  | cons hab _ ih => rw [List.mapM_cons, List.mapM_cons, hab, ih]

/-- The loop compares the sizes of all items. -/
theorem occupied_of_listLoop {conv : Conversion ν} {count slot : ℕ} {rest : List (Slot ν)}
    {data result : List (LuaValue ν × LuaValue ν)}
    (h : Listing.listLoop conv count slot rest data = some result) :
    ∀ item ∈ rest, Listing.occupied conv item ≠ none := by
  induction rest generalizing slot data with
  | nil => simp
  | cons item rest ih =>
    rw [Listing.listLoop] at h
    cases hc : Listing.occupied conv item with
    | none => simp [hc] at h
    | some found =>
      have hitem : Listing.occupied conv item ≠ none := by simp [hc]
      cases found with
      | none => exact List.forall_mem_cons.mpr ⟨hitem, ih (by simpa [hc] using h)⟩
      | some kept => exact List.forall_mem_cons.mpr ⟨hitem, ih (by simpa [hc] using h)⟩

/-- A slot is read from what is at its position. -/
theorem exists_shown {conv : Conversion ν} {slots : List (Slot ν)} (hlen : slots.length ≤ 2 ^ 53)
    (hslots : ∀ slot ∈ slots, Listing.occupied conv slot ≠ none)
    {fs gs : List (LuaValue ν × LuaValue ν)}
    (hfs : LuaValue.ReorderedPairs (Listing.entries conv slots.length 1 slots) fs)
    (hgs : fs.Perm gs) (i : ℕ) :
    ∃ shown, ∀ slot, slots[i]? = some slot → Shown conv slot shown ∧
      Action.List.parseSlot conv
        (((OrderedMap.ofList (LuaValue.lossyPairs gs)).lookup (positionKey conv i)).getD .N) =
          readSlot conv shown := by
  have hnodup := Listing.lossyPairs_entries_nodup hlen hfs hgs
  cases hi : slots[i]? with
  | none => exact ⟨none, nofun⟩
  | some slot =>
    rw [OrderedMap.lookup_ofList hnodup]
    cases hv : Listing.content conv slots.length (1 + i) slot with
    | some v =>
      obtain ⟨w, hvw, hmem⟩ := Listing.lossyPairs_entries_mem hfs hgs hi hv
      rw [(OrderedMap.lookup_eq_some hnodup).mpr hmem, Option.getD_some]
      rcases Listing.content_cases hv with ⟨item, hitem, rfl⟩ | ⟨hempty, rfl⟩
      · obtain ⟨es, es', rfl, -, -⟩ := hvw.exists_table
        refine ⟨some (.table es'), fun slot' heq => ?_⟩
        obtain rfl := Option.some.inj heq
        exact ⟨⟨some item, hitem, .some hvw⟩, rfl⟩
      · -- a blank
        cases hvw
        refine ⟨none, fun slot' heq => ?_⟩
        obtain rfl := Option.some.inj heq
        exact ⟨⟨none, hempty, .none⟩, rfl⟩
    | none =>
      have habsent : positionKey conv i ∉ (LuaValue.lossyPairs gs).map Prod.fst := fun hmem => by
        obtain ⟨e, he, hkey⟩ := List.mem_map.mp hmem
        obtain ⟨j, slot', v, w, hj, hcontent, -, rfl⟩ :=
          Listing.mem_lossyPairs_entries hfs hgs he
        have hilt := (List.getElem?_eq_some_iff.mp hi).1
        have hjlt := (List.getElem?_eq_some_iff.mp hj).1
        obtain rfl : j = i := positionKey_inj (by omega) (by omega) hkey
        obtain rfl := Option.some.inj (hi.symm.trans hj)
        cases hv.symm.trans hcontent
      rw [OrderedMap.lookup_eq_none.mpr habsent, Option.getD_none]
      refine ⟨none, fun slot' heq => ?_⟩
      obtain rfl := Option.some.inj heq
      obtain ⟨found, hfound⟩ :=
        Option.ne_none_iff_exists'.mp (hslots slot (List.mem_of_getElem? hi))
      cases found with
      | none => exact ⟨⟨none, hfound, .none⟩, rfl⟩
      | some item => simp [Listing.content, hfound] at hv

/-- The server reads the slots of an inventory one for one. -/
theorem list_read {conv : Conversion ν} {slots : List (Slot ν)} (hlen : slots.length ≤ 2 ^ 53)
    {value : LuaValue ν} (h : Listing.list conv (some slots) = some value) {w : LuaValue ν}
    (hw : LuaValue.Reordered value w) :
    ∃ shown, List.Forall₂ (Shown conv) slots shown ∧
      Action.List.parseResponse conv w.lossy = shown.mapM (readSlot conv) := by
  obtain ⟨result, hresult, rfl⟩ := Option.map_eq_some_iff.mp h
  have hslots := occupied_of_listLoop hresult
  rw [Listing.listLoop_eq hslots (by omega) (by simp), List.nil_append] at hresult
  obtain rfl := Option.some.inj hresult
  obtain ⟨fs, gs, rfl, hfs, hgs⟩ := hw.exists_table
  have hnodup := Listing.lossyPairs_entries_nodup hlen hfs hgs
  have hperm := OrderedMap.ofList_perm_self hnodup
  choose shown hshown using exists_shown hlen hslots hfs hgs
  have hkeys : ∀ e ∈ OrderedMap.ofList (LuaValue.lossyPairs gs),
      ∃ i < slots.length, e.1 = positionKey conv i := fun e he => by
    obtain ⟨i, slot, v, w, hi, -, -, rfl⟩ :=
      Listing.mem_lossyPairs_entries hfs hgs (hperm.mem_iff.mp he)
    exact ⟨i, (List.getElem?_eq_some_iff.mp hi).1, rfl⟩
  -- there is something in the last slot
  have hlast : ∀ i, slots.length = i + 1 →
      positionKey conv i ∈ (OrderedMap.ofList (LuaValue.lossyPairs gs)).map Prod.fst := by
    intro i hi
    have hslot : slots[i]? = some slots[i] := List.getElem?_eq_getElem (by omega)
    have hcontent : ∃ v, Listing.content conv slots.length (1 + i) slots[i] = some v := by
      have hmem : slots[i] ∈ slots := List.getElem_mem _
      obtain ⟨found, hfound⟩ := Option.ne_none_iff_exists'.mp (hslots _ hmem)
      cases found with
      | none => exact ⟨.string [], by simp [Listing.content, hfound, hi, Nat.add_comm]⟩
      | some item => exact ⟨.table item, by simp [Listing.content, hfound]⟩
    obtain ⟨v, hv⟩ := hcontent
    obtain ⟨w, -, hmem⟩ := Listing.lossyPairs_entries_mem hfs hgs hslot hv
    exact List.mem_map.mpr ⟨_, hperm.mem_iff.mpr hmem, rfl⟩
  obtain ⟨vec, hvec, hveclen, hread⟩ := tableToVec_positions hlen hkeys
    ((hperm.map Prod.fst).nodup_iff.mpr hnodup) hlast
  have hat : ∀ i (hi : i < slots.length), Shown conv slots[i] (shown i) ∧
      Action.List.parseSlot conv (vec.get ⟨i, hveclen ▸ hi⟩) = readSlot conv (shown i) := by
    intro i hi
    have hslot := hshown i slots[i] (List.getElem?_eq_getElem hi)
    have hvalue := hread i hi
    rw [List.getElem?_eq_getElem (hveclen ▸ hi)] at hvalue
    refine ⟨hslot.1, ?_⟩
    rw [List.get_eq_getElem, Option.some.inj hvalue]
    exact hslot.2
  refine ⟨(List.range slots.length).map shown, ?_, ?_⟩
  · refine List.forall₂_iff_get.mpr ⟨by simp, fun i hi _ => ?_⟩
    simpa using (hat i hi).1
  · have hvalues : vec.mapM (Action.List.parseSlot conv) =
        ((List.range slots.length).map shown).mapM (readSlot conv) := by
      refine mapM_eq_mapM (List.forall₂_iff_get.mpr ⟨by simpa using hveclen, fun i hi _ => ?_⟩)
      simpa using (hat i (hveclen ▸ hi)).2
    rw [LuaValue.lossy]
    change (tableToVec conv _ >>= List.mapM (Action.List.parseSlot conv)) = _
    rw [hvec]
    exact hvalues

/-- A client that has no inventory there shows one empty slot. -/
theorem list_read_none {conv : Conversion ν} {value : LuaValue ν}
    (h : Listing.list conv none = some value) {w : LuaValue ν} (hw : LuaValue.Reordered value w) :
    Action.List.parseResponse conv w.lossy = .ok [none] := by
  obtain rfl := Option.some.inj h
  have hone : [(.string [] : LuaValue ν)].length ≤ 2 ^ 53 := by norm_num
  obtain ⟨ws, table, hws, htable, hunpacked⟩ := lossy_pack hone hw
  obtain _ | ⟨hv, ⟨⟩⟩ := hws
  cases hv
  have hvec := hunpacked.tableToVec hone (by simp)
  rw [htable]
  change (tableToVec conv table >>= List.mapM (Action.List.parseSlot conv)) = _
  rw [hvec]
  rfl

/-- The component that the address resolves to in an environment has this inventory on the side
then. -/
def Inspected (wire : Wire ν) (computer : Computer ν ω) (env : Env ω) (addr : String) (side : ℕ)
    (slots : Option (List (Slot ν))) : Prop :=
  ∃ inv env' m, getInv computer (luaString addr) env = .ok (inv, env') ∧
    computer.getAllStacks inv (.number (wire.conv.ofInt side)) env'.machine = (.ok slots, m)

theorem perform_list {addr : String} {side : ℕ} {env env' : Env ω} {value : LuaValue ν}
    (h : perform wire computer setup (.list addr side) env = .ok (value, env')) :
    ∃ slots, Inspected wire computer env addr side slots ∧
      Listing.list wire.conv slots = some value := by
  obtain ⟨inv, found, hinv, hrest⟩ := Script.bind_eq_ok.mp h
  obtain ⟨slots, listed, hslots, hlast⟩ := Script.bind_eq_ok.mp hrest
  obtain ⟨m, hcall, -⟩ := Script.call_eq_ok.mp hslots
  obtain ⟨hvalue, -⟩ := Script.ofOption_eq_ok.mp hlast
  exact ⟨slots, ⟨inv, found, m, hinv, hcall⟩, hvalue⟩

end Client
end
end OCRemote
