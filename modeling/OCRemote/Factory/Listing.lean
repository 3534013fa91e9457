import OCRemote.Factory.ItemIdentity

/-! The operation `list` of `client.lua`, and the inventory that the server reads in its result. -/

namespace OCRemote

/-- What `getAllStacks` gives for a slot: nil, or a table. -/
abbrev Slot (ν : Type) := Option (List (LuaValue ν × LuaValue ν))

def LuaValue.truthy {ν : Type} : LuaValue ν → Bool
  | nil => false
  | boolean b => b
  | .number _ | string _ | table _ => true

namespace Listing
variable {ν : Type} [LinearOrder ν]

/-- The item of a slot that passes the test of the loop, without its aspects. No value means that
the comparison raises an error. -/
def occupied (conv : Conversion ν) : Slot ν → Option (Slot ν)
  | none => some none
  | some item =>
    if (LuaValue.index (.string (Utf8.bytes "name")) item).truthy then
      match LuaValue.index (.string (Utf8.bytes "size")) item with
      | .number size =>
        if conv.ofInt 0 < size then
          some (some (LuaValue.assign (.string (Utf8.bytes "aspects")) .nil item))
        else some none
      | _ => none
    else some none

/-- The loop from `slot` on. -/
def listLoop (conv : Conversion ν) (count : ℕ) :
    ℕ → List (Slot ν) → List (LuaValue ν × LuaValue ν) → Option (List (LuaValue ν × LuaValue ν))
  | _, [], result => some result
  | slot, item :: rest, result =>
    match occupied conv item with
    | none => none
    | some (some item) =>
      listLoop conv count (slot + 1) rest
        (LuaValue.assign (.number (conv.ofInt (slot : ℕ))) (.table item) result)
    | some none =>
      listLoop conv count (slot + 1) rest
        (if slot = count then
          LuaValue.assign (.number (conv.ofInt (slot : ℕ))) (.string []) result
        else result)

/-- The operation, where there is no inventory and where there is one. -/
def list (conv : Conversion ν) : Option (List (Slot ν)) → Option (LuaValue ν)
  | none => some (.table [(.number (conv.ofInt 1), .string [])])
  | some slots => (listLoop conv slots.length 1 slots []).map .table

/-! The loop writes down the items, and a blank in the last slot. -/

/-- What the loop leaves at a slot. -/
def content (conv : Conversion ν) (count slot : ℕ) (item : Slot ν) : Option (LuaValue ν) :=
  match occupied conv item with
  | some (some item) => some (.table item)
  | some none => if slot = count then some (.string []) else none
  | none => none

def entries (conv : Conversion ν) (count : ℕ) :
    ℕ → List (Slot ν) → List (LuaValue ν × LuaValue ν)
  | _, [] => []
  | slot, item :: rest =>
    match content conv count slot item with
    | some v => (.number (conv.ofInt (slot : ℕ)), v) :: entries conv count (slot + 1) rest
    | none => entries conv count (slot + 1) rest

variable {conv : Conversion ν} {count : ℕ}

theorem content_cases {i : ℕ} {slot : Slot ν} {v : LuaValue ν}
    (h : content conv count i slot = some v) :
    (∃ item, occupied conv slot = some (some item) ∧ v = .table item) ∨
      occupied conv slot = some none ∧ v = .string [] := by
  unfold content at h
  cases hc : occupied conv slot with
  | none => simp [hc] at h
  | some kept =>
    cases kept with
    | none =>
      simp only [hc, Option.ite_none_right_eq_some, Option.some.injEq] at h
      exact .inr ⟨rfl, h.2.symm⟩
    | some item =>
      simp only [hc, Option.some.injEq] at h
      exact .inl ⟨item, rfl, h.symm⟩

theorem mem_entries {slot : ℕ} {rest : List (Slot ν)} {e : LuaValue ν × LuaValue ν} :
    e ∈ entries conv count slot rest ↔ ∃ i item, rest[i]? = some item ∧
      e.1 = .number (conv.ofInt ((slot + i : ℕ) : ℤ)) ∧
      content conv count (slot + i) item = some e.2 := by
  induction rest generalizing slot with
  | nil => simp [entries]
  | cons item rest ih =>
    have htail : e ∈ entries conv count (slot + 1) rest ↔ ∃ i item', rest[i]? = some item' ∧
        e.1 = .number (conv.ofInt ((slot + (i + 1) : ℕ) : ℤ)) ∧
        content conv count (slot + (i + 1)) item' = some e.2 := by
      rw [ih]
      simp only [Nat.add_assoc, Nat.add_comm 1]
    rw [← Nat.or_exists_add_one]
    simp only [List.getElem?_cons_zero, List.getElem?_cons_succ, Nat.add_zero]
    rw [← htail]
    cases hc : content conv count slot item with
    | none => simp [entries, hc]
    | some v => simp [entries, hc, Prod.ext_iff, eq_comm]

theorem entries_nodup {slot : ℕ} {rest : List (Slot ν)} (h : slot + rest.length ≤ 2 ^ 53 + 1) :
    ((entries conv count slot rest).map Prod.fst).Nodup := by
  induction rest generalizing slot with
  | nil => exact List.nodup_nil
  | cons item rest ih =>
    rw [List.length_cons] at h
    have hrest : ((entries conv count (slot + 1) rest).map Prod.fst).Nodup := ih (by omega)
    cases hc : content conv count slot item with
    | none => simpa only [entries, hc] using hrest
    | some v =>
      simp only [entries, hc, List.map_cons]
      refine List.nodup_cons.mpr ⟨fun hmem => ?_, hrest⟩
      obtain ⟨e, he, hkey⟩ := List.mem_map.mp hmem
      obtain ⟨i, item', hi, hkey', -⟩ := mem_entries.mp he
      have hlt : i < rest.length := (List.getElem?_eq_some_iff.mp hi).1
      have hslot := Conversion.ofInt_inj (by omega) (by omega)
        (LuaValue.number.inj (hkey'.symm.trans hkey))
      omega

theorem listLoop_eq {slot : ℕ} {rest : List (Slot ν)} {result : List (LuaValue ν × LuaValue ν)}
    (hrest : ∀ item ∈ rest, occupied conv item ≠ none) (h : slot + rest.length ≤ 2 ^ 53 + 1)
    (hresult : ∀ e ∈ result, ∃ i < slot, e.1 = .number (conv.ofInt (i : ℕ))) :
    listLoop conv count slot rest result = some (result ++ entries conv count slot rest) := by
  induction rest generalizing slot result with
  | nil => simp [listLoop, entries]
  | cons item rest ih =>
    obtain ⟨hitem, hrest⟩ := List.forall_mem_cons.mp hrest
    rw [List.length_cons] at h
    -- the key is new
    have hassign : ∀ v ≠ .nil, LuaValue.assign (.number (conv.ofInt (slot : ℕ))) v result =
        result ++ [(.number (conv.ofInt (slot : ℕ)), v)] := fun v hv => by
      refine LuaValue.assign_append hv fun e he heq => ?_
      obtain ⟨i, hi, hkey⟩ := hresult e he
      rw [hkey] at heq
      have hnumber : conv.ofInt (slot : ℕ) = conv.ofInt (i : ℕ) := by
        simpa [LuaValue.rawEqual] using heq
      have hslot := Conversion.ofInt_inj (by omega) (by omega) hnumber
      omega
    have hnext : ∀ v, ∀ e ∈ result ++ [(.number (conv.ofInt (slot : ℕ)), v)],
        ∃ i < slot + 1, e.1 = .number (conv.ofInt (i : ℕ)) := fun v e he => by
      rcases List.mem_append.mp he with he | he
      · obtain ⟨i, hi, hkey⟩ := hresult e he
        exact ⟨i, by omega, hkey⟩
      · rw [List.mem_singleton.mp he]
        exact ⟨slot, by omega, rfl⟩
    have hsame : ∀ e ∈ result, ∃ i < slot + 1, e.1 = .number (conv.ofInt (i : ℕ)) := fun e he => by
      obtain ⟨i, hi, hkey⟩ := hresult e he
      exact ⟨i, by omega, hkey⟩
    cases hc : occupied conv item with
    | none => exact absurd hc hitem
    | some found =>
      cases found with
      | some kept =>
        have hrun := ih hrest (by omega) (hnext (.table kept))
        simp [listLoop, entries, content, hc, hassign, hrun]
      | none =>
        by_cases hslot : slot = count
        · have hrun := ih hrest (by omega) (hnext (.string []))
          subst hslot
          simp [listLoop, entries, content, hc, hassign, hrun]
        · have hrun := ih hrest (by omega) hsame
          simp [listLoop, entries, content, hc, hslot, hrun]

/-! What the server sees of a slot. -/

/-- The comparison of the loop does not fail, and an item that is listed can be parsed, in whatever
order its fields are enumerated. -/
def Carried (number : NumberFormat ν) (conv : Conversion ν) (slot : Slot ν) : Prop :=
  ∃ kept, occupied conv slot = some kept ∧ ∀ item, kept = some item →
    LuaValue.Regular number (.table item) ∧ ∀ item', LuaValue.Reordered (.table item) item' →
      ∃ stack, ItemStack.parse conv (LuaValue.lossy item') = .ok stack

/-- An empty slot is seen as empty, and an item as its stack. For an item of text this does not
depend on the order in which its fields were enumerated. -/
def Seen (number : NumberFormat ν) (conv : Conversion ν) (slot : Slot ν)
    (seen : Option (ItemStack (Item ν))) : Prop :=
  (seen = none ↔ occupied conv slot = some none) ∧
  ∀ item, occupied conv slot = some (some item) → ∃ item' stack,
    LuaValue.Reordered (.table item) item' ∧
    ItemStack.parse conv (LuaValue.lossy item') = .ok stack ∧ seen = some stack ∧
    (LuaValue.Encodable number (.table item) →
      ItemStack.parse conv (LuaValue.denote (.table item)) = .ok stack)

variable {number : NumberFormat ν}

/-- An item of text is parsed in the same way in every order. -/
theorem carried_of_encodable {slot : Slot ν} {item : List (LuaValue ν × LuaValue ν)}
    {stack : ItemStack (Item ν)} (hitem : occupied conv slot = some (some item))
    (htext : LuaValue.Encodable number (.table item))
    (hparse : ItemStack.parse conv (LuaValue.denote (.table item)) = .ok stack) :
    Carried number conv slot := by
  refine ⟨some item, hitem, fun item' heq => ?_⟩
  obtain rfl := Option.some.inj heq
  refine ⟨htext.regular, fun w hw => ⟨stack, ?_⟩⟩
  rwa [(hw.encodable htext).lossy_eq, hw.denote_eq htext]

theorem Carried.item {slot : Slot ν} (h : Carried number conv slot)
    {item : List (LuaValue ν × LuaValue ν)} (hitem : occupied conv slot = some (some item)) :
    LuaValue.Regular number (.table item) ∧ ∀ item', LuaValue.Reordered (.table item) item' →
      ∃ stack, ItemStack.parse conv (LuaValue.lossy item') = .ok stack := by
  obtain ⟨kept, hkept, hall⟩ := h
  exact hall item (Option.some.inj (hkept.symm.trans hitem))

theorem Carried.seen_of_content {slot : Slot ν} (h : Carried number conv slot) {i : ℕ}
    {v w : LuaValue ν} (hv : content conv count i slot = some v) (hw : LuaValue.Reordered v w) :
    ∃ seen, Action.List.parseSlot conv (LuaValue.lossy w) = .ok seen ∧
      Seen number conv slot seen := by
  rcases content_cases hv with ⟨item, hitem, rfl⟩ | ⟨hempty, rfl⟩
  · obtain ⟨stack, hstack⟩ := (h.item hitem).2 w hw
    obtain ⟨fs, gs, rfl, -, -⟩ := hw.exists_table
    refine ⟨some stack, ?_, by simp [hitem], fun item' heq => ?_⟩
    · change (ItemStack.parse conv (LuaValue.lossy (.table gs))).map some = _
      rw [hstack]
      rfl
    · obtain rfl : item = item' := by simpa [hitem] using heq
      refine ⟨_, stack, hw, hstack, rfl, fun htext => ?_⟩
      rwa [← hw.denote_eq htext, ← (hw.encodable htext).lossy_eq]
  · -- a blank
    cases hw
    exact ⟨none, rfl, by simp [Seen, hempty]⟩

theorem Carried.seen_none {slot : Slot ν} (h : Carried number conv slot) {i : ℕ}
    (hv : content conv count i slot = none) : Seen number conv slot none := by
  obtain ⟨kept, hkept, -⟩ := h
  unfold Seen
  simp only [content, hkept] at hv ⊢
  cases kept with
  | none => simp
  | some item => cases hv

/-- The loop leaves something in the last slot. -/
theorem Carried.exists_content {slot : Slot ν} (h : Carried number conv slot) {i : ℕ}
    (hi : i = count) : ∃ v, content conv count i slot = some v := by
  obtain ⟨kept, hkept, -⟩ := h
  unfold content
  rw [hkept]
  cases kept with
  | none => exact ⟨.string [], if_pos hi⟩
  | some item => exact ⟨.table item, rfl⟩

theorem regular_entries {slots : List (Slot ν)}
    (hfinite : ∀ i ≤ slots.length, number.finite (conv.ofInt (i : ℕ)))
    (hslots : ∀ slot ∈ slots, Carried number conv slot) :
    LuaValue.Regular number (.table (entries conv count 1 slots)) := by
  refine LuaValue.regularPairs_iff.mpr fun e he => ?_
  obtain ⟨k, v⟩ := e
  obtain ⟨i, slot, hi, hkey, hv⟩ := mem_entries.mp he
  obtain rfl : k = .number (conv.ofInt ((1 + i : ℕ) : ℤ)) := hkey
  have hlt : i < slots.length := (List.getElem?_eq_some_iff.mp hi).1
  refine ⟨⟨hfinite (1 + i) (by omega), by simp, by simp⟩, ?_⟩
  rcases content_cases hv with ⟨item, hitem, rfl⟩ | ⟨-, rfl⟩
  · exact ⟨((hslots slot (List.mem_of_getElem? hi)).item hitem).1, by simp⟩
  · exact ⟨trivial, by simp⟩

/-- The decoded entries, however they were enumerated. -/
theorem mem_lossyPairs_entries {slots : List (Slot ν)} {fs gs : List (LuaValue ν × LuaValue ν)}
    (hfs : LuaValue.ReorderedPairs (entries conv count 1 slots) fs) (hgs : fs.Perm gs)
    {e : Key ν × Value ν} (he : e ∈ LuaValue.lossyPairs gs) :
    ∃ i slot v w, slots[i]? = some slot ∧ content conv count (1 + i) slot = some v ∧
      LuaValue.Reordered v w ∧ e = (positionKey conv i, LuaValue.lossy w) := by
  rw [LuaValue.lossyPairs_eq] at he
  obtain ⟨k, w, hmem, hkey, hw⟩ := OrderedMap.mem_mapEntries.mp he
  obtain ⟨v, hv, hvw⟩ := hfs.exists_left (hgs.mem_iff.mpr hmem)
  obtain ⟨i, slot, hi, hnumber, hcontent⟩ := mem_entries.mp hv
  obtain rfl : k = .number (conv.ofInt ((1 + i : ℕ) : ℤ)) := hnumber
  refine ⟨i, slot, v, w, hi, hcontent, hvw, Prod.ext ?_ hw.symm⟩
  rw [← Option.some.inj hkey, positionKey, Nat.add_comm]

theorem lossyPairs_entries_mem {slots : List (Slot ν)} {fs gs : List (LuaValue ν × LuaValue ν)}
    (hfs : LuaValue.ReorderedPairs (entries conv count 1 slots) fs) (hgs : fs.Perm gs) {i : ℕ}
    {slot : Slot ν} {v : LuaValue ν} (hi : slots[i]? = some slot)
    (hv : content conv count (1 + i) slot = some v) :
    ∃ w, LuaValue.Reordered v w ∧
      (positionKey conv i, LuaValue.lossy w) ∈ LuaValue.lossyPairs gs := by
  have hmem : (.number (conv.ofInt ((1 + i : ℕ) : ℤ)), v) ∈ entries conv count 1 slots :=
    mem_entries.mpr ⟨i, slot, hi, rfl, hv⟩
  obtain ⟨w, hw, hvw⟩ := hfs.exists_right hmem
  have hkey : LuaValue.lossyKey (.number (conv.ofInt ((1 + i : ℕ) : ℤ))) =
      some (positionKey conv i) := by
    rw [LuaValue.lossyKey, positionKey, Nat.add_comm]
  rw [LuaValue.lossyPairs_eq]
  exact ⟨w, hvw, OrderedMap.mem_mapEntries.mpr ⟨_, w, hgs.mem_iff.mp hw, hkey, rfl⟩⟩

theorem lossyPairs_entries_nodup {slots : List (Slot ν)} (hlen : slots.length ≤ 2 ^ 53)
    {fs gs : List (LuaValue ν × LuaValue ν)}
    (hfs : LuaValue.ReorderedPairs (entries conv count 1 slots) fs) (hgs : fs.Perm gs) :
    ((LuaValue.lossyPairs gs).map Prod.fst).Nodup := by
  rw [LuaValue.lossyPairs_eq]
  refine OrderedMap.mapEntries_nodup ((hgs.map fun e => LuaValue.lossyKey e.1).nodup ?_)
  have hkeys := congrArg (List.map LuaValue.lossyKey) hfs.map_fst
  rw [List.map_map, List.map_map] at hkeys
  have hnodup : ((entries conv count 1 slots).map Prod.fst).Nodup := entries_nodup (by omega)
  have hmap : (((entries conv count 1 slots).map Prod.fst).map LuaValue.lossyKey).Nodup := by
    refine hnodup.map_on fun k hk l hl heq => ?_
    obtain ⟨e, he, rfl⟩ := List.mem_map.mp hk
    obtain ⟨f, hf, rfl⟩ := List.mem_map.mp hl
    obtain ⟨i, -, -, hi, -⟩ := mem_entries.mp he
    obtain ⟨j, -, -, hj, -⟩ := mem_entries.mp hf
    rw [hi, hj] at heq ⊢
    simpa [LuaValue.lossyKey] using heq
  rw [List.map_map, hkeys] at hmap
  exact hmap

/-- What is read at the position of a slot. -/
theorem exists_seen {slots : List (Slot ν)} (hlen : slots.length ≤ 2 ^ 53)
    (hslots : ∀ slot ∈ slots, Carried number conv slot) {fs gs : List (LuaValue ν × LuaValue ν)}
    (hfs : LuaValue.ReorderedPairs (entries conv count 1 slots) fs) (hgs : fs.Perm gs) (i : ℕ) :
    ∃ seen, ∀ slot, slots[i]? = some slot →
      Action.List.parseSlot conv
        (((OrderedMap.ofList (LuaValue.lossyPairs gs)).lookup (positionKey conv i)).getD .N) =
          .ok seen ∧ Seen number conv slot seen := by
  have hnodup := lossyPairs_entries_nodup hlen hfs hgs
  cases hi : slots[i]? with
  | none => exact ⟨none, nofun⟩
  | some slot =>
    have hslot := hslots slot (List.mem_of_getElem? hi)
    rw [OrderedMap.lookup_ofList hnodup]
    cases hv : content conv count (1 + i) slot with
    | some v =>
      obtain ⟨w, hvw, hmem⟩ := lossyPairs_entries_mem hfs hgs hi hv
      rw [(OrderedMap.lookup_eq_some hnodup).mpr hmem, Option.getD_some]
      obtain ⟨seen, hseen⟩ := hslot.seen_of_content hv hvw
      exact ⟨seen, fun slot' heq => Option.some.inj heq ▸ hseen⟩
    | none =>
      have habsent : positionKey conv i ∉ (LuaValue.lossyPairs gs).map Prod.fst := fun hmem => by
        obtain ⟨e, he, hkey⟩ := List.mem_map.mp hmem
        obtain ⟨j, slot', v, w, hj, hcontent, -, rfl⟩ := mem_lossyPairs_entries hfs hgs he
        have hilt := (List.getElem?_eq_some_iff.mp hi).1
        have hjlt := (List.getElem?_eq_some_iff.mp hj).1
        obtain rfl : j = i := positionKey_inj (by omega) (by omega) hkey
        obtain rfl := Option.some.inj (hi.symm.trans hj)
        cases hv.symm.trans hcontent
      rw [OrderedMap.lookup_eq_none.mpr habsent, Option.getD_none]
      exact ⟨none, fun slot' heq => ⟨rfl, Option.some.inj heq ▸ hslot.seen_none hv⟩⟩

/-- Listings keep their shape: the server gets one entry for each slot, in order, whatever the
order of enumeration and the cuts of the stream, and sees in each what is there. -/
theorem list_shape (number : NumberFormat ν) (conv : Conversion ν) (slots : List (Slot ν))
    (hlen : slots.length ≤ 2 ^ 53)
    (hfinite : ∀ i ≤ slots.length, number.finite (conv.ofInt (i : ℕ)))
    (hslots : ∀ slot ∈ slots, Carried number conv slot) :
    ∃ result, list conv (some slots) = some result ∧
      ∀ enumerated chunks, LuaValue.Reordered result enumerated →
        chunks.flatten = LuaValue.encode number enumerated →
        ∃ response out,
          Parser.shiftAll number Parser.record Parser.new chunks [] =
            .ok (Parser.new, [response]) ∧
          Action.List.parseResponse conv response = .ok out ∧ out.length = slots.length ∧
          ∀ (i : ℕ) slot, slots[i]? = some slot →
            ∃ seen, out[i]? = some seen ∧ Seen number conv slot seen := by
  have hok : ∀ slot ∈ slots, occupied conv slot ≠ none := fun slot hslot hnone => by
    obtain ⟨kept, hkept, -⟩ := hslots slot hslot
    cases hnone.symm.trans hkept
  have hloop : listLoop conv slots.length 1 slots [] = some (entries conv slots.length 1 slots) :=
    listLoop_eq hok (by omega) (by simp)
  refine ⟨.table (entries conv slots.length 1 slots), by simp [list, hloop],
    fun enumerated chunks hord hchunks => ?_⟩
  have hregular := hord.regular (regular_entries hfinite hslots)
  obtain ⟨fs, gs, rfl, hfs, hgs⟩ := hord.exists_table
  have hnodup := lossyPairs_entries_nodup hlen hfs hgs
  have hperm := OrderedMap.ofList_perm_self hnodup
  choose out hout using exists_seen hlen hslots hfs hgs
  have hparse : Action.List.parseResponse conv (LuaValue.lossy (.table gs)) =
      .ok ((List.range slots.length).map out) := by
    refine Action.List.parseResponse_positions hlen (fun e he => ?_)
      ((hperm.map Prod.fst).nodup_iff.mpr hnodup) (fun i hi => ?_) fun i hi => ?_
    · obtain ⟨i, slot, v, w, hi, -, -, rfl⟩ := mem_lossyPairs_entries hfs hgs (hperm.mem_iff.mp he)
      exact ⟨i, (List.getElem?_eq_some_iff.mp hi).1, rfl⟩
    · -- the last slot
      have hlast : slots[i]? = some slots[i] := List.getElem?_eq_getElem (by omega)
      have hslot := hslots _ (List.mem_of_getElem? hlast)
      obtain ⟨v, hv⟩ := hslot.exists_content (show 1 + i = slots.length by omega)
      obtain ⟨w, -, hmem⟩ := lossyPairs_entries_mem hfs hgs hlast hv
      exact List.mem_map.mpr ⟨_, hperm.mem_iff.mpr hmem, rfl⟩
    · exact (hout i slots[i] (List.getElem?_eq_getElem hi)).1
  refine ⟨_, _, Parser.shiftAll_encode_lossy hregular hchunks, hparse, by simp, fun i slot hi => ?_⟩
  have hilt := (List.getElem?_eq_some_iff.mp hi).1
  refine ⟨out i, ?_, (hout i slot hi).2⟩
  rw [List.getElem?_map, List.getElem?_range hilt, Option.map_some]

/-- Three slots, the first and the last of which are empty in the two ways there are. -/
theorem list_shape_pebble :
    ∃ result, list wholes (some [none, some (ItemStack.pebble (Utf8.bytes "slate")), some []]) =
        some result ∧
      ∀ enumerated chunks, LuaValue.Reordered result enumerated →
        chunks.flatten = LuaValue.encode Parser.digits enumerated →
        ∃ response out,
          Parser.shiftAll Parser.digits Parser.record Parser.new chunks [] =
            .ok (Parser.new, [response]) ∧
          Action.List.parseResponse wholes response = .ok out ∧ out.length = 3 ∧
          ∀ (i : ℕ) slot,
            [none, some (ItemStack.pebble (Utf8.bytes "slate")), some []][i]? = some slot →
            ∃ seen, out[i]? = some seen ∧ Seen Parser.digits wholes slot seen := by
  have hpebble : Carried Parser.digits wholes (some (ItemStack.pebble (Utf8.bytes "slate"))) := by
    have htext := ItemStack.pebble_encodable "slate"
    have hparse := (ItemStack.pebble_received (Utf8.bytes "slate")).parse_eq htext.regular
    exact carried_of_encodable rfl htext (htext.lossy_eq ▸ hparse)
  refine list_shape Parser.digits wholes _ (by decide) (fun i hi => ?_) ?_
  · have hi : i ≤ 3 := hi
    exact ⟨Int.natCast_nonneg i, by simp only [wholes]; omega⟩
  · simp only [List.forall_mem_cons]
    exact ⟨⟨none, rfl, nofun⟩, hpebble, ⟨none, rfl, nofun⟩, nofun⟩

end Listing
end OCRemote
