import OCRemote.Factory.Item

/-! `Item::serialize` and `ItemStack::parse` (`item.rs`): seven keys of a listed table become
fields, and are written back over the leftovers. -/

namespace OCRemote
variable {ν : Type}

section
variable [LinearOrder ν]

def Item.serialize (conv : Conversion ν) (item : Item ν) : Value ν :=
  let result := item.others
  let result := OrderedMap.insert (.S "label") (.S item.label) result
  let result := OrderedMap.insert (.S "name") (.S item.name) result
  let result := OrderedMap.insert (.S "damage") (.F (conv.ofInt item.damage)) result
  let result := OrderedMap.insert (.S "maxDamage") (.F (conv.ofInt item.maxDamage)) result
  let result := OrderedMap.insert (.S "maxSize") (.F (conv.ofInt item.maxSize)) result
  let result := OrderedMap.insert (.S "hasTag") (.B item.hasTag) result
  .T result

def ItemStack.parse (conv : Conversion ν) (value : Value ν) :
    Except (ConvertError ν) (ItemStack (Item ν)) := do
  let table ← value.tryIntoTable
  let (size, table) ← tableRemove (Value.tryIntoI32 conv) table "size"
  let (label, table) ← tableRemove Value.tryIntoStr table "label"
  let (name, table) ← tableRemove Value.tryIntoStr table "name"
  let (damage, table) ← tableRemove (Value.tryIntoI16 conv) table "damage"
  let (maxDamage, table) ← tableRemove (Value.tryIntoI16 conv) table "maxDamage"
  let (maxSize, table) ← tableRemove (Value.tryIntoI32 conv) table "maxSize"
  let (hasTag, table) ← tableRemove Value.tryIntoBool table "hasTag"
  return ⟨⟨label, name, damage, maxDamage, maxSize, hasTag, table⟩, size⟩

end

/-- The entries that `serialize` writes over the leftovers. -/
def Item.fields (conv : Conversion ν) (item : Item ν) : Table ν :=
  [(.S "label", .S item.label), (.S "name", .S item.name),
    (.S "damage", .F (conv.ofInt item.damage)), (.S "maxDamage", .F (conv.ofInt item.maxDamage)),
    (.S "maxSize", .F (conv.ofInt item.maxSize)), (.S "hasTag", .B item.hasTag)]

def Item.fieldKeys : List (Key ν) :=
  [.S "label", .S "name", .S "damage", .S "maxDamage", .S "maxSize", .S "hasTag"]

/-- The keys that are not among the leftovers of a listed item. -/
def ItemStack.reserved : List (Key ν) := .S "size" :: Item.fieldKeys

/-- The numbers of an item fit the types of its fields, and its leftovers are a `BTreeMap`. -/
structure Item.Typed [LinearOrder ν] (item : Item ν) : Prop where
  damage : i16Min ≤ item.damage ∧ item.damage ≤ i16Max
  maxDamage : i16Min ≤ item.maxDamage ∧ item.maxDamage ≤ i16Max
  maxSize : i32Min ≤ item.maxSize ∧ item.maxSize ≤ i32Max
  others : (Value.T item.others).Ordered

namespace Item
variable {conv : Conversion ν}

theorem reserved_nodup : (ItemStack.reserved : List (Key ν)).Nodup := by
  have hnames : ["size", "label", "name", "damage", "maxDamage", "maxSize", "hasTag"].Nodup := by
    decide
  exact hnames.map fun a b h => Key.S.inj h

theorem fields_nodup (item : Item ν) : ((item.fields conv).map Prod.fst).Nodup :=
  (List.nodup_cons.mp reserved_nodup).2

theorem ne_size_of_mem_fields {item : Item ν} {e : Key ν × Value ν} (he : e ∈ item.fields conv) :
    e.1 ≠ .S "size" := by
  have hsize : (.S "size" : Key ν) ∉ (item.fields conv).map Prod.fst :=
    (List.nodup_cons.mp reserved_nodup).1
  exact fun heq => hsize (heq ▸ List.mem_map_of_mem he)

theorem serialize_eq [LinearOrder ν] (item : Item ν) :
    item.serialize conv = .T (OrderedMap.insertAll (item.fields conv) item.others) := rfl

end Item

namespace ItemStack
variable [LinearOrder ν] {conv : Conversion ν}

/-- What `parse` accepts, and what it makes of it. -/
theorem parse_eq_ok {table : Table ν} {stack : ItemStack (Item ν)} :
    parse conv (.T table) = .ok stack ↔
      ((i32Min ≤ stack.size ∧ stack.size ≤ i32Max) ∧
        (i16Min ≤ stack.item.damage ∧ stack.item.damage ≤ i16Max) ∧
        (i16Min ≤ stack.item.maxDamage ∧ stack.item.maxDamage ≤ i16Max) ∧
        (i32Min ≤ stack.item.maxSize ∧ stack.item.maxSize ≤ i32Max)) ∧
      table.lookup (.S "size") = some (.F (conv.ofInt stack.size)) ∧
      (∀ e ∈ stack.item.fields conv, table.lookup e.1 = some e.2) ∧
      stack.item.others = OrderedMap.eraseAll reserved table := by
  obtain ⟨⟨label, name, damage, maxDamage, maxSize, hasTag, others⟩, size⟩ := stack
  change (tableRemove (Value.tryIntoI32 conv) table "size" >>= _) = _ ↔ _
  simp only [tableRemove_bind_eq_ok, Value.tryIntoI32_eq_ok,
    Value.tryIntoI16_eq_ok, Value.tryIntoStr_eq_ok, Value.tryIntoBool_eq_ok,
    OrderedMap.lookup_erase, Key.S.injEq, String.reduceEq, if_false]
  constructor
  · rintro ⟨_, ⟨_, hsize, hsizeRange, rfl⟩, _, ⟨_, hlabel, rfl⟩, _, ⟨_, hname, rfl⟩,
      _, ⟨_, hdamage, hdamageRange, rfl⟩, _, ⟨_, hmaxDamage, hmaxDamageRange, rfl⟩,
      _, ⟨_, hmaxSize, hmaxSizeRange, rfl⟩, _, ⟨_, hhasTag, rfl⟩, hstack⟩
    cases hstack
    exact ⟨⟨hsizeRange, hdamageRange, hmaxDamageRange, hmaxSizeRange⟩, hsize,
      by simp [Item.fields, *], rfl⟩
  · rintro ⟨⟨hsizeRange, hdamageRange, hmaxDamageRange, hmaxSizeRange⟩, hsize, hfields, rfl⟩
    simp only [Item.fields, List.forall_mem_cons] at hfields
    obtain ⟨hlabel, hname, hdamage, hmaxDamage, hmaxSize, hhasTag, -⟩ := hfields
    exact ⟨_, ⟨_, hsize, hsizeRange, rfl⟩, _, ⟨_, hlabel, rfl⟩, _, ⟨_, hname, rfl⟩,
      _, ⟨_, hdamage, hdamageRange, rfl⟩, _, ⟨_, hmaxDamage, hmaxDamageRange, rfl⟩,
      _, ⟨_, hmaxSize, hmaxSizeRange, rfl⟩, _, ⟨_, hhasTag, rfl⟩, rfl⟩

theorem exists_table {value : Value ν} {stack : ItemStack (Item ν)}
    (h : parse conv value = .ok stack) : ∃ table, value = .T table := by
  cases value with
  | T table => exact ⟨table, rfl⟩
  | N | F x | S x | B x => cases h

/-- A listed item keeps to the types of its fields. -/
theorem typed_of_parse {table : Table ν} {stack : ItemStack (Item ν)}
    (htable : (Value.T table).Ordered) (h : parse conv (.T table) = .ok stack) :
    stack.item.Typed := by
  obtain ⟨⟨-, hdamage, hmaxDamage, hmaxSize⟩, -, -, hothers⟩ := parse_eq_ok.mp h
  exact ⟨hdamage, hmaxDamage, hmaxSize, hothers ▸ htable.eraseAll reserved⟩

/-- Writing the fields back gives the listed table without its size. -/
theorem serialize_of_parse {table : Table ν} {stack : ItemStack (Item ν)}
    (htable : (Value.T table).Ordered) (h : parse conv (.T table) = .ok stack) :
    stack.item.serialize conv = .T (OrderedMap.erase (.S "size") table) := by
  obtain ⟨-, -, hfields, hothers⟩ := parse_eq_ok.mp h
  have hsorted : OrderedMap.Sorted (OrderedMap.erase (.S "size") table) :=
    OrderedMap.sorted_erase htable.1 _
  have hleft : stack.item.others = OrderedMap.eraseAll ((stack.item.fields conv).map Prod.fst)
      (OrderedMap.erase (.S "size") table) := hothers
  have hkept : ∀ e ∈ stack.item.fields conv,
      (OrderedMap.erase (.S "size") table).lookup e.1 = some e.2 := fun e he => by
    rw [OrderedMap.lookup_erase, if_neg (Item.ne_size_of_mem_fields he), hfields e he]
  rw [Item.serialize_eq, hleft,
    OrderedMap.insertAll_eraseAll hsorted stack.item.fields_nodup hkept]

/-- An item written back is read again as it was, with whatever size is put beside it. -/
theorem parse_of_serialize {item : Item ν} {size : ℤ} (hitem : item.Typed)
    (hothers : ∀ key ∈ reserved, item.others.lookup key = none)
    (hsize : i32Min ≤ size ∧ size ≤ i32Max) {table : Table ν}
    (htable : item.serialize conv = .T table) :
    parse conv (.T (OrderedMap.insert (.S "size") (.F (conv.ofInt size)) table)) =
      .ok ⟨item, size⟩ := by
  obtain rfl := Value.T.inj (item.serialize_eq.symm.trans htable)
  have hnodup : ((item.fields conv).map Prod.fst).Nodup := item.fields_nodup
  refine parse_eq_ok.mpr ⟨⟨hsize, hitem.damage, hitem.maxDamage, hitem.maxSize⟩, ?_, ?_, ?_⟩
  · rw [OrderedMap.lookup_insert, if_pos rfl]
  · intro e he
    have hfield : (item.fields conv).lookup e.1 = some e.2 :=
      (OrderedMap.lookup_eq_some hnodup).mpr he
    rw [OrderedMap.lookup_insert, if_neg (Item.ne_size_of_mem_fields he),
      OrderedMap.lookup_insertAll hnodup, hfield, Option.some_or]
  · -- the size is written last, as if it were one more field
    have hall : OrderedMap.insert (.S "size") (.F (conv.ofInt size))
        (OrderedMap.insertAll (item.fields conv) item.others) =
          OrderedMap.insertAll (item.fields conv ++ [(.S "size", .F (conv.ofInt size))])
            item.others := by
      simp only [OrderedMap.insertAll, List.foldl_append, List.foldl_cons, List.foldl_nil]
    have hkeys : ((item.fields conv ++ [(.S "size", .F (conv.ofInt size))] : Table ν).map
        Prod.fst).Nodup := by
      rw [List.map_append, List.nodup_append_comm]
      exact Item.reserved_nodup
    refine hall ▸ (OrderedMap.eraseAll_insertAll hitem.others.1 hkeys (fun e he => ?_) hothers).symm
    rcases List.mem_append.mp he with he | he
    · exact List.mem_cons_of_mem _ (List.mem_map_of_mem he)
    · rw [List.mem_singleton.mp he]
      exact List.mem_cons_self ..

theorem lookup_reserved_of_parse {table : Table ν} {stack : ItemStack (Item ν)}
    (h : parse conv (.T table) = .ok stack) :
    ∀ key ∈ reserved, stack.item.others.lookup key = none := by
  obtain ⟨-, -, -, hothers⟩ := parse_eq_ok.mp h
  intro key hkey
  rw [hothers, OrderedMap.lookup_eraseAll, if_pos hkey]

/-- Nothing but the size is lost. -/
theorem item_eq_iff {table table' : Table ν} {stack stack' : ItemStack (Item ν)}
    (htable : (Value.T table).Ordered) (htable' : (Value.T table').Ordered)
    (h : parse conv (.T table) = .ok stack) (h' : parse conv (.T table') = .ok stack') :
    stack.item = stack'.item ↔ ∀ key ≠ .S "size", table.lookup key = table'.lookup key := by
  have hserialize := serialize_of_parse htable h
  have hserialize' := serialize_of_parse htable' h'
  rw [← OrderedMap.erase_eq_erase_iff htable.1 htable'.1]
  constructor
  · intro heq
    rw [heq, hserialize'] at hserialize
    exact (Value.T.inj hserialize).symm
  · intro htables
    -- both items are read back from the same table
    have hsize : i32Min ≤ 0 ∧ 0 ≤ i32Max := by decide
    have hback := parse_of_serialize (typed_of_parse htable h) (lookup_reserved_of_parse h) hsize
      hserialize
    have hback' := parse_of_serialize (typed_of_parse htable' h') (lookup_reserved_of_parse h')
      hsize hserialize'
    rw [htables, hback'] at hback
    exact (congrArg item (Except.ok.inj hback)).symm

end ItemStack
end OCRemote
