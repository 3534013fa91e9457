import OCRemote.Factory.Action
import OCRemote.Factory.ItemTable

/-! The storage of an ME network (`storage/me.rs`): what it provides, and what it asks for when
an item is taken. -/

namespace OCRemote

structure MEAccess where
  client : String
  transposerAddr : String
  meAddr : String
  busSide : ℕ
  meSide : ℕ
  meSlot : ℕ

structure MEExtractor (ν : Type) where
  item : Item ν

namespace MEStorage
variable {ν : Type} [LinearOrder ν]

/-- Listed items say whether the network can craft them, which is no part of the item. -/
def listed (item : Item ν) : Item ν :=
  { item with others := OrderedMap.erase (.S "isCraftable") item.others }

/-- `MEStorage::update` once the stacks are listed. -/
def update (listing : List (ItemStack (Item ν))) (t : ItemTable (Item ν) (MEExtractor ν)) :
    ItemTable (Item ν) (MEExtractor ν) :=
  listing.foldl
    (fun t stack => t.provide (listed stack.item) ⟨i32Max, stack.size, ⟨listed stack.item⟩⟩) t

end MEStorage

/-- `MEExtractor::extract` with the access that was chosen for the item. -/
def MEExtractor.extract {ν : Type} [LinearOrder ν] (conv : Conversion ν) (extractor : MEExtractor ν)
    (access : MEAccess) (size : ℤ) (busSlot : ℕ) : Action.XferME ν where
  meAddr := access.meAddr
  meSlot := access.meSlot
  filter := extractor.item.serialize conv
  size := size
  transposerAddr := access.transposerAddr
  transposerArgs :=
    [.F (conv.ofInt access.meSide), .F (conv.ofInt access.busSide), .F (conv.ofInt size),
      .F (conv.ofInt ((access.meSlot + 1 : ℕ) : ℤ)), .F (conv.ofInt ((busSlot + 1 : ℕ) : ℤ))]

namespace MEStorage
variable {ν : Type} [LinearOrder ν] {conv : Conversion ν}

/-- The item that is asked for is the listed one without its size and its being craftable. -/
theorem serialize_listed {table : Table ν} {stack : ItemStack (Item ν)}
    (htable : (Value.T table).Ordered) (h : ItemStack.parse conv (.T table) = .ok stack) :
    (listed stack.item).serialize conv =
      .T (OrderedMap.erase (.S "isCraftable") (OrderedMap.erase (.S "size") table)) := by
  have hothers : OrderedMap.Sorted stack.item.others := (ItemStack.typed_of_parse htable h).others.1
  have hfields : (stack.item.fields conv).lookup (.S "isCraftable") = none := by
    simp [Item.fields]
  have hserialize := ItemStack.serialize_of_parse htable h
  rw [Item.serialize_eq] at hserialize
  have hfields' : (listed stack.item).fields conv = stack.item.fields conv := rfl
  rw [Item.serialize_eq, hfields', ← Value.T.inj hserialize,
    OrderedMap.erase_insertAll hothers stack.item.fields_nodup hfields]
  rfl

/-- The request for an item that was listed has the listed table as its filter. -/
theorem filter_of_parse {table : Table ν} {stack : ItemStack (Item ν)}
    (htable : (Value.T table).Ordered) (h : ItemStack.parse conv (.T table) = .ok stack)
    (access : MEAccess) (size : ℤ) (busSlot : ℕ) :
    ∃ request, (MEExtractor.extract conv ⟨listed stack.item⟩ access size busSlot).buildRequest conv =
        .T request ∧
      request.lookup (.S "filter") =
        some (.T (OrderedMap.erase (.S "isCraftable") (OrderedMap.erase (.S "size") table))) := by
  obtain ⟨request, hrequest, hfilter⟩ :=
    (MEExtractor.extract conv ⟨listed stack.item⟩ access size busSlot).lookup_filter conv
  exact ⟨request, hrequest, hfilter.trans (congrArg some (serialize_listed htable h))⟩

/-- The providers of an item take that item, which is one of those listed. -/
def Provides (listing : List (ItemStack (Item ν)))
    (t : ItemTable (Item ν) (MEExtractor ν)) : Prop :=
  ∀ item info, t.items.lookup item = some info → ∀ provider ∈ info.providers,
    provider.extractor = ⟨item⟩ ∧ ∃ stack ∈ listing, item = listed stack.item

theorem update_provides (listing : List (ItemStack (Item ν))) :
    Provides listing (update listing .empty) := by
  refine List.foldlRecOn (motive := Provides listing) listing _ ?_ fun t ih stack hstack => ?_
  · intro item info h
    simp [ItemTable.empty] at h
  · refine ItemTable.forall_provide ih (by simp) fun info hinfo provider hprovider => ?_
    unfold ItemInfo.provide at hprovider
    split_ifs at hprovider
    · rcases List.mem_cons.mp hprovider with rfl | hprovider
      · exact ⟨rfl, stack, hstack, rfl⟩
      · exact hinfo provider hprovider
    · exact hinfo provider hprovider

/-- After an update every provider asks for the table of a stack that was listed. -/
theorem update_filter {tables : List (Table ν)} {listing : List (ItemStack (Item ν))}
    (hlisting : ∀ stack ∈ listing, ∃ table ∈ tables, (Value.T table).Ordered ∧
      ItemStack.parse conv (.T table) = .ok stack)
    {item : Item ν} {info : ItemInfo (MEExtractor ν)}
    (hinfo : (update listing .empty).items.lookup item = some info)
    {provider : Provider (MEExtractor ν)} (hprovider : provider ∈ info.providers)
    (access : MEAccess) (size : ℤ) (busSlot : ℕ) :
    ∃ table ∈ tables, ∃ request,
      (provider.extractor.extract conv access size busSlot).buildRequest conv = .T request ∧
      request.lookup (.S "filter") =
        some (.T (OrderedMap.erase (.S "isCraftable") (OrderedMap.erase (.S "size") table))) := by
  obtain ⟨hitem, stack, hstack, rfl⟩ := update_provides listing item info hinfo provider hprovider
  obtain ⟨table, hmem, htable, hparse⟩ := hlisting stack hstack
  rw [hitem]
  exact ⟨table, hmem, filter_of_parse htable hparse access size busSlot⟩

/-- What is asked for is the listed item, nothing more and nothing less: writing a parsed item back
gives the listed table without its size, and without `isCraftable` in the filter; parsing what was
written gives the item back; items are equal when their tables differ in nothing but size; and after
an update every provider asks for the table of a stack that was listed. -/
theorem filter_exact (conv : Conversion ν) :
    (∀ value stack, value.Ordered → ItemStack.parse conv value = .ok stack →
      ∃ table, value = .T table ∧
        stack.item.serialize conv = .T (OrderedMap.erase (.S "size") table) ∧
        ∀ access size busSlot, ∃ request,
          (MEExtractor.extract conv ⟨listed stack.item⟩ access size busSlot).buildRequest conv =
            .T request ∧
          request.lookup (.S "filter") =
            some (.T (OrderedMap.erase (.S "isCraftable") (OrderedMap.erase (.S "size") table)))) ∧
    (∀ item size, item.Typed → (∀ key ∈ ItemStack.reserved, item.others.lookup key = none) →
      i32Min ≤ size → size ≤ i32Max →
      ∃ table, item.serialize conv = .T table ∧
        ItemStack.parse conv (.T (OrderedMap.insert (.S "size") (.F (conv.ofInt size)) table)) =
          .ok ⟨item, size⟩) ∧
    (∀ table table' stack stack', (Value.T table).Ordered → (Value.T table').Ordered →
      ItemStack.parse conv (.T table) = .ok stack → ItemStack.parse conv (.T table') = .ok stack' →
      (stack.item = stack'.item ↔ ∀ key ≠ .S "size", table.lookup key = table'.lookup key)) ∧
    ∀ (tables : List (Table ν)) (listing : List (ItemStack (Item ν))),
      (∀ stack ∈ listing, ∃ table ∈ tables, (Value.T table).Ordered ∧
        ItemStack.parse conv (.T table) = .ok stack) →
      ∀ item info, (update listing .empty).items.lookup item = some info →
        ∀ provider ∈ info.providers, ∀ access size busSlot, ∃ table ∈ tables, ∃ request,
          (provider.extractor.extract conv access size busSlot).buildRequest conv = .T request ∧
          request.lookup (.S "filter") =
            some (.T (OrderedMap.erase (.S "isCraftable")
              (OrderedMap.erase (.S "size") table))) := by
  refine ⟨fun value stack hvalue h => ?_, fun item size hitem hothers hmin hmax => ?_,
    fun table table' stack stack' htable htable' h h' =>
      ItemStack.item_eq_iff htable htable' h h',
    fun tables listing hlisting item info hinfo provider hprovider =>
      update_filter hlisting hinfo hprovider⟩
  · obtain ⟨table, rfl⟩ := ItemStack.exists_table h
    exact ⟨table, rfl, ItemStack.serialize_of_parse hvalue h, filter_of_parse hvalue h⟩
  · exact ⟨_, item.serialize_eq,
      ItemStack.parse_of_serialize hitem hothers ⟨hmin, hmax⟩ item.serialize_eq⟩

def craftableIron : Item ℤ := { iron with others := [(.S "isCraftable", .B true)] }

/-- Five pieces of iron as the network lists them. -/
def ironListed : Table ℤ :=
  [(.S "damage", .F 0), (.S "hasTag", .B false), (.S "isCraftable", .B true), (.S "label", .S "Iron"),
    (.S "maxDamage", .F 0), (.S "maxSize", .F 64), (.S "name", .S "iron"), (.S "size", .F 5)]

/-- The five pieces are asked for as they were listed, gold is read back with size 7, and nine
pieces of iron are the same item. -/
theorem filter_exact_iron :
    (∃ table, Value.T ironListed = .T table ∧
      craftableIron.serialize wholes = .T (OrderedMap.erase (.S "size") table) ∧
      ∀ access size busSlot, ∃ request,
        (MEExtractor.extract wholes ⟨listed craftableIron⟩ access size busSlot).buildRequest wholes =
          .T request ∧
        request.lookup (.S "filter") =
          some (.T (OrderedMap.erase (.S "isCraftable") (OrderedMap.erase (.S "size") table)))) ∧
    (∃ table, gold.serialize wholes = .T table ∧
      ItemStack.parse wholes
        (.T (OrderedMap.insert (.S "size") (.F (wholes.ofInt 7)) table)) = .ok ⟨gold, 7⟩) ∧
    (craftableIron = craftableIron ↔ ∀ key ≠ .S "size",
      ironListed.lookup key = (OrderedMap.insert (.S "size") (.F 9) ironListed).lookup key) := by
  have hordered : (Value.T ironListed).Ordered := by
    refine ⟨by decide, ?_⟩
    simp [ironListed, Table.Ordered, Value.Ordered]
  have hordered' : (Value.T (OrderedMap.insert (.S "size") (.F 9) ironListed)).Ordered :=
    hordered.insert _ trivial
  have hparse : ItemStack.parse wholes (.T ironListed) = .ok ⟨craftableIron, 5⟩ := by rfl
  have hparse' : ItemStack.parse wholes
      (.T (OrderedMap.insert (.S "size") (.F 9) ironListed)) = .ok ⟨craftableIron, 9⟩ := by rfl
  have hgold : gold.Typed := ⟨by decide, by decide, by decide, Value.Ordered.nil⟩
  exact ⟨(filter_exact wholes).1 _ _ hordered hparse,
    (filter_exact wholes).2.1 gold 7 hgold (by decide) (by decide) (by decide),
    (filter_exact wholes).2.2.1 _ _ _ _ hordered hordered' hparse hparse'⟩

end MEStorage
end OCRemote
