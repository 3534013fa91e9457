import OCRemote.Codec.Identity
import OCRemote.Factory.MEStorage

/-! Which items that clients list are one item for the factory. -/

namespace OCRemote
namespace ItemStack
variable {ν : Type} [LinearOrder ν]

/-- The bytes of the table arrived, in whatever chunks, and the stack was parsed. -/
def Received (number : NumberFormat ν) (conv : Conversion ν) (item : LuaValue ν)
    (stack : ItemStack (Item ν)) : Prop :=
  ∃ chunks value, chunks.flatten = LuaValue.encode number item ∧
    Parser.shiftAll number Parser.record Parser.new chunks [] = .ok (Parser.new, [value]) ∧
    parse conv value = .ok stack

variable {number : NumberFormat ν} {conv : Conversion ν}

theorem Received.parse_eq {item : LuaValue ν} {stack : ItemStack (Item ν)}
    (h : Received number conv item stack) (hitem : LuaValue.Regular number item) :
    parse conv (LuaValue.lossy item) = .ok stack := by
  obtain ⟨chunks, value, hchunks, hrun, hparse⟩ := h
  have hread := Parser.shiftAll_encode_lossy hitem hchunks
  rw [hrun] at hread
  obtain rfl : value = LuaValue.lossy item := by simpa using hread
  exact hparse

/-- What is provided of one item is no part of the entry of another, nor of its reservations. -/
theorem provide_frame {ε : Type} {item item' : Item ν} (h : item ≠ item')
    (rule : TopRule (Provider ε) Provider.priority) (t : ItemTable (Item ν) ε)
    (provider : Provider ε) (size : ℤ) :
    (t.provide item provider).items.lookup item' = t.items.lookup item' ∧
    ((t.provide item provider).reserveItem rule item' size).map Prod.snd =
      (t.reserveItem rule item' size).map Prod.snd := by
  have hlookup : (t.provide item provider).items.lookup item' = t.items.lookup item' := by
    rw [ItemTable.lookup_provide, if_neg h.symm]
  refine ⟨hlookup, ?_⟩
  unfold ItemTable.reserveItem
  rw [hlookup]
  cases t.items.lookup item' with
  | none => rfl
  | some info => simp [Function.comp_def]

/-- Items are told apart by the tables that the server makes of what it reads, sizes aside. When
the strings of both tables are text, these are the tables of the client. -/
theorem received_item_eq_iff (number : NumberFormat ν) (conv : Conversion ν)
    {es fs : List (LuaValue ν × LuaValue ν)} {stack stack' : ItemStack (Item ν)}
    (hes : LuaValue.Regular number (.table es)) (hfs : LuaValue.Regular number (.table fs))
    (h : Received number conv (.table es) stack) (h' : Received number conv (.table fs) stack') :
    (stack.item = stack'.item ↔ ∀ key ≠ .S "size",
      (OrderedMap.ofList (LuaValue.lossyPairs es)).lookup key =
        (OrderedMap.ofList (LuaValue.lossyPairs fs)).lookup key) ∧
    (LuaValue.Encodable number (.table es) → LuaValue.Encodable number (.table fs) →
      (stack.item = stack'.item ↔ LuaValue.Reordered
        (.table (LuaValue.assign (.string (Utf8.bytes "size")) .nil es))
        (.table (LuaValue.assign (.string (Utf8.bytes "size")) .nil fs)))) ∧
    (stack.item ≠ stack'.item → ∀ (ε : Type) (rule : TopRule (Provider ε) Provider.priority)
      (t : ItemTable (Item ν) ε) (provider : Provider ε) (size : ℤ),
      (t.provide stack.item provider).items.lookup stack'.item = t.items.lookup stack'.item ∧
      ((t.provide stack.item provider).reserveItem rule stack'.item size).map Prod.snd =
        (t.reserveItem rule stack'.item size).map Prod.snd) := by
  have hparse := h.parse_eq hes
  have hparse' := h'.parse_eq hfs
  have hiff := item_eq_iff (LuaValue.lossy_ordered (.table es)) (LuaValue.lossy_ordered (.table fs))
    hparse hparse'
  refine ⟨hiff, fun hes' hfs' => hiff.trans ?_,
    fun hne ε rule t provider size => provide_frame hne rule t provider size⟩
  have hsize : (.string (Utf8.bytes "size") : LuaValue ν) = LuaValue.ofKey (.S "size") := rfl
  rw [hsize, ← (hes'.assign_nil _).denote_eq_iff (hfs'.assign_nil _),
    LuaValue.denote_assign_nil hes', LuaValue.denote_assign_nil hfs', Value.T.injEq,
    hes'.1.lossyPairs_eq, hfs'.1.lossyPairs_eq]
  exact (OrderedMap.erase_eq_erase_iff (OrderedMap.sorted_ofList _) (OrderedMap.sorted_ofList _)
    _).symm

/-- One pebble, whose name need not be text. -/
def pebble (name : List UInt8) : List (LuaValue ℤ × LuaValue ℤ) :=
  [(.string (Utf8.bytes "damage"), .number 0), (.string (Utf8.bytes "hasTag"), .boolean false),
    (.string (Utf8.bytes "label"), .string (Utf8.bytes "Pebble")),
    (.string (Utf8.bytes "maxDamage"), .number 0), (.string (Utf8.bytes "maxSize"), .number 1),
    (.string (Utf8.bytes "name"), .string name), (.string (Utf8.bytes "size"), .number 1)]

def pebbleItem (name : String) : Item ℤ := ⟨"Pebble", name, 0, 0, 1, false, []⟩

theorem pebble_regular (name : List UInt8) :
    LuaValue.Regular Parser.digits (.table (pebble name)) := by
  simp [pebble, LuaValue.Regular, LuaValue.RegularPairs, Parser.digits]

theorem pebble_encodable (name : String) :
    LuaValue.Encodable Parser.digits (.table (pebble (Utf8.bytes name))) := by
  have htext : ∀ t : String, Utf8.Valid (Utf8.bytes t) := fun t => ⟨t, rfl⟩
  constructor
  · simp [pebble, LuaValue.EncodablePairs, LuaValue.Encodable, Parser.digits, htext]
  · simp [pebble, LuaValue.toKey]

theorem pebble_received (name : List UInt8) :
    Received Parser.digits wholes (.table (pebble name))
      ⟨pebbleItem (Utf8.fromUtf8Lossy name), 1⟩ := by
  refine ⟨[LuaValue.encode Parser.digits (.table (pebble name))], _, by simp,
    Parser.shiftAll_encode_lossy (pebble_regular name) (by simp), ?_⟩
  simp only [pebble, LuaValue.lossy, LuaValue.lossyPairs, LuaValue.lossyKey,
    Utf8.fromUtf8Lossy_bytes]
  rfl

/-- Pebbles of basalt and of slate are told apart. -/
theorem received_item_eq_iff_pebble :
    (pebbleItem "basalt" = pebbleItem "slate" ↔ ∀ key ≠ .S "size",
      (OrderedMap.ofList (LuaValue.lossyPairs (pebble (Utf8.bytes "basalt")))).lookup key =
        (OrderedMap.ofList (LuaValue.lossyPairs (pebble (Utf8.bytes "slate")))).lookup key) ∧
    (pebbleItem "basalt" = pebbleItem "slate" ↔ LuaValue.Reordered
      (.table (LuaValue.assign (.string (Utf8.bytes "size")) .nil (pebble (Utf8.bytes "basalt"))))
      (.table (LuaValue.assign (.string (Utf8.bytes "size")) .nil (pebble (Utf8.bytes "slate"))))) ∧
    ∀ (t : ItemTable (Item ℤ) ℕ) (provider : Provider ℕ),
      (t.provide (pebbleItem "basalt") provider).items.lookup (pebbleItem "slate") =
        t.items.lookup (pebbleItem "slate") := by
  have hbasalt := pebble_received (Utf8.bytes "basalt")
  have hslate := pebble_received (Utf8.bytes "slate")
  rw [Utf8.fromUtf8Lossy_bytes] at hbasalt hslate
  have hiff := received_item_eq_iff Parser.digits wholes (pebble_regular _) (pebble_regular _)
    hbasalt hslate
  refine ⟨hiff.1, hiff.2.1 (pebble_encodable _) (pebble_encodable _), fun t provider => ?_⟩
  exact (hiff.2.2 (by simp [pebbleItem]) ℕ (MaxHeap.firstTop _) t provider 0).1

/-- Two bytes that are no text are the same name to the server. -/
theorem received_item_eq_notText :
    ¬ ∀ (es fs : List (LuaValue ℤ × LuaValue ℤ)) (stack stack' : ItemStack (Item ℤ)),
      LuaValue.Regular Parser.digits (.table es) → LuaValue.Regular Parser.digits (.table fs) →
      Received Parser.digits wholes (.table es) stack →
      Received Parser.digits wholes (.table fs) stack' →
      (∃ key ≠ Utf8.bytes "size",
        ¬ LuaValue.Reordered (LuaValue.index (.string key) es) (LuaValue.index (.string key) fs)) →
      stack.item ≠ stack'.item := by
  intro hclaim
  have hdiffer : ¬ LuaValue.Reordered (.string [0xFF] : LuaValue ℤ) (.string [0xFE]) := by
    intro h
    cases h
  have hnames : Utf8.fromUtf8Lossy [0xFF] = Utf8.fromUtf8Lossy [0xFE] := by
    rw [Utf8.fromUtf8Lossy_singleton (by decide), Utf8.fromUtf8Lossy_singleton (by decide)]
  refine hclaim _ _ _ _ (pebble_regular [0xFF]) (pebble_regular [0xFE]) (pebble_received _)
    (pebble_received _) ⟨Utf8.bytes "name", by decide, hdiffer⟩ ?_
  simp only [hnames]

end ItemStack
end OCRemote
