import OCRemote.Factory.ItemParse

/-! Requests of the server and what it reads in the responses (`action.rs`). -/

namespace OCRemote
namespace Action
variable {ν : Type} [LinearOrder ν]

/-- The closure of `List::parse_response`. -/
def List.parseSlot (conv : Conversion ν) : Value ν →
    Except (ConvertError ν) (Option (ItemStack (Item ν)))
  | .N => .ok none
  | .S _ => .ok none
  | x => (ItemStack.parse conv x).map some

def List.parseResponse (conv : Conversion ν) (response : Value ν) :
    Except (ConvertError ν) (List (Option (ItemStack (Item ν)))) := do
  let table ← response.tryIntoTable
  let vec ← tableToVec conv table
  vec.mapM (List.parseSlot conv)

def ListME.parseResponse (conv : Conversion ν) (response : Value ν) :
    Except (ConvertError ν) (List (ItemStack (Item ν))) := do
  let table ← response.tryIntoTable
  let vec ← tableToVec conv table
  vec.mapM (ItemStack.parse conv)

structure XferME (ν : Type) where
  meAddr : String
  meSlot : ℕ
  filter : Value ν
  size : ℤ
  transposerAddr : String
  transposerArgs : List (Value ν)

def XferME.buildRequest (conv : Conversion ν) (action : XferME ν) : Value ν :=
  let result := []
  let result := OrderedMap.insert (.S "op") (.S "xferME") result
  let result := OrderedMap.insert (.S "me") (.S action.meAddr) result
  let result :=
    OrderedMap.insert (.S "entry") (.F (conv.ofInt ((action.meSlot + 1 : ℕ) : ℤ))) result
  let result := OrderedMap.insert (.S "filter") action.filter result
  let result := OrderedMap.insert (.S "size") (.F (conv.ofInt action.size)) result
  let result := OrderedMap.insert (.S "inv") (.S action.transposerAddr) result
  let result :=
    OrderedMap.insert (.S "args") (.T (vecToTable conv action.transposerArgs)) result
  .T result

/-- The filter goes to the client as it is. -/
theorem XferME.lookup_filter (conv : Conversion ν) (action : XferME ν) :
    ∃ request, action.buildRequest conv = .T request ∧
      request.lookup (.S "filter") = some action.filter := by
  refine ⟨_, rfl, ?_⟩
  simp [OrderedMap.lookup_insert]

theorem mapM_map_eq {α β γ ε : Type} {f : β → Except ε γ} {value : α → β} {g : α → γ} {l : List α}
    (h : ∀ a ∈ l, f (value a) = .ok (g a)) : (l.map value).mapM f = .ok (l.map g) := by
  induction l with
  | nil => rfl
  | cons a l ih =>
    obtain ⟨ha, hl⟩ := List.forall_mem_cons.mp h
    rw [List.map_cons, List.mapM_cons, ha, ih hl]
    rfl

/-- A table of positions is read slot by slot. -/
theorem List.parseResponse_positions {conv : Conversion ν} {n : ℕ} (hn : n ≤ 2 ^ 53)
    {table : Table ν} (hkeys : ∀ e ∈ table, ∃ i < n, e.1 = positionKey conv i)
    (hnodup : (table.map Prod.fst).Nodup)
    (hlast : ∀ i, n = i + 1 → positionKey conv i ∈ table.map Prod.fst)
    {out : ℕ → Option (ItemStack (Item ν))}
    (hout : ∀ i < n,
      List.parseSlot conv ((table.lookup (positionKey conv i)).getD .N) = .ok (out i)) :
    List.parseResponse conv (.T table) = .ok ((List.range n).map out) := by
  obtain ⟨vec, hvec, hlen, hread⟩ := tableToVec_positions hn hkeys hnodup hlast
  have hvalues : vec =
      (List.range n).map fun i => (table.lookup (positionKey conv i)).getD .N := by
    refine List.ext_getElem? fun i => ?_
    rw [List.getElem?_map]
    rcases lt_or_ge i n with hi | hi
    · rw [hread i hi, List.getElem?_range hi, Option.map_some]
    · rw [List.getElem?_eq_none (hlen ▸ hi), List.getElem?_eq_none (by simpa using hi),
        Option.map_none]
  have hslots : vec.mapM (List.parseSlot conv) = .ok ((List.range n).map out) := by
    rw [hvalues]
    exact mapM_map_eq fun i hi => hout i (List.mem_range.mp hi)
  change (tableToVec conv table >>= List.mapM (List.parseSlot conv)) = _
  rw [hvec]
  exact hslots

end Action
end OCRemote
