import OCRemote.Client.Session

/-! The results of a client can be written down: they are tables of what components gave. -/

namespace OCRemote

namespace LuaValue
variable {ν : Type} [DecidableEq ν] {number : NumberFormat ν}

theorem RegularPairs.assign {key x : LuaValue ν} {data : List (LuaValue ν × LuaValue ν)}
    (hdata : RegularPairs number data) (hkey : Regular number key ∧ key ≠ nil ∧ ∀ t, key ≠ table t)
    (hx : Regular number x) : RegularPairs number (LuaValue.assign key x data) := by
  have hnew : x ≠ nil → ∀ rest, RegularPairs number rest → RegularPairs number ((key, x) :: rest) :=
    fun hne rest hrest => ⟨hkey, ⟨hx, hne⟩, hrest⟩
  induction data with
  | nil =>
    cases x with
    | nil => exact hdata
    | number _ | string _ | boolean _ | table _ => exact hnew nofun [] hdata
  | cons e data ih =>
    obtain ⟨he, hv, hrest⟩ := hdata
    unfold LuaValue.assign
    split_ifs
    · cases x with
      | nil => exact hrest
      | number _ | string _ | boolean _ | table _ => exact hnew nofun data hrest
    · exact ⟨he, hv, ih hrest⟩

theorem Regular.index {key : LuaValue ν} {data : List (LuaValue ν × LuaValue ν)}
    (h : RegularPairs number data) : Regular number (LuaValue.index key data) := by
  unfold LuaValue.index
  cases hfind : data.find? fun e => rawEqual key e.1 with
  | none => exact trivial
  | some e => exact (regularPairs_iff.mp h e (List.mem_of_find?_eq_some hfind)).2.1

end LuaValue

namespace Client
variable {ν ω : Type}

/-- A key that counts. -/
theorem regular_position (wire : Wire ν) {n : ℕ} (hn : n ≤ wire.exact) :
    LuaValue.Regular wire.number (.number (wire.conv.ofInt n)) ∧
      LuaValue.number (wire.conv.ofInt n) ≠ .nil ∧
      ∀ t, LuaValue.number (wire.conv.ofInt n) ≠ .table t :=
  ⟨wire.finite_ofInt n hn, nofun, nofun⟩

/-- Values that can be written down, and no more of them than can be counted. -/
structure PlainValues (wire : Wire ν) (out : List (LuaValue ν)) : Prop where
  length : out.length ≤ wire.exact
  regular : ∀ v ∈ out, LuaValue.Regular wire.number v
  table : ∀ es, .table es ∈ out → es.length ≤ wire.exact

def PlainSlots (wire : Wire ν) (slots : Option (List (Slot ν))) : Prop :=
  ∀ s, slots = some s → s.length ≤ wire.exact ∧
    ∀ item, some item ∈ s → LuaValue.RegularPairs wire.number item

/-- What components give is plain. -/
structure Computer.Plain (wire : Wire ν) (computer : Computer ν ω) : Prop where
  invoke : ∀ addr fn args w out w', computer.invoke addr fn args w = (.ok out, w') →
    PlainValues wire out
  getAllStacks : ∀ addr side w slots w',
    computer.getAllStacks addr side w = (.ok slots, w') → PlainSlots wire slots

/-! What a piece of the script returns when it returns. -/

namespace Script
variable {α β : Type}

def Ensures (x : Script ω α) (Q : α → Prop) : Prop := ∀ env a env', x env = .ok (a, env') → Q a

theorem Ensures.pure {Q : α → Prop} {a : α} (h : Q a) : Ensures (pure a : Script ω α) Q := by
  intro env b env' hrun
  cases hrun
  exact h

theorem Ensures.raise {Q : α → Prop} {e : String} : Ensures (raise e : Script ω α) Q := by
  intro env a env' hrun
  cases hrun

/-- A script that runs through runs through piece by piece. -/
theorem bind_eq_ok {x : Script ω α} {f : α → Script ω β} {env env' : Env ω} {b : β} :
    (x >>= f) env = .ok (b, env') ↔ ∃ a mid, x env = .ok (a, mid) ∧ f a mid = .ok (b, env') := by
  change (x env).bind (fun p => f p.1 p.2) = _ ↔ _
  cases x env with
  | error e => simp [Except.bind]
  | ok p => simp [Except.bind, Prod.ext_iff]

theorem call_eq_ok {f : ω → Except String α × ω} {env env' : Env ω} {a : α} :
    call f env = .ok (a, env') ↔
      ∃ w, f env.machine = (.ok a, w) ∧ { env with machine := w } = env' := by
  unfold call
  rcases f env.machine with ⟨e | b, w⟩
  · simp
  · simp

theorem ofOption_eq_ok {e : String} {o : Option α} {env env' : Env ω} {a : α} :
    ofOption e o env = .ok (a, env') ↔ o = some a ∧ env = env' := by
  cases o with
  | none => simp [ofOption, raise]
  | some b =>
    change Except.ok (b, env) = _ ↔ _
    simp

theorem Ensures.bind {x : Script ω α} {f : α → Script ω β} {P : α → Prop} {Q : β → Prop}
    (hx : Ensures x P) (hf : ∀ a, P a → Ensures (f a) Q) : Ensures (x >>= f) Q := by
  intro env b env' hrun
  obtain ⟨a, mid, hfirst, hrest⟩ := bind_eq_ok.mp hrun
  exact hf a (hx env a mid hfirst) mid b env' hrest

theorem Ensures.any (x : Script ω α) : Ensures x fun _ => True := fun _ _ _ _ => trivial

theorem Ensures.ofOption {Q : α → Prop} {e : String} {o : Option α} (h : ∀ a, o = some a → Q a) :
    Ensures (ofOption e o : Script ω α) Q := by
  cases o with
  | none => exact .raise
  | some a => exact .pure (h a rfl)

theorem Ensures.call {Q : α → Prop} {f : ω → Except String α × ω}
    (h : ∀ w a w', f w = (.ok a, w') → Q a) : Ensures (call f) Q := by
  intro env a env' hrun
  obtain ⟨w, hf, -⟩ := call_eq_ok.mp hrun
  exact h _ a w hf

end Script

section
variable [LinearOrder ν] {wire : Wire ν} {computer : Computer ν ω} {setup : Setup ν}

omit [LinearOrder ν] in
theorem method_ensures (h : computer.Plain wire) (inv : Option (List UInt8)) (fn : LuaValue ν)
    (args : List (LuaValue ν)) :
    Script.Ensures (method computer inv fn args) (PlainValues wire) :=
  (Script.Ensures.any _).bind fun addr _ => .call (h.invoke addr fn args)

omit [LinearOrder ν] in
theorem pack_regular {out : List (LuaValue ν)} (hlen : out.length ≤ wire.exact)
    (hout : ∀ v ∈ out, LuaValue.Regular wire.number v) :
    LuaValue.Regular wire.number (pack wire.conv out) := by
  have hfrom : ∀ i, i + out.length ≤ wire.exact + 1 →
      LuaValue.RegularPairs wire.number (packFrom wire.conv i out) := by
    clear hlen
    induction out with
    | nil => exact fun _ _ => trivial
    | cons v out ih =>
      obtain ⟨hv, hout⟩ := List.forall_mem_cons.mp hout
      intro i hi
      rw [List.length_cons] at hi
      have hrest := ih hout (i + 1) (by omega)
      have hkey := regular_position wire (show i ≤ wire.exact by omega)
      cases v with
      | nil => exact hrest
      | number _ | string _ | boolean _ | table _ => exact ⟨hkey, ⟨hv, nofun⟩, hrest⟩
  exact hfrom 1 (by omega)

theorem occupied_regular {item kept : List (LuaValue ν × LuaValue ν)}
    (hitem : LuaValue.RegularPairs wire.number item)
    (h : Listing.occupied wire.conv (some item) = some (some kept)) :
    LuaValue.RegularPairs wire.number kept := by
  simp only [Listing.occupied] at h
  split_ifs at h
  · split at h
    · split_ifs at h
      · obtain rfl := Option.some.inj (Option.some.inj h)
        have haspects : LuaValue.string (Utf8.bytes "aspects") ≠ (.nil : LuaValue ν) := nofun
        exact hitem.assign ⟨trivial, haspects, nofun⟩ trivial
      · cases h
    · cases h
  · cases h

theorem listLoop_regular {count slot : ℕ} {rest : List (Slot ν)}
    {result out : List (LuaValue ν × LuaValue ν)} (hslot : slot + rest.length ≤ wire.exact + 1)
    (hrest : ∀ item, some item ∈ rest → LuaValue.RegularPairs wire.number item)
    (hresult : LuaValue.RegularPairs wire.number result)
    (h : Listing.listLoop wire.conv count slot rest result = some out) :
    LuaValue.RegularPairs wire.number out := by
  induction rest generalizing slot result with
  | nil =>
    obtain rfl := Option.some.inj h
    exact hresult
  | cons item rest ih =>
    rw [List.length_cons] at hslot
    have hkey := regular_position wire (show slot ≤ wire.exact by omega)
    have htail : ∀ item, some item ∈ rest → LuaValue.RegularPairs wire.number item :=
      fun item hmem => hrest item (List.mem_cons_of_mem _ hmem)
    rw [Listing.listLoop] at h
    cases hc : Listing.occupied wire.conv item with
    | none => simp [hc] at h
    | some found =>
      cases found with
      | none =>
        simp only [hc] at h
        refine ih (by omega) htail ?_ h
        split_ifs
        · exact hresult.assign hkey trivial
        · exact hresult
      | some kept =>
        simp only [hc] at h
        refine ih (by omega) htail (hresult.assign hkey ?_) h
        cases item with
        | none => simp [Listing.occupied] at hc
        | some item => exact occupied_regular (hrest item (List.mem_cons_self ..)) hc

theorem list_regular {slots : Option (List (Slot ν))} {result : LuaValue ν}
    (hslots : PlainSlots wire slots) (hone : 1 ≤ wire.exact)
    (h : Listing.list wire.conv slots = some result) :
    LuaValue.Regular wire.number result := by
  cases slots with
  | none =>
    obtain rfl := Option.some.inj h
    exact ⟨regular_position wire hone, ⟨trivial, nofun⟩, trivial⟩
  | some slots =>
    obtain ⟨hlen, hitems⟩ := hslots slots rfl
    obtain ⟨out, hout, rfl⟩ := Option.map_eq_some_iff.mp h
    have hempty : LuaValue.RegularPairs wire.number ([] : List (LuaValue ν × LuaValue ν)) := trivial
    exact listLoop_regular (by omega) hitems hempty hout

theorem length_assign_le (key x : LuaValue ν) (data : List (LuaValue ν × LuaValue ν)) :
    (LuaValue.assign key x data).length ≤ data.length + 1 := by
  induction data with
  | nil => cases x <;> simp [LuaValue.assign]
  | cons e data ih =>
    unfold LuaValue.assign
    split_ifs
    · cases x
      · exact Nat.le_add_right _ 2
      all_goals exact Nat.le_succ _
    · exact Nat.succ_le_succ ih

theorem listMELoop_regular {items : List (LuaValue ν)} {result out : List (LuaValue ν × LuaValue ν)}
    (hlen : result.length + items.length ≤ wire.exact)
    (hitems : ∀ v ∈ items, LuaValue.Regular wire.number v)
    (hresult : LuaValue.RegularPairs wire.number result)
    (h : listMELoop wire.conv items result = some out) :
    LuaValue.RegularPairs wire.number out := by
  induction items generalizing result with
  | nil =>
    obtain rfl := Option.some.inj h
    exact hresult
  | cons v items ih =>
    obtain ⟨hv, hitems⟩ := List.forall_mem_cons.mp hitems
    rw [List.length_cons] at hlen
    rw [listMELoop] at h
    cases hc : kept wire.conv v with
    | none => simp [hc] at h
    | some found =>
      cases found with
      | none =>
        simp only [hc] at h
        exact ih (by omega) hitems hresult h
      | some item =>
        simp only [hc] at h
        have hle := length_assign_le (.number (wire.conv.ofInt (result.length + 1 : ℕ)))
          (.table item) result
        have hkey := regular_position wire (show result.length + 1 ≤ wire.exact by omega)
        refine ih (by omega) hitems (hresult.assign hkey ?_) h
        cases v with
        | table es => exact occupied_regular hv hc
        | boolean b => cases b <;> simp [kept] at hc
        | nil | number _ | string _ => simp [kept] at hc

theorem length_ipairsFrom_le (conv : Conversion ν) (data : List (LuaValue ν × LuaValue ν))
    (fuel i : ℕ) : (ipairsFrom conv data fuel i).length ≤ fuel := by
  induction fuel generalizing i with
  | zero => exact le_rfl
  | succ fuel ih =>
    rw [ipairsFrom]
    split
    · exact Nat.zero_le _
    · exact Nat.succ_le_succ (ih (i + 1))

theorem ipairsFrom_regular {data : List (LuaValue ν × LuaValue ν)}
    (h : LuaValue.RegularPairs wire.number data) (fuel i : ℕ) :
    ∀ v ∈ ipairsFrom wire.conv data fuel i, LuaValue.Regular wire.number v := by
  induction fuel generalizing i with
  | zero => simp [ipairsFrom]
  | succ fuel ih =>
    rw [ipairsFrom]
    split
    · simp
    · exact List.forall_mem_cons.mpr ⟨LuaValue.Regular.index h, ih (i + 1)⟩

omit [LinearOrder ν] in
/-- The table that `getItemsInNetwork` gives first. -/
theorem tableOf_headD {out : List (LuaValue ν)} (hout : PlainValues wire out)
    {items : List (LuaValue ν × LuaValue ν)} (h : tableOf (out.headD .nil) = some items) :
    LuaValue.RegularPairs wire.number items ∧ items.length ≤ wire.exact := by
  cases out with
  | nil => cases h
  | cons v out =>
    cases v with
    | table es =>
      obtain rfl := Option.some.inj h
      have hmem : LuaValue.table es ∈ .table es :: out := List.mem_cons_self ..
      exact ⟨hout.regular _ hmem, hout.table es hmem⟩
    | nil | number _ | string _ | boolean _ => cases h

theorem listME_regular {items : List (LuaValue ν × LuaValue ν)} {result : LuaValue ν}
    (hitems : LuaValue.RegularPairs wire.number items ∧ items.length ≤ wire.exact)
    (h : listME wire.conv (ipairs wire.conv items) = some result) :
    LuaValue.Regular wire.number result := by
  obtain ⟨out, hout, rfl⟩ := Option.map_eq_some_iff.mp h
  have hlen : (ipairs wire.conv items).length ≤ items.length := length_ipairsFrom_le ..
  have hempty : LuaValue.RegularPairs wire.number ([] : List (LuaValue ν × LuaValue ν)) := trivial
  have hle : ([] : List (LuaValue ν × LuaValue ν)).length + (ipairs wire.conv items).length ≤
      wire.exact := by
    rw [List.length_nil, Nat.zero_add]
    exact hlen.trans hitems.2
  exact listMELoop_regular hle (ipairsFrom_regular hitems.1 _ _) hempty hout

theorem dispatch_ensures (h : computer.Plain wire) (hone : 1 ≤ wire.exact) (p : LuaValue ν) :
    Script.Ensures (dispatch wire computer setup p) (LuaValue.Regular wire.number) := by
  have hnil : LuaValue.Regular wire.number (.nil : LuaValue ν) := trivial
  unfold dispatch
  split
  · refine (Script.Ensures.any _).bind fun inv _ => ?_
    split_ifs
    · exact (Script.Ensures.any _).bind fun _ _ => .pure hnil
    · -- the listing of an inventory
      refine (Script.Ensures.any _).bind fun addr _ => ?_
      refine (Script.Ensures.call (h.getAllStacks addr _)).bind fun slots hslots => ?_
      exact .ofOption fun result hresult => list_regular hslots hone hresult
    · -- the listing of a network
      refine (method_ensures h _ _ _).bind fun out hout => ?_
      refine (Script.Ensures.ofOption fun items hitems => tableOf_headD hout hitems).bind
        fun items hitems => ?_
      exact .ofOption fun result hresult => listME_regular hitems hresult
    · exact (Script.Ensures.any _).bind fun _ _ => .pure hnil
    · refine (Script.Ensures.any _).bind fun args _ => ?_
      refine (method_ensures h _ _ _).bind fun out hout => ?_
      exact .pure (pack_regular hout.length hout.regular)
    · exact .raise
  · exact .raise

theorem Executed.regular (h : computer.Plain wire) (hone : 1 ≤ wire.exact) {x : Served ν ω}
    (hx : Executed wire computer setup x) : LuaValue.Regular wire.number x.result :=
  dispatch_ensures h hone x.request x.before x.result x.after hx

end
end Client
end OCRemote
