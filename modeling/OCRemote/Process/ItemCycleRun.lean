import OCRemote.Process.CraftingGrid

/-! The cycles of an `ItemCycleProcess`. The number of its next item is kept in a file, from which
it is read when the process is made. -/

namespace OCRemote

/-- `usize::from_str`. -/
def usizeFromStr (text : String) : Option ℕ :=
  let digits := if text.toList.head? = some '+' then text.toList.tail else text.toList
  let n := Nat.ofDigitChars 10 digits 0
  if digits = [] ∨ digits.all Char.isDigit = false ∨ usizeMax < n then none else some n

theorem usizeFromStr_toString {n : ℕ} (h : (n : ℤ) ≤ usizeMax) :
    usizeFromStr (toString n) = some n := by
  have hlist : (toString n).toList = Nat.toDigits 10 n := by
    simp only [Nat.toString_eq_repr, Nat.toList_repr]
  have hdigit : ∀ c ∈ Nat.toDigits 10 n, c.isDigit := fun c hc =>
    Nat.isDigit_of_mem_toDigits (by decide) (by decide) hc
  have hsign : (Nat.toDigits 10 n).head? ≠ some '+' := by
    intro hhead
    exact absurd (hdigit '+' (List.mem_of_head? hhead)) (by decide)
  have hall : (Nat.toDigits 10 n).all Char.isDigit = true := List.all_eq_true.mpr hdigit
  simp only [usizeFromStr, hlist, if_neg hsign, hall, Nat.ofDigitChars_ten_toDigits,
    Nat.toDigits_ne_nil, Bool.true_eq_false, false_or]
  exact if_neg (not_lt.mpr h)

namespace ItemCycle

/-- What comes of an item that was reserved. A write that fails may leave anything in the file. -/
inductive Ending where
  | failed (e : String)
  | saved
  | unsaved (e : String) (left : Option String)

/-- What a cycle finds. -/
structure Cycle (ι ε : Type) where
  order : Enumeration ι
  rule : TopRule (Provider ε) Provider.priority
  factory : Factory ι ε
  listing : Except String (Stacks ι)
  ending : Ending

/-- The process, the content of its file if it can be read, and whether the latest write to it
succeeded. -/
structure World where
  nextItem : ℕ
  file : Option String
  written : Option Bool
  deriving DecidableEq

/-- `into_process`, up to the number that is read. -/
def loaded (file : Option String) : ℕ := (file.bind usizeFromStr).getD 0

def start (file : Option String) : World := ⟨loaded file, file, none⟩

section
variable {ι ε : Type} [DecidableEq ι] [ItemClass ι] (cfg : ItemCycleConfig ι)

/-- The number of the item after the next one. -/
def advance (nextItem : ℕ) : ℕ := if nextItem + 1 = cfg.items.length then 0 else nextItem + 1

/-- The end of a cycle that has reserved an item. -/
def finish (w : World) : Ending → World × Except String Unit
  | .failed e => (w, .error e)
  | .saved =>
    (⟨advance cfg w.nextItem, some (toString (advance cfg w.nextItem)), some true⟩, .ok ())
  | .unsaved e left => (⟨advance cfg w.nextItem, left, some false⟩, .error (cfg.name ++ ": " ++ e))

/-- A whole cycle. No value means a panic. -/
def cycle (w : World) (c : Cycle ι ε) : Option (World × Except String Unit) :=
  match c.listing with
  | .error e => some (w, .error e)
  | .ok listing =>
    match run c.order c.rule cfg w.nextItem c.factory listing with
    | none => none
    | some (.error e) => some (w, .error e)
    | some (.ok none) => some (w, .ok ())
    | some (.ok (some _)) => some (finish cfg w c.ending)

/-- The state after some cycles of a process. -/
def lifetime (file : Option String) (cs : List (Cycle ι ε)) : Option World :=
  cs.foldlM (fun w c => (cycle cfg w c).map Prod.fst) (start file)

/-- The slot is found to be empty, so that the next item is looked up. -/
def Uses (c : Cycle ι ε) : Prop := ∃ listing, c.listing = .ok listing ∧ listing[cfg.slot]? = some none

/-- An item is transferred to the slot. -/
def Transfers (w : World) (c : Cycle ι ε) : Prop :=
  ∃ listing reserved, c.listing = .ok listing ∧
    run c.order c.rule cfg w.nextItem c.factory listing = some (.ok (some reserved)) ∧
    ∀ e, c.ending ≠ .failed e

/-- What holds of a process in a state. -/
structure Right (ε : Type) (w : World) : Prop where
  valid : ∀ c : Cycle ι ε, Uses cfg c → w.nextItem < cfg.items.length
  advance : ∀ (c : Cycle ι ε) w' result, cycle cfg w c = some (w', result) → Transfers cfg w c →
    w'.nextItem = (w.nextItem + 1) % cfg.items.length
  stay : ∀ (c : Cycle ι ε) w' result, cycle cfg w c = some (w', result) → ¬ Transfers cfg w c →
    w'.nextItem = w.nextItem
  restart : w.written ≠ some false → (start w.file).nextItem = w.nextItem

variable {cfg}

/-- A cycle changes nothing, or transfers an item and writes the number of the one after it. -/
theorem cycle_cases {w w' : World} {c : Cycle ι ε} {result : Except String Unit}
    (h : cycle cfg w c = some (w', result)) :
    (¬ Transfers cfg w c ∧ w' = w) ∨
      (Transfers cfg w c ∧ w'.nextItem = advance cfg w.nextItem ∧
        (w'.written ≠ some false → w'.file = some (toString w'.nextItem))) := by
  unfold cycle at h
  cases hlisting : c.listing with
  | error e =>
    refine .inl ⟨?_, ?_⟩
    · rintro ⟨listing, reserved, hok, -⟩
      cases hlisting.symm.trans hok
    · rw [hlisting] at h
      exact (congrArg Prod.fst (Option.some.inj h)).symm
  | ok listing =>
    simp only [hlisting] at h
    have hsame {e : Except String (Option (Factory ι ε × Reservation ε))}
        (hrun : run c.order c.rule cfg w.nextItem c.factory listing = some e)
        (hnone : ∀ reserved, e ≠ .ok (some reserved)) : ¬ Transfers cfg w c := by
      rintro ⟨listing', reserved, hok, hreserved, -⟩
      obtain rfl := Except.ok.inj (hlisting.symm.trans hok)
      exact hnone reserved (Option.some.inj (hrun.symm.trans hreserved))
    split at h
    · cases h
    · rename_i e hrun
      exact .inl ⟨hsame hrun (by simp), (congrArg Prod.fst (Option.some.inj h)).symm⟩
    · rename_i hrun
      exact .inl ⟨hsame hrun (by simp), (congrArg Prod.fst (Option.some.inj h)).symm⟩
    · rename_i reserved hrun
      obtain rfl := congrArg Prod.fst (Option.some.inj h)
      have htransfers (hending : ∀ e, c.ending ≠ .failed e) : Transfers cfg w c :=
        ⟨listing, reserved, hlisting, hrun, hending⟩
      cases hending : c.ending with
      | failed e =>
        refine .inl ⟨?_, rfl⟩
        rintro ⟨-, -, -, -, hnever⟩
        exact hnever e hending
      | saved => exact .inr ⟨htransfers (by simp [hending]), rfl, fun _ => rfl⟩
      | unsaved e left =>
        refine .inr ⟨htransfers (by simp [hending]), rfl, fun hwritten => ?_⟩
        exact absurd rfl hwritten

omit [DecidableEq ι] [ItemClass ι] in
theorem advance_eq_mod {nextItem : ℕ} (h : nextItem < cfg.items.length) :
    advance cfg nextItem = (nextItem + 1) % cfg.items.length := by
  unfold advance
  split_ifs with hlast
  · rw [hlast, Nat.mod_self]
  · exact (Nat.mod_eq_of_lt (by omega)).symm

/-- The number is one of an item, and it is in the file unless the latest write failed. -/
structure Inv (cfg : ItemCycleConfig ι) (w : World) : Prop where
  valid : w.nextItem < cfg.items.length
  file : w.written ≠ some false → loaded w.file = w.nextItem

theorem Inv.cycle (hlength : (cfg.items.length : ℤ) ≤ usizeMax) {w w' : World} (h : Inv cfg w)
    {c : Cycle ι ε} {result : Except String Unit} (hcycle : cycle cfg w c = some (w', result)) :
    Inv cfg w' := by
  rcases cycle_cases hcycle with ⟨-, rfl⟩ | ⟨-, hnext, hfile⟩
  · exact h
  · have hvalid : w'.nextItem < cfg.items.length := by
      rw [hnext, advance_eq_mod h.valid]
      exact Nat.mod_lt _ (Nat.zero_lt_of_lt h.valid)
    refine ⟨hvalid, fun hwritten => ?_⟩
    rw [hfile hwritten, loaded, Option.bind_some, usizeFromStr_toString (by omega), Option.getD_some]

theorem Inv.right {w : World} (h : Inv cfg w) : Right cfg ε w := by
  refine ⟨fun _ _ => h.valid, fun c w' result hcycle htransfers => ?_,
    fun c w' result hcycle htransfers => ?_, h.file⟩
  · rcases cycle_cases hcycle with ⟨hnot, -⟩ | ⟨-, hnext, -⟩
    · exact absurd htransfers hnot
    · rw [hnext, advance_eq_mod h.valid]
  · rcases cycle_cases hcycle with ⟨-, rfl⟩ | ⟨hyes, -⟩
    · rfl
    · exact absurd hyes htransfers

/-- A cycle that finds the slot to be empty, and nothing else. -/
def emptyCycle (slot : ℕ) : Cycle ι ε where
  order := ⟨id, List.Perm.refl⟩
  rule := MaxHeap.firstTop Provider.priority
  factory := ⟨.empty, [], fun _ => 0, 0⟩
  listing := .ok (List.replicate (slot + 1) none)
  ending := .saved

/-- Everything is right in all cycles if and only if the number that is read at the start is one of
an item. -/
theorem cycles_right_iff (ε : Type) (hlength : (cfg.items.length : ℤ) ≤ usizeMax) (file : Option String) :
    (∀ (cs : List (Cycle ι ε)) w, lifetime cfg file cs = some w → Right cfg ε w) ↔
      loaded file < cfg.items.length := by
  constructor
  · intro hright
    have hstart : Right cfg ε (start file) := hright [] _ rfl
    refine hstart.valid (emptyCycle cfg.slot) ⟨_, rfl, ?_⟩
    exact List.getElem?_replicate_of_lt (Nat.lt_succ_self _)
  · intro hvalid cs w hw
    refine Inv.right ?_
    refine List.foldlM_inv (fun c _ w w' hw hstep => ?_) ⟨hvalid, fun _ => rfl⟩ hw
    obtain ⟨r, hr, rfl⟩ := Option.map_eq_some_iff.mp hstep
    exact hw.cycle hlength hr

end

/-- Iron and gold in turn. -/
def twoItems : ItemCycleConfig (Item ℤ) where
  name := "cycle"
  slot := 0
  items := [⟨.Label "Iron", 1, false, 0⟩, ⟨.Label "Gold", 1, false, 0⟩]

/-- A number saved under a longer list ends in a panic. -/
theorem longer_list_panics :
    loaded (some "5") = 5 ∧
    cycle twoItems (start (some "5")) (emptyCycle 0 : Cycle (Item ℤ) ℕ) = none ∧
    ¬ ∀ (cs : List (Cycle (Item ℤ) ℕ)) w, lifetime twoItems (some "5") cs = some w →
      Right twoItems ℕ w := by
  have hloaded : loaded (some "5") = 5 := by decide
  refine ⟨hloaded, ?_, fun h => ?_⟩
  · simp only [cycle, start, hloaded]
    rfl
  · have hvalid := (cycles_right_iff ℕ (by decide) (some "5")).mp h
    rw [hloaded] at hvalid
    exact absurd hvalid (by decide)

/-- What no number can be read from counts as the first item. -/
theorem cycles_right_iff_malformed : Right twoItems ℕ (start (some "1x")) :=
  (cycles_right_iff ℕ (by decide) (some "1x")).mpr (by decide) [] _ rfl

end ItemCycle
end OCRemote
