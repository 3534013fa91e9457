import OCRemote.Net.Evolve

/-! What the server never takes back: what a connection has accepted and delivered. Whatever completes
a request by a packet, a connection has delivered the packet to that request. -/

namespace OCRemote
namespace Server
variable {ν ρ : Type}

/-- The packet and what it answers. -/
def World.answer (w : World ν ρ) (i : ℕ) (c' : Client ν ρ) (id : ℕ) (value : Value ν)
    (result : Except String ρ) : World ν ρ :=
  { w.modify i fun k =>
      { k with
        client := some c'
        packets := k.packets ++ [value]
        delivered := k.delivered ++ [(id, value)] } with
    completions := w.completions ++ [(id, .onResponse value result)] }

/-- All that a packet can do. -/
inductive Took (w : World ν ρ) (i : ℕ) (value : Value ν) : World ν ρ → Prop
  | nothing : Took w i value w
  | refused : Took w i value (w.disconnect i)
  | unexpected : Took w i value
      ((w.disconnect i).modify i fun k => { k with packets := k.packets ++ [value] })
  | named (c : Client ν ρ) (name : String) : Took w i value ((w.setClient i c).login name i)
  | answered (c c' : Client ν ρ) (id : ℕ) (result : Except String ρ) (hc : w.client i = some c) :
      Took w i value (w.answer i c' id value result)
  | failed (c c' : Client ν ρ) (id : ℕ) (result : Except String ρ) (hc : w.client i = some c) :
      Took w i value ((w.answer i c' id value result).disconnect i)

theorem onPacket_took (w : World ν ρ) (i : ℕ) (value : Value ν) :
    Took w i value (w.onPacket i value) := by
  unfold World.onPacket
  cases hc : w.client i with
  | none => exact .nothing
  | some c =>
    dsimp only
    cases hlogin : c.login with
    | none =>
      cases value with
      | S name => exact .named _ name
      | N | F _ | B _ | T _ => exact .refused
    | some name =>
      cases hresponse : c.responseQueue with
      | nil => exact .unexpected
      | cons x rest =>
        let c' := Client.updateTimeout { c with login := some name, responseQueue := rest } true
        have hanswer : Took w i value (w.answer i c' x.id value (x.parseResponse value)) :=
          .answered c c' x.id _ hc
        have hfail : Took w i value ((w.answer i c' x.id value (x.parseResponse value)).disconnect i) :=
          .failed c c' x.id _ hc
        dsimp only
        split_ifs
        · exact hanswer
        · exact hfail

/-- Connections stay, with what they have accepted and delivered. -/
def Keeps (w w' : World ν ρ) : Prop :=
  ∀ (j : ℕ) k, w.connections[j]? = some k →
    ∃ k', w'.connections[j]? = some k' ∧ k.accepted <+: k'.accepted ∧ k.delivered <+: k'.delivered

/-- And no request gets a packet. -/
structure Silent (w w' : World ν ρ) : Prop where
  keeps : Keeps w w'
  completions : ∀ id packet result, (id, .onResponse packet result) ∈ w'.completions →
    (id, .onResponse packet result) ∈ w.completions

/-- A request that got a packet got it from a connection. -/
def Answered (w : World ν ρ) : Prop :=
  ∀ id packet result, (id, .onResponse packet result) ∈ w.completions →
    ∃ k ∈ w.connections, (id, packet) ∈ k.delivered

variable {w w' w'' : World ν ρ} {i : ℕ}

theorem Keeps.refl (w : World ν ρ) : Keeps w w :=
  fun _ k hk => ⟨k, hk, List.prefix_rfl, List.prefix_rfl⟩

theorem Keeps.trans (h : Keeps w w') (h' : Keeps w' w'') : Keeps w w'' := by
  intro j k hk
  obtain ⟨k', hk', haccepted, hdelivered⟩ := h j k hk
  obtain ⟨k'', hk'', haccepted', hdelivered'⟩ := h' j k' hk'
  exact ⟨k'', hk'', haccepted.trans haccepted', hdelivered.trans hdelivered'⟩

theorem Keeps.modify (w : World ν ρ) (i : ℕ) {f : Connection ν ρ → Connection ν ρ}
    (hf : ∀ k, k.accepted <+: (f k).accepted ∧ k.delivered <+: (f k).delivered) :
    Keeps w (w.modify i f) := by
  intro j k hk
  have hget : (w.modify i f).connections[j]? = some (if i = j then f k else k) := by
    change (w.connections.modify i f)[j]? = _
    rw [List.getElem?_modify, hk]
    split <;> rfl
  refine ⟨_, hget, ?_⟩
  split
  · exact hf k
  · exact ⟨List.prefix_rfl, List.prefix_rfl⟩

theorem Silent.refl (w : World ν ρ) : Silent w w := ⟨.refl w, fun _ _ _ h => h⟩

theorem Silent.trans (h : Silent w w') (h' : Silent w' w'') : Silent w w'' :=
  ⟨h.keeps.trans h'.keeps, fun id packet result hmem =>
    h.completions _ _ _ (h'.completions id packet result hmem)⟩

theorem Silent.of_eq (hconnections : w'.connections = w.connections)
    (hcompletions : w'.completions = w.completions) : Silent w w' := by
  refine ⟨fun j k hk => ⟨k, ?_, List.prefix_rfl, List.prefix_rfl⟩, fun id packet result h => ?_⟩
  · rwa [hconnections]
  · rwa [← hcompletions]

theorem Silent.of_left (h : Silent w' w'') (hconnections : w'.connections = w.connections)
    (hcompletions : w'.completions = w.completions) : Silent w w'' :=
  (Silent.of_eq hconnections hcompletions).trans h

theorem Silent.modify (w : World ν ρ) (i : ℕ) {f : Connection ν ρ → Connection ν ρ}
    (hf : ∀ k, k.accepted <+: (f k).accepted ∧ k.delivered <+: (f k).delivered) :
    Silent w (w.modify i f) := ⟨.modify w i hf, fun _ _ _ h => h⟩

/-- Failing requests is no answer to them. -/
theorem Silent.fail (w : World ν ρ) (group : List (ActionState ν ρ)) (reason : String) :
    Silent w { w with completions := w.completions ++ World.failures group reason } := by
  refine ⟨Keeps.refl w, fun id packet result h => ?_⟩
  rcases List.mem_append.mp h with hold | hnew
  · exact hold
  · simp [World.failures] at hnew

theorem silent_drop (w : World ν ρ) (i : ℕ) : Silent w (w.drop i) := by
  unfold World.drop
  split
  · exact .refl w
  · have hdead : Silent w (w.modify i fun k => { k with client := none }) :=
      .modify w i fun _ => ⟨List.prefix_rfl, List.prefix_rfl⟩
    exact hdead.trans (.fail ..)

theorem silent_disconnect (w : World ν ρ) (i : ℕ) : Silent w (w.disconnect i) := by
  unfold World.disconnect
  split
  · exact silent_drop w i
  · exact (silent_drop _ i).of_left rfl rfl

theorem silent_setClient (w : World ν ρ) (i : ℕ) (c : Client ν ρ) : Silent w (w.setClient i c) :=
  .modify w i fun _ => ⟨List.prefix_rfl, List.prefix_rfl⟩

theorem silent_login (w : World ν ρ) (name : String) (i : ℕ) : Silent w (w.login name i) := by
  have hnamed : Silent w { w with logins := Function.update w.logins name (some i) } :=
    .of_eq rfl rfl
  unfold World.login
  dsimp only
  split
  · exact hnamed
  · split
    · exact .of_eq rfl rfl
    · exact hnamed.trans ((silent_setClient _ _ _).trans (silent_disconnect _ _))

theorem silent_enqueue (w : World ν ρ) (name : String) (group : List (ActionState ν ρ)) :
    Silent w (w.enqueueRequestGroup name group) := by
  have hcounted : Silent w { w with enqueued := group.map ActionState.id ++ w.enqueued } :=
    .of_eq rfl rfl
  unfold World.enqueueRequestGroup
  dsimp only
  split
  · exact hcounted.trans (.fail _ _ _)
  · split
    · exact .of_eq rfl rfl
    · exact hcounted.trans (.modify _ _ fun _ => ⟨List.prefix_append .., List.prefix_rfl⟩)

theorem silent_poll (w : World ν ρ) (i : ℕ) : Silent w (w.pollWriter i) := by
  unfold World.pollWriter
  split
  · exact .refl w
  · split
    · exact .of_eq rfl rfl
    · exact .modify w i fun _ => ⟨List.prefix_rfl, List.prefix_rfl⟩

theorem silent_shutdown (w : World ν ρ) (is : List ℕ) : Silent w (is.foldl World.drop w) := by
  induction is generalizing w with
  | nil => exact .refl w
  | cons i is ih => exact (silent_drop w i).trans (ih _)

theorem silent_connect (w : World ν ρ) (addr : String) : Silent w (next w (.connect addr)) := by
  refine ⟨fun j k hk => ⟨k, ?_, List.prefix_rfl, List.prefix_rfl⟩, fun _ _ _ h => h⟩
  change (w.connections ++ _)[j]? = some k
  rw [List.getElem?_append_left (List.getElem?_eq_some_iff.mp hk).1, hk]

theorem Answered.silent (h : Answered w) (hsilent : Silent w w') : Answered w' := by
  intro id packet result hmem
  obtain ⟨k, hk, hp⟩ := h id packet result (hsilent.completions id packet result hmem)
  obtain ⟨j, hj⟩ := List.mem_iff_getElem?.mp hk
  obtain ⟨k', hk', -, hdelivered⟩ := hsilent.keeps j k hj
  exact ⟨k', List.mem_of_getElem? hk', hdelivered.subset hp⟩

/-! Only a packet is an answer. -/

theorem keeps_answer (w : World ν ρ) (i : ℕ) (c' : Client ν ρ) (id : ℕ) (value : Value ν)
    (result : Except String ρ) : Keeps w (w.answer i c' id value result) :=
  Keeps.modify w i fun _ => ⟨List.prefix_rfl, List.prefix_append ..⟩

theorem Answered.answer (h : Answered w) {c : Client ν ρ} (hc : w.client i = some c) (c' : Client ν ρ)
    (id : ℕ) (value : Value ν) (result : Except String ρ) :
    Answered (w.answer i c' id value result) := by
  obtain ⟨k, hk, -⟩ := World.exists_connection hc
  intro id' packet result' hmem
  rcases List.mem_append.mp hmem with hold | hnew
  · obtain ⟨k', hk', hp⟩ := h id' packet result' hold
    obtain ⟨j, hj⟩ := List.mem_iff_getElem?.mp hk'
    obtain ⟨k'', hk'', -, hdelivered⟩ := keeps_answer w i c' id value result j k' hj
    exact ⟨k'', List.mem_of_getElem? hk'', hdelivered.subset hp⟩
  · obtain ⟨rfl, hpacket⟩ := Prod.mk.inj (List.mem_singleton.mp hnew)
    obtain ⟨rfl, -⟩ := Completion.onResponse.inj hpacket
    refine ⟨_, List.mem_of_getElem? (getElem?_modify_self hk), ?_⟩
    exact List.mem_append_right _ (List.mem_singleton.mpr rfl)

/-- A packet answers one request at most. -/
theorem onPacket_cases (w : World ν ρ) (i : ℕ) (value : Value ν) :
    Silent w (w.onPacket i value) ∨ ∃ c c' id result, w.client i = some c ∧
      Silent (w.answer i c' id value result) (w.onPacket i value) := by
  have htook := onPacket_took w i value
  generalize w.onPacket i value = w' at htook ⊢
  cases htook with
  | nothing => exact .inl (.refl w)
  | refused => exact .inl (silent_disconnect w i)
  | unexpected =>
    left
    exact (silent_disconnect w i).trans (.modify _ i fun _ => ⟨List.prefix_rfl, List.prefix_rfl⟩)
  | named c name => exact .inl ((silent_setClient w i c).trans (silent_login _ name i))
  | answered c c' id result hc => exact .inr ⟨c, c', id, result, hc, .refl _⟩
  | failed c c' id result hc => exact .inr ⟨c, c', id, result, hc, silent_disconnect _ i⟩

theorem silent_next (w : World ν ρ) {e : Event ν ρ} (he : ∀ i value, e ≠ .packet i value) :
    Silent w (next w e) := by
  cases e with
  | connect addr => exact silent_connect w addr
  | enqueue name group => exact silent_enqueue w name group
  | poll i => exact silent_poll w i
  | writeError i | readError i | timeout i => exact silent_disconnect w i
  | packet i value => exact absurd rfl (he i value)
  | shutdown => exact (silent_shutdown _ _).of_left rfl rfl

theorem keeps_next (w : World ν ρ) (e : Event ν ρ) : Keeps w (next w e) := by
  by_cases he : ∀ i value, e ≠ .packet i value
  · exact (silent_next w he).keeps
  · push Not at he
    obtain ⟨i, value, rfl⟩ := he
    rcases onPacket_cases w i value with hsilent | ⟨c, c', id, result, -, hsilent⟩
    · exact hsilent.keeps
    · exact (keeps_answer w i c' id value result).trans hsilent.keeps

theorem keeps_exec (w : World ν ρ) (es : List (Event ν ρ)) : Keeps w ((machine ν ρ).exec w es) := by
  induction es generalizing w with
  | nil => exact .refl w
  | cons e es ih => exact (keeps_next w e).trans (ih _)

theorem Answered.step (h : Answered w) (e : Event ν ρ) : Answered (next w e) := by
  by_cases he : ∀ i value, e ≠ .packet i value
  · exact h.silent (silent_next w he)
  · push Not at he
    obtain ⟨i, value, rfl⟩ := he
    rcases onPacket_cases w i value with hsilent | ⟨c, c', id, result, hc, hsilent⟩
    · exact h.silent hsilent
    · exact (h.answer hc c' id value result).silent hsilent

theorem answered_of_valid {es : List (Event ν ρ)} (hv : (machine ν ρ).Valid .start es) :
    Answered ((machine ν ρ).exec .start es) :=
  (machine ν ρ).invariant (fun _ e h _ => h.step e) (by simp [Answered, World.start]) hv

/-! What a connection has accepted was enqueued. -/

def Accepts (P : ℕ × Value ν → Prop) (w : World ν ρ) : Prop :=
  ∀ k ∈ w.connections, ∀ r ∈ k.accepted, P r

section
variable {P : ℕ × Value ν → Prop}

theorem Accepts.modify (h : Accepts P w) {f : Connection ν ρ → Connection ν ρ}
    (hf : ∀ k, ∀ r ∈ (f k).accepted, r ∈ k.accepted ∨ P r) : Accepts P (w.modify i f) := by
  intro k' hk' r hr
  obtain ⟨j, hj⟩ := List.mem_iff_getElem?.mp hk'
  change (w.connections.modify i f)[j]? = some k' at hj
  rw [List.getElem?_modify] at hj
  obtain ⟨k, hk, rfl⟩ := Option.map_eq_some_iff.mp hj
  have hold := h k (List.mem_of_getElem? hk)
  split at hr
  · exact (hf k r hr).elim (hold r) fun hnew => hnew
  · exact hold r hr

theorem Accepts.setClient (h : Accepts P w) (i : ℕ) (c : Client ν ρ) : Accepts P (w.setClient i c) :=
  h.modify fun _ _ hr => .inl hr

theorem Accepts.drop (h : Accepts P w) (i : ℕ) : Accepts P (w.drop i) := by
  unfold World.drop
  split
  · exact h
  · exact Accepts.modify h fun _ _ hr => .inl hr

theorem Accepts.disconnect (h : Accepts P w) (i : ℕ) : Accepts P (w.disconnect i) := by
  unfold World.disconnect
  split
  · exact h.drop i
  · rename_i login _
    have hremoved : Accepts P { w with logins := Function.update w.logins login none } := h
    exact hremoved.drop i

theorem Accepts.login (h : Accepts P w) (name : String) (i : ℕ) : Accepts P (w.login name i) := by
  have hnamed : Accepts P { w with logins := Function.update w.logins name (some i) } := h
  unfold World.login
  dsimp only
  split
  · exact h
  · split
    · exact h
    · exact (hnamed.setClient _ _).disconnect _

theorem Accepts.enqueue (h : Accepts P w) (name : String) {group : List (ActionState ν ρ)}
    (hgroup : ∀ r ∈ group.filterMap ActionState.request, P r) :
    Accepts P (w.enqueueRequestGroup name group) := by
  unfold World.enqueueRequestGroup
  dsimp only
  split
  · exact h
  · split
    · exact h
    · exact Accepts.modify h fun _ r hr => (List.mem_append.mp hr).imp_right (hgroup r)

theorem Accepts.poll (h : Accepts P w) (i : ℕ) : Accepts P (w.pollWriter i) := by
  unfold World.pollWriter
  split
  · exact h
  · split
    · exact h
    · exact h.modify fun _ _ hr => .inl hr

theorem Accepts.answer (h : Accepts P w) (i : ℕ) (c' : Client ν ρ) (id : ℕ) (value : Value ν)
    (result : Except String ρ) : Accepts P (w.answer i c' id value result) :=
  Accepts.modify h fun _ _ hr => .inl hr

theorem Accepts.packet (h : Accepts P w) (i : ℕ) (value : Value ν) :
    Accepts P (w.onPacket i value) := by
  have htook := onPacket_took w i value
  generalize w.onPacket i value = w' at htook ⊢
  cases htook with
  | nothing => exact h
  | refused => exact h.disconnect i
  | unexpected => exact (h.disconnect i).modify fun _ _ hr => .inl hr
  | named c name => exact (h.setClient i c).login name i
  | answered c c' id result hc => exact h.answer i c' id value result
  | failed c c' id result hc => exact (h.answer i c' id value result).disconnect i

theorem Accepts.shutdown (h : Accepts P w) (is : List ℕ) : Accepts P (is.foldl World.drop w) := by
  induction is generalizing w with
  | nil => exact h
  | cons i is ih => exact ih (h.drop i)

theorem Accepts.step (h : Accepts P w) {e : Event ν ρ}
    (he : ∀ name group, e = .enqueue name group → ∀ r ∈ group.filterMap ActionState.request, P r) :
    Accepts P (next w e) := by
  cases e with
  | connect addr =>
    intro k hk
    rcases List.mem_append.mp hk with hold | hnew
    · exact h k hold
    · obtain rfl := List.mem_singleton.mp hnew
      exact nofun
  | enqueue name group => exact h.enqueue name (he name group rfl)
  | poll i => exact h.poll i
  | writeError i | readError i | timeout i => exact h.disconnect i
  | packet i value => exact h.packet i value
  | shutdown =>
    have hnone : Accepts P { w with logins := fun _ => none } := h
    exact hnone.shutdown _

theorem accepts_exec (h : Accepts P w) {es : List (Event ν ρ)}
    (hes : ∀ name group, .enqueue name group ∈ es →
      ∀ r ∈ group.filterMap ActionState.request, P r) : Accepts P ((machine ν ρ).exec w es) := by
  induction es generalizing w with
  | nil => exact h
  | cons e es ih =>
    refine ih (h.step fun name group heq => ?_) fun name group hmem => ?_
    · exact hes name group (heq ▸ List.mem_cons_self)
    · exact hes name group (List.mem_cons_of_mem _ hmem)

end

end Server
end OCRemote
