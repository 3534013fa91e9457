import OCRemote.Net.Network
import OCRemote.Server.Pairing

/-! What the steps of the server do to its connections, as far as the other side can tell. -/

namespace OCRemote
namespace Server
variable {ν ρ : Type}

/-- Nothing is sent or received. A client that is still there has kept its name, and what was added to
its queue satisfies `P`. -/
structure Evolves (P : List (ActionState ν ρ) → Prop) (k k' : Connection ν ρ) : Prop where
  sent : k'.sent = k.sent
  packets : k'.packets = k.packets
  client : ∀ c', k'.client = some c' → ∃ c, k.client = some c ∧ c'.login = c.login ∧
    ∀ g ∈ c'.requestQueue, g ∈ c.requestQueue ∨ P g

/-- Every connection is one of before that has evolved. -/
structure Quiet (P : List (ActionState ν ρ) → Prop) (w w' : World ν ρ) : Prop where
  length : w'.connections.length = w.connections.length
  evolves : ∀ (j : ℕ) k', w'.connections[j]? = some k' →
    ∃ k, w.connections[j]? = some k ∧ Evolves P k k'

variable {P : List (ActionState ν ρ) → Prop} {k k' k'' : Connection ν ρ} {c : Client ν ρ}
variable {w w' w'' : World ν ρ} {i : ℕ}

theorem Evolves.refl (k : Connection ν ρ) : Evolves P k k :=
  ⟨rfl, rfl, fun c' hc' => ⟨c', hc', rfl, fun _ => .inl⟩⟩

theorem Evolves.trans (h : Evolves P k k') (h' : Evolves P k' k'') : Evolves P k k'' := by
  refine ⟨h'.sent.trans h.sent, h'.packets.trans h.packets, fun c'' hc'' => ?_⟩
  obtain ⟨c', hc', hlogin', hqueue'⟩ := h'.client c'' hc''
  obtain ⟨c, hc, hlogin, hqueue⟩ := h.client c' hc'
  refine ⟨c, hc, hlogin'.trans hlogin, fun g hg => ?_⟩
  rcases hqueue' g hg with hmem | hnew
  · exact hqueue g hmem
  · exact .inr hnew

/-- A client that is dropped. -/
theorem Evolves.dead (k : Connection ν ρ) : Evolves P k { k with client := none } :=
  ⟨rfl, rfl, by simp⟩

theorem Quiet.refl (w : World ν ρ) : Quiet P w w :=
  ⟨rfl, fun _ k' hk' => ⟨k', hk', Evolves.refl k'⟩⟩

theorem Quiet.trans (h : Quiet P w w') (h' : Quiet P w' w'') : Quiet P w w'' := by
  refine ⟨h'.length.trans h.length, fun j k'' hk'' => ?_⟩
  obtain ⟨k', hk', hlast⟩ := h'.evolves j k'' hk''
  obtain ⟨k, hk, hfirst⟩ := h.evolves j k' hk'
  exact ⟨k, hk, hfirst.trans hlast⟩

/-- What only the list of connections decides. -/
theorem Quiet.of_eq (h : w'.connections = w.connections) : Quiet P w w' := by
  refine ⟨congrArg List.length h, fun j k' hk' => ⟨k', ?_, Evolves.refl k'⟩⟩
  rwa [← h]

theorem Quiet.of_left (h : Quiet P w' w'') (heq : w'.connections = w.connections) : Quiet P w w'' :=
  (Quiet.of_eq heq).trans h

theorem Quiet.exists_evolved (h : Quiet P w w') (hk : w.connections[i]? = some k) :
    ∃ k', w'.connections[i]? = some k' ∧ Evolves P k k' := by
  have hlt : i < w'.connections.length := h.length ▸ (List.getElem?_eq_some_iff.mp hk).1
  have hget : w'.connections[i]? = some w'.connections[i] := List.getElem?_eq_getElem hlt
  obtain ⟨k₁, hk₁, hevolves⟩ := h.evolves i _ hget
  obtain rfl := Option.some.inj (hk.symm.trans hk₁)
  exact ⟨_, hget, hevolves⟩

theorem getElem?_modify_self {f : Connection ν ρ → Connection ν ρ}
    (hk : w.connections[i]? = some k) : (w.modify i f).connections[i]? = some (f k) := by
  simp [World.modify, hk]

theorem Quiet.modify {f : Connection ν ρ → Connection ν ρ}
    (hf : ∀ k, w.connections[i]? = some k → Evolves P k (f k)) : Quiet P w (w.modify i f) := by
  refine ⟨List.length_modify .., fun j k' hk' => ?_⟩
  change (w.connections.modify i f)[j]? = some k' at hk'
  rw [List.getElem?_modify] at hk'
  split_ifs at hk' with hij
  · subst hij
    obtain ⟨k, hk, rfl⟩ := Option.map_eq_some_iff.mp hk'
    exact ⟨k, hk, hf k hk⟩
  · exact ⟨k', by simpa using hk', Evolves.refl k'⟩

/-! The steps that no client can see but by the end of its connection. -/

theorem quiet_drop (w : World ν ρ) (i : ℕ) : Quiet P w (w.drop i) := by
  unfold World.drop
  split
  · exact .refl w
  · exact .trans (.modify fun k _ => .dead k) (.of_eq rfl)

theorem quiet_disconnect (w : World ν ρ) (i : ℕ) : Quiet P w (w.disconnect i) := by
  unfold World.disconnect
  split
  · exact quiet_drop w i
  · exact (quiet_drop _ i).of_left rfl

theorem quiet_shutdown (w : World ν ρ) (is : List ℕ) : Quiet P w (is.foldl World.drop w) := by
  induction is generalizing w with
  | nil => exact .refl w
  | cons i is ih => exact (quiet_drop w i).trans (ih _)

/-- Whatever becomes of a client just before it is dropped. -/
theorem quiet_evict (w : World ν ρ) (j : ℕ) (old : Client ν ρ) :
    Quiet P w ((w.setClient j old).disconnect j) := by
  have hlost := @quiet_disconnect ν ρ P (w.setClient j old) j
  refine ⟨hlost.length.trans (List.length_modify ..), fun m k' hk' => ?_⟩
  obtain ⟨k₁, hk₁, hevolves⟩ := hlost.evolves m k' hk'
  have hget := hk₁
  change (w.connections.modify j _)[m]? = some k₁ at hget
  rw [List.getElem?_modify] at hget
  split_ifs at hget with hjm
  · subst hjm
    obtain ⟨k, hk, rfl⟩ := Option.map_eq_some_iff.mp hget
    have hdead := connections_disconnect hk₁ rfl
    obtain rfl := Option.some.inj (hdead.symm.trans hk')
    exact ⟨k, hk, .dead k⟩
  · exact ⟨k₁, by simpa using hget, hevolves⟩

/-- Another client is evicted at most. -/
theorem quiet_login (w : World ν ρ) (name : String) (i : ℕ) : Quiet P w (w.login name i) := by
  unfold World.login
  cases hold : w.logins name with
  | none => exact .of_eq rfl
  | some j =>
    simp only
    cases hc : w.client j with
    | none => exact .of_eq rfl
    | some old => exact (quiet_evict _ j _).of_left rfl

theorem quiet_enqueue (w : World ν ρ) (name : String) {group : List (ActionState ν ρ)}
    (hgroup : P group) : Quiet P w (w.enqueueRequestGroup name group) := by
  unfold World.enqueueRequestGroup
  cases hname : w.logins name with
  | none => exact .of_eq rfl
  | some i =>
    simp only
    cases hc : w.client i with
    | none => exact .of_eq rfl
    | some c =>
      refine Quiet.of_left (Quiet.modify fun k hk => ⟨rfl, rfl, fun c' hc' => ?_⟩) rfl
      have hkc : k.client = some c := by
        unfold World.client at hc
        rw [show w.connections[i]? = some k from hk] at hc
        exact hc
      obtain rfl := Option.some.inj hc'
      obtain ⟨hqueue, -⟩ := c.queues_enqueue group
      refine ⟨c, hkc, c.login_enqueue group, fun g hg => ?_⟩
      rw [hqueue] at hg
      rcases List.mem_append.mp hg with hg | hg
      · exact .inl hg
      · obtain rfl := List.mem_singleton.mp hg
        exact .inr hgroup

/-! Whose client is there. -/

theorem client_of_connection (hk : w.connections[i]? = some k) : w.client i = k.client := by
  unfold World.client
  rw [hk]
  rfl

theorem client_modify_of_ne {f : Connection ν ρ → Connection ν ρ} {j : ℕ} (hij : i ≠ j) :
    (w.modify i f).client j = w.client j := by
  unfold World.client World.modify
  simp [hij]

theorem client_drop (w : World ν ρ) (i : ℕ) : (w.drop i).client i = none := by
  unfold World.drop
  cases hc : w.client i with
  | none => exact hc
  | some c =>
    obtain ⟨k, hk, -⟩ := World.exists_connection hc
    exact (World.client_modify hk i).trans (if_pos rfl)

theorem client_drop_of_ne {j : ℕ} (hij : i ≠ j) : (w.drop i).client j = w.client j := by
  unfold World.drop
  split
  · rfl
  · exact client_modify_of_ne hij

theorem client_disconnect (w : World ν ρ) (i : ℕ) : (w.disconnect i).client i = none := by
  unfold World.disconnect
  split <;> exact client_drop _ i

theorem client_disconnect_of_ne {j : ℕ} (hij : i ≠ j) :
    (w.disconnect i).client j = w.client j := by
  unfold World.disconnect
  split
  · exact client_drop_of_ne hij
  · exact (client_drop_of_ne hij).trans rfl

/-- Only the client that had the name is dropped. -/
theorem client_login {name : String} (hno : w.logins name ≠ some i) :
    (w.login name i).client i = w.client i := by
  unfold World.login
  cases hold : w.logins name with
  | none => rfl
  | some j =>
    have hji : j ≠ i := by
      rintro rfl
      exact hno hold
    simp only
    cases hc : w.client j with
    | none => rfl
    | some old => exact (client_disconnect_of_ne hji).trans (client_modify_of_ne hji)

/-! What a packet does. -/

/-- The first packet names the client. -/
theorem handle_logIn (h : Inv w) (hk : w.connections[i]? = some k) (hkc : k.client = some c)
    (hlogin : c.login = none) (name : String) :
    ∃ w' c', w.handle i (.S name) = .ok w' ∧ (w'.client i).isSome = true ∧
      w' = w.onPacket i (.S name) ∧
      c'.login = some name ∧ c'.requestQueue = c.requestQueue ∧
      Quiet P (w.modify i fun k => { k with client := some c' }) w' := by
  have hc : w.client i = some c := (client_of_connection hk).trans hkc
  have herror : w.packetError i (.S name) = none := by
    simp [World.packetError, hc, hlogin]
  let c' : Client ν ρ :=
    { c with login := some name, logPrefix := c.logPrefix ++ "[" ++ name ++ "]" }
  have hpacket : w.onPacket i (.S name) = (w.setClient i c').login name i := by
    simp only [World.onPacket, hc, hlogin, c']
  refine ⟨_, c', by rw [World.handle, herror], ?_, rfl, rfl, rfl, ?_⟩
  · have hno : (w.setClient i c').logins name ≠ some i := h.nameless hc hlogin name
    rw [hpacket, client_login hno, World.setClient, World.client_modify hk, if_pos rfl]
    rfl
  · rw [hpacket]
    exact quiet_login _ name i

/-- Another packet answers the first request that waits. The client is kept if it can be parsed. -/
theorem handle_answer (hk : w.connections[i]? = some k) (hkc : k.client = some c)
    (hlogin : c.login ≠ none) {x : ActionState ν ρ} {rest : List (ActionState ν ρ)}
    (hresponse : c.responseQueue = x :: rest) (value : Value ν) :
    ∃ c', c'.login = c.login ∧ c'.requestQueue = c.requestQueue ∧
      Quiet P (w.modify i fun k =>
        { k with
          client := some c'
          packets := k.packets ++ [value]
          delivered := k.delivered ++ [(x.id, value)] }) (w.onPacket i value) ∧
      (w.handle i value = .ok (w.onPacket i value) ∧ ((w.onPacket i value).client i).isSome = true ∨
        ∃ e, x.parseResponse value = .error e ∧
          w.handle i value = .error (.response e, w.onPacket i value) ∧
          (w.onPacket i value).client i = none) := by
  have hc : w.client i = some c := (client_of_connection hk).trans hkc
  obtain ⟨name, hname⟩ := Option.ne_none_iff_exists'.mp hlogin
  refine ⟨Client.updateTimeout { c with responseQueue := rest } true, ?_, ?_, ?_, ?_⟩
  · exact Client.login_updateTimeout ..
  · unfold Client.updateTimeout
    split_ifs <;> rfl
  · simp only [World.onPacket, hc, hname, hresponse]
    split_ifs
    · exact .of_eq rfl
    · exact (quiet_disconnect _ i).of_left rfl
  · cases hparse : x.parseResponse value with
    | ok r =>
      left
      refine ⟨?_, ?_⟩
      · simp [World.handle, World.packetError, hc, hname, hresponse, hparse]
      · simp only [World.onPacket, hc, hname, hresponse, hparse, Except.isOk, Except.toBool, if_true]
        refine Option.isSome_iff_exists.mpr ⟨_, (World.client_modify hk i).trans (if_pos rfl)⟩
    | error e =>
      right
      refine ⟨e, rfl, ?_, ?_⟩
      · simp [World.handle, World.packetError, hc, hname, hresponse, hparse]
      · simp only [World.onPacket, hc, hname, hresponse, hparse, Except.isOk, Except.toBool,
          Bool.false_eq_true, if_false]
        exact client_disconnect _ i

/-- The groups that wait were enqueued before, and the packet of the first of them is written. -/
theorem poll_cases (h : Inv w) (hk : w.connections[i]? = some k) (hkc : k.client = some c) :
    ∃ c', c'.login = c.login ∧
      ((c.requestQueue = [] ∧ c'.requestQueue = [] ∧
        w.pollWriter i = w.modify i fun k => { k with client := some c' }) ∨
      ∃ group groups built, c.requestQueue = group :: groups ∧ c'.requestQueue = groups ∧
        group.mapM ActionState.buildRequest = some built ∧
        built.map Prod.fst = group.filterMap ActionState.action ∧
        w.pollWriter i = w.modify i fun k =>
          { k with
            client := some c'
            sent := k.sent ++ built.map fun b => (b.2.id, b.1) }) := by
  have hc : w.client i = some c := (client_of_connection hk).trans hkc
  have hlive := (h.connections k (List.mem_of_getElem? hk)).live c hkc
  cases hqueue : c.requestQueue with
  | nil =>
    refine ⟨{ c with writer := .notWriting }, rfl, .inl ⟨rfl, hqueue, ?_⟩⟩
    simp only [World.pollWriter, hc, Client.writerMain, hqueue, List.append_nil]
  | cons group groups =>
    have hready := hlive.ready
    rw [hqueue, List.flatten_cons] at hready
    obtain ⟨built, hrun, hsent, -⟩ := mapM_buildRequest (List.forall_mem_append.mp hready).1
    have hvalues : built.map Prod.fst = group.filterMap ActionState.action := by
      have hsnd := congrArg (List.map Prod.snd) hsent
      rw [List.map_map, List.map_filterMap] at hsnd
      refine hsnd.trans (List.filterMap_congr fun x _ => ?_)
      simp [ActionState.request, Option.map_map, Function.comp_def]
    let c' : Client ν ρ :=
      { c with
        requestQueue := groups
        requestQueueSize := c.requestQueueSize - group.length
        responseQueue := c.responseQueue ++ built.map Prod.snd
        writer := .writing true }
    refine ⟨c', rfl, .inr ⟨group, groups, built, rfl, rfl, hrun, hvalues, ?_⟩⟩
    simp only [World.pollWriter, hc, Client.writerMain, hqueue, hrun, c']

end Server
end OCRemote
