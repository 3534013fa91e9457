import Mathlib.Algebra.Order.Ring.Int
import Mathlib.Data.List.Perm.Basic
import OCRemote.Lib.Split
import OCRemote.Server.Client

/-! Requests and responses of every connection are paired by their positions, and every request is
completed once, by its response or by a failure. -/

namespace OCRemote
namespace Server
variable {ν ρ : Type}

/-! What building the requests of a group does. -/

theorem mapM_buildRequest {group : List (ActionState ν ρ)}
    (h : ∀ x ∈ group, x.action.isSome = true) :
    ∃ built, group.mapM ActionState.buildRequest = some built ∧
      built.map (fun b => (b.2.id, b.1)) = group.filterMap ActionState.request ∧
      (built.map Prod.snd).map ActionState.id = group.map ActionState.id := by
  induction group with
  | nil => exact ⟨[], rfl, rfl, rfl⟩
  | cons x group ih =>
    obtain ⟨hx, hgroup⟩ := List.forall_mem_cons.mp h
    obtain ⟨request, hrequest⟩ := Option.isSome_iff_exists.mp hx
    obtain ⟨built, hrun, hsent, hids⟩ := ih hgroup
    refine ⟨(request, { x with action := none }) :: built, ?_, ?_, ?_⟩
    · simp [List.mapM_cons, ActionState.buildRequest, hrequest, hrun]
    · simp [ActionState.request, hrequest, ← hsent]
    · simp [← hids]

theorem map_fst_request {group : List (ActionState ν ρ)} (h : ∀ x ∈ group, x.action.isSome = true) :
    (group.filterMap ActionState.request).map Prod.fst = group.map ActionState.id := by
  induction group with
  | nil => rfl
  | cons x group ih =>
    obtain ⟨hx, hgroup⟩ := List.forall_mem_cons.mp h
    obtain ⟨request, hrequest⟩ := Option.isSome_iff_exists.mp hx
    simp [ActionState.request, hrequest, ← ih hgroup]

/-- Pairs that were made by position, with more on one of the sides. -/
theorem zip_pairs {α β : Type} (ps : List (α × β)) (as : List α) (bs : List β)
    (h : as = [] ∨ bs = []) :
    (ps.map Prod.fst ++ as).zip (ps.map Prod.snd ++ bs) = ps := by
  rw [List.zip_append (by simp)]
  have hrest : as.zip bs = [] := by rcases h with rfl | rfl <;> simp
  rw [hrest, List.append_nil]
  induction ps with
  | nil => rfl
  | cons p ps ih => simp [ih]

/-! One connection. -/

/-- The numbers of the requests that wait for the client of a connection. -/
def Connection.pendingIds (k : Connection ν ρ) : List ℕ :=
  match k.client with
  | none => []
  | some c => c.pending.map ActionState.id

/-- The client of a connection is where its history says. -/
structure Live (k : Connection ν ρ) (c : Client ν ρ) : Prop where
  size : c.requestQueueSize = (c.requestQueue.map List.length).sum
  writer : c.requestQueue ≠ [] → c.writer ≠ .notWriting
  ready : ∀ x ∈ c.requestQueue.flatten, x.action.isSome = true
  order : k.sent ++ c.requestQueue.flatten.filterMap ActionState.request = k.accepted
  waiting : k.delivered.map Prod.fst ++ c.responseQueue.map ActionState.id = k.sent.map Prod.fst
  packets : k.delivered.map Prod.snd = k.packets

structure Connection.Ok (completions : List (ℕ × Completion ν ρ)) (k : Connection ν ρ) : Prop where
  live : ∀ c, k.client = some c → Live k c
  sent : k.sent <+: k.accepted
  paired : k.delivered = (k.sent.map Prod.fst).zip k.packets
  answered : ∀ p ∈ k.delivered, ∃ result, (p.1, .onResponse p.2 result) ∈ completions
  settled : k.client = none → ∀ r ∈ k.accepted, r.1 ∈ completions.map Prod.fst

variable {k : Connection ν ρ} {c : Client ν ρ} {completions : List (ℕ × Completion ν ρ)}

theorem Live.ok (h : Live k c) (hc : k.client = some c)
    (hanswered : ∀ p ∈ k.delivered, ∃ result, (p.1, .onResponse p.2 result) ∈ completions) :
    k.Ok completions := by
  refine ⟨fun c' hc' => ?_, ⟨_, h.order⟩, ?_, hanswered, fun hnone => ?_⟩
  · rw [← Option.some_inj.mp (hc.symm.trans hc')]
    exact h
  · have hzip := zip_pairs k.delivered (c.responseQueue.map ActionState.id) [] (.inr rfl)
    rw [List.append_nil, h.waiting, h.packets] at hzip
    exact hzip.symm
  · rw [hc] at hnone
    simp at hnone

/-- What a client is called does not matter. -/
theorem Live.rename (h : Live k c) (login : Option String) (logPrefix : String) :
    Live { k with client := some { c with login := login, logPrefix := logPrefix } }
      { c with login := login, logPrefix := logPrefix } :=
  ⟨h.size, h.writer, h.ready, h.order, h.waiting, h.packets⟩

theorem Connection.Ok.mono (h : k.Ok completions) (more : List (ℕ × Completion ν ρ)) :
    k.Ok (completions ++ more) := by
  refine ⟨h.live, h.sent, h.paired, fun p hp => ?_, fun hnone r hr => ?_⟩
  · obtain ⟨result, hresult⟩ := h.answered p hp
    exact ⟨result, List.mem_append_left _ hresult⟩
  · rw [List.map_append]
    exact List.mem_append_left _ (h.settled hnone r hr)

theorem map_fst_failures (requests : List (ActionState ν ρ)) (reason : String) :
    (World.failures requests reason).map Prod.fst = requests.map ActionState.id := by
  simp [World.failures, Function.comp_def]

/-- A client that is dropped leaves nothing open. -/
theorem Live.settle (h : Live k c) (hok : k.Ok completions) (reason : String) {r : ℕ × Value ν}
    (hr : r ∈ k.accepted) :
    r.1 ∈ (completions ++ World.failures c.pending reason).map Prod.fst := by
  have hmem : r.1 ∈ k.accepted.map Prod.fst := List.mem_map_of_mem hr
  rw [← h.order, List.map_append, map_fst_request h.ready, ← h.waiting] at hmem
  rw [List.map_append, map_fst_failures, Client.pending, List.map_append]
  simp only [List.mem_append] at hmem ⊢
  -- an accepted request was answered, waits for its response, or was not sent
  rcases hmem with (hdone | hwait) | hqueue
  · left
    obtain ⟨p, hp, heq⟩ := List.mem_map.mp hdone
    obtain ⟨result, hresult⟩ := hok.answered p hp
    exact heq ▸ List.mem_map_of_mem (f := Prod.fst) hresult
  · exact .inr (.inr hwait)
  · exact .inr (.inl hqueue)

/-! The whole server. -/

def World.pendingIds (w : World ν ρ) : List ℕ := w.connections.flatMap Connection.pendingIds

structure Inv (w : World ν ρ) : Prop where
  alive : w.panicked = false
  logins : ∀ name i, w.logins name = some i → ∃ c, w.client i = some c ∧ c.login = some name
  connections : ∀ k ∈ w.connections, k.Ok w.completions
  /-- What was enqueued is completed or waits for a client that is there. -/
  perm : (w.completions.map Prod.fst ++ w.pendingIds).Perm w.enqueued
  nodup : w.enqueued.Nodup

variable {w : World ν ρ} {i : ℕ}

theorem World.exists_connection (h : w.client i = some c) :
    ∃ k, w.connections[i]? = some k ∧ k.client = some c := by
  unfold World.client at h
  exact Option.bind_eq_some_iff.mp h

theorem World.client_modify {f : Connection ν ρ → Connection ν ρ} (hk : w.connections[i]? = some k)
    (j : ℕ) :
    (w.modify i f).client j = if i = j then (f k).client else w.client j := by
  unfold World.client World.modify
  rw [List.getElem?_modify]
  split_ifs with hij
  · subst hij
    simp [hk]
  · simp

/-- One connection changes, with what is enqueued and completed meanwhile. -/
theorem Inv.update (h : Inv w) (hk : w.connections[i]? = some k)
    {f : Connection ν ρ → Connection ν ρ}
    {logins : String → Option ℕ} {enqueued : List ℕ} {completions : List (ℕ × Completion ν ρ)}
    (added : List ℕ) (new : List (ℕ × Completion ν ρ)) (henqueued : enqueued = added ++ w.enqueued)
    (hcompletions : completions = w.completions ++ new)
    (hok : (f k).Ok completions)
    (hperm : (new.map Prod.fst ++ (f k).pendingIds).Perm (added ++ k.pendingIds))
    (hnodup : enqueued.Nodup)
    (hlogins : ∀ name j, logins name = some j →
      ∃ c, (w.modify i f).client j = some c ∧ c.login = some name) :
    Inv { w.modify i f with logins := logins, enqueued := enqueued, completions := completions } := by
  obtain ⟨l₁, l₂, hcut, -, hmod⟩ := List.exists_cut hk
  refine ⟨h.alive, hlogins, fun k' hk' => ?_, ?_, hnodup⟩
  · simp only [World.modify, hmod, List.mem_append, List.mem_cons] at hk'
    have hmem : k' = f k ∨ k' ∈ w.connections := by
      rw [hcut]
      simp only [List.mem_append, List.mem_cons]
      tauto
    rcases hmem with rfl | hmem
    · exact hok
    · rw [hcompletions]
      exact (h.connections k' hmem).mono new
  · rw [List.perm_iff_count]
    intro a
    have hold := (List.perm_iff_count.mp h.perm) a
    have hstep := (List.perm_iff_count.mp hperm) a
    simp only [World.pendingIds, hcut, List.flatMap_append, List.flatMap_cons,
      List.count_append] at hold
    simp only [List.count_append] at hstep
    simp only [World.pendingIds, World.modify, hmod, henqueued, hcompletions, List.map_append,
      List.flatMap_append,
      List.flatMap_cons, List.count_append]
    omega

/-- Who has a name is there, and no other connection loses its client. -/
theorem Inv.logins_modify (h : Inv w) (hk : w.connections[i]? = some k)
    {f : Connection ν ρ → Connection ν ρ}
    (hf : ∀ c, k.client = some c → ∃ c', (f k).client = some c' ∧ c'.login = c.login) :
    ∀ name j, w.logins name = some j → ∃ c, (w.modify i f).client j = some c ∧ c.login =
      some name := by
  intro name j hname
  obtain ⟨c, hc, hlogin⟩ := h.logins name j hname
  rw [World.client_modify hk]
  split_ifs with hij
  · subst hij
    obtain ⟨k', hk', hc'⟩ := World.exists_connection hc
    obtain rfl : k = k' := Option.some_inj.mp (hk.symm.trans hk')
    obtain ⟨c', hnew, hsame⟩ := hf c hc'
    exact ⟨c', hnew, hsame.trans hlogin⟩
  · exact ⟨c, hc, hlogin⟩

/-- A client that changes keeps its name. -/
theorem Inv.logins_client (h : Inv w) (hk : w.connections[i]? = some k) (hkc : k.client = some c)
    {f : Connection ν ρ → Connection ν ρ} {c' : Client ν ρ} (hf : (f k).client = some c')
    (hlogin : c'.login = c.login) :
    ∀ name j, w.logins name = some j → ∃ c, (w.modify i f).client j = some c ∧ c.login =
      some name := by
  refine h.logins_modify hk fun c₀ hc₀ => ?_
  obtain rfl : c = c₀ := Option.some_inj.mp (hkc.symm.trans hc₀)
  exact ⟨c', hf, hlogin⟩

theorem pendingIds_some {k : Connection ν ρ} {c : Client ν ρ} (hc : k.client = some c) :
    k.pendingIds = c.pending.map ActionState.id := by
  unfold Connection.pendingIds
  rw [hc]

/-- A client changes, but not what it has to answer. -/
theorem Inv.setClient (h : Inv w) (hk : w.connections[i]? = some k) (hc : k.client = some c)
    {c' : Client ν ρ}
    (hlive : Live { k with client := some c' } c') (hpending : c'.pending = c.pending)
    (hlogins : ∀ name j, w.logins name = some j →
      ∃ c, (w.setClient i c').client j = some c ∧ c.login = some name) :
    Inv (w.setClient i c') := by
  have hok := h.connections k (List.mem_of_getElem? hk)
  refine h.update hk [] [] rfl (List.append_nil _).symm (hlive.ok rfl hok.answered) ?_ h.nodup hlogins
  simp [Connection.pendingIds, hc, hpending]

theorem Inv.drop (h : Inv w) (hno : ∀ name, w.logins name ≠ some i) : Inv (w.drop i) := by
  unfold World.drop
  cases hc : w.client i with
  | none => exact h
  | some c =>
    obtain ⟨k, hk, hkc⟩ := World.exists_connection hc
    have hok := h.connections k (List.mem_of_getElem? hk)
    have hlive := hok.live c hkc
    refine h.update hk [] _ rfl rfl ?_ ?_ h.nodup fun name j hname => ?_
    · refine ⟨by simp, hok.sent, hok.paired, (hok.mono _).answered,
        fun _ r hr => hlive.settle hok _ hr⟩
    · rw [map_fst_failures, pendingIds_some hkc]
      simp [Connection.pendingIds]
    · have hij : i ≠ j := by
        rintro rfl
        exact hno name hname
      obtain ⟨c, hc, hlogin⟩ := h.logins name j hname
      refine ⟨c, ?_, hlogin⟩
      rw [World.client_modify hk, if_neg hij]
      exact hc

theorem Inv.disconnect (h : Inv w) (i : ℕ) : Inv (w.disconnect i) := by
  unfold World.disconnect
  cases hlogin : (w.client i).bind Client.login with
  | none =>
    refine h.drop fun name hname => ?_
    obtain ⟨c, hc, hlog⟩ := h.logins name i hname
    simp [hc, hlog] at hlogin
  | some login =>
    -- the name is removed first, and no other name leads to this client
    have hremoved : Inv { w with logins := Function.update w.logins login none } := by
      refine ⟨h.alive, fun name j hname => ?_, h.connections, h.perm, h.nodup⟩
      by_cases heq : name = login
      · simp [heq] at hname
      · exact h.logins name j (by simpa [heq] using hname)
    refine hremoved.drop fun name hname => ?_
    have hne : name ≠ login := by
      rintro rfl
      simp at hname
    obtain ⟨c, hc, hlog⟩ := h.logins name i (by simpa [hne] using hname)
    rw [hc, Option.bind_some, hlog] at hlogin
    exact hne (Option.some_inj.mp hlogin)

/-- A client gets a name that nobody else has then. -/
theorem Inv.login (h : Inv w) {name : String} (hc : w.client i = some c)
    (hname : c.login = some name)
    (hno : ∀ name, w.logins name ≠ some i) : Inv (w.login name i) := by
  have hnamed : Inv { w with logins := Function.update w.logins name (some i) } := by
    refine ⟨h.alive, fun name' j hname' => ?_, h.connections, h.perm, h.nodup⟩
    by_cases heq : name' = name
    · subst heq
      obtain rfl : i = j := by simpa using hname'
      exact ⟨c, hc, hname⟩
    · exact h.logins name' j (by simpa [heq] using hname')
  unfold World.login
  cases hold : w.logins name with
  | none => exact hnamed
  | some j =>
    have hij : i ≠ j := by
      rintro rfl
      exact hno name hold
    obtain ⟨old, hc', hlogin⟩ := h.logins name j hold
    obtain ⟨k, hk, hkc⟩ := World.exists_connection hc'
    have hlive := (h.connections k (List.mem_of_getElem? hk)).live old hkc
    have hevicted : Inv (World.setClient { w with logins := Function.update w.logins name (some i) } j
        { old with login := none }) := by
      refine Inv.setClient hnamed hk hkc (hlive.rename none old.logPrefix) rfl ?_
      intro name' j' hname'
      obtain ⟨c', hc'', hlogin'⟩ := hnamed.logins name' j' hname'
      refine ⟨c', ?_, hlogin'⟩
      have hjj : j ≠ j' := by
        rintro rfl
        have hsame : old = c' := Option.some_inj.mp (hc'.symm.trans hc'')
        have heq : name = name' := Option.some_inj.mp (hlogin.symm.trans (hsame ▸ hlogin'))
        subst heq
        simp [hij] at hname'
      exact (World.client_modify hk j').trans ((if_neg hjj).trans hc'')
    simp only [hc']
    exact hevicted.disconnect j

/-! The steps. -/

theorem Inv.refuse (h : Inv w) {group : List (ActionState ν ρ)}
    (hfresh : (group.map ActionState.id ++ w.enqueued).Nodup) (reason : String) :
    Inv { w with
      enqueued := group.map ActionState.id ++ w.enqueued
      completions := w.completions ++ World.failures group reason } := by
  refine ⟨h.alive, h.logins, fun k hk => (h.connections k hk).mono _, ?_, hfresh⟩
  rw [List.map_append, map_fst_failures, List.perm_iff_count]
  intro a
  have hold := (List.perm_iff_count.mp h.perm) a
  have hsame : World.pendingIds { w with
      enqueued := group.map ActionState.id ++ w.enqueued
      completions := w.completions ++ World.failures group reason } = w.pendingIds := rfl
  rw [hsame]
  simp only [List.count_append] at hold ⊢
  omega

@[simp] theorem Client.login_updateTimeout (c : Client ν ρ) (restart : Bool) :
    (c.updateTimeout restart).login = c.login := by
  unfold Client.updateTimeout
  split_ifs <;> rfl

/-- What a time-out does not change. -/
theorem Live.updateTimeout (h : Live k c) (restart : Bool) : Live k (c.updateTimeout restart) := by
  unfold Client.updateTimeout
  split_ifs <;> exact ⟨h.size, h.writer, h.ready, h.order, h.waiting, h.packets⟩

theorem Client.pending_updateTimeout (c : Client ν ρ) (restart : Bool) :
    (c.updateTimeout restart).pending = c.pending := by
  unfold Client.updateTimeout
  split_ifs <;> rfl

theorem Client.login_enqueue (c : Client ν ρ) (group : List (ActionState ν ρ)) :
    (c.enqueueRequestGroup group).login = c.login := by
  unfold Client.enqueueRequestGroup
  split <;> simp

/-- The requests of a client after another group, whether its writer runs or is woken. -/
theorem Client.queues_enqueue (c : Client ν ρ) (group : List (ActionState ν ρ)) :
    (c.enqueueRequestGroup group).requestQueue = c.requestQueue ++ [group] ∧
      (c.enqueueRequestGroup group).requestQueueSize = c.requestQueueSize + group.length ∧
      (c.enqueueRequestGroup group).responseQueue = c.responseQueue ∧
      (c.enqueueRequestGroup group).writer ≠ .notWriting := by
  unfold Client.enqueueRequestGroup Client.updateTimeout
  cases hw : c.writer with
  | notWriting =>
    simp only
    split_ifs <;> simp
  | writing begun => simp

theorem Live.enqueue (h : Live k c) {group : List (ActionState ν ρ)}
    (hready : ∀ x ∈ group, x.action.isSome = true) :
    Live { k with
      client := some (c.enqueueRequestGroup group)
      accepted := k.accepted ++ group.filterMap ActionState.request }
    (c.enqueueRequestGroup group) := by
  obtain ⟨hqueue, hsize, hresponse, hwriter⟩ := c.queues_enqueue group
  refine ⟨?_, fun _ => hwriter, ?_, ?_, ?_, h.packets⟩
  · rw [hsize, hqueue, h.size]
    simp
  · rw [hqueue, List.flatten_append]
    exact List.forall_mem_append.mpr ⟨h.ready, by simpa using hready⟩
  · rw [hqueue, List.flatten_append, List.filterMap_append, ← List.append_assoc, h.order]
    simp
  · rw [hresponse]
    exact h.waiting

theorem Inv.enqueue (h : Inv w) {group : List (ActionState ν ρ)}
    (hfresh : (group.map ActionState.id ++ w.enqueued).Nodup)
    (hready : ∀ x ∈ group, x.action.isSome = true)
    (name : String) : Inv (w.enqueueRequestGroup name group) := by
  unfold World.enqueueRequestGroup
  cases hname : w.logins name with
  | none => exact h.refuse hfresh _
  | some i =>
    obtain ⟨c, hc, -⟩ := h.logins name i hname
    obtain ⟨k, hk, hkc⟩ := World.exists_connection hc
    have hok := h.connections k (List.mem_of_getElem? hk)
    have hlive := (hok.live c hkc).enqueue hready
    simp only [hc]
    refine h.update hk (group.map ActionState.id) [] rfl (List.append_nil _).symm
      (hlive.ok rfl hok.answered) ?_
      hfresh (h.logins_client hk hkc rfl (c.login_enqueue group))
    obtain ⟨hqueue, -, hresponse, -⟩ := c.queues_enqueue group
    rw [pendingIds_some hkc]
    simp only [Connection.pendingIds, Client.pending, hqueue, hresponse, List.flatten_append,
      List.map_append]
    rw [List.perm_iff_count]
    intro a
    simp only [List.map_nil, List.nil_append, List.flatten_cons, List.flatten_nil, List.append_nil,
      List.count_append]
    omega

/-- One step of the writer: it stops, or sends the first group. -/
theorem Live.writerMain (h : Live k c) :
    ∃ c' requests, c.writerMain = some (c', requests) ∧ c'.login = c.login ∧
      Live { k with client := some c', sent := k.sent ++ requests } c' ∧
      (c'.pending.map ActionState.id).Perm (c.pending.map ActionState.id) := by
  unfold Client.writerMain
  cases hqueue : c.requestQueue with
  | nil =>
    refine ⟨{ c with writer := .notWriting }, [], by simp [hqueue], rfl, ?_, .refl _⟩
    refine ⟨h.size, fun hne => absurd hqueue hne, h.ready, ?_, ?_, h.packets⟩
    · simpa using h.order
    · simpa using h.waiting
  | cons group groups =>
    have hready := h.ready
    have horder := h.order
    have hsize := h.size
    rw [hqueue, List.flatten_cons] at hready horder
    rw [hqueue, List.map_cons, List.sum_cons] at hsize
    obtain ⟨hgroup, hgroups⟩ := List.forall_mem_append.mp hready
    obtain ⟨built, hrun, hsent, hids⟩ := mapM_buildRequest hgroup
    have hsentIds : (built.map fun b => (b.2.id, b.1)).map Prod.fst = group.map ActionState.id := by
      rw [hsent, map_fst_request hgroup]
    simp only [hrun]
    refine ⟨_, _, rfl, rfl, ?_, ?_⟩
    · refine ⟨?_, fun _ => by simp, hgroups, ?_, ?_, h.packets⟩
      · simp only
        omega
      · rw [List.filterMap_append] at horder
        simp only [hsent, List.append_assoc]
        exact horder
      · simp only [List.map_append, hids, hsentIds, ← List.append_assoc, h.waiting]
    · -- the group moves from one queue to the other
      simp only [Client.pending, hqueue, List.map_append, hids, List.flatten_cons]
      rw [List.perm_iff_count]
      intro a
      simp only [List.count_append]
      omega

theorem Inv.poll (h : Inv w) (i : ℕ) : Inv (w.pollWriter i) := by
  cases hc : w.client i with
  | none =>
    unfold World.pollWriter
    rw [hc]
    exact h
  | some c =>
    obtain ⟨k, hk, hkc⟩ := World.exists_connection hc
    have hok := h.connections k (List.mem_of_getElem? hk)
    obtain ⟨c', requests, hrun, hlogin, hlive, hperm⟩ := (hok.live c hkc).writerMain
    have heq : w.pollWriter i =
        w.modify i fun k => { k with client := some c', sent := k.sent ++ requests } := by
      unfold World.pollWriter
      simp only [hc, hrun]
    rw [heq]
    refine h.update hk [] [] rfl (List.append_nil _).symm (hlive.ok rfl hok.answered) ?_ h.nodup
      (h.logins_client hk hkc rfl hlogin)
    rw [pendingIds_some hkc]
    simpa [Connection.pendingIds] using hperm

/-- The first request that waits gets the packet. -/
theorem Inv.answer (h : Inv w) (hc : w.client i = some c) {x : ActionState ν ρ}
    {rest : List (ActionState ν ρ)}
    (hresponse : c.responseQueue = x :: rest) (value : Value ν) :
    Inv { w.modify i fun k =>
        { k with
          client := some (Client.updateTimeout { c with responseQueue := rest } true)
          packets := k.packets ++ [value]
          delivered := k.delivered ++ [(x.id, value)] } with
      completions := w.completions ++ [(x.id, .onResponse value (x.parseResponse value))] } := by
  obtain ⟨k, hk, hkc⟩ := World.exists_connection hc
  have hok := h.connections k (List.mem_of_getElem? hk)
  have hlive := hok.live c hkc
  have hwaiting := hlive.waiting
  rw [hresponse, List.map_cons] at hwaiting
  refine h.update hk [] _ rfl rfl (Live.ok (Live.updateTimeout ?_ true) rfl ?_) ?_ h.nodup ?_
  · refine ⟨hlive.size, hlive.writer, hlive.ready, hlive.order, ?_, ?_⟩
    · simpa using hwaiting
    · simp [hlive.packets]
  · intro p hp
    rcases List.mem_append.mp hp with hp | hp
    · obtain ⟨result, hresult⟩ := hok.answered p hp
      exact ⟨result, List.mem_append_left _ hresult⟩
    · obtain rfl := List.mem_singleton.mp hp
      exact ⟨_, List.mem_append_right _ (List.mem_singleton_self _)⟩
  · rw [pendingIds_some hkc]
    simp only [Connection.pendingIds]
    rw [Client.pending_updateTimeout]
    simp only [Client.pending, hresponse, List.map_append, List.map_cons, List.map_nil]
    rw [List.perm_iff_count]
    intro a
    simp only [List.count_append, List.count_cons, List.count_nil]
    omega
  · exact h.logins_client hk hkc rfl (Client.login_updateTimeout _ true)

theorem connections_disconnect (hk : w.connections[i]? = some k) (hkc : k.client = some c) :
    (w.disconnect i).connections[i]? = some { k with client := none } := by
  have hc : w.client i = some c := by
    unfold World.client
    rw [hk]
    exact hkc
  have hdrop (logins : String → Option ℕ) :
      (World.drop { w with logins := logins } i).connections[i]? = some { k with client := none } := by
    have hc' : World.client { w with logins := logins } i = some c := hc
    unfold World.drop
    rw [hc']
    simp only [World.modify, List.getElem?_modify, hk]
    simp
  unfold World.disconnect
  cases (w.client i).bind Client.login with
  | none => exact hdrop w.logins
  | some login => exact hdrop _

/-- A packet that nobody asked for is the last one. -/
theorem Inv.unexpected (h : Inv w) (hc : w.client i = some c) (hresponse : c.responseQueue = [])
    (value : Value ν) :
    Inv ((w.disconnect i).modify i fun k => { k with packets := k.packets ++ [value] }) := by
  obtain ⟨k, hk, hkc⟩ := World.exists_connection hc
  have hlive := (h.connections k (List.mem_of_getElem? hk)).live c hkc
  have hlost := h.disconnect i
  have hk' := connections_disconnect hk hkc
  have hok := hlost.connections _ (List.mem_of_getElem? hk')
  refine hlost.update hk' [] [] rfl (List.append_nil _).symm ?_
    (by simp [Connection.pendingIds]) hlost.nodup ?_
  · refine ⟨by simp, hok.sent, ?_, hok.answered, hok.settled⟩
    have hwaiting := hlive.waiting
    rw [hresponse, List.map_nil] at hwaiting
    have hzip := zip_pairs k.delivered [] [value] (.inl rfl)
    rw [hwaiting, hlive.packets] at hzip
    exact hzip.symm
  · exact hlost.logins_modify hk' (by simp)

theorem Inv.nameless (h : Inv w) (hc : w.client i = some c) (hlogin : c.login = none)
    (name : String) :
    w.logins name ≠ some i := by
  intro hname
  obtain ⟨c', hc', hlogin'⟩ := h.logins name i hname
  obtain rfl : c = c' := Option.some_inj.mp (hc.symm.trans hc')
  rw [hlogin] at hlogin'
  simp at hlogin'

theorem Inv.logIn (h : Inv w) (hc : w.client i = some c) (hlogin : c.login = none)
    (name logPrefix : String) :
    Inv ((w.setClient i { c with login := some name, logPrefix := logPrefix }).login name i) := by
  obtain ⟨k, hk, hkc⟩ := World.exists_connection hc
  have hlive := (h.connections k (List.mem_of_getElem? hk)).live c hkc
  have hno := h.nameless hc hlogin
  have hset : Inv (w.setClient i { c with login := some name, logPrefix := logPrefix }) := by
    refine h.setClient hk hkc (hlive.rename (some name) logPrefix) rfl fun name' j hname => ?_
    obtain ⟨c', hc', hlogin'⟩ := h.logins name' j hname
    have hij : i ≠ j := by
      rintro rfl
      exact hno name' hname
    exact ⟨c', (World.client_modify hk j).trans ((if_neg hij).trans hc'), hlogin'⟩
  refine hset.login (c := { c with login := some name, logPrefix := logPrefix }) ?_ rfl hno
  exact (World.client_modify hk i).trans (if_pos rfl)

theorem Inv.packet (h : Inv w) (i : ℕ) (value : Value ν) : Inv (w.onPacket i value) := by
  unfold World.onPacket
  cases hc : w.client i with
  | none => exact h
  | some c =>
    simp only
    split
    · rename_i x rest hlogin hresponse
      split_ifs
      · exact h.answer hc hresponse _
      · exact (h.answer hc hresponse _).disconnect i
    · rename_i hlogin hresponse
      exact h.unexpected hc hresponse _
    · rename_i name hlogin
      exact h.logIn hc hlogin name _
    · exact h.disconnect i

theorem Inv.connect (h : Inv w) (addr : String) :
    Inv { w with connections := w.connections ++ [⟨some (.new addr), [], [], [], []⟩] } := by
  refine ⟨h.alive, fun name i hname => ?_, fun k hk => ?_, ?_, h.nodup⟩
  · obtain ⟨c, hc, hlogin⟩ := h.logins name i hname
    obtain ⟨k, hk, hkc⟩ := World.exists_connection hc
    refine ⟨c, ?_, hlogin⟩
    unfold World.client
    rw [List.getElem?_append_left (List.getElem?_eq_some_iff.mp hk).1, hk]
    exact hkc
  · rcases List.mem_append.mp hk with hk | hk
    · exact h.connections k hk
    · obtain rfl := List.mem_singleton.mp hk
      refine Live.ok (c := .new addr) ?_ rfl (by simp)
      constructor <;> simp [Client.new]
  · have hnew : World.pendingIds { w with
        connections := w.connections ++ [⟨some (.new addr), [], [], [], []⟩] } = w.pendingIds := by
      simp [World.pendingIds, Connection.pendingIds, Client.new, Client.pending]
    rw [hnew]
    exact h.perm

theorem Inv.shutdown (h : Inv w) (is : List ℕ) :
    Inv (is.foldl World.drop { w with logins := fun _ => none }) := by
  have hnone : Inv { w with logins := fun _ => none } :=
    ⟨h.alive, by simp, h.connections, h.perm, h.nodup⟩
  have hlogins : ∀ name, World.logins { w with logins := fun _ => none } name = none := fun _ => rfl
  generalize ({ w with logins := fun _ => none } : World ν ρ) = w' at hnone hlogins ⊢
  induction is generalizing w' with
  | nil => exact hnone
  | cons i is ih =>
    have hkeep : (w'.drop i).logins = w'.logins := by
      unfold World.drop
      split <;> rfl
    refine ih _ (hnone.drop fun name => by simp [hlogins]) fun name => ?_
    rw [hkeep]
    exact hlogins name

theorem Inv.step (h : Inv w) {e : Event ν ρ} (he : enabled w e) : Inv (next w e) := by
  cases e with
  | connect addr => exact h.connect addr
  | enqueue name group => exact h.enqueue he.1 he.2 name
  | poll i => exact h.poll i
  | writeError i => exact h.disconnect i
  | packet i value => exact h.packet i value
  | readError i => exact h.disconnect i
  | timeout i => exact h.disconnect i
  | shutdown => exact h.shutdown _

/-- What holds of the requests and responses of a server. -/
structure Paired (w : World ν ρ) : Prop where
  /-- No `unwrap` failed. -/
  alive : w.panicked = false
  /-- Requests are sent in the order they are enqueued. -/
  order : ∀ k ∈ w.connections, k.sent <+: k.accepted
  /-- The packets answer the requests that were sent, in their order. -/
  pairing : ∀ k ∈ w.connections, k.delivered = (k.sent.map Prod.fst).zip k.packets
  answered : ∀ k ∈ w.connections, ∀ p ∈ k.delivered, ∃ result,
    (p.1, .onResponse p.2 result) ∈ w.completions
  /-- Nothing is completed twice, or without having been enqueued. -/
  once : (w.completions.map Prod.fst).Nodup
  known : ∀ p ∈ w.completions, p.1 ∈ w.enqueued
  /-- What is not completed waits for a client that is there. -/
  waiting : ∀ r ∈ w.enqueued, r ∈ w.completions.map Prod.fst ∨
    ∃ k ∈ w.connections, ∃ c ∈ k.client, r ∈ c.pending.map ActionState.id
  dropped : ∀ k ∈ w.connections, k.client = none →
    ∀ r ∈ k.accepted, r.1 ∈ w.completions.map Prod.fst
  size : ∀ k ∈ w.connections, ∀ c ∈ k.client, c.requestQueueSize =
    (c.requestQueue.map List.length).sum
  writer : ∀ k ∈ w.connections, ∀ c ∈ k.client, c.requestQueue ≠ [] → c.writer ≠ .notWriting

theorem Inv.paired (h : Inv w) : Paired w := by
  have hall := h.perm.nodup_iff.mpr h.nodup
  refine ⟨h.alive, fun k hk => (h.connections k hk).sent, fun k hk => (h.connections k hk).paired,
    fun k hk => (h.connections k hk).answered,
    (List.nodup_append.mp hall).1, fun p hp => ?_, fun r hr => ?_,
    fun k hk => (h.connections k hk).settled, fun k hk c hc => ((h.connections k hk).live c hc).size,
    fun k hk c hc => ((h.connections k hk).live c hc).writer⟩
  · exact h.perm.subset (List.mem_append_left _ (List.mem_map_of_mem hp))
  · rcases List.mem_append.mp (h.perm.symm.subset hr) with hdone | hwait
    · exact .inl hdone
    · obtain ⟨k, hk, hmem⟩ := List.mem_flatMap.mp hwait
      unfold Connection.pendingIds at hmem
      split at hmem
      · simp at hmem
      · rename_i c hc
        exact .inr ⟨k, hk, c, hc, hmem⟩

theorem start_inv : Inv (World.start : World ν ρ) := by
  refine ⟨rfl, ?_, ?_, ?_, ?_⟩ <;> simp [World.start, World.pendingIds]

/-- Whatever the order of groups, writes, packets, errors, time-outs, evictions and disconnects, each
response goes to the request of its position, and every request is completed once. -/
theorem requests_paired (es : List (Event ν ρ)) (hv : (machine ν ρ).Valid .start es) :
    Paired ((machine ν ρ).exec .start es) :=
  ((machine ν ρ).invariant (fun _ _ hI he => hI.step he) start_inv hv).paired

/-- A request whose response may be text or not. -/
def asking (id : ℕ) (op : String) : ActionState ℤ String :=
  ⟨id, some (.S op), fun
    | .S text => .ok text
    | _ => .error "no text"⟩

/-- A client answers one request, is sent two more, gives a wrong response to the first of them and
is dropped. Another one takes over the name, and is itself evicted. -/
def busyServer : List (Event ℤ String) :=
  [.enqueue "core" [asking 0 "early"], .connect "a", .packet 0 (.S "core"), .enqueue "core" [],
    .enqueue "core" [asking 1 "list"], .poll 0, .poll 0, .packet 0 (.S "one"),
    .enqueue "core" [asking 2 "call", asking 3 "call"],
    .poll 0, .connect "b", .enqueue "core" [asking 4 "print"], .packet 0 .N, .packet 1 (.S "core"),
    .enqueue "core" [asking 5 "list"], .poll 1, .poll 1,
    .connect "c", .packet 2 (.S "core"), .enqueue "core" [asking 6 "list"]]

theorem requests_paired_busyServer :
    let w := (machine ℤ String).exec .start busyServer
    w.completions.map Prod.fst = [0, 1, 2, 4, 3, 5] ∧
    w.connections.map (fun k => k.sent.map Prod.fst) = [[1, 2, 3], [5], []] ∧
      Paired w :=
  ⟨by decide +kernel, by decide +kernel, requests_paired busyServer (by decide +kernel)⟩

end Server
end OCRemote
