import OCRemote.Server.Pairing

/-! The C++ server's side of its connections (`Server.cpp`), on the state of the other server:
`sendQueue` is `requestQueue`, `sendQueueTotal` is `requestQueueSize`, `isSending` is a writer that
has begun, and `responseTimer` is the time-out. It sends at once where the other server wakes a
task, fails requests in a task of their own, and goes through the packets of what it has read even
if one of them makes it remove the client. -/

namespace OCRemote
namespace CppServer
open Server
variable {ν ρ : Type}

/-- What was read of a client and is not decoded: whole packets, and whether bytes that are no
packet follow them. -/
structure Reading (ν : Type) where
  client : ℕ
  packets : List (Value ν)
  malformed : Bool

structure World (ν ρ : Type) where
  base : Server.World ν ρ
  /-- The tasks that fail requests and have not run. -/
  posted : List (List (ℕ × Completion ν ρ))
  reading : Option (Reading ν)
  /-- A client was erased from the list that it is no longer in. -/
  erasedTwice : Bool

def start : World ν ρ := ⟨.start, [], none, false⟩

def updateTimer (c : Client ν ρ) (restart : Bool) : Client ν ρ :=
  if c.requestQueue = [] ∧ c.responseQueue = [] then { c with timeout := false }
  else if restart || !c.timeout then { c with timeout := true }
  else c

/-- `Client::send`, with the requests that it writes. -/
def send (c : Client ν ρ) : Client ν ρ × List (ℕ × Value ν) :=
  match c.writer, c.requestQueue with
  | .notWriting, group :: groups =>
    (updateTimer
      { c with
        writer := .writing true
        responseQueue := c.responseQueue ++ group
        requestQueueSize := c.requestQueueSize - group.length
        requestQueue := groups } false,
      group.filterMap ActionState.request)
  | _, _ => (c, [])

/-- `Client::enqueueActionGroup`. -/
def enqueue (c : Client ν ρ) (group : List (ActionState ν ρ)) : Client ν ρ × List (ℕ × Value ν) :=
  send { c with
    requestQueueSize := c.requestQueueSize + group.length
    requestQueue := c.requestQueue ++ [group] }

/-- The tasks that `~Client` leaves. -/
def failures (c : Client ν ρ) : List (List (ℕ × Completion ν ρ)) :=
  let failureCause := c.logPrefix ++ " disconnected"
  (if c.requestQueue = [] then [] else [World.failures c.requestQueue.flatten failureCause]) ++
    if c.responseQueue = [] then [] else [World.failures c.responseQueue failureCause]

/-- The cause is moved into the first call, so what the others get is empty. -/
def refusals (group : List (ActionState ν ρ)) (failureCause : String) : List (ℕ × Completion ν ρ) :=
  match group with
  | [] => []
  | x :: group => (x.id, .onFail failureCause) :: World.failures group ""

namespace World

/-- A client is erased from the list, which destroys it. -/
def erase (w : World ν ρ) (i : ℕ) : World ν ρ :=
  match w.base.client i with
  | none => { w with erasedTwice := true }
  | some c =>
    { w with
      base := w.base.modify i fun k => { k with client := none }
      posted := w.posted ++ failures c }

def setLogins (w : World ν ρ) (logins : String → Option ℕ) : World ν ρ :=
  { w with base := { w.base with logins := logins } }

def removeClient (w : World ν ρ) (i : ℕ) : World ν ρ :=
  match (w.base.client i).bind Client.login with
  | none => w.erase i
  | some login => (w.setLogins (Function.update w.base.logins login none)).erase i

/-- `updateLogin` for a client that has its name already. -/
def updateLogin (w : World ν ρ) (name : String) (i : ℕ) : World ν ρ :=
  let w' := w.setLogins (Function.update w.base.logins name (some i))
  match w.base.logins name with
  | none => w'
  | some old => w'.erase old

def enqueueActionGroup (w : World ν ρ) (name : String) (group : List (ActionState ν ρ)) :
    World ν ρ :=
  let base := { w.base with enqueued := group.map ActionState.id ++ w.base.enqueued }
  match w.base.logins name with
  | none =>
    { w with
      base := base
      posted := w.posted ++ [refusals group (name ++ " isn't connected")] }
  | some i =>
    match w.base.client i with
    | none => { w with base := { base with panicked := true } }
    | some c =>
      let base' := base.modify i fun k =>
        { k with
          client := some (enqueue c group).1
          accepted := k.accepted ++ group.filterMap ActionState.request
          sent := k.sent ++ (enqueue c group).2 }
      { w with base := base' }

/-- `Client::onPacket`. What it throws is caught in `read`, so that the rest of what was read is
lost and the client is removed. A response that makes `onResult` throw leaves its request where it
is. -/
def onPacket (w : World ν ρ) (i : ℕ) (p : Value ν) : World ν ρ :=
  match w.base.client i with
  | none => { w with erasedTwice := true }
  | some c =>
    match c.login, c.responseQueue, p with
    | some _, x :: responseQueue, _ =>
      if (x.parseResponse p).isOk then
        let base := w.base.modify i fun k =>
          { k with
            client := some (updateTimer { c with responseQueue := responseQueue } true)
            packets := k.packets ++ [p]
            delivered := k.delivered ++ [(x.id, p)] }
        { w with base := { base with
            completions := base.completions ++ [(x.id, .onResponse p (x.parseResponse p))] } }
      else World.removeClient { w with reading := none } i
    | some _, [], _ => w.removeClient i
    | none, _, .S name =>
      let base := w.base.setClient i
        { c with login := some name, logPrefix := c.logPrefix ++ "(" ++ name ++ ")" }
      World.updateLogin { w with base := base } name i
    | none, _, _ => World.removeClient { w with reading := none } i

/-- The completion handler of `async_write`. -/
def written (w : World ν ρ) (i : ℕ) : World ν ρ :=
  match w.base.client i with
  | none => w
  | some c =>
    let r := send { c with writer := .notWriting }
    { w with base := w.base.modify i fun k => { k with client := some r.1, sent := k.sent ++ r.2 } }

/-- The deserializer comes to the next packet, or to bytes that it throws at. -/
def decode (w : World ν ρ) : World ν ρ :=
  match w.reading with
  | none => w
  | some ⟨_, [], false⟩ => { w with reading := none }
  | some ⟨i, [], true⟩ => World.removeClient { w with reading := none } i
  | some ⟨i, p :: packets, malformed⟩ =>
    World.onPacket { w with reading := some ⟨i, packets, malformed⟩ } i p

end World

inductive Event (ν ρ : Type) where
  | accept (host : String)
  | enqueue (name : String) (group : List (ActionState ν ρ))
  | read (i : ℕ) (packets : List (Value ν)) (malformed : Bool)
  | decode
  | readError (i : ℕ)
  | written (i : ℕ)
  | writeError (i : ℕ)
  | timeout (i : ℕ)
  /-- The first of the tasks that were posted. -/
  | run

/-- There is one thread, so nothing but what responses lead to happens while packets are decoded. -/
def enabled (w : World ν ρ) : Event ν ρ → Prop
  | .accept _ => w.reading.isNone
  | .enqueue _ group =>
    (group.map ActionState.id ++ w.base.enqueued).Nodup ∧ ∀ x ∈ group, x.action.isSome = true
  | .decode => w.reading.isSome
  | .read i _ _ | .readError i => w.reading.isNone ∧ (w.base.client i).isSome
  | .written i | .writeError i => w.reading.isNone ∧ ∃ c ∈ w.base.client i, c.writer ≠ .notWriting
  | .timeout i => w.reading.isNone ∧ ∃ c ∈ w.base.client i, c.timeout = true
  | .run => w.reading.isNone ∧ w.posted ≠ []

def next (w : World ν ρ) : Event ν ρ → World ν ρ
  | .accept host =>
    { w with base := { w.base with
        connections := w.base.connections ++ [⟨some (.new host), [], [], [], []⟩] } }
  | .enqueue name group => w.enqueueActionGroup name group
  | .read i packets malformed => { w with reading := some ⟨i, packets, malformed⟩ }
  | .decode => w.decode
  | .written i => w.written i
  | .readError i | .writeError i | .timeout i => w.removeClient i
  | .run =>
    match w.posted with
    | [] => w
    | task :: posted =>
      { w with
        base := { w.base with completions := w.base.completions ++ task }
        posted := posted }

def machine (ν ρ : Type) : Machine (World ν ρ) (Event ν ρ) := ⟨enabled, next⟩

instance (w : World ν ρ) : ∀ e, Decidable (enabled w e)
  | .accept _ => inferInstanceAs (Decidable (w.reading.isNone = true))
  | .enqueue _ group =>
    inferInstanceAs (Decidable ((group.map ActionState.id ++ w.base.enqueued).Nodup ∧
      ∀ x ∈ group, x.action.isSome = true))
  | .decode => inferInstanceAs (Decidable (w.reading.isSome = true))
  | .read i _ _ | .readError i =>
    inferInstanceAs (Decidable (w.reading.isNone = true ∧ (w.base.client i).isSome = true))
  | .written i | .writeError i =>
    inferInstanceAs (Decidable (w.reading.isNone = true ∧
      ∃ c ∈ w.base.client i, c.writer ≠ .notWriting))
  | .timeout i =>
    inferInstanceAs (Decidable (w.reading.isNone = true ∧ ∃ c ∈ w.base.client i, c.timeout = true))
  | .run => inferInstanceAs (Decidable (w.reading.isNone = true ∧ w.posted ≠ []))

instance (w : World ν ρ) (e : Event ν ρ) : Decidable ((machine ν ρ).enabled w e) :=
  inferInstanceAs (Decidable (enabled w e))

/-- The posted tasks are taken as run. -/
def World.settled (w : World ν ρ) : Server.World ν ρ :=
  { w.base with completions := w.base.completions ++ w.posted.flatten }

variable {w : World ν ρ} {i : ℕ} {k : Connection ν ρ} {c : Client ν ρ}

/-! What a step is to the other server's state. -/

theorem recomplete {s : Server.World ν ρ} (h : Inv s) (completions : List (ℕ × Completion ν ρ))
    (hids : (completions.map Prod.fst).Perm (s.completions.map Prod.fst))
    (hresponses : ∀ id p result, (id, .onResponse p result) ∈ s.completions →
      (id, .onResponse p result) ∈ completions) :
    Inv { s with completions := completions } := by
  refine ⟨h.alive, h.logins, fun k hk => ?_, (hids.append_right _).trans h.perm, h.nodup⟩
  have hok := h.connections k hk
  refine ⟨hok.live, hok.sent, hok.paired, fun p hp => ?_, fun hnone r hr => ?_⟩
  · obtain ⟨result, hresult⟩ := hok.answered p hp
    exact ⟨result, hresponses _ _ _ hresult⟩
  · exact hids.symm.subset (hok.settled hnone r hr)

theorem flatten_failures (c : Client ν ρ) :
    (failures c).flatten = World.failures c.pending (c.logPrefix ++ " disconnected") := by
  unfold failures Client.pending World.failures
  rw [List.map_append, List.flatten_append]
  congr 1
  · split_ifs with hnone <;> simp [hnone]
  · split_ifs with hnone <;> simp [hnone]

theorem settled_erase (hc : w.base.client i = some c) : (w.erase i).settled = w.settled.drop i := by
  have hc' : w.settled.client i = some c := hc
  unfold World.erase World.drop
  rw [hc, hc']
  simp only [← flatten_failures]
  simp only [World.settled, Server.World.modify, List.flatten_append, List.append_assoc]

theorem settled_removeClient (hc : w.base.client i = some c) :
    (w.removeClient i).settled = w.settled.disconnect i := by
  have hc' : w.settled.client i = some c := hc
  unfold World.removeClient World.disconnect
  rw [hc, hc']
  simp only [Option.bind_some]
  cases c.login with
  | none => exact settled_erase hc
  | some login => exact settled_erase (w := w.setLogins _) hc

/-- Without its name a client is only dropped. -/
theorem disconnect_nameless {s : Server.World ν ρ} (hc : s.client i = some c) :
    (s.setClient i { c with login := none }).disconnect i = s.drop i := by
  obtain ⟨k, hk, -⟩ := World.exists_connection hc
  have hset : (s.setClient i { c with login := none }).client i =
      some { c with login := none } := by
    unfold World.setClient
    rw [World.client_modify hk, if_pos rfl]
  unfold World.disconnect
  simp only [hset, Option.bind_some]
  unfold World.drop
  rw [hset, hc]
  simp only [World.setClient, Server.World.modify, List.modify_modify_eq]
  rfl

/-- The client that had the name is erased, where the other server takes its name away first. -/
theorem settled_updateLogin {name : String}
    (hold : ∀ j, w.base.logins name = some j → (w.base.client j).isSome) :
    (w.updateLogin name i).settled = w.settled.login name i := by
  unfold World.updateLogin Server.World.login
  have hlogins : w.settled.logins = w.base.logins := rfl
  rw [hlogins]
  cases hname : w.base.logins name with
  | none => rfl
  | some j =>
    obtain ⟨old, hc⟩ := Option.isSome_iff_exists.mp (hold j hname)
    have hc' : w.settled.client j = some old := hc
    let w' := w.setLogins (Function.update w.base.logins name (some i))
    have hc'' : w'.settled.client j = some old := hc
    simp only [hc']
    calc (w'.erase j).settled = w'.settled.drop j := settled_erase hc
      _ = (w'.settled.setClient j { old with login := none }).disconnect j :=
        (disconnect_nameless hc'').symm

/-- Only the time-out of a client changes. -/
theorem retime {s : Server.World ν ρ} (h : Inv s) (hc : s.client i = some c) (timeout : Bool) :
    Inv (s.setClient i { c with timeout := timeout }) := by
  obtain ⟨k, hk, hkc⟩ := World.exists_connection hc
  have hlive := (h.connections k (List.mem_of_getElem? hk)).live c hkc
  refine h.setClient hk hkc ?_ rfl (h.logins_client hk hkc rfl rfl)
  exact ⟨hlive.size, hlive.writer, hlive.ready, hlive.order, hlive.waiting, hlive.packets⟩

theorem updateTimer_eq (c : Client ν ρ) (restart : Bool) :
    ∃ timeout, updateTimer c restart = { c with timeout := timeout } := by
  unfold updateTimer
  split_ifs
  · exact ⟨false, rfl⟩
  · exact ⟨true, rfl⟩
  · exact ⟨c.timeout, rfl⟩

theorem updateTimeout_eq (c : Client ν ρ) (restart : Bool) :
    ∃ timeout, c.updateTimeout restart = { c with timeout := timeout } := by
  unfold Client.updateTimeout
  split_ifs
  · exact ⟨false, rfl⟩
  · exact ⟨true, rfl⟩
  · exact ⟨c.timeout, rfl⟩

theorem Live.busy (h : Live k c) : Live k { c with writer := .writing true } :=
  ⟨h.size, fun _ => by simp, h.ready, h.order, h.waiting, h.packets⟩

/-- The first group goes from one queue to the other, unless the client is busy. -/
theorem Live.send (h : Live k { c with writer := .writing true }) :
    Live { k with client := some (send c).1, sent := k.sent ++ (send c).2 } (send c).1 ∧
      (send c).1.login = c.login ∧
      ((send c).1.pending.map ActionState.id).Perm (c.pending.map ActionState.id) := by
  unfold CppServer.send
  split
  · rename_i group groups hwriter hqueue
    obtain ⟨hsize, -, hready, horder, hwaiting, hpackets⟩ := h
    simp only [hqueue, List.flatten_cons, List.filterMap_append, List.map_cons, List.sum_cons]
      at hsize hready horder hwaiting hpackets
    obtain ⟨hgroup, hgroups⟩ := List.forall_mem_append.mp hready
    obtain ⟨timeout, htimer⟩ := updateTimer_eq
      { c with
        writer := .writing true
        responseQueue := c.responseQueue ++ group
        requestQueueSize := c.requestQueueSize - group.length
        requestQueue := groups } false
    rw [htimer]
    refine ⟨⟨?_, fun _ => by simp, hgroups, ?_, ?_, hpackets⟩, rfl, ?_⟩
    · simp only
      omega
    · rw [← horder, List.append_assoc]
    · simp only [List.map_append, map_fst_request hgroup, ← List.append_assoc, hwaiting]
    · simp only [Client.pending, hqueue, List.map_append, List.flatten_cons]
      rw [List.perm_iff_count]
      intro a
      simp only [List.count_append]
      omega
  · rename_i hbusy
    obtain ⟨hsize, -, hready, horder, hwaiting, hpackets⟩ := h
    have hwriter : c.requestQueue ≠ [] → c.writer ≠ .notWriting := by
      intro hne hidle
      obtain ⟨group, groups, hqueue⟩ := List.exists_cons_of_ne_nil hne
      exact hbusy group groups hidle hqueue
    refine ⟨?_, rfl, .refl _⟩
    rw [List.append_nil]
    exact ⟨hsize, hwriter, hready, horder, hwaiting, hpackets⟩

/-! The steps. -/

theorem inv_removeClient (h : Inv w.settled) (hc : w.base.client i = some c) :
    Inv (w.removeClient i).settled := by
  rw [settled_removeClient hc]
  exact h.disconnect i

theorem map_fst_refusals (group : List (ActionState ν ρ)) (failureCause : String) :
    (refusals group failureCause).map Prod.fst = group.map ActionState.id := by
  unfold refusals
  split
  · rfl
  · simp [map_fst_failures]

theorem Live.push (h : Live k c) {group : List (ActionState ν ρ)}
    (hready : ∀ x ∈ group, x.action.isSome = true) :
    Live { k with accepted := k.accepted ++ group.filterMap ActionState.request }
      { c with
        requestQueueSize := c.requestQueueSize + group.length
        requestQueue := c.requestQueue ++ [group]
        writer := .writing true } := by
  refine ⟨?_, fun _ => by simp, ?_, ?_, h.waiting, h.packets⟩
  · simp [h.size]
  · rw [List.flatten_append]
    exact List.forall_mem_append.mpr ⟨h.ready, by simpa using hready⟩
  · rw [List.flatten_append, List.filterMap_append, ← List.append_assoc, h.order]
    simp

theorem inv_enqueue (h : Inv w.settled) {group : List (ActionState ν ρ)}
    (hfresh : (group.map ActionState.id ++ w.base.enqueued).Nodup)
    (hready : ∀ x ∈ group, x.action.isSome = true) (name : String) :
    Inv (w.enqueueActionGroup name group).settled := by
  unfold World.enqueueActionGroup
  cases hname : w.base.logins name with
  | none =>
    refine recomplete (h.refuse hfresh (name ++ " isn't connected")) _ ?_ ?_
    · simp [World.settled, map_fst_refusals, map_fst_failures]
    · intro id p result hmem
      simp only [World.settled, List.flatten_append, List.mem_append] at hmem ⊢
      rcases hmem with (hmem | hmem) | hmem
      · exact .inl hmem
      · exact .inr (.inl hmem)
      · simp [World.failures] at hmem
  | some i =>
    obtain ⟨c, hc, -⟩ := h.logins name i hname
    have hc' : w.base.client i = some c := hc
    obtain ⟨k, hk, hkc⟩ := World.exists_connection hc
    have hok := h.connections k (List.mem_of_getElem? hk)
    obtain ⟨hlive, hlogin, hperm⟩ := Live.send
      (c := { c with
        requestQueueSize := c.requestQueueSize + group.length
        requestQueue := c.requestQueue ++ [group] })
      (Live.push (hok.live c hkc) hready)
    simp only [hc']
    refine h.update hk (group.map ActionState.id) [] rfl (List.append_nil _).symm
      (Live.ok hlive rfl hok.answered) ?_ hfresh (h.logins_client hk hkc rfl hlogin)
    rw [pendingIds_some hkc, pendingIds_some rfl]
    refine hperm.trans ?_
    simp only [Client.pending, List.flatten_append, List.map_append]
    rw [List.perm_iff_count]
    intro a
    simp only [List.flatten_cons, List.flatten_nil, List.append_nil, List.count_append]
    omega

/-- What was posted is not changed by a response that comes before it. -/
theorem inv_answer (h : Inv w.settled) (hc : w.base.client i = some c) {x : ActionState ν ρ}
    {responseQueue : List (ActionState ν ρ)} (hresponse : c.responseQueue = x :: responseQueue)
    (p : Value ν) :
    let base := w.base.modify i fun k =>
      { k with
        client := some (updateTimer { c with responseQueue := responseQueue } true)
        packets := k.packets ++ [p]
        delivered := k.delivered ++ [(x.id, p)] }
    Inv (World.settled { w with base := { base with
      completions := base.completions ++ [(x.id, .onResponse p (x.parseResponse p))] } }) := by
  intro base
  obtain ⟨k, hk, -⟩ := World.exists_connection hc
  have hanswer := h.answer (c := c) hc hresponse p
  generalize hs : ({ w.settled.modify i _ with completions := _ } : Server.World ν ρ) = s at hanswer
  have hclient : s.client i =
      some (Client.updateTimeout { c with responseQueue := responseQueue } true) := by
    rw [← hs]
    exact (World.client_modify (w := w.settled) hk i).trans (if_pos rfl)
  obtain ⟨timeout, htimer⟩ := updateTimer_eq { c with responseQueue := responseQueue } true
  obtain ⟨timeout', htimeout⟩ := updateTimeout_eq { c with responseQueue := responseQueue } true
  have hretime := retime hanswer hclient timeout
  have heq : w.base.connections.modify i (fun k =>
      { k with
        client := some (updateTimer { c with responseQueue := responseQueue } true)
        packets := k.packets ++ [p]
        delivered := k.delivered ++ [(x.id, p)] }) =
      (s.setClient i { Client.updateTimeout { c with responseQueue := responseQueue } true with
        timeout := timeout }).connections := by
    rw [← hs, htimer, htimeout]
    simp only [World.setClient, Server.World.modify, List.modify_modify_eq]
    rfl
  refine (congrArg Server.Inv ?_).mp (recomplete hretime (base.completions ++
    [(x.id, .onResponse p (x.parseResponse p))] ++ w.posted.flatten) ?_ ?_)
  · rw [← hs] at heq ⊢
    simp only [World.settled, base, Server.World.modify, heq]
    rfl
  · rw [← hs]
    simp only [World.setClient, Server.World.modify, World.settled, base, List.map_append]
    rw [List.perm_iff_count]
    intro a
    simp only [List.count_append]
    omega
  · rw [← hs]
    simp only [World.setClient, Server.World.modify, World.settled, base, List.mem_append]
    tauto

theorem inv_logIn (h : Inv w.settled) (hc : w.base.client i = some c) (hlogin : c.login = none)
    (name : String) :
    let base := w.base.setClient i
      { c with login := some name, logPrefix := c.logPrefix ++ "(" ++ name ++ ")" }
    Inv (World.updateLogin { w with base := base } name i).settled := by
  intro base
  have hthere (j : ℕ) (hj : w.base.logins name = some j) : (base.client j).isSome := by
    obtain ⟨old, hold, -⟩ := h.logins name j hj
    obtain ⟨k, hk, -⟩ := World.exists_connection hc
    have hold' : w.base.client j = some old := hold
    simp only [base, World.setClient]
    rw [World.client_modify hk]
    split_ifs <;> simp [hold']
  rw [settled_updateLogin (w := { w with base := base }) hthere]
  exact h.logIn (c := c) hc hlogin name _

theorem inv_written (h : Inv w.settled) (i : ℕ) : Inv (w.written i).settled := by
  unfold World.written
  cases hc : w.base.client i with
  | none => exact h
  | some c =>
    obtain ⟨k, hk, hkc⟩ := World.exists_connection hc
    have hok := h.connections k (List.mem_of_getElem? hk)
    have hbusy : Live k { c with writer := .writing true } := Live.busy (hok.live c hkc)
    obtain ⟨hlive, hlogin, hperm⟩ := Live.send (c := { c with writer := .notWriting }) hbusy
    refine h.update hk [] [] rfl (List.append_nil _).symm (Live.ok hlive rfl hok.answered) ?_
      h.nodup (h.logins_client hk hkc rfl hlogin)
    rw [pendingIds_some hkc, pendingIds_some rfl]
    exact hperm

/-- Nothing of what was read is left for a client that is gone. -/
def Readable (w : World ν ρ) : Prop := ∀ r ∈ w.reading,
  (r.packets = [] ∧ r.malformed = false) ∨ (w.base.client r.client).isSome

/-! Which clients are there and timed after a step. -/

theorem client_erase (hc : w.base.client i = some c) (j : ℕ) :
    (w.erase i).base.client j = if i = j then none else w.base.client j := by
  obtain ⟨k, hk, -⟩ := World.exists_connection hc
  unfold World.erase
  simp only [hc]
  exact World.client_modify hk j

theorem erase_eq (hc : w.base.client i = some c) :
    (w.erase i).erasedTwice = w.erasedTwice ∧ (w.erase i).reading = w.reading := by
  unfold World.erase
  simp only [hc, and_self]

theorem removeClient_eq (w : World ν ρ) (i : ℕ) :
    ∃ logins, w.removeClient i = (w.setLogins logins).erase i := by
  unfold World.removeClient
  split
  · exact ⟨w.base.logins, rfl⟩
  · exact ⟨_, rfl⟩

theorem updateLogin_none {name : String} (h : w.base.logins name = none) (i : ℕ) :
    w.updateLogin name i = w.setLogins (Function.update w.base.logins name (some i)) := by
  unfold World.updateLogin
  simp only [h]

theorem updateLogin_some {name : String} {old : ℕ} (h : w.base.logins name = some old) (i : ℕ) :
    w.updateLogin name i =
      (w.setLogins (Function.update w.base.logins name (some i))).erase old := by
  unfold World.updateLogin
  simp only [h]

/-- A client that waits for a response is timed. -/
def Timed (c : Client ν ρ) : Prop := c.responseQueue ≠ [] → c.timeout = true

theorem timed_updateTimer (c : Client ν ρ) (restart : Bool) : Timed (updateTimer c restart) := by
  unfold updateTimer
  split_ifs with hnone hstart
  · intro hne
    exact absurd hnone.2 hne
  · exact fun _ => rfl
  · intro _
    by_contra hoff
    simp [hoff] at hstart

theorem timed_send (h : Timed c) : Timed (send c).1 := by
  unfold send
  split
  · exact timed_updateTimer _ _
  · exact h

/-- What holds unless a client was erased twice. -/
structure Sound (w : World ν ρ) : Prop where
  inv : Inv w.settled
  once : w.erasedTwice = false
  read : Readable w
  timed : ∀ i c, w.base.client i = some c → Timed c

theorem Sound.removeClient (h : Sound w) (hc : w.base.client i = some c)
    (hread : ∀ r ∈ w.reading, r.packets = [] ∧ r.malformed = false) : Sound (w.removeClient i) := by
  have hinv := inv_removeClient h.inv hc
  obtain ⟨logins, heq⟩ := removeClient_eq w i
  rw [heq] at hinv ⊢
  have hc' : (w.setLogins logins).base.client i = some c := hc
  obtain ⟨honce, hreading⟩ := erase_eq hc'
  refine ⟨hinv, honce.trans h.once, fun r hr => ?_, fun j c' hj => ?_⟩
  · rw [hreading] at hr
    exact .inl (hread r hr)
  · rw [client_erase hc'] at hj
    split_ifs at hj
    exact h.timed j c' hj

/-- A client that is there changes. -/
theorem Sound.update (h : Sound w) (hk : w.base.connections[i]? = some k) {w' : World ν ρ}
    (hinv : Inv w'.settled) (honce : w'.erasedTwice = w.erasedTwice)
    {f : Connection ν ρ → Connection ν ρ}
    (hconnections : w'.base.connections = w.base.connections.modify i f)
    (hclient : (f k).client = some c) (htimed : Timed c)
    (hread : ∀ r ∈ w'.reading,
      (r.packets = [] ∧ r.malformed = false) ∨ (w.base.client r.client).isSome) : Sound w' := by
  have hafter (j : ℕ) :
      w'.base.client j = if i = j then some c else w.base.client j := by
    rw [← hclient, ← World.client_modify hk]
    unfold World.client Server.World.modify
    rw [hconnections]
  refine ⟨hinv, honce.trans h.once, fun r hr => ?_, fun j c' hj => ?_⟩
  · refine (hread r hr).imp_right fun hsome => ?_
    rw [hafter]
    split_ifs
    · rfl
    · exact hsome
  · rw [hafter] at hj
    split_ifs at hj
    · obtain rfl := Option.some_inj.mp hj
      exact htimed
    · exact h.timed j c' hj

theorem Sound.enqueue (h : Sound w) {group : List (ActionState ν ρ)}
    (hfresh : (group.map ActionState.id ++ w.base.enqueued).Nodup)
    (hready : ∀ x ∈ group, x.action.isSome = true) (name : String) :
    Sound (w.enqueueActionGroup name group) := by
  have hinv := inv_enqueue h.inv hfresh hready name
  unfold World.enqueueActionGroup at hinv ⊢
  cases hname : w.base.logins name with
  | none =>
    simp only [hname] at hinv ⊢
    exact ⟨hinv, h.once, h.read, h.timed⟩
  | some i =>
    obtain ⟨c, hc, -⟩ := h.inv.logins name i hname
    have hc' : w.base.client i = some c := hc
    obtain ⟨k, hk, -⟩ := World.exists_connection hc'
    simp only [hname, hc'] at hinv ⊢
    refine h.update hk hinv rfl rfl rfl ?_ h.read
    apply timed_send
    exact h.timed i c hc'

theorem Sound.written (h : Sound w) (i : ℕ) : Sound (w.written i) := by
  have hinv := inv_written h.inv i
  unfold World.written at hinv ⊢
  cases hc : w.base.client i with
  | none =>
    simp only [hc] at hinv ⊢
    exact h
  | some c =>
    obtain ⟨k, hk, -⟩ := World.exists_connection hc
    simp only [hc] at hinv ⊢
    refine h.update hk hinv rfl rfl rfl ?_ h.read
    apply timed_send
    exact h.timed i c hc

theorem Sound.logIn (h : Sound w) (hc : w.base.client i = some c) (hlogin : c.login = none)
    (hreading : ∀ r ∈ w.reading, r.client = i) (name : String) :
    let base := w.base.setClient i
      { c with login := some name, logPrefix := c.logPrefix ++ "(" ++ name ++ ")" }
    Sound (World.updateLogin { w with base := base } name i) := by
  intro base
  have hinv : Inv (World.updateLogin { w with base := base } name i).settled :=
    inv_logIn h.inv hc hlogin name
  obtain ⟨k, hk, -⟩ := World.exists_connection hc
  have htimed : Timed { c with
      login := some name, logPrefix := c.logPrefix ++ "(" ++ name ++ ")" } := h.timed i c hc
  have hafter := World.client_modify hk (f := fun k => { k with client := some { c with
      login := some name, logPrefix := c.logPrefix ++ "(" ++ name ++ ")" } })
  cases hname : w.base.logins name with
  | none =>
    have heq : World.updateLogin { w with base := base } name i =
        World.setLogins { w with base := base } (Function.update base.logins name (some i)) :=
      updateLogin_none (w := { w with base := base }) hname i
    rw [heq] at hinv ⊢
    exact h.update hk hinv rfl rfl rfl htimed h.read
  | some j =>
    obtain ⟨old, hold, -⟩ := h.inv.logins name j hname
    have hij : i ≠ j := by
      rintro rfl
      exact h.inv.nameless (c := c) hc hlogin name hname
    let w' := World.setLogins { w with base := base } (Function.update base.logins name (some i))
    have hold' : w'.base.client j = some old := (hafter j).trans ((if_neg hij).trans hold)
    have heq : World.updateLogin { w with base := base } name i = w'.erase j :=
      updateLogin_some (w := { w with base := base }) hname i
    rw [heq] at hinv ⊢
    obtain ⟨honce, hread⟩ := erase_eq hold'
    refine ⟨hinv, honce.trans h.once, fun r hr => .inr ?_, fun j' c' hj' => ?_⟩
    · rw [hread] at hr
      rw [client_erase hold', hreading r hr, if_neg hij.symm]
      exact Option.isSome_iff_exists.mpr ⟨_, (hafter i).trans (if_pos rfl)⟩
    · rw [client_erase hold'] at hj'
      split_ifs at hj'
      have hj' := (hafter j').symm.trans hj'
      split_ifs at hj'
      · obtain rfl := Option.some_inj.mp hj'
        exact htimed
      · exact h.timed j' c' hj'

theorem Sound.onPacket (h : Sound w) {packets : List (Value ν)} {malformed : Bool}
    (hreading : w.reading = some ⟨i, packets, malformed⟩) (hc : w.base.client i = some c)
    (hclean : c.login.isSome → c.responseQueue = [] → packets = [] ∧ malformed = false)
    (p : Value ν) : Sound (w.onPacket i p) := by
  obtain ⟨k, hk, -⟩ := World.exists_connection hc
  have hforget : Sound { w with reading := none } := ⟨h.inv, h.once, by simp [Readable], h.timed⟩
  unfold World.onPacket
  simp only [hc]
  split
  · rename_i x responseQueue hlogin hresponse
    split_ifs
    · exact h.update hk (inv_answer h.inv hc hresponse _) rfl rfl rfl (timed_updateTimer _ _) h.read
    · exact hforget.removeClient hc (by simp)
  · rename_i hlogin hresponse
    have hlast := hclean (by simp [hlogin]) hresponse
    exact h.removeClient hc (by simpa [hreading] using hlast)
  · rename_i name hlogin
    exact h.logIn hc hlogin (by simp [hreading]) name
  · exact hforget.removeClient hc (by simp)

/-- What comes unasked is the last of what was read. -/
def Clean (w : World ν ρ) : Event ν ρ → Prop
  | .decode => ∀ r ∈ w.reading, ∀ c ∈ w.base.client r.client,
      c.login.isSome → c.responseQueue = [] →
        r.packets = [] ∨ (r.packets.tail = [] ∧ r.malformed = false)
  | _ => True

theorem Sound.decode (h : Sound w) (hclean : Clean w .decode) : Sound w.decode := by
  have hforget : Sound { w with reading := none } := ⟨h.inv, h.once, by simp [Readable], h.timed⟩
  unfold World.decode
  split
  · exact h
  · exact hforget
  · rename_i i hreading
    have hsome : (w.base.client i).isSome := by simpa using h.read _ hreading
    obtain ⟨c, hc⟩ := Option.isSome_iff_exists.mp hsome
    exact hforget.removeClient hc (by simp)
  · rename_i i p packets malformed hreading
    have hsome : (w.base.client i).isSome := by simpa using h.read _ hreading
    obtain ⟨c, hc⟩ := Option.isSome_iff_exists.mp hsome
    have hrest : Sound { w with reading := some ⟨i, packets, malformed⟩ } := by
      refine ⟨h.inv, h.once, fun r hr => .inr ?_, h.timed⟩
      obtain rfl := Option.some_inj.mp hr
      exact hsome
    refine hrest.onPacket rfl hc (fun hlogin hresponse => ?_) p
    simpa using hclean _ hreading c hc hlogin hresponse

theorem Sound.step (h : Sound w) {e : Event ν ρ} (he : enabled w e) (hclean : Clean w e) :
    Sound (next w e) := by
  cases e with
  | accept host =>
    refine ⟨h.inv.connect host, h.once, fun r hr => ?_, fun i c hc => ?_⟩
    · simp only [next, Option.isNone_iff_eq_none.mp he] at hr
      simp at hr
    · obtain ⟨k, hk, hkc⟩ := World.exists_connection hc
      rcases List.mem_append.mp (List.mem_of_getElem? hk) with hk | hk
      · obtain ⟨j, hj⟩ := List.mem_iff_getElem?.mp hk
        have hold : w.base.client j = some c := by
          unfold World.client
          rw [hj]
          exact hkc
        exact h.timed j c hold
      · obtain rfl := List.mem_singleton.mp hk
        obtain rfl := Option.some_inj.mp hkc
        exact fun hne => absurd rfl hne
  | enqueue name group => exact h.enqueue he.1 he.2 name
  | read i packets malformed =>
    refine ⟨h.inv, h.once, fun r hr => .inr ?_, h.timed⟩
    obtain rfl := Option.some_inj.mp hr
    exact he.2
  | decode => exact h.decode hclean
  | readError i => 
    obtain ⟨hreading, hsome⟩ := he
    obtain ⟨c, hc⟩ := Option.isSome_iff_exists.mp hsome
    exact h.removeClient hc (by simp [Option.isNone_iff_eq_none.mp hreading])
  | written i => exact h.written i
  | writeError i =>
    obtain ⟨hreading, c, hc, -⟩ := he
    exact h.removeClient hc (by simp [Option.isNone_iff_eq_none.mp hreading])
  | timeout i =>
    obtain ⟨hreading, c, hc, -⟩ := he
    exact h.removeClient hc (by simp [Option.isNone_iff_eq_none.mp hreading])
  | run =>
    simp only [next]
    split
    · exact h
    · rename_i task posted hposted
      have hsame : w.settled = { w.settled with
          completions := w.base.completions ++ task ++ posted.flatten } := by
        simp [World.settled, hposted]
      have hinv := h.inv
      rw [hsame] at hinv
      exact ⟨hinv, h.once, h.read, h.timed⟩

theorem sound_start : Sound (start : World ν ρ) := by
  refine ⟨start_inv, rfl, by simp [Readable, start], fun i c hc => ?_⟩
  simp [start, World.start, World.client] at hc

/-! What was read goes on after a client was removed, so that it is removed again. -/

/-- A client that is gone has more of what was read before it, or was erased twice. -/
def Doomed (w : World ν ρ) : Prop :=
  w.erasedTwice = true ∨ ∃ r ∈ w.reading,
    w.base.client r.client = none ∧ (r.packets ≠ [] ∨ r.malformed = true)

theorem erasedTwice_erase (h : w.erasedTwice = true) (i : ℕ) : (w.erase i).erasedTwice = true := by
  unfold World.erase
  split
  · rfl
  · exact h

theorem erasedTwice_removeClient (h : w.erasedTwice = true) (i : ℕ) :
    (w.removeClient i).erasedTwice = true := by
  obtain ⟨logins, heq⟩ := removeClient_eq w i
  rw [heq]
  exact erasedTwice_erase (w := w.setLogins logins) h i

theorem erasedTwice_updateLogin (h : w.erasedTwice = true) (name : String) (i : ℕ) :
    (w.updateLogin name i).erasedTwice = true := by
  unfold World.updateLogin
  split
  · exact h
  · apply erasedTwice_erase
    exact h

theorem erasedTwice_onPacket (h : w.erasedTwice = true) (i : ℕ) (p : Value ν) :
    (w.onPacket i p).erasedTwice = true := by
  unfold World.onPacket
  split
  · rfl
  · split
    · split_ifs
      · exact h
      · exact erasedTwice_removeClient (w := { w with reading := none }) h i
    · exact erasedTwice_removeClient h i
    · apply erasedTwice_updateLogin
      exact h
    · exact erasedTwice_removeClient (w := { w with reading := none }) h i

theorem erasedTwice_enqueue (w : World ν ρ) (name : String) (group : List (ActionState ν ρ)) :
    (w.enqueueActionGroup name group).erasedTwice = w.erasedTwice ∧
      (w.enqueueActionGroup name group).reading = w.reading := by
  unfold World.enqueueActionGroup
  split
  · exact ⟨rfl, rfl⟩
  · split <;> exact ⟨rfl, rfl⟩

theorem erasedTwice_next (h : w.erasedTwice = true) (e : Event ν ρ) :
    (next w e).erasedTwice = true := by
  cases e with
  | accept host => exact h
  | enqueue name group => exact (erasedTwice_enqueue w name group).1.trans h
  | read i packets malformed => exact h
  | decode =>
    simp only [next, World.decode]
    split
    · exact h
    · exact h
    · exact erasedTwice_removeClient (w := { w with reading := none }) h _
    · apply erasedTwice_onPacket
      exact h
  | readError i => exact erasedTwice_removeClient h i
  | written i =>
    simp only [next, World.written]
    split <;> exact h
  | writeError i => exact erasedTwice_removeClient h i
  | timeout i => exact erasedTwice_removeClient h i
  | run =>
    simp only [next]
    split <;> exact h

/-- Nobody comes back. -/
theorem client_enqueue (h : w.base.client i = none) (name : String)
    (group : List (ActionState ν ρ)) : (w.enqueueActionGroup name group).base.client i = none := by
  unfold World.enqueueActionGroup
  split
  · exact h
  · rename_i j hname
    split
    · exact h
    · rename_i c hc
      obtain ⟨k, hk, -⟩ := World.exists_connection hc
      have hij : j ≠ i := by
        rintro rfl
        simp [h] at hc
      exact (World.client_modify hk i).trans ((if_neg hij).trans h)

theorem removeClient_gone (h : w.base.client i = none) : (w.removeClient i).erasedTwice = true := by
  obtain ⟨logins, heq⟩ := removeClient_eq w i
  have h' : (w.setLogins logins).base.client i = none := h
  rw [heq, World.erase, h']

theorem Doomed.step (h : Doomed w) {e : Event ν ρ} (he : enabled w e) : Doomed (next w e) := by
  rcases h with h | ⟨r, hr, hgone, hmore⟩
  · exact .inl (erasedTwice_next h e)
  · have hr : w.reading = some r := hr
    have hbusy : w.reading.isNone = false := by simp [hr]
    cases e with
    | enqueue name group =>
      exact .inr ⟨r, (erasedTwice_enqueue w name group).2.trans hr, client_enqueue hgone name group,
        hmore⟩
    | decode =>
      obtain ⟨i, packets, malformed⟩ := r
      left
      simp only [next]
      unfold World.decode
      rw [hr]
      cases packets with
      | nil =>
        obtain rfl : malformed = true := by simpa using hmore
        exact removeClient_gone (w := { w with reading := none }) hgone
      | cons p packets =>
        have hgone : w.base.client i = none := hgone
        simp only [World.onPacket, hgone]
    | accept host => simp [enabled, hbusy] at he
    | read i packets malformed => simp [enabled, hbusy] at he
    | readError i => simp [enabled, hbusy] at he
    | written i => simp [enabled, hbusy] at he
    | writeError i => simp [enabled, hbusy] at he
    | timeout i => simp [enabled, hbusy] at he
    | run => simp [enabled, hbusy] at he

theorem onPacket_unexpected (hc : w.base.client i = some c) {login : String}
    (hlogin : c.login = some login) (hresponse : c.responseQueue = []) (p : Value ν) :
    w.onPacket i p = w.removeClient i := by
  unfold World.onPacket
  simp only [hc]
  split
  · rename_i hresponse'
    simp [hresponse] at hresponse'
  · rfl
  · rename_i hlogin'
    simp [hlogin] at hlogin'
  · rename_i hlogin' _
    simp [hlogin] at hlogin'

theorem doomed_of_not_clean {e : Event ν ρ} (hdirty : ¬Clean w e) : Doomed (next w e) := by
  cases e with
  | decode =>
    simp only [Clean, not_forall] at hdirty
    obtain ⟨⟨i, packets, malformed⟩, hreading, c, hc, hlogin, hresponse, hmore⟩ := hdirty
    have hreading : w.reading = some ⟨i, packets, malformed⟩ := hreading
    have hc : w.base.client i = some c := hc
    cases packets with
    | nil => simp at hmore
    | cons p packets =>
      let w' := { w with reading := some ⟨i, packets, malformed⟩ }
      have hc' : w'.base.client i = some c := hc
      obtain ⟨login, hlogin⟩ := Option.isSome_iff_exists.mp hlogin
      have hnext : next w .decode = w'.removeClient i := by
        simp only [next, World.decode, hreading]
        exact onPacket_unexpected hc' hlogin hresponse p
      obtain ⟨logins, heq⟩ := removeClient_eq w' i
      have hread : (next w .decode).reading = some ⟨i, packets, malformed⟩ := by
        rw [hnext, heq]
        exact (erase_eq (w := w'.setLogins logins) hc').2
      have hgone : (next w .decode).base.client i = none := by
        rw [hnext, heq]
        exact (client_erase (w := w'.setLogins logins) hc' i).trans (if_pos rfl)
      refine .inr ⟨_, hread, hgone, ?_⟩
      by_contra hnone
      simp only [not_or, not_not, Bool.not_eq_true] at hnone
      exact hmore (.inr hnone)
  | _ => exact absurd trivial hdirty

theorem Sound.run_doomed (h : Sound w) {es : List (Event ν ρ)} (hv : (machine ν ρ).Valid w es)
    (hdirty : ¬((machine ν ρ).restrict Clean).Valid w es) :
    Doomed ((machine ν ρ).exec w es) := by
  induction es generalizing w with
  | nil => exact absurd trivial hdirty
  | cons e es ih =>
    obtain ⟨he, hes⟩ := hv
    by_cases hclean : Clean w e
    · exact ih (h.step he hclean) hes fun hrest => hdirty ⟨⟨he, hclean⟩, hrest⟩
    · exact (machine ν ρ).invariant (fun _ _ hd he => hd.step he) (doomed_of_not_clean hclean) hes

/-- Whatever the order of the steps, a client is erased twice exactly when more was read after a
packet that nobody asked for. Otherwise each response goes to the request of its position, every
request is completed once or has its failure posted, and what is sent and not answered is timed. -/
theorem requests_settled (es : List (Event ν ρ)) (hv : (machine ν ρ).Valid start es)
    (hdone : ((machine ν ρ).exec start es).reading = none) :
    let w := (machine ν ρ).exec start es
    (w.erasedTwice = false ↔ ((machine ν ρ).restrict Clean).Valid start es) ∧
      (w.erasedTwice = false → Paired w.settled ∧
        ∀ i c, w.base.client i = some c → c.responseQueue ≠ [] → c.timeout = true) := by
  intro w
  have hsound (hclean : ((machine ν ρ).restrict Clean).Valid start es) : Sound w :=
    (machine ν ρ).invariant_restrict (fun _ _ hs he hc => hs.step he hc) sound_start hclean
  have hiff : w.erasedTwice = false ↔ ((machine ν ρ).restrict Clean).Valid start es := by
    refine ⟨fun honce => ?_, fun hclean => (hsound hclean).once⟩
    by_contra hdirty
    rcases sound_start.run_doomed hv hdirty with htwice | ⟨r, hr, -⟩
    · simp [w, htwice] at honce
    · rw [hdone] at hr
      simp at hr
  refine ⟨hiff, fun honce => ?_⟩
  have hs := hsound (hiff.mp honce)
  exact ⟨hs.inv.paired, hs.timed⟩

example : ((machine ℤ String).exec start [.accept "a", .read 0 [.S "core", .N, .N] false, .decode,
    .decode, .decode]).erasedTwice = true := by decide +kernel

/-- A group comes too early, one client answers once, is sent more and gives a wrong response, and
another one is evicted. -/
def shortLived : List (Event ℤ String) :=
  [.enqueue "core" [asking 0 "early", asking 1 "early"], .run, .accept "a",
    .read 0 [.S "core"] false, .decode, .decode, .enqueue "core" [asking 2 "list"],
    .enqueue "core" [asking 3 "call", asking 4 "call"],
    .read 0 [.S "one"] false, .decode, .enqueue "core" [asking 5 "print"], .decode, .written 0,
    .read 0 [.N, .S "two"] false, .decode, .run, .accept "b", .accept "c",
    .read 1 [.S "core"] false, .decode, .decode, .enqueue "core" [asking 6 "list"],
    .read 2 [.S "core"] false, .decode, .decode, .run]

theorem requests_settled_shortLived :
    let w := (machine ℤ String).exec start shortLived
    (w.base.completions.map Prod.fst = [0, 1, 2, 5, 3, 4] ∧ w.posted.map (·.map Prod.fst) = [[6]]) ∧
      (w.erasedTwice = false ↔ ((machine ℤ String).restrict Clean).Valid start shortLived) ∧
      (w.erasedTwice = false → Paired w.settled ∧
        ∀ i c, w.base.client i = some c → c.responseQueue ≠ [] → c.timeout = true) :=
  ⟨by decide +kernel, requests_settled shortLived (by decide +kernel) (by decide +kernel)⟩

end CppServer
end OCRemote
