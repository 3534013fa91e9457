import OCRemote.Lib.Linked
import OCRemote.Lib.Machine
import OCRemote.Lib.Split

/-! The clients of a server as they hold one another (`server.rs`). The server has a strong pointer
to the newest client and each client one to the client before it, `prev` and the entries of
`logins` are weak, and a client is dropped with the last strong pointer to it. -/

namespace OCRemote

structure Registry.Client where
  login : Option String
  next : Option ℕ
  prev : Option ℕ
  deriving DecidableEq

/-- Clients are numbered as they are made, and `allocated` has those that were not dropped. -/
structure Registry where
  clients : Option ℕ
  logins : String → Option ℕ
  allocated : List (Option Registry.Client)
  /-- The clients that were unlinked so far. -/
  unlinked : List ℕ
  panicked : Bool

namespace Registry

def start : Registry := ⟨none, fun _ => none, [], [], false⟩

/-- What `upgrade` finds. -/
def client (w : Registry) (i : ℕ) : Option Client := (w.allocated[i]?).join

def modify (w : Registry) (i : ℕ) (f : Client → Client) : Registry :=
  { w with allocated := w.allocated.modify i (Option.map f) }

def allocate (w : Registry) (c : Client) : Registry :=
  { w with allocated := w.allocated ++ [some c] }

def drop (w : Registry) (i : ℕ) : Registry := { w with allocated := w.allocated.set i none }

/-- Is there a strong pointer to `i`? -/
def referenced (w : Registry) (i : ℕ) : Bool :=
  w.clients == some i || w.allocated.any fun c => c.bind Client.next == some i

theorem countP_drop {w : Registry} {i : ℕ} {c : Client} (h : w.client i = some c) :
    (w.drop i).allocated.countP Option.isSome < w.allocated.countP Option.isSome := by
  obtain ⟨hi, hc⟩ : ∃ hi : i < w.allocated.length, w.allocated[i] = some c := by
    simpa [client, Option.join_eq_some_iff, List.getElem?_eq_some_iff] using h
  have hpos : 0 < w.allocated.countP Option.isSome :=
    List.countP_pos_iff.mpr ⟨some c, hc ▸ List.getElem_mem hi, rfl⟩
  rw [drop, List.countP_set hi, hc]
  simp only [Option.isSome_some, if_true, Option.isSome_none, Bool.false_eq_true, if_false, add_zero]
  exact Nat.sub_lt hpos one_pos

/-- The strong pointer of a running task goes. -/
def release (w : Registry) (i : ℕ) : Registry :=
  match _ : w.client i with
  | none => w
  | some c =>
    if w.referenced i then w
    else
      match c.next with
      | none => w.drop i
      | some j => release (w.drop i) j
termination_by w.allocated.countP Option.isSome
decreasing_by exact countP_drop ‹_›

/-- `acceptor_main` for one connection. -/
def accept (w : Registry) : Registry :=
  let i := w.allocated.length
  let w' := { w.allocate ⟨none, w.clients, none⟩ with clients := some i }
  match w.clients with
  | none => w'
  | some next => w'.modify next fun c => { c with prev := some i }

def removeLogin (w : Registry) (this : Client) : Registry :=
  match this.login with
  | none => w
  | some login => { w with logins := Function.update w.logins login none }

/-- What `next` points back to. No value means that a client was borrowed a second time. -/
def setPrevOfNext (w : Registry) (i : ℕ) (this : Client) : Option Registry :=
  match this.next with
  | none => some w
  | some next => if next = i then none else some (w.modify next fun c => { c with prev := this.prev })

/-- What `prev`, or the server, points to. No value means that `unwrap` failed, or that a client was
borrowed a second time. -/
def setNextOfPrev (w : Registry) (i : ℕ) (this : Client) : Option Registry :=
  match this.prev with
  | none => some { w with clients := this.next }
  | some prev =>
    if (w.client prev).isNone ∨ prev = i then none
    else some (w.modify prev fun c => { c with next := this.next })

def disconnectByServer (w : Registry) (i : ℕ) : Option Registry := do
  let this ← w.client i
  let w ← (w.removeLogin this).setPrevOfNext i this
  let w ← w.setNextOfPrev i this
  some { w.modify i fun c => { c with next := none } with unlinked := w.unlinked ++ [i] }

/-- `disconnect`, called by the reader, the writer or the timer, which had upgraded the client. -/
def disconnect (w : Registry) (i : ℕ) : Option Registry :=
  (w.disconnectByServer i).map fun w => w.release i

/-- `Server::login`. -/
def login (w : Registry) (name : String) (i : ℕ) : Option Registry :=
  let w' := { w with logins := Function.update w.logins name (some i) }
  match w.logins name with
  | none => some w'
  | some old => do
    let _ ← w'.client old
    let w' ← (w'.modify old fun c => { c with login := none }).disconnectByServer old
    some (w'.release old)

/-- `on_packet` for a client without a login. -/
def onLoginPacket (w : Registry) (i : ℕ) (name : String) : Option Registry :=
  (w.modify i fun c => { c with login := some name }).login name i

/-- The lookup of `enqueue_request_group` and `estimate_load`. -/
def lookUp (w : Registry) (name : String) : Option Registry :=
  match w.logins name with
  | none => some w
  | some i => (w.client i).map fun _ => w

inductive Event where
  | connect
  | logIn (i : ℕ) (name : String)
  | disconnect (i : ℕ)
  | enqueueRequestGroup (name : String)
  | estimateLoad (name : String)

def enabled (w : Registry) : Event → Prop
  | .logIn i _ => ∃ c ∈ w.client i, c.login = none
  | .disconnect i => (w.client i).isSome = true
  | .connect | .enqueueRequestGroup _ | .estimateLoad _ => True

def step (w : Registry) : Event → Option Registry
  | .connect => some w.accept
  | .logIn i name => w.onLoginPacket i name
  | .disconnect i => w.disconnect i
  | .enqueueRequestGroup name | .estimateLoad name => w.lookUp name

def next (w : Registry) (e : Event) : Registry := (w.step e).getD { w with panicked := true }

def machine : Machine Registry Event := ⟨enabled, next⟩

instance (w : Registry) : ∀ e, Decidable (enabled w e)
  | .logIn i _ => inferInstanceAs (Decidable (∃ c ∈ w.client i, c.login = none))
  | .disconnect i => inferInstanceAs (Decidable ((w.client i).isSome = true))
  | .connect | .enqueueRequestGroup _ | .estimateLoad _ => .isTrue trivial

instance (w : Registry) (e : Event) : Decidable (machine.enabled w e) :=
  inferInstanceAs (Decidable (enabled w e))

/-! Who is connected after some events, whatever the server does. -/

/-- How many clients were connected, and those of them that have neither disconnected nor been
evicted, the newest one first, each with its name. -/
structure Sessions where
  total : ℕ
  connected : List (ℕ × Option String)

namespace Sessions

def next (s : Sessions) : Event → Sessions
  | .connect => ⟨s.total + 1, (s.total, none) :: s.connected⟩
  | .logIn i name =>
    -- whoever has the name is evicted
    { s with
      connected := (s.connected.filter fun c => c.2 ≠ some name).map fun c =>
        if c.1 = i then (i, some name) else c }
  | .disconnect i => { s with connected := s.connected.filter fun c => c.1 ≠ i }
  | .enqueueRequestGroup _ | .estimateLoad _ => s

def order (s : Sessions) : List ℕ := s.connected.map Prod.fst

end Sessions

def sessions (es : List Event) : Sessions := es.foldl Sessions.next ⟨0, []⟩

/-! The operations seen from the links. -/

def links (w : Registry) : Links ℕ where
  head := w.clients
  next i := (w.client i).bind Client.next
  prev i := (w.client i).bind Client.prev

variable {w : Registry} {i j : ℕ}

@[simp] theorem links_head : w.links.head = w.clients := rfl

@[simp] theorem links_next : w.links.next i = (w.client i).bind Client.next := rfl

@[simp] theorem links_prev : w.links.prev i = (w.client i).bind Client.prev := rfl

@[simp] theorem client_modify (f : Client → Client) :
    (w.modify i f).client j = if j = i then (w.client j).map f else w.client j := by
  by_cases h : j = i
  · subst h
    cases hj : w.allocated[j]? <;> simp [client, modify, hj]
  · simp [client, modify, h, Ne.symm h]

@[simp] theorem client_drop : (w.drop i).client j = if j = i then none else w.client j := by
  by_cases h : j = i
  · subst h
    by_cases hj : j < w.allocated.length <;> simp [client, drop, hj]
  · simp [client, drop, h, Ne.symm h]

@[simp] theorem client_allocate (c : Client) :
    (w.allocate c).client j = if j = w.allocated.length then some c else w.client j := by
  simp only [client, allocate, List.getElem?_append]
  split_ifs <;> grind

@[simp] theorem client_clients (l : Option ℕ) :
    Registry.client { w with clients := l } j = w.client j := rfl

@[simp] theorem client_logins (l : String → Option ℕ) :
    Registry.client { w with logins := l } j = w.client j := rfl

@[simp] theorem client_unlinked (l : List ℕ) :
    Registry.client { w with unlinked := l } j = w.client j := rfl

theorem client_lt {c : Client} (h : w.client i = some c) : i < w.allocated.length := by
  by_contra hi
  simp [client, List.getElem?_eq_none (not_lt.mp hi)] at h

theorem not_referenced (hhead : w.clients ≠ some i)
    (hnext : ∀ j c, w.client j = some c → c.next ≠ some i) : w.referenced i = false := by
  rw [referenced, Bool.or_eq_false_iff, List.any_eq_false]
  refine ⟨by simpa using hhead, fun c hc => ?_⟩
  obtain ⟨j, hj⟩ := List.mem_iff_getElem?.mp hc
  cases c with
  | none => simp
  | some c => simpa using hnext j c (by simp [client, hj])

theorem release_eq {c : Client} (hi : w.client i = some c) (hnext : c.next = none)
    (hout : w.referenced i = false) : w.release i = w.drop i := by
  rw [release]
  split
  · simp_all
  · obtain rfl : c = _ := Option.some.inj (hi.symm.trans ‹_›)
    simp [hout, hnext]

/-- The list of clients is `order`, and nobody else is alive. -/
structure Listed (w : Registry) (order : List ℕ) : Prop where
  linked : w.links.Linked order
  alive : ∀ i, (w.client i).isSome = true ↔ i ∈ order

section
variable {order : List ℕ}

theorem Listed.exists_client (h : Listed w order) (hi : i ∈ order) : ∃ c, w.client i = some c :=
  Option.isSome_iff_exists.mp ((h.alive i).mpr hi)

theorem Listed.mem {c : Client} (h : Listed w order) (hi : w.client i = some c) : i ∈ order :=
  (h.alive i).mp (by simp [hi])

theorem Listed.next_alive (h : Listed w order) {c : Client} (hi : w.client i = some c)
    (hj : c.next = some j) : ∃ d, w.client j = some d :=
  h.exists_client (h.linked.mem_of_next (h.mem hi) (by simp [links, hi, hj]))

theorem Listed.prev_alive (h : Listed w order) {c : Client} (hi : w.client i = some c)
    (hj : c.prev = some j) : ∃ d, w.client j = some d :=
  h.exists_client (h.linked.mem_of_prev (h.mem hi) (by simp [links, hi, hj]))

theorem Listed.head_ne (h : Listed w order) : w.clients ≠ some w.allocated.length := by
  intro hhead
  have hmem : w.allocated.length ∈ order := List.mem_of_head? (h.linked.head ▸ hhead)
  obtain ⟨c, hc⟩ := h.exists_client hmem
  exact (client_lt hc).false

theorem client_accept (h : w.clients ≠ some w.allocated.length) :
    w.accept.client j =
      if j = w.allocated.length then some ⟨none, w.clients, none⟩
      else if w.clients = some j then
        (w.client j).map fun c => { c with prev := some w.allocated.length }
      else w.client j := by
  cases hhead : w.clients with
  | none => simp [accept, hhead]
  | some next =>
    have hne : next ≠ w.allocated.length := fun heq => h (heq ▸ hhead)
    by_cases hj : j = next
    · subst hj
      simp [accept, hhead, hne]
    · simp [accept, hhead, hj, Ne.symm hj]

theorem Listed.links_accept (h : Listed w order) :
    w.accept.links = w.links.push w.allocated.length := by
  ext j b
  · cases hhead : w.clients <;> simp [accept, Links.push, hhead, modify]
  · rw [links_next, client_accept h.head_ne]
    simp only [Links.push, Function.update_apply, links_next, links_head]
    split_ifs with hj hhead
    · rfl
    · cases w.client j <;> rfl
    · rfl
  · rw [links_prev, client_accept h.head_ne]
    by_cases hj : j = w.allocated.length
    · rw [if_pos hj, hj, Links.push_prev_self h.head_ne]
      rfl
    · rw [if_neg hj, Links.push_prev hj, links_head]
      split_ifs with hhead
      · obtain ⟨c, hc⟩ := h.exists_client (List.mem_of_head? (h.linked.head.symm.trans hhead))
        rw [hc]
        rfl
      · rfl

theorem Listed.accept (h : Listed w order) : Listed w.accept (w.allocated.length :: order) where
  linked := by
    have hnew : w.allocated.length ∉ order := fun hmem => by
      obtain ⟨c, hc⟩ := h.exists_client hmem
      exact (client_lt hc).false
    rw [h.links_accept]
    exact h.linked.push hnew
  alive i := by
    rw [client_accept h.head_ne, List.mem_cons, ← h.alive]
    split_ifs <;> simp_all

/-- The clients were changed by `f`, and nothing else but what the server points to. -/
structure Changed (w : Registry) (f : ℕ → Client → Client) (w' : Registry) : Prop where
  client : ∀ j, w'.client j = (w.client j).map (f j)
  logins : w'.logins = w.logins
  unlinked : w'.unlinked = w.unlinked
  panicked : w'.panicked = w.panicked
  length : w'.allocated.length = w.allocated.length

theorem Changed.refl (w : Registry) : Changed w (fun _ c => c) w :=
  ⟨fun j => by simp, rfl, rfl, rfl, rfl⟩

theorem Changed.trans {w' w'' : Registry} {f g : ℕ → Client → Client} (hf : Changed w f w')
    (hg : Changed w' g w'') : Changed w (fun j c => g j (f j c)) w'' where
  client j := by rw [hg.client, hf.client, Option.map_map]; rfl
  logins := hg.logins.trans hf.logins
  unlinked := hg.unlinked.trans hf.unlinked
  panicked := hg.panicked.trans hf.panicked
  length := hg.length.trans hf.length

theorem changed_modify (w : Registry) (i : ℕ) (f : Client → Client) :
    Changed w (fun j c => if j = i then f c else c) (w.modify i f) := by
  refine ⟨fun j => ?_, rfl, rfl, rfl, by simp [modify]⟩
  rw [client_modify]
  split_ifs <;> simp

theorem setPrevOfNext_spec {c : Client} (hc : c.next ≠ some i) :
    ∃ w', w.setPrevOfNext i c = some w' ∧ w'.clients = w.clients ∧
      Changed w (fun j d => { d with prev := if c.next = some j then c.prev else d.prev }) w' := by
  unfold setPrevOfNext
  cases hnext : c.next with
  | none => exact ⟨w, rfl, rfl, by simpa using Changed.refl w⟩
  | some next =>
    have hne : next ≠ i := fun heq => hc (heq ▸ hnext)
    have hmod := changed_modify w next fun d => { d with prev := c.prev }
    refine ⟨_, if_neg hne, rfl, ?_⟩
    convert hmod using 3
    split_ifs <;> simp_all

theorem setNextOfPrev_spec {c : Client} (hc : c.prev ≠ some i)
    (halive : ∀ j, c.prev = some j → ∃ d, w.client j = some d) :
    ∃ w', w.setNextOfPrev i c = some w' ∧
      w'.clients = (if c.prev = none then c.next else w.clients) ∧
      Changed w (fun j d => { d with next := if c.prev = some j then c.next else d.next }) w' := by
  unfold setNextOfPrev
  cases hprev : c.prev with
  | none => exact ⟨_, rfl, rfl, by simpa using ⟨fun j => by simp, rfl, rfl, rfl, rfl⟩⟩
  | some prev =>
    obtain ⟨d, hd⟩ := halive prev hprev
    have hne : prev ≠ i := fun heq => hc (heq ▸ hprev)
    have hmod := changed_modify w prev fun d => { d with next := c.next }
    refine ⟨_, if_neg (by simp [hd, hne]), rfl, ?_⟩
    convert hmod using 3
    split_ifs <;> simp_all

/-- What `disconnect_by_server` leaves of a listed client and of the others. -/
structure Unlinked (w : Registry) (i : ℕ) (c : Client) (w' : Registry) : Prop where
  clients : w'.clients = if c.prev = none then c.next else w.clients
  client : ∀ j, w'.client j = (w.client j).map fun d =>
    ⟨d.login, if j = i then none else if c.prev = some j then c.next else d.next,
      if c.next = some j then c.prev else d.prev⟩
  logins : ∀ name, w'.logins name = if c.login = some name then none else w.logins name
  unlinked : w'.unlinked = w.unlinked ++ [i]
  panicked : w'.panicked = w.panicked
  length : w'.allocated.length = w.allocated.length

@[simp] theorem client_removeLogin (c : Client) : (w.removeLogin c).client j = w.client j := by
  unfold removeLogin
  cases c.login <;> rfl

theorem logins_removeLogin (c : Client) (name : String) :
    (w.removeLogin c).logins name = if c.login = some name then none else w.logins name := by
  unfold removeLogin
  cases c.login <;> simp [Function.update_apply, eq_comm]

theorem removeLogin_spec (c : Client) : (w.removeLogin c).clients = w.clients ∧
    (w.removeLogin c).unlinked = w.unlinked ∧ (w.removeLogin c).panicked = w.panicked ∧
    (w.removeLogin c).allocated = w.allocated := by
  unfold removeLogin
  cases c.login <;> exact ⟨rfl, rfl, rfl, rfl⟩

theorem Listed.disconnectByServer (h : Listed w order) {c : Client} (hi : w.client i = some c) :
    ∃ w', w.disconnectByServer i = some w' ∧ Unlinked w i c w' := by
  have hnext : c.next ≠ some i := by simpa [hi] using h.linked.next_ne_self (h.mem hi)
  have hprev : c.prev ≠ some i := by simpa [hi] using h.linked.prev_ne_self (h.mem hi)
  obtain ⟨hclients₀, hunlinked₀, hpanicked₀, hallocated₀⟩ := removeLogin_spec (w := w) c
  obtain ⟨w₁, hrun₁, hclients₁, hch₁⟩ := setPrevOfNext_spec (w := w.removeLogin c) hnext
  have halive (j : ℕ) (hj : c.prev = some j) : ∃ d, w₁.client j = some d := by
    obtain ⟨d, hd⟩ := h.prev_alive hi hj
    exact ⟨_, by rw [hch₁.client, client_removeLogin, hd]; rfl⟩
  obtain ⟨w₂, hrun₂, hclients₂, hch₂⟩ := setNextOfPrev_spec hprev halive
  have hch := (hch₁.trans hch₂).trans (changed_modify w₂ i fun d => { d with next := none })
  refine ⟨{ w₂.modify i fun d => { d with next := none } with unlinked := w₂.unlinked ++ [i] },
    by simp [Registry.disconnectByServer, hi, hrun₁, hrun₂], ?_⟩
  constructor
  · show w₂.clients = _
    rw [hclients₂, hclients₁, hclients₀]
  · intro j
    rw [client_unlinked, hch.client, client_removeLogin]
    congr 1
    funext d
    by_cases hj : j = i <;> simp [hj]
  · intro name
    show w₂.logins name = _
    rw [hch₂.logins, hch₁.logins, logins_removeLogin]
  · show w₂.unlinked ++ [i] = _
    rw [hch₂.unlinked, hch₁.unlinked, hunlinked₀]
  · show w₂.panicked = _
    rw [hch₂.panicked, hch₁.panicked, hpanicked₀]
  · show (w₂.modify i _).allocated.length = _
    rw [hch.length, hallocated₀]

theorem Unlinked.links {w' : Registry} {c : Client} (h : Unlinked w i c w')
    (hi : w.client i = some c)
    (hnext : ∀ j, c.next = some j → ∃ d, w.client j = some d)
    (hprev : ∀ j, c.prev = some j → ∃ d, w.client j = some d) : w'.links = w.links.unlink i := by
  have hlinks : w.links.next i = c.next ∧ w.links.prev i = c.prev := by simp [hi]
  refine Links.ext ?_ (funext fun j => ?_) (funext fun j => ?_)
  · rw [Links.unlink_head, hlinks.1, hlinks.2]
    exact h.clients
  · rw [links_next, h.client]
    by_cases hj : j = i
    · rw [hj, Links.unlink_next_self, hi]
      simp
    · rw [Links.unlink_next hj, hlinks.1, hlinks.2]
      by_cases hp : c.prev = some j
      · obtain ⟨d, hd⟩ := hprev j hp
        simp [hd, hj, hp]
      · cases hd : w.client j <;> simp [hj, hd, hp]
  · rw [links_prev, h.client, Links.unlink_prev, hlinks.1, hlinks.2]
    by_cases hn : c.next = some j
    · obtain ⟨d, hd⟩ := hnext j hn
      simp [hd, hn]
    · cases hd : w.client j <;> simp [hd, hn]

/-- Nobody points to a client that was unlinked, so it is dropped, and nothing else with it. -/
theorem Unlinked.release {w' : Registry} {c : Client} (h : Unlinked w i c w') (hl : Listed w order)
    (hi : w.client i = some c) :
    w'.release i = w'.drop i ∧ Listed (w'.drop i) (order.erase i) := by
  have hlinked := hl.linked.unlink (hl.mem hi)
  rw [← h.links hi (fun j => hl.next_alive hi) (fun j => hl.prev_alive hi)] at hlinked
  have hout : i ∉ order.erase i := hl.linked.nodup.not_mem_erase
  have hmem (j : ℕ) : j ∈ order.erase i ↔ j ≠ i ∧ (w'.client j).isSome = true := by
    rw [hl.linked.nodup.mem_erase_iff, h.client, Option.isSome_map, hl.alive]
  constructor
  · refine release_eq (by rw [h.client, hi]; rfl) (by simp) (not_referenced ?_ fun j d hj => ?_)
    · exact fun hhead => hout (List.mem_of_head? (hlinked.head.symm.trans hhead))
    · by_cases hji : j = i
      · obtain rfl : _ = d := by simpa [h.client, hji, hi] using hj
        simp
      · have hj' := (hmem j).mpr ⟨hji, by simp [hj]⟩
        exact fun hnext => hout (hlinked.mem_of_next hj' (by simp [hj, hnext]))
  · constructor
    · refine hlinked.congr rfl fun j hj => ?_
      have hne := ((hmem j).mp hj).1
      simp [hne]
    · intro j
      rw [hmem, client_drop]
      by_cases hj : j = i <;> simp [hj]

/-- The list is that of the clients alive, `logins` has the names of the clients by which they are
found, and all others were unlinked once. -/
structure Inv (w : Registry) (order : List ℕ) : Prop extends Listed w order where
  named : ∀ name i, w.logins name = some i ↔ (w.client i).bind Client.login = some name
  once : w.unlinked.Nodup
  gone : ∀ i, i ∈ w.unlinked ↔ i ∉ order ∧ i < w.allocated.length
  calm : w.panicked = false

/-- The names determine the logins. -/
theorem Inv.login_eq {order' : List ℕ} {w' : Registry} (h : Inv w order) (h' : Inv w' order')
    (hsame : ∀ name, w'.logins name = some j ↔ w.logins name = some j) :
    (w'.client j).bind Client.login = (w.client j).bind Client.login :=
  Option.ext fun name => by rw [← h'.named, ← h.named, hsame]

theorem accept_spec (w : Registry) : w.accept.logins = w.logins ∧
    w.accept.unlinked = w.unlinked ∧ w.accept.panicked = w.panicked ∧
    w.accept.allocated.length = w.allocated.length + 1 := by
  unfold Registry.accept
  cases w.clients <;> simp [modify, allocate]

theorem Inv.accept (h : Inv w order) : Inv w.accept (w.allocated.length :: order) := by
  obtain ⟨hlogins, hunlinked, hpanicked, hlength⟩ := accept_spec w
  refine ⟨h.toListed.accept, fun name i => ?_, ?_, fun i => ?_, ?_⟩
  · have hnew : w.client w.allocated.length = none := by simp [client]
    rw [hlogins, h.named, client_accept h.head_ne]
    split_ifs with hi hhead
    · rw [hi, hnew]
      rfl
    · cases w.client i <;> rfl
    · rfl
  · rw [hunlinked]
    exact h.once
  · rw [hunlinked, h.gone, hlength, List.mem_cons, not_or]
    constructor
    · rintro ⟨hout, hlt⟩
      exact ⟨⟨hlt.ne, hout⟩, hlt.trans (Nat.lt_succ_self _)⟩
    · rintro ⟨⟨hne, hout⟩, hlt⟩
      exact ⟨hout, by omega⟩
  · rw [hpanicked]
    exact h.calm

/-- A client leaves, and with it the entry of its name. -/
theorem Inv.disconnect (h : Inv w order) {c : Client} (hi : w.client i = some c) :
    ∃ w', w.disconnectByServer i = some w' ∧ Inv (w'.release i) (order.erase i) ∧
      (∀ name, (w'.release i).logins name = if c.login = some name then none else w.logins name) ∧
      (w'.release i).allocated.length = w.allocated.length := by
  obtain ⟨w', hrun, hunl⟩ := h.toListed.disconnectByServer hi
  obtain ⟨hrelease, hlisted⟩ := hunl.release h.toListed hi
  have hlength : (w'.drop i).allocated.length = w.allocated.length := by
    rw [← hunl.length]
    exact List.length_set
  refine ⟨w', hrun, hrelease ▸ ⟨hlisted, fun name j => ?_, ?_, fun j => ?_, ?_⟩,
    hrelease ▸ hunl.logins, hrelease ▸ hlength⟩
  · show w'.logins name = some j ↔ _
    rw [hunl.logins, client_drop]
    by_cases hj : j = i
    · have hname : w.logins name = some i ↔ c.login = some name := by simpa [hi] using h.named name i
      rw [if_pos hj, hj]
      split_ifs with hc
      · simp
      · simpa using mt hname.mp hc
    · -- the others keep their names, none of which is that of `i`
      have hlogin : (w'.client j).bind Client.login = (w.client j).bind Client.login := by
        rw [hunl.client]
        cases w.client j <;> rfl
      rw [if_neg hj, hlogin, ← h.named]
      split_ifs with hc
      · have hname : w.logins name = some i := (h.named name i).mpr (by simpa [hi] using hc)
        simp [hname, Ne.symm hj]
      · rfl
  · show w'.unlinked.Nodup
    rw [hunl.unlinked]
    have hout : i ∉ w.unlinked := fun hmem => ((h.gone i).mp hmem).1 (h.mem hi)
    simpa [List.nodup_append] using ⟨h.once, fun a ha heq => hout (heq ▸ ha)⟩
  · show j ∈ w'.unlinked ↔ _
    rw [hunl.unlinked, List.mem_append, List.mem_singleton, h.gone, hlength,
      h.linked.nodup.mem_erase_iff]
    by_cases hj : j = i
    · exact iff_of_true (.inr hj) ⟨fun hmem => hmem.1 hj, hj ▸ client_lt hi⟩
    · simp [hj]
  · exact hunl.panicked.trans h.calm

/-- A client takes a name, and who had it before has none. -/
theorem Inv.rename (h : Inv w order) {c : Client} (hi : w.client i = some c) (hc : c.login = none)
    {name : String} {w' : Registry} (hclients : w'.clients = w.clients)
    (hlogins : w'.logins = Function.update w.logins name (some i))
    (hch : Changed { w with logins := w'.logins } (fun j d =>
      ⟨if j = i then some name else if w.logins name = some j then none else d.login,
        d.next, d.prev⟩) w') :
    Inv w' order := by
  have halive (j : ℕ) : (w'.client j).isSome = (w.client j).isSome := by
    rw [hch.client, Option.isSome_map]
    rfl
  refine ⟨⟨h.linked.congr hclients fun j _ => ?_, fun j => ?_⟩, fun name' j => ?_, ?_, ?_, ?_⟩
  · rw [links_next, links_prev, hch.client]
    cases hj : w.client j <;> simp [hj]
  · rw [halive, h.alive]
  · have hlogin : (w'.client j).bind Client.login =
        if j = i then some name
        else if w.logins name = some j then none else (w.client j).bind Client.login := by
      rw [hch.client]
      by_cases hj : j = i
      · simp [hj, hi]
      · cases hd : w.client j <;> simp [hj, hd]
    rw [hlogin, hlogins, Function.update_apply]
    by_cases hname : name' = name
    · rw [if_pos hname, hname]
      by_cases hj : j = i
      · simp [hj]
      · have hne : some i ≠ some j := fun heq => hj (Option.some.inj heq).symm
        rw [if_neg hj]
        split_ifs with hold
        · simp [hne]
        · rw [← h.named]
          exact iff_of_false hne hold
    · rw [if_neg hname, h.named]
      by_cases hj : j = i
      · simp [hj, hi, hc, Ne.symm hname]
      · rw [if_neg hj]
        split_ifs with hold
        · rw [(h.named name j).mp hold]
          simp [Ne.symm hname]
        · rfl
  · rw [hch.unlinked]
    exact h.once
  · rw [hch.unlinked, hch.length]
    exact h.gone
  · exact hch.panicked.trans h.calm

theorem login_evict {name : String} {old : ℕ} {c : Client} {w' : Registry}
    (hname : w.logins name = some old) (hold : w.client old = some c)
    (hrun : (modify { w with logins := Function.update w.logins name (some i) } old
      fun c => { c with login := none }).disconnectByServer old = some w') :
    w.login name i = some (w'.release old) := by
  rw [login, hname]
  simp only [client_logins, hold, hrun]
  rfl

/-- Who logs in has the name then, and who had it is no longer listed. -/
theorem Inv.onLoginPacket (h : Inv w order) {c : Client} (hi : w.client i = some c)
    (hc : c.login = none) (name : String) : ∃ w', w.onLoginPacket i name = some w' ∧
      Inv w' (order.filter fun j => w.logins name ≠ some j) ∧
      w'.logins = Function.update w.logins name (some i) ∧
      w'.allocated.length = w.allocated.length := by
  have hset := changed_modify w i fun c => { c with login := some name }
  cases hname : w.logins name with
  | none =>
    refine ⟨{ w.modify i fun c => { c with login := some name } with
      logins := Function.update w.logins name (some i) }, ?_, ?_, rfl, hset.length⟩
    · rw [Registry.onLoginPacket, login, show (w.modify i _).logins name = none from hname]
      rfl
    · rw [List.filter_eq_self.mpr (by simp)]
      refine h.rename hi hc rfl rfl ⟨fun j => ?_, rfl, rfl, rfl, hset.length⟩
      rw [client_logins, client_logins, hset.client, hname]
      congr 1
      funext d
      by_cases hj : j = i <;> simp [hj]
  | some old =>
    -- the client that had the name is evicted
    obtain ⟨d, hd, hdname⟩ := Option.bind_eq_some_iff.mp ((h.named name old).mp hname)
    have hne : old ≠ i := by
      rintro rfl
      simp_all
    obtain ⟨w₀, hw₀⟩ : ∃ w₀, w₀ = { w.modify i fun c => { c with login := some name } with
      logins := Function.update w.logins name (some i) } := ⟨_, rfl⟩
    have hclient₀ (j : ℕ) : w₀.client j =
        (w.client j).map fun c => if j = i then { c with login := some name } else c := by
      rw [hw₀, client_logins, hset.client]
    have hlogins₀ : w₀.logins = Function.update w.logins name (some i) := by rw [hw₀]
    have hunset := changed_modify w₀ old fun c => { c with login := none }
    have hinv : Inv (w₀.modify old fun c => { c with login := none }) order := by
      refine h.rename hi hc (by rw [hw₀]; rfl) (hunset.logins.trans hlogins₀) ⟨fun j => ?_, rfl,
        by rw [hw₀]; rfl, by rw [hw₀]; rfl, by rw [hunset.length, hw₀]; exact hset.length⟩
      rw [hunset.client, hclient₀, client_logins, hname, Option.map_map]
      congr 1
      funext d
      by_cases hj : j = i
      · simp [hj, Ne.symm hne]
      · by_cases hold : j = old
        · simp [hold, hne]
        · simp [hj, hold, Ne.symm hold]
    obtain ⟨w', hrun, hinv', hlogins, hlength⟩ :=
      hinv.disconnect (i := old) (c := ⟨none, d.next, d.prev⟩) (by simp [hclient₀, hd, hne])
    have hstay : order.filter (fun j => some old ≠ some j) = order.erase old := by
      rw [h.linked.nodup.erase_eq_filter]
      refine List.filter_congr fun j _ => ?_
      by_cases hj : j = old <;> simp [hj, Ne.symm]
    rw [hstay]
    refine ⟨w'.release old, ?_, hinv', funext fun name' => ?_, ?_⟩
    · subst hw₀
      exact login_evict (c := d) hname (by simp [hd, hne]) hrun
    · rw [hlogins, hunset.logins, hlogins₀]
      simp
    · rw [hlength, hunset.length, hw₀]
      exact hset.length

theorem start_inv : Inv start [] :=
  ⟨⟨Links.linked_nil _ _, fun i => by simp [start, client]⟩, fun name i => by simp [start, client],
    List.nodup_nil, fun i => by simp [start], rfl⟩

theorem Inv.lookUp (h : Inv w order) (name : String) : w.lookUp name = some w := by
  unfold Registry.lookUp
  cases hname : w.logins name with
  | none => rfl
  | some i =>
    obtain ⟨c, hc, -⟩ := Option.bind_eq_some_iff.mp ((h.named name i).mp hname)
    simp [hc]

/-- The list is that of the sessions, each under its name. -/
structure Follows (w : Registry) (s : Sessions) : Prop extends Inv w s.order where
  total : s.total = w.allocated.length
  login : ∀ c ∈ s.connected, (w.client c.1).bind Client.login = c.2

theorem Follows.accept {s : Sessions} (h : Follows w s) : Follows w.accept (s.next .connect) := by
  obtain ⟨hlogins, -, -, hlength⟩ := accept_spec w
  have hinv := h.toInv.accept
  rw [← h.total] at hinv hlength
  refine ⟨hinv, hlength.symm, fun c hc => ?_⟩
  rw [h.toInv.login_eq hinv fun name => by rw [hlogins]]
  rcases List.mem_cons.mp hc with rfl | hc
  · rw [h.total]
    simp [client]
  · exact h.login c hc

theorem Follows.logIn {s : Sessions} (h : Follows w s) {c : Client} (hi : w.client i = some c)
    (hc : c.login = none) (name : String) :
    ∃ w', w.onLoginPacket i name = some w' ∧ Follows w' (s.next (.logIn i name)) := by
  obtain ⟨w', hrun, hinv, hlogins, hlength⟩ := h.toInv.onLoginPacket hi hc name
  have hevicted (d : ℕ × Option String) (hd : d ∈ s.connected) :
      w.logins name = some d.1 ↔ d.2 = some name := by
    rw [h.named, h.login d hd]
  have horder : (s.next (.logIn i name)).order =
      s.order.filter fun j => w.logins name ≠ some j := by
    unfold Sessions.order Sessions.next
    rw [List.map_map, List.filter_map]
    have hfst : Prod.fst ∘ (fun d : ℕ × Option String => if d.1 = i then (i, some name) else d) =
        Prod.fst := by
      funext d
      by_cases hd : d.1 = i <;> simp [hd]
    rw [hfst]
    refine congrArg _ (List.filter_congr fun d hd => ?_)
    simp [hevicted d hd]
  refine ⟨w', hrun, horder ▸ hinv, h.total.trans hlength.symm, fun d hd => ?_⟩
  obtain ⟨d', hd', rfl⟩ := List.mem_map.mp hd
  obtain ⟨hmem, hkept⟩ := List.mem_filter.mp hd'
  have hold : w.logins name ≠ some d'.1 := fun heq => by
    simp [(hevicted d' hmem).mp heq] at hkept
  split_ifs with hd
  · exact (hinv.named name i).mp (by rw [hlogins, Function.update_self])
  · rw [h.toInv.login_eq hinv fun name' => ?_]
    · exact h.login d' hmem
    rw [hlogins, Function.update_apply]
    split_ifs with hname
    · rw [hname]
      exact iff_of_false (by simpa using Ne.symm hd) hold
    · rfl

theorem Follows.disconnect {s : Sessions} (h : Follows w s) {c : Client}
    (hi : w.client i = some c) :
    ∃ w', w.disconnect i = some w' ∧ Follows w' (s.next (.disconnect i)) := by
  obtain ⟨w', hrun, hinv, hlogins, hlength⟩ := h.toInv.disconnect hi
  have horder : (s.next (.disconnect i)).order = s.order.erase i := by
    rw [h.linked.nodup.erase_eq_filter, Sessions.order, Sessions.order, List.filter_map]
    exact congrArg _ (List.filter_congr fun d _ => by simp [bne, beq_eq_decide])
  refine ⟨w'.release i, by simp [Registry.disconnect, hrun], horder ▸ hinv,
    h.total.trans hlength.symm, fun d hd => ?_⟩
  obtain ⟨hmem, hne⟩ := List.mem_filter.mp hd
  have hne : d.1 ≠ i := by simpa using hne
  rw [h.toInv.login_eq hinv fun name => ?_]
  · exact h.login d hmem
  rw [hlogins]
  split_ifs with hc
  · have hname : w.logins name = some i := (h.named name i).mpr (by simpa [hi] using hc)
    simp [hname, hne.symm]
  · rfl

theorem Follows.step {s : Sessions} (h : Follows w s) (e : Event) (he : enabled w e) :
    ∃ w', w.step e = some w' ∧ Follows w' (s.next e) := by
  cases e with
  | connect => exact ⟨_, rfl, h.accept⟩
  | logIn i name =>
    obtain ⟨c, hi, hc⟩ := he
    exact h.logIn hi hc name
  | disconnect i =>
    obtain ⟨c, hi⟩ := Option.isSome_iff_exists.mp he
    exact h.disconnect hi
  | enqueueRequestGroup name => exact ⟨w, h.toInv.lookUp name, h⟩
  | estimateLoad name => exact ⟨w, h.toInv.lookUp name, h⟩

end

/-- In every run the links stand for the list of the clients that were connected and have neither
disconnected nor been evicted, which are those alive, the names for the clients that have them,
nobody was unlinked twice, nothing panicked, and who logs in next has the name. -/
theorem registry_consistent (es : List Event) (hes : machine.Valid start es) :
    let w := machine.exec start es
    let s := sessions es
    Inv w s.order ∧ s.total = w.allocated.length ∧
      (∀ c ∈ s.connected, (w.client c.1).bind Client.login = c.2) ∧
      (∀ i ∈ s.order, ∀ j ∈ s.order, w.links.prev j = some i ↔ w.links.next i = some j) ∧
      ∀ i name, enabled w (.logIn i name) → (next w (.logIn i name)).logins name = some i := by
  have hstart : Follows start ⟨0, []⟩ := ⟨start_inv, rfl, by simp⟩
  have h : Follows (machine.exec start es) (sessions es) :=
    machine.related (R := Follows) (fun w s e hw he => by
      obtain ⟨w', hstep, h'⟩ := hw.step e he
      simpa [machine, next, hstep] using h') hstart hes
  refine ⟨h.toInv, h.total, h.login, fun i hi j hj => h.linked.prev_eq_some_iff hi hj,
    fun i name he => ?_⟩
  obtain ⟨c, hi, hc⟩ := he
  obtain ⟨w', hrun, -, hlogins, -⟩ := h.toInv.onLoginPacket hi hc name
  simp [next, Registry.step, hrun, hlogins]

/-- Three clients, of which the newest evicts the middle one, before the ends of the list leave, and
a fourth one. -/
def eviction : List Event :=
  [.connect, .connect, .logIn 1 "a", .connect, .logIn 0 "b", .logIn 2 "a", .disconnect 0,
    .enqueueRequestGroup "a", .connect]

theorem registry_consistent_eviction :
    sessions eviction = ⟨4, [(3, none), (2, some "a")]⟩ ∧
      Inv (machine.exec start eviction) [3, 2] ∧
      ((machine.exec start eviction).client 2).bind Client.login = some "a" ∧
      (machine.exec start eviction).unlinked = [1, 0] := by
  obtain ⟨hinv, -, hlogin, -⟩ := registry_consistent eviction (by decide +kernel)
  exact ⟨rfl, hinv, hlogin (2, some "a") (by decide), by decide +kernel⟩

end Registry
end OCRemote
