import OCRemote.Codec.LuaValue
import OCRemote.Lib.Machine

/-! The server's side of its connections (`server.rs`, `action.rs`) as a transition system. Groups
of requests wait in `request_queue` until the writer sends them, then the requests wait in
`response_queue`, and a packet answers the first of them. A client that is disconnected fails what
it has not answered. -/

namespace OCRemote
namespace Server
variable {ν ρ : Type}

/-- An action that is asked for once, with a number for it. -/
structure ActionState (ν ρ : Type) where
  id : ℕ
  action : Option (Value ν)
  parseResponse : Value ν → Except String ρ

/-- What will be sent, as long as it has not been built. -/
def ActionState.request (x : ActionState ν ρ) : Option (ℕ × Value ν) := x.action.map (x.id, ·)

/-- No value means that `unwrap` failed. -/
def ActionState.buildRequest (x : ActionState ν ρ) : Option (Value ν × ActionState ν ρ) :=
  x.action.map fun request => (request, { x with action := none })

/-- How `ActionState::result` was set. -/
inductive Completion (ν ρ : Type) where
  | onResponse (packet : Value ν) (result : Except String ρ)
  | onFail (reason : String)

inductive WriterState where
  | notWriting
  /-- There is a task, which has not been polled yet or has begun to write. -/
  | writing (begun : Bool)
  deriving DecidableEq

structure Client (ν ρ : Type) where
  logPrefix : String
  login : Option String
  requestQueue : List (List (ActionState ν ρ))
  requestQueueSize : ℕ
  responseQueue : List (ActionState ν ρ)
  writer : WriterState
  timeout : Bool

namespace Client

def new (addr : String) : Client ν ρ := ⟨addr, none, [], 0, [], .notWriting, false⟩

/-- What `drop` fails. -/
def pending (c : Client ν ρ) : List (ActionState ν ρ) := c.requestQueue.flatten ++ c.responseQueue

def updateTimeout (c : Client ν ρ) (restart : Bool) : Client ν ρ :=
  if c.requestQueueSize = 0 ∧ c.responseQueue = [] then { c with timeout := false }
  else if restart || !c.timeout then { c with timeout := true }
  else c

def enqueueRequestGroup (c : Client ν ρ) (group : List (ActionState ν ρ)) : Client ν ρ :=
  let c' := { c with
    requestQueueSize := c.requestQueueSize + group.length
    requestQueue := c.requestQueue ++ [group] }
  match c.writer with
  | .notWriting => { c'.updateTimeout false with writer := .writing false }
  | .writing _ => c'

/-- `writer_main` from where it is polled to the next write, with the requests that it writes. -/
def writerMain (c : Client ν ρ) : Option (Client ν ρ × List (ℕ × Value ν)) :=
  match c.requestQueue with
  | [] => some ({ c with writer := .notWriting }, [])
  | group :: groups =>
    match group.mapM ActionState.buildRequest with
    | none => none
    | some built =>
      some ({ c with
        requestQueue := groups
        requestQueueSize := c.requestQueueSize - group.length
        responseQueue := c.responseQueue ++ built.map Prod.snd
        writer := .writing true }, built.map fun b => (b.2.id, b.1))

end Client

/-- A connection, with the requests that were enqueued and sent, the packets that came after the
login, and which request each of them went to. -/
structure Connection (ν ρ : Type) where
  client : Option (Client ν ρ)
  accepted : List (ℕ × Value ν)
  sent : List (ℕ × Value ν)
  packets : List (Value ν)
  delivered : List (ℕ × Value ν)

structure World (ν ρ : Type) where
  connections : List (Connection ν ρ)
  logins : String → Option ℕ
  /-- All requests that were ever enqueued, and how some of them were completed. -/
  enqueued : List ℕ
  completions : List (ℕ × Completion ν ρ)
  panicked : Bool

namespace World

def start : World ν ρ := ⟨[], fun _ => none, [], [], false⟩

/-- The client of a connection, unless it was dropped. -/
def client (w : World ν ρ) (i : ℕ) : Option (Client ν ρ) :=
  (w.connections[i]?).bind Connection.client

def modify (w : World ν ρ) (i : ℕ) (f : Connection ν ρ → Connection ν ρ) : World ν ρ :=
  { w with connections := w.connections.modify i f }

def setClient (w : World ν ρ) (i : ℕ) (c : Client ν ρ) : World ν ρ :=
  w.modify i fun k => { k with client := some c }

def failures (requests : List (ActionState ν ρ)) (reason : String) : List (ℕ × Completion ν ρ) :=
  requests.map fun x => (x.id, .onFail reason)

/-- `Client::drop`. -/
def drop (w : World ν ρ) (i : ℕ) : World ν ρ :=
  match w.client i with
  | none => w
  | some c =>
    { w.modify i fun k => { k with client := none } with
      completions := w.completions ++ failures c.pending (c.logPrefix ++ " disconnected") }

/-- `disconnect_by_server`, after which nobody has the client any more. -/
def disconnect (w : World ν ρ) (i : ℕ) : World ν ρ :=
  match (w.client i).bind Client.login with
  | none => w.drop i
  | some login => { w with logins := Function.update w.logins login none }.drop i

/-- `Server::login`, which evicts the client that had the name. -/
def login (w : World ν ρ) (name : String) (i : ℕ) : World ν ρ :=
  let w' := { w with logins := Function.update w.logins name (some i) }
  match w.logins name with
  | none => w'
  | some j =>
    match w.client j with
    | none => { w' with panicked := true }
    | some old => (w'.setClient j { old with login := none }).disconnect j

/-- `Server::enqueue_request_group`. -/
def enqueueRequestGroup (w : World ν ρ) (name : String) (group : List (ActionState ν ρ)) :
    World ν ρ :=
  let w' := { w with enqueued := group.map ActionState.id ++ w.enqueued }
  match w.logins name with
  | none => { w' with completions := w.completions ++ failures group (name ++ " isn't connected") }
  | some i =>
    match w.client i with
    | none => { w' with panicked := true }
    | some c =>
      w'.modify i fun k =>
        { k with
          client := some (c.enqueueRequestGroup group)
          accepted := k.accepted ++ group.filterMap ActionState.request }

/-- `writer_main` is polled. -/
def pollWriter (w : World ν ρ) (i : ℕ) : World ν ρ :=
  match w.client i with
  | none => w
  | some c =>
    match c.writerMain with
    | none => { w with panicked := true }
    | some (c', requests) =>
      w.modify i fun k => { k with client := some c', sent := k.sent ++ requests }

/-- `on_packet`, with the disconnect that follows an error. -/
def onPacket (w : World ν ρ) (i : ℕ) (value : Value ν) : World ν ρ :=
  match w.client i with
  | none => w
  | some c =>
    match c.login, c.responseQueue, value with
    | some _, x :: responseQueue, _ =>
      let w' := { w.modify i fun k =>
          { k with
            client := some (Client.updateTimeout { c with responseQueue := responseQueue } true)
            packets := k.packets ++ [value]
            delivered := k.delivered ++ [(x.id, value)] } with
        completions := w.completions ++ [(x.id, .onResponse value (x.parseResponse value))] }
      if (x.parseResponse value).isOk then w' else w'.disconnect i
    | some _, [], _ => (w.disconnect i).modify i fun k => { k with packets := k.packets ++ [value] }
    | none, _, .S name =>
      (w.setClient i
        { c with login := some name, logPrefix := c.logPrefix ++ "[" ++ name ++ "]" }).login name i
    | none, _, _ => w.disconnect i

end World

inductive Event (ν ρ : Type) where
  | connect (addr : String)
  | enqueue (name : String) (group : List (ActionState ν ρ))
  | poll (i : ℕ)
  | writeError (i : ℕ)
  | packet (i : ℕ) (value : Value ν)
  /-- The reader fails, reads the end, or reads bytes that are no packet. -/
  | readError (i : ℕ)
  | timeout (i : ℕ)
  /-- The server is dropped, and all its clients with it. -/
  | shutdown

def enabled (w : World ν ρ) : Event ν ρ → Prop
  | .connect _ => True
  | .enqueue _ group =>
    (group.map ActionState.id ++ w.enqueued).Nodup ∧ ∀ x ∈ group, x.action.isSome = true
  | .poll i => ∃ c ∈ w.client i, c.writer ≠ .notWriting
  | .writeError i => ∃ c ∈ w.client i, c.writer = .writing true
  | .packet i _ => (w.client i).isSome = true
  | .readError i => (w.client i).isSome = true
  | .timeout i => ∃ c ∈ w.client i, c.timeout = true
  | .shutdown => True

def next (w : World ν ρ) : Event ν ρ → World ν ρ
  | .connect addr => { w with connections := w.connections ++ [⟨some (.new addr), [], [], [], []⟩] }
  | .enqueue name group => w.enqueueRequestGroup name group
  | .poll i => w.pollWriter i
  | .writeError i | .readError i | .timeout i => w.disconnect i
  | .packet i value => w.onPacket i value
  | .shutdown => (List.range w.connections.length).foldl World.drop { w with logins := fun _ => none }

def machine (ν ρ : Type) : Machine (World ν ρ) (Event ν ρ) := ⟨enabled, next⟩

instance (w : World ν ρ) : ∀ e, Decidable (enabled w e)
  | .connect _ | .shutdown => .isTrue trivial
  | .enqueue _ group =>
    inferInstanceAs
      (Decidable ((group.map ActionState.id ++ w.enqueued).Nodup ∧ ∀ x ∈ group, x.action.isSome = true))
  | .poll i => inferInstanceAs (Decidable (∃ c ∈ w.client i, c.writer ≠ .notWriting))
  | .writeError i => inferInstanceAs (Decidable (∃ c ∈ w.client i, c.writer = .writing true))
  | .packet i _ | .readError i => inferInstanceAs (Decidable ((w.client i).isSome = true))
  | .timeout i => inferInstanceAs (Decidable (∃ c ∈ w.client i, c.timeout = true))

instance (w : World ν ρ) (e : Event ν ρ) : Decidable ((machine ν ρ).enabled w e) :=
  inferInstanceAs (Decidable (enabled w e))

end Server
end OCRemote
