import OCRemote.Client.Session
import OCRemote.Server.Client

/-! The server and its clients with the bytes between them. What one side writes, the other reads in
pieces of any size, and either side may give up at any time. -/

namespace OCRemote
variable {ν ρ ω : Type}

namespace Server

/-- The errors of `on_packet`. -/
inductive PacketError (ν : Type) where
  | response (e : String)
  | unexpected (value : Value ν)
  | invalidLogin (value : Value ν)

def World.packetError (w : World ν ρ) (i : ℕ) (value : Value ν) : Option (PacketError ν) :=
  match w.client i with
  | none => none
  | some c =>
    match c.login, c.responseQueue, value with
    | some _, x :: _, value =>
      match x.parseResponse value with
      | .error e => some (.response e)
      | .ok _ => none
    | some _, [], value => some (.unexpected value)
    | none, _, .S _ => none
    | none, _, value => some (.invalidLogin value)

/-- `on_packet` as the handler of the parser. -/
def World.handle (i : ℕ) (value : Value ν) (w : World ν ρ) :
    Except (PacketError ν × World ν ρ) (World ν ρ) :=
  match w.packetError i value with
  | some e => .error (e, w.onPacket i value)
  | none => .ok (w.onPacket i value)

section
variable [LinearOrder ν]

/-- The bytes of one packet of requests. -/
def packetBytes (wire : Wire ν) (values : List (Value ν)) : List UInt8 :=
  Value.serialize wire.number (.T (vecToTable wire.conv values))

/-- What `writer_main` writes when it is polled. -/
def Client.output (wire : Wire ν) (c : Client ν ρ) : List UInt8 :=
  match c.requestQueue with
  | [] => []
  | group :: _ =>
    match group.mapM ActionState.buildRequest with
    | none => []
    | some built => packetBytes wire (built.map Prod.fst)

end
end Server

/-- A connection outside the server: the bytes on their way, the parser that `reader_main` keeps, and
the client. -/
structure Link (ν ω : Type) where
  setup : Client.Setup ν
  toClient : List UInt8
  toServer : List UInt8
  parser : List (State ν)
  peer : Client.Peer ν ω

structure Network (ν ρ ω : Type) where
  server : Server.World ν ρ
  links : List (Link ν ω)

namespace Network

inductive Event (ν ρ ω : Type) where
  | connect (addr : String) (setup : Client.Setup ν) (env : Client.Env ω)
  | enqueue (name : String) (group : List (Server.ActionState ν ρ))
  | poll (i : ℕ)
  /-- The server gets `n` bytes. -/
  | serverRead (i n : ℕ)
  | writeError (i : ℕ)
  | readError (i : ℕ)
  | timeout (i : ℕ)
  | shutdown
  | clientRead (i n : ℕ)
  | clientWrite (i n : ℕ)
  /-- The client fails to read or to write, or is stopped. -/
  | clientClose (i : ℕ)
  /-- The computer of a client changes by itself. -/
  | environment (i : ℕ) (machine : ω)

def start : Network ν ρ ω := ⟨.start, []⟩

def modifyLink (net : Network ν ρ ω) (i : ℕ) (f : Link ν ω → Link ν ω) : Network ν ρ ω :=
  { net with links := net.links.modify i f }

section
variable [LinearOrder ν] (wire : Wire ν) (computer : Client.Computer ν ω)

def Link.connect (setup : Client.Setup ν) (env : Client.Env ω) : Link ν ω where
  setup := setup
  toClient := []
  toServer := []
  parser := Parser.new
  peer := .connect wire setup env

def poll (net : Network ν ρ ω) (i : ℕ) : Network ν ρ ω :=
  match net.server.client i with
  | none => net
  | some c =>
    { net.modifyLink i fun l => { l with toClient := l.toClient ++ c.output wire } with
      server := net.server.pollWriter i }

/-- `reader_main` with what it read. -/
def serverRead (net : Network ν ρ ω) (i n : ℕ) : Network ν ρ ω :=
  match net.links[i]? with
  | none => net
  | some l =>
    match Parser.shift wire.number (Server.World.handle i) l.parser (l.toServer.take n) net.server with
    | .error (_, server) =>
      { net.modifyLink i fun l => { l with toServer := l.toServer.drop n } with
        server := server.disconnect i }
    | .ok (parser, server) =>
      { net.modifyLink i fun l => { l with toServer := l.toServer.drop n, parser := parser } with
        server := server }

def clientRead (net : Network ν ρ ω) (i n : ℕ) : Network ν ρ ω :=
  net.modifyLink i fun l =>
    { l with
      toClient := l.toClient.drop n
      peer := l.peer.onRead wire computer l.setup (l.toClient.take n) }

def clientWrite (net : Network ν ρ ω) (i n : ℕ) : Network ν ρ ω :=
  net.modifyLink i fun l =>
    { l with
      toServer := l.toServer ++ l.peer.session.writeBuffer.take n
      peer := l.peer.written n }

def next (net : Network ν ρ ω) : Event ν ρ ω → Network ν ρ ω
  | .connect addr setup env =>
    ⟨Server.next net.server (.connect addr), net.links ++ [Link.connect wire setup env]⟩
  | .enqueue name group => { net with server := Server.next net.server (.enqueue name group) }
  | .poll i => net.poll wire i
  | .serverRead i n => net.serverRead wire i n
  | .writeError i => { net with server := Server.next net.server (.writeError i) }
  | .readError i => { net with server := Server.next net.server (.readError i) }
  | .timeout i => { net with server := Server.next net.server (.timeout i) }
  | .shutdown => { net with server := Server.next net.server .shutdown }
  | .clientRead i n => net.clientRead wire computer i n
  | .clientWrite i n => net.clientWrite i n
  | .clientClose i => net.modifyLink i fun l => { l with peer := { l.peer with closed := true } }
  | .environment i machine =>
    net.modifyLink i fun l =>
      { l with peer.session.env.machine := machine }

/-- What can be sent in one packet. -/
def Packet (values : List (Value ν)) : Prop :=
  values.length ≤ wire.exact ∧ ∀ v ∈ values, v.Ordered ∧ Value.Sendable wire.number v ∧ v ≠ .N

def enabled (net : Network ν ρ ω) : Event ν ρ ω → Prop
  | .connect _ _ _ => True
  | .enqueue name group =>
    Server.enabled net.server (.enqueue name group) ∧
      Packet wire (group.filterMap Server.ActionState.action)
  | .poll i => Server.enabled net.server (.poll i)
  | .serverRead i n =>
    (net.server.client i).isSome = true ∧ 0 < n ∧ n ≤ 4096 ∧
      ∃ l ∈ net.links[i]?, n ≤ l.toServer.length
  | .writeError i => Server.enabled net.server (.writeError i)
  | .readError i => Server.enabled net.server (.readError i)
  | .timeout i => Server.enabled net.server (.timeout i)
  | .shutdown => True
  | .clientRead i n => ∃ l ∈ net.links[i]?, l.peer.closed = false ∧ n ≤ l.toClient.length
  | .clientWrite i n =>
    ∃ l ∈ net.links[i]?, l.peer.closed = false ∧ n ≤ l.peer.session.writeBuffer.length
  | .clientClose i => ∃ l ∈ net.links[i]?, l.peer.closed = false
  | .environment i _ => ∃ l ∈ net.links[i]?, l.peer.closed = false

def machine : Machine (Network ν ρ ω) (Event ν ρ ω) := ⟨enabled wire, next wire computer⟩

mutual

def decideOrdered : ∀ v : Value ν, Decidable v.Ordered
  | .N | .F _ | .S _ | .B _ => .isTrue trivial
  | .T table =>
    have := decideEntriesOrdered table
    inferInstanceAs (Decidable (OrderedMap.Sorted table ∧ Table.Ordered table))

def decideEntriesOrdered : ∀ table : Table ν, Decidable (Table.Ordered table)
  | [] => .isTrue trivial
  | (_, v) :: table =>
    have := decideOrdered v
    have := decideEntriesOrdered table
    inferInstanceAs (Decidable (v.Ordered ∧ Table.Ordered table))

end

section
variable {number : NumberFormat ν} [DecidablePred number.finite]

def decideKey : ∀ k : Key ν, Decidable (∀ y, k = .F y → number.finite y)
  | .F y => decidable_of_iff (number.finite y) (by simp)
  | .S _ | .B _ => .isTrue nofun

mutual

def decideSendable : ∀ v : Value ν, Decidable (Value.Sendable number v)
  | .N | .S _ | .B _ => .isTrue trivial
  | .F y => inferInstanceAs (Decidable (number.finite y))
  | .T table => decideEntriesSendable table

def decideEntriesSendable : ∀ table : Table ν, Decidable (Value.SendableEntries number table)
  | [] => .isTrue trivial
  | (k, v) :: table =>
    have : Decidable (∀ y, k = .F y → number.finite y) := decideKey k
    have : Decidable (Value.Sendable number v) := decideSendable v
    have : Decidable (Value.SendableEntries number table) := decideEntriesSendable table
    inferInstanceAs (Decidable ((∀ y, k = .F y → number.finite y) ∧
      (Value.Sendable number v ∧ v ≠ .N) ∧ Value.SendableEntries number table))

end

end

instance [DecidablePred wire.number.finite] : DecidablePred (Packet wire) := fun values =>
  have := fun v : Value ν => decideOrdered v
  have : ∀ v, Decidable (Value.Sendable wire.number v) := decideSendable
  inferInstanceAs (Decidable (values.length ≤ wire.exact ∧
    ∀ v ∈ values, v.Ordered ∧ Value.Sendable wire.number v ∧ v ≠ .N))

instance [DecidablePred (Packet wire)] (net : Network ν ρ ω) : ∀ e, Decidable (enabled wire net e)
  | .connect _ _ _ | .shutdown => .isTrue trivial
  | .enqueue name group =>
    inferInstanceAs (Decidable (Server.enabled net.server (.enqueue name group) ∧
      Packet wire (group.filterMap Server.ActionState.action)))
  | .poll i => inferInstanceAs (Decidable (Server.enabled net.server (.poll i)))
  | .serverRead i n =>
    inferInstanceAs (Decidable ((net.server.client i).isSome = true ∧ 0 < n ∧ n ≤ 4096 ∧
      ∃ l ∈ net.links[i]?, n ≤ l.toServer.length))
  | .writeError i => inferInstanceAs (Decidable (Server.enabled net.server (.writeError i)))
  | .readError i => inferInstanceAs (Decidable (Server.enabled net.server (.readError i)))
  | .timeout i => inferInstanceAs (Decidable (Server.enabled net.server (.timeout i)))
  | .clientRead i n =>
    inferInstanceAs
      (Decidable (∃ l ∈ net.links[i]?, l.peer.closed = false ∧ n ≤ l.toClient.length))
  | .clientWrite i n =>
    inferInstanceAs (Decidable
      (∃ l ∈ net.links[i]?, l.peer.closed = false ∧ n ≤ l.peer.session.writeBuffer.length))
  | .clientClose i | .environment i _ =>
    inferInstanceAs (Decidable (∃ l ∈ net.links[i]?, l.peer.closed = false))

instance [DecidablePred (Packet wire)] (net : Network ν ρ ω) (e : Event ν ρ ω) :
    Decidable ((machine wire computer).enabled net e) :=
  inferInstanceAs (Decidable (enabled wire net e))

end
end Network
end OCRemote
