import OCRemote.Net.Answered
import OCRemote.Net.Delivery

/-! What holds of every run of the server with its clients, over any bytes in any pieces. -/

namespace OCRemote
namespace Network
variable {ν ρ ω : Type} [LinearOrder ν] {wire : Wire ν} {computer : Client.Computer ν ω}

/-! The server takes no other steps than it could take with packets. -/

/-- What the server does in a step. A piece of the stream is some packets. -/
def Event.shows : Event ν ρ ω → List (Server.Event ν ρ) → Prop
  | .connect addr _ _, es => es = [.connect addr]
  | .enqueue name group, es => es = [.enqueue name group]
  | .poll i, es => es = [.poll i]
  | .serverRead i _, es => ∃ values : List (Value ν), es = values.map (.packet i)
  | .writeError i, es => es = [.writeError i]
  | .readError i, es => es = [.readError i]
  | .timeout i, es => es = [.timeout i]
  | .shutdown, es => es = [.shutdown]
  | .clientRead _ _, es | .clientWrite _ _, es | .clientClose _, es | .environment _ _, es => es = []

theorem serverRead_server {net : Network ν ρ ω} (h : Ok wire computer net)
    (hplain : computer.Plain wire) (hone : 1 ≤ wire.exact) {i : ℕ}
    (halive : (net.server.client i).isSome = true) (n : ℕ) :
    ∃ values : List (Value ν), (Server.machine ν ρ).Valid net.server (values.map (.packet i)) ∧
      (net.serverRead wire i n).server =
        (Server.machine ν ρ).exec net.server (values.map (.packet i)) := by
  unfold Network.serverRead
  cases hl : net.links[i]? with
  | none => exact ⟨[], trivial, rfl⟩
  | some l =>
    obtain ⟨written, -, ⟨parser, server, seen, hrun, hreceived, -⟩ |
      ⟨e, server, seen, hrun, hreceived⟩⟩ := h.shift hplain hone halive hl n
    all_goals obtain ⟨values, hvalid, hexec⟩ := hreceived.run
    · simp only [hrun]
      exact ⟨values, hvalid, hexec⟩
    · -- the client is gone already
      have hdead : server.client i = none := by simpa using hreceived.client
      have hnothing : server.disconnect i = server := by
        simp [Server.World.disconnect, Server.World.drop, hdead]
      simp only [hrun, hnothing]
      exact ⟨values, hvalid, hexec⟩

theorem poll_server (net : Network ν ρ ω) (i : ℕ) :
    (net.poll wire i).server = net.server.pollWriter i := by
  unfold Network.poll Server.World.pollWriter
  cases net.server.client i <;> rfl

theorem refines (hplain : computer.Plain wire) (hone : 1 ≤ wire.exact) :
    (machine wire computer).Refines (Server.machine ν ρ) Network.server (Ok wire computer)
      Event.shows := by
  intro net e h he
  cases e with
  | connect addr setup env => exact ⟨_, rfl, ⟨trivial, trivial⟩, rfl⟩
  | enqueue name group => exact ⟨_, rfl, ⟨he.1, trivial⟩, rfl⟩
  | poll i => exact ⟨_, rfl, ⟨he, trivial⟩, poll_server net i⟩
  | serverRead i n =>
    obtain ⟨values, hvalid, hexec⟩ := serverRead_server h hplain hone he.1 n
    exact ⟨_, ⟨values, rfl⟩, hvalid, hexec⟩
  | writeError i | readError i | timeout i => exact ⟨_, rfl, ⟨he, trivial⟩, rfl⟩
  | shutdown => exact ⟨_, rfl, ⟨trivial, trivial⟩, rfl⟩
  | clientRead i n | clientWrite i n | clientClose i | environment i w => exact ⟨_, rfl, trivial, rfl⟩

theorem Ok.server_run {net : Network ν ρ ω} (h : Ok wire computer net) (hplain : computer.Plain wire)
    (hone : 1 ≤ wire.exact) {es : List (Event ν ρ ω)} (hv : (machine wire computer).Valid net es) :
    ∃ ess, List.Forall₂ Event.shows es ess ∧
      (Server.machine ν ρ).Valid net.server ess.flatten ∧
      ((machine wire computer).exec net es).server =
        (Server.machine ν ρ).exec net.server ess.flatten :=
  Machine.Refines.run _ (refines hplain hone) (fun _ _ h he => h.step hplain hone he) h hv

/-! One connection, whose client answers a call with a seven. -/

/-- Numbers of one digit. -/
def oneDigit : Wire ℤ where
  number := Parser.digits
  conv := wholes
  exact := 9
  exact_le := by decide
  finite_ofInt n hn := ⟨Int.natCast_nonneg n, by change (n : ℤ) ≤ 9; exact_mod_cast hn⟩

instance : DecidablePred oneDigit.number.finite := fun n =>
  inferInstanceAs (Decidable (0 ≤ n ∧ n ≤ 9))

def sevens : Client.Computer ℤ Unit where
  list _ _ := [Utf8.bytes "chest"]
  invoke _ _ _ w := (.ok [.number 7], w)
  getAllStacks _ _ w := (.ok none, w)
  beep _ w := (.ok (), w)
  pairs _ v := v
  reordered _ v := .refl v

theorem sevens_plain : sevens.Plain oneDigit where
  invoke := by
    intro addr fn args w out w' h
    cases h
    refine ⟨by decide, ?_, by simp⟩
    simp [LuaValue.Regular, oneDigit, Parser.digits]
  getAllStacks := by
    intro addr side w slots w' h s hs
    cases h
    cases hs

def sizeCall : Server.ActionState ℤ String where
  id := 3
  action := some (.T [(.S "args", .T []), (.S "fn", .S "size"), (.S "inv", .S "a"), (.S "op", .S "call")])
  parseResponse
    | .T _ => .ok "counted"
    | _ => .error "no table"

/-- Both directions are cut in the middle of a value. -/
def sizeRun : List (Event ℤ String Unit) :=
  [.connect "1.1.1.1" ⟨"c", .number 1, .number 1, none, none⟩ ⟨[], ()⟩, .clientWrite 0 3,
    .serverRead 0 1, .clientWrite 0 1, .serverRead 0 3, .enqueue "c" [sizeCall], .poll 0,
    .clientRead 0 20, .clientRead 0 30, .clientWrite 0 8, .serverRead 0 8]

/-- The server takes the steps that are its own, and for every piece that it reads it takes some
packets, whatever the pieces are. So it pairs requests and responses. -/
theorem server_refined (hplain : computer.Plain wire) (hone : 1 ≤ wire.exact)
    (es : List (Event ν ρ ω)) (hv : (machine wire computer).Valid start es) :
    Server.Paired ((machine wire computer).exec start es).server ∧
    ∃ ess, List.Forall₂ Event.shows es ess ∧
      (Server.machine ν ρ).Valid .start ess.flatten ∧
      ((machine wire computer).exec start es).server =
        (Server.machine ν ρ).exec .start ess.flatten :=
  ⟨(ok_of_valid hplain hone hv).server.paired, start_ok.server_run hplain hone hv⟩

theorem server_refined_sizeRun :
    Server.Paired ((machine oneDigit sevens).exec start sizeRun).server ∧
    ∃ ess, List.Forall₂ Event.shows sizeRun ess ∧
      (Server.machine ℤ String).Valid .start ess.flatten ∧
      ((machine oneDigit sevens).exec start sizeRun).server =
        (Server.machine ℤ String).exec .start ess.flatten :=
  server_refined sevens_plain (by decide) sizeRun (by decide +kernel)

/-! A packet is the result of its own request. -/

/-- The packet is what the client of this connection had for the request of this position. -/
def Answers (wire : Wire ν) (computer : Client.Computer ν ω) (k : Server.Connection ν ρ)
    (l : Link ν ω) (j id : ℕ) (packet : Value ν) : Prop :=
  ∃ request x w, k.sent[j]? = some (id, request) ∧ l.peer.session.served[j]? = some x ∧
    x.request = LuaValue.ofValue request ∧ Client.Executed wire computer l.setup x ∧
    LuaValue.Reordered x.result w ∧ packet = w.lossy

theorem answers_of_delivered {net : Network ν ρ ω} (h : Ok wire computer net) {i : ℕ}
    {k : Server.Connection ν ρ} {l : Link ν ω} (hk : net.server.connections[i]? = some k)
    (hl : net.links[i]? = some l) {j id : ℕ} {packet : Value ν}
    (hj : k.delivered[j]? = some (id, packet)) : Answers wire computer k l j id packet := by
  obtain ⟨hdown, written, hup⟩ := h.links i k l hk hl
  rw [(h.server.connections k (List.mem_of_getElem? hk)).paired, List.getElem?_zip_eq_some] at hj
  obtain ⟨hid, hpacket⟩ := hj
  -- the result at this position was written, so a request at this position was served
  have hwritten : (written.map LuaValue.lossy)[j]? = some packet := by
    obtain ⟨rest, hrest⟩ := hup.packets
    rw [← hrest, List.getElem?_append_left (List.getElem?_eq_some_iff.mp hpacket).1, hpacket]
  rw [List.getElem?_map] at hid hwritten
  obtain ⟨w, hw, rfl⟩ := Option.map_eq_some_iff.mp hwritten
  obtain ⟨⟨id', request⟩, hrequest, rfl⟩ := Option.map_eq_some_iff.mp hid
  obtain ⟨hlt, rfl⟩ := List.getElem?_eq_some_iff.mp hw
  have hlt' : j < l.peer.session.served.length := hup.results.length_eq ▸ hlt
  have hx : l.peer.session.served[j] ∈ l.peer.session.served := List.getElem_mem hlt'
  refine ⟨request, l.peer.session.served[j], written[j], hrequest, List.getElem?_eq_getElem hlt', ?_,
    hdown.executed _ hx, hup.results.get hlt' hlt, rfl⟩
  -- and the requests that were served are the first ones that were sent
  obtain ⟨rest, hrest⟩ := hdown.asked
  have hasked := congrArg (fun rs => rs[j]?) hrest
  simp only [List.getElem?_map, hrequest, Option.map_some] at hasked
  rw [List.getElem?_append_left (by simpa using hlt'), List.getElem?_map,
    List.getElem?_eq_getElem hlt'] at hasked
  exact Option.some.inj hasked

theorem Ok.answers {net : Network ν ρ ω} (h : Ok wire computer net)
    (hanswered : Server.Answered net.server) {id : ℕ} {packet : Value ν} {result : Except String ρ}
    (hmem : (id, .onResponse packet result) ∈ net.server.completions) :
    ∃ (i : ℕ) (k : Server.Connection ν ρ) (l : Link ν ω) (j : ℕ),
      net.server.connections[i]? = some k ∧ net.links[i]? = some l ∧
      Answers wire computer k l j id packet := by
  obtain ⟨k, hk, hp⟩ := hanswered id packet result hmem
  obtain ⟨i, hi, rfl⟩ := List.getElem_of_mem hk
  obtain ⟨j, hj, hp⟩ := List.getElem_of_mem hp
  have hl := List.getElem?_eq_getElem (h.length ▸ hi)
  have hget := List.getElem?_eq_getElem hi
  refine ⟨i, _, _, j, hget, hl, answers_of_delivered h hget hl ?_⟩
  rw [List.getElem?_eq_getElem hj, hp]

theorem answered_of_valid (hplain : computer.Plain wire) (hone : 1 ≤ wire.exact)
    {es : List (Event ν ρ ω)} (hv : (machine wire computer).Valid start es) :
    Server.Answered ((machine wire computer).exec start es).server := by
  obtain ⟨ess, -, hv', hserver⟩ := start_ok.server_run hplain hone hv
  rw [hserver]
  exact Server.answered_of_valid hv'

/-- What the server hands to a request is what a client had for this very request. -/
theorem responses_executed (hplain : computer.Plain wire) (hone : 1 ≤ wire.exact)
    (es : List (Event ν ρ ω)) (hv : (machine wire computer).Valid start es) (id : ℕ)
    (packet : Value ν) (result : Except String ρ)
    (hmem : (id, .onResponse packet result) ∈
      ((machine wire computer).exec start es).server.completions) :
    ∃ (i : ℕ) (k : Server.Connection ν ρ) (l : Link ν ω) (j : ℕ),
      ((machine wire computer).exec start es).server.connections[i]? = some k ∧
      ((machine wire computer).exec start es).links[i]? = some l ∧
      Answers wire computer k l j id packet :=
  (ok_of_valid hplain hone hv).answers (answered_of_valid hplain hone hv) hmem

deriving instance DecidableEq for Server.Completion

theorem responses_executed_sizeRun :
    ∃ (i : ℕ) (k : Server.Connection ℤ String) (l : Link ℤ Unit) (j : ℕ),
      ((machine oneDigit sevens).exec start sizeRun).server.connections[i]? = some k ∧
      ((machine oneDigit sevens).exec start sizeRun).links[i]? = some l ∧
      Answers oneDigit sevens k l j 3 (.T [(.F 1, .F 7)]) :=
  responses_executed sevens_plain (by decide) sizeRun (by decide +kernel) 3 _ (.ok "counted")
    (by decide +kernel)

/-! Neither side ever refuses what the other has sent. -/

/-- The parser of the server never stops at what a client wrote, and every packet is expected: an
error can only come from the request that did not like its own response. The decoder of a client
never stops at what the server wrote: an error can only come from serving a request. -/
theorem streams_accepted (hplain : computer.Plain wire) (hone : 1 ≤ wire.exact)
    (es : List (Event ν ρ ω)) (hv : (machine wire computer).Valid start es) (i n : ℕ) (l : Link ν ω)
    (hl : ((machine wire computer).exec start es).links[i]? = some l) :
    ((((machine wire computer).exec start es).server.client i).isSome = true →
      ∀ e w, Parser.shift wire.number (Server.World.handle i) l.parser (l.toServer.take n)
        ((machine wire computer).exec start es).server = .error (e, w) →
        ∃ text, e = .handlerError (.response text)) ∧
    (l.peer.closed = false →
      ∀ e s, Decode.feed wire.number (Client.onPacket wire computer l.setup) l.peer.decoder
        (l.toClient.take n) l.peer.session = .error (e, s) →
        ∃ text p s', e = .cbError text ∧
          Client.serve wire computer l.setup p s' = .error (text, s)) := by
  have h := ok_of_valid hplain hone hv
  generalize (machine wire computer).exec start es = net at h hl ⊢
  constructor
  · intro halive e w herror
    obtain ⟨written, -, ⟨parser, server, seen, hrun, -, -⟩ | ⟨text, server, seen, hrun, -⟩⟩ :=
      h.shift hplain hone halive hl n
    · rw [hrun] at herror
      contradiction
    · rw [hrun] at herror
      exact ⟨text, (Prod.mk.inj (Except.error.inj herror)).1.symm⟩
  · intro hopen e s herror
    have hlt : i < net.server.connections.length := h.length ▸ (List.getElem?_eq_some_iff.mp hl).1
    obtain ⟨hdown, -⟩ := h.links i _ l (List.getElem?_eq_getElem hlt) hl
    obtain ⟨packets, decoder, htrace, htables⟩ := hdown.trace hopen n
    exact Client.feed_error_of_trace htrace htables herror

theorem streams_accepted_sizeRun :
    ∃ l, ((machine oneDigit sevens).exec start (sizeRun.take 10)).links[0]? = some l ∧
      l.toServer.length = 8 ∧
      ∀ e w, Parser.shift oneDigit.number (Server.World.handle 0) l.parser (l.toServer.take 5)
        ((machine oneDigit sevens).exec start (sizeRun.take 10)).server = .error (e, w) →
        ∃ text, e = .handlerError (.response text) := by
  have hsome : ((machine oneDigit sevens).exec start (sizeRun.take 10)).links[0]?.isSome = true := by
    decide +kernel
  refine ⟨Option.get _ hsome, (Option.some_get hsome).symm, by decide +kernel +revert, ?_⟩
  exact (streams_accepted sevens_plain (by decide) (sizeRun.take 10) (by decide +kernel) 0 5 _
    (Option.some_get hsome).symm).1 (by decide +kernel)

/-! Nothing is lost. -/

theorem Ok.drained {net : Network ν ρ ω} (h : Ok wire computer net) (hplain : computer.Plain wire)
    (hone : 1 ≤ wire.exact) {i : ℕ} {k : Server.Connection ν ρ} {l : Link ν ω}
    {c : Server.Client ν ρ} (hk : net.server.connections[i]? = some k) (hl : net.links[i]? = some l)
    (hkc : k.client = some c) (hopen : l.peer.closed = false) (hdown : l.toClient = [])
    (hup : l.toServer = []) (hbuffer : l.peer.session.writeBuffer = []) :
    c.login = some l.setup.clientName ∧ c.responseQueue = [] ∧
      k.delivered.map Prod.fst = k.sent.map Prod.fst ∧
      l.peer.session.served.map Client.Served.request = k.sent.map fun r => LuaValue.ofValue r.2 := by
  have hok := h.server.connections k (List.mem_of_getElem? hk)
  obtain ⟨hlink, written, hwritten⟩ := h.links i k l hk hl
  have hserved := hlink.served_all hopen hdown
  obtain ⟨hlogin, hpackets⟩ := hwritten.heard_all hplain hone hlink hkc hup hbuffer
  -- as many packets as requests
  have hlen : k.packets.length = k.sent.length := by
    have hmap := congrArg List.length hserved
    rwa [List.length_map, List.length_map, hwritten.results.length_eq, ← List.length_map LuaValue.lossy,
      ← hpackets] at hmap
  have hanswered : k.delivered.map Prod.fst = k.sent.map Prod.fst := by
    rw [hok.paired, List.map_fst_zip (by rw [List.length_map, hlen])]
  have hwait := (hok.live c hkc).waiting
  rw [hanswered, List.append_right_eq_self, List.map_eq_nil_iff] at hwait
  exact ⟨hlogin, hwait, hanswered, hserved⟩

/-- When nothing is on its way, everything that was sent is answered. -/
theorem drained_answered (hplain : computer.Plain wire) (hone : 1 ≤ wire.exact)
    (es : List (Event ν ρ ω)) (hv : (machine wire computer).Valid start es) (i : ℕ)
    (k : Server.Connection ν ρ) (l : Link ν ω) (c : Server.Client ν ρ)
    (hk : ((machine wire computer).exec start es).server.connections[i]? = some k)
    (hl : ((machine wire computer).exec start es).links[i]? = some l)
    (hkc : k.client = some c) (hopen : l.peer.closed = false) (hdown : l.toClient = [])
    (hup : l.toServer = []) (hbuffer : l.peer.session.writeBuffer = []) :
    c.login = some l.setup.clientName ∧ c.responseQueue = [] ∧
      k.delivered.map Prod.fst = k.sent.map Prod.fst ∧
      l.peer.session.served.map Client.Served.request = k.sent.map fun r => LuaValue.ofValue r.2 :=
  (ok_of_valid hplain hone hv).drained hplain hone hk hl hkc hopen hdown hup hbuffer

theorem drained_answered_sizeRun :
    ∃ k l, ((machine oneDigit sevens).exec start sizeRun).server.connections[0]? = some k ∧
      ((machine oneDigit sevens).exec start sizeRun).links[0]? = some l ∧
      k.sent.map Prod.fst = [3] ∧ k.delivered.map Prod.fst = k.sent.map Prod.fst := by
  have hk : ((machine oneDigit sevens).exec start sizeRun).server.connections[0]?.isSome = true := by
    decide +kernel
  have hl : ((machine oneDigit sevens).exec start sizeRun).links[0]?.isSome = true := by
    decide +kernel
  have hsent : (Option.get _ hk).sent.map Prod.fst = [3] := by decide +kernel +revert
  have hc : (Option.get _ hk).client.isSome = true := by decide +kernel +revert
  have h := drained_answered sevens_plain (by decide) sizeRun (by decide +kernel) 0 _ _ _
    (Option.some_get hk).symm (Option.some_get hl).symm (Option.some_get hc).symm
    (by decide +kernel +revert) (by decide +kernel +revert) (by decide +kernel +revert)
    (by decide +kernel +revert)
  exact ⟨_, _, (Option.some_get hk).symm, (Option.some_get hl).symm, hsent, h.2.2.1⟩

end Network
end OCRemote
