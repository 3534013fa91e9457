import OCRemote.Client.Results
import OCRemote.Client.Sequence
import OCRemote.Net.Evolve

/-! A response that the server delivers is the result that the client had for the request of the same
position, whatever happens to the bytes on their way. -/

namespace OCRemote
namespace Network
variable {ν ρ ω : Type} [LinearOrder ν]

/-- From the server to the client: what the client has served are the first requests that were sent,
and as long as it is not closed it can read what is on its way. -/
structure Down (wire : Wire ν) (computer : Client.Computer ν ω) (k : Server.Connection ν ρ)
    (l : Link ν ω) : Prop where
  reading : ∃ groups : List (List (Value ν)), groups.flatten = k.sent.map Prod.snd ∧
    (∀ g ∈ groups, Packet wire g) ∧ (l.peer.closed = false → ∃ seen,
      (Decode.reader wire.number String).Behind Decode.new
        (groups.flatMap (Server.packetBytes wire)) l.toClient seen l.peer.decoder ∧
      l.peer.session.served.map Client.Served.request = seen.flatMap (Client.requests wire))
  asked : l.peer.session.served.map Client.Served.request <+:
    k.sent.map fun r => LuaValue.ofValue r.2
  executed : ∀ x ∈ l.peer.session.served, Client.Executed wire computer l.setup x
  queued : ∀ c, k.client = some c → ∀ group ∈ c.requestQueue,
    Packet wire (group.filterMap Server.ActionState.action)

/-- What the server has made of the values that it read: a name, and packets. -/
def Heard (name : String) (k : Server.Connection ν ρ) (c : Server.Client ν ρ)
    (seen : List (Value ν)) : Prop :=
  (c.login = none ∧ seen = [] ∧ k.packets = []) ∨
    (c.login = some name ∧ seen = .S name :: k.packets)

/-- From the client to the server: results are written in the order of the requests, in some
enumeration, and the packets that the server got are the first of them. -/
structure Up (wire : Wire ν) (k : Server.Connection ν ρ) (l : Link ν ω)
    (written : List (LuaValue ν)) : Prop where
  results : List.Forall₂ (fun x w => LuaValue.Reordered x.result w) l.peer.session.served written
  packets : k.packets <+: written.map LuaValue.lossy
  reading : ∀ c, k.client = some c → ∃ seen,
    (Parser.reader wire.number (Server.PacketError ν)).Behind Parser.new
      ((Client.luaString l.setup.clientName :: written).flatMap (LuaValue.encode wire.number))
      (l.toServer ++ l.peer.session.writeBuffer) seen l.parser ∧
    Heard l.setup.clientName k c seen

structure LinkOk (wire : Wire ν) (computer : Client.Computer ν ω) (k : Server.Connection ν ρ)
    (l : Link ν ω) : Prop where
  down : Down wire computer k l
  up : ∃ written, Up wire k l written

structure Ok (wire : Wire ν) (computer : Client.Computer ν ω) (net : Network ν ρ ω) : Prop where
  server : Server.Inv net.server
  length : net.links.length = net.server.connections.length
  links : ∀ (i : ℕ) k l, net.server.connections[i]? = some k → net.links[i]? = some l →
    LinkOk wire computer k l

variable {wire : Wire ν} {computer : Client.Computer ν ω} {k k' : Server.Connection ν ρ}
variable {l l' : Link ν ω} {net : Network ν ρ ω} {i : ℕ} {written : List (LuaValue ν)}

/-- What may be added to a queue. -/
def Sendable (wire : Wire ν) (group : List (Server.ActionState ν ρ)) : Prop :=
  Packet wire (group.filterMap Server.ActionState.action)

/-! Connections that the server leaves alone. -/

theorem Down.evolves (h : Down wire computer k l) (hk : Server.Evolves (Sendable wire) k k') :
    Down wire computer k' l := by
  refine ⟨?_, ?_, h.executed, fun c' hc' group hgroup => ?_⟩
  · rw [hk.sent]
    exact h.reading
  · rw [hk.sent]
    exact h.asked
  · obtain ⟨c, hc, -, hqueue⟩ := hk.client c' hc'
    rcases hqueue group hgroup with hold | hnew
    · exact h.queued c hc group hold
    · exact hnew

omit [LinearOrder ν] in
theorem Heard.evolves {name : String} {c c' : Server.Client ν ρ} {seen : List (Value ν)}
    (h : Heard name k c seen) (hpackets : k'.packets = k.packets)
    (hlogin : c'.login = c.login) : Heard name k' c' seen := by
  unfold Heard
  rw [hpackets, hlogin]
  exact h

theorem Up.evolves (h : Up wire k l written) (hk : Server.Evolves (Sendable wire) k k') :
    Up wire k' l written := by
  refine ⟨h.results, hk.packets ▸ h.packets, fun c' hc' => ?_⟩
  obtain ⟨c, hc, hlogin, -⟩ := hk.client c' hc'
  obtain ⟨seen, hbehind, hheard⟩ := h.reading c hc
  exact ⟨seen, hbehind, hheard.evolves hk.packets hlogin⟩

theorem LinkOk.evolves (h : LinkOk wire computer k l) (hk : Server.Evolves (Sendable wire) k k') :
    LinkOk wire computer k' l :=
  ⟨h.down.evolves hk, h.up.imp fun _ hup => hup.evolves hk⟩

/-- The other connections evolve. -/
structure QuietBut (wire : Wire ν) (i : ℕ) (w w' : Server.World ν ρ) : Prop where
  length : w'.connections.length = w.connections.length
  evolves : ∀ (j : ℕ) k', j ≠ i → w'.connections[j]? = some k' →
    ∃ k, w.connections[j]? = some k ∧ Server.Evolves (Sendable wire) k k'

theorem QuietBut.trans {w w' w'' : Server.World ν ρ} (h : QuietBut wire i w w')
    (h' : QuietBut wire i w' w'') : QuietBut wire i w w'' := by
  refine ⟨h'.length.trans h.length, fun j k'' hj hk'' => ?_⟩
  obtain ⟨k', hk', hlast⟩ := h'.evolves j k'' hj hk''
  obtain ⟨k, hk, hfirst⟩ := h.evolves j k' hj hk'
  exact ⟨k, hk, hfirst.trans hlast⟩

theorem QuietBut.of_quiet {w w' : Server.World ν ρ} (h : Server.Quiet (Sendable wire) w w') (i : ℕ) :
    QuietBut wire i w w' := ⟨h.length, fun j k' _ => h.evolves j k'⟩

theorem QuietBut.of_modify {w w' : Server.World ν ρ}
    {f : Server.Connection ν ρ → Server.Connection ν ρ}
    (h : Server.Quiet (Sendable wire) (w.modify i f) w') : QuietBut wire i w w' := by
  refine ⟨h.length.trans (List.length_modify ..), fun j k' hj hk' => ?_⟩
  obtain ⟨k, hk, hevolves⟩ := h.evolves j k' hk'
  refine ⟨k, ?_, hevolves⟩
  change (w.connections.modify i f)[j]? = some k at hk
  rw [List.getElem?_modify] at hk
  simpa [Ne.symm hj] using hk

/-- One connection changes, and its link. -/
theorem Ok.update (h : Ok wire computer net) {server : Server.World ν ρ} (hinv : Server.Inv server)
    (hothers : QuietBut wire i net.server server) {f : Link ν ω → Link ν ω}
    (hlink : ∀ k' l, server.connections[i]? = some k' → net.links[i]? = some l →
      LinkOk wire computer k' (f l)) :
    Ok wire computer { net.modifyLink i f with server := server } := by
  refine ⟨hinv, ?_, fun j k' l' hk' hl' => ?_⟩
  · exact (List.length_modify ..).trans (h.length.trans hothers.length.symm)
  · change (net.links.modify i f)[j]? = some l' at hl'
    rw [List.getElem?_modify] at hl'
    by_cases hij : i = j
    · subst hij
      simp only [if_true] at hl'
      obtain ⟨l, hl, rfl⟩ := Option.map_eq_some_iff.mp hl'
      exact hlink k' l hk' hl
    · simp only [if_neg hij, id_map'] at hl'
      obtain ⟨k, hk, hevolves⟩ := hothers.evolves j k' (Ne.symm hij) hk'
      exact (h.links j k l' hk hl').evolves hevolves

theorem Ok.quiet (h : Ok wire computer net) {server : Server.World ν ρ} (hinv : Server.Inv server)
    (hquiet : Server.Quiet (Sendable wire) net.server server) :
    Ok wire computer { net with server := server } := by
  refine ⟨hinv, h.length.trans hquiet.length.symm, fun j k' l hk' hl => ?_⟩
  obtain ⟨k, hk, hevolves⟩ := hquiet.evolves j k' hk'
  exact (h.links j k l hk hl).evolves hevolves

/-- The server notices nothing. -/
theorem Ok.link (h : Ok wire computer net) {f : Link ν ω → Link ν ω}
    (hlink : ∀ k l, net.server.connections[i]? = some k → net.links[i]? = some l →
      LinkOk wire computer k (f l)) : Ok wire computer (net.modifyLink i f) :=
  h.update h.server (.of_quiet (.refl _) i) hlink

/-! The codes of the two directions. -/

/-- A packet as the client decodes it. -/
def packetValue (wire : Wire ν) (values : List (Value ν)) : LuaValue ν :=
  LuaValue.ofValue (.T (vecToTable wire.conv values))

theorem packets_decode (wire : Wire ν) :
    (Decode.reader wire.number String).Decodes Decode.new (Server.packetBytes wire)
      (packetValue wire) (Packet wire) := by
  intro values hvalues
  obtain ⟨hlen, hall⟩ := hvalues
  refine Decode.reader_decodes wire.number (.T (vecToTable wire.conv values)) ⟨?_, ?_⟩
  · exact vecToTable_ordered wire.conv fun v hv => (hall v hv).1
  · exact vecToTable_sendable hlen fun v hv => (hall v hv).2

theorem requests_packetValue {values : List (Value ν)} (h : Packet wire values) :
    Client.requests wire (packetValue wire values) = values.map LuaValue.ofValue :=
  Client.ipairs_vecToTable (h.1.trans wire.exact_le) fun v hv => (h.2 v hv).2.2

theorem flatMap_requests {groups : List (List (Value ν))} (h : ∀ g ∈ groups, Packet wire g) :
    (groups.map (packetValue wire)).flatMap (Client.requests wire) =
      groups.flatten.map LuaValue.ofValue := by
  induction groups with
  | nil => rfl
  | cons g groups ih =>
    obtain ⟨hg, hgroups⟩ := List.forall_mem_cons.mp h
    rw [List.map_cons, List.flatMap_cons, requests_packetValue hg, ih hgroups, List.flatten_cons,
      List.map_append]

/-- Everything that a client has written can be decoded. -/
theorem written_regular (hplain : computer.Plain wire) (hone : 1 ≤ wire.exact)
    (hdown : Down wire computer k l) (hup : Up wire k l written) :
    ∀ w ∈ Client.luaString l.setup.clientName :: written, LuaValue.Regular wire.number w := by
  refine List.forall_mem_cons.mpr ⟨trivial, fun w hw => ?_⟩
  obtain ⟨j, hj, rfl⟩ := List.getElem_of_mem hw
  have hlen := hup.results.length_eq
  have hserved : j < l.peer.session.served.length := hlen ▸ hj
  have hx : l.peer.session.served[j] ∈ l.peer.session.served := List.getElem_mem hserved
  have hordered := hup.results.get hserved hj
  exact LuaValue.Reordered.regular hordered ((hdown.executed _ hx).regular hplain hone)

/-- The next piece decodes, into packets. -/
theorem Down.trace (h : Down wire computer k l) (hopen : l.peer.closed = false) (n : ℕ) :
    ∃ packets decoder,
      (Decode.reader wire.number String).trace l.peer.decoder (l.toClient.take n) =
        ⟨packets, .ok decoder⟩ ∧
      ∀ p ∈ packets, (Client.tableOf p).isSome = true := by
  obtain ⟨groups, -, hgroups, hreading⟩ := h.reading
  obtain ⟨seen, hbehind, -⟩ := hreading hopen
  rw [← List.take_append_drop n l.toClient] at hbehind
  obtain ⟨packets, decoder, htrace, hbehind'⟩ := hbehind.read (packets_decode wire) hgroups
  refine ⟨packets, decoder, htrace, fun p hp => ?_⟩
  have hfirst := hbehind'.prefix_seen (packets_decode wire) hgroups
  obtain ⟨group, -, rfl⟩ := List.mem_map.mp (hfirst.subset (List.mem_append_right seen hp))
  rfl

/-- When nothing is on its way to the client, it has served everything. -/
theorem Down.served_all (h : Down wire computer k l) (hopen : l.peer.closed = false)
    (hnone : l.toClient = []) :
    l.peer.session.served.map Client.Served.request = k.sent.map fun r => LuaValue.ofValue r.2 := by
  obtain ⟨groups, hsent, hgroups, hreading⟩ := h.reading
  obtain ⟨seen, hbehind, hserved⟩ := hreading hopen
  rw [hnone] at hbehind
  rw [hserved, hbehind.seen_all (packets_decode wire) hgroups, flatMap_requests hgroups, hsent,
    List.map_map]
  rfl

/-- When nothing is on its way to the server, it has the name and every result. -/
theorem Up.heard_all (h : Up wire k l written) (hplain : computer.Plain wire) (hone : 1 ≤ wire.exact)
    (hdown : Down wire computer k l) {c : Server.Client ν ρ} (hkc : k.client = some c)
    (hnone : l.toServer = []) (hbuffer : l.peer.session.writeBuffer = []) :
    c.login = some l.setup.clientName ∧ k.packets = written.map LuaValue.lossy := by
  obtain ⟨seen, hbehind, hheard⟩ := h.reading c hkc
  rw [hnone, hbuffer, List.append_nil] at hbehind
  have hseen := hbehind.seen_all (Parser.reader_decodes wire.number)
    (written_regular hplain hone hdown h)
  rw [List.map_cons, Client.luaString_lossy] at hseen
  rcases hheard with ⟨-, hempty, -⟩ | ⟨hlogin, hcons⟩
  · simp [hempty] at hseen
  · exact ⟨hlogin, (List.cons.inj (hcons.symm.trans hseen)).2⟩

/-! The steps of the client. -/

theorem prefix_flatMap {α β : Type} {xs ys : List α} (h : xs <+: ys) (f : α → List β) :
    xs.flatMap f <+: ys.flatMap f := by
  obtain ⟨zs, rfl⟩ := h
  exact ⟨zs.flatMap f, List.flatMap_append.symm⟩

theorem LinkOk.clientRead (h : LinkOk wire computer k l) (hopen : l.peer.closed = false) (n : ℕ) :
    LinkOk wire computer k
      { l with
        toClient := l.toClient.drop n
        peer := l.peer.onRead wire computer l.setup (l.toClient.take n) } := by
  obtain ⟨hdown, written, hup⟩ := h
  obtain ⟨groups, hsent, hgroups, hreading⟩ := hdown.reading
  obtain ⟨seen, hbehind, hserved⟩ := hreading hopen
  rw [← List.take_append_drop n l.toClient] at hbehind
  obtain ⟨new, decoder, htrace, hbehind'⟩ := hbehind.read (packets_decode wire) hgroups
  obtain ⟨done, hdone, ⟨xs, ws, hxs, hexecuted, hws, hserved', hbuffer⟩, hclosed⟩ :=
    @Client.Peer.onRead_of_trace ν ω _ wire computer l.setup _ _ _ _ htrace
  have hasked : (seen ++ new).flatMap (Client.requests wire) <+:
      k.sent.map fun r => LuaValue.ofValue r.2 := by
    have hfirst := prefix_flatMap (hbehind'.prefix_seen (packets_decode wire) hgroups)
      (Client.requests wire)
    rwa [flatMap_requests hgroups, hsent, List.map_map] at hfirst
  refine ⟨⟨⟨groups, hsent, hgroups, fun hopen' => ?_⟩, ?_, ?_, hdown.queued⟩, written ++ ws, ?_⟩
  · obtain ⟨hall, hdecoder⟩ := hclosed hopen'
    refine ⟨seen ++ new, by rwa [hdecoder], ?_⟩
    rw [hserved', List.map_append, hserved, hxs, hall, List.flatMap_append]
  · rw [hserved', List.map_append, hserved, hxs]
    rw [List.flatMap_append] at hasked
    exact ((List.prefix_append_right_inj _).mpr hdone).trans hasked
  · rw [hserved']
    exact List.forall_mem_append.mpr ⟨hdown.executed, hexecuted⟩
  · refine ⟨?_, hup.packets.trans ?_, fun c hc => ?_⟩
    · rw [hserved']
      exact List.rel_append hup.results hws
    · rw [List.map_append]
      exact List.prefix_append ..
    · obtain ⟨seen', hsent', hheard⟩ := hup.reading c hc
      refine ⟨seen', ?_, hheard⟩
      have hmore := hsent'.send (ws.flatMap (LuaValue.encode wire.number))
      rw [← List.flatMap_append, List.cons_append, List.append_assoc] at hmore
      rwa [hbuffer]

theorem LinkOk.clientWrite (h : LinkOk wire computer k l) (n : ℕ) :
    LinkOk wire computer k
      { l with
        toServer := l.toServer ++ l.peer.session.writeBuffer.take n
        peer := l.peer.written n } := by
  obtain ⟨hdown, written, hup⟩ := h
  refine ⟨⟨hdown.reading, hdown.asked, hdown.executed, hdown.queued⟩, written, hup.results,
    hup.packets, fun c hc => ?_⟩
  obtain ⟨seen, hbehind, hheard⟩ := hup.reading c hc
  refine ⟨seen, ?_, hheard⟩
  simpa only [Client.Peer.written, List.append_assoc, List.take_append_drop] using hbehind

theorem LinkOk.clientClose (h : LinkOk wire computer k l) :
    LinkOk wire computer k { l with peer := { l.peer with closed := true } } := by
  obtain ⟨hdown, written, hup⟩ := h
  obtain ⟨groups, hsent, hgroups, -⟩ := hdown.reading
  refine ⟨⟨⟨groups, hsent, hgroups, nofun⟩, hdown.asked, hdown.executed, hdown.queued⟩, written,
    hup.results, hup.packets, hup.reading⟩

theorem LinkOk.environment (h : LinkOk wire computer k l) (machine : ω) :
    LinkOk wire computer k { l with peer.session.env.machine := machine } := by
  obtain ⟨hdown, written, hup⟩ := h
  exact ⟨⟨hdown.reading, hdown.asked, hdown.executed, hdown.queued⟩, written, hup.results,
    hup.packets, hup.reading⟩

/-! The steps of the server. -/

theorem LinkOk.connect (setup : Client.Setup ν) (env : Client.Env ω) (addr : String) :
    LinkOk wire computer (⟨some (.new addr), [], [], [], []⟩ : Server.Connection ν ρ)
      (Link.connect wire setup env) := by
  refine ⟨⟨⟨[], rfl, by simp, fun _ => ⟨[], Reader.behind_start, rfl⟩⟩, List.prefix_rfl, ?_, ?_⟩,
    [], .nil, List.prefix_rfl, fun c hc => ⟨[], ?_, ?_⟩⟩
  · simp [Link.connect, Client.Peer.connect]
  · rintro c hc group hgroup
    obtain rfl := Option.some.inj hc
    simp [Server.Client.new] at hgroup
  · have hstart : (Parser.reader wire.number (Server.PacketError ν)).Behind Parser.new [] [] []
        Parser.new := Reader.behind_start
    have hname := hstart.send (LuaValue.encode wire.number (Client.luaString setup.clientName))
    simpa [Link.connect, Client.Peer.connect] using hname
  · obtain rfl := Option.some.inj hc
    exact .inl ⟨rfl, rfl, rfl⟩

theorem Down.poll (h : Down wire computer k l) {group : List (Server.ActionState ν ρ)}
    {built : List (Value ν × Server.ActionState ν ρ)} {c c' : Server.Client ν ρ}
    (hc : k.client = some c) {groups : List (List (Server.ActionState ν ρ))}
    (hqueue : c.requestQueue = group :: groups) (hqueue' : c'.requestQueue = groups)
    (hbuilt : built.map Prod.fst = group.filterMap Server.ActionState.action) :
    Down wire computer
      { k with
        client := some c'
        sent := k.sent ++ built.map fun b => (b.2.id, b.1) }
      { l with toClient := l.toClient ++ Server.packetBytes wire (built.map Prod.fst) } := by
  obtain ⟨packets, hsent, hpackets, hreading⟩ := h.reading
  have hgroup : Packet wire (built.map Prod.fst) := by
    rw [hbuilt]
    exact h.queued c hc group (by simp [hqueue])
  refine ⟨⟨packets ++ [built.map Prod.fst], ?_, ?_, fun hopen => ?_⟩, ?_, h.executed, ?_⟩
  · rw [List.flatten_append, hsent]
    simp [Function.comp_def]
  · exact List.forall_mem_append.mpr ⟨hpackets, List.forall_mem_singleton.mpr hgroup⟩
  · obtain ⟨seen, hbehind, hserved⟩ := hreading hopen
    refine ⟨seen, ?_, hserved⟩
    rw [List.flatMap_append, List.flatMap_singleton]
    exact hbehind.send _
  · rw [List.map_append]
    exact h.asked.trans (List.prefix_append ..)
  · rintro c₁ hc₁ g hg
    obtain rfl := Option.some.inj hc₁
    exact h.queued c hc g (by rw [hqueue]; exact List.mem_cons_of_mem _ (hqueue' ▸ hg))

theorem Up.poll (h : Up wire k l written) {c c' : Server.Client ν ρ} (hc : k.client = some c)
    (hlogin : c'.login = c.login) (sent : List (ℕ × Value ν)) (bytes : List UInt8) :
    Up wire { k with client := some c', sent := sent } { l with toClient := bytes } written := by
  refine ⟨h.results, h.packets, fun c₁ hc₁ => ?_⟩
  obtain rfl := Option.some.inj hc₁
  obtain ⟨seen, hbehind, hheard⟩ := h.reading c hc
  exact ⟨seen, hbehind, hheard.evolves rfl hlogin⟩

theorem Ok.poll (h : Ok wire computer net) (i : ℕ) : Ok wire computer (net.poll wire i) := by
  unfold Network.poll
  cases hc : net.server.client i with
  | none => exact h
  | some c =>
    obtain ⟨k, hk, hkc⟩ := Server.World.exists_connection hc
    obtain ⟨c', hlogin, hcases⟩ := Server.poll_cases h.server hk hkc
    rcases hcases with ⟨hqueue, hqueue', hpoll⟩ | ⟨group, groups, built, hqueue, hqueue', hrun,
      hbuilt, hpoll⟩
    · -- the writer stops
      have hidle : c.output wire = [] := by rw [Server.Client.output, hqueue]
      have hevolves : Server.Evolves (Sendable wire) k
          { k with client := some c' } := by
        refine ⟨rfl, rfl, fun c₁ hc₁ => ⟨c, hkc, ?_, ?_⟩⟩
        · obtain rfl := Option.some.inj hc₁
          rw [hlogin]
        · obtain rfl := Option.some.inj hc₁
          simp [hqueue']
      refine h.update (h.server.poll i) (hpoll ▸ .of_modify (.refl _)) fun k' l hk' hl => ?_
      rw [hpoll, Server.getElem?_modify_self hk] at hk'
      obtain rfl := Option.some.inj hk'
      rw [hidle, List.append_nil]
      exact (h.links i k l hk hl).evolves hevolves
    · have houtput : c.output wire = Server.packetBytes wire (built.map Prod.fst) := by
        simp only [Server.Client.output, hqueue, hrun]
      refine h.update (h.server.poll i) (hpoll ▸ .of_modify (.refl _)) fun k' l hk' hl => ?_
      rw [hpoll, Server.getElem?_modify_self hk] at hk'
      obtain rfl := Option.some.inj hk'
      obtain ⟨hdown, written, hup⟩ := h.links i k l hk hl
      rw [houtput]
      exact ⟨hdown.poll hkc hqueue hqueue' hbuilt, written, hup.poll hkc hlogin _ _⟩

/-! What the server reads. -/

/-- The server in the middle of a piece: it has made something of the values so far. -/
structure Mid (wire : Wire ν) (computer : Client.Computer ν ω) (l : Link ν ω)
    (written : List (LuaValue ν)) (seen : List (Value ν)) (k : Server.Connection ν ρ) : Prop where
  down : Down wire computer k l
  packets : k.packets <+: written.map LuaValue.lossy
  heard : ∀ c, k.client = some c → Heard l.setup.clientName k c seen

theorem Mid.evolves {seen : List (Value ν)} (h : Mid wire computer l written seen k)
    (hk : Server.Evolves (Sendable wire) k k') : Mid wire computer l written seen k' := by
  refine ⟨h.down.evolves hk, hk.packets ▸ h.packets, fun c' hc' => ?_⟩
  obtain ⟨c, hc, hlogin, -⟩ := hk.client c' hc'
  exact (h.heard c hc).evolves hk.packets hlogin

theorem Down.client (h : Down wire computer k l) {c c' : Server.Client ν ρ} (hc : k.client = some c)
    (hqueue : c'.requestQueue = c.requestQueue) (packets : List (Value ν))
    (delivered : List (ℕ × Value ν)) :
    Down wire computer
      { k with
        client := some c'
        packets := packets
        delivered := delivered } l := by
  refine ⟨h.reading, h.asked, h.executed, fun c₁ hc₁ => ?_⟩
  obtain rfl := Option.some.inj hc₁
  rw [hqueue]
  exact h.queued c hc

/-- The next value that a client has written. Only what the request makes of it can be an error. -/
theorem handle_step {w : Server.World ν ρ} (h : Server.Inv w) {seen : List (Value ν)}
    (hk : w.connections[i]? = some k) (hmid : Mid wire computer l written seen k)
    (hserved : written.length = l.peer.session.served.length)
    (halive : (w.client i).isSome = true) {value : Value ν}
    (hnext : seen ++ [value] <+: .S l.setup.clientName :: written.map LuaValue.lossy) :
    QuietBut wire i w (w.onPacket i value) ∧
    (∃ k', (w.onPacket i value).connections[i]? = some k' ∧
      Mid wire computer l written (seen ++ [value]) k') ∧
    (w.handle i value = .ok (w.onPacket i value) ∧ ((w.onPacket i value).client i).isSome = true ∨
      ∃ e, w.handle i value = .error (.response e, w.onPacket i value) ∧
        (w.onPacket i value).client i = none) := by
  obtain ⟨c, hc⟩ := Option.isSome_iff_exists.mp halive
  have hkc : k.client = some c := (Server.client_of_connection hk).symm.trans hc
  rcases hmid.heard c hkc with ⟨hlogin, rfl, hpackets⟩ | ⟨hlogin, rfl⟩
  · -- the name
    obtain rfl : value = .S l.setup.clientName := by
      obtain ⟨rest, hrest⟩ := hnext
      exact (List.cons.inj hrest).1
    obtain ⟨w', c', hhandle, halive', rfl, hlogin', hqueue, hquiet⟩ :=
      Server.handle_logIn (P := Sendable wire) h hk hkc hlogin l.setup.clientName
    refine ⟨.of_modify hquiet, ?_, .inl ⟨hhandle, halive'⟩⟩
    obtain ⟨k', hk', hevolves⟩ := hquiet.exists_evolved (Server.getElem?_modify_self hk)
    have hnamed : Mid wire computer l written ([] ++ [.S l.setup.clientName])
        { k with client := some c' } := by
      refine ⟨hmid.down.client hkc hqueue _ _, hmid.packets, fun c₁ hc₁ => ?_⟩
      obtain rfl := Option.some.inj hc₁
      exact .inr ⟨hlogin', by simp [hpackets]⟩
    exact ⟨k', hk', hnamed.evolves hevolves⟩
  · -- a response, for which a request waits
    have hfirst : k.packets ++ [value] <+: written.map LuaValue.lossy := by
      obtain ⟨rest, hrest⟩ := hnext
      exact ⟨rest, (List.cons.inj hrest).2⟩
    have hlive := (h.connections k (List.mem_of_getElem? hk)).live c hkc
    have hwait : c.responseQueue ≠ [] := by
      intro hnone
      have hsent := congrArg List.length hlive.waiting
      have hgot := congrArg List.length hlive.packets
      have hle := hfirst.length_le
      have hasked := hmid.down.asked.length_le
      simp only [hnone, List.map_nil, List.append_nil, List.length_map] at hsent
      simp only [List.length_map] at hgot hasked
      simp only [List.length_append, List.length_map, List.length_singleton] at hle
      omega
    obtain ⟨x, rest, hresponse⟩ := List.exists_cons_of_ne_nil hwait
    obtain ⟨c', hlogin', hqueue, hquiet, hresult⟩ :=
      Server.handle_answer (P := Sendable wire) hk hkc (by simp [hlogin]) hresponse value
    refine ⟨.of_modify hquiet, ?_, hresult.imp_right ?_⟩
    · obtain ⟨k', hk', hevolves⟩ := hquiet.exists_evolved (Server.getElem?_modify_self hk)
      have hanswered : Mid wire computer l written (.S l.setup.clientName :: k.packets ++ [value])
          { k with
            client := some c'
            packets := k.packets ++ [value]
            delivered := k.delivered ++ [(x.id, value)] } := by
        refine ⟨hmid.down.client hkc hqueue _ _, hfirst, fun c₁ hc₁ => ?_⟩
        obtain rfl := Option.some.inj hc₁
        exact .inr ⟨hlogin'.trans hlogin, rfl⟩
      exact ⟨k', hk', hanswered.evolves hevolves⟩
    · rintro ⟨e, -, hhandle, hdead⟩
      exact ⟨e, hhandle, hdead⟩

/-- How the values of a piece may be received: all of them, or up to one whose request could not
make anything of it. In between the server only takes steps for packets. -/
structure Received (wire : Wire ν) (computer : Client.Computer ν ω) (i : ℕ) (l : Link ν ω)
    (written : List (LuaValue ν)) (w w' : Server.World ν ρ) (seen : List (Value ν))
    (alive : Bool) : Prop where
  inv : Server.Inv w'
  others : QuietBut wire i w w'
  client : (w'.client i).isSome = alive
  mid : ∃ k', w'.connections[i]? = some k' ∧ Mid wire computer l written seen k'
  run : ∃ values : List (Value ν),
    (Server.machine ν ρ).Valid w (values.map (.packet i)) ∧
    w' = (Server.machine ν ρ).exec w (values.map (.packet i))

theorem handle_values {w : Server.World ν ρ} (h : Server.Inv w) {seen : List (Value ν)}
    (hk : w.connections[i]? = some k) (hmid : Mid wire computer l written seen k)
    (hserved : written.length = l.peer.session.served.length)
    (halive : (w.client i).isSome = true) (new : List (Value ν))
    (hnext : seen ++ new <+: .S l.setup.clientName :: written.map LuaValue.lossy) :
    (∃ w', new.foldlM (fun w v => Server.World.handle i v w) w = .ok w' ∧
      Received wire computer i l written w w' (seen ++ new) true) ∨
    ∃ e w' seen', new.foldlM (fun w v => Server.World.handle i v w) w = .error (.response e, w') ∧
      Received wire computer i l written w w' seen' false := by
  induction new generalizing w k seen with
  | nil =>
    refine .inl ⟨w, rfl, h, .of_quiet (.refl w) i, halive, ⟨k, hk, ?_⟩, [], trivial, rfl⟩
    rwa [List.append_nil]
  | cons value new ih =>
    have hsplit : seen ++ value :: new = seen ++ [value] ++ new := by simp
    rw [hsplit] at hnext ⊢
    obtain ⟨hothers, ⟨k₁, hk₁, hmid₁⟩, hresult⟩ :=
      handle_step h hk hmid hserved halive ((List.prefix_append ..).trans hnext)
    have hinv := h.packet i value
    rw [List.foldlM_cons]
    rcases hresult with ⟨hhandle, halive₁⟩ | ⟨e, hhandle, hdead⟩
    · rw [hhandle]
      rcases ih hinv hk₁ hmid₁ halive₁ hnext with ⟨w', hrun, hreceived⟩ | ⟨e, w', seen', hrun, hreceived⟩
      all_goals obtain ⟨values, hvalid, hexec⟩ := hreceived.run
      · refine .inl ⟨w', hrun, hreceived.inv, hothers.trans hreceived.others, hreceived.client,
          hreceived.mid, value :: values, ⟨halive, hvalid⟩, hexec⟩
      · refine .inr ⟨e, w', seen', hrun, hreceived.inv, hothers.trans hreceived.others,
          hreceived.client, hreceived.mid, value :: values, ⟨halive, hvalid⟩, hexec⟩
    · rw [hhandle]
      refine .inr ⟨e, _, _, rfl, hinv, hothers, by rw [hdead]; rfl, ⟨k₁, hk₁, hmid₁⟩, [value],
        ⟨halive, trivial⟩, rfl⟩

/-- What the server makes of a piece. -/
theorem Ok.shift (h : Ok wire computer net) (hplain : computer.Plain wire) (hone : 1 ≤ wire.exact)
    (halive : (net.server.client i).isSome = true) (hl : net.links[i]? = some l) (n : ℕ) :
    ∃ written, List.Forall₂ (fun x w => LuaValue.Reordered x.result w) l.peer.session.served written ∧
      ((∃ parser server seen,
        Parser.shift wire.number (Server.World.handle i) l.parser (l.toServer.take n) net.server =
          .ok (parser, server) ∧
        Received wire computer i l written net.server server seen true ∧
        (Parser.reader wire.number (Server.PacketError ν)).Behind Parser.new
          ((Client.luaString l.setup.clientName :: written).flatMap (LuaValue.encode wire.number))
          (l.toServer.drop n ++ l.peer.session.writeBuffer) seen parser) ∨
      ∃ e server seen,
        Parser.shift wire.number (Server.World.handle i) l.parser (l.toServer.take n) net.server =
          .error (.handlerError (.response e), server) ∧
        Received wire computer i l written net.server server seen false) := by
  obtain ⟨c, hc⟩ := Option.isSome_iff_exists.mp halive
  obtain ⟨k, hk, hkc⟩ := Server.World.exists_connection hc
  obtain ⟨hdown, written, hup⟩ := h.links i k l hk hl
  obtain ⟨seen, hbehind, hheard⟩ := hup.reading c hkc
  have hregular := written_regular hplain hone hdown hup
  have hdecodes := @Parser.reader_decodes ν (Server.PacketError ν) _ wire.number
  -- the piece and what stays behind it
  rw [← List.take_append_drop n l.toServer, List.append_assoc] at hbehind
  obtain ⟨new, parser, htrace, hbehind'⟩ := hbehind.read hdecodes hregular
  have hnext := hbehind'.prefix_seen hdecodes hregular
  rw [List.map_cons, Client.luaString_lossy] at hnext
  have hmid : Mid wire computer l written seen k := by
    refine ⟨hdown, hup.packets, fun c' hc' => ?_⟩
    obtain rfl := Option.some.inj (hkc.symm.trans hc')
    exact hheard
  have hfeed := (Parser.reader wire.number (Server.PacketError ν)).feed_eq_run
    (Server.World.handle i) l.parser (l.toServer.take n) net.server
  change Parser.shift wire.number (Server.World.handle i) l.parser _ net.server = _ at hfeed
  rw [htrace, Trace.run] at hfeed
  refine ⟨written, hup.results, ?_⟩
  rcases handle_values h.server hk hmid hup.results.length_eq.symm halive new hnext with
    ⟨server, hrun, hreceived⟩ | ⟨e, server, seen', hrun, hreceived⟩
  · left
    simp only [hrun] at hfeed
    exact ⟨parser, server, seen ++ new, hfeed, hreceived, hbehind'⟩
  · right
    simp only [hrun] at hfeed
    exact ⟨e, server, seen', hfeed, hreceived⟩

theorem Ok.serverRead (h : Ok wire computer net) (hplain : computer.Plain wire)
    (hone : 1 ≤ wire.exact) (halive : (net.server.client i).isSome = true) (n : ℕ) :
    Ok wire computer (net.serverRead wire i n) := by
  unfold Network.serverRead
  cases hl : net.links[i]? with
  | none => exact h
  | some l =>
    obtain ⟨written, hresults, ⟨parser, server, seen, hrun, hreceived, hbehind⟩ |
      ⟨e, server, seen, hrun, hreceived⟩⟩ := h.shift hplain hone halive hl n
    · simp only [hrun]
      refine h.update hreceived.inv hreceived.others fun k' l' hk' hl' => ?_
      obtain rfl := Option.some.inj (hl.symm.trans hl')
      obtain ⟨k₁, hk₁, hmid⟩ := hreceived.mid
      obtain rfl := Option.some.inj (hk₁.symm.trans hk')
      obtain ⟨hreading, hasked, hexecuted, hqueued⟩ := hmid.down
      exact ⟨⟨hreading, hasked, hexecuted, hqueued⟩, written, hresults, hmid.packets,
        fun c hc => ⟨seen, hbehind, hmid.heard c hc⟩⟩
    · simp only [hrun]
      have hquiet := @Server.quiet_disconnect ν ρ (Sendable wire) server i
      refine h.update (hreceived.inv.disconnect i) (hreceived.others.trans (.of_quiet hquiet i))
        fun k' l' hk' hl' => ?_
      obtain rfl := Option.some.inj (hl.symm.trans hl')
      obtain ⟨k₁, hk₁, hmid⟩ := hreceived.mid
      obtain ⟨k₂, hk₂, hevolves⟩ := hquiet.exists_evolved hk₁
      obtain rfl := Option.some.inj (hk₂.symm.trans hk')
      obtain ⟨⟨hreading, hasked, hexecuted, hqueued⟩, hpackets, -⟩ := hmid.evolves hevolves
      have hdead : k₂.client = none :=
        (Server.client_of_connection hk₂).symm.trans (Server.client_disconnect server i)
      exact ⟨⟨hreading, hasked, hexecuted, hqueued⟩, written, hresults, hpackets,
        fun c hc => by simp [hdead] at hc⟩

theorem Ok.connect (h : Ok wire computer net) (addr : String) (setup : Client.Setup ν)
    (env : Client.Env ω) : Ok wire computer (net.next wire computer (.connect addr setup env)) := by
  refine ⟨h.server.connect addr, ?_, fun j k l hk hl => ?_⟩
  · change (net.links ++ _).length = (net.server.connections ++ _).length
    rw [List.length_append, List.length_append, h.length]
    rfl
  · change (net.server.connections ++ _)[j]? = some k at hk
    change (net.links ++ _)[j]? = some l at hl
    by_cases hold : j < net.links.length
    · rw [List.getElem?_append_left (h.length ▸ hold)] at hk
      rw [List.getElem?_append_left hold] at hl
      exact h.links j k l hk hl
    · -- the new connection
      have hnew := (List.getElem?_eq_some_iff.mp hl).1
      rw [List.length_append, List.length_singleton] at hnew
      obtain rfl : j = net.links.length := by omega
      rw [h.length, List.getElem?_concat_length] at hk
      rw [List.getElem?_concat_length] at hl
      obtain rfl := Option.some.inj hk
      obtain rfl := Option.some.inj hl
      exact LinkOk.connect setup env addr

theorem Ok.disconnect (h : Ok wire computer net) (i : ℕ) :
    Ok wire computer { net with server := net.server.disconnect i } :=
  h.quiet (h.server.disconnect i) (Server.quiet_disconnect _ i)

theorem Ok.step (hplain : computer.Plain wire) (hone : 1 ≤ wire.exact) {e : Event ν ρ ω}
    (h : Ok wire computer net) (he : (machine wire computer).enabled net e) :
    Ok wire computer ((machine wire computer).next net e) := by
  cases e with
  | connect addr setup env => exact h.connect addr setup env
  | enqueue name group =>
    obtain ⟨⟨hnodup, hready⟩, hpacket⟩ := he
    exact h.quiet (h.server.enqueue hnodup hready name) (Server.quiet_enqueue _ name hpacket)
  | poll i => exact h.poll i
  | serverRead i n => exact h.serverRead hplain hone he.1 n
  | writeError i | readError i | timeout i => exact h.disconnect i
  | shutdown =>
    exact h.quiet (h.server.shutdown _) ((Server.quiet_shutdown _ _).of_left rfl)
  | clientRead i n =>
    obtain ⟨l₁, hl₁, hopen, -⟩ := he
    refine h.link fun k l hk hl => (h.links i k l hk hl).clientRead ?_ n
    obtain rfl := Option.some.inj (hl₁.symm.trans hl)
    exact hopen
  | clientWrite i n => exact h.link fun k l hk hl => (h.links i k l hk hl).clientWrite n
  | clientClose i => exact h.link fun k l hk hl => (h.links i k l hk hl).clientClose
  | environment i w => exact h.link fun k l hk hl => (h.links i k l hk hl).environment w

theorem start_ok : Ok wire computer (start : Network ν ρ ω) :=
  ⟨Server.start_inv, rfl, fun _ _ _ hk => by simp [start, Server.World.start] at hk⟩

/-- Every network that a run leads to. -/
theorem ok_of_valid (hplain : computer.Plain wire) (hone : 1 ≤ wire.exact)
    {es : List (Event ν ρ ω)} (hv : (machine wire computer).Valid start es) :
    Ok wire computer ((machine wire computer).exec start es) :=
  (machine wire computer).invariant (fun _ _ h he => h.step hplain hone he) start_ok hv

end Network
end OCRemote
