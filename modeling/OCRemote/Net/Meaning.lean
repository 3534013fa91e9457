import OCRemote.Client.Responses
import OCRemote.Net.Runs

/-! What an action means: the client performs it with the fields that it has on the server, and its
response is what the client got. -/

namespace OCRemote

namespace Client
variable {ν ω : Type} [LinearOrder ν] (wire : Wire ν) (computer : Computer ν ω) (setup : Setup ν)

/-- One action after another, as the server means them. -/
def performNext (request : Action.Request ν) (s : Session ν ω) :
    Except (String × Session ν ω) (Session ν ω) :=
  match perform wire computer setup request s.env with
  | .error (e, env) => .error (e, { s with env := env })
  | .ok (result, env) =>
    .ok
      { env := env
        writeBuffer :=
          s.writeBuffer ++ LuaValue.encode wire.number (computer.pairs env.machine result)
        served := s.served ++ [⟨LuaValue.ofValue (request.build wire.conv), result, s.env, env⟩] }

/-- A connection goes on, or an error has closed it. -/
def Peer.Reads {E : Type} (peer peer' : Peer ν ω) :
    Except (E × Session ν ω) (Decode.Source ν × Session ν ω) → Prop
  | .error (_, session) => peer'.session = session ∧ peer'.closed = true
  | .ok (decoder, session) => peer' = { peer with decoder := decoder, session := session }

/-- The loop of a connection reads piece by piece, until it is closed. -/
def Peer.readAll (peer : Peer ν ω) (pieces : List (List UInt8)) : Peer ν ω :=
  pieces.foldl
    (fun peer data => if peer.closed then peer else peer.onRead wire computer setup data) peer

variable {wire computer setup}

theorem serve_build {request : Action.Request ν} (h : request.WellFormed) (s : Session ν ω) :
    serve wire computer setup (LuaValue.ofValue (request.build wire.conv)) s =
      performNext wire computer setup request s := by
  cases hrun : perform wire computer setup request s.env <;>
    simp [serve, performNext, dispatch_build h, hrun]

theorem onPacket_build {group : List (Action.Request ν)} (hlen : group.length ≤ wire.exact)
    (h : ∀ r ∈ group, r.Sendable wire) (s : Session ν ω) :
    onPacket wire computer setup
        (Network.packetValue wire (group.map (Action.Request.build wire.conv))) s =
      group.foldlM (fun s r => performNext wire computer setup r s) s := by
  have hvec : ∀ v ∈ group.map (Action.Request.build wire.conv), v ≠ .N := by
    intro v hv
    obtain ⟨r, hr, rfl⟩ := List.mem_map.mp hv
    exact (h r hr).fits.2.2
  have hrequests := @ipairs_vecToTable ν _ wire.conv (group.map (Action.Request.build wire.conv))
    (by rw [List.length_map]; exact hlen.trans wire.exact_le) hvec
  change (ipairs wire.conv (LuaValue.ofEntries _)).foldlM _ s = _
  rw [hrequests]
  clear hrequests hlen hvec
  induction group generalizing s with
  | nil => rfl
  | cons r group ih =>
    obtain ⟨hr, hgroup⟩ := List.forall_mem_cons.mp h
    simp only [List.map_cons, List.foldlM_cons, serve_build hr.wellFormed]
    apply bind_congr
    intro s'
    exact ih hgroup s'

theorem foldlM_flatten {α σ E : Type} (f : σ → α → Except E σ) (groups : List (List α)) (s : σ) :
    groups.flatten.foldlM f s = groups.foldlM (fun s group => group.foldlM f s) s := by
  induction groups generalizing s with
  | nil => rfl
  | cons group groups ih =>
    rw [List.flatten_cons, List.foldlM_append, List.foldlM_cons]
    apply bind_congr
    exact ih

theorem feed_packets {groups : List (List (Action.Request ν))}
    (hgroups : ∀ g ∈ groups, g.length ≤ wire.exact ∧ ∀ r ∈ g, r.Sendable wire) (s : Session ν ω) :
    Decode.feed wire.number (onPacket wire computer setup) Decode.new
        (groups.flatMap fun g => Server.packetBytes wire (g.map (Action.Request.build wire.conv))) s =
      match groups.flatten.foldlM (fun s r => performNext wire computer setup r s) s with
      | .error (e, s) => .error (.cbError e, s)
      | .ok s => .ok (Decode.new, s) := by
  have hpackets : ∀ values ∈ groups.map (List.map (Action.Request.build wire.conv)),
      Network.Packet wire values := by
    intro values hvalues
    obtain ⟨g, hg, rfl⟩ := List.mem_map.mp hvalues
    obtain ⟨hlen, hall⟩ := hgroups g hg
    refine ⟨by rwa [List.length_map], fun v hv => ?_⟩
    obtain ⟨r, hr, rfl⟩ := List.mem_map.mp hv
    exact (hall r hr).fits
  have htrace := (Network.packets_decode wire).stream hpackets
  rw [List.flatMap_map] at htrace
  have hfeed := (Decode.reader wire.number String).feed_eq_run (onPacket wire computer setup)
    Decode.new (groups.flatMap fun g =>
      Server.packetBytes wire (g.map (Action.Request.build wire.conv))) s
  -- what the decoder hands over is what the server meant
  have hrun : ((groups.map (List.map (Action.Request.build wire.conv))).map
      (Network.packetValue wire)).foldlM (fun s p => onPacket wire computer setup p s) s =
        groups.flatten.foldlM (fun s r => performNext wire computer setup r s) s := by
    rw [foldlM_flatten]
    clear htrace hfeed hpackets
    induction groups generalizing s with
    | nil => rfl
    | cons g groups ih =>
      obtain ⟨⟨hlen, hall⟩, hgroups⟩ := List.forall_mem_cons.mp hgroups
      simp only [List.map_cons, List.foldlM_cons, onPacket_build hlen hall]
      apply bind_congr
      intro s'
      exact ih hgroups s'
  refine hfeed.trans ?_
  rw [htrace, Trace.run, hrun]
  cases groups.flatten.foldlM (fun s r => performNext wire computer setup r s) s <;> rfl

theorem Peer.onRead_reads (peer : Peer ν ω) (data : List UInt8) :
    peer.Reads (peer.onRead wire computer setup data)
      (Decode.feed wire.number (onPacket wire computer setup) peer.decoder data peer.session) := by
  unfold Peer.onRead
  cases Decode.feed wire.number (onPacket wire computer setup) peer.decoder data peer.session with
  | error q => exact ⟨rfl, rfl⟩
  | ok q => rfl

theorem readAll_closed {peer : Peer ν ω} (h : peer.closed = true) (pieces : List (List UInt8)) :
    peer.readAll wire computer setup pieces = peer := by
  induction pieces with
  | nil => rfl
  | cons data pieces ih =>
    rw [Peer.readAll, List.foldl_cons, if_pos h]
    exact ih

/-- How the stream is cut makes no difference, also to how an error ends it. -/
theorem readAll_reads {peer : Peer ν ω} (h : peer.closed = false) (pieces : List (List UInt8)) :
    peer.Reads (peer.readAll wire computer setup pieces)
      (Decode.feed wire.number (onPacket wire computer setup) peer.decoder pieces.flatten
        peer.session) := by
  induction pieces generalizing peer with
  | nil =>
    rw [List.flatten_nil, Decode.feed_nil]
    rfl
  | cons data pieces ih =>
    have hcut : Decode.feed wire.number (onPacket wire computer setup) peer.decoder
        (data ++ pieces.flatten) peer.session =
          (Decode.feed wire.number (onPacket wire computer setup) peer.decoder data peer.session).bind
            fun q => Decode.feed wire.number (onPacket wire computer setup) q.1 pieces.flatten q.2 :=
      (Decode.reader wire.number String).feed_append ..
    have hstep : peer.readAll wire computer setup (data :: pieces) =
        (peer.onRead wire computer setup data).readAll wire computer setup pieces := by
      rw [Peer.readAll, List.foldl_cons, h]
      rfl
    have hread := @Peer.onRead_reads ν ω _ wire computer setup peer data
    rw [hstep, List.flatten_cons, hcut]
    cases hrun : Decode.feed wire.number (onPacket wire computer setup) peer.decoder data
        peer.session with
    | error q =>
      rw [hrun] at hread
      rw [readAll_closed hread.2]
      exact hread
    | ok q =>
      rw [hrun] at hread
      obtain hread : peer.onRead wire computer setup data =
        { peer with decoder := q.1, session := q.2 } := hread
      have hrest := @ih (peer.onRead wire computer setup data) (by rw [hread, h])
      rw [hread] at hrest ⊢
      exact hrest

/-- Whatever the pieces, a client that reads packets performs their actions one after another, up to
the first that fails, and is ready for the next packet. -/
theorem readAll_performs (groups : List (List (Action.Request ν)))
    (hgroups : ∀ g ∈ groups, g.length ≤ wire.exact ∧ ∀ r ∈ g, r.Sendable wire) (peer : Peer ν ω)
    (hopen : peer.closed = false) (hnew : peer.decoder = Decode.new) (pieces : List (List UInt8))
    (hpieces : pieces.flatten =
      groups.flatMap fun g => Server.packetBytes wire (g.map (Action.Request.build wire.conv))) :
    peer.Reads (peer.readAll wire computer setup pieces)
      ((groups.flatten.foldlM (fun s r => performNext wire computer setup r s) peer.session).map
        fun s => (Decode.new, s)) := by
  have hread := @readAll_reads ν ω _ wire computer setup peer hopen pieces
  rw [hpieces, hnew, feed_packets hgroups] at hread
  cases hrun : groups.flatten.foldlM (fun s r => performNext wire computer setup r s)
      peer.session with
  | error q =>
    rw [hrun] at hread
    exact hread
  | ok s =>
    rw [hrun] at hread
    exact hread

/-- A call and a line, cut within the call. -/
def callAndLine : List (Action.Request ℤ) := [.call ⟨"a", "size", []⟩, .print ⟨"hi", 1, none⟩]

theorem callAndLine_sendable : ∀ r ∈ callAndLine, r.Sendable Network.oneDigit := by
  have hcall : (Action.Request.call ⟨"a", "size", []⟩ : Action.Request ℤ).Sendable
      Network.oneDigit := ⟨by decide, nofun, nofun⟩
  have hline : (Action.Request.print ⟨"hi", 1, none⟩ : Action.Request ℤ).Sendable
      Network.oneDigit := by
    refine ⟨by decide, fun x hx => ?_, nofun⟩
    obtain rfl := List.mem_singleton.mp hx
    decide
  simpa [callAndLine] using ⟨hcall, hline⟩

theorem readAll_performs_callAndLine :
    let bytes := Server.packetBytes Network.oneDigit
      (callAndLine.map (Action.Request.build Network.oneDigit.conv))
    let setup : Setup ℤ := ⟨"c", .number 1, .number 1, none, none⟩
    let peer := Peer.connect Network.oneDigit setup (⟨[], ()⟩ : Env Unit)
    peer.Reads
      (peer.readAll Network.oneDigit Network.sevens setup [bytes.take 20, bytes.drop 20])
      ((callAndLine.foldlM
        (fun s r => performNext Network.oneDigit Network.sevens setup r s) peer.session).map
          fun s => (Decode.new, s)) := by
  have hgroups : ∀ g ∈ [callAndLine], g.length ≤ Network.oneDigit.exact ∧
      ∀ r ∈ g, r.Sendable Network.oneDigit := by
    simpa using ⟨by decide, callAndLine_sendable⟩
  exact readAll_performs [callAndLine] hgroups _ rfl rfl _ (by simp)

end Client

/-! Over the network. -/

namespace Network
variable {ν ρ ω : Type} [LinearOrder ν] {wire : Wire ν} {computer : Client.Computer ν ω}

/-- What a client served for an action: the request of the same position as the one that its
connection sent for the action. -/
def Records (net : Network ν ρ ω) (id : ℕ) (request : Value ν) (l : Link ν ω)
    (x : Client.Served ν ω) : Prop :=
  ∃ (i : ℕ) (k : Server.Connection ν ρ) (j : ℕ), net.server.connections[i]? = some k ∧
    net.links[i]? = some l ∧ k.sent[j]? = some (id, request) ∧
    l.peer.session.served[j]? = some x ∧ x.request = LuaValue.ofValue request

/-- The requests that are enqueued are those of actions. -/
def Event.asks (wire : Wire ν) (action : ℕ → Action.Request ν) : Event ν ρ ω → Prop
  | .enqueue _ group => ∀ x ∈ group, x.action = some ((action x.id).build wire.conv)
  | _ => True

omit [LinearOrder ν] in
/-- Only the enqueueing of a group shows as one. -/
theorem enqueue_of_shows {e : Event ν ρ ω} {shown : List (Server.Event ν ρ)} (h : e.shows shown)
    {name : String} {group : List (Server.ActionState ν ρ)} (hmem : .enqueue name group ∈ shown) :
    e = .enqueue name group := by
  cases e with
  | serverRead i n =>
    obtain ⟨values, rfl⟩ := h
    simp at hmem
  | enqueue name' group' =>
    obtain rfl : shown = [.enqueue name' group'] := h
    obtain ⟨rfl, rfl⟩ := Server.Event.enqueue.inj (List.mem_singleton.mp hmem)
    rfl
  | connect addr setup env | poll i | writeError i | readError i | timeout i | shutdown
  | clientRead i n | clientWrite i n | clientClose i | environment i w =>
    obtain rfl := h
    simp at hmem

/-- The requests that connections accept are those of the actions. -/
theorem accepts_of_asks {action : ℕ → Action.Request ν} {es : List (Event ν ρ ω)}
    (hasks : ∀ e ∈ es, e.asks wire action) {ess : List (List (Server.Event ν ρ))}
    (hshows : List.Forall₂ Event.shows es ess) :
    Server.Accepts (fun r => r.2 = (action r.1).build wire.conv)
      ((Server.machine ν ρ).exec .start ess.flatten) := by
  refine Server.accepts_exec (by simp [Server.Accepts, Server.World.start]) fun name group hmem => ?_
  have hevent : Event.enqueue name group ∈ es := by
    clear hasks
    induction hshows with
    | nil => simp at hmem
    | cons hshow _ ih =>
      rcases List.mem_append.mp hmem with hhead | htail
      · exact enqueue_of_shows hshow hhead ▸ List.mem_cons_self
      · exact List.mem_cons_of_mem _ (ih htail)
  intro r hr
  obtain ⟨x, hx, hrequest⟩ := List.mem_filterMap.mp hr
  rw [Server.ActionState.request, hasks _ hevent x hx, Option.map_some] at hrequest
  obtain rfl := Option.some.inj hrequest
  rfl

section
variable (hplain : computer.Plain wire) (hone : 1 ≤ wire.exact) (action : ℕ → Action.Request ν)
variable (haction : ∀ id, (action id).WellFormed) (es : List (Event ν ρ ω))
variable (hv : (machine wire computer).Valid start es) (hasks : ∀ e ∈ es, e.asks wire action)
variable (id : ℕ) (packet : Value ν) (result : Except String ρ)
variable (hmem : (id, .onResponse packet result) ∈
  ((machine wire computer).exec start es).server.completions)
include hplain hone haction hv hasks hmem

theorem performed :
    ∃ l x w, Records ((machine wire computer).exec start es) id ((action id).build wire.conv) l x ∧
      Client.perform wire computer l.setup (action id) x.before = .ok (x.result, x.after) ∧
      LuaValue.Reordered x.result w ∧ packet = w.lossy := by
  have h := ok_of_valid hplain hone hv
  obtain ⟨i, k, l, j, hk, hl, request, x, w, hsent, hserved, hrequest, hrun, hw, hpacket⟩ :=
    h.answers (answered_of_valid hplain hone hv) hmem
  obtain ⟨ess, hshows, -, hserver⟩ := start_ok.server_run hplain hone hv
  have haccepts : Server.Accepts (fun r => r.2 = (action r.1).build wire.conv)
      ((machine wire computer).exec start es).server := by
    rw [hserver]
    exact accepts_of_asks hasks hshows
  -- what was sent had been accepted
  have hconnection := List.mem_of_getElem? hk
  have haccepted :=
    (h.server.connections k hconnection).sent.subset (List.mem_of_getElem? hsent)
  obtain rfl : request = (action id).build wire.conv := haccepts k hconnection _ haccepted
  rw [Client.Executed, hrequest, Client.dispatch_build (haction id)] at hrun
  exact ⟨l, x, w, ⟨i, k, j, hk, hl, hsent, hserved, hrequest⟩, hrun, hw, hpacket⟩

/-- The packet that an action gets is what a client of the run got when it performed this action,
and the action is completed in no other way. -/
theorem actions_performed :
    (∃ l x w, Records ((machine wire computer).exec start es) id ((action id).build wire.conv) l x ∧
      Client.perform wire computer l.setup (action id) x.before = .ok (x.result, x.after) ∧
      LuaValue.Reordered x.result w ∧ packet = w.lossy) ∧
    ∀ c, (id, c) ∈ ((machine wire computer).exec start es).server.completions →
      c = .onResponse packet result := by
  refine ⟨performed hplain hone action haction es hv hasks id packet result hmem, fun c hc => ?_⟩
  have honce := (ok_of_valid hplain hone hv).server.paired.once
  exact congrArg Prod.snd (List.inj_on_of_nodup_map honce hc hmem rfl)

/-- `call_result` gives the first value that the method returned when a client of the run invoked
it, on the component that the address resolved to then. -/
theorem calls_returned (call : Action.CallAction ν) (hcall : action id = .call call) :
    ∃ l x out,
      Records ((machine wire computer).exec start es) id (call.buildRequest wire.conv) l x ∧
      Client.Called computer x.before call.addr (Client.luaString call.func)
        (call.args.map LuaValue.ofValue) out ∧
      ∀ (τ : Type) (tryInto : Value ν → Except (ConvertError ν) τ),
        Client.Returns wire.conv tryInto packet out := by
  obtain ⟨l, x, w, hrecords, hrun, hw, rfl⟩ :=
    performed hplain hone action haction es hv hasks id packet result hmem
  rw [hcall] at hrecords hrun
  obtain ⟨out, hcalled, hvalue⟩ := Client.perform_call hrun
  rw [hvalue] at hw
  refine ⟨l, x, out, hrecords, hcalled, fun τ tryInto => Client.returns_of_pack ?_ hw tryInto⟩
  obtain ⟨inv, env, m, -, hinvoke⟩ := hcalled
  exact ((hplain.invoke inv _ _ _ out m hinvoke).length).trans wire.exact_le

/-- The items of the network that the address resolved to arrive in their order, without those that
have no name or no size. -/
theorem listings_read (addr : String) (hlist : action id = .listME addr) :
    ∃ l x items ws,
      Records ((machine wire computer).exec start es) id (Action.ListME.buildRequest addr) l x ∧
      Client.Listed computer x.before addr items ∧
      List.Forall₂ (fun item w => LuaValue.Reordered (.table item) w)
        (Client.passing wire.conv (Client.ipairs wire.conv items)) ws ∧
      Action.ListME.parseResponse wire.conv packet =
        (ws.map LuaValue.lossy).mapM (ItemStack.parse wire.conv) := by
  obtain ⟨l, x, w, hrecords, hrun, hw, rfl⟩ :=
    performed hplain hone action haction es hv hasks id packet result hmem
  rw [hlist] at hrecords hrun
  obtain ⟨items, hlisted, hvalue⟩ := Client.perform_listME hrun
  have hlen : (Client.ipairs wire.conv items).length ≤ 2 ^ 53 := by
    obtain ⟨out, ⟨inv, env, m, -, hinvoke⟩, hitems⟩ := hlisted
    have hplainOut := hplain.invoke inv _ _ _ out m hinvoke
    have hshort := (Client.tableOf_headD hplainOut hitems).2.trans wire.exact_le
    exact (Client.length_ipairsFrom_le ..).trans hshort
  obtain ⟨ws, hws, hparse⟩ := Client.listME_read hlen hvalue hw
  exact ⟨l, x, items, ws, hrecords, hlisted, hws, hparse⟩

/-- The slots of the inventory that was there when a client of the run looked arrive one for one,
and an absent inventory as one empty slot. -/
theorem inventories_read (addr : String) (side : ℕ) (hlist : action id = .list addr side) :
    ∃ l x slots, Records ((machine wire computer).exec start es) id
        (Action.List.buildRequest wire.conv addr side) l x ∧
      Client.Inspected wire computer x.before addr side slots ∧
      (slots = none → Action.List.parseResponse wire.conv packet = .ok [none]) ∧
      ∀ inventory, slots = some inventory →
        ∃ shown, List.Forall₂ (Client.Shown wire.conv) inventory shown ∧
          Action.List.parseResponse wire.conv packet =
            shown.mapM (Client.readSlot wire.conv) := by
  obtain ⟨l, x, w, hrecords, hrun, hw, rfl⟩ :=
    performed hplain hone action haction es hv hasks id packet result hmem
  rw [hlist] at hrecords hrun
  obtain ⟨slots, hinspected, hvalue⟩ := Client.perform_list hrun
  refine ⟨l, x, slots, hrecords, hinspected, ?_, ?_⟩
  · rintro rfl
    exact Client.list_read_none hvalue hw
  · rintro inventory rfl
    obtain ⟨inv, env, m, -, hcall⟩ := hinspected
    have hshort := (hplain.getAllStacks inv _ _ _ m hcall inventory rfl).1
    exact Client.list_read (hshort.trans wire.exact_le) hvalue hw

end

/-- The call of the run above. -/
def sizeAction : Action.Request ℤ := .call ⟨"a", "size", []⟩

theorem sizeAction_wellFormed : sizeAction.WellFormed :=
  ⟨by decide, by simp [sizeAction, Action.Request.args]⟩

theorem sizeRun_asks : ∀ e ∈ sizeRun, e.asks oneDigit fun _ => sizeAction := by
  simp only [sizeRun, List.forall_mem_cons, Event.asks, true_and]
  exact ⟨⟨rfl, nofun⟩, nofun⟩

theorem actions_performed_sizeRun :
    (∃ l x w, Records ((machine oneDigit sevens).exec start sizeRun) 3
        (sizeAction.build oneDigit.conv) l x ∧
      Client.perform oneDigit sevens l.setup sizeAction x.before = .ok (x.result, x.after) ∧
      LuaValue.Reordered x.result w ∧ .T [(.F 1, .F 7)] = w.lossy) ∧
    ∀ c, (3, c) ∈ ((machine oneDigit sevens).exec start sizeRun).server.completions →
      c = .onResponse (.T [(.F 1, .F 7)]) (.ok "counted") :=
  actions_performed sevens_plain (by decide) (fun _ => sizeAction) (fun _ => sizeAction_wellFormed)
    sizeRun (by decide +kernel) sizeRun_asks 3 _ _ (by decide +kernel)

theorem calls_returned_sizeRun :
    ∃ l x out, Records ((machine oneDigit sevens).exec start sizeRun) 3
        (sizeAction.build oneDigit.conv) l x ∧
      Client.Called sevens x.before "a" (Client.luaString "size") [] out ∧
      ∀ (τ : Type) (tryInto : Value ℤ → Except (ConvertError ℤ) τ),
        Client.Returns oneDigit.conv tryInto (.T [(.F 1, .F 7)]) out :=
  calls_returned sevens_plain (by decide) (fun _ => sizeAction) (fun _ => sizeAction_wellFormed)
    sizeRun (by decide +kernel) sizeRun_asks 3 _ (.ok "counted") (by decide +kernel) _ rfl

/-! A network with a pebble and something without a name, and a chest with a pebble in the second of
three slots. -/

def quarry : Client.Computer ℤ Unit where
  list _ _ := [Utf8.bytes "me"]
  invoke _ _ _ w :=
    let pebble := LuaValue.table (ItemStack.pebble (Utf8.bytes "slate"))
    (.ok [.table [(.number 1, pebble), (.number 2, .table [])]], w)
  getAllStacks _ _ w :=
    (.ok (some [none, some (ItemStack.pebble (Utf8.bytes "slate")), none]), w)
  beep _ w := (.ok (), w)
  pairs _ v := v
  reordered _ v := .refl v

theorem quarry_plain : quarry.Plain oneDigit where
  invoke := by
    intro addr fn args w out w' h
    cases h
    refine ⟨by decide, ?_, ?_⟩
    · have hone : oneDigit.number.finite 1 := by decide
      have htwo : oneDigit.number.finite 2 := by decide
      refine List.forall_mem_singleton.mpr ⟨⟨hone, nofun, nofun⟩, ?_, ?_⟩
      · exact ⟨ItemStack.pebble_regular _, nofun⟩
      · exact ⟨⟨htwo, nofun, nofun⟩, ⟨trivial, nofun⟩, trivial⟩
    · intro items hitems
      obtain rfl := LuaValue.table.inj (List.mem_singleton.mp hitems)
      decide
  getAllStacks := by
    intro addr side w slots w' h s hs
    cases h
    obtain rfl := Option.some.inj hs
    refine ⟨by decide, fun item hitem => ?_⟩
    obtain rfl : item = ItemStack.pebble (Utf8.bytes "slate") := by simpa using hitem
    exact ItemStack.pebble_regular _

def networkListing : Server.ActionState ℤ String where
  id := 3
  action := some (.T [(.S "inv", .S "a"), (.S "op", .S "listME")])
  parseResponse
    | .T _ => .ok "listed"
    | _ => .error "no table"

def listRun : List (Event ℤ String Unit) :=
  [.connect "1.1.1.1" ⟨"c", .number 1, .number 1, none, none⟩ ⟨[], ()⟩, .clientWrite 0 4,
    .serverRead 0 4, .enqueue "c" [networkListing], .poll 0, .clientRead 0 31, .clientWrite 0 99,
    .serverRead 0 99]

def pebbleListing : Value ℤ :=
  .T [(.F 1, .T [(.S "damage", .F 0), (.S "hasTag", .B false), (.S "label", .S "Pebble"),
    (.S "maxDamage", .F 0), (.S "maxSize", .F 1), (.S "name", .S "slate"), (.S "size", .F 1)])]

theorem listRun_asks : ∀ e ∈ listRun, e.asks oneDigit fun _ => .listME "a" := by
  simp only [listRun, List.forall_mem_cons, Event.asks, true_and]
  exact ⟨⟨rfl, nofun⟩, nofun⟩

theorem listings_read_listRun :
    ∃ l x items ws,
      Records ((machine oneDigit quarry).exec start listRun) 3
        (Action.ListME.buildRequest "a") l x ∧
      Client.Listed quarry x.before "a" items ∧
      List.Forall₂ (fun item w => LuaValue.Reordered (.table item) w)
        (Client.passing oneDigit.conv (Client.ipairs oneDigit.conv items)) ws ∧
      Action.ListME.parseResponse oneDigit.conv pebbleListing =
        (ws.map LuaValue.lossy).mapM (ItemStack.parse oneDigit.conv) :=
  listings_read quarry_plain (by decide) (fun _ => .listME "a")
    (fun _ => ⟨by decide, by simp [Action.Request.args]⟩) listRun (by decide +kernel) listRun_asks 3
    pebbleListing (.ok "listed") (by decide +kernel) "a" rfl

def chestListing : Server.ActionState ℤ String where
  id := 3
  action := some (.T [(.S "inv", .S "a"), (.S "op", .S "list"), (.S "side", .F 2)])
  parseResponse
    | .T _ => .ok "listed"
    | _ => .error "no table"

def chestRun : List (Event ℤ String Unit) :=
  [.connect "1.1.1.1" ⟨"c", .number 1, .number 1, none, none⟩ ⟨[], ()⟩, .clientWrite 0 4,
    .serverRead 0 4, .enqueue "c" [chestListing], .poll 0, .clientRead 0 20, .clientRead 0 19,
    .clientWrite 0 105, .serverRead 0 105]

def secondPebble : Value ℤ :=
  .T [(.F 2, .T [(.S "damage", .F 0), (.S "hasTag", .B false), (.S "label", .S "Pebble"),
    (.S "maxDamage", .F 0), (.S "maxSize", .F 1), (.S "name", .S "slate"), (.S "size", .F 1)]),
    (.F 3, .S "")]

theorem chestRun_asks : ∀ e ∈ chestRun, e.asks oneDigit fun _ => .list "a" 2 := by
  simp only [chestRun, List.forall_mem_cons, Event.asks, true_and]
  exact ⟨⟨rfl, nofun⟩, nofun⟩

theorem inventories_read_chestRun :
    ∃ l x slots, Records ((machine oneDigit quarry).exec start chestRun) 3
        (Action.List.buildRequest oneDigit.conv "a" 2) l x ∧
      Client.Inspected oneDigit quarry x.before "a" 2 slots ∧
      (slots = none → Action.List.parseResponse oneDigit.conv secondPebble = .ok [none]) ∧
      ∀ inventory, slots = some inventory →
        ∃ shown, List.Forall₂ (Client.Shown oneDigit.conv) inventory shown ∧
          Action.List.parseResponse oneDigit.conv secondPebble =
            shown.mapM (Client.readSlot oneDigit.conv) :=
  inventories_read quarry_plain (by decide) (fun _ => .list "a" 2)
    (fun _ => ⟨by decide, by simp [Action.Request.args]⟩) chestRun (by decide +kernel)
    chestRun_asks 3 secondPebble (.ok "listed") (by decide +kernel) "a" 2 rfl

end Network
end OCRemote
