import OCRemote.Net.Runs

/-! A connection is never stuck: as long as no request fails, its bytes can be moved until all of its
requests are answered. -/

namespace OCRemote

namespace Server
variable {ν ρ : Type} {w : World ν ρ} {i : ℕ}

/-- No client of this connection has a group that waits to be written. -/
def Idle (w : World ν ρ) (i : ℕ) : Prop := ∀ c, w.client i = some c → c.requestQueue = []

theorem Idle.evolves {w' : World ν ρ} {k k' : Connection ν ρ} {c : Client ν ρ}
    (hk : Evolves (fun _ => False) k k') (hkc : k.client = some c) (hqueue : c.requestQueue = [])
    (hk' : w'.connections[i]? = some k') : Idle w' i := by
  intro c' hc'
  obtain ⟨c₁, hc₁, -, hold⟩ := hk.client c' ((client_of_connection hk').symm.trans hc')
  obtain rfl := Option.some.inj (hkc.symm.trans hc₁)
  refine List.eq_nil_iff_forall_not_mem.mpr fun g hg => ?_
  rcases hold g hg with hmem | hnew
  · simp [hqueue] at hmem
  · exact hnew

theorem Idle.packet (h : Idle w i) (hinv : Inv w) (value : Value ν) : Idle (w.onPacket i value) i := by
  cases hc : w.client i with
  | none =>
    have hsame : w.onPacket i value = w := by simp only [World.onPacket, hc]
    rwa [hsame]
  | some c =>
    obtain ⟨k, hk, hkc⟩ := World.exists_connection hc
    have hidle := h c hc
    have hdead : ∀ w' : World ν ρ, w'.client i = none → Idle w' i := by
      intro w' hnone c' hc'
      rw [hnone] at hc'
      contradiction
    by_cases hlogin : c.login = none
    · cases value with
      | S name =>
        obtain ⟨w', c', -, -, hw', -, hqueue, hquiet⟩ :=
          handle_logIn (P := fun _ => False) hinv hk hkc hlogin name
        obtain ⟨k', hk', hevolves⟩ := hquiet.exists_evolved (getElem?_modify_self hk)
        rw [← hw']
        exact Idle.evolves hevolves rfl (hqueue.trans hidle) hk'
      | N | F _ | B _ | T _ =>
        apply hdead
        simp only [World.onPacket, hc, hlogin]
        exact client_disconnect w i
    · cases hresponse : c.responseQueue with
      | nil =>
        apply hdead
        obtain ⟨name, hname⟩ := Option.ne_none_iff_exists'.mp hlogin
        simp only [World.onPacket, hc, hname, hresponse]
        have hgone := client_disconnect w i
        unfold World.client at hgone
        simpa [World.client, World.modify, Option.bind_map] using hgone
      | cons x rest =>
        obtain ⟨c', -, hqueue, hquiet, -⟩ :=
          handle_answer (P := fun _ => False) hk hkc hlogin hresponse value
        obtain ⟨k', hk', hevolves⟩ := hquiet.exists_evolved (getElem?_modify_self hk)
        exact Idle.evolves hevolves rfl (hqueue.trans hidle) hk'

theorem Idle.packets (h : Idle w i) (hinv : Inv w) (values : List (Value ν)) :
    Idle ((machine ν ρ).exec w (values.map (.packet i))) i := by
  induction values generalizing w with
  | nil => exact h
  | cons value values ih => exact ih (h.packet hinv value) (hinv.packet i value)

end Server

namespace Network
variable {ν ρ ω : Type} [LinearOrder ν] {wire : Wire ν} {computer : Client.Computer ν ω}

/-- The steps in which bytes of the connection `i` move. -/
def Event.Moves (i : ℕ) : Event ν ρ ω → Prop
  | .poll j | .serverRead j _ | .clientRead j _ | .clientWrite j _ => j = i
  | _ => False

/-- Nobody connects, gives up or asks for more, and all other connections rest. -/
def moving (wire : Wire ν) (computer : Client.Computer ν ω) (i : ℕ) :
    Machine (Network ν ρ ω) (Event ν ρ ω) :=
  (machine wire computer).restrict fun _ e => e.Moves i

structure Connected (wire : Wire ν) (computer : Client.Computer ν ω) (net : Network ν ρ ω) (i : ℕ)
    (c : Server.Client ν ρ) (l : Link ν ω) : Prop where
  ok : Ok wire computer net
  client : net.server.client i = some c
  link : net.links[i]? = some l
  opened : l.peer.closed = false

/-- One side has closed the connection. -/
def Ended (net : Network ν ρ ω) (i : ℕ) : Prop :=
  net.server.client i = none ∨ ∃ l, net.links[i]? = some l ∧ l.peer.closed = true

variable {net : Network ν ρ ω} {i : ℕ} {c : Server.Client ν ρ} {l : Link ν ω}

omit [LinearOrder ν] in
theorem links_modifyLink (hl : net.links[i]? = some l) (f : Link ν ω → Link ν ω) :
    (net.modifyLink i f).links[i]? = some (f l) := by
  simp [Network.modifyLink, hl]

/-- All groups are written. -/
theorem Connected.poll_all (h : Connected wire computer net i c l) :
    (moving wire computer i).CanReach net fun net' =>
      ∃ c' l', Connected wire computer net' i c' l' ∧ c'.requestQueue = [] := by
  induction hqueue : c.requestQueue generalizing net c l with
  | nil => exact .here ⟨c, l, h, hqueue⟩
  | cons group groups ih =>
    obtain ⟨k, hk, hkc⟩ := Server.World.exists_connection h.client
    have hlive := (h.ok.server.connections k (List.mem_of_getElem? hk)).live c hkc
    obtain ⟨c', -, ⟨hnone, -⟩ | ⟨group', groups', built, hqueue₁, hqueue', -, -, hpoll⟩⟩ :=
      Server.poll_cases h.ok.server hk hkc
    · simp [hnone] at hqueue
    · obtain ⟨-, rfl⟩ := List.cons.inj (hqueue.symm.trans hqueue₁)
      have hnext : Connected wire computer (net.poll wire i) i c'
          { l with toClient := l.toClient ++ c.output wire } := by
        refine ⟨h.ok.poll i, ?_, ?_, h.opened⟩
        · rw [poll_server, hpoll, Server.World.client_modify hk, if_pos rfl]
        · simp only [Network.poll, h.client]
          exact links_modifyLink h.link _
      refine .step (.poll i) ⟨⟨c, h.client, hlive.writer (by simp [hqueue])⟩, rfl⟩ ?_
      exact ih hnext hqueue'

section
variable (hplain : computer.Plain wire) (hone : 1 ≤ wire.exact)
include hplain hone

/-- The client reads all that is there. -/
theorem Connected.client_read_all (h : Connected wire computer net i c l) :
    (moving wire computer i).CanReach net fun net' => Ended net' i ∨
      ∃ l', Connected wire computer net' i c l' ∧ l'.toClient = [] := by
  have he : (machine wire computer).enabled net (.clientRead i l.toClient.length : Event ν ρ ω) :=
    ⟨l, h.link, h.opened, le_rfl⟩
  have hl := links_modifyLink h.link fun l₁ =>
    { l₁ with
      toClient := l₁.toClient.drop l.toClient.length
      peer := l₁.peer.onRead wire computer l₁.setup (l₁.toClient.take l.toClient.length) }
  refine .step _ ⟨he, rfl⟩ (.here ?_)
  cases hopen : (l.peer.onRead wire computer l.setup (l.toClient.take l.toClient.length)).closed with
  | true => exact .inl (.inr ⟨_, hl, hopen⟩)
  | false =>
    exact .inr ⟨_, ⟨h.ok.step hplain hone he, h.client, hl, hopen⟩, List.drop_length⟩

/-- And writes all that it has to write. -/
theorem Connected.client_write_all (h : Connected wire computer net i c l) :
    (moving wire computer i).CanReach net fun net' =>
      ∃ l', Connected wire computer net' i c l' ∧ l'.toClient = l.toClient ∧
        l'.peer.session.writeBuffer = [] := by
  have he : (machine wire computer).enabled net
      (.clientWrite i l.peer.session.writeBuffer.length : Event ν ρ ω) :=
    ⟨l, h.link, h.opened, le_rfl⟩
  have hl := links_modifyLink h.link fun l₁ =>
    { l₁ with
      toServer := l₁.toServer ++ l₁.peer.session.writeBuffer.take l.peer.session.writeBuffer.length
      peer := l₁.peer.written l.peer.session.writeBuffer.length }
  refine .step _ ⟨he, rfl⟩ (.here ⟨_, ⟨h.ok.step hplain hone he, h.client, hl, h.opened⟩, rfl, ?_⟩)
  exact List.drop_length

/-- One chunk, after which nothing else has changed. -/
theorem Connected.serverRead (h : Connected wire computer net i c l) (hqueue : c.requestQueue = [])
    {n : ℕ} (he : (machine wire computer).enabled net (.serverRead i n : Event ν ρ ω)) :
    (net.serverRead wire i n).server.client i = none ∨
      ∃ c' parser, c'.requestQueue = [] ∧
        Connected wire computer (net.serverRead wire i n) i c'
          { l with toServer := l.toServer.drop n, parser := parser } := by
  have hok : Ok wire computer (net.serverRead wire i n) := h.ok.step hplain hone he
  have hidle : Server.Idle net.server i := by
    intro c₁ hc₁
    obtain rfl := Option.some.inj (h.client.symm.trans hc₁)
    exact hqueue
  obtain ⟨written, -, ⟨parser, server, seen, hrun, hreceived, -⟩ |
    ⟨e, server, seen, hrun, -⟩⟩ := h.ok.shift hplain hone he.1 h.link n
  · right
    obtain ⟨c', hc'⟩ := Option.isSome_iff_exists.mp hreceived.client
    obtain ⟨values, -, hexec⟩ := hreceived.run
    have hidle' := hidle.packets h.ok.server values
    rw [← hexec] at hidle'
    refine ⟨c', parser, hidle' c' hc', hok, ?_, ?_, h.opened⟩
    · simpa only [Network.serverRead, h.link, hrun] using hc'
    · simp only [Network.serverRead, h.link, hrun]
      exact links_modifyLink h.link _
  · left
    simp only [Network.serverRead, h.link, hrun]
    exact Server.client_disconnect server i

/-- The server reads all that is there, chunk by chunk. -/
theorem Connected.server_read_all (h : Connected wire computer net i c l)
    (hqueue : c.requestQueue = []) :
    (moving wire computer i).CanReach net fun net' => Ended net' i ∨
      ∃ c' parser, c'.requestQueue = [] ∧
        Connected wire computer net' i c' { l with toServer := [], parser := parser } := by
  induction hn : l.toServer.length using Nat.strong_induction_on generalizing net c l with
  | _ n ih =>
    subst hn
    by_cases hnone : l.toServer = []
    · exact .here (.inr ⟨c, l.parser, hqueue, by rwa [← hnone]⟩)
    · have hpos := List.length_pos_of_ne_nil hnone
      have he : (machine wire computer).enabled net
          (.serverRead i (min 4096 l.toServer.length) : Event ν ρ ω) :=
        ⟨by rw [h.client]; rfl, by omega, by omega, l, h.link, by omega⟩
      refine .step (.serverRead i _) ⟨he, rfl⟩ ?_
      rcases h.serverRead hplain hone hqueue he with hdead | ⟨c', parser, hqueue', hnext⟩
      · exact .here (.inl (.inl hdead))
      · have hshort : (l.toServer.drop (min 4096 l.toServer.length)).length < l.toServer.length := by
          rw [List.length_drop]
          omega
        have hrest := ih _ hshort hnext hqueue' rfl
        exact hrest

theorem Connected.drain (h : Connected wire computer net i c l) :
    (moving wire computer i).CanReach net fun net' => Ended net' i ∨
      ∃ c' l', Connected wire computer net' i c' l' ∧ c'.requestQueue = [] ∧ l'.toClient = [] ∧
        l'.toServer = [] ∧ l'.peer.session.writeBuffer = [] := by
  refine h.poll_all.bind fun net₁ ⟨c₁, l₁, h₁, hqueue⟩ => ?_
  refine (h₁.client_read_all hplain hone).bind_or fun net₂ ⟨l₂, h₂, hread⟩ => ?_
  refine (h₂.client_write_all hplain hone).bind fun net₃ ⟨l₃, h₃, hsame, hbuffer⟩ => ?_
  refine (h₃.server_read_all hplain hone hqueue).bind_or fun net₄ ⟨c₄, parser, hqueue₄, h₄⟩ => ?_
  exact .here (.inr ⟨c₄, _, h₄, hqueue₄, hsame.trans hread, rfl, hbuffer⟩)

/-- As long as no request of it fails, everything that a connection has accepted can be answered by
moving the bytes that are there, while no other connection does anything. -/
theorem can_answer (es : List (Event ν ρ ω)) (hv : (machine wire computer).Valid start es) (i : ℕ)
    (k : Server.Connection ν ρ) (l : Link ν ω)
    (hk : ((machine wire computer).exec start es).server.connections[i]? = some k)
    (hl : ((machine wire computer).exec start es).links[i]? = some l)
    (halive : k.client.isSome = true) (hopen : l.peer.closed = false) :
    (moving wire computer i).CanReach ((machine wire computer).exec start es) fun net' =>
      Ended net' i ∨ ∃ k', net'.server.connections[i]? = some k' ∧ k.accepted <+: k'.accepted ∧
        k'.delivered.map Prod.fst = k'.accepted.map Prod.fst := by
  have hok := ok_of_valid hplain hone hv
  generalize (machine wire computer).exec start es = net at hok hk hl ⊢
  obtain ⟨c, hkc⟩ := Option.isSome_iff_exists.mp halive
  have h : Connected wire computer net i c l :=
    ⟨hok, (Server.client_of_connection hk).trans hkc, hl, hopen⟩
  obtain ⟨es', hv', hend⟩ := h.drain hplain hone
  refine ⟨es', hv', hend.imp_right fun ⟨c', l', h', hqueue, hdown, hup, hbuffer⟩ => ?_⟩
  -- what was accepted before is still there
  obtain ⟨ess, -, -, hserver⟩ := hok.server_run hplain hone (Machine.valid_of_restrict _ hv')
  obtain ⟨k', hk', haccepted, -⟩ := Server.keeps_exec net.server ess.flatten i k hk
  rw [← hserver] at hk'
  refine ⟨k', hk', haccepted, ?_⟩
  have hkc' : k'.client = some c' := (Server.client_of_connection hk').symm.trans h'.client
  obtain ⟨-, -, hanswered, -⟩ :=
    h'.ok.drained hplain hone hk' h'.link hkc' h'.opened hdown hup hbuffer
  have horder := ((h'.ok.server.connections k' (List.mem_of_getElem? hk')).live c' hkc').order
  rw [hqueue, List.flatten_nil, List.filterMap_nil, List.append_nil] at horder
  rw [hanswered, horder]

end

theorem can_answer_sizeRun :
    ∃ k, ((machine oneDigit sevens).exec start (sizeRun.take 6)).server.connections[0]? = some k ∧
      k.accepted.map Prod.fst = [3] ∧
      (moving oneDigit sevens 0).CanReach ((machine oneDigit sevens).exec start (sizeRun.take 6))
        fun net' => Ended net' 0 ∨ ∃ k', net'.server.connections[0]? = some k' ∧
          k.accepted <+: k'.accepted ∧ k'.delivered.map Prod.fst = k'.accepted.map Prod.fst := by
  have hk : (((machine oneDigit sevens).exec start
      (sizeRun.take 6)).server.connections[0]?).isSome = true := by decide +kernel
  have hl : (((machine oneDigit sevens).exec start (sizeRun.take 6)).links[0]?).isSome = true := by
    decide +kernel
  have haccepted : (Option.get _ hk).accepted.map Prod.fst = [3] := by decide +kernel +revert
  exact ⟨_, (Option.some_get hk).symm, haccepted, can_answer sevens_plain (by decide) (sizeRun.take 6)
    (by decide +kernel) 0 _ _ (Option.some_get hk).symm (Option.some_get hl).symm
    (by decide +kernel +revert) (by decide +kernel +revert)⟩

end Network
end OCRemote
