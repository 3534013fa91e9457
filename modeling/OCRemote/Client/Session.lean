import OCRemote.Client.Script
import OCRemote.Codec.Readers

/-! A connection as `client.lua` has it: what it reads goes to the decoder, whose callback serves the
requests of a packet and puts their results into the write buffer. -/

namespace OCRemote
namespace Client
variable {ν ω : Type}

/-- A request that was served, with its result and what it was served in: the cache of addresses and
the computer, before and after it. -/
structure Served (ν ω : Type) where
  request : LuaValue ν
  result : LuaValue ν
  before : Env ω
  after : Env ω

structure Session (ν ω : Type) where
  env : Env ω
  writeBuffer : List UInt8
  served : List (Served ν ω)

structure Peer (ν ω : Type) where
  decoder : Decode.Source ν
  session : Session ν ω
  closed : Bool

section
variable [LinearOrder ν] (wire : Wire ν) (computer : Computer ν ω) (setup : Setup ν)

def serve (p : LuaValue ν) (s : Session ν ω) : Except (String × Session ν ω) (Session ν ω) :=
  match dispatch wire computer setup p s.env with
  | .error (e, env) => .error (e, { s with env := env })
  | .ok (result, env) =>
    .ok
      { env := env
        writeBuffer :=
          s.writeBuffer ++ LuaValue.encode wire.number (computer.pairs env.machine result)
        served := s.served ++ [⟨p, result, s.env, env⟩] }

/-- The requests of a packet. -/
def requests (p : LuaValue ν) : List (LuaValue ν) := (tableOf p).elim [] (ipairs wire.conv)

/-- The callback of `decode`. -/
def onPacket (p : LuaValue ν) (s : Session ν ω) : Except (String × Session ν ω) (Session ν ω) :=
  match tableOf p with
  | none => .error ("bad argument #1 (table expected)", s)
  | some data => (ipairs wire.conv data).foldlM (fun s p => serve wire computer setup p s) s

/-- A new connection starts with the name. -/
def Peer.connect (env : Env ω) : Peer ν ω where
  decoder := Decode.new
  session :=
    { env := env
      writeBuffer := LuaValue.encode wire.number (luaString setup.clientName)
      served := [] }
  closed := false

/-- `pcall(onRead, data)`. -/
def Peer.onRead (peer : Peer ν ω) (data : List UInt8) : Peer ν ω :=
  match Decode.feed wire.number (onPacket wire computer setup) peer.decoder data peer.session with
  | .error (_, session) => { peer with session := session, closed := true }
  | .ok (decoder, session) => { peer with decoder := decoder, session := session }

/-- `socket.write` took the first `n` bytes. -/
def Peer.written (peer : Peer ν ω) (n : ℕ) : Peer ν ω :=
  { peer with session := { peer.session with writeBuffer := peer.session.writeBuffer.drop n } }

/-! What serving requests adds to a session. -/

/-- The computer gave this result to the request. -/
def Executed (x : Served ν ω) : Prop :=
  dispatch wire computer setup x.request x.before = .ok (x.result, x.after)

/-- The requests were served one after another, and the results written in some enumeration. -/
def Serves (ps : List (LuaValue ν)) (s s' : Session ν ω) : Prop :=
  ∃ xs ws, xs.map Served.request = ps ∧ (∀ x ∈ xs, Executed wire computer setup x) ∧
    List.Forall₂ (fun x w => LuaValue.Reordered x.result w) xs ws ∧
    s'.served = s.served ++ xs ∧
    s'.writeBuffer = s.writeBuffer ++ ws.flatMap (LuaValue.encode wire.number)

variable {wire computer setup} {ps ps' : List (LuaValue ν)} {s s' s'' : Session ν ω}

theorem Serves.nil (hserved : s'.served = s.served) (hbuffer : s'.writeBuffer = s.writeBuffer) :
    Serves wire computer setup [] s s' :=
  ⟨[], [], rfl, by simp, .nil, by simp [hserved], by simp [hbuffer]⟩

theorem Serves.trans (h : Serves wire computer setup ps s s')
    (h' : Serves wire computer setup ps' s' s'') : Serves wire computer setup (ps ++ ps') s s'' := by
  obtain ⟨xs, ws, hxs, hdone, hws, hserved, hbuffer⟩ := h
  obtain ⟨xs', ws', hxs', hdone', hws', hserved', hbuffer'⟩ := h'
  refine ⟨xs ++ xs', ws ++ ws', ?_, ?_, List.rel_append hws hws', ?_, ?_⟩
  · rw [List.map_append, hxs, hxs']
  · exact List.forall_mem_append.mpr ⟨hdone, hdone'⟩
  · rw [hserved', hserved, List.append_assoc]
  · rw [hbuffer', hbuffer, List.append_assoc, List.flatMap_append]

theorem serve_ok {p : LuaValue ν} (h : serve wire computer setup p s = .ok s') :
    Serves wire computer setup [p] s s' := by
  unfold serve at h
  cases hrun : dispatch wire computer setup p s.env with
  | error e => simp [hrun] at h
  | ok q =>
    simp only [hrun, Except.ok.injEq] at h
    subst h
    have hone : List.Forall₂ (fun (x : Served ν ω) w => LuaValue.Reordered x.result w)
        [⟨p, q.1, s.env, q.2⟩] [computer.pairs q.2.machine q.1] :=
      .cons (computer.reordered ..) .nil
    exact ⟨[⟨p, q.1, s.env, q.2⟩], _, rfl, List.forall_mem_singleton.mpr hrun, hone, rfl, by simp⟩

theorem serve_error {p : LuaValue ν} {e : String} (h : serve wire computer setup p s = .error (e, s')) :
    Serves wire computer setup [] s s' := by
  unfold serve at h
  cases hrun : dispatch wire computer setup p s.env with
  | error q =>
    simp only [hrun, Except.error.injEq, Prod.mk.injEq] at h
    obtain ⟨-, rfl⟩ := h
    exact .nil rfl rfl
  | ok q => simp [hrun] at h

/-- How a run over requests ends: all were served, or those before one that raised an error. -/
def Ends (wire : Wire ν) (computer : Computer ν ω) (setup : Setup ν) (ps : List (LuaValue ν))
    (s : Session ν ω) : Except (String × Session ν ω) (Session ν ω) → Prop
  | .ok s' => Serves wire computer setup ps s s'
  | .error (_, s') => ∃ done, done <+: ps ∧ Serves wire computer setup done s s'

theorem Ends.bind {run : Except (String × Session ν ω) (Session ν ω)}
    (h : Ends wire computer setup ps s run)
    {f : Session ν ω → Except (String × Session ν ω) (Session ν ω)}
    (hf : ∀ s', Ends wire computer setup ps' s' (f s')) :
    Ends wire computer setup (ps ++ ps') s (run.bind f) := by
  cases run with
  | error e =>
    obtain ⟨done, hdone, hserves⟩ := h
    exact ⟨done, hdone.trans (List.prefix_append ..), hserves⟩
  | ok s' =>
    have hrest := hf s'
    change Ends wire computer setup (ps ++ ps') s (f s')
    cases hrun : f s' with
    | error e =>
      rw [hrun] at hrest
      obtain ⟨done, hdone, hserves⟩ := hrest
      exact ⟨ps ++ done, (List.prefix_append_right_inj ps).mpr hdone, Serves.trans h hserves⟩
    | ok s'' =>
      rw [hrun] at hrest
      exact Serves.trans h hrest

/-- The rule for a loop whose steps each serve some requests. -/
theorem ends_foldlM {α : Type} {asks : α → List (LuaValue ν)}
    {f : α → Session ν ω → Except (String × Session ν ω) (Session ν ω)}
    (hf : ∀ a s, Ends wire computer setup (asks a) s (f a s)) (as : List α) (s : Session ν ω) :
    Ends wire computer setup (as.flatMap asks) s (as.foldlM (fun s a => f a s) s) := by
  induction as generalizing s with
  | nil => exact Serves.nil rfl rfl
  | cons a as ih =>
    rw [List.foldlM_cons, List.flatMap_cons]
    exact (hf a s).bind ih

theorem serve_ends (p : LuaValue ν) (s : Session ν ω) :
    Ends wire computer setup [p] s (serve wire computer setup p s) := by
  cases hrun : serve wire computer setup p s with
  | error e => exact ⟨[], List.nil_prefix, serve_error hrun⟩
  | ok s' => exact serve_ok hrun

theorem onPacket_ends (p : LuaValue ν) (s : Session ν ω) :
    Ends wire computer setup (requests wire p) s (onPacket wire computer setup p s) := by
  unfold onPacket requests
  cases tableOf p with
  | none => exact ⟨[], List.nil_prefix, Serves.nil rfl rfl⟩
  | some data =>
    have hall : Ends wire computer setup ((ipairs wire.conv data).flatMap fun p => [p]) s
        ((ipairs wire.conv data).foldlM (fun s p => serve wire computer setup p s) s) :=
      ends_foldlM serve_ends _ s
    rwa [List.flatMap_singleton'] at hall

/-- What a piece of the stream does to a connection, given what the decoder makes of it. -/
theorem Peer.onRead_of_trace {peer : Peer ν ω} {data : List UInt8} {packets : List (LuaValue ν)}
    {decoder : Decode.Source ν}
    (h : (Decode.reader wire.number String).trace peer.decoder data = ⟨packets, .ok decoder⟩) :
    ∃ done, done <+: packets.flatMap (requests wire) ∧
      Serves wire computer setup done peer.session
        (peer.onRead wire computer setup data).session ∧
      ((peer.onRead wire computer setup data).closed = false →
        done = packets.flatMap (requests wire) ∧
        (peer.onRead wire computer setup data).decoder = decoder) := by
  have hfeed := (Decode.reader wire.number String).feed_eq_run
    (onPacket wire computer setup) peer.decoder data peer.session
  have hends : Ends wire computer setup (packets.flatMap (requests wire)) peer.session
      (packets.foldlM (fun s p => onPacket wire computer setup p s) peer.session) :=
    ends_foldlM onPacket_ends _ _
  rw [h] at hfeed
  simp only [Trace.run] at hfeed
  change Decode.feed wire.number (onPacket wire computer setup) peer.decoder data peer.session = _
    at hfeed
  unfold Peer.onRead
  rw [hfeed]
  cases hrun : packets.foldlM (fun s p => onPacket wire computer setup p s) peer.session with
  | error e =>
    rw [hrun] at hends
    obtain ⟨done, hdone, hserves⟩ := hends
    exact ⟨done, hdone, hserves, by simp⟩
  | ok session =>
    rw [hrun] at hends
    exact ⟨_, List.prefix_rfl, hends, fun _ => ⟨rfl, rfl⟩⟩

theorem exists_of_foldlM_error {α σ E : Type} {f : σ → α → Except E σ} {as : List α} {s : σ} {e : E}
    (h : as.foldlM f s = .error e) : ∃ a ∈ as, ∃ s', f s' a = .error e := by
  induction as generalizing s with
  | nil => exact nomatch h
  | cons a as ih =>
    rw [List.foldlM_cons] at h
    cases hstep : f s a with
    | error e' =>
      rw [hstep] at h
      exact ⟨a, List.mem_cons_self, s, hstep.trans h⟩
    | ok s₁ =>
      rw [hstep] at h
      obtain ⟨b, hb, s', hrun⟩ := ih h
      exact ⟨b, List.mem_cons_of_mem a hb, s', hrun⟩

/-- When the decoder makes tables of a piece of the stream, only serving a request can fail. -/
theorem feed_error_of_trace {source decoder : Decode.Source ν} {data : List UInt8}
    {packets : List (LuaValue ν)}
    (h : (Decode.reader wire.number String).trace source data = ⟨packets, .ok decoder⟩)
    (htables : ∀ p ∈ packets, (tableOf p).isSome = true) {e : Decode.Error String}
    (herror : Decode.feed wire.number (onPacket wire computer setup) source data s = .error (e, s')) :
    ∃ text p s₁, e = .cbError text ∧ serve wire computer setup p s₁ = .error (text, s') := by
  have hfeed := (Decode.reader wire.number String).feed_eq_run
    (onPacket wire computer setup) source data s
  change Decode.feed wire.number (onPacket wire computer setup) source data s = _ at hfeed
  rw [h, herror] at hfeed
  simp only [Trace.run] at hfeed
  cases hrun : packets.foldlM (fun s p => onPacket wire computer setup p s) s with
  | ok s₁ => simp [hrun] at hfeed
  | error q =>
    rw [hrun] at hfeed
    obtain ⟨he, hs⟩ := Prod.mk.inj (Except.error.inj hfeed)
    obtain ⟨packet, hpacket, s₁, hcb⟩ := exists_of_foldlM_error hrun
    obtain ⟨data, hdata⟩ := Option.isSome_iff_exists.mp (htables packet hpacket)
    simp only [onPacket, hdata] at hcb
    obtain ⟨p, -, s₂, hserve⟩ := exists_of_foldlM_error hcb
    refine ⟨q.1, p, s₂, he, ?_⟩
    rw [hserve, hs]

end
end Client
end OCRemote
