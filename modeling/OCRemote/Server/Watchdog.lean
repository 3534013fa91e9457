import OCRemote.Server.Pairing

/-! When the time-out of a client runs. `enqueue_request_group` starts it only if the writer is idle,
so a group that comes when nothing is outstanding, but before the writer has noticed that its last
write is done, is not watched. -/

namespace OCRemote
namespace Server
variable {ν ρ : Type} {w : World ν ρ} {i : ℕ} {k : Connection ν ρ} {c : Client ν ρ}

/-- There are requests that the client has not answered. -/
def Client.Outstanding (c : Client ν ρ) : Prop := 0 < c.requestQueueSize ∨ c.responseQueue ≠ []

def Client.Armed (c : Client ν ρ) : Prop := c.timeout = true ↔ c.Outstanding

def Watched (w : World ν ρ) : Prop := ∀ k ∈ w.connections, ∀ c ∈ k.client, c.Armed

/-- A group comes to an idle writer or joins requests that are watched already. -/
def Guarded (w : World ν ρ) : Event ν ρ → Prop
  | .enqueue name group => group ≠ [] → ∀ i ∈ w.logins name, ∀ c ∈ w.client i,
      c.writer = .notWriting ∨ 0 < c.requestQueueSize ∨ c.responseQueue ≠ []
  | _ => True

theorem Client.outstanding_iff (c : Client ν ρ) :
    c.Outstanding ↔ ¬(c.requestQueueSize = 0 ∧ c.responseQueue = []) := by
  unfold Client.Outstanding
  rw [Nat.pos_iff_ne_zero, not_and_or]

theorem Client.armed_updateTimeout (c : Client ν ρ) (restart : Bool) :
    (c.updateTimeout restart).Armed := by
  unfold Client.Armed Client.updateTimeout
  split_ifs with hnone hstart
  · simp [Client.Outstanding, hnone]
  · have hsome : c.Outstanding := c.outstanding_iff.mpr hnone
    exact iff_of_true rfl hsome
  · have hon : c.timeout = true := by
      by_contra hoff
      simp [hoff] at hstart
    exact iff_of_true hon (c.outstanding_iff.mpr hnone)

/-- An idle writer starts the time-out, a busy one leaves it as it is. -/
theorem Client.armed_enqueue_iff (h : c.Armed) (group : List (ActionState ν ρ)) :
    (c.enqueueRequestGroup group).Armed ↔
      (group ≠ [] → c.writer = .notWriting ∨ c.Outstanding) := by
  unfold Client.enqueueRequestGroup
  cases c.writer with
  | notWriting =>
    refine iff_of_true ?_ fun _ => .inl rfl
    exact Client.armed_updateTimeout
      { c with
        requestQueueSize := c.requestQueueSize + group.length
        requestQueue := c.requestQueue ++ [group]
        writer := .notWriting } false
  -- the time-out stays as it is, whatever the group adds
  | writing begun =>
    unfold Client.Armed Client.Outstanding at *
    simp only [reduceCtorEq, false_or]
    rw [h]
    cases group with
    | nil => simp
    | cons x group => simp

theorem Watched.modify (h : Watched w) {f : Connection ν ρ → Connection ν ρ}
    (hf : ∀ k c, w.connections[i]? = some k → (f k).client = some c → c.Armed) :
    Watched (w.modify i f) := by
  intro k hk c hc
  rcases List.mem_modify hk with hk | ⟨old, hold, rfl⟩
  · exact h k hk c hc
  · exact hf old c hold hc

theorem Watched.client (h : Watched w) (hc : w.client i = some c) : c.Armed := by
  obtain ⟨k, hk, hkc⟩ := World.exists_connection hc
  exact h k (List.mem_of_getElem? hk) c hkc

theorem Watched.setClient (h : Watched w) {c : Client ν ρ} (hc : c.Armed) (i : ℕ) :
    Watched (w.setClient i c) := by
  refine h.modify fun k c' _ hc' => ?_
  obtain rfl : c = c' := Option.some_inj.mp hc'
  exact hc

theorem Watched.drop (h : Watched w) (i : ℕ) : Watched (w.drop i) := by
  unfold World.drop
  cases w.client i with
  | none => exact h
  | some c => exact h.modify (by simp)

theorem Watched.disconnect (h : Watched w) (i : ℕ) : Watched (w.disconnect i) := by
  unfold World.disconnect
  cases (w.client i).bind Client.login with
  | none => exact h.drop i
  | some login => exact Watched.drop (w := { w with logins := Function.update w.logins login none }) h i

theorem Watched.login (h : Watched w) (name : String) (i : ℕ) : Watched (w.login name i) := by
  unfold World.login
  cases w.logins name with
  | none => exact h
  | some j =>
    cases hc : w.client j with
    | none =>
      simp only [hc]
      exact h
    | some old =>
      simp only [hc]
      have hold : old.Armed := h.client hc
      refine Watched.disconnect ?_ j
      exact Watched.setClient (w := { w with logins := Function.update w.logins name (some i) })
        (c := { old with login := none }) h hold j

theorem Watched.enqueue (h : Watched w) {name : String} {group : List (ActionState ν ρ)}
    (hguard : Guarded w (.enqueue name group)) : Watched (w.enqueueRequestGroup name group) := by
  unfold World.enqueueRequestGroup
  cases hname : w.logins name with
  | none => exact h
  | some i =>
    cases hc : w.client i with
    | none =>
      simp only [hc]
      exact h
    | some c =>
      simp only [hc]
      refine Watched.modify (w := { w with enqueued := group.map ActionState.id ++ w.enqueued }) h
        fun k c' _ hc' => ?_
      obtain rfl : c.enqueueRequestGroup group = c' := Option.some_inj.mp hc'
      exact (Client.armed_enqueue_iff (h.client hc) group).mpr fun hne => hguard hne i hname c hc

/-- What the writer takes from one queue it puts into the other. -/
theorem Live.outstanding_writerMain (h : Live k c) {c' : Client ν ρ} {requests : List (ℕ × Value ν)}
    (hrun : c.writerMain = some (c', requests)) :
    c'.timeout = c.timeout ∧ (c'.Outstanding ↔ c.Outstanding) := by
  unfold Client.writerMain at hrun
  cases hqueue : c.requestQueue with
  | nil =>
    simp only [hqueue] at hrun
    obtain ⟨rfl, -⟩ := Prod.mk.inj (Option.some_inj.mp hrun)
    exact ⟨rfl, Iff.rfl⟩
  | cons group groups =>
    have hready := h.ready
    have hsize := h.size
    rw [hqueue, List.flatten_cons] at hready
    rw [hqueue, List.map_cons, List.sum_cons] at hsize
    obtain ⟨built, hbuilt, -, hids⟩ := mapM_buildRequest (List.forall_mem_append.mp hready).1
    have hlen : built.length = group.length := by
      have hboth := congrArg List.length hids
      simpa using hboth
    simp only [hqueue, hbuilt] at hrun
    obtain ⟨rfl, -⟩ := Prod.mk.inj (Option.some_inj.mp hrun)
    refine ⟨rfl, ?_⟩
    unfold Client.Outstanding
    rw [← List.length_pos_iff, ← List.length_pos_iff]
    simp only [List.length_append, List.length_map]
    omega

theorem Watched.answer (h : Watched w) (i : ℕ) (c : Client ν ρ)
    (f : Connection ν ρ → Connection ν ρ)
    (hf : ∀ k, (f k).client = some (c.updateTimeout true))
    (completions : List (ℕ × Completion ν ρ)) :
    Watched { w.modify i f with completions := completions } := by
  have hmodify : Watched (w.modify i f) := by
    refine h.modify fun k c' _ hc' => ?_
    rw [hf k] at hc'
    rw [← Option.some_inj.mp hc']
    exact c.armed_updateTimeout true
  exact hmodify

theorem Watched.step (h : Watched w) (hinv : Inv w) {e : Event ν ρ} (hguard : Guarded w e) :
    Watched (next w e) := by
  cases e with
  | connect addr =>
    intro k hk c hc
    rcases List.mem_append.mp hk with hk | hk
    · exact h k hk c hc
    · obtain rfl := List.mem_singleton.mp hk
      obtain rfl : Client.new addr = c := Option.some_inj.mp hc
      simp [Client.Armed, Client.Outstanding, Client.new]
  | enqueue name group => exact h.enqueue hguard
  | poll i =>
    simp only [next]
    cases hc : w.client i with
    | none =>
      unfold World.pollWriter
      rw [hc]
      exact h
    | some c =>
      obtain ⟨k, hk, hkc⟩ := World.exists_connection hc
      have hlive := (hinv.connections k (List.mem_of_getElem? hk)).live c hkc
      obtain ⟨c', requests, hrun, -⟩ := hlive.writerMain
      obtain ⟨htimeout, hout⟩ := hlive.outstanding_writerMain hrun
      unfold World.pollWriter
      simp only [hc, hrun]
      refine h.modify fun k c₀ _ hc₀ => ?_
      obtain rfl : c' = c₀ := Option.some_inj.mp hc₀
      unfold Client.Armed
      rw [htimeout, hout]
      exact h.client hc
  | writeError i => exact h.disconnect i
  | packet i value =>
    simp only [next]
    unfold World.onPacket
    cases hc : w.client i with
    | none => exact h
    | some c =>
      simp only
      have hc : c.Armed := h.client hc
      have hset (name logPrefix : String) :
          Watched (w.setClient i { c with login := some name, logPrefix := logPrefix }) :=
        h.setClient (c := { c with login := some name, logPrefix := logPrefix }) hc i
      split
      · split_ifs
        · exact h.answer i _ _ (fun _ => rfl) _
        · exact (h.answer i _ _ (fun _ => rfl) _).disconnect i
      · refine (h.disconnect i).modify fun k c' hk hc' => ?_
        exact h.disconnect i k (List.mem_of_getElem? hk) c' hc'
      · exact (hset _ _).login _ i
      · exact h.disconnect i
  | readError i => exact h.disconnect i
  | timeout i => exact h.disconnect i
  | shutdown =>
    simp only [next]
    have hnone : Watched { w with logins := fun _ => none } := h
    generalize ({ w with logins := fun _ => none } : World ν ρ) = w' at hnone ⊢
    generalize List.range w.connections.length = is
    induction is generalizing w' with
    | nil => exact hnone
    | cons i is ih => exact ih _ (hnone.drop i)

/-- A time-out that is armed can end the client, and then everything outstanding has failed. -/
theorem timeout_fails (hc : w.client i = some c) :
    (next w (.timeout i)).client i = none ∧
      ∀ x ∈ c.pending,
        (x.id, .onFail (c.logPrefix ++ " disconnected")) ∈ (next w (.timeout i)).completions := by
  obtain ⟨k, hk, hkc⟩ := World.exists_connection hc
  constructor
  · show (w.disconnect i).client i = none
    unfold World.client
    rw [connections_disconnect hk hkc]
    rfl
  · intro x hx
    have hfailed : (x.id, Completion.onFail (c.logPrefix ++ " disconnected")) ∈
        (w.completions ++
          World.failures c.pending (c.logPrefix ++ " disconnected") : List (ℕ × Completion ν ρ)) :=
      List.mem_append_right _ (List.mem_map_of_mem (f := fun x => (x.id, Completion.onFail _)) hx)
    have hdrop (logins : String → Option ℕ) :
        (World.drop { w with logins := logins } i).completions =
        w.completions ++ World.failures c.pending (c.logPrefix ++ " disconnected") := by
      have hc' : World.client { w with logins := logins } i = some c := hc
      unfold World.drop
      rw [hc']
    show _ ∈ (w.disconnect i).completions
    unfold World.disconnect
    cases (w.client i).bind Client.login with
    | none =>
      have heq := hdrop w.logins
      simp only [heq]
      exact hfailed
    | some login =>
      simp only [hdrop]
      exact hfailed

theorem Watched.run {es : List (Event ν ρ)}
    (hv : ((machine ν ρ).restrict Guarded).Valid .start es) :
    Inv ((machine ν ρ).exec .start es) ∧ Watched ((machine ν ρ).exec .start es) := by
  have h0 : Watched (World.start : World ν ρ) := by simp [Watched, World.start]
  exact (machine ν ρ).invariant_restrict (I := fun w => Inv w ∧ Watched w)
    (fun w e hI he hguard => ⟨hI.1.step he, hI.2.step hI.1 hguard⟩) ⟨start_inv, h0⟩ hv

/-- In runs whose groups are guarded, the time-out of a client runs exactly while something is
outstanding, and it can end a client that does not answer and fail all that it has not answered. -/
theorem watchdog_armed (es : List (Event ν ρ))
    (hv : ((machine ν ρ).restrict Guarded).Valid .start es) (i : ℕ)
    (c : Client ν ρ) (hc : ((machine ν ρ).exec .start es).client i = some c) :
    (c.timeout = true ↔ 0 < c.requestQueueSize ∨ c.responseQueue ≠ []) ∧
      (0 < c.requestQueueSize ∨ c.responseQueue ≠ [] →
        enabled ((machine ν ρ).exec .start es) (.timeout i) ∧
        ((machine ν ρ).exec .start (es ++ [.timeout i])).client i = none ∧
        ∀ x ∈ c.pending, (x.id, .onFail (c.logPrefix ++ " disconnected")) ∈
          ((machine ν ρ).exec .start (es ++ [.timeout i])).completions) := by
  have harmed : c.Armed := (Watched.run hv).2.client hc
  refine ⟨harmed, fun hout => ?_⟩
  rw [Machine.exec_append]
  exact ⟨⟨c, hc, harmed.mpr hout⟩, timeout_fails hc⟩

/-- The condition on the groups is needed: the first one that breaks it is not watched. -/
theorem watchdog_missing {es : List (Event ν ρ)}
    (hv : ((machine ν ρ).restrict Guarded).Valid .start es) {name : String}
    {group : List (ActionState ν ρ)}
    (hbreak : ¬Guarded ((machine ν ρ).exec .start es) (.enqueue name group)) :
    ∃ i c, ((machine ν ρ).exec .start (es ++ [.enqueue name group])).client i = some c ∧
      ¬c.Armed := by
  have hwatched := (Watched.run hv).2
  rw [Machine.exec_append]
  generalize (machine ν ρ).exec .start es = w at hbreak hwatched ⊢
  unfold Guarded at hbreak
  push Not at hbreak
  obtain ⟨hne, i, hname, c, hc, hbusy, hnone⟩ := hbreak
  obtain ⟨k, hk, hkc⟩ := World.exists_connection hc
  rw [Option.mem_def] at hname hc
  refine ⟨i, c.enqueueRequestGroup group, ?_, fun harmed => ?_⟩
  · show (w.enqueueRequestGroup name group).client i = some (c.enqueueRequestGroup group)
    unfold World.enqueueRequestGroup
    simp only [hname, hc]
    exact (World.client_modify hk i).trans (if_pos rfl)
  · rcases (Client.armed_enqueue_iff (hwatched.client hc) group).mp harmed hne with
      hidle | hsize | hresponse
    · exact hbusy hidle
    · exact absurd hsize (by simpa using hnone.1)
    · exact hresponse hnone.2

instance (w : World ν ρ) : ∀ e, Decidable (Guarded w e)
  | .enqueue name group =>
    inferInstanceAs (Decidable (group ≠ [] → ∀ i ∈ w.logins name, ∀ c ∈ w.client i,
      c.writer = .notWriting ∨ 0 < c.requestQueueSize ∨ c.responseQueue ≠ []))
  | .connect _ | .poll _ | .writeError _ | .packet .. | .readError _ | .timeout _ | .shutdown =>
    .isTrue trivial

instance (w : World ν ρ) (e : Event ν ρ) :
    Decidable (((machine ν ρ).restrict Guarded).enabled w e) :=
  inferInstanceAs (Decidable (enabled w e ∧ Guarded w e))

/-- A client has answered its only request before the writer was polled again. -/
def answeredEarly : List (Event ℤ String) :=
  [.connect "a", .packet 0 (.S "core"),
   .enqueue "core" [asking 1 "list"], .poll 0, .packet 0 (.S "one")]

/-- The writer gets to know, and then there are two more requests. -/
def answeredLater : List (Event ℤ String) :=
  answeredEarly ++ [.poll 0, .enqueue "core" [asking 2 "call"], .enqueue "core" [], .poll 0,
    .enqueue "core" [asking 3 "call"]]

theorem watchdog_armed_answeredLater :
    ∃ c ∈ ((machine ℤ String).exec .start answeredLater).client 0, c.requestQueueSize = 1 ∧
      c.timeout = true := by
  have hclient :
      ∃ c ∈ ((machine ℤ String).exec .start answeredLater).client 0, c.requestQueueSize = 1 := by
    decide +kernel
  obtain ⟨c, hc, hsize⟩ := hclient
  have hpos : 0 < c.requestQueueSize := by omega
  exact ⟨c, hc, hsize, (watchdog_armed answeredLater (by decide +kernel) 0 c hc).1.mpr (.inl hpos)⟩

/-- The next request comes before that. It is sent, and nothing watches for its response. -/
theorem watchdog_off :
    let w := (machine ℤ String).exec .start
      (answeredEarly ++ [.enqueue "core" [asking 2 "call"], .poll 0])
    (machine ℤ String).Valid .start (answeredEarly ++ [.enqueue "core" [asking 2 "call"], .poll 0]) ∧
      ∃ c ∈ w.client 0, c.login = some "core" ∧ c.timeout = false ∧ c.responseQueue ≠ [] := by
  intro w
  exact ⟨by decide +kernel, by decide +kernel⟩

end Server
end OCRemote
