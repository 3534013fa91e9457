import Mathlib.Algebra.Order.Monoid.Unbundled.WithTop
import OCRemote.Lib.FirstBest
import OCRemote.Server.Pairing

/-! Which of several accesses a request goes to (`server.rs`, `Server.h`). -/

namespace OCRemote
namespace Server
open OrderDual
variable {ν ρ : Type}

def Client.estimateLoad (c : Client ν ρ) : ℕ := c.requestQueueSize + c.responseQueue.length

namespace World

/-- `Server::estimate_load`, where the top element stands for `usize::MAX`. -/
def estimateLoad (w : World ν ρ) (name : String) : WithTop ℕ :=
  match (w.logins name).bind w.client with
  | some c => c.estimateLoad
  | none => ⊤

/-- The position that `load_balance` returns, for accesses with these clients. No value means that
there is no access. -/
def loadBalance (w : World ν ρ) (clients : List String) : Option ℕ :=
  (FirstBest.firstBest (fun name => some (w.estimateLoad name))
    (fun load best => decide (load < best)) clients).map Prod.fst

/-- The same of the C++ server, whose `bestCount` starts above all others, with the first access. -/
def getBestAccess (w : World ν ρ) (clients : List String) : Option ℕ :=
  (FirstBest.scan (fun name => some (w.estimateLoad name))
    (fun count best => decide (count < best)) 0 clients
    (clients.head?.map fun _ => (0, ⊤))).map Prod.fst

/-- How many requests that the client of this name accepted are not completed. -/
def outstanding (w : World ν ρ) (name : String) : WithTop ℕ :=
  match (w.logins name).bind (w.connections[·]?) with
  | some k => (k.accepted.countP fun r => r.1 ∉ w.completions.map Prod.fst : ℕ)
  | none => ⊤

end World

variable {w : World ν ρ} {k : Connection ν ρ} {c : Client ν ρ}

/-- What waits for a client is not completed. -/
theorem Inv.pending_open (h : Inv w) {i : ℕ} {c : Client ν ρ} (hc : w.client i = some c) :
    ∀ x ∈ c.pending, x.id ∉ w.completions.map Prod.fst := by
  intro x hx hdone
  obtain ⟨k, hk, hkc⟩ := World.exists_connection hc
  have hwaits : x.id ∈ w.pendingIds := by
    refine List.mem_flatMap.mpr ⟨k, List.mem_of_getElem? hk, ?_⟩
    rw [pendingIds_some hkc]
    exact List.mem_map_of_mem hx
  have hnodup := h.perm.nodup_iff.mpr h.nodup
  exact List.disjoint_of_nodup_append hnodup hdone hwaits

/-- What a client accepted was answered, waits for its response, or was not sent. -/
theorem Live.accepted_ids (h : Live k c) :
    k.accepted.map Prod.fst =
      k.delivered.map Prod.fst ++
        (c.responseQueue ++ c.requestQueue.flatten).map ActionState.id := by
  rw [← h.order, List.map_append, map_fst_request h.ready, ← h.waiting, List.map_append,
    List.append_assoc]

/-- What waits for a client is what it accepted and what is not completed. -/
theorem Inv.estimateLoad_eq (h : Inv w) {i : ℕ} (hk : w.connections[i]? = some k)
    (hc : k.client = some c) :
    c.estimateLoad = k.accepted.countP fun r => r.1 ∉ w.completions.map Prod.fst := by
  have hok := h.connections k (List.mem_of_getElem? hk)
  have hlive := hok.live c hc
  have hclient : w.client i = some c := by
    unfold World.client
    rw [hk]
    exact hc
  have hanswered : (k.delivered.map Prod.fst).countP (· ∉ w.completions.map Prod.fst) = 0 := by
    refine List.countP_eq_zero.mpr fun id hid => ?_
    obtain ⟨p, hp, rfl⟩ := List.mem_map.mp hid
    obtain ⟨result, hresult⟩ := hok.answered p hp
    simpa using ⟨_, hresult⟩
  have hopen : ((c.responseQueue ++ c.requestQueue.flatten).map ActionState.id).countP
      (· ∉ w.completions.map Prod.fst) =
        c.responseQueue.length + c.requestQueue.flatten.length := by
    rw [← List.length_append, ← List.length_map ActionState.id]
    refine List.countP_eq_length.mpr fun id hid => decide_eq_true ?_
    obtain ⟨x, hx, rfl⟩ := List.mem_map.mp hid
    refine h.pending_open hclient x ?_
    rw [Client.pending, List.mem_append]
    exact (List.mem_append.mp hx).symm
  calc c.estimateLoad = c.requestQueueSize + c.responseQueue.length := rfl
    _ = c.responseQueue.length + c.requestQueue.flatten.length := by
      rw [hlive.size, List.length_flatten, Nat.add_comm]
    _ = (k.accepted.map Prod.fst).countP (· ∉ w.completions.map Prod.fst) := by
      rw [hlive.accepted_ids, List.countP_append, hanswered, hopen, Nat.zero_add]
    _ = _ := List.countP_map

theorem Inv.outstanding_eq (h : Inv w) (name : String) :
    w.outstanding name = w.estimateLoad name := by
  unfold World.outstanding World.estimateLoad
  cases hlogin : w.logins name with
  | none => rfl
  | some i =>
    obtain ⟨c, hclient, -⟩ := h.logins name i hlogin
    obtain ⟨k, hk, hc⟩ := World.exists_connection hclient
    simp only [Option.bind_some, hk, hclient, h.estimateLoad_eq hk hc]

/-- The first of the least loads is found. -/
theorem World.loadBalance_least (w : World ν ρ) {clients : List String} (hne : clients ≠ []) :
    ∃ i name, w.loadBalance clients = some i ∧ clients[i]? = some name ∧
      ∀ j other, clients[j]? = some other → w.estimateLoad name ≤ w.estimateLoad other ∧
        (w.estimateLoad other = w.estimateLoad name → i ≤ j) := by
  -- a scan for the greatest in the opposite order
  have hleads := FirstBest.firstBest_leads
    (fun name => some (toDual (w.estimateLoad name))) clients
  have hscan : FirstBest.firstBest (fun name => some (toDual (w.estimateLoad name)))
      (fun k k' => decide (k' < k)) clients =
      FirstBest.firstBest (fun name => some (w.estimateLoad name))
        (fun load best => decide (load < best)) clients := rfl
  unfold World.loadBalance
  rw [hscan] at hleads
  cases hbest : FirstBest.firstBest (fun name => some (w.estimateLoad name))
      (fun load best => decide (load < best)) clients with
  | none =>
    rw [hbest] at hleads
    obtain ⟨name, hname⟩ := List.exists_mem_of_ne_nil clients hne
    simpa using hleads name hname
  | some best =>
    rw [hbest] at hleads
    obtain ⟨⟨name, hname, hload⟩, hleast⟩ := hleads
    refine ⟨best.1, name, rfl, hname, fun j other hother => ?_⟩
    have hle := hleast j other _ hother rfl
    rw [← Option.some_inj.mp hload] at hle
    exact hle

/-- Whatever the load of the first access is, it is the best one then. -/
theorem World.getBestAccess_eq (w : World ν ρ) (clients : List String) :
    w.getBestAccess clients = w.loadBalance clients := by
  cases clients with
  | nil => rfl
  | cons name clients =>
    unfold getBestAccess loadBalance FirstBest.firstBest
    simp only [FirstBest.scan, FirstBest.step, List.head?_cons, Option.map_some]
    split_ifs with hless
    · rfl
    · have htop : w.estimateLoad name = ⊤ := by simpa using hless
      rw [htop]

/-- Over every run of the server, no client is missing where loads are estimated, and a request goes
to the first of the accesses whose clients have the fewest requests that are not completed. With the
same clients the C++ server chooses the same access. -/
theorem least_loaded (es : List (Event ν ρ)) (hv : (machine ν ρ).Valid .start es)
    {clients : List String} (hne : clients ≠ []) :
    let w := (machine ν ρ).exec .start es
    (∀ name i, w.logins name = some i → (w.client i).isSome) ∧
      ∃ i name, w.loadBalance clients = some i ∧ w.getBestAccess clients = some i ∧
        clients[i]? = some name ∧
        ∀ j other, clients[j]? = some other → w.outstanding name ≤ w.outstanding other ∧
          (w.outstanding other = w.outstanding name → i ≤ j) := by
  intro w
  have hinv : Inv w := (machine ν ρ).invariant (fun _ _ hI he => hI.step he) start_inv hv
  obtain ⟨i, name, hi, hname, hleast⟩ := w.loadBalance_least hne
  refine ⟨fun name i hlogin => ?_, i, name, hi, (w.getBestAccess_eq clients).trans hi, hname,
    fun j other hother => ?_⟩
  · obtain ⟨c, hc, -⟩ := hinv.logins name i hlogin
    exact Option.isSome_iff_exists.mpr ⟨c, hc⟩
  · rw [hinv.outstanding_eq, hinv.outstanding_eq]
    exact hleast j other hother

/-- Another client comes. It is sent its request, while a second one waits for the first client. -/
def sharedServer : List (Event ℤ String) :=
  busyServer ++ [.connect "d", .packet 3 (.S "hub"), .enqueue "hub" [asking 7 "call"], .poll 3,
    .enqueue "core" [asking 8 "call"]]

theorem least_loaded_sharedServer :
    let w := (machine ℤ String).exec .start sharedServer
    w.loadBalance ["robot", "core", "hub", "hub"] = some 2 ∧ w.outstanding "robot" = ⊤ ∧
      w.outstanding "core" = (2 : ℕ) ∧ w.outstanding "hub" = (1 : ℕ) ∧
      ∃ i name, w.loadBalance ["robot", "core", "hub", "hub"] = some i ∧
        w.getBestAccess ["robot", "core", "hub", "hub"] = some i ∧
        ["robot", "core", "hub", "hub"][i]? = some name ∧
        ∀ j other, ["robot", "core", "hub", "hub"][j]? = some other →
          w.outstanding name ≤ w.outstanding other ∧
            (w.outstanding other = w.outstanding name → i ≤ j) :=
  ⟨by decide +kernel, by decide +kernel, by decide +kernel, by decide +kernel,
    (least_loaded sharedServer (by decide +kernel) (by decide)).2⟩

end Server
end OCRemote
