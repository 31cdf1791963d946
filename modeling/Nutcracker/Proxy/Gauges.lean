import Nutcracker.Lib.Ledger
import Nutcracker.Proxy.Wakeup

/-!
# Gauges

The gauges of a server and of a pool are kept by hand: they are changed where connections come
and go and where messages enter and leave the queues.  What an action posts is compared with
what it does.
-/

namespace Nutcracker

open Lib

/-- The gauges of a server. -/
inductive Gauge where
  | serverConnections
  | inQueue
  | inQueueBytes
  | outQueue
  | outQueueBytes
  deriving DecidableEq, Repr

/-- `conn->connected`: `server_connect` and `server_connected` set it where they leave `connecting`
clear, and `server_close` clears it. -/
def ServerConn.connected (conn : ServerConn) : Bool :=
  conn.isOpen && !conn.connecting

/-! ## What is posted -/

section Posted

variable (mlen : Nat → Nat) (m : Nat)

/-- `req_server_enqueue_imsgq` and `req_server_enqueue_imsgq_head`. -/
def reqServerEnqueueImsgq : Gauge → Int
  | .inQueue => 1
  | .inQueueBytes => mlen m
  | _ => 0

def reqServerDequeueImsgq : Gauge → Int
  | .inQueue => -1
  | .inQueueBytes => -mlen m
  | _ => 0

def reqServerEnqueueOmsgq : Gauge → Int
  | .outQueue => 1
  | .outQueueBytes => mlen m
  | _ => 0

def reqServerDequeueOmsgq : Gauge → Int
  | .outQueue => -1
  | .outQueueBytes => -mlen m
  | _ => 0

end Posted

def serverCloseStats (conn : ServerConn) : Gauge → Int
  | .serverConnections => if conn.connected then -1 else 0
  | _ => 0

def serverConnected : Gauge → Int
  | .serverConnections => 1
  | _ => 0

namespace Proxy

/-- What an action posts to the gauges, under the connections on whose account it does so.  The
messages have the lengths `mlen`, which do not change while a server has them.  `server_close`
calls `server_close_stats` before it empties the queues. -/
def postings (hs : Handshake) (mlen : Nat → Nat) (σ : Proxy) : Action → List (Nat × (Gauge → Int))
  | .forward s =>
    match σ.current with
    | none => []
    | some m =>
      (if hs.requireAuth && !(σ.servers s).authenticated then
        [(s, reqServerEnqueueImsgq mlen σ.fresh)]
      else []) ++ [(s, reqServerEnqueueImsgq mlen m)]
  | .dropIn s =>
    match (σ.servers s).imsgq with
    | [] => []
    | m :: _ => [(s, reqServerDequeueImsgq mlen m)]
  | .dropOut s =>
    match (σ.servers s).omsgq with
    | [] => []
    | m :: _ => [(s, reqServerDequeueOmsgq mlen m)]
  | .shut s => [(s, serverCloseStats (σ.servers s))]
  | .connected s =>
    (s, serverConnected) ::
      if hs.selectDb then [(s, reqServerEnqueueImsgq mlen σ.fresh)] else []
  | .sent s =>
    match (σ.servers s).imsgq with
    | [] => []
    | m :: _ =>
      (s, reqServerDequeueImsgq mlen m) ::
        if (σ.msgs m).noreply then [] else [(s, reqServerEnqueueOmsgq mlen m)]
  | .reply s _ =>
    match (σ.servers s).omsgq, (σ.servers s).backend with
    | m :: _, _ :: _ => [(s, reqServerDequeueOmsgq mlen m)]
    | _, _ => []
  | _ => []

/-- `client_connections`: what `proxy_accept` and `client_close_stats` post. -/
def clientPostings : Action → List (Nat × Int)
  | .accept c => [(c, 1)]
  | .shutClient c => [(c, -1)]
  | _ => []

/-- A connect that succeeds at once: `server_connect` posts nothing for it. -/
def unposted : Action → List (Nat × (Gauge → Int))
  | .connect s true => [(s, serverConnected)]
  | _ => []

/-- An action connects to the server at once. -/
def connectsAtOnce (owner : Nat → Nat) (k : Nat) : Action → Bool
  | .connect s true => owner s = k
  | _ => false

/-! ## What there is -/

/-- The part of a connection in the state that the gauges of its server describe. -/
def level (mlen : Nat → Nat) (conn : ServerConn) : Gauge → Int
  | .serverConnections => if conn.connected then 1 else 0
  | .inQueue => conn.imsgq.length
  | .inQueueBytes => (conn.imsgq.map mlen).sum
  | .outQueue => conn.omsgq.length
  | .outQueueBytes => (conn.omsgq.map mlen).sum

def clientLevel (conn : ClientConn) : Int :=
  if conn.isOpen then 1 else 0

/-! ## One action -/

section Step

variable {hs : Handshake} {σ : Proxy} (mlen : Nat → Nat)

theorem level_update (s : Nat) (conn : ServerConn) (s' : Nat) (amount : Gauge → Int)
    (changed : level mlen conn = level mlen (σ.servers s) + amount) :
    level mlen (Function.update σ.servers s conn s') =
      level mlen (σ.servers s') + posted (· = s') [(s, amount)] := by
  by_cases here : s = s'
  · subst here
    rw [Function.update_self, changed]
    simp
  · rw [Function.update_of_ne (Ne.symm here)]
    simp [here]

theorem level_enqueueIn (conn : ServerConn) (m : Nat) :
    level mlen { conn with imsgq := conn.imsgq ++ [m] } =
      level mlen conn + reqServerEnqueueImsgq mlen m := by
  funext g
  cases g <;> simp [level, reqServerEnqueueImsgq, ServerConn.connected]

/-- A message leaves the front of `imsg_q`. -/
theorem level_dequeueIn {conn : ServerConn} {m : Nat} {ms : List Nat}
    (queued : conn.imsgq = m :: ms) :
    level mlen { conn with imsgq := ms } = level mlen conn + reqServerDequeueImsgq mlen m := by
  funext g
  cases g <;> simp [level, reqServerDequeueImsgq, ServerConn.connected, queued]

theorem level_enqueueOut (conn : ServerConn) (m : Nat) (backend : List Nat) :
    level mlen { conn with omsgq := conn.omsgq ++ [m], backend := backend } =
      level mlen conn + reqServerEnqueueOmsgq mlen m := by
  funext g
  cases g <;> simp [level, reqServerEnqueueOmsgq, ServerConn.connected]

/-- A message leaves the front of `omsg_q`. -/
theorem level_dequeueOut {conn : ServerConn} {m : Nat} {ms : List Nat}
    (queued : conn.omsgq = m :: ms)
    (backend : List Nat) :
    level mlen { conn with omsgq := ms, backend := backend } =
      level mlen conn + reqServerDequeueOmsgq mlen m := by
  funext g
  cases g <;> simp [level, reqServerDequeueOmsgq, ServerConn.connected, queued]

theorem level_forward (s m s' : Nat) :
    level mlen ((σ.forward hs s m).servers s') = level mlen (σ.servers s') +
      posted (· = s') ((if hs.requireAuth && !(σ.servers s).authenticated then
        [(s, reqServerEnqueueImsgq mlen σ.fresh)] else []) ++
          [(s, reqServerEnqueueImsgq mlen m)]) := by
  rw [servers_forward]
  split
  · rw [List.singleton_append, posted_pair]
    refine level_update mlen s _ s' _ ?_
    rw [← add_assoc, ← level_enqueueIn, ← level_enqueueIn]
    rfl
  · refine level_update mlen s _ s' (reqServerEnqueueImsgq mlen m) ?_
    rw [← level_enqueueIn, List.append_nil]
    rfl

theorem level_connected {s : Nat} (isOpen : (σ.servers s).isOpen = true)
    (connecting : (σ.servers s).connecting = true) (s' : Nat) :
    level mlen ((σ.act hs (.connected s)).servers s') = level mlen (σ.servers s') +
      posted (· = s') (postings hs mlen σ (.connected s)) := by
  have joined : level mlen { σ.servers s with connecting := false } =
      level mlen (σ.servers s) + serverConnected := by
    funext g
    cases g <;> simp [level, serverConnected, ServerConn.connected, isOpen, connecting]
  simp only [Proxy.act, postConnect, postings]
  split
  · rw [posted_pair, ← level_update mlen s
      { σ.servers s with connecting := false, imsgq := σ.fresh :: (σ.servers s).imsgq } s']
    · simp
    · rw [← add_assoc, ← joined]
      funext g
      cases g <;> simp [level, reqServerEnqueueImsgq, ServerConn.connected, add_comm]
  · exact level_update mlen s _ s' serverConnected joined

theorem level_sent (s s' : Nat) :
    level mlen ((σ.sent s).servers s') = level mlen (σ.servers s') +
      posted (· = s') (postings hs mlen σ (.sent s)) := by
  cases queued : (σ.servers s).imsgq with
  | nil => simp [Proxy.sent, postings, queued]
  | cons m ms =>
    simp only [Proxy.sent, postings, queued]
    split
    · exact level_update mlen s _ s' _ (level_dequeueIn mlen queued)
    · rw [posted_pair]
      refine level_update mlen s _ s' _ ?_
      rw [← add_assoc, ← level_dequeueIn mlen queued, ← level_enqueueOut]

/-- What an action does to the connections is what it posts, except for a connect that succeeds at
once. -/
theorem level_act (sound : σ.Sound) {a : Action} (enabled : σ.Enabled a) (s' : Nat) :
    level mlen ((σ.act hs a).servers s') = level mlen (σ.servers s') +
      (posted (· = s') (postings hs mlen σ a) + posted (· = s') (unposted a)) := by
  have unchanged : level mlen (σ.servers s') = level mlen (σ.servers s') + (0 + 0) := by simp
  cases a with
  | accept c => exact unchanged
  | answer c => exact unchanged
  | fragment c n => exact unchanged
  | enqueue c noreply => cases noreply <;> exact unchanged
  | connect s immediate =>
    have empty := sound.custody.server_closed s enabled
    obtain ⟨noIn, noOut⟩ := List.append_eq_nil_iff.mp empty
    have closed : (σ.servers s).isOpen = false := enabled
    simp only [Proxy.act, servers_modServer, postings, posted_nil, zero_add]
    cases immediate with
    | false =>
      refine (level_update mlen s _ s' 0 ?_).trans ?_
      · funext g
        cases g <;> simp [level, ServerConn.connected, noIn, noOut, closed]
      · simp [unposted]
    | true =>
      refine level_update mlen s _ s' serverConnected ?_
      funext g
      cases g <;> simp [level, serverConnected, ServerConn.connected, noIn, noOut, closed]
  | forward s =>
    obtain ⟨m, held, act⟩ := enabled.forward hs
    simp only [act, postings, unposted, posted_nil, add_zero, held]
    exact level_forward mlen s m s'
  | refuse =>
    obtain ⟨m, held, act⟩ := enabled.refuse hs
    rw [act]
    rw [servers_refuse]
    exact unchanged
  | dropIn s =>
    cases queued : (σ.servers s).imsgq with
    | nil => exact absurd queued enabled
    | cons m ms =>
      simp only [Proxy.act, Proxy.dropIn, postings, unposted, posted_nil, add_zero, queued]
      rw [servers_drop]
      exact level_update mlen s _ s' _ (level_dequeueIn mlen queued)
  | dropOut s =>
    cases queued : (σ.servers s).omsgq with
    | nil => exact absurd queued enabled
    | cons m ms =>
      simp only [Proxy.act, Proxy.dropOut, postings, unposted, posted_nil, add_zero, queued]
      rw [servers_drop]
      exact level_update mlen s _ s' _ (level_dequeueOut mlen queued _)
  | shut s =>
    obtain ⟨noIn, noOut⟩ := List.append_eq_nil_iff.mp enabled
    simp only [Proxy.act, servers_modServer, postings, unposted, posted_nil, add_zero]
    refine level_update mlen s _ s' _ ?_
    have closed : ({} : ServerConn).connected = false := rfl
    funext g
    cases up : (σ.servers s).connected <;>
      cases g <;> simp [level, serverCloseStats, closed, up, noIn, noOut]
  | connected s =>
    simp only [unposted, posted_nil, add_zero]
    exact level_connected mlen enabled.1 enabled.2 s'
  | sent s =>
    simp only [unposted, posted_nil, add_zero]
    exact level_sent mlen s s'
  | serverIdle s =>
    refine (level_update mlen s { σ.servers s with sendActive := false } s' 0 ?_).trans ?_
    · rw [add_zero]
      rfl
    · simp [postings, unposted]
  | reply s bad =>
    cases queued : (σ.servers s).omsgq with
    | nil => exact absurd queued enabled.1
    | cons m ms =>
      cases received : (σ.servers s).backend with
      | nil => exact absurd received enabled.2
      | cons b bs =>
        simp only [Proxy.act, Proxy.reply, postings, unposted, posted_nil, add_zero, queued,
          received]
        rw [servers_linked]
        exact level_update mlen s _ s' _ (level_dequeueOut mlen queued _)
  | shutClient c => exact unchanged
  | offer c i =>
    simp only [Proxy.act, servers_offer]
    exact unchanged
  | finish c m => exact unchanged
  | clientIdle c => exact unchanged

theorem clientLevel_update (c : Nat) (conn : ClientConn) (c' : Nat) (amount : Int)
    (changed : clientLevel conn = clientLevel (σ.clients c) + amount) :
    clientLevel (Function.update σ.clients c conn c') =
      clientLevel (σ.clients c') + posted (· = c') [(c, amount)] := by
  by_cases here : c = c'
  · subst here
    rw [Function.update_self, changed]
    simp
  · rw [Function.update_of_ne (Ne.symm here)]
    simp [here]

theorem isOpen_offer (c i c' : Nat) :
    ((σ.offer c i).clients c').isOpen = (σ.clients c').isOpen := by
  obtain ⟨msgs, log, queue, eq⟩ := offer_eq σ c i
  rw [eq]
  exact (sameOpen_modClient _ c _ rfl).clients c'

/-- What an action does to the clients is what it posts. -/
theorem clientLevel_act {a : Action} (enabled : σ.Enabled a) (c' : Nat) :
    clientLevel ((σ.act hs a).clients c') =
      clientLevel (σ.clients c') + posted (· = c') (clientPostings a) := by
  have unchanged {τ : Proxy} (same : (τ.clients c').isOpen = (σ.clients c').isOpen) :
      clientLevel (τ.clients c') = clientLevel (σ.clients c') + 0 := by
    rw [add_zero, clientLevel, clientLevel, same]
  cases a with
  | accept c =>
    have closed : (σ.clients c).isOpen = false := enabled.1
    refine clientLevel_update c _ c' 1 ?_
    simp [clientLevel, closed]
  | shutClient c =>
    refine clientLevel_update c _ c' (-1) ?_
    simp [clientLevel, enabled.1]
  | answer c =>
    refine unchanged ?_
    simp only [Proxy.act, Proxy.answer]
    rw [(sameOpen_modClient _ c _ rfl).clients c', isOpen_join]
  | fragment c n => exact unchanged (isOpen_join c _ c')
  | enqueue c noreply =>
    cases noreply with
    | false => exact unchanged (isOpen_join c _ c')
    | true => exact unchanged rfl
  | connect s immediate => exact unchanged rfl
  | forward s =>
    obtain ⟨m, held, act⟩ := enabled.forward hs
    rw [act]
    exact unchanged ((forwarded_forward σ s m).isOpen c')
  | refuse =>
    obtain ⟨m, held, act⟩ := enabled.refuse hs
    rw [act]
    exact unchanged ((forwarded_refuse σ m).isOpen c')
  | dropIn s => exact unchanged ((steady_dropIn σ s).isOpen c')
  | dropOut s => exact unchanged ((steady_dropOut σ s).isOpen c')
  | shut s => exact unchanged rfl
  | connected s => exact unchanged ((steady_connected σ s).isOpen c')
  | sent s => exact unchanged ((steady_sent hs σ s).isOpen c')
  | serverIdle s => exact unchanged rfl
  | reply s bad => exact unchanged ((steady_reply σ s bad).isOpen c')
  | offer c i => exact unchanged (isOpen_offer c i c')
  | finish c m =>
    refine unchanged ?_
    simp only [Proxy.act]
    exact (sameOpen_modClient σ c _ rfl).clients c'
  | clientIdle c =>
    refine unchanged ?_
    simp only [Proxy.act]
    exact (sameOpen_modClient σ c _ rfl).clients c'

end Step

/-! ## Runs -/

/-- What a sequence of actions posts. -/
def ledger (hs : Handshake) (mlen : Nat → Nat) : Proxy → List Action → List (Nat × (Gauge → Int))
  | _, [] => []
  | σ, a :: as => postings hs mlen σ a ++ ledger hs mlen (σ.act hs a) as

section Runs

variable {hs : Handshake} {σ : Proxy} {as : List Action}

theorem level_outcome (mlen : Nat → Nat) (sound : σ.Sound) (takes : Takes hs σ as) (s : Nat) :
    level mlen ((outcome hs σ as).servers s) = level mlen (σ.servers s) +
      (posted (· = s) (ledger hs mlen σ as) + posted (· = s) (as.flatMap unposted)) := by
  induction as generalizing σ with
  | nil => simp [outcome, ledger]
  | cons a as ih =>
    have rest := ih (sound.act takes.1) takes.2
    rw [level_act mlen sound takes.1 s] at rest
    refine rest.trans ?_
    rw [add_assoc, add_add_add_comm]
    simp only [ledger, List.flatMap_cons, posted_append]

theorem clientLevel_outcome (takes : Takes hs σ as) (c : Nat) :
    clientLevel ((outcome hs σ as).clients c) =
      clientLevel (σ.clients c) + posted (· = c) (as.flatMap clientPostings) := by
  induction as generalizing σ with
  | nil => simp [outcome]
  | cons a as ih =>
    have rest := ih takes.2
    rw [clientLevel_act takes.1 c] at rest
    refine rest.trans ?_
    rw [add_assoc]
    simp only [List.flatMap_cons, posted_append]

end Runs

/-! ## Servers and pools -/

section Exact

variable (hs : Handshake) (mlen : Nat → Nat) (owner pool : Nat → Nat) (as : List Action)

/-- The value of a gauge of a server after a sequence of actions: all that was posted on account of
its connections. -/
def serverGauge (k : Nat) (g : Gauge) : Int :=
  posted (fun s => owner s = k) (ledger hs mlen {} as) g

/-- `client_connections` of a pool. -/
def clientGauge (k : Nat) : Int :=
  posted (fun c => pool c = k) (as.flatMap clientPostings)

/-- What the gauges of a server describe, over all its connections. -/
noncomputable def serverState (σ : Proxy) (k : Nat) (g : Gauge) : Int :=
  ∑ᶠ s ∈ {s | owner s = k}, level mlen (σ.servers s) g

/-- The number of the open client connections of a pool. -/
noncomputable def clientState (σ : Proxy) (k : Nat) : Int :=
  ∑ᶠ c ∈ {c | pool c = k}, clientLevel (σ.clients c)

/-- The gauges are the state that they describe. -/
structure GaugesExact : Prop where
  server : ∀ k g, serverGauge hs mlen owner as k g = serverState mlen owner (outcome hs {} as) k g
  client : ∀ k, clientGauge pool as k = clientState pool (outcome hs {} as) k
  server_nonneg : ∀ k g, 0 ≤ serverGauge hs mlen owner as k g
  client_nonneg : ∀ k, 0 ≤ clientGauge pool as k

variable {hs as}

theorem serverState_eq (takes : Takes hs {} as) (k : Nat) (g : Gauge) :
    serverState mlen owner (outcome hs {} as) k g = serverGauge hs mlen owner as k g +
      posted (fun s => owner s = k) (as.flatMap unposted) g := by
  unfold serverState serverGauge
  have start : level mlen ({} : ServerConn) = 0 := by
    funext g
    cases g <;> rfl
  have total := finsum_posted (fun s => owner s = k)
    ((ledger hs mlen {} as ++ as.flatMap unposted).map fun entry =>
      (entry.1, Pi.evalAddMonoidHom (fun _ : Gauge => Int) g entry.2))
  rw [posted_map, posted_append] at total
  refine Eq.trans (finsum_mem_congr rfl fun s _ => ?_) total
  rw [posted_map, posted_append, level_outcome mlen sound_start takes s]
  exact congrFun ((congrArg (· + _) start).trans (zero_add _)) g

theorem clientState_eq (takes : Takes hs {} as) (k : Nat) :
    clientState pool (outcome hs {} as) k = clientGauge pool as k := by
  unfold clientState clientGauge
  rw [← finsum_posted]
  refine finsum_mem_congr rfl fun c _ => ?_
  rw [clientLevel_outcome takes c]
  exact zero_add _

/-- The connects to a server that succeed at once are missing in `server_connections`. -/
theorem posted_unposted (k : Nat) :
    posted (fun s => owner s = k) (as.flatMap unposted) .serverConnections =
      as.countP (connectsAtOnce owner k) := by
  induction as with
  | nil => rfl
  | cons a as ih =>
    have first : posted (fun s => owner s = k) (unposted a) .serverConnections =
        if connectsAtOnce owner k a then 1 else 0 := by
      unfold unposted connectsAtOnce
      split
      · rename_i s
        by_cases own : owner s = k
        · simp [own, serverConnected]
        · simp [own]
      · rfl
    rw [List.flatMap_cons, posted_append, Pi.add_apply, ih, first, List.countP_cons]
    split
    · push_cast
      exact add_comm _ _
    · simp

/-- Whether the gauges of all servers and pools are exact after a run. -/
theorem gauges_exact_iff (takes : Takes hs {} as) :
    GaugesExact hs mlen owner pool as ↔ ∀ s, Action.connect s true ∉ as := by
  constructor
  · intro exact_ s inside
    have equal := exact_.server (owner s) .serverConnections
    rw [serverState_eq mlen owner takes, posted_unposted] at equal
    have counted : 0 < as.countP (connectsAtOnce owner (owner s)) :=
      List.countP_pos_iff.mpr ⟨_, inside, decide_eq_true rfl⟩
    omega
  · intro asynchronous
    have missing : as.flatMap unposted = [] := by
      refine List.flatMap_eq_nil_iff.mpr fun a inside => ?_
      unfold unposted
      split
      · exact absurd inside (asynchronous _)
      · rfl
    have server : ∀ k g,
        serverGauge hs mlen owner as k g = serverState mlen owner (outcome hs {} as) k g := by
      intro k g
      rw [serverState_eq mlen owner takes, missing]
      exact (add_zero _).symm
    have client := fun k => (clientState_eq pool takes k).symm
    refine ⟨server, client, fun k g => ?_, fun k => ?_⟩
    · rw [server]
      refine finsum_nonneg fun s => finsum_nonneg fun _ => ?_
      cases g <;> simp only [level]
      · split <;> decide
      all_goals exact Int.natCast_nonneg _
    · rw [client]
      refine finsum_nonneg fun c => finsum_nonneg fun _ => ?_
      unfold clientLevel
      split <;> decide

end Exact

/-- A request on a connection that is established later. -/
theorem gauges_exact_asynchronous :
    GaugesExact ⟨false, false⟩ (fun _ => 24) (fun _ => 0) (fun _ => 0)
      [.accept 0, .enqueue 0 false, .connect 0 false, .forward 0, .connected 0, .sent 0] := by
  refine (gauges_exact_iff _ _ _ ?_).mpr (by simp)
  exact ⟨⟨rfl, rfl⟩, ⟨rfl, rfl, nofun⟩, rfl, ⟨rfl, nofun⟩, ⟨rfl, rfl⟩, ⟨nofun, rfl⟩, trivial⟩

/-- The server accepts at once, as on a Unix socket, and the connection is closed later:
`server_connections` is -1. -/
theorem gauges_not_exact :
    let as : List Action :=
      [.accept 0, .enqueue 0 false, .connect 0 true, .forward 0, .dropIn 0, .shut 0]
    Takes ⟨false, false⟩ {} as ∧
      serverGauge ⟨false, false⟩ (fun _ => 24) (fun _ => 0) as 0 .serverConnections = -1 ∧
      ¬ GaugesExact ⟨false, false⟩ (fun _ => 24) (fun _ => 0) (fun _ => 0) as := by
  refine ⟨⟨⟨rfl, rfl⟩, ⟨rfl, rfl, nofun⟩, rfl, ⟨rfl, nofun⟩, nofun, rfl, trivial⟩, rfl, ?_⟩
  intro exact_
  have nonneg := exact_.server_nonneg 0 .serverConnections
  revert nonneg
  decide

end Proxy

end Nutcracker
