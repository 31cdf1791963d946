import Mathlib.Data.List.Infix

/-!
# The proxy as a state machine

Requests of many clients are multiplexed over few server connections.  A request
waits in the `omsg_q` of its client until it is answered; on the server side it is in
`imsg_q` until it is written and in `omsg_q` until the server replies.  Which reply
belongs to which request is a matter of position only.

The handlers of the event loop are cut into actions, each of which leaves the queues
in order; `Proxy.Events` composes them.  The local variables of the handler that
forwards a request are part of the state: the message that `req_forward` is about to
enqueue, and the vector request whose fragments are being forwarded.

Messages have numbers that are not used again.  A fragment id is unique to its vector
request, so a fragment and its owner carry the number of the owner in its place.
Messages can be allocated and events registered whenever that is needed.  The mark
`conn->err` is not part of the state: `redis_post_coalesce_mget` sets it on a client
whose reply it cannot build, and the client is closed the next time it is looked at,
which is one of the things that can happen to a client at any time.
-/

namespace Nutcracker

/-- The response that a request is linked to as its peer: one that the proxy makes itself, or
the one that a server produced for a request. -/
inductive Reply where
  | own
  | server (request : Nat)
  deriving DecidableEq, Repr

/-- The fields of `struct msg` that the queues depend on. -/
structure Req where
  owner : Option Nat := none
  noreply : Bool := false
  noforward : Bool := false
  swallow : Bool := false
  done : Bool := false
  error : Bool := false
  fdone : Bool := false
  ferror : Bool := false
  fragOwner : Option Nat := none
  nfrag : Nat := 0
  nfragDone : Nat := 0
  peer : Option Reply := none
  deriving DecidableEq, Repr

/-- A client connection. -/
structure ClientConn where
  isOpen : Bool := false
  omsgq : List Nat := []
  sendActive : Bool := false
  deriving DecidableEq, Repr

/-- A server connection, and the requests that the server at its other end has received and
still has to answer. -/
structure ServerConn where
  isOpen : Bool := false
  connecting : Bool := false
  authenticated : Bool := false
  sendActive : Bool := false
  imsgq : List Nat := []
  omsgq : List Nat := []
  backend : List Nat := []
  deriving DecidableEq, Repr

/-- A call of `post_coalesce`: the owner, its `nfrag`, and how many of its fragments were in the
queue of the client with `done` set. -/
structure Coalescing where
  owner : Nat
  nfrag : Nat
  ready : Nat
  deriving DecidableEq, Repr

/-- The connections and messages of the proxy, the message that `req_forward` is about to
enqueue, and the vector request that is being forwarded with the number of its fragments that
are left; and what is recorded of the past: the calls of `post_coalesce` and the messages on which
`req_forward_error` was called. -/
structure Proxy where
  msgs : Nat → Req := fun _ => {}
  fresh : Nat := 0
  clients : Nat → ClientConn := fun _ => {}
  servers : Nat → ServerConn := fun _ => {}
  current : Option Nat := none
  vector : Option (Nat × Nat) := none
  log : List Coalescing := []
  refused : List Nat := []

/-- What the pool asks of new server connections. -/
structure Handshake where
  requireAuth : Bool
  selectDb : Bool
  deriving DecidableEq, Repr

namespace Proxy

variable (σ : Proxy)

/-! ## Access and change -/

/-- The requests a client waits for. -/
def omsgq (c : Nat) : List Nat :=
  (σ.clients c).omsgq

/-- The messages on a server connection. -/
def queue (s : Nat) : List Nat :=
  (σ.servers s).imsgq ++ (σ.servers s).omsgq

def modMsg (m : Nat) (f : Req → Req) : Proxy :=
  { σ with msgs := Function.update σ.msgs m (f (σ.msgs m)) }

def modClient (c : Nat) (f : ClientConn → ClientConn) : Proxy :=
  { σ with clients := Function.update σ.clients c (f (σ.clients c)) }

def modServer (s : Nat) (f : ServerConn → ServerConn) : Proxy :=
  { σ with servers := Function.update σ.servers s (f (σ.servers s)) }

/-- A new message gets the next number. -/
def alloc (r : Req) : Proxy :=
  { σ with msgs := Function.update σ.msgs σ.fresh r, fresh := σ.fresh + 1 }

/-! ## Requests that are done -/

/-- The requests next to `m` that belong to the same vector request. -/
def siblings (m : Nat) (queue : List Nat) : List Nat :=
  queue.takeWhile fun x => (σ.msgs x).fragOwner == (σ.msgs m).fragOwner

/-- What `req_done` returns on a request, given those before it in the queue, nearest first, and
those after it. -/
def reqDone (before : List Nat) (m : Nat) (after : List Nat) : Bool :=
  let r := σ.msgs m
  r.done && (r.fragOwner.isNone || r.fdone ||
    (decide (r.nfrag ≤ r.nfragDone) &&
      (σ.siblings m before ++ σ.siblings m after).all fun x => (σ.msgs x).done))

/-- The fragments of a vector request that are done and in the queue of the client. -/
def ready (o : Nat) : Nat :=
  (((σ.msgs o).owner.map σ.omsgq).getD []).countP fun x =>
    x != o && (σ.msgs x).fragOwner == some o && (σ.msgs x).done

/-- What `req_done` does: the first time it finds a vector request done, it marks all its
messages and has it coalesced. -/
def markDone (before : List Nat) (m : Nat) (after : List Nat) : Proxy :=
  match (σ.msgs m).fragOwner with
  | none => σ
  | some o =>
    if σ.reqDone before m after && !(σ.msgs m).fdone then
      { σ with
        msgs := fun x =>
          if x ∈ m :: (σ.siblings m before ++ σ.siblings m after) then
            { σ.msgs x with fdone := true }
          else σ.msgs x
        log := σ.log ++ [⟨o, (σ.msgs o).nfrag, σ.ready o⟩] }
    else σ

/-- `req_done` on the first request of a client, and the write event if it is done. -/
def wake (c : Nat) : Proxy :=
  match σ.omsgq c with
  | [] => σ
  | m :: after =>
    if σ.reqDone [] m after then
      (σ.markDone [] m after).modClient c fun conn => { conn with sendActive := true }
    else σ

/-- What `req_error` returns on a request that is done. -/
def reqError (before : List Nat) (m : Nat) (after : List Nat) : Bool :=
  let r := σ.msgs m
  r.error || (r.fragOwner.isSome && (r.ferror ||
    (σ.siblings m before ++ σ.siblings m after).any fun x => (σ.msgs x).error))

/-- The marks of `req_error`. -/
def markError (before : List Nat) (m : Nat) (after : List Nat) : Proxy :=
  let r := σ.msgs m
  if !r.error && r.fragOwner.isSome && !r.ferror && σ.reqError before m after then
    { σ with
      msgs := fun x =>
        if x ∈ m :: (σ.siblings m before ++ σ.siblings m after) then
          { σ.msgs x with ferror := true }
        else σ.msgs x }
  else σ

/-- A request is answered, or fails: it is done, and counts for its vector request. -/
def complete (m : Nat) (f : Req → Req) : Proxy :=
  let σ' := σ.modMsg m fun r => f { r with done := true }
  match (σ.msgs m).fragOwner with
  | some o => σ'.modMsg o fun r => { r with nfragDone := r.nfragDone + 1 }
  | none => σ'

/-- The client of a message is told. -/
def wakeOwner (m : Nat) : Proxy :=
  match (σ.msgs m).owner with
  | some c => σ.wake c
  | none => σ

end Proxy

/-! ## Actions -/

inductive Action where
  /-- A client connects. -/
  | accept (c : Nat)
  /-- The proxy answers a request itself. -/
  | answer (c : Nat)
  /-- A vector request of `n` fragments is enqueued. -/
  | fragment (c n : Nat)
  /-- The beginning of `req_forward`. -/
  | enqueue (c : Nat) (noreply : Bool)
  /-- A server connection is opened; `immediate` if the connect succeeds at once. -/
  | connect (s : Nat) (immediate : Bool)
  /-- The end of `req_forward`, on a connection. -/
  | forward (s : Nat)
  /-- The end of `req_forward` without a connection: `req_forward_error`. -/
  | refuse
  /-- `server_close` on the first message of `imsg_q`. -/
  | dropIn (s : Nat)
  /-- `server_close` on the first message of `omsg_q`. -/
  | dropOut (s : Nat)
  /-- The end of `server_close`. -/
  | shut (s : Nat)
  /-- `server_connected`. -/
  | connected (s : Nat)
  /-- `req_send_done` on the first message of `imsg_q`. -/
  | sent (s : Nat)
  /-- `req_send_next` on an empty `imsg_q`. -/
  | serverIdle (s : Nat)
  /-- A reply of the server is swallowed or forwarded; `bad` if its type is wrong for a
  fragment. -/
  | reply (s : Nat) (bad : Bool)
  /-- `client_close`. -/
  | shutClient (c : Nat)
  /-- `rsp_send_next` on the request at a position of the queue, which is done. -/
  | offer (c i : Nat)
  /-- `rsp_send_done`. -/
  | finish (c m : Nat)
  /-- `rsp_send_next` when the first request is not done. -/
  | clientIdle (c : Nat)
  deriving DecidableEq, Repr

namespace Proxy

variable (hs : Handshake) (σ : Proxy)

/-- A new message at the end of the queue of a client. -/
def join (c : Nat) (r : Req) : Proxy :=
  (σ.alloc r).modClient c fun conn => { conn with omsgq := conn.omsgq ++ [σ.fresh] }

/-- `req_make_reply` for a request that is not forwarded, and the write event. -/
def answer (c : Nat) : Proxy :=
  (σ.join c
      { owner := some c, noforward := true, done := true, peer := some .own }).modClient c
    fun conn => { conn with sendActive := true }

/-- `req_make_reply` for a vector request of `n` fragments. -/
def fragment (c n : Nat) : Proxy :=
  { σ.join c
      { owner := some c, done := true, peer := some .own, fragOwner := some σ.fresh, nfrag := n }
    with vector := some (σ.fresh, n) }

/-- The message that `req_forward` works on. -/
def newMsg (c : Nat) (noreply : Bool) : Req :=
  { owner := some c, noreply := noreply, fragOwner := σ.vector.map Prod.fst }

/-- The beginning of `req_forward`. -/
def enqueue (c : Nat) (noreply : Bool) : Proxy :=
  { (if noreply then σ.alloc (σ.newMsg c noreply) else σ.join c (σ.newMsg c noreply)) with
    current := some σ.fresh, vector := σ.vector.map fun v => (v.1, v.2 - 1) }

/-- `req_forward` returns. -/
def release : Proxy :=
  { σ with current := none, vector := σ.vector.filter fun v => v.2 != 0 }

/-- `redis_add_auth` for a request of `owner`, on a connection that is not authenticated. -/
def addAuth (s : Nat) (owner : Option Nat) : Proxy :=
  if hs.requireAuth && !(σ.servers s).authenticated then
    (σ.alloc { owner := owner, swallow := true }).modServer s fun conn =>
      { conn with imsgq := conn.imsgq ++ [σ.fresh], authenticated := true }
  else σ

/-- The end of `req_forward` on a message and a connection. -/
def forward (s m : Nat) : Proxy :=
  (((σ.modServer s fun conn =>
      { conn with sendActive := conn.sendActive || conn.imsgq.isEmpty }).addAuth hs s
    (σ.msgs m).owner).modServer s fun conn => { conn with imsgq := conn.imsgq ++ [m] }).release

/-- The marks of `req_forward_error`. -/
def markRefused (m : Nat) : Proxy :=
  { (σ.modMsg m fun r => { r with done := true, error := true }).release with
    refused := m :: σ.refused }

/-- `req_forward_error`. -/
def refuse (m : Nat) : Proxy :=
  if (σ.msgs m).noreply then σ.markRefused m else (σ.markRefused m).wakeOwner m

/-- `redis_post_connect`. -/
def postConnect (s : Nat) : Proxy :=
  if hs.selectDb then
    (σ.alloc { swallow := true }).modServer s fun conn =>
      { conn with imsgq := σ.fresh :: conn.imsgq }
  else σ

/-- One message that `server_close` has taken out of a queue. -/
def drop (m : Nat) (silent : Bool) : Proxy :=
  if silent then σ
  else (σ.complete m fun r => { r with error := true }).wakeOwner m

/-- `server_close` on the first message of `imsg_q`. -/
def dropIn (s : Nat) : Proxy :=
  match (σ.servers s).imsgq with
  | [] => σ
  | m :: ms =>
    (σ.modServer s fun conn => { conn with imsgq := ms }).drop m
      ((σ.msgs m).swallow || (σ.msgs m).noreply)

/-- `server_close` on the first message of `omsg_q`. -/
def dropOut (s : Nat) : Proxy :=
  match (σ.servers s).omsgq with
  | [] => σ
  | m :: ms =>
    (σ.modServer s fun conn => { conn with omsgq := ms, backend := conn.backend.drop 1 }).drop m
      (σ.msgs m).swallow

/-- `req_send_done` on the first message of `imsg_q`: the server has received it. -/
def sent (s : Nat) : Proxy :=
  match (σ.servers s).imsgq with
  | [] => σ
  | m :: ms =>
    if (σ.msgs m).noreply then σ.modServer s fun conn => { conn with imsgq := ms }
    else σ.modServer s fun conn =>
      { conn with imsgq := ms, omsgq := conn.omsgq ++ [m], backend := conn.backend ++ [m] }

/-- `rsp_filter` and `rsp_forward` on the first message `m` of a server's `omsg_q`, for the
reply of the server to the request `b`. -/
def linked (m b : Nat) (bad : Bool) : Proxy :=
  if (σ.msgs m).swallow then σ.modMsg m fun r => { r with done := true }
  else
    (σ.complete m fun r =>
      { r with
        peer := some (.server b)
        error := r.error || (bad && r.fragOwner.isSome) }).wakeOwner m

/-- The server answers the first request it has received. -/
def reply (s : Nat) (bad : Bool) : Proxy :=
  match (σ.servers s).omsgq, (σ.servers s).backend with
  | m :: ms, b :: bs =>
    (σ.modServer s fun conn => { conn with omsgq := ms, backend := bs }).linked m b bad
  | _, _ => σ

/-- `client_close`. -/
def shutClient (c : Nat) : Proxy :=
  { σ with
    msgs := fun x =>
      if x ∈ σ.omsgq c ∧ (σ.msgs x).done = false then { σ.msgs x with swallow := true }
      else σ.msgs x
    clients := Function.update σ.clients c {} }

/-- `rsp_make_error` on a request, after `req_error`. -/
def makeError (before : List Nat) (m : Nat) (after : List Nat) : Proxy :=
  (σ.markError before m after).modMsg m fun r => { r with peer := some .own }

/-- `rsp_send_next` at a request that is done: it is marked, and in error it gets an error
reply, for which a vector request gives up its fragments. -/
def offered (c : Nat) (before : List Nat) (m : Nat) (after : List Nat) : Proxy :=
  let σ' := σ.markDone before.reverse m after
  if σ'.reqError before.reverse m after then
    match (σ.msgs m).fragOwner with
    | some _ => (σ'.makeError before.reverse m after).modClient c fun conn =>
        { conn with omsgq := before ++ m :: after.drop (σ.siblings m after).length }
    | none => σ'.makeError before.reverse m after
  else σ'

/-- `rsp_send_next` at a position of the queue of a client. -/
def offer (c i : Nat) : Proxy :=
  match (σ.omsgq c).drop i with
  | [] => σ
  | m :: after => σ.offered c ((σ.omsgq c).take i) m after

/-- What an action does. -/
def act : Action → Proxy
  | .accept c => σ.modClient c fun _ => { isOpen := true, sendActive := true }
  | .answer c => σ.answer c
  | .fragment c n => σ.fragment c n
  | .enqueue c noreply => σ.enqueue c noreply
  | .connect s immediate => σ.modServer s fun _ =>
      { isOpen := true, connecting := !immediate, sendActive := true }
  | .forward s => σ.current.elim σ (σ.forward hs s)
  | .refuse => σ.current.elim σ σ.refuse
  | .dropIn s => σ.dropIn s
  | .dropOut s => σ.dropOut s
  | .shut s => σ.modServer s fun _ => {}
  | .connected s =>
    (σ.modServer s fun conn => { conn with connecting := false }).postConnect hs s
  | .sent s => σ.sent s
  | .serverIdle s => σ.modServer s fun conn => { conn with sendActive := false }
  | .reply s bad => σ.reply s bad
  | .shutClient c => σ.shutClient c
  | .offer c i => σ.offer c i
  | .finish c m => σ.modClient c fun conn => { conn with omsgq := conn.omsgq.erase m }
  | .clientIdle c => σ.modClient c fun conn => { conn with sendActive := false }

/-- A request that was found done before. -/
def Complete (m : Nat) : Prop :=
  (σ.msgs m).done = true ∧ ((σ.msgs m).fragOwner = none ∨ (σ.msgs m).fdone = true)

/-- When an action is taken. -/
def Enabled : Action → Prop
  | .accept c => (σ.clients c).isOpen = false ∧ σ.current = none
  | .answer c => (σ.clients c).isOpen = true ∧ σ.current = none ∧ σ.vector = none
  | .fragment c n =>
    (σ.clients c).isOpen = true ∧ σ.current = none ∧ σ.vector = none ∧ 0 < n
  | .enqueue c noreply =>
    (σ.clients c).isOpen = true ∧ σ.current = none ∧
      ∀ o n, σ.vector = some (o, n) → (σ.msgs o).owner = some c ∧ noreply = false ∧ 0 < n
  | .connect s _ => (σ.servers s).isOpen = false
  | .forward s => (σ.servers s).isOpen = true ∧ σ.current ≠ none
  | .refuse => σ.current ≠ none
  | .dropIn s => (σ.servers s).imsgq ≠ []
  | .dropOut s => (σ.servers s).omsgq ≠ []
  | .shut s => σ.queue s = []
  | .connected s => (σ.servers s).isOpen = true ∧ (σ.servers s).connecting = true
  | .sent s => (σ.servers s).imsgq ≠ [] ∧ (σ.servers s).connecting = false
  | .serverIdle s => (σ.servers s).imsgq = [] ∧ (σ.servers s).connecting = false
  | .reply s _ => (σ.servers s).omsgq ≠ [] ∧ (σ.servers s).backend ≠ []
  | .shutClient c => (σ.clients c).isOpen = true ∧ σ.current = none ∧ σ.vector = none
  | .offer c i => i < (σ.omsgq c).length ∧ (σ.clients c).sendActive = true ∧
      σ.current = none ∧ σ.vector = none ∧
      (∀ x ∈ (σ.omsgq c).take i, σ.Complete x) ∧
      ∀ m after, (σ.omsgq c).drop i = m :: after →
        σ.reqDone ((σ.omsgq c).take i).reverse m after = true
  | .finish c m => m ∈ σ.omsgq c ∧ (σ.clients c).sendActive = true ∧ σ.Complete m ∧
      σ.current = none ∧ σ.vector = none
  | .clientIdle c => ∀ m after, σ.omsgq c = m :: after → σ.reqDone [] m after = false

/-! ## What an action does where it is enabled -/

section Enabled

variable {σ} {s c i : Nat}

theorem Enabled.forward (enabled : σ.Enabled (.forward s)) :
    ∃ m, σ.current = some m ∧ σ.act hs (.forward s) = σ.forward hs s m := by
  obtain ⟨m, held⟩ := Option.ne_none_iff_exists'.mp enabled.2
  exact ⟨m, held, by simp only [act, held, Option.elim_some]⟩

theorem Enabled.refuse (enabled : σ.Enabled .refuse) :
    ∃ m, σ.current = some m ∧ σ.act hs .refuse = σ.refuse m := by
  obtain ⟨m, held⟩ := Option.ne_none_iff_exists'.mp enabled
  exact ⟨m, held, by simp only [act, held, Option.elim_some]⟩

theorem Enabled.offer (enabled : σ.Enabled (.offer c i)) :
    ∃ m after, σ.omsgq c = (σ.omsgq c).take i ++ m :: after ∧
      σ.reqDone ((σ.omsgq c).take i).reverse m after = true ∧
      σ.act hs (.offer c i) = σ.offered c ((σ.omsgq c).take i) m after := by
  obtain ⟨lt, -, -, -, -, found⟩ := enabled
  have rest := List.drop_eq_getElem_cons lt
  refine ⟨_, _, ?_, found _ _ rest, by simp only [act, Proxy.offer, rest]⟩
  rw [← rest, List.take_append_drop]

end Enabled

/-! ## What the changes leave alone -/

section Changes

variable {σ} (m c s : Nat) (f : Req → Req) (g : ClientConn → ClientConn)
  (h : ServerConn → ServerConn) (r : Req)

@[simp] theorem msgs_modMsg : (σ.modMsg m f).msgs = Function.update σ.msgs m (f (σ.msgs m)) := rfl
@[simp] theorem queue_modMsg (s : Nat) : (σ.modMsg m f).queue s = σ.queue s := rfl

@[simp] theorem msgs_modClient : (σ.modClient c g).msgs = σ.msgs := rfl
@[simp] theorem clients_modClient :
    (σ.modClient c g).clients = Function.update σ.clients c (g (σ.clients c)) := rfl
@[simp] theorem current_modClient : (σ.modClient c g).current = σ.current := rfl
@[simp] theorem vector_modClient : (σ.modClient c g).vector = σ.vector := rfl

@[simp] theorem msgs_modServer : (σ.modServer s h).msgs = σ.msgs := rfl
@[simp] theorem fresh_modServer : (σ.modServer s h).fresh = σ.fresh := rfl
@[simp] theorem clients_modServer : (σ.modServer s h).clients = σ.clients := rfl
@[simp] theorem servers_modServer :
    (σ.modServer s h).servers = Function.update σ.servers s (h (σ.servers s)) := rfl
@[simp] theorem current_modServer : (σ.modServer s h).current = σ.current := rfl
@[simp] theorem omsgq_modServer (c : Nat) : (σ.modServer s h).omsgq c = σ.omsgq c := rfl

@[simp] theorem msgs_alloc : (σ.alloc r).msgs = Function.update σ.msgs σ.fresh r := rfl
@[simp] theorem clients_alloc : (σ.alloc r).clients = σ.clients := rfl
@[simp] theorem servers_alloc : (σ.alloc r).servers = σ.servers := rfl
@[simp] theorem current_alloc : (σ.alloc r).current = σ.current := rfl
@[simp] theorem omsgq_alloc (c : Nat) : (σ.alloc r).omsgq c = σ.omsgq c := rfl

@[simp] theorem msgs_join : (σ.join c r).msgs = Function.update σ.msgs σ.fresh r := rfl

@[simp] theorem servers_release : σ.release.servers = σ.servers := rfl
@[simp] theorem omsgq_release (c : Nat) : σ.release.omsgq c = σ.omsgq c := rfl
@[simp] theorem queue_release (s : Nat) : σ.release.queue s = σ.queue s := rfl

@[simp] theorem msgs_markRefused : (σ.markRefused m).msgs =
    Function.update σ.msgs m { σ.msgs m with done := true, error := true } := rfl
@[simp] theorem servers_markRefused : (σ.markRefused m).servers = σ.servers := rfl

theorem omsgq_modClient (c' : Nat) :
    (σ.modClient c g).omsgq c' = if c' = c then (g (σ.clients c)).omsgq else σ.omsgq c' := by
  unfold omsgq modClient
  by_cases same : c' = c
  · rw [same]
    simp
  · simp [same]

theorem omsgq_join (c' : Nat) :
    (σ.join c r).omsgq c' = if c' = c then σ.omsgq c ++ [σ.fresh] else σ.omsgq c' :=
  omsgq_modClient c (fun conn => { conn with omsgq := conn.omsgq ++ [σ.fresh] }) c'

theorem isOpen_join (c' : Nat) :
    ((σ.join c r).clients c').isOpen = (σ.clients c').isOpen := by
  unfold join
  rw [clients_modClient, Function.update_apply]
  split
  · rename_i here
    rw [here]
    rfl
  · rfl

theorem queue_modServer (s' : Nat) :
    (σ.modServer s h).queue s' =
      if s' = s then (h (σ.servers s)).imsgq ++ (h (σ.servers s)).omsgq else σ.queue s' := by
  unfold queue modServer
  by_cases same : s' = s
  · rw [same]
    simp
  · simp [same]

end Changes

section Fields

variable {σ} {α : Type} (p : Req → α) {m : Nat} {f : Req → Req}

/-- A field that the change of a message keeps. -/
theorem field_modMsg (same : p (f (σ.msgs m)) = p (σ.msgs m)) (x : Nat) :
    p ((σ.modMsg m f).msgs x) = p (σ.msgs x) := by
  rw [msgs_modMsg, Function.update_apply]
  split
  · rename_i here
    rw [here, same]
  · rfl

theorem field_markRefused (same : ∀ r, p { r with done := true, error := true } = p r) (x : Nat) :
    p ((σ.markRefused m).msgs x) = p (σ.msgs x) :=
  field_modMsg (f := fun r => { r with done := true, error := true }) p (same _) x

/-- A field other than the count of the fragments, after `complete`. -/
theorem field_complete (same : ∀ r n, p { r with nfragDone := n } = p r) (x : Nat) :
    p ((σ.complete m f).msgs x) =
      if x = m then p (f { σ.msgs m with done := true }) else p (σ.msgs x) := by
  have base : p ((σ.modMsg m fun r => f { r with done := true }).msgs x) =
      if x = m then p (f { σ.msgs m with done := true }) else p (σ.msgs x) := by
    rw [msgs_modMsg, Function.update_apply, apply_ite p]
  unfold complete
  dsimp only
  split
  · exact (field_modMsg p (same _ _) x).trans base
  · exact base

end Fields

end Proxy

end Nutcracker
