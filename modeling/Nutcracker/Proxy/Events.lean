import Nutcracker.Lib.Run
import Nutcracker.Proxy.Sound

/-!
# The handlers of the event loop

Each event is handled to the end before the next one is looked at.  A handler is a
sequence of actions that can be taken one after the other, whatever the network does,
so that the invariants hold whenever the event loop waits.
-/

namespace Nutcracker

/-- How `server_pool_conn` ends for a key. -/
inductive Destination where
  /-- The pool has no live server. -/
  | refused
  /-- The connection could not be used, and `server_close` was called on it. -/
  | broken (s : Nat)
  /-- A connection, which is opened if it is not open; `immediate` if that succeeds at once. -/
  | on (s : Nat) (immediate : Bool)
  deriving DecidableEq, Repr

/-- The reply of a server: fine, of a type that `pre_coalesce` does not expect for a fragment, or
one that `failure` takes for a transient failure of the server. -/
inductive Receipt where
  | good
  | bad
  | failure
  deriving DecidableEq, Repr

/-- One pass of `msg_send` over a client connection: the number of requests that
`rsp_send_next` offers, and those whose reply is written completely. -/
structure Round where
  offers : Nat
  finished : List Nat
  deriving DecidableEq, Repr

/-- What happens at the proxy. -/
inductive Event where
  /-- `server_each_preconnect`, where the connect does not fail; if it does, nothing is left. -/
  | preconnect (s : Nat) (immediate : Bool)
  /-- A client connects. -/
  | accept (c : Nat)
  /-- A request of a client that the proxy answers itself. -/
  | answer (c : Nat)
  /-- A request of a client that is forwarded. -/
  | request (c : Nat) (noreply : Bool) (route : Destination)
  /-- A request of a client that is forwarded in fragments. -/
  | vector (c : Nat) (routes : List Destination)
  /-- A server connection can be written to; `n` requests are written completely, and `idle` if
  there is nothing left to write. -/
  | serverWritable (s n : Nat) (idle : Bool)
  /-- The next reply of a server. -/
  | serverReply (s : Nat) (receipt : Receipt)
  /-- A server connection is closed, in error, or timed out. -/
  | serverClose (s : Nat)
  /-- A client connection is closed, or in error. -/
  | clientClose (c : Nat)
  /-- A client connection can be written to; `idle` if the first request is not done at the
  end. -/
  | clientWritable (c : Nat) (rounds : List Round) (idle : Bool)
  deriving DecidableEq, Repr

namespace Proxy

variable (hs : Handshake) (σ : Proxy)

/-! ## Handlers -/

/-- `server_close`. -/
def closeServer (s : Nat) : Proxy :=
  let σ' := (fun τ : Proxy => τ.act hs (.dropIn s))^[(σ.servers s).imsgq.length] σ
  ((fun τ : Proxy => τ.act hs (.dropOut s))^[(σ'.servers s).omsgq.length] σ').act hs (.shut s)

/-- `req_forward` after the message is in the queue of the client. -/
def conclude : Destination → Proxy
  | .refused => σ.act hs .refuse
  | .broken s => (σ.closeServer hs s).act hs .refuse
  | .on s immediate =>
    (if (σ.servers s).isOpen then σ else σ.act hs (.connect s immediate)).act hs (.forward s)

/-- `req_forward`. -/
def reqForward (c : Nat) (noreply : Bool) (route : Destination) : Proxy :=
  (σ.act hs (.enqueue c noreply)).conclude hs route

/-- The fragments of a vector request are forwarded. -/
def forwardAll (c : Nat) : List Destination → Proxy → Proxy
  | [], σ => σ
  | route :: routes, σ => forwardAll c routes (σ.reqForward hs c false route)

/-- `msg_send` on a server connection. -/
def sendServer (s n : Nat) (idle : Bool) : Proxy :=
  let σ' := if (σ.servers s).connecting then σ.act hs (.connected s) else σ
  let σ'' := (fun τ : Proxy => τ.act hs (.sent s))^[n] σ'
  if idle then σ''.act hs (.serverIdle s) else σ''

/-- `rsp_recv_done`. -/
def rspRecvDone (s : Nat) (receipt : Receipt) : Proxy :=
  if (σ.servers s).omsgq = [] ∨ receipt = .failure then σ.closeServer hs s
  else σ.act hs (.reply s (receipt = .bad))

/-- `rsp_send_next` on the first `n` requests of a client. -/
def offers (c : Nat) : Nat → Proxy
  | 0 => σ
  | n + 1 => (offers c n).act hs (.offer c n)

/-- `rsp_send_done` on requests of a client. -/
def finishAll (c : Nat) : List Nat → Proxy → Proxy
  | [], σ => σ
  | m :: ms, σ => finishAll c ms (σ.act hs (.finish c m))

def round (c : Nat) (r : Round) : Proxy :=
  finishAll hs c r.finished (σ.offers hs c r.offers)

def rounds (c : Nat) : List Round → Proxy → Proxy
  | [], σ => σ
  | r :: rs, σ => rounds c rs (σ.round hs c r)

/-- `msg_send` on a client connection. -/
def sendClient (c : Nat) (rs : List Round) (idle : Bool) : Proxy :=
  let σ' := rounds hs c rs σ
  if idle then σ'.act hs (.clientIdle c) else σ'

/-- What the event loop does with an event. -/
def handle : Event → Proxy
  | .preconnect s immediate => σ.act hs (.connect s immediate)
  | .accept c => σ.act hs (.accept c)
  | .answer c => σ.act hs (.answer c)
  | .request c noreply route => σ.reqForward hs c noreply route
  | .vector c routes => forwardAll hs c routes (σ.act hs (.fragment c routes.length))
  | .serverWritable s n idle => σ.sendServer hs s n idle
  | .serverReply s receipt => σ.rspRecvDone hs s receipt
  | .serverClose s => σ.closeServer hs s
  | .clientClose c => σ.act hs (.shutClient c)
  | .clientWritable c rs idle => σ.sendClient hs c rs idle

/-! ## What can happen -/

/-- `rsp_send_next` finds the request at a position done. -/
def offerable (c i : Nat) : Bool :=
  match (σ.omsgq c).drop i with
  | [] => false
  | m :: after => σ.reqDone ((σ.omsgq c).take i).reverse m after

/-- A pass over a client connection: the requests that are offered are done, and only requests
that were offered are finished. -/
def RoundOk (c : Nat) (r : Round) : Prop :=
  (∀ i < r.offers, (σ.offers hs c i).offerable c i = true) ∧
    r.finished.Sublist (((σ.offers hs c r.offers).omsgq c).take r.offers)

instance instDecidableRoundOk (c : Nat) (r : Round) : Decidable (σ.RoundOk hs c r) :=
  inferInstanceAs (Decidable (_ ∧ _))

def RoundsOk (c : Nat) : List Round → Proxy → Prop
  | [], _ => True
  | r :: rs, σ => σ.RoundOk hs c r ∧ RoundsOk c rs (σ.round hs c r)

instance instDecidableRoundsOk (c : Nat) :
    (rs : List Round) → (σ : Proxy) → Decidable (RoundsOk hs c rs σ)
  | [], _ => inferInstanceAs (Decidable True)
  | r :: rs, σ =>
    have := instDecidableRoundsOk c rs (σ.round hs c r)
    inferInstanceAs (Decidable (_ ∧ _))

/-- When an event can happen: requests come from connected clients and replies from servers that
have received a request, and write events are reported where they are registered. -/
def Accepts : Event → Prop
  | .preconnect s _ => (σ.servers s).isOpen = false
  | .accept c => (σ.clients c).isOpen = false
  | .answer c | .request c _ _ | .clientClose c => (σ.clients c).isOpen = true
  | .vector c routes => (σ.clients c).isOpen = true ∧ routes ≠ []
  | .serverWritable s n idle =>
    let σ' := if (σ.servers s).connecting then σ.act hs (.connected s) else σ
    (σ.servers s).isOpen = true ∧ (σ.servers s).sendActive = true ∧
      n ≤ (σ'.servers s).imsgq.length ∧ (idle = true → n = (σ'.servers s).imsgq.length)
  | .serverReply s _ => (σ.servers s).isOpen = true ∧ (σ.servers s).backend ≠ []
  | .serverClose s => (σ.servers s).isOpen = true
  | .clientWritable c rs idle =>
    (σ.clients c).isOpen = true ∧ (σ.clients c).sendActive = true ∧ RoundsOk hs c rs σ ∧
      (idle = true → (rounds hs c rs σ).offerable c 0 = false)

instance instDecidableAccepts : (e : Event) → Decidable (σ.Accepts hs e)
  | .preconnect _ _ | .accept _ | .answer _ | .request _ _ _ | .clientClose _ | .serverClose _ =>
    inferInstanceAs (Decidable (_ = _))
  | .vector _ _ | .serverReply _ _ | .serverWritable _ _ _ | .clientWritable _ _ _ =>
    inferInstanceAs (Decidable (_ ∧ _))

/-- The proxy after a sequence of events. -/
def run (es : List Event) : Proxy :=
  es.foldl (fun τ e => τ.handle hs e) σ

/-- A run of the proxy. -/
def Runs (es : List Event) : Prop :=
  Lib.Along (fun τ e => τ.handle hs e) (fun τ e => τ.Accepts hs e) ({} : Proxy) es

end Proxy

end Nutcracker
