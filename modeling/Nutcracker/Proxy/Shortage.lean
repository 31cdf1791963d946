import Nutcracker.Proxy.Conservation

/-!
# Vector requests without memory

`req_recv_done` goes on after `fragment` or `req_make_reply` has failed: it has put the request
into the queue of the client and called `req_forward_error`, and then forwards the request, or
the fragments that have been built, all the same.
-/

namespace Nutcracker

/-! ## Fragmenting -/

/-- The calls of a vector command that can fail: for each key, beside that of `msg_get` for a new
fragment, and for the header of each fragment.  MSET makes three for a key, which copies the key and
the value as well, and a memcache retrieval two for a fragment, of which one ends the line.
`whole` if a request of one key is left as it is, which `memcache_fragment` does not do. -/
structure VectorKind where
  keyCalls : Nat
  headerCalls : Nat
  whole : Bool
  deriving DecidableEq, Repr

/-- MGET and DEL append the key, and prepend the header. -/
def VectorKind.redisKeys : VectorKind := ⟨1, 1, true⟩

/-- What `fragment` leaves: its status, whether it came to mark the request with a fragment id,
and how many fragments are in `frag_msgq`. -/
structure FragmentOutcome where
  ok : Bool
  marked : Bool
  built : Nat
  deriving DecidableEq, Repr

/-- The loop over the keys, when so many calls succeed and the next one fails: how many calls are
left at its end. -/
def keyLoop (kind : VectorKind) : Nat → List Nat → List Nat → Option Nat
  | calls, _, [] => some calls
  | calls, seen, idx :: keys =>
    let needed := (if idx ∈ seen then 0 else 1) + kind.keyCalls
    if calls < needed then none else keyLoop kind (calls - needed) (idx :: seen) keys

/-- The loop over the fragments: how many are inserted into `frag_msgq`. -/
def headerLoop (kind : VectorKind) : Nat → List Nat → Nat
  | _, [] => 0
  | calls, _ :: backends =>
    if calls < kind.headerCalls then 0
    else headerLoop kind (calls - kind.headerCalls) backends + 1

/-- `redis_fragment` and `memcache_fragment` on a vector command with keys of the given backends,
when so many of the calls that can fail succeed and the next one fails. -/
def msgFragment (kind : VectorKind) (ncontinuum : Nat) (keys : List Nat) (calls : Nat) :
    FragmentOutcome :=
  if kind.whole && keys.length == 1 then ⟨true, false, 0⟩
  -- sub_msgs and frag_seq
  else if calls < 2 then ⟨false, false, 0⟩
  else
    match keyLoop kind (calls - 2) [] keys with
    | none => ⟨false, true, 0⟩
    | some calls =>
      let backends := (List.range ncontinuum).filter (· ∈ keys)
      let built := headerLoop kind calls backends
      ⟨built = backends.length, true, built⟩

/-! ## Receiving a vector request -/

/-- What `req_recv_done` leaves for a vector request: the proxy, the messages that were put into
the queue of a server on its behalf, and whether the client connection is in error. -/
structure Received where
  proxy : Proxy
  enqueued : List Nat
  err : Bool

/-- A message is forwarded to a server connection. -/
def Destination.reaches : Destination → Bool
  | .on _ _ => true
  | _ => false

namespace Proxy

variable (hs : Handshake) (σ : Proxy)

/-- `enqueue_outq` of a client connection.  A message that is put in twice is listed twice; the
links of the tail queue have a cycle then. -/
def enqueueOut (c m : Nat) : Proxy :=
  σ.modClient c fun conn => { conn with omsgq := conn.omsgq ++ [m] }

/-- A request that fails: it is put into the queue of the client, and `req_forward_error`. -/
def reject (c m : Nat) : Proxy :=
  (σ.enqueueOut c m).refuse m

/-- The numbers of the messages that are forwarded to a server connection, the first being
`m`. -/
def reaching : Nat → List Destination → List Nat
  | _, [] => []
  | m, route :: routes => if route.reaches then m :: reaching (m + 1) routes
    else reaching (m + 1) routes

/-- `req_make_reply` on a vector request; without memory the request fails. -/
def makeReply (c r : Nat) (memory : Bool) : Proxy :=
  if memory then
    (σ.modMsg r fun req => { req with peer := some .own, done := true }).enqueueOut c r
  else σ.reject c r

/-- `req_recv_done` on a vector request that is not filtered. -/
def recvVector (c : Nat) (frag : FragmentOutcome) (memory : Bool) (route : Destination)
    (routes : List Destination) : Received :=
  let r := σ.fresh
  let σ := σ.alloc
    { owner := some c, fragOwner := if frag.marked then some r else none, nfrag := frag.built }
  let σ := if frag.ok then σ else σ.reject c r
  if frag.built = 0 then
    -- req_forward on the request itself
    { proxy := { σ.enqueueOut c r with current := some r }.conclude hs route
      enqueued := reaching r [route]
      err := false }
  else
    let σ := σ.makeReply c r memory
    let routes := routes.take frag.built
    { proxy := forwardAll hs c routes { σ with vector := some (r, routes.length) }
      enqueued := reaching σ.fresh routes
      err := !memory }

/-- A request is answered with one error reply: the connection is not in error, the request is done
and in error when `rsp_send_next` comes to it, and nothing else is left of it in the queue. -/
def Refused (o : Received) (c r : Nat) : Prop :=
  o.err = false ∧ ∃ before after, o.proxy.omsgq c = before ++ r :: after ∧
    o.proxy.reqDone before.reverse r after = true ∧
    o.proxy.reqError before.reverse r after = true ∧
    (o.proxy.offered c before r after).omsgq c = before ++ [r]

/-- A vector request fails as a whole: it is in the queue of the client once, done and in error, no
server gets a message on its behalf, and it is answered with one error reply. -/
def FailsAtomically (o : Received) (c r : Nat) : Prop :=
  (o.proxy.omsgq c).count r = 1 ∧ (o.proxy.msgs r).done = true ∧ (o.proxy.msgs r).error = true ∧
    o.enqueued = [] ∧ Refused o c r

/-! ## The queue of the client -/

variable {σ}

theorem omsgq_act_refuse (c : Nat) : (σ.act hs .refuse).omsgq c = σ.omsgq c := by
  simp only [act]
  cases σ.current with
  | none => rfl
  | some m => exact omsgq_refuse m c

theorem omsgq_act_forward (s c : Nat) : (σ.act hs (.forward s)).omsgq c = σ.omsgq c := by
  simp only [act]
  cases σ.current with
  | none => rfl
  | some m => exact omsgq_forward hs s m c

/-- The end of `req_forward` leaves the queues of the clients. -/
theorem omsgq_conclude (route : Destination) (c : Nat) :
    (σ.conclude hs route).omsgq c = σ.omsgq c := by
  cases route with
  | refused => exact omsgq_act_refuse hs c
  | broken s =>
    rw [conclude, omsgq_act_refuse]
    exact (closing_closeServer hs σ s).omsgq c
  | on s immediate =>
    rw [conclude, omsgq_act_forward]
    split
    · rfl
    · rfl

/-- Forwarding fragments only adds to the queue of the client. -/
theorem omsgq_forwardAll (c : Nat) (routes : List Destination) :
    σ.omsgq c <+: (forwardAll hs c routes σ).omsgq c := by
  induction routes generalizing σ with
  | nil => exact List.prefix_refl _
  | cons route routes ih =>
    have first : σ.omsgq c <+: (σ.reqForward hs c false route).omsgq c := by
      have joined : (σ.act hs (.enqueue c false)).omsgq c = σ.omsgq c ++ [σ.fresh] :=
        (omsgq_join c (σ.newMsg c false) c).trans (if_pos rfl)
      rw [reqForward, omsgq_conclude, joined]
      exact List.prefix_append _ _
    exact first.trans ih

/-! ## No request fails atomically -/

theorem omsgq_enqueueOut (c m : Nat) : (σ.enqueueOut c m).omsgq c = σ.omsgq c ++ [m] := by
  unfold enqueueOut
  rw [omsgq_modClient, if_pos rfl]
  rfl

theorem omsgq_reject (c m : Nat) : (σ.reject c m).omsgq c = σ.omsgq c ++ [m] := by
  rw [reject, omsgq_refuse, omsgq_enqueueOut]

theorem omsgq_makeReply (c r : Nat) (memory : Bool) :
    (σ.makeReply c r memory).omsgq c = σ.omsgq c ++ [r] := by
  cases memory with
  | false => exact omsgq_reject c r
  | true => exact omsgq_enqueueOut c r

/-- A request whose fragments could not be made is put into the queue of its client twice. -/
theorem twice_recvVector (c : Nat) (frag : FragmentOutcome) (memory : Bool) (route : Destination)
    (routes : List Destination) (failed : frag.ok = false) :
    σ.omsgq c ++ [σ.fresh, σ.fresh] <+:
      (recvVector hs σ c frag memory route routes).proxy.omsgq c := by
  have rejected (r : Req) :
      ((σ.alloc r).reject c σ.fresh).omsgq c ++ [σ.fresh] = σ.omsgq c ++ [σ.fresh, σ.fresh] := by
    rw [omsgq_reject, omsgq_alloc, List.append_assoc]
    rfl
  simp only [recvVector, failed, Bool.false_eq_true, if_false]
  split
  · -- req_forward puts the request into the queue again
    rw [omsgq_conclude, ← rejected, ← omsgq_enqueueOut]
    exact List.prefix_rfl
  · -- req_make_reply does, and the fragments follow
    refine List.IsPrefix.trans ?_ (omsgq_forwardAll hs c _)
    rw [← rejected, ← omsgq_makeReply c σ.fresh memory]
    exact List.prefix_rfl

/-- If there is no memory for the reply, the connection of the client is in error. -/
theorem err_recvVector (c : Nat) (frag : FragmentOutcome) (route : Destination)
    (routes : List Destination) (split : frag.built ≠ 0) :
    (recvVector hs σ c frag false route routes).err = true := by
  simp only [recvVector, if_neg split, Bool.not_false]

/-- An allocation in `fragment` or `req_make_reply` fails. -/
def Shortage (frag : FragmentOutcome) (memory : Bool) : Prop :=
  frag.ok = false ∨ (frag.built ≠ 0 ∧ memory = false)

theorem not_failsAtomically (c : Nat) (frag : FragmentOutcome) (memory : Bool)
    (route : Destination) (routes : List Destination) (short : Shortage frag memory) :
    ¬ FailsAtomically (recvVector hs σ c frag memory route routes) c σ.fresh := by
  rintro ⟨once, -, -, -, calm, -⟩
  obtain failed | ⟨split, rfl⟩ := short
  · have twice : σ.omsgq c ++ [σ.fresh, σ.fresh] <+: _ :=
      twice_recvVector hs c frag memory route routes failed
    have count := twice.sublist.count_le σ.fresh
    rw [once, List.count_append] at count
    have two : List.count σ.fresh [σ.fresh, σ.fresh] = 2 := by simp
    omega
  · rw [err_recvVector hs c frag route routes split] at calm
    cases calm

/-- Whether the requests of a vector command fail atomically: never when an allocation fails,
at whatever point. -/
theorem fragmentation_fails_atomically_iff (σ : Proxy) (c : Nat) (kind : VectorKind)
    (ncontinuum : Nat) (keys : List Nat) (calls : Nat) (memory : Bool) (route : Destination)
    (routes : List Destination) :
    (Shortage (msgFragment kind ncontinuum keys calls) memory →
      FailsAtomically
        (recvVector hs σ c (msgFragment kind ncontinuum keys calls) memory route routes) c
        σ.fresh) ↔
    ¬ Shortage (msgFragment kind ncontinuum keys calls) memory := by
  constructor
  · intro atomic short
    exact not_failsAtomically hs c _ memory route routes short (atomic short)
  · intro enough short
    exact absurd short enough

/-- An MGET of two keys on two servers, when the header of the second fragment cannot be made: the
request is in the queue of the client twice, before its first fragment, which is forwarded. -/
theorem fragmentation_not_atomic :
    let σ := (Proxy.handle ⟨false, false⟩ {} (.accept 0))
    let frag := msgFragment .redisKeys 2 [0, 1] 7
    let o := recvVector ⟨false, false⟩ σ 0 frag true .refused [.on 0 true]
    frag = ⟨false, true, 1⟩ ∧ o.proxy.omsgq 0 = [0, 0, 1] ∧ o.enqueued = [1] ∧
      (o.proxy.servers 0).imsgq = [1] ∧ ¬ FailsAtomically o 0 0 := by
  refine ⟨by decide, by decide, by decide, by decide, ?_⟩
  exact not_failsAtomically ⟨false, false⟩ 0 _ true .refused [.on 0 true] (.inl (by decide))

end Proxy

end Nutcracker
