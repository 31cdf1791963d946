import Nutcracker.Message.Send
import Nutcracker.Lib.Run
import Mathlib.Data.List.Infix
import Mathlib.Data.List.Pairwise

/-!
# Sending replies to a client

`rsp_send_next` derives the next reply from the head of the client's `omsg_q`.  For a
request in error it builds an error reply on the fly, each time it is called, and
drops the one it built before; for a vector request in error it first removes the
fragments from the queue.

The requests of this module are completed ones: `req_done` holds for each of them.
-/

namespace Nutcracker

/-- A completed request in the `omsg_q` of a client, with its reply. -/
structure OutReq where
  fragId : Nat := 0
  error : Bool := false
  ferror : Bool := false
  err : Nat := 0
  peer : Option OutMsg := none
  deriving DecidableEq, Repr

/-- What the error replies of a connection depend on: the protocol, the data size of an mbuf
and the texts of `strerror`. -/
structure ReplyConfig where
  redis : Bool
  dataSize : Nat
  strerror : Nat → Bytes

namespace ReplyConfig

variable (cfg : ReplyConfig)

/-- The text of an error reply, as `nc_scnprintf` writes it into one mbuf. -/
def errorText (err : Nat) : Bytes :=
  ((if cfg.redis then "-ERR" else "SERVER_ERROR").toList.map Lib.byteOf ++ [32] ++
    (if err = 0 then "unknown".toList.map Lib.byteOf else cfg.strerror err) ++ CRLF).take
      (cfg.dataSize - 1)

/-- `msg_get_error`. -/
def msgGetError (err : Nat) : OutMsg :=
  { id := 0, mhdr := [cfg.errorText err], mlen := (cfg.errorText err).length }

theorem bytes_msgGetError (err : Nat) : (cfg.msgGetError err).bytes = cfg.errorText err := by
  simp [msgGetError, OutMsg.bytes]

theorem exact_msgGetError (err : Nat) : (cfg.msgGetError err).Exact := by
  rw [OutMsg.Exact, bytes_msgGetError, msgGetError, List.length_eq_zero_iff]

end ReplyConfig

namespace OutReq

/-- The request belongs to the same vector request. -/
def sibling (r s : OutReq) : Bool :=
  s.fragId == r.fragId

/-- The reply that is offered for the request. -/
def reply (r : OutReq) : OutMsg :=
  r.peer.getD ⟨0, [], 0⟩

/-- `req_error` on a request, given those before it in the queue, nearest first, and those
after it. -/
def isError (before : List OutReq) (r : OutReq) (after : List OutReq) : Bool :=
  r.error || (r.fragId != 0 &&
    (r.ferror || (before.takeWhile r.sibling).any (·.error) ||
      (after.takeWhile r.sibling).any (·.error)))

/-- The marks of `req_error`: the neighbours that belong to the vector request. -/
def markSiblings (r : OutReq) (queue : List OutReq) : List OutReq :=
  (queue.takeWhile r.sibling).map (fun s => { s with ferror := true }) ++
    queue.dropWhile r.sibling

/-- `err` of the first fragment that has one. -/
def firstErr (fragments : List OutReq) : Nat :=
  ((fragments.find? (·.err != 0)).map (·.err)).getD 0

end OutReq

section Walk

variable (cfg : ReplyConfig)

/-- `rsp_send_next` at one request of the queue: the requests before it, the request with the
reply it is offered with, and the requests after it. -/
def rspSendNext (before : List OutReq) (r : OutReq) (after : List OutReq) :
    List OutReq × OutReq × List OutReq :=
  if r.isError before after then
    let marks := !r.error && !r.ferror
    let before' := if marks then r.markSiblings before else before
    let r' := if marks then { r with ferror := true } else r
    -- `rsp_make_error`
    if r.fragId ≠ 0 then
      let err := OutReq.firstErr (after.takeWhile r.sibling)
      (before', { r' with peer := some (cfg.msgGetError err) }, after.dropWhile r.sibling)
    else (before', { r' with peer := some (cfg.msgGetError r.err) }, after)
  else (before, r, after)

/-- A number of calls of `rsp_send_next`: the requests passed, nearest first, and the rest of
the queue. -/
def rspSendMany : Nat → List OutReq → List OutReq → List OutReq × List OutReq
  | 0, before, after => (before, after)
  | _ + 1, before, [] => (before, [])
  | n + 1, before, r :: after =>
    let next := rspSendNext cfg before r after
    rspSendMany n (next.2.1 :: next.1) next.2.2

end Walk

/-- Of the bytes that are accepted, `nsent` are left for the replies of these requests.  They reach
to the end of each error reply or, for a scalar request, not to its beginning. -/
def CleanCut : Nat → List OutReq → Prop
  | _, [] => True
  | nsent, r :: rest =>
    ((r.error || r.ferror) = true →
      r.reply.bytes.length ≤ nsent ∨ (r.fragId = 0 ∧ nsent = 0)) ∧
      CleanCut (nsent - r.reply.bytes.length) rest

instance : ∀ (nsent : Nat) (rest : List OutReq), Decidable (CleanCut nsent rest)
  | _, [] => .isTrue trivial
  | nsent, r :: rest =>
    have := instDecidableCleanCut (nsent - r.reply.bytes.length) rest
    inferInstanceAs (Decidable ((_ → _) ∧ _))

/-- A client connection that is sending: its `omsg_q` and the bytes written on its socket. -/
structure ClientStream where
  omsgq : List OutReq
  written : Bytes := []

namespace ClientStream

variable (cfg : ReplyConfig) (s : ClientStream) (outcome : Option Nat)

/-- The replies `rsp_send_next` has for the whole queue. -/
def replies : List OutMsg :=
  ((rspSendMany cfg s.omsgq.length [] s.omsgq).1.reverse).map OutReq.reply

/-- The messages and the vector of one call of `msg_send_chain`. -/
def chain : List OutMsg × List Bytes :=
  collect 0 0 (s.replies cfg)

/-- The requests whose replies are offered, and the rest of the queue. -/
def offered : List OutReq × List OutReq :=
  let passed := rspSendMany cfg (s.chain cfg).1.length [] s.omsgq
  (passed.1.reverse, passed.2)

/-- The replies after the second walk. -/
def settled : List (OutMsg × Bool) :=
  settleSent (accepted (s.chain cfg).2 outcome) (s.chain cfg).1

/-- The offered requests whose replies are not finished stay in the queue; `rsp_send_done`
takes out the others. -/
def kept (offered : List OutReq) (settled : List (OutMsg × Bool)) : List OutReq :=
  (offered.zip settled).filterMap fun (r, m, fin) =>
    if fin then none else some { r with peer := some m }

/-- One call of `msg_send_chain` on a client connection. -/
def step : ClientStream :=
  { omsgq := kept (s.offered cfg).1 (s.settled cfg outcome) ++ (s.offered cfg).2
    written :=
      s.written ++ (s.chain cfg).2.flatten.take (accepted (s.chain cfg).2 outcome) }

/-- The bytes that are accepted do not end inside an error reply, nor before that of a vector
request. -/
def Clean : Prop :=
  CleanCut (accepted (s.chain cfg).2 outcome) (s.offered cfg).1

instance : Decidable (s.Clean cfg outcome) :=
  inferInstanceAs (Decidable (CleanCut _ _))

end ClientStream

/-! ## Completed requests -/

/-- A completed request of a client.  The fragments of a vector request follow it in the
queue: their own replies are empty once they are coalesced, and in error some of them carry
the error. -/
inductive Completed where
  | scalar (reply : OutMsg)
  | scalarError (err : Nat)
  | vector (fragId : Nat) (reply : OutMsg) (fragments : List OutMsg)
  | vectorError (fragId : Nat) (owner : OutReq) (fragments : List OutReq)
  deriving Repr

namespace Completed

/-- The requests as they stand in `omsg_q`. -/
def requests : Completed → List OutReq
  | scalar reply => [{ peer := some reply }]
  | scalarError err => [{ error := true, err := err }]
  | vector fragId reply fragments =>
    { fragId := fragId, peer := some reply } ::
      fragments.map fun m => { fragId := fragId, peer := some m }
  | vectorError fragId owner fragments =>
    { owner with fragId := fragId, ferror := false } ::
      fragments.map fun r => { r with fragId := fragId, ferror := false }

/-- The one reply the request has. -/
def expected (cfg : ReplyConfig) : Completed → Bytes
  | scalar reply => reply.bytes
  | scalarError err => cfg.errorText err
  | vector _ reply _ => reply.bytes
  | vectorError _ _ fragments => cfg.errorText (OutReq.firstErr fragments)

/-- The fragment id of a vector request. -/
def vectorId : Completed → Option Nat
  | vector fragId _ _ => some fragId
  | vectorError fragId _ _ => some fragId
  | _ => none

/-- Length fields tell whether there are bytes, the fragments of a coalesced request have
none, and a vector request in error has a request in error among its own. -/
def Proper : Completed → Prop
  | scalar reply => reply.Exact
  | scalarError _ => True
  | vector fragId reply fragments =>
    fragId ≠ 0 ∧ reply.Exact ∧ ∀ m ∈ fragments, m.bytes = [] ∧ m.mlen = 0
  | vectorError fragId owner fragments =>
    fragId ≠ 0 ∧ (owner.error || fragments.any (·.error)) = true

end Completed

/-! ## What a queue of completed requests delivers -/

section Delivery

variable (cfg : ReplyConfig) (bad : Nat → Bool)

/-- The queue delivers the given bytes.  The ids of vector requests in error are those that
`bad` names. -/
inductive Delivers : List OutReq → Bytes → Prop where
  | nil : Delivers [] []
  | plain {r : OutReq} {m : OutMsg} {queue : List OutReq} {bytes : Bytes}
      (fine : r.error = false ∧ r.ferror = false) (good : r.fragId = 0 ∨ bad r.fragId = false)
      (peer : r.peer = some m) (exact_ : m.Exact) (rest : Delivers queue bytes) :
      Delivers (r :: queue) (m.bytes ++ bytes)
  | scalar {r : OutReq} {queue : List OutReq} {bytes : Bytes}
      (failed : r.error = true) (alone : r.fragId = 0) (rest : Delivers queue bytes) :
      Delivers (r :: queue) (cfg.errorText r.err ++ bytes)
  | vector {r : OutReq} {fragments queue : List OutReq} {bytes : Bytes}
      (id : r.fragId ≠ 0) (named : bad r.fragId = true)
      (failed : (r.error || fragments.any (·.error)) = true) (unmarked : r.ferror = false)
      (siblings : ∀ f ∈ fragments, f.fragId = r.fragId)
      (apart : ∀ q ∈ queue, q.fragId ≠ r.fragId) (rest : Delivers queue bytes) :
      Delivers (r :: (fragments ++ queue))
        (cfg.errorText (OutReq.firstErr fragments) ++ bytes)

/-- A request whose reply is offered: an ordinary reply, the error reply of a scalar request,
or that of a vector request. -/
inductive Offered : OutReq → Prop where
  | plain {r : OutReq} {m : OutMsg} (fine : r.error = false ∧ r.ferror = false)
      (good : r.fragId = 0 ∨ bad r.fragId = false) (peer : r.peer = some m) (exact_ : m.Exact) :
      Offered r
  | scalar {r : OutReq} (failed : r.error = true) (alone : r.fragId = 0)
      (peer : r.peer = some (cfg.msgGetError r.err)) : Offered r
  | vector {r : OutReq} {err : Nat} (id : r.fragId ≠ 0)
      (failed : (r.error || r.ferror) = true) (peer : r.peer = some (cfg.msgGetError err)) :
      Offered r

/-- The requests passed do not make a later one look in error. -/
def Passed (before queue : List OutReq) : Prop :=
  ∀ p ∈ before, p.fragId = 0 ∨ (bad p.fragId = false ∧ p.error = false) ∨
    ∀ q ∈ queue, q.fragId ≠ p.fragId

variable {cfg bad}

theorem Offered.exact {r : OutReq} (offered : Offered cfg bad r) : r.reply.Exact := by
  cases offered with
  | plain fine good peer exact_ => simpa [OutReq.reply, peer] using exact_
  | scalar failed alone peer => simpa [OutReq.reply, peer] using cfg.exact_msgGetError r.err
  | vector id failed peer => simpa [OutReq.reply, peer] using cfg.exact_msgGetError _

theorem Passed.cons {before queue : List OutReq} {r : OutReq}
    (passed : Passed bad before (r :: queue))
    (new : r.fragId = 0 ∨ (bad r.fragId = false ∧ r.error = false) ∨
      ∀ q ∈ queue, q.fragId ≠ r.fragId) : Passed bad (r :: before) queue := by
  intro p member
  cases List.mem_cons.mp member with
  | inl head => rwa [head]
  | inr later =>
    exact (passed p later).imp_right fun other =>
      other.imp_right fun apart q inQueue => apart q (List.mem_cons_of_mem _ inQueue)

/-- Only vector requests that are named, and scalar requests, are in error. -/
theorem Delivers.named_of_error {queue : List OutReq} {bytes : Bytes}
    (delivers : Delivers cfg bad queue bytes) {q : OutReq} (member : q ∈ queue)
    (failed : q.error = true) : q.fragId = 0 ∨ bad q.fragId = true := by
  induction delivers with
  | nil => cases member
  | plain fine good peer exact_ rest ih =>
    cases List.mem_cons.mp member with
    | inl head => simp [head, fine.1] at failed
    | inr later => exact ih later
  | scalar _ alone rest ih =>
    cases List.mem_cons.mp member with
    | inl head => exact Or.inl (head ▸ alone)
    | inr later => exact ih later
  | vector id named _ unmarked siblings apart rest ih =>
    cases List.mem_cons.mp member with
    | inl head => exact Or.inr (head ▸ named)
    | inr later =>
      cases List.mem_append.mp later with
      | inl fragment => exact Or.inr (siblings q fragment ▸ named)
      | inr behind => exact ih behind

theorem mem_takeWhile_sibling {r q : OutReq} {queue : List OutReq}
    (member : q ∈ queue.takeWhile r.sibling) : q ∈ queue ∧ q.fragId = r.fragId :=
  ⟨List.takeWhile_subset _ member, by
    simpa [OutReq.sibling] using List.all_eq_true.mp List.all_takeWhile q member⟩

/-- An ordinary request is offered with its own reply. -/
theorem rspSendNext_plain {before after : List OutReq} {r : OutReq} {bytes : Bytes}
    (fine : r.error = false ∧ r.ferror = false) (good : r.fragId = 0 ∨ bad r.fragId = false)
    (passed : Passed bad before (r :: after)) (rest : Delivers cfg bad after bytes) :
    rspSendNext cfg before r after = (before, r, after) := by
  have quiet : r.isError before after = false := by
    by_cases alone : r.fragId = 0
    · simp [OutReq.isError, fine.1, alone]
    · have unnamed := good.resolve_left alone
      have behind : (before.takeWhile r.sibling).any (·.error) = false := by
        rw [List.any_eq_false]
        intro p member failed
        obtain ⟨inBefore, same⟩ := mem_takeWhile_sibling member
        rcases passed p inBefore with zero | ⟨_, ok⟩ | apart
        · exact alone (same ▸ zero)
        · simp [ok] at failed
        · exact apart r List.mem_cons_self same.symm
      have ahead : (after.takeWhile r.sibling).any (·.error) = false := by
        rw [List.any_eq_false]
        intro q member failed
        obtain ⟨inAfter, same⟩ := mem_takeWhile_sibling member
        rcases rest.named_of_error inAfter failed with zero | named
        · exact alone (same ▸ zero)
        · rw [same, unnamed] at named
          cases named
      simp [OutReq.isError, fine, behind, ahead]
  simp [rspSendNext, quiet]

/-- A scalar request in error is offered with a new error reply. -/
theorem rspSendNext_scalar {before after : List OutReq} {r : OutReq} (failed : r.error = true)
    (alone : r.fragId = 0) :
    rspSendNext cfg before r after =
      (before, { r with peer := some (cfg.msgGetError r.err) }, after) := by
  simp [rspSendNext, OutReq.isError, failed, alone]

theorem takeWhile_siblings {r : OutReq} {fragments queue : List OutReq}
    (siblings : ∀ f ∈ fragments, f.fragId = r.fragId) (apart : ∀ q ∈ queue, q.fragId ≠ r.fragId) :
    (fragments ++ queue).takeWhile r.sibling = fragments ∧
      (fragments ++ queue).dropWhile r.sibling = queue := by
  have all : ∀ f ∈ fragments, r.sibling f = true := fun f member => by
    simp [OutReq.sibling, siblings f member]
  have none : queue.takeWhile r.sibling = [] ∧ queue.dropWhile r.sibling = queue := by
    cases queue with
    | nil => exact ⟨rfl, rfl⟩
    | cons q queue =>
      have other : r.sibling q = false := by
        simpa [OutReq.sibling] using apart q List.mem_cons_self
      simp [other]
  rw [List.takeWhile_append_of_pos all, List.dropWhile_append_of_pos all, none.1, none.2]
  simp

/-- A vector request in error is offered with a new error reply; its fragments are gone. -/
theorem rspSendNext_vector {before fragments queue : List OutReq} {r : OutReq}
    (id : r.fragId ≠ 0) (named : bad r.fragId = true)
    (failed : (r.error || fragments.any (·.error)) = true) (unmarked : r.ferror = false)
    (siblings : ∀ f ∈ fragments, f.fragId = r.fragId) (apart : ∀ q ∈ queue, q.fragId ≠ r.fragId)
    (passed : Passed bad before (r :: (fragments ++ queue))) :
    rspSendNext cfg before r (fragments ++ queue) =
      (before,
        { r with
          ferror := !r.error
          peer := some (cfg.msgGetError (OutReq.firstErr fragments)) },
        queue) := by
  obtain ⟨own, others⟩ := takeWhile_siblings siblings apart
  have unmarkedBefore : r.markSiblings before = before := by
    have none : before.takeWhile r.sibling = [] := by
      rw [List.eq_nil_iff_forall_not_mem]
      intro p member
      obtain ⟨inBefore, same⟩ := mem_takeWhile_sibling member
      rcases passed p inBefore with zero | ⟨unnamed, _⟩ | apart
      · exact id (same ▸ zero)
      · rw [same, named] at unnamed
        cases unnamed
      · exact apart r List.mem_cons_self same.symm
    have whole : before.takeWhile r.sibling ++ before.dropWhile r.sibling = before :=
      List.takeWhile_append_dropWhile
    rw [none, List.nil_append] at whole
    rw [OutReq.markSiblings, none, whole]
    rfl
  have inError : r.isError before (fragments ++ queue) = true := by
    cases own_error : r.error with
    | true => simp [OutReq.isError, own_error]
    | false =>
      rw [own_error, Bool.false_or] at failed
      simp [OutReq.isError, own, failed, id]
  cases own_error : r.error with
  | true => simp [rspSendNext, inError, own_error, unmarked, id, own, others]
  | false => simp [rspSendNext, inError, own_error, unmarked, id, own, others, unmarkedBefore]

/-- One call of `rsp_send_next` offers the first reply that the queue delivers. -/
theorem Delivers.next {before after : List OutReq} {r : OutReq} {bytes : Bytes}
    (delivers : Delivers cfg bad (r :: after) bytes) (passed : Passed bad before (r :: after)) :
    ∃ (r' : OutReq) (after' : List OutReq) (bytes' : Bytes),
      rspSendNext cfg before r after = (before, r', after') ∧ Offered cfg bad r' ∧
      Delivers cfg bad after' bytes' ∧ bytes = r'.reply.bytes ++ bytes' ∧
      Passed bad (r' :: before) after' := by
  cases delivers with
  | @plain _ m _ bytes fine good peer exact_ rest =>
    refine ⟨r, after, bytes, rspSendNext_plain fine good passed rest,
      .plain fine good peer exact_, rest, by simp [OutReq.reply, peer], passed.cons ?_⟩
    exact good.imp_right fun unnamed => Or.inl ⟨unnamed, fine.1⟩
  | @scalar _ _ bytes failed alone rest =>
    refine ⟨{ r with peer := some (cfg.msgGetError r.err) }, after, bytes,
      rspSendNext_scalar failed alone, .scalar failed alone rfl, rest, ?_, ?_⟩
    · simp [OutReq.reply, cfg.bytes_msgGetError]
    · intro p member
      cases List.mem_cons.mp member with
      | inl head => exact Or.inl (head ▸ alone)
      | inr later => exact (passed.cons (Or.inl alone)) p (List.mem_cons_of_mem _ later)
  | @vector _ fragments queue bytes id named failed unmarked siblings apart rest =>
    refine ⟨_, queue, bytes,
      rspSendNext_vector id named failed unmarked siblings apart passed,
      .vector id (by simp) rfl, rest, ?_, ?_⟩
    · simp [OutReq.reply, cfg.bytes_msgGetError]
    · intro p member
      cases List.mem_cons.mp member with
      | inl head =>
        rw [head]
        exact Or.inr (Or.inr apart)
      | inr later =>
        refine (passed p later).imp_right fun other => other.imp_right fun none q inQueue => ?_
        exact none q (List.mem_cons_of_mem _ (List.mem_append_right _ inQueue))

/-- Calls of `rsp_send_next` offer the replies in the order of the queue, and what they offer
is what the queue delivers. -/
theorem rspSendMany_spec {queue before : List OutReq} {bytes : Bytes}
    (delivers : Delivers cfg bad queue bytes) (passed : Passed bad before queue) (n : Nat) :
    ∃ (offered queue' : List OutReq) (bytes' : Bytes),
      rspSendMany cfg n before queue = (offered.reverse ++ before, queue') ∧
      (offered.length = n ∨ (offered.length ≤ n ∧ queue' = [])) ∧
      (∀ r ∈ offered, Offered cfg bad r) ∧ Delivers cfg bad queue' bytes' ∧
      Passed bad (offered.reverse ++ before) queue' ∧
      bytes = bytesOf (offered.map OutReq.reply) ++ bytes' := by
  induction n generalizing queue before bytes with
  | zero => exact ⟨[], queue, bytes, rfl, Or.inl rfl, by simp, delivers, passed, rfl⟩
  | succ n ih =>
    cases queue with
    | nil => exact ⟨[], [], bytes, rfl, Or.inr ⟨by simp, rfl⟩, by simp, delivers, passed, rfl⟩
    | cons r after =>
      obtain ⟨r', after', bytes', next, offered, rest, split, passed'⟩ := delivers.next passed
      obtain ⟨others, queue'', bytes'', many, count, all, last, passed'', split'⟩ :=
        ih rest passed'
      refine ⟨r' :: others, queue'', bytes'', ?_, by simpa using count, ?_, last,
        by simpa using passed'', ?_⟩
      · rw [rspSendMany, next, many]
        simp
      · intro p member
        cases List.mem_cons.mp member with
        | inl head => rwa [head]
        | inr later => exact all p later
      · rw [split, split', List.map_cons, bytesOf_cons, List.append_assoc]

theorem rspSendMany_add (cfg : ReplyConfig) (n k : Nat) (before queue : List OutReq) :
    rspSendMany cfg (n + k) before queue =
      rspSendMany cfg k (rspSendMany cfg n before queue).1
        (rspSendMany cfg n before queue).2 := by
  induction n generalizing before queue with
  | zero => rw [Nat.zero_add, rspSendMany]
  | succ n ih =>
    cases queue with
    | nil => cases k <;> simp [rspSendMany]
    | cons r after => rw [Nat.succ_add, rspSendMany, ih, rspSendMany]

/-- The first calls of a longer walk are the calls of a shorter one. -/
theorem rspSendMany_take {queue : List OutReq} {bytes : Bytes}
    (delivers : Delivers cfg bad queue bytes) {n m : Nat} (shorter : n ≤ m) :
    (rspSendMany cfg n [] queue).1.reverse = (rspSendMany cfg m [] queue).1.reverse.take n := by
  have start : Passed bad [] queue := by simp [Passed]
  obtain ⟨first, queue', bytes', walk, count, _, rest, passed, _⟩ :=
    rspSendMany_spec delivers start n
  obtain ⟨more, queue'', _, walkOn, count', _⟩ := rspSendMany_spec rest passed (m - n)
  have whole : rspSendMany cfg m [] queue = (more.reverse ++ (first.reverse ++ []), queue'') := by
    conv_lhs => rw [← Nat.add_sub_of_le shorter, rspSendMany_add, walk]
    exact walkOn
  rw [walk, whole]
  simp only [List.append_nil, List.reverse_append, List.reverse_reverse]
  rcases count with full | ⟨short, empty⟩
  · rw [List.take_append_of_le_length (by omega), List.take_of_length_le (by omega)]
  · -- The shorter walk has reached the end of the queue already.
    have none : more = [] := by
      have same : rspSendMany cfg (m - n) (first.reverse ++ []) queue' =
          (first.reverse ++ [], []) := by
        subst empty
        cases m - n <;> rfl
      rw [same] at walkOn
      simpa using congrArg (List.length ∘ Prod.fst) walkOn
    rw [none, List.append_nil, List.take_of_length_le short]

/-- The requests offered by one call of `msg_send_chain` are those whose replies are in its
vector; together with the rest of the queue they deliver what the queue did. -/
theorem ClientStream.offered_spec {s : ClientStream} {bytes : Bytes}
    (delivers : Delivers cfg bad s.omsgq bytes) :
    ∃ bytes', (s.offered cfg).1.map OutReq.reply = (s.chain cfg).1 ∧
      (∀ r ∈ (s.offered cfg).1, Offered cfg bad r) ∧
      Delivers cfg bad (s.offered cfg).2 bytes' ∧ bytes = bytesOf (s.chain cfg).1 ++ bytes' := by
  have start : Passed bad [] s.omsgq := by simp [Passed]
  have front : (s.chain cfg).1 <+: s.replies cfg := (collect_spec 0 0 _).1
  have bound : (s.replies cfg).length ≤ s.omsgq.length := by
    obtain ⟨every, _, _, walk, count, _⟩ := rspSendMany_spec delivers start s.omsgq.length
    simp only [ClientStream.replies, walk, List.append_nil, List.reverse_reverse, List.length_map]
    omega
  have replies_eq : (s.offered cfg).1.map OutReq.reply = (s.chain cfg).1 := by
    have walked := rspSendMany_take delivers (front.length_le.trans bound)
    rw [List.prefix_iff_eq_take.mp front]
    simp only [ClientStream.offered, walked, ClientStream.replies, List.map_take]
  obtain ⟨first, queue', bytes', walk, _, all, rest, _, split⟩ :=
    rspSendMany_spec delivers start (s.chain cfg).1.length
  have offered_eq : s.offered cfg = (first, queue') := by
    simp [ClientStream.offered, walk]
  rw [offered_eq] at replies_eq ⊢
  exact ⟨bytes', replies_eq, all, rest, by rw [← replies_eq, split]⟩

end Delivery

/-! ## What one call leaves in the queue -/

/-- The second walk leaves exactly the bytes that were not written. -/
theorem bytesOf_unfinished_settleSent {msgs : List OutMsg} (exact_ : ∀ m ∈ msgs, m.Exact)
    {nsent : Nat}
    (bound : nsent ≤ (bytesOf msgs).length) :
    bytesOf (unfinished (settleSent nsent msgs)) = (bytesOf msgs).drop nsent := by
  induction msgs generalizing nsent with
  | nil => simp [settleSent]
  | cons m msgs ih =>
    have head := exact_ m List.mem_cons_self
    have tail : ∀ m ∈ msgs, m.Exact := fun m later => exact_ m (List.mem_cons_of_mem _ later)
    rw [bytesOf_cons, List.length_append] at bound
    rcases settleSent_cons head nsent msgs with ⟨long, m', walk, _⟩ | ⟨short, m', walk, _, _, left⟩
    · rw [walk, unfinished_cons_true, @ih tail (nsent - m.bytes.length) (by omega),
        bytesOf_cons, List.drop_append, List.drop_eq_nil_of_le long, List.nil_append]
    · rw [walk, unfinished_cons_false, bytesOf_cons, ih tail (Nat.zero_le _), List.drop_zero,
        left, bytesOf_cons, List.drop_append_of_le_length (Nat.le_of_lt short)]

section Run

variable {cfg : ReplyConfig} {bad : Nat → Bool}

/-- A message that is not finished still has its length field and bytes to write. -/
theorem OutMsg.Exact.drop {m m' : OutMsg} (exact_ : m.Exact) {nsent : Nat}
    (short : nsent < m.bytes.length) (mlen : m'.mlen = m.mlen)
    (left : m'.bytes = m.bytes.drop nsent) :
    m'.Exact := by
  have nonempty : m.bytes ≠ [] := by
    intro none
    simp [none] at short
  have more : m'.bytes ≠ [] := by
    rw [left]
    simpa using short
  exact iff_of_false (mlen ▸ mt exact_.mp nonempty) more

/-- The requests that stay deliver what their replies still have to write, if no error reply
among them has lost a byte. -/
theorem delivers_kept {offered : List OutReq} (all : ∀ r ∈ offered, Offered cfg bad r) {nsent : Nat}
    (clean : CleanCut nsent offered) {queue : List OutReq} {bytes : Bytes}
    (rest : Delivers cfg bad queue bytes) :
    Delivers cfg bad
      (ClientStream.kept offered (settleSent nsent (offered.map OutReq.reply)) ++ queue)
      (bytesOf (unfinished (settleSent nsent (offered.map OutReq.reply))) ++ bytes) := by
  induction offered generalizing nsent with
  | nil => exact rest
  | cons r offered ih =>
    obtain ⟨own, others⟩ := clean
    have later := ih (fun r member => all r (List.mem_cons_of_mem _ member)) others
    have offer := all r List.mem_cons_self
    rw [List.map_cons]
    rcases settleSent_cons offer.exact nsent (offered.map OutReq.reply) with
      ⟨_, m', walk, _⟩ | ⟨short, m', walk, _, mlen, left⟩
    · rw [walk]
      exact later
    · rw [Nat.sub_eq_zero_of_le (Nat.le_of_lt short)] at later
      have kept_eq : ClientStream.kept (r :: offered)
          ((m', false) :: settleSent 0 (offered.map OutReq.reply)) = { r with peer := some m' } ::
            ClientStream.kept offered (settleSent 0 (offered.map OutReq.reply)) := rfl
      rw [walk, kept_eq, unfinished_cons_false, bytesOf_cons, List.append_assoc, List.cons_append]
      cases offer with
      | plain fine good peer exact_ =>
        refine .plain fine good rfl (OutMsg.Exact.drop ?_ short mlen left) later
        simpa [OutReq.reply, peer] using exact_
      | scalar failed alone peer =>
        obtain ⟨-, rfl⟩ := (own (by simp [failed])).resolve_left (Nat.not_le_of_lt short)
        have text : m'.bytes = cfg.errorText r.err := by
          rw [left, List.drop_zero, OutReq.reply, peer]
          exact cfg.bytes_msgGetError r.err
        rw [text]
        exact .scalar failed alone later
      | vector id failed peer =>
        exact absurd ((own failed).resolve_left (Nat.not_le_of_lt short)).1 id

/-- A clean call writes the first bytes that the queue delivers and leaves a queue that
delivers the others. -/
theorem ClientStream.delivers_step {s : ClientStream} {bytes : Bytes} {outcome : Option Nat}
    (delivers : Delivers cfg bad s.omsgq bytes) (clean : s.Clean cfg outcome) :
    ∃ bytes', Delivers cfg bad (s.step cfg outcome).omsgq bytes' ∧
      (s.step cfg outcome).written ++ bytes' = s.written ++ bytes := by
  obtain ⟨rest, replies, all, later, split⟩ := s.offered_spec delivers
  have exact_ : ∀ m ∈ (s.chain cfg).1, m.Exact := by
    intro m member
    rw [← replies] at member
    obtain ⟨r, inOffered, rfl⟩ := List.mem_map.mp member
    exact (all r inOffered).exact
  have bound : accepted (s.chain cfg).2 outcome ≤ (bytesOf (s.chain cfg).1).length :=
    accepted_le_bytesOf outcome (s.replies cfg)
  have front : (s.step cfg outcome).written =
      s.written ++ (bytesOf (s.chain cfg).1).take (accepted (s.chain cfg).2 outcome) :=
    congrArg (s.written ++ ·) (take_accepted outcome (s.replies cfg))
  have left : bytesOf (unfinished (s.settled cfg outcome)) =
      (bytesOf (s.chain cfg).1).drop (accepted (s.chain cfg).2 outcome) :=
    bytesOf_unfinished_settleSent exact_ bound
  refine ⟨bytesOf (unfinished (s.settled cfg outcome)) ++ rest, ?_, ?_⟩
  · have kept := delivers_kept all clean later
    rwa [replies] at kept
  · rw [front, left, split, List.append_assoc, ← List.append_assoc (List.take _ _),
      List.take_append_drop]

end Run

/-! ## From completed requests to the bytes on the wire -/

/-- The ids of vector requests in error. -/
def errorIds (all : List Completed) : List Nat :=
  all.filterMap fun
    | .vectorError fragId _ _ => some fragId
    | _ => none

theorem fragId_of_mem_requests {u : Completed} {r : OutReq} (member : r ∈ u.requests) :
    r.fragId = 0 ∨ u.vectorId = some r.fragId := by
  cases u with
  | scalar reply => simp_all [Completed.requests]
  | scalarError err => simp_all [Completed.requests]
  | vector fragId reply fragments =>
    right
    simp only [Completed.requests, List.mem_cons, List.mem_map] at member
    rcases member with rfl | ⟨_, _, rfl⟩ <;> rfl
  | vectorError fragId owner fragments =>
    right
    simp only [Completed.requests, List.mem_cons, List.mem_map] at member
    rcases member with rfl | ⟨_, _, rfl⟩ <;> rfl

theorem firstErr_map_fragId (fragId : Nat) (fragments : List OutReq) :
    OutReq.firstErr (fragments.map fun r => { r with fragId := fragId, ferror := false }) =
      OutReq.firstErr fragments := by
  rw [OutReq.firstErr, List.find?_map, OutReq.firstErr, Option.map_map]
  rfl

/-- Fragments with empty replies deliver nothing. -/
theorem Delivers.fragments {cfg : ReplyConfig} {bad : Nat → Bool} {fragId : Nat}
    (unnamed : bad fragId = false) {fragments : List OutMsg}
    (empty : ∀ m ∈ fragments, m.bytes = [] ∧ m.mlen = 0) {queue : List OutReq} {bytes : Bytes}
    (rest : Delivers cfg bad queue bytes) :
    Delivers cfg bad
      ((fragments.map fun m => { fragId := fragId, peer := some m }) ++ queue) bytes := by
  induction fragments with
  | nil => exact rest
  | cons m fragments ih =>
    obtain ⟨none, zero⟩ := empty m List.mem_cons_self
    have later := ih fun m member => empty m (List.mem_cons_of_mem _ member)
    have head := Delivers.plain (r := { fragId := fragId, peer := some m }) ⟨rfl, rfl⟩
      (Or.inr unnamed) rfl (iff_of_true zero none) later
    rwa [none, List.nil_append] at head

/-- A queue of completed requests delivers one reply per request, in order. -/
theorem delivers_completed {cfg : ReplyConfig} {bad : Nat → Bool} {all : List Completed}
    (proper : ∀ u ∈ all, u.Proper) (distinct : (all.filterMap Completed.vectorId).Nodup)
    (named : ∀ fragId, bad fragId = true → ∀ reply fragments,
      Completed.vector fragId reply fragments ∉ all)
    (inError : ∀ fragId owner fragments,
      Completed.vectorError fragId owner fragments ∈ all → bad fragId = true) :
    Delivers cfg bad (all.flatMap Completed.requests) (all.flatMap (Completed.expected cfg)) := by
  induction all with
  | nil => exact .nil
  | cons u all ih =>
    have later := ih (fun u member => proper u (List.mem_cons_of_mem _ member))
      (List.Nodup.sublist ((List.sublist_cons_self u all).filterMap _) distinct)
      (fun fragId isBad reply fragments member =>
        named fragId isBad reply fragments (List.mem_cons_of_mem _ member))
      (fun fragId owner fragments member =>
        inError fragId owner fragments (List.mem_cons_of_mem _ member))
    have own := proper u List.mem_cons_self
    rw [List.flatMap_cons, List.flatMap_cons]
    cases u with
    | scalar reply => exact .plain ⟨rfl, rfl⟩ (Or.inl rfl) rfl own later
    | scalarError err => exact .scalar rfl rfl later
    | vector fragId reply fragments =>
      have unnamed : bad fragId = false := by
        by_contra isBad
        exact named fragId (by simpa using isBad) reply fragments List.mem_cons_self
      exact .plain ⟨rfl, rfl⟩ (Or.inr unnamed) rfl own.2.1 (later.fragments unnamed own.2.2)
    | vectorError fragId owner fragments =>
      have isBad := inError fragId owner fragments List.mem_cons_self
      have apart : ∀ q ∈ all.flatMap Completed.requests, q.fragId ≠ fragId := by
        intro q member same
        obtain ⟨other, inAll, inOther⟩ := List.mem_flatMap.mp member
        rcases fragId_of_mem_requests inOther with zero | id
        · exact own.1 (same ▸ zero)
        · have fresh : fragId ∉ all.filterMap Completed.vectorId :=
            (List.nodup_cons.mp distinct).1
          exact fresh (List.mem_filterMap.mpr ⟨other, inAll, by rw [id, same]⟩)
      rw [Completed.expected, ← firstErr_map_fragId fragId]
      refine Delivers.vector own.1 isBad ?_ rfl ?_ apart later
      · simpa using own.2
      · simp

/-- Vector requests with one id are one request. -/
theorem eq_of_vectorId_eq {all : List Completed}
    (distinct : (all.filterMap Completed.vectorId).Nodup) {u v : Completed} (inU : u ∈ all)
    (inV : v ∈ all) {fragId : Nat} (idU : u.vectorId = some fragId)
    (idV : v.vectorId = some fragId) : u = v := by
  rw [List.Nodup, List.pairwise_filterMap] at distinct
  have symmetric : Std.Symm fun a b : Completed =>
      ∀ x, a.vectorId = some x → ∀ y, b.vectorId = some y → x ≠ y :=
    ⟨fun a b apart x idX y idY => (apart y idY x idX).symm⟩
  by_contra different
  exact distinct.forall inU inV different fragId idU fragId idV rfl

theorem mem_errorIds {all : List Completed} {fragId : Nat} :
    fragId ∈ errorIds all ↔
      ∃ owner fragments, Completed.vectorError fragId owner fragments ∈ all := by
  rw [errorIds, List.mem_filterMap]
  constructor
  · rintro ⟨u, member, id⟩
    cases u with
    | scalar reply => cases id
    | scalarError err => cases id
    | vector other reply fragments => cases id
    | vectorError other owner fragments =>
      cases id
      exact ⟨owner, fragments, member⟩
  · rintro ⟨owner, fragments, member⟩
    exact ⟨_, member, rfl⟩

/-- In a run whose calls are all clean, the bytes written to the client are at every moment a
prefix of the replies, one per request and in request order; when the queue is empty they are
all of them. -/
theorem clientStream_in_order (cfg : ReplyConfig) (all : List Completed)
    (proper : ∀ u ∈ all, u.Proper) (distinct : (all.filterMap Completed.vectorId).Nodup)
    (outcomes : List (Option Nat))
    (clean : Lib.Along (ClientStream.step cfg) (ClientStream.Clean cfg)
      { omsgq := all.flatMap Completed.requests } outcomes) :
    let final := outcomes.foldl (ClientStream.step cfg)
      { omsgq := all.flatMap Completed.requests }
    final.written <+: all.flatMap (Completed.expected cfg) ∧
      (final.omsgq = [] → final.written = all.flatMap (Completed.expected cfg)) := by
  set bad : Nat → Bool := fun fragId => decide (fragId ∈ errorIds all)
  have start : Delivers cfg bad (all.flatMap Completed.requests)
      (all.flatMap (Completed.expected cfg)) := by
    refine delivers_completed proper distinct ?_ ?_
    · intro fragId isBad reply fragments member
      obtain ⟨owner, others, inError⟩ := mem_errorIds.mp (of_decide_eq_true isBad)
      cases eq_of_vectorId_eq distinct member inError rfl rfl
    · intro fragId owner fragments member
      exact decide_eq_true (mem_errorIds.mpr ⟨owner, fragments, member⟩)
  have keep : ∀ (s : ClientStream) (outcome : Option Nat),
      (∃ rest, Delivers cfg bad s.omsgq rest ∧
        s.written ++ rest = all.flatMap (Completed.expected cfg)) →
      s.Clean cfg outcome →
      ∃ rest, Delivers cfg bad (s.step cfg outcome).omsgq rest ∧
        (s.step cfg outcome).written ++ rest = all.flatMap (Completed.expected cfg) := by
    rintro s outcome ⟨rest, delivers, split⟩ isClean
    obtain ⟨rest', delivers', split'⟩ := s.delivers_step delivers isClean
    exact ⟨rest', delivers', split'.trans split⟩
  obtain ⟨rest, delivers, split⟩ := clean.invariant keep ⟨_, start, rfl⟩
  refine ⟨⟨rest, split⟩, fun empty => ?_⟩
  rw [empty] at delivers
  cases delivers with
  | nil => simpa using split

/-- A redis pool whose `strerror` has one text. -/
def refusedConfig : ReplyConfig :=
  { redis := true, dataSize := 512,
    strerror := fun _ => "Connection refused".toList.map Lib.byteOf }

/-- An ordinary reply, an error reply and a coalesced reply over three calls. -/
theorem clientStream_in_order_mixed :
    let all : List Completed :=
      [.scalar ⟨1, [[43], [79, 75, 13, 10]], 5⟩, .scalarError 111,
        .vector 7 ⟨2, [[58, 49, 13, 10]], 4⟩ [⟨3, [[]], 0⟩, ⟨4, [], 0⟩]]
    let outcomes := [some 2, none, some 3, some 40]
    let final := outcomes.foldl (ClientStream.step refusedConfig)
      { omsgq := all.flatMap Completed.requests }
    final.written <+: all.flatMap (Completed.expected refusedConfig) ∧
      (final.omsgq = [] → final.written = all.flatMap (Completed.expected refusedConfig)) :=
  clientStream_in_order refusedConfig _
    (by simp [Completed.Proper, OutMsg.Exact, OutMsg.bytes])
    (by decide) [some 2, none, some 3, some 40] (by decide)

/-- A short write inside an error reply: the next call writes the reply from its beginning. -/
theorem clientStream_repeats_error_reply :
    ¬ (([some 3, some 40].foldl (ClientStream.step refusedConfig)
      { omsgq := [Completed.scalarError 111].flatMap Completed.requests }).written <+:
        [Completed.scalarError 111].flatMap (Completed.expected refusedConfig)) := by
  decide

end Nutcracker
