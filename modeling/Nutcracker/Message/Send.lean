import Nutcracker.Lib.Gather
import Nutcracker.Message.Core

/-!
# Sending messages

`msg_send_chain` gathers the bytes of several messages into one vector of at most
`NC_IOV_MAX` pieces, writes it, and walks over the same messages again to attribute
the bytes that were accepted: it advances the read positions and finishes every
message whose last byte was written.

On a server connection the messages are the requests at the head of `imsg_q`, and
`req_send_done` takes a finished one out of the queue.
-/

namespace Nutcracker

open Lib

/-- `NC_IOV_MAX`: the number of pieces of one vector. -/
def iovMax : Nat := 128

/-- `SSIZE_MAX`: the number of bytes of one vector. -/
def ssizeMax : Nat := 2 ^ 63 - 1

/-- A message as the send path sees it: the bytes of each mbuf from `pos` to `last`, and the
length `mlen`, which sending does not change. -/
structure OutMsg where
  id : Nat
  mhdr : List Bytes
  mlen : Nat
  deriving DecidableEq, Repr

namespace OutMsg

/-- The bytes of the message that are not written yet. -/
def bytes (m : OutMsg) : Bytes :=
  m.mhdr.flatten

/-- `msg_empty`. -/
def isEmpty (m : OutMsg) : Bool :=
  m.mlen == 0

/-- The length field counts the bytes of the message. -/
def Counted (m : OutMsg) : Prop :=
  m.mlen = m.bytes.length % word32

/-- The length field tells whether there are bytes to write. -/
def Exact (m : OutMsg) : Prop :=
  m.mlen = 0 ↔ m.bytes = []

instance (m : OutMsg) : Decidable m.Counted :=
  inferInstanceAs (Decidable (_ = _))

end OutMsg

/-- The unwritten bytes of a queue of messages. -/
def bytesOf (msgs : List OutMsg) : Bytes :=
  msgs.flatMap OutMsg.bytes

@[simp]
theorem bytesOf_nil : bytesOf [] = [] :=
  rfl

@[simp]
theorem bytesOf_cons (m : OutMsg) (msgs : List OutMsg) :
    bytesOf (m :: msgs) = m.bytes ++ bytesOf msgs :=
  rfl

@[simp]
theorem bytesOf_append (msgs others : List OutMsg) :
    bytesOf (msgs ++ others) = bytesOf msgs ++ bytesOf others :=
  List.flatMap_append

/-! ## The two walks of `msg_send_chain` -/

/-- The first walk: the messages put on `send_msgq` and the vector built from them, when the
vector has `niov` pieces of `nsend` bytes already. -/
def collect : Nat → Nat → List OutMsg → List OutMsg × List Bytes
  | _, _, [] => ([], [])
  | niov, nsend, m :: msgs =>
    let sendv := gather iovMax ssizeMax niov nsend m.mhdr
    if niov + sendv.length ≥ iovMax ∨ nsend + sendv.flatten.length ≥ ssizeMax then ([m], sendv)
    else
      let rest := collect (niov + sendv.length) (nsend + sendv.flatten.length) msgs
      (m :: rest.1, sendv ++ rest.2)

/-- The second walk: each message of `send_msgq` with its mbufs adjusted, and whether
`send_done` is called on it. -/
def settleSent : Nat → List OutMsg → List (OutMsg × Bool)
  | _, [] => []
  | nsent, m :: msgs =>
    if nsent = 0 then (m, m.isEmpty) :: settleSent 0 msgs
    else
      let walk := consume nsent m.mhdr
      ({ m with mhdr := walk.1 }, walk.2.2) :: settleSent walk.2.1 msgs

/-- The number of bytes written: what `writev` accepts of what it is offered, and none when it
returns `EAGAIN` or nothing is offered. -/
def accepted (sendv : List Bytes) (outcome : Option Nat) : Nat :=
  min (outcome.getD 0) sendv.flatten.length

/-- The messages finished by the second walk. -/
def finished (settled : List (OutMsg × Bool)) : List OutMsg :=
  (settled.filter (·.2)).map (·.1)

/-- The messages that stay in their queue. -/
def unfinished (settled : List (OutMsg × Bool)) : List OutMsg :=
  (settled.filter (!·.2)).map (·.1)

@[simp]
theorem finished_nil : finished [] = [] :=
  rfl

@[simp]
theorem unfinished_nil : unfinished [] = [] :=
  rfl

@[simp]
theorem finished_cons_true (m : OutMsg) (settled : List (OutMsg × Bool)) :
    finished ((m, true) :: settled) = m :: finished settled :=
  rfl

@[simp]
theorem finished_cons_false (m : OutMsg) (settled : List (OutMsg × Bool)) :
    finished ((m, false) :: settled) = finished settled :=
  rfl

@[simp]
theorem unfinished_cons_true (m : OutMsg) (settled : List (OutMsg × Bool)) :
    unfinished ((m, true) :: settled) = unfinished settled :=
  rfl

@[simp]
theorem unfinished_cons_false (m : OutMsg) (settled : List (OutMsg × Bool)) :
    unfinished ((m, false) :: settled) = m :: unfinished settled :=
  rfl

/-- The vector is built from the front of the queue, and offers its bytes without a gap. -/
theorem collect_spec (niov nsend : Nat) (msgs : List OutMsg) :
    (collect niov nsend msgs).1 <+: msgs ∧
      (collect niov nsend msgs).2.flatten <+: bytesOf (collect niov nsend msgs).1 := by
  induction msgs generalizing niov nsend with
  | nil => exact ⟨List.nil_prefix, List.nil_prefix⟩
  | cons m msgs ih =>
    rw [collect]
    split
    · refine ⟨by simp, ?_⟩
      simpa [OutMsg.bytes] using flatten_gather_prefix niov nsend m.mhdr
    · -- The message left room in the vector, so all of it is offered.
      rename_i room
      have whole := flatten_gather_of_room
        ⟨Nat.lt_of_not_le fun full => room (Or.inl full),
          Nat.lt_of_not_le fun full => room (Or.inr full)⟩
      have rest := ih (niov + (gather iovMax ssizeMax niov nsend m.mhdr).length)
        (nsend + (gather iovMax ssizeMax niov nsend m.mhdr).flatten.length)
      refine ⟨by simpa using rest.1, ?_⟩
      rw [whole] at rest ⊢
      rw [List.flatten_append, whole, bytesOf_cons]
      exact (List.prefix_append_right_inj m.bytes).mpr rest.2

/-- One message of the second walk, by how much of it was written. -/
theorem settleSent_cons {m : OutMsg} (exact_ : m.Exact) (nsent : Nat) (msgs : List OutMsg) :
    (m.bytes.length ≤ nsent ∧ ∃ m' : OutMsg,
        settleSent nsent (m :: msgs) = (m', true) :: settleSent (nsent - m.bytes.length) msgs ∧
          m'.id = m.id) ∨
      (nsent < m.bytes.length ∧ ∃ m' : OutMsg,
        settleSent nsent (m :: msgs) = (m', false) :: settleSent 0 msgs ∧
          m'.id = m.id ∧ m'.mlen = m.mlen ∧ m'.bytes = m.bytes.drop nsent) := by
  rw [settleSent]
  by_cases none : nsent = 0
  · subst none
    by_cases empty : m.bytes = []
    · left
      refine ⟨by simp [empty], m, ?_, rfl⟩
      simp [OutMsg.isEmpty, exact_.mpr empty]
    · right
      refine ⟨List.length_pos_of_ne_nil empty, m, ?_, rfl, rfl, by simp⟩
      simp [OutMsg.isEmpty, mt exact_.mp empty]
  · rw [if_neg none]
    by_cases short : nsent < m.bytes.length
    · right
      have walk := consume_short short
      refine ⟨short, { m with mhdr := (consume nsent m.mhdr).1 }, ?_, rfl, rfl, walk.1⟩
      simp [walk.2]
    · left
      have walk := consume_long (Nat.le_of_not_lt short)
      refine ⟨Nat.le_of_not_lt short, { m with mhdr := (consume nsent m.mhdr).1 }, ?_, rfl⟩
      simp [walk.2, OutMsg.bytes]

theorem accepted_le_bytesOf (outcome : Option Nat) (msgs : List OutMsg) :
    accepted (collect 0 0 msgs).2 outcome ≤ (bytesOf (collect 0 0 msgs).1).length :=
  (Nat.min_le_right _ _).trans (collect_spec 0 0 msgs).2.length_le

/-- The bytes accepted are the first ones of the messages in the vector. -/
theorem take_accepted (outcome : Option Nat) (msgs : List OutMsg) :
    (collect 0 0 msgs).2.flatten.take (accepted (collect 0 0 msgs).2 outcome) =
      (bytesOf (collect 0 0 msgs).1).take (accepted (collect 0 0 msgs).2 outcome) := by
  obtain ⟨rest, split⟩ := (collect_spec 0 0 msgs).2
  have offered : accepted (collect 0 0 msgs).2 outcome ≤ (collect 0 0 msgs).2.flatten.length :=
    Nat.min_le_right _ _
  rw [← split, List.take_append_of_le_length offered]

/-! ## A server connection -/

/-- The message has bytes to write, and its length field says so. -/
def OutMsg.Pending (m : OutMsg) : Prop :=
  m.mlen ≠ 0 ∧ m.bytes ≠ []

theorem OutMsg.Pending.exact {m : OutMsg} (pending : m.Pending) : m.Exact :=
  iff_of_false pending.1 pending.2

/-- What a queue of messages has become when the bytes `sent` of its first message are
written: the others are untouched. -/
def Cut (sent : Bytes) : List OutMsg → List OutMsg → Prop
  | [], [] => sent = []
  | m :: msgs, m' :: msgs' =>
    m'.id = m.id ∧ m'.mlen = m.mlen ∧ sent ++ m'.bytes = m.bytes ∧ m'.bytes ≠ [] ∧ msgs' = msgs
  | _, _ => False

theorem cut_refl {msgs : List OutMsg} (pending : ∀ m ∈ msgs, m.Pending) : Cut [] msgs msgs := by
  cases msgs with
  | nil => rfl
  | cons m msgs => exact ⟨rfl, rfl, rfl, (pending m List.mem_cons_self).2, rfl⟩

theorem Cut.append {sent : Bytes} {msgs queue : List OutMsg} (cut : Cut sent msgs queue)
    {more : List OutMsg} (pending : ∀ m ∈ more, m.Pending) :
    Cut sent (msgs ++ more) (queue ++ more) := by
  match msgs, queue, cut with
  | [], [], nothing =>
    obtain rfl : sent = [] := nothing
    exact cut_refl pending
  | m :: msgs, m' :: queue, ⟨id, mlen, split, rest, tail⟩ =>
    exact ⟨id, mlen, split, rest, by rw [tail]⟩

theorem Cut.pending {sent : Bytes} {msgs queue : List OutMsg} (cut : Cut sent msgs queue)
    (pending : ∀ m ∈ msgs, m.Pending) : ∀ m ∈ queue, m.Pending := by
  match msgs, queue, cut with
  | [], [], _ => exact pending
  | m :: msgs, m' :: queue, ⟨_, mlen, _, rest, tail⟩ =>
    subst tail
    intro other member
    cases List.mem_cons.mp member with
    | inl head =>
      rw [head]
      exact ⟨mlen ▸ (pending m List.mem_cons_self).1, rest⟩
    | inr later => exact pending other (List.mem_cons_of_mem _ later)

theorem settleSent_zero {msgs : List OutMsg} (pending : ∀ m ∈ msgs, m.Pending) :
    settleSent 0 msgs = msgs.map (·, false) := by
  induction msgs with
  | nil => rfl
  | cons m msgs ih =>
    have head := (pending m List.mem_cons_self).1
    rw [settleSent, if_pos rfl, ih fun m later => pending m (List.mem_cons_of_mem _ later)]
    simp [OutMsg.isEmpty, head]

theorem finished_pending (msgs : List OutMsg) : finished (msgs.map (·, false)) = [] := by
  simp [finished]

theorem unfinished_pending (msgs : List OutMsg) : unfinished (msgs.map (·, false)) = msgs := by
  induction msgs with
  | nil => rfl
  | cons m msgs ih => rw [List.map_cons, unfinished_cons_false, ih]

/-- The second walk finishes the messages that are written completely, in order, and cuts the
one in which the written bytes end. -/
theorem settleSent_cut {msgs : List OutMsg} (pending : ∀ m ∈ msgs, m.Pending) {nsent : Nat}
    (bound : nsent ≤ (bytesOf msgs).length) :
    ∃ done rest sent, msgs = done ++ rest ∧
      (finished (settleSent nsent msgs)).map OutMsg.id = done.map OutMsg.id ∧
      Cut sent rest (unfinished (settleSent nsent msgs)) ∧
      (bytesOf msgs).take nsent = bytesOf done ++ sent := by
  induction msgs generalizing nsent with
  | nil => exact ⟨[], [], [], rfl, rfl, rfl, by simp⟩
  | cons m msgs ih =>
    have head := pending m List.mem_cons_self
    have tail : ∀ m ∈ msgs, m.Pending := fun m later => pending m (List.mem_cons_of_mem _ later)
    rw [bytesOf_cons, List.length_append] at bound
    rcases settleSent_cons head.exact nsent msgs with ⟨long, m', walk, id⟩ | ⟨short, m', walk, rest⟩
    · obtain ⟨done, rest, sent, split, ids, cut, written⟩ :=
        @ih tail (nsent - m.bytes.length) (by omega)
      refine ⟨m :: done, rest, sent, by rw [split, List.cons_append], ?_, ?_, ?_⟩
      · rw [walk, finished_cons_true, List.map_cons, List.map_cons, ids, id]
      · rwa [walk, unfinished_cons_true]
      · rw [bytesOf_cons, bytesOf_cons, List.take_append, List.take_of_length_le long, written,
          List.append_assoc]
    · obtain ⟨id, mlen, left⟩ := rest
      refine ⟨[], m :: msgs, m.bytes.take nsent, rfl, ?_, ?_, ?_⟩
      · rw [walk, finished_cons_false, settleSent_zero tail, finished_pending]
      · rw [walk, unfinished_cons_false, settleSent_zero tail, unfinished_pending]
        refine ⟨id, mlen, ?_, ?_, rfl⟩
        · rw [left, List.take_append_drop]
        · rw [left]
          intro none
          have := congrArg List.length none
          simp at this
          omega
      · rw [bytesOf_cons, List.take_append_of_le_length (Nat.le_of_lt short)]
        rfl

/-- A server connection that is sending: its `imsg_q`, the bytes written on its socket, and the
messages on which `req_send_done` was called. -/
structure ServerStream where
  imsgq : List OutMsg := []
  written : Bytes := []
  done : List Nat := []

/-- A call of `msg_send_chain`, with the messages enqueued since the call before it and what
`writev` returns. -/
structure SendCall where
  enqueued : List OutMsg := []
  outcome : Option Nat
  deriving DecidableEq, Repr

/-- One call of `msg_send_chain` on a server connection. -/
def ServerStream.step (s : ServerStream) (call : SendCall) : ServerStream :=
  let queue := s.imsgq ++ call.enqueued
  let chain := collect 0 0 queue
  let nsent := accepted chain.2 call.outcome
  let settled := settleSent nsent chain.1
  { imsgq := unfinished settled ++ queue.drop chain.1.length
    written := s.written ++ chain.2.flatten.take nsent
    done := s.done ++ (finished settled).map OutMsg.id }

/-- The number of bytes that `writev` accepts in a call. -/
def ServerStream.accepts (s : ServerStream) (call : SendCall) : Nat :=
  accepted (collect 0 0 (s.imsgq ++ call.enqueued)).2 call.outcome

/-- The stream has passed the messages `done`, which were finished in order, and `sent` of the
first one of `rest`. -/
structure ServerStream.At (s : ServerStream) (done rest : List OutMsg) (sent : Bytes) : Prop where
  done_eq : s.done = done.map OutMsg.id
  written_eq : s.written = bytesOf done ++ sent
  cut : Cut sent rest s.imsgq

/-- The stream is somewhere in the given messages. -/
def ServerStream.Follows (s : ServerStream) (all : List OutMsg) : Prop :=
  ∃ done rest sent, all = done ++ rest ∧ s.At done rest sent

/-- Passing on from inside a message. -/
theorem Cut.advance {sent more : Bytes} {msgs queue done rest left : List OutMsg}
    (cut : Cut sent msgs queue) (split : queue = done ++ rest) (next : Cut more rest left) :
    ∃ done' rest' sent', msgs = done' ++ rest' ∧ done'.map OutMsg.id = done.map OutMsg.id ∧
      Cut sent' rest' left ∧ sent ++ (bytesOf done ++ more) = bytesOf done' ++ sent' := by
  match msgs, queue, cut with
  | [], [], nothing =>
    obtain rfl : sent = [] := nothing
    obtain ⟨rfl, rfl⟩ := List.nil_eq_append_iff.mp split
    exact ⟨[], [], more, rfl, rfl, next, by simp⟩
  | m :: msgs, m' :: queue, ⟨id, mlen, whole, _, tail⟩ =>
    subst tail
    match done, split with
    | [], split =>
      -- The write ends in the message that was cut already.
      subst split
      match left, next with
      | last :: left, ⟨id', mlen', whole', nonempty, tail'⟩ =>
        refine ⟨[], m :: queue, sent ++ more, rfl, rfl, ?_, by simp⟩
        refine ⟨id'.trans id, mlen'.trans mlen, ?_, nonempty, tail'⟩
        rw [List.append_assoc, whole', whole]
    | first :: done, split =>
      obtain ⟨rfl, rfl⟩ := List.cons_eq_cons.mp split
      refine ⟨m :: done, rest, more, rfl, by simp [id], next, ?_⟩
      rw [bytesOf_cons, bytesOf_cons, ← whole]
      simp [List.append_assoc]

/-- One call moves the stream on over the bytes it writes. -/
theorem ServerStream.Follows.step {s : ServerStream} {all : List OutMsg} (here : s.Follows all)
    {call : SendCall} (pending : ∀ m ∈ all ++ call.enqueued, m.Pending) :
    (s.step call).Follows (all ++ call.enqueued) := by
  obtain ⟨done, rest, sent, rfl, here⟩ := here
  rw [List.append_assoc] at pending ⊢
  have ahead : ∀ m ∈ rest ++ call.enqueued, m.Pending := fun m member =>
    pending m (List.mem_append_right _ member)
  have cut : Cut sent (rest ++ call.enqueued) (s.imsgq ++ call.enqueued) :=
    here.cut.append fun m member => ahead m (List.mem_append_right _ member)
  set queue := s.imsgq ++ call.enqueued
  have sendable : ∀ m ∈ queue, m.Pending := cut.pending ahead
  set chain := collect 0 0 queue
  have taken : queue = chain.1 ++ queue.drop chain.1.length :=
    List.prefix_iff_eq_append.mp (collect_spec 0 0 queue).1 |>.symm
  have inChain : ∀ m ∈ chain.1, m.Pending := fun m member =>
    sendable m (taken ▸ List.mem_append_left _ member)
  have behind : ∀ m ∈ queue.drop chain.1.length, m.Pending := fun m member =>
    sendable m (List.mem_of_mem_drop member)
  obtain ⟨fin, unfin, more, split, ids, next, bytes⟩ :=
    settleSent_cut inChain (accepted_le_bytesOf call.outcome queue)
  have whole : queue = fin ++ (unfin ++ queue.drop chain.1.length) := by
    rw [← List.append_assoc, ← split]
    exact taken
  obtain ⟨done', rest', sent', all, ids', cut', written⟩ :=
    cut.advance whole (next.append behind)
  refine ⟨done ++ done', rest', sent', by rw [List.append_assoc, ← all], ?_, ?_, cut'⟩
  · rw [List.map_append, ids', ← ids, ← here.done_eq]
    rfl
  · rw [bytesOf_append, List.append_assoc, ← written, ← bytes, ← List.append_assoc,
      ← here.written_eq, ← take_accepted call.outcome queue]
    rfl

theorem ServerStream.Follows.run {s : ServerStream} {all : List OutMsg} (here : s.Follows all)
    {calls : List SendCall}
    (pending : ∀ m ∈ all ++ calls.flatMap SendCall.enqueued, m.Pending) :
    (calls.foldl ServerStream.step s).Follows (all ++ calls.flatMap SendCall.enqueued) := by
  induction calls generalizing s all with
  | nil => simpa using here
  | cons call calls ih =>
    rw [List.flatMap_cons, ← List.append_assoc] at pending ⊢
    exact ih (here.step fun m member => pending m (List.mem_append_left _ member)) pending

end Nutcracker
