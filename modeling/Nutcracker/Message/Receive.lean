import Nutcracker.Message.Parse

/-!
# The receive driver

What `nc_message.c` does with the bytes of a connection.  `msg_recv_chain` reads
into the last mbuf of the message under construction and parses; a complete message
is cut off and the bytes behind it become the start of the next one; a token that
fills up an mbuf is moved to a fresh one.  `msg_recv` goes on reading as long as
every read fills the space it was given.

Sizes of mbufs and lengths of messages are as in the source: an mbuf holds
`dataSize` bytes, the length `mlen` of a message is a `uint32_t`.
-/

namespace Nutcracker

variable {σ : Type}

namespace Msg

/-- `msg_get`: a message without bytes. -/
def fresh (P : Parser σ) : Msg σ :=
  { state := P.start }

/-- Read bytes into the last mbuf. -/
def append (m : Msg σ) (x : Bytes) : Msg σ :=
  { m with
    mhdr := m.mhdr.dropLast ++ [m.lastBuf ++ x], mlen := add32 m.mlen x.length }

/-- Make sure that the last mbuf has space. -/
def prepare (dataSize : Nat) (m : Msg σ) : Msg σ :=
  if m.mhdr = [] ∨ m.lastBuf.length = dataSize then { m with mhdr := m.mhdr ++ [[]], pos := 0 }
  else m

/-- `mbuf_size` of the last mbuf. -/
def space (dataSize : Nat) (m : Msg σ) : Nat :=
  dataSize - m.lastBuf.length

/-- What `mbuf_split` at `pos` leaves of the chain. -/
def head (m : Msg σ) : List Bytes :=
  m.mhdr.dropLast ++ [m.lastBuf.take m.pos]

/-- The mbuf that `mbuf_split` at `pos` returns. -/
def tail (m : Msg σ) : Bytes :=
  m.lastBuf.drop m.pos

theorem flatten_head_append_tail (m : Msg σ) : m.head.flatten ++ m.tail = m.bytes := by
  have last : m.mhdr.dropLast.flatten ++ m.lastBuf = m.mhdr.flatten := by
    rcases List.eq_nil_or_concat m.mhdr with empty | ⟨front, b, chain⟩
    · simp [lastBuf, empty]
    · simp [lastBuf, chain]
  rw [head, tail, List.flatten_append, List.flatten_singleton, List.append_assoc,
    List.take_append_drop, last, bytes]

/-- The length of a message counts its bytes. -/
def Measured (m : Msg σ) : Prop :=
  m.mlen = m.bytes.length % word32

/-- A new message that starts with the bytes `nbuf`. -/
def ofRest (P : Parser σ) (nbuf : Bytes) : Msg σ :=
  { fresh P with mhdr := [nbuf], mlen := add32 0 nbuf.length }

end Msg

/-- What `msg_parse` did to a message: filtered it as empty, completed it, with the
bytes behind it as the next message, left it under construction, or failed. -/
inductive Progress (σ : Type) where
  | filtered
  | completed (msg : Msg σ) (nmsg : Option (Msg σ))
  | pending (msg : Msg σ)
  | failed

/-- `msg_parsed`. -/
def msgParsed (P : Parser σ) (r : Msg σ) : Progress σ :=
  if r.pos = r.lastBuf.length then .completed r none
  else
    .completed
      { r with mhdr := r.head, mlen := sub32 r.mlen r.tail.length }
      (some (.ofRest P r.tail))

/-- `msg_repair`. -/
def msgRepair (r : Msg σ) : Msg σ :=
  { r with mhdr := r.head ++ [r.tail], pos := 0 }

/-- `msg_parse`, for a message that is not empty. -/
def msgParseBytes (P : Parser σ) (dataSize : Nat) (msg : Msg σ) : Progress σ :=
  let r := P.parse dataSize msg
  match r.result with
  | .ok => msgParsed P r
  | .repair => .pending (msgRepair r)
  | .again => .pending r
  | .error => .failed

/-- `msg_parse`.  Whether a message is empty is read off `mlen`. -/
def msgParse (P : Parser σ) (dataSize : Nat) (msg : Msg σ) : Progress σ :=
  if msg.mlen = 0 then .filtered else msgParseBytes P dataSize msg

/-- Whether a connection is still read. -/
inductive RecvStatus where
  | live
  | eof
  | error
  deriving DecidableEq, Repr

/-- The receiving side of a connection: the messages that were handed over by
`recv_done`, the message under construction and the status. -/
structure Receiver (σ : Type) where
  completed : List (Msg σ) := []
  rmsg : Option (Msg σ) := none
  status : RecvStatus := .live

namespace Receiver

/-- `req_recv_done` and `rsp_recv_done` up to their filters: an empty message is
dropped, after a quit nothing more is read and what was read is discarded. -/
def recvDone (conn : Receiver σ) (msg : Msg σ) (nmsg : Option (Msg σ)) : Receiver σ :=
  if msg.mlen = 0 then { conn with rmsg := nmsg }
  else if msg.quit then
    { completed := conn.completed ++ [msg], rmsg := none, status := .eof }
  else { conn with completed := conn.completed ++ [msg], rmsg := nmsg }

section Driver

variable (parse : Msg σ → Progress σ)

/-- The loop of `msg_recv_chain` over the messages in what was read.  The fuel bounds
their number. -/
def parseLoop : Nat → Receiver σ → Msg σ → Receiver σ
  | 0, conn, msg => { conn with rmsg := some msg }
  | fuel + 1, conn, msg =>
      match parse msg with
      | .filtered => { conn with rmsg := none }
      | .pending m => { conn with rmsg := some m }
      | .failed => { conn with rmsg := none, status := .error }
      | .completed m none => conn.recvDone m none
      | .completed m (some nmsg) =>
          let next := conn.recvDone m (some nmsg)
          if next.status = .live then parseLoop fuel next nmsg else next

variable (P : Parser σ) (dataSize : Nat)

/-- The message that the next read goes to. -/
def current (conn : Receiver σ) : Msg σ :=
  (conn.rmsg.getD (.fresh P)).prepare dataSize

/-- `msg_recv_chain` when the read returns the bytes `x`. -/
def msgRecvChain (conn : Receiver σ) (x : Bytes) : Receiver σ :=
  let msg := (conn.current P dataSize).append x
  parseLoop parse (msg.lastBuf.length + 1) conn msg

/-- `msg_recv` when the socket holds the bytes `avail`.  A read returns what fits into
the last mbuf; if it fills it, or if nothing is left, there is another attempt. -/
def msgRecv : Nat → Receiver σ → Bytes → Receiver σ
  | 0, conn, _ => conn
  | fuel + 1, conn, avail =>
      if conn.status = .live then
        let msg := conn.current P dataSize
        if avail = [] then { conn with rmsg := some msg }
        else
          let next := conn.msgRecvChain parse P dataSize (avail.take (msg.space dataSize))
          if avail.length < msg.space dataSize then next
          else msgRecv fuel next (avail.drop (msg.space dataSize))
      else conn

/-- The reads of a connection, one list of available bytes for each event. -/
def receive (conn : Receiver σ) (reads : List Bytes) : Receiver σ :=
  reads.foldl (fun conn avail => conn.msgRecv parse P dataSize (avail.length + 1) avail) conn

/-! ### The calls of `msg_parse` -/

/-- The messages that `parseLoop` hands to `msg_parse`. -/
def loopCalls : Nat → Receiver σ → Msg σ → List (Msg σ)
  | 0, _, _ => []
  | fuel + 1, conn, msg =>
      msg ::
        match parse msg with
        | .completed m (some nmsg) =>
            let next := conn.recvDone m (some nmsg)
            if next.status = .live then loopCalls fuel next nmsg else []
        | _ => []

/-- The messages that `msgRecv` hands to `msg_parse`. -/
def recvCalls : Nat → Receiver σ → Bytes → List (Msg σ)
  | 0, _, _ => []
  | fuel + 1, conn, avail =>
      if conn.status = .live then
        let msg := conn.current P dataSize
        if avail = [] then []
        else
          let piece := msg.append (avail.take (msg.space dataSize))
          let calls := loopCalls parse (piece.lastBuf.length + 1) conn piece
          let next := conn.msgRecvChain parse P dataSize (avail.take (msg.space dataSize))
          if avail.length < msg.space dataSize then calls
          else calls ++ recvCalls fuel next (avail.drop (msg.space dataSize))
      else []

/-- The messages that `receive` hands to `msg_parse`. -/
def receiveCalls (conn : Receiver σ) : List Bytes → List (Msg σ)
  | [] => []
  | avail :: reads =>
      recvCalls parse P dataSize (avail.length + 1) conn avail ++
        receiveCalls (conn.msgRecv parse P dataSize (avail.length + 1) avail) reads

end Driver

end Receiver

end Nutcracker
