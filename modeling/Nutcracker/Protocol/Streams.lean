import Nutcracker.Message.Segmentation
import Nutcracker.Redis.RequestSimulation
import Nutcracker.Redis.ResponseLoop
import Nutcracker.Memcache.Loop

/-!
# The streams of the four parsers

The receive driver is started on a connection of one of the four kinds and given a
stream in pieces.  As long as no message grows to a multiple of `2 ^ 32` bytes at the
end of a piece, the outcome does not depend on the pieces.

It does depend on them in general: a message of that length is taken for an empty one
and dropped, and the parser starts anew on whatever comes next.
-/

namespace Nutcracker

open Lib

/-- The four protocol parsers. -/
inductive ParserKind where
  | redisReq
  | redisRsp
  | memcacheReq
  | memcacheRsp
  deriving DecidableEq, Repr

namespace ParserKind

/-- The automaton states of a parser. -/
def State : ParserKind → Type
  | redisReq => ReqState
  | redisRsp => RspState
  | memcacheReq => McReqState
  | memcacheRsp => McRspState

/-- The parser that a connection of this kind runs. -/
def parser : (kind : ParserKind) → Parser kind.State
  | redisReq => redisReqParser
  | redisRsp => redisRspParser
  | memcacheReq => memcacheReqParser
  | memcacheRsp => memcacheRspParser

/-- All four parsers make progress and can be suspended. -/
def lawful (dataSize : Nat) : (kind : ParserKind) → kind.parser.Lawful dataSize
  | redisReq => redisReqLawful dataSize
  | redisRsp => redisRspLawful dataSize
  | memcacheReq => memcacheReqLawful dataSize
  | memcacheRsp => memcacheRspLawful dataSize

/-- A new connection after it has read a stream that arrives in pieces. -/
def connection (kind : ParserKind) (dataSize : Nat) (reads : List Bytes) : Receiver kind.State :=
  ({} : Receiver kind.State).receive (msgParse kind.parser dataSize) kind.parser dataSize reads

/-- What a new connection makes of a stream that arrives in pieces. -/
def outcome (kind : ParserKind) (dataSize : Nat) (reads : List Bytes) : Receiver.Outcome :=
  (({} : Receiver kind.State).receive (msgParse kind.parser dataSize) kind.parser dataSize
    reads).outcome

/-- In none of the calls of `msg_parse` the length of the message has wrapped around
to 0. -/
def Unwrapped (kind : ParserKind) (dataSize : Nat) (reads : List Bytes) : Prop :=
  ({} : Receiver kind.State).Unwrapped kind.parser dataSize reads

instance (kind : ParserKind) (dataSize : Nat) (reads : List Bytes) :
    Decidable (kind.Unwrapped dataSize reads) :=
  inferInstanceAs (Decidable (∀ m ∈ _, _))

end ParserKind

/-- Two ways to cut a stream into reads have the same outcome: the same completed
messages and the same end, an error, a quit or an incomplete message. -/
theorem outcome_eq_of_flatten_eq (kind : ParserKind) {dataSize : Nat} (large : 464 ≤ dataSize)
    {reads reads' : List Bytes} (stream : reads.flatten = reads'.flatten)
    (unwrapped : kind.Unwrapped dataSize reads) (unwrapped' : kind.Unwrapped dataSize reads') :
    kind.outcome dataSize reads = kind.outcome dataSize reads' := by
  have positive : 0 < dataSize := by omega
  have lawful := kind.lawful dataSize
  rw [ParserKind.outcome, ParserKind.outcome, Receiver.receive_outcome lawful positive unwrapped,
    Receiver.receive_outcome lawful positive unwrapped', stream]

/-- A request for two keys and the beginning of another one, in one piece and in many. -/
theorem outcome_eq_of_flatten_eq_get :
    let stream := "get a bc\r\nse".toList.map byteOf
    ParserKind.memcacheReq.outcome 464 [stream] =
      ParserKind.memcacheReq.outcome 464 [stream.take 1, (stream.drop 1).take 8, stream.drop 9] :=
  outcome_eq_of_flatten_eq .memcacheReq (by decide) (by decide) (by decide +kernel)
    (by decide +kernel)

/-! ## A message of `2 ^ 32` bytes -/

section Wrap

variable {dataSize n : Nat} {conn : Receiver McReqState}

/-- A message that consists of `n` blanks. -/
structure Blanks (dataSize n : Nat) (m : Msg McReqState) : Prop where
  scan : m.toScan = { state := .swStart }
  pos : m.pos = n % dataSize
  buf : m.lastBuf = List.replicate (n % dataSize) (byteOf ' ')
  chain : m.mhdr ≠ []
  mlen : m.mlen = n

/-- A connection that has read `n` blanks and nothing else. -/
structure Blank (dataSize n : Nat) (conn : Receiver McReqState) : Prop where
  completed : conn.completed = []
  live : conn.status = .live
  current : Blanks dataSize n (conn.current memcacheReqParser dataSize)

theorem blank_new : Blank dataSize 0 {} := by
  have current : ({} : Receiver McReqState).current memcacheReqParser dataSize =
      { Msg.fresh memcacheReqParser with mhdr := [[]] } := Msg.prepare_fresh
  refine ⟨rfl, rfl, ?_⟩
  rw [current]
  constructor <;> simp [Msg.fresh, Msg.lastBuf, memcacheReqParser]

namespace Blanks

variable {m : Msg McReqState} (blanks : Blanks dataSize n m)
include blanks

theorem length_lastBuf : m.lastBuf.length = n % dataSize := by
  rw [blanks.buf, List.length_replicate]

theorem prepare_eq (positive : 0 < dataSize) : m.prepare dataSize = m := by
  refine Msg.prepare_of_space blanks.chain ?_
  rw [blanks.length_lastBuf]
  exact Nat.mod_lt n positive

theorem parsable (positive : 0 < dataSize) (short : n < word32) :
    (memcacheReqLawful dataSize).Parsable m where
  chain := blanks.chain
  fits := by
    rw [blanks.length_lastBuf]
    exact (Nat.mod_lt n positive).le
  inside := by rw [blanks.length_lastBuf, blanks.pos]
  good := (memcacheReqLawful dataSize).good_of_none (by rw [blanks.scan])
  mlen := by rwa [blanks.mlen]

/-- The message with one more blank, as a call of the parser leaves it. -/
def more (m : Msg McReqState) : Msg McReqState :=
  Parser.Lawful.suspended (m.append [byteOf ' ']) { state := .swStart }

theorem mlen_append (short : n + 1 < word32) : (m.append [byteOf ' ']).mlen = n + 1 := by
  change add32 m.mlen 1 = n + 1
  rw [blanks.mlen, add32, Nat.mod_eq_of_lt short]

/-- A blank before a request is passed over. -/
theorem parse (positive : 0 < dataSize) (short : n + 1 < word32) :
    msgParse memcacheReqParser dataSize (m.append [byteOf ' ']) = .pending (more m) := by
  have parsable := (blanks.parsable positive (by omega)).append (x := [byteOf ' ']) (by
    rw [blanks.length_lastBuf]
    exact Nat.mod_lt n positive)
  have nonzero : (m.append [byteOf ' ']).mlen ≠ 0 := by
    rw [blanks.mlen_append short]
    exact Nat.succ_ne_zero n
  rw [msgParse, if_neg nonzero]
  refine (memcacheReqLawful dataSize).msgParseBytes_next (q := n % dataSize + 1) parsable ?_
    (fun _ => rfl)
  unfold Parser.Loops
  rw [Msg.lastBuf_append, Msg.toScan_append, blanks.scan]
  change Runs _ _ _ m.pos _
  rw [blanks.pos, List.length_append, blanks.length_lastBuf]
  refine .more (Nat.lt_succ_self _) ?_ (.exit (Nat.le_refl _))
  simp [memcacheReqParser, memcacheParseReqStep, mcReqStart, blanks.buf]

theorem prepare_more (positive : 0 < dataSize) (short : n + 1 < word32) :
    Blanks dataSize (n + 1) ((more m).prepare dataSize) := by
  have buf : (more m).lastBuf = List.replicate (n % dataSize + 1) (byteOf ' ') := by
    rw [List.replicate_succ', ← blanks.buf]
    exact Msg.lastBuf_append m _
  have pos : (more m).pos = n % dataSize + 1 := by
    change (m.append [byteOf ' ']).lastBuf.length = _
    rw [Msg.lastBuf_append, List.length_append, blanks.length_lastBuf]
    rfl
  have mlen : (more m).mlen = n + 1 := blanks.mlen_append short
  have chain : (more m).mhdr ≠ [] := by simp [more, Parser.Lawful.suspended, Msg.append]
  have next : (n + 1) % dataSize = (n % dataSize + 1) % dataSize := by rw [Nat.mod_add_mod]
  by_cases full : n % dataSize + 1 = dataSize
  · have prepared : (more m).prepare dataSize =
        { more m with mhdr := (more m).mhdr ++ [[]], pos := 0 } := by
      simp [Msg.prepare, buf, full]
    rw [full, Nat.mod_self] at next
    rw [prepared]
    exact ⟨rfl, next.symm, by simp [Msg.lastBuf, next], by simp, mlen⟩
  · have space : n % dataSize + 1 < dataSize :=
      Nat.lt_of_le_of_ne (Nat.mod_lt n positive) full
    rw [Nat.mod_eq_of_lt space] at next
    rw [Msg.prepare_of_space chain (by rwa [buf, List.length_replicate])]
    exact ⟨rfl, by rw [pos, next], by rw [buf, next], chain, mlen⟩

end Blanks

namespace Blank

variable (blank : Blank dataSize n conn) (positive : 0 < dataSize)
include blank positive

theorem step (short : n + 1 < word32) :
    Blank dataSize (n + 1)
      (conn.msgRecv (msgParse memcacheReqParser dataSize) memcacheReqParser dataSize 2
        [byteOf ' ']) := by
  have room : 0 < (conn.current memcacheReqParser dataSize).space dataSize := by
    rw [Msg.space, blank.current.length_lastBuf]
    exact Nat.sub_pos_of_lt (Nat.mod_lt n positive)
  have taken : [byteOf ' '].take ((conn.current memcacheReqParser dataSize).space dataSize) =
      [byteOf ' '] := List.take_of_length_le room
  have left : [byteOf ' '].drop ((conn.current memcacheReqParser dataSize).space dataSize) =
      [] := List.drop_of_length_le room
  have next : Blank dataSize (n + 1) (conn.msgRecvChain (msgParse memcacheReqParser dataSize)
      memcacheReqParser dataSize [byteOf ' ']) := by
    rw [Receiver.msgRecvChain, Receiver.parseLoop, blank.current.parse positive short]
    exact ⟨blank.completed, blank.live, blank.current.prepare_more positive short⟩
  rw [Receiver.msgRecv, if_pos blank.live]
  simp only [List.cons_ne_nil, if_false, taken, left]
  split
  · exact next
  · rw [Receiver.msgRecv, if_pos next.live, if_pos rfl]
    refine ⟨next.completed, next.live, ?_⟩
    -- the attempt to read more finds an mbuf with space
    change Blanks dataSize (n + 1) (Msg.prepare dataSize (Receiver.current _ _ _))
    rw [next.current.prepare_eq positive]
    exact next.current

end Blank

/-- Blanks before a request are only counted. -/
theorem blank_receive (positive : 0 < dataSize) (short : n < word32) :
    Blank dataSize n
      (({} : Receiver McReqState).receive (msgParse memcacheReqParser dataSize) memcacheReqParser
        dataSize (List.replicate n [byteOf ' '])) := by
  induction n with
  | zero => exact blank_new
  | succ n ih =>
    rw [List.replicate_succ', Receiver.receive, List.foldl_append]
    exact (ih (by omega)).step positive short

/-- A read after `2 ^ 32 - 1` blanks; they end inside an mbuf of 464 bytes. -/
theorem Blank.msgRecv_eq {x : Bytes} (blank : Blank 464 n conn) (all : n + 1 = word32)
    (nonempty : x ≠ []) (short : x.length < 449) (fuel : Nat) :
    conn.msgRecv (msgParse memcacheReqParser 464) memcacheReqParser 464 (fuel + 1) x =
      conn.msgRecvChain (msgParse memcacheReqParser 464) memcacheReqParser 464 x := by
  have space : (conn.current memcacheReqParser 464).space 464 = 449 := by
    have value : word32 = 4294967296 := by decide
    rw [value] at all
    rw [Msg.space, blank.current.length_lastBuf]
    omega
  rw [Receiver.msgRecv, if_pos blank.live, if_neg nonempty]
  simp only [space, if_pos short, List.take_of_length_le short.le]

/-- One more byte, and everything read so far is dropped. -/
theorem Blank.dropped {ch : UInt8} (blank : Blank dataSize n conn) (all : n + 1 = word32) :
    conn.msgRecvChain (msgParse memcacheReqParser dataSize) memcacheReqParser dataSize [ch] =
      {} := by
  have mlen : ((conn.current memcacheReqParser dataSize).append [ch]).mlen = 0 := by
    change add32 _ 1 = 0
    rw [blank.current.mlen, add32, all, Nat.mod_self]
  rw [Receiver.msgRecvChain, Receiver.parseLoop, msgParse, if_pos mlen]
  obtain ⟨completed, rmsg, status⟩ := conn
  obtain rfl : completed = [] := blank.completed
  obtain rfl : status = .live := blank.live
  rfl

/-- The request to quit behind 15 blanks in an mbuf. -/
def quitBuf : Bytes :=
  List.replicate 15 (byteOf ' ') ++ "quit\r\n".toList.map byteOf

theorem runs_quit (i : Nat) :
    Runs (memcacheParseReqStep i quitBuf) quitBuf.length { state := .swStart } 15
      (.stop 20 { state := .swAlmostDone, type := .reqMcQuit, narg := 1, quit := true }) := by
  refine .more (by decide) rfl (.more (by decide) rfl (.more (by decide) rfl ?_))
  refine .more (by decide) rfl (.more (by decide) rfl (.more (by decide) rfl ?_))
  exact .stop (by decide) rfl

theorem parseLoop_quit {r : Msg McReqState} (fuel : Nat)
    (parsable : (memcacheReqLawful 464).Parsable r) (buf : r.lastBuf = quitBuf)
    (scan : r.toScan = { state := .swStart }) (pos : r.pos = 15) (mlen : r.mlen = 5) :
    (conn.parseLoop (msgParse memcacheReqParser 464) (fuel + 1) r).status = .eof := by
  have loops : memcacheReqParser.Loops 464 r
      (.stop 20 { state := .swAlmostDone, type := .reqMcQuit, narg := 1, quit := true }) := by
    unfold Parser.Loops
    rw [buf, scan, pos]
    exact runs_quit _
  have completed := (memcacheReqLawful 464).msgParseBytes_stop parsable loops
  have none_left : Parser.Lawful.rest memcacheReqParser (r.lastBuf.drop 21) = none := by
    rw [buf]
    rfl
  have counted : sub32 r.mlen (r.lastBuf.length - 21) ≠ 0 := by
    rw [mlen, buf]
    decide
  rw [Receiver.parseLoop, msgParse, if_neg (by rw [mlen]; decide), completed, none_left]
  simp [Receiver.recvDone, Parser.Lawful.finished, counted]

/-- In one piece the request to quit is accepted. -/
theorem Blank.quit (blank : Blank 464 n conn) (all : n + 1 = word32) :
    (conn.msgRecvChain (msgParse memcacheReqParser 464) memcacheReqParser 464
      ("quit\r\n".toList.map byteOf)).status = .eof := by
  have value : word32 = 4294967296 := by decide
  have inside : n % 464 = 15 := by
    rw [value] at all
    omega
  have size := blank.current.length_lastBuf
  have parsable := blank.current.parsable (by decide) (by omega)
  refine parseLoop_quit _ (parsable.append (by rw [size, inside]; decide)) ?_
    blank.current.scan ?_ ?_
  · rw [Msg.lastBuf_append, blank.current.buf, inside]
    rfl
  · exact blank.current.pos.trans inside
  · change add32 (conn.current memcacheReqParser 464).mlen 6 = 5
    rw [blank.current.mlen, show n = 4294967295 by omega]
    decide

theorem Blank.receive_quit (blank : Blank 464 n conn) (all : n + 1 = word32) :
    (conn.receive (msgParse memcacheReqParser 464) memcacheReqParser 464
      ["quit\r\n".toList.map byteOf]).status = .eof := by
  change (conn.msgRecv _ _ _ (6 + 1) _).status = .eof
  rw [blank.msgRecv_eq all (by simp) (by decide)]
  exact blank.quit all

theorem Blank.receive_cut_quit (blank : Blank 464 n conn) (all : n + 1 = word32) :
    (conn.receive (msgParse memcacheReqParser 464) memcacheReqParser 464
      [['q'].map byteOf, "uit\r\n".toList.map byteOf]).status = .error := by
  have dropped : conn.msgRecv (msgParse memcacheReqParser 464) memcacheReqParser 464 (1 + 1)
      [byteOf 'q'] = {} := by
    rw [blank.msgRecv_eq all (by simp) (by decide)]
    exact blank.dropped all
  change ((conn.msgRecv _ _ _ (1 + 1) [byteOf 'q']).receive _ _ _ _).status = .error
  rw [dropped]
  decide +kernel

theorem status_append (reads later : List Bytes) :
    (ParserKind.memcacheReq.outcome dataSize (reads ++ later)).status =
      ((({} : Receiver McReqState).receive (msgParse memcacheReqParser dataSize)
        memcacheReqParser dataSize reads).receive (msgParse memcacheReqParser dataSize)
        memcacheReqParser dataSize later).status := by
  rw [Receiver.receive, Receiver.receive, ← List.foldl_append]
  rfl

end Wrap

/-- `2 ^ 32 - 1` blanks and a request to quit: if a read ends behind the first letter of
the request, this letter and all blanks are dropped, and the rest is a parse error. -/
theorem outcome_depends_on_reads :
    let blanks : List Bytes := List.replicate 4294967295 [byteOf ' ']
    let whole : List Bytes := ["quit\r\n".toList.map byteOf]
    let cut : List Bytes := [['q'].map byteOf, "uit\r\n".toList.map byteOf]
    (blanks ++ whole).flatten = (blanks ++ cut).flatten ∧
      (ParserKind.memcacheReq.outcome 464 (blanks ++ whole)).status = .eof ∧
      (ParserKind.memcacheReq.outcome 464 (blanks ++ cut)).status = .error := by
  have blank := @blank_receive 464 4294967295 (by decide) (by decide)
  intro blanks whole cut
  refine ⟨?_, ?_, ?_⟩
  · have rest : whole.flatten = cut.flatten := rfl
    rw [List.flatten_append, List.flatten_append, rest]
  · rw [status_append]
    exact blank.receive_quit (by decide)
  · rw [status_append]
    exact blank.receive_cut_quit (by decide)

end Nutcracker
