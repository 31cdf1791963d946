import Nutcracker.Redis.Response

/-!
# Reading a reply byte by byte

The redis response parser without its buffer: every byte is consumed where it
arrives, a byte that the parser reads twice is handed on to the state that
consumes it, and the token marker is replaced by the text since the marker.
-/

namespace Nutcracker

open Lib RspState

/-- A partly read reply.  The token is the text since the token marker. -/
structure RspReading where
  state : RspState := .swStart
  token : Option Bytes := none
  type : MsgType := .unknown
  rnarg : Nat := 0
  rlen : Nat := 0
  integer : Nat := 0
  deriving DecidableEq, Repr

namespace RspReading

/-- The byte belongs to the token, if there is one. -/
def grow (s : RspReading) (ch : UInt8) : RspReading :=
  { s with token := s.token.map (· ++ [ch]) }

/-- Two states hand their byte on to a state that it selects. -/
def handOn (s : RspReading) (ch : UInt8) : RspReading :=
  match s.state with
  | swStart =>
      if ch = byteOf '+' then { s with type := .rspRedisStatus, state := swStatus }
      else if ch = byteOf '-' then { s with type := .rspRedisError, state := swError }
      else if ch = byteOf ':' then { s with type := .rspRedisInteger, state := swInteger }
      else if ch = byteOf '$' then { s with type := .rspRedisBulk, state := swBulk }
      else if ch = byteOf '*' then { s with type := .rspRedisMultibulk, state := swMultibulk }
      else s
  | swMultibulkArgnLen =>
      if s.token = none ∧ ch = byteOf '*' then { s with state := swMultibulk } else s
  | _ => s

/-- The bytes of a bulk. -/
def pass (s : RspReading) (after : RspState) (ch : UInt8) : Verdict RspReading :=
  if s.rlen ≠ 0 then .more { s.grow ch with rlen := s.rlen - 1 }
  else if ch = CR then .more { s.grow ch with state := after }
  else .fail

/-- A line feed. -/
def lineFeed (verdict : Verdict RspReading) (ch : UInt8) : Verdict RspReading :=
  if ch = LF then verdict else .fail

/-- One byte of a reply in a state that consumes it. -/
def feedIn (s : RspReading) (ch : UInt8) : Verdict RspReading :=
  match s.state with
  | swStart => .fail
  | swStatus => .more { s.grow ch with state := swRuntoCrlf }
  | swError =>
      if s.token = none ∧ ch ≠ byteOf '-' then .fail
      else
        let word := s.token.getD []
        if ch = byteOf ' ' ∨ ch = CR then
          .more
            { s with
              type := redisErrorType s.type word word.length, token := none,
              state := swRuntoCrlf }
        else .more { s with token := some (word ++ [ch]) }
  | swInteger => .more { s.grow ch with state := swIntegerStart, integer := 0 }
  | swIntegerStart =>
      if ch = CR then .more { s.grow ch with state := swAlmostDone }
      else if ch = byteOf '-' then .more (s.grow ch)
      else if isdigit ch then .more { s.grow ch with integer := accum s.integer ch }
      else .fail
  | swSimple =>
      if ch = CR then
        .more { s.grow ch with state := swMultibulkArgnLf, rnarg := pred32 s.rnarg }
      else .more (s.grow ch)
  | swRuntoCrlf =>
      if ch = CR then .more { s.grow ch with state := swAlmostDone } else .more (s.grow ch)
  | swAlmostDone | swBulkArgLf => lineFeed (.done (s.grow ch)) ch
  | swBulk =>
      match s.token with
      | none =>
          if ch = byteOf '$' then .more { s with token := some [ch], rlen := 0 } else .fail
      | some text =>
          if ch = byteOf '-' then .more { s.grow ch with state := swRuntoCrlf }
          else if isdigit ch then .more { s.grow ch with rlen := accum s.rlen ch }
          else if ch = CR ∧ 1 < text.length then
            .more { s with token := none, state := swBulkLf }
          else .fail
  | swBulkLf => lineFeed (.more { s.grow ch with state := swBulkArg }) ch
  | swBulkArg => s.pass swBulkArgLf ch
  | swMultibulk =>
      match s.token with
      | none =>
          if ch = byteOf '*' then .more { s with token := some [ch], rnarg := 0 } else .fail
      | some text =>
          if ch = byteOf '-' then .more { s.grow ch with state := swRuntoCrlf }
          else if isdigit ch then .more { s.grow ch with rnarg := accum s.rnarg ch }
          else if ch = CR ∧ 1 < text.length then
            .more { s with token := none, state := swMultibulkNargLf }
          else .fail
  | swMultibulkNargLf | swMultibulkArgnLf =>
      lineFeed
        (if s.rnarg = 0 then .done (s.grow ch)
          else .more { s.grow ch with state := swMultibulkArgnLen }) ch
  | swMultibulkArgnLen =>
      match s.token with
      | none =>
          if ch = byteOf ':' ∨ ch = byteOf '+' ∨ ch = byteOf '-' then
            .more { s with state := swSimple }
          else if ch = byteOf '$' then .more { s with token := some [ch], rlen := 0 }
          else .fail
      | some text =>
          if isdigit ch then .more { s.grow ch with rlen := accum s.rlen ch }
          else if ch = byteOf '-' then .more (s.grow ch)
          else if ch = CR ∧ 1 < text.length ∧ s.rnarg ≠ 0 then
            if s.rlen = 1 ∧ text.length = 3 then
              .more
                { s with
                  rlen := 0, state := swMultibulkArgnLf, rnarg := s.rnarg - 1, token := none }
            else
              .more
                { s with state := swMultibulkArgnLenLf, rnarg := s.rnarg - 1, token := none }
          else .fail
  | swMultibulkArgnLenLf => lineFeed (.more { s.grow ch with state := swMultibulkArgn }) ch
  | swMultibulkArgn => s.pass swMultibulkArgnLf ch

/-- One byte of a reply. -/
def feed (s : RspReading) (ch : UInt8) : Verdict RspReading :=
  feedIn (s.handOn ch) ch

theorem feed_handOn {s : RspReading} {ch : UInt8} : (s.handOn ch).feed ch = s.feed ch := by
  have again : (s.handOn ch).handOn ch = s.handOn ch := by
    cases state : s.state <;> grind [handOn]
  rw [feed, again, feed]

end RspReading

end Nutcracker
