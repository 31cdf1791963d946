import Nutcracker.Message.Parse

/-!
# The redis response parser

`redis_parse_rsp` reads one reply: a status, an error, an integer, a bulk or a
multi bulk.  The elements of a multi bulk are counted down in `rnarg`; a multi
bulk inside a multi bulk starts the count anew.
-/

namespace Nutcracker

open Lib

/-- The `SW_` states of `redis_parse_rsp`. -/
inductive RspState where
  | swStart
  | swStatus
  | swError
  | swInteger
  | swIntegerStart
  | swSimple
  | swBulk
  | swBulkLf
  | swBulkArg
  | swBulkArgLf
  | swMultibulk
  | swMultibulkNargLf
  | swMultibulkArgnLen
  | swMultibulkArgnLenLf
  | swMultibulkArgn
  | swMultibulkArgnLf
  | swRuntoCrlf
  | swAlmostDone
  deriving DecidableEq, Repr

open RspState

/-- The error words of `SW_ERROR`, by their length with the dash. -/
def redisErrorsOf : Nat → List (List Char × MsgType)
  | 4 => [("-ERR".toList, .rspRedisErrorErr), ("-OOM".toList, .rspRedisErrorOom)]
  | 5 => [("-BUSY".toList, .rspRedisErrorBusy)]
  | 7 => [("-NOAUTH".toList, .rspRedisErrorNoauth)]
  | 8 => [
      ("-LOADING".toList, .rspRedisErrorLoading), ("-BUSYKEY".toList, .rspRedisErrorBusykey),
      ("-MISCONF".toList, .rspRedisErrorMisconf)]
  | 9 => [
      ("-NOSCRIPT".toList, .rspRedisErrorNoscript), ("-READONLY".toList, .rspRedisErrorReadonly)]
  | 10 => [
      ("-WRONGTYPE".toList, .rspRedisErrorWrongtype),
      ("-EXECABORT".toList, .rspRedisErrorExecabort)]
  | 11 => [
      ("-MASTERDOWN".toList, .rspRedisErrorMasterdown),
      ("-NOREPLICAS".toList, .rspRedisErrorNoreplicas)]
  | _ => []

/-- The type of an error whose first word takes the first `len` bytes at `m`; the
type stays as it is if the word is not known. -/
def redisErrorType (type : MsgType) (m : Bytes) (len : Nat) : MsgType :=
  (lookupWith strcmp (redisErrorsOf len) m).getD type

/-! ## One iteration -/

section States

variable (i : Nat) (b : Bytes) (ch : UInt8) (r : Scan RspState) (p : Nat)

/-- `SW_START`: the byte is read again in the state it selects. -/
def rspStart : Flow (Scan RspState) :=
  if ch = byteOf '+' then .next p { r with type := .rspRedisStatus, state := swStatus }
  else if ch = byteOf '-' then .next p { r with type := .rspRedisError, state := swError }
  else if ch = byteOf ':' then .next p { r with type := .rspRedisInteger, state := swInteger }
  else if ch = byteOf '$' then .next p { r with type := .rspRedisBulk, state := swBulk }
  else if ch = byteOf '*' then .next p { r with type := .rspRedisMultibulk, state := swMultibulk }
  else .fail

/-- `SW_ERROR`: the first word of an error, up to a blank or a carriage return. -/
def rspError : Flow (Scan RspState) :=
  if r.token = none ∧ ch ≠ byteOf '-' then .fail
  else
    let m := r.token.getD p
    if ch = byteOf ' ' ∨ ch = CR then
      .next (p + 1)
        { r with
          type := redisErrorType r.type (b.drop m) (p - m), token := none, state := swRuntoCrlf }
    else .next (p + 1) { r with token := some m }

/-- `SW_INTEGER_START`: digits and signs up to a carriage return. -/
def rspInteger : Flow (Scan RspState) :=
  if ch = CR then .next (p + 1) { r with state := swAlmostDone }
  else if ch = byteOf '-' then .next (p + 1) r
  else if isdigit ch then .next (p + 1) { r with integer := accum r.integer ch }
  else .fail

/-- `SW_SIMPLE`: an element that is one line. -/
def rspSimple : Flow (Scan RspState) :=
  if ch = CR then
    .next (p + 1) { r with state := swMultibulkArgnLf, rnarg := pred32 r.rnarg }
  else .next (p + 1) r

/-- `SW_RUNTO_CRLF`: everything up to a carriage return. -/
def rspRuntoCrlf : Flow (Scan RspState) :=
  if ch = CR then .next (p + 1) { r with state := swAlmostDone } else .next (p + 1) r

/-- `SW_BULK`: the length line of a bulk.  After a minus sign the rest of the line is
skipped with the token marker still set. -/
def rspBulk : Flow (Scan RspState) :=
  match r.token with
  | none =>
      if ch = byteOf '$' then .next (p + 1) { r with token := some p, rlen := 0 } else .fail
  | some t =>
      if ch = byteOf '-' then .next (p + 1) { r with state := swRuntoCrlf }
      else if isdigit ch then .next (p + 1) { r with rlen := accum r.rlen ch }
      else if ch = CR then
        if p - t ≤ 1 then .fail
        else .next (p + 1) { r with token := none, state := swBulkLf }
      else .fail

/-- `SW_MULTIBULK`: the count line of a multi bulk. -/
def rspMultibulk : Flow (Scan RspState) :=
  match r.token with
  | none =>
      if ch = byteOf '*' then
        .next (p + 1) { r with token := some p, narg_start := some ⟨i, p⟩, rnarg := 0 }
      else .fail
  | some t =>
      if ch = byteOf '-' then .next (p + 1) { r with state := swRuntoCrlf }
      else if isdigit ch then .next (p + 1) { r with rnarg := accum r.rnarg ch }
      else if ch = CR then
        if p - t ≤ 1 then .fail
        else
          .next (p + 1)
            { r with
              narg := r.rnarg, narg_end := some ⟨i, p⟩, token := none,
              state := swMultibulkNargLf }
      else .fail

/-- `SW_MULTIBULK_ARGN_LEN`: the first line of an element.  A nested multi bulk is
read again in the state for the outer one. -/
def rspArgnLen : Flow (Scan RspState) :=
  match r.token with
  | none =>
      if ch = byteOf '*' then .next p { r with state := swMultibulk }
      else if ch = byteOf ':' ∨ ch = byteOf '+' ∨ ch = byteOf '-' then
        .next (p + 1) { r with state := swSimple }
      else if ch = byteOf '$' then .next (p + 1) { r with token := some p, rlen := 0 }
      else .fail
  | some t =>
      if isdigit ch then .next (p + 1) { r with rlen := accum r.rlen ch }
      else if ch = byteOf '-' then .next (p + 1) r
      else if ch = CR then
        if p - t ≤ 1 ∨ r.rnarg = 0 then .fail
        else if r.rlen = 1 ∧ p - t = 3 then
          .next (p + 1)
            { r with
              rlen := 0, state := swMultibulkArgnLf, rnarg := r.rnarg - 1, token := none }
        else
          .next (p + 1)
            { r with state := swMultibulkArgnLenLf, rnarg := r.rnarg - 1, token := none }
      else .fail

/-- A state that accepts a line feed only. -/
def rspLineFeed (after : RspState) : Flow (Scan RspState) :=
  if ch = LF then .next (p + 1) { r with state := after } else .fail

/-- A state that accepts a line feed only and ends the reply with it. -/
def rspDone : Flow (Scan RspState) :=
  if ch = LF then .stop p r else .fail

/-- A line feed after which the reply ends if no element is left. -/
def rspElementLf : Flow (Scan RspState) :=
  if ch = LF then
    if r.rnarg = 0 then .stop p r else .next (p + 1) { r with state := swMultibulkArgnLen }
  else .fail

end States

/-- The body of the loop of `redis_parse_rsp`.  It does not depend on the data size
of the mbufs. -/
def redisParseRspStep (i : Nat) (b : Bytes) (r : Scan RspState) (p : Nat) :
    Flow (Scan RspState) :=
  let ch := b.getD p 0
  match r.state with
  | swStart => rspStart ch r p
  | swStatus => .next (p + 1) { r with state := swRuntoCrlf }
  | swError => rspError b ch r p
  | swInteger => .next (p + 1) { r with state := swIntegerStart, integer := 0 }
  | swSimple => rspSimple ch r p
  | swIntegerStart => rspInteger ch r p
  | swRuntoCrlf => rspRuntoCrlf ch r p
  | swAlmostDone => rspDone ch r p
  | swBulk => rspBulk ch r p
  | swBulkLf => rspLineFeed ch r p swBulkArg
  | swBulkArg => skipRlen swBulkArgLf b r p
  | swBulkArgLf => rspDone ch r p
  | swMultibulk => rspMultibulk i ch r p
  | swMultibulkNargLf => rspElementLf ch r p
  | swMultibulkArgnLen => rspArgnLen ch r p
  | swMultibulkArgnLenLf => rspLineFeed ch r p swMultibulkArgn
  | swMultibulkArgn => skipRlen swMultibulkArgnLf b r p
  | swMultibulkArgnLf => rspElementLf ch r p

def redisRspParser : Parser RspState where
  start := swStart
  step _ := redisParseRspStep

/-- `redis_parse_rsp`. -/
def redisParseRsp (dataSize : Nat) (r : Msg RspState) : Msg RspState :=
  redisRspParser.parse dataSize r

end Nutcracker
