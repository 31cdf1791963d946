import Nutcracker.Memcache.Command

/-!
# The memcache response parser

`memcache_parse_rsp` reads one reply: a number, a one-line status, or the values of
a retrieval up to `END`.  The token marker stays on the first word of a line until
the line is complete, so a line that is cut by the end of an mbuf is read again as
a whole.
-/

namespace Nutcracker

open Lib MsgType

/-- The `SW_` states of `memcache_parse_rsp`. -/
inductive McRspState where
  | swStart
  | swRspNum
  | swRspStr
  | swSpacesBeforeKey
  | swKey
  | swSpacesBeforeFlags
  | swFlags
  | swSpacesBeforeVlen
  | swVlen
  | swRuntoVal
  | swVal
  | swValLf
  | swEnd
  | swRuntoCrlf
  | swCrlf
  | swAlmostDone
  deriving DecidableEq, Repr

open McRspState

section States

variable (i : Nat) (b : Bytes) (ch : UInt8) (r : Scan McRspState) (p : Nat)

/-- `SW_START`: the byte is read again. -/
def mcRspStart : Flow (Scan McRspState) :=
  .next p { r with state := if isdigit ch then swRspNum else swRspStr }

/-- `SW_RSP_NUM`. -/
def mcRspNum : Flow (Scan McRspState) :=
  if isdigit ch then .next (p + 1) { r with token := some (r.token.getD p) }
  else if ch = byteOf ' ' ∨ ch = CR then
    .next p { r with token := none, type := rspMcNum, state := swCrlf }
  else .fail

/-- The state after the first word of a line. -/
def mcAfterWord (type : MsgType) : Option McRspState :=
  match type with
  | rspMcStored | rspMcNotStored | rspMcExists | rspMcNotFound | rspMcDeleted | rspMcTouched
  | rspMcEnd | rspMcError => some swCrlf
  | rspMcValue => some swSpacesBeforeKey
  | rspMcClientError | rspMcServerError => some swRuntoCrlf
  | _ => none

/-- `SW_RSP_STR`: the marker is kept. -/
def mcRspStr : Flow (Scan McRspState) :=
  let m := r.token.getD p
  if ch = byteOf ' ' ∨ ch = CR then
    let type := memcacheWord memcacheRepliesOf b m p
    match mcAfterWord type with
    | none => .fail
    | some after =>
        .next p
          { r with
            token := some m, type := type,
            end_ := if type = rspMcEnd then some ⟨i, m⟩ else r.end_, state := after }
  else .next (p + 1) { r with token := some m }

/-- `SW_SPACES_BEFORE_KEY`. -/
def mcRspSpacesBeforeKey : Flow (Scan McRspState) :=
  if ch = byteOf ' ' then .next (p + 1) r else .next p { r with state := swKey }

/-- `SW_KEY`. -/
def mcRspKey : Flow (Scan McRspState) :=
  if ch = byteOf ' ' then .next (p + 1) { r with state := swSpacesBeforeFlags }
  else .next (p + 1) r

/-- `SW_SPACES_BEFORE_FLAGS`. -/
def mcRspSpacesBeforeFlags : Flow (Scan McRspState) :=
  if ch = byteOf ' ' then .next (p + 1) r
  else if isdigit ch then .next p { r with state := swFlags }
  else .fail

/-- `SW_FLAGS`. -/
def mcRspFlags : Flow (Scan McRspState) :=
  if isdigit ch then .next (p + 1) r
  else if ch = byteOf ' ' then .next (p + 1) { r with state := swSpacesBeforeVlen }
  else .fail

/-- `SW_SPACES_BEFORE_VLEN`. -/
def mcRspSpacesBeforeVlen : Flow (Scan McRspState) :=
  if ch = byteOf ' ' then .next (p + 1) r
  else if isdigit ch then .next p { r with vlen := 0, state := swVlen }
  else .fail

/-- `SW_VLEN`. -/
def mcRspVlen : Flow (Scan McRspState) :=
  if isdigit ch then .next (p + 1) { r with vlen := accum r.vlen ch }
  else if ch = byteOf ' ' ∨ ch = CR then .next p { r with state := swRuntoCrlf }
  else .fail

/-- `SW_RUNTO_VAL`. -/
def mcRspRuntoVal : Flow (Scan McRspState) :=
  if ch = LF then .next (p + 1) { r with token := none, state := swVal } else .fail

/-- `SW_VAL_LF`: another value or the end follows. -/
def mcRspValLf : Flow (Scan McRspState) :=
  if ch = LF then .next (p + 1) { r with state := swRspStr } else .fail

/-- `SW_END`: a state that no other state leads to. -/
def mcRspEnd : Flow (Scan McRspState) :=
  match r.token with
  | none => if ch = byteOf 'E' then .next (p + 1) { r with token := some p } else .fail
  | some m =>
      if ch = CR then
        if p - m = 3 then
          if strcmp (b.drop m) "END\r".toList then
            .next (p + 1) { r with token := none, end_ := some ⟨i, m⟩, state := swAlmostDone }
          else .next (p + 1) { r with token := none }
        else .fail
      else .next (p + 1) r

/-- `SW_RUNTO_CRLF`. -/
def mcRspRuntoCrlf : Flow (Scan McRspState) :=
  if ch = CR then
    .next (p + 1) { r with state := if r.type = rspMcValue then swRuntoVal else swAlmostDone }
  else .next (p + 1) r

/-- `SW_CRLF`. -/
def mcRspCrlf : Flow (Scan McRspState) :=
  if ch = byteOf ' ' then .next (p + 1) r
  else if ch = CR then .next (p + 1) { r with state := swAlmostDone }
  else .fail

/-- `SW_ALMOST_DONE`. -/
def mcRspAlmostDone : Flow (Scan McRspState) :=
  if ch = LF then .stop p r else .fail

end States

/-- The body of the loop of `memcache_parse_rsp`. -/
def memcacheParseRspStep (i : Nat) (b : Bytes) (r : Scan McRspState) (p : Nat) :
    Flow (Scan McRspState) :=
  let ch := b.getD p 0
  match r.state with
  | swStart => mcRspStart ch r p
  | swRspNum => mcRspNum ch r p
  | swRspStr => mcRspStr i b ch r p
  | swSpacesBeforeKey => mcRspSpacesBeforeKey ch r p
  | swKey => mcRspKey ch r p
  | swSpacesBeforeFlags => mcRspSpacesBeforeFlags ch r p
  | swFlags => mcRspFlags ch r p
  | swSpacesBeforeVlen => mcRspSpacesBeforeVlen ch r p
  | swVlen => mcRspVlen ch r p
  | swRuntoVal => mcRspRuntoVal ch r p
  | swVal => skipVlen swValLf b r p
  | swValLf => mcRspValLf ch r p
  | swEnd => mcRspEnd i b ch r p
  | swRuntoCrlf => mcRspRuntoCrlf ch r p
  | swCrlf => mcRspCrlf ch r p
  | swAlmostDone => mcRspAlmostDone ch r p

/-- A line that was cut is read again from its first word, except in
`SW_RUNTO_CRLF`, where its end is all that is left to find. -/
def memcacheRspRestart : McRspState → McRspState
  | swVal => swVal
  | swValLf => swValLf
  | swEnd => swEnd
  | swRuntoCrlf => swRuntoCrlf
  | _ => swStart

def memcacheRspParser : Parser McRspState where
  start := swStart
  step _ := memcacheParseRspStep
  restart := memcacheRspRestart

/-- `memcache_parse_rsp`. -/
def memcacheParseRsp (dataSize : Nat) (r : Msg McRspState) : Msg McRspState :=
  memcacheRspParser.parse dataSize r

end Nutcracker
