import Nutcracker.Memcache.Command

/-!
# The memcache request parser

`memcache_parse_req` reads a command line and, for the storage commands, the data
block after it.  Several states hand the byte that ends them on to the next state.
-/

namespace Nutcracker

open Lib MsgType

/-- The `SW_` states of `memcache_parse_req`. -/
inductive McReqState where
  | swStart
  | swReqType
  | swSpacesBeforeKey
  | swKey
  | swSpacesBeforeKeys
  | swSpacesBeforeFlags
  | swFlags
  | swSpacesBeforeExpiry
  | swExpiry
  | swSpacesBeforeVlen
  | swVlen
  | swSpacesBeforeCas
  | swCas
  | swRuntoVal
  | swVal
  | swSpacesBeforeNum
  | swNum
  | swRuntoCrlf
  | swCrlf
  | swNoreply
  | swAfterNoreply
  | swAlmostDone
  deriving DecidableEq, Repr

open McReqState

section States

variable (i : Nat) (b : Bytes) (ch : UInt8) (r : Scan McReqState) (p : Nat)

/-- `SW_START`. -/
def mcReqStart : Flow (Scan McReqState) :=
  if ch = byteOf ' ' then .next (p + 1) r
  else if islower ch then .next (p + 1) { r with token := some p, state := swReqType }
  else .fail

/-- `SW_REQ_TYPE`.  Without a token marker the name has no length and no command is
recognised. -/
def mcReqType : Flow (Scan McReqState) :=
  if ch = byteOf ' ' ∨ ch = CR then
    let type := r.token.elim unknown fun m => memcacheWord memcacheCommandsOf b m p
    let named :=
      { r with
        token := none, type := type, narg := (r.narg + 1) % word32,
        quit := r.quit || type = reqMcQuit }
    match type with
    | unknown => .fail
    | reqMcQuit => .next p { named with state := swCrlf }
    | _ => if ch = CR then .fail else .next (p + 1) { named with state := swSpacesBeforeKey }
  else if islower ch then .next (p + 1) r
  else .fail

/-- `SW_SPACES_BEFORE_KEY`. -/
def mcSpacesBeforeKey : Flow (Scan McReqState) :=
  if ch = byteOf ' ' then .next (p + 1) r
  else .next p { r with token := none, state := swKey }

/-- The state after a key. -/
def mcAfterKey (type : MsgType) : McReqState :=
  if memcacheStorage type then swSpacesBeforeFlags
  else if memcacheArithmetic type || memcacheTouch type then swSpacesBeforeNum
  else if memcacheDelete type then swRuntoCrlf
  else if memcacheRetrieval type then swSpacesBeforeKeys
  else swRuntoCrlf

/-- `SW_KEY`. -/
def mcKey : Flow (Scan McReqState) :=
  let t := r.token.getD p
  if ch = byteOf ' ' ∨ ch = CR then
    if memcacheMaxKeyLength < p - t ∨ p - t = 0 then .fail
    else
      let taken :=
        { r with
          keys := r.keys ++ [⟨⟨i, t⟩, ⟨i, p⟩⟩], narg := (r.narg + 1) % word32, token := none,
          state := mcAfterKey r.type }
      if ch = CR then
        if memcacheStorage r.type || memcacheArithmetic r.type then .fail else .next p taken
      else .next (p + 1) taken
  else .next (p + 1) { r with token := some t }

/-- `SW_SPACES_BEFORE_KEYS`. -/
def mcSpacesBeforeKeys : Flow (Scan McReqState) :=
  if ch = byteOf ' ' then .next (p + 1) r
  else if ch = CR then .next (p + 1) { r with state := swAlmostDone }
  else .next p { r with token := none, state := swKey }

/-- Spaces and the first byte of a number. -/
def mcBeforeNumber (accepted : UInt8 → Bool) (number : McReqState) : Flow (Scan McReqState) :=
  if ch = byteOf ' ' then .next (p + 1) r
  else if accepted ch then .next (p + 1) { r with token := some p, state := number }
  else .fail

/-- `SW_FLAGS` and `SW_EXPIRY`: digits up to a space. -/
def mcNumber (after : McReqState) : Flow (Scan McReqState) :=
  if isdigit ch then .next (p + 1) r
  else if ch = byteOf ' ' then .next (p + 1) { r with token := none, state := after }
  else .fail

/-- `SW_CAS` and `SW_NUM`: digits up to a byte that is read again. -/
def mcLastNumber : Flow (Scan McReqState) :=
  if isdigit ch then .next (p + 1) r
  else if ch = byteOf ' ' ∨ ch = CR then .next p { r with token := none, state := swRuntoCrlf }
  else .fail

/-- `SW_SPACES_BEFORE_VLEN`: the length of the value has no token marker. -/
def mcSpacesBeforeVlen : Flow (Scan McReqState) :=
  if ch = byteOf ' ' then .next (p + 1) r
  else if isdigit ch then .next (p + 1) { r with vlen := digitVal ch, state := swVlen }
  else .fail

/-- `SW_VLEN`. -/
def mcVlen : Flow (Scan McReqState) :=
  if isdigit ch then .next (p + 1) { r with vlen := accum r.vlen ch }
  else if memcacheCas r.type then
    if ch = byteOf ' ' then .next p { r with token := none, state := swSpacesBeforeCas }
    else .fail
  else if ch = byteOf ' ' ∨ ch = CR then .next p { r with token := none, state := swRuntoCrlf }
  else .fail

/-- `SW_RUNTO_VAL`. -/
def mcRuntoVal : Flow (Scan McReqState) :=
  if ch = LF then .next (p + 1) { r with state := swVal } else .fail

/-- The carriage return of the command line. -/
def mcLineEnd : Flow (Scan McReqState) :=
  .next (p + 1) { r with state := if memcacheStorage r.type then swRuntoVal else swAlmostDone }

/-- `SW_RUNTO_CRLF`. -/
def mcRuntoCrlf : Flow (Scan McReqState) :=
  if ch = byteOf ' ' then .next (p + 1) r
  else if ch = byteOf 'n' then
    if memcacheStorage r.type || memcacheArithmetic r.type || memcacheDelete r.type ||
        memcacheTouch r.type then
      .next (p + 1) { r with token := some p, state := swNoreply }
    else .fail
  else if ch = CR then mcLineEnd r p
  else .fail

/-- The bytes from the token marker up to the cursor are `noreply`. -/
def isNoreply : Bool :=
  r.token.any fun m =>
    p - m = 7 && strcmp (b.drop m) "noreply".toList

/-- `SW_NOREPLY`. -/
def mcNoreply : Flow (Scan McReqState) :=
  if ch = byteOf ' ' ∨ ch = CR then
    if isNoreply b r p then
      .next p { r with token := none, noreply := true, state := swAfterNoreply }
    else .fail
  else .next (p + 1) r

/-- `SW_AFTER_NOREPLY`. -/
def mcAfterNoreply : Flow (Scan McReqState) :=
  if ch = byteOf ' ' then .next (p + 1) r
  else if ch = CR then mcLineEnd r p
  else .fail

/-- `SW_CRLF`. -/
def mcCrlf : Flow (Scan McReqState) :=
  if ch = byteOf ' ' then .next (p + 1) r
  else if ch = CR then .next (p + 1) { r with state := swAlmostDone }
  else .fail

/-- `SW_ALMOST_DONE`. -/
def mcAlmostDone : Flow (Scan McReqState) :=
  if ch = LF then .stop p r else .fail

end States

/-- The body of the loop of `memcache_parse_req`. -/
def memcacheParseReqStep (i : Nat) (b : Bytes) (r : Scan McReqState) (p : Nat) :
    Flow (Scan McReqState) :=
  let ch := b.getD p 0
  match r.state with
  | swStart => mcReqStart ch r p
  | swReqType => mcReqType b ch r p
  | swSpacesBeforeKey => mcSpacesBeforeKey ch r p
  | swKey => mcKey i ch r p
  | swSpacesBeforeKeys => mcSpacesBeforeKeys ch r p
  | swSpacesBeforeFlags => mcBeforeNumber ch r p isdigit swFlags
  | swFlags => mcNumber ch r p swSpacesBeforeExpiry
  | swSpacesBeforeExpiry => mcBeforeNumber ch r p isdigit swExpiry
  | swExpiry => mcNumber ch r p swSpacesBeforeVlen
  | swSpacesBeforeVlen => mcSpacesBeforeVlen ch r p
  | swVlen => mcVlen ch r p
  | swSpacesBeforeCas => mcBeforeNumber ch r p isdigit swCas
  | swCas => mcLastNumber ch r p
  | swRuntoVal => mcRuntoVal ch r p
  | swVal => skipVlen swAlmostDone b r p
  | swSpacesBeforeNum => mcBeforeNumber ch r p (fun c => isdigit c || c == byteOf '-') swNum
  | swNum => mcLastNumber ch r p
  | swRuntoCrlf => mcRuntoCrlf ch r p
  | swCrlf => mcCrlf ch r p
  | swNoreply => mcNoreply b ch r p
  | swAfterNoreply => mcAfterNoreply ch r p
  | swAlmostDone => mcAlmostDone ch r p

/-- A finished request keeps its token marker. -/
def memcacheReqParser : Parser McReqState where
  start := swStart
  step _ := memcacheParseReqStep
  keepToken := true

/-- `memcache_parse_req`. -/
def memcacheParseReq (dataSize : Nat) (r : Msg McReqState) : Msg McReqState :=
  memcacheReqParser.parse dataSize r

end Nutcracker
