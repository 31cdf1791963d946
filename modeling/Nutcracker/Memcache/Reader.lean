import Nutcracker.Memcache.Loop

/-!
# Reading a memcache request byte by byte

The machine that `memcache_parse_req` implements.  It keeps the bytes of the token
under way instead of a marker, and the keys instead of their positions.  A byte that
the parser hands on is read at once as the state it is handed to reads it.
-/

namespace Nutcracker

open Lib MsgType McReqState

/-- A partly read request. -/
structure McReading where
  state : McReqState := swStart
  token : Option Bytes := none
  type : MsgType := unknown
  keys : List Bytes := []
  vlen : Nat := 0
  quit : Bool := false
  noreply : Bool := false
  deriving DecidableEq, Repr

/-- The command named by a word and the byte that ends it. -/
def memcacheCommand (text : Bytes) (ch : UInt8) : MsgType :=
  (lookupWith strcmp (memcacheCommandsOf text.length) (text ++ [ch])).getD unknown

/-- The word `noreply`. -/
def noreplyWord : Bytes :=
  "noreply".toList.map byteOf

/-- The commands that may be sent with `noreply`. -/
def mayNoreply (type : MsgType) : Bool :=
  memcacheStorage type || memcacheArithmetic type || memcacheDelete type || memcacheTouch type

/-- The commands whose line may end right after a key. -/
def mayEndAtKey (type : MsgType) : Bool :=
  !(memcacheStorage type || memcacheArithmetic type || memcacheTouch type)

namespace McReading

variable (s : McReading) (ch : UInt8)

/-- The byte belongs to the token under way. -/
def grow : McReading :=
  { s with token := s.token.map (· ++ [ch]) }

/-- The byte is the first of a token. -/
def mark (state : McReqState) : McReading :=
  { s with state := state, token := some [ch] }

/-- The token under way has ended. -/
def enter (state : McReqState) : McReading :=
  { s with state := state, token := none }

/-- The carriage return of the command line. -/
def endLine : McReading :=
  { s with state := if memcacheStorage s.type then swRuntoVal else swAlmostDone }

/-- The command name has ended. -/
def named : Verdict McReading :=
  let type := s.token.elim unknown fun text => memcacheCommand text ch
  let t := { s with type := type, quit := s.quit || type = reqMcQuit }
  match type with
  | unknown => .fail
  | reqMcQuit => .more (t.enter (if ch = CR then swAlmostDone else swCrlf))
  | _ => if ch = CR then .fail else .more (t.enter swSpacesBeforeKey)

/-- A byte of a key or the one that ends it. -/
def feedKey : Verdict McReading :=
  let text := s.token.getD []
  if ch = byteOf ' ' ∨ ch = CR then
    if memcacheMaxKeyLength < text.length ∨ text = [] then .fail
    else
      let t := { s with keys := s.keys ++ [text] }
      if ch = byteOf ' ' then .more (t.enter (mcAfterKey s.type))
      else if mayEndAtKey s.type then .more (t.enter swAlmostDone)
      else .fail
  else .more { s with state := swKey, token := some (text ++ [ch]) }

/-- The rest of the command line after the keys and numbers. -/
def feedRest (state : McReqState) : Verdict McReading :=
  if ch = byteOf ' ' then .more { s with state := state }
  else if ch = CR then .more s.endLine
  else .fail

/-- Spaces and the first byte of a number. -/
def feedBefore (accepted : UInt8 → Bool) (number : McReqState) : Verdict McReading :=
  if ch = byteOf ' ' then .more s
  else if accepted ch then .more (s.mark ch number)
  else .fail

/-- One byte of a request. -/
def feed : Verdict McReading :=
  match s.state with
  | swStart =>
      if ch = byteOf ' ' then .more s
      else if islower ch then .more (s.mark ch swReqType)
      else .fail
  | swReqType =>
      if ch = byteOf ' ' ∨ ch = CR then s.named ch
      else if islower ch then .more (s.grow ch)
      else .fail
  | swSpacesBeforeKey => if ch = byteOf ' ' then .more s else (s.enter swKey).feedKey ch
  | swKey => s.feedKey ch
  | swSpacesBeforeKeys =>
      if ch = byteOf ' ' then .more s
      else if ch = CR then .more { s with state := swAlmostDone }
      else (s.enter swKey).feedKey ch
  | swSpacesBeforeFlags => s.feedBefore ch isdigit swFlags
  | swFlags =>
      if isdigit ch then .more (s.grow ch)
      else if ch = byteOf ' ' then .more (s.enter swSpacesBeforeExpiry)
      else .fail
  | swSpacesBeforeExpiry => s.feedBefore ch isdigit swExpiry
  | swExpiry =>
      if isdigit ch then .more (s.grow ch)
      else if ch = byteOf ' ' then .more (s.enter swSpacesBeforeVlen)
      else .fail
  | swSpacesBeforeVlen =>
      if ch = byteOf ' ' then .more s
      else if isdigit ch then .more { s with state := swVlen, vlen := digitVal ch }
      else .fail
  | swVlen =>
      if isdigit ch then .more { s with vlen := accum s.vlen ch }
      else if memcacheCas s.type then
        if ch = byteOf ' ' then .more (s.enter swSpacesBeforeCas) else .fail
      else { s with token := none }.feedRest ch swRuntoCrlf
  | swSpacesBeforeCas => s.feedBefore ch isdigit swCas
  | swCas | swNum =>
      if isdigit ch then .more (s.grow ch)
      else { s with token := none }.feedRest ch swRuntoCrlf
  | swSpacesBeforeNum => s.feedBefore ch (fun c => isdigit c || c == byteOf '-') swNum
  | swRuntoCrlf =>
      if ch = byteOf ' ' then .more s
      else if ch = byteOf 'n' then
        if mayNoreply s.type then .more (s.mark ch swNoreply) else .fail
      else if ch = CR then .more s.endLine
      else .fail
  | swNoreply =>
      if ch = byteOf ' ' ∨ ch = CR then
        if s.token = some noreplyWord then
          { s with token := none, noreply := true }.feedRest ch swAfterNoreply
        else .fail
      else .more (s.grow ch)
  | swAfterNoreply => s.feedRest ch swAfterNoreply
  | swCrlf =>
      if ch = byteOf ' ' then .more s
      else if ch = CR then .more { s with state := swAlmostDone }
      else .fail
  | swRuntoVal => if ch = LF then .more { s with state := swVal } else .fail
  | swVal =>
      if s.vlen ≠ 0 then .more { s with vlen := s.vlen - 1 }
      else if ch = CR then .more { s with state := swAlmostDone }
      else .fail
  | swAlmostDone => if ch = LF then .done s else .fail

/-- The bytes of a value are counted. -/
theorem run_val {s : McReading} (state : s.state = swVal) (xs ys : Bytes)
    (fits : xs.length ≤ s.vlen) :
    run feed s (xs ++ ys) = run feed { s with vlen := s.vlen - xs.length } ys := by
  have collected := run_collect feed (fun l => { s with vlen := s.vlen - l.length }) xs ys ?_
  · simpa using collected
  · rintro l x rest rfl
    have positive : s.vlen - l.length ≠ 0 := by
      simp only [List.length_append, List.length_cons] at fits
      omega
    simp [feed, state, positive, Nat.sub_sub]

end McReading

end Nutcracker
