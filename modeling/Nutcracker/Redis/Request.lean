import Nutcracker.Redis.Command
import Nutcracker.Message.Parse

/-!
# The redis request parser

`redis_parse_req` reads a request of the unified protocol: the number of
arguments, the command name, and then keys and arguments in the order that the
class of the command prescribes.  Its 27 states are three for the count line and
four for each of six kinds of argument: the length line, its line feed, the bytes
of the argument, and the line feed after them.
-/

namespace Nutcracker

open Lib

/-- The kinds of argument that the parser tells apart by state. -/
inductive ArgSlot where
  | reqType
  | key
  | arg1
  | arg2
  | arg3
  | argn
  deriving DecidableEq, Repr

/-- The `SW_` states of `redis_parse_req`. -/
inductive ReqState where
  | start
  | narg
  | nargLf
  | len (slot : ArgSlot)
  | lenLf (slot : ArgSlot)
  | body (slot : ArgSlot)
  | bodyLf (slot : ArgSlot)
  deriving DecidableEq, Repr

namespace ReqState

@[match_pattern] abbrev swStart := start
@[match_pattern] abbrev swNarg := narg
@[match_pattern] abbrev swNargLf := nargLf
@[match_pattern] abbrev swReqTypeLen := len .reqType
@[match_pattern] abbrev swReqTypeLenLf := lenLf .reqType
@[match_pattern] abbrev swReqType := body .reqType
@[match_pattern] abbrev swReqTypeLf := bodyLf .reqType
@[match_pattern] abbrev swKeyLen := len .key
@[match_pattern] abbrev swKeyLenLf := lenLf .key
@[match_pattern] abbrev swKey := body .key
@[match_pattern] abbrev swKeyLf := bodyLf .key
@[match_pattern] abbrev swArg1Len := len .arg1
@[match_pattern] abbrev swArg1LenLf := lenLf .arg1
@[match_pattern] abbrev swArg1 := body .arg1
@[match_pattern] abbrev swArg1Lf := bodyLf .arg1
@[match_pattern] abbrev swArg2Len := len .arg2
@[match_pattern] abbrev swArg2LenLf := lenLf .arg2
@[match_pattern] abbrev swArg2 := body .arg2
@[match_pattern] abbrev swArg2Lf := bodyLf .arg2
@[match_pattern] abbrev swArg3Len := len .arg3
@[match_pattern] abbrev swArg3LenLf := lenLf .arg3
@[match_pattern] abbrev swArg3 := body .arg3
@[match_pattern] abbrev swArg3Lf := bodyLf .arg3
@[match_pattern] abbrev swArgnLen := len .argn
@[match_pattern] abbrev swArgnLenLf := lenLf .argn
@[match_pattern] abbrev swArgn := body .argn
@[match_pattern] abbrev swArgnLf := bodyLf .argn

end ReqState

open ReqState

/-! ## Where an argument leads -/

/-- What the parser does at the line feed that ends an argument: give up, finish,
or read the length line of the next argument. -/
inductive Route where
  | error
  | done
  | goto (slot : ArgSlot)
  deriving DecidableEq, Repr

/-- Go on if a condition on the argument count holds. -/
def Route.require (holds : Bool) (route : Route) : Route :=
  if holds then route else .error

/-- Finish if no argument is left. -/
def Route.doneOr (rnarg : Nat) (slot : ArgSlot) : Route :=
  if rnarg = 0 then .done else .goto slot

/-- `SW_REQ_TYPE_LF`. -/
def afterReqType (type : MsgType) (narg : Nat) : Route :=
  if redisArgz type then .done
  else if narg = 1 then .error
  else if redisArgeval type then .goto .arg1
  else .goto .key

/-- `SW_KEY_LF`. -/
def afterKey (type : MsgType) (narg rnarg : Nat) : Route :=
  if redisArg0 type then .require (rnarg = 0) .done
  else if redisArg1 type then .require (rnarg = 1) (.goto .arg1)
  else if redisArg2 type then .require (rnarg = 2) (.goto .arg1)
  else if redisArg3 type then .require (rnarg = 3) (.goto .arg1)
  else if redisArgn type then .doneOr rnarg .arg1
  else if redisArgx type then .doneOr rnarg .key
  else if redisArgkvx type then .require (narg % 2 ≠ 0) (.goto .arg1)
  else if redisArgeval type then .doneOr rnarg .argn
  else .error

/-- `SW_ARG1_LF`. -/
def afterArg1 (type : MsgType) (rnarg : Nat) : Route :=
  if redisArg1 type then .require (rnarg = 0) .done
  else if redisArg2 type then .require (rnarg = 1) (.goto .arg2)
  else if redisArg3 type then .require (rnarg = 2) (.goto .arg2)
  else if redisArgn type then .doneOr rnarg .argn
  else if redisArgeval type then .require (2 ≤ rnarg) (.goto .arg2)
  else if redisArgkvx type then .doneOr rnarg .key
  else .error

/-- `SW_ARG2_LF`. -/
def afterArg2 (type : MsgType) (rnarg : Nat) : Route :=
  if redisArg2 type then .require (rnarg = 0) .done
  else if redisArg3 type then .require (rnarg = 1) (.goto .arg3)
  else if redisArgn type then .doneOr rnarg .argn
  else if redisArgeval type then .require (1 ≤ rnarg) (.goto .key)
  else .error

/-- `SW_ARG3_LF`. -/
def afterArg3 (type : MsgType) (rnarg : Nat) : Route :=
  if redisArg3 type then .require (rnarg = 0) .done
  else if redisArgn type then .doneOr rnarg .argn
  else .error

/-- `SW_ARGN_LF`. -/
def afterArgn (type : MsgType) (rnarg : Nat) : Route :=
  if redisArgn type || redisArgeval type then .doneOr rnarg .argn
  else .error

/-! ## One iteration -/

/-- `SW_START` and `SW_NARG`: the line `*<number of arguments>`. -/
def countLine (i : Nat) (ch : UInt8) (r : Scan ReqState) (p : Nat) : Flow (Scan ReqState) :=
  match r.token with
  | none =>
      if ch = byteOf '*' then
        .next (p + 1)
          { r with token := some p, narg_start := some ⟨i, p⟩, rnarg := 0, state := swNarg }
      else .fail
  | some _ =>
      if isdigit ch then .next (p + 1) { r with rnarg := accum r.rnarg ch }
      else if ch = CR then
        if r.rnarg = 0 then .fail
        else
          .next (p + 1)
            { r with
              narg := r.rnarg, narg_end := some ⟨i, p⟩, token := none, state := swNargLf }
      else .fail

/-- The line `$<number of bytes>` of an argument.  `refused` is the check made at
its end, given the distance of the cursor from the start of the line. -/
def lenLine (refused : Scan ReqState → Nat → Bool) (after : ReqState) (ch : UInt8)
    (r : Scan ReqState) (p : Nat) : Flow (Scan ReqState) :=
  match r.token with
  | none =>
      if ch = byteOf '$' then .next (p + 1) { r with token := some p, rlen := 0 }
      else .fail
  | some t =>
      if isdigit ch then .next (p + 1) { r with rlen := accum r.rlen ch }
      else if ch = CR then
        if refused r (p - t) ∨ r.rnarg = 0 then .fail
        else .next (p + 1) { r with rnarg := r.rnarg - 1, token := none, state := after }
      else .fail

/-- A state that accepts a line feed only. -/
def lineFeed (after : ReqState) (ch : UInt8) (r : Scan ReqState) (p : Nat) :
    Flow (Scan ReqState) :=
  if ch = LF then .next (p + 1) { r with state := after } else .fail

/-- A state that accepts a line feed only and then follows a route. -/
def routed (route : Route) (ch : UInt8) (r : Scan ReqState) (p : Nat) : Flow (Scan ReqState) :=
  if ch = LF then
    match route with
    | .error => .fail
    | .done => .stop p r
    | .goto slot => .next (p + 1) { r with state := .len slot }
  else .fail

/-- `SW_REQ_TYPE`: the command name, which has to lie in one mbuf. -/
def reqTypeBody (b : Bytes) (r : Scan ReqState) (p : Nat) : Flow (Scan ReqState) :=
  let t := r.token.getD p
  let m := t + r.rlen
  if b.length ≤ m then .next b.length { r with token := some t }
  else if b.getD m 0 = CR then
    let type := redisCommand (b.drop t) (m - t)
    if type = .unknown then .fail
    else
      .next (m + 1)
        { r with
          rlen := 0, token := none, type := type,
          quit := r.quit || type == .reqRedisQuit,
          noforward := r.noforward || type == .reqRedisPing || type == .reqRedisAuth,
          state := swReqTypeLf }
  else .fail

/-- `SW_KEY`: a key, which has to lie in one mbuf and is recorded. -/
def keyBody (i : Nat) (b : Bytes) (r : Scan ReqState) (p : Nat) : Flow (Scan ReqState) :=
  let t := r.token.getD p
  let m := t + r.rlen
  if b.length ≤ m then .next b.length { r with token := some t }
  else if b.getD m 0 = CR then
    .next (m + 1)
      { r with
        rlen := 0, token := none, keys := r.keys ++ [⟨⟨i, t⟩, ⟨i, m⟩⟩], state := swKeyLf }
  else .fail

/-- The value of the numkeys argument of `EVAL`, if all its bytes are digits. -/
def numKeys (text : Bytes) : Option Nat :=
  text.foldlM (fun nkey ch => if isdigit ch then some (accum nkey ch) else none) 0

/-- The check on the numkeys argument: it has to be a numeral other than zero. -/
def numKeysRefused (text : Bytes) : Bool :=
  match numKeys text with
  | none => true
  | some nkey => nkey = 0

/-- The token marker in `SW_ARG2`: only `EVAL` and `EVALSHA` set it. -/
def arg2Token (r : Scan ReqState) (p : Nat) : Option Nat :=
  if r.token = none ∧ redisArgeval r.type then some p else r.token

/-- `SW_ARG2`: as `skipRlen`, except that for `EVAL` and `EVALSHA` the argument is
a token and has to be a numeral other than zero. -/
def arg2Body (b : Bytes) (r : Scan ReqState) (p : Nat) : Flow (Scan ReqState) :=
  let token := arg2Token r p
  let m := p + r.rlen
  if b.length ≤ m then
    .next b.length { r with token := token, rlen := r.rlen - (b.length - p) }
  else if b.getD m 0 = CR then
    if redisArgeval r.type then
      let t := token.getD p
      if m - t < 1 ∨ numKeysRefused ((b.drop t).take (m - t)) then .fail
      else .next (m + 1) { r with token := none, rlen := 0, state := swArg2Lf }
    else .next (m + 1) { r with token := token, rlen := 0, state := swArg2Lf }
  else .fail

/-- The body of the loop of `redis_parse_req`. -/
def redisParseReqStep (dataSize i : Nat) (b : Bytes) (r : Scan ReqState) (p : Nat) :
    Flow (Scan ReqState) :=
  let ch := b.getD p 0
  let noRlen : Scan ReqState → Nat → Bool := fun r _ => r.rlen = 0
  let longKey : Scan ReqState → Nat → Bool := fun r _ => dataSize ≤ r.rlen
  let noDigit : Scan ReqState → Nat → Bool := fun _ n => n ≤ 1
  match r.state with
  | swStart | swNarg => countLine i ch r p
  | swNargLf => lineFeed swReqTypeLen ch r p
  | swReqTypeLen => lenLine noRlen swReqTypeLenLf ch r p
  | swReqTypeLenLf => lineFeed swReqType ch r p
  | swReqType => reqTypeBody b r p
  | swReqTypeLf => routed (afterReqType r.type r.narg) ch r p
  | swKeyLen => lenLine longKey swKeyLenLf ch r p
  | swKeyLenLf => lineFeed swKey ch r p
  | swKey => keyBody i b r p
  | swKeyLf => routed (afterKey r.type r.narg r.rnarg) ch r p
  | swArg1Len => lenLine noDigit swArg1LenLf ch r p
  | swArg1LenLf => lineFeed swArg1 ch r p
  | swArg1 => skipRlen swArg1Lf b r p
  | swArg1Lf => routed (afterArg1 r.type r.rnarg) ch r p
  | swArg2Len => lenLine noDigit swArg2LenLf ch r p
  | swArg2LenLf => lineFeed swArg2 ch r p
  | swArg2 => arg2Body b r p
  | swArg2Lf => routed (afterArg2 r.type r.rnarg) ch r p
  | swArg3Len => lenLine noDigit swArg3LenLf ch r p
  | swArg3LenLf => lineFeed swArg3 ch r p
  | swArg3 => skipRlen swArg3Lf b r p
  | swArg3Lf => routed (afterArg3 r.type r.rnarg) ch r p
  | swArgnLen => lenLine noDigit swArgnLenLf ch r p
  | swArgnLenLf => lineFeed swArgn ch r p
  | swArgn => skipRlen swArgnLf b r p
  | swArgnLf => routed (afterArgn r.type r.rnarg) ch r p

def redisReqParser : Parser ReqState where
  start := swStart
  step := redisParseReqStep

/-- `redis_parse_req`. -/
def redisParseReq (dataSize : Nat) (r : Msg ReqState) : Msg ReqState :=
  redisReqParser.parse dataSize r

/-! ## Slots -/

/-- The check at the end of a length line. -/
def lenRefused (dataSize : Nat) : ArgSlot → Scan ReqState → Nat → Bool
  | .reqType, r, _ => r.rlen = 0
  | .key, r, _ => dataSize ≤ r.rlen
  | _, _, n => n ≤ 1

/-- Where the argument of a slot leads. -/
def afterSlot (type : MsgType) (narg rnarg : Nat) : ArgSlot → Route
  | .reqType => afterReqType type narg
  | .key => afterKey type narg rnarg
  | .arg1 => afterArg1 type rnarg
  | .arg2 => afterArg2 type rnarg
  | .arg3 => afterArg3 type rnarg
  | .argn => afterArgn type rnarg

/-- The bytes of the argument of a slot. -/
def slotBody (i : Nat) (b : Bytes) : ArgSlot → Scan ReqState → Nat → Flow (Scan ReqState)
  | .reqType => reqTypeBody b
  | .key => keyBody i b
  | .arg1 => skipRlen swArg1Lf b
  | .arg2 => arg2Body b
  | .arg3 => skipRlen swArg3Lf b
  | .argn => skipRlen swArgnLf b

/-! ## Routes by class -/

/-- The argument classes of redis commands. -/
inductive ArgClass where
  | argz
  | arg0
  | arg1
  | arg2
  | arg3
  | argn
  | argx
  | argkvx
  | argeval
  deriving DecidableEq, Repr

/-- The class of a command. -/
def argClass (type : MsgType) : Option ArgClass :=
  if redisArgz type then some .argz
  else if redisArg0 type then some .arg0
  else if redisArg1 type then some .arg1
  else if redisArg2 type then some .arg2
  else if redisArg3 type then some .arg3
  else if redisArgn type then some .argn
  else if redisArgx type then some .argx
  else if redisArgkvx type then some .argkvx
  else if redisArgeval type then some .argeval
  else none

/-- Where an argument leads, by class. -/
def classRoute (narg rnarg : Nat) : Option ArgClass → ArgSlot → Route
  | some .argz, .reqType => .done
  | some .argeval, .reqType => if narg = 1 then .error else .goto .arg1
  | _, .reqType => if narg = 1 then .error else .goto .key
  | some .arg0, .key => .require (rnarg = 0) .done
  | some .arg1, .key => .require (rnarg = 1) (.goto .arg1)
  | some .arg2, .key => .require (rnarg = 2) (.goto .arg1)
  | some .arg3, .key => .require (rnarg = 3) (.goto .arg1)
  | some .argn, .key => .doneOr rnarg .arg1
  | some .argx, .key => .doneOr rnarg .key
  | some .argkvx, .key => .require (narg % 2 ≠ 0) (.goto .arg1)
  | some .argeval, .key => .doneOr rnarg .argn
  | some .arg1, .arg1 => .require (rnarg = 0) .done
  | some .arg2, .arg1 => .require (rnarg = 1) (.goto .arg2)
  | some .arg3, .arg1 => .require (rnarg = 2) (.goto .arg2)
  | some .argeval, .arg1 => .require (2 ≤ rnarg) (.goto .arg2)
  | some .argkvx, .arg1 => .doneOr rnarg .key
  | some .arg2, .arg2 => .require (rnarg = 0) .done
  | some .arg3, .arg2 => .require (rnarg = 1) (.goto .arg3)
  | some .argeval, .arg2 => .require (1 ≤ rnarg) (.goto .key)
  | some .arg3, .arg3 => .require (rnarg = 0) .done
  | some .argeval, .argn => .doneOr rnarg .argn
  | some .argn, .arg1 | some .argn, .arg2 | some .argn, .arg3 | some .argn, .argn =>
      .doneOr rnarg .argn
  | _, _ => .error

/-- The class of a command decides every route. -/
theorem afterSlot_eq (type : MsgType) (narg rnarg : Nat) (slot : ArgSlot) :
    afterSlot type narg rnarg slot = classRoute narg rnarg (argClass type) slot := by
  cases slot <;> cases type <;> rfl

theorem redisArgz_eq (type : MsgType) : redisArgz type = (argClass type == some .argz) := by
  cases type <;> rfl

theorem redisArgeval_eq (type : MsgType) :
    redisArgeval type = (argClass type == some .argeval) := by
  cases type <;> rfl

/-! ## The iteration by kind of state -/

section StepEquations

variable {dataSize i : Nat} {b : Bytes} {r : Scan ReqState} {p : Nat} {slot : ArgSlot}

theorem step_count (state : r.state = .start ∨ r.state = .narg) :
    redisParseReqStep dataSize i b r p = countLine i (b.getD p 0) r p := by
  rcases state with state | state <;> simp only [redisParseReqStep, state]

theorem step_nargLf (state : r.state = .nargLf) :
    redisParseReqStep dataSize i b r p = lineFeed (.len .reqType) (b.getD p 0) r p := by
  simp only [redisParseReqStep, state]

theorem step_len (state : r.state = .len slot) :
    redisParseReqStep dataSize i b r p =
      lenLine (lenRefused dataSize slot) (.lenLf slot) (b.getD p 0) r p := by
  cases slot <;> simp only [redisParseReqStep, state] <;> rfl

theorem step_lenLf (state : r.state = .lenLf slot) :
    redisParseReqStep dataSize i b r p = lineFeed (.body slot) (b.getD p 0) r p := by
  cases slot <;> simp only [redisParseReqStep, state]

theorem step_body (state : r.state = .body slot) :
    redisParseReqStep dataSize i b r p = slotBody i b slot r p := by
  cases slot <;> simp only [redisParseReqStep, state] <;> rfl

theorem step_bodyLf (state : r.state = .bodyLf slot) :
    redisParseReqStep dataSize i b r p =
      routed (afterSlot r.type r.narg r.rnarg slot) (b.getD p 0) r p := by
  cases slot <;> simp only [redisParseReqStep, state] <;> rfl

end StepEquations

section Inversion

variable {i : Nat} {b : Bytes} {ch : UInt8} {r s : Scan ReqState} {p q : Nat}

theorem countLine_next (stepEq : countLine i ch r p = .next q s) :
    q = p + 1 ∧
      ((r.token = none ∧ ch = byteOf '*' ∧
          s = { r with
            token := some p, narg_start := some ⟨i, p⟩, rnarg := 0, state := .narg }) ∨
        (∃ t, r.token = some t ∧ isdigit ch = true ∧ s = { r with rnarg := accum r.rnarg ch }) ∨
        (∃ t, r.token = some t ∧ isdigit ch = false ∧ ch = CR ∧ r.rnarg ≠ 0 ∧
          s = { r with
            narg := r.rnarg, narg_end := some ⟨i, p⟩, token := none, state := .nargLf })) := by
  unfold countLine at stepEq
  cases token : r.token with
  | none =>
    simp only [token] at stepEq
    split at stepEq
    · cases stepEq
      simp_all
    · cases stepEq
  | some t =>
    simp only [token] at stepEq
    split at stepEq
    · cases stepEq
      simp_all
    · split at stepEq
      · split at stepEq
        · cases stepEq
        · cases stepEq
          simp_all
      · cases stepEq

theorem lenLine_next {refused : Scan ReqState → Nat → Bool} {after : ReqState}
    (stepEq : lenLine refused after ch r p = .next q s) :
    q = p + 1 ∧
      ((r.token = none ∧ ch = byteOf '$' ∧ s = { r with token := some p, rlen := 0 }) ∨
        (∃ t, r.token = some t ∧ isdigit ch = true ∧ s = { r with rlen := accum r.rlen ch }) ∨
        (∃ t, r.token = some t ∧ isdigit ch = false ∧ ch = CR ∧ refused r (p - t) = false ∧
          r.rnarg ≠ 0 ∧ s = { r with rnarg := r.rnarg - 1, token := none, state := after })) := by
  unfold lenLine at stepEq
  cases token : r.token with
  | none =>
    simp only [token] at stepEq
    split at stepEq
    · cases stepEq
      simp_all
    · cases stepEq
  | some t =>
    simp only [token] at stepEq
    split at stepEq
    · cases stepEq
      simp_all
    · split at stepEq
      · split at stepEq
        · cases stepEq
        · cases stepEq
          simp_all
      · cases stepEq

theorem lineFeed_next {after : ReqState} (stepEq : lineFeed after ch r p = .next q s) :
    q = p + 1 ∧ ch = LF ∧ s = { r with state := after } := by
  unfold lineFeed at stepEq
  split at stepEq
  · cases stepEq
    simp_all
  · cases stepEq

theorem routed_next {route : Route} (stepEq : routed route ch r p = .next q s) :
    q = p + 1 ∧ ch = LF ∧ ∃ slot, route = .goto slot ∧ s = { r with state := .len slot } := by
  unfold routed at stepEq
  split at stepEq
  · split at stepEq
    · cases stepEq
    · cases stepEq
    · cases stepEq
      simp_all
  · cases stepEq

end Inversion

end Nutcracker
