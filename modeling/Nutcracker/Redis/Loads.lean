import Nutcracker.Message.Progress
import Nutcracker.Redis.RequestSimulation
import Nutcracker.Redis.ResponseLoop

/-!
# What the redis parsers load

The iterations of `redis_parse_req` and `redis_parse_rsp` over the memory of an mbuf.  An iteration
loads the byte under the cursor.  For an argument it then loads the byte that should end it, and
looks back at the argument if this has to be recognised.
-/

namespace Nutcracker

open Lib Loads

/-! ## Requests -/

section Request

open ReqState

/-- What becomes of a command name that ends at `m`. -/
def named (r : Scan ReqState) (m : Nat) (type : MsgType) : Flow (Scan ReqState) :=
  if type = .unknown then .fail
  else
    .next (m + 1)
      { r with
        rlen := 0, token := none, type := type,
        quit := r.quit || type == .reqRedisQuit,
        noforward := r.noforward || type == .reqRedisPing || type == .reqRedisAuth,
        state := swReqTypeLf }

/-- `SW_REQ_TYPE`. -/
def reqTypeLoads (last : Nat) (r : Scan ReqState) (p : Nat) : Loads UInt8 (Flow (Scan ReqState)) :=
  let t := r.token.getD p
  let m := t + r.rlen
  if last ≤ m then pure (.next last { r with token := some t })
  else do
    let ch ← load m
    if ch = CR then do
      let type ← lookupLoads stricmpLoads t (redisCommandsOf (m - t))
      pure (named r m (type.getD .unknown))
    else pure .fail

/-- `SW_KEY`. -/
def keyLoads (i last : Nat) (r : Scan ReqState) (p : Nat) : Loads UInt8 (Flow (Scan ReqState)) :=
  let t := r.token.getD p
  let m := t + r.rlen
  if last ≤ m then pure (.next last { r with token := some t })
  else do
    let ch ← load m
    if ch = CR then
      pure (.next (m + 1)
        { r with
          rlen := 0, token := none, keys := r.keys ++ [⟨⟨i, t⟩, ⟨i, m⟩⟩], state := swKeyLf })
    else pure .fail

/-- The loop over the numkeys argument of `EVAL`. -/
def numKeysLoads : Nat → Nat → Nat → Loads UInt8 (Option Nat)
  | 0, _, nkey => pure (some nkey)
  | n + 1, k, nkey => do
      let ch ← load k
      if isdigit ch then numKeysLoads n (k + 1) (accum nkey ch) else pure none

/-- `SW_ARG2`. -/
def arg2Loads (last : Nat) (r : Scan ReqState) (p : Nat) : Loads UInt8 (Flow (Scan ReqState)) :=
  let token := arg2Token r p
  let m := p + r.rlen
  if last ≤ m then pure (.next last { r with token := token, rlen := r.rlen - (last - p) })
  else do
    let ch ← load m
    if ch = CR then
      if redisArgeval r.type then
        let t := token.getD p
        if m - t < 1 then pure .fail
        else do
          let nkey ← numKeysLoads (m - t) t 0
          if nkey.elim true (· = 0) then pure .fail
          else pure (.next (m + 1) { r with token := none, rlen := 0, state := swArg2Lf })
      else pure (.next (m + 1) { r with token := token, rlen := 0, state := swArg2Lf })
    else pure .fail

/-- The bytes of an argument that may run over several mbufs. -/
def skipRlenLoads {σ : Type} (after : σ) : Nat → Scan σ → Nat → Loads UInt8 (Flow (Scan σ)) :=
  Loads.passOver CR (fun r => r.rlen) (fun n r => { r with rlen := r.rlen - n })
    fun r => { r with rlen := 0, state := after }

/-- The bytes of the argument of a slot. -/
def slotLoads (i last : Nat) : ArgSlot → Scan ReqState → Nat → Loads UInt8 (Flow (Scan ReqState))
  | .reqType => reqTypeLoads last
  | .key => keyLoads i last
  | .arg1 => skipRlenLoads swArg1Lf last
  | .arg2 => arg2Loads last
  | .arg3 => skipRlenLoads swArg3Lf last
  | .argn => skipRlenLoads swArgnLf last

/-- The body of the loop of `redis_parse_req`. -/
def redisParseReqLoads (dataSize i last : Nat) (r : Scan ReqState) (p : Nat) :
    Loads UInt8 (Flow (Scan ReqState)) := do
  let ch ← load p
  match r.state with
  | .start | .narg => pure (countLine i ch r p)
  | .nargLf => pure (lineFeed swReqTypeLen ch r p)
  | .len slot => pure (lenLine (lenRefused dataSize slot) (.lenLf slot) ch r p)
  | .lenLf slot => pure (lineFeed (.body slot) ch r p)
  | .body slot => slotLoads i last slot r p
  | .bodyLf slot => pure (routed (afterSlot r.type r.narg r.rnarg slot) ch r p)

variable {mem : Nat → UInt8} {b : Bytes} {r s : Scan ReqState} {p q : Nat} {littleEndian : Bool}

theorem reqTypeBody_eq :
    reqTypeBody b r p =
      let t := r.token.getD p
      let m := t + r.rlen
      if b.length ≤ m then .next b.length { r with token := some t }
      else if b.getD m 0 = CR then named r m (redisCommand (b.drop t) (m - t))
      else .fail :=
  rfl

theorem reqTypeLoads_gives (holds : Holds mem b) :
    (reqTypeLoads b.length r p).Gives mem (Loadable littleEndian b.length) (reqTypeBody b r p) := by
  rw [reqTypeBody_eq]
  refine .ite (fun _ => .pure _) fun short => ?_
  have inside := Nat.lt_of_not_le short
  refine gives_byte holds inside (.ite (fun _ => ?_) fun _ => .pure _)
  refine .bind (lookupLoads_gives fun entry member => ?_) (.pure _)
  have length := (redisCommandsOf_names _ entry member).2.1
  exact (stricmpLoads_gives holds (by omega)).mono fun _ => .of_lt

theorem keyLoads_gives {i : Nat} (holds : Holds mem b) :
    (keyLoads i b.length r p).Gives mem (Loadable littleEndian b.length) (keyBody i b r p) := by
  refine .ite (fun _ => .pure _) fun short => ?_
  exact gives_byte holds (Nat.lt_of_not_le short) (.ite (fun _ => .pure _) fun _ => .pure _)

theorem numKeysLoads_gives (holds : Holds mem b) {n k nkey : Nat} (fits : k + n ≤ b.length) :
    (numKeysLoads n k nkey).Gives mem (Loadable littleEndian b.length)
      (((b.drop k).take n).foldlM
        (fun nkey ch => if isdigit ch then some (accum nkey ch) else none) nkey) := by
  induction n generalizing k nkey with
  | zero => exact .pure _
  | succ n ih =>
    have here : k < b.length := by omega
    rw [List.drop_eq_getElem_cons here, List.take_succ_cons, List.foldlM_cons,
      ← List.getD_eq_getElem b 0 here]
    refine gives_byte holds here ?_
    by_cases digit : isdigit (b.getD k 0) = true
    · simp only [digit, if_true]
      exact ih (by omega)
    · simp only [digit, Bool.false_eq_true, if_false]
      exact .pure _

theorem arg2Loads_gives (holds : Holds mem b) (behind : TokenBehind r p) :
    (arg2Loads b.length r p).Gives mem (Loadable littleEndian b.length) (arg2Body b r p) := by
  have before : (arg2Token r p).getD p ≤ p := by
    unfold arg2Token
    split
    · exact Nat.le_refl p
    · exact behind.getD_le
  refine .ite (fun _ => .pure _) fun short => ?_
  have inside := Nat.lt_of_not_le short
  refine gives_byte holds inside
    (.ite (fun _ => .ite (fun _ => ?_) fun _ => .pure _) fun _ => .pure _)
  generalize (arg2Token r p).getD p = t at before
  by_cases empty : p + r.rlen - t < 1
  · simp only [empty, true_or, if_true]
    exact .pure _
  · simp only [empty, false_or, if_false]
    refine .bind (numKeysLoads_gives holds (by omega)) ?_
    have refused : numKeysRefused ((b.drop t).take (p + r.rlen - t)) =
        (numKeys ((b.drop t).take (p + r.rlen - t))).elim true (· = 0) := by
      unfold numKeysRefused
      cases numKeys ((b.drop t).take (p + r.rlen - t)) <;> rfl
    rw [refused]
    exact .ite (fun _ => .pure _) fun _ => .pure _

theorem skipRlenLoads_gives {σ : Type} {r : Scan σ} (after : σ) (holds : Holds mem b) :
    (skipRlenLoads after b.length r p).Gives mem (Loadable littleEndian b.length)
      (skipRlen after b r p) :=
  (passOver_gives holds r p).mono fun _ => .of_lt

theorem redisParseReqLoads_gives {dataSize i : Nat} (holds : Holds mem b)
    (behind : TokenBehind r p) (here : p < b.length) :
    (redisParseReqLoads dataSize i b.length r p).Gives mem (Loadable littleEndian b.length)
      (redisParseReqStep dataSize i b r p) := by
  cases state : r.state with
  | start | narg =>
    rw [step_count (by simp [state])]
    refine gives_byte holds here ?_
    simp only [state]
    exact .pure _
  | nargLf =>
    rw [step_nargLf state]
    refine gives_byte holds here ?_
    simp only [state]
    exact .pure _
  | len slot =>
    rw [step_len state]
    refine gives_byte holds here ?_
    simp only [state]
    exact .pure _
  | lenLf slot =>
    rw [step_lenLf state]
    refine gives_byte holds here ?_
    simp only [state]
    exact .pure _
  | body slot =>
    rw [step_body state]
    refine .bind (.load (.of_lt here)) ?_
    simp only [state]
    cases slot with
    | reqType => exact reqTypeLoads_gives holds
    | key => exact keyLoads_gives holds
    | arg1 => exact skipRlenLoads_gives _ holds
    | arg2 => exact arg2Loads_gives holds behind
    | arg3 => exact skipRlenLoads_gives _ holds
    | argn => exact skipRlenLoads_gives _ holds
  | bodyLf slot =>
    rw [step_bodyLf state]
    refine gives_byte holds here ?_
    simp only [state]
    exact .pure _

def redisReqLoading (dataSize : Nat) : Parser.Loading (redisReqLawful dataSize) where
  step _ := redisParseReqLoads dataSize
  gives _ holds _ behind here := redisParseReqLoads_gives holds behind here
  token good here stepEq _ marked :=
    (redisParseReqStep_token good here stepEq marked).imp_left And.left

end Request

/-! ## Replies -/

section Response

open RspState

/-- `SW_ERROR`. -/
def rspErrorLoads (littleEndian : Bool) (ch : UInt8) (r : Scan RspState) (p : Nat) :
    Loads UInt8 (Flow (Scan RspState)) :=
  if r.token = none ∧ ch ≠ byteOf '-' then pure .fail
  else
    let m := r.token.getD p
    if ch = byteOf ' ' ∨ ch = CR then do
      let type ← lookupLoads (strcmpLoads littleEndian) m (redisErrorsOf (p - m))
      pure (.next (p + 1) { r with type := type.getD r.type, token := none, state := swRuntoCrlf })
    else pure (.next (p + 1) { r with token := some m })

/-- The body of the loop of `redis_parse_rsp`. -/
def redisParseRspLoads (littleEndian : Bool) (i last : Nat) (r : Scan RspState) (p : Nat) :
    Loads UInt8 (Flow (Scan RspState)) := do
  let ch ← load p
  match r.state with
  | swStart => pure (rspStart ch r p)
  | swStatus => pure (.next (p + 1) { r with state := swRuntoCrlf })
  | swError => rspErrorLoads littleEndian ch r p
  | swInteger => pure (.next (p + 1) { r with state := swIntegerStart, integer := 0 })
  | swSimple => pure (rspSimple ch r p)
  | swIntegerStart => pure (rspInteger ch r p)
  | swRuntoCrlf => pure (rspRuntoCrlf ch r p)
  | swAlmostDone => pure (rspDone ch r p)
  | swBulk => pure (rspBulk ch r p)
  | swBulkLf => pure (rspLineFeed ch r p swBulkArg)
  | swBulkArg => skipRlenLoads swBulkArgLf last r p
  | swBulkArgLf => pure (rspDone ch r p)
  | swMultibulk => pure (rspMultibulk i ch r p)
  | swMultibulkNargLf => pure (rspElementLf ch r p)
  | swMultibulkArgnLen => pure (rspArgnLen ch r p)
  | swMultibulkArgnLenLf => pure (rspLineFeed ch r p swMultibulkArgn)
  | swMultibulkArgn => skipRlenLoads swMultibulkArgnLf last r p
  | swMultibulkArgnLf => pure (rspElementLf ch r p)

variable {mem : Nat → UInt8} {b : Bytes} {r s : Scan RspState} {p q : Nat}

theorem rspErrorLoads_gives {littleEndian : Bool} {ch : UInt8} (holds : Holds mem b)
    (behind : TokenBehind r p) (here : p < b.length) :
    (rspErrorLoads littleEndian ch r p).Gives mem (Loadable littleEndian b.length)
      (rspError b ch r p) := by
  have before := behind.getD_le
  refine .ite (fun _ => .pure _) fun _ => .ite (fun _ => ?_) fun _ => .pure _
  refine .bind (lookupLoads_gives fun entry member => ?_) (.pure _)
  have length := redisErrorsOf_length _ entry member
  have span := wordSpan_le entry.1.length
  exact strcmpLoads_gives littleEndian holds (by omega) (by omega)

theorem redisParseRspLoads_gives {littleEndian : Bool} {i : Nat} (holds : Holds mem b)
    (behind : TokenBehind r p) (here : p < b.length) :
    (redisParseRspLoads littleEndian i b.length r p).Gives mem (Loadable littleEndian b.length)
      (redisParseRspStep i b r p) := by
  unfold redisParseRspLoads redisParseRspStep
  cases r.state
  case swError => exact gives_byte holds here (rspErrorLoads_gives holds behind here)
  case swBulkArg | swMultibulkArgn =>
    exact .bind (.load (.of_lt here)) (skipRlenLoads_gives _ holds)
  all_goals exact gives_byte holds here (.pure _)

theorem redisParseRspStep_token {i : Nat} (stepEq : redisParseRspStep i b r p = .next q s) (t : Nat)
    (token : s.token = some t) : r.token = some t ∨ t = p ∧ p < q := by
  unfold redisParseRspStep at stepEq
  cases state : r.state
  case swError | swBulk | swMultibulk | swMultibulkArgnLen =>
    simp only [state, rspError, rspBulk, rspMultibulk, rspArgnLen] at stepEq
    cases marked : r.token <;> simp only [marked] at stepEq <;> grind
  all_goals
    simp only [state, rspStart, rspInteger, rspSimple, rspRuntoCrlf, rspLineFeed, rspDone,
      rspElementLf, skipRlen, Lib.passOver] at stepEq
    grind

def redisRspLoading (dataSize : Nat) : Parser.Loading (redisRspLawful dataSize) where
  step := redisParseRspLoads
  gives _ holds _ behind here := redisParseRspLoads_gives holds behind here
  token _ _ stepEq := redisParseRspStep_token stepEq

end Response

end Nutcracker
