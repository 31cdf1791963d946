import Nutcracker.Memcache.Loop
import Nutcracker.Message.Progress

/-!
# What the memcache parsers load

The iterations of `memcache_parse_req` and `memcache_parse_rsp` over the memory of an mbuf.  An
iteration loads the byte under the cursor.  At the end of a word it looks back at the word, and for
a value it loads the byte that should end it.
-/

namespace Nutcracker

open Lib Loads MsgType

variable {mem : Nat → UInt8} {b : Bytes} {p q : Nat} {littleEndian : Bool}

/-- The type of a word from offset `m` up to the cursor. -/
def memcacheWordLoads (littleEndian : Bool) (wordsOf : Nat → List (List Char × MsgType))
    (m p : Nat) : Loads UInt8 MsgType := do
  let type ← lookupLoads (strcmpLoads littleEndian) m (wordsOf (p - m))
  pure (type.getD unknown)

/-- No word takes more than the bytes up to the cursor, and the words it is compared in take no
more than one byte behind that. -/
def ShortSpans (wordsOf : Nat → List (List Char × MsgType)) : Prop :=
  ∀ len, ∀ entry ∈ wordsOf len, wordSpan entry.1.length ≤ len + 2

theorem memcacheCommandsOf_spans : ShortSpans memcacheCommandsOf := by
  intro len
  unfold memcacheCommandsOf
  split
  case h_6 => simp
  all_goals decide

theorem memcacheRepliesOf_spans : ShortSpans memcacheRepliesOf := by
  intro len
  unfold memcacheRepliesOf
  split
  case h_8 => simp
  all_goals decide

theorem memcacheWordLoads_gives {wordsOf : Nat → List (List Char × MsgType)}
    (short : ShortWords wordsOf) (spans : ShortSpans wordsOf) (holds : Holds mem b) {m : Nat}
    (before : m ≤ p) (here : p < b.length) :
    (memcacheWordLoads littleEndian wordsOf m p).Gives mem (Loadable littleEndian b.length)
      (memcacheWord wordsOf b m p) := by
  refine .bind (lookupLoads_gives fun entry member => ?_) (.pure _)
  have length := short.2 _ entry member
  have span := spans _ entry member
  exact strcmpLoads_gives littleEndian holds (by omega) (by omega)

/-- The bytes of a value. -/
def skipVlenLoads {σ : Type} (after : σ) : Nat → Scan σ → Nat → Loads UInt8 (Flow (Scan σ)) :=
  Loads.passOver CR (fun r => r.vlen) (fun n r => { r with vlen := r.vlen - n })
    fun r => { r with vlen := 0, state := after }

theorem skipVlenLoads_gives {σ : Type} {r : Scan σ} (after : σ) (holds : Holds mem b) :
    (skipVlenLoads after b.length r p).Gives mem (Loadable littleEndian b.length)
      (skipVlen after b r p) :=
  (passOver_gives holds r p).mono fun _ => .of_lt

/-! ## Requests -/

section Request

open McReqState

/-- What becomes of a command name that ends at the cursor. -/
def mcNamed (ch : UInt8) (r : Scan McReqState) (p : Nat) (type : MsgType) :
    Flow (Scan McReqState) :=
  let named :=
    { r with
      token := none, type := type, narg := (r.narg + 1) % word32,
      quit := r.quit || type = reqMcQuit }
  match type with
  | unknown => .fail
  | reqMcQuit => .next p { named with state := swCrlf }
  | _ => if ch = CR then .fail else .next (p + 1) { named with state := swSpacesBeforeKey }

/-- `SW_REQ_TYPE`. -/
def mcReqTypeLoads (littleEndian : Bool) (ch : UInt8) (r : Scan McReqState) (p : Nat) :
    Loads UInt8 (Flow (Scan McReqState)) :=
  if ch = byteOf ' ' ∨ ch = CR then do
    let type ← r.token.elim (pure unknown) fun m =>
      memcacheWordLoads littleEndian memcacheCommandsOf m p
    pure (mcNamed ch r p type)
  else if islower ch then pure (.next (p + 1) r)
  else pure .fail

/-- The bytes from the token marker up to the cursor are `noreply`. -/
def isNoreplyLoads (littleEndian : Bool) (r : Scan McReqState) (p : Nat) : Loads UInt8 Bool :=
  r.token.elim (pure false) fun m =>
    if p - m = 7 then strcmpLoads littleEndian m "noreply".toList
    else pure false

/-- `SW_NOREPLY`. -/
def mcNoreplyLoads (littleEndian : Bool) (ch : UInt8) (r : Scan McReqState) (p : Nat) :
    Loads UInt8 (Flow (Scan McReqState)) :=
  if ch = byteOf ' ' ∨ ch = CR then do
    if ← isNoreplyLoads littleEndian r p then
      pure (.next p { r with token := none, noreply := true, state := swAfterNoreply })
    else pure .fail
  else pure (.next (p + 1) r)

/-- The body of the loop of `memcache_parse_req`. -/
def memcacheParseReqLoads (littleEndian : Bool) (i last : Nat) (r : Scan McReqState) (p : Nat) :
    Loads UInt8 (Flow (Scan McReqState)) := do
  let ch ← load p
  match r.state with
  | swStart => pure (mcReqStart ch r p)
  | swReqType => mcReqTypeLoads littleEndian ch r p
  | swSpacesBeforeKey => pure (mcSpacesBeforeKey ch r p)
  | swKey => pure (mcKey i ch r p)
  | swSpacesBeforeKeys => pure (mcSpacesBeforeKeys ch r p)
  | swSpacesBeforeFlags => pure (mcBeforeNumber ch r p isdigit swFlags)
  | swFlags => pure (mcNumber ch r p swSpacesBeforeExpiry)
  | swSpacesBeforeExpiry => pure (mcBeforeNumber ch r p isdigit swExpiry)
  | swExpiry => pure (mcNumber ch r p swSpacesBeforeVlen)
  | swSpacesBeforeVlen => pure (mcSpacesBeforeVlen ch r p)
  | swVlen => pure (mcVlen ch r p)
  | swSpacesBeforeCas => pure (mcBeforeNumber ch r p isdigit swCas)
  | swCas => pure (mcLastNumber ch r p)
  | swRuntoVal => pure (mcRuntoVal ch r p)
  | swVal => skipVlenLoads swAlmostDone last r p
  | swSpacesBeforeNum =>
      pure (mcBeforeNumber ch r p (fun c => isdigit c || c == byteOf '-') swNum)
  | swNum => pure (mcLastNumber ch r p)
  | swRuntoCrlf => pure (mcRuntoCrlf ch r p)
  | swCrlf => pure (mcCrlf ch r p)
  | swNoreply => mcNoreplyLoads littleEndian ch r p
  | swAfterNoreply => pure (mcAfterNoreply ch r p)
  | swAlmostDone => pure (mcAlmostDone ch r p)

variable {r s : Scan McReqState} {ch : UInt8}

theorem mcReqType_eq :
    mcReqType b ch r p =
      if ch = byteOf ' ' ∨ ch = CR then
        mcNamed ch r p (r.token.elim unknown fun m => memcacheWord memcacheCommandsOf b m p)
      else if islower ch then .next (p + 1) r
      else .fail :=
  rfl

theorem mcReqTypeLoads_gives (holds : Holds mem b) (behind : TokenBehind r p)
    (here : p < b.length) :
    (mcReqTypeLoads littleEndian ch r p).Gives mem (Loadable littleEndian b.length)
      (mcReqType b ch r p) := by
  rw [mcReqType_eq]
  refine .ite (fun _ => .bind ?_ (.pure _)) fun _ => .ite (fun _ => .pure _) fun _ => .pure _
  cases token : r.token with
  | none => exact .pure _
  | some m =>
    exact memcacheWordLoads_gives memcacheCommandsOf_short memcacheCommandsOf_spans holds
      (behind m token).le here

theorem isNoreplyLoads_gives (holds : Holds mem b) (here : p < b.length) :
    (isNoreplyLoads littleEndian r p).Gives mem (Loadable littleEndian b.length)
      (isNoreply b r p) := by
  unfold isNoreplyLoads isNoreply
  cases r.token with
  | none => exact .pure _
  | some m =>
    simp only [Option.elim_some, Option.any_some]
    by_cases seven : p - m = 7
    · simp only [seven, if_true, decide_true, Bool.true_and]
      refine strcmpLoads_gives littleEndian holds ?_ ?_
      · change m + 7 ≤ _
        omega
      · have span : wordSpan "noreply".toList.length = 8 := rfl
        omega
    · simp only [seven, if_false, decide_false, Bool.false_and]
      exact .pure _

theorem memcacheParseReqLoads_gives {i : Nat} (holds : Holds mem b) (behind : TokenBehind r p)
    (here : p < b.length) :
    (memcacheParseReqLoads littleEndian i b.length r p).Gives mem (Loadable littleEndian b.length)
      (memcacheParseReqStep i b r p) := by
  unfold memcacheParseReqLoads memcacheParseReqStep
  cases r.state
  case swReqType => exact gives_byte holds here (mcReqTypeLoads_gives holds behind here)
  case swNoreply =>
    refine gives_byte holds here (.ite (fun _ => ?_) fun _ => .pure _)
    refine .bind (isNoreplyLoads_gives holds here) ?_
    exact .ite (fun _ => .pure _) fun _ => .pure _
  case swVal => exact .bind (.load (.of_lt here)) (skipVlenLoads_gives _ holds)
  all_goals exact gives_byte holds here (.pure _)

theorem memcacheParseReqStep_token {i : Nat} (stepEq : memcacheParseReqStep i b r p = .next q s)
    (t : Nat) (token : s.token = some t) : r.token = some t ∨ t = p ∧ p < q := by
  unfold memcacheParseReqStep at stepEq
  cases state : r.state
  case swKey =>
    simp only [state, mcKey] at stepEq
    cases marked : r.token <;> simp only [marked] at stepEq <;> grind
  all_goals
    simp only [state, mcReqStart, mcReqType, mcSpacesBeforeKey, mcSpacesBeforeKeys,
      mcBeforeNumber, mcNumber, mcLastNumber, mcSpacesBeforeVlen, mcVlen, mcRuntoVal, mcLineEnd,
      mcRuntoCrlf, mcNoreply, mcAfterNoreply, mcCrlf, mcAlmostDone, skipVlen, Lib.passOver]
      at stepEq
    grind

def memcacheReqLoading (dataSize : Nat) : Parser.Loading (memcacheReqLawful dataSize) where
  step := memcacheParseReqLoads
  gives _ holds _ behind here := memcacheParseReqLoads_gives holds behind here
  token _ _ stepEq := memcacheParseReqStep_token stepEq

end Request

/-! ## Replies -/

section Response

open McRspState

/-- What becomes of the first word of a line, which starts at `m` and ends at the cursor. -/
def mcWord (i : Nat) (r : Scan McRspState) (m p : Nat) (type : MsgType) :
    Flow (Scan McRspState) :=
  match mcAfterWord type with
  | none => .fail
  | some after =>
      .next p
        { r with
          token := some m, type := type,
          end_ := if type = rspMcEnd then some ⟨i, m⟩ else r.end_, state := after }

/-- `SW_RSP_STR`. -/
def mcRspStrLoads (littleEndian : Bool) (i : Nat) (ch : UInt8) (r : Scan McRspState) (p : Nat) :
    Loads UInt8 (Flow (Scan McRspState)) :=
  let m := r.token.getD p
  if ch = byteOf ' ' ∨ ch = CR then do
    let type ← memcacheWordLoads littleEndian memcacheRepliesOf m p
    pure (mcWord i r m p type)
  else pure (.next (p + 1) { r with token := some m })

/-- `SW_END`. -/
def mcRspEndLoads (littleEndian : Bool) (i : Nat) (ch : UInt8) (r : Scan McRspState) (p : Nat) :
    Loads UInt8 (Flow (Scan McRspState)) :=
  match r.token with
  | none => pure (if ch = byteOf 'E' then .next (p + 1) { r with token := some p } else .fail)
  | some m =>
      if ch = CR then
        if p - m = 3 then do
          if ← strcmpLoads littleEndian m "END\r".toList then
            pure (.next (p + 1)
              { r with token := none, end_ := some ⟨i, m⟩, state := swAlmostDone })
          else pure (.next (p + 1) { r with token := none })
        else pure .fail
      else pure (.next (p + 1) r)

/-- The body of the loop of `memcache_parse_rsp`. -/
def memcacheParseRspLoads (littleEndian : Bool) (i last : Nat) (r : Scan McRspState) (p : Nat) :
    Loads UInt8 (Flow (Scan McRspState)) := do
  let ch ← load p
  match r.state with
  | swStart => pure (mcRspStart ch r p)
  | swRspNum => pure (mcRspNum ch r p)
  | swRspStr => mcRspStrLoads littleEndian i ch r p
  | swSpacesBeforeKey => pure (mcRspSpacesBeforeKey ch r p)
  | swKey => pure (mcRspKey ch r p)
  | swSpacesBeforeFlags => pure (mcRspSpacesBeforeFlags ch r p)
  | swFlags => pure (mcRspFlags ch r p)
  | swSpacesBeforeVlen => pure (mcRspSpacesBeforeVlen ch r p)
  | swVlen => pure (mcRspVlen ch r p)
  | swRuntoVal => pure (mcRspRuntoVal ch r p)
  | swVal => skipVlenLoads swValLf last r p
  | swValLf => pure (mcRspValLf ch r p)
  | swEnd => mcRspEndLoads littleEndian i ch r p
  | swRuntoCrlf => pure (mcRspRuntoCrlf ch r p)
  | swCrlf => pure (mcRspCrlf ch r p)
  | swAlmostDone => pure (mcRspAlmostDone ch r p)

variable {r s : Scan McRspState} {ch : UInt8} {i : Nat}

theorem mcRspStrLoads_gives (holds : Holds mem b) (behind : TokenBehind r p)
    (here : p < b.length) :
    (mcRspStrLoads littleEndian i ch r p).Gives mem (Loadable littleEndian b.length)
      (mcRspStr i b ch r p) := by
  refine .ite (fun _ => ?_) fun _ => .pure _
  refine .bind ?_ (.pure _)
  exact memcacheWordLoads_gives memcacheRepliesOf_short memcacheRepliesOf_spans holds
    behind.getD_le here

theorem mcRspEndLoads_gives (holds : Holds mem b) (here : p < b.length) :
    (mcRspEndLoads littleEndian i ch r p).Gives mem (Loadable littleEndian b.length)
      (mcRspEnd i b ch r p) := by
  unfold mcRspEndLoads mcRspEnd
  cases r.token with
  | none => exact .pure _
  | some m =>
    refine .ite (fun _ => .ite (fun three => ?_) fun _ => .pure _) fun _ => .pure _
    have span : wordSpan "END\r".toList.length = 4 := rfl
    refine .bind (strcmpLoads_gives littleEndian holds ?_ ?_) ?_
    · change m + 4 ≤ _
      omega
    · omega
    · exact .ite (fun _ => .pure _) fun _ => .pure _

theorem memcacheParseRspLoads_gives (holds : Holds mem b) (behind : TokenBehind r p)
    (here : p < b.length) :
    (memcacheParseRspLoads littleEndian i b.length r p).Gives mem (Loadable littleEndian b.length)
      (memcacheParseRspStep i b r p) := by
  unfold memcacheParseRspLoads memcacheParseRspStep
  cases r.state
  case swRspStr => exact gives_byte holds here (mcRspStrLoads_gives holds behind here)
  case swEnd => exact gives_byte holds here (mcRspEndLoads_gives holds here)
  case swVal => exact .bind (.load (.of_lt here)) (skipVlenLoads_gives _ holds)
  all_goals exact gives_byte holds here (.pure _)

/-- A word without a byte is refused, so a token that is kept is not empty. -/
theorem mcRspStr_token (stepEq : mcRspStr i b ch r p = .next q s) (t : Nat)
    (token : s.token = some t) : r.token = some t ∨ t = p ∧ p < q := by
  cases marked : r.token with
  | none =>
    simp only [mcRspStr, marked, Option.getD_none] at stepEq
    split at stepEq
    · have nothing : memcacheWord memcacheRepliesOf b p p = unknown := by
        rw [memcacheWord, Nat.sub_self]
        rfl
      rw [nothing] at stepEq
      cases stepEq
    · cases stepEq
      exact Or.inr ⟨(Option.some.inj token).symm, Nat.lt_succ_self p⟩
  | some m =>
    refine Or.inl ?_
    simp only [mcRspStr, marked, Option.getD_some] at stepEq
    split at stepEq
    · split at stepEq
      · cases stepEq
      · cases stepEq
        exact token
    · cases stepEq
      exact token

theorem memcacheParseRspStep_token (stepEq : memcacheParseRspStep i b r p = .next q s)
    (t : Nat) (token : s.token = some t) : r.token = some t ∨ t = p ∧ p < q := by
  unfold memcacheParseRspStep at stepEq
  cases state : r.state
  case swRspStr =>
    simp only [state] at stepEq
    exact mcRspStr_token stepEq t token
  case swRspNum | swEnd =>
    simp only [state, mcRspNum, mcRspEnd] at stepEq
    cases marked : r.token <;> simp only [marked] at stepEq <;> grind
  all_goals
    simp only [state, mcRspStart, mcRspSpacesBeforeKey, mcRspKey, mcRspSpacesBeforeFlags,
      mcRspFlags, mcRspSpacesBeforeVlen, mcRspVlen, mcRspRuntoVal, mcRspValLf, mcRspRuntoCrlf,
      mcRspCrlf, mcRspAlmostDone, skipVlen, Lib.passOver] at stepEq
    grind

def memcacheRspLoading (dataSize : Nat) : Parser.Loading (memcacheRspLawful dataSize) where
  step := memcacheParseRspLoads
  gives _ holds _ behind here := memcacheParseRspLoads_gives holds behind here
  token _ _ stepEq := memcacheParseRspStep_token stepEq

end Response

end Nutcracker
