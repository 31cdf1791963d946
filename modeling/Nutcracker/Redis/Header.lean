import Nutcracker.Message.Driver
import Nutcracker.Redis.Framing
import Nutcracker.Redis.Vector

/-!
# The first lines of a request

`redis_fragment_argx` skips the count, the length of the command name and the name by looking for
three line feeds in the first mbuf, without a check for its end.  The request parser puts no bound
on the leading zeros of the two numbers, so these lines need not fit in one mbuf.  A received
request has them in its first mbuf exactly if three line feeds are among its first `dataSize` bytes.
-/

namespace Nutcracker

open Lib ReqState

/-! ## Lines -/

/-- Three whole lines. -/
structure ThreeLines (h : Bytes) : Prop where
  count : h.count LF = 3
  last : h.getLast? = some LF

theorem linesLength_of_lines {n : Nat} {h x : Bytes} (count : h.count LF = n)
    (last : h = [] ∨ h.getLast? = some LF) (inside : h <+: x) : linesLength n x = h.length := by
  induction n generalizing h x with
  | zero =>
    rcases last with rfl | last
    · rfl
    · exact absurd (List.mem_of_getLast? last) (List.count_eq_zero.mp count)
  | succ n ih =>
    have some_ : LF ∈ h := List.count_pos_iff.mp (by omega)
    obtain ⟨line, rest, rfl, first⟩ := List.eq_append_cons_of_mem some_
    obtain ⟨y, rfl⟩ := inside
    have taken : (line ++ LF :: rest ++ y).takeWhile (· ≠ LF) = line := by
      rw [List.append_assoc, List.takeWhile_append_of_pos]
      · simp
      · intro b member
        simp only [ne_eq, decide_not, Bool.not_eq_eq_eq_not, Bool.not_true, decide_eq_false_iff_not]
        rintro rfl
        exact first member
    have dropped : (line ++ LF :: rest ++ y).drop (line.length + 1) = rest ++ y := by
      simp [List.drop_append]
    rw [linesLength, taken, dropped, ih _ _ (List.prefix_append rest y)]
    · simp
      omega
    · simpa [List.count_eq_zero.mpr first] using count
    · cases rest with
      | nil => exact Or.inl rfl
      | cons b rest => exact Or.inr (by simpa using last)

theorem count_take_succ {b : Bytes} {p : Nat} (inside : p < b.length) :
    (b.take (p + 1)).count LF = (b.take p).count LF + if b.getD p 0 = LF then 1 else 0 := by
  rw [List.take_succ_eq_append_getElem inside, List.count_append, List.count_singleton,
    List.getD_eq_getElem _ _ inside]
  simp

/-! ## Command names -/

theorem letters_ne_LF : ∀ c ∈ letters, lower LF ≠ byteOf c := by
  decide

/-- There is no line feed in the name of a command. -/
theorem LF_not_mem_of_redisCommand {m : Bytes} {len : Nat} (known : redisCommand m len ≠ .unknown) :
    LF ∉ m.take len := by
  unfold redisCommand lookupWith at known
  cases found : (redisCommandsOf len).find? fun entry => stricmp m entry.1 with
  | none => simp [found] at known
  | some entry =>
    have matched : stricmp m entry.1 = true := by simpa using List.find?_some found
    obtain ⟨long, -, lettered⟩ := redisCommandsOf_names len entry (List.mem_of_find?_eq_some found)
    have spelled := lower_of_stricmp matched lettered
    intro member
    have inName : lower LF ∈ entry.1.map byteOf := by
      rw [← spelled]
      exact List.mem_map_of_mem ((List.take_prefix_take_left long).subset member)
    obtain ⟨c, letter, same⟩ := List.mem_map.mp inName
    exact letters_ne_LF c (lettered c letter) same.symm

/-! ## Where the parser is -/

/-- The number of line feeds before the cursor while the first three lines are read. -/
def headerLines : ReqState → Option Nat
  | swStart | swNarg | swNargLf => some 0
  | swReqTypeLen | swReqTypeLenLf => some 1
  | swReqType | swReqTypeLf => some 2
  | _ => none

/-- The cursor, or the start of the command name while this is read. -/
def nameStart (r : Scan ReqState) (p : Nat) : Nat :=
  if r.state = swReqType then r.token.getD p else p

/-- The parser is in the first three lines. -/
def InHeader (b : Bytes) (r : Scan ReqState) (p : Nat) : Prop :=
  headerLines r.state = some ((b.take (nameStart r p)).count LF)

/-- The parser is behind the first three lines, `h`, and has met a dollar sign there unless it is
about to look for one.  The mbufs before the current one are `front`. -/
structure PastHeader (h : Bytes) (front : List Bytes) (b : Bytes) (r : Scan ReqState) (p : Nat) :
    Prop where
  lines : ThreeLines h
  first : ∀ f ∈ front.head?, h <+: f
  state : headerLines r.state = none
  token : ∀ t, r.token = some t → h.length ≤ front.flatten.length + t ∧
    (front.flatten.length + t = h.length → ∃ slot, r.state = .len slot)
  dollar : (front.flatten ++ b.take p = h ∧ r.token = none ∧ ∃ slot, r.state = .len slot) ∨
    h ++ [byteOf '$'] <+: front.flatten ++ b.take p

/-- The first lines do not fit in an mbuf. -/
def LongHeader (dataSize : Nat) (bytes : Bytes) : Prop :=
  dataSize ≤ bytes.length ∧ (bytes.take dataSize).count LF < 3

/-- The parser reads a command name that it is going to refuse. -/
structure Misnamed (dataSize : Nat) (b : Bytes) (r : Scan ReqState) (p : Nat) : Prop where
  state : r.state = swReqType
  name : dataSize ≤ r.rlen ∨ LF ∈ (b.drop (r.token.getD p)).take r.rlen

/-- How far the parser is with a request. -/
inductive Stage (dataSize : Nat) (front : List Bytes) (b : Bytes) (r : Scan ReqState) (p : Nat) :
    Prop where
  | header (only : front = []) (lines : InHeader b r p)
  | past {h : Bytes} (past : PastHeader h front b r p)
  | long (long : LongHeader dataSize (front.flatten ++ b))
  | misnamed (misnamed : Misnamed dataSize b r p)

/-! ## One iteration -/

section Iteration

variable {dataSize i : Nat} {front : List Bytes} {b h : Bytes} {r s : Scan ReqState} {p q : Nat}

theorem isdigit_ne_LF {ch : UInt8} (digit : isdigit ch = true) : ch ≠ LF := by
  rintro rfl
  exact absurd digit (by decide)

/-- The argument in the first lines is the command name. -/
theorem InHeader.slot {slot : ArgSlot} (lines : InHeader b r p)
    (state : r.state = .len slot ∨ r.state = .lenLf slot ∨ r.state = .body slot ∨
      r.state = .bodyLf slot) : slot = .reqType := by
  unfold InHeader at lines
  rcases state with state | state | state | state <;> cases slot <;> simp_all [headerLines]

/-- The parser does not come back to the first lines. -/
theorem step_past (past : headerLines r.state = none)
    (stepEq : redisParseReqStep dataSize i b r p = .next q s) : headerLines s.state = none := by
  cases state : r.state with
  | start | narg | nargLf => simp [state, headerLines] at past
  | len slot =>
    rw [step_len state] at stepEq
    obtain ⟨-, ⟨_, _, rfl⟩ | ⟨_, _, _, rfl⟩ | ⟨_, _, _, _, _, _, rfl⟩⟩ := lenLine_next stepEq
    · exact past
    · exact past
    · cases slot <;> simp_all [headerLines]
  | lenLf slot =>
    rw [step_lenLf state] at stepEq
    obtain ⟨-, -, rfl⟩ := lineFeed_next stepEq
    cases slot <;> simp_all [headerLines]
  | bodyLf slot =>
    rw [step_bodyLf state] at stepEq
    obtain ⟨-, -, next, route, rfl⟩ := routed_next stepEq
    have := Reading.ne_reqType_of_goto route
    cases next <;> simp_all [headerLines]
  | body slot =>
    rw [step_body state] at stepEq
    rw [state] at past
    cases slot <;>
      simp only [slotBody, keyBody, arg2Body, skipRlen, passOver] at stepEq
    all_goals simp only [headerLines, reduceCtorEq] at past
    all_goals grind [headerLines]

/-- A byte that is no line feed leaves the number of lines as it is. -/
theorem inHeader_byte (inside : p < b.length) (other : b.getD p 0 ≠ LF) (here : nameStart r p = p)
    (there : nameStart s (p + 1) = p + 1) (same : headerLines s.state = headerLines r.state)
    (lines : InHeader b r p) : InHeader b s (p + 1) := by
  unfold InHeader at lines ⊢
  rw [here] at lines
  rw [there, same, lines, count_take_succ inside, if_neg other, Nat.add_zero]

/-- A line feed ends a line. -/
theorem inHeader_lineFeed {n : Nat} (inside : p < b.length) (feed : b.getD p 0 = LF)
    (here : nameStart r p = p) (there : nameStart s (p + 1) = p + 1)
    (before : headerLines r.state = some n) (after : headerLines s.state = some (n + 1))
    (lines : InHeader b r p) : InHeader b s (p + 1) := by
  unfold InHeader at lines ⊢
  rw [here, before, Option.some.injEq] at lines
  rw [there, after, count_take_succ inside, if_pos feed, ← lines]

theorem nameStart_of_ne (other : r.state ≠ swReqType) : nameStart r p = p :=
  if_neg other

/-- The command name. -/
theorem inHeader_name (good : TokenOk r p) (inside : p < b.length) (state : r.state = swReqType)
    (lines : InHeader b r p) (stepEq : redisParseReqStep dataSize i b r p = .next q s) :
    InHeader b s q := by
  rw [step_body state] at stepEq
  simp only [slotBody, reqTypeBody] at stepEq
  unfold InHeader at lines ⊢
  rw [nameStart, if_pos state, state] at lines
  have before : r.token.getD p ≤ b.length := by
    cases token : r.token with
    | none => exact inside.le
    | some t => exact (good t token).1.trans inside.le
  generalize r.token.getD p = t at stepEq lines before
  split at stepEq
  · cases stepEq
    rw [nameStart, if_pos state, state]
    exact lines
  · rename_i ends
    split at stepEq
    · rename_i return_
      split at stepEq
      · cases stepEq
      · rename_i known
        cases stepEq
        rw [Nat.add_sub_cancel_left] at known
        have unbroken := List.count_eq_zero.mpr (LF_not_mem_of_redisCommand known)
        rw [nameStart_of_ne (by simp), count_take_succ (Nat.lt_of_not_le ends), return_,
          if_neg (by decide), List.take_add, List.count_append, unbroken]
        exact lines
    · cases stepEq

theorem inHeader_next (good : TokenOk r p) (inside : p < b.length) (lines : InHeader b r p)
    (stepEq : redisParseReqStep dataSize i b r p = .next q s) :
    InHeader b s q ∨ PastHeader (b.take q) [] b s q := by
  cases state : r.state with
  | start | narg =>
    refine Or.inl ?_
    rw [step_count (by simp [state])] at stepEq
    have here : nameStart r p = p := nameStart_of_ne (by simp [state])
    obtain ⟨rfl, ⟨-, star, rfl⟩ | ⟨-, -, digit, rfl⟩ | ⟨-, -, -, return_, -, rfl⟩⟩ :=
      countLine_next stepEq
    · refine inHeader_byte inside ?_ here (nameStart_of_ne (by simp)) (by simp [state, headerLines])
        lines
      rw [star]
      decide
    · exact inHeader_byte inside (isdigit_ne_LF digit) here (nameStart_of_ne (by simp [state])) rfl
        lines
    · refine inHeader_byte inside ?_ here (nameStart_of_ne (by simp)) (by simp [state, headerLines])
        lines
      rw [return_]
      decide
  | nargLf =>
    rw [step_nargLf state] at stepEq
    obtain ⟨rfl, feed, rfl⟩ := lineFeed_next stepEq
    exact Or.inl (inHeader_lineFeed inside feed (nameStart_of_ne (by simp [state]))
      (nameStart_of_ne (by simp)) (by rw [state]; rfl) rfl lines)
  | len slot =>
    obtain rfl := lines.slot (.inl state)
    refine Or.inl ?_
    rw [step_len state] at stepEq
    have here : nameStart r p = p := nameStart_of_ne (by simp [state])
    obtain ⟨rfl, ⟨-, dollar, rfl⟩ | ⟨-, -, digit, rfl⟩ | ⟨-, -, -, return_, -, -, rfl⟩⟩ :=
      lenLine_next stepEq
    · refine inHeader_byte inside ?_ here (nameStart_of_ne (by simp [state])) rfl lines
      rw [dollar]
      decide
    · exact inHeader_byte inside (isdigit_ne_LF digit) here (nameStart_of_ne (by simp [state])) rfl
        lines
    · refine inHeader_byte inside ?_ here (nameStart_of_ne (by simp)) (by simp [state, headerLines])
        lines
      rw [return_]
      decide
  | lenLf slot =>
    obtain rfl := lines.slot (.inr (.inl state))
    rw [step_lenLf state] at stepEq
    have token := good.eq_none (by simp [TokenAt, state])
    obtain ⟨rfl, feed, rfl⟩ := lineFeed_next stepEq
    exact Or.inl (inHeader_lineFeed inside feed (nameStart_of_ne (by simp [state]))
      (by simp [nameStart, token]) (by rw [state]; rfl) rfl lines)
  | body slot =>
    obtain rfl := lines.slot (.inr (.inr (.inl state)))
    exact Or.inl (inHeader_name good inside state lines stepEq)
  | bodyLf slot =>
    obtain rfl := lines.slot (.inr (.inr (.inr state)))
    rw [step_bodyLf state] at stepEq
    have token := good.eq_none (by simp [TokenAt, state])
    obtain ⟨rfl, feed, next, route, rfl⟩ := routed_next stepEq
    have other := Reading.ne_reqType_of_goto route
    unfold InHeader at lines
    rw [nameStart_of_ne (by simp [state]), state] at lines
    have two : 2 = (b.take p).count LF := Option.some.inj lines
    refine Or.inr ⟨⟨?_, ?_⟩, by simp, ?_, ?_, Or.inl ⟨rfl, token, next, rfl⟩⟩
    · rw [count_take_succ inside, if_pos feed, ← two]
    · rw [List.take_succ_eq_append_getElem inside, List.getLast?_concat, ← feed,
        List.getD_eq_getElem _ _ inside]
    · cases next <;> simp_all [headerLines]
    · simp [token]

theorem pastHeader_next (good : TokenOk r p) (inside : p < b.length)
    (past : PastHeader h front b r p)
    (stepEq : redisParseReqStep dataSize i b r p = .next q s) : PastHeader h front b s q := by
  have state' := step_past past.state stepEq
  rcases past.dollar with ⟨whole, token, slot, state⟩ | met
  · rw [step_len state] at stepEq
    have size : front.flatten.length + p = h.length := by
      rw [← whole, List.length_append, List.length_take_of_le inside.le]
    obtain ⟨rfl, ⟨-, dollar, rfl⟩ | ⟨t, marked, -⟩ | ⟨t, marked, -⟩⟩ := lenLine_next stepEq
    · refine ⟨past.lines, past.first, state', ?_, Or.inr ?_⟩
      · rintro t ⟨⟩
        exact ⟨size.ge, fun _ => ⟨slot, state⟩⟩
      · have met : front.flatten ++ b.take (p + 1) = h ++ [byteOf '$'] := by
          rw [List.take_succ_eq_append_getElem inside, ← List.append_assoc, whole, ← dollar,
            List.getD_eq_getElem _ _ inside]
        exact met ▸ List.prefix_rfl
    · exact absurd (token.symm.trans marked) (by simp)
    · exact absurd (token.symm.trans marked) (by simp)
  · have forward : p ≤ q := by
      obtain ⟨-, -, further | ⟨rfl, -⟩⟩ :=
        (redisParseReqStep_productive dataSize i b).advances good inside stepEq
      · exact further.le
      · exact Nat.le_refl _
    have size : h.length < front.flatten.length + p := by
      have := met.length_le
      rw [List.length_append, List.length_append, List.length_take_of_le inside.le] at this
      exact this
    refine ⟨past.lines, past.first, state', ?_, Or.inr (met.trans ?_)⟩
    · intro t token
      rcases redisParseReqStep_token good inside stepEq token with ⟨marked, same⟩ | ⟨rfl, -⟩
      · rw [same]
        exact past.token t marked
      · exact ⟨size.le, fun here => absurd here size.ne'⟩
    · exact (List.prefix_append_right_inj _).mpr (List.take_prefix_take_left forward)

/-- The name is refused, or there is not enough of it. -/
theorem misnamed_step (fits : b.length ≤ dataSize) (misnamed : Misnamed dataSize b r p) :
    (redisParseReqStep dataSize i b r p).Ends (Misnamed dataSize b) fun _ _ => False := by
  rw [step_body misnamed.state]
  simp only [slotBody, reqTypeBody]
  split
  · exact ⟨misnamed.state, misnamed.name⟩
  · rename_i ends
    split
    · split
      · trivial
      · rename_i known
        rw [Nat.add_sub_cancel_left] at known
        rcases misnamed.name with long | broken
        · omega
        · exact absurd broken (LF_not_mem_of_redisCommand known)
    · trivial

/-- What holds where a request ends. -/
def HeaderAtEnd (dataSize : Nat) (front : List Bytes) (b : Bytes) (s : Scan ReqState) (q : Nat) :
    Prop :=
  redisArgz s.type = false →
    (∃ h, ThreeLines h ∧ (∀ f ∈ front.head?, h <+: f) ∧
      h ++ [byteOf '$'] <+: front.flatten ++ b.take q) ∨
    LongHeader dataSize (front.flatten ++ b)

theorem stage_step (good : TokenOk r p) (inside : p < b.length) (fits : b.length ≤ dataSize)
    (stage : Stage dataSize front b r p) :
    (redisParseReqStep dataSize i b r p).Ends (Stage dataSize front b)
      (HeaderAtEnd dataSize front b) := by
  cases stage with
  | header only lines =>
    cases stepEq : redisParseReqStep dataSize i b r p with
    | next q s =>
      rcases inHeader_next good inside lines stepEq with lines' | past
      · exact .header only lines'
      · exact .past (only ▸ past)
    | stop q s =>
      obtain ⟨rfl, rfl, slot, state, done⟩ := redisParseReqStep_stop stepEq
      obtain rfl := lines.slot (.inr (.inr (.inr state)))
      intro plain
      rw [afterSlot, afterReqType, plain] at done
      grind
    | fail => trivial
  | past past =>
    cases stepEq : redisParseReqStep dataSize i b r p with
    | next q s => exact .past (pastHeader_next good inside past stepEq)
    | stop q s =>
      obtain ⟨rfl, rfl, slot, state, -⟩ := redisParseReqStep_stop stepEq
      intro _
      rcases past.dollar with ⟨-, -, slot', state'⟩ | met
      · exact absurd (state.symm.trans state') (by simp)
      · exact Or.inl ⟨_, past.lines, past.first, met⟩
    | fail => trivial
  | long long =>
    cases redisParseReqStep dataSize i b r p with
    | next q s => exact .long long
    | stop q s => exact fun _ => Or.inr long
    | fail => trivial
  | misnamed misnamed =>
    have refused := misnamed_step (i := i) fits misnamed
    cases stepEq : redisParseReqStep dataSize i b r p with
    | next q s =>
      rw [stepEq] at refused
      exact .misnamed refused
    | stop q s =>
      rw [stepEq] at refused
      exact refused.elim
    | fail => trivial

end Iteration

/-! ## The driver -/

section Driver

variable {dataSize : Nat} {m : Msg ReqState} {s : Scan ReqState}

/-- The message is ready for a call. -/
def HeaderReady (dataSize : Nat) (m : Msg ReqState) : Prop :=
  Stage dataSize m.mhdr.dropLast m.lastBuf m.toScan m.pos

/-- The message waits for a read.  A call that cut a token has put the cursor at the start of an
mbuf, and an mbuf that the token fills is passed over. -/
inductive HeaderRest (dataSize : Nat) (m : Msg ReqState) : Prop where
  | header (only : m.mhdr.dropLast = []) (lines : InHeader m.lastBuf m.toScan m.pos)
      (space : m.lastBuf.length < dataSize)
  | past {h : Bytes} (past : PastHeader h m.mhdr.dropLast m.lastBuf m.toScan m.pos)
      (behind : m.pos = m.lastBuf.length ∨
        h ++ [byteOf '$'] <+: m.mhdr.dropLast.flatten ++ m.lastBuf)
  | long (long : LongHeader dataSize (m.mhdr.dropLast.flatten ++ m.lastBuf))
  | misnamed (misnamed : Misnamed dataSize m.lastBuf m.toScan m.pos)
      (filled : m.token = none → m.lastBuf.length ≤ m.rlen ∨ dataSize ≤ m.rlen)

/-- The first lines are in the first mbuf, or do not fit in one. -/
def HeaderDone (dataSize : Nat) (m : Msg ReqState) : Prop :=
  redisArgz m.type = false →
    (∃ h, ThreeLines h ∧ h <+: m.mhdr.headD [] ∧ h ++ [byteOf '$'] <+: m.bytes) ∨
    (m.bytes.take dataSize).count LF < 3

theorem LongHeader.append {x : Bytes} (long : LongHeader dataSize x) (y : Bytes) :
    LongHeader dataSize (x ++ y) := by
  refine ⟨?_, ?_⟩
  · rw [List.length_append]
    exact Nat.le_add_right_of_le long.1
  · rw [List.take_append_of_le_length long.1]
    exact long.2

theorem inHeader_append {b x : Bytes} {r : Scan ReqState} {p : Nat} (good : TokenOk r p)
    (inside : p ≤ b.length) (lines : InHeader b r p) : InHeader (b ++ x) r p := by
  have before : nameStart r p ≤ b.length := by
    unfold nameStart
    split
    · cases token : r.token with
      | none => exact inside
      | some t => exact (good t token).1.trans inside
    · exact inside
  unfold InHeader at lines ⊢
  rw [lines, List.take_append_of_le_length before]

theorem HeaderRest.append (rest : HeaderRest dataSize m) (good : TokenOk m.toScan m.pos)
    (inside : m.pos ≤ m.lastBuf.length) (x : Bytes) : HeaderReady dataSize (m.append x) := by
  have front : (m.append x).mhdr.dropLast = m.mhdr.dropLast := List.dropLast_concat
  unfold HeaderReady
  rw [front, Msg.lastBuf_append]
  cases rest with
  | header only lines space => exact .header only (inHeader_append good inside lines)
  | past past behind =>
    refine .past ⟨past.lines, past.first, past.state, past.token, ?_⟩
    change (_ ++ (m.lastBuf ++ x).take m.pos = _ ∧ _) ∨ _ <+: _ ++ (m.lastBuf ++ x).take m.pos
    rw [List.take_append_of_le_length inside]
    exact past.dollar
  | long long =>
    refine .long ?_
    rw [← List.append_assoc]
    exact long.append x
  | misnamed misnamed filled =>
    refine .misnamed ⟨misnamed.state, misnamed.name.imp_right fun broken => ?_⟩
    have before : m.token.getD m.pos ≤ m.lastBuf.length := by
      cases token : m.token with
      | none => exact inside
      | some t => exact (good t token).1.trans inside
    have longer : (m.lastBuf.drop (m.token.getD m.pos)).take m.rlen <+:
        ((m.lastBuf ++ x).drop (m.token.getD m.pos)).take m.rlen := by
      rw [List.drop_append_of_le_length before, List.take_append]
      exact List.prefix_append _ _
    exact longer.subset broken

theorem headerLines_le {state : ReqState} {n : Nat} (lines : headerLines state = some n) :
    n ≤ 2 := by
  unfold headerLines at lines
  grind

/-- The first lines were not complete when the first mbuf was full. -/
theorem LongHeader.of_full {b : Bytes} (full : b.length = dataSize) (few : b.count LF ≤ 2) :
    LongHeader dataSize b := by
  refine ⟨full.ge, ?_⟩
  rw [← full, List.take_length]
  omega

/-- The message behind a call that ran into the end of the mbuf. -/
theorem Stage.suspended
    (stage : Stage dataSize m.mhdr.dropLast m.lastBuf s m.lastBuf.length)
    (fits : m.lastBuf.length ≤ dataSize)
    (held : m.lastBuf.length = dataSize → s.token = none) :
    HeaderRest dataSize (Parser.Lawful.suspended m s) := by
  cases stage with
  | header only lines =>
    by_cases full : m.lastBuf.length = dataSize
    · have whole : nameStart s m.lastBuf.length = m.lastBuf.length := by
        simp [nameStart, held full]
      unfold InHeader at lines
      rw [whole, List.take_length] at lines
      refine .long ?_
      change LongHeader dataSize (m.mhdr.dropLast.flatten ++ m.lastBuf)
      rw [only]
      exact .of_full full (headerLines_le lines)
    · exact .header only lines (Nat.lt_of_le_of_ne fits full)
  | past past => exact .past past (Or.inl rfl)
  | long long => exact .long long
  | misnamed misnamed =>
    refine .misnamed misnamed fun token => Or.inr ?_
    rcases misnamed.name with long | broken
    · exact long
    · change s.token = none at token
      simp [token] at broken

/-- The message behind a call that cut a token. -/
theorem Stage.repaired {t : Nat} (good : TokenOk s m.lastBuf.length)
    (stage : Stage dataSize m.mhdr.dropLast m.lastBuf s m.lastBuf.length)
    (full : m.lastBuf.length = dataSize) (token : s.token = some t) :
    HeaderRest dataSize (Parser.Lawful.repaired redisReqParser m s t) := by
  obtain ⟨before, at_⟩ := good t token
  have front : (Parser.Lawful.repaired redisReqParser m s t).mhdr.dropLast =
      m.mhdr.dropLast ++ [m.lastBuf.take t] := List.dropLast_concat
  have last : (Parser.Lawful.repaired redisReqParser m s t).lastBuf = m.lastBuf.drop t := by
    simp [Msg.lastBuf, Parser.Lawful.repaired]
  have bytes : (m.mhdr.dropLast ++ [m.lastBuf.take t]).flatten ++ m.lastBuf.drop t =
      m.mhdr.dropLast.flatten ++ m.lastBuf := by
    simp
  cases stage with
  | header only lines =>
    unfold InHeader at lines
    have few := headerLines_le lines
    by_cases naming : s.state = swReqType
    · rw [nameStart, if_pos naming, token, Option.getD_some] at few
      rw [naming] at at_
      by_cases broken : LF ∈ m.lastBuf.drop t
      · refine .misnamed ⟨naming, Or.inr ?_⟩ fun _ => Or.inl ?_
        · rw [last]
          change LF ∈ ((m.lastBuf.drop t).drop 0).take s.rlen
          rwa [List.drop_zero, List.take_of_length_le]
          rw [List.length_drop]
          omega
        · rw [last, List.length_drop]
          change _ ≤ s.rlen
          omega
      · refine .long ?_
        rw [front, last, bytes, only]
        refine .of_full full ?_
        have : (m.lastBuf.take t ++ m.lastBuf.drop t).count LF ≤ 2 := by
          rw [List.count_append, List.count_eq_zero.mpr broken]
          exact few
        rwa [List.take_append_drop] at this
    · rw [nameStart_of_ne naming, List.take_length] at few
      refine .long ?_
      rw [front, last, bytes, only]
      exact .of_full full few
  | @past h past =>
    obtain ⟨after, looking⟩ := past.token t token
    have met : h ++ [byteOf '$'] <+: m.mhdr.dropLast.flatten ++ m.lastBuf := by
      rcases past.dollar with ⟨-, none_, -⟩ | met
      · exact absurd (none_.symm.trans token) (by simp)
      · rwa [List.take_length] at met
    refine .past (h := h) ?_ (Or.inr ?_)
    · rw [front, last]
      have cut : m.mhdr.dropLast.flatten ++ m.lastBuf.take t <+:
          m.mhdr.dropLast.flatten ++ m.lastBuf :=
        (List.prefix_append_right_inj _).mpr (List.take_prefix _ _)
      have size : (m.mhdr.dropLast.flatten ++ m.lastBuf.take t).length =
          m.mhdr.dropLast.flatten.length + t := by
        rw [List.length_append, List.length_take_of_le before]
      refine ⟨past.lines, ?_, past.state, by rintro t ⟨⟩, ?_⟩
      · intro f first
        cases fronts : m.mhdr.dropLast with
        | nil =>
          rw [fronts] at first met after
          obtain rfl : m.lastBuf.take t = f := by simpa using first
          refine List.prefix_take_iff.mpr ⟨(List.prefix_append _ _).trans met, ?_⟩
          simpa using after
        | cons f' front' =>
          refine past.first f ?_
          rw [fronts] at first ⊢
          exact first
      · change ((_ ++ [_]).flatten ++ (m.lastBuf.drop t).take 0 = h ∧ _) ∨
          _ <+: (_ ++ [_]).flatten ++ (m.lastBuf.drop t).take 0
        rw [List.take_zero, List.append_nil, List.flatten_concat]
        by_cases here : m.mhdr.dropLast.flatten.length + t = h.length
        · refine Or.inl ⟨?_, rfl, looking here⟩
          have inside : h <+: m.mhdr.dropLast.flatten ++ m.lastBuf :=
            (List.prefix_append _ _).trans met
          exact (List.prefix_of_prefix_length_le cut inside (by omega)).eq_of_length (by omega)
        · refine Or.inr (List.prefix_of_prefix_length_le met cut ?_)
          rw [size, List.length_append, List.length_singleton]
          omega
    · rw [front, last, bytes]
      exact met
  | long long =>
    refine .long ?_
    rw [front, last, bytes]
    exact long
  | misnamed misnamed =>
    rw [misnamed.state] at at_
    refine .misnamed ⟨misnamed.state, misnamed.name.imp_right fun broken => ?_⟩ fun _ => Or.inl ?_
    · rw [last]
      change LF ∈ ((m.lastBuf.drop t).drop 0).take s.rlen
      rwa [token, Option.getD_some] at broken
    · rw [last, List.length_drop]
      change _ ≤ s.rlen
      omega

/-- The next mbuf. -/
theorem HeaderRest.prepare (chain : m.mhdr ≠ []) (rest : HeaderRest dataSize m)
    (fits : m.lastBuf.length ≤ dataSize) (held : m.lastBuf.length = dataSize → m.token = none) :
    HeaderRest dataSize (m.prepare dataSize) := by
  by_cases full : m.lastBuf.length = dataSize
  · have prepared : m.prepare dataSize = { m with mhdr := m.mhdr ++ [[]], pos := 0 } := by
      simp [Msg.prepare, full]
    have front : m.mhdr = m.mhdr.dropLast ++ [m.lastBuf] := by
      rw [Msg.lastBuf, List.getLastD_eq_getLast?, List.getLast?_eq_some_getLast chain]
      exact (List.dropLast_append_getLast chain).symm
    have dropped : (m.mhdr ++ [[]]).dropLast = m.mhdr := List.dropLast_concat
    have last : ({ m with mhdr := m.mhdr ++ [[]], pos := 0 } : Msg ReqState).lastBuf = [] := by
      simp [Msg.lastBuf]
    have bytes : m.mhdr.flatten = m.mhdr.dropLast.flatten ++ m.lastBuf := by
      conv_lhs => rw [front]
      rw [List.flatten_concat]
    rw [prepared]
    cases rest with
    | header only lines space => exact absurd full space.ne
    | @past h past behind =>
      refine .past (h := h) ?_ (Or.inl (by rw [last]; rfl))
      rw [last]
      change PastHeader h (m.mhdr ++ [[]]).dropLast [] m.toScan 0
      rw [dropped]
      refine ⟨past.lines, ?_, past.state, by simp [held full], ?_⟩
      · intro f first
        cases fronts : m.mhdr.dropLast with
        | nil =>
          rw [front, fronts] at first
          obtain rfl : m.lastBuf = f := by simpa using first
          have only : m.mhdr.dropLast.flatten = [] := by rw [fronts]; rfl
          have inside := past.dollar
          rw [only, List.nil_append] at inside
          rcases inside with ⟨whole, -⟩ | met
          · exact whole ▸ List.take_prefix _ _
          · exact ((List.prefix_append _ _).trans met).trans (List.take_prefix _ _)
        | cons f' front' =>
          refine past.first f ?_
          rw [front, fronts] at first
          rw [fronts]
          exact first
      · rw [List.take_nil, List.append_nil, bytes]
        rcases behind with atEnd | met
        · have := past.dollar
          rwa [atEnd, List.take_length] at this
        · exact Or.inr met
    | long long =>
      refine .long ?_
      rw [last]
      change LongHeader dataSize ((m.mhdr ++ [[]]).dropLast.flatten ++ [])
      rwa [dropped, List.append_nil, bytes]
    | misnamed misnamed filled =>
      have long : dataSize ≤ m.rlen := by
        rcases filled (held full) with filled | long
        · exact full.ge.trans filled
        · exact long
      exact .misnamed ⟨misnamed.state, Or.inl long⟩ fun _ => Or.inr long
  · rwa [Msg.prepare_of_space chain (Nat.lt_of_le_of_ne fits full)]

/-- A whole call. -/
theorem HeaderReady.loops {out : Flow (Scan ReqState)} (ready : HeaderReady dataSize m)
    (parsable : (redisReqLawful dataSize).Parsable m)
    (loops : redisReqParser.Loops dataSize m out) :
    out.Ends
      (fun s q => TokenOk s q ∧ Stage dataSize m.mhdr.dropLast m.lastBuf s q)
      (HeaderAtEnd dataSize m.mhdr.dropLast m.lastBuf) :=
  (redisParseReqStep_productive dataSize _ _).ends
    (fun _ _ good inside stage => stage_step good inside parsable.fits stage)
    parsable.good ready loops

/-- The message at the end of a call that completes it. -/
theorem HeaderAtEnd.finished {q : Nat} (done : HeaderAtEnd dataSize m.mhdr.dropLast m.lastBuf s q) :
    HeaderDone dataSize (Parser.Lawful.finished redisReqParser m q s) := by
  have bytes : (Parser.Lawful.finished redisReqParser m q s).bytes =
      m.mhdr.dropLast.flatten ++ m.lastBuf.take (q + 1) := List.flatten_concat
  intro plain
  rw [bytes]
  rcases done plain with ⟨h, lines, first, met⟩ | long
  · refine Or.inl ⟨h, lines, ?_, met.trans ?_⟩
    · change h <+: (m.mhdr.dropLast ++ [m.lastBuf.take (q + 1)]).headD []
      cases fronts : m.mhdr.dropLast with
      | nil =>
        rw [fronts] at met
        have inside : h <+: m.lastBuf.take q := (List.prefix_append _ _).trans met
        exact inside.trans (List.take_prefix_take_left (Nat.le_succ q))
      | cons f front => exact first f (by rw [fronts]; rfl)
    · exact (List.prefix_append_right_inj _).mpr (List.take_prefix_take_left (Nat.le_succ q))
  · refine Or.inr (Nat.lt_of_le_of_lt ?_ long.2)
    apply List.Sublist.count_le
    have shorter : m.mhdr.dropLast.flatten ++ m.lastBuf.take (q + 1) <+:
        m.mhdr.dropLast.flatten ++ m.lastBuf :=
      (List.prefix_append_right_inj _).mpr (List.take_prefix _ _)
    obtain ⟨y, same⟩ := shorter
    rw [← same]
    generalize m.mhdr.dropLast.flatten ++ m.lastBuf.take (q + 1) = x
    rw [List.take_append]
    exact List.sublist_append_left _ _

theorem header_guards (positive : 0 < dataSize) :
    (redisReqLawful dataSize).Guards (HeaderRest dataSize) (HeaderReady dataSize)
      (HeaderDone dataSize) where
  start := by
    rw [Msg.prepare_fresh]
    exact .header rfl rfl positive
  behind _ := .header rfl rfl
  prepare waiting rest := rest.prepare waiting.chain waiting.fits waiting.full
  read waiting rest _ _ := rest.append waiting.good waiting.inside _
  next parsable ready loops held :=
    (ready.loops parsable loops).2.suspended parsable.fits held
  repair parsable ready loops full token :=
    (ready.loops parsable loops).2.repaired (ready.loops parsable loops).1 full token
  stop parsable ready loops := (ready.loops parsable loops).finished

end Driver

/-! ## Received requests -/

/-- The loop of `redis_fragment_argx` that looks for three line feeds stays in the first mbuf and
stops at a dollar sign. -/
def HeaderInside (m : Msg ReqState) : Prop :=
  3 ≤ (m.mhdr.headD []).count LF ∧ linesLength 3 (m.mhdr.headD []) ≤ (m.mhdr.headD []).length ∧
    m.bytes[linesLength 3 (m.mhdr.headD [])]? = some (byteOf '$')

instance (m : Msg ReqState) : Decidable (HeaderInside m) :=
  inferInstanceAs (Decidable (_ ∧ _ ∧ _))

theorem headD_isPrefix_bytes (m : Msg ReqState) : m.mhdr.headD [] <+: m.bytes := by
  unfold Msg.bytes
  cases m.mhdr with
  | nil => exact List.prefix_rfl
  | cons f front => exact List.prefix_append _ _

/-- For a vector command `redis_fragment_argx` finds the first key exactly if three line
feeds are among the first `dataSize` bytes of the request. -/
theorem headerInside_iff {dataSize : Nat} (large : 464 ≤ dataSize) (reads : List Bytes)
    {m : Msg ReqState}
    (received : m ∈ (({} : Receiver ReqState).receive (msgParse redisReqParser dataSize)
      redisReqParser dataSize reads).completed)
    (type : m.type = .reqRedisMget ∨ m.type = .reqRedisDel ∨ m.type = .reqRedisMset) :
    HeaderInside m ↔ 3 ≤ (m.bytes.take dataSize).count LF := by
  have positive : 0 < dataSize := by omega
  have plain : redisArgz m.type = false := by
    rcases type with type | type | type <;> rw [type] <;> rfl
  have done := ((header_guards positive).receive positive reads).1.completed m received plain
  have fits := ((redisReqLawful dataSize).fits_guards.receive positive reads).1.completed m received
  have short : (m.mhdr.headD []).length ≤ dataSize := by
    cases chain : m.mhdr with
    | nil => exact Nat.zero_le _
    | cons f front => exact fits f (by rw [chain]; exact List.mem_cons_self)
  have first := headD_isPrefix_bytes m
  constructor
  · rintro ⟨three, -, -⟩
    have inside : m.mhdr.headD [] <+: m.bytes.take dataSize :=
      List.prefix_take_iff.mpr ⟨first, short⟩
    exact three.trans (inside.sublist.count_le LF)
  · intro three
    rcases done with ⟨h, lines, inside, met⟩ | few
    · have length := linesLength_of_lines lines.count (Or.inr lines.last) inside
      refine ⟨lines.count ▸ inside.sublist.count_le LF, length ▸ inside.length_le, ?_⟩
      rw [length]
      obtain ⟨rest, same⟩ := met
      rw [← same, List.append_assoc]
      simp
    · omega

/-- A request for two keys, with zeros in front of its count. -/
def zeroPadded (zeros : Nat) : Bytes :=
  (byteOf '*' :: List.replicate zeros (byteOf '0')) ++
    "3\r\n$4\r\nmget\r\n$1\r\na\r\n$1\r\nb\r\n".toList.map byteOf

/-- What is received of it. -/
def zeroPaddedReceived (zeros : Nat) : List (Msg ReqState) :=
  (({} : Receiver ReqState).receive (msgParse redisReqParser 464) redisReqParser 464
    [zeroPadded zeros]).completed

theorem headerInside_iff_unpadded :
    ∃ m ∈ zeroPaddedReceived 0, m.type = .reqRedisMget ∧ 2 ≤ m.keys.length ∧
      (HeaderInside m ↔ 3 ≤ (m.bytes.take 464).count LF) := by
  obtain ⟨m, received, type, keys⟩ : ∃ m ∈ zeroPaddedReceived 0,
      m.type = .reqRedisMget ∧ 2 ≤ m.keys.length := by
    decide +kernel
  exact ⟨m, received, type, keys,
    headerInside_iff (Nat.le_refl _) [zeroPadded 0] received (Or.inl type)⟩

/-- With enough zeros the carriage return behind the count is the last byte of the first mbuf. -/
theorem headerInside_not_padded :
    ∃ m ∈ zeroPaddedReceived 461, m.type = .reqRedisMget ∧ m.keys.length = 2 ∧
      ¬ HeaderInside m := by
  decide +kernel

end Nutcracker
