import Nutcracker.Message.Placement
import Nutcracker.Protocol.Streams
import Nutcracker.Redis.ArrayFraming

/-!
# Replies received in mbufs

The response parser implements the reader on every chain of mbufs that the receive
driver makes.  A token that is cut may be read again: its first byte resets what the rest
of it adds up to.  The exception are the null replies, which keep their token while the
rest of the line is skipped; they only fit in front of everything else.
-/

namespace Nutcracker

open Lib RspState

namespace RspReading

/-- The reader with the tokens of the parser. -/
abbrev reader : Reader RspReading UInt8 where
  feed := feed
  held s := s.token.getD []
  rewound s := { s with token := none }

end RspReading

section Machine

variable {i : Nat} {b : Bytes} {r r' : Scan RspState} {p q : Nat}

theorem redisParseRspStep_quit :
    (redisParseRspStep i b r p = .next q r' → r'.quit = r.quit) ∧
      (redisParseRspStep i b r p = .stop q r' → r'.quit = r.quit) := by
  unfold redisParseRspStep
  cases state : r.state
  all_goals
    simp only [rspStart, rspError, rspInteger, rspSimple, rspRuntoCrlf, rspBulk,
      rspMultibulk, rspArgnLen, rspLineFeed, rspDone, rspElementLf, skipRlen, passOver]
    grind

/-- The reader as the machine of the response parser. -/
def redisRspMachine (dataSize : Nat) : redisRspParser.Machine dataSize RspReading where
  lawful := redisRspLawful dataSize
  reader := RspReading.reader
  start := {}
  Rel _ b r p s := RspFollows b r p s ∧ r.quit = false
  Fin _ r s := RspFinished r s ∧ r.quit = false
  simulates front b := by
    refine (redisParseRspStep_simulates front.length b).restrict ?_ ?_
    · exact fun _ quit _ stepEq => (redisParseRspStep_quit.1 stepEq).trans quit
    · exact fun _ quit _ stepEq => (redisParseRspStep_quit.2 stepEq).trans quit
  rel_start := ⟨⟨Nat.le_refl _, (fun t held => nomatch held), rfl⟩, rfl⟩
  rel_extend := by
    rintro front b r p s y _ ⟨⟨inside, token, reading⟩, quit⟩
    refine ⟨⟨?_, token, ?_⟩, quit⟩
    · rw [List.length_append]
      omega
    · rw [reading, RspReading.ofScan, RspReading.ofScan]
      congr 1
      cases r.token with
      | none => rfl
      | some t => simp [textAt_extend inside]
  rel_fresh := by
    rintro front b r p s _ token ⟨⟨_, _, reading⟩, quit⟩
    refine ⟨⟨Nat.le_refl _, by simp [token], ?_⟩, quit⟩
    rw [reading, RspReading.ofScan, RspReading.ofScan, token]
    rfl
  rel_cut := by
    rintro front b r t s token ⟨⟨_, _, reading⟩, quit⟩
    refine ⟨⟨Nat.zero_le _, by simp, ?_⟩, quit⟩
    rw [reading]
    rfl
  held_some := by
    rintro front b r t s token ⟨⟨_, before, reading⟩, _⟩
    refine ⟨before t token, ?_⟩
    rw [reading]
    simp [RspReading.ofScan, token, textAt]
  held_none := by
    rintro front b r s token ⟨⟨_, _, reading⟩, _⟩
    rw [reading]
    simp [RspReading.ofScan, token]
  fin_finished := by
    rintro chain r t state token ⟨⟨type, integer⟩, quit⟩
    exact ⟨⟨type, integer⟩, quit⟩

end Machine

namespace RspReading

variable {s t : RspReading} {ch : UInt8} {xs rest : Bytes}

/-- The byte that opens the token of a state. -/
def mark : RspState → UInt8
  | swError => byteOf '-'
  | swMultibulk => byteOf '*'
  | _ => byteOf '$'

/-- The states that read a token. -/
def Marked (state : RspState) : Prop :=
  state = swError ∨ state = swBulk ∨ state = swMultibulk ∨ state = swMultibulkArgnLen

/-- The states that skip the rest of the line of a null reply. -/
def Skips (state : RspState) : Prop :=
  state = swRuntoCrlf ∨ state = swAlmostDone

/-- The reading after the byte that opens its token. -/
def opened (s : RspReading) : RspReading :=
  match s.state with
  | swError => { s with token := some [byteOf '-'] }
  | swMultibulk => { s with token := some [byteOf '*'], rnarg := 0 }
  | _ => { s with token := some [byteOf '$'], rlen := 0 }

theorem opened_state (s : RspReading) : s.opened.state = s.state := by
  unfold opened
  split <;> rfl

theorem token_opened (s : RspReading) : s.opened.token = some [mark s.state] := by
  cases state : s.state <;> simp [opened, mark, state]

theorem opened_again (s : RspReading) :
    opened { s.opened with token := none } = s.opened := by
  cases state : s.state <;> simp [opened, state]

theorem feed_mark (marked : Marked s.state) (token : s.token = none) :
    s.feed (mark s.state) = .more s.opened := by
  rcases marked with state | state | state | state <;>
    simp +decide [feed, handOn, feedIn, mark, opened, state, token]

theorem token_handOn (s : RspReading) (ch : UInt8) : (s.handOn ch).token = s.token := by
  unfold handOn
  grind

/-- A byte read while no token is under way. -/
theorem feedIn_of_none (token : s.token = none) (fed : s.feedIn ch = .more t) :
    t.token = none ∨ Marked s.state ∧ ch = mark s.state ∧ t = s.opened := by
  cases state : s.state
  case swError | swBulk | swMultibulk | swMultibulkArgnLen =>
    simp only [feedIn, state, token] at fed
    grind [opened, mark, Marked]
  all_goals
    left
    simp only [feedIn, RspReading.lineFeed, RspReading.pass, grow, state, token, Option.map_none]
      at fed
    grind

theorem feed_of_none (token : s.token = none) (fed : s.feed ch = .more t) :
    t.token = none ∨ Marked t.state ∧ t.token = some [mark t.state] ∧ ch = mark t.state ∧
        ({ t with token := none } : RspReading).feed ch = .more t := by
  have inner : (s.handOn ch).feedIn ch = .more t := fed
  have token' := (s.token_handOn ch).trans token
  generalize s.handOn ch = s' at inner token'
  rcases feedIn_of_none token' inner with none_ | ⟨marked, rfl, rfl⟩
  · exact .inl none_
  · refine .inr ⟨by rwa [opened_state], by rw [token_opened, opened_state], by rw [opened_state],
      ?_⟩
    have again := feed_mark (s := { s'.opened with token := none }) (by rwa [opened_state]) rfl
    rw [opened_again] at again
    simpa only [opened_state] using again

/-- A byte read while a token is under way. -/
theorem feed_of_some {text : Bytes} (token : s.token = some text) (fed : s.feed ch = .more t)
    (known : Marked s.state ∨ Skips s.state) :
    t.token = none ∨ t.token = some (text ++ [ch]) ∧
      (Skips t.state ∨ Marked s.state ∧ t.state = s.state ∧
        opened { t with token := none } = opened { s with token := none }) := by
  unfold feed at fed
  unfold Marked Skips at known
  rcases known with (state | state | state | state) | (state | state)
  all_goals
    simp only [handOn, feedIn, grow, state, token] at fed
    grind [opened, Marked, Skips, RspReading.lineFeed]

theorem token_feed (fed : s.feed ch = .more t) :
    t.token = none ∨ t.token = some (s.token.getD [] ++ [ch]) := by
  cases token : s.token with
  | none =>
    rcases feed_of_none token fed with none_ | ⟨_, opens, same, _⟩
    · exact .inl none_
    · exact .inr (by rw [opens, same]; rfl)
  | some text =>
    unfold feed at fed
    cases state : s.state
    all_goals
      simp only [handOn, feedIn, grow, RspReading.lineFeed, RspReading.pass, state, token] at fed
      grind

theorem reader_grows (start : RspReading) : reader.Grows start := by
  intro xs s ch s' _ fed
  rcases token_feed fed with none_ | grown
  · exact .inl (by simp [none_])
  · exact .inr (by simp [grown])

/-! ## Reading a token again -/

/-- The token under way may be read again, unless the rest of its line is skipped. -/
def Replays (s : RspReading) : Prop :=
  ∀ text, s.token = some text → Skips s.state ∨ Marked s.state ∧
    ∃ tail, text = mark s.state :: tail ∧
      run feed (opened { s with token := none }) tail = .pending s

theorem Replays.feed (replays : s.Replays) (fed : s.feed ch = .more t) : t.Replays := by
  intro text held
  cases token : s.token with
  | none =>
    rcases feed_of_none token fed with none_ | ⟨marked, opens, rfl, again⟩
    · rw [none_] at held
      cases held
    · rw [opens] at held
      cases held
      have same := (feed_mark (s := { t with token := none }) marked rfl).symm.trans again
      exact .inr ⟨marked, [], rfl, by rw [Verdict.more.inj same, run_nil]⟩
  | some before =>
    have known := replays before token
    rcases feed_of_some token fed (known.symm.imp And.left id) with none_ | ⟨grown, rest⟩
    · rw [none_] at held
      cases held
    · rw [grown] at held
      cases held
      rcases rest with skips | ⟨marked, state, same⟩
      · exact .inl skips
      · refine .inr ⟨by rwa [state], ?_⟩
        rcases known with skips | ⟨_, tail, rfl, back⟩
        · exact absurd skips (by rcases marked with h | h | h | h <;> simp [Skips, h])
        · refine ⟨tail ++ [ch], by rw [state]; rfl, ?_⟩
          rw [same, run_append_of_pending back, run_cons_more fed, run_nil]

/-- A reply that ends without a token has no null line. -/
theorem token_of_skips {text : Bytes} (token : s.token = some text) (skips : Skips s.state)
    (done : run feed s xs = .done t rest) : t.token ≠ none := by
  induction done using run_done_induction generalizing text with
  | last fed =>
    rcases skips with state | state
    · simp only [feed, handOn, feedIn, state] at fed
      grind
    · simp only [feed, handOn, feedIn, RspReading.lineFeed, state] at fed
      grind [grow]
  | more fed _ ih =>
    rcases skips with state | state
    · simp only [feed, handOn, feedIn, state, Skips] at fed ih
      grind [grow]
    · simp only [feed, handOn, feedIn, RspReading.lineFeed, state] at fed
      grind

/-- A token that is cut is harmless. -/
theorem harmless {size : Nat} {pre post : Bytes} (plain : run feed {} pre = .pending s)
    (done : run feed {} (pre ++ post) = .done t []) (clear : t.token = none)
    (short : (s.token.getD []).length < size) (held : s.token.getD [] ≠ []) :
    reader.Harmless size s := by
  refine ⟨short, ?_⟩
  have start : Replays {} := fun text token => nomatch token
  have replays := run_pending_inv Replays.feed start plain
  cases token : s.token with
  | none => simp [token] at held
  | some text =>
    rw [run_append_of_pending plain] at done
    rcases replays text token with skips | ⟨marked, tail, rfl, back⟩
    · exact absurd clear (token_of_skips token skips done)
    · change Lib.run feed { s with token := none } (s.token.getD []) = _
      have opens := feed_mark (s := { s with token := none }) marked rfl
      rw [token, Option.getD_some, run_cons_more opens, back]

/-! ## Short tokens -/

/-- In all states on the way the token under way has less than `n` bytes. -/
def Within (n : Nat) (s : RspReading) (xs : Bytes) : Prop :=
  ∀ pre post u, xs = pre ++ post → run feed s pre = .pending u → (u.token.getD []).length < n

section Within

variable {n : Nat} {ys : Bytes}

theorem Within.append (first : Within n s xs) (reached : run feed s xs = .pending t)
    (second : Within n t ys) : Within n s (xs ++ ys) := by
  intro pre post u split pending
  rcases List.append_eq_append_iff.mp split with ⟨pre', rfl, rfl⟩ | ⟨post', rfl, rfl⟩
  · rw [run_append_of_pending reached] at pending
    exact second pre' post u rfl pending
  · exact first pre post' u rfl pending

theorem length_token_run (pending : run feed s xs = .pending t) :
    (t.token.getD []).length ≤ (s.token.getD []).length + xs.length := by
  induction xs using List.reverseRecOn generalizing t with
  | nil =>
    cases pending
    exact Nat.le_add_right _ _
  | append_singleton xs ch ih =>
    obtain ⟨u, before, fed⟩ := run_concat_pending pending
    have shorter := ih before
    rcases token_feed fed with none_ | grown
    · simp [none_]
    · rw [grown]
      simp only [Option.getD_some, List.length_append, List.length_singleton]
      omega

/-- A stretch of less than `n` bytes that starts without a token. -/
theorem within_of_length (token : s.token = none) (short : xs.length < n) : Within n s xs := by
  rintro pre post u rfl pending
  have bound := length_token_run pending
  rw [token, Option.getD_none, List.length_nil, Nat.zero_add] at bound
  rw [List.length_append] at short
  omega

theorem Within.cons (short : (s.token.getD []).length < n) (fed : s.feed ch = .more t)
    (rest : Within n t xs) : Within n s (ch :: xs) := by
  intro pre post u split pending
  cases pre with
  | nil =>
    cases pending
    exact short
  | cons c pre =>
    obtain ⟨rfl, tail⟩ := List.cons.inj split
    rw [run_cons_more fed] at pending
    exact rest pre post u tail pending

/-- A stretch of bytes during which nothing is kept as a token. -/
theorem within_collect (positive : 0 < n) (g : Bytes → RspReading)
    (reads : ∀ l x r, xs = l ++ x :: r → (g l).feed x = .more (g (l ++ [x])))
    (free : ∀ l, (g l).token = none) : Within n (g []) xs := by
  rintro pre post u rfl pending
  have collected := run_collect feed g pre [] (by
    rintro l x r rfl
    exact reads l x (r ++ post) (by simp))
  rw [List.append_nil, pending, run_nil] at collected
  obtain rfl := Outcome.pending.inj collected
  rwa [free, Option.getD_none, List.length_nil]

end Within

end RspReading

/-! ## Values -/

/-- The length line of a bulk or null bulk, without its line feed. -/
def Scalar.lengthLine : Scalar → Option Bytes
  | bulk data => some (byteOf '$' :: decimal data.length ++ [CR])
  | nullBulk => some [byteOf '$', byteOf '-', byteOf '1', CR]
  | _ => none

namespace Resp

mutual

/-- Values that may stand in an array: no null array, no array but as the last element, no
error of a single word, lengths below `2 ^ 31`. -/
def Nested : Resp → Prop
  | scalar v => v.Regular ∧ v.Short
  | nullArray => False
  | array elements => elements.length < 2 ^ 31 ∧ NestedAll elements

def NestedAll : List Resp → Prop
  | [] => True
  | v :: elements => v.Nested ∧ (v.isArray → elements = []) ∧ NestedAll elements

end

/-- The message type of a reply. -/
def type : Resp → MsgType
  | scalar v => v.type
  | nullArray | array _ => .rspRedisMultibulk

mutual

/-- The length lines of the elements, each with what comes before it. -/
def lengthLines : Resp → List (Bytes × Bytes)
  | scalar _ | nullArray => []
  | array elements =>
      (lengthLinesAll elements).map fun line => (header elements.length ++ line.1, line.2)

def lengthLinesAll : List Resp → List (Bytes × Bytes)
  | [] => []
  | v :: elements =>
      v.ownLengthLine ++ v.lengthLines ++
        (lengthLinesAll elements).map fun line => (v.encode ++ line.1, line.2)

/-- The length line with which an element starts. -/
def ownLengthLine : Resp → List (Bytes × Bytes)
  | scalar v => v.lengthLine.toList.map fun line => ([], line)
  | nullArray | array _ => []

end

end Resp

open RspReading Resp

section Elements

variable {n : Nat} {s t : RspReading} {xs ys : Bytes} {lines lines' : List (Bytes × Bytes)}

/-- The reader is at the start of an element where the length lines start. -/
def LinesAt (s : RspReading) (xs : Bytes) (lines : List (Bytes × Bytes)) : Prop :=
  ∀ line ∈ lines, ∃ (v : Scalar) (u : RspReading) (post : Bytes), v.lengthLine = some line.2 ∧
    xs = line.1 ++ line.2 ++ post ∧ run feed s line.1 = .pending u ∧ AtElement u

theorem LinesAt.append (first : LinesAt s xs lines) (reached : run feed s xs = .pending t)
    (second : LinesAt t ys lines') :
    LinesAt s (xs ++ ys) (lines ++ lines'.map fun line => (xs ++ line.1, line.2)) := by
  intro line member
  rcases List.mem_append.mp member with early | late
  · obtain ⟨v, u, post, shape, rfl, before, ready⟩ := first line early
    exact ⟨v, u, post ++ ys, shape, by simp, before, ready⟩
  · obtain ⟨line', inside, rfl⟩ := List.mem_map.mp late
    obtain ⟨v, u, post, shape, rfl, before, ready⟩ := second line' inside
    exact ⟨v, u, post, shape, by simp, by rw [run_append_of_pending reached, before], ready⟩

theorem linesAt_nil : LinesAt s xs [] := by
  intro line member
  cases member

/-- The header line of a number below `2 ^ 31`. -/
theorem length_header_lt {k : Nat} (large : 464 ≤ n) (bound : k < 2 ^ 31) (mark : UInt8) :
    (mark :: decimal k ++ CRLF).length < n := by
  have digits := length_decimal_le (n := k) (k := 10) (by decide)
    (Nat.lt_trans bound (by decide))
  simp only [List.length_append, List.length_cons, List.length_nil]
  omega

theorem within_lineElement (large : 464 ≤ n) {mark : UInt8} {text : Bytes} (ready : AtElement s)
    (noCR : CR ∉ text) (line : mark = byteOf ':' ∨ mark = byteOf '+' ∨ mark = byteOf '-') :
    Within n s (mark :: text ++ [CR]) := by
  have star : mark ≠ byteOf '*' := by
    rcases line with rfl | rfl | rfl <;> decide
  let simple : RspReading := { s with state := swSimple }
  have opens : run feed s [mark] = .pending simple := by
    simp [run, feed, handOn, feedIn, ready.state, ready.token, star, line, simple]
  have reads : ∀ l x r, text = l ++ x :: r → simple.feed x = .more simple := by
    rintro l x r rfl
    have other : x ≠ CR := by
      rintro rfl
      exact noCR (by simp)
    simp [simple, feed, handOn, feedIn, grow, ready.token, other]
  have passed : run feed simple text = .pending simple := by
    have collected := run_collect feed (fun _ => simple) text [] reads
    rwa [List.append_nil, run_nil] at collected
  have first : Within n s [mark] := within_of_length ready.token (by simp; omega)
  refine first.append opens ?_
  refine (within_collect (by omega) (fun _ => simple) reads fun _ => ready.token).append passed ?_
  exact within_of_length ready.token (by simp; omega)

theorem within_bulkBytes (large : 464 ≤ n) {after : RspState} (data : Bytes)
    (reads : ∀ (t : RspReading) ch, t.state = s.state → t.feed ch = t.pass after ch)
    (token : s.token = none) (length : s.rlen = data.length) : Within n s (data ++ [CR]) := by
  have collects : ∀ l x r, data = l ++ x :: r →
      ({ s with rlen := s.rlen - l.length } : RspReading).feed x =
        .more { s with rlen := s.rlen - (l ++ [x]).length } := by
    rintro l x r rfl
    have positive : s.rlen - l.length ≠ 0 := by
      rw [length]
      simp
    refine (reads _ _ (by rfl)).trans ?_
    simp [RspReading.pass, grow, token, positive, Nat.sub_sub]
  have passed := run_pass reads data [] length.ge
  rw [List.append_nil, run_nil, token] at passed
  have within := within_collect (n := n) (by omega) (fun l => { s with rlen := s.rlen - l.length })
    collects fun _ => token
  exact within.append passed (within_of_length rfl (by simp; omega))

/-- An element that is not an array keeps short tokens only. -/
theorem Scalar.Short.within_element (large : 464 ≤ n) {v : Scalar} (short : v.Short)
    (ready : AtElement s) : Within n s v.body := by
  cases v with
  | status line => exact within_lineElement large ready line.noCR (.inr (.inl rfl))
  | error line => exact within_lineElement large ready line.noCR (.inr (.inr rfl))
  | integer value =>
    exact within_lineElement large ready (CR_not_mem_numeral value) (.inl rfl)
  | bulk data =>
    have bound : data.length < word32 := Nat.lt_trans short (by decide)
    have value := wordVal_decimal bound
    have header := run_elementHeader (digits_decimal data.length) (decimal_ne_nil _)
      ready.state ready.token ready.some_ (by
        rintro ⟨one, two⟩
        rw [value] at one
        rw [one] at two
        exact absurd two (by decide))
    rw [value] at header
    rw [Scalar.body, List.append_assoc]
    refine (within_of_length ready.token (length_header_lt large short _)).append header ?_
    exact within_bulkBytes large data (fun t ch same => feed_multibulkArgn same ch) ready.token rfl
  | nullBulk => exact within_of_length ready.token (by simp [Scalar.body]; omega)

theorem linesAt_scalar {v : Scalar} (ready : AtElement s) :
    LinesAt s v.body (Resp.scalar v).ownLengthLine := by
  intro line member
  simp only [Resp.ownLengthLine, List.mem_map, Option.mem_toList] at member
  obtain ⟨line, own, rfl⟩ := member
  refine ⟨v, s, ?_⟩
  cases v with
  | bulk data =>
    cases own
    exact ⟨LF :: data ++ [CR], rfl, by simp [Scalar.body], run_nil, ready⟩
  | nullBulk =>
    cases own
    exact ⟨[], rfl, rfl, run_nil, ready⟩
  | status | error | integer => cases own

/-- A value that is read to its end with short tokens, its length lines at the starts of
elements. -/
structure Tame (n : Nat) (s : RspReading) (xs : Bytes) (lines : List (Bytes × Bytes)) : Prop where
  done : ∃ t, run feed s xs = .done t [] ∧ t.type = s.type ∧ t.token = none
  within : Within n s xs
  lines : LinesAt s xs lines

theorem Tame.after (within : Within n s xs) (linesAt : LinesAt s xs lines)
    (reached : run feed s xs = .pending t) (type : t.type = s.type) (tame : Tame n t ys lines') :
    Tame n s (xs ++ ys) (lines ++ lines'.map fun line => (xs ++ line.1, line.2)) := by
  obtain ⟨u, done, sameType, token⟩ := tame.done
  exact ⟨⟨u, by rw [run_append_of_pending reached, done], sameType.trans type, token⟩,
    within.append reached tame.within, linesAt.append reached tame.lines⟩

theorem tame_lineFeed (large : 464 ≤ n)
    (state : s.state = swMultibulkArgnLf ∨ s.state = swMultibulkNargLf) (token : s.token = none)
    (last : s.rnarg = 0) : Tame n s [LF] [] := by
  have fed := feed_elementLf state token
  rw [if_pos last] at fed
  exact ⟨⟨s, run_cons_done fed, rfl, token⟩, within_of_length token (by simp; omega), linesAt_nil⟩

theorem run_elementLf
    (state : s.state = swMultibulkArgnLf ∨ s.state = swMultibulkNargLf) (token : s.token = none)
    (some_ : s.rnarg ≠ 0) :
    run feed s [LF] = .pending { s with state := swMultibulkArgnLen } := by
  have fed := feed_elementLf state token
  rw [if_neg some_] at fed
  rw [run_cons_more fed, run_nil]

/-- States that make the same of the first byte. -/
theorem RspReading.Within.congr {s' : RspReading} {c : UInt8} (same : s'.feed c = s.feed c)
    (token : s.token = none) (positive : 0 < n) (within : Within n s' (c :: xs)) :
    Within n s (c :: xs) := by
  intro pre post u split pending
  cases pre with
  | nil =>
    cases pending
    rwa [token, Option.getD_none, List.length_nil]
  | cons d pre =>
    obtain ⟨rfl, _⟩ := List.cons.inj split
    rw [← run_cons_congr same] at pending
    exact within (c :: pre) post u split pending

theorem LinesAt.congr {s' : RspReading} {c : UInt8} (same : s'.feed c = s.feed c)
    (other : s'.state ≠ swMultibulkArgnLen) (linesAt : LinesAt s' (c :: xs) lines) :
    LinesAt s (c :: xs) lines := by
  intro line member
  obtain ⟨v, u, post, shape, split, before, ready⟩ := linesAt line member
  refine ⟨v, u, post, shape, split, ?_, ready⟩
  cases start : line.1 with
  | nil =>
    rw [start, run_nil] at before
    cases before
    exact absurd ready.state other
  | cons d pre =>
    rw [start] at split before
    obtain ⟨rfl, _⟩ := List.cons.inj split
    rw [← run_cons_congr same, before]

/-- A nested array is read like an outer one. -/
theorem Tame.nested (large : 464 ≤ n) (ready : AtElement s)
    (tame : Tame n { s with state := swMultibulk } (byteOf '*' :: xs) lines) :
    Tame n s (byteOf '*' :: xs) lines := by
  have restarts : s.handOn (byteOf '*') = { s with state := swMultibulk } := by
    simp [handOn, ready.state, ready.token]
  have same : ({ s with state := swMultibulk } : RspReading).feed (byteOf '*') =
      s.feed (byteOf '*') := by
    rw [← restarts, feed_handOn]
  refine ⟨?_, tame.within.congr same ready.token (by omega), tame.lines.congr same (by simp)⟩
  rw [← run_cons_congr same]
  exact tame.done

mutual

theorem array_tame (large : 464 ≤ n) : ∀ {v : Resp} {s : RspReading}, v.isArray = true →
    v.Nested → s.state = swMultibulk → s.token = none → Tame n s v.encode v.lengthLines
  | .scalar _, _, isArray, _, _, _ => nomatch isArray
  | .nullArray, _, _, nested, _, _ => nested.elim
  | .array elements, s, _, nested, state, token => by
    have value := wordVal_decimal (Nat.lt_trans nested.1 (by decide : 2 ^ 31 < word32))
    have counted := run_countHeader (digits_decimal elements.length) (decimal_ne_nil _)
      state token
    rw [value] at counted
    have within : Within n s (header elements.length) :=
      within_of_length token (length_header_lt large nested.1 _)
    cases elements with
    | nil =>
      have first : Within n s (byteOf '*' :: decimal 0 ++ [CR]) :=
        within_of_length token (by simp [decimal]; omega)
      exact Tame.after first linesAt_nil counted rfl
        (tame_lineFeed large (.inr rfl) token rfl)
    | cons v elements =>
      have headed : header (v :: elements).length =
          (byteOf '*' :: decimal (v :: elements).length ++ [CR]) ++ [LF] := by
        simp [header]
      have opened : run feed s (header (v :: elements).length) =
          .pending { s with state := swMultibulkArgnLen, rnarg := (v :: elements).length } := by
        rw [headed, run_append_of_pending counted]
        exact run_elementLf (.inr rfl) token (by simp)
      have inner := elements_tame large (s := { s with
        state := swMultibulkArgnLen, rnarg := (v :: elements).length }) (by simp) nested.2
        ⟨rfl, token, by simp, Nat.lt_trans nested.1 (by decide)⟩ rfl
      exact Tame.after within linesAt_nil opened rfl inner

theorem elements_tame (large : 464 ≤ n) : ∀ {elements : List Resp} {s : RspReading},
    elements ≠ [] → NestedAll elements → AtElement s → s.rnarg = elements.length →
    Tame n s (encodeAll elements) (lengthLinesAll elements)
  | [], _, nonempty, _, _, _ => absurd rfl nonempty
  | .nullArray :: _, _, _, nested, _, _ => nested.1.elim
  | .array inner :: elements, s, _, nested, ready, _ => by
    obtain rfl := nested.2.1 rfl
    have tame := array_tame large (v := .array inner) (s := { s with state := swMultibulk }) rfl
      nested.1 rfl ready.token
    have whole : encodeAll [.array inner] = (Resp.array inner).encode := by
      simp [encodeAll]
    have lines : lengthLinesAll [.array inner] = (Resp.array inner).lengthLines := by
      simp [lengthLinesAll, ownLengthLine]
    rw [whole, lines]
    exact tame.nested large ready
  | .scalar w :: elements, s, _, nested, ready, length => by
    obtain ⟨t, read, after⟩ := nested.1.2.run_element ready
    have within := nested.1.2.within_element large ready
    have left : t.rnarg = elements.length := by
      rw [after.rnarg, length, List.length_cons, Nat.add_sub_cancel]
    cases elements with
    | nil =>
      have tame := Tame.after within (linesAt_scalar ready) read after.type
        (tame_lineFeed large (.inl after.state) after.token left)
      simpa [encodeAll, Resp.encode, Scalar.encode, lengthLinesAll, Resp.lengthLines] using tame
    | cons u elements =>
      have some_ : t.rnarg ≠ 0 := by simp [left]
      have passed := run_elementLf (.inl after.state) after.token some_
      have fed : run feed s w.encode = .pending { t with state := swMultibulkArgnLen } := by
        rw [Scalar.encode, run_append_of_pending read, passed]
      have bound := ready.bound
      rw [length, List.length_cons] at bound
      have inner := elements_tame large (s := { t with state := swMultibulkArgnLen })
        (by simp) nested.2.2 ⟨rfl, after.token, some_, by simp only [left]; omega⟩ left
      have lineFeed : Within n t [LF] := within_of_length after.token (by simp; omega)
      have tame := Tame.after (within.append read lineFeed)
        ((linesAt_scalar ready).append read linesAt_nil) fed after.type inner
      simpa [encodeAll, Resp.encode, Scalar.encode, lengthLinesAll, Resp.lengthLines] using tame

end

end Elements

/-! ## Replies that are not arrays -/

namespace RspReading

variable {n : Nat} {s t : RspReading} {ch : UInt8} {xs : Bytes}

/-- The states that keep nothing as a token until the reply ends. -/
def Quiet (state : RspState) : Prop :=
  state = swStatus ∨ state = swInteger ∨ state = swIntegerStart ∨ state = swRuntoCrlf ∨
    state = swAlmostDone ∨ state = swBulkLf ∨ state = swBulkArg ∨ state = swBulkArgLf

theorem quiet_feed (quiet : Quiet s.state ∧ s.token = none) (fed : s.feed ch = .more t) :
    Quiet t.state ∧ t.token = none := by
  obtain ⟨quiet, token⟩ := quiet
  unfold Quiet at *
  unfold feed at fed
  rcases quiet with state | state | state | state | state | state | state | state
  all_goals
    simp only [handOn, feedIn, RspReading.lineFeed, RspReading.pass, grow, state, token,
      Option.map_none] at fed
    grind

theorem within_quiet (positive : 0 < n) (quiet : Quiet s.state) (token : s.token = none) :
    Within n s xs := by
  rintro pre post u rfl pending
  have kept := run_pending_inv quiet_feed ⟨quiet, token⟩ pending
  rwa [kept.2, Option.getD_none, List.length_nil]

end RspReading

/-- The first word of an error, with its dash, is shorter than `n` bytes. -/
def Resp.ShortWord (n : Nat) : Resp → Prop
  | .scalar (.error line) => (Scalar.firstWord line.text).length + 1 < n
  | _ => True

/-- A reply that is not an array keeps short tokens only. -/
theorem Scalar.within {n : Nat} (large : 464 ≤ n) {v : Scalar} (regular : v.Regular)
    (short : v.Short) (word : (Resp.scalar v).ShortWord n) : Within n {} v.encode := by
  have positive : 0 < n := by omega
  cases v with
  | status line =>
    have opens : run feed {} [byteOf '+'] =
        .pending { state := swRuntoCrlf, type := .rspRedisStatus } := by rfl
    have first : Within n {} [byteOf '+'] := within_of_length rfl (by simp; omega)
    exact first.append opens (within_quiet positive (by simp [Quiet]) rfl)
  | error line =>
    obtain ⟨more, split⟩ := firstWord_append line.text regular
    have noCR := line.noCR
    rw [split, List.mem_append, not_or] at noCR
    let kept : RspReading :=
      { state := swError, token := some (byteOf '-' :: firstWord line.text),
        type := .rspRedisError }
    have opens : run feed {} (byteOf '-' :: firstWord line.text) = .pending kept := by
      rw [run_cons_more feed_errorMark]
      exact run_word
        (s := { state := swError, token := some [byteOf '-'], type := .rspRedisError })
        noCR.1 (blank_not_mem_firstWord line.text) rfl rfl
    have whole : (Scalar.error line).encode =
        (byteOf '-' :: firstWord line.text) ++ byteOf ' ' :: (more ++ CRLF) := by
      simp only [Scalar.encode, Scalar.body]
      nth_rewrite 1 [split]
      simp
    have first : Within n {} (byteOf '-' :: firstWord line.text) := within_of_length rfl word
    rw [whole]
    refine first.append opens (Within.cons word (by rfl) ?_)
    exact within_quiet positive (by simp [Quiet]) rfl
  | integer value =>
    have opens : run feed {} [byteOf ':'] =
        .pending { state := swIntegerStart, type := .rspRedisInteger } := by rfl
    have first : Within n {} [byteOf ':'] := within_of_length rfl (by simp; omega)
    exact first.append opens (within_quiet positive (by simp [Quiet]) rfl)
  | bulk data =>
    have header := run_bulkHeader (s := { state := swBulk, type := .rspRedisBulk })
      (digits_decimal data.length) (decimal_ne_nil _) rfl rfl
    have opens : run feed {} (byteOf '$' :: decimal data.length ++ CRLF) =
        .pending
          { state := swBulkArg, type := .rspRedisBulk, rlen := wordVal (decimal data.length) } := by
      rw [← header]
      exact run_cons_congr (by rfl)
    have whole : (Scalar.bulk data).encode =
        (byteOf '$' :: decimal data.length ++ CRLF) ++ (data ++ CRLF) := by
      simp [Scalar.encode, Scalar.body]
    have first : Within n {} (byteOf '$' :: decimal data.length ++ CRLF) :=
      within_of_length rfl (length_header_lt large short _)
    rw [whole]
    exact first.append opens (within_quiet positive (by simp [Quiet]) rfl)
  | nullBulk => exact within_of_length rfl (by simp [Scalar.encode, Scalar.body]; omega)

/-! ## Whole replies -/

/-- Replies whose end is found: arrays are last elements only, a null array stands alone. -/
def Resp.Plain (v : Resp) : Prop :=
  v = .nullArray ∨ v.Nested

section Whole

variable {n : Nat} {v : Resp}

/-- The reader reads a reply to its end, with short tokens, and has its type.  Only a null
reply ends with a token. -/
theorem Resp.Plain.tame (large : 464 ≤ n) (plain : v.Plain) (word : v.ShortWord n) :
    (∃ t, run feed {} v.encode = .done t [] ∧ t.type = v.type ∧
      (t.token = none ∨ v.encode.length < n)) ∧
      Within n {} v.encode ∧ LinesAt {} v.encode v.lengthLines := by
  cases v with
  | scalar v =>
    obtain ⟨regular, short⟩ := plain.resolve_left (by simp)
    obtain ⟨t, done, type, token⟩ := regular.accepts
    refine ⟨⟨t, done, type, ?_⟩, Scalar.within large regular short word, linesAt_nil⟩
    by_cases null : v = .nullBulk
    · subst null
      exact .inr (by simp [Resp.encode, Scalar.encode, Scalar.body]; omega)
    · exact .inl (token null)
  | nullArray =>
    have short : Resp.nullArray.encode.length < n := by
      simp [Resp.encode]
      omega
    exact ⟨⟨_, by rfl, rfl, .inr short⟩, within_of_length rfl short, linesAt_nil⟩
  | array elements =>
    have tame := array_tame large (s := { state := swMultibulk, type := .rspRedisMultibulk })
      rfl (plain.resolve_left (by simp)) rfl rfl
    have same : ({ state := swMultibulk, type := .rspRedisMultibulk } : RspReading).feed
        (byteOf '*') = RspReading.feed {} (byteOf '*') := by rfl
    obtain ⟨t, done, type, token⟩ := tame.done
    refine ⟨⟨t, ?_, type, .inl token⟩, tame.within.congr same rfl (by omega),
      tame.lines.congr same (by simp)⟩
    rw [← done]
    exact (run_cons_congr same).symm

/-- Received in pages, a reply is read as in one piece, and the pages start where no token
is under way. -/
theorem Resp.Plain.run_place (large : 464 ≤ n) (plain : v.Plain)
    (word : v.ShortWord n) :
    ∃ t u, run (reader.place n) ⟨{}, [], 0⟩ v.encode = .done ⟨t, [], u⟩ [] ∧ t.type = v.type ∧
      ∀ x y post d, v.encode = x ++ y ++ post →
        run (reader.place n) ⟨{}, [], 0⟩ (x ++ y) = .pending d → y.length = d.used →
        reader.Free {} x := by
  obtain ⟨⟨t, done, type, clear⟩, within, _⟩ := plain.tame large word
  have cuts : ∀ pre post s, v.encode = pre ++ post → run feed {} pre = .pending s →
      n ≤ pre.length → reader.held s ≠ [] → reader.Harmless n s := by
    intro pre post s split pending full held
    have short := within pre post s split pending
    rcases clear with token | small
    · rw [split] at done
      exact harmless pending done token short held
    · rw [split, List.length_append] at small
      omega
  obtain ⟨⟨u, placed⟩, free⟩ := Reader.run_place_of_done (reader_grows _) rfl (by omega) done cuts
  exact ⟨t, u, placed, type, free⟩

theorem run_lengthText {s : RspReading} {token text : Bytes} (state : s.state = swMultibulkArgnLen)
    (held : s.token = some token) (plain : ∀ c ∈ text, isdigit c = true ∨ c = byteOf '-') :
    ∃ u, run feed s text = .pending u ∧ u.token = some (token ++ text) := by
  induction text generalizing s token with
  | nil => exact ⟨s, run_nil, by rw [held, List.append_nil]⟩
  | cons c text ih =>
    rw [List.forall_mem_cons] at plain
    have fed : ∃ next, s.feed c = .more next ∧ next.state = swMultibulkArgnLen ∧
        next.token = some (token ++ [c]) := by
      rcases plain.1 with digit | rfl
      · exact ⟨{ s.grow c with rlen := accum s.rlen c },
          by simp [feed, handOn, feedIn, state, held, digit], state, by simp [grow, held]⟩
      · exact ⟨s.grow (byteOf '-'),
          by simp +decide [feed, handOn, feedIn, state, held], state, by simp [grow, held]⟩
    obtain ⟨next, more, state', held'⟩ := fed
    obtain ⟨u, pending, token'⟩ := ih state' held' plain.2
    exact ⟨u, by rw [run_cons_more more, pending], by rw [token', List.append_assoc]; rfl⟩

/-- Inside a length line a token is under way. -/
theorem Scalar.held_lengthLine {w : Scalar} {line l r : Bytes} {s : RspReading}
    (shape : w.lengthLine = some line) (split : line = l ++ r) (left : l ≠ []) (right : r ≠ [])
    (ready : AtElement s) :
    ∃ u, run feed s l = .pending u ∧ u.token = some l := by
  -- both kinds of line are a dollar sign, digits or signs, and the carriage return
  obtain ⟨text, plain, rfl⟩ : ∃ text : Bytes,
      (∀ c ∈ text, isdigit c = true ∨ c = byteOf '-') ∧ line = byteOf '$' :: text ++ [CR] := by
    cases w with
    | bulk data =>
      cases shape
      exact ⟨_, fun c member => .inl (digits_decimal _ c member), rfl⟩
    | nullBulk =>
      cases shape
      exact ⟨[byteOf '-', byteOf '1'], by decide, rfl⟩
    | status | error | integer => cases shape
  cases l with
  | nil => exact absurd rfl left
  | cons c l =>
    obtain ⟨r', d, rfl⟩ := List.eq_nil_or_concat r |>.resolve_left right
    rw [List.cons_append, List.cons_append, List.concat_eq_append, ← List.append_assoc,
      List.cons.injEq] at split
    obtain ⟨rfl, rfl⟩ := And.intro split.1 (List.append_inj_left' split.2 rfl)
    have opens : s.feed (byteOf '$') =
        .more { s with token := some [byteOf '$'], rlen := 0 } := by
      simp +decide [feed, handOn, feedIn, ready.state, ready.token]
    obtain ⟨u, pending, token⟩ := run_lengthText
      (s := { s with token := some [byteOf '$'], rlen := 0 }) ready.state rfl
      fun c member => plain c (List.mem_append_left _ member)
    exact ⟨u, by rw [run_cons_more opens, pending], token⟩

/-- The length lines of the elements lie in one mbuf each. -/
theorem Resp.Plain.lengthLines_in_one (large : 464 ≤ n) (plain : v.Plain) (word : v.ShortWord n)
    {chain : List Bytes} (bytes : chain.flatten = v.encode)
    (free : ∀ front, front <+: chain.dropLast → reader.Free {} front.flatten) :
    ∀ line ∈ v.lengthLines, ∃ front x y back,
      chain = front ++ (x ++ line.2 ++ y) :: back ∧ front.flatten ++ x = line.1 := by
  intro line member
  obtain ⟨_, _, linesAt⟩ := plain.tame large word
  obtain ⟨w, u, post, shape, split, before, ready⟩ := linesAt line member
  refine exists_page ?_ (bytes.trans split) ?_
  · intro empty
    cases w <;> simp [Scalar.lengthLine, empty] at shape
  · intro front begins inside
    by_contra cut
    have start : front.flatten <+: v.encode := by
      obtain ⟨rest, same⟩ := begins.trans (List.dropLast_prefix chain)
      exact ⟨rest.flatten, by rw [← bytes, ← same, List.flatten_append]⟩
    rw [split] at start
    obtain ⟨l, within⟩ := List.prefix_of_prefix_length_le
      ⟨line.2 ++ post, (List.append_assoc _ _ _).symm⟩ start inside.le
    have short : l.length < line.2.length := by
      rw [← within, List.length_append] at cut
      omega
    obtain ⟨r, halves⟩ : l <+: line.2 := by
      rw [← within, List.append_assoc, List.prefix_append_right_inj] at start
      exact List.prefix_of_prefix_length_le start (List.prefix_append _ _) short.le
    have left : l ≠ [] := by
      rintro rfl
      rw [← within, List.append_nil] at inside
      exact Nat.lt_irrefl _ inside
    have right : r ≠ [] := by
      rintro rfl
      rw [← halves, List.append_nil] at short
      exact Nat.lt_irrefl _ short
    obtain ⟨s, reached, clear⟩ := free front begins
    obtain ⟨u', pending, token⟩ := Scalar.held_lengthLine shape halves.symm left right ready
    rw [← within] at reached
    change run feed {} _ = _ at reached
    rw [run_append_of_pending before, pending] at reached
    obtain rfl := Outcome.pending.inj reached
    have none_held : u'.token.getD [] = [] := clear
    rw [token] at none_held
    exact left none_held

end Whole

/-! ## Replies that the driver receives -/

/-- A reply of less than `2 ^ 32` bytes on a connection on which no length wraps around:
the driver completes one message of exactly its bytes, with its length and type and every
length line of an element inside one mbuf, and receives what follows like the first bytes
of a connection. -/
theorem redisRsp_reassembles {dataSize : Nat} (large : 464 ≤ dataSize) {v : Resp}
    (plain : v.Plain) (word : v.ShortWord dataSize) (fits : v.encode.length < word32)
    {rest : Bytes} {reads : List Bytes} (stream : reads.flatten = v.encode ++ rest)
    (unwrapped : ParserKind.redisRsp.Unwrapped dataSize reads) :
    ∃ (m : Msg RspState) (others : List (Msg RspState)),
      (ParserKind.redisRsp.connection dataSize reads).completed = m :: others ∧
      m.bytes = v.encode ∧ m.mlen = v.encode.length ∧ m.type = v.type ∧
      (∀ line ∈ v.lengthLines, ∃ front x y back,
        m.mhdr = front ++ (x ++ line.2 ++ y) :: back ∧ front.flatten ++ x = line.1) ∧
      ∀ reads' : List Bytes, reads'.flatten = rest →
        ParserKind.redisRsp.Unwrapped dataSize reads' →
        ParserKind.redisRsp.outcome dataSize reads =
          (ParserKind.redisRsp.outcome dataSize reads').behind (Receiver.observed m) := by
  have positive : 0 < dataSize := by omega
  obtain ⟨t, u, placed, type, free⟩ := plain.run_place large word
  have nonzero : v.encode.length % word32 ≠ 0 := by
    rw [Nat.mod_eq_of_lt fits]
    have := List.length_pos_iff.mpr v.encode_ne_nil
    omega
  obtain ⟨m, bytes, mlen, ⟨⟨sameType, _⟩, quit⟩, breaks, received⟩ :=
    (redisRspMachine dataSize).receive_message positive nonzero placed
  obtain ⟨⟨others, completed⟩, _, following⟩ := received rest reads stream unwrapped
  refine ⟨m, others, completed, bytes, mlen.trans (Nat.mod_eq_of_lt fits), sameType.trans type, ?_,
    following quit⟩
  refine plain.lengthLines_in_one large word bytes fun front begins => ?_
  obtain ⟨y, post, d, split, reached, length⟩ := breaks front begins
  exact free _ y post d split reached length

/-- The reply to a request for two keys of which one exists. -/
def pairOfBulks : Resp :=
  .array [.scalar (.bulk [byteOf 'a', byteOf 'b']), .scalar .nullBulk]

/-- In two reads, with a status behind it. -/
theorem redisRsp_reassembles_pairOfBulks :
    let stream := pairOfBulks.encode ++ "+OK\r\n".toList.map byteOf
    ∃ (m : Msg RspState) (others : List (Msg RspState)),
      (ParserKind.redisRsp.connection 464 [stream.take 6, stream.drop 6]).completed = m :: others ∧
        m.bytes = pairOfBulks.encode ∧ m.mlen = pairOfBulks.encode.length := by
  intro stream
  have plain : pairOfBulks.Plain :=
    .inr ⟨by decide, ⟨(by decide : 2 < word32), (by decide : 2 < 2 ^ 31)⟩, nofun,
      ⟨trivial, trivial⟩, nofun, trivial⟩
  have whole : [stream.take 6, stream.drop 6].flatten = stream := by decide +kernel
  have unwrapped : ParserKind.redisRsp.Unwrapped 464 [stream.take 6, stream.drop 6] := by
    decide +kernel
  obtain ⟨m, others, completed, bytes, mlen, _⟩ := redisRsp_reassembles (Nat.le_refl 464) plain
    trivial (by decide +kernel) whole unwrapped
  exact ⟨m, others, completed, bytes, mlen⟩

/-- An array of four bulks of `k` bytes. -/
def fourBulks (k : Nat) : Resp :=
  .array (List.replicate 4 (.scalar (.bulk (List.replicate k (byteOf 'x')))))

theorem plain_fourBulks {k : Nat} (bound : k < 2 ^ 31) : (fourBulks k).Plain := by
  have bulk : (Resp.scalar (.bulk (List.replicate k (byteOf 'x')))).Nested := by
    refine ⟨?_, ?_⟩
    · change (List.replicate k _).length < word32
      rw [List.length_replicate]
      exact Nat.lt_trans bound (by decide)
    · change (List.replicate k _).length < 2 ^ 31
      rwa [List.length_replicate]
  have count : (List.replicate 4 (Resp.scalar (.bulk (List.replicate k (byteOf 'x'))))).length <
      2 ^ 31 := by
    rw [List.length_replicate]
    decide
  exact .inr ⟨count, bulk, nofun, bulk, nofun, bulk, nofun, bulk, nofun, trivial⟩

theorem length_fourBulks (k : Nat) : 4 * k ≤ (fourBulks k).encode.length := by
  simp only [fourBulks, List.replicate_succ, List.replicate_zero, Resp.encode, encodeAll,
    Scalar.encode,
    Scalar.body, List.length_append, List.length_cons, List.length_replicate, List.length_nil]
  omega

/-- A reply of more than `2 ^ 32` bytes is never completed with its length. -/
theorem redisRsp_huge_reply :
    (fourBulks (2 ^ 30)).Plain ∧ (fourBulks (2 ^ 30)).ShortWord 464 ∧
      ∀ reads : List Bytes, reads.flatten = (fourBulks (2 ^ 30)).encode →
        ∀ m ∈ (ParserKind.redisRsp.connection 464 reads).completed,
          m.mlen ≠ (fourBulks (2 ^ 30)).encode.length := by
  have long := length_fourBulks (2 ^ 30)
  have plain := plain_fourBulks (k := 2 ^ 30) (by decide)
  have word : (fourBulks (2 ^ 30)).ShortWord 464 := trivial
  generalize fourBulks (2 ^ 30) = v at long plain word ⊢
  refine ⟨plain, word, fun reads _ m member same => ?_⟩
  have measured := ((Receiver.receive_measured reads).completed m member).1
  have bounded : m.mlen < word32 := measured ▸ Nat.mod_lt _ (by decide)
  have value : word32 = 4 * 2 ^ 30 := by decide
  rw [same, value] at bounded
  exact absurd bounded (Nat.not_lt.mpr long)

end Nutcracker
