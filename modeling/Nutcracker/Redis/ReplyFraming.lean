import Nutcracker.Redis.ResponseSimulation
import Mathlib.Data.List.TakeWhile

/-!
# Telling replies apart

The replies of a backend connection follow each other without separators, so the
proxy depends on `redis_parse_rsp` for the end of each of them.  This file settles
for which replies other than arrays it is found.  Two kinds are missed: an error
that is a single word, whose carriage return is spent on ending the word, and a
bulk whose length does not fit a word.
-/

namespace Nutcracker

open Lib RspState

/-- The text of a one-line reply. -/
structure Line where
  text : Bytes
  noCR : CR ∉ text
  noLF : LF ∉ text

/-- The replies that are not arrays. -/
inductive Scalar where
  | status (line : Line)
  | error (line : Line)
  | integer (value : Int)
  | bulk (data : Bytes)
  | nullBulk

/-- The canonical numeral of an integer. -/
def numeral (value : Int) : Bytes :=
  if value < 0 then byteOf '-' :: decimal value.natAbs else decimal value.natAbs

namespace Scalar

/-- The bytes a backend sends for a reply, up to the line feed at the end. -/
def body : Scalar → Bytes
  | status line => byteOf '+' :: line.text ++ [CR]
  | error line => byteOf '-' :: line.text ++ [CR]
  | integer value => byteOf ':' :: numeral value ++ [CR]
  | bulk data => byteOf '$' :: decimal data.length ++ CRLF ++ data ++ [CR]
  | nullBulk => [byteOf '$', byteOf '-', byteOf '1', CR]

/-- The bytes a backend sends for a reply. -/
def encode (v : Scalar) : Bytes :=
  v.body ++ [LF]

/-- The first word of a line. -/
def firstWord (text : Bytes) : Bytes :=
  text.takeWhile (· != byteOf ' ')

/-- The message type of a reply. -/
def type : Scalar → MsgType
  | status _ => .rspRedisStatus
  | error line =>
      let word := byteOf '-' :: firstWord line.text
      redisErrorType .rspRedisError word word.length
  | integer _ => .rspRedisInteger
  | bulk _ | nullBulk => .rspRedisBulk

/-- Errors of more than one word and bulks whose length fits a word. -/
def Regular : Scalar → Prop
  | error line => byteOf ' ' ∈ line.text
  | bulk data => data.length < word32
  | _ => True

end Scalar

/-! ## Runs of the reader -/

namespace RspReading

variable {s : RspReading}

/-- The reader accepts `xs` in a state with the given properties. -/
def Accepts (s : RspReading) (xs : Bytes) (Final : RspReading → Prop) : Prop :=
  ∃ t, run feed s xs = .done t [] ∧ Final t

theorem Accepts.after {t : RspReading} {xs ys : Bytes} {Final : RspReading → Prop}
    (first : run feed s xs = .pending t) (accepts : t.Accepts ys Final) :
    s.Accepts (xs ++ ys) Final := by
  obtain ⟨u, done, final⟩ := accepts
  exact ⟨u, by rw [run_append_of_pending first, done], final⟩

theorem Accepts.cons {t : RspReading} {ch : UInt8} {xs : Bytes} {Final : RspReading → Prop}
    (fed : s.feed ch = .more t) (accepts : t.Accepts xs Final) : s.Accepts (ch :: xs) Final := by
  obtain ⟨u, done, final⟩ := accepts
  exact ⟨u, by rw [run_cons_more fed, done], final⟩

/-- What the reader ends in after it has read the rest of a line from `s`. -/
structure Ends (s t : RspReading) : Prop where
  type : t.type = s.type
  integer : t.integer = s.integer
  token : s.token = none → t.token = none

theorem accepts_lineFeed (state : s.state = swAlmostDone ∨ s.state = swBulkArgLf) :
    s.Accepts [LF] (Ends s) := by
  refine ⟨s.grow LF, run_cons_done ?_, rfl, rfl, fun token => by simp [grow, token]⟩
  rcases state with state | state <;> simp [feed, handOn, feedIn, state, RspReading.lineFeed]

/-- The rest of a line is skipped. -/
theorem accepts_line {text : Bytes} (noCR : CR ∉ text) (state : s.state = swRuntoCrlf) :
    s.Accepts (text ++ CRLF) (Ends s) := by
  induction text generalizing s with
  | nil =>
    have fed : s.feed CR = .more { s.grow CR with state := swAlmostDone } := by
      simp [feed, handOn, feedIn, state]
    obtain ⟨t, done, ends⟩ := accepts_lineFeed (s := { s.grow CR with state := swAlmostDone })
      (.inl rfl)
    exact .cons fed ⟨t, done, ends.type, ends.integer,
      fun token => ends.token (by simp [grow, token])⟩
  | cons ch text ih =>
    rw [List.mem_cons, not_or] at noCR
    have fed : s.feed ch = .more (s.grow ch) := by
      simp [feed, handOn, feedIn, state, Ne.symm noCR.1]
    obtain ⟨t, done, ends⟩ := ih noCR.2 (s := s.grow ch) state
    exact .cons fed ⟨t, done, ends.type, ends.integer,
      fun token => ends.token (by simp [grow, token])⟩

/-- The first word of an error is kept. -/
theorem run_word {text word : Bytes} (noCR : CR ∉ word) (noSpace : byteOf ' ' ∉ word)
    (state : s.state = swError) (token : s.token = some text) :
    run feed s word = .pending { s with token := some (text ++ word) } := by
  have collect := run_collect feed (fun l => { s with token := some (text ++ l) }) word []
  simp only [List.append_nil, ← token] at collect
  refine collect ?_
  rintro l x rest rfl
  simp only [List.mem_append, List.mem_cons, not_or] at noCR noSpace
  simp [feed, handOn, feedIn, state, Ne.symm noSpace.2.1, Ne.symm noCR.2.1]

/-- A numeral is read digit by digit. -/
theorem run_numeral {ds : Bytes} (digits : Digits ds) (g : Bytes → RspReading)
    (reads : ∀ l ch, isdigit ch = true → ch ≠ byteOf '-' → (g l).feed ch = .more (g (l ++ [ch]))) :
    run feed (g []) ds = .pending (g ds) := by
  have collect := run_collect feed g ds []
  rw [List.append_nil] at collect
  refine collect ?_
  rintro l ch rest rfl
  have digit := digits ch (by simp)
  refine reads l ch digit ?_
  rintro rfl
  exact absurd digit (by decide)

section Headers

variable {ds : Bytes} (digits : Digits ds) (nonempty : ds ≠ [])
include digits nonempty

/-- The length line of a bulk. -/
theorem run_bulkHeader (state : s.state = swBulk) (token : s.token = none) :
    run feed s (byteOf '$' :: ds ++ CRLF) =
      .pending { s with state := swBulkArg, rlen := wordVal ds } := by
  have long := List.length_pos_iff.mpr nonempty
  have number := run_numeral digits
    (fun l => { s with token := some ([byteOf '$'] ++ l), rlen := wordVal l })
    (fun l ch digit dash => by
      simp [feed, handOn, feedIn, grow, state, dash, digit, accum_wordVal])
  rw [List.cons_append, run_cons_more (t := { s with token := some [byteOf '$'], rlen := 0 })]
  · refine (run_append_of_pending number).trans ?_
    simp +decide [run, feed, handOn, feedIn, grow, RspReading.lineFeed, state, token, long]
  · simp [feed, handOn, feedIn, state, token]

/-- The count line of a multi bulk. -/
theorem run_countHeader (state : s.state = swMultibulk) (token : s.token = none) :
    run feed s (byteOf '*' :: ds ++ [CR]) =
      .pending { s with state := swMultibulkNargLf, rnarg := wordVal ds } := by
  have long := List.length_pos_iff.mpr nonempty
  have number := run_numeral digits
    (fun l => { s with token := some ([byteOf '*'] ++ l), rnarg := wordVal l })
    (fun l ch digit dash => by
      simp [feed, handOn, feedIn, grow, state, dash, digit, accum_wordVal])
  rw [List.cons_append, run_cons_more (t := { s with token := some [byteOf '*'], rnarg := 0 })]
  · refine (run_append_of_pending number).trans ?_
    simp +decide [run, feed, handOn, feedIn, state, token, long]
  · simp [feed, handOn, feedIn, state, token]

/-- The length line of a bulk in a multi bulk. -/
theorem run_elementHeader (state : s.state = swMultibulkArgnLen) (token : s.token = none)
    (some_ : s.rnarg ≠ 0) (proper : ¬ (wordVal ds = 1 ∧ ds.length = 2)) :
    run feed s (byteOf '$' :: ds ++ CRLF) =
      .pending { s with state := swMultibulkArgn, rlen := wordVal ds, rnarg := s.rnarg - 1 } := by
  have long := List.length_pos_iff.mpr nonempty
  have number := run_numeral digits
    (fun l => { s with token := some ([byteOf '$'] ++ l), rlen := wordVal l })
    (fun l ch digit dash => by
      simp [feed, handOn, feedIn, grow, state, digit, accum_wordVal])
  rw [List.cons_append, run_cons_more (t := { s with token := some [byteOf '$'], rlen := 0 })]
  · refine (run_append_of_pending number).trans ?_
    simp +decide [run, feed, handOn, feedIn, grow, RspReading.lineFeed, state, token, long, some_,
      proper]
  · simp +decide [feed, handOn, feedIn, state, token]

end Headers

/-- The bytes of a bulk and the carriage return after them. -/
theorem run_bulkBytes {after : RspState} (data : Bytes)
    (reads : ∀ (t : RspReading) ch, t.state = s.state → t.feed ch = t.pass after ch)
    (token : s.token = none) (length : s.rlen = data.length) :
    run feed s (data ++ [CR]) = .pending { s with state := after, rlen := 0 } := by
  rw [run_pass reads data [CR] length.ge]
  refine run_cons_more ((reads _ CR (by rfl)).trans ?_)
  simp [RspReading.pass, grow, token, length]

theorem feed_bulkArg (state : s.state = swBulkArg) (ch : UInt8) :
    s.feed ch = s.pass swBulkArgLf ch := by
  simp only [feed, handOn, feedIn, state]

theorem feed_multibulkArgn (state : s.state = swMultibulkArgn) (ch : UInt8) :
    s.feed ch = s.pass swMultibulkArgnLf ch := by
  simp only [feed, handOn, feedIn, state]

end RspReading

open RspReading

/-! ## One reply -/

theorem firstWord_append (text : Bytes) (spaced : byteOf ' ' ∈ text) :
    ∃ more, text = Scalar.firstWord text ++ byteOf ' ' :: more := by
  induction text with
  | nil => simp at spaced
  | cons ch text ih =>
    by_cases blank : ch = byteOf ' '
    · exact ⟨text, by simp [Scalar.firstWord, blank]⟩
    · obtain ⟨more, same⟩ := ih (by simpa [Ne.symm blank] using spaced)
      refine ⟨more, ?_⟩
      rw [Scalar.firstWord, List.takeWhile_cons_of_pos (by simpa using blank), List.cons_append]
      exact congrArg _ same

theorem blank_not_mem_firstWord (text : Bytes) : byteOf ' ' ∉ Scalar.firstWord text := by
  intro member
  simpa using List.mem_takeWhile_imp member

theorem integer_accepts (value : Int) :
    RspReading.Accepts {} (Scalar.integer value).encode fun t =>
      t.type = .rspRedisInteger ∧ t.integer = value.natAbs % word32 ∧ t.token = none := by
  have sign : ∃ front, numeral value = front ++ decimal value.natAbs ∧
      run feed {} (byteOf ':' :: front) =
        .pending { state := swIntegerStart, type := .rspRedisInteger } := by
    unfold numeral
    split
    · exact ⟨[byteOf '-'], rfl, by decide⟩
    · exact ⟨[], rfl, by decide⟩
  obtain ⟨front, split, first⟩ := sign
  have digits := run_numeral (digits_decimal value.natAbs)
    (fun l => { state := swIntegerStart, type := .rspRedisInteger, integer := wordVal l })
    (fun l ch digit dash => by
      have other : ch ≠ CR := by
        rintro rfl
        exact absurd digit (by decide)
      simp [feed, handOn, feedIn, grow, dash, digit, other, accum_wordVal])
  have whole : (Scalar.integer value).encode =
      (byteOf ':' :: front) ++ (decimal value.natAbs ++ [CR, LF]) := by
    simp [Scalar.encode, Scalar.body, split]
  rw [whole]
  refine .after first (.after digits (.cons (by rfl) ?_))
  let s : RspReading :=
    { state := swAlmostDone, type := .rspRedisInteger, integer := wordVal (decimal value.natAbs) }
  obtain ⟨t, done, ends⟩ := accepts_lineFeed (s := s) (.inl rfl)
  refine ⟨t, done, ends.type, ends.integer.trans ?_, ends.token rfl⟩
  show wordVal _ = _
  rw [wordVal, decVal_decimal]

theorem feed_errorMark : RspReading.feed {} (byteOf '-') =
    .more { state := swError, token := some [byteOf '-'], type := .rspRedisError } :=
  rfl

theorem error_accepts {line : Line} (spaced : byteOf ' ' ∈ line.text) :
    RspReading.Accepts {} (Scalar.error line).encode fun t =>
      t.type = (Scalar.error line).type ∧ t.token = none := by
  obtain ⟨more, split⟩ := firstWord_append line.text spaced
  have noCR := line.noCR
  rw [split, List.mem_append, List.mem_cons, not_or, not_or] at noCR
  have word := run_word
    (s := { state := swError, token := some [byteOf '-'], type := .rspRedisError })
    noCR.1 (blank_not_mem_firstWord line.text) rfl rfl
  have whole : (Scalar.error line).encode =
      byteOf '-' :: (Scalar.firstWord line.text ++ byteOf ' ' :: (more ++ CRLF)) := by
    simp only [Scalar.encode, Scalar.body]
    nth_rewrite 1 [split]
    simp
  rw [whole]
  refine .cons feed_errorMark (.after word (.cons (by rfl) ?_))
  obtain ⟨t, done, ends⟩ := accepts_line
    (s := { state := swRuntoCrlf, type := (Scalar.error line).type }) noCR.2.2 rfl
  exact ⟨t, done, ends.type, ends.token rfl⟩

/-- After its length line, a bulk is as long as the length modulo the word size. -/
theorem run_bulk_encode (data rest : Bytes) :
    run feed {} ((Scalar.bulk data).encode ++ rest) =
      run feed { state := swBulkArg, type := .rspRedisBulk, rlen := data.length % word32 }
        (data ++ CRLF ++ rest) := by
  have header := run_bulkHeader (s := { state := swBulk, type := .rspRedisBulk })
    (digits_decimal data.length) (decimal_ne_nil _) rfl rfl
  rw [wordVal, decVal_decimal] at header
  have whole : (Scalar.bulk data).encode ++ rest =
      (byteOf '$' :: decimal data.length ++ CRLF) ++ (data ++ CRLF ++ rest) := by
    simp [Scalar.encode, Scalar.body]
  rw [whole, ← run_append_of_pending header]
  exact run_cons_congr (by rfl)

theorem Scalar.Regular.accepts {v : Scalar} (regular : v.Regular) :
    RspReading.Accepts {} v.encode fun t => t.type = v.type ∧ (v ≠ nullBulk → t.token = none) := by
  cases v with
  | status line =>
    let started : RspReading := { state := swRuntoCrlf, type := .rspRedisStatus }
    obtain ⟨t, done, ends⟩ := accepts_line (s := started) line.noCR rfl
    refine .cons (t := started) (by rfl) ⟨t, ?_, ends.type, fun _ => ends.token rfl⟩
    simpa using done
  | error line =>
    obtain ⟨t, done, type, token⟩ := error_accepts regular
    exact ⟨t, done, type, fun _ => token⟩
  | integer value =>
    obtain ⟨t, done, type, _, token⟩ := integer_accepts value
    exact ⟨t, done, type, fun _ => token⟩
  | bulk data =>
    have length : data.length % word32 = data.length := Nat.mod_eq_of_lt regular
    have bytes := run_bulkBytes data
      (s := { state := swBulkArg, type := .rspRedisBulk, rlen := data.length % word32 })
      (fun t ch same => feed_bulkArg same ch) rfl length
    have whole := run_bulk_encode data []
    rw [List.append_nil] at whole
    refine ⟨{ state := swBulkArgLf, type := .rspRedisBulk }, ?_, rfl, fun _ => rfl⟩
    rw [whole, show data ++ CRLF ++ [] = (data ++ [CR]) ++ [LF] by simp,
      run_append_of_pending bytes]
    rfl
  | nullBulk => exact ⟨_, by rfl, rfl, fun other => absurd rfl other⟩

/-- The line feed of an error that is a single word is skipped. -/
theorem error_overruns {line : Line} (single : byteOf ' ' ∉ line.text) :
    ∃ t, run feed {} (Scalar.error line).encode = .pending t := by
  have kept := run_word
    (s := { state := swError, token := some [byteOf '-'], type := .rspRedisError })
    line.noCR single rfl rfl
  have whole : (Scalar.error line).encode = byteOf '-' :: (line.text ++ CRLF) := by
    simp [Scalar.encode, Scalar.body]
  let word := byteOf '-' :: line.text
  refine ⟨{ state := swRuntoCrlf, type := redisErrorType .rspRedisError word word.length }, ?_⟩
  rw [whole, run_cons_more feed_errorMark, run_append_of_pending kept]
  rfl

/-- A bulk whose length does not fit a word is ended inside its data. -/
theorem bulk_stops_early {data rest : Bytes} {t : RspReading} (long : word32 ≤ data.length) :
    run feed {} ((Scalar.bulk data).encode ++ rest) ≠ .done t rest := by
  have bound : data.length % word32 < word32 := Nat.mod_lt _ (by decide)
  have twice : data.length % word32 + word32 ≤ data.length := by
    have := Nat.mod_add_div data.length word32
    have := Nat.mul_le_mul_left word32 (Nat.div_pos long (by decide))
    omega
  generalize cutEq : data.length % word32 = cut at bound twice
  obtain ⟨a, c, back, tailEq⟩ : ∃ a c back, data.drop cut = a :: c :: back := by
    match split : data.drop cut with
    | [] | [_] =>
      have := congrArg List.length split
      simp only [List.length_drop, List.length_nil, List.length_singleton] at this
      have : 2 ≤ word32 := by decide
      omega
    | a :: c :: back => exact ⟨a, c, back, rfl⟩
  have front : (data.take cut).length = cut := by
    rw [List.length_take]
    omega
  have passed := run_pass (s := { state := swBulkArg, type := .rspRedisBulk, rlen := cut })
    (fun t ch same => feed_bulkArg same ch) (data.take cut) (a :: c :: (back ++ CRLF ++ rest))
    front.le
  have whole : data ++ CRLF ++ rest = data.take cut ++ (a :: c :: (back ++ CRLF ++ rest)) := by
    conv_lhs => rw [← List.take_append_drop cut data, tailEq]
    simp
  rw [run_bulk_encode, cutEq, whole, passed, front, Nat.sub_self]
  intro done
  have shorter : ∀ u v : RspReading, Outcome.done u (back ++ CRLF ++ rest) ≠ .done v rest := by
    intro u v same
    have := congrArg List.length (Outcome.done.inj same).2
    simp only [List.length_append, List.length_cons, List.length_nil] at this
    omega
  revert done
  simp only [run, feed, handOn, feedIn, RspReading.pass, ne_eq, not_true_eq_false, if_false]
  by_cases ends : a = CR
  · by_cases feeds : c = LF
    · simpa [ends, feeds, grow, RspReading.lineFeed] using shorter _ _
    · simp [ends, feeds, RspReading.lineFeed]
  · simp [ends]

/-- The end of a reply is found exactly if the reply is regular. -/
theorem Scalar.regular_iff_exact (v : Scalar) (rest : Bytes) :
    v.Regular ↔ ∃ t, run feed {} (v.encode ++ rest) = .done t rest := by
  constructor
  · intro regular
    obtain ⟨t, done, _⟩ := regular.accepts
    exact ⟨t, run_append_of_done done⟩
  · rintro ⟨t, done⟩
    cases v with
    | error line =>
      by_contra single
      obtain ⟨u, pending⟩ := error_overruns single
      rw [run_append_of_pending pending] at done
      exact absurd (run_done_length_lt done) (Nat.lt_irrefl _)
    | bulk data =>
      by_contra long
      exact bulk_stops_early (Nat.le_of_not_lt long) done
    | status | integer | nullBulk => trivial

/-! ## Pipelines -/

/-- Applied again and again, each time from the initial state at the end of the
previous reply, the parser takes one reply of the list per call. -/
def ParsesEach (dataSize : Nat) (b : Bytes) : Nat → List Scalar → Prop
  | _, [] => True
  | p, v :: replies =>
      let r := redisParseRsp dataSize (.ofBuffer swStart b p)
      r.result = .ok ∧ r.pos = p + v.encode.length ∧ r.type = v.type ∧
        ParsesEach dataSize b r.pos replies

/-- A call takes exactly one reply off the buffer if and only if it is regular. -/
theorem redisParseRsp_exact_iff (dataSize : Nat) {b rest : Bytes} {p : Nat} {v : Scalar}
    (inside : p ≤ b.length) (here : b.drop p = v.encode ++ rest) :
    ((redisParseRsp dataSize (.ofBuffer swStart b p)).result = .ok ∧
      (redisParseRsp dataSize (.ofBuffer swStart b p)).pos = p + v.encode.length ∧
      (redisParseRsp dataSize (.ofBuffer swStart b p)).type = v.type) ↔ v.Regular := by
  have total : b.length = p + v.encode.length + rest.length := by
    have := congrArg List.length here
    rw [List.length_drop, List.length_append] at this
    omega
  constructor
  · rintro ⟨ok, pos, _⟩
    obtain ⟨t, left, done⟩ := (redisParseRsp_ok_iff dataSize b inside).mp ok
    obtain ⟨_, consumed, _⟩ := redisParseRsp_of_done dataSize b inside done
    obtain ⟨used, _, split, again⟩ := run_done_split done
    -- the parser leaves as many bytes as follow the reply
    have same : left = rest := by
      have length : left.length = rest.length := by omega
      rw [here] at split
      exact (List.append_inj' split length.symm).2.symm
    rw [here, same] at done
    exact (v.regular_iff_exact rest).mpr ⟨t, done⟩
  · intro regular
    obtain ⟨t, done, type, _⟩ := regular.accepts
    have accepted : run feed {} (b.drop p) = .done t rest := by
      rw [here]
      exact run_append_of_done done
    obtain ⟨ok, consumed, sameType, _⟩ := redisParseRsp_of_done dataSize b inside accepted
    exact ⟨ok, by omega, sameType.trans type⟩

theorem parsesEach_iff (dataSize : Nat) {b : Bytes} {p : Nat} {replies : List Scalar}
    (inside : p ≤ b.length) (here : b.drop p = replies.flatMap Scalar.encode) :
    ParsesEach dataSize b p replies ↔ ∀ v ∈ replies, v.Regular := by
  induction replies generalizing p with
  | nil => simp [ParsesEach]
  | cons v replies ih =>
    rw [List.flatMap_cons] at here
    have first := redisParseRsp_exact_iff dataSize inside here
    have tail : b.drop (p + v.encode.length) = replies.flatMap Scalar.encode := by
      rw [← List.drop_drop, here, List.drop_left]
    have inside' : p + v.encode.length ≤ b.length := by
      have := congrArg List.length here
      rw [List.length_drop, List.length_append] at this
      omega
    simp only [ParsesEach, List.forall_mem_cons, ← first, ← ih inside' tail]
    constructor
    · rintro ⟨ok, pos, type, rest⟩
      exact ⟨⟨ok, pos, type⟩, pos ▸ rest⟩
    · rintro ⟨⟨ok, pos, type⟩, rest⟩
      exact ⟨ok, pos, type, pos ▸ rest⟩

/-- The replies of a pipeline are told apart exactly if every error has a text after
its first word and every bulk length fits a word. -/
theorem redisParseRsp_parsesEach_iff (dataSize : Nat) (replies : List Scalar) :
    ParsesEach dataSize (replies.flatMap Scalar.encode) 0 replies ↔ ∀ v ∈ replies, v.Regular :=
  parsesEach_iff dataSize (Nat.zero_le _) rfl

/-- `-ERR CR LF +OK CR LF`. -/
def singleWordPipeline : List Scalar :=
  [.error ⟨['E', 'R', 'R'].map byteOf, by decide, by decide⟩,
    .status ⟨['O', 'K'].map byteOf, by decide, by decide⟩]

/-- A single-word error and the status after it are taken as one reply. -/
theorem redisParseRsp_not_parsesEach :
    ¬ ParsesEach 464 (singleWordPipeline.flatMap Scalar.encode) 0 singleWordPipeline := by
  intro parses
  have pos := parses.2.1
  revert pos
  decide +kernel

end Nutcracker
