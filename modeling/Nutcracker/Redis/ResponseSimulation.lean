import Nutcracker.Redis.ResponseReader
import Nutcracker.Redis.ResponseLoop

/-!
# The redis response parser implements the reader

The parser's record determines what the machine has read, once the token marker
is replaced by the text it marks.  A byte that is consumed on the spot is compared
byte by byte, the bytes of a bulk all at once.
-/

namespace Nutcracker

open Lib RspState RspReading

/-- What the parser has read when it stands at offset `p` of the mbuf `b`. -/
def RspReading.ofScan (b : Bytes) (r : Scan RspState) (p : Nat) : RspReading where
  state := r.state
  token := r.token.map (textAt b p)
  type := r.type
  rnarg := r.rnarg
  rlen := r.rlen
  integer := r.integer

/-- The parser, at offset `p` of the mbuf `b`, has read what `s` says. -/
structure RspFollows (b : Bytes) (r : Scan RspState) (p : Nat) (s : RspReading) : Prop where
  inside : p ≤ b.length
  token : ∀ t, r.token = some t → t < p
  reading : s = .ofScan b r p

/-- What is left of a finished reply. -/
structure RspFinished (r : Scan RspState) (s : RspReading) : Prop where
  type : r.type = s.type
  integer : r.integer = s.integer

section OneIteration

variable {i : Nat} {b : Bytes} {r : Scan RspState} {p : Nat}

/-- The result of an iteration that read one byte, as the machine sees it. -/
def RspReading.seen (b : Bytes) : Flow (Scan RspState) → Verdict RspReading
  | .next q r => .more (ofScan b r q)
  | .stop q r => .done (ofScan b r (q + 1))
  | .fail => .fail

/-- An iteration that reads the byte at `p` and sets the token marker nowhere else. -/
def ReadsOne (r : Scan RspState) (p : Nat) : Flow (Scan RspState) → Prop
  | .next q r' => q = p + 1 ∧ (r'.token = r.token ∨ r'.token = none ∨ r'.token = some p)
  | .stop q _ => q = p
  | .fail => True

theorem tracks_of_seen {ch : UInt8} {flow : Flow (Scan RspState)} (inside : p < b.length)
    (here : b.drop p = ch :: b.drop (p + 1)) (before : ∀ t, r.token = some t → t < p)
    (fed : (ofScan b r p).feed ch = seen b flow)
    (one : ReadsOne r p flow) :
    Tracks feed b (RspFollows b) RspFinished (.ofScan b r p) p flow := by
  cases flow with
  | next q r' =>
    obtain ⟨rfl, marker⟩ := one
    refine Tracks.more here fed ⟨inside, ?_, rfl⟩
    intro t held
    rcases marker with same | gone | here
    · exact Nat.lt_succ_of_lt (before t (same ▸ held))
    · rw [gone] at held
      cases held
    · rw [here] at held
      cases held
      exact Nat.lt_succ_self p
  | stop q r' =>
    obtain rfl : q = p := one
    exact Tracks.done inside here fed ⟨rfl, rfl⟩
  | fail => exact Tracks.failed here fed

/-- The first word of an error. -/
theorem rspError_tracks (inside : p < b.length) (before : ∀ t, r.token = some t → t < p)
    (state : r.state = swError) :
    Tracks feed b (RspFollows b) RspFinished (.ofScan b r p) p
      (rspError b (b.getD p 0) r p) := by
  refine tracks_of_seen inside (drop_eq_cons inside) before ?_ ?_
  · cases marker : r.token with
    | none =>
      have word := textAt_succ inside (Nat.le_refl p)
      rw [textAt_self] at word
      simp only [feed, handOn, feedIn, ofScan, rspError, state, marker]
      grind [seen, ofScan, redisErrorType_zero]
    | some t =>
      have word := textAt_succ inside (before t marker).le
      have length := length_textAt (t := t) inside.le
      -- the word is looked up in the mbuf, where other bytes follow it
      have type := redisErrorType_append r.type length.ge (b.drop p)
      rw [← drop_eq_textAt_append (before t marker).le inside.le] at type
      simp only [feed, handOn, feedIn, ofScan, rspError, state, marker]
      grind [seen, ofScan]
  · cases marker : r.token <;> grind [ReadsOne, rspError]

/-- A byte that is not handed on is read by the parser as by the machine. -/
theorem readsHere_tracks (inside : p < b.length) (before : ∀ t, r.token = some t → t < p)
    (counted : r.state ≠ swBulkArg ∧ r.state ≠ swMultibulkArgn)
    (stays : (ofScan b r p).handOn (b.getD p 0) = .ofScan b r p) :
    Tracks feed b (RspFollows b) RspFinished (.ofScan b r p) p
      (redisParseRspStep i b r p) := by
  by_cases state : r.state = swError
  · simpa only [redisParseRspStep, state] using rspError_tracks inside before state
  have fresh := textAt_succ inside (Nat.le_refl p)
  rw [textAt_self] at fresh
  have grown := fun t held => textAt_succ inside (before t held).le
  have length := fun t => length_textAt (t := t) inside.le
  refine tracks_of_seen inside (drop_eq_cons inside) before ?_ ?_
  · unfold redisParseRspStep feed
    rw [stays]
    generalize b.getD p 0 = ch at *
    cases phase : r.state
    all_goals
      simp only [feedIn, ofScan, RspReading.lineFeed, grow,
        handOn, phase, rspStart, rspInteger, rspSimple, rspRuntoCrlf, rspBulk,
        rspMultibulk, rspArgnLen, rspLineFeed, rspDone, rspElementLf] at stays ⊢
      cases marker : r.token <;> grind [seen, ofScan]
  · unfold redisParseRspStep
    generalize b.getD p 0 = ch at *
    cases phase : r.state
    all_goals
      simp only [ofScan, handOn, phase, rspStart, rspInteger, rspSimple, rspRuntoCrlf, rspBulk,
        rspMultibulk, rspArgnLen, rspLineFeed, rspDone, rspElementLf] at stays ⊢
      grind [ReadsOne]

/-- A byte that is handed on is read again where it is. -/
theorem handOn_tracks (inside : p < b.length) (before : ∀ t, r.token = some t → t < p)
    (moves : (ofScan b r p).handOn (b.getD p 0) ≠ .ofScan b r p) :
    Tracks feed b (RspFollows b) RspFinished (.ofScan b r p) p
      (redisParseRspStep i b r p) := by
  obtain ⟨r', stepEq, marker, reading⟩ : ∃ r', redisParseRspStep i b r p = .next p r' ∧
      r'.token = r.token ∧
      ofScan b r' p = (ofScan b r p).handOn (b.getD p 0) := by
    unfold redisParseRspStep
    generalize b.getD p 0 = ch at *
    have source : r.state = swStart ∨ r.state = swMultibulkArgnLen := by
      cases phase : r.state <;> simp [handOn, ofScan, phase] at moves ⊢
    rcases source with phase | phase
    all_goals
      simp only [ofScan, handOn, phase, rspStart, rspArgnLen] at moves ⊢
      grind
  rw [stepEq]
  refine ⟨_, ⟨inside.le, by rwa [marker], rfl⟩, ?_⟩
  rw [reading, drop_eq_cons inside, run_cons_congr feed_handOn.symm]

/-- The bytes of a bulk are read one by one. -/
theorem run_pass {after : RspState} {s : RspReading}
    (reads : ∀ (t : RspReading) ch, t.state = s.state → t.feed ch = t.pass after ch)
    (xs ys : Bytes) (fits : xs.length ≤ s.rlen) :
    run feed s (xs ++ ys) =
      run feed
        { s with token := s.token.map (· ++ xs), rlen := s.rlen - xs.length } ys := by
  have collect := run_collect feed
    (fun l => { s with token := s.token.map (· ++ l), rlen := s.rlen - l.length }) xs ys
  simp only [List.append_nil, Option.map_id_fun', List.length_nil, Nat.sub_zero] at collect
  refine collect ?_
  rintro l x rest rfl
  have positive : s.rlen - l.length ≠ 0 := by
    simp only [List.length_append, List.length_cons] at fits
    omega
  refine (reads _ _ (by rfl)).trans ?_
  simp [RspReading.pass, grow, positive, Function.comp_def, Nat.sub_sub]

/-- Passing over a bulk up to some offset is reading its bytes up to there. -/
theorem run_ofScan_pass {after : RspState} {q : Nat}
    (before : ∀ t, r.token = some t → t < p)
    (reads : ∀ (t : RspReading) ch, t.state = r.state → t.feed ch = t.pass after ch)
    (start : p ≤ q) (bound : q ≤ b.length) (fits : q ≤ p + r.rlen) :
    run feed (.ofScan b r p) (b.drop p) =
      run feed (.ofScan b { r with rlen := r.rlen - (q - p) } q) (b.drop q) := by
  have short : (textAt b q p).length ≤ r.rlen := by
    rw [length_textAt bound]
    omega
  rw [drop_eq_textAt_append start bound, run_pass reads _ _ short]
  congr 1
  simp only [ofScan, length_textAt bound]
  cases marker : r.token with
  | none => rfl
  | some t => simp [← textAt_append (before t marker).le start bound]

theorem rspSkipRlen_tracks (after : RspState) (inside : p < b.length)
    (before : ∀ t, r.token = some t → t < p)
    (reads : ∀ (t : RspReading) ch, t.state = r.state → t.feed ch = t.pass after ch) :
    Tracks feed b (RspFollows b) RspFinished (.ofScan b r p) p
      (skipRlen after b r p) := by
  have later : ∀ {q}, p ≤ q → ∀ t, r.token = some t → t < q :=
    fun start t held => (before t held).trans_le start
  simp only [skipRlen, passOver]
  by_cases short : b.length ≤ p + r.rlen
  · rw [if_pos short]
    exact ⟨_, ⟨Nat.le_refl _, later inside.le, rfl⟩,
      run_ofScan_pass before reads inside.le (Nat.le_refl _) short⟩
  · have mark : p + r.rlen < b.length := Nat.lt_of_not_le short
    have passed :=
      run_ofScan_pass before reads (Nat.le_add_right p r.rlen) mark.le (Nat.le_refl _)
    rw [Nat.add_sub_cancel_left, Nat.sub_self, drop_eq_cons mark] at passed
    have grown := fun t held => textAt_succ mark (later (Nat.le_add_right p r.rlen) t held).le
    rw [if_neg short]
    by_cases ends : b.getD (p + r.rlen) 0 = CR
    · rw [if_pos ends]
      refine ⟨_, ⟨mark, later (by omega), rfl⟩, ?_⟩
      rw [ends] at passed grown
      refine passed.trans (run_cons_more ((reads _ _ (by rfl)).trans ?_))
      cases marker : r.token <;>
        simp [RspReading.pass, ofScan, grow, marker, grown]
    · rw [if_neg ends]
      refine passed.trans (run_cons_fail ((reads _ _ (by rfl)).trans ?_))
      simp only [RspReading.pass, ofScan, ends, if_false, ne_eq, not_true_eq_false]

end OneIteration

/-- The loop of the response parser over an mbuf reads the reply as the machine
does. -/
theorem redisParseRspStep_simulates (i : Nat) (b : Bytes) :
    Simulates feed b (redisParseRspStep i b) (RspFollows b) RspFinished := by
  rintro r p s ⟨_, before, rfl⟩ inside
  by_cases bulk : r.state = swBulkArg
  · have tracks := rspSkipRlen_tracks swBulkArgLf inside before (fun t ch state => by
      simp only [feed, handOn, feedIn, state, bulk])
    simpa only [redisParseRspStep, bulk] using tracks
  by_cases element : r.state = swMultibulkArgn
  · have tracks := rspSkipRlen_tracks swMultibulkArgnLf inside before
      (fun t ch state => by
        simp only [feed, handOn, feedIn, state, element])
    simpa only [redisParseRspStep, element] using tracks
  by_cases stays : (ofScan b r p).handOn (b.getD p 0) = .ofScan b r p
  · exact readsHere_tracks inside before ⟨bulk, element⟩ stays
  · exact handOn_tracks inside before stays

/-! ## A reply in one buffer -/

section OneBuffer

variable (dataSize : Nat) (b : Bytes) {p : Nat}

private theorem redisParseRsp_agrees (inside : p ≤ b.length) :
    ∃ out, redisParseRsp dataSize (.ofBuffer swStart b p) =
        redisRspParser.conclude dataSize (.ofBuffer swStart b p) out ∧
      Agrees feed b (RspFollows b) RspFinished {} p out := by
  refine (redisRspLawful dataSize).parse_agrees (r := .ofBuffer swStart b p) trivial
    (redisParseRspStep_simulates 0 b) ?_
  exact ⟨inside, (fun t held => nomatch held), rfl⟩

/-- The parser accepts a reply in one buffer exactly if the reader does, and then it
has consumed the same bytes and found the same type and number. -/
theorem redisParseRsp_ok_iff (inside : p ≤ b.length) :
    (redisParseRsp dataSize (.ofBuffer swStart b p)).result = .ok ↔
      ∃ t rest, run feed {} (b.drop p) = .done t rest := by
  obtain ⟨out, parsed, agrees⟩ := redisParseRsp_agrees dataSize b inside
  rw [parsed, Parser.conclude_ok_iff, agrees.stop_iff]

theorem redisParseRsp_of_done {t : RspReading} {rest : Bytes} (inside : p ≤ b.length)
    (done : run feed {} (b.drop p) = .done t rest) :
    (redisParseRsp dataSize (.ofBuffer swStart b p)).result = .ok ∧
      (redisParseRsp dataSize (.ofBuffer swStart b p)).pos + rest.length = b.length ∧
      (redisParseRsp dataSize (.ofBuffer swStart b p)).type = t.type ∧
      (redisParseRsp dataSize (.ofBuffer swStart b p)).integer = t.integer := by
  obtain ⟨out, parsed, agrees⟩ := redisParseRsp_agrees dataSize b inside
  obtain ⟨q, r, rfl, finished, length⟩ := agrees.stop_of_done done
  rw [parsed]
  exact ⟨rfl, length, finished.type, finished.integer⟩

end OneBuffer

end Nutcracker
