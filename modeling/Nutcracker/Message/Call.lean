import Nutcracker.Message.Receive

/-!
# One call of a parser

What `msg_parse` does to one message: it suspends it, completes it and cuts off the
bytes behind it, moves a cut token to a fresh mbuf, or refuses it.  A message that
is handed to the parser satisfies `Parsable`; one that is left over for the next read
satisfies `Waiting`, since a token is never left behind in a full mbuf.
-/

namespace Nutcracker

open Lib

variable {σ : Type} {P : Parser σ} {dataSize : Nat}

namespace Msg

variable {m : Msg σ}

@[simp]
theorem lastBuf_append (m : Msg σ) (x : Bytes) : (m.append x).lastBuf = m.lastBuf ++ x := by
  simp [append, lastBuf]

@[simp]
theorem toScan_append (m : Msg σ) (x : Bytes) : (m.append x).toScan = m.toScan :=
  rfl

theorem append_append (m : Msg σ) (x y : Bytes) :
    (m.append x).append y = m.append (x ++ y) := by
  simp only [append, lastBuf, add32_add32]
  simp

theorem length_mhdr_append (chain : m.mhdr ≠ []) (x : Bytes) :
    (m.append x).mhdr.length = m.mhdr.length := by
  have := List.length_pos_iff.mpr chain
  simp only [append, List.length_append, List.length_dropLast, List.length_singleton]
  omega

theorem prepare_of_space (chain : m.mhdr ≠ []) (space : m.lastBuf.length < dataSize) :
    m.prepare dataSize = m := by
  simp [prepare, chain, Nat.ne_of_lt space]

theorem mlen_prepare (m : Msg σ) : (m.prepare dataSize).mlen = m.mlen := by
  unfold prepare
  split <;> rfl

theorem ofRest_append (x y : Bytes) : (ofRest P x).append y = ofRest P (x ++ y) := by
  simp [append, ofRest, lastBuf, add32_add32]

theorem prepare_fresh : (fresh P).prepare dataSize = { fresh P with mhdr := [[]] } := by
  simp [prepare, fresh]

theorem fresh_append (x : Bytes) : ((fresh P).prepare dataSize).append x = ofRest P x := by
  rw [prepare_fresh]
  simp [append, ofRest, fresh, lastBuf]

end Msg

namespace Parser

/-- A message that can be handed to the parser. -/
structure Lawful.Parsable (lawful : P.Lawful dataSize) (m : Msg σ) : Prop where
  chain : m.mhdr ≠ []
  fits : m.lastBuf.length ≤ dataSize
  inside : m.pos ≤ m.lastBuf.length
  good : lawful.Good m.toScan m.pos
  mlen : m.mlen < word32

/-- A message that waits for the next read.  A token is never left in a full mbuf. -/
structure Lawful.Waiting (lawful : P.Lawful dataSize) (m : Msg σ) : Prop extends
    lawful.Parsable m where
  full : m.lastBuf.length = dataSize → m.token = none

namespace Lawful

variable (lawful : P.Lawful dataSize) {m : Msg σ}

theorem Parsable.append {lawful : P.Lawful dataSize} {x : Bytes} (parsable : lawful.Parsable m)
    (fits : m.lastBuf.length + x.length ≤ dataSize) : lawful.Parsable (m.append x) where
  chain := by simp [Msg.append]
  fits := by simpa using fits
  inside := by
    rw [Msg.lastBuf_append, List.length_append]
    exact Nat.le_add_right_of_le parsable.inside
  good := parsable.good
  mlen := add32_lt _ _

theorem parsable_ofRest {nbuf : Bytes} (fits : nbuf.length ≤ dataSize) :
    lawful.Parsable (.ofRest P nbuf) where
  chain := by simp [Msg.ofRest]
  fits := fits
  inside := Nat.zero_le _
  good := lawful.good_of_none rfl
  mlen := add32_lt _ _

theorem Waiting.prepare {lawful : P.Lawful dataSize} (waiting : lawful.Waiting m)
    (positive : 0 < dataSize) :
    lawful.Parsable (m.prepare dataSize) ∧ (m.prepare dataSize).lastBuf.length < dataSize := by
  by_cases full : m.lastBuf.length = dataSize
  · have prepared : m.prepare dataSize = { m with mhdr := m.mhdr ++ [[]], pos := 0 } := by
      simp [Msg.prepare, full]
    rw [prepared]
    refine ⟨⟨by simp, by simp [Msg.lastBuf], Nat.zero_le _, ?_, waiting.mlen⟩, ?_⟩
    · exact lawful.good_of_none (waiting.full full)
    · simpa [Msg.lastBuf] using positive
  · have space := Nat.lt_of_le_of_ne waiting.fits full
    rw [Msg.prepare_of_space waiting.chain space]
    exact ⟨waiting.toParsable, space⟩

/-! ## One call of the parser -/

/-- The message as a call leaves it that ran into the end of the mbuf. -/
def suspended (m : Msg σ) (s : Scan σ) : Msg σ :=
  { s with pos := m.lastBuf.length, mhdr := m.mhdr, mlen := m.mlen, result := .again }

section Call

variable {s : Scan σ} {q : Nat} (parsable : lawful.Parsable m)
include parsable

theorem loops_next (loops : P.Loops dataSize m (.next q s)) :
    q = m.lastBuf.length ∧ lawful.Good s m.lastBuf.length :=
  (lawful.productive _ _).exit_good parsable.good parsable.inside loops

theorem msgParseBytes_next (loops : P.Loops dataSize m (.next q s))
    (space : m.lastBuf.length = dataSize → s.token = none) :
    msgParseBytes P dataSize m = .pending (suspended m s) := by
  obtain ⟨rfl, _⟩ := lawful.loops_next parsable loops
  have parsed : P.parse dataSize m = suspended m s := by
    rw [lawful.parse_eq parsable.good loops]
    cases token : s.token with
    | none => simp [conclude, token, suspended]
    | some t =>
      have notFull : m.lastBuf.length ≠ dataSize := by
        intro full
        rw [space full] at token
        cases token
      simp [conclude, token, suspended, notFull]
  simp only [msgParseBytes, parsed, suspended]

theorem msgParseBytes_repair {t : Nat} (loops : P.Loops dataSize m (.next q s))
    (full : m.lastBuf.length = dataSize) (token : s.token = some t) :
    msgParseBytes P dataSize m =
      .pending
        { s with
          token := none, state := P.restart s.state, pos := 0,
          mhdr := m.mhdr.dropLast ++ [m.lastBuf.take t] ++ [m.lastBuf.drop t], mlen := m.mlen,
          result := .repair } := by
  simp only [msgParseBytes, lawful.parse_eq parsable.good loops, conclude, token, full, if_true]
  rfl

theorem msgParseBytes_fail (loops : P.Loops dataSize m .fail) :
    msgParseBytes P dataSize m = .failed := by
  simp only [msgParseBytes, lawful.parse_eq parsable.good loops, conclude]

end Call

/-- A call that ran into the end of the mbuf leaves a message that waits for a read. -/
theorem pending_of_next {s : Scan σ} {q : Nat} (parsable : lawful.Parsable m)
    (loops : P.Loops dataSize m (.next q s)) :
    ∃ r, msgParseBytes P dataSize m = .pending r ∧ lawful.Waiting r := by
  obtain ⟨rfl, good⟩ := lawful.loops_next parsable loops
  by_cases cut : m.lastBuf.length = dataSize ∧ s.token ≠ none
  · obtain ⟨t, token⟩ := Option.ne_none_iff_exists'.mp cut.2
    refine ⟨_, lawful.msgParseBytes_repair parsable loops cut.1 token, ?_⟩
    refine ⟨⟨by simp, ?_, Nat.zero_le _, lawful.good_of_none rfl, parsable.mlen⟩, fun _ => rfl⟩
    simp [Msg.lastBuf, ← cut.1]
  · have space : m.lastBuf.length = dataSize → s.token = none := by
      intro full
      by_contra held
      exact cut ⟨full, held⟩
    refine ⟨_, lawful.msgParseBytes_next parsable loops space, ?_⟩
    exact ⟨⟨parsable.chain, parsable.fits, Nat.le_refl _, good, parsable.mlen⟩, space⟩

include lawful in
theorem stop_inside {s : Scan σ} {q : Nat} (loops : P.Loops dataSize m (.stop q s)) :
    q < m.lastBuf.length :=
  Runs.stop_inside lawful.stops_here loops

/-- Bytes that arrive later do not affect a call that left the loop. -/
theorem loops_append {out : Flow (Scan σ)} {y : Bytes} (parsable : lawful.Parsable m)
    (loops : P.Loops dataSize m out) (left : ∀ q s, out ≠ .next q s) :
    P.Loops dataSize (m.append y) out := by
  unfold Loops at loops ⊢
  rw [Msg.length_mhdr_append parsable.chain, Msg.lastBuf_append]
  exact (lawful.resumable _).runs_extend loops left

/-- The message that a call completes at position `q`. -/
def finished (P : Parser σ) (m : Msg σ) (q : Nat) (s : Scan σ) : Msg σ :=
  { s with
    state := P.start, token := if P.keepToken then s.token else none, pos := q + 1,
    mhdr := m.mhdr.dropLast ++ [m.lastBuf.take (q + 1)],
    mlen := sub32 m.mlen (m.lastBuf.drop (q + 1)).length, result := .ok }

/-- The bytes behind a completed message, as a message of their own. -/
def rest (P : Parser σ) (nbuf : Bytes) : Option (Msg σ) :=
  if nbuf = [] then none else some (.ofRest P nbuf)

theorem msgParseBytes_stop {s : Scan σ} {q : Nat} (parsable : lawful.Parsable m)
    (loops : P.Loops dataSize m (.stop q s)) :
    msgParseBytes P dataSize m =
      .completed (finished P m q s) (rest P (m.lastBuf.drop (q + 1))) := by
  have inside := lawful.stop_inside loops
  have parsed : msgParseBytes P dataSize m = msgParsed P (P.conclude dataSize m (.stop q s)) := by
    simp only [msgParseBytes, lawful.parse_eq parsable.good loops]
    rfl
  have split : msgParsed P (P.conclude dataSize m (.stop q s)) =
      if q + 1 = m.lastBuf.length then .completed (P.conclude dataSize m (.stop q s)) none
      else .completed (finished P m q s) (some (.ofRest P (m.lastBuf.drop (q + 1)))) :=
    rfl
  rw [parsed, split]
  by_cases exact_ : q + 1 = m.lastBuf.length
  · have none_left : m.lastBuf.drop (q + 1) = [] := List.drop_of_length_le exact_.ge
    have whole : m.mhdr.dropLast ++ [m.lastBuf] = m.mhdr := by
      rw [Msg.lastBuf, List.getLastD_eq_getLast?, List.getLast?_eq_some_getLast parsable.chain]
      exact List.dropLast_append_getLast parsable.chain
    rw [if_pos exact_, rest, if_pos none_left]
    simp only [conclude, finished, exact_, List.drop_length, List.take_length, whole,
      List.length_nil, sub32_zero parsable.mlen]
  · have left : m.lastBuf.drop (q + 1) ≠ [] := by
      rw [ne_eq, List.drop_eq_nil_iff]
      omega
    rw [if_neg exact_, rest, if_neg left]

theorem finished_append {s : Scan σ} {q : Nat} (inside : q < m.lastBuf.length) (y : Bytes) :
    finished P (m.append y) q s = finished P m q s := by
  simp only [finished, Msg.lastBuf_append]
  rw [List.take_append_of_le_length inside, List.drop_append_of_le_length inside,
    List.length_append]
  simp only [Msg.append, List.dropLast_concat, sub32_add32]

/-- What a call can do to a message. -/
theorem msgParseBytes_cases (parsable : lawful.Parsable m) :
    (∃ r, msgParseBytes P dataSize m = .pending r ∧ lawful.Waiting r) ∨
      (∃ r, msgParseBytes P dataSize m = .completed r none) ∨
      (∃ r nbuf, msgParseBytes P dataSize m = .completed r (some (.ofRest P nbuf)) ∧
        nbuf.length < m.lastBuf.length) ∨
      msgParseBytes P dataSize m = .failed := by
  obtain ⟨out, loops, _⟩ := lawful.exists_loops parsable.good
  cases out with
  | next q s => exact .inl (lawful.pending_of_next parsable loops)
  | stop q s =>
    have inside := lawful.stop_inside loops
    rw [lawful.msgParseBytes_stop parsable loops, rest]
    split
    · exact .inr (.inl ⟨_, rfl⟩)
    · refine .inr (.inr (.inl ⟨_, _, rfl, ?_⟩))
      rw [List.length_drop]
      omega
  | fail => exact .inr (.inr (.inr (lawful.msgParseBytes_fail parsable loops)))

end Lawful

end Parser

end Nutcracker
