import Nutcracker.Redis.Reader

/-!
# The redis request parser implements the reader

`Follows` relates the counters, the cursor and the token marker of the parser to
the text of a reading.  Every iteration of the loop keeps it: the states that
consume one byte are compared with the machine byte by byte, the states that pass
over a whole argument with the machine's run over its bytes.
-/

namespace Nutcracker

open Lib Reading

/-- The argument kinds that are kept as a token. -/
def holdsToken (type : MsgType) : ArgSlot → Bool
  | .reqType | .key => true
  | .arg2 => redisArgeval type
  | _ => false

/-- The bytes between the token marker and the cursor are `text`. -/
def TokenText (b : Bytes) (token : Option Nat) (p : Nat) (text : Bytes) : Prop :=
  match token with
  | none => text = []
  | some t => t < p ∧ p ≤ b.length ∧ text = (b.take p).drop t

/-- The parser is inside an argument of which `s.text` has been read. -/
structure InBody (b : Bytes) (r : Scan ReqState) (p : Nat) (s : Reading) (slot : ArgSlot) :
    Prop where
  fits : s.text.length ≤ wordVal s.num
  rlen : r.rlen = if slot = .reqType ∨ slot = .key then wordVal s.num
    else wordVal s.num - s.text.length
  token : if holdsToken r.type slot then TokenText b r.token p s.text else r.token = none

/-- State, token marker and counters of the parser as the phase demands them. -/
def AtPhase (b : Bytes) (r : Scan ReqState) (p : Nat) (s : Reading) : Prop :=
  match s.phase with
  | .count false => (r.state = .start ∨ r.state = .narg) ∧ r.token = none ∧ s.args = []
  | .count true =>
      r.state = .narg ∧ TokenText b r.token p (byteOf '*' :: s.count) ∧
        r.rnarg = wordVal s.count ∧ s.args = []
  | .countLf => r.state = .nargLf ∧ r.token = none
  | .len slot false => r.state = .len slot ∧ r.token = none
  | .len slot true =>
      r.state = .len slot ∧ r.rlen = wordVal s.num ∧ TokenText b r.token p (byteOf '$' :: s.num)
  | .lenLf slot => r.state = .lenLf slot ∧ r.token = none ∧ r.rlen = wordVal s.num
  | .body slot => r.state = .body slot ∧ InBody b r p s slot
  | .bodyLf slot => r.state = .bodyLf slot ∧ r.token = none

/-- The parser, at offset `p` of the mbuf `b` of a chain, has read what `s` says. -/
structure Follows (chain : List Bytes) (b : Bytes) (r : Scan ReqState) (p : Nat)
    (s : Reading) : Prop where
  type : r.type = s.type
  keys : r.keys.map (KeyPos.bytesIn chain) = s.keys
  narg : (∀ opened, s.phase ≠ .count opened) → r.narg = wordVal s.count ∧ r.rnarg = s.rnarg
  phase : AtPhase b r p s

/-- What is left of a finished request. -/
structure Finished (chain : List Bytes) (r : Scan ReqState) (s : Reading) : Prop where
  type : r.type = s.type
  keys : r.keys.map (KeyPos.bytesIn chain) = s.keys

/-- An iteration of the request parser over the mbuf `b` of a chain tracks the machine. -/
abbrev Tracked (dataSize : Nat) (chain : List Bytes) (b : Bytes) :
    Reading → Nat → Flow (Scan ReqState) → Prop :=
  Tracks (feed dataSize) b (Follows chain b) (Finished chain)

/-! ## States that consume one byte -/

section OneByte

variable {dataSize i : Nat} {chain : List Bytes} {b : Bytes} {r : Scan ReqState} {p : Nat}
  {s : Reading} {slot : ArgSlot} {ch : UInt8}

theorem inside_of_drop (here : b.drop p = ch :: b.drop (p + 1)) : p < b.length := by
  by_contra past
  rw [List.drop_of_length_le (Nat.le_of_not_lt past)] at here
  cases here

theorem TokenText.snoc {t : Nat} {text : Bytes} (here : b.drop p = ch :: b.drop (p + 1))
    (marked : TokenText b (some t) p text) : TokenText b (some t) (p + 1) (text ++ [ch]) := by
  obtain ⟨before, _, rfl⟩ := marked
  have inside := inside_of_drop here
  have byte : b.getD p 0 = ch := (List.cons.inj ((drop_eq_cons inside).symm.trans here)).1
  refine ⟨by omega, inside, ?_⟩
  rw [← byte]
  exact (textAt_succ inside before.le).symm

theorem TokenText.opened (here : b.drop p = ch :: b.drop (p + 1)) :
    TokenText b (some p) (p + 1) [ch] := by
  have inside := inside_of_drop here
  have byte : b.getD p 0 = ch := (List.cons.inj ((drop_eq_cons inside).symm.trans here)).1
  refine ⟨Nat.lt_succ_self p, inside, ?_⟩
  have grown : textAt b (p + 1) p = [ch] := by
    rw [textAt_succ inside (Nat.le_refl p), textAt_self, byte, List.nil_append]
  exact grown.symm

/-- A token with text has a marker. -/
theorem TokenText.marker {token : Option Nat} {text : Bytes}
    (marked : TokenText b token p (ch :: text)) :
    ∃ t, token = some t ∧ p = t + 1 + text.length := by
  cases token with
  | none => cases marked
  | some t =>
    obtain ⟨before, inside, text⟩ := marked
    have length := congrArg List.length text
    simp only [List.length_cons, List.length_drop, List.length_take] at length
    exact ⟨t, rfl, by omega⟩

theorem countLine_tracks {opened : Bool} (follows : Follows chain b r p s)
    (here : b.drop p = ch :: b.drop (p + 1)) (phase : s.phase = .count opened) :
    Tracked dataSize chain b s p (countLine i ch r p) := by
  obtain ⟨type, keys, _, atPhase⟩ := follows
  cases opened with
  | false =>
    simp only [AtPhase, phase] at atPhase
    obtain ⟨_, token, args⟩ := atPhase
    by_cases star : ch = byteOf '*'
    · simp only [countLine, token, star, if_true]
      refine .more (t := { s with phase := .count true, count := [] }) here ?_ ?_
      · simp [feed, phase, star]
      · subst star
        exact ⟨type, keys, by simp, by simp [AtPhase, args, TokenText.opened here]⟩
    · simp only [countLine, token, star, if_false]
      exact .failed here (by simp [feed, phase, star])
  | true =>
    simp only [AtPhase, phase] at atPhase
    obtain ⟨state, marked, rnarg, args⟩ := atPhase
    obtain ⟨t, token, _⟩ := marked.marker
    rw [token] at marked
    by_cases digit : isdigit ch = true
    · simp only [countLine, token, digit, if_true]
      refine .more (t := { s with count := s.count ++ [ch] }) here ?_ ?_
      · simp [feed, phase, digit]
      · refine ⟨type, keys, by simp [phase], ?_⟩
        simp only [AtPhase, phase, rnarg, args, accum_wordVal]
        exact ⟨state, marked.snoc here, trivial, trivial⟩
    · by_cases ends : ch = CR ∧ wordVal s.count ≠ 0
      · obtain ⟨rfl, positive⟩ := ends
        simp only [countLine, token, isdigit_CR, Bool.false_eq_true, if_true, if_false, rnarg,
          positive]
        refine .more (t := { s with phase := .countLf }) here ?_ ?_
        · simp [feed, phase, positive]
        · exact ⟨type, keys, by simp [Reading.rnarg, args], by simp [AtPhase]⟩
      · have stuck : countLine i ch r p = .fail := by
          simp only [countLine, token, digit, rnarg]
          grind
        rw [stuck]
        exact .failed here (by simp [feed, phase, digit, ends])

theorem lenLine_tracks {opened : Bool} (follows : Follows chain b r p s)
    (here : b.drop p = ch :: b.drop (p + 1)) (phase : s.phase = .len slot opened) :
    Tracked dataSize chain b s p (lenLine (lenRefused dataSize slot) (.lenLf slot) ch r p) := by
  obtain ⟨type, keys, counts, atPhase⟩ := follows
  obtain ⟨narg, rnarg⟩ := counts (by simp [phase])
  cases opened with
  | false =>
    simp only [AtPhase, phase] at atPhase
    obtain ⟨state, token⟩ := atPhase
    by_cases dollar : ch = byteOf '$'
    · simp only [lenLine, token, dollar, if_true]
      refine .more (t := { s with phase := .len slot true, num := [] }) here ?_ ?_
      · simp [feed, phase, dollar]
      · subst dollar
        refine ⟨type, keys, fun _ => ⟨narg, ?_⟩, ?_⟩
        · simpa [Reading.rnarg, phase] using rnarg
        · simp [AtPhase, state, TokenText.opened here]
    · simp only [lenLine, token, dollar, if_false]
      exact .failed here (by simp [feed, phase, dollar])
  | true =>
    simp only [AtPhase, phase] at atPhase
    obtain ⟨state, rlen, marked⟩ := atPhase
    obtain ⟨t, token, cursor⟩ := marked.marker
    rw [token] at marked
    by_cases digit : isdigit ch = true
    · simp only [lenLine, token, digit, if_true]
      refine .more (t := { s with num := s.num ++ [ch] }) here ?_ ?_
      · simp [feed, phase, digit]
      · refine ⟨type, keys, fun _ => ⟨narg, ?_⟩, ?_⟩
        · simpa [Reading.rnarg, phase] using rnarg
        · simp only [AtPhase, phase, rlen, accum_wordVal]
          exact ⟨state, trivial, marked.snoc here⟩
    · have refused : lenRefused dataSize slot r (p - t) =
          numRefused dataSize slot s.num := by
        have distance : p - t ≤ 1 ↔ s.num = [] := by
          rw [← List.length_eq_zero_iff]
          omega
        cases slot <;> simp [lenRefused, numRefused, rlen, distance]
      by_cases ends : ch = CR ∧ numRefused dataSize slot s.num = false ∧ s.rnarg ≠ 0
      · obtain ⟨rfl, accepted, positive⟩ := ends
        simp only [lenLine, token, isdigit_CR, Bool.false_eq_true, if_true, if_false, refused,
          accepted, rnarg, positive, or_self]
        refine .more (t := { s with phase := .lenLf slot }) here ?_ ?_
        · simp [feed, phase, accepted, positive]
        · refine ⟨type, keys, fun _ => ⟨narg, ?_⟩, by simp [AtPhase, rlen]⟩
          simp [Reading.rnarg, phase]
      · have stuck : lenLine (lenRefused dataSize slot) (.lenLf slot) ch r p = .fail := by
          simp only [lenLine, token, digit, refused, rnarg]
          grind
        rw [stuck]
        exact .failed here (by simp [feed, phase, digit, ends])

theorem nargLf_tracks (follows : Follows chain b r p s)
    (here : b.drop p = ch :: b.drop (p + 1)) (phase : s.phase = .countLf) :
    Tracked dataSize chain b s p (lineFeed (.len .reqType) ch r p) := by
  obtain ⟨type, keys, counts, atPhase⟩ := follows
  obtain ⟨narg, rnarg⟩ := counts (by simp [phase])
  simp only [AtPhase, phase] at atPhase
  by_cases feeds : ch = LF
  · simp only [lineFeed, feeds, if_true]
    refine .more (t := { s with phase := .len .reqType false }) here ?_ ?_
    · simp [feed, phase, feeds]
    · refine ⟨type, keys, fun _ => ⟨narg, ?_⟩, by simp [AtPhase, atPhase]⟩
      simpa [Reading.rnarg, phase] using rnarg
  · simp only [lineFeed, feeds, if_false]
    exact .failed here (by simp [feed, phase, feeds])

theorem lenLf_tracks (follows : Follows chain b r p s)
    (here : b.drop p = ch :: b.drop (p + 1)) (phase : s.phase = .lenLf slot) :
    Tracked dataSize chain b s p (lineFeed (.body slot) ch r p) := by
  obtain ⟨type, keys, counts, atPhase⟩ := follows
  obtain ⟨narg, rnarg⟩ := counts (by simp [phase])
  simp only [AtPhase, phase] at atPhase
  obtain ⟨_, token, rlen⟩ := atPhase
  by_cases feeds : ch = LF
  · simp only [lineFeed, feeds, if_true]
    refine .more (t := { s with phase := .body slot, text := [] }) here ?_ ?_
    · simp [feed, phase, feeds]
    · refine ⟨type, keys, fun _ => ⟨narg, ?_⟩, ?_⟩
      · simpa [Reading.rnarg, phase] using rnarg
      · refine ⟨rfl, by simp, by simp [rlen], ?_⟩
        simp [TokenText, token]
  · simp only [lineFeed, feeds, if_false]
    exact .failed here (by simp [feed, phase, feeds])

theorem bodyLf_tracks (follows : Follows chain b r p s) (inside : p < b.length)
    (here : b.drop p = ch :: b.drop (p + 1)) (phase : s.phase = .bodyLf slot) :
    Tracked dataSize chain b s p (routed (afterSlot r.type r.narg r.rnarg slot) ch r p) := by
  obtain ⟨type, keys, counts, atPhase⟩ := follows
  obtain ⟨narg, rnarg⟩ := counts (by simp [phase])
  simp only [AtPhase, phase] at atPhase
  rw [show afterSlot r.type r.narg r.rnarg slot =
    afterSlot s.type (wordVal s.count) s.rnarg slot by rw [type, narg, rnarg]]
  by_cases feeds : ch = LF
  · simp only [routed, feeds, if_true]
    cases route : afterSlot s.type (wordVal s.count) s.rnarg slot with
    | error => exact .failed here (by simp [feed, phase, feeds, route])
    | done =>
      refine .done (t := s.push) inside here (by simp [feed, phase, feeds, route]) ?_
      exact ⟨type, keys⟩
    | goto next =>
      refine .more (t := { s.push with phase := .len next false }) here ?_ ?_
      · simp [feed, phase, feeds, route]
      · refine ⟨type, keys, fun _ => ⟨narg, ?_⟩, by simp [AtPhase, atPhase]⟩
        simp only [rnarg, Reading.rnarg, push, phase, List.length_append, List.length_singleton]
        omega
  · simp only [routed, feeds, if_false]
    exact .failed here (by simp [feed, phase, feeds])

end OneByte

/-! ## States that pass over an argument -/

section Bodies

variable {dataSize i : Nat} {chain : List Bytes} {b : Bytes} {r : Scan ReqState} {p : Nat}
  {s : Reading} {slot : ArgSlot}

theorem TokenText.start {token : Option Nat} {text : Bytes} (marked : TokenText b token p text) :
    token.getD p ≤ p ∧ text = (b.take p).drop (token.getD p) := by
  cases token with
  | none => simpa [TokenText] using marked
  | some t => exact ⟨marked.1.le, marked.2.2⟩

theorem drop_take_append {t m : Nat} (before : t ≤ p) (after : p ≤ m) (inside : m ≤ b.length) :
    (b.take p).drop t ++ (b.drop p).take (m - p) = (b.take m).drop t := by
  obtain ⟨k, rfl⟩ := Nat.exists_eq_add_of_le after
  rw [List.take_add, Nat.add_sub_cancel_left, List.drop_append_of_le_length]
  simp only [List.length_take]
  omega

theorem take_drop_all (b : Bytes) (p : Nat) : (b.drop p).take (b.length - p) = b.drop p :=
  List.take_of_length_le (by simp)

/-- The position of the carriage return that has to follow the argument. -/
def bodyEnd (p : Nat) (s : Reading) : Nat :=
  p + (wordVal s.num - s.text.length)

/-- The argument under way when the bytes up to `m` have been added. -/
def grown (b : Bytes) (p m : Nat) (s : Reading) : Reading :=
  { s with text := s.text ++ (b.drop p).take (m - p) }

theorem body_suspends (phase : s.phase = .body slot) (fits : s.text.length ≤ wordVal s.num)
    (inside : p < b.length) (short : b.length ≤ bodyEnd p s)
    (follows : Follows chain b r b.length (grown b p b.length s)) :
    Tracked dataSize chain b s p (.next b.length r) := by
  refine ⟨_, follows, ?_⟩
  simp only [grown, take_drop_all]
  unfold bodyEnd at short
  have collected := run_body dataSize s (b.drop p) [] phase
    (by simp only [List.length_drop]; omega)
  simpa using collected

theorem body_reaches (phase : s.phase = .body slot) (fits : s.text.length ≤ wordVal s.num)
    (long : bodyEnd p s < b.length) :
    run (feed dataSize) s (b.drop p) =
      run (feed dataSize) (grown b p (bodyEnd p s) s) (b.drop (bodyEnd p s)) := by
  unfold bodyEnd at long
  have split : b.drop p = (b.drop p).take (bodyEnd p s - p) ++ b.drop (bodyEnd p s) := by
    unfold bodyEnd
    rw [← List.drop_drop, Nat.add_sub_cancel_left, List.take_append_drop]
  conv_lhs => rw [split]
  apply run_body dataSize s _ _ phase
  simp only [List.length_take, List.length_drop, bodyEnd]
  omega

theorem grown_full (fits : s.text.length ≤ wordVal s.num) (long : bodyEnd p s < b.length) :
    (grown b p (bodyEnd p s) s).text.length = wordVal s.num := by
  unfold bodyEnd at long
  simp only [grown, List.length_append, List.length_take, List.length_drop, bodyEnd]
  omega

theorem body_closes (phase : s.phase = .body slot) (fits : s.text.length ≤ wordVal s.num)
    (long : bodyEnd p s < b.length) (ends : b.getD (bodyEnd p s) 0 = CR)
    (accepted : textRefused s.type slot (grown b p (bodyEnd p s) s).text = false)
    (follows : Follows chain b r (bodyEnd p s + 1) ((grown b p (bodyEnd p s) s).close slot)) :
    Tracked dataSize chain b s p (.next (bodyEnd p s + 1) r) := by
  refine ⟨_, follows, ?_⟩
  rw [body_reaches phase fits long, drop_eq_cons long, ends]
  apply run_cons_more
  have full := grown_full fits long
  have same : (grown b p (bodyEnd p s) s).phase = .body slot := phase
  simp only [feed, same]
  rw [if_neg (by rw [full]; exact Nat.lt_irrefl _), if_pos ⟨trivial, accepted⟩]

theorem body_fails (phase : s.phase = .body slot) (fits : s.text.length ≤ wordVal s.num)
    (long : bodyEnd p s < b.length)
    (refused : ¬ (b.getD (bodyEnd p s) 0 = CR ∧
      textRefused s.type slot (grown b p (bodyEnd p s) s).text = false)) :
    Tracked dataSize chain b s p .fail := by
  show run _ _ _ = .fail
  rw [body_reaches phase fits long, drop_eq_cons long]
  apply run_cons_fail
  have full := grown_full fits long
  have same : (grown b p (bodyEnd p s) s).phase = .body slot := phase
  simp only [feed, same]
  rw [if_neg (by rw [full]; exact Nat.lt_irrefl _)]
  exact if_neg refused

/-- The parser has reached the end of the mbuf inside an argument. -/
theorem Follows.suspended (follows : Follows chain b r p s) (token : Option Nat)
    (phase : s.phase = .body slot) (inside : p < b.length) (short : b.length ≤ bodyEnd p s)
    {rlen : Nat}
    (left : rlen = if slot = .reqType ∨ slot = .key then wordVal s.num
      else wordVal s.num - (s.text.length + (b.length - p)))
    (marked : if holdsToken r.type slot then TokenText b token b.length (s.text ++ b.drop p)
      else token = none) :
    Follows chain b { r with token := token, rlen := rlen } b.length (grown b p b.length s) := by
  obtain ⟨type, keys, counts, atPhase⟩ := follows
  obtain ⟨narg, rnarg⟩ := counts (by simp [phase])
  simp only [AtPhase, phase] at atPhase
  obtain ⟨state, fits, _, _⟩ := atPhase
  refine ⟨type, keys, fun _ => ⟨narg, ?_⟩, ?_⟩
  · simpa [Reading.rnarg, grown, phase] using rnarg
  · simp only [AtPhase, grown, phase, take_drop_all]
    refine ⟨state, ?_, ?_, marked⟩
    · unfold bodyEnd at short
      simp only [List.length_append, List.length_drop]
      omega
    · simpa using left

/-- The parser has passed the carriage return after an argument. -/
theorem Follows.closed (follows : Follows chain b r p s) (phase : s.phase = .body slot)
    {r' : Scan ReqState} {q m : Nat} (state : r'.state = .bodyLf slot) (token : r'.token = none)
    (counts : r'.narg = r.narg ∧ r'.rnarg = r.rnarg)
    (type : r'.type = ((grown b p m s).close slot).type)
    (keys : r'.keys.map (KeyPos.bytesIn chain) = ((grown b p m s).close slot).keys) :
    Follows chain b r' q ((grown b p m s).close slot) := by
  obtain ⟨narg, rnarg⟩ := follows.narg (by simp [phase])
  refine ⟨type, keys, fun _ => ⟨counts.1.trans narg, ?_⟩, ⟨state, token⟩⟩
  rw [counts.2, rnarg]
  simp [Reading.rnarg, grown, close, phase]

theorem skipRlen_tracks (follows : Follows chain b r p s) (inside : p < b.length)
    (phase : s.phase = .body slot) (plain : slot = .arg1 ∨ slot = .arg3 ∨ slot = .argn) :
    Tracked dataSize chain b s p (skipRlen (.bodyLf slot) b r p) := by
  have atPhase := follows.phase
  simp only [AtPhase, phase] at atPhase
  obtain ⟨_, fits, rlen, token⟩ := atPhase
  have named : slot ≠ .reqType ∧ slot ≠ .key := by
    rcases plain with rfl | rfl | rfl <;> simp
  have untokened : holdsToken r.type slot = false := by
    rcases plain with rfl | rfl | rfl <;> rfl
  simp only [named, untokened, or_self, if_false, Bool.false_eq_true] at rlen token
  have same : p + r.rlen = bodyEnd p s := by rw [rlen, bodyEnd]
  simp only [skipRlen, passOver, same]
  split
  · refine body_suspends phase fits inside ‹_› ?_
    have moved := follows.suspended none phase inside ‹_› rfl (by simp [untokened])
    simpa only [named, or_self, if_false, token, rlen, Nat.sub_sub] using moved
  · have long := Nat.lt_of_not_le ‹_›
    have accepted : textRefused s.type slot (grown b p (bodyEnd p s) s).text = false := by
      rcases plain with rfl | rfl | rfl <;> rfl
    split
    · refine body_closes phase fits long ‹_› accepted
        (follows.closed phase rfl token ⟨rfl, rfl⟩ ?_ ?_)
      · simp [close, named, follows.type, grown]
      · simp [close, named, follows.keys, grown]
    · exact body_fails phase fits long fun both => absurd both.1 ‹_›

/-- The end of a token that started where its marker stands. -/
theorem token_end {t : Nat} (before : t ≤ p) (inside : p < b.length)
    (textEq : s.text = (b.take p).drop t) (fits : s.text.length ≤ wordVal s.num) :
    t + wordVal s.num = bodyEnd p s := by
  have length : s.text.length = p - t := by
    rw [textEq]
    simp only [List.length_drop, List.length_take]
    omega
  unfold bodyEnd
  omega

theorem grown_token {t m : Nat} (before : t ≤ p) (after : p ≤ m) (inside : m ≤ b.length)
    (textEq : s.text = (b.take p).drop t) : (grown b p m s).text = (b.take m).drop t := by
  rw [grown, textEq, drop_take_append before after inside]

theorem token_extends {t : Nat} (before : t ≤ p) (inside : p < b.length)
    (textEq : s.text = (b.take p).drop t) :
    TokenText b (some t) b.length (s.text ++ b.drop p) := by
  refine ⟨by omega, Nat.le_refl _, ?_⟩
  have whole := drop_take_append before inside.le (Nat.le_refl b.length)
  rwa [take_drop_all, ← textEq] at whole

/-- The lookup in the mbuf is decided by the bytes of the name. -/
theorem redisCommand_token {t m : Nat} (before : t ≤ m) (inside : m < b.length)
    (ends : b.getD m 0 = CR) :
    redisCommand (b.drop t) (m - t) =
      redisCommand ((b.take m).drop t) ((b.take m).drop t).length := by
  have length : ((b.take m).drop t).length = m - t := by
    simp only [List.length_drop, List.length_take]
    omega
  have split : b.drop t = (b.take m).drop t ++ CR :: b.drop (m + 1) := by
    rw [← ends, ← drop_eq_cons inside, ← List.drop_append_of_le_length, List.take_append_drop]
    simp only [List.length_take]
    omega
  rw [split, ← length]
  exact redisCommand_append_CR _ _

theorem keyBody_tracks (here : chain.getD i [] = b) (follows : Follows chain b r p s)
    (inside : p < b.length) (phase : s.phase = .body .key) :
    Tracked dataSize chain b s p (keyBody i b r p) := by
  have atPhase := follows.phase
  simp only [AtPhase, phase] at atPhase
  obtain ⟨_, fits, rlen, marked⟩ := atPhase
  simp only [or_true, if_true] at rlen
  obtain ⟨before, textEq⟩ := TokenText.start (by simpa [holdsToken] using marked)
  have same := token_end before inside textEq fits
  rw [← rlen] at same
  simp only [keyBody, same]
  split
  · refine body_suspends phase fits inside ‹_› ?_
    have moved := follows.suspended (some (r.token.getD p)) phase inside ‹_› rfl
      (token_extends before inside textEq)
    simpa only [or_true, if_true, ← rlen] using moved
  · have long := Nat.lt_of_not_le ‹_›
    split
    · refine body_closes phase fits long ‹_› rfl (follows.closed phase rfl rfl ⟨rfl, rfl⟩ ?_ ?_)
      · simp [close, follows.type, grown]
      · have text := grown_token (m := bodyEnd p s) before (Nat.le_add_right _ _) long.le textEq
        simp only [List.map_append, follows.keys, List.map_cons, List.map_nil, KeyPos.bytesIn,
          here, close, if_true, text]
        rfl
    · exact body_fails phase fits long fun both => absurd both.1 ‹_›

theorem reqTypeBody_tracks (follows : Follows chain b r p s)
    (inside : p < b.length) (phase : s.phase = .body .reqType) :
    Tracked dataSize chain b s p (reqTypeBody b r p) := by
  have atPhase := follows.phase
  simp only [AtPhase, phase] at atPhase
  obtain ⟨_, fits, rlen, marked⟩ := atPhase
  simp only [true_or, if_true] at rlen
  obtain ⟨before, textEq⟩ := TokenText.start (by simpa [holdsToken] using marked)
  have same := token_end before inside textEq fits
  rw [← rlen] at same
  simp only [reqTypeBody, same]
  split
  · refine body_suspends phase fits inside ‹_› ?_
    have moved := follows.suspended (some (r.token.getD p)) phase inside ‹_› rfl
      (token_extends before inside textEq)
    simpa only [true_or, if_true, ← rlen] using moved
  · have long := Nat.lt_of_not_le ‹_›
    have after : p ≤ bodyEnd p s := Nat.le_add_right _ _
    have text := grown_token (m := bodyEnd p s) before after long.le textEq
    split
    · have command := redisCommand_token (before.trans after) long ‹_›
      rw [← text] at command
      rw [command]
      split
      · refine body_fails phase fits long fun both => ?_
        simp_all [textRefused]
      · refine body_closes phase fits long ‹_› (by simp_all [textRefused]) ?_
        refine follows.closed phase rfl rfl ⟨rfl, rfl⟩ ?_ ?_
        · simp [close]
        · simp [close, follows.keys, grown]
    · exact body_fails phase fits long fun both => absurd both.1 ‹_›

theorem arg2Body_tracks (follows : Follows chain b r p s)
    (inside : p < b.length) (phase : s.phase = .body .arg2) :
    Tracked dataSize chain b s p (arg2Body b r p) := by
  have atPhase := follows.phase
  simp only [AtPhase, phase] at atPhase
  obtain ⟨_, fits, rlen, marked⟩ := atPhase
  simp only [reduceCtorEq, or_self, if_false] at rlen
  have same : p + r.rlen = bodyEnd p s := by rw [rlen, bodyEnd]
  simp only [arg2Body, same]
  by_cases evals : redisArgeval r.type = true
  · simp only [holdsToken, evals, if_true] at marked
    obtain ⟨before, textEq⟩ := marked.start
    have token : arg2Token r p = some (r.token.getD p) := by
      cases token : r.token <;> simp [arg2Token, evals, token]
    simp only [token, evals, if_true, Option.getD_some]
    split
    · refine body_suspends phase fits inside ‹_› ?_
      have moved := follows.suspended (some (r.token.getD p)) phase inside ‹_› rfl
        (by simpa [holdsToken, evals] using token_extends before inside textEq)
      simpa only [reduceCtorEq, or_self, if_false, rlen, Nat.sub_sub] using moved
    · have long := Nat.lt_of_not_le ‹_›
      have after : p ≤ bodyEnd p s := Nat.le_add_right _ _
      have text := grown_token (m := bodyEnd p s) before after long.le textEq
      rw [← List.drop_take, ← text]
      have empty : bodyEnd p s - r.token.getD p < 1 →
          numKeysRefused (grown b p (bodyEnd p s) s).text = true := by
        intro short
        rw [text, List.drop_of_length_le (by simp only [List.length_take]; omega)]
        rfl
      have refusal : textRefused s.type .arg2 (grown b p (bodyEnd p s) s).text =
          numKeysRefused (grown b p (bodyEnd p s) s).text := by
        simp [textRefused, ← follows.type, evals]
      split
      · split
        · refine body_fails phase fits long fun both => ?_
          rw [refusal] at both
          grind
        · refine body_closes phase fits long ‹_› (by rw [refusal]; grind) ?_
          refine follows.closed phase rfl rfl ⟨rfl, rfl⟩ ?_ ?_
          · simp [close, follows.type, grown]
          · simp [close, follows.keys, grown]
      · exact body_fails phase fits long fun both => absurd both.1 ‹_›
  · simp only [holdsToken, evals, Bool.false_eq_true, if_false] at marked
    have token : arg2Token r p = none := by simp [arg2Token, marked, evals]
    simp only [token, evals, Bool.false_eq_true, if_false]
    split
    · refine body_suspends phase fits inside ‹_› ?_
      have moved := follows.suspended none phase inside ‹_› rfl
        (by simp [holdsToken, evals])
      simpa only [reduceCtorEq, or_self, if_false, rlen, Nat.sub_sub] using moved
    · have long := Nat.lt_of_not_le ‹_›
      split
      · refine body_closes phase fits long ‹_› ?_ ?_
        · simp [textRefused, ← follows.type, evals]
        · refine follows.closed phase rfl rfl ⟨rfl, rfl⟩ ?_ ?_
          · simp [close, follows.type, grown]
          · simp [close, follows.keys, grown]
      · exact body_fails phase fits long fun both => absurd both.1 ‹_›

end Bodies

/-- The loop of the request parser over the mbuf `b` of a chain reads the request
as the machine does. -/
theorem redisParseReqStep_simulates (dataSize : Nat) {i : Nat} (chain : List Bytes) {b : Bytes}
    (here : chain.getD i [] = b) :
    Simulates (feed dataSize) b (redisParseReqStep dataSize i b) (Follows chain b)
      (Finished chain) := by
  intro r p s follows inside
  have next := drop_eq_cons inside
  have atPhase := follows.phase
  cases phase : s.phase with
  | count opened =>
    have state : r.state = .start ∨ r.state = .narg := by
      cases opened <;> simp only [AtPhase, phase] at atPhase
      · exact atPhase.1
      · exact .inr atPhase.1
    rw [step_count state]
    exact countLine_tracks follows next phase
  | countLf =>
    simp only [AtPhase, phase] at atPhase
    rw [step_nargLf atPhase.1]
    exact nargLf_tracks follows next phase
  | len slot opened =>
    have state : r.state = .len slot := by
      cases opened <;> simp only [AtPhase, phase] at atPhase <;> exact atPhase.1
    rw [step_len state]
    exact lenLine_tracks follows next phase
  | lenLf slot =>
    simp only [AtPhase, phase] at atPhase
    rw [step_lenLf atPhase.1]
    exact lenLf_tracks follows next phase
  | body slot =>
    simp only [AtPhase, phase] at atPhase
    rw [step_body atPhase.1]
    cases slot with
    | reqType => exact reqTypeBody_tracks follows inside phase
    | key => exact keyBody_tracks here follows inside phase
    | arg1 => exact skipRlen_tracks follows inside phase (.inl rfl)
    | arg2 => exact arg2Body_tracks follows inside phase
    | arg3 => exact skipRlen_tracks follows inside phase (.inr (.inl rfl))
    | argn => exact skipRlen_tracks follows inside phase (.inr (.inr rfl))
  | bodyLf slot =>
    simp only [AtPhase, phase] at atPhase
    rw [step_bodyLf atPhase.1]
    exact bodyLf_tracks follows inside next phase

/-! ## A request in one buffer -/

def redisReqLawful (dataSize : Nat) : redisReqParser.Lawful dataSize where
  Good := TokenOk
  rank _ _ _ := 0
  productive := redisParseReqStep_productive dataSize
  resumable := redisParseReqStep_resumable dataSize
  stops_here := fun stepEq => (redisParseReqStep_stop stepEq).1
  good_of_none := TokenOk.of_none

section OneBuffer

variable (dataSize : Nat) (b : Bytes) {p : Nat}

private theorem redisParseReq_agrees :
    ∃ out, redisParseReq dataSize (.ofBuffer .start b p) =
        redisReqParser.conclude dataSize (.ofBuffer .start b p) out ∧
      Agrees (feed dataSize) b (Follows [b] b) (Finished [b]) {} p out := by
  refine (redisReqLawful dataSize).parse_agrees (r := .ofBuffer .start b p) (TokenOk.of_none rfl)
    (redisParseReqStep_simulates dataSize [b] rfl) ?_
  exact ⟨rfl, rfl, by simp, ⟨.inl rfl, rfl, rfl⟩⟩

/-- The parser accepts a request in one buffer exactly if the reader does, and then
it has consumed the same bytes and found the same type and keys. -/
theorem redisParseReq_ok_iff :
    (redisParseReq dataSize (.ofBuffer .start b p)).result = .ok ↔
      ∃ t rest, run (feed dataSize) {} (b.drop p) = .done t rest := by
  obtain ⟨out, parsed, agrees⟩ := redisParseReq_agrees dataSize b (p := p)
  rw [parsed, Parser.conclude_ok_iff, agrees.stop_iff]

theorem redisParseReq_of_done {t : Reading} {rest : Bytes}
    (done : run (feed dataSize) {} (b.drop p) = .done t rest) :
    (redisParseReq dataSize (.ofBuffer .start b p)).result = .ok ∧
      (redisParseReq dataSize (.ofBuffer .start b p)).pos + rest.length = b.length ∧
      (redisParseReq dataSize (.ofBuffer .start b p)).type = t.type ∧
      (redisParseReq dataSize (.ofBuffer .start b p)).keyList = t.keys := by
  obtain ⟨out, parsed, agrees⟩ := redisParseReq_agrees dataSize b (p := p)
  obtain ⟨q, r, rfl, finished, length⟩ := agrees.stop_of_done done
  rw [parsed]
  exact ⟨rfl, length, finished.type, finished.keys⟩

end OneBuffer

end Nutcracker
