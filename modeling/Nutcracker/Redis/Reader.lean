import Nutcracker.Redis.RequestLoop

/-!
# Reading a redis request byte by byte

The request parser works with counters, a cursor and a token marker.  This file
gives the machine it implements.  Its state is the text read so far: the digits
of the count, the arguments with the numerals announcing their lengths, and the
argument under way.
-/

namespace Nutcracker

open Lib

/-- Which part of a request is read next.  A line is opened by its `*` or `$`. -/
inductive Phase where
  | count (opened : Bool)
  | countLf
  | len (slot : ArgSlot) (opened : Bool)
  | lenLf (slot : ArgSlot)
  | body (slot : ArgSlot)
  | bodyLf (slot : ArgSlot)
  deriving DecidableEq, Repr

/-- A partly read request. -/
structure Reading where
  phase : Phase := .count false
  count : Bytes := []
  args : List (Bytes × Bytes) := []
  num : Bytes := []
  text : Bytes := []
  type : MsgType := .unknown
  keys : List Bytes := []
  deriving DecidableEq, Repr

namespace Reading

/-- The arguments whose length line has not been read yet. -/
def rnarg (s : Reading) : Nat :=
  match s.phase with
  | .lenLf _ | .body _ | .bodyLf _ => wordVal s.count - s.args.length - 1
  | _ => wordVal s.count - s.args.length

/-- The length lines that are refused. -/
def numRefused (dataSize : Nat) : ArgSlot → Bytes → Bool
  | .reqType, num => wordVal num = 0
  | .key, num => dataSize ≤ wordVal num
  | _, num => num = []

/-- The arguments that are refused. -/
def textRefused (type : MsgType) : ArgSlot → Bytes → Bool
  | .reqType, text => redisCommand text text.length = .unknown
  | .arg2, text => redisArgeval type && numKeysRefused text
  | _, _ => false

/-- The argument under way is complete up to its line feed. -/
def close (slot : ArgSlot) (s : Reading) : Reading :=
  { s with
    phase := .bodyLf slot
    type := if slot = .reqType then redisCommand s.text s.text.length else s.type
    keys := if slot = .key then s.keys ++ [s.text] else s.keys }

/-- The argument under way is complete. -/
def push (s : Reading) : Reading :=
  { s with args := s.args ++ [(s.num, s.text)] }

/-- One byte of a request. -/
def feed (dataSize : Nat) (s : Reading) (ch : UInt8) : Verdict Reading :=
  match s.phase with
  | .count false =>
      if ch = byteOf '*' then .more { s with phase := .count true, count := [] } else .fail
  | .count true =>
      if isdigit ch then .more { s with count := s.count ++ [ch] }
      else if ch = CR ∧ wordVal s.count ≠ 0 then .more { s with phase := .countLf }
      else .fail
  | .countLf => if ch = LF then .more { s with phase := .len .reqType false } else .fail
  | .len slot false =>
      if ch = byteOf '$' then .more { s with phase := .len slot true, num := [] } else .fail
  | .len slot true =>
      if isdigit ch then .more { s with num := s.num ++ [ch] }
      else if ch = CR ∧ numRefused dataSize slot s.num = false ∧ s.rnarg ≠ 0 then
        .more { s with phase := .lenLf slot }
      else .fail
  | .lenLf slot => if ch = LF then .more { s with phase := .body slot, text := [] } else .fail
  | .body slot =>
      if s.text.length < wordVal s.num then .more { s with text := s.text ++ [ch] }
      else if ch = CR ∧ textRefused s.type slot s.text = false then .more (s.close slot)
      else .fail
  | .bodyLf slot =>
      if ch = LF then
        match afterSlot s.type (wordVal s.count) s.rnarg slot with
        | .error => .fail
        | .done => .done s.push
        | .goto next => .more { s.push with phase := .len next false }
      else .fail

/-- The bytes of an argument are collected one by one. -/
theorem run_body (dataSize : Nat) {slot : ArgSlot} (s : Reading) (xs ys : Bytes)
    (phase : s.phase = .body slot) (fits : s.text.length + xs.length ≤ wordVal s.num) :
    run (feed dataSize) s (xs ++ ys) =
      run (feed dataSize) { s with text := s.text ++ xs } ys := by
  have collected := run_collect (feed dataSize)
    (fun l => { s with text := s.text ++ l }) xs ys ?_
  · simpa using collected
  · rintro l x r rfl
    simp only [List.length_append, List.length_cons] at fits
    have room : s.text.length + l.length < wordVal s.num := by omega
    simp [feed, phase, room]

/-- What one byte can do to a reading that goes on. -/
inductive Fed (dataSize : Nat) (s : Reading) : UInt8 → Reading → Prop where
  | star : s.phase = .count false →
      Fed dataSize s (byteOf '*') { s with phase := .count true, count := [] }
  | countDigit {ch : UInt8} : s.phase = .count true → isdigit ch = true →
      Fed dataSize s ch { s with count := s.count ++ [ch] }
  | countEnd : s.phase = .count true → wordVal s.count ≠ 0 →
      Fed dataSize s CR { s with phase := .countLf }
  | countLf : s.phase = .countLf → Fed dataSize s LF { s with phase := .len .reqType false }
  | dollar {slot : ArgSlot} : s.phase = .len slot false →
      Fed dataSize s (byteOf '$') { s with phase := .len slot true, num := [] }
  | numDigit {slot : ArgSlot} {ch : UInt8} : s.phase = .len slot true → isdigit ch = true →
      Fed dataSize s ch { s with num := s.num ++ [ch] }
  | numEnd {slot : ArgSlot} : s.phase = .len slot true → numRefused dataSize slot s.num = false →
      s.rnarg ≠ 0 → Fed dataSize s CR { s with phase := .lenLf slot }
  | lenLf {slot : ArgSlot} : s.phase = .lenLf slot →
      Fed dataSize s LF { s with phase := .body slot, text := [] }
  | textByte {slot : ArgSlot} {ch : UInt8} : s.phase = .body slot → s.text.length < wordVal s.num →
      Fed dataSize s ch { s with text := s.text ++ [ch] }
  | textEnd {slot : ArgSlot} : s.phase = .body slot → wordVal s.num ≤ s.text.length →
      textRefused s.type slot s.text = false → Fed dataSize s CR (s.close slot)
  | bodyLf {slot next : ArgSlot} : s.phase = .bodyLf slot →
      afterSlot s.type (wordVal s.count) s.rnarg slot = .goto next →
      Fed dataSize s LF { s.push with phase := .len next false }

variable {dataSize : Nat} {s t : Reading} {ch : UInt8}

theorem fed_of_feed (fed : feed dataSize s ch = .more t) : Fed dataSize s ch t := by
  unfold feed at fed
  split at fed
  case h_1 phase =>
    obtain ⟨rfl, rfl⟩ := Verdict.of_ite_more fed
    exact .star phase
  case h_2 phase =>
    split at fed
    · cases fed
      exact .countDigit phase ‹_›
    · obtain ⟨⟨rfl, positive⟩, rfl⟩ := Verdict.of_ite_more fed
      exact .countEnd phase positive
  case h_3 phase =>
    obtain ⟨rfl, rfl⟩ := Verdict.of_ite_more fed
    exact .countLf phase
  case h_4 slot phase =>
    obtain ⟨rfl, rfl⟩ := Verdict.of_ite_more fed
    exact .dollar phase
  case h_5 slot phase =>
    split at fed
    · cases fed
      exact .numDigit phase ‹_›
    · obtain ⟨⟨rfl, accepted, left⟩, rfl⟩ := Verdict.of_ite_more fed
      exact .numEnd phase accepted left
  case h_6 slot phase =>
    obtain ⟨rfl, rfl⟩ := Verdict.of_ite_more fed
    exact .lenLf phase
  case h_7 slot phase =>
    split at fed
    · cases fed
      exact .textByte phase ‹_›
    · obtain ⟨⟨rfl, accepted⟩, rfl⟩ := Verdict.of_ite_more fed
      exact .textEnd phase (Nat.le_of_not_lt ‹_›) accepted
  case h_8 slot phase =>
    split at fed
    · subst ch
      split at fed
      · cases fed
      · cases fed
      · cases fed
        exact .bodyLf phase ‹_›
    · cases fed

theorem done_of_feed (fed : feed dataSize s ch = .done t) :
    ch = LF ∧ t = s.push ∧ ∃ slot, s.phase = .bodyLf slot ∧
      afterSlot s.type (wordVal s.count) s.rnarg slot = .done := by
  unfold feed at fed
  split at fed
  case h_8 slot phase =>
    split at fed
    · split at fed
      · cases fed
      · cases fed
        exact ⟨‹_›, rfl, slot, phase, ‹_›⟩
      · cases fed
    · cases fed
  all_goals grind

end Reading

end Nutcracker
