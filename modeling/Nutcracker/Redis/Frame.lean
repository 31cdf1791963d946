import Nutcracker.Redis.Reader

/-!
# Framed requests

The wire format of a request, with the numerals left open: a count line followed
by arguments, each announced by a length line.  A reader at a length line takes
one framed argument and goes on where the class of the command leads it.
-/

namespace Nutcracker

open Lib

/-- `$<num> CR LF <text> CR LF`. -/
def frameArg (arg : Bytes × Bytes) : Bytes :=
  byteOf '$' :: arg.1 ++ CRLF ++ arg.2 ++ CRLF

/-- `*<count> CR LF` followed by the arguments. -/
def frame (count : Bytes) (args : List (Bytes × Bytes)) : Bytes :=
  byteOf '*' :: count ++ CRLF ++ args.flatMap frameArg

namespace Reading

/-- The reading after one more argument. -/
def took (slot : ArgSlot) (arg : Bytes × Bytes) (s : Reading) : Reading :=
  (close slot { s with num := arg.1, text := arg.2 }).push

/-- Go on after an argument. -/
def resume (dataSize : Nat) (route : Route) (s : Reading) (xs : Bytes) : Outcome Reading UInt8 :=
  match route with
  | .error => .fail
  | .done => .done s xs
  | .goto next => run (feed dataSize) { s with phase := .len next false } xs

variable {dataSize : Nat} {s : Reading} {slot : ArgSlot}

theorem run_countDigits {count : Bytes} (digits : Digits count) (phase : s.phase = .count true)
    (xs : Bytes) :
    run (feed dataSize) s (count ++ xs) =
      run (feed dataSize) { s with count := s.count ++ count } xs := by
  have collected := run_collect (feed dataSize)
    (fun l => { s with count := s.count ++ l }) count xs ?_
  · simpa using collected
  · rintro l c r rfl
    simp [feed, phase, digits c (by simp)]

theorem run_numDigits {num : Bytes} (digits : Digits num) (phase : s.phase = .len slot true)
    (xs : Bytes) :
    run (feed dataSize) s (num ++ xs) =
      run (feed dataSize) { s with num := s.num ++ num } xs := by
  have collected := run_collect (feed dataSize)
    (fun l => { s with num := s.num ++ l }) num xs ?_
  · simpa using collected
  · rintro l c r rfl
    simp [feed, phase, digits c (by simp)]

/-- The count line. -/
theorem run_count {count : Bytes} (digits : Digits count) (positive : wordVal count ≠ 0)
    (xs : Bytes) :
    run (feed dataSize) {} (byteOf '*' :: count ++ CRLF ++ xs) =
      run (feed dataSize) { phase := .len .reqType false, count := count } xs := by
  simp only [List.cons_append, List.append_assoc, CRLF, List.nil_append]
  rw [run_cons_more (t := { phase := .count true }) (by simp [feed]),
    run_countDigits digits rfl,
    run_cons_more (t := { phase := .countLf, count := count }) (by simp [feed, positive]),
    run_cons_more (t := { phase := .len .reqType false, count := count }) (by simp [feed])]

/-- The line feed after an argument. -/
theorem run_bodyLf (phase : s.phase = .bodyLf slot) (xs : Bytes) :
    run (feed dataSize) s (LF :: xs) =
      resume dataSize (afterSlot s.type (wordVal s.count) s.rnarg slot) s.push xs := by
  cases route : afterSlot s.type (wordVal s.count) s.rnarg slot with
  | error => exact run_cons_fail (by simp [feed, phase, route])
  | done => exact run_cons_done (by simp [feed, phase, route])
  | goto next => exact run_cons_more (by simp [feed, phase, route])

/-- One argument, from its length line to its line feed. -/
theorem run_arg {arg : Bytes × Bytes} (phase : s.phase = .len slot false)
    (digits : Digits arg.1) (length : arg.2.length = wordVal arg.1)
    (accepted : numRefused dataSize slot arg.1 = false) (left : s.rnarg ≠ 0)
    (valid : textRefused s.type slot arg.2 = false) (xs : Bytes) :
    run (feed dataSize) s (frameArg arg ++ xs) =
      resume dataSize
        (afterSlot (s.took slot arg).type (wordVal s.count) (s.rnarg - 1) slot)
        (s.took slot arg) xs := by
  obtain ⟨num, text⟩ := arg
  simp only [frameArg, List.cons_append, List.append_assoc, CRLF, List.nil_append] at *
  have left' : wordVal s.count - s.args.length ≠ 0 := by simpa [rnarg, phase] using left
  rw [run_cons_more (t := { s with phase := .len slot true, num := [] })
      (by simp [feed, phase]),
    run_numDigits digits rfl,
    run_cons_more (t := { s with phase := .lenLf slot, num := num })
      (by simp [feed, accepted, rnarg, left']),
    run_cons_more (t := { s with phase := .body slot, num := num, text := [] })
      (by simp [feed]),
    run_body dataSize _ text _ rfl (by simp [length]),
    run_cons_more (t := close slot { s with num := num, text := text })
      (by simp [feed, close, length, valid])]
  rw [run_bodyLf rfl]
  simp [took, push, rnarg, close, phase]

end Reading

end Nutcracker
