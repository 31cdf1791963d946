import Nutcracker.Redis.Frame
import Nutcracker.Redis.RequestSimulation

/-!
# What an accepted request looks like

Every byte that the reader takes extends a framed request, so the bytes of an
accepted request are a count line and arguments with length lines.  The numerals
are only known modulo `2 ^ 32`, a key may have the empty numeral as its length,
and a command without arguments ends after its name whatever the count says.
These are the only ways in which the frame can differ from what its numerals
denote.
-/

namespace Nutcracker

open Lib

namespace Reading

/-- The bytes that make up a reading. -/
def consumed (s : Reading) : Bytes :=
  match s.phase with
  | .count false => []
  | .count true => byteOf '*' :: s.count
  | .countLf => byteOf '*' :: s.count ++ [CR]
  | .len _ false => frame s.count s.args
  | .len _ true => frame s.count s.args ++ byteOf '$' :: s.num
  | .lenLf _ => frame s.count s.args ++ byteOf '$' :: s.num ++ [CR]
  | .body _ => frame s.count s.args ++ byteOf '$' :: s.num ++ CRLF ++ s.text
  | .bodyLf _ => frame s.count s.args ++ byteOf '$' :: s.num ++ CRLF ++ s.text ++ [CR]

/-- An argument as the parser delimits it: its length is the value of its numeral
modulo `2 ^ 32`. -/
def Delimited (arg : Bytes × Bytes) : Prop :=
  Digits arg.1 ∧ arg.2.length = wordVal arg.1

/-- The type belongs to the command name, which is the first argument. -/
def Named (s : Reading) (slot : ArgSlot) : Prop :=
  (slot = .reqType ∧ s.args = []) ∨
    (slot ≠ .reqType ∧ ∃ arg, s.args.head? = some arg ∧ s.type = redisCommand arg.2 arg.2.length)

/-- What holds of the text read so far. -/
structure Sound (s : Reading) : Prop where
  digits : Digits s.count
  args : ∀ arg ∈ s.args, Delimited arg
  phase : match s.phase with
    | .count false => s.args = [] ∧ s.count = []
    | .count true => s.args = []
    | .countLf => s.args = [] ∧ wordVal s.count ≠ 0
    | .len slot false => Named s slot ∧ wordVal s.count ≠ 0
    | .len slot true => Named s slot ∧ Digits s.num
    | .lenLf slot => Named s slot ∧ Digits s.num ∧ s.args.length < wordVal s.count
    | .body slot => Named s slot ∧ Digits s.num ∧ s.args.length < wordVal s.count ∧
        s.text.length ≤ wordVal s.num
    | .bodyLf slot =>
        (slot = .reqType ∧ s.args = [] ∧ s.type = redisCommand s.text s.text.length ∨
          slot ≠ .reqType ∧ Named s slot) ∧
        s.args.length < wordVal s.count ∧ Delimited (s.num, s.text)

/-- What holds of an accepted request. -/
structure Accepted (t : Reading) : Prop where
  digits : Digits t.count
  args : ∀ arg ∈ t.args, Delimited arg
  some_ : wordVal t.count ≠ 0
  named : ∃ arg, t.args.head? = some arg ∧ t.type = redisCommand arg.2 arg.2.length
  complete : redisArgz t.type = false ∧ t.args.length = wordVal t.count ∨
    redisArgz t.type = true ∧ t.args.length = 1

theorem frame_push (s : Reading) :
    frame s.count (s.args ++ [(s.num, s.text)]) =
      frame s.count s.args ++ byteOf '$' :: s.num ++ CRLF ++ s.text ++ CRLF := by
  simp [frame, frameArg]

variable {dataSize : Nat} {s t : Reading} {ch : UInt8}

/-- A route never leads back to the command name. -/
theorem ne_reqType_of_goto {type : MsgType} {narg rnarg : Nat} {slot next : ArgSlot}
    (route : afterSlot type narg rnarg slot = .goto next) : next ≠ .reqType := by
  rintro rfl
  rw [afterSlot_eq] at route
  unfold classRoute Route.require Route.doneOr at route
  grind

/-- A request ends after its last argument, except that a command without arguments
ends after its name. -/
theorem rnarg_of_done {type : MsgType} {narg rnarg : Nat} {slot : ArgSlot}
    (route : afterSlot type narg rnarg slot = .done) :
    redisArgz type = false ∧ rnarg = 0 ∨ redisArgz type = true ∧ slot = .reqType := by
  rw [afterSlot_eq] at route
  rw [redisArgz_eq]
  unfold classRoute Route.require Route.doneOr at route
  grind

/-- The first argument is the command name. -/
theorem Sound.named_push (sound : Sound s) {slot : ArgSlot} (phase : s.phase = .bodyLf slot) :
    ∃ arg, s.push.args.head? = some arg ∧ s.type = redisCommand arg.2 arg.2.length := by
  have atPhase := sound.phase
  simp only [phase] at atPhase
  rcases atPhase.1 with ⟨_, empty, type⟩ | ⟨other, ⟨named, _⟩ | ⟨_, arg, head, type⟩⟩
  · exact ⟨(s.num, s.text), by simp [push, empty], type⟩
  · exact absurd named other
  · exact ⟨arg, by simp [push, head], type⟩

theorem Sound.delimited_push (sound : Sound s) {slot : ArgSlot} (phase : s.phase = .bodyLf slot) :
    ∀ arg ∈ s.push.args, Delimited arg := by
  have atPhase := sound.phase
  simp only [phase] at atPhase
  intro arg member
  rcases List.mem_append.mp member with member | member
  · exact sound.args arg member
  · rw [List.mem_singleton.mp member]
    exact atPhase.2.2

theorem Fed.consumed_eq (fed : Fed dataSize s ch t) (sound : Sound s) :
    t.consumed = s.consumed ++ [ch] := by
  cases fed with
  | star phase => simp [consumed, phase]
  | countDigit phase => simp [consumed, phase]
  | countEnd phase => simp [consumed, phase]
  | countLf phase =>
    have := sound.phase
    simp only [phase] at this
    simp [consumed, phase, frame, this.1]
  | dollar phase => simp [consumed, phase]
  | numDigit phase => simp [consumed, phase]
  | numEnd phase => simp [consumed, phase]
  | lenLf phase => simp [consumed, phase]
  | textByte phase => simp [consumed, phase]
  | textEnd phase => simp [consumed, close, phase]
  | bodyLf phase => simp [consumed, push, frame_push, phase]

theorem Fed.sound (fed : Fed dataSize s ch t) (sound : Sound s) : Sound t := by
  have digits := sound.digits
  have args := sound.args
  have atPhase := sound.phase
  cases fed with
  | star phase =>
    simp only [phase] at atPhase
    exact ⟨by simp, args, atPhase.1⟩
  | countDigit phase digit =>
    simp only [phase] at atPhase
    exact ⟨by simp [digits, digit], args, by simpa [phase] using atPhase⟩
  | countEnd phase positive =>
    simp only [phase] at atPhase
    exact ⟨digits, args, atPhase, positive⟩
  | countLf phase =>
    simp only [phase] at atPhase
    exact ⟨digits, args, .inl ⟨rfl, atPhase.1⟩, atPhase.2⟩
  | dollar phase =>
    simp only [phase] at atPhase
    exact ⟨digits, args, atPhase.1, by simp⟩
  | numDigit phase digit =>
    simp only [phase] at atPhase
    refine ⟨digits, args, ?_⟩
    simp only [phase]
    exact ⟨atPhase.1, by simp [atPhase.2, digit]⟩
  | numEnd phase accepted left =>
    simp only [phase] at atPhase
    simp only [rnarg, phase] at left
    have room : s.args.length < wordVal s.count := by omega
    exact ⟨digits, args, atPhase.1, atPhase.2, room⟩
  | lenLf phase =>
    simp only [phase] at atPhase
    exact ⟨digits, args, atPhase.1, atPhase.2.1, atPhase.2.2, Nat.zero_le _⟩
  | textByte phase room =>
    simp only [phase] at atPhase
    refine ⟨digits, args, ?_⟩
    simp only [phase]
    refine ⟨atPhase.1, atPhase.2.1, atPhase.2.2.1, ?_⟩
    simp only [List.length_append, List.length_singleton]
    omega
  | @textEnd slot phase full accepted =>
    simp only [phase] at atPhase
    obtain ⟨named, numDigits, left, fits⟩ := atPhase
    refine ⟨digits, args, ?_, left, numDigits, Nat.le_antisymm fits full⟩
    rcases named with ⟨rfl, empty⟩ | ⟨other, named⟩
    · exact .inl ⟨rfl, empty, by simp [close]⟩
    · exact .inr ⟨other, .inr ⟨other, by simpa [close, other] using named⟩⟩
  | @bodyLf slot next phase route =>
    refine ⟨digits, sound.delimited_push phase, .inr ⟨ne_reqType_of_goto route, ?_⟩, ?_⟩
    · exact sound.named_push phase
    · simp only [phase] at atPhase
      show wordVal s.count ≠ 0
      omega

/-- What is known of an accepted request. -/
theorem Sound.accepted (sound : Sound s) (fed : feed dataSize s ch = .done t) :
    Accepted t ∧ frame t.count t.args = s.consumed ++ [ch] := by
  obtain ⟨rfl, rfl, slot, phase, route⟩ := done_of_feed fed
  have atPhase := sound.phase
  simp only [phase] at atPhase
  refine ⟨⟨sound.digits, sound.delimited_push phase, ?_, sound.named_push phase, ?_⟩, ?_⟩
  · show wordVal s.count ≠ 0
    omega
  · simp only [push, List.length_append, List.length_singleton]
    rcases rnarg_of_done route with ⟨several, none_⟩ | ⟨single, rfl⟩
    · simp only [rnarg, phase] at none_
      exact .inl ⟨several, by omega⟩
    · right
      rcases atPhase.1 with ⟨_, empty, _⟩ | ⟨other, _⟩
      · exact ⟨single, by simp [empty]⟩
      · exact absurd rfl other
  · simp [push, frame_push, consumed, phase]

/-- A run to acceptance, from a sound reading. -/
theorem Sound.run_done (sound : Sound s) {xs rest : Bytes}
    (done : run (feed dataSize) s xs = .done t rest) :
    ∃ used, xs = used ++ rest ∧ frame t.count t.args = s.consumed ++ used ∧ Accepted t := by
  induction done using run_done_induction with
  | last fed =>
    obtain ⟨accepted, bytes⟩ := sound.accepted fed
    exact ⟨[_], rfl, bytes, accepted⟩
  | more fed _ ih =>
    have step := fed_of_feed fed
    obtain ⟨used, rfl, bytes, accepted⟩ := ih (step.sound sound)
    refine ⟨_ :: used, rfl, ?_, accepted⟩
    rw [bytes, step.consumed_eq sound]
    simp

end Reading

/-! ## The reading of a byte string -/

/-- The bytes are a framed request in which every length line covers as many bytes
as the `uint32_t` value of its numeral says. -/
structure Reads (bytes count : Bytes) (args : List (Bytes × Bytes)) : Prop where
  bytes_eq : bytes = frame count args
  digits : Digits count
  args : ∀ arg ∈ args, Reading.Delimited arg

theorem append_CR_inj {num num' xs ys : Bytes} (digits : Digits num) (digits' : Digits num')
    (same : num ++ CR :: xs = num' ++ CR :: ys) : num = num' ∧ xs = ys := by
  induction num generalizing num' with
  | nil =>
    cases num' with
    | nil => simpa using same
    | cons c num' =>
      simp only [List.nil_append, List.cons_append, List.cons.injEq] at same
      rw [digits_cons, ← same.1, isdigit_CR] at digits'
      exact absurd digits'.1 (by decide)
  | cons c num ih =>
    cases num' with
    | nil =>
      simp only [List.nil_append, List.cons_append, List.cons.injEq] at same
      rw [digits_cons, same.1, isdigit_CR] at digits
      exact absurd digits.1 (by decide)
    | cons c' num' =>
      simp only [List.cons_append, List.cons.injEq] at same
      obtain ⟨rfl, same⟩ := same
      obtain ⟨rfl, rfl⟩ := ih ((digits_cons _ _).mp digits).2 ((digits_cons _ _).mp digits').2 same
      exact ⟨rfl, rfl⟩

theorem frameArg_inj {arg arg' : Bytes × Bytes} {xs ys : Bytes} (delimited : Reading.Delimited arg)
    (delimited' : Reading.Delimited arg') (same : frameArg arg ++ xs = frameArg arg' ++ ys) :
    arg = arg' ∧ xs = ys := by
  obtain ⟨num, text⟩ := arg
  obtain ⟨num', text'⟩ := arg'
  simp only [frameArg, CRLF, List.cons_append, List.append_assoc, List.nil_append,
    List.cons.injEq, true_and] at same
  obtain ⟨rfl, tail⟩ := append_CR_inj delimited.1 delimited'.1 same
  rw [List.cons.injEq] at tail
  obtain ⟨rfl, tail⟩ := List.append_inj tail.2 (delimited.2.trans delimited'.2.symm)
  simpa using tail

theorem flatMap_frameArg_inj {args args' : List (Bytes × Bytes)}
    (delimited : ∀ arg ∈ args, Reading.Delimited arg)
    (delimited' : ∀ arg ∈ args', Reading.Delimited arg)
    (same : args.flatMap frameArg = args'.flatMap frameArg) : args = args' := by
  induction args generalizing args' with
  | nil =>
    cases args' with
    | nil => rfl
    | cons arg' args' => simp [frameArg] at same
  | cons arg args ih =>
    cases args' with
    | nil => simp [frameArg] at same
    | cons arg' args' =>
      rw [List.forall_mem_cons] at delimited delimited'
      rw [List.flatMap_cons, List.flatMap_cons] at same
      obtain ⟨rfl, tail⟩ := frameArg_inj delimited.1 delimited'.1 same
      rw [ih delimited.2 delimited'.2 tail]

/-- A byte string has at most one reading. -/
theorem Reads.unique {bytes count count' : Bytes} {args args' : List (Bytes × Bytes)}
    (reads : Reads bytes count args) (reads' : Reads bytes count' args') :
    count = count' ∧ args = args' := by
  have same := reads.bytes_eq.symm.trans reads'.bytes_eq
  simp only [frame, CRLF, List.cons_append, List.append_assoc, List.nil_append,
    List.cons.injEq, true_and] at same
  obtain ⟨rfl, tail⟩ := append_CR_inj reads.digits reads'.digits same
  exact ⟨rfl, flatMap_frameArg_inj reads.args reads'.args (List.cons.inj tail).2⟩

/-- The numerals of a framed request are not empty and denote its number of
arguments and their lengths. -/
structure Exact (count : Bytes) (args : List (Bytes × Bytes)) : Prop where
  count_ne : count ≠ []
  count_eq : decVal count = args.length
  lengths : ∀ arg ∈ args, arg.1 ≠ [] ∧ decVal arg.1 = arg.2.length

/-- The bytes are `*N` and `N` bulk strings `$L`, with the numerals denoting the
true number of arguments and the true lengths. -/
def FramedExactly (bytes : Bytes) : Prop :=
  ∃ count args, Reads bytes count args ∧ Exact count args

theorem length_le_frame (count : Bytes) {args : List (Bytes × Bytes)} {arg : Bytes × Bytes}
    (member : arg ∈ args) : arg.2.length ≤ (frame count args).length := by
  obtain ⟨before, after, rfl⟩ := List.append_of_mem member
  simp only [frame, frameArg, List.flatMap_append, List.flatMap_cons, List.length_append,
    List.length_cons]
  omega

/-- In a request shorter than `2 ^ 32` bytes exact numerals are also what the parser
computes from them. -/
theorem framedExactly_of_exact {count : Bytes} {args : List (Bytes × Bytes)}
    (digits : Digits count) (argDigits : ∀ arg ∈ args, Digits arg.1) (exact_ : Exact count args)
    (short : (frame count args).length < word32) : FramedExactly (frame count args) := by
  refine ⟨count, args, ⟨rfl, digits, ?_⟩, exact_⟩
  intro arg member
  refine ⟨argDigits arg member, ?_⟩
  have bound := length_le_frame count member
  rw [wordVal, (exact_.lengths arg member).2, Nat.mod_eq_of_lt (by omega)]

/-- No numeral reaches `2 ^ 32`, no length is the empty numeral, and a request whose
command takes no arguments announces only its name. -/
structure PlainNumerals (count : Bytes) (args : List (Bytes × Bytes)) : Prop where
  count_lt : decVal count < word32
  lengths : ∀ arg ∈ args, arg.1 ≠ [] ∧ decVal arg.1 < word32
  alone : ∀ name, args.head? = some name → redisArgz (redisCommand name.2 name.2.length) = true →
    decVal count = 1

theorem Reading.Accepted.exact_iff {t : Reading} (accepted : t.Accepted) :
    Exact t.count t.args ↔ PlainNumerals t.count t.args := by
  have bound : wordVal t.count < word32 := Nat.mod_lt _ (by decide)
  obtain ⟨name, head, type⟩ := accepted.named
  constructor
  · intro exact_
    have fits : t.args.length < word32 := by
      rcases accepted.complete with ⟨_, complete⟩ | ⟨_, single⟩
      · omega
      · rw [single]
        decide
    refine ⟨by rw [exact_.count_eq]; exact fits, ?_, ?_⟩
    · intro arg member
      refine ⟨(exact_.lengths arg member).1, ?_⟩
      rw [(exact_.lengths arg member).2, (accepted.args arg member).2]
      exact Nat.mod_lt _ (by decide)
    · intro name' head' single
      rw [head, Option.some.injEq] at head'
      subst name'
      rw [← type] at single
      rcases accepted.complete with ⟨several, _⟩ | ⟨_, one⟩
      · rw [single] at several
        cases several
      · rw [exact_.count_eq, one]
  · intro plain
    have value : wordVal t.count = decVal t.count := Nat.mod_eq_of_lt plain.count_lt
    refine ⟨?_, ?_, ?_⟩
    · intro empty
      exact accepted.some_ (by rw [empty, wordVal_nil])
    · rcases accepted.complete with ⟨_, complete⟩ | ⟨single, one⟩
      · rw [complete, value]
      · rw [one]
        exact plain.alone name head (by rwa [← type])
    · intro arg member
      obtain ⟨nonempty, short⟩ := plain.lengths arg member
      exact ⟨nonempty, by rw [(accepted.args arg member).2, wordVal, Nat.mod_eq_of_lt short]⟩

/-- The condition on the numerals of the bytes. -/
def PlainRequest (bytes : Bytes) : Prop :=
  ∃ count args, Reads bytes count args ∧ PlainNumerals count args

/-- The bytes that an accepting call has consumed. -/
def consumedBytes (dataSize : Nat) (b : Bytes) : Bytes :=
  b.take (redisParseReq dataSize (.ofBuffer .start b 0)).pos

/-- The consumed bytes of an accepted request have a reading, and it is exact if and
only if its numerals are plain. -/
theorem redisParseReq_framedExactly_iff (dataSize : Nat) (b : Bytes)
    (ok : (redisParseReq dataSize (.ofBuffer .start b 0)).result = .ok) :
    (∃ count args, Reads (consumedBytes dataSize b) count args) ∧
      (FramedExactly (consumedBytes dataSize b) ↔ PlainRequest (consumedBytes dataSize b)) := by
  obtain ⟨t, rest, done⟩ := (redisParseReq_ok_iff dataSize b).mp ok
  obtain ⟨_, pos, _, _⟩ := redisParseReq_of_done dataSize b done
  rw [List.drop_zero] at done
  have start : Reading.Sound {} := ⟨by simp, by simp, rfl, rfl⟩
  obtain ⟨used, rfl, bytes, accepted⟩ := start.run_done done
  have consumed : consumedBytes dataSize (used ++ rest) = used := by
    rw [List.length_append] at pos
    rw [consumedBytes, Nat.add_right_cancel pos, List.take_left]
  rw [consumed]
  have reads : Reads used t.count t.args :=
    ⟨by rw [bytes]; rfl, accepted.digits, accepted.args⟩
  refine ⟨⟨_, _, reads⟩, ?_⟩
  constructor
  · rintro ⟨count, args, reads', exact_⟩
    obtain ⟨rfl, rfl⟩ := reads.unique reads'
    exact ⟨_, _, reads, accepted.exact_iff.mp exact_⟩
  · rintro ⟨count, args, reads', plain⟩
    obtain ⟨rfl, rfl⟩ := reads.unique reads'
    exact ⟨_, _, reads, accepted.exact_iff.mpr plain⟩

/-- `*1 $4 PING`: the numerals are plain and the framing is exact. -/
theorem redisParseReq_framedExactly_iff_ping :
    FramedExactly
      (consumedBytes 464 [42, 49, 13, 10, 36, 52, 13, 10, 80, 73, 78, 71, 13, 10]) := by
  refine (redisParseReq_framedExactly_iff 464 _ (by decide +kernel)).2.mpr ?_
  refine ⟨[49], [([52], [80, 73, 78, 71])], ⟨by decide +kernel, by decide, ?_⟩, ?_⟩
  · simp [Reading.Delimited]
    decide
  · refine ⟨by decide, by decide, ?_⟩
    intro name head _
    decide

/-- `*2 $4 PING` is accepted after its first argument. -/
theorem redisParseReq_ping_not_framed :
    let b : Bytes := [42, 50, 13, 10, 36, 52, 13, 10, 80, 73, 78, 71, 13, 10]
    (redisParseReq 464 (.ofBuffer .start b 0)).result = .ok ∧
      ¬ ∃ count args, consumedBytes 464 b = frame count args ∧ Digits count ∧
        (∀ arg ∈ args, Digits arg.1) ∧ Exact count args := by
  intro b
  have whole : consumedBytes 464 b = b := by decide +kernel
  refine ⟨by decide +kernel, ?_⟩
  rintro ⟨count, args, bytes, digits, argDigits, exact_⟩
  have framed := framedExactly_of_exact digits argDigits exact_ (by rw [← bytes, whole]; decide)
  rw [← bytes, whole] at framed
  obtain ⟨count', args', reads, exact'⟩ := framed
  have pinged : Reads b [50] [([52], [80, 73, 78, 71])] :=
    ⟨by decide, by decide, by simp [Reading.Delimited]; decide⟩
  obtain ⟨rfl, rfl⟩ := pinged.unique reads
  exact absurd exact'.count_eq (by decide)

end Nutcracker
