import Nutcracker.Redis.Frame
import Nutcracker.Redis.RequestSimulation

/-!
# Canonical requests are read back

The canonical encoding of a request is accepted up to its last byte, whatever
follows it, with the type of the command and the keys at the key positions of its
class.
-/

namespace Nutcracker

open Lib

namespace Reading

variable {dataSize : Nat} {s : Reading} {slot : ArgSlot}

/-! ## Requests that are read to the end -/

/-- From `s` the bytes are read as the rest of a request, and `keys` are the keys
found in them. -/
def Yields (dataSize : Nat) (s : Reading) (bytes : Bytes) (keys : List Bytes) : Prop :=
  ∀ xs, ∃ t, run (feed dataSize) s (bytes ++ xs) = .done t xs ∧
    t.type = s.type ∧ t.keys = s.keys ++ keys

/-- The keys that an argument contributes. -/
def slotKeys (slot : ArgSlot) (text : Bytes) : List Bytes :=
  if slot = .key then [text] else []

/-- The argument can be read in the slot. -/
structure Fits (dataSize : Nat) (s : Reading) (slot : ArgSlot) (text : Bytes) : Prop where
  phase : s.phase = .len slot false
  left : s.args.length < wordVal s.count
  named : slot ≠ .reqType
  short : text.length < word32
  key : slot = .key → text.length < dataSize
  numkeys : slot = .arg2 → redisArgeval s.type = true → numKeysRefused text = false

/-- An argument as the canonical encoding has it. -/
def bulk (text : Bytes) : Bytes :=
  frameArg (decimal text.length, text)

theorem Fits.run {text : Bytes} (fits : Fits dataSize s slot text) (xs : Bytes) :
    run (feed dataSize) s (bulk text ++ xs) =
      resume dataSize
        (afterSlot s.type (wordVal s.count) (wordVal s.count - s.args.length - 1) slot)
        (s.took slot (decimal text.length, text)) xs := by
  have value := wordVal_decimal fits.short
  rw [bulk, run_arg fits.phase (digits_decimal _) value.symm]
  · simp [took, push, close, fits.named, rnarg, fits.phase]
  · have := fits.key
    have := fits.named
    cases slot <;> simp_all [numRefused, decimal_ne_nil]
  · have := fits.left
    simp only [rnarg, fits.phase]
    omega
  · have := fits.numkeys
    have := fits.named
    cases slot <;> simp_all [textRefused]

theorem Yields.last {text : Bytes} (fits : Fits dataSize s slot text)
    (route : afterSlot s.type (wordVal s.count) (wordVal s.count - s.args.length - 1) slot =
      .done) : Yields dataSize s (bulk text) (slotKeys slot text) := by
  intro xs
  refine ⟨s.took slot (decimal text.length, text), ?_, ?_, ?_⟩
  · rw [fits.run, route]
    rfl
  · simp [took, push, close, fits.named]
  · by_cases key : slot = .key <;> simp [took, push, close, slotKeys, key]

/-- The reading that continues with `next` after an argument. -/
def then_ (slot : ArgSlot) (text : Bytes) (next : ArgSlot) (s : Reading) : Reading :=
  { s.took slot (decimal text.length, text) with phase := .len next false }

section Then

variable {text : Bytes} {next : ArgSlot}

@[simp]
theorem then_count : (s.then_ slot text next).count = s.count :=
  rfl

@[simp]
theorem then_args_length : (s.then_ slot text next).args.length = s.args.length + 1 := by
  simp [then_, took, push, close]

theorem then_type (named : slot ≠ .reqType) : (s.then_ slot text next).type = s.type := by
  simp [then_, took, push, close, named]

end Then

theorem Yields.cons {text bytes : Bytes} {keys : List Bytes} {next : ArgSlot}
    (fits : Fits dataSize s slot text)
    (route : afterSlot s.type (wordVal s.count) (wordVal s.count - s.args.length - 1) slot =
      .goto next)
    (rest : Yields dataSize (s.then_ slot text next) bytes keys) :
    Yields dataSize s (bulk text ++ bytes) (slotKeys slot text ++ keys) := by
  intro xs
  obtain ⟨t, done, type, keysEq⟩ := rest xs
  refine ⟨t, ?_, ?_, ?_⟩
  · rw [List.append_assoc, fits.run, route]
    exact done
  · simpa [then_, took, push, close, fits.named] using type
  · by_cases key : slot = .key <;>
      simpa [then_, took, push, close, slotKeys, key] using keysEq

end Reading

/-! ## The arguments of each class -/

/-- The argument lists of a class. -/
def ArgClass.Accepts : ArgClass → List Bytes → Prop
  | .argz, args => args = []
  | .arg0, args => args.length = 1
  | .arg1, args => args.length = 2
  | .arg2, args => args.length = 3
  | .arg3, args => args.length = 4
  | .argn, args => 1 ≤ args.length
  | .argx, args => 1 ≤ args.length
  | .argkvx, args => 2 ≤ args.length ∧ args.length % 2 = 0
  | .argeval, _ :: numkeys :: _ :: _ => Digits numkeys ∧ decVal numkeys % word32 ≠ 0
  | .argeval, _ => False

/-- The first, third, fifth, … element of a list. -/
def everyOther : List Bytes → List Bytes
  | [] => []
  | [arg] => [arg]
  | arg :: _ :: args => arg :: everyOther args

/-- The arguments at the key positions of a class. -/
def ArgClass.keyArgs : ArgClass → List Bytes → List Bytes
  | .argz, _ => []
  | .argx, args => args
  | .argkvx, args => everyOther args
  | .argeval, args => (args.drop 2).take 1
  | _, args => args.take 1

namespace Reading

variable {dataSize : Nat} {s : Reading} {slot : ArgSlot} {cls : ArgClass} {text : Bytes}
  {args : List Bytes}

/-- The reading stands before the length line of the first of `args`, which are all
the arguments left of a request of the class. -/
structure Ready (s : Reading) (slot : ArgSlot) (cls : ArgClass) (args : List Bytes) : Prop where
  phase : s.phase = .len slot false
  cls : argClass s.type = some cls
  count : wordVal s.count = s.args.length + args.length
  short : ∀ arg ∈ args, arg.length < word32

namespace Ready

theorem next (ready : Ready s slot cls (text :: args)) (named : slot ≠ .reqType)
    (next : ArgSlot) : Ready (s.then_ slot text next) next cls args where
  phase := rfl
  cls := by rw [then_type named, ready.cls]
  count := by
    rw [then_count, ready.count, then_args_length, List.length_cons]
    omega
  short arg member := ready.short arg (by simp [member])

theorem fits (ready : Ready s slot cls (text :: args)) (named : slot ≠ .reqType)
    (key : slot = .key → text.length < dataSize)
    (numkeys : slot = .arg2 → cls = .argeval → numKeysRefused text = false) :
    Fits dataSize s slot text where
  phase := ready.phase
  left := by
    rw [ready.count, List.length_cons]
    omega
  named := named
  short := ready.short text (by simp)
  key := key
  numkeys second evals := by
    rw [redisArgeval_eq, ready.cls, beq_iff_eq, Option.some.injEq] at evals
    exact numkeys second evals

theorem route (ready : Ready s slot cls (text :: args)) :
    afterSlot s.type (wordVal s.count) (wordVal s.count - s.args.length - 1) slot =
      classRoute (wordVal s.count) args.length (some cls) slot := by
  rw [afterSlot_eq, ready.cls]
  congr 1
  rw [ready.count, List.length_cons]
  omega

/-- One argument, when it leads to the length line of the next. -/
theorem yields_cons (ready : Ready s slot cls (text :: args)) (next : ArgSlot)
    (named : slot ≠ .reqType)
    (key : slot = .key → text.length < dataSize)
    (numkeys : slot = .arg2 → cls = .argeval → numKeysRefused text = false)
    (leads : classRoute (wordVal s.count) args.length (some cls) slot = .goto next)
    {keys : List Bytes}
    (rest : Ready (s.then_ slot text next) next cls args →
      Yields dataSize (s.then_ slot text next) (args.flatMap bulk) keys) :
    Yields dataSize s ((text :: args).flatMap bulk) (slotKeys slot text ++ keys) := by
  rw [List.flatMap_cons]
  exact Yields.cons (ready.fits named key numkeys) (ready.route.trans leads)
    (rest (ready.next named next))

/-- The last argument. -/
theorem yields_last (ready : Ready s slot cls [text]) (named : slot ≠ .reqType)
    (key : slot = .key → text.length < dataSize)
    (numkeys : slot = .arg2 → cls = .argeval → numKeysRefused text = false)
    (leads : classRoute (wordVal s.count) 0 (some cls) slot = .done) :
    Yields dataSize s ([text].flatMap bulk) (slotKeys slot text) := by
  rw [List.flatMap_singleton]
  exact Yields.last (ready.fits named key numkeys) (ready.route.trans leads)

/-- The tail of arguments of a class that takes any number of them. -/
theorem yields_argn (ready : Ready s .argn cls args) (many : cls = .argn ∨ cls = .argeval)
    (nonempty : args ≠ []) : Yields dataSize s (args.flatMap bulk) [] := by
  induction args generalizing s with
  | nil => exact absurd rfl nonempty
  | cons text args ih =>
    cases args with
    | nil =>
      refine ready.yields_last (by simp) (by simp) (by simp) ?_
      rcases many with rfl | rfl <;> rfl
    | cons text' args =>
      refine ready.yields_cons .argn (by simp) (by simp) (by simp) ?_ ?_
      · rcases many with rfl | rfl <;> rfl
      · exact fun ready => ih ready (by simp)

/-- The keys of a class that takes any number of them. -/
theorem yields_argx (ready : Ready s .key .argx args) (nonempty : args ≠ [])
    (keys : ∀ arg ∈ args, arg.length < dataSize) :
    Yields dataSize s (args.flatMap bulk) args := by
  induction args generalizing s with
  | nil => exact absurd rfl nonempty
  | cons text args ih =>
    have short : ArgSlot.key = .key → text.length < dataSize := fun _ => keys text (by simp)
    cases args with
    | nil => exact ready.yields_last (by simp) short (by simp) rfl
    | cons text' args =>
      refine ready.yields_cons .key (by simp) short (by simp) rfl ?_
      intro ready
      exact ih ready (by simp) fun arg member => keys arg (by simp [member])

/-- The pairs of a class that takes keys with values. -/
theorem yields_argkvx (ready : Ready s .key .argkvx args) (odd : wordVal s.count % 2 ≠ 0)
    (even : args.length % 2 = 0) (nonempty : args ≠ [])
    (keys : ∀ arg ∈ everyOther args, arg.length < dataSize) :
    Yields dataSize s (args.flatMap bulk) (everyOther args) := by
  induction args using everyOther.induct generalizing s with
  | case1 => exact absurd rfl nonempty
  | case2 => simp at even
  | case3 key value args ih =>
    have short : ArgSlot.key = .key → key.length < dataSize :=
      fun _ => keys key (by simp [everyOther])
    refine ready.yields_cons .arg1 (by simp) short (by simp)
      (by simp [classRoute, odd, Route.require]) ?_
    intro ready
    cases args with
    | nil => exact ready.yields_last (by simp) (by simp) (by simp) rfl
    | cons key' args =>
      refine ready.yields_cons .key (by simp) (by simp) (by simp) rfl ?_
      intro ready
      simp only [List.length_cons] at even
      refine ih ready odd (by simp only [List.length_cons]; omega) (by simp) ?_
      exact fun arg member => keys arg (by simp [everyOther, member])

end Ready

theorem numKeys_eq {text : Bytes} (digits : Digits text) : numKeys text = some (wordVal text) := by
  have folded : ∀ n, text.foldlM
      (fun nkey ch => if isdigit ch then some (accum nkey ch) else none) n =
        some (text.foldl (accumMod word32) n) := by
    induction text with
    | nil => simp
    | cons c text ih =>
      obtain ⟨digit, digits⟩ := (digits_cons c text).mp digits
      intro n
      simp only [List.foldlM_cons, digit, if_true, List.foldl_cons]
      exact ih digits _
  rw [numKeys, folded]
  exact congrArg some (foldl_accumMod word32 0 text)

namespace Ready

/-- The arguments after the script of `EVAL`. -/
theorem yields_argeval {script numkeys key : Bytes}
    (ready : Ready s .arg1 .argeval (script :: numkeys :: key :: args))
    (digits : Digits numkeys) (positive : wordVal numkeys ≠ 0) (short : key.length < dataSize) :
    Yields dataSize s ((script :: numkeys :: key :: args).flatMap bulk) [key] := by
  have accepted : numKeysRefused numkeys = false := by
    simp [numKeysRefused, numKeys_eq digits, positive]
  refine ready.yields_cons .arg2 (by simp) (by simp) (by simp)
    (by simp [classRoute, Route.require]) ?_
  intro ready
  refine ready.yields_cons .key (by simp) (by simp) (fun _ _ => accepted)
    (by simp [classRoute, Route.require]) ?_
  intro ready
  cases args with
  | nil => exact ready.yields_last (by simp) (fun _ => short) (by simp) rfl
  | cons arg args =>
    refine ready.yields_cons .argn (by simp) (fun _ => short) (by simp) rfl ?_
    exact fun ready => ready.yields_argn (.inr rfl) (by simp)

theorem yields_arg1 {key first : Bytes} (ready : Ready s .key .arg1 [key, first])
    (short : key.length < dataSize) : Yields dataSize s ([key, first].flatMap bulk) [key] := by
  refine ready.yields_cons .arg1 (by simp) (fun _ => short) (by simp) rfl ?_
  exact fun ready => ready.yields_last (by simp) (by simp) (by simp) rfl

theorem yields_arg2 {key first second : Bytes} (ready : Ready s .key .arg2 [key, first, second])
    (short : key.length < dataSize) :
    Yields dataSize s ([key, first, second].flatMap bulk) [key] := by
  refine ready.yields_cons .arg1 (by simp) (fun _ => short) (by simp) rfl ?_
  intro ready
  refine ready.yields_cons .arg2 (by simp) (by simp) (by simp) rfl ?_
  exact fun ready => ready.yields_last (by simp) (by simp) (by simp) rfl

theorem yields_arg3 {key first second third : Bytes}
    (ready : Ready s .key .arg3 [key, first, second, third]) (short : key.length < dataSize) :
    Yields dataSize s ([key, first, second, third].flatMap bulk) [key] := by
  refine ready.yields_cons .arg1 (by simp) (fun _ => short) (by simp) rfl ?_
  intro ready
  refine ready.yields_cons .arg2 (by simp) (by simp) (by simp) rfl ?_
  intro ready
  refine ready.yields_cons .arg3 (by simp) (by simp) (by simp) rfl ?_
  exact fun ready => ready.yields_last (by simp) (by simp) (by simp) rfl

/-- A key followed by any number of arguments. -/
theorem yields_keyArgn {key : Bytes} (ready : Ready s .key .argn (key :: args))
    (short : key.length < dataSize) :
    Yields dataSize s ((key :: args).flatMap bulk) [key] := by
  rcases args with _ | ⟨first, args⟩
  · exact ready.yields_last (by simp) (fun _ => short) (by simp) rfl
  · refine ready.yields_cons .arg1 (by simp) (fun _ => short) (by simp) rfl ?_
    intro ready
    rcases args with _ | ⟨second, args⟩
    · exact ready.yields_last (by simp) (by simp) (by simp) rfl
    · refine ready.yields_cons .argn (by simp) (by simp) (by simp) rfl ?_
      exact fun ready => ready.yields_argn (.inl rfl) (by simp)

/-- The arguments of every class but the one without arguments. -/
theorem yields_class (ready : Ready s (if cls = .argeval then .arg1 else .key) cls args)
    (some_ : cls ≠ .argz) (total : s.args.length = 1) (accepts : cls.Accepts args)
    (keys : ∀ arg ∈ cls.keyArgs args, arg.length < dataSize) :
    Yields dataSize s (args.flatMap bulk) (cls.keyArgs args) := by
  cases cls with
  | argz => exact absurd rfl some_
  | arg0 =>
    obtain ⟨key, rfl⟩ := List.length_eq_one_iff.mp accepts
    exact ready.yields_last (by simp) (fun _ => keys key (by simp [ArgClass.keyArgs]))
      (by simp) rfl
  | arg1 =>
    obtain ⟨key, first, rfl⟩ := List.length_eq_two.mp accepts
    exact ready.yields_arg1 (keys key (by simp [ArgClass.keyArgs]))
  | arg2 =>
    obtain ⟨key, first, second, rfl⟩ := List.length_eq_three.mp accepts
    exact ready.yields_arg2 (keys key (by simp [ArgClass.keyArgs]))
  | arg3 =>
    obtain ⟨key, first, second, third, rfl⟩ : ∃ a b c d, args = [a, b, c, d] := by
      match args, accepts with
      | [a, b, c, d], _ => exact ⟨a, b, c, d, rfl⟩
    exact ready.yields_arg3 (keys key (by simp [ArgClass.keyArgs]))
  | argn =>
    obtain ⟨key, rest, rfl⟩ := List.exists_cons_of_length_pos accepts
    exact ready.yields_keyArgn (keys key (by simp [ArgClass.keyArgs]))
  | argx =>
    exact ready.yields_argx (List.ne_nil_of_length_pos accepts) keys
  | argkvx =>
    obtain ⟨several, even⟩ := accepts
    refine ready.yields_argkvx ?_ even (List.ne_nil_of_length_pos (by omega)) keys
    rw [ready.count, total]
    omega
  | argeval =>
    match args, accepts with
    | script :: numkeys :: key :: rest, ⟨digits, positive⟩ =>
      exact ready.yields_argeval digits positive (keys key (by simp [ArgClass.keyArgs]))

end Ready
end Reading

/-- The canonical encoding of a request. -/
def encodeRequest (args : List Bytes) : Bytes :=
  byteOf '*' :: decimal args.length ++ CRLF ++ args.flatMap Reading.bulk

/-- Every class but the one without arguments takes at least one. -/
theorem ArgClass.Accepts.pos {cls : ArgClass} {args : List Bytes} (accepts : cls.Accepts args)
    (some_ : cls ≠ .argz) : 0 < args.length := by
  cases cls with
  | argz => exact absurd rfl some_
  | argkvx => exact Nat.lt_of_lt_of_le (by decide) accepts.1
  | argeval =>
    match args, accepts with
    | _ :: _ :: _ :: _, _ => simp
  | _ =>
    simp only [ArgClass.Accepts] at accepts
    omega

theorem classRoute_reqType {narg rnarg : Nat} {cls : ArgClass} (some_ : cls ≠ .argz)
    (several : narg ≠ 1) :
    classRoute narg rnarg (some cls) .reqType =
      .goto (if cls = .argeval then .arg1 else .key) := by
  cases cls <;> simp_all [classRoute]

/-- The reader takes the canonical encoding of a request to its end. -/
theorem run_encodeRequest {dataSize : Nat} {name : Bytes} {args : List Bytes} {cls : ArgClass}
    (known : argClass (redisCommand name name.length) = some cls)
    (accepts : cls.Accepts args) (few : args.length + 1 < word32) (short : name.length < word32)
    (lengths : ∀ arg ∈ args, arg.length < word32)
    (keys : ∀ arg ∈ cls.keyArgs args, arg.length < dataSize) (rest : Bytes) :
    ∃ t, run (Reading.feed dataSize) {} (encodeRequest (name :: args) ++ rest) = .done t rest ∧
      t.type = redisCommand name name.length ∧ t.keys = cls.keyArgs args := by
  have total : wordVal (decimal (name :: args).length) = args.length + 1 :=
    wordVal_decimal few
  have value := wordVal_decimal short
  have valid : redisCommand name name.length ≠ .unknown := by
    intro unknown
    rw [unknown] at known
    cases known
  have named : name ≠ [] := by
    rintro rfl
    exact valid rfl
  rw [encodeRequest, List.append_assoc, Reading.run_count (digits_decimal _) (by omega),
    List.flatMap_cons, List.append_assoc, Reading.bulk,
    Reading.run_arg rfl (digits_decimal _) value.symm
      (by simpa [Reading.numRefused, value] using named)
      (by simp only [Reading.rnarg, total]; exact Nat.succ_ne_zero _)
      (by simpa [Reading.textRefused]), afterSlot_eq]
  -- the reading after the command name
  generalize readEq : Reading.took .reqType (decimal name.length, name)
    { phase := .len .reqType false, count := decimal (name :: args).length } = s
  have type : s.type = redisCommand name name.length := by subst s; rfl
  have noKeys : s.keys = [] := by subst s; rfl
  have count : s.count = decimal (name :: args).length := by subst s; rfl
  have one : s.args.length = 1 := by subst s; rfl
  rw [type, known, total]
  by_cases none_ : cls = .argz
  · subst cls
    obtain rfl : args = [] := accepts
    exact ⟨s, rfl, type, noKeys⟩
  · have several := accepts.pos none_
    rw [classRoute_reqType none_ (by omega)]
    have ready : Reading.Ready
        { s with phase := .len (if cls = .argeval then .arg1 else .key) false }
        (if cls = .argeval then .arg1 else .key) cls args :=
      ⟨rfl, by rw [type, known], by rw [count, total, one]; omega, lengths⟩
    obtain ⟨t, done, typeEq, keysEq⟩ := ready.yields_class none_ one accepts keys rest
    exact ⟨t, done, typeEq.trans type, by rw [keysEq, noKeys, List.nil_append]⟩

/-- Every command that is recognised has a class. -/
theorem redisCommandTable_class :
    ∀ entry ∈ redisCommandTable, (argClass entry.2).isSome ∧ entry.1.length < word32 := by
  decide +kernel

/-- The request parser inverts the canonical encoding of requests. -/
theorem redisParseReq_encodeRequest (dataSize : Nat) {name : List Char} {type : MsgType}
    {text : Bytes} (entry : (name, type) ∈ redisCommandTable) (spells : Spells text name) :
    ∃ cls, argClass type = some cls ∧
      ∀ (args : List Bytes) (rest : Bytes), cls.Accepts args →
        args.length + 1 < word32 → (∀ arg ∈ args, arg.length < word32) →
        (∀ key ∈ cls.keyArgs args, key.length < dataSize) →
        let r := redisParseReq dataSize (.ofBuffer .start (encodeRequest (text :: args) ++ rest) 0)
        r.result = .ok ∧ r.pos = (encodeRequest (text :: args)).length ∧ r.type = type ∧
          r.keyList = cls.keyArgs args := by
  obtain ⟨known, shortName⟩ := redisCommandTable_class _ entry
  obtain ⟨cls, known⟩ := Option.isSome_iff_exists.mp known
  refine ⟨cls, known, ?_⟩
  intro args rest accepts few lengths keys
  have command := redisCommand_of_spells entry spells
  have short : text.length < word32 := by
    rw [spells.length_eq]
    exact shortName
  obtain ⟨t, done, typeEq, keysEq⟩ :=
    run_encodeRequest (by rw [command, known]) accepts few short lengths keys rest
  obtain ⟨ok, pos, parsedType, parsedKeys⟩ := redisParseReq_of_done dataSize
    (encodeRequest (text :: args) ++ rest) (p := 0) done
  refine ⟨ok, ?_, ?_, ?_⟩
  · rw [List.length_append] at pos
    exact Nat.add_right_cancel pos
  · rw [parsedType, typeEq, command]
  · rw [parsedKeys, keysEq]

/-- `mSet` with two pairs, one value holding a line end, before another request. -/
theorem redisParseReq_encodeRequest_mset :
    let r := redisParseReq 464
      (.ofBuffer .start
        (encodeRequest [[109, 83, 101, 116], [97], [13, 10], [], [98]] ++ [42]) 0)
    r.result = .ok ∧ r.pos = 42 ∧ r.type = .reqRedisMset ∧ r.keyList = [[97], []] := by
  obtain ⟨cls, known, reads⟩ := redisParseReq_encodeRequest 464
    (show ("mset".toList, .reqRedisMset) ∈ redisCommandTable by decide +kernel)
    (show Spells [109, 83, 101, 116] "mset".toList by simp [Spells]; decide)
  cases known
  exact reads [[97], [13, 10], [], [98]] [42] (by simp [ArgClass.Accepts]) (by decide)
    (by decide) (by decide)

end Nutcracker
