import Nutcracker.Lib.Paging
import Nutcracker.Redis.Framing

/-!
# Reading a request across mbufs

A request that is received in mbufs of a fixed size is read as one byte string, except
that a token may be cut: then its bytes are moved to a fresh mbuf and read again from
there.  This file puts the mbufs into the reader.  Its state is the reading that the
parser resumes from, the bytes it will read again, and the number of bytes in the last
mbuf.

Reading a token again is harmless where the parser has not changed its counters since
the start of the token.  In `SW_ARG2` it has: what was read of the argument is already
subtracted from `rlen`.
-/

namespace Nutcracker

open Lib

namespace Reading

/-- The bytes from the token marker on. -/
def tokenText (s : Reading) : Bytes :=
  match s.phase with
  | .count true => byteOf '*' :: s.count
  | .len _ true => byteOf '$' :: s.num
  | .body slot => if holdsToken s.type slot then s.text else []
  | _ => []

/-- The reading of an argument that is started anew, although what was read of it has
been subtracted from its length. -/
def restarted (s : Reading) : Reading :=
  { s with num := decimal (wordVal s.num - s.text.length), text := [] }

theorem wordVal_restarted (s : Reading) :
    wordVal s.restarted.num = wordVal s.num - s.text.length :=
  wordVal_decimal ((Nat.sub_le _ _).trans_lt (wordVal_lt _))

/-- The reading from which the token is read again. -/
def rewound (s : Reading) : Reading :=
  match s.phase with
  | .count true => { s with phase := .count false }
  | .len slot true => { s with phase := .len slot false }
  | .body .arg2 => s.restarted
  | .body _ => { s with text := [] }
  | _ => s

/-- The reader with the tokens of the parser. -/
abbrev reader (dataSize : Nat) : Reader Reading UInt8 where
  feed := feed dataSize
  held := tokenText
  rewound := rewound

end Reading

namespace Placed

open Reader Reading

/-- One byte of a request that is received in mbufs. -/
abbrev feed (dataSize : Nat) : Placed Reading UInt8 → UInt8 → Verdict (Placed Reading UInt8) :=
  (reader dataSize).place dataSize

variable {dataSize : Nat} {s s' t : Reading} {ch : UInt8} {o : Nat}

/-- The count line. -/
theorem run_count (positive : 0 < dataSize) {count : Bytes} (digits : Digits count)
    (some_ : wordVal count ≠ 0) (short : count.length + 1 < dataSize) (xs : Bytes) :
    run (feed dataSize) ⟨{}, [], 0⟩ (byteOf '*' :: count ++ CRLF ++ xs) =
      run (feed dataSize)
        ⟨{ phase := .len .reqType false, count := count }, [],
          (tokenEnd dataSize 0 (count.length + 1) + 2) % dataSize⟩ xs := by
  have closes : Reading.feed dataSize { phase := .count true, count := count } CR =
      .more { phase := .countLf, count := count } := by
    simp [Reading.feed, some_]
  refine (reader dataSize).run_line positive (fun l => { phase := .count true, count := l }) short
    ?_ ?_ ?_ ?_
    closes ?_ rfl rfl xs
  · simp [Reading.feed]
  · rintro l x r rfl
    simp [Reading.feed, digits x (by simp)]
  · intro l
    rfl
  · intro l
    simp [Reading.feed, Reading.rewound]
  · simp [Reading.feed]

/-! ## One argument -/

section Argument

variable {slot : ArgSlot} {num text : Bytes} (inside : o < dataSize)
include inside

/-- A length line. -/
theorem run_lenLine (phase : s.phase = .len slot false) (digits : Digits num)
    (accepted : numRefused dataSize slot num = false) (left : s.rnarg ≠ 0)
    (short : num.length + 1 < dataSize) (xs : Bytes) :
    run (feed dataSize) ⟨s, [], o⟩ (byteOf '$' :: num ++ CRLF ++ xs) =
      run (feed dataSize)
        ⟨{ s with phase := .body slot, num := num, text := [] }, [],
          (tokenEnd dataSize o (num.length + 1) + 2) % dataSize⟩ xs := by
  have left' : wordVal s.count - s.args.length ≠ 0 := by simpa [rnarg, phase] using left
  have closes : Reading.feed dataSize { s with phase := .len slot true, num := num } CR =
      .more { s with phase := .lenLf slot, num := num } := by
    simp [Reading.feed, accepted, rnarg, left']
  refine (reader dataSize).run_line inside (fun l => { s with phase := .len slot true, num := l })
    short ?_ ?_ ?_ ?_
    closes ?_ rfl ?_ xs
  · simp [Reading.feed, phase]
  · rintro l x r rfl
    simp [Reading.feed, digits x (by simp)]
  · intro l
    rfl
  · intro l
    simp [Reading.feed, Reading.rewound]
  · simp [Reading.feed]
  · simp [tokenText]

/-- The bytes of an argument that is a token, with the carriage return. -/
theorem run_tokenBody (phase : s.phase = .body slot) (empty : s.text = [])
    (token : slot = .reqType ∨ slot = .key) (length : text.length = wordVal s.num)
    (valid : textRefused s.type slot text = false) (short : text.length < dataSize)
    (xs : Bytes) :
    run (feed dataSize) ⟨s, [], o⟩ (text ++ CR :: xs) =
      run (feed dataSize)
        ⟨close slot { s with text := text }, [],
          (tokenEnd dataSize o text.length + 1) % dataSize⟩ xs := by
  have start : ({ s with text := [] } : Reading) = s := by rw [← empty]
  have holds : holdsToken s.type slot = true := by
    rcases token with rfl | rfl <;> rfl
  have closes : Reading.feed dataSize { s with text := text } CR =
      .more (close slot { s with text := text }) := by
    simp [Reading.feed, phase, length, valid]
  have same := (reader dataSize).run_token inside (fun l => { s with text := l }) text xs short
    ?_ ?_ ?_ closes rfl
  · simpa [start] using same
  · intro l x r split
    have room : l.length < wordVal s.num := by
      rw [← length, split]
      simp
    simp [Reading.feed, phase, room]
  · intro l r split nonempty
    simp [tokenText, phase, holds]
  · intro l r split nonempty
    have fits : l.length ≤ wordVal s.num := by
      rw [← length, split]
      simp
    have rewound : ({ s with text := l } : Reading).rewound = { s with text := [] } := by
      rcases token with rfl | rfl <;> simp [Reading.rewound, phase]
    have collected := run_body dataSize { s with text := [] } l [] phase
      (by simpa using fits)
    change run (Reading.feed dataSize) (Reading.rewound _) l = _
    rw [rewound]
    simpa using collected

/-- The bytes of an argument that is not a token, with the carriage return. -/
theorem run_plainBody (phase : s.phase = .body slot) (empty : s.text = [])
    (plain : holdsToken s.type slot = false) (length : text.length = wordVal s.num)
    (valid : textRefused s.type slot text = false) (xs : Bytes) :
    run (feed dataSize) ⟨s, [], o⟩ (text ++ CR :: xs) =
      run (feed dataSize)
        ⟨close slot { s with text := text }, [], (o + text.length + 1) % dataSize⟩ xs := by
  have start : ({ s with text := [] } : Reading) = s := by rw [← empty]
  have same := (reader dataSize).run_stretch inside (fun l => { s with text := l }) text (CR :: xs)
    ?_ ?_
  · have after : (o + text.length) % dataSize < dataSize := Nat.mod_lt _ (by omega)
    have closes : Reading.feed dataSize { s with text := text } CR =
        .more (close slot { s with text := text }) := by
      simp [Reading.feed, phase, length, valid]
    rw [start, (reader dataSize).run_free after closes rfl] at same
    rw [same, Nat.mod_add_mod]
  · intro l x r split
    have room : l.length < wordVal s.num := by
      rw [← length, split]
      simp
    simp [Reading.feed, phase, room]
  · intro l
    simp [tokenText, phase, plain]

end Argument

/-! ## The numkeys argument -/

/-- How much of the numkeys argument is checked and accepted: all of it, if it fits
into the mbuf it starts in.  An argument that starts at the beginning of an mbuf and
is longer than that goes on at the beginning of other mbufs, and only the part in the
last one is checked. -/
def Kept (dataSize o : Nat) (text : Bytes) : Prop :=
  o + text.length < dataSize ∨
    o = 0 ∧ numKeysRefused (text.drop (text.length / dataSize * dataSize)) = false

theorem foldlM_digits {text : Bytes} {n k : Nat}
    (read : text.foldlM (fun nkey ch => if isdigit ch then some (accum nkey ch) else none) n =
      some k) : Digits text := by
  induction text generalizing n with
  | nil => exact digits_nil
  | cons c text ih =>
    rw [List.foldlM_cons] at read
    by_cases digit : isdigit c = true
    · rw [if_pos digit] at read
      exact (digits_cons c text).mpr ⟨digit, ih read⟩
    · rw [if_neg digit] at read
      cases read

theorem digits_of_not_refused {text : Bytes} (accepted : numKeysRefused text = false) :
    Digits text := by
  unfold numKeysRefused at accepted
  split at accepted
  · cases accepted
  · rename_i read
    exact foldlM_digits read

section NumKeys

variable {text : Bytes} (phase : s.phase = .body .arg2) (eval : redisArgeval s.type = true)
include phase

theorem run_overread {zs : Bytes} (fits : s.text.length ≤ wordVal s.num) (digits : Digits zs)
    (excess : wordVal s.num < s.text.length + zs.length) :
    run (Reading.feed dataSize) s zs = .fail := by
  have cut : wordVal s.num - s.text.length < zs.length := by omega
  have size : (zs.take (wordVal s.num - s.text.length)).length =
      wordVal s.num - s.text.length := by
    rw [List.length_take]
    omega
  rw [← List.take_append_drop (wordVal s.num - s.text.length) zs, drop_eq_cons cut,
    run_body dataSize s _ _ phase (by omega)]
  refine run_cons_fail ?_
  have digit : isdigit (zs.getD (wordVal s.num - s.text.length) 0) = true := by
    rw [List.getD_eq_getElem _ _ cut]
    exact digits _ (List.getElem_mem _)
  have notCR : zs.getD (wordVal s.num - s.text.length) 0 ≠ CR := by
    intro isCR
    rw [isCR, isdigit_CR] at digit
    cases digit
  have full : s.text.length + (wordVal s.num - s.text.length) = wordVal s.num := by omega
  generalize zs.getD (wordVal s.num - s.text.length) 0 = c at notCR
  simp [Reading.feed, phase, size, full, notCR]

/-- If `rlen` is too small for the digits that will be read, the request is refused. -/
theorem run_overrun (eval : redisArgeval s.type = true) {again xs : Bytes} {used : Nat}
    (y : UInt8) (ys : Bytes) (fits : s.text.length ≤ wordVal s.num)
    (read : Digits s.text) (digits : Digits (again ++ xs))
    (excess : wordVal s.num < s.text.length + again.length + xs.length) :
    run (feed dataSize) ⟨s, again, used⟩ (xs ++ y :: ys) = .fail := by
  induction xs generalizing s again used with
  | nil =>
    refine run_cons_fail ?_
    have failed : run (Reading.feed dataSize) s again = .fail :=
      run_overread phase fits (by simpa using digits) (by simpa using excess)
    exact place_of_fail (run_append_of_fail failed)
  | cons x xs ih =>
    have split : Digits (again ++ [x]) ∧ Digits xs := by
      rw [← digits_append, List.append_assoc]
      exact digits
    rw [List.length_cons] at excess
    by_cases beyond : wordVal s.num < s.text.length + (again ++ [x]).length
    · exact run_cons_fail (place_of_fail (run_overread phase fits split.1 beyond))
    · have size : (again ++ [x]).length = again.length + 1 := by simp
      have collected := run_body dataSize s (again ++ [x]) [] phase (by omega)
      rw [List.append_nil, run_nil] at collected
      rw [List.cons_append, run_cons_more (place_of_pending collected)]
      have length : (s.text ++ (again ++ [x])).length = s.text.length + again.length + 1 := by
        rw [List.length_append, size]
        omega
      have digits' : Digits (s.text ++ (again ++ [x])) := by
        rw [digits_append]
        exact ⟨read, split.1⟩
      have text : (s.text ++ (again ++ [x])) ≠ [] := by simp
      generalize s.text ++ (again ++ [x]) = text' at *
      have token : ({ s with text := text' } : Reading).tokenText = text' := by
        simp [tokenText, phase, holdsToken, eval]
      have rewound : ({ s with text := text' } : Reading).rewound =
          ({ s with text := text' } : Reading).restarted := by
        simp [Reading.rewound, phase]
      have fewer := wordVal_restarted { s with text := text' }
      by_cases space : used + 1 < dataSize
      · rw [settle_space _ space]
        refine ih (s := { s with text := text' }) phase eval ?_ digits' ?_ ?_
        · show text'.length ≤ wordVal s.num
          omega
        · simpa using split.2
        · simp only [List.length_nil]
          omega
      · rw [settle_cut (Nat.le_of_not_lt space) token text rewound]
        split
        · refine ih (s := restarted { s with text := text' }) phase eval
            (Nat.zero_le _) digits_nil ?_ ?_
          · rw [digits_append]
            exact ⟨digits', split.2⟩
          · rw [fewer]
            change wordVal s.num - text'.length < 0 + text'.length + xs.length
            omega
        · refine ih (s := restarted { s with text := text' }) phase eval
            (Nat.zero_le _) digits_nil (by simpa using split.2) ?_
          rw [fewer]
          change wordVal s.num - text'.length < 0 + 0 + xs.length
          omega

/-- Bytes that fit into the mbuf. -/
theorem run_fitting_text (empty : s.text = []) (fits : text.length ≤ wordVal s.num)
    (short : o + text.length < dataSize) (xs : Bytes) :
    run (feed dataSize) ⟨s, [], o⟩ (text ++ xs) =
      run (feed dataSize) ⟨{ s with text := text }, [], o + text.length⟩ xs := by
  have start : ({ s with text := [] } : Reading) = s := by rw [← empty]
  have collected := (reader dataSize).run_fitting (fun l => { s with text := l }) text xs
    short ?_
  · simpa [start] using collected
  · rintro l x r rfl
    rw [List.length_append, List.length_cons] at fits
    have room : l.length < wordVal s.num := by omega
    simp [Reading.feed, phase, room]

/-- An argument that fits into its mbuf together with its carriage return. -/
theorem run_fitting_CR (empty : s.text = []) (length : text.length = wordVal s.num)
    (short : o + text.length < dataSize) (xs : Bytes) :
    run (feed dataSize) ⟨s, [], o⟩ (text ++ CR :: xs) =
      if textRefused s.type .arg2 text then .fail
      else
        run (feed dataSize)
          ⟨close .arg2 { s with text := text }, [], (o + text.length + 1) % dataSize⟩
          xs := by
  rw [run_fitting_text phase empty length.le short]
  by_cases valid : textRefused s.type .arg2 text = true
  · have refused : Reading.feed dataSize { s with text := text } CR = .fail := by
      simp [Reading.feed, phase, length, valid]
    rw [if_pos valid]
    exact run_cons_fail ((reaches_mk _ _).place_fail refused)
  · rw [Bool.not_eq_true] at valid
    have closes : Reading.feed dataSize { s with text := text } CR =
        .more (close .arg2 { s with text := text }) := by
      simp [Reading.feed, phase, length, valid]
    rw [if_neg (by simp [valid]), (reader dataSize).run_free short closes rfl]

include eval in
/-- The mbuf is full before the numkeys argument ends. -/
theorem run_cut (empty : s.text = []) (nonempty : text ≠ [])
    (full : o + text.length = dataSize) (fits : text.length ≤ wordVal s.num) (xs : Bytes) :
    run (feed dataSize) ⟨s, [], o⟩ (text ++ xs) =
      run (feed dataSize)
        (if text.length < dataSize then
          ⟨restarted { s with text := text }, text, text.length⟩
        else ⟨restarted { s with text := text }, [], 0⟩) xs := by
  obtain ⟨first, last, rfl⟩ := List.eq_nil_or_concat text |>.resolve_left nonempty
  rw [List.concat_eq_append] at *
  have length : (first ++ [last]).length = first.length + 1 := by simp
  have room : first.length < wordVal s.num := by omega
  have fed : Reading.feed dataSize { s with text := first } last =
      .more { s with text := first ++ [last] } := by
    simp [Reading.feed, phase, room]
  have token : ({ s with text := first ++ [last] } : Reading).tokenText = first ++ [last] := by
    simp [tokenText, phase, holdsToken, eval]
  have rewound : ({ s with text := first ++ [last] } : Reading).rewound =
      restarted { s with text := first ++ [last] } := by
    simp [Reading.rewound, phase]
  rw [List.append_assoc, run_fitting_text phase empty (by omega) (by omega), List.singleton_append]
  refine run_cons_more (((reaches_mk _ _).place_more fed).trans ?_)
  rw [settle_cut (show dataSize ≤ o + first.length + 1 by omega) token nonempty rewound]

include eval in
/-- The numkeys argument starts inside an mbuf and does not fit into it. -/
theorem run_numkeys_cut (inside : 0 < o ∧ o < dataSize) (empty : s.text = [])
    (digits : Digits text) (length : text.length = wordVal s.num)
    (long : dataSize ≤ o + text.length) (xs : Bytes) :
    run (feed dataSize) ⟨s, [], o⟩ (text ++ CR :: xs) = .fail := by
  have size : (text.take (dataSize - o)).length = dataSize - o := by
    rw [List.length_take]
    omega
  have left : (text.drop (dataSize - o)).length = text.length - (dataSize - o) := List.length_drop
  have nonempty : text.take (dataSize - o) ≠ [] := by
    rw [← List.length_pos_iff, size]
    omega
  conv_lhs => rw [← List.take_append_drop (dataSize - o) text, List.append_assoc]
  rw [run_cut phase eval empty nonempty (by omega) (by omega), if_pos (by omega)]
  have fewer := wordVal_restarted { s with text := text.take (dataSize - o) }
  refine run_overrun (s := restarted { s with text := text.take (dataSize - o) }) phase
    eval CR xs (Nat.zero_le _) digits_nil ?_ ?_
  · rwa [List.take_append_drop]
  · rw [fewer, size, left]
    change wordVal s.num - (dataSize - o) < 0 + (dataSize - o) + _
    omega

include eval in
/-- The numkeys argument at the beginning of an mbuf: its last part is checked. -/
theorem run_numkeys_zero (positive : 0 < dataSize) (empty : s.text = [])
    (length : text.length = wordVal s.num) (xs : Bytes) :
    ∃ num,
      run (feed dataSize) ⟨s, [], 0⟩ (text ++ CR :: xs) =
        if numKeysRefused (text.drop (text.length / dataSize * dataSize)) then .fail
        else
          run (feed dataSize)
            ⟨close .arg2
              { s with num := num, text := text.drop (text.length / dataSize * dataSize) }, [],
              (text.length + 1) % dataSize⟩ xs := by
  induction size : text.length using Nat.strong_induction_on generalizing s text with
  | _ size ih =>
  subst size
  by_cases short : text.length < dataSize
  · refine ⟨s.num, ?_⟩
    rw [run_fitting_CR phase empty length (by omega), Nat.div_eq_of_lt short]
    simp [textRefused, eval]
  · have enough : dataSize ≤ text.length := Nat.le_of_not_lt short
    have pageSize : (text.take dataSize).length = dataSize := by
      rw [List.length_take, Nat.min_eq_left enough]
    have page : text.take dataSize ≠ [] := by
      rw [← List.length_pos_iff, pageSize]
      exact positive
    have left : (text.drop dataSize).length = text.length - dataSize := List.length_drop
    have fewer := wordVal_restarted { s with text := text.take dataSize }
    change _ = wordVal s.num - (text.take dataSize).length at fewer
    obtain ⟨num, later⟩ := ih (s := restarted { s with text := text.take dataSize }) _
      (by rw [left]; omega) phase eval rfl (by rw [left, fewer, pageSize, length]) rfl
    refine ⟨num, ?_⟩
    have pages : text.length / dataSize = (text.length - dataSize) / dataSize + 1 :=
      Nat.div_eq_sub_div positive enough
    have wrapped : (text.length + 1) % dataSize = (text.length - dataSize + 1) % dataSize := by
      rw [← Nat.add_mod_right (text.length - dataSize + 1)]
      congr 1
      omega
    rw [left, List.drop_drop, Nat.add_comm dataSize, ← Nat.succ_mul, ← Nat.add_one, ← pages,
      ← wrapped] at later
    conv_lhs => rw [← List.take_append_drop dataSize text, List.append_assoc]
    rw [run_cut phase eval empty page (by omega) (by omega), if_neg (by omega)]
    exact later

include eval in
/-- The numkeys argument is accepted exactly if it is kept. -/
theorem run_numkeys (inside : o < dataSize) (empty : s.text = [])
    (length : text.length = wordVal s.num) (valid : numKeysRefused text = false) (xs : Bytes) :
    (Kept dataSize o text → ∃ num text' o', o' < dataSize ∧
      run (feed dataSize) ⟨s, [], o⟩ (text ++ CR :: xs) =
        run (feed dataSize) ⟨close .arg2 { s with num := num, text := text' }, [], o'⟩
          xs) ∧
      (¬ Kept dataSize o text → run (feed dataSize) ⟨s, [], o⟩ (text ++ CR :: xs) = .fail) := by
  have positive : 0 < dataSize := by omega
  by_cases fits : o + text.length < dataSize
  · refine ⟨fun _ => ⟨s.num, text, _, Nat.mod_lt (o + text.length + 1) positive, ?_⟩,
      fun cut => absurd (.inl fits) cut⟩
    rw [run_fitting_CR phase empty length fits, if_neg]
    simp [textRefused, valid]
  · by_cases start : o = 0
    · subst start
      obtain ⟨num, checked⟩ := run_numkeys_zero phase eval positive empty length xs
      constructor
      · intro kept
        have accepted := (kept.resolve_left fits).2
        refine ⟨num, text.drop (text.length / dataSize * dataSize), _,
          Nat.mod_lt (text.length + 1) positive, ?_⟩
        rw [checked, if_neg (by simp [accepted])]
      · intro cut
        have refused : numKeysRefused (text.drop (text.length / dataSize * dataSize)) = true := by
          by_contra accepted
          rw [Bool.not_eq_true] at accepted
          exact cut (.inr ⟨rfl, accepted⟩)
        rw [checked, if_pos refused]
    · refine ⟨fun kept => absurd (kept.resolve_left fits).1 start, fun _ => ?_⟩
      exact run_numkeys_cut phase eval ⟨Nat.pos_of_ne_zero start, inside⟩ empty
        (digits_of_not_refused valid) length (Nat.le_of_not_lt fits) xs

end NumKeys

/-! ## Whole requests -/

/-- Go on after an argument. -/
def resume (dataSize : Nat) (route : Route) (s : Reading) (o : Nat) (xs : Bytes) :
    Outcome (Placed Reading UInt8) UInt8 :=
  match route with
  | .error => .fail
  | .done => .done ⟨s, [], o + 1⟩ xs
  | .goto next =>
      run (feed dataSize) ⟨{ s with phase := .len next false }, [], (o + 1) % dataSize⟩ xs

variable {slot : ArgSlot}

/-- The line feed after an argument. -/
theorem run_bodyLf (inside : o < dataSize) (phase : s.phase = .bodyLf slot) (xs : Bytes) :
    run (feed dataSize) ⟨s, [], o⟩ (LF :: xs) =
      resume dataSize (afterSlot s.type (wordVal s.count) s.rnarg slot) s.push o xs := by
  cases route : afterSlot s.type (wordVal s.count) s.rnarg slot with
  | error =>
    refine run_cons_fail ((reaches_mk s o).place_fail ?_)
    simp [Reading.feed, phase, route]
  | done =>
    refine run_cons_done ((reaches_mk s o).place_done ?_)
    simp [Reading.feed, phase, route]
  | goto next =>
    have fed : Reading.feed dataSize s LF = .more { s.push with phase := .len next false } := by
      simp [Reading.feed, phase, route]
    exact (reader dataSize).run_free inside fed rfl xs

/-- The offset of the first byte behind a line that starts at offset `o` with a mark and
the numeral `num`. -/
def lineEnd (dataSize o : Nat) (num : Bytes) : Nat :=
  (tokenEnd dataSize o (num.length + 1) + 2) % dataSize

/-- The offset of the line feed behind an argument whose length line starts at `o`. -/
def argEnd (dataSize : Nat) (slot : ArgSlot) (o : Nat) (arg : Bytes × Bytes) : Nat :=
  if slot = .reqType ∨ slot = .key then
    (tokenEnd dataSize (lineEnd dataSize o arg.1) arg.2.length + 1) % dataSize
  else (lineEnd dataSize o arg.1 + arg.2.length + 1) % dataSize

/-- One argument other than numkeys. -/
theorem run_arg {arg : Bytes × Bytes} (inside : o < dataSize) (phase : s.phase = .len slot false)
    (delimited : Delimited arg)
    (accepted : numRefused dataSize slot arg.1 = false) (left : s.rnarg ≠ 0)
    (valid : textRefused s.type slot arg.2 = false)
    (short : arg.1.length + 1 < dataSize)
    (token : slot = .reqType ∨ slot = .key → arg.2.length < dataSize)
    (ordinary : slot = .arg2 → redisArgeval s.type = false) (xs : Bytes) :
    run (feed dataSize) ⟨s, [], o⟩ (frameArg arg ++ xs) =
      resume dataSize
        (afterSlot (s.took slot arg).type (wordVal s.count) (s.rnarg - 1) slot)
        (s.took slot arg) (argEnd dataSize slot o arg) xs := by
  obtain ⟨num, text⟩ := arg
  obtain ⟨digits, length⟩ := delimited
  have positive : 0 < dataSize := by omega
  have start : lineEnd dataSize o num < dataSize := Nat.mod_lt _ positive
  have line := run_lenLine inside phase digits accepted left short (text ++ CR :: LF :: xs)
  have bytes : frameArg (num, text) ++ xs =
      byteOf '$' :: num ++ CRLF ++ (text ++ CR :: LF :: xs) := by
    simp [frameArg]
  have ends : argEnd dataSize slot o (num, text) < dataSize := by
    unfold argEnd
    split <;> exact Nat.mod_lt _ positive
  have body : run (feed dataSize)
      ⟨{ s with phase := .body slot, num := num, text := [] }, [], lineEnd dataSize o num⟩
      (text ++ CR :: LF :: xs) =
    run (feed dataSize)
      ⟨close slot { s with phase := .body slot, num := num, text := text }, [],
        argEnd dataSize slot o (num, text)⟩ (LF :: xs) := by
    unfold argEnd
    by_cases holds : slot = .reqType ∨ slot = .key
    · rw [if_pos holds]
      exact run_tokenBody (s := { s with phase := .body slot, num := num, text := [] }) start
        rfl rfl
        holds length valid (token holds) _
    · rw [if_neg holds]
      refine run_plainBody (s := { s with phase := .body slot, num := num, text := [] }) start rfl
        rfl ?_ length valid _
      cases slot with
      | reqType => exact absurd (.inl rfl) holds
      | key => exact absurd (.inr rfl) holds
      | arg2 => exact ordinary rfl
      | arg1 | arg3 | argn => rfl
  rw [bytes, line]
  refine body.trans ?_
  rw [run_bodyLf ends rfl]
  simp [took, push, rnarg, close, phase]

end Placed

namespace Reading

variable {dataSize : Nat} {s s' t : Reading} {slot : ArgSlot}

/-- What is known of an argument that is not refused. -/
theorem accepted_of_run {arg : Bytes × Bytes} {xs : Bytes} (phase : s.phase = .len slot false)
    (delimited : Delimited arg) (run_ne : run (feed dataSize) s (frameArg arg ++ xs) ≠ .fail) :
    numRefused dataSize slot arg.1 = false ∧ s.rnarg ≠ 0 ∧
      textRefused s.type slot arg.2 = false := by
  obtain ⟨num, text⟩ := arg
  obtain ⟨digits, length⟩ := delimited
  simp only [frameArg, List.cons_append, List.append_assoc, CRLF, List.nil_append] at *
  rw [run_cons_more (t := { s with phase := .len slot true, num := [] }) (by simp [feed, phase]),
    run_numDigits digits rfl] at run_ne
  have rnarg : ∀ num, ({ s with phase := .len slot true, num := num } : Reading).rnarg =
      s.rnarg := by
    intro num
    simp [Reading.rnarg, phase]
  by_cases line : numRefused dataSize slot num = false ∧ s.rnarg ≠ 0
  · refine ⟨line.1, line.2, ?_⟩
    rw [run_cons_more (t := { s with phase := .lenLf slot, num := num })
        (by simp [feed, rnarg, line]),
      run_cons_more (t := { s with phase := .body slot, num := num, text := [] })
        (by simp [feed]), run_body dataSize _ text _ rfl (by simp [length])] at run_ne
    by_contra refused
    refine run_ne (run_cons_fail ?_)
    simp [feed, length, refused]
  · refine absurd (run_cons_fail ?_) run_ne
    simp only [feed, rnarg, isdigit_CR, Bool.false_eq_true, if_false, true_and, List.nil_append]
    rw [if_neg line]

/-- The phases in which the numeral of the argument under way matters. -/
def readsNum : Phase → Bool
  | .len _ true | .lenLf _ | .body _ | .bodyLf _ => true
  | _ => false

/-- The phases in which the text of the argument under way matters. -/
def readsText : Phase → Bool
  | .body _ | .bodyLf _ => true
  | _ => false

/-- Two readings that differ only in what no longer matters. -/
structure Alike (s s' : Reading) : Prop where
  phase : s'.phase = s.phase
  count : s'.count = s.count
  args : s'.args.length = s.args.length
  type : s'.type = s.type
  keys : s'.keys = s.keys
  num : readsNum s.phase = true → s'.num = s.num
  text : readsText s.phase = true → s'.text = s.text

/-- Verdicts on two alike readings. -/
def AlikeVerdict : Verdict Reading → Verdict Reading → Prop
  | .more s, .more s' => Alike s s'
  | .done t, .done t' => t'.type = t.type ∧ t'.keys = t.keys
  | .fail, .fail => True
  | _, _ => False

theorem Alike.feed (alike : Alike s s') (ch : UInt8) :
    AlikeVerdict (feed dataSize s ch) (feed dataSize s' ch) := by
  have rnarg : s'.rnarg = s.rnarg := by
    simp only [Reading.rnarg, alike.phase, alike.count, alike.args]
  obtain ⟨phase, count, args, num, text, type, keys⟩ := s
  obtain ⟨phase', count', args', num', text', type', keys'⟩ := s'
  obtain ⟨rfl, rfl, length, rfl, rfl, nums, texts⟩ := alike
  dsimp only at *
  have unread {P : Prop} (reads : false = true) : P := absurd reads Bool.false_ne_true
  cases phase' with
  | count opened =>
    cases opened
    · simp only [Reading.feed]
      split
      · exact ⟨rfl, rfl, length, rfl, rfl, unread, unread⟩
      · trivial
    · simp only [Reading.feed]
      split
      · exact ⟨rfl, rfl, length, rfl, rfl, unread, unread⟩
      · split
        · exact ⟨rfl, rfl, length, rfl, rfl, unread, unread⟩
        · trivial
  | countLf =>
    simp only [Reading.feed]
    split
    · exact ⟨rfl, rfl, length, rfl, rfl, unread, unread⟩
    · trivial
  | len slot opened =>
    cases opened
    · simp only [Reading.feed]
      split
      · exact ⟨rfl, rfl, length, rfl, rfl, fun _ => rfl, unread⟩
      · trivial
    · obtain rfl := nums rfl
      simp only [Reading.feed, rnarg]
      split
      · exact ⟨rfl, rfl, length, rfl, rfl, fun _ => rfl, unread⟩
      · split
        · exact ⟨rfl, rfl, length, rfl, rfl, fun _ => rfl, unread⟩
        · trivial
  | lenLf slot =>
    obtain rfl := nums rfl
    simp only [Reading.feed]
    split
    · exact ⟨rfl, rfl, length, rfl, rfl, fun _ => rfl, fun _ => rfl⟩
    · trivial
  | body slot =>
    obtain rfl := nums rfl
    obtain rfl := texts rfl
    simp only [Reading.feed]
    split
    · exact ⟨rfl, rfl, length, rfl, rfl, fun _ => rfl, fun _ => rfl⟩
    · split
      · exact ⟨rfl, rfl, length, rfl, rfl, fun _ => rfl, fun _ => rfl⟩
      · trivial
  | bodyLf slot =>
    simp only [Reading.feed, rnarg]
    split
    · split
      · trivial
      · exact ⟨rfl, rfl⟩
      · exact ⟨rfl, rfl, by simp [push, length], rfl, rfl, unread, unread⟩
    · trivial

/-- Alike readings accept the same requests. -/
theorem Alike.run_done (alike : Alike s s') {xs rest : Bytes}
    (done : run (Reading.feed dataSize) s xs = .done t rest) :
    ∃ t', run (Reading.feed dataSize) s' xs = .done t' rest ∧ t'.type = t.type ∧
      t'.keys = t.keys := by
  induction done using run_done_induction generalizing s' with
  | @last s x fed =>
    have verdicts : AlikeVerdict (Reading.feed dataSize s x) _ := alike.feed x
    cases fed' : Reading.feed dataSize s' x with
    | done next' =>
      rw [fed, fed'] at verdicts
      exact ⟨next', run_cons_done fed', verdicts⟩
    | more _ | fail => simp [fed, fed', AlikeVerdict] at verdicts
  | @more s x _ _ fed _ ih =>
    have verdicts : AlikeVerdict (Reading.feed dataSize s x) _ := alike.feed x
    cases fed' : Reading.feed dataSize s' x with
    | more next' =>
      rw [fed, fed'] at verdicts
      rw [run_cons_more fed']
      exact ih verdicts
    | done _ | fail => simp [fed, fed', AlikeVerdict] at verdicts

end Reading

/-- Behind its numkeys argument a script command has keys and arguments only. -/
theorem goto_of_eval {type : MsgType} {narg rnarg : Nat} {slot next : ArgSlot}
    (eval : redisArgeval type = true) (route : afterSlot type narg rnarg slot = .goto next)
    (behind : slot = .arg2 ∨ slot = .key ∨ slot = .argn) : next = .key ∨ next = .argn := by
  rw [redisArgeval_eq, beq_iff_eq] at eval
  rw [afterSlot_eq, eval] at route
  unfold classRoute Route.require Route.doneOr at route
  grind

namespace Placed

open Reading

variable {dataSize : Nat} {s t : Reading} {slot : ArgSlot} {o : Nat}

/-- The request is accepted, with the type and the keys of `t`, exactly if `kept` holds. -/
def Decides (kept : Prop) (t : Reading) (out : Outcome (Placed Reading UInt8) UInt8) : Prop :=
  (kept → ∃ t' u, out = .done ⟨t', [], u⟩ [] ∧ t'.type = t.type ∧ t'.keys = t.keys) ∧
    (¬ kept → out = .fail)

/-- Arguments among which numkeys is not. -/
theorem run_args {args : List (Bytes × Bytes)} (inside : o < dataSize)
    (phase : s.phase = .len slot false) (named : slot ≠ .reqType)
    (ordinary : redisArgeval s.type = true → slot = .key ∨ slot = .argn)
    (fits : ∀ arg ∈ args, Delimited arg ∧ arg.1.length + 1 < dataSize)
    (done : run (Reading.feed dataSize) s (args.flatMap frameArg) = .done t []) :
    ∃ u, run (feed dataSize) ⟨s, [], o⟩ (args.flatMap frameArg) = .done ⟨t, [], u⟩ [] := by
  induction args generalizing s slot o with
  | nil => cases done
  | cons arg args ih =>
    rw [List.flatMap_cons] at done ⊢
    obtain ⟨here, short⟩ := fits arg (by simp)
    obtain ⟨accepted, left, valid⟩ :=
      accepted_of_run phase here (by rw [done]; simp)
    have token : slot = .reqType ∨ slot = .key → arg.2.length < dataSize := by
      rintro (rfl | rfl)
      · exact absurd rfl named
      · rw [here.2]
        simpa [numRefused] using accepted
    have plain : slot = .arg2 → redisArgeval s.type = false := by
      rintro rfl
      by_contra eval
      rw [Bool.not_eq_false] at eval
      simpa using ordinary eval
    have type : (s.took slot arg).type = s.type := by
      simp [took, push, close, named]
    rw [Reading.run_arg phase here.1 here.2 accepted left valid] at done
    rw [run_arg inside phase here accepted left valid short token plain]
    cases route : afterSlot (s.took slot arg).type (wordVal s.count) (s.rnarg - 1) slot with
    | error => simp [route, Reading.resume] at done
    | done =>
      simp only [route, Reading.resume, Outcome.done.injEq] at done
      obtain ⟨rfl, rest⟩ := done
      exact ⟨_, by rw [resume, rest]⟩
    | goto next =>
      simp only [route, Reading.resume] at done
      refine ih (Nat.mod_lt _ (by omega)) rfl (ne_reqType_of_goto route) ?_
        (fun arg member => fits arg (by simp [member])) done
      intro eval
      rw [type] at route
      refine goto_of_eval (by rw [← type]; exact eval) route (.inr (ordinary ?_))
      rw [← type]
      exact eval

/-- The numkeys argument and what follows it. -/
theorem run_numkeys_args {numkeys : Bytes × Bytes} {args : List (Bytes × Bytes)}
    (inside : o < dataSize) (phase : s.phase = .len .arg2 false)
    (eval : redisArgeval s.type = true)
    (fits : ∀ arg ∈ numkeys :: args, Delimited arg ∧ arg.1.length + 1 < dataSize)
    (done : run (Reading.feed dataSize) s ((numkeys :: args).flatMap frameArg) = .done t []) :
    Decides (Kept dataSize (lineEnd dataSize o numkeys.1) numkeys.2) t
      (run (feed dataSize) ⟨s, [], o⟩ ((numkeys :: args).flatMap frameArg)) := by
  have positive : 0 < dataSize := by omega
  obtain ⟨here, short⟩ := fits numkeys (by simp)
  rw [List.flatMap_cons] at done ⊢
  obtain ⟨accepted, left, valid⟩ :=
    accepted_of_run phase here (by rw [done]; simp)
  obtain ⟨num, text⟩ := numkeys
  have numeral : numKeysRefused text = false := by
    simpa [textRefused, eval] using valid
  rw [Reading.run_arg phase here.1 here.2 accepted left valid] at done
  have bytes : frameArg (num, text) ++ args.flatMap frameArg =
      byteOf '$' :: num ++ CRLF ++ (text ++ CR :: LF :: args.flatMap frameArg) := by
    simp [frameArg]
  have line := run_lenLine inside phase here.1 accepted left short
    (text ++ CR :: LF :: args.flatMap frameArg)
  have start : lineEnd dataSize o num < dataSize := Nat.mod_lt _ positive
  obtain ⟨kept, cut⟩ := run_numkeys (s := { s with phase := .body .arg2, num := num, text := [] })
    rfl eval start rfl here.2 numeral (LF :: args.flatMap frameArg)
  rw [bytes, line]
  refine ⟨?_, cut⟩
  intro whole
  obtain ⟨num', text', o', inside', body⟩ := kept whole
  have sameRoute : afterSlot (s.took .arg2 (num, text)).type (wordVal s.count) (s.rnarg - 1) .arg2 =
      afterSlot s.type (wordVal s.count) (wordVal s.count - s.args.length - 1) .arg2 := by
    simp [took, push, close, rnarg, phase]
  have after := body.trans (run_bodyLf inside' rfl _)
  change _ = resume dataSize (afterSlot s.type (wordVal s.count)
    (wordVal s.count - s.args.length - 1) .arg2) _ o' _ at after
  rw [sameRoute] at done
  cases route : afterSlot s.type (wordVal s.count) (wordVal s.count - s.args.length - 1) .arg2 with
  | error => simp [route, Reading.resume] at done
  | done =>
    simp only [route, Reading.resume, Outcome.done.injEq] at done
    obtain ⟨rfl, rest⟩ := done
    simp only [route, resume, rest] at after
    rw [rest]
    exact ⟨_, _, after, rfl, rfl⟩
  | goto next =>
    simp only [route, Reading.resume] at done
    simp only [route, resume] at after
    -- the readings differ in the numeral and the text of the numkeys argument
    have alike : Alike { s.took .arg2 (num, text) with phase := .len next false }
        { push (close .arg2
          { s with phase := .body .arg2, num := num', text := text' }) with
          phase := .len next false } := by
      have unread {P : Prop} (reads : false = true) : P := absurd reads Bool.false_ne_true
      refine ⟨rfl, rfl, ?_, rfl, rfl, unread, unread⟩
      simp [took, push, close]
    obtain ⟨t', done', type, keys⟩ := alike.run_done done
    obtain ⟨u, finished⟩ := run_args (Nat.mod_lt (o' + 1) positive) rfl
      (ne_reqType_of_goto route) (fun _ => goto_of_eval eval route (.inl rfl))
      (fun arg member => fits arg (by simp [member])) done'
    exact ⟨t', u, after.trans finished, type, keys⟩

/-- The offset at which the numkeys argument of a script command starts. -/
def numKeysOffset (dataSize : Nat) (count : Bytes) (name script : Bytes × Bytes) (num : Bytes) :
    Nat :=
  let nameEnd := argEnd dataSize .reqType (lineEnd dataSize 0 count) name
  let scriptEnd := argEnd dataSize .arg1 ((nameEnd + 1) % dataSize) script
  lineEnd dataSize ((scriptEnd + 1) % dataSize) num

/-- The request is not a script command, or its numkeys argument is kept. -/
def NumKeysKept (dataSize : Nat) (count : Bytes) (args : List (Bytes × Bytes)) : Prop :=
  ∀ name script numkeys rest, args = name :: script :: numkeys :: rest →
    redisArgeval (redisCommand name.2 name.2.length) = true →
    Kept dataSize (numKeysOffset dataSize count name script numkeys.1) numkeys.2

theorem numKeysKept_of_not_eval {count : Bytes} {name : Bytes × Bytes}
    {args : List (Bytes × Bytes)}
    (other : redisArgeval (redisCommand name.2 name.2.length) = false) :
    NumKeysKept dataSize count (name :: args) := by
  intro name' script numkeys rest split eval
  obtain ⟨rfl, _⟩ := List.cons.inj split
  rw [other] at eval
  cases eval

/-- A script command takes its script first. -/
theorem script_of_eval {type : MsgType} {narg rnarg : Nat} {route : Route}
    (eval : redisArgeval type = true) (ok : route ≠ .error)
    (routed : afterSlot type narg rnarg slot = route) :
    (slot = .reqType → route = .goto .arg1) ∧ (slot = .arg1 → route = .goto .arg2) := by
  rw [redisArgeval_eq, beq_iff_eq] at eval
  rw [afterSlot_eq, eval] at routed
  unfold classRoute Route.require at routed
  grind

/-- The arguments of a script command. -/
theorem run_script_args {count : Bytes} {name : Bytes × Bytes} {args : List (Bytes × Bytes)}
    (inside : o < dataSize) (phase : s.phase = .len .arg1 false)
    (eval : redisArgeval s.type = true)
    (fits : ∀ arg ∈ args, Delimited arg ∧ arg.1.length + 1 < dataSize)
    (typed : s.type = redisCommand name.2 name.2.length)
    (offset : o = (argEnd dataSize .reqType (lineEnd dataSize 0 count) name + 1) % dataSize)
    (done : run (Reading.feed dataSize) s (args.flatMap frameArg) = .done t []) :
    Decides (NumKeysKept dataSize count (name :: args)) t
      (run (feed dataSize) ⟨s, [], o⟩ (args.flatMap frameArg)) := by
  cases args with
  | nil => cases done
  | cons script args =>
    obtain ⟨here, short⟩ := fits script (by simp)
    rw [List.flatMap_cons] at done ⊢
    obtain ⟨accepted, left, valid⟩ :=
      accepted_of_run phase here (by rw [done]; simp)
    rw [Reading.run_arg phase here.1 here.2 accepted left valid] at done
    rw [run_arg inside phase here accepted left valid short (by simp) (by simp)]
    have type : (s.took .arg1 script).type = s.type := by
      simp [took, push, close]
    generalize routed : afterSlot (s.took .arg1 script).type (wordVal s.count) (s.rnarg - 1)
      .arg1 = route at done ⊢
    have next : route = .goto .arg2 := by
      refine (script_of_eval (by rw [type]; exact eval) ?_ routed).2 rfl
      rintro rfl
      cases done
    subst next
    simp only [Reading.resume] at done
    simp only [resume]
    cases args with
    | nil => cases done
    | cons numkeys args =>
      have same : NumKeysKept dataSize count (name :: script :: numkeys :: args) ↔
          Kept dataSize (lineEnd dataSize
            ((argEnd dataSize .arg1 o script + 1) % dataSize) numkeys.1) numkeys.2 := by
        constructor
        · intro kept
          rw [offset]
          exact kept name script numkeys args rfl (by rw [← typed]; exact eval)
        · rintro kept _ _ _ _ ⟨⟩ _
          rw [offset] at kept
          exact kept
      rw [same]
      exact run_numkeys_args (Nat.mod_lt _ (by omega)) rfl (by rw [← type] at eval; exact eval)
        (fun arg member => fits arg (by simp [member])) done

/-- A request that is accepted in one piece is accepted in mbufs, with the same type and
keys, exactly if its numkeys argument is kept. -/
theorem run_frame {count : Bytes} {args : List (Bytes × Bytes)} (digits : Digits count)
    (countShort : count.length + 1 < dataSize)
    (fits : ∀ arg ∈ args, Delimited arg ∧ arg.1.length + 1 < dataSize)
    (named : ∀ name ∈ args.head?, name.2.length < dataSize)
    (done : run (Reading.feed dataSize) {} (frame count args) = .done t []) :
    Decides (NumKeysKept dataSize count args) t
      (run (feed dataSize) ⟨{}, [], 0⟩ (frame count args)) := by
  have positive : 0 < dataSize := by omega
  have some_ : wordVal count ≠ 0 := by
    intro zero
    have failed : run (Reading.feed dataSize) {} (frame count args) = .fail := by
      simp only [frame, List.cons_append, List.append_assoc, CRLF, List.nil_append]
      rw [run_cons_more (t := { phase := .count true }) (by simp [Reading.feed]),
        run_countDigits digits rfl]
      exact run_cons_fail (by simp [Reading.feed, zero])
    rw [failed] at done
    cases done
  unfold frame at done ⊢
  rw [Reading.run_count digits some_] at done
  rw [run_count positive digits some_ countShort]
  have start : lineEnd dataSize 0 count < dataSize := Nat.mod_lt _ positive
  cases args with
  | nil => cases done
  | cons name args =>
    obtain ⟨here, short⟩ := fits name (by simp)
    rw [List.flatMap_cons] at done ⊢
    obtain ⟨accepted, left, valid⟩ :=
      accepted_of_run rfl here (by rw [done]; simp)
    rw [Reading.run_arg rfl here.1 here.2 accepted left valid] at done
    have first := run_arg start rfl here accepted left valid short
      (fun _ => named name rfl) (by simp) (args.flatMap frameArg)
    have type : (took .reqType name
        { phase := .len .reqType false, count := count }).type =
        redisCommand name.2 name.2.length := rfl
    change Decides _ t (run (feed dataSize) ⟨_, [], lineEnd dataSize 0 count⟩ _)
    rw [first]
    generalize took .reqType name { phase := .len .reqType false, count := count } = s
      at done first type ⊢
    generalize routed : afterSlot s.type _ _ _ = route at done ⊢
    cases route with
    | error => cases done
    | done =>
      have other : redisArgeval (redisCommand name.2 name.2.length) = false := by
        by_contra eval
        rw [Bool.not_eq_false, ← type] at eval
        cases (script_of_eval eval (by simp) routed).1 rfl
      simp only [Reading.resume, Outcome.done.injEq] at done
      obtain ⟨rfl, rest⟩ := done
      refine ⟨fun _ => ⟨s, _, by rw [resume, rest], rfl, rfl⟩, fun cut => ?_⟩
      exact absurd (numKeysKept_of_not_eval other) cut
    | goto next =>
      have behind := fun arg (member : arg ∈ args) => fits arg (by simp [member])
      simp only [Reading.resume] at done
      simp only [resume]
      by_cases eval : redisArgeval s.type = true
      · have script : Route.goto next = .goto .arg1 :=
          (script_of_eval eval (by simp) routed).1 rfl
        obtain rfl := Route.goto.inj script
        exact run_script_args (Nat.mod_lt _ positive) rfl eval behind type rfl done
      · rw [Bool.not_eq_true] at eval
        refine ⟨fun _ => ?_, fun cut => ?_⟩
        · obtain ⟨u, finished⟩ := run_args (Nat.mod_lt _ positive) rfl
            (ne_reqType_of_goto routed) (by simp [eval]) behind done
          exact ⟨t, u, finished, rfl, rfl⟩
        · rw [type] at eval
          exact absurd (numKeysKept_of_not_eval eval) cut

end Placed

end Nutcracker
