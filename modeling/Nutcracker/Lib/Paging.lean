import Nutcracker.Lib.Machine
import Mathlib.Data.List.Induction

/-!
# Reading across pages

A stream that is received into pages of a fixed size is read as one list of symbols,
except that a token has to lie in one page.  If a page is full before the token under
way has ended, the symbols of the token are moved to a fresh page and read again from
there.  A `Reader` is a machine together with the symbols of the token under way and the
state from which they are read again; `place` puts the pages into it.

Reading a token again is harmless if it leads back to the state in which the token was
cut.  `run_token` says where the page ends then.
-/

namespace Nutcracker.Lib

universe u v

/-- A machine with tokens. -/
structure Reader (σ : Type u) (α : Type v) where
  feed : σ → α → Verdict σ
  held : σ → List α
  rewound : σ → σ

/-- A machine that reads pages: the state it resumes from, the symbols it will read
again, and the number of symbols in the last page. -/
structure Placed (σ : Type u) (α : Type v) where
  reading : σ
  again : List α := []
  used : Nat := 0
  deriving DecidableEq, Repr

namespace Reader

variable {σ : Type u} {α : Type v} (R : Reader σ α) (size : Nat)

/-- The state after a symbol that brought the last page to `used` symbols.  If it is
full, a token is moved to a fresh page; if the token fills that one as well, the next
symbol goes to yet another page and the token is not read again. -/
def settle (s : σ) (used : Nat) : Placed σ α :=
  if used < size then ⟨s, [], used⟩
  else if (R.held s).isEmpty then ⟨s, [], 0⟩
  else if (R.held s).length < size then ⟨R.rewound s, R.held s, (R.held s).length⟩
  else ⟨R.rewound s, [], 0⟩

/-- One symbol. -/
def place (d : Placed σ α) (a : α) : Verdict (Placed σ α) :=
  match run R.feed d.reading (d.again ++ [a]) with
  | .pending s => .more (R.settle size s (d.used + 1))
  | .done t rest => .done ⟨t, rest, d.used + 1⟩
  | .fail => .fail

/-- What has been read in all. -/
def Reaches (d : Placed σ α) (s : σ) : Prop :=
  run R.feed d.reading d.again = .pending s

variable {R size} {d : Placed σ α} {s s' t : σ} {a : α} {o : Nat}

theorem place_of_pending (pending : run R.feed d.reading (d.again ++ [a]) = .pending s) :
    R.place size d a = .more (R.settle size s (d.used + 1)) := by
  rw [place, pending]

theorem place_of_fail (failed : run R.feed d.reading (d.again ++ [a]) = .fail) :
    R.place size d a = .fail := by
  rw [place, failed]

theorem reaches_mk (s : σ) (o : Nat) : R.Reaches ⟨s, [], o⟩ s :=
  run_nil

theorem Reaches.place_eq (reaches : R.Reaches d s) :
    R.place size d a =
      match R.feed s a with
      | .more s' => .more (R.settle size s' (d.used + 1))
      | .done t => .done ⟨t, [], d.used + 1⟩
      | .fail => .fail := by
  rw [place, run_append_of_pending reaches]
  cases fed : R.feed s a with
  | more s' => rw [run_cons_more fed, run_nil]
  | done t => rw [run_cons_done fed]
  | fail => rw [run_cons_fail fed]

theorem Reaches.place_fail (reaches : R.Reaches d s) (failed : R.feed s a = .fail) :
    R.place size d a = .fail := by
  rw [reaches.place_eq, failed]

theorem Reaches.place_done (reaches : R.Reaches d s) (done : R.feed s a = .done t) :
    R.place size d a = .done ⟨t, [], d.used + 1⟩ := by
  rw [reaches.place_eq, done]

theorem Reaches.place_more (reaches : R.Reaches d s) (fed : R.feed s a = .more s') :
    R.place size d a = .more (R.settle size s' (d.used + 1)) := by
  rw [reaches.place_eq, fed]

theorem settle_free (free : R.held s = []) (bound : o ≤ size) (positive : 0 < size) :
    R.settle size s o = ⟨s, [], o % size⟩ := by
  by_cases space : o < size
  · rw [settle, if_pos space, Nat.mod_eq_of_lt space]
  · obtain rfl : o = size := by omega
    rw [settle, if_neg space, free, List.isEmpty_nil, if_pos rfl, Nat.mod_self]

theorem settle_space (s : σ) (space : o < size) : R.settle size s o = ⟨s, [], o⟩ :=
  if_pos space

/-- The page is full inside a token. -/
theorem settle_cut {text : List α} (full : size ≤ o) (token : R.held s = text)
    (nonempty : text ≠ []) (back : R.rewound s = s') :
    R.settle size s o =
      if text.length < size then ⟨s', text, text.length⟩ else ⟨s', [], 0⟩ := by
  subst token back
  rw [settle, if_neg (Nat.not_lt.mpr full), if_neg]
  rwa [List.isEmpty_iff]

/-! ## Symbols outside tokens -/

variable (R)

theorem run_free (inside : o < size) (fed : R.feed s a = .more s') (free : R.held s' = [])
    (xs : List α) :
    run (R.place size) ⟨s, [], o⟩ (a :: xs) =
      run (R.place size) ⟨s', [], (o + 1) % size⟩ xs := by
  refine run_cons_more ?_
  rw [(reaches_mk s o).place_more fed, settle_free free inside (by omega)]

/-- A stretch of symbols that is not a token fills the pages one after the other. -/
theorem run_stretch (inside : o < size) (g : List α → σ) (xs ys : List α)
    (collects : ∀ l x r, xs = l ++ x :: r → R.feed (g l) x = .more (g (l ++ [x])))
    (free : ∀ l r, xs = l ++ r → l ≠ [] → R.held (g l) = []) :
    run (R.place size) ⟨g [], [], o⟩ (xs ++ ys) =
      run (R.place size) ⟨g xs, [], (o + xs.length) % size⟩ ys := by
  have positive : 0 < size := by omega
  have collected := run_collect (R.place size)
    (fun l => ⟨g l, [], (o + l.length) % size⟩) xs ys ?_
  · simpa [Nat.mod_eq_of_lt inside] using collected
  · intro l x r split
    rw [(reaches_mk (g l) _).place_more (collects l x r split),
      settle_free (free (l ++ [x]) r (by simpa using split) (by simp)) (Nat.mod_lt _ positive)
        positive]
    simp [Nat.add_assoc]

/-- Symbols that fit into the page. -/
theorem run_fitting (g : List α → σ) (xs ys : List α) (short : o + xs.length < size)
    (collects : ∀ l x r, xs = l ++ x :: r → R.feed (g l) x = .more (g (l ++ [x]))) :
    run (R.place size) ⟨g [], [], o⟩ (xs ++ ys) =
      run (R.place size) ⟨g xs, [], o + xs.length⟩ ys := by
  have collected := run_collect (R.place size) (fun l => ⟨g l, [], o + l.length⟩) xs ys ?_
  · simpa using collected
  · intro l x r split
    rw [split, List.length_append, List.length_cons] at short
    rw [(reaches_mk (g l) _).place_more (collects l x r split),
      settle_space _ (show o + l.length + 1 < size by omega), List.length_append,
      List.length_singleton, Nat.add_assoc]

/-! ## Tokens -/

/-- The number of symbols in the last page after `n` symbols of a token that started at
offset `o`. -/
def tokenEnd (size o n : Nat) : Nat :=
  if o + n < size then o + n else n

theorem tokenEnd_lt (n : Nat) (short : n < size) : tokenEnd size o n < size := by
  unfold tokenEnd
  split <;> omega

/-- A token shorter than a page. -/
theorem run_held (inside : o < size) (g : List α → σ) (xs ys : List α)
    (short : xs.length < size)
    (collects : ∀ l x r, xs = l ++ x :: r → R.feed (g l) x = .more (g (l ++ [x])))
    (held : ∀ l r, xs = l ++ r → l ≠ [] → R.held (g l) = l)
    (rereads : ∀ l r, xs = l ++ r → l ≠ [] → run R.feed (R.rewound (g l)) l = .pending (g l)) :
    ∃ d : Placed σ α, R.Reaches d (g xs) ∧ d.used = tokenEnd size o xs.length ∧
      run (R.place size) ⟨g [], [], o⟩ (xs ++ ys) = run (R.place size) d ys := by
  -- the state after the symbols `l` of the token: cut just now, or not
  let h : List α → Placed σ α := fun l =>
    if l ≠ [] ∧ o + l.length = size then ⟨R.rewound (g l), l, l.length⟩
    else ⟨g l, [], tokenEnd size o l.length⟩
  have reaches : ∀ l r, xs = l ++ r →
      R.Reaches (h l) (g l) ∧ (h l).used = tokenEnd size o l.length := by
    intro l r split
    by_cases cut : l ≠ [] ∧ o + l.length = size
    · simp only [h, if_pos cut]
      refine ⟨rereads l r split cut.1, ?_⟩
      rw [tokenEnd, if_neg (by omega)]
    · simp only [h, if_neg cut]
      exact ⟨reaches_mk _ _, trivial⟩
  have collected := run_collect (R.place size) h xs ys ?_
  · have start : h [] = ⟨g [], [], o⟩ := by simp [h, tokenEnd, inside]
    obtain ⟨reached, used⟩ := reaches xs [] (by simp)
    exact ⟨h xs, reached, used, by rw [← start, collected]⟩
  · intro l x r split
    obtain ⟨reached, used⟩ := reaches l (x :: r) split
    have length : l.length + 1 ≤ xs.length := by
      rw [split]
      simp
    have text := held (l ++ [x]) r (by simpa using split) (by simp)
    rw [reached.place_more (collects l x r split), used]
    by_cases cut : o + (l ++ [x]).length = size
    · have full : size ≤ tokenEnd size o l.length + 1 := by
        rw [List.length_append, List.length_singleton] at cut
        rw [tokenEnd, if_pos (by omega)]
        omega
      have fits : (l ++ [x]).length < size := by
        rw [List.length_append, List.length_singleton]
        omega
      simp only [h]
      rw [if_pos ⟨by simp, cut⟩, settle_cut full text (by simp) rfl, if_pos fits]
    · have next : tokenEnd size o l.length + 1 = tokenEnd size o (l ++ [x]).length := by
        rw [List.length_append, List.length_singleton] at cut ⊢
        unfold tokenEnd
        split <;> split <;> omega
      have space : tokenEnd size o l.length + 1 < size := by
        rw [next]
        refine tokenEnd_lt _ ?_
        rw [List.length_append, List.length_singleton]
        omega
      simp only [h]
      rw [if_neg (fun both => cut both.2), settle_space _ space, next]

/-- A token shorter than a page, with the symbol that ends it. -/
theorem run_token (inside : o < size) (g : List α → σ) (xs ys : List α)
    (short : xs.length < size)
    (collects : ∀ l x r, xs = l ++ x :: r → R.feed (g l) x = .more (g (l ++ [x])))
    (held : ∀ l r, xs = l ++ r → l ≠ [] → R.held (g l) = l)
    (rereads : ∀ l r, xs = l ++ r → l ≠ [] → run R.feed (R.rewound (g l)) l = .pending (g l))
    (closes : R.feed (g xs) a = .more s') (free : R.held s' = []) :
    run (R.place size) ⟨g [], [], o⟩ (xs ++ a :: ys) =
      run (R.place size) ⟨s', [], (tokenEnd size o xs.length + 1) % size⟩ ys := by
  obtain ⟨d, reached, used, same⟩ :=
    R.run_held inside g xs (a :: ys) short collects held rereads
  rw [same]
  refine run_cons_more ?_
  rw [reached.place_more closes, used, settle_free free (tokenEnd_lt _ short) (by omega)]

/-- A token whose first symbol is a mark, with the two symbols that end its line. -/
theorem run_line (inside : o < size) (opened : List α → σ) {mark c c' : α} {num : List α}
    {closed next : σ} (short : num.length + 1 < size)
    (opens : R.feed s mark = .more (opened []))
    (collects : ∀ l x r, num = l ++ x :: r → R.feed (opened l) x = .more (opened (l ++ [x])))
    (held : ∀ l, R.held (opened l) = mark :: l)
    (reopens : ∀ l, R.feed (R.rewound (opened l)) mark = .more (opened []))
    (closes : R.feed (opened num) c = .more closed) (ends : R.feed closed c' = .more next)
    (closedFree : R.held closed = []) (nextFree : R.held next = []) (xs : List α) :
    run (R.place size) ⟨s, [], o⟩ (mark :: num ++ [c, c'] ++ xs) =
      run (R.place size) ⟨next, [], (tokenEnd size o (num.length + 1) + 2) % size⟩ xs := by
  let g : List α → σ := fun l =>
    match l with
    | [] => s
    | _ :: num => opened num
  have token := R.run_token inside g (mark :: num) (c' :: xs) short ?_ ?_ ?_ closes closedFree
  · have after : (tokenEnd size o (num.length + 1) + 1) % size < size :=
      Nat.mod_lt _ (by omega)
    have lineFeed := R.run_free after ends nextFree xs
    simp only [List.cons_append, List.append_assoc, List.nil_append] at token ⊢
    exact token.trans (lineFeed.trans (by rw [Nat.mod_add_mod]))
  · intro l x r split
    cases l with
    | nil =>
      obtain ⟨rfl, rfl⟩ := List.cons.inj split
      exact opens
    | cons c l =>
      obtain ⟨rfl, tail⟩ := List.cons.inj split
      exact collects l x r tail
  · intro l r split nonempty
    cases l with
    | nil => exact absurd rfl nonempty
    | cons c l =>
      obtain ⟨rfl, _⟩ := List.cons.inj split
      exact held l
  · intro l r split nonempty
    cases l with
    | nil => exact absurd rfl nonempty
    | cons c l =>
      obtain ⟨rfl, rfl⟩ := List.cons.inj split
      have collected := run_collect R.feed opened l [] (by
        rintro l' x r' rfl
        exact collects l' x (r' ++ r) (by simp))
      rw [run_cons_more (reopens l), ← List.append_nil l, collected, run_nil, List.append_nil]

/-! ## Pages that make no difference -/

section Plain

variable (size)

/-- The token under way is shorter than a page, and reading it again leads back. -/
def Harmless (s : σ) : Prop :=
  (R.held s).length < size ∧ run R.feed (R.rewound s) (R.held s) = .pending s

/-- In the runs from a state, a symbol belongs to the token under way or no token is left. -/
def Grows (start : σ) : Prop :=
  ∀ fed s a s', run R.feed start fed = .pending s → R.feed s a = .more s' →
    R.held s' = [] ∨ R.held s' = R.held s ++ [a]

/-- After these symbols no token is under way. -/
def Free (start : σ) (xs : List α) : Prop :=
  ∃ s, run R.feed start xs = .pending s ∧ R.held s = []

variable {start : σ} {fed : List α}

variable {R size}

/-- Before the token under way there was none. -/
theorem free_before_held (grows : R.Grows start) (free : R.held start = [])
    (plain : run R.feed start fed = .pending s) :
    ∃ x, fed = x ++ R.held s ∧ R.Free start x := by
  induction fed using List.reverseRecOn generalizing s with
  | nil =>
    cases plain
    exact ⟨[], by rw [free, List.nil_append], start, run_nil, free⟩
  | append_singleton fed a ih =>
    obtain ⟨s', before, more⟩ := run_concat_pending plain
    rcases grows fed s' a s before more with none_left | held
    · exact ⟨fed ++ [a], by rw [none_left, List.append_nil], s, plain, none_left⟩
    · obtain ⟨x, split, clear⟩ := ih before
      exact ⟨x, by rw [held, ← List.append_assoc, ← split], clear⟩

variable (R) in
/-- The machine that reads pages has read what the plain machine has, and its last page
starts where no token was under way. -/
structure InStep (start : σ) (fed : List α) (d : Placed σ α) (s : σ) : Prop where
  plain : run R.feed start fed = .pending s
  reaches : R.Reaches d s
  page : ∃ x y, fed = x ++ y ∧ y.length = d.used ∧ R.Free start x

theorem InStep.place (inStep : R.InStep start fed d s) (grows : R.Grows start)
    (free : R.held start = []) (space : d.used < size) (more : R.feed s a = .more s')
    (harmless : d.used + 1 = size → R.held s' ≠ [] → R.Harmless size s') :
    ∃ d', R.place size d a = .more d' ∧ d'.used < size ∧ R.InStep start (fed ++ [a]) d' s' := by
  have plain : run R.feed start (fed ++ [a]) = .pending s' := by
    rw [run_append_of_pending inStep.plain, run_cons_more more, run_nil]
  refine ⟨_, inStep.reaches.place_more more, ?_⟩
  by_cases room : d.used + 1 < size
  · rw [settle_space _ room]
    obtain ⟨x, y, split, length, clear⟩ := inStep.page
    refine ⟨room, plain, reaches_mk _ _, x, y ++ [a], ?_, ?_, clear⟩
    · rw [split, List.append_assoc]
    · rw [List.length_append, length, List.length_singleton]
  · have full : d.used + 1 = size := by omega
    by_cases none_left : R.held s' = []
    · rw [settle_free none_left (Nat.le_of_eq full) (by omega), full, Nat.mod_self]
      exact ⟨Nat.lt_of_le_of_lt (Nat.zero_le _) space, plain, reaches_mk _ _, fed ++ [a], [],
        by simp, rfl, s', plain, none_left⟩
    · obtain ⟨short, back⟩ := harmless full none_left
      rw [settle_cut (Nat.le_of_eq full.symm) rfl none_left rfl, if_pos short]
      obtain ⟨x, split, clear⟩ := free_before_held grows free plain
      exact ⟨short, plain, back, x, _, split, rfl, clear⟩

/-- A list of symbols that the plain machine accepts is accepted from pages, if every token
that is under way when a page may be full is harmless.  The pages start where no token is
under way. -/
theorem run_place_of_done (grows : R.Grows start) (free : R.held start = []) (positive : 0 < size)
    {xs : List α} (done : run R.feed start xs = .done t [])
    (harmless : ∀ pre post s, xs = pre ++ post → run R.feed start pre = .pending s →
      size ≤ pre.length → R.held s ≠ [] → R.Harmless size s) :
    (∃ u, run (R.place size) ⟨start, [], 0⟩ xs = .done ⟨t, [], u⟩ []) ∧
      ∀ x y post d, xs = x ++ y ++ post →
        run (R.place size) ⟨start, [], 0⟩ (x ++ y) = .pending d → y.length = d.used →
        R.Free start x := by
  have along : ∀ pre post s, xs = pre ++ post → run R.feed start pre = .pending s →
      ∃ d, run (R.place size) ⟨start, [], 0⟩ pre = .pending d ∧ d.used < size ∧
        R.InStep start pre d s := by
    intro pre
    induction pre using List.reverseRecOn with
    | nil =>
      intro post s split plain
      refine ⟨⟨start, [], 0⟩, run_nil, positive, plain, ?_, [], [], rfl, rfl, s, plain, ?_⟩
      · cases plain
        exact reaches_mk _ _
      · cases plain
        exact free
    | append_singleton pre a ih =>
      intro post s split plain
      obtain ⟨s', before, more⟩ := run_concat_pending plain
      obtain ⟨d, placed, space, inStep⟩ := ih (a :: post) s' (by simpa using split) before
      obtain ⟨x, y, parts, length, _⟩ := inStep.page
      obtain ⟨d', placed', space', inStep'⟩ := inStep.place grows free space more (by
        intro full
        refine harmless (pre ++ [a]) post s split plain ?_
        rw [parts, List.length_append, List.length_append, length, List.length_singleton]
        omega)
      refine ⟨d', ?_, space', inStep'⟩
      rw [run_append_of_pending placed, run_cons_more placed', run_nil]
  have accepted : ∃ u, run (R.place size) ⟨start, [], 0⟩ xs = .done ⟨t, [], u⟩ [] := by
    obtain ⟨pre, a, s, rfl, before, last⟩ := run_done_last done
    obtain ⟨d, placed, _, inStep⟩ := along pre [a] s rfl before
    refine ⟨d.used + 1, ?_⟩
    rw [run_append_of_pending placed, run_cons_done (inStep.reaches.place_done last)]
  refine ⟨accepted, fun x y post d split placed length => ?_⟩
  cases plain : run R.feed start (x ++ y) with
  | pending s =>
    obtain ⟨d', placed', _, inStep⟩ := along (x ++ y) post s split plain
    obtain rfl := Outcome.pending.inj (placed.symm.trans placed')
    obtain ⟨x', y', parts, length', clear⟩ := inStep.page
    obtain ⟨rfl, _⟩ := List.append_inj' parts (length.trans length'.symm)
    exact clear
  | done u rest =>
    rw [split, run_append_of_done plain] at done
    have none_left : rest ++ post = [] := (Outcome.done.inj done).2
    obtain ⟨_, rfl⟩ := List.append_eq_nil_iff.mp none_left
    obtain ⟨u', accepted⟩ := accepted
    rw [split, List.append_nil, placed] at accepted
    cases accepted
  | fail =>
    rw [split, run_append_of_fail plain] at done
    cases done

end Plain

end Reader

/-! ## Stretches of a stream that lie in one page -/

/-- A stretch of a stream inside which no page starts lies in one page. -/
theorem exists_page {α : Type v} {pages : List (List α)} {pre text post : List α}
    (nonempty : text ≠ []) (whole : pages.flatten = pre ++ text ++ post)
    (unbroken : ∀ front, front <+: pages.dropLast → pre.length < front.flatten.length →
      pre.length + text.length ≤ front.flatten.length) :
    ∃ front x y back, pages = front ++ (x ++ text ++ y) :: back ∧ front.flatten ++ x = pre := by
  induction pages generalizing pre with
  | nil => simp [nonempty] at whole
  | cons page pages ih =>
    rw [List.flatten_cons] at whole
    by_cases fits : (pre ++ text).length ≤ page.length
    · obtain ⟨y, rfl⟩ := List.prefix_of_prefix_length_le ⟨post, whole.symm⟩
        (List.prefix_append page pages.flatten) fits
      exact ⟨[], pre, y, pages, rfl, rfl⟩
    · have more : pages ≠ [] := by
        rintro rfl
        rw [List.flatten_nil, List.append_nil] at whole
        rw [whole] at fits
        simp at fits
      have first : [page] <+: (page :: pages).dropLast := by
        rw [List.dropLast_cons_of_ne_nil more]
        exact List.prefix_append [page] pages.dropLast
      have later : page.length ≤ pre.length := by
        by_contra inside
        have ends := unbroken [page] first (by simpa using inside)
        rw [List.length_append] at fits
        rw [List.flatten_singleton] at ends
        omega
      obtain ⟨pre', rfl⟩ := List.prefix_of_prefix_length_le
        (List.prefix_append page pages.flatten) ⟨text ++ post, by rw [whole, List.append_assoc]⟩
        later
      have rest : pages.flatten = pre' ++ text ++ post := by
        simpa only [List.append_assoc, List.append_cancel_left_eq] using whole
      obtain ⟨front, x, y, back, rfl, start⟩ := ih rest (by
        intro front begins inside
        have behind : page :: front <+: (page :: pages).dropLast := by
          rw [List.dropLast_cons_of_ne_nil more]
          exact List.cons_prefix_cons.mpr ⟨rfl, begins⟩
        have ends := unbroken (page :: front) behind
        simp only [List.flatten_cons, List.length_append] at ends
        omega)
      exact ⟨page :: front, x, y, back, rfl, by rw [List.flatten_cons, List.append_assoc, start]⟩

end Nutcracker.Lib
