import Mathlib.Data.List.GetD

/-!
# Cursor loops over a growing buffer

A hand-written scanner is usually one loop `for (p = pos; p < last; p++)` whose
body inspects the buffer at the cursor, may jump ahead or step back, and may
leave the loop for good.  This file treats such a loop as a step function and
gives its fuel-free big-step semantics.

The main result concerns suspension.  If an iteration that runs into the end of
the buffer can be repeated later from the end, without changing what it does on
the longer buffer, then scanning a buffer in two calls is the same as scanning
it in one.
-/

namespace Nutcracker.Lib

universe u

/-- How one iteration of a cursor loop ends: go on at a position, leave the
loop with the cursor on the last byte consumed, or fail. -/
inductive Flow (ρ : Type u) where
  | next (p : Nat) (r : ρ)
  | stop (p : Nat) (r : ρ)
  | fail
  deriving Repr, DecidableEq

variable {ρ : Type u}

/-- The loop itself.  The fuel bounds the number of iterations;
`Productive.runs_loop` says how much of it is enough. -/
def loop (step : ρ → Nat → Flow ρ) (last : Nat) : Nat → ρ → Nat → Flow ρ
  | 0, r, p => .next p r
  | fuel + 1, r, p =>
      if p < last then
        match step r p with
        | .next q s => loop step last fuel s q
        | .stop q s => .stop q s
        | .fail => .fail
      else .next p r

/-- Big-step semantics of the loop. -/
inductive Runs (step : ρ → Nat → Flow ρ) (last : Nat) : ρ → Nat → Flow ρ → Prop where
  | exit {r p} : last ≤ p → Runs step last r p (.next p r)
  | more {r p q s out} : p < last → step r p = .next q s → Runs step last s q out →
      Runs step last r p out
  | stop {r p q s} : p < last → step r p = .stop q s → Runs step last r p (.stop q s)
  | fail {r p} : p < last → step r p = .fail → Runs step last r p .fail

namespace Runs

variable {step : ρ → Nat → Flow ρ} {last : Nat}

/-- A run has one result. -/
theorem unique {r : ρ} {p : Nat} {out out' : Flow ρ}
    (first : Runs step last r p out) (second : Runs step last r p out') : out = out' := by
  induction first with
  | exit atEnd =>
    cases second with
    | exit => rfl
    | more inside => omega
    | stop inside => omega
    | fail inside => omega
  | more inside stepEq _ ih =>
    cases second with
    | exit atEnd => omega
    | more _ stepEq' rest =>
      obtain ⟨rfl, rfl⟩ := Flow.next.inj (stepEq.symm.trans stepEq')
      exact ih rest
    | stop _ stepEq' => cases stepEq.symm.trans stepEq'
    | fail _ stepEq' => cases stepEq.symm.trans stepEq'
  | stop inside stepEq =>
    cases second with
    | exit atEnd => omega
    | more _ stepEq' => cases stepEq.symm.trans stepEq'
    | stop _ stepEq' => exact stepEq.symm.trans stepEq'
    | fail _ stepEq' => cases stepEq.symm.trans stepEq'
  | fail inside stepEq =>
    cases second with
    | exit atEnd => omega
    | more _ stepEq' => cases stepEq.symm.trans stepEq'
    | stop _ stepEq' => cases stepEq.symm.trans stepEq'
    | fail => rfl

/-- A loop whose iterations stop where they are stops inside the buffer. -/
theorem stop_inside (here : ∀ {r p q s}, step r p = .stop q s → q = p) {r s : ρ} {p q : Nat}
    (run : Runs step last r p (.stop q s)) : q < last := by
  generalize outEq : Flow.stop q s = out at run
  induction run with
  | exit => cases outEq
  | more _ _ _ ih => exact ih outEq
  | stop inside stepEq =>
    cases outEq
    rwa [here stepEq]
  | fail => cases outEq

/-- Two positions inside the buffer whose iterations agree have the same runs. -/
theorem congr_step {r s : ρ} {p q : Nat} {out : Flow ρ} (insideP : p < last)
    (insideQ : q < last) (same : step r p = step s q) (run : Runs step last r p out) :
    Runs step last s q out := by
  cases run with
  | exit atEnd => omega
  | more _ stepEq rest => exact .more insideQ (same.symm.trans stepEq) rest
  | stop _ stepEq => exact .stop insideQ (same.symm.trans stepEq)
  | fail _ stepEq => exact .fail insideQ (same.symm.trans stepEq)

end Runs

/-- What holds of the result of an iteration, or of a loop: `during` where it goes on and `atStop`
where it is left. -/
def Flow.Ends (during atStop : ρ → Nat → Prop) : Flow ρ → Prop
  | .next q s => during s q
  | .stop q s => atStop s q
  | .fail => True

theorem Runs.ends {step : ρ → Nat → Flow ρ} {last : Nat} {during atStop : ρ → Nat → Prop}
    (keep : ∀ r p, p < last → during r p → (step r p).Ends during atStop) {r : ρ} {p : Nat}
    {out : Flow ρ} (start : during r p) (run : Runs step last r p out) :
    out.Ends during atStop := by
  induction run with
  | exit => exact start
  | more inside stepEq _ ih =>
    apply ih
    have kept := keep _ _ inside start
    rwa [stepEq] at kept
  | stop inside stepEq =>
    have kept := keep _ _ inside start
    rwa [stepEq] at kept
  | fail => trivial

/-! ## Enough fuel -/

/-- On good configurations, every iteration that goes on leads to a good one and
moves the cursor forward inside the buffer, or stays and lowers the rank, which
never exceeds `top`. -/
structure Productive (step : ρ → Nat → Flow ρ) (last : Nat) (Good : ρ → Nat → Prop)
    (rank : ρ → Nat → Nat) (top : Nat) : Prop where
  rank_le : ∀ r p, rank r p ≤ top
  advances : ∀ {r p q s}, Good r p → p < last → step r p = .next q s →
    Good s q ∧ q ≤ last ∧ (p < q ∨ p = q ∧ rank s q < rank r p)

namespace Productive

variable {step : ρ → Nat → Flow ρ} {last top : Nat} {Good : ρ → Nat → Prop}
  {rank : ρ → Nat → Nat}

/-- What good configurations keep holds of the result of a loop that starts in one. -/
theorem ends (productive : Productive step last Good rank top) {during atStop : ρ → Nat → Prop}
    (keep : ∀ r p, Good r p → p < last → during r p → (step r p).Ends during atStop) {r : ρ}
    {p : Nat} {out : Flow ρ} (good : Good r p) (start : during r p)
    (run : Runs step last r p out) :
    out.Ends (fun s q => Good s q ∧ during s q) atStop := by
  refine Runs.ends ?_ ⟨good, start⟩ run
  rintro r p inside ⟨good, here⟩
  have kept := keep r p good inside here
  cases stepEq : step r p with
  | next q s =>
    rw [stepEq] at kept
    exact ⟨(productive.advances good inside stepEq).1, kept⟩
  | stop q s => rwa [stepEq] at kept
  | fail => trivial

/-- With enough fuel the loop computes its big-step result. -/
theorem runs_loop (productive : Productive step last Good rank top) {fuel : Nat} {r : ρ}
    {p : Nat} (good : Good r p) (enough : (top + 1) * (last - p) + rank r p < fuel) :
    Runs step last r p (loop step last fuel r p) := by
  induction fuel generalizing r p with
  | zero => omega
  | succ fuel ih =>
    by_cases inside : p < last
    · simp only [loop, inside, if_true]
      cases stepEq : step r p with
      | next q s =>
        obtain ⟨good', bound, moved⟩ := productive.advances good inside stepEq
        refine .more inside stepEq (ih good' ?_)
        rcases moved with forward | ⟨rfl, lower⟩
        · have rankLe := productive.rank_le s q
          have shorter : last - q + 1 ≤ last - p := by omega
          have scaled := Nat.mul_le_mul_left (top + 1) shorter
          rw [Nat.mul_add] at scaled
          omega
        · omega
      | stop q s => exact .stop inside stepEq
      | fail => exact .fail inside stepEq
    · simp only [loop, inside, if_false]
      exact .exit (Nat.le_of_not_lt inside)

/-- A run that falls out of the loop ends exactly at the end of the buffer, in a
good configuration. -/
theorem exit_good (productive : Productive step last Good rank top) {r s : ρ} {p q : Nat}
    (good : Good r p) (start : p ≤ last) (run : Runs step last r p (.next q s)) :
    q = last ∧ Good s last := by
  generalize outEq : Flow.next q s = out at run
  induction run with
  | exit atEnd =>
    cases outEq
    obtain rfl := Nat.le_antisymm start atEnd
    exact ⟨rfl, good⟩
  | more inside stepEq _ ih =>
    obtain ⟨good', bound, _⟩ := productive.advances good inside stepEq
    exact ih good' bound outEq
  | stop => cases outEq
  | fail => cases outEq

end Productive

/-! ## Suspension and resumption -/

variable {α : Type*}

/-- An iteration on a buffer is either the same on every longer buffer, or it
runs into the end of the buffer and leaves a state from which the longer buffer
is treated exactly as from the start of the iteration. -/
def Resumable (step : List α → ρ → Nat → Flow ρ) : Prop :=
  ∀ (x y : List α) (r : ρ) (p : Nat), p < x.length → y ≠ [] →
    step x r p = step (x ++ y) r p ∨
      ∃ s, step x r p = .next x.length s ∧ step (x ++ y) s x.length = step (x ++ y) r p

namespace Resumable

variable {step : List α → ρ → Nat → Flow ρ}

private theorem length_lt_append {x y : List α} (nonempty : y ≠ []) :
    x.length < (x ++ y).length := by
  have := List.length_pos_iff.mpr nonempty
  simp only [List.length_append]
  omega

/-- A run that leaves the loop is not affected by bytes that arrive later. -/
theorem runs_extend (resumable : Resumable step) {x y : List α} {r : ρ} {p : Nat}
    {out : Flow ρ} (run : Runs (step x) x.length r p out)
    (left : ∀ q s, out ≠ .next q s) : Runs (step (x ++ y)) (x ++ y).length r p out := by
  by_cases nonempty : y = []
  · subst y
    simpa using run
  · have grows := length_lt_append (x := x) nonempty
    induction run with
    | exit => exact absurd rfl (left _ _)
    | more inside stepEq rest ih =>
      rcases resumable x y _ _ inside nonempty with same | ⟨s, suspended, _⟩
      · exact .more (by omega) (same.symm.trans stepEq) (ih left)
      · obtain ⟨rfl, rfl⟩ := Flow.next.inj (stepEq.symm.trans suspended)
        cases rest with
        | exit => exact absurd rfl (left _ _)
        | more inside' => omega
        | stop inside' => omega
        | fail inside' => omega
    | stop inside stepEq =>
      rcases resumable x y _ _ inside nonempty with same | ⟨s, suspended, _⟩
      · exact .stop (by omega) (same.symm.trans stepEq)
      · cases stepEq.symm.trans suspended
    | fail inside stepEq =>
      rcases resumable x y _ _ inside nonempty with same | ⟨s, suspended, _⟩
      · exact .fail (by omega) (same.symm.trans stepEq)
      · cases stepEq.symm.trans suspended

/-- Scanning in two calls is scanning in one. -/
theorem runs_resume (resumable : Resumable step) {x y : List α} {r s : ρ} {p : Nat}
    {out : Flow ρ} (nonempty : y ≠ []) (run : Runs (step x) x.length r p (.next x.length s))
    (rest : Runs (step (x ++ y)) (x ++ y).length s x.length out) :
    Runs (step (x ++ y)) (x ++ y).length r p out := by
  have grows := length_lt_append (x := x) nonempty
  generalize middleEq : Flow.next x.length s = middle at run
  induction run with
  | exit =>
    cases middleEq
    exact rest
  | @more r p q t middle inside stepEq tail ih =>
    rcases resumable x y r p inside nonempty with same | ⟨t', suspended, again⟩
    · exact .more (by omega) (same.symm.trans stepEq) (ih middleEq)
    · obtain ⟨rfl, rfl⟩ := Flow.next.inj (stepEq.symm.trans suspended)
      cases tail with
      | exit =>
        cases middleEq
        exact rest.congr_step grows (by omega) again
      | more inside' => omega
      | stop inside' => omega
      | fail inside' => omega
  | stop => cases middleEq
  | fail => cases middleEq

end Resumable

/-! ## Passing over counted symbols -/

section PassOver

variable [DecidableEq α]

/-- An iteration that passes over as many symbols as the state says and expects
`mark` after them.  If the buffer ends first, the symbols that it held are
subtracted from the number. -/
def passOver (zero mark : α) (len : ρ → Nat) (shorten : Nat → ρ → ρ) (finish : ρ → ρ)
    (b : List α) (r : ρ) (p : Nat) : Flow ρ :=
  let m := p + len r
  if b.length ≤ m then .next b.length (shorten (b.length - p) r)
  else if b.getD m zero = mark then .next (m + 1) (finish r)
  else .fail

variable {zero mark : α} {len : ρ → Nat} {shorten : Nat → ρ → ρ} {finish : ρ → ρ}

theorem passOver_next {b : List α} {r s : ρ} {p q : Nat} (inside : p < b.length)
    (stepEq : passOver zero mark len shorten finish b r p = .next q s) :
    q ≤ b.length ∧ p < q := by
  simp only [passOver] at stepEq
  split at stepEq
  · cases stepEq
    exact ⟨Nat.le_refl _, inside⟩
  · split at stepEq
    · cases stepEq
      constructor <;> omega
    · cases stepEq

/-- The number goes down by what was passed and is forgotten at the end. -/
structure Countdown (len : ρ → Nat) (shorten : Nat → ρ → ρ) (finish : ρ → ρ) : Prop where
  len_shorten : ∀ n r, len (shorten n r) = len r - n
  shorten_shorten : ∀ n k r, shorten n (shorten k r) = shorten (k + n) r
  finish_shorten : ∀ n r, finish (shorten n r) = finish r

/-- Passing over symbols can be suspended. -/
theorem Countdown.resumable (countdown : Countdown len shorten finish) (zero mark : α)
    {x y : List α} {r : ρ} {p : Nat} (inside : p < x.length) :
    passOver zero mark len shorten finish x r p =
        passOver zero mark len shorten finish (x ++ y) r p ∨
      passOver zero mark len shorten finish x r p = .next x.length (shorten (x.length - p) r) ∧
        passOver zero mark len shorten finish (x ++ y) (shorten (x.length - p) r) x.length =
          passOver zero mark len shorten finish (x ++ y) r p := by
  by_cases short : x.length ≤ p + len r
  · right
    refine ⟨by simp [passOver, short], ?_⟩
    simp only [passOver, countdown.len_shorten, countdown.shorten_shorten,
      countdown.finish_shorten, List.length_append]
    rw [show x.length + (len r - (x.length - p)) = p + len r by omega,
      show x.length - p + (x.length + y.length - x.length) = x.length + y.length - p by omega]
  · left
    have short' : ¬ (x ++ y).length ≤ p + len r := by
      simp only [List.length_append]
      omega
    simp only [passOver, short, short', if_false]
    rw [List.getD_append _ _ _ _ (by omega)]

end PassOver

end Nutcracker.Lib
