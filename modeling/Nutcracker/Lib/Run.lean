import Mathlib.Data.List.Basic

/-!
# Runs of a machine driven by events

A machine takes one event at a time.  A condition on single steps is imposed on a
whole run by asking for it at every step, in the state the step starts from; an
invariant kept by the steps that meet the condition holds along every such run.
-/

namespace Nutcracker.Lib

variable {σ ε : Type*} (step : σ → ε → σ) (ok : σ → ε → Prop)

/-- Every step of the run meets the condition in the state it starts from. -/
def Along : σ → List ε → Prop
  | _, [] => True
  | s, e :: es => ok s e ∧ Along (step s e) es

instance [∀ s e, Decidable (ok s e)] (s : σ) (es : List ε) : Decidable (Along step ok s es) :=
  match es with
  | [] => inferInstanceAs (Decidable True)
  | e :: es =>
    have : Decidable (Along step ok (step s e) es) :=
      instDecidableAlong (step s e) es
    inferInstanceAs (Decidable (ok s e ∧ Along step ok (step s e) es))

variable {step ok}

@[simp]
theorem along_nil (s : σ) : Along step ok s [] :=
  trivial

theorem along_cons {s : σ} {e : ε} {es : List ε} :
    Along step ok s (e :: es) ↔ ok s e ∧ Along step ok (step s e) es :=
  Iff.rfl

theorem along_append {s : σ} {es fs : List ε} :
    Along step ok s (es ++ fs) ↔ Along step ok s es ∧ Along step ok (es.foldl step s) fs := by
  induction es generalizing s with
  | nil => simp
  | cons e es ih => simp [along_cons, ih, and_assoc]

/-- The invariant rule: what the steps of the run keep holds at its end. -/
theorem Along.invariant {inv : σ → Prop} (keep : ∀ s e, inv s → ok s e → inv (step s e))
    {s : σ} {es : List ε} (along : Along step ok s es) (start : inv s) :
    inv (es.foldl step s) := by
  induction es generalizing s with
  | nil => exact start
  | cons e es ih => exact ih along.2 (keep s e start along.1)

end Nutcracker.Lib
