import Mathlib.Algebra.BigOperators.Finprod

/-!
# Ledgers

Amounts are posted to accounts.  The total over a class of accounts is the sum of the totals of
the accounts.
-/

namespace Nutcracker.Lib

variable {κ M N : Type*} [AddCommMonoid M] [AddCommMonoid N]

/-- The total of what is posted to the accounts of a class. -/
def posted (p : κ → Prop) [DecidablePred p] (ledger : List (κ × M)) : M :=
  (ledger.map fun entry => if p entry.1 then entry.2 else 0).sum

variable (p : κ → Prop) [DecidablePred p]

@[simp]
theorem posted_nil : posted p ([] : List (κ × M)) = 0 :=
  rfl

@[simp]
theorem posted_cons (entry : κ × M) (ledger : List (κ × M)) :
    posted p (entry :: ledger) = (if p entry.1 then entry.2 else 0) + posted p ledger := by
  simp [posted]

@[simp]
theorem posted_append (ledger ledger' : List (κ × M)) :
    posted p (ledger ++ ledger') = posted p ledger + posted p ledger' := by
  simp [posted]

theorem posted_pair (x : κ) (first second : M) :
    posted p [(x, first), (x, second)] = posted p [(x, first + second)] := by
  by_cases counts : p x
  · simp [counts]
  · simp [counts]

theorem posted_map (f : M →+ N) (ledger : List (κ × M)) :
    posted p (ledger.map fun entry => (entry.1, f entry.2)) = f (posted p ledger) := by
  induction ledger with
  | nil => simp
  | cons entry ledger ih => simp [ih, apply_ite f]

variable [DecidableEq κ]

theorem finite_support_posted (ledger : List (κ × M)) :
    (Function.support fun x => posted (· = x) ledger).Finite := by
  induction ledger with
  | nil => simp
  | cons entry ledger ih =>
    refine (ih.union (Set.finite_singleton entry.1)).subset fun x nonzero => ?_
    by_cases here : entry.1 = x
    · exact Or.inr here.symm
    · left
      simpa [here] using nonzero

/-- The total of a class is the sum of the totals of its accounts. -/
theorem finsum_posted (ledger : List (κ × M)) :
    ∑ᶠ x ∈ {x | p x}, posted (· = x) ledger = posted p ledger := by
  induction ledger with
  | nil => simp
  | cons entry ledger ih =>
    have first : ∑ᶠ x ∈ {x | p x}, (if entry.1 = x then entry.2 else 0) =
        if p entry.1 then entry.2 else 0 := by
      rw [finsum_mem_def, finsum_eq_single _ entry.1]
      · simp [Set.indicator_apply]
      · intro x other
        simp [Set.indicator_apply, Ne.symm other]
    have alone : (Function.support fun x => if entry.1 = x then entry.2 else 0).Finite := by
      refine (Set.finite_singleton entry.1).subset fun x nonzero => ?_
      by_contra other
      simp [Ne.symm other] at nonzero
    simp only [posted_cons]
    rw [finsum_mem_add_distrib' (alone.inter_of_right _)
      ((finite_support_posted ledger).inter_of_right _), first, ih]

end Nutcracker.Lib
