import Nutcracker.Message.Core

/-!
# Numbers in the configuration

`_nc_atoi` accumulates a number in an `int` and looks at the sign of the result only.  What it
computes is the value of the numeral modulo 2³²: a numeral that is too large is refused if the
remainder falls into the negative half, and is read as a smaller number otherwise.
-/

namespace Nutcracker

open Lib

/-- A value as an `int` of 32 bits keeps it. -/
def cInt (n : Int) : Int :=
  n.bmod (2 ^ 32)

/-- The loop of `_nc_atoi`.  A byte that is no digit ends the call. -/
def ncAtoiLoop : Bytes → Int → Option Int
  | [], value => some value
  | c :: line, value =>
      if c.toNat < 48 ∨ 57 < c.toNat then none
      else ncAtoiLoop line (cInt (cInt (value * 10) + (c.toNat - 48)))

/-- `_nc_atoi`. -/
def ncAtoi (line : Bytes) : Int :=
  if line = [] then -1
  else
    match ncAtoiLoop line 0 with
    | none => -1
    | some value => if value < 0 then -1 else value

/-- `nc_valid_port`. -/
def ncValidPort (n : Int) : Bool :=
  !(decide (n < 1) || decide (65535 < n))

/-- The value of a field that is not set yet. -/
def CONF_UNSET_NUM : Int := -1

/-- `conf_set_num`: the new value of the field `np`, or what is wrong with the directive. -/
def confSetNum (np : Int) (value : Bytes) : Except String Int :=
  if np ≠ CONF_UNSET_NUM then .error "is a duplicate"
  else
    let num := ncAtoi value
    if num < 0 then .error "is not a number" else .ok num

/-- What a number should be read as: its value, or -1 if it is none or does not fit. -/
def exactAtoi (line : Bytes) : Int :=
  if line ≠ [] ∧ Digits line ∧ decVal line ≤ 2 ^ 31 - 1 then decVal line else -1

/-- A numeral that is too large, and whose remainder is taken for its value. -/
def Wraps (line : Bytes) : Prop :=
  Digits line ∧ 2 ^ 31 ≤ decVal line ∧ decVal line % 2 ^ 32 < 2 ^ 31

instance (line : Bytes) : Decidable (Wraps line) :=
  inferInstanceAs (Decidable (_ ∧ _))

section Atoi

variable {line : Bytes}

theorem isdigit_iff {c : UInt8} : isdigit c = true ↔ ¬ (c.toNat < 48 ∨ 57 < c.toNat) := by
  simp [isdigit]

/-- The loop computes the value modulo 2³². -/
theorem ncAtoiLoop_digits (digits : Digits line) (n : Nat) :
    ncAtoiLoop line (cInt n) = some (cInt (decValFrom n line)) := by
  induction line generalizing n with
  | nil => rfl
  | cons c line ih =>
    obtain ⟨digit, rest⟩ := (digits_cons c line).mp digits
    have inside := isdigit_iff.mp digit
    have next : cInt (cInt (cInt n * 10) + (c.toNat - 48)) = cInt (n * 10 + digitVal c : Nat) := by
      have value : ((digitVal c : Nat) : Int) = c.toNat - 48 := by
        unfold digitVal
        omega
      unfold cInt
      rw [Int.bmod_mul_bmod, Int.bmod_add_bmod, ← value]
      push_cast
      rfl
    rw [ncAtoiLoop, if_neg inside, next, ih rest]
    rfl

theorem ncAtoiLoop_of_not_digits (bad : ¬ Digits line) (value : Int) :
    ncAtoiLoop line value = none := by
  induction line generalizing value with
  | nil => exact absurd digits_nil bad
  | cons c line ih =>
    rw [ncAtoiLoop]
    split
    · rfl
    · rename_i inside
      refine ih (fun rest => bad ?_) _
      exact (digits_cons c line).mpr ⟨isdigit_iff.mpr inside, rest⟩

/-- What `_nc_atoi` returns for a numeral. -/
theorem ncAtoi_digits (some_ : line ≠ []) (digits : Digits line) :
    ncAtoi line =
      if decVal line % 2 ^ 32 < 2 ^ 31 then ((decVal line % 2 ^ 32 : Nat) : Int) else -1 := by
  have loop : ncAtoiLoop line 0 = some (cInt (decVal line)) := ncAtoiLoop_digits digits 0
  have kept : cInt (decVal line) =
      if decVal line % 2 ^ 32 < 2 ^ 31 then ((decVal line % 2 ^ 32 : Nat) : Int)
      else (decVal line % 2 ^ 32 : Nat) - 2 ^ 32 := by
    unfold cInt
    rw [Int.bmod_def]
    norm_cast
  rw [ncAtoi, if_neg some_, loop, kept]
  simp only
  split
  · rw [if_neg (by omega)]
  · rw [if_pos (by omega)]

theorem ncAtoi_of_not_digits (bad : line = [] ∨ ¬ Digits line) : ncAtoi line = -1 := by
  unfold ncAtoi
  split
  · rfl
  · rename_i some_
    rw [ncAtoiLoop_of_not_digits (bad.resolve_left some_)]

/-- A number is read exactly unless it wraps around. -/
theorem ncAtoi_eq_exactAtoi_iff : ncAtoi line = exactAtoi line ↔ ¬ Wraps line := by
  by_cases numeral : line ≠ [] ∧ Digits line
  · obtain ⟨some_, digits⟩ := numeral
    have small : decVal line % 2 ^ 32 ≤ decVal line := Nat.mod_le _ _
    rw [ncAtoi_digits some_ digits, exactAtoi, Wraps]
    by_cases fits : decVal line < 2 ^ 31
    · have same : decVal line % 2 ^ 32 = decVal line := Nat.mod_eq_of_lt (by omega)
      rw [same, if_pos fits, if_pos ⟨some_, digits, by omega⟩]
      simp only [true_iff]
      omega
    · rw [if_neg (show ¬ (line ≠ [] ∧ Digits line ∧ decVal line ≤ 2 ^ 31 - 1) by
        rintro ⟨-, -, le⟩
        omega)]
      split
      · rename_i low
        constructor
        · intro negative
          omega
        · intro exact_
          exact absurd ⟨digits, by omega, low⟩ exact_
      · rename_i high
        simp only [true_iff]
        exact fun wraps => high wraps.2.2
  · have bad : line = [] ∨ ¬ Digits line := by
      by_cases empty : line = []
      · exact Or.inl empty
      · exact Or.inr fun digits => numeral ⟨empty, digits⟩
    rw [ncAtoi_of_not_digits bad, exactAtoi, if_neg fun h => numeral ⟨h.1, h.2.1⟩]
    simp only [true_iff]
    rintro ⟨digits, large, -⟩
    rcases bad with rfl | bad
    · simp at large
    · exact bad digits

/-- A number that is not refused was written in digits, and is the one that was written unless it
wraps around. -/
theorem ncAtoi_of_nonneg (accepted : 0 ≤ ncAtoi line) :
    line ≠ [] ∧ Digits line ∧ (ncAtoi line = decVal line ↔ ¬ Wraps line) := by
  have numeral : line ≠ [] ∧ Digits line := by
    by_contra bad
    have refused : ncAtoi line = -1 := ncAtoi_of_not_digits (by tauto)
    omega
  obtain ⟨some_, digits⟩ := numeral
  refine ⟨some_, digits, ?_⟩
  rw [ncAtoi_digits some_ digits] at accepted ⊢
  have small : decVal line % 2 ^ 32 ≤ decVal line := Nat.mod_le _ _
  split at accepted
  · rename_i low
    rw [if_pos low, Wraps, Int.natCast_inj]
    constructor
    · rintro same ⟨-, large, -⟩
      omega
    · intro exact_
      refine Nat.mod_eq_of_lt ?_
      by_contra large
      exact exact_ ⟨digits, by omega, low⟩
  · omega

/-- A number that fits is read. -/
theorem ncAtoi_of_le (some_ : line ≠ []) (digits : Digits line) (fits : decVal line < 2 ^ 31) :
    ncAtoi line = decVal line := by
  have same : decVal line % 2 ^ 32 = decVal line := Nat.mod_eq_of_lt (by omega)
  rw [ncAtoi_digits some_ digits, same, if_pos fits]

/-- The number that `conf_set_num` stores. -/
theorem confSetNum_ok {np num : Int} (stored : confSetNum np line = .ok num) :
    num = ncAtoi line ∧ 0 ≤ num := by
  unfold confSetNum at stored
  split at stored
  · cases stored
  · simp only at stored
    split at stored
    · cases stored
    · cases stored
      exact ⟨rfl, by omega⟩

end Atoi

end Nutcracker
