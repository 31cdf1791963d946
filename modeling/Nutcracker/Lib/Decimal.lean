import Mathlib.Data.List.Basic
import Mathlib.Data.Nat.ModEq

/-!
# Decimal numerals as byte strings

A reader of decimal numerals multiplies an accumulator by ten and adds the next
digit.  In machine arithmetic the accumulator is kept modulo a word size, so the
reader computes the value of the numeral modulo that size and nothing more.
`decimal` is the canonical numeral a printer produces.
-/

namespace Nutcracker.Lib

/-- A statement about the members of a list is decided by going through the list, not
through all values of a finite type. -/
instance (priority := high) decidableForallMem {α : Type*} (p : α → Prop) [DecidablePred p]
    (xs : List α) : Decidable (∀ a ∈ xs, p a) :=
  List.decidableBAll p xs

/-- ASCII decimal digits. -/
def isdigit (c : UInt8) : Bool :=
  decide (48 ≤ c.toNat) && decide (c.toNat ≤ 57)

/-- The number a digit stands for. -/
def digitVal (c : UInt8) : Nat :=
  c.toNat - 48

/-- A string of digits, possibly empty. -/
def Digits (ds : List UInt8) : Prop :=
  ∀ c ∈ ds, isdigit c = true

instance (ds : List UInt8) : Decidable (Digits ds) :=
  inferInstanceAs (Decidable (∀ c ∈ ds, isdigit c = true))

@[simp]
theorem digits_nil : Digits [] := by
  simp [Digits]

@[simp]
theorem digits_cons (c : UInt8) (ds : List UInt8) :
    Digits (c :: ds) ↔ isdigit c = true ∧ Digits ds := by
  simp [Digits]

@[simp]
theorem digits_append (ds es : List UInt8) : Digits (ds ++ es) ↔ Digits ds ∧ Digits es := by
  simp [Digits, or_imp, forall_and]

theorem digits_singleton (c : UInt8) : Digits [c] ↔ isdigit c = true := by
  simp

/-- The value of a numeral read on from `n`. -/
def decValFrom (n : Nat) (ds : List UInt8) : Nat :=
  ds.foldl (fun n c => n * 10 + digitVal c) n

/-- The value of a numeral; the empty numeral has value zero. -/
def decVal (ds : List UInt8) : Nat :=
  decValFrom 0 ds

@[simp]
theorem decVal_nil : decVal [] = 0 :=
  rfl

@[simp]
theorem decVal_append_singleton (ds : List UInt8) (c : UInt8) :
    decVal (ds ++ [c]) = decVal ds * 10 + digitVal c := by
  simp [decVal, decValFrom]

/-- One digit of a numeral, accumulated modulo `m`. -/
def accumMod (m n : Nat) (c : UInt8) : Nat :=
  (n * 10 + digitVal c) % m

/-- Accumulating modulo `m` computes the value modulo `m`. -/
theorem accumMod_mod (m n : Nat) (c : UInt8) :
    accumMod m (n % m) c = (n * 10 + digitVal c) % m := by
  unfold accumMod
  rw [Nat.add_mod, Nat.mod_mul_mod, ← Nat.add_mod]

theorem foldl_accumMod (m n : Nat) (ds : List UInt8) :
    ds.foldl (accumMod m) (n % m) = decValFrom n ds % m := by
  induction ds generalizing n with
  | nil => simp [decValFrom]
  | cons c ds ih =>
    simp only [decValFrom, List.foldl_cons]
    rw [accumMod_mod]
    exact ih _

/-! ## Canonical numerals -/

/-- The byte of a character below 256. -/
def byteOf (c : Char) : UInt8 :=
  c.toNat.toUInt8

/-- The canonical decimal numeral of a number. -/
def decimal (n : Nat) : List UInt8 :=
  (Nat.toDigits 10 n).map byteOf

theorem decimal_ne_nil (n : Nat) : decimal n ≠ [] := by
  simp [decimal]

private theorem toNat_byteOf_of_isDigit {c : Char} (digit : c.isDigit = true) :
    48 ≤ c.toNat ∧ c.toNat ≤ 57 ∧ (byteOf c).toNat = c.toNat := by
  have bounds : 48 ≤ c.toNat ∧ c.toNat ≤ 57 := by
    simp only [Char.isDigit, Bool.and_eq_true, decide_eq_true_eq] at digit
    constructor
    · exact UInt32.le_iff_toNat_le.mp digit.1
    · exact UInt32.le_iff_toNat_le.mp digit.2
  refine ⟨bounds.1, bounds.2, ?_⟩
  unfold byteOf
  rw [Nat.toUInt8, UInt8.toNat_ofNat']
  exact Nat.mod_eq_of_lt (by omega)

theorem digits_decimal (n : Nat) : Digits (decimal n) := by
  intro c member
  obtain ⟨ch, chMem, rfl⟩ := List.mem_map.mp member
  have digit := Nat.isDigit_of_mem_toDigits (by decide) (by decide) chMem
  obtain ⟨low, high, same⟩ := toNat_byteOf_of_isDigit digit
  simp only [isdigit, same, low, high, decide_true, Bool.and_self]

/-- A printed number reads back as itself. -/
@[simp]
theorem decVal_decimal (n : Nat) : decVal (decimal n) = n := by
  have readBack : ∀ (cs : List Char) (k : Nat), (∀ c ∈ cs, c.isDigit = true) →
      decValFrom k (cs.map byteOf) = Nat.ofDigitChars 10 cs k := by
    intro cs
    induction cs with
    | nil =>
      intro k _
      simp [decValFrom]
    | cons c cs ih =>
      intro k digit
      have head := toNat_byteOf_of_isDigit (digit c List.mem_cons_self)
      have tail := ih (k * 10 + digitVal (byteOf c))
        (fun d member => digit d (List.mem_cons_of_mem c member))
      simp only [decValFrom, List.map_cons, List.foldl_cons] at tail ⊢
      rw [tail, Nat.ofDigitChars_cons, digitVal, head.2.2, Nat.mul_comm k 10]
      rfl
  calc
    decVal (decimal n) = Nat.ofDigitChars 10 (Nat.toDigits 10 n) 0 :=
      readBack _ 0 fun c member => Nat.isDigit_of_mem_toDigits (by decide) (by decide) member
    _ = n := Nat.ofDigitChars_toDigits (by decide) (by decide)

/-- A number below `10 ^ k` prints in at most `k` digits. -/
theorem length_decimal_le {n k : Nat} (positive : 0 < k) (bound : n < 10 ^ k) :
    (decimal n).length ≤ k := by
  rw [decimal, List.length_map]
  exact (Nat.length_toDigits_le_iff (by decide) positive).mpr bound

end Nutcracker.Lib
