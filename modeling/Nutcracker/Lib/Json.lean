import Mathlib.Data.List.Induction
import Nutcracker.Lib.Decimal

/-!
# JSON texts

The texts of JSON values over bytes: strings without escapes, integers, and objects.
`Json.Text v w` says that `w` is a text of the value `v`; blanks may follow a colon and a
comma.
-/

namespace Nutcracker.Lib

/-! ## Integers -/

/-- The decimal numeral of an integer. -/
def intDecimal (i : Int) : List UInt8 :=
  if i < 0 then 45 :: decimal i.natAbs else decimal i.natAbs

theorem length_intDecimal_le {i : Int} {k : Nat} (positive : 0 < k) (bound : i.natAbs < 10 ^ k) :
    (intDecimal i).length ≤ k + 1 := by
  have digits := length_decimal_le positive bound
  unfold intDecimal
  split
  · exact Nat.succ_le_succ digits
  · exact digits.trans k.le_succ

theorem decVal_lt {ds : List UInt8} (digits : Digits ds) : decVal ds < 10 ^ ds.length := by
  induction ds using List.reverseRecOn with
  | nil => exact Nat.one_pos
  | append_singleton ds c ih =>
    obtain ⟨front, last⟩ := (digits_append ds [c]).mp digits
    have value := ih front
    have digit : digitVal c ≤ 9 := by
      have bounds := (digits_singleton c).mp last
      simp only [isdigit, Bool.and_eq_true, decide_eq_true_eq] at bounds
      rw [digitVal]
      omega
    rw [decVal_append_singleton, List.length_append, List.length_singleton, Nat.pow_succ]
    omega

/-- A numeral of several digits does not start with a zero. -/
theorem decimal_head (n : Nat) (ds : List UInt8) : decimal n = 48 :: ds → ds = [] := by
  intro zero
  by_contra more
  have digits := digits_decimal n
  rw [zero, digits_cons] at digits
  have value : decVal ds = n := by
    rw [← decVal_decimal n, zero]
    rfl
  have short : (decimal n).length ≤ ds.length :=
    length_decimal_le (List.length_pos_iff.mpr more) (value ▸ decVal_lt digits.2)
  rw [zero, List.length_cons] at short
  omega

/-! ## Values and their texts -/

inductive Json where
  | str (text : List UInt8)
  | num (value : Int)
  | obj (members : List (List UInt8 × Json))

/-- A text that a string can hold without escapes: it has no quote, backslash or control
character. -/
def Unescaped (s : List UInt8) : Prop :=
  ∀ c ∈ s, 32 ≤ c.toNat ∧ c ≠ 34 ∧ c ≠ 92

instance (s : List UInt8) : Decidable (Unescaped s) :=
  inferInstanceAs (Decidable (∀ c ∈ s, _))

def quoted (s : List UInt8) : List UInt8 :=
  34 :: (s ++ [34])

/-- The text of an integer: digits without a leading zero, after a minus if it is negative. -/
def IntegerText (i : Int) (w : List UInt8) : Prop :=
  ∃ ds : List UInt8, ds ≠ [] ∧ Digits ds ∧ (∀ rest, ds = 48 :: rest → rest = []) ∧
    (w = ds ∧ i = decVal ds ∨ w = 45 :: ds ∧ i = -decVal ds)

def Spaces (w : List UInt8) : Prop :=
  ∀ c ∈ w, c = 32

namespace Json

mutual

inductive Text : Json → List UInt8 → Prop
  | str {s : List UInt8} : Unescaped s → Text (.str s) (quoted s)
  | num {i : Int} {w : List UInt8} : IntegerText i w → Text (.num i) w
  | empty : Text (.obj []) [123, 125]
  | obj {members : List (List UInt8 × Json)} {w : List UInt8} :
      Members members w → Text (.obj members) (123 :: (w ++ [125]))

/-- The texts of the members of an object, one or more. -/
inductive Members : List (List UInt8 × Json) → List UInt8 → Prop
  | one {key b w : List UInt8} {v : Json} :
      Unescaped key → Spaces b → Text v w → Members [(key, v)] (quoted key ++ 58 :: (b ++ w))
  | cons {key b b' w w' : List UInt8} {v : Json} {rest : List (List UInt8 × Json)} :
      Unescaped key → Spaces b → Text v w → Spaces b' → Members rest w' →
      Members ((key, v) :: rest) (quoted key ++ 58 :: (b ++ w ++ 44 :: (b' ++ w')))

end

theorem integerText_intDecimal (i : Int) : IntegerText i (intDecimal i) := by
  refine ⟨decimal i.natAbs, decimal_ne_nil _, digits_decimal _, decimal_head _, ?_⟩
  rw [intDecimal, decVal_decimal]
  split
  · exact Or.inr ⟨rfl, by omega⟩
  · exact Or.inl ⟨rfl, by omega⟩

theorem Members.append {members members' : List (List UInt8 × Json)} {w w' b : List UInt8}
    (first : Members members w) (second : Members members' w') (spaces : Spaces b) :
    Members (members ++ members') (w ++ 44 :: (b ++ w')) := by
  match first with
  | .one key colon value =>
    have joined := Members.cons key colon value spaces second
    simpa only [List.nil_append, List.append_assoc, List.cons_append] using joined
  | .cons key colon value comma rest =>
    have joined := Members.cons key colon value comma (Members.append rest second spaces)
    simpa only [List.append_assoc, List.cons_append] using joined

/-- Members that are each followed by a comma and blanks; the last comma is none of the text. -/
theorem Members.join {α : Type} {member : α → List UInt8 × Json} {item : α → List UInt8}
    {b : List UInt8} (spaces : Spaces b) {l : List α} (some_ : l ≠ [])
    (each : ∀ a ∈ l, ∃ w, item a = w ++ 44 :: b ∧ Members [member a] w) :
    ∃ w, l.flatMap item = w ++ 44 :: b ∧ Members (l.map member) w := by
  induction l with
  | nil => exact absurd rfl some_
  | cons a l ih =>
    obtain ⟨⟨first, text, member⟩, rest⟩ := List.forall_mem_cons.mp each
    by_cases last : l = []
    · subst last
      exact ⟨first, by simp [text], member⟩
    · obtain ⟨w, joined, members⟩ := ih last rest
      refine ⟨first ++ 44 :: (b ++ w), ?_, member.append members spaces⟩
      rw [List.flatMap_cons, text, joined]
      simp only [List.append_assoc, List.cons_append]

end Json

end Nutcracker.Lib
