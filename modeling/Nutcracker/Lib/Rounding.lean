import Mathlib.Data.Int.Log
import Mathlib.Data.Rat.Floor
import Mathlib.Tactic.Positivity

/-!
# Rounding to a binary significand

`roundTo p q` is the nearest number to `q` with a significand of `p` bits, ties to
the even significand, in a format without bounds on the exponent.  It is what an
operation of binary floating-point arithmetic returns whose exact result is `q`,
as long as the result is in the normal range of the format.
-/

namespace Nutcracker.Lib

/-- The nearest integer, ties to the even one. -/
def roundEven (q : ℚ) : ℤ :=
  let below := ⌊q⌋
  if q - below < 1 / 2 then below
  else if 1 / 2 < q - below then below + 1
  else if below % 2 = 0 then below
  else below + 1

/-- The nearest number with a significand of `p` bits, ties to even. -/
def roundTo (p : ℕ) (q : ℚ) : ℚ :=
  let scale : ℚ := 2 ^ (Int.log 2 q - (p - 1 : ℤ))
  roundEven (q / scale) * scale

theorem roundEven_intCast (n : ℤ) : roundEven n = n := by
  simp [roundEven]

theorem abs_roundEven_sub_le (q : ℚ) : |(roundEven q : ℚ) - q| ≤ 1 / 2 := by
  have low := Int.floor_le q
  have high := Int.lt_floor_add_one q
  unfold roundEven
  simp only
  split_ifs <;> push_cast <;> rw [abs_le] <;> constructor <;> linarith

private theorem scale_pos (z : ℤ) : (0 : ℚ) < 2 ^ z :=
  zpow_pos (by norm_num) z

/-- Rounding errs by at most half a unit in the last place. -/
theorem abs_roundTo_sub_le {p : ℕ} {q : ℚ} (positive : 0 < q) :
    |roundTo p q - q| ≤ q / 2 ^ p := by
  set scale : ℚ := 2 ^ (Int.log 2 q - (p - 1 : ℤ)) with scale_eq
  have pos : 0 < scale := scale_pos _
  have unit : scale * 2 ^ p ≤ 2 * q := by
    have leading : (2 : ℚ) ^ Int.log 2 q ≤ q := by
      simpa using Int.zpow_log_le_self (b := 2) (by norm_num) positive
    calc scale * 2 ^ p = 2 * 2 ^ Int.log 2 q := by
          rw [scale_eq, ← zpow_natCast (2 : ℚ) p, ← zpow_add₀ (by norm_num),
            show Int.log 2 q - (p - 1 : ℤ) + p = 1 + Int.log 2 q by ring,
            zpow_add₀ (by norm_num), zpow_one]
      _ ≤ 2 * q := by linarith
  have nearest := abs_roundEven_sub_le (q / scale)
  have split : roundTo p q - q = ((roundEven (q / scale) : ℚ) - q / scale) * scale := by
    rw [sub_mul, div_mul_cancel₀ q pos.ne']
    rfl
  rw [split, abs_mul, abs_of_pos pos, le_div_iff₀ (by positivity)]
  have units : 0 < scale * 2 ^ p := mul_pos pos (by positivity)
  have bound := mul_le_mul_of_nonneg_right nearest units.le
  rw [mul_assoc]
  linarith

theorem roundTo_ge {p : ℕ} {q : ℚ} (nonneg : 0 ≤ q) : q * (1 - 1 / 2 ^ p) ≤ roundTo p q := by
  rcases nonneg.eq_or_lt with zero | positive
  · subst zero
    simp [roundTo, roundEven]
  · have error := (abs_le.mp (abs_roundTo_sub_le (p := p) positive)).1
    rw [mul_sub, mul_one, mul_one_div]
    linarith

theorem roundTo_le {p : ℕ} {q : ℚ} (nonneg : 0 ≤ q) : roundTo p q ≤ q * (1 + 1 / 2 ^ p) := by
  rcases nonneg.eq_or_lt with zero | positive
  · subst zero
    simp [roundTo, roundEven]
  · have error := (abs_le.mp (abs_roundTo_sub_le (p := p) positive)).2
    rw [mul_add, mul_one, mul_one_div]
    linarith

/-! ## Relative error along a computation -/

/-- The computed `y` lies between `a` and `b` times the exact `x`. -/
structure Within (a b x y : ℚ) : Prop where
  low : a * x ≤ y
  high : y ≤ b * x

namespace Within

variable {a b c d x y u v : ℚ}

theorem refl (x : ℚ) : Within 1 1 x x :=
  ⟨(one_mul x).le, (one_mul x).ge⟩

theorem nonneg (near : Within a b x y) (factor : 0 ≤ a) (exact : 0 ≤ x) : 0 ≤ y :=
  (mul_nonneg factor exact).trans near.low

theorem weaken (near : Within a b x y) (exact : 0 ≤ x) (below : c ≤ a) (above : b ≤ d) :
    Within c d x y :=
  ⟨(mul_le_mul_of_nonneg_right below exact).trans near.low,
    near.high.trans (mul_le_mul_of_nonneg_right above exact)⟩

/-- Rounding a computed value. -/
theorem round {p : ℕ} (near : Within a b x y) (nonneg : 0 ≤ y) :
    Within (a * (1 - 1 / 2 ^ p)) (b * (1 + 1 / 2 ^ p)) x (roundTo p y) := by
  have small : (1 : ℚ) / 2 ^ p ≤ 1 := by
    rw [div_le_one (by positivity)]
    exact one_le_pow₀ (by norm_num)
  have positive : (0 : ℚ) ≤ 1 / 2 ^ p := by positivity
  constructor
  · calc a * (1 - 1 / 2 ^ p) * x = a * x * (1 - 1 / 2 ^ p) := by ring
      _ ≤ y * (1 - 1 / 2 ^ p) := mul_le_mul_of_nonneg_right near.low (by linarith)
      _ ≤ roundTo p y := roundTo_ge nonneg
  · calc roundTo p y ≤ y * (1 + 1 / 2 ^ p) := roundTo_le nonneg
      _ ≤ b * x * (1 + 1 / 2 ^ p) := mul_le_mul_of_nonneg_right near.high (by linarith)
      _ = b * (1 + 1 / 2 ^ p) * x := by ring

theorem mul (first : Within a b x y) (second : Within c d u v) (a_nonneg : 0 ≤ a)
    (c_nonneg : 0 ≤ c) (x_nonneg : 0 ≤ x) (u_nonneg : 0 ≤ u) :
    Within (a * c) (b * d) (x * u) (y * v) := by
  have y_nonneg := first.nonneg a_nonneg x_nonneg
  have v_nonneg := second.nonneg c_nonneg u_nonneg
  constructor
  · calc a * c * (x * u) = a * x * (c * u) := by ring
      _ ≤ y * v := mul_le_mul first.low second.low (mul_nonneg c_nonneg u_nonneg) y_nonneg
  · calc y * v ≤ b * x * (d * u) :=
          mul_le_mul first.high second.high v_nonneg (y_nonneg.trans first.high)
      _ = b * d * (x * u) := by ring

theorem inv (near : Within a b x y) (a_pos : 0 < a) (x_pos : 0 < x) :
    Within b⁻¹ a⁻¹ x⁻¹ y⁻¹ := by
  have y_pos : 0 < y := (mul_pos a_pos x_pos).trans_le near.low
  constructor
  · rw [← mul_inv]
    exact inv_anti₀ y_pos near.high
  · rw [← mul_inv]
    exact inv_anti₀ (mul_pos a_pos x_pos) near.low

end Within

/-! ## Exact results -/

/-- The numbers with a significand of at most `p` bits. -/
def Representable (p : ℕ) (q : ℚ) : Prop :=
  ∃ (m : ℕ) (z : ℤ), m ≤ 2 ^ p ∧ q = m * 2 ^ z

/-- A representable number is not changed by rounding. -/
theorem roundTo_of_representable {p : ℕ} {q : ℚ} (precision : 0 < p) (nonneg : 0 ≤ q)
    (exact : Representable p q) : roundTo p q = q := by
  rcases nonneg.eq_or_lt with zero | positive
  · subst zero
    simp [roundTo, roundEven]
  obtain ⟨m, z, small, rfl⟩ := exact
  set q : ℚ := m * 2 ^ z with q_eq
  set scale : ℚ := 2 ^ (Int.log 2 q - (p - 1 : ℤ)) with scale_eq
  have integral : ∃ n : ℤ, q / scale = n := by
    have leading : (2 : ℚ) ^ Int.log 2 q ≤ 2 ^ (p + z : ℤ) := by
      calc (2 : ℚ) ^ Int.log 2 q ≤ q := by
            simpa using Int.zpow_log_le_self (b := 2) (by norm_num) positive
        _ ≤ 2 ^ p * 2 ^ z := by
            have cast : (m : ℚ) ≤ 2 ^ p := by exact_mod_cast small
            exact mul_le_mul_of_nonneg_right cast (scale_pos z).le
        _ = 2 ^ (p + z : ℤ) := by rw [zpow_add₀ (by norm_num), zpow_natCast]
    have order : Int.log 2 q ≤ p + z := (zpow_le_zpow_iff_right₀ (by norm_num)).mp leading
    rcases order.eq_or_lt with top | below
    · -- the significand is `2 ^ p` itself, one bit longer than the format's
      have full : m = 2 ^ p := by
        have self : (2 : ℚ) ^ Int.log 2 q ≤ q := by
          simpa using Int.zpow_log_le_self (b := 2) (by norm_num) positive
        rw [top, zpow_add₀ (by norm_num), zpow_natCast, q_eq] at self
        have cast : ((2 ^ p : ℕ) : ℚ) ≤ m := by
          push_cast
          exact le_of_mul_le_mul_right self (scale_pos z)
        exact le_antisymm small (by exact_mod_cast cast)
      refine ⟨2 ^ (p - 1), ?_⟩
      rw [scale_eq, top, q_eq, full, div_eq_iff (scale_pos _).ne']
      push_cast
      rw [← zpow_natCast, ← zpow_natCast, ← zpow_add₀ (by norm_num), ← zpow_add₀ (by norm_num)]
      congr 1
      omega
    · refine ⟨m * 2 ^ (z - (Int.log 2 q - (p - 1))).toNat, ?_⟩
      rw [scale_eq, div_eq_iff (scale_pos _).ne']
      conv_lhs => rw [q_eq]
      push_cast
      rw [mul_assoc, ← zpow_natCast, ← zpow_add₀ (by norm_num)]
      congr 2
      omega
  obtain ⟨n, quotient⟩ := integral
  have result : roundTo p q = roundEven (q / scale) * scale := rfl
  rw [result, quotient, roundEven_intCast, ← quotient, div_mul_cancel₀ q (scale_pos _).ne']

theorem representable_roundTo {p : ℕ} {q : ℚ} (positive : 0 < q) :
    Representable p (roundTo p q) := by
  set scale : ℚ := 2 ^ (Int.log 2 q - (p - 1 : ℤ)) with scale_eq
  have high : q / scale < (2 ^ p : ℕ) := by
    rw [div_lt_iff₀ (scale_pos _)]
    calc q < 2 ^ (Int.log 2 q + 1) := by
          simpa using Int.lt_zpow_succ_log_self (b := 2) (by norm_num) q
      _ = (2 ^ p : ℕ) * scale := by
          push_cast
          rw [scale_eq, ← zpow_natCast, ← zpow_add₀ (by norm_num)]
          congr 1
          ring
  have low : 0 ≤ q / scale := div_nonneg positive.le (scale_pos _).le
  have floor_low : 0 ≤ ⌊q / scale⌋ := Int.floor_nonneg.mpr low
  have floor_high : ⌊q / scale⌋ < (2 ^ p : ℕ) := Int.floor_lt.mpr (by exact_mod_cast high)
  have bounds : 0 ≤ roundEven (q / scale) ∧ roundEven (q / scale) ≤ (2 ^ p : ℕ) := by
    unfold roundEven
    simp only
    split_ifs <;> omega
  refine ⟨(roundEven (q / scale)).toNat, Int.log 2 q - (p - 1 : ℤ), by omega, ?_⟩
  have cast : ((roundEven (q / scale)).toNat : ℚ) = roundEven (q / scale) := by
    exact_mod_cast Int.toNat_of_nonneg bounds.1
  rw [cast]
  rfl

theorem Representable.floor {p : ℕ} {q : ℚ} (exact : Representable p q) :
    Representable p ⌊q⌋₊ := by
  obtain ⟨m, z, small, rfl⟩ := exact
  rcases le_or_gt 0 z with integral | fractional
  · refine ⟨m, z, small, ?_⟩
    obtain ⟨k, rfl⟩ := Int.eq_ofNat_of_zero_le integral
    have cast : (m : ℚ) * 2 ^ (k : ℤ) = ((m * 2 ^ k : ℕ) : ℚ) := by
      push_cast
      rw [zpow_natCast]
    rw [cast, Nat.floor_natCast]
  · refine ⟨⌊(m : ℚ) * 2 ^ z⌋₊, 0, le_trans ?_ small, by simp⟩
    have shrinks : (2 : ℚ) ^ z ≤ 1 := zpow_le_one_of_nonpos₀ (by norm_num) fractional.le
    have below : (m : ℚ) * 2 ^ z ≤ m := mul_le_of_le_one_right (Nat.cast_nonneg m) shrinks
    calc ⌊(m : ℚ) * 2 ^ z⌋₊ ≤ ⌊(m : ℚ)⌋₊ := Nat.floor_le_floor below
      _ = m := Nat.floor_natCast m

theorem Representable.mul_two_zpow {p : ℕ} {q : ℚ} (exact : Representable p q) (k : ℤ) :
    Representable p (q * 2 ^ k) := by
  obtain ⟨m, z, small, rfl⟩ := exact
  exact ⟨m, z + k, small, by rw [zpow_add₀ (by norm_num), mul_assoc]⟩

end Nutcracker.Lib
