import Nutcracker.Server.Hashkit
import Mathlib.Algebra.BigOperators.Ring.List
import Mathlib.Data.Nat.Cast.Order.Field

/-!
# The points of a server in floating-point arithmetic

`ketama_update` computes the number of points of a server in `float`.  Every
operation errs by less than a thousandth, so the quarter of the share stays between
39 and 41 times the exact quotient; the last product with four is exact.
-/

namespace Nutcracker

open Lib

/-- An operation in `float` adds an error of at most a thousandth. -/
theorem float32_within {a b x y : ℚ} (near : Within a b x y) (a_nonneg : 0 ≤ a) (ordered : a ≤ b)
    (exact : 0 ≤ x) : Within (a * (999 / 1000)) (b * (1001 / 1000)) x (float32 y) :=
  (near.round (near.nonneg a_nonneg exact)).weaken exact
    (mul_le_mul_of_nonneg_left (by norm_num) a_nonneg)
    (mul_le_mul_of_nonneg_left (by norm_num) (a_nonneg.trans ordered))

theorem float32_near {q : ℚ} (nonneg : 0 ≤ q) :
    Within (999 / 1000) (1001 / 1000) q (float32 q) := by
  have near := float32_within (Within.refl q) (by norm_num) le_rfl nonneg
  rwa [one_mul, one_mul] at near

theorem float64_near {q : ℚ} (nonneg : 0 ≤ q) :
    Within (999 / 1000) (1001 / 1000) q (float64 q) :=
  ((Within.refl q).round nonneg).weaken nonneg (by norm_num) (by norm_num)

theorem float32_nonneg {q : ℚ} (nonneg : 0 ≤ q) : 0 ≤ float32 q :=
  (float32_near nonneg).nonneg (by norm_num) nonneg

theorem ketamaQuarter_nonneg (weight totalWeight nlive : Nat) :
    0 ≤ ketamaQuarter weight totalWeight nlive := by
  have cast : ∀ n : Nat, 0 ≤ float32 n := fun n => float32_nonneg (Nat.cast_nonneg n)
  have pct := float32_nonneg (div_nonneg (cast weight) (cast totalWeight))
  have points := float32_nonneg (mul_nonneg pct (by norm_num : (0 : ℚ) ≤ 160))
  have quarter := float32_nonneg (div_nonneg points (by norm_num : (0 : ℚ) ≤ 4))
  exact float32_nonneg (mul_nonneg quarter (cast nlive))

/-- The product is within a hundredth of the exact one. -/
theorem ketamaQuarter_near {weight totalWeight nlive : Nat} (total : 0 < totalWeight) :
    Within (396 / 10) (404 / 10) (weight * nlive / totalWeight)
      (ketamaQuarter weight totalWeight nlive) := by
  have W : (0 : ℚ) < totalWeight := by exact_mod_cast total
  have w : (0 : ℚ) ≤ weight := Nat.cast_nonneg weight
  have n : (0 : ℚ) ≤ nlive := Nat.cast_nonneg nlive
  have share : (0 : ℚ) ≤ weight * (totalWeight : ℚ)⁻¹ := mul_nonneg w (inv_nonneg.mpr W.le)
  have ratio := (float32_near w).mul ((float32_near W.le).inv (by norm_num) W)
    (by norm_num) (by norm_num) w (inv_nonneg.mpr W.le)
  have pct := float32_within ratio (by norm_num) (by norm_num) share
  have points := float32_within
    (pct.mul (Within.refl 160) (by norm_num) (by norm_num) share (by norm_num))
    (by norm_num) (by norm_num) (by positivity)
  have quarter := float32_within
    (points.mul (Within.refl 4⁻¹) (by norm_num) (by norm_num) (by positivity) (by norm_num))
    (by norm_num) (by norm_num) (by positivity)
  have product := float32_within
    (quarter.mul (float32_near n) (by norm_num) (by norm_num) (by positivity) n)
    (by norm_num) (by norm_num) (by positivity)
  have scaled := product.weaken (by positivity) (c := 99 / 100) (d := 101 / 100)
    (by norm_num) (by norm_num)
  have exact : (weight * (totalWeight : ℚ)⁻¹ * 160 * 4⁻¹ * nlive : ℚ) =
      40 * (weight * nlive / totalWeight) := by ring
  rw [exact] at scaled
  simp only [ketamaQuarter, div_eq_mul_inv] at scaled ⊢
  constructor
  · linarith [scaled.low]
  · linarith [scaled.high]

/-- The sum in `double` and its conversion back to `float`. -/
theorem ketamaShare_near (weight totalWeight nlive : Nat) :
    0 < ketamaShare weight totalWeight nlive ∧
      998 / 1000 * ketamaQuarter weight totalWeight nlive ≤ ketamaShare weight totalWeight nlive ∧
      ketamaShare weight totalWeight nlive ≤
        1003 / 1000 * ketamaQuarter weight totalWeight nlive + 1 := by
  have nonneg := ketamaQuarter_nonneg weight totalWeight nlive
  unfold ketamaShare
  generalize ketamaQuarter weight totalWeight nlive = quarter at *
  obtain ⟨tiny_low, tiny_high⟩ := float64_near (q := 1 / 10000000000) (by norm_num)
  generalize float64 (1 / 10000000000) = tiny at *
  obtain ⟨s_low, s_high⟩ := float64_near (q := quarter + tiny) (by linarith)
  generalize float64 (quarter + tiny) = sum at *
  obtain ⟨f_low, f_high⟩ := float32_near (q := sum) (by linarith)
  refine ⟨?_, ?_, ?_⟩ <;> linarith

/-- The product with four is exact, so the number of points is a multiple of four. -/
theorem ketamaPoints_eq (weight totalWeight nlive : Nat) :
    ketamaPoints weight totalWeight nlive = ⌊ketamaShare weight totalWeight nlive⌋₊ * 4 := by
  have summed : 0 < float64 (ketamaQuarter weight totalWeight nlive +
      float64 (1 / 10000000000)) := by
    have nonneg := ketamaQuarter_nonneg weight totalWeight nlive
    have tiny := (float64_near (q := 1 / 10000000000) (by norm_num)).low
    have sum := (float64_near (q := ketamaQuarter weight totalWeight nlive +
      float64 (1 / 10000000000)) (by linarith)).low
    linarith
  have share : Representable 24 (ketamaShare weight totalWeight nlive) :=
    representable_roundTo summed
  have product := share.floor.mul_two_zpow 2
  have exact := roundTo_of_representable (by norm_num) (by positivity) product
  have four : (2 : ℚ) ^ (2 : ℤ) = 4 := by norm_num
  rw [four] at exact
  have result : float32 (⌊ketamaShare weight totalWeight nlive⌋₊ * 4) =
      ((⌊ketamaShare weight totalWeight nlive⌋₊ * 4 : ℕ) : ℚ) := by
    push_cast
    exact exact
  rw [ketamaPoints, result, Nat.floor_natCast]

theorem four_dvd_ketamaPoints (weight totalWeight nlive : Nat) :
    4 ∣ ketamaPoints weight totalWeight nlive := by
  rw [ketamaPoints_eq]
  exact Nat.dvd_mul_left ..

/-- The number of points is at most a twentieth and eight points off the exact share. -/
theorem ketamaPoints_bounds {totalWeight : Nat} (weight nlive : Nat) (total : 0 < totalWeight) :
    (152 * (weight * nlive / totalWeight) - 4 : ℚ) ≤ ketamaPoints weight totalWeight nlive ∧
      (ketamaPoints weight totalWeight nlive : ℚ) ≤
        168 * (weight * nlive / totalWeight) + 8 := by
  have quarter : Within (396 / 10) (404 / 10) (weight * nlive / totalWeight)
      (ketamaQuarter weight totalWeight nlive) := ketamaQuarter_near total
  obtain ⟨q_low, q_high⟩ := quarter
  obtain ⟨positive, s_low, s_high⟩ := ketamaShare_near weight totalWeight nlive
  have exact : (0 : ℚ) ≤ weight * nlive / totalWeight := by positivity
  have floor_low := Nat.sub_one_lt_floor (ketamaShare weight totalWeight nlive)
  have floor_high := Nat.floor_le positive.le
  rw [ketamaPoints_eq]
  push_cast
  constructor <;> linarith

/-- The hash of the default configuration and the points as `ketama_update` computes them. -/
def Hashkit.fnv1a64 (ketamaHash : Bytes → Nat → Nat) (beyond : Nat → UInt8) : Hashkit where
  keyHash := hashFnv1a64
  ketamaHash
  beyond
  points := ketamaPoints
  four_dvd_points := four_dvd_ketamaPoints

end Nutcracker
