import Mathlib.Analysis.SpecialFunctions.Complex.Arg
import Mathlib.Analysis.SpecialFunctions.Pow.NNReal
import Mathlib.Analysis.SpecialFunctions.Trigonometric.Arctan

/-!
# The functions of `math.h` and checked division

Programs that divide, over a field with the functions of `math.h`: a division by zero has no result,
so that a value that is there was computed without one.

* `CMath`, `CAtan`: the functions, with those of the real numbers;
* `checkedDiv`: division;
* `norm3`, `norm4`: lengths, and when they are zero.
-/

/-- Functions of `math.h`. -/
class CMath (K : Type) where
  sqrt : K → K
  sin : K → K
  cos : K → K
  atan2 : K → K → K

noncomputable instance : CMath ℝ where
  sqrt := Real.sqrt
  sin := Real.sin
  cos := Real.cos
  atan2 y x := Complex.arg ⟨x, y⟩

/-- `atan` and `M_PI` of `math.h`. -/
class CAtan (K : Type) where
  atan : K → K
  pi : K

noncomputable instance : CAtan ℝ where
  atan := Real.arctan
  pi := Real.pi

section

variable {K : Type} [Field K] [DecidableEq K]

/-- A division, which has a result when the divisor is not zero. -/
def checkedDiv (a b : K) : Option K := if b = 0 then none else some (a / b)

@[simp] theorem checkedDiv_zero (a : K) : checkedDiv a 0 = none := if_pos rfl

theorem checkedDiv_of_ne (a : K) {b : K} (h : b ≠ 0) : checkedDiv a b = some (a / b) := if_neg h

end

section

variable {K : Type} [Field K] [CMath K]

/-- The length of a vector of three numbers. -/
def norm3 (x y z : K) : K := CMath.sqrt (x * x + y * y + z * z)

/-- The length of a vector of four numbers. -/
def norm4 (w x y z : K) : K := CMath.sqrt (w * w + x * x + y * y + z * z)

end

section

variable {w x y z : ℝ}

theorem norm4_mul_self : norm4 w x y z * norm4 w x y z = w * w + x * x + y * y + z * z := by
  refine Real.mul_self_sqrt ?_
  have hw := mul_self_nonneg w
  have hx := mul_self_nonneg x
  have hy := mul_self_nonneg y
  have hz := mul_self_nonneg z
  linarith

theorem norm3_eq_norm4 : norm3 x y z = norm4 0 x y z := by
  rw [norm3, norm4, mul_zero, zero_add]

theorem norm3_mul_self : norm3 x y z * norm3 x y z = x * x + y * y + z * z := by
  rw [norm3_eq_norm4, norm4_mul_self, mul_zero, zero_add]

theorem norm4_nonneg : 0 ≤ norm4 w x y z := Real.sqrt_nonneg _

/-- A length is zero when the vector is. -/
theorem norm4_eq_zero_iff : norm4 w x y z = 0 ↔ w = 0 ∧ x = 0 ∧ y = 0 ∧ z = 0 := by
  constructor
  · intro h
    have hsum := norm4_mul_self (w := w) (x := x) (y := y) (z := z)
    rw [h, mul_zero] at hsum
    have hw := mul_self_nonneg w
    have hx := mul_self_nonneg x
    have hy := mul_self_nonneg y
    have hz := mul_self_nonneg z
    exact ⟨mul_self_eq_zero.mp (by linarith), mul_self_eq_zero.mp (by linarith),
      mul_self_eq_zero.mp (by linarith), mul_self_eq_zero.mp (by linarith)⟩
  · rintro ⟨rfl, rfl, rfl, rfl⟩
    exact mul_self_eq_zero.mp (by rw [norm4_mul_self]; ring)

theorem norm3_pos_iff : 0 < norm3 x y z ↔ ¬ (x = 0 ∧ y = 0 ∧ z = 0) := by
  rw [norm3_eq_norm4, norm4_nonneg.lt_iff_ne', Ne, norm4_eq_zero_iff, and_iff_right rfl]

/-- A vector divided by its length has the length one. -/
theorem norm4_div_self (h : norm4 w x y z ≠ 0) : norm4 (w / norm4 w x y z) (x / norm4 w x y z)
    (y / norm4 w x y z) (z / norm4 w x y z) = 1 := by
  have hself := norm4_mul_self (w := w) (x := x) (y := y) (z := z)
  have hone : norm4 (w / norm4 w x y z) (x / norm4 w x y z) (y / norm4 w x y z)
      (z / norm4 w x y z) * norm4 (w / norm4 w x y z) (x / norm4 w x y z) (y / norm4 w x y z)
      (z / norm4 w x y z) = 1 := by
    rw [norm4_mul_self]
    field_simp
    linarith
  exact (mul_self_eq_one_iff.mp hone).resolve_right fun hneg => by
    linarith [norm4_nonneg (w := w / norm4 w x y z) (x := x / norm4 w x y z)
      (y := y / norm4 w x y z) (z := z / norm4 w x y z)]

theorem norm3_div_self (h : norm3 x y z ≠ 0) :
    norm3 (x / norm3 x y z) (y / norm3 x y z) (z / norm3 x y z) = 1 := by
  rw [norm3_eq_norm4] at h ⊢
  simpa [norm3_eq_norm4] using norm4_div_self h

end
