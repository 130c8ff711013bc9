import LgMagic.Lib.Binary64

/-!
# Numbers of type `double`

The numbers of C programs, over the type that stands for `double`: binary64 values where rounding
matters, rationals where a program is read over exact arithmetic.

* `CNum`: constants and comparisons;
* `CArith`: the arithmetic and the conversion to an integer;
* `FitsInt`: the range of `int`;
* `abs_sub_toInt_lt`: what the conversion of an exact number leaves.
-/

/-- Constants and the comparison operators of `double`. -/
class CNum (F : Type) where
  /-- A constant, or the value an integer is converted to. -/
  ofRat : ℚ → F
  lt : F → F → Bool
  le : F → F → Bool

/-- The arithmetic of `double`. -/
class CArith (F : Type) extends CNum F where
  neg : F → F
  add : F → F → F
  sub : F → F → F
  mul : F → F → F
  /-- The conversion to `int`, towards zero. -/
  toInt : F → ℤ

open Binary64 in
instance : CNum Double where
  ofRat q := .ofRat (decide (q < 0)) |q|
  lt := Double.lt
  le := Double.le

open Binary64 in
instance : CArith Double where
  neg := Double.neg
  add := Double.add
  sub := Double.sub
  mul := Double.mul
  toInt := Double.toInt

instance : CArith ℚ where
  ofRat := id
  lt x y := decide (x < y)
  le x y := decide (x ≤ y)
  neg x := -x
  add x y := x + y
  sub x y := x - y
  mul x y := x * y
  toInt x := if 0 ≤ x then ⌊x⌋ else ⌈x⌉

/-! ## Exact numbers and `int` -/

/-- The value is in the range of `int`. -/
def FitsInt (x : ℚ) : Prop := -2 ^ 31 ≤ x ∧ x ≤ 2 ^ 31 - 1

instance (x : ℚ) : Decidable (FitsInt x) := inferInstanceAs (Decidable (_ ∧ _))

theorem fitsInt_of_abs_le {x : ℚ} (h : |x| ≤ 2 ^ 31 - 1) : FitsInt x := by
  obtain ⟨hlo, hhi⟩ := abs_le.mp h
  exact ⟨by linarith, hhi⟩

/-- The conversion to an integer leaves less than one. -/
theorem abs_sub_toInt_lt (x : ℚ) : |x - CArith.toInt x| < 1 := by
  simp only [CArith.toInt]
  split_ifs
  · rw [abs_of_nonneg (by linarith [Int.floor_le x])]
    linarith [Int.lt_floor_add_one x]
  · rw [abs_of_nonpos (by linarith [Int.le_ceil x])]
    linarith [Int.ceil_lt_add_one x]

/-- The conversion to an integer goes towards zero. -/
theorem abs_toInt_le (x : ℚ) : |(CArith.toInt x : ℚ)| ≤ |x| := by
  simp only [CArith.toInt]
  split_ifs with h
  · rw [abs_of_nonneg (by exact_mod_cast Int.floor_nonneg.mpr h), abs_of_nonneg h]
    exact Int.floor_le x
  · have hneg : x ≤ 0 := (not_le.mp h).le
    have hceil : ((⌈x⌉ : ℤ) : ℚ) ≤ 0 := by exact_mod_cast Int.ceil_le.mpr (by simpa using hneg)
    rw [abs_of_nonpos hceil, abs_of_nonpos hneg]
    linarith [Int.le_ceil x]
