import LgMagic.Lib.Rounding
import Mathlib.Tactic.IntervalCases

/-!
# Binary interchange formats

The values of a binary floating-point format of any width and the words that they are stored as: a
sign, a biased exponent and the trailing bits of the significand. Values carry the range of the
format; all words of not-a-number stand for one value.

* `Format`, `Finite`, `Value`: formats and their values;
* `Value.ofRat`: the value nearest to a rational magnitude, an infinity on overflow;
* `Value.toWord`, `Value.ofWord`: words;
* `ofWord_toWord`: what is stored is read back.
-/

namespace Interchange

open Rounding

/-- The widths of the trailing significand and of the exponent. -/
structure Format where
  fracBits : ℕ
  expBits : ℕ
  fracBits_pos : 0 < fracBits
  one_lt_expBits : 1 < expBits

/-- The format of the C type `float`. -/
def Format.single : Format := ⟨23, 8, by decide, by decide⟩

/-- The number of words of an exponent field. -/
def Format.expRange (f : Format) : ℕ := 2 ^ f.expBits

/-- The number of words of a trailing significand. -/
def Format.fracRange (f : Format) : ℕ := 2 ^ f.fracBits

/-- The exponent of the unit in the last place of the smallest values. -/
def Format.eMin (f : Format) : ℤ := 2 - 2 ^ (f.expBits - 1) - f.fracBits

/-- The exponent of the unit in the last place of the largest values. -/
def Format.eMax (f : Format) : ℤ := f.eMin + (f.expRange - 3 : ℕ)

theorem Format.fracRange_pos (f : Format) : 0 < f.fracRange := Nat.two_pow_pos _

theorem Format.four_le_expRange (f : Format) : 4 ≤ f.expRange := by
  have h : 2 ^ 2 ≤ 2 ^ f.expBits := Nat.pow_le_pow_right (by decide) f.one_lt_expBits
  exact h

/-- A finite value `± m * 2 ^ e` in canonical form: either the significand has all its bits or the
exponent is the least one. -/
structure Finite (f : Format) where
  /-- The sign bit. -/
  neg : Bool
  /-- The significand. -/
  m : ℕ
  /-- The exponent of the unit in the last place. -/
  e : ℤ
  m_lt : m < 2 * f.fracRange
  e_min : f.eMin ≤ e
  e_max : e ≤ f.eMax
  canonical : e = f.eMin ∨ f.fracRange ≤ m
  deriving DecidableEq

/-- A value of the format. -/
inductive Value (f : Format) where
  | nan
  | inf (neg : Bool)
  | finite (x : Finite f)
  deriving DecidableEq

variable {f : Format}

namespace Finite

/-- The magnitude of a finite value. -/
def mag (x : Finite f) : ℚ := x.m * (2 : ℚ) ^ x.e

/-- The rational a finite value stands for. -/
def toRat (x : Finite f) : ℚ := if x.neg then -x.mag else x.mag

theorem mag_nonneg (x : Finite f) : 0 ≤ x.mag := by
  unfold mag
  positivity

end Finite

/-! ## Rounding -/

/-- The exponent of the unit in the last place of the values around `q`. -/
def unit (f : Format) (q : ℚ) : ℤ := max (Int.log 2 q - f.fracBits) f.eMin

/-- The significand and exponent of the value nearest to a positive `q`, before the overflow check. -/
def sig (f : Format) (q : ℚ) : Sig := roundSig 2 (f.fracBits + 1) (unit f q) q

theorem sig_m_lt (f : Format) (q : ℚ) : (sig f q).m < 2 * f.fracRange := by
  rw [Format.fracRange, ← pow_succ']
  refine roundSig_m_lt (by norm_num) (Nat.succ_pos _) ?_
  refine lt_of_lt_of_le (Int.lt_zpow_succ_log_self (R := ℚ) (b := 2) (by norm_num) q) ?_
  have hunit : Int.log 2 q - f.fracBits ≤ unit f q := le_max_left _ _
  exact_mod_cast zpow_le_zpow_right₀ (by norm_num : (1 : ℚ) ≤ 2) (by push_cast; omega)

theorem sig_e_min (f : Format) (q : ℚ) : f.eMin ≤ (sig f q).e := by
  have hunit : f.eMin ≤ unit f q := le_max_right _ _
  rcases roundSig_e 2 (f.fracBits + 1) (unit f q) q with he | ⟨he, -⟩ <;> rw [sig, he] <;> omega

theorem sig_canonical (f : Format) {q : ℚ} (hq : 0 < q) :
    (sig f q).e = f.eMin ∨ f.fracRange ≤ (sig f q).m := by
  rcases le_or_gt (Int.log 2 q - f.fracBits) f.eMin with hlow | hhigh
  · have hunit : unit f q = f.eMin := max_eq_right hlow
    rcases roundSig_e 2 (f.fracBits + 1) (unit f q) q with he | ⟨-, hm⟩
    · exact .inl (by rw [sig, he, hunit])
    · exact .inr (by rw [sig, hm, Nat.add_sub_cancel]; exact le_rfl)
  · have hunit : unit f q = Int.log 2 q - f.fracBits := max_eq_left hhigh.le
    refine .inr (le_roundSig_m (β := 2) (p := f.fracBits + 1) (by norm_num) ?_)
    have hlog := Int.zpow_log_le_self (R := ℚ) (b := 2) (by norm_num) hq
    rw [hunit, Nat.add_sub_cancel, sub_add_cancel]
    exact_mod_cast hlog

namespace Value

/-- The zero of a sign. -/
def zero (f : Format) (neg : Bool) : Value f :=
  .finite ⟨neg, 0, f.eMin, Nat.mul_pos two_pos f.fracRange_pos, le_rfl, by simp [Format.eMax], .inl rfl⟩

/-- The value of the given sign nearest to the magnitude `q`, ties to even; an infinity when the
magnitude is out of range. -/
def ofRat (f : Format) (neg : Bool) (q : ℚ) : Value f :=
  if hq : 0 < q then
    if he : (sig f q).e ≤ f.eMax then
      .finite ⟨neg, (sig f q).m, (sig f q).e, sig_m_lt f q, sig_e_min f q, he, sig_canonical f hq⟩
    else .inf neg
  else .zero f neg

/-! ## Words -/

/-- The exponent field of infinities and of not-a-number. -/
def specialExp (f : Format) : ℕ := f.expRange - 1

/-- The word of the three fields. -/
def pack (f : Format) (neg : Bool) (exp frac : ℕ) : ℕ :=
  (neg.toNat * f.expRange + exp) * f.fracRange + frac

/-- The fields of a finite value: one that does not have all its bits has the exponent zero. -/
def expField (x : Finite f) : ℕ := if x.m < f.fracRange then 0 else (x.e - f.eMin).toNat + 1

/-- The word of a value. -/
def toWord : Value f → ℕ
  | .nan => pack f false (specialExp f) (2 ^ (f.fracBits - 1))
  | .inf neg => pack f neg (specialExp f) 0
  | .finite x => pack f x.neg (expField x) (x.m % f.fracRange)

/-- The finite value of the fields. -/
def ofFields (f : Format) (neg : Bool) (exp frac : ℕ) : Value f :=
  if hexp : exp < specialExp f then
    if h0 : exp = 0 then
      .finite ⟨neg, frac % f.fracRange, f.eMin,
        (Nat.mod_lt _ f.fracRange_pos).trans_le (Nat.le_mul_of_pos_left _ two_pos), le_rfl,
        by simp [Format.eMax], .inl rfl⟩
    else
      .finite ⟨neg, f.fracRange + frac % f.fracRange, f.eMin + (exp - 1 : ℕ),
        by have := Nat.mod_lt frac f.fracRange_pos; omega, by omega,
        by rw [Format.eMax]; rw [specialExp] at hexp; omega, .inr (Nat.le_add_right _ _)⟩
  else if frac = 0 then .inf neg
  else .nan

/-- The value of a word. -/
def ofWord (f : Format) (n : ℕ) : Value f :=
  ofFields f (n / f.fracRange / f.expRange % 2 = 1) (n / f.fracRange % f.expRange) (n % f.fracRange)

theorem ofWord_pack (neg : Bool) {exp frac : ℕ} (hexp : exp < f.expRange) (hfrac : frac < f.fracRange) :
    ofWord f (pack f neg exp frac) = ofFields f neg exp frac := by
  have hexpPos : 0 < f.expRange := by omega
  have hhigh : pack f neg exp frac / f.fracRange = neg.toNat * f.expRange + exp := by
    rw [pack, Nat.mul_comm, Nat.mul_add_div f.fracRange_pos, Nat.div_eq_of_lt hfrac, Nat.add_zero]
  have hlow : pack f neg exp frac % f.fracRange = frac := by
    rw [pack, Nat.mul_comm, Nat.mul_add_mod, Nat.mod_eq_of_lt hfrac]
  have hsign : (neg.toNat * f.expRange + exp) / f.expRange = neg.toNat := by
    rw [Nat.mul_comm, Nat.mul_add_div hexpPos, Nat.div_eq_of_lt hexp, Nat.add_zero]
  have hfield : (neg.toNat * f.expRange + exp) % f.expRange = exp := by
    rw [Nat.mul_comm, Nat.mul_add_mod, Nat.mod_eq_of_lt hexp]
  rw [ofWord, hhigh, hlow, hsign, hfield]
  cases neg <;> rfl

theorem pack_lt (neg : Bool) {exp frac : ℕ} (hexp : exp < f.expRange) (hfrac : frac < f.fracRange) :
    pack f neg exp frac < 2 * f.expRange * f.fracRange := by
  have hsign : neg.toNat ≤ 1 := Bool.toNat_le neg
  have hhigh : neg.toNat * f.expRange + exp + 1 ≤ 2 * f.expRange := by
    have := Nat.mul_le_mul_right f.expRange hsign
    omega
  calc pack f neg exp frac < (neg.toNat * f.expRange + exp) * f.fracRange + f.fracRange := by
        rw [pack]; omega
    _ = (neg.toNat * f.expRange + exp + 1) * f.fracRange := by ring
    _ ≤ 2 * f.expRange * f.fracRange := Nat.mul_le_mul_right _ hhigh

theorem specialExp_lt (f : Format) : specialExp f < f.expRange := by
  have := f.four_le_expRange
  rw [specialExp]
  omega

/-- The exponent field of a finite value is not the special one. -/
theorem expField_lt (x : Finite f) : expField x < specialExp f := by
  have hrange := f.four_le_expRange
  have hmax := x.e_max
  have hmin := x.e_min
  rw [Format.eMax] at hmax
  rw [expField, specialExp]
  split_ifs <;> omega

theorem quiet_lt (f : Format) : 2 ^ (f.fracBits - 1) < f.fracRange :=
  Nat.pow_lt_pow_right (by decide) (Nat.sub_lt f.fracBits_pos one_pos)

/-- The fields of a finite value are those of this value. -/
theorem ofFields_finite (x : Finite f) :
    ofFields f x.neg (expField x) (x.m % f.fracRange) = .finite x := by
  rw [ofFields, dif_pos (expField_lt x)]
  obtain ⟨neg, m, e, hm, hmin, hmax, hcanonical⟩ := x
  simp only [expField, Nat.mod_mod]
  by_cases hsmall : m < f.fracRange
  · have he : e = f.eMin := hcanonical.resolve_right (not_le.mpr hsmall)
    simp only [hsmall, if_true, dif_pos, Nat.mod_eq_of_lt hsmall, he]
  · have hfrac : f.fracRange + m % f.fracRange = m := by
      rw [Nat.mod_eq_sub_mod (not_lt.mp hsmall), Nat.mod_eq_of_lt (by omega)]
      omega
    have he : f.eMin + (((e - f.eMin).toNat + 1 - 1 : ℕ) : ℤ) = e := by omega
    simp only [hsmall, if_false, Nat.succ_ne_zero, dif_neg, not_false_eq_true, hfrac, he]

/-- What is stored is read back. -/
theorem ofWord_toWord (v : Value f) : ofWord f v.toWord = v := by
  cases v with
  | nan =>
    have hne : 2 ^ (f.fracBits - 1) ≠ 0 := (Nat.two_pow_pos _).ne'
    rw [toWord, ofWord_pack false (specialExp_lt f) (quiet_lt f), ofFields,
      dif_neg (lt_irrefl _), if_neg hne]
  | inf neg =>
    rw [toWord, ofWord_pack neg (specialExp_lt f) f.fracRange_pos, ofFields,
      dif_neg (lt_irrefl _), if_pos rfl]
  | finite x =>
    have hexp := (expField_lt x).trans (specialExp_lt f)
    rw [toWord, ofWord_pack x.neg hexp (Nat.mod_lt _ f.fracRange_pos), ofFields_finite]

theorem toWord_lt (v : Value f) : v.toWord < 2 * f.expRange * f.fracRange := by
  cases v with
  | nan => exact pack_lt false (specialExp_lt f) (quiet_lt f)
  | inf neg => exact pack_lt neg (specialExp_lt f) f.fracRange_pos
  | finite x =>
    exact pack_lt x.neg ((expField_lt x).trans (specialExp_lt f)) (Nat.mod_lt _ f.fracRange_pos)

/-! ## Operators -/

/-- The C operator `<`: false as soon as one side is not a number. -/
def lt : Value f → Value f → Bool
  | .nan, _ | _, .nan => false
  | .inf a, .inf b => a && !b
  | .inf a, .finite _ => a
  | .finite _, .inf b => !b
  | .finite x, .finite y => decide (x.toRat < y.toRat)

/-- The C operator `<=`. -/
def le : Value f → Value f → Bool
  | .nan, _ | _, .nan => false
  | .inf a, .inf b => a || !b
  | .inf a, .finite _ => a
  | .finite _, .inf b => !b
  | .finite x, .finite y => decide (x.toRat ≤ y.toRat)

/-- The unary operator `-`. -/
def neg : Value f → Value f
  | .nan => .nan
  | .inf a => .inf !a
  | .finite x => .finite { x with neg := !x.neg }

/-- The functions `fabs` of the math library. -/
def abs : Value f → Value f
  | .nan => .nan
  | .inf _ => .inf false
  | .finite x => .finite { x with neg := false }

/-- Negating the negative values gives the magnitude but for the sign of a zero, which no limit that is
not negative sees. -/
theorem lt_abs {c : Value f} (hc : lt c (zero f false) = false) (x : Value f) :
    lt c (if lt x (zero f false) then neg x else x) = lt c (abs x) := by
  have hzero (x : Finite f) : lt (.finite x) (zero f false) = decide (x.toRat < 0) := by
    simp only [lt, zero, decide_eq_decide]
    simp [Finite.toRat, Finite.mag]
  cases x with
  | nan => rfl
  | inf a => cases a <;> rfl
  | finite x =>
    obtain ⟨sign, m, e, hm, hmin, hmax, hcanonical⟩ := x
    have hmag : 0 ≤ (m : ℚ) * (2 : ℚ) ^ e := by positivity
    rw [hzero]
    cases sign with
    | false =>
      have hneg : ¬ (m : ℚ) * (2 : ℚ) ^ e < 0 := not_lt.mpr hmag
      simp [Finite.toRat, Finite.mag, hneg, abs]
    | true =>
      rcases hmag.eq_or_lt with heq | hpos
      · -- both zeros stand for the same number
        cases c with
        | nan | inf a => simp [Finite.toRat, Finite.mag, ← heq, abs, lt]
        | finite c => simp [Finite.toRat, Finite.mag, ← heq, abs, lt]
      · simp [Finite.toRat, Finite.mag, hpos, abs, neg]

/-- The C operator `+`. A sum that is zero is negative only where both sides are. -/
def add : Value f → Value f → Value f
  | .nan, _ | _, .nan => .nan
  | .inf a, .inf b => if a = b then .inf a else .nan
  | .inf a, .finite _ => .inf a
  | .finite _, .inf b => .inf b
  | .finite x, .finite y =>
    let sum := x.toRat + y.toRat
    if sum = 0 then .zero f (x.neg && y.neg) else .ofRat f (decide (sum < 0)) |sum|

/-- The C operator `*`. -/
def mul : Value f → Value f → Value f
  | .nan, _ | _, .nan => .nan
  | .inf a, .inf b => .inf (a ^^ b)
  | .inf a, .finite y => if y.m = 0 then .nan else .inf (a ^^ y.neg)
  | .finite x, .inf b => if x.m = 0 then .nan else .inf (x.neg ^^ b)
  | .finite x, .finite y => .ofRat f (x.neg ^^ y.neg) (x.mag * y.mag)

/-- The conversion to an integer, towards zero; zero for the values that C leaves undefined. -/
def toInt : Value f → ℤ
  | .nan | .inf _ => 0
  | .finite x => if x.neg then -⌊x.mag⌋ else ⌊x.mag⌋

/-! ## Sums and products with a zero -/

/-- One of the two zeros. -/
def IsZero (v : Value f) : Prop := ∃ neg, v = .zero f neg

/-- A product with a zero is one, unless the other factor is not finite. -/
theorem IsZero.finite_mul {v : Value f} (h : IsZero v) (x : Finite f) : IsZero (mul (.finite x) v) := by
  obtain ⟨neg, rfl⟩ := h
  refine ⟨x.neg ^^ neg, ?_⟩
  simp [mul, zero, Finite.mag, ofRat]

/-- The zeros are finite. -/
theorem IsZero.mul {v w : Value f} (hv : IsZero v) (hw : IsZero w) : IsZero (Value.mul v w) := by
  obtain ⟨neg, rfl⟩ := hv
  exact hw.finite_mul _

theorem IsZero.add {v w : Value f} (hv : IsZero v) (hw : IsZero w) : IsZero (Value.add v w) := by
  obtain ⟨a, rfl⟩ := hv
  obtain ⟨b, rfl⟩ := hw
  refine ⟨a && b, ?_⟩
  simp [Value.add, zero, Finite.toRat, Finite.mag]

theorem isZero_neg {v : Value f} (h : IsZero v) : IsZero (neg v) := by
  obtain ⟨neg, rfl⟩ := h
  exact ⟨!neg, rfl⟩

theorem IsZero.toInt {v : Value f} (h : IsZero v) : Value.toInt v = 0 := by
  obtain ⟨neg, rfl⟩ := h
  simp [Value.toInt, zero, Finite.mag]

/-- A zero has no magnitude that exceeds a limit. -/
theorem IsZero.lt_neg_or {v c : Value f} (h : IsZero v) (hc : lt c (zero f false) = false) :
    lt c (if lt v (zero f false) then neg v else v) = false := by
  obtain ⟨a, rfl⟩ := h
  rw [lt_abs hc]
  exact hc

/-- No magnitude is below zero. -/
theorem lt_ofRat_zero (q : ℚ) : lt (ofRat f false q) (zero f false) = false := by
  rw [ofRat]
  split_ifs
  · simp only [zero, lt, decide_eq_false_iff_not, not_lt]
    simp only [Finite.toRat, Finite.mag, Bool.false_eq_true, if_false, Nat.cast_zero, zero_mul]
    positivity
  · rfl
  · simp [zero, lt]

/-- The unit of a value below a power of two. -/
theorem sig_e_le {q : ℚ} {k : ℤ} (hpos : 0 < q) (hq : q < (2 : ℚ) ^ k)
    (hlow : f.eMin + f.fracBits < k) : (sig f q).e ≤ k - f.fracBits := by
  have hlog : Int.log 2 q < k := (Int.lt_zpow_iff_log_lt (by norm_num) hpos).mp (by exact_mod_cast hq)
  have hunit : unit f q ≤ k - f.fracBits - 1 := max_le (by omega) (by omega)
  rcases roundSig_e 2 (f.fracBits + 1) (unit f q) q with he | ⟨he, -⟩ <;> rw [sig, he] <;> omega

/-- A magnitude that is far enough from the largest ones is not rounded to an infinity, and not
beyond the next power of two. -/
theorem exists_ofRat_eq {q : ℚ} {k : ℤ} (hq : q < (2 : ℚ) ^ k) (hlow : f.eMin + f.fracBits < k)
    (hhigh : k ≤ f.eMax + f.fracBits) (neg : Bool) :
    ∃ x : Finite f, ofRat f neg q = .finite x ∧ x.mag < (2 : ℚ) ^ (k + 1) := by
  rw [ofRat]
  split_ifs with hpos he
  · refine ⟨_, rfl, ?_⟩
    -- the significand has all its bits at most, at the unit of `2 ^ k` at most
    have hm : ((sig f q).m : ℚ) < (2 : ℚ) ^ ((f.fracBits : ℤ) + 1) := by
      have h := sig_m_lt f q
      rw [Format.fracRange, ← pow_succ'] at h
      exact_mod_cast h
    have hunit : (2 : ℚ) ^ (sig f q).e ≤ (2 : ℚ) ^ (k - f.fracBits) :=
      zpow_le_zpow_right₀ (by norm_num) (sig_e_le hpos hq hlow)
    calc ((sig f q).m : ℚ) * (2 : ℚ) ^ (sig f q).e
        < (2 : ℚ) ^ ((f.fracBits : ℤ) + 1) * (2 : ℚ) ^ (sig f q).e :=
          mul_lt_mul_of_pos_right hm (by positivity)
      _ ≤ (2 : ℚ) ^ ((f.fracBits : ℤ) + 1) * (2 : ℚ) ^ (k - f.fracBits) :=
          mul_le_mul_of_nonneg_left hunit (by positivity)
      _ = (2 : ℚ) ^ (k + 1) := by
          rw [← zpow_add₀ (by norm_num)]
          congr 1
          omega
  · exact absurd ((sig_e_le hpos hq hlow).trans (by omega)) he
  · refine ⟨_, rfl, ?_⟩
    simp only [Finite.mag, Nat.cast_zero, zero_mul]
    positivity

/-- The sum of a number and a zero is one. -/
theorem IsZero.exists_add {v : Value f} (h : IsZero v) {x : Finite f} {k : ℤ}
    (hx : x.mag < (2 : ℚ) ^ k) (hlow : f.eMin + f.fracBits < k) (hhigh : k ≤ f.eMax + f.fracBits) :
    ∃ y, Value.add (.finite x) v = .finite y := by
  obtain ⟨neg, rfl⟩ := h
  have hsum : |x.toRat + 0| < (2 : ℚ) ^ k := by
    rw [add_zero, Finite.toRat]
    split_ifs
    · rwa [abs_neg, abs_of_nonneg x.mag_nonneg]
    · rwa [abs_of_nonneg x.mag_nonneg]
  have hzero : Finite.toRat ⟨neg, 0, f.eMin, Nat.mul_pos two_pos f.fracRange_pos, le_rfl,
      by simp [Format.eMax], .inl rfl⟩ = 0 := by
    simp [Finite.toRat, Finite.mag]
  simp only [zero, Value.add, hzero]
  split_ifs
  · exact ⟨_, rfl⟩
  · obtain ⟨y, hy, -⟩ := exists_ofRat_eq hsum hlow hhigh (decide (x.toRat + 0 < 0))
    exact ⟨y, hy⟩

end Value

end Interchange
