import LgMagic.Lib.Binary64

/-!
# Fifteen decimal digits survive binary64

A binary64 value printed with `15` significant digits and read back need not be the same value,
but it prints the same digits. Where the format is normal its spacing is finer than that of the
decimals; where it is denormal and its spacing is the coarser one, reading the decimal gives the
printed value back. The one power of ten at which the two spacings cross is settled by computation.

* `leadSig_binSig_leadSig`: the digits of the value read from the digits of `x` are those of `x`.
-/

namespace Binary64

open Rounding

/-- The spacing of the denormal values. -/
private def tiny : ℚ := (2 : ℚ) ^ (-1074 : ℤ)

private theorem tiny_pos : 0 < tiny := by
  rw [tiny]
  positivity

/-- A comparison of powers as natural numbers, for the inverse powers. -/
private theorem zpow_neg_lt_of_pow_lt {a b m n : ℕ} (ha : 0 < a)
    (h : a ^ m < b ^ n) : (b : ℚ) ^ (-(n : ℤ)) < (a : ℚ) ^ (-(m : ℤ)) := by
  have ha' : (0 : ℚ) < (a : ℚ) ^ m := by positivity
  have h' : (a : ℚ) ^ m < (b : ℚ) ^ n := by exact_mod_cast h
  rw [zpow_neg, zpow_neg, zpow_natCast, zpow_natCast]
  exact inv_strictAnti₀ ha' h'

/-- `10 ^ -324 < 2 ^ -1074 < 10 ^ -323`. -/
private theorem tiny_bounds : (10 : ℚ) ^ (-324 : ℤ) < tiny ∧ tiny < (10 : ℚ) ^ (-323 : ℤ) :=
  ⟨zpow_neg_lt_of_pow_lt (a := 2) (b := 10) (m := 1074) (n := 324) (by norm_num)
      (by decide +kernel),
    zpow_neg_lt_of_pow_lt (a := 10) (b := 2) (m := 323) (n := 1074) (by norm_num)
      (by decide +kernel)⟩

section

variable {s : Sig}

/-- Above the denormal range the value read back is within a relative `2 ^ -53`. -/
private theorem abs_binSig_sub_le_of_normal {q : ℚ} (hq : 0 < q)
    (hn : -1074 ≤ Int.log 2 q - 52) : |(binSig q).val 2 - q| ≤ q / 2 ^ 53 := by
  have hu : binUnit q = Int.log 2 q - 52 := max_eq_left hn
  have h := abs_binSig_val_sub_le hq.le
  rw [hu, zpow_sub₀ (by norm_num : (2 : ℚ) ≠ 0)] at h
  have hlog := Int.zpow_log_le_self (R := ℚ) (b := 2) (by norm_num) hq
  calc |(binSig q).val 2 - q| ≤ (2 : ℚ) ^ Int.log 2 q / 2 ^ (52 : ℤ) / 2 := h
    _ = (2 : ℚ) ^ Int.log 2 q / 2 ^ 53 := by norm_num; ring
    _ ≤ q / 2 ^ 53 := by
        have : (2 : ℚ) ^ Int.log 2 q ≤ q := by exact_mod_cast hlog
        gcongr

/-- In the denormal range the value read back is within half the spacing. -/
private theorem abs_binSig_sub_le_of_denormal {q : ℚ} (hq : 0 < q)
    (hn : Int.log 2 q - 52 < -1074) : |(binSig q).val 2 - q| ≤ tiny / 2 := by
  have hu : binUnit q = -1074 := max_eq_right hn.le
  have h := abs_binSig_val_sub_le hq.le
  rwa [hu] at h

/-- Reading a decimal of at most `15` digits in the normal range and printing it gives its digits
back. -/
theorem leadSig_binSig_of_normal {P : ℕ} (hP : 0 < P) (hP15 : P ≤ 15) (hlo : 10 ^ (P - 1) ≤ s.m)
    (hhi : s.m < 10 ^ P) (hn : -1074 ≤ Int.log 2 (s.val 10) - 52) :
    leadSig 10 P ((binSig (s.val 10)).val 2) = s := by
  have hu : (0 : ℚ) < (10 : ℚ) ^ s.e := by positivity
  have hlo' : (1 : ℚ) ≤ s.m := by exact_mod_cast (Nat.one_le_pow _ 10 (by norm_num)).trans hlo
  have hhi' : (s.m : ℚ) < (10 : ℚ) ^ 15 := by
    exact_mod_cast lt_of_lt_of_le hhi (Nat.pow_le_pow_right (by norm_num) hP15)
  have hval : s.val 10 = s.m * (10 : ℚ) ^ s.e := by rw [Sig.val]; norm_num
  have hq : 0 < s.val 10 := by
    rw [hval]
    positivity
  have herr := abs_binSig_sub_le_of_normal hq hn
  have hstep : (10 : ℚ) ^ (s.e - 1) = (10 : ℚ) ^ s.e / 10 := by
    rw [zpow_sub₀ (by norm_num), zpow_one]
  refine leadSig_eq (by norm_num) hP ?_ hlo hhi ?_ ?_
  · -- what is read is positive
    have := (abs_le.mp herr).1
    have : s.val 10 / 2 ^ 53 < s.val 10 := div_lt_self hq (by norm_num)
    linarith
  · -- the error is below half of the spacing of the decimals
    refine lt_of_le_of_lt herr ?_
    push_cast
    rw [hval, div_lt_div_iff₀ (by norm_num) (by norm_num)]
    nlinarith
  · -- at a power of ten the decimals below it are ten times as close
    intro hm _
    refine lt_of_le_of_lt herr ?_
    have hm' : (s.m : ℚ) ≤ 10 ^ 14 := by
      rw [hm]
      exact_mod_cast Nat.pow_le_pow_right (by norm_num) (by omega : P - 1 ≤ 14)
    push_cast
    rw [hstep, hval]
    rw [div_lt_div_iff₀ (by norm_num) (by norm_num)]
    nlinarith

/-- The inverse of `a` is `n` inverses of `b` less a little under half of one. -/
private theorem inv_bounds {a b : ℚ} (ha : 0 < a) (hb : 0 < b)
    (h1 : 404804506614621 * a < 2 * b) (h2 : b < 202402253307311 * a) :
    202402253307311 * b⁻¹ - a⁻¹ < b⁻¹ / 2 ∧ a⁻¹ < 202402253307311 * b⁻¹ := by
  have hmul : 0 < a * b := mul_pos ha hb
  constructor
  · have : 404804506614621 * b⁻¹ < 2 * a⁻¹ := by
      rw [← div_eq_mul_inv, ← div_eq_mul_inv, div_lt_div_iff₀ hb ha]
      exact h1
    linarith
  · rw [inv_eq_one_div, ← div_eq_mul_inv, div_lt_div_iff₀ ha hb, one_mul]
    exact h2

/-- `10 ^ -309` lies a little above `n - 1 / 2` spacings, where `n` is the next multiple. -/
private theorem crossing_bounds :
    202402253307311 * tiny - (10 : ℚ) ^ (-309 : ℤ) < tiny / 2 ∧
      (10 : ℚ) ^ (-309 : ℤ) < 202402253307311 * tiny := by
  have h1 : 404804506614621 * 10 ^ 309 < 2 * 2 ^ 1074 := by decide +kernel
  have h2 : 2 ^ 1074 < 202402253307311 * 10 ^ 309 := by decide +kernel
  rw [tiny, zpow_neg, zpow_neg]
  refine inv_bounds (by positivity) (by positivity) ?_ ?_
  · exact_mod_cast h1
  · exact_mod_cast h2

/-- The decimal `10 ^ -309` is read as a value not below it. -/
private theorem le_binSig_crossing :
    (10 : ℚ) ^ (-309 : ℤ) ≤ (binSig ((10 : ℚ) ^ (-309 : ℤ))).val 2 := by
  have hq : (0 : ℚ) < (10 : ℚ) ^ (-309 : ℤ) := by positivity
  have htiny := tiny_pos
  have hu : binUnit ((10 : ℚ) ^ (-309 : ℤ)) = -1074 := by
    refine max_eq_right ?_
    have hlt : (10 : ℚ) ^ (-309 : ℤ) < (2 : ℚ) ^ (-1022 : ℤ) :=
      zpow_neg_lt_of_pow_lt (a := 2) (b := 10) (m := 1022) (n := 309) (by norm_num)
        (by decide +kernel)
    have : Int.log 2 ((10 : ℚ) ^ (-309 : ℤ)) < -1022 :=
      (Int.lt_zpow_iff_log_lt (by norm_num) hq).mp (by exact_mod_cast hlt)
    omega
  have hval := roundSig_val (β := 2) (p := 53) (e := (-1074 : ℤ)) (by norm_num) (by norm_num) hq.le
  have hround : roundHalfEven ((10 : ℚ) ^ (-309 : ℤ) / tiny) = 202402253307311 := by
    refine roundHalfEven_eq ?_
    have hfac : ((202402253307311 : ℤ) : ℚ) - (10 : ℚ) ^ (-309 : ℤ) / tiny
        = (202402253307311 * tiny - (10 : ℚ) ^ (-309 : ℤ)) / tiny := by
      rw [sub_div, mul_div_cancel_right₀ _ htiny.ne']
      norm_cast
    rw [hfac, abs_div, abs_of_pos htiny, div_lt_iff₀ htiny, abs_lt]
    constructor <;> linarith [crossing_bounds.1, crossing_bounds.2]
  rw [binSig, hu, hval]
  have hcast : ((2 : ℕ) : ℚ) ^ (-1074 : ℤ) = tiny := rfl
  rw [hcast, hround]
  exact crossing_bounds.2.le

/-- Reading a `15`-digit decimal in the denormal range whose own spacing is above the format's
gives its digits back. -/
private theorem leadSig_binSig_of_denormal (hlo : 10 ^ 14 ≤ s.m) (hhi : s.m < 10 ^ 15)
    (hn : Int.log 2 (s.val 10) - 52 < -1074) (hk : -323 ≤ s.e) :
    leadSig 10 15 ((binSig (s.val 10)).val 2) = s := by
  have hu : (0 : ℚ) < (10 : ℚ) ^ s.e := by positivity
  have hlo' : (10 : ℚ) ^ 14 ≤ s.m := by exact_mod_cast hlo
  have hval : s.val 10 = s.m * (10 : ℚ) ^ s.e := by rw [Sig.val]; norm_num
  have hone : (1 : ℚ) ≤ s.m := le_trans (by norm_num) hlo'
  have hq : 0 < s.val 10 := by
    rw [hval]
    have : (0 : ℚ) < s.m := by linarith
    positivity
  have herr := abs_binSig_sub_le_of_denormal hq hn
  have hspace : tiny < (10 : ℚ) ^ s.e :=
    lt_of_lt_of_le tiny_bounds.2 (zpow_le_zpow_right₀ (by norm_num) hk)
  have htiny := tiny_pos
  refine leadSig_eq (by norm_num) (by norm_num) ?_ hlo hhi ?_ ?_
  · -- what is read is positive
    have h1 := (abs_le.mp herr).1
    have h2 : (10 : ℚ) ^ s.e ≤ s.val 10 := by
      rw [hval]
      exact le_mul_of_one_le_left hu.le hone
    linarith
  · -- the error is below half of the spacing of the decimals
    refine lt_of_le_of_lt herr ?_
    push_cast
    linarith
  · intro hm hlt
    rcases eq_or_lt_of_le hk with heq | hgt
    · -- the crossing: the decimal is `10 ^ -309`, and it is not read as something smaller
      have hcross : s.val 10 = (10 : ℚ) ^ (-309 : ℤ) := by
        rw [hval, hm, ← heq, show (-309 : ℤ) = 14 + (-323) by norm_num,
          zpow_add₀ (by norm_num : (10 : ℚ) ≠ 0)]
        norm_num
      rw [hcross] at hlt
      exact absurd le_binSig_crossing (not_le.mpr hlt)
    · refine lt_of_le_of_lt herr ?_
      push_cast
      have : (10 : ℚ) ^ (-323 : ℤ) ≤ (10 : ℚ) ^ (s.e - 1) :=
        zpow_le_zpow_right₀ (by norm_num) (by omega)
      linarith [tiny_bounds.2]

end

/-- The digits of `x`, a multiple of the least spacing, read as a binary64 value and printed
again are the digits of `x`. -/
theorem leadSig_binSig_leadSig {x : ℚ} (hx : 0 < x) (hgrid : ∃ n : ℕ, x = n * (2 : ℚ) ^ (-1074 : ℤ)) :
    leadSig 10 15 ((binSig ((leadSig 10 15 x).val 10)).val 2) = leadSig 10 15 x := by
  have hlo : 10 ^ 14 ≤ (leadSig 10 15 x).m := le_leadSig_m (p := 15) (by norm_num) hx
  have hhi : (leadSig 10 15 x).m < 10 ^ 15 := leadSig_m_lt (by norm_num) (by norm_num)
  rcases le_or_gt (-1074) (Int.log 2 ((leadSig 10 15 x).val 10) - 52) with hn | hn
  · exact leadSig_binSig_of_normal (by norm_num) le_rfl hlo hhi hn
  rcases le_or_gt (-323) (leadSig 10 15 x).e with hk | hk
  · exact leadSig_binSig_of_denormal hlo hhi hn hk
  -- the decimals are the finer grid here, so the value read back is `x` itself
  obtain ⟨n, hgrid⟩ := hgrid
  have htiny := tiny_pos
  have hgrid' : x = n * tiny := hgrid
  have hq : 0 < (leadSig 10 15 x).val 10 := by
    have : (0 : ℚ) < (leadSig 10 15 x).m := by
      exact_mod_cast lt_of_lt_of_le (by norm_num) hlo
    rw [Sig.val]
    positivity
  have hnear : |(leadSig 10 15 x).val 10 - x| < tiny / 2 := by
    have herr := abs_roundSig_val_sub_le (β := 10) (p := 15) (e := Int.log 10 x - (15 - 1 : ℕ))
      (by norm_num) (by norm_num) hx.le
    have hunit : Int.log 10 x - (15 - 1 : ℕ) ≤ -324 := by
      rcases roundSig_e 10 15 (Int.log 10 x - (15 - 1 : ℕ)) x with he | ⟨he, -⟩ <;>
        rw [leadSig, he] at hk <;> omega
    refine lt_of_le_of_lt herr ?_
    have hfine : ((10 : ℕ) : ℚ) ^ (Int.log 10 x - ((15 - 1 : ℕ) : ℤ)) ≤ (10 : ℚ) ^ (-324 : ℤ) := by
      exact_mod_cast zpow_le_zpow_right₀ (by norm_num : (1 : ℚ) ≤ 10) hunit
    exact div_lt_div_of_pos_right (lt_of_le_of_lt hfine tiny_bounds.1) two_pos
  have hread : (binSig ((leadSig 10 15 x).val 10)).val 2 = x := by
    have hu : binUnit ((leadSig 10 15 x).val 10) = -1074 := max_eq_right hn.le
    have hval := roundSig_val (β := 2) (p := 53) (e := (-1074 : ℤ)) (by norm_num) (by norm_num) hq.le
    have hround : roundHalfEven ((leadSig 10 15 x).val 10 / tiny) = (n : ℤ) := by
      refine roundHalfEven_eq ?_
      have : ((n : ℤ) : ℚ) - (leadSig 10 15 x).val 10 / tiny
          = -((leadSig 10 15 x).val 10 - x) / tiny := by
        rw [hgrid']
        field_simp
        push_cast
        ring
      rw [this, abs_div, abs_neg, abs_of_pos htiny, div_lt_iff₀ htiny]
      linarith
    have hcast : ((2 : ℕ) : ℚ) ^ (-1074 : ℤ) = tiny := rfl
    rw [binSig, hu, hval, hcast, hround, hgrid']
    rfl
  rw [hread]

end Binary64
