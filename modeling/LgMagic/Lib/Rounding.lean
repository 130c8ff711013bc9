import Mathlib.Data.Int.Log
import Mathlib.Data.Rat.Floor
import Mathlib.Algebra.Order.Round
import Mathlib.Algebra.Order.Field.Power
import Mathlib.Tactic.Linarith
import Mathlib.Tactic.Positivity
import Mathlib.Tactic.FieldSimp
import Mathlib.Tactic.Ring
import Mathlib.Tactic.NormNum

/-!
# Rounding to a number of significant digits

Rounding a positive rational to the nearest multiple of a power of a base, ties to even, and the
normalised significand that results. The two formats of the development are instances: base `10`
for printed numbers, base `2` with a least exponent for machine floating point.

* `roundHalfEven`: the nearest integer, ties to even;
* `roundSig`: the significand and exponent of a positive rational at a given unit;
* `leadSig_eq`: a rational close enough to `n * β ^ k` has exactly this significand.
-/

namespace Rounding

/-- The nearest integer, ties to even. -/
def roundHalfEven (q : ℚ) : ℤ :=
  if q - ⌊q⌋ < 1 / 2 then ⌊q⌋
  else if 1 / 2 < q - ⌊q⌋ then ⌊q⌋ + 1
  else if ⌊q⌋ % 2 = 0 then ⌊q⌋ else ⌊q⌋ + 1

/-- Rounding moves a number by at most one half. -/
theorem abs_roundHalfEven_sub_le (q : ℚ) : |(roundHalfEven q : ℚ) - q| ≤ 1 / 2 := by
  have h0 := Int.floor_le q
  have h1 := Int.lt_floor_add_one q
  unfold roundHalfEven
  split_ifs <;> push_cast <;> rw [abs_le] <;> constructor <;> linarith

/-- An integer within less than one half is the rounded value. -/
theorem roundHalfEven_eq {q : ℚ} {n : ℤ} (h : |(n : ℚ) - q| < 1 / 2) : roundHalfEven q = n := by
  have hr := abs_roundHalfEven_sub_le q
  rw [abs_lt] at h
  rw [abs_le] at hr
  have hlo : (roundHalfEven q : ℚ) < n + 1 := by linarith
  have hhi : (n : ℚ) < roundHalfEven q + 1 := by linarith
  have hlo' : roundHalfEven q < n + 1 := by exact_mod_cast hlo
  have hhi' : n < roundHalfEven q + 1 := by exact_mod_cast hhi
  omega

@[simp]
theorem roundHalfEven_intCast (n : ℤ) : roundHalfEven n = n :=
  roundHalfEven_eq (by simp)

@[simp]
theorem roundHalfEven_natCast (n : ℕ) : roundHalfEven n = n := by
  simpa using roundHalfEven_intCast n

/-- Rounding is monotone. -/
theorem roundHalfEven_mono {q r : ℚ} (h : q ≤ r) : roundHalfEven q ≤ roundHalfEven r := by
  rcases eq_or_lt_of_le h with rfl | hlt
  · exact le_rfl
  have hq := (abs_le.mp (abs_roundHalfEven_sub_le q)).2
  have hr := (abs_le.mp (abs_roundHalfEven_sub_le r)).1
  have : (roundHalfEven q : ℚ) < roundHalfEven r + 1 := by linarith
  have : roundHalfEven q < roundHalfEven r + 1 := by exact_mod_cast this
  omega

/-- A number below the middle of two integers is not rounded past it. -/
theorem roundHalfEven_le {q : ℚ} {n : ℤ} (h : q < n + 1 / 2) : roundHalfEven q ≤ n := by
  have hr := (abs_le.mp (abs_roundHalfEven_sub_le q)).2
  have hlt : (roundHalfEven q : ℚ) < n + 1 := by linarith
  have hlt' : roundHalfEven q < n + 1 := by exact_mod_cast hlt
  omega

theorem roundHalfEven_nonneg {q : ℚ} (h : 0 ≤ q) : 0 ≤ roundHalfEven q := by
  have := roundHalfEven_mono (q := ((0 : ℤ) : ℚ)) (by simpa using h)
  rwa [roundHalfEven_intCast] at this

/-! ## Significands -/

/-- A significand and its exponent, standing for `m * β ^ e` in a base `β`. -/
structure Sig where
  /-- The significand. -/
  m : ℕ
  /-- The exponent of the base. -/
  e : ℤ
  deriving DecidableEq, Repr

/-- The rational a significand stands for in base `β`. -/
def Sig.val (β : ℕ) (s : Sig) : ℚ := s.m * (β : ℚ) ^ s.e

/-- Round `q` to a multiple of `β ^ e`. A result that has run into one digit more than `p` is
written with the next exponent instead. -/
def roundSig (β p : ℕ) (e : ℤ) (q : ℚ) : Sig :=
  let m := (roundHalfEven (q / (β : ℚ) ^ e)).toNat
  if m = β ^ p then ⟨β ^ (p - 1), e + 1⟩ else ⟨m, e⟩

section Significand

variable {β p : ℕ} {e : ℤ} {q : ℚ}

private theorem zpow_base_pos (hβ : 1 < β) (e : ℤ) : (0 : ℚ) < (β : ℚ) ^ e := by
  exact zpow_pos (by exact_mod_cast Nat.zero_lt_of_lt hβ) e

/-- The significand stands for the rounded multiple of the unit. -/
theorem roundSig_val (hβ : 1 < β) (hp : 0 < p) (hq : 0 ≤ q) :
    (roundSig β p e q).val β = roundHalfEven (q / (β : ℚ) ^ e) * (β : ℚ) ^ e := by
  have hu := zpow_base_pos hβ e
  have hβ0 : (β : ℚ) ≠ 0 := by
    have : (0 : ℚ) < β := by exact_mod_cast Nat.zero_lt_of_lt hβ
    exact this.ne'
  have hnn : 0 ≤ roundHalfEven (q / (β : ℚ) ^ e) := roundHalfEven_nonneg (div_nonneg hq hu.le)
  have hcast : (((roundHalfEven (q / (β : ℚ) ^ e)).toNat : ℕ) : ℚ)
      = roundHalfEven (q / (β : ℚ) ^ e) := by
    exact_mod_cast Int.toNat_of_nonneg hnn
  unfold roundSig
  simp only
  split_ifs with hcarry
  · obtain ⟨p, rfl⟩ : ∃ n, p = n + 1 := ⟨p - 1, by omega⟩
    rw [← hcast, hcarry, Sig.val, zpow_add₀ hβ0]
    push_cast
    simp only [pow_succ, zpow_one]
    ring
  · rw [Sig.val, hcast]

/-- Rounding moves a number by at most half a unit. -/
theorem abs_roundSig_val_sub_le (hβ : 1 < β) (hp : 0 < p) (hq : 0 ≤ q) :
    |(roundSig β p e q).val β - q| ≤ (β : ℚ) ^ e / 2 := by
  have hu := zpow_base_pos hβ e
  rw [roundSig_val hβ hp hq]
  have h := abs_roundHalfEven_sub_le (q / (β : ℚ) ^ e)
  have hfac : roundHalfEven (q / (β : ℚ) ^ e) * (β : ℚ) ^ e - q
      = (roundHalfEven (q / (β : ℚ) ^ e) - q / (β : ℚ) ^ e) * (β : ℚ) ^ e := by
    field_simp
  rw [hfac, abs_mul, abs_of_pos hu]
  calc |(roundHalfEven (q / (β : ℚ) ^ e) : ℚ) - q / (β : ℚ) ^ e| * (β : ℚ) ^ e
      ≤ 1 / 2 * (β : ℚ) ^ e := by gcongr
    _ = (β : ℚ) ^ e / 2 := by ring

/-- A number below `β ^ (e + p)` gets a significand of at most `p` digits. -/
theorem roundSig_m_lt (hβ : 1 < β) (hp : 0 < p) (hq : q < (β : ℚ) ^ (e + p)) :
    (roundSig β p e q).m < β ^ p := by
  have hu := zpow_base_pos hβ e
  have hβ0 : (β : ℚ) ≠ 0 := by
    have : (0 : ℚ) < β := by exact_mod_cast Nat.zero_lt_of_lt hβ
    exact this.ne'
  have hle : roundHalfEven (q / (β : ℚ) ^ e) ≤ (β ^ p : ℕ) := by
    have : q / (β : ℚ) ^ e ≤ ((β ^ p : ℕ) : ℚ) := by
      rw [div_le_iff₀ hu]
      push_cast
      rw [zpow_add₀ hβ0, zpow_natCast, mul_comm] at hq
      exact hq.le
    have := roundHalfEven_mono this
    rwa [roundHalfEven_natCast] at this
  unfold roundSig
  simp only
  split_ifs with hcarry
  · exact Nat.pow_lt_pow_right hβ (by omega)
  · have : (roundHalfEven (q / (β : ℚ) ^ e)).toNat ≤ β ^ p := by omega
    exact lt_of_le_of_ne this hcarry

/-- A number of at least `β ^ (e + p - 1)` gets a significand of at least `p` digits. -/
theorem le_roundSig_m (hβ : 1 < β) (hq : (β : ℚ) ^ (e + (p - 1 : ℕ)) ≤ q) :
    β ^ (p - 1) ≤ (roundSig β p e q).m := by
  have hu := zpow_base_pos hβ e
  have hβ0 : (β : ℚ) ≠ 0 := by
    have : (0 : ℚ) < β := by exact_mod_cast Nat.zero_lt_of_lt hβ
    exact this.ne'
  have hle : ((β ^ (p - 1) : ℕ) : ℤ) ≤ roundHalfEven (q / (β : ℚ) ^ e) := by
    have : ((β ^ (p - 1) : ℕ) : ℚ) ≤ q / (β : ℚ) ^ e := by
      rw [le_div_iff₀ hu]
      push_cast
      rw [zpow_add₀ hβ0, zpow_natCast, mul_comm] at hq
      exact hq
    have := roundHalfEven_mono this
    rwa [roundHalfEven_natCast] at this
  unfold roundSig
  simp only
  split_ifs with hcarry
  · exact le_rfl
  · show β ^ (p - 1) ≤ (roundHalfEven (q / (β : ℚ) ^ e)).toNat
    omega

/-- The exponent of the rounded significand is the unit's, or the next one after a carry. -/
theorem roundSig_e (β p : ℕ) (e : ℤ) (q : ℚ) :
    (roundSig β p e q).e = e ∨
      (roundSig β p e q).e = e + 1 ∧ (roundSig β p e q).m = β ^ (p - 1) := by
  unfold roundSig
  simp only
  split_ifs
  · exact Or.inr ⟨rfl, rfl⟩
  · exact Or.inl rfl

/-- Two `p`-digit significands of one value are the same. -/
theorem Sig.ext_of_val (hβ : 1 < β) (hp : 0 < p) {s t : Sig}
    (hs : β ^ (p - 1) ≤ s.m) (hs' : s.m < β ^ p) (ht : β ^ (p - 1) ≤ t.m) (ht' : t.m < β ^ p)
    (h : s.val β = t.val β) : s = t := by
  have hβ0 : (0 : ℚ) < β := by exact_mod_cast Nat.zero_lt_of_lt hβ
  -- a larger exponent means at least `p` digits past the other value
  have key : ∀ {s t : Sig}, s.m < β ^ p → β ^ (p - 1) ≤ t.m → s.val β = t.val β →
      t.e ≤ s.e := by
    intro s t hs' ht h
    by_contra hlt
    have hstep : s.e + 1 ≤ t.e := by omega
    have hval : s.val β < t.val β :=
      calc s.val β < (β ^ p : ℕ) * (β : ℚ) ^ s.e := by
            unfold Sig.val
            have : (s.m : ℚ) < (β ^ p : ℕ) := by exact_mod_cast hs'
            exact mul_lt_mul_of_pos_right this (zpow_base_pos hβ _)
        _ = (β ^ (p - 1) : ℕ) * (β : ℚ) ^ (s.e + 1) := by
            obtain ⟨p, rfl⟩ : ∃ n, p = n + 1 := ⟨p - 1, by omega⟩
            rw [zpow_add₀ hβ0.ne', Nat.add_sub_cancel]
            push_cast
            rw [pow_succ, zpow_one]
            ring
        _ ≤ t.m * (β : ℚ) ^ t.e := by
            have : ((β ^ (p - 1) : ℕ) : ℚ) ≤ t.m := by exact_mod_cast ht
            have hone : (1 : ℚ) ≤ β := by exact_mod_cast hβ.le
            exact mul_le_mul this (zpow_le_zpow_right₀ hone hstep) (zpow_base_pos hβ _).le
              (by positivity)
    exact hval.ne h
  have he : s.e = t.e := le_antisymm (key ht' hs h.symm) (key hs' ht h)
  have hm : (s.m : ℚ) = t.m := by
    unfold Sig.val at h
    rw [he] at h
    exact mul_right_cancel₀ (zpow_base_pos hβ t.e).ne' h
  obtain ⟨m, e⟩ := s
  obtain ⟨m', e'⟩ := t
  simp only at he hm
  rw [he, Nat.cast_injective hm]

end Significand

/-! ## Rounding at the leading digit -/

/-- The `p` leading digits of `q` in base `β`. -/
def leadSig (β p : ℕ) (q : ℚ) : Sig := roundSig β p (Int.log β q - (p - 1 : ℕ)) q

section Leading

variable {β p : ℕ} {q : ℚ}

theorem leadSig_m_lt (hβ : 1 < β) (hp : 0 < p) : (leadSig β p q).m < β ^ p := by
  refine roundSig_m_lt hβ hp ?_
  have h := Int.lt_zpow_succ_log_self (R := ℚ) hβ q
  rwa [show Int.log β q - ((p - 1 : ℕ) : ℤ) + p = Int.log β q + 1 by omega]

theorem le_leadSig_m (hβ : 1 < β) (hq : 0 < q) :
    β ^ (p - 1) ≤ (leadSig β p q).m := by
  refine le_roundSig_m hβ ?_
  rw [sub_add_cancel]
  exact Int.zpow_log_le_self hβ hq

/-- The significand of a positive number is positive. -/
theorem leadSig_m_pos (hβ : 1 < β) (hq : 0 < q) : 0 < (leadSig β p q).m :=
  lt_of_lt_of_le (Nat.pow_pos (by omega)) (le_leadSig_m hβ hq)

/-- The leading digits of a number stand for at least the power of its first digit. -/
theorem zpow_log_le_leadSig_val (hβ : 1 < β) (hq : 0 < q) :
    (β : ℚ) ^ Int.log β q ≤ (leadSig β p q).val β := by
  have hβ0 : (0 : ℚ) < β := by exact_mod_cast Nat.zero_lt_of_lt hβ
  have he : Int.log β q - (p - 1 : ℕ) ≤ (leadSig β p q).e := by
    rcases roundSig_e β p (Int.log β q - (p - 1 : ℕ)) q with h | ⟨h, -⟩ <;> rw [leadSig, h]
    omega
  calc (β : ℚ) ^ Int.log β q
      = (β ^ (p - 1) : ℕ) * (β : ℚ) ^ (Int.log β q - (p - 1 : ℕ)) := by
        rw [Nat.cast_pow, ← zpow_natCast, ← zpow_add₀ hβ0.ne']
        congr 1
        omega
    _ ≤ (leadSig β p q).m * (β : ℚ) ^ (leadSig β p q).e := by
        have hm : ((β ^ (p - 1) : ℕ) : ℚ) ≤ (leadSig β p q).m := by
          exact_mod_cast le_leadSig_m hβ hq
        have hone : (1 : ℚ) ≤ β := by exact_mod_cast hβ.le
        exact mul_le_mul hm (zpow_le_zpow_right₀ hone he) (zpow_base_pos hβ _).le (by positivity)

/-- The leading digits of a number whose first digit has the place of `β ^ (e + p - 1)`. -/
theorem leadSig_val_eq {e : ℤ} (hβ : 1 < β) (hp : 0 < p) (hq : 0 < q)
    (hlo : (β : ℚ) ^ (e + (p - 1 : ℕ)) ≤ q) (hhi : q < (β : ℚ) ^ (e + p)) :
    (leadSig β p q).val β = roundHalfEven (q / (β : ℚ) ^ e) * (β : ℚ) ^ e := by
  have hlog : Int.log β q - (p - 1 : ℕ) = e := by
    have h1 : e + (p - 1 : ℕ) ≤ Int.log β q := (Int.zpow_le_iff_le_log hβ hq).mp hlo
    have h2 : Int.log β q < e + p := (Int.lt_zpow_iff_log_lt hβ hq).mp hhi
    omega
  rw [leadSig, hlog, roundSig_val hβ hp hq.le]

/-- A power of the base is not crossed by rounding. -/
theorem leadSig_val_le (hβ : 1 < β) (hp : 0 < p) (hq : 0 < q) {k : ℤ} (h : q ≤ (β : ℚ) ^ k) :
    (leadSig β p q).val β ≤ (β : ℚ) ^ k := by
  have hβ0 : (β : ℚ) ≠ 0 := by
    have : (0 : ℚ) < β := by exact_mod_cast Nat.zero_lt_of_lt hβ
    exact this.ne'
  set e : ℤ := Int.log β q - (p - 1 : ℕ) with he
  have hu := zpow_base_pos hβ e
  obtain ⟨n, hn⟩ : ∃ n : ℕ, k = n + e := by
    have hlog : Int.log β q ≤ k := by
      have hmono : Int.log β q ≤ Int.log β ((β : ℚ) ^ k) := Int.log_mono_right hq h
      rwa [Int.log_zpow hβ] at hmono
    exact ⟨(k - e).toNat, by omega⟩
  have hpow : (β : ℚ) ^ k = (β ^ n : ℕ) * (β : ℚ) ^ e := by
    rw [hn, zpow_add₀ hβ0, zpow_natCast, Nat.cast_pow]
  have hround : roundHalfEven (q / (β : ℚ) ^ e) ≤ (β ^ n : ℕ) := by
    have := roundHalfEven_mono ((div_le_iff₀ hu).mpr (hpow ▸ h))
    rwa [roundHalfEven_natCast] at this
  rw [leadSig, roundSig_val hβ hp hq.le, hpow]
  exact mul_le_mul_of_nonneg_right (by exact_mod_cast hround) hu.le

/-- A number whose first digit has that place, within half a unit of `n * β ^ e`, is rounded to it. -/
theorem leadSig_val_of_near {e : ℤ} (hβ : 1 < β) (hp : 0 < p) (hq : 0 < q)
    (hlo : (β : ℚ) ^ (e + (p - 1 : ℕ)) ≤ q) (hhi : q < (β : ℚ) ^ (e + p)) {n : ℕ}
    (hnear : |q - n * (β : ℚ) ^ e| < (β : ℚ) ^ e / 2) :
    (leadSig β p q).val β = n * (β : ℚ) ^ e := by
  have hu := zpow_base_pos hβ e
  have hround : roundHalfEven (q / (β : ℚ) ^ e) = n := by
    apply roundHalfEven_eq
    have hdist : ((n : ℤ) : ℚ) - q / (β : ℚ) ^ e = -(q - n * (β : ℚ) ^ e) / (β : ℚ) ^ e := by
      field_simp
      push_cast
      ring
    rw [hdist, abs_div, abs_neg, abs_of_pos hu, div_lt_iff₀ hu]
    linarith
  rw [leadSig_val_eq hβ hp hq hlo hhi, hround, Int.cast_natCast]

/-- A power of the base with more digits than the unit. -/
theorem zpow_add_digits (hβ : 1 < β) (e : ℤ) (k : ℕ) :
    (β : ℚ) ^ (e + k) = (β ^ k : ℕ) * (β : ℚ) ^ e := by
  have hβ0 : (0 : ℚ) < β := by exact_mod_cast Nat.zero_lt_of_lt hβ
  rw [zpow_add₀ hβ0.ne', zpow_natCast, Nat.cast_pow, mul_comm]

/-- A significand stays a unit below every larger number of units. -/
theorem Sig.val_add_unit_le (hβ : 1 < β) {s : Sig} {n : ℕ} (h : s.m < n) :
    s.val β + (β : ℚ) ^ s.e ≤ n * (β : ℚ) ^ s.e := by
  have hu := zpow_base_pos hβ s.e
  have hn : (s.m : ℚ) + 1 ≤ n := by exact_mod_cast h
  calc s.val β + (β : ℚ) ^ s.e = (s.m + 1) * (β : ℚ) ^ s.e := by rw [Sig.val]; ring
    _ ≤ n * (β : ℚ) ^ s.e := by gcongr

/-- A number that lies within half a unit of the `p`-digit value `n * β ^ k` has the leading
digits `n`. Just below a power of the base the digits sit on a grid `β` times finer, so there
the distance has to be that much smaller. -/
theorem leadSig_eq (hβ : 1 < β) (hp : 0 < p) {s : Sig} (hq : 0 < q)
    (hlo : β ^ (p - 1) ≤ s.m) (hhi : s.m < β ^ p)
    (hnear : |q - s.val β| < (β : ℚ) ^ s.e / 2)
    (hfine : s.m = β ^ (p - 1) → q < s.val β → |q - s.val β| < (β : ℚ) ^ (s.e - 1) / 2) :
    leadSig β p q = s := by
  -- the powers of the base at the first digit of `s` and past it
  have hlead := zpow_add_digits hβ s.e (p - 1)
  have hlast := zpow_add_digits hβ s.e p
  have hbelow := Sig.val_add_unit_le hβ hhi
  have hu := zpow_base_pos hβ s.e
  refine Sig.ext_of_val hβ hp (le_leadSig_m hβ hq) (leadSig_m_lt hβ hp) hlo hhi ?_
  rcases le_or_gt ((β : ℚ) ^ (s.e + (p - 1 : ℕ))) q with hle | hlt
  · -- `q` has its leading digit where `s` has it
    refine leadSig_val_of_near hβ hp hq hle ?_ hnear
    have := (abs_lt.mp hnear).2
    linarith
  · -- `q` lies just below the power of the base that `s` is
    have hsm : s.m = β ^ (p - 1) := by
      by_contra hne
      have hdigit := @Sig.val_add_unit_le β hβ ⟨β ^ (p - 1), s.e⟩ s.m (by simp only; omega)
      rw [Sig.val, ← hlead] at hdigit
      have := (abs_lt.mp hnear).1
      rw [Sig.val] at this
      dsimp only at hdigit
      linarith
    have hval : s.val β = (β : ℚ) ^ (s.e + (p - 1 : ℕ)) := by rw [hlead, Sig.val, hsm]
    have hfiner := hfine hsm (hval ▸ hlt)
    have hfinerUnit := zpow_base_pos hβ (s.e - 1)
    have hβ0 : (β : ℚ) ≠ 0 := by
      have : (0 : ℚ) < β := by exact_mod_cast Nat.zero_lt_of_lt hβ
      exact this.ne'
    have hunit : s.val β = (β * s.m : ℕ) * (β : ℚ) ^ (s.e - 1) := by
      rw [Sig.val, zpow_sub₀ hβ0, zpow_one]
      push_cast
      field_simp
    rw [hunit] at hfiner
    rw [hunit]
    refine leadSig_val_of_near hβ hp hq ?_ ?_ hfiner
    · -- one digit on the finer grid is at most what `β * s.m` has more than its leading digit
      have hdigit := @Sig.val_add_unit_le β hβ ⟨β ^ (p - 1), s.e - 1⟩ (β * s.m) (by
        rw [hsm]
        exact lt_mul_of_one_lt_left (Nat.pow_pos (by omega)) hβ)
      rw [Sig.val, ← zpow_add_digits hβ] at hdigit
      have := (abs_lt.mp hfiner).1
      linarith
    · rwa [show s.e - 1 + (p : ℤ) = s.e + (p - 1 : ℕ) by omega]

end Leading

end Rounding
