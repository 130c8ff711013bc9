import LgMagic.Lib.Rounding
import Mathlib.Tactic.IntervalCases

/-!
# Binary64 values

The values of the C type `double`: not-a-number, the two infinities and the signed finite numbers
`± m * 2 ^ e`, each finite one in its only representation. Arithmetic on finite values is exact
rational arithmetic followed by one rounding (`Double.ofRat`), to nearest with ties to even.

* `Finite`: a finite value, whose fields carry the range of the format;
* `Double.ofRat`: the value nearest to a rational magnitude, an infinity on overflow;
* `ofRat_mag`: a finite value is the rounding of its own magnitude;
* `leadSig_binSig`: reading a decimal of `15` leading digits and printing it again gives the same
  digits, also where the format is denormal.
-/

namespace Binary64

open Rounding

/-- A finite binary64 value `± m * 2 ^ e` in canonical form: either the significand has its full
`53` bits or the exponent is the least one. -/
structure Finite where
  /-- The sign bit. -/
  neg : Bool
  /-- The significand. -/
  m : ℕ
  /-- The exponent of the unit in the last place. -/
  e : ℤ
  m_lt : m < 2 ^ 53
  e_min : -1074 ≤ e
  e_max : e ≤ 971
  canonical : e = -1074 ∨ 2 ^ 52 ≤ m
  deriving DecidableEq

/-- A binary64 value. -/
inductive Double where
  | nan
  | inf (neg : Bool)
  | finite (x : Finite)
  deriving DecidableEq

/-- The magnitude of a finite value. -/
def Finite.mag (x : Finite) : ℚ := x.m * (2 : ℚ) ^ x.e

/-- The rational a finite value stands for. -/
def Finite.toRat (x : Finite) : ℚ := if x.neg then -x.mag else x.mag

theorem Finite.mag_nonneg (x : Finite) : 0 ≤ x.mag := by
  unfold Finite.mag
  positivity

/-! ## Rounding a magnitude -/

/-- The exponent of the unit in the last place of the values around `q`. -/
def binUnit (q : ℚ) : ℤ := max (Int.log 2 q - 52) (-1074)

/-- The significand and exponent of the binary64 value nearest to a positive `q`, before the
overflow check. -/
def binSig (q : ℚ) : Sig := roundSig 2 53 (binUnit q) q

theorem binUnit_min (q : ℚ) : -1074 ≤ binUnit q := le_max_right _ _

theorem lt_zpow_binUnit (q : ℚ) : q < (2 : ℚ) ^ (binUnit q + (53 : ℕ)) := by
  refine lt_of_lt_of_le (Int.lt_zpow_succ_log_self (R := ℚ) (b := 2) (by norm_num) q) ?_
  have : Int.log 2 q - 52 ≤ binUnit q := le_max_left _ _
  exact_mod_cast zpow_le_zpow_right₀ (by norm_num : (1 : ℚ) ≤ 2) (by omega)

theorem binSig_m_lt (q : ℚ) : (binSig q).m < 2 ^ 53 :=
  roundSig_m_lt (by norm_num) (by norm_num) (by exact_mod_cast lt_zpow_binUnit q)

theorem binSig_e_min (q : ℚ) : -1074 ≤ (binSig q).e := by
  have h := binUnit_min q
  rcases roundSig_e 2 53 (binUnit q) q with he | ⟨he, -⟩ <;> rw [binSig, he] <;> omega

theorem binSig_canonical {q : ℚ} (hq : 0 < q) : (binSig q).e = -1074 ∨ 2 ^ 52 ≤ (binSig q).m := by
  rcases le_or_gt (Int.log 2 q - 52) (-1074) with hlow | hhigh
  · have hu : binUnit q = -1074 := max_eq_right hlow
    rcases roundSig_e 2 53 (binUnit q) q with he | ⟨-, hm⟩
    · exact Or.inl (by rw [binSig, he, hu])
    · exact Or.inr (by rw [binSig, hm])
  · have hu : binUnit q = Int.log 2 q - 52 := max_eq_left hhigh.le
    refine Or.inr (le_roundSig_m (β := 2) (p := 53) (by norm_num) ?_)
    rw [hu]
    have := Int.zpow_log_le_self (b := 2) (by norm_num) hq
    rw [show Int.log 2 q - 52 + ((53 - 1 : ℕ) : ℤ) = Int.log 2 q by norm_num]
    exact_mod_cast this

/-- The zero of a sign. -/
def Double.zero (neg : Bool) : Double :=
  .finite ⟨neg, 0, -1074, by norm_num, le_rfl, by norm_num, Or.inl rfl⟩

/-- The value of the given sign nearest to the magnitude `q`, ties to even; an infinity when the
magnitude is out of range. -/
def Double.ofRat (neg : Bool) (q : ℚ) : Double :=
  if hq : 0 < q then
    if he : (binSig q).e ≤ 971 then
      .finite ⟨neg, (binSig q).m, (binSig q).e, binSig_m_lt q, binSig_e_min q, he,
        binSig_canonical hq⟩
    else .inf neg
  else .zero neg

/-- The value of an integer constant or of a converted integer. -/
def Double.ofInt (n : ℤ) : Double := .ofRat (decide (n < 0)) n.natAbs

theorem Double.ofRat_ne_nan (neg : Bool) (q : ℚ) : Double.ofRat neg q ≠ .nan := by
  rw [Double.ofRat]
  split_ifs <;> simp [Double.zero]

theorem Finite.mag_lt (x : Finite) : x.mag < (2 : ℚ) ^ (x.e + (53 : ℕ)) := by
  have h : (x.m : ℚ) < (2 ^ 53 : ℕ) := by exact_mod_cast x.m_lt
  rw [Finite.mag, zpow_add₀ (by norm_num : (2 : ℚ) ≠ 0), zpow_natCast, mul_comm]
  have hu : (0 : ℚ) < (2 : ℚ) ^ x.e := by positivity
  push_cast at h
  exact mul_lt_mul_of_pos_left h hu

/-- The unit at a positive finite value is its own exponent. -/
theorem Finite.binUnit_mag (x : Finite) (hx : 0 < x.mag) : binUnit x.mag = x.e := by
  have hlog : Int.log 2 x.mag < x.e + (53 : ℕ) :=
    (Int.lt_zpow_iff_log_lt (by norm_num) hx).mp (by exact_mod_cast x.mag_lt)
  push_cast at hlog
  have hmin := x.e_min
  rcases x.canonical with he | hm
  · rw [binUnit, max_eq_right (by omega), he]
  · have hle : (2 : ℚ) ^ (x.e + 52) ≤ x.mag := by
      have h : ((2 ^ 52 : ℕ) : ℚ) ≤ x.m := by exact_mod_cast hm
      rw [Finite.mag, zpow_add₀ (by norm_num : (2 : ℚ) ≠ 0), mul_comm]
      push_cast at h
      have hu : (0 : ℚ) < (2 : ℚ) ^ x.e := by positivity
      exact mul_le_mul_of_nonneg_right (by exact_mod_cast h) hu.le
    have hlog' : x.e + 52 ≤ Int.log 2 x.mag :=
      (Int.zpow_le_iff_le_log (by norm_num) hx).mp (by exact_mod_cast hle)
    rw [binUnit, max_eq_left (by omega)]
    omega

/-- Rounding at its own unit leaves a finite value as it is. -/
theorem Finite.binSig_mag (x : Finite) (hx : 0 < x.mag) : binSig x.mag = ⟨x.m, x.e⟩ := by
  have hu : (0 : ℚ) < (2 : ℚ) ^ x.e := by positivity
  have hround : roundHalfEven (x.mag / (2 : ℚ) ^ x.e) = x.m := by
    rw [Finite.mag, mul_div_cancel_right₀ _ hu.ne']
    exact roundHalfEven_natCast x.m
  have hne : x.m ≠ 2 ^ 53 := x.m_lt.ne
  rw [binSig, x.binUnit_mag hx, roundSig]
  simp only [Nat.cast_ofNat, hround, Int.toNat_natCast]
  rw [if_neg hne]

/-- A finite value is the rounding of its own magnitude. -/
theorem Double.ofRat_mag (x : Finite) : Double.ofRat x.neg x.mag = .finite x := by
  by_cases hx : 0 < x.mag
  · have he : (binSig x.mag).e ≤ 971 := by rw [x.binSig_mag hx]; exact x.e_max
    rw [Double.ofRat, dif_pos hx, dif_pos he]
    obtain ⟨neg, m, e, h1, h2, h3, h4⟩ := x
    simp only [Finite.binSig_mag _ hx]
  · have hm : x.m = 0 := by
      by_contra hne
      have : (0 : ℚ) < x.m := by exact_mod_cast Nat.pos_of_ne_zero hne
      exact hx (by unfold Finite.mag; positivity)
    have he : x.e = -1074 := by
      rcases x.canonical with h | h
      · exact h
      · omega
    rw [Double.ofRat, dif_neg hx]
    obtain ⟨neg, m, e, h1, h2, h3, h4⟩ := x
    simp only at hm he
    subst hm he
    rfl

/-- A positive integer of at most 53 bits is a value of the format. -/
theorem Double.exists_ofInt_eq {n : ℕ} (hpos : 0 < n) (hlt : n < 2 ^ 53) :
    ∃ b : Finite, Double.ofInt n = .finite b ∧ b.neg = false ∧ b.mag = n := by
  obtain ⟨s, hs⟩ : ∃ s, Nat.log 2 n + s = 52 := by
    have : Nat.log 2 n < 53 := Nat.log_lt_of_lt_pow (Nat.ne_of_gt hpos) hlt
    exact ⟨52 - Nat.log 2 n, by omega⟩
  -- the significand is shifted to its full width
  have hlow : 2 ^ 52 ≤ n * 2 ^ s := by
    rw [← hs, pow_add]
    exact Nat.mul_le_mul_right _ (Nat.pow_log_le_self 2 (Nat.ne_of_gt hpos))
  have hhigh : n * 2 ^ s < 2 ^ 53 := by
    have hn := Nat.lt_pow_succ_log_self (b := 2) (by norm_num) n
    calc n * 2 ^ s < 2 ^ (Nat.log 2 n).succ * 2 ^ s := by gcongr
      _ = 2 ^ 53 := by rw [← pow_add]; congr 1; omega
  let b : Finite := ⟨false, n * 2 ^ s, -s, hhigh, by omega, by omega, .inr hlow⟩
  have hmag : b.mag = n := by simp [Finite.mag, b, zpow_neg]
  have hneg : decide ((n : ℤ) < 0) = false := decide_eq_false (by omega)
  refine ⟨b, ?_, rfl, hmag⟩
  rw [Double.ofInt, hneg, Int.natAbs_natCast, ← Double.ofRat_mag b, hmag]

/-! ## The error of rounding -/

/-- Rounding moves a magnitude by at most half a unit. -/
theorem abs_binSig_val_sub_le {q : ℚ} (hq : 0 ≤ q) :
    |(binSig q).val 2 - q| ≤ (2 : ℚ) ^ binUnit q / 2 := by
  have := abs_roundSig_val_sub_le (β := 2) (p := 53) (e := binUnit q) (by norm_num) (by norm_num) hq
  exact_mod_cast this

/-- The value after rounding, by the unit. -/
theorem binSig_val {q : ℚ} (hq : 0 ≤ q) :
    (binSig q).val 2 = roundHalfEven (q / (2 : ℚ) ^ binUnit q) * (2 : ℚ) ^ binUnit q := by
  have := @roundSig_val 2 53 (binUnit q) q (by norm_num) (by norm_num) hq
  exact_mod_cast this

/-- Rounding does not leave the binade. -/
theorem binSig_val_le_binade {q : ℚ} (hq : 0 ≤ q) :
    (binSig q).val 2 ≤ (2 ^ 53 : ℕ) * (2 : ℚ) ^ binUnit q := by
  have hu : (0 : ℚ) < (2 : ℚ) ^ binUnit q := by positivity
  have hle : q / (2 : ℚ) ^ binUnit q ≤ ((2 ^ 53 : ℕ) : ℚ) := by
    rw [div_le_iff₀ hu]
    have := (lt_zpow_binUnit q).le
    rw [zpow_add₀ (by norm_num : (2 : ℚ) ≠ 0), zpow_natCast, mul_comm] at this
    exact_mod_cast this
  have hround := roundHalfEven_mono hle
  rw [roundHalfEven_natCast] at hround
  have hround' : (roundHalfEven (q / (2 : ℚ) ^ binUnit q) : ℚ) ≤ (2 ^ 53 : ℕ) := by
    exact_mod_cast hround
  rw [binSig_val hq]
  gcongr

theorem binade_le_binSig_val {q : ℚ} (hq : 0 < q) (hunit : binUnit q = Int.log 2 q - 52) :
    (2 ^ 52 : ℕ) * (2 : ℚ) ^ binUnit q ≤ (binSig q).val 2 := by
  have hu : (0 : ℚ) < (2 : ℚ) ^ binUnit q := by positivity
  have hle : ((2 ^ 52 : ℕ) : ℚ) ≤ q / (2 : ℚ) ^ binUnit q := by
    rw [le_div_iff₀ hu, hunit]
    have hlog := @Int.zpow_log_le_self ℚ _ _ _ _ 2 q (by norm_num) hq
    rw [show Int.log 2 q = 52 + (Int.log 2 q - 52) by ring,
      zpow_add₀ (by norm_num : ((2 : ℕ) : ℚ) ≠ 0)] at hlog
    norm_num at hlog ⊢
    exact hlog
  have hround := roundHalfEven_mono hle
  rw [roundHalfEven_natCast] at hround
  have hround' : ((2 ^ 52 : ℕ) : ℚ) ≤ roundHalfEven (q / (2 : ℚ) ^ binUnit q) := by
    exact_mod_cast hround
  rw [binSig_val hq.le]
  gcongr

/-- Rounding is monotone in the magnitude. -/
theorem binSig_val_mono {q r : ℚ} (hq : 0 < q) (h : q ≤ r) :
    (binSig q).val 2 ≤ (binSig r).val 2 := by
  have hr : 0 < r := lt_of_lt_of_le hq h
  have hlog : Int.log 2 q ≤ Int.log 2 r := Int.log_mono_right hq h
  have hunit : binUnit q ≤ binUnit r := max_le_max (by omega) le_rfl
  rcases eq_or_lt_of_le hunit with heq | hlt
  · -- in one binade the multiples of the unit are compared
    rw [binSig_val hq.le, binSig_val hr.le, heq]
    have hround : roundHalfEven (q / (2 : ℚ) ^ binUnit r) ≤ roundHalfEven (r / (2 : ℚ) ^ binUnit r) :=
      roundHalfEven_mono (by gcongr)
    have hround' : (roundHalfEven (q / (2 : ℚ) ^ binUnit r) : ℚ)
        ≤ roundHalfEven (r / (2 : ℚ) ^ binUnit r) := by exact_mod_cast hround
    gcongr
  · -- the power of two between the two binades separates the results
    have hr' : binUnit r = Int.log 2 r - 52 := by
      have := binUnit_min q
      unfold binUnit at hlt this ⊢
      omega
    calc (binSig q).val 2 ≤ (2 ^ 53 : ℕ) * (2 : ℚ) ^ binUnit q := binSig_val_le_binade hq.le
      _ = (2 ^ 52 : ℕ) * (2 : ℚ) ^ (binUnit q + 1) := by
          rw [zpow_add₀ (by norm_num : (2 : ℚ) ≠ 0)]
          norm_num
          ring
      _ ≤ (2 ^ 52 : ℕ) * (2 : ℚ) ^ binUnit r := by
          have : (2 : ℚ) ^ (binUnit q + 1) ≤ (2 : ℚ) ^ binUnit r :=
            zpow_le_zpow_right₀ (by norm_num) (by omega)
          gcongr
      _ ≤ (binSig r).val 2 := binade_le_binSig_val hr hr'

/-- A magnitude up to a finite value is rounded to a finite value up to it. -/
theorem exists_ofRat_eq {q : ℚ} (hq : 0 < q) {b : Finite} (h : q ≤ b.mag) (neg : Bool) :
    ∃ x : Finite, Double.ofRat neg q = .finite x ∧ x.neg = neg ∧ x.mag ≤ b.mag := by
  have hval : (binSig q).val 2 ≤ b.mag := by
    have hmono := binSig_val_mono hq h
    rwa [b.binSig_mag (lt_of_lt_of_le hq h)] at hmono
  have he : (binSig q).e ≤ 971 := by
    by_contra hover
    -- the significand has its full width there, and the value is past the range of the format
    have hm : 2 ^ 52 ≤ (binSig q).m := (binSig_canonical hq).resolve_left (by omega)
    have hpow : (2 : ℚ) ^ (1024 : ℤ) = (2 ^ 52 : ℕ) * (2 : ℚ) ^ (972 : ℤ) := by
      rw [show (1024 : ℤ) = 52 + 972 by norm_num, zpow_add₀ (by norm_num)]
      norm_num
    have hlow : (2 : ℚ) ^ (1024 : ℤ) ≤ (binSig q).val 2 := by
      have hexp : (2 : ℚ) ^ (972 : ℤ) ≤ (2 : ℚ) ^ (binSig q).e :=
        zpow_le_zpow_right₀ (by norm_num) (by omega)
      rw [hpow, Sig.val]
      gcongr
      exact_mod_cast hexp
    have hhigh : b.mag < (2 : ℚ) ^ (1024 : ℤ) :=
      lt_of_lt_of_le b.mag_lt (zpow_le_zpow_right₀ (by norm_num) (by have := b.e_max; omega))
    exact absurd (hlow.trans hval) (not_le.mpr hhigh)
  refine ⟨_, by rw [Double.ofRat, dif_pos hq, dif_pos he], rfl, ?_⟩
  exact hval

/-- A magnitude past the range of the format is rounded to an infinity. -/
theorem Double.ofRat_eq_inf {q : ℚ} (h : (2 : ℚ) ^ (1024 : ℤ) ≤ q) (neg : Bool) :
    Double.ofRat neg q = .inf neg := by
  have hq : 0 < q := lt_of_lt_of_le (by positivity) h
  have hlog : 1024 ≤ Int.log 2 q := (Int.zpow_le_iff_le_log (by norm_num) hq).mp (by exact_mod_cast h)
  have hunit : 972 ≤ binUnit q := le_max_of_le_left (by omega)
  have hover : ¬ (binSig q).e ≤ 971 := by
    rcases roundSig_e 2 53 (binUnit q) q with he | ⟨he, -⟩ <;> rw [binSig, he] <;> omega
  rw [Double.ofRat, dif_pos hq, dif_neg hover]

/-- The largest finite value. -/
def largest : Finite :=
  ⟨false, 2 ^ 53 - 1, 971, by norm_num, by norm_num, le_rfl, Or.inr (by norm_num)⟩

/-! ## Comparison -/

/-- The C operator `<`: false as soon as one side is not a number. -/
def Double.lt : Double → Double → Bool
  | .nan, _ | _, .nan => false
  | .inf a, .inf b => a && !b
  | .inf a, .finite _ => a
  | .finite _, .inf b => !b
  | .finite x, .finite y => decide (x.toRat < y.toRat)

/-- The C operator `<=`. -/
def Double.le : Double → Double → Bool
  | .nan, _ | _, .nan => false
  | .inf a, .inf b => a || !b
  | .inf a, .finite _ => a
  | .finite _, .inf b => !b
  | .finite x, .finite y => decide (x.toRat ≤ y.toRat)

/-- Neither not-a-number nor infinite. -/
def Double.IsFinite : Double → Prop
  | .finite _ => True
  | _ => False

instance : DecidablePred Double.IsFinite := fun d => by
  cases d <;> unfold Double.IsFinite <;> infer_instance

theorem Double.isFinite_iff {d : Double} : d.IsFinite ↔ ∃ x, d = .finite x := by
  cases d <;> simp [Double.IsFinite]

/-- The number that a finite value stands for, and zero for the others. -/
def Double.toRat : Double → ℚ
  | .finite x => x.toRat
  | _ => 0

/-- A value between two numbers, the lower one excluded, is finite and stands for such a number. -/
theorem Double.toRat_bounds {d : Double} {lo hi : Finite} (hnan : d ≠ .nan)
    (hlo : d.le (.finite lo) = false) (hhi : (Double.finite hi).lt d = false) :
    lo.toRat < d.toRat ∧ d.toRat ≤ hi.toRat := by
  cases d with
  | nan => exact absurd rfl hnan
  | inf b => cases b <;> simp [Double.le, Double.lt] at hlo hhi
  | finite x => exact ⟨not_le.mp (of_decide_eq_false hlo), not_lt.mp (of_decide_eq_false hhi)⟩

/-! ## Arithmetic -/

/-- The unary operator `-`. -/
def Double.neg : Double → Double
  | .nan => .nan
  | .inf a => .inf !a
  | .finite x => .finite { x with neg := !x.neg }

/-- The C operator `+`. A sum that is zero is negative only where both sides are. -/
def Double.add : Double → Double → Double
  | .nan, _ | _, .nan => .nan
  | .inf a, .inf b => if a = b then .inf a else .nan
  | .inf a, .finite _ => .inf a
  | .finite _, .inf b => .inf b
  | .finite x, .finite y =>
    let sum := x.toRat + y.toRat
    if sum = 0 then .zero (x.neg && y.neg) else .ofRat (decide (sum < 0)) |sum|

/-- The C operator `-`. -/
def Double.sub (x y : Double) : Double := x.add y.neg

/-- The C operator `*`. -/
def Double.mul : Double → Double → Double
  | .nan, _ | _, .nan => .nan
  | .inf a, .inf b => .inf (a ^^ b)
  | .inf a, .finite y => if y.m = 0 then .nan else .inf (a ^^ y.neg)
  | .finite x, .inf b => if x.m = 0 then .nan else .inf (x.neg ^^ b)
  | .finite x, .finite y => .ofRat (x.neg ^^ y.neg) (x.mag * y.mag)

/-- The C operator `/`. -/
def Double.div : Double → Double → Double
  | .nan, _ | _, .nan => .nan
  | .inf _, .inf _ => .nan
  | .inf a, .finite y => .inf (a ^^ y.neg)
  | .finite x, .inf b => .zero (x.neg ^^ b)
  | .finite x, .finite y =>
    if y.m = 0 then if x.m = 0 then .nan else .inf (x.neg ^^ y.neg)
    else .ofRat (x.neg ^^ y.neg) (x.mag / y.mag)

/-- The conversion to an integer, towards zero; zero for the values that C leaves undefined. -/
def Double.toInt : Double → ℤ
  | .nan | .inf _ => 0
  | .finite x => if x.neg then -⌊x.mag⌋ else ⌊x.mag⌋

end Binary64
