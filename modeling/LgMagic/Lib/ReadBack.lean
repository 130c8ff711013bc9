import LgMagic.Lib.Printf

/-!
# Values read back from fifteen digits

What becomes of a `double` that is written with `%.15g` and read again. The text stays the same from
then on; a value in a range up to a power of ten stays in the range, and stays positive.

* `readBack`;
* `fmtG_readBack`: the text;
* `readBack_pos`, `readBack_nonneg`: the ranges;
* `moderate_iff`: the values whose text is read back to one with the same text;
* `readBack_pos_range`, `readBack_nonneg_range`: the checks of the ranges.
-/

namespace Printf

open Binary64 Rounding

/-- The value that the `%.15g` text of a value reads as. -/
def readBack (d : Double) : Double := (strtodDecimal (fmtG 15 d)).1

variable {x b : Finite} {d : Double} {k : ℕ}

/-- A value that is read back to a finite one prints the same text. -/
theorem fmtG_readBack (hd : d.IsFinite) (h : (readBack d).IsFinite) :
    fmtG 15 (readBack d) = fmtG 15 d := by
  obtain ⟨x, rfl⟩ := Double.isFinite_iff.mp hd
  obtain ⟨y, hy⟩ := Double.isFinite_iff.mp h
  rw [hy]
  exact fmtG_strtodDecimal hy

theorem readBack_zero (hx : x.m = 0) : readBack (.finite x) = .zero x.neg := by
  rw [readBack, strtodDecimal_fmtG_zero hx]

/-- A value up to a power of ten that is a `double` is read back up to it, with its sign, and not as
zero. -/
theorem readBack_of_le (hx : x.m ≠ 0) (hb : b.mag = 10 ^ k) (hle : x.mag ≤ 10 ^ k) :
    ∃ y : Finite, readBack (.finite x) = .finite y ∧ y.neg = x.neg ∧ y.m ≠ 0 ∧ y.mag ≤ 10 ^ k := by
  have hpos := mag_pos hx
  have hq : (leadSig 10 15 x.mag).val 10 ≤ b.mag := by
    have hpow := @leadSig_val_le 10 15 x.mag (by norm_num) (by norm_num) hpos k
    rw [hb]
    exact_mod_cast hpow (by exact_mod_cast hle)
  obtain ⟨y, hy, hneg, hmag⟩ := exists_ofRat_eq (leadSig_val_pos hpos) hq x.neg
  have hread : readBack (.finite x) = .finite y := by
    rw [readBack, strtodDecimal_fmtG (by norm_num) hx]
    exact hy
  exact ⟨y, hread, hneg, (leadSig_of_strtodDecimal hx hread).2.1, hb ▸ hmag⟩

/-- The range from zero, excluded, to a power of ten. -/
theorem readBack_pos (hb : b.mag = 10 ^ k) (hpos : 0 < x.toRat) (hle : x.toRat ≤ 10 ^ k) :
    ∃ y : Finite, readBack (.finite x) = .finite y ∧ 0 < y.toRat ∧ y.toRat ≤ 10 ^ k := by
  have hneg : x.neg = false := by
    by_contra hneg
    rw [Finite.toRat, if_pos (by simpa using hneg)] at hpos
    have := x.mag_nonneg
    linarith
  rw [Finite.toRat, hneg, if_neg Bool.false_ne_true] at hpos hle
  have hx : x.m ≠ 0 := by
    rintro h0
    simp [Finite.mag, h0] at hpos
  obtain ⟨y, hy, hyneg, hym, hymag⟩ := readBack_of_le hx hb hle
  refine ⟨y, hy, ?_, ?_⟩ <;> rw [Finite.toRat, hyneg, hneg, if_neg Bool.false_ne_true]
  · exact mag_pos hym
  · exact hymag

/-- The range from zero to a power of ten. -/
theorem readBack_nonneg (hb : b.mag = 10 ^ k) (hpos : 0 ≤ x.toRat) (hle : x.toRat ≤ 10 ^ k) :
    ∃ y : Finite, readBack (.finite x) = .finite y ∧ 0 ≤ y.toRat ∧ y.toRat ≤ 10 ^ k := by
  rcases hpos.eq_or_lt with hzero | hpos
  · have hx : x.m = 0 := by
      by_contra hx
      have hmag := mag_pos hx
      rw [Finite.toRat] at hzero
      split_ifs at hzero <;> linarith
    refine ⟨_, readBack_zero hx, ?_, ?_⟩ <;> simp [Finite.toRat, Finite.mag]
  · obtain ⟨y, hy, hypos, hyle⟩ := readBack_pos hb hpos hle
    exact ⟨y, hy, hypos.le, hyle⟩

/-! ## Values that are read back as infinities -/

/-- From this magnitude on a value is written with digits past the range of the format. -/
def readBackBound : ℚ := 1797693134862315 * 10 ^ 293

/-- The place of the fifteenth digit of the largest values. -/
private def place : ℚ := (10 : ℚ) ^ (294 : ℤ)

private theorem place_pos : 0 < place := by
  rw [place]
  positivity

private theorem zpow_eq_place (n : ℕ) : ((10 : ℕ) : ℚ) ^ ((294 : ℤ) + n) = place * 10 ^ n := by
  rw [Nat.cast_ofNat, zpow_add₀ (by norm_num), zpow_natCast, place]

private theorem readBackBound_eq : readBackBound = (179769313486231 + 1 / 2) * place := by
  have hplace : place = 10 * 10 ^ 293 := zpow_natCast _ _ |>.trans (pow_succ' _ _)
  rw [readBackBound, hplace, ← mul_assoc]
  norm_num

/-- The magnitude of a value whose fifteen digits are `n` at that place. -/
private theorem leadSig_val_of_place (hlo : place * 10 ^ 14 ≤ x.mag) (hhi : x.mag < place * 10 ^ 15) :
    (leadSig 10 15 x.mag).val 10 = roundHalfEven (x.mag / place) * place := by
  have hpos : 0 < x.mag := lt_of_lt_of_le (mul_pos place_pos (by norm_num)) hlo
  exact leadSig_val_eq (e := 294) (by norm_num) (by norm_num) hpos
    (by rwa [zpow_eq_place]) (by rwa [zpow_eq_place])

private theorem largest_bounds :
    179769313486231 * place ≤ largest.mag ∧ (2 : ℚ) ^ (1024 : ℤ) ≤ 179769313486232 * place := by
  have hlow : 179769313486231 * 10 ^ 294 ≤ (2 ^ 53 - 1) * 2 ^ 971 := by decide +kernel
  have hhigh : 2 ^ 1024 ≤ 179769313486232 * 10 ^ 294 := by decide +kernel
  have hlow' := Nat.cast_le (α := ℚ) |>.mpr hlow
  have hhigh' := Nat.cast_le (α := ℚ) |>.mpr hhigh
  simp only [Nat.cast_mul, Nat.cast_pow, Nat.cast_ofNat] at hlow' hhigh'
  exact ⟨hlow', hhigh'⟩

private theorem mag_lt_place (x : Finite) : x.mag < place * 10 ^ 15 := by
  have hlt : x.mag < (2 : ℚ) ^ (1024 : ℤ) :=
    lt_of_lt_of_le x.mag_lt (zpow_le_zpow_right₀ (by norm_num) (by have := x.e_max; omega))
  have hplace := place_pos
  refine hlt.trans_le (largest_bounds.2.trans ?_)
  linarith

private theorem leadSig_val_le_largest (hx : x.m ≠ 0) (h : x.mag < readBackBound) :
    (leadSig 10 15 x.mag).val 10 ≤ largest.mag := by
  have hplace := place_pos
  refine le_trans ?_ largest_bounds.1
  rcases lt_or_ge x.mag (place * 10 ^ 14) with hlow | hhigh
  · have hval := leadSig_val_le (β := 10) (p := 15) (k := 294 + (14 : ℕ)) (by norm_num)
      (by norm_num) (mag_pos hx) (by rw [zpow_eq_place]; exact hlow.le)
    rw [zpow_eq_place] at hval
    linarith
  · have hmid : x.mag / place < ((179769313486231 : ℤ) : ℚ) + 1 / 2 := by
      rw [div_lt_iff₀ hplace]
      exact_mod_cast readBackBound_eq ▸ h
    rw [leadSig_val_of_place hhigh (mag_lt_place x)]
    have hround : (roundHalfEven (x.mag / place) : ℚ) ≤ 179769313486231 := by
      exact_mod_cast roundHalfEven_le hmid
    gcongr

private theorem le_leadSig_val (h : readBackBound ≤ x.mag) :
    (2 : ℚ) ^ (1024 : ℤ) ≤ (leadSig 10 15 x.mag).val 10 := by
  have hplace := place_pos
  refine largest_bounds.2.trans ?_
  rw [readBackBound_eq] at h
  have hmid : (179769313486231 + 1 / 2 : ℚ) ≤ x.mag / place := (le_div_iff₀ hplace).mpr h
  -- the tie goes to the even digit, which is the one above
  have hround : 179769313486232 ≤ roundHalfEven (x.mag / place) :=
    le_trans (by decide +kernel) (roundHalfEven_mono hmid)
  have hround' : (179769313486232 : ℚ) ≤ roundHalfEven (x.mag / place) := by exact_mod_cast hround
  rw [leadSig_val_of_place (by linarith) (mag_lt_place x)]
  gcongr

/-- Below the bound a value is read back to a finite one. -/
theorem isFinite_readBack (h : x.mag < readBackBound) : (readBack (.finite x)).IsFinite := by
  by_cases hx : x.m = 0
  · rw [readBack_zero hx]
    trivial
  · rw [readBack, strtodDecimal_fmtG (by norm_num) hx, Double.isFinite_iff]
    obtain ⟨y, hy, -⟩ := exists_ofRat_eq (leadSig_val_pos (mag_pos hx)) (leadSig_val_le_largest hx h)
      x.neg
    exact ⟨y, hy⟩

/-- From the bound on it is read back to an infinity. -/
theorem readBack_eq_inf (h : readBackBound ≤ x.mag) : readBack (.finite x) = .inf x.neg := by
  have hpos : 0 < x.mag := lt_of_lt_of_le (by rw [readBackBound]; positivity) h
  have hx : x.m ≠ 0 := by
    intro hx
    simp [Finite.mag, hx] at hpos
  rw [readBack, strtodDecimal_fmtG (by norm_num) hx]
  exact Double.ofRat_eq_inf (le_leadSig_val h) x.neg

/-- The text of an infinity is no text of a number: nothing of it is read. -/
theorem fmtG_inf_ne (neg : Bool) (x : Finite) : fmtG 15 (.inf neg) ≠ fmtG 15 (.finite x) := by
  intro h
  have hfinite : (strtodDecimal (fmtG 15 (.finite x))).2 = [] := by
    by_cases hx : x.m = 0
    · rw [strtodDecimal_fmtG_zero hx]
    · rw [strtodDecimal_fmtG (by norm_num) hx]
  rw [← h] at hfinite
  revert hfinite
  cases neg <;> decide

/-- A finite value of a magnitude below the bound. -/
def Moderate : Double → Prop
  | .finite x => x.mag < readBackBound
  | _ => False

instance : DecidablePred Moderate
  | .finite x => inferInstanceAs (Decidable (x.mag < readBackBound))
  | .nan | .inf _ => inferInstanceAs (Decidable False)

/-- The values that are read back to one with the same text. -/
theorem moderate_iff : Moderate d ↔ d.IsFinite ∧ fmtG 15 (readBack d) = fmtG 15 d := by
  cases d with
  | nan | inf neg => simp [Moderate, Double.IsFinite]
  | finite x =>
    rw [Moderate]
    constructor
    · intro h
      exact ⟨trivial, fmtG_readBack trivial (isFinite_readBack h)⟩
    · rintro ⟨-, htext⟩
      by_contra h
      rw [readBack_eq_inf (not_lt.mp h)] at htext
      exact fmtG_inf_ne x.neg x htext

/-! ## Ranges of values -/

theorem ofInt_zero : Double.ofInt 0 = .zero false := by
  rw [Double.ofInt, Double.ofRat, dif_neg (by norm_num)]
  rfl

theorem toRat_zero (x : Finite) (h : x.m = 0) : x.toRat = 0 := by
  simp [Finite.toRat, Finite.mag, h]

/-- The only values of magnitude zero are the two zeros. -/
theorem exists_eq_zero {x : Finite} (h : x.toRat = 0) : ∃ neg, Double.finite x = .zero neg := by
  obtain ⟨neg, m, e, hm, hemin, hemax, hcanonical⟩ := x
  have hzero : m = 0 := by
    by_contra hne
    have hpos : (0 : ℚ) < m * (2 : ℚ) ^ e := by
      have : (0 : ℚ) < m := by exact_mod_cast Nat.pos_of_ne_zero hne
      positivity
    simp only [Finite.toRat, Finite.mag] at h
    split_ifs at h <;> linarith
  subst hzero
  obtain rfl : e = -1074 := hcanonical.resolve_right (by norm_num)
  exact ⟨neg, rfl⟩

/-- Apart from the zeros, what is not below zero is above it. -/
theorem le_ofInt_zero {x : Double} (h : ∀ neg, x ≠ .zero neg) :
    x.le (.ofInt 0) = x.lt (.ofInt 0) := by
  rw [ofInt_zero, Double.zero]
  cases x with
  | nan | inf neg => rfl
  | finite y =>
    have hne : y.toRat ≠ 0 := by
      intro hzero
      obtain ⟨neg, hneg⟩ := exists_eq_zero hzero
      exact h neg hneg
    rw [Double.le, Double.lt, toRat_zero ⟨false, 0, -1074, _, _, _, _⟩ rfl, decide_eq_decide]
    exact ⟨fun hle => lt_of_le_of_ne hle hne, le_of_lt⟩

theorem toRat_of_neg_eq_false (h : b.neg = false) : b.toRat = b.mag := by
  rw [Finite.toRat, h, if_neg Bool.false_ne_true]

/-- A value in the range from zero, excluded, to a finite one. -/
theorem pos_range_iff {x : Double} (hx : x ≠ .nan) :
    (x.le (.ofInt 0) || (Double.finite b).lt x) = false ↔
      ∃ y : Finite, x = .finite y ∧ 0 < y.toRat ∧ y.toRat ≤ b.toRat := by
  rw [ofInt_zero, Double.zero]
  cases x with
  | nan => exact absurd rfl hx
  | inf neg => cases neg <;> simp [Double.le, Double.lt]
  | finite y => simp [Double.le, Double.lt, toRat_zero ⟨false, 0, -1074, _, _, _, _⟩ rfl]

/-- A value in the range from zero, included, to a finite one. -/
theorem nonneg_range_iff {x : Double} (hx : x ≠ .nan) :
    (x.lt (.ofInt 0) || (Double.finite b).lt x) = false ↔
      ∃ y : Finite, x = .finite y ∧ 0 ≤ y.toRat ∧ y.toRat ≤ b.toRat := by
  rw [ofInt_zero, Double.zero]
  cases x with
  | nan => exact absurd rfl hx
  | inf neg => cases neg <;> simp [Double.lt]
  | finite y => simp [Double.lt, toRat_zero ⟨false, 0, -1074, _, _, _, _⟩ rfl]

/-- A value in such a range is read back to one in it. -/
theorem readBack_pos_range {x : Double} (hk : 10 ^ k < 2 ^ 53) (hx : x ≠ .nan)
    (h : (x.le (.ofInt 0) || (Double.ofInt (10 ^ k : ℕ)).lt x) = false) :
    x.IsFinite ∧ (readBack x).IsFinite ∧
      ((readBack x).le (.ofInt 0) || (Double.ofInt (10 ^ k : ℕ)).lt (readBack x)) = false := by
  obtain ⟨b, hb, hneg, hmag⟩ := Double.exists_ofInt_eq (Nat.pow_pos (by norm_num)) hk
  push_cast at hmag
  rw [hb] at h ⊢
  obtain ⟨y, rfl, hpos, hle⟩ := (pos_range_iff hx).mp h
  rw [toRat_of_neg_eq_false hneg, hmag] at hle
  obtain ⟨z, hz, hzpos, hzle⟩ := readBack_pos hmag hpos hle
  rw [hz]
  refine ⟨trivial, trivial, (pos_range_iff (by simp)).mpr ⟨z, rfl, hzpos, ?_⟩⟩
  rwa [toRat_of_neg_eq_false hneg, hmag]

theorem readBack_nonneg_range {x : Double} (hk : 10 ^ k < 2 ^ 53) (hx : x ≠ .nan)
    (h : (x.lt (.ofInt 0) || (Double.ofInt (10 ^ k : ℕ)).lt x) = false) :
    x.IsFinite ∧ (readBack x).IsFinite ∧
      ((readBack x).lt (.ofInt 0) || (Double.ofInt (10 ^ k : ℕ)).lt (readBack x)) = false := by
  obtain ⟨b, hb, hneg, hmag⟩ := Double.exists_ofInt_eq (Nat.pow_pos (by norm_num)) hk
  push_cast at hmag
  rw [hb] at h ⊢
  obtain ⟨y, rfl, hpos, hle⟩ := (nonneg_range_iff hx).mp h
  rw [toRat_of_neg_eq_false hneg, hmag] at hle
  obtain ⟨z, hz, hzpos, hzle⟩ := readBack_nonneg hmag hpos hle
  rw [hz]
  refine ⟨trivial, trivial, (nonneg_range_iff (by simp)).mpr ⟨z, rfl, hzpos, ?_⟩⟩
  rwa [toRat_of_neg_eq_false hneg, hmag]

end Printf
