import LgMagic.Kernel.RawEvent
import LgMagic.Lib.LowPass

/-!
# The range of the driver's movements

The driver filters the corrected rates of the gyroscope and converts the filtered rates, times the
sensitivity, to `s16`. The calibration is checked field by field when it is loaded. Over exact
numbers the values fit for all time exactly when the filter passes nothing or the corrected rate of
either end of the range of a sample fits.

* `lgmagicValidateCalib`, `lgmagicLoadFw`: the check, and the calibration that is kept;
* `gyroAccAfter`, `mouseValues`, `MouseFits`: streams of samples and what is converted;
* `gyroAccAfter_eq`: the rates are the filter over the corrected samples;
* `mouseFits_iff`: when the values fit.
-/

namespace Kernel

open LowPass Pointer

section

variable {F : Type} [CArith F]

/-- `lgmagic_validate_calib` -/
def lgmagicValidateCalib (calib : AirmouseCalib F) : ℤ :=
  let out (bias scale : F) :=
    CNum.lt (CNum.ofRat 100) (lgmagicFabs bias) || CNum.lt (CNum.ofRat 10) (lgmagicFabs scale)
  if out calib.gyroBias.x calib.gyroScale.x || out calib.gyroBias.y calib.gyroScale.y ||
      out calib.gyroBias.z calib.gyroScale.z then 1
  else if CNum.lt calib.alpha (CNum.ofRat 0) || CNum.lt (CNum.ofRat 1) calib.alpha then 1
  else if CNum.lt calib.mouseK (CNum.ofRat 0) || CNum.lt (CNum.ofRat 1) calib.mouseK then 1
  else 0

/-- The calibration of a zeroed record. -/
def calibZero : AirmouseCalib F := ⟨.zero, .zero, CNum.ofRat 0, CNum.ofRat 0⟩

/-- `lgmagic_load_fw` with what `request_firmware` gives: a firmware that is too short, and one that
is not there, leave the calibration alone, and one that is not valid leaves none. -/
def lgmagicLoadFw (calib : AirmouseCalib F) (fw : Except ℤ (Option (AirmouseCalib F))) :
    ℤ × AirmouseCalib F :=
  match fw with
  | .error ret => (ret, calib)
  | .ok none => (0, calib)
  | .ok (some loaded) => if lgmagicValidateCalib loaded = 0 then (0, loaded) else (0, calibZero)

/-- The filtered rates after the first samples of a stream, under the thresholds of the time. -/
def gyroAccAfter (calib : AirmouseCalib F) (threshold : ℕ → ℕ) (gyro : ℕ → Vec3 ℤ) : ℕ → Vec3 F
  | 0 => .zero
  | n + 1 => (lgmagicCalcMouse calib (gyroAccAfter calib threshold gyro n) (threshold n) (gyro n)).1

/-- The two values that are converted to `s16` for filtered rates. -/
def mouseValues (calib : AirmouseCalib F) (gyroAcc : Vec3 F) : F × F :=
  (CArith.mul gyroAcc.z calib.mouseK, CArith.mul gyroAcc.x calib.mouseK)

/-- What is assigned to `mouse` are these values, converted. -/
theorem lgmagicCalcMouse_mouse (calib : AirmouseCalib F) (gyroAcc : Vec3 F) (threshold : ℕ)
    (gyro : Vec3 ℤ) :
    let r := lgmagicCalcMouse calib gyroAcc threshold gyro
    r.2.1 = (CArith.toInt (mouseValues calib r.1).1, CArith.toInt (mouseValues calib r.1).2) := rfl

end

/-! ## Streams of samples -/

/-- A number in the range of `s16`. -/
def FitsS16 (x : ℚ) : Prop := -32768 ≤ x ∧ x ≤ 32767

instance (x : ℚ) : Decidable (FitsS16 x) := inferInstanceAs (Decidable (_ ∧ _))

/-- The rates of a sample are signed numbers of 16 bits. -/
def S16Sample (gyro : Vec3 ℤ) : Prop := FitsS16 gyro.x ∧ FitsS16 gyro.y ∧ FitsS16 gyro.z

/-- The values fit at every assignment of every stream. -/
def MouseFits (calib : AirmouseCalib ℚ) : Prop :=
  ∀ (threshold : ℕ → ℕ) (gyro : ℕ → Vec3 ℤ), (∀ i, S16Sample (gyro i)) → ∀ n,
    FitsS16 (mouseValues calib (gyroAccAfter calib threshold gyro (n + 1))).1 ∧
      FitsS16 (mouseValues calib (gyroAccAfter calib threshold gyro (n + 1))).2

/-- The corrected rate of a sample. -/
def corrected (bias scale : ℚ) (v : ℤ) : ℚ := (v - bias) * scale

/-- The rates are the filter over the corrected samples. -/
theorem gyroAccAfter_eq (calib : AirmouseCalib ℚ) (threshold : ℕ → ℕ) (gyro : ℕ → Vec3 ℤ) (n : ℕ) :
    (gyroAccAfter calib threshold gyro n).x = filtered calib.alpha
        (fun k => corrected calib.gyroBias.x calib.gyroScale.x (gyro k).x) n ∧
      (gyroAccAfter calib threshold gyro n).z = filtered calib.alpha
        (fun k => corrected calib.gyroBias.z calib.gyroScale.z (gyro k).z) n := by
  induction n with
  | zero => exact ⟨rfl, rfl⟩
  | succ n ih =>
    obtain ⟨hx, hz⟩ := ih
    constructor
    · rw [filtered, ← hx]
      rfl
    · rw [filtered, ← hz]
      rfl

/-- The range of a calibration that passed the check. -/
theorem bounds_of_valid {calib : AirmouseCalib ℚ} (h : lgmagicValidateCalib calib = 0) :
    (0 ≤ calib.alpha ∧ calib.alpha ≤ 1) ∧ 0 ≤ calib.mouseK ∧ calib.mouseK ≤ 1 := by
  by_contra hbounds
  have hout : (CNum.lt calib.alpha (CNum.ofRat 0) || CNum.lt (CNum.ofRat 1) calib.alpha) = true ∨
      (CNum.lt calib.mouseK (CNum.ofRat 0) || CNum.lt (CNum.ofRat 1) calib.mouseK) = true := by
    simp only [CNum.lt, CNum.ofRat, id, Bool.or_eq_true, decide_eq_true_eq]
    by_contra hin
    simp only [not_or, not_lt] at hin
    exact hbounds hin
  have hone : lgmagicValidateCalib calib = 1 := by
    rw [lgmagicValidateCalib]
    rcases hout with halpha | hmouse
    · simp only [halpha, if_true, ite_self]
    · simp only [hmouse, if_true, ite_self]
  rw [hone] at h
  cases h

/-- The driver never keeps a calibration that does not pass the check. -/
theorem lgmagicValidateCalib_lgmagicLoadFw {calib : AirmouseCalib ℚ}
    (h : lgmagicValidateCalib calib = 0) (fw : Except ℤ (Option (AirmouseCalib ℚ))) :
    lgmagicValidateCalib (lgmagicLoadFw calib fw).2 = 0 := by
  have hzero : lgmagicValidateCalib (calibZero : AirmouseCalib ℚ) = 0 := by decide +kernel
  rcases fw with ret | _ | loaded
  · exact h
  · exact h
  · rw [lgmagicLoadFw]
    split_ifs with hvalid
    · exact hvalid
    · exact hzero

/-! ## One axis -/

section

variable {α k bias scale : ℚ} {v : ℕ → ℤ}

/-- The rate of an axis, scaled, fits on every stream of samples. -/
def AxisFits (α k bias scale : ℚ) : Prop :=
  ∀ v : ℕ → ℤ, (∀ i, FitsS16 (v i)) → ∀ n,
    FitsS16 (filtered α (fun i => corrected bias scale (v i)) (n + 1) * k)

/-- The corrected rates of both ends of the range of a sample fit, scaled. -/
def EndsFit (k bias scale : ℚ) : Prop :=
  FitsS16 (corrected bias scale (-32768) * k) ∧ FitsS16 (corrected bias scale 32767 * k)

/-- A rate between the ends fits, as the ends do. -/
theorem fitsS16_corrected (h : EndsFit k bias scale) {v : ℤ} (hv : FitsS16 v) :
    FitsS16 (corrected bias scale v * k) := by
  obtain ⟨⟨hlo, hlo'⟩, hhi, hhi'⟩ := h
  obtain ⟨hvlo, hvhi⟩ := hv
  simp only [corrected] at *
  push_cast at *
  constructor
  · rcases le_total 0 (scale * k) with hsign | hsign <;> nlinarith
  · rcases le_total 0 (scale * k) with hsign | hsign <;> nlinarith

/-- The rate of an axis fits exactly when the filter passes nothing or the corrected rates of the ends
fit: in between, the filter stays among the corrected rates, and a sample that stays at an end brings
it as near to that end as one likes. -/
theorem axisFits_iff (h0 : 0 ≤ α) (h1 : α ≤ 1) (hk : 0 ≤ k) :
    AxisFits α k bias scale ↔ α = 0 ∨ EndsFit k bias scale := by
  constructor
  · intro h
    rcases h0.eq_or_lt with hzero | hpos
    · exact .inl hzero.symm
    refine .inr ?_
    -- a constant stream comes as near to its corrected value as one likes
    have hend (v : ℤ) (hv : FitsS16 v) : FitsS16 (corrected bias scale v * k) := by
      have hfits := h (fun _ => v) fun _ => hv
      rcases hk.eq_or_lt with hk0 | hkpos
      · rw [← hk0, mul_zero]
        norm_num [FitsS16]
      constructor
      · by_contra hlo
        have hlt : corrected bias scale v < -32768 / k := (lt_div_iff₀ hkpos).mpr (not_le.mp hlo)
        obtain ⟨n, hn⟩ := exists_filtered_const_lt hpos h1 hlt
        cases n with
        | zero => exact absurd hn (not_lt.mpr (div_nonpos_of_nonpos_of_nonneg (by norm_num) hk))
        | succ n => exact absurd ((lt_div_iff₀ hkpos).mp hn) (not_lt.mpr (hfits n).1)
      · by_contra hhi
        have hlt : 32767 / k < corrected bias scale v := (div_lt_iff₀ hkpos).mpr (not_le.mp hhi)
        obtain ⟨n, hn⟩ := exists_lt_filtered_const hpos h1 hlt
        cases n with
        | zero => exact absurd hn (not_lt.mpr (div_nonneg (by norm_num) hk))
        | succ n => exact absurd ((div_lt_iff₀ hkpos).mp hn) (not_lt.mpr (hfits n).2)
    exact ⟨hend (-32768) (by norm_num [FitsS16]), hend 32767 (by norm_num [FitsS16])⟩
  -- without a coefficient nothing passes the filter; else every value lies between the two ends
  · rintro (rfl | hends) v hv n
    · have hnone (n : ℕ) : filtered 0 (fun i => corrected bias scale (v i)) n = 0 := by
        induction n with
        | zero => rfl
        | succ n ih => rw [filtered, ih, lowPass, zero_mul, mul_zero, add_zero]
      rw [hnone, zero_mul]
      norm_num [FitsS16]
    · have hkept (n : ℕ) : FitsS16 (filtered α (fun i => corrected bias scale (v i)) n * k) := by
        induction n with
        | zero =>
          rw [filtered, zero_mul]
          norm_num [FitsS16]
        | succ n ih =>
          have hstep := lowPass_mem_Icc h0 h1 (fitsS16_corrected hends (hv n)) ih
          rwa [lowPass, ← mul_assoc, ← mul_assoc, ← add_mul] at hstep
      exact hkept (n + 1)

end

/-! ## The calibrations that fit -/

/-- For every calibration that passes the check of the driver, over exact numbers: what is converted to
`s16` fits at every assignment of every stream exactly when the filter passes nothing or, on both axes,
the corrected rates of the ends of the range of a sample fit, times the sensitivity. -/
theorem mouseFits_iff (calib : AirmouseCalib ℚ) (h : lgmagicValidateCalib calib = 0) :
    MouseFits calib ↔ calib.alpha = 0 ∨
      (EndsFit calib.mouseK calib.gyroBias.x calib.gyroScale.x ∧
        EndsFit calib.mouseK calib.gyroBias.z calib.gyroScale.z) := by
  obtain ⟨⟨h0, h1⟩, hk, -⟩ := bounds_of_valid h
  have haxes : MouseFits calib ↔
      AxisFits calib.alpha calib.mouseK calib.gyroBias.x calib.gyroScale.x ∧
        AxisFits calib.alpha calib.mouseK calib.gyroBias.z calib.gyroScale.z := by
    constructor
    · intro hfits
      have hmain (v : ℕ → ℤ) (hv : ∀ i, FitsS16 (v i)) (n : ℕ) :=
        hfits (fun _ => 0) (fun i => ⟨v i, v i, v i⟩) (fun i => ⟨hv i, hv i, hv i⟩) n
      constructor
      · intro v hv n
        have := (hmain v hv n).2
        rwa [mouseValues, (gyroAccAfter_eq _ _ _ _).1] at this
      · intro v hv n
        have := (hmain v hv n).1
        rwa [mouseValues, (gyroAccAfter_eq _ _ _ _).2] at this
    · rintro ⟨hx, hz⟩ threshold gyro hgyro n
      obtain ⟨haccx, haccz⟩ := gyroAccAfter_eq calib threshold gyro (n + 1)
      rw [mouseValues, haccx, haccz]
      exact ⟨hz _ (fun i => (hgyro i).2.2) n, hx _ (fun i => (hgyro i).1) n⟩
  rw [haxes, axisFits_iff h0 h1 hk, axisFits_iff h0 h1 hk]
  tauto

/-- A calibration with the documented sensitivity and a scale of `0.07`. -/
theorem mouseFits_typical : MouseFits ⟨.zero, ⟨7 / 100, 7 / 100, 7 / 100⟩, 1 / 5, 1 / 2⟩ :=
  (mouseFits_iff _ (by decide +kernel)).mpr
    (.inr ⟨⟨by decide +kernel, by decide +kernel⟩, by decide +kernel, by decide +kernel⟩)

/-- The scale, the coefficient and the sensitivity at the limits of the check: the first sample, at
the end of its range, is ten times out of range. -/
theorem limits_not_mouseFits :
    let calib : AirmouseCalib ℚ := ⟨.zero, ⟨10, 10, 10⟩, 1, 1⟩
    lgmagicValidateCalib calib = 0 ∧ ¬ MouseFits calib := by
  intro calib
  refine ⟨by decide +kernel, fun h => ?_⟩
  have hfits := (h (fun _ => 0) (fun _ => ⟨0, 0, 32767⟩) (fun _ => ⟨by decide +kernel, by decide +kernel, by decide +kernel⟩) 0).1
  exact absurd hfits (by decide +kernel)

end Kernel
