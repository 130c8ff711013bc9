import LgMagic.Kernel.Firmware

/-!
# A remote without a calibration

What the driver does where `lgmagic_probe` finds no valid calibration ("Airmouse disabled"): its
record stays zeroed, and with it the pointer stays where it is, in every run and for every setting
of the module parameters. The buttons and the wheel are not concerned.

* `NoCalib`, `probeCalib_of_noCalib`: the files that leave the record zeroed;
* `Disabled`, `lgmagicRawEvent_disabled`: the filter holds zeros, whatever the samples are;
* `reportRun`: the events of the driver, report after report;
* `reportRun_noCalib`: the runs are those with the airmouse switched off, and nothing moves.
-/

namespace Kernel

open Calibration CString InputCore Interchange Pointer Value

/-! ## The files -/

/-- A firmware that is not there, is too short or does not pass the check. -/
def NoCalib (fw : Except ℤ Bytes) : Prop :=
  ∀ b, fw = .ok b → b.length < blobSize ∨ lgmagicValidateCalib (blobOf b) ≠ 0

/-- Such a firmware leaves a zeroed record zeroed. -/
theorem loadFw_of_noCalib {fw : Except ℤ Bytes} (h : NoCalib fw) :
    (loadFw calibZero fw).2 = calibZero := by
  cases fw with
  | error ret => rfl
  | ok b =>
    rw [loadFw, Except.map]
    rcases h b rfl with hshort | hinvalid
    · rw [if_pos hshort, lgmagicLoadFw]
    · split_ifs
      · rfl
      · rw [lgmagicLoadFw, if_neg hinvalid]

/-- Without a valid file under either name the driver has no calibration. -/
theorem probeCalib_of_noCalib {requestFirmware : CStr → Except ℤ Bytes} (uniq : CStr)
    (hnamed : NoCalib (requestFirmware (addrFwName uniq)))
    (hgeneric : NoCalib (requestFirmware genericFwName)) :
    probeCalib requestFirmware uniq = calibZero := by
  rw [probeCalib]
  dsimp only
  rw [loadFw_of_noCalib hnamed, loadFw_of_noCalib hgeneric]
  split_ifs <;> rfl

/-! ## The filter -/

/-- A vector of zeros, of either sign. -/
structure ZeroVec (v : Vec3 Single) : Prop where
  x : v.x.IsZero
  y : v.y.IsZero
  z : v.z.IsZero

theorem isZero_ofRat_zero : IsZero (CNum.ofRat 0 : Single) := ⟨false, by decide +kernel⟩

theorem zeroVec_zero : ZeroVec .zero :=
  ⟨isZero_ofRat_zero, isZero_ofRat_zero, isZero_ofRat_zero⟩

/-- A sample of the gyroscope less a bias of zero is a number. -/
theorem exists_sub_zero {v : ℤ} (hv : |v| ≤ 32768) :
    ∃ x, CArith.sub (CNum.ofRat v : Single) (CNum.ofRat 0) = .finite x := by
  have hlt : |(v : ℚ)| < (2 : ℚ) ^ (16 : ℤ) := by
    have h : |(v : ℚ)| ≤ 32768 := by exact_mod_cast hv
    exact h.trans_lt (by norm_num)
  obtain ⟨x, hx, hmag⟩ := exists_ofRat_eq (f := .single) hlt (by decide) (by decide)
    (decide ((v : ℚ) < 0))
  have hrate : (CNum.ofRat v : Single) = .finite x := hx
  rw [hrate]
  exact (isZero_neg isZero_ofRat_zero).exists_add hmag (by decide) (by decide)

/-- One rate after another sample: the scale of zero takes the sample away. -/
theorem isZero_filter {acc : Single} (hacc : acc.IsZero) {v : ℤ} (hv : |v| ≤ 32768) :
    IsZero (CArith.add
      (CArith.mul (CNum.ofRat 0)
        (CArith.mul (CArith.sub (CNum.ofRat v : Single) (CNum.ofRat 0)) (CNum.ofRat 0)))
      (CArith.mul (CArith.sub (CNum.ofRat 1) (CNum.ofRat 0)) acc)) := by
  obtain ⟨x, hx⟩ := exists_sub_zero hv
  -- the other coefficient of the filter is a number, too
  obtain ⟨y, hy⟩ := @exists_sub_zero 1 (by decide)
  rw [Int.cast_one] at hy
  rw [hx, hy]
  have hcorr : IsZero (CArith.mul (.finite x : Single) (CNum.ofRat 0)) :=
    isZero_ofRat_zero.finite_mul x
  exact (isZero_ofRat_zero.mul hcorr).add (hacc.finite_mul y)

/-- Numbers of a sample. -/
def SampleRange (gyro : Vec3 ℤ) : Prop := |gyro.x| ≤ 32768 ∧ |gyro.y| ≤ 32768 ∧ |gyro.z| ≤ 32768

theorem abs_s16_le {hi lo : ℕ} (hhi : hi < 256) (hlo : lo < 256) : |s16 hi lo| ≤ 32768 := by
  rw [s16, abs_le]
  split_ifs <;> omega

/-- A sample of a remote without a calibration: the rates stay zero, and nothing moves. -/
theorem lgmagicCalcMouse_calibZero {acc : Vec3 Single} (hacc : ZeroVec acc) (threshold : ℕ)
    {gyro : Vec3 ℤ} (hgyro : SampleRange gyro) :
    ∃ acc', ZeroVec acc' ∧
      lgmagicCalcMouse calibZero acc threshold gyro = (acc', (0, 0), false) := by
  have hnext : ZeroVec (lgmagicCalcMouse calibZero acc threshold gyro).1 :=
    ⟨isZero_filter hacc.x hgyro.1, isZero_filter hacc.y hgyro.2.1, isZero_filter hacc.z hgyro.2.2⟩
  refine ⟨_, hnext, ?_⟩
  have hzero : (CNum.ofRat 0 : Single) = .zero .single false := by decide +kernel
  -- a rate of zero moves by nothing and is not above any threshold
  have hmove {v : Single} (hv : v.IsZero) : CArith.toInt (CArith.mul v (CNum.ofRat 0)) = 0 :=
    (hv.mul isZero_ofRat_zero).toInt
  have hbig {v : Single} (hv : v.IsZero) :
      CNum.lt (CNum.ofRat (threshold : ℚ)) (lgmagicFabs v) = false := by
    have hneg : decide ((threshold : ℚ) < 0) = false := by
      rw [decide_eq_false_iff_not, not_lt]
      exact Nat.cast_nonneg threshold
    have hlimit : Value.lt (CNum.ofRat (threshold : ℚ) : Single) (.zero .single false) = false := by
      -- the threshold is not negative, so its sign is that of zero
      change Value.lt (ofRat .single (decide ((threshold : ℚ) < 0)) _) _ = false
      rw [hneg]
      exact lt_ofRat_zero _
    rw [lgmagicFabs, hzero]
    exact hv.lt_neg_or hlimit
  refine Prod.ext rfl (Prod.ext (Prod.ext ?_ ?_) ?_)
  · exact hmove hnext.z
  · exact hmove hnext.x
  · exact Bool.or_eq_false_iff.mpr ⟨hbig hnext.x, hbig hnext.z⟩

/-! ## Reports -/

/-- The driver without a calibration. -/
structure Disabled (d : Drvdata Single) : Prop where
  calib : d.calib = calibZero
  acc : ZeroVec d.gyroAcc
  mode : d.mode = false

/-- The parameters with the airmouse switched off. -/
def ReportParams.off (params : ReportParams) : ReportParams := { params with airmouse := false }

/-- Another calibration and other rates in the record of the driver. -/
def Drvdata.withFilter {F : Type} (d : Drvdata F) (calib : AirmouseCalib F) (acc : Vec3 F) :
    Drvdata F :=
  { d with calib := calib, gyroAcc := acc }

/-- The movement of the pointer without a calibration: there is none. -/
theorem reportPointer_disabled (params : ReportParams) {d : Drvdata Single} (h : Disabled d)
    {gyro : Vec3 ℤ} (hgyro : SampleRange gyro) :
    ∃ acc, ZeroVec acc ∧
      reportPointer params d gyro = (d.withFilter d.calib acc, (0, 0), []) := by
  rw [reportPointer]
  split_ifs
  · obtain ⟨acc, hacc, hcalc⟩ := lgmagicCalcMouse_calibZero h.acc
      (params.airmouseThreshold % 65536).toNat hgyro
    refine ⟨acc, hacc, ?_⟩
    rw [h.calib, hcalc]
    simp [Drvdata.withFilter, h.mode]
  · exact ⟨d.gyroAcc, h.acc, rfl⟩

section

variable {F : Type}

/-- The buttons do not read the calibration or the rates. -/
theorem reportButton_withFilter (params : ReportParams) (d : Drvdata F) (calib : AirmouseCalib F)
    (acc : Vec3 F) (code : ℕ) : reportButton params (d.withFilter calib acc) code =
      ((reportButton params d code).1.withFilter calib acc, (reportButton params d code).2) := by
  rw [reportButton, reportButton]
  have hcode : (d.withFilter calib acc).lastBtncode = d.lastBtncode := rfl
  rw [hcode]
  split_ifs
  · rfl
  · rfl
  · cases lgBtnMap.find? fun b => b.1 = code <;> rfl

/-- The buttons keep the pointer switched off. -/
theorem mode_reportButton {d : Drvdata F} (h : d.mode = false) (params : ReportParams) (code : ℕ) :
    (reportButton params d code).1.mode = false := by
  rw [reportButton]
  split_ifs
  · exact h
  · exact h
  · cases lgBtnMap.find? fun b => b.1 = code with
    | none => exact h
    | some b => simp [h]

variable [CArith F]

/-- With the airmouse switched off nothing moves. -/
@[simp]
theorem reportPointer_off (params : ReportParams) (d : Drvdata F) (gyro : Vec3 ℤ) :
    reportPointer params.off d gyro = (d, (0, 0), []) := by
  simp [reportPointer, ReportParams.off]

/-- With the airmouse switched off the calibration and the rates are not read. -/
theorem lgmagicRawEvent_off_withFilter (params : ReportParams) (d : Drvdata F)
    (calib : AirmouseCalib F) (acc : Vec3 F) (data : List UInt8) :
    lgmagicRawEvent params.off (d.withFilter calib acc) data =
      ((lgmagicRawEvent params.off d data).1.withFilter calib acc,
        (lgmagicRawEvent params.off d data).2) := by
  have hfields : (d.withFilter calib acc).inputHid = d.inputHid ∧
      (d.withFilter calib acc).inputImu = d.inputImu ∧
      (d.withFilter calib acc).lastBtncode = d.lastBtncode := ⟨rfl, rfl, rfl⟩
  simp only [lgmagicRawEvent, hfields, reportButton_withFilter, reportPointer_off]
  split_ifs <;> rfl

/-- With the airmouse switched off the mode of the pointer is only left. -/
theorem mode_lgmagicRawEvent_off {d : Drvdata F} (h : d.mode = false) (params : ReportParams)
    (data : List UInt8) : (lgmagicRawEvent params.off d data).1.mode = false := by
  simp only [lgmagicRawEvent, reportPointer_off]
  -- the first two are reports that are not handled
  split_ifs
  · exact h
  · exact h
  all_goals exact mode_reportButton h _ _

end

/-- The samples of the gyroscope of a report. -/
theorem sampleRange_report (data : List UInt8) (i₀ i₁ j₀ j₁ k₀ k₁ : ℕ) :
    SampleRange ⟨s16 (byteAt data i₀) (byteAt data i₁), s16 (byteAt data j₀) (byteAt data j₁),
      s16 (byteAt data k₀) (byteAt data k₁)⟩ :=
  have himu (i j : ℕ) : |s16 (byteAt data i) (byteAt data j)| ≤ 32768 :=
    abs_s16_le (UInt8.toNat_lt _) (UInt8.toNat_lt _)
  ⟨himu i₀ i₁, himu j₀ j₁, himu k₀ k₁⟩

/-- The buttons leave the driver without a calibration. -/
theorem Disabled.reportButton {d : Drvdata Single} (h : Disabled d) (params : ReportParams)
    (code : ℕ) : Disabled (Kernel.reportButton params d code).1 := by
  have hmode := mode_reportButton h.mode params code
  rcases reportButton_cases params d code with ⟨-, hb⟩ | ⟨-, hb⟩ | ⟨mode, k, -, -, -, hb⟩
  all_goals
    rw [hb] at hmode ⊢
    exact ⟨h.calib, h.acc, hmode⟩

/-- A report without a calibration is handled as with the airmouse switched off, but for the signs
of the zeros in the filter. -/
theorem lgmagicRawEvent_disabled (params : ReportParams) {d : Drvdata Single} (h : Disabled d)
    (data : List UInt8) : ∃ acc, ZeroVec acc ∧
      lgmagicRawEvent params d data =
        ((lgmagicRawEvent params.off d data).1.withFilter d.calib acc,
          (lgmagicRawEvent params.off d data).2) := by
  have hbutton := h.reportButton params (btnCodeOf data)
  have hcalib : (reportButton params d (btnCodeOf data)).1.calib = d.calib :=
    hbutton.calib.trans h.calib.symm
  obtain ⟨acc, hacc, hpointer⟩ := reportPointer_disabled params hbutton
    (sampleRange_report data (5 + 2 * 0) (6 + 2 * 0) (5 + 2 * 1) (6 + 2 * 1) (5 + 2 * 2)
      (6 + 2 * 2))
  cases hinputs : !d.inputHid || !d.inputImu with
  | true =>
    refine ⟨d.gyroAcc, h.acc, ?_⟩
    simp only [lgmagicRawEvent, hinputs, if_true]
    rfl
  | false =>
    cases hdata : unknownReport data with
    | true =>
      refine ⟨d.gyroAcc, h.acc, ?_⟩
      simp only [lgmagicRawEvent, hinputs, hdata, if_true]
      rfl
    | false =>
      refine ⟨acc, hacc, ?_⟩
      simp only [lgmagicRawEvent, hinputs, hdata, hpointer, reportPointer_off, hcalib]
      rfl

/-! ## The events of a report -/

/-- No entry of the table that is found by its code is the click of the wheel. -/
theorem ne_btnLeft_of_find {code : ℕ} {b : ℕ × ℕ}
    (h : lgBtnMap.find? (fun b => b.1 = code) = some b) : b.2 ≠ btnLeft := by
  intro hleft
  have hcode : b.1 = code := by simpa using List.find?_some h
  have htable : ∀ b ∈ lgBtnMap, b.2 = btnLeft → b.1 = codeWheel := by decide
  have hwheel := htable b (List.mem_of_find?_eq_some h) hleft
  -- the entry of the wheel that is found is the one of its keycode
  rw [← hcode, hwheel] at h
  have hfirst : lgBtnMap.find? (fun b => b.1 = codeWheel) = some (codeWheel, 28) := by decide
  rw [hfirst] at h
  cases h
  cases hleft

/-- No movement, and no click but by a parameter that makes one of the power button. -/
def NoMovement (params : ReportParams) (ev : InputEvent) : Prop :=
  (ev.type = evRel → ev.code = relWheel) ∧
    (ev = reportKey btnLeft 1 → params.key0x8000 = btnLeft)

/-- The events of the button with the pointer switched off. -/
theorem noMovement_reportButton {F : Type} {d : Drvdata F} (h : d.mode = false)
    (params : ReportParams) (code : ℕ) :
    ∀ ev ∈ (reportButton params d code).2, NoMovement params ev := by
  have hkey (c : ℕ) (v : ℤ) : (reportKey c v).type ≠ evRel := by
    simp [reportKey, evKey, evRel]
  have hrelease (c : ℕ) : NoMovement params (reportKey c 0) :=
    ⟨fun hrel => absurd hrel (hkey _ _), fun heq => by simp [reportKey] at heq⟩
  intro ev hev
  rw [reportButton] at hev
  split_ifs at hev with hsame hzero
  · cases hev
  · obtain rfl := List.mem_singleton.mp hev
    exact hrelease _
  · cases hfind : lgBtnMap.find? fun b => b.1 = code with
    | none =>
      rw [hfind] at hev
      obtain rfl := List.mem_singleton.mp hev
      exact hrelease _
    | some b =>
      rw [hfind] at hev
      simp only [h, Bool.false_eq_true, false_and, and_false, if_false, List.mem_cons,
        List.not_mem_nil, or_false] at hev
      rcases hev with rfl | rfl
      · exact hrelease _
      · refine ⟨fun hrel => absurd hrel (hkey _ _), fun heq => ?_⟩
        have hcode : lgmagicBtnKeycode params.key0x8000 b.1 b.2 = btnLeft := by
          simpa [reportKey] using heq
        rw [lgmagicBtnKeycode] at hcode
        split_ifs at hcode with hparam
        -- only the power button has a keycode that a parameter sets
        · omega
        · exact absurd hcode (ne_btnLeft_of_find hfind)

/-- An event that is neither a movement nor a click. -/
theorem noMovement_of_ne {params : ReportParams} {ev : InputEvent}
    (hrel : ev.type = evRel → ev.code = relWheel) (hleft : ev.code ≠ btnLeft) :
    NoMovement params ev :=
  ⟨hrel, fun heq => absurd (congrArg InputEvent.code heq) hleft⟩

/-- The events of the wheel. -/
theorem noMovement_reportWheel (params : ReportParams) (mode : Bool) (wheel : ℤ) :
    ∀ ev ∈ reportWheel params mode wheel, NoMovement params ev := by
  intro ev hev
  rw [reportWheel] at hev
  split_ifs at hev with hzero hstep hup
  · cases hev
  · obtain rfl := List.mem_singleton.mp hev
    exact noMovement_of_ne (fun _ => rfl) (by simp [relWheel, btnLeft])
  -- an arrow key goes down and up again
  all_goals
    simp only [List.mem_cons, List.not_mem_nil, or_false] at hev
    rcases hev with rfl | rfl
    · exact noMovement_of_ne (by simp [reportKey, evKey, evRel])
        (by simp [reportKey, keyUp, keyDown, btnLeft])
    · exact noMovement_of_ne (by simp [reportKey, evKey, evRel])
        (by simp [reportKey, keyUp, keyDown, btnLeft])

/-- A report with the pointer and the airmouse switched off. -/
theorem noMovement_lgmagicRawEvent_off {F : Type} [CArith F] {d : Drvdata F} (h : d.mode = false)
    (params : ReportParams) (data : List UInt8) :
    ∀ ev ∈ (lgmagicRawEvent params.off d data).2.1, NoMovement params ev := by
  intro ev hev
  have hbutton : ∀ ev ∈ (reportButton params.off d (btnCodeOf data)).2, NoMovement params ev :=
    noMovement_reportButton h params.off (btnCodeOf data)
  have hwheel (mode : Bool) (wheel : ℤ) :
      ∀ ev ∈ reportWheel params.off mode wheel, NoMovement params ev :=
    noMovement_reportWheel params.off mode wheel
  have hsync (b : Bool) :
      ∀ ev ∈ if b then [InputEvent.mk evSyn 0 0] else [], NoMovement params ev := by
    intro ev hev
    split_ifs at hev
    · obtain rfl := List.mem_singleton.mp hev
      exact noMovement_of_ne (by simp [evSyn, evRel]) (by simp [btnLeft])
    · cases hev
  cases hinputs : !d.inputHid || !d.inputImu with
  | true => simp [lgmagicRawEvent, hinputs] at hev
  | false =>
    cases hdata : unknownReport data with
    | true => simp [lgmagicRawEvent, hinputs, hdata] at hev
    | false =>
      simp only [lgmagicRawEvent, hinputs, hdata, reportPointer_off, Bool.false_eq_true, if_false,
        List.append_nil, List.mem_append] at hev
      obtain (hev | hev) | hev := hev
      · exact hbutton ev hev
      · exact hwheel _ _ ev hev
      · exact hsync _ ev hev

/-! ## Runs -/

/-- The events of the keyboard and of the IMU, report after report. -/
def reportRun {F : Type} [CArith F] (d : Drvdata F) :
    List RawInput → List (List InputEvent × List InputEvent)
  | [] => []
  | i :: is =>
    (lgmagicRawEvent i.params d i.data).2 :: reportRun (lgmagicRawEvent i.params d i.data).1 is

/-- The record of the driver after a probe that succeeded. -/
def probedDrvdata {F : Type} [CArith F] (calib : AirmouseCalib F) : Drvdata F where
  inputHid := true
  inputImu := true
  lastKeycode := 0
  lastBtncode := 0
  gyroAcc := .zero
  mode := false
  calib := calib

/-- A report with the airmouse switched off. -/
def RawInput.off (i : RawInput) : RawInput := { i with params := i.params.off }

/-- A run without a calibration gives the events of the run with the airmouse switched off, whatever
the calibration and the rates of that one are. -/
theorem reportRun_disabled {d : Drvdata Single} (h : Disabled d) (calib : AirmouseCalib Single)
    (acc : Vec3 Single) (is : List RawInput) :
    reportRun d is = reportRun (d.withFilter calib acc) (is.map RawInput.off) := by
  induction is generalizing d acc with
  | nil => rfl
  | cons i is ih =>
    -- the two runs differ in the filter, which the events do not show
    obtain ⟨acc', hacc', hstep⟩ := lgmagicRawEvent_disabled i.params h i.data
    have hoff := lgmagicRawEvent_off_withFilter i.params d calib acc i.data
    have hnext : Disabled ((lgmagicRawEvent i.params.off d i.data).1.withFilter d.calib acc') :=
      ⟨h.calib, hacc', mode_lgmagicRawEvent_off h.mode i.params i.data⟩
    rw [List.map_cons, reportRun, reportRun, RawInput.off, hstep, hoff, ih hnext acc]
    rfl

/-- Nothing moves in a run with the airmouse switched off. -/
theorem forall₂_noMovement {F : Type} [CArith F] {d : Drvdata F} (h : d.mode = false)
    (is : List RawInput) : List.Forall₂ (fun i e => ∀ ev ∈ e.1, NoMovement i.params ev) is
      (reportRun d (is.map RawInput.off)) := by
  induction is generalizing d with
  | nil => exact .nil
  | cons i is ih =>
    exact .cons (noMovement_lgmagicRawEvent_off h i.params i.data)
      (ih (mode_lgmagicRawEvent_off h i.params i.data))

/-- The one firmware is not there and the other is empty. -/
def noFirmware (name : CStr) : Except ℤ Bytes :=
  if name.val = genericFwName.val then .ok [] else .error (-2)

/-- A report of the wheel and of a turn, with the airmouse on. -/
def turnReport : RawInput where
  params := ⟨⟨true, false⟩, true, 300, 116⟩
  data := [0xFD, 1, 0, 0, 0, 0x7F, 0xFF, 0, 0, 0x80, 0, 0, 0, 0, 0, 0, 0, 0x80, 0x44, 1]

end Kernel
