import LgMagic.Airmouse.Deltas
import LgMagic.Daemon.InForce
import LgMagic.Lib.LowPass

/-!
# The range of the pointer's movements

The engine of the airmouse converts its filtered changes to `int`. The coefficient of the filter is
always that of the global configuration, which nothing checks, while the sensitivity comes from a
profile that was checked. Over exact numbers the samples of the IMU make the values fit for all time
exactly when the coefficient lies between zero and one, or past one by so little that the swing of
the filter times the sensitivity still fits.

* `S16Frame`, `imuAfter`, `pointerValues`, `PointerFits`: streams of samples and what is converted;
* `prev_of_kept`: a bound that a step of the filter keeps holds of the filtered changes;
* `prev_motionFrames`: the filtered changes of a stream without an accelerometer;
* `pointerFits_iff`: when the values fit.
-/

namespace Daemon

open Binary64 CString InputCore LowPass Pointer Profiles

/-! ## Streams of samples -/

/-- A signed number of 16 bits. -/
def S16 (x : ℤ) : Prop := -32768 ≤ x ∧ x ≤ 32767

/-- The samples of a frame are signed numbers of 16 bits. -/
def S16Frame (f : EvdevFrame) : Prop :=
  (S16 f.accel.x ∧ S16 f.accel.y ∧ S16 f.accel.z) ∧ S16 f.gyro.x ∧ S16 f.gyro.y ∧ S16 f.gyro.z

/-- The pipeline after the first frames of a stream. -/
def imuAfter (p : Pipeline ℚ) (f : ℕ → EvdevFrame) : ℕ → Pipeline ℚ
  | 0 => p
  | n + 1 => (pipelineImu (imuAfter p f n) (f n)).1

/-- The gyroscope of a frame as `pipeline_imu` hands it to the engine. -/
def gyroIn (p : Pipeline ℚ) (f : EvdevFrame) : Vec3 ℚ :=
  let aRaw := f.accel.map fun x : ℤ => CNum.ofRat (x : ℚ)
  let gRaw := f.gyro.map fun x : ℤ => CNum.ofRat (x : ℚ)
  if p.haveCal then (calibApply p.cal aRaw gRaw).2 else gRaw

/-- The accelerometer of a frame as `pipeline_imu` hands it to the engine. -/
def accelIn (f : EvdevFrame) : Vec3 ℚ := f.accel.map fun x : ℤ => CNum.ofRat (x : ℚ)

/-- The two values that `airmouse_process` converts to `int` for a frame. -/
def pointerValues (p : Pipeline ℚ) (f : EvdevFrame) : ℚ × ℚ :=
  let out := airmouseOut p.am (gyroIn p f) (accelIn f)
  (-out.z * p.am.scale, -out.y * p.am.scale)

/-- The values that the engine converts fit on every frame of every stream. -/
def PointerFits (p : Pipeline ℚ) : Prop :=
  ∀ f : ℕ → EvdevFrame, (∀ i, S16Frame (f i)) → ∀ n, (imuAfter p f n).airmouseOn = true →
    FitsInt (pointerValues (imuAfter p f n) (f n)).1 ∧
      FitsInt (pointerValues (imuAfter p f n) (f n)).2

section

variable {p : Pipeline ℚ} {f : EvdevFrame}

/-- What `pipeline_imu` does with a frame while the airmouse is on. -/
theorem pipelineImu_eq (hon : p.airmouseOn = true) : pipelineImu p f =
    ({ p with am := (airmouseProcess p.am (gyroIn p f) (accelIn f)).1 },
      let dx := CArith.toInt (pointerValues p f).1
      let dy := CArith.toInt (pointerValues p f).2
      if dx ≠ 0 ∨ dy ≠ 0 then uinputMove dx dy else []) := by
  rw [pipelineImu, hon]
  simp only [Bool.not_true, Bool.false_eq_true, if_false]
  rw [pointerValues, ← gyroIn, ← accelIn, airmouseProcess_eq]
  rfl

/-- The factor of the gyroscope under the identity calibration. -/
def gyroUnit (haveCal : Bool) : ℚ := if haveCal then -radPerDegree else 1

/-- A sample as the engine gets it: a signed number of 16 bits, times a factor. -/
def Reading (u x : ℚ) : Prop := ∃ v : ℤ, S16 v ∧ x = u * v

/-- Two samples differ by at most the whole range. -/
theorem Reading.abs_sub_le {u x y : ℚ} (hx : Reading u x) (hy : Reading u y) :
    |x - y| ≤ 65535 * |u| := by
  obtain ⟨v, ⟨hvlo, hvhi⟩, rfl⟩ := hx
  obtain ⟨w, ⟨hwlo, hwhi⟩, rfl⟩ := hy
  have hdiff : |(v : ℚ) - w| ≤ 65535 := by
    have : |v - w| ≤ 65535 := abs_le.mpr ⟨by omega, by omega⟩
    exact_mod_cast this
  calc |u * v - u * w| = |(v : ℚ) - w| * |u| := by rw [← mul_sub, abs_mul, mul_comm]
    _ ≤ 65535 * |u| := mul_le_mul_of_nonneg_right hdiff (abs_nonneg u)

/-- Under the identity calibration the engine gets the samples, in another order and times a
factor. -/
theorem gyroIn_identity (hcal : p.haveCal = true → p.cal = calibInitIdentity) :
    (gyroIn p f).y = gyroUnit p.haveCal * (if p.haveCal then f.gyro.x else f.gyro.y : ℤ) ∧
      (gyroIn p f).z = gyroUnit p.haveCal * f.gyro.z := by
  cases hhave : p.haveCal with
  | false => simp [gyroIn, hhave, gyroUnit, Vec3.map, CNum.ofRat]
  | true =>
    rw [gyroIn, hhave, if_pos rfl, hcal hhave]
    simp [gyroUnit, calibApply, calibInitIdentity, Vec3.zero, vec3Scale, mat3MulVec3, rAlign,
      Vec3.map, Vec3.zipWith, CNum.ofRat, CArith.mul, CArith.add, CArith.sub, mul_comm]

theorem reading_gyroIn (hcal : p.haveCal = true → p.cal = calibInitIdentity) (hf : S16Frame f) :
    Reading (gyroUnit p.haveCal) (gyroIn p f).y ∧ Reading (gyroUnit p.haveCal) (gyroIn p f).z := by
  obtain ⟨-, hx, hy, hz⟩ := hf
  obtain ⟨hgy, hgz⟩ := gyroIn_identity (f := f) hcal
  refine ⟨⟨_, ?_, hgy⟩, ⟨_, hz, hgz⟩⟩
  split_ifs
  · exact hx
  · exact hy

end

/-! ## Every stream -/

/-- What a new configuration with the identity calibration leaves. -/
structure Fresh (p : Pipeline ℚ) (α s : ℚ) (haveCal : Bool) : Prop where
  on : p.airmouseOn = true
  haveCal : p.haveCal = haveCal
  identity : p.haveCal = true → p.cal = calibInitIdentity
  alpha : p.am.alpha = α
  scale : p.am.scale = s

section

variable {p : Pipeline ℚ} {f : ℕ → EvdevFrame} {α s : ℚ} {haveCal : Bool}

theorem Fresh.pipelineImu (h : Fresh p α s haveCal) (f : EvdevFrame) :
    Fresh (pipelineImu p f).1 α s haveCal := by
  obtain ⟨hon, hhave, hcal, hα, hs⟩ := h
  have hsettings : (airmouseProcess p.am (gyroIn p f) (accelIn f)).1.alpha = p.am.alpha ∧
      (airmouseProcess p.am (gyroIn p f) (accelIn f)).1.scale = p.am.scale := by
    rw [airmouseProcess_eq]
    dsimp only
    rw [airmouseGate, airmouseArm]
    split_ifs <;> exact ⟨rfl, rfl⟩
  rw [pipelineImu_eq hon]
  exact ⟨hon, hhave, hcal, hsettings.1.trans hα, hsettings.2.trans hs⟩

theorem Fresh.imuAfter (h : Fresh p α s haveCal) (f : ℕ → EvdevFrame) (n : ℕ) :
    Fresh (imuAfter p f n) α s haveCal := by
  induction n with
  | zero => exact h
  | succ n ih => exact ih.pipelineImu (f n)

/-- Each component of the output is zero on the first frame, and a step of the filter after it. -/
theorem airmouseOut_component (a : Airmouse ℚ) (g acc : Vec3 ℚ) (c : Vec3 ℚ → ℚ)
    (hc : c = Vec3.y ∨ c = Vec3.z) :
    c (airmouseOut a g acc) =
      if a.haveRaw then
        lowPass a.alpha (if deltaEnters a acc then c g - c a.rawPrev else 0) (c a.prev)
      else 0 := by
  rw [airmouseOut]
  rcases hc with rfl | rfl <;> cases a.haveRaw <;> cases deltaEnters a acc <;>
    simp [Vec3.zipWith, Vec3.map, Vec3.zero, CNum.ofRat, CArith.add, CArith.sub, CArith.mul, lowPass]

/-- What the engine keeps between frames: the last samples, and a property of the filtered changes. -/
structure EngineKept (u : ℚ) (Q : ℚ → Prop) (a : Airmouse ℚ) : Prop where
  y : Reading u a.rawPrev.y ∧ Q a.prev.y
  z : Reading u a.rawPrev.z ∧ Q a.prev.z

/-- A property that zero has and the step of the filter keeps, for changes up to the whole range,
holds of the output of a frame. -/
theorem EngineKept.airmouseOut {u : ℚ} {Q : ℚ → Prop} (hzero : Q 0)
    (hkept : ∀ x y, |x| ≤ 65535 * |u| → Q y → Q (lowPass α x y)) {a : Airmouse ℚ} {g : Vec3 ℚ}
    (h : a.haveRaw = true → EngineKept u Q a) (hα : a.alpha = α) (hgy : Reading u g.y)
    (hgz : Reading u g.z) (acc : Vec3 ℚ) : Q (airmouseOut a g acc).y ∧ Q (airmouseOut a g acc).z := by
  have hrange : |(0 : ℚ)| ≤ 65535 * |u| := by
    rw [abs_zero]
    positivity
  rw [airmouseOut_component a g acc Vec3.y (.inl rfl), airmouseOut_component a g acc Vec3.z (.inr rfl),
    hα]
  cases hraw : a.haveRaw with
  | false => exact ⟨hzero, hzero⟩
  | true =>
    obtain ⟨⟨hrawy, hy⟩, hrawz, hz⟩ := h hraw
    simp only [if_true]
    split_ifs
    · exact ⟨hkept _ _ (hgy.abs_sub_le hrawy) hy, hkept _ _ (hgz.abs_sub_le hrawz) hz⟩
    · exact ⟨hkept _ _ hrange hy, hkept _ _ hrange hz⟩

/-- Such a property holds of the filtered changes of every stream. -/
theorem out_of_kept {Q : ℚ → Prop} (hzero : Q 0)
    (hkept : ∀ x y, |x| ≤ 65535 * |gyroUnit haveCal| → Q y → Q (lowPass α x y))
    (h : Fresh p α s haveCal) (hstart : p.am.haveRaw = false) (hf : ∀ i, S16Frame (f i)) (n : ℕ) :
    let q := Daemon.imuAfter p f n
    let out := Pointer.airmouseOut q.am (gyroIn q (f n)) (accelIn (f n))
    Q out.y ∧ Q out.z := by
  have hreading (n : ℕ) := reading_gyroIn (h.imuAfter f n).identity (hf n)
  simp only [(h.imuAfter f _).haveCal] at hreading
  have hinv : ∀ n, (Daemon.imuAfter p f n).am.haveRaw = true →
      EngineKept (gyroUnit haveCal) Q (Daemon.imuAfter p f n).am := by
    intro n
    induction n with
    | zero =>
      intro hraw
      rw [Daemon.imuAfter, hstart] at hraw
      cases hraw
    | succ n ih =>
      intro _
      have hout := EngineKept.airmouseOut hzero hkept ih (h.imuAfter f n).alpha (hreading n).1 (hreading n).2
        (accelIn (f n))
      rw [Daemon.imuAfter, pipelineImu_eq (h.imuAfter f n).on, airmouseProcess_eq]
      exact ⟨⟨(hreading n).1, hout.1⟩, (hreading n).2, hout.2⟩
  exact EngineKept.airmouseOut hzero hkept (hinv n) (h.imuAfter f n).alpha (hreading n).1 (hreading n).2 _

/-- Where the bound of such a property fits after scaling, the values fit. -/
theorem pointerFits_of_kept {Q : ℚ → Prop} (hzero : Q 0)
    (hkept : ∀ x y, |x| ≤ 65535 * |gyroUnit haveCal| → Q y → Q (lowPass α x y))
    (hfits : ∀ y, Q y → |y| * s ≤ 2 ^ 31 - 1) (hs : 0 < s) (h : Fresh p α s haveCal)
    (hstart : p.am.haveRaw = false) : PointerFits p := by
  intro f hf n _
  obtain ⟨hy, hz⟩ := out_of_kept hzero hkept h hstart hf n
  rw [pointerValues, (h.imuAfter f n).scale]
  constructor
  · refine fitsInt_of_abs_le ?_
    rw [abs_mul, abs_neg, abs_of_pos hs]
    exact hfits _ hz
  · refine fitsInt_of_abs_le ?_
    rw [abs_mul, abs_neg, abs_of_pos hs]
    exact hfits _ hy

/-! ## Streams of one axis -/

theorem noKeys_fit : ([] : List KeyEvent).length ≤ 16 := Nat.zero_le 16

/-- The samples of one axis, without an accelerometer. -/
def axisFrame (v : ℤ) : EvdevFrame where
  keys := []
  wheel := 0
  gyro := ⟨0, 0, v⟩
  nkeys_le := noKeys_fit

theorem s16Frame_axisFrame {v : ℤ} (h : S16 v) : S16Frame (axisFrame v) := by
  have hzero : S16 0 := by norm_num [S16]
  exact ⟨⟨hzero, hzero, hzero⟩, hzero, hzero, h⟩

/-- The changes of an axis as the engine gets them. -/
def changes (u : ℚ) (v : ℕ → ℤ) (k : ℕ) : ℚ := u * (v (k + 1) - v k)

/-- Without an accelerometer the gate stays as it is and lets every change pass. -/
theorem gate_of_absent {a : Airmouse ℚ} (h : a.aAbsent = true) (v : ℤ) :
    airmouseGate a (accelIn (axisFrame v)) = a ∧
      deltaEnters a (accelIn (axisFrame v)) = a.haveRaw := by
  have hzero : nonzero (accelIn (axisFrame 0)) = false := by decide +kernel
  have harm : airmouseArm a (accelIn (axisFrame v)) = a := by
    rw [airmouseArm, show accelIn (axisFrame v) = accelIn (axisFrame 0) from rfl, hzero,
      Bool.and_false, if_neg Bool.false_ne_true]
  constructor
  · simp [airmouseGate, harm, h]
  · simp [deltaEnters, harm, h]

/-- The engine after some samples of one axis: the last sample, and the filter over the changes. -/
structure AfterAxis (α u : ℚ) (v : ℕ → ℤ) (n : ℕ) (a : Airmouse ℚ) : Prop where
  alpha : a.alpha = α
  absent : a.aAbsent = true
  haveRaw : a.haveRaw = decide (0 < n)
  last : ∀ k, n = k + 1 → a.rawPrev.z = u * v k
  prev : ∀ k, n = k + 1 → a.prev.z = filtered α (changes u v) k

/-- The output for the next sample is the filter over the changes. -/
theorem AfterAxis.out {u : ℚ} {v : ℕ → ℤ} {n : ℕ} {a : Airmouse ℚ} (h : AfterAxis α u v n a)
    {g : Vec3 ℚ} (hg : g.z = u * v n) :
    (Pointer.airmouseOut a g (accelIn (axisFrame (v n)))).z = filtered α (changes u v) n := by
  rw [airmouseOut_component _ _ _ Vec3.z (.inr rfl), (gate_of_absent h.absent _).2, h.haveRaw,
    h.alpha]
  cases n with
  | zero => rfl
  | succ k =>
    rw [decide_eq_true (Nat.succ_pos k), if_pos rfl, if_pos rfl, hg, h.last k rfl, h.prev k rfl,
      ← mul_sub]
    rfl

/-- The engine goes on so with the next sample. -/
theorem AfterAxis.process {u : ℚ} {v : ℕ → ℤ} {n : ℕ} {a : Airmouse ℚ} (h : AfterAxis α u v n a)
    {g : Vec3 ℚ} (hg : g.z = u * v n) :
    AfterAxis α u v (n + 1) (airmouseProcess a g (accelIn (axisFrame (v n)))).1 := by
  rw [airmouseProcess_eq, (gate_of_absent h.absent _).1]
  refine ⟨h.alpha, h.absent, ?_, fun k hk => ?_, fun k hk => ?_⟩
  · exact (decide_eq_true (Nat.succ_pos n)).symm
  · obtain rfl : n = k := by omega
    exact hg
  · obtain rfl : n = k := by omega
    exact h.out hg

/-- The output for the samples of one axis is the filter over their changes. -/
theorem out_axisFrames (h : Fresh p α s haveCal) (hstart : p.am.haveRaw = false)
    (habsent : p.am.aAbsent = true) (v : ℕ → ℤ) (n : ℕ) :
    let q := Daemon.imuAfter p (fun k => axisFrame (v k)) n
    (Pointer.airmouseOut q.am (gyroIn q (axisFrame (v n))) (accelIn (axisFrame (v n)))).z =
      filtered α (changes (gyroUnit haveCal) v) n := by
  let q (n : ℕ) := Daemon.imuAfter p (fun k => axisFrame (v k)) n
  have hfresh (n : ℕ) : Fresh (q n) α s haveCal := h.imuAfter _ n
  have hgyro (n : ℕ) : (gyroIn (q n) (axisFrame (v n))).z = gyroUnit haveCal * v n := by
    rw [(gyroIn_identity (hfresh n).identity).2, (hfresh n).haveCal]
    rfl
  have hinv : ∀ n, AfterAxis α (gyroUnit haveCal) v n (q n).am := by
    intro n
    induction n with
    | zero => exact ⟨h.alpha, habsent, hstart, fun k hk => by omega, fun k hk => by omega⟩
    | succ n ih =>
      have hnext : q (n + 1) = (pipelineImu (q n) (axisFrame (v n))).1 := rfl
      rw [hnext, pipelineImu_eq (hfresh n).on]
      exact ih.process (hgyro n)
  exact (hinv n).out (hgyro n)

/-- A stream of one axis whose filtered changes leave the range, scaled, shows that the values do not
fit. -/
theorem not_pointerFits_of_axis (h : Fresh p α s haveCal) (hstart : p.am.haveRaw = false)
    (habsent : p.am.aAbsent = true) {v : ℕ → ℤ} (hv : ∀ k, S16 (v k)) {n : ℕ}
    (hout : ¬ FitsInt (-filtered α (changes (gyroUnit haveCal) v) n * s)) : ¬ PointerFits p := by
  intro hfits
  have hvalue := (hfits _ (fun k => s16Frame_axisFrame (hv k)) n (h.imuAfter _ n).on).1
  rw [pointerValues, out_axisFrames h hstart habsent, (h.imuAfter _ n).scale] at hvalue
  exact hout hvalue

end

/-! ## The exact range of the coefficient -/

theorem gyroUnit_bounds (haveCal : Bool) : 0 < |gyroUnit haveCal| ∧ |gyroUnit haveCal| ≤ 1 := by
  cases haveCal
  · norm_num [gyroUnit]
  · norm_num [gyroUnit, radPerDegree, CNum.ofRat, abs_of_pos]

/-- The coefficients and sensitivities for which the values fit: the coefficient lies between zero and
one, or the swing past one still fits. -/
def GainFits (α s : ℚ) (haveCal : Bool) : Prop :=
  0 ≤ α ∧ (α ≤ 1 ∨ α * (65535 * |gyroUnit haveCal|) * s ≤ (2 ^ 31 - 1) * (2 - α))

section

variable {p : Pipeline ℚ} {α s : ℚ} {haveCal : Bool}

theorem pointerFits_of_gainFits (h : Fresh p α s haveCal) (hstart : p.am.haveRaw = false)
    (hs : 0 < s) (hs' : s ≤ 10000) (hgain : GainFits α s haveCal) : PointerFits p := by
  obtain ⟨hunit, hunit'⟩ := gyroUnit_bounds haveCal
  obtain ⟨h0, hgain⟩ := hgain
  set d : ℚ := 65535 * |gyroUnit haveCal| with hd
  have hdpos : 0 < d := by positivity
  rcases le_or_gt α 1 with h1 | h1
  · -- the filtered changes stay within the range of the changes
    refine pointerFits_of_kept (Q := fun y => -d ≤ y ∧ y ≤ d) ⟨by linarith, hdpos.le⟩ ?_ ?_ hs h
      hstart
    · exact fun x y hx hy => lowPass_mem_Icc h0 h1 (abs_le.mp hx) hy
    · intro y hy
      have hy' : |y| ≤ 65535 := (abs_le.mpr hy).trans (by linarith)
      calc |y| * s ≤ 65535 * 10000 := mul_le_mul hy' hs' hs.le (by norm_num)
        _ ≤ 2 ^ 31 - 1 := by norm_num
  · have hgain := hgain.resolve_left (not_le.mpr h1)
    -- past one the filter swings, by a bound that the gain leaves below the range
    have h2 : α < 2 := by
      by_contra h2
      have hpos : 0 < α * d * s := by positivity
      linarith
    refine pointerFits_of_kept (Q := fun y => (2 - α) * |y| < α * d) ?_ ?_ ?_ hs h hstart
    · simpa using by positivity
    · exact fun x y hx hy => swing_lowPass h1 hx hy h2
    · intro y hy
      refine le_of_mul_le_mul_left ?_ (sub_pos.mpr h2)
      have := mul_lt_mul_of_pos_right hy hs
      linarith

/-- The sign of the factor. -/
def unitSign (haveCal : Bool) : ℤ := if haveCal then -1 else 1

theorem gyroUnit_mul_unitSign (haveCal : Bool) :
    gyroUnit haveCal * unitSign haveCal = |gyroUnit haveCal| := by
  cases haveCal
  · norm_num [gyroUnit, unitSign]
  · norm_num [gyroUnit, unitSign, radPerDegree, CNum.ofRat, abs_of_pos]

/-- Samples that go from one end of the range to the other and back. -/
def swingSamples (haveCal : Bool) (k : ℕ) : ℤ :=
  if (k % 2 = 0) = haveCal then -32768 else 32767

theorem changes_swingSamples (haveCal : Bool) (k : ℕ) :
    changes (gyroUnit haveCal) (swingSamples haveCal) k =
      -((-1) ^ k * (65535 * |gyroUnit haveCal|)) := by
  have hstep : (swingSamples haveCal (k + 1) : ℚ) - swingSamples haveCal k =
      -((-1) ^ k * (65535 * unitSign haveCal)) := by
    rcases Nat.even_or_odd' k with ⟨j, rfl | rfl⟩
    · cases haveCal <;> norm_num [swingSamples, unitSign, pow_mul, Nat.add_mod]
    · cases haveCal <;> norm_num [swingSamples, unitSign, pow_succ, pow_mul, Nat.add_mod]
  rw [changes, hstep, ← gyroUnit_mul_unitSign]
  ring

/-- A single step of one count. -/
def stepSamples (haveCal : Bool) (k : ℕ) : ℤ := if k = 0 then 0 else -unitSign haveCal

theorem changes_stepSamples (haveCal : Bool) (k : ℕ) :
    changes (gyroUnit haveCal) (stepSamples haveCal) k =
      if k = 0 then -|gyroUnit haveCal| else 0 := by
  rw [← gyroUnit_mul_unitSign]
  cases k <;> simp [changes, stepSamples]

/-- Where the values fit on every stream, so does the coefficient: below zero a single step grows
without bound, and past one the samples that go from end to end add up. -/
theorem gainFits_of_pointerFits (h : Fresh p α s haveCal) (hstart : p.am.haveRaw = false)
    (habsent : p.am.aAbsent = true) (hs : 0 < s) (hfits : PointerFits p) : GainFits α s haveCal := by
  obtain ⟨hunit, -⟩ := gyroUnit_bounds haveCal
  constructor
  -- with a negative coefficient a single change is enough: what it leaves grows with every frame
  · by_contra h0
    obtain ⟨n, hn⟩ := exists_lt_filtered_impulse (not_le.mp h0) (neg_lt_zero.mpr hunit) (2 ^ 31 / s)
    have hs16 (k : ℕ) : S16 (stepSamples haveCal k) := by
      unfold stepSamples unitSign
      split_ifs <;> norm_num [S16]
    refine not_pointerFits_of_axis h hstart habsent hs16 (n := n) (fun hfit => ?_) hfits
    have hchanges : changes (gyroUnit haveCal) (stepSamples haveCal) =
        fun k => if k = 0 then -|gyroUnit haveCal| else 0 := funext (changes_stepSamples haveCal)
    rw [hchanges] at hfit
    have := (div_lt_iff₀ hs).mp hn
    linarith [hfit.1]
  -- past one the largest change, back and forth, comes near to its swing
  · by_contra hgain
    rw [not_or, not_le, not_le] at hgain
    obtain ⟨h1, hswing⟩ := hgain
    have hd : 0 < 65535 * |gyroUnit haveCal| := by positivity
    have hbound : (2 ^ 31 - 1) / s * (2 - α) < α * (65535 * |gyroUnit haveCal|) := by
      rw [div_mul_eq_mul_div, div_lt_iff₀ hs]
      exact hswing
    obtain ⟨n, hn⟩ := exists_lt_filtered_alternating h1 hd hbound
    have hs16 (k : ℕ) : S16 (swingSamples haveCal k) := by
      unfold swingSamples
      split_ifs <;> norm_num [S16]
    refine not_pointerFits_of_axis h hstart habsent hs16 (n := n) (fun hfit => ?_) hfits
    have hchanges : changes (gyroUnit haveCal) (swingSamples haveCal) =
        fun k => -((-1) ^ k * (65535 * |gyroUnit haveCal|)) := funext (changes_swingSamples haveCal)
    rw [hchanges, filtered_neg, neg_neg] at hfit
    have := (div_lt_iff₀ hs).mp hn
    linarith [hfit.2]

end

/-! ## Configurations -/

/-- A profile with exact numbers. -/
def exactProfile (p : Profile Double) : Profile ℚ where
  name := p.name
  scrollSpeed := p.scrollSpeed.toRat
  sensitivity := p.sensitivity.toRat
  lpfAlpha := p.lpfAlpha.toRat
  hasScroll := p.hasScroll
  hasSens := p.hasSens
  hasLpf := p.hasLpf
  map := p.map

/-- A device configuration with exact numbers. -/
def exactDevice (dc : DeviceConfig Double) : DeviceConfig ℚ where
  profile := dc.profile
  calib := dc.calib
  airmouse := dc.airmouse
  hasAirmouse := dc.hasAirmouse
  profiles := dc.profiles.map exactProfile

/-- The profiles of a configuration passed their check, and their numbers are numbers. -/
structure AcceptedDevice (dc : DeviceConfig Double) : Prop where
  valid : profilesValidate dc.profiles = .ok ()
  noNan : ∀ p ∈ dc.profiles, p.NoNan

section

variable {dc : DeviceConfig Double}

theorem profileFind_exactDevice (dc : DeviceConfig Double) (name : CStr) :
    profileFind (exactDevice dc) name = (profileFind dc name).map exactProfile := by
  rw [profileFind, profileFind, exactDevice, List.find?_map]
  rfl

/-- The sensitivity of a checked profile. -/
theorem sensitivity_bounds {x : Double} (hnan : x ≠ .nan) (h : sensitivityOutOfRange x = false) :
    0 < x.toRat ∧ x.toRat ≤ 10000 := by
  obtain ⟨hi, hhi, hneg, hmag⟩ := Double.exists_ofInt_eq (n := 10000) (by norm_num) (by norm_num)
  rw [sensitivityOutOfRange, Bool.or_eq_false_iff] at h
  have hle : x.le (Double.zero false) = false := h.1
  have hlt : (Double.finite hi).lt x = false := by
    rw [← hhi]
    exact h.2
  have hbounds := Double.toRat_bounds hnan hle hlt
  have hzero : (⟨false, 0, -1074, by norm_num, le_rfl, by norm_num, .inl rfl⟩ : Finite).toRat = 0 := by
    simp [Finite.toRat, Finite.mag]
  have hhival : hi.toRat = 10000 := by
    rw [Finite.toRat, hneg, if_neg Bool.false_ne_true, hmag]
    norm_num
  rwa [hzero, hhival] at hbounds

/-- The pipeline runs with a checked sensitivity or with the built-in one. -/
theorem sensitivity_resolveProfile (h : AcceptedDevice dc) :
    0 < (resolveProfile (exactDevice dc)).sensitivity ∧
      (resolveProfile (exactDevice dc)).sensitivity ≤ 10000 := by
  have hbuiltin : (0 : ℚ) < CNum.ofRat 30 ∧ (CNum.ofRat 30 : ℚ) ≤ 10000 := by norm_num [CNum.ofRat]
  have hactive : activeProfile (exactDevice dc) = (activeProfile dc).map exactProfile := by
    rw [activeProfile, activeProfile, profileFind_exactDevice, profileFind_exactDevice]
    exact Option.map_or.symm
  have hsens : (resolveProfile (exactDevice dc)).sensitivity =
      setting ((activeProfile dc).map exactProfile) (·.hasSens) (·.sensitivity) (CNum.ofRat 30) := by
    rw [resolveProfile_eq, hactive]
  rw [hsens]
  cases hfind : activeProfile dc with
  | none => exact hbuiltin
  | some q =>
    have hmem : q ∈ dc.profiles := by
      rw [activeProfile, Option.or_eq_some_iff] at hfind
      rcases hfind with hfind | ⟨-, hfind⟩
      · exact List.mem_of_find?_eq_some hfind
      · exact List.mem_of_find?_eq_some hfind
    have hvalid := (profileValidate_eq_ok.mp (profilesValidate_eq_ok.mp h.valid q hmem)).2.2.1
    rw [Option.map_some, setting]
    split_ifs
    · exact sensitivity_bounds (h.noNan q hmem).sensitivity hvalid
    · exact hbuiltin

/-- The pipeline after a configuration with the identity calibration. -/
theorem fresh_pipelineConfigure (p : Pipeline ℚ) (dc : DeviceConfig ℚ) (hon : dc.airmouse = true)
    (calibPath : CStr) (gcfg : GlobalConfig ℚ) (kbdUinput : ℤ) :
    let q := (pipelineConfigure (fun _ => .ok calibInitIdentity) p dc calibPath gcfg kbdUinput).2.1
    Fresh q gcfg.lpfAlpha (resolveProfile dc).sensitivity (decide (calibPath ≠ .empty)) ∧
      q.am.haveRaw = false ∧ q.am.aAbsent = true := by
  have hlpf : (resolveProfile dc).hasLpf = false := by rw [resolveProfile_eq]
  rw [pipelineConfigure]
  by_cases hpath : calibPath = .empty
  · rw [if_pos hpath, hpath]
    exact ⟨⟨hon, rfl, fun h => absurd h Bool.false_ne_true, if_neg (hlpf ▸ Bool.false_ne_true), rfl⟩,
      rfl, rfl⟩
  · rw [if_neg hpath]
    exact ⟨⟨hon, (decide_eq_true hpath).symm, fun _ => rfl, if_neg (hlpf ▸ Bool.false_ne_true), rfl⟩,
      rfl, rfl⟩

/-- While the airmouse is off nothing is converted. -/
theorem pointerFits_of_off {p : Pipeline ℚ} (h : p.airmouseOn = false) : PointerFits p := by
  intro f _ n hon
  have hoff : (imuAfter p f n).airmouseOn = false := by
    clear hon
    induction n with
    | zero => exact h
    | succ n ih => rwa [imuAfter, pipelineImu, ih]
  rw [hoff] at hon
  cases hon

end

/-- For every accepted configuration with the identity calibration, or with none, and exact numbers:
what the engine converts fits on every stream exactly when the airmouse is off, the global
coefficient lies between zero and one, or its swing past one still fits. The coefficient of the
profile does not come into it. -/
theorem pointerFits_iff (p : Pipeline ℚ) (dc : DeviceConfig Double) (hdc : AcceptedDevice dc)
    (calibPath : CStr) (gcfg : GlobalConfig ℚ) (kbdUinput : ℤ) :
    PointerFits (pipelineConfigure (fun _ => .ok calibInitIdentity) p (exactDevice dc) calibPath gcfg
      kbdUinput).2.1 ↔
    dc.airmouse = false ∨
      GainFits gcfg.lpfAlpha (resolveProfile (exactDevice dc)).sensitivity
        (decide (calibPath ≠ .empty)) := by
  obtain ⟨hs, hs'⟩ := sensitivity_resolveProfile hdc
  cases hon : dc.airmouse with
  | false =>
    refine iff_of_true (pointerFits_of_off ?_) (.inl rfl)
    rw [pipelineConfigure]
    split_ifs <;> exact hon
  | true =>
    obtain ⟨hfresh, hstart, habsent⟩ :=
      fresh_pipelineConfigure p (exactDevice dc) hon calibPath gcfg kbdUinput
    rw [or_iff_right Bool.noConfusion]
    exact ⟨gainFits_of_pointerFits hfresh hstart habsent hs,
      pointerFits_of_gainFits hfresh hstart hs hs'⟩

/-- The documented coefficient fits, with the built-in configuration of a remote. -/
theorem pointerFits_builtin : PointerFits (pipelineConfigure (fun _ => .ok calibInitIdentity)
    pipelineInit (exactDevice deviceConfigInit) (.lit "calib.json") ⟨1 / 5, true, 60, 400⟩ 3).2.1 :=
  (pointerFits_iff pipelineInit deviceConfigInit ⟨rfl, by simp [deviceConfigInit]⟩ (.lit "calib.json")
    ⟨1 / 5, true, 60, 400⟩ 3).mpr (.inr ⟨by norm_num, .inl (by norm_num)⟩)

/-- A coefficient of three, which the global configuration takes: a sample that goes from end to end
is out of range after sixteen frames. -/
theorem largeCoefficient_not_pointerFits : AcceptedDevice deviceConfigInit ∧
    ¬ PointerFits (pipelineConfigure (fun _ => .ok calibInitIdentity) pipelineInit
      (exactDevice deviceConfigInit) (.lit "calib.json") ⟨3, true, 60, 400⟩ 3).2.1 := by
  refine ⟨⟨rfl, by simp [deviceConfigInit]⟩, fun h => ?_⟩
  have hs16 (k : ℕ) : S16Frame (axisFrame (swingSamples true k)) := by
    refine s16Frame_axisFrame ?_
    unfold swingSamples
    split_ifs <;> norm_num [S16]
  have hfits := (h (fun k => axisFrame (swingSamples true k)) hs16 16 (by decide +kernel)).1
  exact absurd hfits (by decide +kernel)

end Daemon
