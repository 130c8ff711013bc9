import LgMagic.Madgwick
import Mathlib.Algebra.Quaternion
import Mathlib.Tactic.LinearCombination

/-!
# Where the filter is defined

Over the real numbers. The orientation is a unit quaternion after a step unless one of the divisors
that are not looked at is zero: the length of the first accelerometer, the length of the gradient,
and the length of the orientation after the step. In the frame of the device the gradient is a part
along the orientation and a part around it, which says when the other two are zero.

* `Stuck`, `Cancels`: the steps that divide by zero;
* `StaysUnit`, `Meets`: a run without a division by zero, and the condition for it;
* `inFrame_rate`, `inFrame_gradient`: the two changes in the frame of the device;
* `gradient_eq_zero_iff`, `advance_eq_zero_iff`: when the divisors are zero;
* `exists_update_iff`, `isUnit_of_update`: a step;
* `lt_abs_beta_of_cancels`: only a gain above the sample frequency cancels a step;
* `staysUnit_iff_meets`: a run.
-/

namespace Orientation

open Pointer

/-! ## The condition -/

/-- A vector is zero. -/
def IsZero (v : Vec3 ℝ) : Prop := v.x = 0 ∧ v.y = 0 ∧ v.z = 0

/-- The direction of a vector. -/
noncomputable def direction (a : Vec3 ℝ) : Vec3 ℝ :=
  ⟨a.x / vec3Norm a, a.y / vec3Norm a, a.z / vec3Norm a⟩

/-- The direction of gravity in the frame of a device with an orientation. -/
noncomputable def gravity (q : Quat ℝ) : Vec3 ℝ := objective q ⟨0, 0, 0⟩

/-- The part of the gradient along the orientation, by half. -/
noncomputable def along (q : Quat ℝ) (a : Vec3 ℝ) : ℝ :=
  1 - ((gravity q).x * a.x + (gravity q).y * a.y + (gravity q).z * a.z) - ((gravity q).z - a.z)

/-- The part of the gradient around the orientation, by half: the cross product of the direction of
gravity and the one that was measured. -/
noncomputable def around (q : Quat ℝ) (a : Vec3 ℝ) : Vec3 ℝ where
  x := (gravity q).y * a.z - (gravity q).z * a.y
  y := (gravity q).z * a.x - (gravity q).x * a.z
  z := (gravity q).x * a.y - (gravity q).y * a.x

/-- The length of the gradient, by half. -/
noncomputable def pull (q : Quat ℝ) (a : Vec3 ℝ) : ℝ :=
  norm4 (along q a) (around q a).x (around q a).y (around q a).z

/-- The orientation is a rotation around the vertical axis, and gravity is measured upside down. -/
def Stuck (q : Quat ℝ) (a : Vec3 ℝ) : Prop := q.x = 0 ∧ q.y = 0 ∧ a.x = 0 ∧ a.y = 0 ∧ a.z < 0

/-- The feedback and the gyroscope take the orientation back to zero within one sample. -/
def Cancels (st : MadgwickState ℝ) (g a : Vec3 ℝ) : Prop :=
  let m := pull st.cur (direction a)
  let c := around st.cur (direction a)
  let k := st.beta + st.beta
  0 < m ∧ st.sampleFreq * m = st.beta * along st.cur (direction a) ∧
    g.x * m = k * c.x ∧ g.y * m = k * c.y ∧ g.z * m = k * c.z

/-- A step that turns and sees an acceleration is neither of the two. -/
def StepMeets (st : MadgwickState ℝ) (frame : ImuFrame ℝ) : Prop :=
  ¬ IsZero frame.gyro → ¬ IsZero frame.accel →
    ¬ Stuck st.cur frame.accel ∧ ¬ Cancels st frame.gyro frame.accel

/-- Each step from the state before it. -/
def StepsMeet (st : MadgwickState ℝ) : List (ImuFrame ℝ) → Prop
  | [] => True
  | frame :: frames => StepMeets st frame ∧
      ∀ st', madgwickUpdateImu st frame.gyro frame.accel = some st' → StepsMeet st' frames

/-- The first frame has an acceleration, and the steps from its seed meet the condition. -/
def Meets (beta sampleFreq : ℝ) : List (ImuFrame ℝ) → Prop
  | [] => True
  | frame :: frames => ¬ IsZero frame.accel ∧ ∀ q0, accelToQuat frame.accel = some q0 →
      StepsMeet (madgwickInit beta sampleFreq q0) (frame :: frames)

/-- The orientation of a state is a unit quaternion. -/
structure IsUnit (st : MadgwickState ℝ) : Prop where
  cur : quatNorm st.cur = 1
  q : st.q = st.cur

/-- A run divides by no zero, and each of its states has a unit quaternion. -/
def StaysUnit (run : Option (List (MadgwickState ℝ))) : Prop :=
  ∃ sts, run = some sts ∧ ∀ st ∈ sts, IsUnit st

/-! ## The frame of the device -/

/-- A quaternion as one of the algebra of quaternions. -/
def Quat.toH (q : Quat ℝ) : Quaternion ℝ := ⟨q.w, q.x, q.y, q.z⟩

@[simp] theorem Quat.re_toH (q : Quat ℝ) : q.toH.re = q.w := rfl

@[simp] theorem Quat.imI_toH (q : Quat ℝ) : q.toH.imI = q.x := rfl

@[simp] theorem Quat.imJ_toH (q : Quat ℝ) : q.toH.imJ = q.y := rfl

@[simp] theorem Quat.imK_toH (q : Quat ℝ) : q.toH.imK = q.z := rfl

section

variable {q : Quat ℝ} {a : Vec3 ℝ}

theorem quatNorm_mul_self (q : Quat ℝ) : quatNorm q * quatNorm q = Quaternion.normSq q.toH := by
  rw [quatNorm, norm4_mul_self, Quaternion.normSq_def']
  simp only [Quat.re_toH, Quat.imI_toH, Quat.imJ_toH, Quat.imK_toH]
  ring

theorem normSq_of_unit (hq : quatNorm q = 1) : Quaternion.normSq q.toH = 1 := by
  rw [← quatNorm_mul_self, hq, one_mul]

theorem sum_of_unit (hq : quatNorm q = 1) : q.w * q.w + q.x * q.x + q.y * q.y + q.z * q.z = 1 := by
  rw [← norm4_mul_self, ← quatNorm, hq, one_mul]

/-- A quaternion in the frame of the device: the product with the conjugate of the orientation. -/
def inFrame (q p : Quat ℝ) : Quat ℝ where
  w := q.w * p.w + q.x * p.x + q.y * p.y + q.z * p.z
  x := q.w * p.x - q.x * p.w - q.y * p.z + q.z * p.y
  y := q.w * p.y - q.y * p.w + q.x * p.z - q.z * p.x
  z := q.w * p.z - q.z * p.w - q.x * p.y + q.y * p.x

theorem toH_inFrame (q p : Quat ℝ) : (inFrame q p).toH = star q.toH * p.toH := by
  refine Quaternion.ext _ _ ?_ ?_ ?_ ?_
  all_goals
    simp only [Quaternion.re_mul, Quaternion.imI_mul, Quaternion.imJ_mul, Quaternion.imK_mul,
      Quaternion.re_star, Quaternion.imI_star, Quaternion.imJ_star, Quaternion.imK_star,
      Quat.re_toH, Quat.imI_toH, Quat.imJ_toH, Quat.imK_toH, inFrame]
    ring

/-- The frame of a unit quaternion keeps lengths. -/
theorem quatNorm_inFrame (hq : quatNorm q = 1) (p : Quat ℝ) :
    quatNorm (inFrame q p) = quatNorm p := by
  have hsq : quatNorm (inFrame q p) * quatNorm (inFrame q p) = quatNorm p * quatNorm p := by
    rw [quatNorm_mul_self, quatNorm_mul_self, toH_inFrame, map_mul, Quaternion.normSq_star,
      normSq_of_unit hq, one_mul]
  exact (mul_self_inj norm4_nonneg norm4_nonneg).mp hsq

/-- The change by the gyroscope in the frame of the device. -/
theorem inFrame_rate (hq : quatNorm q = 1) (g : Vec3 ℝ) :
    inFrame q (rate q g) = ⟨0, g.x / 2, g.y / 2, g.z / 2⟩ := by
  have hsum := sum_of_unit hq
  simp only [inFrame, rate, Quat.mk.injEq]
  refine ⟨by ring, ?_, ?_, ?_⟩
  · linear_combination g.x / 2 * hsum
  · linear_combination g.y / 2 * hsum
  · linear_combination g.z / 2 * hsum

/-- The gradient in the frame of the device. -/
theorem inFrame_gradient (hq : quatNorm q = 1) (a : Vec3 ℝ) :
    inFrame q (gradient q (objective q a)) =
      ⟨2 * along q a, 2 * (around q a).x, 2 * (around q a).y, 2 * (around q a).z⟩ := by
  have hsum := sum_of_unit hq
  simp only [inFrame, gradient, objective, along, around, gravity, Quat.mk.injEq]
  refine ⟨?_, ?_, ?_, by ring⟩
  · linear_combination (8 * (q.x * q.x + q.y * q.y)) * hsum
  · linear_combination (2 * (2 * (q.w * q.x + q.y * q.z) - a.y)) * hsum
  · linear_combination (-2 * (2 * (q.x * q.z - q.w * q.y) - a.x)) * hsum

theorem quatNorm_gradient (hq : quatNorm q = 1) (a : Vec3 ℝ) :
    quatNorm (gradient q (objective q a)) = 2 * pull q a := by
  rw [← quatNorm_inFrame hq, inFrame_gradient hq]
  have hsq : quatNorm ⟨2 * along q a, 2 * (around q a).x, 2 * (around q a).y, 2 * (around q a).z⟩ *
      quatNorm ⟨2 * along q a, 2 * (around q a).x, 2 * (around q a).y, 2 * (around q a).z⟩ =
      2 * pull q a * (2 * pull q a) := by
    have hpull : pull q a * pull q a = _ := norm4_mul_self
    rw [quatNorm, norm4_mul_self]
    linear_combination -4 * hpull
  exact (mul_self_inj norm4_nonneg (mul_nonneg zero_le_two norm4_nonneg)).mp hsq

/-! ## The divisors -/

/-- Around the vertical axis, an acceleration of the length one that lies on the axis is that of the
orientation or its opposite. -/
theorem isZero_or_stuck_of_vertical (hqx : q.x = 0) (hqy : q.y = 0) (ha : vec3Norm a = 1)
    (hfx : (objective q a).x = 0) (hfy : (objective q a).y = 0) :
    IsZero (objective q a) ∨ Stuck q a := by
  have hax : a.x = 0 := by
    rw [objective, hqx, hqy] at hfx
    linear_combination -hfx
  have hay : a.y = 0 := by
    rw [objective, hqx, hqy] at hfy
    linear_combination -hfy
  have hunit : a.x * a.x + a.y * a.y + a.z * a.z = 1 := by
    rw [← norm3_mul_self, ← vec3Norm, ha, one_mul]
  rw [hax, hay] at hunit
  have haz : a.z = 1 ∨ a.z = -1 := mul_self_eq_one_iff.mp (by linear_combination hunit)
  rcases haz with haz | haz
  · refine .inl ⟨hfx, hfy, ?_⟩
    rw [objective, hqx, hqy, haz]
    norm_num
  · exact .inr ⟨hqx, hqy, hax, hay, by rw [haz]; norm_num⟩

/-- The gradient is zero where the objective is, and where the device is stuck. -/
theorem gradient_eq_zero_iff (hq : quatNorm q = 1) (ha : vec3Norm a = 1) :
    quatNorm (gradient q (objective q a)) = 0 ↔ IsZero (objective q a) ∨ Stuck q a := by
  have hsum := sum_of_unit hq
  rw [quatNorm, norm4_eq_zero_iff]
  constructor
  · rintro ⟨hw, hx, hy, hz⟩
    simp only [gradient] at hw hx hy hz
    set f := objective q a with hf
    -- the outer components decide about the rotation around the horizontal axes
    have hfx : (q.x * q.x + q.y * q.y) * f.x = 0 := by
      linear_combination (q.x / 2) * hz - (q.y / 2) * hw
    have hfy : (q.x * q.x + q.y * q.y) * f.y = 0 := by
      linear_combination (q.x / 2) * hw + (q.y / 2) * hz
    by_cases hxy : q.x * q.x + q.y * q.y = 0
    · obtain ⟨hqx, hqy⟩ := mul_self_add_mul_self_eq_zero.mp hxy
      rw [hqx, hqy] at hsum
      rw [hqx] at hx
      rw [hqy] at hy
      apply isZero_or_stuck_of_vertical hqx hqy ha
      · linear_combination (q.z / 2) * hx - (q.w / 2) * hy - f.x * hsum
      · linear_combination (q.w / 2) * hx + (q.z / 2) * hy - f.y * hsum
    · have hfx := (mul_eq_zero.mp hfx).resolve_left hxy
      have hfy := (mul_eq_zero.mp hfy).resolve_left hxy
      refine .inl ⟨hfx, hfy, ?_⟩
      rw [hfx, hfy] at hx hy
      by_contra hfz
      have hqx : q.x = 0 := by
        refine (mul_eq_zero.mp ?_).resolve_right hfz
        linear_combination -hx / 4
      have hqy : q.y = 0 := by
        refine (mul_eq_zero.mp ?_).resolve_right hfz
        linear_combination -hy / 4
      exact hxy (by rw [hqx, hqy, mul_zero, add_zero])
  · rintro (⟨hfx, hfy, hfz⟩ | ⟨hqx, hqy, hax, hay, -⟩)
    · simp [gradient, hfx, hfy, hfz]
    · simp [gradient, objective, hqx, hqy, hax, hay]

/-- The orientation after a step, in the frame of the device before it. -/
theorem inFrame_advance (hq : quatNorm q = 1) (qd : Quat ℝ) (dt : ℝ) :
    inFrame q (advance q qd dt) = ⟨1 + (inFrame q qd).w * dt, (inFrame q qd).x * dt,
      (inFrame q qd).y * dt, (inFrame q qd).z * dt⟩ := by
  have hsum := sum_of_unit hq
  simp only [inFrame, advance, Quat.mk.injEq]
  refine ⟨?_, by ring, by ring, by ring⟩
  linear_combination hsum

/-- A rate takes the orientation to zero when it is the orientation taken back within one sample. -/
theorem advance_eq_zero_iff (hq : quatNorm q = 1) {qd : Quat ℝ} {freq : ℝ} (hf : 0 < freq) :
    quatNorm (advance q qd (1 / freq)) = 0 ↔
      (inFrame q qd).w = -freq ∧ (inFrame q qd).x = 0 ∧ (inFrame q qd).y = 0 ∧
        (inFrame q qd).z = 0 := by
  have hne : 1 / freq ≠ 0 := one_div_ne_zero hf.ne'
  rw [← quatNorm_inFrame hq, inFrame_advance hq, quatNorm, norm4_eq_zero_iff]
  simp only [mul_eq_zero, or_iff_left hne]
  refine and_congr_left fun _ => ?_
  rw [mul_one_div, add_comm, add_eq_zero_iff_eq_neg, div_eq_iff hf.ne', neg_one_mul]

/-! ## A step -/

theorem vec3Over_of_ne (a : Vec3 ℝ) {n : ℝ} (h : n ≠ 0) :
    vec3Over a n = some ⟨a.x / n, a.y / n, a.z / n⟩ := by
  simp [vec3Over, checkedDiv_of_ne _ h]

theorem quatOver_of_ne (q : Quat ℝ) {n : ℝ} (h : n ≠ 0) :
    quatOver q n = some ⟨q.w / n, q.x / n, q.y / n, q.z / n⟩ := by
  simp [quatOver, checkedDiv_of_ne _ h]

theorem quatOver_zero (q : Quat ℝ) : quatOver q 0 = none := by simp [quatOver]

theorem vec3Norm_pos_iff : 0 < vec3Norm a ↔ ¬ IsZero a := norm3_pos_iff

theorem vec3Norm_direction (h : ¬ IsZero a) : vec3Norm (direction a) = 1 :=
  norm3_div_self (vec3Norm_pos_iff.mpr h).ne'

theorem stuck_direction_iff (h : ¬ IsZero a) : Stuck q (direction a) ↔ Stuck q a := by
  have hpos := vec3Norm_pos_iff.mpr h
  simp only [Stuck, direction, div_eq_zero_iff, or_iff_left hpos.ne', div_neg_iff, hpos,
    not_lt.mpr hpos.le, and_true, and_false, false_or]

/-- The rate that the feedback leaves. -/
noncomputable def pulled (beta : ℝ) (q : Quat ℝ) (a : Vec3 ℝ) (qd : Quat ℝ) : Quat ℝ :=
  let g := gradient q (objective q a)
  ⟨qd.w - beta * (g.w / quatNorm g), qd.x - beta * (g.x / quatNorm g),
    qd.y - beta * (g.y / quatNorm g), qd.z - beta * (g.z / quatNorm g)⟩

theorem feedback_of_isZero (beta : ℝ) (qd : Quat ℝ) (ha : IsZero a) :
    feedback beta q a qd = some qd := by
  rw [feedback, if_neg fun hpos => vec3Norm_pos_iff.mp hpos ha]
  rfl

/-- The feedback of an acceleration at a unit quaternion. -/
theorem feedback_eq (beta : ℝ) (hq : quatNorm q = 1) (qd : Quat ℝ) (ha : ¬ IsZero a) :
    feedback beta q a qd =
      if 0 < vec3Norm (objective q (direction a)) then do
        let g ← quatOver (gradient q (objective q (direction a)))
          (quatNorm (gradient q (objective q (direction a))))
        return ⟨qd.w - beta * g.w, qd.x - beta * g.x, qd.y - beta * g.y, qd.z - beta * g.z⟩
      else some qd := by
  have hpos := vec3Norm_pos_iff.mpr ha
  have hself : quatOver q (quatNorm q) = some q := by
    rw [hq, quatOver_of_ne q one_ne_zero]
    simp
  rw [feedback, if_pos hpos, vec3Over_of_ne a hpos.ne', hself]
  rfl

theorem feedback_of_objective (beta : ℝ) (hq : quatNorm q = 1) (qd : Quat ℝ) (ha : ¬ IsZero a)
    (hf : IsZero (objective q (direction a))) : feedback beta q a qd = some qd := by
  rw [feedback_eq beta hq qd ha, if_neg fun hpos => vec3Norm_pos_iff.mp hpos hf]

/-- A device that is stuck divides by the length of a zero gradient. -/
theorem feedback_of_stuck (beta : ℝ) (hq : quatNorm q = 1) (qd : Quat ℝ) (ha : ¬ IsZero a)
    (hf : ¬ IsZero (objective q (direction a))) (hs : Stuck q a) : feedback beta q a qd = none := by
  have hzero : quatNorm (gradient q (objective q (direction a))) = 0 :=
    (gradient_eq_zero_iff hq (vec3Norm_direction ha)).mpr (.inr ((stuck_direction_iff ha).mpr hs))
  rw [feedback_eq beta hq qd ha, if_pos (vec3Norm_pos_iff.mpr hf), hzero, quatOver_zero]
  rfl

theorem feedback_of_not_stuck (beta : ℝ) (hq : quatNorm q = 1) (qd : Quat ℝ) (ha : ¬ IsZero a)
    (hf : ¬ IsZero (objective q (direction a))) (hs : ¬ Stuck q a) :
    feedback beta q a qd = some (pulled beta q (direction a) qd) := by
  have hne : quatNorm (gradient q (objective q (direction a))) ≠ 0 := fun hzero =>
    ((gradient_eq_zero_iff hq (vec3Norm_direction ha)).mp hzero).elim hf
      fun h => hs ((stuck_direction_iff ha).mp h)
  rw [feedback_eq beta hq qd ha, if_pos (vec3Norm_pos_iff.mpr hf), quatOver_of_ne _ hne]
  rfl

theorem inFrame_pulled (beta : ℝ) (hq : quatNorm q = 1) (a : Vec3 ℝ) (qd : Quat ℝ) :
    inFrame q (pulled beta q a qd) = ⟨(inFrame q qd).w - beta * (along q a / pull q a),
      (inFrame q qd).x - beta * ((around q a).x / pull q a),
      (inFrame q qd).y - beta * ((around q a).y / pull q a),
      (inFrame q qd).z - beta * ((around q a).z / pull q a)⟩ := by
  have hlinear : inFrame q (pulled beta q a qd) =
      let g := inFrame q (gradient q (objective q a))
      let n := quatNorm (gradient q (objective q a))
      ⟨(inFrame q qd).w - beta * (g.w / n), (inFrame q qd).x - beta * (g.x / n),
        (inFrame q qd).y - beta * (g.y / n), (inFrame q qd).z - beta * (g.z / n)⟩ := by
    simp only [inFrame, pulled, Quat.mk.injEq]
    refine ⟨?_, ?_, ?_, ?_⟩ <;> ring
  rw [hlinear, inFrame_gradient hq, quatNorm_gradient hq]
  simp only [mul_div_mul_left _ _ (two_ne_zero (α := ℝ))]

end

section

variable {st st' : MadgwickState ℝ} {g a : Vec3 ℝ}

theorem madgwickUpdateImu_of_isZero (hf : 0 < st.sampleFreq) (hg : IsZero g) (a : Vec3 ℝ) :
    madgwickUpdateImu st g a = some { st with q := st.cur } := by
  rw [IsZero] at hg
  rw [madgwickUpdateImu, checkedDiv_of_ne _ hf.ne', Option.bind_eq_bind, Option.bind_some, if_pos hg]
  rfl

/-- A step that turns has a result when the feedback has one that does not lead to zero. -/
theorem madgwickUpdateImu_eq_some (hf : 0 < st.sampleFreq) (hg : ¬ IsZero g) (a : Vec3 ℝ) :
    madgwickUpdateImu st g a = some st' ↔
      ∃ qd, feedback st.beta st.cur a (rate st.cur g) = some qd ∧
        ∃ q, quatOver (advance st.cur qd (1 / st.sampleFreq))
          (quatNorm (advance st.cur qd (1 / st.sampleFreq))) = some q ∧
          { st with cur := q, q := q } = st' := by
  rw [IsZero] at hg
  rw [madgwickUpdateImu, checkedDiv_of_ne _ hf.ne', Option.bind_eq_bind, Option.bind_some, if_neg hg]
  simp only [Option.bind_eq_bind, Option.bind_eq_some_iff, Option.pure_def, Option.some_inj]

/-- A quaternion divided by its length is a unit quaternion. -/
theorem quatNorm_of_quatOver {p r : Quat ℝ} (h : quatOver p (quatNorm p) = some r) :
    quatNorm r = 1 := by
  by_cases hp : quatNorm p = 0
  · simp [hp, quatOver_zero] at h
  · rw [quatOver_of_ne _ hp, Option.some_inj] at h
    rw [← h]
    exact norm4_div_self hp

theorem exists_quatOver_iff {p : Quat ℝ} :
    (∃ r, quatOver p (quatNorm p) = some r) ↔ quatNorm p ≠ 0 := by
  refine ⟨?_, fun hp => ⟨_, quatOver_of_ne p hp⟩⟩
  rintro ⟨r, hr⟩ hp
  simp [hp, quatOver_zero] at hr

/-- What a step leaves: a unit quaternion, and the parameters as they were. -/
theorem isUnit_of_update (hu : IsUnit st) (hf : 0 < st.sampleFreq)
    (h : madgwickUpdateImu st g a = some st') :
    IsUnit st' ∧ st'.beta = st.beta ∧ st'.sampleFreq = st.sampleFreq := by
  by_cases hg : IsZero g
  · rw [madgwickUpdateImu_of_isZero hf hg, Option.some_inj] at h
    subst h
    exact ⟨⟨hu.cur, rfl⟩, rfl, rfl⟩
  · obtain ⟨qd, -, q, hq, rfl⟩ := (madgwickUpdateImu_eq_some hf hg a).mp h
    exact ⟨⟨quatNorm_of_quatOver hq, rfl⟩, rfl, rfl⟩

/-- A rate without feedback does not lead to zero. -/
theorem advance_rate_ne_zero (hu : IsUnit st) (hf : 0 < st.sampleFreq) (g : Vec3 ℝ) :
    quatNorm (advance st.cur (rate st.cur g) (1 / st.sampleFreq)) ≠ 0 := by
  rw [Ne, advance_eq_zero_iff hu.cur hf, inFrame_rate hu.cur]
  rintro ⟨hw, -⟩
  linarith

/-- A rate with feedback leads to zero when the two cancel. -/
theorem advance_pulled_eq_zero_iff (hu : IsUnit st) (hf : 0 < st.sampleFreq)
    (hpull : 0 < pull st.cur (direction a)) :
    quatNorm (advance st.cur (pulled st.beta st.cur (direction a) (rate st.cur g))
      (1 / st.sampleFreq)) = 0 ↔ Cancels st g a := by
  rw [advance_eq_zero_iff hu.cur hf, inFrame_pulled _ hu.cur, inFrame_rate hu.cur, Cancels, ← two_mul]
  simp only [hpull, true_and]
  have hne := hpull.ne'
  refine and_congr ?_ (and_congr ?_ (and_congr ?_ ?_))
  · rw [zero_sub, neg_inj, mul_div_assoc', div_eq_iff hne, eq_comm]
  · rw [sub_eq_zero, mul_div_assoc', div_eq_div_iff two_ne_zero hne, mul_comm _ (2 : ℝ), mul_assoc]
  · rw [sub_eq_zero, mul_div_assoc', div_eq_div_iff two_ne_zero hne, mul_comm _ (2 : ℝ), mul_assoc]
  · rw [sub_eq_zero, mul_div_assoc', div_eq_div_iff two_ne_zero hne, mul_comm _ (2 : ℝ), mul_assoc]

/-- The feedback cancels a step only with a gain above the sample frequency. -/
theorem lt_abs_beta_of_cancels (hg : ¬ IsZero g) (hf : 0 < st.sampleFreq) (h : Cancels st g a) :
    st.sampleFreq < |st.beta| := by
  obtain ⟨hpull, hw, hx, hy, hz⟩ := h
  set q := st.cur
  set m := pull q (direction a) with hm
  set s := along q (direction a)
  set c := around q (direction a)
  have hsq : m * m = s * s + c.x * c.x + c.y * c.y + c.z * c.z := norm4_mul_self
  have hcx := mul_self_nonneg c.x
  have hcy := mul_self_nonneg c.y
  have hcz := mul_self_nonneg c.z
  -- a device that turns is pulled around, so the part along is not all of the pull
  have hturn : s * s < m * m := by
    by_contra hle
    refine hg ⟨?_, ?_, ?_⟩
    · refine (mul_eq_zero.mp ?_).resolve_right hpull.ne'
      rw [hx, mul_self_eq_zero.mp (by linarith : c.x * c.x = 0), mul_zero]
    · refine (mul_eq_zero.mp ?_).resolve_right hpull.ne'
      rw [hy, mul_self_eq_zero.mp (by linarith : c.y * c.y = 0), mul_zero]
    · refine (mul_eq_zero.mp ?_).resolve_right hpull.ne'
      rw [hz, mul_self_eq_zero.mp (by linarith : c.z * c.z = 0), mul_zero]
  have hs : |s| < m := abs_lt_of_sq_lt_sq (by rwa [sq, sq]) hpull.le
  have hprod : st.sampleFreq * m = |st.beta| * |s| := by
    rw [← abs_mul, ← hw, abs_of_pos (mul_pos hf hpull)]
  have hbeta : 0 < |st.beta| := by
    refine abs_pos.mpr fun h0 => ?_
    rw [h0, abs_zero, zero_mul] at hprod
    exact (mul_pos hf hpull).ne' hprod
  refine lt_of_mul_lt_mul_right ?_ hpull.le
  rw [hprod]
  exact mul_lt_mul_of_pos_left hs hbeta

/-- Where the objective is zero there is nothing to pull, and the device is not stuck. -/
theorem stepMeets_of_objective {frame : ImuFrame ℝ} (hu : IsUnit st) (ha : ¬ IsZero frame.accel)
    (hobj : IsZero (objective st.cur (direction frame.accel))) : StepMeets st frame := by
  intro _ _
  constructor
  · rintro ⟨hqx, hqy, -, -, haz⟩
    have hz := hobj.2.2
    have hneg : frame.accel.z / vec3Norm frame.accel < 0 :=
      div_neg_of_neg_of_pos haz (vec3Norm_pos_iff.mpr ha)
    simp only [objective, direction, hqx, hqy] at hz
    linarith
  · rintro ⟨hpull, -⟩
    have hzero := (gradient_eq_zero_iff hu.cur (vec3Norm_direction ha)).mpr (.inl hobj)
    rw [quatNorm_gradient hu.cur] at hzero
    linarith

/-- A step is defined exactly when it meets the condition. -/
theorem exists_update_iff (hu : IsUnit st) (hf : 0 < st.sampleFreq) (frame : ImuFrame ℝ) :
    (∃ st', madgwickUpdateImu st frame.gyro frame.accel = some st') ↔ StepMeets st frame := by
  by_cases hg : IsZero frame.gyro
  · exact iff_of_true ⟨_, madgwickUpdateImu_of_isZero hf hg _⟩ fun h => absurd hg h
  -- with the rate that the feedback leaves, only the last divisor is left
  have hsome : ∀ {qd}, feedback st.beta st.cur frame.accel (rate st.cur frame.gyro) = some qd →
      ((∃ st', madgwickUpdateImu st frame.gyro frame.accel = some st') ↔
        quatNorm (advance st.cur qd (1 / st.sampleFreq)) ≠ 0) := by
    intro qd hqd
    simp only [madgwickUpdateImu_eq_some hf hg, hqd, Option.some_inj, exists_eq_left',
      ← exists_quatOver_iff]
    constructor
    · rintro ⟨_, q, hq, -⟩
      exact ⟨q, hq⟩
    · rintro ⟨q, hq⟩
      exact ⟨_, q, hq, rfl⟩
  -- the feedback has no direction to compare, nothing to correct, a gradient of zero, or a gradient
  by_cases ha : IsZero frame.accel
  · rw [hsome (feedback_of_isZero _ _ ha)]
    exact iff_of_true (advance_rate_ne_zero hu hf _) fun _ h => absurd ha h
  by_cases hobj : IsZero (objective st.cur (direction frame.accel))
  · rw [hsome (feedback_of_objective _ hu.cur _ ha hobj)]
    exact iff_of_true (advance_rate_ne_zero hu hf _) (stepMeets_of_objective hu ha hobj)
  by_cases hs : Stuck st.cur frame.accel
  · refine iff_of_false ?_ fun h => (h hg ha).1 hs
    rintro ⟨st', h⟩
    obtain ⟨qd, hqd, -⟩ := (madgwickUpdateImu_eq_some hf hg _).mp h
    rw [feedback_of_stuck _ hu.cur _ ha hobj hs] at hqd
    exact absurd hqd (by simp)
  · have hpull : 0 < pull st.cur (direction frame.accel) := by
      refine norm4_nonneg.lt_of_ne' fun h0 => ?_
      have hzero : quatNorm (gradient st.cur (objective st.cur (direction frame.accel))) = 0 := by
        rw [quatNorm_gradient hu.cur, pull, h0, mul_zero]
      exact ((gradient_eq_zero_iff hu.cur (vec3Norm_direction ha)).mp hzero).elim hobj
        fun h => hs ((stuck_direction_iff ha).mp h)
    rw [hsome (feedback_of_not_stuck _ hu.cur _ ha hobj hs), Ne,
      advance_pulled_eq_zero_iff hu hf hpull]
    exact ⟨fun h _ _ => ⟨hs, h⟩, fun h => (h hg ha).2⟩

/-! ## A run -/

theorem staysUnit_none : ¬ StaysUnit none := by simp [StaysUnit]

/-- A run that begins with a step, and goes on from the state after it. -/
theorem staysUnit_filterFrom_cons (hu : IsUnit st) (hf : 0 < st.sampleFreq) (frame : ImuFrame ℝ)
    (frames : List (ImuFrame ℝ)) : StaysUnit (filterFrom st (frame :: frames)) ↔
      ∃ st', madgwickUpdateImu st frame.gyro frame.accel = some st' ∧
        StaysUnit (filterFrom st' frames) := by
  rw [filterFrom]
  cases h : madgwickUpdateImu st frame.gyro frame.accel with
  | none => simp [staysUnit_none]
  | some st' =>
    have hu' := (isUnit_of_update hu hf h).1
    simp only [Option.bind_eq_bind, Option.bind_some, Option.some_inj, exists_eq_left']
    cases filterFrom st' frames with
    | none => simp [staysUnit_none]
    | some sts => simp [StaysUnit, hu']

/-- The steps from a state stay defined exactly when each of them meets the condition. -/
theorem staysUnit_filterFrom_iff (frames : List (ImuFrame ℝ)) (hu : IsUnit st)
    (hf : 0 < st.sampleFreq) : StaysUnit (filterFrom st frames) ↔ StepsMeet st frames := by
  induction frames generalizing st with
  | nil => simp [filterFrom, StaysUnit, StepsMeet]
  | cons frame frames ih =>
    rw [staysUnit_filterFrom_cons hu hf, StepsMeet, ← exists_update_iff hu hf]
    constructor
    · rintro ⟨st', h, hrest⟩
      refine ⟨⟨st', h⟩, fun st'' h' => ?_⟩
      obtain rfl : st' = st'' := Option.some.inj (h.symm.trans h')
      obtain ⟨hu', -, hfreq⟩ := isUnit_of_update hu hf h
      exact (ih hu' (hfreq ▸ hf)).mp hrest
    · rintro ⟨⟨st', h⟩, hrest⟩
      obtain ⟨hu', -, hfreq⟩ := isUnit_of_update hu hf h
      exact ⟨st', h, (ih hu' (hfreq ▸ hf)).mpr (hrest st' h)⟩

theorem accelToQuat_of_isZero (ha : IsZero a) : accelToQuat a = none := by
  have hzero : vec3Norm a = 0 :=
    le_antisymm (not_lt.mp fun h => vec3Norm_pos_iff.mp h ha) (Real.sqrt_nonneg _)
  rw [accelToQuat, hzero]
  simp [vec3Over]

/-- Two half angles give a unit quaternion. -/
theorem norm4_halves (r p : ℝ) : norm4 (Real.cos r * Real.cos p) (Real.sin r * Real.cos p)
    (Real.cos r * Real.sin p) (-Real.sin r * Real.sin p) = 1 := by
  refine (mul_self_eq_one_iff.mp ?_).resolve_right fun hneg => ?_
  · rw [norm4_mul_self]
    linear_combination (Real.cos p ^ 2 + Real.sin p ^ 2) * Real.sin_sq_add_cos_sq r +
      Real.sin_sq_add_cos_sq p
  · have := norm4_nonneg (w := Real.cos r * Real.cos p) (x := Real.sin r * Real.cos p)
      (y := Real.cos r * Real.sin p) (z := -Real.sin r * Real.sin p)
    linarith

/-- The seed of an acceleration is a unit quaternion. -/
theorem exists_accelToQuat (ha : ¬ IsZero a) : ∃ q0, accelToQuat a = some q0 ∧ quatNorm q0 = 1 := by
  rw [accelToQuat, vec3Over_of_ne a (vec3Norm_pos_iff.mpr ha).ne']
  exact ⟨_, rfl, norm4_halves _ _⟩

/-- A run over any frames stays defined, with a unit quaternion in every state, exactly when it
begins with an acceleration and each of its steps meets the condition. -/
theorem staysUnit_iff_meets (beta sampleFreq : ℝ) (frames : List (ImuFrame ℝ)) (hf : 0 < sampleFreq) :
    StaysUnit (filterRun beta sampleFreq frames) ↔ Meets beta sampleFreq frames := by
  cases frames with
  | nil => simp [filterRun, StaysUnit, Meets]
  | cons frame frames =>
    rw [filterRun, Meets]
    by_cases ha : IsZero frame.accel
    · simp [accelToQuat_of_isZero ha, staysUnit_none, ha]
    · obtain ⟨q0, hq0, hunit⟩ := exists_accelToQuat ha
      have hu : IsUnit (madgwickInit beta sampleFreq q0) := ⟨hunit, rfl⟩
      have hsteps := staysUnit_filterFrom_iff (frame :: frames) hu hf
      simp only [hq0, Option.bind_eq_bind, Option.bind_some, ha, not_false_eq_true, true_and,
        Option.some_inj, forall_eq', ← hsteps]
      cases filterFrom (madgwickInit beta sampleFreq q0) (frame :: frames) with
      | none => simp [staysUnit_none]
      | some sts => simp [StaysUnit, hu]

/-- A device at rest, upright. -/
theorem staysUnit_at_rest : StaysUnit (filterRun (1 / 10) 50 [⟨⟨0, 0, 0⟩, ⟨0, 0, 1⟩⟩]) := by
  refine (staysUnit_iff_meets (1 / 10) 50 _ (by norm_num)).mpr
    ⟨?_, fun q0 _ => ⟨?_, fun _ _ => trivial⟩⟩
  · simp [IsZero]
  · exact fun hg => absurd ⟨rfl, rfl, rfl⟩ hg

/-- A first frame without an acceleration. -/
theorem zeroSeed_not_staysUnit : ¬ StaysUnit (filterRun (1 / 10) 50 [⟨⟨0, 0, 0⟩, ⟨0, 0, 0⟩⟩]) := by
  rw [filterRun, accelToQuat_of_isZero ⟨rfl, rfl, rfl⟩]
  exact staysUnit_none

end

end Orientation
