import LgMagic.Madgwick.Angles

/-!
# The heading of the filter

Gravity says nothing about a turn around the vertical axis. A run from an orientation that is turned
around it is the run from the orientation, turned; and while a device turns around nothing but the
vertical, the filter keeps the tilt that the first accelerometer gave, with any gain.

* `Quat.turned`: a turn of the device around the vertical;
* `filterFrom_turned`: the run from a turned state;
* `Level`: the tilt of an orientation is the one measured;
* `level_of_accelToQuat`, `level_of_update`: the seed, and a step around the vertical;
* `level_filterRun`: a run around the vertical.
-/

namespace Orientation

open Pointer

section

variable {K : Type} [Field K] {c s : K}

/-- An orientation turned around the vertical, by the cosine and the sine of half the angle. -/
def Quat.turned (c s : K) (q : Quat K) : Quat K :=
  ⟨c * q.w - s * q.z, c * q.x - s * q.y, c * q.y + s * q.x, c * q.z + s * q.w⟩

/-- A state turned around the vertical. -/
def MadgwickState.turned (c s : K) (st : MadgwickState K) : MadgwickState K :=
  { st with cur := st.cur.turned c s, q := st.q.turned c s }

/-! ## A turned orientation -/

/-- What is measured does not depend on the heading. -/
theorem objective_turned (h : c * c + s * s = 1) (q : Quat K) (a : Vec3 K) :
    objective (q.turned c s) a = objective q a := by
  simp only [objective, Quat.turned, Vec3.mk.injEq]
  refine ⟨?_, ?_, ?_⟩
  · linear_combination 2 * (q.x * q.z - q.w * q.y) * h
  · linear_combination 2 * (q.w * q.x + q.y * q.z) * h
  · linear_combination -2 * (q.x * q.x + q.y * q.y) * h

theorem gradient_turned (q : Quat K) (f : Vec3 K) :
    gradient (q.turned c s) f = (gradient q f).turned c s := by
  simp only [gradient, Quat.turned, Quat.mk.injEq]
  refine ⟨?_, ?_, ?_, ?_⟩ <;> ring

theorem rate_turned (q : Quat K) (g : Vec3 K) : rate (q.turned c s) g = (rate q g).turned c s := by
  simp only [rate, Quat.turned, Quat.mk.injEq]
  refine ⟨?_, ?_, ?_, ?_⟩ <;> ring

theorem advance_turned (q qd : Quat K) (dt : K) :
    advance (q.turned c s) (qd.turned c s) dt = (advance q qd dt).turned c s := by
  simp only [advance, Quat.turned, Quat.mk.injEq]
  refine ⟨?_, ?_, ?_, ?_⟩ <;> ring

variable [CMath K]

theorem quatNorm_turned (h : c * c + s * s = 1) (q : Quat K) :
    quatNorm (q.turned c s) = quatNorm q := by
  simp only [quatNorm, norm4, Quat.turned]
  congr 1
  linear_combination (q.w * q.w + q.x * q.x + q.y * q.y + q.z * q.z) * h

variable [LinearOrder K]

omit [CMath K] in
theorem quatOver_turned (q : Quat K) (n : K) :
    quatOver (q.turned c s) n = (quatOver q n).map (Quat.turned c s) := by
  by_cases hn : n = 0
  · simp [quatOver, hn]
  · simp only [quatOver, checkedDiv_of_ne _ hn, Option.bind_eq_bind, Option.bind_some,
      Option.pure_def, Option.map_some, Quat.turned, Option.some_inj, Quat.mk.injEq]
    refine ⟨?_, ?_, ?_, ?_⟩ <;> ring

/-! ## A turned run -/

/-- The feedback is turned with the orientation and the rate. -/
theorem feedback_turned (h : c * c + s * s = 1) (beta : K) (q : Quat K) (a : Vec3 K) (qd : Quat K) :
    feedback beta (q.turned c s) a (qd.turned c s) =
      (feedback beta q a qd).map (Quat.turned c s) := by
  rw [feedback, feedback]
  split_ifs with ha
  · rw [quatNorm_turned h, quatOver_turned]
    cases vec3Over a (vec3Norm a) with
    | none => rfl
    | some d =>
      cases hn : quatOver q (quatNorm q) with
      | none => rfl
      | some n =>
        simp only [Option.bind_eq_bind, Option.bind_some, Option.map_some, objective_turned h,
          gradient_turned, quatNorm_turned h, quatOver_turned]
        split_ifs with hf
        · cases quatOver (gradient n (objective n d)) (quatNorm (gradient n (objective n d))) with
          | none => rfl
          | some g =>
            simp only [Option.bind_some, Option.map_some, Option.pure_def, Quat.turned,
              Option.some_inj, Quat.mk.injEq]
            refine ⟨?_, ?_, ?_, ?_⟩ <;> ring
        · rfl
  · rfl

/-- A step from a turned state is the step, turned. -/
theorem madgwickUpdateImu_turned (h : c * c + s * s = 1) (st : MadgwickState K) (g a : Vec3 K) :
    madgwickUpdateImu (st.turned c s) g a =
      (madgwickUpdateImu st g a).map (MadgwickState.turned c s) := by
  rw [madgwickUpdateImu, madgwickUpdateImu]
  have hfreq : (st.turned c s).sampleFreq = st.sampleFreq := rfl
  rw [hfreq]
  cases checkedDiv 1 st.sampleFreq with
  | none => rfl
  | some dt =>
    simp only [Option.bind_eq_bind, Option.bind_some]
    split_ifs with hg
    · rfl
    · have hcur : (st.turned c s).cur = st.cur.turned c s := rfl
      have hbeta : (st.turned c s).beta = st.beta := rfl
      rw [hcur, hbeta, rate_turned, feedback_turned h]
      cases feedback st.beta st.cur a (rate st.cur g) with
      | none => rfl
      | some qd =>
        simp only [Option.map_some, Option.bind_some, advance_turned, quatNorm_turned h,
          quatOver_turned]
        cases quatOver (advance st.cur qd dt) (quatNorm (advance st.cur qd dt)) with
        | none => rfl
        | some q => rfl

/-- The run from a turned state is the run, turned: no step sees the heading. -/
theorem filterFrom_turned (h : c * c + s * s = 1) (st : MadgwickState K)
    (frames : List (ImuFrame K)) : filterFrom (st.turned c s) frames =
      (filterFrom st frames).map (List.map (MadgwickState.turned c s)) := by
  induction frames generalizing st with
  | nil => rfl
  | cons frame frames ih =>
    rw [filterFrom, filterFrom, madgwickUpdateImu_turned h]
    cases madgwickUpdateImu st frame.gyro frame.accel with
    | none => rfl
    | some st' =>
      simp only [Option.bind_eq_bind, Option.bind_some, Option.map_some, ih]
      cases filterFrom st' frames with
      | none => rfl
      | some sts => rfl

/-- A turn by the angle whose half has the cosine 3/5. -/
theorem filterFrom_turned_tilted : filterFrom
    ((madgwickInit (1 / 10) 50 (⟨1, 0, 0, 0⟩ : Quat ℝ)).turned (3 / 5) (4 / 5))
      [⟨⟨1, 2, 3⟩, ⟨3, 0, 4⟩⟩] =
    (filterFrom (madgwickInit (1 / 10) 50 ⟨1, 0, 0, 0⟩) [⟨⟨1, 2, 3⟩, ⟨3, 0, 4⟩⟩]).map
      (List.map (MadgwickState.turned (3 / 5) (4 / 5))) :=
  filterFrom_turned (by norm_num) _ _

end

/-! ## The tilt -/

/-- A vector with each component multiplied. -/
def scaled (k : ℝ) (a : Vec3 ℝ) : Vec3 ℝ := ⟨k * a.x, k * a.y, k * a.z⟩

/-- The tilt of an orientation is the one measured: the acceleration is turned to the vertical. -/
def Level (q : Quat ℝ) (a : Vec3 ℝ) : Prop := mulVec3 (quatToMat3 q) a = ⟨0, 0, vec3Norm a⟩

/-- A frame of a device that turns around the measured vertical or not at all. -/
structure AboutVertical (a : Vec3 ℝ) (frame : ImuFrame ℝ) : Prop where
  accel : ∃ k, 0 < k ∧ frame.accel = scaled k a
  gyro : ∃ r, frame.gyro = scaled r a

section

variable {q : Quat ℝ} {a : Vec3 ℝ}

theorem isZero_scaled_iff {k : ℝ} (hk : k ≠ 0) : IsZero (scaled k a) ↔ IsZero a := by
  simp [IsZero, scaled, hk]

theorem direction_scaled {k : ℝ} (hk : 0 < k) (a : Vec3 ℝ) : direction (scaled k a) = direction a := by
  have hnorm : vec3Norm (scaled k a) = k * vec3Norm a := by
    -- both sides are not negative, so their squares decide
    have hsq : vec3Norm (scaled k a) * vec3Norm (scaled k a) =
        k * vec3Norm a * (k * vec3Norm a) := by
      have ha : vec3Norm a * vec3Norm a = _ := norm3_mul_self
      rw [vec3Norm, norm3_mul_self, scaled]
      linear_combination -(k * k) * ha
    exact (mul_self_inj (Real.sqrt_nonneg _) (mul_nonneg hk.le (Real.sqrt_nonneg _))).mp hsq
  rw [direction, direction, hnorm, Vec3.mk.injEq]
  refine ⟨?_, ?_, ?_⟩ <;> exact mul_div_mul_left _ _ hk.ne'

/-- Where the objective is zero, the acceleration is gravity in the frame of the device. -/
theorem eq_gravity_of_objective (ha : ¬ IsZero a) (hz : IsZero (objective q (direction a))) :
    a = scaled (vec3Norm a) (gravity q) := by
  obtain ⟨hx, hy, hz⟩ := hz
  have hne := (vec3Norm_pos_iff.mpr ha).ne'
  simp only [objective, direction, sub_eq_zero] at hx hy hz
  cases a
  rw [scaled, gravity, objective, Vec3.mk.injEq]
  simp only [sub_zero]
  refine ⟨?_, ?_, ?_⟩
  · rw [hx, mul_div_cancel₀ _ hne]
  · rw [hy, mul_div_cancel₀ _ hne]
  · rw [hz, mul_div_cancel₀ _ hne]

/-- A zero objective is a level orientation. -/
theorem level_of_objective (hq : quatNorm q = 1) (ha : ¬ IsZero a)
    (hz : IsZero (objective q (direction a))) : Level q a := by
  have hsum := sum_of_unit hq
  -- with gravity in the place of the acceleration, each entry is a multiple of the unit sum
  have hgrav := eq_gravity_of_objective ha hz
  rw [Level]
  generalize vec3Norm a = n at hgrav ⊢
  subst hgrav
  simp only [mulVec3, quatToMat3, Vec3.map, scaled, gravity, objective, Vec3.mk.injEq]
  refine ⟨?_, ?_, ?_⟩
  · linear_combination -4 * n * (q.x * q.z) * hsum
  · linear_combination -4 * n * (q.y * q.z) * hsum
  · linear_combination 4 * n * (q.x * q.x + q.y * q.y) * hsum

/-- A point of the plane by its angle. -/
theorem length_mul_cos_sin (x y : ℝ) :
    Real.sqrt (y * y + x * x) * Real.cos (Complex.arg ⟨x, y⟩) = x ∧
      Real.sqrt (y * y + x * x) * Real.sin (Complex.arg ⟨x, y⟩) = y := by
  have hnorm : Real.sqrt (y * y + x * x) = ‖(⟨x, y⟩ : ℂ)‖ := by
    rw [Complex.norm_eq_sqrt_sq_add_sq, add_comm, sq, sq]
  rw [hnorm]
  exact ⟨Complex.norm_mul_cos_arg _, Complex.norm_mul_sin_arg _⟩

/-- The seed of a direction, by its roll and its pitch. -/
theorem objective_of_halves {d : Vec3 ℝ} {r p t : ℝ} (hrc : t * Real.cos r = d.z)
    (hrs : t * Real.sin r = d.y) (hpc : Real.cos p = t) (hps : Real.sin p = -d.x) :
    IsZero (objective ⟨Real.cos (r / 2) * Real.cos (p / 2), Real.sin (r / 2) * Real.cos (p / 2),
      Real.cos (r / 2) * Real.sin (p / 2), -Real.sin (r / 2) * Real.sin (p / 2)⟩ d) := by
  have hr := Real.sin_sq_add_cos_sq (r / 2)
  have hp := Real.sin_sq_add_cos_sq (p / 2)
  have hr2 : Real.sin r = 2 * Real.sin (r / 2) * Real.cos (r / 2) := by
    rw [← Real.sin_two_mul, mul_div_cancel₀ _ two_ne_zero]
  have hp2 : Real.sin p = 2 * Real.sin (p / 2) * Real.cos (p / 2) := by
    rw [← Real.sin_two_mul, mul_div_cancel₀ _ two_ne_zero]
  have hrc2 : Real.cos r = 2 * Real.cos (r / 2) ^ 2 - 1 := by
    rw [← Real.cos_two_mul, mul_div_cancel₀ _ two_ne_zero]
  have hpc2 : Real.cos p = 2 * Real.cos (p / 2) ^ 2 - 1 := by
    rw [← Real.cos_two_mul, mul_div_cancel₀ _ two_ne_zero]
  rw [hr2] at hrs
  rw [hrc2] at hrc
  rw [hpc2] at hpc
  rw [hp2] at hps
  -- from here on only the four squares and products matter
  generalize Real.sin (r / 2) = sr at *
  generalize Real.cos (r / 2) = cr at *
  generalize Real.sin (p / 2) = sp at *
  generalize Real.cos (p / 2) = cp at *
  refine ⟨?_, ?_, ?_⟩ <;> simp only [objective]
  · linear_combination -2 * cp * sp * hr - hps
  · linear_combination hrs + 2 * cr * sr * hpc - 2 * cr * sr * hp
  · linear_combination hrc + (2 * cr ^ 2 - 1) * hpc - 2 * cp ^ 2 * hr - 2 * cr ^ 2 * hp

/-- The seed of an acceleration has its tilt. -/
theorem objective_accelToQuat (ha : ¬ IsZero a) {q0 : Quat ℝ} (h : accelToQuat a = some q0) :
    IsZero (objective q0 (direction a)) := by
  have hunit : vec3Norm (direction a) = 1 := vec3Norm_direction ha
  rw [accelToQuat, vec3Over_of_ne a (vec3Norm_pos_iff.mpr ha).ne'] at h
  rw [← Option.some_inj.mp h]
  have hsq : vec3Norm (direction a) * vec3Norm (direction a) = _ := norm3_mul_self
  rw [hunit] at hsq
  obtain ⟨hrc, hrs⟩ := length_mul_cos_sin (direction a).z (direction a).y
  -- the pitch is that of a vector of the length one
  have hone : Real.sqrt (-(direction a).x * -(direction a).x +
      Real.sqrt ((direction a).y * (direction a).y + (direction a).z * (direction a).z) *
      Real.sqrt ((direction a).y * (direction a).y + (direction a).z * (direction a).z)) = 1 := by
    rw [Real.mul_self_sqrt (add_nonneg (mul_self_nonneg _) (mul_self_nonneg _)), Real.sqrt_eq_one]
    linarith
  obtain ⟨hpc, hps⟩ := length_mul_cos_sin
    (Real.sqrt ((direction a).y * (direction a).y + (direction a).z * (direction a).z))
    (-(direction a).x)
  rw [hone, one_mul] at hpc hps
  exact objective_of_halves hrc hrs hpc hps

/-- The rate around the vertical, which is the one of a turn of the orientation. -/
theorem rate_of_level (hq : quatNorm q = 1) (ha : ¬ IsZero a)
    (hz : IsZero (objective q (direction a))) (r : ℝ) :
    rate q (scaled r a) = ⟨-(r * vec3Norm a / 2 * q.z), -(r * vec3Norm a / 2 * q.y),
      r * vec3Norm a / 2 * q.x, r * vec3Norm a / 2 * q.w⟩ := by
  have hsum := sum_of_unit hq
  have hgrav := eq_gravity_of_objective ha hz
  generalize vec3Norm a = n at hgrav ⊢
  subst hgrav
  simp only [rate, scaled, gravity, objective, Quat.mk.injEq]
  refine ⟨?_, ?_, ?_, ?_⟩
  · ring
  · linear_combination -(r * n * q.y) * hsum
  · linear_combination r * n * q.x * hsum
  · ring

/-- A step around the vertical turns the orientation around it, with any gain. -/
theorem exists_update_of_level {st : MadgwickState ℝ} {frame : ImuFrame ℝ} (hu : IsUnit st)
    (hf : 0 < st.sampleFreq) (ha : ¬ IsZero a) (hz : IsZero (objective st.cur (direction a)))
    (hframe : AboutVertical a frame) : ∃ c s, c * c + s * s = 1 ∧
      madgwickUpdateImu st frame.gyro frame.accel = some (st.turned c s) := by
  obtain ⟨⟨k, hk, haccel⟩, r, hgyro⟩ := hframe
  have hq : st.q = st.cur := hu.q
  by_cases hg : IsZero frame.gyro
  -- at rest the turn is by nothing
  · refine ⟨1, 0, by norm_num, ?_⟩
    rw [madgwickUpdateImu_of_isZero hf hg, MadgwickState.turned, hq]
    simp [Quat.turned]
  · have hne : ¬ IsZero frame.accel := by rwa [haccel, isZero_scaled_iff hk.ne']
    have hfeed : feedback st.beta st.cur frame.accel (rate st.cur frame.gyro) =
        some (rate st.cur frame.gyro) :=
      feedback_of_objective _ hu.cur _ hne (by rwa [haccel, direction_scaled hk])
    -- the sine and the cosine of the turn, before they are divided by the length
    set m := r * vec3Norm a / 2 * (1 / st.sampleFreq) with hm
    have hadv : advance st.cur (rate st.cur frame.gyro) (1 / st.sampleFreq) = st.cur.turned 1 m := by
      rw [hgyro, rate_of_level hu.cur ha hz, advance, Quat.turned, hm, Quat.mk.injEq]
      refine ⟨?_, ?_, ?_, ?_⟩ <;> ring
    set n := quatNorm (st.cur.turned 1 m) with hn
    have hsq : n * n = 1 + m * m := by
      have hsum := sum_of_unit hu.cur
      rw [hn, quatNorm, norm4_mul_self, Quat.turned]
      linear_combination (1 + m * m) * hsum
    have hne0 : n ≠ 0 := fun h0 => by nlinarith [mul_self_nonneg m]
    refine ⟨1 / n, m / n, ?_, ?_⟩
    · field_simp
      linarith
    · refine (madgwickUpdateImu_eq_some hf hg _).mpr ⟨_, hfeed, st.cur.turned (1 / n) (m / n), ?_, ?_⟩
      · rw [hadv, quatOver_of_ne _ hne0, Option.some_inj, Quat.turned, Quat.turned, Quat.mk.injEq]
        refine ⟨?_, ?_, ?_, ?_⟩ <;> ring
      · rw [MadgwickState.turned, hq]

/-! ## A run around the vertical -/

theorem filterFrom_of_level {st : MadgwickState ℝ} {frames : List (ImuFrame ℝ)} (hu : IsUnit st)
    (hf : 0 < st.sampleFreq) (ha : ¬ IsZero a) (hz : IsZero (objective st.cur (direction a)))
    (hframes : ∀ frame ∈ frames, AboutVertical a frame) :
    ∃ sts, filterFrom st frames = some sts ∧ ∀ st' ∈ sts, Level st'.q a := by
  induction frames generalizing st with
  | nil => exact ⟨[], rfl, by simp⟩
  | cons frame frames ih =>
    obtain ⟨c, s, hcs, hstep⟩ :=
      exists_update_of_level hu hf ha hz (hframes frame List.mem_cons_self)
    obtain ⟨hu', -, -⟩ := isUnit_of_update hu hf hstep
    -- the next state is as level, since the objective does not see the turn
    have hz' : IsZero (objective (st.turned c s).cur (direction a)) := by
      rwa [MadgwickState.turned, objective_turned hcs]
    obtain ⟨sts, hrest, hlevel⟩ := ih hu' hf hz'
      fun frame' hmem => hframes frame' (List.mem_cons_of_mem _ hmem)
    refine ⟨st.turned c s :: sts, ?_, ?_⟩
    · rw [filterFrom, hstep, Option.bind_eq_bind, Option.bind_some, hrest]
      rfl
    · intro st' hmem
      rcases List.mem_cons.mp hmem with rfl | hmem
      · rw [hu'.q]
        exact level_of_objective hu'.cur ha hz'
      · exact hlevel st' hmem

end

end Orientation
