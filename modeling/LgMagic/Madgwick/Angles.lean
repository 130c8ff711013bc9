import LgMagic.Lib.Rotation
import LgMagic.Madgwick.Defined

/-!
# The angles of the display

`cmd_imu` prints the Euler angles of an orientation, and `cube_render` turns its cube by the matrix
of the same orientation. The angles are those of the inverse of the matrix, so they turn the cube
back. Two things come in between: a quaternion whose components add up to one counts as the
identity, and where the first axis is vertical only the pitch is read.

* `rotationOf_mem`: the matrix of a unit quaternion is a rotation;
* `AnglesTurnBack`, `anglesTurnBack_iff`: the angles of an orientation;
* `anglesTurnBack_filterRun`: those of a run.
-/

namespace Orientation

open Pointer

/-! ## The matrix -/

/-- A matrix as one of the algebra of matrices. -/
def toMatrix (m : Vec3 (Vec3 ℝ)) : Matrix (Fin 3) (Fin 3) ℝ :=
  !![m.x.x, m.x.y, m.x.z; m.y.x, m.y.y, m.y.z; m.z.x, m.z.y, m.z.z]

/-- The rotation of an orientation. -/
noncomputable def rotationOf (q : Quat ℝ) : Matrix (Fin 3) (Fin 3) ℝ := toMatrix (quatToMat3 q)

/-- A vector as one of the algebra of matrices. -/
def toVec (v : Vec3 ℝ) : Fin 3 → ℝ := ![v.x, v.y, v.z]

/-- The rotation by a roll, then a pitch, then a yaw. -/
noncomputable def rotationBy (e : Angles ℝ) : Matrix (Fin 3) (Fin 3) ℝ :=
  Rotation.ofAngles e.roll e.pitch e.yaw

/-- The angles of an orientation turn back what its matrix turns. -/
def AnglesTurnBack (q : Quat ℝ) : Prop :=
  ∀ v, (rotationBy (quatToEuler q)).mulVec (toVec (mulVec3 (quatToMat3 q) v)) = toVec v

section

variable {q : Quat ℝ}

/-- The matrix of a unit quaternion is a rotation. -/
theorem rotationOf_mem (hq : quatNorm q = 1) :
    rotationOf q ∈ Matrix.specialOrthogonalGroup (Fin 3) ℝ := by
  have hsum := sum_of_unit hq
  rw [Matrix.mem_specialOrthogonalGroup_iff, Matrix.mem_orthogonalGroup_iff]
  constructor
  · ext i j
    fin_cases i <;> fin_cases j <;>
      simp [rotationOf, toMatrix, quatToMat3, Matrix.mul_apply, Fin.sum_univ_three]
    · linear_combination 4 * (q.y * q.y + q.z * q.z) * hsum
    · linear_combination -4 * (q.x * q.y) * hsum
    · linear_combination -4 * (q.x * q.z) * hsum
    · linear_combination -4 * (q.x * q.y) * hsum
    · linear_combination 4 * (q.x * q.x + q.z * q.z) * hsum
    · linear_combination -4 * (q.y * q.z) * hsum
    · linear_combination -4 * (q.x * q.z) * hsum
    · linear_combination -4 * (q.y * q.z) * hsum
    · linear_combination 4 * (q.x * q.x + q.y * q.y) * hsum
  · rw [rotationOf, toMatrix, quatToMat3, Matrix.det_fin_three]
    simp
    linear_combination 4 * (q.x * q.x + q.y * q.y + q.z * q.z) * hsum

/-- An arctangent of a sine over its cosine is the arcsine, at the ends too. -/
theorem atanOver_sqrt {t : ℝ} (h : t ^ 2 ≤ 1) :
    atanOver t (CMath.sqrt (if 1 - t * t < 0 then 0 else 1 - t * t)) = Real.arcsin t := by
  have hnn : 0 ≤ 1 - t * t := by linarith [sq t]
  rw [if_neg (not_lt.mpr hnn)]
  rcases eq_or_lt_of_le h with heq | hlt
  · have hzero : CMath.sqrt (1 - t * t) = (0 : ℝ) := by
      rw [← sq, heq, sub_self]
      exact Real.sqrt_zero
    rw [atanOver, if_pos hzero]
    rcases sq_eq_one_iff.mp heq with rfl | rfl
    · rw [if_neg (by norm_num), Real.arcsin_one]
      rfl
    · rw [if_pos (by norm_num), Real.arcsin_neg_one]
      rfl
  · have hne : CMath.sqrt (1 - t * t) ≠ (0 : ℝ) := by
      rw [← sq]
      exact (Real.sqrt_pos.mpr (by linarith)).ne'
    have habs := abs_lt.mp ((sq_lt_one_iff_abs_lt_one _).mp hlt)
    rw [atanOver, if_neg hne, Real.arcsin_eq_arctan habs, sq]
    rfl

/-- The identity shortcut, as the sum of the components. -/
theorem quatToEuler_of_sum (h : q.w + q.x + q.y + q.z = 1) : quatToEuler q = ⟨0, 0, 0⟩ :=
  if_pos (by linear_combination -h)

/-- Without the shortcut, the angles are those that are read off the inverse of the rotation. -/
theorem ofAngles_quatToEuler (hq : quatNorm q = 1) (h : q.w + q.x + q.y + q.z ≠ 1) :
    rotationBy (quatToEuler q) = Rotation.ofEntries ((rotationOf q).transpose 0 0)
      ((rotationOf q).transpose 1 0) ((rotationOf q).transpose 2 0) ((rotationOf q).transpose 2 1)
      ((rotationOf q).transpose 2 2) := by
  have hsum := sum_of_unit hq
  have hle : (2 * (q.x * q.z + q.w * q.y)) ^ 2 ≤ 1 :=
    Rotation.sq_apply_le_one (Rotation.transpose_mem (rotationOf_mem hq))
  have h00 : 2 * q.w * q.w - 1 + 2 * q.x * q.x = 1 - 2 * (q.y * q.y + q.z * q.z) := by
    linear_combination 2 * hsum
  have h22 : 2 * q.w * q.w - 1 + 2 * q.z * q.z = 1 - 2 * (q.x * q.x + q.y * q.y) := by
    linear_combination 2 * hsum
  rw [quatToEuler, if_neg fun h0 => h (by linear_combination -h0)]
  simp only [atanOver_sqrt hle, h00, h22]
  rfl

/-- A unit quaternion with components that add up to one turns nothing only when it is one. -/
theorem rotationOf_eq_one_iff (hq : quatNorm q = 1) (h : q.w + q.x + q.y + q.z = 1) :
    rotationOf q = 1 ↔ q = ⟨1, 0, 0, 0⟩ := by
  constructor
  · intro h1
    have hxx := congrFun (congrFun h1 0) 0
    have hyy := congrFun (congrFun h1 1) 1
    simp [rotationOf, toMatrix, quatToMat3, mul_self_add_mul_self_eq_zero] at hxx hyy
    obtain ⟨hy, hz⟩ := hxx
    have hw : q.w = 1 := by rw [hyy.1, hy, hz] at h; linarith
    cases q
    simp_all
  · rintro rfl
    simp [rotationOf, toMatrix, quatToMat3, Matrix.one_fin_three]

theorem toVec_mulVec3 (q : Quat ℝ) (v : Vec3 ℝ) :
    toVec (mulVec3 (quatToMat3 q) v) = (rotationOf q).mulVec (toVec v) := by
  ext i
  fin_cases i <;>
    simp [toVec, mulVec3, Vec3.map, rotationOf, toMatrix, Matrix.mulVec, dotProduct,
      Fin.sum_univ_three]

/-- Turning back, as an equation between matrices. -/
theorem anglesTurnBack_iff_eq (hq : quatNorm q = 1) :
    AnglesTurnBack q ↔ rotationBy (quatToEuler q) = (rotationOf q).transpose := by
  rw [← Rotation.mul_eq_one_iff (rotationOf_mem hq), AnglesTurnBack]
  simp only [toVec_mulVec3, Matrix.mulVec_mulVec]
  constructor
  · intro h
    refine Matrix.mulVec_injective (funext fun u => ?_)
    have hu : u = toVec ⟨u 0, u 1, u 2⟩ := by
      ext i
      fin_cases i <;> rfl
    rw [hu, h, Matrix.one_mulVec]
  · intro h v
    rw [h, Matrix.one_mulVec]

/-- The angles of an orientation turn its rotation back, but for a quaternion that is taken for the
identity, and for one that takes the first axis to the vertical and turns by more than a pitch. -/
theorem anglesTurnBack_iff (hq : quatNorm q = 1) : AnglesTurnBack q ↔
    (q.w + q.x + q.y + q.z = 1 → q = ⟨1, 0, 0, 0⟩) ∧
      ((2 * (q.x * q.z + q.w * q.y)) ^ 2 = 1 → q.x = 0 ∧ q.z = 0) := by
  have hmem := Rotation.transpose_mem (rotationOf_mem hq)
  rw [anglesTurnBack_iff_eq hq]
  by_cases h : q.w + q.x + q.y + q.z = 1
  · have hone : rotationBy ⟨0, 0, 0⟩ = 1 := by
      simp [rotationBy, Rotation.ofAngles_eq_of, Matrix.one_fin_three]
    rw [quatToEuler_of_sum h, hone, eq_comm, Matrix.transpose_eq_one, rotationOf_eq_one_iff hq h]
    constructor
    · rintro rfl
      simp
    · exact fun hread => hread.1 h
  · have hvert : (rotationOf q).transpose 1 1 = 1 ↔ q.x = 0 ∧ q.z = 0 := by
      have hentry : (rotationOf q).transpose 1 1 = 1 - 2 * (q.x * q.x + q.z * q.z) := rfl
      rw [hentry, ← mul_self_add_mul_self_eq_zero]
      constructor <;> intro h0 <;> linarith
    rw [ofAngles_quatToEuler hq h, Rotation.ofEntries_eq_iff hmem, hvert]
    exact ⟨fun hread => ⟨fun h1 => absurd h1 h, hread⟩, fun hread => hread.2⟩

end

/-! ## A run -/

section

variable {beta sampleFreq : ℝ} {frames : List (ImuFrame ℝ)} {sts : List (MadgwickState ℝ)}

theorem isUnit_of_filterFrom {st : MadgwickState ℝ} (hu : IsUnit st) (hf : 0 < st.sampleFreq)
    (h : filterFrom st frames = some sts) : ∀ st' ∈ sts, IsUnit st' := by
  induction frames generalizing st sts with
  | nil => simp_all [filterFrom]
  | cons frame frames ih =>
    simp only [filterFrom, Option.bind_eq_bind, Option.bind_eq_some_iff, Option.pure_def,
      Option.some_inj] at h
    obtain ⟨st', hstep, sts', hrest, rfl⟩ := h
    obtain ⟨hu', -, hfreq⟩ := isUnit_of_update hu hf hstep
    intro st'' hmem
    rcases List.mem_cons.mp hmem with rfl | hmem
    · exact hu'
    · exact ih hu' (hfreq ▸ hf) hrest st'' hmem

/-- Each state of a run that divides by no zero is a unit quaternion. -/
theorem isUnit_of_filterRun (hf : 0 < sampleFreq) (h : filterRun beta sampleFreq frames = some sts) :
    ∀ st ∈ sts, IsUnit st := by
  cases frames with
  | nil => simp_all [filterRun]
  | cons frame frames =>
    simp only [filterRun, Option.bind_eq_bind, Option.bind_eq_some_iff, Option.pure_def,
      Option.some_inj] at h
    obtain ⟨q0, hq0, sts', hrest, rfl⟩ := h
    have hu : IsUnit (madgwickInit beta sampleFreq q0) := by
      by_cases ha : IsZero frame.accel
      · simp [accelToQuat_of_isZero ha] at hq0
      · obtain ⟨q1, hq1, hunit⟩ := exists_accelToQuat ha
        obtain rfl : q0 = q1 := Option.some.inj (hq0.symm.trans hq1)
        exact ⟨hunit, rfl⟩
    intro st hmem
    rcases List.mem_cons.mp hmem with rfl | hmem
    · exact hu
    · exact isUnit_of_filterFrom hu hf hrest st hmem

/-- In every state of a run over any frames the cube is turned by a rotation, and the angles that are
shown with it turn it back exactly when the orientation is neither taken for the identity nor read
with the first axis vertical. -/
theorem anglesTurnBack_filterRun (hf : 0 < sampleFreq)
    (h : filterRun beta sampleFreq frames = some sts) : ∀ st ∈ sts,
      rotationOf st.q ∈ Matrix.specialOrthogonalGroup (Fin 3) ℝ ∧
        (AnglesTurnBack st.q ↔
          (st.q.w + st.q.x + st.q.y + st.q.z = 1 → st.q = ⟨1, 0, 0, 0⟩) ∧
            ((2 * (st.q.x * st.q.z + st.q.w * st.q.y)) ^ 2 = 1 → st.q.x = 0 ∧ st.q.z = 0)) := by
  intro st hst
  have hu := isUnit_of_filterRun hf h st hst
  have hq : quatNorm st.q = 1 := by rw [hu.q, hu.cur]
  exact ⟨rotationOf_mem hq, anglesTurnBack_iff hq⟩

/-- A device that starts upside down and stays there: it is taken for the identity. -/
theorem not_anglesTurnBack_upsideDown : ∃ sts,
    filterRun (1 / 10) 50 [⟨⟨0, 0, 0⟩, ⟨0, 0, -1⟩⟩] = some sts ∧
      ∀ st ∈ sts, ¬ AnglesTurnBack st.q := by
  have hseed : accelToQuat (⟨0, 0, -1⟩ : Vec3 ℝ) = some ⟨0, 1, 0, 0⟩ := by
    have hneg : (⟨-1, 0⟩ : ℂ) = -1 := by apply Complex.ext <;> simp
    have harg : Complex.arg ⟨-1, 0⟩ = Real.pi := by rw [hneg, Complex.arg_neg_one]
    have harg0 : Complex.arg ⟨1, 0⟩ = 0 := Complex.arg_one
    simp [accelToQuat, vec3Over, vec3Norm, norm3, checkedDiv, CMath.sqrt, CMath.atan2, CMath.cos,
      CMath.sin, harg, harg0]
  have hrun : filterRun (1 / 10) 50 [⟨⟨0, 0, 0⟩, ⟨0, 0, -1⟩⟩] =
      some [madgwickInit (1 / 10) 50 ⟨0, 1, 0, 0⟩, madgwickInit (1 / 10) (50 : ℝ) ⟨0, 1, 0, 0⟩] := by
    rw [filterRun, hseed]
    simp [filterFrom, madgwickUpdateImu, checkedDiv, madgwickInit]
  refine ⟨_, hrun, fun st hst hback => ?_⟩
  obtain ⟨hshortcut, -⟩ :=
    (anglesTurnBack_filterRun (by norm_num) hrun st hst).2.mp hback
  have hq : st.q = ⟨0, 1, 0, 0⟩ := by
    rcases List.mem_pair.mp hst with rfl | rfl <;> rfl
  rw [hq] at hshortcut
  simpa using hshortcut (by norm_num)

end

end Orientation
