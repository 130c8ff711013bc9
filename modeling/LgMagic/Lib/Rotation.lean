import Mathlib.Analysis.SpecialFunctions.Complex.Arg
import Mathlib.Analysis.SpecialFunctions.Trigonometric.Arctan
import Mathlib.LinearAlgebra.UnitaryGroup
import Mathlib.Tactic.LinearCombination

/-!
# Rotations and their angles

A rotation of the space as a turn around the first axis, then the second, then the third. The angles
are read off the first column and the last row, which are enough: a rotation is its own matrix of
cofactors.

* `aroundX`, `aroundY`, `aroundZ`, `ofAngles`: the turns, and the rotation by three angles;
* `apply_eq_cofactor`: the entries that are not read;
* `ofEntries_eq_iff`: the rotation by the angles that were read.
-/

namespace Rotation

open Matrix Real

/-- A turn around the first axis. -/
noncomputable def aroundX (t : ℝ) : Matrix (Fin 3) (Fin 3) ℝ :=
  !![1, 0, 0; 0, cos t, -sin t; 0, sin t, cos t]

/-- A turn around the second axis. -/
noncomputable def aroundY (t : ℝ) : Matrix (Fin 3) (Fin 3) ℝ :=
  !![cos t, 0, sin t; 0, 1, 0; -sin t, 0, cos t]

/-- A turn around the third axis. -/
noncomputable def aroundZ (t : ℝ) : Matrix (Fin 3) (Fin 3) ℝ :=
  !![cos t, -sin t, 0; sin t, cos t, 0; 0, 0, 1]

/-- The rotation by a roll, then a pitch, then a yaw. -/
noncomputable def ofAngles (roll pitch yaw : ℝ) : Matrix (Fin 3) (Fin 3) ℝ :=
  aroundZ yaw * aroundY pitch * aroundX roll

theorem ofAngles_eq_of (r p y : ℝ) : ofAngles r p y =
    !![cos y * cos p, cos y * sin p * sin r - sin y * cos r, cos y * sin p * cos r + sin y * sin r;
      sin y * cos p, sin y * sin p * sin r + cos y * cos r, sin y * sin p * cos r - cos y * sin r;
      -sin p, cos p * sin r, cos p * cos r] := by
  rw [ofAngles, aroundX, aroundY, aroundZ]
  ext i j
  fin_cases i <;> fin_cases j <;> simp [Matrix.mul_apply, Fin.sum_univ_three] <;> ring

section

variable {M : Matrix (Fin 3) (Fin 3) ℝ}

/-- The transpose of a rotation takes it back. -/
theorem transpose_mul_self (hM : M ∈ specialOrthogonalGroup (Fin 3) ℝ) : Mᵀ * M = 1 :=
  (mem_orthogonalGroup_iff' (Fin 3) ℝ).mp (mem_specialOrthogonalGroup_iff.mp hM).1

theorem transpose_mem (hM : M ∈ specialOrthogonalGroup (Fin 3) ℝ) :
    Mᵀ ∈ specialOrthogonalGroup (Fin 3) ℝ := by
  refine mem_specialOrthogonalGroup_iff.mpr ⟨(mem_orthogonalGroup_iff (Fin 3) ℝ).mpr ?_, ?_⟩
  · exact transpose_mul_self hM
  · rw [det_transpose, (mem_specialOrthogonalGroup_iff.mp hM).2]

/-- What takes a rotation back is its transpose. -/
theorem mul_eq_one_iff (hM : M ∈ specialOrthogonalGroup (Fin 3) ℝ) (A : Matrix (Fin 3) (Fin 3) ℝ) :
    A * M = 1 ↔ A = Mᵀ := by
  constructor
  · intro h
    have hright : M * Mᵀ = 1 := mul_eq_one_comm.mp (transpose_mul_self hM)
    rw [← mul_one A, ← hright, ← mul_assoc, h, one_mul]
  · rintro rfl
    exact transpose_mul_self hM

/-- A rotation is its own matrix of cofactors. -/
theorem eq_adjugate_transpose (hM : M ∈ specialOrthogonalGroup (Fin 3) ℝ) : M = M.adjugateᵀ := by
  have hdet := (mem_specialOrthogonalGroup_iff.mp hM).2
  have hadj : Mᵀ = M.adjugate := by
    calc Mᵀ = Mᵀ * (M * M.adjugate) := by rw [mul_adjugate, hdet, one_smul, mul_one]
      _ = M.adjugate := by rw [← mul_assoc, transpose_mul_self hM, one_mul]
  rw [← hadj, transpose_transpose]

/-- The entries of the last two columns above the last row. -/
theorem apply_eq_cofactor (hM : M ∈ specialOrthogonalGroup (Fin 3) ℝ) :
    M 0 1 = M 1 2 * M 2 0 - M 1 0 * M 2 2 ∧ M 0 2 = M 1 0 * M 2 1 - M 1 1 * M 2 0 ∧
      M 1 1 = M 0 0 * M 2 2 - M 0 2 * M 2 0 ∧ M 1 2 = M 0 1 * M 2 0 - M 0 0 * M 2 1 := by
  have h := eq_adjugate_transpose hM
  rw [adjugate_fin_three] at h
  have h01 := congrFun (congrFun h 0) 1
  have h02 := congrFun (congrFun h 0) 2
  have h11 := congrFun (congrFun h 1) 1
  have h12 := congrFun (congrFun h 1) 2
  simp at h01 h02 h11 h12
  exact ⟨by linarith, by linarith, by linarith, by linarith⟩

theorem column_sq (hM : M ∈ specialOrthogonalGroup (Fin 3) ℝ) (j : Fin 3) :
    M 0 j ^ 2 + M 1 j ^ 2 + M 2 j ^ 2 = 1 := by
  have horth := (mem_specialOrthogonalGroup_iff.mp hM).1
  have h := congrFun (congrFun ((mem_orthogonalGroup_iff' (Fin 3) ℝ).mp horth) j) j
  simpa [mul_apply, Fin.sum_univ_three, ← sq] using h

theorem row_sq (hM : M ∈ specialOrthogonalGroup (Fin 3) ℝ) (i : Fin 3) :
    M i 0 ^ 2 + M i 1 ^ 2 + M i 2 ^ 2 = 1 := by
  have horth := (mem_specialOrthogonalGroup_iff.mp hM).1
  have h := congrFun (congrFun ((mem_orthogonalGroup_iff (Fin 3) ℝ).mp horth) i) i
  simpa [mul_apply, Fin.sum_univ_three, ← sq] using h

/-- The first column and the last row share an entry, so the rests have one length. -/
theorem sq_first_last (hM : M ∈ specialOrthogonalGroup (Fin 3) ℝ) :
    M 0 0 ^ 2 + M 1 0 ^ 2 = 1 - M 2 0 ^ 2 ∧ M 2 2 ^ 2 + M 2 1 ^ 2 = 1 - M 2 0 ^ 2 := by
  have hcol := column_sq hM 0
  have hrow := row_sq hM 2
  exact ⟨by linarith, by linarith⟩

theorem sq_apply_le_one (hM : M ∈ specialOrthogonalGroup (Fin 3) ℝ) : M 2 0 ^ 2 ≤ 1 := by
  have h := (sq_first_last hM).1
  have h0 := sq_nonneg (M 0 0)
  have h1 := sq_nonneg (M 1 0)
  linarith

/-- The angle of a vector of the plane, as its two components over the length. -/
theorem mul_cos_sin_arg {x y t : ℝ} (h : x ^ 2 + y ^ 2 = 1 - t ^ 2) :
    cos (arcsin t) * cos (Complex.arg ⟨x, y⟩) = x ∧
      cos (arcsin t) * sin (Complex.arg ⟨x, y⟩) = y := by
  have hnorm : cos (arcsin t) = ‖(⟨x, y⟩ : ℂ)‖ := by
    rw [cos_arcsin, Complex.norm_eq_sqrt_sq_add_sq, h]
  rw [hnorm]
  exact ⟨Complex.norm_mul_cos_arg _, Complex.norm_mul_sin_arg _⟩

/-- The rotation by the three angles that are read off the first column and the last row. -/
noncomputable def ofEntries (m00 m10 m20 m21 m22 : ℝ) : Matrix (Fin 3) (Fin 3) ℝ :=
  ofAngles (Complex.arg ⟨m22, m21⟩) (-arcsin m20) (Complex.arg ⟨m00, m10⟩)

/-- Where the first axis is not vertical, the cofactors give the entries that are not read. -/
theorem ofEntries_of_lt (hM : M ∈ specialOrthogonalGroup (Fin 3) ℝ) (hlt : M 2 0 ^ 2 < 1) :
    ofEntries (M 0 0) (M 1 0) (M 2 0) (M 2 1) (M 2 2) = M := by
  obtain ⟨h01, h02, h11, h12⟩ := apply_eq_cofactor hM
  obtain ⟨hcol, hrow⟩ := sq_first_last hM
  obtain ⟨hcy, hsy⟩ := mul_cos_sin_arg hcol
  obtain ⟨hcr, hsr⟩ := mul_cos_sin_arg hrow
  have habs := abs_le.mp ((sq_le_one_iff_abs_le_one _).mp hlt.le)
  have hsin : sin (arcsin (M 2 0)) = M 2 0 := sin_arcsin habs.1 habs.2
  have hsq : cos (arcsin (M 2 0)) ^ 2 = 1 - M 2 0 ^ 2 := by
    rw [cos_arcsin, sq_sqrt (by linarith)]
  have hne : cos (arcsin (M 2 0)) ^ 2 ≠ 0 := by
    rw [hsq]
    linarith
  rw [ofEntries, ofAngles_eq_of, cos_neg, sin_neg, hsin]
  set c := cos (arcsin (M 2 0))
  set cy := cos (Complex.arg ⟨M 0 0, M 1 0⟩)
  set sy := sin (Complex.arg ⟨M 0 0, M 1 0⟩)
  set cr := cos (Complex.arg ⟨M 2 2, M 2 1⟩)
  set sr := sin (Complex.arg ⟨M 2 2, M 2 1⟩)
  -- the entries that are not read, each over the square of the length
  have e01 : cy * -M 2 0 * sr - sy * cr = M 0 1 := by
    apply mul_left_cancel₀ hne
    linear_combination (-M 2 0 * (c * sr)) * hcy - M 2 0 * M 0 0 * hsr - c * cr * hsy -
      M 1 0 * hcr - M 0 1 * hsq - h01 - M 2 0 * h12
  have e02 : cy * -M 2 0 * cr + sy * sr = M 0 2 := by
    apply mul_left_cancel₀ hne
    linear_combination (-M 2 0 * (c * cr)) * hcy - M 2 0 * M 0 0 * hcr + c * sr * hsy +
      M 1 0 * hsr - M 0 2 * hsq - h02 + M 2 0 * h11
  have e11 : sy * -M 2 0 * sr + cy * cr = M 1 1 := by
    apply mul_left_cancel₀ hne
    linear_combination (-M 2 0 * (c * sr)) * hsy - M 2 0 * M 1 0 * hsr + c * cr * hcy +
      M 0 0 * hcr - M 1 1 * hsq - h11 + M 2 0 * h02
  have e12 : sy * -M 2 0 * cr - cy * sr = M 1 2 := by
    apply mul_left_cancel₀ hne
    linear_combination (-M 2 0 * (c * cr)) * hsy - M 2 0 * M 1 0 * hcr - c * sr * hcy -
      M 0 0 * hsr - M 1 2 * hsq - h12 - M 2 0 * h01
  rw [e01, e02, e11, e12, neg_neg, hcr, hsr, mul_comm cy, hcy, mul_comm sy, hsy]
  exact (eta_fin_three M).symm

/-- Where the first axis is vertical, nothing but the pitch is read. -/
theorem ofEntries_eq_iff_of_vertical (hM : M ∈ specialOrthogonalGroup (Fin 3) ℝ)
    (hsq : M 2 0 ^ 2 = 1) : ofEntries (M 0 0) (M 1 0) (M 2 0) (M 2 1) (M 2 2) = M ↔ M 1 1 = 1 := by
  obtain ⟨hcol, hrow⟩ := sq_first_last hM
  obtain ⟨h01, h02, h11, h12⟩ := apply_eq_cofactor hM
  rw [hsq, sub_self, sq, sq, mul_self_add_mul_self_eq_zero] at hcol hrow
  obtain ⟨h00, h10⟩ := hcol
  obtain ⟨h22, h21⟩ := hrow
  rw [h10, h22, mul_zero, sub_zero] at h01
  rw [h10, zero_mul, zero_sub] at h02
  have habs := abs_le.mp ((sq_le_one_iff_abs_le_one _).mp hsq.le)
  have hsin : sin (arcsin (M 2 0)) = M 2 0 := sin_arcsin habs.1 habs.2
  have hcos : cos (arcsin (M 2 0)) = 0 := by rw [cos_arcsin, hsq, sub_self, sqrt_zero]
  -- the roll and the yaw are read off zeros
  have hzero : Complex.arg ⟨0, 0⟩ = 0 := Complex.arg_zero
  have hangles : ofEntries (M 0 0) (M 1 0) (M 2 0) (M 2 1) (M 2 2) = !![0, 0, -M 2 0; 0, 1, 0; M 2 0, 0, 0] := by
    rw [ofEntries, ofAngles_eq_of, h00, h10, h21, h22, hzero, cos_neg, sin_neg, hsin, hcos]
    simp
  rw [hangles]
  constructor
  · intro h
    exact (congrFun (congrFun h 1) 1).symm
  · intro h
    have hmid := row_sq hM 1
    rw [h10, h] at hmid
    have h12 : M 1 2 = 0 := pow_eq_zero_iff two_ne_zero |>.mp (by linarith)
    rw [h12, zero_mul] at h01
    rw [h, one_mul] at h02
    refine Eq.trans ?_ (eta_fin_three M).symm
    rw [h00, h01, h02, h10, h, h12, h21, h22]

/-- The angles that are read off a rotation are its angles, but for one whose first axis is vertical
and that turns by more than a pitch. -/
theorem ofEntries_eq_iff (hM : M ∈ specialOrthogonalGroup (Fin 3) ℝ) :
    ofEntries (M 0 0) (M 1 0) (M 2 0) (M 2 1) (M 2 2) = M ↔ (M 2 0 ^ 2 = 1 → M 1 1 = 1) := by
  by_cases hsq : M 2 0 ^ 2 = 1
  · rw [ofEntries_eq_iff_of_vertical hM hsq]
    exact ⟨fun h _ => h, fun h => h hsq⟩
  · exact iff_of_true (ofEntries_of_lt hM (lt_of_le_of_ne (sq_apply_le_one hM) hsq))
      fun h => absurd h hsq

end

end Rotation
