import LgMagic.Lm
import Mathlib

/-!
# The derivatives of the residuals

Each entry of `lm_jacobian` is the partial derivative of the residual of its sample, wherever the
length of the calibrated vector is not under the guard.

* `hasDerivAt_length`: the length of a vector that moves;
* `hasDerivAt_residOne`: the residual along any path of the parameters;
* `lmJacobian_hasDerivAt`: the residual along each parameter.
-/

namespace Lm

/-- The length of a vector changes by its product with its derivative over itself. -/
theorem hasDerivAt_length {ι : Type*} [Fintype ι] {v : ℝ → ι → ℝ} {w : ι → ℝ} {t : ℝ}
    (hv : ∀ k, HasDerivAt (fun s => v s k) (w k) t) (hne : √(∑ k, v t k * v t k) ≠ 0) :
    HasDerivAt (fun s => √(∑ k, v s k * v s k))
      ((∑ k, v t k * w k) / √(∑ k, v t k * v t k)) t := by
  have hsum : HasDerivAt (fun s => ∑ k, v s k * v s k) (2 * ∑ k, v t k * w k) t := by
    refine (HasDerivAt.fun_sum fun k _ => (hv k).mul (hv k)).congr_deriv ?_
    rw [Finset.mul_sum]
    exact Finset.sum_congr rfl fun k _ => by ring
  refine (hsum.sqrt fun h => hne (by rw [h, Real.sqrt_zero])).congr_deriv ?_
  exact mul_div_mul_left _ _ two_ne_zero

/-! ## The layout of the parameters -/

theorem biasIdx_inj {j j' : Fin 3} : biasIdx j = biasIdx j' ↔ j = j' := by
  simp [biasIdx, Fin.ext_iff]

theorem matIdx_inj {k j k' j' : Fin 3} : matIdx k j = matIdx k' j' ↔ k = k' ∧ j = j' := by
  simp only [matIdx, Fin.ext_iff]
  omega

theorem biasIdx_ne_matIdx {j k j' : Fin 3} : biasIdx j ≠ matIdx k j' := by
  simp only [biasIdx, matIdx, ne_eq, Fin.ext_iff]
  omega

/-- A parameter is an entry of the bias or one of the matrix. -/
theorem index_cases (p : Fin 12) : (∃ j, p = biasIdx j) ∨ ∃ k j, p = matIdx k j := by
  rcases lt_or_ge p.val 3 with h | h
  · exact .inl ⟨⟨p, h⟩, rfl⟩
  · refine .inr ⟨⟨(p - 3) / 3, by omega⟩, ⟨(p - 3) % 3, by omega⟩, Fin.ext ?_⟩
    simp only [matIdx]
    omega

/-! ## The residual -/

section

variable {a : Vector ℝ 3} {x : Params ℝ}

theorem calcV_fst (j : Fin 3) : (calcV a x).1.get j = a.get j - x.get (biasIdx j) := by
  simp [calcV]

theorem calcV_snd (k : Fin 3) :
    (calcV a x).2.get k = ∑ j, x.get (matIdx k j) * (a.get j - x.get (biasIdx j)) := by
  simp [calcV]

theorem calcNrm_eq : calcNrm a x = √(∑ k : Fin 3, (calcV a x).2.get k * (calcV a x).2.get k) := by
  rw [Fin.sum_univ_three]
  rfl

/-- Along a path of the parameters, by the chain rule. -/
theorem hasDerivAt_residOne {y : ℝ → Params ℝ} {e : Fin 12 → ℝ} {t : ℝ}
    (hy : ∀ q, HasDerivAt (fun s => (y s).get q) (e q) t) (hne : calcNrm a (y t) ≠ 0) :
    HasDerivAt (fun s => residOne a (y s))
      ((∑ k, (calcV a (y t)).2.get k * ∑ j, (e (matIdx k j) * (calcV a (y t)).1.get j -
        (y t).get (matIdx k j) * e (biasIdx j))) / calcNrm a (y t)) t := by
  have hv (k : Fin 3) : HasDerivAt (fun s => (calcV a (y s)).2.get k)
      (∑ j, (e (matIdx k j) * (calcV a (y t)).1.get j -
        (y t).get (matIdx k j) * e (biasIdx j))) t := by
    simp only [calcV_snd, calcV_fst]
    refine HasDerivAt.fun_sum fun j _ => ?_
    -- both factors move: the entry of the matrix and the difference to the bias
    refine ((hy (matIdx k j)).mul ((hy (biasIdx j)).const_sub (a.get j))).congr_deriv ?_
    ring
  simp only [residOne, calcNrm_eq] at hne ⊢
  exact (hasDerivAt_length hv hne).sub_const lmG

/-- The entries of a row are the derivatives of the residual along each parameter. -/
theorem jacobianRow_hasDerivAt (h : 1 / 10 ^ 9 ≤ calcNrm a x) (p : Fin 12) :
    HasDerivAt (fun t => residOne a (put x p t)) ((jacobianRow a x).get p) (x.get p) := by
  have hself : put x p (x.get p) = x := by simp
  have hne : calcNrm a x ≠ 0 := (lt_of_lt_of_le (by positivity) h).ne'
  -- the path that moves the one parameter
  have hy (q : Fin 12) :
      HasDerivAt (fun t => (put x p t).get q) (if q = p then 1 else 0) (x.get p) := by
    split_ifs with hq
    · subst hq
      simpa using hasDerivAt_id' (x.get q)
    · simpa [get_put_of_ne x (Ne.symm hq)] using hasDerivAt_const (x.get p) (x.get q)
  have hderiv := hasDerivAt_residOne (a := a) hy (by rwa [hself])
  rw [hself] at hderiv
  refine hderiv.congr_deriv ?_
  rw [jacobianRow]
  dsimp only
  rw [if_neg (not_lt.mpr h)]
  -- what is left of the sums is one column, or one entry
  rcases index_cases p with ⟨j, rfl⟩ | ⟨k, j, rfl⟩
  · simp [biasIdx_inj, biasIdx_ne_matIdx.symm]
  · simp [matIdx_inj, biasIdx_ne_matIdx, ite_and, mul_comm]

/-- Each sample has a row, which is the gradient of its residual if its calibrated vector is not
shorter than the guard. -/
theorem lmJacobian_hasDerivAt {samples : List (Vector ℝ 3)} {i : ℕ} (ha : samples[i]? = some a)
    (h : 1 / 10 ^ 9 ≤ calcNrm a x) :
    ∃ row, (lmJacobian samples x)[i]? = some row ∧
      ∀ p : Fin 12, HasDerivAt (fun t => residOne a (put x p t)) (row.get p) (x.get p) := by
  refine ⟨jacobianRow a x, ?_, jacobianRow_hasDerivAt h⟩
  rw [lmJacobian, List.getElem?_map, ha, Option.map_some]

end

/-- Two samples that are opposite to each other at the start of a fit. -/
def opposite : List (Vector ℝ 3) := [vec3 1 0 0, vec3 (-1) 0 0]

theorem opposite_gradient :
    ∃ row, (lmJacobian opposite (startParams opposite))[0]? = some row ∧
      ∀ p : Fin 12, HasDerivAt (fun t => residOne (vec3 1 0 0) (put (startParams opposite) p t))
        (row.get p) ((startParams opposite).get p) := by
  have hmean (j : Fin 3) : sampleMean opposite j = 0 := by
    fin_cases j <;> simp [sampleMean, opposite]
  have hnrm : calcNrm (vec3 1 0 0) (startParams opposite) = 1 := by
    rw [calcNrm_eq]
    simp [Fin.sum_univ_three, calcV, startParams, hmean]
  exact lmJacobian_hasDerivAt rfl (by rw [hnrm]; norm_num)

end Lm
