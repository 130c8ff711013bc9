import Mathlib.Algebra.BigOperators.Field
import Mathlib.Algebra.BigOperators.Ring.Finset
import Mathlib.Algebra.Order.BigOperators.Group.Finset
import Mathlib.Data.Fintype.BigOperators
import Mathlib.Logic.Equiv.Basic

/-!
# Systems of linear equations

The row operations of an elimination, none of which loses or adds a solution, and the solution of a
triangular system from its last unknown to the first.

* `Solves`: a vector solves a system;
* `solves_comp_iff`, `solves_sub_row_iff`: rows in another order, and a multiple of one row taken
  from the others;
* `solves_of_backSubst`: triangular systems.
-/

namespace LinearSystem

variable {ι κ K : Type*} [Fintype κ]

/-- A vector solves every equation of a system. -/
def Solves [NonUnitalNonAssocSemiring K] (A : ι → κ → K) (b : ι → K) (x : κ → K) : Prop :=
  ∀ i, ∑ j, A i j * x j = b i

/-- The equations in another order. -/
theorem solves_comp_iff [NonUnitalNonAssocSemiring K] {A : ι → κ → K} {b : ι → K} {x : κ → K}
    (e : Equiv.Perm ι) : Solves (A ∘ e) (b ∘ e) x ↔ Solves A b x :=
  e.forall_congr_left.trans (by simp [Solves])

/-- A multiple of one equation is taken from each of the others. -/
theorem solves_sub_row_iff [CommRing K] {A : ι → κ → K} {b : ι → K} {x : κ → K} {k : ι} {f : ι → K}
    (hk : f k = 0) :
    Solves (fun i j => A i j - f i * A k j) (fun i => b i - f i * b k) x ↔ Solves A b x := by
  have hsum (i : ι) : ∑ j, (A i j - f i * A k j) * x j =
      ∑ j, A i j * x j - f i * ∑ j, A k j * x j := by
    rw [Finset.mul_sum, ← Finset.sum_sub_distrib]
    exact Finset.sum_congr rfl fun j _ => by rw [sub_mul, mul_assoc]
  simp only [Solves, hsum]
  constructor
  · intro h i
    -- the equation `k` itself is as it was
    have hrow : ∑ j, A k j * x j = b k := by simpa [hk] using h k
    have hi := h i
    rw [hrow] at hi
    exact sub_left_injective hi
  · intro h i
    rw [h i, h k]

/-- Each unknown of a triangular system comes from the ones after it. -/
theorem solves_of_backSubst [Field K] {n : ℕ} {A : Fin n → Fin n → K} {b x : Fin n → K}
    (hzero : ∀ i j, j < i → A i j = 0) (hdiag : ∀ i, A i i ≠ 0)
    (hx : ∀ i, x i = (b i - ∑ j with i < j, A i j * x j) / A i i) : Solves A b x := by
  intro i
  have hsplit : ∑ j, A i j * x j = A i i * x i + ∑ j with i < j, A i j * x j := by
    rw [← Finset.sum_filter_add_sum_filter_not Finset.univ (fun j => i < j), add_comm]
    congr 1
    -- before the diagonal there is nothing
    refine Finset.sum_eq_single i (fun j hj hne => ?_) fun hi => ?_
    · have hlt : j < i := lt_of_le_of_ne (not_lt.mp (Finset.mem_filter.mp hj).2) hne
      rw [hzero i j hlt, zero_mul]
    · exact absurd (Finset.mem_filter.mpr ⟨Finset.mem_univ i, lt_irrefl i⟩) hi
  rw [hsplit, hx i, mul_div_cancel₀ _ (hdiag i), sub_add_cancel]

end LinearSystem
