import LgMagic.Lib.LinearSystem
import LgMagic.Lm

/-!
# The linear solver

What `gauss_solve` returns with success solves the system that it was given. Every column of the
elimination keeps the solutions of the working copy: the rows are exchanged, and a multiple of one
is taken from the others. After the last column the system is triangular without a zero on its
diagonal, and the unknowns are found from the last one on.

* `Eliminated`, `eliminated_step`: the working copy after some columns;
* `Substituted`, `substituted_step`: the unknowns from one on;
* `gaussSolve_solves`: the result.
-/

namespace Lm

open CountedLoop LinearSystem

variable {K : Type} {n : ℕ} {M M' : Table K n (n + 1)} {A : Table K n n} {b x : Vector K n}
  {i j k piv : Fin n}

/-- The coefficients of a working copy. -/
def coeff (M : Table K n (n + 1)) (i j : Fin n) : K := cell M i j.castSucc

/-- The right-hand side of a working copy. -/
def rhs (M : Table K n (n + 1)) (i : Fin n) : K := cell M i (Fin.last n)

/-- An index of a column is one before another, or not. -/
theorem exists_castSucc_of_lt {j : Fin (n + 1)} (h : ¬k.castSucc ≤ j) :
    ∃ j' : Fin n, j'.castSucc = j ∧ j' < k := by
  have hlt : j.val < k.val := not_le.mp h
  exact ⟨⟨j, by omega⟩, rfl, hlt⟩

/-! ## Passes over the working copy -/

theorem coeff_augmented : coeff (augmented A b) = cell A := by
  funext i j
  simp [coeff, augmented]

theorem rhs_augmented : rhs (augmented A b) = fun i => b.get i := by
  funext i
  simp [rhs, augmented]

theorem mem_after : i ∈ after k ↔ k < i := by simp [after]

section

variable [Field K]

/-- In rows that are zero before the column, exchanging the rest is exchanging the rows. -/
theorem cell_swapRows (hk : ∀ j < k, coeff M k j = 0) (hpiv : ∀ j < k, coeff M piv j = 0)
    (i : Fin n) (j : Fin (n + 1)) :
    cell (swapRows M k piv) i j = cell M (Equiv.swap k piv i) j := by
  rw [swapRows, cell_tabulate, Equiv.swap_apply_def]
  split_ifs with hj hik hip hik hip
  · rfl
  · rfl
  · rfl
  -- the source leaves what is before the column, which is zero in both rows
  · obtain ⟨j', rfl, hlt⟩ := exists_castSucc_of_lt hj
    subst hik
    exact (hk j' hlt).trans (hpiv j' hlt).symm
  · obtain ⟨j', rfl, hlt⟩ := exists_castSucc_of_lt hj
    subst hip
    exact (hpiv j' hlt).trans (hk j' hlt).symm
  · rfl

/-- The multiple of a row that is taken from another. -/
def factor (M : Table K n (n + 1)) (k i : Fin n) : K :=
  if k < i then coeff M i k / coeff M k k else 0

theorem factor_self : factor M k k = 0 := if_neg (lt_irrefl k)

/-- Where the row of the pivot is zero before the column, all of it is taken from the others. -/
theorem cell_eliminateBelow (hk : ∀ j < k, coeff M k j = 0) (hdiag : coeff M k k ≠ 0)
    (i : Fin n) (j : Fin (n + 1)) :
    cell (eliminateBelow M k) i j = cell M i j - factor M k i * cell M k j := by
  rw [eliminateBelow, cell_tabulate, factor]
  split_ifs with hi hj hlt
  · -- the source writes the zero that the subtraction would leave
    subst hj
    exact (sub_eq_zero.mpr (div_mul_cancel₀ _ hdiag).symm).symm
  · rfl
  · have hle : ¬k.castSucc ≤ j := fun h => hlt (lt_of_le_of_ne h (Ne.symm hj))
    obtain ⟨j', rfl, hlt'⟩ := exists_castSucc_of_lt hle
    have hzero : cell M k j'.castSucc = 0 := hk j' hlt'
    rw [hzero, mul_zero, sub_zero]
  · rw [zero_mul, sub_zero]

/-! ## Elimination -/

/-- The working copy after some columns: nothing is left of them below the diagonal, no pivot is
zero, and it is solved by what solves the system. -/
structure Eliminated (A : Table K n n) (b : Vector K n) (k : ℕ) (M : Table K n (n + 1)) : Prop where
  zero : ∀ i j : Fin n, j.val < k → j < i → coeff M i j = 0
  diag : ∀ i : Fin n, i.val < k → coeff M i i ≠ 0
  solves : ∀ x, Solves (coeff M) (rhs M) x ↔ Solves (cell A) (fun i => b.get i) x

theorem eliminated_zero (A : Table K n n) (b : Vector K n) : Eliminated A b 0 (augmented A b) where
  zero _ _ h := absurd h (Nat.not_lt_zero _)
  diag _ h := absurd h (Nat.not_lt_zero _)
  solves x := by rw [coeff_augmented, rhs_augmented]

/-- A row that is not above the diagonal is zero before the column. -/
theorem Eliminated.zero_of_le (h : Eliminated A b k M) (hi : k ≤ i) (j : Fin n) (hj : j < k) :
    coeff M i j = 0 :=
  h.zero i j hj (lt_of_lt_of_le hj hi)

/-- The rows may be exchanged from the diagonal on. -/
theorem Eliminated.swapRows (h : Eliminated A b k M) (hle : k ≤ piv) :
    Eliminated A b k (swapRows M k piv) := by
  have hcell := cell_swapRows (h.zero_of_le le_rfl) (h.zero_of_le hle)
  have hmem {i : Fin n} (hi : k ≤ i) : k ≤ Equiv.swap k piv i := by
    rw [Equiv.swap_apply_def]
    split_ifs
    exacts [hle, le_rfl, hi]
  refine ⟨fun i j hj hlt => ?_, fun i hi => ?_, fun x => ?_⟩
  · -- both rows are below the columns that are done
    rw [coeff, hcell]
    rcases le_or_gt k i with hi | hi
    · exact h.zero_of_le (hmem hi) j hj
    · rw [Equiv.swap_apply_of_ne_of_ne hi.ne (lt_of_lt_of_le hi hle).ne]
      exact h.zero i j hj hlt
  · have hi : i < k := hi
    rw [coeff, hcell, Equiv.swap_apply_of_ne_of_ne hi.ne (lt_of_lt_of_le hi hle).ne]
    exact h.diag i hi
  · have hcoeff : coeff (Lm.swapRows M k piv) = coeff M ∘ Equiv.swap k piv :=
      funext fun i => funext fun j => hcell i j.castSucc
    have hrhs : rhs (Lm.swapRows M k piv) = rhs M ∘ Equiv.swap k piv :=
      funext fun i => hcell i (Fin.last n)
    rw [← h.solves x, hcoeff, hrhs]
    exact solves_comp_iff (Equiv.swap k piv)

/-- With a pivot, the column is eliminated. -/
theorem Eliminated.eliminateBelow (h : Eliminated A b k M) (hdiag : coeff M k k ≠ 0) :
    Eliminated A b (k + 1) (eliminateBelow M k) := by
  have hcell := cell_eliminateBelow (h.zero_of_le le_rfl) hdiag
  have hcoeff (i j : Fin n) : coeff (Lm.eliminateBelow M k) i j =
      coeff M i j - factor M k i * coeff M k j := hcell i j.castSucc
  refine ⟨fun i j hj hlt => ?_, fun i hi => ?_, fun x => ?_⟩
  · -- a column that was done stays so, and the new one is eliminated
    rw [hcoeff]
    rcases lt_or_eq_of_le (Nat.lt_succ_iff.mp hj) with hj | hj
    · rw [h.zero i j hj hlt, h.zero_of_le le_rfl j hj, mul_zero, sub_zero]
    · obtain rfl : j = k := Fin.ext hj
      rw [factor, if_pos hlt, div_mul_cancel₀ _ hdiag, sub_self]
  · -- the rows down to the pivot are as they were
    have hle : i ≤ k := Fin.le_def.mpr (Nat.lt_succ_iff.mp hi)
    rw [hcoeff, factor, if_neg (not_lt.mpr hle), zero_mul, sub_zero]
    rcases lt_or_eq_of_le hle with hi | rfl
    · exact h.diag i hi
    · exact hdiag
  · have hrhs (i : Fin n) : rhs (Lm.eliminateBelow M k) i =
        rhs M i - factor M k i * rhs M k := hcell i (Fin.last n)
    rw [← h.solves x, funext fun i => funext (hcoeff i), funext hrhs]
    exact solves_sub_row_iff factor_self

/-! ## Back substitution -/

theorem foldl_after (g : Fin n → K) (i : Fin n) (s : K) :
    (after i).foldl (fun s j => s - g j) s = s - ∑ j with i < j, g j := by
  have hfold : ∀ (l : List (Fin n)) (s : K),
      l.foldl (fun s j => s - g j) s = s - (l.map g).sum := by
    intro l
    induction l with
    | nil => simp
    | cons j l ih =>
      intro s
      rw [List.foldl_cons, ih, List.map_cons, List.sum_cons, sub_sub]
  have hnodup : (after i).Nodup := (List.nodup_finRange n).filter _
  have hset : (after i).toFinset = Finset.univ.filter (i < ·) := by
    ext j
    simp [mem_after]
  rw [hfold, ← List.sum_toFinset g hnodup, hset]

/-- The unknowns from one on are what their equations say. -/
def Substituted (M : Table K n (n + 1)) (k : ℕ) (x : Vector K n) : Prop :=
  ∀ i : Fin n, k ≤ i.val → x.get i = (rhs M i - ∑ j with i < j, coeff M i j * x.get j) / coeff M i i

theorem substituted_step (h : Substituted M (k + 1) x) : Substituted M k (backStep M k x) := by
  -- the sum does not get to the unknown that is written
  have hsum {i : Fin n} (hi : k ≤ i) : ∑ j with i < j, coeff M i j * (backStep M k x).get j =
      ∑ j with i < j, coeff M i j * x.get j := by
    refine Finset.sum_congr rfl fun j hj => ?_
    have hlt : k < j := lt_of_le_of_lt hi (Finset.mem_filter.mp hj).2
    rw [backStep, get_put_of_ne _ hlt.ne]
  intro i hi
  rw [hsum hi]
  -- the unknowns after it are as they were, and the new one is what was written
  rcases lt_or_eq_of_le hi with hlt | heq
  · have hlt' : k < i := hlt
    rw [← h i hlt, backStep, get_put_of_ne _ hlt'.ne]
  · obtain rfl : k = i := Fin.ext heq
    rw [rhs, ← foldl_after, backStep, get_put_self]
    rfl

/-! ## The solver -/

variable [LinearOrder K]

/-- The pivot is not above the diagonal, and its size is the one found. -/
theorem findPivot_spec (M : Table K n (n + 1)) (k : Fin n) :
    k ≤ (findPivot M k).1 ∧ (findPivot M k).2 = |coeff M (findPivot M k).1 k| := by
  refine List.foldlRecOn (after k) _
    (motive := fun best : Fin n × K => k ≤ best.1 ∧ best.2 = |coeff M best.1 k|)
    ⟨le_rfl, rfl⟩ fun best hbest i hi => ?_
  split_ifs
  · exact ⟨(mem_after.mp hi).le, rfl⟩
  · exact hbest

variable [IsStrictOrderedRing K]

/-- A column that was not singular is eliminated. -/
theorem eliminated_step (h : Eliminated A b k M) (hstep : eliminateColumn M k = some M') :
    Eliminated A b (k + 1) M' := by
  obtain ⟨hle, hmax⟩ := findPivot_spec M k
  unfold eliminateColumn at hstep
  dsimp only at hstep
  rw [Option.ite_none_left_eq_some] at hstep
  obtain ⟨hsing, hstep⟩ := hstep
  obtain rfl := Option.some.inj hstep
  -- the entry found is not zero, and it comes to the diagonal
  have hpos : (0 : K) < |coeff M (findPivot M k).1 k| := by
    rw [← hmax]
    exact lt_of_lt_of_le (by positivity) (not_lt.mp hsing)
  have hne := abs_pos.mp hpos
  split_ifs with hpiv
  · refine (h.swapRows hle).eliminateBelow ?_
    rw [coeff, cell_swapRows (h.zero_of_le le_rfl) (h.zero_of_le hle), Equiv.swap_apply_left]
    exact hne
  · rw [not_not.mp hpiv] at hne
    exact h.eliminateBelow hne

/-- After a success the unknowns solve the system, and its arguments are as they were. -/
theorem gaussSolve_solves (s : System K n) :
    ((gaussSolve s).1 = 0 →
      ∀ i, ∑ j, cell s.A i j * (gaussSolve s).2.x.get j = s.b.get i) ∧
    (gaussSolve s).2.A = s.A ∧ (gaussSolve s).2.b = s.b := by
  rcases hM : (List.finRange n).foldlM eliminateColumn (augmented s.A s.b) with _ | M
  · simp [gaussSolve, hM]
  · -- over the columns from the first one, then over the unknowns from the last one
    have helim : Eliminated s.A s.b n M :=
      foldlM_finRange_induction (P := Eliminated s.A s.b)
        (fun _ _ _ h => eliminated_step h) (eliminated_zero s.A s.b) hM
    have hsubst : Substituted M 0 (backSubstitute M s.x) :=
      foldr_finRange_induction (P := Substituted M) (fun _ _ => substituted_step)
        fun i hi => absurd hi (not_le.mpr i.isLt)
    have hsolves : Solves (coeff M) (rhs M) fun j => (backSubstitute M s.x).get j :=
      solves_of_backSubst (fun i j => helim.zero i j j.isLt) (fun i => helim.diag i i.isLt)
        fun i => hsubst i (Nat.zero_le _)
    rw [gaussSolve, hM]
    exact ⟨fun _ => (helim.solves _).mp hsolves, rfl, rfl⟩

end

/-- A system of twelve equations whose rows have to be exchanged. -/
def lowerLeft : System ℚ 12 where
  A := tabulate fun i j => if i + j = (11 : ℕ) then 2 else if i + j = (12 : ℕ) then 1 else 0
  b := .ofFn fun i => i
  x := .replicate 12 0

theorem lowerLeft_solved : (gaussSolve lowerLeft).1 = 0 ∧
    ∀ i, ∑ j, cell lowerLeft.A i j * (gaussSolve lowerLeft).2.x.get j = lowerLeft.b.get i :=
  have h : (gaussSolve lowerLeft).1 = 0 := by decide +kernel
  ⟨h, (gaussSolve_solves lowerLeft).1 h⟩

end Lm
