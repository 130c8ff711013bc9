import Mathlib.Algebra.Order.Archimedean.Basic
import Mathlib.Algebra.Order.BigOperators.Group.Finset
import Mathlib.Algebra.Order.Field.GeomSum
import Mathlib.Tactic.Linarith
import Mathlib.Tactic.Ring

/-!
# The low-pass filter of one coefficient

The recurrence `y' = α * x + (1 - α) * y` over an ordered field, from zero on. With a coefficient
between zero and one the output stays among the inputs; past one it swings and may exceed them by a
factor, and from two on, as below zero, it has no bound.

* `lowPass`, `filtered`: one step, and the output over a stream;
* `lowPass_mem_Icc`, `swing_lowPass`: the bounds that a step keeps;
* `exists_lt_filtered_const`, `exists_filtered_const_lt`: a constant stream comes as near to its
  value as one likes;
* `exists_lt_filtered_alternating`, `exists_lt_filtered_impulse`: the streams that take the output
  past any bound that does not hold.
-/

namespace LowPass

section

variable {K : Type*} [Field K]

/-- One step of the filter. -/
def lowPass (α x y : K) : K := α * x + (1 - α) * y

/-- The output after the first samples of a stream. -/
def filtered (α : K) (x : ℕ → K) : ℕ → K
  | 0 => 0
  | n + 1 => lowPass α (x n) (filtered α x n)

/-! ## Three streams -/

/-- The filter is linear: the output of the opposite samples. -/
theorem filtered_neg (α : K) (x : ℕ → K) (n : ℕ) :
    filtered α (fun k => -x k) n = -filtered α x n := by
  induction n with
  | zero => simp [filtered]
  | succ n ih =>
    rw [filtered, filtered, lowPass, lowPass, ih]
    ring

/-- A constant stream. -/
theorem filtered_const (α c : K) (n : ℕ) : filtered α (fun _ => c) n = c * (1 - (1 - α) ^ n) := by
  induction n with
  | zero => simp [filtered]
  | succ n ih =>
    rw [filtered, lowPass, ih]
    ring

/-- Samples that change their sign each time add up. -/
theorem filtered_alternating (α d : K) (n : ℕ) :
    filtered α (fun k => (-1) ^ k * d) (n + 1) =
      (-1) ^ n * (α * d * ∑ k ∈ Finset.range (n + 1), (α - 1) ^ k) := by
  induction n with
  | zero => simp [filtered, lowPass]
  | succ n ih =>
    rw [filtered, lowPass, ih, Finset.sum_range_succ' _ (n + 1), pow_succ (-1 : K)]
    have hsum : ∑ k ∈ Finset.range (n + 1), (α - 1) ^ (k + 1) =
        (α - 1) * ∑ k ∈ Finset.range (n + 1), (α - 1) ^ k := by
      rw [Finset.mul_sum]
      exact Finset.sum_congr rfl fun k _ => pow_succ' _ _
    rw [hsum]
    ring

/-- A single sample and silence after it. -/
theorem filtered_impulse (α d : K) (n : ℕ) :
    filtered α (fun k => if k = 0 then d else 0) (n + 1) = α * d * (1 - α) ^ n := by
  induction n with
  | zero => simp [filtered, lowPass]
  | succ n ih =>
    rw [filtered, lowPass, ih, if_neg (Nat.succ_ne_zero n)]
    ring

end

variable {K : Type*} [Field K] [LinearOrder K] [IsStrictOrderedRing K]
variable {α x y d lo hi B : K}

/-! ## Bounds of a step -/

/-- With a coefficient between zero and one, a step stays in an interval. -/
theorem lowPass_mem_Icc (h0 : 0 ≤ α) (h1 : α ≤ 1) (hx : lo ≤ x ∧ x ≤ hi) (hy : lo ≤ y ∧ y ≤ hi) :
    lo ≤ lowPass α x y ∧ lowPass α x y ≤ hi := by
  have h1' : 0 ≤ 1 - α := sub_nonneg.mpr h1
  constructor
  · calc lo = α * lo + (1 - α) * lo := by ring
      _ ≤ α * x + (1 - α) * y :=
        add_le_add (mul_le_mul_of_nonneg_left hx.1 h0) (mul_le_mul_of_nonneg_left hy.1 h1')
  · calc α * x + (1 - α) * y ≤ α * hi + (1 - α) * hi :=
        add_le_add (mul_le_mul_of_nonneg_left hx.2 h0) (mul_le_mul_of_nonneg_left hy.2 h1')
      _ = hi := by ring

/-- With a coefficient between one and two, a step keeps the bound `α * d / (2 - α)`. -/
theorem swing_lowPass (h1 : 1 < α) (hx : |x| ≤ d) (hy : (2 - α) * |y| < α * d) (h2 : α < 2) :
    (2 - α) * |lowPass α x y| < α * d := by
  have hstep : |lowPass α x y| ≤ α * d + (α - 1) * |y| := by
    calc |lowPass α x y| ≤ |α * x| + |(1 - α) * y| := abs_add_le _ _
      _ = α * |x| + (α - 1) * |y| := by
        rw [abs_mul, abs_mul, abs_of_pos (zero_lt_one.trans h1), abs_sub_comm,
          abs_of_pos (sub_pos.mpr h1)]
      _ ≤ α * d + (α - 1) * |y| := by
        have := mul_le_mul_of_nonneg_left hx (zero_lt_one.trans h1).le
        linarith
  have hscaled := mul_le_mul_of_nonneg_left hstep (sub_pos.mpr h2).le
  have hswing := mul_lt_mul_of_pos_left hy (sub_pos.mpr h1)
  calc (2 - α) * |lowPass α x y| ≤ (2 - α) * (α * d) + (α - 1) * ((2 - α) * |y|) := by
        linarith
    _ < (2 - α) * (α * d) + (α - 1) * (α * d) := by linarith
    _ = α * d := by ring

/-! ## Constant streams -/

/-- A constant stream takes the output past every bound below its value. -/
theorem exists_lt_filtered_const [Archimedean K] (h0 : 0 < α) (h1 : α ≤ 1) {c : K} (h : B < c) :
    ∃ n, B < filtered α (fun _ => c) n := by
  have hgap : 0 < (c - B) / (|c| + 1) := div_pos (sub_pos.mpr h) (by positivity)
  obtain ⟨n, hn⟩ := exists_pow_lt_of_lt_one hgap (show 1 - α < 1 by linarith)
  have hpow : 0 ≤ (1 - α) ^ n := pow_nonneg (by linarith) n
  have hlt : (1 - α) ^ n * (|c| + 1) < c - B := (lt_div_iff₀ (by positivity)).mp hn
  refine ⟨n, ?_⟩
  have hc : c * (1 - α) ^ n ≤ |c| * (1 - α) ^ n := mul_le_mul_of_nonneg_right (le_abs_self c) hpow
  rw [filtered_const]
  linarith

/-- A constant stream takes the output below every bound above its value. -/
theorem exists_filtered_const_lt [Archimedean K] (h0 : 0 < α) (h1 : α ≤ 1) {c : K} (h : c < B) :
    ∃ n, filtered α (fun _ => c) n < B := by
  obtain ⟨n, hn⟩ := exists_lt_filtered_const (B := -B) h0 h1 (neg_lt_neg h)
  rw [filtered_neg] at hn
  exact ⟨n, neg_lt_neg_iff.mp hn⟩

/-! ## Streams that the filter amplifies -/

/-- The sums of a geometric series pass every bound that the series does not have. -/
theorem exists_lt_mul_geom_sum [Archimedean K] {r c : K} (hc : 0 < c)
    (h : B * (1 - r) < c) : ∃ n, B < c * ∑ k ∈ Finset.range n, r ^ k := by
  rcases lt_or_ge r 1 with hlt | hge
  · have hgap : 0 < (c - B * (1 - r)) / c := div_pos (sub_pos.mpr h) hc
    obtain ⟨n, hn⟩ := exists_pow_lt_of_lt_one hgap hlt
    have hpow : r ^ n * c < c - B * (1 - r) := (lt_div_iff₀ hc).mp hn
    refine ⟨n, ?_⟩
    have hsum : (1 - r) * ∑ k ∈ Finset.range n, r ^ k = 1 - r ^ n := by
      have := mul_neg_geom_sum r n
      linarith
    have hpos : 0 < 1 - r := sub_pos.mpr hlt
    refine lt_of_mul_lt_mul_left ?_ hpos.le
    calc (1 - r) * B < c * (1 - r ^ n) := by linarith
      _ = (1 - r) * (c * ∑ k ∈ Finset.range n, r ^ k) := by rw [← hsum]; ring
  · obtain ⟨n, hn⟩ := exists_nat_gt (B / c)
    refine ⟨n, ?_⟩
    have hterms : (n : K) ≤ ∑ k ∈ Finset.range n, r ^ k := by
      calc (n : K) = ∑ _k ∈ Finset.range n, (1 : K) := by simp
        _ ≤ ∑ k ∈ Finset.range n, r ^ k := Finset.sum_le_sum fun k _ => one_le_pow₀ hge
    calc B = c * (B / c) := by rw [mul_div_cancel₀ _ hc.ne']
      _ < c * n := mul_lt_mul_of_pos_left hn hc
      _ ≤ c * ∑ k ∈ Finset.range n, r ^ k := mul_le_mul_of_nonneg_left hterms hc.le

/-- Past a coefficient of one, samples that change their sign take the output past every bound that the
swing does not have. -/
theorem exists_lt_filtered_alternating [Archimedean K] (h1 : 1 < α) (hd : 0 < d)
    (h : B * (2 - α) < α * d) : ∃ n, B < filtered α (fun k => (-1) ^ k * d) n := by
  have hr : 0 < α - 1 := sub_pos.mpr h1
  have hc : 0 < α * d := mul_pos (zero_lt_one.trans h1) hd
  obtain ⟨n, hn⟩ := exists_lt_mul_geom_sum hc (show B * (1 - (α - 1)) < α * d by linarith)
  -- the sums grow, and every other frame has the sign of the first one
  refine ⟨2 * n + 1, ?_⟩
  rw [filtered_alternating, pow_mul, neg_one_sq, one_pow, one_mul]
  refine hn.trans_le (mul_le_mul_of_nonneg_left ?_ hc.le)
  exact Finset.sum_le_sum_of_subset_of_nonneg (Finset.range_mono (by omega))
    fun k _ _ => (pow_pos hr k).le

/-- Below a coefficient of zero a single sample grows without bound. -/
theorem exists_lt_filtered_impulse [Archimedean K] (h0 : α < 0) (hd : d < 0) (B : K) :
    ∃ n, B < filtered α (fun k => if k = 0 then d else 0) n := by
  have hc : 0 < α * d := mul_pos_of_neg_of_neg h0 hd
  obtain ⟨n, hn⟩ := pow_unbounded_of_one_lt (B / (α * d)) (show 1 < 1 - α by linarith)
  refine ⟨n + 1, ?_⟩
  rw [filtered_impulse]
  calc B = α * d * (B / (α * d)) := by rw [mul_div_cancel₀ _ hc.ne']
    _ < α * d * (1 - α) ^ n := mul_lt_mul_of_pos_left hn hc

end LowPass
