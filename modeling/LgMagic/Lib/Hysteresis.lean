import Mathlib.Algebra.Order.Ring.Nat
import Mathlib.Tactic.SplitIfs

/-!
# Switches with hysteresis and a hold

A switch that is worked by a signal, frame by frame. An open switch closes on a frame where the
signal is low, unless a hold is running; a closed one opens on a frame where the signal is high. A
frame may start the hold over, which then runs for a fixed number of frames.

* `Sight`, `Switch`, `Switch.step`, `switchAfter`: the switch and its runs;
* `left_switchAfter_le_iff`: the frames that the hold still has, by the history of the signal;
* `closed_iff`: whether the switch is closed, by the history of the signal.
-/

namespace Hysteresis

/-- What a frame shows of the signal. -/
structure Sight where
  low : Bool
  high : Bool
  /-- The hold starts over. -/
  refresh : Bool

/-- The state of the switch. -/
structure Switch where
  isOpen : Bool
  /-- The frames that the hold still has. -/
  left : ℕ

/-- One frame. -/
def Switch.step (hold : ℕ) (s : Switch) (x : Sight) : Switch :=
  let left := if x.refresh then hold else s.left - 1
  ⟨if s.isOpen then !(x.low && left = 0) else x.high, left⟩

/-- The switch after the first frames of a signal; it is open before them. -/
def switchAfter (hold : ℕ) (x : ℕ → Sight) : ℕ → Switch
  | 0 => ⟨true, 0⟩
  | n + 1 => (switchAfter hold x n).step hold (x n)

variable {hold : ℕ} {x : ℕ → Sight}

/-- What the hold still has is at most `k` when every start is `hold` frames less `k` ago. -/
theorem left_switchAfter_le_iff (n k : ℕ) : (switchAfter hold x (n + 1)).left ≤ k ↔
    ∀ j ≤ n, (x j).refresh = true → j + hold ≤ n + k := by
  induction n generalizing k with
  | zero =>
    have hzero : (switchAfter hold x 1).left = if (x 0).refresh then hold else 0 := rfl
    rw [hzero]
    constructor
    · intro h j hj hrefresh
      obtain rfl : j = 0 := by omega
      rw [if_pos hrefresh] at h
      omega
    · intro h
      split_ifs with hrefresh
      · have := h 0 le_rfl hrefresh
        omega
      · exact Nat.zero_le _
  | succ n ih =>
    have hstep : (switchAfter hold x (n + 2)).left =
        if (x (n + 1)).refresh then hold else (switchAfter hold x (n + 1)).left - 1 := rfl
    rw [hstep]
    -- a start in the last frame gives all of the hold; otherwise a frame of it is gone
    by_cases hrefresh : (x (n + 1)).refresh = true
    · rw [if_pos hrefresh]
      constructor
      · intro h j hj _
        omega
      · intro h
        have := h (n + 1) le_rfl hrefresh
        omega
    · rw [if_neg hrefresh, Nat.sub_le_iff_le_add, ih]
      constructor
      · intro h j hj hj'
        have hne : j ≠ n + 1 := fun heq => hrefresh (heq ▸ hj')
        have := h j (by omega) hj'
        omega
      · intro h j hj hj'
        have := h j (by omega) hj'
        omega

/-- The hold is over after a frame that none of the last `hold` frames has started it on. -/
theorem left_switchAfter_eq_zero_iff (n : ℕ) : (switchAfter hold x (n + 1)).left = 0 ↔
    ∀ j ≤ n, n < j + hold → (x j).refresh = false := by
  rw [← Nat.le_zero, left_switchAfter_le_iff]
  constructor
  · intro h j hj hlast
    by_contra hrefresh
    have := h j hj (Bool.eq_false_or_eq_true _ |>.resolve_right hrefresh)
    omega
  · intro h j hj hrefresh
    by_contra hlast
    have := h j hj (by omega)
    simp [hrefresh] at this

/-- A switch is closed after a frame when a low frame with no start of the hold among the last frames
up to it closed it, and no high frame has opened it since. -/
theorem closed_iff (hlow : ∀ n, (x n).low = true → (x n).high = false) (n : ℕ) :
    (switchAfter hold x (n + 1)).isOpen = false ↔
      ∃ m ≤ n, (x m).low = true ∧ (∀ j ≤ m, m < j + hold → (x j).refresh = false) ∧
        ∀ j ≤ n, m < j → (x j).high = false := by
  have hstep (n : ℕ) : (switchAfter hold x (n + 1)).isOpen =
      if (switchAfter hold x n).isOpen then
        !((x n).low && (switchAfter hold x (n + 1)).left = 0)
      else (x n).high := rfl
  have hstart : (switchAfter hold x 0).isOpen = true := rfl
  -- the frame itself closes an open switch
  have hcloses (n : ℕ) : ((x n).low && decide ((switchAfter hold x (n + 1)).left = 0)) = true ↔
      (x n).low = true ∧ ∀ j ≤ n, n < j + hold → (x j).refresh = false := by
    rw [Bool.and_eq_true, decide_eq_true_eq, left_switchAfter_eq_zero_iff]
  induction n with
  | zero =>
    rw [hstep, if_pos hstart, Bool.not_eq_false', hcloses]
    constructor
    · rintro ⟨hlow, hleft⟩
      exact ⟨0, le_rfl, hlow, hleft, fun j hj hlt => absurd hj (by omega)⟩
    · rintro ⟨m, hm, hlow, hleft, -⟩
      obtain rfl : m = 0 := by omega
      exact ⟨hlow, hleft⟩
  | succ n ih =>
    rw [hstep (n + 1)]
    cases hopen : (switchAfter hold x (n + 1)).isOpen with
    | true =>
      rw [if_pos rfl, Bool.not_eq_false', hcloses]
      constructor
      · rintro ⟨hlow, hleft⟩
        exact ⟨n + 1, le_rfl, hlow, hleft, fun j hj hlt => absurd hj (by omega)⟩
      · rintro ⟨m, hm, hlow, hleft, hhigh⟩
        rcases Nat.lt_or_ge n m with hlast | hbefore
        · obtain rfl : m = n + 1 := by omega
          exact ⟨hlow, hleft⟩
        · -- the switch would have been closed before the frame
          have := ih.mpr ⟨m, hbefore, hlow, hleft, fun j hj => hhigh j (by omega)⟩
          simp [hopen] at this
    | false =>
      rw [if_neg Bool.false_ne_true]
      constructor
      · intro hhigh
        obtain ⟨m, hm, hlow, hleft, hsince⟩ := ih.mp hopen
        refine ⟨m, by omega, hlow, hleft, fun j hj hlt => ?_⟩
        rcases Nat.lt_or_ge n j with hlast | hbefore
        · obtain rfl : j = n + 1 := by omega
          exact hhigh
        · exact hsince j hbefore hlt
      · rintro ⟨m, hm, hm', hleft, hsince⟩
        rcases Nat.lt_or_ge n m with hlast | hbefore
        · obtain rfl : m = n + 1 := by omega
          exact hlow _ hm'
        · exact hsince (n + 1) le_rfl (by omega)

end Hysteresis
