import Mathlib.Data.List.FinRange

/-!
# Counted loops

Loops over all indices of a range, upwards and downwards, and loops with a limit that stop where a
condition holds.

* `foldlM_finRange_induction`, `foldr_finRange_induction`: the rules with an invariant;
* `forUntil`: a loop with a limit, and how often it was run;
* `forUntil_le`, `forUntil_count`, `forUntil_induction`: its limit and its invariants.
-/

namespace CountedLoop

variable {σ : Type*} {n : ℕ} {P : ℕ → σ → Prop} {s s' : σ}

/-- What is left of a range starts with the next index. -/
theorem drop_finRange {k : ℕ} (h : k < n) :
    (List.finRange n).drop k = ⟨k, h⟩ :: (List.finRange n).drop (k + 1) := by
  rw [List.drop_eq_getElem_cons (by rwa [List.length_finRange])]
  simp

/-- An upward loop that may fail: the invariant goes from each index to the next one. -/
theorem foldlM_finRange_induction {step : σ → Fin n → Option σ}
    (hstep : ∀ (k : Fin n) s s', P k s → step s k = some s' → P (k + 1) s') (h0 : P 0 s)
    (h : (List.finRange n).foldlM step s = some s') : P n s' := by
  have hfrom : ∀ m k s, k + m = n → P k s →
      ((List.finRange n).drop k).foldlM step s = some s' → P n s' := by
    intro m
    induction m with
    | zero =>
      intro k s hk hs h
      rw [List.drop_eq_nil_of_le (by rw [List.length_finRange]; omega)] at h
      obtain rfl : s = s' := Option.some.inj h
      rwa [← hk]
    | succ m ih =>
      intro k s hk hs h
      have hlt : k < n := by omega
      rw [drop_finRange hlt, List.foldlM_cons] at h
      obtain ⟨s₁, hs₁, h⟩ := Option.bind_eq_some_iff.mp h
      exact ih (k + 1) s₁ (by omega) (hstep ⟨k, hlt⟩ s s₁ hs hs₁) h
  exact hfrom n 0 s (Nat.zero_add n) h0 h

/-- A downward loop: the invariant goes from each index to the one before. -/
theorem foldr_finRange_induction {step : Fin n → σ → σ}
    (hstep : ∀ (k : Fin n) s, P (k + 1) s → P k (step k s)) (h : P n s) :
    P 0 ((List.finRange n).foldr step s) := by
  have hfrom : ∀ m k, k + m = n → P k (((List.finRange n).drop k).foldr step s) := by
    intro m
    induction m with
    | zero =>
      intro k hk
      rw [List.drop_eq_nil_of_le (by rw [List.length_finRange]; omega)]
      rwa [show k = n by omega]
    | succ m ih =>
      intro k hk
      have hlt : k < n := by omega
      rw [drop_finRange hlt, List.foldr_cons]
      exact hstep ⟨k, hlt⟩ _ (ih (k + 1) (by omega))
  exact hfrom n 0 (Nat.zero_add n)

/-! ## Loops with a limit -/

/-- Run a body up to a number of times, until it is to stop; how often it was run, and the state. -/
def forUntil (stop : σ → Bool) (body : σ → σ) : ℕ → σ → ℕ × σ
  | 0, s => (0, s)
  | n + 1, s =>
    if stop s then (0, s)
    else
      let r := forUntil stop body n (body s)
      (r.1 + 1, r.2)

section

variable {stop : σ → Bool} {body : σ → σ}

theorem forUntil_of_stop (h : stop s = true) : forUntil stop body n s = (0, s) := by
  cases n with
  | zero => rfl
  | succ n => rw [forUntil, if_pos h]

theorem forUntil_succ (h : stop s = false) : forUntil stop body (n + 1) s =
    ((forUntil stop body n (body s)).1 + 1, (forUntil stop body n (body s)).2) := by
  rw [forUntil, if_neg (by simp [h])]

/-- The body is not run more often than the limit says. -/
theorem forUntil_le : (forUntil stop body n s).1 ≤ n := by
  induction n generalizing s with
  | zero => exact le_rfl
  | succ n ih =>
    cases h : stop s with
    | true => rw [forUntil_of_stop h]; exact Nat.zero_le _
    | false => rw [forUntil_succ h]; exact Nat.succ_le_succ ih

/-- What goes up by one with every run of the body counts the runs. -/
theorem forUntil_count (f : σ → ℕ) (hf : ∀ s, f (body s) = f s + 1) :
    f (forUntil stop body n s).2 = f s + (forUntil stop body n s).1 := by
  induction n generalizing s with
  | zero => rfl
  | succ n ih =>
    cases h : stop s with
    | true => rw [forUntil_of_stop h]; rfl
    | false =>
      rw [forUntil_succ h]
      dsimp only
      rw [ih, hf]
      omega

/-- What the body keeps holds at the end. -/
theorem forUntil_induction {Q : σ → Prop} (hbody : ∀ s, stop s = false → Q s → Q (body s))
    (h : Q s) : Q (forUntil stop body n s).2 := by
  induction n generalizing s with
  | zero => exact h
  | succ n ih =>
    cases hs : stop s with
    | true => rwa [forUntil_of_stop hs]
    | false => rw [forUntil_succ hs]; exact ih (hbody s hs h)

end

end CountedLoop
