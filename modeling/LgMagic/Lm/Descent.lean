import LgMagic.Lm

/-!
# The fit never makes things worse

The parameters change only where the cost goes down, so that the cost of what a fit returns is not
above the one at its start. The cost it reports is that of the bias and the matrix that it returns.

* `meanSquare`: the mean squared residual of a bias and a matrix;
* `trial_spec`, `iteration_spec`: a trial and an iteration;
* `lmFitAccel_spec`: the fit.
-/

namespace Lm

open CountedLoop

/-! ## What is fitted -/

/-- The length of a calibrated sample less that of gravity. -/
noncomputable def residual (bias : Vector ℝ 3) (m : Table ℝ 3 3) (a : Vector ℝ 3) : ℝ :=
  √(∑ k, (∑ j, cell m k j * (a.get j - bias.get j)) ^ 2) - 9.80665

/-- The mean squared residual. -/
noncomputable def meanSquare (samples : List (Vector ℝ 3)) (bias : Vector ℝ 3) (m : Table ℝ 3 3) :
    ℝ :=
  (samples.map fun a => residual bias m a ^ 2).sum / samples.length

/-- The matrix that changes nothing. -/
def identity : Table ℝ 3 3 := tabulate fun k j => if k = j then 1 else 0

/-- The bias among the parameters. -/
def biasOf (x : Params ℝ) : Vector ℝ 3 := .ofFn fun j => x.get (biasIdx j)

/-- The matrix among the parameters. -/
def matrixOf (x : Params ℝ) : Table ℝ 3 3 := tabulate fun k j => x.get (matIdx k j)

theorem residOne_eq (a : Vector ℝ 3) (x : Params ℝ) :
    residOne a x = residual (biasOf x) (matrixOf x) a := by
  have hnrm : calcNrm a x = √(∑ k, (∑ j, x.get (matIdx k j) * (a.get j - x.get (biasIdx j))) ^ 2) := by
    rw [Fin.sum_univ_three]
    simp only [calcNrm, norm3, calcV, ← pow_two]
    rfl
  have hg : (lmG : ℝ) = 9.80665 := by norm_num [lmG]
  rw [residOne, hnrm, hg]
  simp [residual, biasOf, matrixOf]

variable {samples : List (Vector ℝ 3)}

/-- The cost of parameters, as the fit computes it. -/
noncomputable def costAt (samples : List (Vector ℝ 3)) (x : Params ℝ) : ℝ :=
  meanCost (lmResiduals samples x)

theorem costAt_eq (samples : List (Vector ℝ 3)) (x : Params ℝ) :
    costAt samples x = meanSquare samples (biasOf x) (matrixOf x) := by
  simp [costAt, meanCost, lmResiduals, meanSquare, Function.comp_def, residOne_eq, pow_two]

theorem biasOf_startParams : biasOf (startParams samples) = .ofFn (sampleMean samples) := by
  simp [biasOf, startParams]

theorem matrixOf_startParams : matrixOf (startParams samples) = identity := by
  simp [matrixOf, identity, startParams]

/-! ## Trials -/

/-- The parameters are as they were, or the cost is lower. -/
def Lowered (samples : List (Vector ℝ 3)) (x : Params ℝ) (t : Trial ℝ) : Prop :=
  if t.improved then costAt samples t.x < costAt samples x else t.x = x

/-- A trial is a step that lowers the cost, or none, whether the system is singular or not. -/
theorem trial_spec {A : Table ℝ 12 12} {ng x : Params ℝ} {t : Trial ℝ} (hi : t.improved = false)
    (h : Lowered samples x t) : Lowered samples x (trial samples A ng (costAt samples x) t) := by
  have hx : t.x = x := by simpa [Lowered, hi] using h
  unfold trial
  rcases gaussSolve ⟨damped A t.lambda, ng, t.d⟩ with ⟨rc, s⟩
  dsimp only
  split_ifs with hrc hcost
  · -- the system is singular
    simpa [Lowered, hi] using hx
  · -- the step is taken
    simpa [Lowered, costAt] using hcost
  · -- the step is refused
    simpa [Lowered, hi] using hx

theorem trialLoop_spec (samples : List (Vector ℝ 3)) (s : FitState ℝ) :
    Lowered samples s.x (trialLoop samples s).2 :=
  forUntil_induction (fun _ hi => trial_spec hi) rfl

theorem trialLoop_le (samples : List (Vector ℝ 3)) (s : FitState ℝ) :
    (trialLoop samples s).1 ≤ 10 :=
  forUntil_le

/-! ## Iterations -/

/-- An iteration lowers the cost, or it is the last one and changes nothing. -/
theorem iteration_spec (samples : List (Vector ℝ 3)) (s : FitState ℝ) :
    costAt samples (iteration samples s).x < costAt samples s.x ∨
      (iteration samples s).x = s.x ∧ (iteration samples s).converged = true := by
  have h := trialLoop_spec samples s
  unfold iteration
  generalize trialLoop samples s = r at h ⊢
  dsimp only
  unfold Lowered at h
  split_ifs at h with hi
  · exact .inl h
  · exact .inr ⟨h, by simp [hi]⟩

/-- How far the iterations have come: the cost is not above the one at the start, and none of them
had more than ten trials. -/
structure Descended (samples : List (Vector ℝ 3)) (s : FitState ℝ) : Prop where
  cost : costAt samples s.x ≤ costAt samples (startParams samples)
  trials : ∀ t ∈ s.trials, t ≤ 10

theorem descended_step {s : FitState ℝ} (h : Descended samples s) :
    Descended samples (iteration samples s) where
  cost := by
    rcases iteration_spec samples s with hlt | ⟨hx, -⟩
    · exact hlt.le.trans h.cost
    · rw [hx]
      exact h.cost
  trials t ht := by
    rcases List.mem_append.mp ht with ht | ht
    · exact h.trials t ht
    · rw [List.mem_singleton.mp ht]
      exact trialLoop_le samples s

theorem descended_fitLoop (samples : List (Vector ℝ 3)) : Descended samples (fitLoop samples).2 :=
  forUntil_induction (fun _ _ => descended_step) ⟨le_rfl, by simp⟩

/-- The trials of each iteration were counted. -/
theorem length_trials_fitLoop (samples : List (Vector ℝ 3)) :
    (fitLoop samples).2.trials.length = (fitLoop samples).1 := by
  have hcount (s : FitState ℝ) :
      (iteration samples s).trials.length = s.trials.length + 1 := by
    simp [iteration]
  exact (forUntil_count (fun s : FitState ℝ => s.trials.length) hcount).trans (Nat.zero_add _)

/-! ## The fit -/

/-- With six samples there is a fit, after a hundred iterations of ten trials at most. The cost it
reports is the mean squared residual of what it returns, and not above that of its start. -/
theorem lmFitAccel_spec (samples : List (Vector ℝ 3)) (h : 6 ≤ samples.length) :
    ∃ fit, lmFitAccel samples = some fit ∧
      fit.cost = meanSquare samples fit.bias fit.m ∧
      fit.cost ≤ meanSquare samples (.ofFn (sampleMean samples)) identity ∧
      (fitLoop samples).1 ≤ 100 ∧ (fitLoop samples).2.trials.length = (fitLoop samples).1 ∧
      ∀ t ∈ (fitLoop samples).2.trials, t ≤ 10 := by
  have hdesc := descended_fitLoop samples
  refine ⟨_, if_neg (not_lt.mpr h), costAt_eq samples _, ?_, forUntil_le,
    length_trials_fitLoop samples, hdesc.trials⟩
  have hcost := hdesc.cost
  rwa [costAt_eq samples (startParams samples), biasOf_startParams, matrixOf_startParams] at hcost

/-- A sensor at rest on each of its faces. -/
def faces : List (Vector ℝ 3) :=
  [vec3 1 0 0, vec3 (-1) 0 0, vec3 0 1 0, vec3 0 (-1) 0, vec3 0 0 1, vec3 0 0 (-1)]

theorem faces_fit :
    ∃ fit, lmFitAccel faces = some fit ∧
      fit.cost = meanSquare faces fit.bias fit.m ∧
      fit.cost ≤ meanSquare faces (.ofFn (sampleMean faces)) identity ∧
      (fitLoop faces).1 ≤ 100 ∧ (fitLoop faces).2.trials.length = (fitLoop faces).1 ∧
      ∀ t ∈ (fitLoop faces).2.trials, t ≤ 10 :=
  lmFitAccel_spec faces (le_refl 6)

end Lm
