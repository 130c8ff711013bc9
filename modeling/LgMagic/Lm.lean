import LgMagic.Lib.CMath
import LgMagic.Lib.CountedLoop
import Mathlib.Algebra.BigOperators.Fin
import Mathlib.Algebra.Order.Group.Abs

/-!
# The fit of the accelerometer

The Levenberg-Marquardt fit of `lm.c` over a field with the functions of `math.h`. The parameters
are a bias and a matrix, and the residual of a sample is the length of the calibrated vector less
that of gravity.

* `calcV`, `residOne`, `lmResiduals`, `lmJacobian`: the residuals and their derivatives;
* `gaussSolve`: a linear system, by elimination with partial pivoting;
* `trialLoop`, `fitLoop`: the two loops;
* `lmFitAccel`: the fit.
-/

namespace Lm

open CountedLoop

/-! ## Arrays -/

/-- A two-dimensional array. -/
abbrev Table (K : Type) (m n : ℕ) := Vector (Vector K n) m

section

variable {K : Type} {m n : ℕ}

/-- The array of the values of a function. -/
def tabulate (f : Fin m → Fin n → K) : Table K m n := .ofFn fun i => .ofFn (f i)

/-- `M[i][j]` -/
def cell (M : Table K m n) (i : Fin m) (j : Fin n) : K := (M.get i).get j

theorem get_eq_getElem (x : Vector K n) (i : Fin n) : x.get i = x[i.val] := rfl

@[simp] theorem get_ofFn (f : Fin n → K) (i : Fin n) : (Vector.ofFn f).get i = f i := by
  simp [get_eq_getElem]

@[simp] theorem cell_tabulate (f : Fin m → Fin n → K) (i : Fin m) (j : Fin n) :
    cell (tabulate f) i j = f i j := by
  simp [cell, tabulate]

/-- `x[i] = v` -/
def put (x : Vector K n) (i : Fin n) (v : K) : Vector K n := x.set i v

@[simp] theorem get_put_self (x : Vector K n) (i : Fin n) (v : K) : (put x i v).get i = v := by
  simp [put, get_eq_getElem]

@[simp] theorem put_get_self (x : Vector K n) (i : Fin n) : put x i (x.get i) = x := by
  simp [put, get_eq_getElem]

theorem get_put_of_ne (x : Vector K n) {i j : Fin n} (h : i ≠ j) (v : K) :
    (put x i v).get j = x.get j := by
  have hne : i.val ≠ j.val := Fin.val_ne_of_ne h
  simp [put, get_eq_getElem, Vector.getElem_set_ne, hne]

/-- A vector of three numbers. -/
def vec3 (x y z : K) : Vector K 3 := #v[x, y, z]

@[simp] theorem get_vec3_zero (x y z : K) : (vec3 x y z).get 0 = x := rfl

@[simp] theorem get_vec3_one (x y z : K) : (vec3 x y z).get 1 = y := rfl

@[simp] theorem get_vec3_two (x y z : K) : (vec3 x y z).get 2 = z := rfl

end

/-- The `LM_N` parameters `[b0, b1, b2, m00..m22]`. -/
abbrev Params (K : Type) := Vector K 12

/-- The place of an entry of the bias. -/
def biasIdx (j : Fin 3) : Fin 12 := ⟨j, by omega⟩

/-- The place of an entry of the matrix. -/
def matIdx (k j : Fin 3) : Fin 12 := ⟨3 + 3 * k + j, by omega⟩

section

variable {K : Type}

/-- Parameters by their entries. -/
def params (b : Fin 3 → K) (m : Fin 3 → Fin 3 → K) : Params K := .ofFn fun p =>
  if h : p.val < 3 then b ⟨p, h⟩
  else m ⟨(p.val - 3) / 3, by omega⟩ ⟨(p.val - 3) % 3, by omega⟩

@[simp] theorem params_biasIdx (b : Fin 3 → K) (m : Fin 3 → Fin 3 → K) (j : Fin 3) :
    (params b m).get (biasIdx j) = b j := by
  simp [params, biasIdx]

@[simp] theorem params_matIdx (b : Fin 3 → K) (m : Fin 3 → Fin 3 → K) (k j : Fin 3) :
    (params b m).get (matIdx k j) = m k j := by
  have hk : (3 * k.val + j.val) / 3 = k := by omega
  have hj : (3 * k.val + j.val) % 3 = j := by omega
  simp [params, matIdx, Nat.add_assoc, hk, hj]

end

section

variable {K : Type} [Field K] [LinearOrder K] [CMath K]

/-! ## Residuals -/

/-- `LM_G` -/
def lmG : K := 980665 / 100000

/-- `calc_v`: the difference to the bias and the calibrated vector. -/
def calcV (a : Vector K 3) (x : Params K) : Vector K 3 × Vector K 3 :=
  let d := Vector.ofFn fun j : Fin 3 => a.get j - x.get (biasIdx j)
  (d, Vector.ofFn fun k => ∑ j, x.get (matIdx k j) * d.get j)

/-- The length of the calibrated vector. -/
def calcNrm (a : Vector K 3) (x : Params K) : K :=
  norm3 ((calcV a x).2.get 0) ((calcV a x).2.get 1) ((calcV a x).2.get 2)

/-- `resid_one` -/
def residOne (a : Vector K 3) (x : Params K) : K := calcNrm a x - lmG

/-- `lm_residuals` -/
def lmResiduals (samples : List (Vector K 3)) (x : Params K) : List K :=
  samples.map fun a => residOne a x

/-- One row of `lm_jacobian`; it is zero where the calibrated vector is shorter than the guard. -/
def jacobianRow (a : Vector K 3) (x : Params K) : Params K :=
  let (d, v) := calcV a x
  let nrm := calcNrm a x
  if nrm < 1 / 10 ^ 9 then .replicate 12 0
  else
    params (fun j => -(∑ k, v.get k * x.get (matIdx k j)) / nrm)
      fun k j => d.get j * v.get k / nrm

/-- `lm_jacobian` -/
def lmJacobian (samples : List (Vector K 3)) (x : Params K) : List (Params K) :=
  samples.map fun a => jacobianRow a x

/-- `mean_cost` -/
def meanCost (r : List K) : K := (r.map fun r => r * r).sum / r.length

end

/-! ## Linear systems -/

/-- The arguments of `gauss_solve`, which writes to `x`. -/
structure System (K : Type) (n : ℕ) where
  A : Table K n n
  b : Vector K n
  x : Vector K n

section

variable {K : Type} [Field K] [LinearOrder K] {n : ℕ}

/-- The indices after one, in order. -/
def after (k : Fin n) : List (Fin n) := (List.finRange n).filter (k < ·)

/-- The working copy, with the right-hand side as its last column. -/
def augmented (A : Table K n n) (b : Vector K n) : Table K n (n + 1) := tabulate fun i j =>
  if h : j.val < n then cell A i ⟨j, h⟩ else b.get i

/-- The row with the largest entry in a column from the diagonal on, and the size of the entry. -/
def findPivot (M : Table K n (n + 1)) (k : Fin n) : Fin n × K :=
  (after k).foldl (fun best i =>
    if best.2 < |cell M i k.castSucc| then (i, |cell M i k.castSucc|) else best)
    (k, |cell M k k.castSucc|)

/-- Two rows exchanged, from a column on. -/
def swapRows (M : Table K n (n + 1)) (k piv : Fin n) : Table K n (n + 1) := tabulate fun i j =>
  if k.castSucc ≤ j then
    if i = k then cell M piv j else if i = piv then cell M k j else cell M i j
  else cell M i j

/-- A multiple of a row taken from each row after it. -/
def eliminateBelow (M : Table K n (n + 1)) (k : Fin n) : Table K n (n + 1) := tabulate fun i j =>
  if k < i then
    if j = k.castSucc then 0
    else if k.castSucc < j then cell M i j - cell M i k.castSucc / cell M k k.castSucc * cell M k j
    else cell M i j
  else cell M i j

/-- One column of the elimination; `none` at a singular pivot. -/
def eliminateColumn (M : Table K n (n + 1)) (k : Fin n) : Option (Table K n (n + 1)) :=
  let (piv, maxv) := findPivot M k
  if maxv < 1 / 10 ^ 15 then none
  else some (eliminateBelow (if piv ≠ k then swapRows M k piv else M) k)

/-- One unknown, from the ones after it. -/
def backStep (M : Table K n (n + 1)) (i : Fin n) (x : Vector K n) : Vector K n :=
  put x i ((after i).foldl (fun s j => s - cell M i j.castSucc * x.get j) (cell M i (Fin.last n)) /
    cell M i i.castSucc)

/-- The unknowns from the last one to the first. -/
def backSubstitute (M : Table K n (n + 1)) (x : Vector K n) : Vector K n :=
  (List.finRange n).foldr (backStep M) x

/-- `gauss_solve`: the result and the arguments after the call. -/
def gaussSolve (s : System K n) : ℤ × System K n :=
  match (List.finRange n).foldlM eliminateColumn (augmented s.A s.b) with
  | none => (-1, s)
  | some M => (0, { s with x := backSubstitute M s.x })

end

/-! ## The fit -/

/-- What the trials of an iteration work on. -/
structure Trial (K : Type) where
  x : Params K
  d : Params K
  lambda : K
  improved : Bool
  converged : Bool

/-- What the iterations work on, with the number of trials of each of them. -/
structure FitState (K : Type) where
  x : Params K
  converged : Bool
  trials : List ℕ

/-- What a fit returns. -/
structure AccelFit (K : Type) where
  bias : Vector K 3
  m : Table K 3 3
  cost : K

section

variable {K : Type} [Field K] [LinearOrder K] [CMath K]

/-- The mean of the samples. -/
def sampleMean (samples : List (Vector K 3)) (j : Fin 3) : K :=
  (samples.map fun a => a.get j).sum / samples.length

/-- The starting point: the mean of the samples and the identity. -/
def startParams (samples : List (Vector K 3)) : Params K :=
  params (sampleMean samples) fun k j => if k = j then 1 else 0

/-- `J^T J` -/
def normalMatrix (J : List (Params K)) : Table K 12 12 :=
  tabulate fun j k => (J.map fun row => row.get j * row.get k).sum

/-- `J^T r` -/
def gradientOf (J : List (Params K)) (r : List K) : Params K :=
  .ofFn fun j => (List.zipWith (fun row r => row.get j * r) J r).sum

/-- The matrix with its diagonal enlarged. -/
def damped (A : Table K 12 12) (lambda : K) : Table K 12 12 := tabulate fun j k =>
  if j = k then cell A j k + lambda * (if 0 < cell A j j then cell A j j else 1) else cell A j k

/-- One trial: a step that is taken if it lowers the cost. -/
def trial (samples : List (Vector K 3)) (A : Table K 12 12) (ng : Params K) (costOld : K)
    (t : Trial K) : Trial K :=
  let (rc, s) := gaussSolve ⟨damped A t.lambda, ng, t.d⟩
  if rc < 0 then { t with d := s.x, lambda := t.lambda * 10 }
  else
    let xNew : Params K := .ofFn fun j => t.x.get j + s.x.get j
    let costNew := meanCost (lmResiduals samples xNew)
    if costNew < costOld then
      { x := xNew, d := s.x, lambda := t.lambda / 10, improved := true,
        converged := |costOld - costNew| < 1 / 10 ^ 10 }
    else { t with d := s.x, lambda := t.lambda * 10 }

/-- The trials of an iteration, ten at most: how many there were, and what they came to. -/
def trialLoop (samples : List (Vector K 3)) (s : FitState K) : ℕ × Trial K :=
  let r := lmResiduals samples s.x
  let J := lmJacobian samples s.x
  let ng := (gradientOf J r).map fun g => -g
  forUntil Trial.improved (trial samples (normalMatrix J) ng (meanCost r)) 10
    { x := s.x, d := .replicate 12 0, lambda := 1 / 1000, improved := false,
      converged := s.converged }

/-- One iteration, which is the last one if no trial was an improvement. -/
def iteration (samples : List (Vector K 3)) (s : FitState K) : FitState K :=
  let (tries, t) := trialLoop samples s
  { x := t.x, converged := !t.improved || t.converged, trials := s.trials ++ [tries] }

/-- The iterations, `LM_MAX_ITER` at most: how many there were, and what they came to. -/
def fitLoop (samples : List (Vector K 3)) : ℕ × FitState K :=
  forUntil FitState.converged (iteration samples) 100
    { x := startParams samples, converged := false, trials := [] }

/-- `lm_fit_accel`; `none` for fewer than six samples. -/
def lmFitAccel (samples : List (Vector K 3)) : Option (AccelFit K) :=
  if samples.length < 6 then none
  else
    let x := (fitLoop samples).2.x
    some {
      bias := .ofFn fun j => x.get (biasIdx j)
      m := tabulate fun k j => x.get (matIdx k j)
      cost := meanCost (lmResiduals samples x) }

end

end Lm
