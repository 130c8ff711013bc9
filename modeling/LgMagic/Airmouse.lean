import LgMagic.Lib.CNum

/-!
# Calibration and the airmouse engine

The way of an IMU sample to a movement of the pointer: the calibration of `calib.c`, and the filter
of `airmouse.c` over the changes from sample to sample, with the gate that holds back the spring of
the sensor.

* `calibApply`: the correction of a sample;
* `airmouseProcess`: the filter;
* `airmouseProcess_first`: the first sample after a reset moves nothing.
-/

namespace Pointer

/-- A vector of three numbers. -/
structure Vec3 (F : Type) where
  x : F
  y : F
  z : F
  deriving DecidableEq

namespace Vec3

variable {F G H : Type}

/-- The components satisfy a predicate. -/
def All (P : F → Prop) (v : Vec3 F) : Prop := P v.x ∧ P v.y ∧ P v.z

/-- The same operation on each component. -/
def map (f : F → G) (v : Vec3 F) : Vec3 G := ⟨f v.x, f v.y, f v.z⟩

/-- An operation on the components of two vectors. -/
def zipWith (f : F → G → H) (v : Vec3 F) (w : Vec3 G) : Vec3 H := ⟨f v.x w.x, f v.y w.y, f v.z w.z⟩

/-- The zero vector. -/
def zero [CNum F] : Vec3 F := ⟨CNum.ofRat 0, CNum.ofRat 0, CNum.ofRat 0⟩

end Vec3

/-! ## Calibration -/

/-- `struct calib`; a matrix is the vector of its rows. -/
structure Calib (F : Type) where
  accelBias : Vec3 F
  accelMatrix : Vec3 (Vec3 F)
  gyroBias : Vec3 F
  gyroScale : Vec3 F
  deriving DecidableEq

/-- `struct airmouse` -/
structure Airmouse (F : Type) where
  alpha : F
  prev : Vec3 F
  rawPrev : Vec3 F
  haveRaw : Bool
  scale : F
  gateOn : Bool
  gateLo : F
  gateHi : F
  gateA : F
  gateLatch : ℕ
  latchLeft : ℕ
  gateOpen : Bool
  aAbsent : Bool
  aBase : Vec3 F
  deriving DecidableEq

section

variable {F : Type} [CNum F]

/-- `calib_init_identity` -/
def calibInitIdentity : Calib F where
  accelBias := .zero
  accelMatrix := ⟨⟨CNum.ofRat 1, CNum.ofRat 0, CNum.ofRat 0⟩,
    ⟨CNum.ofRat 0, CNum.ofRat 1, CNum.ofRat 0⟩, ⟨CNum.ofRat 0, CNum.ofRat 0, CNum.ofRat 1⟩⟩
  gyroBias := .zero
  gyroScale := ⟨CNum.ofRat 1, CNum.ofRat 1, CNum.ofRat 1⟩

/-- `R_align`: the alignment of the sensor with the body. -/
def rAlign : Vec3 (Vec3 F) :=
  ⟨⟨CNum.ofRat 0, CNum.ofRat (-1), CNum.ofRat 0⟩, ⟨CNum.ofRat (-1), CNum.ofRat 0, CNum.ofRat 0⟩,
    ⟨CNum.ofRat 0, CNum.ofRat 0, CNum.ofRat (-1)⟩⟩

/-- `M_PI / 180.0`, the value of the `double`. -/
def radPerDegree : F := CNum.ofRat (5030569068109113 / 2 ^ 58)

/-- `airmouse_init`; the baseline `raw_prev` is set with the first sample. -/
def airmouseInit (a : Airmouse F) (alpha scale : F) : Airmouse F where
  alpha := alpha
  prev := .zero
  rawPrev := a.rawPrev
  haveRaw := false
  scale := scale
  gateOn := true
  gateLo := CNum.ofRat 60
  gateHi := CNum.ofRat 400
  gateA := CNum.ofRat (2 / 100)
  gateLatch := 10
  latchLeft := 0
  gateOpen := true
  aAbsent := true
  aBase := .zero

/-- `airmouse_gate_cfg` -/
def airmouseGateCfg (a : Airmouse F) (on : Bool) (lo hi : F) : Airmouse F :=
  { a with gateOn := on, gateLo := lo, gateHi := hi }

end

section

variable {F : Type} [CArith F]

/-- `mat3_mul_vec3` -/
def mat3MulVec3 (m : Vec3 (Vec3 F)) (v : Vec3 F) : Vec3 F :=
  m.map fun row => CArith.add (CArith.add (CArith.mul row.x v.x) (CArith.mul row.y v.y))
    (CArith.mul row.z v.z)

/-- `vec3_scale` -/
def vec3Scale (v : Vec3 F) (s : F) : Vec3 F := v.map (CArith.mul · s)

/-- `calib_apply`: the corrected accelerometer and gyroscope. -/
def calibApply (c : Calib F) (aRaw gRaw : Vec3 F) : Vec3 F × Vec3 F :=
  let a := mat3MulVec3 c.accelMatrix (aRaw.zipWith CArith.sub c.accelBias)
  let g := (gRaw.zipWith CArith.sub c.gyroBias).zipWith CArith.mul c.gyroScale
  (mat3MulVec3 rAlign a, vec3Scale (mat3MulVec3 rAlign g) radPerDegree)

/-! ## The filter -/

/-- `acc[i] != 0.0` for some component. -/
def nonzero (v : Vec3 F) : Bool :=
  let ne (x : F) := !(CNum.le x (CNum.ofRat 0) && CNum.le (CNum.ofRat 0) x)
  ne v.x || ne v.y || ne v.z

/-- The largest distance from the baseline. -/
def gateDev (a : Airmouse F) (acc : Vec3 F) : F :=
  let dist (e : F) := if CNum.lt e (CNum.ofRat 0) then CArith.neg e else e
  let e := (acc.zipWith CArith.sub a.aBase).map dist
  let larger (dev e : F) := if CNum.lt dev e then e else dev
  larger (larger (larger (CNum.ofRat 0) e.x) e.y) e.z

/-- `gate_decision`: whether the sample moves the pointer. -/
def gateDecision (a : Airmouse F) (acc : Vec3 F) : Bool × Airmouse F :=
  let dev := gateDev a acc
  let latchLeft := if CNum.lt a.gateHi dev then a.gateLatch else a.latchLeft - 1
  let gateOpen :=
    if a.gateOpen then
      !(CNum.lt dev (CArith.mul a.gateLo (CNum.ofRat (1 / 2))) && latchLeft = 0)
    else CNum.lt a.gateLo dev
  let aBase := a.aBase.zipWith
    (fun b x => CArith.add b (CArith.mul a.gateA (CArith.sub x b))) acc
  (gateOpen, { a with latchLeft := latchLeft, gateOpen := gateOpen, aBase := aBase })

/-- `airmouse_process`: the movement of the pointer. The filtered change is `prev` of the result. -/
def airmouseProcess (a : Airmouse F) (g acc : Vec3 F) : Airmouse F × ℤ × ℤ :=
  let a := if a.gateOn && a.aAbsent && nonzero acc then { a with aBase := acc, aAbsent := false }
    else a
  let (a, out) :=
    if !a.haveRaw then ({ a with rawPrev := g, haveRaw := true }, Vec3.zero)
    else
      let d := g.zipWith CArith.sub a.rawPrev
      let a := { a with rawPrev := g }
      let (isOpen, a) := if a.gateOn && !a.aAbsent then gateDecision a acc else (true, a)
      let decay := a.prev.map (CArith.mul (CArith.sub (CNum.ofRat 1) a.alpha))
      -- a sample behind the gate is absorbed, the filter decays
      (a, if isOpen then (d.map (CArith.mul a.alpha)).zipWith CArith.add decay else decay)
  ({ a with prev := out }, CArith.toInt (CArith.mul (CArith.neg out.z) a.scale),
    CArith.toInt (CArith.mul (CArith.neg out.y) a.scale))

/-- The first sample is the baseline: the movement is that of no change. -/
theorem airmouseProcess_first (a : Airmouse F) (alpha scale : F) (on : Bool) (lo hi : F)
    (g acc : Vec3 F) :
    let r := airmouseProcess (airmouseGateCfg (airmouseInit a alpha scale) on lo hi) g acc
    let still := CArith.toInt (CArith.mul (CArith.neg (CNum.ofRat 0)) scale)
    r.1.rawPrev = g ∧ r.1.prev = .zero ∧ r.2 = (still, still) := by
  unfold airmouseProcess
  cases on <;> cases h : nonzero acc <;>
    simp [airmouseGateCfg, airmouseInit, Vec3.zero]

end

end Pointer
