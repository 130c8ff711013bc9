import LgMagic.Airmouse
import LgMagic.Lib.CMath

/-!
# The orientation filter

The filter of `madgwick.c` over a field with the functions of `math.h`, with the seed, the matrix and
the angles of `matrix.c` and the loop of `cmd_imu.c`. A division by zero ends the run.

* `accelToQuat`: the orientation that the first frame gives;
* `madgwickUpdateImu`: a step, by way of `rate`, `objective`, `gradient` and `feedback`;
* `filterRun`: the states of a run over frames;
* `quatToMat3`, `quatToEuler`: the matrix and the angles of an orientation.
-/

namespace Orientation

open Pointer

/-- `quat` -/
structure Quat (K : Type) where
  w : K
  x : K
  y : K
  z : K
  deriving DecidableEq

/-- `struct madgwick_state` -/
structure MadgwickState (K : Type) where
  beta : K
  sampleFreq : K
  /-- `qw`, `qx`, `qy` and `qz` -/
  cur : Quat K
  /-- The last result. -/
  q : Quat K
  deriving DecidableEq

/-- The corrected values of a frame. -/
structure ImuFrame (K : Type) where
  gyro : Vec3 K
  accel : Vec3 K
  deriving DecidableEq

section

variable {K : Type} [Field K] [LinearOrder K] [CMath K]

/-! ## The seed -/

/-- `vec3_norm` -/
def vec3Norm (a : Vec3 K) : K := norm3 a.x a.y a.z

/-- The length of a quaternion. -/
def quatNorm (q : Quat K) : K := norm4 q.w q.x q.y q.z

/-- A vector with each component divided. -/
def vec3Over (a : Vec3 K) (n : K) : Option (Vec3 K) := do
  return ⟨← checkedDiv a.x n, ← checkedDiv a.y n, ← checkedDiv a.z n⟩

/-- A quaternion with each component divided. -/
def quatOver (q : Quat K) (n : K) : Option (Quat K) := do
  return ⟨← checkedDiv q.w n, ← checkedDiv q.x n, ← checkedDiv q.y n, ← checkedDiv q.z n⟩

/-- `accel_to_quat` -/
def accelToQuat (a : Vec3 K) : Option (Quat K) := do
  let a ← vec3Over a (vec3Norm a)
  let roll := CMath.atan2 a.y a.z
  let pitch := CMath.atan2 (-a.x) (CMath.sqrt (a.y * a.y + a.z * a.z))
  let cr := CMath.cos (roll / 2)
  let sr := CMath.sin (roll / 2)
  let cp := CMath.cos (pitch / 2)
  let sp := CMath.sin (pitch / 2)
  return ⟨cr * cp, sr * cp, cr * sp, -sr * sp⟩

/-! ## The filter -/

/-- `madgwick_init` -/
def madgwickInit (beta sampleFreq : K) (q0 : Quat K) : MadgwickState K :=
  ⟨beta, sampleFreq, q0, q0⟩

/-- The change of the orientation that the gyroscope gives. -/
def rate (q : Quat K) (g : Vec3 K) : Quat K where
  w := 1 / 2 * (-q.x * g.x - q.y * g.y - q.z * g.z)
  x := 1 / 2 * (q.w * g.x + q.y * g.z - q.z * g.y)
  y := 1 / 2 * (q.w * g.y - q.x * g.z + q.z * g.x)
  z := 1 / 2 * (q.w * g.z + q.x * g.y - q.y * g.x)

/-- The objective function. -/
def objective (n : Quat K) (a : Vec3 K) : Vec3 K where
  x := 2 * (n.x * n.z - n.w * n.y) - a.x
  y := 2 * (n.w * n.x + n.y * n.z) - a.y
  z := 2 * (1 / 2 - n.x * n.x - n.y * n.y) - a.z

/-- The gradient of the objective. -/
def gradient (n : Quat K) (f : Vec3 K) : Quat K where
  w := -2 * n.y * f.x + 2 * n.x * f.y
  x := 2 * n.z * f.x + 2 * n.w * f.y + -4 * n.x * f.z
  y := -2 * n.w * f.x + 2 * n.z * f.y + -4 * n.y * f.z
  z := 2 * n.x * f.x + 2 * n.y * f.y

/-- What the accelerometer changes in a rate. The lengths of the accelerometer and of the objective
are looked at before they divide, those of the quaternion and of the gradient are not. -/
def feedback (beta : K) (q : Quat K) (a : Vec3 K) (qd : Quat K) : Option (Quat K) :=
  if 0 < vec3Norm a then do
    let a ← vec3Over a (vec3Norm a)
    let n ← quatOver q (quatNorm q)
    let f := objective n a
    if 0 < vec3Norm f then do
      let g := gradient n f
      let g ← quatOver g (quatNorm g)
      return ⟨qd.w - beta * g.w, qd.x - beta * g.x, qd.y - beta * g.y, qd.z - beta * g.z⟩
    else return qd
  else return qd

/-- A quaternion after a time of a rate. -/
def advance (q qd : Quat K) (dt : K) : Quat K :=
  ⟨q.w + qd.w * dt, q.x + qd.x * dt, q.y + qd.y * dt, q.z + qd.z * dt⟩

/-- `madgwick_update_imu` -/
def madgwickUpdateImu (st : MadgwickState K) (g a : Vec3 K) : Option (MadgwickState K) := do
  let dt ← checkedDiv 1 st.sampleFreq
  if g.x = 0 ∧ g.y = 0 ∧ g.z = 0 then return { st with q := st.cur }
  else
    let qd ← feedback st.beta st.cur a (rate st.cur g)
    let q := advance st.cur qd dt
    let q ← quatOver q (quatNorm q)
    return { st with cur := q, q := q }

/-! ## A run -/

/-- The states after each of some frames. -/
def filterFrom (st : MadgwickState K) : List (ImuFrame K) → Option (List (MadgwickState K))
  | [] => some []
  | frame :: frames => do
    let st' ← madgwickUpdateImu st frame.gyro frame.accel
    let sts ← filterFrom st' frames
    return st' :: sts

/-- The loop of `cmd_imu`: the first frame gives the seed, and is then a step like the others. -/
def filterRun (beta sampleFreq : K) : List (ImuFrame K) → Option (List (MadgwickState K))
  | [] => some []
  | frame :: frames => do
    let q0 ← accelToQuat frame.accel
    let st := madgwickInit beta sampleFreq q0
    let sts ← filterFrom st (frame :: frames)
    return st :: sts

end

/-! ## The matrix and the angles -/

/-- A roll, a pitch and a yaw. -/
structure Angles (K : Type) where
  roll : K
  pitch : K
  yaw : K

section

variable {K : Type} [Field K]

/-- `quat_to_mat3` -/
def quatToMat3 (q : Quat K) : Vec3 (Vec3 K) where
  x := ⟨1 - 2 * (q.y * q.y + q.z * q.z), 2 * (q.x * q.y - q.w * q.z), 2 * (q.x * q.z + q.w * q.y)⟩
  y := ⟨2 * (q.x * q.y + q.w * q.z), 1 - 2 * (q.x * q.x + q.z * q.z), 2 * (q.y * q.z - q.w * q.x)⟩
  z := ⟨2 * (q.x * q.z - q.w * q.y), 2 * (q.w * q.x + q.y * q.z), 1 - 2 * (q.x * q.x + q.y * q.y)⟩

/-- `mat3_mul_vec3` -/
def mulVec3 (m : Vec3 (Vec3 K)) (v : Vec3 K) : Vec3 K :=
  m.map fun row => row.x * v.x + row.y * v.y + row.z * v.z

variable [LinearOrder K] [CMath K] [CAtan K]

/-- `atan(a / b)`, where a division by zero gives an infinity of the sign of `a`. -/
def atanOver (a b : K) : K :=
  if b = 0 then if a < 0 then -(CAtan.pi / 2) else CAtan.pi / 2 else CAtan.atan (a / b)

/-- `quat_to_euler` -/
def quatToEuler (q : Quat K) : Angles K :=
  if 1 - q.w - q.x + (-q.y - q.z) = 0 then ⟨0, 0, 0⟩
  else
    let r00 := 2 * q.w * q.w - 1 + 2 * q.x * q.x
    let r10 := 2 * (q.x * q.y - q.w * q.z)
    let r20 := 2 * (q.x * q.z + q.w * q.y)
    let r21 := 2 * (q.y * q.z - q.w * q.x)
    let r22 := 2 * q.w * q.w - 1 + 2 * q.z * q.z
    let d := if 1 - r20 * r20 < 0 then 0 else 1 - r20 * r20
    ⟨CMath.atan2 r21 r22, -atanOver r20 (CMath.sqrt d), CMath.atan2 r10 r00⟩

end

end Orientation
