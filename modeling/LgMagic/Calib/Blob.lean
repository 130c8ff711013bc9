import LgMagic.Calib.Load
import LgMagic.Kernel.PointerRange
import LgMagic.Lib.Interchange
import LgMagic.Lib.WireFormat

/-!
# The firmware blob

The calibration of the gyroscope as the driver reads it: eight numbers of type `float`, stored one
after the other. Both sides check the ranges of the numbers, the tools to warn and the driver to
refuse.

* `Single`, `toFloat`: the type `float`;
* `calibToBlob`, `calibValidateBlob`: part of `calib.c`;
* `blobBytes`, `blobOf`: `struct lgmagic_airmouse_calib` in memory;
* `blobOf_blobBytes`: a blob is read as it was written;
* `lgmagicValidateCalib_eq_zero_iff`: the driver refuses the blobs that the tools warn about.
-/

/-- The type `float`. -/
abbrev Single := Interchange.Value .single

instance : CNum Single where
  ofRat q := .ofRat .single (decide (q < 0)) |q|
  lt := Interchange.Value.lt
  le := Interchange.Value.le

instance : CArith Single where
  neg := Interchange.Value.neg
  add := Interchange.Value.add
  sub x y := x.add y.neg
  mul := Interchange.Value.mul
  toInt := Interchange.Value.toInt

namespace Calibration

open Binary64 CString Interchange Kernel Pointer Printf WireFormat

/-! ## Conversions -/

/-- The conversion of a `double` to `float`. -/
def toFloat : Double → Single
  | .nan => .nan
  | .inf neg => .inf neg
  | .finite x => .ofRat .single x.neg x.mag

/-- The conversion of a `float` to `double`. -/
def toDouble : Single → Double
  | .nan => .nan
  | .inf neg => .inf neg
  | .finite x => .ofRat x.neg x.mag

/-- `calib_to_blob` -/
def calibToBlob (c : Calib Double) (alpha mouseK : Single) : AirmouseCalib Single :=
  ⟨c.gyroBias.map toFloat, c.gyroScale.map toFloat, alpha, mouseK⟩

/-! ## The check of the tools -/

/-- A warning of `calib_validate_blob`. -/
def rangeWarning (field : String) (x : Single) : Bytes :=
  ascii "warning: " ++ ascii field ++ ascii " out of range (" ++ fmtG 6 (toDouble x) ++ ascii ")\n"

/-- A number whose magnitude is over a limit. -/
def warnOver (limit : ℚ) (field : String) (x : Single) : List Bytes :=
  if CNum.lt (CNum.ofRat limit) x.abs then [rangeWarning field x] else []

/-- A number that is not between zero and one. -/
def warnOutside (field : String) (x : Single) : List Bytes :=
  if CNum.lt x (CNum.ofRat 0) || CNum.lt (CNum.ofRat 1) x then [rangeWarning field x] else []

/-- `calib_validate_blob`: the result and the warnings. -/
def calibValidateBlob (blob : AirmouseCalib Single) : ℤ × List Bytes :=
  let warnings :=
    warnOver 100 "gyro_bias[0]" blob.gyroBias.x ++ warnOver 10 "gyro_scale[0]" blob.gyroScale.x ++
    warnOver 100 "gyro_bias[1]" blob.gyroBias.y ++ warnOver 10 "gyro_scale[1]" blob.gyroScale.y ++
    warnOver 100 "gyro_bias[2]" blob.gyroBias.z ++ warnOver 10 "gyro_scale[2]" blob.gyroScale.z ++
    warnOutside "alpha" blob.alpha ++ warnOutside "mouse_k" blob.mouseK
  (if warnings = [] then 0 else -1, warnings)

/-! ## Memory -/

/-- A number in memory. -/
def floatBytes (x : Single) : Bytes := le 4 x.toWord

/-- The members of `struct lgmagic_airmouse_calib`, in their order. -/
def blobMembers (blob : AirmouseCalib Single) : List Single :=
  [blob.gyroBias.x, blob.gyroBias.y, blob.gyroBias.z, blob.gyroScale.x, blob.gyroScale.y,
    blob.gyroScale.z, blob.alpha, blob.mouseK]

/-- The bytes of `struct lgmagic_airmouse_calib`. -/
def blobBytes (blob : AirmouseCalib Single) : Bytes := (blobMembers blob).flatMap floatBytes

/-- The number with an index in a buffer of numbers. -/
def floatAt (b : Bytes) (i : ℕ) : Single := Value.ofWord .single (ofLe ((b.drop (4 * i)).take 4))

/-- `struct lgmagic_airmouse_calib` at the start of a buffer. -/
def blobOf (b : Bytes) : AirmouseCalib Single :=
  ⟨⟨floatAt b 0, floatAt b 1, floatAt b 2⟩, ⟨floatAt b 3, floatAt b 4, floatAt b 5⟩, floatAt b 6,
    floatAt b 7⟩

/-- `sizeof(struct lgmagic_airmouse_calib)` -/
def blobSize : ℕ := 32

@[simp]
theorem length_floatBytes (x : Single) : (floatBytes x).length = 4 := length_le 4 _

theorem length_blobBytes (blob : AirmouseCalib Single) : (blobBytes blob).length = blobSize := by
  simp [blobBytes, blobMembers, blobSize]

/-- A number is read as it was written. -/
theorem ofLe_floatBytes (x : Single) : Value.ofWord .single (ofLe (floatBytes x)) = x := by
  have hword : x.toWord < 256 ^ 4 := x.toWord_lt
  rw [floatBytes, ofLe_le, Nat.mod_eq_of_lt hword, Value.ofWord_toWord]

/-- Each of several numbers is read as it was written. -/
theorem floatAt_flatMap {xs : List Single} {i : ℕ} {x : Single} (h : xs[i]? = some x) (rest : Bytes) :
    floatAt (xs.flatMap floatBytes ++ rest) i = x := by
  induction xs generalizing i with
  | nil => cases h
  | cons y ys ih =>
    rw [List.flatMap_cons, List.append_assoc, floatAt]
    cases i with
    | zero =>
      obtain rfl : y = x := Option.some.inj h
      rw [Nat.mul_zero, List.drop_zero, List.take_left' (length_floatBytes y), ofLe_floatBytes]
    | succ i =>
      rw [show 4 * (i + 1) = 4 + 4 * i by omega, ← List.drop_drop,
        List.drop_left' (length_floatBytes y)]
      exact ih h

/-- A blob is read as it was written, whatever stands behind it. -/
theorem blobOf_blobBytes (blob : AirmouseCalib Single) (rest : Bytes) :
    blobOf (blobBytes blob ++ rest) = blob := by
  have hmember {i : ℕ} {x : Single} (h : (blobMembers blob)[i]? = some x) :
      floatAt (blobBytes blob ++ rest) i = x := floatAt_flatMap h rest
  rw [blobOf, hmember (i := 0) rfl, hmember (i := 1) rfl, hmember (i := 2) rfl,
    hmember (i := 3) rfl, hmember (i := 4) rfl, hmember (i := 5) rfl, hmember (i := 6) rfl,
    hmember (i := 7) rfl]

/-! ## The two checks -/

/-- The driver and the math library take magnitudes differently, and no limit sees it. -/
theorem lt_lgmagicFabs {limit : Single} (hlimit : CNum.lt limit (CNum.ofRat 0) = false) (x : Single) :
    CNum.lt limit (lgmagicFabs x) = CNum.lt limit x.abs := by
  have hzero : (CNum.ofRat 0 : Single) = .zero .single false := by decide +kernel
  rw [lgmagicFabs, hzero]
  exact Value.lt_abs (hzero ▸ hlimit) x

/-- The driver refuses exactly the blobs that the tools warn about. -/
theorem lgmagicValidateCalib_eq_zero_iff (blob : AirmouseCalib Single) :
    lgmagicValidateCalib blob = 0 ↔ (calibValidateBlob blob).1 = 0 := by
  have h100 : CNum.lt (CNum.ofRat 100 : Single) (CNum.ofRat 0) = false := by decide +kernel
  have h10 : CNum.lt (CNum.ofRat 10 : Single) (CNum.ofRat 0) = false := by decide +kernel
  have hover {limit : ℚ} {field : String} {x : Single} :
      warnOver limit field x = [] ↔ CNum.lt (CNum.ofRat limit) x.abs = false := by
    simp [warnOver]
  have houtside {field : String} {x : Single} : warnOutside field x = [] ↔
      (CNum.lt x (CNum.ofRat 0) || CNum.lt (CNum.ofRat 1) x) = false := by
    simp [warnOutside]
  simp only [lgmagicValidateCalib, lt_lgmagicFabs h100, lt_lgmagicFabs h10, calibValidateBlob,
    List.append_eq_nil_iff, hover, houtside]
  grind

end Calibration
