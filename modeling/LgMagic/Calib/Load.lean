import LgMagic.Airmouse
import LgMagic.UserConfig.Migrate

/-!
# Loading a calibration

`calib_load` of `calib.c` starts with the identity and reads four members of a JSON file, with the
accessors of `json.c` that read a vector or a matrix into the place where it is kept. An accessor
stops at the first element of another type, and what it has read by then stays.

* `Reader`: reading a value into a place that holds another, with what it means;
* `jsonGetFloat3`, `jsonGetMat3`, `calibLoad`: the functions;
* `WholeOrDefault`: each of the four is complete or the default;
* `wholeOrDefault_iff`: when they are.
-/

namespace Calibration

open Binary64 CString Json Pointer Printf UserConfig

/-! ## Readers -/

variable {α : Type}

/-- The end of a loop over three elements: each is read into its place until one cannot be read. -/
def readThree (read : JsonValue → α → Bool × α) (v : JsonValue) (out : Vec3 α) : Bool × Vec3 α :=
  match v with
  | .arr [a, b, c] =>
    match read a out.x with
    | (false, x) => (false, ⟨x, out.y, out.z⟩)
    | (true, x) =>
      match read b out.y with
      | (false, y) => (false, ⟨x, y, out.z⟩)
      | (true, y) =>
        let (ok, z) := read c out.z
        (ok, ⟨x, y, z⟩)
  | _ => (false, out)

/-- The element of a vector: a number. -/
def readNum : JsonValue → Double → Bool × Double
  | .num d, _ => (true, d)
  | _, out => (false, out)

/-- The value is an array of three that are written. -/
def ThreeIs (is : JsonValue → α → Prop) : JsonValue → Vec3 α → Prop
  | .arr [a, b, c], x => is a x.x ∧ is b x.y ∧ is c x.z
  | _, _ => False

/-- The value is a number. -/
def NumIs : JsonValue → Double → Prop
  | .num d, x => d = x
  | _, _ => False

/-- Up to the first element of another type the value has what is there already. -/
def ThreeAgrees (is agrees : JsonValue → α → Prop) : JsonValue → Vec3 α → Prop
  | .arr [a, b, c], x =>
    agrees a x.x ∧ ((∃ x, is a x) → agrees b x.y ∧ ((∃ y, is b y) → agrees c x.z))
  | _, _ => True

/-- The value is the number that is there already, or no number. -/
def NumAgrees : JsonValue → Double → Prop
  | .num d, x => d = x
  | _, _ => True

/-- Reading a value into a place. -/
structure Reader (α : Type) where
  read : JsonValue → α → Bool × α
  /-- The value is written completely. -/
  is : JsonValue → α → Prop
  /-- What is read before a failure is there already. -/
  agrees : JsonValue → α → Prop
  is_iff (v : JsonValue) (out x : α) : is v x ↔ read v out = (true, x)
  agrees_iff (v : JsonValue) (out : α) : agrees v out ↔ (read v out).2 = out

namespace Reader

/-- A number. -/
def num : Reader Double where
  read := readNum
  is := NumIs
  agrees := NumAgrees
  is_iff v out x := by cases v <;> simp [NumIs, readNum]
  agrees_iff v out := by cases v <;> simp [NumAgrees, readNum]

section

variable (r : Reader α) {v : JsonValue} {out x : α} {ok : Bool}

/-- Reading succeeds exactly with a value that is written completely. -/
theorem exists_is_iff (h : r.read v out = (ok, x)) : (∃ y, r.is v y) ↔ ok = true := by
  constructor
  · rintro ⟨y, hy⟩
    rw [(r.is_iff v out y).mp hy] at h
    exact (congrArg Prod.fst h).symm
  · rintro rfl
    exact ⟨x, (r.is_iff v out x).mpr h⟩

theorem is_iff_of_read (h : r.read v out = (ok, x)) (y : α) : r.is v y ↔ ok = true ∧ x = y := by
  rw [r.is_iff v out y, h, Prod.mk.injEq]

theorem agrees_iff_of_read (h : r.read v out = (ok, x)) : r.agrees v out ↔ x = out := by
  rw [r.agrees_iff v out, h]

end

/-- Three of a kind. -/
def three (r : Reader α) : Reader (Vec3 α) where
  read := readThree r.read
  is := ThreeIs r.is
  agrees := ThreeAgrees r.is r.agrees
  is_iff v out x := by
    obtain ⟨outx, outy, outz⟩ := out
    unfold ThreeIs readThree
    split
    · rename_i a b c
      obtain ⟨xx, xy, xz⟩ := x
      rcases ha : r.read a outx with ⟨oka, xa⟩
      rcases hb : r.read b outy with ⟨okb, xb⟩
      rcases hc : r.read c outz with ⟨okc, xc⟩
      rw [r.is_iff_of_read ha, r.is_iff_of_read hb, r.is_iff_of_read hc]
      cases oka <;> cases okb <;> simp [ha, hb, hc, and_left_comm]
    · simp
  agrees_iff v out := by
    obtain ⟨outx, outy, outz⟩ := out
    unfold ThreeAgrees readThree
    split
    · rename_i a b c
      rcases ha : r.read a outx with ⟨oka, xa⟩
      rcases hb : r.read b outy with ⟨okb, xb⟩
      rcases hc : r.read c outz with ⟨okc, xc⟩
      rw [r.exists_is_iff ha, r.exists_is_iff hb, r.agrees_iff_of_read ha, r.agrees_iff_of_read hb,
        r.agrees_iff_of_read hc]
      cases oka <;> cases okb <;> simp [ha, hb, hc]
    · simp

/-- Three elements are read as given exactly when each of them is written, if no element that is not
written is read as given. -/
theorem snd_three_eq_iff (r : Reader α) {a b c : JsonValue} {out t : Vec3 α}
    (ha : (r.read a out.x).2 = t.x ↔ r.is a t.x) (hb : (r.read b out.y).2 = t.y ↔ r.is b t.y)
    (hc : (r.read c out.z).2 = t.z ↔ r.is c t.z) :
    ((three r).read (.arr [a, b, c]) out).2 = t ↔ r.is a t.x ∧ r.is b t.y ∧ r.is c t.z := by
  constructor
  · intro h
    obtain ⟨outx, outy, outz⟩ := out
    obtain ⟨tx, ty, tz⟩ := t
    rcases hreada : r.read a outx with ⟨oka, xa⟩
    rcases hreadb : r.read b outy with ⟨okb, xb⟩
    rcases hreadc : r.read c outz with ⟨okc, xc⟩
    rw [hreada] at ha
    rw [hreadb] at hb
    rw [hreadc] at hc
    simp only [three, readThree, hreada, hreadb, hreadc] at h
    -- an element that is not written would not be read as given
    cases oka with
    | false =>
      have hwritten := (r.is_iff_of_read hreada tx).mp (ha.mp (congrArg Vec3.x h))
      cases hwritten.1
    | true =>
      cases okb with
      | false =>
        have hwritten := (r.is_iff_of_read hreadb ty).mp (hb.mp (congrArg Vec3.y h))
        cases hwritten.1
      | true =>
        exact ⟨ha.mp (congrArg Vec3.x h), hb.mp (congrArg Vec3.y h), hc.mp (congrArg Vec3.z h)⟩
  · intro h
    have his : (three r).is (.arr [a, b, c]) t := h
    rw [((three r).is_iff _ out t).mp his]

/-- Reading into a place that holds a default, where there may be no value. -/
def readOr (r : Reader α) (v : Option JsonValue) (out : α) : α :=
  v.elim out fun v => (r.read v out).2

/-- The place holds the value completely or still the default, exactly when the value is complete or
has the default up to the first element of another type. -/
theorem readOr_whole_iff (r : Reader α) (v : Option JsonValue) (out : α) :
    ((∃ v' ∈ v, r.is v' (r.readOr v out)) ∨ r.readOr v out = out) ↔
      ∀ v' ∈ v, (∃ x, r.is v' x) ∨ r.agrees v' out := by
  cases v with
  | none => simp [readOr]
  | some v =>
    rcases hread : r.read v out with ⟨ok, x⟩
    have hor : r.readOr (some v) out = x := congrArg Prod.snd hread
    simp only [Option.mem_some_iff, exists_eq_left', forall_eq', hor]
    rw [r.is_iff_of_read hread, r.exists_is_iff hread, r.agrees_iff_of_read hread,
      and_iff_left rfl]

end Reader

/-- A vector of numbers. -/
def vec3Reader : Reader (Vec3 Double) := .three .num

/-- A matrix of numbers, row by row. -/
def mat3Reader : Reader (Vec3 (Vec3 Double)) := .three vec3Reader

/-! ## The accessors -/

/-- `json_obj_get` -/
def jsonObjGet (obj : JsonValue) (key : CStr) : Option JsonValue :=
  match obj with
  | .obj members => Assoc.get members key
  | _ => none

/-- What `json_get_float3` and `json_get_mat3` have in common: the result, and the place afterwards. -/
def jsonGetInto (read : JsonValue → α → Bool × α) (obj : JsonValue) (key : CStr) (out : α) : ℤ × α :=
  match jsonObjGet obj key with
  | none => (-1, out)
  | some v =>
    let (ok, out) := read v out
    (if ok then 0 else -1, out)

/-- `json_get_float3` -/
def jsonGetFloat3 (obj : JsonValue) (key : CStr) (out : Vec3 Double) : ℤ × Vec3 Double :=
  jsonGetInto (readThree readNum) obj key out

/-- `json_get_mat3` -/
def jsonGetMat3 (obj : JsonValue) (key : CStr) (out : Vec3 (Vec3 Double)) :
    ℤ × Vec3 (Vec3 Double) :=
  jsonGetInto (readThree (readThree readNum)) obj key out

/-! ## The load -/

/-- The member `accel`. -/
def loadAccel (root : JsonValue) (c : Calib Double) : Calib Double :=
  match jsonObjGet root (.lit "accel") with
  | some (.obj members) =>
    { c with
      accelBias := (jsonGetFloat3 (.obj members) (.lit "bias") c.accelBias).2
      accelMatrix := (jsonGetMat3 (.obj members) (.lit "matrix") c.accelMatrix).2 }
  | _ => c

/-- The member `gyro`. -/
def loadGyro (root : JsonValue) (c : Calib Double) : Calib Double :=
  match jsonObjGet root (.lit "gyro") with
  | some (.obj members) =>
    { c with
      gyroBias := (jsonGetFloat3 (.obj members) (.lit "bias") c.gyroBias).2
      gyroScale := (jsonGetFloat3 (.obj members) (.lit "scale") c.gyroScale).2 }
  | _ => c

/-- `calib_load`; the callers do not use the calibration of a load that fails. -/
def calibLoad (w : World) (path : CStr) : Except Bytes (Calib Double) :=
  match jsonLoadFile (w.file path) with
  | .error (perr, eoff) =>
    .error (path.val ++ ascii ": " ++ perr ++ ascii " (byte " ++ printInt eoff ++ ascii ")")
  | .ok (.obj members) => .ok (loadGyro (.obj members) (loadAccel (.obj members) calibInitIdentity))
  | .ok _ => .error (path.val ++ ascii ": root is not a JSON object")

/-! ## What is loaded -/

/-- A member of a member of the file. -/
def memberOf (root : JsonValue) (part key : CStr) : Option JsonValue :=
  (jsonObjGet root part).bind (jsonObjGet · key)

/-- A calibration whose fields are each the complete value of the file or the default. -/
structure WholeOrDefault (root : JsonValue) (c : Calib Double) : Prop where
  accelBias : (∃ v ∈ memberOf root (.lit "accel") (.lit "bias"), ThreeIs NumIs v c.accelBias) ∨
    c.accelBias = calibInitIdentity.accelBias
  accelMatrix : (∃ v ∈ memberOf root (.lit "accel") (.lit "matrix"), ThreeIs (ThreeIs NumIs) v c.accelMatrix) ∨
    c.accelMatrix = calibInitIdentity.accelMatrix
  gyroBias : (∃ v ∈ memberOf root (.lit "gyro") (.lit "bias"), ThreeIs NumIs v c.gyroBias) ∨
    c.gyroBias = calibInitIdentity.gyroBias
  gyroScale : (∃ v ∈ memberOf root (.lit "gyro") (.lit "scale"), ThreeIs NumIs v c.gyroScale) ∨
    c.gyroScale = calibInitIdentity.gyroScale

/-- Every calibration that is loaded from a path is complete or the default, field by field. -/
def LoadsWhole (w : World) (path : CStr) : Prop :=
  ∀ root c, jsonLoadFile (w.file path) = .ok root → calibLoad w path = .ok c → WholeOrDefault root c

/-- A member is complete, or has the default up to its first element of another type. -/
def MemberWhole (r : Reader α) (default : α) (v : Option JsonValue) : Prop :=
  ∀ v' ∈ v, (∃ x, r.is v' x) ∨ r.agrees v' default

theorem jsonGetInto_snd (r : Reader α) (obj : JsonValue) (key : CStr) (out : α) :
    (jsonGetInto r.read obj key out).2 = r.readOr (jsonObjGet obj key) out := by
  rw [jsonGetInto]
  cases jsonObjGet obj key <;> rfl

/-- A part that is an object is read member by member, any other is left out. -/
theorem loadAccel_eq (root : JsonValue) (c : Calib Double) :
    loadAccel root c =
      { c with
        accelBias := vec3Reader.readOr (memberOf root (.lit "accel") (.lit "bias")) c.accelBias
        accelMatrix := mat3Reader.readOr (memberOf root (.lit "accel") (.lit "matrix"))
          c.accelMatrix } := by
  rw [loadAccel, memberOf, memberOf]
  cases jsonObjGet root (.lit "accel") with
  | none => rfl
  | some part =>
    cases part with
    | obj members =>
      simp only [jsonGetFloat3, jsonGetMat3, Option.bind_some]
      rw [← jsonGetInto_snd, ← jsonGetInto_snd]
      rfl
    | null | bool | num | str | arr => rfl

theorem loadGyro_eq (root : JsonValue) (c : Calib Double) :
    loadGyro root c =
      { c with
        gyroBias := vec3Reader.readOr (memberOf root (.lit "gyro") (.lit "bias")) c.gyroBias
        gyroScale := vec3Reader.readOr (memberOf root (.lit "gyro") (.lit "scale")) c.gyroScale } := by
  rw [loadGyro, memberOf, memberOf]
  cases jsonObjGet root (.lit "gyro") with
  | none => rfl
  | some part =>
    cases part with
    | obj members =>
      simp only [jsonGetFloat3, Option.bind_some]
      rw [← jsonGetInto_snd, ← jsonGetInto_snd]
      rfl
    | null | bool | num | str | arr => rfl

/-- An object is loaded member by member over the identity. -/
theorem calibLoad_eq_ok {w : World} {path : CStr} {members : List (CStr × JsonValue)}
    (h : jsonLoadFile (w.file path) = .ok (.obj members)) :
    calibLoad w path = .ok
      ⟨vec3Reader.readOr (memberOf (.obj members) (.lit "accel") (.lit "bias"))
          calibInitIdentity.accelBias,
        mat3Reader.readOr (memberOf (.obj members) (.lit "accel") (.lit "matrix"))
          calibInitIdentity.accelMatrix,
        vec3Reader.readOr (memberOf (.obj members) (.lit "gyro") (.lit "bias"))
          calibInitIdentity.gyroBias,
        vec3Reader.readOr (memberOf (.obj members) (.lit "gyro") (.lit "scale"))
          calibInitIdentity.gyroScale⟩ := by
  rw [calibLoad, h]
  simp only [loadGyro_eq, loadAccel_eq]

/-- The document is an object, if it is accepted. -/
theorem root_of_calibLoad {w : World} {path : CStr} {root : JsonValue} {c : Calib Double}
    (hroot : jsonLoadFile (w.file path) = .ok root) (h : calibLoad w path = .ok c) :
    ∃ members, root = .obj members := by
  rw [calibLoad, hroot] at h
  cases root with
  | obj members => exact ⟨members, rfl⟩
  | null | bool | num | str | arr => cases h

/-- For every file: the four fields of what is loaded are each complete or the default, exactly when
each of the four members is complete or has the default up to its first element of another type. -/
theorem loadsWhole_iff (w : World) (path : CStr) : LoadsWhole w path ↔
    ∀ members, jsonLoadFile (w.file path) = .ok (.obj members) →
      let root := JsonValue.obj members
      MemberWhole vec3Reader calibInitIdentity.accelBias (memberOf root (.lit "accel") (.lit "bias")) ∧
      MemberWhole mat3Reader calibInitIdentity.accelMatrix
        (memberOf root (.lit "accel") (.lit "matrix")) ∧
      MemberWhole vec3Reader calibInitIdentity.gyroBias (memberOf root (.lit "gyro") (.lit "bias")) ∧
      MemberWhole vec3Reader calibInitIdentity.gyroScale
        (memberOf root (.lit "gyro") (.lit "scale")) := by
  have hvec (v : Option JsonValue) (out : Vec3 Double) := vec3Reader.readOr_whole_iff v out
  have hmat (v : Option JsonValue) (out : Vec3 (Vec3 Double)) := mat3Reader.readOr_whole_iff v out
  constructor
  · intro h members hload
    obtain ⟨haccelBias, haccelMatrix, hgyroBias, hgyroScale⟩ := h _ _ hload (calibLoad_eq_ok hload)
    exact ⟨(hvec _ _).mp haccelBias, (hmat _ _).mp haccelMatrix, (hvec _ _).mp hgyroBias,
      (hvec _ _).mp hgyroScale⟩
  · intro h root c hload hc
    obtain ⟨members, rfl⟩ := root_of_calibLoad hload hc
    rw [calibLoad_eq_ok hload] at hc
    cases hc
    obtain ⟨haccelBias, haccelMatrix, hgyroBias, hgyroScale⟩ := h members hload
    exact ⟨(hvec _ _).mpr haccelBias, (hmat _ _).mpr haccelMatrix, (hvec _ _).mpr hgyroBias,
      (hvec _ _).mpr hgyroScale⟩

/-- A world with one file. -/
def oneFile (path : CStr) (text : Bytes) : World where
  file := fun p => if p = path then .text text else .absent
  home := none
  configRoot := none

/-- A bias whose third element is a text. -/
def partialText : Bytes := ascii "\x7b\"accel\": \x7b\"bias\": [1, 2, \"x\"]\x7d\x7d"

/-- Two elements of the bias are loaded, the third keeps its default. -/
theorem partialText_not_loadsWhole : ¬ ∀ w path, LoadsWhole w path := by
  intro h
  let w := oneFile (.lit "calib.json") partialText
  have hmixed : (calibLoad w (.lit "calib.json")).toOption.map (·.accelBias) =
      some ⟨CNum.ofRat 1, CNum.ofRat 2, CNum.ofRat 0⟩ := by decide +kernel
  have hpartial : ((jsonLoadFile (w.file (.lit "calib.json"))).toOption.bind fun root =>
      (memberOf root (.lit "accel") (.lit "bias")).map fun v => (vec3Reader.read v .zero).1) =
        some false := by decide +kernel
  cases hload : jsonLoadFile (w.file (.lit "calib.json")) with
  | error e =>
    rw [hload] at hpartial
    cases hpartial
  | ok root =>
    cases hc : calibLoad w (.lit "calib.json") with
    | error e =>
      rw [hc] at hmixed
      cases hmixed
    | ok c =>
      rw [hload] at hpartial
      rw [hc] at hmixed
      obtain hbias : c.accelBias = _ := Option.some.inj hmixed
      -- the bias of the file is too short to be read, and the loaded one is not the default
      rcases (h w _ root c hload hc).accelBias with ⟨v, hv, his⟩ | hdefault
      · obtain hv : memberOf root (.lit "accel") (.lit "bias") = some v := hv
        have hread : (vec3Reader.read v .zero).1 = true :=
          (vec3Reader.exists_is_iff (Prod.eta _)).mp ⟨_, his⟩
        have hshort : (memberOf root (.lit "accel") (.lit "bias")).map
          (fun v => (vec3Reader.read v .zero).1) = some false := hpartial
        rw [hv, Option.map_some, hread] at hshort
        cases hshort
      · exact absurd (hbias.symm.trans hdefault) (by decide +kernel)

end Calibration
