import LgMagic.Airmouse
import LgMagic.Lib.FixedPoint
import LgMagic.Lib.Strtod

/-!
# Recordings of an IMU

`csv_read` and `csv_write` of `csv.c`. A recording has a header and a row for each sample, of eight
numbers with commas between them; the time step may be empty. The reader skips the rows that it
cannot read, and stops at the first NUL.

* `ImuSample`, `csvWrite`, `csvRead`: the functions;
* `takeFields_eq`: the loop that splits a row takes its fields while there is room;
* `csvRead_eq_filterMap`: the samples of a text without NUL are those of its lines.
-/

namespace Csv

open Binary64 CString Pointer Printf

/-- `struct imu_sample` -/
structure ImuSample where
  counter : UInt32
  dt : Double
  accel : Vec3 Double
  gyro : Vec3 Double
  deriving DecidableEq

/-! ## Writing -/

/-- The comma. -/
def comma : UInt8 := 0x2C

/-- The end of a line. -/
def newline : UInt8 := 0x0A

/-- The header. -/
def header : Bytes := ascii "counter,dt,ax,ay,az,gx,gy,gz\r\n"

/-- The text of a time step; `dtbuf` holds `31` bytes. -/
def dtText (dt : Double) : Bytes := if dt = .nan then [] else (fmtG 9 dt).take 31

/-- The row of a sample. -/
def csvRow (s : ImuSample) : Bytes :=
  printInt s.counter.toNat ++ comma :: dtText s.dt ++
    comma :: fmtF 0 s.accel.x ++ comma :: fmtF 0 s.accel.y ++ comma :: fmtF 0 s.accel.z ++
    comma :: fmtF 0 s.gyro.x ++ comma :: fmtF 0 s.gyro.y ++ comma :: fmtF 0 s.gyro.z ++ ascii "\r\n"

/-- The file that `csv_write` leaves when it succeeds. -/
def csvWrite (samples : List ImuSample) : Bytes := header ++ samples.flatMap csvRow

/-! ## Reading -/

/-- What `strtoul` gives. -/
structure IntRead where
  value : UInt64
  erange : Bool
  /-- The unread rest, which is the whole text when there is no number. -/
  rest : Bytes

/-- `strtoul` with the base ten; a number with a minus is negated as unsigned. -/
def strtoul (s : Bytes) : IntRead :=
  let (neg, t) := takeSign (s.dropWhile isSpace)
  let ds := t.takeWhile isDigit
  let rest := t.dropWhile isDigit
  if ds = [] then ⟨0, false, s⟩
  else
    let n := natOfDigits (ds.map digitVal)
    if 2 ^ 64 ≤ n then ⟨.ofNat (2 ^ 64 - 1), true, rest⟩
    else ⟨if neg then -.ofNat n else .ofNat n, false, rest⟩

/-- The counter of a row. -/
def readCounter (field : Bytes) : Option UInt32 :=
  let r := strtoul field
  if r.erange ∨ r.rest = field ∨ r.rest ≠ [] then none else some r.value.toUInt32

/-- A number of a row. -/
def readNumber (field : Bytes) : Option Double :=
  let r := strtod field
  if r.erange ∨ r.rest = field ∨ r.rest ≠ [] then none else some r.value

/-- The time step of a row. -/
def readDt (field : Bytes) : Option Double := if field = [] then some .nan else readNumber field

/-- The loop that splits a row, with the room that is left for fields. -/
def takeFields : ℕ → Bytes → List Bytes
  | 0, _ => []
  | room + 1, p =>
    match p.dropWhile (· ≠ comma) with
    | [] => [p]
    | _ :: rest => p.takeWhile (· ≠ comma) :: takeFields room rest

/-- `CSV_MAX_FIELDS` -/
def csvMaxFields : ℕ := 64

/-- A line without a carriage return at its end. -/
def stripCr (line : Bytes) : Bytes := if line.getLast? = some 0x0D then line.dropLast else line

/-- A sample of the first eight fields. -/
def readFields : List Bytes → Option ImuSample
  | counter :: dt :: ax :: ay :: az :: gx :: gy :: gz :: _ => do
    let counter ← readCounter counter
    let dt ← readDt dt
    let ax ← readNumber ax
    let ay ← readNumber ay
    let az ← readNumber az
    let gx ← readNumber gx
    let gy ← readNumber gy
    let gz ← readNumber gz
    return ⟨counter, dt, ⟨ax, ay, az⟩, ⟨gx, gy, gz⟩⟩
  | _ => none

/-- The sample of a line, if it is not skipped. -/
def readLine (line : Bytes) : Option ImuSample :=
  let line := stripCr line
  if line = [] then none
  else
    let fields := takeFields csvMaxFields line
    if fields.length = csvMaxFields then none else readFields fields

/-- The lines that `strtok_r` gives: those that are not empty, up to the first NUL. -/
def strtokLines (buf : Bytes) : List Bytes :=
  ((buf.takeWhile (· ≠ 0)).splitOn newline).filter (· ≠ [])

/-- `csv_read` on a file that can be read -/
def csvRead (buf : Bytes) : List ImuSample := (strtokLines buf).filterMap readLine

example : csvRead (ascii "counter,dt,ax,ay,az,gx,gy,gz\r\n1,,10,11,12,20,21,22\r\n5\r\n") =
    [⟨1, .nan, ⟨.ofInt 10, .ofInt 11, .ofInt 12⟩, ⟨.ofInt 20, .ofInt 21, .ofInt 22⟩⟩] := by
  decide +kernel

/-! ## Fields and lines -/

/-- The loop takes the fields between the commas while there is room. -/
theorem takeFields_eq (room : ℕ) (p : Bytes) : takeFields room p = (p.splitOn comma).take room := by
  induction room generalizing p with
  | zero => simp [takeFields]
  | succ room ih =>
    rw [takeFields]
    split
    · next h =>
      have hpre : comma ∉ p := fun hc => by
        simpa using List.dropWhile_eq_nil_iff.mp h comma hc
      simp [List.splitOn_eq_singleton hpre]
    · next c rest h =>
      have hpre : comma ∉ p.takeWhile (· ≠ comma) := fun hc => by
        simpa using List.mem_takeWhile_imp hc
      have hc : c = comma := by
        have hnot := List.head?_dropWhile_not (· ≠ comma) p
        rw [h] at hnot
        simpa using hnot
      have hp : p = p.takeWhile (· ≠ comma) ++ comma :: rest := by
        rw [← hc, ← h, hc, List.takeWhile_append_dropWhile]
      conv_rhs => rw [hp, List.splitOn_append_cons_self, List.splitOn_eq_singleton hpre]
      simp [ih]

/-- A line that is empty is skipped. -/
@[simp] theorem readLine_nil : readLine [] = none := rfl

/-- The samples of a text without NUL are those of its lines. -/
theorem csvRead_eq_filterMap {buf : Bytes} (h : 0 ∉ buf) :
    csvRead buf = (buf.splitOn newline).filterMap readLine := by
  have hbuf : buf.takeWhile (· ≠ 0) = buf := by
    rw [List.takeWhile_eq_self_iff]
    intro c hc
    simpa using fun h0 : c = 0 => h (h0 ▸ hc)
  rw [csvRead, strtokLines, hbuf, List.filterMap_filter]
  refine List.filterMap_congr fun line _ => ?_
  by_cases hl : line = []
  · simp [hl]
  · simp [hl]

end Csv
