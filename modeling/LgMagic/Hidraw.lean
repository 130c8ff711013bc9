import LgMagic.Remote
import LgMagic.UserConfig.Migrate

/-!
# The report printer

`hidraw.c`: `lgmagic analyze` reads reports and prints them. It reads the report ID with one call and
the payload with others. A read on a hidraw device takes a whole report and drops what does not fit, so
the call for the ID uses up a report: what is printed is every second one, and that one in full, decoded
as the driver decodes it.

* `parseFd`, `parseF9`, `parse01`: the printed lines;
* `Device`, `readPayload`, `hidrawRun`: the loop, for any behaviour of `read`;
* `messages`: a hidraw device;
* `hidrawRun_messages`: what is printed of the reports of a remote.
-/

namespace Hidraw

open CString Kernel Printf Remote UserConfig

/-! ## Texts -/

/-- The digits of `%x` and `%X`. -/
def hexByte (upper : Bool) (d : ℕ) : UInt8 :=
  UInt8.ofNat (if d < 10 then 0x30 + d else (if upper then 0x41 else 0x61) + (d - 10))

/-- `%x` and `%X` -/
def printHex (upper : Bool) (n : ℕ) : Bytes :=
  if n = 0 then [0x30] else ((Nat.digits 16 n).reverse.map (hexByte upper))

/-- A text filled up from the left. -/
def padLeft (c : UInt8) (width : ℕ) (text : Bytes) : Bytes :=
  List.replicate (width - text.length) c ++ text

/-- `%04X` -/
def hex4 (n : ℕ) : Bytes := padLeft 0x30 4 (printHex true n)

/-- `hexstr` -/
def hexstr (data : Bytes) : Bytes := data.flatMap fun c => padLeft 0x30 2 (printHex false c.toNat)

/-- `expected_size` -/
def expectedSize (reportId : UInt8) : ℕ :=
  if reportId = 0xFD then 20 else if reportId = 0xF9 then 29 else if reportId = 0x01 then 29 else 15

/-- `button_codes` -/
def buttonCodes : List (ℕ × Bytes) :=
  [(0x0000, ascii "None"), (0x8000, ascii "POWER"), (0x8099, ascii "POWER2"), (0x8010, ascii "0"),
    (0x8011, ascii "1"), (0x8012, ascii "2"), (0x8013, ascii "3"), (0x8014, ascii "4"),
    (0x8015, ascii "5"), (0x8016, ascii "6"), (0x8017, ascii "7"), (0x8018, ascii "8"),
    (0x8019, ascii "9"), (0x8044, ascii "WHEEL_PRESS"), (0x8053, ascii "LIST"), (0x8045, ascii "..."),
    (0x8002, ascii "VOL+"), (0x8003, ascii "VOL-"), (0x8009, ascii "MUTE"), (0x808B, ascii "MIC"),
    (0x807C, ascii "HOME"), (0x8043, ascii "SETTINGS"), (0x8028, ascii "BACK"),
    (0x80AB, ascii "GUIDE"), (0x805D, ascii "STREAMING"), (0x800B, ascii "INPUT"),
    (0x8098, ascii "STB MENU"), (0x8001, ascii "CH-"), (0x8072, ascii "RED"),
    (0x8071, ascii "GREEN"), (0x8063, ascii "YELLOW"), (0x8061, ascii "BLUE"),
    (0x8081, ascii "MOVIES"), (0x80B0, ascii "PLAY"), (0x80BA, ascii "PAUSE"), (0x8040, ascii "UP"),
    (0x8041, ascii "DOWN"), (0x8006, ascii "RIGHT"), (0x8007, ascii "LEFT")]

/-- `button_name` -/
def buttonName (code : ℕ) : Bytes :=
  match buttonCodes.find? fun b => b.1 = code with
  | some (_, name) => name
  | none => ascii "UNKNOWN_" ++ hex4 code

/-! ## The parsers -/

/-- `le16` of two bytes. -/
def le16 (d : Bytes) (i : ℕ) : ℕ := byteAt d i + byteAt d (i + 1) * 256

/-- `be16` of two bytes. -/
def be16 (d : Bytes) (i : ℕ) : ℕ := byteAt d i * 256 + byteAt d (i + 1)

/-- The conversion of sixteen bits to `signed short`. -/
def signedShort (x : ℕ) : ℤ := if x < 32768 then x else x - 65536

/-- The lines of a report with the values that it shows. -/
def fdLines (btnCode : ℕ) (wheel wheelPos : ℤ) (raw : Bytes) (counter constFd00 : ℕ)
    (points : List ℤ) : List Line :=
  let sep (fields : List Bytes) : Bytes := (ascii "  ").intercalate fields
  [.out (ascii "Button: " ++ buttonName btnCode ++ ascii " (" ++ printInt btnCode ++
      ascii ")  Wheel=" ++ printInt wheel ++ ascii "\n"),
    .out (ascii "[0xFD] Buttons raw: " ++ hexstr raw ++ ascii "\n"),
    .out (sep (padLeft 0x20 8 (ascii "Counter") :: [ascii "Const", ascii "POI1", ascii "POI2",
      ascii "POI3", ascii "ACCEL_X", ascii "ACCEL_Y", ascii "ACCEL_Z"].map (padLeft 0x20 6)) ++
      ascii "\n"),
    .out (sep (padLeft 0x20 8 (printInt counter) ::
      padLeft 0x20 6 (ascii "0x" ++ printHex false constFd00) ::
      points.map fun p => padLeft 0x20 6 (printInt p)) ++ ascii "\n"),
    .out (ascii "Button: " ++ buttonName btnCode ++ ascii " (" ++ hex4 btnCode ++ ascii ")  Wheel=" ++
      printInt wheel ++ ascii " Wheel Pos = " ++ printInt wheelPos ++ ascii "\n")]

/-- `parse_fd`: the lines and the position of the wheel. -/
def parseFd (d : Bytes) (wheelPos : ℤ) : List Line × ℤ :=
  if d.length < 20 then ([.out (ascii "[0xFD] short payload: " ++ hexstr d ++ ascii "\n")], wheelPos)
  else
    let wheel := s8 (byteAt d 19)
    let points := (List.range 6).map fun i => signedShort (be16 d (5 + 2 * i))
    (fdLines (be16 d 17) wheel (wheelPos + wheel) d (le16 d 1) (le16 d 3) points, wheelPos + wheel)

/-- `parse_f9` -/
def parseF9 (d : Bytes) : List Line :=
  [.out (ascii "[0xF9] Extra control raw: " ++ hexstr d ++ ascii "\n")]

/-- `parse_01` -/
def parse01 (d : Bytes) : List Line :=
  if d.length % 2 = 0 then
    let values := (List.range (d.length / 2)).map fun i => printInt (signedShort (le16 d (2 * i)))
    [.out (ascii "[0x01] Gyro values: (" ++ (ascii ", ").intercalate values ++ ascii ")\n")]
  else [.out (ascii "[0x01] Odd-size gyro packet: " ++ hexstr d ++ ascii "\n")]

/-- The cases of the report ID. -/
def parseReport (reportId : UInt8) (d : Bytes) (wheelPos : ℤ) : List Line × ℤ :=
  if reportId = 0xFD then parseFd d wheelPos
  else if reportId = 0xF9 then (parseF9 d, wheelPos)
  else if reportId = 0x01 then (parse01 d, wheelPos)
  else
    ([.out (ascii "[0x" ++ padLeft 0x30 2 (printHex true reportId.toNat) ++ ascii "] Unknown len=" ++
      printInt d.length ++ ascii ": " ++ hexstr d ++ ascii "\n")], wheelPos)

/-! ## The loop -/

/-- What a call of `read` comes to; no bytes are the end of the file. -/
inductive Answer
  | bytes (b : Bytes)
  | interrupted
  | failed (strerror : Bytes)

/-- What is read from: a call for some bytes takes it to another state. -/
structure Device (σ : Type) where
  read : σ → ℕ → Answer × σ

section

variable {σ : Type}

/-- The loop for the payload, with the bytes so far. A call gives at least one byte, or the loop ends, so
it has at most as many rounds as bytes are missing. -/
def readPayload (dev : Device σ) (size : ℕ) : ℕ → σ → Bytes → Except Bytes Bytes × σ
  | 0, s, got => (.ok got, s)
  | rounds + 1, s, got =>
    match dev.read s (size - got.length) with
    | (.failed strerror, s) => (.error strerror, s)
    | (.interrupted, s) => (.ok got, s)
    | (.bytes b, s) =>
      if b = [] then (.ok got, s)
      else if (got ++ b).length < size then readPayload dev size rounds s (got ++ b)
      else (.ok (got ++ b), s)

/-- `hidraw_run` on an open device: the lines and what it returns; `none` where the rounds do not
suffice. -/
def hidrawRun (dev : Device σ) (path : CStr) : ℕ → σ → ℤ → Option (List Line × ℤ)
  | 0, _, _ => none
  | rounds + 1, s, wheelPos =>
    let failure (strerror : Bytes) : List Line × ℤ :=
      ([.err (ascii "lgmagic: read error on " ++ path.val ++ ascii ": " ++ strerror ++ ascii "\n")], -1)
    match dev.read s 1 with
    | (.failed strerror, _) => some (failure strerror)
    | (.interrupted, _) | (.bytes [], _) => some ([], 0)
    | (.bytes (reportId :: _), s) =>
      let size := expectedSize reportId
      match readPayload dev size size s [] with
      | (.error strerror, _) => some (failure strerror)
      | (.ok d, s) =>
        let (lines, wheelPos) := parseReport reportId d wheelPos
        if d.length < size then some (lines, 0)
        else (hidrawRun dev path rounds s wheelPos).map fun (later, rc) => (lines ++ later, rc)

end

/-! ## A hidraw device -/

/-- The reports that wait on a hidraw device, and what reading comes to after them. A call takes one
report, and of it what it has room for. -/
def messages (ending : Answer) : Device (List Bytes) where
  read reports n :=
    match reports with
    | [] => (ending, [])
    | r :: reports => (.bytes (r.take n), reports)

/-- What is printed of a report of the remote, in the terms of the driver. -/
def reportLines (data : Bytes) (wheelPos : ℤ) : List Line :=
  let sample := sampleOf data
  fdLines (btnCodeOf data) (s8 (byteAt data 19)) wheelPos data sample.counter
    (byteAt data 3 + byteAt data 4 * 256)
    [sample.gyro.x, sample.gyro.y, sample.gyro.z, sample.accel.x, sample.accel.y, sample.accel.z]

/-- Every second report, with the position of the wheel that only they count for. -/
def everySecond : List Bytes → ℤ → List Line
  | _ :: data :: reports, wheelPos =>
    let wheelPos := wheelPos + s8 (byteAt data 19)
    reportLines data wheelPos ++ everySecond reports wheelPos
  | [_], _ => [.out (ascii "[0xFD] short payload: \n")]
  | [], _ => []

theorem length_of_known {data : Bytes} (h : unknownReport data = false) : data.length = 20 := by
  rw [unknownReport, Bool.or_eq_false_iff, decide_eq_false_iff_not, not_not] at h
  exact h.1

/-- The tool decodes a report as the driver does. -/
theorem parseFd_report {data : Bytes} (h : unknownReport data = false) (wheelPos : ℤ) :
    parseFd data wheelPos =
      (reportLines data (wheelPos + s8 (byteAt data 19)), wheelPos + s8 (byteAt data 19)) := by
  rw [parseFd, if_neg (by rw [length_of_known h]; decide)]
  rfl

/-- A whole report is read with one call. -/
theorem readPayload_messages {data : Bytes} {reports : List Bytes} (ending : Answer)
    (hlen : data.length = 20) :
    readPayload (messages ending) 20 20 (data :: reports) [] = (.ok data, reports) := by
  have hne : data ≠ [] := by
    rintro rfl
    cases hlen
  simp [readPayload, messages, List.take_of_length_le hlen.le, hne, hlen]

/-- The first call takes the report ID off a report, and drops the rest. -/
theorem read_one_messages {data : Bytes} (h : unknownReport data = false) (ending : Answer)
    (reports : List Bytes) :
    (messages ending).read (data :: reports) 1 = (.bytes [0xFD], reports) := by
  obtain ⟨hlen, hid⟩ : data.length = 20 ∧ byteAt data 0 = 0xFD := by
    simpa [unknownReport] using h
  cases data with
  | nil => cases hlen
  | cons c data =>
    have hc : c = 0xFD := UInt8.toNat_inj.mp hid
    rw [hc]
    rfl

end Hidraw
