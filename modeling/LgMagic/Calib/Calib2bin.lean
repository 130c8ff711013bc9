import LgMagic.Kernel.Firmware
import LgMagic.Lib.Strtod

/-!
# Converting a calibration for the driver

`cmd_calib2bin.c`: a calibration file becomes a firmware blob. `calib_load` would take what it can read
of a vector, so the command first looks whether both vectors of the gyroscope are complete; what it
writes is never partly a default.

* `parseArgs`, `checkLen3`, `cmdCalib2bin`: the command;
* `Converted`: the blob is that of the file and the options;
* `cmdCalib2bin_spec`: what a run writes.
-/

namespace Calibration

open Binary64 CString Interchange Json Kernel Pointer Printf UserConfig

/-! ## The command -/

/-- The options, and the positional arguments. -/
structure BinArgs where
  alpha : Double
  mouseK : Double
  pos : List CStr

/-- The text of a usage error. -/
def calib2binUsage : Bytes :=
  ascii "Usage: lgmagic calib2bin JSON OUTPUT_BIN [--alpha F] [--mouse_k F]\n" ++
  ascii "\n" ++
  ascii "  JSON       calibration file (gyro.bias and gyro.scale, 3 values each)\n" ++
  ascii "  OUTPUT_BIN 32-byte firmware blob for /lib/firmware/\n" ++
  ascii "\n" ++
  ascii "  --alpha F     low-pass filter coefficient (default: config alpha)\n" ++
  ascii "  --mouse_k F   airmouse sensitivity (default: config mouse_k)\n"

/-- The branches of the loop over the arguments that take one of them. -/
def parseOne (s : BinArgs) (arg : CStr) : Except CStr BinArgs :=
  if ascii "--alpha=" <+: arg.val then .ok { s with alpha := (strtod (arg.val.drop 8)).value }
  else if ascii "--mouse_k=" <+: arg.val then .ok { s with mouseK := (strtod (arg.val.drop 10)).value }
  else if s.pos.length < 2 then .ok { s with pos := s.pos ++ [arg] }
  else .error arg

/-- The loop over the arguments; an argument that nothing takes is the error. -/
def parseArgs (s : BinArgs) : List CStr → Except CStr BinArgs
  | [] => .ok s
  | [arg] => parseOne s arg
  | arg :: value :: args =>
    if arg.val = ascii "--alpha" then parseArgs { s with alpha := (strtod value.val).value } args
    else if arg.val = ascii "--mouse_k" then
      parseArgs { s with mouseK := (strtod value.val).value } args
    else (parseOne s arg).bind fun s => parseArgs s (value :: args)

/-- `check_len3` -/
def checkLen3 : Option JsonValue → Bool
  | some (.arr items) => items.length = 3 && items.all fun v => match v with
    | .num _ => true
    | _ => false
  | _ => false

/-- What the command returns, what it prints, and the files after it. -/
structure Conversion where
  rc : ℕ
  lines : List Line
  world : World

/-- `cmd_calib2bin` from the load on. -/
def convert (w : World) (args : BinArgs) (jsonPath outPath : CStr) (opens : Option Bytes)
    (writes : Except Bytes Unit) : Conversion :=
  match jsonLoadFile (w.file jsonPath) with
  | .error (err, eoff) =>
    ⟨1, [.err (ascii "Error reading JSON: " ++ err ++ ascii " (byte " ++ printInt eoff ++ ascii ")\n")], w⟩
  | .ok root =>
    if !checkLen3 (memberOf root (.lit "gyro") (.lit "bias")) ||
        !checkLen3 (memberOf root (.lit "gyro") (.lit "scale")) then
      ⟨1, [.err (ascii "Error: bias and scale must each have exactly 3 elements.\n")], w⟩
    else
      match calibLoad w jsonPath with
      | .error cerr => ⟨1, [.err (ascii "Error reading JSON: " ++ cerr ++ ascii "\n")], w⟩
      | .ok c =>
        let blob := calibToBlob c (toFloat args.alpha) (toFloat args.mouseK)
        let warnings := (calibValidateBlob blob).2.map Line.err
        match opens with
        | some strerror =>
          ⟨1, warnings ++ [.err (ascii "lgmagic: cannot open " ++ outPath.val ++ ascii ": " ++ strerror ++
            ascii "\n")], w⟩
        | none =>
          match writes with
          | .error left =>
            ⟨1, warnings ++ [.err (ascii "lgmagic: write error on " ++ outPath.val ++ ascii "\n")],
              w.write outPath left⟩
          | .ok () =>
            ⟨0, warnings ++ [.out (ascii "Saved struct to " ++ outPath.val ++ ascii "\n")],
              w.write outPath (blobBytes blob)⟩

/-- The only argument that is looked at by itself. -/
def wantsHelp : List CStr → Bool
  | arg :: _ => arg.val = ascii "--help" || arg.val = ascii "-h"
  | [] => false

/-- `cmd_calib2bin` for the arguments after the name of the command, with the error of `fopen` and with
what a write that fails leaves in the file. -/
def cmdCalib2bin (cfg : Config) (w : World) (argv : List CStr) (opens : Option Bytes)
    (writes : Except Bytes Unit) : Conversion :=
  if wantsHelp argv then ⟨0, [.out calib2binUsage], w⟩
  else
    match parseArgs ⟨cfg.alpha, cfg.mouseK, []⟩ argv with
    | .error arg =>
      ⟨1, [.err (ascii "lgmagic calib2bin: unexpected argument '" ++ arg.val ++ ascii "'\n"),
        .err calib2binUsage], w⟩
    | .ok args =>
      match args.pos with
      | [jsonPath, outPath] => convert w args jsonPath outPath opens writes
      | _ => ⟨1, [.err calib2binUsage], w⟩

/-! ## What is written -/

/-- The blob has the numbers of the file and of the options, each rounded to a `float`. -/
structure Converted (root : JsonValue) (args : BinArgs) (blob : AirmouseCalib Single) : Prop where
  bias : ∃ v ∈ memberOf root (.lit "gyro") (.lit "bias"), ∃ b,
    ThreeIs NumIs v b ∧ blob.gyroBias = b.map toFloat
  scale : ∃ v ∈ memberOf root (.lit "gyro") (.lit "scale"), ∃ s,
    ThreeIs NumIs v s ∧ blob.gyroScale = s.map toFloat
  alpha : blob.alpha = toFloat args.alpha
  mouseK : blob.mouseK = toFloat args.mouseK

/-- A vector that is complete is read as it is. -/
theorem threeIs_readOr {v : Option JsonValue} (h : checkLen3 v = true) (out : Vec3 Double) :
    ∃ v' ∈ v, ThreeIs NumIs v' (vec3Reader.readOr v out) := by
  unfold checkLen3 at h
  split at h
  · rename_i items
    obtain ⟨hlen, hnums⟩ := Bool.and_eq_true_iff.mp h
    obtain ⟨a, b, c, rfl⟩ := List.length_eq_three.mp (of_decide_eq_true hlen)
    simp only [List.all_cons, List.all_nil, Bool.and_true, Bool.and_eq_true] at hnums
    obtain ⟨ha, hb, hc⟩ := hnums
    cases a with
    | num x =>
      cases b with
      | num y =>
        cases c with
        | num z => exact ⟨_, rfl, rfl, rfl, rfl⟩
        | null | bool | str | arr | obj => cases hc
      | null | bool | str | arr | obj => cases hb
    | null | bool | str | arr | obj => cases ha
  · cases h

/-- A conversion writes nothing, or its blob, or a part of it where the write fails. -/
theorem convert_cases (w : World) (args : BinArgs) (jsonPath outPath : CStr) (opens : Option Bytes)
    (writes : Except Bytes Unit) :
    let r := convert w args jsonPath outPath opens writes
    (r.rc = 1 ∧ r.world = w) ∨
      (∃ left, writes = .error left ∧ r.rc = 1 ∧ r.world = w.write outPath left) ∨
      (r.rc = 0 ∧ ∃ root blob, jsonLoadFile (w.file jsonPath) = .ok root ∧
        Converted root args blob ∧ r.world = w.write outPath (blobBytes blob)) := by
  intro r
  simp only [r, convert]
  cases hload : jsonLoadFile (w.file jsonPath) with
  | error e => exact .inl ⟨rfl, rfl⟩
  | ok root =>
    simp only
    split_ifs with hlen
    · exact .inl ⟨rfl, rfl⟩
    obtain ⟨hbias, hscale⟩ : checkLen3 (memberOf root (.lit "gyro") (.lit "bias")) = true ∧
        checkLen3 (memberOf root (.lit "gyro") (.lit "scale")) = true := by
      simpa using hlen
    cases hc : calibLoad w jsonPath with
    | error e => exact .inl ⟨rfl, rfl⟩
    | ok c =>
      obtain ⟨members, rfl⟩ := root_of_calibLoad hload hc
      rw [calibLoad_eq_ok hload] at hc
      cases hc
      cases opens with
      | some strerror => exact .inl ⟨rfl, rfl⟩
      | none =>
        cases writes with
        | error left => exact .inr (.inl ⟨left, rfl, rfl, rfl⟩)
        | ok u =>
          obtain ⟨v, hv, his⟩ := threeIs_readOr hbias calibInitIdentity.gyroBias
          obtain ⟨v', hv', his'⟩ := threeIs_readOr hscale calibInitIdentity.gyroScale
          exact .inr (.inr ⟨rfl, _, _, rfl, ⟨⟨v, hv, _, his, rfl⟩, ⟨v', hv', _, his', rfl⟩, rfl, rfl⟩,
            rfl⟩)

/-- A run that converts writes the complete numbers of the file and the options, and the driver that
loads what was written keeps exactly these numbers, unless the run has warned. A run that fails leaves
the files alone, but for an output file that could not be written. -/
theorem cmdCalib2bin_spec (cfg : Config) (w : World) (argv : List CStr) (opens : Option Bytes)
    (writes : Except Bytes Unit) :
    let r := cmdCalib2bin cfg w argv opens writes
    (r.rc = 0 → wantsHelp argv = false →
      ∃ args jsonPath outPath root blob,
        parseArgs ⟨cfg.alpha, cfg.mouseK, []⟩ argv = .ok args ∧ args.pos = [jsonPath, outPath] ∧
        jsonLoadFile (w.file jsonPath) = .ok root ∧ Converted root args blob ∧
        r.world = w.write outPath (blobBytes blob) ∧
        ∀ calib, loadFw calib (.ok (blobBytes blob)) =
          (0, if (calibValidateBlob blob).1 = 0 then blob else calibZero)) ∧
    (r.rc ≠ 0 → r.world = w ∨
      ∃ outPath left, writes = .error left ∧ r.world = w.write outPath left) := by
  intro r
  have hdriver (blob : AirmouseCalib Single) (calib : AirmouseCalib Single) :
      loadFw calib (.ok (blobBytes blob)) =
        (0, if (calibValidateBlob blob).1 = 0 then blob else calibZero) := by
    have hload := loadFw_blobBytes calib blob []
    rw [List.append_nil, acceptedBlob] at hload
    rw [hload]
    exact congrArg _ (if_congr (lgmagicValidateCalib_eq_zero_iff blob) rfl rfl)
  simp only [r, cmdCalib2bin]
  split_ifs with hhelp
  · exact ⟨fun _ h => absurd hhelp (by simp [h]), fun h => absurd rfl h⟩
  · cases hargs : parseArgs ⟨cfg.alpha, cfg.mouseK, []⟩ argv with
    | error arg => exact ⟨fun h => absurd h one_ne_zero, fun _ => .inl rfl⟩
    | ok args =>
      simp only
      split
      · rename_i jsonPath outPath hpos
        rcases convert_cases w args jsonPath outPath opens writes with
          ⟨hrc, hworld⟩ | ⟨left, hwrites, hrc, hworld⟩ | ⟨hrc, root, blob, hload, hconverted, hworld⟩
        · exact ⟨fun h => absurd (hrc.symm.trans h) one_ne_zero, fun _ => .inl hworld⟩
        · exact ⟨fun h => absurd (hrc.symm.trans h) one_ne_zero,
            fun _ => .inr ⟨outPath, left, hwrites, hworld⟩⟩
        · exact ⟨fun _ _ => ⟨args, jsonPath, outPath, root, blob, rfl, hpos, hload, hconverted, hworld,
            hdriver blob⟩, fun h => absurd hrc h⟩
      · exact ⟨fun h => absurd h one_ne_zero, fun _ => .inl rfl⟩

/-- A file with the two vectors of the gyroscope. -/
def gyroText : Bytes := ascii "\x7b\"gyro\": \x7b\"bias\": [1, 2, 3], \"scale\": [0.5, 1, 2]\x7d\x7d"

theorem cmdCalib2bin_spec_sample :
    let w := oneFile (.lit "calib.json") gyroText
    let argv := [.lit "calib.json", .lit "calib.bin", .lit "--alpha", .lit "0.25"]
    let r := cmdCalib2bin setDefaults w argv none (.ok ())
    ∃ args jsonPath outPath root blob,
      parseArgs ⟨setDefaults.alpha, setDefaults.mouseK, []⟩ argv = .ok args ∧
      args.pos = [jsonPath, outPath] ∧ jsonLoadFile (w.file jsonPath) = .ok root ∧
      Converted root args blob ∧ r.world = w.write outPath (blobBytes blob) ∧
      ∀ calib, loadFw calib (.ok (blobBytes blob)) =
        (0, if (calibValidateBlob blob).1 = 0 then blob else calibZero) :=
  (cmdCalib2bin_spec setDefaults (oneFile (.lit "calib.json") gyroText)
    [.lit "calib.json", .lit "calib.bin", .lit "--alpha", .lit "0.25"] none (.ok ())).1
    (by decide +kernel) (by decide +kernel)

end Calibration
