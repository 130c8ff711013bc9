import LgMagic.Lib.CNum
import LgMagic.Lib.Layers
import LgMagic.Toml.Parser
import Mathlib.Data.Nat.Bitwise

/-!
# The configuration of the tools

Loading of `config.c`: the built-in values, then the files of the system and of the user, then the
one that is given on the command line. Each file overwrites what it sets, and a mask beside the
values keeps which keys were set by any file.

* `Key`, `Config`, `Loaded`: the keys, their values, and the mask;
* `setFromValue`, `mergeFile`, `configLoad`, `configIsExplicit`;
* `Setting`, `Key.accepts`: the value of any key, and what a member of a file sets it to;
* `mergeFile_fst`, `get_mergeFile`: what one file changes;
* `get_configLoad`, `configLoad_precedence`: the value of each key after all files.
-/

namespace UserConfig

open CString Toml Binary64 Layers

/-! ## Keys and values -/

/-- The keys, in the order of the table in `merge_file`. -/
inductive Key
  | imuDevice
  | hidrawDevice
  | defaultCalib
  | lpfAlpha
  | mouseScale
  | madgwickBeta
  | alpha
  | mouseK
  | gyroScaleDefault
  | accelGate
  | accelGateLo
  | accelGateHi
  deriving DecidableEq

/-- The name of a key in a file. -/
def Key.name : Key → CStr
  | .imuDevice => .lit "imu_device"
  | .hidrawDevice => .lit "hidraw_device"
  | .defaultCalib => .lit "default_calib"
  | .lpfAlpha => .lit "lpf_alpha"
  | .mouseScale => .lit "mouse_scale"
  | .madgwickBeta => .lit "madgwick_beta"
  | .alpha => .lit "alpha"
  | .mouseK => .lit "mouse_k"
  | .gyroScaleDefault => .lit "gyro_scale_default"
  | .accelGate => .lit "accel_gate"
  | .accelGateLo => .lit "accel_gate_lo"
  | .accelGateHi => .lit "accel_gate_hi"

/-- The place of the key's bit `X_*` in the mask. -/
def Key.place : Key → ℕ
  | .imuDevice => 0
  | .hidrawDevice => 1
  | .defaultCalib => 2
  | .lpfAlpha => 3
  | .mouseScale => 4
  | .madgwickBeta => 5
  | .alpha => 6
  | .mouseK => 7
  | .gyroScaleDefault => 8
  | .accelGate => 9
  | .accelGateLo => 10
  | .accelGateHi => 11

/-- `keys` -/
def keys : List Key :=
  [.imuDevice, .hidrawDevice, .defaultCalib, .lpfAlpha, .mouseScale, .madgwickBeta, .alpha, .mouseK,
    .gyroScaleDefault, .accelGate, .accelGateLo, .accelGateHi]

/-- `key_bit`: the key with the name. -/
def keyBit (key : CStr) : Option Key := keys.find? (·.name = key)

/-- A string that is not empty. -/
abbrev Text := { s : CStr // s ≠ .empty }

/-- The empty string means "auto", which is kept as no string. -/
def auto (s : CStr) : Option Text := if h : s = .empty then none else some ⟨s, h⟩

/-- `struct config` -/
structure Config where
  imuDevice : Option Text
  hidrawDevice : Option Text
  defaultCalib : Option Text
  lpfAlpha : Double
  mouseScale : Double
  madgwickBeta : Double
  alpha : Double
  mouseK : Double
  gyroScaleDefault : Double
  accelGate : Bool
  accelGateLo : Double
  accelGateHi : Double
  deriving DecidableEq

/-- `set_defaults` -/
def setDefaults : Config where
  imuDevice := none
  hidrawDevice := none
  defaultCalib := none
  lpfAlpha := CNum.ofRat (1 / 5)
  mouseScale := .ofInt 30
  madgwickBeta := CNum.ofRat (1 / 10)
  alpha := CNum.ofRat (1 / 5)
  mouseK := CNum.ofRat (1 / 2)
  gyroScaleDefault := CNum.ofRat (7 / 100)
  accelGate := true
  accelGateLo := .ofInt 60
  accelGateHi := .ofInt 400

/-- The configuration, and `explicit_mask`. -/
structure Loaded where
  cfg : Config
  mask : ℕ

/-! ## Setting a key -/

/-- A string, normalized. -/
def textOf : TomlValue → Option (Option Text)
  | .str s => some (auto s)
  | _ => none

/-- A number, which may be written as an integer. -/
def numOf : TomlValue → Option Double
  | .float d => some d
  | .int i => some (.ofInt i.toInt)
  | _ => none

/-- A truth value, which may be written as an integer. -/
def gateOf : TomlValue → Option Bool
  | .bool b => some b
  | .int i => some (i ≠ 0)
  | _ => none

/-- The cases of `set_from_value`; a value of another type is not taken. -/
def assign (cfg : Config) (v : TomlValue) : Key → Option Config
  | .imuDevice => (textOf v).map fun s => { cfg with imuDevice := s }
  | .hidrawDevice => (textOf v).map fun s => { cfg with hidrawDevice := s }
  | .defaultCalib => (textOf v).map fun s => { cfg with defaultCalib := s }
  | .lpfAlpha => (numOf v).map fun d => { cfg with lpfAlpha := d }
  | .mouseScale => (numOf v).map fun d => { cfg with mouseScale := d }
  | .madgwickBeta => (numOf v).map fun d => { cfg with madgwickBeta := d }
  | .alpha => (numOf v).map fun d => { cfg with alpha := d }
  | .mouseK => (numOf v).map fun d => { cfg with mouseK := d }
  | .gyroScaleDefault => (numOf v).map fun d => { cfg with gyroScaleDefault := d }
  | .accelGate => (gateOf v).map fun b => { cfg with accelGate := b }
  | .accelGateLo => (numOf v).map fun d => { cfg with accelGateLo := d }
  | .accelGateHi => (numOf v).map fun d => { cfg with accelGateHi := d }

/-- `set_from_value` -/
def setFromValue (s : Loaded) (key : CStr) (v : Option TomlValue) : Loaded :=
  match keyBit key, v with
  | some k, some v =>
    match assign s.cfg v k with
    | some cfg => ⟨cfg, s.mask ||| 2 ^ k.place⟩
    | none => s
  | _, _ => s

/-- `config_is_explicit`: the bit of the key in the mask. -/
def configIsExplicit (mask : ℕ) (key : CStr) : ℕ :=
  match keyBit key with
  | some k => mask &&& 2 ^ k.place
  | none => 0

/-! ## Files -/

/-- A path of the file system. -/
inductive File
  | absent
  /-- Nobody may look there: `stat` and `fopen` fail, with another error than `ENOENT`. -/
  | hidden (strerror : Bytes)
  /-- A file that cannot be read, with the error if it cannot be opened. -/
  | unreadable (strerror : Option Bytes)
  | text (b : Bytes)

/-- The files, and the environment variables `HOME` and `LGMAGIC_CONFIG_ROOT`. -/
structure World where
  file : CStr → File
  home : Option CStr
  configRoot : Option CStr

/-- `stat` succeeds. -/
def World.exists (w : World) (path : CStr) : Bool :=
  match w.file path with
  | .absent | .hidden _ => false
  | _ => true

/-- The size of the path buffers. -/
def pathSize : ℕ := 4096

/-- `config_system_path` -/
def configSystemPath (w : World) : CStr :=
  let root :=
    match w.configRoot with
    | some root => if root = .empty then .lit "/etc/lgmagic" else root
    | none => .lit "/etc/lgmagic"
  .snprintf pathSize (root ++ .lit "/config.toml")

/-- `CFG_USER_DIR` -/
def userDir : CStr := .lit "/.config/lgmagic"

/-- The path of the user's file. -/
def configUserPath (home : CStr) : CStr :=
  .snprintf pathSize (home ++ userDir ++ .lit "/config.toml")

/-- `legacy_json_path`: the file of the first version beside one that ends in `.toml`. -/
def legacyJsonPath (outsz : ℕ) (path : CStr) : Option CStr :=
  let len := path.val.length
  if len < 5 ∨ outsz ≤ len ∨ path.val.drop (len - 5) ≠ ascii ".toml" then none
  else some (.ofBuffer (path.val.take (len - 4)) ++ .lit "json")

/-- What `merge_file` warns of. -/
inductive Warning
  | legacy (json : CStr)
  | ignored (path : CStr) (err : Bytes) (line : ℕ)

/-- `toml_load_file` -/
def tomlLoadFile : File → Except (Option Bytes × ℕ) Members
  | .absent => .error (some (ascii "cannot open file: No such file or directory"), 0)
  | .hidden strerror => .error (some (ascii "cannot open file: " ++ strerror), 0)
  | .unreadable strerror => .error (strerror.map (ascii "cannot open file: " ++ ·), 0)
  | .text b =>
    match tomlParse b with
    | .ok root => .ok root
    | .error e => .error (some (ascii e.msg), e.line)

/-- The loop of `merge_file` over the keys. -/
def setKeys (root : Members) (s : Loaded) : Loaded :=
  keys.foldl (fun s k => setFromValue s k.name (tableGetShort root k.name)) s

/-- `merge_file`: what is loaded, and the warnings so far. -/
def mergeFile (w : World) (path : CStr) (s : Loaded × List Warning) : Loaded × List Warning :=
  if w.exists path then
    match tomlLoadFile (w.file path) with
    | .ok root => (setKeys root s.1, s.2)
    | .error (err, line) => (s.1, s.2 ++ [.ignored path (err.getD (ascii "parse error")) line])
  else
    match legacyJsonPath pathSize path with
    | some json => if w.exists json then (s.1, s.2 ++ [.legacy json]) else s
    | none => s

/-- `config_load` -/
def configLoad (w : World) (extra : Option CStr) : Loaded × List Warning :=
  let s := mergeFile w (configSystemPath w) (⟨setDefaults, 0⟩, [])
  let s :=
    match w.home with
    | some home => mergeFile w (configUserPath home) s
    | none => s
  match extra with
  | some path => mergeFile w path s
  | none => s

/-- `config_load_daemon` -/
def configLoadDaemon (w : World) (configRoot : CStr) : Loaded × List Warning :=
  mergeFile w (.snprintf pathSize (configRoot ++ .lit "/config.toml")) (⟨setDefaults, 0⟩, [])

/-! ## What a file sets -/

/-- The value of a key. -/
inductive Setting
  | text (s : Option Text)
  | num (d : Double)
  | gate (on : Bool)
  deriving DecidableEq

/-- The value of a key in a configuration. -/
def Config.get (cfg : Config) : Key → Setting
  | .imuDevice => .text cfg.imuDevice
  | .hidrawDevice => .text cfg.hidrawDevice
  | .defaultCalib => .text cfg.defaultCalib
  | .lpfAlpha => .num cfg.lpfAlpha
  | .mouseScale => .num cfg.mouseScale
  | .madgwickBeta => .num cfg.madgwickBeta
  | .alpha => .num cfg.alpha
  | .mouseK => .num cfg.mouseK
  | .gyroScaleDefault => .num cfg.gyroScaleDefault
  | .accelGate => .gate cfg.accelGate
  | .accelGateLo => .num cfg.accelGateLo
  | .accelGateHi => .num cfg.accelGateHi

/-- The value of a key, and whether some file set it. -/
def Loaded.get (s : Loaded) (key : Key) : Setting × Bool := (s.cfg.get key, s.mask.testBit key.place)

/-- What a member of a file sets its key to, `none` where its type is not acceptable. -/
def Key.accepts (key : Key) (v : TomlValue) : Option Setting :=
  match key with
  | .imuDevice | .hidrawDevice | .defaultCalib => (textOf v).map .text
  | .accelGate => (gateOf v).map .gate
  | _ => (numOf v).map .num

/-- The tree of a file that can be read and is well formed. -/
def document (w : World) (path : CStr) : Option Members :=
  match w.file path with
  | .text b => (tomlParse b).toOption
  | _ => none

/-- What a file sets a key to. -/
def holds (w : World) (key : Key) (path : CStr) : Option Setting :=
  (document w path).bind fun root => (tableGetShort root key.name).bind key.accepts

/-- The files that `config_load` looks at, in order. -/
def configPaths (w : World) (extra : Option CStr) : List CStr :=
  configSystemPath w :: ((w.home.map configUserPath).toList ++ extra.toList)

section

variable {w : World} {s : Loaded} {cfg : Config} {key key' : Key} {v : TomlValue}

theorem keyBit_name (key : Key) : keyBit key.name = some key := by
  cases key <;> decide +kernel

theorem mem_keys (key : Key) : key ∈ keys := by
  cases key <;> decide

theorem name_of_keyBit {name : CStr} (h : keyBit name = some key) : key.name = name := by
  simpa using List.find?_some h

theorem place_inj (h : key.place = key'.place) : key = key' := by
  revert h
  cases key <;> cases key' <;> decide

/-- An acceptable value is the value of its key, and the other keys stay. -/
theorem assign_eq_some (cfg : Config) {x : Setting} (h : key.accepts v = some x) :
    ∃ cfg', assign cfg v key = some cfg' ∧
      ∀ key', cfg'.get key' = if key' = key then x else cfg.get key' := by
  -- Each key has a field of its own, of the type of the value.
  cases key <;> obtain ⟨y, hy, rfl⟩ := Option.map_eq_some_iff.mp h <;>
    refine ⟨_, by rw [assign, hy]; rfl, fun key' => ?_⟩ <;> cases key' <;> rfl

theorem assign_eq_none (cfg : Config) (h : key.accepts v = none) : assign cfg v key = none := by
  cases key <;> simpa [Key.accepts, assign] using h

/-- The bit of a key is set, and the other bits stay. -/
theorem testBit_mask (mask : ℕ) (key key' : Key) :
    (mask ||| 2 ^ key.place).testBit key'.place = if key' = key then true else mask.testBit key'.place := by
  rw [Nat.testBit_or, Nat.testBit_two_pow]
  split_ifs with h
  · simp [h]
  · have hne : key.place ≠ key'.place := fun heq => h (place_inj heq).symm
    simp [hne]

/-- `set_from_value` of one of the keys. -/
theorem get_setFromValue (s : Loaded) (key key' : Key) (v : Option TomlValue) :
    (setFromValue s key.name v).get key' =
      ((if key' = key then v.bind key.accepts else none).map (·, true)).getD (s.get key') := by
  unfold setFromValue
  rw [keyBit_name]
  rcases v with _ | v
  · simp
  cases hx : key.accepts v with
  | none => simp [assign_eq_none s.cfg hx, hx]
  | some x =>
    obtain ⟨cfg', hassign, hget⟩ := assign_eq_some s.cfg hx
    simp only [hassign, Loaded.get, hget, testBit_mask, Option.bind_some, hx]
    split_ifs <;> rfl

/-- The loop over the keys sets each key to its own member. -/
theorem get_setKeys (root : Members) (s : Loaded) (key : Key) :
    (setKeys root s).get key =
      (((tableGetShort root key.name).bind key.accepts).map (·, true)).getD (s.get key) := by
  unfold setKeys
  rw [get_foldl (fun s : Loaded => s.get key)
    fun s k => get_setFromValue s k key (tableGetShort root k.name)]
  rw [lastSome_of_unique (mem_keys key), if_pos rfl]
  intro k _ hne
  rw [if_neg (Ne.symm hne), Option.map_none]

/-- A file that is well formed sets the keys, and any other one changes nothing. -/
theorem mergeFile_fst (w : World) (path : CStr) (s : Loaded × List Warning) :
    (mergeFile w path s).1 = ((document w path).map fun root => setKeys root s.1).getD s.1 := by
  unfold mergeFile document World.exists tomlLoadFile
  cases w.file path with
  | absent | hidden strerror =>
    simp only [Bool.false_eq_true, if_false, Option.map_none, Option.getD_none]
    split
    · split_ifs <;> rfl
    · rfl
  | unreadable strerror => rfl
  | text b =>
    simp only [if_true]
    cases tomlParse b <;> rfl

/-- A file sets the keys that it holds. -/
theorem get_mergeFile (w : World) (path : CStr) (s : Loaded × List Warning) (key : Key) :
    (mergeFile w path s).1.get key = ((holds w key path).map (·, true)).getD (s.1.get key) := by
  unfold holds
  rw [mergeFile_fst]
  cases document w path with
  | none => simp
  | some root =>
    simp only [Option.map_some, Option.getD_some, Option.bind_some]
    exact get_setKeys root s.1 key

/-! ## All files -/

theorem configLoad_eq_foldl (w : World) (extra : Option CStr) :
    configLoad w extra =
      (configPaths w extra).foldl (fun s path => mergeFile w path s) (⟨setDefaults, 0⟩, []) := by
  unfold configLoad configPaths
  cases w.home <;> cases extra <;> rfl

/-- Each key has the value of the last file that holds it, or else the built-in one. -/
theorem get_configLoad (w : World) (extra : Option CStr) (key : Key) :
    (configLoad w extra).1.get key =
      ((lastSome (holds w key) (configPaths w extra)).map (·, true)).getD
        (setDefaults.get key, false) := by
  rw [configLoad_eq_foldl, get_foldl (fun s : Loaded × List Warning => s.1.get key)
    fun s path => get_mergeFile w path s key, lastSome_map]
  simp [Loaded.get]

/-- The daemon looks at one file only. -/
theorem get_configLoadDaemon (w : World) (root : CStr) (key : Key) :
    (configLoadDaemon w root).1.get key =
      ((holds w key (.snprintf pathSize (root ++ .lit "/config.toml"))).map (·, true)).getD
        (setDefaults.get key, false) := by
  rw [configLoadDaemon, get_mergeFile]
  simp [Loaded.get]

/-- A key is explicit when its bit is set. -/
theorem configIsExplicit_iff {mask : ℕ} {name : CStr} :
    configIsExplicit mask name ≠ 0 ↔ ∃ key : Key, key.name = name ∧ mask.testBit key.place = true := by
  unfold configIsExplicit
  constructor
  · intro h
    cases hkey : keyBit name with
    | none => simp [hkey] at h
    | some key =>
      refine ⟨key, name_of_keyBit hkey, ?_⟩
      simpa [hkey, Nat.and_two_pow] using h
  · rintro ⟨key, rfl, hbit⟩
    simp [keyBit_name, Nat.and_two_pow, hbit]

/-- The configuration is a fold over the files: every key has the value of the last file that is
well formed and holds the key with an acceptable type, else the built-in one; it is explicit exactly
if some file set it; and a file that is not well formed changes nothing. -/
theorem configLoad_precedence (w : World) (extra : Option CStr) :
    (∀ key : Key, (configLoad w extra).1.cfg.get key =
      (lastSome (holds w key) (configPaths w extra)).getD (setDefaults.get key)) ∧
    (∀ name, configIsExplicit (configLoad w extra).1.mask name ≠ 0 ↔
      ∃ key : Key, key.name = name ∧ ∃ path ∈ configPaths w extra, (holds w key path).isSome = true) ∧
    ∀ path s, (mergeFile w path s).1 =
      ((document w path).map fun root => setKeys root s.1).getD s.1 := by
  refine ⟨fun key => ?_, fun name => ?_, mergeFile_fst w⟩
  · have hget := congrArg Prod.fst (get_configLoad w extra key)
    cases hlast : lastSome (holds w key) (configPaths w extra) <;>
      simpa [hlast, Loaded.get] using hget
  · have hbit : ∀ key : Key, (configLoad w extra).1.mask.testBit key.place =
        (lastSome (holds w key) (configPaths w extra)).isSome := by
      intro key
      have hget := congrArg Prod.snd (get_configLoad w extra key)
      cases hlast : lastSome (holds w key) (configPaths w extra) <;>
        simpa [hlast, Loaded.get] using hget
    simp only [configIsExplicit_iff, hbit, isSome_lastSome]

end

end UserConfig
