import LgMagic.Keymap
import LgMagic.Lib.CNum
import LgMagic.Toml.Parser

/-!
# Profiles and device configurations

The profiles and button maps of `profiles.c`, with the reading and writing of the device TOML
document and its validation. A configuration read from a document that is refused stays partly
filled, so reading returns it beside the error.

* `Profile`, `DeviceConfig`: the data, over the type of the numbers;
* `profileValidate`, `deviceConfigValidate`: the checks and their messages;
* `deviceConfigFromToml`, `deviceConfigToToml`: the document;
* `deviceConfigLoadFile`: a file.
-/

namespace Profiles

open CString Keymap Toml Binary64

/-- `struct profile`. The button map is a list of pairs `from`, `to` of keycodes. -/
structure Profile (F : Type) where
  name : CStr
  scrollSpeed : F
  sensitivity : F
  lpfAlpha : F
  hasScroll : Bool
  hasSens : Bool
  hasLpf : Bool
  map : List (ℤ × ℤ)
  deriving DecidableEq

/-- `struct device_config` -/
structure DeviceConfig (F : Type) where
  profile : CStr
  calib : Option CStr
  airmouse : Bool
  hasAirmouse : Bool
  profiles : List (Profile F)
  deriving DecidableEq

section

variable {F : Type} [CNum F]

/-- `profile_init` -/
def profileInit (name : CStr) : Profile F :=
  ⟨name, CNum.ofRat 1, CNum.ofRat 30, CNum.ofRat (-1), false, false, false, []⟩

/-- `device_config_init` -/
def deviceConfigInit : DeviceConfig F := ⟨.lit "default", none, true, false, []⟩

end

section

variable {F : Type}

/-- `profile_set_button` -/
def profileSetButton (p : Profile F) (src dst : ℤ) : Profile F :=
  { p with map := Assoc.put p.map src dst }

/-- `profile_clear_buttons` -/
def profileClearButtons (p : Profile F) : Profile F := { p with map := [] }

/-- `profile_merge` -/
def profileMerge (dst src : Profile F) : Profile F :=
  let dst := if src.hasScroll then { dst with scrollSpeed := src.scrollSpeed } else dst
  let dst := if src.hasSens then { dst with sensitivity := src.sensitivity } else dst
  let dst := if src.hasLpf then { dst with lpfAlpha := src.lpfAlpha } else dst
  src.map.foldl (fun dst m => profileSetButton dst m.1 m.2) dst

/-- `profile_find` -/
def profileFind (dc : DeviceConfig F) (name : CStr) : Option (Profile F) :=
  dc.profiles.find? fun p => p.name = name

end

/-! ## Validation -/

/-- The message for a number out of its range. -/
def rangeError (p : Profile Double) (field range : String) (x : Double) : Bytes :=
  ascii "profile '" ++ p.name.val ++ ascii ("': " ++ field ++ " ") ++ Printf.fmtG 6 x ++
    ascii (" out of range " ++ range)

/-- The check of the button map: the first keycode without a name is reported. -/
def mapValidate (name : CStr) : List (ℤ × ℤ) → Except Bytes Unit
  | [] => .ok ()
  | (src, dst) :: map =>
    let unknown (code : ℤ) := ascii "profile '" ++ name.val ++ ascii "': unknown keycode " ++
      Printf.printInt code ++ ascii " in the button map"
    if (keymapCodeToName src).isNone then .error (unknown src)
    else if (keymapCodeToName dst).isNone then .error (unknown dst)
    else mapValidate name map

/-- The range of `scroll_speed`, `0` excluded. -/
def scrollSpeedOutOfRange (x : Double) : Bool := x.le (.ofInt 0) || (Double.ofInt 100).lt x

/-- The range of `sensitivity`, `0` excluded. -/
def sensitivityOutOfRange (x : Double) : Bool := x.le (.ofInt 0) || (Double.ofInt 10000).lt x

/-- The range of `lpf_alpha`, `0` included. -/
def lpfAlphaOutOfRange (x : Double) : Bool := x.lt (.ofInt 0) || (Double.ofInt 1).lt x

/-- `profile_validate` -/
def profileValidate (p : Profile Double) : Except Bytes Unit :=
  if p.name.val = [] then .error (ascii "profile name is empty")
  else if scrollSpeedOutOfRange p.scrollSpeed then
    .error (rangeError p "scroll_speed" "(0..100]" p.scrollSpeed)
  else if sensitivityOutOfRange p.sensitivity then
    .error (rangeError p "sensitivity" "(0..10000]" p.sensitivity)
  else if p.hasLpf && lpfAlphaOutOfRange p.lpfAlpha then
    .error (rangeError p "lpf_alpha" "(0..1)" p.lpfAlpha)
  else mapValidate p.name p.map

/-- The first profile that is refused. -/
def profilesValidate : List (Profile Double) → Except Bytes Unit
  | [] => .ok ()
  | p :: ps =>
    match profileValidate p with
    | .error e => .error e
    | .ok () => profilesValidate ps

/-- `device_config_validate` -/
def deviceConfigValidate (dc : DeviceConfig Double) : Except Bytes Unit :=
  if dc.profile.val = [] then .error (ascii "active profile name is empty")
  else
    match profilesValidate dc.profiles with
    | .error e => .error e
    | .ok () =>
      if dc.profile ≠ .lit "default" ∧ (profileFind dc dc.profile).isNone then
        .error (ascii "active profile '" ++ dc.profile.val ++ ascii "' is not defined")
      else .ok ()

/-! ## Reading -/

/-- The message for a member of the wrong type. -/
def typeError (key : CStr) (expected : String) : Bytes :=
  ascii "'" ++ key.val ++ ascii ("' must be " ++ expected)

/-- `num_field`: the new value and flag of a number; both stay when the key is absent. -/
def numField (t : Members) (key : CStr) (out : Double) (has : Bool) : Except Bytes (Double × Bool) :=
  match tableGetShort t key with
  | none => .ok (out, has)
  | some (.float d) => .ok (d, true)
  | some (.int i) => .ok (.ofInt i.toInt, true)
  | some _ => .error (typeError key "a number")

/-- `str_field`: the string, if the key is there. -/
def strField (t : Members) (key : CStr) : Except Bytes (Option CStr) :=
  match tableGetShort t key with
  | none => .ok none
  | some (.str s) => .ok (some s)
  | some _ => .error (typeError key "a string")

/-- The loop of `profile_parse_fields` over the button map. -/
def parseButtonMap (p : Profile Double) : Members → Except Bytes (Profile Double)
  | [] => .ok p
  | (key, v) :: ms =>
    let unknown (name : CStr) :=
      ascii "unknown keycode '" ++ name.val ++ ascii "' in the button map"
    match v with
    | .str s =>
      if keymapNameToCode key < 0 then .error (unknown key)
      else if keymapNameToCode s < 0 then .error (unknown s)
      else parseButtonMap (profileSetButton p (keymapNameToCode key) (keymapNameToCode s)) ms
    | _ => .error (ascii "button_map values must be strings")

/-- `profile_parse_fields` -/
def profileParseFields (p : Profile Double) (t : Members) : Except Bytes (Profile Double) := do
  let (scrollSpeed, hasScroll) ← numField t (.lit "scroll_speed") p.scrollSpeed p.hasScroll
  let (sensitivity, hasSens) ← numField t (.lit "sensitivity") p.sensitivity p.hasSens
  let (lpfAlpha, hasLpf) ← numField t (.lit "lpf_alpha") p.lpfAlpha p.hasLpf
  let p := { p with scrollSpeed, hasScroll, sensitivity, hasSens, lpfAlpha, hasLpf }
  match tableGetShort t (.lit "button_map") with
  | none => .ok p
  | some (.table bmap) => parseButtonMap p bmap
  | some _ => .error (typeError (.lit "button_map") "a table")

/-- One profile of the document: `profile_init`, its fields and its check. -/
def parseProfile (name : CStr) (t : Members) : Except Bytes (Profile Double) := do
  let p ← profileParseFields (profileInit name) t
  profileValidate p
  return p

/-- The loop of `device_config_from_toml` over the profiles, with those read so far. -/
def parseProfiles (dc : DeviceConfig Double) : Members → Except Bytes Unit × DeviceConfig Double
  | [] => (.ok (), dc)
  | (name, v) :: ms =>
    match v with
    | .table t =>
      if (profileFind dc name).isSome then
        (.error (ascii "duplicate profile '" ++ name.val ++ ascii "'"), dc)
      else
        match parseProfile name t with
        | .error e => (.error e, dc)
        | .ok p => parseProfiles { dc with profiles := dc.profiles ++ [p] } ms
    | _ => (.error (ascii "profile '" ++ name.val ++ ascii "' must be a table"), dc)

/-- The scalar members of the document. -/
def parseScalars (t : Members) (dc : DeviceConfig Double) :
    Except Bytes Unit × DeviceConfig Double :=
  match strField t (.lit "profile") with
  | .error e => (.error e, dc)
  | .ok profile =>
    let dc := { dc with profile := profile.getD dc.profile }
    match strField t (.lit "calib") with
    | .error e => (.error e, dc)
    | .ok calib =>
      let calib := calib.or dc.calib
      -- the empty path stands for the default calibration
      let dc := { dc with calib := if calib = some .empty then none else calib }
      match tableGetShort t (.lit "airmouse") with
      | none => (.ok (), dc)
      | some (.bool b) => (.ok (), { dc with airmouse := b, hasAirmouse := true })
      | some _ => (.error (typeError (.lit "airmouse") "a boolean"), dc)

/-- `device_config_from_toml`: the outcome and the configuration as it was left. -/
def deviceConfigFromToml (root : TomlValue) (dc : DeviceConfig Double) :
    Except Bytes Unit × DeviceConfig Double :=
  match root with
  | .table t =>
    match parseScalars t { dc with profiles := [] } with
    | (.error e, dc) => (.error e, dc)
    | (.ok (), dc) =>
      match tableGetShort t (.lit "profiles") with
      | none => (deviceConfigValidate dc, dc)
      | some (.table profiles) =>
        match parseProfiles dc profiles with
        | (.error e, dc) => (.error e, dc)
        | (.ok (), dc) => (deviceConfigValidate dc, dc)
      | some _ => (.error (typeError (.lit "profiles") "a table"), dc)
  | _ => (.error (ascii "device config root is not a table"), dc)

/-- `device_config_load_file` for the contents of the file at a path: whether there is one, and the
configuration as it was left. -/
def deviceConfigLoadFile (path : CStr) (file : Option Bytes) (dc : DeviceConfig Double) :
    Except Bytes Bool × DeviceConfig Double :=
  match file with
  | none => (.ok false, dc)
  | some text =>
    match tomlParse text with
    | .error e =>
      (.error (path.val ++ ascii (": " ++ e.msg ++ " (line ") ++ Printf.printInt e.line ++
        ascii ")"), dc)
    | .ok root =>
      match deviceConfigFromToml (.table root) dc with
      | (.error e, dc) => (.error e, dc)
      | (.ok (), dc) => (.ok true, dc)

/-! ## Mutation and writing -/

/-- `device_config_profile_ensure`: the configuration with a profile of this name. -/
def deviceConfigProfileEnsure (dc : DeviceConfig Double) (name : CStr) : DeviceConfig Double :=
  if (profileFind dc name).isSome then dc
  else { dc with profiles := dc.profiles ++ [profileInit name] }

/-- Change the first profile of a name, as the callers of `device_config_profile_ensure` do through
its result. -/
def updateProfile (name : CStr) (f : Profile Double → Profile Double) :
    List (Profile Double) → List (Profile Double)
  | [] => []
  | p :: ps => if p.name = name then f p :: ps else p :: updateProfile name f ps

/-- The button map of `device_config_to_toml`. -/
def buttonMapToToml (map : List (ℤ × ℤ)) : Option Members :=
  map.foldlM (fun bm (src, dst) => do
    let src ← keymapCodeToName src
    let dst ← keymapCodeToName dst
    tableAdd bm src (.str dst)) []

/-- The table of one profile. -/
def profileToToml (p : Profile Double) : Option Members := do
  let t := (if p.hasScroll then [(.lit "scroll_speed", .float p.scrollSpeed)] else []) ++
    (if p.hasSens then [(.lit "sensitivity", .float p.sensitivity)] else []) ++
    (if p.hasLpf then [(.lit "lpf_alpha", .float p.lpfAlpha)] else [])
  if p.map = [] then return t
  else
    let bm ← buttonMapToToml p.map
    return t ++ [(.lit "button_map", .table bm)]

/-- The table of the profiles. -/
def profilesToToml (ps : List (Profile Double)) : Option Members :=
  ps.foldlM (fun t p => do
    let v ← profileToToml p
    tableAdd t p.name (.table v)) []

/-- `device_config_to_toml`; there is no document when a name comes twice or a keycode has none. -/
def deviceConfigToToml (dc : DeviceConfig Double) : Option Members := do
  let root : Members := [(.lit "profile", .str dc.profile)] ++
    (match dc.calib with
      | some calib => [(.lit "calib", .str calib)]
      | none => []) ++
    (if dc.hasAirmouse then [(.lit "airmouse", .bool dc.airmouse)] else [])
  if dc.profiles = [] then return root
  else
    let profiles ← profilesToToml dc.profiles
    return root ++ [(.lit "profiles", .table profiles)]

end Profiles
