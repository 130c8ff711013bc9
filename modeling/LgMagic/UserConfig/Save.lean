import LgMagic.Lib.ReadBack
import LgMagic.Lib.Strtod
import LgMagic.Toml.RoundTrip
import LgMagic.UserConfig.Load

/-!
# Setting keys and saving

`config_set_key` and `config_save_user` of `config.c`. A saved file holds every key, so that it is
read again as a whole or not at all. Numbers are set from any text that `strtod` takes, which may be
an infinity or no number; the writer prints these as words that the parser does not know.

* `configSetKey`, `configSaveUser`: the functions;
* `Key.parses`, `lastSet`: what the calls set a key to;
* `document_written`: a table of values that is written, as it is read again;
* `Returns`, `returns_setAll_iff`: when the saved values are loaded again.
-/

namespace UserConfig

open CString Toml Binary64 Layers Printf

/-! ## Setting -/

/-- The number of a value, which has to be all of it. -/
def numValue (key value : CStr) : Except Bytes Double :=
  let r := strtod value.val
  if r.erange ∨ r.rest = value.val ∨ r.rest ≠ [] then
    .error (ascii "invalid value for " ++ key.val ++ ascii ": '" ++ value.val ++ ascii "'")
  else .ok r.value

/-- The truth value of a value. -/
def gateValue (key value : CStr) : Except Bytes Bool :=
  if value = .lit "true" ∨ value = .lit "1" then .ok true
  else if value = .lit "false" ∨ value = .lit "0" then .ok false
  else
    .error (ascii "invalid value for " ++ key.val ++ ascii ": '" ++ value.val ++
      ascii "' (true/false)")

/-- The cases of `config_set_key`. -/
def assignValue (cfg : Config) (key value : CStr) : Key → Except Bytes Config
  | .imuDevice => .ok { cfg with imuDevice := auto value }
  | .hidrawDevice => .ok { cfg with hidrawDevice := auto value }
  | .defaultCalib => .ok { cfg with defaultCalib := auto value }
  | .lpfAlpha => (numValue key value).map fun d => { cfg with lpfAlpha := d }
  | .mouseScale => (numValue key value).map fun d => { cfg with mouseScale := d }
  | .madgwickBeta => (numValue key value).map fun d => { cfg with madgwickBeta := d }
  | .alpha => (numValue key value).map fun d => { cfg with alpha := d }
  | .mouseK => (numValue key value).map fun d => { cfg with mouseK := d }
  | .gyroScaleDefault => (numValue key value).map fun d => { cfg with gyroScaleDefault := d }
  | .accelGate => (gateValue key value).map fun b => { cfg with accelGate := b }
  | .accelGateLo => (numValue key value).map fun d => { cfg with accelGateLo := d }
  | .accelGateHi => (numValue key value).map fun d => { cfg with accelGateHi := d }

/-- `config_set_key` -/
def configSetKey (s : Loaded) (key value : CStr) : Except Bytes Loaded :=
  match keyBit key with
  | none => .error (ascii "unknown config key '" ++ key.val ++ ascii "'")
  | some k => (assignValue s.cfg key value k).map fun cfg => ⟨cfg, s.mask ||| 2 ^ k.place⟩

/-- Calls of `config_set_key`; one that fails changes nothing. -/
def setAll (s : Loaded) (calls : List (CStr × CStr)) : Loaded :=
  calls.foldl (fun s call => (configSetKey s call.1 call.2).toOption.getD s) s

/-! ## Saving -/

/-- What the system calls of saving meet: the errors of `mkdir_p` and `fopen`, and what a write that
fails leaves in the file. -/
structure SaveIo where
  mkdirs : Option Bytes
  opens : Option Bytes
  writes : Except Bytes Unit

/-- `fopen` of a path for writing. No path is longer than `PATH_MAX`, and nothing is created where
nobody may look. -/
def fopenWrite (w : World) (path : CStr) (opens : Option Bytes) : Except Bytes Unit :=
  if pathSize ≤ path.val.length then .error (ascii "File name too long")
  else
    match w.file path, opens with
    | .hidden strerror, _ | _, some strerror => .error strerror
    | _, none => .ok ()

/-- The world with a text in a file. -/
def World.write (w : World) (path : CStr) (text : Bytes) : World :=
  { w with file := Function.update w.file path (.text text) }

/-- The members of a saved file. -/
def savedMembers (cfg : Config) : Members :=
  let str (s : Option Text) : TomlValue := .str (s.elim .empty (·.val))
  [(.lit "imu_device", str cfg.imuDevice),
    (.lit "hidraw_device", str cfg.hidrawDevice),
    (.lit "default_calib", str cfg.defaultCalib),
    (.lit "lpf_alpha", .float cfg.lpfAlpha),
    (.lit "mouse_scale", .float cfg.mouseScale),
    (.lit "madgwick_beta", .float cfg.madgwickBeta),
    (.lit "alpha", .float cfg.alpha),
    (.lit "mouse_k", .float cfg.mouseK),
    (.lit "gyro_scale_default", .float cfg.gyroScaleDefault),
    (.lit "accel_gate", .bool cfg.accelGate),
    (.lit "accel_gate_lo", .float cfg.accelGateLo),
    (.lit "accel_gate_hi", .float cfg.accelGateHi)]

/-- The table with some members added in turn. -/
def addMembers (ms : Members) : Option Members :=
  ms.foldlM (fun t m => tableAdd t m.1 m.2) []

/-- `config_save_user` -/
def configSaveUser (w : World) (io : SaveIo) (cfg : Config) : Except Bytes Unit × World :=
  match w.home with
  | none => (.error (ascii "HOME is not set; cannot save user config"), w)
  | some home =>
    let dir := CStr.snprintf pathSize (home ++ userDir)
    let path := dir ++ .lit "/config.toml"
    match io.mkdirs with
    | some strerror => (.error (ascii "cannot create " ++ dir.val ++ ascii ": " ++ strerror), w)
    | none =>
      match (addMembers (savedMembers cfg)).bind fun t => tomlDumps (.table t) with
      | none => (.error (ascii "out of memory"), w)
      | some text =>
        match fopenWrite w path io.opens with
        | .error strerror =>
          (.error (ascii "cannot open " ++ path.val ++ ascii ": " ++ strerror), w)
        | .ok _ =>
          match io.writes with
          | .error left => (.error (ascii "write error on " ++ path.val), w.write path left)
          | .ok _ => (.ok (), w.write path text.val)

/-! ## What the calls set -/

/-- What a text sets a key to, `none` where it is refused. -/
def Key.parses (key : Key) (value : CStr) : Option Setting :=
  match key with
  | .imuDevice | .hidrawDevice | .defaultCalib => some (.text (auto value))
  | .accelGate => (gateValue key.name value).toOption.map .gate
  | _ => (numValue key.name value).toOption.map .num

/-- What a call sets a key to. -/
def callSets (key : Key) (call : CStr × CStr) : Option Setting :=
  if key.name = call.1 then key.parses call.2 else none

/-- What the last call that sets a key sets it to. -/
def lastSet (calls : List (CStr × CStr)) (key : Key) : Option Setting := lastSome (callSets key) calls

section

variable {w : World} {s : Loaded} {cfg : Config} {key key' : Key} {value : CStr}

theorem map_ok_toOption {ε α β : Type} (x : Except ε α) (f : α → β) :
    (x.map f).toOption = x.toOption.map f := by
  cases x <;> rfl

/-- The value of its key after a call that succeeds; the other keys stay. -/
theorem get_assignValue (cfg : Config) (key key' : Key) (value : CStr) :
    ((assignValue cfg key.name value key).toOption.map fun cfg' => cfg'.get key') =
      (key.parses value).map fun x => if key' = key then x else cfg.get key' := by
  cases key <;> simp only [assignValue, Key.parses, map_ok_toOption, Option.map_map] <;> cases key' <;>
    rfl

/-- One call. -/
theorem get_configSetKey (s : Loaded) (call : CStr × CStr) (key : Key) :
    ((configSetKey s call.1 call.2).toOption.getD s).cfg.get key =
      (callSets key call).getD (s.cfg.get key) := by
  unfold configSetKey callSets
  cases hkey : keyBit call.1 with
  | none =>
    have hne : key.name ≠ call.1 := fun h => by simp [← h, keyBit_name] at hkey
    simp [hne, Except.toOption]
  | some k =>
    have hname := name_of_keyBit hkey
    have hassign := get_assignValue s.cfg k key call.2
    rw [hname] at hassign
    -- the key that is set is the only one of its name
    have heq : key.name = call.1 ↔ key = k := by
      rw [← hname]
      refine ⟨fun h => ?_, congrArg Key.name⟩
      simpa [keyBit_name] using congrArg keyBit h
    simp only [heq]
    cases hres : assignValue s.cfg call.1 call.2 k with
    | error e =>
      have hnone : k.parses call.2 = none := by simpa [hres, Except.toOption] using hassign
      split_ifs with h
      · simp [h, hnone, Except.map, Except.toOption]
      · rfl
    | ok cfg' =>
      rw [hres] at hassign
      obtain ⟨x, hx, hget⟩ := Option.map_eq_some_iff.mp hassign.symm
      have hgot : cfg'.get key = if key = k then x else s.cfg.get key := hget.symm
      split_ifs at hgot ⊢ with h
      · rw [← h] at hx
        simp [hx, Except.map, Except.toOption, hgot]
      · simp [Except.map, Except.toOption, hgot]

/-- All calls. -/
theorem get_setAll (s : Loaded) (calls : List (CStr × CStr)) (key : Key) :
    (setAll s calls).cfg.get key = (lastSet calls key).getD (s.cfg.get key) :=
  get_foldl (fun s : Loaded => s.cfg.get key) (fun s call => get_configSetKey s call key) calls s

end

/-! ## What is loaded again -/

/-- The value with its number read from the text of fifteen digits. -/
def Setting.readBack : Setting → Setting
  | .num d => .num (Printf.readBack d)
  | x => x

/-- Two values are equal, but for numbers that print the same `%.15g` text. -/
def Setting.Same : Setting → Setting → Prop
  | .num d, .num d' => fmtG 15 d = fmtG 15 d'
  | x, y => x = y

/-- The user's file is accepted, and every key has the value of the last call that set it, or else
the value it had before. -/
def Returns (w' : World) (cfg : Config) (calls : List (CStr × CStr)) : Prop :=
  (∃ home root, w'.home = some home ∧ document w' (configUserPath home) = some root) ∧
    ∀ key : Key, ((configLoad w' none).1.cfg.get key).Same ((lastSet calls key).getD (cfg.get key))

section

variable {w w' : World} {s : Loaded} {cfg : Config} {key : Key} {path text : CStr} {ms : Members}

/-! ### A table that is written and read -/

theorem normalizeMembers_flat (h : ∀ m ∈ ms, m.2.isTable = false) : normalizeMembers ms = ms := by
  induction ms with
  | nil => rfl
  | cons m ms ih =>
    rw [List.forall_mem_cons] at h
    rw [normalizeMembers_scalar m.1 ms h.1, ih h.2]

theorem wellFormed_flat (hnd : (ms.map Prod.fst).Nodup) (h : ∀ m ∈ ms, m.2.isTable = false) :
    (TomlValue.table ms).WellFormed := by
  refine ⟨hnd, membersWellFormed_iff.mpr fun m hm => ?_⟩
  have hscalar := h m hm
  cases hv : m.2 with
  | table sub => simp [hv] at hscalar
  | str | int | float | bool | arr => trivial

/-- A written table without tables in it is read with its numbers read back, or not at all. -/
theorem document_written (hnd : (ms.map Prod.fst).Nodup) (hflat : ∀ m ∈ ms, m.2.isTable = false)
    (htext : tomlDumps (.table ms) = some text) (hfile : w.file path = .text text.val) :
    document w path =
      if ∀ d ∈ membersFloats ms, d.IsFinite then some (membersMapFloats readBack ms) else none := by
  have hwf := wellFormed_flat hnd hflat
  unfold document
  rw [hfile]
  split_ifs with hfinite
  · have hmap : ∀ m ∈ membersMapFloats readBack ms, m.2.isTable = false := by
      intro m hm
      rw [membersMapFloats_eq_map] at hm
      obtain ⟨m', hm', rfl⟩ := List.mem_map.mp hm
      simpa using hflat m' hm'
    simp [tomlParse_readBack hwf hfinite htext, normalizeMembers_flat hmap, Except.toOption]
  · obtain ⟨e, he⟩ := tomlParse_infinite hwf hfinite htext
    simp [he, Except.toOption]

/-- What a value that is no integer sets a key to, read back. -/
theorem accepts_readBack {v : TomlValue} (h : ∀ i, v ≠ .int i) (key : Key) :
    key.accepts (v.mapFloats readBack) = (key.accepts v).map Setting.readBack := by
  cases v with
  | int i => exact absurd rfl (h i)
  | str | float | bool | arr | table => cases key <;> rfl

/-- What a written table holds, if it is read again. -/
theorem holds_written (hnd : (ms.map Prod.fst).Nodup) (hflat : ∀ m ∈ ms, m.2.isTable = false)
    (hint : ∀ m ∈ ms, ∀ i, m.2 ≠ .int i) (hfinite : ∀ d ∈ membersFloats ms, d.IsFinite)
    (htext : tomlDumps (.table ms) = some text) (hfile : w.file path = .text text.val) (key : Key) :
    holds w key path = ((tableGetShort ms key.name).bind key.accepts).map Setting.readBack := by
  rw [holds, document_written hnd hflat htext hfile, if_pos hfinite, Option.bind_some, get_mapFloats]
  cases hget : tableGetShort ms key.name with
  | none => rfl
  | some v => exact accepts_readBack (hint _ (Assoc.mem_of_get hget)) key

/-- Members with distinct keys can all be added. -/
theorem addMembers_of_nodup (hnd : (ms.map Prod.fst).Nodup) : addMembers ms = some ms := by
  have hadd : ∀ t : Members, ((t ++ ms).map Prod.fst).Nodup →
      ms.foldlM (fun t m => tableAdd t m.1 m.2) t = some (t ++ ms) := by
    clear hnd
    induction ms with
    | nil => simp
    | cons m ms ih =>
      intro t hnd
      have hnew : tableGetShort t m.1 = none := by
        rw [tableGetShort, Assoc.get_eq_none_iff]
        intro hmem
        rw [List.map_append, List.nodup_append] at hnd
        exact hnd.2.2 m.1 hmem m.1 (by simp) rfl
      rw [List.foldlM_cons, tableAdd_eq_some.mpr ⟨hnew, rfl⟩]
      have hrest := ih (t ++ [m]) (by simpa using hnd)
      simpa using hrest
  exact hadd [] hnd

/-! ### The members of a saved file -/

/-- The member for a value. -/
def Setting.saved : Setting → TomlValue
  | .text s => .str (s.elim .empty (·.val))
  | .num d => .float d
  | .gate on => .bool on

theorem savedMembers_eq (cfg : Config) :
    savedMembers cfg = keys.map fun key => (key.name, (cfg.get key).saved) := rfl

theorem nodup_names : (keys.map Key.name).Nodup := by decide +kernel

theorem nodup_savedMembers (cfg : Config) : ((savedMembers cfg).map Prod.fst).Nodup := by
  rw [savedMembers_eq, List.map_map]
  exact nodup_names

theorem mem_savedMembers {m : CStr × TomlValue} (h : m ∈ savedMembers cfg) :
    ∃ key : Key, m = (key.name, (cfg.get key).saved) := by
  rw [savedMembers_eq] at h
  obtain ⟨key, -, rfl⟩ := List.mem_map.mp h
  exact ⟨key, rfl⟩

theorem get_savedMembers (cfg : Config) (key : Key) :
    tableGetShort (savedMembers cfg) key.name = some (cfg.get key).saved := by
  refine Assoc.get_of_mem (nodup_savedMembers cfg) ?_
  rw [savedMembers_eq]
  exact List.mem_map.mpr ⟨key, mem_keys key, rfl⟩

theorem auto_elim (s : Option Text) : auto (s.elim .empty (·.val)) = s := by
  rcases s with _ | s
  · rfl
  · exact dif_neg s.property

theorem accepts_saved (cfg : Config) (key : Key) : key.accepts (cfg.get key).saved = some (cfg.get key) := by
  cases key <;> simp [Key.accepts, Config.get, Setting.saved, textOf, numOf, gateOf, auto_elim]

theorem saved_scalar (x : Setting) : x.saved.isTable = false ∧ (∀ i, x.saved ≠ .int i) ∧
    ∀ d, d ∈ x.saved.floats ↔ x = .num d := by
  cases x <;> simp [Setting.saved, TomlValue.isTable, TomlValue.floats, eq_comm]

theorem scalar_of_mem_savedMembers {m : CStr × TomlValue} (hm : m ∈ savedMembers cfg) :
    m.2.isTable = false ∧ ∀ i, m.2 ≠ .int i := by
  obtain ⟨key, rfl⟩ := mem_savedMembers hm
  exact ⟨(saved_scalar _).1, (saved_scalar _).2.1⟩

theorem floats_savedMembers (cfg : Config) (d : Double) :
    d ∈ membersFloats (savedMembers cfg) ↔ ∃ key, cfg.get key = .num d := by
  rw [mem_membersFloats]
  constructor
  · rintro ⟨m, hm, hd⟩
    obtain ⟨key, rfl⟩ := mem_savedMembers hm
    exact ⟨key, ((saved_scalar _).2.2 d).mp hd⟩
  · rintro ⟨key, hkey⟩
    refine ⟨_, Assoc.mem_of_get (get_savedMembers cfg key), ?_⟩
    exact ((saved_scalar _).2.2 d).mpr hkey

/-! ### Saving and loading -/

/-- A file that could be opened for writing is the one that is loaded. -/
theorem userPath_of_fopen {home : CStr} {opens : Option Bytes}
    (h : fopenWrite w (CStr.snprintf pathSize (home ++ userDir) ++ .lit "/config.toml") opens = .ok ()) :
    CStr.snprintf pathSize (home ++ userDir) ++ .lit "/config.toml" = configUserPath home := by
  have hlen : (CStr.snprintf pathSize (home ++ userDir) ++ .lit "/config.toml").val.length < pathSize := by
    by_contra hlong
    unfold fopenWrite at h
    rw [if_pos (not_lt.mp hlong)] at h
    cases h
  have hname : (CStr.lit "/config.toml").val.length = 12 := by decide +kernel
  rw [CStr.append_val, List.length_append, hname] at hlen
  have hdir : (home ++ userDir).val.length < pathSize := by
    by_contra hlong
    rw [CStr.snprintf, List.length_take, min_eq_left (by omega)] at hlen
    simp only [pathSize] at hlen
    omega
  rw [CStr.snprintf_of_lt hdir] at hlen ⊢
  rw [configUserPath, CStr.snprintf_of_lt]
  rw [CStr.append_val, List.length_append, hname]
  exact hlen

/-- A file that was saved has the text of the values. -/
theorem write_of_configSaveUser {io : SaveIo} (h : configSaveUser w io cfg = (.ok (), w')) :
    ∃ home text, w.home = some home ∧ tomlDumps (.table (savedMembers cfg)) = some text ∧
      w' = w.write (configUserPath home) text.val := by
  unfold configSaveUser at h
  rw [addMembers_of_nodup (nodup_savedMembers cfg), Option.bind_some] at h
  cases hhome : w.home with
  | none => simp [hhome] at h
  | some home =>
    simp only [hhome] at h
    split at h
    · simp at h
    · split at h
      · simp at h
      · next text htext =>
        split at h
        · simp at h
        · next hopen =>
          split at h
          · simp at h
          · rw [userPath_of_fopen hopen] at h
            injection h with _ h
            exact ⟨home, text, rfl, htext, h.symm⟩

/-- The user's file has every key, so the files before it do not count. -/
theorem get_configLoad_saved {home : CStr} (hhome : w.home = some home)
    (htext : tomlDumps (.table (savedMembers cfg)) = some text)
    (hfile : w.file (configUserPath home) = .text text.val)
    (hfinite : ∀ d ∈ membersFloats (savedMembers cfg), d.IsFinite) (key : Key) :
    (configLoad w none).1.cfg.get key = (cfg.get key).readBack := by
  have hholds : holds w key (configUserPath home) = some (cfg.get key).readBack := by
    rw [holds_written (nodup_savedMembers cfg) (fun _ hm => (scalar_of_mem_savedMembers hm).1)
        (fun _ hm => (scalar_of_mem_savedMembers hm).2) hfinite htext hfile,
      get_savedMembers, Option.bind_some, accepts_saved, Option.map_some]
  have hpaths : configPaths w none = [configSystemPath w, configUserPath home] := by
    simp [configPaths, hhome]
  have hget := congrArg Prod.fst (get_configLoad w none key)
  rw [hpaths, lastSome_cons, lastSome_cons, lastSome_nil, hholds] at hget
  exact hget

/-- What was saved is loaded again if and only if every number of it, as the calls set it or as it was
before, is finite and its fifteen digits are not past the range of `double`. -/
theorem returns_setAll_iff {io : SaveIo} {calls : List (CStr × CStr)}
    (h : configSaveUser w io (setAll s calls).cfg = (.ok (), w')) :
    Returns w' s.cfg calls ↔
      ∀ key d, (lastSet calls key).getD (s.cfg.get key) = .num d → Moderate d := by
  obtain ⟨home, text, hhome, htext, rfl⟩ := write_of_configSaveUser h
  set cfg := (setAll s calls).cfg with hcfg
  set w' := w.write (configUserPath home) text.val with hw'
  have hfile : w'.file (configUserPath home) = .text text.val := by simp [hw', World.write]
  have hdoc := document_written (nodup_savedMembers cfg)
    (fun _ hm => (scalar_of_mem_savedMembers hm).1) htext hfile
  have hvalue : ∀ key, (lastSet calls key).getD (s.cfg.get key) = cfg.get key := fun key =>
    (get_setAll s calls key).symm
  unfold Returns
  simp only [hvalue, moderate_iff]
  by_cases hfinite : ∀ d ∈ membersFloats (savedMembers cfg), d.IsFinite
  · -- the text is a document, and every number is read back from it
    rw [if_pos hfinite] at hdoc
    have hhome' : w'.home = some home := hhome
    have hload := get_configLoad_saved hhome' htext hfile hfinite
    constructor
    · rintro ⟨-, hsame⟩ key d hkey
      refine ⟨hfinite d ((floats_savedMembers cfg d).mpr ⟨key, hkey⟩), ?_⟩
      have hkeySame := hsame key
      rw [hload, hkey] at hkeySame
      exact hkeySame
    · intro hmoderate
      refine ⟨⟨home, _, hhome, hdoc⟩, fun key => ?_⟩
      rw [hload]
      cases hkey : cfg.get key with
      | num d => exact (hmoderate key d hkey).2
      | text | gate => rfl
  · -- a number that is not finite makes the text no document
    rw [if_neg hfinite] at hdoc
    refine iff_of_false ?_ fun hmoderate => hfinite fun d hd => ?_
    · rintro ⟨⟨home', root, hhome', hroot⟩, -⟩
      have heq : home = home' := Option.some.inj (hhome.symm.trans hhome')
      rw [← heq, hdoc] at hroot
      cases hroot
    · obtain ⟨key, hkey⟩ := (floats_savedMembers cfg d).mp hd
      exact (hmoderate key d hkey).1

end

/-- A user without any file yet. -/
def newUser : World := ⟨fun _ => .absent, some (.lit "/home/u"), none⟩

/-- Every system call succeeds. -/
def SaveIo.good : SaveIo := ⟨none, none, .ok ()⟩

/-- Keys of each type that are set, and a call that is refused. -/
def sampleCalls : List (CStr × CStr) :=
  [(.lit "lpf_alpha", .lit "0x1p-2"), (.lit "imu_device", .lit "a\"b\\c"),
    (.lit "accel_gate", .lit "false"), (.lit "mouse_k", .lit "1e999")]

theorem returns_sampleCalls : ∃ w', configSaveUser newUser .good (setAll ⟨setDefaults, 0⟩ sampleCalls).cfg =
    (.ok (), w') ∧ Returns w' setDefaults sampleCalls := by
  have hsaved : (configSaveUser newUser .good (setAll ⟨setDefaults, 0⟩ sampleCalls).cfg).1.isOk = true := by
    decide +kernel
  have hmoderate : (keys.all fun key =>
      match (lastSet sampleCalls key).getD (setDefaults.get key) with
      | .num d => decide (Moderate d)
      | _ => true) = true := by
    decide +kernel
  rcases h : configSaveUser newUser .good (setAll ⟨setDefaults, 0⟩ sampleCalls).cfg with ⟨e | u, w'⟩
  · rw [h] at hsaved
    cases hsaved
  · refine ⟨w', rfl, (returns_setAll_iff h).mpr fun key d hkey => ?_⟩
    have hall := List.all_eq_true.mp hmoderate key (mem_keys key)
    simpa only [hkey, decide_eq_true_eq] using hall

/-- A number is set to infinity, and the saved file is not accepted. -/
theorem infinity_not_returns :
    ¬ ∀ w io s calls w', configSaveUser w io (setAll s calls).cfg = (.ok (), w') →
      Returns w' s.cfg calls := by
  intro h
  have hcheck : (configSaveUser newUser .good
      (setAll ⟨setDefaults, 0⟩ [(.lit "lpf_alpha", .lit "inf")]).cfg).1.isOk = true ∧
      (document (configSaveUser newUser .good
        (setAll ⟨setDefaults, 0⟩ [(.lit "lpf_alpha", .lit "inf")]).cfg).2
        (configUserPath (.lit "/home/u"))).isNone = true ∧
      (configSaveUser newUser .good
        (setAll ⟨setDefaults, 0⟩ [(.lit "lpf_alpha", .lit "inf")]).cfg).2.home = some (.lit "/home/u") := by
    decide +kernel
  rcases hsave : configSaveUser newUser .good
    (setAll ⟨setDefaults, 0⟩ [(.lit "lpf_alpha", .lit "inf")]).cfg with ⟨e | u, w'⟩
  · rw [hsave] at hcheck
    cases hcheck.1
  · rw [hsave] at hcheck
    obtain ⟨⟨home, root, hhome, hroot⟩, -⟩ := h _ _ _ _ _ hsave
    have heq : CStr.lit "/home/u" = home := Option.some.inj (hcheck.2.2.symm.trans hhome)
    simpa [heq ▸ hroot] using hcheck.2.1

end UserConfig
