import LgMagic.Json.ParsedTrees
import LgMagic.UserConfig.Save

/-!
# Migration of the first version's configuration

`migrate_one` of `cmd_config.c` reads a JSON file and writes the TOML file beside it, unless there is
one already. Strings are written as strings and numbers as floats; which of them the keys take is
decided later, when the file is merged. A number is written with fifteen digits, and those of the
largest values are past the range of `double`: the merge then reads an infinity.

* `migrateOne`: the function;
* `jsonSets`: what an object means for a key;
* `SetsAs`, `Preserves`: what a migrated file should do;
* `holds_migrated`: what a migrated file holds;
* `preserves_iff`: when it does what it should.
-/

namespace UserConfig

open CString Toml Binary64 Printf Json

/-! ## The function -/

/-- `keys` of `migrate_one`. -/
def migratedKeys : List Key :=
  [.imuDevice, .hidrawDevice, .defaultCalib, .lpfAlpha, .mouseScale, .madgwickBeta, .alpha, .mouseK,
    .gyroScaleDefault]

/-- What is printed, to the standard output or to the standard error. -/
inductive Line
  | out (text : Bytes)
  | err (text : Bytes)

/-- What `migrate_one` returns, what it prints, and the files after it. -/
structure Migration where
  rc : ℕ
  lines : List Line
  world : World

/-- The path of the TOML file, or why there is none. -/
def tomlPath (jsonPath : CStr) : Except Bytes CStr :=
  let len := jsonPath.val.length
  if len < 5 ∨ jsonPath.val.drop (len - 5) ≠ ascii ".json" then
    .error (ascii "'" ++ jsonPath.val ++ ascii "' does not end in .json")
  else if pathSize ≤ len + 1 then .error (ascii "path too long: " ++ jsonPath.val)
  else .ok (.ofBuffer (jsonPath.val.take (len - 4)) ++ .lit "toml")

/-- `json_load_file` -/
def jsonLoadFile : File → Except (Bytes × ℕ) JsonValue
  | .absent => .error (ascii "No such file or directory", 0)
  | .hidden strerror => .error (strerror, 0)
  | .unreadable strerror => .error (strerror.getD (ascii "cannot read file"), 0)
  | .text b =>
    match jsonParse b with
    | .ok root => .ok root
    | .error e => .error (ascii e.msg, e.offset)

/-- The types that are migrated. -/
def tomlOf : JsonValue → Option TomlValue
  | .str s => some (.str s)
  | .num d => some (.float d)
  | _ => none

/-- The members of the TOML file. -/
def migratedMembers (members : List (CStr × JsonValue)) : Members :=
  migratedKeys.filterMap fun key =>
    ((Assoc.get members key.name).bind tomlOf).map (key.name, ·)

/-- An error of `migrate_one`. -/
def migrateError (text : Bytes) : Line := .err (ascii "lgmagic config migrate: " ++ text)

/-- The warnings for keys with other types. -/
def skippedKeys (members : List (CStr × JsonValue)) : List Line :=
  migratedKeys.filterMap fun key =>
    match Assoc.get members key.name with
    | some v =>
      if (tomlOf v).isSome then none
      else some (migrateError (ascii "skipping '" ++ key.name.val ++ ascii "': unsupported JSON value"))
    | none => none

/-- The end of `migrate_one`, for an object. -/
def migrateMembers (w : World) (jsonPath toml : CStr) (opens : Option Bytes) (writes : Except Bytes Unit)
    (members : List (CStr × JsonValue)) : Migration :=
  let lines := skippedKeys members
  match (addMembers (migratedMembers members)).bind fun t => tomlDumps (.table t) with
  | none => ⟨1, lines ++ [migrateError (ascii "out of memory")], w⟩
  | some text =>
    match fopenWrite w toml opens with
    | .error strerror =>
      ⟨1, lines ++ [migrateError (ascii "cannot open " ++ toml.val ++ ascii ": " ++ strerror)], w⟩
    | .ok _ =>
      match writes with
      | .error left =>
        ⟨1, lines ++ [migrateError (ascii "write error on " ++ toml.val)], w.write toml left⟩
      | .ok _ =>
        ⟨0, lines ++ [.out (ascii "migrated " ++ jsonPath.val ++ ascii " -> " ++ toml.val)],
          w.write toml text.val⟩

/-- `migrate_one` from the load on. -/
def migrateFile (w : World) (jsonPath toml : CStr) (opens : Option Bytes) (writes : Except Bytes Unit) :
    Migration :=
  match jsonLoadFile (w.file jsonPath) with
  | .error (err, off) =>
    ⟨1, [migrateError (jsonPath.val ++ ascii ": " ++ err ++ ascii " (byte " ++ printInt off ++
      ascii ")")], w⟩
  | .ok (.obj members) => migrateMembers w jsonPath toml opens writes members
  | .ok _ => ⟨1, [migrateError (jsonPath.val ++ ascii ": root is not an object")], w⟩

/-- `migrate_one`, with the error of `fopen` and with what a write that fails leaves in the file. -/
def migrateOne (w : World) (jsonPath : CStr) (opens : Option Bytes) (writes : Except Bytes Unit) :
    Migration :=
  match tomlPath jsonPath with
  | .error e => ⟨1, [migrateError e], w⟩
  | .ok toml =>
    match w.file jsonPath with
    | .absent => ⟨0, [.out (ascii "skip " ++ jsonPath.val ++ ascii ": no v1 config")], w⟩
    | .hidden strerror => ⟨1, [migrateError (jsonPath.val ++ ascii ": " ++ strerror)], w⟩
    | _ =>
      if w.exists toml then
        ⟨0, [.out (ascii "skip " ++ jsonPath.val ++ ascii ": " ++ toml.val ++ ascii " already exists")],
          w⟩
      else migrateFile w jsonPath toml opens writes

/-! ## What it should do -/

/-- What a value means for a key of the first version. -/
def Key.ofJson (key : Key) (v : JsonValue) : Option Setting :=
  match key, v with
  | .imuDevice, .str s | .hidrawDevice, .str s | .defaultCalib, .str s => some (.text (auto s))
  | .lpfAlpha, .num d | .mouseScale, .num d | .madgwickBeta, .num d | .alpha, .num d
  | .mouseK, .num d | .gyroScaleDefault, .num d => some (.num d)
  | _, _ => none

/-- What an object means for a key: its first member counts. -/
def jsonSets (members : List (CStr × JsonValue)) (key : Key) : Option Setting :=
  (Assoc.get members key.name).bind key.ofJson

/-- Merging a file sets the keys that the object has with the right type, and leaves the others. -/
def SetsAs (w : World) (toml : CStr) (members : List (CStr × JsonValue)) : Prop :=
  ∀ (s : Loaded × List Warning) (key : Key),
    match jsonSets members key with
    | some x => ((mergeFile w toml s).1.cfg.get key).Same x
    | none => (mergeFile w toml s).1.get key = s.1.get key

/-- No file that is there is changed; and where an object is migrated, merging the new file means the
same as the object. -/
def Preserves (w : World) (jsonPath : CStr) (opens : Option Bytes) (writes : Except Bytes Unit) : Prop :=
  (∀ path, w.file path ≠ .absent →
    (migrateOne w jsonPath opens writes).world.file path = w.file path) ∧
  ∀ toml members, tomlPath jsonPath = .ok toml → w.file toml = .absent →
    jsonLoadFile (w.file jsonPath) = .ok (.obj members) →
    (migrateOne w jsonPath opens writes).rc = 0 →
      SetsAs (migrateOne w jsonPath opens writes).world toml members

section

variable {w w' : World} {jsonPath toml path text : CStr} {opens : Option Bytes}
  {writes : Except Bytes Unit} {members : List (CStr × JsonValue)} {key : Key} {v : JsonValue}

/-! ## The migrated members -/

theorem name_injective : Function.Injective Key.name := fun k k' h => by
  simpa [keyBit_name] using congrArg keyBit h

theorem get_migratedMembers (members : List (CStr × JsonValue)) (key : Key) :
    tableGetShort (migratedMembers members) key.name =
      if key ∈ migratedKeys then (Assoc.get members key.name).bind tomlOf else none :=
  Assoc.get_filterMap name_injective
    (fun key : Key => (Assoc.get members key.name).bind tomlOf) migratedKeys key

theorem nodup_migratedMembers (members : List (CStr × JsonValue)) :
    ((migratedMembers members).map Prod.fst).Nodup :=
  Assoc.nodup_filterMap name_injective _ (by decide)

theorem mem_migratedMembers {m : CStr × TomlValue} (h : m ∈ migratedMembers members) :
    ∃ k v, Assoc.get members k = some v ∧ tomlOf v = some m.2 := by
  obtain ⟨key, -, hm⟩ := List.mem_filterMap.mp h
  obtain ⟨t, ht, rfl⟩ := Option.map_eq_some_iff.mp hm
  obtain ⟨v, hv, hof⟩ := Option.bind_eq_some_iff.mp ht
  exact ⟨key.name, v, hv, hof⟩

/-- What is written is a string or a number. -/
theorem tomlOf_scalar {t : TomlValue} (h : tomlOf v = some t) :
    t.isTable = false ∧ (∀ i, t ≠ .int i) ∧ ∀ d ∈ t.floats, v = .num d := by
  cases v with
  | str | num =>
    injection h with h
    subst h
    simp [TomlValue.isTable, TomlValue.floats]
  | null | bool | arr | obj => cases h

/-- The keys take of what is written what the object means. -/
theorem tomlOf_accepts (key : Key) (v : JsonValue) :
    ((if key ∈ migratedKeys then tomlOf v else none).bind key.accepts) = key.ofJson v := by
  cases key <;> cases v <;> rfl

theorem accepts_migratedMembers (members : List (CStr × JsonValue)) (key : Key) :
    (tableGetShort (migratedMembers members) key.name).bind key.accepts = jsonSets members key := by
  rw [get_migratedMembers, jsonSets]
  cases hget : Assoc.get members key.name with
  | none => simp
  | some v =>
    rw [Option.bind_some, Option.bind_some]
    exact tomlOf_accepts key v

/-- The numbers of a migrated object are finite. -/
theorem finite_migratedMembers (h : Sound jsonMaxDepth (.obj members)) :
    ∀ d ∈ membersFloats (migratedMembers members), d.IsFinite := by
  intro d hd
  obtain ⟨m, hm, hdm⟩ := mem_membersFloats.mp hd
  obtain ⟨k, v, hget, hof⟩ := mem_migratedMembers hm
  obtain rfl := (tomlOf_scalar hof).2.2 d hdm
  exact h.finite d (mem_membersNumbers.mpr ⟨_, Assoc.mem_of_get hget, List.mem_singleton_self d⟩)

theorem dumps_migratedMembers (members : List (CStr × JsonValue)) :
    ∃ text, tomlDumps (.table (migratedMembers members)) = some text := by
  rw [← Option.isSome_iff_exists]
  refine tomlDumps_isSome (membersDepth_le_iff.mpr fun m hm htable => ?_)
  obtain ⟨k, v, -, hof⟩ := mem_migratedMembers hm
  rw [(tomlOf_scalar hof).1] at htable
  cases htable

theorem sound_of_jsonLoadFile {file : File} {root : JsonValue} (h : jsonLoadFile file = .ok root) :
    Sound jsonMaxDepth root := by
  cases file with
  | absent | hidden | unreadable => cases h
  | text b =>
    rw [jsonLoadFile] at h
    cases hparse : jsonParse b with
    | error e => simp only [hparse] at h; cases h
    | ok v =>
      simp only [hparse] at h
      obtain rfl := Except.ok.inj h
      exact sound_of_jsonParse hparse

/-! ## The run -/

theorem file_write (w : World) (toml path : CStr) (b : Bytes) :
    (w.write toml b).file path = if path = toml then .text b else w.file path :=
  Function.update_apply ..

/-- What is written, if anything, is the new file. -/
theorem migrateMembers_world : (migrateMembers w jsonPath toml opens writes members).world = w ∨
    fopenWrite w toml opens = .ok () ∧
      ∃ b, (migrateMembers w jsonPath toml opens writes members).world = w.write toml b := by
  unfold migrateMembers
  cases (addMembers (migratedMembers members)).bind fun t => tomlDumps (.table t) with
  | none => exact .inl rfl
  | some text =>
    cases hopen : fopenWrite w toml opens with
    | error strerror => exact .inl rfl
    | ok u => cases writes <;> exact .inr ⟨rfl, _, rfl⟩

/-- A file that is not there for `stat` but can be opened is not there at all. -/
theorem absent_of_fopen (hexists : w.exists path = false) (hopen : fopenWrite w path opens = .ok ()) :
    w.file path = .absent := by
  unfold fopenWrite at hopen
  unfold World.exists at hexists
  cases hfile : w.file path with
  | absent => rfl
  | hidden strerror =>
    rw [hfile] at hopen
    split_ifs at hopen
  | unreadable | text => simp [hfile] at hexists

theorem migrateFile_world : (migrateFile w jsonPath toml opens writes).world = w ∨
    fopenWrite w toml opens = .ok () ∧
      ∃ b, (migrateFile w jsonPath toml opens writes).world = w.write toml b := by
  unfold migrateFile
  cases jsonLoadFile (w.file jsonPath) with
  | error e => exact .inl rfl
  | ok root =>
    cases root with
    | obj members => exact migrateMembers_world
    | null | bool | num | str | arr => exact .inl rfl

/-- A run changes no file, or it writes one that was not there. -/
theorem migrateOne_world : (migrateOne w jsonPath opens writes).world = w ∨
    ∃ toml b, w.file toml = .absent ∧ (migrateOne w jsonPath opens writes).world = w.write toml b := by
  unfold migrateOne
  cases tomlPath jsonPath with
  | error e => exact .inl rfl
  | ok toml =>
    dsimp only
    split
    · exact .inl rfl
    · exact .inl rfl
    · split_ifs with hexists
      · exact .inl rfl
      · rcases migrateFile_world with hworld | ⟨hopen, b, hworld⟩
        · exact .inl hworld
        · exact .inr ⟨toml, b, absent_of_fopen (Bool.not_eq_true _ ▸ hexists) hopen, hworld⟩

/-- Nothing but the new file is written. -/
theorem migrateOne_frame (h : w.file path ≠ .absent) :
    (migrateOne w jsonPath opens writes).world.file path = w.file path := by
  rcases migrateOne_world with hworld | ⟨toml, b, habsent, hworld⟩
  · rw [hworld]
  · rw [hworld, file_write, if_neg]
    rintro rfl
    exact h habsent

/-- An object that is loaded is migrated. -/
theorem migrateOne_of_load (hpath : tomlPath jsonPath = .ok toml) (habsent : w.file toml = .absent)
    (hload : jsonLoadFile (w.file jsonPath) = .ok (.obj members)) :
    migrateOne w jsonPath opens writes = migrateMembers w jsonPath toml opens writes members := by
  have hexists : w.exists toml = false := by simp [World.exists, habsent]
  have hfile : migrateFile w jsonPath toml opens writes =
      migrateMembers w jsonPath toml opens writes members := by
    rw [migrateFile, hload]
  unfold migrateOne
  rw [hpath]
  cases hjson : w.file jsonPath with
  | absent | hidden => rw [hjson] at hload; cases hload
  | unreadable | text => simp only [hexists, Bool.false_eq_true, if_false, hfile]

/-- The new path is no longer than the old one. -/
theorem length_tomlPath (h : tomlPath jsonPath = .ok toml) : toml.val.length < pathSize := by
  unfold tomlPath at h
  simp only at h
  split_ifs at h with hname hlen
  obtain rfl := Except.ok.inj h
  have hnul : (0 : UInt8) ∉ jsonPath.val.take (jsonPath.val.length - 4) := fun hmem =>
    jsonPath.property (List.mem_of_mem_take hmem)
  have htoml : (CStr.lit "toml").val.length = 4 := by decide +kernel
  rw [CStr.append_val, CStr.val_ofBuffer hnul, List.length_append, List.length_take, htoml]
  omega

/-- The migration of an object succeeds when the file can be opened and written. -/
theorem migrateMembers_rc (hpath : tomlPath jsonPath = .ok toml) (habsent : w.file toml = .absent) :
    (migrateMembers w jsonPath toml opens writes members).rc = 0 ↔ opens = none ∧ writes = .ok () := by
  have hlen := length_tomlPath hpath
  have hopen : ∀ opens, fopenWrite w toml opens = opens.elim (.ok ()) .error := by
    intro opens
    unfold fopenWrite
    rw [if_neg (not_le.mpr hlen), habsent]
    cases opens <;> rfl
  obtain ⟨text, htext⟩ := dumps_migratedMembers members
  unfold migrateMembers
  rw [addMembers_of_nodup (nodup_migratedMembers members), Option.bind_some, htext, hopen]
  cases opens with
  | some e => simp
  | none => cases writes <;> simp

theorem migrateMembers_written (hrc : (migrateMembers w jsonPath toml opens writes members).rc = 0) :
    ∃ text, tomlDumps (.table (migratedMembers members)) = some text ∧
      (migrateMembers w jsonPath toml opens writes members).world = w.write toml text.val := by
  unfold migrateMembers at hrc ⊢
  rw [addMembers_of_nodup (nodup_migratedMembers members), Option.bind_some] at hrc ⊢
  cases htext : tomlDumps (.table (migratedMembers members)) with
  | none => simp [htext] at hrc
  | some text =>
    cases hopen : fopenWrite w toml opens with
    | error e => simp [htext, hopen] at hrc
    | ok u =>
      cases writes with
      | error left => simp [htext, hopen] at hrc
      | ok u => exact ⟨text, rfl, rfl⟩

/-! ## The meaning -/

/-- What the new file holds, once it is written. -/
theorem holds_migrated (hsound : Sound jsonMaxDepth (.obj members))
    (htext : tomlDumps (.table (migratedMembers members)) = some text) (key : Key) :
    holds (w.write toml text.val) key toml = (jsonSets members key).map Setting.readBack := by
  have hscalar : ∀ m ∈ migratedMembers members, m.2.isTable = false ∧ ∀ i, m.2 ≠ .int i := by
    intro m hm
    obtain ⟨k, v, -, hof⟩ := mem_migratedMembers hm
    exact ⟨(tomlOf_scalar hof).1, (tomlOf_scalar hof).2.1⟩
  rw [holds_written (nodup_migratedMembers members) (fun m hm => (hscalar m hm).1)
    (fun m hm => (hscalar m hm).2) (finite_migratedMembers hsound) htext
    (by rw [file_write, if_pos rfl]), accepts_migratedMembers]

/-- A value is the same after it was written and read, unless it is a number of a magnitude past the
range of its digits. -/
theorem same_readBack_iff {x : Setting} (hfinite : ∀ d, x = .num d → d.IsFinite) :
    x.readBack.Same x ↔ ∀ d, x = .num d → Moderate d := by
  cases x with
  | text s | gate on => simp [Setting.readBack, Setting.Same]
  | num d =>
    have hd := hfinite d rfl
    simp only [Setting.readBack, Setting.Same, Setting.num.injEq, forall_eq', moderate_iff, hd, true_and]

/-- The merge of a migrated file means the same as the object exactly if its numbers are moderate. -/
theorem setsAs_iff (hsound : Sound jsonMaxDepth (.obj members))
    (htext : tomlDumps (.table (migratedMembers members)) = some text) :
    SetsAs (w.write toml text.val) toml members ↔
      ∀ key d, jsonSets members key = some (.num d) → Moderate d := by
  have hfinite : ∀ {key d}, jsonSets members key = some (.num d) → d.IsFinite := by
    intro key d h
    obtain ⟨v, hv, hof⟩ := Option.bind_eq_some_iff.mp h
    have hnum : v = .num d := by
      cases key <;> cases v <;> simp_all [Key.ofJson]
    subst hnum
    exact hsound.finite d (mem_membersNumbers.mpr ⟨_, Assoc.mem_of_get hv, List.mem_singleton_self d⟩)
  have hget : ∀ (s : Loaded × List Warning) (key : Key),
      (mergeFile (w.write toml text.val) toml s).1.get key =
        ((jsonSets members key).map fun x => (x.readBack, true)).getD (s.1.get key) := by
    intro s key
    rw [get_mergeFile, holds_migrated hsound htext, Option.map_map]
    rfl
  -- a key of the object has its value read back, and the other keys stay
  have hset : ∀ (s : Loaded × List Warning) {key : Key} {x : Setting}, jsonSets members key = some x →
      (mergeFile (w.write toml text.val) toml s).1.cfg.get key = x.readBack := by
    intro s key x hx
    have hval := hget s key
    rw [hx] at hval
    exact congrArg Prod.fst hval
  unfold SetsAs
  constructor
  · intro h key d hkey
    have hsame := h (⟨setDefaults, 0⟩, []) key
    simp only [hkey, hset _ hkey] at hsame
    exact (same_readBack_iff fun d' hd' => hfinite (hd' ▸ hkey)).mp hsame d rfl
  · intro h s key
    cases hkey : jsonSets members key with
    | none =>
      have hval := hget s key
      rw [hkey] at hval
      exact hval
    | some x =>
      simp only [hset s hkey]
      exact (same_readBack_iff fun d hd => hfinite (hd ▸ hkey)).mpr fun d hd => h key d (hd ▸ hkey)

theorem migrateOne_rc (hpath : tomlPath jsonPath = .ok toml) (habsent : w.file toml = .absent)
    (hload : jsonLoadFile (w.file jsonPath) = .ok (.obj members)) :
    (migrateOne w jsonPath opens writes).rc = 0 ↔ opens = none ∧ writes = .ok () := by
  rw [migrateOne_of_load hpath habsent hload, migrateMembers_rc hpath habsent]

/-- The same for the run of the migration that writes the file. -/
theorem setsAs_migrateOne_iff (hpath : tomlPath jsonPath = .ok toml) (habsent : w.file toml = .absent)
    (hload : jsonLoadFile (w.file jsonPath) = .ok (.obj members))
    (hrc : (migrateOne w jsonPath opens writes).rc = 0) :
    SetsAs (migrateOne w jsonPath opens writes).world toml members ↔
      ∀ key d, jsonSets members key = some (.num d) → Moderate d := by
  rw [migrateOne_of_load hpath habsent hload] at hrc ⊢
  obtain ⟨text, htext, hworld⟩ := migrateMembers_written hrc
  rw [hworld]
  exact setsAs_iff (sound_of_jsonLoadFile hload) htext

/-- A run of the migration preserves the meaning of the object and every file that is there, exactly if
each number that is migrated for a key that takes numbers is below the bound from which its fifteen
digits are past the range of `double`. -/
theorem preserves_iff : Preserves w jsonPath opens writes ↔
    ∀ toml members, tomlPath jsonPath = .ok toml → w.file toml = .absent →
      jsonLoadFile (w.file jsonPath) = .ok (.obj members) → opens = none → writes = .ok () →
        ∀ key d, jsonSets members key = some (.num d) → Moderate d := by
  constructor
  · rintro ⟨-, hmeans⟩ toml members hpath habsent hload hopens hwrites
    have hrc := (migrateOne_rc hpath habsent hload).mpr ⟨hopens, hwrites⟩
    exact (setsAs_migrateOne_iff hpath habsent hload hrc).mp (hmeans toml members hpath habsent hload hrc)
  · intro hmoderate
    refine ⟨fun path => migrateOne_frame, fun toml members hpath habsent hload hrc => ?_⟩
    obtain ⟨hopens, hwrites⟩ := (migrateOne_rc hpath habsent hload).mp hrc
    apply (setsAs_migrateOne_iff hpath habsent hload hrc).mpr
    exact hmoderate toml members hpath habsent hload hopens hwrites

end

/-- A file of the first version, beside no other file. -/
def firstVersion (text : Bytes) : World where
  file := fun path => if path = .lit "c.json" then .text text else .absent
  home := none
  configRoot := none

/-- The largest value, with digits enough to be read back. -/
def largestText : Bytes := ascii "\x7b\"alpha\": 1.7976931348623157e308\x7d"

/-- The parsed file has a number for a key, and the number is not printed as an infinity. -/
def hasFiniteText (parsed : Except (Bytes × ℕ) JsonValue) (key : Key) : Bool :=
  match parsed with
  | .ok (.obj members) =>
    match jsonSets members key with
    | some (.num d) => decide (fmtG 15 (.inf false) ≠ fmtG 15 d)
    | _ => false
  | _ => false

/-- The largest value is migrated, and merging the new file reads an infinity. -/
theorem largest_not_preserved : ¬ ∀ w jsonPath opens writes, Preserves w jsonPath opens writes := by
  intro h
  have hpath : tomlPath (.lit "c.json") = .ok (.lit "c.toml") := by decide +kernel
  have hne : CStr.lit "c.toml" ≠ .lit "c.json" := by decide +kernel
  have habsent : (firstVersion largestText).file (.lit "c.toml") = .absent := by
    simp [firstVersion, hne]
  -- merging reads an infinity, where the old file had a finite value
  have hmerged : (mergeFile (migrateOne (firstVersion largestText) (.lit "c.json") none (.ok ())).world
      (.lit "c.toml") (⟨setDefaults, 0⟩, [])).1.cfg.alpha = .inf false := by
    decide +kernel
  have hobject : hasFiniteText (jsonLoadFile ((firstVersion largestText).file (.lit "c.json")))
      .alpha = true := by
    decide +kernel
  cases hload : jsonLoadFile ((firstVersion largestText).file (.lit "c.json")) with
  | error e => rw [hload] at hobject; cases hobject
  | ok root =>
    rw [hload] at hobject
    cases root with
    | obj members =>
      have hrc := (migrateOne_rc hpath habsent hload).mpr ⟨rfl, rfl⟩
      -- the two settings of `alpha` would have to be the same
      have hsame := (h _ _ _ _).2 _ _ hpath habsent hload hrc (⟨setDefaults, 0⟩, []) .alpha
      cases hset : jsonSets members .alpha with
      | none => simp [hasFiniteText, hset] at hobject
      | some x =>
        cases x with
        | num d =>
          simp only [hset, Config.get, hmerged, Setting.Same] at hsame
          simp [hasFiniteText, hset, hsame] at hobject
        | text | gate => simp [hasFiniteText, hset] at hobject
    | null | bool | num | str | arr => cases hobject

end UserConfig
