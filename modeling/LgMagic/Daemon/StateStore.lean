import LgMagic.Daemon.AtomicWrite
import LgMagic.Toml.RoundTrip

/-!
# The store of active profiles

`state.toml` under failures and crashes. The store is the map from identities to the profile last
saved for them; saving reads the file, sets one entry and replaces the file. In every run of saves,
with a failure or a crash at any call, the file is the text of the map of the completed saves.

* `entriesOf`, `lastSave`: the abstract store of a log of saves;
* `storeTree`: its tree;
* `SaveRun`: runs of saves, with the log of those whose rename was completed;
* `Store`: the invariant, kept by `saveRun_store`;
* `saveRun_load`: what loading finds.
-/

namespace Daemon

open CString Toml Binary64 Posix Profiles

/-! ## The abstract store -/

/-- The entries after a log of saves, each an identity and a profile. -/
def entriesOf (log : List (CStr × CStr)) : List (CStr × CStr) :=
  log.foldl (fun es s => Assoc.put es s.1 s.2) []

/-- The profile of the last save for an identity. -/
def lastSave (log : List (CStr × CStr)) (identity : CStr) : Option CStr :=
  (log.reverse.find? fun s => s.1 = identity).map Prod.snd

theorem entriesOf_append_singleton (log : List (CStr × CStr)) (identity profile : CStr) :
    entriesOf (log ++ [(identity, profile)]) = Assoc.put (entriesOf log) identity profile := by
  simp [entriesOf]

theorem get_entriesOf (log : List (CStr × CStr)) (identity : CStr) :
    Assoc.get (entriesOf log) identity = lastSave log identity := by
  induction log using List.reverseRecOn with
  | nil => rfl
  | append_singleton log s ih =>
    obtain ⟨i, p⟩ := s
    rw [entriesOf_append_singleton, Assoc.get_put, ih, lastSave, lastSave, List.reverse_append]
    by_cases h : i = identity
    · simp [h]
    · simp [h, Ne.symm h]

theorem nodup_entriesOf (log : List (CStr × CStr)) : ((entriesOf log).map Prod.fst).Nodup := by
  induction log using List.reverseRecOn with
  | nil => simp [entriesOf]
  | append_singleton log s ih =>
    rw [entriesOf_append_singleton]
    exact Assoc.nodup_put ih

/-! ## The tree of the store -/

/-- The tables of the entries. -/
def storeDevices (es : List (CStr × CStr)) : Members :=
  es.map fun e => (e.1, .table [(.lit "profile", .str e.2)])

/-- The tree of `state.toml` with these entries. -/
def storeTree (es : List (CStr × CStr)) : Members :=
  newState ++ [(.lit "devices", .table (storeDevices es))]

section

variable {es : List (CStr × CStr)} {identity profile : CStr}

theorem get_storeDevices : tableGetShort (storeDevices es) identity =
    (Assoc.get es identity).map fun p => .table [(.lit "profile", .str p)] := by
  induction es with
  | nil => rfl
  | cons e es ih =>
    obtain ⟨i, p⟩ := e
    by_cases h : i = identity
    · simp [storeDevices, tableGetShort, Assoc.get, h]
    · simpa [storeDevices, tableGetShort, Assoc.get, h] using ih

theorem set_storeDevices : Assoc.set (storeDevices es) identity
    (.table [(.lit "profile", .str profile)]) = storeDevices (Assoc.set es identity profile) := by
  induction es with
  | nil => rfl
  | cons e es ih =>
    obtain ⟨i, p⟩ := e
    by_cases h : i = identity
    · simp [storeDevices, Assoc.set, h]
    · simpa [storeDevices, Assoc.set, h] using ih

theorem get_devices_storeTree :
    tableGetShort (storeTree es) (.lit "devices") = some (.table (storeDevices es)) := rfl

/-- A lookup in the tree is a lookup in the entries. -/
theorem stateProfile_storeTree : stateProfile (storeTree es) identity = Assoc.get es identity := by
  rw [stateProfile, get_devices_storeTree]
  simp only [get_storeDevices]
  cases Assoc.get es identity with
  | none => rfl
  | some p => rfl

/-- Setting the profile of a remote in the devices. -/
private theorem ensureTable_storeDevices :
    ∃ devs dev, ensureTable (storeDevices es) identity = some (devs, dev) ∧
      Assoc.set devs identity (.table (tableSetStr dev (.lit "profile") profile)) =
        storeDevices (Assoc.put es identity profile) := by
  cases h : Assoc.get es identity with
  | some p =>
    refine ⟨storeDevices es, [(.lit "profile", .str p)], ?_, ?_⟩
    · simp [ensureTable, get_storeDevices, h]
    · have hput : tableSetStr [(.lit "profile", .str p)] (.lit "profile") profile =
          [(.lit "profile", .str profile)] := rfl
      rw [hput, set_storeDevices, Assoc.put, if_pos (by simp [h])]
  | none =>
    have hnone : tableGetShort (storeDevices es) identity = none := by simp [get_storeDevices, h]
    refine ⟨storeDevices es ++ [(identity, .table [])], [], ?_, ?_⟩
    · simp [ensureTable, hnone, tableAdd]
    · have hput : tableSetStr [] (.lit "profile") profile = [(.lit "profile", .str profile)] := rfl
      rw [hput, Assoc.set_concat hnone, Assoc.put, if_neg (by simp [h])]
      simp [storeDevices]

/-- Setting an entry in the tree is setting it in the entries. -/
theorem setStateProfile_storeTree : setStateProfile (storeTree es) identity profile =
    some (storeTree (Assoc.put es identity profile)) := by
  obtain ⟨devs, dev, hensure, hset⟩ := @ensureTable_storeDevices es identity profile
  have hdevs : ensureTable (storeTree es) (.lit "devices") =
      some (storeTree es, storeDevices es) := rfl
  simp only [setStateProfile, hdevs, hensure, Option.bind_eq_bind, Option.bind_some, hset]
  rfl

/-- The first entry makes the tree. -/
theorem setStateProfile_newState : setStateProfile newState identity profile =
    some (storeTree [(identity, profile)]) := by
  simp [setStateProfile, ensureTable, newState, tableGetShort, tableAdd, Assoc.get, Assoc.set,
    tableSetStr, Assoc.put, storeTree, storeDevices, show CStr.lit "version" ≠ CStr.lit "devices" by
      decide]

theorem map_fst_storeDevices : (storeDevices es).map Prod.fst = es.map Prod.fst := by
  simp [storeDevices]

theorem storeTree_wellFormed (h : (es.map Prod.fst).Nodup) :
    (TomlValue.table (storeTree es)).WellFormed := by
  have hdevices : membersWellFormed (storeDevices es) := by
    rw [membersWellFormed_iff]
    intro m hm
    obtain ⟨e, -, rfl⟩ := List.mem_map.mp hm
    simp [TomlValue.WellFormed, membersWellFormed]
  refine ⟨?_, trivial, ⟨by rwa [map_fst_storeDevices], hdevices⟩, trivial⟩
  exact (by decide : [CStr.lit "version", CStr.lit "devices"].Nodup)

theorem storeTree_floatsRead : (TomlValue.table (storeTree es)).FloatsRead := by
  have hdevices : membersFloatsRead (storeDevices es) := by
    induction es with
    | nil => simp [storeDevices, membersFloatsRead]
    | cons e es ih =>
      simpa [storeDevices, membersFloatsRead, TomlValue.FloatsRead] using ih
  simpa [storeTree, newState, TomlValue.FloatsRead, membersFloatsRead] using hdevices

theorem normalizeMembers_storeDevices : normalizeMembers (storeDevices es) = storeDevices es := by
  have htables : ∀ m ∈ storeDevices es, m.2.isTable = true := by
    intro m hm
    obtain ⟨e, -, rfl⟩ := List.mem_map.mp hm
    rfl
  rw [normalizeMembers_tables htables]
  induction es with
  | nil => rfl
  | cons e es ih =>
    rw [storeDevices, List.map_cons, normalizeTables_table, normalizeMembers_scalar _ _ rfl,
      normalizeMembers_nil]
    exact congrArg _ (ih fun m hm => htables m (List.mem_cons_of_mem _ hm))

/-- The tree of the store is in normal form. -/
theorem normalizeMembers_storeTree : normalizeMembers (storeTree es) = storeTree es := by
  have htables : ∀ m ∈ [(CStr.lit "devices", TomlValue.table (storeDevices es))],
      m.2.isTable = true := by simp
  rw [storeTree, newState, List.singleton_append, normalizeMembers_scalar _ _ rfl,
    normalizeMembers_tables htables, normalizeTables_table, normalizeMembers_storeDevices]
  rfl

theorem storeTree_depth : (TomlValue.table (storeTree es)).depth ≤ tomlMaxDepth - 1 := by
  have hdevices : membersDepth (storeDevices es) ≤ 1 := by
    induction es with
    | nil => simp [storeDevices, membersDepth]
    | cons e es ih =>
      simpa [storeDevices, membersDepth, TomlValue.depth, TomlValue.isTable] using ih
  simp only [storeTree, newState, List.singleton_append, TomlValue.depth, membersDepth,
    TomlValue.isTable, tomlMaxDepth]
  simp
  omega

/-- The text of the store's tree, which is read back. -/
theorem storeTree_text (h : (es.map Prod.fst).Nodup) :
    ∃ text, tomlDumps (.table (storeTree es)) = some text ∧
      Toml.tomlParse text.val = .ok (storeTree es) := by
  obtain ⟨text, htext⟩ := Option.isSome_iff_exists.mp (tomlDumps_isSome (@storeTree_depth es))
  refine ⟨text, htext, ?_⟩
  rw [tomlParse_of_tomlDumps (storeTree_wellFormed h) storeTree_floatsRead htext,
    normalizeMembers_storeTree]

end

/-! ## Runs of saves -/

/-- A run replaced `state.toml`. -/
def saved (dc : DaemonConfig) (tr : Trace) : Bool :=
  match statePath dc with
  | some path => renamed path tr
  | none => false

/-- Runs of saves from an absent store, each of which may fail or crash, with the log of the saves
whose rename was completed. Between saves other files may change in any way. -/
inductive SaveRun (dc : DaemonConfig) : List (CStr × CStr) → Fs → Prop
  | start {fs : Fs} (h : ∀ path, statePath dc = some path → fs path = none) : SaveRun dc [] fs
  | save {log : List (CStr × CStr)} {fs fs' : Fs} {tr : Trace}
      {o : Option (Except SaveError Unit)} (identity profile : CStr) (h : SaveRun dc log fs)
      (hrun : Prog.Run posix (daemonConfigSaveProfile dc identity profile) fs tr o fs') :
      SaveRun dc (log ++ if saved dc tr then [(identity, profile)] else []) fs'
  | edit {log : List (CStr × CStr)} {fs fs' : Fs} (h : SaveRun dc log fs)
      (hkeep : ∀ path, statePath dc = some path → fs' path = fs path) : SaveRun dc log fs'

/-- The store holds the entries of a log: there is no file before the first save, and the text of
the tree after it. -/
def Store (log : List (CStr × CStr)) (file : Option File) : Prop :=
  file = none ∧ log = [] ∨
    ∃ text, file = some ⟨text, true⟩ ∧ tomlParse text = .ok (storeTree (entriesOf log))

theorem Store.synced {log : List (CStr × CStr)} {file : Option File} (h : Store log file) :
    ∀ f, file = some f → f.synced = true := by
  rintro f rfl
  rcases h with ⟨h, -⟩ | ⟨text, h, -⟩
  · exact absurd h (by simp)
  · injection h with h
    rw [h]

/-- The tree that a save makes of the store. -/
theorem Store.setStateProfile {log : List (CStr × CStr)} {fs : Fs} {path : CStr}
    (h : Store log (fs path)) (identity profile : CStr) :
    setStateProfile ((tomlLoadFile (fs.contents path)).getD newState) identity profile =
      some (storeTree (entriesOf (log ++ [(identity, profile)]))) := by
  rcases h with ⟨hnone, rfl⟩ | ⟨text, hsome, hparse⟩
  · simp only [Fs.contents, hnone, tomlLoadFile, Option.map_none, Option.bind_none,
      Option.getD_none]
    exact setStateProfile_newState
  · simp only [Fs.contents, hsome, tomlLoadFile, Option.map_some, Option.bind_some, hparse,
      Except.toOption, Option.getD_some]
    rw [setStateProfile_storeTree, entriesOf_append_singleton]

/-- One save keeps the store, whatever fails. -/
theorem store_save {dc : DaemonConfig} {path : CStr} (hpath : statePath dc = some path)
    {log : List (CStr × CStr)} {fs fs' : Fs} {tr : Trace} {o : Option (Except SaveError Unit)}
    {identity profile : CStr} (h : Store log (fs path))
    (hrun : Prog.Run posix (daemonConfigSaveProfile dc identity profile) fs tr o fs') :
    Store (log ++ if saved dc tr then [(identity, profile)] else []) (fs' path) := by
  obtain ⟨text, htext, hparse⟩ :=
    storeTree_text (nodup_entriesOf (log ++ [(identity, profile)]))
  have hends := hrun.of_wp (wp_saveProfile hpath (h.setStateProfile identity profile) htext)
  rw [List.nil_append] at hends
  have hsaved : saved dc tr = renamed path tr := by rw [saved, hpath]
  -- the store as the calls leave it
  have hstore : ∀ {tr : Trace} {fs₁ : Fs}, Replaced fs path (tmpPath path) text.val tr fs₁ →
      Store (log ++ if renamed path tr then [(identity, profile)] else []) (fs₁ path) := by
    intro tr fs₁ hreplaced
    rw [hreplaced.target]
    split_ifs
    · exact .inr ⟨text.val, rfl, hparse⟩
    · rwa [List.append_nil]
  rw [hsaved]
  cases o with
  | some r => exact hstore hends.1
  | none =>
    obtain ⟨fs₁, hreplaced, hcrash⟩ := hends
    rw [Crash.of_synced hcrash (hstore hreplaced).synced]
    exact hstore hreplaced

/-- Every run of saves keeps the store of its log. -/
theorem saveRun_store {dc : DaemonConfig} {path : CStr} (hpath : statePath dc = some path)
    {log : List (CStr × CStr)} {fs : Fs} (h : SaveRun dc log fs) : Store log (fs path) := by
  induction h with
  | start h => exact .inl ⟨h path hpath, rfl⟩
  | save identity profile _ hrun ih => exact store_save hpath ih hrun
  | edit _ hkeep ih => rwa [hkeep path hpath]

/-- The profile found in the store's file. -/
theorem Store.lookup {log : List (CStr × CStr)} {fs : Fs} {path : CStr} (h : Store log (fs path))
    (identity : CStr) :
    ((tomlLoadFile (fs.contents path)).bind fun root => stateProfile root identity) =
      lastSave log identity := by
  rcases h with ⟨hnone, rfl⟩ | ⟨text, hsome, hparse⟩
  · simp [Fs.contents, hnone, tomlLoadFile, lastSave]
  · simp only [Fs.contents, hsome, tomlLoadFile, Option.map_some, Option.bind_some, hparse,
      Except.toOption, stateProfile_storeTree, get_entriesOf]

/-- Loading a remote without a device file finds the built-in configuration with the profile of the
store. -/
theorem load_of_store {dc : DaemonConfig} {dpath path : CStr} {identity : CStr}
    (hdpath : devicePath dc identity = some dpath) (hpath : statePath dc = some path)
    {log : List (CStr × CStr)} {fs : Fs} (hstore : Store log (fs path)) (hnone : fs dpath = none) :
    daemonConfigLoadRemote dc fs.contents identity =
      (.ok (), { (deviceConfigInit : DeviceConfig Double) with
        profile := (lastSave log identity).getD (.lit "default") }) := by
  have hdevice : fs.contents dpath = none := by simp [Fs.contents, hnone]
  simp only [daemonConfigLoadRemote, hdpath, hdevice, deviceConfigLoadFile, hpath,
    hstore.lookup identity]
  rfl

/-- Without failures a save succeeds in every state, also with a temporary file left over. -/
theorem exec_saveProfile {dc : DaemonConfig} {path : CStr} (hpath : statePath dc = some path)
    (hfits : (pathJoin pathSize path (.lit ".tmp")).isSome) {log : List (CStr × CStr)} {fs : Fs}
    (hstore : Store log (fs path)) (identity profile : CStr) :
    ∃ text : CStr, (daemonConfigSaveProfile dc identity profile).exec faultless fs =
      (.ok (), Function.update (Function.update fs path (some ⟨text.val, true⟩))
        (tmpPath path) none) := by
  obtain ⟨text, htext, -⟩ := storeTree_text (nodup_entriesOf (log ++ [(identity, profile)]))
  refine ⟨text, ?_⟩
  rw [daemonConfigSaveProfile, hpath]
  simp only [Prog.exec_bind]
  have hread : (readFile path).exec faultless fs = (fs.contents path, fs) := rfl
  rw [hread]
  simp only [hstore.setStateProfile identity profile, Option.bind_some, htext, Prog.exec_bind,
    mkdirP, exec_mkdirs]
  exact exec_atomicWriteFile hfits fs

/-- The store in every run of saves, with failures and crashes at any call: the file is absent or
parses; it names for every identity the profile of the last save whose rename was completed, and
loading a remote without a device file finds that profile, or the built-in default; and without
failures the next save is completed, whatever temporary file was left over. -/
theorem saveRun_load {dc : DaemonConfig} {path : CStr} (hpath : statePath dc = some path)
    {log : List (CStr × CStr)} {fs : Fs} (h : SaveRun dc log fs) :
    (fs path = none ∨ ∃ f root, fs path = some f ∧ tomlParse f.data = .ok root) ∧
    (∀ identity, ((tomlLoadFile (fs.contents path)).bind fun root => stateProfile root identity) =
      lastSave log identity) ∧
    (∀ identity dpath, devicePath dc identity = some dpath → fs dpath = none →
      daemonConfigLoadRemote dc fs.contents identity =
        (.ok (), { (deviceConfigInit : DeviceConfig Double) with
          profile := (lastSave log identity).getD (.lit "default") })) ∧
    ((pathJoin pathSize path (.lit ".tmp")).isSome → ∀ identity profile, ∃ fs',
      (daemonConfigSaveProfile dc identity profile).exec faultless fs = (.ok (), fs') ∧
      (∀ p, p ≠ path → p ≠ tmpPath path → fs' p = fs p) ∧
      SaveRun dc (log ++ [(identity, profile)]) fs') := by
  have hstore := saveRun_store hpath h
  refine ⟨?_, hstore.lookup, fun identity dpath hdpath => load_of_store hdpath hpath hstore, ?_⟩
  · rcases hstore with ⟨hnone, -⟩ | ⟨text, hsome, hparse⟩
    · exact .inl hnone
    · exact .inr ⟨_, _, hsome, hparse⟩
  -- without faults the save goes through, and it is a step of the run
  · intro hfits identity profile
    obtain ⟨text, hexec⟩ := exec_saveProfile hpath hfits hstore identity profile
    obtain ⟨tr, hrun⟩ := Prog.run_exec step_faultless
      (daemonConfigSaveProfile dc identity profile) fs
    refine ⟨_, hexec, fun p hp hp' => ?_, ?_⟩
    · rw [Function.update_of_ne hp', Function.update_of_ne hp]
    · -- a save that succeeds completed its rename
      obtain ⟨text', htext', -⟩ := storeTree_text (nodup_entriesOf (log ++ [(identity, profile)]))
      have hends := hrun.of_wp
        (wp_saveProfile hpath (hstore.setStateProfile identity profile) htext')
      rw [hexec] at hends hrun
      have hsaved : saved dc tr = true := by
        rw [saved, hpath]
        exact hends.2.mp rfl
      simpa [hsaved] using h.save identity profile hrun

theorem saveRun_load_staleTmp :
    ∃ fs, SaveRun defaultDirs [(.lit "AA:BB:CC:DD:EE:FF", .lit "tv")] fs ∧
      (daemonConfigLoadRemote defaultDirs fs.contents (.lit "AA:BB:CC:DD:EE:FF")).2.profile =
        .lit "tv" := by
  have hpath : statePath defaultDirs = some (.lit "/var/lib/lgmagic/state.toml") := by decide
  have hdpath : devicePath defaultDirs (.lit "AA:BB:CC:DD:EE:FF") =
      some (.lit "/etc/lgmagic/devices.d/AA:BB:CC:DD:EE:FF.toml") := by decide
  have hstart : SaveRun defaultDirs [] (fun p =>
      if p = .lit "/var/lib/lgmagic/state.toml.tmp" then some ⟨[0x5B], false⟩ else none) := by
    refine .start fun path h => ?_
    rw [hpath] at h
    injection h with h
    exact if_neg (h ▸ by decide)
  obtain ⟨fs, -, hframe, hrun⟩ := (saveRun_load hpath hstart).2.2.2 (by decide)
    (.lit "AA:BB:CC:DD:EE:FF") (.lit "tv")
  refine ⟨fs, hrun, ?_⟩
  rw [(saveRun_load hpath hrun).2.2.1 _ _ hdpath (hframe _ (by decide) (by decide))]
  rfl

end Daemon
