import LgMagic.Daemon.InForce
import LgMagic.Daemon.LoadBack

/-!
# Setting the active profile

`SetProfile` checks the name against the configuration in memory, enters it in `state.toml` and loads
the configuration of the remote again, whose device file may have changed meanwhile. It answers with
success whatever comes of the load. The entry is read back unless a number elsewhere in `state.toml`
is infinite: its text is no number, and the file is then passed over.

* `entryPath`, `StateFinite`: the entry of a remote in `state.toml`, and the numbers beside it;
* `StateSaved`, `StateSaved.overlay`: a store that was saved, and the profile that is read from it;
* `Reloaded`, `wp_setProfile_reloaded`: what a request that is answered with success does;
* `ProfileInForce`, `setProfile_inForce_iff`: when the profile is in force after it.
-/

namespace Daemon

open Binary64 CString Posix Printf Prog Profiles Toml

/-! ## The entry of a remote -/

/-- Where the active profile of a remote stands in `state.toml`. -/
def entryPath (mac : CStr) : List CStr := [.lit "devices", mac, .lit "profile"]

/-- The numbers of `state.toml` outside the entry of a remote are finite. -/
def StateFinite (file : Option Bytes) (mac : CStr) : Prop :=
  ∀ root q d, tomlLoadFile file = some root → nodeAt (.table root) q = some (.float d) →
    ¬ entryPath mac <+: q → d.IsFinite

variable {t t' sub root root' : Members} {key mac profile : CStr} {file : Option Bytes} {d : Double}

/-- A table that is there is kept, and one that is missing is made. -/
theorem ensureTable_eq_some (h : ensureTable t key = some (t', sub)) :
    Subtable t key sub ∧ ∀ v, Assoc.set t' key v = Assoc.put t key v := by
  rw [ensureTable] at h
  cases hget : tableGetShort t key with
  | none =>
    simp only [hget, tableAdd, Option.isSome_none] at h
    cases h
    refine ⟨.inr ⟨hget, rfl⟩, fun v => ?_⟩
    rw [Assoc.set_concat hget, put_of_none hget]
  | some w =>
    cases w with
    | table sub =>
      simp only [hget] at h
      cases h
      exact ⟨.inl hget, fun v => (put_of_some hget).symm⟩
    | str s | int i | float d | bool b | arr items =>
      simp [hget, tableAdd] at h

/-- Setting the profile replaces one member of one table. -/
theorem setStateProfile_eq_some (h : setStateProfile root mac profile = some root') :
    ∃ devs dev, Subtable root (.lit "devices") devs ∧ Subtable devs mac dev ∧
      root' = Assoc.put root (.lit "devices") (.table (Assoc.put devs mac
        (.table (Assoc.put dev (.lit "profile") (.str profile))))) := by
  obtain ⟨⟨root₁, devs⟩, hroot, h⟩ := Option.bind_eq_some_iff.mp h
  obtain ⟨⟨devs₁, dev⟩, hdevs, h⟩ := Option.bind_eq_some_iff.mp h
  obtain ⟨hsub, hset⟩ := ensureTable_eq_some hroot
  obtain ⟨hsub', hset'⟩ := ensureTable_eq_some hdevs
  refine ⟨devs, dev, hsub, hsub', ?_⟩
  rw [← hset, ← hset']
  exact (Option.some.inj h).symm

theorem wellFormed_setStateProfile (hwf : (TomlValue.table root).WellFormed)
    (h : setStateProfile root mac profile = some root') : (TomlValue.table root').WellFormed := by
  obtain ⟨devs, dev, hdevs, hdev, rfl⟩ := setStateProfile_eq_some h
  have hwfDevs := hdevs.wellFormed hwf
  exact wellFormed_put hwf (wellFormed_put hwfDevs (wellFormed_put (hdev.wellFormed hwfDevs) trivial))

/-- The entry is set. -/
theorem nodeAt_setStateProfile (h : setStateProfile root mac profile = some root') :
    nodeAt (.table root') (entryPath mac) = some (.str profile) := by
  obtain ⟨devs, dev, -, -, rfl⟩ := setStateProfile_eq_some h
  rw [entryPath, nodeAt_of_get Assoc.get_put_self, nodeAt_of_get Assoc.get_put_self,
    nodeAt_of_get Assoc.get_put_self, nodeAt_nil]

/-- The floats are those beside the entry. -/
theorem nodeAt_float_setStateProfile (h : setStateProfile root mac profile = some root')
    (q : List CStr) : nodeAt (.table root') q = some (.float d) ↔
      nodeAt (.table root) q = some (.float d) ∧ ¬ entryPath mac <+: q := by
  obtain ⟨devs, dev, hdevs, hdev, rfl⟩ := setStateProfile_eq_some h
  have hmark (t : Members) (q : List CStr) :
      nodeAt (.table t) q = some (.float d) ↔ markAt t q = some (.value (.float d)) := by
    rw [markAt, Option.map_eq_some_iff]
    constructor
    · intro hnode
      exact ⟨_, hnode, rfl⟩
    · rintro ⟨v, hnode, hv⟩
      rw [hnode, (mark_eq_value hv).1]
  rw [hmark, hmark]
  -- from the table of the remote upwards
  refine hdevs.valueAt_put (hdev.valueAt_put fun q => ?_) q
  cases q with
  | nil => simp
  | cons k q =>
    by_cases hk : k = .lit "profile"
    · subst hk
      rw [markAt_put_self]
      cases q with
      | nil => simp [TomlValue.mark]
      | cons k q =>
        rw [nodeAt_scalar rfl]
        simp [List.cons_prefix_cons]
    · rw [markAt_put_ne hk, List.cons_prefix_cons, and_iff_left]
      exact fun h => hk h.1.symm

/-- The profile that is found for a remote. -/
theorem stateProfile_of_nodeAt (h : nodeAt (.table root) (entryPath mac) = some (.str profile)) :
    stateProfile root mac = some profile := by
  have hcons {v : TomlValue} {k : CStr} {q : List CStr} (h : nodeAt v (k :: q) = some (.str profile)) :
      ∃ ms w, v = .table ms ∧ tableGetShort ms k = some w ∧ nodeAt w q = some (.str profile) := by
    cases v with
    | table ms =>
      rw [nodeAt_cons] at h
      obtain ⟨w, hget, hnode⟩ := Option.bind_eq_some_iff.mp h
      exact ⟨ms, w, rfl, hget, hnode⟩
    | str s | int i | float d | bool b | arr items => cases h
  obtain ⟨_, devs, hroot, hdevs, h⟩ := hcons h
  cases hroot
  obtain ⟨devs, dev, rfl, hdev, h⟩ := hcons h
  obtain ⟨dev, v, rfl, hv, h⟩ := hcons h
  rw [nodeAt_nil] at h
  cases h
  simp [stateProfile, hdevs, hdev, tableGetStr, hv]

theorem wellFormed_newState : (TomlValue.table newState).WellFormed :=
  ⟨List.nodup_singleton _, trivial, trivial⟩

/-- The tree of the store, a new one where there is none. -/
theorem wellFormed_state (file : Option Bytes) :
    (TomlValue.table ((tomlLoadFile file).getD newState)).WellFormed := by
  cases hload : tomlLoadFile file with
  | none => exact wellFormed_newState
  | some root =>
    obtain ⟨text, -, hparse⟩ := Option.bind_eq_some_iff.mp hload
    cases h : tomlParse text with
    | error e => simp [h, Except.toOption] at hparse
    | ok t =>
      obtain rfl : t = root := by simpa [h, Except.toOption] using hparse
      exact wellFormed_of_tomlParse h

theorem finite_setStateProfile_iff
    (h : setStateProfile ((tomlLoadFile file).getD newState) mac profile = some root) :
    (∀ d ∈ membersFloats root, d.IsFinite) ↔ StateFinite file mac := by
  have hwf := wellFormed_setStateProfile (wellFormed_state file) h
  have hmem (d : Double) : d ∈ membersFloats root ↔
      ∃ q, nodeAt (.table ((tomlLoadFile file).getD newState)) q = some (.float d) ∧
        ¬ entryPath mac <+: q := by
    rw [mem_membersFloats_iff_nodeAt]
    exact exists_congr fun q => by rw [← nodeAt_eq_some_iff hwf, nodeAt_float_setStateProfile h]
  constructor
  · intro hfinite root₀ q d hload hnode hq
    refine hfinite d ((hmem d).mpr ⟨q, ?_, hq⟩)
    rwa [hload, Option.getD_some]
  · intro hfinite d hd
    obtain ⟨q, hnode, hq⟩ := (hmem d).mp hd
    cases hload : tomlLoadFile file with
    | none =>
      -- the new tree has no float
      rw [hload, Option.getD_none, nodeAt_eq_some_iff wellFormed_newState] at hnode
      have hnew := mem_membersFloats_iff_nodeAt.mpr ⟨q, hnode⟩
      exact absurd hnew (by simp [newState, membersFloats, TomlValue.floats])
    | some root₀ =>
      rw [hload, Option.getD_some] at hnode
      exact hfinite root₀ q d hload hnode hq

/-! ## A saved store -/

/-- `state.toml` holds the text of the tree with the profile of a remote, and other files are as
before but for the temporary one. -/
structure StateSaved (config : DaemonConfig) (mac profile : CStr) (fs fs' : Fs) : Prop where
  document : ∃ store root text, statePath config = some store ∧
    setStateProfile ((tomlLoadFile (fs.contents store)).getD newState) mac profile = some root ∧
    tomlDumps (.table root) = some text ∧ fs'.contents store = some text.val
  frame : ∀ p, statePath config ≠ some p → (∀ q, p ≠ tmpPath q) → fs' p = fs p

variable {config : DaemonConfig} {fs fs' : Fs} {store : CStr} {dc : DeviceConfig Double}

/-- A save that succeeds. -/
theorem wp_saveProfile_saved (config : DaemonConfig) (mac profile : CStr) (fs : Fs) :
    (daemonConfigSaveProfile config mac profile).wp posix anywhere
      (fun res _ fs' => res = .ok () → StateSaved config mac profile fs fs') [] fs := by
  cases hpath : statePath config with
  | none =>
    rw [daemonConfigSaveProfile, hpath]
    exact ⟨trivial, fun h => by cases h⟩
  | some path =>
    cases htext : (setStateProfile ((tomlLoadFile (fs.contents path)).getD newState) mac
        profile).bind fun root => tomlDumps (.table root) with
    | none =>
      rw [daemonConfigSaveProfile, hpath]
      refine wp_readFile trivial ?_
      simp only [htext]
      exact ⟨trivial, fun h => by cases h⟩
    | some text =>
      obtain ⟨root, hroot, htext⟩ := Option.bind_eq_some_iff.mp htext
      refine wp_mono_inv (fun _ _ _ => trivial)
        (wp_mono (fun res tr fs' hJ hQ hok => ?_) (wp_saveProfile hpath hroot htext))
      refine ⟨⟨path, root, text, hpath, hroot, htext, ?_⟩, fun p hp htmp => ?_⟩
      · rw [Fs.contents, hJ.target, if_pos (hQ.mp hok)]
        rfl
      · exact hJ.frame p (fun heq => hp (by rw [hpath, heq])) (htmp path)

/-- The profile that is read from a saved store: the one that was set, or none where the text of the
tree is no document. -/
theorem StateSaved.overlay (h : StateSaved config mac profile fs fs')
    (hstore : statePath config = some store) :
    (StateFinite (fs.contents store) mac →
      ((tomlLoadFile (fs'.contents store)).bind fun root => stateProfile root mac) = some profile) ∧
    (¬ StateFinite (fs.contents store) mac →
      ((tomlLoadFile (fs'.contents store)).bind fun root => stateProfile root mac) = none) := by
  obtain ⟨store', root, text, hstore', hroot, htext, hfile⟩ := h.document
  obtain rfl : store' = store := Option.some.inj (hstore'.symm.trans hstore)
  have hwf := wellFormed_setStateProfile (wellFormed_state _) hroot
  have hfinite := finite_setStateProfile_iff hroot
  constructor
  · intro hstate
    have hparse := tomlParse_readBack hwf (hfinite.mpr hstate) htext
    -- the entry is where it was set, in the normal form and with the floats read back
    have hnode : nodeAt (.table (normalizeMembers (membersMapFloats readBack root))) (entryPath mac) =
        some (.str profile) := by
      rw [← normalize_table, nodeAt_normalize (wellFormed_mapFloats readBack hwf), ← mapFloats_table,
        nodeAt_mapFloats, nodeAt_setStateProfile hroot]
      rfl
    simp only [hfile, tomlLoadFile, Option.bind_some, hparse, Except.toOption,
      stateProfile_of_nodeAt hnode]
  · intro hstate
    obtain ⟨e, herror⟩ := tomlParse_infinite hwf (fun hall => hstate (hfinite.mp hall)) htext
    simp only [hfile, tomlLoadFile, Option.bind_some, herror, Except.toOption, Option.bind_none]

/-- A load that succeeds: the device file is loaded, and the store names another active profile or
none. -/
theorem daemonConfigLoadRemote_eq_ok {files : CStr → Option Bytes}
    (hstore : statePath config = some store) :
    daemonConfigLoadRemote config files mac = (.ok (), dc) ↔
      ∃ path found d, devicePath config mac = some path ∧
        deviceConfigLoadFile path (files path) deviceConfigInit = (.ok found, d) ∧
        dc = { d with profile :=
          ((tomlLoadFile (files store)).bind fun root => stateProfile root mac).getD d.profile } := by
  rw [daemonConfigLoadRemote]
  cases hpath : devicePath config mac with
  | none => simp
  | some path =>
    dsimp only
    rcases hread : deviceConfigLoadFile path (files path) deviceConfigInit with ⟨_ | found, d⟩
    · simp [hread]
    · simp only [hstore]
      constructor
      · rintro ⟨⟩
        exact ⟨path, found, d, rfl, hread, rfl⟩
      · rintro ⟨_, _, _, ⟨⟩, hread', rfl⟩
        cases hread.symm.trans hread'
        rfl

/-! ## What the request does -/

variable {dd dd' : DaemonDevices} {sender : CStr} {strerror : Bytes} {s s' : DaemonDevices × Fs}
  {l : BusStep}

/-- The profile was saved, and the remote has what is loaded from the files then. -/
structure Reloaded (dd : DaemonDevices) (mac profile : CStr) (fs : Fs) (dd' : DaemonDevices)
    (fs' : Fs) : Prop where
  identity : daemonIdentityValid mac = true
  saved : StateSaved dd.config mac profile fs fs'
  remote : ∃ i r, findRemote dd' mac = some (i, r) ∧
    r.dc = (daemonConfigLoadRemote dd.config fs'.contents mac).2 ∧
    r.pl.active = resolveProfile r.dc

theorem wp_setProfile_reloaded (dd : DaemonDevices) (mac profile : CStr) (fs : Fs) :
    (methodSetProfile dd strerror sender mac profile).wp busMachine anywhere
      (fun res _ fs' => res.1 = .ok → Reloaded dd mac profile fs res.2 fs') [] fs := by
  -- a refusal is no success
  have hrefuse : ∀ reply : Reply, reply.IsError → reply = .ok →
      Reloaded dd mac profile fs dd fs := by
    rintro _ herror rfl
    exact herror.elim
  refine wp_gated_of (fun reply _ => hrefuse reply) fun tr =>
    wp_onRemote_of hrefuse fun i r hmac hfind => ?_
  obtain ⟨hr, rfl⟩ := findRemote_eq_some hfind
  split_ifs
  · exact ⟨trivial, hrefuse _ (isError_fail _ _)⟩
  · have hsave := wp_liftSys (wp_saveProfile_saved dd.config r.identity profile fs) tr
    rw [List.map_nil, List.append_nil] at hsave
    refine wp_bind (wp_mono ?_ hsave)
    rintro saved tr' fs' - ⟨t, -, hsaved⟩
    cases saved with
    | error e => exact ⟨trivial, fun hok => by cases hok⟩
    | ok u =>
      have hload := wp_liftSys (wp_loadRemote dd.config r.identity fs' []) tr'
      rw [List.map_nil, List.append_nil] at hload
      refine wp_bind (wp_mono ?_ hload)
      rintro _ tr'' fs'' - ⟨_, -, rfl, rfl⟩
      -- saved, loaded, and now configured; the outcome of the load does not matter
      refine wp_bind (wp_mono ?_ (wp_configureRemote dd { r with dc := _ } _ tr'' fs''))
      rintro r' _ _ - ⟨rfl, hidentity, hconfig, hactive⟩
      refine ⟨trivial, fun _ => ⟨hmac, hsaved rfl, i, r', findRemote_setRemote hfind hidentity,
        hconfig, ?_⟩⟩
      rw [hactive, hconfig]

theorem reloaded_of_step (hstep : (busSystem s).step s l s')
    (hrequest : l.request = .setProfile mac profile) (hok : l.reply = .ok) :
    Reloaded s.1 mac profile s.2 s'.1 s'.2 := by
  have hrun : Run busMachine (handleRequest s.1 l.strerror l.sender l.request) s.2 l.trace
      (some (l.reply, s'.1)) s'.2 := hstep
  rw [hrequest] at hrun
  exact (hrun.of_wp (wp_setProfile_reloaded s.1 mac profile s.2)).2 hok

/-! ## In force -/

/-- The settings of a resolved profile are those of a profile of the device file, with the built-in
values to fall back on. -/
structure ResolvedFrom (active : Profile Double) (S : Option (Profile Double))
    (gcfg : GlobalConfig Double) : Prop where
  scrollSpeed : active.scrollSpeed = setting S (·.hasScroll) (·.scrollSpeed) (CNum.ofRat 1)
  sensitivity : active.sensitivity = setting S (·.hasSens) (·.sensitivity) (CNum.ofRat 30)
  lpfAlpha : (if active.hasLpf then active.lpfAlpha else gcfg.lpfAlpha) =
    setting S (·.hasLpf) (·.lpfAlpha) gcfg.lpfAlpha
  map : active.map = activeMap S

/-- A remote goes by a profile of its device file: its configuration is valid and has the profile for
the active one, the pipeline has the settings of the profile, and the configuration is what is loaded
from the files. -/
structure GoesBy (config : DaemonConfig) (gcfg : GlobalConfig Double) (fs fs' : Fs)
    (profile : CStr) (r : DaemonRemote) : Prop where
  valid : deviceConfigValidate r.dc = .ok ()
  active : r.dc.profile = profile
  /-- The profile is the one in the device file, as the request found it. -/
  resolved : ∃ path found d, devicePath config r.identity = some path ∧
    deviceConfigLoadFile path (fs.contents path) deviceConfigInit = (.ok found, d) ∧
    ResolvedFrom r.pl.active (profileFind d profile) gcfg
  reload : daemonConfigLoadRemote config fs'.contents r.identity = (.ok (), r.dc)

/-- The profile of a request is in force after it. -/
def ProfileInForce (s s' : DaemonDevices × Fs) (mac profile : CStr) : Prop :=
  ∃ i r, findRemote s'.1 mac = some (i, r) ∧ GoesBy s.1.config s.1.global s.2 s'.2 profile r

/-- The device file can be loaded, and it defines the profile, which is the built-in one otherwise;
its coefficient is the global one, if it sets one; and `state.toml` has no infinite number beside the
entry of the remote, unless the device file makes the profile active itself. -/
def ProfileLoads (s : DaemonDevices × Fs) (mac profile : CStr) : Prop :=
  ∃ path found d, devicePath s.1.config mac = some path ∧
    deviceConfigLoadFile path (s.2.contents path) deviceConfigInit = (.ok found, d) ∧
    (profile = .lit "default" ∨ (profileFind d profile).isSome) ∧
    (∀ p, profileFind d profile = some p → p.hasLpf = true → p.lpfAlpha = s.1.global.lpfAlpha) ∧
    (d.profile = profile ∨ ∀ store, statePath s.1.config = some store →
      StateFinite (s.2.contents store) mac)

/-- The device file is not touched by the request. -/
theorem StateSaved.device (h : StateSaved config mac profile fs fs')
    (hmac : daemonIdentityValid mac = true) {path : CStr} (hpath : devicePath config mac = some path) :
    fs'.contents path = fs.contents path := by
  have hne : statePath config ≠ some path := fun hstore =>
    devicePath_ne_statePath hmac hpath hstore rfl
  rw [Fs.contents, Fs.contents, h.frame path hne fun q => devicePath_ne_tmpPath hpath]

/-- What a load gives after the profile was saved. -/
theorem StateSaved.load (h : StateSaved config mac profile fs fs')
    (hmac : daemonIdentityValid mac = true) (hstore : statePath config = some store) :
    daemonConfigLoadRemote config fs'.contents mac = (.ok (), dc) ↔
      ∃ path found d, devicePath config mac = some path ∧
        deviceConfigLoadFile path (fs.contents path) deviceConfigInit = (.ok found, d) ∧
        (StateFinite (fs.contents store) mac ∧ dc = { d with profile := profile } ∨
          ¬ StateFinite (fs.contents store) mac ∧ dc = d) := by
  obtain ⟨hfinite, hinfinite⟩ := h.overlay hstore
  rw [daemonConfigLoadRemote_eq_ok hstore]
  constructor
  · rintro ⟨path, found, d, hpath, hread, rfl⟩
    rw [h.device hmac hpath] at hread
    refine ⟨path, found, d, hpath, hread, ?_⟩
    by_cases hstate : StateFinite (fs.contents store) mac
    · exact .inl ⟨hstate, by rw [hfinite hstate, Option.getD_some]⟩
    · exact .inr ⟨hstate, by rw [hinfinite hstate, Option.getD_none]⟩
  · rintro ⟨path, found, d, hpath, hread, hdc⟩
    rw [← h.device hmac hpath] at hread
    refine ⟨path, found, d, hpath, hread, ?_⟩
    obtain ⟨hstate, rfl⟩ | ⟨hstate, rfl⟩ := hdc
    · rw [hfinite hstate, Option.getD_some]
    · rw [hinfinite hstate, Option.getD_none]

theorem mem_of_activeProfile {p : Profile Double} (h : activeProfile dc = some p) :
    p ∈ dc.profiles := by
  rcases Option.or_eq_some_iff.mp h with h | ⟨-, h⟩
  · exact List.mem_of_find?_eq_some h
  · exact List.mem_of_find?_eq_some h

/-- The profile that the pipeline resolves has the settings of the active one where its coefficient
is the global one. -/
theorem resolvedFrom_iff {gcfg : GlobalConfig Double} (hdc : dc.Sound) :
    ResolvedFrom (resolveProfile dc) (activeProfile dc) gcfg ↔
      ∀ p, activeProfile dc = some p → p.hasLpf = true → p.lpfAlpha = gcfg.lpfAlpha := by
  rw [resolveProfile_eq]
  cases hactive : activeProfile dc with
  | none => exact iff_of_true ⟨rfl, rfl, rfl, rfl⟩ fun p hp => by cases hp
  | some p =>
    constructor
    · intro h p' hp hset
      obtain rfl := Option.some.inj hp
      -- `profile_merge` leaves the flag of the coefficient unset
      have hlpf : gcfg.lpfAlpha = if p.hasLpf then p.lpfAlpha else gcfg.lpfAlpha := h.lpfAlpha
      rw [if_pos hset] at hlpf
      exact hlpf.symm
    · intro h
      refine ⟨rfl, rfl, ?_, ?_⟩
      · change gcfg.lpfAlpha = if p.hasLpf then p.lpfAlpha else gcfg.lpfAlpha
        split_ifs with hset
        · exact (h p rfl hset).symm
        · rfl
      · have hsound := hdc.profiles p (mem_of_activeProfile hactive)
        exact enterButtons_eq_iff.mpr hsound.coherent.nodup

/-- In a valid configuration the active profile is the named one, or the built-in one. -/
theorem activeProfile_eq (hdefined : dc.profile = .lit "default" ∨ (profileFind dc dc.profile).isSome) :
    activeProfile dc = profileFind dc dc.profile := by
  rw [activeProfile]
  cases hfind : profileFind dc dc.profile with
  | none =>
    have hname : dc.profile = .lit "default" := by simpa [hfind] using hdefined
    rw [Option.none_or, ← hname, hfind]
  | some p => rw [Option.some_or]

/-- What is loaded from a device file is sound, also with another active profile. -/
theorem sound_of_deviceConfigLoadFile {path : CStr} {file : Option Bytes} {found : Bool}
    {d : DeviceConfig Double}
    (h : deviceConfigLoadFile path file deviceConfigInit = (.ok found, d)) : d.Sound := by
  have hsound := sound_deviceConfigLoadFile path file sound_init
  rwa [h] at hsound

variable {d : DeviceConfig Double} {gcfg : GlobalConfig Double}

theorem sound_setActive (h : d.Sound) (profile : CStr) :
    ({ d with profile := profile } : DeviceConfig Double).Sound :=
  h.scalars _ h.coherent.calib h.coherent.airmouse

/-- A configuration that was loaded is valid with every profile that is the built-in one or defined. -/
theorem validate_setActive_iff (h : d.Sound) :
    deviceConfigValidate { d with profile := profile } = .ok () ↔
      profile = .lit "default" ∨ (profileFind d profile).isSome := by
  have hmem : profile ∈ d.profiles.map (·.name) ↔ (profileFind d profile).isSome := by
    rw [← not_iff_not, ← profileFind_eq_none, Option.not_isSome_iff_eq_none]
  rw [(sound_setActive h profile).validate_iff, hmem]
  refine and_iff_right_of_imp ?_
  rintro (rfl | hfind)
  · exact List.cons_ne_nil _ _
  · exact h.name_ne_nil hfind

/-- The pipeline goes by the profile where its coefficient is the global one. -/
theorem resolvedFrom_setActive_iff (h : d.Sound)
    (hdefined : profile = .lit "default" ∨ (profileFind d profile).isSome) :
    ResolvedFrom (resolveProfile { d with profile := profile }) (profileFind d profile) gcfg ↔
      ∀ p, profileFind d profile = some p → p.hasLpf = true → p.lpfAlpha = gcfg.lpfAlpha := by
  have hactive : activeProfile { d with profile := profile } = profileFind d profile :=
    activeProfile_eq hdefined
  rw [← hactive]
  exact resolvedFrom_iff (sound_setActive h profile)

/-- A profile whose setting is answered with success is in force exactly if the device file can be
loaded and defines it, its coefficient is the global one, and its entry in `state.toml` is read back
or not needed. -/
theorem setProfile_inForce_iff (hstep : (busSystem s).step s l s')
    (hrequest : l.request = .setProfile mac profile) (hok : l.reply = .ok) :
    ProfileInForce s s' mac profile ↔ ProfileLoads s mac profile := by
  obtain ⟨hmac, hsaved, i, r, hfind, hdc, hactive⟩ := reloaded_of_step hstep hrequest hok
  obtain ⟨store, -, -, hstore, -⟩ := hsaved.document
  obtain ⟨-, rfl⟩ := findRemote_eq_some hfind
  constructor
  · rintro ⟨i', r', hfind', hgoes⟩
    obtain ⟨rfl, rfl⟩ := Prod.mk.inj (Option.some.inj (hfind'.symm.trans hfind))
    obtain ⟨path, found, d, hpath, hread, hload⟩ := (hsaved.load hmac hstore).mp hgoes.reload
    obtain ⟨_, _, _, hpath', hread', hresolved⟩ := hgoes.resolved
    obtain rfl := Option.some.inj (hpath.symm.trans hpath')
    obtain ⟨-, rfl⟩ := Prod.mk.inj (hread.symm.trans hread')
    have hsound := sound_of_deviceConfigLoadFile hread
    -- with the entry or without it, the profile that was asked for is the active one
    have hset : r'.dc = { d with profile := profile } := by
      rcases hload with ⟨-, h⟩ | ⟨-, h⟩
      · exact h
      · rw [h, ← hgoes.active, h]
    have hdefined := (validate_setActive_iff hsound).mp (hset ▸ hgoes.valid)
    rw [hactive, hset, resolvedFrom_setActive_iff hsound hdefined] at hresolved
    refine ⟨path, found, d, hpath, hread, hdefined, hresolved, ?_⟩
    rcases hload with ⟨hstate, -⟩ | ⟨-, h⟩
    · refine .inr fun store' hstore' => ?_
      rwa [Option.some.inj (hstore'.symm.trans hstore)]
    · exact .inl (h ▸ hgoes.active)
  · rintro ⟨path, found, d, hpath, hread, hdefined, hlpf, hstate⟩
    have hsound := sound_of_deviceConfigLoadFile hread
    have hload : daemonConfigLoadRemote s.1.config s'.2.contents r.identity =
        (.ok (), { d with profile := profile }) := by
      refine (hsaved.load hmac hstore).mpr ⟨path, found, d, hpath, hread, ?_⟩
      by_cases hfinite : StateFinite (s.2.contents store) r.identity
      · exact .inl ⟨hfinite, rfl⟩
      · -- without the entry the device file makes the profile active
        obtain rfl := hstate.resolve_right fun h => hfinite (h store hstore)
        exact .inr ⟨hfinite, rfl⟩
    have hset : r.dc = { d with profile := profile } := by rw [hdc, hload]
    refine ⟨i, r, hfind, ?_, ?_, ⟨path, found, d, hpath, hread, ?_⟩, ?_⟩
    · rw [hset]
      exact (validate_setActive_iff hsound).mpr hdefined
    · rw [hset]
    · rw [hactive, hset]
      exact (resolvedFrom_setActive_iff hsound hdefined).mpr hlpf
    · rw [hload, hset]

/-- The path of the device file of the remote without an identity. -/
def unknownPath : CStr := .lit "/etc/lgmagic/devices.d/unknown.toml"

/-- A device file with the profile `tv`. -/
def tvFiles : Fs := fun p =>
  if p = unknownPath then some ⟨ascii "[profiles.tv]\nscroll_speed = 2\n", true⟩ else none

/-- A daemon with a remote whose configuration was loaded from it. -/
def tvDaemon : DaemonDevices :=
  let d := (daemonConfigLoadRemote loadedDaemon.config tvFiles.contents unknownIdentity).2
  { loadedDaemon with remotes := loadedDaemon.remotes.map fun r =>
      { r with dc := d, pl := { r.pl with active := resolveProfile d } } }

/-- The daemon after root set a profile, which is answered without a failure. -/
def setProfileRun (dd : DaemonDevices) (profile : CStr) (fs : Fs) : (Reply × DaemonDevices) × Fs :=
  Prog.exec rootAnswers (handleRequest dd [] (.lit ":1.1") (.setProfile unknownIdentity profile)) fs

theorem exists_setProfileRun (dd : DaemonDevices) (profile : CStr) (fs : Fs) :
    ∃ tr, (busSystem (dd, fs)).step (dd, fs)
      ⟨.lit ":1.1", [], .setProfile unknownIdentity profile, tr, (setProfileRun dd profile fs).1.1⟩
      ((setProfileRun dd profile fs).1.2, (setProfileRun dd profile fs).2) :=
  run_exec step_rootAnswers
    (handleRequest dd [] (.lit ":1.1") (.setProfile unknownIdentity profile)) fs

/-- A device file that can be loaded and defines the profile without a coefficient of its own, there
being no `state.toml`. -/
theorem profileLoads_of_defined {s : DaemonDevices × Fs} {mac profile path : CStr}
    (hpath : devicePath s.1.config mac = some path)
    (hread : (deviceConfigLoadFile path (s.2.contents path) deviceConfigInit).1 = .ok true)
    (hfind : (profileFind (deviceConfigLoadFile path (s.2.contents path) deviceConfigInit).2
      profile).map (·.hasLpf) = some false)
    (hstate : (statePath s.1.config).bind s.2.contents = none) : ProfileLoads s mac profile := by
  obtain ⟨p, hp, hset⟩ := Option.map_eq_some_iff.mp hfind
  refine ⟨path, true, _, hpath, Prod.ext hread rfl, .inr ?_, fun p' hp' hset' => ?_, .inr ?_⟩
  · rw [hp]
    rfl
  · rw [Option.some.inj (hp'.symm.trans hp), hset] at hset'
    cases hset'
  · intro store hstore root q d hload
    rw [hstore, Option.bind_some] at hstate
    rw [hstate] at hload
    cases hload

/-- The device file is as it was when the configuration was loaded. -/
theorem inForce_tvFiles :
    (setProfileRun tvDaemon (.lit "tv") tvFiles).1.1 = .ok ∧ ProfileInForce (tvDaemon, tvFiles)
      ((setProfileRun tvDaemon (.lit "tv") tvFiles).1.2, (setProfileRun tvDaemon (.lit "tv") tvFiles).2)
      unknownIdentity (.lit "tv") := by
  have hok : (setProfileRun tvDaemon (.lit "tv") tvFiles).1.1 = .ok := by decide +kernel
  obtain ⟨tr, hstep⟩ := exists_setProfileRun tvDaemon (.lit "tv") tvFiles
  -- what the run comes to does not matter from here on
  generalize setProfileRun tvDaemon (.lit "tv") tvFiles = run at hok hstep ⊢
  refine ⟨hok, (setProfile_inForce_iff hstep rfl hok).mpr ?_⟩
  have hpath : devicePath tvDaemon.config unknownIdentity = some unknownPath := by decide +kernel
  exact profileLoads_of_defined hpath (by decide +kernel) (by decide +kernel) (by decide +kernel)

/-- The configuration in memory is not valid. -/
theorem not_profileInForce_of_invalid {s s' : DaemonDevices × Fs} {mac profile : CStr}
    (hinvalid : (findRemote s'.1 mac).map (fun ir => (deviceConfigValidate ir.2.dc).toOption.isSome) =
      some false) : ¬ ProfileInForce s s' mac profile := by
  rintro ⟨i, r, hfind, hgoes⟩
  rw [hfind, Option.map_some, hgoes.valid] at hinvalid
  exact absurd hinvalid (by decide)

/-- The device file was removed after the profile `tv` was loaded from it: the request is answered
with success, and the configuration that it leaves in memory is not valid. -/
theorem not_inForce_removedFile : ∃ tr s',
    (busSystem (tvDaemon, fun _ => none)).step (tvDaemon, fun _ => none)
      ⟨.lit ":1.1", [], .setProfile unknownIdentity (.lit "tv"), tr, .ok⟩ s' ∧
    ¬ ProfileInForce (tvDaemon, fun _ => none) s' unknownIdentity (.lit "tv") := by
  obtain ⟨tr, hstep⟩ := exists_setProfileRun tvDaemon (.lit "tv") fun _ => none
  have hok : (setProfileRun tvDaemon (.lit "tv") fun _ => none).1.1 = .ok := by decide +kernel
  rw [hok] at hstep
  exact ⟨tr, _, hstep, not_profileInForce_of_invalid (by decide +kernel)⟩

end Daemon
