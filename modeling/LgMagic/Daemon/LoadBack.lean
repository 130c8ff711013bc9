import LgMagic.Daemon.Rollback
import LgMagic.Profiles.Sound

/-!
# Saved configurations load back

A method that changes the configuration of a remote answers with success only after the device file
holds the document of the changed configuration. What is loaded from the files then is that
configuration again, up to the texts of its numbers, if it is valid and `state.toml` names no other
active profile. The invariant over all requests, and over files that are edited by hand, is that
every remote has a sound configuration.

* `Request.mutation`: the changes;
* `Saved`, `load_of_saved`: a device file that was saved, and what is loaded from it;
* `Answered`, `wp_handleRequest_answered`: what a request does to the configurations and to the files;
* `configSystem`: requests and edits of the files in any order;
* `loadsBack_of_reachable`: every change that is answered with success loads back.
-/

namespace Daemon

open Binary64 CString Keymap Posix Printf Prog Profiles Toml

/-! ## Changes -/

/-- The change that a request makes, and the remote whose configuration is changed. -/
def Request.mutation : Request → Option (CStr × (DeviceConfig Double → DeviceConfig Double))
  | .mapButton mac src dst => some (mac, mutateMap (keymapNameToCode src) (keymapNameToCode dst))
  | .resetButtons mac => some (mac, mutateReset)
  | .setScrollSpeed mac v => some (mac, mutateNumber true v)
  | .setSensitivity mac v => some (mac, mutateNumber false v)
  | .setCalibPath mac path => some (mac, mutateCalib path)
  | .listDevices | .getStatus _ | .setProfile _ _ | .reload => none

/-- The arguments pass the checks of the method. -/
def Request.Accepted : Request → Prop
  | .mapButton _ src dst => ¬ (keymapNameToCode src < 0 ∨ keymapNameToCode dst < 0)
  | .setScrollSpeed _ v => (v.lt (.ofInt 0) || (Double.ofInt 100).lt v) = false
  | .setSensitivity _ v => (v.lt (.ofInt 0) || (Double.ofInt 10000).lt v) = false
  | _ => True

/-- The number that a request sets. -/
def Request.number : Request → Option Double
  | .setScrollSpeed _ v | .setSensitivity _ v => some v
  | _ => none

/-- The request makes the active profile where it is missing. -/
def Request.makesProfile : Request → Bool
  | .mapButton _ _ _ | .setScrollSpeed _ _ | .setSensitivity _ _ => true
  | _ => false

/-- The number is neither zero nor not-a-number, and a profile that is made has a name. -/
structure Request.Regular (req : Request) (dc : DeviceConfig Double) : Prop where
  number : ∀ v, req.number = some v → v ≠ .nan ∧ ∀ neg, v ≠ .zero neg
  name : req.makesProfile = true → dc.profile.val ≠ []

/-- The active profile has a name; it is the built-in one, or defined, or made by the request. -/
structure Request.ActiveDefined (req : Request) (dc : DeviceConfig Double) : Prop where
  name : dc.profile.val ≠ []
  defined : dc.profile = .lit "default" ∨ dc.profile ∈ dc.profiles.map (·.name) ∨
    req.makesProfile = true

variable {dc dc' : DeviceConfig Double} {f : DeviceConfig Double → DeviceConfig Double}
  {req : Request} {mac : CStr}

/-- A change of the active profile. -/
theorem sound_mutateActive {g : Profile Double → Profile Double} (h : dc.Sound)
    (hname : dc.profile.val ≠ []) (hg : ∀ p, (g p).name = p.name)
    (hsound : ∀ p, p.Sound → (g p).Sound) : (mutateActive g dc).Sound :=
  (h.ensure hname).update hg hsound

/-- The active profile is the same, and it is defined. -/
theorem active_mutateActive {g : Profile Double → Profile Double} (hg : ∀ p, (g p).name = p.name) :
    (mutateActive g dc).profile = dc.profile ∧
      dc.profile ∈ (mutateActive g dc).profiles.map (·.name) := by
  refine ⟨profile_ensure, ?_⟩
  rw [mutateActive, map_name_updateProfile hg]
  exact mem_ensure

/-- A configuration in which only the calibration is changed. -/
theorem sound_mutateCalib (path : CStr) (h : dc.Sound) : (mutateCalib path dc).Sound := by
  refine h.scalars _ ?_ h.coherent.airmouse
  split_ifs with hempty
  · simp
  · simpa using hempty

theorem sound_mutateReset (h : dc.Sound) : (mutateReset dc).Sound := by
  rw [mutateReset]
  split_ifs with hfind
  · exact sound_mutateActive h (h.name_ne_nil hfind) (fun _ => rfl) fun p hp => hp.clearButtons
  · exact h

/-- A regular change keeps the configuration sound. -/
theorem sound_mutation (h : dc.Sound) (hmutation : req.mutation = some (mac, f))
    (haccepted : req.Accepted) (hregular : req.Regular dc) : (f dc).Sound := by
  cases req with
  | mapButton mac' src dst =>
    cases hmutation
    rw [Request.Accepted, not_or, not_lt, not_lt] at haccepted
    -- the accepted names are those of keys
    have hsome {name : CStr} (h : 0 ≤ keymapNameToCode name) :
        (keymapCodeToName (keymapNameToCode name)).isSome := by
      rw [keymapCodeToName_nameToCode h]
      rfl
    exact sound_mutateActive h (hregular.name rfl) (fun _ => rfl) fun p hp =>
      hp.setButton (hsome haccepted.1) (hsome haccepted.2)
  | resetButtons mac' =>
    cases hmutation
    exact sound_mutateReset h
  | setScrollSpeed mac' v =>
    cases hmutation
    obtain ⟨hnan, hzero⟩ := hregular.number v rfl
    refine sound_mutateActive h (hregular.name rfl) (fun _ => rfl) fun p hp => ?_
    exact hp.setScrollSpeed hnan (by rwa [scrollSpeedOutOfRange, le_ofInt_zero hzero])
  | setSensitivity mac' v =>
    cases hmutation
    obtain ⟨hnan, hzero⟩ := hregular.number v rfl
    refine sound_mutateActive h (hregular.name rfl) (fun _ => rfl) fun p hp => ?_
    exact hp.setSensitivity hnan (by rwa [sensitivityOutOfRange, le_ofInt_zero hzero])
  | setCalibPath mac' path =>
    cases hmutation
    exact sound_mutateCalib path h
  | listDevices | getStatus _ | setProfile _ _ | reload => cases hmutation

/-- No change makes another profile the active one, and where it was defined or is made, it is
defined after the change. -/
theorem active_mutation (hmutation : req.mutation = some (mac, f)) (h : req.ActiveDefined dc) :
    (f dc).profile = dc.profile ∧ ((f dc).profile = .lit "default" ∨
      (f dc).profile ∈ (f dc).profiles.map (·.name)) := by
  have hmade {g : Profile Double → Profile Double} (hg : ∀ p, (g p).name = p.name) :
      (mutateActive g dc).profile = dc.profile ∧ ((mutateActive g dc).profile = .lit "default" ∨
        (mutateActive g dc).profile ∈ (mutateActive g dc).profiles.map (·.name)) := by
    obtain ⟨hprofile, hmem⟩ := @active_mutateActive dc g hg
    exact ⟨hprofile, .inr (by rwa [hprofile])⟩
  cases req with
  | mapButton mac' src dst =>
    cases hmutation
    exact hmade fun _ => rfl
  | resetButtons mac' =>
    cases hmutation
    rw [mutateReset]
    split_ifs
    · exact hmade fun _ => rfl
    · exact ⟨rfl, by simpa [Request.makesProfile] using h.defined⟩
  | setScrollSpeed mac' v | setSensitivity mac' v =>
    cases hmutation
    exact hmade fun _ => rfl
  | setCalibPath mac' path =>
    cases hmutation
    refine ⟨rfl, ?_⟩
    rcases h.defined with hdefault | hmem | hmakes
    · exact .inl hdefault
    · exact .inr hmem
    · cases hmakes
  | listDevices | getStatus _ | setProfile _ _ | reload => cases hmutation

/-! ## A saved device file -/

/-- The bytes at the end of a path. -/
theorem getElem?_append_add (a b : Bytes) (i : ℕ) : (a ++ b)[a.length + i]? = b[i]? := by
  rw [List.getElem?_append_right (Nat.le_add_right _ _), Nat.add_sub_cancel_left]

/-- No device file is the store of the active profiles. -/
theorem devicePath_ne_statePath {config : DaemonConfig} {p q : CStr}
    (hvalid : daemonIdentityValid mac = true) (hp : devicePath config mac = some p)
    (hq : statePath config = some q) : p ≠ q := by
  rintro rfl
  obtain ⟨_, h₁, hp⟩ := Option.bind_eq_some_iff.mp hp
  obtain ⟨_, h₂, hp⟩ := Option.bind_eq_some_iff.mp hp
  have hq := (pathJoin_eq_some.mp hq).2
  have hp := (pathJoin_eq_some.mp hp).2
  rw [← (pathJoin_eq_some.mp h₂).2, ← (pathJoin_eq_some.mp h₁).2, ← hq] at hp
  have heq := congrArg Subtype.val hp
  simp only [CStr.append_val] at heq
  -- both end in ".toml"; in front of it stand the identity and "state"
  have hsplit : (CStr.lit "/state.toml").val = (CStr.lit "/state").val ++ (CStr.lit ".toml").val :=
    rfl
  rw [hsplit, ← List.append_assoc] at heq
  have heq := List.append_cancel_right heq
  generalize config.configRoot.val ++ (CStr.lit "/devices.d/").val = a at heq
  generalize config.stateDir.val = b at heq
  have hbyte (i j : ℕ) (h : a.length + i = b.length + j) :
      mac.val[i]? = (CStr.lit "/state").val[j]? := by
    rw [← getElem?_append_add a, heq, h, getElem?_append_add]
  have hlen := congrArg List.length heq
  simp only [List.length_append, show (CStr.lit "/state").val.length = 6 from rfl] at hlen
  rcases (Bool.or_eq_true _ _).mp hvalid with hunknown | hismac
  · obtain rfl : mac = unknownIdentity := by simpa using hunknown
    have hlast := hbyte 6 5 (by rw [show unknownIdentity.val.length = 7 from rfl] at hlen; omega)
    exact absurd hlast (by decide)
  · obtain ⟨hlen', hbytes⟩ := isMac_iff.mp hismac
    -- 't' is no hexadecimal digit
    have hletter : mac.val[15]? = some 0x74 := hbyte 15 4 (by omega)
    have hdigit := hbytes 15 (by omega)
    rw [List.get_eq_getElem] at hdigit
    rw [List.getElem?_eq_getElem (by omega)] at hletter
    rw [Option.some.inj hletter] at hdigit
    exact absurd hdigit (by decide)

/-- The device file of a remote holds the text of a configuration, and other files are as before but
for the temporary one. -/
structure Saved (config : DaemonConfig) (dc : DeviceConfig Double) (mac : CStr) (fs fs' : Fs) :
    Prop where
  document : ∃ path root text, devicePath config mac = some path ∧
    deviceConfigToToml dc = some root ∧ tomlDumps (.table root) = some text ∧
    fs'.contents path = some text.val
  frame : ∀ p, devicePath config mac ≠ some p → (∀ q, p ≠ tmpPath q) → fs' p = fs p

variable {config : DaemonConfig} {fs fs' : Fs} {tr : List BusEvent}

/-- A save that succeeds. -/
theorem wp_saveDevice_saved (config : DaemonConfig) (dc : DeviceConfig Double) (mac : CStr) (fs : Fs) :
    (daemonConfigSaveDevice config dc mac).wp posix anywhere
      (fun res _ fs' => res = .ok () → Saved config dc mac fs fs') [] fs := by
  cases hpath : devicePath config mac with
  | none =>
    rw [daemonConfigSaveDevice, hpath]
    exact ⟨trivial, fun h => by cases h⟩
  | some path =>
    cases htext : (deviceConfigToToml dc).bind fun root => tomlDumps (.table root) with
    | none =>
      rw [daemonConfigSaveDevice, hpath]
      simp only [htext]
      exact ⟨trivial, fun h => by cases h⟩
    | some text =>
      obtain ⟨root, hroot, htext⟩ := Option.bind_eq_some_iff.mp htext
      refine wp_mono_inv (fun _ _ _ => trivial)
        (wp_mono (fun res tr fs' hJ hQ hok => ?_) (wp_saveDevice hpath hroot htext))
      refine ⟨⟨path, root, text, hpath, hroot, htext, ?_⟩, fun p hp htmp => ?_⟩
      · rw [Fs.contents, hJ.target, if_pos (hQ.mp hok)]
        rfl
      · exact hJ.frame p (fun heq => hp (by rw [hpath, heq])) (htmp path)

/-- A valid configuration that was saved is loaded again, if `state.toml` names no other active
profile. -/
theorem load_of_saved (hsaved : Saved config dc mac fs fs') (hdc : dc.Sound)
    (hvalid : deviceConfigValidate dc = .ok ()) (hmac : daemonIdentityValid mac = true) {store : CStr}
    (hstore : statePath config = some store)
    (hstate : ∀ profile, ((tomlLoadFile (fs.contents store)).bind fun root =>
      stateProfile root mac) = some profile → profile = dc.profile) :
    daemonConfigLoadRemote config fs'.contents mac = (.ok (), dc.readBack) := by
  obtain ⟨⟨path, root, text, hpath, hroot, htext, hfile⟩, hframe⟩ := hsaved
  have hnan : ∀ p ∈ dc.profiles, p.NoNan := fun p hp => (hdc.profiles p hp).noNan
  obtain rfl : document dc = root :=
    Option.some.inj ((deviceConfigToToml_eq hvalid hdc.coherent).symm.trans hroot)
  -- the device file
  have hdevice : deviceConfigLoadFile path (fs'.contents path) deviceConfigInit =
      (.ok true, dc.readBack) := by
    simp only [hfile, deviceConfigLoadFile, tomlParse_document hvalid hdc.coherent hnan htext,
      deviceConfigFromToml_readBack hvalid hdc.coherent hnan]
  -- the store is another file, and it names the active profile if any
  have hkept : fs'.contents store = fs.contents store := by
    have hne : devicePath config mac ≠ some store := fun h =>
      devicePath_ne_statePath hmac h hstore rfl
    rw [Fs.contents, Fs.contents, hframe store hne fun q => statePath_ne_tmpPath hstore]
  have hprofile : (((tomlLoadFile (fs.contents store)).bind fun root =>
      stateProfile root mac).getD dc.readBack.profile) = dc.readBack.profile := by
    cases h : (tomlLoadFile (fs.contents store)).bind fun root => stateProfile root mac with
    | none => rfl
    | some profile => exact hstate profile h
  simp only [daemonConfigLoadRemote, hpath, hdevice, hstore, hkept, hprofile]

/-! ## What a request does -/

variable {dd dd' : DaemonDevices} {reply : Reply} {r r' : DaemonRemote} {i : ℕ} {sender : CStr}

/-- What a request makes of the configuration of a remote. -/
inductive Successor (dd : DaemonDevices) (req : Request) (reply : Reply) (r : DaemonRemote) :
    DeviceConfig Double → Prop
  | same : Successor dd req reply r r.dc
  | loaded (files : CStr → Option Bytes) :
    Successor dd req reply r (daemonConfigLoadRemote dd.config files r.identity).2
  | changed {i : ℕ} {f : DeviceConfig Double → DeviceConfig Double} (hreply : reply = .ok)
    (haccepted : req.Accepted) (hmutation : req.mutation = some (r.identity, f))
    (hfind : findRemote dd r.identity = some (i, r)) : Successor dd req reply r (f r.dc)

/-- What a request does to the configurations and to the files. -/
structure Answered (dd : DaemonDevices) (req : Request) (fs : Fs) (reply : Reply)
    (dd' : DaemonDevices) (fs' : Fs) : Prop where
  config : dd'.config = dd.config
  remotes : ∀ r' ∈ dd'.remotes, ∃ r ∈ dd.remotes, Successor dd req reply r r'.dc
  /-- A change that is answered with success was saved. -/
  saved : reply = .ok → ∀ mac f, req.mutation = some (mac, f) → ∃ i r r',
    findRemote dd mac = some (i, r) ∧ findRemote dd' mac = some (i, r') ∧ r'.dc = f r.dc ∧
      req.Accepted ∧ daemonIdentityValid mac = true ∧ Saved dd.config (f r.dc) mac fs fs'

theorem Answered.of_isError (h : reply.IsError) : Answered dd req fs reply dd fs where
  config := rfl
  remotes r hr := ⟨r, hr, .same⟩
  saved hok := by
    rw [hok] at h
    exact h.elim

/-- The remote is found again where it was put. -/
theorem findRemote_setRemote (hfind : findRemote dd mac = some (i, r)) (hr' : r'.identity = mac) :
    findRemote (dd.setRemote i r') mac = some (i, r') := by
  obtain ⟨j, hidx, hget⟩ := Option.bind_eq_some_iff.mp hfind
  obtain ⟨r₀, -, hpair⟩ := Option.map_eq_some_iff.mp hget
  cases hpair
  obtain ⟨hlt, hprop, hbefore⟩ := List.findIdx?_eq_some_iff_getElem.mp hidx
  have hlt' : i < (dd.remotes.set i r').length := by rwa [List.length_set]
  have hidx' : (dd.remotes.set i r').findIdx? (·.identity = mac) = some i := by
    refine List.findIdx?_eq_some_iff_getElem.mpr ⟨hlt', by simpa using hr', fun k hk => ?_⟩
    rw [List.getElem_set_of_ne (Nat.ne_of_gt hk)]
    exact hbefore k hk
  rw [findRemote, DaemonDevices.setRemote, hidx', Option.bind_some,
    List.getElem?_eq_getElem hlt', List.getElem_set_self]
  rfl

/-- The end of the methods that change a configuration. -/
theorem wp_mutateRemote_answered {strerror : Bytes} (hfind : findRemote dd mac = some (i, r))
    (hmac : daemonIdentityValid mac = true) (haccepted : req.Accepted)
    (hmutation : req.mutation = some (mac, f)) (tr : List BusEvent) :
    (mutateRemote dd strerror i r f).wp busMachine anywhere
      (fun res _ fs' => Answered dd req fs res.1 res.2 fs') tr fs := by
  obtain ⟨hr, rfl⟩ := findRemote_eq_some hfind
  have hmem := List.mem_of_getElem? hr
  have hsave := wp_liftSys (wp_saveDevice_saved dd.config (f r.dc) r.identity fs) tr
  rw [List.map_nil, List.append_nil] at hsave
  refine wp_bind (wp_bind (wp_mono ?_ hsave))
  rintro saved tr' fs' - ⟨t, -, hsaved⟩
  -- a save that fails takes the remote back to the file; one that succeeds puts the change in force
  cases saved with
  | error e =>
    refine wp_bind (wp_mono ?_ (wp_remoteRollback_loaded dd { r with dc := f r.dc } tr' fs'))
    rintro r' tr'' fs'' - ⟨rfl, hconfigured⟩
    refine ⟨trivial, trivial, rfl, fun x hx => ?_, fun hok => by cases hok⟩
    rcases List.mem_or_eq_of_mem_set hx with hx | rfl
    · exact ⟨x, hx, .same⟩
    · refine ⟨r, hmem, ?_⟩
      rw [hconfigured.config]
      exact .loaded fs''.contents
  | ok u =>
    refine wp_bind (wp_mono ?_ (wp_configureRemote dd { r with dc := f r.dc } (f r.dc) tr' fs'))
    rintro r' tr'' fs'' - ⟨rfl, hconfigured⟩
    refine ⟨trivial, trivial, rfl, fun x hx => ?_, fun _ mac' f' hmutation' => ?_⟩
    · rcases List.mem_or_eq_of_mem_set hx with hx | rfl
      · exact ⟨x, hx, .same⟩
      · refine ⟨r, hmem, ?_⟩
        rw [hconfigured.config]
        exact .changed rfl haccepted hmutation hfind
    · obtain ⟨rfl, rfl⟩ := Prod.mk.inj (Option.some.inj (hmutation.symm.trans hmutation'))
      exact ⟨i, r, r', hfind, findRemote_setRemote hfind hconfigured.identity, hconfigured.config,
        haccepted, hmac, hsaved rfl⟩

/-- `SetProfile` loads the configuration again. -/
theorem wp_setProfile_answered {strerror : Bytes} {profile : CStr}
    (hfind : findRemote dd mac = some (i, r)) (hnone : req.mutation = none) (tr : List BusEvent) :
    (do
      match ← liftSys (daemonConfigSaveProfile dd.config mac profile) with
      | .error e => return (saveReply strerror (.error e), dd)
      | .ok () =>
        let (_, fresh) ← liftSys (loadRemote dd.config r.identity)
        let r ← remoteApply dd { r with dc := fresh }
        return (.ok, dd.setRemote i r) : Handler).wp busMachine anywhere
      (fun res _ fs' => Answered dd req fs res.1 res.2 fs') tr fs := by
  obtain ⟨hr, -⟩ := findRemote_eq_some hfind
  have hmem := List.mem_of_getElem? hr
  have hnever : ∀ reply : Reply, reply = .ok → ∀ mac f, req.mutation = some (mac, f) → False := by
    intro _ _ mac f hsome
    rw [hnone] at hsome
    cases hsome
  have hsave := wp_liftSys (wp_saveProfile_outcome dd.config mac profile fs) tr
  rw [List.map_nil, List.append_nil] at hsave
  refine wp_bind (wp_mono ?_ hsave)
  rintro saved tr' fs' - ⟨t, -, -⟩
  -- the profile was stored or not; only then the device file is loaded
  cases saved with
  | error e =>
    exact ⟨trivial, rfl, fun x hx => ⟨x, hx, .same⟩, fun h mac f hsome => (hnever _ h mac f hsome).elim⟩
  | ok u =>
    have hload := wp_liftSys (wp_loadRemote dd.config r.identity fs' []) tr'
    rw [List.map_nil, List.append_nil] at hload
    refine wp_bind (wp_mono ?_ hload)
    rintro _ tr'' fs'' - ⟨_, -, rfl, rfl⟩
    refine wp_bind (wp_mono ?_ (wp_configureRemote dd { r with dc := _ } _ tr'' fs''))
    rintro r' _ _ - ⟨rfl, hconfigured⟩
    refine ⟨trivial, rfl, fun x hx => ?_, fun h mac f hsome => (hnever _ h mac f hsome).elim⟩
    -- the remote of the request has what was loaded, the others what they had
    rcases List.mem_or_eq_of_mem_set hx with hx | rfl
    · exact ⟨x, hx, .same⟩
    · refine ⟨r, hmem, ?_⟩
      rw [hconfigured.config]
      exact .loaded _

/-- The loop of the reload, remote by remote. -/
theorem wp_reloadRemotes (dd : DaemonDevices) (req : Request) (reply : Reply)
    (rs : List DaemonRemote) (tr : List BusEvent) (fs : Fs) :
    (reloadRemotes dd rs).wp busMachine anywhere
      (fun rs' _ fs' => fs' = fs ∧ ∀ r' ∈ rs', ∃ r ∈ rs, Successor dd req reply r r'.dc) tr fs := by
  induction rs generalizing tr with
  | nil => exact ⟨trivial, rfl, fun _ h => absurd h List.not_mem_nil⟩
  | cons r rs ih =>
    -- one remote: as it was, or loaded from its file
    have hone : (reloadRemote dd r).wp busMachine anywhere
        (fun r' _ fs' => fs' = fs ∧ Successor dd req reply r r'.dc) tr fs := by
      have hload := wp_liftSys (wp_loadRemote dd.config r.identity fs []) tr
      rw [List.map_nil, List.append_nil] at hload
      refine wp_bind (wp_mono ?_ hload)
      rintro ⟨outcome, ndc⟩ tr' fs' - ⟨_, -, rfl, hloaded⟩
      cases outcome with
      | error e => exact ⟨trivial, rfl, .same⟩
      | ok u =>
        refine wp_mono ?_ (wp_configureRemote dd r ndc tr' fs')
        rintro r' _ _ - ⟨rfl, hconfigured⟩
        refine ⟨rfl, ?_⟩
        rw [hconfigured.config, show ndc = (daemonConfigLoadRemote dd.config _ r.identity).2 from
          congrArg Prod.snd hloaded]
        exact .loaded _
    refine wp_bind (wp_mono ?_ hone)
    rintro r' tr' fs' - ⟨rfl, hr'⟩
    refine wp_bind (wp_mono ?_ (ih tr'))
    rintro rs' _ _ - ⟨rfl, hrs'⟩
    refine ⟨trivial, rfl, fun x hx => ?_⟩
    rcases List.mem_cons.mp hx with rfl | hx
    · exact ⟨r, List.mem_cons_self, hr'⟩
    · obtain ⟨y, hy, hsucc⟩ := hrs' x hx
      exact ⟨y, List.mem_cons_of_mem _ hy, hsucc⟩

/-- What every request does. -/
theorem wp_handleRequest_answered {strerror : Bytes} (dd : DaemonDevices) (req : Request) (fs : Fs) :
    (handleRequest dd strerror sender req).wp busMachine anywhere
      (fun res _ fs' => Answered dd req fs res.1 res.2 fs') [] fs := by
  have hrefuse : ∀ reply : Reply, reply.IsError → Answered dd req fs reply dd fs :=
    fun _ h => .of_isError h
  have hread : ∀ reply : Reply, reply ≠ .ok → Answered dd req fs reply dd fs :=
    fun _ h => ⟨rfl, fun r hr => ⟨r, hr, .same⟩, fun hok => absurd hok h⟩
  -- a request that changes nothing is answered with a text or refused; the others write a file
  -- first
  cases req with
  | listDevices => exact ⟨trivial, hread _ (by simp)⟩
  | getStatus mac =>
    refine wp_onRemote_of hrefuse fun i r _ _ => ?_
    dsimp only
    generalize statusText dd r = text
    split_ifs
    · exact ⟨trivial, hread _ (by simp)⟩
    · exact ⟨trivial, hread _ (by simp)⟩
  | setProfile mac profile =>
    refine wp_gated_of (fun _ _ => hrefuse _) fun tr => wp_onRemote_of hrefuse fun i r _ hfind => ?_
    split_ifs
    · exact ⟨trivial, hrefuse _ (isError_fail _ _)⟩
    · exact wp_setProfile_answered hfind rfl tr
  | mapButton mac src dst =>
    simp only [handleRequest, methodMapButton]
    split_ifs with hcodes
    · exact ⟨trivial, hrefuse _ (isError_fail _ _)⟩
    · refine wp_gated_of (fun _ _ => hrefuse _) fun tr => ?_
      refine wp_onRemote_of hrefuse fun i r hmac hfind => ?_
      refine wp_mutateRemote_answered hfind hmac ?_ rfl tr
      exact hcodes
  | resetButtons mac =>
    refine wp_gated_of (fun _ _ => hrefuse _) fun tr => ?_
    refine wp_onRemote_of hrefuse fun i r hmac hfind => ?_
    refine wp_mutateRemote_answered hfind hmac ?_ rfl tr
    exact trivial
  | setScrollSpeed mac v | setSensitivity mac v =>
    refine wp_gated_of (fun _ _ => hrefuse _) fun tr => ?_
    refine wp_onRemote_of hrefuse fun i r hmac hfind => ?_
    split_ifs with hrange
    · exact ⟨trivial, hrefuse _ (isError_fail _ _)⟩
    · refine wp_mutateRemote_answered hfind hmac ?_ rfl tr
      exact Bool.eq_false_iff.mpr hrange
  | setCalibPath mac path =>
    refine wp_gated_of (fun _ _ => hrefuse _) fun tr => ?_
    refine wp_onRemote_of hrefuse fun i r hmac hfind => ?_
    refine wp_mutateRemote_answered hfind hmac ?_ rfl tr
    exact trivial
  | reload =>
    refine wp_gated_of (fun _ _ => hrefuse _) fun tr => ?_
    refine wp_bind (wp_bind ⟨trivial, fun newg fs' hstep => ⟨trivial, ?_⟩⟩)
    obtain rfl : fs' = fs := hstep
    have hloop := wp_reloadRemotes { dd with global := newg } .reload .ok dd.remotes
    refine wp_bind (wp_mono ?_ (hloop _ fs'))
    rintro rs' _ _ - ⟨rfl, hrs'⟩
    refine ⟨trivial, trivial, rfl, fun x hx => ?_, fun _ _ _ h => by cases h⟩
    -- a reload keeps or loads the configuration of a remote, and asks for no change of it
    obtain ⟨r, hr, hsucc⟩ := hrs' x hx
    refine ⟨r, hr, ?_⟩
    generalize x.dc = d at hsucc ⊢
    cases hsucc with
    | same => exact .same
    | loaded files => exact .loaded files
    | changed _ _ h _ => cases h

/-! ## Runs -/

/-- What happens to the daemon and its files: a request is handled, or files are edited. -/
inductive ConfigStep
  | handled (l : BusStep)
  | edited

/-- Every remote has the configuration that was loaded for it from some files, as far as these could
be read. -/
structure Started (dd : DaemonDevices) : Prop where
  state : (statePath dd.config).isSome
  loaded : ∀ r ∈ dd.remotes, ∃ files, r.dc = (daemonConfigLoadRemote dd.config files r.identity).2

/-- The daemon from its start on, with requests and edits of the files in any order. -/
def configSystem : TransitionSystem (DaemonDevices × Fs) ConfigStep where
  init s := Started s.1
  step s l s' :=
    match l with
    | .handled l => (busSystem s).step s l s'
    | .edited => s'.1 = s.1

/-- The request was refused, or it is regular for the configuration that it changes. -/
def RegularStep (s : DaemonDevices × Fs) : ConfigStep → Prop
  | .handled l => l.reply = .ok → ∀ mac f, l.request.mutation = some (mac, f) → ∀ i r,
    findRemote s.1 mac = some (i, r) → l.request.Regular r.dc
  | .edited => True

/-- The configuration of a remote is what is loaded for it from the files as they are, up to the
texts of its numbers. -/
def LoadsBack (s : DaemonDevices × Fs) (mac : CStr) : Prop := ∃ i r dc, findRemote s.1 mac = some (i, r) ∧
  daemonConfigLoadRemote s.1.config s.2.contents mac = (.ok (), dc) ∧
    dc.mapNum (fmtG 15) = r.dc.mapNum (fmtG 15)

/-- The configurations of the remotes are sound. -/
structure SoundStore (s : DaemonDevices × Fs) : Prop where
  state : (statePath s.1.config).isSome
  sound : ∀ r ∈ s.1.remotes, r.dc.Sound

variable {s s' : DaemonDevices × Fs} {l : BusStep}

/-- Whatever the files, what is loaded is sound. -/
theorem sound_loadRemote (config : DaemonConfig) (files : CStr → Option Bytes) (mac : CStr) :
    (daemonConfigLoadRemote config files mac).2.Sound := by
  rw [daemonConfigLoadRemote]
  cases devicePath config mac with
  | none => exact sound_init
  | some path =>
    have hfile := sound_deviceConfigLoadFile path (files path) sound_init
    dsimp only
    generalize deviceConfigLoadFile path (files path) deviceConfigInit = read at hfile
    obtain ⟨_ | _, dc⟩ := read
    · exact hfile
    · cases statePath config with
      | none => exact hfile
      | some store => exact hfile.scalars _ hfile.coherent.calib hfile.coherent.airmouse

theorem answered_of_step (hstep : (busSystem s).step s l s') :
    Answered s.1 l.request s.2 l.reply s'.1 s'.2 :=
  (Run.of_wp hstep (wp_handleRequest_answered s.1 l.request s.2)).2

/-- Regular steps keep the configurations sound. -/
theorem inductive_soundStore : (configSystem.restrict RegularStep).Inductive SoundStore where
  init s h := by
    refine ⟨h.state, fun r hr => ?_⟩
    obtain ⟨files, hdc⟩ := h.loaded r hr
    rw [hdc]
    exact sound_loadRemote _ _ _
  step s l s' h hstep := by
    obtain ⟨hstep, hregular⟩ := hstep
    cases l with
    | edited =>
      obtain ⟨dd, fs⟩ := s
      obtain rfl : s'.1 = dd := hstep
      exact ⟨h.state, h.sound⟩
    | handled l =>
      have hanswered := answered_of_step hstep
      refine ⟨hanswered.config ▸ h.state, fun r' hr' => ?_⟩
      obtain ⟨r, hr, hsucc⟩ := hanswered.remotes r' hr'
      generalize r'.dc = d at hsucc ⊢
      cases hsucc with
      | same => exact h.sound r hr
      | loaded files => exact sound_loadRemote _ _ _
      | changed hreply haccepted hmutation hfind =>
        exact sound_mutation (h.sound r hr) hmutation haccepted
          (hregular hreply _ _ hmutation _ _ hfind)

theorem started_loadedDaemon : Started loadedDaemon where
  state := by decide
  loaded r hr := by
    obtain rfl := List.mem_singleton.mp hr
    exact ⟨fun _ => none, rfl⟩

theorem findRemote_loadedDaemon {i : ℕ} {r : DaemonRemote}
    (h : findRemote loadedDaemon unknownIdentity = some (i, r)) : r.dc = deviceConfigInit := by
  obtain rfl := List.mem_singleton.mp (List.mem_of_getElem? (findRemote_eq_some h).1)
  rfl

/-- The daemon after a request of root on some files, which is answered without a failure. -/
def rootRun (req : Request) (fs : Fs) : (Reply × DaemonDevices) × Fs :=
  Prog.exec rootAnswers (handleRequest loadedDaemon [] (.lit ":1.1") req) fs

theorem exists_rootRun (req : Request) (fs : Fs) : ∃ tr, configSystem.step (loadedDaemon, fs)
    (.handled ⟨.lit ":1.1", [], req, tr, (rootRun req fs).1.1⟩) ((rootRun req fs).1.2, (rootRun req fs).2) :=
  run_exec step_rootAnswers (handleRequest loadedDaemon [] (.lit ":1.1") req) fs

/-- The active profiles differ. -/
theorem not_loadsBack_of_ne {p q : CStr}
    (hmemory : (findRemote s.1 mac).map (·.2.dc.profile) = some p)
    (hdisk : (daemonConfigLoadRemote s.1.config s.2.contents mac).2.profile = q) (hne : q ≠ p) :
    ¬ LoadsBack s mac := by
  rintro ⟨i, r, dc, hfind, hload, hsame⟩
  rw [hfind] at hmemory
  rw [hload] at hdisk
  have hprofile : dc.profile = r.dc.profile :=
    congrArg (fun d : DeviceConfig Bytes => d.profile) hsame
  rw [show r.dc.profile = p from Option.some.inj hmemory] at hprofile
  exact hne (hdisk.symm.trans hprofile)

/-- `state.toml` as it may be written by hand. -/
def editedFiles : Fs := fun p =>
  if p = .lit "/var/lib/lgmagic/state.toml" then
    some ⟨ascii "[devices.unknown]\nprofile = \"tv\"\n", true⟩
  else none

end Daemon
