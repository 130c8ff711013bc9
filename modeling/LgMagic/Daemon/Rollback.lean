import LgMagic.Daemon.AtomicWrite
import LgMagic.Daemon.BusAuth

/-!
# Saves that fail

A method that changes the configuration of a remote saves it, and where the save fails at any step
reads the configuration back from the disk and configures the pipeline again. The target of the save
changes with the rename only, so what is read back is what was there before.

* `wp_liftSys`: the rules for the file system inside a handler;
* `SaveOutcome`: what a save comes to when the rename was not completed;
* `wp_loadRemote`, `wp_configureRemote`: what a handler reads and configures;
* `rolledBack_of_saveFailed`: every request whose save fails.
-/

namespace Daemon

open Binary64 Posix Prog Profiles

/-! ## Saves inside a handler -/

/-- A call of the file system as a call of a handler. -/
def liftEvent : Event SysCall Answer → BusEvent
  | ⟨c, r⟩ => ⟨.sys c, r⟩

/-- Nothing is asked for between the calls. -/
def anywhere {Cmd : Type} {Resp : Cmd → Type} (_ : List (Event Cmd Resp)) (_ : Fs) : Prop := True

theorem wp_liftSys {α : Type} {p : Sys α} {Q : α → Trace → Fs → Prop} {tr : Trace} {fs : Fs}
    (h : p.wp posix anywhere Q tr fs) (tr₀ : List BusEvent) :
    (liftSys p).wp busMachine anywhere
      (fun a tr s => ∃ t, tr = tr₀ ++ t.map liftEvent ∧ Q a t s)
      (tr₀ ++ tr.map liftEvent) fs := by
  induction p generalizing tr fs with
  | ret a => exact ⟨trivial, tr, rfl, h.2⟩
  | call c k ih =>
    refine ⟨trivial, fun r fs' hstep => ?_⟩
    have := ih r (h.2 r fs' hstep)
    rwa [List.map_append, ← List.append_assoc] at this

/-- What a save comes to: the files are as before but for the temporary one, unless the rename was
completed, and only then the save succeeds. -/
structure SaveOutcome (target : Option CStr) (fs : Fs) (res : Except SaveError Unit) (tr : Trace)
    (fs' : Fs) : Prop where
  kept : ∀ path, target = some path → renamed path tr = false →
    ∀ p, p ≠ tmpPath path → fs' p = fs p
  keptNone : target = none → fs' = fs
  saved : res = .ok () → ∃ path, target = some path ∧ renamed path tr = true

variable {dc : DaemonConfig} {d : DeviceConfig Double} {identity profile path : CStr} {fs fs' : Fs}

theorem SaveOutcome.of_replaced {text : Bytes} {res : Except SaveError Unit} {tr : Trace}
    (h : Replaced fs path (tmpPath path) text tr fs') (hres : res = .ok () ↔ renamed path tr = true) :
    SaveOutcome (some path) fs res tr fs' where
  kept := by
    rintro _ ⟨⟩ hnot p hp
    by_cases hpath : p = path
    · rw [hpath, h.target, if_neg (by simp [hnot])]
    · exact h.frame p hpath hp
  keptNone h := by cases h
  saved hok := ⟨path, rfl, hres.mp hok⟩

theorem SaveOutcome.of_error (target : Option CStr) (e : SaveError) (tr : Trace) :
    SaveOutcome target fs (.error e) tr fs :=
  ⟨fun _ _ _ _ _ => rfl, fun _ => rfl, fun h => by cases h⟩

theorem wp_saveDevice_outcome (dc : DaemonConfig) (d : DeviceConfig Double) (identity : CStr)
    (fs : Fs) : (daemonConfigSaveDevice dc d identity).wp posix anywhere
      (SaveOutcome (devicePath dc identity) fs) [] fs := by
  cases hpath : devicePath dc identity with
  | none =>
    rw [daemonConfigSaveDevice, hpath]
    exact ⟨trivial, .of_error _ _ _⟩
  | some path =>
    cases htext : (deviceConfigToToml d).bind fun root => Toml.tomlDumps (.table root) with
    | none =>
      rw [daemonConfigSaveDevice, hpath]
      simp only [htext]
      exact ⟨trivial, .of_error _ _ _⟩
    | some text =>
      obtain ⟨root, hroot, htext⟩ := Option.bind_eq_some_iff.mp htext
      exact wp_mono_inv (fun _ _ _ => trivial)
        (wp_mono (fun res tr fs' hJ hQ => .of_replaced hJ hQ) (wp_saveDevice hpath hroot htext))

theorem wp_saveProfile_outcome (dc : DaemonConfig) (identity profile : CStr) (fs : Fs) :
    (daemonConfigSaveProfile dc identity profile).wp posix anywhere
      (SaveOutcome (statePath dc) fs) [] fs := by
  cases hpath : statePath dc with
  | none =>
    rw [daemonConfigSaveProfile, hpath]
    exact ⟨trivial, .of_error _ _ _⟩
  | some path =>
    cases htext : (setStateProfile ((tomlLoadFile (fs.contents path)).getD newState) identity
        profile).bind fun root => Toml.tomlDumps (.table root) with
    | none =>
      rw [daemonConfigSaveProfile, hpath]
      refine wp_readFile trivial ?_
      simp only [htext]
      exact ⟨trivial, .of_error _ _ _⟩
    | some text =>
      obtain ⟨root, hroot, htext⟩ := Option.bind_eq_some_iff.mp htext
      exact wp_mono_inv (fun _ _ _ => trivial)
        (wp_mono (fun res tr fs' hJ hQ => .of_replaced hJ hQ) (wp_saveProfile hpath hroot htext))

/-! ## Loading inside a handler -/

/-- The configuration only depends on the two files. -/
theorem daemonConfigLoadRemote_congr {f g : CStr → Option Bytes}
    (hdevice : ∀ p, devicePath dc identity = some p → f p = g p)
    (hstate : ∀ p, statePath dc = some p → f p = g p) :
    daemonConfigLoadRemote dc f identity = daemonConfigLoadRemote dc g identity := by
  unfold daemonConfigLoadRemote
  cases hd : devicePath dc identity with
  | none => rfl
  | some p =>
    simp only [hdevice p hd]
    cases hs : statePath dc with
    | none => rfl
    | some q => simp only [hstate q hs]

/-- The files are read as they are. -/
theorem wp_loadRemote (dc : DaemonConfig) (identity : CStr) (fs : Fs) (tr : Trace) :
    (loadRemote dc identity).wp posix anywhere
      (fun res _ fs' => fs' = fs ∧ res = daemonConfigLoadRemote dc fs.contents identity) tr fs := by
  unfold loadRemote
  cases hd : devicePath dc identity with
  | none =>
    refine ⟨trivial, rfl, ?_⟩
    simp [daemonConfigLoadRemote, hd]
  | some path =>
    refine wp_readFile trivial ?_
    cases hs : statePath dc with
    | none =>
      refine ⟨trivial, rfl, daemonConfigLoadRemote_congr (fun p hp => ?_) fun p hp => ?_⟩
      · rw [Option.some.inj (hd.symm.trans hp)]
      · cases hs.symm.trans hp
    | some store =>
      refine wp_readFile trivial ⟨trivial, rfl, daemonConfigLoadRemote_congr (fun p hp => ?_)
        fun p hp => ?_⟩
      · rw [if_pos (Option.some.inj (hp.symm.trans hd)), Option.some.inj (hd.symm.trans hp)]
      · split_ifs with h
        · rw [h]
        · rw [Option.some.inj (hs.symm.trans hp)]

/-- A remote is configured with a configuration. -/
structure Configured (r : DaemonRemote) (d : DeviceConfig Double) (r' : DaemonRemote) : Prop where
  identity : r'.identity = r.identity
  config : r'.dc = d
  active : r'.pl.active = resolveProfile d

theorem wp_configureRemote (dd : DaemonDevices) (r : DaemonRemote) (d : DeviceConfig Double)
    (tr : List BusEvent) (fs : Fs) : (configureRemote dd r d).wp busMachine anywhere
      (fun r' _ fs' => fs' = fs ∧ Configured r d r') tr fs := by
  have hactive (load : CStr → Except Bytes (Pointer.Calib Double)) (calib : CStr) :
      (pipelineConfigure load r.pl d calib dd.global r.kbdUinputFd).2.1.active =
        resolveProfile d := by
    unfold pipelineConfigure
    dsimp only
    split_ifs
    all_goals first | rfl | (split <;> rfl)
  unfold configureRemote
  dsimp only
  split_ifs with hcalib
  · exact ⟨trivial, rfl, rfl, rfl, hactive _ _⟩
  · refine ⟨trivial, fun loaded fs' hstep => ?_⟩
    obtain rfl : fs' = fs := hstep
    exact ⟨trivial, rfl, rfl, rfl, hactive _ _⟩

/-! ## Failed saves -/

/-- The configuration in memory is the one on the disk, and the pipeline is configured from it. -/
structure InSync (dc : DaemonConfig) (fs : Fs) (r : DaemonRemote) : Prop where
  config : r.dc = (daemonConfigLoadRemote dc fs.contents r.identity).2
  active : r.pl.active = resolveProfile r.dc

/-- The remote that a request changes. -/
def Request.target : Request → Option CStr
  | .setProfile mac _ | .mapButton mac _ _ | .resetButtons mac | .setScrollSpeed mac _
  | .setSensitivity mac _ | .setCalibPath mac _ => some mac
  | .listDevices | .getStatus _ | .reload => none

/-- The file that a request for a remote saves. -/
def Request.file (dc : DaemonConfig) (mac : CStr) : Request → Option CStr
  | .setProfile _ _ => statePath dc
  | _ => devicePath dc mac

/-- Nothing was saved: no rename onto the file was completed, if it has a path at all. -/
def SaveFailed (file : Option CStr) (tr : List BusEvent) : Prop :=
  ∀ path, file = some path → ∀ tmp, (⟨.sys (.rename tmp path), true⟩ : BusEvent) ∉ tr

/-- What the daemon goes by for a remote. -/
def settings (r : DaemonRemote) : CStr × DeviceConfig Double × Profile Double :=
  (r.identity, r.dc, r.pl.active)

/-- The caller is told of an error. -/
def Reply.IsError : Reply → Prop
  | .error _ _ | .errno => True
  | .ok | .text _ | .list _ => False

/-- Nothing is changed on the disk and in memory, and the caller receives an error. -/
structure RolledBack (dd : DaemonDevices) (mac : CStr) (fs : Fs) (reply : Reply)
    (dd' : DaemonDevices) (fs' : Fs) : Prop where
  device : ∀ path, devicePath dd.config mac = some path → fs' path = fs path
  state : ∀ path, statePath dd.config = some path → fs' path = fs path
  remotes : dd'.remotes.map settings = dd.remotes.map settings
  refused : reply.IsError

variable {dd : DaemonDevices} {mac sender action : CStr} {tr : List BusEvent}

/-- Seen from the calls of the save alone. -/
theorem renamed_of_saveFailed {file : Option CStr} {t : Trace} (tr : List BusEvent)
    (h : SaveFailed file (tr ++ t.map liftEvent)) :
    ∀ path, file = some path → renamed path t = false := by
  intro path hpath
  by_contra hrenamed
  rw [Bool.not_eq_false, renamed, List.any_eq_true] at hrenamed
  obtain ⟨⟨c, r⟩, he, hren⟩ := hrenamed
  cases c with
  | rename tmp new =>
    cases r with
    | true =>
      obtain rfl : new = path := by simpa [renames] using hren
      exact h new hpath tmp (List.mem_append_right _ (List.mem_map_of_mem he))
    | false => simp [renames] at hren
  | _ => simp [renames] at hren

/-- A path that ends like a file of the daemon is not temporary. -/
theorem toml_ne_tmpPath {a b p q : CStr} {n : ℕ} (h : pathJoin n a b = some p)
    (hb : b.val.getLast? = some 0x6C) : p ≠ tmpPath q := by
  intro heq
  have hlast := congrArg (fun s : CStr => s.val.getLast?) heq
  rw [← (pathJoin_eq_some.mp h).2] at hlast
  simp only [tmpPath, CStr.append_val, List.getLast?_append, hb] at hlast
  have : (CStr.lit ".tmp").val.getLast? = some 0x70 := by decide
  rw [this] at hlast
  simp at hlast

theorem devicePath_ne_tmpPath {p q : CStr} (h : devicePath dc identity = some p) : p ≠ tmpPath q := by
  obtain ⟨_, _, h⟩ := Option.bind_eq_some_iff.mp h
  obtain ⟨_, _, h⟩ := Option.bind_eq_some_iff.mp h
  exact toml_ne_tmpPath h (by decide)

theorem statePath_ne_tmpPath {p q : CStr} (h : statePath dc = some p) : p ≠ tmpPath q :=
  toml_ne_tmpPath h (by decide)

/-- A save that failed keeps the files of the daemon. -/
theorem SaveOutcome.unchanged {file : Option CStr} {res : Except SaveError Unit} {t : Trace}
    (h : SaveOutcome file fs res t fs') (hfail : ∀ path, file = some path → renamed path t = false)
    {p : CStr} (hp : ∀ q, p ≠ tmpPath q) : fs' p = fs p := by
  cases hfile : file with
  | none => rw [h.keptNone hfile]
  | some path => exact h.kept path hfile (hfail path hfile) p (hp path)

theorem SaveOutcome.isError {file : Option CStr} {res : Except SaveError Unit} {t : Trace}
    (h : SaveOutcome file fs res t fs')
    (hfail : ∀ path, file = some path → renamed path t = false) : ∃ e, res = .error e := by
  cases res with
  | error e => exact ⟨e, rfl⟩
  | ok u =>
    obtain ⟨path, hfile, hren⟩ := h.saved rfl
    rw [hfail path hfile] at hren
    cases hren

/-- A completed rename stays in the trace. -/
theorem wp_of_not_saveFailed {α : Type} {file : Option CStr} (p : Bus α)
    (h : ¬ SaveFailed file tr) : p.wp busMachine anywhere
      (fun _ tr _ => ¬ SaveFailed file tr) tr fs := by
  induction p generalizing tr fs with
  | ret a => exact ⟨trivial, h⟩
  | call c k ih =>
    refine ⟨trivial, fun r fs' _ => ih r fun hfail => h fun path hpath tmp hmem => ?_⟩
    exact hfail path hpath tmp (List.mem_append_left _ hmem)

/-- Once the rename was completed, there is nothing to show. -/
theorem wp_of_renamed {α : Type} {file : Option CStr} {Q : α → List BusEvent → Fs → Prop}
    (p : Bus α) (h : ¬ SaveFailed file tr) : p.wp busMachine anywhere
      (fun a tr fs => SaveFailed file tr → Q a tr fs) tr fs :=
  wp_mono (fun _ _ _ _ hnot hfail => absurd hfail hnot) (wp_of_not_saveFailed p h)

/-- The daemon's files are unchanged. -/
def Kept (fs fs' : Fs) : Prop := ∀ p, (∀ q, p ≠ tmpPath q) → fs' p = fs p

theorem Kept.load {d : DaemonConfig} (h : Kept fs fs') :
    daemonConfigLoadRemote d fs'.contents identity =
      daemonConfigLoadRemote d fs.contents identity :=
  daemonConfigLoadRemote_congr
    (fun p hp => by rw [Fs.contents, Fs.contents, h p fun q => devicePath_ne_tmpPath hp])
    (fun p hp => by rw [Fs.contents, Fs.contents, h p fun q => statePath_ne_tmpPath hp])

/-- The rollback configures a remote with what is on the disk. -/
theorem wp_remoteRollback_loaded (dd : DaemonDevices) (r : DaemonRemote) (tr : List BusEvent)
    (fs : Fs) : (remoteRollback dd r).wp busMachine anywhere
      (fun r' _ fs' => fs' = fs ∧
        Configured r (daemonConfigLoadRemote dd.config fs.contents r.identity).2 r') tr fs := by
  have hload := wp_liftSys (wp_loadRemote dd.config r.identity fs []) tr
  rw [List.map_nil, List.append_nil] at hload
  refine wp_bind (wp_mono ?_ hload)
  rintro _ tr' fs' - ⟨_, -, rfl, rfl⟩
  refine wp_mono ?_ (wp_configureRemote dd { r with dc := _ } _ tr' fs')
  rintro r' tr'' fs'' - ⟨rfl, hidentity, hconfig, hactive⟩
  exact ⟨rfl, hidentity, hconfig, hactive⟩

/-- The rollback restores the configuration and what the pipeline goes by. -/
theorem wp_remoteRollback {r r₀ : DaemonRemote} {fs₀ : Fs} (hsync : InSync dd.config fs₀ r₀)
    (hidentity : r.identity = r₀.identity) (hkept : Kept fs₀ fs) (tr : List BusEvent) :
    (remoteRollback dd r).wp busMachine anywhere
      (fun r' _ fs' => fs' = fs ∧ settings r' = settings r₀) tr fs := by
  refine wp_mono ?_ (wp_remoteRollback_loaded dd r tr fs)
  rintro r' tr' fs' - ⟨rfl, hidentity', hconfig, hactive⟩
  have hfresh : (daemonConfigLoadRemote dd.config fs'.contents r.identity).2 = r₀.dc := by
    rw [hsync.config, ← hidentity, ← hkept.load]
  refine ⟨rfl, ?_⟩
  rw [settings, settings, hidentity', hconfig, hactive, hfresh, hsync.active]
  exact congrArg (fun i => (i, r₀.dc, resolveProfile r₀.dc)) hidentity

/-- A change of a configuration that is not saved. -/
theorem wp_mutateAndSave {r : DaemonRemote} (hsync : InSync dd.config fs r)
    (mutate : DeviceConfig Double → DeviceConfig Double) (tr : List BusEvent) :
    (mutateAndSave dd r mutate).wp busMachine anywhere
      (fun res tr' fs' => SaveFailed (devicePath dd.config r.identity) tr' →
        (∃ e, res.1 = .error e) ∧ Kept fs fs' ∧ settings res.2 = settings r) tr fs := by
  have hsave := wp_liftSys (wp_saveDevice_outcome dd.config (mutate r.dc) r.identity fs) tr
  rw [List.map_nil, List.append_nil] at hsave
  refine wp_bind (wp_mono ?_ hsave)
  rintro saved tr' fs' - ⟨t, rfl, hout⟩
  by_cases hfail : SaveFailed (devicePath dd.config r.identity) (tr ++ t.map liftEvent)
  · have hren := renamed_of_saveFailed tr hfail
    have hkept : Kept fs fs' := fun p hp => hout.unchanged hren hp
    obtain ⟨e, rfl⟩ := hout.isError hren
    refine wp_bind (wp_mono ?_ (wp_remoteRollback hsync rfl hkept _))
    rintro r' tr'' fs'' - ⟨rfl, hsettings⟩
    exact ⟨trivial, fun _ => ⟨⟨e, rfl⟩, hkept, hsettings⟩⟩
  · exact wp_of_renamed _ hfail

/-! ## The methods -/

/-- Every reply that refuses leaves everything as it is. -/
theorem RolledBack.of_isError {reply : Reply} (h : reply.IsError) :
    RolledBack dd mac fs reply dd fs :=
  ⟨fun _ _ => rfl, fun _ _ => rfl, rfl, h⟩

theorem isError_fail (name : CStr) (msg : Bytes) : (fail name msg).IsError := trivial

theorem findRemote_eq_some {i : ℕ} {r : DaemonRemote} (h : findRemote dd mac = some (i, r)) :
    dd.remotes[i]? = some r ∧ r.identity = mac := by
  obtain ⟨j, hidx, hget⟩ := Option.bind_eq_some_iff.mp h
  obtain ⟨r', hr', hpair⟩ := Option.map_eq_some_iff.mp hget
  cases hpair
  refine ⟨hr', ?_⟩
  obtain ⟨hlt, hprop, -⟩ := List.findIdx?_eq_some_iff_getElem.mp hidx
  rw [List.getElem?_eq_getElem hlt] at hr'
  rw [← Option.some.inj hr']
  simpa using hprop

/-- A remote put back with the same settings. -/
theorem map_settings_setRemote {i : ℕ} {r r' : DaemonRemote} (hr : dd.remotes[i]? = some r)
    (h : settings r' = settings r) :
    (dd.setRemote i r').remotes.map settings = dd.remotes.map settings := by
  obtain ⟨hlt, rfl⟩ := List.getElem?_eq_some_iff.mp hr
  rw [DaemonDevices.setRemote, List.map_set, h, ← List.getElem_map settings]
  · exact List.set_getElem_self _
  · simpa using hlt

/-- What a handler whose save failed comes to. -/
def RollsBack (dd : DaemonDevices) (mac : CStr) (file : Option CStr) (fs : Fs)
    (res : Reply × DaemonDevices) (tr : List BusEvent) (fs' : Fs) : Prop :=
  SaveFailed file tr → RolledBack dd mac fs res.1 res.2 fs'

theorem wp_refuse {file : Option CStr} {reply : Reply} (h : reply.IsError) :
    (pure (reply, dd) : Handler).wp busMachine anywhere (RollsBack dd mac file fs) tr fs :=
  ⟨trivial, fun _ => .of_isError h⟩

/-- A handler behind the gate: the caller is refused, or the handler runs. -/
theorem wp_gated_of {body : Handler} {Q : Reply × DaemonDevices → List BusEvent → Fs → Prop}
    (hrefuse : ∀ reply tr, reply.IsError → Q (reply, dd) tr fs)
    (hbody : ∀ tr, body.wp busMachine anywhere Q tr fs) :
    (gated dd sender action body).wp busMachine anywhere Q [] fs := by
  refine wp_bind (wp_bind (wp_mono ?_
    (wp_mono_inv (fun _ _ _ => trivial) (wp_polkitAuthorized sender action fs))))
  rintro r tr fs' - ⟨rfl, -, -⟩
  split_ifs
  · exact ⟨trivial, hbody tr⟩
  · exact ⟨trivial, trivial, hrefuse _ _ (isError_fail _ _)⟩
  · exact ⟨trivial, trivial, hrefuse _ _ (isError_fail _ _)⟩

/-- A handler for a remote: there is none of that identity, or the handler runs on it. -/
theorem wp_onRemote_of {body : ℕ → DaemonRemote → Handler}
    {Q : Reply × DaemonDevices → List BusEvent → Fs → Prop}
    (hrefuse : ∀ reply, reply.IsError → Q (reply, dd) tr fs)
    (hbody : ∀ i r, daemonIdentityValid mac = true → findRemote dd mac = some (i, r) →
      (body i r).wp busMachine anywhere Q tr fs) :
    (onRemote dd mac body).wp busMachine anywhere Q tr fs := by
  unfold onRemote
  split_ifs with hvalid
  · cases hfind : findRemote dd mac with
    | none => exact ⟨trivial, hrefuse _ (isError_fail _ _)⟩
    | some ir => exact hbody ir.1 ir.2 hvalid hfind
  · exact ⟨trivial, hrefuse _ (isError_fail _ _)⟩

/-- Where the gate refuses the caller, nothing is changed. -/
theorem wp_gated_rollsBack {file : Option CStr} {body : Handler}
    (hbody : ∀ tr, body.wp busMachine anywhere (RollsBack dd mac file fs) tr fs) :
    (gated dd sender action body).wp busMachine anywhere (RollsBack dd mac file fs) [] fs :=
  wp_gated_of (fun _ _ herror _ => .of_isError herror) hbody

theorem wp_onRemote {file : Option CStr} {body : ℕ → DaemonRemote → Handler}
    (hbody : ∀ i r, findRemote dd mac = some (i, r) →
      (body i r).wp busMachine anywhere (RollsBack dd mac file fs) tr fs) :
    (onRemote dd mac body).wp busMachine anywhere (RollsBack dd mac file fs) tr fs :=
  wp_onRemote_of (fun _ herror _ => .of_isError herror) fun i r _ => hbody i r

/-- The methods that change a configuration. -/
theorem wp_mutateRemote {strerror : Bytes} {i : ℕ} {r : DaemonRemote}
    (hfind : findRemote dd mac = some (i, r)) (hsync : InSync dd.config fs r)
    (mutate : DeviceConfig Double → DeviceConfig Double) :
    (mutateRemote dd strerror i r mutate).wp busMachine anywhere
      (RollsBack dd mac (devicePath dd.config mac) fs) tr fs := by
  obtain ⟨hr, rfl⟩ := findRemote_eq_some hfind
  refine wp_bind (wp_mono ?_ (wp_mutateAndSave hsync mutate tr))
  rintro ⟨saved, r'⟩ tr' fs' - h
  refine ⟨trivial, fun hfail => ?_⟩
  obtain ⟨⟨e, he⟩, hkept, hsettings⟩ := h hfail
  exact {
    device := fun p hp => hkept p fun q => devicePath_ne_tmpPath hp
    state := fun p hp => hkept p fun q => statePath_ne_tmpPath hp
    remotes := map_settings_setRemote hr hsettings
    refused := by
      change (saveReply strerror saved).IsError
      obtain rfl : saved = .error e := he
      exact isError_fail _ _ }

/-- `SetProfile` changes nothing in memory before the profile is saved. -/
theorem wp_setProfile {strerror : Bytes} {i : ℕ} {r : DaemonRemote} (tr : List BusEvent) :
    (do
      match ← liftSys (daemonConfigSaveProfile dd.config mac profile) with
      | .error e => return (saveReply strerror (.error e), dd)
      | .ok () =>
        let (_, fresh) ← liftSys (loadRemote dd.config r.identity)
        let r ← remoteApply dd { r with dc := fresh }
        return (.ok, dd.setRemote i r) : Handler).wp busMachine anywhere
      (RollsBack dd mac (statePath dd.config) fs) tr fs := by
  have hsave := wp_liftSys (wp_saveProfile_outcome dd.config mac profile fs) tr
  rw [List.map_nil, List.append_nil] at hsave
  refine wp_bind (wp_mono ?_ hsave)
  rintro saved tr' fs' - ⟨t, rfl, hout⟩
  by_cases hfail : SaveFailed (statePath dd.config) (tr ++ t.map liftEvent)
  · have hren := renamed_of_saveFailed tr hfail
    obtain ⟨e, rfl⟩ := hout.isError hren
    refine ⟨trivial, fun _ => ⟨fun p hp => ?_, fun p hp => ?_, rfl, isError_fail _ _⟩⟩
    · exact hout.unchanged hren fun q => devicePath_ne_tmpPath hp
    · exact hout.unchanged hren fun q => statePath_ne_tmpPath hp
  · exact wp_of_renamed _ hfail

/-- Every method that saves. -/
theorem wp_handleRequest_rollsBack {strerror : Bytes} {req : Request}
    (htarget : req.target = some mac)
    (hsync : ∀ i r, findRemote dd mac = some (i, r) → InSync dd.config fs r) :
    (handleRequest dd strerror sender req).wp busMachine anywhere
      (RollsBack dd mac (req.file dd.config mac) fs) [] fs := by
  -- every request with a target is refused, stores the profile or changes the remote
  cases req with
  | listDevices | getStatus _ | reload => cases htarget
  | setProfile mac' profile =>
    obtain rfl : mac' = mac := Option.some.inj htarget
    refine wp_gated_rollsBack fun tr => wp_onRemote fun i r hfind => ?_
    split_ifs
    · exact wp_refuse (isError_fail _ _)
    · exact wp_setProfile tr
  | mapButton mac' src dst =>
    obtain rfl : mac' = mac := Option.some.inj htarget
    simp only [handleRequest, methodMapButton]
    split_ifs
    · exact wp_refuse (isError_fail _ _)
    · refine wp_gated_rollsBack fun tr => wp_onRemote fun i r hfind => ?_
      exact wp_mutateRemote hfind (hsync i r hfind) _
  | resetButtons mac' =>
    obtain rfl : mac' = mac := Option.some.inj htarget
    refine wp_gated_rollsBack fun tr => wp_onRemote fun i r hfind => ?_
    exact wp_mutateRemote hfind (hsync i r hfind) _
  | setScrollSpeed mac' v | setSensitivity mac' v =>
    obtain rfl : mac' = mac := Option.some.inj htarget
    refine wp_gated_rollsBack fun tr => wp_onRemote fun i r hfind => ?_
    split_ifs
    · exact wp_refuse (isError_fail _ _)
    · exact wp_mutateRemote hfind (hsync i r hfind) _
  | setCalibPath mac' path =>
    obtain rfl : mac' = mac := Option.some.inj htarget
    refine wp_gated_rollsBack fun tr => wp_onRemote fun i r hfind => ?_
    exact wp_mutateRemote hfind (hsync i r hfind) _

/-- A daemon with a remote whose configuration was loaded, there being no files. -/
def loadedDaemon : DaemonDevices :=
  let d := (daemonConfigLoadRemote startDev.dd.config (fun _ => none) unknownIdentity).2
  let remote : DaemonRemote :=
    { identity := unknownIdentity, kbdPath := .empty, imuPath := .empty, kbd := none, imu := none,
      kbdUinput := none, mouseUinput := none, dc := d,
      pl := { pipelineInit with active := resolveProfile d } }
  { startDev.dd with remotes := [remote] }

/-- Root asks, and no rename is completed. -/
def brokenAnswers (fs : Fs) : (c : BusCall) → BusAnswer c × Fs
  | .sys (.rename _ _) => (false, fs)
  | c => rootAnswers fs c

theorem step_brokenAnswers (fs : Fs) (c : BusCall) :
    busMachine.step fs c (brokenAnswers fs c).1 (brokenAnswers fs c).2 := by
  cases c with
  | sys c =>
    cases c with
    | rename old new => rfl
    | _ => exact step_faultless fs _
  | _ => rfl

/-- A call that is no completed rename. -/
def NoRename (e : BusEvent) : Prop := ∀ tmp path, e ≠ ⟨.sys (.rename tmp path), true⟩

theorem noRename_brokenAnswers (fs : Fs) (c : BusCall) : NoRename ⟨c, (brokenAnswers fs c).1⟩ := by
  intro tmp path h
  cases c with
  | sys c => cases c <;> cases h
  | _ => cases h

end Daemon
