import LgMagic.Daemon.Config

/-!
# Replacing a file

What `atomic_write_file` does to the files, whatever fails and wherever it crashes: the file holds
the new text exactly when the rename was completed, and what it held before until then; nothing else
changes but the temporary file. Without failures the file is replaced, also when a temporary file of
an earlier crash is in the way.

* `renamed`: the rename was completed;
* `Replaced`: the files while one is replaced;
* `wp_atomicWriteFile`: every run;
* `exec_atomicWriteFile`: the run without failures.
-/

namespace Daemon

open Posix Profiles Toml

/-- The traces of system calls. -/
abbrev Trace := List (Event SysCall Answer)

/-- The call is a completed rename onto a path. -/
def renames (path : CStr) : Event SysCall Answer → Bool
  | ⟨.rename _ new, true⟩ => new = path
  | _ => false

/-- A rename onto a path was completed. -/
def renamed (path : CStr) (tr : Trace) : Bool := tr.any (renames path)

@[simp] theorem renamed_nil (path : CStr) : renamed path [] = false := rfl

@[simp]
theorem renamed_append (path : CStr) (tr tr' : Trace) :
    renamed path (tr ++ tr') = (renamed path tr || renamed path tr') := List.any_append

@[simp]
theorem renamed_cons (path : CStr) (e : Event SysCall Answer) (tr : Trace) :
    renamed path (e :: tr) = (renames path e || renamed path tr) := rfl

/-- The path of the temporary file of a path. -/
def tmpPath (path : CStr) : CStr := path ++ .lit ".tmp"

theorem ne_tmpPath (path : CStr) : path ≠ tmpPath path := by
  intro h
  have hlen := congrArg (fun s : CStr => s.val.length) h
  have htmp : (CStr.lit ".tmp").val.length = 4 := rfl
  simp only [tmpPath, CStr.append_val, List.length_append, htmp] at hlen
  omega

/-- The files while `path` is replaced by way of `tmp`, beginning with the files `fs₀`. -/
structure Replaced (fs₀ : Fs) (path tmp : CStr) (text : Bytes) (tr : Trace) (fs : Fs) : Prop where
  /-- The file is the new one from the rename on. -/
  target : fs path = if renamed path tr then some ⟨text, true⟩ else fs₀ path
  /-- Other files stay. -/
  frame : ∀ p, p ≠ path → p ≠ tmp → fs p = fs₀ p

/-- The files before the rename. -/
structure Pending (fs₀ : Fs) (path tmp : CStr) (tr : Trace) (fs : Fs) : Prop where
  notRenamed : renamed path tr = false
  keeps : ∀ p, p ≠ tmp → fs p = fs₀ p

section

variable {fs₀ fs : Fs} {path tmp : CStr} {text : CStr} {tr : Trace}

theorem Pending.replaced (h : Pending fs₀ path tmp tr fs) (hne : path ≠ tmp) (text : Bytes) :
    Replaced fs₀ path tmp text tr fs where
  target := by rw [h.notRenamed, if_neg (by simp)]; exact h.keeps path hne
  frame p _ hp := h.keeps p hp

/-- A call that leaves the files as they are. -/
theorem Pending.skip (h : Pending fs₀ path tmp tr fs) {e : Event SysCall Answer}
    (he : renames path e = false) : Pending fs₀ path tmp (tr ++ [e]) fs :=
  ⟨by simp [h.notRenamed, he], h.keeps⟩

/-- A call on the temporary file. -/
theorem Pending.update (h : Pending fs₀ path tmp tr fs) {e : Event SysCall Answer}
    (he : renames path e = false) (f : Option File) :
    Pending fs₀ path tmp (tr ++ [e]) (Function.update fs tmp f) :=
  ⟨by simp [h.notRenamed, he],
    fun p hp => by rw [Function.update_of_ne hp]; exact h.keeps p hp⟩

theorem wp_openTmp (hne : path ≠ tmp) (h : Pending fs₀ path tmp tr fs) :
    (openTmp tmp).wp posix (Replaced fs₀ path tmp text.val)
      (fun _ tr fs => Pending fs₀ path tmp tr fs) tr fs := by
  have inv : ∀ {tr fs}, Pending fs₀ path tmp tr fs → Replaced fs₀ path tmp text.val tr fs :=
    fun h => h.replaced hne _
  refine wp_openExcl (inv h) (fun _ => ?_) (fun _ => ?_) ?_
  · have h := h.update (e := ⟨.openExcl tmp, Created.ok⟩) rfl (some ⟨[], false⟩)
    exact ⟨inv h, h⟩
  · -- a temporary file of an earlier run is removed
    have h := h.skip (e := ⟨.openExcl tmp, Created.exists⟩) rfl
    refine wp_unlink (inv h) ?_ ?_
    · have h := h.update (e := ⟨.unlink tmp, true⟩) rfl none
      refine wp_openExcl (inv h) (fun _ => ?_) (fun _ => ?_) ?_
      · have h := h.update (e := ⟨.openExcl tmp, Created.ok⟩) rfl (some ⟨[], false⟩)
        exact ⟨inv h, h⟩
      · have h := h.skip (e := ⟨.openExcl tmp, Created.exists⟩) rfl
        exact ⟨inv h, h⟩
      · have h := h.skip (e := ⟨.openExcl tmp, Created.failed⟩) rfl
        exact ⟨inv h, h⟩
    · have h := h.skip (e := ⟨.unlink tmp, false⟩) rfl
      exact ⟨inv h, h⟩
  · have h := h.skip (e := ⟨.openExcl tmp, Created.failed⟩) rfl
    exact ⟨inv h, h⟩

theorem wp_writeSync (hne : path ≠ tmp) (h : Pending fs₀ path tmp tr fs) :
    (writeSync tmp text).wp posix (Replaced fs₀ path tmp text.val)
      (fun ok tr fs => Pending fs₀ path tmp tr fs ∧ (ok = true → fs tmp = some ⟨text.val, true⟩))
      tr fs := by
  have inv : ∀ {tr fs}, Pending fs₀ path tmp tr fs → Replaced fs₀ path tmp text.val tr fs :=
    fun h => h.replaced hne _
  refine wp_write (inv h) (fun n _ => ?_) ?_
  · have h := h.update (e := ⟨.write tmp text.val, some n⟩) rfl (some ⟨text.val.take n, false⟩)
    -- a short write is a failure, and a whole one is followed by the sync
    by_cases hn : n = text.val.length
    · rw [if_pos (by rw [hn])]
      refine ⟨inv h, fun r fs' hstep => ?_⟩
      match r, hstep with
      | true, heq =>
        have heq : fs' = _ := heq
        subst heq
        have h := h.update (e := ⟨.fsync tmp, true⟩) rfl
          ((Function.update fs tmp (some ⟨text.val.take n, false⟩) tmp).map
            fun f => { f with synced := true })
        exact ⟨inv h, h, fun _ => by simp [hn]⟩
      | false, heq =>
        have heq : fs' = _ := heq
        subst heq
        have h := h.skip (e := ⟨.fsync tmp, false⟩) rfl
        exact ⟨inv h, h, by simp⟩
    · rw [if_neg (by simpa using hn)]
      exact ⟨inv h, h, by simp⟩
  · have h := h.skip (e := ⟨.write tmp text.val, none⟩) rfl
    rw [if_neg (by simp)]
    exact ⟨inv h, h, by simp⟩

/-- Every run of `atomic_write_file` passes through the states of a replacement, and it succeeds
exactly when the rename was completed. -/
theorem wp_atomicWriteFile (h : Pending fs₀ path (tmpPath path) tr fs) :
    (atomicWriteFile path text).wp posix (Replaced fs₀ path (tmpPath path) text.val)
      (fun r tr _ => r = .ok () ↔ renamed path tr = true) tr fs := by
  have hne := ne_tmpPath path
  generalize htmp : tmpPath path = tmp at h hne ⊢
  -- until the rename the old text is in place
  have inv : ∀ {tr fs}, Pending fs₀ path tmp tr fs → Replaced fs₀ path tmp text.val tr fs :=
    fun h => h.replaced hne _
  have fails : ∀ {tr fs} (e : SaveError), Pending fs₀ path tmp tr fs →
      (pure (.error e) : Sys (Except SaveError Unit)).wp posix (Replaced fs₀ path tmp text.val)
        (fun r tr _ => r = .ok () ↔ renamed path tr = true) tr fs :=
    fun e h => ⟨inv h, by simp [h.notRenamed]⟩
  -- every failure after the temporary file was made removes it
  have giveUp : ∀ {tr fs} (e : SaveError), Pending fs₀ path tmp tr fs →
      (unlink tmp >>= fun _ => (pure (.error e) : Sys (Except SaveError Unit))).wp posix (Replaced fs₀ path tmp text.val)
        (fun r tr _ => r = .ok () ↔ renamed path tr = true) tr fs :=
    fun e h => wp_unlink (inv h) (fails e (h.update (e := ⟨.unlink tmp, true⟩) rfl none))
      (fails e (h.skip (e := ⟨.unlink tmp, false⟩) rfl))
  unfold atomicWriteFile
  cases hjoin : pathJoin pathSize path (.lit ".tmp") with
  | none => exact fails _ h
  | some tmp' =>
  obtain rfl : tmp = tmp' := htmp.symm.trans (pathJoin_eq_some.mp hjoin).2
  -- the calls in their order: open, write and synchronise, close, rename
  refine Prog.wp_bind (Prog.wp_mono ?_ (wp_openTmp hne h))
  intro opened tr fs _ h
  cases opened with
  | false => exact fails _ h
  | true =>
    refine Prog.wp_bind (Prog.wp_mono ?_ (wp_writeSync hne h))
    rintro written tr fs _ ⟨h, hdata⟩
    cases written with
    | false => exact wp_close (inv h) fun r => giveUp _ (h.skip (e := ⟨.close tmp, r⟩) rfl)
    | true =>
      refine wp_close (inv h) fun r => ?_
      have h := h.skip (e := ⟨.close tmp, r⟩) rfl
      cases r with
      | false => exact giveUp _ h
      | true =>
        refine wp_rename (inv h) (fun _ => ?_)
          (giveUp _ (h.skip (e := ⟨.rename tmp path, false⟩) rfl))
        have hren : renamed path (tr ++ [⟨.close tmp, true⟩] ++ [⟨.rename tmp path, true⟩]) = true := by
          simp [renames]
        refine ⟨⟨?_, fun p hp hp' => ?_⟩, iff_of_true rfl hren⟩
        · rw [hren, if_pos rfl, Function.update_of_ne hne, Function.update_self]
          exact hdata rfl
        · rw [Function.update_of_ne hp', Function.update_of_ne hp]
          exact h.keeps p hp'

/-- `mkdir_p` leaves the files as they are. -/
theorem wp_mkdirs (dirs : List CStr) (hne : path ≠ tmp) (h : Pending fs₀ path tmp tr fs) :
    (mkdirs dirs).wp posix (Replaced fs₀ path tmp text.val)
      (fun _ tr fs => Pending fs₀ path tmp tr fs) tr fs := by
  induction dirs generalizing tr with
  | nil => exact ⟨h.replaced hne _, h⟩
  | cons dir dirs ih =>
    refine wp_mkdir (h.replaced hne _) fun r => ?_
    have h := h.skip (e := ⟨.mkdir dir, r⟩) rfl
    split_ifs
    · exact ⟨h.replaced hne _, h⟩
    · exact ih h

/-- Creating the directory of a file and replacing it. -/
theorem wp_mkdirP_atomicWriteFile (dir : CStr) (h : Pending fs₀ path (tmpPath path) tr fs) :
    (do
      match ← mkdirP dir with
      | .error e => return .error e
      | .ok () => atomicWriteFile path text : Sys (Except SaveError Unit)).wp posix
      (Replaced fs₀ path (tmpPath path) text.val)
      (fun r tr _ => r = .ok () ↔ renamed path tr = true) tr fs := by
  refine Prog.wp_bind (Prog.wp_mono ?_ (wp_mkdirs _ (ne_tmpPath path) h))
  intro r tr fs _ h
  cases r with
  | error e => exact ⟨h.replaced (ne_tmpPath path) _, by simp [h.notRenamed]⟩
  | ok u => exact wp_atomicWriteFile h

/-- Every run of `daemon_config_save_profile` replaces the store by the text of the tree with the
new entry. -/
theorem wp_saveProfile {dc : DaemonConfig} {identity profile : CStr} {root : Members}
    (hpath : statePath dc = some path)
    (hroot : setStateProfile ((tomlLoadFile (fs.contents path)).getD newState) identity profile =
      some root)
    (htext : tomlDumps (.table root) = some text) :
    (daemonConfigSaveProfile dc identity profile).wp posix
      (Replaced fs path (tmpPath path) text.val)
      (fun r tr _ => r = .ok () ↔ renamed path tr = true) [] fs := by
  have hstart : Pending fs path (tmpPath path) [] fs := ⟨rfl, fun _ _ => rfl⟩
  rw [daemonConfigSaveProfile, hpath]
  refine wp_readFile (hstart.replaced (ne_tmpPath path) _) ?_
  have hread := hstart.skip (e := ⟨.read path, fs.contents path⟩) rfl
  simp only [hroot, Option.bind_some, htext]
  exact wp_mkdirP_atomicWriteFile _ hread

/-- Every run of `daemon_config_save_device` replaces the device file by the text of the
configuration. -/
theorem wp_saveDevice {dc : DaemonConfig} {d : DeviceConfig Binary64.Double} {identity : CStr}
    {root : Members} (hpath : devicePath dc identity = some path)
    (hroot : deviceConfigToToml d = some root) (htext : tomlDumps (.table root) = some text) :
    (daemonConfigSaveDevice dc d identity).wp posix
      (Replaced fs path (tmpPath path) text.val)
      (fun r tr _ => r = .ok () ↔ renamed path tr = true) [] fs := by
  have hstart : Pending fs path (tmpPath path) [] fs := ⟨rfl, fun _ _ => rfl⟩
  rw [daemonConfigSaveDevice, hpath]
  simp only [hroot, Option.bind_some, htext]
  cases pathJoin pathSize dc.configRoot (.lit "/devices.d") with
  | none => exact ⟨hstart.replaced (ne_tmpPath path) _, by simp⟩
  | some dir => exact wp_mkdirP_atomicWriteFile _ hstart

/-! ## Without failures -/

theorem exec_openTmp (fs : Fs) (tmp : CStr) :
    (openTmp tmp).exec faultless fs = (true, Function.update fs tmp (some ⟨[], false⟩)) := by
  by_cases h : fs tmp = none
  · simp [openTmp, openExcl, bind, Prog.bind, Prog.exec, faultless, h, pure]
  · simp [openTmp, openExcl, unlink, bind, Prog.bind, Prog.exec, faultless, h, pure]

theorem exec_mkdirs (fs : Fs) (dirs : List CStr) :
    (mkdirs dirs).exec faultless fs = (.ok (), fs) := by
  induction dirs with
  | nil => rfl
  | cons dir dirs ih => simpa [mkdirs, mkdir, bind, Prog.bind, Prog.exec, faultless] using ih

/-- Without failures the file is replaced and the temporary file is gone. -/
theorem exec_atomicWriteFile (hfits : (pathJoin pathSize path (.lit ".tmp")).isSome) (fs : Fs) :
    (atomicWriteFile path text).exec faultless fs =
      (.ok (), Function.update (Function.update fs path (some ⟨text.val, true⟩))
        (tmpPath path) none) := by
  obtain ⟨tmp, hjoin⟩ := Option.isSome_iff_exists.mp hfits
  rw [atomicWriteFile, hjoin, tmpPath, (pathJoin_eq_some.mp hjoin).2]
  simp only [Prog.exec_bind, exec_openTmp]
  simp [writeSync, write, fsync, close, rename, bind, Prog.bind, Prog.exec, faultless, pure]
  funext p
  by_cases hp : p = tmp
  · simp [hp]
  · by_cases hp' : p = path <;> simp [hp, hp', Function.update_apply]

end

end Daemon
