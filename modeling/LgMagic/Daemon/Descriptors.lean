import LgMagic.Daemon.Grab
import LgMagic.Lib.FdLog

/-!
# Descriptors across rescans

Who owns the descriptors that the daemon opens for its remotes. Here a rescan keeps a log of what it
opens and closes, and the kernel may give out a number again. `remote_free` resets the descriptors of
the input nodes but not those of the virtual devices, which it gets by value: when the keyboard of a
new remote cannot be opened it runs twice, and closes both virtual devices twice.

* `FdInputs`, `RemoteFds`: what a rescan finds, the descriptors of a remote;
* `remoteFree`, `remoteOpenLogged`, `rescanLogged`: the rescan with its log;
* `looks_rescanLogged`: it has the remotes of `daemonDevicesRescan`;
* `Accounted`: every descriptor is closed once or owned by one remote;
* `accounted_run_iff`: the runs in which that holds.
-/

namespace Daemon

open Evdev Pairing FdLog

/-! ## The rescan with its log -/

/-- What becomes of `uinput_create`. -/
inductive Created where
  /-- The node of uinput cannot be opened. -/
  | noNode
  /-- The device cannot be set up, and the node is closed again. -/
  | refused
  | made
  deriving DecidableEq

/-- What a rescan finds, and the numbers that the kernel gives out. -/
structure FdInputs where
  inputs : Inputs
  kernel : Alloc ℕ
  kbdUinput : CStr → Created
  mouseUinput : CStr → Created

/-- The descriptors in a `struct daemon_remote`. -/
structure RemoteFds where
  kbd : Option ℕ
  imu : Option ℕ
  kbdUinput : Option ℕ
  mouseUinput : Option ℕ

/-- The descriptors that are set, in the order in which `remote_free` closes them. -/
def RemoteFds.toList (r : RemoteFds) : List ℕ :=
  r.kbd.toList ++ r.imu.toList ++ r.kbdUinput.toList ++ r.mouseUinput.toList

/-- The descriptors of a remote. -/
def DaemonRemote.all (r : DaemonRemote) : RemoteFds := ⟨r.kbd, r.imu, r.kbdUinput, r.mouseUinput⟩

/-- `remote_free`: `evdev_close` resets its descriptor, `uinput_close` does not. -/
def remoteFree (log : FdLog ℕ) (r : RemoteFds) : FdLog ℕ × RemoteFds :=
  (closeAll log r.toList, { r with kbd := none, imu := none })

/-- `uinput_create` -/
def uinputCreate (k : Alloc ℕ) (log : FdLog ℕ) : Created → FdLog ℕ × Option ℕ
  | .noNode => (log, none)
  | .refused => (closeAll (openFd k log).1 [(openFd k log).2], none)
  | .made => ((openFd k log).1, some (openFd k log).2)

/-- `remote_uinput_open`. Where it fails nothing is open, and the descriptors are reset. -/
def remoteUinputOpenLogged (dd : DaemonDevices) (io : FdInputs) (log : FdLog ℕ) (identity : CStr) :
    FdLog ℕ × Option (Option ℕ × Option ℕ) :=
  if dd.noUinput then (log, some (none, none))
  else
    match uinputCreate io.kernel log (io.kbdUinput identity) with
    | (log, none) => (log, none)
    | (log, some kbd) =>
      match uinputCreate io.kernel log (io.mouseUinput identity) with
      | (log, none) => (closeAll log [kbd], none)
      | (log, some mouse) => (log, some (some kbd, some mouse))

/-- The IMU of a remote. -/
def imuOpenLogged (io : FdInputs) (log : FdLog ℕ) (imuPath : CStr) :
    FdLog ℕ × Option ℕ × CStr :=
  if imuPath = .empty then (log, none, imuPath)
  else
    match io.inputs.opens imuPath with
    | none => (log, none, .empty)
    | some _ => ((openFd io.kernel log).1, some (openFd io.kernel log).2, imuPath)

/-- `remote_open`. Where it fails it gives the descriptors that `remote_free` leaves in the
structure. Grabs and configurations that fail do not change the descriptors. -/
def remoteOpenLogged (dd : DaemonDevices) (io : FdInputs) (log : FdLog ℕ)
    (identity kbdPath imuPath : CStr) : FdLog ℕ × Except RemoteFds DaemonRemote :=
  match remoteUinputOpenLogged dd io log identity with
  | (log, none) =>
    let (log, r) := remoteFree log ⟨none, none, none, none⟩
    (log, .error r)
  | (log, some (kbdUinput, mouseUinput)) =>
    match io.inputs.opens kbdPath with
    | none =>
      let (log, r) := remoteFree log ⟨none, none, kbdUinput, mouseUinput⟩
      (log, .error r)
    | some _ =>
      let (log, kbd) := openFd io.kernel log
      let (log, imu, imuPath) := imuOpenLogged io log imuPath
      let (dc, pl) := remoteConfigure dd io.inputs identity kbdUinput
      (log, .ok ⟨identity, kbdPath, imuPath, some kbd, imu, kbdUinput, mouseUinput, dc, pl⟩)

/-- The state of the loop that builds the new remotes. -/
structure LoggedRebuild where
  log : FdLog ℕ
  old : List (Option DaemonRemote)
  new : List DaemonRemote

/-- One pair of the loop: a remote that could not be opened is freed again. -/
def rebuildStepLogged (dd : DaemonDevices) (io : FdInputs) (b : LoggedRebuild) (pr : PairedRemote) :
    LoggedRebuild :=
  let identity := identityOf pr.uniq
  match steal identity pr.keyboard.path (imuPathOf pr) b.old with
  | some (r, old) => { b with old := old, new := b.new ++ [r] }
  | none =>
    match remoteOpenLogged dd io b.log identity pr.keyboard.path (imuPathOf pr) with
    | (log, .ok r) => { b with log := log, new := b.new ++ [r] }
    | (log, .error r) => { b with log := (remoteFree log r).1 }

/-- The loop over the pairs. -/
def rebuildLogged (dd : DaemonDevices) (log : FdLog ℕ) (io : FdInputs) (pairs : List PairedRemote) :
    LoggedRebuild :=
  pairs.foldl (rebuildStepLogged dd io) ⟨log, dd.remotes.map some, []⟩

/-- The old remotes that are left are freed. -/
def freeAll (log : FdLog ℕ) (rs : List DaemonRemote) : FdLog ℕ :=
  rs.foldl (fun log r => (remoteFree log r.all).1) log

/-- `daemon_devices_rescan` -/
def rescanLogged (dd : DaemonDevices) (log : FdLog ℕ) (io : FdInputs) : DaemonDevices × FdLog ℕ :=
  let dd := rescanStart dd io.inputs
  match rescanPairs dd io.inputs with
  | .error _ => (dd, log)
  | .ok pairs =>
    let b := rebuildLogged dd log io pairs
    ({ dd with remotes := b.new }, freeAll b.log b.old.reduceOption)

/-! ## The remotes of a rescan -/

/-- What a rescan finds, without the numbers. -/
def FdInputs.seen (io : FdInputs) : Inputs :=
  { io.inputs with
    uinput := fun identity =>
      if io.kbdUinput identity = .made ∧ io.mouseUinput identity = .made then some (0, 1) else none }

/-- A remote up to the numbers of its descriptors. -/
def DaemonRemote.look (r : DaemonRemote) : (CStr × CStr × CStr) × Bool × Bool × Bool × Bool :=
  ((r.identity, r.kbdPath, r.imuPath),
    r.kbd.isSome, r.imu.isSome, r.kbdUinput.isSome, r.mouseUinput.isSome)

section

variable {dd : DaemonDevices} {io : FdInputs} {log : FdLog ℕ} {t : GrabTable ℕ}
  {identity kbdPath imuPath : CStr} {pairs : List PairedRemote}

/-- The log does not change which virtual devices are there. -/
theorem isSome_uinputOpenLogged (dd : DaemonDevices) (io : FdInputs) (log : FdLog ℕ) (identity : CStr) :
    (remoteUinputOpenLogged dd io log identity).2.map (fun u => (u.1.isSome, u.2.isSome)) =
      (remoteUinputOpen dd io.seen identity).map fun u => (u.1.isSome, u.2.isSome) := by
  unfold remoteUinputOpenLogged remoteUinputOpen FdInputs.seen
  cases dd.noUinput with
  | true => rfl
  | false =>
    cases hkbd : io.kbdUinput identity <;> cases hmouse : io.mouseUinput identity <;>
      simp [uinputCreate, hkbd, hmouse]

/-- The log does not change which IMU is there. -/
theorem isSome_imuOpenLogged (io : FdInputs) (log : FdLog ℕ) (t : GrabTable ℕ) (imuPath : CStr) :
    ((imuOpenLogged io log imuPath).2.1.isSome, (imuOpenLogged io log imuPath).2.2) =
      ((imuOpen io.seen t imuPath).2.1.isSome, (imuOpen io.seen t imuPath).2.2) := by
  have hopens : io.seen.opens imuPath = io.inputs.opens imuPath := rfl
  unfold imuOpenLogged imuOpen
  split_ifs
  · rfl
  · rw [hopens]
    cases io.inputs.opens imuPath <;> rfl

/-- The log does not change which remotes are opened. -/
theorem look_remoteOpenLogged (dd : DaemonDevices) (io : FdInputs) (log : FdLog ℕ) (t : GrabTable ℕ)
    (identity kbdPath imuPath : CStr) :
    (remoteOpenLogged dd io log identity kbdPath imuPath).2.toOption.map (·.look) =
      (remoteOpen dd io.seen t identity kbdPath imuPath).2.map (·.look) := by
  have huinput := isSome_uinputOpenLogged dd io log identity
  have hopens : io.seen.opens kbdPath = io.inputs.opens kbdPath := rfl
  -- the branches of the two are decided by the same inputs
  unfold remoteOpenLogged remoteOpen
  cases hu : remoteUinputOpen dd io.seen identity with
  | none =>
    rw [hu, Option.map_none, Option.map_eq_none_iff] at huinput
    obtain ⟨log', hlog⟩ : ∃ log', remoteUinputOpenLogged dd io log identity = (log', none) :=
      ⟨_, Prod.ext rfl huinput⟩
    rw [hlog]
    rfl
  | some u =>
    obtain ⟨u', hu', hsome⟩ := Option.map_eq_some_iff.mp (huinput.trans (congrArg _ hu))
    obtain ⟨log', hlog⟩ : ∃ log', remoteUinputOpenLogged dd io log identity = (log', some u') :=
      ⟨_, Prod.ext rfl hu'⟩
    simp only [Prod.mk.injEq] at hsome
    rw [hlog, hopens]
    cases hkbd : io.inputs.opens kbdPath with
    | none => rfl
    | some d =>
      have himu := isSome_imuOpenLogged io (openFd io.kernel log').1
        ((t.openDev d).1.grab (t.openDev d).2).1 imuPath
      simp only [Prod.mk.injEq] at himu
      simp [Except.toOption, DaemonRemote.look, himu, hsome]

/-- A rescan with its log has the remotes that it has without. -/
theorem looks_rescanLogged (dd : DaemonDevices) (log : FdLog ℕ) (io : FdInputs) (t : GrabTable ℕ) :
    (rescanLogged dd log io).1.remotes.map (·.look) =
      (daemonDevicesRescan dd t io.seen).2.1.remotes.map (·.look) := by
  -- the loops go side by side: the same old remotes, new ones that look the same
  have hloop : ∀ (dd : DaemonDevices) (pairs : List PairedRemote) (b : LoggedRebuild) (c : Rebuild),
      b.old = c.old → b.new.map (·.look) = c.new.map (·.look) →
      (pairs.foldl (rebuildStepLogged dd io) b).new.map (·.look) =
        (pairs.foldl (rebuildStep dd io.seen) c).new.map (·.look) := by
    intro dd pairs
    induction pairs with
    | nil => exact fun b c _ hnew => hnew
    | cons pr pairs ih =>
      intro b c hold hnew
      rw [List.foldl_cons, List.foldl_cons]
      have hopen := look_remoteOpenLogged dd io b.log c.table (identityOf pr.uniq) pr.keyboard.path
        (imuPathOf pr)
      refine ih _ _ ?_ ?_
      all_goals
        unfold rebuildStepLogged rebuildStep
        dsimp only
        rw [hold]
        rcases steal (identityOf pr.uniq) pr.keyboard.path (imuPathOf pr) c.old with _ | ⟨r, old⟩
      · rcases hlogged : remoteOpenLogged dd io b.log (identityOf pr.uniq) pr.keyboard.path
          (imuPathOf pr) with ⟨log', r | r⟩ <;> rfl
      · rfl
      · rcases hlogged : remoteOpenLogged dd io b.log (identityOf pr.uniq) pr.keyboard.path
          (imuPathOf pr) with ⟨log', r | r⟩ <;>
          rcases hopened : remoteOpen dd io.seen c.table (identityOf pr.uniq) pr.keyboard.path
            (imuPathOf pr) with ⟨t', _ | r'⟩ <;>
          simp_all [Except.toOption]
      · simp [hnew]
  have hstart : rescanStart dd io.seen = rescanStart dd io.inputs := rfl
  have hpairs : rescanPairs (rescanStart dd io.inputs) io.seen =
      rescanPairs (rescanStart dd io.inputs) io.inputs := rfl
  unfold rescanLogged daemonDevicesRescan
  rw [hstart]
  dsimp only
  rw [hpairs]
  cases rescanPairs (rescanStart dd io.inputs) io.inputs with
  | error e => rfl
  | ok pairs => exact hloop _ pairs _ _ rfl rfl

end

/-! ## Who owns the descriptors -/

/-- The descriptors of some remotes. -/
def owned (rs : List DaemonRemote) : List ℕ := rs.flatMap fun r => r.all.toList

/-- The daemon and the log of its descriptors. -/
structure FdSys where
  dd : DaemonDevices
  log : FdLog ℕ

/-- The inputs: a rescan, and a slot that is handled. -/
inductive FdInput where
  | rescan (io : FdInputs)
  | handle (idx : ℕ) (io : HandleIo)

/-- What the daemon does on an input. -/
def FdSys.step (s : FdSys) : FdInput → FdSys
  | .rescan io =>
    let (dd, log) := rescanLogged s.dd s.log io
    ⟨dd, log⟩
  | .handle idx io =>
    ⟨(daemonDevicesHandle s.dd idx io).dd, closeAll s.log (handleLost s.dd idx io.read)⟩

/-- A run of inputs. -/
def FdSys.run (s : FdSys) (is : List FdInput) : FdSys := is.foldl FdSys.step s

/-- No descriptor is closed that is not open, and every one that was opened was closed once since,
or just one remote owns it. -/
structure Accounted (s : FdSys) : Prop where
  sound : Sound s.log
  count : ∀ fd, s.log.count (.opened fd) = s.log.count (.closed fd) + (owned s.dd.remotes).count fd
  nodup : (owned s.dd.remotes).Nodup

/-- Where both virtual devices are made for a pair, its keyboard can be opened. -/
def KeyboardOpens (dd : DaemonDevices) (io : FdInputs) (pr : PairedRemote) : Prop :=
  dd.noUinput = false → io.kbdUinput (identityOf pr.uniq) = .made →
    io.mouseUinput (identityOf pr.uniq) = .made → (io.inputs.opens pr.keyboard.path).isSome = true

/-- Where a remote is: its identity and the paths of its nodes. -/
def DaemonRemote.place (r : DaemonRemote) : CStr × CStr × CStr := (r.identity, r.kbdPath, r.imuPath)

/-- Where the remote of a pair is to be. -/
def placeOf (pr : PairedRemote) : CStr × CStr × CStr :=
  (identityOf pr.uniq, pr.keyboard.path, imuPathOf pr)

/-- A pair keeps an old remote, for more of them are at its place than pairs before it, or its
keyboard can be opened if its virtual devices are made. -/
def KeptOrOpens (dd : DaemonDevices) (io : FdInputs) (done : List PairedRemote) (pr : PairedRemote) :
    Prop :=
  (done.map placeOf).count (placeOf pr) < (dd.remotes.map (·.place)).count (placeOf pr) ∨
    KeyboardOpens dd io pr

/-- Each pair that a rescan takes over keeps an old remote, or can open its keyboard. -/
def Meets (s : FdSys) : FdInput → Prop
  | .rescan io => ∀ pairs, rescanPairs s.dd io.inputs = .ok pairs →
      EverySplit (KeptOrOpens s.dd io) pairs
  | .handle .. => True

section

variable {dd : DaemonDevices} {io : FdInputs} {log : FdLog ℕ} {fds : List ℕ}
  {rs : List DaemonRemote} {s : FdSys}

theorem accounted_of_owns (h : Owns s.log (owned s.dd.remotes)) : Accounted s := by
  refine ⟨h.sound, fun fd => ?_, h.nodup⟩
  have hcount : (owned s.dd.remotes).count fd = if fd ∈ openFds s.log then 1 else 0 := by
    rw [← h.perm.count_eq, h.sound.nodup_openFds.count]
  rw [hcount]
  exact h.sound.count_opened fd

/-! ### Opening a remote -/

theorem owns_uinputCreate (h : Owns log fds) (k : Alloc ℕ) (c : Created) :
    Owns (uinputCreate k log c).1 ((uinputCreate k log c).2.toList ++ fds) ∧
      ((uinputCreate k log c).2.isSome = true ↔ c = .made) := by
  cases c with
  | noNode => exact ⟨h, by simp [uinputCreate]⟩
  | refused => exact ⟨Owns.closeAll (h.openFd k), by simp [uinputCreate]⟩
  | made => exact ⟨h.openFd k, by simp [uinputCreate]⟩

/-- The virtual devices of a remote: both, or none. -/
theorem owns_uinputOpenLogged (dd : DaemonDevices) (io : FdInputs) (identity : CStr)
    (h : Owns log fds) :
    (∃ log', remoteUinputOpenLogged dd io log identity = (log', none) ∧ Owns log' fds ∧
      dd.noUinput = false ∧
      ¬ (io.kbdUinput identity = .made ∧ io.mouseUinput identity = .made)) ∨
    (remoteUinputOpenLogged dd io log identity = (log, some (none, none)) ∧ dd.noUinput = true) ∨
    ∃ log' kbd mouse, remoteUinputOpenLogged dd io log identity =
      (log', some (some kbd, some mouse)) ∧ Owns log' (kbd :: mouse :: fds) ∧ dd.noUinput = false ∧
      io.kbdUinput identity = .made ∧ io.mouseUinput identity = .made := by
  unfold remoteUinputOpenLogged
  cases dd.noUinput with
  | true => exact .inr (.inl ⟨rfl, rfl⟩)
  | false =>
    obtain ⟨hkbd, hkbdMade⟩ := owns_uinputCreate h io.kernel (io.kbdUinput identity)
    rcases hk : uinputCreate io.kernel log (io.kbdUinput identity) with ⟨log₁, _ | kbd⟩
    · rw [hk] at hkbd hkbdMade
      refine .inl ⟨log₁, rfl, hkbd, rfl, fun hmade => ?_⟩
      cases hkbdMade.mpr hmade.1
    · rw [hk] at hkbd hkbdMade
      obtain ⟨hmouse, hmouseMade⟩ := owns_uinputCreate hkbd io.kernel (io.mouseUinput identity)
      dsimp only at hmouse hmouseMade ⊢
      rcases hm : uinputCreate io.kernel log₁ (io.mouseUinput identity) with ⟨log₂, _ | mouse⟩
      · -- the keyboard is closed again
        rw [hm] at hmouse hmouseMade
        refine .inl ⟨_, rfl, Owns.closeAll hmouse, rfl, fun hmade => ?_⟩
        cases hmouseMade.mpr hmade.2
      · rw [hm] at hmouse hmouseMade
        refine .inr (.inr ⟨log₂, kbd, mouse, rfl, ?_, rfl, hkbdMade.mp rfl, hmouseMade.mp rfl⟩)
        exact hmouse.of_perm (.swap _ _ _)

theorem owns_imuOpenLogged (h : Owns log fds) (io : FdInputs) (imuPath : CStr) :
    Owns (imuOpenLogged io log imuPath).1 ((imuOpenLogged io log imuPath).2.1.toList ++ fds) := by
  unfold imuOpenLogged
  split_ifs
  · exact h
  · cases io.inputs.opens imuPath with
    | none => exact h
    | some d => exact h.openFd io.kernel

/-- A remote whose keyboard can be opened owns its nodes too. -/
theorem owns_nodes {kbdUinput mouseUinput : Option ℕ} {identity kbdPath : CStr} {d : ℕ} {log' : FdLog ℕ}
    (dd : DaemonDevices) (imuPath : CStr)
    (hu : remoteUinputOpenLogged dd io log identity = (log', some (kbdUinput, mouseUinput)))
    (h : Owns log' (kbdUinput.toList ++ mouseUinput.toList ++ fds))
    (hopens : io.inputs.opens kbdPath = some d) :
    ∃ log'' r, remoteOpenLogged dd io log identity kbdPath imuPath = (log'', .ok r) ∧
      Owns log'' (r.all.toList ++ fds) := by
  have hnodes := owns_imuOpenLogged (h.openFd io.kernel) io imuPath
  have hopen : ∃ r, remoteOpenLogged dd io log identity kbdPath imuPath =
      ((imuOpenLogged io (openFd io.kernel log').1 imuPath).1, .ok r) ∧
        r.all = ⟨some (openFd io.kernel log').2, (imuOpenLogged io (openFd io.kernel log').1 imuPath).2.1,
          kbdUinput, mouseUinput⟩ := by
    unfold remoteOpenLogged
    rw [hu, hopens]
    exact ⟨_, rfl, rfl⟩
  obtain ⟨r, hr, hall⟩ := hopen
  refine ⟨_, r, hr, hnodes.of_perm ?_⟩
  rw [hall]
  simp [RemoteFds.toList]

/-- A remote that is opened owns its descriptors. One that is not owns none; but where both virtual
devices were made, their numbers are still there. -/
theorem owns_remoteOpenLogged (dd : DaemonDevices) (io : FdInputs) (pr : PairedRemote)
    (h : Owns log fds) :
    (∃ log' r, remoteOpenLogged dd io log (identityOf pr.uniq) pr.keyboard.path (imuPathOf pr) =
      (log', .ok r) ∧ KeyboardOpens dd io pr ∧ Owns log' (r.all.toList ++ fds)) ∨
    (∃ log' r, remoteOpenLogged dd io log (identityOf pr.uniq) pr.keyboard.path (imuPathOf pr) =
      (log', .error r) ∧ KeyboardOpens dd io pr ∧ Owns log' fds ∧ r.toList = []) ∨
    ∃ log' r fd, remoteOpenLogged dd io log (identityOf pr.uniq) pr.keyboard.path (imuPathOf pr) =
      (log', .error r) ∧ ¬ KeyboardOpens dd io pr ∧ Owns log' fds ∧ fd ∈ r.toList ∧ fd ∉ fds := by
  -- a remote without descriptors frees none
  have hnil : ∀ {log' : FdLog ℕ}, Owns log' fds →
      Owns (remoteFree log' ⟨none, none, none, none⟩).1 fds := fun h' =>
    Owns.closeAll (show Owns _ ([] ++ fds) from h')
  have huinput := owns_uinputOpenLogged dd io (identityOf pr.uniq) h
  cases hopens : io.inputs.opens pr.keyboard.path with
  | some d =>
    have hkbd : KeyboardOpens dd io pr := fun _ _ _ => by rw [hopens]; rfl
    obtain ⟨log₁, heq, h₁, -⟩ | ⟨heq, -⟩ | ⟨log₁, kbd, mouse, heq, h₁, -⟩ := huinput
    · refine .inr (.inl ⟨_, ⟨none, none, none, none⟩, ?_, hkbd, hnil h₁, rfl⟩)
      rw [remoteOpenLogged, heq]
      rfl
    · obtain ⟨log', r, hr, howns⟩ := owns_nodes dd (imuPathOf pr) heq h hopens
      exact .inl ⟨log', r, hr, hkbd, howns⟩
    · obtain ⟨log', r, hr, howns⟩ := owns_nodes dd (imuPathOf pr) heq h₁ hopens
      exact .inl ⟨log', r, hr, hkbd, howns⟩
  -- the node cannot be opened: the descriptors of the virtual devices are closed, and stay in the
  -- record
  | none =>
    obtain ⟨log₁, heq, h₁, hno, hmade⟩ | ⟨heq, hno⟩ | ⟨log₁, kbd, mouse, heq, h₁, hno, hk, hm⟩ := huinput
    · refine .inr (.inl ⟨_, ⟨none, none, none, none⟩, ?_,
        fun _ hk hm => absurd ⟨hk, hm⟩ hmade, hnil h₁, rfl⟩)
      rw [remoteOpenLogged, heq]
      rfl
    · refine .inr (.inl ⟨_, ⟨none, none, none, none⟩, ?_, fun hyes => ?_, hnil h, rfl⟩)
      · rw [remoteOpenLogged, heq, hopens]
        rfl
      · simp [hno] at hyes
    · have hfd : kbd ∉ fds := fun hmem => (List.nodup_cons.mp h₁.nodup).1 (List.mem_cons_of_mem _ hmem)
      have hclosed : Owns (remoteFree log₁ ⟨none, none, some kbd, some mouse⟩).1 fds :=
        Owns.closeAll (show Owns _ ([kbd, mouse] ++ fds) from h₁)
      refine .inr (.inr ⟨_, ⟨none, none, some kbd, some mouse⟩, kbd, ?_, ?_, hclosed, ?_, hfd⟩)
      · rw [remoteOpenLogged, heq, hopens]
        rfl
      · simp [KeyboardOpens, hno, hk, hm, hopens]
      · simp [RemoteFds.toList]

/-! ### Logs grow -/

theorem prefix_remoteFree (log : FdLog ℕ) (r : RemoteFds) : log <+: (remoteFree log r).1 :=
  prefix_closeAll log _

theorem prefix_uinputCreate (k : Alloc ℕ) (log : FdLog ℕ) (c : Created) :
    log <+: (uinputCreate k log c).1 := by
  cases c with
  | noNode => exact List.prefix_rfl
  | refused => exact (prefix_openFd k log).trans (prefix_closeAll _ _)
  | made => exact prefix_openFd k log

theorem prefix_uinputOpenLogged (dd : DaemonDevices) (io : FdInputs) (log : FdLog ℕ)
    (identity : CStr) : log <+: (remoteUinputOpenLogged dd io log identity).1 := by
  have hkbd := prefix_uinputCreate io.kernel log (io.kbdUinput identity)
  unfold remoteUinputOpenLogged
  split_ifs
  · exact List.prefix_rfl
  · generalize uinputCreate io.kernel log (io.kbdUinput identity) = made at hkbd ⊢
    rcases made with ⟨log₁, _ | kbd⟩
    · exact hkbd
    · have hmouse := prefix_uinputCreate io.kernel log₁ (io.mouseUinput identity)
      refine List.IsPrefix.trans hkbd ?_
      dsimp only
      generalize uinputCreate io.kernel log₁ (io.mouseUinput identity) = made at hmouse ⊢
      rcases made with ⟨log₂, _ | mouse⟩
      · exact List.IsPrefix.trans hmouse (prefix_closeAll _ _)
      · exact hmouse

theorem prefix_imuOpenLogged (io : FdInputs) (log : FdLog ℕ) (imuPath : CStr) :
    log <+: (imuOpenLogged io log imuPath).1 := by
  unfold imuOpenLogged
  split_ifs
  · exact List.prefix_rfl
  · cases io.inputs.opens imuPath with
    | none => exact List.prefix_rfl
    | some d => exact prefix_openFd io.kernel log

theorem prefix_remoteOpenLogged (dd : DaemonDevices) (io : FdInputs) (log : FdLog ℕ)
    (identity kbdPath imuPath : CStr) :
    log <+: (remoteOpenLogged dd io log identity kbdPath imuPath).1 := by
  have huinput := prefix_uinputOpenLogged dd io log identity
  unfold remoteOpenLogged
  generalize remoteUinputOpenLogged dd io log identity = u at huinput ⊢
  rcases u with ⟨log₁, _ | ⟨kbdUinput, mouseUinput⟩⟩
  · exact huinput.trans (prefix_remoteFree _ _)
  · cases io.inputs.opens kbdPath with
    | none => exact huinput.trans (prefix_remoteFree _ _)
    | some d => exact (huinput.trans (prefix_openFd _ _)).trans (prefix_imuOpenLogged _ _ _)

theorem prefix_rebuildStepLogged (dd : DaemonDevices) (io : FdInputs) (b : LoggedRebuild)
    (pr : PairedRemote) : b.log <+: (rebuildStepLogged dd io b pr).log := by
  have hopen := prefix_remoteOpenLogged dd io b.log (identityOf pr.uniq) pr.keyboard.path (imuPathOf pr)
  unfold rebuildStepLogged
  dsimp only
  rcases steal (identityOf pr.uniq) pr.keyboard.path (imuPathOf pr) b.old with _ | ⟨r, old⟩
  · generalize remoteOpenLogged dd io b.log (identityOf pr.uniq) pr.keyboard.path (imuPathOf pr) = o
      at hopen ⊢
    rcases o with ⟨log₁, r | r⟩
    · exact List.IsPrefix.trans hopen (prefix_remoteFree _ _)
    · exact hopen
  · exact List.prefix_rfl

/-- The old remotes that are left are closed in turn. -/
theorem freeAll_eq (log : FdLog ℕ) (rs : List DaemonRemote) : freeAll log rs = closeAll log (owned rs) := by
  induction rs generalizing log with
  | nil => simp [freeAll, owned, closeAll]
  | cons r rs ih =>
    have hcons : owned (r :: rs) = r.all.toList ++ owned rs := rfl
    rw [hcons, closeAll_append, ← ih]
    rfl

/-! ### The loop of a rescan -/

theorem isAt_iff {e : DaemonRemote} {pr : PairedRemote} :
    e.isAt (identityOf pr.uniq) pr.keyboard.path (imuPathOf pr) = true ↔ e.place = placeOf pr := by
  simp [DaemonRemote.isAt, DaemonRemote.place, placeOf, and_assoc]

/-- The loop after some of the pairs: the remotes that are open own the descriptors, and an old
remote was kept for every pair that found one. -/
structure LoggedRebuilding (rs : List DaemonRemote) (done : List PairedRemote) (b : LoggedRebuild) :
    Prop where
  owns : Owns b.log (owned (b.old.reduceOption ++ b.new))
  places : ∀ p, (b.old.reduceOption.map (·.place)).count p =
    (rs.map (·.place)).count p - (done.map placeOf).count p

theorem owned_append (rs rs' : List DaemonRemote) : owned (rs ++ rs') = owned rs ++ owned rs' :=
  List.flatMap_append

theorem owned_perm {rs rs' : List DaemonRemote} (h : rs.Perm rs') : (owned rs).Perm (owned rs') :=
  h.flatMap_right _

theorem count_placeOf_concat (done : List PairedRemote) (pr : PairedRemote)
    (p : CStr × CStr × CStr) : ((done ++ [pr]).map placeOf).count p =
      (done.map placeOf).count p + if placeOf pr = p then 1 else 0 := by
  rw [List.map_append, List.count_append, List.map_singleton, List.count_singleton]
  simp only [beq_iff_eq]

section

variable {rs : List DaemonRemote} {done : List PairedRemote} {b : LoggedRebuild} {pr : PairedRemote}

/-- An old remote at the pair is one that no earlier pair took. -/
theorem LoggedRebuilding.count_lt (h : LoggedRebuilding rs done b) {e : DaemonRemote}
    (he : some e ∈ b.old) (hplace : e.place = placeOf pr) :
    (done.map placeOf).count (placeOf pr) < (rs.map (·.place)).count (placeOf pr) := by
  have hpos : 0 < (b.old.reduceOption.map (·.place)).count (placeOf pr) :=
    List.count_pos_iff.mpr (List.mem_map.mpr ⟨e, List.reduceOption_mem_iff.mpr he, hplace⟩)
  have := h.places (placeOf pr)
  omega

/-- An old remote moves to the new ones. -/
theorem LoggedRebuilding.keep (h : LoggedRebuilding rs done b) {l₁ l₂ : List (Option DaemonRemote)}
    {e : DaemonRemote} (hold : b.old = l₁ ++ some e :: l₂) (hplace : e.place = placeOf pr) :
    LoggedRebuilding rs (done ++ [pr]) ⟨b.log, l₁ ++ none :: l₂, b.new ++ [e]⟩ := by
  have hbefore : b.old.reduceOption = l₁.reduceOption ++ e :: l₂.reduceOption := by
    simp [hold, List.reduceOption_append, List.reduceOption_cons_of_some]
  have hafter : (l₁ ++ none :: l₂).reduceOption = l₁.reduceOption ++ l₂.reduceOption := by
    simp [List.reduceOption_append, List.reduceOption_cons_of_none]
  refine ⟨h.owns.of_perm (owned_perm ?_), fun p => ?_⟩
  · rw [hbefore, hafter]
    simp only [List.append_assoc, List.cons_append]
    refine List.Perm.append_left _ ?_
    simpa using (List.perm_append_singleton e (l₂.reduceOption ++ b.new)).symm
  · have hp := h.places p
    rw [hbefore] at hp
    rw [hafter, count_placeOf_concat]
    simp only [List.map_append, List.map_cons, List.count_append, List.count_cons, hplace,
      beq_iff_eq] at hp ⊢
    split_ifs at hp ⊢ <;> omega

/-- Without an old remote at the pair the earlier pairs took them all, and there stay none. -/
theorem LoggedRebuilding.places_of_none (h : LoggedRebuilding rs done b)
    (hnot : ∀ e, some e ∈ b.old → e.place ≠ placeOf pr) :
    (rs.map (·.place)).count (placeOf pr) ≤ (done.map placeOf).count (placeOf pr) ∧
      ∀ p, (b.old.reduceOption.map (·.place)).count p =
        (rs.map (·.place)).count p - ((done ++ [pr]).map placeOf).count p := by
  have hzero : (b.old.reduceOption.map (·.place)).count (placeOf pr) = 0 := by
    refine List.count_eq_zero.mpr fun hmem => ?_
    obtain ⟨e, he, hplace⟩ := List.mem_map.mp hmem
    exact hnot e (List.reduceOption_mem_iff.mp he) hplace
  have hhere := h.places (placeOf pr)
  refine ⟨by omega, fun p => ?_⟩
  have hp := h.places p
  rw [count_placeOf_concat]
  split_ifs with heq
  · subst heq
    omega
  · omega

end

/-- One pair of the loop. -/
theorem loggedRebuilding_step {done : List PairedRemote} {b : LoggedRebuild} (pr : PairedRemote)
    (h : LoggedRebuilding dd.remotes done b) :
    (KeptOrOpens dd io done pr →
      LoggedRebuilding dd.remotes (done ++ [pr]) (rebuildStepLogged dd io b pr)) ∧
    (¬ KeptOrOpens dd io done pr → ¬ Sound (rebuildStepLogged dd io b pr).log) := by
  unfold KeptOrOpens
  obtain ⟨l₁, e, l₂, hold, he, hsteal⟩ | ⟨hnot, hsteal⟩ :=
    steal_cases (identityOf pr.uniq) pr.keyboard.path (imuPathOf pr) b.old
  · -- an old remote is kept
    have hplace := isAt_iff.mp he
    have hstep : rebuildStepLogged dd io b pr = ⟨b.log, l₁ ++ none :: l₂, b.new ++ [e]⟩ := by
      simp [rebuildStepLogged, hsteal]
    refine ⟨fun _ => hstep ▸ h.keep hold hplace, fun hopens => ?_⟩
    exact absurd (.inl (h.count_lt (by simp [hold]) hplace)) hopens
  · -- a remote is opened
    have hno : ∀ e, some e ∈ b.old → e.place ≠ placeOf pr := fun e he hplace => by
      simpa [hnot e he] using isAt_iff.mpr hplace
    obtain ⟨hnone, hplaces⟩ := h.places_of_none hno
    obtain ⟨log', r, hopen, hkbd, howns⟩ | ⟨log', r, hopen, hkbd, howns, hnil⟩ |
      ⟨log', r, fd, hopen, hkbd, howns, hmem, hfd⟩ := owns_remoteOpenLogged dd io pr h.owns
    · have hstep : rebuildStepLogged dd io b pr = ⟨log', b.old, b.new ++ [r]⟩ := by
        simp [rebuildStepLogged, hsteal, hopen]
      refine ⟨fun _ => ?_, fun hopens => absurd (.inr hkbd) hopens⟩
      rw [hstep]
      -- the descriptors of the new remote stand before those of the others
      have hone : owned [r] = r.all.toList := by simp [owned]
      refine ⟨howns.of_perm ?_, hplaces⟩
      rw [← List.append_assoc, owned_append _ [r], hone]
      exact List.perm_append_comm
    · -- the remote could not be opened and holds nothing
      have hstep : rebuildStepLogged dd io b pr = ⟨log', b.old, b.new⟩ := by
        simp [rebuildStepLogged, hsteal, hopen, remoteFree, hnil, closeAll]
      refine ⟨fun _ => ?_, fun hopens => absurd (.inr hkbd) hopens⟩
      rw [hstep]
      exact ⟨howns, hplaces⟩
    · -- the descriptors of the remote are closed twice
      have hstep : (rebuildStepLogged dd io b pr).log = closeAll log' r.toList := by
        simp [rebuildStepLogged, hsteal, hopen, remoteFree]
      refine ⟨fun hopens => ?_, fun _ => ?_⟩
      · rcases hopens with hlt | hopens
        · exact absurd hlt hnone.not_gt
        · exact absurd hopens hkbd
      · rw [hstep]
        exact not_sound_closeAll (fun hopen => hfd (howns.perm.mem_iff.mp hopen)) hmem

/-! ### Runs -/

/-- The daemon at its start. -/
def FdSys.start (dd : DaemonDevices) : FdSys := ⟨{ dd with remotes := [] }, []⟩

theorem all_handleSide (r : DaemonRemote) (side : Side) (read : ReadResult) (j : ℕ) :
    r.all.toList.Perm ((if closes (some (.dev side j)) read then (r.fd side).toList else []) ++
      (handleSide r side read).remote.all.toList) := by
  have huinput : (handleSide r side read).remote.kbdUinput = r.kbdUinput ∧
      (handleSide r side read).remote.mouseUinput = r.mouseUinput := by
    rcases read with f | _ | _ <;> cases side <;> exact ⟨rfl, rfl⟩
  have hall : ∀ r : DaemonRemote,
      r.all.toList = r.fds ++ (r.kbdUinput.toList ++ r.mouseUinput.toList) := by
    intro r
    simp [RemoteFds.toList, DaemonRemote.all, DaemonRemote.fds]
  rw [hall, hall, huinput.1, huinput.2, ← List.append_assoc _ (DaemonRemote.fds _)]
  exact (fds_handleSide r side read j).1.append_right _

/-- A slot that is handled loses a device, which is closed. -/
theorem owns_handle (h : Owns s.log (owned s.dd.remotes)) (idx : ℕ) (io : HandleIo) :
    Owns (s.step (.handle idx io)).log (owned (s.step (.handle idx io)).dd.remotes) := by
  have hnone : Owns (closeAll s.log []) (owned s.dd.remotes) :=
    Owns.closeAll (show Owns _ ([] ++ owned s.dd.remotes) from h)
  dsimp only [FdSys.step]
  unfold daemonDevicesHandle handleLost
  cases handleSlot s.dd idx with
  | none => exact hnone
  | some dev =>
    cases dev with
    | inotify =>
      dsimp only
      rwa [drainInotify_remotes]
    | dev side k =>
      cases hr : s.dd.remotes[k]? with
      | none => simpa [handleRemote, hr] using hnone
      | some r =>
        obtain ⟨hk, rfl⟩ := List.getElem?_eq_some_iff.mp hr
        simp only [handleRemote_remotes hr, hr, Option.bind_some]
        refine Owns.closeAll (h.of_perm ?_)
        -- the descriptors of the slot come to the front, the others keep their order
        have hsplit : s.dd.remotes =
            s.dd.remotes.take k ++ s.dd.remotes[k] :: s.dd.remotes.drop (k + 1) := by
          rw [List.getElem_cons_drop, List.take_append_drop]
        have hmid := all_handleSide s.dd.remotes[k] side io.read k
        rw [List.set_eq_take_append_cons_drop, if_pos hk]
        conv_lhs => rw [hsplit]
        simp only [owned, List.flatMap_append, List.flatMap_cons]
        refine ((hmid.append_right _).append_left _).trans ?_
        rw [List.append_assoc]
        exact List.perm_append_comm_assoc _ _ _

/-- One input. -/
theorem owns_step (h : Owns s.log (owned s.dd.remotes)) (i : FdInput) :
    (Meets s i → Owns (s.step i).log (owned (s.step i).dd.remotes)) ∧
    (¬ Meets s i → ¬ Sound (s.step i).log) := by
  cases i with
  | handle idx io => exact ⟨fun _ => owns_handle h idx io, fun hnot => absurd trivial hnot⟩
  | rescan io =>
    have hpairs : rescanPairs (rescanStart s.dd io.inputs) io.inputs = rescanPairs s.dd io.inputs := rfl
    unfold FdSys.step rescanLogged Meets
    dsimp only
    rw [hpairs]
    cases rescanPairs s.dd io.inputs with
    | error e => exact ⟨fun _ => h, fun hnot => absurd (fun pairs hp => by cases hp) hnot⟩
    | ok pairs =>
      -- before the first pair every remote is an old one
      have hinit : LoggedRebuilding s.dd.remotes [] ⟨s.log, s.dd.remotes.map some, []⟩ := by
        refine ⟨?_, fun p => ?_⟩ <;> simp [List.reduceOption, h]
      have hstep : ∀ done pr b, LoggedRebuilding s.dd.remotes done b →
          (KeptOrOpens s.dd io done pr → LoggedRebuilding s.dd.remotes (done ++ [pr])
            (rebuildStepLogged (rescanStart s.dd io.inputs) io b pr)) ∧
          (¬ KeptOrOpens s.dd io done pr →
            ¬ Sound (rebuildStepLogged (rescanStart s.dd io.inputs) io b pr).log) :=
        fun done pr b hb => @loggedRebuilding_step (rescanStart s.dd io.inputs) io done b pr hb
      -- what is wrong with a log stays wrong
      have hbroken : ∀ (b : LoggedRebuild) pr, ¬ Sound b.log →
          ¬ Sound (rebuildStepLogged (rescanStart s.dd io.inputs) io b pr).log :=
        fun b pr hb hsound => hb (hsound.of_prefix (prefix_rebuildStepLogged _ io b pr))
      have hloop := foldl_cases hinit hstep hbroken pairs
      constructor
      -- what is left of the old remotes is closed at the end
      · intro hmeets
        have hend := hloop.1 (hmeets pairs rfl)
        dsimp only
        rw [freeAll_eq]
        refine Owns.closeAll ?_
        rw [← owned_append]
        exact hend.owns
      · intro hnot hsound
        dsimp only at hsound
        rw [freeAll_eq] at hsound
        refine hloop.2 (fun hsplit => hnot fun pairs' hp => ?_) (hsound.of_prefix (prefix_closeAll _ _))
        cases hp
        exact hsplit

theorem prefix_step (s : FdSys) (i : FdInput) : s.log <+: (s.step i).log := by
  cases i with
  | handle idx io => exact prefix_closeAll _ _
  | rescan io =>
    dsimp only [FdSys.step]
    unfold rescanLogged
    dsimp only
    cases rescanPairs (rescanStart s.dd io.inputs) io.inputs with
    | error e => exact List.prefix_rfl
    | ok pairs =>
      have hloop : ∀ b : LoggedRebuild,
          b.log <+: (pairs.foldl (rebuildStepLogged (rescanStart s.dd io.inputs) io) b).log := by
        induction pairs with
        | nil => exact fun b => List.prefix_rfl
        | cons pr pairs ih => exact fun b => (prefix_rebuildStepLogged _ io b pr).trans (ih _)
      dsimp only
      rw [freeAll_eq]
      exact (hloop ⟨s.log, s.dd.remotes.map some, []⟩).trans (prefix_closeAll _ _)

/-- In a run from the start every descriptor is accounted for if and only if every input meets the
condition. -/
theorem accounted_run_iff (dd : DaemonDevices) (is : List FdInput) :
    Accounted ((FdSys.start dd).run is) ↔
      EverySplit (fun before i => Meets ((FdSys.start dd).run before) i) is := by
  have hstep : ∀ (before : List FdInput) i (s : FdSys),
      s = (FdSys.start dd).run before ∧ Owns s.log (owned s.dd.remotes) →
      (Meets ((FdSys.start dd).run before) i →
        s.step i = (FdSys.start dd).run (before ++ [i]) ∧
          Owns (s.step i).log (owned (s.step i).dd.remotes)) ∧
      (¬ Meets ((FdSys.start dd).run before) i → ¬ Sound (s.step i).log) := by
    rintro before i s ⟨rfl, howns⟩
    obtain ⟨hmeets, hnot⟩ := owns_step howns i
    refine ⟨fun h => ⟨?_, hmeets h⟩, hnot⟩
    simp [FdSys.run]
  have hbroken : ∀ (s : FdSys) i, ¬ Sound s.log → ¬ Sound (s.step i).log :=
    fun s i hs hsound => hs (hsound.of_prefix (prefix_step s i))
  obtain ⟨hgood, hbad⟩ := foldl_cases ⟨rfl, owns_nil⟩ hstep hbroken is
  constructor
  · intro haccounted
    by_contra hnot
    exact hbad hnot haccounted.sound
  · intro hmeets
    exact accounted_of_owns (hgood hmeets).2

end

/-- A remote whose virtual devices are made and whose keyboard cannot be opened. -/
def keyboardGone : FdInputs where
  inputs := { remoteInputs with opens := fun _ => none }
  kernel := .lowest
  kbdUinput _ := .made
  mouseUinput _ := .made

/-- Both virtual devices are closed twice. -/
theorem keyboardGone_not_accounted :
    ¬ ∀ (dd : DaemonDevices) (is : List FdInput), Accounted ((FdSys.start dd).run is) := by
  intro h
  have hlog : ((FdSys.start startDev.dd).run [.rescan keyboardGone]).log =
      [.opened 0, .opened 1, .closed 0, .closed 1, .closed 0, .closed 1] := by decide +kernel
  have hsound := (h startDev.dd [.rescan keyboardGone]).sound
  rw [hlog] at hsound
  have hallowed := hsound [.opened 0, .opened 1, .closed 0, .closed 1] (.closed 0) ⟨[.closed 1], rfl⟩
  revert hallowed
  simp [Allowed, openFds, after]

end Daemon
