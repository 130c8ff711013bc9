import LgMagic.Daemon.Rescan
import Mathlib.Data.List.ReduceOption

/-!
# Exclusive keyboards

Whether the daemon has the keyboards of its remotes for itself. A rescan keeps the devices of the
remotes grabbed, except where it opens a keyboard that an old remote has open: the old remote is
closed after that only, so the new one cannot grab the device and is left without it.

* `Grabbed`: the keyboards of the remotes hold their devices, and nobody else holds one;
* `Rebuilding`, `rebuilding_step`: the invariant of the loop of a rescan;
* `NoOverlap`: no keyboard is opened that an old remote has open;
* `inductive_grabbed`, `holds_of_noOverlap`: in the runs without such a rescan every keyboard is grabbed.
-/

namespace Daemon

open Evdev Pairing GrabTable

/-- The keyboards of some remotes that are open. -/
def kbdFds (rs : List DaemonRemote) : List ℕ := rs.flatMap (·.kbd.toList)

/-- All files of some remotes that are open. -/
def allFds (rs : List DaemonRemote) : List ℕ := rs.flatMap (·.fds)

/-- The keyboards of some remotes hold their devices, and no other file holds one. -/
def Grabbed (rs : List DaemonRemote) (t : GrabTable ℕ) : Prop := Exclusive (kbdFds rs) (allFds rs) t

/-- Different nodes that may be taken over are different devices. -/
def DistinctKeyboards (dd : DaemonDevices) (w : Inputs) : Prop :=
  ∀ entries, scanInputs w.fs dd.kbdOverride = some entries →
    (entries.filter (takesOver dd)).Pairwise fun a b =>
      a.path ≠ b.path ∧ ∀ d, w.opens a.path = some d → w.opens b.path ≠ some d

/-- A keyboard that is opened anew is not a device that an old remote has open. -/
def NoOverlap (s : DevSys) : DevInput → Prop
  | .rescan w => ∀ pairs, rescanPairs s.dd w = .ok pairs → ∀ pr ∈ pairs,
      (∀ e ∈ s.dd.remotes,
        e.isAt (identityOf pr.uniq) pr.keyboard.path (imuPathOf pr) = false) →
      (remoteUinputOpen s.dd w (identityOf pr.uniq)).isSome = true →
      ∀ d, w.opens pr.keyboard.path = some d →
        ∀ e ∈ s.dd.remotes, ∀ fd ∈ e.kbd, s.table.dev fd ≠ some d
  | .handle .. => True

section

variable {rs rs' : List DaemonRemote} {t : GrabTable ℕ} {fd : ℕ}

theorem mem_kbdFds : fd ∈ kbdFds rs ↔ ∃ r ∈ rs, r.kbd = some fd := by
  simp [kbdFds, List.mem_flatMap, Option.mem_toList]

theorem mem_allFds : fd ∈ allFds rs ↔ ∃ r ∈ rs, r.kbd = some fd ∨ r.imu = some fd := by
  simp [allFds, DaemonRemote.fds, List.mem_flatMap, Option.mem_toList]

theorem kbdFds_subset (rs : List DaemonRemote) : kbdFds rs ⊆ allFds rs := by
  intro fd h
  obtain ⟨r, hr, hfd⟩ := mem_kbdFds.mp h
  exact mem_allFds.mpr ⟨r, hr, .inl hfd⟩

theorem kbdFds_append (rs rs' : List DaemonRemote) : kbdFds (rs ++ rs') = kbdFds rs ++ kbdFds rs' :=
  List.flatMap_append

theorem allFds_append (rs rs' : List DaemonRemote) : allFds (rs ++ rs') = allFds rs ++ allFds rs' :=
  List.flatMap_append

theorem Grabbed.perm (h : Grabbed rs t) (hp : rs.Perm rs') : Grabbed rs' t :=
  Exclusive.perm h (hp.flatMap_right _) (hp.flatMap_right _)

/-- The remotes that are left when others are closed. -/
theorem Grabbed.closeRemotes (h : Grabbed (rs ++ rs') t) : Grabbed rs' (t.closeAll (allFds rs)) := by
  refine Exclusive.closeAll h ?_ (kbdFds_subset rs') ?_ fun fd hfd => ?_
  · rw [allFds_append]
  · rw [kbdFds_append]
    exact List.subset_append_right _ _
  · rw [kbdFds_append] at hfd
    exact (List.mem_append.mp hfd).imp_left fun h => kbdFds_subset rs h

/-- A remote is opened whose keyboard is free. -/
theorem Grabbed.openRemote (h : Grabbed rs t) {w : Inputs} {imuPath : CStr} {d : ℕ}
    (hfree : t.holder d = none) {r : DaemonRemote} (hkbd : r.kbd = some t.next)
    (himu : r.imu = (imuOpen w ((t.openDev d).1.grab t.next).1 imuPath).2.1) :
    Grabbed (rs ++ [r]) (imuOpen w ((t.openDev d).1.grab t.next).1 imuPath).1 := by
  have hopen := Exclusive.openGrab h hfree
  have hkbds : kbdFds (rs ++ [r]) = kbdFds rs ++ [t.next] := by simp [kbdFds, hkbd]
  rw [Grabbed, hkbds]
  unfold imuOpen at himu ⊢
  split_ifs at himu ⊢ with hempty
  · simpa [allFds, DaemonRemote.fds, hkbd, himu] using hopen
  · split at himu
    · simpa [allFds, DaemonRemote.fds, hkbd, himu] using hopen
    · next d' hd' =>
      simpa [allFds, DaemonRemote.fds, hkbd, himu, openDev_snd] using hopen.openDev d'

/-- A remote loses a device, which is closed. -/
theorem Grabbed.lose (h : Grabbed rs t) {k : ℕ} {r r' : DaemonRemote} (hr : rs[k]? = some r)
    {closed : List ℕ} (hfds : r.fds.Perm (closed ++ r'.fds))
    (hkbd : ∀ fd ∈ r'.kbd, r.kbd = some fd) (hleft : ∀ fd ∈ r.kbd, fd ∈ closed ∨ r'.kbd = some fd) :
    Grabbed (rs.set k r') (t.closeAll closed) := by
  obtain ⟨l₁, l₂, rfl, hset⟩ : ∃ l₁ l₂, rs = l₁ ++ r :: l₂ ∧ rs.set k r' = l₁ ++ r' :: l₂ := by
    obtain ⟨hk, rfl⟩ := List.getElem?_eq_some_iff.mp hr
    refine ⟨rs.take k, rs.drop (k + 1), ?_, ?_⟩
    · rw [List.getElem_cons_drop, List.take_append_drop]
    · rw [List.set_eq_take_append_cons_drop, if_pos hk]
  rw [hset]
  refine Exclusive.closeAll h ?_ (kbdFds_subset _) (fun fd hfd => ?_) fun fd hfd => ?_
  · -- the descriptors that are closed come to the front
    simp only [allFds, List.flatMap_append, List.flatMap_cons]
    have hmid := (hfds.append_right (l₂.flatMap (·.fds))).append_left (l₁.flatMap (·.fds))
    rw [List.append_assoc] at hmid
    exact hmid.trans (List.perm_append_comm_assoc _ _ _)
  · obtain ⟨q, hq, hqfd⟩ := mem_kbdFds.mp hfd
    simp only [List.mem_append, List.mem_cons] at hq
    rcases hq with hq | rfl | hq
    · exact mem_kbdFds.mpr ⟨q, by simp [hq], hqfd⟩
    · exact mem_kbdFds.mpr ⟨r, by simp, hkbd fd hqfd⟩
    · exact mem_kbdFds.mpr ⟨q, by simp [hq], hqfd⟩
  · obtain ⟨q, hq, hqfd⟩ := mem_kbdFds.mp hfd
    simp only [List.mem_append, List.mem_cons] at hq
    rcases hq with hq | rfl | hq
    · exact .inr (mem_kbdFds.mpr ⟨q, by simp [hq], hqfd⟩)
    · exact (hleft fd hqfd).imp_right fun h => mem_kbdFds.mpr ⟨r', by simp, h⟩
    · exact .inr (mem_kbdFds.mpr ⟨q, by simp [hq], hqfd⟩)

end

/-! ## The loop of a rescan -/

/-- The remotes that are open in the middle of a rescan. -/
def Rebuild.alive (b : Rebuild) : List DaemonRemote := b.old.reduceOption ++ b.new

/-- The loop after some of the pairs: a remote that is open is an old one, or was opened for one of
the pairs. -/
structure Rebuilding (rs : List DaemonRemote) (t : GrabTable ℕ) (w : Inputs)
    (done : List PairedRemote) (b : Rebuild) : Prop where
  grabbed : Grabbed b.alive b.table
  dev : ∀ fd, t.dev fd ≠ none → b.table.dev fd = t.dev fd
  kept : ∀ e ∈ rs, some e ∈ b.old ∨ ∃ pr ∈ done, e.kbdPath = pr.keyboard.path
  alive : ∀ r ∈ b.alive, r ∈ rs ∨ ∃ pr ∈ done, ∃ fd d, r.kbd = some fd ∧
    b.table.dev fd = some d ∧ w.opens pr.keyboard.path = some d

section

variable {dd : DaemonDevices} {rs : List DaemonRemote} {t : GrabTable ℕ} {w : Inputs}
  {done : List PairedRemote} {b : Rebuild} {pr : PairedRemote}

/-- Opening an IMU leaves the devices of the open files. -/
theorem dev_imuOpen {fd : ℕ} {imuPath : CStr} (h : t.dev fd ≠ none) :
    (imuOpen w t imuPath).1.dev fd = t.dev fd := by
  unfold imuOpen
  split_ifs
  · rfl
  · split
    · rfl
    · rw [openDev_dev, if_neg (Nat.ne_of_lt (lt_next_of_dev h))]

/-- Opening a remote leaves the devices of the open files, and its keyboard is the device of the
node. -/
theorem dev_remoteOpen (d : ℕ) (imuPath : CStr) :
    let t' := (imuOpen w ((t.openDev d).1.grab t.next).1 imuPath).1
    (∀ fd, t.dev fd ≠ none → t'.dev fd = t.dev fd) ∧ t'.dev t.next = some d := by
  have hnext : ((t.openDev d).1.grab t.next).1.dev t.next = some d := by
    rw [grab_dev, openDev_dev, if_pos rfl]
  refine ⟨fun fd hfd => ?_, by rw [dev_imuOpen (by simp [hnext]), hnext]⟩
  have hgrab : ((t.openDev d).1.grab t.next).1.dev fd = t.dev fd := by
    rw [grab_dev, openDev_dev, if_neg (Nat.ne_of_lt (lt_next_of_dev hfd))]
  rw [dev_imuOpen (by rwa [hgrab]), hgrab]

/-- A remote that is kept moves from the old ones to the new ones. -/
theorem Rebuilding.keep (h : Rebuilding rs t w done b) {l₁ l₂ : List (Option DaemonRemote)}
    {e : DaemonRemote} (hold : b.old = l₁ ++ some e :: l₂) (hpath : e.kbdPath = pr.keyboard.path) :
    Rebuilding rs t w (done ++ [pr]) ⟨b.table, l₁ ++ none :: l₂, b.new ++ [e]⟩ := by
  have hperm : b.alive.Perm (Rebuild.alive ⟨b.table, l₁ ++ none :: l₂, b.new ++ [e]⟩) := by
    simp only [Rebuild.alive, hold, List.reduceOption_append, List.reduceOption_cons_of_some,
      List.reduceOption_cons_of_none, List.append_assoc]
    refine List.Perm.append_left _ ?_
    rw [List.cons_append, ← List.append_assoc]
    exact (List.perm_append_singleton e _).symm
  refine ⟨h.grabbed.perm hperm, h.dev, fun e' he' => ?_, fun r hr => ?_⟩
  · rcases h.kept e' he' with hmem | ⟨pr', hpr', hpath'⟩
    · simp only [hold, List.mem_append, List.mem_cons, Option.some.injEq] at hmem
      rcases hmem with hmem | rfl | hmem
      · exact .inl (by simp [hmem])
      · exact .inr ⟨pr, by simp, hpath⟩
      · exact .inl (by simp [hmem])
    · exact .inr ⟨pr', List.mem_append_left _ hpr', hpath'⟩
  · refine (h.alive r (hperm.mem_iff.mpr hr)).imp_right ?_
    rintro ⟨pr', hpr', hrest⟩
    exact ⟨pr', List.mem_append_left _ hpr', hrest⟩

/-- The device of a keyboard that is opened anew is free. -/
theorem Rebuilding.holder_eq_none (h : Rebuilding rs t w done b) (ht : Grabbed rs t) {d : ℕ}
    (hopens : w.opens pr.keyboard.path = some d)
    (hrs : ∀ e ∈ rs, ∀ fd ∈ e.kbd, t.dev fd ≠ some d)
    (hdone : ∀ pr' ∈ done, ∀ d, w.opens pr'.keyboard.path = some d →
      w.opens pr.keyboard.path ≠ some d) : b.table.holder d = none := by
  by_contra hne
  obtain ⟨fd, hfd⟩ := Option.ne_none_iff_exists'.mp hne
  obtain ⟨r, hr, hkbd⟩ := mem_kbdFds.mp (h.grabbed.holders d fd hfd)
  have hdev := b.table.held d fd hfd
  rcases h.alive r hr with hr | ⟨pr', hpr', fd', d', hkbd', hdev', hopens'⟩
  · have hopen : t.dev fd ≠ none := ht.opened fd (kbdFds_subset _ (mem_kbdFds.mpr ⟨r, hr, hkbd⟩))
    exact hrs r hr fd hkbd ((h.dev fd hopen).symm.trans hdev)
  · obtain rfl : fd = fd' := Option.some.inj (hkbd.symm.trans hkbd')
    obtain rfl : d = d' := Option.some.inj (hdev.symm.trans hdev')
    exact hdone pr' hpr' d hopens' hopens

/-- One pair of the loop. -/
theorem rebuilding_step (h : Rebuilding rs t w done b) (ht : Grabbed rs t)
    (hoverlap : (∀ e ∈ rs, e.isAt (identityOf pr.uniq) pr.keyboard.path (imuPathOf pr) = false) →
      (remoteUinputOpen dd w (identityOf pr.uniq)).isSome = true →
      ∀ d, w.opens pr.keyboard.path = some d → ∀ e ∈ rs, ∀ fd ∈ e.kbd, t.dev fd ≠ some d)
    (hdone : ∀ pr' ∈ done, pr'.keyboard.path ≠ pr.keyboard.path ∧
      ∀ d, w.opens pr'.keyboard.path = some d → w.opens pr.keyboard.path ≠ some d) :
    Rebuilding rs t w (done ++ [pr]) (rebuildStep dd w b pr) := by
  have hpath {e : DaemonRemote}
      (he : e.isAt (identityOf pr.uniq) pr.keyboard.path (imuPathOf pr) = true) :
      e.kbdPath = pr.keyboard.path := by
    simp only [DaemonRemote.isAt, Bool.and_eq_true, decide_eq_true_eq] at he
    exact he.1.2
  -- with nothing opened the pair only joins those that are done
  have hweak : Rebuilding rs t w (done ++ [pr]) b :=
    ⟨h.grabbed, h.dev,
      fun e he => (h.kept e he).imp_right fun ⟨q, hq, hrest⟩ => ⟨q, List.mem_append_left _ hq, hrest⟩,
      fun r hr => (h.alive r hr).imp_right fun ⟨q, hq, hrest⟩ => ⟨q, List.mem_append_left _ hq, hrest⟩⟩
  rcases steal_cases (identityOf pr.uniq) pr.keyboard.path (imuPathOf pr) b.old with
    ⟨l₁, e, l₂, hold, hat, hsteal⟩ | ⟨hnone, hsteal⟩
  · -- an old remote is kept
    simp only [rebuildStep, hsteal]
    exact h.keep hold (hpath hat)
  · rcases remoteOpen_cases dd w b.table (identityOf pr.uniq) pr.keyboard.path (imuPathOf pr) with
      hopen | ⟨d, r, hopens, huinput, hopen, hkbd, himu, -⟩
    · simpa [rebuildStep, hsteal, hopen] using hweak
    · -- an old remote at the pair would have been found, or kept for an earlier pair
      have hat : ∀ e ∈ rs,
          e.isAt (identityOf pr.uniq) pr.keyboard.path (imuPathOf pr) = false := by
        intro e he
        rcases h.kept e he with hold | ⟨pr', hpr', hkbd'⟩
        · exact hnone e hold
        · by_contra hat
          exact (hdone pr' hpr').1 (hkbd'.symm.trans (hpath (Bool.eq_true_of_not_eq_false hat)))
      have hfree := h.holder_eq_none ht hopens (hoverlap hat huinput d hopens) fun q hq =>
        (hdone q hq).2
      simp only [rebuildStep, hsteal, hopen, Option.toList_some]
      obtain ⟨hdev, hnext⟩ := @dev_remoteOpen b.table w d (imuPathOf pr)
      refine ⟨?_, fun fd hfd => ?_, hweak.kept, fun r' hr' => ?_⟩
      · rw [Rebuild.alive, ← List.append_assoc]
        exact h.grabbed.openRemote hfree hkbd himu
      · rw [hdev fd (by rwa [h.dev fd hfd]), h.dev fd hfd]
      · rw [Rebuild.alive, ← List.append_assoc] at hr'
        rcases List.mem_append.mp hr' with hr' | hr'
        · refine (hweak.alive r' hr').imp_right fun ⟨q, hq, fd, d', hk, hd, ho⟩ =>
            ⟨q, hq, fd, d', hk, ?_, ho⟩
          rw [hdev fd (by simp [hd]), hd]
        · rw [List.mem_singleton.mp hr']
          exact .inr ⟨pr, by simp, b.table.next, d, hkbd, hnext, hopens⟩

/-- Some pairs of the loop. -/
theorem rebuilding_foldl {rest : List PairedRemote} (h : Rebuilding rs t w done b)
    (ht : Grabbed rs t)
    (hoverlap : ∀ pr ∈ rest,
      (∀ e ∈ rs, e.isAt (identityOf pr.uniq) pr.keyboard.path (imuPathOf pr) = false) →
      (remoteUinputOpen dd w (identityOf pr.uniq)).isSome = true →
      ∀ d, w.opens pr.keyboard.path = some d → ∀ e ∈ rs, ∀ fd ∈ e.kbd, t.dev fd ≠ some d)
    (hpairs : (done ++ rest).Pairwise fun p q => p.keyboard.path ≠ q.keyboard.path ∧
      ∀ d, w.opens p.keyboard.path = some d → w.opens q.keyboard.path ≠ some d) :
    Rebuilding rs t w (done ++ rest) (rest.foldl (rebuildStep dd w) b) := by
  induction rest generalizing done b with
  | nil => simpa using h
  | cons pr rest ih =>
    have hstep := rebuilding_step h ht (hoverlap pr List.mem_cons_self) fun q hq =>
      (List.pairwise_append.mp hpairs).2.2 q hq pr List.mem_cons_self
    have hrest := ih hstep (fun q hq => hoverlap q (List.mem_cons_of_mem _ hq))
      (by rwa [List.append_assoc, List.singleton_append])
    rwa [List.append_assoc, List.singleton_append] at hrest

end

/-! ## Runs -/

variable {s s' : DevSys} {i : DevInput} {w : Inputs}

theorem leftFds_eq (old : List (Option DaemonRemote)) : leftFds old = allFds old.reduceOption := by
  induction old with
  | nil => rfl
  | cons o old ih => cases o <;> simp_all [leftFds, allFds, List.reduceOption]

/-- A rescan keeps the keyboards grabbed. -/
theorem grabbed_rescan (h : Grabbed s.dd.remotes s.table) (hdistinct : DistinctKeyboards s.dd w)
    (hoverlap : NoOverlap s (.rescan w)) :
    Grabbed (s.rescan w).dd.remotes (s.rescan w).table := by
  cases hpairs : rescanPairs s.dd w with
  | error e => simpa [DevSys.rescan, rescan_of_error hpairs] using h
  | ok pairs =>
    have hpairwise : pairs.Pairwise fun p q => p.keyboard.path ≠ q.keyboard.path ∧
        ∀ d, w.opens p.keyboard.path = some d → w.opens q.keyboard.path ≠ some d := by
      obtain ⟨entries, hscan, hsub⟩ := keyboards_of_rescanPairs hpairs
      exact List.pairwise_map.mp ((hdistinct entries hscan).sublist hsub)
    have hinit : Rebuilding s.dd.remotes s.table w [] ⟨s.table, s.dd.remotes.map some, []⟩ := by
      have halive : Rebuild.alive ⟨s.table, s.dd.remotes.map some, []⟩ = s.dd.remotes := by
        simp [Rebuild.alive, List.reduceOption]
      refine ⟨?_, fun _ _ => rfl, fun e he => .inl (List.mem_map_of_mem he), fun r hr => .inl ?_⟩
      · rwa [halive]
      · rwa [halive] at hr
    have hrun : Rebuilding s.dd.remotes s.table w pairs
        (rebuild (rescanStart s.dd w) s.table w pairs) :=
      rebuilding_foldl hinit h (hoverlap pairs hpairs) hpairwise
    simp only [DevSys.rescan, rescan_of_ok hpairs, leftFds_eq]
    exact Grabbed.closeRemotes hrun.grabbed

/-- What a handler does to the descriptors of its remote. -/
theorem fds_handleSide (r : DaemonRemote) (side : Side) (read : ReadResult) (j : ℕ) :
    let r' := (handleSide r side read).remote
    let closed := if closes (some (.dev side j)) read then (r.fd side).toList else []
    r.fds.Perm (closed ++ r'.fds) ∧ (∀ fd ∈ r'.kbd, r.kbd = some fd) ∧
      ∀ fd ∈ r.kbd, fd ∈ closed ∨ r'.kbd = some fd := by
  rcases read with f | _ | _
  · cases side <;> simp [handleSide, handleKbd, handleImu, closes, DaemonRemote.fds]
  · cases side with
    | kbd => simp [handleSide, handleKbd, closes, DaemonRemote.fds, DaemonRemote.fd]
    | imu =>
      simp only [handleSide, handleImu, closes, DaemonRemote.fds, DaemonRemote.fd, if_true]
      exact ⟨by simpa using List.perm_append_comm, fun _ h => h, fun _ h => .inr h⟩
  · cases side <;> simp [handleSide, handleKbd, handleImu, closes, DaemonRemote.fds]

theorem handleRemote_remotes {dd : DaemonDevices} {side : Side} {k : ℕ} {io : HandleIo}
    {r : DaemonRemote} (hr : dd.remotes[k]? = some r) :
    (handleRemote dd side k io).dd.remotes =
      dd.remotes.set k (handleSide r side io.read).remote := by
  simp only [handleRemote, hr]
  split_ifs <;> simp

/-- Handling a slot keeps the keyboards grabbed that are left. -/
theorem grabbed_handle (h : Grabbed s.dd.remotes s.table) (idx : ℕ) (io : HandleIo) :
    Grabbed (s.handle idx io).dd.remotes (s.handle idx io).table := by
  unfold DevSys.handle daemonDevicesHandle handleLost
  cases handleSlot s.dd idx with
  | none => exact h
  | some dev =>
    cases dev with
    | inotify => rwa [drainInotify_remotes]
    | dev side k =>
      cases hr : s.dd.remotes[k]? with
      | none => simpa [handleRemote, hr, closeAll] using h
      | some r =>
        obtain ⟨hfds, hkbd, hleft⟩ := fds_handleSide r side io.read k
        simp only [handleRemote_remotes hr, hr, Option.bind_some]
        exact h.lose hr hfds hkbd hleft

/-- Without a rescan that opens a keyboard of an old remote the keyboards stay grabbed. -/
theorem inductive_grabbed : ((deviceSystem DistinctKeyboards).restrict NoOverlap).Inductive
    fun s => Grabbed s.dd.remotes s.table where
  init s h := by
    obtain ⟨hrs, htable, -⟩ := h
    rw [hrs, htable]
    exact exclusive_empty
  step s i s' ih hstep := by
    obtain ⟨hstep, hoverlap⟩ := hstep
    cases i with
    | rescan w =>
      obtain ⟨hdistinct, rfl⟩ := hstep
      exact grabbed_rescan ih hdistinct hoverlap
    | handle idx io =>
      obtain rfl := hstep
      exact grabbed_handle ih idx io

/-- In the runs where no rescan opens a keyboard that an old remote has open, every open keyboard
of a remote is grabbed. -/
theorem holds_of_noOverlap
    (h : ((deviceSystem DistinctKeyboards).restrict NoOverlap).Reachable s) :
    ∀ r ∈ s.dd.remotes, ∀ fd ∈ r.kbd, s.table.Holds fd := by
  have hgrabbed : Grabbed s.dd.remotes s.table := h.of_inductive inductive_grabbed
  exact fun r hr fd hfd => hgrabbed.holds fd (mem_kbdFds.mpr ⟨r, hr, hfd⟩)

/-- Nodes at different paths are different devices. -/
theorem distinctKeyboards_nodeInputs {dd : DaemonDevices} {nodes : List (CStr × CStr)}
    (h : ∀ entries, scanInputs (nodeInputs nodes).fs dd.kbdOverride = some entries →
      (entries.map (·.path)).Nodup) : DistinctKeyboards dd (nodeInputs nodes) := by
  intro entries hscan
  refine ((List.pairwise_map.mp (h entries hscan)).sublist List.filter_sublist).imp ?_
  refine fun {a b} hpath => ⟨hpath, fun d ha hb => hpath ?_⟩
  obtain ⟨_, hpa, -⟩ := List.findIdx?_eq_some_iff_getElem.mp ha
  obtain ⟨_, hpb, -⟩ := List.findIdx?_eq_some_iff_getElem.mp hb
  exact (of_decide_eq_true hpa).symm.trans (of_decide_eq_true hpb)

theorem distinctKeyboards_remoteInputs : DistinctKeyboards startDev.dd remoteInputs := by
  refine distinctKeyboards_nodeInputs fun entries hscan => ?_
  have hpaths : (scanInputs remoteInputs.fs startDev.dd.kbdOverride).map (·.map (·.path)) =
      some [.lit "/dev/input/event0", .lit "/dev/input/event1"] := by decide +kernel
  rw [remoteInputs, hscan, Option.map_some, Option.some.injEq] at hpaths
  rw [hpaths]
  decide +kernel

theorem holds_remoteFound :
    (startDev.rescan remoteInputs).dd.remotes.map (·.kbd) = [some 0] ∧
    ∀ r ∈ (startDev.rescan remoteInputs).dd.remotes, ∀ fd ∈ r.kbd,
      (startDev.rescan remoteInputs).table.Holds fd :=
  ⟨by decide +kernel, holds_of_noOverlap
    (.step (.rescan remoteInputs) (.init ⟨rfl, rfl, rfl⟩)
      ⟨⟨distinctKeyboards_remoteInputs, rfl⟩, fun _ _ _ _ _ _ _ _ _ he =>
        absurd he List.not_mem_nil⟩)⟩

/-- The node of the IMU is gone at the next rescan, that of the keyboard is not. -/
def imuVanished : DevSys :=
  (startDev.rescan remoteInputs).rescan (nodeInputs [(.lit "event0", kbdName)])

/-- The keyboard is opened a second time, before the first file is closed, and is not grabbed. -/
theorem imuVanished_not_holds : ∃ s, (deviceSystem DistinctKeyboards).Reachable s ∧
    s.rescanned = true ∧ ∃ r ∈ s.dd.remotes, ∃ fd ∈ r.kbd, ¬ s.table.Holds fd := by
  have hdistinct : DistinctKeyboards (startDev.rescan remoteInputs).dd
      (nodeInputs [(.lit "event0", kbdName)]) := by
    refine distinctKeyboards_nodeInputs fun entries hscan => ?_
    have hpaths : (scanInputs (nodeInputs [(.lit "event0", kbdName)]).fs
        (startDev.rescan remoteInputs).dd.kbdOverride).map (·.map (·.path)) =
          some [.lit "/dev/input/event0"] := by decide +kernel
    rw [hscan, Option.map_some, Option.some.injEq] at hpaths
    rw [hpaths]
    exact List.nodup_singleton _
  have hreach : (deviceSystem DistinctKeyboards).Reachable imuVanished :=
    .step (.rescan (nodeInputs [(.lit "event0", kbdName)]))
      (.step (.rescan remoteInputs) (.init ⟨rfl, rfl, rfl⟩) ⟨distinctKeyboards_remoteInputs, rfl⟩)
      ⟨hdistinct, rfl⟩
  have hkbd : imuVanished.dd.remotes.map (·.kbd) = [some 2] := by decide +kernel
  have hdev : imuVanished.table.dev 2 = some 0 := by decide +kernel
  have hholder : imuVanished.table.holder 0 = none := by decide +kernel
  obtain ⟨r, hr⟩ := List.length_eq_one_iff.mp (by simpa using congrArg List.length hkbd)
  rw [hr, List.map_cons, List.cons.injEq] at hkbd
  refine ⟨imuVanished, hreach, by decide +kernel, r, by simp [hr], 2, hkbd.1, ?_⟩
  rintro ⟨d, hd, hheld⟩
  obtain rfl : 0 = d := Option.some.inj (hdev.symm.trans hd)
  simp [hholder] at hheld

end Daemon
