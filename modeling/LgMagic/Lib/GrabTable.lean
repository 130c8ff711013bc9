import Mathlib.Data.List.Nodup
import Mathlib.Logic.Function.Basic

/-!
# Grabbed devices

The table that an operating system keeps of open files on devices and of the file that has a device
for itself: at most one open file holds a device, a device that is held cannot be grabbed, and
closing a file gives its device free.

* `GrabTable`, with `openDev`, `close`, `grab`, `closeAll`;
* `Holds`: an open file holds its device;
* `Holds.openDev`, `Holds.grab`, `Holds.closeAll`: what does not concern a file leaves its hold;
* `holds_grab`: a free device is grabbed; `grab_of_held`: a device that is held is not;
* `Exclusive`: some files hold their devices and no other file holds one;
* `Exclusive.openDev`, `Exclusive.openGrab`, `Exclusive.closeAll`: what keeps it.
-/

/-- Open files, by their number, and the file that holds a device. Numbers are not used again. -/
structure GrabTable (D : Type) where
  next : ℕ
  /-- The device of an open file. -/
  dev : ℕ → Option D
  holder : D → Option ℕ
  fresh : ∀ fd, next ≤ fd → dev fd = none
  held : ∀ d fd, holder d = some fd → dev fd = some d

namespace GrabTable

variable {D : Type}

/-- No file is open. -/
def empty : GrabTable D := ⟨0, fun _ => none, fun _ => none, by simp, by simp⟩

/-- An open file holds its device. -/
def Holds (t : GrabTable D) (fd : ℕ) : Prop := ∃ d, t.dev fd = some d ∧ t.holder d = some fd

/-- Open a device. -/
def openDev (t : GrabTable D) (d : D) : GrabTable D × ℕ :=
  ({ next := t.next + 1
     dev := Function.update t.dev t.next (some d)
     holder := t.holder
     fresh := fun fd h => by
      rw [Function.update_of_ne (by omega)]
      exact t.fresh fd (by omega)
     held := fun d' fd h => by
      have hdev := t.held d' fd h
      rw [Function.update_of_ne, hdev]
      rintro rfl
      simp [t.fresh _ (Nat.le_refl _)] at hdev }, t.next)

/-- Close a file. -/
def close (t : GrabTable D) (fd : ℕ) : GrabTable D where
  next := t.next
  dev := Function.update t.dev fd none
  holder d := if t.holder d = some fd then none else t.holder d
  fresh fd' h := by
    rw [Function.update_apply]
    split_ifs
    · rfl
    · exact t.fresh fd' h
  held d fd' h := by
    split_ifs at h with hfd
    rw [Function.update_of_ne]
    · exact t.held d fd' h
    · rintro rfl
      exact hfd h

/-- Close some files. -/
def closeAll (t : GrabTable D) (fds : List ℕ) : GrabTable D := fds.foldl close t

variable [DecidableEq D]

/-- Grab the device of a file, if it is free. -/
def grab (t : GrabTable D) (fd : ℕ) : GrabTable D × Bool :=
  match h : t.dev fd with
  | none => (t, false)
  | some d =>
    if t.holder d = none then
      ({ t with
         holder := Function.update t.holder d (some fd)
         held := fun d' fd' h' => by
          rw [Function.update_apply] at h'
          split_ifs at h' with hd
          · rw [← Option.some.inj h', hd, h]
          · exact t.held d' fd' h' }, true)
    else (t, false)

variable {t : GrabTable D} {fd : ℕ} {d : D}

/-! ## Open files -/

omit [DecidableEq D] in
theorem openDev_snd (t : GrabTable D) (d : D) : (t.openDev d).2 = t.next := rfl

omit [DecidableEq D] in
theorem openDev_dev (t : GrabTable D) (d : D) (fd : ℕ) :
    (t.openDev d).1.dev fd = if fd = t.next then some d else t.dev fd :=
  Function.update_apply _ _ _ _

omit [DecidableEq D] in
@[simp]
theorem openDev_holder (t : GrabTable D) (d : D) : (t.openDev d).1.holder = t.holder := rfl

omit [DecidableEq D] in
theorem close_dev (t : GrabTable D) (fd fd' : ℕ) :
    (t.close fd).dev fd' = if fd' = fd then none else t.dev fd' :=
  Function.update_apply _ _ _ _

omit [DecidableEq D] in
theorem close_holder (t : GrabTable D) (fd : ℕ) (d : D) :
    (t.close fd).holder d = if t.holder d = some fd then none else t.holder d := rfl

@[simp]
theorem grab_dev (t : GrabTable D) (fd : ℕ) : (t.grab fd).1.dev = t.dev := by
  unfold grab
  split
  · rfl
  · split_ifs <;> rfl

omit [DecidableEq D] in
theorem closeAll_dev (t : GrabTable D) (fds : List ℕ) (fd : ℕ) :
    (t.closeAll fds).dev fd = if fd ∈ fds then none else t.dev fd := by
  induction fds generalizing t with
  | nil => simp [closeAll]
  | cons fd' fds ih =>
    rw [closeAll, List.foldl_cons, ← closeAll, ih, close_dev]
    by_cases hmem : fd ∈ fds <;> by_cases heq : fd = fd' <;> simp [hmem, heq]

omit [DecidableEq D] in
/-- After some files are closed a device is held by its holder, unless that was closed. -/
theorem closeAll_holder (t : GrabTable D) (fds : List ℕ) (d : D) (fd : ℕ) :
    (t.closeAll fds).holder d = some fd ↔ t.holder d = some fd ∧ fd ∉ fds := by
  induction fds generalizing t with
  | nil => simp [closeAll]
  | cons fd' fds ih =>
    rw [closeAll, List.foldl_cons, ← closeAll, ih, close_holder]
    by_cases heq : t.holder d = some fd'
    · rw [if_pos heq, heq]
      simp only [List.mem_cons, not_or, Option.some.injEq, reduceCtorEq, false_and, false_iff]
      exact fun h => h.2.1 h.1.symm
    · rw [if_neg heq]
      simp only [List.mem_cons, not_or]
      refine ⟨fun h => ⟨h.1, ?_, h.2⟩, fun h => ⟨h.1, h.2.2⟩⟩
      rintro rfl
      exact heq h.1

/-! ## Grabbing -/

/-- A device that is held is not grabbed again. -/
theorem grab_of_held (hdev : t.dev fd = some d) (h : t.holder d ≠ none) : t.grab fd = (t, false) := by
  unfold grab
  split
  · rfl
  · next d' hd' =>
    obtain rfl : d = d' := Option.some.inj (hdev.symm.trans hd')
    rw [if_neg h]

theorem grab_holder_of_free (hdev : t.dev fd = some d) (h : t.holder d = none) (d' : D) :
    (t.grab fd).1.holder d' = if d' = d then some fd else t.holder d' := by
  unfold grab
  split
  · next hd' => exact absurd (hdev.symm.trans hd') (by simp)
  · next d'' hd' =>
    obtain rfl : d = d'' := Option.some.inj (hdev.symm.trans hd')
    rw [if_pos h]
    exact Function.update_apply _ _ _ _

/-- A free device is grabbed. -/
theorem holds_grab (hdev : t.dev fd = some d) (h : t.holder d = none) : (t.grab fd).1.Holds fd :=
  ⟨d, by rw [grab_dev, hdev], by rw [grab_holder_of_free hdev h, if_pos rfl]⟩

/-- Only the file itself can come to hold a device by a grab. -/
theorem holder_of_grab {d : D} {fd' : ℕ} (h : (t.grab fd).1.holder d = some fd') :
    t.holder d = some fd' ∨ fd' = fd := by
  cases hdev : t.dev fd with
  | none =>
    left
    unfold grab at h
    split at h
    · exact h
    · next d' hd' => exact absurd (hdev.symm.trans hd') (by simp)
  | some e =>
    by_cases hfree : t.holder e = none
    · rw [grab_holder_of_free hdev hfree] at h
      split_ifs at h
      · exact .inr (Option.some.inj h).symm
      · exact .inl h
    · rw [grab_of_held hdev hfree] at h
      exact .inl h

/-! ## Keeping a hold -/

omit [DecidableEq D] in
theorem Holds.lt_next (h : t.Holds fd) : fd < t.next := by
  obtain ⟨d, hdev, -⟩ := h
  by_contra hle
  simp [t.fresh fd (by omega)] at hdev

omit [DecidableEq D] in
theorem Holds.openDev (h : t.Holds fd) (d : D) : (t.openDev d).1.Holds fd := by
  have hlt := h.lt_next
  obtain ⟨d', hdev, hholder⟩ := h
  exact ⟨d', by rw [openDev_dev, if_neg (Nat.ne_of_lt hlt), hdev], hholder⟩

theorem Holds.grab (h : t.Holds fd) (fd' : ℕ) : (t.grab fd').1.Holds fd := by
  obtain ⟨d, hdev, hholder⟩ := h
  refine ⟨d, by rw [grab_dev, hdev], ?_⟩
  cases hdev' : t.dev fd' with
  | none =>
    unfold GrabTable.grab
    split
    · exact hholder
    · next d' hd' => exact absurd (hdev'.symm.trans hd') (by simp)
  | some e =>
    by_cases hfree : t.holder e = none
    · rw [grab_holder_of_free hdev' hfree, if_neg, hholder]
      rintro rfl
      simp [hfree] at hholder
    · rw [grab_of_held hdev' hfree]
      exact hholder

omit [DecidableEq D] in
theorem Holds.closeAll (h : t.Holds fd) {fds : List ℕ} (hfd : fd ∉ fds) :
    (t.closeAll fds).Holds fd := by
  obtain ⟨d, hdev, hholder⟩ := h
  exact ⟨d, by rw [closeAll_dev, if_neg hfd, hdev], (closeAll_holder _ _ _ _).mpr ⟨hholder, hfd⟩⟩

/-! ## Exclusive files -/

/-- The files `ks` among the open files `fds` hold their devices, and no other file holds one. -/
structure Exclusive (ks fds : List ℕ) (t : GrabTable D) : Prop where
  sub : ks ⊆ fds
  holds : ∀ fd ∈ ks, t.Holds fd
  opened : ∀ fd ∈ fds, t.dev fd ≠ none
  nodup : fds.Nodup
  holders : ∀ d fd, t.holder d = some fd → fd ∈ ks

variable {ks fds ks' fds' : List ℕ}

omit [DecidableEq D] in
theorem exclusive_empty : Exclusive [] [] (empty : GrabTable D) := by
  constructor <;> simp [empty]

omit [DecidableEq D] in
theorem Exclusive.perm (h : Exclusive ks fds t) (hks : ks.Perm ks') (hfds : fds.Perm fds') :
    Exclusive ks' fds' t where
  sub _ hfd := hfds.mem_iff.mp (h.sub (hks.mem_iff.mpr hfd))
  holds fd hfd := h.holds fd (hks.mem_iff.mpr hfd)
  opened fd hfd := h.opened fd (hfds.mem_iff.mpr hfd)
  nodup := hfds.nodup_iff.mp h.nodup
  holders d fd hd := hks.mem_iff.mp (h.holders d fd hd)

omit [DecidableEq D] in
theorem lt_next_of_dev (h : t.dev fd ≠ none) : fd < t.next := by
  by_contra hle
  exact h (t.fresh fd (by omega))

omit [DecidableEq D] in
theorem Exclusive.next_notMem (h : Exclusive ks fds t) : t.next ∉ fds := fun hmem =>
  absurd (lt_next_of_dev (h.opened _ hmem)) (Nat.lt_irrefl _)

omit [DecidableEq D] in
/-- A file is opened that grabs nothing. -/
theorem Exclusive.openDev (h : Exclusive ks fds t) (d : D) :
    Exclusive ks (fds ++ [t.next]) (t.openDev d).1 where
  sub fd hfd := List.mem_append_left _ (h.sub hfd)
  holds fd hfd := (h.holds fd hfd).openDev d
  opened fd hfd := by
    rw [openDev_dev]
    split_ifs with hnext
    · simp
    · refine h.opened fd ((List.mem_append.mp hfd).resolve_right fun hlast => ?_)
      exact hnext (List.mem_singleton.mp hlast)
  nodup := List.nodup_append.mpr ⟨h.nodup, List.nodup_singleton _, fun a ha b hb hab =>
    h.next_notMem (List.mem_singleton.mp hb ▸ hab ▸ ha)⟩
  holders := h.holders

/-- A free device is opened and grabbed. -/
theorem Exclusive.openGrab (h : Exclusive ks fds t) (hfree : t.holder d = none) :
    Exclusive (ks ++ [t.next]) (fds ++ [t.next]) ((t.openDev d).1.grab t.next).1 := by
  have hopen := h.openDev d
  have hdev : (t.openDev d).1.dev t.next = some d := by rw [openDev_dev, if_pos rfl]
  refine ⟨?_, fun fd hfd => ?_, fun fd hfd => ?_, hopen.nodup, fun d' fd hd => ?_⟩
  · exact List.append_subset.mpr ⟨hopen.sub, List.subset_append_right _ _⟩
  · rcases List.mem_append.mp hfd with hfd | hfd
    · exact (hopen.holds fd hfd).grab _
    · rw [List.mem_singleton.mp hfd]
      exact holds_grab hdev hfree
  · rw [grab_dev]
    exact hopen.opened fd hfd
  · rcases holder_of_grab hd with hd | rfl
    · exact List.mem_append_left _ (h.holders d' fd hd)
    · exact List.mem_append_right _ (List.mem_singleton_self _)

omit [DecidableEq D] in
/-- Some files are closed. -/
theorem Exclusive.closeAll (h : Exclusive ks fds t) {closed : List ℕ}
    (hfds : fds.Perm (closed ++ fds')) (hsub : ks' ⊆ fds') (hks : ks' ⊆ ks)
    (hleft : ∀ fd ∈ ks, fd ∈ closed ∨ fd ∈ ks') : Exclusive ks' fds' (t.closeAll closed) := by
  have hnodup := List.nodup_append.mp (hfds.nodup_iff.mp h.nodup)
  have hopen : ∀ fd ∈ fds', fd ∉ closed := fun fd hfd hclosed =>
    hnodup.2.2 fd hclosed fd hfd rfl
  refine ⟨hsub, fun fd hfd => ?_, fun fd hfd => ?_, hnodup.2.1, fun d fd hd => ?_⟩
  · exact (h.holds fd (hks hfd)).closeAll (hopen fd (hsub hfd))
  · rw [closeAll_dev, if_neg (hopen fd hfd)]
    exact h.opened fd (hfds.mem_iff.mpr (List.mem_append_right _ hfd))
  · obtain ⟨hholder, hclosed⟩ := (closeAll_holder _ _ _ _).mp hd
    exact (hleft fd (h.holders d fd hholder)).resolve_left hclosed

end GrabTable
