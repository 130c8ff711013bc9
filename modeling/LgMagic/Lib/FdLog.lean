import Mathlib.Data.List.Nodup
import Mathlib.Data.List.Perm.Subperm
import Mathlib.Data.List.Infix

/-!
# Logs of descriptors

What happens to descriptors in the order in which it happens: a number is opened or closed, and a
number that was closed may be given out again. A log is sound when no number is opened that is open
and none is closed that is not, so that between two openings of a number it is closed just once.

* `FdEvent`, `FdLog`, `openFds`: logs, and the descriptors that are open after one;
* `Sound`, `Sound.count_opened`: openings and closings of a number take turns;
* `Owns`: a sound log, and who owns the descriptors that are open;
* `Owns.openFd`, `Owns.closeAll`: what keeps it;
* `Alloc`: a kernel that gives out numbers that are not open.
-/

/-- A descriptor is opened or closed. -/
inductive FdEvent (α : Type*) where
  | opened (fd : α)
  | closed (fd : α)
  deriving DecidableEq

/-- What happened, in order. -/
abbrev FdLog (α : Type*) := List (FdEvent α)

namespace FdLog

variable {α : Type*} [DecidableEq α]

/-- The descriptors that are open after an event. -/
def after (fds : List α) : FdEvent α → List α
  | .opened fd => fd :: fds
  | .closed fd => fds.erase fd

/-- The descriptors that are open after a log. -/
def openFds (log : FdLog α) : List α := log.foldl after []

/-- An event that may happen while some descriptors are open. -/
def Allowed (fds : List α) : FdEvent α → Prop
  | .opened fd => fd ∉ fds
  | .closed fd => fd ∈ fds

/-- Nothing is opened that is open, and nothing is closed that is not. -/
def Sound (log : FdLog α) : Prop := ∀ l e, l ++ [e] <+: log → Allowed (openFds l) e

variable {log log' : FdLog α} {e : FdEvent α} {fd : α} {fds rest : List α}

theorem openFds_concat (log : FdLog α) (e : FdEvent α) :
    openFds (log ++ [e]) = after (openFds log) e := by
  simp [openFds]

theorem sound_nil : Sound ([] : FdLog α) := by
  intro l e h
  simp at h

/-- A log is sound up to every point. -/
theorem Sound.of_prefix (h : Sound log') (hpre : log <+: log') : Sound log :=
  fun l e hl => h l e (hl.trans hpre)

theorem sound_concat : Sound (log ++ [e]) ↔ Sound log ∧ Allowed (openFds log) e := by
  constructor
  · intro h
    exact ⟨h.of_prefix (List.prefix_append _ _), h log e List.prefix_rfl⟩
  · rintro ⟨h, hallowed⟩ l e' hl
    rcases List.prefix_concat_iff.mp hl with heq | hpre
    · obtain ⟨rfl, he⟩ := List.append_inj' heq rfl
      obtain rfl : e' = e := by simpa using he
      exact hallowed
    · exact h l e' hpre

/-- No number is open twice. -/
theorem Sound.nodup_openFds (h : Sound log) : (openFds log).Nodup := by
  induction log using List.reverseRecOn with
  | nil => simp [openFds]
  | append_singleton log e ih =>
    obtain ⟨hlog, hallowed⟩ := sound_concat.mp h
    rw [openFds_concat]
    cases e with
    | opened fd => exact List.nodup_cons.mpr ⟨hallowed, ih hlog⟩
    | closed fd => exact (ih hlog).erase fd

/-- A number was closed as often as it was opened, or once less often while it is open. -/
theorem Sound.count_opened (h : Sound log) (fd : α) :
    log.count (.opened fd) = log.count (.closed fd) + if fd ∈ openFds log then 1 else 0 := by
  induction log using List.reverseRecOn with
  | nil => simp [openFds]
  | append_singleton log e ih =>
    obtain ⟨hlog, hallowed⟩ := sound_concat.mp h
    have hnodup := hlog.nodup_openFds
    rw [List.count_append, List.count_append, ih hlog, openFds_concat]
    cases e with
    | opened fd' =>
      by_cases hfd : fd' = fd
      · subst hfd
        have hnot : fd' ∉ openFds log := hallowed
        simp [after, hnot]
      · simp [after, hfd, Ne.symm hfd]
    | closed fd' =>
      by_cases hfd : fd' = fd
      · subst hfd
        have hmem : fd' ∈ openFds log := hallowed
        simp [after, hmem, hnodup.not_mem_erase]
      · simp [after, hfd, List.mem_erase_of_ne (Ne.symm hfd)]

/-- Some descriptors are closed in turn. -/
def closeAll (log : FdLog α) (fds : List α) : FdLog α := log ++ fds.map .closed

omit [DecidableEq α] in
theorem closeAll_cons (log : FdLog α) (fd : α) (fds : List α) :
    closeAll log (fd :: fds) = closeAll (log ++ [.closed fd]) fds := by
  simp [closeAll]

omit [DecidableEq α] in
theorem closeAll_append (log : FdLog α) (fds fds' : List α) :
    closeAll log (fds ++ fds') = closeAll (closeAll log fds) fds' := by
  simp [closeAll]

omit [DecidableEq α] in
theorem prefix_closeAll (log : FdLog α) (fds : List α) : log <+: closeAll log fds :=
  List.prefix_append _ _

/-- A sound log after which just the given descriptors are open, each given once. -/
structure Owns (log : FdLog α) (fds : List α) : Prop where
  sound : Sound log
  perm : (openFds log).Perm fds

theorem owns_nil : Owns ([] : FdLog α) [] := ⟨sound_nil, .nil⟩

namespace Owns

theorem nodup (h : Owns log fds) : fds.Nodup := h.perm.nodup_iff.mp h.sound.nodup_openFds

theorem of_perm (h : Owns log fds) (hp : fds.Perm rest) : Owns log rest := ⟨h.sound, h.perm.trans hp⟩

theorem opened (h : Owns log fds) (hfd : fd ∉ fds) : Owns (log ++ [.opened fd]) (fd :: fds) := by
  refine ⟨sound_concat.mpr ⟨h.sound, fun hmem => hfd (h.perm.mem_iff.mp hmem)⟩, ?_⟩
  rw [openFds_concat]
  exact h.perm.cons fd

theorem closed (h : Owns log (fd :: fds)) : Owns (log ++ [.closed fd]) fds := by
  have hmem : fd ∈ openFds log := h.perm.mem_iff.mpr List.mem_cons_self
  refine ⟨sound_concat.mpr ⟨h.sound, hmem⟩, ?_⟩
  have hrest := h.perm.erase fd
  rw [List.erase_cons_head] at hrest
  rw [openFds_concat]
  exact hrest

theorem closeAll (h : Owns log (fds ++ rest)) : Owns (log.closeAll fds) rest := by
  induction fds generalizing log with
  | nil => simpa [FdLog.closeAll] using h
  | cons fd fds ih =>
    rw [closeAll_cons]
    exact ih (closed h)

end Owns

/-- To close a descriptor that is not open is not sound. -/
theorem not_sound_closeAll (hfd : fd ∉ openFds log) (hmem : fd ∈ fds) :
    ¬ Sound (closeAll log fds) := by
  obtain ⟨l₁, l₂, rfl⟩ := List.append_of_mem hmem
  intro h
  rw [closeAll_append, closeAll_cons] at h
  have hconcat := (sound_concat.mp (h.of_prefix (prefix_closeAll _ _))).2
  have hsub : ∀ (log : FdLog α) (fds : List α), openFds (closeAll log fds) ⊆ openFds log := by
    intro log fds
    induction fds generalizing log with
    | nil => simp [closeAll]
    | cons fd fds ih =>
      rw [closeAll_cons]
      intro x hx
      have hopen := ih _ hx
      rw [openFds_concat] at hopen
      exact List.mem_of_mem_erase hopen
  exact hfd (hsub log l₁ hconcat)

/-! ## The kernel -/

/-- A kernel gives out numbers that are not open. -/
structure Alloc (α : Type*) where
  next : List α → α
  fresh : ∀ fds, next fds ∉ fds

/-- The lowest number that is not open. -/
def Alloc.lowest : Alloc ℕ where
  next fds := ((List.range (fds.length + 1)).find? (· ∉ fds)).getD 0
  fresh fds := by
    cases hfind : (List.range (fds.length + 1)).find? (· ∉ fds) with
    | some n => simpa using List.find?_some hfind
    | none =>
      have hsub : List.range (fds.length + 1) ⊆ fds := fun n hn => by
        simpa using List.find?_eq_none.mp hfind n hn
      have hle := (List.nodup_range.subperm hsub).length_le
      rw [List.length_range] at hle
      omega

/-- A descriptor is opened. -/
def openFd (k : Alloc α) (log : FdLog α) : FdLog α × α :=
  (log ++ [.opened (k.next (openFds log))], k.next (openFds log))

theorem prefix_openFd (k : Alloc α) (log : FdLog α) : log <+: (openFd k log).1 :=
  List.prefix_append _ _

theorem Owns.openFd (h : Owns log fds) (k : Alloc α) :
    Owns (openFd k log).1 ((openFd k log).2 :: fds) :=
  h.opened fun hmem => k.fresh _ (h.perm.mem_iff.mpr hmem)

end FdLog
