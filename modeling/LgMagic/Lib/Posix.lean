import LgMagic.Lib.CString
import LgMagic.Lib.Prog
import Mathlib.Logic.Function.Basic

/-!
# Files under crashes

A file system as programs see it that create, write, synchronise and rename files. Every call may
fail; a write may be short; and what was not synchronised is lost in a crash, in the sense that the
file may hold anything or be gone. A rename is atomic and durable.

* `Fs`, `File`: files and whether their data is synchronised;
* `SysCall`, `Answer`: the calls;
* `posix`: what a call may do and what a crash leaves;
* `faultless`: the calls when nothing fails.
-/

namespace Posix

/-- A regular file. -/
structure File where
  data : Bytes
  /-- The data is on the disk. -/
  synced : Bool
  deriving DecidableEq

/-- The files, by path. -/
abbrev Fs := CStr → Option File

/-- The contents of a file, as a reader finds it. -/
def Fs.contents (fs : Fs) (path : CStr) : Option Bytes := (fs path).map File.data

/-- The system calls. Calls on an open descriptor name the path it was opened with. -/
inductive SysCall
  /-- Read a whole file. -/
  | read (path : CStr)
  /-- `open` with `O_CREAT` and `O_EXCL`. -/
  | openExcl (path : CStr)
  | unlink (path : CStr)
  | write (path : CStr) (data : Bytes)
  | fsync (path : CStr)
  | close (path : CStr)
  | rename (old new : CStr)
  | mkdir (path : CStr)

/-- How a call that creates something ends. -/
inductive Created
  | ok
  | exists
  | failed
  deriving DecidableEq

/-- The answers of the calls. -/
def Answer : SysCall → Type
  | .read _ => Option Bytes
  | .openExcl _ | .mkdir _ => Created
  | .write _ _ => Option ℕ
  | .unlink _ | .fsync _ | .close _ | .rename _ _ => Bool

/-- Programs of system calls. -/
abbrev Sys := Prog SysCall Answer

/-- `read` a whole file. -/
def readFile (path : CStr) : Sys (Option Bytes) := .call (.read path) .ret

/-- `open` with `O_CREAT` and `O_EXCL`. -/
def openExcl (path : CStr) : Sys Created := .call (.openExcl path) .ret

/-- `unlink` -/
def unlink (path : CStr) : Sys Bool := .call (.unlink path) .ret

/-- `write`; the number of bytes written. -/
def write (path : CStr) (data : Bytes) : Sys (Option ℕ) := .call (.write path data) .ret

/-- `fsync` -/
def fsync (path : CStr) : Sys Bool := .call (.fsync path) .ret

/-- `close` -/
def close (path : CStr) : Sys Bool := .call (.close path) .ret

/-- `rename` -/
def rename (old new : CStr) : Sys Bool := .call (.rename old new) .ret

/-- `mkdir` -/
def mkdir (path : CStr) : Sys Created := .call (.mkdir path) .ret

/-- A call is allowed to end like this. -/
def Step (fs : Fs) : (c : SysCall) → Answer c → Fs → Prop
  | .read p, r, fs' => r = fs.contents p ∧ fs' = fs
  | .openExcl p, .ok, fs' => fs p = none ∧ fs' = Function.update fs p (some ⟨[], false⟩)
  | .openExcl p, .exists, fs' => fs p ≠ none ∧ fs' = fs
  | .openExcl _, .failed, fs' => fs' = fs
  | .unlink p, true, fs' => fs p ≠ none ∧ fs' = Function.update fs p none
  | .unlink _, false, fs' => fs' = fs
  | .write p data, some n, fs' =>
    n ≤ data.length ∧ fs' = Function.update fs p (some ⟨data.take n, false⟩)
  | .write _ _, none, fs' => fs' = fs
  | .fsync p, true, fs' => fs' = Function.update fs p ((fs p).map fun f => { f with synced := true })
  | .fsync _, false, fs' => fs' = fs
  | .close _, _, fs' => fs' = fs
  | .rename old new, true, fs' =>
    fs old ≠ none ∧ fs' = Function.update (Function.update fs new (fs old)) old none
  | .rename _ _, false, fs' => fs' = fs
  | .mkdir _, _, fs' => fs' = fs

/-- A crash keeps what is synchronised or absent. -/
def Crash (fs fs' : Fs) : Prop := ∀ p, fs' p = fs p ∨ ∃ f, fs p = some f ∧ f.synced = false

/-- The machine of the system calls. -/
def posix : Host SysCall Answer Fs := ⟨Step, Crash⟩

/-- The calls when nothing fails. -/
def faultless (fs : Fs) : (c : SysCall) → Answer c × Fs
  | .read p => (fs.contents p, fs)
  | .openExcl p =>
    if fs p = none then (.ok, Function.update fs p (some ⟨[], false⟩)) else (.exists, fs)
  | .unlink p => if fs p = none then (false, fs) else (true, Function.update fs p none)
  | .write p data => (some data.length, Function.update fs p (some ⟨data, false⟩))
  | .fsync p => (true, Function.update fs p ((fs p).map fun f => { f with synced := true }))
  | .close _ => (true, fs)
  | .rename old new =>
    if fs old = none then (false, fs)
    else (true, Function.update (Function.update fs new (fs old)) old none)
  | .mkdir _ => (.ok, fs)

/-- A call that does not fail is allowed. -/
theorem step_faultless (fs : Fs) (c : SysCall) :
    posix.step fs c (faultless fs c).1 (faultless fs c).2 := by
  cases c with
  | read p => exact ⟨rfl, rfl⟩
  | openExcl p =>
    by_cases h : fs p = none
    · simpa [posix, faultless, h] using ⟨h, rfl⟩
    · simpa [posix, faultless, h] using ⟨h, rfl⟩
  | write p data => exact ⟨le_rfl, by rw [List.take_length]; rfl⟩
  | unlink p =>
    by_cases h : fs p = none
    · simp only [posix, faultless, if_pos h]; rfl
    · simpa [posix, faultless, h] using ⟨h, rfl⟩
  | rename old new =>
    by_cases h : fs old = none
    · simp only [posix, faultless, if_pos h]; rfl
    · simpa [posix, faultless, h] using ⟨h, rfl⟩
  | fsync p | close p | mkdir p => rfl

/-- A crash keeps a file whose data is synchronised. -/
theorem Crash.of_synced {fs fs' : Fs} (h : Crash fs fs') {p : CStr}
    (hp : ∀ f, fs p = some f → f.synced = true) : fs' p = fs p := by
  rcases h p with heq | ⟨f, hf, hsync⟩
  · exact heq
  · exact absurd (hp f hf) (by simp [hsync])

/-! ## Rules for the calls -/

section

open Prog

variable {α : Type} {J : List (Event SysCall Answer) → Fs → Prop}
  {Q : α → List (Event SysCall Answer) → Fs → Prop} {tr : List (Event SysCall Answer)} {fs : Fs}
  {path old new : CStr}

theorem wp_readFile {f : Option Bytes → Sys α} (hJ : J tr fs)
    (h : (f (fs.contents path)).wp posix J Q (tr ++ [⟨.read path, fs.contents path⟩]) fs) :
    (readFile path >>= f).wp posix J Q tr fs :=
  ⟨hJ, fun r fs' hstep => by
    obtain ⟨rfl, rfl⟩ := hstep
    exact h⟩

theorem wp_openExcl {f : Created → Sys α} (hJ : J tr fs)
    (hok : fs path = none → (f .ok).wp posix J Q (tr ++ [⟨.openExcl path, Created.ok⟩])
      (Function.update fs path (some ⟨[], false⟩)))
    (hexists : fs path ≠ none → (f .exists).wp posix J Q
      (tr ++ [⟨.openExcl path, Created.exists⟩]) fs)
    (hfailed : (f .failed).wp posix J Q (tr ++ [⟨.openExcl path, Created.failed⟩]) fs) :
    (openExcl path >>= f).wp posix J Q tr fs := by
  refine ⟨hJ, fun r fs' hstep => ?_⟩
  match r, hstep with
  | Created.ok, ⟨hnone, heq⟩ => exact heq ▸ hok hnone
  | Created.exists, ⟨hsome, heq⟩ => exact heq ▸ hexists hsome
  | Created.failed, heq => exact (show fs' = fs from heq) ▸ hfailed

theorem wp_unlink {f : Bool → Sys α} (hJ : J tr fs)
    (htrue : (f true).wp posix J Q (tr ++ [⟨.unlink path, true⟩]) (Function.update fs path none))
    (hfalse : (f false).wp posix J Q (tr ++ [⟨.unlink path, false⟩]) fs) :
    (unlink path >>= f).wp posix J Q tr fs := by
  refine ⟨hJ, fun r fs' hstep => ?_⟩
  match r, hstep with
  | true, ⟨_, heq⟩ => exact heq ▸ htrue
  | false, heq => exact (show fs' = fs from heq) ▸ hfalse

theorem wp_write {data : Bytes} {f : Option ℕ → Sys α} (hJ : J tr fs)
    (hsome : ∀ n ≤ data.length, (f (some n)).wp posix J Q (tr ++ [⟨.write path data, some n⟩])
      (Function.update fs path (some ⟨data.take n, false⟩)))
    (hnone : (f none).wp posix J Q (tr ++ [⟨.write path data, none⟩]) fs) :
    (write path data >>= f).wp posix J Q tr fs := by
  refine ⟨hJ, fun r fs' hstep => ?_⟩
  match r, hstep with
  | some n, ⟨hn, heq⟩ => exact heq ▸ hsome n hn
  | none, heq => exact (show fs' = fs from heq) ▸ hnone

theorem wp_close {f : Bool → Sys α} (hJ : J tr fs)
    (h : ∀ r, (f r).wp posix J Q (tr ++ [⟨.close path, r⟩]) fs) :
    (close path >>= f).wp posix J Q tr fs :=
  ⟨hJ, fun r fs' hstep => (show fs' = fs from hstep) ▸ h r⟩

theorem wp_rename {f : Bool → Sys α} (hJ : J tr fs)
    (htrue : fs old ≠ none → (f true).wp posix J Q (tr ++ [⟨.rename old new, true⟩])
      (Function.update (Function.update fs new (fs old)) old none))
    (hfalse : (f false).wp posix J Q (tr ++ [⟨.rename old new, false⟩]) fs) :
    (rename old new >>= f).wp posix J Q tr fs := by
  refine ⟨hJ, fun r fs' hstep => ?_⟩
  match r, hstep with
  | true, ⟨hsome, heq⟩ => exact heq ▸ htrue hsome
  | false, heq => exact (show fs' = fs from heq) ▸ hfalse

theorem wp_mkdir {f : Created → Sys α} (hJ : J tr fs)
    (h : ∀ r, (f r).wp posix J Q (tr ++ [⟨.mkdir path, r⟩]) fs) :
    (mkdir path >>= f).wp posix J Q tr fs :=
  ⟨hJ, fun r fs' hstep => (show fs' = fs from hstep) ▸ h r⟩

end

end Posix
