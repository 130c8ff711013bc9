import LgMagic.Lib.CString
import Mathlib.Data.List.Range

/-!
# Identities of remotes

Which strings name a remote: the Bluetooth MAC of the remote, or the fallback for remotes without
one. Part of `daemon_devices.c`.

* `daemonIdentityValid`, `identityOf`;
* `daemonIdentityValid_iff`: the valid identities.
-/

namespace Daemon

open CString

/-- The fallback identity. -/
def unknownIdentity : CStr := .lit "unknown"

/-- The bytes of a MAC: groups of two hexadecimal digits with colons between them. -/
def macByteOk (i : ℕ) (c : UInt8) : Bool := if i % 3 = 2 then c == 0x3A else isXdigit c

/-- A string of the form of a MAC. -/
def isMac (s : CStr) : Bool :=
  s.val.length = 17 && (s.val.zipIdx).all fun (c, i) => macByteOk i c

/-- `daemon_identity_valid` -/
def daemonIdentityValid (s : CStr) : Bool := s = unknownIdentity || isMac s

/-- The identity of a remote whose device reports `uniq`. -/
def identityOf (uniq : CStr) : CStr := if daemonIdentityValid uniq then uniq else unknownIdentity

theorem isMac_iff {s : CStr} :
    isMac s ↔ s.val.length = 17 ∧ ∀ i (h : i < s.val.length), macByteOk i (s.val.get ⟨i, h⟩) := by
  rw [isMac, Bool.and_eq_true, decide_eq_true_eq, List.all_eq_true]
  refine and_congr_right fun _ => ?_
  constructor
  · intro h i hi
    exact h (s.val.get ⟨i, hi⟩, i) (List.mem_zipIdx_iff_getElem?.mpr (by simp))
  · rintro h ⟨c, i⟩ hmem
    obtain ⟨hi, hc⟩ := List.getElem?_eq_some_iff.mp (List.mem_zipIdx_iff_getElem?.mp hmem)
    have := h i hi
    rwa [List.get_eq_getElem, hc] at this

/-- Every identity is valid. -/
theorem daemonIdentityValid_identityOf (uniq : CStr) : daemonIdentityValid (identityOf uniq) := by
  unfold identityOf
  split_ifs with h
  · exact h
  · simp [daemonIdentityValid]

/-- A MAC has a colon. -/
theorem colon_mem_of_isMac {s : CStr} (h : isMac s = true) : (0x3A : UInt8) ∈ s.val := by
  obtain ⟨hlen, hbytes⟩ := isMac_iff.mp h
  have h2 := hbytes 2 (by omega)
  simp only [macByteOk, if_pos, beq_iff_eq] at h2
  exact h2 ▸ List.get_mem _ _

end Daemon
