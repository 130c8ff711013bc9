import Mathlib.Data.List.Basic
import Mathlib.Data.List.TakeWhile

/-!
# C strings

Byte strings as C programs handle them: a buffer is a list of bytes, a C string is a buffer without
the terminator byte inside. The character classes are those of the C locale.
-/

/-- A buffer of bytes. -/
abbrev Bytes := List UInt8

namespace CString

/-- The bytes of an ASCII literal. -/
def ascii (s : String) : Bytes := s.toList.map fun c => UInt8.ofNat c.toNat

/-- `isdigit`. -/
def isDigit (c : UInt8) : Bool := 0x30 ≤ c && c ≤ 0x39

/-- `isalnum`. -/
def isAlnum (c : UInt8) : Bool :=
  isDigit c || (0x41 ≤ c && c ≤ 0x5A) || (0x61 ≤ c && c ≤ 0x7A)

/-- `isxdigit`. -/
def isXdigit (c : UInt8) : Bool :=
  isDigit c || (0x41 ≤ c && c ≤ 0x46) || (0x61 ≤ c && c ≤ 0x66)

/-- `isspace`. -/
def isSpace (c : UInt8) : Bool := c == 0x20 || (0x09 ≤ c && c ≤ 0x0D)

/-- A digit is alphanumeric. -/
theorem isAlnum_of_isDigit {c : UInt8} (h : isDigit c = true) : isAlnum c = true := by
  simp [isAlnum, h]

/-- No terminator is among the bytes. -/
def nulFree (b : Bytes) : Bool := b.all (· != 0)

theorem notMem_of_nulFree {b : Bytes} (h : nulFree b = true) : (0 : UInt8) ∉ b := by
  intro hmem
  simpa using List.all_eq_true.mp h 0 hmem

end CString

/-- A C string: bytes up to, and not including, the terminator. -/
abbrev CStr := { s : Bytes // (0 : UInt8) ∉ s }

namespace CStr

/-- The C string at the start of a buffer: everything before the first NUL. -/
def ofBuffer (b : Bytes) : CStr :=
  ⟨b.takeWhile (· != 0), fun h => by simpa using List.mem_takeWhile_imp h⟩

/-- A literal. -/
def lit (s : String) (h : CString.nulFree (CString.ascii s) = true := by exact Eq.refl true) :
    CStr :=
  ⟨CString.ascii s, CString.notMem_of_nulFree h⟩

/-- The empty string. -/
def empty : CStr := ⟨[], by simp⟩

/-- Concatenation. -/
def append (a b : CStr) : CStr := ⟨a.val ++ b.val, by simp [a.property, b.property]⟩

instance : Append CStr := ⟨append⟩

/-- What `snprintf` leaves of a text in a buffer of a size. -/
def snprintf (size : ℕ) (s : CStr) : CStr :=
  ⟨s.val.take (size - 1), fun h => s.property (List.mem_of_mem_take h)⟩

theorem snprintf_of_lt {size : ℕ} {s : CStr} (h : s.val.length < size) : snprintf size s = s :=
  Subtype.ext (List.take_of_length_le (by omega))

@[simp] theorem append_val (a b : CStr) : (a ++ b).val = a.val ++ b.val := rfl

/-- A buffer without a NUL holds exactly its bytes. -/
theorem val_ofBuffer {b : Bytes} (h : (0 : UInt8) ∉ b) : (ofBuffer b).val = b := by
  refine List.takeWhile_eq_self_iff.mpr fun c hc => ?_
  simpa using fun h0 : c = 0 => h (h0 ▸ hc)

@[simp]
theorem ofBuffer_val (s : CStr) : ofBuffer s.val = s := Subtype.ext (val_ofBuffer s.property)

end CStr
