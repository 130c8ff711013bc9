import LgMagic.Lib.WireFormat

/-!
# Replies on the wire

The bounded reader of the client, the header fields of a message and the three shapes of a reply
body. A message is at the start of the memory that is read; what lies behind it is whatever is there,
since a length at the very end of a slice is trusted. Part of `dbus_client.c`.

* `Mem`, `Rd`: the memory and the reader;
* `rdStr`, `rdValue`: strings and bodies;
* `parseField`, `scanFields`, `parseHeaderFields`: the header.
-/

namespace DBus

open CString WireFormat

/-! ## The reader -/

/-- The memory from the start of a message on. -/
abbrev Mem := ℕ → UInt8

/-- A message in a buffer, and what lies behind it. -/
def buffer (msg : Bytes) (heap : Mem) : Mem := fun i => msg.getD i (heap i)

/-- `struct rd`: positions from the start of the message; an error ends the reading. -/
structure Rd where
  p : ℕ
  stop : ℕ
  off : ℕ
  deriving DecidableEq

/-- Some bytes of the memory. -/
def slice (mem : Mem) (p n : ℕ) : Bytes := (List.range n).map fun i => mem (p + i)

/-- The number in four bytes. -/
def u32At (mem : Mem) (p : ℕ) : ℕ := ofLe (slice mem p 4)

/-- `rd_u8` -/
def rdU8 (mem : Mem) (r : Rd) : Option (UInt8 × Rd) :=
  if r.stop < r.p + 1 then none else some (mem r.p, { r with p := r.p + 1, off := r.off + 1 })

/-- `rd_u32` -/
def rdU32 (mem : Mem) (r : Rd) : Option (ℕ × Rd) := do
  let (b₀, r) ← rdU8 mem r
  let (b₁, r) ← rdU8 mem r
  let (b₂, r) ← rdU8 mem r
  let (b₃, r) ← rdU8 mem r
  return (ofLe [b₀, b₁, b₂, b₃], r)

/-- `rd_pad` from the start of the slice; it stops at the end. -/
def rdPad (align : ℕ) (r : Rd) : Rd :=
  let k := min (padLen align r.off) (r.stop - r.p)
  { r with p := r.p + k, off := r.off + k }

/-- `rd_str`; the subtraction and the sum are those of `uint32_t`. -/
def rdStr (mem : Mem) (r : Rd) : Option (CStr × Rd) := do
  let (len, r) ← rdU32 mem r
  if (r.stop - r.p + (2 ^ 32 - 1)) % 2 ^ 32 < len then none
  else if mem (r.p + len) ≠ 0 then none
  else
    let s := CStr.ofBuffer (slice mem r.p len)
    let n := (len + 1) % 2 ^ 32
    return (s, rdPad 4 { r with p := r.p + n, off := r.off + n })

/-! ## Bodies -/

/-- `struct dbus_value`, of the types of replies. -/
inductive ReplyValue
  | empty
  | string (s : CStr)
  | stringArray (items : List CStr)
  | variant (sig : CStr) (s : CStr)
  deriving DecidableEq

/-- The strings of an array, to the end of its slice. -/
def rdStrings (mem : Mem) : ℕ → Rd → Option (List CStr × Rd)
  | 0, r => some ([], r)
  | n + 1, r =>
    if r.stop ≤ r.p then some ([], r)
    else do
      let (s, r) ← rdStr mem r
      let (ss, r) ← rdStrings mem n r
      return (s :: ss, r)

/-- The signature of a string. -/
def stringSig : CStr := .lit "s"

/-- `rd_value` for an array of strings; every string takes up some of its bytes. -/
def rdArray (mem : Mem) (r : Rd) : Option (ReplyValue × Rd) := do
  let (alen, r) ← rdU32 mem (rdPad 4 r)
  if (r.stop - r.p) % 2 ^ 32 < alen then none
  else
    let (items, ar) ← rdStrings mem alen ⟨r.p, r.p + alen, 0⟩
    return (.stringArray items, { r with p := ar.p, off := r.off + alen })

/-- `rd_value` for a variant, which holds a string. -/
def rdVariant (mem : Mem) (r : Rd) : Option (ReplyValue × Rd) := do
  let (slen, r) ← rdU8 mem r
  let slen := slen.toNat
  if slen = 0 ∨ 17 ≤ slen then none
  else if r.stop < r.p + slen + 1 then none
  else
    let inner := CStr.ofBuffer (slice mem r.p slen)
    let (_, r) ← rdU8 mem { r with p := r.p + slen, off := r.off + slen }
    if inner ≠ stringSig then none
    else
      let (s, r) ← rdStr mem (rdPad 4 r)
      return (.variant inner s, r)

/-- `rd_value` -/
def rdValue (mem : Mem) (r : Rd) (sig : CStr) : Option (ReplyValue × Rd) :=
  if sig = stringSig then do
    let (s, r) ← rdStr mem (rdPad 4 r)
    return (.string s, r)
  else if sig = .lit "as" then rdArray mem r
  else if sig = .lit "v" then rdVariant mem r
  else none

/-! ## Header fields -/

/-- A number in the fixed header. -/
def fixedU32 (fixed : Bytes) (i : ℕ) : ℕ := ofLe ((fixed.drop i).take 4)

/-- `while ((size_t)(fp - msg) % align && fp < fend) fp++` -/
def skipPad (align fend fp : ℕ) : ℕ := fp + min (padLen align fp) (fend - fp)

/-- The value of a header field of the type `fsig`; the first subtraction is one of `size_t`. -/
def parseFieldValue (mem : Mem) (fend : ℕ) (fsig : UInt8) (fp : ℕ) : Option (Value × ℕ) :=
  if fsig = 0x73 ∨ fsig = 0x6F then
    if fend < fp + 4 then none
    else
      let len := u32At mem fp
      let fp := fp + 4
      if (fend - fp + (2 ^ 64 - 1)) % 2 ^ 64 < len then none
      else if mem (fp + len) ≠ 0 then none
      else
        let s := CStr.ofBuffer (slice mem fp len)
        some (if fsig = 0x73 then .str s else .path s, skipPad 4 fend (fp + (len + 1) % 2 ^ 32))
  else if fsig = 0x75 then
    if fend < fp + 4 then none else some (.u32 (.ofNat (u32At mem fp)), fp + 4)
  else if fsig = 0x67 then
    if fend < fp + 1 then none
    else
      let slen := (mem fp).toNat
      let fp := fp + 1
      if fend < fp + slen + 1 then none
      else some (.sig (CStr.ofBuffer (slice mem fp slen)), fp + (slen + 1))
  else none

/-- One header field. -/
def parseField (mem : Mem) (fend fp : ℕ) : Option (HeaderField × ℕ) :=
  let fp := skipPad 8 fend fp
  if fend < fp + 4 then none
  else
    let code := mem fp
    let fsig := mem (fp + 2)
    if mem (fp + 1) ≠ 1 ∨ mem (fp + 3) ≠ 0 then none
    else
      let fp := fp + 4
      let fp := if fsig = 0x73 ∨ fsig = 0x6F ∨ fsig = 0x75 then skipPad 4 fend fp else fp
      (parseFieldValue mem fend fsig fp).map fun (v, fp) => (⟨code, v⟩, fp)

/-- The loop over the header fields, at most so many of them. -/
def scanFields (mem : Mem) (fend : ℕ) : ℕ → ℕ → Option (List HeaderField × ℕ)
  | 0, fp => some ([], fp)
  | n + 1, fp =>
    if fp < fend then do
      let (f, fp) ← parseField mem fend fp
      let (fs, fp) ← scanFields mem fend n fp
      return (f :: fs, fp)
    else some ([], fp)

/-- What is kept of the header of a reply. -/
structure ReplyHeader where
  errorName : Option CStr
  sig : Option CStr
  replySerial : UInt32
  deriving DecidableEq

/-- What a header field leaves behind. -/
def keepField (h : ReplyHeader) (f : HeaderField) : ReplyHeader :=
  match f.value with
  | .str s | .path s =>
    if f.code = 4 then { h with errorName := some s }
    else if f.code = 8 then { h with sig := some s }
    else h
  | .u32 n => if f.code = 5 then { h with replySerial := n } else h
  | .sig s => if f.code = 8 then { h with sig := some s } else h
  | .f64 _ => h

/-- The header fields of a message; every one of them takes up some bytes. -/
def headerFields (mem : Mem) (msglen fieldsLen : ℕ) : Option (List HeaderField) :=
  match scanFields mem (16 + fieldsLen) fieldsLen 16 with
  | some (fs, fp) => if msglen < fp then none else some fs
  | none => none

/-- `parse_header_fields` -/
def parseHeaderFields (mem : Mem) (msglen fieldsLen : ℕ) : Option ReplyHeader :=
  (headerFields mem msglen fieldsLen).map fun fs => fs.foldl keepField ⟨none, none, 0⟩

end DBus
