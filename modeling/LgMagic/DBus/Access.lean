import LgMagic.DBus.Call
import LgMagic.DBus.Scan
import LgMagic.Lib.Traced

/-!
# What the readers look at

The readers of the client once more, with every byte of the memory that they look at and the slice
that they were given.

* `Access`, `Reading`: bytes that are looked at, and readers with their traces;
* `Reading.rdStr`, `Reading.rdValue`, `Reading.parseHeaderFields`, `Reading.answer`: the readers;
* `value_rdValue`, `value_parseHeaderFields`, `value_answer`: their results are those of the client.
-/

namespace DBus

open CString WireFormat Traced

/-! ## Strings after their length -/

/-- `rd_str` after the length. -/
def rdText (mem : Mem) (len : ℕ) (r : Rd) : Option (CStr × Rd) :=
  if (r.stop - r.p + (2 ^ 32 - 1)) % 2 ^ 32 < len then none
  else if mem (r.p + len) ≠ 0 then none
  else
    let s := CStr.ofBuffer (slice mem r.p len)
    let n := (len + 1) % 2 ^ 32
    some (s, rdPad 4 { r with p := r.p + n, off := r.off + n })

theorem rdStr_eq (mem : Mem) (r : Rd) :
    rdStr mem r = (rdU32 mem r).bind fun q => rdText mem q.1 q.2 := by
  rw [rdStr]
  rfl

/-! ## Readers with their traces -/

/-- The bytes from `start` to `stop`. -/
structure Span where
  start : ℕ
  stop : ℕ
  deriving DecidableEq

/-- A byte that is looked at, and the slice of the reader that does so. -/
structure Access where
  span : Span
  index : ℕ
  deriving DecidableEq

/-- The byte is in the slice. -/
def Access.Within (a : Access) : Prop := a.span.start ≤ a.index ∧ a.index < a.span.stop

instance : DecidablePred Access.Within := fun a => by unfold Access.Within; infer_instance

/-- What a reader is given. -/
def Rd.span (r : Rd) : Span := ⟨r.p, r.stop⟩

/-- A reader with its trace. -/
abbrev Reading := Traced Access

namespace Reading

/-- `p[i]` -/
def get (mem : Mem) (s : Span) (i : ℕ) : Reading UInt8 := do
  touch [⟨s, i⟩]
  return mem i

/-- `memcpy` from the slice, or its bytes one by one. -/
def copy (mem : Mem) (s : Span) (p n : ℕ) : Reading Bytes := do
  touch ((List.range n).map fun i => ⟨s, p + i⟩)
  return slice mem p n

/-- `rd_u8` -/
def rdU8 (mem : Mem) (r : Rd) : Reading (UInt8 × Rd) :=
  if r.stop < r.p + 1 then fail
  else do
    let b ← get mem r.span r.p
    return (b, { r with p := r.p + 1, off := r.off + 1 })

/-- `rd_u32` -/
def rdU32 (mem : Mem) (r : Rd) : Reading (ℕ × Rd) := do
  let (b₀, r) ← rdU8 mem r
  let (b₁, r) ← rdU8 mem r
  let (b₂, r) ← rdU8 mem r
  let (b₃, r) ← rdU8 mem r
  return (ofLe [b₀, b₁, b₂, b₃], r)

/-- So many calls of `rd_u8`. -/
def rdSkip (mem : Mem) : ℕ → Rd → Reading Rd
  | 0, r => return r
  | n + 1, r => do
    let (_, r) ← rdU8 mem r
    rdSkip mem n r

/-- `rd_pad` -/
def rdPad (mem : Mem) (align : ℕ) (r : Rd) : Reading Rd :=
  rdSkip mem (min (padLen align r.off) (r.stop - r.p)) r

/-- `rd_str` after the length. -/
def rdText (mem : Mem) (s : Span) (len : ℕ) (r : Rd) : Reading (CStr × Rd) :=
  if (r.stop - r.p + (2 ^ 32 - 1)) % 2 ^ 32 < len then fail
  else do
    let nul ← get mem s (r.p + len)
    if nul ≠ 0 then fail
    else
      let text ← copy mem s r.p len
      let n := (len + 1) % 2 ^ 32
      let r ← rdPad mem 4 { r with p := r.p + n, off := r.off + n }
      return (CStr.ofBuffer text, r)

/-- `rd_str` -/
def rdStr (mem : Mem) (r : Rd) : Reading (CStr × Rd) := do
  let q ← rdU32 mem r
  rdText mem r.span q.1 q.2

/-- The strings of an array, to the end of its slice. -/
def rdStrings (mem : Mem) : ℕ → Rd → Reading (List CStr × Rd) :=
  collect (fun r => r.p < r.stop) (rdStr mem)

/-- `rd_value` for an array of strings. -/
def rdArray (mem : Mem) (r : Rd) : Reading (ReplyValue × Rd) := do
  let r ← rdPad mem 4 r
  let (alen, r) ← rdU32 mem r
  if (r.stop - r.p) % 2 ^ 32 < alen then fail
  else
    let (items, ar) ← rdStrings mem alen ⟨r.p, r.p + alen, 0⟩
    return (.stringArray items, { r with p := ar.p, off := r.off + alen })

/-- `rd_value` for a variant, which holds a string. -/
def rdVariant (mem : Mem) (r : Rd) : Reading (ReplyValue × Rd) := do
  let s := r.span
  let (slen, r) ← rdU8 mem r
  let slen := slen.toNat
  if slen = 0 ∨ 17 ≤ slen then fail
  else if r.stop < r.p + slen + 1 then fail
  else
    let inner ← copy mem s r.p slen
    let (_, r) ← rdU8 mem { r with p := r.p + slen, off := r.off + slen }
    if CStr.ofBuffer inner ≠ stringSig then fail
    else
      let r ← rdPad mem 4 r
      let (s, r) ← rdStr mem r
      return (.variant (CStr.ofBuffer inner) s, r)

/-- `rd_value` -/
def rdValue (mem : Mem) (r : Rd) (sig : CStr) : Reading (ReplyValue × Rd) :=
  if sig = stringSig then do
    let r ← rdPad mem 4 r
    let (s, r) ← rdStr mem r
    return (.string s, r)
  else if sig = .lit "as" then rdArray mem r
  else if sig = .lit "v" then rdVariant mem r
  else fail

/-- The value of a header field; only a text that is kept is copied. -/
def parseFieldValue (mem : Mem) (s : Span) (code fsig : UInt8) (fp : ℕ) : Reading (Value × ℕ) :=
  if fsig = 0x73 ∨ fsig = 0x6F then
    if s.stop < fp + 4 then fail
    else do
      let len := ofLe (← copy mem s fp 4)
      let fp := fp + 4
      if (s.stop - fp + (2 ^ 64 - 1)) % 2 ^ 64 < len then fail
      else
        let nul ← get mem s (fp + len)
        if nul ≠ 0 then fail
        else
          if code = 4 ∨ code = 8 then
            let _ ← copy mem s fp len
          let text := CStr.ofBuffer (slice mem fp len)
          return (if fsig = 0x73 then .str text else .path text,
            skipPad 4 s.stop (fp + (len + 1) % 2 ^ 32))
  else if fsig = 0x75 then
    if s.stop < fp + 4 then fail
    else do
      if code = 5 then
        let _ ← copy mem s fp 4
      return (.u32 (.ofNat (u32At mem fp)), fp + 4)
  else if fsig = 0x67 then
    if s.stop < fp + 1 then fail
    else do
      let slen := (← get mem s fp).toNat
      let fp := fp + 1
      if s.stop < fp + slen + 1 then fail
      else
        if code = 8 then
          let _ ← copy mem s fp slen
        return (.sig (CStr.ofBuffer (slice mem fp slen)), fp + (slen + 1))
  else fail

/-- One header field. -/
def parseField (mem : Mem) (s : Span) (fp : ℕ) : Reading (HeaderField × ℕ) :=
  let fp := skipPad 8 s.stop fp
  if s.stop < fp + 4 then fail
  else do
    let code ← get mem s fp
    let slen ← get mem s (fp + 1)
    if slen ≠ 1 then fail
    else
      let fsig ← get mem s (fp + 2)
      let nul ← get mem s (fp + 3)
      if nul ≠ 0 then fail
      else
        let fp := fp + 4
        let fp := if fsig = 0x73 ∨ fsig = 0x6F ∨ fsig = 0x75 then skipPad 4 s.stop fp else fp
        let (v, fp) ← parseFieldValue mem s code fsig fp
        return (⟨code, v⟩, fp)

/-- The loop over the header fields. -/
def scanFields (mem : Mem) (s : Span) : ℕ → ℕ → Reading (List HeaderField × ℕ) :=
  collect (fun fp => fp < s.stop) (parseField mem s)

/-- `parse_header_fields` -/
def parseHeaderFields (mem : Mem) (msglen fieldsLen : ℕ) : Reading ReplyHeader := do
  let (fs, fp) ← scanFields mem ⟨16, 16 + fieldsLen⟩ fieldsLen 16
  if msglen < fp then fail else return fs.foldl keepField ⟨none, none, 0⟩

/-- The string that is the whole body of an error. -/
def errorBody (mem : Mem) (f : Frame) : Reading (CStr × Rd) := do
  let r ← rdPad mem 4 ⟨f.bodyStart, f.msg.length, 0⟩
  rdStr mem r

/-- The body of a message that is no signal. -/
def answer (mem : Mem) (serial : UInt32) (f : Frame) : Reading (Outcome × Option CStr) :=
  if f.type = 3 then do
    match ← (errorBody mem f).attempt with
    | none => return (.failed .malformedErrorBody, none)
    | some (msg, r) =>
      if r.p ≠ r.stop then return (.failed .malformedErrorBody, some msg)
      else return (.remoteError (f.header.errorName.getD defaultErrorName) msg, some msg)
  else if f.type ≠ 2 then return (.failed (.unexpectedType f.type), none)
  else if f.header.replySerial ≠ serial then
    return (.failed (.serialMismatch f.header.replySerial serial), none)
  else
    match f.header.sig with
    | none => return (.reply .empty, none)
    | some sig =>
      if sig = .empty then return (.reply .empty, none)
      else do
        match ← (rdValue mem ⟨f.bodyStart, f.msg.length, 0⟩ sig).attempt with
        | none => return (.failed (.unreadableBody sig), none)
        | some (v, r) => return (if r.p ≠ r.stop then .failed (.unreadableBody sig) else .reply v, none)

/-! ## Their results -/

variable {mem : Mem}

@[simp] theorem value_get (s : Span) (i : ℕ) : (get mem s i).value = some (mem i) := rfl

@[simp] theorem value_copy (s : Span) (p n : ℕ) : (copy mem s p n).value = some (slice mem p n) := rfl

@[simp] theorem value_rdU8 (r : Rd) : (rdU8 mem r).value = DBus.rdU8 mem r := by
  rw [rdU8, DBus.rdU8]
  split_ifs <;> rfl

@[simp] theorem value_rdU32 (r : Rd) : (rdU32 mem r).value = DBus.rdU32 mem r := by
  simp only [rdU32, DBus.rdU32, value_bind, value_rdU8, value_pure]
  rfl

/-- By induction on the bytes that are skipped. -/
theorem value_rdSkip {n : ℕ} {r : Rd} (h : n ≤ r.stop - r.p) :
    (rdSkip mem n r).value = some { r with p := r.p + n, off := r.off + n } := by
  induction n generalizing r with
  | zero => rfl
  | succ n ih =>
    have hnext : DBus.rdU8 mem r = some (mem r.p, { r with p := r.p + 1, off := r.off + 1 }) :=
      if_neg (by omega)
    rw [rdSkip, value_bind, value_rdU8, hnext, Option.bind_some, ih (by dsimp only; omega)]
    simp only [Nat.add_assoc, Nat.add_comm 1 n]

@[simp] theorem value_rdPad (align : ℕ) (r : Rd) :
    (rdPad mem align r).value = some (DBus.rdPad align r) :=
  value_rdSkip (Nat.min_le_right _ _)

theorem value_rdText (s : Span) (len : ℕ) (r : Rd) :
    (rdText mem s len r).value = DBus.rdText mem len r := by
  rw [rdText, DBus.rdText]
  by_cases hlong : (r.stop - r.p + (2 ^ 32 - 1)) % 2 ^ 32 < len
  · rw [if_pos hlong, if_pos hlong]
    rfl
  rw [if_neg hlong, if_neg hlong, value_bind, value_get, Option.bind_some]
  by_cases hnul : mem (r.p + len) ≠ 0
  · rw [if_pos hnul, if_pos hnul]
    rfl
  rw [if_neg hnul, if_neg hnul, value_bind, value_copy, Option.bind_some, value_bind, value_rdPad]
  rfl

@[simp] theorem value_rdStr (r : Rd) : (rdStr mem r).value = DBus.rdStr mem r := by
  rw [rdStr, rdStr_eq, value_bind, value_rdU32]
  exact Option.bind_congr fun q _ => value_rdText r.span q.1 q.2

@[simp] theorem value_rdStrings (n : ℕ) (r : Rd) :
    (rdStrings mem n r).value = DBus.rdStrings mem n r := by
  refine value_collect (fun _ => rfl) (fun n r => ?_) n r
  rw [DBus.rdStrings, value_rdStr]
  by_cases h : r.p < r.stop
  · rw [if_neg (Nat.not_le.mpr h), if_pos h]
    rfl
  · rw [if_pos (Nat.le_of_not_lt h), if_neg h]

@[simp] theorem value_rdArray (r : Rd) : (rdArray mem r).value = DBus.rdArray mem r := by
  rw [rdArray, DBus.rdArray, value_bind, value_rdPad, Option.bind_some, value_bind, value_rdU32]
  refine Option.bind_congr fun ⟨alen, r⟩ _ => ?_
  dsimp only
  split_ifs
  · rfl
  · rw [value_bind, value_rdStrings]
    rfl

@[simp] theorem value_rdVariant (r : Rd) : (rdVariant mem r).value = DBus.rdVariant mem r := by
  rw [rdVariant, DBus.rdVariant, value_bind, value_rdU8]
  refine Option.bind_congr fun ⟨slen, r⟩ _ => ?_
  dsimp only
  by_cases hslen : slen.toNat = 0 ∨ 17 ≤ slen.toNat
  · rw [if_pos hslen, if_pos hslen]
    rfl
  by_cases hshort : r.stop < r.p + slen.toNat + 1
  · rw [if_neg hslen, if_neg hslen, if_pos hshort, if_pos hshort]
    rfl
  rw [if_neg hslen, if_neg hslen, if_neg hshort, if_neg hshort, value_bind, value_copy,
    Option.bind_some, value_bind, value_rdU8]
  refine Option.bind_congr fun ⟨_, r⟩ _ => ?_
  dsimp only
  split_ifs
  · rfl
  · rw [value_bind, value_rdPad, Option.bind_some, value_bind, value_rdStr]
    rfl

/-- `rd_value` with its trace gives what it gives. -/
@[simp] theorem value_rdValue (r : Rd) (sig : CStr) :
    (rdValue mem r sig).value = DBus.rdValue mem r sig := by
  rw [rdValue, DBus.rdValue]
  split_ifs
  · rw [value_bind, value_rdPad, Option.bind_some, value_bind, value_rdStr]
    rfl
  · exact value_rdArray r
  · exact value_rdVariant r
  · rfl

theorem value_parseFieldValue (s : Span) (code fsig : UInt8) (fp : ℕ) :
    (parseFieldValue mem s code fsig fp).value = DBus.parseFieldValue mem s.stop fsig fp := by
  rw [parseFieldValue, DBus.parseFieldValue]
  -- a string or an object path
  by_cases hstr : fsig = 0x73 ∨ fsig = 0x6F
  · rw [if_pos hstr, if_pos hstr]
    by_cases hshort : s.stop < fp + 4
    · rw [if_pos hshort, if_pos hshort]
      rfl
    rw [if_neg hshort, if_neg hshort, value_bind, value_copy, Option.bind_some, ← u32At]
    by_cases hlong : (s.stop - (fp + 4) + (2 ^ 64 - 1)) % 2 ^ 64 < u32At mem fp
    · rw [if_pos hlong, if_pos hlong]
      rfl
    rw [if_neg hlong, if_neg hlong, value_bind, value_get, Option.bind_some]
    by_cases hnul : mem (fp + 4 + u32At mem fp) ≠ 0
    · rw [if_pos hnul, if_pos hnul]
      rfl
    rw [if_neg hnul, if_neg hnul]
    by_cases hkept : code = 4 ∨ code = 8
    · rw [if_pos hkept]
      rfl
    · rw [if_neg hkept]
      rfl
  rw [if_neg hstr, if_neg hstr]
  -- a number
  by_cases hu32 : fsig = 0x75
  · rw [if_pos hu32, if_pos hu32]
    by_cases hshort : s.stop < fp + 4
    · rw [if_pos hshort, if_pos hshort]
      rfl
    rw [if_neg hshort, if_neg hshort]
    by_cases hkept : code = 5
    · rw [if_pos hkept]
      rfl
    · rw [if_neg hkept]
      rfl
  rw [if_neg hu32, if_neg hu32]
  -- a signature
  by_cases hsig : fsig = 0x67
  · rw [if_pos hsig, if_pos hsig]
    by_cases hshort : s.stop < fp + 1
    · rw [if_pos hshort, if_pos hshort]
      rfl
    rw [if_neg hshort, if_neg hshort, value_bind, value_get, Option.bind_some]
    by_cases hlong : s.stop < fp + 1 + (mem fp).toNat + 1
    · rw [if_pos hlong, if_pos hlong]
      rfl
    rw [if_neg hlong, if_neg hlong]
    by_cases hkept : code = 8
    · rw [if_pos hkept]
      rfl
    · rw [if_neg hkept]
      rfl
  rw [if_neg hsig, if_neg hsig]
  rfl

theorem value_parseField (s : Span) (fp : ℕ) :
    (parseField mem s fp).value = DBus.parseField mem s.stop fp := by
  rw [parseField, DBus.parseField]
  dsimp only
  by_cases hshort : s.stop < skipPad 8 s.stop fp + 4
  · rw [if_pos hshort, if_pos hshort]
    rfl
  rw [if_neg hshort, if_neg hshort, value_bind, value_get, Option.bind_some, value_bind, value_get,
    Option.bind_some]
  by_cases hone : mem (skipPad 8 s.stop fp + 1) ≠ 1
  · rw [if_pos hone, if_pos (.inl hone)]
    rfl
  rw [if_neg hone, value_bind, value_get, Option.bind_some, value_bind, value_get, Option.bind_some]
  by_cases hnul : mem (skipPad 8 s.stop fp + 3) ≠ 0
  · rw [if_pos hnul, if_pos (.inr hnul)]
    rfl
  rw [if_neg hnul, if_neg (not_or.mpr ⟨hone, hnul⟩), value_bind, value_parseFieldValue]
  exact Option.map_eq_bind.symm

theorem value_scanFields (s : Span) (n fp : ℕ) :
    (scanFields mem s n fp).value = DBus.scanFields mem s.stop n fp := by
  refine value_collect (fun _ => rfl) (fun n fp => ?_) n fp
  rw [DBus.scanFields, value_parseField]
  rfl

/-- `parse_header_fields` with its trace gives what it gives. -/
theorem value_parseHeaderFields (msglen fieldsLen : ℕ) :
    (parseHeaderFields mem msglen fieldsLen).value = DBus.parseHeaderFields mem msglen fieldsLen := by
  rw [parseHeaderFields, DBus.parseHeaderFields, headerFields, value_bind, value_scanFields]
  cases DBus.scanFields mem (16 + fieldsLen) fieldsLen 16 with
  | none => rfl
  | some q =>
    dsimp only [Option.bind_some]
    split_ifs <;> rfl

theorem value_errorBody (f : Frame) : (errorBody mem f).value = f.errorBody mem := by
  rw [errorBody, Frame.errorBody, value_bind, value_rdPad, Option.bind_some, value_rdStr]

/-- A message that is no signal comes to what it comes to. -/
theorem value_answer (serial : UInt32) (f : Frame) :
    (answer mem serial f).value = some (f.answer mem serial) := by
  rw [answer, Frame.answer]
  -- the branches of the two sides are the same ones
  by_cases herror : f.type = 3
  · rw [if_pos herror, if_pos herror, value_bind, value_attempt, value_errorBody, Option.bind_some]
    cases f.errorBody mem with
    | none => rfl
    | some q =>
      dsimp only
      split_ifs <;> rfl
  rw [if_neg herror, if_neg herror]
  by_cases hreturn : f.type ≠ 2
  · rw [if_pos hreturn, if_pos hreturn]
    rfl
  rw [if_neg hreturn, if_neg hreturn]
  by_cases hserial : f.header.replySerial ≠ serial
  · rw [if_pos hserial, if_pos hserial]
    rfl
  rw [if_neg hserial, if_neg hserial]
  cases f.header.sig with
  | none => rfl
  | some sig =>
    dsimp only
    by_cases hempty : sig = .empty
    · rw [if_pos hempty, if_pos hempty]
      rfl
    rw [if_neg hempty, if_neg hempty, value_bind, value_attempt, value_rdValue, Option.bind_some]
    cases DBus.rdValue mem ⟨f.bodyStart, f.msg.length, 0⟩ sig with
    | none => rfl
    | some q => rfl

end Reading

end DBus
