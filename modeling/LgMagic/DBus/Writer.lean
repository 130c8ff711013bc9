import LgMagic.Lib.WireFormat

/-!
# Method calls on the wire

The byte writer of the client and the marshaling of a method call. The writer grows its buffer as it
goes; once an allocation fails nothing more is written, and a loop that pads an unaligned buffer then
never ends. Part of `dbus_client.c`.

* `Wb`, `wbPut`, `wbPad`, `wbStr`, `wbSig`: the writer;
* `Arg`, `bodyAddArg`, `hdrField`: arguments and header fields;
* `buildCall`: the message of a call.
-/

namespace DBus

open CString WireFormat

/-! ## The writer -/

/-- `struct wb`, and whether a loop was entered that does not end. -/
structure Wb where
  b : Bytes
  cap : ℕ
  /-- The length before the most recent padding. -/
  nodepad : ℕ
  oom : Bool
  stuck : Bool

/-- A writer with nothing in it. -/
def Wb.zero : Wb := ⟨[], 0, 0, false, false⟩

/-- Whether `realloc` to a capacity succeeds. -/
abbrev Realloc := ℕ → Bool

/-- `while (ncap < need) ncap *= 2`, at most so many times. -/
def growTo (need : ℕ) : ℕ → ℕ → ℕ
  | 0, ncap => ncap
  | k + 1, ncap => if ncap < need then growTo need k (ncap * 2) else ncap

/-- `wb_put` -/
def wbPut (mem : Realloc) (p : Bytes) (w : Wb) : Wb :=
  let need := w.b.length + p.length
  if w.oom then w
  else if w.cap < need then
    let ncap := growTo need need (if w.cap = 0 then 128 else w.cap)
    if mem ncap then { w with b := w.b ++ p, cap := ncap, nodepad := need }
    else { w with oom := true }
  else { w with b := w.b ++ p, nodepad := need }

/-- `wb_u8` -/
def wbU8 (mem : Realloc) (v : UInt8) : Wb → Wb := wbPut mem [v]

/-- `wb_u32` -/
def wbU32 (mem : Realloc) (v : UInt32) : Wb → Wb :=
  wbPut mem [v.toUInt8, (v >>> 8).toUInt8, (v >>> 16).toUInt8, (v >>> 24).toUInt8]

/-- `wb_u64` -/
def wbU64 (mem : Realloc) (v : UInt64) : Wb → Wb :=
  wbPut mem [v.toUInt8, (v >>> 8).toUInt8, (v >>> 16).toUInt8, (v >>> 24).toUInt8,
    (v >>> 32).toUInt8, (v >>> 40).toUInt8, (v >>> 48).toUInt8, (v >>> 56).toUInt8]

/-- `while (w->n % align) wb_u8(w, 0)`; a write that fails leaves the length as it is. -/
def padLoop (mem : Realloc) (align : ℕ) : ℕ → Wb → Wb
  | 0, w => w
  | k + 1, w =>
    if w.b.length % align = 0 then w
    else
      let w := wbU8 mem 0 w
      if w.oom then { w with stuck := true } else padLoop mem align k w

/-- `wb_pad` -/
def wbPad (mem : Realloc) (align : ℕ) (w : Wb) : Wb :=
  { padLoop mem align align w with nodepad := w.b.length }

/-- `wb_str` -/
def wbStr (mem : Realloc) (s : CStr) (w : Wb) : Wb :=
  if 0x0fffffff < s.val.length then { w with oom := true }
  else
    let w := wbU32 mem (.ofNat s.val.length) w
    let w := wbPut mem s.val w
    let w := wbU8 mem 0 w
    wbPad mem 4 w

/-- `wb_sig` -/
def wbSig (mem : Realloc) (sig : CStr) (w : Wb) : Wb :=
  if 255 < sig.val.length then { w with oom := true }
  else
    let w := wbU8 mem (.ofNat sig.val.length) w
    let w := wbPut mem sig.val w
    wbU8 mem 0 w

/-! ## Method calls -/

/-- `struct dbus_arg`, by its type; a double is given by its bits. -/
inductive Arg
  | s (s : CStr)
  | d (bits : UInt64)
  | u (u : UInt32)
  | other (type : UInt8)
  deriving DecidableEq

/-- `body_add_arg`; after a loop that does not end no type is looked at any more. -/
def bodyAddArg (mem : Realloc) (w : Wb) : Arg → Option Wb
  | .s s => some (wbStr mem s (wbPad mem 4 w))
  | .d bits => some (wbU64 mem bits (wbPad mem 8 w))
  | .u u => some (wbU32 mem u (wbPad mem 4 w))
  | .other _ => if w.stuck then some w else none

/-- `hdr_field` -/
def hdrField (mem : Realloc) (code sig : UInt8) (val : CStr → Wb → Wb) (data : CStr) (w : Wb) : Wb :=
  let w := wbPad mem 8 w
  let w := wbU8 mem code w
  let w := wbU8 mem 1 w
  let w := wbU8 mem sig w
  let w := wbU8 mem 0 w
  let w := if sig = 0x6F ∨ sig = 0x73 ∨ sig = 0x75 then wbPad mem 4 w else w
  val data w

/-- `MAX_MESSAGE` -/
def maxMessage : ℕ := 2 ^ 20

/-- What the allocator does during a call. -/
structure Memory where
  hdr : Realloc
  body : Realloc
  /-- The buffer of the message. -/
  msg : Bool

/-- Every allocation succeeds. -/
def Memory.ample : Memory := ⟨fun _ => true, fun _ => true, true⟩

/-- What becomes of `build_call`. -/
inductive Built
  | message (msg : Bytes)
  | failed
  /-- A loop that never ends. -/
  | hangs
  /-- A write through a null pointer. -/
  | crashes
  deriving DecidableEq

/-- The arguments, one for each byte of the signature. -/
def bodyOf (mem : Realloc) (args : List Arg) : Option Wb := args.foldlM (bodyAddArg mem) .zero

/-- Put a number in place of four bytes. -/
def patchU32 (b : Bytes) (pos n : ℕ) : Bytes :=
  b.take pos ++ [.ofNat n, .ofNat (n >>> 8), .ofNat (n >>> 16), .ofNat (n >>> 24)] ++ b.drop (pos + 4)

/-- The fixed header up to the length of the header fields. -/
def headerStart (mem : Realloc) (bodyLen serial : UInt32) : Wb :=
  let hdr := wbU8 mem 0x6C .zero
  let hdr := wbU8 mem 1 hdr
  let hdr := wbU8 mem 0 hdr
  let hdr := wbU8 mem 1 hdr
  let hdr := wbU32 mem bodyLen hdr
  wbU32 mem serial hdr

/-- The header fields, after a length that is put in later. -/
def headerFieldsOf (mem : Realloc) (dest path iface member sig : CStr) (hdr : Wb) : Wb :=
  let hdr := wbU32 mem 0 hdr
  let hdr := hdrField mem 1 0x6F (wbStr mem) path hdr
  let hdr := hdrField mem 2 0x73 (wbStr mem) iface hdr
  let hdr := hdrField mem 3 0x73 (wbStr mem) member hdr
  let hdr := hdrField mem 6 0x73 (wbStr mem) dest hdr
  if sig = .empty then hdr else hdrField mem 8 0x67 (wbSig mem) sig hdr

/-- The end of `build_call`: the length of the fields, the padding and the body. -/
def finishCall (mem : Memory) (fieldsPos : ℕ) (hdr body : Wb) : Built :=
  if body.stuck then .hangs
  else if hdr.cap = 0 then .crashes
  else
    let hdr := { hdr with b := patchU32 hdr.b fieldsPos (hdr.nodepad - fieldsPos - 4) }
    let hdr := wbPad mem.hdr 8 hdr
    if hdr.stuck then .hangs
    else if hdr.oom ∨ body.oom ∨ hdr.b.length + body.nodepad > maxMessage ∨ ¬ mem.msg then .failed
    else .message (hdr.b ++ body.b.take body.nodepad)

/-- `build_call` -/
def buildCall (mem : Memory) (serial : UInt32) (dest path iface member sig : CStr)
    (args : List Arg) : Built :=
  match bodyOf mem.body (args.take sig.val.length) with
  | none => .failed
  | some body =>
    let start := headerStart mem.hdr (.ofNat body.nodepad) serial
    finishCall mem start.b.length (headerFieldsOf mem.hdr dest path iface member sig start) body

end DBus
