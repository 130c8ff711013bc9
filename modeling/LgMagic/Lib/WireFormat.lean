import LgMagic.Lib.CString
import Mathlib.Algebra.Order.Group.Nat

/-!
# The D-Bus wire format

Messages as the D-Bus specification lays them out, in the little-endian form: every value is aligned
to its size from the start of the message, padding is zero, and the length of an array does not count
what comes after its last element. A decoder reads back what was written.

* `le`, `ofLe`, `padLen`: numbers and alignment;
* `Value`, `marshal`, `marshalVariant`, `marshalSeq`: values;
* `HeaderField`, `Message.encode`: messages;
* `Decoder`, `Decodes`: decoders that know where they are, and what they read;
* `decodeMessage_encode`: a message is read back.
-/

namespace WireFormat

open CString

/-! ## Numbers and alignment -/

/-- A number in `k` bytes, the least significant first. -/
def le : ℕ → ℕ → Bytes
  | 0, _ => []
  | k + 1, n => UInt8.ofNat n :: le k (n / 256)

/-- The number that bytes stand for. -/
def ofLe : Bytes → ℕ
  | [] => 0
  | b :: bs => b.toNat + 256 * ofLe bs

@[simp]
theorem length_le (k n : ℕ) : (le k n).length = k := by
  induction k generalizing n with
  | zero => rfl
  | succ k ih => rw [le, List.length_cons, ih]

theorem ofLe_lt (bs : Bytes) : ofLe bs < 256 ^ bs.length := by
  induction bs with
  | nil => exact Nat.one_pos
  | cons b bs ih =>
    have hb := b.toNat_lt
    rw [ofLe, List.length_cons, pow_succ]
    omega

theorem ofLe_le (k n : ℕ) : ofLe (le k n) = n % 256 ^ k := by
  induction k generalizing n with
  | zero => simp [le, ofLe, Nat.mod_one]
  | succ k ih =>
    have hbyte : (UInt8.ofNat n).toNat = n % 256 := UInt8.toNat_ofNat'
    rw [le, ofLe, ih, hbyte, pow_succ', Nat.mod_mul]

/-- How far it is to the next multiple of `a`. -/
def padLen (a off : ℕ) : ℕ := (a - off % a) % a

theorem padLen_lt {a : ℕ} (ha : 0 < a) (off : ℕ) : padLen a off < a := Nat.mod_lt _ ha

@[simp] theorem padLen_one (off : ℕ) : padLen 1 off = 0 := Nat.mod_one _

/-- After the padding the offset is aligned. -/
theorem add_padLen_mod {a : ℕ} (ha : 0 < a) (off : ℕ) : (off + padLen a off) % a = 0 := by
  have hlt := Nat.mod_lt off ha
  rw [padLen, Nat.add_mod_mod, ← Nat.mod_add_mod]
  rw [show off % a + (a - off % a) = a by omega, Nat.mod_self]

theorem padLen_eq_zero {a off : ℕ} (h : off % a = 0) : padLen a off = 0 := by
  rw [padLen, h, Nat.sub_zero, Nat.mod_self]

/-- Zeros. -/
def zeros (n : ℕ) : Bytes := List.replicate n 0

@[simp] theorem length_zeros (n : ℕ) : (zeros n).length = n := List.length_replicate

/-! ## Values -/

/-- Values of the basic types; a double is given by its bits. -/
inductive Value
  | u32 (n : UInt32)
  | f64 (bits : UInt64)
  | str (s : CStr)
  | path (s : CStr)
  | sig (s : CStr)
  deriving DecidableEq

namespace Value

/-- The code of the type in signatures. -/
def code : Value → UInt8
  | u32 _ => 0x75
  | f64 _ => 0x64
  | str _ => 0x73
  | path _ => 0x6F
  | sig _ => 0x67

/-- The alignment of the type. -/
def align : Value → ℕ
  | u32 _ | str _ | path _ => 4
  | f64 _ => 8
  | sig _ => 1

/-- The bytes of an aligned value. -/
def raw : Value → Bytes
  | u32 n => le 4 n.toNat
  | f64 bits => le 8 bits.toNat
  | str s | path s => le 4 s.val.length ++ (s.val ++ [0])
  | sig s => le 1 s.val.length ++ (s.val ++ [0])

/-- The length of the text can be written. -/
def Fits : Value → Prop
  | u32 _ | f64 _ => True
  | str s | path s => s.val.length < 2 ^ 32
  | sig s => s.val.length < 2 ^ 8

end Value

/-- A value from an offset on. -/
def marshal (off : ℕ) (v : Value) : Bytes := zeros (padLen v.align off) ++ v.raw

/-- A value with its signature before it. -/
def marshalVariant (off : ℕ) (v : Value) : Bytes := [1, v.code, 0] ++ marshal (off + 3) v

/-- Things one after the other. -/
def marshalSeq {α : Type} (enc : ℕ → α → Bytes) : ℕ → List α → Bytes
  | _, [] => []
  | off, a :: as => enc off a ++ marshalSeq enc (off + (enc off a).length) as

theorem marshalSeq_append {α : Type} (enc : ℕ → α → Bytes) (off : ℕ) (as bs : List α) :
    marshalSeq enc off (as ++ bs) =
      marshalSeq enc off as ++ marshalSeq enc (off + (marshalSeq enc off as).length) bs := by
  induction as generalizing off with
  | nil => rfl
  | cons a as ih =>
    rw [List.cons_append, marshalSeq, marshalSeq, ih, List.append_assoc, List.length_append,
      Nat.add_assoc]

/-- Nothing is longer than the sequence it is in. -/
theorem le_length_marshalSeq {α : Type} {enc : ℕ → α → Bytes} {size : α → ℕ}
    (hsize : ∀ off a, size a ≤ (enc off a).length) (off : ℕ) {as : List α} {a : α} (h : a ∈ as) :
    size a ≤ (marshalSeq enc off as).length := by
  induction as generalizing off with
  | nil => cases h
  | cons b as ih =>
    rw [marshalSeq, List.length_append]
    rcases List.mem_cons.mp h with rfl | h
    · have := hsize off a
      omega
    · have := ih (off + (enc off b).length) h
      omega

theorem length_le_marshalSeq {α : Type} {enc : ℕ → α → Bytes}
    (hpos : ∀ off a, 0 < (enc off a).length) (off : ℕ) (as : List α) :
    as.length ≤ (marshalSeq enc off as).length := by
  induction as generalizing off with
  | nil => exact Nat.zero_le _
  | cons a as ih =>
    have := ih (off + (enc off a).length)
    have := hpos off a
    rw [marshalSeq, List.length_append, List.length_cons]
    omega

theorem length_raw_le_marshal (off : ℕ) (v : Value) : v.raw.length ≤ (marshal off v).length := by
  rw [marshal, List.length_append]
  omega

theorem padLen_of_mod_eq {a n off off' : ℕ} (ha : a ∣ n) (h : off % n = off' % n) :
    padLen a off = padLen a off' := by
  rw [padLen, padLen, ← Nat.mod_mod_of_dvd off ha, h, Nat.mod_mod_of_dvd off' ha]

theorem Value.align_dvd (v : Value) : v.align ∣ 8 := by
  cases v <;> simp [align]

/-- The alignment of values only depends on where they are between multiples of their alignment. -/
theorem marshalSeq_of_mod_eq {n off off' : ℕ} {vs : List Value} (halign : ∀ v ∈ vs, v.align ∣ n)
    (h : off % n = off' % n) : marshalSeq marshal off vs = marshalSeq marshal off' vs := by
  induction vs generalizing off off' with
  | nil => rfl
  | cons v vs ih =>
    have hv : marshal off v = marshal off' v := by
      rw [marshal, marshal, padLen_of_mod_eq (halign v List.mem_cons_self) h]
    have hnext : (off + (marshal off' v).length) % n = (off' + (marshal off' v).length) % n := by
      rw [Nat.add_mod, h, ← Nat.add_mod]
    rw [marshalSeq, marshalSeq, hv, ih (fun w hw => halign w (List.mem_cons_of_mem _ hw)) hnext]

/-! ## Messages -/

/-- A header field. -/
structure HeaderField where
  code : UInt8
  value : Value
  deriving DecidableEq

/-- A header field from an offset on: a structure, so aligned to eight. -/
def marshalField (off : ℕ) (f : HeaderField) : Bytes :=
  zeros (padLen 8 off) ++ f.code :: marshalVariant (off + padLen 8 off + 1) f.value

theorem length_raw_le_marshalField (off : ℕ) (f : HeaderField) :
    f.value.raw.length ≤ (marshalField off f).length := by
  simp only [marshalField, marshalVariant, marshal, List.length_append, List.length_cons]
  omega

theorem length_marshalField_pos (off : ℕ) (f : HeaderField) : 0 < (marshalField off f).length := by
  simp [marshalField]

/-- A message. -/
structure Message where
  type : UInt8
  flags : UInt8
  version : UInt8
  serial : UInt32
  fields : List HeaderField
  body : Bytes

namespace Message

/-- The header fields, without the padding after the last one. -/
def fieldBytes (m : Message) : Bytes := marshalSeq marshalField 16 m.fields

/-- The header of fixed size. -/
def fixed (m : Message) : Bytes :=
  [0x6C, m.type, m.flags, m.version] ++ le 4 m.body.length ++ le 4 m.serial.toNat ++
    le 4 m.fieldBytes.length

/-- The bytes of a message. -/
def encode (m : Message) : Bytes :=
  m.fixed ++ m.fieldBytes ++ zeros (padLen 8 (16 + m.fieldBytes.length)) ++ m.body

@[simp] theorem length_fixed (m : Message) : m.fixed.length = 16 := by simp [fixed]

theorem length_encode (m : Message) : m.encode.length =
    16 + m.fieldBytes.length + padLen 8 (16 + m.fieldBytes.length) + m.body.length := by
  simp only [encode, List.length_append, length_fixed, length_zeros]

end Message

/-! ## Decoders -/

/-- A decoder knows its offset from the start of the message and what is left of it. -/
abbrev Decoder := StateT (ℕ × Bytes) Option

/-- The offset. -/
def offset : Decoder ℕ := do return (← get).1

/-- The next bytes. -/
def bytes (n : ℕ) : Decoder Bytes := do
  let (off, rest) ← get
  if n ≤ rest.length then
    set (off + n, rest.drop n)
    return rest.take n
  else failure

/-- The padding up to a multiple of `a`, which is zero. -/
def skipTo (a : ℕ) : Decoder Unit := do
  let pad ← bytes (padLen a (← offset))
  if pad.all (· = 0) then return () else failure

/-- A number of `k` bytes, aligned to its size. -/
def number (k : ℕ) : Decoder ℕ := do
  skipTo k
  return ofLe (← bytes k)

/-- A text of `n` bytes and the terminator. -/
def text (n : ℕ) : Decoder CStr := do
  let s ← bytes n
  let z ← bytes 1
  if h : (0 : UInt8) ∉ s ∧ z = [0] then return ⟨s, h.1⟩ else failure

/-- A value of the type of a code. -/
def value (code : UInt8) : Decoder Value :=
  if code = 0x75 then do return .u32 (.ofNat (← number 4))
  else if code = 0x64 then do return .f64 (.ofNat (← number 8))
  else if code = 0x73 then do return .str (← text (← number 4))
  else if code = 0x6F then do return .path (← text (← number 4))
  else if code = 0x67 then do return .sig (← text (← number 1))
  else failure

/-- A value after its signature of one type. -/
def variant : Decoder Value := do
  match ← bytes 3 with
  | [1, code, 0] => value code
  | _ => failure

/-- A header field and where it starts. -/
def field : Decoder (ℕ × HeaderField) := do
  skipTo 8
  let pos ← offset
  match ← bytes 1 with
  | [code] => return (pos, ⟨code, ← variant⟩)
  | _ => failure

/-- As many things as there are up to an offset, at which the last one ends. -/
def upTo {α : Type} (d : Decoder α) (stop : ℕ) : ℕ → Decoder (List α)
  | 0 => do if (← offset) = stop then return [] else failure
  | n + 1 => do
    if (← offset) = stop then return [] else
      let a ← d
      return a :: (← upTo d stop n)

/-- Values of the types of a signature. -/
def values : Bytes → Decoder (List Value)
  | [] => return []
  | code :: codes => do
    let v ← value code
    return v :: (← values codes)

/-- The signature among the header fields, empty without one. -/
def signatureOf (fields : List HeaderField) : Bytes :=
  match fields.find? (·.code = 8) with
  | some ⟨_, .sig s⟩ => s.val
  | _ => []

/-- What a decoder reads of a message. -/
structure Decoded where
  type : UInt8
  flags : UInt8
  version : UInt8
  serial : UInt32
  /-- The header fields with the offsets at which they start. -/
  fields : List (ℕ × HeaderField)
  args : List Value
  deriving DecidableEq

/-- A message in the little-endian form, the body of which goes to the end. -/
def message (fuel : ℕ) : Decoder Decoded := do
  match ← bytes 4 with
  | [0x6C, type, flags, version] =>
    let bodyLen ← number 4
    let serial ← number 4
    let fieldsLen ← number 4
    let fields ← upTo field (16 + fieldsLen) fuel
    skipTo 8
    let start ← offset
    let args ← values (signatureOf (fields.map Prod.snd))
    if (← offset) = start + bodyLen then
      return ⟨type, flags, version, .ofNat serial, fields, args⟩
    else failure
  | _ => failure

/-- Decode all the bytes. -/
def decodeMessage (msg : Bytes) : Option Decoded :=
  match (message msg.length).run (0, msg) with
  | some (d, _, []) => some d
  | _ => none

/-! ## Reading back -/

/-- From an offset on the decoder reads the bytes as `a`, whatever comes after them. -/
def Decodes {α : Type} (d : Decoder α) (off : ℕ) (bs : Bytes) (a : α) : Prop :=
  ∀ tail, d.run (off, bs ++ tail) = some (a, off + bs.length, tail)

section

variable {α β : Type} {d : Decoder α} {f : α → Decoder β} {off : ℕ} {bs bs' : Bytes} {a : α} {b : β}

theorem Decodes.bind (h : Decodes d off bs a) (h' : Decodes (f a) (off + bs.length) bs' b) :
    Decodes (d >>= f) off (bs ++ bs') b := by
  intro tail
  rw [StateT.run_bind, List.append_assoc, h]
  change (f a).run _ = _
  rw [h', List.length_append, Nat.add_assoc]

/-- Sequencing, with the offset in between. -/
theorem Decodes.bind_at {off' : ℕ} (h : Decodes d off bs a) (hoff : off + bs.length = off')
    (h' : Decodes (f a) off' bs' b) : Decodes (d >>= f) off (bs ++ bs') b :=
  h.bind (hoff ▸ h')

theorem Decodes.pure (off : ℕ) (a : α) : Decodes (Pure.pure a) off [] a := fun _ => rfl

theorem Decodes.ite {c : Prop} [Decidable c] (hc : c) (h : Decodes d off bs a) (d' : Decoder α) :
    Decodes (if c then d else d') off bs a := by
  rwa [if_pos hc]

theorem Decodes.map (h : Decodes d off bs a) (g : α → β) :
    Decodes (d >>= fun a => Pure.pure (g a)) off bs (g a) := by
  have := h.bind (f := fun a => Pure.pure (g a)) (Decodes.pure _ (g a))
  rwa [List.append_nil] at this

theorem Decodes.of_eq {a' : α} (h : Decodes d off bs a) (hbs : bs = bs') (ha : a = a') :
    Decodes d off bs' a' := hbs ▸ ha ▸ h

theorem decodes_offset (off : ℕ) : Decodes offset off [] off := fun _ => rfl

theorem decodes_bytes (off : ℕ) (bs : Bytes) : Decodes (bytes bs.length) off bs bs := by
  intro tail
  have hle : bs.length ≤ (bs ++ tail).length := by simp
  simp only [bytes, StateT.run_bind, StateT.run_get, Option.pure_def, Option.bind_eq_bind,
    Option.bind_some, if_pos hle]
  simp

theorem decodes_skipTo (a off : ℕ) : Decodes (skipTo a) off (zeros (padLen a off)) () := by
  have hbytes := decodes_bytes off (zeros (padLen a off))
  rw [length_zeros] at hbytes
  have hzero : (zeros (padLen a off)).all (· = 0) = true := by simp [zeros]
  exact ((decodes_offset off).bind (hbytes.bind ((Decodes.pure _ _).ite hzero failure))).of_eq
    (List.append_nil _) rfl

theorem decodes_number {k n : ℕ} (off : ℕ) (h : n < 256 ^ k) :
    Decodes (number k) off (zeros (padLen k off) ++ le k n) n := by
  refine (decodes_skipTo k off).bind ?_
  have hbytes := decodes_bytes (off + (zeros (padLen k off)).length) (le k n)
  rw [length_le] at hbytes
  have := hbytes.map ofLe
  rwa [ofLe_le, Nat.mod_eq_of_lt h] at this

theorem decodes_number_of_aligned {k n off : ℕ} (h : n < 256 ^ k) (hoff : off % k = 0) :
    Decodes (number k) off (le k n) n := by
  have := decodes_number off h
  rwa [padLen_eq_zero hoff, zeros, List.replicate_zero, List.nil_append] at this

theorem decodes_text (off : ℕ) (s : CStr) : Decodes (text s.val.length) off (s.val ++ [0]) s := by
  refine (decodes_bytes off s.val).bind ?_
  have hpure : Decodes (if h : (0 : UInt8) ∉ s.val ∧ ([0] : Bytes) = [0] then
      pure (⟨s.val, h.1⟩ : CStr) else failure) (off + s.val.length + 1) [] s := by
    rw [dif_pos ⟨s.property, rfl⟩]
    exact Decodes.pure _ _
  exact (decodes_bytes _ [0]).bind hpure

/-- A value is read back. -/
theorem decodes_value (off : ℕ) {v : Value} (h : v.Fits) :
    Decodes (value v.code) off (marshal off v) v := by
  cases v with
  | u32 n =>
    refine ((decodes_number off n.toNat_lt).map fun n => Value.u32 (.ofNat n)).of_eq rfl ?_
    rw [UInt32.ofNat_toNat]
  | f64 bits =>
    refine ((decodes_number off bits.toNat_lt).map fun n => Value.f64 (.ofNat n)).of_eq rfl ?_
    rw [UInt64.ofNat_toNat]
  | str s =>
    exact ((decodes_number off h).bind ((decodes_text _ s).map Value.str)).of_eq
      (List.append_assoc _ _ _) rfl
  | path s =>
    exact ((decodes_number off h).bind ((decodes_text _ s).map Value.path)).of_eq
      (List.append_assoc _ _ _) rfl
  | sig s =>
    exact ((decodes_number off h).bind ((decodes_text _ s).map Value.sig)).of_eq
      (List.append_assoc _ _ _) rfl

theorem decodes_variant (off : ℕ) {v : Value} (h : v.Fits) :
    Decodes variant off (marshalVariant off v) v :=
  (decodes_bytes off [1, v.code, 0]).bind (decodes_value (off + 3) h)

/-- A header field is read back, where it starts. -/
theorem decodes_field (off : ℕ) {f : HeaderField} (h : f.value.Fits) :
    Decodes field off (marshalField off f) (off + padLen 8 off, f) := by
  refine (decodes_skipTo 8 off).bind ?_
  rw [length_zeros]
  refine (decodes_offset _).bind ((decodes_bytes _ [f.code]).bind ?_)
  exact (decodes_variant _ h).map fun v => (off + padLen 8 off, (⟨f.code, v⟩ : HeaderField))

/-- Header fields with the offsets at which they start. -/
def located : ℕ → List HeaderField → List (ℕ × HeaderField)
  | _, [] => []
  | off, f :: fs => (off + padLen 8 off, f) :: located (off + (marshalField off f).length) fs

theorem map_snd_located (off : ℕ) (fs : List HeaderField) :
    (located off fs).map Prod.snd = fs := by
  induction fs generalizing off with
  | nil => rfl
  | cons f fs ih => rw [located, List.map_cons, ih]

/-- Every header field starts at a multiple of eight. -/
theorem located_mod {off : ℕ} {fs : List HeaderField} {p : ℕ × HeaderField}
    (h : p ∈ located off fs) : p.1 % 8 = 0 := by
  induction fs generalizing off with
  | nil => cases h
  | cons f fs ih =>
    rcases List.mem_cons.mp h with rfl | h
    · exact add_padLen_mod (by decide) off
    · exact ih h

theorem decodes_upTo_nil (d : Decoder α) (off n : ℕ) : Decodes (upTo d off n) off [] [] := by
  cases n with
  | zero => exact (decodes_offset off).bind ((Decodes.pure _ _).ite rfl failure)
  | succ n => exact (decodes_offset off).bind ((Decodes.pure _ _).ite rfl _)

theorem decodes_upTo_cons {stop n : ℕ} {as : List α} (h : Decodes d off bs a) (hne : bs ≠ [])
    (hs : Decodes (upTo d stop n) (off + bs.length) bs' as) (hstop : off + bs.length ≤ stop) :
    Decodes (upTo d stop (n + 1)) off (bs ++ bs') (a :: as) := by
  have hlen := List.length_pos_iff.mpr hne
  refine (decodes_offset off).bind ?_
  rw [if_neg (by omega)]
  exact h.bind (hs.map (a :: ·))

/-- The header fields are read back up to the end of the last one. -/
theorem decodes_fields {off n : ℕ} {fs : List HeaderField} (hfits : ∀ f ∈ fs, f.value.Fits)
    (hn : fs.length ≤ n) :
    Decodes (upTo field (off + (marshalSeq marshalField off fs).length) n) off
      (marshalSeq marshalField off fs) (located off fs) := by
  induction fs generalizing off n with
  | nil => exact decodes_upTo_nil field off n
  | cons f fs ih =>
    obtain ⟨n, rfl⟩ : ∃ m, n = m + 1 := ⟨n - 1, by rw [List.length_cons] at hn; omega⟩
    have hrest := @ih (off + (marshalField off f).length) n
      (fun g hg => hfits g (List.mem_cons_of_mem _ hg)) (by simpa using hn)
    have hne : marshalField off f ≠ [] := by simp [marshalField]
    rw [Nat.add_assoc, ← List.length_append] at hrest
    exact decodes_upTo_cons (decodes_field off (hfits f List.mem_cons_self)) hne hrest
      (by rw [marshalSeq, List.length_append]; omega)

/-- Arguments are read back by the codes of their types. -/
theorem decodes_values {vs : List Value} (off : ℕ) (hfits : ∀ v ∈ vs, v.Fits) :
    Decodes (values (vs.map Value.code)) off (marshalSeq marshal off vs) vs := by
  induction vs generalizing off with
  | nil => exact Decodes.pure _ _
  | cons v vs ih =>
    refine (decodes_value off (hfits v List.mem_cons_self)).bind ?_
    exact (ih _ fun w hw => hfits w (List.mem_cons_of_mem _ hw)).map (v :: ·)

end

/-- A message the body of which holds values of the types of its signature. -/
structure Message.Carries (m : Message) (args : List Value) : Prop where
  fields_fit : ∀ f ∈ m.fields, f.value.Fits
  args_fit : ∀ v ∈ args, v.Fits
  signature : signatureOf m.fields = args.map Value.code
  body : m.body = marshalSeq marshal
    (16 + m.fieldBytes.length + padLen 8 (16 + m.fieldBytes.length)) args

variable {m : Message} {args : List Value}

/-- The body and what goes before it. -/
theorem decodes_message (h : m.Carries args) (hlen : m.encode.length < 2 ^ 32) :
    Decodes (message m.encode.length) 0 m.encode
      ⟨m.type, m.flags, m.version, m.serial, located 16 m.fields, args⟩ := by
  have hlength := m.length_encode
  have hcount : m.fields.length ≤ m.encode.length := by
    have := length_le_marshalSeq length_marshalField_pos 16 m.fields
    rw [Message.fieldBytes] at hlength
    omega
  have hfields := @decodes_fields 16 _ _ h.fields_fit hcount
  -- the numbers in front are at places that need no padding
  have hbodyLen : Decodes (number 4) 4 (le 4 m.body.length) m.body.length :=
    decodes_number_of_aligned (by omega) rfl
  have hserial : Decodes (number 4) 8 (le 4 m.serial.toNat) m.serial.toNat :=
    decodes_number_of_aligned m.serial.toNat_lt rfl
  have hfieldsLen : Decodes (number 4) 12 (le 4 m.fieldBytes.length) m.fieldBytes.length :=
    decodes_number_of_aligned (by omega) rfl
  have hargs : Decodes (values (signatureOf ((located 16 m.fields).map Prod.snd)))
      (16 + m.fieldBytes.length + (zeros (padLen 8 (16 + m.fieldBytes.length))).length) m.body
      args := by
    rw [map_snd_located, h.signature, h.body, length_zeros]
    exact decodes_values _ h.args_fit
  -- the pieces in the order of the bytes
  refine Decodes.of_eq ((decodes_bytes 0 [0x6C, m.type, m.flags, m.version]).bind_at rfl
    (hbodyLen.bind_at rfl (hserial.bind_at rfl (hfieldsLen.bind_at rfl
    (hfields.bind_at rfl
    ((decodes_skipTo 8 (16 + m.fieldBytes.length)).bind_at rfl
    ((decodes_offset _).bind_at rfl
    (hargs.bind_at rfl ((decodes_offset _).bind_at rfl
    ((Decodes.pure _ _).ite rfl failure)))))))))) ?_ ?_
  · simp only [Message.encode, Message.fixed, List.append_assoc, List.nil_append, List.append_nil]
    rfl
  · rw [UInt32.ofNat_toNat]

/-- It is read back. -/
theorem decodeMessage_encode (h : m.Carries args) (hlen : m.encode.length < 2 ^ 32) :
    decodeMessage m.encode =
      some ⟨m.type, m.flags, m.version, m.serial, located 16 m.fields, args⟩ := by
  have hrun := decodes_message h hlen []
  rw [List.append_nil] at hrun
  rw [decodeMessage, hrun]

end WireFormat
