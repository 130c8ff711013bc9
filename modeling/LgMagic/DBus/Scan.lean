import LgMagic.DBus.Reader

/-!
# Reading what the specification lays out

The readers of the client on bytes in the wire format. Between two header fields the client may
already have skipped a part of the padding; it always stops at the end of the fields.

* `At`: bytes in the memory;
* `parseField_marshalField`, `scanFields_marshalSeq`: the header fields are read back;
* `rdStr_marshal`: a string is read back;
* `rdStrings_marshalSeq`: strings are read back up to the end of an array.
-/

namespace DBus

open CString WireFormat

variable {mem : Mem} {p off fend : ℕ} {bs bs' : Bytes}

/-! ## Bytes in the memory -/

/-- The bytes are in the memory from `p` on. -/
def At (mem : Mem) (p : ℕ) (bs : Bytes) : Prop := slice mem p bs.length = bs

@[simp] theorem length_slice (mem : Mem) (p n : ℕ) : (slice mem p n).length = n := by simp [slice]

theorem slice_add (mem : Mem) (p m n : ℕ) :
    slice mem p (m + n) = slice mem p m ++ slice mem (p + m) n := by
  simp [slice, List.range_add, Nat.add_assoc]

theorem at_append : At mem p (bs ++ bs') ↔ At mem p bs ∧ At mem (p + bs.length) bs' := by
  rw [At, List.length_append, slice_add]
  constructor
  · intro h
    exact List.append_inj h (length_slice _ _ _)
  · rintro ⟨h, h'⟩
    rw [h, h']

theorem at_cons {b : UInt8} : At mem p (b :: bs) ↔ mem p = b ∧ At mem (p + 1) bs := by
  rw [← List.singleton_append, at_append]
  simp [At, slice]

/-- A part of a message is in the memory of the buffer. -/
theorem at_buffer (pre bs post : Bytes) (heap : Mem) :
    At (buffer (pre ++ (bs ++ post)) heap) pre.length bs := by
  refine List.ext_getElem (length_slice _ _ _) fun i h₁ h₂ => ?_
  simp [slice, buffer, List.getD, List.getElem?_append_right, List.getElem?_append_left h₂, h₂]

theorem u32At_of_at {n : ℕ} (h : At mem p (le 4 n)) (hn : n < 2 ^ 32) : u32At mem p = n := by
  rw [At, length_le] at h
  rw [u32At, h, ofLe_le]
  exact Nat.mod_eq_of_lt hn

/-! ## Padding -/

theorem padLen_four_le (n : ℕ) : padLen 4 n ≤ padLen 8 n := by
  simp only [padLen]
  omega

/-- Padding to eight in two steps. -/
theorem add_padLen_of_le {k n : ℕ} (h : k ≤ padLen 8 n) : k + padLen 8 (n + k) = padLen 8 n := by
  simp only [padLen] at *
  omega

/-- Padding to four in two steps. -/
theorem add_padLen_four_of_le {k n : ℕ} (h : k ≤ padLen 4 n) :
    k + padLen 4 (n + k) = padLen 4 n := by
  simp only [padLen] at *
  omega

/-! ## Header fields -/

/-- The types of values in header fields. -/
def InHeader : Value → Prop
  | .f64 _ => False
  | _ => True

/-- A position in the padding after an offset, no farther than the end. -/
structure Near (off fend fp : ℕ) : Prop where
  le : off ≤ fp
  le_pad : fp ≤ off + padLen 8 off
  le_end : fp ≤ fend

theorem Near.refl (h : off ≤ fend) : Near off fend off := ⟨le_rfl, Nat.le_add_right _ _, h⟩

theorem near_skipPad (h : off ≤ fend) : Near off fend (skipPad 4 fend off) := by
  have := padLen_four_le off
  refine ⟨?_, ?_, ?_⟩ <;> rw [skipPad] <;> omega

theorem Near.skipPad_eight {fp : ℕ} (h : Near off fend fp) (hend : off + padLen 8 off ≤ fend) :
    skipPad 8 fend fp = off + padLen 8 off := by
  obtain ⟨k, rfl⟩ := Nat.exists_eq_add_of_le h.le
  have hk := add_padLen_of_le (n := off) (k := k) (by have := h.le_pad; omega)
  rw [skipPad]
  omega

theorem skipPad_of_aligned {align : ℕ} (h : off % align = 0) : skipPad align fend off = off := by
  rw [skipPad, padLen_eq_zero h, Nat.zero_min, Nat.add_zero]

theorem ofBuffer_slice {s : CStr} (h : At mem p s.val) :
    CStr.ofBuffer (slice mem p s.val.length) = s := by
  rw [h, CStr.ofBuffer_val]

/-! ## What was read -/

section

variable {fp fp' : ℕ} {fsig : UInt8}

theorem le_skipPad (align fend fp : ℕ) : fp ≤ skipPad align fend fp := Nat.le_add_right _ _

/-- What a value of a header field was, by its type. -/
theorem parseFieldValue_cases {v : Value} (h : parseFieldValue mem fend fsig fp = some (v, fp')) :
    ((fsig = 0x73 ∨ fsig = 0x6F) ∧ fp + 4 ≤ fend ∧
      ¬ (fend - (fp + 4) + (2 ^ 64 - 1)) % 2 ^ 64 < u32At mem fp ∧
      mem (fp + 4 + u32At mem fp) = 0 ∧ (∀ n, v ≠ .u32 n) ∧
      fp' = skipPad 4 fend (fp + 4 + (u32At mem fp + 1) % 2 ^ 32)) ∨
    (fsig = 0x75 ∧ fp + 4 ≤ fend ∧ v = .u32 (.ofNat (u32At mem fp)) ∧ fp' = fp + 4) ∨
    (fsig = 0x67 ∧ fp + 1 + (mem fp).toNat + 1 ≤ fend ∧ (∀ n, v ≠ .u32 n) ∧
      fp' = fp + 1 + ((mem fp).toNat + 1)) := by
  rw [parseFieldValue] at h
  dsimp only at h
  by_cases hstr : fsig = 0x73 ∨ fsig = 0x6F
  · -- a text: not short, not longer than what is left, and terminated
    rw [if_pos hstr] at h
    by_cases hshort : fend < fp + 4
    · rw [if_pos hshort] at h
      cases h
    by_cases hlong : (fend - (fp + 4) + (2 ^ 64 - 1)) % 2 ^ 64 < u32At mem fp
    · rw [if_neg hshort, if_pos hlong] at h
      cases h
    by_cases hnul : mem (fp + 4 + u32At mem fp) ≠ 0
    · rw [if_neg hshort, if_neg hlong, if_pos hnul] at h
      cases h
    rw [if_neg hshort, if_neg hlong, if_neg hnul] at h
    obtain ⟨rfl, rfl⟩ := Prod.mk.inj (Option.some.inj h)
    refine .inl ⟨hstr, by omega, hlong, not_not.mp hnul, fun n => ?_, rfl⟩
    by_cases hs : fsig = 0x73 <;> simp [hs]
  · -- a number or a signature; other types are refused
    rw [if_neg hstr] at h
    split_ifs at h with hu32 hshort hsig hshort hlong
    · obtain ⟨rfl, rfl⟩ := Prod.mk.inj (Option.some.inj h)
      exact .inr (.inl ⟨hu32, by omega, rfl, rfl⟩)
    · obtain ⟨rfl, rfl⟩ := Prod.mk.inj (Option.some.inj h)
      exact .inr (.inr ⟨hsig, by omega, fun n => by simp, rfl⟩)

theorem lt_of_parseFieldValue {v : Value}
    (h : parseFieldValue mem fend fsig fp = some (v, fp')) : fp < fp' := by
  rcases parseFieldValue_cases h with ⟨-, -, -, -, -, hend⟩ | ⟨-, -, -, rfl⟩ | ⟨-, -, -, rfl⟩
  · have hle := le_skipPad 4 fend (fp + 4 + (u32At mem fp + 1) % 2 ^ 32)
    omega
  · omega
  · omega

/-- What a header field was: its head, and the value by the type in the head. -/
theorem parseField_cases {f : HeaderField} (h : parseField mem fend fp = some (f, fp')) :
    ∃ start, skipPad 8 fend fp = start ∧ start + 4 ≤ fend ∧ mem (start + 1) = 1 ∧
      mem (start + 3) = 0 ∧ f.code = mem start ∧ ∃ stop,
        (if mem (start + 2) = 0x73 ∨ mem (start + 2) = 0x6F ∨ mem (start + 2) = 0x75 then
          skipPad 4 fend (start + 4) else start + 4) = stop ∧
        start + 4 ≤ stop ∧ parseFieldValue mem fend (mem (start + 2)) stop = some (f.value, fp') := by
  rw [parseField] at h
  dsimp only at h
  by_cases hshort : fend < skipPad 8 fend fp + 4
  · rw [if_pos hshort] at h
    cases h
  by_cases hhead : mem (skipPad 8 fend fp + 1) ≠ 1 ∨ mem (skipPad 8 fend fp + 3) ≠ 0
  · rw [if_neg hshort, if_pos hhead] at h
    cases h
  rw [if_neg hshort, if_neg hhead] at h
  obtain ⟨⟨v, stop⟩, hvalue, hf⟩ := Option.map_eq_some_iff.mp h
  obtain ⟨rfl, rfl⟩ := Prod.mk.inj hf
  have hpad := le_skipPad 4 fend (skipPad 8 fend fp + 4)
  exact ⟨_, rfl, Nat.le_of_not_lt hshort, not_not.mp fun h => hhead (.inl h),
    not_not.mp fun h => hhead (.inr h), rfl, _, rfl, by split_ifs <;> omega, hvalue⟩

theorem lt_of_parseField {f : HeaderField} (h : parseField mem fend fp = some (f, fp')) :
    fp + 4 < fp' := by
  obtain ⟨start, rfl, -, -, -, -, stop, -, hle, hvalue⟩ := parseField_cases h
  have := le_skipPad 8 fend fp
  have := lt_of_parseFieldValue hvalue
  omega

end

/-! ## Header fields are read back -/

/-- The value of a header field is read back. -/
theorem parseFieldValue_raw {v : Value} (hv : InHeader v) (hfits : v.Fits) (hat : At mem p v.raw)
    (hend : p + v.raw.length ≤ fend) (hmax : fend < 2 ^ 32) :
    ∃ fp, parseFieldValue mem fend v.code p = some (v, fp) ∧ Near (p + v.raw.length) fend fp := by
  -- a text has its length, its bytes and a NUL, and its length does not wrap around
  have htext {s : CStr} (hat : At mem p (le 4 s.val.length ++ (s.val ++ [0])))
      (hend : p + (le 4 s.val.length ++ (s.val ++ [0])).length ≤ fend)
      (hfits : s.val.length < 2 ^ 32) :
      u32At mem p = s.val.length ∧ ¬ (fend - (p + 4) + (2 ^ 64 - 1)) % 2 ^ 64 < s.val.length ∧
        (s.val.length + 1) % 2 ^ 32 = s.val.length + 1 ∧ mem (p + 4 + s.val.length) = 0 ∧ CStr.ofBuffer (slice mem (p + 4) s.val.length) = s := by
    obtain ⟨hlen, hrest⟩ := at_append.mp hat
    obtain ⟨hs, hnul⟩ := at_append.mp hrest
    simp only [List.length_append, length_le, List.length_singleton] at hend
    rw [length_le] at hs hnul
    exact ⟨u32At_of_at hlen hfits, by omega, Nat.mod_eq_of_lt (by omega), (at_cons.mp hnul).1,
      ofBuffer_slice hs⟩
  cases v with
  | f64 bits => cases hv
  | u32 n =>
    simp only [Value.raw, length_le] at hend hat
    refine ⟨p + 4, ?_, by simpa [Value.raw] using Near.refl hend⟩
    have hn : u32At mem p = n.toNat := u32At_of_at hat n.toNat_lt
    simp [parseFieldValue, Value.code, Nat.not_lt.mpr hend, hn]
  | str s | path s =>
    obtain ⟨hlen, hfit, hstep, hnul, hs⟩ := htext hat hend hfits
    refine ⟨_, ?_, near_skipPad hend⟩
    simp only [Value.raw, List.length_append, length_le, List.length_singleton] at hend ⊢
    simp only [parseFieldValue, Value.code, hlen, hnul, hs, hstep]
    rw [if_pos (by decide), if_neg (by omega), if_neg hfit, if_neg (by simp)]
    simp [Nat.add_assoc, Nat.add_comm, Nat.add_left_comm]
  -- a signature has one byte of length
  | sig s =>
    obtain ⟨hlen, hrest⟩ := at_cons.mp hat
    have hrest : At mem (p + 1) (s.val ++ [0]) := hrest
    have hs := (at_append.mp hrest).1
    have hbyte : (mem p).toNat = s.val.length := by
      rw [hlen]
      exact Nat.mod_eq_of_lt hfits
    have hraw : (Value.sig s).raw.length = s.val.length + 2 := by simp [Value.raw, le]
    refine ⟨_, ?_, Near.refl hend⟩
    rw [hraw] at hend ⊢
    simp only [parseFieldValue, Value.code, hbyte, ofBuffer_slice hs]
    rw [if_neg (by decide), if_neg (by decide), if_pos (by decide), if_neg (by omega),
      if_neg (by omega)]
    simp [Nat.add_comm, Nat.add_left_comm]

/-- The four bytes before the value of a header field leave it aligned. -/
theorem marshalField_eq {v : Value} (hv : InHeader v) (off : ℕ) (code : UInt8) :
    marshalField off ⟨code, v⟩ = zeros (padLen 8 off) ++ ([code, 1, v.code, 0] ++ v.raw) := by
  have hmod := add_padLen_mod (a := 8) (by decide) off
  have hpad : padLen v.align (off + padLen 8 off + 4) = 0 := by
    apply padLen_eq_zero
    cases v with
    | f64 bits => cases hv
    | sig s => exact Nat.mod_one _
    | u32 n | str s | path s =>
      simp only [Value.align]
      omega
  have hoff : off + padLen 8 off + 1 + 3 = off + padLen 8 off + 4 := rfl
  rw [marshalField, marshalVariant, marshal, hoff, hpad]
  rfl

/-- A header field is read back from anywhere in the padding before it. -/
theorem parseField_marshalField {f : HeaderField} {fp : ℕ} (hv : InHeader f.value)
    (hfits : f.value.Fits) (hat : At mem off (marshalField off f))
    (hend : off + (marshalField off f).length ≤ fend) (hmax : fend < 2 ^ 32)
    (hnear : Near off fend fp) :
    ∃ fp', parseField mem fend fp = some (f, fp') ∧
      Near (off + (marshalField off f).length) fend fp' := by
  obtain ⟨code, v⟩ := f
  simp only at hv hfits
  set start := off + padLen 8 off with hstart
  have hmod : start % 8 = 0 := add_padLen_mod (by decide) off
  have hfield := marshalField_eq hv off code
  have hlen : (marshalField off ⟨code, v⟩).length = padLen 8 off + 4 + v.raw.length := by
    simp only [hfield, List.length_append, length_zeros, List.length_cons, List.length_nil]
    omega
  rw [hfield] at hat
  obtain ⟨-, hat⟩ := at_append.mp hat
  rw [length_zeros, ← hstart] at hat
  -- the four bytes of the head: the code, the length one, the type and a NUL
  obtain ⟨hcode, hat⟩ := at_cons.mp hat
  obtain ⟨hone, hat⟩ := at_cons.mp hat
  obtain ⟨hsig, hat⟩ := at_cons.mp hat
  obtain ⟨hzero, hat⟩ := at_cons.mp hat
  have hend' : start + 4 + v.raw.length ≤ fend := by omega
  obtain ⟨fp', hvalue, hnear'⟩ := parseFieldValue_raw hv hfits hat hend' hmax
  refine ⟨fp', ?_, ?_⟩
  · have hskip : skipPad 4 fend (start + 4) = start + 4 := skipPad_of_aligned (by omega)
    rw [parseField, hnear.skipPad_eight (by omega), ← hstart]
    simp only [Nat.add_assoc, Nat.reduceAdd] at hcode hone hsig hzero hvalue
    simp only [hcode, hone, hsig, hzero, hskip, ite_self, hvalue]
    rw [if_neg (by omega)]
    simp
  · rw [hlen, ← Nat.add_assoc, ← Nat.add_assoc]
    exact hnear'

/-- The header fields are read back, up to their end. -/
theorem scanFields_marshalSeq {fs : List HeaderField} {n fp : ℕ}
    (hv : ∀ f ∈ fs, InHeader f.value ∧ f.value.Fits) (hat : At mem off (marshalSeq marshalField off fs))
    (hend : off + (marshalSeq marshalField off fs).length = fend) (hmax : fend < 2 ^ 32)
    (hnear : Near off fend fp) (hn : fs.length ≤ n) :
    scanFields mem fend n fp = some (fs, fend) := by
  induction fs generalizing off n fp with
  | nil =>
    obtain rfl : fp = fend := by
      have := hnear.le
      have := hnear.le_end
      simp only [marshalSeq, List.length_nil] at hend
      omega
    cases n with
    | zero => rfl
    | succ n => rw [scanFields, if_neg (lt_irrefl _)]
  | cons f fs ih =>
    obtain ⟨n, rfl⟩ : ∃ m, n = m + 1 := ⟨n - 1, by rw [List.length_cons] at hn; omega⟩
    obtain ⟨hfield, hrest⟩ := at_append.mp hat
    rw [marshalSeq, List.length_append] at hend
    obtain ⟨fp', hparse, hnear'⟩ := parseField_marshalField (hv f List.mem_cons_self).1
      (hv f List.mem_cons_self).2 hfield (by omega) hmax hnear
    -- the field is longer than the padding before it
    have hlt : fp < fend := by
      have := hnear.le_pad
      have hlen : padLen 8 off < (marshalField off f).length := by simp [marshalField]
      omega
    have := ih (fun g hg => hv g (List.mem_cons_of_mem _ hg)) hrest (by omega) hnear'
      (by simpa using hn)
    simp [scanFields, hlt, hparse, this]

theorem fixedU32_append {a : Bytes} {n : ℕ} (b : Bytes) (h : n < 2 ^ 32) :
    fixedU32 (a ++ (le 4 n ++ b)) a.length = n := by
  have htake : (le 4 n ++ b).take 4 = le 4 n := List.take_left' (length_le 4 n)
  rw [fixedU32, List.drop_left, htake, ofLe_le]
  exact Nat.mod_eq_of_lt h

theorem fixedU32_fixed {m : Message} (rest : Bytes) (hmax : m.encode.length < 2 ^ 32) :
    fixedU32 (m.fixed ++ rest) 4 = m.body.length ∧
      fixedU32 (m.fixed ++ rest) 12 = m.fieldBytes.length := by
  have hlen := m.length_encode
  refine ⟨?_, ?_⟩
  · rw [Message.fixed, List.append_assoc, List.append_assoc, List.append_assoc]
    exact fixedU32_append (a := [0x6C, m.type, m.flags, m.version]) _ (by omega)
  · rw [Message.fixed, List.append_assoc]
    exact fixedU32_append (a := [0x6C, m.type, m.flags, m.version] ++ le 4 m.body.length ++
      le 4 m.serial.toNat) _ (by omega)

/-- The header fields of a message are read back. -/
theorem headerFields_encode {m : Message} (heap : Mem)
    (hv : ∀ f ∈ m.fields, InHeader f.value ∧ f.value.Fits) (hmax : m.encode.length < 2 ^ 32) :
    headerFields (buffer m.encode heap) m.encode.length m.fieldBytes.length = some m.fields := by
  have hlen := m.length_encode
  have hat : At (buffer m.encode heap) 16 m.fieldBytes := by
    have := at_buffer m.fixed m.fieldBytes (zeros (padLen 8 (16 + m.fieldBytes.length)) ++ m.body) heap
    rwa [m.length_fixed, ← List.append_assoc, ← List.append_assoc] at this
  have hcount := length_le_marshalSeq length_marshalField_pos 16 m.fields
  have hscan := scanFields_marshalSeq hv hat rfl (by rw [← Message.fieldBytes]; omega)
    (Near.refl (Nat.le_add_right _ _)) hcount
  rw [headerFields, Message.fieldBytes, hscan]
  exact if_neg (by rw [← Message.fieldBytes]; omega)

/-! ## Strings -/

/-- The reader farther on. -/
def Rd.skip (n : ℕ) (r : Rd) : Rd := { r with p := r.p + n, off := r.off + n }

theorem Rd.skip_skip (m n : ℕ) (r : Rd) : (r.skip m).skip n = r.skip (m + n) := by
  simp [Rd.skip, Nat.add_assoc]

theorem rdU8_of_lt {r : Rd} (h : r.p < r.stop) : rdU8 mem r = some (mem r.p, r.skip 1) := by
  rw [rdU8, if_neg (by omega), Rd.skip]

theorem rdU8_skip {r : Rd} {k : ℕ} (h : r.p + k < r.stop) :
    rdU8 mem (r.skip k) = some (mem (r.p + k), r.skip (k + 1)) := by
  have hlt : (r.skip k).p < (r.skip k).stop := h
  rw [rdU8_of_lt hlt, Rd.skip_skip]
  rfl

theorem rdU32_of_le {r : Rd} (h : r.p + 4 ≤ r.stop) :
    rdU32 mem r = some (u32At mem r.p, r.skip 4) := by
  simp only [rdU32, rdU8_of_lt (show r.p < r.stop by omega),
    rdU8_skip (show r.p + 1 < r.stop by omega), rdU8_skip (show r.p + 2 < r.stop by omega),
    rdU8_skip (show r.p + 3 < r.stop by omega), Option.bind_eq_bind, Option.bind_some]
  rfl

/-- The subtraction of the length check does not wrap while something is left. -/
theorem length_fits {len rest : ℕ} (h : len < rest) (hmax : rest < 2 ^ 32) :
    ¬ (rest + (2 ^ 32 - 1)) % 2 ^ 32 < len := by
  omega

/-- A string is read back; the padding after it is skipped up to the end. -/
theorem rdStr_raw {s : CStr} {r : Rd} (hat : At mem r.p (Value.str s).raw)
    (hend : r.p + (Value.str s).raw.length ≤ r.stop) (hmax : r.stop < 2 ^ 32) :
    rdStr mem r = some (s, rdPad 4 (r.skip (Value.str s).raw.length)) := by
  have hraw : (Value.str s).raw.length = 4 + (s.val.length + 1) := by simp [Value.raw]
  rw [hraw] at hend ⊢
  obtain ⟨hlen, hrest⟩ := at_append.mp hat
  rw [length_le] at hrest
  obtain ⟨hs, hnul⟩ := at_append.mp hrest
  have hnul := (at_cons.mp hnul).1
  have hlen := u32At_of_at hlen (by omega)
  have hfit : ¬ ((r.skip 4).stop - (r.skip 4).p + (2 ^ 32 - 1)) % 2 ^ 32 < s.val.length :=
    length_fits (show s.val.length < r.stop - (r.p + 4) by omega)
      (show r.stop - (r.p + 4) < 2 ^ 32 by omega)
  rw [rdStr, rdU32_of_le (by omega), hlen, Option.bind_eq_bind, Option.bind_some]
  have hnul : ¬ mem ((r.skip 4).p + s.val.length) ≠ 0 := not_not_intro hnul
  dsimp only
  rw [if_neg hfit, if_neg hnul, Nat.mod_eq_of_lt (show s.val.length + 1 < 2 ^ 32 by omega)]
  have hs : CStr.ofBuffer (slice mem (r.skip 4).p s.val.length) = s := ofBuffer_slice hs
  rw [hs, ← Rd.skip_skip]
  rfl

/-- Padding where there is enough left. -/
theorem rdPad_of_le {stop : ℕ} (h : p + padLen 4 off ≤ stop) :
    rdPad 4 ⟨p, stop, off⟩ = ⟨p + padLen 4 off, stop, off + padLen 4 off⟩ := by
  rw [rdPad, Nat.min_eq_left (show padLen 4 off ≤ stop - p by omega)]

/-- Strings are read back up to the end of the array. -/
theorem rdStrings_marshalSeq {ss : List CStr} {n stop : ℕ}
    (hat : At mem p (marshalSeq marshal off (ss.map Value.str)))
    (hend : p + (marshalSeq marshal off (ss.map Value.str)).length = stop) (hmax : stop < 2 ^ 32)
    (hn : ss.length ≤ n) :
    ∃ r, rdStrings mem n (rdPad 4 ⟨p, stop, off⟩) = some (ss, r) ∧ r.p = stop := by
  induction ss generalizing p off n with
  | nil =>
    obtain rfl : p = stop := hend
    have hpad : rdPad 4 ⟨p, p, off⟩ = ⟨p, p, off⟩ := by simp [rdPad]
    rw [hpad]
    refine ⟨⟨p, p, off⟩, ?_, rfl⟩
    cases n with
    | zero => rfl
    | succ n => rw [rdStrings, if_pos le_rfl]
  | cons s ss ih =>
    obtain ⟨n, rfl⟩ : ∃ m, n = m + 1 := ⟨n - 1, by rw [List.length_cons] at hn; omega⟩
    obtain ⟨hstr, hrest⟩ := at_append.mp hat
    obtain ⟨-, hraw⟩ := at_append.mp hstr
    have hlen : (marshal off (.str s)).length = padLen 4 off + (Value.str s).raw.length := by
      rw [marshal, List.length_append, length_zeros]
      rfl
    have hpos : 0 < (Value.str s).raw.length := by simp [Value.raw]
    rw [List.map_cons, marshalSeq, List.length_append, hlen] at hend
    rw [hlen] at hrest
    rw [length_zeros] at hraw
    -- the first string, then the others from its end
    have hread := rdStr_raw (r := ⟨p + padLen 4 off, stop, off + padLen 4 off⟩) hraw
      (show p + padLen 4 off + (Value.str s).raw.length ≤ stop by omega) hmax
    obtain ⟨r, hrest, hr⟩ := ih hrest (by omega) (by simpa using hn)
    refine ⟨r, ?_, hr⟩
    rw [rdPad_of_le (by omega), rdStrings, if_neg (show ¬ stop ≤ p + padLen 4 off by omega), hread]
    simp only [Rd.skip, Option.bind_eq_bind, Option.bind_some, Nat.add_assoc] at hrest ⊢
    rw [hrest]
    rfl

end DBus
