import LgMagic.DBus.Call
import LgMagic.DBus.Scan

/-!
# Method calls are well formed

What `build_call` writes when the allocations succeed: the message that the D-Bus specification lays
out, whatever the lengths of the strings are. The writer pads after a string already, so between two
values it may be ahead of the specification by a part of the padding, never by more.

* `Wrote`, `Ends`: what is in the writer;
* `ends_bodyOf`, `ends_hdrField`: arguments and header fields;
* `callMessage`, `Marshaled`: the message of a call, and what is to hold of it;
* `marshaled_buildCall`: every call.
-/

namespace DBus

open CString WireFormat

/-! ## The writer without failures -/

/-- Every `realloc` succeeds. -/
def ample : Realloc := fun _ => true

variable {w : Wb} {bs : Bytes} {k : ℕ}

/-- What a writer holds; it did not fail. -/
structure Wrote (w : Wb) (bs : Bytes) (nodepad : ℕ) : Prop where
  b : w.b = bs
  nodepad : w.nodepad = nodepad
  oom : w.oom = false
  stuck : w.stuck = false
  cap : bs ≠ [] → w.cap ≠ 0

theorem wrote_zero : Wrote .zero [] 0 := ⟨rfl, rfl, rfl, rfl, fun h => absurd rfl h⟩

theorem growTo_ne_zero {need n cap : ℕ} (h : cap ≠ 0) : growTo need n cap ≠ 0 := by
  induction n generalizing cap with
  | zero => exact h
  | succ n ih =>
    rw [growTo]
    split_ifs
    · exact ih (by omega)
    · exact h

/-- What `wb_put` does when it does not fail. -/
theorem wbPut_ample (p : Bytes) (h : w.oom = false) : wbPut ample p w =
    { w with
      b := w.b ++ p
      nodepad := w.b.length + p.length
      cap :=
        if w.cap < w.b.length + p.length then
          growTo (w.b.length + p.length) (w.b.length + p.length) (if w.cap = 0 then 128 else w.cap)
        else w.cap } := by
  simp only [wbPut, h, ample, Bool.false_eq_true, if_false, if_true]
  split_ifs <;> rfl

theorem Wrote.put (h : Wrote w bs k) (p : Bytes) :
    Wrote (wbPut ample p w) (bs ++ p) (bs.length + p.length) := by
  rw [wbPut_ample p h.oom, h.b]
  refine ⟨rfl, rfl, h.oom, h.stuck, fun hne => ?_⟩
  have hpos := List.length_pos_iff.mpr hne
  rw [List.length_append] at hpos
  dsimp only
  split_ifs with hcap h0
  · exact growTo_ne_zero (by decide)
  · exact growTo_ne_zero h0
  · omega

theorem padLen_succ {a n : ℕ} (ha : a = 4 ∨ a = 8) (h : n % a ≠ 0) :
    padLen a n = 1 + padLen a (n + 1) := by
  rcases ha with rfl | rfl <;> simp only [padLen] <;> omega

theorem zeros_add (m n : ℕ) : zeros (m + n) = zeros m ++ zeros n :=
  List.replicate_add m n 0

/-- The loop of the padding. -/
theorem Wrote.padLoop {a n : ℕ} (ha : a = 4 ∨ a = 8) (h : Wrote w bs k)
    (hn : padLen a bs.length ≤ n) :
    ∃ k', Wrote (padLoop ample a n w) (bs ++ zeros (padLen a bs.length)) k' := by
  induction n generalizing w bs k with
  | zero =>
    have hz : padLen a bs.length = 0 := Nat.le_zero.mp hn
    rw [hz]
    exact ⟨k, by simpa [zeros, DBus.padLoop] using h⟩
  | succ n ih =>
    have hoom : (wbU8 ample 0 w).oom = false := (h.put [0]).oom
    simp only [DBus.padLoop, h.b, hoom, Bool.false_eq_true, if_false]
    split_ifs with hmod
    · rw [padLen_eq_zero hmod]
      exact ⟨k, by simpa [zeros] using h⟩
    · have hsucc := padLen_succ ha hmod
      obtain ⟨k', hk'⟩ := ih (h.put [0]) (by rw [List.length_append, List.length_singleton]; omega)
      refine ⟨k', ?_⟩
      rw [List.length_append, List.length_singleton, List.append_assoc] at hk'
      rw [hsucc, zeros_add]
      exact hk'

theorem Wrote.pad {a : ℕ} (ha : a = 4 ∨ a = 8) (h : Wrote w bs k) :
    Wrote (wbPad ample a w) (bs ++ zeros (padLen a bs.length)) bs.length := by
  have hlt : padLen a bs.length < a := by rcases ha with rfl | rfl <;> exact padLen_lt (by decide) _
  obtain ⟨k', hk'⟩ := h.padLoop ha hlt.le
  exact ⟨hk'.b, congrArg List.length h.b, hk'.oom, hk'.stuck, hk'.cap⟩

/-! ## Values -/

theorem bytes_u32 (v : UInt32) :
    [v.toUInt8, (v >>> 8).toUInt8, (v >>> 16).toUInt8, (v >>> 24).toUInt8] = le 4 v.toNat := by
  simp only [le, List.cons.injEq, and_true, ← UInt8.toNat_inj]
  simp [Nat.shiftRight_eq_div_pow, Nat.div_div_eq_div_mul]

theorem bytes_u64 (v : UInt64) :
    [v.toUInt8, (v >>> 8).toUInt8, (v >>> 16).toUInt8, (v >>> 24).toUInt8, (v >>> 32).toUInt8,
      (v >>> 40).toUInt8, (v >>> 48).toUInt8, (v >>> 56).toUInt8] = le 8 v.toNat := by
  simp only [le, List.cons.injEq, and_true, ← UInt8.toNat_inj]
  simp [Nat.shiftRight_eq_div_pow, Nat.div_div_eq_div_mul]

theorem bytes_patch (n : ℕ) :
    ([.ofNat n, .ofNat (n >>> 8), .ofNat (n >>> 16), .ofNat (n >>> 24)] : Bytes) = le 4 n := by
  simp [le, Nat.shiftRight_eq_div_pow, Nat.div_div_eq_div_mul]

/-- A writer at the end of a value, perhaps with a part of the padding after it. -/
def Ends (w : Wb) (bs : Bytes) : Prop :=
  ∃ k, k ≤ padLen 4 bs.length ∧ Wrote w (bs ++ zeros k) bs.length

theorem Wrote.ends (h : Wrote w bs bs.length) : Ends w bs :=
  ⟨0, Nat.zero_le _, by simpa [zeros] using h⟩

/-- Padding from there is padding from the end of the value. -/
theorem Ends.pad {a : ℕ} (ha : a = 4 ∨ a = 8) (h : Ends w bs) :
    ∃ n, Wrote (wbPad ample a w) (bs ++ zeros (padLen a bs.length)) n := by
  obtain ⟨k, hk, hw⟩ := h
  have hsum : k + padLen a (bs.length + k) = padLen a bs.length := by
    rcases ha with rfl | rfl
    · exact add_padLen_four_of_le hk
    · exact add_padLen_of_le (hk.trans (padLen_four_le _))
  have hpad := hw.pad ha
  rw [List.length_append, length_zeros, List.append_assoc, ← zeros_add, hsum] at hpad
  exact ⟨_, hpad⟩

/-- The longest string that the writer takes. -/
def Writable (s : CStr) : Prop := s.val.length ≤ 0x0fffffff

theorem Wrote.u32 (h : Wrote w bs k) (v : UInt32) :
    Wrote (wbU32 ample v w) (bs ++ le 4 v.toNat) (bs.length + 4) := by
  rw [← bytes_u32]
  exact h.put _

theorem Wrote.str (h : Wrote w bs k) {s : CStr} (hs : Writable s) :
    Ends (wbStr ample s w) (bs ++ (Value.str s).raw) := by
  have hlen : (UInt32.ofNat s.val.length).toNat = s.val.length := by
    have : s.val.length < 2 ^ 32 := by unfold Writable at hs; omega
    exact Nat.mod_eq_of_lt this
  have hraw : bs ++ (Value.str s).raw = bs ++ le 4 s.val.length ++ s.val ++ [0] := by
    simp [Value.raw]
  have hnum := h.u32 (.ofNat s.val.length)
  rw [hlen] at hnum
  rw [wbStr, if_neg (Nat.not_lt.mpr hs), hraw]
  exact ⟨_, le_rfl, ((hnum.put s.val).put [0]).pad (.inl rfl)⟩

theorem Wrote.sig (h : Wrote w bs k) {s : CStr} (hs : s.val.length ≤ 255) :
    Ends (wbSig ample s w) (bs ++ (Value.sig s).raw) := by
  have hraw : bs ++ (Value.sig s).raw = bs ++ [.ofNat s.val.length] ++ s.val ++ [0] := by
    simp [Value.raw, le]
  rw [wbSig, if_neg (Nat.not_lt.mpr hs), hraw]
  refine Wrote.ends ?_
  have := ((h.put [.ofNat s.val.length]).put s.val).put [0]
  rwa [← List.length_append] at this

/-! ## Arguments -/

/-- An argument of a type that the client sends. -/
inductive Param
  | s (text : CStr)
  | d (bits : UInt64)
  | u (n : UInt32)
  deriving DecidableEq

namespace Param

/-- The argument as the caller gives it. -/
def arg : Param → Arg
  | .s text => .s text
  | .d bits => .d bits
  | .u n => .u n

/-- The value that is sent. -/
def value : Param → Value
  | .s text => .str text
  | .d bits => .f64 bits
  | .u n => .u32 n

/-- The signature of arguments. -/
def signature (ps : List Param) : CStr :=
  ⟨ps.map fun p => p.value.code, by
    intro h
    obtain ⟨p, -, hp⟩ := List.mem_map.mp h
    cases p <;> simp [value, Value.code] at hp⟩

/-- An argument that fits the writer. -/
def Writable : Param → Prop
  | .s text => DBus.Writable text
  | .d _ | .u _ => True

end Param

/-- An argument after what is there already. -/
theorem ends_bodyAddArg {p : Param} (h : Ends w bs) (hp : p.Writable) :
    ∃ w', bodyAddArg ample w p.arg = some w' ∧ Ends w' (bs ++ marshal bs.length p.value) := by
  obtain ⟨n₄, h₄⟩ := h.pad (.inl rfl)
  obtain ⟨n₈, h₈⟩ := h.pad (.inr rfl)
  cases p with
  | s text =>
    refine ⟨_, rfl, ?_⟩
    rw [marshal, ← List.append_assoc]
    exact h₄.str hp
  | d bits =>
    refine ⟨_, rfl, ?_⟩
    rw [marshal, ← List.append_assoc]
    have := h₈.put (le 8 bits.toNat)
    rw [← bytes_u64, ← List.length_append] at this
    exact Wrote.ends (by rw [Param.value, Value.raw, ← bytes_u64]; exact this)
  | u n =>
    refine ⟨_, rfl, ?_⟩
    rw [marshal, ← List.append_assoc]
    have := h₄.put (le 4 n.toNat)
    rw [← bytes_u32, ← List.length_append] at this
    exact Wrote.ends (by rw [Param.value, Value.raw, ← bytes_u32]; exact this)

/-- The arguments, by induction on the list of them. -/
theorem ends_foldlM {ps : List Param} (h : Ends w bs) (hps : ∀ p ∈ ps, p.Writable) :
    ∃ w', (ps.map Param.arg).foldlM (bodyAddArg ample) w = some w' ∧
      Ends w' (bs ++ marshalSeq marshal bs.length (ps.map Param.value)) := by
  induction ps generalizing w bs with
  | nil => exact ⟨w, rfl, by simpa [marshalSeq] using h⟩
  | cons p ps ih =>
    obtain ⟨w₁, hstep, h₁⟩ := ends_bodyAddArg h (hps p List.mem_cons_self)
    obtain ⟨w₂, hrest, h₂⟩ := ih h₁ fun q hq => hps q (List.mem_cons_of_mem _ hq)
    refine ⟨w₂, ?_, ?_⟩
    · rw [List.map_cons, List.foldlM_cons, hstep]
      exact hrest
    · rwa [List.length_append, List.append_assoc] at h₂

theorem ends_bodyOf {ps : List Param} (hps : ∀ p ∈ ps, p.Writable) :
    ∃ w', bodyOf ample (ps.map Param.arg) = some w' ∧
      Ends w' (marshalSeq marshal 0 (ps.map Param.value)) :=
  ends_foldlM wrote_zero.ends hps

/-! ## Header fields -/

theorem ends_hdrField (code : UInt8) {v : Value} {val : CStr → Wb → Wb} {data : CStr}
    (h : Ends w bs) (hv : InHeader v)
    (hval : ∀ {w bs k}, Wrote w bs k → Ends (val data w) (bs ++ v.raw)) :
    Ends (hdrField ample code v.code val data w) (bs ++ marshalField bs.length ⟨code, v⟩) := by
  obtain ⟨n, hpad⟩ := h.pad (.inr rfl)
  have hmod := add_padLen_mod (a := 8) (by decide) bs.length
  have hhead := (((hpad.put [code]).put [1]).put [v.code]).put [0]
  have hbytes : bs ++ zeros (padLen 8 bs.length) ++ [code] ++ [1] ++ [v.code] ++ [0] ++ v.raw =
      bs ++ marshalField bs.length ⟨code, v⟩ := by
    rw [marshalField_eq hv]
    simp
  rw [← hbytes, hdrField]
  split_ifs with halign
  · -- the value is aligned already
    have hlen : (bs ++ zeros (padLen 8 bs.length) ++ [code] ++ [1] ++ [v.code] ++ [0]).length % 4 =
        0 := by
      simp only [List.length_append, length_zeros, List.length_singleton]
      omega
    have hfour := hhead.pad (.inl rfl)
    rw [padLen_eq_zero hlen, show zeros 0 = [] from rfl, List.append_nil] at hfour
    exact hval hfour
  · exact hval hhead

/-- One more header field after others. -/
theorem ends_nextField (code : UInt8) {pre : Bytes} {fs : List HeaderField} {v : Value}
    {val : CStr → Wb → Wb} {data : CStr}
    (h : Ends w (pre ++ marshalSeq marshalField pre.length fs)) (hv : InHeader v)
    (hval : ∀ {w bs k}, Wrote w bs k → Ends (val data w) (bs ++ v.raw)) :
    Ends (hdrField ample code v.code val data w)
      (pre ++ marshalSeq marshalField pre.length (fs ++ [⟨code, v⟩])) := by
  have := ends_hdrField code h hv hval
  rw [List.length_append, List.append_assoc] at this
  rwa [marshalSeq_append, marshalSeq, marshalSeq, List.append_nil]

/-! ## Messages of calls -/

/-- The header fields of a call; no arguments have no signature. -/
def callFields (dest path iface member : CStr) (ps : List Param) : List HeaderField :=
  [⟨1, .path path⟩, ⟨2, .str iface⟩, ⟨3, .str member⟩, ⟨6, .str dest⟩] ++
    if ps = [] then [] else [⟨8, .sig (Param.signature ps)⟩]

/-- The message of a call. -/
def callMessage (serial : UInt32) (dest path iface member : CStr) (ps : List Param) : Message where
  type := 1
  flags := 0
  version := 1
  serial := serial
  fields := callFields dest path iface member ps
  body := marshalSeq marshal 0 (ps.map Param.value)

theorem patchU32_append {a b : Bytes} (c : Bytes) (n : ℕ) (hb : b.length = 4) :
    patchU32 (a ++ (b ++ c)) a.length n = a ++ (le 4 n ++ c) := by
  have hdrop : (a ++ (b ++ c)).drop (a.length + 4) = c := by
    rw [← List.append_assoc, ← hb, ← List.length_append, List.drop_left]
  rw [patchU32, List.take_left, hdrop, bytes_patch, List.append_assoc]

variable {serial : UInt32} {dest path iface member : CStr} {ps : List Param}

/-- The strings of a call whose message is not too long. -/
theorem writable_of_mem_fields {f : HeaderField}
    (hmax : (callMessage serial dest path iface member ps).encode.length ≤ maxMessage)
    (hf : f ∈ callFields dest path iface member ps) : f.value.raw.length ≤ maxMessage := by
  have hraw := le_length_marshalSeq length_raw_le_marshalField 16 hf
  rw [Message.length_encode] at hmax
  have : (callMessage serial dest path iface member ps).fieldBytes.length =
      (marshalSeq marshalField 16 (callFields dest path iface member ps)).length := rfl
  omega

theorem writable_of_mem_args {p : Param}
    (hmax : (callMessage serial dest path iface member ps).encode.length ≤ maxMessage)
    (hp : p ∈ ps) : p.value.raw.length ≤ maxMessage := by
  have hraw := le_length_marshalSeq length_raw_le_marshal 0 (List.mem_map_of_mem (f := Param.value) hp)
  rw [Message.length_encode] at hmax
  have : (callMessage serial dest path iface member ps).body.length =
      (marshalSeq marshal 0 (ps.map Param.value)).length := rfl
  omega

theorem writable_of_raw_le {s : CStr} (h : (Value.str s).raw.length ≤ maxMessage) : Writable s := by
  simp only [Value.raw, List.length_append, length_le, List.length_singleton, maxMessage] at h
  unfold Writable
  omega

theorem wrote_headerStart (bodyLen serial : UInt32) : Wrote (headerStart ample bodyLen serial)
    ([0x6C, 1, 0, 1] ++ le 4 bodyLen.toNat ++ le 4 serial.toNat) 12 :=
  (((((wrote_zero.put [0x6C]).put [1]).put [0]).put [1]).u32 bodyLen).u32 serial

/-- The header fields after the fixed header. -/
theorem ends_headerFieldsOf (hps : ps.length ≤ 255) (hstart : Wrote w bs k) (hbs : bs.length = 12)
    (hmax : (callMessage serial dest path iface member ps).encode.length ≤ maxMessage) :
    Ends (headerFieldsOf ample dest path iface member (Param.signature ps) w)
      (bs ++ le 4 0 ++ (callMessage serial dest path iface member ps).fieldBytes) := by
  set pre := bs ++ le 4 0 with hpre
  have hlen : pre.length = 16 := by simp [hpre, hbs]
  have hfixed : Wrote (wbU32 ample 0 w) pre pre.length := by
    have := hstart.u32 0
    rw [hbs] at this
    rwa [hlen]
  have hstr {f : HeaderField} {s : CStr} (hf : f ∈ callFields dest path iface member ps)
      (hraw : (Value.str s).raw.length = f.value.raw.length) : Writable s :=
    writable_of_raw_le (hraw ▸ writable_of_mem_fields hmax hf)
  -- the fields in their order, each behind those before it
  have h₀ : Ends (wbU32 ample 0 w) (pre ++ marshalSeq marshalField pre.length []) :=
    Wrote.ends (by rwa [marshalSeq, List.append_nil])
  have h₁ := ends_nextField 1 (v := .path path) h₀ trivial fun h =>
    h.str (hstr (f := ⟨1, .path path⟩) (by simp [callFields]) rfl)
  have h₂ := ends_nextField 2 (v := .str iface) h₁ trivial fun h =>
    h.str (hstr (f := ⟨2, .str iface⟩) (by simp [callFields]) rfl)
  have h₃ := ends_nextField 3 (v := .str member) h₂ trivial fun h =>
    h.str (hstr (f := ⟨3, .str member⟩) (by simp [callFields]) rfl)
  have h₄ := ends_nextField 6 (v := .str dest) h₃ trivial fun h =>
    h.str (hstr (f := ⟨6, .str dest⟩) (by simp [callFields]) rfl)
  -- the signature is left out where there is no argument
  cases ps with
  | nil =>
    rw [hlen] at h₄
    exact h₄
  | cons p ps =>
    have h₅ := ends_nextField 8 (v := .sig (Param.signature (p :: ps))) h₄ trivial
      fun h => h.sig (by simpa [Param.signature] using hps)
    have hne : Param.signature (p :: ps) ≠ .empty := by simp [Param.signature, CStr.empty]
    rw [hlen] at h₅
    rw [headerFieldsOf, if_neg hne]
    exact h₅

/-- The end of `build_call`, when nothing failed. -/
theorem finishCall_eq {hdr body : Wb} {start fields args : Bytes} (hstart : start.length = 12)
    (hhdr : Ends hdr (start ++ le 4 0 ++ fields)) (hbody : Ends body args)
    (hmax : 16 + fields.length + padLen 8 (16 + fields.length) + args.length ≤ maxMessage) :
    finishCall .ample 12 hdr body = .message (start ++ le 4 fields.length ++ fields ++
      zeros (padLen 8 (16 + fields.length)) ++ args) := by
  obtain ⟨k, hk, hw⟩ := hhdr
  obtain ⟨kb, -, hwb⟩ := hbody
  have hlen (n : ℕ) : (start ++ le 4 n ++ fields).length = 16 + fields.length := by
    simp only [List.length_append, length_le, hstart]
  -- the length of the fields is written over the four zeros
  have hpatch : patchU32 hdr.b 12 (hdr.nodepad - 12 - 4) =
      start ++ le 4 fields.length ++ fields ++ zeros k := by
    have hn : hdr.nodepad - 12 - 4 = fields.length := by
      rw [hw.nodepad, hlen]
      omega
    rw [hn, hw.b, ← hstart]
    simp only [List.append_assoc]
    exact patchU32_append _ _ (length_le 4 0)
  have hpatched : Ends { hdr with b := patchU32 hdr.b 12 (hdr.nodepad - 12 - 4) }
      (start ++ le 4 fields.length ++ fields) := by
    rw [hlen] at hk hw
    refine ⟨k, by rwa [hlen], hpatch, ?_, hw.oom, hw.stuck, fun _ => ?_⟩
    · rw [hlen]
      exact hw.nodepad
    · exact hw.cap (by simp [le])
  obtain ⟨n, hpad⟩ := hpatched.pad (.inr rfl)
  -- every part was written, and the whole fits
  have hcap : hdr.cap ≠ 0 := hw.cap (by simp [le])
  rw [hlen] at hpad
  have htake : body.b.take args.length = args := by rw [hwb.b, List.take_left]
  have hfits : ¬ ((start ++ le 4 fields.length ++ fields ++
      zeros (padLen 8 (16 + fields.length))).length + args.length > maxMessage) := by
    rw [List.length_append, hlen, length_zeros]
    omega
  have hample : (Memory.ample).hdr = ample := rfl
  simp only [finishCall, hwb.stuck, hcap, hample, hpad.stuck, hpad.oom, hwb.oom, hpad.b,
    hwb.nodepad, htake, hfits]
  simp [Memory.ample]

/-- `build_call` writes the message of the call. -/
theorem buildCall_eq (hps : ps.length ≤ 255)
    (hmax : (callMessage serial dest path iface member ps).encode.length ≤ maxMessage) :
    buildCall .ample serial dest path iface member (Param.signature ps) (ps.map Param.arg) =
      .message (callMessage serial dest path iface member ps).encode := by
  have hlength := Message.length_encode (callMessage serial dest path iface member ps)
  have hwritable : ∀ p ∈ ps, p.Writable := by
    intro p hp
    cases p with
    | s text => exact writable_of_raw_le (writable_of_mem_args hmax hp)
    | d bits | u n => trivial
  obtain ⟨body, hbody, hends⟩ := ends_bodyOf hwritable
  have hargs : (ps.map Param.arg).take (Param.signature ps).val.length = ps.map Param.arg :=
    List.take_of_length_le (by simp [Param.signature])
  have hnodepad : body.nodepad = (callMessage serial dest path iface member ps).body.length := by
    obtain ⟨_, _, hw⟩ := hends
    exact hw.nodepad
  -- the length of the body fits its field
  have hnum : (UInt32.ofNat body.nodepad).toNat =
      (callMessage serial dest path iface member ps).body.length := by
    rw [hnodepad]
    refine Nat.mod_eq_of_lt (lt_of_le_of_lt ?_ (show maxMessage < 2 ^ 32 by decide))
    omega
  have hstart := wrote_headerStart (.ofNat body.nodepad) serial
  rw [hnum] at hstart
  have hstartLen : (headerStart ample (.ofNat body.nodepad) serial).b.length = 12 := by
    rw [hstart.b]
    simp
  -- the header behind its first twelve bytes, then both parts together
  have hfields := ends_headerFieldsOf hps hstart (by simp) hmax
  have hbodyOf : bodyOf Memory.ample.body (ps.map Param.arg) = some body := hbody
  rw [buildCall, hargs, hbodyOf]
  change finishCall .ample (headerStart ample (.ofNat body.nodepad) serial).b.length _ _ = _
  rw [hstartLen]
  exact finishCall_eq (by simp) hfields hends (by rw [← hlength]; exact hmax)

/-! ## Every call -/

/-- What is to hold of the message of a call. -/
structure Marshaled (serial : UInt32) (dest path iface member : CStr) (ps : List Param)
    (msg : Bytes) : Prop where
  /-- All padding is zero, and what follows the last header field and the last argument is not
  counted. -/
  layout : msg = (callMessage serial dest path iface member ps).encode
  length : msg.length =
    16 + fixedU32 msg 12 + padLen 8 (16 + fixedU32 msg 12) + fixedU32 msg 4
  /-- A decoder that goes by the specification finds all that was asked for, the header fields where
  they start. -/
  decoded : decodeMessage msg = some ⟨1, 0, 1, serial,
    located 16 (callFields dest path iface member ps), ps.map Param.value⟩
  aligned : ∀ f ∈ located 16 (callFields dest path iface member ps), f.1 % 8 = 0
  /-- The client reads its own header. -/
  parsed : ∀ heap, parseHeaderFields (buffer msg heap) msg.length (fixedU32 msg 12) =
    some ⟨none, if ps = [] then none else some (Param.signature ps), 0⟩

theorem inHeader_of_mem_callFields {f : HeaderField}
    (hf : f ∈ callFields dest path iface member ps) : InHeader f.value := by
  unfold callFields at hf
  split_ifs at hf <;> simp only [List.mem_append, List.mem_cons, List.not_mem_nil] at hf
  · rcases hf with (rfl | rfl | rfl | rfl | h) | h
    all_goals trivial
  · rcases hf with (rfl | rfl | rfl | rfl | h) | rfl | h
    all_goals trivial

theorem fits_of_mem_callFields {f : HeaderField} (hps : ps.length ≤ 255)
    (hmax : (callMessage serial dest path iface member ps).encode.length ≤ maxMessage)
    (hf : f ∈ callFields dest path iface member ps) : f.value.Fits := by
  have hraw := writable_of_mem_fields hmax hf
  obtain ⟨code, v⟩ := f
  cases v with
  | u32 n | f64 bits => trivial
  | str s | path s =>
    simp only [Value.raw, List.length_append, length_le, maxMessage] at hraw
    change s.val.length < 2 ^ 32
    omega
  | sig s =>
    -- the only signature is that of the arguments
    obtain rfl : s = Param.signature ps := by
      unfold callFields at hf
      split_ifs at hf
      · simp at hf
      · exact (show code = 8 ∧ s = Param.signature ps by simpa using hf).2
    simpa [Value.Fits, Param.signature] using Nat.lt_succ_of_le hps

theorem fits_of_mem_args {v : Value}
    (hmax : (callMessage serial dest path iface member ps).encode.length ≤ maxMessage)
    (hv : v ∈ ps.map Param.value) : v.Fits := by
  obtain ⟨p, hp, rfl⟩ := List.mem_map.mp hv
  have hraw := writable_of_mem_args hmax hp
  cases p with
  | d bits | u n => trivial
  | s text =>
    simp only [Param.value, Value.raw, List.length_append, length_le, maxMessage] at hraw
    change text.val.length < 2 ^ 32
    omega

/-- The body is what the signature says. -/
theorem carries_callMessage (hps : ps.length ≤ 255)
    (hmax : (callMessage serial dest path iface member ps).encode.length ≤ maxMessage) :
    (callMessage serial dest path iface member ps).Carries (ps.map Param.value) where
  fields_fit _ hf := fits_of_mem_callFields hps hmax hf
  args_fit _ hv := fits_of_mem_args hmax hv
  signature := by
    cases ps with
    | nil => rfl
    | cons p ps => simp [callMessage, callFields, signatureOf, Param.signature]
  body := by
    refine marshalSeq_of_mod_eq (fun v _ => v.align_dvd) ?_
    exact (add_padLen_mod (by decide) _).symm

theorem foldl_keepField_callFields : (callFields dest path iface member ps).foldl keepField
    ⟨none, none, 0⟩ = ⟨none, if ps = [] then none else some (Param.signature ps), 0⟩ := by
  cases ps with
  | nil => rfl
  | cons p ps => rfl

/-- The message of every call that is not too long is well formed. -/
theorem marshaled_buildCall (serial : UInt32) (dest path iface member : CStr) (ps : List Param)
    (hps : ps.length ≤ 255)
    (hmax : (callMessage serial dest path iface member ps).encode.length ≤ maxMessage) :
    ∃ msg, buildCall .ample serial dest path iface member (Param.signature ps) (ps.map Param.arg) =
      .message msg ∧ Marshaled serial dest path iface member ps msg := by
  have hlt : (callMessage serial dest path iface member ps).encode.length < 2 ^ 32 :=
    lt_of_le_of_lt hmax (by decide)
  obtain ⟨hbodyLen, hfieldsLen⟩ := fixedU32_fixed (_ ++ (_ ++ _)) hlt
  rw [← List.append_assoc, ← List.append_assoc, ← Message.encode] at hbodyLen hfieldsLen
  refine ⟨_, buildCall_eq hps hmax, rfl, ?_, ?_, fun f hf => located_mod hf, fun heap => ?_⟩
  · rw [hbodyLen, hfieldsLen, Message.length_encode]
  · exact decodeMessage_encode (carries_callMessage hps hmax) hlt
  · have hfields := headerFields_encode heap (fun f hf => ⟨inHeader_of_mem_callFields hf,
      fits_of_mem_callFields hps hmax hf⟩) hlt
    rw [parseHeaderFields, hfieldsLen, hfields, Option.map_some]
    exact congrArg some foldl_keepField_callFields

/-- Arguments of every type. -/
def sampleParams : List Param := [.s (.lit "aa:bb"), .d 0x4000000000000000, .u 3]

theorem marshaled_sample : ∃ msg,
    buildCall .ample 7 (.lit "org.lgmagic") (.lit "/org/lgmagic/Manager") (.lit "org.lgmagic.Manager")
      (.lit "SetScrollSpeed") (Param.signature sampleParams) (sampleParams.map Param.arg) =
      .message msg ∧
    Marshaled 7 (.lit "org.lgmagic") (.lit "/org/lgmagic/Manager") (.lit "org.lgmagic.Manager")
      (.lit "SetScrollSpeed") sampleParams msg :=
  marshaled_buildCall 7 _ _ _ _ _ (by decide) (by decide +kernel)

end DBus
