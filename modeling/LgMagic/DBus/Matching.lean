import LgMagic.DBus.Reply

/-!
# Replies and calls

Which call a reply belongs to, over runs of calls on one connection with any messages, in any pieces,
and with failures of reading anywhere. A method return is compared with the serial of the call, an
error is not: an error that comes late is taken for the reply to a later call.

* `Delimited`, `fieldsOf`, `CarriesSerial`: messages of the stream;
* `readMessage_of_delimited`: at the start of a message exactly that message is read;
* `TakenFrom`, `Matched`, `calls`: what is reported in a run;
* `Mistakable`, `Clear`: when no other message is taken for the reply;
* `matched_of_clear`: every run;
* `delimited_encode`, `fieldsOf_encode`: messages of the wire format;
* `not_matched`: a late error.
-/

namespace DBus

open ChunkedInput CString WireFormat

/-! ## Messages of a stream -/

/-- The type of a message. -/
def typeOf (m : Bytes) : UInt8 := m.getD 1 0

/-- A whole message, by the lengths in its fixed header; of other than little-endian messages nothing
more is read. -/
structure Delimited (m : Bytes) : Prop where
  fixed : 16 ≤ m.length
  length : m.head? = some 0x6C → m.length =
    16 + (fixedU32 m 12 + padLen 8 (16 + fixedU32 m 12) + fixedU32 m 4)

/-- The header fields of a message. -/
def fieldsOf (m : Bytes) : Option (List HeaderField) :=
  headerFields (buffer m fun _ => 0) m.length (fixedU32 m 12)

/-- The message is a reply to the call of the serial, by its `REPLY_SERIAL` field. -/
def CarriesSerial (serial : UInt32) (m : Bytes) : Prop :=
  ∃ fs, fieldsOf m = some fs ∧ ⟨5, .u32 serial⟩ ∈ fs

/-- A message in the form the client keeps it in, by what lies behind it. -/
def frame? (heap : Mem) (m : Bytes) : Option Frame :=
  (headerFields (buffer m heap) m.length (fixedU32 m 12)).map fun fs =>
    ⟨m, fixedU32 m 12, fs.foldl keepField ⟨none, none, 0⟩⟩

/-! ## Numbers in the header are in the message -/

section

variable {mem mem' : Mem} {n fend fp fp' : ℕ} {fsig : UInt8}

theorem slice_congr {p k : ℕ} (h : ∀ i < n, mem i = mem' i) (hk : p + k ≤ n) :
    slice mem p k = slice mem' p k := by
  refine List.map_congr_left fun i hi => h _ ?_
  have := List.mem_range.mp hi
  omega

/-- The fields have the same code, and the same number if one of them holds a number. -/
structure SameNumber (f f' : HeaderField) : Prop where
  code : f.code = f'.code
  value : ∀ n, f.value = .u32 n ↔ f'.value = .u32 n

/-- A value that ends in the message is read from the message, a text perhaps from behind it: a length
at the end of the fields leads there, and the longest one back. -/
theorem parseFieldValue_congr (h : ∀ i < n, mem i = mem' i) (hzero : ∀ i, n ≤ i → mem' i = 0)
    {v : Value} (hparse : parseFieldValue mem fend fsig fp = some (v, fp')) (hfp : fp' ≤ n) :
    ∃ v', parseFieldValue mem' fend fsig fp = some (v', fp') ∧ ∀ k, v = .u32 k ↔ v' = .u32 k := by
  rcases parseFieldValue_cases hparse with ⟨hstr, hshort, hlong, hnul, hv, hend⟩ |
    ⟨rfl, hshort, rfl, rfl⟩ | ⟨rfl, hlong, hv, rfl⟩
  · rw [hend] at hfp ⊢
    have hle := le_skipPad 4 fend (fp + 4 + (u32At mem fp + 1) % 2 ^ 32)
    have hlen : u32At mem fp = u32At mem' fp := congrArg ofLe (slice_congr h (by omega))
    rw [hlen] at hlong hnul ⊢
    have hnul' : mem' (fp + 4 + u32At mem' fp) = 0 := by
      by_cases hin : fp + 4 + u32At mem' fp < n
      · exact (h _ hin).symm.trans hnul
      · exact hzero _ (Nat.le_of_not_lt hin)
    rw [parseFieldValue, if_pos hstr]
    dsimp only
    rw [if_neg (Nat.not_lt.mpr hshort), if_neg hlong, if_neg (not_not_intro hnul')]
    refine ⟨_, rfl, fun k => iff_of_false (hv k) ?_⟩
    by_cases hs : fsig = 0x73 <;> simp [hs]
  · have hlen : u32At mem fp = u32At mem' fp := congrArg ofLe (slice_congr h (by omega))
    refine ⟨.u32 (.ofNat (u32At mem' fp)), ?_, fun k => by rw [hlen]⟩
    rw [parseFieldValue, if_neg (by decide), if_pos rfl, if_neg (Nat.not_lt.mpr hshort)]
  · have hlen : mem fp = mem' fp := h fp (by omega)
    rw [hlen] at hlong ⊢
    refine ⟨.sig (CStr.ofBuffer (slice mem' (fp + 1) (mem' fp).toNat)), ?_,
      fun k => iff_of_false (hv k) (by simp)⟩
    rw [parseFieldValue, if_neg (by decide), if_neg (by decide), if_pos rfl, if_neg (by omega)]
    dsimp only
    rw [if_neg (Nat.not_lt.mpr hlong)]

theorem parseField_congr (h : ∀ i < n, mem i = mem' i) (hzero : ∀ i, n ≤ i → mem' i = 0)
    {f : HeaderField} (hparse : parseField mem fend fp = some (f, fp')) (hfp : fp' ≤ n) :
    ∃ f', parseField mem' fend fp = some (f', fp') ∧ SameNumber f f' := by
  obtain ⟨start, hstart, hshort, hone, hnul, hcode, stop, hstop, hle, hvalue⟩ :=
    parseField_cases hparse
  have hlt := lt_of_parseFieldValue hvalue
  rw [h _ (by omega)] at hone hnul hcode
  rw [h (start + 2) (by omega)] at hstop hvalue
  obtain ⟨v', hvalue', hv⟩ := parseFieldValue_congr h hzero hvalue hfp
  refine ⟨⟨mem' start, v'⟩, ?_, ⟨hcode, hv⟩⟩
  rw [parseField]
  dsimp only
  rw [hstart, if_neg (Nat.not_lt.mpr hshort),
    if_neg (not_or.mpr ⟨not_not_intro hone, not_not_intro hnul⟩), hstop, hvalue']
  rfl

/-- By induction on the number of fields. -/
theorem scanFields_congr (h : ∀ i < n, mem i = mem' i) (hzero : ∀ i, n ≤ i → mem' i = 0) {k : ℕ}
    {fs : List HeaderField} (hscan : scanFields mem fend k fp = some (fs, fp')) (hfp : fp' ≤ n) :
    fp ≤ fp' ∧
      ∃ fs', scanFields mem' fend k fp = some (fs', fp') ∧ List.Forall₂ SameNumber fs fs' := by
  induction k generalizing fp fs with
  | zero =>
    obtain ⟨rfl, rfl⟩ := Prod.mk.inj (Option.some.inj hscan)
    exact ⟨le_rfl, [], rfl, .nil⟩
  | succ k ih =>
    rw [scanFields] at hscan ⊢
    split_ifs at hscan ⊢ with hmore
    · obtain ⟨⟨f, next⟩, hfield, hscan⟩ := Option.bind_eq_some_iff.mp hscan
      obtain ⟨⟨rest, stop⟩, hrest, hfs⟩ := Option.bind_eq_some_iff.mp hscan
      obtain ⟨rfl, rfl⟩ := Prod.mk.inj (Option.some.inj hfs)
      obtain ⟨hle, rest', hrest', hsame⟩ := ih hrest
      obtain ⟨f', hfield', hf⟩ := parseField_congr h hzero hfield (hle.trans hfp)
      have hlt := lt_of_parseField hfield
      refine ⟨by omega, f' :: rest', ?_, .cons hf hsame⟩
      simp only [hfield', Option.bind_eq_bind, Option.bind_some, hrest']
      rfl
    · obtain ⟨rfl, rfl⟩ := Prod.mk.inj (Option.some.inj hscan)
      exact ⟨le_rfl, [], rfl, .nil⟩

end

/-- The numbers in the header of a message are the same wherever it lies. -/
theorem fieldsOf_of_headerFields {m : Bytes} {heap : Mem} {fs : List HeaderField}
    (h : headerFields (buffer m heap) m.length (fixedU32 m 12) = some fs) :
    ∃ fs', fieldsOf m = some fs' ∧ List.Forall₂ SameNumber fs fs' := by
  have hagree : ∀ i < m.length, buffer m heap i = buffer m (fun _ => 0) i := by
    intro i hi
    simp [buffer, List.getD, hi]
  have hzero : ∀ i, m.length ≤ i → buffer m (fun _ => 0) i = 0 := by
    intro i hi
    simp [buffer, List.getD, hi]
  rw [fieldsOf]
  rw [headerFields] at h ⊢
  cases hscan : scanFields (buffer m heap) (16 + fixedU32 m 12) (fixedU32 m 12) 16 with
  | none => rw [hscan] at h; cases h
  | some r =>
    obtain ⟨fs₁, stop⟩ := r
    rw [hscan] at h
    dsimp only at h
    split_ifs at h with hlong
    obtain rfl := Option.some.inj h
    obtain ⟨-, fs', hscan', hsame⟩ := scanFields_congr hagree hzero hscan (Nat.le_of_not_lt hlong)
    rw [hscan']
    exact ⟨fs', if_neg hlong, hsame⟩

theorem SameNumber.keepField_replySerial {f f' : HeaderField} (h : SameNumber f f')
    {r r' : ReplyHeader} (hr : r.replySerial = r'.replySerial) :
    (keepField r f).replySerial = (keepField r' f').replySerial := by
  by_cases hcode : f.code = 5
  · have hcode' : f'.code = 5 := h.code.symm.trans hcode
    obtain ⟨code, v⟩ := f
    obtain ⟨code', v'⟩ := f'
    obtain rfl : code = 5 := hcode
    obtain rfl : code' = 5 := hcode'
    by_cases hv : ∃ n, v = .u32 n
    · obtain ⟨n, rfl⟩ := hv
      obtain rfl : v' = .u32 n := (h.value n).mp rfl
      rfl
    · have hv' : ¬ ∃ n, v' = .u32 n := fun ⟨n, hn⟩ => hv ⟨n, (h.value n).mpr hn⟩
      cases v <;> cases v' <;> first | exact hr | exact absurd ⟨_, rfl⟩ hv | exact absurd ⟨_, rfl⟩ hv'
  · rw [DBus.keepField_replySerial r f hcode,
      DBus.keepField_replySerial r' f' (h.code ▸ hcode), hr]

/-- So is the serial that is kept. -/
theorem replySerial_of_same {fs fs' : List HeaderField} (h : List.Forall₂ SameNumber fs fs')
    {r r' : ReplyHeader} (hr : r.replySerial = r'.replySerial) :
    (fs.foldl keepField r).replySerial = (fs'.foldl keepField r').replySerial := by
  induction h generalizing r r' with
  | nil => exact hr
  | cons hf _ ih => exact ih (hf.keepField_replySerial hr)

/-! ## One message -/

variable {c c' : Conn} {m bs rest : Bytes} {n : ℕ}

/-- What is read is next in the stream. -/
theorem all_of_readn (h : readn n c = (.ok bs, c')) :
    n ≤ c.all.length ∧ bs = c.all.take n ∧ c'.all = c.all.drop n := by
  rw [c.all_eq]
  by_cases hle : n ≤ c.pending.length
  · obtain ⟨d, hread, hpending, -, hafter⟩ := readn_of_le hle
    obtain ⟨hbs, rfl⟩ := Prod.mk.inj (h.symm.trans hread)
    refine ⟨?_, ?_, ?_⟩
    · rw [List.length_append]
      omega
    · rw [List.take_append_of_le_length hle]
      exact Except.ok.inj hbs
    · rw [c'.all_eq, hpending, hafter, List.drop_append_of_le_length hle]
  · rw [readn_of_lt (Nat.lt_of_not_le hle)] at h
    cases h

theorem fixedU32_take {i : ℕ} (hi : i + 4 ≤ 16) (m : Bytes) :
    fixedU32 (m.take 16) i = fixedU32 m i := by
  rw [fixedU32, fixedU32, List.drop_take, List.take_take, min_eq_left (by omega)]

/-- At the start of a message exactly that message is read. -/
theorem readMessage_of_delimited {heap : Mem} {f : Frame} (hm : Delimited m)
    (hall : c.all = m ++ rest) (h : readMessage heap c = (.ok f, c')) :
    frame? heap m = some f ∧ c'.all = rest := by
  rw [readMessage] at h
  cases hfixed : readn 16 c with
  | mk r c₁ =>
  cases r with
  | error e => rw [hfixed] at h; cases h
  | ok fixed =>
    -- the fixed part is the first 16 bytes of the message
    obtain ⟨-, htake, hrest⟩ := all_of_readn hfixed
    rw [hall, List.take_append_of_le_length hm.fixed] at htake
    rw [hall, List.drop_append_of_le_length hm.fixed] at hrest
    subst htake
    simp only [hfixed, fixedU32_take (show 4 + 4 ≤ 16 by decide),
      fixedU32_take (show 12 + 4 ≤ 16 by decide)] at h
    by_cases hendian : (m.take 16).head? ≠ some 0x6C
    · rw [if_pos hendian] at h
      cases h
    by_cases hlarge : maxMessage < fixedU32 m 12 ∨ maxMessage < fixedU32 m 4 ∨
        maxMessage < 16 + fixedU32 m 12 + fixedU32 m 4
    · rw [if_neg hendian, if_pos hlarge] at h
      cases h
    rw [if_neg hendian, if_neg hlarge] at h
    -- the lengths in it give the length of the message
    have hlength := hm.length (by simpa [List.head?_take] using hendian)
    generalize hrestLen : fixedU32 m 12 + padLen 8 (16 + fixedU32 m 12) + fixedU32 m 4 = restLen
      at h hlength
    cases hbody : readn restLen c₁ with
    | mk r c₂ =>
    cases r with
    | error e => rw [hbody] at h; cases h
    | ok tail =>
      -- what is read next is the rest of the message, and no more
      obtain ⟨-, htail, hrest'⟩ := all_of_readn hbody
      have hdrop : (m.drop 16).length = restLen := by
        rw [List.length_drop]
        omega
      rw [hrest, ← hdrop, List.take_left] at htail
      rw [hrest, ← hdrop, List.drop_left] at hrest'
      simp only [hbody, htail, List.take_append_drop] at h
      cases hheader : parseHeaderFields (buffer m heap) (16 + restLen) (fixedU32 m 12) with
      | none => rw [hheader] at h; cases h
      | some header =>
        rw [hheader] at h
        obtain ⟨hf, rfl⟩ := Prod.mk.inj h
        rw [← hlength] at hheader
        obtain ⟨fs, hfields, rfl⟩ := Option.map_eq_some_iff.mp hheader
        refine ⟨?_, hrest'⟩
        rw [frame?, hfields]
        exact congrArg some (Except.ok.inj hf)

theorem msg_of_frame? {heap : Mem} {f : Frame} (h : frame? heap m = some f) : f.msg = m := by
  obtain ⟨fs, -, rfl⟩ := Option.map_eq_some_iff.mp h
  rfl

theorem length_of_readMessage {heap : Mem} {f : Frame} (h : readMessage heap c = (.ok f, c')) :
    16 ≤ c.all.length := by
  rw [readMessage] at h
  cases hfixed : readn 16 c with
  | mk r c₁ =>
  cases r with
  | error e => rw [hfixed] at h; cases h
  | ok fixed => exact (all_of_readn hfixed).1

/-! ## What is reported -/

variable {msgs ms : List Bytes} {serial : UInt32} {o : Outcome}

/-- The caller is given a reply or an error of the other side. -/
def Outcome.Reported : Outcome → Prop
  | .reply _ | .remoteError _ _ => True
  | .failed _ | .hangs | .crashes => False

/-- The outcome is what the message says. -/
def TakenFrom (serial : UInt32) (m : Bytes) (o : Outcome) : Prop :=
  ∃ f heap, frame? heap m = some f ∧ (f.answer (buffer m heap) serial).1 = o

/-- What is reported was taken from a message of the stream that is a reply to this very call. -/
def Matched (msgs : List Bytes) (serial : UInt32) (o : Outcome) : Prop :=
  o.Reported → ∃ m ∈ msgs, CarriesSerial serial m ∧ TakenFrom serial m o

/-- The first message that is no signal. -/
def firstAnswer (ms : List Bytes) : Option Bytes := ms.find? (typeOf · ≠ 4)

/-- What is reported was taken from the first message that is no signal, by induction on the number
of signals that are skipped. -/
theorem takenFrom_of_receive {heap : ℕ → Mem} {n : ℕ} {e : Option CStr}
    (hms : ∀ m ∈ ms, Delimited m) (hall : c.all = ms.flatten)
    (h : receive heap serial n c = ((o, e), c')) (ho : o.Reported) :
    ∃ m, firstAnswer ms = some m ∧ TakenFrom serial m o := by
  induction n generalizing c ms with
  | zero =>
    obtain ⟨h, -⟩ := Prod.mk.inj h
    obtain ⟨rfl, -⟩ := Prod.mk.inj h
    exact ho.elim
  | succ n ih =>
    rw [receive] at h
    cases hread : readMessage (heap n) c with
    | mk r c₁ =>
    cases r with
    | error err =>
      rw [hread] at h
      obtain ⟨h, -⟩ := Prod.mk.inj h
      obtain ⟨rfl, -⟩ := Prod.mk.inj h
      exact ho.elim
    | ok f =>
      rw [hread] at h
      cases ms with
      | nil =>
        have := length_of_readMessage hread
        rw [hall] at this
        exact absurd this (by decide)
      | cons m ms =>
        obtain ⟨hframe, hrest⟩ := readMessage_of_delimited (hms m List.mem_cons_self) hall hread
        have hmsg := msg_of_frame? hframe
        have htype : f.type = typeOf m := congrArg typeOf hmsg
        dsimp only at h
        rw [htype] at h
        rw [firstAnswer, List.find?_cons]
        -- a signal is passed over; anything else is taken for the answer
        by_cases hsignal : typeOf m = 4
        · rw [if_pos hsignal] at h
          rw [show decide (typeOf m ≠ 4) = false by simp [hsignal]]
          exact ih (fun m' hm' => hms m' (List.mem_cons_of_mem _ hm')) hrest h
        · rw [if_neg hsignal] at h
          rw [show decide (typeOf m ≠ 4) = true by simp [hsignal]]
          rw [hmsg] at h
          exact ⟨m, rfl, f, heap n, hframe, congrArg (·.1.1) h⟩

/-- The serial that is kept is one of the `REPLY_SERIAL` fields, or there are none. -/
theorem foldl_keepField_replySerial (fs : List HeaderField) (h : ReplyHeader) :
    ⟨5, .u32 (fs.foldl keepField h).replySerial⟩ ∈ fs ∨
      (fs.foldl keepField h).replySerial = h.replySerial ∧ ∀ n, ⟨5, .u32 n⟩ ∉ fs := by
  induction fs generalizing h with
  | nil => exact .inr ⟨rfl, fun _ => List.not_mem_nil⟩
  | cons f fs ih =>
    rw [List.foldl_cons]
    rcases ih (keepField h f) with hmem | ⟨hsame, hnone⟩
    · exact .inl (List.mem_cons_of_mem _ hmem)
    · by_cases hf : ∃ n, f = ⟨5, .u32 n⟩
      · obtain ⟨n, rfl⟩ := hf
        rw [hsame]
        exact .inl List.mem_cons_self
      · refine .inr ⟨hsame.trans ?_, ?_⟩
        · -- another field leaves the serial as it is
          obtain ⟨code, v⟩ := f
          by_cases hcode : code = 5
          · subst hcode
            cases v with
            | u32 n => exact absurd ⟨n, rfl⟩ hf
            | str s | path s | sig s | f64 b => rfl
          · exact keepField_replySerial h _ hcode
        · intro n hn
          rcases List.mem_cons.mp hn with rfl | hn
          · exact hf ⟨n, rfl⟩
          · exact hnone n hn

/-- The message is taken for the reply to the call of the serial though it does not say so: an error,
whose serial is not looked at, or a method return without a serial, which passes for zero. -/
def Mistakable (serial : UInt32) (m : Bytes) : Prop :=
  ∃ fs, fieldsOf m = some fs ∧ ⟨5, .u32 serial⟩ ∉ fs ∧
    (typeOf m = 3 ∨ typeOf m = 2 ∧ serial = 0 ∧ ∀ n, ⟨5, .u32 n⟩ ∉ fs)

/-- A message that is reported is a reply to the call, or it is mistaken for one. -/
theorem carriesSerial_of_takenFrom (h : TakenFrom serial m o) (ho : o.Reported)
    (hm : ¬ Mistakable serial m) : CarriesSerial serial m := by
  obtain ⟨f, heap, hframe, rfl⟩ := h
  obtain ⟨fs₁, hfields₁, rfl⟩ := Option.map_eq_some_iff.mp hframe
  obtain ⟨fs, hfields, hsame⟩ := fieldsOf_of_headerFields hfields₁
  have hkept := replySerial_of_same hsame (r := ⟨none, none, 0⟩) rfl
  refine ⟨fs, hfields, ?_⟩
  by_contra hserial
  apply hm
  refine ⟨fs, hfields, hserial, ?_⟩
  -- an error is taken for the answer whatever its serial is, a return only with the kept one
  by_cases herror : typeOf m = 3
  · exact .inl herror
  · rw [Frame.answer, show Frame.type ⟨m, _, _⟩ = typeOf m from rfl, if_neg herror] at ho
    by_cases hreturn : typeOf m = 2
    · rw [if_neg (not_not_intro hreturn)] at ho
      rcases foldl_keepField_replySerial fs ⟨none, none, 0⟩ with hmem | ⟨hzero, hnone⟩
      · by_cases hserial' : (fs.foldl keepField ⟨none, none, 0⟩).replySerial = serial
        · exact absurd (hserial' ▸ hmem) hserial
        · rw [if_pos (hkept ▸ hserial')] at ho
          exact ho.elim
      · by_cases hserial' : (fs.foldl keepField ⟨none, none, 0⟩).replySerial = serial
        · exact .inr ⟨hreturn, hserial'.symm.trans hzero, hnone⟩
        · rw [if_pos (hkept ▸ hserial')] at ho
          exact ho.elim
    · rw [if_pos hreturn] at ho
      exact ho.elim

/-! ## Messages in the wire format -/

/-- The messages of the wire format are whole messages. -/
theorem delimited_encode {m : Message} (hmax : m.encode.length ≤ maxMessage) :
    Delimited m.encode := by
  have hlength := m.length_encode
  obtain ⟨hbody, hfields⟩ := fixedU32_fixed (m.fieldBytes ++
    (zeros (padLen 8 (16 + m.fieldBytes.length)) ++ m.body)) (lt_of_le_of_lt hmax (by decide))
  rw [← List.append_assoc, ← List.append_assoc] at hbody hfields
  refine ⟨by omega, fun _ => ?_⟩
  rw [show fixedU32 m.encode 4 = _ from hbody, show fixedU32 m.encode 12 = _ from hfields]
  omega

/-- Their fields are those that were encoded. -/
theorem fieldsOf_encode {m : Message} (hm : Readable m) (hmax : m.encode.length ≤ maxMessage) :
    fieldsOf m.encode = some m.fields := by
  have hfields := (fixedU32_fixed (m.fieldBytes ++
    (zeros (padLen 8 (16 + m.fieldBytes.length)) ++ m.body)) (lt_of_le_of_lt hmax (by decide))).2
  rw [← List.append_assoc, ← List.append_assoc] at hfields
  rw [fieldsOf, show fixedU32 m.encode 12 = _ from hfields]
  exact headerFields_encode _ hm (lt_of_le_of_lt hmax (by decide))

/-! ## Runs -/

/-- Calls on one client, one after another: the client before each of them, and its outcome. -/
def calls : Client → List (World × Call) → List (Client × Outcome)
  | _, [] => []
  | c, (w, call) :: cs => (c, (busCall w c call).1) :: calls (busCall w c call).2 cs

/-- The next call starts with a message of the stream, and the first one that is no signal cannot be
mistaken for its reply. -/
structure Clear (msgs : List Bytes) (c : Client) : Prop where
  clear : ∃ ms, ms <:+ msgs ∧ c.conn.all = ms.flatten ∧
    ∀ m, firstAnswer ms = some m → ¬ Mistakable (c.serial + 1) m

/-- Only what was received is reported. -/
theorem receive_of_busCall (w : World) (c : Client) (call : Call) :
    ¬ (busCall w c call).1.Reported ∨ ∃ n e conn,
      receive w.heap (c.serial + 1) n c.conn = (((busCall w c call).1, e), conn) := by
  unfold busCall
  dsimp only
  split
  · exact .inl id
  split
  · exact .inl id
  split
  · exact .inl id
  cases buildCall w.memory (c.reset.serial + 1) call.dest call.path call.iface call.method
      call.sigIn (call.args.getD []) with
  | failed | hangs | crashes => exact .inl id
  | message msg =>
    cases w.writeError with
    | some e => exact .inl id
    | none => exact .inr ⟨_, _, _, rfl⟩

/-- One call. -/
theorem matched_of_busCall {w : World} {c : Client} {call : Call} (hmsgs : ∀ m ∈ msgs, Delimited m)
    (h : Clear msgs c) : Matched msgs (c.serial + 1) (busCall w c call).1 := by
  intro ho
  obtain ⟨ms, hsuffix, hall, hclear⟩ := h
  obtain ⟨n, e, conn, hreceive⟩ := (receive_of_busCall w c call).resolve_left (not_not_intro ho)
  obtain ⟨m, hfirst, htaken⟩ :=
    takenFrom_of_receive (fun m hm => hmsgs m (hsuffix.subset hm)) hall hreceive ho
  refine ⟨m, hsuffix.subset (List.mem_of_find?_eq_some hfirst), ?_, htaken⟩
  exact carriesSerial_of_takenFrom htaken ho (hclear m hfirst)

/-- What comes for a call: a signal and the reply, in two pieces. -/
def replyEvents : List (ReadEvent ReadError UInt8) :=
  piece (nameAcquired.encode ++ statusReply.encode.take 20) ++ piece (statusReply.encode.drop 20)

theorem clear_replyEvents :
    Clear [nameAcquired.encode, statusReply.encode] (freshClient replyEvents) := by
  refine ⟨[nameAcquired.encode, statusReply.encode], List.suffix_rfl, by decide +kernel, ?_⟩
  intro m hm
  have hfirst : firstAnswer [nameAcquired.encode, statusReply.encode] = some statusReply.encode := by
    decide +kernel
  obtain rfl := Option.some.inj (hfirst.symm.trans hm)
  rintro ⟨fs, hfields, hserial, -⟩
  rw [fieldsOf_encode isReturn_statusReply.readable (by decide +kernel)] at hfields
  obtain rfl := Option.some.inj hfields
  exact hserial isReturn_statusReply.replySerial

/-- An error for the first call. -/
def lateError : Message where
  type := 3
  flags := 1
  version := 1
  serial := 7
  fields := [⟨4, .str (.lit "org.lgmagic.Error.Failed")⟩, ⟨5, .u32 1⟩, ⟨8, .sig (.lit "s")⟩]
  body := marshal 0 (.str (.lit "no such device"))

/-- Time runs out before anything comes. -/
def lateEvents : List (ReadEvent ReadError UInt8) := .failed .timedOut :: piece lateError.encode

theorem readable_lateError : Readable lateError := by decide

theorem length_lateError_le : lateError.encode.length ≤ maxMessage := by decide +kernel

/-- The second of two calls is told the error of the first, which ran out of time. -/
theorem calls_lateError : ∃ c, c.serial = 1 ∧
    calls (freshClient lateEvents) [(calmWorld, reloadCall), (calmWorld, reloadCall)] =
      [(freshClient lateEvents, .failed (.read .timedOut)),
        (c, .remoteError (.lit "org.lgmagic.Error.Failed") (.lit "no such device"))] := by
  obtain ⟨c, hfirst, hconn, hserial, hconnected⟩ :=
    busCall_of_sent (sent_reloadCall (show (freshClient lateEvents).connected = true from rfl))
  have herror : Answers 2 lateError
      (.remoteError (.lit "org.lgmagic.Error.Failed") (.lit "no such device")) :=
    .error ⟨rfl, readable_lateError, by decide, by decide, rfl⟩
  have hpending : c.conn.pending = ([] ++ [lateError]).flatMap Message.encode ++ [] := by
    rw [hconn]
    decide +kernel
  obtain ⟨e, conn, hreceive, -⟩ := @receive_signals _ _ _ _ [] _ calmWorld.heap
    (c.conn.pending.length + 1) (by simp) herror (by simpa using length_lateError_le) hpending
    (Nat.succ_pos _)
  obtain ⟨c', hsecond, -⟩ := busCall_of_sent (sent_reloadCall hconnected)
  rw [hserial] at hsecond
  -- nothing has come when the first call is given up
  have htimeout : (receive calmWorld.heap ((freshClient lateEvents).serial + 1)
      ((freshClient lateEvents).conn.pending.length + 1) (freshClient lateEvents).conn).1.1 =
        .failed (.read .timedOut) := rfl
  refine ⟨c, hserial, ?_⟩
  simp only [calls, hfirst, hsecond, htimeout]
  rw [show (freshClient lateEvents).serial + 1 + 1 = 2 from rfl, hreceive]

end DBus
