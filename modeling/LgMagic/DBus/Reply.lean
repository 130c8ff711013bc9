import LgMagic.DBus.Marshal

/-!
# Replies are decoded

What a call returns when signals and then a reply to it arrive, all in the wire format and in pieces
of any sizes: the value or the error of the reply, with exactly the bytes of these messages read.

* `IsSignal`, `ReplyBody`, `IsReturn`, `IsError`, `Answers`: the messages;
* `readMessage_encode`: one message from the connection;
* `answer_of_answers`: the reply;
* `receive_signals`: signals are skipped;
* `busCall_answers`: every call.
-/

namespace DBus

open ChunkedInput CString WireFormat

/-! ## Messages -/

/-- Every header field is of a type that the client reads. -/
def Readable (m : Message) : Prop := ∀ f ∈ m.fields, InHeader f.value ∧ f.value.Fits

/-- A signal, with any fields and any body. -/
structure IsSignal (m : Message) : Prop where
  type : m.type = 4
  readable : Readable m

/-- The bodies of replies. -/
inductive ReplyBody
  | none
  | string (s : CStr)
  | strings (items : List CStr)
  | variant (s : CStr)

namespace ReplyBody

/-- The signature of a body. -/
def signature : ReplyBody → CStr
  | none => .empty
  | string _ => .lit "s"
  | strings _ => .lit "as"
  | variant _ => .lit "v"

/-- The bytes of a body, which starts at a multiple of eight. -/
def encode : ReplyBody → Bytes
  | none => []
  | string s => marshal 0 (.str s)
  | strings items =>
    let elements := marshalSeq marshal 4 (items.map .str)
    le 4 elements.length ++ elements
  | variant s => marshalVariant 0 (.str s)

/-- What a body stands for. -/
def value : ReplyBody → ReplyValue
  | none => .empty
  | string s => .string s
  | strings items => .stringArray items
  | variant s => .variant (.lit "s") s

end ReplyBody

/-- A method return for a call; the fields are in any order, each at most once. -/
structure IsReturn (serial : UInt32) (body : ReplyBody) (m : Message) : Prop where
  type : m.type = 2
  readable : Readable m
  nodup : (m.fields.map (·.code)).Nodup
  replySerial : ⟨5, .u32 serial⟩ ∈ m.fields
  /-- Without a body the signature is empty or missing. -/
  signature : ⟨8, .sig body.signature⟩ ∈ m.fields ∨
    body = .none ∧ ∀ f ∈ m.fields, f.code ≠ 8
  body : m.body = body.encode

/-- An error with a name and a message. -/
structure IsError (name msg : CStr) (m : Message) : Prop where
  type : m.type = 3
  readable : Readable m
  nodup : (m.fields.map (·.code)).Nodup
  errorName : ⟨4, .str name⟩ ∈ m.fields
  body : m.body = marshal 0 (.str msg)

/-- The message is a reply to a call, and it says what the call is to return. -/
inductive Answers (serial : UInt32) (m : Message) : Outcome → Prop
  | reply {body : ReplyBody} : IsReturn serial body m → Answers serial m (.reply body.value)
  | error {name msg : CStr} : IsError name msg m → Answers serial m (.remoteError name msg)

/-! ## Header fields -/

variable {α : Type} {π : ReplyHeader → α} {code : UInt8} {fs : List HeaderField} {h : ReplyHeader}

/-- Fields of other codes leave a part of the header as it is. -/
theorem foldl_keepField_of_ne (hπ : ∀ h f, f.code ≠ code → π (keepField h f) = π h)
    (hfs : ∀ f ∈ fs, f.code ≠ code) : π (fs.foldl keepField h) = π h := by
  induction fs generalizing h with
  | nil => rfl
  | cons f fs ih =>
    rw [List.foldl_cons, ih fun g hg => hfs g (List.mem_cons_of_mem _ hg)]
    exact hπ h f (hfs f List.mem_cons_self)

/-- The one field of a code is kept. -/
theorem foldl_keepField_of_mem (hπ : ∀ h f, f.code ≠ code → π (keepField h f) = π h)
    {f : HeaderField} {a : α} (hcode : f.code = code) (hf : ∀ h, π (keepField h f) = a)
    (hmem : f ∈ fs) (hnodup : (fs.map (·.code)).Nodup) : π (fs.foldl keepField h) = a := by
  induction fs generalizing h with
  | nil => cases hmem
  | cons g fs ih =>
    obtain ⟨hg, hnodup⟩ := List.nodup_cons.mp hnodup
    rw [List.foldl_cons]
    rcases List.mem_cons.mp hmem with rfl | hmem
    · rw [foldl_keepField_of_ne hπ, hf]
      rintro f' hf' rfl
      exact hg (List.mem_map.mpr ⟨f', hf', hcode.symm⟩)
    · exact ih hmem hnodup

theorem keepField_replySerial (h : ReplyHeader) (f : HeaderField) (hf : f.code ≠ 5) :
    (keepField h f).replySerial = h.replySerial := by
  obtain ⟨code, v⟩ := f
  cases v <;> simp_all [keepField] <;> split_ifs <;> rfl

theorem keepField_sig (h : ReplyHeader) (f : HeaderField) (hf : f.code ≠ 8) :
    (keepField h f).sig = h.sig := by
  obtain ⟨code, v⟩ := f
  cases v <;> simp_all [keepField] <;> split_ifs <;> rfl

theorem keepField_errorName (h : ReplyHeader) (f : HeaderField) (hf : f.code ≠ 4) :
    (keepField h f).errorName = h.errorName := by
  obtain ⟨code, v⟩ := f
  cases v <;> simp_all [keepField] <;> split_ifs <;> rfl

/-! ## One message -/

variable {m : Message} {c : Conn} {rest : Bytes}

/-- The frame of a message. -/
def frameOf (m : Message) : Frame :=
  ⟨m.encode, m.fieldBytes.length, m.fields.foldl keepField ⟨none, none, 0⟩⟩

/-- A message is read, and nothing of what follows it. -/
theorem readMessage_encode (heap : Mem) (hm : Readable m) (hmax : m.encode.length ≤ maxMessage)
    (hpending : c.pending = m.encode ++ rest) :
    ∃ c', readMessage heap c = (.ok (frameOf m), c') ∧ c'.pending = rest ∧
      c'.fault .timedOut = c.fault .timedOut := by
  have hlength := m.length_encode
  have hlt : m.encode.length < 2 ^ 32 := lt_of_le_of_lt hmax (by decide)
  set tail := m.fieldBytes ++ (zeros (padLen 8 (16 + m.fieldBytes.length)) ++ m.body) with htail
  have hencode : m.encode = m.fixed ++ tail := by simp [Message.encode, htail]
  have htailLen : tail.length =
      m.fieldBytes.length + padLen 8 (16 + m.fieldBytes.length) + m.body.length := by
    rw [htail, List.length_append, List.length_append, length_zeros, Nat.add_assoc]
  obtain ⟨hbodyLen, hfieldsLen⟩ := fixedU32_fixed [] hlt
  rw [List.append_nil] at hbodyLen hfieldsLen
  -- the fixed header
  obtain ⟨c₁, hread₁, hpending₁, hfault₁, -⟩ := readn_of_le (n := 16) (c := c) (by
    rw [hpending, List.length_append]
    omega)
  rw [hpending, hencode, List.append_assoc, ← m.length_fixed] at hread₁ hpending₁
  rw [List.take_left] at hread₁
  rw [List.drop_left] at hpending₁
  -- and the rest
  obtain ⟨c₂, hread₂, hpending₂, hfault₂, -⟩ := readn_of_le (n := tail.length) (c := c₁) (by
    rw [hpending₁]
    exact (List.prefix_append tail rest).length_le)
  rw [hpending₁] at hread₂ hpending₂
  rw [List.take_left] at hread₂
  rw [List.drop_left] at hpending₂
  refine ⟨c₂, ?_, hpending₂, hfault₂.trans hfault₁⟩
  have hsmall : ¬ (maxMessage < m.fieldBytes.length ∨ maxMessage < m.body.length ∨
      maxMessage < 16 + m.fieldBytes.length + m.body.length) := by omega
  have hparse : parseHeaderFields (buffer m.encode heap) (16 + tail.length) m.fieldBytes.length =
      some (m.fields.foldl keepField ⟨none, none, 0⟩) := by
    rw [parseHeaderFields, ← m.length_fixed, ← List.length_append, ← hencode,
      headerFields_encode heap hm hlt, Option.map_some]
  have hendian : ¬ m.fixed.head? ≠ some 0x6C := by simp [Message.fixed]
  rw [m.length_fixed] at hread₁
  rw [htailLen] at hread₂ hparse
  simp only [readMessage, hread₁, if_neg hendian, hbodyLen, hfieldsLen, if_neg hsmall, hread₂,
    ← hencode, hparse]
  rfl

/-! ## The reply -/

theorem type_frameOf (m : Message) : (frameOf m).type = m.type := rfl

/-- The body of a message is in its buffer, up to the end. -/
theorem at_body (m : Message) (heap : Mem) :
    At (buffer (frameOf m).msg heap) (frameOf m).bodyStart m.body ∧
      (frameOf m).bodyStart + m.body.length = (frameOf m).msg.length := by
  have hstart : (frameOf m).bodyStart = 16 + m.fieldBytes.length +
      padLen 8 (16 + m.fieldBytes.length) := rfl
  refine ⟨?_, ?_⟩
  · have := at_buffer (m.fixed ++ m.fieldBytes ++ zeros (padLen 8 (16 + m.fieldBytes.length))) m.body
      [] heap
    rw [List.append_nil, List.length_append, List.length_append, m.length_fixed,
      length_zeros] at this
    exact this
  · rw [hstart]
    exact m.length_encode.symm

variable {mem : Mem} {p stop : ℕ} {serial : UInt32}

/-- A string that is all that is left. -/
theorem rdStr_of_at {s : CStr} {off : ℕ} (hat : At mem p (marshal off (.str s)))
    (hend : p + (marshal off (.str s)).length = stop) (hmax : stop < 2 ^ 32) :
    ∃ r, rdStr mem (rdPad 4 ⟨p, stop, off⟩) = some (s, r) ∧ r.p = r.stop := by
  obtain ⟨-, hraw⟩ := at_append.mp hat
  rw [length_zeros] at hraw
  rw [marshal, List.length_append, length_zeros] at hend
  have halign : (Value.str s).align = 4 := rfl
  rw [halign] at hraw hend
  rw [rdPad_of_le (by omega), rdStr_raw hraw (show p + padLen 4 off + _ ≤ stop by omega) hmax]
  refine ⟨_, rfl, ?_⟩
  simp only [rdPad, Rd.skip]
  omega

theorem rdPad_zero (p stop : ℕ) : rdPad 4 ⟨p, stop, 0⟩ = ⟨p, stop, 0⟩ := by
  simp [rdPad, padLen]

theorem marshal_pos (off : ℕ) (v : Value) : 0 < (marshal off v).length := by
  have := length_raw_le_marshal off v
  have : 0 < v.raw.length := by cases v <;> simp [Value.raw, le]
  omega

/-- An array of strings is read to its end. -/
theorem rdArray_encode {items : List CStr} (hat : At mem p (ReplyBody.strings items).encode)
    (hend : p + (ReplyBody.strings items).encode.length = stop) (hmax : stop < 2 ^ 32) :
    ∃ r, rdArray mem ⟨p, stop, 0⟩ = some (.stringArray items, r) ∧ r.p = r.stop := by
  obtain ⟨hlen, hitems⟩ := at_append.mp hat
  simp only [ReplyBody.encode, List.length_append, length_le] at hend hlen hitems
  have hcount := length_le_marshalSeq marshal_pos 4 (items.map Value.str)
  have hzero : marshalSeq marshal 4 (items.map Value.str) =
      marshalSeq marshal 0 (items.map Value.str) := by
    refine marshalSeq_of_mod_eq (n := 4) (fun v hv => ?_) rfl
    obtain ⟨s, -, rfl⟩ := List.mem_map.mp hv
    exact dvd_rfl
  rw [hzero] at hitems hlen hend hcount
  generalize hn : (marshalSeq marshal 0 (items.map Value.str)).length = n at hlen hend hcount
  rw [List.length_map] at hcount
  obtain ⟨r, hread, hr⟩ := rdStrings_marshalSeq hitems (show _ = p + 4 + n by rw [hn]) (by omega)
    hcount
  rw [rdPad_zero] at hread
  refine ⟨⟨r.p, stop, 4 + n⟩, ?_, by rw [hr]; exact (Nat.add_assoc p 4 n).trans hend⟩
  have hfit : ¬ (stop - (p + 4)) % 2 ^ 32 < n := by
    rw [Nat.mod_eq_of_lt (show stop - (p + 4) < 2 ^ 32 by omega)]
    omega
  rw [rdArray, rdPad_zero, rdU32_of_le (show p + 4 ≤ stop by omega), u32At_of_at hlen (by omega)]
  simp only [Rd.skip, Option.bind_eq_bind, Option.bind_some, if_neg hfit, hread, Nat.zero_add]
  rfl

/-- A variant that holds a string is read to its end. -/
theorem rdVariant_encode {s : CStr} (hat : At mem p (ReplyBody.variant s).encode)
    (hend : p + (ReplyBody.variant s).encode.length = stop) (hmax : stop < 2 ^ 32) :
    ∃ r, rdVariant mem ⟨p, stop, 0⟩ = some (.variant (.lit "s") s, r) ∧ r.p = r.stop := by
  obtain ⟨hsig, hstr⟩ := at_append.mp hat
  obtain ⟨hone, hsig⟩ := at_cons.mp hsig
  obtain ⟨hcode, -⟩ := at_cons.mp hsig
  have hlen : (ReplyBody.variant s).encode.length = 3 + (marshal 3 (.str s)).length := by
    rw [ReplyBody.encode, marshalVariant, List.length_append]
    rfl
  have hpos := marshal_pos 3 (.str s)
  have hstr : At mem (p + 3) (marshal 3 (.str s)) := hstr
  obtain ⟨r, hread, hr⟩ := rdStr_of_at hstr (show _ = stop by omega) hmax
  refine ⟨r, ?_, hr⟩
  have hcode : mem (p + 1) = 0x73 := hcode
  have hinner : CStr.ofBuffer (slice mem (p + 1) 1) = stringSig := by
    simp only [slice, List.range_succ, List.range_zero, List.nil_append, List.map_cons,
      List.map_nil, Nat.add_zero, hcode]
    decide
  have hlong : ¬ stop < p + 1 + 1 + 1 := by omega
  rw [rdVariant, rdU8_of_lt (show p < stop by omega), Option.bind_eq_bind, Option.bind_some]
  simp only [Rd.skip, hone, UInt8.reduceToNat, if_neg hlong, hinner, ne_eq, not_true_eq_false,
    if_false]
  rw [if_neg (by decide), rdU8_of_lt (show p + 1 + 1 < stop by omega), Option.bind_some]
  simp only [Rd.skip, Nat.zero_add, Nat.add_assoc, Nat.reduceAdd, hread]
  rfl

/-- The body of a reply is read to its end. -/
theorem rdValue_encode {body : ReplyBody} (hat : At mem p body.encode)
    (hend : p + body.encode.length = stop) (hmax : stop < 2 ^ 32) (hne : body ≠ .none) :
    ∃ r, rdValue mem ⟨p, stop, 0⟩ body.signature = some (body.value, r) ∧ r.p = r.stop := by
  cases body with
  | none => exact absurd rfl hne
  | string s =>
    obtain ⟨r, hread, hr⟩ := rdStr_of_at hat hend hmax
    refine ⟨r, ?_, hr⟩
    simp only [rdValue, ReplyBody.signature, hread]
    rfl
  | strings items => exact rdArray_encode hat hend hmax
  | variant s => exact rdVariant_encode hat hend hmax

/-- The header of a method return. -/
theorem header_of_isReturn {body : ReplyBody} (h : IsReturn serial body m) :
    (frameOf m).header.replySerial = serial ∧ ((frameOf m).header.sig = some body.signature ∨
      body = .none ∧ (frameOf m).header.sig = none) := by
  refine ⟨?_, ?_⟩
  · exact foldl_keepField_of_mem keepField_replySerial rfl (fun _ => rfl) h.replySerial h.nodup
  · rcases h.signature with hsig | ⟨hnone, hsig⟩
    · exact .inl (foldl_keepField_of_mem keepField_sig rfl (fun _ => rfl) hsig h.nodup)
    · exact .inr ⟨hnone, foldl_keepField_of_ne keepField_sig hsig⟩

theorem header_of_isError {name msg : CStr} (h : IsError name msg m) :
    (frameOf m).header.errorName = some name :=
  foldl_keepField_of_mem keepField_errorName rfl (fun _ => rfl) h.errorName h.nodup

theorem signature_eq_empty {body : ReplyBody} (h : body.signature = .empty) : body = .none := by
  cases body with
  | none => rfl
  | string s => exact absurd h (show CStr.lit "s" ≠ .empty by decide)
  | strings items => exact absurd h (show CStr.lit "as" ≠ .empty by decide)
  | variant s => exact absurd h (show CStr.lit "v" ≠ .empty by decide)

/-- A reply is answered as it says. -/
theorem answer_of_answers {outcome : Outcome} (h : Answers serial m outcome) (heap : Mem)
    (hmax : m.encode.length ≤ maxMessage) :
    ∃ errMsg, (frameOf m).answer (buffer (frameOf m).msg heap) serial = (outcome, errMsg) := by
  have hlt : (frameOf m).msg.length < 2 ^ 32 := lt_of_le_of_lt hmax (by decide)
  obtain ⟨hat, hend⟩ := at_body m heap
  cases h with
  | @reply body hreturn =>
    obtain ⟨hserial, hsig⟩ := header_of_isReturn hreturn
    rw [hreturn.body] at hat hend
    refine ⟨none, ?_⟩
    rw [Frame.answer, type_frameOf, hreturn.type, if_neg (by decide), if_neg (by decide),
      if_neg (not_not_intro hserial)]
    by_cases hnone : body = .none
    · -- nothing is read without a signature
      subst hnone
      rcases hsig with hsig | ⟨-, hsig⟩ <;> rw [hsig]
      · rfl
      · rfl
    · obtain ⟨r, hread, hr⟩ := rdValue_encode hat hend hlt hnone
      obtain hsig : (frameOf m).header.sig = some body.signature :=
        hsig.resolve_right fun h => hnone h.1
      rw [hsig]
      simp only [hread, hr]
      rw [if_neg fun h => hnone (signature_eq_empty h), if_neg (not_not_intro rfl)]
  | @error name msg herror =>
    rw [herror.body] at hat hend
    -- an error carries its text
    obtain ⟨r, hread, hr⟩ := rdStr_of_at hat hend hlt
    refine ⟨some msg, ?_⟩
    rw [Frame.answer, type_frameOf, herror.type, if_pos rfl, Frame.errorBody, hread]
    simp only [hr, header_of_isError herror]
    rw [if_neg (not_not_intro rfl)]
    rfl

theorem Answers.readable {outcome : Outcome} (h : Answers serial m outcome) : Readable m := by
  cases h with
  | reply h => exact h.readable
  | error h => exact h.readable

theorem Answers.type_ne {outcome : Outcome} (h : Answers serial m outcome) : m.type ≠ 4 := by
  cases h with
  | reply h => rw [h.type]; decide
  | error h => rw [h.type]; decide

/-! ## The wait -/

/-- Signals are skipped, by induction on the list of them. -/
theorem receive_signals {signals : List Message} {outcome : Outcome} {heap : ℕ → Mem} {n : ℕ}
    (hsignals : ∀ s ∈ signals, IsSignal s) (h : Answers serial m outcome)
    (hmax : ∀ s ∈ signals ++ [m], s.encode.length ≤ maxMessage)
    (hpending : c.pending = (signals ++ [m]).flatMap Message.encode ++ rest)
    (hn : signals.length < n) :
    ∃ errMsg c', receive heap serial n c = ((outcome, errMsg), c') ∧ c'.pending = rest ∧
      c'.fault .timedOut = c.fault .timedOut := by
  induction signals generalizing c n with
  | nil =>
    obtain ⟨n, rfl⟩ : ∃ k, n = k + 1 := ⟨n - 1, by simp only [List.length_nil] at hn; omega⟩
    have hmax := hmax m (by simp)
    obtain ⟨c', hread, hrest, hfault⟩ := readMessage_encode (heap n) h.readable hmax
      (by simpa using hpending)
    obtain ⟨errMsg, hanswer⟩ := answer_of_answers h (heap n) hmax
    refine ⟨errMsg, c', ?_, hrest, hfault⟩
    rw [receive, hread]
    simp only [type_frameOf, if_neg h.type_ne, hanswer]
  | cons s signals ih =>
    obtain ⟨n, rfl⟩ : ∃ k, n = k + 1 := ⟨n - 1, by rw [List.length_cons] at hn; omega⟩
    have hsignal := hsignals s List.mem_cons_self
    rw [List.cons_append, List.flatMap_cons, List.append_assoc] at hpending
    obtain ⟨c', hread, hrest, hfault⟩ := readMessage_encode (heap n) hsignal.readable
      (hmax s (by simp)) hpending
    -- the rest is received from behind the signal
    obtain ⟨errMsg, c'', hreceive, hrest', hfault'⟩ := ih
      (fun t ht => hsignals t (List.mem_cons_of_mem _ ht))
      (fun t ht => hmax t (List.mem_cons_of_mem _ ht)) hrest (by simpa using hn)
    refine ⟨errMsg, c'', ?_, hrest', hfault'.trans hfault⟩
    rw [receive, hread]
    simp only [type_frameOf, hsignal.type, if_pos, hreceive]

/-! ## Calls -/

/-- The call is sent. -/
structure Sent (w : World) (c : Client) (call : Call) : Prop where
  connected : c.connected = true
  supported : supportedSig call.sigIn = true
  args : call.sigIn = .empty ∨ call.args ≠ none
  built : ∃ msg, buildCall w.memory (c.serial + 1) call.dest call.path call.iface call.method
    call.sigIn (call.args.getD []) = .message msg
  written : w.writeError = none

/-- A call that is sent waits for its reply. -/
theorem busCall_of_sent {w : World} {c : Client} {call : Call} (h : Sent w c call) :
    ∃ c' : Client, busCall w c call =
        ((receive w.heap (c.serial + 1) (c.conn.pending.length + 1) c.conn).1.1, c') ∧
      c'.conn = (receive w.heap (c.serial + 1) (c.conn.pending.length + 1) c.conn).2 ∧
      c'.serial = c.serial + 1 ∧ c'.connected = true := by
  obtain ⟨msg, hbuilt⟩ := h.built
  have hargs : ¬ (call.sigIn ≠ .empty ∧ call.args = none) := by
    rintro ⟨hne, hnone⟩
    exact h.args.elim hne fun h => h hnone
  simp only [busCall, Client.reset, h.connected, h.supported, hbuilt, h.written, hargs]
  exact ⟨_, rfl, rfl, rfl, rfl⟩

theorem length_le_flatMap_encode (ms : List Message) :
    ms.length ≤ (ms.flatMap Message.encode).length := by
  induction ms with
  | nil => exact Nat.zero_le _
  | cons m ms ih =>
    have := m.length_encode
    rw [List.flatMap_cons, List.length_append, List.length_cons]
    omega

/-- A call that is sent returns what the reply says, and exactly the messages up to the reply are
read. -/
theorem busCall_answers {w : World} {c : Client} {call : Call} {signals : List Message}
    {reply : Message} {outcome : Outcome} {rest : Bytes} (hsent : Sent w c call)
    (hsignals : ∀ s ∈ signals, IsSignal s) (hreply : Answers (c.serial + 1) reply outcome)
    (hmax : ∀ m ∈ signals ++ [reply], m.encode.length ≤ maxMessage)
    (hpending : c.conn.pending = (signals ++ [reply]).flatMap Message.encode ++ rest) :
    ∃ c', busCall w c call = (outcome, c') ∧ c'.conn.pending = rest ∧
      c'.conn.fault .timedOut = c.conn.fault .timedOut := by
  have hcount : signals.length < c.conn.pending.length + 1 := by
    have := length_le_flatMap_encode (signals ++ [reply])
    rw [List.length_append, List.length_singleton] at this
    rw [hpending, List.length_append]
    omega
  obtain ⟨errMsg, conn, hreceive, hrest, hfault⟩ :=
    @receive_signals _ _ _ _ _ _ w.heap _ hsignals hreply hmax hpending hcount
  obtain ⟨c', hcall, hconn, -⟩ := busCall_of_sent hsent
  rw [hreceive] at hcall hconn
  exact ⟨c', hcall, hconn ▸ hrest, hconn ▸ hfault⟩

/-- A signal of the bus. -/
def nameAcquired : Message where
  type := 4
  flags := 1
  version := 1
  serial := 2
  fields := [⟨1, .path (.lit "/org/freedesktop/DBus")⟩, ⟨3, .str (.lit "NameAcquired")⟩,
    ⟨8, .sig (.lit "s")⟩]
  body := marshal 0 (.str (.lit ":1.0"))

/-- A status for the first call. -/
def statusReply : Message where
  type := 2
  flags := 1
  version := 1
  serial := 3
  fields := [⟨8, .sig (.lit "s")⟩, ⟨5, .u32 1⟩, ⟨7, .str (.lit ":1.7")⟩]
  body := marshal 0 (.str (.lit "status-line"))

/-- A call without arguments. -/
def reloadCall : Call where
  dest := .lit "org.lgmagic"
  path := .lit "/org/lgmagic/Manager"
  iface := .lit "org.lgmagic.Manager"
  method := .lit "Reload"
  sigIn := .empty
  args := none

/-- Nothing fails. -/
def calmWorld : World := ⟨.ample, none, fun _ _ => 0⟩

/-- A client that has not called anything, and what will come. -/
def freshClient (events : List (ReadEvent ReadError UInt8)) : Client :=
  ⟨true, 0, ⟨[], events⟩, none, none⟩

/-- Bytes that come at once. -/
def piece : Bytes → List (ReadEvent ReadError UInt8)
  | [] => []
  | b :: bs => [.chunk b bs]

/-- The message of the call. -/
def reloadMessage (serial : UInt32) : Message :=
  callMessage serial (.lit "org.lgmagic") (.lit "/org/lgmagic/Manager") (.lit "org.lgmagic.Manager")
    (.lit "Reload") []

theorem length_reloadMessage_le (serial : UInt32) :
    (reloadMessage serial).encode.length ≤ maxMessage := by
  have hfixed : (reloadMessage 0).encode.length ≤ maxMessage := by decide +kernel
  rwa [Message.length_encode] at hfixed ⊢

theorem buildCall_reload (serial : UInt32) : buildCall .ample serial reloadCall.dest reloadCall.path
    reloadCall.iface reloadCall.method .empty [] = .message (reloadMessage serial).encode := by
  have hps : ([] : List Param).length ≤ 255 := Nat.zero_le _
  have hsig : Param.signature [] = .empty := rfl
  rw [← hsig]
  exact buildCall_eq hps (length_reloadMessage_le serial)

theorem sent_reloadCall {c : Client} (h : c.connected = true) : Sent calmWorld c reloadCall where
  connected := h
  supported := rfl
  args := .inl rfl
  built := ⟨_, buildCall_reload (c.serial + 1)⟩
  written := rfl

instance (v : Value) : Decidable (InHeader v) := by
  cases v <;> unfold InHeader <;> infer_instance

instance (v : Value) : Decidable v.Fits := by
  cases v <;> unfold Value.Fits <;> infer_instance

instance (m : Message) : Decidable (Readable m) := by
  unfold Readable
  infer_instance

theorem isSignal_nameAcquired : IsSignal nameAcquired := ⟨rfl, by decide⟩

theorem isReturn_statusReply : IsReturn 1 (.string (.lit "status-line")) statusReply where
  type := rfl
  readable := by decide
  nodup := by decide
  replySerial := by decide
  signature := .inl (by decide)
  body := rfl

/-- A signal and the reply, which comes in two pieces. -/
theorem busCall_nameAcquired : ∃ c', busCall calmWorld (freshClient
      (piece (nameAcquired.encode ++ statusReply.encode.take 20) ++
        piece (statusReply.encode.drop 20))) reloadCall = (.reply (.string (.lit "status-line")), c') ∧
    c'.conn.pending = [] ∧ c'.conn.fault .timedOut = .timedOut :=
  have hsignals : ∀ s ∈ [nameAcquired], IsSignal s := by simpa using isSignal_nameAcquired
  busCall_answers (sent_reloadCall rfl) hsignals (.reply isReturn_statusReply) (by decide +kernel)
    (by decide +kernel)

end DBus
