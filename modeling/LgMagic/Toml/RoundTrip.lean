import LgMagic.Toml.Floats
import LgMagic.Toml.Grammar

/-!
# The parser reads what the writer wrote

Every piece that the writer emits is read back by the parser's function for it, whatever follows in
the document; a float is read as what its fifteen digits denote, and an infinite one is an error. With
that, one turn of the parser's loop on a rendered statement executes the statement, and a whole text of
the writer builds the normal form of the tree.

* `parseString_dump`, `parseKeyPath_dump`, `parseValue_dump`: the pieces;
* `parseStep_line`, `parseStep_infinite`: one statement;
* `parseLoop_rendered`, `parseLoop_infinite`: a rendering;
* `tomlParse_readBack`, `tomlParse_infinite`: what the writer wrote;
* `tomlParse_tomlDumps`: the round trip.
-/

namespace Toml

open CString Printf

/-! ## Strings -/

theorem hexVal_hexDigit : ∀ d < 16, hexVal (hexDigit d) = some d := by decide

theorem utf8_ascii {v : ℕ} (h : v < 0x80) : utf8 v = [UInt8.ofNat v] := by rw [utf8, if_pos h]

/-- The escape the writer emits for a byte is read as that byte. -/
theorem parseString_dumpByte (c : UInt8) (start line : ℕ) (t : Bytes) :
    parseString 0x22 start (dumpByte c ++ t) line =
      storeSeq [c] (parseString 0x22 start t line) := by
  unfold dumpByte
  split_ifs with h1 h2 h3 h4 h5 h6 h7 h8
  · subst h1; exact parseString_escape start line t (by decide) rfl
  · subst h2; exact parseString_escape start line t (by decide) rfl
  · subst h3; exact parseString_escape start line t (by decide) rfl
  · subst h4; exact parseString_escape start line t (by decide) rfl
  · subst h5; exact parseString_escape start line t (by decide) rfl
  · subst h6; exact parseString_escape start line t (by decide) rfl
  · subst h7; exact parseString_escape start line t (by decide) rfl
  · have hlt : c.toNat < 32 := UInt8.lt_iff_toNat_lt.mp h8
    have hhex : hex4 0x30 0x30 (hexDigit (c.toNat / 16)) (hexDigit (c.toNat % 16)) =
        some c.toNat := by
      have h0 : hexVal 0x30 = some 0 := rfl
      have hdiv := Nat.div_add_mod c.toNat 16
      simp only [hex4, h0, hexVal_hexDigit _ (show c.toNat / 16 < 16 by omega),
        hexVal_hexDigit _ (show c.toNat % 16 < 16 by omega)]
      exact congrArg some (by omega)
    have hutf : utf8 c.toNat = [c] := by
      rw [utf8_ascii (by omega), UInt8.ofNat_toNat]
    exact hutf ▸ parseString_unicode start line t hhex
  · exact parseString_plain start line t h1 h2 (UInt8.not_lt.mp h8)

/-- The string the writer emits is read up to its closing quote. -/
theorem parseString_dump (s : Bytes) (start line : ℕ) (t : Bytes) :
    parseString 0x22 start (s.flatMap dumpByte ++ 0x22 :: t) line = .ok (s, ⟨t, line⟩) := by
  induction s with
  | nil => exact parseString_quote start line t 0x22
  | cons c s ih =>
    rw [List.flatMap_cons, List.append_assoc, parseString_dumpByte, ih]
    rfl

theorem parseCString_dump (s : CStr) (line : ℕ) (t : Bytes) :
    parseCString 0x22 ⟨s.val.flatMap dumpByte ++ 0x22 :: t, line⟩ = .ok (s, ⟨t, line⟩) := by
  simp only [parseCString, parseString_dump s.val, Except.map, CStr.ofBuffer_val]

/-! ## Keys -/

theorem parseKeySegment_dump (msg : String) (k : CStr) (line : ℕ) {t : Bytes} (ht : NoBare t) :
    parseKeySegment msg ⟨dumpPathKey k ++ t, line⟩ = .ok (k, ⟨t, line⟩) := by
  unfold dumpPathKey
  split_ifs with hb
  · -- a bare key ends where the rest begins
    simp only [bareSafeKey, ne_eq, decide_not, Bool.and_eq_true, Bool.not_eq_eq_eq_not,
      Bool.not_true, decide_eq_false_iff_not] at hb
    obtain ⟨hne, hall⟩ := hb
    have hbare : ∀ c ∈ k.val, isBare c = true := fun c hc => List.all_eq_true.mp hall c hc
    obtain ⟨c, cs, hk⟩ := List.exists_cons_of_ne_nil hne
    have hc : isBare c = true := hbare c (by simp [hk])
    have htake : (k.val ++ t).takeWhile isBare = k.val := by
      rw [List.takeWhile_append_of_pos hbare]
      cases t with
      | nil => simp
      | cons d t => simp [ht d (by simp)]
    have hdrop : (k.val ++ t).dropWhile isBare = t := by
      rw [List.dropWhile_append_of_pos hbare]
      cases t with
      | nil => simp
      | cons d t => simp [ht d (by simp)]
    simp only [parseKeySegment, htake, hdrop, CStr.ofBuffer_val]
    simp only [hk, List.cons_append, isQuote_of_isBare hc, hc, if_true]
    rfl
  · -- any other key is quoted
    simp only [dumpString, List.cons_append, List.append_assoc, parseKeySegment]
    rw [if_pos (by decide)]
    exact parseCString_dump k line t

/-- The path the writer puts into a header is read back. -/
theorem parseKeyPathFuel_dump (msg : String) (line : ℕ) {t : Bytes} (ht : NoBare t)
    (hdot : peek t 0x2E = false) (k : CStr) (ks : List CStr) {n : ℕ} (hn : ks.length < n) :
    parseKeyPathFuel msg n
      ⟨[0x2E].intercalate ((k :: ks).map dumpPathKey) ++ t, line⟩ = .ok (k :: ks, ⟨t, line⟩) := by
  induction ks generalizing k n with
  | nil =>
    obtain ⟨n, rfl⟩ := Nat.exists_eq_succ_of_ne_zero (Nat.ne_of_gt hn)
    simp only [List.map_cons, List.map_nil, List.intercalate_singleton, parseKeyPathFuel,
      parseKeySegment_dump msg k line ht]
    cases t with
    | nil => rfl
    | cons c t =>
      have hc : c ≠ 0x2E := by simpa [peek] using hdot
      simp [bind, Except.bind, hc]
      rfl
  | cons k' ks ih =>
    obtain ⟨n, rfl⟩ := Nat.exists_eq_succ_of_ne_zero (Nat.ne_of_gt (Nat.zero_lt_of_lt hn))
    rw [List.length_cons, Nat.succ_lt_succ_iff] at hn
    have hseg := parseKeySegment_dump msg k line (t := 0x2E :: ([0x2E].intercalate
      ((k' :: ks).map dumpPathKey) ++ t)) (noBare_cons (by decide))
    simp only [List.map_cons, List.intercalate_cons_cons, List.append_assoc,
      List.cons_append, List.nil_append] at hseg ih ⊢
    simp only [parseKeyPathFuel, hseg, bind, Except.bind, if_true]
    rw [ih k' hn]
    rfl

/-! ## Arrays -/

/-- Nothing is skipped in front of other text. -/
theorem skipWs_cons {c : UInt8} (h1 : c ≠ 0x0A) (h2 : isBlank c = false) (h3 : c ≠ 0x23)
    (cs : Bytes) (line : ℕ) : skipWs false (c :: cs) line = ⟨c :: cs, line⟩ := by
  simp [skipWs, h1, h2, h3]

theorem parseArrayFuel_dump (line : ℕ) (t : Bytes) (s : CStr) (ss : List CStr) (blank : Bool)
    {n : ℕ} (hn : ss.length < n) :
    parseArrayFuel n ⟨(if blank then [0x20] else []) ++
      ((ascii ", ").intercalate ((s :: ss).map dumpString) ++ 0x5D :: t), line⟩ =
      .ok (s :: ss, ⟨t, line⟩) := by
  have hcomma : ascii ", " = [0x2C, 0x20] := rfl
  -- white space before the opening quote
  have hskip : ∀ t : Bytes, skipWs false ((if blank then [0x20] else []) ++ 0x22 :: t) line =
      ⟨0x22 :: t, line⟩ := by
    intro t
    cases blank with
    | true =>
      exact (show _ = skipWs false (0x22 :: t) line by simp [skipWs, isBlank]).trans
        (skipWs_cons (by decide) (by decide) (by decide) t line)
    | false => exact skipWs_cons (by decide) (by decide) (by decide) t line
  induction ss generalizing s n blank with
  | nil =>
    obtain ⟨n, rfl⟩ := Nat.exists_eq_succ_of_ne_zero (Nat.ne_of_gt hn)
    simp only [List.map_cons, List.map_nil, List.intercalate_singleton, dumpString,
      List.cons_append, List.append_assoc, List.nil_append]
    rw [parseArrayFuel, hskip]
    simp only [isQuote, parseCString_dump, bind, Except.bind]
    rw [skipWs_cons (by decide) (by decide) (by decide)]
    simp
    rfl
  | cons s' ss ih =>
    obtain ⟨n, rfl⟩ := Nat.exists_eq_succ_of_ne_zero (Nat.ne_of_gt (Nat.zero_lt_of_lt hn))
    rw [List.length_cons, Nat.succ_lt_succ_iff] at hn
    have hrest := ih s' true hn (by
      intro t
      exact (show _ = skipWs false (0x22 :: t) line by simp [skipWs, isBlank]).trans
        (skipWs_cons (by decide) (by decide) (by decide) t line))
    simp only [List.map_cons, List.intercalate_cons_cons, hcomma, dumpString,
      List.cons_append, List.append_assoc, List.nil_append, if_true] at hrest ⊢
    rw [parseArrayFuel, hskip]
    simp only [isQuote, parseCString_dump, bind, Except.bind]
    rw [skipWs_cons (by decide) (by decide) (by decide)]
    simp only [hrest]
    simp
    rfl

/-! ## Numbers -/

/-- The byte after a number's token: none that could belong to it. -/
def EndsNumber (c : UInt8) : Prop :=
  isDigit c = false ∧ c ≠ 0x5F ∧ c ≠ 0x2E ∧ c ≠ 0x65 ∧ c ≠ 0x45

theorem scanNumber_end {c : UInt8} (h : EndsNumber c) (st : NumScan) (t : Bytes) :
    scanNumber st (c :: t) = (st, c :: t) := by
  obtain ⟨h1, h2, h3, h4, h5⟩ := h
  rw [scanNumber.eq_def]
  simp [h1, h2, h3, h4, h5]

theorem NumScan.push_of_lt {st : NumScan} (h : st.cleaned.length + 1 < cleanedSize) (c : UInt8) :
    st.push c = { st with cleaned := st.cleaned ++ [c] } := if_pos h

/-- Digits go into the buffer. -/
theorem scanNumber_digits (ds : List ℕ) (hds : ∀ d ∈ ds, d < 10) (st : NumScan) (t : Bytes)
    (hlen : st.cleaned.length + ds.length < cleanedSize) :
    scanNumber st (ds.map digitByte ++ t) =
      scanNumber ⟨st.cleaned ++ ds.map digitByte, st.isFloat, st.digits + ds.length⟩ t := by
  induction ds generalizing st with
  | nil => simp
  | cons d ds ih =>
    have hd : isDigit (digitByte d) = true := isDigit_digitByte (hds d (by simp))
    rw [List.length_cons] at hlen
    rw [List.map_cons, List.cons_append, scanNumber.eq_def]
    simp only [hd, if_true]
    rw [NumScan.push_of_lt (by omega), ih (fun d hd => hds d (List.mem_cons_of_mem _ hd)) _ (by
      rw [List.length_append, List.length_singleton]
      omega)]
    simp [Nat.add_assoc, Nat.add_comm 1]

/-- A point goes into the buffer. -/
theorem scanNumber_point (st : NumScan) (t : Bytes)
    (hlen : st.cleaned.length + 1 < cleanedSize) :
    scanNumber st (0x2E :: t) = scanNumber ⟨st.cleaned ++ [0x2E], true, st.digits⟩ t := by
  rw [scanNumber.eq_def]
  simp only [show isDigit 0x2E = false by decide, NumScan.push_of_lt hlen]
  simp

/-- An exponent letter and its sign go into the buffer. -/
theorem scanNumber_exp (st : NumScan) {s : UInt8} (hs : s = 0x2B ∨ s = 0x2D) (t : Bytes)
    (hdigits : 0 < st.digits) (hlen : st.cleaned.length + 2 < cleanedSize) :
    scanNumber st (0x65 :: s :: t) = scanNumber ⟨st.cleaned ++ [0x65, s], true, st.digits⟩ t := by
  rw [scanNumber.eq_def]
  simp only [show isDigit 0x65 = false by decide]
  rw [NumScan.push_of_lt (by omega), NumScan.push_of_lt (by simpa using hlen)]
  simp [hdigits, hs]

/-- The text has a point or an exponent. -/
def isFloatText (t : NumText) : Bool := t.fp ≠ [] || t.exp.isSome

/-- The token of a printed number is the number's text. -/
theorem scanToken_render {t : NumText} (h : t.WellFormed) (hlen : t.render.length < cleanedSize)
    {c : UInt8} (hc : EndsNumber c) (rest : Bytes) :
    ∃ n > 0, scanToken (t.render ++ c :: rest) = (⟨t.render, isFloatText t, n⟩, c :: rest) := by
  obtain ⟨neg, ip, fp, exp⟩ := t
  obtain ⟨hne, hip, hfp⟩ := h
  simp only at hne hip hfp
  have hpos : 0 < ip.length := List.length_pos_iff.mpr hne
  set sign : Bytes := if neg then [0x2D] else [] with hsign
  set frac : Bytes := if fp = [] then [] else 0x2E :: fp.map digitByte with hfrac
  set etext : Bytes := exp.elim [] printExp with hetext
  have hrender : (NumText.mk neg ip fp exp).render = sign ++ ip.map digitByte ++ frac ++ etext := rfl
  rw [hrender] at hlen ⊢
  simp only [List.length_append, List.length_map] at hlen
  -- the sign
  have h1 : scanToken (sign ++ ip.map digitByte ++ frac ++ etext ++ c :: rest) =
      scanNumber ⟨sign, false, 0⟩ (ip.map digitByte ++ (frac ++ (etext ++ c :: rest))) := by
    cases neg with
    | true =>
      have hpush : NumScan.push {} 0x2D = ⟨[0x2D], false, 0⟩ := NumScan.push_of_lt (by decide) _
      simp [hsign, scanToken, hpush, List.append_assoc]
    | false =>
      obtain ⟨d, ds, rfl⟩ := List.exists_cons_of_ne_nil hne
      have hd : digitByte d ≠ 0x2B ∧ digitByte d ≠ 0x2D := by
        have := hip d (by simp)
        interval_cases d <;> decide
      simp [hsign, scanToken, hd.1, hd.2]
  -- the fraction
  have h2 : ∀ n, scanNumber ⟨sign ++ ip.map digitByte, false, n⟩ (frac ++ (etext ++ c :: rest)) =
      scanNumber ⟨sign ++ ip.map digitByte ++ frac, decide (fp ≠ []), n + fp.length⟩
        (etext ++ c :: rest) := by
    intro n
    by_cases hf : fp = []
    · simp [hfrac, hf]
    · have hflen : frac.length = fp.length + 1 := by simp [hfrac, hf]
      simp only [hfrac, if_neg hf, List.cons_append]
      rw [scanNumber_point _ _ (by simp only [List.length_append, List.length_map]; omega),
        scanNumber_digits fp hfp _ _ (by
          simp only [List.length_append, List.length_map, List.length_singleton]; omega)]
      simp [hf, List.append_assoc]
  -- the exponent
  have h3 : ∀ n > 0, ∃ m > 0,
      scanNumber ⟨sign ++ ip.map digitByte ++ frac, decide (fp ≠ []), n⟩ (etext ++ c :: rest) =
        (⟨sign ++ ip.map digitByte ++ frac ++ etext, decide (fp ≠ []) || exp.isSome, m⟩,
          c :: rest) := by
    intro n hn
    cases hexp : exp with
    | none =>
      refine ⟨n, hn, ?_⟩
      simp only [hetext, hexp, Option.elim_none, List.nil_append]
      rw [scanNumber_end hc]
      simp
    | some e =>
      have helen : etext.length = (expDigits e).length + 2 := by
        simp [hetext, hexp, printExp_eq]
      refine ⟨n + (expDigits e).length, by omega, ?_⟩
      simp only [hetext, hexp, Option.elim_some, printExp_eq, List.cons_append]
      rw [scanNumber_exp _ (by split_ifs <;> simp) _ hn (by
          simp only [List.length_append, List.length_map]; omega),
        scanNumber_digits _ (fun d => expDigits_lt) _ _ (by
          simp only [List.length_append, List.length_map, List.length_cons, List.length_nil]
          omega), scanNumber_end hc]
      simp [List.append_assoc]
  obtain ⟨m, hm, h3⟩ := h3 (ip.length + fp.length) (by omega)
  refine ⟨m, hm, ?_⟩
  rw [h1, scanNumber_digits ip hip _ _ (by simp only; omega), h2, Nat.zero_add, h3]
  rfl

theorem printInt_eq_render (i : ℤ) :
    printInt i = (NumText.mk (decide (i < 0)) (decDigits i.natAbs) [] none).render := by
  by_cases h : i < 0 <;> simp [printInt, NumText.render, h]

theorem printInt_wellFormed (i : ℤ) :
    (NumText.mk (decide (i < 0)) (decDigits i.natAbs) [] none).WellFormed :=
  ⟨decDigits_ne_nil _, fun _ => decDigits_lt, by simp⟩

theorem parseNumber_int (i : Int64) {c : UInt8} (hc : EndsNumber c) (rest : Bytes) (line : ℕ) :
    parseNumber ⟨printInt i.toInt ++ c :: rest, line⟩ = .ok (.int i, ⟨c :: rest, line⟩) := by
  have hdigits : i.toInt.natAbs < 10 ^ 19 := by
    have h1 := i.le_toInt
    have h2 := i.toInt_lt
    omega
  have hlen : (printInt i.toInt).length < cleanedSize := by
    have h1 := NumText.render_length_le
      (NumText.mk (decide (i.toInt < 0)) (decDigits i.toInt.natAbs) [] none) (by simp)
    have h2 := decDigits_length_le (k := 18) hdigits
    rw [← printInt_eq_render] at h1
    simp only [List.length_nil, cleanedSize] at h1 ⊢
    omega
  have hread : strtoll (printInt i.toInt) = (i, false, []) := by
    simpa using strtoll_printInt i noDigit_nil
  have hne : printInt i.toInt ≠ [] := by
    rw [printInt_eq_render]
    simp [NumText.render, decDigits_ne_nil]
  obtain ⟨n, hn, hscan⟩ := scanToken_render (printInt_wellFormed i.toInt)
    (by rwa [← printInt_eq_render]) hc rest
  rw [← printInt_eq_render] at hscan
  simp only [parseNumber, hscan, hread, isFloatText]
  rw [if_neg (by omega)]
  simp [hne.symm]

/-- A float's text is a number with a point or an exponent, and denotes what `%.15g` denotes. -/
theorem dumpFloat_numText (x : Binary64.Finite) :
    ∃ t : NumText, t.WellFormed ∧ t.render.length < cleanedSize ∧ isFloatText t = true ∧
      dumpFloat (.finite x) = t.render ∧
      strtodDecimal t.render = strtodDecimal (fmtG 15 (.finite x)) := by
  obtain ⟨t, hwf, hlen, htext⟩ := fmtG_numText (P := 15) (by norm_num) x
  have hdigit : ∀ ds : List ℕ, (∀ d ∈ ds, d < 10) →
      (ds.map digitByte).any (fun c => c ∈ ascii ".eEn") = false := by
    intro ds hds
    simp only [List.any_eq_false, List.mem_map]
    rintro c ⟨d, hd, rfl⟩
    have := hds d hd
    interval_cases d <;> decide
  have hmark : t.render.any (fun c => c ∈ ascii ".eEn") = isFloatText t := by
    obtain ⟨neg, ip, fp, exp⟩ := t
    simp only [NumText.render, List.any_append, hdigit ip hwf.ip_lt, isFloatText]
    have hsign : (if neg then [(0x2D : UInt8)] else []).any (fun c => c ∈ ascii ".eEn") = false := by
      cases neg <;> decide
    rw [hsign]
    by_cases hf : fp = []
    · cases exp <;> simp [hf, printExp_eq, ascii]
    · simp [hf, ascii]
  rw [dumpFloat, htext, hmark]
  cases hfloat : isFloatText t with
  | true => exact ⟨t, hwf, by simp [cleanedSize]; omega, hfloat, rfl, rfl⟩
  | false =>
    -- the text of an integral value: a zero fraction is added, the value stays
    obtain ⟨neg, ip, fp, exp⟩ := t
    simp only [isFloatText, Bool.or_eq_false_iff, ne_eq, decide_not, Bool.not_eq_false',
      decide_eq_true_eq, Option.isSome_eq_false_iff, Option.isNone_iff_eq_none] at hfloat
    obtain ⟨rfl, rfl⟩ := hfloat
    have hwf' : (NumText.mk neg ip [0] none).WellFormed := ⟨hwf.ip_ne, hwf.ip_lt, by simp⟩
    have hrender : (NumText.mk neg ip [0] none).render =
        (NumText.mk neg ip [] none).render ++ ascii ".0" := by
      have h0 : ascii ".0" = [0x2E, digitByte 0] := rfl
      simp [NumText.render, h0]
    refine ⟨⟨neg, ip, [0], none⟩, hwf', ?_, by simp [isFloatText], by simp [hrender], ?_⟩
    · have h0 : (ascii ".0").length = 2 := rfl
      rw [hrender, List.length_append, h0]
      simp only [cleanedSize]
      omega
    · rw [strtodDecimal_render hwf', strtodDecimal_render hwf]
      have hmag : (NumText.mk neg ip [0] none).mag = (NumText.mk neg ip [] none).mag := by
        simp only [NumText.mag, natOfDigits_append, List.append_nil]
        simp [natOfDigits]
      rw [hmag]

/-- A float is read back as what its `%.15g` text denotes. -/
theorem parseNumber_float (x : Binary64.Finite) {c : UInt8} (hc : EndsNumber c) (rest : Bytes)
    (line : ℕ) :
    parseNumber ⟨dumpFloat (.finite x) ++ c :: rest, line⟩ =
      .ok (.float (strtodDecimal (fmtG 15 (.finite x))).1, ⟨c :: rest, line⟩) := by
  obtain ⟨t, hwf, hlen, hfloat, htext, hread⟩ := dumpFloat_numText x
  obtain ⟨n, hn, hscan⟩ := scanToken_render hwf hlen hc rest
  have hne : t.render ≠ [] := by simp [NumText.render, hwf.ip_ne]
  rw [strtodDecimal_render hwf] at hread
  rw [htext]
  simp only [parseNumber, hscan, hfloat, strtodDecimal_render hwf, ← hread]
  rw [if_neg (by omega)]
  simp [hne.symm]

/-! ## Values -/

mutual

/-- Every float of the tree is finite and its `%.15g` text reads as the float. -/
def TomlValue.FloatsRead : TomlValue → Prop
  | .float d => d.IsFinite ∧ (strtodDecimal (fmtG 15 d)).1 = d
  | .table ms => membersFloatsRead ms
  | _ => True

/-- The floats of the members are finite and their texts read as the floats. -/
def membersFloatsRead : Members → Prop
  | [] => True
  | (_, v) :: ms => v.FloatsRead ∧ membersFloatsRead ms

end

theorem peekWord_ne {w c : UInt8} (h : w ≠ c) (ws cs : Bytes) :
    peekWord (w :: ws) (c :: cs) = false := by
  simp [peekWord, h]

/-- A printed number is no string, array or word. -/
theorem parseValue_number {t : NumText} (h : t.WellFormed) (rest : Bytes) (line : ℕ) :
    parseValue ⟨t.render ++ rest, line⟩ = parseNumber ⟨t.render ++ rest, line⟩ := by
  obtain ⟨c, cs, hrender, hc⟩ : ∃ c cs, t.render = c :: cs ∧ (c = 0x2D ∨ isDigit c = true) := by
    obtain ⟨neg, ip, fp, exp⟩ := t
    obtain ⟨d, ds, hip⟩ := List.exists_cons_of_ne_nil h.ip_ne
    simp only at hip
    subst hip
    cases neg with
    | true => exact ⟨_, _, rfl, .inl rfl⟩
    | false => exact ⟨_, _, rfl, .inr (isDigit_digitByte (h.ip_lt d (by simp)))⟩
  have hne : isQuote c = false ∧ c ≠ 0x5B ∧ 0x74 ≠ c ∧ 0x66 ≠ c := by
    rcases hc with rfl | hc
    · decide
    · refine ⟨by_contra fun hq => ?_, ?_, ?_, ?_⟩
      · exact absurd hq (by simp [isQuote_of_isBare (show isBare c = true by
          simp [isBare, isAlnum_of_isDigit hc])])
      all_goals rintro rfl; exact absurd hc (by decide)
  have htrue : ascii "true" = 0x74 :: [0x72, 0x75, 0x65] := rfl
  have hfalse : ascii "false" = 0x66 :: [0x61, 0x6C, 0x73, 0x65] := rfl
  simp only [hrender, List.cons_append, parseValue, hne.1, if_neg hne.2.1, htrue, hfalse,
    peekWord_ne hne.2.2.1, peekWord_ne hne.2.2.2]
  simp

theorem length_le_length_intercalate (sep : Bytes) (ls : List Bytes) (h : ∀ l ∈ ls, l ≠ []) :
    ls.length ≤ (sep.intercalate ls).length := by
  induction ls with
  | nil => simp
  | cons l ls ih =>
    have hl : 0 < l.length := List.length_pos_iff.mpr (h l (by simp))
    have ih := ih fun l hl => h l (List.mem_cons_of_mem _ hl)
    cases ls with
    | nil => simpa using Nat.succ_le_of_lt hl
    | cons l' ls =>
      rw [List.intercalate_cons_cons]
      simp only [List.length_append, List.length_cons] at ih ⊢
      omega

theorem dumpString_ne_nil (s : CStr) : dumpString s ≠ [] := by simp [dumpString]

/-- A value that is no table is read back, its float from fifteen digits. -/
theorem parseValue_dump {v : TomlValue} (hv : v.isTable = false) (hf : ∀ d ∈ v.floats, d.IsFinite)
    (rest : Bytes) (line : ℕ) :
    parseValue ⟨dumpValue v ++ 0x0A :: rest, line⟩ =
      .ok (v.mapFloats readBack, ⟨0x0A :: rest, line⟩) := by
  have hend : EndsNumber 0x0A := by unfold EndsNumber; decide
  match v with
  | .table _ => exact absurd hv (by simp)
  | .str s =>
    simp only [dumpValue, dumpString, List.cons_append, List.append_assoc, List.nil_append,
      parseValue]
    rw [if_pos (by decide), parseCString_dump]
    rfl
  | .int i =>
    rw [dumpValue, TomlValue.mapFloats, ← parseNumber_int i hend rest line, printInt_eq_render]
    · exact parseValue_number (printInt_wellFormed _) _ line
    · rintro _ ⟨⟩
    · rintro _ ⟨⟩
  | .float .nan | .float (.inf _) => exact absurd (hf _ List.mem_cons_self) id
  | .float (.finite x) =>
    obtain ⟨t, hwf, -, -, htext, -⟩ := dumpFloat_numText x
    have hread := parseNumber_float x hend rest line
    rw [dumpValue, TomlValue.mapFloats, readBack, ← hread, htext]
    exact parseValue_number hwf _ line
  | .bool true | .bool false => rfl
  | .arr [] =>
    simp [dumpValue, parseValue, parseArrayFuel, isQuote, skipWs, isBlank, Except.map]
    rfl
  | .arr (s :: ss) =>
    -- the fuel is the length of the text, which is enough for the strings
    have hlen := length_le_length_intercalate (ascii ", ") ((s :: ss).map dumpString) (by
      intro l hl
      obtain ⟨s, -, rfl⟩ := List.mem_map.mp hl
      exact dumpString_ne_nil s)
    have hread := parseArrayFuel_dump line (0x0A :: rest) s ss false
      (n := ((ascii ", ").intercalate ((s :: ss).map dumpString) ++
        0x5D :: 0x0A :: rest).length) (by
      rw [List.length_map, List.length_cons] at hlen
      rw [List.length_append]
      omega)
    simp only [dumpValue, List.cons_append, List.append_assoc, List.nil_append, parseValue]
    simp only [Bool.false_eq_true, if_false, List.nil_append] at hread
    rw [if_neg (by decide), if_pos trivial, hread]
    rfl

/-- The text of a value starts with no white space and no comment. -/
theorem dumpValue_head {v : TomlValue} (hv : v.isTable = false) :
    ∃ c cs, dumpValue v = c :: cs ∧ c ≠ 0x0A ∧ isBlank c = false ∧ c ≠ 0x23 := by
  -- a number starts with a minus or a digit
  have hnum : ∀ {t : NumText}, t.WellFormed →
      ∃ c cs, t.render = c :: cs ∧ c ≠ 0x0A ∧ isBlank c = false ∧ c ≠ 0x23 := by
    rintro ⟨neg, ip, fp, exp⟩ h
    obtain ⟨d, ds, hip⟩ := List.exists_cons_of_ne_nil h.ip_ne
    simp only at hip
    subst hip
    cases neg with
    | true => exact ⟨0x2D, _, rfl, by decide⟩
    | false =>
      refine ⟨digitByte d, _, rfl, ?_⟩
      have := h.ip_lt d (by simp)
      interval_cases d <;> decide
  match v with
  | .table _ => exact absurd hv (by simp)
  | .str s => exact ⟨0x22, _, rfl, by decide⟩
  | .int i =>
    rw [dumpValue, printInt_eq_render]
    exact hnum (printInt_wellFormed _)
  | .float .nan | .float (.inf false) | .float (.inf true) => exact ⟨_, _, rfl, by decide⟩
  | .float (.finite x) =>
    obtain ⟨t, hwf, -, -, htext, -⟩ := dumpFloat_numText x
    rw [dumpValue, htext]
    exact hnum hwf
  | .bool true => exact ⟨0x74, _, rfl, by decide⟩
  | .bool false => exact ⟨0x66, _, rfl, by decide⟩
  | .arr items => exact ⟨0x5B, _, rfl, by decide⟩

/-- Nothing reads an infinite float. -/
theorem parseValue_infinite {d : Binary64.Double} (h : ¬ d.IsFinite) (rest : Bytes) (line : ℕ) :
    ∃ e, parseValue ⟨dumpFloat d ++ 0x0A :: rest, line⟩ = .error e := by
  match d with
  | .nan | .inf false | .inf true => exact ⟨_, rfl⟩
  | .finite x => exact absurd trivial h

/-! ## Statements -/

/-- A statement as the writer has them: a path that is not empty, and a value that is no table. -/
def Statement.Plain : Statement → Prop
  | .header segs => segs ≠ []
  | .assign _ val => val.isTable = false

/-- The floats of a statement are finite. -/
def Statement.Finite : Statement → Prop
  | .header _ => True
  | .assign _ val => ∀ d ∈ val.floats, d.IsFinite

theorem dumpPathKey_head (k : CStr) :
    ∃ c cs, dumpPathKey k = c :: cs ∧ (c = 0x22 ∨ isBare c = true) := by
  unfold dumpPathKey
  split_ifs with hb
  · simp only [bareSafeKey, ne_eq, decide_not, Bool.and_eq_true, Bool.not_eq_eq_eq_not,
      Bool.not_true, decide_eq_false_iff_not] at hb
    obtain ⟨c, cs, hk⟩ := List.exists_cons_of_ne_nil hb.1
    exact ⟨c, cs, hk, .inr (List.all_eq_true.mp hb.2 c (by simp [hk]))⟩
  · exact ⟨0x22, _, rfl, .inl rfl⟩

/-- A line starts with no white space and no comment. -/
theorem Statement.line_head (s : Statement) :
    ∃ c cs, s.line = c :: cs ∧ c ≠ 0x0A ∧ isBlank c = false ∧ c ≠ 0x23 := by
  cases s with
  | header segs => exact ⟨0x5B, _, rfl, by decide⟩
  | assign key val =>
    obtain ⟨c, cs, hkey, hc⟩ := dumpPathKey_head key
    refine ⟨c, cs ++ ascii " = " ++ dumpValue val, by simp [Statement.line, hkey], ?_⟩
    rcases hc with rfl | hc
    · decide
    · refine ⟨?_, by_contra fun hblank => ?_, ?_⟩
      · rintro rfl; exact absurd hc (by decide)
      · simp only [isBlank, Bool.not_eq_false, Bool.or_eq_true, beq_iff_eq] at hblank
        rcases hblank with (rfl | rfl) | rfl <;> exact absurd hc (by decide)
      · rintro rfl; exact absurd hc (by decide)

theorem parseKeyPath_dump (msg : String) (line : ℕ) {t : Bytes} (ht : NoBare t)
    (hdot : peek t 0x2E = false) {segs : List CStr} (hne : segs ≠ []) :
    parseKeyPath msg ⟨[0x2E].intercalate (segs.map dumpPathKey) ++ t, line⟩ =
      .ok (segs, ⟨t, line⟩) := by
  obtain ⟨k, ks, rfl⟩ := List.exists_cons_of_ne_nil hne
  refine parseKeyPathFuel_dump msg line ht hdot k ks ?_
  have hlen := length_le_length_intercalate [0x2E] ((k :: ks).map dumpPathKey) (by
    intro l hl
    obtain ⟨s, -, rfl⟩ := List.mem_map.mp hl
    obtain ⟨c, cs, hs, -⟩ := dumpPathKey_head s
    simp [hs])
  rw [List.length_map, List.length_cons] at hlen
  rw [List.length_append]
  omega

theorem skipLineEnd_newline (t : Bytes) : skipLineEnd (0x0A :: t) = some (0x0A :: t) := by
  simp [skipLineEnd, isBlank, peek]

/-- A turn of the parser's loop at the line of an assignment comes to the value. -/
theorem parseStep_assign {key : CStr} {val : TomlValue} (hv : val.isTable = false) (b : Build)
    (start : Cursor) (rest : Bytes) (line : ℕ) :
    parseStep ⟨start, b.root, b.cur, none⟩
        ⟨(Statement.assign key val).line ++ 0x0A :: rest, line⟩ =
      match enter b.root b.cur with
      | none => .error ⟨"key path crosses a non-table value", line⟩
      | some root =>
        match parseValue ⟨dumpValue val ++ 0x0A :: rest, line⟩ with
        | .error e => .error e
        | .ok (val, cursor) =>
          let added := do
            let parent ← getAt root b.cur
            let parent ← tableAdd parent key val
            return setAt root b.cur parent
          let err := if added.isSome then none else some ⟨"duplicate key", cursor.line⟩
          match skipLineEnd cursor.p with
          | none => .error (err.getD ⟨"trailing text after value", cursor.line⟩)
          | some p => .ok ⟨⟨p, cursor.line⟩, added.getD root, b.cur, err⟩ := by
  obtain ⟨c, cs, hval, hc1, hc2, hc3⟩ := dumpValue_head hv
  obtain ⟨d, ds, hkey, hd⟩ := dumpPathKey_head key
  have heq : ascii " = " = [0x20, 0x3D, 0x20] := rfl
  -- the key up to the blank before the sign
  have hpath := parseKeyPath_dump "expected key" line
    (t := 0x20 :: 0x3D :: 0x20 :: (dumpValue val ++ 0x0A :: rest))
    (noBare_cons (by decide)) rfl (List.cons_ne_nil key [])
  rw [List.map_singleton, List.intercalate_singleton] at hpath
  -- a key does not look like the header of a table
  have hopen : peek (dumpPathKey key ++ 0x20 :: 0x3D :: 0x20 :: (dumpValue val ++ 0x0A :: rest))
      0x5B = false := by
    have hne : d ≠ 0x5B := by
      rcases hd with rfl | hd
      · decide
      · rintro rfl; exact absurd hd (by decide)
    simpa [peek, hkey] using hne
  have hskip1 : skipWs false (0x20 :: 0x3D :: 0x20 :: (dumpValue val ++ 0x0A :: rest)) line =
      ⟨0x3D :: 0x20 :: (dumpValue val ++ 0x0A :: rest), line⟩ := by
    exact (show _ = skipWs false (0x3D :: 0x20 :: (dumpValue val ++ 0x0A :: rest)) line by
      simp [skipWs, isBlank]).trans (skipWs_cons (by decide) (by decide) (by decide) _ line)
  -- the value starts with no blank, comment or line end
  have hskip2 : skipWs false (0x20 :: (dumpValue val ++ 0x0A :: rest)) line =
      ⟨dumpValue val ++ 0x0A :: rest, line⟩ := by
    rw [hval]
    exact (show _ = skipWs false (c :: cs ++ 0x0A :: rest) line by
      simp [skipWs, isBlank]).trans (skipWs_cons hc1 hc2 hc3 _ line)
  simp only [Statement.line, heq, List.cons_append, List.nil_append, List.append_assoc,
    parseStep, hopen, parseAssign, hpath, hskip1]
  simp only [peek, List.head?_cons, beq_self_eq_true, if_true, List.tail_cons, hskip2,
    List.dropLast_singleton, List.append_nil, List.getLastD_cons, List.getLastD_nil]
  rfl

/-- One turn of the parser's loop at the line of a statement executes the statement. -/
theorem parseStep_line {s : Statement} (hs : s.Plain) (hf : s.Finite) {b b' : Build}
    (hexec : (s.mapFloats readBack).exec b = some b') (start : Cursor) (rest : Bytes) (line : ℕ) :
    parseStep ⟨start, b.root, b.cur, none⟩ ⟨s.line ++ 0x0A :: rest, line⟩ =
      .ok ⟨⟨0x0A :: rest, line⟩, b'.root, b'.cur, none⟩ := by
  cases s with
  | header segs =>
    obtain ⟨root, henter, rfl⟩ := Option.map_eq_some_iff.mp hexec
    have hpath := parseKeyPath_dump "invalid table header" line (t := 0x5D :: 0x0A :: rest)
      (noBare_cons (by decide)) rfl hs
    simp only [Statement.line, List.cons_append, List.nil_append, List.append_assoc, parseStep,
      peek, List.head?_cons, beq_self_eq_true, if_true, List.tail_cons, parseHeader, hpath,
      skipLineEnd_newline, henter]
  | assign key val =>
    simp only [Statement.mapFloats, Statement.exec, Option.bind_eq_bind, Option.bind_eq_some_iff,
      Option.pure_def, Option.some.injEq] at hexec
    obtain ⟨parent, hget, parent', hadd, rfl⟩ := hexec
    have henter : enter b.root b.cur = some b.root := enter_of_getAt (by simp [hget])
    rw [parseStep_assign hs, henter]
    dsimp only
    rw [parseValue_dump hs hf]
    simp [hget, hadd, skipLineEnd_newline]

/-- At an infinite float the parser stops. -/
theorem parseStep_infinite {s : Statement} (hs : s.Plain) (hf : ¬ s.Finite) (b : Build)
    (start : Cursor) (rest : Bytes) (line : ℕ) :
    ∃ e, parseStep ⟨start, b.root, b.cur, none⟩ ⟨s.line ++ 0x0A :: rest, line⟩ = .error e := by
  cases s with
  | header segs => exact absurd trivial hf
  | assign key val =>
    rw [parseStep_assign hs]
    cases enter b.root b.cur with
    | none => exact ⟨_, rfl⟩
    | some root =>
      cases val with
      | float d =>
        have hd : ¬ d.IsFinite := fun hd => hf fun d' hd' => List.mem_singleton.mp hd' ▸ hd
        obtain ⟨e, he⟩ := parseValue_infinite hd rest line
        rw [dumpValue, he]
        exact ⟨e, rfl⟩
      | table sub => cases hs
      | str s | int i | bool b | arr items => exact absurd (fun _ h => absurd h List.not_mem_nil) hf

/-! ## Documents -/

/-- The line ends in front of a line are skipped. -/
theorem skipWs_newlines (n : ℕ) {c : UInt8} (h1 : c ≠ 0x0A) (h2 : isBlank c = false)
    (h3 : c ≠ 0x23) (cs : Bytes) (line : ℕ) :
    skipWs false (List.replicate n 0x0A ++ c :: cs) line = ⟨c :: cs, line + n⟩ := by
  induction n generalizing line with
  | zero => exact skipWs_cons h1 h2 h3 cs line
  | succ n ih =>
    rw [List.replicate_succ, List.cons_append, skipWs, if_pos rfl, ih]
    congr 1
    omega

/-- The parser's loop between two lines comes to the next one. -/
theorem parseLoop_line (s : Statement) (n : ℕ) (lead blank : Bool) (text : Bytes) (b : Build)
    (line : ℕ) :
    ∃ start line', parseLoop (n + 1) ⟨⟨(if lead then [0x0A] else []) ++
        ((if blank then [0x0A] else []) ++ s.line ++ [0x0A] ++ text), line⟩, b.root, b.cur, none⟩ =
      parseStep ⟨start, b.root, b.cur, none⟩ ⟨s.line ++ 0x0A :: text, line'⟩ >>= parseLoop n := by
  obtain ⟨c, cs, hline, hc1, hc2, hc3⟩ := s.line_head
  set k := (if lead then 1 else 0) + (if blank then 1 else 0) with hk
  have htext : (if lead then [0x0A] else []) ++
      ((if blank then [0x0A] else []) ++ s.line ++ [0x0A] ++ text) =
      List.replicate k 0x0A ++ (s.line ++ 0x0A :: text) := by
    cases lead <;> cases blank <;> simp [hk, List.replicate]
  have hskip : skipWs false (List.replicate k 0x0A ++ (s.line ++ 0x0A :: text)) line =
      ⟨s.line ++ 0x0A :: text, line + k⟩ := by
    rw [hline]
    exact skipWs_newlines k hc1 hc2 hc3 _ line
  have hne : s.line ++ 0x0A :: text ≠ [] := by simp
  rw [htext, parseLoop]
  simp only [hskip, if_neg hne]
  exact ⟨_, _, rfl⟩

/-- Parsing a rendering of statements executes them. Between two statements the cursor stands at
the line end of the first. -/
theorem parseLoop_rendered {ss : List Statement} {text : Bytes} (hr : Rendered ss text)
    (hs : ∀ s ∈ ss, s.Plain) (hf : ∀ s ∈ ss, s.Finite) {b b' : Build}
    (hexec : execAll b (ss.map (Statement.mapFloats readBack)) = some b') {n : ℕ}
    (hn : ss.length ≤ n) (lead : Bool) (line : ℕ) :
    parseLoop n ⟨⟨(if lead then [0x0A] else []) ++ text, line⟩, b.root, b.cur, none⟩ =
      .ok b'.root := by
  induction hr generalizing b n lead line with
  | nil =>
    injection hexec with hexec
    subst hexec
    cases n with
    | zero => rfl
    | succ n => cases lead <;> simp [parseLoop, skipWs]
  | @cons s ss text blank _ ih =>
    obtain ⟨n, rfl⟩ := Nat.exists_eq_succ_of_ne_zero (Nat.ne_of_gt (Nat.zero_lt_of_lt hn))
    rw [List.map_cons, execAll, List.foldlM_cons] at hexec
    obtain ⟨b₁, hstep, hrest⟩ := Option.bind_eq_some_iff.mp hexec
    obtain ⟨start, line', hline⟩ := parseLoop_line s n lead blank text b line
    rw [hline, parseStep_line (hs s List.mem_cons_self) (hf s List.mem_cons_self) hstep]
    exact ih (fun s h => hs s (List.mem_cons_of_mem _ h)) (fun s h => hf s (List.mem_cons_of_mem _ h))
      hrest (Nat.le_of_succ_le_succ hn) true _

/-- Parsing a rendering with an infinite float comes to an error, at the first of them. -/
theorem parseLoop_infinite {ss : List Statement} {text : Bytes} (hr : Rendered ss text)
    (hs : ∀ s ∈ ss, s.Plain) (hf : ¬ ∀ s ∈ ss, s.Finite) {b b' : Build}
    (hexec : execAll b (ss.map (Statement.mapFloats readBack)) = some b') {n : ℕ}
    (hn : ss.length ≤ n) (lead : Bool) (line : ℕ) :
    ∃ e, parseLoop n ⟨⟨(if lead then [0x0A] else []) ++ text, line⟩, b.root, b.cur, none⟩ =
      .error e := by
  induction hr generalizing b n lead line with
  | nil => exact absurd (fun s h => absurd h List.not_mem_nil) hf
  | @cons s ss text blank _ ih =>
    obtain ⟨n, rfl⟩ := Nat.exists_eq_succ_of_ne_zero (Nat.ne_of_gt (Nat.zero_lt_of_lt hn))
    rw [List.map_cons, execAll, List.foldlM_cons] at hexec
    obtain ⟨b₁, hstep, hrest⟩ := Option.bind_eq_some_iff.mp hexec
    obtain ⟨start, line', hline⟩ := parseLoop_line s n lead blank text b line
    rw [hline]
    by_cases hfirst : s.Finite
    · rw [parseStep_line (hs s List.mem_cons_self) hfirst hstep]
      refine ih (fun s h => hs s (List.mem_cons_of_mem _ h)) (fun hall => hf ?_) hrest
        (Nat.le_of_succ_le_succ hn) true _
      exact List.forall_mem_cons.mpr ⟨hfirst, hall⟩
    · obtain ⟨e, he⟩ := parseStep_infinite (hs s List.mem_cons_self) hfirst b start text line'
      rw [he]
      exact ⟨e, rfl⟩

/-- There are at most as many statements as bytes. -/
theorem Rendered.length_le {ss : List Statement} {text : Bytes} (h : Rendered ss text) :
    ss.length ≤ text.length := by
  induction h with
  | nil => exact le_rfl
  | cons blank _ ih =>
    simp only [List.length_append, List.length_cons, List.length_nil]
    omega

theorem plain_scalarStatements {ms : Members} : ∀ s ∈ scalarStatements ms, s.Plain := by
  intro s hs
  obtain ⟨m, hm, rfl⟩ := List.mem_map.mp hs
  rw [List.mem_filter] at hm
  simpa [Statement.Plain] using hm.2

theorem plain_tableStatements (ms : Members) : ∀ {segs : List CStr},
    ∀ s ∈ tableStatements segs ms, s.Plain := by
  induction ms using membersInduction with
  | nil => simp [tableStatements]
  | scalar k v ms hv ih =>
    intro segs
    rw [tableStatements_scalar hv]
    exact ih
  | table k sub ms ihsub ih =>
    intro segs s hs
    rw [tableStatements_table, statements] at hs
    rcases List.mem_cons.mp hs with rfl | hs
    · simp [Statement.Plain]
    rcases List.mem_append.mp hs with hs | hs
    · rcases List.mem_append.mp hs with hs | hs
      · exact plain_scalarStatements s hs
      · exact ihsub s hs
    · exact ih s hs

theorem plain_statements {segs : List CStr} (ms : Members) :
    ∀ s ∈ statements segs (.table ms), s.Plain := by
  intro s hs
  rw [statements] at hs
  rcases List.mem_append.mp hs with hs | hs
  · exact plain_scalarStatements s hs
  · exact plain_tableStatements ms s hs

/-- The floats of the statements are those of the tree. -/
theorem finite_scalarStatements {ms : Members} :
    (∀ s ∈ scalarStatements ms, s.Finite) ↔
      ∀ m ∈ ms, m.2.isTable = false → ∀ d ∈ m.2.floats, d.IsFinite := by
  simp only [scalarStatements, List.forall_mem_map, List.mem_filter, and_imp, Statement.Finite,
    Bool.not_eq_eq_eq_not, Bool.not_true]

/-- By induction on the tree. -/
theorem finite_tableStatements (ms : Members) : ∀ {segs : List CStr},
    (∀ s ∈ tableStatements segs ms, s.Finite) ↔
      ∀ m ∈ ms, m.2.isTable = true → ∀ d ∈ m.2.floats, d.IsFinite := by
  induction ms using membersInduction with
  | nil => simp [tableStatements]
  | scalar k v ms hv ih =>
    intro segs
    rw [tableStatements_scalar hv, ih, List.forall_mem_cons]
    simp [hv]
  | table k sub ms ihsub ih =>
    intro segs
    rw [tableStatements_table, statements, List.forall_mem_cons, List.forall_mem_append,
      List.forall_mem_append, finite_scalarStatements, ihsub, ← forall_floats_iff, ih,
      List.forall_mem_cons]
    simp [Statement.Finite, TomlValue.floats]

theorem finite_statements {segs : List CStr} (ms : Members) :
    (∀ s ∈ statements segs (.table ms), s.Finite) ↔ ∀ d ∈ membersFloats ms, d.IsFinite := by
  rw [statements, List.forall_mem_append, finite_scalarStatements, finite_tableStatements,
    ← forall_floats_iff]

section

variable {ms : Members} {text : CStr}

/-- The statements of the tree with its floats read back build its normal form. -/
theorem execAll_readBack (hwf : (TomlValue.table ms).WellFormed) :
    ∃ cur, execAll ⟨[], []⟩ ((statements [] (.table ms)).map (Statement.mapFloats readBack)) =
      some ⟨normalizeMembers (membersMapFloats readBack ms), cur⟩ := by
  rw [← statements_mapFloats]
  exact execAll_statements _ (rfl : getAt [] [] = some []) (wellFormed_mapFloats readBack hwf)

/-- Whenever the writer accepts a tree with finite floats, the parser reads its text as the normal form
of the tree with every float read back. -/
theorem tomlParse_readBack (hwf : (TomlValue.table ms).WellFormed)
    (hfloats : ∀ d ∈ membersFloats ms, d.IsFinite) (h : tomlDumps (.table ms) = some text) :
    tomlParse text.val = .ok (normalizeMembers (membersMapFloats readBack ms)) := by
  have hr := dumpTable_rendered ms (tomlDumps_eq_some.mp h)
  obtain ⟨cur, hexec⟩ := execAll_readBack hwf
  exact parseLoop_rendered hr (plain_statements ms) ((finite_statements ms).mpr hfloats) hexec
    hr.length_le false 1

/-- The text of a tree with an infinite float is no document. -/
theorem tomlParse_infinite (hwf : (TomlValue.table ms).WellFormed)
    (hfloats : ¬ ∀ d ∈ membersFloats ms, d.IsFinite) (h : tomlDumps (.table ms) = some text) :
    ∃ e, tomlParse text.val = .error e := by
  have hr := dumpTable_rendered ms (tomlDumps_eq_some.mp h)
  obtain ⟨cur, hexec⟩ := execAll_readBack hwf
  exact parseLoop_infinite hr (plain_statements ms) (fun hf => hfloats ((finite_statements ms).mp hf))
    hexec hr.length_le false 1

/-- The floats of a tree are read exactly, by induction on the tree. -/
theorem membersFloatsRead_iff (ms : Members) :
    membersFloatsRead ms ↔ ∀ d ∈ membersFloats ms, d.IsFinite ∧ readBack d = d := by
  induction ms using membersInduction with
  | nil => simp [membersFloatsRead, membersFloats]
  | scalar k v ms hv ih =>
    rw [membersFloatsRead, membersFloats, List.forall_mem_append, ih]
    refine and_congr_left fun _ => ?_
    cases v with
    | float d => simp [TomlValue.FloatsRead, TomlValue.floats, readBack]
    | table sub => cases hv
    | str s | int i | bool b | arr items => simp [TomlValue.FloatsRead, TomlValue.floats]
  | table k sub ms ihsub ih =>
    rw [membersFloatsRead, membersFloats, List.forall_mem_append, ih, TomlValue.FloatsRead,
      TomlValue.floats, ihsub]

/-- Where the floats are read exactly, the text is read as the normal form of the tree. -/
theorem tomlParse_of_tomlDumps (hwf : (TomlValue.table ms).WellFormed)
    (hfloats : (TomlValue.table ms).FloatsRead) (h : tomlDumps (.table ms) = some text) :
    tomlParse text.val = .ok (normalizeMembers ms) := by
  rw [TomlValue.FloatsRead, membersFloatsRead_iff] at hfloats
  rw [tomlParse_readBack hwf (fun d hd => (hfloats d hd).1) h,
    mapFloats_id ms fun d hd => (hfloats d hd).2]

end

/-- The writer accepts every tree that is not nested too deep. -/
theorem tomlDumps_isSome {ms : Members} (h : (TomlValue.table ms).depth ≤ tomlMaxDepth - 1) :
    (tomlDumps (.table ms)).isSome := by
  rw [tomlDumps, if_pos (isTable_table ms), Option.isSome_map]
  exact dumpTable_isSome ms (by simpa [TomlValue.depth] using h)

/-- Reading what the writer wrote gives the tree again, up to moving the scalar members of every
table before its table members. -/
theorem tomlParse_tomlDumps (ms : Members) (hwf : (TomlValue.table ms).WellFormed)
    (hfloats : (TomlValue.table ms).FloatsRead)
    (hdepth : (TomlValue.table ms).depth ≤ tomlMaxDepth - 1) :
    ∃ text, tomlDumps (.table ms) = some text ∧ tomlParse text.val = .ok (normalizeMembers ms) := by
  obtain ⟨text, htext⟩ := Option.isSome_iff_exists.mp (tomlDumps_isSome hdepth)
  exact ⟨text, htext, tomlParse_of_tomlDumps hwf hfloats htext⟩

/-- A tree with quoted keys, the empty key, an empty table and an integral float. -/
def sampleTree : Members :=
  [(CStr.lit "a.b", .table [(CStr.empty, .table []), (CStr.lit "x", .float (.ofInt 30))]),
    (CStr.lit "s", .str (CStr.lit "q\"\\\n")), (CStr.lit "n", .int (-7)),
    (CStr.lit "l", .arr [CStr.lit "p", CStr.empty])]

theorem tomlParse_tomlDumps_sampleTree :
    ∃ text, tomlDumps (.table sampleTree) = some text ∧
      tomlParse text.val = .ok (normalizeMembers sampleTree) :=
  tomlParse_tomlDumps sampleTree
    (by simp only [sampleTree, TomlValue.WellFormed, membersWellFormed]; decide)
    (by
      simp only [sampleTree, TomlValue.FloatsRead, membersFloatsRead, and_true, true_and]
      decide +kernel)
    (by decide)

end Toml
