import LgMagic.Toml.Parser

/-!
# Keys and strings as they are spelled

The spellings of strings and keys that the parser takes, as a grammar of their own: what a text is and
what it stands for. A key has many spellings, since every segment may be bare or quoted and a byte may
be escaped or not.

* `StringText`, `QuotedText`: the inside of a string, and a string with its quotes;
* `SegmentText`, `PathText`: a segment of a key, and segments joined by dots;
* `text_of_parseString`, `text_of_parseKeySegment`, `text_of_parseKeyPath`: what the parser takes is
  such a text;
* `parseString_of_text`, `parseKeySegment_of_text`, `parseKeyPath_of_text`: it takes every such text.
-/

/-- A result that passes a check. -/
theorem Except.exists_of_any {ε α : Type*} {r : Except ε α} {f : α → Bool}
    (h : r.toOption.any f = true) : ∃ a, r = .ok a ∧ f a = true := by
  cases r with
  | error e => cases h
  | ok a => exact ⟨a, rfl, h⟩

namespace Toml

open CString

/-! ## Strings -/

/-- A byte that stands for itself in a string: a literal string is one line without control bytes,
a basic string may go over several lines. -/
def isPlain (quote c : UInt8) : Bool :=
  c != quote &&
    if quote = 0x27 then 0x20 ≤ c else c != 0x5C && (c == 0x09 || c == 0x0A || 0x20 ≤ c)

/-- The inside of a string, and the bytes that it stands for. Only basic strings have escapes. -/
inductive StringText (quote : UInt8) : Bytes → Bytes → Prop
  | nil : StringText quote [] []
  | plain {c : UInt8} {text value : Bytes} : isPlain quote c = true → StringText quote text value →
      StringText quote (c :: text) (c :: value)
  | escape {e b : UInt8} {text value : Bytes} : quote = 0x22 → escapeByte e = some b →
      StringText quote text value → StringText quote (0x5C :: e :: text) (b :: value)
  | unicode {h1 h2 h3 h4 : UInt8} {v : ℕ} {text value : Bytes} : quote = 0x22 →
      hex4 h1 h2 h3 h4 = some v → StringText quote text value →
      StringText quote (0x5C :: 0x75 :: h1 :: h2 :: h3 :: h4 :: text) (utf8 v ++ value)

/-- A string with its quotes; the value ends where a NUL is written. -/
inductive QuotedText : Bytes → CStr → Prop
  | mk {quote : UInt8} {text value : Bytes} : isQuote quote = true → StringText quote text value →
      QuotedText (quote :: text ++ [quote]) (CStr.ofBuffer value)

section

variable {quote : UInt8} {start line : ℕ} {p text value buf : Bytes} {cur : Cursor}

theorem storeSeq_eq_ok {bytes : Bytes} {r : Except ParseError (Bytes × Cursor)} :
    storeSeq bytes r = .ok (buf, cur) ↔ ∃ rest, r = .ok (rest, cur) ∧ buf = bytes ++ rest := by
  cases r with
  | error e => simp [storeSeq, Except.map]
  | ok v =>
    obtain ⟨rest, cur'⟩ := v
    simp only [storeSeq, Except.map, Except.ok.injEq, Prod.mk.injEq]
    constructor
    · rintro ⟨rfl, rfl⟩
      exact ⟨rest, ⟨rfl, rfl⟩, rfl⟩
    · rintro ⟨_, ⟨rfl, rfl⟩, rfl⟩
      exact ⟨rfl, rfl⟩

/-- The parser takes the text of a string up to its closing quote. -/
theorem parseString_of_text (hq : isQuote quote = true) (h : StringText quote text value)
    (start line : ℕ) (rest : Bytes) :
    ∃ line', parseString quote start (text ++ quote :: rest) line = .ok (value, ⟨rest, line'⟩) := by
  induction h generalizing line with
  | nil => exact ⟨line, parseString_quote start line rest quote⟩
  | @plain c text value hc _ ih =>
    simp only [isPlain, Bool.and_eq_true, bne_iff_ne, ne_eq] at hc
    obtain ⟨hne, hc⟩ := hc
    rw [List.cons_append, parseString.eq_def]
    simp only [hne, if_false]
    by_cases hlit : quote = 0x27
    · -- a literal string
      simp only [hlit, if_true, decide_eq_true_eq] at hc ih ⊢
      have hnl : c ≠ 0x0A := by rintro rfl; revert hc; decide
      obtain ⟨line', ih⟩ := ih line
      exact ⟨line', by simp [hnl, hc, ih, storeSeq, Except.map]⟩
    · simp only [hlit, if_false, Bool.and_eq_true, bne_iff_ne, ne_eq, Bool.or_eq_true, beq_iff_eq,
        decide_eq_true_eq] at hc ⊢
      obtain ⟨hesc, hc⟩ := hc
      -- a line break is allowed in a basic string and counts a line
      by_cases hnl : c = 0x0A
      · obtain ⟨line', ih⟩ := ih (line + 1)
        exact ⟨line', by simp [hnl, ih, storeSeq, Except.map]⟩
      · obtain ⟨line', ih⟩ := ih line
        have hctl : ¬ (c ≠ 0x09 ∧ c < 0x20) := by
          rintro ⟨htab, hlt⟩
          rcases hc with (hc | hc) | hc
          · exact htab hc
          · exact hnl hc
          · exact absurd hlt (UInt8.not_lt.mpr hc)
        exact ⟨line', by simp only [hnl, hesc, hctl, if_false]; simp [ih, storeSeq, Except.map]⟩
  | @escape e b text value hbasic hb _ ih =>
    subst hbasic
    obtain ⟨line', ih⟩ := ih line
    have he : e ≠ 0x75 := by
      rintro rfl
      cases hb
    refine ⟨line', ?_⟩
    rw [List.cons_append, List.cons_append, parseString_escape _ _ _ he hb, ih]
    rfl
  | unicode hbasic hv _ ih =>
    subst hbasic
    obtain ⟨line', ih⟩ := ih line
    refine ⟨line', ?_⟩
    simp only [List.cons_append]
    rw [parseString_unicode _ _ _ hv, ih]
    rfl

/-- One more byte, or one more escape, in front of the rest of a string. -/
theorem text_of_storeSeq (pre bytes : Bytes) {r : Except ParseError (Bytes × Cursor)}
    (h : storeSeq bytes r = .ok (buf, cur))
    (ih : ∀ {buf}, r = .ok (buf, cur) →
      ∃ text, p = text ++ quote :: cur.p ∧ StringText quote text buf)
    (hstep : ∀ {text value}, StringText quote text value →
      StringText quote (pre ++ text) (bytes ++ value)) :
    ∃ text, pre ++ p = text ++ quote :: cur.p ∧ StringText quote text buf := by
  obtain ⟨rest, hr, rfl⟩ := storeSeq_eq_ok.mp h
  obtain ⟨text, rfl, htext⟩ := ih hr
  exact ⟨pre ++ text, by rw [List.append_assoc], hstep htext⟩

/-- What the parser takes as a string is the text of one, by induction along the parser. -/
theorem text_of_parseString (hq : isQuote quote = true)
    (h : parseString quote start p line = .ok (buf, cur)) :
    ∃ text, p = text ++ quote :: cur.p ∧ StringText quote text buf := by
  have hbasic : quote ≠ 0x27 → quote = 0x22 := fun hne => by
    simp only [isQuote, Bool.or_eq_true, beq_iff_eq] at hq
    exact hq.resolve_right hne
  -- one case for each kind of byte or escape, the errors last
  fun_induction parseString quote start p line generalizing buf with
  | case2 cs line =>
    cases h
    exact ⟨[], rfl, .nil⟩
  | case5 c cs line hne hlit hnl hctl ih =>
    refine text_of_storeSeq [c] [c] h (fun h => ih h) fun htext => .plain ?_ htext
    subst hlit
    simp [isPlain, hne, UInt8.not_lt.mp hctl]
  | case6 cs line hlit hne ih =>
    refine text_of_storeSeq [0x0A] [0x0A] h (fun h => ih h) fun htext => .plain ?_ htext
    simp [isPlain, hne, hlit]
  | case8 line hlit h1 h2 h3 h4 cs v hv hne hnl ih =>
    exact text_of_storeSeq [0x5C, 0x75, h1, h2, h3, h4] (utf8 v) h (fun h => ih h) fun htext =>
      .unicode (hbasic hlit) hv htext
  | case12 line hlit e cs he b hb hne hnl ih =>
    exact text_of_storeSeq [0x5C, e] [b] h (fun h => ih h) fun htext =>
      .escape (hbasic hlit) hb htext
  | case15 c cs line hne hlit hnl hesc hctl ih =>
    refine text_of_storeSeq [c] [c] h (fun h => ih h) fun htext => .plain ?_ htext
    have hplain : c = 0x09 ∨ 0x20 ≤ c := by
      by_contra hneither
      rw [not_or, UInt8.not_le] at hneither
      exact hctl hneither
    rcases hplain with rfl | hplain <;> simp_all [isPlain]
  | case1 | case3 | case4 | case7 | case9 | case10 | case11 | case13 | case14 => cases h

end

/-! ## Keys -/

/-- A text starts with no byte of a bare key. -/
def NoBare (t : Bytes) : Prop := ∀ c ∈ t.head?, isBare c = false

theorem noBare_cons {c : UInt8} {t : Bytes} (h : isBare c = false) : NoBare (c :: t) := by
  simpa [NoBare] using h

/-- No quote can be part of a bare key. -/
theorem isQuote_of_isBare {c : UInt8} (h : isBare c = true) : isQuote c = false := by
  by_contra hq
  simp only [isQuote, Bool.not_eq_false, Bool.or_eq_true, beq_iff_eq] at hq
  rcases hq with rfl | rfl <;> exact absurd h (by decide)

/-- A segment of a key: bare, or quoted. -/
inductive SegmentText : Bytes → CStr → Prop
  | bare {text : Bytes} : text ≠ [] → (∀ c ∈ text, isBare c = true) →
      SegmentText text (CStr.ofBuffer text)
  | quoted {text : Bytes} {seg : CStr} : QuotedText text seg → SegmentText text seg

/-- Segments joined by dots. -/
inductive PathText : Bytes → List CStr → Prop
  | last {text : Bytes} {seg : CStr} : SegmentText text seg → PathText text [seg]
  | cons {text rest : Bytes} {seg : CStr} {segs : List CStr} : SegmentText text seg →
      PathText rest segs → PathText (text ++ 0x2E :: rest) (seg :: segs)

variable {msg : String} {line : ℕ} {p text rest : Bytes} {seg : CStr} {segs : List CStr}
  {cur : Cursor}

theorem PathText.ne_nil (h : PathText text segs) : segs ≠ [] := by
  cases h <;> simp

theorem SegmentText.length_pos (h : SegmentText text seg) : 0 < text.length := by
  cases h with
  | bare hne => exact List.length_pos_of_ne_nil hne
  | quoted h => cases h; simp

/-- A string is taken up to its closing quote. -/
theorem parseCString_of_text {quote : UInt8} {body : Bytes} (hq : isQuote quote = true)
    {value : Bytes} (h : StringText quote body value) (rest : Bytes) (line : ℕ) :
    ∃ line', parseCString quote ⟨body ++ quote :: rest, line⟩ =
      .ok (CStr.ofBuffer value, ⟨rest, line'⟩) := by
  obtain ⟨line', hparse⟩ := parseString_of_text hq h line line rest
  exact ⟨line', by simp only [parseCString, hparse, Except.map]⟩

theorem text_of_parseCString {quote : UInt8} (hq : isQuote quote = true)
    (h : parseCString quote ⟨p, line⟩ = .ok (seg, cur)) :
    ∃ text, quote :: p = text ++ cur.p ∧ QuotedText text seg := by
  unfold parseCString at h
  cases hparse : parseString quote line p line with
  | error e => rw [hparse] at h; cases h
  | ok r =>
    rw [hparse] at h
    cases h
    obtain ⟨text, rfl, htext⟩ := text_of_parseString hq hparse
    exact ⟨quote :: text ++ [quote], by simp, .mk hq htext⟩

/-- A segment is taken whole where no more bytes of a bare key follow. -/
theorem parseKeySegment_of_text (h : SegmentText text seg) (hrest : NoBare rest)
    (msg : String) (line : ℕ) :
    ∃ line', parseKeySegment msg ⟨text ++ rest, line⟩ = .ok (seg, ⟨rest, line'⟩) := by
  cases h with
  | bare hne hall =>
    obtain ⟨htake, hdrop⟩ := Printf.span_append isBare hrest text
    have hself : text.takeWhile isBare = text := List.takeWhile_eq_self_iff.mpr hall
    have hnil : text.dropWhile isBare = [] := List.dropWhile_eq_nil_iff.mpr hall
    rw [hself] at htake
    rw [hnil, List.nil_append] at hdrop
    obtain ⟨c, cs, rfl⟩ := List.exists_cons_of_ne_nil hne
    have hc : isBare c = true := hall c List.mem_cons_self
    rw [List.cons_append] at htake hdrop
    refine ⟨line, ?_⟩
    simp only [parseKeySegment, List.cons_append, isQuote_of_isBare hc, hc, htake, hdrop]
    rfl
  | quoted h =>
    obtain ⟨hq, htext⟩ := h
    rename_i quote body value
    obtain ⟨line', hparse⟩ := parseCString_of_text hq htext rest line
    refine ⟨line', ?_⟩
    simpa [parseKeySegment, hq] using hparse

/-- What is taken as a segment is the text of one; a bare one goes as far as it can. -/
theorem text_of_parseKeySegment (h : parseKeySegment msg ⟨p, line⟩ = .ok (seg, cur)) :
    ∃ text, p = text ++ cur.p ∧ SegmentText text seg := by
  cases p with
  | nil => cases h
  | cons c cs =>
    simp only [parseKeySegment] at h
    split_ifs at h with hq hbare
    · obtain ⟨text, hp, htext⟩ := text_of_parseCString hq h
      exact ⟨text, hp, .quoted htext⟩
    · cases h
      refine ⟨(c :: cs).takeWhile isBare, by simp, .bare (by simp [hbare]) fun b hb => ?_⟩
      exact List.mem_takeWhile_imp hb

/-- A path is taken whole where neither a dot nor more bytes of a bare key follow. -/
theorem parseKeyPathFuel_of_text (h : PathText text segs) (hrest : NoBare rest)
    (hdot : peek rest 0x2E = false) (msg : String) (line : ℕ) {n : ℕ} (hn : text.length ≤ n) :
    ∃ line', parseKeyPathFuel msg n ⟨text ++ rest, line⟩ = .ok (segs, ⟨rest, line'⟩) := by
  induction h generalizing n line with
  | @last text seg hseg =>
    obtain ⟨n, rfl⟩ := Nat.exists_eq_succ_of_ne_zero (Nat.ne_of_gt (hseg.length_pos.trans_le hn))
    obtain ⟨line', hparse⟩ := parseKeySegment_of_text hseg hrest msg line
    refine ⟨line', ?_⟩
    simp only [parseKeyPathFuel, hparse]
    cases rest with
    | nil => rfl
    | cons c cs =>
      have hc : c ≠ 0x2E := by simpa [peek] using hdot
      simp [bind, Except.bind, hc]
      rfl
  | @cons text rest' seg segs hseg _ ih =>
    obtain ⟨n, rfl⟩ := Nat.exists_eq_succ_of_ne_zero (n := n) (by simp at hn; omega)
    have hend : NoBare (0x2E :: (rest' ++ rest)) := noBare_cons (by decide)
    obtain ⟨line₁, hparse⟩ := parseKeySegment_of_text hseg hend msg line
    obtain ⟨line₂, ih⟩ := ih line₁ (n := n) (by simp at hn; omega)
    refine ⟨line₂, ?_⟩
    simp only [parseKeyPathFuel, List.append_assoc, List.cons_append, hparse]
    simp [bind, Except.bind, ih]
    rfl

theorem parseKeyPath_of_text (h : PathText text segs) (hrest : NoBare rest)
    (hdot : peek rest 0x2E = false) (msg : String) (line : ℕ) :
    ∃ line', parseKeyPath msg ⟨text ++ rest, line⟩ = .ok (segs, ⟨rest, line'⟩) :=
  parseKeyPathFuel_of_text h hrest hdot msg line (by simp)

/-- What is taken as a path is the text of one. -/
theorem text_of_parseKeyPathFuel {n : ℕ} (h : parseKeyPathFuel msg n ⟨p, line⟩ = .ok (segs, cur)) :
    ∃ text, p = text ++ cur.p ∧ PathText text segs := by
  induction n generalizing p line segs with
  | zero => cases h
  | succ n ih =>
    unfold parseKeyPathFuel at h
    cases hseg : parseKeySegment msg ⟨p, line⟩ with
    | error e => rw [hseg] at h; cases h
    | ok r =>
      obtain ⟨seg, cur₁⟩ := r
      rw [hseg] at h
      obtain ⟨text₁, rfl, htext₁⟩ := text_of_parseKeySegment hseg
      obtain ⟨p₁, line₁⟩ := cur₁
      cases p₁ with
      | nil =>
        cases h
        exact ⟨text₁, rfl, .last htext₁⟩
      | cons c cs =>
        simp only [bind, Except.bind] at h
        -- a dot goes on to the next segment, anything else ends the path
        split_ifs at h with hdot
        · cases hrec : parseKeyPathFuel msg n ⟨cs, line₁⟩ with
          | error e => rw [hrec] at h; cases h
          | ok r =>
            rw [hrec] at h
            cases h
            obtain ⟨text₂, rfl, htext₂⟩ := ih hrec
            exact ⟨text₁ ++ 0x2E :: text₂, by simp [hdot], .cons htext₁ htext₂⟩
        · cases h
          exact ⟨text₁, rfl, .last htext₁⟩

theorem text_of_parseKeyPath (h : parseKeyPath msg ⟨p, line⟩ = .ok (segs, cur)) :
    ∃ text, p = text ++ cur.p ∧ PathText text segs :=
  text_of_parseKeyPathFuel h

end Toml
