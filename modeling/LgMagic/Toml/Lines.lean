import LgMagic.Toml.Numerals

/-!
# The lines of a document

White space, comments, line ends and values as a grammar, and that the parser takes each of them to
its end.

* `BlankText`, `LineEndText`: what may stand between statements and after one on its line;
* `ItemsText`, `ValueText`: arrays of strings and values;
* `skipWs_of_text`, `skipLineEnd_of_text`, `parseValue_of_text`: the parser takes them.
-/

namespace Toml

open CString

/-! ## White space -/

/-- White space, line ends and comments. -/
inductive BlankText : Bytes → Prop
  | nil : BlankText []
  | blank {c : UInt8} {text : Bytes} : isBlank c = true → BlankText text → BlankText (c :: text)
  | newline {text : Bytes} : BlankText text → BlankText (0x0A :: text)
  | comment {body text : Bytes} : (∀ c ∈ body, c ≠ 0x0A) → BlankText text →
      BlankText (0x23 :: (body ++ 0x0A :: text))

/-- A comment that the document ends in, or nothing. -/
inductive LastComment : Bytes → Prop
  | none : LastComment []
  | comment {body : Bytes} : (∀ c ∈ body, c ≠ 0x0A) → LastComment (0x23 :: body)

/-- What may follow a statement on its line. -/
inductive LineEndText : Bytes → Prop
  | mk {blanks tail : Bytes} : (∀ c ∈ blanks, isBlank c = true) → LastComment tail →
      LineEndText (blanks ++ tail)

/-- The rest of the document after a statement. -/
def StartsLine (rest : Bytes) : Prop := rest = [] ∨ peek rest 0x0A = true

/-- Neither white space nor a comment. -/
def isSolid (c : UInt8) : Bool := !(isBlank c || c == 0x0A || c == 0x23)

section

variable {text rest body : Bytes} {c : UInt8}

theorem skipWs_solid (h : isSolid c = true) (cs : Bytes) (line : ℕ) :
    skipWs false (c :: cs) line = ⟨c :: cs, line⟩ := by
  simp only [isSolid, Bool.not_eq_true', Bool.or_eq_false_iff, beq_eq_false_iff_ne, ne_eq] at h
  obtain ⟨⟨hblank, hnl⟩, hhash⟩ := h
  simp [skipWs, hnl, hblank, hhash]

/-- A comment is skipped up to its line end. -/
theorem skipWs_comment (hbody : ∀ c ∈ body, c ≠ 0x0A) (rest : Bytes) (line : ℕ) :
    skipWs true (body ++ 0x0A :: rest) line = skipWs false rest (line + 1) := by
  induction body with
  | nil => simp [skipWs]
  | cons c body ih =>
    rw [List.forall_mem_cons] at hbody
    rw [List.cons_append, skipWs, if_neg hbody.1, if_pos rfl, ih hbody.2]

theorem skipWs_lastComment (h : LastComment text) (line : ℕ) : skipWs false text line = ⟨[], line⟩ := by
  have hinside : ∀ {body : Bytes}, (∀ c ∈ body, c ≠ 0x0A) → skipWs true body line = ⟨[], line⟩ := by
    intro body hbody
    induction body with
    | nil => rfl
    | cons c body ih =>
      rw [List.forall_mem_cons] at hbody
      rw [skipWs, if_neg hbody.1, if_pos rfl, ih hbody.2]
  cases h with
  | none => rfl
  | comment hbody => exact (by simp [skipWs, isBlank] : _ = skipWs true _ line).trans (hinside hbody)

/-- White space is skipped. -/
theorem skipWs_of_text (h : BlankText text) (rest : Bytes) (line : ℕ) :
    ∃ line', skipWs false (text ++ rest) line = skipWs false rest line' := by
  induction h generalizing line with
  | nil => exact ⟨line, rfl⟩
  | @blank c text hc _ ih =>
    obtain ⟨line', ih⟩ := ih line
    have hnl : c ≠ 0x0A := by
      rintro rfl
      cases hc
    exact ⟨line', by rw [List.cons_append, skipWs, if_neg hnl]; simpa [hc] using ih⟩
  | newline _ ih =>
    obtain ⟨line', ih⟩ := ih (line + 1)
    exact ⟨line', by simpa [skipWs] using ih⟩
  | @comment body text hbody _ ih =>
    obtain ⟨line', ih⟩ := ih (line + 1)
    refine ⟨line', ?_⟩
    rw [← ih, ← skipWs_comment hbody]
    simp [skipWs, isBlank]

/-- The parser goes on at the first byte after white space. -/
theorem skipWs_to (h : BlankText text) (hc : isSolid c = true) (rest : Bytes) (line : ℕ) :
    ∃ line', skipWs false (text ++ c :: rest) line = ⟨c :: rest, line'⟩ := by
  obtain ⟨line', hskip⟩ := skipWs_of_text h (c :: rest) line
  exact ⟨line', hskip.trans (skipWs_solid hc rest line')⟩

/-- The end of a line is taken up to the line break. -/
theorem skipLineEnd_of_text (h : LineEndText text) (hrest : StartsLine rest) :
    skipLineEnd (text ++ rest) = some rest := by
  obtain ⟨hblanks, htail⟩ := h
  rename_i blanks tail
  -- the blanks end where the comment or the line ends
  have hstop : ∀ c ∈ (tail ++ rest).head?, isBlank c = false := by
    intro c hc
    cases htail with
    | none =>
      rcases hrest with rfl | hrest
      · cases hc
      · obtain rfl : 0x0A = c := by simp_all [peek]
        rfl
    | comment =>
      obtain rfl : 0x23 = c := by simpa using hc
      rfl
  obtain ⟨-, hdrop⟩ := Printf.span_append isBlank hstop blanks
  rw [List.dropWhile_eq_nil_iff.mpr hblanks, List.nil_append] at hdrop
  unfold skipLineEnd
  simp only [List.append_assoc, hdrop]
  cases htail with
  | none =>
    have hhash : peek rest 0x23 = false := by
      rcases hrest with rfl | hrest
      · rfl
      · simp only [peek, beq_iff_eq] at hrest
        simp [peek, hrest]
    simp only [List.nil_append, hhash, Bool.false_eq_true, if_false]
    exact if_pos hrest
  | @comment body hbody =>
    -- the comment ends where the line ends
    have hline : ∀ c ∈ rest.head?, (c != 0x0A) = false := by
      intro c hc
      rcases hrest with rfl | hrest
      · cases hc
      · simp_all [peek]
    obtain ⟨-, hdrop⟩ := Printf.span_append (· != 0x0A) hline (0x23 :: body)
    have hall : ∀ c ∈ 0x23 :: body, (c != 0x0A) = true := by
      simpa using hbody
    rw [List.dropWhile_eq_nil_iff.mpr hall, List.nil_append] at hdrop
    have hpeek : peek (0x23 :: body ++ rest) 0x23 = true := rfl
    rw [if_pos hpeek, hdrop]
    exact if_pos hrest

end

/-! ## Values -/

/-- The inside of an array with its closing bracket; a comma may stand after the last string. -/
inductive ItemsText : Bytes → List CStr → Prop
  | nil {w : Bytes} : BlankText w → ItemsText (w ++ [0x5D]) []
  | last {w s w' : Bytes} {item : CStr} : BlankText w → QuotedText s item → BlankText w' →
      ItemsText (w ++ (s ++ (w' ++ [0x5D]))) [item]
  | cons {w s w' rest : Bytes} {item : CStr} {items : List CStr} : BlankText w → QuotedText s item →
      BlankText w' → ItemsText rest items →
      ItemsText (w ++ (s ++ (w' ++ 0x2C :: rest))) (item :: items)

/-- A value. -/
inductive ValueText : Bytes → TomlValue → Prop
  | str {text : Bytes} {s : CStr} : QuotedText text s → ValueText text (.str s)
  | arr {text : Bytes} {items : List CStr} : ItemsText text items →
      ValueText (0x5B :: text) (.arr items)
  | yes : ValueText (ascii "true") (.bool true)
  | no : ValueText (ascii "false") (.bool false)
  | number {text : Bytes} {v : TomlValue} : NumberText text v → ValueText text v

/-- No byte of a word or of a number follows. -/
def EndsValue (t : Bytes) : Prop := ∀ c ∈ t.head?, isAlnum c = false ∧ c ≠ 0x5F ∧ c ≠ 0x2E

section

variable {text t : Bytes} {items : List CStr} {v : TomlValue}

theorem EndsValue.noNumber (h : EndsValue t) : NoNumber t := by
  intro c hc
  obtain ⟨halnum, hsep, hpoint⟩ := h c hc
  refine ⟨?_, hsep, hpoint, ?_, ?_⟩
  · by_contra hdigit
    rw [Bool.not_eq_false] at hdigit
    rw [isAlnum_of_isDigit hdigit] at halnum
    cases halnum
  · rintro rfl
    cases halnum
  · rintro rfl
    cases halnum

theorem isSolid_quote {quote : UInt8} (h : isQuote quote = true) : isSolid quote = true := by
  simp only [isQuote, Bool.or_eq_true, beq_iff_eq] at h
  rcases h with rfl | rfl <;> rfl

/-- The strings of an array are taken up to its closing bracket, by induction on them. -/
theorem parseArrayFuel_of_text (h : ItemsText text items) (t : Bytes) {n : ℕ} (hn : text.length ≤ n)
    (line : ℕ) : ∃ line', parseArrayFuel n ⟨text ++ t, line⟩ = .ok (items, ⟨t, line'⟩) := by
  induction h generalizing n line with
  | @nil w hw =>
    obtain ⟨n, rfl⟩ := Nat.exists_eq_succ_of_ne_zero (n := n) (by simp at hn; omega)
    obtain ⟨line', hskip⟩ := skipWs_to (c := 0x5D) hw rfl t line
    refine ⟨line', ?_⟩
    rw [parseArrayFuel, List.append_assoc, List.singleton_append, hskip]
    rfl
  -- the string, then the bracket
  | @last w s w' item hw hs hw' =>
    obtain ⟨n, rfl⟩ := Nat.exists_eq_succ_of_ne_zero (n := n) (by simp at hn; omega)
    obtain ⟨hq, hs⟩ := hs
    rename_i quote body value
    obtain ⟨line₁, hskip₁⟩ := skipWs_to hw (isSolid_quote hq) (body ++ quote :: (w' ++ 0x5D :: t)) line
    obtain ⟨line₂, hstring⟩ := parseCString_of_text hq hs (w' ++ 0x5D :: t) line₁
    obtain ⟨line₃, hskip₂⟩ := skipWs_to (c := 0x5D) hw' rfl t line₂
    refine ⟨line₃, ?_⟩
    have hclose : quote ≠ 0x5D := by
      rintro rfl
      cases hq
    simp only [List.append_assoc, List.cons_append, List.nil_append]
    rw [parseArrayFuel]
    simp only [hskip₁, hclose, hq, hstring, bind, Except.bind, hskip₂]
    simp
    rfl
  -- the string, then a comma and the other items with what is left of the fuel
  | @cons w s w' rest item items hw hs hw' _ ih =>
    obtain ⟨n, rfl⟩ := Nat.exists_eq_succ_of_ne_zero (n := n) (by simp at hn; omega)
    obtain ⟨hq, hs⟩ := hs
    rename_i quote body value
    obtain ⟨line₁, hskip₁⟩ :=
      skipWs_to hw (isSolid_quote hq) (body ++ quote :: (w' ++ 0x2C :: (rest ++ t))) line
    obtain ⟨line₂, hstring⟩ := parseCString_of_text hq hs (w' ++ 0x2C :: (rest ++ t)) line₁
    obtain ⟨line₃, hskip₂⟩ := skipWs_to (c := 0x2C) hw' rfl (rest ++ t) line₂
    obtain ⟨line₄, ih⟩ := ih (n := n) (by simp at hn; omega) line₃
    refine ⟨line₄, ?_⟩
    have hclose : quote ≠ 0x5D := by
      rintro rfl
      cases hq
    simp only [List.append_assoc, List.cons_append, List.nil_append]
    rw [parseArrayFuel]
    simp only [hskip₁, hclose, hq, hstring, bind, Except.bind, hskip₂]
    simp [ih]
    rfl

/-- The first byte of a number. -/
theorem NumberText.head (h : NumberText text v) : ∃ c cs, text = c :: cs ∧
    (isDigit c = true ∨ c = 0x2B ∨ c = 0x2D ∨ c = 0x2E) := by
  have hsigned : ∀ {sign text : Bytes}, SignText sign →
      (∃ c cs, text = c :: cs ∧ (isDigit c = true ∨ c = 0x2E)) →
      ∃ c cs, sign ++ text = c :: cs ∧ (isDigit c = true ∨ c = 0x2B ∨ c = 0x2D ∨ c = 0x2E) := by
    rintro sign text hsign ⟨c, cs, rfl, hc⟩
    rcases hsign with rfl | rfl | rfl
    · exact ⟨c, cs, rfl, hc.imp_right fun h => .inr (.inr h)⟩
    · exact ⟨_, _, rfl, .inr (.inl rfl)⟩
    · exact ⟨_, _, rfl, .inr (.inr (.inl rfl))⟩
  have hdigits : ∀ {ip : Bytes} (tail : Bytes), DigitsText ip →
      ∃ c cs, ip ++ tail = c :: cs ∧ (isDigit c = true ∨ c = 0x2E) := by
    intro ip tail hip
    obtain ⟨c, cs, rfl, hc⟩ := hip.head
    exact ⟨c, cs ++ tail, rfl, .inl hc⟩
  cases h with
  | int hsign htext => exact hsigned hsign (by simpa using hdigits [] htext)
  | float hsign htext =>
    refine hsigned hsign ?_
    cases htext with
    | whole hip | pointEnd hip | fraction hip => exact hdigits _ hip
    | pointStart => exact ⟨_, _, rfl, .inr rfl⟩

theorem peekWord_of_ends {w : Bytes} (ht : EndsValue t) : peekWord w (w ++ t) = true := by
  have hprefix : w.isPrefixOf (w ++ t) = true := by simp
  rw [peekWord, hprefix, Bool.true_and, List.drop_left]
  cases t with
  | nil => rfl
  | cons c t =>
    obtain ⟨halnum, hsep, -⟩ := ht c rfl
    simp [halnum, hsep]

/-- The parser takes every value, whatever follows that does not go on with it. -/
theorem parseValue_of_text (h : ValueText text v) (ht : EndsValue t) (line : ℕ) :
    ∃ line', parseValue ⟨text ++ t, line⟩ = .ok (v, ⟨t, line'⟩) := by
  cases h with
  | str h =>
    obtain ⟨hq, htext⟩ := h
    rename_i quote body value
    obtain ⟨line', hparse⟩ := parseCString_of_text hq htext t line
    refine ⟨line', ?_⟩
    simp [parseValue, hq, hparse, Except.map]
  | @arr text items h =>
    obtain ⟨line', hparse⟩ := parseArrayFuel_of_text h t (n := (text ++ t).length) (by simp) line
    refine ⟨line', ?_⟩
    have hq : isQuote 0x5B = false := rfl
    simp only [parseValue, List.cons_append, hq, hparse]
    rfl
  | yes =>
    have hword := peekWord_of_ends (w := ascii "true") ht
    have htext : ascii "true" = [0x74, 0x72, 0x75, 0x65] := rfl
    rw [htext] at hword ⊢
    refine ⟨line, ?_⟩
    simp only [parseValue, List.cons_append, List.nil_append, htext] at hword ⊢
    simp [hword, isQuote]
  | no =>
    have hword := peekWord_of_ends (w := ascii "false") ht
    have hother : ∀ t, peekWord (ascii "true") (0x66 :: t) = false := fun t => rfl
    have htext : ascii "false" = [0x66, 0x61, 0x6C, 0x73, 0x65] := rfl
    rw [htext] at hword ⊢
    refine ⟨line, ?_⟩
    simp only [parseValue, List.cons_append, List.nil_append, htext, hother] at hword ⊢
    simp [hword, isQuote]
  -- a number is what starts with none of the other marks
  | number h =>
    refine ⟨line, ?_⟩
    rw [← parseNumber_of_text h ht.noNumber line]
    obtain ⟨c, cs, rfl, hc⟩ := h.head
    have hfirst : isQuote c = false ∧ c ≠ 0x5B ∧ c ≠ 0x74 ∧ c ≠ 0x66 := by
      refine ⟨?_, ?_, ?_, ?_⟩
      · by_contra hq
        simp only [isQuote, Bool.not_eq_false, Bool.or_eq_true, beq_iff_eq] at hq
        rcases hq with rfl | rfl <;> revert hc <;> decide
      all_goals rintro rfl; revert hc; decide
    obtain ⟨hq, hbracket, htrue, hfalse⟩ := hfirst
    have hword : ∀ {w ws}, c ≠ w → peekWord (w :: ws) (c :: (cs ++ t)) = false := by
      intro w ws hne
      simp [peekWord, List.isPrefixOf, hne.symm]
    have h1 : ascii "true" = 0x74 :: [0x72, 0x75, 0x65] := rfl
    have h2 : ascii "false" = 0x66 :: [0x61, 0x6C, 0x73, 0x65] := rfl
    simp [parseValue, hq, hbracket, h1, h2, hword htrue, hword hfalse]

end

end Toml
