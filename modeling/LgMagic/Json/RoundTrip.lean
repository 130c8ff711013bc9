import LgMagic.Json.ParsedTrees

/-!
# JSON round trip

What `json_dumps` writes is read by `json_parse` as the same tree. The parser is followed through
the text piece by piece: each lemma reads what one function of the writer wrote and says what is
left.

* `parseString_escape`, `parseNumber_append`: strings and numbers;
* `parseValue_dump`: a value, with more text after it;
* `jsonParse_jsonDumps`: a document.
-/

namespace Json

open Binary64 CString Printf

/-! ## Strings -/

/-- The control bytes of a string are those that have an escape of one letter. -/
def CleanText (s : CStr) : Prop :=
  ∀ c ∈ s.val, c < 0x20 → c = 0x08 ∨ c = 0x0C ∨ c = 0x0A ∨ c = 0x0D ∨ c = 0x09

theorem parseChars_plain {c : UInt8} (hq : c ≠ 0x22) (he : c ≠ 0x5C) (hc : ¬ c < 0x20) (t : Bytes) :
    parseChars (c :: t) = storeByte c (parseChars t) := by
  rw [parseChars.eq_def]
  simp [hq, he, hc]

theorem parseChars_escape {e b : UInt8} (h : escapedByte e = some b) (t : Bytes) :
    parseChars (0x5C :: e :: t) = storeByte b (parseChars t) := by
  rw [parseChars.eq_def]
  simp [h]

/-- What is written for a byte is read as that byte. -/
theorem parseChars_escapeByte {c : UInt8}
    (hc : c < 0x20 → c = 0x08 ∨ c = 0x0C ∨ c = 0x0A ∨ c = 0x0D ∨ c = 0x09) (t : Bytes) :
    parseChars (escapeByte c ++ t) = storeByte c (parseChars t) := by
  unfold escapeByte
  split_ifs with h1 h2 h3 h4 h5 h6 h7 h8
  · subst h1; exact parseChars_escape rfl t
  · subst h2; exact parseChars_escape rfl t
  · subst h3; exact parseChars_escape rfl t
  · subst h4; exact parseChars_escape rfl t
  · subst h5; exact parseChars_escape rfl t
  · subst h6; exact parseChars_escape rfl t
  · subst h7; exact parseChars_escape rfl t
  · -- the other control bytes are excluded
    rcases hc h8 with h | h | h | h | h <;> contradiction
  · exact parseChars_plain h1 h2 h8 t

theorem parseChars_escaped {s : Bytes}
    (hs : ∀ c ∈ s, c < 0x20 → c = 0x08 ∨ c = 0x0C ∨ c = 0x0A ∨ c = 0x0D ∨ c = 0x09) (t : Bytes) :
    parseChars (s.flatMap escapeByte ++ 0x22 :: t) = .ok (s, t) := by
  induction s with
  | nil =>
    rw [List.flatMap_nil, List.nil_append, parseChars.eq_def]
    rfl
  | cons c s ih =>
    rw [List.flatMap_cons, List.append_assoc, parseChars_escapeByte (hs c List.mem_cons_self),
      ih fun c hc => hs c (List.mem_cons_of_mem _ hc)]
    rfl

/-- What is written for a string is read as that string. -/
theorem parseString_escape {s : CStr} (hs : CleanText s) (t : Bytes) :
    parseString (escapeString s ++ t) = .ok (s, t) := by
  simp only [escapeString, List.cons_append, List.append_assoc, List.nil_append, parseString,
    if_true, parseChars_escaped hs]
  exact congrArg (fun s => Except.ok (s, t)) (CStr.ofBuffer_val s)

/-! ## Numbers -/

/-- The printed text of a number reads back as the number. -/
def ReadsBack (d : Double) : Prop := parseNumber (fmtNumber d) = .ok (d, [])

theorem isSpace_of_isDigit {c : UInt8} (h : isDigit c = true) : isSpace c = false := by
  simp only [isDigit, isSpace, Bool.and_eq_true, decide_eq_true_eq, UInt8.le_iff_toNat_le,
    Bool.or_eq_false_iff, beq_eq_false_iff_ne, ne_eq, ← UInt8.toNat_inj, Bool.and_eq_false_iff,
    decide_eq_false_iff_not] at h ⊢
  have h9 : (0x30 : UInt8).toNat = 48 := rfl
  have h0D : (0x0D : UInt8).toNat = 13 := rfl
  have h20 : (0x20 : UInt8).toNat = 32 := rfl
  omega

/-- A text that starts as a number does. -/
def StartsNumber (s : Bytes) : Prop := ∃ c cs, s = c :: cs ∧ (c = 0x2D ∨ isDigit c = true)

theorem startsNumber_digits (neg : Bool) {ds : List ℕ} (hds : ∀ d ∈ ds, d < 10) (hne : ds ≠ [])
    (t : Bytes) : StartsNumber ((if neg then [0x2D] else []) ++ ds.map digitByte ++ t) := by
  obtain ⟨d, ds, rfl⟩ := List.exists_cons_of_ne_nil hne
  cases neg with
  | true => exact ⟨0x2D, _, rfl, .inl rfl⟩
  | false => exact ⟨digitByte d, _, rfl, .inr (isDigit_digitByte (hds d List.mem_cons_self))⟩

theorem startsNumber_render {x : NumText} (h : x.WellFormed) : StartsNumber x.render := by
  rw [NumText.render, List.append_assoc]
  exact startsNumber_digits _ h.ip_lt h.ip_ne _

/-- Without the zeros at its end a decimal starts as before. -/
theorem startsNumber_stripFraction {s : Bytes} (h : StartsNumber s) (hpoint : 0x2E ∈ s) :
    StartsNumber (stripFraction s) := by
  obtain ⟨c, cs, rfl, hc⟩ := h
  obtain ⟨u, hu⟩ : ∃ u, (c :: cs).rdropWhile (· == 0x30) = c :: u := by
    -- the point is no zero, so something is left, and that is the start
    cases hdrop : (c :: cs).rdropWhile (· == 0x30) with
    | nil =>
      have hzero := List.rdropWhile_eq_nil_iff.mp hdrop 0x2E hpoint
      exact absurd hzero (by decide)
    | cons c' u =>
      have hdropped := List.rdropWhile_prefix (· == 0x30) (l := c :: cs)
      rw [hdrop, List.cons_prefix_cons] at hdropped
      exact ⟨u, by rw [hdropped.1]⟩
  rw [stripFraction, hu]
  split_ifs
  · exact ⟨c, _, rfl, hc⟩
  · exact ⟨c, u, rfl, hc⟩

theorem fixedText_wellFormed (x : Finite) : (fixedText x).WellFormed where
  ip_lt _ hd := decDigits_lt hd
  ip_ne := decDigits_ne_nil _
  fp_lt d hd := by
    rcases List.mem_append.mp hd with hd | hd
    · rw [(List.mem_replicate.mp hd).2]
      norm_num
    · exact decDigits_lt hd

theorem point_mem_fixedText (x : Finite) : 0x2E ∈ (fixedText x).render := by
  have hne : (fixedText x).fp ≠ [] := by simp [fixedText, decDigits_ne_nil]
  rw [NumText.render, if_neg hne]
  simp

/-- The text of a finite number starts as a number does. -/
theorem startsNumber_fmtNumber (x : Finite) : StartsNumber (fmtNumber (.finite x)) := by
  rw [fmtNumber]
  split_ifs with h
  · rw [fmtG_finite h.1]
    exact startsNumber_render (gText_wellFormed _)
  · exact startsNumber_stripFraction (startsNumber_render (fixedText_wellFormed x))
      (point_mem_fixedText x)

/-- The text of a number that reads back starts as a number does. -/
theorem ReadsBack.starts {d : Double} (h : ReadsBack d) : StartsNumber (fmtNumber d) := by
  cases d with
  | finite x => exact startsNumber_fmtNumber x
  | nan | inf neg => simp [ReadsBack, fmtNumber, parseNumber, ascii, isNumChar, isDigit] at h

/-- What may follow a value in the writer's texts: a comma, a new line or nothing. -/
def EndsValue (t : Bytes) : Prop := ∀ c ∈ t.head?, c = 0x2C ∨ c = 0x0A

/-- The text of a number in front of what may follow it is not taken for a hexadecimal one. -/
theorem hexForm_append {s t : Bytes} (hdecimal : EndsDecimal t)
    (ht : ∀ c ∈ t.head?, isXdigit c = false ∧ c ≠ 0x78 ∧ c ≠ 0x58) :
    hexForm (s ++ t) = hexForm s := by
  rw [hexForm, hexForm, takeSign_append hdecimal]
  dsimp only
  -- the form is decided by four bytes at most, so by where the text ends among them
  rcases (takeSign s).2 with _ | ⟨z, _ | ⟨x, _ | ⟨c, _ | ⟨c', cs⟩⟩⟩⟩
  · rcases t with _ | ⟨z, _ | ⟨x, _ | ⟨c, t⟩⟩⟩
    · rfl
    · rfl
    · rfl
    · have hz : z ≠ 0x30 := by
        rintro rfl
        exact absurd (hdecimal 0x30 rfl).1 (by decide)
      simp [hz]
  · rcases t with _ | ⟨x, _ | ⟨c, t⟩⟩
    · rfl
    · rfl
    · obtain ⟨-, hx, hX⟩ := ht x rfl
      simp [hx, hX]
  · rcases t with _ | ⟨c, t⟩
    · rfl
    · obtain ⟨hxdigit, -, -⟩ := ht c rfl
      have hpoint := (hdecimal c rfl).2.2.2.1
      simp [hxdigit, hpoint]
  · rcases t with _ | ⟨c', t⟩
    · rfl
    · obtain ⟨hxdigit, -, -⟩ := ht c' rfl
      simp [hxdigit]
  · rfl

/-- The text starts with no byte that could go on with a number in any form. -/
def EndsToken (t : Bytes) : Prop :=
  ∀ c ∈ t.head?, isNumChar c = false ∧ isXdigit c = false ∧ c ≠ 0x78 ∧ c ≠ 0x58

theorem EndsToken.endsDecimal {t : Bytes} (h : EndsToken t) : EndsDecimal t := fun c hc => by
  simpa [isNumChar, and_assoc, and_comm, and_left_comm] using (h c hc).1

/-- What is read of a number does not depend on such a text behind it. -/
theorem strtod_append {c : UInt8} (hc : isSpace c = false) {t : Bytes} (ht : EndsToken t) (u : Bytes) :
    strtodDecimal (c :: u ++ t) = ((strtodDecimal (c :: u)).1, (strtodDecimal (c :: u)).2 ++ t) ∧
      decimalMag (c :: u ++ t) = decimalMag (c :: u) ∧ hexForm (c :: u ++ t) = hexForm (c :: u) := by
  have hdecimal := ht.endsDecimal
  obtain ⟨htake, hdrop⟩ := span_append isDigit (fun x hx => (hdecimal x hx).1) (takeSign (c :: u)).2
  refine ⟨strtodDecimal_append hdecimal hc u, ?_, hexForm_append hdecimal fun x hx => (ht x hx).2⟩
  simp only [decimalMag, takeSign_append hdecimal, htake, hdrop, takeFraction_append hdecimal,
    takeExp_append hdecimal]

/-- What is written for a number is read as that number, whatever follows it in a text. -/
theorem parseNumber_append {d : Double} (h : ReadsBack d) {t : Bytes} (ht : EndsValue t) :
    parseNumber (fmtNumber d ++ t) = .ok (d, t) := by
  obtain ⟨c, cs, htext, hc⟩ := h.starts
  rw [ReadsBack, htext, parseNumber_eq_ok] at h
  obtain ⟨hdigit, hhex, hrange, hread, hrest⟩ := h
  have hends : EndsToken t := fun x hx => by
    rcases ht x hx with rfl | rfl <;> decide
  have hspace : isSpace c = false := by
    rcases hc with rfl | hc
    · decide
    · exact isSpace_of_isDigit hc
  obtain ⟨htake, hdrop⟩ := span_append isNumChar (fun x hx => (hends x hx).1) (c :: cs)
  obtain ⟨hstrtod, hmag, hform⟩ := strtod_append hspace hends cs
  rw [htext, parseNumber_eq_ok, htake, hdrop, hmag, hstrtod, hread, hrest, hform]
  exact ⟨hdigit, hhex, hrange, rfl, rfl⟩

/-! ## White space -/

theorem skipWs_cons {c : UInt8} (h : isWs c = false) (t : Bytes) : skipWs (c :: t) = c :: t := by
  simp [skipWs, h]

/-- The white space of a new line is skipped. -/
theorem skipWs_newLine (level : ℕ) {c : UInt8} (h : isWs c = false) (t : Bytes) :
    skipWs (newLine level ++ c :: t) = c :: t := by
  have hspaces (n : ℕ) : (List.replicate n 0x20 ++ c :: t).dropWhile isWs = c :: t := by
    induction n with
    | zero => exact skipWs_cons h t
    | succ n ih => simpa [List.replicate_succ, isWs] using ih
  simpa [skipWs, newLine, isWs] using hspaces (4 * level)

theorem endsValue_newLine (level : ℕ) (t : Bytes) : EndsValue (newLine level ++ t) := by
  simp [EndsValue, newLine]

theorem endsValue_comma (t : Bytes) : EndsValue (0x2C :: t) := by simp [EndsValue]

/-! ## Values -/

mutual

/-- Strings and numbers of a tree that the writer's text can stand for. -/
def Readable : JsonValue → Prop
  | .num d => ReadsBack d
  | .str s => CleanText s
  | .arr items => ItemsReadable items
  | .obj ms => MembersReadable ms
  | _ => True

def ItemsReadable : List JsonValue → Prop
  | [] => True
  | v :: vs => Readable v ∧ ItemsReadable vs

def MembersReadable : List (CStr × JsonValue) → Prop
  | [] => True
  | (k, v) :: ms => CleanText k ∧ Readable v ∧ MembersReadable ms

end

/-- What is written for a value starts with no white space and closes no array. -/
theorem dumpValue_head {v : JsonValue} (h : Readable v) (level : ℕ) :
    ∃ c cs, dumpValue level v = c :: cs ∧ isWs c = false ∧ c ≠ 0x5D := by
  cases v with
  | null => exact ⟨_, _, by rw [dumpValue]; rfl, by decide, by decide⟩
  | bool b =>
    cases b with
    | true => exact ⟨_, _, by rw [dumpValue]; rfl, by decide, by decide⟩
    | false => exact ⟨_, _, by rw [dumpValue]; rfl, by decide, by decide⟩
  | num d =>
    rw [Readable] at h
    obtain ⟨c, cs, htext, hc⟩ := h.starts
    refine ⟨c, cs, by rw [dumpValue, htext], ?_, ?_⟩
    · by_contra hws
      simp only [isWs, Bool.not_eq_false, Bool.or_eq_true, beq_iff_eq] at hws
      rcases hws with ((rfl | rfl) | rfl) | rfl <;> exact absurd hc (by decide)
    · rintro rfl
      exact absurd hc (by decide)
  | str s => exact ⟨_, _, by rw [dumpValue]; rfl, by decide, by decide⟩
  | arr items =>
    cases items with
    | nil => exact ⟨_, _, by rw [dumpValue]; rfl, by decide, by decide⟩
    | cons v vs => exact ⟨_, _, by rw [dumpValue]; rfl, by decide, by decide⟩
  | obj ms =>
    cases ms with
    | nil => exact ⟨_, _, by rw [dumpValue], by decide, by decide⟩
    | cons m ms => exact ⟨_, _, by rw [dumpValue]; rfl, by decide, by decide⟩

/-- Every item takes a byte. -/
theorem length_le_dumpItems (level : ℕ) (vs : List JsonValue) :
    vs.length ≤ (dumpItems level vs).length := by
  induction vs with
  | nil => exact Nat.zero_le _
  | cons v vs ih =>
    rw [dumpItems]
    simp only [newLine, List.length_append, List.length_cons]
    omega

/-- Every member takes a byte. -/
theorem length_le_dumpMembers (level : ℕ) (ms : List (CStr × JsonValue)) :
    ms.length ≤ (dumpMembers level ms).length := by
  induction ms with
  | nil => exact Nat.zero_le _
  | cons m ms ih =>
    obtain ⟨k, v⟩ := m
    rw [dumpMembers]
    simp only [newLine, List.length_append, List.length_cons]
    omega

/-- The first item of an array comes after white space. -/
theorem skipWs_dumpItems {v : JsonValue} (h : Readable v) (level : ℕ) (vs : List JsonValue)
    (u : Bytes) : skipWs (dumpItems level (v :: vs) ++ u) =
      dumpValue (level + 1) v ++
        ((if vs.isEmpty then [] else [0x2C]) ++ (dumpItems level vs ++ u)) := by
  obtain ⟨c, cs, htext, hws, -⟩ := dumpValue_head h (level + 1)
  rw [dumpItems, htext]
  simp only [List.append_assoc, List.cons_append]
  exact skipWs_newLine _ hws _

/-- The first key of an object comes after white space. -/
theorem skipWs_dumpMembers (level : ℕ) (k : CStr) (v : JsonValue) (ms : List (CStr × JsonValue))
    (u : Bytes) : skipWs (dumpMembers level ((k, v) :: ms) ++ u) =
      escapeString k ++ (ascii ": " ++ (dumpValue (level + 1) v ++
        ((if ms.isEmpty then [] else [0x2C]) ++ (dumpMembers level ms ++ u)))) := by
  rw [dumpMembers, escapeString]
  simp only [List.append_assoc, List.cons_append]
  exact skipWs_newLine _ (by decide) _

theorem parseWord_append (word : String) (v : JsonValue) (t : Bytes) :
    parseWord word v (ascii word ++ t) = .ok (v, t) := by
  rw [parseWord, if_pos (List.isPrefixOf_iff_prefix.mpr (List.prefix_append _ _)),
    List.drop_left]

/-- A value that starts with a number's byte is a number. -/
theorem parseValue_number {c : UInt8} (hc : c = 0x2D ∨ isDigit c = true) (levels : ℕ) (cs : Bytes) :
    parseValue levels (c :: cs) =
      (parseNumber (c :: cs)).map fun (d, s) => (.num d, s) := by
  have hne (x : UInt8) (hx : isDigit x = false) (hx' : x ≠ 0x2D) : c ≠ x := by
    rintro rfl
    rcases hc with hc | hc
    · exact hx' hc
    · rw [hx] at hc
      cases hc
  have hws : isWs c = false := by
    simp [isWs, hne 0x20, hne 0x09, hne 0x0A, hne 0x0D, isDigit]
  rw [parseValue.eq_def, skipWs_cons hws]
  dsimp only
  rw [if_neg (hne _ (by decide) (by decide)), if_neg (hne _ (by decide) (by decide)),
    if_neg (hne _ (by decide) (by decide)), if_neg (hne _ (by decide) (by decide)),
    if_neg (hne _ (by decide) (by decide)), if_neg (hne _ (by decide) (by decide)),
    if_pos (by simpa using hc)]

/-- An array whose first item is there. -/
theorem parseArray_items {value : Bytes → Parsed JsonValue} {s t : Bytes} {vs : List JsonValue}
    (hhead : ∃ c cs, skipWs s = c :: cs ∧ c ≠ 0x5D)
    (h : parseItems value (s.length + 1) (skipWs s) = .ok (vs, t)) :
    parseArray value s = .ok (.arr vs, t) := by
  obtain ⟨c, cs, hs, hc⟩ := hhead
  rw [hs] at h
  simp only [parseArray, hs, if_neg hc, h]
  rfl

/-- An object whose first key is there. -/
theorem parseObject_members {value : Bytes → Parsed JsonValue} {s t : Bytes}
    {ms : List (CStr × JsonValue)} (hhead : ∃ c cs, skipWs s = c :: cs ∧ c ≠ 0x7D)
    (h : parseMembers value (s.length + 1) (skipWs s) = .ok (ms, t)) :
    parseObject value s = .ok (.obj ms, t) := by
  obtain ⟨c, cs, hs, hc⟩ := hhead
  rw [hs] at h
  simp only [parseObject, hs, if_neg hc, h]
  rfl

/-- What is written for a key and its colon is read up to the value. -/
theorem parseKey_dump {k : CStr} (hk : CleanText k) {c : UInt8} (hc : isWs c = false) (t : Bytes) :
    parseKey (escapeString k ++ (ascii ": " ++ c :: t)) = .ok (k, c :: t) := by
  have hcolon : ascii ": " = [0x3A, 0x20] := rfl
  have hskip : skipWs (0x20 :: c :: t) = c :: t := by simp [skipWs, isWs] at hc ⊢; simp [hc]
  rw [parseKey, parseString_escape hk, hcolon]
  simp only [bind, Except.bind, List.cons_append, List.nil_append]
  rw [skipWs_cons (by decide)]
  simp only [if_true, hskip]
  rfl

/-- One item, and what comes after it. -/
theorem parseItems_cons {value : Bytes → Parsed JsonValue} {v : JsonValue} {s : Bytes}
    (vs : List JsonValue) (level : ℕ) (t : Bytes) (n : ℕ)
    (h : value s = .ok (v, (if vs.isEmpty then [] else [0x2C]) ++
      (dumpItems level vs ++ (newLine level ++ 0x5D :: t))))
    (hrest : vs ≠ [] → parseItems value n
      (skipWs (dumpItems level vs ++ (newLine level ++ 0x5D :: t))) = .ok (vs, t)) :
    parseItems value (n + 1) s = .ok (v :: vs, t) := by
  rw [parseItems, h]
  simp only [bind, Except.bind]
  cases vs with
  | nil =>
    rw [List.isEmpty_nil, if_pos rfl, dumpItems, List.nil_append, List.nil_append,
      skipWs_newLine level (by decide)]
    rfl
  | cons w vs =>
    have hrest := hrest (List.cons_ne_nil w vs)
    simp only [List.isEmpty_cons, Bool.false_eq_true, if_false, List.cons_append, List.nil_append]
    rw [skipWs_cons (by decide)]
    simp only [if_true, hrest]
    rfl

/-- One member, and what comes after it. -/
theorem parseMembers_cons {value : Bytes → Parsed JsonValue} {k : CStr} {v : JsonValue} {s : Bytes}
    (ms : List (CStr × JsonValue)) (level : ℕ) (t : Bytes) (n : ℕ) {s' : Bytes}
    (hkey : parseKey s = .ok (k, s'))
    (h : value s' = .ok (v, (if ms.isEmpty then [] else [0x2C]) ++
      (dumpMembers level ms ++ (newLine level ++ 0x7D :: t))))
    (hrest : ms ≠ [] → parseMembers value n
      (skipWs (dumpMembers level ms ++ (newLine level ++ 0x7D :: t))) = .ok (ms, t)) :
    parseMembers value (n + 1) s = .ok ((k, v) :: ms, t) := by
  rw [parseMembers, hkey]
  simp only [bind, Except.bind, h]
  cases ms with
  | nil =>
    rw [List.isEmpty_nil, if_pos rfl, dumpMembers, List.nil_append, List.nil_append,
      skipWs_newLine level (by decide)]
    rfl
  | cons m ms =>
    have hrest := hrest (List.cons_ne_nil m ms)
    simp only [List.isEmpty_cons, Bool.false_eq_true, if_false, List.cons_append, List.nil_append]
    rw [skipWs_cons (by decide)]
    simp only [if_true, hrest]
    rfl

/-- A comma or a new line follows an item. -/
theorem endsValue_items (vs : List JsonValue) (level : ℕ) (u : Bytes) :
    EndsValue ((if vs.isEmpty then [] else [0x2C]) ++
      (dumpItems level vs ++ (newLine level ++ u))) := by
  cases vs with
  | nil => simpa [dumpItems] using endsValue_newLine level u
  | cons v vs => simpa using endsValue_comma _

/-- A comma or a new line follows a member. -/
theorem endsValue_members (ms : List (CStr × JsonValue)) (level : ℕ) (u : Bytes) :
    EndsValue ((if ms.isEmpty then [] else [0x2C]) ++
      (dumpMembers level ms ++ (newLine level ++ u))) := by
  cases ms with
  | nil => simpa [dumpMembers] using endsValue_newLine level u
  | cons m ms => simpa using endsValue_comma _

mutual

/-- What is written for a value is read as that value, at any level and with more text after it. -/
theorem parseValue_dump : ∀ {v : JsonValue}, Readable v → ∀ {levels : ℕ}, v.depth ≤ levels →
    ∀ (level : ℕ) {t : Bytes}, EndsValue t →
      parseValue levels (dumpValue level v ++ t) = .ok (v, t)
  | .null, _, levels, _, level, t, _ => by
    rw [dumpValue, parseValue.eq_def]
    exact parseWord_append "null" .null t
  | .bool true, _, levels, _, level, t, _ => by
    rw [dumpValue, parseValue.eq_def]
    exact parseWord_append "true" (.bool true) t
  | .bool false, _, levels, _, level, t, _ => by
    rw [dumpValue, parseValue.eq_def]
    exact parseWord_append "false" (.bool false) t
  | .num d, hv, levels, _, level, t, ht => by
    rw [Readable] at hv
    obtain ⟨c, cs, htext, hc⟩ := hv.starts
    have hread := parseNumber_append hv ht
    rw [htext] at hread
    rw [dumpValue, htext, List.cons_append, parseValue_number hc, ← List.cons_append, hread]
    rfl
  | .str s, hv, levels, _, level, t, ht => by
    rw [Readable] at hv
    have htext : escapeString s = 0x22 :: (s.val.flatMap escapeByte ++ [0x22]) := rfl
    have hread := parseString_escape hv t
    rw [htext] at hread
    rw [dumpValue, htext, List.cons_append, parseValue.eq_def, skipWs_cons (by decide)]
    exact congrArg (Except.map fun (str, s) => (JsonValue.str str, s)) hread
  | .arr [], hv, levels + 1, hdepth, level, t, ht => by
    rw [dumpValue, parseValue.eq_def]
    rfl
  | .arr (v :: vs), hv, levels + 1, hdepth, level, t, ht => by
    rw [Readable] at hv
    rw [JsonValue.depth, Nat.succ_le_succ_iff] at hdepth
    have htext : dumpValue level (.arr (v :: vs)) ++ t =
        0x5B :: (dumpItems level (v :: vs) ++ (newLine level ++ 0x5D :: t)) := by
      simp [dumpValue]
    -- the first item does not start with the bracket that would close the array
    have hhead : ∃ c cs, skipWs (dumpItems level (v :: vs) ++ (newLine level ++ 0x5D :: t)) =
        c :: cs ∧ c ≠ 0x5D := by
      obtain ⟨c, cs, hc, -, hne⟩ := dumpValue_head hv.1 (level + 1)
      exact ⟨c, _, by rw [skipWs_dumpItems hv.1, hc]; rfl, hne⟩
    rw [htext, parseValue.eq_def, skipWs_cons (by decide)]
    refine parseArray_items hhead
      (parseItems_dump (List.cons_ne_nil v vs) hv hdepth level t ?_)
    -- the fuel is the length of the text, which has at least one byte for each item
    have hlength := length_le_dumpItems level (v :: vs)
    rw [List.length_append]
    omega
  | .obj [], hv, levels + 1, hdepth, level, t, ht => by
    rw [dumpValue, parseValue.eq_def]
    rfl
  | .obj ((k, v) :: ms), hv, levels + 1, hdepth, level, t, ht => by
    rw [Readable] at hv
    rw [JsonValue.depth, Nat.succ_le_succ_iff] at hdepth
    have htext : dumpValue level (.obj ((k, v) :: ms)) ++ t =
        0x7B :: (dumpMembers level ((k, v) :: ms) ++ (newLine level ++ 0x7D :: t)) := by
      simp [dumpValue]
    rw [htext, parseValue.eq_def, skipWs_cons (by decide)]
    refine parseObject_members ⟨0x22, _, by rw [skipWs_dumpMembers]; rfl, by decide⟩
      (parseMembers_dump (List.cons_ne_nil _ ms) hv hdepth level t ?_)
    -- the fuel, as for an array
    have hlength := length_le_dumpMembers level ((k, v) :: ms)
    rw [List.length_append]
    omega

/-- What is written for the items of an array is read up to the bracket. -/
theorem parseItems_dump : ∀ {vs : List JsonValue}, vs ≠ [] → ItemsReadable vs →
    ∀ {levels : ℕ}, itemsDepth vs ≤ levels → ∀ (level : ℕ) (t : Bytes) {n : ℕ}, vs.length ≤ n →
      parseItems (parseValue levels) n
        (skipWs (dumpItems level vs ++ (newLine level ++ 0x5D :: t))) = .ok (vs, t)
  | [], hne, _, _, _, _, _, _, _ => absurd rfl hne
  | v :: vs, _, hvs, levels, hdepth, level, t, n + 1, hn => by
    rw [ItemsReadable] at hvs
    rw [itemsDepth] at hdepth
    rw [skipWs_dumpItems hvs.1]
    exact parseItems_cons vs level t n
      (parseValue_dump hvs.1 ((le_max_left _ _).trans hdepth) _ (endsValue_items vs level _))
      fun hne => parseItems_dump hne hvs.2 ((le_max_right _ _).trans hdepth) level t
        (Nat.le_of_succ_le_succ hn)

/-- What is written for the members of an object is read up to the brace. -/
theorem parseMembers_dump : ∀ {ms : List (CStr × JsonValue)}, ms ≠ [] → MembersReadable ms →
    ∀ {levels : ℕ}, membersDepth ms ≤ levels → ∀ (level : ℕ) (t : Bytes) {n : ℕ}, ms.length ≤ n →
      parseMembers (parseValue levels) n
        (skipWs (dumpMembers level ms ++ (newLine level ++ 0x7D :: t))) = .ok (ms, t)
  | [], hne, _, _, _, _, _, _, _ => absurd rfl hne
  | (k, v) :: ms, _, hms, levels, hdepth, level, t, n + 1, hn => by
    rw [MembersReadable] at hms
    rw [membersDepth] at hdepth
    obtain ⟨c, cs, htext, hws, -⟩ := dumpValue_head hms.2.1 (level + 1)
    have hvalue := parseValue_dump hms.2.1 ((le_max_left _ _).trans hdepth) (level + 1)
      (endsValue_members ms level (0x7D :: t))
    rw [htext, List.cons_append] at hvalue
    rw [skipWs_dumpMembers, htext, List.cons_append]
    exact parseMembers_cons ms level t n (parseKey_dump hms.1 hws _) hvalue
      fun hne => parseMembers_dump hne hms.2.2 ((le_max_right _ _).trans hdepth) level t
        (Nat.le_of_succ_le_succ hn)

end

/-! ## Documents -/

mutual

/-- A tree is readable where its texts are clean and its numbers read back. -/
theorem readable_of_forall : ∀ {v : JsonValue}, (∀ s ∈ v.texts, CleanText s) →
    (∀ d ∈ v.numbers, ReadsBack d) → Readable v
  | .null, _, _ => trivial
  | .bool _, _, _ => trivial
  | .num d, _, hd => hd d (by simp [JsonValue.numbers])
  | .str s, hs, _ => hs s (by simp [JsonValue.texts])
  | .arr _, hs, hd => itemsReadable_of_forall hs hd
  | .obj _, hs, hd => membersReadable_of_forall hs hd

theorem itemsReadable_of_forall : ∀ {vs : List JsonValue}, (∀ s ∈ itemsTexts vs, CleanText s) →
    (∀ d ∈ itemsNumbers vs, ReadsBack d) → ItemsReadable vs
  | [], _, _ => trivial
  | v :: vs, hs, hd => by
    simp only [itemsTexts, itemsNumbers, List.mem_append] at hs hd
    exact ⟨readable_of_forall (fun s h => hs s (.inl h)) fun d h => hd d (.inl h),
      itemsReadable_of_forall (fun s h => hs s (.inr h)) fun d h => hd d (.inr h)⟩

theorem membersReadable_of_forall : ∀ {ms : List (CStr × JsonValue)},
    (∀ s ∈ membersTexts ms, CleanText s) → (∀ d ∈ membersNumbers ms, ReadsBack d) →
    MembersReadable ms
  | [], _, _ => trivial
  | (k, v) :: ms, hs, hd => by
    simp only [membersTexts, membersNumbers, List.mem_append, List.mem_cons] at hs hd
    exact ⟨hs k (.inl (.inl rfl)),
      readable_of_forall (fun s h => hs s (.inl (.inr h))) fun d h => hd d (.inl h),
      membersReadable_of_forall (fun s h => hs s (.inr h)) fun d h => hd d (.inr h)⟩

end

/-- A readable tree that is nested at most `32` deep is read back as it is. -/
theorem jsonParse_of_readable {v : JsonValue} (hdepth : v.depth ≤ 32) (h : Readable v) :
    jsonParse (jsonDumps v) = .ok v := by
  have hread : parseValue jsonMaxDepth (dumpValue 0 v ++ []) = .ok (v, []) :=
    parseValue_dump h hdepth 0 (by simp [EndsValue])
  rw [List.append_nil] at hread
  rw [jsonParse, jsonDumps, hread]
  rfl

/-- A tree that is nested at most `32` deep, with texts that hold no other control bytes than those
with a short escape and numbers whose printed text reads back, is read back as it is. -/
theorem jsonParse_jsonDumps {v : JsonValue} (hdepth : v.depth ≤ 32)
    (htexts : ∀ s ∈ v.texts, CleanText s) (hnumbers : ∀ d ∈ v.numbers, ReadsBack d) :
    jsonParse (jsonDumps v) = .ok v :=
  jsonParse_of_readable hdepth (readable_of_forall htexts hnumbers)

/-- A tree with a key that comes twice. -/
def sampleTree : JsonValue :=
  .obj [(.lit "bias", .arr [.num (CNum.ofRat (5 / 4)), .num (CNum.ofRat (-1 / 8)), .arr []]),
    (.lit "bias", .str (.lit "a\nb")), (.lit "", .null)]

theorem jsonParse_jsonDumps_sampleTree : jsonParse (jsonDumps sampleTree) = .ok sampleTree := by
  have hnumbers : ∀ d ∈ sampleTree.numbers, parseNumber (fmtNumber d) = .ok (d, []) := by
    decide +kernel
  have htexts : ∀ s ∈ sampleTree.texts, ∀ c ∈ s.val, c < 0x20 →
      c = 0x08 ∨ c = 0x0C ∨ c = 0x0A ∨ c = 0x0D ∨ c = 0x09 := by decide +kernel
  exact jsonParse_jsonDumps (by decide) htexts hnumbers

end Json
