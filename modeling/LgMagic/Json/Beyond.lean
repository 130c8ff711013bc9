import LgMagic.Json.Numbers
import LgMagic.Json.Slice

/-!
# What the JSON parser reads behind its slice

`json_parse` should depend on the bytes of its slice only. It does not where the slice ends in the
middle of a word, which `strncmp` then finds or does not find, and where it is a single number, which
`strtod` may find to go on. Everywhere else the bytes behind the slice change no more than the text of
an error: a number at the end of a list is followed by an error at the same place, whether it is read
or not.

* `ValueText`: the grammar of a value and of what follows it;
* `Cut`: a text that ends in the middle of a word, where a value may stand;
* `valueText_complete`, `valueText_sound`: the parser reads the grammar, whatever lies behind;
* `settled_parseValueAt`: all that the bytes behind the slice can change;
* `ignoresBeyond_iff`: when they change nothing.
-/

namespace Json

open Binary64 CString Printf

/-! ## The grammar -/

/-- The words of the language. -/
def words : List (String × JsonValue) :=
  [("true", .bool true), ("false", .bool false), ("null", .null)]

/-- A text starts with a byte that may follow a value. -/
def GoesOn (r : Bytes) : Prop := ∃ c ∈ r.head?, isWs c = true ∨ c = 0x2C ∨ c = 0x5D ∨ c = 0x7D

/-- A whole token that `strtod` reads, in the range of `double`. -/
structure Number (token : Bytes) (d : Double) : Prop where
  start : StartsNumber token
  chars : ∀ c ∈ token, isNumChar c = true
  digit : token.any isDigit = true
  read : strtodDecimal token = (d, [])
  range : strtodErange d (decimalMag token) = false

/-- A text that starts with a value which is no array and no object; a number is over when something
follows that may follow a value. -/
inductive Scalar : Bytes → JsonValue → Bytes → Prop
  | word {s r w v} (hw : (w, v) ∈ words) (hs : s = ascii w ++ r) : Scalar s v r
  | str {s r k} (hs : s.head? = some 0x22) (h : parseString s = .ok (k, r)) : Scalar s (.str k) r
  | num {s r token d} (hs : s = token ++ r) (h : Number token d) (hr : GoesOn r) : Scalar s (.num d) r

section

variable {α : Type}

/-- The items of a list, up to the closing bracket. -/
inductive Listed (close : UInt8) (item : Bytes → α → Bytes → Prop) : Bytes → List α → Bytes → Prop
  | last {s x t r} (h : item s x t) (ht : skipWs t = close :: r) : Listed close item s [x] r
  | next {s x t t' xs r} (h : item s x t) (ht : skipWs t = 0x2C :: t')
      (hrest : Listed close item (skipWs t') xs r) : Listed close item s (x :: xs) r

/-- An array or an object, after the opening bracket. -/
inductive Container (close : UInt8) (ctor : List α → JsonValue) (item : Bytes → α → Bytes → Prop) :
    Bytes → JsonValue → Bytes → Prop
  | empty {s r} (hs : skipWs s = close :: r) : Container close ctor item s (ctor []) r
  | list {s xs r} (hs : (skipWs s).head? ≠ some close) (h : Listed close item (skipWs s) xs r) :
      Container close ctor item s (ctor xs) r

/-- Items the last of which is cut. -/
inductive CutList (item : Bytes → α → Bytes → Prop) (cut : Bytes → Prop) : Bytes → Prop
  | here {s} (h : cut s) : CutList item cut s
  | next {s x t t'} (h : item s x t) (ht : skipWs t = 0x2C :: t')
      (hrest : CutList item cut (skipWs t')) : CutList item cut s

end

/-- A member of an object. -/
def MemberText (value : Bytes → JsonValue → Bytes → Prop) (s : Bytes) (m : CStr × JsonValue)
    (r : Bytes) : Prop :=
  ∃ t, parseKey s = .ok (m.1, t) ∧ value t m.2 r

/-- A text that starts with a value, nested at most a number of levels deep. -/
def ValueText : ℕ → Bytes → JsonValue → Bytes → Prop
  | 0, s, v, r => Scalar (skipWs s) v r
  | n + 1, s, v, r => Scalar (skipWs s) v r ∨
      (∃ t, skipWs s = 0x5B :: t ∧ Container 0x5D .arr (ValueText n) t v r) ∨
      ∃ t, skipWs s = 0x7B :: t ∧ Container 0x7D .obj (MemberText (ValueText n)) t v r

/-- The beginning of a word, without its end. -/
def CutWord (s : Bytes) : Prop :=
  ∃ w v rest, (w, v) ∈ words ∧ ascii w = s ++ rest ∧ s ≠ [] ∧ rest ≠ []

/-- A text that ends in the middle of a word that would be the next value. -/
def Cut : ℕ → Bytes → Prop
  | 0, s => CutWord (skipWs s)
  | n + 1, s => CutWord (skipWs s) ∨
      (∃ t, skipWs s = 0x5B :: t ∧ (skipWs t).head? ≠ some 0x5D ∧
        CutList (ValueText n) (Cut n) (skipWs t)) ∨
      ∃ t, skipWs s = 0x7B :: t ∧ (skipWs t).head? ≠ some 0x7D ∧
        CutList (MemberText (ValueText n)) (fun s => ∃ k t, parseKey s = .ok (k, t) ∧ Cut n t) (skipWs t)

/-- White space and a single number, with nothing after it. -/
def LoneNumber (text : Bytes) : Prop := ∃ d, Number (skipWs text) d

/-! ## What follows a value -/

section

variable {α : Type} {close : UInt8} {unterminated expected : String} {ctor : List α → JsonValue}
  {item : Bytes → ReadAt α} {itemText : Bytes → α → Bytes → Prop} {beyond s t r token : Bytes} {c : UInt8}
  {cs : Bytes} {x : α} {xs : List α} {p : Cursor} {v : JsonValue} {d : Double} {n : ℕ} {e : FailAt}

theorem goesOn_of_skipWs {c : UInt8} (h : skipWs r = c :: cs) (hc : c = 0x2C ∨ c = 0x5D ∨ c = 0x7D) :
    GoesOn r := by
  cases r with
  | nil => cases h
  | cons b r =>
    refine ⟨b, rfl, ?_⟩
    by_cases hb : isWs b = true
    · exact .inl hb
    · rw [skipWs_cons (Bool.not_eq_true _ ▸ hb)] at h
      obtain ⟨rfl, -⟩ := List.cons.injEq .. ▸ h
      exact .inr hc

/-- A text that does not go on is not skipped, and no list goes on or ends there. -/
theorem skipWs_of_not_goesOn (h : ¬ GoesOn r) : skipWs r = r := by
  cases r with
  | nil => rfl
  | cons b r =>
    refine skipWs_cons (Bool.not_eq_true _ ▸ fun hb => h ⟨b, rfl, .inl hb⟩) r

theorem GoesOn.endsToken (h : GoesOn r) (b : Bytes) : EndsToken (r ++ b) := by
  obtain ⟨c, hc, hcases⟩ := h
  cases r with
  | nil => cases hc
  | cons c' r =>
    obtain rfl : c' = c := by simpa using hc
    intro x hx
    obtain rfl : c' = x := by simpa using hx
    rcases hcases with hws | rfl | rfl | rfl
    · simp only [isWs, Bool.or_eq_true, beq_iff_eq] at hws
      rcases hws with ((rfl | rfl) | rfl) | rfl <;> decide
    all_goals decide

theorem length_skipWs_le (s : Bytes) : (skipWs s).length ≤ s.length :=
  (List.dropWhile_suffix _).length_le

theorem length_of_skipWs (h : skipWs s = c :: cs) : cs.length < s.length := by
  have hlen := length_skipWs_le s
  rw [h, List.length_cons] at hlen
  exact hlen

/-! ## The loop over a list -/

theorem parseListAt_error (h : item s = .error e) :
    parseListAt close unterminated expected item (n + 1) s = .error e := by
  rw [parseListAt, h]
  rfl

theorem parseListAt_next (h : item s = .ok (x, p)) (hp : p.skipWs = .inside (0x2C :: cs)) :
    parseListAt close unterminated expected item (n + 1) s =
      (parseListAt close unterminated expected item n (skipWs cs)).map fun (xs, p) => (x :: xs, p) := by
  rw [parseListAt, h]
  simp only [bind, Except.bind, hp, if_true]
  cases parseListAt close unterminated expected item n (skipWs cs) <;> rfl

theorem parseListAt_last (hclose : close ≠ 0x2C) (h : item s = .ok (x, p))
    (hp : p.skipWs = .inside (close :: cs)) :
    parseListAt close unterminated expected item (n + 1) s = .ok ([x], .inside cs) := by
  rw [parseListAt, h]
  simp only [bind, Except.bind, hp, hclose, if_false, if_true]
  rfl

theorem parseListAt_stop (h : item s = .ok (x, p))
    (hp : ∀ c cs, p.skipWs = .inside (c :: cs) → c ≠ 0x2C ∧ c ≠ close) :
    parseListAt close unterminated expected item (n + 1) s =
      .error (stopAt unterminated expected p.skipWs) := by
  rw [parseListAt, h]
  simp only [bind, Except.bind]
  cases hskip : p.skipWs with
  | past more => rfl
  | inside left =>
    cases left with
    | nil => rfl
    | cons c cs =>
      obtain ⟨hcomma, hclose⟩ := hp c cs hskip
      simp only [hcomma, hclose, if_false]

theorem stopAt_cursor (p : Cursor) : (stopAt unterminated expected p).cursor = p := by
  rcases p with _ | _ <;> [rename_i left; skip] <;> [cases left; skip] <;> rfl

/-! ## The grammar is read -/

theorem length_of_parseChars {buf : Bytes} (h : parseChars s = .ok (buf, r)) : r.length < s.length := by
  -- a byte of the string goes in front of the rest of it
  have hstore : ∀ {b : UInt8} {t buf : Bytes}, (∀ {buf}, parseChars t = .ok (buf, r) →
      r.length < t.length) → storeByte b (parseChars t) = .ok (buf, r) → r.length < t.length := by
    intro b t buf ih hmap
    cases ht : parseChars t with
    | error e => rw [ht] at hmap; cases hmap
    | ok p =>
      rw [ht] at hmap
      obtain ⟨-, rfl⟩ := Prod.mk.injEq .. ▸ Except.ok.inj hmap
      exact ih ht
  fun_induction parseChars s generalizing buf with
  | case1 => cases h
  | case2 cs =>
    obtain ⟨-, rfl⟩ := Prod.mk.injEq .. ▸ Except.ok.inj h
    exact Nat.lt_succ_self _
  | case3 => cases h
  | case4 => cases h
  | case5 e cs b hb _ _ ih => exact ((hstore ih h).trans (Nat.lt_succ_self _)).trans (Nat.lt_succ_self _)
  | case6 => cases h
  | case7 c cs _ _ _ ih => exact (hstore ih h).trans (Nat.lt_succ_self _)

theorem length_of_parseString {k : CStr} (h : parseString s = .ok (k, r)) : r.length < s.length := by
  cases s with
  | nil => cases h
  | cons c cs =>
    unfold parseString at h
    dsimp only at h
    split_ifs at h
    cases hchars : parseChars cs with
    | error e => rw [hchars] at h; cases h
    | ok p =>
      rw [hchars] at h
      obtain ⟨-, rfl⟩ := Prod.mk.injEq .. ▸ Except.ok.inj h
      exact (length_of_parseChars hchars).trans (Nat.lt_succ_self _)

theorem length_of_parseKey {k : CStr} (h : parseKey s = .ok (k, r)) : r.length < s.length := by
  unfold parseKey at h
  cases hstr : parseString s with
  | error e => rw [hstr] at h; cases h
  | ok p =>
    obtain ⟨k', t⟩ := p
    simp only [hstr, bind, Except.bind] at h
    cases hskip : skipWs t with
    | nil => simp only [hskip] at h; cases h
    | cons c cs =>
      simp only [hskip] at h
      split_ifs at h
      obtain ⟨-, rfl⟩ := Prod.mk.injEq .. ▸ Except.ok.inj h
      calc (skipWs cs).length ≤ cs.length := length_skipWs_le cs
        _ < t.length := length_of_skipWs hskip
        _ < s.length := length_of_parseString hstr

theorem length_of_scalar (h : Scalar s v r) : r.length < s.length := by
  cases h with
  | word hw hs =>
    rw [hs, List.length_append]
    have hpos : ∀ x ∈ words, 0 < (ascii x.1).length := by decide +kernel
    have hlen := hpos _ hw
    dsimp only at hlen
    omega
  | str hs h => exact length_of_parseString h
  | num hs h hr =>
    obtain ⟨c, cs, rfl, -⟩ := h.start
    simp [hs]

theorem length_of_listed (hitem : ∀ {s x r}, itemText s x r → r.length < s.length)
    (h : Listed close itemText s xs r) : r.length < s.length := by
  induction h with
  | last h ht => exact (length_of_skipWs ht).trans (hitem h)
  | next h ht hrest ih =>
    exact ((ih.trans_le (length_skipWs_le _)).trans (length_of_skipWs ht)).trans (hitem h)

theorem length_of_container (hitem : ∀ {s x r}, itemText s x r → r.length < s.length)
    (h : Container close ctor itemText s v r) : r.length < s.length := by
  cases h with
  | empty hs => exact length_of_skipWs hs
  | list hs h => exact (length_of_listed hitem h).trans_le (length_skipWs_le s)

theorem length_of_memberText {value : Bytes → JsonValue → Bytes → Prop} {m : CStr × JsonValue}
    (hvalue : ∀ {s v r}, value s v r → r.length < s.length) (h : MemberText value s m r) :
    r.length < s.length := by
  obtain ⟨t, hkey, hv⟩ := h
  exact (hvalue hv).trans (length_of_parseKey hkey)

theorem length_of_valueText (h : ValueText n s v r) : r.length < s.length := by
  induction n generalizing s v r with
  | zero => exact (length_of_scalar h).trans_le (length_skipWs_le s)
  | succ n ih =>
    rcases h with h | ⟨t, hs, h⟩ | ⟨t, hs, h⟩
    · exact (length_of_scalar h).trans_le (length_skipWs_le s)
    · exact (length_of_container (fun h => ih h) h).trans (length_of_skipWs hs)
    · exact (length_of_container (length_of_memberText fun h => ih h) h).trans (length_of_skipWs hs)

/-- Enough turns of the loop read a list. -/
theorem parseListAt_of_listed (hclose : close ≠ 0x2C)
    (hlen : ∀ {s x r}, itemText s x r → r.length < s.length)
    (hitem : ∀ {s x r}, itemText s x r → item s = .ok (x, .inside r))
    (h : Listed close itemText s xs r) (hn : s.length < n) :
    parseListAt close unterminated expected item n s = .ok (xs, .inside r) := by
  induction h generalizing n with
  | last h ht =>
    cases n with
    | zero => cases hn
    | succ n => exact parseListAt_last hclose (hitem h) (congrArg Cursor.inside ht)
  | next h ht hrest ih =>
    cases n with
    | zero => cases hn
    | succ n =>
      rw [parseListAt_next (hitem h) (congrArg Cursor.inside ht), ih]
      · rfl
      · have hrest := (length_skipWs_le _).trans_lt ((length_of_skipWs ht).trans (hlen h))
        omega

theorem parseContainerAt_of_container (hclose : close ≠ 0x2C)
    (hlen : ∀ {s x r}, itemText s x r → r.length < s.length)
    (hitem : ∀ {s x r}, itemText s x r → item s = .ok (x, .inside r))
    (h : Container close ctor itemText s v r) :
    parseContainerAt close unterminated expected ctor item s = .ok (v, .inside r) := by
  unfold parseContainerAt
  cases h with
  | empty hs => simp [hs]
  | list hs h =>
    rw [if_neg hs, parseListAt_of_listed hclose hlen hitem h
      (Nat.lt_succ_of_le (length_skipWs_le s))]
    rfl

theorem parseMemberAt_of_memberText {value : Bytes → JsonValue → Bytes → Prop}
    {valueAt : Bytes → ReadAt JsonValue} {m : CStr × JsonValue}
    (hvalue : ∀ {s v r}, value s v r → valueAt s = .ok (v, .inside r)) (h : MemberText value s m r) :
    parseMemberAt valueAt s = .ok (m, .inside r) := by
  obtain ⟨t, hkey, hv⟩ := h
  rw [parseMemberAt, hkey]
  simp only [hvalue hv]
  rfl

/-! ## Scalars -/

theorem heads_of_words : ∀ x ∈ words,
    ascii x.1 ≠ [] ∧ (ascii x.1).head? ≠ some 0x7B ∧ (ascii x.1).head? ≠ some 0x5B := by
  decide +kernel

theorem parseScalarAt_word {w : String} (hw : (w, v) ∈ words) (hs : s.head? = (ascii w).head?) :
    parseScalarAt beyond s = parseWordAt beyond w v s := by
  cases s with
  | nil =>
    have hne : ∀ x ∈ words, (ascii x.1).head? ≠ none := by decide +kernel
    exact absurd hs.symm (hne _ hw)
  | cons c cs =>
    simp only [words, List.mem_cons, Prod.mk.injEq, List.not_mem_nil, or_false] at hw
    rcases hw with ⟨rfl, rfl⟩ | ⟨rfl, rfl⟩ | ⟨rfl, rfl⟩
    · obtain rfl : c = 0x74 := Option.some.inj hs
      rfl
    · obtain rfl : c = 0x66 := Option.some.inj hs
      rfl
    · obtain rfl : c = 0x6E := Option.some.inj hs
      rfl

theorem parseScalarAt_str (hs : s.head? = some 0x22) :
    parseScalarAt beyond s = (within (parseString s)).map fun (k, p) => (.str k, p) := by
  cases s with
  | nil => cases hs
  | cons c cs =>
    obtain rfl : c = 0x22 := Option.some.inj hs
    rfl

theorem parseScalarAt_num (hc : c = 0x2D ∨ isDigit c = true) :
    parseScalarAt beyond (c :: cs) = (parseNumberAt beyond (c :: cs)).map fun (d, p) => (.num d, p) := by
  have hne : c ≠ 0x22 ∧ c ≠ 0x74 ∧ c ≠ 0x66 ∧ c ≠ 0x6E := by
    refine ⟨?_, ?_, ?_, ?_⟩ <;> rintro rfl <;> exact absurd hc (by decide)
  have hnum : (decide (c = 0x2D) || isDigit c) = true := by simpa using hc
  simp only [parseScalarAt, hne, if_false, hnum, if_true]

/-- What a text that is no array and no object can start with. -/
theorem parseScalarAt_cases (s : Bytes) :
    s.head? = some 0x22 ∨ (∃ w v, (w, v) ∈ words ∧ s.head? = (ascii w).head?) ∨
      StartsNumber s ∨
        ∃ e : FailAt, ∀ beyond, parseScalarAt beyond s = .error e := by
  cases s with
  | nil => exact .inr (.inr (.inr ⟨_, fun _ => rfl⟩))
  | cons c cs =>
    by_cases hstr : c = 0x22
    · exact .inl (congrArg some hstr)
    by_cases ht : c = 0x74
    · exact .inr (.inl ⟨"true", .bool true, by simp [words], congrArg some ht⟩)
    by_cases hf : c = 0x66
    · exact .inr (.inl ⟨"false", .bool false, by simp [words], congrArg some hf⟩)
    by_cases hn : c = 0x6E
    · exact .inr (.inl ⟨"null", .null, by simp [words], congrArg some hn⟩)
    by_cases hnum : c = 0x2D ∨ isDigit c = true
    · exact .inr (.inr (.inl ⟨c, cs, rfl, hnum⟩))
    · refine .inr (.inr (.inr ⟨⟨"expected value", .inside (c :: cs)⟩, fun beyond => ?_⟩))
      have hnum' : ¬ (decide (c = 0x2D) || isDigit c) = true := by simpa using hnum
      simp only [parseScalarAt, hstr, ht, hf, hn, hnum', if_false]
      rfl

/-! ### Numbers -/

theorem parseNumberAt_eq_ok : parseNumberAt beyond s = .ok (d, p) ↔
    (s.takeWhile isNumChar).any isDigit = true ∧ hexForm (s ++ beyond) = false ∧
      strtodErange d (decimalMag (s ++ beyond)) = false ∧
        strtodDecimal (s ++ beyond) = (d, s.dropWhile isNumChar ++ beyond) ∧
          p = .inside (s.dropWhile isNumChar) := by
  unfold parseNumberAt
  rcases strtodDecimal (s ++ beyond) with ⟨d', last⟩
  dsimp only
  split_ifs with hdigit hbad
  · simp [hdigit]
  · simp only [Bool.or_eq_true, decide_eq_true_eq] at hbad
    refine iff_of_false (by simp) ?_
    rintro ⟨-, hhex, hrange, hread, -⟩
    obtain ⟨rfl, rfl⟩ := Prod.mk.injEq .. ▸ hread
    simp [hhex, hrange] at hbad
  · simp only [Bool.or_eq_true, decide_eq_true_eq, not_or, not_not, Bool.not_eq_true] at hbad
    obtain ⟨⟨hhex, hrange⟩, rfl⟩ := hbad
    constructor
    · intro h
      obtain ⟨rfl, rfl⟩ := Prod.mk.injEq .. ▸ Except.ok.inj h
      exact ⟨Bool.not_eq_false _ ▸ hdigit, hhex, hrange, rfl, rfl⟩
    · rintro ⟨-, -, -, hread, rfl⟩
      obtain ⟨rfl, -⟩ := Prod.mk.injEq .. ▸ hread
      rfl

theorem parseNumberAt_error (h : parseNumberAt beyond s = .error e) :
    e.cursor = .inside (s.dropWhile isNumChar) := by
  unfold parseNumberAt at h
  dsimp only at h
  split_ifs at h <;> rw [← Except.error.inj h]

/-- The value of the digits depends on the bytes that are taken only. -/
theorem decimalMag_of_append (hc : isSpace c = false) (h : strtodDecimal (c :: cs ++ r) = (d, r)) :
    decimalMag (c :: cs) = decimalMag (c :: cs ++ r) := by
  obtain ⟨htake, fp, e, x, y, hfrac, hfrac', hexp, hexp'⟩ := pieces_of_append hc h
  simp only [decimalMag, htake, hfrac, hfrac', hexp, hexp']

theorem isNumChar_of_startsNumber (hc : c = 0x2D ∨ isDigit c = true) : isNumChar c = true := by
  rcases hc with rfl | hdigit
  · decide
  · simp [isNumChar, hdigit]

/-- The token of a number in front of what follows it and what lies behind the slice. -/
theorem append_eq_token (hchar : isNumChar c = true) (cs b : Bytes) :
    c :: cs ++ b = c :: cs.takeWhile isNumChar ++ ((c :: cs).dropWhile isNumChar ++ b) := by
  simp only [List.dropWhile_cons_of_pos hchar, List.cons_append, ← List.append_assoc,
    List.takeWhile_append_dropWhile]

/-- A number that is read up to what lies behind it is a number of the grammar. -/
theorem number_of_parseNumberAt (hs : StartsNumber s) (h : parseNumberAt beyond s = .ok (d, p)) :
    Number (s.takeWhile isNumChar) d := by
  obtain ⟨hdigit, hhex, hrange, hread, -⟩ := parseNumberAt_eq_ok.mp h
  obtain ⟨c, cs, rfl, hc⟩ := hs
  have hspace := isSpace_of_startsNumber hc
  have hchar := isNumChar_of_startsNumber hc
  rw [append_eq_token hchar] at hread hrange
  rw [List.takeWhile_cons_of_pos hchar] at hdigit ⊢
  refine ⟨⟨c, _, rfl, hc⟩, ?_, hdigit, strtodDecimal_of_append hspace hread, ?_⟩
  · rw [← List.takeWhile_cons_of_pos hchar]
    exact fun x hx => List.mem_takeWhile_imp hx
  · rwa [decimalMag_of_append hspace hread]

/-- A number with something behind it that may follow a value is read. -/
theorem parseNumberAt_of_number (h : Number token d) (hr : GoesOn r) :
    parseNumberAt beyond (token ++ r) = .ok (d, .inside r) := by
  obtain ⟨c, cs, rfl, hc⟩ := h.start
  have hends : EndsToken (r ++ beyond) := hr.endsToken beyond
  have hends' : ∀ x ∈ r.head?, isNumChar x = false := by
    have hnil := hr.endsToken []
    rw [List.append_nil] at hnil
    exact fun x hx => (hnil x hx).1
  obtain ⟨htake, hdrop⟩ := span_append isNumChar hends' (c :: cs)
  rw [List.takeWhile_eq_self_iff.mpr h.chars] at htake
  rw [List.dropWhile_eq_nil_iff.mpr h.chars, List.nil_append] at hdrop
  obtain ⟨hstrtod, hmag, hhex⟩ := strtod_append (isSpace_of_startsNumber hc) hends cs
  rw [parseNumberAt_eq_ok, htake, hdrop, List.append_assoc, hstrtod, hmag, hhex, h.read]
  exact ⟨h.digit, hexForm_of_isNumChar h.chars, h.range, rfl, rfl⟩

/-! ### Reading scalars -/

theorem parseScalarAt_of_scalar (h : Scalar s v r) : parseScalarAt beyond s = .ok (v, .inside r) := by
  cases h with
  | @word _ w _ hw hs =>
    have hhead : s.head? = (ascii w).head? := by
      rw [hs, List.head?_append_of_ne_nil _ (heads_of_words _ hw).1]
    rw [parseScalarAt_word hw hhead, parseWordAt, hs, List.append_assoc]
    simp
  | str hs h =>
    rw [parseScalarAt_str hs, h]
    rfl
  | num hs h hr =>
    have hstart : StartsNumber s := by
      obtain ⟨c, cs, rfl, hc⟩ := h.start
      exact ⟨c, cs ++ r, hs, hc⟩
    obtain ⟨c, cs, hcons, hc⟩ := hstart
    rw [hcons, parseScalarAt_num hc, ← hcons, hs, parseNumberAt_of_number h hr]
    rfl

/-- What is read in front of something that may follow a value is a value of the grammar. -/
theorem scalar_of_parseScalarAt (h : parseScalarAt beyond s = .ok (v, .inside r)) (hr : GoesOn r) :
    Scalar s v r := by
  -- by the first byte: a string, a word, a number, or nothing of these
  rcases parseScalarAt_cases s with hs | ⟨w, v', hw, hs⟩ | hs | ⟨e, he⟩
  · rw [parseScalarAt_str hs] at h
    cases hstr : parseString s with
    | error e => rw [hstr] at h; cases h
    | ok q =>
      rw [hstr] at h
      obtain ⟨rfl, hrest⟩ := Prod.mk.injEq .. ▸ Except.ok.inj h
      obtain rfl := Cursor.inside.inj hrest
      exact .str hs hstr
  · rw [parseScalarAt_word hw hs, parseWordAt] at h
    split_ifs at h with hprefix hlen
    · obtain ⟨rfl, hrest⟩ := Prod.mk.injEq .. ▸ Except.ok.inj h
      have hword : ascii w <+: s := List.prefix_of_prefix_length_le
        (List.isPrefixOf_iff_prefix.mp hprefix) (List.prefix_append s beyond) hlen
      refine .word hw ?_
      rw [← Cursor.inside.inj hrest]
      exact (List.prefix_iff_eq_append.mp hword).symm
    · cases (Prod.mk.injEq .. ▸ Except.ok.inj h).2
  · obtain ⟨c, cs, hcons, hc⟩ := id hs
    rw [hcons, parseScalarAt_num hc, ← hcons] at h
    cases hnum : parseNumberAt beyond s with
    | error e => rw [hnum] at h; cases h
    | ok q =>
      obtain ⟨d, p⟩ := q
      rw [hnum] at h
      obtain ⟨rfl, rfl⟩ := Prod.mk.injEq .. ▸ Except.ok.inj h
      have hrest := Cursor.inside.inj (parseNumberAt_eq_ok.mp hnum).2.2.2.2
      refine .num ?_ (number_of_parseNumberAt hs hnum) hr
      rw [hrest, List.takeWhile_append_dropWhile]
  · rw [he beyond] at h
    cases h

/-! ## The values of the grammar -/

/-- `parse_value` on what it does not take for an array or an object. -/
theorem parseValueAt_scalar (hobj : (skipWs s).head? ≠ some 0x7B) (harr : (skipWs s).head? ≠ some 0x5B) :
    parseValueAt beyond n s = parseScalarAt beyond (skipWs s) := by
  unfold parseValueAt
  cases hskip : skipWs s with
  | nil => rfl
  | cons c cs =>
    rw [hskip] at hobj harr
    have hobj' : c ≠ 0x7B := fun h => hobj (congrArg some h)
    have harr' : c ≠ 0x5B := fun h => harr (congrArg some h)
    simp only [hobj', harr', if_false]

theorem parseValueAt_arr (hs : skipWs s = 0x5B :: t) :
    parseValueAt beyond (n + 1) s = parseArrayAt (parseValueAt beyond n) t := by
  rw [parseValueAt, hs]
  rfl

theorem parseValueAt_obj (hs : skipWs s = 0x7B :: t) :
    parseValueAt beyond (n + 1) s = parseObjectAt (parseValueAt beyond n) t := by
  rw [parseValueAt, hs]
  rfl

theorem head_of_scalar (h : Scalar s v r) : s.head? ≠ some 0x7B ∧ s.head? ≠ some 0x5B := by
  cases h with
  | word hw hs =>
    obtain ⟨hne, hheads⟩ := heads_of_words _ hw
    rwa [hs, List.head?_append_of_ne_nil _ hne]
  | str hs h =>
    rw [hs]
    decide
  | num hs h hr =>
    obtain ⟨c, cs, rfl, hc⟩ := h.start
    rw [hs, List.cons_append, List.head?_cons]
    refine ⟨?_, ?_⟩ <;> rintro ⟨⟩ <;> exact absurd hc (by decide)

theorem parseValueAt_of_scalar (h : Scalar (skipWs s) v r) :
    parseValueAt beyond n s = .ok (v, .inside r) := by
  rw [parseValueAt_scalar (head_of_scalar h).1 (head_of_scalar h).2, parseScalarAt_of_scalar h]

/-- The parser reads every value of the grammar, whatever lies behind the slice. -/
theorem valueText_complete (h : ValueText n s v r) : parseValueAt beyond n s = .ok (v, .inside r) := by
  induction n generalizing s v r with
  | zero => exact parseValueAt_of_scalar h
  | succ n ih =>
    rcases h with h | ⟨t, hs, h⟩ | ⟨t, hs, h⟩
    · exact parseValueAt_of_scalar h
    · rw [parseValueAt_arr hs, parseArrayAt]
      exact parseContainerAt_of_container (by decide) length_of_valueText (fun h => ih h) h
    · rw [parseValueAt_obj hs, parseObjectAt]
      exact parseContainerAt_of_container (by decide) (length_of_memberText length_of_valueText)
        (parseMemberAt_of_memberText fun h => ih h) h

/-! ### What is read is of the grammar -/

theorem inside_of_skipWs (h : p.skipWs = .inside r) : ∃ t, p = .inside t ∧ skipWs t = r := by
  cases p with
  | inside t => exact ⟨t, rfl, Cursor.inside.inj h⟩
  | past more => cases h

theorem listed_of_parseListAt (hclose : close = 0x5D ∨ close = 0x7D)
    (hitem : ∀ {s x r}, item s = .ok (x, .inside r) → GoesOn r → itemText s x r)
    (h : parseListAt close unterminated expected item n s = .ok (xs, .inside r)) :
    Listed close itemText s xs r := by
  induction n generalizing s xs with
  | zero => cases h
  | succ n ih =>
    cases hx : item s with
    | error e => rw [parseListAt_error hx] at h; cases h
    | ok q =>
      obtain ⟨x, p⟩ := q
      -- the item is followed by a comma or by the closing bracket, or the list stops
      by_cases hgo : ∃ c cs, p.skipWs = .inside (c :: cs) ∧ (c = 0x2C ∨ c = close)
      · obtain ⟨c, cs, hp, hc⟩ := hgo
        obtain ⟨t, rfl, ht⟩ := inside_of_skipWs hp
        have hgoes : GoesOn t := by
          refine goesOn_of_skipWs ht ?_
          rcases hc with rfl | rfl
          · exact .inl rfl
          · exact .inr hclose
        rcases hc with rfl | rfl
        · rw [parseListAt_next hx hp] at h
          cases hrest : parseListAt close unterminated expected item n (skipWs cs) with
          | error e => rw [hrest] at h; cases h
          | ok q =>
            rw [hrest] at h
            obtain ⟨rfl, hr⟩ := Prod.mk.injEq .. ▸ Except.ok.inj h
            exact .next (hitem hx hgoes) ht (ih (by rw [hrest, ← hr]))
        · have hcomma : c ≠ 0x2C := by rcases hclose with rfl | rfl <;> decide
          rw [parseListAt_last hcomma hx hp] at h
          obtain ⟨rfl, hr⟩ := Prod.mk.injEq .. ▸ Except.ok.inj h
          obtain rfl := Cursor.inside.inj hr
          exact .last (hitem hx hgoes) ht
      · rw [parseListAt_stop hx fun c cs hp => not_or.mp fun hc => hgo ⟨c, cs, hp, hc⟩] at h
        cases h

theorem container_of_parseContainerAt (hclose : close = 0x5D ∨ close = 0x7D)
    (hitem : ∀ {s x r}, item s = .ok (x, .inside r) → GoesOn r → itemText s x r)
    (h : parseContainerAt close unterminated expected ctor item s = .ok (v, .inside r)) :
    Container close ctor itemText s v r := by
  unfold parseContainerAt at h
  split_ifs at h with hs
  · obtain ⟨rfl, hr⟩ := Prod.mk.injEq .. ▸ Except.ok.inj h
    obtain rfl := Cursor.inside.inj hr
    refine .empty ?_
    cases hskip : skipWs s with
    | nil => rw [hskip] at hs; cases hs
    | cons c cs =>
      rw [hskip] at hs
      rw [Option.some.inj hs]
      rfl
  · cases hlist : parseListAt close unterminated expected item (s.length + 1) (skipWs s) with
    | error e => rw [hlist] at h; cases h
    | ok q =>
      rw [hlist] at h
      obtain ⟨rfl, hr⟩ := Prod.mk.injEq .. ▸ Except.ok.inj h
      exact .list hs (listed_of_parseListAt hclose hitem (by rw [hlist, ← hr]))

theorem memberText_of_parseMemberAt {value : Bytes → JsonValue → Bytes → Prop}
    {valueAt : Bytes → ReadAt JsonValue} {m : CStr × JsonValue}
    (hvalue : ∀ {s v r}, valueAt s = .ok (v, .inside r) → GoesOn r → value s v r)
    (h : parseMemberAt valueAt s = .ok (m, .inside r)) (hr : GoesOn r) : MemberText value s m r := by
  unfold parseMemberAt at h
  cases hkey : parseKey s with
  | error e => rw [hkey] at h; cases h
  | ok q =>
    obtain ⟨k, t⟩ := q
    simp only [hkey] at h
    cases hv : valueAt t with
    | error e => rw [hv] at h; cases h
    | ok q =>
      rw [hv] at h
      obtain ⟨rfl, hp⟩ := Prod.mk.injEq .. ▸ Except.ok.inj h
      exact ⟨t, hkey, hvalue (by rw [hv, ← hp]) hr⟩

/-- The cases of `parse_value`. -/
theorem parseValueAt_cases (n : ℕ) (s : Bytes) :
    (∀ beyond, parseValueAt beyond n s = parseScalarAt beyond (skipWs s)) ∨
      (∃ e : FailAt, ∀ beyond, parseValueAt beyond n s = .error e) ∨
        ∃ m t, n = m + 1 ∧ (skipWs s = 0x5B :: t ∨ skipWs s = 0x7B :: t) := by
  by_cases hobj : (skipWs s).head? = some 0x7B
  · obtain ⟨t, hs⟩ := List.head?_eq_some_iff.mp hobj
    cases n with
    | zero => exact .inr (.inl ⟨⟨"nesting too deep", .inside t⟩, fun beyond => by
        rw [parseValueAt, hs]
        rfl⟩)
    | succ m => exact .inr (.inr ⟨m, t, rfl, .inr hs⟩)
  by_cases harr : (skipWs s).head? = some 0x5B
  · obtain ⟨t, hs⟩ := List.head?_eq_some_iff.mp harr
    cases n with
    | zero => exact .inr (.inl ⟨⟨"nesting too deep", .inside t⟩, fun beyond => by
        rw [parseValueAt, hs]
        rfl⟩)
    | succ m => exact .inr (.inr ⟨m, t, rfl, .inl hs⟩)
  · exact .inl fun beyond => parseValueAt_scalar hobj harr

theorem valueText_of_scalar (h : Scalar (skipWs s) v r) : ValueText n s v r := by
  cases n with
  | zero => exact h
  | succ n => exact .inl h

/-- What the parser reads in front of something that may follow a value is a value of the grammar. -/
theorem valueText_sound (h : parseValueAt beyond n s = .ok (v, .inside r)) (hr : GoesOn r) :
    ValueText n s v r := by
  induction n using Nat.strong_induction_on generalizing s v r with
  | _ n ih =>
    rcases parseValueAt_cases n s with hscalar | ⟨e, he⟩ | ⟨m, t, rfl, hs | hs⟩
    · exact valueText_of_scalar (scalar_of_parseScalarAt (hscalar beyond ▸ h) hr)
    · rw [he beyond] at h
      cases h
    · rw [parseValueAt_arr hs] at h
      exact .inr (.inl ⟨t, hs, container_of_parseContainerAt (.inl rfl) (ih m m.lt_succ_self) h⟩)
    · rw [parseValueAt_obj hs] at h
      exact .inr (.inr ⟨t, hs, container_of_parseContainerAt (.inr rfl)
        (memberText_of_parseMemberAt (ih m m.lt_succ_self)) h⟩)

/-! ## What the bytes behind the slice can change -/

/-- A result without the text of its error. -/
def strip {α : Type} (r : ReadAt α) : Except Cursor (α × Cursor) := r.mapError (·.cursor)

/-- Where no list goes on and none ends. -/
def Cursor.Dead : Cursor → Prop
  | .inside r => ¬ GoesOn r
  | .past _ => True

/-- The parser comes to a position where it can only stop. -/
def Stuck {α : Type} (p : Cursor) (r : ReadAt α) : Prop :=
  (∃ e, r = .error e ∧ e.cursor = p) ∨ ∃ a, r = .ok (a, p) ∧ p.Dead

/-- The bytes behind the slice do not change the result but for the text of an error, or they do not
change where the parser stops. -/
def Settled {α : Type} (read : Bytes → ReadAt α) : Prop :=
  (∀ b b', strip (read b) = strip (read b')) ∨ ∃ p, ∀ b, Stuck p (read b)

theorem strip_eq_error {r : ReadAt α} : strip r = .error p ↔ ∃ e, r = .error e ∧ e.cursor = p := by
  cases r <;> simp [strip, Except.mapError]

theorem strip_eq_ok {r : ReadAt α} {y : α × Cursor} : strip r = .ok y ↔ r = .ok y := by
  cases r <;> simp [strip, Except.mapError]

theorem skipWs_of_dead (h : p.Dead) : p.skipWs = p := by
  cases p with
  | inside r => exact congrArg Cursor.inside (skipWs_of_not_goesOn h)
  | past more => rfl

/-- A list stops where an item of it does. -/
theorem strip_parseListAt_of_stuck (hclose : close = 0x5D ∨ close = 0x7D) (h : Stuck p (item s)) :
    strip (parseListAt close unterminated expected item (n + 1) s) = .error p := by
  rcases h with ⟨e, he, rfl⟩ | ⟨x, hx, hdead⟩
  · rw [parseListAt_error he]
    rfl
  · have hp := skipWs_of_dead hdead
    rw [parseListAt_stop hx, hp]
    · exact congrArg Except.error (stopAt_cursor p)
    · rintro c cs hc
      rw [hp] at hc
      subst hc
      have hno := fun hcases => hdead ⟨c, rfl, .inr hcases⟩
      rcases hclose with rfl | rfl <;> exact ⟨fun h => hno (by simp [h]), fun h => hno (by simp [h])⟩

theorem strip_map {β : Type} (f : α × Cursor → β × Cursor) (r : ReadAt α) :
    strip (r.map f) = (strip r).map f := by
  cases r <;> rfl

theorem stuck_map {β : Type} {f : α → β} {r : ReadAt α} (h : Stuck p r) :
    Stuck p (r.map fun (a, p) => (f a, p)) := by
  rcases h with ⟨e, rfl, he⟩ | ⟨a, rfl, hdead⟩
  · exact .inl ⟨e, rfl, he⟩
  · exact .inr ⟨f a, rfl, hdead⟩

variable (unterminated expected itemText) in
/-- One item settles the loop, or the rest of the list does. -/
theorem settled_parseListAt (itemAt : Bytes → Bytes → ReadAt α) {cut : Bytes → Prop}
    (hclose : close = 0x5D ∨ close = 0x7D)
    (hsound : ∀ b s x r, itemAt b s = .ok (x, .inside r) → GoesOn r → itemText s x r)
    (hitem : ∀ s, cut s ∨ Settled fun b => itemAt b s) (n : ℕ) (s : Bytes) :
    CutList itemText cut s ∨ ∀ b b',
      strip (parseListAt close unterminated expected (itemAt b) n s) =
        strip (parseListAt close unterminated expected (itemAt b') n s) := by
  induction n generalizing s with
  | zero => exact .inr fun _ _ => rfl
  | succ n ih =>
    rcases hitem s with hcut | hsame | ⟨p, hstuck⟩
    · exact .inl (.here hcut)
    · -- the item is read alike, so what lies behind the slice counts after it only
      cases hx : itemAt [] s with
      | error e =>
        -- the item fails, and it does so at one place
        have herror : ∀ b, strip (parseListAt close unterminated expected (itemAt b) (n + 1) s) =
            .error e.cursor := by
          intro b
          obtain ⟨e', he', hcursor⟩ := strip_eq_error.mp ((hsame b []).trans (congrArg strip hx))
          rw [parseListAt_error he']
          exact congrArg Except.error hcursor
        exact .inr fun b b' => (herror b).trans (herror b').symm
      | ok q =>
        obtain ⟨x, p⟩ := q
        have hread : ∀ b, itemAt b s = .ok (x, p) := fun b =>
          strip_eq_ok.mp ((hsame b []).trans (congrArg strip hx))
        by_cases hgo : ∃ c cs, p.skipWs = .inside (c :: cs) ∧ (c = 0x2C ∨ c = close)
        · obtain ⟨c, cs, hp, rfl | rfl⟩ := hgo
          · rcases ih (skipWs cs) with hcut | hrest
            · obtain ⟨t, rfl, ht⟩ := inside_of_skipWs hp
              exact .inl (.next (hsound _ _ _ _ hx (goesOn_of_skipWs ht (.inl rfl))) ht hcut)
            · refine .inr fun b b' => ?_
              rw [parseListAt_next (hread b) hp, parseListAt_next (hread b') hp, strip_map, strip_map,
                hrest b b']
          · have hcomma : c ≠ 0x2C := by rcases hclose with rfl | rfl <;> decide
            refine .inr fun b b' => ?_
            rw [parseListAt_last hcomma (hread b) hp, parseListAt_last hcomma (hread b') hp]
        · have hp : ∀ c cs, p.skipWs = .inside (c :: cs) → c ≠ 0x2C ∧ c ≠ close :=
            fun c cs hp => not_or.mp fun hc => hgo ⟨c, cs, hp, hc⟩
          refine .inr fun b b' => ?_
          rw [parseListAt_stop (hread b) hp, parseListAt_stop (hread b') hp]
    · refine .inr fun b b' => ?_
      rw [strip_parseListAt_of_stuck hclose (hstuck b), strip_parseListAt_of_stuck hclose (hstuck b')]

variable (itemText) in
theorem settled_parseContainerAt (itemAt : Bytes → Bytes → ReadAt α) {cut : Bytes → Prop}
    (hclose : close = 0x5D ∨ close = 0x7D)
    (hsound : ∀ b s x r, itemAt b s = .ok (x, .inside r) → GoesOn r → itemText s x r)
    (hitem : ∀ s, cut s ∨ Settled fun b => itemAt b s) (s : Bytes) :
    ((skipWs s).head? ≠ some close ∧ CutList itemText cut (skipWs s)) ∨ ∀ b b',
      strip (parseContainerAt close unterminated expected ctor (itemAt b) s) =
        strip (parseContainerAt close unterminated expected ctor (itemAt b') s) := by
  unfold parseContainerAt
  by_cases hs : (skipWs s).head? = some close
  · exact .inr fun b b' => by rw [if_pos hs, if_pos hs]
  · rcases settled_parseListAt unterminated expected itemText itemAt hclose hsound hitem (s.length + 1)
      (skipWs s) with hcut | hlist
    · exact .inl ⟨hs, hcut⟩
    · refine .inr fun b b' => ?_
      rw [if_neg hs, if_neg hs, strip_map, strip_map, hlist b b']

theorem settled_parseMemberAt {valueAt : Bytes → Bytes → ReadAt JsonValue} {cut : Bytes → Prop}
    (hvalue : ∀ s, cut s ∨ Settled fun b => valueAt b s) (s : Bytes) :
    (∃ k t, parseKey s = .ok (k, t) ∧ cut t) ∨ Settled fun b => parseMemberAt (valueAt b) s := by
  cases hkey : parseKey s with
  | error e => exact .inr (.inl fun b b' => by simp only [parseMemberAt, hkey])
  | ok q =>
    obtain ⟨k, t⟩ := q
    rcases hvalue t with hcut | hsame | ⟨p, hstuck⟩
    · exact .inl ⟨k, t, rfl, hcut⟩
    · refine .inr (.inl fun b b' => ?_)
      simp only [parseMemberAt, hkey, strip_map, hsame b b']
    · refine .inr (.inr ⟨p, fun b => ?_⟩)
      simp only [parseMemberAt, hkey]
      exact stuck_map (hstuck b)

/-! ### Scalars -/

/-- A number that is followed by nothing, or by something that may follow no value. -/
def OpenNumber (s : Bytes) : Prop := StartsNumber s ∧ ¬ GoesOn (s.dropWhile isNumChar)

theorem stuck_of_openNumber (h : OpenNumber s) (beyond : Bytes) :
    Stuck (.inside (s.dropWhile isNumChar)) (parseScalarAt beyond s) := by
  obtain ⟨⟨c, cs, rfl, hc⟩, hdead⟩ := h
  rw [parseScalarAt_num hc]
  refine stuck_map ?_
  cases hnum : parseNumberAt beyond (c :: cs) with
  | error e => exact .inl ⟨e, rfl, parseNumberAt_error hnum⟩
  | ok q =>
    obtain ⟨d, p⟩ := q
    obtain ⟨-, -, -, -, rfl⟩ := parseNumberAt_eq_ok.mp hnum
    exact .inr ⟨d, rfl, hdead⟩

/-- A number in front of something that may follow a value is not read any further. -/
theorem parseNumberAt_congr (hs : StartsNumber s) (hr : GoesOn (s.dropWhile isNumChar)) (b b' : Bytes) :
    parseNumberAt b s = parseNumberAt b' s := by
  obtain ⟨c, cs, rfl, hc⟩ := hs
  have hread := fun b => strtod_append (isSpace_of_startsNumber hc) (hr.endsToken b)
    (cs.takeWhile isNumChar)
  have hchar := isNumChar_of_startsNumber hc
  unfold parseNumberAt
  rw [append_eq_token hchar cs b, append_eq_token hchar cs b', (hread b).1, (hread b).2.1, (hread b).2.2,
    (hread b').1, (hread b').2.1, (hread b').2.2]
  simp only [ne_eq, List.append_left_eq_self]

theorem settled_parseWordAt {w : String} (hw : (w, v) ∈ words) (hs : s.head? = (ascii w).head?) :
    CutWord s ∨ ∀ b b', parseWordAt b w v s = parseWordAt b' w v s := by
  by_cases hlen : (ascii w).length ≤ s.length
  · -- the test does not come to the end of the slice
    have hprefix : ∀ b, ascii w <+: s ++ b ↔ ascii w <+: s := fun b =>
      ⟨fun h => List.prefix_of_prefix_length_le h (List.prefix_append s b) hlen,
        fun h => h.trans (List.prefix_append s b)⟩
    refine .inr fun b b' => ?_
    simp only [parseWordAt, List.isPrefixOf_iff_prefix, hprefix]
  · by_cases hprefix : s <+: ascii w
    · obtain ⟨rest, hrest⟩ := hprefix
      refine .inl ⟨w, v, rest, hw, hrest.symm, ?_, ?_⟩
      · rintro rfl
        have hne := (heads_of_words _ hw).1
        exact hne (List.head?_eq_none_iff.mp hs.symm)
      · rintro rfl
        rw [← hrest] at hlen
        simp at hlen
    · have hno : ∀ b, ¬ ascii w <+: s ++ b := fun b h =>
        hprefix (List.prefix_of_prefix_length_le (List.prefix_append s b) h (not_le.mp hlen).le)
      refine .inr fun b b' => ?_
      simp only [parseWordAt, List.isPrefixOf_iff_prefix, hno, if_false]

/-- All that the bytes behind the slice can change in a scalar. -/
theorem settled_parseScalarAt (s : Bytes) :
    CutWord s ∨ (∀ b b', strip (parseScalarAt b s) = strip (parseScalarAt b' s)) ∨ OpenNumber s := by
  rcases parseScalarAt_cases s with hs | ⟨w, v, hw, hs⟩ | hs | ⟨e, he⟩
  · exact .inr (.inl fun b b' => by rw [parseScalarAt_str hs, parseScalarAt_str hs])
  · rcases settled_parseWordAt hw hs with hcut | hsame
    · exact .inl hcut
    · exact .inr (.inl fun b b' => by rw [parseScalarAt_word hw hs, parseScalarAt_word hw hs, hsame b b'])
  · by_cases hr : GoesOn (s.dropWhile isNumChar)
    · refine .inr (.inl fun b b' => ?_)
      have hcongr := parseNumberAt_congr hs hr b b'
      obtain ⟨c, cs, rfl, hc⟩ := hs
      rw [parseScalarAt_num hc, parseScalarAt_num hc, hcongr]
    · exact .inr (.inr ⟨hs, hr⟩)
  · exact .inr (.inl fun b b' => by rw [he b, he b'])

/-! ### Values -/

theorem head_of_startsNumber (h : StartsNumber s) : s.head? ≠ some 0x7B ∧ s.head? ≠ some 0x5B := by
  obtain ⟨c, cs, rfl, hc⟩ := h
  rw [List.head?_cons]
  refine ⟨?_, ?_⟩ <;> rintro ⟨⟩ <;> exact absurd hc (by decide)

theorem cut_of_cutWord (h : CutWord (skipWs s)) : Cut n s := by
  cases n with
  | zero => exact h
  | succ n => exact .inl h

/-- All that the bytes behind the slice can change in a value. -/
theorem settled_parseValueAt (n : ℕ) (s : Bytes) :
    Cut n s ∨ (∀ b b', strip (parseValueAt b n s) = strip (parseValueAt b' n s)) ∨
      OpenNumber (skipWs s) := by
  induction n using Nat.strong_induction_on generalizing s with
  | _ n ih =>
    -- a number that is open stops the list around it
    have hsettled : ∀ m < n, ∀ s, Cut m s ∨ Settled fun b => parseValueAt b m s := by
      intro m hm s
      rcases ih m hm s with hcut | hsame | hopen
      · exact .inl hcut
      · exact .inr (.inl hsame)
      · refine .inr (.inr ⟨.inside ((skipWs s).dropWhile isNumChar), fun b => ?_⟩)
        obtain ⟨hobj, harr⟩ := head_of_startsNumber hopen.1
        dsimp only
        rw [parseValueAt_scalar hobj harr]
        exact stuck_of_openNumber hopen b
    rcases parseValueAt_cases n s with hscalar | ⟨e, he⟩ | ⟨m, t, rfl, hs | hs⟩
    · simp only [hscalar]
      rcases settled_parseScalarAt (skipWs s) with hcut | hrest
      · exact .inl (cut_of_cutWord hcut)
      · exact .inr hrest
    · exact .inr (.inl fun b b' => by rw [he b, he b'])
    · have hlist : ((skipWs t).head? ≠ some 0x5D ∧ CutList (ValueText m) (Cut m) (skipWs t)) ∨ ∀ b b',
          strip (parseArrayAt (parseValueAt b m) t) = strip (parseArrayAt (parseValueAt b' m) t) :=
        settled_parseContainerAt (ValueText m) (fun b => parseValueAt b m) (.inl rfl) (fun _ _ _ _ => valueText_sound)
          (hsettled m m.lt_succ_self) t
      rcases hlist with ⟨hne, hcut⟩ | hsame
      · exact .inl (.inr (.inl ⟨t, hs, hne, hcut⟩))
      · refine .inr (.inl fun b b' => ?_)
        rw [parseValueAt_arr hs, parseValueAt_arr hs]
        exact hsame b b'
    · have hlist : ((skipWs t).head? ≠ some 0x7D ∧ CutList (MemberText (ValueText m))
            (fun s => ∃ k t, parseKey s = .ok (k, t) ∧ Cut m t) (skipWs t)) ∨ ∀ b b',
          strip (parseObjectAt (parseValueAt b m) t) = strip (parseObjectAt (parseValueAt b' m) t) :=
        settled_parseContainerAt (MemberText (ValueText m)) (fun b => parseMemberAt (parseValueAt b m))
          (.inr rfl)
          (fun _ _ _ _ => memberText_of_parseMemberAt valueText_sound)
          (settled_parseMemberAt (hsettled m m.lt_succ_self)) t
      rcases hlist with ⟨hne, hcut⟩ | hsame
      · exact .inl (.inr (.inr ⟨t, hs, hne, hcut⟩))
      · refine .inr (.inl fun b b' => ?_)
        rw [parseValueAt_obj hs, parseValueAt_obj hs]
        exact hsame b b'

/-! ## A word that is cut -/

theorem stuck_parseListAt (hclose : close = 0x5D ∨ close = 0x7D) (h : Stuck p (item s)) :
    Stuck p (parseListAt close unterminated expected item (n + 1) s) :=
  .inl (strip_eq_error.mp (strip_parseListAt_of_stuck hclose h))

variable (unterminated expected) in
/-- The loop stops where the item that is cut does. -/
theorem cut_of_cutList {itemAt : Bytes → Bytes → ReadAt α} {cut : Bytes → Prop}
    (hclose : close = 0x5D ∨ close = 0x7D)
    (hlen : ∀ s x r, itemText s x r → r.length < s.length)
    (hitem : ∀ b s x r, itemText s x r → itemAt b s = .ok (x, .inside r))
    (h : CutList itemText cut s) (hn : s.length < n) :
    ∃ t, cut t ∧ ∀ b p, Stuck p (itemAt b t) →
      Stuck p (parseListAt close unterminated expected (itemAt b) n s) := by
  induction h generalizing n with
  | @here s h =>
    cases n with
    | zero => cases hn
    | succ n => exact ⟨s, h, fun b p hstuck => stuck_parseListAt hclose hstuck⟩
  | @next s x t t' h ht hrest ih =>
    cases n with
    | zero => cases hn
    | succ n =>
      have hshort := (length_skipWs_le t').trans_lt ((length_of_skipWs ht).trans (hlen _ _ _ h))
      obtain ⟨u, hu, hstuck⟩ := ih (n := n) (by omega)
      refine ⟨u, hu, fun b p hp => ?_⟩
      rw [parseListAt_next (hitem b _ _ _ h) (congrArg Cursor.inside ht)]
      exact stuck_map (hstuck b p hp)

theorem cut_of_cutContainer {itemAt : Bytes → Bytes → ReadAt α} {cut : Bytes → Prop}
    (hclose : close = 0x5D ∨ close = 0x7D)
    (hlen : ∀ s x r, itemText s x r → r.length < s.length)
    (hitem : ∀ b s x r, itemText s x r → itemAt b s = .ok (x, .inside r))
    (hs : (skipWs s).head? ≠ some close) (h : CutList itemText cut (skipWs s)) :
    ∃ t, cut t ∧ ∀ b p, Stuck p (itemAt b t) →
      Stuck p (parseContainerAt close unterminated expected ctor (itemAt b) s) := by
  obtain ⟨t, ht, hstuck⟩ := cut_of_cutList unterminated expected hclose hlen hitem h
    (Nat.lt_succ_of_le (length_skipWs_le s))
  refine ⟨t, ht, fun b p hp => ?_⟩
  rw [parseContainerAt, if_neg hs]
  exact stuck_map (hstuck b p hp)

theorem stuck_parseMemberAt {valueAt : Bytes → ReadAt JsonValue} {k : CStr}
    (hkey : parseKey s = .ok (k, t)) (h : Stuck p (valueAt t)) : Stuck p (parseMemberAt valueAt s) := by
  simp only [parseMemberAt, hkey]
  exact stuck_map h

theorem head_of_cutWord (h : CutWord s) : s.head? ≠ some 0x7B ∧ s.head? ≠ some 0x5B := by
  obtain ⟨w, v, rest, hw, hsplit, hs, -⟩ := h
  have hheads := (heads_of_words _ hw).2
  rwa [hsplit, List.head?_append_of_ne_nil _ hs] at hheads

/-- A value stops where a part of it does. -/
def StopsAt (n : ℕ) (s w : Bytes) : Prop :=
  ∀ b p, Stuck p (parseScalarAt b w) → Stuck p (parseValueAt b n s)

theorem stopsAt_of_cutWord (h : CutWord (skipWs s)) : StopsAt n s (skipWs s) := fun b p hp => by
  rwa [parseValueAt_scalar (head_of_cutWord h).1 (head_of_cutWord h).2]

/-- A text that is cut leads to the beginning of a word, and stops where that does. -/
theorem cutWord_of_cut (h : Cut n s) : ∃ w, CutWord w ∧ StopsAt n s w := by
  induction n generalizing s with
  | zero => exact ⟨_, h, stopsAt_of_cutWord h⟩
  | succ n ih =>
    rcases h with h | ⟨t, hs, hne, h⟩ | ⟨t, hs, hne, h⟩
    · exact ⟨_, h, stopsAt_of_cutWord h⟩
    · obtain ⟨u, hu, hlist⟩ := cut_of_cutContainer (.inl rfl) (fun _ _ _ => length_of_valueText)
        (fun _ _ _ _ => valueText_complete) hne h
      obtain ⟨w, hw, hvalue⟩ := ih hu
      refine ⟨w, hw, fun b p hp => ?_⟩
      rw [parseValueAt_arr hs]
      exact hlist b p (hvalue b p hp)
    · obtain ⟨u, ⟨k, t', hkey, hu⟩, hlist⟩ := cut_of_cutContainer (.inr rfl)
        (fun _ _ _ => length_of_memberText length_of_valueText)
        (fun _ _ _ _ => parseMemberAt_of_memberText valueText_complete) hne h
      obtain ⟨w, hw, hvalue⟩ := ih hu
      refine ⟨w, hw, fun b p hp => ?_⟩
      rw [parseValueAt_obj hs]
      exact hlist b p (stuck_parseMemberAt hkey (hvalue b p hp))

/-- Between the two ways to go on, the word is read or it is not. -/
theorem stuck_of_cutWord (h : CutWord s) :
    Stuck (.inside s) (parseScalarAt [] s) ∧ ∃ b more, Stuck (.past more) (parseScalarAt b s) := by
  obtain ⟨w, v, rest, hw, hsplit, hs, hrest⟩ := h
  have hhead : s.head? = (ascii w).head? := by rw [hsplit, List.head?_append_of_ne_nil _ hs]
  have hlen : ¬ (ascii w).length ≤ s.length := by
    have hpos := List.length_pos_iff.mpr hrest
    rw [hsplit, List.length_append]
    omega
  constructor
  · have hno : ¬ ascii w <+: s ++ [] := by
      rw [List.append_nil]
      exact fun h => hlen h.length_le
    rw [parseScalarAt_word hw hhead, parseWordAt, if_neg (by rwa [List.isPrefixOf_iff_prefix])]
    exact .inl ⟨_, rfl, rfl⟩
  · refine ⟨rest, (ascii w).length - s.length - 1, ?_⟩
    rw [parseScalarAt_word hw hhead, parseWordAt, if_neg hlen,
      if_pos (List.isPrefixOf_iff_prefix.mpr (hsplit ▸ List.prefix_rfl))]
    exact .inr ⟨v, rfl, trivial⟩

end

/-! ## The result -/

/-- Success with a tree, or failure with an offset. -/
def outcome (beyond text : Bytes) : Except ℕ JsonValue := (jsonParseAt beyond text).mapError (·.offset)

/-- The result is the same for any two buffers that start with the slice. -/
def IgnoresBeyond (text : Bytes) : Prop := ∀ b b', outcome b text = outcome b' text

section

variable {b b' text : Bytes} {p : Cursor} {d : Double}

theorem outcome_congr (h : strip (parseValueAt b jsonMaxDepth text) = strip (parseValueAt b' jsonMaxDepth text)) :
    outcome b text = outcome b' text := by
  unfold outcome jsonParseAt
  cases hv : parseValueAt b jsonMaxDepth text with
  | ok q =>
    rw [strip_eq_ok.mp (h.symm.trans (congrArg strip hv))]
  | error e =>
    obtain ⟨e', he', hcursor⟩ := strip_eq_error.mp (h.symm.trans (congrArg strip hv))
    rw [he']
    simp only [Except.mapError, Except.error.injEq]
    rw [hcursor]

/-- Where the parser can only stop and is not at the end, there is an error. -/
theorem outcome_of_stuck (h : Stuck p (parseValueAt b jsonMaxDepth text)) (hp : p ≠ .inside []) :
    outcome b text = .error (p.offset text.length) := by
  unfold outcome jsonParseAt
  rcases h with ⟨e, he, rfl⟩ | ⟨v, hv, hdead⟩
  · rw [he]
    rfl
  · rw [hv]
    simp only [skipWs_of_dead hdead, hp, if_false]
    rfl

theorem outcome_number (hs : StartsNumber (skipWs text)) :
    outcome b text =
      match parseNumberAt b (skipWs text) with
      | .ok (d, p) => if p.skipWs = .inside [] then .ok (.num d) else .error (p.skipWs.offset text.length)
      | .error e => .error (e.cursor.offset text.length) := by
  obtain ⟨hobj, harr⟩ := head_of_startsNumber hs
  unfold outcome jsonParseAt
  rw [parseValueAt_scalar hobj harr]
  obtain ⟨c, cs, hcons, hc⟩ := hs
  rw [hcons, parseScalarAt_num hc]
  cases parseNumberAt b (c :: cs) with
  | error e => rfl
  | ok q =>
    simp only [Except.map]
    split_ifs <;> rfl

theorem differ_of_cut (h : Cut jsonMaxDepth text) : ¬ IgnoresBeyond text := by
  intro hsame
  obtain ⟨w, hw, hstuck⟩ := cutWord_of_cut h
  obtain ⟨hinside, b, more, hpast⟩ := stuck_of_cutWord hw
  have hne : w ≠ [] := by
    obtain ⟨_, _, _, _, _, hne, _⟩ := hw
    exact hne
  have hshort := outcome_of_stuck (hstuck _ _ hinside) (by simpa using hne)
  have hlong := outcome_of_stuck (hstuck _ _ hpast) (by simp)
  have heq := Except.error.inj ((hshort.symm.trans (hsame _ _)).trans hlong)
  simp only [Cursor.offset] at heq
  omega

/-- A single number ends with the slice, or a digit follows it. -/
theorem differ_of_loneNumber (h : LoneNumber text) : ¬ IgnoresBeyond text := by
  intro hsame
  obtain ⟨d, hd⟩ := h
  have htake := List.takeWhile_eq_self_iff.mpr hd.chars
  have hdrop := List.dropWhile_eq_nil_iff.mpr hd.chars
  have hshort : parseNumberAt [] (skipWs text) = .ok (d, .inside []) := by
    rw [parseNumberAt_eq_ok, htake, hdrop, List.append_nil]
    exact ⟨hd.digit, hexForm_of_isNumChar hd.chars, hd.range, hd.read, rfl⟩
  have hlong : ∀ q, parseNumberAt [0x30] (skipWs text) ≠ .ok q := by
    rintro ⟨d', p⟩ hq
    obtain ⟨-, -, -, hread, -⟩ := parseNumberAt_eq_ok.mp hq
    obtain ⟨c, cs, hcons, hc⟩ := hd.start
    rw [hdrop, List.nil_append, hcons] at hread
    refine strtodDecimal_append_digit (isSpace_of_startsNumber hc) (hcons ▸ hd.read) ?_
    rw [hread]
  have heq := hsame [] [0x30]
  rw [outcome_number hd.start, outcome_number hd.start, hshort] at heq
  cases hq : parseNumberAt [0x30] (skipWs text) with
  | ok q => exact hlong q hq
  | error e =>
    rw [hq] at heq
    cases heq

theorem outcome_of_openNumber (h : OpenNumber (skipWs text)) (hlone : ¬ LoneNumber text) (b : Bytes) :
    outcome b text = .error (text.length - ((skipWs text).dropWhile isNumChar).length) := by
  rw [outcome_number h.1]
  cases hnum : parseNumberAt b (skipWs text) with
  | error e =>
    dsimp only
    rw [parseNumberAt_error hnum]
    rfl
  | ok q =>
    obtain ⟨d, p⟩ := q
    obtain ⟨-, -, -, -, rfl⟩ := parseNumberAt_eq_ok.mp hnum
    have hskip := skipWs_of_not_goesOn h.2
    have hrest : (skipWs text).dropWhile isNumChar ≠ [] := by
      intro hnil
      refine hlone ⟨d, ?_⟩
      have hnumber := number_of_parseNumberAt h.1 hnum
      have hall := List.dropWhile_eq_nil_iff.mp hnil
      rwa [List.takeWhile_eq_self_iff.mpr hall] at hnumber
    simp only [Cursor.skipWs, hskip, Cursor.inside.injEq, hrest, if_false]
    rfl

end

end Json
