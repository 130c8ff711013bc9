import LgMagic.Json.RoundTrip

/-!
# The JSON parser on a slice of a buffer

`json_parse` is given a text and its length, and hands pointers into the text to `strncmp` and to
`strtod`, which know nothing of the length. Here the parser has the bytes behind the slice as a
parameter, as far as there is memory to read: a word or a number may be read across the end, and a
word that is leaves the position behind it.

* `Cursor`: a position, in the slice or behind it;
* `parseWordAt`, `parseNumberAt`: the pieces that may look behind the slice;
* `parseArrayAt`, `parseObjectAt`, `parseValueAt`, `jsonParseAt`: the parser;
* `jsonParseAt_of_terminated`: with a terminator behind the slice it is `jsonParse`.
-/

namespace Json

open Binary64 CString Printf

/-- `p->pos`: what is left of the slice, or by how much more than a byte the position is behind it. -/
inductive Cursor
  | inside (left : Bytes)
  | past (more : ℕ)
  deriving DecidableEq

/-- The position as an offset. -/
def Cursor.offset (len : ℕ) : Cursor → ℕ
  | .inside left => len - left.length
  | .past more => len + more + 1

/-- `skip_ws` -/
def Cursor.skipWs : Cursor → Cursor
  | .inside left => .inside (Json.skipWs left)
  | .past more => .past more

/-- Where an error is. -/
structure FailAt where
  msg : String
  cursor : Cursor
  deriving DecidableEq

/-- What a parsing function reads, with the position after it. -/
abbrev ReadAt (α : Type) := Except FailAt (α × Cursor)

/-- What is read without a look behind the slice. -/
def within {α : Type} (r : Parsed α) : ReadAt α :=
  match r with
  | .ok (a, left) => .ok (a, .inside left)
  | .error e => .error ⟨e.msg, .inside e.left⟩

section

variable (beyond : Bytes)

/-- The test for a word with `strncmp`, which stops at the first byte that differs. -/
def parseWordAt (word : String) (v : JsonValue) (s : Bytes) : ReadAt JsonValue :=
  if (ascii word).isPrefixOf (s ++ beyond) then
    .ok (v,
      if (ascii word).length ≤ s.length then .inside (s.drop (ascii word).length)
      else .past ((ascii word).length - s.length - 1))
  else .error ⟨"expected value", .inside s⟩

/-- `parse_number`: the token ends with the slice, and `strtod` has to end where the token does. -/
def parseNumberAt (s : Bytes) : ReadAt Double :=
  let token := s.takeWhile isNumChar
  let rest := s.dropWhile isNumChar
  if token.any isDigit = false then .error ⟨"invalid number", .inside rest⟩
  else
    let (d, last) := strtodDecimal (s ++ beyond)
    if hexForm (s ++ beyond) || strtodErange d (decimalMag (s ++ beyond)) || last ≠ rest ++ beyond then
      .error ⟨"invalid number", .inside rest⟩
    else .ok (d, .inside rest)

/-- The cases of `parse_value` that are no arrays and no objects. -/
def parseScalarAt (s : Bytes) : ReadAt JsonValue :=
  match s with
  | [] => .error ⟨"unexpected end of input", .inside []⟩
  | c :: cs =>
    if c = 0x22 then (within (parseString (c :: cs))).map fun (str, p) => (.str str, p)
    else if c = 0x74 then parseWordAt beyond "true" (.bool true) (c :: cs)
    else if c = 0x66 then parseWordAt beyond "false" (.bool false) (c :: cs)
    else if c = 0x6E then parseWordAt beyond "null" .null (c :: cs)
    else if c = 0x2D || isDigit c then
      (parseNumberAt beyond (c :: cs)).map fun (d, p) => (.num d, p)
    else .error ⟨"expected value", .inside (c :: cs)⟩

end

section

variable {α : Type} (close : UInt8) (unterminated expected : String)

/-- Why a list ends at a position where it can neither go on nor be closed. -/
def stopAt (p : Cursor) : FailAt :=
  match p with
  | .inside (_ :: _) => ⟨expected, p⟩
  | _ => ⟨unterminated, p⟩

/-- The loop of `parse_array` and of `parse_object`; every item takes a byte. -/
def parseListAt (item : Bytes → ReadAt α) : ℕ → Bytes → Except FailAt (List α × Cursor)
  | 0, s => .error ⟨unterminated, .inside s⟩
  | n + 1, s => do
    let (x, p) ← item s
    match p.skipWs with
    | .inside (c :: cs) =>
      if c = 0x2C then
        let (xs, p) ← parseListAt item n (skipWs cs)
        return (x :: xs, p)
      else if c = close then return ([x], .inside cs)
      else .error (stopAt unterminated expected (.inside (c :: cs)))
    | p => .error (stopAt unterminated expected p)

/-- `parse_array` and `parse_object`, after the opening bracket and the check of the depth. -/
def parseContainerAt (ctor : List α → JsonValue) (item : Bytes → ReadAt α) (s : Bytes) :
    ReadAt JsonValue :=
  if (skipWs s).head? = some close then .ok (ctor [], .inside (skipWs s).tail)
  else
    (parseListAt close unterminated expected item (s.length + 1) (skipWs s)).map fun (xs, p) =>
      (ctor xs, p)

end

/-- `parse_array` -/
def parseArrayAt (value : Bytes → ReadAt JsonValue) : Bytes → ReadAt JsonValue :=
  parseContainerAt 0x5D "unterminated array" "expected ',' or ']'" .arr value

/-- A member of an object: the key with the colon, and the value. -/
def parseMemberAt (value : Bytes → ReadAt JsonValue) (s : Bytes) : ReadAt (CStr × JsonValue) :=
  match parseKey s with
  | .error e => .error ⟨e.msg, .inside e.left⟩
  | .ok (key, s) => (value s).map fun (v, p) => ((key, v), p)

/-- `parse_object` -/
def parseObjectAt (value : Bytes → ReadAt JsonValue) : Bytes → ReadAt JsonValue :=
  parseContainerAt 0x7D "unterminated object" "expected ',' or '\x7d'" .obj (parseMemberAt value)

/-- `parse_value`, with the levels that may still be opened. -/
def parseValueAt (beyond : Bytes) (levels : ℕ) (s : Bytes) : ReadAt JsonValue :=
  match skipWs s with
  | [] => parseScalarAt beyond []
  | c :: cs =>
    if c = 0x7B then
      match levels with
      | 0 => .error ⟨"nesting too deep", .inside cs⟩
      | levels + 1 => parseObjectAt (parseValueAt beyond levels) cs
    else if c = 0x5B then
      match levels with
      | 0 => .error ⟨"nesting too deep", .inside cs⟩
      | levels + 1 => parseArrayAt (parseValueAt beyond levels) cs
    else parseScalarAt beyond (c :: cs)

/-- `json_parse` of a slice, with the bytes that lie behind it in memory. -/
def jsonParseAt (beyond text : Bytes) : Except JsonError JsonValue :=
  match parseValueAt beyond jsonMaxDepth text with
  | .error e => .error ⟨e.msg, e.cursor.offset text.length⟩
  | .ok (v, p) =>
    if p.skipWs = .inside [] then .ok v
    else .error ⟨"trailing data after JSON value", p.skipWs.offset text.length⟩

/-! ## Terminated texts -/

section

variable {beyond s : Bytes} {value : Bytes → Parsed JsonValue} {valueAt : Bytes → ReadAt JsonValue}
  {levels : ℕ}

/-- What follows the slice starts with a terminator, or there is nothing to read. -/
def Terminated (beyond : Bytes) : Prop := ∀ c ∈ beyond.head?, c = 0

theorem Terminated.endsToken (h : Terminated beyond) : EndsToken beyond := fun c hc => by
  rw [h c hc]
  decide

theorem within_map {α β : Type} (f : α → β) (r : Parsed α) :
    within (r.map fun (a, left) => (f a, left)) = (within r).map fun (a, p) => (f a, p) := by
  cases r <;> rfl

/-- A word is not read across a terminator. -/
theorem prefix_append_terminated {word : Bytes} (hword : (0 : UInt8) ∉ word) (h : Terminated beyond) :
    word <+: s ++ beyond ↔ word <+: s := by
  induction s generalizing word with
  | nil =>
    cases word with
    | nil => simp
    | cons c word =>
      refine iff_of_false ?_ (by simp)
      rintro ⟨t, ht⟩
      rw [List.nil_append] at ht
      have hc : c = 0 := h c (by rw [← ht]; rfl)
      exact hword (hc ▸ List.mem_cons_self)
  | cons x s ih =>
    cases word with
    | nil => simp
    | cons c word =>
      rw [List.cons_append, List.cons_prefix_cons, List.cons_prefix_cons,
        ih fun hmem => hword (List.mem_cons_of_mem c hmem)]

theorem parseWordAt_of_terminated {word : String} (hword : (0 : UInt8) ∉ ascii word)
    (h : Terminated beyond) (v : JsonValue) :
    parseWordAt beyond word v s = within (parseWord word v s) := by
  unfold parseWordAt parseWord
  simp only [List.isPrefixOf_iff_prefix, prefix_append_terminated hword h]
  split_ifs with hprefix hlen
  · rfl
  · exact absurd hprefix.length_le hlen
  · rfl

theorem parseNumberAt_of_terminated {c : UInt8} (hc : isSpace c = false) (h : Terminated beyond)
    (cs : Bytes) : parseNumberAt beyond (c :: cs) = within (parseNumber (c :: cs)) := by
  obtain ⟨hstrtod, hmag, hform⟩ := strtod_append hc h.endsToken cs
  unfold parseNumberAt parseNumber
  rw [hstrtod, hmag, hform]
  rcases strtodDecimal (c :: cs) with ⟨d, last⟩
  simp only [ne_eq, List.append_cancel_right_eq]
  split_ifs <;> rfl

theorem isSpace_of_startsNumber {c : UInt8} (h : c = 0x2D ∨ isDigit c = true) : isSpace c = false := by
  rcases h with rfl | hdigit
  · decide
  · exact isSpace_of_isDigit hdigit

theorem parseItems_within (hvalue : ∀ s, valueAt s = within (value s)) (n : ℕ) (s : Bytes) :
    parseListAt 0x5D "unterminated array" "expected ',' or ']'" valueAt n s =
      within (parseItems value n s) := by
  induction n generalizing s with
  | zero => rfl
  | succ n ih =>
    rw [parseListAt, parseItems, hvalue]
    cases value s with
    | error e => rfl
    | ok r =>
      obtain ⟨v, left⟩ := r
      simp only [within, bind, Except.bind, Cursor.skipWs]
      cases hskip : skipWs left with
      | nil => rfl
      | cons c cs =>
        dsimp only
        split_ifs
        · rw [ih]
          cases parseItems value n (skipWs cs) <;> rfl
        · rfl
        · rfl

theorem parseMembers_within (hvalue : ∀ s, valueAt s = within (value s)) (n : ℕ) (s : Bytes) :
    parseListAt 0x7D "unterminated object" "expected ',' or '\x7d'" (parseMemberAt valueAt) n s =
      within (parseMembers value n s) := by
  induction n generalizing s with
  | zero => rfl
  | succ n ih =>
    rw [parseListAt, parseMembers, parseMemberAt]
    cases parseKey s with
    | error e => rfl
    | ok r =>
      obtain ⟨key, s'⟩ := r
      simp only [bind, Except.bind]
      rw [hvalue]
      cases value s' with
      | error e => rfl
      | ok r =>
        obtain ⟨v, left⟩ := r
        -- the two go on alike where the rest is the same text
        simp only [within, Except.map, Cursor.skipWs]
        cases hskip : skipWs left with
        | nil => rfl
        | cons c cs =>
          dsimp only
          split_ifs
          · rw [ih]
            cases parseMembers value n (skipWs cs) <;> rfl
          · rfl
          · rfl

theorem parseArrayAt_of_within (hvalue : ∀ s, valueAt s = within (value s)) (s : Bytes) :
    parseArrayAt valueAt s = within (parseArray value s) := by
  unfold parseArrayAt parseContainerAt parseArray
  rw [parseItems_within hvalue]
  cases skipWs s with
  | nil =>
    rw [if_neg (by simp)]
    exact (within_map JsonValue.arr _).symm
  | cons c cs =>
    simp only [List.head?_cons, Option.some.injEq, List.tail_cons]
    split_ifs
    · rfl
    · exact (within_map _ _).symm

theorem parseObjectAt_of_within (hvalue : ∀ s, valueAt s = within (value s)) (s : Bytes) :
    parseObjectAt valueAt s = within (parseObject value s) := by
  unfold parseObjectAt parseContainerAt parseObject
  rw [parseMembers_within hvalue]
  cases skipWs s with
  | nil =>
    rw [if_neg (by simp)]
    exact (within_map JsonValue.obj _).symm
  | cons c cs =>
    simp only [List.head?_cons, Option.some.injEq, List.tail_cons]
    split_ifs
    · rfl
    · exact (within_map _ _).symm

theorem parseValueAt_of_terminated (h : Terminated beyond) (levels : ℕ) (s : Bytes) :
    parseValueAt beyond levels s = within (parseValue levels s) := by
  induction levels using Nat.strong_induction_on generalizing s with
  | _ levels ih =>
    rw [parseValueAt, parseValue]
    cases skipWs s with
    | nil => rfl
    | cons c cs =>
      simp only [parseScalarAt]
      split_ifs with hobj harr hstr ht hf hn hnum
      · cases levels with
        | zero => rfl
        | succ n => exact parseObjectAt_of_within (ih n n.lt_succ_self) cs
      · cases levels with
        | zero => rfl
        | succ n => exact parseArrayAt_of_within (ih n n.lt_succ_self) cs
      · exact (within_map _ _).symm
      · exact parseWordAt_of_terminated (by decide +kernel) h _
      · exact parseWordAt_of_terminated (by decide +kernel) h _
      · exact parseWordAt_of_terminated (by decide +kernel) h _
      · rw [parseNumberAt_of_terminated (isSpace_of_startsNumber (by simpa using hnum)) h]
        exact (within_map _ _).symm
      · rfl

end

/-- With a terminator behind the slice nothing is read across its end. -/
theorem jsonParseAt_of_terminated {beyond : Bytes} (h : Terminated beyond) (text : Bytes) :
    jsonParseAt beyond text = jsonParse text := by
  unfold jsonParseAt jsonParse
  rw [parseValueAt_of_terminated h]
  cases parseValue jsonMaxDepth text with
  | error e => rfl
  | ok r =>
    obtain ⟨v, left⟩ := r
    simp only [within, Cursor.skipWs, Cursor.inside.injEq, Cursor.offset]

end Json
