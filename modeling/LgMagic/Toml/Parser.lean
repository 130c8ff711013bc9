import LgMagic.Lib.Printf
import LgMagic.Toml.Value

/-!
# The TOML parser

`toml_parse` of `toml.c`: a recursive descent over the bytes of a document. Every parsing function
either moves the cursor on or reports an error with its line; the first error of a document is the
one returned. The parser's pointer to the table that the next keys belong to is the path of that
table.

* `skipWs`, `skipLineEnd`, `parseString`, `parseKeyPath`, `parseValue`: the pieces;
* `parseStep`: one statement;
* `tomlParse`: a document.
-/

namespace Toml

open CString

/-- A parse error: the message and its line. -/
structure ParseError where
  msg : String
  line : ℕ
  deriving DecidableEq, Repr

/-- Where the parser stands: the bytes left and the line counter. -/
structure Cursor where
  p : Bytes
  line : ℕ
  deriving DecidableEq, Repr

/-- `peek` -/
def peek (p : Bytes) (c : UInt8) : Bool := p.head? == some c

/-! ## White space -/

/-- The blanks inside a line. -/
def isBlank (c : UInt8) : Bool := c == 0x20 || c == 0x09 || c == 0x0D

/-- `skip_ws`: skip white space, line ends and comments. The flag is set inside a comment. -/
def skipWs (comment : Bool) : Bytes → ℕ → Cursor
  | [], line => ⟨[], line⟩
  | c :: cs, line =>
    if c = 0x0A then skipWs false cs (line + 1)
    else if comment then skipWs true cs line
    else if isBlank c then skipWs false cs line
    else if c = 0x23 then skipWs true cs line
    else ⟨c :: cs, line⟩

/-- `skip_line_end`: the blanks and the comment that may end a line; `none` on other text. -/
def skipLineEnd (p : Bytes) : Option Bytes :=
  let p := p.dropWhile isBlank
  let p := if peek p 0x23 then p.dropWhile (· != 0x0A) else p
  if p = [] ∨ peek p 0x0A then some p else none

/-! ## Strings -/

/-- The value of a hexadecimal digit. -/
def hexVal (c : UInt8) : Option ℕ :=
  if 0x30 ≤ c ∧ c ≤ 0x39 then some (c.toNat - 0x30)
  else if 0x61 ≤ c ∧ c ≤ 0x66 then some (c.toNat - 0x61 + 10)
  else if 0x41 ≤ c ∧ c ≤ 0x46 then some (c.toNat - 0x41 + 10)
  else none

/-- The value of the four digits of a `\u` escape. -/
def hex4 (a b c d : UInt8) : Option ℕ := do
  let a ← hexVal a
  let b ← hexVal b
  let c ← hexVal c
  let d ← hexVal d
  return ((a * 16 + b) * 16 + c) * 16 + d

/-- The bytes a `\u` escape stands for. -/
def utf8 (v : ℕ) : Bytes :=
  if v < 0x80 then [UInt8.ofNat v]
  else if v < 0x800 then [UInt8.ofNat (0xC0 ||| v >>> 6), UInt8.ofNat (0x80 ||| v &&& 0x3F)]
  else [UInt8.ofNat (0xE0 ||| v >>> 12), UInt8.ofNat (0x80 ||| v >>> 6 &&& 0x3F),
    UInt8.ofNat (0x80 ||| v &&& 0x3F)]

/-- The byte an escape of one letter stands for. -/
def escapeByte (c : UInt8) : Option UInt8 :=
  if c = 0x6E then some 0x0A
  else if c = 0x74 then some 0x09
  else if c = 0x72 then some 0x0D
  else if c = 0x62 then some 0x08
  else if c = 0x66 then some 0x0C
  else if c = 0x22 then some 0x22
  else if c = 0x5C then some 0x5C
  else none

/-- `store_seq`: the string goes on with some bytes. -/
def storeSeq (bytes : Bytes) (r : Except ParseError (Bytes × Cursor)) :
    Except ParseError (Bytes × Cursor) :=
  r.map fun (buf, cur) => (bytes ++ buf, cur)

/-- `parse_string` after the opening quote: the bytes of the buffer and the cursor after the
closing quote. An unterminated string is reported at the line it starts on. -/
def parseString (quote : UInt8) (start : ℕ) : Bytes → ℕ → Except ParseError (Bytes × Cursor)
  | [], _ => .error ⟨"unterminated string", start⟩
  | c :: cs, line =>
    if c = quote then .ok ([], ⟨cs, line⟩)
    else if quote = 0x27 then
      if c = 0x0A then .error ⟨"newline in literal string", line + 1⟩
      else if c < 0x20 then .error ⟨"control character in literal string", line⟩
      else storeSeq [c] (parseString quote start cs line)
    else if c = 0x0A then storeSeq [c] (parseString quote start cs (line + 1))
    else if c = 0x5C then
      match cs with
      | [] => .error ⟨"unterminated escape", line⟩
      | e :: cs =>
        if e = 0x75 then
          match cs with
          | h1 :: h2 :: h3 :: h4 :: cs =>
            match hex4 h1 h2 h3 h4 with
            | some v => storeSeq (utf8 v) (parseString quote start cs line)
            | none => .error ⟨"bad \\u escape", line⟩
          | cs =>
            if cs.all fun h => (hexVal h).isSome then .error ⟨"short \\u escape", line⟩
            else .error ⟨"bad \\u escape", line⟩
        else
          match escapeByte e with
          | some b => storeSeq [b] (parseString quote start cs line)
          | none => .error ⟨"unknown escape", line⟩
    else if c ≠ 0x09 ∧ c < 0x20 then .error ⟨"control character in basic string", line⟩
    else storeSeq [c] (parseString quote start cs line)

section

variable (start line : ℕ) (cs : Bytes)

theorem parseString_quote (quote : UInt8) :
    parseString quote start (quote :: cs) line = .ok ([], ⟨cs, line⟩) := by
  rw [parseString.eq_def]
  simp

/-- A byte of a basic string that stands for itself. -/
theorem parseString_plain {c : UInt8} (hq : c ≠ 0x22) (he : c ≠ 0x5C) (hc : 0x20 ≤ c) :
    parseString 0x22 start (c :: cs) line = storeSeq [c] (parseString 0x22 start cs line) := by
  have hnl : c ≠ 0x0A := by rintro rfl; revert hc; decide
  rw [parseString.eq_def]
  simp [hq, he, hnl, hc]

/-- An escape of one letter. -/
theorem parseString_escape {e b : UInt8} (he : e ≠ 0x75) (hb : escapeByte e = some b) :
    parseString 0x22 start (0x5C :: e :: cs) line =
      storeSeq [b] (parseString 0x22 start cs line) := by
  rw [parseString.eq_def]
  simp [he, hb]

/-- A `\u` escape. -/
theorem parseString_unicode {h1 h2 h3 h4 : UInt8} {v : ℕ} (hv : hex4 h1 h2 h3 h4 = some v) :
    parseString 0x22 start (0x5C :: 0x75 :: h1 :: h2 :: h3 :: h4 :: cs) line =
      storeSeq (utf8 v) (parseString 0x22 start cs line) := by
  rw [parseString.eq_def]
  simp [hv]

end

/-- `parse_string` as a C string, with the opening quote consumed. -/
def parseCString (quote : UInt8) (cur : Cursor) : Except ParseError (CStr × Cursor) :=
  (parseString quote cur.line cur.p cur.line).map fun (buf, cur) => (CStr.ofBuffer buf, cur)

/-! ## Keys -/

/-- The bytes of bare keys. -/
def isBare (c : UInt8) : Bool := isAlnum c || c == 0x5F || c == 0x2D

/-- The quotes that start a string. -/
def isQuote (c : UInt8) : Bool := c == 0x22 || c == 0x27

/-- `parse_key_segment`; `msg` is what the caller reports when there is no key here. -/
def parseKeySegment (msg : String) (cur : Cursor) : Except ParseError (CStr × Cursor) :=
  match cur.p with
  | [] => .error ⟨msg, cur.line⟩
  | c :: cs =>
    if isQuote c then parseCString c ⟨cs, cur.line⟩
    else if isBare c then
      .ok (CStr.ofBuffer (cur.p.takeWhile isBare), ⟨cur.p.dropWhile isBare, cur.line⟩)
    else .error ⟨msg, cur.line⟩

/-- `parse_key_path`: segments joined by dots. The fuel is the number of bytes left. -/
def parseKeyPathFuel (msg : String) : ℕ → Cursor → Except ParseError (List CStr × Cursor)
  | 0, cur => .error ⟨msg, cur.line⟩
  | n + 1, cur => do
    let (seg, cur) ← parseKeySegment msg cur
    match cur.p with
    | c :: cs =>
      if c = 0x2E then
        let (segs, cur) ← parseKeyPathFuel msg n ⟨cs, cur.line⟩
        return (seg :: segs, cur)
      else return ([seg], cur)
    | [] => return ([seg], cur)

/-- `parse_key_path` -/
def parseKeyPath (msg : String) (cur : Cursor) : Except ParseError (List CStr × Cursor) :=
  parseKeyPathFuel msg cur.p.length cur

/-! ## Values -/

/-- The elements of an array after its opening bracket. The fuel is the number of bytes left. -/
def parseArrayFuel : ℕ → Cursor → Except ParseError (List CStr × Cursor)
  | 0, cur => .error ⟨"unterminated array", cur.line⟩
  | n + 1, cur => do
    let cur := skipWs false cur.p cur.line
    match cur.p with
    | [] => .error ⟨"unterminated array", cur.line⟩
    | c :: cs =>
      if c = 0x5D then return ([], ⟨cs, cur.line⟩)
      else if !isQuote c then .error ⟨"arrays hold strings only", cur.line⟩
      else
        let (s, cur) ← parseCString c ⟨cs, cur.line⟩
        let cur := skipWs false cur.p cur.line
        match cur.p with
        | c :: cs =>
          if c = 0x2C then
            let (items, cur) ← parseArrayFuel n ⟨cs, cur.line⟩
            return (s :: items, cur)
          else if c = 0x5D then return ([s], ⟨cs, cur.line⟩)
          else .error ⟨"expected ',' or ']' in array", cur.line⟩
        | [] => .error ⟨"expected ',' or ']' in array", cur.line⟩

/-- A word is here and does not go on. -/
def peekWord (w p : Bytes) : Bool :=
  w.isPrefixOf p &&
    match p.drop w.length with
    | c :: _ => !isAlnum c && c != 0x5F
    | [] => true

/-- The size of the buffer of a number's token. -/
def cleanedSize : ℕ := 64

/-- A number's token while it is collected: the buffer, whether a point or an exponent was seen
and the digits seen. -/
structure NumScan where
  cleaned : Bytes := []
  isFloat : Bool := false
  digits : ℕ := 0

/-- Append to the buffer; what does not fit is dropped. -/
def NumScan.push (st : NumScan) (c : UInt8) : NumScan :=
  if st.cleaned.length + 1 < cleanedSize then { st with cleaned := st.cleaned ++ [c] } else st

/-- The loop of `parse_value` over the bytes of a number after its sign. -/
def scanNumber : NumScan → Bytes → NumScan × Bytes
  | st, [] => (st, [])
  | st, c :: cs =>
    if isDigit c then scanNumber { st.push c with digits := st.digits + 1 } cs
    else if c = 0x5F ∧ 0 < st.digits ∧ (cs.head?.map isDigit).getD false then scanNumber st cs
    else if c = 0x2E then scanNumber { st.push c with isFloat := true } cs
    else if (c = 0x65 ∨ c = 0x45) ∧ 0 < st.digits then
      match cs with
      | s :: cs' =>
        if s = 0x2B ∨ s = 0x2D then
          scanNumber { (st.push c).push s with isFloat := true } cs'
        else scanNumber { st.push c with isFloat := true } (s :: cs')
      | [] => ({ st.push c with isFloat := true }, [])
    else (st, c :: cs)

/-- A number's token with its sign. -/
def scanToken : Bytes → NumScan × Bytes
  | c :: cs =>
    if c = 0x2B ∨ c = 0x2D then scanNumber (NumScan.push {} c) cs else scanNumber {} (c :: cs)
  | [] => ({}, [])

/-- The number of `parse_value`. -/
def parseNumber (cur : Cursor) : Except ParseError (TomlValue × Cursor) :=
  let (st, p) := scanToken cur.p
  if st.digits = 0 ∨ cleanedSize ≤ st.cleaned.length then .error ⟨"invalid value", cur.line⟩
  else if st.isFloat then
    let (d, rest) := Printf.strtodDecimal st.cleaned
    if rest = st.cleaned ∨ rest ≠ [] then .error ⟨"invalid float", cur.line⟩
    else .ok (.float d, ⟨p, cur.line⟩)
  else
    let (i, erange, rest) := Printf.strtoll st.cleaned
    if erange ∨ rest = st.cleaned ∨ rest ≠ [] then .error ⟨"invalid integer", cur.line⟩
    else .ok (.int i, ⟨p, cur.line⟩)

/-- `parse_value` -/
def parseValue (cur : Cursor) : Except ParseError (TomlValue × Cursor) :=
  match cur.p with
  | [] => .error ⟨"missing value", cur.line⟩
  | c :: cs =>
    if isQuote c then
      (parseCString c ⟨cs, cur.line⟩).map fun (s, cur) => (.str s, cur)
    else if c = 0x5B then
      (parseArrayFuel cs.length ⟨cs, cur.line⟩).map fun (items, cur) => (.arr items, cur)
    else if peekWord (ascii "true") cur.p then .ok (.bool true, ⟨cur.p.drop 4, cur.line⟩)
    else if peekWord (ascii "false") cur.p then .ok (.bool false, ⟨cur.p.drop 5, cur.line⟩)
    else parseNumber cur

/-! ## Statements -/

/-- The parser between two statements. -/
structure ParseState where
  cursor : Cursor
  /-- The tree built so far. -/
  root : Members
  /-- The path of the table the next keys belong to. -/
  cur : List CStr
  /-- The first error. -/
  err : Option ParseError

/-- The parser at the start of a document. -/
def ParseState.init (text : Bytes) : ParseState := ⟨⟨text, 1⟩, [], [], none⟩

/-- `parse_error`: an error counts when it is the first. -/
def ParseState.parseError (st : ParseState) (msg : String) (line : ℕ) : ParseError :=
  st.err.getD ⟨msg, line⟩

/-- A table header after its opening bracket. -/
def parseHeader (st : ParseState) (cursor : Cursor) : Except ParseError ParseState :=
  match parseKeyPath "invalid table header" cursor with
  | .error e => .error (st.err.getD e)
  | .ok (segs, cursor) =>
    match cursor.p with
    | c :: cs =>
      if c = 0x5D then
        match skipLineEnd cs with
        | none => .error (st.parseError "trailing text after table header" cursor.line)
        | some p =>
          match enter st.root segs with
          | none => .error (st.parseError "key path crosses a non-table value" cursor.line)
          | some root => .ok ⟨⟨p, cursor.line⟩, root, segs, st.err⟩
      else .error (st.parseError "expected ']' in table header" cursor.line)
    | [] => .error (st.parseError "expected ']' in table header" cursor.line)

/-- A key and its value. A duplicate key is an error that does not end the loop. -/
def parseAssign (st : ParseState) (cursor : Cursor) : Except ParseError ParseState :=
  match parseKeyPath "expected key" cursor with
  | .error e => .error (st.err.getD e)
  | .ok (segs, cursor) =>
    let cursor := skipWs false cursor.p cursor.line
    if peek cursor.p 0x3D then
      let cursor := skipWs false cursor.p.tail cursor.line
      let path := st.cur ++ segs.dropLast
      match enter st.root path with
      | none => .error (st.parseError "key path crosses a non-table value" cursor.line)
      | some root =>
        match parseValue cursor with
        | .error e => .error (st.err.getD e)
        | .ok (val, cursor) =>
          let added := do
            let parent ← getAt root path
            let parent ← tableAdd parent (segs.getLastD CStr.empty) val
            return setAt root path parent
          let err := if added.isSome then st.err else some (st.parseError "duplicate key" cursor.line)
          match skipLineEnd cursor.p with
          | none => .error (err.getD ⟨"trailing text after value", cursor.line⟩)
          | some p => .ok ⟨⟨p, cursor.line⟩, added.getD root, st.cur, err⟩
    else .error (st.parseError "expected '=' after key" cursor.line)

/-- One turn of the loop of `toml_parse` at a statement. -/
def parseStep (st : ParseState) (cursor : Cursor) : Except ParseError ParseState :=
  if peek cursor.p 0x5B then parseHeader st ⟨cursor.p.tail, cursor.line⟩ else parseAssign st cursor

/-- The loop of `toml_parse`. Every turn reads a byte, so the fuel is the number of bytes. -/
def parseLoop : ℕ → ParseState → Except ParseError Members
  | 0, st => st.err.elim (.ok st.root) .error
  | n + 1, st =>
    let cursor := skipWs false st.cursor.p st.cursor.line
    if cursor.p = [] then st.err.elim (.ok st.root) .error
    else parseStep st cursor >>= parseLoop n

/-- `toml_parse` -/
def tomlParse (text : Bytes) : Except ParseError Members :=
  parseLoop text.length (ParseState.init text)

end Toml
