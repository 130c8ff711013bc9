import LgMagic.Lib.Printf

/-!
# The JSON parser

`json_parse` of `json.c`: a recursive descent over the bytes of a text. Arrays and objects keep
their members in the order of the text, a key may come more than once, and the nesting is limited.

* `JsonValue`: a tree;
* `skipWs`, `parseString`, `parseNumber`, `parseArray`, `parseObject`, `parseValue`: the pieces;
* `jsonParse`: a text.
-/

namespace Json

open Binary64 CString Printf

/-- `struct json_value` -/
inductive JsonValue where
  | null
  | bool (b : Bool)
  | num (d : Double)
  | str (s : CStr)
  | arr (items : List JsonValue)
  | obj (members : List (CStr × JsonValue))

/-- Where an error is: the message and the bytes left. -/
structure ParseFail where
  msg : String
  left : Bytes
  deriving DecidableEq, Repr

/-- What a parsing function reads, with the bytes left. -/
abbrev Parsed (α : Type) := Except ParseFail (α × Bytes)

/-- `JSON_MAX_DEPTH` -/
def jsonMaxDepth : ℕ := 32

/-! ## White space and strings -/

/-- The bytes that `skip_ws` skips. -/
def isWs (c : UInt8) : Bool := c == 0x20 || c == 0x09 || c == 0x0A || c == 0x0D

/-- `skip_ws` -/
def skipWs (s : Bytes) : Bytes := s.dropWhile isWs

/-- The byte that an escape stands for. -/
def escapedByte (c : UInt8) : Option UInt8 :=
  if c = 0x22 then some 0x22
  else if c = 0x5C then some 0x5C
  else if c = 0x2F then some 0x2F
  else if c = 0x62 then some 0x08
  else if c = 0x66 then some 0x0C
  else if c = 0x6E then some 0x0A
  else if c = 0x72 then some 0x0D
  else if c = 0x74 then some 0x09
  else none

/-- The string goes on with a byte. -/
def storeByte (c : UInt8) (r : Parsed Bytes) : Parsed Bytes := r.map fun (buf, s) => (c :: buf, s)

/-- The loop of `parse_string`, after the opening quote. -/
def parseChars : Bytes → Parsed Bytes
  | [] => .error ⟨"unterminated string", []⟩
  | c :: cs =>
    if c = 0x22 then .ok ([], cs)
    else if c < 0x20 then .error ⟨"control character in string", c :: cs⟩
    else if c = 0x5C then
      match cs with
      | [] => .error ⟨"unterminated escape", []⟩
      | e :: cs =>
        match escapedByte e with
        | some b => storeByte b (parseChars cs)
        | none =>
          .error ⟨if e = 0x75 then "\\u escapes not supported" else "invalid escape", e :: cs⟩
    else storeByte c (parseChars cs)

/-- `parse_string` -/
def parseString (s : Bytes) : Parsed CStr :=
  match s with
  | c :: cs =>
    if c = 0x22 then (parseChars cs).map fun (buf, s) => (CStr.ofBuffer buf, s)
    else .error ⟨"expected string", s⟩
  | [] => .error ⟨"expected string", []⟩

/-! ## Numbers -/

/-- The bytes of a number's token. -/
def isNumChar (c : UInt8) : Bool :=
  isDigit c || c == 0x2D || c == 0x2B || c == 0x2E || c == 0x65 || c == 0x45

/-- `strtod` takes the hexadecimal form. -/
def hexForm (s : Bytes) : Bool :=
  match (takeSign s).2 with
  | z :: x :: c :: cs =>
    z == 0x30 && (x == 0x78 || x == 0x58) &&
      (isXdigit c || (c == 0x2E && cs.head?.any isXdigit))
  | _ => false

/-- The magnitude that the decimal at the start of a text denotes, before it is rounded. -/
def decimalMag (s : Bytes) : ℚ :=
  let (_, t) := takeSign s
  let ip := t.takeWhile isDigit
  let (fp, t') := takeFraction (t.dropWhile isDigit)
  natOfDigits ((ip ++ fp).map digitVal) * (10 : ℚ) ^ ((takeExp t').1 - fp.length)

/-- `strtod` sets `ERANGE`: the value is too large, or it is below the normal numbers and not
exact. -/
def strtodErange (d : Double) (mag : ℚ) : Bool :=
  match d with
  | .nan => false
  | .inf _ => true
  | .finite x => decide (0 < mag ∧ mag < (2 : ℚ) ^ (-1022 : ℤ) ∧ x.mag ≠ mag)

/-- `parse_number`: the token is what looks like a number, and `strtod` has to read all of it. It
reads past the token only where the number is hexadecimal. -/
def parseNumber (s : Bytes) : Parsed Double :=
  let token := s.takeWhile isNumChar
  let rest := s.dropWhile isNumChar
  if token.any isDigit = false then .error ⟨"invalid number", rest⟩
  else
    let (d, last) := strtodDecimal s
    if hexForm s || strtodErange d (decimalMag s) || last ≠ rest then
      .error ⟨"invalid number", rest⟩
    else .ok (d, rest)

/-! ## Values -/

/-- The loop of `parse_array`; every item takes a byte. -/
def parseItems (value : Bytes → Parsed JsonValue) :
    ℕ → Bytes → Except ParseFail (List JsonValue × Bytes)
  | 0, s => .error ⟨"unterminated array", s⟩
  | n + 1, s => do
    let (v, s) ← value s
    match skipWs s with
    | [] => .error ⟨"unterminated array", []⟩
    | c :: cs =>
      if c = 0x2C then
        let (vs, s) ← parseItems value n (skipWs cs)
        return (v :: vs, s)
      else if c = 0x5D then return ([v], cs)
      else .error ⟨"expected ',' or ']'", c :: cs⟩

/-- `parse_array`, after the bracket and the check of the depth. -/
def parseArray (value : Bytes → Parsed JsonValue) (s : Bytes) : Parsed JsonValue :=
  match skipWs s with
  | c :: cs =>
    if c = 0x5D then .ok (.arr [], cs)
    else (parseItems value (s.length + 1) (c :: cs)).map fun (vs, s) => (.arr vs, s)
  | [] => (parseItems value (s.length + 1) []).map fun (vs, s) => (.arr vs, s)

/-- The key of a member with the colon after it. -/
def parseKey (s : Bytes) : Except ParseFail (CStr × Bytes) := do
  let (key, s) ← parseString s
  match skipWs s with
  | [] => .error ⟨"expected ':'", []⟩
  | c :: cs => if c = 0x3A then return (key, skipWs cs) else .error ⟨"expected ':'", c :: cs⟩

/-- The loop of `parse_object`; every member takes a byte. -/
def parseMembers (value : Bytes → Parsed JsonValue) :
    ℕ → Bytes → Except ParseFail (List (CStr × JsonValue) × Bytes)
  | 0, s => .error ⟨"unterminated object", s⟩
  | n + 1, s => do
    let (key, s) ← parseKey s
    let (v, s) ← value s
    match skipWs s with
    | [] => .error ⟨"unterminated object", []⟩
    | c :: cs =>
      if c = 0x2C then
        let (ms, s) ← parseMembers value n (skipWs cs)
        return ((key, v) :: ms, s)
      else if c = 0x7D then return ([(key, v)], cs)
      else .error ⟨"expected ',' or '\x7d'", c :: cs⟩

/-- `parse_object`, after the brace and the check of the depth. -/
def parseObject (value : Bytes → Parsed JsonValue) (s : Bytes) : Parsed JsonValue :=
  match skipWs s with
  | c :: cs =>
    if c = 0x7D then .ok (.obj [], cs)
    else (parseMembers value (s.length + 1) (c :: cs)).map fun (ms, s) => (.obj ms, s)
  | [] => (parseMembers value (s.length + 1) []).map fun (ms, s) => (.obj ms, s)

/-- A word of the language. -/
def parseWord (word : String) (v : JsonValue) (s : Bytes) : Parsed JsonValue :=
  if (ascii word).isPrefixOf s then .ok (v, s.drop (ascii word).length)
  else .error ⟨"expected value", s⟩

/-- `parse_value`, with the levels that may still be opened. -/
def parseValue (levels : ℕ) (s : Bytes) : Parsed JsonValue :=
  match skipWs s with
  | [] => .error ⟨"unexpected end of input", []⟩
  | c :: cs =>
    if c = 0x7B then
      match levels with
      | 0 => .error ⟨"nesting too deep", cs⟩
      | levels + 1 => parseObject (parseValue levels) cs
    else if c = 0x5B then
      match levels with
      | 0 => .error ⟨"nesting too deep", cs⟩
      | levels + 1 => parseArray (parseValue levels) cs
    else if c = 0x22 then (parseString (c :: cs)).map fun (str, s) => (.str str, s)
    else if c = 0x74 then parseWord "true" (.bool true) (c :: cs)
    else if c = 0x66 then parseWord "false" (.bool false) (c :: cs)
    else if c = 0x6E then parseWord "null" .null (c :: cs)
    else if c = 0x2D || isDigit c then (parseNumber (c :: cs)).map fun (d, s) => (.num d, s)
    else .error ⟨"expected value", c :: cs⟩

/-- An error and its offset. -/
structure JsonError where
  msg : String
  offset : ℕ
  deriving DecidableEq, Repr

/-- `json_parse` -/
def jsonParse (text : Bytes) : Except JsonError JsonValue :=
  match parseValue jsonMaxDepth text with
  | .error e => .error ⟨e.msg, text.length - e.left.length⟩
  | .ok (v, s) =>
    if skipWs s = [] then .ok v
    else .error ⟨"trailing data after JSON value", text.length - (skipWs s).length⟩

end Json
