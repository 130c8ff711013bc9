import LgMagic.Json.Parser
import LgMagic.Lib.CNum

/-!
# The JSON writer

`json_dumps` of `json.c`: an indent of four, one member a line, numbers with at most six decimals.

* `fmtNumber`, `escapeString`, `dumpValue`: the pieces;
* `jsonDumps`: a tree;
* `JsonValue.depth`, `JsonValue.numbers`, `JsonValue.texts`: what a tree holds.
-/

namespace Json

open Binary64 CString Printf Rounding

/-- The parts `%.6f` prints for a finite value. -/
def fixedText (x : Finite) : NumText :=
  let n := (roundHalfEven (x.mag * 10 ^ 6)).toNat
  let frac := decDigits (n % 10 ^ 6)
  ⟨x.neg, decDigits (n / 10 ^ 6), List.replicate (6 - frac.length) 0 ++ frac, none⟩

/-- Take the zeros at the end of a fraction away, and keep one digit of it. -/
def stripFraction (buf : Bytes) : Bytes :=
  let buf := buf.rdropWhile (· == 0x30)
  if buf.getLast? = some 0x2E then buf ++ [0x30] else buf

/-- `fmt_number` -/
def fmtNumber (d : Double) : Bytes :=
  match d with
  | .finite x =>
    let fabs := Double.finite { x with neg := false }
    if x.m ≠ 0 ∧ (fabs.lt (CNum.ofRat (5 / 10 ^ 7)) || (CNum.ofRat (10 ^ 16) : Double).le fabs) then
      fmtG 6 d
    else stripFraction (fixedText x).render
  | _ => ascii "null"

/-- A digit of `%x`. -/
def hexDigit (d : ℕ) : UInt8 := UInt8.ofNat (if d < 10 then 0x30 + d else 0x61 + (d - 10))

/-- The bytes `escape_string` writes for one byte of the string. -/
def escapeByte (c : UInt8) : Bytes :=
  if c = 0x22 then [0x5C, 0x22]
  else if c = 0x5C then [0x5C, 0x5C]
  else if c = 0x08 then [0x5C, 0x62]
  else if c = 0x0C then [0x5C, 0x66]
  else if c = 0x0A then [0x5C, 0x6E]
  else if c = 0x0D then [0x5C, 0x72]
  else if c = 0x09 then [0x5C, 0x74]
  else if c < 0x20 then [0x5C, 0x75, 0x30, 0x30, hexDigit (c.toNat / 16), hexDigit (c.toNat % 16)]
  else [c]

/-- `escape_string` -/
def escapeString (s : CStr) : Bytes := 0x22 :: s.val.flatMap escapeByte ++ [0x22]

/-- A new line, indented for a level. -/
def newLine (level : ℕ) : Bytes := 0x0A :: List.replicate (4 * level) 0x20

mutual

/-- `dump_value` -/
def dumpValue (level : ℕ) : JsonValue → Bytes
  | .null => ascii "null"
  | .bool b => if b then ascii "true" else ascii "false"
  | .num d => fmtNumber d
  | .str s => escapeString s
  | .arr [] => ascii "[]"
  | .arr (v :: vs) => 0x5B :: dumpItems level (v :: vs) ++ newLine level ++ [0x5D]
  | .obj [] => [0x7B, 0x7D]
  | .obj (m :: ms) => 0x7B :: dumpMembers level (m :: ms) ++ newLine level ++ [0x7D]

/-- The items of an array at a level, with the commas between them. -/
def dumpItems (level : ℕ) : List JsonValue → Bytes
  | [] => []
  | v :: vs =>
    newLine (level + 1) ++ dumpValue (level + 1) v ++ (if vs.isEmpty then [] else [0x2C]) ++
      dumpItems level vs

/-- The members of an object at a level, with the commas between them. -/
def dumpMembers (level : ℕ) : List (CStr × JsonValue) → Bytes
  | [] => []
  | (k, v) :: ms =>
    newLine (level + 1) ++ escapeString k ++ ascii ": " ++ dumpValue (level + 1) v ++
      (if ms.isEmpty then [] else [0x2C]) ++ dumpMembers level ms

end

/-- `json_dumps`, with the memory that it asks for. -/
def jsonDumps (v : JsonValue) : Bytes := dumpValue 0 v

/-! ## What a tree holds -/

mutual

/-- The nesting of arrays and objects. -/
def JsonValue.depth : JsonValue → ℕ
  | .arr items => itemsDepth items + 1
  | .obj ms => membersDepth ms + 1
  | _ => 0

def itemsDepth : List JsonValue → ℕ
  | [] => 0
  | v :: vs => max v.depth (itemsDepth vs)

def membersDepth : List (CStr × JsonValue) → ℕ
  | [] => 0
  | (_, v) :: ms => max v.depth (membersDepth ms)

end

mutual

/-- The numbers of a tree. -/
def JsonValue.numbers : JsonValue → List Double
  | .num d => [d]
  | .arr items => itemsNumbers items
  | .obj ms => membersNumbers ms
  | _ => []

def itemsNumbers : List JsonValue → List Double
  | [] => []
  | v :: vs => v.numbers ++ itemsNumbers vs

def membersNumbers : List (CStr × JsonValue) → List Double
  | [] => []
  | (_, v) :: ms => v.numbers ++ membersNumbers ms

end

mutual

/-- The strings and keys of a tree. -/
def JsonValue.texts : JsonValue → List CStr
  | .str s => [s]
  | .arr items => itemsTexts items
  | .obj ms => membersTexts ms
  | _ => []

def itemsTexts : List JsonValue → List CStr
  | [] => []
  | v :: vs => v.texts ++ itemsTexts vs

def membersTexts : List (CStr × JsonValue) → List CStr
  | [] => []
  | (k, v) :: ms => k :: v.texts ++ membersTexts ms

end

end Json
