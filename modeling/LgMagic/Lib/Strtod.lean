import LgMagic.Lib.Printf

/-!
# Reading numbers

`strtod` of the C library on any text, in the C locale: white space, a sign, and then a word for an
infinity or for no number, a hexadecimal number or a decimal one. What is read is rounded to the
nearest `double`.

* `takeWord`, `takeNanChars`, `takeHex`: the pieces;
* `strtod`: the value, whether `errno` is set to `ERANGE`, and the unread rest;
* `strtod_render`: a printed number is read completely.
-/

namespace Printf

open Binary64 CString

/-- `tolower` -/
def toLower (c : UInt8) : UInt8 := if 0x41 ≤ c && c ≤ 0x5A then c + 0x20 else c

/-- The rest after a word, which may be written in capitals. -/
def takeWord (word : Bytes) (s : Bytes) : Option Bytes :=
  if (s.take word.length).map toLower = word then some (s.drop word.length) else none

/-- The characters that may follow `nan` in parentheses. -/
def takeNanChars (s : Bytes) : Bytes :=
  match s with
  | c :: cs =>
    if c = 0x28 then
      match cs.dropWhile fun c => isAlnum c || c == 0x5F with
      | d :: ds => if d = 0x29 then ds else s
      | [] => s
    else s
  | [] => []

/-- The value of a hexadecimal digit. -/
def hexDigitVal (c : UInt8) : ℕ :=
  if isDigit c then digitVal c else (toLower c).toNat - 0x61 + 10

/-- The binary exponent of a hexadecimal number and the rest after it. -/
def takeBinExp (t : Bytes) : ℤ × Bytes :=
  match t with
  | c :: cs =>
    if toLower c = 0x70 then
      let (neg, r) := takeSign cs
      let ds := r.takeWhile isDigit
      if ds = [] then (0, t)
      else
        let n : ℕ := natOfDigits (ds.map digitVal)
        (if neg then -n else n, r.dropWhile isDigit)
    else (0, t)
  | [] => (0, [])

/-- The hexadecimal digits after a point and the rest after them. -/
def takeHexFraction (t : Bytes) : Bytes × Bytes :=
  match t with
  | c :: cs => if c == 0x2E then (cs.takeWhile isXdigit, cs.dropWhile isXdigit) else ([], t)
  | [] => ([], [])

/-- The magnitude of a hexadecimal number, after its `0x`, and the rest; without digits it is none. -/
def takeHex (t : Bytes) : Option (ℚ × Bytes) :=
  let ip := t.takeWhile isXdigit
  let (fp, t') := takeHexFraction (t.dropWhile isXdigit)
  if ip = [] ∧ fp = [] then none
  else
    let (e, rest) := takeBinExp t'
    let m : ℕ := (ip ++ fp).foldl (fun a c => 16 * a + hexDigitVal c) 0
    some (m * (2 : ℚ) ^ (e - 4 * fp.length), rest)

/-- The magnitude of a decimal number and the rest; without digits it is none. -/
def takeDecimal (t : Bytes) : Option (ℚ × Bytes) :=
  let ip := t.takeWhile isDigit
  let (fp, t') := takeFraction (t.dropWhile isDigit)
  if ip = [] ∧ fp = [] then none
  else
    let (e, rest) := takeExp t'
    some (natOfDigits ((ip ++ fp).map digitVal) * (10 : ℚ) ^ (e - fp.length), rest)

/-- What `strtod` gives. -/
structure NumRead where
  value : Double
  erange : Bool
  /-- The unread rest, which is the whole text when there is no number. -/
  rest : Bytes
  deriving DecidableEq

/-- A magnitude is out of range when it rounds to infinity, or when it is below the normal numbers
and not exact. -/
def rangeError (d : Double) (mag : ℚ) : Bool :=
  match d with
  | .nan => false
  | .inf _ => true
  | .finite x => decide (0 < mag ∧ mag < (2 : ℚ) ^ (-1022 : ℤ) ∧ x.mag ≠ mag)

/-- A magnitude with its sign, rounded. -/
def NumRead.ofMag (neg : Bool) (mag : ℚ) (rest : Bytes) : NumRead :=
  ⟨.ofRat neg mag, rangeError (.ofRat neg mag) mag, rest⟩

/-- The number at the start of a text, after its sign. -/
def takeNumber (neg : Bool) (t : Bytes) : Option NumRead :=
  match (takeWord (ascii "infinity") t).or (takeWord (ascii "inf") t) with
  | some rest => some ⟨.inf neg, false, rest⟩
  | none =>
    match takeWord (ascii "nan") t with
    | some rest => some ⟨.nan, false, takeNanChars rest⟩
    | none =>
      match ((takeWord (ascii "0x") t).bind takeHex).or (takeDecimal t) with
      | some (mag, rest) => some (.ofMag neg mag rest)
      | none => none

/-- `strtod` -/
def strtod (s : Bytes) : NumRead :=
  let (neg, t) := takeSign (s.dropWhile isSpace)
  (takeNumber neg t).getD ⟨.zero false, false, s⟩

example : strtod (ascii " -0x1.8p1,") = ⟨.ofInt (-3), false, ascii ","⟩ := by decide +kernel

example : (strtod (ascii "0x")).rest = ascii "x" := by decide +kernel

/-! ## Printed numbers -/

/-- A text without one of the letters of a word does not start with it. -/
theorem takeWord_eq_none {word s : Bytes} {w : UInt8} (hw : w ∈ word) (h : ∀ c ∈ s, toLower c ≠ w) :
    takeWord word s = none := by
  rw [takeWord, if_neg]
  intro heq
  rw [← heq] at hw
  obtain ⟨c, hc, hlower⟩ := List.mem_map.mp hw
  exact h c (List.mem_of_mem_take hc) hlower

/-- A text without the letters of the other forms. -/
def DecimalOnly (s : Bytes) : Prop :=
  ∀ c ∈ s, toLower c ≠ 0x69 ∧ toLower c ≠ 0x6E ∧ toLower c ≠ 0x78

theorem takeNumber_of_decimalOnly {s : Bytes} (h : DecimalOnly s) (neg : Bool) :
    takeNumber neg s = (takeDecimal s).map fun (mag, rest) => .ofMag neg mag rest := by
  have hinfinity : takeWord (ascii "infinity") s = none :=
    takeWord_eq_none (w := 0x69) (by decide) fun c hc => (h c hc).1
  have hinf : takeWord (ascii "inf") s = none :=
    takeWord_eq_none (w := 0x69) (by decide) fun c hc => (h c hc).1
  have hnan : takeWord (ascii "nan") s = none :=
    takeWord_eq_none (w := 0x6E) (by decide) fun c hc => (h c hc).2.1
  have hhex : takeWord (ascii "0x") s = none :=
    takeWord_eq_none (w := 0x78) (by decide) fun c hc => (h c hc).2.2
  rw [takeNumber, hinfinity, hinf, hnan, hhex]
  cases takeDecimal s <;> rfl

theorem decimalOnly_cons {c : UInt8} {s : Bytes} : DecimalOnly (c :: s) ↔
    (toLower c ≠ 0x69 ∧ toLower c ≠ 0x6E ∧ toLower c ≠ 0x78) ∧ DecimalOnly s := List.forall_mem_cons

theorem decimalOnly_append {s t : Bytes} : DecimalOnly (s ++ t) ↔ DecimalOnly s ∧ DecimalOnly t :=
  List.forall_mem_append

/-- A digit is no letter. -/
theorem toLower_of_isDigit {c : UInt8} (h : isDigit c = true) : toLower c = c := by
  simp only [isDigit, Bool.and_eq_true, decide_eq_true_eq, UInt8.le_iff_toNat_le] at h
  rw [toLower, if_neg]
  simp only [Bool.and_eq_true, decide_eq_true_eq, UInt8.le_iff_toNat_le, not_and]
  have hlast : (0x39 : UInt8).toNat < (0x41 : UInt8).toNat := by decide
  omega

theorem decimalOnly_of_isDigit {s : Bytes} (h : ∀ c ∈ s, isDigit c = true) : DecimalOnly s := by
  intro c hc
  have hd := h c hc
  rw [toLower_of_isDigit hd]
  refine ⟨?_, ?_, ?_⟩ <;> rintro rfl <;> exact absurd hd (by decide)

theorem decimalOnly_digits {ds : List ℕ} (h : ∀ d ∈ ds, d < 10) : DecimalOnly (ds.map digitByte) :=
  decimalOnly_of_isDigit fun _ hc => isDigit_of_mem_digits h hc

theorem decimalOnly_render {t : NumText} (h : t.WellFormed) : DecimalOnly t.render := by
  intro c hc
  rcases NumText.mem_render h hc with hd | hm
  · exact decimalOnly_of_isDigit (s := [c]) (by simpa using hd) c (by simp)
  · rcases mem_numMarks.mp hm with rfl | rfl | rfl | rfl <;> decide

/-- A decimal after an optional sign. -/
theorem strtod_digits (neg : Bool) {ds : List ℕ} (hds : ∀ d ∈ ds, d < 10) (hne : ds ≠ []) {t : Bytes}
    (ht : NoDigit t) (hother : DecimalOnly t) :
    strtod ((if neg then [0x2D] else []) ++ ds.map digitByte ++ t) =
      .ofMag neg (natOfDigits ((ds.map digitByte ++ (takeFraction t).1).map digitVal) *
        (10 : ℚ) ^ ((takeExp (takeFraction t).2).1 - (takeFraction t).1.length))
        (takeExp (takeFraction t).2).2 := by
  obtain ⟨htake, hdrop⟩ := takeWhile_digits hds ht
  have hdecimal : DecimalOnly (ds.map digitByte ++ t) :=
    decimalOnly_append.mpr ⟨decimalOnly_digits hds, hother⟩
  simp only [strtod, dropWhile_isSpace_render _ hds hne, takeSign_render _ hds hne,
    takeNumber_of_decimalOnly hdecimal, takeDecimal, htake, hdrop]
  rw [if_neg (by simp [hne])]
  rfl

/-- A printed number is read completely. -/
theorem strtod_render {t : NumText} (h : t.WellFormed) : strtod t.render = .ofMag t.neg t.mag [] := by
  have htail : DecimalOnly ((if t.fp = [] then [] else 0x2E :: t.fp.map digitByte) ++
      t.exp.elim [] printExp) := by
    have hall := decimalOnly_render h
    rw [NumText.render, List.append_assoc] at hall
    exact (decimalOnly_append.mp hall).2
  rw [NumText.render, List.append_assoc, strtod_digits _ h.ip_lt h.ip_ne (noDigit_tail t) htail,
    takeFraction_tail h, takeExp_elim, ← List.map_append, map_digitVal_digitByte (by
      intro d hd
      exact (List.mem_append.mp hd).elim (h.ip_lt d) (h.fp_lt d)), List.length_map]
  rfl

/-- A decimal whose fraction may be empty after the point is read completely. -/
theorem strtod_pointed (neg : Bool) {ip fp : List ℕ} (hip : ∀ d ∈ ip, d < 10) (hne : ip ≠ [])
    (hfp : ∀ d ∈ fp, d < 10) :
    strtod ((if neg then [0x2D] else []) ++ ip.map digitByte ++ 0x2E :: fp.map digitByte) =
      .ofMag neg (natOfDigits (ip ++ fp) * (10 : ℚ) ^ (-(fp.length : ℤ))) [] := by
  obtain ⟨htake, hdrop⟩ := takeWhile_digits hfp noDigit_nil
  rw [List.append_nil] at htake hdrop
  have hfrac : takeFraction (0x2E :: fp.map digitByte) = (fp.map digitByte, []) := by
    simp [takeFraction, htake, hdrop]
  rw [strtod_digits neg hip hne (noDigit_cons (by decide))
    (decimalOnly_cons.mpr ⟨by decide, decimalOnly_digits hfp⟩), hfrac, ← List.map_append,
    map_digitVal_digitByte (by
      intro d hd
      exact (List.mem_append.mp hd).elim (hip d) (hfp d)), List.length_map]
  simp [takeExp]

end Printf
