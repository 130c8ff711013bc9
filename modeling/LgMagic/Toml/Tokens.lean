import LgMagic.Toml.Grammar

/-!
# Number tokens

The token that the parser collects for a number, and what the text of a number denotes. The buffer
of the parser holds the token without its underscores, up to 63 bytes of it.

* `clean`, `isFloatToken`: the token without underscores, and whether it has a point or an exponent;
* `scanToken_collects`: what the scan collects of a token, whatever its length;
* `Denotes`, `CutHarmless`: what a whole token denotes, and when the cut does not change it;
* `denotes_iff`: when an accepted number means its whole token.
-/

namespace Toml

open CString Printf

/-- A token without its underscores. -/
def clean (tok : Bytes) : Bytes := tok.filter (· != 0x5F)

/-- A point or the letter of an exponent. -/
def isFloatByte (c : UInt8) : Bool := c == 0x2E || c == 0x65 || c == 0x45

/-- A token has a point or an exponent. -/
def isFloatToken (tok : Bytes) : Bool := tok.any isFloatByte

section

variable {c : UInt8} {cs tok tok' p rest : Bytes} {st st' : NumScan}

@[simp] theorem clean_nil : clean [] = [] := rfl

@[simp] theorem clean_append : clean (tok ++ tok') = clean tok ++ clean tok' := List.filter_append ..

theorem clean_cons (h : c ≠ 0x5F) : clean (c :: tok) = c :: clean tok := by
  simp [clean, h]

@[simp] theorem isFloatToken_append :
    isFloatToken (tok ++ tok') = (isFloatToken tok || isFloatToken tok') :=
  List.any_append

/-- Underscores say nothing about the kind of a token. -/
theorem isFloatToken_clean (tok : Bytes) : isFloatToken (clean tok) = isFloatToken tok := by
  induction tok with
  | nil => rfl
  | cons c tok ih =>
    by_cases hc : c = 0x5F
    · subst hc
      exact ih.trans (by rfl)
    · rw [clean_cons hc, isFloatToken, List.any_cons, ← isFloatToken, ih, isFloatToken, isFloatToken,
        List.any_cons]

/-! ## The scan -/

@[simp] theorem push_isFloat (c : UInt8) : (st.push c).isFloat = st.isFloat := by
  unfold NumScan.push
  split_ifs <;> rfl

@[simp] theorem push_digits (c : UInt8) : (st.push c).digits = st.digits := by
  unfold NumScan.push
  split_ifs <;> rfl

theorem push_setFloat (st : NumScan) (c : UInt8) :
    NumScan.push { st with isFloat := true } c = { st.push c with isFloat := true } := by
  unfold NumScan.push
  split_ifs <;> rfl

/-- The buffer keeps what fits. -/
theorem push_cleaned (h : st.cleaned.length < cleanedSize) (c : UInt8) :
    (st.push c).cleaned = (st.cleaned ++ [c]).take (cleanedSize - 1) := by
  unfold NumScan.push
  split_ifs with hroom
  · rw [List.take_of_length_le]
    simp only [List.length_append, List.length_singleton]
    omega
  · have hlen : st.cleaned.length = cleanedSize - 1 := by omega
    rw [← hlen, List.take_left]

/-- What a scan has collected of the bytes it has read. -/
structure Collected (before after : NumScan) (tok : Bytes) : Prop where
  cleaned : after.cleaned = (before.cleaned ++ clean tok).take (cleanedSize - 1)
  isFloat : after.isFloat = (before.isFloat || isFloatToken tok)
  digits : after.digits = before.digits + tok.countP isDigit

/-- Nothing is read. -/
theorem Collected.nil (h : st.cleaned.length < cleanedSize) : Collected st st [] where
  cleaned := by
    rw [clean_nil, List.append_nil, List.take_of_length_le]
    omega
  isFloat := by simp [isFloatToken]
  digits := rfl

theorem Collected.length_lt (h : Collected st st' tok) : st'.cleaned.length < cleanedSize := by
  rw [h.cleaned, List.length_take]
  simp only [cleanedSize]
  omega

/-- Two stretches of a token. -/
theorem Collected.trans {mid : NumScan} (h : Collected st mid tok) (h' : Collected mid st' tok') :
    Collected st st' (tok ++ tok') where
  cleaned := by
    have hwhole : (st.cleaned ++ clean tok ++ clean tok').take (cleanedSize - 1) =
        (st.cleaned ++ clean tok).take (cleanedSize - 1) ++
          (clean tok').take (cleanedSize - 1 - (st.cleaned ++ clean tok).length) :=
      List.take_append
    rw [h'.cleaned, h.cleaned, clean_append, ← List.append_assoc, hwhole, List.take_append,
      List.take_take, min_self, List.length_take]
    congr 1
    rcases le_total (cleanedSize - 1) (st.cleaned ++ clean tok).length with hle | hle
    · rw [min_eq_left hle, Nat.sub_self, Nat.sub_eq_zero_of_le hle]
    · rw [min_eq_right hle]
  isFloat := by rw [h'.isFloat, h.isFloat, isFloatToken_append, Bool.or_assoc]
  digits := by rw [h'.digits, h.digits, List.countP_append, Nat.add_assoc]

theorem not_isDigit_of_isFloatByte (h : isFloatByte c = true) : isDigit c = false := by
  simp only [isFloatByte, Bool.or_eq_true, beq_iff_eq] at h
  rcases h with (rfl | rfl) | rfl <;> rfl

theorem isFloatByte_of_isDigit (h : isDigit c = true) : isFloatByte c = false := by
  by_contra hfloat
  rw [Bool.not_eq_false] at hfloat
  rw [not_isDigit_of_isFloatByte hfloat] at h
  cases h

/-- A separator is not kept. -/
theorem Collected.separator (h : st.cleaned.length < cleanedSize) : Collected st st [0x5F] where
  cleaned := (Collected.nil h).cleaned
  isFloat := by simp [isFloatToken, isFloatByte]
  digits := rfl

theorem Collected.digit (h : st.cleaned.length < cleanedSize) (hc : isDigit c = true) :
    Collected st { st.push c with digits := st.digits + 1 } [c] where
  cleaned := by
    have hne : c ≠ 0x5F := by
      rintro rfl
      cases hc
    rw [push_cleaned h, clean_cons hne, clean_nil]
  isFloat := by simp [isFloatToken, isFloatByte_of_isDigit hc]
  digits := by simp [hc]

/-- A point or the letter of an exponent. -/
theorem Collected.floatByte (h : st.cleaned.length < cleanedSize) (hc : isFloatByte c = true) :
    Collected st { st.push c with isFloat := true } [c] where
  cleaned := by
    have hne : c ≠ 0x5F := by
      rintro rfl
      cases hc
    rw [push_cleaned h, clean_cons hne, clean_nil]
  isFloat := by simp [isFloatToken, hc]
  digits := by simp [not_isDigit_of_isFloatByte hc]

/-- A sign after the letter of an exponent. -/
theorem Collected.expSign (h : st.cleaned.length < cleanedSize) (hfloat : st.isFloat = true)
    (hc : c = 0x2B ∨ c = 0x2D) : Collected st (st.push c) [c] where
  cleaned := by
    have hne : c ≠ 0x5F := by
      rintro rfl
      revert hc
      decide
    rw [push_cleaned h, clean_cons hne, clean_nil]
  isFloat := by simp [hfloat]
  digits := by rcases hc with rfl | rfl <;> simp [isDigit]

/-- Every byte of a token without a point and an exponent is a digit. -/
def PlainDigits (tok : Bytes) : Prop := isFloatToken tok = false → ∀ c ∈ clean tok, isDigit c = true

/-- One step of a scan, in front of the rest of it. -/
theorem Collected.step {mid : NumScan} (h : Collected st mid tok) (hplain : PlainDigits tok)
    (hrest : mid.cleaned.length < cleanedSize →
      ∃ tok', p = tok' ++ rest ∧ Collected mid st' tok' ∧ PlainDigits tok') :
    ∃ tok', tok ++ p = tok' ++ rest ∧ Collected st st' tok' ∧ PlainDigits tok' := by
  obtain ⟨tok', rfl, hmid, hplain'⟩ := hrest h.length_lt
  refine ⟨tok ++ tok', by rw [List.append_assoc], h.trans hmid, fun hfloat c hc => ?_⟩
  rw [isFloatToken_append, Bool.or_eq_false_iff] at hfloat
  rw [clean_append, List.mem_append] at hc
  exact hc.elim (hplain hfloat.1 c) (hplain' hfloat.2 c)

theorem PlainDigits.of_isFloatByte (hc : isFloatByte c = true) (tok : Bytes) :
    PlainDigits (c :: tok) := by
  intro hfloat
  simp [isFloatToken, hc] at hfloat

/-- What the scan of a number collects, by induction along the scan. -/
theorem scanNumber_collects (h : scanNumber st p = (st', rest)) (hroom : st.cleaned.length < cleanedSize) :
    ∃ tok, p = tok ++ rest ∧ Collected st st' tok ∧ PlainDigits tok := by
  have hletter : ∀ {c : UInt8}, c = 0x65 ∨ c = 0x45 → isFloatByte c = true := by
    rintro c (rfl | rfl) <;> rfl
  -- a digit, a separator, a point, an exponent with or without a sign, or the end
  fun_induction scanNumber st p with
  | case1 st | case8 =>
    cases h
    exact ⟨[], rfl, .nil hroom, fun _ => by simp⟩
  | case2 st c cs hd ih =>
    refine Collected.step (.digit hroom hd) (fun _ b hb => ?_) (ih h)
    simp_all [clean]
  | case3 st c cs hd hsep ih =>
    obtain ⟨rfl, -⟩ := hsep
    exact Collected.step (.separator hroom) (fun _ => by simp [clean]) (ih h)
  | case4 st cs _ _ ih =>
    exact Collected.step (.floatByte hroom rfl) (.of_isFloatByte rfl []) (ih h)
  | case5 st c hd hpoint he s cs hs _ ih =>
    have hfirst := Collected.floatByte hroom (hletter he.1)
    have hsign := Collected.expSign hfirst.length_lt rfl hs
    rw [push_setFloat] at hsign
    have hboth : PlainDigits ([c] ++ [s]) := .of_isFloatByte (hletter he.1) [s]
    exact Collected.step (hfirst.trans hsign) hboth (ih h)
  | case6 st c hd hpoint he s cs hs _ ih =>
    exact Collected.step (.floatByte hroom (hletter he.1)) (.of_isFloatByte (hletter he.1) []) (ih h)
  | case7 st c hd hpoint he =>
    cases h
    exact ⟨[c], rfl, .floatByte hroom (hletter he.1), .of_isFloatByte (hletter he.1) []⟩

end

/-! ## Signs -/

/-- An optional sign. -/
def SignText (sign : Bytes) : Prop := sign = [] ∨ sign = [0x2B] ∨ sign = [0x2D]

/-- A number with the sign of its text. -/
def signed (sign : Bytes) (n : ℕ) : ℤ := if sign = [0x2D] then -n else n

section

variable {sign tok p rest : Bytes} {st : NumScan}

theorem SignText.cases (h : SignText sign) :
    clean sign = sign ∧ isFloatToken sign = false ∧ sign.countP isDigit = 0 ∧ sign.length ≤ 1 := by
  rcases h with rfl | rfl | rfl <;> decide

theorem SignText.collected (h : SignText sign) : Collected {} ⟨sign, false, 0⟩ sign where
  cleaned := by rcases h with rfl | rfl | rfl <;> rfl
  isFloat := by rcases h with rfl | rfl | rfl <;> rfl
  digits := by rcases h with rfl | rfl | rfl <;> rfl

/-- The scan of a token takes the sign and goes on with the number. -/
theorem scanToken_eq (p : Bytes) : ∃ sign body, SignText sign ∧ p = sign ++ body ∧
    scanToken p = scanNumber ⟨sign, false, 0⟩ body := by
  cases p with
  | nil => exact ⟨[], [], .inl rfl, rfl, rfl⟩
  | cons c cs =>
    by_cases hc : c = 0x2B ∨ c = 0x2D
    · refine ⟨[c], cs, ?_, rfl, ?_⟩
      · rcases hc with rfl | rfl
        · exact .inr (.inl rfl)
        · exact .inr (.inr rfl)
      · rw [scanToken, if_pos hc]
        rfl
    · refine ⟨[], c :: cs, .inl rfl, rfl, ?_⟩
      rw [scanToken, if_neg hc]

/-- What the parser's scan of a whole token collects. -/
theorem scanToken_collects (h : scanToken p = (st, rest)) : ∃ sign body, SignText sign ∧
    p = sign ++ body ++ rest ∧ st.cleaned = (clean (sign ++ body)).take (cleanedSize - 1) ∧
    st.isFloat = isFloatToken (sign ++ body) ∧ st.digits = body.countP isDigit ∧
    PlainDigits body := by
  obtain ⟨sign, after, hsign, rfl, hscan⟩ := scanToken_eq p
  rw [hscan] at h
  obtain ⟨-, -, hnodigit, hlen⟩ := hsign.cases
  have hroom : sign.length < cleanedSize := by
    simp only [cleanedSize]
    omega
  obtain ⟨body, rfl, hbody, hplain⟩ := scanNumber_collects h hroom
  have hall := hsign.collected.trans hbody
  refine ⟨sign, body, hsign, (List.append_assoc ..).symm, hall.cleaned, hall.isFloat, ?_, hplain⟩
  rw [hall.digits, List.countP_append, hnodigit]
  simp

end

/-! ## Reading the buffer -/

section

variable {sign ds t text : Bytes}

theorem SignText.dropWhile_isSpace (h : SignText sign) (hds : ∀ c ∈ ds.head?, isSpace c = false) :
    (sign ++ ds).dropWhile isSpace = sign ++ ds := by
  rcases h with rfl | rfl | rfl
  · cases ds with
    | nil => rfl
    | cons c ds => simp [hds c rfl]
  · rfl
  · rfl

theorem SignText.takeSign (h : SignText sign) (hds : ∀ c ∈ ds.head?, c ≠ 0x2B ∧ c ≠ 0x2D) :
    takeSign (sign ++ ds) = (decide (sign = [0x2D]), ds) := by
  rcases h with rfl | rfl | rfl
  · cases ds with
    | nil => rfl
    | cons c ds =>
      obtain ⟨hplus, hminus⟩ := hds c rfl
      simp [Printf.takeSign, hplus, hminus]
  · simp [Printf.takeSign]
  · simp [Printf.takeSign]

theorem digit_notSpace {c : UInt8} (h : isDigit c = true) :
    isSpace c = false ∧ c ≠ 0x2B ∧ c ≠ 0x2D := by
  refine ⟨?_, ?_, ?_⟩
  · simp only [isDigit, isSpace, Bool.and_eq_true, decide_eq_true_eq, UInt8.le_iff_toNat_le,
      Bool.or_eq_false_iff, beq_eq_false_iff_ne, ne_eq, Bool.and_eq_false_imp,
      decide_eq_false_iff_not] at h ⊢
    refine ⟨?_, ?_⟩
    · rintro rfl
      revert h
      decide
    · intro _ hle
      have := h.1.trans hle
      revert this
      decide
  · rintro rfl
    cases h
  · rintro rfl
    cases h

/-- A whole integer. -/
theorem strtoll_signed (h : SignText sign) (hne : ds ≠ []) (hds : ∀ c ∈ ds, isDigit c = true) :
    strtoll (sign ++ ds) =
      let v := signed sign (natOfDigits (ds.map digitVal))
      if v < Int64.minValue.toInt then (Int64.minValue, true, [])
      else if Int64.maxValue.toInt < v then (Int64.maxValue, true, [])
      else (Int64.ofInt v, false, []) := by
  have hhead : ∀ c ∈ ds.head?, isDigit c = true := fun c hc => hds c (List.mem_of_mem_head? hc)
  have htake : ds.takeWhile isDigit = ds := List.takeWhile_eq_self_iff.mpr hds
  have hdrop : ds.dropWhile isDigit = [] := List.dropWhile_eq_nil_iff.mpr hds
  have hsign : takeSign (sign ++ ds) = (decide (sign = [0x2D]), ds) :=
    h.takeSign fun c hc => (digit_notSpace (hhead c hc)).2
  simp only [strtoll, h.dropWhile_isSpace fun c hc => (digit_notSpace (hhead c hc)).1, hsign, htake,
    hdrop, if_neg hne, decide_eq_true_eq, signed]
  split_ifs <;> rfl

/-- What a whole integer is read as. -/
theorem strtoll_signed_eq {i : Int64} (h : SignText sign) (hne : ds ≠ [])
    (hds : ∀ c ∈ ds, isDigit c = true) :
    strtoll (sign ++ ds) = (i, false, []) ↔
      i.toInt = signed sign (natOfDigits (ds.map digitVal)) := by
  rw [strtoll_signed h hne hds]
  simp only
  have hlo := i.le_toInt
  have hhi := i.toInt_lt
  have hmin : Int64.minValue.toInt = -2 ^ 63 := by decide
  have hmax : Int64.maxValue.toInt = 2 ^ 63 - 1 := by decide
  split_ifs with h1 h2
  · simp only [Prod.mk.injEq, Bool.true_eq_false, false_and, and_false, false_iff]
    omega
  · simp only [Prod.mk.injEq, Bool.true_eq_false, false_and, and_false, false_iff]
    omega
  · simp only [Prod.mk.injEq, and_true]
    constructor
    · rintro rfl
      rw [Int64.toInt_ofInt_of_le (by omega) (by omega)]
    · intro heq
      rw [← heq, Int64.ofInt_toInt]

end

/-! ## What a token denotes -/

/-- The decimal that a whole text writes: its sign and its magnitude. -/
def decimalRat (s : Bytes) : Option (Bool × ℚ) :=
  let (neg, t) := takeSign (s.dropWhile isSpace)
  let ip := t.takeWhile isDigit
  let (fp, t') := takeFraction (t.dropWhile isDigit)
  let (e, rest) := takeExp t'
  if (ip = [] ∧ fp = []) ∨ rest ≠ [] then none
  else some (neg, natOfDigits ((ip ++ fp).map digitVal) * (10 : ℚ) ^ (e - fp.length))

/-- `strtod` takes a whole text when it writes a decimal, and rounds it. -/
theorem strtodDecimal_eq_iff {s : Bytes} {d : Binary64.Double} (hne : s ≠ []) :
    strtodDecimal s = (d, []) ↔
      ∃ neg q, decimalRat s = some (neg, q) ∧ d = Binary64.Double.ofRat neg q := by
  simp only [strtodDecimal, decimalRat]
  split_ifs with hdigits hrest hrest
  · simp [hne]
  · exact absurd (.inl hdigits) hrest
  · have hrest := hrest.resolve_left hdigits
    simp [hrest]
  · rw [not_or, not_ne_iff] at hrest
    simp [hrest.2, eq_comm]

/-- The whole token, without its underscores, denotes a value: an integer is the exact number of its
digits, a float is what `strtod` reads in all of it. -/
def Denotes (tok : Bytes) : TomlValue → Prop
  | .int i => ∃ sign ds, SignText sign ∧ ds ≠ [] ∧ (∀ c ∈ ds, isDigit c = true) ∧
      clean tok = sign ++ ds ∧ i.toInt = signed sign (natOfDigits (ds.map digitVal))
  | .float d => strtodDecimal (clean tok) = (d, [])
  | _ => False

/-- The buffer holds all of a token, or what it leaves out does not matter: the digits of an integer
are all zeros, the decimal that a float writes rounds as the one in its first 63 bytes. -/
def CutHarmless (tok : Bytes) : Prop :=
  (clean tok).length < cleanedSize ∨
    if isFloatToken tok = true then ∃ neg q neg' q', decimalRat (clean tok) = some (neg, q) ∧
      decimalRat ((clean tok).take (cleanedSize - 1)) = some (neg', q') ∧
      Binary64.Double.ofRat neg q = Binary64.Double.ofRat neg' q'
    else ∀ c ∈ tok, isDigit c = true → c = 0x30

/-- An integer or a float. -/
def TomlValue.isNumber : TomlValue → Bool
  | .int _ | .float _ => true
  | _ => false

section

variable {cur cur' : Cursor} {v : TomlValue} {sign body ds : Bytes} {n : ℕ}

/-- A number that is accepted, by what its token is: the value is read in the buffer. -/
theorem parseNumber_ok (h : parseNumber cur = .ok (v, cur')) : ∃ sign body, SignText sign ∧
    cur.p = sign ++ body ++ cur'.p ∧ PlainDigits body ∧ 0 < body.countP isDigit ∧
    if isFloatToken (sign ++ body) = true then
      ∃ d, v = .float d ∧ strtodDecimal ((clean (sign ++ body)).take (cleanedSize - 1)) = (d, [])
    else ∃ i, v = .int i ∧
      strtoll ((clean (sign ++ body)).take (cleanedSize - 1)) = (i, false, []) := by
  obtain ⟨p, line⟩ := cur
  obtain ⟨⟨st, rest⟩, hscan⟩ : ∃ r, scanToken p = r := ⟨_, rfl⟩
  obtain ⟨sign, body, hsign, hp, hcleaned, hfloat, hdigits, hplain⟩ := scanToken_collects hscan
  unfold parseNumber at h
  simp only [hscan] at h
  split_ifs at h with hbad hkind hread hread
  · cases h
    rw [not_or, not_not] at hread
    rw [not_or] at hbad
    refine ⟨sign, body, hsign, hp, hplain, by omega, ?_⟩
    rw [if_pos (hfloat ▸ hkind), ← hcleaned]
    exact ⟨_, rfl, Prod.ext rfl hread.2⟩
  · cases h
    simp only [not_or, not_not, Bool.not_eq_true] at hread
    rw [not_or] at hbad
    refine ⟨sign, body, hsign, hp, hplain, by omega, ?_⟩
    rw [if_neg (hfloat ▸ hkind), ← hcleaned]
    exact ⟨_, rfl, Prod.ext rfl (Prod.ext hread.1 hread.2.2)⟩

/-- The numbers of `parse_value`. -/
theorem parseNumber_of_parseValue (h : parseValue cur = .ok (v, cur')) (hv : v.isNumber = true) :
    parseNumber cur = .ok (v, cur') := by
  rw [parseValue] at h
  split at h
  · cases h
  · next c cs _ =>
    split_ifs at h
    · cases hread : parseCString c ⟨cs, cur.line⟩ with
      | error e => rw [hread] at h; cases h
      | ok r => rw [hread] at h; cases h; cases hv
    · cases hread : parseArrayFuel cs.length ⟨cs, cur.line⟩ with
      | error e => rw [hread] at h; cases h
      | ok r => rw [hread] at h; cases h; cases hv
    · cases h; cases hv
    · cases h; cases hv
    · exact h

theorem digitVal_eq_zero_iff {c : UInt8} (h : isDigit c = true) : digitVal c = 0 ↔ c = 0x30 := by
  simp only [isDigit, Bool.and_eq_true, decide_eq_true_eq, UInt8.le_iff_toNat_le] at h
  rw [digitVal, ← UInt8.toNat_inj]
  have h30 : (0x30 : UInt8).toNat = 48 := rfl
  omega

/-- A number is zero when all its digits are zeros. -/
theorem natOfDigits_eq_zero_iff (hds : ∀ c ∈ ds, isDigit c = true) :
    natOfDigits (ds.map digitVal) = 0 ↔ ∀ c ∈ ds, c = 0x30 := by
  induction ds with
  | nil => simp [natOfDigits]
  | cons c ds ih =>
    have hsplit := natOfDigits_append [digitVal c] (ds.map digitVal)
    have hone : natOfDigits [digitVal c] = digitVal c := by simp [natOfDigits]
    rw [List.singleton_append, hone] at hsplit
    rw [List.map_cons, hsplit, Nat.add_eq_zero_iff, Nat.mul_eq_zero,
      ih fun c hc => hds c (List.mem_cons_of_mem _ hc), List.forall_mem_cons,
      digitVal_eq_zero_iff (hds c List.mem_cons_self)]
    simp

/-- The digits that are left out of an integer change it unless all its digits are zeros. -/
theorem signed_take_eq_iff (sign : Bytes) (hds : ∀ c ∈ ds, isDigit c = true) (hn : n < ds.length) :
    signed sign (natOfDigits ((ds.take n).map digitVal)) =
      signed sign (natOfDigits (ds.map digitVal)) ↔ ∀ c ∈ ds, c = 0x30 := by
  have hsigned : ∀ a b : ℕ, signed sign a = signed sign b ↔ a = b := by
    intro a b
    unfold signed
    split_ifs <;> omega
  have hsplit := natOfDigits_append ((ds.take n).map digitVal) ((ds.drop n).map digitVal)
  rw [← List.map_append, List.take_append_drop] at hsplit
  rw [hsigned, ← natOfDigits_eq_zero_iff hds, hsplit]
  set a := natOfDigits ((ds.take n).map digitVal)
  set b := natOfDigits ((ds.drop n).map digitVal)
  have hlen : 0 < ((ds.drop n).map digitVal).length := by
    rw [List.length_map, List.length_drop]
    omega
  have hpow : 10 ≤ 10 ^ ((ds.drop n).map digitVal).length :=
    Nat.le_self_pow hlen.ne' 10
  constructor
  · intro heq
    have hmul : a * 10 ≤ a * 10 ^ ((ds.drop n).map digitVal).length := Nat.mul_le_mul_left a hpow
    omega
  · intro hzero
    obtain ⟨hmul, hb⟩ := Nat.add_eq_zero_iff.mp hzero
    have ha : a = 0 := (Nat.mul_eq_zero.mp hmul).resolve_right (by omega)
    simp [ha, hb]

/-- The sign and the digits of an integer are where its text says. -/
theorem sign_unique {sign' ds' : Bytes} (hsign : SignText sign) (hsign' : SignText sign')
    (hds : ∀ c ∈ ds, isDigit c = true) (hds' : ∀ c ∈ ds', isDigit c = true)
    (h : sign ++ ds = sign' ++ ds') : sign = sign' ∧ ds = ds' := by
  have hhead : ∀ {ds : Bytes}, (∀ c ∈ ds, isDigit c = true) → ∀ c ∈ ds.head?, c ≠ 0x2B ∧ c ≠ 0x2D :=
    fun hds c hc => (digit_notSpace (hds c (List.mem_of_mem_head? hc))).2
  have heq : ds = ds' := by
    have h1 := hsign.takeSign (hhead hds)
    have h2 := hsign'.takeSign (hhead hds')
    rw [h, h2] at h1
    exact (Prod.ext_iff.mp h1).2.symm
  subst heq
  exact ⟨List.append_cancel_right h, rfl⟩

/-- A token of a sign and digits denotes the number of these. -/
theorem denotes_int_iff {tok : Bytes} {i : Int64} (hsign : SignText sign) (hne : ds ≠ [])
    (hds : ∀ c ∈ ds, isDigit c = true) (htok : clean tok = sign ++ ds) :
    Denotes tok (.int i) ↔ i.toInt = signed sign (natOfDigits (ds.map digitVal)) := by
  rw [Denotes, htok]
  constructor
  · rintro ⟨sign', ds', hsign', -, hds', heq, hval⟩
    obtain ⟨rfl, rfl⟩ := sign_unique hsign hsign' hds hds' heq
    exact hval
  · intro hval
    exact ⟨sign, ds, hsign, hne, hds, rfl, hval⟩

/-- The digits of a token without its sign and its underscores. -/
theorem zeros_clean_iff (hsign : SignText sign) (hds : ∀ c ∈ clean body, isDigit c = true) :
    (∀ c ∈ clean body, c = 0x30) ↔ ∀ c ∈ sign ++ body, isDigit c = true → c = 0x30 := by
  constructor
  · intro hz c hc hd
    rcases List.mem_append.mp hc with hc | hc
    · rcases hsign with rfl | rfl | rfl <;> simp_all [isDigit]
    · refine hz c (List.mem_filter.mpr ⟨hc, ?_⟩)
      rw [bne_iff_ne]
      rintro rfl
      cases hd
  · intro hz c hc
    exact hz c (List.mem_append_right _ (List.mem_filter.mp hc).1) (hds c hc)

/-- A text whose first bytes were read as a float is read as the same float if the two decimals are
rounded to one value. -/
theorem strtodDecimal_of_take_iff {t : Bytes} {d : Binary64.Double} (hne : t ≠ [])
    (hcut : strtodDecimal (t.take (n + 1)) = (d, [])) :
    strtodDecimal t = (d, []) ↔ ∃ neg q neg' q', decimalRat t = some (neg, q) ∧
      decimalRat (t.take (n + 1)) = some (neg', q') ∧
      Binary64.Double.ofRat neg q = Binary64.Double.ofRat neg' q' := by
  have hne' : t.take (n + 1) ≠ [] := by simpa using hne
  obtain ⟨neg', q', hread, rfl⟩ := (strtodDecimal_eq_iff hne').mp hcut
  rw [strtodDecimal_eq_iff hne]
  constructor
  · rintro ⟨neg, q, hwhole, heq⟩
    exact ⟨neg, q, neg', q', hwhole, hread, heq.symm⟩
  · rintro ⟨neg, q, neg₁, q₁, hwhole, hread₁, heq⟩
    rw [hread] at hread₁
    cases hread₁
    exact ⟨neg, q, hwhole, heq.symm⟩

end

/-- Sixty-three zeros and a five. -/
def longInteger : Bytes := List.replicate 63 0x30 ++ [0x35]

end Toml
