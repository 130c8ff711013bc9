import LgMagic.Lib.CString
import LgMagic.Lib.DecimalStability
import Mathlib.Data.Nat.Digits.Lemmas
import Mathlib.Data.List.DropRight

/-!
# Printing and reading numbers

The conversions of the C library between numbers and text: `%lld` and `%.Pg` on the one side,
`strtoll` and the decimal form of `strtod` on the other. Printing rounds to nearest with ties to
even, as reading does.

* `fmtG`, `printInt`: the texts of `%.Pg` and `%lld`;
* `strtodDecimal`, `strtoll`: reading;
* `strtodDecimal_fmtG`: reading a printed value rounds its decimal digits;
* `fmtG_strtodDecimal`: a value read from `15` printed digits prints the same text;
* `strtoll_printInt`: a printed integer reads back.
-/

namespace Printf

open CString Binary64 Rounding

/-! ## Decimal digits -/

/-- The byte of a decimal digit. -/
def digitByte (d : ℕ) : UInt8 := UInt8.ofNat (48 + d)

/-- The value of a decimal digit's byte. -/
def digitVal (c : UInt8) : ℕ := c.toNat - 48

/-- The decimal digits of a number, most significant first; zero has the one digit `0`. -/
def decDigits (n : ℕ) : List ℕ := if n = 0 then [0] else (Nat.digits 10 n).reverse

/-- The number a list of decimal digits denotes. -/
def natOfDigits (ds : List ℕ) : ℕ := ds.foldl (fun a d => 10 * a + d) 0

theorem digitByte_toNat {d : ℕ} (h : d < 10) : (digitByte d).toNat = 48 + d := by
  rw [digitByte, UInt8.toNat_ofNat_of_lt']
  show 48 + d < 256
  omega

theorem isDigit_digitByte {d : ℕ} (h : d < 10) : isDigit (digitByte d) = true := by
  simp only [isDigit, Bool.and_eq_true, decide_eq_true_eq, UInt8.le_iff_toNat_le,
    digitByte_toNat h]
  exact ⟨by show 48 ≤ _; omega, by show _ ≤ 57; omega⟩

theorem digitVal_digitByte {d : ℕ} (h : d < 10) : digitVal (digitByte d) = d := by
  rw [digitVal, digitByte_toNat h]
  omega

theorem map_digitVal_digitByte {ds : List ℕ} (h : ∀ d ∈ ds, d < 10) :
    (ds.map digitByte).map digitVal = ds := by
  rw [List.map_map]
  conv_rhs => rw [← List.map_id ds]
  exact List.map_congr_left fun d hd => digitVal_digitByte (h d hd)

theorem natOfDigits_eq_ofDigits (ds : List ℕ) : natOfDigits ds = Nat.ofDigits 10 ds.reverse := by
  induction ds using List.reverseRecOn with
  | nil => rfl
  | append_singleton ds d ih =>
    rw [List.reverse_append]
    simp only [List.reverse_cons, List.reverse_nil, List.nil_append, List.singleton_append,
      Nat.ofDigits_cons, ← ih]
    simp [natOfDigits, List.foldl_append, Nat.add_comm]

theorem natOfDigits_append (as bs : List ℕ) :
    natOfDigits (as ++ bs) = natOfDigits as * 10 ^ bs.length + natOfDigits bs := by
  simp only [natOfDigits_eq_ofDigits, List.reverse_append, Nat.ofDigits_append,
    List.length_reverse]
  ring

@[simp]
theorem natOfDigits_replicate_zero (n : ℕ) : natOfDigits (List.replicate n 0) = 0 := by
  induction n with
  | zero => rfl
  | succ n ih => simpa [List.replicate_succ, natOfDigits] using ih

theorem decDigits_lt {n d : ℕ} (h : d ∈ decDigits n) : d < 10 := by
  unfold decDigits at h
  split_ifs at h
  · simp at h
    omega
  · exact Nat.digits_lt_base (by norm_num) (List.mem_reverse.mp h)

theorem decDigits_ne_nil (n : ℕ) : decDigits n ≠ [] := by
  unfold decDigits
  split_ifs with h
  · simp
  · simpa using Nat.digits_ne_nil_iff_ne_zero.mpr h

@[simp]
theorem natOfDigits_decDigits (n : ℕ) : natOfDigits (decDigits n) = n := by
  unfold decDigits
  split_ifs with h
  · rw [h]; rfl
  · rw [natOfDigits_eq_ofDigits, List.reverse_reverse, Nat.ofDigits_digits]

/-- A number between two powers of ten has as many digits. -/
theorem decDigits_length {n k : ℕ} (hlo : 10 ^ k ≤ n) (hhi : n < 10 ^ (k + 1)) :
    (decDigits n).length = k + 1 := by
  have hn : n ≠ 0 := by
    have : 0 < 10 ^ k := by positivity
    omega
  rw [decDigits, if_neg hn, List.length_reverse]
  refine le_antisymm ?_ ?_
  · exact Nat.digits_length_le_iff (by norm_num) n |>.mpr hhi
  · by_contra hlt
    have : (Nat.digits 10 n).length ≤ k := by omega
    have := (Nat.digits_length_le_iff (by norm_num) n).mp this
    omega

/-! ## Integers -/

/-- The text of `%lld`. -/
def printInt (i : ℤ) : Bytes :=
  (if i < 0 then [0x2D] else []) ++ (decDigits i.natAbs).map digitByte

/-- Split off an optional sign; the flag is set by a minus. -/
def takeSign : Bytes → Bool × Bytes
  | c :: cs => if c == 0x2D then (true, cs) else if c == 0x2B then (false, cs) else (false, c :: cs)
  | [] => (false, [])

/-- `strtoll` in base ten: the value, whether it was out of range (`ERANGE`) and the unread rest,
which is the whole input when there is no number. -/
def strtoll (s : Bytes) : Int64 × Bool × Bytes :=
  let (neg, t) := takeSign (s.dropWhile isSpace)
  let ds := t.takeWhile isDigit
  if ds = [] then (0, false, s)
  else
    let n : ℕ := natOfDigits (ds.map digitVal)
    let v : ℤ := if neg then -n else n
    if v < Int64.minValue.toInt then (Int64.minValue, true, t.dropWhile isDigit)
    else if Int64.maxValue.toInt < v then (Int64.maxValue, true, t.dropWhile isDigit)
    else (Int64.ofInt v, false, t.dropWhile isDigit)

/-! ## Texts of `%.Pg` -/

/-- The parts of a printed number. -/
structure NumText where
  /-- The sign is printed. -/
  neg : Bool
  /-- The digits before the point. -/
  ip : List ℕ
  /-- The digits after the point; the point is printed only when there are some. -/
  fp : List ℕ
  /-- The printed exponent. -/
  exp : Option ℤ

/-- An exponent is printed with its sign and at least two digits. -/
def printExp (e : ℤ) : Bytes :=
  [0x65, if e < 0 then 0x2D else 0x2B] ++
    (if e.natAbs < 10 then [0x30] else []) ++ (decDigits e.natAbs).map digitByte

/-- The printed bytes. -/
def NumText.render (t : NumText) : Bytes :=
  (if t.neg then [0x2D] else []) ++ t.ip.map digitByte ++
    (if t.fp = [] then [] else 0x2E :: t.fp.map digitByte) ++ (t.exp.elim [] printExp)

/-- The magnitude the digits denote. -/
def NumText.mag (t : NumText) : ℚ :=
  natOfDigits (t.ip ++ t.fp) * (10 : ℚ) ^ (t.exp.getD 0 - t.fp.length)

/-- Without the zeros at the end. -/
def stripZeros (ds : List ℕ) : List ℕ := ds.rdropWhile (· == 0)

/-- The parts `%.Pg` prints for a significand of `P` digits: the plain form when the exponent of
the leading digit is at least `-4` and below `P`, else the form with an exponent; the zeros at the
end of the fraction are left out in both. -/
def gText (P : ℕ) (neg : Bool) (s : Sig) : NumText :=
  let ds := decDigits s.m
  let X : ℤ := s.e + (P - 1 : ℕ)
  if X < -4 ∨ (P : ℤ) ≤ X then ⟨neg, ds.take 1, stripZeros (ds.drop 1), some X⟩
  else if 0 ≤ X then ⟨neg, ds.take (X.toNat + 1), stripZeros (ds.drop (X.toNat + 1)), none⟩
  else ⟨neg, [0], stripZeros (List.replicate ((-X).toNat - 1) 0 ++ ds), none⟩

/-- The text of `%.Pg`. -/
def fmtG (P : ℕ) : Double → Bytes
  | .nan => ascii "nan"
  | .inf neg => (if neg then [0x2D] else []) ++ ascii "inf"
  | .finite x =>
    if x.m = 0 then (NumText.mk x.neg [0] [] none).render
    else (gText P x.neg (leadSig 10 P x.mag)).render

/-! ## Reading a decimal -/

/-- The exponent part of a decimal and the rest after it; without digits there is none. -/
def takeExp (t : Bytes) : ℤ × Bytes :=
  match t with
  | c :: cs =>
    if c == 0x65 || c == 0x45 then
      let (neg, r) := takeSign cs
      let ds := r.takeWhile isDigit
      if ds = [] then (0, t)
      else
        let n : ℕ := natOfDigits (ds.map digitVal)
        (if neg then -n else n, r.dropWhile isDigit)
    else (0, t)
  | [] => (0, [])

/-- The digits after a point and the rest after them. -/
def takeFraction (t : Bytes) : Bytes × Bytes :=
  match t with
  | c :: cs => if c == 0x2E then (cs.takeWhile isDigit, cs.dropWhile isDigit) else ([], t)
  | [] => ([], [])

/-- `strtod` on a text that holds only signs, digits, points and exponent letters, where the
decimal form is the only one of its forms: the value and the unread rest, which is the whole
input when there is no number. -/
def strtodDecimal (s : Bytes) : Double × Bytes :=
  let (neg, t) := takeSign (s.dropWhile isSpace)
  let ip := t.takeWhile isDigit
  let (fp, t') := takeFraction (t.dropWhile isDigit)
  if ip = [] ∧ fp = [] then (.zero false, s)
  else
    let (e, rest) := takeExp t'
    (.ofRat neg (natOfDigits ((ip ++ fp).map digitVal) * (10 : ℚ) ^ (e - fp.length)), rest)

theorem strtodDecimal_ne_nan (s : Bytes) : (strtodDecimal s).1 ≠ .nan := by
  simp only [strtodDecimal]
  split_ifs
  · simp [Double.zero]
  · exact Double.ofRat_ne_nan _ _

/-! ## Text after a number -/

/-- The text starts with no byte that could go on with a number. -/
def EndsDecimal (t : Bytes) : Prop :=
  ∀ c ∈ t.head?, isDigit c = false ∧ c ≠ 0x2B ∧ c ≠ 0x2D ∧ c ≠ 0x2E ∧ c ≠ 0x65 ∧ c ≠ 0x45

/-- What follows with another byte does not change the bytes that a scan takes. -/
theorem span_append {t : Bytes} (p : UInt8 → Bool) (hp : ∀ c ∈ t.head?, p c = false) (u : Bytes) :
    (u ++ t).takeWhile p = u.takeWhile p ∧ (u ++ t).dropWhile p = u.dropWhile p ++ t := by
  induction u with
  | nil =>
    cases t with
    | nil => simp
    | cons c t => simp [hp c rfl]
  | cons c u ih =>
    cases hc : p c with
    | true => simp [hc, ih]
    | false => simp [hc]

section

variable {t : Bytes} (ht : EndsDecimal t)
include ht

theorem takeSign_append (u : Bytes) :
    takeSign (u ++ t) = ((takeSign u).1, (takeSign u).2 ++ t) := by
  cases u with
  | nil =>
    cases t with
    | nil => rfl
    | cons c t =>
      obtain ⟨-, hplus, hminus, -⟩ := ht c rfl
      simp [takeSign, hplus, hminus]
  | cons c u =>
    simp only [List.cons_append, takeSign]
    split_ifs <;> rfl

theorem takeFraction_append (u : Bytes) :
    takeFraction (u ++ t) = ((takeFraction u).1, (takeFraction u).2 ++ t) := by
  cases u with
  | nil =>
    cases t with
    | nil => rfl
    | cons c t =>
      obtain ⟨-, -, -, hpoint, -⟩ := ht c rfl
      simp [takeFraction, hpoint]
  | cons c u =>
    obtain ⟨htake, hdrop⟩ := span_append isDigit (fun c hc => (ht c hc).1) u
    simp only [List.cons_append, takeFraction, htake, hdrop]
    split_ifs <;> rfl

theorem takeExp_append (u : Bytes) : takeExp (u ++ t) = ((takeExp u).1, (takeExp u).2 ++ t) := by
  cases u with
  | nil =>
    cases t with
    | nil => rfl
    | cons c t =>
      obtain ⟨-, -, -, -, he, hE⟩ := ht c rfl
      simp [takeExp, he, hE]
  | cons c u =>
    obtain ⟨htake, hdrop⟩ := span_append isDigit (fun c hc => (ht c hc).1) (takeSign u).2
    simp only [List.cons_append, takeExp, takeSign_append ht, htake, hdrop]
    split_ifs <;> rfl

/-- `strtod` leaves what follows a number alone. -/
theorem strtodDecimal_append {c : UInt8} (hc : isSpace c = false) (u : Bytes) :
    strtodDecimal (c :: u ++ t) =
      ((strtodDecimal (c :: u)).1, (strtodDecimal (c :: u)).2 ++ t) := by
  obtain ⟨htake, hdrop⟩ := span_append isDigit (fun c hc => (ht c hc).1) (takeSign (c :: u)).2
  have hspace : (c :: u).dropWhile isSpace = c :: u := by simp [hc]
  have hspace' : (c :: u ++ t).dropWhile isSpace = c :: u ++ t := by simp [hc]
  simp only [strtodDecimal, hspace, hspace', takeSign_append ht, htake, hdrop,
    takeFraction_append ht, takeExp_append ht]
  split_ifs <;> rfl

end

/-! ## Reading what was printed -/

/-- A text starts with no digit. -/
def NoDigit (t : Bytes) : Prop := ∀ c ∈ t.head?, isDigit c = false

theorem noDigit_nil : NoDigit [] := by simp [NoDigit]

theorem noDigit_cons {c : UInt8} {cs : Bytes} (h : isDigit c = false) : NoDigit (c :: cs) := by
  simpa [NoDigit] using h

/-- The digits of a number followed by something else are taken, and only they. -/
theorem takeWhile_digits {ds : List ℕ} (h : ∀ d ∈ ds, d < 10) {t : Bytes} (ht : NoDigit t) :
    (ds.map digitByte ++ t).takeWhile isDigit = ds.map digitByte ∧
      (ds.map digitByte ++ t).dropWhile isDigit = t := by
  have hds : ∀ c ∈ ds.map digitByte, isDigit c = true := by
    intro c hc
    obtain ⟨d, hd, rfl⟩ := List.mem_map.mp hc
    exact isDigit_digitByte (h d hd)
  rw [List.takeWhile_append_of_pos hds, List.dropWhile_append_of_pos hds]
  cases t with
  | nil => simp
  | cons c cs =>
    have hc : isDigit c = false := ht c (by simp)
    simp [hc]

/-- The head of a printed number is not a sign. -/
theorem takeSign_digits {ds : List ℕ} (h : ∀ d ∈ ds, d < 10) (hne : ds ≠ []) (t : Bytes) :
    takeSign (ds.map digitByte ++ t) = (false, ds.map digitByte ++ t) := by
  cases ds with
  | nil => exact absurd rfl hne
  | cons d ds =>
    have hd := digitByte_toNat (h d (by simp))
    have h1 : digitByte d ≠ 0x2D := by
      intro he; rw [he] at hd; change 45 = _ at hd; omega
    have h2 : digitByte d ≠ 0x2B := by
      intro he; rw [he] at hd; change 43 = _ at hd; omega
    simp [takeSign, h1, h2]

/-- An optional minus in front of digits is read back. -/
theorem takeSign_render (neg : Bool) {ds : List ℕ} (h : ∀ d ∈ ds, d < 10) (hne : ds ≠ [])
    (t : Bytes) :
    takeSign ((if neg then [0x2D] else []) ++ ds.map digitByte ++ t) =
      (neg, ds.map digitByte ++ t) := by
  cases neg with
  | true => simp [takeSign]
  | false => simpa using takeSign_digits h hne t

/-- A printed number starts with no white space. -/
theorem dropWhile_isSpace_render (neg : Bool) {ds : List ℕ} (h : ∀ d ∈ ds, d < 10) (hne : ds ≠ [])
    (t : Bytes) :
    ((if neg then [0x2D] else []) ++ ds.map digitByte ++ t).dropWhile isSpace =
      (if neg then [0x2D] else []) ++ ds.map digitByte ++ t := by
  cases neg with
  | true => simp [isSpace]
  | false =>
    cases ds with
    | nil => exact absurd rfl hne
    | cons d ds =>
      have hs : isSpace (digitByte d) = false := by
        have hd := h d (by simp)
        interval_cases d <;> decide
      simp [hs]

/-- An integer of the range is printed and read back, whatever other text follows it. -/
theorem strtoll_printInt (i : Int64) {t : Bytes} (ht : NoDigit t) :
    strtoll (printInt i.toInt ++ t) = (i, false, t) := by
  have hds : ∀ d ∈ decDigits i.toInt.natAbs, d < 10 := fun d => decDigits_lt
  have hne := decDigits_ne_nil i.toInt.natAbs
  have hneg : (if i.toInt < 0 then [(0x2D : UInt8)] else []) =
      if decide (i.toInt < 0) then [0x2D] else [] := by simp
  obtain ⟨htake, hdrop⟩ := takeWhile_digits hds ht
  have hval : (if decide (i.toInt < 0) then -((i.toInt.natAbs : ℕ) : ℤ) else i.toInt.natAbs)
      = i.toInt := by
    split_ifs with h <;> simp only [decide_eq_true_eq] at h <;> omega
  have hmin := i.minValue_le_toInt
  have hmax := i.toInt_le
  simp only [strtoll, printInt, hneg, dropWhile_isSpace_render _ hds hne,
    takeSign_render _ hds hne, htake, hdrop, map_digitVal_digitByte hds, natOfDigits_decDigits,
    List.map_eq_nil_iff, hne, if_false, hval, not_lt.mpr hmin, not_lt.mpr hmax]
  simp

/-- The digits before and after the point are decimal digits, and there are some before it. -/
structure NumText.WellFormed (t : NumText) : Prop where
  ip_ne : t.ip ≠ []
  ip_lt : ∀ d ∈ t.ip, d < 10
  fp_lt : ∀ d ∈ t.fp, d < 10

/-- The digits of a printed exponent. -/
def expDigits (e : ℤ) : List ℕ := (if e.natAbs < 10 then [0] else []) ++ decDigits e.natAbs

theorem expDigits_lt {e : ℤ} {d : ℕ} (h : d ∈ expDigits e) : d < 10 := by
  rcases List.mem_append.mp h with h | h
  · split_ifs at h <;> simp_all
  · exact decDigits_lt h

theorem printExp_eq (e : ℤ) :
    printExp e = 0x65 :: (if e < 0 then 0x2D else 0x2B) :: (expDigits e).map digitByte := by
  have h0 : digitByte 0 = 0x30 := rfl
  rw [expDigits, printExp]
  split_ifs <;> simp [h0]

theorem takeExp_printExp (e : ℤ) : takeExp (printExp e) = (e, []) := by
  have hlt : ∀ d ∈ expDigits e, d < 10 := fun d => expDigits_lt
  have hne : expDigits e ≠ [] := by simp [expDigits, decDigits_ne_nil]
  have hnum : natOfDigits (expDigits e) = e.natAbs := by
    rw [expDigits, natOfDigits_append, natOfDigits_decDigits]
    split_ifs <;> simp [natOfDigits]
  have htake := takeWhile_digits hlt noDigit_nil
  rw [List.append_nil] at htake
  have hsign : takeSign ((if e < 0 then 0x2D else 0x2B) :: (expDigits e).map digitByte) =
      (decide (e < 0), (expDigits e).map digitByte) := by
    by_cases h : e < 0 <;> simp [takeSign, h]
  simp only [takeExp, printExp_eq, hsign, htake, map_digitVal_digitByte hlt, hnum]
  rw [if_pos (by decide), if_neg (by simpa using hne)]
  split_ifs with h <;> simp only [decide_eq_true_eq] at h
  · rw [show -((e.natAbs : ℕ) : ℤ) = e by omega]
  · rw [show ((e.natAbs : ℕ) : ℤ) = e by omega]

/-- The text of the parts after the digits before the point starts with no digit. -/
theorem noDigit_tail (t : NumText) :
    NoDigit ((if t.fp = [] then [] else 0x2E :: t.fp.map digitByte) ++ t.exp.elim [] printExp) := by
  by_cases hf : t.fp = []
  · cases he : t.exp with
    | none => simpa [hf] using noDigit_nil
    | some e => simpa [hf, printExp] using noDigit_cons (by decide)
  · simpa [hf] using noDigit_cons (by decide)

theorem noDigit_exp (exp : Option ℤ) : NoDigit (exp.elim [] printExp) := by
  cases exp with
  | none => exact noDigit_nil
  | some e => exact noDigit_cons (by decide)

theorem takeExp_elim (exp : Option ℤ) :
    takeExp (exp.elim [] printExp) = (exp.getD 0, []) := by
  cases exp with
  | none => rfl
  | some e => exact takeExp_printExp e

theorem takeFraction_tail {t : NumText} (h : t.WellFormed) :
    takeFraction ((if t.fp = [] then [] else 0x2E :: t.fp.map digitByte) ++
      t.exp.elim [] printExp) = (t.fp.map digitByte, t.exp.elim [] printExp) := by
  by_cases hf : t.fp = []
  · cases he : t.exp with
    | none => simp [hf, takeFraction]
    | some e => simp [hf, takeFraction, printExp]
  · obtain ⟨htake, hdrop⟩ := takeWhile_digits h.fp_lt (noDigit_exp t.exp)
    simp [hf, takeFraction, htake, hdrop]

/-- Reading a printed number gives the value of its digits, and reads all of it. -/
theorem strtodDecimal_render {t : NumText} (h : t.WellFormed) :
    strtodDecimal t.render = (.ofRat t.neg t.mag, []) := by
  obtain ⟨htake, hdrop⟩ := takeWhile_digits h.ip_lt (noDigit_tail t)
  rw [NumText.render, List.append_assoc]
  simp only [strtodDecimal, dropWhile_isSpace_render _ h.ip_lt h.ip_ne,
    takeSign_render _ h.ip_lt h.ip_ne, htake, hdrop, takeFraction_tail h, takeExp_elim]
  rw [if_neg (by simp [h.ip_ne]), ← List.map_append,
    map_digitVal_digitByte (by
      intro d hd
      exact (List.mem_append.mp hd).elim (h.ip_lt d) (h.fp_lt d)), List.length_map]
  rfl

/-! ## The value of the text of `%.Pg` -/

theorem stripZeros_append (ds : List ℕ) :
    stripZeros ds ++ List.replicate (ds.length - (stripZeros ds).length) 0 = ds := by
  have happ : stripZeros ds ++ ds.rtakeWhile (· == 0) = ds := List.rdropWhile_append_rtakeWhile
  have hlen := congrArg List.length happ
  rw [List.length_append] at hlen
  have hzero : ds.rtakeWhile (· == 0) =
      List.replicate (ds.length - (stripZeros ds).length) 0 := by
    refine List.eq_replicate_iff.mpr ⟨by omega, fun d hd => ?_⟩
    simpa using List.mem_rtakeWhile_imp hd
  rw [← hzero, happ]

theorem mem_of_mem_stripZeros {ds : List ℕ} {d : ℕ} (h : d ∈ stripZeros ds) : d ∈ ds :=
  (List.rdropWhile_prefix _ ds).subset h

/-- Zeros at the end of a fraction do not count. -/
theorem mag_stripZeros (as bs : List ℕ) (e : ℤ) :
    natOfDigits (as ++ stripZeros bs) * (10 : ℚ) ^ (e - (stripZeros bs).length) =
      natOfDigits (as ++ bs) * (10 : ℚ) ^ (e - bs.length) := by
  set k := bs.length - (stripZeros bs).length with hk
  have hle : (stripZeros bs).length ≤ bs.length := (List.rdropWhile_prefix _ bs).length_le
  have hbs := stripZeros_append bs
  have hexp : e - (stripZeros bs).length = (k : ℤ) + (e - bs.length) := by omega
  rw [hexp, zpow_add₀ (by norm_num)]
  conv_rhs => rw [← hbs, ← List.append_assoc, natOfDigits_append]
  simp only [natOfDigits_replicate_zero, List.length_replicate]
  push_cast
  rw [zpow_natCast, hk, hbs]
  ring

section

variable {P : ℕ} {s : Sig}

theorem gText_wellFormed (neg : Bool) : (gText P neg s).WellFormed := by
  have hds : ∀ d ∈ decDigits s.m, d < 10 := fun d => decDigits_lt
  have hne := decDigits_ne_nil s.m
  unfold gText
  simp only
  split_ifs
  · refine ⟨by simpa using hne, fun d hd => hds d (List.mem_of_mem_take hd), fun d hd => ?_⟩
    exact hds d (List.mem_of_mem_drop (mem_of_mem_stripZeros hd))
  · refine ⟨by simpa using hne, fun d hd => hds d (List.mem_of_mem_take hd), fun d hd => ?_⟩
    exact hds d (List.mem_of_mem_drop (mem_of_mem_stripZeros hd))
  · refine ⟨by simp, by simp, fun d hd => ?_⟩
    rcases List.mem_append.mp (mem_of_mem_stripZeros hd) with h | h
    · rw [List.eq_of_mem_replicate h]; norm_num
    · exact hds d h

/-- The sign is printed. -/
theorem gText_neg (neg : Bool) : (gText P neg s).neg = neg := by
  unfold gText
  simp only
  split_ifs <;> rfl

/-- The printed text of a full significand denotes the significand's value. -/
theorem gText_mag (neg : Bool) (hP : 0 < P) (hlo : 10 ^ (P - 1) ≤ s.m) (hhi : s.m < 10 ^ P) :
    (gText P neg s).mag = s.val 10 := by
  have hlen : (decDigits s.m).length = P := by
    have := decDigits_length hlo (by rwa [Nat.sub_add_cancel hP])
    omega
  have hval : s.val 10 = s.m * (10 : ℚ) ^ s.e := by rw [Sig.val]; norm_num
  unfold gText
  simp only
  -- with an exponent, with digits before the point, or with zeros after it
  split_ifs with h1 h2
  · rw [NumText.mag, Option.getD_some]
    simp only
    rw [mag_stripZeros, List.take_append_drop, natOfDigits_decDigits, List.length_drop, hlen, hval,
      add_sub_cancel_right]
  · rw [NumText.mag, Option.getD_none]
    simp only
    rw [mag_stripZeros, List.take_append_drop, natOfDigits_decDigits, List.length_drop, hlen, hval]
    congr 2
    omega
  · rw [NumText.mag, Option.getD_none]
    simp only
    rw [mag_stripZeros, natOfDigits_append, natOfDigits_append, natOfDigits_replicate_zero,
      natOfDigits_decDigits, List.length_append, List.length_replicate, hlen, hval]
    have : natOfDigits [0] = 0 := rfl
    rw [this]
    congr 2
    · simp
    · omega

end

/-! ## The length of the text -/

theorem decDigits_length_le {n k : ℕ} (h : n < 10 ^ (k + 1)) : (decDigits n).length ≤ k + 1 := by
  unfold decDigits
  split_ifs with hn
  · simp
  · rw [List.length_reverse]
    exact (Nat.digits_length_le_iff (by norm_num) n).mpr h

theorem stripZeros_length_le (ds : List ℕ) : (stripZeros ds).length ≤ ds.length :=
  (List.rdropWhile_prefix _ ds).length_le

theorem expDigits_length_le {e : ℤ} (h : e.natAbs < 10 ^ 4) : (expDigits e).length ≤ 4 := by
  rw [expDigits, List.length_append]
  split_ifs with h1
  · have := decDigits_length_le (n := e.natAbs) (k := 0) (by omega)
    rw [List.length_singleton]
    omega
  · simpa using decDigits_length_le h

theorem NumText.render_length_le (t : NumText) (hexp : ∀ e ∈ t.exp, e.natAbs < 10 ^ 4) :
    t.render.length ≤ t.ip.length + t.fp.length + 8 := by
  have hneg : (if t.neg then [(0x2D : UInt8)] else []).length ≤ 1 := by split_ifs <;> simp
  have hfp : (if t.fp = [] then [] else 0x2E :: t.fp.map digitByte).length ≤ t.fp.length + 1 := by
    split_ifs <;> simp
  have htail : (t.exp.elim [] printExp).length ≤ 6 := by
    cases h : t.exp with
    | none => simp
    | some e =>
      have := expDigits_length_le (hexp e h)
      simp only [Option.elim_some, printExp_eq, List.length_cons, List.length_map]
      omega
  simp only [NumText.render, List.length_append, List.length_map]
  omega

/-- The text of a significand is short when its exponent is not far out. -/
theorem gText_length_le {P : ℕ} {s : Sig} (neg : Bool) (hm : s.m < 10 ^ P) (hP : 0 < P)
    (hX : (s.e + (P - 1 : ℕ)).natAbs < 10 ^ 4) : (gText P neg s).render.length ≤ P + 12 := by
  have hlen : (decDigits s.m).length ≤ P := by
    have := decDigits_length_le (n := s.m) (k := P - 1) (by rwa [Nat.sub_add_cancel hP])
    omega
  unfold gText
  simp only
  split_ifs with h1 h2
  · refine (NumText.render_length_le _ (by simpa using hX)).trans ?_
    have := stripZeros_length_le ((decDigits s.m).drop 1)
    simp only [List.length_take, List.length_drop] at this ⊢
    omega
  · refine (NumText.render_length_le _ (by simp)).trans ?_
    have := stripZeros_length_le ((decDigits s.m).drop ((s.e + (P - 1 : ℕ)).toNat + 1))
    simp only [List.length_take, List.length_drop] at this ⊢
    omega
  · refine (NumText.render_length_le _ (by simp)).trans ?_
    have := stripZeros_length_le
      (List.replicate ((-(s.e + (P - 1 : ℕ))).toNat - 1) 0 ++ decDigits s.m)
    simp only [List.length_append, List.length_replicate, List.length_singleton] at this ⊢
    omega

private theorem zpow_ten_le_zpow_two (n : ℕ) : (10 : ℚ) ^ (-(n : ℤ)) ≤ (2 : ℚ) ^ (-(n : ℤ)) := by
  rw [zpow_neg, zpow_neg, zpow_natCast, zpow_natCast]
  exact inv_anti₀ (by positivity) (pow_le_pow_left₀ (by norm_num) (by norm_num) n)

private theorem zpow_two_le_zpow_ten {z : ℤ} {n : ℕ} (h : z ≤ n) :
    (2 : ℚ) ^ z ≤ (10 : ℚ) ^ (n : ℤ) := by
  refine (zpow_le_zpow_right₀ (by norm_num) h).trans ?_
  rw [zpow_natCast, zpow_natCast]
  exact pow_le_pow_left₀ (by norm_num) (by norm_num) n

theorem mag_pos {x : Finite} (hx : x.m ≠ 0) : 0 < x.mag := by
  have : (0 : ℚ) < x.m := by exact_mod_cast Nat.pos_of_ne_zero hx
  rw [Finite.mag]
  positivity

/-- The decimal exponent of a finite value. -/
theorem log_mag_bounds {x : Finite} (hx : x.m ≠ 0) :
    -1074 ≤ Int.log 10 x.mag ∧ Int.log 10 x.mag < 1024 := by
  have hpos := mag_pos hx
  constructor
  · refine (Int.zpow_le_iff_le_log (by norm_num) hpos).mp ?_
    have hm : (1 : ℚ) ≤ x.m := by exact_mod_cast Nat.one_le_iff_ne_zero.mpr hx
    have hle : (2 : ℚ) ^ (-((1074 : ℕ) : ℤ)) ≤ x.mag := by
      refine le_trans (zpow_le_zpow_right₀ (by norm_num) ?_)
        (le_mul_of_one_le_left (by positivity) hm)
      exact x.e_min
    exact (zpow_ten_le_zpow_two 1074).trans hle
  · refine (Int.lt_zpow_iff_log_lt (by norm_num) hpos).mp ?_
    refine lt_of_lt_of_le x.mag_lt (zpow_two_le_zpow_ten (n := 1024) ?_)
    have := x.e_max
    push_cast
    omega

/-- The text of a finite value is a short well-formed number. -/
theorem fmtG_numText {P : ℕ} (hP : 0 < P) (x : Finite) :
    ∃ t : NumText, t.WellFormed ∧ t.render.length ≤ P + 12 ∧ fmtG P (.finite x) = t.render := by
  by_cases hx : x.m = 0
  · refine ⟨⟨x.neg, [0], [], none⟩, ⟨by simp, by simp, by simp⟩, ?_, by rw [fmtG, if_pos hx]⟩
    cases x.neg <;> simp [NumText.render]
  · refine ⟨gText P x.neg (leadSig 10 P x.mag), gText_wellFormed _, ?_, by rw [fmtG, if_neg hx]⟩
    refine gText_length_le _ (leadSig_m_lt (by norm_num) hP) hP ?_
    obtain ⟨hlo, hhi⟩ := log_mag_bounds hx
    rcases roundSig_e 10 P (Int.log 10 x.mag - (P - 1 : ℕ)) x.mag with he | ⟨he, -⟩ <;>
      rw [leadSig, he] <;> omega

/-! ## The bytes of the text -/

/-- The bytes of a printed number that are no digits. -/
def numMarks : Bytes := [0x2E, 0x65, 0x2B, 0x2D]

theorem mem_numMarks {c : UInt8} :
    c ∈ numMarks ↔ c = 0x2E ∨ c = 0x65 ∨ c = 0x2B ∨ c = 0x2D := by
  simp [numMarks]

theorem isDigit_of_mem_digits {ds : List ℕ} (h : ∀ d ∈ ds, d < 10) {c : UInt8}
    (hc : c ∈ ds.map digitByte) : isDigit c = true := by
  obtain ⟨d, hd, rfl⟩ := List.mem_map.mp hc
  exact isDigit_digitByte (h d hd)

/-- A printed number has only digits and marks. -/
theorem NumText.mem_render {t : NumText} (h : t.WellFormed) {c : UInt8} (hc : c ∈ t.render) :
    isDigit c = true ∨ c ∈ numMarks := by
  simp only [render, List.mem_append] at hc
  rcases hc with ((hc | hc) | hc) | hc
  · split_ifs at hc
    · exact .inr (by rw [List.mem_singleton.mp hc]; decide)
    · exact absurd hc List.not_mem_nil
  · exact .inl (isDigit_of_mem_digits h.ip_lt hc)
  · split_ifs at hc
    · exact absurd hc List.not_mem_nil
    · rcases List.mem_cons.mp hc with rfl | hc
      · exact .inr (by decide)
      · exact .inl (isDigit_of_mem_digits h.fp_lt hc)
  · cases hexp : t.exp with
    | none => simp [hexp] at hc
    | some e =>
      rw [hexp, Option.elim_some, printExp_eq, List.mem_cons, List.mem_cons] at hc
      rcases hc with rfl | rfl | hc
      · exact .inr (by decide)
      · exact .inr (by split_ifs <;> decide)
      · exact .inl (isDigit_of_mem_digits (fun d => expDigits_lt) hc)

/-- A printed integer has only digits and a minus. -/
theorem mem_printInt {i : ℤ} {c : UInt8} (hc : c ∈ printInt i) :
    isDigit c = true ∨ c ∈ numMarks := by
  rw [printInt, List.mem_append] at hc
  rcases hc with hc | hc
  · split_ifs at hc
    · exact .inr (by rw [List.mem_singleton.mp hc]; decide)
    · exact absurd hc List.not_mem_nil
  · exact .inl (isDigit_of_mem_digits (fun d => decDigits_lt) hc)

/-- A byte that is neither a digit nor a mark is not in a printed number. -/
theorem NumText.notMem_render {t : NumText} (h : t.WellFormed) {c : UInt8} (hd : isDigit c = false)
    (hm : c ∉ numMarks) : c ∉ t.render := fun hc =>
  (mem_render h hc).elim (fun hdigit => by simp [hd] at hdigit) hm

theorem notMem_printInt {c : UInt8} (hd : isDigit c = false) (hm : c ∉ numMarks) (i : ℤ) :
    c ∉ printInt i := fun hc =>
  (mem_printInt hc).elim (fun hdigit => by simp [hd] at hdigit) hm

theorem zero_notMem_printInt (i : ℤ) : (0 : UInt8) ∉ printInt i :=
  notMem_printInt (by decide) (by decide) i

theorem NumText.zero_notMem_render {t : NumText} (h : t.WellFormed) : (0 : UInt8) ∉ t.render :=
  notMem_render h (by decide) (by decide)

theorem zero_notMem_fmtG (d : Double) : (0 : UInt8) ∉ fmtG 15 d := by
  match d with
  | .nan => decide
  | .inf true | .inf false => decide
  | .finite x =>
    obtain ⟨t, hwf, -, htext⟩ := fmtG_numText (P := 15) (by norm_num) x
    exact htext ▸ t.zero_notMem_render hwf

/-! ## Printing and reading a double -/

theorem fmtG_finite {P : ℕ} {x : Finite} (hx : x.m ≠ 0) :
    fmtG P (.finite x) = (gText P x.neg (leadSig 10 P x.mag)).render := by
  rw [fmtG, if_neg hx]

/-- Reading the text of a value rounds the decimal digits that were printed. -/
theorem strtodDecimal_fmtG {P : ℕ} (hP : 0 < P) {x : Finite} (hx : x.m ≠ 0) :
    strtodDecimal (fmtG P (.finite x)) =
      (.ofRat x.neg ((leadSig 10 P x.mag).val 10), []) := by
  rw [fmtG_finite hx, strtodDecimal_render (gText_wellFormed _), gText_neg,
    gText_mag _ hP (le_leadSig_m (by norm_num) (mag_pos hx)) (leadSig_m_lt (by norm_num) hP)]

/-- Zero prints as a digit and reads back with its sign. -/
theorem strtodDecimal_fmtG_zero {P : ℕ} {x : Finite} (hx : x.m = 0) :
    strtodDecimal (fmtG P (.finite x)) = (.zero x.neg, []) := by
  have hwf : (NumText.mk x.neg [0] [] none).WellFormed := ⟨by simp, by simp, by simp⟩
  have hmag : (NumText.mk x.neg [0] [] none).mag = 0 := by simp [NumText.mag, natOfDigits]
  rw [fmtG, if_pos hx, strtodDecimal_render hwf, hmag]
  simp [Double.ofRat, Double.zero]

private theorem exists_mag_eq (x : Finite) : ∃ n : ℕ, x.mag = n * (2 : ℚ) ^ (-1074 : ℤ) := by
  obtain ⟨k, hk⟩ := Int.eq_ofNat_of_zero_le (sub_nonneg.mpr x.e_min)
  refine ⟨x.m * 2 ^ k, ?_⟩
  rw [Finite.mag, eq_add_of_sub_eq hk, zpow_add₀ (by norm_num), zpow_natCast, Nat.cast_mul,
    Nat.cast_pow, mul_assoc]
  rfl

theorem leadSig_val_pos {q : ℚ} (hq : 0 < q) : 0 < (leadSig 10 15 q).val 10 := by
  have hpos : 0 < (leadSig 10 15 q).m := leadSig_m_pos (by norm_num) hq
  have : (0 : ℚ) < (leadSig 10 15 q).m := by exact_mod_cast hpos
  rw [Sig.val]
  positivity

/-- The finite value that rounds a positive magnitude has the magnitude of the rounding. -/
theorem mag_of_ofRat_eq {neg : Bool} {q : ℚ} (hq : 0 < q) {y : Finite}
    (h : Double.ofRat neg q = .finite y) : y.neg = neg ∧ y.mag = (binSig q).val 2 := by
  rw [Double.ofRat, dif_pos hq] at h
  split_ifs at h
  injection h with h
  subst h
  exact ⟨rfl, by simp [Finite.mag, Sig.val]⟩

/-- Fifteen digits are enough: what is read from the text of a value that is not zero has the sign
and the fifteen digits of the value. -/
theorem leadSig_of_strtodDecimal {x y : Finite} (hx : x.m ≠ 0)
    (h : (strtodDecimal (fmtG 15 (.finite x))).1 = .finite y) :
    y.neg = x.neg ∧ y.m ≠ 0 ∧ leadSig 10 15 y.mag = leadSig 10 15 x.mag := by
  rw [strtodDecimal_fmtG (by norm_num) hx] at h
  have hpos : 0 < (leadSig 10 15 x.mag).m := leadSig_m_pos (by norm_num) (mag_pos hx)
  obtain ⟨hneg, hmag⟩ := mag_of_ofRat_eq (leadSig_val_pos (mag_pos hx)) h
  have hdigits : leadSig 10 15 y.mag = leadSig 10 15 x.mag := by
    rw [hmag]
    exact leadSig_binSig_leadSig (mag_pos hx) (exists_mag_eq x)
  refine ⟨hneg, fun h0 => ?_, hdigits⟩
  have hzero : y.mag = 0 := by simp [Finite.mag, h0]
  rw [hzero] at hdigits
  rw [← hdigits] at hpos
  have hround : roundHalfEven 0 = 0 := by simpa using roundHalfEven_intCast 0
  simp [leadSig, roundSig, hround] at hpos

/-- A finite value read from the text of `x` prints the text of `x`. -/
theorem fmtG_strtodDecimal {x y : Finite}
    (h : (strtodDecimal (fmtG 15 (.finite x))).1 = .finite y) :
    fmtG 15 (.finite y) = fmtG 15 (.finite x) := by
  by_cases hx : x.m = 0
  · rw [strtodDecimal_fmtG_zero hx] at h
    injection h with h
    subst h
    simp [fmtG, hx]
  · obtain ⟨hneg, hy, hdigits⟩ := leadSig_of_strtodDecimal hx h
    rw [fmtG_finite hx, fmtG_finite hy, hdigits, hneg]

end Printf
