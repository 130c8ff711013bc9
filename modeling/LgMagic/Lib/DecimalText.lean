import LgMagic.Lib.DecimalEnd
import LgMagic.Lib.Strtod

/-!
# Texts of decimal numbers

`strtod` reads more than decimal numbers: it skips white space, and takes words and hexadecimal
numbers. A text that is a decimal number is read completely and as its value; of the texts that are
read completely, the others are the ones of those forms.

* `decimalOf`: the value of a text that is a decimal number;
* `OtherForm`: the forms that are none;
* `strtod_of_decimalOf`, `isSome_decimalOf_iff`: what `strtod` makes of both.
-/

namespace Printf

open Binary64 CString

/-- The sign and the magnitude of a text that is a decimal number. -/
def decimalOf (s : Bytes) : Option (Bool × ℚ) :=
  match takeDecimal (takeSign s).2 with
  | some (mag, []) => some ((takeSign s).1, mag)
  | _ => none

/-- A text starts with a word, which may be written in capitals. -/
def StartsWith (word s : Bytes) : Prop := (s.take word.length).map toLower = word

/-- A text starts with white space, or after its sign as an infinity, as no number or as a
hexadecimal number. -/
def OtherForm (s : Bytes) : Prop :=
  (∃ c ∈ s.head?, isSpace c = true) ∨ StartsWith (ascii "inf") (takeSign s).2 ∨
    StartsWith (ascii "nan") (takeSign s).2 ∨ StartsWith (ascii "0x") (takeSign s).2

/-! ## The bytes of a decimal number -/

/-- The bytes of decimal numbers. -/
def DecimalByte (c : UInt8) : Prop := isDigit c = true ∨ c ∈ numMarks ∨ c = 0x45

/-- The bytes of a text are those of decimal numbers. -/
def DecimalBytes (s : Bytes) : Prop := ∀ c ∈ s, DecimalByte c

theorem decimalBytes_cons {c : UInt8} {s : Bytes} :
    DecimalBytes (c :: s) ↔ DecimalByte c ∧ DecimalBytes s := List.forall_mem_cons

theorem decimalBytes_of_takeSign {s : Bytes} (h : DecimalBytes (takeSign s).2) : DecimalBytes s := by
  cases s with
  | nil => exact h
  | cons c cs =>
    rw [takeSign] at h
    split_ifs at h with hminus hplus
    · exact decimalBytes_cons.mpr ⟨.inr (.inl (mem_numMarks.mpr (by simp [beq_iff_eq.mp hminus]))), h⟩
    · exact decimalBytes_cons.mpr ⟨.inr (.inl (mem_numMarks.mpr (by simp [beq_iff_eq.mp hplus]))), h⟩
    · exact h

theorem decimalBytes_of_dropWhile {s : Bytes} (h : DecimalBytes (s.dropWhile isDigit)) :
    DecimalBytes s := by
  intro c hc
  rw [← List.takeWhile_append_dropWhile (p := isDigit) (l := s), List.mem_append] at hc
  exact hc.elim (fun hd => .inl (List.mem_takeWhile_imp hd)) (h c)

theorem decimalBytes_of_takeExp {s : Bytes} (h : (takeExp s).2 = []) : DecimalBytes s := by
  cases s with
  | nil => exact List.forall_mem_nil _
  | cons c cs =>
    rw [takeExp] at h
    split at h
    · next hletter =>
      have hnil : ((takeSign cs).2.dropWhile isDigit) = [] := by
        by_cases hds : (takeSign cs).2.takeWhile isDigit = []
        · simp [hds] at h
        · simpa only [if_neg hds] using h
      have hcs : DecimalBytes cs := decimalBytes_of_takeSign
        (decimalBytes_of_dropWhile (hnil ▸ List.forall_mem_nil _))
      refine decimalBytes_cons.mpr ⟨.inr ?_, hcs⟩
      rcases (Bool.or_eq_true _ _).mp hletter with hc | hc
      · exact .inl (mem_numMarks.mpr (by simp [beq_iff_eq.mp hc]))
      · exact .inr (beq_iff_eq.mp hc)
    · simp at h

theorem decimalBytes_of_takeFraction {s : Bytes} (h : DecimalBytes (takeFraction s).2) :
    DecimalBytes s := by
  cases s with
  | nil => exact List.forall_mem_nil _
  | cons c cs =>
    rw [takeFraction] at h
    split_ifs at h with hpoint
    · exact decimalBytes_cons.mpr
        ⟨.inr (.inl (mem_numMarks.mpr (by simp [beq_iff_eq.mp hpoint]))), decimalBytes_of_dropWhile h⟩
    · exact h

theorem decimalBytes_of_takeDecimal {s : Bytes} {mag : ℚ} (h : takeDecimal s = some (mag, [])) :
    DecimalBytes s := by
  rw [takeDecimal] at h
  simp only at h
  split_ifs at h
  have hrest : (takeExp (takeFraction (s.dropWhile isDigit)).2).2 = [] := by
    simpa using congrArg (Option.map Prod.snd) h
  exact decimalBytes_of_dropWhile (decimalBytes_of_takeFraction (decimalBytes_of_takeExp hrest))

theorem decimalBytes_of_decimalOf {s : Bytes} {v : Bool × ℚ} (h : decimalOf s = some v) :
    DecimalBytes s := by
  rw [decimalOf] at h
  split at h
  · next mag hread => exact decimalBytes_of_takeSign (decimalBytes_of_takeDecimal hread)
  · exact absurd h (by simp)

/-- A digit is no white space. -/
theorem isSpace_of_isDigit {c : UInt8} (h : isDigit c = true) : isSpace c = false := by
  simp only [isDigit, Bool.and_eq_true, decide_eq_true_eq] at h
  refine Bool.eq_false_iff.mpr fun hspace => ?_
  simp only [isSpace, Bool.or_eq_true, beq_iff_eq, Bool.and_eq_true, decide_eq_true_eq] at hspace
  rcases hspace with rfl | ⟨-, hle⟩
  · exact absurd h.1 (by decide)
  · exact absurd (UInt8.le_trans h.1 hle) (by decide)

/-- A byte of a decimal number is no white space and none of the letters of the other forms. -/
theorem DecimalByte.not_other {c : UInt8} (h : DecimalByte c) :
    isSpace c = false ∧ toLower c ≠ 0x69 ∧ toLower c ≠ 0x6E ∧ toLower c ≠ 0x78 := by
  rcases h with hd | hm | rfl
  · exact ⟨isSpace_of_isDigit hd, decimalOnly_of_isDigit (s := [c]) (by simpa using hd) c (by simp)⟩
  · rcases mem_numMarks.mp hm with rfl | rfl | rfl | rfl <;> decide
  · decide

/-! ## Reading -/

theorem takeWord_eq_none_iff {word s : Bytes} : takeWord word s = none ↔ ¬ StartsWith word s := by
  rw [takeWord]
  split_ifs with h
  · exact iff_of_false (by simp) (not_not.mpr h)
  · exact iff_of_true rfl h

/-- The infinity that is written out starts with the short one. -/
theorem startsWith_inf {s : Bytes} (h : StartsWith (ascii "infinity") s) :
    StartsWith (ascii "inf") s := by
  have htake := congrArg (List.take 3) h
  rw [← List.map_take, List.take_take] at htake
  exact htake

/-- A text of no other form is read as a decimal number. -/
theorem strtod_of_not_otherForm {s : Bytes} (h : ¬ OtherForm s) : strtod s =
    ((takeDecimal (takeSign s).2).map fun (mag, rest) => NumRead.ofMag (takeSign s).1 mag rest).getD
      ⟨.zero false, false, s⟩ := by
  simp only [OtherForm, not_or] at h
  obtain ⟨hspace, hinf, hnan, hhex⟩ := h
  have hdrop : s.dropWhile isSpace = s := by
    cases s with
    | nil => rfl
    | cons c cs => exact List.dropWhile_cons_of_neg fun hc => hspace ⟨c, rfl, hc⟩
  have hinfinity := takeWord_eq_none_iff.mpr fun hw => hinf (startsWith_inf hw)
  rw [← takeWord_eq_none_iff] at hinf hnan hhex
  simp only [strtod, hdrop, takeNumber, hinfinity, hinf, hnan, hhex, Option.bind_none,
    Option.none_or]
  cases takeDecimal (takeSign s).2 <;> rfl

/-- A decimal number has none of the other forms. -/
theorem not_otherForm_of_decimalOf {s : Bytes} {v : Bool × ℚ} (h : decimalOf s = some v) :
    ¬ OtherForm s := by
  have hbytes := decimalBytes_of_decimalOf h
  have htail : ∀ c ∈ (takeSign s).2, DecimalByte c := fun c hc =>
    hbytes c ((takeSign_suffix s).subset hc)
  have hword : ∀ (word : Bytes) (w : UInt8), w ∈ word → (∀ c, DecimalByte c → toLower c ≠ w) →
      ¬ StartsWith word (takeSign s).2 := fun word w hw hne =>
    takeWord_eq_none_iff.mp (takeWord_eq_none hw fun c hc => hne c (htail c hc))
  rintro (⟨c, hc, hspace⟩ | hinf | hnan | hhex)
  · rw [(hbytes c (List.mem_of_mem_head? hc)).not_other.1] at hspace
    exact absurd hspace (by simp)
  · exact hword _ 0x69 (by decide +kernel) (fun c hc => hc.not_other.2.1) hinf
  · exact hword _ 0x6E (by decide +kernel) (fun c hc => hc.not_other.2.2.1) hnan
  · exact hword _ 0x78 (by decide +kernel) (fun c hc => hc.not_other.2.2.2) hhex

/-- A decimal number is read completely, and as its value. -/
theorem strtod_of_decimalOf {s : Bytes} {neg : Bool} {mag : ℚ} (h : decimalOf s = some (neg, mag)) :
    strtod s = .ofMag neg mag [] := by
  rw [strtod_of_not_otherForm (not_otherForm_of_decimalOf h)]
  rw [decimalOf] at h
  split at h
  · next m hread =>
    obtain ⟨rfl, rfl⟩ := Prod.mk.inj (Option.some.inj h)
    rw [hread]
    rfl
  · exact absurd h (by simp)

/-- Of the texts that are read completely, the decimal numbers are those of no other form. -/
theorem isSome_decimalOf_iff {s : Bytes} (hne : s ≠ []) (hrest : (strtod s).rest = []) :
    (decimalOf s).isSome ↔ ¬ OtherForm s := by
  constructor
  · intro h
    obtain ⟨v, hv⟩ := Option.isSome_iff_exists.mp h
    exact not_otherForm_of_decimalOf hv
  · intro h
    rw [strtod_of_not_otherForm h] at hrest
    rw [decimalOf]
    cases hread : takeDecimal (takeSign s).2 with
    | none =>
      rw [hread] at hrest
      exact absurd hrest hne
    | some p =>
      obtain ⟨mag, rest⟩ := p
      rw [hread] at hrest
      obtain rfl : rest = [] := hrest
      rfl

end Printf
