import LgMagic.Json.RoundTrip
import LgMagic.Lib.DecimalEnd
import LgMagic.Lib.FixedPoint

/-!
# Numbers that the JSON writer keeps

`fmt_number` writes six decimals below `10 ^ 16` and six significant digits from there on. What it
writes for a finite number is read as the number that those digits denote.

* `parseNumber_render`: a printed number is read as the value of its digits;
* `stripFraction_render`: the zeros at the end of a fraction do not count;
* `readsBack_of_fixed`, `readsBack_of_sixDigits`: the numbers that are read back as they were.
-/

namespace Json

open Binary64 CString Printf Rounding

/-! ## Reading printed numbers -/

variable {token : Bytes} {t : NumText}

/-- A token is not hexadecimal. -/
theorem hexForm_of_isNumChar (h : ∀ c ∈ token, isNumChar c = true) : hexForm token = false := by
  unfold hexForm
  split
  · next z x c cs heq =>
    have hx : x ∈ token := (takeSign_suffix token).subset (by simp [heq])
    have hne : x ≠ 0x78 ∧ x ≠ 0x58 := by
      refine ⟨?_, ?_⟩ <;> rintro rfl <;> exact absurd (h _ hx) (by decide)
    simp [hne]
  · rfl

theorem isNumChar_render (h : t.WellFormed) : ∀ c ∈ t.render, isNumChar c = true := by
  intro c hc
  rcases NumText.mem_render h hc with hd | hm
  · simp [isNumChar, hd]
  · rcases mem_numMarks.mp hm with rfl | rfl | rfl | rfl <;> decide

theorem any_isDigit_render (h : t.WellFormed) : t.render.any isDigit = true := by
  obtain ⟨d, ds, hip⟩ := List.exists_cons_of_ne_nil h.ip_ne
  refine List.any_eq_true.mpr ⟨digitByte d, ?_, isDigit_digitByte (h.ip_lt d (by simp [hip]))⟩
  simp [NumText.render, hip]

theorem decimalMag_render (h : t.WellFormed) : decimalMag t.render = t.mag := by
  obtain ⟨htake, hdrop⟩ := takeWhile_digits h.ip_lt (noDigit_tail t)
  rw [NumText.render, List.append_assoc]
  simp only [decimalMag, takeSign_render _ h.ip_lt h.ip_ne, htake, hdrop, takeFraction_tail h,
    takeExp_elim]
  rw [← List.map_append, map_digitVal_digitByte (by
      intro d hd
      exact (List.mem_append.mp hd).elim (h.ip_lt d) (h.fp_lt d)), List.length_map]
  rfl

/-- A printed number in the range of the normal numbers, or zero, is read as the value of its
digits. -/
theorem parseNumber_render {y : Finite} (h : t.WellFormed) (hy : Double.ofRat t.neg t.mag = .finite y)
    (hrange : t.mag = 0 ∨ (2 : ℚ) ^ (-1022 : ℤ) ≤ t.mag) :
    parseNumber t.render = .ok (.finite y, []) := by
  have hchars := isNumChar_render h
  have htake : t.render.takeWhile isNumChar = t.render := List.takeWhile_eq_self_iff.mpr hchars
  have hdrop : t.render.dropWhile isNumChar = [] := List.dropWhile_eq_nil_iff.mpr hchars
  have hrange' : strtodErange (.finite y) t.mag = false := by
    refine decide_eq_false fun hlow => ?_
    rcases hrange with hzero | hnormal
    · exact hlow.1.ne' hzero
    · exact absurd hlow.2.1 (not_lt.mpr hnormal)
  rw [parseNumber_eq_ok, htake, hdrop, decimalMag_render h, strtodDecimal_render h, hy]
  exact ⟨any_isDigit_render h, hexForm_of_isNumChar hchars, hrange', rfl, rfl⟩

/-! ## Fractions -/

/-- Zeros are dropped from the digits as from their bytes. -/
theorem rdropWhile_map_digitByte {ds : List ℕ} (h : ∀ d ∈ ds, d < 10) :
    (ds.map digitByte).rdropWhile (· == 0x30) = (stripZeros ds).map digitByte := by
  induction ds using List.reverseRecOn with
  | nil => rfl
  | append_singleton ds d ih =>
    have hd : d < 10 := h d (by simp)
    have hds := ih fun e he => h e (List.mem_append_left _ he)
    rw [List.map_append, List.map_singleton, stripZeros]
    by_cases hzero : d = 0
    · subst hzero
      rw [List.rdropWhile_concat_pos _ _ _ (by decide), List.rdropWhile_concat_pos _ _ _ (by decide)]
      exact hds
    · have hbyte : digitByte d ≠ 0x30 := by
        intro hbyte
        have := digitByte_toNat hd
        rw [hbyte] at this
        change 48 = 48 + d at this
        omega
      rw [List.rdropWhile_concat_neg _ _ _ (by simpa using hbyte),
        List.rdropWhile_concat_neg _ _ _ (by simpa using hzero), List.map_append, List.map_singleton]

/-- What stands before another byte stays. -/
theorem rdropWhile_append_cons {p : UInt8 → Bool} {c : UInt8} (hc : p c = false) (u v : Bytes) :
    (u ++ c :: v).rdropWhile p = u ++ c :: v.rdropWhile p := by
  induction v using List.reverseRecOn with
  | nil => rw [List.rdropWhile_concat_neg _ _ _ (by simp [hc])]; rfl
  | append_singleton v d ih =>
    rw [← List.cons_append, ← List.append_assoc, List.rdropWhile_concat, List.rdropWhile_concat, ih]
    split_ifs <;> simp

/-- Without the zeros at the end of its fraction a number is printed with the same value. -/
theorem stripFraction_render (h : t.WellFormed) (hfp : t.fp ≠ []) (hexp : t.exp = none) :
    ∃ t' : NumText, stripFraction t.render = t'.render ∧ t'.WellFormed ∧ t'.neg = t.neg ∧
      t'.mag = t.mag := by
  have hrender : t.render = (if t.neg then [0x2D] else []) ++ t.ip.map digitByte ++
      0x2E :: t.fp.map digitByte := by
    rw [NumText.render, if_neg hfp, hexp, Option.elim_none, List.append_nil]
  -- the zeros at the end are those of the fraction: the point stops them
  have hdrop : t.render.rdropWhile (· == 0x30) =
      (if t.neg then [0x2D] else []) ++ t.ip.map digitByte ++
        0x2E :: (stripZeros t.fp).map digitByte := by
    rw [hrender, rdropWhile_append_cons (by decide), rdropWhile_map_digitByte h.fp_lt]
  have hmag : t.mag = natOfDigits (t.ip ++ stripZeros t.fp) *
      (10 : ℚ) ^ (0 - ((stripZeros t.fp).length : ℤ)) := by
    rw [mag_stripZeros, NumText.mag, hexp]
    rfl
  -- where all digits of the fraction go the point is last, and one zero is put back
  by_cases hnone : stripZeros t.fp = []
  · refine ⟨⟨t.neg, t.ip, [0], none⟩, ?_, ⟨h.ip_ne, h.ip_lt, by simp⟩, rfl, ?_⟩
    · rw [stripFraction, hdrop, hnone]
      simp [NumText.render, digitByte]
    · rw [hmag, hnone, NumText.mag, natOfDigits_append]
      simp [natOfDigits]
  · refine ⟨⟨t.neg, t.ip, stripZeros t.fp, none⟩, ?_, ⟨h.ip_ne, h.ip_lt, fun d hd =>
      h.fp_lt d (mem_of_mem_stripZeros hd)⟩, rfl, ?_⟩
    · obtain ⟨ds, d, hds⟩ := (List.eq_nil_or_concat' _).resolve_left hnone
      have hd : d < 10 := h.fp_lt d (mem_of_mem_stripZeros (by simp [hds]))
      have hlast : digitByte d ≠ 0x2E := by
        intro hbyte
        have := digitByte_toNat hd
        rw [hbyte] at this
        change 46 = 48 + d at this
        omega
      rw [stripFraction, hdrop, if_neg, NumText.render, if_neg hnone]
      · simp
      · rw [hds, List.map_append, List.map_singleton, ← List.cons_append, ← List.append_assoc,
          List.getLast?_concat]
        simpa using hlast
    · rw [hmag]
      rfl

/-! ## Numbers with six decimals -/

variable {y : Finite}

theorem fixedText_eq_fText (x : Finite) : fixedText x = fText 6 x := by
  rw [fText, if_neg (by norm_num)]
  rfl

/-- `2 ^ -20`, between the bound `5e-7` and the least decimal `1e-6`. -/
def belowDecimals : Finite := ⟨false, 2 ^ 52, -72, by norm_num, by norm_num, by norm_num, by norm_num⟩

theorem mag_belowDecimals : belowDecimals.mag = 1 / 2 ^ 20 := by
  norm_num [belowDecimals, Finite.mag, zpow_neg]

/-- `10 ^ 16` -/
def tenPow16 : Finite := ⟨false, 5 * 10 ^ 15, 1, by norm_num, by norm_num, by norm_num, by norm_num⟩

theorem mag_tenPow16 : tenPow16.mag = 10 ^ 16 := by
  norm_num [tenPow16, Finite.mag]

theorem ofRat_tenPow16 : (CNum.ofRat (10 ^ 16) : Double) = .finite tenPow16 := by decide +kernel

/-- The bound for small numbers. -/
theorem ofRat_small : ∃ b : Finite, (CNum.ofRat (5 / 10 ^ 7) : Double) = .finite b ∧ b.neg = false ∧
    b.mag ≤ belowDecimals.mag := by
  have habs : |(5 / 10 ^ 7 : ℚ)| = 5 / 10 ^ 7 := abs_of_pos (by norm_num)
  have hpos : decide ((5 / 10 ^ 7 : ℚ) < 0) = false := decide_eq_false (by norm_num)
  have hle : (5 / 10 ^ 7 : ℚ) ≤ belowDecimals.mag := by rw [mag_belowDecimals]; norm_num
  have hread : (CNum.ofRat (5 / 10 ^ 7) : Double) = .ofRat false (5 / 10 ^ 7) := by
    show Double.ofRat _ |_| = _
    rw [habs, hpos]
  rw [hread]
  exact exists_ofRat_eq (by norm_num) hle false

/-- The number has six decimals, as far as it can be told apart. -/
def HasSixDecimals (y : Finite) : Prop := toFixed 6 (.finite y) = .finite y

/-- The least decimal. -/
theorem fixedVal_of_hasSixDecimals (h : HasSixDecimals y) (hy : y.m ≠ 0) :
    1 / 10 ^ 6 ≤ fixedVal 6 y.mag := by
  have hk : fixedInt 6 y.mag ≠ 0 := by
    intro hzero
    rw [HasSixDecimals, toFixed, fixedVal, hzero, Double.ofRat, dif_neg (by simp)] at h
    injection h with h
    exact hy (congrArg Finite.m h).symm
  have : (1 : ℚ) ≤ fixedInt 6 y.mag := by exact_mod_cast Nat.one_le_iff_ne_zero.mpr hk
  rw [fixedVal]
  gcongr

theorem belowDecimals_le (h : HasSixDecimals y) (hy : y.m ≠ 0) : belowDecimals.mag ≤ y.mag := by
  have hleast := fixedVal_of_hasSixDecimals h hy
  have hq : 0 < fixedVal 6 y.mag := lt_of_lt_of_le (by norm_num) hleast
  have hb : belowDecimals.mag ≤ fixedVal 6 y.mag := by
    rw [mag_belowDecimals]
    exact le_trans (by norm_num) hleast
  have hbpos : 0 < belowDecimals.mag := by rw [mag_belowDecimals]; norm_num
  have hmono := binSig_val_mono hbpos hb
  rw [belowDecimals.binSig_mag hbpos, ← (mag_of_ofRat_eq hq h).2] at hmono
  exact hmono

theorem toRat_abs (y : Finite) : Finite.toRat { y with neg := false } = y.mag := rfl

/-- A number with six decimals below `10 ^ 16` is printed with its decimals. -/
theorem fmtNumber_of_hasSixDecimals (h : HasSixDecimals y) (hlt : y.mag < 10 ^ 16) :
    fmtNumber (.finite y) = stripFraction (fText 6 y).render := by
  rw [fmtNumber, if_neg, fixedText_eq_fText]
  rintro ⟨hy, hout⟩
  obtain ⟨b, hb, hneg, hbound⟩ := ofRat_small
  have hbrat : b.toRat = b.mag := by rw [Finite.toRat, hneg]; rfl
  rw [hb, ofRat_tenPow16, Bool.or_eq_true] at hout
  rcases hout with hsmall | hlarge
  · have hsmall := of_decide_eq_true hsmall
    rw [toRat_abs, hbrat] at hsmall
    exact absurd (hbound.trans (belowDecimals_le h hy)) (not_le.mpr hsmall)
  · have hlarge : tenPow16.toRat ≤ _ := of_decide_eq_true hlarge
    rw [toRat_abs, show tenPow16.toRat = tenPow16.mag from rfl, mag_tenPow16] at hlarge
    exact absurd hlarge (not_le.mpr hlt)

theorem two_zpow_le_micro : (2 : ℚ) ^ (-1022 : ℤ) ≤ 1 / 10 ^ 6 := by
  calc (2 : ℚ) ^ (-1022 : ℤ) ≤ (2 : ℚ) ^ (-20 : ℤ) :=
        zpow_le_zpow_right₀ (by norm_num) (by norm_num)
    _ ≤ 1 / 10 ^ 6 := by norm_num

/-- A number with six decimals below `10 ^ 16` is read back. -/
theorem readsBack_of_hasSixDecimals (h : HasSixDecimals y) (hlt : y.mag < 10 ^ 16) :
    ReadsBack (.finite y) := by
  obtain ⟨t, htext, hwf, hneg, hmag⟩ := stripFraction_render (fText_wellFormed 6 y)
    (by simp [fText, padDigits, decDigits_ne_nil]) rfl
  rw [ReadsBack, fmtNumber_of_hasSixDecimals h hlt, htext]
  rw [fText_mag] at hmag
  refine parseNumber_render hwf ?_ ?_
  · rw [hneg, hmag]
    exact h
  · rw [hmag]
    by_cases hy : y.m = 0
    · left
      have hzero : y.mag = (0 : ℕ) := by simp [Finite.mag, hy]
      rw [hzero, fixedVal_natCast, Nat.cast_zero]
    · exact .inr (two_zpow_le_micro.trans (fixedVal_of_hasSixDecimals h hy))

/-! ## Numbers with six significant digits -/

/-- The value nearest to the six leading digits of a value. -/
def sixDigits (y : Finite) : Double := .ofRat y.neg ((leadSig 10 6 y.mag).val 10)

/-- From `10 ^ 16` on a number is printed with six significant digits. -/
theorem fmtNumber_of_le (h : 10 ^ 16 ≤ y.mag) : fmtNumber (.finite y) = fmtG 6 (.finite y) := by
  have hy : y.m ≠ 0 := by
    intro hzero
    norm_num [Finite.mag, hzero] at h
  rw [fmtNumber, if_pos]
  refine ⟨hy, Bool.or_eq_true_iff.mpr (.inr ?_)⟩
  rw [ofRat_tenPow16]
  refine decide_eq_true ?_
  rwa [toRat_abs, show tenPow16.toRat = tenPow16.mag from rfl, mag_tenPow16]

theorem pow_le_leadSig_val {q : ℚ} (h : 10 ^ 16 ≤ q) : 10 ^ 16 ≤ (leadSig 10 6 q).val 10 := by
  have hq : 0 < q := lt_of_lt_of_le (by norm_num) h
  have hlog : 16 ≤ Int.log 10 q :=
    (Int.zpow_le_iff_le_log (by norm_num) hq).mp (by exact_mod_cast h)
  calc (10 : ℚ) ^ 16 = ((10 : ℕ) : ℚ) ^ (16 : ℤ) := by norm_num
    _ ≤ ((10 : ℕ) : ℚ) ^ Int.log 10 q := zpow_le_zpow_right₀ (by norm_num) hlog
    _ ≤ (leadSig 10 6 q).val 10 := zpow_log_le_leadSig_val (by norm_num) hq

/-- What is read from a decimal from `10 ^ 16` on is not below it. -/
theorem tenPow16_le_mag {neg : Bool} {q : ℚ} {z : Finite} (hq : 10 ^ 16 ≤ q)
    (hz : Double.ofRat neg q = .finite z) : 10 ^ 16 ≤ z.mag := by
  have hten : 0 < tenPow16.mag := by rw [mag_tenPow16]; norm_num
  have hmono := binSig_val_mono hten (mag_tenPow16.trans_le hq)
  rw [tenPow16.binSig_mag hten, ← (mag_of_ofRat_eq (lt_of_lt_of_le (by norm_num) hq) hz).2] at hmono
  rw [← mag_tenPow16]
  exact hmono

theorem tenPow64_le_largest : (10 : ℚ) ^ 64 ≤ largest.mag := by
  calc (10 : ℚ) ^ 64 ≤ 1 * (2 : ℚ) ^ (213 : ℤ) := by norm_num
    _ ≤ (2 ^ 53 - 1 : ℕ) * (2 : ℚ) ^ (971 : ℤ) := by
        have hpow : (2 : ℚ) ^ (213 : ℤ) ≤ (2 : ℚ) ^ (971 : ℤ) :=
          zpow_le_zpow_right₀ (by norm_num) (by norm_num)
        gcongr
        norm_num

/-- The six leading digits of a large value are those of the value that they are read as. -/
theorem exists_sixDigits (h16 : 10 ^ 16 ≤ y.mag) (h64 : y.mag ≤ 10 ^ 64) :
    ∃ z : Finite, sixDigits y = .finite z ∧ z.neg = y.neg ∧ 10 ^ 16 ≤ z.mag ∧
      leadSig 10 6 z.mag = leadSig 10 6 y.mag := by
  have hy : 0 < y.mag := lt_of_lt_of_le (by norm_num) h16
  have hlow := pow_le_leadSig_val h16
  have hq : 0 < (leadSig 10 6 y.mag).val 10 := lt_of_lt_of_le (by norm_num) hlow
  have hhigh : (leadSig 10 6 y.mag).val 10 ≤ largest.mag := by
    have hpow := @leadSig_val_le 10 6 y.mag (by norm_num) (by norm_num) hy 64 (by exact_mod_cast h64)
    exact le_trans (by exact_mod_cast hpow) tenPow64_le_largest
  obtain ⟨z, hz, hneg, -⟩ := exists_ofRat_eq hq hhigh y.neg
  have hmag := (mag_of_ofRat_eq hq hz).2
  refine ⟨z, hz, hneg, ?_, ?_⟩
  · exact tenPow16_le_mag hlow hz
  · rw [hmag]
    refine leadSig_binSig_of_normal (by norm_num) (by norm_num) (le_leadSig_m (by norm_num) hy)
      (leadSig_m_lt (by norm_num) (by norm_num)) ?_
    have hlog : 0 ≤ Int.log 2 ((leadSig 10 6 y.mag).val 10) :=
      (Int.zpow_le_iff_le_log (by norm_num) hq).mp (le_trans (by norm_num) hlow)
    omega

/-- A large number is printed as the number that its six leading digits are read as, which is read
back. -/
theorem readsBack_of_sixDigits {z : Finite} (h16 : 10 ^ 16 ≤ y.mag) (h64 : y.mag ≤ 10 ^ 64)
    (hz : sixDigits y = .finite z) :
    fmtNumber (.finite y) = fmtNumber (.finite z) ∧ ReadsBack (.finite z) := by
  -- the text of the value is six digits with an exponent, and it is the text of what was read too
  obtain ⟨z', hz', hneg, hlarge, hdigits⟩ := exists_sixDigits h16 h64
  cases hz.symm.trans hz'
  have hy : y.m ≠ 0 := by
    intro hzero
    norm_num [Finite.mag, hzero] at h16
  have hm : z.m ≠ 0 := by
    intro hzero
    norm_num [Finite.mag, hzero] at hlarge
  have htext : fmtNumber (.finite z) = (gText 6 z.neg (leadSig 10 6 z.mag)).render := by
    rw [fmtNumber_of_le hlarge, fmtG_finite hm]
  refine ⟨by rw [fmtNumber_of_le h16, fmtG_finite hy, htext, hdigits, hneg], ?_⟩
  have hmag := gText_mag (s := leadSig 10 6 z.mag) z.neg (by norm_num : 0 < 6)
    (le_leadSig_m (by norm_num) (mag_pos hm)) (leadSig_m_lt (by norm_num) (by norm_num))
  rw [ReadsBack, htext]
  refine parseNumber_render (gText_wellFormed z.neg) ?_ ?_
  · rw [hmag, hdigits]
    have hsign : (gText 6 z.neg (leadSig 10 6 y.mag)).neg = y.neg := by
      rw [← hneg]
      unfold gText
      simp only
      split_ifs <;> rfl
    rw [hsign]
    exact hz
  · right
    rw [hmag]
    refine le_trans ?_ (pow_le_leadSig_val hlarge)
    exact le_trans two_zpow_le_micro (by norm_num)

/-- Six leading digits are not more than twice the number. -/
theorem leadSig_val_le_two_mul {q : ℚ} (hq : 0 < q) : (leadSig 10 6 q).val 10 ≤ 2 * q := by
  have herr := abs_roundSig_val_sub_le (β := 10) (p := 6) (e := Int.log 10 q - (6 - 1 : ℕ))
    (by norm_num) (by norm_num) hq.le
  have hunit : ((10 : ℕ) : ℚ) ^ (Int.log 10 q - ((6 - 1 : ℕ) : ℤ)) ≤ q :=
    calc ((10 : ℕ) : ℚ) ^ (Int.log 10 q - ((6 - 1 : ℕ) : ℤ)) ≤ ((10 : ℕ) : ℚ) ^ Int.log 10 q :=
          zpow_le_zpow_right₀ (by norm_num) (by omega)
      _ ≤ q := Int.zpow_log_le_self (by norm_num) hq
  have hhalf := ((abs_le.mp herr).2).trans (div_le_div_of_nonneg_right hunit (by norm_num))
  refine (sub_le_iff_le_add.mp hhalf).trans ?_
  linarith

end Json
