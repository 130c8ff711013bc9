import LgMagic.Csv

/-!
# A recording is read back

The fields that `csv_write` prints have no comma, no line end and no NUL, so the reader finds the
fields that were written; each of them is read as the number it came from.

* `Recordable`: the samples that can be read back;
* `readCounter_printInt`, `readNumber_fmtF`, `readDt_dtText`: one lemma for each kind of field;
* `readLine_csvRow`: a row is read as its sample;
* `csvRead_csvWrite`: a recording is read as it was.
-/

namespace Csv

open Binary64 CString Pointer Printf Rounding

/-! ## What can be read back -/

/-- The magnitude that the text of a time step denotes. -/
def dtDecimal (x : Finite) : ℚ := (gText 9 x.neg (leadSig 10 9 x.mag)).mag

/-- A time step that is missing, zero, or of the usual size and the value nearest to its text. -/
def RecordableDt : Double → Prop
  | .nan => True
  | .inf _ => False
  | .finite x => x.mag = 0 ∨
      10 ^ (-9 : ℤ) ≤ x.mag ∧ x.mag ≤ 10 ^ 9 ∧ Double.ofRat x.neg (dtDecimal x) = .finite x

instance : DecidablePred RecordableDt
  | .nan => inferInstanceAs (Decidable True)
  | .inf _ => inferInstanceAs (Decidable False)
  | .finite x => inferInstanceAs (Decidable (x.mag = 0 ∨
      10 ^ (-9 : ℤ) ≤ x.mag ∧ x.mag ≤ 10 ^ 9 ∧ Double.ofRat x.neg (dtDecimal x) = .finite x))

/-- An integer of magnitude below `2 ^ 53`. -/
def RecordableInt (d : Double) : Prop := ∃ n : ℤ, n.natAbs < 2 ^ 53 ∧ d.IsFinite ∧ d.toRat = n

/-- A sample of an integer for each axis. -/
structure Recordable (s : ImuSample) : Prop where
  dt : RecordableDt s.dt
  accel : s.accel.All RecordableInt
  gyro : s.gyro.All RecordableInt

/-- Every integer below `2 ^ 53` is a value. -/
theorem recordableInt_ofInt {n : ℤ} (h : n.natAbs < 2 ^ 53) : RecordableInt (.ofInt n) := by
  rcases Nat.eq_zero_or_pos n.natAbs with h0 | hpos
  · have hn : n = 0 := Int.natAbs_eq_zero.mp h0
    subst hn
    have hz : Double.ofInt 0 = .zero false := by decide +kernel
    refine ⟨0, h, by rw [hz]; trivial, ?_⟩
    rw [hz]
    simp [Double.zero, Double.toRat, Finite.toRat, Finite.mag]
  · obtain ⟨y, hy, hneg, hmag⟩ := exists_ofRat_natCast hpos h (decide (n < 0))
    refine ⟨n, h, ?_, ?_⟩
    · rw [Double.ofInt, hy]
      trivial
    · rw [Double.ofInt, hy, Double.toRat, Finite.toRat, hneg, hmag, Nat.cast_natAbs, Int.cast_abs]
      rcases lt_or_ge n 0 with hlt | hge
      · have : (n : ℚ) < 0 := by exact_mod_cast hlt
        simp [hlt, abs_of_neg this]
      · have : (0 : ℚ) ≤ n := by exact_mod_cast hge
        simp [hge, abs_of_nonneg this]

/-! ## The fields -/

/-- The bytes of a field are digits and marks of numbers. -/
def FieldText (f : Bytes) : Prop := ∀ c ∈ f, isDigit c = true ∨ c ∈ numMarks

theorem FieldText.notMem {f : Bytes} (h : FieldText f) {c : UInt8} (hd : isDigit c = false)
    (hm : c ∉ numMarks) : c ∉ f := fun hc =>
  (h c hc).elim (fun hdigit => by simp [hd] at hdigit) hm

/-- A printed counter is read back. -/
theorem readCounter_printInt (n : UInt32) : readCounter (printInt n.toNat) = some n := by
  have hds : ∀ d ∈ decDigits n.toNat, d < 10 := fun d => decDigits_lt
  have hne := decDigits_ne_nil n.toNat
  obtain ⟨htake, hdrop⟩ := takeWhile_digits hds noDigit_nil
  have hspace := dropWhile_isSpace_render false hds hne []
  have hsign := takeSign_digits hds hne []
  simp only [Bool.false_eq_true, if_false, List.nil_append, List.append_nil] at htake hdrop hspace hsign
  have hlt : ¬ 2 ^ 64 ≤ n.toNat := by
    have := n.toNat_lt
    omega
  have hprint : printInt n.toNat = (decDigits n.toNat).map digitByte := by
    rw [printInt, if_neg (by omega), List.nil_append, Int.natAbs_natCast]
  have hread : strtoul (printInt n.toNat) = ⟨.ofNat n.toNat, false, []⟩ := by
    rw [hprint]
    simp only [strtoul, hspace, hsign, htake, hdrop, map_digitVal_digitByte hds,
      natOfDigits_decDigits, List.map_eq_nil_iff, hne, if_false, hlt, Bool.false_eq_true]
  have htext : [] ≠ printInt n.toNat := by simp [hprint, hne]
  simp [readCounter, hread, htext]

/-- A printed number that is not out of range is read as the value of its digits. -/
theorem readNumber_render {t : NumText} (h : t.WellFormed)
    (hrange : rangeError (.ofRat t.neg t.mag) t.mag = false) :
    readNumber t.render = some (.ofRat t.neg t.mag) := by
  have hne : t.render ≠ [] := by simp [NumText.render, h.ip_ne]
  simp [readNumber, strtod_render h, NumRead.ofMag, hrange, hne.symm]

/-- Zero and the magnitudes of the normal numbers are in range when they are not too large. -/
theorem rangeError_finite {x : Finite} {q : ℚ} (h : q = 0 ∨ (2 : ℚ) ^ (-1022 : ℤ) ≤ q) :
    rangeError (.finite x) q = false := by
  refine decide_eq_false ?_
  rintro ⟨hpos, hlow, -⟩
  rcases h with rfl | h
  · exact lt_irrefl 0 hpos
  · exact absurd hlow (not_lt.mpr h)

/-- The normal numbers go below every time step. -/
theorem normal_le_zpow {k : ℤ} (h : -30 ≤ k) : (2 : ℚ) ^ (-1022 : ℤ) ≤ (2 : ℚ) ^ k :=
  zpow_le_zpow_right₀ (by norm_num) (by omega)

/-- A printed integer is read back. -/
theorem readNumber_fmtF {d : Double} (h : RecordableInt d) :
    FieldText (fmtF 0 d) ∧ readNumber (fmtF 0 d) = some d := by
  obtain ⟨n, -, hfin, hn⟩ := h
  obtain ⟨x, rfl⟩ := Double.isFinite_iff.mp hfin
  have hmag : x.mag = n.natAbs := by
    rw [Nat.cast_natAbs, Int.cast_abs, ← hn, Double.toRat, Finite.toRat]
    split_ifs <;> simp [abs_of_nonneg x.mag_nonneg]
  -- an integer has no decimals to lose
  have hfixed := toFixed_of_natCast (P := 0) hmag
  rw [toFixed, ← fText_mag] at hfixed
  refine ⟨fun c hc => NumText.mem_render (fText_wellFormed 0 x) hc, ?_⟩
  rw [fmtF, readNumber_render (fText_wellFormed 0 x)]
  · exact congrArg some hfixed
  · rw [show (fText 0 x).neg = x.neg from rfl, hfixed, fText_mag, hmag, fixedVal_natCast]
    refine rangeError_finite ?_
    -- an integer is zero or far above the least normal value, so `errno` is not set
    rcases Nat.eq_zero_or_pos n.natAbs with h0 | hpos
    · exact .inl (by rw [h0, Nat.cast_zero])
    · have hone : (1 : ℚ) ≤ n.natAbs := by exact_mod_cast hpos
      exact .inr ((normal_le_zpow (k := 0) (by norm_num)).trans hone)

/-- The text of a time step has room in its buffer. -/
theorem dtText_finite (x : Finite) : dtText (.finite x) = fmtG 9 (.finite x) := by
  obtain ⟨t, -, hlen, htext⟩ := fmtG_numText (P := 9) (by norm_num) x
  rw [dtText, if_neg (by simp), List.take_of_length_le]
  rw [htext]
  omega

/-- A magnitude from `1e-9` on has digits that stand for a normal number. -/
theorem normal_le_dtDecimal {x : Finite} (h : 10 ^ (-9 : ℤ) ≤ x.mag) :
    (2 : ℚ) ^ (-1022 : ℤ) ≤ dtDecimal x := by
  have hpos : 0 < x.mag := lt_of_lt_of_le (by positivity) h
  have hlog : -9 ≤ Int.log 10 x.mag :=
    (Int.zpow_le_iff_le_log (by norm_num) hpos).mp (by exact_mod_cast h)
  have hlead := zpow_log_le_leadSig_val (β := 10) (p := 9) (by norm_num) hpos
  rw [dtDecimal, gText_mag _ (by norm_num) (le_leadSig_m (by norm_num) hpos)
    (leadSig_m_lt (by norm_num) (by norm_num))]
  refine le_trans ?_ hlead
  calc (2 : ℚ) ^ (-1022 : ℤ) ≤ (2 : ℚ) ^ (-30 : ℤ) := normal_le_zpow le_rfl
    _ ≤ ((10 : ℕ) : ℚ) ^ (-9 : ℤ) := by norm_num
    _ ≤ ((10 : ℕ) : ℚ) ^ Int.log 10 x.mag := zpow_le_zpow_right₀ (by norm_num) hlog

/-- A printed time step is read back. -/
theorem readDt_dtText {d : Double} (h : RecordableDt d) :
    FieldText (dtText d) ∧ readDt (dtText d) = some d := by
  match d with
  | .nan => exact ⟨fun c hc => absurd hc List.not_mem_nil, rfl⟩
  | .inf neg => exact h.elim
  | .finite x =>
    -- nine digits: of a zero they are the zero, of another value a decimal that is rounded back to
    -- it
    obtain ⟨t, hwf, hneg, htext, hround, hnormal⟩ : ∃ t : NumText, t.WellFormed ∧ t.neg = x.neg ∧
        fmtG 9 (.finite x) = t.render ∧ Double.ofRat x.neg t.mag = .finite x ∧
        (t.mag = 0 ∨ (2 : ℚ) ^ (-1022 : ℤ) ≤ t.mag) := by
      by_cases hx : x.m = 0
      · have hzero : x.mag = 0 := by simp [Finite.mag, hx]
        have hmag : (NumText.mk x.neg [0] [] none).mag = 0 := by simp [NumText.mag, natOfDigits]
        refine ⟨⟨x.neg, [0], [], none⟩, ⟨by simp, by simp, by simp⟩, rfl, by rw [fmtG, if_pos hx],
          ?_, .inl hmag⟩
        rw [hmag, ← hzero, Double.ofRat_mag]
      · obtain ⟨hlo, -, hround⟩ := h.resolve_left (mag_pos hx).ne'
        exact ⟨_, gText_wellFormed _, gText_neg _, fmtG_finite hx, hround,
          .inr (normal_le_dtDecimal hlo)⟩
    have hread : readNumber t.render = some (.finite x) := by
      rw [readNumber_render hwf, hneg, hround]
      rw [hneg, hround, rangeError_finite hnormal]
    have hne : t.render ≠ [] := by simp [NumText.render, hwf.ip_ne]
    rw [dtText_finite, htext]
    exact ⟨fun c hc => NumText.mem_render hwf hc, by rw [readDt, if_neg hne, hread]⟩

/-! ## The rows -/

/-- The fields of the row of a sample. -/
def rowFields (s : ImuSample) : List Bytes :=
  [printInt s.counter.toNat, dtText s.dt, fmtF 0 s.accel.x, fmtF 0 s.accel.y, fmtF 0 s.accel.z,
    fmtF 0 s.gyro.x, fmtF 0 s.gyro.y, fmtF 0 s.gyro.z]

/-- The row of a sample without its line end. -/
def rowText (s : ImuSample) : Bytes := [comma].intercalate (rowFields s)

theorem csvRow_eq (s : ImuSample) : csvRow s = rowText s ++ 0x0D :: newline :: [] := by
  simp [csvRow, rowText, rowFields, List.intercalate, List.intersperse, ascii, newline]

theorem fieldText_rowFields {s : ImuSample} (h : Recordable s) : ∀ f ∈ rowFields s, FieldText f := by
  obtain ⟨hdt, ⟨hax, hay, haz⟩, ⟨hgx, hgy, hgz⟩⟩ := h
  simp only [rowFields, List.forall_mem_cons]
  exact ⟨fun c hc => mem_printInt hc, (readDt_dtText hdt).1, (readNumber_fmtF hax).1,
    (readNumber_fmtF hay).1, (readNumber_fmtF haz).1, (readNumber_fmtF hgx).1,
    (readNumber_fmtF hgy).1, (readNumber_fmtF hgz).1, List.forall_mem_nil _⟩

/-- The fields of a row are read as the sample. -/
theorem readFields_rowFields {s : ImuSample} (h : Recordable s) :
    readFields (rowFields s) = some s := by
  obtain ⟨hdt, ⟨hax, hay, haz⟩, ⟨hgx, hgy, hgz⟩⟩ := h
  rw [rowFields, readFields, readCounter_printInt, (readDt_dtText hdt).2, (readNumber_fmtF hax).2,
    (readNumber_fmtF hay).2, (readNumber_fmtF haz).2, (readNumber_fmtF hgx).2,
    (readNumber_fmtF hgy).2, (readNumber_fmtF hgz).2]
  rfl

/-- A byte that is neither in a field nor between two fields is not in the row. -/
theorem notMem_rowText {s : ImuSample} (h : Recordable s) {c : UInt8} (hd : isDigit c = false)
    (hm : c ∉ numMarks) (hc : c ≠ comma) : c ∉ rowText s := by
  have hall : ∀ f ∈ rowFields s, c ∉ f := fun f hf => (fieldText_rowFields h f hf).notMem hd hm
  simp only [rowFields, List.forall_mem_cons] at hall
  simp [rowText, rowFields, List.intercalate, List.intersperse, hc, hall]

/-- A row is read as its sample. -/
theorem readLine_csvRow {s : ImuSample} (h : Recordable s) :
    readLine (rowText s ++ [0x0D]) = some s := by
  have hcr : stripCr (rowText s ++ [0x0D]) = rowText s := by simp [stripCr]
  have hfields : (rowText s).splitOn comma = rowFields s :=
    List.splitOn_intercalate comma
      (fun f hf => (fieldText_rowFields h f hf).notMem (by decide) (by decide)) (by simp [rowFields])
  have hne : rowText s ≠ [] := by
    intro hnil
    simp [hnil, rowFields] at hfields
  have htake : takeFields csvMaxFields (rowText s) = rowFields s := by
    rw [takeFields_eq, hfields]
    rfl
  have hlen : (rowFields s).length ≠ csvMaxFields := by simp [rowFields, csvMaxFields]
  rw [readLine, hcr, if_neg hne, htake]
  exact (if_neg hlen).trans (readFields_rowFields h)

/-! ## The file -/

/-- The lines of the rows; after the last one the text ends. -/
theorem splitOn_rows {samples : List ImuSample} (h : ∀ s ∈ samples, Recordable s) :
    (samples.flatMap csvRow).splitOn newline = samples.map (rowText · ++ [0x0D]) ++ [[]] := by
  induction samples with
  | nil => rfl
  | cons s samples ih =>
    rw [List.forall_mem_cons] at h
    have hline : newline ∉ rowText s ++ [0x0D] := by
      rw [List.mem_append, not_or]
      exact ⟨notMem_rowText h.1 (by decide) (by decide) (by decide), by decide⟩
    have hrow : (s :: samples).flatMap csvRow =
        (rowText s ++ [0x0D]) ++ newline :: samples.flatMap csvRow := by
      simp [csvRow_eq]
    rw [hrow, List.splitOn_append_cons_self_of_not_mem hline, ih h.2]
    rfl

theorem zero_notMem_csvWrite {samples : List ImuSample} (h : ∀ s ∈ samples, Recordable s) :
    0 ∉ csvWrite samples := by
  rw [csvWrite, List.mem_append, List.mem_flatMap]
  rintro (hmem | ⟨s, hs, hmem⟩)
  · exact absurd hmem (by decide +kernel)
  · have := notMem_rowText (h s hs) (c := 0) (by decide) (by decide) (by decide)
    simp [csvRow_eq, this, newline] at hmem

/-- A recording is read as it was. -/
theorem csvRead_csvWrite (samples : List ImuSample) (h : ∀ s ∈ samples, Recordable s) :
    csvRead (csvWrite samples) = samples := by
  -- the header is a line that no sample is read from
  obtain ⟨head, hheader, hline, hskip⟩ :
      ∃ head, header = head ++ [newline] ∧ newline ∉ head ∧ readLine head = none :=
    ⟨header.dropLast, by decide +kernel, by decide +kernel, by decide +kernel⟩
  have hrows : (samples.map (rowText · ++ [0x0D])).filterMap readLine = samples := by
    rw [List.filterMap_map]
    refine (List.filterMap_congr fun s hs => readLine_csvRow (h s hs)).trans ?_
    exact List.filterMap_some
  -- each row ends with a carriage return, which the reader takes off
  rw [csvRead_eq_filterMap (zero_notMem_csvWrite h), csvWrite, hheader, List.append_assoc,
    List.singleton_append, List.splitOn_append_cons_self_of_not_mem hline, splitOn_rows h,
    List.filterMap_cons_none hskip, List.filterMap_append, hrows]
  simp

/-- Two samples of a device: the first one without a time step, the second one of the largest
counter and with eight milliseconds. -/
theorem csvRead_csvWrite_pair :
    csvRead (csvWrite
      [⟨0, .nan, ⟨.ofInt (-4096), .ofInt 0, .ofInt 7⟩, ⟨.ofInt 1, .ofInt 2, .ofInt 3⟩⟩,
        ⟨4294967295, .ofRat false (1 / 125), ⟨.ofInt 1, .ofInt 2, .ofInt 3⟩,
          ⟨.ofInt 9007199254740991, .ofInt 0, .ofInt (-1)⟩⟩]) =
      [⟨0, .nan, ⟨.ofInt (-4096), .ofInt 0, .ofInt 7⟩, ⟨.ofInt 1, .ofInt 2, .ofInt 3⟩⟩,
        ⟨4294967295, .ofRat false (1 / 125), ⟨.ofInt 1, .ofInt 2, .ofInt 3⟩,
          ⟨.ofInt 9007199254740991, .ofInt 0, .ofInt (-1)⟩⟩] := by
  have hvec : ∀ a b c : ℤ, a.natAbs < 2 ^ 53 → b.natAbs < 2 ^ 53 → c.natAbs < 2 ^ 53 →
      (Vec3.mk (.ofInt a) (.ofInt b) (.ofInt c)).All RecordableInt := fun _ _ _ ha hb hc =>
    ⟨recordableInt_ofInt ha, recordableInt_ofInt hb, recordableInt_ofInt hc⟩
  refine csvRead_csvWrite _ (List.forall_mem_cons.mpr ⟨?_, List.forall_mem_singleton.mpr ?_⟩)
  · exact ⟨trivial, hvec (-4096) 0 7 (by decide) (by decide) (by decide),
      hvec 1 2 3 (by decide) (by decide) (by decide)⟩
  · exact ⟨by decide +kernel, hvec 1 2 3 (by decide) (by decide) (by decide),
      hvec 9007199254740991 0 (-1) (by decide) (by decide) (by decide)⟩

end Csv
