import LgMagic.Toml.Tokens

/-!
# The numbers of a document

The numbers that a document may hold, as a grammar with their values, and that the parser reads each
of them to its end.

* `DigitsText`, `ExponentText`, `DecimalText`, `NumberText`: the grammar;
* `DecimalText.scan`, `DecimalText.read`: the scan and `strtod` go to the end of a number;
* `parseNumber_of_text`: the parser takes every number.
-/

namespace Toml

open CString Printf

/-- Digits, with an underscore between two of them here and there. -/
inductive DigitsText : Bytes → Prop
  | single {c : UInt8} : isDigit c = true → DigitsText [c]
  | cons {c : UInt8} {text : Bytes} : isDigit c = true → DigitsText text → DigitsText (c :: text)
  | separated {c : UInt8} {text : Bytes} : isDigit c = true → DigitsText text →
      DigitsText (c :: 0x5F :: text)

/-- An optional exponent. -/
inductive ExponentText : Bytes → Prop
  | none : ExponentText []
  | some {c : UInt8} {sign text : Bytes} : c = 0x65 ∨ c = 0x45 → SignText sign → DigitsText text →
      ExponentText (c :: (sign ++ text))

/-- Digits with a point among them, in front of them or behind them, and an optional exponent. -/
inductive DecimalText : Bytes → Prop
  | whole {ip e : Bytes} : DigitsText ip → ExponentText e → DecimalText (ip ++ e)
  | pointEnd {ip e : Bytes} : DigitsText ip → ExponentText e → DecimalText (ip ++ 0x2E :: e)
  | fraction {ip fp e : Bytes} : DigitsText ip → DigitsText fp → ExponentText e →
      DecimalText (ip ++ 0x2E :: (fp ++ e))
  | pointStart {fp e : Bytes} : DigitsText fp → ExponentText e → DecimalText (0x2E :: (fp ++ e))

/-- A number and its value: an integer in the range of `long long`, or a float; without underscores
it fits the buffer. -/
inductive NumberText : Bytes → TomlValue → Prop
  | int {sign text : Bytes} {i : Int64} : SignText sign → DigitsText text →
      (clean (sign ++ text)).length < cleanedSize →
      i.toInt = signed sign (natOfDigits ((clean text).map digitVal)) →
      NumberText (sign ++ text) (.int i)
  | float {sign text : Bytes} : SignText sign → DecimalText text → isFloatToken text = true →
      (clean (sign ++ text)).length < cleanedSize →
      NumberText (sign ++ text) (.float (strtodDecimal (clean (sign ++ text))).1)

/-- No byte of a number follows. -/
def NoNumber (t : Bytes) : Prop :=
  ∀ c ∈ t.head?, isDigit c = false ∧ c ≠ 0x5F ∧ c ≠ 0x2E ∧ c ≠ 0x65 ∧ c ≠ 0x45

section

variable {text t sign : Bytes} {st : NumScan}

theorem DigitsText.head (h : DigitsText text) : ∃ c cs, text = c :: cs ∧ isDigit c = true := by
  cases h with
  | single hc => exact ⟨_, _, rfl, hc⟩
  | cons hc => exact ⟨_, _, rfl, hc⟩
  | separated hc => exact ⟨_, _, rfl, hc⟩

theorem DigitsText.clean (h : DigitsText text) : clean text ≠ [] ∧ ∀ c ∈ clean text, isDigit c = true := by
  have hne : ∀ {c : UInt8}, isDigit c = true → c ≠ 0x5F := by
    rintro c hc rfl
    cases hc
  induction h with
  | single hc => simp [clean_cons (hne hc), hc]
  | cons hc _ ih => simpa [clean_cons (hne hc), hc] using ih.2
  | @separated c text hc _ ih =>
    rw [clean_cons (hne hc)]
    have hsep : Toml.clean (0x5F :: text) = Toml.clean text := rfl
    rw [hsep]
    simpa [hc] using ih.2

theorem DigitsText.isFloatToken (h : DigitsText text) : isFloatToken text = false := by
  rw [← isFloatToken_clean, Toml.isFloatToken, List.any_eq_false]
  intro c hc
  rw [isFloatByte_of_isDigit (h.clean.2 c hc)]
  decide

theorem scanNumber_digit {c : UInt8} (hc : isDigit c = true) (st : NumScan) (t : Bytes) :
    scanNumber st (c :: t) = scanNumber { st.push c with digits := st.digits + 1 } t := by
  rw [scanNumber.eq_def]
  simp [hc]

theorem scanNumber_separator {c : UInt8} (hc : isDigit c = true) (hst : 0 < st.digits) (t : Bytes) :
    scanNumber st (0x5F :: c :: t) = scanNumber st (c :: t) := by
  have hsep : isDigit 0x5F = false := rfl
  rw [scanNumber.eq_def]
  simp [hc, hst, hsep]

theorem scanNumber_stop (h : NoNumber t) (st : NumScan) : scanNumber st t = (st, t) := by
  cases t with
  | nil => rfl
  | cons c cs =>
    obtain ⟨h1, h2, h3, h4, h5⟩ := h c rfl
    rw [scanNumber.eq_def]
    simp [h1, h2, h3, h4, h5]

/-- The scan reads all the digits. -/
theorem DigitsText.scan (h : DigitsText text) (st : NumScan) (t : Bytes) :
    ∃ st', 0 < st'.digits ∧ scanNumber st (text ++ t) = scanNumber st' t := by
  induction h generalizing st with
  | single hc => exact ⟨_, Nat.succ_pos _, scanNumber_digit hc st t⟩
  | @cons c text hc _ ih =>
    obtain ⟨st', hpos, ih⟩ := ih { st.push c with digits := st.digits + 1 }
    exact ⟨st', hpos, by rw [List.cons_append, scanNumber_digit hc, ih]⟩
  | @separated c text hc htext ih =>
    obtain ⟨d, ds, rfl, hd⟩ := htext.head
    obtain ⟨st', hpos, ih⟩ := ih { st.push c with digits := st.digits + 1 }
    refine ⟨st', hpos, ?_⟩
    rw [List.cons_append, scanNumber_digit hc, List.cons_append, List.cons_append,
      scanNumber_separator hd (Nat.succ_pos _), ← List.cons_append, ih]

theorem ExponentText.scan (h : ExponentText text) (hst : 0 < st.digits) (t : Bytes) :
    ∃ st', 0 < st'.digits ∧ scanNumber st (text ++ t) = scanNumber st' t := by
  cases h with
  | none => exact ⟨st, hst, rfl⟩
  | @some c sign text hc hsign htext =>
    have hd : isDigit c = false := by rcases hc with rfl | rfl <;> rfl
    have hsep : c ≠ 0x5F := by rcases hc with rfl | rfl <;> decide
    have hpoint : c ≠ 0x2E := by rcases hc with rfl | rfl <;> decide
    obtain ⟨d, ds, rfl, hdigit⟩ := htext.head
    obtain ⟨-, hplus, hminus⟩ := digit_notSpace hdigit
    rcases hsign with rfl | rfl | rfl
    · obtain ⟨st', hpos, hscan⟩ := htext.scan { st.push c with isFloat := true } t
      refine ⟨st', hpos, hscan ▸ ?_⟩
      rw [List.nil_append, List.cons_append, List.cons_append, scanNumber.eq_def]
      simp [hd, hsep, hpoint, hc, hst, hplus, hminus]
    · obtain ⟨st', hpos, hscan⟩ := htext.scan { (st.push c).push 0x2B with isFloat := true } t
      refine ⟨st', hpos, hscan ▸ ?_⟩
      rw [List.cons_append, scanNumber.eq_def]
      simp [hd, hsep, hpoint, hc, hst]
    · obtain ⟨st', hpos, hscan⟩ := htext.scan { (st.push c).push 0x2D with isFloat := true } t
      refine ⟨st', hpos, hscan ▸ ?_⟩
      rw [List.cons_append, scanNumber.eq_def]
      simp [hd, hsep, hpoint, hc, hst]

theorem scanNumber_dot (st : NumScan) (t : Bytes) :
    scanNumber st (0x2E :: t) = scanNumber { st.push 0x2E with isFloat := true } t := by
  have hdot : isDigit 0x2E = false := rfl
  rw [scanNumber.eq_def]
  simp [hdot]

theorem DecimalText.scan (h : DecimalText text) (st : NumScan) (t : Bytes) :
    ∃ st', 0 < st'.digits ∧ scanNumber st (text ++ t) = scanNumber st' t := by
  cases h with
  | @whole ip e hip he =>
    obtain ⟨st₁, hpos, h1⟩ := hip.scan st (e ++ t)
    obtain ⟨st₂, hpos, h2⟩ := he.scan hpos t
    exact ⟨st₂, hpos, by rw [List.append_assoc, h1, h2]⟩
  | @pointEnd ip e hip he =>
    obtain ⟨st₁, hpos, h1⟩ := hip.scan st (0x2E :: (e ++ t))
    have hpos' : 0 < NumScan.digits { st₁.push 0x2E with isFloat := true } := by simpa using hpos
    obtain ⟨st₂, hpos, h2⟩ := he.scan hpos' t
    exact ⟨st₂, hpos, by rw [List.append_assoc, List.cons_append, h1, scanNumber_dot, h2]⟩
  | @fraction ip fp e hip hfp he =>
    obtain ⟨st₁, -, h1⟩ := hip.scan st (0x2E :: (fp ++ (e ++ t)))
    obtain ⟨st₂, hpos, h2⟩ := hfp.scan { st₁.push 0x2E with isFloat := true } (e ++ t)
    obtain ⟨st₃, hpos, h3⟩ := he.scan hpos t
    refine ⟨st₃, hpos, ?_⟩
    rw [List.append_assoc, List.cons_append, List.append_assoc, h1, scanNumber_dot, h2, h3]
  | @pointStart fp e hfp he =>
    obtain ⟨st₁, hpos, h1⟩ := hfp.scan { st.push 0x2E with isFloat := true } (e ++ t)
    obtain ⟨st₂, hpos, h2⟩ := he.scan hpos t
    exact ⟨st₂, hpos, by rw [List.cons_append, List.append_assoc, scanNumber_dot, h1, h2]⟩

/-! ## Reading a decimal to its end -/

/-- An exponent is read to its end. -/
theorem ExponentText.takeExp (h : ExponentText text) : (takeExp (Toml.clean text)).2 = [] := by
  cases h with
  | none => rfl
  | @some c sign text hc hsign htext =>
    obtain ⟨hne, hall⟩ := htext.clean
    have hsep : c ≠ 0x5F := by rcases hc with rfl | rfl <;> decide
    have hsigned : Printf.takeSign (sign ++ Toml.clean text) =
        (decide (sign = [0x2D]), Toml.clean text) :=
      hsign.takeSign fun b hb => (digit_notSpace (hall b (List.mem_of_mem_head? hb))).2
    have htake : (Toml.clean text).takeWhile isDigit = Toml.clean text :=
      List.takeWhile_eq_self_iff.mpr hall
    have hdrop : (Toml.clean text).dropWhile isDigit = [] := List.dropWhile_eq_nil_iff.mpr hall
    rw [clean_cons hsep, clean_append, hsign.cases.1]
    simp [Printf.takeExp, hc, hsigned, htake, hdrop, hne]

/-- An exponent does not start with a digit. -/
theorem ExponentText.head (h : ExponentText text) :
    ∀ c ∈ (Toml.clean text).head?, c = 0x65 ∨ c = 0x45 := by
  cases h with
  | none => simp
  | some hc _ _ =>
    have hsep : ∀ {c : UInt8}, c = 0x65 ∨ c = 0x45 → c ≠ 0x5F := by rintro c (rfl | rfl) <;> decide
    rw [clean_cons (hsep hc)]
    simpa using hc

/-- A text whose pieces are read to the end is read to the end. -/
theorem strtodDecimal_pieces {ip fp t' : Bytes} (hsign : SignText sign)
    (hip : ∀ c ∈ ip, isDigit c = true) (hhead : ∀ c ∈ t.head?, c = 0x2E ∨ c = 0x65 ∨ c = 0x45)
    (hfrac : takeFraction t = (fp, t')) (hexp : (Printf.takeExp t').2 = [])
    (hne : ip ≠ [] ∨ fp ≠ []) : (strtodDecimal (sign ++ (ip ++ t))).2 = [] := by
  have hnodigit : ∀ c ∈ t.head?, isDigit c = false := by
    intro c hc
    rcases hhead c hc with rfl | rfl | rfl <;> rfl
  have hafter : ∀ c ∈ (ip ++ t).head?, isSpace c = false ∧ c ≠ 0x2B ∧ c ≠ 0x2D := by
    intro c hc
    cases ip with
    | nil => rcases hhead c hc with rfl | rfl | rfl <;> decide
    | cons d ds =>
      obtain rfl : d = c := by simpa using hc
      exact digit_notSpace (hip d List.mem_cons_self)
  obtain ⟨htake, hdrop⟩ := span_append isDigit hnodigit ip
  rw [List.takeWhile_eq_self_iff.mpr hip] at htake
  rw [List.dropWhile_eq_nil_iff.mpr hip, List.nil_append] at hdrop
  have hsigned : takeSign (sign ++ (ip ++ t)) = (decide (sign = [0x2D]), ip ++ t) :=
    hsign.takeSign fun c hc => (hafter c hc).2
  have hdigits : ¬ (ip = [] ∧ fp = []) := fun ⟨h1, h2⟩ => hne.elim (· h1) (· h2)
  simp only [strtodDecimal, hsign.dropWhile_isSpace fun c hc => (hafter c hc).1, hsigned, htake,
    hdrop, hfrac, if_neg hdigits, hexp]

theorem DecimalText.read (h : DecimalText text) (hsign : SignText sign) :
    (strtodDecimal (Toml.clean (sign ++ text))).2 = [] := by
  have hpoint : (0x2E : UInt8) ≠ 0x5F := by decide
  have hexphead : ∀ {e : Bytes}, ExponentText e →
      ∀ c ∈ (Toml.clean e).head?, c = 0x2E ∨ c = 0x65 ∨ c = 0x45 :=
    fun he c hc => .inr (he.head c hc)
  -- without a point the exponent follows the digits at once
  have hnopoint : ∀ {e : Bytes}, ExponentText e → takeFraction (Toml.clean e) = ([], Toml.clean e) := by
    intro e he
    have hhead := he.head
    cases hclean : Toml.clean e with
    | nil => rfl
    | cons c cs =>
      rw [hclean] at hhead
      rcases hhead c rfl with rfl | rfl <;> rfl
  -- with a point the digits of the fraction are read up to the exponent
  have hspan : ∀ {fp e : Bytes}, (∀ c ∈ fp, isDigit c = true) → ExponentText e →
      takeFraction (0x2E :: (fp ++ Toml.clean e)) = (fp, Toml.clean e) := by
    intro fp e hfp he
    have hstop : ∀ c ∈ (Toml.clean e).head?, isDigit c = false := by
      intro c hc
      rcases he.head c hc with rfl | rfl <;> rfl
    obtain ⟨htake, hdrop⟩ := span_append isDigit hstop fp
    rw [List.takeWhile_eq_self_iff.mpr hfp] at htake
    rw [List.dropWhile_eq_nil_iff.mpr hfp, List.nil_append] at hdrop
    simp [takeFraction, htake, hdrop]
  have hnone : ∀ c ∈ ([] : Bytes), isDigit c = true := by simp
  rw [clean_append, hsign.cases.1]
  -- the pieces of a decimal, by where its point is
  cases h with
  | whole hip he =>
    rw [clean_append]
    exact strtodDecimal_pieces hsign hip.clean.2 (hexphead he) (hnopoint he) he.takeExp
      (.inl hip.clean.1)
  | pointEnd hip he =>
    rw [clean_append, clean_cons hpoint]
    refine strtodDecimal_pieces hsign hip.clean.2 ?_ (hspan hnone he) he.takeExp
      (.inl hip.clean.1)
    simp
  | fraction hip hfp he =>
    rw [clean_append, clean_cons hpoint, clean_append]
    refine strtodDecimal_pieces hsign hip.clean.2 ?_ (hspan hfp.clean.2 he) he.takeExp
      (.inl hip.clean.1)
    simp
  | pointStart hfp he =>
    rw [clean_cons hpoint, clean_append]
    refine strtodDecimal_pieces hsign hnone ?_ (hspan hfp.clean.2 he) he.takeExp
      (.inr hfp.clean.1)
    simp

/-- The scan of a token goes on with the number after its sign. -/
theorem SignText.scanToken (h : SignText sign) (htext : ∀ c ∈ text.head?, c ≠ 0x2B ∧ c ≠ 0x2D) :
    scanToken (sign ++ text) = scanNumber ⟨sign, false, 0⟩ text := by
  rcases h with rfl | rfl | rfl
  · cases text with
    | nil => rfl
    | cons c cs =>
      have hc : ¬ (c = 0x2B ∨ c = 0x2D) := not_or.mpr (htext c rfl)
      rw [List.nil_append, Toml.scanToken, if_neg hc]
  · rfl
  · rfl

theorem DigitsText.noSign (h : DigitsText text) (t : Bytes) :
    ∀ c ∈ (text ++ t).head?, c ≠ 0x2B ∧ c ≠ 0x2D := by
  obtain ⟨c, cs, rfl, hc⟩ := h.head
  simpa using (digit_notSpace hc).2

theorem DecimalText.noSign (h : DecimalText text) (t : Bytes) :
    ∀ c ∈ (text ++ t).head?, c ≠ 0x2B ∧ c ≠ 0x2D := by
  cases h with
  | whole hip | pointEnd hip | fraction hip =>
    rw [List.append_assoc]
    exact hip.noSign _
  | pointStart => simp

/-- What the parser has of a number that fits its buffer. -/
theorem scanToken_of_text (hsign : SignText sign)
    (hscan : ∃ st', 0 < st'.digits ∧ scanNumber ⟨sign, false, 0⟩ (text ++ t) = scanNumber st' t)
    (hhead : ∀ c ∈ (text ++ t).head?, c ≠ 0x2B ∧ c ≠ 0x2D)
    (hfit : (Toml.clean (sign ++ text)).length < cleanedSize) (ht : NoNumber t) :
    ∃ n, 0 < n ∧ Toml.scanToken (sign ++ text ++ t) =
      (⟨Toml.clean (sign ++ text), Toml.isFloatToken (sign ++ text), n⟩, t) := by
  obtain ⟨⟨cleaned, isFloat, digits⟩, hpos, hscan⟩ := hscan
  rw [scanNumber_stop ht] at hscan
  have htoken : Toml.scanToken (sign ++ text ++ t) = (⟨cleaned, isFloat, digits⟩, t) := by
    rw [List.append_assoc, hsign.scanToken hhead, hscan]
  obtain ⟨sign', text', -, heq, hcleaned, hfloat, -, -⟩ := scanToken_collects htoken
  rw [List.append_left_inj] at heq
  rw [← heq] at hcleaned hfloat
  rw [List.take_of_length_le (by omega)] at hcleaned
  refine ⟨digits, hpos, ?_⟩
  simp only at hcleaned hfloat
  rw [htoken, hcleaned, hfloat]

/-- The parser takes every number, whatever follows that is no part of a number. -/
theorem parseNumber_of_text {v : TomlValue} (h : NumberText text v) (ht : NoNumber t) (line : ℕ) :
    parseNumber ⟨text ++ t, line⟩ = .ok (v, ⟨t, line⟩) := by
  cases h with
  | @int sign text i hsign htext hfit hval =>
    obtain ⟨n, hpos, hscan⟩ := scanToken_of_text hsign (htext.scan _ t) (htext.noSign t) hfit ht
    obtain ⟨hclean, hnofloat, -, -⟩ := hsign.cases
    obtain ⟨hne, hall⟩ := htext.clean
    have hread := (strtoll_signed_eq hsign hne hall).mpr hval
    rw [isFloatToken_append, hnofloat, htext.isFloatToken, clean_append, hclean] at hscan
    rw [clean_append, hclean] at hfit
    have hne' : sign ++ Toml.clean text ≠ [] := List.append_ne_nil_of_right_ne_nil _ hne
    simp only [parseNumber, hscan, hread, if_neg (not_or.mpr ⟨hpos.ne', not_le.mpr hfit⟩)]
    simp [hne'.symm]
  | @float sign text hsign htext hfloat hfit =>
    obtain ⟨n, hpos, hscan⟩ := scanToken_of_text hsign (htext.scan _ t) (htext.noSign t) hfit ht
    have hread := htext.read hsign
    have hne : Toml.clean (sign ++ text) ≠ [] := by
      intro hnil
      have hkind := isFloatToken_clean (sign ++ text)
      rw [hnil, isFloatToken_append, hfloat, Bool.or_true] at hkind
      cases hkind
    rw [isFloatToken_append, hfloat, Bool.or_true] at hscan
    simp only [parseNumber, hscan, hread, if_neg (not_or.mpr ⟨hpos.ne', not_le.mpr hfit⟩)]
    rw [if_neg (not_or.mpr ⟨hne.symm, not_not.mpr rfl⟩), if_pos trivial]

end

end Toml
