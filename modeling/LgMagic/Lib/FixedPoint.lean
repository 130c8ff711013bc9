import LgMagic.Lib.Printf

/-!
# Texts of `%.Pf`

A binary64 value is printed with a number of decimals and read back. Where the format is finer than
the decimals, the value read has the decimals that were printed; where it is coarser, the value is
read back as it was. So printing and reading once more changes nothing.

* `fText`, `fmtF`: the text; `fixedVal`: the decimal; `toFixed`: the value read back;
* `toFixed_of_natCast`: integers are read back;
* `toFixed_toFixed`: a second time changes nothing.
-/

namespace Printf

open Binary64 CString Rounding

/-! ## The text -/

/-- The digits of a number, filled up with zeros in front. -/
def padDigits (P n : ℕ) : List ℕ := List.replicate (P - (decDigits n).length) 0 ++ decDigits n

/-- A magnitude in units of the last decimal. -/
def fixedInt (P : ℕ) (q : ℚ) : ℕ := (roundHalfEven (q * 10 ^ P)).toNat

/-- The parts `%.Pf` prints for a finite value. -/
def fText (P : ℕ) (x : Finite) : NumText :=
  let n := fixedInt P x.mag
  ⟨x.neg, decDigits (n / 10 ^ P), if P = 0 then [] else padDigits P (n % 10 ^ P), none⟩

/-- The text of `%.Pf`. -/
def fmtF (P : ℕ) : Double → Bytes
  | .nan => ascii "nan"
  | .inf neg => (if neg then [0x2D] else []) ++ ascii "inf"
  | .finite x => (fText P x).render

/-- The decimal nearest to a magnitude. -/
def fixedVal (P : ℕ) (q : ℚ) : ℚ := fixedInt P q / 10 ^ P

/-- The value nearest to the decimal that is nearest to a value. -/
def toFixed (P : ℕ) : Double → Double
  | .finite x => .ofRat x.neg (fixedVal P x.mag)
  | d => d

theorem natOfDigits_padDigits (P n : ℕ) : natOfDigits (padDigits P n) = n := by
  rw [padDigits, natOfDigits_append, natOfDigits_replicate_zero, zero_mul, zero_add,
    natOfDigits_decDigits]

theorem padDigits_lt {P n d : ℕ} (h : d ∈ padDigits P n) : d < 10 := by
  rcases List.mem_append.mp h with h | h
  · rw [(List.mem_replicate.mp h).2]
    norm_num
  · exact decDigits_lt h

theorem length_padDigits {P n : ℕ} (hP : P ≠ 0) (h : n < 10 ^ P) : (padDigits P n).length = P := by
  obtain ⟨k, rfl⟩ := Nat.exists_eq_succ_of_ne_zero hP
  have := decDigits_length_le h
  rw [padDigits, List.length_append, List.length_replicate]
  omega

theorem fText_wellFormed (P : ℕ) (x : Finite) : (fText P x).WellFormed where
  ip_ne := decDigits_ne_nil _
  ip_lt _ hd := decDigits_lt hd
  fp_lt d hd := by
    rw [fText] at hd
    split_ifs at hd
    · simp at hd
    · exact padDigits_lt hd

/-- The text denotes the decimal. -/
theorem fText_mag (P : ℕ) (x : Finite) : (fText P x).mag = fixedVal P x.mag := by
  rw [fText, NumText.mag, fixedVal]
  by_cases hP : P = 0
  · subst hP
    simp [natOfDigits_decDigits]
  · have hlt : fixedInt P x.mag % 10 ^ P < 10 ^ P := Nat.mod_lt _ (by positivity)
    simp only [if_neg hP]
    rw [natOfDigits_append, natOfDigits_decDigits, natOfDigits_padDigits, length_padDigits hP hlt,
      Nat.div_add_mod', Option.getD_none, zero_sub, zpow_neg, zpow_natCast, div_eq_mul_inv]

/-! ## A prefix of the digits -/

theorem natOfDigits_lt {ds : List ℕ} (h : ∀ d ∈ ds, d < 10) : natOfDigits ds < 10 ^ ds.length := by
  rw [natOfDigits_eq_ofDigits, ← List.length_reverse]
  exact Nat.ofDigits_lt_base_pow_length (by norm_num) fun d hd => h d (List.mem_reverse.mp hd)

/-- The first digits of a number that has more of them. -/
theorem natOfDigits_take_decDigits {n a : ℕ} (ha : 0 < a) (hn : 10 ^ a ≤ n) :
    10 ^ (a - 1) ≤ natOfDigits ((decDigits n).take a) ∧ natOfDigits ((decDigits n).take a) < 10 ^ a ∧
      10 * natOfDigits ((decDigits n).take a) ≤ n := by
  have hdigits : ∀ d ∈ decDigits n, d < 10 := fun d => decDigits_lt
  have hpos : n ≠ 0 := (lt_of_lt_of_le (Nat.pow_pos (by norm_num)) hn).ne'
  -- the number of the digits is that of the power of ten below the number
  obtain ⟨k, hlo, hhi⟩ : ∃ k, 10 ^ k ≤ n ∧ n < 10 ^ (k + 1) :=
    ⟨Nat.log 10 n, Nat.pow_log_le_self 10 hpos, Nat.lt_pow_succ_log_self (by norm_num) n⟩
  have hlen : (decDigits n).length = k + 1 := decDigits_length hlo hhi
  have hak : a < k + 1 := (Nat.pow_lt_pow_iff_right (by norm_num)).mp (lt_of_le_of_lt hn hhi)
  -- the digits that are cut are less than one in the last place that stays
  have hsplit : natOfDigits ((decDigits n).take a) * 10 ^ (k + 1 - a) +
      natOfDigits ((decDigits n).drop a) = n := by
    conv_rhs => rw [← natOfDigits_decDigits n, ← List.take_append_drop a (decDigits n)]
    rw [natOfDigits_append, List.length_drop, hlen]
  have hdrop : natOfDigits ((decDigits n).drop a) < 10 ^ (k + 1 - a) := by
    have := natOfDigits_lt fun d hd => hdigits d (List.mem_of_mem_drop (i := a) hd)
    rwa [List.length_drop, hlen] at this
  have htake := natOfDigits_lt fun d hd => hdigits d (List.mem_of_mem_take (i := a) hd)
  rw [List.length_take, hlen, min_eq_left hak.le] at htake
  refine ⟨?_, htake, ?_⟩
  · have hpow : 10 ^ (a - 1) * 10 ^ (k + 1 - a) ≤ n := by
      rw [← pow_add]
      exact le_trans (Nat.pow_le_pow_right (by norm_num) (by omega)) hlo
    have hlt : 10 ^ (a - 1) * 10 ^ (k + 1 - a) <
        (natOfDigits ((decDigits n).take a) + 1) * 10 ^ (k + 1 - a) := by
      rw [add_mul, one_mul]
      omega
    have := Nat.lt_of_mul_lt_mul_right hlt
    omega
  · calc 10 * natOfDigits ((decDigits n).take a)
        ≤ natOfDigits ((decDigits n).take a) * 10 ^ (k + 1 - a) := by
          rw [mul_comm]
          exact Nat.mul_le_mul_left _ (Nat.le_self_pow (by omega) 10)
      _ ≤ n := by omega

/-! ## The decimal -/

theorem fixedInt_eq_roundHalfEven (P : ℕ) {q : ℚ} (hq : 0 ≤ q) :
    (fixedInt P q : ℤ) = roundHalfEven (q * 10 ^ P) :=
  Int.toNat_of_nonneg (roundHalfEven_nonneg (by positivity))

/-- A decimal is its own nearest decimal. -/
theorem fixedInt_natCast_div (P k : ℕ) : fixedInt P ((k : ℚ) / 10 ^ P) = k := by
  rw [fixedInt, div_mul_cancel₀ _ (by positivity), roundHalfEven_natCast, Int.toNat_natCast]

theorem fixedVal_natCast (P n : ℕ) : fixedVal P n = n := by
  have hn : (n : ℚ) = ((n * 10 ^ P : ℕ) : ℚ) / 10 ^ P := by
    rw [Nat.cast_mul, Nat.cast_pow, Nat.cast_ofNat, mul_div_cancel_right₀ _ (by positivity)]
  rw [fixedVal, hn, fixedInt_natCast_div]

theorem fixedVal_mono (P : ℕ) {q r : ℚ} (h : q ≤ r) : fixedVal P q ≤ fixedVal P r := by
  have hround : fixedInt P q ≤ fixedInt P r :=
    Int.toNat_le_toNat (roundHalfEven_mono (by gcongr))
  have : (fixedInt P q : ℚ) ≤ fixedInt P r := by exact_mod_cast hround
  rw [fixedVal, fixedVal]
  gcongr

/-- The decimal is within half a unit of its last place. -/
theorem abs_fixedVal_sub_le (P : ℕ) {q : ℚ} (hq : 0 ≤ q) :
    |fixedVal P q - q| ≤ 1 / 2 / 10 ^ P := by
  have hround := abs_roundHalfEven_sub_le (q * 10 ^ P)
  rw [← fixedInt_eq_roundHalfEven P hq, Int.cast_natCast] at hround
  have hfac : fixedVal P q - q = (fixedInt P q - q * 10 ^ P) / 10 ^ P := by
    rw [fixedVal]
    field_simp
  rw [hfac, abs_div, abs_of_pos (by positivity : (0 : ℚ) < 10 ^ P)]
  gcongr

/-! ## Reading the decimal back -/

section

variable {P : ℕ} {x y : Finite}

/-- An integer is read back as it was. -/
theorem toFixed_of_natCast {n : ℕ} (h : x.mag = n) : toFixed P (.finite x) = .finite x := by
  rw [toFixed, h, fixedVal_natCast, ← h, Double.ofRat_mag]

/-- Magnitudes with the same significand are read as the same value. -/
theorem ofRat_congr {q r : ℚ} (hq : 0 < q) (hr : 0 < r) (h : binSig q = binSig r) (neg : Bool) :
    Double.ofRat neg q = Double.ofRat neg r := by
  rw [Double.ofRat, Double.ofRat, dif_pos hq, dif_pos hr]
  simp only [h]

/-- A magnitude near a normal value, in its binade, has the significand of the value. -/
theorem binSig_eq_of_near {q : ℚ} (hlo : (2 : ℚ) ^ (x.e + 52) ≤ q) (hhi : q < (2 : ℚ) ^ (x.e + 53))
    (hnear : |(x.m : ℚ) - q / (2 : ℚ) ^ x.e| < 1 / 2) : binSig q = ⟨x.m, x.e⟩ := by
  have hq : 0 < q := lt_of_lt_of_le (by positivity) hlo
  have hlog : Int.log 2 q = x.e + 52 := by
    have h1 : x.e + 52 ≤ Int.log 2 q := (Int.zpow_le_iff_le_log (by norm_num) hq).mp hlo
    have h2 : Int.log 2 q < x.e + 53 := (Int.lt_zpow_iff_log_lt (by norm_num) hq).mp hhi
    omega
  have hunit : binUnit q = x.e := by
    have := x.e_min
    rw [binUnit, hlog]
    omega
  have hround : roundHalfEven (q / (2 : ℚ) ^ x.e) = x.m := by
    refine roundHalfEven_eq ?_
    exact_mod_cast hnear
  rw [binSig, hunit, roundSig]
  simp only [Nat.cast_ofNat, hround, Int.toNat_natCast]
  rw [if_neg x.m_lt.ne]

/-- Where the unit of the format is not below `2 ^ -s`, the decimals move a value by less than half of
it. -/
theorem abs_fixedVal_sub_lt {s : ℕ} (hP : 2 ^ s < 10 ^ P) (he : -(s : ℤ) ≤ x.e) :
    |fixedVal P x.mag - x.mag| < (2 : ℚ) ^ x.e / 2 := by
  have hunit : (1 : ℚ) / 10 ^ P < (2 : ℚ) ^ x.e :=
    calc (1 : ℚ) / 10 ^ P < 1 / 2 ^ s := by
          have : (2 : ℚ) ^ s < 10 ^ P := by exact_mod_cast hP
          gcongr
      _ = (2 : ℚ) ^ (-(s : ℤ)) := by rw [zpow_neg, zpow_natCast, one_div]
      _ ≤ (2 : ℚ) ^ x.e := zpow_le_zpow_right₀ (by norm_num) he
  have hmag : 0 ≤ x.mag := by rw [Finite.mag]; positivity
  refine lt_of_le_of_lt (abs_fixedVal_sub_le P hmag) ?_
  linarith [show (1 : ℚ) / 2 / 10 ^ P = 1 / 10 ^ P / 2 by ring]

theorem zpow_add_nat (e : ℤ) (k : ℕ) : (2 : ℚ) ^ (e + k) = 2 ^ k * (2 : ℚ) ^ e := by
  simpa using zpow_add_digits one_lt_two e k

/-- The decimals of a value with an integer at the start of its binade stay in the binade. -/
theorem fixedVal_mem_binade (hm : 2 ^ 52 ≤ x.m) (he : 0 ≤ x.e + 52)
    (hnear : |fixedVal P x.mag - x.mag| < (2 : ℚ) ^ x.e / 2) :
    (2 : ℚ) ^ (x.e + 52) ≤ fixedVal P x.mag ∧ fixedVal P x.mag < (2 : ℚ) ^ (x.e + 53) := by
  have hu : (0 : ℚ) < (2 : ℚ) ^ x.e := by positivity
  constructor
  · obtain ⟨n, hn⟩ := Int.eq_ofNat_of_zero_le he
    have hstart : (2 : ℚ) ^ (x.e + 52) = (2 ^ n : ℕ) := by
      rw [hn, zpow_natCast, Nat.cast_pow, Nat.cast_two]
    have hm' : (2 : ℚ) ^ 52 ≤ x.m := by exact_mod_cast hm
    rw [hstart, ← fixedVal_natCast P (2 ^ n)]
    apply fixedVal_mono
    rw [← hstart, Finite.mag]
    calc (2 : ℚ) ^ (x.e + 52) = 2 ^ 52 * (2 : ℚ) ^ x.e := zpow_add_nat x.e 52
      _ ≤ x.m * (2 : ℚ) ^ x.e := by gcongr
  · have hm' : (x.m : ℚ) + 1 ≤ 2 ^ 53 := by exact_mod_cast x.m_lt
    have hmag : x.mag + (2 : ℚ) ^ x.e ≤ (2 : ℚ) ^ (x.e + 53) :=
      calc x.mag + (2 : ℚ) ^ x.e = (x.m + 1) * (2 : ℚ) ^ x.e := by rw [Finite.mag]; ring
        _ ≤ 2 ^ 53 * (2 : ℚ) ^ x.e := by gcongr
        _ = (2 : ℚ) ^ (x.e + 53) := (zpow_add_nat x.e 53).symm
    linarith [(abs_lt.mp hnear).2]

/-- Where the format is coarser than the decimals, the value is read back. -/
theorem toFixed_of_coarse {s : ℕ} (hP : 2 ^ s < 10 ^ P) (hs : s ≤ 52)
    (hx : (2 : ℚ) ^ (52 - s) ≤ x.mag) : toFixed P (.finite x) = .finite x := by
  have hpos : 0 < x.mag := lt_of_lt_of_le (by positivity) hx
  have he : -(s : ℤ) ≤ x.e := by
    have hlt := lt_of_le_of_lt hx x.mag_lt
    rw [← zpow_natCast] at hlt
    have := (zpow_lt_zpow_iff_right₀ (by norm_num : (1 : ℚ) < 2)).mp hlt
    omega
  rcases le_or_gt 0 x.e with hnat | hneg
  · -- no digits after the point
    obtain ⟨n, hn⟩ := Int.eq_ofNat_of_zero_le hnat
    refine toFixed_of_natCast (n := x.m * 2 ^ n) ?_
    rw [Finite.mag, hn]
    push_cast
    rw [zpow_natCast]
  · -- the decimal is nearer to the value than to its neighbours
    have hnear := abs_fixedVal_sub_lt hP he
    obtain ⟨hlo, hhi⟩ := fixedVal_mem_binade (x.canonical.resolve_left (by omega)) (by omega) hnear
    have hu : (0 : ℚ) < (2 : ℚ) ^ x.e := by positivity
    have hround : |(x.m : ℚ) - fixedVal P x.mag / (2 : ℚ) ^ x.e| < 1 / 2 := by
      have hfac : (x.m : ℚ) - fixedVal P x.mag / (2 : ℚ) ^ x.e =
          -((fixedVal P x.mag - x.mag) / (2 : ℚ) ^ x.e) := by
        rw [Finite.mag]
        field_simp
        ring
      rw [hfac, abs_neg, abs_div, abs_of_pos hu, div_lt_iff₀ hu]
      linarith
    have hsig := binSig_eq_of_near hlo hhi hround
    rw [toFixed, ofRat_congr (lt_of_lt_of_le (by positivity) hlo) hpos
      (hsig.trans (x.binSig_mag hpos).symm), Double.ofRat_mag]

/-- Where the format is finer than the decimals, the value read has the decimals that were printed. -/
theorem fixedInt_binSig {s k : ℕ} (hP : 10 ^ P < 2 ^ (s + 1)) (hs : s ≤ 52) (hk : 0 < k)
    (hlt : (k : ℚ) / 10 ^ P < 2 ^ (52 - s)) : fixedInt P ((binSig ((k : ℚ) / 10 ^ P)).val 2) = k := by
  set q : ℚ := (k : ℚ) / 10 ^ P with hqdef
  have hk' : (0 : ℚ) < k := by exact_mod_cast hk
  have hq : 0 < q := by positivity
  -- the unit of the format is at most `2 ^ -(s + 1)`, less than one in the last decimal
  have hunit : binUnit q ≤ -((s + 1 : ℕ) : ℤ) := by
    have hlog : Int.log 2 q < (52 - s : ℕ) := by
      refine (Int.lt_zpow_iff_log_lt (by norm_num) hq).mp ?_
      rw [zpow_natCast]
      exact_mod_cast hlt
    rw [binUnit]
    omega
  have herr : |(binSig q).val 2 - q| * 10 ^ P < 1 / 2 := by
    have hspace : (2 : ℚ) ^ binUnit q ≤ 1 / 2 ^ (s + 1) := by
      refine (zpow_le_zpow_right₀ (by norm_num) hunit).trans_eq ?_
      rw [zpow_neg, zpow_natCast, one_div]
    have hP' : (10 : ℚ) ^ P < 2 ^ (s + 1) := by exact_mod_cast hP
    calc |(binSig q).val 2 - q| * 10 ^ P ≤ 1 / 2 ^ (s + 1) / 2 * 10 ^ P := by
          have := abs_binSig_val_sub_le hq.le
          gcongr
          linarith
      _ < 1 / 2 ^ (s + 1) / 2 * 2 ^ (s + 1) := by gcongr
      _ = 1 / 2 := by field_simp
  have hround : roundHalfEven ((binSig q).val 2 * 10 ^ P) = k := by
    refine roundHalfEven_eq ?_
    have hfac : ((k : ℤ) : ℚ) - (binSig q).val 2 * 10 ^ P = -(((binSig q).val 2 - q) * 10 ^ P) := by
      rw [hqdef]
      field_simp
      push_cast
      ring
    rw [hfac, abs_neg, abs_mul, abs_of_pos (by positivity : (0 : ℚ) < 10 ^ P)]
    exact herr
  rw [fixedInt, hround, Int.toNat_natCast]

/-- An integer of at most 53 bits is read as a value of its magnitude. -/
theorem exists_ofRat_natCast {n : ℕ} (hpos : 0 < n) (hlt : n < 2 ^ 53) (neg : Bool) :
    ∃ y : Finite, Double.ofRat neg n = .finite y ∧ y.neg = neg ∧ y.mag = n := by
  obtain ⟨b, -, -, hmag⟩ := Double.exists_ofInt_eq hpos hlt
  refine ⟨{ b with neg := neg }, ?_, rfl, hmag⟩
  have hread := Double.ofRat_mag { b with neg := neg }
  rwa [show Finite.mag { b with neg := neg } = n from hmag] at hread

/-- A finite value is printed and read back as a finite one, and a second time changes nothing. -/
theorem toFixed_toFixed {s : ℕ} (hlo : 2 ^ s < 10 ^ P) (hhi : 10 ^ P < 2 ^ (s + 1)) (hs : s ≤ 52)
    (x : Finite) : ∃ y : Finite, toFixed P (.finite x) = .finite y ∧ y.neg = x.neg ∧
      toFixed P (.finite y) = .finite y := by
  rcases le_or_gt ((2 : ℚ) ^ (52 - s)) x.mag with hcoarse | hfine
  · exact ⟨x, toFixed_of_coarse hlo hs hcoarse, rfl, toFixed_of_coarse hlo hs hcoarse⟩
  -- a value below the coarse range: its decimals are at most the start of the range
  have hbound : fixedVal P x.mag ≤ 2 ^ (52 - s) := by
    have := fixedVal_mono P hfine.le
    rw [show (2 : ℚ) ^ (52 - s) = ((2 ^ (52 - s) : ℕ) : ℚ) by push_cast; rfl] at this ⊢
    rwa [fixedVal_natCast] at this
  rcases Nat.eq_zero_or_pos (fixedInt P x.mag) with hzero | hk
  · -- nothing is left of the value
    have hval : fixedVal P x.mag = 0 := by rw [fixedVal, hzero]; simp
    refine ⟨⟨x.neg, 0, -1074, by norm_num, le_rfl, by norm_num, .inl rfl⟩, ?_, rfl,
      toFixed_of_natCast (n := 0) (by simp [Finite.mag])⟩
    rw [toFixed, hval, Double.ofRat, dif_neg (lt_irrefl _), Double.zero]
  rcases hbound.lt_or_eq with hlt | heq
  -- the value read has the decimals that were printed
  · have hq : 0 < fixedVal P x.mag := by
      have : (0 : ℚ) < fixedInt P x.mag := by exact_mod_cast hk
      rw [fixedVal]
      positivity
    have hpow : 2 ^ (52 - s) < 2 ^ 53 := Nat.pow_lt_pow_right (by norm_num) (by omega)
    obtain ⟨b, -, -, hb⟩ := exists_ofRat_natCast (Nat.pow_pos (by norm_num) : 0 < 2 ^ (52 - s)) hpow
      false
    obtain ⟨y, hy, hneg, -⟩ := exists_ofRat_eq hq (b := b) (hlt.le.trans_eq (by rw [hb]; push_cast; rfl))
      x.neg
    refine ⟨y, hy, hneg, ?_⟩
    have hint : fixedInt P y.mag = fixedInt P x.mag := by
      rw [(mag_of_ofRat_eq hq hy).2]
      exact fixedInt_binSig hhi hs hk hlt
    rw [toFixed, fixedVal, hint, hneg]
    exact hy
  -- the decimals have reached the start of the coarse range, an integer
  · have hpow : 2 ^ (52 - s) < 2 ^ 53 := Nat.pow_lt_pow_right (by norm_num) (by omega)
    obtain ⟨y, hy, hneg, hmag⟩ := exists_ofRat_natCast (Nat.pow_pos (by norm_num) : 0 < 2 ^ (52 - s))
      hpow x.neg
    refine ⟨y, ?_, hneg, toFixed_of_natCast hmag⟩
    rw [toFixed, heq]
    exact_mod_cast hy

/-- A value up to an integer is read back as one up to it. -/
theorem mag_toFixed_le {n : ℕ} (hpos : 0 < n) (hn : n < 2 ^ 53) (hx : x.mag ≤ n)
    (h : toFixed P (.finite x) = .finite y) : y.mag ≤ n := by
  have hval : fixedVal P x.mag ≤ n := (fixedVal_mono P hx).trans_eq (fixedVal_natCast P n)
  rcases (show 0 ≤ fixedVal P x.mag by rw [fixedVal]; positivity).eq_or_lt with hzero | hq
  · rw [toFixed, ← hzero, Double.ofRat, dif_neg (lt_irrefl _)] at h
    cases h
    simp [Finite.mag]
  · obtain ⟨b, -, -, hb⟩ := exists_ofRat_natCast hpos hn false
    obtain ⟨z, hz, -, hle⟩ := exists_ofRat_eq hq (hval.trans_eq hb.symm) x.neg
    cases h.symm.trans hz
    exact hle.trans_eq hb

end

end Printf
