import LgMagic.Calib.Load
import LgMagic.Json.Numbers

/-!
# Saving a calibration

`calib_save_json` of `calib.c` rounds every element to six decimals by way of a text of at most `63`
bytes, and the JSON writer prints what comes of it: `null` for what is no number, six significant
digits from `10 ^ 16` on. A calibration that was saved is loaded as it was, up to the six decimals,
exactly when no element falls to one of the three.

* `round6`, `calibTree`, `calibSaveJson`: the functions;
* `SavesBack`: what is saved is what is loaded;
* `parsedNumber`, `jsonParse_calibTree`: what the loader finds in the file;
* `savesBack_iff`: which calibrations are loaded as they were.
-/

namespace Calibration

open Binary64 CString Json Pointer Printf Rounding UserConfig

/-! ## The function -/

/-- `round6`: the buffer holds `63` bytes of the text. -/
def round6 (v : Double) : Double := (strtod ((fmtF 6 v).take 63)).value

/-- `arr3` -/
def arr3 (v : Vec3 Double) : JsonValue :=
  .arr [.num (round6 v.x), .num (round6 v.y), .num (round6 v.z)]

/-- The tree of `calib_save_json`. -/
def calibTree (c : Calib Double) : JsonValue :=
  .obj [(.lit "accel", .obj [(.lit "bias", arr3 c.accelBias),
      (.lit "matrix", .arr [arr3 c.accelMatrix.x, arr3 c.accelMatrix.y, arr3 c.accelMatrix.z])]),
    (.lit "gyro", .obj [(.lit "bias", arr3 c.gyroBias), (.lit "scale", arr3 c.gyroScale)])]

/-- `calib_save_json`, with the error of `fopen` and with what a write that fails leaves in the file. -/
def calibSaveJson (w : World) (c : Calib Double) (path : CStr) (opens : Option Bytes)
    (writes : Except Bytes Unit) : Except Bytes Unit × World :=
  let text := jsonDumps (calibTree c)
  match fopenWrite w path opens with
  | .error strerror => (.error (ascii "cannot open " ++ path.val ++ ascii ": " ++ strerror), w)
  | .ok _ =>
    match writes with
    | .error left => (.error (ascii "write error on " ++ path.val), w.write path left)
    | .ok _ => (.ok (), w.write path text)

/-! ## What a save should keep -/

/-- A calibration with each element rounded to six decimals. -/
def roundedCalib (c : Calib Double) : Calib Double where
  accelBias := c.accelBias.map (toFixed 6)
  accelMatrix := c.accelMatrix.map (·.map (toFixed 6))
  gyroBias := c.gyroBias.map (toFixed 6)
  gyroScale := c.gyroScale.map (toFixed 6)

/-- A save that succeeds is loaded as it was, up to six decimals. -/
def SavesBack (w : World) (c : Calib Double) (path : CStr) (opens : Option Bytes)
    (writes : Except Bytes Unit) : Prop :=
  ∀ w', calibSaveJson w c path opens writes = (.ok (), w') → calibLoad w' path = .ok (roundedCalib c)

/-- The elements of a calibration satisfy a predicate. -/
structure CalibAll (P : Double → Prop) (c : Calib Double) : Prop where
  accelBias : Vec3.All P c.accelBias
  accelMatrix : Vec3.All (Vec3.All P) c.accelMatrix
  gyroBias : Vec3.All P c.gyroBias
  gyroScale : Vec3.All P c.gyroScale

/-- The digits before the point that the buffer has room for. -/
def roomFor (neg : Bool) : ℕ := if neg then 62 else 63

/-- An element that a save keeps: finite, and below `10 ^ 16`, or with an integer part that fits and
no more than six significant digits. -/
def Survives : Double → Prop
  | .finite x => x.mag < 10 ^ 16 ∨ x.mag < 10 ^ roomFor x.neg ∧ sixDigits x = .finite x
  | _ => False

/-! ## Rounding -/

/-- A text that fits is read completely: the value is rounded to six decimals. -/
theorem round6_of_lt {x : Finite} (h : x.mag < 10 ^ 16) :
    round6 (.finite x) = toFixed 6 (.finite x) := by
  have hval : fixedVal 6 x.mag ≤ (10 ^ 16 : ℕ) := by
    rw [← fixedVal_natCast 6 (10 ^ 16)]
    exact fixedVal_mono 6 (by exact_mod_cast h.le)
  have hint : fixedInt 6 x.mag ≤ 10 ^ 22 := by
    rw [fixedVal, div_le_iff₀ (by norm_num)] at hval
    have hbound : (fixedInt 6 x.mag : ℚ) ≤ (10 ^ 22 : ℕ) := hval.trans_eq (by push_cast; norm_num)
    exact_mod_cast hbound
  have hip : (fText 6 x).ip.length ≤ 17 := decDigits_length_le (by omega)
  have hfp : (fText 6 x).fp.length ≤ 6 :=
    (length_padDigits (by norm_num) (Nat.mod_lt _ (by norm_num))).le
  have hlen := (fText 6 x).render_length_le (by simp [fText])
  rw [round6, fmtF, List.take_of_length_le (by omega), strtod_render (fText_wellFormed 6 x), fText_mag]
  rfl

/-- The text of an integer is its digits and a fraction of zeros. -/
theorem fText_render_of_natCast {x : Finite} {N : ℕ} (h : x.mag = N) :
    (fText 6 x).render = (if x.neg then [0x2D] else []) ++ (decDigits N).map digitByte ++
      0x2E :: (List.replicate 6 0).map digitByte := by
  have hint : fixedInt 6 x.mag = N * 10 ^ 6 := by
    have hN : ((N : ℕ) : ℚ) = ((N * 10 ^ 6 : ℕ) : ℚ) / 10 ^ 6 := by push_cast; ring
    rw [h, hN, fixedInt_natCast_div]
  rw [fText, hint, Nat.mul_div_cancel _ (by norm_num), Nat.mul_mod_left, if_neg (by norm_num)]
  simp [NumText.render, padDigits, decDigits, List.replicate]

/-- An integer loses the digits that the buffer has no room for. -/
theorem round6_of_natCast {x : Finite} {N : ℕ} (h : x.mag = N) :
    round6 (.finite x) = .ofRat x.neg (natOfDigits ((decDigits N).take (roomFor x.neg))) := by
  have hdigits : ∀ d ∈ decDigits N, d < 10 := fun d => decDigits_lt
  have hzeros : ∀ (k : ℕ), ∀ d ∈ List.replicate k 0, d < 10 := by
    intro k d hd
    rw [(List.mem_replicate.mp hd).2]
    norm_num
  have hsign : (if x.neg then [(0x2D : UInt8)] else []).length + roomFor x.neg = 63 := by
    rw [roomFor]
    split_ifs <;> rfl
  have hne : (decDigits N).take (roomFor x.neg) ≠ [] := by
    have hroom : roomFor x.neg ≠ 0 := by rw [roomFor]; split_ifs <;> norm_num
    simp [hroom, decDigits_ne_nil]
  have hip : ∀ d ∈ (decDigits N).take (roomFor x.neg), d < 10 := fun d hd =>
    hdigits d (List.mem_of_mem_take hd)
  -- an integer is printed as its digits, the point and zeros, of which 63 bytes fit
  rw [round6, fmtF, fText_render_of_natCast h, List.append_assoc, List.take_append,
    List.take_of_length_le (by omega),
    show 63 - (if x.neg then [(0x2D : UInt8)] else []).length = roomFor x.neg by omega,
    List.take_append, List.length_map, ← List.map_take]
  rcases hrest : roomFor x.neg - (decDigits N).length with _ | k
  · -- the cut is before the point
    rw [List.take_zero, ← List.append_assoc, strtod_digits x.neg hip hne noDigit_nil
      (List.forall_mem_nil _)]
    simp only [takeFraction, takeExp, List.append_nil, map_digitVal_digitByte hip, NumRead.ofMag]
    simp
  · -- the cut is after the point, in the zeros
    rw [List.take_succ_cons, ← List.map_take, List.take_replicate, ← List.append_assoc,
      strtod_pointed x.neg hip hne (hzeros _), natOfDigits_append, natOfDigits_replicate_zero]
    simp only [NumRead.ofMag, List.length_replicate, add_zero]
    rw [Nat.cast_mul, Nat.cast_pow, Nat.cast_ofNat, zpow_neg, zpow_natCast, mul_assoc,
      mul_inv_cancel₀ (by positivity), mul_one]

theorem exp_nonneg {x : Finite} (h : 10 ^ 16 ≤ x.mag) : 0 ≤ x.e := by
  have hlt := lt_of_le_of_lt h x.mag_lt
  have hpow : (2 : ℚ) ^ (53 : ℤ) < (2 : ℚ) ^ (x.e + (53 : ℕ)) := lt_trans (by norm_num) hlt
  have := (zpow_lt_zpow_iff_right₀ (by norm_num : (1 : ℚ) < 2)).mp hpow
  omega

/-- A large value is an integer. -/
theorem exists_natCast_of_le {x : Finite} (h : 10 ^ 16 ≤ x.mag) : ∃ N : ℕ, x.mag = N := by
  obtain ⟨n, hn⟩ := Int.eq_ofNat_of_zero_le (exp_nonneg h)
  refine ⟨x.m * 2 ^ n, ?_⟩
  rw [Finite.mag, hn]
  push_cast
  rw [zpow_natCast]

/-- A fraction of a large value with a power of two is a value. -/
theorem exists_mag_eq_div {x : Finite} (h : 10 ^ 16 ≤ x.mag) (k : ℕ) (hk : k ≤ 1074) :
    ∃ b : Finite, b.mag = x.mag / 2 ^ k := by
  have he := exp_nonneg h
  have hm : 2 ^ 52 ≤ x.m := x.canonical.resolve_left (by omega)
  refine ⟨⟨x.neg, x.m, x.e - k, x.m_lt, by omega, by have := x.e_max; omega, .inr hm⟩, ?_⟩
  rw [Finite.mag, Finite.mag, zpow_sub₀ (by norm_num), zpow_natCast, mul_div_assoc]

/-- A large value that fits is read completely. -/
theorem round6_of_fits {x : Finite} (h16 : 10 ^ 16 ≤ x.mag) (hfits : x.mag < 10 ^ roomFor x.neg) :
    round6 (.finite x) = .finite x := by
  obtain ⟨N, hN⟩ := exists_natCast_of_le h16
  have hlt : N < 10 ^ roomFor x.neg := by
    rw [hN] at hfits
    exact_mod_cast hfits
  have hroom : roomFor x.neg = roomFor x.neg - 1 + 1 := by
    rw [roomFor]
    split_ifs <;> rfl
  have hlen : (decDigits N).length ≤ roomFor x.neg := by
    rw [hroom] at hlt ⊢
    exact decDigits_length_le hlt
  rw [round6_of_natCast hN, List.take_of_length_le hlen, natOfDigits_decDigits, ← hN, Double.ofRat_mag]

theorem hiddenBit_lt : 2 ^ 52 < 2 ^ 53 := by norm_num

/-- `2 ^ 210`, past every integer that fits. -/
def pastRoom : Finite := ⟨false, 2 ^ 52, 158, hiddenBit_lt, by norm_num, by norm_num, by norm_num⟩

theorem mag_pastRoom : pastRoom.mag = 2 ^ 210 := by
  norm_num [pastRoom, Finite.mag]

/-- A large value that does not fit loses digits. -/
theorem round6_of_cut {x : Finite} (hcut : 10 ^ roomFor x.neg ≤ x.mag) :
    ∃ y : Finite, round6 (.finite x) = .finite y ∧ 10 ^ 16 ≤ y.mag ∧ y.mag ≤ 10 ^ 64 ∧
      y.mag ≤ x.mag / 8 := by
  have hroom : 62 ≤ roomFor x.neg ∧ roomFor x.neg ≤ 63 := by
    rw [roomFor]
    split_ifs <;> norm_num
  have h16 : 10 ^ 16 ≤ x.mag :=
    le_trans (pow_le_pow_right₀ (by norm_num) (by omega : 16 ≤ roomFor x.neg)) hcut
  obtain ⟨N, hN⟩ := exists_natCast_of_le h16
  have hcut' : 10 ^ roomFor x.neg ≤ N := by
    rw [hN] at hcut
    exact_mod_cast hcut
  -- the value is an integer; the buffer has its first digits, and at least one digit is lost
  obtain ⟨hlo, hhi, hten⟩ := natOfDigits_take_decDigits (by omega : 0 < roomFor x.neg) hcut'
  rw [round6_of_natCast hN]
  generalize natOfDigits ((decDigits N).take (roomFor x.neg)) = n at hlo hhi hten ⊢
  have hlow : 10 ^ 16 ≤ (n : ℚ) := by
    have : 10 ^ 16 ≤ n := le_trans (Nat.pow_le_pow_right (by norm_num) (by omega)) hlo
    exact_mod_cast this
  have hq : (0 : ℚ) < n := lt_of_lt_of_le (by norm_num) hlow
  have hpast : (n : ℚ) ≤ pastRoom.mag := by
    have h63 : n < 10 ^ 63 := lt_of_lt_of_le hhi (Nat.pow_le_pow_right (by norm_num) hroom.2)
    have : (n : ℚ) ≤ (10 ^ 63 : ℕ) := by exact_mod_cast h63.le
    rw [mag_pastRoom]
    exact this.trans (by norm_num)
  -- a tenth is below an eighth, which is a value of the format: rounding does not pass it
  obtain ⟨b, hb⟩ := exists_mag_eq_div h16 3 (by norm_num)
  have hpart : (n : ℚ) ≤ b.mag := by
    have hten' : (10 : ℚ) * n ≤ N := by exact_mod_cast hten
    rw [hb, hN]
    linarith
  obtain ⟨y, hy, -, hle⟩ := exists_ofRat_eq hq hpast x.neg
  obtain ⟨y', hy', -, hle'⟩ := exists_ofRat_eq hq hpart x.neg
  cases hy.symm.trans hy'
  refine ⟨y, hy, tenPow16_le_mag hlow hy, hle.trans ?_, hle'.trans_eq (by rw [hb]; norm_num)⟩
  rw [mag_pastRoom]
  norm_num

/-! ## What the loader finds -/

/-- What the loader reads where a number was printed. -/
def parsedNumber : Double → JsonValue
  | .finite y => if y.mag < 10 ^ 16 then .num (.finite y) else .num (sixDigits y)
  | _ => .null

/-- What the loader reads for an element. -/
def parsedElement (v : Double) : JsonValue := parsedNumber (round6 v)

/-- A number that the writer prints and the loader reads. -/
def Printable : Double → Prop
  | .finite y => HasSixDecimals y ∧ y.mag < 10 ^ 16 ∨ 10 ^ 16 ≤ y.mag ∧ y.mag ≤ 10 ^ 64
  | _ => True

/-- What is read for a finite number. -/
theorem round6_cases (x : Finite) : ∃ y : Finite, round6 (.finite x) = .finite y ∧
    (x.mag < 10 ^ 16 ∧ toFixed 6 (.finite x) = .finite y ∧ HasSixDecimals y ∧ y.mag < 10 ^ 16 ∨
      10 ^ 16 ≤ x.mag ∧ toFixed 6 (.finite x) = .finite x ∧ 10 ^ 16 ≤ y.mag ∧ y.mag ≤ 10 ^ 64 ∧
        (x.mag < 10 ^ roomFor x.neg ∧ y = x ∨ 10 ^ roomFor x.neg ≤ x.mag ∧ y.mag ≤ x.mag / 8)) := by
  have hlo : 2 ^ 19 < 10 ^ 6 := by norm_num
  rcases lt_or_ge x.mag (10 ^ 16) with hlt | h16
  · obtain ⟨y, hy, -, hfix⟩ := toFixed_toFixed hlo (by norm_num : 10 ^ 6 < 2 ^ 20) (by norm_num) x
    refine ⟨y, by rw [round6_of_lt hlt, hy], .inl ⟨hlt, hy, hfix, ?_⟩⟩
    rcases le_or_gt ((2 : ℚ) ^ (52 - 19)) x.mag with hcoarse | hfine
    · rw [toFixed_of_coarse hlo (by norm_num) hcoarse] at hy
      cases hy
      exact hlt
    · have hle := mag_toFixed_le (n := 2 ^ 33) (by norm_num) (by norm_num) (by exact_mod_cast hfine.le) hy
      exact lt_of_le_of_lt hle (by norm_num)
  · have hself : toFixed 6 (.finite x) = .finite x :=
      toFixed_of_coarse hlo (by norm_num) (le_trans (by norm_num) h16)
    rcases lt_or_ge x.mag (10 ^ roomFor x.neg) with hfits | hcut
    · refine ⟨x, round6_of_fits h16 hfits, .inr ⟨h16, hself, h16, ?_, .inl ⟨hfits, rfl⟩⟩⟩
      refine hfits.le.trans (pow_le_pow_right₀ (by norm_num) ?_)
      rw [roomFor]
      split_ifs <;> norm_num
    · obtain ⟨y, hy, hlow, hhigh, hpart⟩ := round6_of_cut hcut
      exact ⟨y, hy, .inr ⟨h16, hself, hlow, hhigh, .inr ⟨hcut, hpart⟩⟩⟩

/-- Every rounded number is printable. -/
theorem printable_round6 (v : Double) : Printable (round6 v) := by
  cases v with
  | nan => exact trivial
  | inf neg => cases neg <;> exact trivial
  | finite x =>
    obtain ⟨y, hy, ⟨-, -, hfix, hlt⟩ | ⟨-, -, hlow, hhigh, -⟩⟩ := round6_cases x
    · rw [hy]
      exact .inl ⟨hfix, hlt⟩
    · rw [hy]
      exact .inr ⟨hlow, hhigh⟩

/-- A printed number is the number that is read. -/
theorem dumpValue_parsedNumber {d : Double} (h : Printable d) (level : ℕ) :
    dumpValue level (.num d) = dumpValue level (parsedNumber d) ∧ Readable (parsedNumber d) := by
  cases d with
  | nan | inf neg => exact ⟨by simp only [parsedNumber, dumpValue, fmtNumber], trivial⟩
  | finite y =>
    rcases h with ⟨hfix, hlt⟩ | ⟨hlow, hhigh⟩
    · rw [parsedNumber, if_pos hlt]
      refine ⟨rfl, ?_⟩
      rw [Readable]
      exact readsBack_of_hasSixDecimals hfix hlt
    · rw [parsedNumber, if_neg (not_lt.mpr hlow)]
      obtain ⟨z, hz, -⟩ := exists_sixDigits hlow hhigh
      obtain ⟨htext, hread⟩ := readsBack_of_sixDigits hlow hhigh hz
      rw [hz, Readable]
      refine ⟨?_, hread⟩
      rw [dumpValue, dumpValue, htext]

/-- The loader finds the element rounded to six decimals exactly when it survives. -/
theorem parsedElement_eq_iff (v : Double) : parsedElement v = .num (toFixed 6 v) ↔ Survives v := by
  cases v with
  | nan => exact iff_of_false nofun id
  | inf neg => cases neg <;> exact iff_of_false nofun id
  | finite x =>
    obtain ⟨y, hy, ⟨hlt, hfixed, -, hylt⟩ | ⟨h16, hself, hlow, hhigh, hcase⟩⟩ := round6_cases x
    · refine iff_of_true ?_ (.inl hlt)
      rw [parsedElement, hy, parsedNumber, if_pos hylt, hfixed]
    · rw [parsedElement, hy, parsedNumber, if_neg (not_lt.mpr hlow), hself, Survives,
        or_iff_right (not_lt.mpr h16), JsonValue.num.injEq]
      rcases hcase with ⟨hfits, rfl⟩ | ⟨hcut, hpart⟩
      · rw [and_iff_right hfits]
      · refine iff_of_false (fun hsix => ?_) fun hsurvives => absurd hsurvives.1 (not_lt.mpr hcut)
        -- the six digits of an eighth are not the value
        have hpos : 0 < y.mag := lt_of_lt_of_le (by norm_num) hlow
        obtain ⟨b, hb⟩ := exists_mag_eq_div h16 2 (by norm_num)
        have hquarter : (leadSig 10 6 y.mag).val 10 ≤ b.mag := by
          have := leadSig_val_le_two_mul hpos
          rw [hb]
          linarith
        have hq : 0 < (leadSig 10 6 y.mag).val 10 :=
          lt_of_lt_of_le (by norm_num) (pow_le_leadSig_val hlow)
        obtain ⟨z, hz, -, hle⟩ := exists_ofRat_eq hq hquarter y.neg
        cases hz.symm.trans hsix
        rw [hb] at hle
        linarith

/-- What the loader reads for a vector. -/
def parsedVec3 (v : Vec3 Double) : JsonValue :=
  .arr [parsedElement v.x, parsedElement v.y, parsedElement v.z]

/-- What the loader reads for a matrix. -/
def parsedMat3 (m : Vec3 (Vec3 Double)) : JsonValue :=
  .arr [parsedVec3 m.x, parsedVec3 m.y, parsedVec3 m.z]

/-- The members that the loader finds in a saved file. -/
def parsedMembers (c : Calib Double) : List (CStr × JsonValue) :=
  [(.lit "accel", .obj [(.lit "bias", parsedVec3 c.accelBias),
      (.lit "matrix", parsedMat3 c.accelMatrix)]),
    (.lit "gyro", .obj [(.lit "bias", parsedVec3 c.gyroBias), (.lit "scale", parsedVec3 c.gyroScale)])]

theorem dumpValue_parsedElement (level : ℕ) (v : Double) :
    dumpValue level (parsedElement v) = fmtNumber (round6 v) := by
  rw [parsedElement, ← (dumpValue_parsedNumber (printable_round6 v) level).1, dumpValue]

theorem depth_parsedElement (v : Double) : (parsedElement v).depth = 0 := by
  rw [parsedElement]
  cases round6 v with
  | nan | inf neg => rfl
  | finite y =>
    rw [parsedNumber]
    split_ifs <;> rfl

theorem readable_parsedVec3 (v : Vec3 Double) : Readable (parsedVec3 v) := by
  have h (v : Double) : Readable (parsedElement v) :=
    (dumpValue_parsedNumber (printable_round6 v) 0).2
  simp only [parsedVec3, Readable, ItemsReadable]
  exact ⟨h _, h _, h _, trivial⟩

/-- The loader finds the elements in the places where they were saved. -/
theorem jsonParse_calibTree (c : Calib Double) :
    jsonParse (jsonDumps (calibTree c)) = .ok (.obj (parsedMembers c)) := by
  have htext : jsonDumps (calibTree c) = jsonDumps (.obj (parsedMembers c)) := by
    simp only [jsonDumps, calibTree, arr3, parsedMembers, parsedMat3, parsedVec3, dumpValue, dumpItems,
      dumpMembers, dumpValue_parsedElement, List.isEmpty_cons, List.isEmpty_nil]
  rw [htext]
  refine jsonParse_of_readable ?_ ?_
  · simp [parsedMembers, parsedMat3, parsedVec3, JsonValue.depth, itemsDepth, membersDepth,
      depth_parsedElement]
  · have hkey (k : CStr) (h : ∀ c ∈ k.val, ¬ c < 0x20) : CleanText k := fun c hc hlt =>
      absurd hlt (h c hc)
    simp only [Readable, parsedMembers, parsedMat3, MembersReadable, ItemsReadable]
    exact ⟨hkey _ (by decide +kernel), ⟨hkey _ (by decide +kernel), readable_parsedVec3 _,
        hkey _ (by decide +kernel), ⟨readable_parsedVec3 _, readable_parsedVec3 _,
          readable_parsedVec3 _, trivial⟩, trivial⟩,
      hkey _ (by decide +kernel), ⟨hkey _ (by decide +kernel), readable_parsedVec3 _,
        hkey _ (by decide +kernel), readable_parsedVec3 _, trivial⟩, trivial⟩

/-! ## What is loaded -/

section

variable {w w' : World} {c : Calib Double} {path : CStr} {opens : Option Bytes}
  {writes : Except Bytes Unit}

/-- A save succeeds with the text in the file. -/
theorem calibSaveJson_eq_ok : calibSaveJson w c path opens writes = (.ok (), w') ↔
    fopenWrite w path opens = .ok () ∧ writes = .ok () ∧
      w' = w.write path (jsonDumps (calibTree c)) := by
  unfold calibSaveJson
  dsimp only
  rcases fopenWrite w path opens with strerror | ⟨⟩
  · simp
  · rcases writes with left | ⟨⟩
    · simp
    · simp [eq_comm]

theorem jsonLoadFile_write : jsonLoadFile ((w.write path (jsonDumps (calibTree c))).file path) =
    .ok (.obj (parsedMembers c)) := by
  rw [World.write]
  simp only [Function.update_self, jsonLoadFile, jsonParse_calibTree]

/-- The elements are finite. -/
def AllFinite (v : Vec3 Double) : Prop := Vec3.All Double.IsFinite v

/-- An element is loaded as it should be exactly when it survives; a default is finite. -/
theorem snd_readNum_eq_iff (v : Double) {out : Double} (hout : out.IsFinite) :
    (readNum (parsedElement v) out).2 = toFixed 6 v ↔ NumIs (parsedElement v) (toFixed 6 v) := by
  cases v with
  | nan => exact iff_of_false (fun h => by rw [show out = .nan from h] at hout; exact hout) id
  | inf neg =>
    refine iff_of_false (fun h => ?_) (by cases neg <;> exact id)
    have hinf : out = .inf neg := by cases neg <;> exact h
    rw [hinf] at hout
    exact hout
  | finite x =>
    obtain ⟨z, hz⟩ : ∃ z, parsedElement (.finite x) = .num z := by
      obtain ⟨y, hy, -⟩ := round6_cases x
      rw [parsedElement, hy, parsedNumber]
      split_ifs
      · exact ⟨_, rfl⟩
      · exact ⟨_, rfl⟩
    rw [hz]
    exact Iff.rfl

theorem numIs_parsedElement (v : Double) : NumIs (parsedElement v) (toFixed 6 v) ↔ Survives v := by
  rw [← parsedElement_eq_iff]
  cases parsedElement v <;> simp [NumIs]

theorem is_parsedVec3 (v : Vec3 Double) :
    vec3Reader.is (parsedVec3 v) (v.map (toFixed 6)) ↔ Vec3.All Survives v :=
  and_congr (numIs_parsedElement _) (and_congr (numIs_parsedElement _) (numIs_parsedElement _))

theorem snd_vec3Reader_eq_iff (v : Vec3 Double) {out : Vec3 Double} (hout : AllFinite out) :
    (vec3Reader.read (parsedVec3 v) out).2 = v.map (toFixed 6) ↔
      vec3Reader.is (parsedVec3 v) (v.map (toFixed 6)) :=
  Reader.num.snd_three_eq_iff (snd_readNum_eq_iff _ hout.1) (snd_readNum_eq_iff _ hout.2.1)
    (snd_readNum_eq_iff _ hout.2.2)

theorem snd_mat3Reader_eq_iff (m : Vec3 (Vec3 Double)) {out : Vec3 (Vec3 Double)}
    (hout : Vec3.All AllFinite out) :
    (mat3Reader.read (parsedMat3 m) out).2 = m.map (·.map (toFixed 6)) ↔
      Vec3.All (Vec3.All Survives) m := by
  have h := vec3Reader.snd_three_eq_iff (t := m.map (·.map (toFixed 6)))
    (snd_vec3Reader_eq_iff m.x hout.1) (snd_vec3Reader_eq_iff m.y hout.2.1)
    (snd_vec3Reader_eq_iff m.z hout.2.2)
  refine h.trans ?_
  exact and_congr (is_parsedVec3 _) (and_congr (is_parsedVec3 _) (is_parsedVec3 _))

/-- What was saved is loaded as it was, rounded to six decimals, exactly when every element survives. -/
theorem calibLoad_write_iff :
    calibLoad (w.write path (jsonDumps (calibTree c))) path = .ok (roundedCalib c) ↔
      CalibAll Survives c := by
  -- the defaults are finite, so a number that is not read does not leave the one that was saved
  have hfinite : AllFinite (calibInitIdentity : Calib Double).accelBias ∧
      Vec3.All AllFinite (calibInitIdentity : Calib Double).accelMatrix ∧
      AllFinite (calibInitIdentity : Calib Double).gyroBias ∧
      AllFinite (calibInitIdentity : Calib Double).gyroScale := by
    simp only [AllFinite, Vec3.All]
    decide +kernel
  obtain ⟨hfaccelBias, hfaccelMatrix, hfgyroBias, hfgyroScale⟩ := hfinite
  have hvec (v : Vec3 Double) {out : Vec3 Double} (hout : AllFinite out) :=
    (snd_vec3Reader_eq_iff v hout).trans (is_parsedVec3 v)
  have haccelBias : memberOf (.obj (parsedMembers c)) (.lit "accel") (.lit "bias") =
      some (parsedVec3 c.accelBias) := rfl
  have haccelMatrix : memberOf (.obj (parsedMembers c)) (.lit "accel") (.lit "matrix") =
      some (parsedMat3 c.accelMatrix) := rfl
  have hgyroBias : memberOf (.obj (parsedMembers c)) (.lit "gyro") (.lit "bias") =
      some (parsedVec3 c.gyroBias) := rfl
  have hgyroScale : memberOf (.obj (parsedMembers c)) (.lit "gyro") (.lit "scale") =
      some (parsedVec3 c.gyroScale) := rfl
  rw [calibLoad_eq_ok jsonLoadFile_write, haccelBias, haccelMatrix, hgyroBias, hgyroScale,
    Except.ok.injEq, roundedCalib, Calib.mk.injEq]
  refine (and_congr (hvec _ hfaccelBias) (and_congr (snd_mat3Reader_eq_iff _ hfaccelMatrix)
    (and_congr (hvec _ hfgyroBias) (hvec _ hfgyroScale)))).trans ?_
  exact ⟨fun ⟨h1, h2, h3, h4⟩ => ⟨h1, h2, h3, h4⟩, fun ⟨h1, h2, h3, h4⟩ => ⟨h1, h2, h3, h4⟩⟩

end

/-- For every calibration and every outcome of `fopen` and of the write: the save is loaded as it was,
rounded to six decimals, exactly when nothing is saved or every element survives. -/
theorem savesBack_iff (w : World) (c : Calib Double) (path : CStr) (opens : Option Bytes)
    (writes : Except Bytes Unit) : SavesBack w c path opens writes ↔
      (fopenWrite w path opens = .ok () → writes = .ok () → CalibAll Survives c) := by
  constructor
  · intro h hopens hwrites
    exact calibLoad_write_iff.mp (h _ (calibSaveJson_eq_ok.mpr ⟨hopens, hwrites, rfl⟩))
  · intro h w' hsave
    obtain ⟨hopens, hwrites, rfl⟩ := calibSaveJson_eq_ok.mp hsave
    exact calibLoad_write_iff.mpr (h hopens hwrites)

/-- A gyro bias that is no number is saved as `null`, and the load keeps the default. -/
theorem nan_not_savesBack : ¬ ∀ w c path opens writes, SavesBack w c path opens writes := by
  intro h
  let c : Calib Double := { calibInitIdentity with gyroBias := ⟨.nan, .nan, .nan⟩ }
  let w : World := ⟨fun _ => .absent, none, none⟩
  have hsave : calibSaveJson w c (.lit "calib.json") none (.ok ()) =
      (.ok (), w.write (.lit "calib.json") (jsonDumps (calibTree c))) := rfl
  have hload := h w c _ none (.ok ()) _ hsave
  have hdefault : (calibLoad (w.write (.lit "calib.json") (jsonDumps (calibTree c)))
      (.lit "calib.json")).toOption.map (·.gyroBias) = some .zero := by decide +kernel
  rw [hload] at hdefault
  exact absurd hdefault (by decide +kernel)

end Calibration
