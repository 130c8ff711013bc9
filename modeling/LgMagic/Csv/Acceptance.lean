import LgMagic.Csv
import LgMagic.Lib.DecimalText

/-!
# Which rows are accepted

The header of `csv.c` promises to skip the rows of fewer than eight fields and those that hold no
numbers. The conversions of the C library take more than decimal numbers, and the reader stops at a
NUL, drops the rows of more than `63` fields and those with a number too small for the normal range.

* `rowMeans`: what a row says, field by field;
* `ReadsExactly`: every row is read as what it says;
* `isCounter_iff`, `isNumber_iff`, `numberReads_iff`: what the conversions take of a field;
* `readLine_eq_rowMeans_iff`: when a row without NUL is read as what it says;
* `readsExactly_iff`: when a file is.
-/

namespace Csv

open Binary64 CString Pointer Printf

/-! ## What a row says -/

/-- The integer that a text is in decimal. -/
def integerOf (s : Bytes) : Option ℤ :=
  let (neg, ds) := takeSign s
  if ds ≠ [] ∧ ds.all isDigit then
    let n : ℕ := natOfDigits (ds.map digitVal)
    some (if neg then -n else n)
  else none

/-- The counter of a row: a decimal number in the range of an unsigned number of `32` bits. -/
def counterMeans (field : Bytes) : Option UInt32 :=
  (integerOf field).bind fun n =>
    if 0 ≤ n ∧ n < 2 ^ 32 then some (UInt32.ofNat n.toNat) else none

/-- A number of a row: a decimal number whose nearest value is finite. -/
def numberMeans (field : Bytes) : Option Double :=
  (decimalOf field).bind fun (neg, mag) =>
    if (Double.ofRat neg mag).IsFinite then some (.ofRat neg mag) else none

/-- The time step of a row, which may be missing. -/
def dtMeans (field : Bytes) : Option Double := if field = [] then some .nan else numberMeans field

/-- The fields of a line, without a carriage return at its end. -/
def lineFields (line : Bytes) : List Bytes := (stripCr line).splitOn comma

section

variable (counter : Bytes → Option UInt32) (dt number : Bytes → Option Double)

/-- The sample of the first eight fields, with what each of them says. -/
def sampleOf : List Bytes → Option ImuSample
  | c :: t :: ax :: ay :: az :: gx :: gy :: gz :: _ => do
    let c ← counter c
    let t ← dt t
    let ax ← number ax
    let ay ← number ay
    let az ← number az
    let gx ← number gx
    let gy ← number gy
    let gz ← number gz
    return ⟨c, t, ⟨ax, ay, az⟩, ⟨gx, gy, gz⟩⟩
  | _ => none

end

/-- What a line says. -/
def rowMeans (line : Bytes) : Option ImuSample :=
  sampleOf counterMeans dtMeans numberMeans (lineFields line)

/-- The lines of a file. -/
def lines (buf : Bytes) : List Bytes := buf.splitOn newline

/-- What the reader sees of the lines: nothing after the first NUL. -/
def seen : List Bytes → List Bytes
  | [] => []
  | l :: ls => if 0 ∈ l then l.takeWhile (· ≠ 0) :: ls.map fun _ => [] else l :: seen ls

/-- Each line is read as what it says, and the samples are those of the lines in their order. -/
structure ReadsExactly (buf : Bytes) : Prop where
  rows : (seen (lines buf)).map readLine = (lines buf).map rowMeans
  samples : csvRead buf = (lines buf).filterMap rowMeans

/-! ## When it is read so -/

/-- Each of the first eight fields has its property. -/
def EachField (P Q R : Bytes → Prop) : List Bytes → Prop
  | c :: t :: ax :: ay :: az :: gx :: gy :: gz :: _ =>
    P c ∧ Q t ∧ R ax ∧ R ay ∧ R az ∧ R gx ∧ R gy ∧ R gz
  | _ => False

/-- `strtoul` takes all of a field. -/
def CounterReads (field : Bytes) : Prop :=
  (strtoul field).erange = false ∧ field ≠ [] ∧ (strtoul field).rest = []

/-- `strtod` takes all of a field. -/
def NumberReads (field : Bytes) : Prop :=
  (strtod field).erange = false ∧ field ≠ [] ∧ (strtod field).rest = []

def DtReads (field : Bytes) : Prop := field = [] ∨ NumberReads field

/-- A field is a decimal number of the range of a counter. -/
def IsCounter (field : Bytes) : Prop := ∃ n, integerOf field = some n ∧ 0 ≤ n ∧ n < 2 ^ 32

/-- A field is a decimal number that is not too large. -/
def IsNumber (field : Bytes) : Prop :=
  ∃ v, decimalOf field = some v ∧ (Double.ofRat v.1 v.2).IsFinite

def IsDt (field : Bytes) : Prop := field = [] ∨ IsNumber field

/-- The first eight fields are what the columns ask for. -/
def IsRow (fields : List Bytes) : Prop := EachField IsCounter IsDt IsNumber fields

/-- A field starts with white space, or is a decimal number out of the range of a counter. -/
def OtherCounter (field : Bytes) : Prop :=
  (∃ c ∈ field.head?, isSpace c = true) ∨ ∃ n, integerOf field = some n ∧ ¬ (0 ≤ n ∧ n < 2 ^ 32)

/-- A number is below the normal ones, and no value of the format. -/
def TooSmall (field : Bytes) : Prop :=
  ∃ v, decimalOf field = some v ∧ 0 < v.2 ∧ v.2 < (2 : ℚ) ^ (-1022 : ℤ) ∧ ∀ x : Finite, x.mag ≠ v.2

/-- The fields show none of the leniencies: a row of too many fields is none of the rows; where the
conversions take all eight fields, none of them has another form; a row has no number that is too
small. -/
structure Plain (fields : List Bytes) : Prop where
  room : csvMaxFields ≤ fields.length → ¬ IsRow fields
  forms : fields.length < csvMaxFields → EachField CounterReads DtReads NumberReads fields →
    EachField (¬ OtherCounter ·) (¬ OtherForm ·) (¬ OtherForm ·) fields
  range : fields.length < csvMaxFields → IsRow fields →
    EachField (fun _ => True) (¬ TooSmall ·) (¬ TooSmall ·) fields

/-- The fields before a NUL: it is part of one of the eight fields, or comes after them. -/
def CutPlain (fields : List Bytes) : Prop :=
  if fields.length ≤ 8 then ¬ EachField CounterReads DtReads NumberReads fields else Plain fields

/-- The lines are plain, and no row follows a NUL. -/
def Faultless : List Bytes → Prop
  | [] => True
  | l :: ls =>
    if 0 ∈ l then
      CutPlain (lineFields (l.takeWhile (· ≠ 0))) ∧ ∀ l' ∈ ls, ¬ IsRow (lineFields l')
    else Plain (lineFields l) ∧ Faultless ls

/-! ## The fields -/

section

variable {field : Bytes}

theorem counterMeans_eq_some {c : UInt32} : counterMeans field = some c ↔
    ∃ n, integerOf field = some n ∧ 0 ≤ n ∧ n < 2 ^ 32 ∧ UInt32.ofNat n.toNat = c := by
  rw [counterMeans, Option.bind_eq_some_iff]
  refine exists_congr fun n => and_congr_right fun _ => ?_
  rw [Option.ite_none_right_eq_some, Option.some_inj, and_assoc]

theorem isSome_counterMeans : (counterMeans field).isSome ↔ IsCounter field := by
  simp only [Option.isSome_iff_exists, counterMeans_eq_some, IsCounter]
  constructor
  · rintro ⟨c, n, hn, hlo, hhi, -⟩
    exact ⟨n, hn, hlo, hhi⟩
  · rintro ⟨n, hn, hlo, hhi⟩
    exact ⟨_, n, hn, hlo, hhi, rfl⟩

theorem readCounter_eq_some {c : UInt32} :
    readCounter field = some c ↔ CounterReads field ∧ (strtoul field).value.toUInt32 = c := by
  simp only [readCounter, Option.ite_none_left_eq_some, Option.some_inj, not_or, not_not,
    Bool.not_eq_true, CounterReads]
  refine and_congr_left fun _ => and_congr_right fun _ => and_congr_left fun hrest => ?_
  rw [hrest, eq_comm]

theorem isSome_readCounter : (readCounter field).isSome ↔ CounterReads field := by
  simp [Option.isSome_iff_exists, readCounter_eq_some]

theorem numberMeans_eq_some {d : Double} : numberMeans field = some d ↔
    ∃ v, decimalOf field = some v ∧ (Double.ofRat v.1 v.2).IsFinite ∧ Double.ofRat v.1 v.2 = d := by
  rw [numberMeans, Option.bind_eq_some_iff]
  refine exists_congr fun v => and_congr_right fun _ => ?_
  rw [Option.ite_none_right_eq_some, Option.some_inj]

theorem isSome_numberMeans : (numberMeans field).isSome ↔ IsNumber field := by
  simp only [Option.isSome_iff_exists, numberMeans_eq_some, IsNumber]
  constructor
  · rintro ⟨d, v, hv, hfin, -⟩
    exact ⟨v, hv, hfin⟩
  · rintro ⟨v, hv, hfin⟩
    exact ⟨_, v, hv, hfin, rfl⟩

theorem readNumber_eq_some {d : Double} :
    readNumber field = some d ↔ NumberReads field ∧ (strtod field).value = d := by
  simp only [readNumber, Option.ite_none_left_eq_some, Option.some_inj, not_or, not_not,
    Bool.not_eq_true, NumberReads]
  refine and_congr_left fun _ => and_congr_right fun _ => and_congr_left fun hrest => ?_
  rw [hrest, eq_comm]

theorem isSome_readNumber : (readNumber field).isSome ↔ NumberReads field := by
  simp [Option.isSome_iff_exists, readNumber_eq_some]

theorem decimalBytes_of_integerOf {n : ℤ} (h : integerOf field = some n) : DecimalBytes field := by
  simp only [integerOf, Option.ite_none_right_eq_some] at h
  obtain ⟨⟨-, hall⟩, -⟩ := h
  exact decimalBytes_of_takeSign fun c hc => .inl (List.all_eq_true.mp hall c hc)

/-- A text of digits after an optional sign is read completely. -/
theorem strtoul_of_integerOf {n : ℤ} (h : integerOf field = some n) (hlo : 0 ≤ n)
    (hhi : n < 2 ^ 32) : strtoul field = ⟨.ofNat n.toNat, false, []⟩ ∧ field ≠ [] := by
  have hbytes := decimalBytes_of_integerOf h
  simp only [integerOf, Option.ite_none_right_eq_some, Option.some_inj] at h
  obtain ⟨⟨hne, hall⟩, hn⟩ := h
  have hdigits : ∀ c ∈ (takeSign field).2, isDigit c = true := List.all_eq_true.mp hall
  have hfield : field ≠ [] := by
    rintro rfl
    exact hne rfl
  have hspace : field.dropWhile isSpace = field := by
    obtain ⟨c, cs, rfl⟩ := List.exists_cons_of_ne_nil hfield
    exact List.dropWhile_cons_of_neg (by simp [(hbytes c (by simp)).not_other.1])
  have htake : (takeSign field).2.takeWhile isDigit = (takeSign field).2 :=
    List.takeWhile_eq_self_iff.mpr hdigits
  have hdrop : (takeSign field).2.dropWhile isDigit = [] := List.dropWhile_eq_nil_iff.mpr hdigits
  refine ⟨?_, hfield⟩
  simp only [strtoul, hspace, htake, hdrop, if_neg hne]
  generalize natOfDigits ((takeSign field).2.map digitVal) = N at hn
  -- a number in the range is far from the bound of `strtoul`
  have hN : ¬ 2 ^ 64 ≤ N := by split_ifs at hn <;> omega
  rw [if_neg hN]
  -- a minus sign is possible before zeros only
  cases hneg : (takeSign field).1 with
  | true =>
    obtain ⟨rfl, rfl⟩ : N = 0 ∧ n = 0 := by
      rw [if_pos hneg] at hn
      omega
    rfl
  | false =>
    rw [if_neg (by simp [hneg])] at hn
    rw [← hn, Int.toNat_natCast]
    rfl

/-- A decimal number of the range is read as it is. -/
theorem readCounter_of_integerOf {n : ℤ} (h : integerOf field = some n) (hlo : 0 ≤ n)
    (hhi : n < 2 ^ 32) : readCounter field = some (UInt32.ofNat n.toNat) := by
  obtain ⟨hread, hfield⟩ := strtoul_of_integerOf h hlo hhi
  rw [readCounter_eq_some, CounterReads, hread]
  exact ⟨⟨rfl, hfield, rfl⟩, by simp⟩

/-- A magnitude is out of range when no value is near enough to it. -/
theorem rangeError_iff {neg : Bool} {mag : ℚ} (hfin : (Double.ofRat neg mag).IsFinite) :
    rangeError (.ofRat neg mag) mag = true ↔
      0 < mag ∧ mag < (2 : ℚ) ^ (-1022 : ℤ) ∧ ∀ x : Finite, x.mag ≠ mag := by
  obtain ⟨y, hy⟩ := Double.isFinite_iff.mp hfin
  rw [hy, rangeError, decide_eq_true_iff]
  refine and_congr_right fun _ => and_congr_right fun _ => ⟨fun hne x hx => hne ?_, fun h => h y⟩
  -- a value of this magnitude is its own rounding
  have hround := Double.ofRat_mag { x with neg := neg }
  rw [show Finite.mag { x with neg := neg } = mag from hx, hy] at hround
  rw [Double.finite.inj hround]
  exact hx

/-- The conversion takes all of a decimal number that is not too large, unless it is too small. -/
theorem numberReads_iff {v : Bool × ℚ} (h : decimalOf field = some v)
    (hfin : (Double.ofRat v.1 v.2).IsFinite) : NumberReads field ↔ ¬ TooSmall field := by
  have hread : strtod field = .ofMag v.1 v.2 [] := strtod_of_decimalOf h
  have hne : field ≠ [] := by
    rintro rfl
    exact absurd h (by simp [show decimalOf [] = none from rfl])
  have hsmall : TooSmall field ↔ rangeError (.ofRat v.1 v.2) v.2 = true := by
    rw [rangeError_iff hfin, TooSmall, h]
    simp
  rw [hsmall, Bool.not_eq_true, NumberReads, hread]
  simp [NumRead.ofMag, hne]

/-- A number that is read and not of another form is what the columns ask for. -/
theorem isNumber_iff (h : NumberReads field) : IsNumber field ↔ ¬ OtherForm field := by
  obtain ⟨hrange, hne, hrest⟩ := h
  rw [← isSome_decimalOf_iff hne hrest, Option.isSome_iff_exists]
  refine exists_congr fun v => and_iff_left_of_imp fun hv => ?_
  -- a value that is no finite one is out of range
  rw [strtod_of_decimalOf hv, NumRead.ofMag] at hrange
  have hnan := Double.ofRat_ne_nan v.1 v.2
  cases hd : Double.ofRat v.1 v.2 with
  | nan => exact absurd hd hnan
  | inf neg =>
    rw [hd] at hrange
    exact absurd hrange (by simp [rangeError])
  | finite x => trivial

/-- A number is not read as another one than it says. -/
theorem readNumber_eq_numberMeans {d d' : Double} (h : readNumber field = some d)
    (h' : numberMeans field = some d') : d = d' := by
  obtain ⟨v, hv, -, rfl⟩ := numberMeans_eq_some.mp h'
  have hd := (readNumber_eq_some.mp h).2
  rw [strtod_of_decimalOf hv] at hd
  exact hd.symm

/-- A counter is not read as another one than it says. -/
theorem readCounter_eq_counterMeans {c c' : UInt32} (h : readCounter field = some c)
    (h' : counterMeans field = some c') : c = c' := by
  obtain ⟨n, hn, hlo, hhi, rfl⟩ := counterMeans_eq_some.mp h'
  rw [readCounter_of_integerOf hn hlo hhi] at h
  exact (Option.some.inj h).symm

theorem decimalOf_nil : decimalOf [] = none := rfl

theorem not_otherForm_nil : ¬ OtherForm [] := by
  simp [OtherForm, StartsWith, takeSign, ascii]

theorem not_tooSmall_nil : ¬ TooSmall [] := by simp [TooSmall, decimalOf_nil]

/-- A time step is read like a number, or is missing. -/
theorem isSome_readDt : (readDt field).isSome ↔ DtReads field := by
  rw [readDt, DtReads]
  split_ifs with h
  · simp [h]
  · simp [h, isSome_readNumber]

theorem isSome_dtMeans : (dtMeans field).isSome ↔ IsDt field := by
  rw [dtMeans, IsDt]
  split_ifs with h
  · simp [h]
  · simp [h, isSome_numberMeans]

theorem readDt_eq_dtMeans {d d' : Double} (h : readDt field = some d)
    (h' : dtMeans field = some d') : d = d' := by
  rw [readDt] at h
  rw [dtMeans] at h'
  split_ifs at h h' with hf
  · exact Option.some.inj (h.symm.trans h')
  · exact readNumber_eq_numberMeans h h'

theorem isDt_iff (h : DtReads field) : IsDt field ↔ ¬ OtherForm field := by
  rcases h with rfl | h
  · exact iff_of_true (.inl rfl) not_otherForm_nil
  · rw [IsDt, or_iff_right h.2.1, isNumber_iff h]

theorem dtReads_iff (h : IsDt field) : DtReads field ↔ ¬ TooSmall field := by
  rcases h with rfl | ⟨v, hv, hfin⟩
  · exact iff_of_true (.inl rfl) not_tooSmall_nil
  · have hne : field ≠ [] := by
      rintro rfl
      simp [decimalOf_nil] at hv
    rw [DtReads, or_iff_right hne, numberReads_iff hv hfin]

theorem counterReads_of_isCounter (h : IsCounter field) : CounterReads field := by
  obtain ⟨n, hn, hlo, hhi⟩ := h
  exact (readCounter_eq_some.mp (readCounter_of_integerOf hn hlo hhi)).1

/-- A counter that is read and not of another form is what the column asks for. -/
theorem isCounter_iff (h : CounterReads field) : IsCounter field ↔ ¬ OtherCounter field := by
  obtain ⟨-, hne, hrest⟩ := h
  rw [OtherCounter, not_or]
  constructor
  · rintro ⟨n, hn, hlo, hhi⟩
    refine ⟨fun ⟨c, hc, hspace⟩ => ?_, fun ⟨n', hn', hout⟩ => hout ?_⟩
    · rw [(decimalBytes_of_integerOf hn c (List.mem_of_mem_head? hc)).not_other.1] at hspace
      exact absurd hspace (by simp)
    · rw [Option.some.inj (hn'.symm.trans hn)]
      exact ⟨hlo, hhi⟩
  · rintro ⟨hspace, hrange⟩
    have hdrop : field.dropWhile isSpace = field := by
      obtain ⟨c, cs, rfl⟩ := List.exists_cons_of_ne_nil hne
      exact List.dropWhile_cons_of_neg fun hc => hspace ⟨c, rfl, hc⟩
    -- `strtoul` took the whole field, which is then a sign and digits
    have hdigits : (takeSign field).2 ≠ [] ∧ (takeSign field).2.all isDigit = true := by
      simp only [strtoul, hdrop] at hrest
      split_ifs at hrest with hnil hover
      · exact absurd hrest hne
      all_goals
        have hall := List.dropWhile_eq_nil_iff.mp hrest
        refine ⟨?_, List.all_eq_true.mpr hall⟩
        rintro hnone
        rw [hnone] at hnil
        exact hnil rfl
    obtain ⟨n, hn⟩ : ∃ n, integerOf field = some n := ⟨_, if_pos hdigits⟩
    have hin : 0 ≤ n ∧ n < 2 ^ 32 := not_not.mp fun hout => hrange ⟨n, hn, hout⟩
    exact ⟨n, hn, hin⟩

end

/-! ## The rows -/

section

variable {P A A' Q B B' R C C' : Bytes → Prop} {fields : List Bytes}

/-- Where each field has its property, what is the same under it is the same for the row. -/
theorem EachField.congr (h : EachField P Q R fields) (hP : ∀ f, P f → (A f ↔ A' f))
    (hQ : ∀ f, Q f → (B f ↔ B' f)) (hR : ∀ f, R f → (C f ↔ C' f)) :
    EachField A B C fields ↔ EachField A' B' C' fields := by
  unfold EachField at h ⊢
  split at h
  · obtain ⟨hc, ht, hax, hay, haz, hgx, hgy, hgz⟩ := h
    simp only [hP _ hc, hQ _ ht, hR _ hax, hR _ hay, hR _ haz, hR _ hgx, hR _ hgy, hR _ hgz]
  · exact h.elim

theorem EachField.forall_mem (h : EachField P P P fields) : ∀ f ∈ fields.take 8, P f := by
  unfold EachField at h
  split at h
  · obtain ⟨hc, ht, hax, hay, haz, hgx, hgy, hgz⟩ := h
    simpa using ⟨hc, ht, hax, hay, haz, hgx, hgy, hgz⟩
  · exact h.elim

end

section

variable {counter counter' : Bytes → Option UInt32} {dt dt' number number' : Bytes → Option Double}
  {fields : List Bytes}

theorem sampleOf_take : sampleOf counter dt number (fields.take 8) =
    sampleOf counter dt number fields := by
  rcases fields with _ | ⟨_, _ | ⟨_, _ | ⟨_, _ | ⟨_, _ | ⟨_, _ | ⟨_, _ | ⟨_, _ | _⟩⟩⟩⟩⟩⟩⟩ <;> rfl

/-- What the first eight fields say is a sample. -/
def Says (counter : Bytes → Option UInt32) (dt number : Bytes → Option Double) (s : ImuSample) :
    List Bytes → Prop
  | c :: t :: ax :: ay :: az :: gx :: gy :: gz :: _ =>
    counter c = some s.counter ∧ dt t = some s.dt ∧ number ax = some s.accel.x ∧
      number ay = some s.accel.y ∧ number az = some s.accel.z ∧ number gx = some s.gyro.x ∧
      number gy = some s.gyro.y ∧ number gz = some s.gyro.z
  | _ => False

theorem sampleOf_eq_some {s : ImuSample} :
    sampleOf counter dt number fields = some s ↔ Says counter dt number s fields := by
  unfold sampleOf Says
  split
  · obtain ⟨c, t, ⟨ax, ay, az⟩, ⟨gx, gy, gz⟩⟩ := s
    simp only [Option.bind_eq_bind, Option.bind_eq_some_iff, Option.pure_def, Option.some_inj,
      ImuSample.mk.injEq, Vec3.mk.injEq]
    constructor
    · rintro ⟨_, hc, _, ht, _, hax, _, hay, _, haz, _, hgx, _, hgy, _, hgz, rfl, rfl, ⟨rfl, rfl, rfl⟩,
        rfl, rfl, rfl⟩
      exact ⟨hc, ht, hax, hay, haz, hgx, hgy, hgz⟩
    · rintro ⟨hc, ht, hax, hay, haz, hgx, hgy, hgz⟩
      exact ⟨_, hc, _, ht, _, hax, _, hay, _, haz, _, hgx, _, hgy, _, hgz, rfl, rfl, ⟨rfl, rfl, rfl⟩,
        rfl, rfl, rfl⟩
  · simp

theorem isSome_sampleOf : (sampleOf counter dt number fields).isSome ↔
    EachField (counter · |>.isSome) (dt · |>.isSome) (number · |>.isSome) fields := by
  rw [Option.isSome_iff_exists]
  simp only [sampleOf_eq_some]
  unfold Says EachField
  split
  · simp only [Option.isSome_iff_exists]
    constructor
    · rintro ⟨s, hc, ht, hax, hay, haz, hgx, hgy, hgz⟩
      exact ⟨⟨_, hc⟩, ⟨_, ht⟩, ⟨_, hax⟩, ⟨_, hay⟩, ⟨_, haz⟩, ⟨_, hgx⟩, ⟨_, hgy⟩, ⟨_, hgz⟩⟩
    · rintro ⟨⟨c, hc⟩, ⟨t, ht⟩, ⟨ax, hax⟩, ⟨ay, hay⟩, ⟨az, haz⟩, ⟨gx, hgx⟩, ⟨gy, hgy⟩, ⟨gz, hgz⟩⟩
      exact ⟨⟨c, t, ⟨ax, ay, az⟩, ⟨gx, gy, gz⟩⟩, hc, ht, hax, hay, haz, hgx, hgy, hgz⟩
  · simp

/-- Readings that agree on the fields that both of them read give the same sample. -/
theorem sampleOf_eq_sampleOf (hc : ∀ f a b, counter f = some a → counter' f = some b → a = b)
    (hd : ∀ f a b, dt f = some a → dt' f = some b → a = b)
    (hn : ∀ f a b, number f = some a → number' f = some b → a = b) {s s' : ImuSample}
    (h : sampleOf counter dt number fields = some s)
    (h' : sampleOf counter' dt' number' fields = some s') : s = s' := by
  rw [sampleOf_eq_some] at h h'
  unfold Says at h h'
  split at h
  · obtain ⟨c, t, ⟨ax, ay, az⟩, ⟨gx, gy, gz⟩⟩ := s
    obtain ⟨c', t', ⟨ax', ay', az'⟩, ⟨gx', gy', gz'⟩⟩ := s'
    obtain ⟨h1, h2, h3, h4, h5, h6, h7, h8⟩ := h
    obtain ⟨h1', h2', h3', h4', h5', h6', h7', h8'⟩ := h'
    simp only [ImuSample.mk.injEq, Vec3.mk.injEq]
    exact ⟨hc _ _ _ h1 h1', hd _ _ _ h2 h2', ⟨hn _ _ _ h3 h3', hn _ _ _ h4 h4', hn _ _ _ h5 h5'⟩,
      hn _ _ _ h6 h6', hn _ _ _ h7 h7', hn _ _ _ h8 h8'⟩
  · exact h.elim

end

/-- Two readings with the same value wherever both have one are the same when both have one or none
has. -/
theorem eq_iff_isSome {α : Type} {a b : Option α} (h : ∀ x y, a = some x → b = some y → x = y) :
    a = b ↔ (a.isSome ↔ b.isSome) := by
  cases a with
  | none => cases b <;> simp
  | some x =>
    cases b with
    | none => simp
    | some y => simpa using h x y rfl rfl

theorem readFields_eq_sampleOf (fields : List Bytes) :
    readFields fields = sampleOf readCounter readDt readNumber fields := by
  rcases fields with _ | ⟨_, _ | ⟨_, _ | ⟨_, _ | ⟨_, _ | ⟨_, _ | ⟨_, _ | ⟨_, _ | _⟩⟩⟩⟩⟩⟩⟩ <;> rfl

theorem isSome_readFields {fields : List Bytes} :
    (readFields fields).isSome ↔ EachField CounterReads DtReads NumberReads fields := by
  rw [readFields_eq_sampleOf, isSome_sampleOf]
  simp only [isSome_readCounter, isSome_readDt, isSome_readNumber]

theorem isSome_rowMeans {line : Bytes} : (rowMeans line).isSome ↔ IsRow (lineFields line) := by
  rw [rowMeans, isSome_sampleOf, IsRow]
  simp only [isSome_counterMeans, isSome_dtMeans, isSome_numberMeans]

theorem readLine_eq (line : Bytes) : readLine line =
    if csvMaxFields ≤ (lineFields line).length then none else readFields (lineFields line) := by
  rw [readLine, lineFields]
  simp only [takeFields_eq, List.length_take]
  by_cases hnil : stripCr line = []
  · rw [if_pos hnil, hnil]
    rfl
  · rw [if_neg hnil]
    rcases lt_or_ge ((stripCr line).splitOn comma).length csvMaxFields with hlt | hge
    · rw [min_eq_right hlt.le, if_neg hlt.ne, if_neg (not_le.mpr hlt), List.take_of_length_le hlt.le]
    · rw [min_eq_left hge, if_pos rfl, if_pos hge]

/-- A line is read as what it says exactly when its fields are plain. -/
theorem readLine_eq_rowMeans_iff (line : Bytes) :
    readLine line = rowMeans line ↔ Plain (lineFields line) := by
  rw [readLine_eq]
  rcases lt_or_ge (lineFields line).length csvMaxFields with hlt | hge
  · have hvalue : ∀ s s', readFields (lineFields line) = some s → rowMeans line = some s' → s = s' := by
      intro s s' h h'
      rw [readFields_eq_sampleOf] at h
      exact sampleOf_eq_sampleOf (fun _ _ _ => readCounter_eq_counterMeans)
        (fun _ _ _ => readDt_eq_dtMeans) (fun _ _ _ => readNumber_eq_numberMeans) h h'
    rw [if_neg (not_le.mpr hlt), eq_iff_isSome hvalue, isSome_readFields, isSome_rowMeans]
    -- under one side of the equivalence the other one is a matter of the forms, or of the range
    have hforms : EachField CounterReads DtReads NumberReads (lineFields line) →
        (IsRow (lineFields line) ↔
          EachField (¬ OtherCounter ·) (¬ OtherForm ·) (¬ OtherForm ·) (lineFields line)) := fun h =>
      h.congr (fun _ => isCounter_iff) (fun _ => isDt_iff) (fun _ => isNumber_iff)
    have hrange : IsRow (lineFields line) →
        (EachField CounterReads DtReads NumberReads (lineFields line) ↔
          EachField (fun _ => True) (¬ TooSmall ·) (¬ TooSmall ·) (lineFields line)) := fun h =>
      EachField.congr h (fun _ hf => iff_true_intro (counterReads_of_isCounter hf))
        (fun _ => dtReads_iff) (fun _ ⟨_, hv, hfin⟩ => numberReads_iff hv hfin)
    constructor
    · exact fun h => ⟨fun hge => absurd hge (not_le.mpr hlt), fun _ hr => (hforms hr).mp (h.mp hr),
        fun _ hr => (hrange hr).mp (h.mpr hr)⟩
    · exact fun h => ⟨fun hr => (hforms hr).mpr (h.forms hlt hr),
        fun hr => (hrange hr).mpr (h.range hlt hr)⟩
  · rw [if_pos hge, eq_comm, ← Option.not_isSome_iff_eq_none, isSome_rowMeans]
    exact ⟨fun h => ⟨fun _ => h, fun hlt => absurd hge (not_le.mpr hlt),
      fun hlt => absurd hge (not_le.mpr hlt)⟩, fun h => h.room hge⟩

/-! ## A line with a NUL -/

/-- The last field before a point goes on after it. -/
theorem exists_splitOn_append (sep : UInt8) (a b : Bytes) :
    ∃ init last h t, a.splitOn sep = init ++ [last] ∧ b.splitOn sep = h :: t ∧
      (a ++ b).splitOn sep = init ++ (last ++ h) :: t := by
  induction a with
  | nil =>
    obtain ⟨h, t, hb⟩ := List.exists_cons_of_ne_nil (List.splitOn_ne_nil sep b)
    exact ⟨[], [], h, t, rfl, hb, hb⟩
  | cons c a ih =>
    obtain ⟨init, last, h, t, ha, hb, hab⟩ := ih
    rw [List.cons_append, List.splitOn_cons_eq_if_modifyHead, List.splitOn_cons_eq_if_modifyHead, ha,
      hab]
    by_cases hc : c = sep
    · exact ⟨[] :: init, last, h, t, by simp [hc], hb, by simp [hc]⟩
    · cases init with
      | nil => exact ⟨[], c :: last, h, t, by simp [hc], hb, by simp [hc]⟩
      | cons f init => exact ⟨(c :: f) :: init, last, h, t, by simp [hc], hb, by simp [hc]⟩

/-- What a carriage return at the end adds has no comma. -/
theorem exists_stripCr_append (line : Bytes) : ∃ cr, line = stripCr line ++ cr ∧ comma ∉ cr := by
  rw [stripCr]
  split_ifs with h
  · exact ⟨[0x0D], (List.dropLast_append_getLast? _ h).symm, by decide⟩
  · exact ⟨[], (List.append_nil _).symm, List.not_mem_nil⟩

/-- A carriage return at the end of what follows a NUL is after it. -/
theorem stripCr_append_nul (u v : Bytes) : ∃ v', stripCr (u ++ 0 :: v) = u ++ 0 :: v' := by
  rw [stripCr]
  split_ifs with h
  · cases v with
    | nil => simp at h
    | cons c v => exact ⟨(c :: v).dropLast, by simp⟩
  · exact ⟨v, rfl⟩

/-- The fields of a line with a NUL: those before it, the one with it and those after it. -/
theorem exists_lineFields_nul {l : Bytes} (h : 0 ∈ l) : ∃ init last f t,
    lineFields (l.takeWhile (· ≠ 0)) = init ++ [last] ∧ lineFields l = init ++ f :: t ∧ 0 ∈ f := by
  obtain ⟨u, v, hu, rfl⟩ : ∃ u v, l.takeWhile (· ≠ 0) = u ∧ l = u ++ 0 :: v := by
    cases hdrop : l.dropWhile (· ≠ 0) with
    | nil => simpa using List.dropWhile_eq_nil_iff.mp hdrop 0 h
    | cons c v =>
      have hnot := List.head?_dropWhile_not (· ≠ 0) l
      rw [hdrop] at hnot
      obtain rfl : c = 0 := by simpa using hnot
      exact ⟨_, v, rfl, by rw [← hdrop, List.takeWhile_append_dropWhile]⟩
  -- what comes before the NUL, and the carriage return that is stripped from it only
  obtain ⟨cr, hcr, hcomma⟩ := exists_stripCr_append u
  obtain ⟨v', hv'⟩ := stripCr_append_nul u v
  obtain ⟨init, last, f, t, hinit, hf, hall⟩ := exists_splitOn_append comma (stripCr u) (cr ++ 0 :: v')
  refine ⟨init, last, last ++ f, t, by rw [hu, lineFields, hinit], ?_, ?_⟩
  · rw [lineFields, hv', ← hall]
    conv_lhs => rw [hcr, List.append_assoc]
  · -- there is no comma up to the NUL, which is therefore in the field that goes on
    obtain ⟨init', last', g, s, hcr', hg, hcat⟩ := exists_splitOn_append comma cr (0 :: v')
    rw [List.splitOn_eq_singleton hcomma] at hcr'
    obtain ⟨rfl, rfl⟩ : init' = [] ∧ last' = cr := by
      cases init' with
      | nil => exact ⟨rfl, by simpa using hcr'.symm⟩
      | cons c init' => simp at hcr'
    have hmem : 0 ∈ g := by
      obtain ⟨g', s', hg'⟩ := List.exists_cons_of_ne_nil (List.splitOn_ne_nil comma v')
      rw [List.splitOn_cons_eq_if_modifyHead, hg', if_neg (by decide)] at hg
      obtain ⟨rfl, -⟩ : 0 :: g' = g ∧ s' = s := by simpa using hg
      exact List.mem_cons_self
    rw [hcat] at hf
    obtain ⟨rfl, -⟩ : last' ++ g = f ∧ s = t := by simpa using hf
    simp [hmem]

/-- No field of a row has a NUL. -/
theorem zero_notMem_of_isRow {fields : List Bytes} (h : IsRow fields) : ∀ f ∈ fields.take 8, 0 ∉ f := by
  have hbytes : ∀ {f : Bytes}, DecimalBytes f → 0 ∉ f := fun hf hmem => by
    rcases hf 0 hmem with hd | hm | h0
    · exact absurd hd (by decide)
    · exact absurd hm (by decide)
    · exact absurd h0 (by decide)
  have hnumber : ∀ f, IsNumber f → (0 ∉ f ↔ True) := fun f ⟨v, hv, _⟩ =>
    iff_true_intro (hbytes (decimalBytes_of_decimalOf hv))
  have hdt : ∀ f, IsDt f → (0 ∉ f ↔ True) := by
    rintro f (rfl | hf)
    · simp
    · exact hnumber f hf
  have hcounter : ∀ f, IsCounter f → (0 ∉ f ↔ True) := fun f ⟨n, hn, _⟩ =>
    iff_true_intro (hbytes (decimalBytes_of_integerOf hn))
  have hrow : EachField (fun _ => True) (fun _ => True) (fun _ => True) fields :=
    (h.congr (A := IsCounter) (B := IsDt) (C := IsNumber) (fun _ hf => iff_true_intro hf) (fun _ hf => iff_true_intro hf)
      (fun _ hf => iff_true_intro hf)).mp h
  exact ((EachField.congr h hcounter hdt hnumber).mpr hrow).forall_mem

/-- A line with a NUL is read as what it says exactly when the fields before the NUL are plain. -/
theorem readLine_cut_eq_rowMeans_iff {l : Bytes} (h : 0 ∈ l) :
    readLine (l.takeWhile (· ≠ 0)) = rowMeans l ↔ CutPlain (lineFields (l.takeWhile (· ≠ 0))) := by
  obtain ⟨init, last, f, t, hcut, hall, hf⟩ := exists_lineFields_nul h
  have hlen : (lineFields (l.takeWhile (· ≠ 0))).length = init.length + 1 := by
    rw [hcut, List.length_append, List.length_singleton]
  rw [CutPlain]
  split_ifs with hle
  · -- the field with the NUL is one of the eight, and the row says nothing
    have hnone : rowMeans l = none := by
      rw [← Option.not_isSome_iff_eq_none, isSome_rowMeans, hall]
      intro hrow
      refine zero_notMem_of_isRow hrow f ?_ hf
      obtain ⟨k, hk⟩ : ∃ k, 8 - init.length = k + 1 := ⟨7 - init.length, by omega⟩
      simp [List.take_append, hk]
    have hroom : ¬ csvMaxFields ≤ (lineFields (l.takeWhile (· ≠ 0))).length := by
      rw [csvMaxFields]
      omega
    rw [hnone, readLine_eq, if_neg hroom, ← Option.not_isSome_iff_eq_none, isSome_readFields]
  · -- the field with the NUL comes after the eight
    have hinit : 8 ≤ init.length := by omega
    have hsame : rowMeans l = rowMeans (l.takeWhile (· ≠ 0)) := by
      rw [rowMeans, rowMeans, hcut, hall, ← sampleOf_take, List.take_append_of_le_length hinit]
      conv_rhs => rw [← sampleOf_take, List.take_append_of_le_length hinit]
    rw [hsame, readLine_eq_rowMeans_iff]

/-! ## The file -/

theorem csvRead_takeWhile (buf : Bytes) : csvRead (buf.takeWhile (· ≠ 0)) = csvRead buf := by
  have hself : (buf.takeWhile (· ≠ 0)).takeWhile (· ≠ 0) = buf.takeWhile (· ≠ 0) :=
    List.takeWhile_eq_self_iff.mpr fun _ => List.mem_takeWhile_imp
  rw [csvRead, csvRead, strtokLines, strtokLines, hself]

/-- What the reader sees of the lines of a file has the samples of the lines up to the first NUL. -/
theorem filterMap_seen_lines (buf : Bytes) : (seen (lines buf)).filterMap readLine =
    (lines (buf.takeWhile (· ≠ 0))).filterMap readLine := by
  induction h : buf.length using Nat.strong_induction_on generalizing buf with
  | _ n ih =>
    have hblank : ∀ ls : List Bytes, (ls.map fun _ => []).filterMap readLine = [] := fun ls => by
      simp [List.filterMap_eq_nil_iff]
    -- the induction is on the length: a line and its newline go, what is left is shorter
    by_cases hmem : newline ∈ buf
    · obtain ⟨l, rest, rfl, hl⟩ := List.eq_append_cons_of_mem hmem
      have hlines : lines (l ++ newline :: rest) = l :: lines rest :=
        List.splitOn_append_cons_self_of_not_mem hl rest
      rw [hlines, seen]
      split_ifs with hnul
      -- a NUL in the line hides the rest of it and every later line
      · have hcut : (l ++ newline :: rest).takeWhile (· ≠ 0) = l.takeWhile (· ≠ 0) := by
          rw [List.takeWhile_append, if_neg]
          intro hlen
          have hself := (List.takeWhile_prefix _).eq_of_length hlen
          rw [List.takeWhile_eq_self_iff] at hself
          simpa using hself 0 hnul
        have hcutLine : newline ∉ l.takeWhile (· ≠ 0) := fun hc =>
          hl ((List.takeWhile_prefix _).subset hc)
        rw [hcut, show lines (l.takeWhile (· ≠ 0)) = [l.takeWhile (· ≠ 0)] from
          List.splitOn_eq_singleton hcutLine, List.filterMap_cons, hblank]
        rfl
      -- a line without a NUL is read as it is
      · have hself : (l ++ newline :: rest).takeWhile (· ≠ 0) =
            l ++ newline :: rest.takeWhile (· ≠ 0) := by
          rw [List.takeWhile_append_of_pos fun c hc => by
            simpa using fun h0 : c = 0 => hnul (h0 ▸ hc)]
          rfl
        rw [hself, show lines (l ++ newline :: rest.takeWhile (· ≠ 0)) = l :: lines _ from
          List.splitOn_append_cons_self_of_not_mem hl _, List.filterMap_cons, List.filterMap_cons,
          ih rest.length (by simp at h; omega) rest rfl]
    · have hlines : ∀ {u : Bytes}, u <+: buf → lines u = [u] := fun hu =>
        List.splitOn_eq_singleton fun hu' => hmem (hu.subset hu')
      rw [hlines List.prefix_rfl, hlines (List.takeWhile_prefix _), seen]
      split_ifs with hnul
      · rfl
      · rw [List.takeWhile_eq_self_iff.mpr fun c hc => by simpa using fun h0 : c = 0 => hnul (h0 ▸ hc)]
        rfl

/-- The samples are those of the lines that the reader sees. -/
theorem csvRead_eq_seen (buf : Bytes) : csvRead buf = (seen (lines buf)).filterMap readLine := by
  have hnul : 0 ∉ buf.takeWhile (· ≠ 0) := fun h => by simpa using List.mem_takeWhile_imp h
  rw [filterMap_seen_lines, ← csvRead_takeWhile, csvRead_eq_filterMap hnul, lines]

/-- Each line is read as what it says exactly when the file is without fault. -/
theorem map_seen_eq_iff (ls : List Bytes) :
    (seen ls).map readLine = ls.map rowMeans ↔ Faultless ls := by
  induction ls with
  | nil => simp [seen, Faultless]
  | cons l ls ih =>
    rw [seen, Faultless]
    split_ifs with h
    · rw [List.map_cons, List.map_cons, List.cons.injEq, readLine_cut_eq_rowMeans_iff h]
      refine and_congr_right fun _ => ?_
      rw [List.map_map, List.map_inj_left]
      refine forall₂_congr fun l' _ => ?_
      rw [← isSome_rowMeans, Bool.not_eq_true, Option.isSome_eq_false_iff, Option.isNone_iff_eq_none]
      exact eq_comm
    · rw [List.map_cons, List.map_cons, List.cons.injEq, readLine_eq_rowMeans_iff, ih]

end Csv
