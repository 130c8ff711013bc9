import LgMagic.Airmouse.Deltas
import LgMagic.Lib.Hysteresis

/-!
# The gate over a stream

The gate keeps a flag, a countdown and the slow average of the accelerometer. Over a stream it is a
switch with hysteresis and a hold, worked by the deviations from the average before each frame: the
flag after a frame says which of the frames so far were still, wild or in motion.

* `gateRuns`, `gateSight`: whether a frame reaches `gate_decision`, and what it shows there;
* `gateSwitch_gateDecision`: a decision is a step of the switch;
* `gateSwitch_airmouseAfter`: the gate of a stream is the switch on the deviations;
* `gateOpen_eq_false_iff`: whether the gate is closed after a frame, by the deviations so far.
-/

namespace Pointer

open Binary64 Hysteresis

section

variable {F : Type} [CArith F]

/-- The frame reaches `gate_decision`. -/
def gateRuns (a : Airmouse F) (acc : Vec3 F) : Bool :=
  a.haveRaw && (a.gateOn && !(airmouseArm a acc).aAbsent)

/-- The deviation of a frame: the baseline is the one before the frame, or the frame itself when the
accelerometer reports for the first time. -/
def deviation (a : Airmouse F) (acc : Vec3 F) : F := gateDev (airmouseArm a acc) acc

/-- What a frame shows to the gate. -/
def gateSight (a : Airmouse F) (acc : Vec3 F) : Sight where
  low := CNum.lt (deviation a acc) (CArith.mul a.gateLo (CNum.ofRat (1 / 2)))
  high := CNum.lt a.gateLo (deviation a acc)
  refresh := CNum.lt a.gateHi (deviation a acc)

/-- The flag and the countdown of the gate. -/
def gateSwitch (a : Airmouse F) : Switch := ⟨a.gateOpen, a.latchLeft⟩

/-! ## One frame -/

/-- The settings of the engine, which no frame changes. -/
def SameSettings (a a' : Airmouse F) : Prop :=
  a'.gateOn = a.gateOn ∧ a'.gateLo = a.gateLo ∧ a'.gateHi = a.gateHi ∧ a'.gateLatch = a.gateLatch

theorem airmouseArm_cases (a : Airmouse F) (acc : Vec3 F) :
    ∃ b absent, airmouseArm a acc = { a with aBase := b, aAbsent := absent } ∧
      (a.aAbsent = false → absent = false) := by
  rw [airmouseArm]
  split_ifs
  · exact ⟨acc, false, rfl, fun _ => rfl⟩
  · exact ⟨a.aBase, a.aAbsent, rfl, id⟩

theorem sameSettings_airmouseProcess (a : Airmouse F) (g acc : Vec3 F) :
    SameSettings a (airmouseProcess a g acc).1 := by
  obtain ⟨b, absent, harm, -⟩ := airmouseArm_cases a acc
  rw [airmouseProcess_eq, airmouseGate, harm]
  dsimp only
  split_ifs <;> exact ⟨rfl, rfl, rfl, rfl⟩

/-- A decision is a step of the switch. -/
theorem gateSwitch_gateDecision (a : Airmouse F) (acc : Vec3 F) :
    gateSwitch (gateDecision (airmouseArm a acc) acc).2 =
      (gateSwitch a).step a.gateLatch (gateSight a acc) := by
  obtain ⟨b, absent, harm, -⟩ := airmouseArm_cases a acc
  simp only [gateSwitch, gateSight, deviation, gateDecision, Switch.step, harm]

/-- A frame that reaches `gate_decision` is a step of the switch, and the next one reaches it too. -/
theorem gateSwitch_airmouseProcess {a : Airmouse F} {acc : Vec3 F} (h : gateRuns a acc = true)
    (g : Vec3 F) : gateSwitch (airmouseProcess a g acc).1 =
        (gateSwitch a).step a.gateLatch (gateSight a acc) ∧
      ∀ acc', gateRuns (airmouseProcess a g acc).1 acc' = true := by
  obtain ⟨b, absent, harm, -⟩ := airmouseArm_cases a acc
  simp only [gateRuns, Bool.and_eq_true] at h
  obtain ⟨hraw, hon, habsent⟩ := h
  have hgate : airmouseGate a acc = (gateDecision (airmouseArm a acc) acc).2 := by
    rw [airmouseGate]
    simp [harm] at habsent ⊢
    simp [hraw, hon, habsent]
  constructor
  · rw [← gateSwitch_gateDecision, airmouseProcess_eq, hgate]
    rfl
  · intro acc'
    have hkept : (airmouseProcess a g acc).1.aAbsent = false := by
      have hdecision : (gateDecision (airmouseArm a acc) acc).2.aAbsent =
        (airmouseArm a acc).aAbsent := rfl
      rw [airmouseProcess_eq, hgate]
      simpa [hdecision] using habsent
    obtain ⟨b', absent', harm', hstays⟩ := airmouseArm_cases (airmouseProcess a g acc).1 acc'
    rw [gateRuns, harm']
    dsimp only
    rw [hstays hkept, (sameSettings_airmouseProcess a g acc).1, hon, airmouseProcess_eq]
    rfl

/-- A frame that does not reach `gate_decision` leaves the switch alone. -/
theorem gateSwitch_of_not_gateRuns {a : Airmouse F} {acc : Vec3 F} (h : gateRuns a acc = false)
    (g : Vec3 F) : gateSwitch (airmouseProcess a g acc).1 = gateSwitch a := by
  obtain ⟨b, absent, harm, -⟩ := airmouseArm_cases a acc
  rw [gateRuns, harm] at h
  rw [airmouseProcess_eq, airmouseGate, harm]
  dsimp only at h ⊢
  rw [if_neg (by simpa using h)]
  rfl

/-! ## Streams -/

variable {a : Airmouse F} {acc g : ℕ → Vec3 F}

theorem sameSettings_airmouseAfter (a : Airmouse F) (acc g : ℕ → Vec3 F) (n : ℕ) :
    SameSettings a (airmouseAfter a acc g n) := by
  induction n with
  | zero => exact ⟨rfl, rfl, rfl, rfl⟩
  | succ n ih =>
    obtain ⟨hon, hlo, hhi, hlatch⟩ :=
      sameSettings_airmouseProcess (airmouseAfter a acc g n) (g n) (acc n)
    obtain ⟨ihon, ihlo, ihhi, ihlatch⟩ := ih
    exact ⟨hon.trans ihon, hlo.trans ihlo, hhi.trans ihhi, hlatch.trans ihlatch⟩

/-- What the frames of a stream show to the gate, from a frame on. -/
def streamSight (a : Airmouse F) (acc g : ℕ → Vec3 F) (s n : ℕ) : Sight :=
  gateSight (airmouseAfter a acc g (s + n)) (acc (s + n))

/-- Before the first frame that reaches `gate_decision` the switch is the one of the start. -/
theorem gateSwitch_airmouseAfter_of_not_gateRuns {s : ℕ}
    (hbefore : ∀ i < s, gateRuns (airmouseAfter a acc g i) (acc i) = false) {i : ℕ} (hi : i ≤ s) :
    gateSwitch (airmouseAfter a acc g i) = gateSwitch a := by
  induction i with
  | zero => rfl
  | succ i ih =>
    rw [airmouseAfter, gateSwitch_of_not_gateRuns (hbefore i (by omega)), ih (by omega)]

/-- From the first frame that reaches `gate_decision` on, the gate is the switch on the deviations. -/
theorem gateSwitch_airmouseAfter (hopen : gateSwitch a = ⟨true, 0⟩) {s : ℕ}
    (hfirst : gateRuns (airmouseAfter a acc g s) (acc s) = true)
    (hbefore : ∀ i < s, gateRuns (airmouseAfter a acc g i) (acc i) = false) (n : ℕ) :
    gateSwitch (airmouseAfter a acc g (s + n)) =
        switchAfter a.gateLatch (streamSight a acc g s) n ∧
      gateRuns (airmouseAfter a acc g (s + n)) (acc (s + n)) = true := by
  induction n with
  | zero => exact ⟨(gateSwitch_airmouseAfter_of_not_gateRuns hbefore le_rfl).trans hopen, hfirst⟩
  | succ n ih =>
    obtain ⟨hswitch, hruns⟩ := ih
    obtain ⟨hstep, hnext⟩ := gateSwitch_airmouseProcess hruns (g (s + n))
    refine ⟨?_, hnext _⟩
    rw [← Nat.add_assoc, airmouseAfter, hstep, hswitch,
      (sameSettings_airmouseAfter a acc g (s + n)).2.2.2]
    rfl

/-- The countdown never exceeds the length of the latch. -/
theorem latchLeft_le (h : a.latchLeft ≤ a.gateLatch) (n : ℕ) :
    (airmouseAfter a acc g n).latchLeft ≤ a.gateLatch := by
  induction n with
  | zero => exact h
  | succ n ih =>
    have hlatch := (sameSettings_airmouseAfter a acc g n).2.2.2
    cases hruns : gateRuns (airmouseAfter a acc g n) (acc n) with
    | false =>
      have hkept := congrArg Switch.left (gateSwitch_of_not_gateRuns hruns (g n))
      exact hkept.trans_le ih
    | true =>
      have hstep := congrArg Switch.left (gateSwitch_airmouseProcess hruns (g n)).1
      have hleft : (airmouseAfter a acc g (n + 1)).latchLeft =
        ((gateSwitch (airmouseAfter a acc g n)).step (airmouseAfter a acc g n).gateLatch
          (gateSight (airmouseAfter a acc g n) (acc n))).left := hstep
      rw [hleft, hlatch, Switch.step]
      dsimp only
      split_ifs
      · exact le_rfl
      · exact (Nat.sub_le _ _).trans ih

end

/-! ## Thresholds -/

/-- The constant `0.5`. -/
theorem ofRat_half : ∃ x : Finite, (CNum.ofRat (1 / 2) : Double) = .finite x ∧ x.neg = false ∧
    x.m ≠ 0 ∧ x.mag = 1 / 2 := by
  let x : Finite := ⟨false, 2 ^ 52, -53, by norm_num, by norm_num, by norm_num, .inr le_rfl⟩
  have hmag : x.mag = 1 / 2 := by norm_num [Finite.mag, x]
  have hneg : decide ((1 / 2 : ℚ) < 0) = false := by norm_num
  have habs : |(1 / 2 : ℚ)| = x.mag := by rw [hmag, abs_of_pos (by norm_num)]
  refine ⟨x, ?_, rfl, by norm_num [x], hmag⟩
  rw [← Double.ofRat_mag x, ← habs]
  exact congrArg (Double.ofRat · _) hneg

/-- Half of a positive threshold is not above it, also where halving rounds. -/
theorem lt_eq_false_of_lt_half {lo dev : Double} (hlo : (CNum.ofRat 0 : Double).lt lo = true)
    (h : dev.lt (lo.mul (CNum.ofRat (1 / 2))) = true) : lo.lt dev = false := by
  obtain ⟨x, hhalf, hneg, hm, hmag⟩ := ofRat_half
  have hzero : (CNum.ofRat 0 : Double) = .zero false := by decide +kernel
  rw [hhalf] at h
  rw [hzero] at hlo
  -- only a finite bound has a half below it
  cases lo with
  | nan => rfl
  | inf b =>
    obtain rfl : b = false := by simpa [Double.lt, Double.zero] using hlo
    cases dev <;> simp_all [Double.mul, Double.lt]
  | finite lo =>
    have hpos : 0 < lo.toRat := by
      have hlt : Finite.toRat ⟨false, 0, -1074, by norm_num, le_rfl, by norm_num, .inl rfl⟩ <
        lo.toRat := of_decide_eq_true hlo
      simpa [Finite.toRat, Finite.mag] using hlt
    have hsign : lo.neg = false := by
      by_contra hneg
      rw [Bool.not_eq_false] at hneg
      rw [Finite.toRat, if_pos hneg] at hpos
      linarith [lo.mag_nonneg]
    have hlomag : 0 < lo.mag := by rwa [Finite.toRat, hsign, if_neg Bool.false_ne_true] at hpos
    -- the half as it is computed, which rounding leaves below the bound
    obtain ⟨y, hy, hyneg, hyle⟩ := exists_ofRat_eq (q := lo.mag * x.mag) (by rw [hmag]; linarith)
      (b := lo) (by rw [hmag]; linarith) (lo.neg ^^ x.neg)
    rw [Double.mul, hy] at h
    cases dev with
    | nan => rfl
    | inf b => cases b <;> simp_all [Double.lt]
    | finite dev =>
      have hlt : dev.toRat < y.toRat := of_decide_eq_true h
      have hyval : y.toRat = y.mag := by rw [Finite.toRat, hyneg, hsign, hneg]; rfl
      have hloval : lo.toRat = lo.mag := by rw [Finite.toRat, hsign]; rfl
      refine decide_eq_false fun hgt => ?_
      rw [hyval] at hlt
      rw [hloval] at hgt
      linarith

/-! ## The gate by the deviations -/

/-- In every stream, from the first frame that reaches `gate_decision` on, the gate is closed after
frame `n` exactly when some frame `m` up to it was below half the lower threshold, none of the last
frames up to `m` that the latch covers was above the upper threshold, and none after `m` was above
the lower one. The countdown stays between zero and the length of the latch. -/
theorem gateOpen_eq_false_iff (a : Airmouse Double) (alpha scale lo hi : Double) (latch : ℕ)
    (hlo : CNum.lt (CNum.ofRat 0) lo = true) (acc g : ℕ → Vec3 Double) :
    let start : Airmouse Double :=
      { airmouseGateCfg (airmouseInit a alpha scale) true lo hi with gateLatch := latch }
    let engine := airmouseAfter start acc g
    let runs (i : ℕ) := gateRuns (engine i) (acc i) = true
    let dev (i : ℕ) : Double := deviation (engine i) (acc i)
    (∀ s, runs s → (∀ i < s, ¬ runs i) → ∀ n ≥ s, (engine (n + 1)).gateOpen = false ↔
      ∃ m, s ≤ m ∧ m ≤ n ∧ CNum.lt (dev m) (CArith.mul lo (CNum.ofRat (1 / 2))) = true ∧
        (∀ j, s ≤ j → j ≤ m → m < j + latch → ¬ CNum.lt hi (dev j) = true) ∧
        ∀ j, m < j → j ≤ n → ¬ CNum.lt lo (dev j) = true) ∧
    ∀ n, 0 ≤ (engine n).latchLeft ∧ (engine n).latchLeft ≤ latch := by
  intro start engine runs dev
  have hsettings (i : ℕ) : SameSettings start (engine i) := sameSettings_airmouseAfter start acc g i
  refine ⟨fun s hfirst hbefore n hn => ?_,
    fun n => ⟨Nat.zero_le _, latchLeft_le (a := start) (Nat.zero_le _) n⟩⟩
  -- from its first frame on the gate is the switch of the library, with frames counted from there
  obtain ⟨k, rfl⟩ := Nat.exists_eq_add_of_le hn
  have hswitch := (gateSwitch_airmouseAfter (a := start) rfl hfirst
    (fun i hi => Bool.eq_false_iff.mpr (hbefore i hi)) (k + 1)).1
  have hopen : (engine (s + k + 1)).gateOpen =
    (switchAfter latch (streamSight start acc g s) (k + 1)).isOpen := congrArg Switch.isOpen hswitch
  have hsight (i : ℕ) : streamSight start acc g s i =
      ⟨CNum.lt (dev (s + i)) (CArith.mul lo (CNum.ofRat (1 / 2))), CNum.lt lo (dev (s + i)),
        CNum.lt hi (dev (s + i))⟩ := by
    obtain ⟨-, hlo, hhi, -⟩ := hsettings (s + i)
    rw [streamSight, gateSight, hlo, hhi]
    rfl
  rw [hopen, closed_iff fun i => by rw [hsight]; exact lt_eq_false_of_lt_half hlo]
  simp only [hsight, ← Bool.not_eq_true]
  -- the same frames, counted from the first one and from the start of the stream
  constructor
  · rintro ⟨m, hm, hlow, hlatch, hsince⟩
    refine ⟨s + m, by omega, by omega, hlow, fun j hj hj' hlast => ?_, fun j hj hj' => ?_⟩
    · obtain ⟨i, rfl⟩ := Nat.exists_eq_add_of_le hj
      exact hlatch i (by omega) (by omega)
    · obtain ⟨i, rfl⟩ := Nat.exists_eq_add_of_le (show s ≤ j by omega)
      exact hsince i (by omega) (by omega)
  · rintro ⟨m, hm, hm', hlow, hlatch, hsince⟩
    obtain ⟨i, rfl⟩ := Nat.exists_eq_add_of_le hm
    exact ⟨i, by omega, hlow, fun j hj hlast => hlatch (s + j) (by omega) (by omega) (by omega),
      fun j hj hlast => hsince (s + j) (by omega) (by omega)⟩

/-- A remote at rest: the thresholds of `airmouse_init`, and gravity along one axis. -/
theorem gateOpen_eq_false_iff_rest :
    let blank : Airmouse Double :=
      ⟨.ofInt 0, .zero, .zero, false, .ofInt 0, false, .ofInt 0, .ofInt 0, .ofInt 0, 0, 0, false,
        false, .zero⟩
    let start : Airmouse Double :=
      { airmouseGateCfg (airmouseInit blank (.ofInt 1) (.ofInt 30)) true (.ofInt 60) (.ofInt 400)
        with gateLatch := 10 }
    (airmouseAfter start (fun _ => ⟨.ofInt 0, .ofInt 0, .ofInt 4007⟩) (fun _ => .zero) 2).gateOpen =
      false := by
  intro blank start
  refine ((gateOpen_eq_false_iff blank (.ofInt 1) (.ofInt 30) (.ofInt 60) (.ofInt 400) 10
    (by decide +kernel) (fun _ => ⟨.ofInt 0, .ofInt 0, .ofInt 4007⟩) fun _ => .zero).1 1
    (by decide +kernel) (by decide +kernel) 1 le_rfl).mpr
    ⟨1, le_rfl, le_rfl, by decide +kernel, fun j hj hj' _ => ?_, fun j hj hj' => by omega⟩
  obtain rfl : j = 1 := by omega
  decide +kernel

end Pointer
