import LgMagic.Airmouse

/-!
# Movements and deltas

Two streams of the gyroscope against one stream of the accelerometer. The gate goes by the
accelerometer alone, and the filter takes a sample only by its change from the one before it, and
only while the gate is open. The engines of two streams whose changes agree on these frames differ
in nothing but the last sample.

* `airmouseAfter`, `movement`: the engine after some frames, and what the next frame moves;
* `deltaEnters`: whether the change of a frame enters the filter;
* `SameMotion`: the relation between the engines of the two streams;
* `movement_eq`: the two streams move the pointer alike.
-/

namespace Pointer

section

variable {F : Type} [CArith F]

/-- The baseline of the gate is set with the first reading of the accelerometer. -/
def airmouseArm (a : Airmouse F) (acc : Vec3 F) : Airmouse F :=
  if a.gateOn && a.aAbsent && nonzero acc then { a with aBase := acc, aAbsent := false } else a

/-- Whether the gate lets the change of the next frame into the filter; the first frame has none. -/
def deltaEnters (a : Airmouse F) (acc : Vec3 F) : Bool :=
  let a' := airmouseArm a acc
  a.haveRaw && (!(a'.gateOn && !a'.aAbsent) || (gateDecision a' acc).1)

/-- The engine after the first frames of a stream. -/
def airmouseAfter (a : Airmouse F) (acc g : ℕ → Vec3 F) : ℕ → Airmouse F
  | 0 => a
  | n + 1 => (airmouseProcess (airmouseAfter a acc g n) (g n) (acc n)).1

/-- `out`, `dx` and `dy` of a frame. -/
def movement (a : Airmouse F) (acc g : ℕ → Vec3 F) (n : ℕ) : Vec3 F × ℤ × ℤ :=
  let r := airmouseProcess (airmouseAfter a acc g n) (g n) (acc n)
  (r.1.prev, r.2)

/-! ## One frame -/

/-- The engine after the gate has seen a reading of the accelerometer. -/
def airmouseGate (a : Airmouse F) (acc : Vec3 F) : Airmouse F :=
  let a := airmouseArm a acc
  if a.haveRaw && (a.gateOn && !a.aAbsent) then (gateDecision a acc).2 else a

/-- The filtered change: a sample behind the gate is absorbed, and the filter decays. -/
def airmouseOut (a : Airmouse F) (g acc : Vec3 F) : Vec3 F :=
  let decay := a.prev.map (CArith.mul (CArith.sub (CNum.ofRat 1) a.alpha))
  if !a.haveRaw then .zero
  else if deltaEnters a acc then
    ((g.zipWith CArith.sub a.rawPrev).map (CArith.mul a.alpha)).zipWith CArith.add decay
  else decay

theorem airmouseProcess_eq (a : Airmouse F) (g acc : Vec3 F) : airmouseProcess a g acc =
    ({ airmouseGate a acc with rawPrev := g, haveRaw := true, prev := airmouseOut a g acc },
      CArith.toInt (CArith.mul (CArith.neg (airmouseOut a g acc).z) a.scale),
      CArith.toInt (CArith.mul (CArith.neg (airmouseOut a g acc).y) a.scale)) := by
  obtain ⟨b, absent, harm⟩ : ∃ b absent, airmouseArm a acc =
      { a with aBase := b, aAbsent := absent } := by
    rw [airmouseArm]
    split_ifs
    · exact ⟨acc, false, rfl⟩
    · exact ⟨a.aBase, a.aAbsent, rfl⟩
  have hprocess := airmouseProcess.eq_def a g acc
  rw [← airmouseArm, harm] at hprocess
  rw [hprocess, airmouseGate, airmouseOut, deltaEnters, harm]
  cases hraw : a.haveRaw
  · rfl
  · cases hgate : a.gateOn && !absent
    · simp [hgate]
    · simp only [Bool.not_true, Bool.false_eq_true, if_false, hgate, if_true, Bool.true_and,
        Bool.false_or]
      rfl

/-- The engines differ in the last sample only. -/
def SameMotion (a a' : Airmouse F) : Prop := ∃ r, a' = { a with rawPrev := r }

/-- The gate does not look at the samples of the gyroscope. -/
theorem SameMotion.gate {a a' : Airmouse F} (h : SameMotion a a') (acc : Vec3 F) :
    deltaEnters a' acc = deltaEnters a acc ∧
      SameMotion (airmouseGate a acc) (airmouseGate a' acc) := by
  obtain ⟨r, rfl⟩ := h
  have harm : airmouseArm { a with rawPrev := r } acc = { airmouseArm a acc with rawPrev := r } := by
    simp only [airmouseArm]
    split_ifs <;> rfl
  constructor
  · rw [deltaEnters, harm]
    rfl
  · refine ⟨r, ?_⟩
    rw [airmouseGate, airmouseGate, harm]
    dsimp only
    split_ifs <;> rfl

/-- Engines that differ in the last sample only move the pointer alike, and still differ in the last
sample only, where the change enters the filter of neither or is the same for both. -/
theorem SameMotion.process {a a' : Airmouse F} (h : SameMotion a a') {g g' acc : Vec3 F}
    (hdelta : deltaEnters a acc = true →
      g.zipWith CArith.sub a.rawPrev = g'.zipWith CArith.sub a'.rawPrev) :
    SameMotion (airmouseProcess a g acc).1 (airmouseProcess a' g' acc).1 ∧
      (airmouseProcess a g acc).1.prev = (airmouseProcess a' g' acc).1.prev ∧
      (airmouseProcess a g acc).2 = (airmouseProcess a' g' acc).2 := by
  obtain ⟨henters, r, hgate⟩ := h.gate acc
  obtain ⟨r', rfl⟩ := h
  have hout : airmouseOut a g acc = airmouseOut { a with rawPrev := r' } g' acc := by
    rw [airmouseOut, airmouseOut, henters]
    split_ifs with hfirst henter
    · rfl
    · rw [hdelta henter]
    · rfl
  rw [airmouseProcess_eq, airmouseProcess_eq, hout, hgate]
  exact ⟨⟨g', rfl⟩, rfl, rfl⟩

/-- The last sample of an engine is that of the last frame. -/
theorem rawPrev_airmouseProcess (a : Airmouse F) (g acc : Vec3 F) :
    (airmouseProcess a g acc).1.rawPrev = g := by
  rw [airmouseProcess_eq]

/-! ## Streams -/

/-- The engines of two streams differ in the last sample only, as long as the changes agree on the
frames whose change enters the filter. -/
theorem sameMotion_airmouseAfter {a : Airmouse F} (hfirst : a.haveRaw = false)
    {acc g g' : ℕ → Vec3 F} {n : ℕ}
    (h : ∀ i < n, deltaEnters (airmouseAfter a acc g (i + 1)) (acc (i + 1)) = true →
      (g (i + 1)).zipWith CArith.sub (g i) = (g' (i + 1)).zipWith CArith.sub (g' i)) :
    ∀ i ≤ n, SameMotion (airmouseAfter a acc g (i + 1)) (airmouseAfter a acc g' (i + 1)) ∧
      movement a acc g i = movement a acc g' i := by
  have hmovement (i : ℕ) (h : SameMotion (airmouseAfter a acc g i) (airmouseAfter a acc g' i))
      (hdelta : deltaEnters (airmouseAfter a acc g i) (acc i) = true →
        (g i).zipWith CArith.sub (airmouseAfter a acc g i).rawPrev =
          (g' i).zipWith CArith.sub (airmouseAfter a acc g' i).rawPrev) :
      SameMotion (airmouseAfter a acc g (i + 1)) (airmouseAfter a acc g' (i + 1)) ∧
        movement a acc g i = movement a acc g' i := by
    obtain ⟨hsame, hprev, hmove⟩ := h.process hdelta
    exact ⟨hsame, Prod.ext hprev hmove⟩
  intro i hi
  induction i with
  | zero =>
    -- no change enters with the first frame
    refine hmovement 0 ⟨_, rfl⟩ fun henter => ?_
    simp [airmouseAfter, deltaEnters, hfirst] at henter
  | succ i ih =>
    refine hmovement (i + 1) (ih (by omega)).1 fun henter => ?_
    rw [airmouseAfter, airmouseAfter, rawPrev_airmouseProcess, rawPrev_airmouseProcess]
    exact h i (by omega) henter

end

/-- Over exact numbers a fresh engine moves the pointer alike for two streams of the gyroscope whose
changes agree on every frame whose change enters the filter; displacements that do not change on
such frames, and constant offsets, move nothing. -/
theorem movement_eq (a : Airmouse ℚ) (alpha scale : ℚ) (on : Bool) (lo hi : ℚ)
    (acc : ℕ → Vec3 ℚ) (n : ℕ) :
    let e := airmouseGateCfg (airmouseInit a alpha scale) on lo hi
    let enters (g : ℕ → Vec3 ℚ) (i : ℕ) := deltaEnters (airmouseAfter e acc g i) (acc i) = true
    (∀ g g' : ℕ → Vec3 ℚ,
      (∀ i < n, enters g (i + 1) →
        (g (i + 1)).zipWith CArith.sub (g i) = (g' (i + 1)).zipWith CArith.sub (g' i)) →
      ∀ i ≤ n, movement e acc g i = movement e acc g' i) ∧
    (∀ g c : ℕ → Vec3 ℚ, (∀ i < n, enters g (i + 1) → c (i + 1) = c i) →
      ∀ i ≤ n, movement e acc g i = movement e acc (fun j => (g j).zipWith CArith.add (c j)) i) ∧
    (∀ (g : ℕ → Vec3 ℚ) (c : Vec3 ℚ),
      ∀ i ≤ n, movement e acc g i = movement e acc (fun j => (g j).zipWith CArith.add c) i) := by
  intro e enters
  have hdeltas : ∀ g g' : ℕ → Vec3 ℚ,
      (∀ i < n, enters g (i + 1) →
        (g (i + 1)).zipWith CArith.sub (g i) = (g' (i + 1)).zipWith CArith.sub (g' i)) →
      ∀ i ≤ n, movement e acc g i = movement e acc g' i :=
    fun g g' h i hi => (sameMotion_airmouseAfter rfl h i hi).2
  have hoffset : ∀ g c : ℕ → Vec3 ℚ, (∀ i < n, enters g (i + 1) → c (i + 1) = c i) →
      ∀ i ≤ n, movement e acc g i = movement e acc (fun j => (g j).zipWith CArith.add (c j)) i := by
    refine fun g c h => hdeltas g _ fun i hi henter => ?_
    have hcancel (x y z : ℚ) : x - y = x + z - (y + z) := by ring
    rw [h i hi henter]
    exact (Vec3.mk.injEq _ _ _ _ _ _).mpr ⟨hcancel _ _ _, hcancel _ _ _, hcancel _ _ _⟩
  exact ⟨hdeltas, hoffset, fun g c => hoffset g (fun _ => c) fun _ _ _ => rfl⟩

/-- An engine with the settings of the tests, at rest. -/
def restEngine : Airmouse ℚ :=
  airmouseGateCfg (airmouseInit ⟨0, .zero, .zero, false, 0, false, 0, 0, 0, 0, 0, false, false, .zero⟩
    (1 / 5) 30) true 60 400

theorem movement_eq_spring :
    (∀ i ≤ 2, movement restEngine (fun _ => ⟨0, 0, 1000⟩) (fun _ => .zero) i =
      movement restEngine (fun _ => ⟨0, 0, 1000⟩) (fun j => ⟨0, 0, 100 * j⟩) i) ∧
    (∀ i ≤ 2, movement restEngine (fun _ => ⟨0, 0, 1000⟩) (fun _ => .zero) i =
      movement restEngine (fun _ => ⟨0, 0, 1000⟩)
        (fun j => Vec3.zero.zipWith CArith.add ⟨0, 0, 100 * j⟩) i) := by
  have h := movement_eq ⟨0, .zero, .zero, false, 0, false, 0, 0, 0, 0, 0, false, false, .zero⟩
    (1 / 5) 30 true 60 400 (fun _ => ⟨0, 0, 1000⟩) 2
  have hclosed : ∀ i < 2, ¬ deltaEnters
      (airmouseAfter restEngine (fun _ => ⟨0, 0, 1000⟩) (fun _ => .zero) (i + 1))
      ⟨0, 0, 1000⟩ = true := by decide +kernel
  exact ⟨h.1 _ _ fun i hi henter => absurd henter (hclosed i hi),
    h.2.1 _ (fun j => ⟨0, 0, 100 * j⟩) fun i hi henter => absurd henter (hclosed i hi)⟩

end Pointer
