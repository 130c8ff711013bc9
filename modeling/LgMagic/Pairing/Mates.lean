import LgMagic.Pairing.Run

/-!
# Mates

Which IMU a keyboard gets in a pairing that succeeds. In the order of the devices, an IMU is left
over when no keyboard has its MAC or an earlier IMU has the same MAC; only such an IMU is paired
without a MAC match, and by then one keyboard at most is free.

* `leftover`, `mateOf`: the first IMU that has the MAC of a keyboard or is left over;
* `pairRun_eq_mates`: the run that succeeds gives every keyboard its mate.
-/

namespace Pairing

open CString Printf

/-- Whether an IMU that comes after some others is left over. -/
def leftover (kbds seen : List PairingInputDev) (imu : PairingInputDev) : Bool :=
  macKeyboards kbds imu = [] || seen.any fun i => uniqEq i.uniq imu.uniq

/-- The mate of a keyboard among the IMUs that come after some others. -/
def mateAfter (kbds : List PairingInputDev) (k : PairingInputDev) :
    List PairingInputDev → List PairingInputDev → Option PairingInputDev
  | _, [] => none
  | seen, i :: imus =>
    if carriesMac i k || leftover kbds seen i then some i else mateAfter kbds k (seen ++ [i]) imus

/-- The first IMU that has the MAC of a keyboard or is left over. -/
def mateOf (kbds imus : List PairingInputDev) (k : PairingInputDev) : Option PairingInputDev :=
  mateAfter kbds k [] imus

/-- The keyboards with their mates. -/
def matedSlots (kbds imus : List PairingInputDev) : List Slot :=
  kbds.map fun k => ⟨k, mateOf kbds imus k⟩

variable {kbds seen imus : List PairingInputDev} {imu k i : PairingInputDev} {slots out : List Slot}

theorem mateAfter_concat (kbds seen imus : List PairingInputDev) (k i : PairingInputDev) :
    mateAfter kbds k seen (imus ++ [i]) = (mateAfter kbds k seen imus).or
      (if carriesMac i k || leftover kbds (seen ++ imus) i then some i else none) := by
  induction imus generalizing seen with
  | nil => simp [mateAfter]
  | cons j imus ih =>
    rw [List.cons_append, mateAfter, mateAfter]
    cases hj : carriesMac j k || leftover kbds seen j with
    | true => rfl
    | false =>
      have := ih (seen ++ [j])
      rw [List.append_assoc] at this
      exact this

/-- One more IMU is the mate of the keyboards without one, if it has their MAC or is left over. -/
theorem mateOf_concat (kbds imus : List PairingInputDev) (k i : PairingInputDev) :
    mateOf kbds (imus ++ [i]) k = (mateOf kbds imus k).or
      (if carriesMac i k || leftover kbds imus i then some i else none) :=
  mateAfter_concat kbds [] imus k i

/-- An IMU with the MAC of a keyboard gives it a mate. -/
theorem mateAfter_isSome_of_carriesMac (h : i ∈ imus) (hk : carriesMac i k) :
    (mateAfter kbds k seen imus).isSome := by
  induction imus generalizing seen with
  | nil => cases h
  | cons j imus ih =>
    rw [mateAfter]
    split_ifs with hj
    · rfl
    · rcases List.mem_cons.mp h with rfl | h
      · simp [hk] at hj
      · exact ih h

/-- A mate is one of the IMUs, and has the MAC or is left over, and then every keyboard has a
mate. -/
theorem mateAfter_eq_some (h : mateAfter kbds k seen imus = some i) :
    i ∈ imus ∧ (carriesMac i k ∨ ∀ k', (mateAfter kbds k' seen imus).isSome) := by
  induction imus generalizing seen with
  | nil => cases h
  | cons j imus ih =>
    rw [mateAfter] at h
    split_ifs at h with hj
    · obtain rfl : j = i := by simpa using h
      refine ⟨List.mem_cons_self, (Bool.or_eq_true_iff.mp hj).imp_right fun hl k' => ?_⟩
      simp [mateAfter, hl]
    · obtain ⟨hi, hcases⟩ := ih h
      refine ⟨List.mem_cons_of_mem _ hi, hcases.imp_right fun hall k' => ?_⟩
      rw [mateAfter]
      split_ifs
      · rfl
      · exact hall k'

/-- Setting the only place where a predicate holds. -/
theorem set_eq_map_of_filter_zipIdx {α : Type*} {p : α → Bool} {l : List α} {x : α} {k n : ℕ}
    (h : ((l.zipIdx n).filter fun q => p q.1) = [(x, k)]) (f : α → α) :
    l.set (k - n) (f x) = l.map fun y => if p y then f y else y := by
  have hall : l.filter p = [x] := by rw [← map_fst_filter_zipIdx p l n, h]; rfl
  obtain ⟨l₁, l₂, rfl, rfl, hx⟩ := eq_append_of_filter_zipIdx h
  rw [List.filter_append, List.filter_cons_of_pos hx] at hall
  have hlen := congrArg List.length hall
  rw [List.length_append, List.length_cons, List.length_singleton] at hlen
  have hkeep {l : List α} (hl : (l.filter p).length = 0) :
      l.map (fun y => if p y then f y else y) = l := by
    refine (List.map_congr_left fun y hy => ?_).trans (List.map_id l)
    have := List.filter_eq_nil_iff.mp (List.length_eq_zero_iff.mp hl) y hy
    simp [this]
  rw [List.map_append, List.map_cons, hkeep (by omega), hkeep (by omega), if_pos hx,
    Nat.add_sub_cancel_left]
  simp

/-- What the loop body leaves, slot by slot. -/
theorem pairImu_eq_map (h : pairImu slots imu = .ok out) :
    (hits slots imu ≠ [] ∧ out = slots.map fun s =>
      if s.matchesMac imu && s.imu.isNone then s.pair imu else s) ∨
    (hits slots imu = [] ∧ out = slots.map fun s => if s.imu.isNone then s.pair imu else s) := by
  rcases hits_cases slots imu with ⟨s, h1⟩ | h2 | ⟨h0, ⟨s, f1⟩ | f0 | f2⟩
  · obtain ⟨⟨_, k⟩, hk, rfl⟩ := List.map_eq_singleton_iff.mp ((map_fst_hits slots imu).trans h1)
    refine .inl ⟨by simp [h1], ?_⟩
    rw [← set_eq_map_of_filter_zipIdx (p := fun s => s.matchesMac imu && s.imu.isNone) hk
      (Slot.pair imu)]
    simpa [pairImu, List.filter_filter, hk, eq_comm] using h
  · obtain ⟨e, he⟩ := pairImu_of_hits h2
    cases h.symm.trans he
  · obtain ⟨⟨_, k⟩, hk, rfl⟩ := List.map_eq_singleton_iff.mp ((map_fst_freeSlots slots).trans f1)
    refine .inr ⟨h0, ?_⟩
    rw [← set_eq_map_of_filter_zipIdx (p := fun s => s.imu.isNone) hk (Slot.pair imu)]
    simp only [pairImu, List.filter_filter, zipIdx_filter_of_hits_nil h0] at h
    simpa [hk, eq_comm] using h
  · refine .inr ⟨h0, ?_⟩
    rw [pairImu_of_spare f0, Except.ok.injEq] at h
    have hnone : ∀ s ∈ slots, ¬ s.imu.isNone := List.filter_eq_nil_iff.mp f0
    rw [← h]
    exact ((List.map_congr_left fun s hs => by simp [hnone s hs]).trans (List.map_id slots)).symm
  · obtain ⟨e, he⟩ := pairImu_of_candidates h0 f2
    cases h.symm.trans he

/-- The step: one more IMU leaves the keyboards with their mates. -/
theorem pairImu_matedSlots (h : pairImu (matedSlots kbds seen) imu = .ok out) :
    out = matedSlots kbds (seen ++ [imu]) := by
  have hmates (f : PairingInputDev → Slot)
      (hf : ∀ k ∈ kbds, f k = ⟨k, (mateOf kbds seen k).or
        (if carriesMac imu k || leftover kbds seen imu then some imu else none)⟩) :
      kbds.map f = matedSlots kbds (seen ++ [imu]) :=
    List.map_congr_left fun k hk => by rw [hf k hk, mateOf_concat]
  rcases pairImu_eq_map h with ⟨hhit, rfl⟩ | ⟨hhit, rfl⟩
  · -- the keyboard that is hit is free, so no earlier IMU has its MAC
    have hnot : leftover kbds seen imu = false := by
      obtain ⟨s, hs⟩ := List.exists_mem_of_ne_nil _ hhit
      obtain ⟨hmem, hmate, hnone⟩ := mem_hits.mp hs
      obtain ⟨k, hk, rfl⟩ := List.mem_map.mp hmem
      have hkbd : macKeyboards kbds imu ≠ [] :=
        List.ne_nil_of_mem (List.mem_filter.mpr ⟨hk, hmate⟩)
      have hseen : ∀ i ∈ seen, uniqEq i.uniq imu.uniq = false := by
        intro i hi
        by_contra hsame
        have hik : carriesMac i k :=
          (carriesMac_congr (Bool.eq_true_of_not_eq_false hsame) k).trans hmate
        have : (mateAfter kbds k [] seen).isSome := mateAfter_isSome_of_carriesMac hi hik
        simp only [mateOf] at hnone
        simp [hnone] at this
      simpa [leftover, hkbd] using hseen
    rw [matedSlots, List.map_map]
    refine hmates _ fun k _ => ?_
    cases hm : mateOf kbds seen k <;> cases hc : carriesMac imu k <;>
      simp_all [Slot.pair, Slot.matchesMac, carriesMac]
  -- no keyboard with the MAC is free, so the IMU goes to whatever keyboard is left
  · have hall : leftover kbds seen imu = false → ∀ k ∈ kbds, (mateOf kbds seen k).isSome := by
      intro hnot
      simp only [leftover, Bool.or_eq_false_iff, decide_eq_false_iff_not, List.any_eq_false] at hnot
      obtain ⟨hkbd, hseen⟩ := hnot
      obtain ⟨k₀, hk₀⟩ := List.exists_mem_of_ne_nil _ hkbd
      obtain ⟨hmem, hmate⟩ := List.mem_filter.mp hk₀
      cases hm : mateOf kbds seen k₀ with
      | none =>
        have hslot : (⟨k₀, none⟩ : Slot) ∈ matedSlots kbds seen :=
          List.mem_map.mpr ⟨k₀, hmem, by rw [hm]⟩
        have := mem_hits.mpr ⟨hslot, hmate, rfl⟩
        simp [hhit] at this
      -- the keyboard with the MAC has its IMU already
      | some i =>
        obtain ⟨hi, hcarries | hall⟩ := mateAfter_eq_some hm
        · have h₁ := (Bool.and_eq_true_iff.mp hcarries).2
          have h₂ := (Bool.and_eq_true_iff.mp hmate).2
          rw [uniqEq_comm] at h₂
          exact absurd (uniqEq_trans h₁ h₂) (hseen i hi)
        · exact fun k _ => hall k
    rw [matedSlots, List.map_map]
    refine hmates _ fun k hk => ?_
    cases hm : mateOf kbds seen k with
    | some i => simp [hm]
    | none =>
      have hleft : leftover kbds seen imu = true := by
        by_contra hnot
        simpa [hm] using hall (Bool.eq_false_of_not_eq_true hnot) k hk
      simp [Slot.pair, hleft, hm]

/-- A run that succeeds gives every keyboard its mate. -/
theorem pairRun_eq_mates (h : pairRun kbds imus = .ok out) : out = matedSlots kbds imus := by
  have hrun (imus seen : List PairingInputDev)
      (h : imus.foldlM pairImu (matedSlots kbds seen) = .ok out) :
      out = matedSlots kbds (seen ++ imus) := by
    induction imus generalizing seen with
    | nil =>
      rw [List.append_nil]
      simpa [pure, Except.pure, eq_comm] using h
    | cons i imus ih =>
      obtain ⟨mid, hstep, hrest⟩ := foldlM_cons_eq_ok h
      rw [pairImu_matedSlots hstep] at hrest
      simpa using ih (seen ++ [i]) hrest
  exact hrun imus [] h

end Pairing
