import LgMagic.Pairing

/-!
# The runs of the pairing loop

`pairing_match` goes through the IMUs once and keeps in `imu_of_kbd` which keyboards are taken. The
loop body only looks at the free keyboards and at those among them that have the MAC of the IMU, so
it can be described without the indices.

* `hits`, `freeSlots` and `hits_cases`: the five cases of the loop body;
* `foldlM_pairImu_perm`: the order of the keyboards never matters;
* `foldlM_ok_of_freeSlots`, `foldlM_error_of_hits`: runs that go through and runs that do not;
* `exact_of_foldlM_ok`: a run with several keyboards left over only ever matches MACs.
-/

namespace Pairing

open CString Printf

/-! ## Results up to order -/

/-- Two results with the same entries up to order, or two errors. -/
def SameUpToOrder {ε α : Type*} : Except ε (List α) → Except ε (List α) → Prop
  | .ok a, .ok b => a.Perm b
  | .error _, .error _ => True
  | _, _ => False

namespace SameUpToOrder

variable {ε α β : Type*} {a b c : Except ε (List α)}

theorem refl (a : Except ε (List α)) : SameUpToOrder a a := by
  cases a with
  | error e => trivial
  | ok l => exact List.Perm.refl l

theorem symm (h : SameUpToOrder a b) : SameUpToOrder b a := by
  match a, b, h with
  | .ok _, .ok _, h => exact List.Perm.symm h
  | .error _, .error _, _ => trivial

theorem trans (hab : SameUpToOrder a b) (hbc : SameUpToOrder b c) : SameUpToOrder a c := by
  match a, b, c, hab, hbc with
  | .ok _, .ok _, .ok _, hab, hbc => exact List.Perm.trans hab hbc
  | .error _, .error _, .error _, _, _ => trivial

/-- A map of the entries that keeps them apart keeps and reflects the relation. -/
theorem map_iff {f : α → β} (hf : f.Injective) :
    SameUpToOrder (a.map (List.map f)) (b.map (List.map f)) ↔ SameUpToOrder a b := by
  match a, b with
  | .ok _, .ok _ => exact List.map_perm_map_iff hf
  | .error _, .error _ => exact Iff.rfl
  | .ok _, .error _ => exact Iff.rfl
  | .error _, .ok _ => exact Iff.rfl

end SameUpToOrder

/-! ## One IMU, up to order -/

/-- The slots without an IMU. -/
def freeSlots (slots : List Slot) : List Slot := slots.filter (·.imu.isNone)

/-- The free slots that an IMU matches. -/
def hits (slots : List Slot) (imu : PairingInputDev) : List Slot :=
  slots.filter fun s => s.matchesMac imu && s.imu.isNone

variable {slots slots' out : List Slot} {imu : PairingInputDev} {s : Slot}

theorem map_fst_hits (slots : List Slot) (imu : PairingInputDev) :
    (slots.zipIdx.filter fun q => q.1.matchesMac imu && q.1.imu.isNone).map Prod.fst =
      hits slots imu :=
  map_fst_filter_zipIdx (fun s => s.matchesMac imu && s.imu.isNone) slots 0

theorem map_fst_freeSlots (slots : List Slot) :
    (slots.zipIdx.filter fun q => q.1.imu.isNone).map Prod.fst = freeSlots slots :=
  map_fst_filter_zipIdx (fun s => s.imu.isNone) slots 0

theorem set_pair_perm {p : Slot → Bool} {k : ℕ}
    (h : (slots.zipIdx.filter fun q => p q.1) = [(s, k)]) :
    (slots.set k (s.pair imu)).Perm (s.pair imu :: slots.erase s) := by
  obtain ⟨l₁, l₂, rfl, rfl, -⟩ := eq_append_of_filter_zipIdx h
  have hset : (l₁ ++ s :: l₂).set (0 + l₁.length) (s.pair imu) = l₁ ++ s.pair imu :: l₂ := by simp
  rw [hset]
  refine List.perm_middle.trans (List.Perm.cons _ ?_)
  exact (List.perm_cons s).mp
    (List.perm_middle.symm.trans (List.perm_cons_erase (by simp)))

theorem exists_cons_cons {α : Type*} {l : List α} (h : 2 ≤ l.length) :
    ∃ a b l', l = a :: b :: l' := by
  match l, h with
  | a :: b :: l', _ => exact ⟨a, b, l', rfl⟩

/-- An IMU with one free keyboard of its MAC takes it. -/
theorem pairImu_of_hit (h : hits slots imu = [s]) :
    ∃ out, pairImu slots imu = .ok out ∧ out.Perm (s.pair imu :: slots.erase s) := by
  obtain ⟨⟨_, k⟩, hk, rfl⟩ := List.map_eq_singleton_iff.mp ((map_fst_hits slots imu).trans h)
  refine ⟨slots.set k _, ?_, set_pair_perm (p := fun s => s.matchesMac imu && s.imu.isNone) hk⟩
  simp [pairImu, List.filter_filter, hk]

/-- An IMU with several free keyboards of its MAC is ambiguous. -/
theorem pairImu_of_hits (h : 2 ≤ (hits slots imu).length) : ∃ e, pairImu slots imu = .error e := by
  rw [← map_fst_hits, List.length_map] at h
  obtain ⟨a, b, l, heq⟩ := exists_cons_cons h
  simp [pairImu, List.filter_filter, heq]

theorem zipIdx_filter_of_hits_nil (h : hits slots imu = []) :
    (slots.zipIdx.filter fun q => q.1.matchesMac imu && q.1.imu.isNone) = [] :=
  List.map_eq_nil_iff.mp ((map_fst_hits slots imu).trans h)

/-- Without a MAC match an IMU takes the sole free keyboard. -/
theorem pairImu_of_sole (h₀ : hits slots imu = []) (h : freeSlots slots = [s]) :
    ∃ out, pairImu slots imu = .ok out ∧ out.Perm (s.pair imu :: slots.erase s) := by
  obtain ⟨⟨_, k⟩, hk, rfl⟩ := List.map_eq_singleton_iff.mp ((map_fst_freeSlots slots).trans h)
  refine ⟨slots.set k _, ?_, set_pair_perm (p := fun s => s.imu.isNone) hk⟩
  simp only [pairImu, List.filter_filter, zipIdx_filter_of_hits_nil h₀]
  simp [hk]

/-- Without a free keyboard an IMU is spare. -/
theorem pairImu_of_spare (h : freeSlots slots = []) : pairImu slots imu = .ok slots := by
  have hfree := List.map_eq_nil_iff.mp ((map_fst_freeSlots slots).trans h)
  simp [pairImu, hfree]

/-- Without a MAC match several free keyboards are ambiguous. -/
theorem pairImu_of_candidates (h₀ : hits slots imu = []) (h : 2 ≤ (freeSlots slots).length) :
    ∃ e, pairImu slots imu = .error e := by
  rw [← map_fst_freeSlots, List.length_map] at h
  obtain ⟨a, b, l, heq⟩ := exists_cons_cons h
  simp only [pairImu, List.filter_filter, zipIdx_filter_of_hits_nil h₀]
  simp [heq]

/-- The cases of the loop body. -/
theorem hits_cases (slots : List Slot) (imu : PairingInputDev) :
    (∃ s, hits slots imu = [s]) ∨ 2 ≤ (hits slots imu).length ∨ hits slots imu = [] ∧
      ((∃ s, freeSlots slots = [s]) ∨ freeSlots slots = [] ∨ 2 ≤ (freeSlots slots).length) := by
  match hits slots imu with
  | [s] => exact .inl ⟨s, rfl⟩
  | _ :: _ :: _ => exact .inr (.inl (by simp))
  | [] =>
    refine .inr (.inr ⟨rfl, ?_⟩)
    match freeSlots slots with
    | [s] => exact .inl ⟨s, rfl⟩
    | [] => exact .inr (.inl rfl)
    | _ :: _ :: _ => exact .inr (.inr (by simp))

/-! ## The order of the keyboards -/

theorem hits_perm (h : slots.Perm slots') (imu : PairingInputDev) :
    (hits slots imu).Perm (hits slots' imu) := h.filter _

theorem freeSlots_perm (h : slots.Perm slots') : (freeSlots slots).Perm (freeSlots slots') :=
  h.filter _

/-- A step does not depend on the order of the slots. -/
theorem pairImu_perm (h : slots.Perm slots') (imu : PairingInputDev) :
    SameUpToOrder (pairImu slots imu) (pairImu slots' imu) := by
  have hh := hits_perm h imu
  have hf := freeSlots_perm h
  have hok {s : Slot}
      (ho : ∃ out, pairImu slots imu = .ok out ∧ out.Perm (s.pair imu :: slots.erase s))
      (ho' : ∃ out, pairImu slots' imu = .ok out ∧ out.Perm (s.pair imu :: slots'.erase s)) :
      SameUpToOrder (pairImu slots imu) (pairImu slots' imu) := by
    obtain ⟨out, hp, ho⟩ := ho
    obtain ⟨out', hp', ho'⟩ := ho'
    rw [hp, hp']
    exact ho.trans (((h.erase s).cons _).trans ho'.symm)
  have herror (he : ∃ e, pairImu slots imu = .error e) (he' : ∃ e, pairImu slots' imu = .error e) :
      SameUpToOrder (pairImu slots imu) (pairImu slots' imu) := by
    obtain ⟨e, he⟩ := he
    obtain ⟨e', he'⟩ := he'
    rw [he, he']
    trivial
  -- both sides are in the same case, for the case is read off the two filters
  rcases hits_cases slots imu with ⟨s, h1⟩ | h2 | ⟨h0, ⟨s, f1⟩ | f0 | f2⟩
  · rw [h1] at hh
    exact hok (pairImu_of_hit h1) (pairImu_of_hit (List.singleton_perm.mp hh).symm)
  · exact herror (pairImu_of_hits h2) (pairImu_of_hits (hh.length_eq ▸ h2))
  all_goals rw [h0, List.nil_perm] at hh
  · rw [f1] at hf
    exact hok (pairImu_of_sole h0 f1) (pairImu_of_sole hh (List.singleton_perm.mp hf).symm)
  · rw [f0, List.nil_perm] at hf
    rw [pairImu_of_spare f0, pairImu_of_spare hf]
    exact h
  · exact herror (pairImu_of_candidates h0 f2) (pairImu_of_candidates hh (hf.length_eq ▸ f2))

/-- The order of the keyboards never matters. -/
theorem foldlM_pairImu_perm (imus : List PairingInputDev) (h : slots.Perm slots') :
    SameUpToOrder (imus.foldlM pairImu slots) (imus.foldlM pairImu slots') := by
  induction imus generalizing slots slots' with
  | nil => exact h
  | cons imu imus ih =>
    have hstep := pairImu_perm h imu
    rw [List.foldlM_cons, List.foldlM_cons]
    match pairImu slots imu, pairImu slots' imu, hstep with
    | .ok _, .ok _, hstep => exact ih hstep
    | .error _, .error _, _ => trivial

/-! ## Slots that are taken -/

/-- Of the slots that have to be free for a property, only the one that is taken loses it. -/
theorem filter_of_taken {p : Slot → Bool} (hp : ∀ t, p t → t.imu.isNone) (hs : s ∈ slots)
    (ho : out.Perm (s.pair imu :: slots.erase s)) :
    (slots.filter p).Perm ((if p s then [s] else []) ++ out.filter p) := by
  have hpair : p (s.pair imu) = false := by
    by_contra h
    simpa [Slot.pair] using hp _ (Bool.eq_true_of_not_eq_false h)
  have hout : (out.filter p).Perm ((slots.erase s).filter p) := by
    simpa [List.filter_cons, hpair] using ho.filter p
  have hslots := (List.perm_cons_erase hs).filter p
  rw [List.filter_cons] at hslots
  split
  · next h => simpa [h] using hslots.trans (by simpa [h] using hout.symm.cons s)
  · next h => simpa [h] using hslots.trans (by simpa [h] using hout.symm)

theorem hits_of_taken (hs : s ∈ slots) (ho : out.Perm (s.pair imu :: slots.erase s))
    (hnone : s.imu = none) (i : PairingInputDev) :
    (hits slots i).Perm ((if s.matchesMac i then [s] else []) ++ hits out i) := by
  have := filter_of_taken (p := fun s => s.matchesMac i && s.imu.isNone) (by simp) hs ho
  simpa [hits, hnone] using this

theorem freeSlots_of_taken (hs : s ∈ slots) (ho : out.Perm (s.pair imu :: slots.erase s))
    (hnone : s.imu = none) : (freeSlots slots).Perm (s :: freeSlots out) := by
  have := filter_of_taken (p := fun s => s.imu.isNone) (by simp) hs ho
  simpa [freeSlots, hnone] using this

theorem hits_eq_filter_freeSlots (slots : List Slot) (imu : PairingInputDev) :
    hits slots imu = (freeSlots slots).filter (·.matchesMac imu) := by
  rw [freeSlots, List.filter_filter, hits]

theorem hits_length_le (slots : List Slot) (imu : PairingInputDev) :
    (hits slots imu).length ≤ (freeSlots slots).length := by
  rw [hits_eq_filter_freeSlots]
  exact List.length_filter_le _ _

theorem mem_hits : s ∈ hits slots imu ↔ s ∈ slots ∧ s.matchesMac imu ∧ s.imu = none := by
  simp [hits]

theorem mem_freeSlots : s ∈ freeSlots slots ↔ s ∈ slots ∧ s.imu = none := by
  simp [freeSlots]

/-- IMUs with one MAC match the same keyboards. -/
theorem carriesMac_congr {i j : PairingInputDev} (h : uniqEq i.uniq j.uniq)
    (k : PairingInputDev) : carriesMac i k = carriesMac j k := by
  have hempty : i.uniq = .empty ↔ j.uniq = .empty := by
    have hlen : i.uniq.val.length = j.uniq.val.length := by
      simpa using congrArg List.length (uniqEq_iff.mp h)
    have hnil (u : CStr) : u = .empty ↔ u.val.length = 0 := by
      rw [List.length_eq_zero_iff, Subtype.ext_iff]
      rfl
    rw [hnil, hnil, hlen]
  have hmatch : uniqEq i.uniq k.uniq = uniqEq j.uniq k.uniq := by
    rw [Bool.eq_iff_iff]
    constructor
    · exact uniqEq_trans (by rwa [uniqEq_comm])
    · exact uniqEq_trans h
  simp [carriesMac, hempty, hmatch]

/-! ## Runs -/

/-- The slots of some keyboards. -/
def fresh (kbds : List PairingInputDev) : List Slot := kbds.map (⟨·, none⟩)

/-- The loop of `pairing_match`. -/
def pairRun (kbds imus : List PairingInputDev) : Except Bytes (List Slot) :=
  imus.foldlM pairImu (fresh kbds)

variable {kbds : List PairingInputDev}

theorem freeSlots_fresh (kbds : List PairingInputDev) : freeSlots (fresh kbds) = fresh kbds := by
  simp [freeSlots, fresh]

theorem hits_fresh (kbds : List PairingInputDev) (imu : PairingInputDev) :
    hits (fresh kbds) imu = fresh (macKeyboards kbds imu) := by
  simp only [hits, fresh, macKeyboards, List.filter_map]
  congr 1
  refine List.filter_congr fun k _ => ?_
  simp [Slot.matchesMac, carriesMac]

theorem foldlM_cons_eq_ok {imus : List PairingInputDev}
    (h : (imu :: imus).foldlM pairImu slots = .ok out) :
    ∃ mid, pairImu slots imu = .ok mid ∧ imus.foldlM pairImu mid = .ok out := by
  rw [List.foldlM_cons] at h
  match hstep : pairImu slots imu, h with
  | .ok mid, h => exact ⟨mid, rfl, h⟩
  | .error e, h => cases h

/-- An entry that is made stays. -/
theorem mem_of_foldlM {imus : List PairingInputDev} (h : imus.foldlM pairImu slots = .ok out)
    (hs : s ∈ slots) (hi : s.imu ≠ none) : s ∈ out := by
  induction imus generalizing slots with
  | nil =>
    obtain rfl : slots = out := by simpa [pure, Except.pure] using h
    exact hs
  | cons imu imus ih =>
    obtain ⟨mid, hstep, hrun⟩ := foldlM_cons_eq_ok h
    apply ih hrun
    rcases pairImu_cases hstep with rfl | ⟨l₁, t, l₂, rfl, ht, rfl⟩
    · exact hs
    · have hne : s ≠ t := fun he => hi (he ▸ ht)
      simp only [List.mem_append, List.mem_cons, hne, false_or] at hs
      simp only [List.mem_append, List.mem_cons]
      exact hs.imp_right .inr

/-- With one free keyboard at most nothing is ambiguous. -/
theorem foldlM_ok_of_freeSlots (imus : List PairingInputDev) (h : (freeSlots slots).length ≤ 1) :
    ∃ out, imus.foldlM pairImu slots = .ok out := by
  induction imus generalizing slots with
  | nil => exact ⟨slots, rfl⟩
  | cons imu imus ih =>
    have hstep : ∃ mid, pairImu slots imu = .ok mid ∧ (freeSlots mid).length ≤ 1 := by
      have htaken {s : Slot} (hs : s ∈ freeSlots slots)
          (ho : ∃ out, pairImu slots imu = .ok out ∧ out.Perm (s.pair imu :: slots.erase s)) :
          ∃ mid, pairImu slots imu = .ok mid ∧ (freeSlots mid).length ≤ 1 := by
        obtain ⟨out, hp, ho⟩ := ho
        have := (freeSlots_of_taken (mem_freeSlots.mp hs).1 ho (mem_freeSlots.mp hs).2).length_eq
        rw [List.length_cons] at this
        exact ⟨out, hp, by omega⟩
      have hle := hits_length_le slots imu
      rcases hits_cases slots imu with ⟨s, h1⟩ | h2 | ⟨h0, ⟨s, f1⟩ | f0 | f2⟩
      · have hs := mem_hits.mp (h1 ▸ List.mem_singleton_self s)
        exact htaken (mem_freeSlots.mpr ⟨hs.1, hs.2.2⟩) (pairImu_of_hit h1)
      · omega
      · exact htaken (f1 ▸ List.mem_singleton_self s) (pairImu_of_sole h0 f1)
      · exact ⟨slots, pairImu_of_spare f0, h⟩
      · omega
    obtain ⟨mid, hmid, hfree⟩ := hstep
    obtain ⟨out, hout⟩ := ih hfree
    exact ⟨out, by simpa [List.foldlM_cons, hmid, bind, Except.bind] using hout⟩

/-- The first IMU of several free keyboards with one MAC is ambiguous, at the latest. -/
theorem foldlM_error_of_hits {i : PairingInputDev} {imus : List PairingInputDev} (hi : i ∈ imus)
    (h : 2 ≤ (hits slots i).length) : ∃ e, imus.foldlM pairImu slots = .error e := by
  induction imus generalizing slots with
  | nil => cases hi
  | cons j imus ih =>
    match hstep : pairImu slots j with
    | .error e => exact ⟨e, by simp [List.foldlM_cons, hstep, bind, Except.bind]⟩
    | .ok mid =>
      have hne : i ≠ j := by
        rintro rfl
        obtain ⟨e, he⟩ := pairImu_of_hits h
        rw [he] at hstep
        cases hstep
      have hmid : 2 ≤ (hits mid i).length := by
        have hle := hits_length_le slots i
        rcases hits_cases slots j with ⟨s, h1⟩ | h2 | ⟨h0, ⟨s, f1⟩ | f0 | f2⟩
        · obtain ⟨out, hp, ho⟩ := pairImu_of_hit h1
          obtain rfl : mid = out := by simpa [hstep] using hp
          have hs := mem_hits.mp (h1 ▸ List.mem_singleton_self s)
          have htaken := (hits_of_taken hs.1 ho hs.2.2 i).length_eq
          -- were the keyboard one of the two, both would be hits of this IMU as well
          have hother : s.matchesMac i = false := by
            by_contra hm
            have hij : uniqEq i.uniq j.uniq := by
              have hmi := (Bool.and_eq_true_iff.mp (Bool.eq_true_of_not_eq_false hm)).2
              have hmj := (Bool.and_eq_true_iff.mp hs.2.1).2
              rw [uniqEq_comm] at hmj
              exact uniqEq_trans hmi hmj
            have hsame : hits slots i = hits slots j := List.filter_congr fun t _ => by
              rw [show t.matchesMac i = t.matchesMac j from carriesMac_congr hij t.keyboard]
            rw [hsame, h1, List.length_singleton] at h
            omega
          simp only [hother] at htaken
          simpa [htaken] using h
        · obtain ⟨e, he⟩ := pairImu_of_hits h2
          rw [he] at hstep
          cases hstep
        · rw [f1, List.length_singleton] at hle
          omega
        · rw [f0, List.length_nil] at hle
          omega
        · obtain ⟨e, he⟩ := pairImu_of_candidates h0 f2
          rw [he] at hstep
          cases hstep
      obtain ⟨e, he⟩ := ih ((List.mem_cons.mp hi).resolve_left hne) hmid
      exact ⟨e, by simpa [List.foldlM_cons, hstep, bind, Except.bind] using he⟩

/-- While two keyboards stay without a mate no IMU is paired by the fallback. -/
theorem exact_of_foldlM_ok {imus : List PairingInputDev}
    (h : 2 ≤ (slots.filter fun s => s.imu.isNone && !imus.any (s.matchesMac ·)).length)
    (hrun : imus.foldlM pairImu slots = .ok out) :
    imus.Pairwise (fun i j => uniqEq i.uniq j.uniq = false) ∧ ∀ i ∈ imus, hits slots i ≠ [] := by
  induction imus generalizing slots with
  | nil => exact ⟨List.Pairwise.nil, by simp⟩
  | cons j imus ih =>
    obtain ⟨mid, hstep, hrun⟩ := foldlM_cons_eq_ok hrun
    have hfree : 2 ≤ (freeSlots slots).length := by
      refine h.trans (List.Sublist.length_le (List.monotone_filter_right slots fun s hs => ?_))
      exact (Bool.and_eq_true_iff.mp hs).1
    -- the fallback would have to choose, so the IMU has a keyboard of its MAC
    obtain ⟨s, h1⟩ : ∃ s, hits slots j = [s] := by
      rcases hits_cases slots j with h1 | h2 | ⟨h0, ⟨s, f1⟩ | f0 | f2⟩
      · exact h1
      · obtain ⟨e, he⟩ := pairImu_of_hits h2
        cases hstep.symm.trans he
      · simp [f1] at hfree
      · simp [f0] at hfree
      · obtain ⟨e, he⟩ := pairImu_of_candidates h0 f2
        cases hstep.symm.trans he
    obtain ⟨out', hp, ho⟩ := pairImu_of_hit h1
    obtain rfl : mid = out' := by simpa [hstep] using hp
    obtain ⟨hmem, hmate, hnone⟩ := mem_hits.mp (h1 ▸ List.mem_singleton_self s)
    have hmid : 2 ≤ (mid.filter fun s => s.imu.isNone && !imus.any (s.matchesMac ·)).length := by
      have htaken := filter_of_taken
        (p := fun s => s.imu.isNone && !(j :: imus).any (s.matchesMac ·))
        (fun t ht => (Bool.and_eq_true_iff.mp ht).1) hmem ho
      simp only [List.any_cons, hmate, Bool.true_or, Bool.not_true, Bool.and_false,
        Bool.false_eq_true, if_false, List.nil_append] at htaken
      refine (htaken.length_eq ▸ h).trans
        (List.Sublist.length_le (List.monotone_filter_right mid fun t ht => ?_))
      simp only [Bool.not_or, Bool.and_eq_true] at ht
      simp only [ht.1, ht.2.2, Bool.and_self]
    obtain ⟨hpair, hmates⟩ := ih hmid hrun
    have hleft := hits_of_taken hmem ho hnone
    refine ⟨List.pairwise_cons.mpr ⟨fun i hi => ?_, hpair⟩, fun i hi => ?_⟩
    · -- another IMU with this MAC would match a second keyboard
      by_contra hij
      obtain ⟨t, ht⟩ := List.exists_mem_of_ne_nil _ (hmates i hi)
      obtain ⟨htmid, htmate, htnone⟩ := mem_hits.mp ht
      have hj : t.matchesMac j = true :=
        (carriesMac_congr (Bool.eq_true_of_not_eq_false hij) t.keyboard).trans htmate
      have := (hleft j).length_eq
      have hpos := List.length_pos_of_mem (mem_hits.mpr ⟨htmid, hj, htnone⟩)
      simp only [h1, hmate, if_true, List.length_append, List.length_singleton] at this
      omega
    · rcases List.mem_cons.mp hi with rfl | hi
      · simp [h1]
      · obtain ⟨t, ht⟩ := List.exists_mem_of_ne_nil _ (hmates i hi)
        exact List.ne_nil_of_mem ((hleft i).mem_iff.mpr (List.mem_append_right _ ht))

end Pairing
