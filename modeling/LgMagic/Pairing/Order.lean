import LgMagic.Pairing.Run

/-!
# Pairing and the order of the devices

An IMU with a MAC takes the keyboard of that MAC, every other one the keyboard that is left alone at
that moment. Which one is left alone depends on who came before.

* `IndependentOfOrder`: what the pairing of some devices is to be, in any order of them;
* `OrderSettled`: the devices for which it is;
* `independentOfOrder_iff`: the pairing is independent of the order exactly for settled devices.
-/

namespace Pairing

open CString Printf

/-! ## What is to hold -/

/-- The devices are paired in the same way in every order, and an IMU that alone carries the MAC of
one keyboard is never displaced. -/
structure IndependentOfOrder (devs : List PairingInputDev) (outsz : ℕ) : Prop where
  permuted : ∀ devs', devs.Perm devs' →
    SameUpToOrder (pairingMatch devs outsz) (pairingMatch devs' outsz)
  exact : ∀ out, pairingMatch devs outsz = .ok out → ∀ imu k,
    (devs.filter pairingIsImu).filter (fun i => uniqEq i.uniq imu.uniq) = [imu] →
    macKeyboards (devs.filter pairingIsKeyboard) imu = [k] →
    ∃ r ∈ out, r.keyboard = k ∧ r.imu = some imu

/-- The keyboards whose MAC no IMU has. -/
def unclaimed (kbds imus : List PairingInputDev) : List PairingInputDev :=
  kbds.filter fun k => !imus.any (carriesMac · k)

/-- Some keyboards and IMUs that leave nothing to the order: there is no keyboard, there is one IMU
only, the MAC of an IMU is that of several keyboards, several keyboards are without a mate, or each
IMU has a MAC of its own that a keyboard has. -/
def Settled (kbds imus : List PairingInputDev) : Prop :=
  kbds = [] ∨ (∀ i ∈ imus, ∀ j ∈ imus, i = j) ∨
    (∃ i ∈ imus, 2 ≤ (macKeyboards kbds i).length) ∨ 2 ≤ (unclaimed kbds imus).length ∨
    (imus.Pairwise (fun i j => uniqEq i.uniq j.uniq = false) ∧ ∀ i ∈ imus, macKeyboards kbds i ≠ [])

/-- The condition on the devices. -/
def OrderSettled (devs : List PairingInputDev) : Prop :=
  Settled (devs.filter pairingIsKeyboard) (devs.filter pairingIsImu)

instance (kbds imus : List PairingInputDev) : Decidable (Settled kbds imus) := by
  unfold Settled
  infer_instance

instance (devs : List PairingInputDev) : Decidable (OrderSettled devs) :=
  inferInstanceAs (Decidable (Settled _ _))

/-! ## Settled devices -/

variable {kbds imus imus' : List PairingInputDev} {slots slots' out : List Slot} {s : Slot}

theorem pairRun_eq_slotsOf (hmac : imus.Pairwise fun i j => uniqEq i.uniq j.uniq = false)
    (hone : ∀ i ∈ imus, ∃ k, macKeyboards kbds i = [k]) :
    pairRun kbds imus = .ok (slotsOf kbds imus) :=
  foldlM_slotsOf [] hone (by simpa using hmac)

theorem pairRun_error_of_macs {i : PairingInputDev} (hi : i ∈ imus)
    (h : 2 ≤ (macKeyboards kbds i).length) : ∃ e, pairRun kbds imus = .error e := by
  refine foldlM_error_of_hits hi ?_
  rw [hits_fresh]
  simpa [fresh] using h

theorem exists_singleton {α : Type*} {l : List α} (h : l ≠ []) (hle : l.length < 2) :
    ∃ a, l = [a] := by
  match l, h, hle with
  | [a], _, _ => exact ⟨a, rfl⟩

instance : Std.Symm fun i j : PairingInputDev => uniqEq i.uniq j.uniq = false :=
  ⟨fun i j h => by rwa [uniqEq_comm]⟩

/-- IMUs with MACs of their own find the same keyboards in any order. -/
theorem slotsOf_perm (kbds : List PairingInputDev) (h : imus.Perm imus')
    (hmac : imus.Pairwise fun i j => uniqEq i.uniq j.uniq = false) :
    slotsOf kbds imus = slotsOf kbds imus' := by
  refine List.map_congr_left fun k _ => ?_
  congr 1
  have hunique : ∀ i ∈ imus, ∀ j ∈ imus, uniqEq i.uniq k.uniq → uniqEq j.uniq k.uniq → i = j := by
    intro i hi j hj hik hjk
    by_contra hne
    rw [uniqEq_comm] at hjk
    exact absurd (uniqEq_trans hik hjk) (by simp [hmac.forall hi hj hne])
  cases hfind : imus.find? fun i => uniqEq i.uniq k.uniq with
  | none =>
    rw [eq_comm, List.find?_eq_none]
    exact fun i hi => List.find?_eq_none.mp hfind i (h.mem_iff.mpr hi)
  | some i =>
    cases hfind' : imus'.find? fun i => uniqEq i.uniq k.uniq with
    | none =>
      have hi := h.mem_iff.mp (List.mem_of_find?_eq_some hfind)
      exact absurd (List.find?_some hfind) (List.find?_eq_none.mp hfind' i hi)
    | some j =>
      have hik := List.find?_some hfind
      have hjk := List.find?_some hfind'
      rw [hunique i (List.mem_of_find?_eq_some hfind) j
        (h.mem_iff.mpr (List.mem_of_find?_eq_some hfind')) hik hjk]

theorem eq_of_perm_of_forall_eq {α : Type*} {l l' : List α} (h : l.Perm l')
    (hall : ∀ a ∈ l, ∀ b ∈ l, a = b) : l = l' := by
  cases l with
  | nil => exact (List.nil_perm.mp h).symm
  | cons a l =>
    have hrep : a :: l = List.replicate (l.length + 1) a :=
      List.eq_replicate_of_mem fun b hb => hall b hb a List.mem_cons_self
    rw [hrep] at h ⊢
    exact (List.perm_replicate.mp h.symm).symm

/-- The keyboards that no IMU claims are left alone by the matches. -/
theorem exact_of_unclaimed (h : 2 ≤ (unclaimed kbds imus).length)
    (hrun : ∃ out, pairRun kbds imus = .ok out) :
    imus.Pairwise (fun i j => uniqEq i.uniq j.uniq = false) ∧
      ∀ i ∈ imus, macKeyboards kbds i ≠ [] := by
  obtain ⟨out, hrun⟩ := hrun
  have hslots : ((fresh kbds).filter fun s => s.imu.isNone && !imus.any (s.matchesMac ·)) =
      fresh (unclaimed kbds imus) := by
    simp only [fresh, unclaimed, List.filter_map]
    congr 1
  have hlen : (fresh (unclaimed kbds imus)).length = (unclaimed kbds imus).length := by
    simp [fresh]
  obtain ⟨hmac, hmates⟩ := exact_of_foldlM_ok (by rwa [hslots, hlen]) hrun
  refine ⟨hmac, fun i hi => ?_⟩
  have := hmates i hi
  rw [hits_fresh] at this
  simpa [fresh] using this

/-- Settled devices are paired in the same way in every order of the IMUs. -/
theorem sameUpToOrder_of_settled (h : Settled kbds imus) (hperm : imus.Perm imus') :
    SameUpToOrder (pairRun kbds imus) (pairRun kbds imus') := by
  have herror (he : ∃ e, pairRun kbds imus = .error e) (he' : ∃ e, pairRun kbds imus' = .error e) :
      SameUpToOrder (pairRun kbds imus) (pairRun kbds imus') := by
    obtain ⟨e, he⟩ := he
    obtain ⟨e', he'⟩ := he'
    rw [he, he']
    trivial
  -- a MAC on two keyboards is an error in every order
  by_cases hmacs : ∃ i ∈ imus, 2 ≤ (macKeyboards kbds i).length
  · obtain ⟨i, hi, hk⟩ := hmacs
    exact herror (pairRun_error_of_macs hi hk) (pairRun_error_of_macs (hperm.mem_iff.mp hi) hk)
  -- with a MAC of its own on every IMU the result is the table of the MACs, which has no order
  have hexact (hmac : imus.Pairwise fun i j => uniqEq i.uniq j.uniq = false)
      (hmates : ∀ i ∈ imus, macKeyboards kbds i ≠ []) :
      SameUpToOrder (pairRun kbds imus) (pairRun kbds imus') := by
    have hone : ∀ i ∈ imus, ∃ k, macKeyboards kbds i = [k] := fun i hi =>
      exists_singleton (hmates i hi) (by
        by_contra hlt
        exact hmacs ⟨i, hi, by omega⟩)
    have hmac' : imus'.Pairwise fun i j => uniqEq i.uniq j.uniq = false :=
      hperm.pairwise hmac fun {i j} h => by rwa [uniqEq_comm]
    rw [pairRun_eq_slotsOf hmac hone, slotsOf_perm kbds hperm hmac,
      pairRun_eq_slotsOf hmac' fun i hi => hone i (hperm.mem_iff.mpr hi)]
    exact .refl _
  rcases h with rfl | hall | hmacs' | hun | ⟨hmac, hmates⟩
  · have hnil (l : List PairingInputDev) : pairRun [] l = .ok [] := by
      induction l with
      | nil => rfl
      | cons i l ih => exact ih
    rw [hnil, hnil]
    exact .refl _
  · rw [eq_of_perm_of_forall_eq hperm hall]
    exact .refl _
  · exact absurd hmacs' hmacs
  · have hun' : 2 ≤ (unclaimed kbds imus').length := by
      have : unclaimed kbds imus' = unclaimed kbds imus := by
        refine List.filter_congr fun k _ => ?_
        rw [hperm.any_eq]
      rwa [this]
    -- with two keyboards left over a run that succeeds had no IMU for them
    by_cases hok : ∃ out, pairRun kbds imus = .ok out
    · obtain ⟨hmac, hmates⟩ := exact_of_unclaimed hun hok
      exact hexact hmac hmates
    by_cases hok' : ∃ out, pairRun kbds imus' = .ok out
    · obtain ⟨hmac, hmates⟩ := exact_of_unclaimed hun' hok'
      exact hexact (hperm.symm.pairwise hmac fun {i j} h => by rwa [uniqEq_comm])
        fun i hi => hmates i (hperm.mem_iff.mp hi)
    · have hnot {r : Except Bytes (List Slot)} (h : ¬ ∃ out, r = .ok out) : ∃ e, r = .error e := by
        match r, h with
        | .ok out, h => exact absurd ⟨out, rfl⟩ h
        | .error e, _ => exact ⟨e, rfl⟩
      exact herror (hnot hok) (hnot hok')
  · exact hexact hmac hmates

/-! ## Unsettled devices -/

/-- The first IMU takes the one keyboard of its MAC. -/
theorem mem_of_pairRun_hit {i k : PairingInputDev} {imus : List PairingInputDev}
    (hk : macKeyboards kbds i = [k]) (hrun : pairRun kbds (i :: imus) = .ok out) :
    ⟨k, some i⟩ ∈ out := by
  obtain ⟨mid, hstep, hrun⟩ := foldlM_cons_eq_ok hrun
  obtain ⟨mid', hp, ho⟩ := pairImu_of_hit (s := ⟨k, none⟩) (by rw [hits_fresh, hk]; rfl)
  obtain rfl : mid = mid' := by simpa [hstep] using hp
  exact mem_of_foldlM hrun (ho.mem_iff.mpr List.mem_cons_self) (by simp)

/-- The first IMU takes a keyboard that is alone. -/
theorem mem_of_pairRun_sole {i k : PairingInputDev} {imus : List PairingInputDev}
    (hrun : pairRun [k] (i :: imus) = .ok out) : ⟨k, some i⟩ ∈ out := by
  by_cases hk : macKeyboards [k] i = []
  · obtain ⟨mid, hstep, hrun⟩ := foldlM_cons_eq_ok hrun
    have hnone : hits (fresh [k]) i = [] := by rw [hits_fresh, hk]; rfl
    obtain ⟨mid', hp, ho⟩ := pairImu_of_sole (s := ⟨k, none⟩) hnone (freeSlots_fresh [k])
    obtain rfl : mid = mid' := by simpa [hstep] using hp
    exact mem_of_foldlM hrun (ho.mem_iff.mpr List.mem_cons_self) (by simp)
  · refine mem_of_pairRun_hit ?_ hrun
    simpa [macKeyboards, List.filter_cons] using hk

/-- The first IMU is ambiguous when no keyboard has its MAC and there are several. -/
theorem pairRun_error_of_no_mac {i : PairingInputDev} (imus : List PairingInputDev)
    (h₀ : macKeyboards kbds i = []) (h : 2 ≤ kbds.length) :
    ∃ e, pairRun kbds (i :: imus) = .error e := by
  have hnone : hits (fresh kbds) i = [] := by rw [hits_fresh, h₀]; rfl
  obtain ⟨e, he⟩ := pairImu_of_candidates hnone (by rw [freeSlots_fresh]; simpa [fresh] using h)
  exact ⟨e, by simp [pairRun, List.foldlM_cons, he, bind, Except.bind]⟩

/-- After an IMU with a MAC of its own another one with this MAC takes a foreign keyboard. -/
theorem mem_of_pairRun_twice {i j k : PairingInputDev} {imus : List PairingInputDev}
    (hk : macKeyboards kbds i = [k]) (hij : uniqEq i.uniq j.uniq) (h : 2 ≤ kbds.length)
    (hrun : pairRun kbds (i :: j :: imus) = .ok out) :
    ∃ k', kbds.Perm [k, k'] ∧ carriesMac j k' = false ∧ ⟨k', some j⟩ ∈ out := by
  obtain ⟨mid, hstep, hrun⟩ := foldlM_cons_eq_ok hrun
  obtain ⟨mid', hp, ho⟩ := pairImu_of_hit (s := ⟨k, none⟩) (by rw [hits_fresh, hk]; rfl)
  obtain rfl : mid = mid' := by simpa [hstep] using hp
  have hmem : k ∈ kbds := (List.mem_filter.mp (hk ▸ List.mem_singleton_self k)).1
  have hslot : (⟨k, none⟩ : Slot) ∈ fresh kbds := List.mem_map_of_mem hmem
  have hkj : macKeyboards kbds j = [k] := by
    rw [← hk]
    exact List.filter_congr fun k' _ => (carriesMac_congr hij k').symm
  -- the keyboard of the MAC is taken now
  have hhits : hits mid j = [] := by
    have := (hits_of_taken hslot ho rfl j).length_eq
    have hmj : k ∈ macKeyboards kbds j := hkj ▸ List.mem_singleton_self k
    have hm : Slot.matchesMac j ⟨k, none⟩ = true := (List.mem_filter.mp hmj).2
    rw [hits_fresh, hkj, hm] at this
    simpa [fresh] using this
  have hfree := freeSlots_of_taken hslot ho rfl
  rw [freeSlots_fresh] at hfree
  obtain ⟨mid₂, hstep₂, hrun⟩ := foldlM_cons_eq_ok hrun
  obtain ⟨s, hs⟩ : ∃ s, freeSlots mid = [s] := by
    refine exists_singleton (fun h0 => ?_) ?_
    · have := hfree.length_eq
      simp [h0, fresh] at this
      omega
    · by_contra hlt
      obtain ⟨e, he⟩ := pairImu_of_candidates hhits (by omega)
      cases hstep₂.symm.trans he
  obtain ⟨mid₂', hp₂, ho₂⟩ := pairImu_of_sole hhits hs
  obtain rfl : mid₂ = mid₂' := by simpa [hstep₂] using hp₂
  have hsnone : s.imu = none := (mem_freeSlots.mp (hs ▸ List.mem_singleton_self s)).2
  refine ⟨s.keyboard, ?_, ?_, mem_of_foldlM hrun
    (show s.pair j ∈ mid₂ from ho₂.mem_iff.mpr List.mem_cons_self) (by simp)⟩
  · rw [hs] at hfree
    have := hfree.map Slot.keyboard
    simpa [fresh, Function.comp_def] using this
  · by_contra hm
    have : s ∈ hits mid j := by
      rw [hits_eq_filter_freeSlots, hs]
      simpa [Slot.matchesMac, carriesMac] using hm
    simp [hhits] at this

/-- Keyboards that are not told apart are without a mate, or ambiguous. -/
theorem pairwise_of_unsettled (hmacs : ∀ i ∈ imus, (macKeyboards kbds i).length < 2)
    (hun : (unclaimed kbds imus).length < 2) :
    kbds.Pairwise fun a b => uniqEq a.uniq b.uniq = false := by
  refine List.pairwise_iff_forall_sublist.mpr fun {a b} hab => ?_
  by_contra hsame
  have hsame := Bool.eq_true_of_not_eq_false hsame
  have hboth (i : PairingInputDev) : carriesMac i a = carriesMac i b := by
    have hmatch : uniqEq i.uniq a.uniq = uniqEq i.uniq b.uniq := by
      rw [Bool.eq_iff_iff]
      refine ⟨fun h => uniqEq_trans h hsame, fun h => uniqEq_trans h ?_⟩
      rwa [uniqEq_comm]
    rw [carriesMac, carriesMac, hmatch]
  by_cases hclaim : ∃ i ∈ imus, carriesMac i a
  · obtain ⟨i, hi, ha⟩ := hclaim
    have := (hab.filter (carriesMac i)).length_le
    have hlt := hmacs i hi
    simp only [macKeyboards, List.filter_cons, ha, ← hboth i, if_true, List.filter_nil,
      List.length_cons, List.length_nil] at this hlt
    omega
  · have hnone : imus.any (carriesMac · a) = false := by simpa using hclaim
    have hnone' : imus.any (carriesMac · b) = false := by simpa [← hboth] using hclaim
    have := (hab.filter fun k => !imus.any (carriesMac · k)).length_le
    simp only [unclaimed, List.filter_cons, hnone, hnone', Bool.not_false, if_true,
      List.filter_nil, List.length_cons, List.length_nil] at this hun
    omega

/-- The keyboard of an entry determines the IMU. -/
theorem imu_unique {k i j : PairingInputDev} (hkbd : out.map (·.keyboard) = kbds)
    (hdistinct : kbds.Pairwise fun a b => uniqEq a.uniq b.uniq = false)
    (hi : ⟨k, some i⟩ ∈ out) (hj : ⟨k, some j⟩ ∈ out) : i = j := by
  have hinj : ∀ s ∈ out, ∀ t ∈ out, s ≠ t → uniqEq s.keyboard.uniq t.keyboard.uniq = false := by
    rw [← hkbd, List.pairwise_map] at hdistinct
    have : Std.Symm fun s t : Slot => uniqEq s.keyboard.uniq t.keyboard.uniq = false :=
      ⟨fun s t h => by rwa [uniqEq_comm]⟩
    exact fun s hs t ht => hdistinct.forall hs ht
  by_contra hne
  have := hinj _ hi _ hj (by simpa using hne)
  simp at this

theorem pairRun_keyboard (h : pairRun kbds imus = .ok out) : out.map (·.keyboard) = kbds := by
  rw [(foldlM_pairImu h).1]
  simp [fresh, Function.comp_def]

/-- Some IMUs in front have the MACs of all that find a keyboard, each MAC once. -/
theorem exists_perm_first (kbds imus : List PairingInputDev) : ∃ first rest,
    imus.Perm (first ++ rest) ∧ first.Pairwise (fun i j => uniqEq i.uniq j.uniq = false) ∧
      (∀ i ∈ first, macKeyboards kbds i ≠ []) ∧
      ∀ i ∈ imus, macKeyboards kbds i ≠ [] → ∃ j ∈ first, uniqEq i.uniq j.uniq := by
  let claiming := imus.filter fun i => macKeyboards kbds i ≠ []
  let first := claiming.pwFilter fun i j => uniqEq i.uniq j.uniq = false
  have hsub : first.Sublist claiming := List.pwFilter_sublist _
  obtain ⟨rest, hperm⟩ := (hsub.trans List.filter_sublist).exists_perm_append
  refine ⟨first, rest, hperm, List.pairwise_pwFilter _, fun i hi => ?_, fun i hi hk => ?_⟩
  · exact of_decide_eq_true (List.mem_filter.mp (hsub.subset hi)).2
  · by_contra hnone
    have hall : ∀ j ∈ claiming, uniqEq i.uniq j.uniq = false := by
      refine (List.forall_mem_pwFilter (R := fun i j : PairingInputDev =>
        uniqEq i.uniq j.uniq = false) (fun {x y z} hxz => ?_) i claiming).mp fun j hj => ?_
      · -- what differs from one MAC differs from the first or the second of two others
        by_contra h
        rw [not_or, Bool.not_eq_false, Bool.not_eq_false] at h
        exact absurd (uniqEq_trans h.1 h.2) (by simp [hxz])
      · exact Bool.eq_false_of_not_eq_true fun h => hnone ⟨j, hj, h⟩
    exact absurd (hall i (List.mem_filter.mpr ⟨hi, decide_eq_true hk⟩)) (by simp)

/-- With the IMUs of the matches in front the run goes through. -/
theorem exists_perm_pairRun_ok (hdistinct : kbds.Pairwise fun a b => uniqEq a.uniq b.uniq = false)
    (hun : (unclaimed kbds imus).length < 2) :
    ∃ imus', imus.Perm imus' ∧ ∃ out, pairRun kbds imus' = .ok out := by
  obtain ⟨first, rest, hperm, hmac, hmates, hcover⟩ := exists_perm_first kbds imus
  refine ⟨first ++ rest, hperm, ?_⟩
  have hfirst : pairRun kbds first = .ok (slotsOf kbds first) := by
    refine pairRun_eq_slotsOf hmac fun i hi => ?_
    obtain ⟨k, hk⟩ := List.exists_mem_of_ne_nil _ (hmates i hi)
    obtain ⟨hmem, hmate⟩ := List.mem_filter.mp hk
    exact ⟨k, macKeyboards_eq_singleton hdistinct hmem hmate⟩
  -- what is free now has no mate at all
  have hleft : ∀ k ∈ kbds, (first.find? fun i => uniqEq i.uniq k.uniq) = none →
      imus.any (carriesMac · k) = false := by
    intro k hk hnone
    by_contra hclaimed
    obtain ⟨i, hi, hmate⟩ : ∃ i ∈ imus, carriesMac i k := by simpa using hclaimed
    obtain ⟨j, hj, hij⟩ := hcover i hi (List.ne_nil_of_mem (List.mem_filter.mpr ⟨hk, hmate⟩))
    have := (Bool.and_eq_true_iff.mp ((carriesMac_congr hij k).symm.trans hmate)).2
    exact List.find?_eq_none.mp hnone j hj this
  have hfree : (freeSlots (slotsOf kbds first)).length ≤ (unclaimed kbds imus).length := by
    rw [freeSlots, slotsOf, List.filter_map, List.length_map, unclaimed,
      ← List.countP_eq_length_filter, ← List.countP_eq_length_filter]
    refine List.countP_mono_left fun k hk hnone => ?_
    simp [hleft k hk (by simpa using hnone)]
  obtain ⟨out, hout⟩ := foldlM_ok_of_freeSlots rest (hfree.trans (Nat.le_of_lt_succ hun))
  refine ⟨out, ?_⟩
  rw [pairRun] at hfirst
  simpa [pairRun, List.foldlM_append, hfirst, bind, Except.bind] using hout

/-- Unsettled IMUs have an order in which they are paired in another way. -/
theorem settled_of_sameUpToOrder
    (h : ∀ imus', imus.Perm imus' → SameUpToOrder (pairRun kbds imus) (pairRun kbds imus')) :
    Settled kbds imus := by
  by_contra hnot
  simp only [Settled, not_or, not_exists, not_and, not_le] at hnot
  obtain ⟨hne, hdiff, hmacs, hun, hexact⟩ := hnot
  obtain ⟨a, ha, b, hb, hab⟩ : ∃ a ∈ imus, ∃ b ∈ imus, a ≠ b := by simpa using hdiff
  have hdistinct := pairwise_of_unsettled hmacs hun
  obtain ⟨good, hgood, out, hout⟩ := exists_perm_pairRun_ok hdistinct hun
  -- one order goes through, so every order does, with the same entries
  have hrun : ∀ imus', imus.Perm imus' → ∃ out', pairRun kbds imus' = .ok out' ∧ out.Perm out' := by
    intro imus' hperm
    have hsame := (h good hgood).symm.trans (h imus' hperm)
    rw [hout] at hsame
    match pairRun kbds imus', hsame with
    | .ok out', hsame => exact ⟨out', rfl, hsame⟩
  have hentry {k i j : PairingInputDev} {l l' : List Slot} (hl : out.Perm l) (hl' : out.Perm l')
      (hi : ⟨k, some i⟩ ∈ l) (hj : ⟨k, some j⟩ ∈ l') : i = j :=
    imu_unique (pairRun_keyboard hout) hdistinct (hl.mem_iff.mpr hi) (hl'.mem_iff.mpr hj)
  have hfirst {i : PairingInputDev} (hi : i ∈ imus) := List.perm_cons_erase hi
  -- two IMUs that each take one keyboard when they are the first
  have hboth {k : PairingInputDev} (htake : ∀ i ∈ imus, ∀ rest out,
      pairRun kbds (i :: rest) = .ok out → ⟨k, some i⟩ ∈ out) : False := by
    obtain ⟨l, hl, hperm⟩ := hrun _ (hfirst ha)
    obtain ⟨l', hl', hperm'⟩ := hrun _ (hfirst hb)
    exact hab (hentry hperm hperm' (htake a ha _ _ hl) (htake b hb _ _ hl'))
  by_cases hone : kbds.length < 2
  · obtain ⟨k, rfl⟩ := exists_singleton hne hone
    exact hboth fun i _ rest out hl => mem_of_pairRun_sole hl
  have hlen : 2 ≤ kbds.length := by omega
  by_cases hno : ∃ i ∈ imus, macKeyboards kbds i = []
  · obtain ⟨i, hi, hk⟩ := hno
    obtain ⟨l, hl, -⟩ := hrun _ (hfirst hi)
    obtain ⟨e, he⟩ := pairRun_error_of_no_mac (imus.erase i) hk hlen
    cases hl.symm.trans he
  have hmates : ∀ i ∈ imus, macKeyboards kbds i ≠ [] := fun i hi hk => hno ⟨i, hi, hk⟩
  -- two IMUs have one MAC, and the second one displaces
  obtain ⟨c, d, hcd, hsame⟩ : ∃ c d, [c, d].Sublist imus ∧ uniqEq c.uniq d.uniq := by
    by_contra hpair
    refine hexact (List.pairwise_iff_forall_sublist.mpr fun {c d} hcd => ?_) hmates
    exact Bool.eq_false_of_not_eq_true fun h => hpair ⟨c, d, hcd, h⟩
  obtain ⟨rest, hperm⟩ := hcd.exists_perm_append
  obtain ⟨l, hl, hpl⟩ := hrun (c :: d :: rest) hperm
  have hc : c ∈ imus := hcd.subset (by simp)
  obtain ⟨k, hk⟩ := exists_singleton (hmates c hc) (hmacs c hc)
  obtain ⟨k', hkbds, hforeign, hd⟩ := mem_of_pairRun_twice hk hsame hlen hl
  have hk' : k' ∈ kbds := hkbds.mem_iff.mpr (by simp)
  by_cases hmate' : ∃ e ∈ imus, carriesMac e k'
  · obtain ⟨e, he, hek⟩ := hmate'
    obtain ⟨l', hl', hpl'⟩ := hrun _ (hfirst he)
    have htaken := mem_of_pairRun_hit (macKeyboards_eq_singleton hdistinct hk' hek) hl'
    rw [hentry hpl hpl' hd htaken, hek] at hforeign
    cases hforeign
  · -- all IMUs have the MAC of the first keyboard
    refine hboth (k := k) fun i hi rest out hl => ?_
    obtain ⟨m, hm⟩ := List.exists_mem_of_ne_nil _ (hmates i hi)
    obtain ⟨hmem, hmate⟩ := List.mem_filter.mp hm
    have hmk : m = k := by
      have : m = k ∨ m = k' := by simpa using hkbds.mem_iff.mp hmem
      exact this.resolve_right fun h => hmate' ⟨i, hi, h ▸ hmate⟩
    exact mem_of_pairRun_hit (macKeyboards_eq_singleton hdistinct (hmk ▸ hmem) (hmk ▸ hmate)) hl

/-! ## The whole function -/

variable {devs devs' : List PairingInputDev} {outsz : ℕ}

theorem Slot.emit_injective : Function.Injective Slot.emit := by
  rintro ⟨k, i⟩ ⟨k', i'⟩ h
  simpa [Slot.emit] using congrArg (fun r : PairedRemote => (r.keyboard, r.imu)) h

/-- With room for every keyboard the result is what the loop leaves. -/
theorem pairingMatch_eq_map (hroom : (devs.filter pairingIsKeyboard).length ≤ outsz) :
    pairingMatch devs outsz =
      (pairRun (devs.filter pairingIsKeyboard) (devs.filter pairingIsImu)).map
        (List.map Slot.emit) := by
  have hmatch : pairingMatch devs outsz =
      (pairRun (devs.filter pairingIsKeyboard) (devs.filter pairingIsImu)).map
        fun slots => (slots.map Slot.emit).take outsz := rfl
  rw [hmatch]
  match hrun : pairRun (devs.filter pairingIsKeyboard) (devs.filter pairingIsImu) with
  | .error e => rfl
  | .ok slots =>
    have hlen := congrArg List.length (pairRun_keyboard hrun)
    rw [List.length_map] at hlen
    exact congrArg Except.ok (List.take_of_length_le (by simpa [hlen] using hroom))

/-- Every order of the IMUs is that of some order of the devices. -/
theorem exists_perm_devs {imus' : List PairingInputDev}
    (h : (devs.filter pairingIsImu).Perm imus') :
    ∃ devs', devs.Perm devs' ∧ devs'.filter pairingIsKeyboard = devs.filter pairingIsKeyboard ∧
      devs'.filter pairingIsImu = imus' := by
  have hne : kbdName ≠ imuName := by decide
  have hexcl : ∀ d, pairingIsImu d → pairingIsKeyboard d = false := by
    intro d hd
    simp only [pairingIsImu, decide_eq_true_eq] at hd
    simp [pairingIsKeyboard, hd, hne.symm]
  have himus' : ∀ d ∈ imus', pairingIsImu d := fun d hd =>
    (List.mem_filter.mp (h.mem_iff.mpr hd)).2
  let others := devs.filter fun d => !pairingIsImu d
  have hothers : others.filter pairingIsImu = [] := by simp [others]
  refine ⟨others ++ imus', ?_, ?_, ?_⟩
  · have := List.filter_append_perm pairingIsImu devs
    exact this.symm.trans ((h.append_right others).trans List.perm_append_comm)
  · have hkbd : imus'.filter pairingIsKeyboard = [] :=
      List.filter_eq_nil_iff.mpr fun d hd => by simp [hexcl d (himus' d hd)]
    rw [List.filter_append, hkbd, List.append_nil, List.filter_filter]
    refine List.filter_congr fun d _ => ?_
    cases himu : pairingIsImu d with
    | true => simp [hexcl d himu]
    | false => simp
  · rw [List.filter_append, hothers, List.nil_append]
    exact List.filter_eq_self.mpr himus'

/-- Only the order of the IMUs can matter. -/
theorem permuted_iff (hroom : (devs.filter pairingIsKeyboard).length ≤ outsz) :
    (∀ devs', devs.Perm devs' →
      SameUpToOrder (pairingMatch devs outsz) (pairingMatch devs' outsz)) ↔
    ∀ imus', (devs.filter pairingIsImu).Perm imus' →
      SameUpToOrder (pairRun (devs.filter pairingIsKeyboard) (devs.filter pairingIsImu))
        (pairRun (devs.filter pairingIsKeyboard) imus') := by
  constructor
  · intro h imus' hperm
    obtain ⟨devs', hdevs, hkbd, himu⟩ := exists_perm_devs hperm
    have := h devs' hdevs
    rw [pairingMatch_eq_map hroom, pairingMatch_eq_map (hkbd ▸ hroom), hkbd, himu] at this
    exact (SameUpToOrder.map_iff Slot.emit_injective).mp this
  · intro h devs' hdevs
    have hkbd := hdevs.filter pairingIsKeyboard
    rw [pairingMatch_eq_map hroom, pairingMatch_eq_map (hkbd.length_eq ▸ hroom)]
    apply (SameUpToOrder.map_iff Slot.emit_injective).mpr
    refine (h _ (hdevs.filter pairingIsImu)).trans ?_
    exact foldlM_pairImu_perm _ (hkbd.map fun k => (⟨k, none⟩ : Slot))

/-- Among settled devices an IMU that alone has the MAC of one keyboard is paired with it. -/
theorem exact_of_settled (h : Settled kbds imus) (hrun : pairRun kbds imus = .ok out)
    {i k : PairingInputDev} (hi : imus.filter (fun j => uniqEq j.uniq i.uniq) = [i])
    (hk : macKeyboards kbds i = [k]) : ⟨k, some i⟩ ∈ out := by
  have himem : i ∈ imus := (List.mem_filter.mp (hi ▸ List.mem_singleton_self i)).1
  -- in the table of the MACs the keyboard finds its IMU, the only one with the MAC
  have hexact (hmac : imus.Pairwise fun i j => uniqEq i.uniq j.uniq = false)
      (hmates : ∀ i ∈ imus, macKeyboards kbds i ≠ []) : ⟨k, some i⟩ ∈ out := by
    have hone : ∀ i ∈ imus, ∃ k, macKeyboards kbds i = [k] := fun j hj =>
      exists_singleton (hmates j hj) (by
        by_contra hlt
        obtain ⟨e, he⟩ := pairRun_error_of_macs hj (Nat.le_of_not_lt hlt)
        cases hrun.symm.trans he)
    rw [pairRun_eq_slotsOf hmac hone, Except.ok.injEq] at hrun
    subst hrun
    obtain ⟨hkmem, hmate⟩ := List.mem_filter.mp (hk ▸ List.mem_singleton_self k)
    refine List.mem_map.mpr ⟨k, hkmem, ?_⟩
    have hmatch := (Bool.and_eq_true_iff.mp hmate).2
    match hfind : imus.find? fun j => uniqEq j.uniq k.uniq with
    | none => exact absurd hmatch (List.find?_eq_none.mp hfind i himem)
    | some j =>
      have hjk := List.find?_some hfind
      rw [uniqEq_comm] at hmatch
      have hji : j ∈ imus.filter fun j => uniqEq j.uniq i.uniq :=
        List.mem_filter.mpr ⟨List.mem_of_find?_eq_some hfind, uniqEq_trans hjk hmatch⟩
      rw [hi, List.mem_singleton] at hji
      rw [hfind, hji]
  -- what a settled input can be: each case but an error has a MAC of its own on every IMU
  rcases h with rfl | hall | ⟨j, hj, hmacs⟩ | hun | ⟨hmac, hmates⟩
  · simp [macKeyboards] at hk
  · have hsingle : imus = [i] := by
      rw [← hi, eq_comm]
      exact List.filter_eq_self.mpr fun j hj => by simp [hall j hj i himem]
    subst hsingle
    exact hexact (List.pairwise_singleton _ _) (by simp [hk])
  · obtain ⟨e, he⟩ := pairRun_error_of_macs hj hmacs
    cases hrun.symm.trans he
  · obtain ⟨hmac, hmates⟩ := exact_of_unclaimed hun ⟨out, hrun⟩
    exact hexact hmac hmates
  · exact hexact hmac hmates

/-- The pairing is independent of the order of the devices exactly when they are settled. -/
theorem independentOfOrder_iff (hroom : (devs.filter pairingIsKeyboard).length ≤ outsz) :
    IndependentOfOrder devs outsz ↔ OrderSettled devs := by
  constructor
  · intro h
    exact settled_of_sameUpToOrder ((permuted_iff hroom).mp h.permuted)
  · intro h
    refine ⟨(permuted_iff hroom).mpr fun imus' hperm => sameUpToOrder_of_settled h hperm, ?_⟩
    intro out hout imu k himu hk
    rw [pairingMatch_eq_map hroom] at hout
    match hrun : pairRun (devs.filter pairingIsKeyboard) (devs.filter pairingIsImu), hout with
    | .ok slots, hout =>
      obtain rfl : slots.map Slot.emit = out := by simpa [Except.map] using hout
      exact ⟨_, List.mem_map_of_mem (exact_of_settled h hrun himu hk), rfl, rfl⟩

/-- Two remotes with MACs. -/
def twoRemotesDevs : List PairingInputDev :=
  [⟨.lit "/dev/input/event3", kbdName, .lit "aa:bb:cc:dd:ee:02", lgVid, lgPid⟩,
    ⟨.lit "/dev/input/event2", imuName, .lit "aa:bb:cc:dd:ee:01", lgVid, lgPid⟩,
    ⟨.lit "/dev/input/event1", kbdName, .lit "aa:bb:cc:dd:ee:01", lgVid, lgPid⟩,
    ⟨.lit "/dev/input/event4", imuName, .lit "AA:BB:CC:DD:EE:02", lgVid, lgPid⟩]

/-- The two remotes are told apart in every order. -/
theorem independentOfOrder_twoRemotes : IndependentOfOrder twoRemotesDevs 4 :=
  (independentOfOrder_iff (by decide)).mpr (by decide)

/-- A remote with a MAC and an IMU without one that is found before the remote's own. -/
def strayImuDevs : List PairingInputDev :=
  [⟨.lit "/dev/input/event1", kbdName, .lit "aa:bb:cc:dd:ee:01", lgVid, lgPid⟩,
    ⟨.lit "/dev/input/event2", imuName, .empty, lgVid, lgPid⟩,
    ⟨.lit "/dev/input/event3", imuName, .lit "aa:bb:cc:dd:ee:01", lgVid, lgPid⟩]

/-- The stray IMU displaces the one with the MAC. -/
theorem strayImu_not_independent : ¬ IndependentOfOrder strayImuDevs 3 := by
  intro h
  obtain ⟨r, hr, -, himu⟩ := h.exact
    [⟨.lit "aa:bb:cc:dd:ee:01", strayImuDevs[0], some strayImuDevs[1]⟩] (by decide)
    strayImuDevs[2] strayImuDevs[0] (by decide) (by decide)
  rw [List.mem_singleton] at hr
  rw [hr] at himu
  exact absurd himu (by decide)

end Pairing
