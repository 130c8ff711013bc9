import LgMagic.Lib.Printf

/-!
# Pairing keyboards with their IMUs

The kernel module registers two input devices for a remote, `pairing.c` puts them together again:
by the Bluetooth MAC, and without a MAC only where there is a single candidate.

* `pairingMatch`;
* `pairingMatch_keyboard`: one remote for each keyboard, in the order of the devices;
* `uniq_of_mem_pairingMatch`: where the identities of the remotes come from;
* `pairingMatch_of_macs`: with a MAC on every node each keyboard gets the IMU of its MAC;
* `pairingMatch_ambiguous`: without MACs several keyboards are refused.
-/

namespace Pairing

open CString Printf

/-- An evdev device as the scan sees it. -/
structure PairingInputDev where
  path : CStr
  name : CStr
  /-- The sysfs attribute, empty when absent. -/
  uniq : CStr
  vendor : ℕ
  product : ℕ
  deriving DecidableEq

/-- A keyboard with the IMU that was found for it. -/
structure PairedRemote where
  /-- The MAC, empty when unknown. -/
  uniq : CStr
  keyboard : PairingInputDev
  imu : Option PairingInputDev
  deriving DecidableEq

/-- `LG_VID` -/
def lgVid : ℕ := 0x000f

/-- `LG_PID` -/
def lgPid : ℕ := 0x3412

/-- `KBD_NAME` -/
def kbdName : CStr := .lit "LG Magic Remote"

/-- `IMU_NAME` -/
def imuName : CStr := .lit "LG Magic Remote IMU"

/-- `pairing_is_keyboard` -/
def pairingIsKeyboard (d : PairingInputDev) : Bool :=
  d.name = kbdName && d.vendor = lgVid && d.product = lgPid

/-- `pairing_is_imu` -/
def pairingIsImu (d : PairingInputDev) : Bool := d.name = imuName

/-- The lower case of an ASCII letter. -/
def toLower (c : UInt8) : UInt8 := if 0x41 ≤ c && c ≤ 0x5A then c + 0x20 else c

/-- The loop of `uniq_eq`. -/
def uniqEqBytes : Bytes → Bytes → Bool
  | c :: cs, d :: ds => if toLower c ≠ toLower d then false else uniqEqBytes cs ds
  | [], [] => true
  | _, _ => false

/-- `uniq_eq` -/
def uniqEq (a b : CStr) : Bool := uniqEqBytes a.val b.val

/-- A keyboard and its entry in `imu_of_kbd`. -/
structure Slot where
  keyboard : PairingInputDev
  imu : Option PairingInputDev
  deriving DecidableEq

/-- Whether an IMU carries the MAC of the slot's keyboard. -/
def Slot.matchesMac (imu : PairingInputDev) (s : Slot) : Bool :=
  imu.uniq ≠ .empty && uniqEq imu.uniq s.keyboard.uniq

/-- The slot with an entry for an IMU. -/
def Slot.pair (imu : PairingInputDev) (s : Slot) : Slot := { s with imu := some imu }

/-- The text of the first error: the MAC of the IMU and the number of keyboards with it. -/
def errMac (imu : PairingInputDev) (nmatch : ℕ) : Bytes :=
  ascii "ambiguous IMU pairing: MAC '" ++ imu.uniq.val ++ ascii "' matches " ++ printInt nmatch ++
    ascii " keyboards"

/-- The text of the second error: the number of keyboards that are left. -/
def errCandidates (nfree : ℕ) : Bytes :=
  ascii "ambiguous IMU pairing: " ++ printInt nfree ++ ascii " keyboard candidates, no MAC match"

/-- One IMU of the loop in `pairing_match`. -/
def pairImu (slots : List Slot) (imu : PairingInputDev) : Except Bytes (List Slot) :=
  let free := slots.zipIdx.filter fun (s, _) => s.imu.isNone
  let hits := free.filter fun (s, _) => s.matchesMac imu
  match hits with
  | [(s, k)] => .ok (slots.set k (s.pair imu))
  | _ :: _ :: _ => .error (errMac imu hits.length)
  | [] =>
    -- the fallback: only the sole candidate is no guess
    match free with
    | [(s, k)] => .ok (slots.set k (s.pair imu))
    | [] => .ok slots
    | _ :: _ :: _ => .error (errCandidates free.length)

/-- The remote that a slot is emitted as. -/
def Slot.emit (s : Slot) : PairedRemote where
  uniq := .snprintf 64 <|
    if s.keyboard.uniq = .empty then (s.imu.map (·.uniq)).getD .empty else s.keyboard.uniq
  keyboard := s.keyboard
  imu := s.imu

/-- `pairing_match`; without a keyboard every IMU is spare. -/
def pairingMatch (devs : List PairingInputDev) (outsz : ℕ) : Except Bytes (List PairedRemote) := do
  let slots := (devs.filter pairingIsKeyboard).map (⟨·, none⟩)
  let slots ← (devs.filter pairingIsImu).foldlM pairImu slots
  pure ((slots.map Slot.emit).take outsz)

/-! ## Comparison of MACs -/

theorem uniqEqBytes_iff (a b : Bytes) : uniqEqBytes a b ↔ a.map toLower = b.map toLower := by
  induction a generalizing b with
  | nil => cases b <;> simp [uniqEqBytes]
  | cons c cs ih =>
    cases b with
    | nil => simp [uniqEqBytes]
    | cons d ds =>
      by_cases h : toLower c = toLower d
      · simp [uniqEqBytes, h, ih]
      · simp [uniqEqBytes, h]

/-- MACs are compared up to case. -/
theorem uniqEq_iff {a b : CStr} : uniqEq a b ↔ a.val.map toLower = b.val.map toLower :=
  uniqEqBytes_iff _ _

@[simp]
theorem uniqEq_refl (a : CStr) : uniqEq a a = true := uniqEq_iff.mpr rfl

theorem uniqEq_comm (a b : CStr) : uniqEq a b = uniqEq b a := by
  rw [Bool.eq_iff_iff, uniqEq_iff, uniqEq_iff, eq_comm]

theorem uniqEq_trans {a b c : CStr} (hab : uniqEq a b) (hbc : uniqEq b c) : uniqEq a c :=
  uniqEq_iff.mpr ((uniqEq_iff.mp hab).trans (uniqEq_iff.mp hbc))

/-! ## One IMU -/

theorem map_fst_filter_zipIdx {α : Type*} (p : α → Bool) (l : List α) (n : ℕ) :
    ((l.zipIdx n).filter fun q => p q.1).map Prod.fst = l.filter p := by
  conv_rhs => rw [← List.zipIdx_map_fst n l, List.filter_map]
  rfl

/-- The entry of a list at the only place where a predicate holds. -/
theorem eq_append_of_filter_zipIdx {α : Type*} {p : α → Bool} {l : List α} {x : α} {k n : ℕ}
    (h : ((l.zipIdx n).filter fun q => p q.1) = [(x, k)]) :
    ∃ l₁ l₂, l = l₁ ++ x :: l₂ ∧ k = n + l₁.length ∧ p x = true := by
  induction l generalizing n with
  | nil => simp at h
  | cons y l ih =>
    rw [List.zipIdx_cons, List.filter_cons] at h
    cases hy : p y with
    | true =>
      simp only [hy, if_true, List.cons.injEq, Prod.mk.injEq] at h
      obtain ⟨⟨rfl, rfl⟩, -⟩ := h
      exact ⟨[], l, rfl, rfl, hy⟩
    | false =>
      simp only [hy] at h
      obtain ⟨l₁, l₂, rfl, rfl, hx⟩ := ih h
      exact ⟨y :: l₁, l₂, rfl, by simp only [List.length_cons]; omega, hx⟩

theorem filter_zipIdx_eq_nil {α : Type*} {p : α → Bool} {l : List α} (h : ∀ x ∈ l, p x = false)
    (n : ℕ) : ((l.zipIdx n).filter fun q => p q.1) = [] := by
  rw [← List.map_eq_nil_iff, map_fst_filter_zipIdx, List.filter_eq_nil_iff]
  simpa using h

/-- An IMU leaves the slots as they are or is entered in one free slot. -/
theorem pairImu_cases {slots slots' : List Slot} {imu : PairingInputDev}
    (h : pairImu slots imu = .ok slots') :
    slots' = slots ∨ ∃ l₁ s l₂, slots = l₁ ++ s :: l₂ ∧ s.imu = none ∧
      slots' = l₁ ++ s.pair imu :: l₂ := by
  have hset {p : Slot → Bool} {s : Slot} {k : ℕ} (hp : ∀ s, p s → s.imu.isNone)
      (hk : (slots.zipIdx.filter fun q => p q.1) = [(s, k)]) :
      ∃ l₁ t l₂, slots = l₁ ++ t :: l₂ ∧ t.imu = none ∧
        slots.set k (s.pair imu) = l₁ ++ t.pair imu :: l₂ := by
    obtain ⟨l₁, l₂, rfl, rfl, hs⟩ := eq_append_of_filter_zipIdx hk
    exact ⟨l₁, s, l₂, rfl, by simpa using hp s hs, by simp⟩
  unfold pairImu at h
  simp only [List.filter_filter] at h
  split at h
  · next s k heq =>
    injection h with h
    exact h ▸ .inr (hset (p := fun s => s.matchesMac imu && s.imu.isNone) (by simp) heq)
  · cases h
  · split at h
    · next s k heq =>
      injection h with h
      exact h ▸ .inr (hset (p := fun s => s.imu.isNone) (by simp) heq)
    · injection h with h
      exact .inl h.symm
    · cases h

/-- Entering IMUs keeps the keyboards, and every IMU entered is one of them. -/
theorem foldlM_pairImu {imus : List PairingInputDev} {slots slots' : List Slot}
    (h : imus.foldlM pairImu slots = .ok slots') :
    slots'.map (·.keyboard) = slots.map (·.keyboard) ∧
      ∀ s ∈ slots', ∀ i ∈ s.imu, i ∈ imus ∨ ∃ t ∈ slots, i ∈ t.imu := by
  induction imus generalizing slots with
  | nil =>
    obtain rfl : slots = slots' := by simpa [pure, Except.pure] using h
    exact ⟨rfl, fun s hs i hi => .inr ⟨s, hs, hi⟩⟩
  | cons imu imus ih =>
    rw [List.foldlM_cons] at h
    cases hstep : pairImu slots imu with
    | error e => simp [hstep, bind, Except.bind] at h
    | ok mid =>
      rw [hstep] at h
      obtain ⟨hkbd, himu⟩ := ih h
      -- the IMU was ignored, or one slot got it
      rcases pairImu_cases hstep with rfl | ⟨l₁, s, l₂, rfl, hs, rfl⟩
      · refine ⟨hkbd, fun t ht i hi => ?_⟩
        exact (himu t ht i hi).imp_left (List.mem_cons_of_mem _)
      · refine ⟨hkbd.trans (by simp [Slot.pair]), fun t ht i hi => ?_⟩
        rcases himu t ht i hi with hmem | ⟨u, hu, hi⟩
        · exact .inl (List.mem_cons_of_mem _ hmem)
        rcases List.mem_append.mp hu with hu | hu
        · exact .inr ⟨u, List.mem_append_left _ hu, hi⟩
        rcases List.mem_cons.mp hu with rfl | hu
        · left
          simp only [Slot.pair, Option.mem_some_iff] at hi
          exact hi ▸ List.mem_cons_self
        · exact .inr ⟨u, List.mem_append_right _ (List.mem_cons_of_mem _ hu), hi⟩

/-! ## The result -/

theorem pairingMatch_eq_ok {devs : List PairingInputDev} {outsz : ℕ} {out : List PairedRemote}
    (h : pairingMatch devs outsz = .ok out) : ∃ slots : List Slot,
      slots.map (·.keyboard) = devs.filter pairingIsKeyboard ∧
      (∀ s ∈ slots, ∀ i ∈ s.imu, i ∈ devs.filter pairingIsImu) ∧
      out = (slots.map Slot.emit).take outsz := by
  unfold pairingMatch at h
  simp only [bind, Except.bind] at h
  split at h
  · cases h
  · next slots hslots =>
    obtain ⟨hkbd, himu⟩ := foldlM_pairImu hslots
    refine ⟨slots, by simpa [Function.comp_def] using hkbd, fun s hs i hi => ?_,
      by simpa [pure, Except.pure] using h.symm⟩
    rcases himu s hs i hi with hmem | ⟨t, ht, hi⟩
    · exact hmem
    · obtain ⟨k, -, rfl⟩ := List.mem_map.mp ht
      cases hi

/-- There is one remote for each keyboard, in the order of the devices. -/
theorem pairingMatch_keyboard {devs : List PairingInputDev} {outsz : ℕ} {out : List PairedRemote}
    (h : pairingMatch devs outsz = .ok out) :
    out.map (·.keyboard) = (devs.filter pairingIsKeyboard).take outsz := by
  obtain ⟨slots, hkbd, -, rfl⟩ := pairingMatch_eq_ok h
  rw [← hkbd, List.map_take, List.map_map]
  rfl

/-- The IMU of a remote is one of the devices. -/
theorem imu_of_mem_pairingMatch {devs : List PairingInputDev} {outsz : ℕ} {out : List PairedRemote}
    (h : pairingMatch devs outsz = .ok out) {r : PairedRemote} (hr : r ∈ out) :
    ∀ i ∈ r.imu, i ∈ devs ∧ pairingIsImu i := by
  obtain ⟨slots, -, himu, rfl⟩ := pairingMatch_eq_ok h
  obtain ⟨s, hs, rfl⟩ := List.mem_map.mp (List.mem_of_mem_take hr)
  exact fun i hi => List.mem_filter.mp (himu s hs i hi)

/-- Without a MAC on any device no remote has one. -/
theorem uniq_of_mem_pairingMatch {devs : List PairingInputDev} {outsz : ℕ} {out : List PairedRemote}
    (h : pairingMatch devs outsz = .ok out) (hdevs : ∀ d ∈ devs, d.uniq = .empty)
    {r : PairedRemote} (hr : r ∈ out) : r.uniq = .empty := by
  obtain ⟨slots, hkbd, himu, rfl⟩ := pairingMatch_eq_ok h
  obtain ⟨s, hs, rfl⟩ := List.mem_map.mp (List.mem_of_mem_take hr)
  have hk : s.keyboard.uniq = .empty := by
    have : s.keyboard ∈ devs.filter pairingIsKeyboard := hkbd ▸ List.mem_map_of_mem hs
    exact hdevs _ (List.mem_filter.mp this).1
  have hi : (s.imu.map (·.uniq)).getD .empty = .empty := by
    cases himu' : s.imu with
    | none => rfl
    | some i => exact hdevs i (List.mem_filter.mp (himu s hs i himu')).1
  simp only [Slot.emit, hk, hi, if_true]
  rfl

/-- Several keyboards and an IMU without MACs are ambiguous. -/
theorem pairingMatch_ambiguous {devs : List PairingInputDev} {outsz : ℕ}
    (hdevs : ∀ d ∈ devs, d.uniq = .empty) (hkbd : 2 ≤ (devs.filter pairingIsKeyboard).length)
    (himu : devs.filter pairingIsImu ≠ []) :
    pairingMatch devs outsz = .error (errCandidates (devs.filter pairingIsKeyboard).length) := by
  obtain ⟨imu, imus, himus⟩ := List.exists_cons_of_ne_nil himu
  have huniq : imu.uniq = .empty := by
    have : imu ∈ devs.filter pairingIsImu := by simp [himus]
    exact hdevs imu (List.mem_filter.mp this).1
  have hstep : pairImu ((devs.filter pairingIsKeyboard).map (⟨·, none⟩)) imu =
      .error (errCandidates (devs.filter pairingIsKeyboard).length) := by
    generalize devs.filter pairingIsKeyboard = kbds at hkbd
    obtain ⟨a, b, kbds, rfl⟩ : ∃ a b l, kbds = a :: b :: l := by
      match kbds, hkbd with
      | a :: b :: l, _ => exact ⟨a, b, l, rfl⟩
    have hfree : ∀ n, ((kbds.map (⟨·, none⟩ : _ → Slot)).zipIdx n).filter
        (fun q => q.1.imu.isNone) = (kbds.map (⟨·, none⟩ : _ → Slot)).zipIdx n := by
      refine fun n => List.filter_eq_self.mpr fun q hq => ?_
      obtain ⟨k, -, hk⟩ := List.mem_map.mp (List.fst_mem_of_mem_zipIdx hq)
      simp [← hk]
    simp [pairImu, Slot.matchesMac, huniq, hfree]
  simp [pairingMatch, himus, List.foldlM_cons, hstep, bind, Except.bind]

/-! ## Devices with MACs -/

/-- Whether a keyboard has the MAC of an IMU. -/
def carriesMac (imu k : PairingInputDev) : Bool := imu.uniq ≠ .empty && uniqEq imu.uniq k.uniq

/-- The keyboards with the MAC of an IMU. -/
def macKeyboards (kbds : List PairingInputDev) (imu : PairingInputDev) : List PairingInputDev :=
  kbds.filter (carriesMac imu)

/-- Slots that agree on which IMU they take as `find` does. -/
def slotsOf (kbds imus : List PairingInputDev) : List Slot :=
  kbds.map fun k => ⟨k, imus.find? fun i => uniqEq i.uniq k.uniq⟩

/-- An IMU whose MAC is that of one free keyboard only is entered there. -/
theorem pairImu_of_unique {l₁ l₂ : List Slot} {s : Slot} {imu : PairingInputDev}
    (hs : s.imu = none) (hm : s.matchesMac imu) (h₁ : ∀ t ∈ l₁, t.matchesMac imu = false)
    (h₂ : ∀ t ∈ l₂, t.matchesMac imu = false) :
    pairImu (l₁ ++ s :: l₂) imu = .ok (l₁ ++ s.pair imu :: l₂) := by
  have hits : ((l₁ ++ s :: l₂).zipIdx.filter fun q => q.1.matchesMac imu && q.1.imu.isNone) =
      [(s, l₁.length)] := by
    have hp {l : List Slot} (h : ∀ t ∈ l, t.matchesMac imu = false) (n : ℕ) :=
      filter_zipIdx_eq_nil (p := fun s : Slot => s.matchesMac imu && s.imu.isNone)
        (l := l) (fun t ht => by simp [h t ht]) n
    simp [List.zipIdx_append, hp h₁, hp h₂, hm, hs]
  simp [pairImu, List.filter_filter, hits]

/-- One step of the run: the next IMU has a keyboard of its own. -/
theorem pairImu_slotsOf {kbds imus : List PairingInputDev} {imu k : PairingInputDev}
    (hk : macKeyboards kbds imu = [k]) (hnew : ∀ i ∈ imus, uniqEq i.uniq imu.uniq = false) :
    pairImu (slotsOf kbds imus) imu = .ok (slotsOf kbds (imus ++ [imu])) := by
  obtain ⟨l₁, l₂, rfl, hl₁, hmate, hl₂⟩ := List.filter_eq_cons_iff.mp hk
  rw [List.filter_eq_nil_iff] at hl₂
  obtain ⟨hmac, hmatch⟩ : imu.uniq ≠ .empty ∧ uniqEq imu.uniq k.uniq := by
    simpa [carriesMac] using hmate
  -- no IMU before this one has the address of the keyboard
  have hfree : imus.find? (fun i => uniqEq i.uniq k.uniq) = none := by
    refine List.find?_eq_none.mpr fun i hi h => ?_
    rw [uniqEq_comm] at hmatch
    exact absurd (uniqEq_trans h hmatch) (by simp [hnew i hi])
  -- the other slots are not touched, and none of them is taken for it
  have hsame {l : List PairingInputDev} (hl : ∀ k' ∈ l, ¬ carriesMac imu k') :
      slotsOf l (imus ++ [imu]) = slotsOf l imus := by
    refine List.map_congr_left fun k' hk' => ?_
    have : uniqEq imu.uniq k'.uniq = false := by simpa [carriesMac, hmac] using hl k' hk'
    simp [List.find?_append, this]
  have hnone {l : List PairingInputDev} (hl : ∀ k' ∈ l, ¬ carriesMac imu k') :
      ∀ t ∈ slotsOf l imus, t.matchesMac imu = false := by
    intro t ht
    obtain ⟨k', hk', rfl⟩ := List.mem_map.mp ht
    exact Bool.eq_false_of_not_eq_true (hl k' hk')
  calc pairImu (slotsOf (l₁ ++ k :: l₂) imus) imu
      = pairImu (slotsOf l₁ imus ++ ⟨k, none⟩ :: slotsOf l₂ imus) imu := by
        simp [slotsOf, hfree]
    _ = .ok (slotsOf l₁ imus ++ ⟨k, some imu⟩ :: slotsOf l₂ imus) :=
        pairImu_of_unique rfl hmate (hnone hl₁) (hnone hl₂)
    _ = .ok (slotsOf (l₁ ++ k :: l₂) (imus ++ [imu])) := by
        rw [← hsame hl₁, ← hsame hl₂]
        simp [slotsOf, List.find?_append, hfree, hmatch]

theorem foldlM_slotsOf {kbds imus : List PairingInputDev} (seen : List PairingInputDev)
    (hmate : ∀ i ∈ imus, ∃ k, macKeyboards kbds i = [k])
    (himu : (seen ++ imus).Pairwise fun a b => uniqEq a.uniq b.uniq = false) :
    imus.foldlM pairImu (slotsOf kbds seen) = .ok (slotsOf kbds (seen ++ imus)) := by
  induction imus generalizing seen with
  | nil => simp [pure, Except.pure]
  | cons imu imus ih =>
    have hnew : ∀ i ∈ seen, uniqEq i.uniq imu.uniq = false := fun i hi =>
      (List.pairwise_append.mp himu).2.2 i hi imu List.mem_cons_self
    obtain ⟨k, hk⟩ := hmate imu List.mem_cons_self
    rw [List.foldlM_cons, pairImu_slotsOf hk hnew]
    have := ih (seen ++ [imu]) (fun i hi => hmate i (List.mem_cons_of_mem _ hi))
      (by simpa using himu)
    simpa [bind, Except.bind] using this

/-- Among keyboards with distinct MACs an IMU has at most one mate. -/
theorem macKeyboards_eq_singleton {kbds : List PairingInputDev} {imu k : PairingInputDev}
    (hkbd : kbds.Pairwise fun a b => uniqEq a.uniq b.uniq = false) (hk : k ∈ kbds)
    (hmate : carriesMac imu k) : macKeyboards kbds imu = [k] := by
  have hmatch : uniqEq k.uniq imu.uniq := by
    rw [uniqEq_comm]
    exact (Bool.and_eq_true_iff.mp hmate).2
  have hother {k' : PairingInputDev} (hne : uniqEq k.uniq k'.uniq = false) :
      ¬ carriesMac imu k' := fun h =>
    absurd (uniqEq_trans hmatch (Bool.and_eq_true_iff.mp h).2) (by simp [hne])
  obtain ⟨l₁, l₂, rfl⟩ := List.append_of_mem hk
  rw [List.pairwise_append, List.pairwise_cons] at hkbd
  refine List.filter_eq_cons_iff.mpr ⟨l₁, l₂, rfl, fun k' hk' => ?_, hmate, ?_⟩
  · apply hother
    rw [uniqEq_comm]
    exact hkbd.2.2 k' hk' k List.mem_cons_self
  · exact List.filter_eq_nil_iff.mpr fun k' hk' => hother (hkbd.2.1.1 k' hk')

/-- With distinct MACs on the nodes every keyboard is paired with the IMU of its MAC. -/
theorem pairingMatch_of_macs {devs : List PairingInputDev} (outsz : ℕ)
    (hkbd : (devs.filter pairingIsKeyboard).Pairwise fun a b => uniqEq a.uniq b.uniq = false)
    (himu : (devs.filter pairingIsImu).Pairwise fun a b => uniqEq a.uniq b.uniq = false)
    (hmac : ∀ i ∈ devs.filter pairingIsImu, i.uniq ≠ .empty)
    (hmate : ∀ i ∈ devs.filter pairingIsImu, ∃ k ∈ devs.filter pairingIsKeyboard,
      uniqEq i.uniq k.uniq) :
    pairingMatch devs outsz = .ok (((slotsOf (devs.filter pairingIsKeyboard)
      (devs.filter pairingIsImu)).map Slot.emit).take outsz) := by
  have hone : ∀ i ∈ devs.filter pairingIsImu,
      ∃ k, macKeyboards (devs.filter pairingIsKeyboard) i = [k] := by
    intro i hi
    obtain ⟨k, hk, hmatch⟩ := hmate i hi
    exact ⟨k, macKeyboards_eq_singleton hkbd hk (by simp [carriesMac, hmac i hi, hmatch])⟩
  have hrun := foldlM_slotsOf [] hone (by simpa using himu)
  rw [show slotsOf (devs.filter pairingIsKeyboard) [] =
    (devs.filter pairingIsKeyboard).map (⟨·, none⟩) from rfl] at hrun
  simp [pairingMatch, hrun, bind, Except.bind, pure, Except.pure]

end Pairing
