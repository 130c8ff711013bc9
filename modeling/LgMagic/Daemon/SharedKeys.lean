import LgMagic.Daemon.HeldKeys

/-!
# Shared virtual keys

Several keys of a remote may be mapped to one virtual key. Releases are handled one key of the
remote at a time: the release of a key goes out with the code of its entry, whether another entry
has the same code or not, so that the virtual key is up while the other key is still held.

* `frameSystem`: the runs of a configured pipeline;
* `NoPrematureRelease`: every key that is held has its virtual key down;
* `ReleaseAlone`: no other entry has the code of the key that is released;
* `noPrematureRelease_key_iff`: an event keeps the property exactly where this holds;
* `noPrematureRelease_of_releasesAlone`: what a run of such events keeps.
-/

namespace Daemon

open InputCore Pointer Profiles

section

variable {F : Type}

/-- The runs of a pipeline that has its configuration, from a remote with no key held. -/
def frameSystem (F : Type) [CArith F] : TransitionSystem (KbdSys F) EvdevFrame where
  init s := s.pressed = ∅ ∧ s.pipe.held = [] ∧ s.down = ∅
  step s f s' := FollowsAll (·.card ≤ 32) s.pressed f.keys ∧ s' = s.frame f

/-- Every key that is held has an entry, and the virtual key of its entry is down. -/
structure NoPrematureRelease (s : KbdSys F) : Prop where
  entry : ∀ q ∈ s.pressed, ∃ k ∈ s.pipe.held, k.phys = q
  down : ∀ k ∈ s.pipe.held, k.phys ∈ s.pressed → kbdKeys (u16 k.virt) = true → u16 k.virt ∈ s.down

/-- No key that stays held has the virtual key of the key that is released. -/
def ReleaseAlone (s : KbdSys F) (e : KeyEvent) : Prop :=
  e.value = 0 → ∀ k ∈ s.pipe.held, k.phys = e.code → ∀ k' ∈ s.pipe.held, k'.phys ≠ e.code →
    kbdKeys (u16 k'.virt) = true → u16 k'.virt ≠ u16 k.virt

/-- The condition on the key events of a frame. -/
def ReleasesAlone (s : KbdSys F) : List KeyEvent → Prop
  | [] => True
  | e :: es => ReleaseAlone s e ∧ ReleasesAlone (s.key e) es

/-! ## A key event -/

/-- Only the code of the event changes. -/
theorem mem_writeEvents_uinputKey_of_ne {down : Finset ℕ} {code value : ℤ} {c : ℕ} (hc : c ∈ down)
    (hne : c ≠ u16 code) : c ∈ writeEvents kbdKeys down (uinputKey code value) := by
  rw [uinputKey, writeEvents_cons, writeEvents_cons, writeEvents_nil,
    writeEvent_of_type_ne (by decide), writeEvent]
  split_ifs
  · exact hc
  · exact Finset.mem_erase.mpr ⟨hne, hc⟩
  · exact Finset.mem_insert_of_mem hc
  · exact hc

/-- A repeat leaves the virtual keys as they are. -/
theorem writeEvents_uinputKey_repeat (down : Finset ℕ) (code : ℤ) :
    writeEvents kbdKeys down (uinputKey code 2) = down := by
  rw [uinputKey, writeEvents_cons, writeEvents_cons, writeEvents_nil,
    writeEvent_of_type_ne (by decide), writeEvent, if_pos rfl, ite_self]

/-- A press takes the virtual key down. -/
theorem mem_writeEvents_uinputKey_press {down : Finset ℕ} {code : ℤ}
    (hkey : kbdKeys (u16 code) = true) :
    u16 code ∈ writeEvents kbdKeys down (uinputKey code 1) := by
  rw [uinputKey, writeEvents_cons, writeEvents_cons, writeEvents_nil,
    writeEvent_of_type_ne (by decide), writeEvent, if_pos ⟨rfl, hkey⟩, if_neg (by simp),
    if_neg (by simp)]
  exact Finset.mem_insert_self _ _

variable {s : KbdSys F} {e : KeyEvent}

/-- The entry of a key that is held. -/
theorem NoPrematureRelease.entry_eq (h : NoPrematureRelease s) (hmem : e.code ∈ s.pressed)
    (hnone : ∀ k ∈ s.pipe.held, k.phys ≠ e.code) : False := by
  obtain ⟨k, hk, hphys⟩ := h.entry _ hmem
  exact hnone k hk hphys

/-- A press takes the virtual key of the new entry down and leaves the others down. -/
theorem NoPrematureRelease.press (h : NoPrematureRelease s) (hpin : DownPinned s)
    (hval : e.value = 1) (hup : e.code ∉ s.pressed)
    (hcard : (insert e.code s.pressed).card ≤ heldMax) : NoPrematureRelease (s.key e) := by
  have hpressed : (s.key e).pressed = insert e.code s.pressed := by
    simp [KbdSys.key, pressAfter, hval]
  have hnone : ∀ k ∈ s.pipe.held, k.phys ≠ e.code := fun k hk heq =>
    hup (heq ▸ hpin.pressed k hk)
  have hadd : (s.key e).pipe.held = s.pipe.held ++ [⟨e.code, (pipelineKey s.pipe e).2⟩] := by
    rcases pipelineKey_cases s.pipe e with
      ⟨l₁, k, l₂, hheld, hphys, -⟩ | ⟨-, -, ⟨-, -, hadd⟩ | ⟨hfull, -⟩⟩
    · exact absurd hphys (hnone k (by simp [hheld]))
    · exact hadd
    · -- the table has room
      have hroom := hpin.held_lt hnone hcard
      omega
  have hdown : (s.key e).down =
      writeEvents kbdKeys s.down (uinputKey (pipelineKey s.pipe e).2 1) := by
    rw [← hval]
    rfl
  refine ⟨fun q hq => ?_, fun k hk hk' hkey => ?_⟩
  · -- every key that is down has an entry
    rw [hpressed, Finset.mem_insert] at hq
    rw [hadd]
    rcases hq with rfl | hq
    · exact ⟨_, List.mem_append_right _ (List.mem_singleton_self _), rfl⟩
    · obtain ⟨k, hk, hphys⟩ := h.entry q hq
      exact ⟨k, List.mem_append_left _ hk, hphys⟩
  · -- every entry has its virtual key down
    rw [hadd, List.mem_append, List.mem_singleton] at hk
    rw [hdown]
    by_cases hcode : u16 k.virt = u16 (pipelineKey s.pipe e).2
    · rw [hcode] at hkey ⊢
      exact mem_writeEvents_uinputKey_press hkey
    · rcases hk with hk | rfl
      · exact mem_writeEvents_uinputKey_of_ne (h.down k hk (hpin.pressed k hk) hkey) hcode
      · exact absurd rfl hcode

/-- A repeat changes nothing. -/
theorem NoPrematureRelease.repeats (h : NoPrematureRelease s) (hval : e.value = 2)
    (hmem : e.code ∈ s.pressed) : NoPrematureRelease (s.key e) := by
  have hpressed : (s.key e).pressed = s.pressed := by
    simp [KbdSys.key, pressAfter, hval, Finset.insert_eq_of_mem hmem]
  have hdown : (s.key e).down = s.down := by
    rw [KbdSys.key, hval]
    exact writeEvents_uinputKey_repeat _ _
  have hheld : (s.key e).pipe.held = s.pipe.held := by
    rcases pipelineKey_cases s.pipe e with ⟨l₁, k, l₂, -, -, -, ⟨h0, -⟩ | ⟨-, hsame⟩⟩ | ⟨hnone, -⟩
    · omega
    · exact hsame
    · exact (h.entry_eq hmem hnone).elim
  exact ⟨by rw [hpressed, hheld]; exact h.entry, by rw [hpressed, hheld, hdown]; exact h.down⟩

/-- A release takes the entry of the key away and its virtual key up. -/
theorem NoPrematureRelease.release_iff (h : NoPrematureRelease s) (hpin : DownPinned s)
    (hval : e.value = 0) (hmem : e.code ∈ s.pressed) :
    NoPrematureRelease (s.key e) ↔ ReleaseAlone s e := by
  have hpressed : (s.key e).pressed = s.pressed.erase e.code := by
    simp [KbdSys.key, pressAfter, hval]
  have hafter := heldAfter hpin.nodup e
  have hrest (k : HeldKey) : k ∈ (s.key e).pipe.held ↔ k ∈ s.pipe.held ∧ k.phys ≠ e.code := by
    constructor
    · intro hk
      have hne := hafter.released hval k hk
      exact ⟨(hafter.other k hne).mp hk, hne⟩
    · rintro ⟨hk, hne⟩
      exact (hafter.other k hne).mpr hk
  obtain ⟨k, hk, hphys⟩ := h.entry _ hmem
  have hdown : (s.key e).down = writeEvents kbdKeys s.down (uinputKey k.virt 0) := by
    rw [KbdSys.key, hval, hafter.virt k hphys (.inl hk)]
  constructor
  · -- a key that stays held with the same code would be up
    rintro ⟨-, hafter⟩ - k₁ hk₁ hphys₁ k' hk' hne hkey heq
    obtain rfl : k₁ = k := List.inj_on_of_nodup_map hpin.nodup hk₁ hk (hphys₁.trans hphys.symm)
    have hheld' := hpressed ▸ Finset.mem_erase.mpr ⟨hne, hpin.pressed k' hk'⟩
    have hmem' := hafter k' ((hrest k').mpr ⟨hk', hne⟩) hheld' hkey
    rw [hdown, heq] at hmem'
    exact notMem_writeEvents_uinputKey_release hpin.keys hmem'
  · -- no other entry has the virtual key, so the others stay down
    intro halone
    refine ⟨fun q hq => ?_, fun k' hk' _ hkey => ?_⟩
    · rw [hpressed, Finset.mem_erase] at hq
      obtain ⟨k', hk', rfl⟩ := h.entry q hq.2
      exact ⟨k', (hrest k').mpr ⟨hk', hq.1⟩, rfl⟩
    · obtain ⟨hk', hne⟩ := (hrest k').mp hk'
      rw [hdown]
      exact mem_writeEvents_uinputKey_of_ne (h.down k' hk' (hpin.pressed k' hk') hkey)
        (halone hval k hk hphys k' hk' hne hkey)

/-- A key event keeps the virtual keys of the keys that stay held down exactly where no other key
has the virtual key of a key that is released. -/
theorem noPrematureRelease_key_iff (h : NoPrematureRelease s) (hpin : DownPinned s)
    (he : Follows (·.card ≤ heldMax) s.pressed e) :
    NoPrematureRelease (s.key e) ↔ ReleaseAlone s e := by
  rcases he with ⟨hval, hup, hcard⟩ | ⟨hval | hval, hmem⟩
  · exact iff_of_true (h.press hpin hval hup hcard) fun h0 => by omega
  · exact iff_of_true (h.repeats hval hmem) fun h0 => by omega
  · exact h.release_iff hpin hval hmem

/-! ## Runs -/

theorem NoPrematureRelease.keyEvents {es : List KeyEvent} {s : KbdSys F}
    (h : NoPrematureRelease s) (hpin : DownPinned s)
    (hes : FollowsAll (·.card ≤ heldMax) s.pressed es) (halone : ReleasesAlone s es) :
    NoPrematureRelease (es.foldl KbdSys.key s) := by
  induction es generalizing s with
  | nil => exact h
  | cons e es ih =>
    exact ih ((noPrematureRelease_key_iff h hpin hes.1).mpr halone.1) (hpin.key hes.1) hes.2 halone.2

/-- The invariant holds in every state of a run that meets the condition. -/
theorem inductive_noPrematureRelease [CArith F] :
    ((frameSystem F).restrict fun s f => ReleasesAlone s f.keys).Inductive fun s =>
      NoPrematureRelease s ∧ DownPinned s where
  init s h := by
    obtain ⟨hpressed, hheld, hdown⟩ := h
    exact ⟨⟨by simp [hpressed], by simp [hheld]⟩,
      ⟨by simp [hdown], by simp [hdown], by simp [hheld], by simp [hheld], by simp [hpressed]⟩⟩
  step s f s' h hstep := by
    obtain ⟨⟨hf, rfl⟩, halone⟩ := hstep
    have hkeys := h.1.keyEvents h.2 hf halone
    have hpin := h.2.keyEvents hf
    rw [KbdSys.frame_eq]
    exact ⟨⟨by simpa using hkeys.entry, by simpa using hkeys.down⟩,
      ⟨by simpa using hpin.down, hpin.keys, by simpa using hpin.nodup, by simpa using hpin.pressed,
        hpin.short⟩⟩

/-- In the runs where no key is released whose virtual key another held key has too, every key that
is held has its virtual key down. -/
theorem noPrematureRelease_of_releasesAlone [CArith F] {s : KbdSys F}
    (h : ((frameSystem F).restrict fun s f => ReleasesAlone s f.keys).Reachable s) :
    NoPrematureRelease s :=
  (h.of_inductive inductive_noPrematureRelease).1

end

/-- A pipeline whose map sends `KEY_UP` and `KEY_DOWN` to `KEY_ENTER`. -/
def sharedSys : KbdSys ℚ where
  pipe := { (pipelineInit : Pipeline ℚ) with
    active := profileSetButton (profileSetButton (profileInit (.lit "resolved")) 103 28) 108 28 }
  down := ∅
  pressed := ∅
  trace := []

/-- Both keys are pressed. -/
def bothFrame : EvdevFrame := { keys := [⟨103, 1⟩, ⟨108, 1⟩], wheel := 0 }

/-- One of them is released. -/
def releaseFrame : EvdevFrame := { keys := [⟨103, 0⟩], wheel := 0 }

theorem noPrematureRelease_bothPressed :
    NoPrematureRelease (sharedSys.frame bothFrame) :=
  @noPrematureRelease_of_releasesAlone ℚ _ _ (.step bothFrame (.init ⟨rfl, rfl, rfl⟩)
    ⟨⟨⟨.inl ⟨rfl, by decide, by decide⟩, .inl ⟨rfl, by decide, by decide⟩, trivial⟩, rfl⟩,
      fun h => absurd h (by decide), fun h => absurd h (by decide), trivial⟩)

/-- The virtual key is up after one of the two keys is released. -/
theorem not_noPrematureRelease_shared : ∃ s, (frameSystem ℚ).Reachable s ∧
    ¬ NoPrematureRelease s := by
  have hboth : (frameSystem ℚ).Reachable (sharedSys.frame bothFrame) :=
    .step bothFrame (.init ⟨rfl, rfl, rfl⟩)
      ⟨⟨.inl ⟨rfl, by decide, by decide⟩, .inl ⟨rfl, by decide, by decide⟩, trivial⟩, rfl⟩
  refine ⟨(sharedSys.frame bothFrame).frame releaseFrame, .step releaseFrame hboth
    ⟨⟨.inr ⟨.inr rfl, by decide⟩, trivial⟩, rfl⟩, fun h => ?_⟩
  exact absurd (h.down ⟨108, 28⟩ (by decide +kernel) (by decide +kernel) (by decide))
    (by decide +kernel)

end Daemon
