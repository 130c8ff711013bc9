import LgMagic.Daemon.Pipeline
import LgMagic.Lib.Transition

/-!
# Held keys

The keys of a remote against the keys of its virtual keyboard, over runs of keyboard frames and new
configurations. Every key that is down on the virtual keyboard belongs to an entry of the table, so
no key is left down. A key that is held while the configuration changes loses its entry: an
autorepeat that arrives then is taken for a fresh press and goes out under the new map.

* `KbdSys`, `kbdSystem`: the pipeline, the virtual keyboard and the physical keys;
* `DownPinned`, `inductive_downPinned`: the invariant of the keys that are down;
* `down_subset_held`: no key is stuck;
* `NeverReappears`: a key keeps the code of its press until the release;
* `neverReappears_of_noStaleRepeat`: it does in the runs where no key repeats that is held since
  before a change of the configuration.
-/

namespace Daemon

open InputCore Pointer Profiles

/-! ## Runs -/

/-- What a run shows: the key events with the codes that they went out with, and whether the code
was down before, and the changes of the configuration. The newest entry is the first. -/
inductive TraceEntry where
  | key (phys value virt : ℤ) (wasDown : Bool)
  | configure
  deriving DecidableEq

/-- A pipeline and its two sides: the keys of the remote that are held, and the keys of the virtual
keyboard that are down. -/
structure KbdSys (F : Type) where
  pipe : Pipeline F
  down : Finset ℕ
  pressed : Finset ℤ
  trace : List TraceEntry

/-- The keys that are held after a key event. -/
def pressAfter (pressed : Finset ℤ) (e : KeyEvent) : Finset ℤ :=
  if e.value = 0 then pressed.erase e.code else insert e.code pressed

/-- The key events that a keyboard can send: a press of a key that is up, where the keys may be held
together, and repeats and the release of a key that is held. -/
def Follows (together : Finset ℤ → Prop) (pressed : Finset ℤ) (e : KeyEvent) : Prop :=
  (e.value = 1 ∧ e.code ∉ pressed ∧ together (insert e.code pressed)) ∨
    ((e.value = 2 ∨ e.value = 0) ∧ e.code ∈ pressed)

/-- The key events of a frame, one after the other. -/
def FollowsAll (together : Finset ℤ → Prop) (pressed : Finset ℤ) : List KeyEvent → Prop
  | [] => True
  | e :: es => Follows together pressed e ∧ FollowsAll together (pressAfter pressed e) es

section

variable {F : Type}

/-- A key event of a frame. -/
def KbdSys.key (s : KbdSys F) (e : KeyEvent) : KbdSys F where
  pipe := (pipelineKey s.pipe e).1
  down := writeEvents kbdKeys s.down (uinputKey (pipelineKey s.pipe e).2 e.value)
  pressed := pressAfter s.pressed e
  trace := .key e.code e.value (pipelineKey s.pipe e).2 (u16 (pipelineKey s.pipe e).2 ∈ s.down) ::
    s.trace

/-- A keyboard frame. -/
def KbdSys.frame [CArith F] (s : KbdSys F) (f : EvdevFrame) : KbdSys F :=
  let s' := f.keys.foldl KbdSys.key s
  { pipe := (pipelineKeyboard s.pipe f).1
    down := writeEvents kbdKeys s.down (pipelineKeyboard s.pipe f).2.kbd
    pressed := s'.pressed
    trace := s'.trace }

/-- A new configuration of the pipeline, with an open virtual keyboard. -/
def KbdSys.configure [CNum F] (s : KbdSys F) (calibLoad : CStr → Except Bytes (Calib F))
    (dc : DeviceConfig F) (calibPath : CStr) (gcfg : GlobalConfig F) (fd : ℕ) : KbdSys F :=
  let r := pipelineConfigure calibLoad s.pipe dc calibPath gcfg fd
  { pipe := r.2.1
    down := writeEvents kbdKeys s.down r.2.2
    pressed := s.pressed
    trace := .configure :: s.trace }

/-- The inputs of a run. -/
inductive KbdInput (F : Type) where
  | frame (f : EvdevFrame)
  | configure (calibLoad : CStr → Except Bytes (Calib F)) (dc : DeviceConfig F) (calibPath : CStr)
      (gcfg : GlobalConfig F)

/-- The runs of a pipeline whose virtual keyboard has the descriptor `fd`; some keys may be held
already when the daemon takes over. -/
def kbdSystem (F : Type) [CArith F] (together : Finset ℤ → Prop) (fd : ℕ) :
    TransitionSystem (KbdSys F) (KbdInput F) where
  init s := together s.pressed ∧ s.pipe = pipelineInit ∧ s.down = ∅ ∧ s.trace = []
  step s i s' :=
    match i with
    | .frame f => FollowsAll together s.pressed f.keys ∧ s' = s.frame f
    | .configure calibLoad dc calibPath gcfg =>
      s' = s.configure calibLoad dc calibPath gcfg fd

/-- A frame is its key events, and the wheel leaves the keys alone. -/
theorem KbdSys.frame_eq [CArith F] (s : KbdSys F) (f : EvdevFrame) :
    s.frame f = { f.keys.foldl KbdSys.key s with
      pipe := (pipelineWheel (f.keys.foldl KbdSys.key s).pipe f.wheel).1 } := by
  -- the loop of the frame and the key events of the run, from any event on
  have hrun (es : List KeyEvent) (s : KbdSys F) (kbd : List InputEvent) (down : Finset ℕ)
      (hdown : writeEvents kbdKeys down kbd = s.down) :
      ∀ r, r = es.foldl (fun (r : Pipeline F × List InputEvent) e =>
        ((pipelineKey r.1 e).1, r.2 ++ uinputKey (pipelineKey r.1 e).2 e.value)) (s.pipe, kbd) →
      r.1 = (es.foldl KbdSys.key s).pipe ∧
        writeEvents kbdKeys down r.2 = (es.foldl KbdSys.key s).down := by
    induction es generalizing s kbd with
    | nil => rintro r rfl; exact ⟨rfl, hdown⟩
    | cons e es ih =>
      rintro r rfl
      exact ih (s.key e) _ (by rw [writeEvents_append, hdown]; rfl) _ rfl
  obtain ⟨hpipe, hdown⟩ := hrun f.keys s [] s.down rfl _ rfl
  simp only [KbdSys.frame, pipelineKeyboard]
  rw [← hpipe, ← hdown]

end

/-! ## The table after a key event -/

/-- What a key event makes of the table, entry by entry. -/
structure HeldAfter {F : Type} (p : Pipeline F) (e : KeyEvent) : Prop where
  nodup : ((pipelineKey p e).1.held.map (·.phys)).Nodup
  other : ∀ k : HeldKey, k.phys ≠ e.code → (k ∈ (pipelineKey p e).1.held ↔ k ∈ p.held)
  virt : ∀ k : HeldKey, k.phys = e.code → k ∈ p.held ∨ k ∈ (pipelineKey p e).1.held →
    (pipelineKey p e).2 = k.virt
  released : e.value = 0 → ∀ k ∈ (pipelineKey p e).1.held, k.phys ≠ e.code
  kept : e.value ≠ 0 → ∀ k ∈ p.held, k.phys = e.code → k ∈ (pipelineKey p e).1.held
  added : e.value ≠ 0 → p.held.length < heldMax → ∃ k ∈ (pipelineKey p e).1.held, k.phys = e.code
  lookup : (∀ k ∈ p.held, k.phys ≠ e.code) → (pipelineKey p e).2 = mapLookup p.active.map e.code

/-- An event keeps the keys of a table distinct, and touches the entry of its own key only. -/
theorem heldAfter {F : Type} {p : Pipeline F} (hnodup : (p.held.map (·.phys)).Nodup) (e : KeyEvent) :
    HeldAfter p e := by
  rcases pipelineKey_cases p e with
    ⟨l₁, k, l₂, hheld, hphys, hvirt, ⟨hval, hperm⟩ | ⟨hval, hsame⟩⟩ |
    ⟨hnone, hvirt, ⟨hval, -, hadd⟩ | ⟨hfull, hsame⟩⟩
  · -- release of an entry
    have hmem {k' : HeldKey} : k' ∈ p.held ↔ k' = k ∨ k' ∈ l₁ ++ l₂ := by
      simp only [hheld, List.mem_append, List.mem_cons, or_left_comm]
    rw [hheld, List.map_append, List.map_cons, List.nodup_middle, List.nodup_cons,
      ← List.map_append] at hnodup
    -- no other entry has its key
    have hrest {k' : HeldKey} (hk' : k' ∈ l₁ ++ l₂) : k'.phys ≠ e.code := by
      intro heq
      apply hnodup.1
      rw [hphys, ← heq]
      exact List.mem_map_of_mem hk'
    refine ⟨(hperm.map _).nodup_iff.mpr hnodup.2, fun k' hne => ?_, fun k' heq hk' => ?_,
      fun _ k' hk' => hrest (hperm.mem_iff.mp hk'), fun h0 => absurd hval h0,
      fun h0 => absurd hval h0, fun hno => absurd hphys (hno k (hmem.mpr (.inl rfl)))⟩
    · rw [hperm.mem_iff, hmem, or_iff_right]
      rintro rfl
      exact hne hphys
    · rcases hk' with hk' | hk'
      · rcases hmem.mp hk' with rfl | hk'
        · exact hvirt
        · exact absurd heq (hrest hk')
      · exact absurd heq (hrest (hperm.mem_iff.mp hk'))
  · -- a press or repeat of an entry
    have hk : k ∈ p.held := by simp [hheld]
    refine ⟨hsame ▸ hnodup, fun k' _ => by rw [hsame], fun k' heq hk' => ?_,
      fun h0 => absurd h0 hval, fun _ k' hk' _ => hsame ▸ hk', fun _ _ => ⟨k, hsame ▸ hk, hphys⟩,
      fun hno => absurd hphys (hno k hk)⟩
    rw [hsame, or_self] at hk'
    rw [hvirt, List.inj_on_of_nodup_map hnodup hk' hk (heq.trans hphys.symm)]
  · -- a key without an entry gets one
    have hmem {k' : HeldKey} : k' ∈ (pipelineKey p e).1.held ↔
        k' ∈ p.held ∨ k' = ⟨e.code, (pipelineKey p e).2⟩ := by
      rw [hadd, List.mem_append, List.mem_singleton]
    refine ⟨?_, fun k' hne => ?_, fun k' heq hk' => ?_, fun h0 => absurd h0 hval,
      fun _ k' hk' _ => hmem.mpr (.inl hk'), fun _ _ => ⟨_, hmem.mpr (.inr rfl), rfl⟩,
      fun _ => hvirt⟩
    · rw [hadd, List.map_append]
      refine List.nodup_append.mpr ⟨hnodup, List.nodup_singleton _, fun x hx y hy => ?_⟩
      obtain ⟨k', hk', rfl⟩ := List.mem_map.mp hx
      rw [List.mem_singleton.mp hy]
      exact hnone k' hk'
    · rw [hmem, or_iff_left]
      rintro rfl
      exact hne rfl
    · rcases hk' with hk' | hk'
      · exact absurd heq (hnone k' hk')
      · rcases hmem.mp hk' with hk' | rfl
        · exact absurd heq (hnone k' hk')
        · rfl
  · -- no entry, and none is made
    refine ⟨hsame ▸ hnodup, fun k' _ => by rw [hsame], fun k' heq hk' => ?_,
      fun _ k' hk' => hnone k' (hsame ▸ hk'), fun _ k' hk' _ => hsame ▸ hk',
      fun hval hlen => ?_, fun _ => hvirt⟩
    · rw [hsame, or_self] at hk'
      exact absurd heq (hnone k' hk')
    · rcases hfull with h0 | h0
      · exact absurd h0 hval
      · exact absurd hlen h0.not_gt

/-! ## No key is stuck -/

/-- Every key that is down belongs to an entry, and the entries to different keys that are held. -/
structure DownPinned {F : Type} (s : KbdSys F) : Prop where
  down : ∀ c ∈ s.down, ∃ h ∈ s.pipe.held, u16 h.virt = c
  keys : ∀ c ∈ s.down, kbdKeys c = true
  nodup : (s.pipe.held.map (·.phys)).Nodup
  pressed : ∀ h ∈ s.pipe.held, h.phys ∈ s.pressed
  short : s.pressed.card ≤ heldMax

section

variable {F : Type}

/-- The keys that are down after a key goes out. -/
theorem mem_of_mem_writeEvents_uinputKey {down : Finset ℕ} {code value : ℤ} {c : ℕ}
    (h : c ∈ writeEvents kbdKeys down (uinputKey code value)) :
    c ∈ down ∨ (c = u16 code ∧ value ≠ 0 ∧ value ≠ 2) := by
  rw [uinputKey, writeEvents_cons, writeEvents_cons, writeEvents_nil,
    writeEvent_of_type_ne (by decide)] at h
  exact mem_of_mem_writeEvent h

theorem keys_of_mem_writeEvents_uinputKey {down : Finset ℕ} {code value : ℤ}
    (h : ∀ c ∈ down, kbdKeys c) : ∀ c ∈ writeEvents kbdKeys down (uinputKey code value),
      kbdKeys c := by
  rw [uinputKey, writeEvents_cons, writeEvents_cons, writeEvents_nil,
    writeEvent_of_type_ne (by decide)]
  exact keys_of_mem_writeEvent h

/-- A key that goes out released is up. -/
theorem notMem_writeEvents_uinputKey_release {down : Finset ℕ} {code : ℤ}
    (h : ∀ c ∈ down, kbdKeys c) :
    u16 code ∉ writeEvents kbdKeys down (uinputKey code 0) := by
  rw [uinputKey, writeEvents_cons, writeEvents_cons, writeEvents_nil,
    writeEvent_of_type_ne (by decide)]
  exact notMem_writeEvent_release h

theorem mem_pressAfter_of_ne {pressed : Finset ℤ} {e : KeyEvent} {q : ℤ} (hq : q ∈ pressed)
    (hne : q ≠ e.code) : q ∈ pressAfter pressed e := by
  unfold pressAfter
  split_ifs
  · exact Finset.mem_erase.mpr ⟨hne, hq⟩
  · exact Finset.mem_insert_of_mem hq

/-- The table has room for the key of a press or repeat that has no entry. -/
theorem DownPinned.held_lt {s : KbdSys F} (h : DownPinned s) {q : ℤ}
    (hq : ∀ k ∈ s.pipe.held, k.phys ≠ q) (hcard : (insert q s.pressed).card ≤ heldMax) :
    s.pipe.held.length < heldMax := by
  have hsub : (insert q (s.pipe.held.map (·.phys)).toFinset) ⊆ insert q s.pressed := by
    refine Finset.insert_subset_insert q fun x hx => ?_
    obtain ⟨k, hk, rfl⟩ := List.mem_map.mp (List.mem_toFinset.mp hx)
    exact h.pressed k hk
  have hcard' := (Finset.card_le_card hsub).trans hcard
  rw [Finset.card_insert_of_notMem (by simpa using hq), List.toFinset_card_of_nodup h.nodup,
    List.length_map] at hcard'
  omega

theorem DownPinned.short_pressAfter {s : KbdSys F} {e : KeyEvent} (h : DownPinned s)
    (he : Follows (·.card ≤ heldMax) s.pressed e) : (pressAfter s.pressed e).card ≤ heldMax := by
  unfold pressAfter
  rcases he with ⟨h1, -, hcard⟩ | ⟨h20, hmem⟩
  · simpa [h1] using hcard
  · split_ifs
    · exact (Finset.card_erase_le).trans h.short
    · rw [Finset.insert_eq_of_mem hmem]
      exact h.short

/-- The table always has an entry for a key that is pressed or repeats. -/
theorem DownPinned.exists_entry {s : KbdSys F} {e : KeyEvent} (h : DownPinned s)
    (he : Follows (·.card ≤ heldMax) s.pressed e) (hval : e.value ≠ 0) :
    ∃ k ∈ (s.key e).pipe.held, k.phys = e.code := by
  have hafter := heldAfter h.nodup e
  by_cases hnone : ∀ k ∈ s.pipe.held, k.phys ≠ e.code
  · apply hafter.added hval
    apply h.held_lt hnone
    simpa [pressAfter, hval] using h.short_pressAfter he
  · push Not at hnone
    obtain ⟨k, hk, hphys⟩ := hnone
    exact ⟨k, hafter.kept hval k hk hphys, hphys⟩

/-- The invariant holds after a key event. -/
theorem DownPinned.key {s : KbdSys F} {e : KeyEvent} (h : DownPinned s)
    (he : Follows (·.card ≤ heldMax) s.pressed e) : DownPinned (s.key e) := by
  have hafter := heldAfter h.nodup e
  refine ⟨fun c hc => ?_, keys_of_mem_writeEvents_uinputKey h.keys, hafter.nodup, fun k hk => ?_,
    h.short_pressAfter he⟩
  · rcases mem_of_mem_writeEvents_uinputKey hc with hdown | ⟨rfl, hval, -⟩
    · obtain ⟨k, hk, rfl⟩ := h.down c hdown
      by_cases hphys : k.phys = e.code
      · -- a release takes the code of the entry up
        have hval : e.value ≠ 0 := by
          intro hval
          rw [KbdSys.key, hval, hafter.virt k hphys (.inl hk)] at hc
          exact notMem_writeEvents_uinputKey_release h.keys hc
        exact ⟨k, hafter.kept hval k hk hphys, rfl⟩
      · exact ⟨k, (hafter.other k hphys).mpr hk, rfl⟩
    · obtain ⟨k, hk, hphys⟩ := h.exists_entry he hval
      exact ⟨k, hk, by rw [hafter.virt k hphys (.inr hk)]⟩
  · by_cases hphys : k.phys = e.code
    · have hval : e.value ≠ 0 := fun hval => hafter.released hval k hk hphys
      rw [hphys, KbdSys.key, pressAfter, if_neg hval]
      exact Finset.mem_insert_self _ _
    · exact mem_pressAfter_of_ne (h.pressed k ((hafter.other k hphys).mp hk)) hphys

theorem DownPinned.keyEvents {es : List KeyEvent} {s : KbdSys F} (h : DownPinned s)
    (hes : FollowsAll (·.card ≤ heldMax) s.pressed es) : DownPinned (es.foldl KbdSys.key s) := by
  induction es generalizing s with
  | nil => exact h
  | cons e es ih => exact ih (h.key hes.1) hes.2

/-- The invariant holds after a change of the configuration. -/
theorem DownPinned.configure [CNum F] {s : KbdSys F} (h : DownPinned s)
    (calibLoad : CStr → Except Bytes (Calib F)) (dc : DeviceConfig F) (calibPath : CStr)
    (gcfg : GlobalConfig F) (fd : ℕ) :
    DownPinned (s.configure calibLoad dc calibPath gcfg fd) := by
  have hfd : (0 : ℤ) ≤ fd := Int.natCast_nonneg fd
  -- releasing entries one after the other leaves the keys of the others
  have hrun (held : List HeldKey) (down : Finset ℕ) (hkeys : ∀ c ∈ down, kbdKeys c)
      (hdown : ∀ c ∈ down, ∃ k ∈ held, u16 k.virt = c) :
      writeEvents kbdKeys down (held.flatMap fun k => uinputKey k.virt 0) = ∅ := by
    induction held generalizing down with
    | nil => exact Finset.eq_empty_of_forall_notMem fun c hc => by simpa using hdown c hc
    | cons k held ih =>
      rw [List.flatMap_cons, writeEvents_append]
      refine ih _ (keys_of_mem_writeEvents_uinputKey hkeys) fun c hc => ?_
      rcases mem_of_mem_writeEvents_uinputKey hc with hmem | ⟨-, hne, -⟩
      · obtain ⟨k', hk', rfl⟩ := hdown c hmem
        rcases List.mem_cons.mp hk' with rfl | hk'
        · exact absurd hc (notMem_writeEvents_uinputKey_release hkeys)
        · exact ⟨k', hk', rfl⟩
      · exact absurd rfl hne
  have hempty : (s.configure calibLoad dc calibPath gcfg fd).down = ∅ := by
    simp only [KbdSys.configure, pipelineConfigure_writes hfd]
    exact hrun _ _ h.keys fun c hc => by simpa using h.down c hc
  have hheld : (s.configure calibLoad dc calibPath gcfg fd).pipe.held = [] :=
    pipelineConfigure_held hfd
  exact ⟨by simp [hempty], by simp [hempty], by simp [hheld], by simp [hheld], h.short⟩

variable [CArith F]

/-- The invariant holds in every state of a run. -/
theorem inductive_downPinned (fd : ℕ) :
    (kbdSystem F (·.card ≤ heldMax) fd).Inductive DownPinned where
  init s h := by
    obtain ⟨hshort, hpipe, hdown, -⟩ := h
    have hheld : s.pipe.held = [] := by rw [hpipe]; rfl
    exact ⟨by simp [hdown], by simp [hdown], by simp [hheld], by simp [hheld], hshort⟩
  step s i s' h hstep := by
    cases i with
    | frame f =>
      obtain ⟨hf, rfl⟩ := hstep
      have hkeys := h.keyEvents hf
      rw [KbdSys.frame_eq]
      exact ⟨by simpa using hkeys.down, hkeys.keys, by simpa using hkeys.nodup,
        by simpa using hkeys.pressed, hkeys.short⟩
    | configure calibLoad dc calibPath gcfg =>
      obtain rfl := hstep
      exact h.configure _ _ _ _ _

/-- Every key that is down on the virtual keyboard is the code of an entry of the table, and no key
is down while no key of the remote is held. -/
theorem down_subset_held {fd : ℕ} {s : KbdSys F}
    (h : (kbdSystem F (·.card ≤ 32) fd).Reachable s) :
    (∀ c ∈ s.down, ∃ k ∈ s.pipe.held, u16 k.virt = c) ∧ (s.pressed = ∅ → s.down = ∅) := by
  have hinv := h.of_inductive (inductive_downPinned fd)
  refine ⟨hinv.down, fun hpressed => Finset.eq_empty_of_forall_notMem fun c hc => ?_⟩
  obtain ⟨k, hk, -⟩ := hinv.down c hc
  simpa [hpressed] using hinv.pressed k hk

end

/-- A pipeline before its first frame. -/
def startSys : KbdSys ℚ := ⟨pipelineInit, ∅, ∅, []⟩

/-- `KEY_UP` is pressed. -/
def pressFrame : EvdevFrame := { keys := [⟨103, 1⟩], wheel := 0 }

/-- `KEY_UP` repeats. -/
def repeatFrame : EvdevFrame := { keys := [⟨103, 2⟩], wheel := 0 }

/-- A configuration that maps `KEY_UP` to `KEY_HOME`. -/
def homeConfig : DeviceConfig ℚ :=
  { (deviceConfigInit : DeviceConfig ℚ) with
    profiles := [profileSetButton (profileInit (.lit "default")) 103 102] }

/-- The change to that configuration. -/
def homeInput : KbdInput ℚ := .configure (fun _ => .error []) homeConfig .empty ⟨1 / 5, true, 60, 400⟩

/-- The key is pressed. -/
def pressedSys : KbdSys ℚ := startSys.frame pressFrame

/-- The key is pressed, and the map changes. -/
def remappedSys : KbdSys ℚ :=
  pressedSys.configure (fun _ => .error []) homeConfig .empty ⟨1 / 5, true, 60, 400⟩ 5

/-- The key is pressed, the map changes, the key repeats. -/
def repeatedSys : KbdSys ℚ := remappedSys.frame repeatFrame

theorem down_subset_held_pressed :
    103 ∈ pressedSys.down ∧
      (∀ c ∈ pressedSys.down, ∃ k ∈ pressedSys.pipe.held, u16 k.virt = c) ∧
      (pressedSys.pressed = ∅ → pressedSys.down = ∅) :=
  ⟨by decide, @down_subset_held ℚ _ 5 _ (.step (.frame pressFrame)
    (.init (s := startSys) ⟨by decide, rfl, rfl, rfl⟩)
    ⟨⟨.inl ⟨rfl, by decide, by decide⟩, trivial⟩, rfl⟩)⟩

/-! ## No key reappears under another code -/

/-- The code that the press of a key went out with, while the key is held. -/
def pinned : List TraceEntry → ℤ → Option ℤ
  | [], _ => none
  | .configure :: tr, q => pinned tr q
  | .key phys value virt _ :: tr, q =>
    if phys = q then if value = 0 then none else if value = 1 then some virt else pinned tr q
    else pinned tr q

/-- Whether a key is held since before a change of the configuration. -/
def heldAcross : List TraceEntry → ℤ → Bool
  | [], _ => false
  | .configure :: tr, q => (pinned tr q).isSome
  | .key phys value _ _ :: tr, q =>
    if phys = q ∧ (value = 0 ∨ value = 1) then false else heldAcross tr q

/-- Between its press and its release a key goes out with the code of the press only, and after a
change of the configuration only while that code is down. -/
def NeverReappears (tr : List TraceEntry) : Prop :=
  ∀ phys value virt wasDown tr', (.key phys value virt wasDown :: tr') <:+ tr → value ≠ 0 →
    ∀ c ∈ pinned tr' phys, virt = c ∧ (heldAcross tr' phys = true → wasDown = true)

section

variable {F : Type}

/-- No key of a frame repeats that is held since before a change of the configuration. -/
def NoStaleRepeats (s : KbdSys F) : List KeyEvent → Prop
  | [] => True
  | e :: es => (e.value = 2 → heldAcross s.trace e.code = false) ∧ NoStaleRepeats (s.key e) es

/-- The condition on the inputs of a run. -/
def NoStaleRepeat (s : KbdSys F) : KbdInput F → Prop
  | .frame f => NoStaleRepeats s f.keys
  | .configure .. => True

/-- Entries have the code of the press, and a held key without an entry is still looked up to it. -/
structure PressKept (s : KbdSys F) : Prop where
  nodup : (s.pipe.held.map (·.phys)).Nodup
  entries : ∀ h ∈ s.pipe.held, ∀ c ∈ pinned s.trace h.phys, h.virt = c
  lookup : ∀ q, ∀ c ∈ pinned s.trace q, heldAcross s.trace q = false →
    (∀ h ∈ s.pipe.held, h.phys ≠ q) → mapLookup s.pipe.active.map q = c
  pressed : ∀ q, (pinned s.trace q).isSome → q ∈ s.pressed
  never : NeverReappears s.trace

theorem pinned_key_of_ne {phys value virt : ℤ} {d : Bool} {tr : List TraceEntry} {q : ℤ}
    (h : q ≠ phys) : pinned (.key phys value virt d :: tr) q = pinned tr q := by
  simp [pinned, h.symm]

theorem heldAcross_key_of_ne {phys value virt : ℤ} {d : Bool} {tr : List TraceEntry} {q : ℤ}
    (h : q ≠ phys) : heldAcross (.key phys value virt d :: tr) q = heldAcross tr q := by
  simp [heldAcross, h.symm]

variable {s : KbdSys F} {e : KeyEvent}

/-- A held key goes out with the code of its press. -/
theorem PressKept.virt_eq (h : PressKept s) {c : ℤ} (hc : c ∈ pinned s.trace e.code)
    (hacross : heldAcross s.trace e.code = false) : (pipelineKey s.pipe e).2 = c := by
  rcases pipelineKey_cases s.pipe e with ⟨l₁, k, l₂, hheld, hphys, hvirt, -⟩ | ⟨hnone, hvirt, -⟩
  · rw [hvirt]
    exact h.entries k (by simp [hheld]) c (hphys ▸ hc)
  · rw [hvirt]
    exact h.lookup _ c hc hacross hnone

/-- What the press of a key is after an event of the key. -/
theorem PressKept.pinned_key (h : PressKept s) {together : Finset ℤ → Prop}
    (he : Follows together s.pressed e)
    (hstale : e.value = 2 → heldAcross s.trace e.code = false) :
    ∀ c ∈ pinned (s.key e).trace e.code, e.value ≠ 0 ∧ (pipelineKey s.pipe e).2 = c := by
  intro c hc
  simp only [KbdSys.key, pinned, if_true] at hc
  rcases he with ⟨h1, -⟩ | ⟨h2 | h0, -⟩
  · simpa [h1] using hc
  · rw [h2] at hc
    exact ⟨by omega, h.virt_eq hc (hstale h2)⟩
  · simp [h0] at hc

/-- The invariant holds after a key event. -/
theorem PressKept.key (h : PressKept s) {together : Finset ℤ → Prop}
    (he : Follows together s.pressed e)
    (hstale : e.value = 2 → heldAcross s.trace e.code = false) : PressKept (s.key e) := by
  have hself := h.pinned_key he hstale
  have hother {q : ℤ} (hq : q ≠ e.code) : pinned (s.key e).trace q = pinned s.trace q :=
    pinned_key_of_ne hq
  have hpressed : ∀ q, (pinned (s.key e).trace q).isSome → q ∈ (s.key e).pressed := by
    intro q hq
    by_cases hqe : q = e.code
    · subst hqe
      obtain ⟨c, hc⟩ := Option.isSome_iff_exists.mp hq
      simp [KbdSys.key, pressAfter, (hself c hc).1]
    · exact mem_pressAfter_of_ne (h.pressed q (hother hqe ▸ hq)) hqe
  -- the new entry of the trace, or an older one
  have hnever : NeverReappears (s.key e).trace := by
    intro phys value virt wasDown tr' hsuffix hval c hc
    rcases List.suffix_cons_iff.mp hsuffix with heq | hsuffix
    · simp only [List.cons.injEq, TraceEntry.key.injEq] at heq
      obtain ⟨⟨rfl, rfl, rfl, rfl⟩, rfl⟩ := heq
      rcases he with ⟨-, hmem, -⟩ | ⟨h2 | h0, -⟩
      · exact absurd (h.pressed _ (by rw [Option.mem_def.mp hc]; rfl)) hmem
      · exact ⟨h.virt_eq hc (hstale h2), by simp [hstale h2]⟩
      · exact absurd h0 hval
    · exact h.never phys value virt wasDown tr' hsuffix hval c hc
  have hafter := heldAfter h.nodup e
  refine ⟨hafter.nodup, fun k hk c hc => ?_, fun q c hc hacross hq => ?_, hpressed, hnever⟩
  · by_cases hphys : k.phys = e.code
    · rw [← hafter.virt k hphys (.inr hk)]
      exact (hself c (hphys ▸ hc)).2
    · -- the entries of other keys are as they were
      exact h.entries k ((hafter.other k hphys).mp hk) c (hother hphys ▸ hc)
  · show mapLookup (pipelineKey s.pipe e).1.active.map q = c
    rw [pipelineKey_active]
    by_cases hqe : q = e.code
    · -- a held key without an entry had none before
      subst hqe
      obtain ⟨hval, hout⟩ := hself c hc
      rw [← hout, hafter.lookup]
      exact fun k hk hphys => hq k (hafter.kept hval k hk hphys) hphys
    · refine h.lookup q c (hother hqe ▸ hc) (heldAcross_key_of_ne hqe ▸ hacross) fun k hk hphys => ?_
      exact hq k ((hafter.other k (hphys ▸ hqe)).mpr hk) hphys

theorem PressKept.keyEvents {together : Finset ℤ → Prop} {es : List KeyEvent} (h : PressKept s)
    (hes : FollowsAll together s.pressed es) (hstale : NoStaleRepeats s es) :
    PressKept (es.foldl KbdSys.key s) := by
  induction es generalizing s with
  | nil => exact h
  | cons e es ih => exact ih (h.key hes.1 hstale.1) hes.2 hstale.2

variable [CArith F]

/-- The invariant holds in every state of a run that meets the condition. -/
theorem inductive_pressKept (together : Finset ℤ → Prop) (fd : ℕ) :
    ((kbdSystem F together fd).restrict NoStaleRepeat).Inductive PressKept where
  init s h := by
    obtain ⟨-, hpipe, -, htrace⟩ := h
    have hheld : s.pipe.held = [] := by rw [hpipe]; rfl
    refine ⟨by simp [hheld], by simp [hheld], by simp [htrace, pinned], by simp [htrace, pinned], ?_⟩
    intro phys value virt wasDown tr' hsuffix
    simp [htrace] at hsuffix
  step s i s' h hstep := by
    obtain ⟨hstep, hstale⟩ := hstep
    cases i with
    | frame f =>
      obtain ⟨hf, rfl⟩ := hstep
      -- event by event
      have hkeys := h.keyEvents hf hstale
      rw [KbdSys.frame_eq]
      exact ⟨by simpa using hkeys.nodup, by simpa using hkeys.entries, by simpa using hkeys.lookup,
        hkeys.pressed, hkeys.never⟩
    | configure calibLoad dc calibPath gcfg =>
      obtain rfl := hstep
      -- the table is cleared
      have hheld : (s.configure calibLoad dc calibPath gcfg fd).pipe.held = [] :=
        pipelineConfigure_held (Int.natCast_nonneg fd)
      refine ⟨by simp [hheld], by simp [hheld], fun q c hc hacross => ?_, h.pressed,
        fun phys value virt wasDown tr' hsuffix => ?_⟩
      · -- every key that is held now is held across the change
        simp only [KbdSys.configure, pinned, heldAcross] at hc hacross
        simp [Option.mem_def.mp hc] at hacross
      · rcases List.suffix_cons_iff.mp hsuffix with heq | hsuffix
        · cases heq
        · exact h.never phys value virt wasDown tr' hsuffix

/-- In the runs where no key repeats that is held since before a change of the configuration, every
key goes out with the code of its press until it is released. -/
theorem neverReappears_of_noStaleRepeat {together : Finset ℤ → Prop} {fd : ℕ} {s : KbdSys F}
    (h : ((kbdSystem F together fd).restrict NoStaleRepeat).Reachable s) :
    NeverReappears s.trace :=
  (h.of_inductive (inductive_pressKept together fd)).never

end

theorem neverReappears_remapped : NeverReappears remappedSys.trace :=
  @neverReappears_of_noStaleRepeat ℚ _ (fun _ => True) 5 _
    (.step homeInput
      (.step (.frame pressFrame) (.init (s := startSys) ⟨trivial, rfl, rfl, rfl⟩)
        ⟨⟨⟨.inl ⟨rfl, by decide, trivial⟩, trivial⟩, rfl⟩, by simp, trivial⟩)
      ⟨rfl, trivial⟩)

/-- A key that repeats after the map has changed goes out under the new map. -/
theorem repeated_reappears : ∃ s, (kbdSystem ℚ (fun _ => True) 5).Reachable s ∧
    ¬ NeverReappears s.trace := by
  have hpressed : (kbdSystem ℚ (fun _ => True) 5).Reachable pressedSys :=
    .step (.frame pressFrame) (.init (s := startSys) ⟨trivial, rfl, rfl, rfl⟩)
      ⟨⟨.inl ⟨rfl, by decide, trivial⟩, trivial⟩, rfl⟩
  have hremapped : (kbdSystem ℚ (fun _ => True) 5).Reachable remappedSys :=
    .step homeInput hpressed rfl
  have hrepeated : (kbdSystem ℚ (fun _ => True) 5).Reachable repeatedSys :=
    .step (.frame repeatFrame) hremapped ⟨⟨.inr ⟨.inl rfl, by decide⟩, trivial⟩, rfl⟩
  have htrace : repeatedSys.trace =
      [.key 103 2 102 false, .configure, .key 103 1 103 false] := by decide +kernel
  refine ⟨repeatedSys, hrepeated, fun h => ?_⟩
  have hsuffix := htrace ▸ List.suffix_refl repeatedSys.trace
  exact absurd (h 103 2 102 false _ hsuffix (by decide) 103 rfl).1 (by decide)

end Daemon
