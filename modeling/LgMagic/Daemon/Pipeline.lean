import LgMagic.Airmouse
import LgMagic.Lib.InputCore
import LgMagic.Profiles

/-!
# The frame pipeline

What the daemon does with the frames of a remote. Every key goes through the button map of the
active profile and out on the virtual keyboard, the wheel through an accumulator onto the virtual
mouse; the keys that are held are remembered with the code that they were pressed as. The samples of
the IMU move the virtual mouse. Part of `daemon_pipeline.c` and `uinput.c`.

* `pipelineConfigure`, `pipelineKeyboard`, `pipelineImu`;
* `pipelineKey_cases`: what a key event does to the table of held keys;
* `pipelineConfigure_held`, `pipelineConfigure_writes`: what a new configuration does to the keys.
-/

namespace Daemon

open CString InputCore Pointer Profiles

/-! ## Writing to a virtual device -/

/-- `uinput_key` -/
def uinputKey (code value : ℤ) : List InputEvent := [⟨evKey, u16 code, value⟩, ⟨evSyn, 0, 0⟩]

/-- `REL_WHEEL` -/
def relWheel : ℕ := 0x08

/-- `REL_WHEEL_HI_RES` -/
def relWheelHiRes : ℕ := 0x0b

/-- `uinput_scroll` -/
def uinputScroll (wheel hiRes : ℤ) : List InputEvent :=
  (if wheel ≠ 0 then [⟨evRel, relWheel, wheel⟩] else []) ++
    (if hiRes ≠ 0 then [⟨evRel, relWheelHiRes, hiRes⟩] else []) ++ [⟨evSyn, 0, 0⟩]

/-- `uinput_move` -/
def uinputMove (dx dy : ℤ) : List InputEvent := [⟨evRel, 0x00, dx⟩, ⟨evRel, 0x01, dy⟩, ⟨evSyn, 0, 0⟩]

/-- `KEY_CNT` -/
def keyCnt : ℕ := 0x300

/-- The keys of the virtual keyboard: `remote_uinput_open` declares all of them. -/
def kbdKeys (c : ℕ) : Bool := c < keyCnt

/-! ## State -/

/-- The fields of `struct config` that the pipeline reads. -/
structure GlobalConfig (F : Type) where
  lpfAlpha : F
  accelGate : Bool
  accelGateLo : F
  accelGateHi : F
  deriving DecidableEq

/-- `struct evdev_key_event` -/
structure KeyEvent where
  code : ℤ
  value : ℤ
  deriving DecidableEq

/-- `struct evdev_frame`: at most sixteen key events and the clicks of the wheel, or the sample of
an IMU. -/
structure EvdevFrame where
  keys : List KeyEvent
  wheel : ℤ
  accel : Vec3 ℤ := ⟨0, 0, 0⟩
  gyro : Vec3 ℤ := ⟨0, 0, 0⟩
  nkeys_le : keys.length ≤ 16 := by decide

/-- An entry of `held`: the key and the code that it was pressed as. -/
structure HeldKey where
  phys : ℤ
  virt : ℤ
  deriving DecidableEq

/-- The size of the table. -/
def heldMax : ℕ := 32

/-- `struct pipeline` -/
structure Pipeline (F : Type) where
  wheelAccum : F
  active : Profile F
  cal : Calib F
  haveCal : Bool
  airmouseOn : Bool
  am : Airmouse F
  gateLogged : ℤ
  held : List HeldKey
  deriving DecidableEq

section

variable {F : Type} [CNum F]

/-- A zeroed engine. -/
def airmouseZero : Airmouse F :=
  ⟨CNum.ofRat 0, .zero, .zero, false, CNum.ofRat 0, false, CNum.ofRat 0, CNum.ofRat 0,
    CNum.ofRat 0, 0, 0, false, false, .zero⟩

/-- `pipeline_init` -/
def pipelineInit : Pipeline F where
  wheelAccum := CNum.ofRat 0
  active := profileInit (.lit "resolved")
  cal := calibInitIdentity
  haveCal := false
  airmouseOn := false
  am := airmouseZero
  gateLogged := -1
  held := []

/-- The active profile of a configuration: the named one, else `default`, over the built-ins. -/
def resolveProfile (dc : DeviceConfig F) : Profile F :=
  let src := (profileFind dc dc.profile).or (profileFind dc (.lit "default"))
  match src with
  | none => profileInit (.lit "resolved")
  | some src => profileMerge (profileInit (.lit "resolved")) src

/-- The end of `pipeline_configure`: the engine with the gain of the profile or of the global
configuration. -/
def rearmAirmouse (p : Pipeline F) (dc : DeviceConfig F) (gcfg : GlobalConfig F) : Pipeline F :=
  let alpha := if p.active.hasLpf then p.active.lpfAlpha else gcfg.lpfAlpha
  let am := airmouseInit p.am alpha p.active.sensitivity
  { p with
    am := airmouseGateCfg am gcfg.accelGate gcfg.accelGateLo gcfg.accelGateHi
    airmouseOn := dc.airmouse }

/-- `pipeline_configure` with the reader of calibration files. The keys that are held are released
first, from the last entry on; a calibration that cannot be read leaves the rest configured. -/
def pipelineConfigure (calibLoad : CStr → Except Bytes (Calib F)) (p : Pipeline F)
    (dc : DeviceConfig F) (calibPath : CStr) (gcfg : GlobalConfig F) (kbdUinput : ℤ) :
    Except Bytes Unit × Pipeline F × List InputEvent :=
  let released := if 0 ≤ kbdUinput then p.held.reverse.flatMap fun h => uinputKey h.virt 0 else []
  let held := if 0 ≤ kbdUinput then [] else p.held
  let p := { p with held := held, active := resolveProfile dc }
  if calibPath = .empty then (.ok (), rearmAirmouse { p with haveCal := false } dc gcfg, released)
  else
    match calibLoad calibPath with
    | .error e => (.error e, p, released)
    | .ok cal => (.ok (), rearmAirmouse { p with cal := cal, haveCal := true } dc gcfg, released)

end

/-! ## Key events -/

/-- The loop that looks a key up in `held`: the last entry with its code. -/
def heldIdx (phys : ℤ) : List HeldKey → Option ℕ
  | [] => none
  | h :: held =>
    match heldIdx phys held with
    | some k => some (k + 1)
    | none => if h.phys = phys then some 0 else none

/-- `held[k] = held[nheld - 1]; nheld--` -/
def removeHeld (held : List HeldKey) (k : ℕ) : List HeldKey :=
  match held.getLast? with
  | none => []
  | some last => (held.set k last).dropLast

/-- The loop that looks a key up in the button map; a key without an entry stays itself. -/
def mapLookup (map : List (ℤ × ℤ)) (phys : ℤ) : ℤ :=
  ((map.find? fun m => m.1 = phys).map (·.2)).getD phys

section

variable {F : Type}

/-- One key event of a frame: the table afterwards, and the code that is emitted. -/
def pipelineKey (p : Pipeline F) (e : KeyEvent) : Pipeline F × ℤ :=
  match heldIdx e.code p.held with
  | some k =>
    -- repeat and release: what the press was mapped as
    let virt := ((p.held[k]?).map (·.virt)).getD e.code
    if e.value = 0 then ({ p with held := removeHeld p.held k }, virt) else (p, virt)
  | none =>
    let virt := mapLookup p.active.map e.code
    if e.value ≠ 0 then
      -- a fresh press is entered while there is room
      if p.held.length < heldMax then
        ({ p with held := p.held ++ [⟨e.code, virt⟩] }, virt)
      else (p, virt)
    else (p, virt)

variable [CArith F]

/-- The wheel of a frame: whole clicks go out, the rest is kept. -/
def pipelineWheel (p : Pipeline F) (wheel : ℤ) : Pipeline F × List InputEvent :=
  if wheel = 0 then (p, [])
  else
    let accum := CArith.add p.wheelAccum (CArith.mul (CNum.ofRat wheel) p.active.scrollSpeed)
    let clicks := CArith.toInt accum
    let p := { p with wheelAccum := CArith.sub accum (CNum.ofRat clicks) }
    (p, if clicks ≠ 0 then uinputScroll clicks (clicks * 120) else [])

/-- What a frame writes to the two virtual devices. -/
structure FrameWrites where
  kbd : List InputEvent
  mouse : List InputEvent
  deriving DecidableEq

/-- `pipeline_keyboard`. The source returns -1 when one of the writes fails. -/
def pipelineKeyboard (p : Pipeline F) (f : EvdevFrame) : Pipeline F × FrameWrites :=
  let (p, kbd) := f.keys.foldl (fun (p, kbd) e =>
    let (p, virt) := pipelineKey p e
    (p, kbd ++ uinputKey virt e.value)) (p, [])
  let (p, mouse) := pipelineWheel p f.wheel
  (p, ⟨kbd, mouse⟩)

/-- `pipeline_imu`: what a sample writes to the virtual mouse. -/
def pipelineImu (p : Pipeline F) (f : EvdevFrame) : Pipeline F × List InputEvent :=
  if !p.airmouseOn then (p, [])
  else
    let aRaw := f.accel.map fun x : ℤ => CNum.ofRat (x : ℚ)
    let gRaw := f.gyro.map fun x : ℤ => CNum.ofRat (x : ℚ)
    let g := if p.haveCal then (calibApply p.cal aRaw gRaw).2 else gRaw
    let (am, dx, dy) := airmouseProcess p.am g aRaw
    ({ p with am := am }, if dx ≠ 0 ∨ dy ≠ 0 then uinputMove dx dy else [])

end

/-! ## The table of held keys -/

theorem heldIdx_eq_none {phys : ℤ} {held : List HeldKey} :
    heldIdx phys held = none ↔ ∀ h ∈ held, h.phys ≠ phys := by
  induction held with
  | nil => simp [heldIdx]
  | cons h held ih =>
    rw [heldIdx]
    cases hk : heldIdx phys held with
    | none => simpa [hk] using fun _ => ih.mp hk
    | some k =>
      have hne : heldIdx phys held ≠ none := by simp [hk]
      have hex : ¬ ∀ h ∈ held, h.phys ≠ phys := fun h' => hne (ih.mpr h')
      simpa using fun _ => by simpa using hex

/-- Where a key is found in the table. -/
theorem heldIdx_eq_some {phys : ℤ} {held : List HeldKey} {k : ℕ} (h : heldIdx phys held = some k) :
    ∃ l₁ e l₂, held = l₁ ++ e :: l₂ ∧ k = l₁.length ∧ e.phys = phys := by
  induction held generalizing k with
  | nil => simp [heldIdx] at h
  | cons e held ih =>
    rw [heldIdx] at h
    cases hk : heldIdx phys held with
    | none =>
      simp only [hk] at h
      split_ifs at h with hphys
      exact ⟨[], e, held, rfl, (Option.some.inj h).symm, hphys⟩
    | some j =>
      simp only [hk, Option.some.injEq] at h
      obtain ⟨l₁, e', l₂, rfl, rfl, hphys⟩ := ih hk
      exact ⟨e :: l₁, e', l₂, rfl, h.symm, hphys⟩

/-- Removing an entry keeps the others, in some order. -/
theorem removeHeld_perm (l₁ l₂ : List HeldKey) (e : HeldKey) :
    (removeHeld (l₁ ++ e :: l₂) l₁.length).Perm (l₁ ++ l₂) := by
  rcases List.eq_nil_or_concat l₂ with rfl | ⟨l, z, rfl⟩
  · simp [removeHeld]
  · have hset : (l₁ ++ e :: (l ++ [z])).set l₁.length z = (l₁ ++ z :: l) ++ [z] := by simp
    have hlast : (l₁ ++ e :: (l ++ [z])).getLast? = some z := by
      rw [show l₁ ++ e :: (l ++ [z]) = (l₁ ++ e :: l) ++ [z] by simp, List.getLast?_concat]
    simp only [removeHeld, List.concat_eq_append, hlast, hset, List.dropLast_concat]
    exact (List.perm_append_left_iff l₁).mpr (List.perm_append_singleton z l).symm

/-! ## What a key event does -/

section

variable {F : Type} {p : Pipeline F} {e : KeyEvent}

/-- A key event with an entry repeats the code of the entry, and a release removes it. A key event
without one is looked up in the map, and a press or repeat is entered while there is room. -/
theorem pipelineKey_cases (p : Pipeline F) (e : KeyEvent) :
    (∃ l₁ h l₂, p.held = l₁ ++ h :: l₂ ∧ h.phys = e.code ∧ (pipelineKey p e).2 = h.virt ∧
      ((e.value = 0 ∧ (pipelineKey p e).1.held.Perm (l₁ ++ l₂)) ∨
        (e.value ≠ 0 ∧ (pipelineKey p e).1.held = p.held))) ∨
    ((∀ h ∈ p.held, h.phys ≠ e.code) ∧ (pipelineKey p e).2 = mapLookup p.active.map e.code ∧
      ((e.value ≠ 0 ∧ p.held.length < heldMax ∧
        (pipelineKey p e).1.held = p.held ++ [⟨e.code, (pipelineKey p e).2⟩]) ∨
        ((e.value = 0 ∨ heldMax ≤ p.held.length) ∧ (pipelineKey p e).1.held = p.held))) := by
  unfold pipelineKey
  cases hidx : heldIdx e.code p.held with
  | some k =>
    obtain ⟨l₁, h, l₂, hheld, rfl, hphys⟩ := heldIdx_eq_some hidx
    refine .inl ⟨l₁, h, l₂, hheld, hphys, ?_⟩
    by_cases hval : e.value = 0
    · simpa [hval, hheld] using removeHeld_perm l₁ l₂ h
    · simp [hval, hheld]
  | none =>
    refine .inr ⟨heldIdx_eq_none.mp hidx, ?_⟩
    by_cases hval : e.value = 0
    · simp [hval]
    · by_cases hlen : p.held.length < heldMax
      · simp [hval, hlen]
      · simp [hval, hlen]
        omega

/-- A key event leaves the map as it is. -/
@[simp]
theorem pipelineKey_active (p : Pipeline F) (e : KeyEvent) :
    (pipelineKey p e).1.active = p.active := by
  unfold pipelineKey
  split <;> split_ifs <;> rfl

/-- A new configuration empties the table, whether the calibration can be read or not. -/
theorem pipelineConfigure_held [CNum F] {calibLoad : CStr → Except Bytes (Calib F)}
    {dc : DeviceConfig F} {calibPath : CStr} {gcfg : GlobalConfig F} {kbdUinput : ℤ}
    (h : 0 ≤ kbdUinput) :
    (pipelineConfigure calibLoad p dc calibPath gcfg kbdUinput).2.1.held = [] := by
  simp only [pipelineConfigure, if_pos h]
  split_ifs
  · rfl
  · split <;> rfl

/-- A new configuration releases the keys of the table. -/
theorem pipelineConfigure_writes [CNum F] {calibLoad : CStr → Except Bytes (Calib F)}
    {dc : DeviceConfig F} {calibPath : CStr} {gcfg : GlobalConfig F} {kbdUinput : ℤ}
    (h : 0 ≤ kbdUinput) : (pipelineConfigure calibLoad p dc calibPath gcfg kbdUinput).2.2 =
      p.held.reverse.flatMap fun h => uinputKey h.virt 0 := by
  simp only [pipelineConfigure, if_pos h]
  split_ifs
  · rfl
  · split <;> rfl

variable [CArith F]

@[simp]
theorem pipelineWheel_held (p : Pipeline F) (wheel : ℤ) : (pipelineWheel p wheel).1.held = p.held := by
  unfold pipelineWheel
  split_ifs <;> rfl

@[simp]
theorem pipelineWheel_active (p : Pipeline F) (wheel : ℤ) :
    (pipelineWheel p wheel).1.active = p.active := by
  unfold pipelineWheel
  split_ifs <;> rfl

end

end Daemon
