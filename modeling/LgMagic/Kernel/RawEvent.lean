import LgMagic.Airmouse
import LgMagic.Kernel.Probe
import LgMagic.Lib.InputCore
import LgMagic.Lib.Transition

/-!
# The reports of the remote

What `lgmagic_raw_event` makes of a HID report: the key of a button, the steps of the wheel and the
movement of the pointer go to the keyboard device, the samples of the sensors to the IMU. The code
of a button depends on the module parameters, which may change between reports, and on the mode of
the pointer; the driver keeps the code that it pressed and releases that one.

* `lgmagicRawEvent`: one report;
* `rawSystem`: the driver and the keys that are down on its keyboard, report after report;
* `inductive_oneKeyDown`: no key is down but the last one that was pressed;
* `keysDown_rawSystem`: the keys that are down in every run, and in raw mode.
-/

namespace Kernel

open InputCore Pointer

/-! ## Codes -/

/-- `EV_ABS` -/
def evAbs : ℕ := 0x03

/-- `EV_MSC` -/
def evMsc : ℕ := 0x04

/-- `REL_WHEEL` -/
def relWheel : ℕ := 0x08

/-- `KEY_RESERVED` -/
def keyReserved : ℕ := 0

/-- `KEY_UP` -/
def keyUp : ℕ := 103

/-- `KEY_DOWN` -/
def keyDown : ℕ := 108

/-- `BTN_LEFT` -/
def btnLeft : ℕ := 0x110

/-- `KEY_MAX` -/
def keyMax : ℕ := 0x2ff

/-- `LGMAGIC_CODE_WHEEL` -/
def codeWheel : ℕ := 0x8044

/-- `LGMAGIC_CODE_MODELDEP` -/
def codeModeldep : ℕ := 0x8000

/-- `lg_btn_map`: the codes of the buttons and their keycodes. -/
def lgBtnMap : List (ℕ × ℕ) :=
  [(codeModeldep, 116), -- KEY_POWER
    (0x8099, 142), -- KEY_SLEEP
    (0x8010, 11), (0x8011, 2), (0x8012, 3), -- KEY_0, KEY_1, KEY_2
    (0x8013, 4), (0x8014, 5), (0x8015, 6), -- KEY_3, KEY_4, KEY_5
    (0x8016, 7), (0x8017, 8), (0x8018, 9), (0x8019, 10), -- KEY_6, KEY_7, KEY_8, KEY_9
    (codeWheel, 28), -- KEY_ENTER
    (codeWheel, btnLeft),
    (0x8053, 395), -- KEY_LIST
    (0x8045, 139), -- KEY_MENU
    (0x8002, 115), -- KEY_VOLUMEUP
    (0x8003, 114), -- KEY_VOLUMEDOWN
    (0x8009, 113), -- KEY_MUTE
    (0x808B, 582), -- KEY_VOICECOMMAND
    (0x807C, 102), -- KEY_HOME
    (0x8043, 141), -- KEY_SETUP
    (0x8028, 158), -- KEY_BACK
    (0x80AB, 362), -- KEY_PROGRAM
    (0x805D, 226), -- KEY_MEDIA
    (0x800B, 377), -- KEY_TV
    (0x8098, 438), -- KEY_CONTEXT_MENU
    (0x8001, 403), -- KEY_CHANNELDOWN
    (0x8072, 398), -- KEY_RED
    (0x8071, 399), -- KEY_GREEN
    (0x8063, 400), -- KEY_YELLOW
    (0x8061, 401), -- KEY_BLUE
    (0x8081, 393), -- KEY_VIDEO
    (0x80B0, 207), -- KEY_PLAY
    (0x80BA, 119), -- KEY_PAUSE
    (0x8040, keyUp),
    (0x8041, keyDown),
    (0x8006, 106), -- KEY_RIGHT
    (0x8007, 105)] -- KEY_LEFT

/-- `lgmagic_btn_keycode` for the value of the parameter `key_0x8000`. -/
def lgmagicBtnKeycode (key0x8000 : ℤ) (code keycode : ℕ) : ℕ :=
  if code = codeModeldep ∧ 0 ≤ key0x8000 ∧ key0x8000 ≤ keyMax then key0x8000.toNat else keycode

/-- The keys of the keyboard that `lgmagic_probe` registers, for the value of `key_0x8000` then; the
input core takes `KEY_RESERVED` out. -/
def hidKeys (key0x8000 : ℤ) (c : ℕ) : Bool :=
  c ≠ keyReserved && lgBtnMap.any fun b => lgmagicBtnKeycode key0x8000 b.1 b.2 = c

/-! ## State -/

/-- The module parameters that a report is handled by. -/
structure ReportParams extends ModuleParams where
  airmouse : Bool
  airmouseThreshold : ℤ
  key0x8000 : ℤ

/-- `struct lgmagic_airmouse_calib` -/
structure AirmouseCalib (F : Type) where
  gyroBias : Vec3 F
  gyroScale : Vec3 F
  alpha : F
  mouseK : F

/-- `struct lgmagic_drvdata`; of the input devices, whether they are there. -/
structure Drvdata (F : Type) where
  inputHid : Bool
  inputImu : Bool
  lastKeycode : ℕ
  lastBtncode : ℕ
  gyroAcc : Vec3 F
  mode : Bool
  calib : AirmouseCalib F

/-! ## The airmouse of the driver -/

section

variable {F : Type} [CArith F]

/-- `lgmagic_fabs` -/
def lgmagicFabs (x : F) : F := if CNum.lt x (CNum.ofRat 0) then CArith.neg x else x

/-- `lgmagic_calc_mouse`: the filtered rates, the movement and whether it is a big one. -/
def lgmagicCalcMouse (calib : AirmouseCalib F) (gyroAcc : Vec3 F) (threshold : ℕ) (gyro : Vec3 ℤ) :
    Vec3 F × (ℤ × ℤ) × Bool :=
  let rate : Vec3 F := gyro.map fun x : ℤ => CNum.ofRat x
  let corr := (rate.zipWith CArith.sub calib.gyroBias).zipWith CArith.mul calib.gyroScale
  let acc := (corr.map (CArith.mul calib.alpha)).zipWith CArith.add
    (gyroAcc.map (CArith.mul (CArith.sub (CNum.ofRat 1) calib.alpha)))
  let move (rate : F) := CArith.toInt (CArith.mul rate calib.mouseK)
  (acc, (move acc.z, move acc.x),
    CNum.lt (CNum.ofRat threshold) (lgmagicFabs acc.x) ||
      CNum.lt (CNum.ofRat threshold) (lgmagicFabs acc.z))

/-! ## One report -/

/-- A byte of the report. -/
def byteAt (data : List UInt8) (i : ℕ) : ℕ := (data.getD i 0).toNat

/-- `s8` -/
def s8 (x : ℕ) : ℤ := if x < 128 then x else x - 256

/-- `s16`, from the high and the low byte. -/
def s16 (hi lo : ℕ) : ℤ := if hi * 256 + lo < 32768 then hi * 256 + lo else hi * 256 + lo - 65536

/-- `input_report_key` -/
def reportKey (code : ℕ) (value : ℤ) : InputEvent := ⟨evKey, code, value⟩

/-- The button of a report: the last key is released when the code has changed, and the key of the
new code is pressed. -/
def reportButton (params : ReportParams) (d : Drvdata F) (btnCode : ℕ) :
    Drvdata F × List InputEvent :=
  if btnCode = d.lastBtncode then (d, [])
  else
    let release := reportKey d.lastKeycode 0
    let d := { d with lastKeycode := 0, lastBtncode := btnCode }
    if btnCode = 0 then (d, [release])
    else
      match lgBtnMap.find? fun b => b.1 = btnCode with
      | none => (d, [release])
      | some (code, keycode) =>
        -- the press of the wheel is a click while the pointer is in use
        let (mode, keycode) :=
          if code = codeWheel ∧ d.mode ∧ !params.rawOnly then (d.mode, btnLeft)
          else (false, lgmagicBtnKeycode params.key0x8000 code keycode)
        ({ d with mode := mode, lastKeycode := keycode }, [release, reportKey keycode 1])

/-- The wheel of a report. -/
def reportWheel (params : ReportParams) (mode : Bool) (wheel : ℤ) : List InputEvent :=
  if wheel = 0 then []
  else if params.rawOnly || mode then [⟨evRel, relWheel, wheel⟩]
  else
    let key := if 0 < wheel then keyUp else keyDown
    [reportKey key 1, reportKey key 0]

/-- The movement of the pointer. -/
def reportPointer (params : ReportParams) (d : Drvdata F) (gyro : Vec3 ℤ) :
    Drvdata F × (ℤ × ℤ) × List InputEvent :=
  if params.airmouse && !params.rawOnly then
    let (acc, mouse, bigmove) :=
      lgmagicCalcMouse d.calib d.gyroAcc (params.airmouseThreshold % 65536).toNat gyro
    let d := { d with gyroAcc := acc, mode := d.mode || bigmove }
    (d, mouse, if d.mode then [⟨evRel, 0, mouse.1⟩, ⟨evRel, 1, mouse.2⟩] else [])
  else (d, (0, 0), [])

/-- The samples of the sensors. -/
def reportImu (counter : ℕ) (gyro accel : Vec3 ℤ) : List InputEvent :=
  [⟨evMsc, 0, counter⟩, ⟨evAbs, 0, accel.x⟩, ⟨evAbs, 1, accel.y⟩, ⟨evAbs, 2, accel.z⟩,
    ⟨evAbs, 3, gyro.x⟩, ⟨evAbs, 4, gyro.y⟩, ⟨evAbs, 5, gyro.z⟩, ⟨evSyn, 0, 0⟩]

/-- `size != 20 || data[0] != 0xFD`: another report than the driver's. -/
def unknownReport (data : List UInt8) : Bool := data.length ≠ 20 || byteAt data 0 ≠ 0xFD

/-- The button code of a report. -/
def btnCodeOf (data : List UInt8) : ℕ := byteAt data 17 * 256 + byteAt data 18

/-- `lgmagic_raw_event`: the events of the keyboard device and those of the IMU. -/
def lgmagicRawEvent (params : ReportParams) (d : Drvdata F) (data : List UInt8) :
    Drvdata F × List InputEvent × List InputEvent :=
  if !d.inputHid || !d.inputImu then (d, [], [])
  else if unknownReport data then (d, [], [])
  else
    let wheel := s8 (byteAt data 19)
    let counter := byteAt data 1 + byteAt data 2 * 256
    let imu (i : ℕ) := s16 (byteAt data (5 + 2 * i)) (byteAt data (6 + 2 * i))
    let gyro : Vec3 ℤ := ⟨imu 0, imu 1, imu 2⟩
    let changed : Bool := btnCodeOf data ≠ d.lastBtncode
    let (d, button) := reportButton params d (btnCodeOf data)
    let wheelEvents := reportWheel params d.mode wheel
    let (d, mouse, pointer) := reportPointer params d gyro
    let reporting := changed || decide (wheel ≠ 0) || decide (mouse ≠ (0, 0))
    (d, button ++ wheelEvents ++ pointer ++ (if reporting then [⟨evSyn, 0, 0⟩] else []),
      if params.imuEvdev || params.rawOnly then reportImu counter gyro ⟨imu 3, imu 4, imu 5⟩
      else [])

end

/-! ## Runs -/

/-- The driver of a remote and the keys that are down on its keyboard, with the button code of the
last report. -/
structure RawSys (F : Type) where
  drvdata : Drvdata F
  down : Finset ℕ
  lastCode : ℕ

/-- A report, and the parameters that are set while it is handled. -/
structure RawInput where
  params : ReportParams
  data : List UInt8

section

variable {F : Type} [CArith F]

/-- The system after a report. -/
def RawSys.report (keys : ℕ → Bool) (s : RawSys F) (i : RawInput) : RawSys F where
  drvdata := (lgmagicRawEvent i.params s.drvdata i.data).1
  down := writeEvents keys s.down (lgmagicRawEvent i.params s.drvdata i.data).2.1
  lastCode := if unknownReport i.data then s.lastCode else btnCodeOf i.data

/-- The runs after a probe with the given value of `key_0x8000`. -/
def rawSystem (F : Type) [CArith F] (key0x8000 : ℤ) : TransitionSystem (RawSys F) RawInput where
  init s := s.drvdata.inputHid ∧ s.drvdata.inputImu ∧ s.drvdata.lastKeycode = 0 ∧
    s.drvdata.lastBtncode = 0 ∧ s.drvdata.mode = false ∧ s.down = ∅ ∧ s.lastCode = 0
  step s i s' := s' = s.report (hidKeys key0x8000) i

/-- A code that no button has. -/
def Unmapped (code : ℕ) : Prop := ∀ b ∈ lgBtnMap, b.1 ≠ code

/-! ### The parts of a report -/

variable {keys : ℕ → Bool} {down : Finset ℕ}

omit [CArith F] in
/-- What the button of a report does: nothing while its code stays, else the last key goes up, and
the key of the new code goes down where it has one. -/
theorem reportButton_cases (params : ReportParams) (d : Drvdata F) (code : ℕ) :
    (code = d.lastBtncode ∧ reportButton params d code = (d, [])) ∨
    ((code = 0 ∨ Unmapped code) ∧ reportButton params d code =
      ({ d with lastKeycode := 0, lastBtncode := code }, [reportKey d.lastKeycode 0])) ∨
    ∃ mode keycode, ¬ Unmapped code ∧ code ≠ 0 ∧
      (params.rawOnly = true →
        ∃ b ∈ lgBtnMap, keycode = lgmagicBtnKeycode params.key0x8000 b.1 b.2) ∧
      reportButton params d code =
        ({ d with mode := mode, lastKeycode := keycode, lastBtncode := code },
          [reportKey d.lastKeycode 0, reportKey keycode 1]) := by
  rw [reportButton]
  split_ifs with hsame hzero
  · exact .inl ⟨hsame, rfl⟩
  · exact .inr (.inl ⟨.inl hzero, rfl⟩)
  · cases hfind : lgBtnMap.find? fun b => b.1 = code with
    | none =>
      refine .inr (.inl ⟨.inr fun b hb heq => ?_, rfl⟩)
      simpa [heq] using List.find?_eq_none.mp hfind b hb
    | some b =>
      have hb := List.mem_of_find?_eq_some hfind
      have hcode : b.1 = code := by simpa using List.find?_some hfind
      let r := if b.1 = codeWheel ∧ d.mode ∧ !params.rawOnly then (d.mode, btnLeft)
        else (false, lgmagicBtnKeycode params.key0x8000 b.1 b.2)
      refine .inr (.inr ⟨r.1, r.2, fun h => h b hb hcode, hzero, fun hraw => ⟨b, hb, ?_⟩, rfl⟩)
      exact congrArg Prod.snd (if_neg (by simp [hraw]))

/-- A key that is alone down goes up. -/
theorem writeEvent_release_eq_empty {c : ℕ} (hdown : ∀ x ∈ down, x = c)
    (hkeys : ∀ x ∈ down, keys x = true) : writeEvent keys down (reportKey c 0) = ∅ := by
  refine Finset.eq_empty_of_forall_notMem fun x hx => ?_
  rcases mem_of_mem_writeEvent hx with hmem | ⟨-, hne, -⟩
  · obtain rfl := hdown x hmem
    exact notMem_writeEvent_release hkeys hx
  · exact hne rfl

/-- A press with no key down. -/
theorem writeEvent_press_empty (keys : ℕ → Bool) (c : ℕ) :
    writeEvent keys ∅ (reportKey c 1) = if keys c then {c} else ∅ := by
  simp [writeEvent, reportKey]

/-- The step of the wheel leaves no key down that was not. -/
theorem writeEvents_reportWheel_subset (params : ReportParams) (mode : Bool) (wheel : ℤ) :
    writeEvents keys down (reportWheel params mode wheel) ⊆ down := by
  have hstep (c : ℕ) : writeEvents keys down [reportKey c 1, reportKey c 0] ⊆ down := by
    intro x hx
    rw [writeEvents_cons, writeEvents_cons, writeEvents_nil] at hx
    unfold writeEvent at hx
    split_ifs at hx
    all_goals simp_all [reportKey]
  rw [reportWheel]
  split_ifs
  · exact subset_rfl
  · exact (writeEvents_of_type_ne (by simp [evRel, evKey])).subset
  · exact hstep _
  · exact hstep _

/-- In raw mode the wheel presses no key. -/
theorem writeEvents_reportWheel_raw {params : ReportParams} (h : params.rawOnly = true)
    (mode : Bool) (wheel : ℤ) : writeEvents keys down (reportWheel params mode wheel) = down := by
  rw [reportWheel, h, Bool.true_or, if_pos rfl]
  split_ifs
  · rfl
  · exact writeEvents_of_type_ne (by simp [evRel, evKey])

/-- The movement of the pointer leaves the buttons alone. -/
theorem reportPointer_fields (params : ReportParams) (d : Drvdata F) (gyro : Vec3 ℤ) :
    let d' := (reportPointer params d gyro).1
    d'.inputHid = d.inputHid ∧ d'.inputImu = d.inputImu ∧ d'.lastKeycode = d.lastKeycode ∧
      d'.lastBtncode = d.lastBtncode ∧
      ∀ ev ∈ (reportPointer params d gyro).2.2, ev.type ≠ evKey := by
  rw [reportPointer]
  split_ifs
  · refine ⟨rfl, rfl, rfl, rfl, ?_⟩
    dsimp only
    split_ifs <;> simp [evRel, evKey]
  · exact ⟨rfl, rfl, rfl, rfl, by simp⟩

/-- What a report does to the buttons and the keys: its button code and then its wheel. -/
theorem lgmagicRawEvent_buttons (keys : ℕ → Bool) (down : Finset ℕ) (params : ReportParams)
    {d : Drvdata F} {data : List UInt8} (hhid : d.inputHid = true) (himu : d.inputImu = true)
    (hdata : unknownReport data = false) :
    let r := lgmagicRawEvent params d data
    let b := reportButton params d (btnCodeOf data)
    r.1.inputHid = b.1.inputHid ∧ r.1.inputImu = b.1.inputImu ∧
      r.1.lastKeycode = b.1.lastKeycode ∧ r.1.lastBtncode = b.1.lastBtncode ∧
      writeEvents keys down r.2.1 = writeEvents keys (writeEvents keys down b.2)
        (reportWheel params b.1.mode (s8 (byteAt data 19))) := by
  intro r b
  obtain ⟨h₁, h₂, h₃, h₄, hpointer⟩ := reportPointer_fields params b.1
    ⟨s16 (byteAt data (5 + 2 * 0)) (byteAt data (6 + 2 * 0)),
      s16 (byteAt data (5 + 2 * 1)) (byteAt data (6 + 2 * 1)),
      s16 (byteAt data (5 + 2 * 2)) (byteAt data (6 + 2 * 2))⟩
  have hr : r = lgmagicRawEvent params d data := rfl
  simp only [lgmagicRawEvent, hhid, himu, hdata, Bool.not_true, Bool.or_self, Bool.false_eq_true,
    if_false] at hr
  rw [hr]
  refine ⟨h₁, h₂, h₃, h₄, ?_⟩
  dsimp only
  rw [writeEvents_append, writeEvents_append, writeEvents_append, writeEvents_of_type_ne hpointer]
  split_ifs
  · rw [writeEvents_cons, writeEvents_nil, writeEvent_of_type_ne (by decide)]
  · rfl

/-! ### The invariant -/

/-- No key is down but the last one that was pressed, and that one belongs to a button that is
pressed. -/
structure OneKeyDown (keys : ℕ → Bool) (s : RawSys F) : Prop where
  hid : s.drvdata.inputHid = true
  imu : s.drvdata.inputImu = true
  code : s.lastCode = s.drvdata.lastBtncode
  down : ∀ c ∈ s.down, c = s.drvdata.lastKeycode
  keys : ∀ c ∈ s.down, keys c = true
  unmapped : s.drvdata.lastBtncode = 0 ∨ Unmapped s.drvdata.lastBtncode →
    s.drvdata.lastKeycode = 0

/-- A report that is not the driver's changes nothing. -/
theorem report_unknown {s : RawSys F} {i : RawInput} (h : unknownReport i.data = true) :
    s.report keys i = s := by
  simp [RawSys.report, lgmagicRawEvent, h]

/-- The invariant holds after a report. -/
theorem OneKeyDown.report {s : RawSys F} (h : OneKeyDown keys s) (i : RawInput) :
    OneKeyDown keys (s.report keys i) := by
  cases hdata : unknownReport i.data with
  | true => rwa [report_unknown hdata]
  | false =>
    obtain ⟨hhid, himu, hkeycode, hbtncode, hwrite⟩ :=
      lgmagicRawEvent_buttons keys s.down i.params h.hid h.imu hdata
    have hsub : (s.report keys i).down ⊆
        writeEvents keys s.down (reportButton i.params s.drvdata (btnCodeOf i.data)).2 := by
      simp only [RawSys.report, hwrite]
      exact writeEvents_reportWheel_subset _ _ _
    have hcode : (s.report keys i).lastCode = btnCodeOf i.data := by simp [RawSys.report, hdata]
    -- the same button again, a button without a key, or a button with one: the key before is
    -- released
    rcases reportButton_cases i.params s.drvdata (btnCodeOf i.data) with
      ⟨hsame, hb⟩ | ⟨hnone, hb⟩ | ⟨mode, k, hmapped, hne, -, hb⟩
    · rw [hb] at hhid himu hkeycode hbtncode hsub
      refine ⟨hhid.trans h.hid, himu.trans h.imu, ?_, fun c hc => ?_, fun c hc => ?_, fun hc => ?_⟩
      · rw [hcode, hsame]
        exact hbtncode.symm
      · exact (h.down c (hsub hc)).trans hkeycode.symm
      · exact h.keys c (hsub hc)
      · exact hkeycode.trans (h.unmapped (hbtncode ▸ hc))
    · rw [hb] at hhid himu hkeycode hbtncode hsub
      rw [writeEvents_cons, writeEvents_nil, writeEvent_release_eq_empty h.down h.keys] at hsub
      have hempty := Finset.subset_empty.mp hsub
      exact ⟨hhid.trans h.hid, himu.trans h.imu, hcode.trans hbtncode.symm, by simp [hempty],
        by simp [hempty], fun _ => hkeycode⟩
    · rw [hb] at hhid himu hkeycode hbtncode hsub
      rw [writeEvents_cons, writeEvents_cons, writeEvents_nil,
        writeEvent_release_eq_empty h.down h.keys, writeEvent_press_empty] at hsub
      have hdown {c : ℕ} (hc : c ∈ (s.report keys i).down) : c = k ∧ keys k = true := by
        have hc := hsub hc
        split_ifs at hc with hk
        · exact ⟨Finset.mem_singleton.mp hc, hk⟩
        · simp at hc
      refine ⟨hhid.trans h.hid, himu.trans h.imu, hcode.trans hbtncode.symm, fun c hc => ?_,
        fun c hc => ?_, fun hc => ?_⟩
      · exact (hdown hc).1.trans hkeycode.symm
      · rw [(hdown hc).1]
        exact (hdown hc).2
      · rw [RawSys.report, hbtncode] at hc
        exact absurd hc (not_or.mpr ⟨hne, hmapped⟩)

/-- The invariant holds in every state of a run. -/
theorem inductive_oneKeyDown (key0x8000 : ℤ) :
    (rawSystem F key0x8000).Inductive (OneKeyDown (hidKeys key0x8000)) where
  init s h := by
    obtain ⟨hhid, himu, hkeycode, hbtncode, -, hdown, hcode⟩ := h
    exact ⟨hhid, himu, hcode.trans hbtncode.symm, by simp [hdown], by simp [hdown],
      fun _ => hkeycode⟩
  step s i s' h hstep := by
    obtain rfl := hstep
    exact h.report i

/-! ### Raw mode -/

/-- A report that is handled in raw mode with the keycode of the probe. -/
def RawMode (key0x8000 : ℤ) (i : RawInput) : Prop :=
  i.params.rawOnly = true ∧ i.params.key0x8000 = key0x8000

/-- Besides, the last key that was pressed is down. -/
structure LastKeyDown (keys : ℕ → Bool) (s : RawSys F) : Prop extends OneKeyDown keys s where
  last : s.drvdata.lastKeycode ≠ 0 → s.drvdata.lastKeycode ∈ s.down

theorem LastKeyDown.report {key0x8000 : ℤ} {s : RawSys F}
    (h : LastKeyDown (hidKeys key0x8000) s) {i : RawInput} (hi : RawMode key0x8000 i) :
    LastKeyDown (hidKeys key0x8000) (s.report (hidKeys key0x8000) i) := by
  obtain ⟨hraw, hkey⟩ := hi
  refine ⟨h.toOneKeyDown.report i, fun hlast => ?_⟩
  cases hdata : unknownReport i.data with
  | true =>
    rw [report_unknown hdata] at hlast ⊢
    exact h.last hlast
  | false =>
    obtain ⟨-, -, hkeycode, -, hwrite⟩ :=
      lgmagicRawEvent_buttons (hidKeys key0x8000) s.down i.params h.hid h.imu hdata
    rw [writeEvents_reportWheel_raw hraw] at hwrite
    simp only [RawSys.report, hwrite, hkeycode] at hlast ⊢
    rcases reportButton_cases i.params s.drvdata (btnCodeOf i.data) with
      ⟨-, hb⟩ | ⟨-, hb⟩ | ⟨mode, k, -, -, htable, hb⟩
    · rw [hb] at hlast ⊢
      exact h.last hlast
    · rw [hb] at hlast
      exact absurd rfl hlast
    · rw [hb] at hlast ⊢
      -- the keys of the table were declared by the probe
      have hk : hidKeys key0x8000 k = true := by
        obtain ⟨b, hmem, rfl⟩ := htable hraw
        simp only [hidKeys, Bool.and_eq_true, decide_eq_true_eq, List.any_eq_true]
        exact ⟨hlast, b, hmem, by rw [hkey]⟩
      rw [writeEvents_cons, writeEvents_cons, writeEvents_nil,
        writeEvent_release_eq_empty h.down h.keys, writeEvent_press_empty, if_pos hk]
      exact Finset.mem_singleton_self k

/-- The invariant holds in every state of a run in raw mode. -/
theorem inductive_lastKeyDown (key0x8000 : ℤ) :
    ((rawSystem F key0x8000).restrict fun _ => RawMode key0x8000).Inductive
      (LastKeyDown (hidKeys key0x8000)) where
  init s h := ⟨(inductive_oneKeyDown key0x8000).init s h, fun hne => absurd h.2.2.1 hne⟩
  step s i s' h hstep := by
    obtain ⟨rfl, hi⟩ := hstep
    exact h.report hi

/-- Whatever the reports are and however the parameters change, every key that is down is the last
one that was pressed, and none is while the last report has no button of the table. In raw mode,
with the keycode of the probe, the last key that was pressed is down. -/
theorem keysDown_rawSystem (key0x8000 : ℤ) :
    (∀ s : RawSys F, (rawSystem F key0x8000).Reachable s →
      (∀ c ∈ s.down, c = s.drvdata.lastKeycode) ∧
        (s.lastCode = 0 ∨ Unmapped s.lastCode → s.down = ∅)) ∧
    (∀ s : RawSys F, ((rawSystem F key0x8000).restrict fun _ => RawMode key0x8000).Reachable s →
      s.down = if s.drvdata.lastKeycode = 0 then ∅ else {s.drvdata.lastKeycode}) := by
  -- `KEY_RESERVED` is never down
  have hzero {s : RawSys F} (h : OneKeyDown (hidKeys key0x8000) s)
      (hlast : s.drvdata.lastKeycode = 0) : s.down = ∅ := by
    refine Finset.eq_empty_of_forall_notMem fun c hc => ?_
    have hkey := h.keys c hc
    rw [h.down c hc, hlast] at hkey
    exact absurd hkey (by simp [hidKeys, keyReserved])
  constructor
  · intro s hs
    have h := hs.of_inductive (inductive_oneKeyDown key0x8000)
    exact ⟨h.down, fun hcode => hzero h (h.unmapped (h.code ▸ hcode))⟩
  · intro s hs
    have h := hs.of_inductive (inductive_lastKeyDown key0x8000)
    split_ifs with hlast
    · exact hzero h.toOneKeyDown hlast
    · exact Finset.eq_singleton_iff_unique_mem.mpr ⟨h.last hlast, h.down⟩

end

/-- The driver after the probe. -/
def probedSys : RawSys ℚ where
  drvdata := ⟨true, true, 0, 0, .zero, false, ⟨.zero, .zero, 0, 0⟩⟩
  down := ∅
  lastCode := 0

/-- A report in raw mode with the code of `KEY_UP` and a step of the wheel. -/
def upReport : RawInput where
  params := ⟨⟨false, true⟩, true, 300, 116⟩
  data := [0xFD, 0, 0, 0, 0, 0, 0, 0, 0, 0, 0, 0, 0, 0, 0, 0, 0, 0x80, 0x40, 1]

theorem keysDown_upReport :
    let s := probedSys.report (hidKeys 116) upReport
    ((∀ c ∈ s.down, c = s.drvdata.lastKeycode) ∧
        (s.lastCode = 0 ∨ Unmapped s.lastCode → s.down = ∅)) ∧
      s.down = if s.drvdata.lastKeycode = 0 then ∅ else {s.drvdata.lastKeycode} :=
  ⟨(@keysDown_rawSystem ℚ _ 116).1 _
      (.step upReport (.init ⟨rfl, rfl, rfl, rfl, rfl, rfl, rfl⟩) rfl),
    (@keysDown_rawSystem ℚ _ 116).2 _
      (.step upReport (.init ⟨rfl, rfl, rfl, rfl, rfl, rfl, rfl⟩) ⟨rfl, rfl, rfl⟩)⟩

end Kernel
