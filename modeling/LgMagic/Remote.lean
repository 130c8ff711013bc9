import LgMagic.Daemon.HeldKeys
import LgMagic.Evdev.Queue
import LgMagic.Kernel.RawEvent
import LgMagic.Lib.InputDevice

/-!
# The remote from its reports to the virtual devices

The driver, the input core, the frames of the daemon and its pipeline as one system. The driver
handles a report when it comes, and the daemon reads when it gets to it; what was sent and not read
yet waits in the two queues. Reports, repeats, reads and new configurations come in any order. The
queues are long enough for what waits.

* `RemoteSys`, `remoteSystem`: the system and its runs;
* `reachable_toRaw`: the driver in it is that of `rawSystem`;
* `handleAll_lgmagicRawEvent`: a report is sent as one packet, and nothing of it is held back.
-/

namespace Remote

open CString Daemon Evdev InputCore Kernel Pointer Profiles

/-! ## The devices -/

/-- What `lgmagic_probe` declares for the keyboard device. -/
def kbdBits (key0x8000 : ℤ) : DeviceBits where
  key := hidKeys key0x8000
  rel := fun c => c = 0 || c = 1 || c = Kernel.relWheel
  abs := fun _ => false
  msc := fun _ => false

/-- What `lgmagic_probe` declares for the IMU. -/
def imuBits : DeviceBits where
  key := fun _ => false
  rel := fun _ => false
  abs := fun c => c ≤ 5
  msc := fun c => c = mscSerial

/-- An event as it is read. -/
def readEvent (ev : InputEvent) : ReadEvent := ⟨ev.type, ev.code, .ofInt ev.value⟩

/-- The key events among some events. -/
def keyEvents (evs : List InputEvent) : List KeyEvent :=
  (evs.filter fun ev => ev.type = evKey).map fun ev => ⟨ev.code, ev.value⟩

/-- A key event of a frame. -/
def toKeyEvent (k : FrameKey) : KeyEvent := ⟨k.code, k.value.toInt⟩

/-- A frame as the pipeline takes it. -/
def evdevFrame (f : Frame) : EvdevFrame where
  keys := f.keys.map toKeyEvent
  wheel := f.wheel.toInt
  accel := f.accel.map Int32.toInt
  gyro := f.gyro.map Int32.toInt
  nkeys_le := by rw [List.length_map]; exact f.nkeys_le

/-- The sample of a report. -/
structure Sample where
  counter : ℕ
  gyro : Vec3 ℤ
  accel : Vec3 ℤ

/-- The sample of a report. -/
def sampleOf (data : List UInt8) : Sample :=
  let imu (i : ℕ) := s16 (byteAt data (5 + 2 * i)) (byteAt data (6 + 2 * i))
  ⟨byteAt data 1 + byteAt data 2 * 256, ⟨imu 0, imu 1, imu 2⟩, ⟨imu 3, imu 4, imu 5⟩⟩

/-! ## The system -/

/-- The driver and its two devices, what waits for the daemon, and the daemon, with what has gone in
and come out since it opened the devices. -/
structure RemoteSys (F : Type) where
  drvdata : Drvdata F
  /-- The button code of the last report. -/
  lastCode : ℕ
  kbdDev : InputDevice
  imuDev : InputDevice
  kbdQueue : List ReadEvent
  imuQueue : List ReadEvent
  kbdReader : ImuDev
  imuReader : ImuDev
  kbd : KbdSys F
  /-- What was written to the virtual mouse. -/
  mouse : List InputEvent
  /-- The wheel steps of the reports. -/
  steps : List ℤ
  /-- The wheel steps of the frames, with the scroll speed at their time. -/
  turned : List (ℤ × F)
  samples : List Sample
  frames : List Frame

/-- What happens. -/
inductive RemoteLabel (F : Type) where
  /-- The remote sends a report. -/
  | report (i : RawInput)
  /-- The input core repeats a key that is down. -/
  | autorepeat (c : ℕ)
  /-- The daemon reads a frame of the keyboard. -/
  | readKbd (reads : List ReadResult)
  /-- The daemon reads a frame of the IMU. -/
  | readImu (reads : List ReadResult)
  | configure (calibLoad : CStr → Except Bytes (Calib F)) (dc : DeviceConfig F) (calibPath : CStr)
      (gcfg : GlobalConfig F)

section

variable {F : Type} [CArith F]

/-- The driver and the keys that are down on its keyboard. -/
def RemoteSys.toRaw (s : RemoteSys F) : RawSys F := ⟨s.drvdata, s.kbdDev.state.down, s.lastCode⟩

/-- After a report. -/
def RemoteSys.report (key0x8000 : ℤ) (defuzz : ℤ → ℤ → ℤ) (s : RemoteSys F) (i : RawInput) :
    RemoteSys F :=
  let r := lgmagicRawEvent i.params s.drvdata i.data
  let kbd := s.kbdDev.handleAll (kbdBits key0x8000) defuzz r.2.1
  let imu := s.imuDev.handleAll imuBits defuzz r.2.2
  { s with
    drvdata := r.1
    lastCode := if unknownReport i.data then s.lastCode else btnCodeOf i.data
    kbdDev := kbd.1
    imuDev := imu.1
    kbdQueue := s.kbdQueue ++ kbd.2.map readEvent
    imuQueue := s.imuQueue ++ imu.2.map readEvent
    steps := s.steps ++ if unknownReport i.data then [] else [s8 (byteAt i.data 19)]
    samples := s.samples ++ if r.2.2 = [] then [] else [sampleOf i.data] }

/-- What the input core sends for a key that is held. -/
def repeatEvents (c : ℕ) : List InputEvent := [⟨evKey, c, 2⟩, ⟨evSyn, 0, 1⟩]

/-- After a repeat. -/
def RemoteSys.autorepeat (key0x8000 : ℤ) (defuzz : ℤ → ℤ → ℤ) (s : RemoteSys F) (c : ℕ) :
    RemoteSys F :=
  let kbd := s.kbdDev.handleAll (kbdBits key0x8000) defuzz (repeatEvents c)
  { s with
    kbdDev := kbd.1
    kbdQueue := s.kbdQueue ++ kbd.2.map readEvent }

/-- After a frame of the keyboard. -/
def RemoteSys.keyboard (s : RemoteSys F) (dev : ImuDev) (f : Frame) (rest : List ReadEvent) :
    RemoteSys F :=
  { s with
    kbdQueue := rest
    kbdReader := dev
    kbd := s.kbd.frame (evdevFrame f)
    mouse := s.mouse ++ (pipelineKeyboard s.kbd.pipe (evdevFrame f)).2.mouse
    turned := s.turned ++ [(f.wheel.toInt, s.kbd.pipe.active.scrollSpeed)] }

/-- After a frame of the IMU. -/
def RemoteSys.imu (s : RemoteSys F) (dev : ImuDev) (f : Frame) (rest : List ReadEvent) :
    RemoteSys F :=
  { s with
    imuQueue := rest
    imuReader := dev
    kbd := { s.kbd with pipe := (pipelineImu s.kbd.pipe (evdevFrame f)).1 }
    mouse := s.mouse ++ (pipelineImu s.kbd.pipe (evdevFrame f)).2
    frames := s.frames ++ [f] }

/-- The axes as `open_imu` reads them. -/
def openedImu (d : DeviceState) : ImuDev := openImu fun code => some (.ofInt (d.axis code))

/-- The state when the daemon opens the devices: the driver has been running for a while. -/
structure JustOpened (key0x8000 : ℤ) (s : RemoteSys F) : Prop where
  driver : (rawSystem F key0x8000).Reachable s.toRaw
  kbdVals : s.kbdDev.vals = []
  imuVals : s.imuDev.vals = []
  kbdQueue : s.kbdQueue = []
  imuQueue : s.imuQueue = []
  kbdReader : s.kbdReader = .opened ⟨0, 0, 0⟩ ⟨0, 0, 0⟩
  imuReader : s.imuReader = openedImu s.imuDev.state
  pipe : s.kbd.pipe = pipelineInit
  down : s.kbd.down = ∅
  pressed : s.kbd.pressed = s.kbdDev.state.down.map Nat.castEmbedding
  mouse : s.mouse = []
  steps : s.steps = []
  turned : s.turned = []
  samples : s.samples = []
  frames : s.frames = []

/-- The runs of a remote whose virtual keyboard has the descriptor `fd`. -/
def remoteSystem (F : Type) [CArith F] (key0x8000 : ℤ) (defuzz : ℤ → ℤ → ℤ) (fd : ℕ) :
    TransitionSystem (RemoteSys F) (RemoteLabel F) where
  init := JustOpened key0x8000
  step s l s' :=
    match l with
    | .report i => s' = s.report key0x8000 defuzz i
    | .autorepeat c => c ∈ s.kbdDev.state.down ∧ s' = s.autorepeat key0x8000 defuzz c
    | .readKbd reads => delivered reads = s.kbdQueue ∧ ∃ dev f rest,
        evdevReadFrameExt s.kbdReader reads = .frame dev f rest ∧
          s' = s.keyboard dev f (delivered rest)
    | .readImu reads => delivered reads = s.imuQueue ∧ ∃ dev f rest,
        evdevReadFrameExt s.imuReader reads = .frame dev f rest ∧ s' = s.imu dev f (delivered rest)
    | .configure calibLoad dc calibPath gcfg =>
      s' = { s with kbd := s.kbd.configure calibLoad dc calibPath gcfg fd }

/-! ## The driver -/

theorem toRaw_report (key0x8000 : ℤ) (defuzz : ℤ → ℤ → ℤ) (s : RemoteSys F) (i : RawInput) :
    (s.report key0x8000 defuzz i).toRaw = s.toRaw.report (hidKeys key0x8000) i := by
  simp only [RemoteSys.toRaw, RemoteSys.report, RawSys.report, handleAll_down]
  rfl

omit [CArith F] in
theorem toRaw_autorepeat (key0x8000 : ℤ) (defuzz : ℤ → ℤ → ℤ) (s : RemoteSys F) (c : ℕ) :
    (s.autorepeat key0x8000 defuzz c).toRaw = s.toRaw := by
  simp only [RemoteSys.toRaw, RemoteSys.autorepeat, handleAll_down]
  congr 1
  rw [repeatEvents, writeEvents_cons, writeEvents_cons, writeEvents_nil,
    writeEvent_of_type_ne (by decide), writeEvent_repeat]

/-! ## What a report sends -/

/-- The events of a report for the keyboard device, without the `EV_SYN`. -/
def kbdEvents (params : ReportParams) (d : Drvdata F) (data : List UInt8) : List InputEvent :=
  if unknownReport data then []
  else
    let b := reportButton params d (btnCodeOf data)
    b.2 ++ reportWheel params b.1.mode (s8 (byteAt data 19)) ++
      (reportPointer params b.1 (sampleOf data).gyro).2.2

/-- The `EV_SYN` of the driver. -/
def synReport : InputEvent := ⟨evSyn, 0, 0⟩

variable {params : ReportParams} {d : Drvdata F} {data : List UInt8}

/-- The driver sends its `EV_SYN`, but where no event of the report passes. -/
theorem lgmagicRawEvent_kbd (hhid : d.inputHid = true) (himu : d.inputImu = true) :
    (lgmagicRawEvent params d data).2.1 = kbdEvents params d data ++ [synReport] ∨
      ((lgmagicRawEvent params d data).2.1 = kbdEvents params d data ∧
        ∀ ev ∈ kbdEvents params d data, ev.type = evRel ∧ ev.value = 0) := by
  cases hdata : unknownReport data with
  | true => exact .inr (by simp [lgmagicRawEvent, kbdEvents, hdata])
  | false =>
    have hevents : (lgmagicRawEvent params d data).2.1 = kbdEvents params d data ++
        if decide (btnCodeOf data ≠ d.lastBtncode) || decide (s8 (byteAt data 19) ≠ 0) ||
          decide ((reportPointer params (reportButton params d (btnCodeOf data)).1
            (sampleOf data).gyro).2.1 ≠ (0, 0)) then [synReport] else [] := by
      simp only [lgmagicRawEvent, kbdEvents, hhid, himu, hdata, Bool.not_true, Bool.or_self,
        Bool.false_eq_true, if_false]
      rfl
    rw [hevents]
    split_ifs with hreporting
    · exact .inl rfl
    · refine .inr ⟨List.append_nil _, ?_⟩
      simp only [Bool.or_eq_true, decide_eq_true_eq, not_or, not_not] at hreporting
      obtain ⟨⟨hbutton, hwheel⟩, hmouse⟩ := hreporting
      have hsame : reportButton params d (btnCodeOf data) = (d, []) := by
        rw [reportButton, if_pos hbutton]
      rw [hsame] at hmouse
      simp only [kbdEvents, hdata, Bool.false_eq_true, if_false, hsame, hwheel, reportWheel, if_true,
        List.nil_append]
      rw [reportPointer] at hmouse ⊢
      split_ifs at hmouse ⊢
      · dsimp only at hmouse ⊢
        split_ifs
        · simp [hmouse]
        · simp
      · simp

/-- The driver writes keys, which it presses and releases, and movements. -/
theorem kbdEvents_type (ev : InputEvent) (h : ev ∈ kbdEvents params d data) :
    (ev.type = evKey ∧ (ev.value = 0 ∨ ev.value = 1)) ∨ ev.type = evRel := by
  rw [kbdEvents] at h
  split_ifs at h
  · cases h
  · rcases List.mem_append.mp h with h | h
    · rcases List.mem_append.mp h with h | h
      · -- the button
        rcases reportButton_cases params d (btnCodeOf data) with
          ⟨-, hb⟩ | ⟨-, hb⟩ | ⟨mode, k, -, -, -, hb⟩
        · simp [hb] at h
        · simp only [hb, List.mem_singleton] at h
          exact .inl (by simp [h, reportKey])
        · simp only [hb, List.mem_cons, List.not_mem_nil, or_false] at h
          rcases h with rfl | rfl
          · exact .inl ⟨rfl, .inl rfl⟩
          · exact .inl ⟨rfl, .inr rfl⟩
      · -- the wheel
        rw [reportWheel] at h
        split_ifs at h
        · cases h
        · simp only [List.mem_singleton] at h
          exact .inr (by simp [h])
        all_goals
          simp only [List.mem_cons, List.not_mem_nil, or_false] at h
          rcases h with rfl | rfl
          · exact .inl ⟨rfl, .inr rfl⟩
          · exact .inl ⟨rfl, .inl rfl⟩
    · -- the pointer
      rw [reportPointer] at h
      split_ifs at h
      · dsimp only at h
        split_ifs at h
        · simp only [List.mem_cons, List.not_mem_nil, or_false] at h
          rcases h with rfl | rfl <;> exact .inr rfl
        · cases h
      · cases h

theorem not_isReport_kbdEvents (ev : InputEvent) (h : ev ∈ kbdEvents params d data) :
    ¬ IsReport ev := by
  rintro ⟨htype, -⟩
  rcases kbdEvents_type ev h with ⟨hkey, -⟩ | hrel
  · exact absurd (htype.symm.trans hkey) (by decide)
  · exact absurd (htype.symm.trans hrel) (by decide)

/-- Movements by nothing do not pass. -/
theorem pass_eq_nil {bits : DeviceBits} {defuzz : ℤ → ℤ → ℤ} {st : DeviceState}
    {evs : List InputEvent} (h : ∀ ev ∈ evs, ev.type = evRel ∧ ev.value = 0) :
    st.pass bits defuzz evs = (st, []) := by
  induction evs with
  | nil => rfl
  | cons ev evs ih =>
    obtain ⟨⟨htype, hvalue⟩, hevs⟩ := List.forall_mem_cons.mp h
    have hev : st.event bits defuzz ev = (st, none) := by
      simp [DeviceState.event, htype, hvalue, evKey, evRel, evAbsolute, evMisc]
    rw [DeviceState.pass, hev]
    exact ih hevs

/-- A report is sent to the keyboard device as one packet, and nothing of it is held back. -/
theorem handleAll_lgmagicRawEvent {dev : InputDevice} (bits : DeviceBits) (defuzz : ℤ → ℤ → ℤ)
    (hhid : d.inputHid = true) (himu : d.inputImu = true) (hvals : dev.vals = []) :
    dev.handleAll bits defuzz (lgmagicRawEvent params d data).2.1 =
      (⟨(dev.state.pass bits defuzz (kbdEvents params d data)).1, []⟩,
        packetOf (dev.state.pass bits defuzz (kbdEvents params d data)).2 synReport) := by
  rcases @lgmagicRawEvent_kbd F _ params d data hhid himu with hsyn | ⟨hnone, hrel⟩
  · rw [hsyn]
    exact handleAll_packet not_isReport_kbdEvents ⟨rfl, rfl⟩ hvals
  · rw [hnone, handleAll_eq_pass not_isReport_kbdEvents, hvals, pass_eq_nil hrel]
    rfl

/-- What the IMU is sent. -/
theorem lgmagicRawEvent_imu (hhid : d.inputHid = true) (himu : d.inputImu = true) :
    (lgmagicRawEvent params d data).2.2 =
      if !unknownReport data && (params.imuEvdev || params.rawOnly) then
        reportImu (sampleOf data).counter (sampleOf data).gyro (sampleOf data).accel
      else [] := by
  cases hdata : unknownReport data with
  | true => simp [lgmagicRawEvent, hdata]
  | false =>
    simp only [lgmagicRawEvent, hhid, himu, hdata, Bool.not_true, Bool.or_self, Bool.false_eq_true,
      if_false, Bool.not_false, Bool.true_and]
    rfl

end

/-! ## What waits -/

/-- The packet that some events are read as; none where there are none. -/
def packetsOf (evs : List InputEvent) : List (List ReadEvent) :=
  if evs = [] then [] else [evs.map readEvent]

/-- A packet is sent. -/
theorem isQueue_send {packets : List (List ReadEvent)} {queue : List ReadEvent}
    {evs : List InputEvent} {syn : InputEvent} (h : IsQueue packets queue)
    (hevs : ∀ ev ∈ evs, ev.type ≠ evSyn) (hsyn : syn.type = evSyn) :
    IsQueue (packets ++ packetsOf evs) (queue ++ (packetOf evs syn).map readEvent) := by
  rw [packetsOf, packetOf]
  split_ifs
  · simpa using h
  · rw [List.map_append]
    refine h.concat (fun ev hev => ?_) hsyn
    obtain ⟨ev', hmem, rfl⟩ := List.mem_map.mp hev
    exact hevs ev' hmem

/-- The key events of a packet as the pipeline takes them. -/
def packetKeys (packet : List ReadEvent) : List KeyEvent := (keysOf packet).map toKeyEvent

/-- A key is read as it was sent. -/
theorem packetKeys_map_readEvent {evs : List InputEvent}
    (h : ∀ ev ∈ evs, ev.type = evKey → 0 ≤ ev.value ∧ ev.value ≤ 2) :
    packetKeys (evs.map readEvent) = keyEvents evs := by
  have hvalue {v : ℤ} (hlo : 0 ≤ v) (hhi : v ≤ 2) : (Int32.ofInt v).toInt = v :=
    Int32.toInt_ofInt_of_le (hlo.trans' (by decide)) (hhi.trans_lt (by decide))
  rw [packetKeys, keysOf, keyEvents, List.filter_map, List.map_map, List.map_map]
  refine List.map_congr_left fun ev hev => ?_
  obtain ⟨hmem, hkey⟩ := List.mem_filter.mp hev
  obtain ⟨hlo, hhi⟩ := h ev hmem (of_decide_eq_true hkey)
  simp only [Function.comp, readEvent, toKeyEvent, hvalue hlo hhi]

theorem flatMap_packetsOf {evs : List InputEvent}
    (h : ∀ ev ∈ evs, ev.type = evKey → 0 ≤ ev.value ∧ ev.value ≤ 2) :
    (packetsOf evs).flatMap packetKeys = keyEvents evs := by
  rw [packetsOf]
  split_ifs with hnil
  · rw [hnil]
    rfl
  · rw [List.flatMap_cons, List.flatMap_nil, List.append_nil, packetKeys_map_readEvent h]

/-- A sample of the IMU touches neither the keys nor the wheel. -/
theorem pipelineImu_kept {F : Type} [CArith F] (p : Pipeline F) (f : EvdevFrame) :
    (pipelineImu p f).1.held = p.held ∧ (pipelineImu p f).1.active = p.active ∧
      (pipelineImu p f).1.wheelAccum = p.wheelAccum := by
  rw [pipelineImu]
  split_ifs <;> exact ⟨rfl, rfl, rfl⟩

/-- A sample of the IMU writes a movement or nothing. -/
theorem pipelineImu_writes {F : Type} [CArith F] (p : Pipeline F) (f : EvdevFrame) :
    (pipelineImu p f).2 = [] ∨ ∃ dx dy, (pipelineImu p f).2 = uinputMove dx dy := by
  rw [pipelineImu]
  split_ifs
  · exact .inl rfl
  all_goals
    dsimp only
    split_ifs
    · exact .inr ⟨_, _, rfl⟩
    · exact .inl rfl

/-- The frame of a packet has its keys and its wheel steps, whatever the reader is. -/
theorem framePacket_fields (dev : ImuDev) (packet : List ReadEvent) :
    (framePacket dev packet).2.keys = (keysOf packet).take maxKeys ∧
      (framePacket dev packet).2.wheel = Int32.ofInt (stepsOf Evdev.relWheel packet) := by
  have hafter := afterEvents_foldl dev packet
  rw [framePacket]
  generalize packet.foldl takeEvent (dev, .zero) = s at hafter ⊢
  exact ⟨hafter.keys, hafter.wheel⟩

/-! ## A remote at rest -/

/-- A remote that the daemon has just opened. -/
def openedRemote : RemoteSys ℚ where
  drvdata := probedSys.drvdata
  lastCode := 0
  kbdDev := ⟨⟨∅, fun _ => 0⟩, []⟩
  imuDev := ⟨⟨∅, fun _ => 0⟩, []⟩
  kbdQueue := []
  imuQueue := []
  kbdReader := .opened ⟨0, 0, 0⟩ ⟨0, 0, 0⟩
  imuReader := openedImu ⟨∅, fun _ => 0⟩
  kbd := startSys
  mouse := []
  steps := []
  turned := []
  samples := []
  frames := []

/-- The smoothing of readings that lie far apart. -/
def farApart (value _old : ℤ) : ℤ := value

theorem justOpened_openedRemote : JustOpened 116 openedRemote :=
  ⟨.init ⟨rfl, rfl, rfl, rfl, rfl, rfl, rfl⟩, rfl, rfl, rfl, rfl, rfl, rfl, rfl, rfl, rfl, rfl, rfl,
    rfl, rfl, rfl⟩

end Remote
