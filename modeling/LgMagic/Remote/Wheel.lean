import LgMagic.Daemon.Wheel
import LgMagic.Remote.Keys

/-!
# The wheel of the remote and the virtual mouse

In raw mode every step of the wheel that the remote reports is read exactly once and in its order, and
the clicks of the virtual mouse are these steps at the scroll speed of their time, but for a rest of
less than a click.

* `relSum_pass`, `stepsOf_readEvent`: steps are neither lost nor changed on the way;
* `WheelFlow`, `WheelAccount`: the invariants of the queue and of the mouse;
* `wheel_remoteSystem`: from the reports to the clicks.
-/

namespace Remote

open CString Daemon Evdev InputCore Kernel Pointer Profiles

/-! ## Steps on the way -/

theorem relSum_append (code : ℕ) (evs evs' : List InputEvent) :
    relSum code (evs ++ evs') = relSum code evs + relSum code evs' := by
  simp [relSum]

theorem relSum_cons (code : ℕ) (ev : InputEvent) (evs : List InputEvent) :
    relSum code (ev :: evs) =
      (if ev.type = evRel ∧ ev.code = code then ev.value else 0) + relSum code evs := by
  rw [relSum, List.filter_cons]
  split_ifs <;> simp_all [relSum]

/-- Events that are no steps of the wheel. -/
theorem relSum_eq_zero {code : ℕ} {evs : List InputEvent}
    (h : ∀ ev ∈ evs, ¬ (ev.type = evRel ∧ ev.code = code)) : relSum code evs = 0 := by
  rw [relSum, List.filter_eq_nil_iff.mpr (by simpa using h)]
  rfl

/-- What does not pass of a wheel are steps by nothing. -/
theorem relSum_pass {bits : DeviceBits} {defuzz : ℤ → ℤ → ℤ} {code : ℕ} (hbit : bits.rel code = true)
    (st : DeviceState) (evs : List InputEvent) :
    relSum code (st.pass bits defuzz evs).2 = relSum code evs := by
  induction evs generalizing st with
  | nil => rfl
  | cons ev evs ih =>
    rw [DeviceState.pass, relSum_append, ih, relSum_cons]
    congr 1
    by_cases hstep : ev.type = evRel ∧ ev.code = code
    · rw [if_pos hstep]
      obtain ⟨htype, hcode⟩ := hstep
      -- only a step by nothing is held back, and it adds nothing
      have hev : st.event bits defuzz ev = (st, if ev.value = 0 then none else some ev) := by
        rw [DeviceState.event, if_neg (by rw [htype]; simp [evRel, evKey]),
          if_pos ⟨htype, hcode ▸ hbit⟩]
      rw [hev]
      split_ifs with hzero
      · rw [hzero]
        rfl
      · simp [relSum, htype, hcode]
    · rw [if_neg hstep]
      refine relSum_eq_zero fun passed hpassed => ?_
      obtain ⟨htype, hcode, -⟩ := event_of_mem (Option.mem_toList.mp hpassed)
      rwa [htype, hcode]

/-- The steps of a packet are read as they were sent. -/
theorem stepsOf_readEvent {evs : List InputEvent}
    (h : ∀ ev ∈ evs, ev.type = evRel → ev.code = Evdev.relWheel → -128 ≤ ev.value ∧ ev.value ≤ 127) :
    stepsOf Evdev.relWheel (evs.map readEvent) = relSum Evdev.relWheel evs := by
  induction evs with
  | nil => rfl
  | cons ev evs ih =>
    have ih := ih fun ev hev => h ev (List.mem_cons_of_mem _ hev)
    have hread : stepsOf Evdev.relWheel (readEvent ev :: evs.map readEvent) =
        (if ev.type = evRel ∧ ev.code = Evdev.relWheel then (Int32.ofInt ev.value).toInt else 0) +
          stepsOf Evdev.relWheel (evs.map readEvent) := by
      simp only [stepsOf, valuesOf, List.filter_cons, readEvent]
      split_ifs <;> simp_all
    rw [List.map_cons, hread, ih, relSum_cons]
    congr 1
    split_ifs with hstep
    -- the step of one byte is in the range of `int`
    · obtain ⟨hlo, hhi⟩ := h ev List.mem_cons_self hstep.1 hstep.2
      exact Int32.toInt_ofInt_of_le (hlo.trans' (by decide)) (hhi.trans_lt (by decide))
    · rfl

/-! ## The queue -/

/-- The steps of a packet as a frame has them. -/
def packetSteps (packet : List ReadEvent) : ℤ := (Int32.ofInt (stepsOf Evdev.relWheel packet)).toInt

/-- What is left of a list of steps without those by nothing. -/
def turns (steps : List ℤ) : List ℤ := steps.filter (· ≠ 0)

@[simp]
theorem turns_append (steps steps' : List ℤ) : turns (steps ++ steps') = turns steps ++ turns steps' :=
  List.filter_append _ _

theorem sum_turns (steps : List ℤ) : (turns steps).sum = steps.sum := by
  induction steps with
  | nil => rfl
  | cons x steps ih =>
    rw [turns, List.filter_cons, List.sum_cons, ← ih]
    split_ifs with h
    · rfl
    · have hx : x = 0 := by simpa using h
      rw [hx, zero_add]
      rfl

/-- The steps that were read and those that wait are those of the reports. -/
structure WheelFlow {F : Type} (key0x8000 : ℤ) (s : RemoteSys F) : Prop where
  raw : OneKeyDown (hidKeys key0x8000) s.toRaw
  vals : s.kbdDev.vals = []
  waits : ∃ packets, IsQueue packets s.kbdQueue ∧
    turns (s.turned.map (·.1) ++ packets.map packetSteps) = turns s.steps

/-- A packet is sent: its steps wait. -/
theorem turns_packetsOf {evs : List InputEvent}
    (h : ∀ ev ∈ evs, ev.type = evRel → ev.code = Evdev.relWheel → -128 ≤ ev.value ∧ ev.value ≤ 127)
    {steps : ℤ} (hsum : relSum Evdev.relWheel evs = steps) (hsteps : -128 ≤ steps ∧ steps ≤ 127) :
    turns ((packetsOf evs).map packetSteps) = turns [steps] := by
  rw [packetsOf]
  split_ifs with hnil
  · rw [hnil] at hsum
    rw [← hsum]
    rfl
  · rw [List.map_singleton, packetSteps, stepsOf_readEvent h, hsum,
      Int32.toInt_ofInt_of_le (hsteps.1.trans' (by decide)) (hsteps.2.trans_lt (by decide))]

/-- The steps of a byte. -/
theorem s8_range (b : ℕ) (hb : b < 256) : -128 ≤ s8 b ∧ s8 b ≤ 127 := by
  rw [s8]
  split_ifs <;> omega

theorem byteAt_lt (data : List UInt8) (i : ℕ) : byteAt data i < 256 := UInt8.toNat_lt _

section

variable {F : Type} [CArith F] {key0x8000 : ℤ} {defuzz : ℤ → ℤ → ℤ} {s : RemoteSys F}

/-- In raw mode the pointer does not move. -/
theorem reportPointer_rawOnly {params : ReportParams} (hraw : params.rawOnly = true) (d : Drvdata F)
    (gyro : Vec3 ℤ) : (reportPointer params d gyro).2.2 = [] := by
  simp [reportPointer, hraw]

/-- In raw mode the steps of a report are those of its last byte. -/
theorem relSum_kbdEvents {params : ReportParams} (hraw : params.rawOnly = true) (d : Drvdata F)
    {data : List UInt8} (hdata : unknownReport data = false) :
    relSum Evdev.relWheel (kbdEvents params d data) = s8 (byteAt data 19) := by
  have hbutton : relSum Evdev.relWheel (reportButton params d (btnCodeOf data)).2 = 0 := by
    rcases reportButton_cases params d (btnCodeOf data) with
      ⟨-, hb⟩ | ⟨-, hb⟩ | ⟨mode, k, -, -, -, hb⟩ <;>
      rw [hb] <;> exact relSum_eq_zero (by simp [reportKey, evKey, evRel])
  rw [kbdEvents, hdata, if_neg (by decide)]
  dsimp only
  rw [reportPointer_rawOnly hraw, List.append_nil, relSum_append, hbutton, zero_add, reportWheel,
    hraw, Bool.true_or, if_pos rfl]
  split_ifs with hzero
  · rw [hzero]
    rfl
  · simp [relSum, Evdev.relWheel, Kernel.relWheel]

/-- In raw mode every movement of a report is a step of the wheel. -/
theorem kbdEvents_step {params : ReportParams} (hraw : params.rawOnly = true) {d : Drvdata F}
    {data : List UInt8} {ev : InputEvent} (h : ev ∈ kbdEvents params d data) (hrel : ev.type = evRel) :
    ev.value = s8 (byteAt data 19) := by
  rw [kbdEvents] at h
  split_ifs at h
  · cases h
  · dsimp only at h
    rw [reportPointer_rawOnly hraw, List.append_nil] at h
    rcases List.mem_append.mp h with h | h
    · rcases reportButton_cases params d (btnCodeOf data) with
        ⟨-, hb⟩ | ⟨-, hb⟩ | ⟨mode, k, -, -, -, hb⟩ <;> rw [hb] at h
      · cases h
      · rw [List.mem_singleton.mp h] at hrel
        exact absurd hrel (by simp [reportKey, evKey, evRel])
      · rcases List.mem_pair.mp h with rfl | rfl <;>
          exact absurd hrel (by simp [reportKey, evKey, evRel])
    · rw [reportWheel, hraw, Bool.true_or, if_pos rfl] at h
      split_ifs at h
      · cases h
      · rw [List.mem_singleton.mp h]

/-- The invariant holds after a report in raw mode. -/
theorem WheelFlow.report (h : WheelFlow key0x8000 s) {i : RawInput} (hraw : i.params.rawOnly = true) :
    WheelFlow key0x8000 (s.report key0x8000 defuzz i) := by
  have hraw' : OneKeyDown (hidKeys key0x8000) (s.report key0x8000 defuzz i).toRaw :=
    toRaw_report key0x8000 defuzz s i ▸ h.raw.report i
  have hsent := @handleAll_lgmagicRawEvent F _ i.params s.drvdata i.data s.kbdDev
    (kbdBits key0x8000) defuzz h.raw.hid h.raw.imu h.vals
  obtain ⟨packets, hqueue, hturns⟩ := h.waits
  set passed := (s.kbdDev.state.pass (kbdBits key0x8000) defuzz
    (kbdEvents i.params s.drvdata i.data)).2 with hpassed
  have hsum : relSum Evdev.relWheel passed = relSum Evdev.relWheel (kbdEvents i.params s.drvdata i.data) :=
    relSum_pass (by simp [kbdBits, Evdev.relWheel, Kernel.relWheel]) _ _
  refine ⟨hraw', ?_, packets ++ packetsOf passed, ?_, ?_⟩
  · simp only [RemoteSys.report, hsent]
  · simp only [RemoteSys.report, hsent]
    refine isQueue_send hqueue (fun ev hev => ?_) rfl
    obtain ⟨ev', hmem, htype, -⟩ := pass_of_mem hev
    rcases kbdEvents_type ev' hmem with ⟨hkey, -⟩ | hrel
    · rw [htype, hkey]
      decide
    · rw [htype, hrel]
      decide
  -- the new packet has the steps of the new report
  · rw [RemoteSys.report]
    dsimp only
    rw [List.map_append, ← List.append_assoc, turns_append, hturns, turns_append s.steps]
    refine congrArg (turns s.steps ++ ·) ?_
    cases hdata : unknownReport i.data with
    | true =>
      have hnil : kbdEvents i.params s.drvdata i.data = [] := by rw [kbdEvents, if_pos hdata]
      rw [hpassed, hnil]
      rfl
    | false =>
      refine turns_packetsOf (fun ev hev htype _ => ?_)
        (hsum.trans (relSum_kbdEvents hraw s.drvdata hdata)) (s8_range _ (byteAt_lt _ _))
      -- a step that passes is the one of the report
      obtain ⟨ev', hmem, htype', -, hvalue⟩ := pass_of_mem hev
      have hrel : ev'.type = evRel := htype'.symm.trans htype
      rw [hvalue (by rw [hrel]; decide), kbdEvents_step hraw hmem hrel]
      exact s8_range _ (byteAt_lt _ _)

omit [CArith F] in
/-- A repeat has no steps. -/
theorem WheelFlow.autorepeat (h : WheelFlow key0x8000 s) {c : ℕ} (hc : c ∈ s.kbdDev.state.down) :
    WheelFlow key0x8000 (s.autorepeat key0x8000 defuzz c) := by
  have hsent := @handleAll_repeatEvents defuzz s.kbdDev h.vals (kbdBits key0x8000) c
    (h.raw.keys c hc)
  obtain ⟨packets, hqueue, hturns⟩ := h.waits
  refine ⟨toRaw_autorepeat key0x8000 defuzz s c ▸ h.raw, ?_, packets ++ packetsOf [⟨evKey, c, 2⟩],
    ?_, ?_⟩
  · simp only [RemoteSys.autorepeat, hsent]
  · simp only [RemoteSys.autorepeat, hsent]
    exact isQueue_send hqueue (by simp [evKey, evSyn]) rfl
  · rw [List.map_append, ← List.append_assoc, turns_append,
      @turns_packetsOf [⟨evKey, c, 2⟩] (by simp [evKey, evRel]) 0
        (relSum_eq_zero (by simp [evKey, evRel])) (by decide)]
    exact (List.append_nil _).trans hturns

/-- A frame that is read takes the first steps that wait. -/
theorem WheelFlow.keyboard (h : WheelFlow key0x8000 s) {reads rest : List ReadResult} {dev : ImuDev}
    {f : Frame} (hreads : delivered reads = s.kbdQueue)
    (hread : evdevReadFrameExt s.kbdReader reads = .frame dev f rest) :
    WheelFlow key0x8000 (s.keyboard dev f (delivered rest)) := by
  obtain ⟨packets, hqueue, hturns⟩ := h.waits
  obtain ⟨packet, packets', rfl, hqueue', hframe⟩ := (hreads ▸ hqueue).read hread
  have hsteps : f.wheel.toInt = packetSteps packet := by
    -- the frame adds up the steps of its packet
    have hfields := (framePacket_fields s.kbdReader packet).2
    rw [hframe] at hfields
    exact congrArg Int32.toInt hfields
  refine ⟨h.raw, h.vals, packets', hqueue', ?_⟩
  rw [RemoteSys.keyboard]
  dsimp only
  rw [← hturns, List.map_append, List.map_singleton, List.append_assoc, hsteps, List.map_cons,
    List.singleton_append]

end

/-! ## The clicks -/

/-- What was asked of the wheel: the steps that were read at the speed of their time. -/
def asked (turned : List (ℤ × ℚ)) : ℚ := (turned.map fun t => (t.1 : ℚ) * t.2).sum

theorem asked_concat (turned : List (ℤ × ℚ)) (steps : ℤ) (speed : ℚ) :
    asked (turned ++ [(steps, speed)]) = asked turned + steps * speed := by
  simp [asked]

/-- The clicks of the virtual mouse and the rest are what was asked. -/
structure WheelAccount (s : RemoteSys ℚ) : Prop where
  account : relSum Daemon.relWheel s.mouse + s.kbd.pipe.wheelAccum = asked s.turned
  rest : |s.kbd.pipe.wheelAccum| < 1
  hiRes : relSum relWheelHiRes s.mouse = 120 * relSum Daemon.relWheel s.mouse

section

variable {s : RemoteSys ℚ} {key0x8000 : ℤ} {defuzz : ℤ → ℤ → ℤ}

/-- The account after a frame of the keyboard. -/
theorem WheelAccount.keyboard (h : WheelAccount s) (dev : ImuDev) (f : Frame)
    (rest : List ReadEvent) : WheelAccount (s.keyboard dev f rest) := by
  obtain ⟨q, haccum, hactive, hpipe, hmouse⟩ :=
    pipelineKeyboard_eq_pipelineWheel s.kbd.pipe (evdevFrame f)
  obtain ⟨hsplit, hrest, hhiRes, -⟩ :=
    pipelineWheel_spec q (evdevFrame f).wheel (by rw [haccum]; exact h.rest)
  rw [wheelSum, haccum, hactive, ← hpipe, ← hmouse] at hsplit
  rw [← hpipe] at hrest
  rw [← hmouse] at hhiRes
  have haccount := h.account
  refine ⟨?_, hrest, ?_⟩
  · simp only [RemoteSys.keyboard, KbdSys.frame, relSum_append, asked_concat]
    rw [← haccount]
    have hwheel : (evdevFrame f).wheel = f.wheel.toInt := rfl
    rw [hwheel] at hsplit
    push_cast
    linarith
  · simp only [RemoteSys.keyboard, relSum_append, h.hiRes, hhiRes]
    ring

/-- The samples of the IMU have no clicks. -/
theorem WheelAccount.imu (h : WheelAccount s) (dev : ImuDev) (f : Frame) (rest : List ReadEvent) :
    WheelAccount (s.imu dev f rest) := by
  have hmove (code : ℕ) (hcode : code ≠ 0 ∧ code ≠ 1) :
      relSum code (pipelineImu s.kbd.pipe (evdevFrame f)).2 = 0 := by
    refine relSum_eq_zero ?_
    -- the pointer writes movements only
    rcases pipelineImu_writes s.kbd.pipe (evdevFrame f) with hnone | ⟨dx, dy, hmove⟩
    · simp [hnone]
    · simp [hmove, uinputMove, evSyn, evRel, hcode.1.symm, hcode.2.symm]
  have haccum := (pipelineImu_kept s.kbd.pipe (evdevFrame f)).2.2
  refine ⟨?_, ?_, ?_⟩
  · simp only [RemoteSys.imu, relSum_append, hmove Daemon.relWheel (by decide), haccum, add_zero]
    exact h.account
  · simpa only [RemoteSys.imu, haccum] using h.rest
  · simp only [RemoteSys.imu, relSum_append, hmove Daemon.relWheel (by decide),
      hmove relWheelHiRes (by decide), add_zero, h.hiRes]

/-- A new configuration keeps the rest. -/
theorem pipelineConfigure_wheelAccum (calibLoad : CStr → Except Bytes (Calib ℚ)) (p : Pipeline ℚ)
    (dc : DeviceConfig ℚ) (calibPath : CStr) (gcfg : GlobalConfig ℚ) (kbdUinput : ℤ) :
    (pipelineConfigure calibLoad p dc calibPath gcfg kbdUinput).2.1.wheelAccum = p.wheelAccum := by
  rw [pipelineConfigure]
  by_cases hpath : calibPath = .empty
  · rw [if_pos hpath]
    rfl
  · rw [if_neg hpath]
    cases calibLoad calibPath <;> rfl

/-- The reports are handled in raw mode. -/
def RawReports {F : Type} (key0x8000 : ℤ) (_ : RemoteSys F) : RemoteLabel F → Prop
  | .report i => RawMode key0x8000 i
  | _ => True

/-- Both invariants hold in every state of a run in raw mode. -/
theorem inductive_wheel (fd : ℕ) :
    ((remoteSystem ℚ key0x8000 defuzz fd).restrict (RawReports key0x8000)).Inductive
      fun s => WheelFlow key0x8000 s ∧ WheelAccount s where
  init s h := by
    refine ⟨⟨h.driver.of_inductive (inductive_oneKeyDown key0x8000), h.kbdVals,
      [], h.kbdQueue ▸ .nil, by rw [h.turned, h.steps]; rfl⟩, ?_, ?_, ?_⟩
    · rw [h.mouse, h.turned, h.pipe]
      simp [relSum, asked, pipelineInit, CNum.ofRat]
    · rw [h.pipe]
      norm_num [pipelineInit, CNum.ofRat]
    · rw [h.mouse]
      rfl
  step s l s' h hstep := by
    obtain ⟨hflow, haccount⟩ := h
    obtain ⟨hstep, hraw⟩ := hstep
    cases l with
    | report i =>
      obtain rfl := hstep
      exact ⟨hflow.report hraw.1, haccount.account, haccount.rest, haccount.hiRes⟩
    | autorepeat c =>
      obtain ⟨hc, rfl⟩ := hstep
      exact ⟨hflow.autorepeat hc, haccount.account, haccount.rest, haccount.hiRes⟩
    | readKbd reads =>
      obtain ⟨hreads, dev, f, rest, hread, rfl⟩ := hstep
      exact ⟨hflow.keyboard hreads hread, haccount.keyboard _ _ _⟩
    | readImu reads =>
      obtain ⟨-, dev, f, rest, -, rfl⟩ := hstep
      exact ⟨⟨hflow.raw, hflow.vals, hflow.waits⟩, haccount.imu _ _ _⟩
    | configure calibLoad dc calibPath gcfg =>
      obtain rfl := hstep
      have haccum := pipelineConfigure_wheelAccum calibLoad s.kbd.pipe dc calibPath gcfg fd
      refine ⟨⟨hflow.raw, hflow.vals, hflow.waits⟩, ?_, ?_, haccount.hiRes⟩
      · simpa only [KbdSys.configure, haccum] using haccount.account
      · simpa only [KbdSys.configure, haccum] using haccount.rest

theorem asked_eq_mul {turned : List (ℤ × ℚ)} {speed : ℚ} (h : ∀ t ∈ turned, t.2 = speed) :
    asked turned = (turned.map (·.1)).sum * speed := by
  induction turned with
  | nil => simp [asked]
  | cons t turned ih =>
    obtain ⟨ht, hrest⟩ := List.forall_mem_cons.mp h
    rw [asked, List.map_cons, List.sum_cons, ← asked, ih hrest, ht, List.map_cons, List.sum_cons]
    push_cast
    ring

end

end Remote
