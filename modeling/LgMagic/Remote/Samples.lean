import LgMagic.Remote

/-!
# The samples of the remote and the frames of the daemon

The daemon reads one frame for each report that the driver sends to the IMU, in their order and whatever
comes in between. The time step of a frame is that of the counters of its report and the report before,
and its axes are those of the report, up to the smoothing of the input core.

* `AxesAgree`, `axesAgree_foldl`: a reader that has read everything has the axes of the device;
* `FrameOfSample`, `FramesOf`: the frame of a sample, and frames that are those of some samples;
* `SamplesFlow`, `inductive_samplesFlow`: the invariant of the queue;
* `samples_remoteSystem`: the frames of every run.
-/

namespace Remote

open Binary64 CString Daemon Evdev InputCore Kernel Pointer Profiles

/-! ## Axes -/

/-- A reader has the axes of a device. -/
structure AxesAgree (dev : ImuDev) (st : DeviceState) : Prop where
  accel : dev.accel = ⟨.ofInt (st.axis 0), .ofInt (st.axis 1), .ofInt (st.axis 2)⟩
  gyro : dev.gyro = ⟨.ofInt (st.axis 3), .ofInt (st.axis 4), .ofInt (st.axis 5)⟩

theorem axesAgree_openedImu (st : DeviceState) : AxesAgree (openedImu st) st := ⟨rfl, rfl⟩

section

variable {defuzz : ℤ → ℤ → ℤ} {st : DeviceState} {dev : ImuDev}

/-- A reading leaves the smoothed value, also where it does not pass. -/
theorem absEvent_axis (st : DeviceState) (ev : InputEvent) :
    (st.absEvent defuzz ev).1.axis =
      Function.update st.axis ev.code (defuzz ev.value (st.axis ev.code)) := by
  rw [DeviceState.absEvent]
  split_ifs with hsame
  · rw [hsame, Function.update_eq_self]
  · rfl

/-- A reading that passes is taken over. -/
theorem AxesAgree.setAbs (h : AxesAgree dev st) {code : ℕ} (hcode : code ≤ 5) (value : ℤ) :
    AxesAgree (dev.setAbs code (.ofInt value)) { st with axis := Function.update st.axis code value } := by
  obtain ⟨haccel, hgyro⟩ := h
  interval_cases code <;> constructor <;> simp [ImuDev.setAbs, haccel, hgyro]

/-- The events of the IMU that pass keep the axes of the reader those of the device. -/
theorem AxesAgree.event (h : AxesAgree dev st) (ev : InputEvent) (f : Frame) :
    AxesAgree (((st.event imuBits defuzz ev).2.toList.map readEvent).foldl takeEvent (dev, f)).1
      (st.event imuBits defuzz ev).1 := by
  rw [DeviceState.event, if_neg (by simp [imuBits])]
  split_ifs with hrel hzero habs hmsc
  · exact h
  · simp [imuBits] at hrel
  · obtain ⟨htype, hcode⟩ := habs
    rw [DeviceState.absEvent]
    split_ifs with hsame
    · exact h
    · have htake (value : ℤ) : (takeEvent (dev, f) (readEvent { ev with value := value })).1 =
          dev.setAbs ev.code (.ofInt value) :=
        (takeEvent_dev _ _).trans (if_pos htype)
      simp only [Option.toList_some, List.map_singleton, List.foldl_cons, List.foldl_nil, htake]
      exact h.setAbs (by simpa [imuBits] using hcode) _
  · have hne : ev.type ≠ Evdev.evAbs := by
      rw [hmsc.1]
      decide
    have htake : (takeEvent (dev, f) (readEvent ev)).1 = dev :=
      (takeEvent_dev _ _).trans (if_neg hne)
    simp only [Option.toList_some, List.map_singleton, List.foldl_cons, List.foldl_nil, htake]
    exact h
  · exact h

theorem axesAgree_foldl (h : AxesAgree dev st) (evs : List InputEvent) (f : Frame) :
    AxesAgree (((st.pass imuBits defuzz evs).2.map readEvent).foldl takeEvent (dev, f)).1
      (st.pass imuBits defuzz evs).1 := by
  induction evs generalizing st dev f with
  | nil => exact h
  | cons ev evs ih =>
    rw [DeviceState.pass]
    dsimp only
    rw [List.map_append, List.foldl_append]
    exact ih (h.event ev f) _

end

/-! ## The frame of a sample -/

/-- The fuzz of the axes that `lgmagic_probe` declares. -/
def imuFuzz : ℤ := 4

/-- Readings of three axes that lie near some values. -/
def Near (v : Vec3 Int32) (w : Vec3 ℤ) : Prop :=
  |v.x.toInt - w.x| ≤ imuFuzz ∧ |v.y.toInt - w.y| ≤ imuFuzz ∧ |v.z.toInt - w.z| ≤ imuFuzz

/-- The frame of a sample, by the sample before it. -/
structure FrameOfSample (before : Option Sample) (sample : Sample) (f : Frame) : Prop where
  counter : f.counter.toNat = sample.counter
  dt : f.dt = match before with
    | none => .nan
    | some last => timeStep (((sample.counter : ℤ) - last.counter) % 65536)
  accel : Near f.accel sample.accel
  gyro : Near f.gyro sample.gyro

/-- The frames are those of the samples, one by one. -/
structure FramesOf (samples : List Sample) (frames : List Frame) : Prop where
  length : frames.length = samples.length
  each : ∀ i sample f, samples[i]? = some sample → frames[i]? = some f →
    FrameOfSample (samples.take i).getLast? sample f

theorem framesOf_nil : FramesOf [] [] := ⟨rfl, by simp⟩

theorem FramesOf.concat {samples : List Sample} {frames : List Frame} (h : FramesOf samples frames)
    {sample : Sample} {f : Frame} (hf : FrameOfSample samples.getLast? sample f) :
    FramesOf (samples ++ [sample]) (frames ++ [f]) where
  length := by simp [h.length]
  each i sample' f' hsample' hf' := by
    -- the frames before the last one have not changed
    rcases lt_or_ge i samples.length with hlt | hge
    · rw [List.getElem?_append_left hlt] at hsample'
      rw [List.getElem?_append_left (h.length ▸ hlt)] at hf'
      rw [List.take_append_of_le_length hlt.le]
      exact h.each i sample' f' hsample' hf'
    · obtain rfl : i = samples.length := by
        have hlast := (List.getElem?_eq_some_iff.mp hsample').1
        rw [List.length_append, List.length_singleton] at hlast
        omega
      rw [List.getElem?_concat_length] at hsample'
      rw [← h.length, List.getElem?_concat_length] at hf'
      cases hsample'
      cases hf'
      rwa [List.take_left]

/-! ## The packet of a sample -/

/-- The events of a sample, without the `EV_SYN`. -/
def imuEvents (sample : Sample) : List InputEvent :=
  [⟨Kernel.evMsc, 0, sample.counter⟩, ⟨Kernel.evAbs, 0, sample.accel.x⟩,
    ⟨Kernel.evAbs, 1, sample.accel.y⟩, ⟨Kernel.evAbs, 2, sample.accel.z⟩,
    ⟨Kernel.evAbs, 3, sample.gyro.x⟩, ⟨Kernel.evAbs, 4, sample.gyro.y⟩,
    ⟨Kernel.evAbs, 5, sample.gyro.z⟩]

theorem reportImu_eq (sample : Sample) :
    reportImu sample.counter sample.gyro sample.accel = imuEvents sample ++ [synReport] := rfl

/-- The readings of the six axes. -/
def Sample.axis (sample : Sample) : ℕ → ℤ
  | 0 => sample.accel.x
  | 1 => sample.accel.y
  | 2 => sample.accel.z
  | 3 => sample.gyro.x
  | 4 => sample.gyro.y
  | _ => sample.gyro.z

section

variable {defuzz : ℤ → ℤ → ℤ} {st : DeviceState}

/-- The readings of a sample, smoothed. -/
theorem pass_imuEvents_axis (st : DeviceState) (sample : Sample) {code : ℕ} (hcode : code ≤ 5) :
    (st.pass imuBits defuzz (imuEvents sample)).1.axis code =
      defuzz (sample.axis code) (st.axis code) := by
  have habs (st : DeviceState) (c : ℕ) (hc : c ≤ 5) (value : ℤ) :
      (st.event imuBits defuzz ⟨Kernel.evAbs, c, value⟩).1.axis =
        Function.update st.axis c (defuzz value (st.axis c)) := by
    rw [← absEvent_axis st ⟨Kernel.evAbs, c, value⟩]
    simp [DeviceState.event, imuBits, Kernel.evAbs, evAbsolute, evKey, evRel, hc]
  have hmsc (st : DeviceState) (value : ℤ) :
      (st.event imuBits defuzz ⟨Kernel.evMsc, 0, value⟩).1 = st := by
    simp [DeviceState.event, imuBits, Kernel.evMsc, evAbsolute, evMisc, evKey, evRel, mscSerial]
  simp only [imuEvents, DeviceState.pass, hmsc, habs _ _ (by decide : 0 ≤ 5),
    habs _ _ (by decide : 1 ≤ 5), habs _ _ (by decide : 2 ≤ 5), habs _ _ (by decide : 3 ≤ 5),
    habs _ _ (by decide : 4 ≤ 5), habs _ _ (by decide : 5 ≤ 5)]
  interval_cases code <;> simp [Function.update, Sample.axis]

/-- The counter of a sample always passes, and with it nothing but readings. -/
theorem pass_imuEvents (st : DeviceState) (sample : Sample) :
    ∃ readings, (∀ ev ∈ readings, ev.type = evAbsolute) ∧
      (st.pass imuBits defuzz (imuEvents sample)).2 =
        ⟨Kernel.evMsc, 0, sample.counter⟩ :: readings := by
  refine ⟨(st.pass imuBits defuzz (imuEvents sample).tail).2, fun ev hev => ?_, ?_⟩
  -- what passes of the readings are readings
  · obtain ⟨ev', hmem, htype, -⟩ := pass_of_mem hev
    rw [htype]
    simp only [imuEvents, List.tail_cons, List.mem_cons, List.not_mem_nil, or_false] at hmem
    rcases hmem with rfl | rfl | rfl | rfl | rfl | rfl <;> rfl
  · have hmsc : st.event imuBits defuzz ⟨Kernel.evMsc, 0, sample.counter⟩ =
        (st, some ⟨Kernel.evMsc, 0, sample.counter⟩) := by
      simp [DeviceState.event, imuBits, Kernel.evMsc, evAbsolute, evMisc, evKey, evRel, mscSerial]
    rw [imuEvents, DeviceState.pass, hmsc]
    rfl

/-- A sample as a report has it. -/
structure Sample.Fits (sample : Sample) : Prop where
  counter : sample.counter < 65536
  axis : ∀ code, -32768 ≤ sample.axis code ∧ sample.axis code ≤ 32767

theorem fits_sampleOf (data : List UInt8) : (sampleOf data).Fits := by
  have hbyte (i : ℕ) : byteAt data i < 256 := UInt8.toNat_lt _
  have hs16 (i j : ℕ) : -32768 ≤ s16 (byteAt data i) (byteAt data j) ∧
      s16 (byteAt data i) (byteAt data j) ≤ 32767 := by
    have hi := hbyte i
    have hj := hbyte j
    rw [s16]
    split_ifs <;> omega
  refine ⟨?_, fun code => ?_⟩
  · have h₁ := hbyte 1
    have h₂ := hbyte 2
    rw [sampleOf]
    dsimp only
    omega
  · unfold Sample.axis sampleOf
    split <;> exact hs16 _ _

/-- What a packet of a sample makes of a reader that has read everything before it. -/
structure SampleRead (before : Option Sample) (sample : Sample) (st : DeviceState) (dev : ImuDev)
    (f : Frame) : Prop where
  agree : AxesAgree dev st
  frame : FrameOfSample before sample f
  haveFrame : dev.haveFrame = true
  lastCounter : dev.lastCounter.toNat = sample.counter

theorem framePacket_sample (hfuzz : ∀ value old, |defuzz value old - value| ≤ imuFuzz) {dev : ImuDev}
    {sample : Sample} (hfits : sample.Fits) (hagree : AxesAgree dev st) {before : Option Sample}
    (hhave : dev.haveFrame = before.isSome)
    (hlast : ∀ last ∈ before, last.Fits ∧ dev.lastCounter.toNat = last.counter) :
    let packet := (st.pass imuBits defuzz (imuEvents sample)).2.map readEvent
    SampleRead before sample (st.pass imuBits defuzz (imuEvents sample)).1
      (framePacket dev packet).1 (framePacket dev packet).2 := by
  intro packet
  have hafter := afterEvents_foldl dev packet
  have hagree' : AxesAgree (packet.foldl takeEvent (dev, .zero)).1 _ :=
    axesAgree_foldl hagree (imuEvents sample) .zero
  -- the counter is the only one of the packet
  have hcounter : (counterOf packet).toInt = sample.counter := by
    obtain ⟨readings, hreadings, hpassed⟩ := @pass_imuEvents defuzz st sample
    have hvalues : valuesOf Evdev.evMsc mscSerial packet = [Int32.ofInt sample.counter] := by
      have hnone : ((readings.map readEvent).filter fun ev =>
          ev.type = Evdev.evMsc ∧ ev.code = mscSerial) = [] := by
        refine List.filter_eq_nil_iff.mpr fun ev hev => ?_
        obtain ⟨ev', hmem, rfl⟩ := List.mem_map.mp hev
        simp [readEvent, hreadings ev' hmem, Evdev.evMsc, evAbsolute]
      rw [valuesOf, show packet = _ from congrArg (List.map readEvent) hpassed, List.map_cons,
        List.filter_cons_of_pos (by simp [readEvent, Kernel.evMsc, Evdev.evMsc, mscSerial]), hnone]
      rfl
    rw [counterOf, hvalues]
    have hlt := hfits.counter
    exact Int32.toInt_ofInt_of_le (by omega) (by omega)
  have hfcounter : (counterOf packet).toUInt32.toNat = sample.counter := by
    have hnat := toNat_toUInt32 (counterOf packet)
    rw [hcounter] at hnat
    have hlt := hfits.counter
    omega
  -- the readings are the smoothed ones of the device
  have hnear (code : ℕ) (hcode : code ≤ 5) :
      |(Int32.ofInt ((st.pass imuBits defuzz (imuEvents sample)).1.axis code)).toInt -
        sample.axis code| ≤ imuFuzz := by
    rw [pass_imuEvents_axis st sample hcode]
    have hsmooth := hfuzz (sample.axis code) (st.axis code)
    obtain ⟨hlo, hhi⟩ := hfits.axis code
    have hbounds := abs_le.mp hsmooth
    simp only [imuFuzz] at hbounds
    rwa [Int32.toInt_ofInt_of_le (by omega) (by omega)]
  rw [framePacket]
  generalize packet.foldl takeEvent (dev, .zero) = r at hafter hagree' ⊢
  have hclosed : (closeFrame r).1.lastCounter.toNat = sample.counter := by
    rw [← hfcounter, ← hafter.counter]
    rfl
  refine ⟨⟨hagree'.accel, hagree'.gyro⟩, ⟨hclosed, ?_, ?_, ?_⟩, rfl, hclosed⟩
  · show (if r.1.haveFrame then timeStep ((r.2.counter - r.1.lastCounter) % 65536).toNat else _) = _
    rw [hafter.haveFrame, hhave, hafter.lastCounter, hafter.counter]
    cases before with
    | none => rfl
    | some last =>
      obtain ⟨hlastFits, hlastCounter⟩ := hlast last rfl
      show timeStep _ = timeStep _
      congr 1
      -- the difference of two counters modulo their width, taken in 32 bits
      have hmod : (65536 : UInt32).toNat = 65536 := rfl
      have h₁ := hlastFits.counter
      have h₂ := hfits.counter
      rw [UInt32.toNat_mod, UInt32.toNat_sub, hmod, hfcounter, hlastCounter]
      omega
  · show Near r.1.accel sample.accel
    rw [hagree'.accel]
    exact ⟨hnear 0 (by decide), hnear 1 (by decide), hnear 2 (by decide)⟩
  · show Near r.1.gyro sample.gyro
    rw [hagree'.gyro]
    exact ⟨hnear 3 (by decide), hnear 4 (by decide), hnear 5 (by decide)⟩

end

/-! ## Runs -/

/-- The frames that were read and those that wait are those of the samples. -/
structure SamplesFlow {F : Type} (key0x8000 : ℤ) (s : RemoteSys F) : Prop where
  raw : OneKeyDown (hidKeys key0x8000) s.toRaw
  vals : s.imuDev.vals = []
  fits : ∀ sample ∈ s.samples, sample.Fits
  waits : ∃ packets, IsQueue packets s.imuQueue ∧
    AxesAgree (drain s.imuReader packets).1 s.imuDev.state ∧
    FramesOf s.samples (s.frames ++ (drain s.imuReader packets).2) ∧
    (drain s.imuReader packets).1.haveFrame = s.samples.getLast?.isSome ∧
    ∀ last ∈ s.samples.getLast?,
      (drain s.imuReader packets).1.lastCounter.toNat = last.counter

section

variable {F : Type} [CArith F] {key0x8000 : ℤ} {defuzz : ℤ → ℤ → ℤ} {s : RemoteSys F}

/-- The invariant holds after a report. -/
theorem SamplesFlow.report (hfuzz : ∀ value old, |defuzz value old - value| ≤ imuFuzz)
    (h : SamplesFlow key0x8000 s) (i : RawInput) :
    SamplesFlow key0x8000 (s.report key0x8000 defuzz i) := by
  have hraw : OneKeyDown (hidKeys key0x8000) (s.report key0x8000 defuzz i).toRaw :=
    toRaw_report key0x8000 defuzz s i ▸ h.raw.report i
  have hevents := @lgmagicRawEvent_imu F _ i.params s.drvdata i.data h.raw.hid h.raw.imu
  obtain ⟨packets, hqueue, hagree, hframes, hhave, hlast⟩ := h.waits
  rw [reportImu_eq] at hevents
  split_ifs at hevents with hsends
  · -- the packet of a sample
    set sample := sampleOf i.data with hsample
    have hsent : s.imuDev.handleAll imuBits defuzz (imuEvents sample ++ [synReport]) =
        (⟨(s.imuDev.state.pass imuBits defuzz (imuEvents sample)).1, []⟩,
          packetOf (s.imuDev.state.pass imuBits defuzz (imuEvents sample)).2 synReport) := by
      refine handleAll_packet (fun ev hev => ?_) ⟨rfl, rfl⟩ h.vals
      simp only [imuEvents, List.mem_cons, List.not_mem_nil, or_false] at hev
      rcases hev with rfl | rfl | rfl | rfl | rfl | rfl | rfl <;>
        simp [IsReport, Kernel.evMsc, Kernel.evAbs, evSyn]
    obtain ⟨readings, hreadings, hpassed⟩ := @pass_imuEvents defuzz s.imuDev.state sample
    have hread := @framePacket_sample defuzz s.imuDev.state hfuzz _ sample (fits_sampleOf i.data)
      hagree s.samples.getLast? hhave fun last hmem =>
        ⟨h.fits last (List.mem_of_getLast? hmem), hlast last hmem⟩
    have hsamples : (s.report key0x8000 defuzz i).samples = s.samples ++ [sample] := by
      simp [RemoteSys.report, hevents, imuEvents, hsample]
    have hone : packetsOf (s.imuDev.state.pass imuBits defuzz (imuEvents sample)).2 =
        [(s.imuDev.state.pass imuBits defuzz (imuEvents sample)).2.map readEvent] := by
      rw [packetsOf, if_neg]
      rw [hpassed]
      exact List.cons_ne_nil _ _
    refine ⟨hraw, ?_, ?_, packets ++ packetsOf (s.imuDev.state.pass imuBits defuzz
      (imuEvents sample)).2, ?_, ?_, ?_, ?_, ?_⟩
    · simp only [RemoteSys.report, hevents, hsent]
    · rw [hsamples]
      exact List.forall_mem_append.mpr ⟨h.fits, by simpa using fits_sampleOf i.data⟩
    · simp only [RemoteSys.report, hevents, hsent]
      refine isQueue_send hqueue (fun ev hev => ?_) rfl
      rw [hpassed] at hev
      rcases List.mem_cons.mp hev with rfl | hmem
      · simp [Kernel.evMsc, evSyn]
      · rw [hreadings ev hmem]
        decide
    · rw [hone]
      simp only [RemoteSys.report, hevents, hsent, drain_concat]
      exact hread.agree
    · rw [hone, hsamples]
      simp only [RemoteSys.report, drain_concat]
      rw [← List.append_assoc]
      exact hframes.concat hread.frame
    · rw [hone, hsamples, List.getLast?_concat]
      simp only [RemoteSys.report, drain_concat]
      exact hread.haveFrame
    · rw [hone, hsamples, List.getLast?_concat]
      intro last hmem
      cases hmem
      simp only [RemoteSys.report, drain_concat]
      exact hread.lastCounter
  · -- nothing is sent
    refine ⟨hraw, ?_, ?_, packets, ?_, ?_, ?_, ?_, ?_⟩ <;>
      simp only [RemoteSys.report, hevents, InputDevice.handleAll, List.map_nil, List.append_nil,
        if_true]
    · exact h.vals
    · exact h.fits
    · exact hqueue
    · exact hagree
    · exact hframes
    · exact hhave
    · exact hlast

/-- A frame that is read is the first of those that wait. -/
theorem SamplesFlow.imu (h : SamplesFlow key0x8000 s) {reads rest : List ReadResult} {dev : ImuDev}
    {f : Frame} (hreads : delivered reads = s.imuQueue)
    (hread : evdevReadFrameExt s.imuReader reads = .frame dev f rest) :
    SamplesFlow key0x8000 (s.imu dev f (delivered rest)) := by
  obtain ⟨packets, hqueue, hagree, hframes, hhave, hlast⟩ := h.waits
  obtain ⟨packet, packets', rfl, hqueue', hframe⟩ := (hreads ▸ hqueue).read hread
  -- what is drained is this frame, and then what the new reader drains
  have hdrain : drain s.imuReader (packet :: packets') =
      ((drain dev packets').1, f :: (drain dev packets').2) := by
    rw [drain, hframe]
  rw [hdrain] at hagree hframes hhave hlast
  refine ⟨h.raw, h.vals, h.fits, packets', hqueue', hagree, ?_, hhave, hlast⟩
  simpa only [RemoteSys.imu, List.append_assoc, List.singleton_append] using hframes

/-- The invariant holds in every state of a run. -/
theorem inductive_samplesFlow (hfuzz : ∀ value old, |defuzz value old - value| ≤ imuFuzz) (fd : ℕ) :
    (remoteSystem F key0x8000 defuzz fd).Inductive (SamplesFlow key0x8000) where
  init s h := by
    refine ⟨h.driver.of_inductive (inductive_oneKeyDown key0x8000), h.imuVals, by simp [h.samples], [],
      h.imuQueue ▸ .nil, ?_, ?_, ?_, by simp [h.samples]⟩
    · rw [drain, h.imuReader]
      exact axesAgree_openedImu _
    · rw [h.samples, h.frames]
      exact framesOf_nil
    · rw [drain, h.imuReader, h.samples]
      rfl
  step s l s' h hstep := by
    cases l with
    | report i =>
      obtain rfl := hstep
      exact h.report hfuzz i
    | autorepeat c =>
      obtain ⟨-, rfl⟩ := hstep
      exact ⟨toRaw_autorepeat key0x8000 defuzz s c ▸ h.raw, h.vals, h.fits, h.waits⟩
    | readKbd reads =>
      obtain ⟨-, dev, f, rest, -, rfl⟩ := hstep
      exact ⟨h.raw, h.vals, h.fits, h.waits⟩
    | readImu reads =>
      obtain ⟨hreads, dev, f, rest, hread, rfl⟩ := hstep
      exact h.imu hreads hread
    | configure calibLoad dc calibPath gcfg =>
      obtain rfl := hstep
      exact ⟨h.raw, h.vals, h.fits, h.waits⟩

end

/-- The daemon reads the frame of the IMU that waits. -/
def RemoteSys.nextSample (s : RemoteSys ℚ) : RemoteSys ℚ :=
  match evdevReadFrameExt s.imuReader (s.imuQueue.map .whole) with
  | .frame dev f rest => s.imu dev f (delivered rest)
  | _ => s

/-- The next frame can be read while there is one. -/
theorem step_nextSample {s : RemoteSys ℚ} {key0x8000 : ℤ} (h : SamplesFlow key0x8000 s)
    (hne : s.imuQueue ≠ []) (defuzz : ℤ → ℤ → ℤ) (fd : ℕ) :
    (remoteSystem ℚ key0x8000 defuzz fd).step s (.readImu (s.imuQueue.map .whole)) s.nextSample := by
  obtain ⟨packets, hqueue, -⟩ := h.waits
  obtain ⟨dev, f, rest, hread⟩ := hqueue.exists_frame hne s.imuReader
  refine ⟨delivered_map_whole _, dev, f, rest, hread, ?_⟩
  rw [RemoteSys.nextSample, hread]

theorem farApart_near (value old : ℤ) : |farApart value old - value| ≤ imuFuzz := by
  simp [farApart, imuFuzz]

/-- A report comes, and the daemon reads its sample. -/
def sampledRemote : RemoteSys ℚ := (openedRemote.report 116 farApart upReport).nextSample

end Remote
