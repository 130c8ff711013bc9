import LgMagic.Daemon.Pipeline

/-!
# Frames of an event device

`evdev_read_frame_ext` of `evdev.c` gathers the events of a device up to the next `EV_SYN`. Keys and
wheel steps belong to the packet, the readings of the sensors stay until they are replaced, and the
time step is the difference of the packet counters on 16 bits.

* `ReadEvent`, `ReadResult`, `ImuDev`, `Frame`: what `read` gives, and the data;
* `evdevReadFrameExt`, `readFrames`: one frame, and one frame after the other;
* `packets`, `IsFrameOf`: the segmentation of a stream, and the frame of a packet;
* `forall_readFrames`: the frames of every stream are those of its packets;
* `readFrames_eq_packets`: the same with all keys, where no packet has more than a frame holds.
-/

namespace Evdev

open Binary64 InputCore Pointer

/-! ## What is read -/

/-- `struct input_event` as it is read, without the time. -/
structure ReadEvent where
  type : ℕ
  code : ℕ
  value : Int32
  deriving DecidableEq

/-- The outcomes of `read`. -/
inductive ReadResult
  | whole (ev : ReadEvent)
  /-- Interrupted by a signal; `g_stop` may be set then. -/
  | interrupted (stop : Bool)
  /-- Fewer bytes than an event. -/
  | short
  | eof
  | failed

/-- `EV_ABS` -/
def evAbs : ℕ := 0x03

/-- `EV_MSC` -/
def evMsc : ℕ := 0x04

/-- `REL_HWHEEL` -/
def relHwheel : ℕ := 0x06

/-- `REL_WHEEL` -/
def relWheel : ℕ := 0x08

/-- `MSC_SERIAL` -/
def mscSerial : ℕ := 0x00

/-- The fields of `struct evdev_imu` that frames are made with. -/
structure ImuDev where
  lastCounter : UInt32
  haveFrame : Bool
  accel : Vec3 Int32
  gyro : Vec3 Int32

/-- A device that was just opened; the daemon opens a keyboard into a zeroed record. -/
def ImuDev.opened (accel gyro : Vec3 Int32) : ImuDev := ⟨0, false, accel, gyro⟩

/-- `abs_value` for each axis, as `open_imu` reads them. -/
def openImu (absinfo : ℕ → Option Int32) : ImuDev :=
  let absValue (code : ℕ) := (absinfo code).getD 0
  .opened ⟨absValue 0, absValue 1, absValue 2⟩ ⟨absValue 3, absValue 4, absValue 5⟩

/-- `struct evdev_key_event` -/
structure FrameKey where
  code : ℕ
  value : Int32
  deriving DecidableEq

/-- The number of key events that a frame holds. -/
def maxKeys : ℕ := 16

/-- `struct evdev_frame` -/
structure Frame where
  counter : UInt32
  dt : Double
  accel : Vec3 Int32
  gyro : Vec3 Int32
  keys : List FrameKey
  wheel : Int32
  hwheel : Int32
  nkeys_le : keys.length ≤ maxKeys

/-- A zeroed frame. -/
def Frame.zero : Frame where
  counter := 0
  dt := .ofInt 0
  accel := ⟨0, 0, 0⟩
  gyro := ⟨0, 0, 0⟩
  keys := []
  wheel := 0
  hwheel := 0
  nkeys_le := Nat.zero_le _

/-! ## One frame -/

/-- A key event is added while there is room. -/
def Frame.addKey (f : Frame) (key : FrameKey) : Frame :=
  if h : f.keys.length < maxKeys then
    { f with
      keys := f.keys ++ [key]
      nkeys_le := by rw [List.length_append]; exact h }
  else f

/-- A reading of one axis. -/
def ImuDev.setAbs (dev : ImuDev) (code : ℕ) (value : Int32) : ImuDev :=
  match code with
  | 0 => { dev with accel := { dev.accel with x := value } }
  | 1 => { dev with accel := { dev.accel with y := value } }
  | 2 => { dev with accel := { dev.accel with z := value } }
  | 3 => { dev with gyro := { dev.gyro with x := value } }
  | 4 => { dev with gyro := { dev.gyro with y := value } }
  | 5 => { dev with gyro := { dev.gyro with z := value } }
  | _ => dev

/-- The cases of the `switch`, but for `EV_SYN`. -/
def takeEvent (s : ImuDev × Frame) (ev : ReadEvent) : ImuDev × Frame :=
  let (dev, f) := s
  if ev.type = evKey then (dev, f.addKey ⟨ev.code, ev.value⟩)
  else if ev.type = evRel then
    if ev.code = relWheel then (dev, { f with wheel := f.wheel + ev.value })
    else if ev.code = relHwheel then (dev, { f with hwheel := f.hwheel + ev.value })
    else (dev, f)
  else if ev.type = evAbs then (dev.setAbs ev.code ev.value, f)
  else if ev.type = evMsc ∧ ev.code = mscSerial then (dev, { f with counter := ev.value.toUInt32 })
  else (dev, f)

/-- `(delta / COUNTS_PER_0P02) * T_UNIT` -/
def timeStep (delta : ℤ) : Double :=
  ((Double.ofInt delta).div (.ofInt 256)).mul (CNum.ofRat (2 / 100))

/-- The case of `EV_SYN`. -/
def closeFrame (s : ImuDev × Frame) : ImuDev × Frame :=
  let (dev, f) := s
  let dt := if dev.haveFrame then timeStep ((f.counter - dev.lastCounter) % 65536).toNat else .nan
  ({ dev with haveFrame := true, lastCounter := f.counter },
    { f with dt := dt, accel := dev.accel, gyro := dev.gyro })

/-- What a call of `evdev_read_frame_ext` comes to. -/
inductive FrameResult
  /-- It returns 1; the device afterwards, the frame and what is left to read. -/
  | frame (dev : ImuDev) (f : Frame) (rest : List ReadResult)
  /-- It returns 0. -/
  | eof
  /-- It returns -1, also when a signal asked to stop. -/
  | failed
  /-- It waits for more. -/
  | waits

/-- The loop of `evdev_read_frame_ext`. -/
def readLoop (s : ImuDev × Frame) : List ReadResult → FrameResult
  | [] => .waits
  | .interrupted stop :: reads => if stop then .failed else readLoop s reads
  | .failed :: _ => .failed
  | .eof :: _ => .eof
  | .short :: reads => readLoop s reads
  | .whole ev :: reads =>
    if ev.type = evSyn then
      let (dev, f) := closeFrame s
      .frame dev f reads
    else readLoop (takeEvent s ev) reads

/-- `evdev_read_frame_ext` -/
def evdevReadFrameExt (dev : ImuDev) (reads : List ReadResult) : FrameResult :=
  readLoop (dev, .zero) reads

theorem length_rest_lt {s : ImuDev × Frame} {reads rest : List ReadResult} {dev : ImuDev} {f : Frame}
    (h : readLoop s reads = .frame dev f rest) : rest.length < reads.length := by
  induction reads generalizing s with
  | nil => cases h
  | cons r reads ih =>
    cases r with
    | whole ev =>
      rw [readLoop] at h
      split_ifs at h
      · cases h
        exact Nat.lt_succ_self _
      · exact (ih h).trans (Nat.lt_succ_self _)
    | interrupted stop =>
      rw [readLoop] at h
      split_ifs at h
      exact (ih h).trans (Nat.lt_succ_self _)
    | short => exact (ih h).trans (Nat.lt_succ_self _)
    | eof | failed => cases h

/-- The frames of one call after the other, until a call gives none. -/
def readFrames (dev : ImuDev) (reads : List ReadResult) : List Frame :=
  match _h : evdevReadFrameExt dev reads with
  | .frame dev f rest => f :: readFrames dev rest
  | _ => []
termination_by reads.length
decreasing_by exact length_rest_lt _h

/-! ## Packets -/

/-- The events that are read, up to the end of the stream, an error or a signal to stop. -/
def delivered : List ReadResult → List ReadEvent
  | [] => []
  | .interrupted stop :: reads => if stop then [] else delivered reads
  | .failed :: _ | .eof :: _ => []
  | .short :: reads => delivered reads
  | .whole ev :: reads => ev :: delivered reads

/-- The complete packets of a stream: the events between two `EV_SYN`. -/
def packets (evs : List ReadEvent) : List (List ReadEvent) :=
  (evs.splitOnP fun ev => ev.type = evSyn).dropLast

/-- The values of the events with a type and a code. -/
def valuesOf (type code : ℕ) (evs : List ReadEvent) : List Int32 :=
  (evs.filter fun ev => ev.type = type ∧ ev.code = code).map (·.value)

/-- The steps of a wheel in a packet, summed. -/
def stepsOf (code : ℕ) (packet : List ReadEvent) : ℤ :=
  ((valuesOf evRel code packet).map Int32.toInt).sum

/-- The key events of a packet. -/
def keysOf (packet : List ReadEvent) : List FrameKey :=
  (packet.filter fun ev => ev.type = evKey).map fun ev => ⟨ev.code, ev.value⟩

/-- The counter of a packet: its last value, zero without one. -/
def counterOf (packet : List ReadEvent) : Int32 := ((valuesOf evMsc mscSerial packet).getLast?).getD 0

/-- The reading of an axis after some events: the last one, else the initial one. -/
def axisAfter (code : ℕ) (initial : Int32) (evs : List ReadEvent) : Int32 :=
  ((valuesOf evAbs code evs).getLast?).getD initial

/-- The readings of three axes after some events. -/
def axesAfter (code : ℕ) (initial : Vec3 Int32) (evs : List ReadEvent) : Vec3 Int32 :=
  ⟨axisAfter code initial.x evs, axisAfter (code + 1) initial.y evs,
    axisAfter (code + 2) initial.z evs⟩

/-- The frame of a packet, by the packets before it. -/
structure IsFrameOf (accel gyro : Vec3 Int32) (before : List (List ReadEvent))
    (packet : List ReadEvent) (f : Frame) : Prop where
  keys : f.keys = (keysOf packet).take maxKeys
  wheel : f.wheel = Int32.ofInt (stepsOf relWheel packet)
  hwheel : f.hwheel = Int32.ofInt (stepsOf relHwheel packet)
  accel : f.accel = axesAfter 0 accel (before.flatten ++ packet)
  gyro : f.gyro = axesAfter 3 gyro (before.flatten ++ packet)
  dt : f.dt = match before.getLast? with
    | none => .nan
    | some last => timeStep (((counterOf packet).toInt - (counterOf last).toInt) % 65536)

/-! ## The events of a packet -/

section

variable {evs : List ReadEvent} {ev : ReadEvent} {dev : ImuDev} {s : ImuDev × Frame}

theorem valuesOf_concat (type code : ℕ) (evs : List ReadEvent) (ev : ReadEvent) :
    valuesOf type code (evs ++ [ev]) =
      valuesOf type code evs ++ if ev.type = type ∧ ev.code = code then [ev.value] else [] := by
  rw [valuesOf, List.filter_append, List.map_append, ← valuesOf]
  congr 1
  by_cases h : ev.type = type ∧ ev.code = code
  · simp [h]
  · simp [h]

theorem keysOf_concat (evs : List ReadEvent) (ev : ReadEvent) :
    keysOf (evs ++ [ev]) =
      keysOf evs ++ if ev.type = evKey then [⟨ev.code, ev.value⟩] else [] := by
  rw [keysOf, List.filter_append, List.map_append, ← keysOf]
  congr 1
  by_cases h : ev.type = evKey
  · simp [h]
  · simp [h]

theorem axisAfter_concat (code : ℕ) (initial : Int32) (evs : List ReadEvent) (ev : ReadEvent) :
    axisAfter code initial (evs ++ [ev]) =
      if ev.type = evAbs ∧ ev.code = code then ev.value else axisAfter code initial evs := by
  rw [axisAfter, valuesOf_concat]
  split_ifs
  · simp
  · rw [List.append_nil, axisAfter]

theorem counterOf_concat (evs : List ReadEvent) (ev : ReadEvent) :
    counterOf (evs ++ [ev]) =
      if ev.type = evMsc ∧ ev.code = mscSerial then ev.value else counterOf evs := by
  rw [counterOf, valuesOf_concat]
  split_ifs
  · simp
  · rw [List.append_nil, counterOf]

theorem stepsOf_concat (code : ℕ) (evs : List ReadEvent) (ev : ReadEvent) :
    stepsOf code (evs ++ [ev]) =
      stepsOf code evs + if ev.type = evRel ∧ ev.code = code then ev.value.toInt else 0 := by
  rw [stepsOf, valuesOf_concat, List.map_append, List.sum_append, ← stepsOf]
  split_ifs <;> simp

/-- A reading changes one axis, which may be one of the accelerometer. -/
theorem setAbs_accel (dev : ImuDev) (code : ℕ) (value : Int32) :
    (dev.setAbs code value).accel =
      ⟨if code = 0 then value else dev.accel.x, if code = 1 then value else dev.accel.y,
        if code = 2 then value else dev.accel.z⟩ := by
  match code with
  | 0 | 1 | 2 | 3 | 4 | 5 => rfl
  | n + 6 => simp [ImuDev.setAbs]

/-- A reading changes one axis, which may be one of the gyroscope. -/
theorem setAbs_gyro (dev : ImuDev) (code : ℕ) (value : Int32) :
    (dev.setAbs code value).gyro =
      ⟨if code = 3 then value else dev.gyro.x, if code = 4 then value else dev.gyro.y,
        if code = 5 then value else dev.gyro.z⟩ := by
  match code with
  | 0 | 1 | 2 | 3 | 4 | 5 => rfl
  | n + 6 => simp [ImuDev.setAbs]

/-- A reading leaves the counter and the first frame. -/
theorem setAbs_rest (dev : ImuDev) (code : ℕ) (value : Int32) :
    (dev.setAbs code value).lastCounter = dev.lastCounter ∧
      (dev.setAbs code value).haveFrame = dev.haveFrame := by
  match code with
  | 0 | 1 | 2 | 3 | 4 | 5 => exact ⟨rfl, rfl⟩
  | n + 6 => exact ⟨rfl, rfl⟩

/-- What the device and the frame hold after some events of a packet. -/
structure AfterEvents (dev : ImuDev) (evs : List ReadEvent) (s : ImuDev × Frame) : Prop where
  lastCounter : s.1.lastCounter = dev.lastCounter
  haveFrame : s.1.haveFrame = dev.haveFrame
  accel : s.1.accel = axesAfter 0 dev.accel evs
  gyro : s.1.gyro = axesAfter 3 dev.gyro evs
  counter : s.2.counter = (counterOf evs).toUInt32
  keys : s.2.keys = (keysOf evs).take maxKeys
  wheel : s.2.wheel = Int32.ofInt (stepsOf relWheel evs)
  hwheel : s.2.hwheel = Int32.ofInt (stepsOf relHwheel evs)

/-- A key event goes to the keys while there is room. -/
theorem keys_addKey {f : Frame} {keys : List FrameKey} (h : f.keys = keys.take maxKeys)
    (key : FrameKey) : (f.addKey key).keys = (keys ++ [key]).take maxKeys := by
  have hlen : f.keys.length = min maxKeys keys.length := by rw [h, List.length_take]
  rw [Frame.addKey]
  split_ifs with hroom
  · have hshort : keys.length < maxKeys := by omega
    calc f.keys ++ [key] = keys ++ [key] := by rw [h, List.take_of_length_le hshort.le]
      _ = (keys ++ [key]).take maxKeys := (List.take_of_length_le (by simpa using hshort)).symm
  · rw [h, List.take_append_of_le_length (by omega)]

/-! ## What an event does -/

@[simp] theorem addKey_counter (f : Frame) (key : FrameKey) :
    (f.addKey key).counter = f.counter := by
  rw [Frame.addKey]
  split_ifs <;> rfl

@[simp] theorem addKey_wheel (f : Frame) (key : FrameKey) : (f.addKey key).wheel = f.wheel := by
  rw [Frame.addKey]
  split_ifs <;> rfl

@[simp] theorem addKey_hwheel (f : Frame) (key : FrameKey) :
    (f.addKey key).hwheel = f.hwheel := by
  rw [Frame.addKey]
  split_ifs <;> rfl

theorem takeEvent_dev (s : ImuDev × Frame) (ev : ReadEvent) :
    (takeEvent s ev).1 = if ev.type = evAbs then s.1.setAbs ev.code ev.value else s.1 := by
  obtain ⟨type, code, value⟩ := ev
  rw [takeEvent]
  split_ifs <;> simp_all [evKey, evRel, evAbs]

theorem takeEvent_keys (s : ImuDev × Frame) (ev : ReadEvent) :
    (takeEvent s ev).2.keys =
      if ev.type = evKey then (s.2.addKey ⟨ev.code, ev.value⟩).keys else s.2.keys := by
  rw [takeEvent]
  split_ifs <;> rfl

theorem takeEvent_counter (s : ImuDev × Frame) (ev : ReadEvent) :
    (takeEvent s ev).2.counter =
      if ev.type = evMsc ∧ ev.code = mscSerial then ev.value.toUInt32 else s.2.counter := by
  obtain ⟨type, code, value⟩ := ev
  rw [takeEvent]
  split_ifs <;> simp_all [evKey, evRel, evAbs, evMsc]

theorem takeEvent_wheel (s : ImuDev × Frame) (ev : ReadEvent) :
    (takeEvent s ev).2.wheel =
      s.2.wheel + if ev.type = evRel ∧ ev.code = relWheel then ev.value else 0 := by
  obtain ⟨type, code, value⟩ := ev
  rw [takeEvent]
  split_ifs <;> simp_all [evKey, evRel, evAbs, evMsc]

theorem takeEvent_hwheel (s : ImuDev × Frame) (ev : ReadEvent) :
    (takeEvent s ev).2.hwheel =
      s.2.hwheel + if ev.type = evRel ∧ ev.code = relHwheel then ev.value else 0 := by
  obtain ⟨type, code, value⟩ := ev
  rw [takeEvent]
  split_ifs <;> simp_all [evKey, evRel, evAbs, evMsc, relWheel, relHwheel]

/-- A sum of steps goes on with the step of an event. -/
theorem ofInt_stepsOf_concat (code : ℕ) (evs : List ReadEvent) (ev : ReadEvent) :
    Int32.ofInt (stepsOf code (evs ++ [ev])) =
      Int32.ofInt (stepsOf code evs) +
        if ev.type = evRel ∧ ev.code = code then ev.value else 0 := by
  rw [stepsOf_concat, Int32.ofInt_add]
  split_ifs
  · rw [Int32.ofInt_toInt]
  · rfl

theorem AfterEvents.takeEvent (h : AfterEvents dev evs s) (ev : ReadEvent) :
    AfterEvents dev (evs ++ [ev]) (takeEvent s ev) where
  lastCounter := by
    rw [takeEvent_dev, ← h.lastCounter]
    split_ifs
    · exact (setAbs_rest _ _ _).1
    · rfl
  haveFrame := by
    rw [takeEvent_dev, ← h.haveFrame]
    split_ifs
    · exact (setAbs_rest _ _ _).2
    · rfl
  accel := by
    rw [takeEvent_dev]
    split_ifs with habs
    · simp only [setAbs_accel, h.accel, axesAfter, axisAfter_concat, habs, true_and]
    · simp only [h.accel, axesAfter, axisAfter_concat, habs, false_and, if_false]
  gyro := by
    rw [takeEvent_dev]
    split_ifs with habs
    · simp only [setAbs_gyro, h.gyro, axesAfter, axisAfter_concat, habs, true_and]
    · simp only [h.gyro, axesAfter, axisAfter_concat, habs, false_and, if_false]
  counter := by
    rw [takeEvent_counter, counterOf_concat, h.counter, apply_ite Int32.toUInt32]
  keys := by
    rw [takeEvent_keys, keysOf_concat]
    split_ifs
    · exact keys_addKey h.keys _
    · rw [List.append_nil, h.keys]
  wheel := by rw [takeEvent_wheel, h.wheel, ofInt_stepsOf_concat]
  hwheel := by rw [takeEvent_hwheel, h.hwheel, ofInt_stepsOf_concat]

/-- A whole packet, without the event that closes it. -/
theorem afterEvents_foldl (dev : ImuDev) (evs : List ReadEvent) :
    AfterEvents dev evs (evs.foldl Evdev.takeEvent (dev, .zero)) := by
  induction evs using List.reverseRecOn with
  | nil => exact ⟨rfl, rfl, rfl, rfl, rfl, rfl, rfl, rfl⟩
  | append_singleton evs ev ih =>
    rw [List.foldl_concat]
    exact ih.takeEvent ev

end

/-! ## The packets of a stream -/

/-- A loop either reads on to the end of a packet, or there is none. -/
theorem readLoop_cases (s : ImuDev × Frame) (reads : List ReadResult) :
    (∃ packet syn rest dev f, (∀ ev ∈ packet, ev.type ≠ evSyn) ∧ syn.type = evSyn ∧
      delivered reads = packet ++ syn :: delivered rest ∧
      closeFrame (packet.foldl takeEvent s) = (dev, f) ∧ readLoop s reads = .frame dev f rest) ∨
    ((∀ ev ∈ delivered reads, ev.type ≠ evSyn) ∧
      ∀ dev f rest, readLoop s reads ≠ .frame dev f rest) := by
  induction reads generalizing s with
  | nil => exact .inr ⟨by simp [delivered], by simp [readLoop]⟩
  | cons r reads ih =>
    cases r with
    | whole ev =>
      rw [readLoop, delivered]
      by_cases hsyn : ev.type = evSyn
      · -- the packet ends here
        exact .inl ⟨[], ev, reads, _, _, by simp, hsyn, rfl, rfl, by rw [if_pos hsyn]; rfl⟩
      · rw [if_neg hsyn]
        obtain ⟨packet, syn, rest, dev, f, hpacket, hend, hreads, hclose, hloop⟩ | ⟨hnone, hloop⟩ :=
          ih (takeEvent s ev)
        · refine .inl ⟨ev :: packet, syn, rest, dev, f, ?_, hend, by rw [hreads]; rfl, hclose, hloop⟩
          exact List.forall_mem_cons.2 ⟨hsyn, hpacket⟩
        · exact .inr ⟨List.forall_mem_cons.2 ⟨hsyn, hnone⟩, hloop⟩
    | interrupted stop =>
      cases stop with
      | false => exact ih s
      | true => exact .inr ⟨by simp [delivered], by simp [readLoop]⟩
    | short => exact ih s
    | eof | failed => exact .inr ⟨by simp [delivered], by simp [readLoop]⟩

theorem packets_eq_nil {evs : List ReadEvent} (h : ∀ ev ∈ evs, ev.type ≠ evSyn) :
    packets evs = [] := by
  rw [packets, List.splitOnP_eq_singleton fun ev hev => decide_eq_false (h ev hev)]
  rfl

theorem packets_append_cons {packet : List ReadEvent} {syn : ReadEvent}
    (h : ∀ ev ∈ packet, ev.type ≠ evSyn) (hsyn : syn.type = evSyn) (evs : List ReadEvent) :
    packets (packet ++ syn :: evs) = packet :: packets evs := by
  rw [packets, List.splitOnP_append_cons_of_forall_mem (fun ev hev => decide_eq_false (h ev hev))
    syn (decide_eq_true hsyn), List.dropLast_cons_of_ne_nil (List.splitOnP_ne_nil _ _), ← packets]

theorem readFrames_eq_cons {dev dev' : ImuDev} {f : Frame} {reads rest : List ReadResult}
    (h : evdevReadFrameExt dev reads = .frame dev' f rest) :
    readFrames dev reads = f :: readFrames dev' rest := by
  rw [readFrames]
  split
  · rename_i heq
    cases heq.symm.trans h
    rfl
  · rename_i hne
    exact absurd h (hne _ _ _)

theorem readFrames_eq_nil {dev : ImuDev} {reads : List ReadResult}
    (h : ∀ dev' f rest, evdevReadFrameExt dev reads ≠ .frame dev' f rest) :
    readFrames dev reads = [] := by
  rw [readFrames]
  split
  · rename_i heq
    exact absurd heq (h _ _ _)
  · rfl

/-! ## The counters -/

theorem toNat_toUInt32 (a : Int32) : (a.toUInt32.toNat : ℤ) = a.toInt % 2 ^ 32 := by
  have hbits : a.toUInt32.toNat = a.toBitVec.toNat := rfl
  rw [hbits, ← Int32.toInt_toBitVec, BitVec.toInt_eq_toNat_cond]
  have := a.toBitVec.isLt
  split_ifs <;> omega

/-- The difference of two counters on 16 bits, also where they wrap around. -/
theorem toNat_sub_mod (a b : Int32) :
    (((a.toUInt32 - b.toUInt32) % 65536).toNat : ℤ) = (a.toInt - b.toInt) % 65536 := by
  have ha := toNat_toUInt32 a
  have hb := toNat_toUInt32 b
  have hmod : (65536 : UInt32).toNat = 65536 := rfl
  rw [UInt32.toNat_mod, UInt32.toNat_sub, hmod]
  have := b.toUInt32.toNat_lt
  omega

/-! ## The frames of a stream -/

theorem axisAfter_append (code : ℕ) (initial : Int32) (before evs : List ReadEvent) :
    axisAfter code (axisAfter code initial before) evs = axisAfter code initial (before ++ evs) := by
  induction evs using List.reverseRecOn with
  | nil => rw [List.append_nil]; rfl
  | append_singleton evs ev ih =>
    rw [← List.append_assoc, axisAfter_concat, axisAfter_concat, ih]

theorem axesAfter_append (code : ℕ) (initial : Vec3 Int32) (before evs : List ReadEvent) :
    axesAfter code (axesAfter code initial before) evs = axesAfter code initial (before ++ evs) := by
  simp only [axesAfter, axisAfter_append]

/-- What a device holds after some packets. -/
structure AfterPackets (accel gyro : Vec3 Int32) (before : List (List ReadEvent)) (dev : ImuDev) :
    Prop where
  haveFrame : dev.haveFrame = before.getLast?.isSome
  lastCounter : ∀ last, before.getLast? = some last → dev.lastCounter = (counterOf last).toUInt32
  accel : dev.accel = axesAfter 0 accel before.flatten
  gyro : dev.gyro = axesAfter 3 gyro before.flatten

theorem afterPackets_nil (accel gyro : Vec3 Int32) :
    AfterPackets accel gyro [] (.opened accel gyro) where
  haveFrame := rfl
  lastCounter := by simp
  accel := rfl
  gyro := rfl

section

variable {accel gyro : Vec3 Int32} {before : List (List ReadEvent)} {dev dev' : ImuDev}
  {packet : List ReadEvent} {f : Frame}

/-- A packet gives its frame. -/
theorem AfterPackets.isFrameOf (h : AfterPackets accel gyro before dev)
    (hclose : closeFrame (packet.foldl takeEvent (dev, .zero)) = (dev', f)) :
    IsFrameOf accel gyro before packet f := by
  have hafter := afterEvents_foldl dev packet
  generalize packet.foldl takeEvent (dev, .zero) = s at hafter hclose
  cases hclose
  refine ⟨hafter.keys, hafter.wheel, hafter.hwheel, ?_, ?_, ?_⟩
  · exact hafter.accel.trans (by rw [h.accel, axesAfter_append])
  · exact hafter.gyro.trans (by rw [h.gyro, axesAfter_append])
  · show (if s.1.haveFrame then _ else _) = _
    rw [hafter.haveFrame, h.haveFrame, hafter.lastCounter, hafter.counter]
    cases hlast : before.getLast? with
    | none => rfl
    | some last =>
      show timeStep _ = timeStep _
      rw [h.lastCounter last hlast, toNat_sub_mod]

/-- A packet leaves what the device holds after it. -/
theorem AfterPackets.concat (h : AfterPackets accel gyro before dev)
    (hclose : closeFrame (packet.foldl takeEvent (dev, .zero)) = (dev', f)) :
    AfterPackets accel gyro (before ++ [packet]) dev' := by
  have hafter := afterEvents_foldl dev packet
  generalize packet.foldl takeEvent (dev, .zero) = s at hafter hclose
  cases hclose
  have hflat : (before ++ [packet]).flatten = before.flatten ++ packet := by simp
  refine ⟨by rw [List.getLast?_concat]; rfl, fun last hlast => ?_, ?_, ?_⟩
  · rw [List.getLast?_concat] at hlast
    cases hlast
    exact hafter.counter
  · exact hafter.accel.trans (by rw [hflat, h.accel, axesAfter_append])
  · exact hafter.gyro.trans (by rw [hflat, h.gyro, axesAfter_append])

/-- The frames after some packets are those of the packets that follow. -/
theorem AfterPackets.readFrames (reads : List ReadResult)
    (h : AfterPackets accel gyro before dev) :
    (readFrames dev reads).length = (packets (delivered reads)).length ∧
      ∀ i packet f, (packets (delivered reads))[i]? = some packet →
        (readFrames dev reads)[i]? = some f →
          IsFrameOf accel gyro (before ++ (packets (delivered reads)).take i) packet f := by
  -- One call after the other: the rest of the stream is shorter.
  induction hlen : reads.length using Nat.strong_induction_on generalizing reads before dev with
  | _ n ih =>
    obtain ⟨packet, syn, rest, dev', f, hpacket, hsyn, hreads, hclose, hloop⟩ | ⟨hnone, hloop⟩ :=
      readLoop_cases (dev, .zero) reads
    · rw [readFrames_eq_cons hloop, hreads, packets_append_cons hpacket hsyn]
      obtain ⟨hlength, hframes⟩ := ih rest.length (hlen ▸ length_rest_lt hloop) rest
        (h.concat hclose) rfl
      refine ⟨congrArg (· + 1) hlength, fun i packet' f' hpacket' hf' => ?_⟩
      cases i with
      | zero =>
        cases hpacket'
        cases hf'
        rw [List.take_zero, List.append_nil]
        exact h.isFrameOf hclose
      | succ i =>
        rw [List.take_succ_cons, ← List.singleton_append, ← List.append_assoc]
        exact hframes i packet' f' hpacket' hf'
    · rw [readFrames_eq_nil hloop, packets_eq_nil hnone]
      exact ⟨rfl, by simp⟩

end

/-- The frames of a device that was just opened are those of its packets, one by one. -/
theorem forall_readFrames (accel gyro : Vec3 Int32) (reads : List ReadResult) :
    (readFrames (.opened accel gyro) reads).length = (packets (delivered reads)).length ∧
      ∀ i packet f, (packets (delivered reads))[i]? = some packet →
        (readFrames (.opened accel gyro) reads)[i]? = some f →
          IsFrameOf accel gyro ((packets (delivered reads)).take i) packet f :=
  (afterPackets_nil accel gyro).readFrames reads

end Evdev
