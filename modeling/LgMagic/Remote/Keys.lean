import LgMagic.Remote

/-!
# The keys of the remote and of the virtual keyboard

What waits in the queue of the keyboard leads from the keys that the daemon has seen to those that
are down on the device of the driver. So once the queue is empty, the virtual keyboard has no key down
that the remote does not hold, whatever the reports are and in whatever order reports, repeats, reads
and new configurations come; and where the map stays while a key is held, it has the code of that key
down.

* `followsAll_pass`: the events that pass follow each other;
* `KeysFlow`, `inductive_keysFlow`: the invariant of the queue;
* `noStuckKey_remoteSystem`: no key is stuck;
* `Mirrors`, `exact_quietSystem`: the held key is down under the code of the map.
-/

namespace Remote

open CString Daemon Evdev InputCore Kernel Pointer Profiles

/-! ## Events that pass -/

/-- The keys of a device as the daemon names them. -/
def codes (down : Finset ℕ) : Finset ℤ := down.map Nat.castEmbedding

theorem mem_codes {down : Finset ℕ} {c : ℕ} : (c : ℤ) ∈ codes down ↔ c ∈ down :=
  Finset.mem_map' Nat.castEmbedding

theorem card_codes (down : Finset ℕ) : (codes down).card = down.card := Finset.card_map _

theorem codes_insert (c : ℕ) (down : Finset ℕ) :
    codes (insert c down) = insert (c : ℤ) (codes down) := Finset.map_insert _ _ _

theorem codes_erase (c : ℕ) (down : Finset ℕ) :
    codes (down.erase c) = (codes down).erase (c : ℤ) := Finset.map_erase _ _ _

theorem followsAll_append {together : Finset ℤ → Prop} {pressed : Finset ℤ} {es es' : List KeyEvent} :
    FollowsAll together pressed (es ++ es') ↔
      FollowsAll together pressed es ∧ FollowsAll together (es.foldl pressAfter pressed) es' := by
  induction es generalizing pressed with
  | nil => simp [FollowsAll]
  | cons e es ih => rw [List.cons_append, FollowsAll, FollowsAll, ih, List.foldl_cons, and_assoc]

theorem keyEvents_append (evs evs' : List InputEvent) :
    keyEvents (evs ++ evs') = keyEvents evs ++ keyEvents evs' := by
  simp [keyEvents]

section

variable {bits : DeviceBits} {defuzz : ℤ → ℤ → ℤ} {st : DeviceState} {together : Finset ℤ → Prop}

/-- An event that passes is a press of a key that is up, or a release of one that is down. -/
theorem followsAll_event {ev : InputEvent} (hev : ev.type = evKey → ev.value = 0 ∨ ev.value = 1)
    (htogether : together (codes (writeEvent bits.key st.down ev))) :
    let passed := keyEvents (st.event bits defuzz ev).2.toList
    FollowsAll together (codes st.down) passed ∧
      passed.foldl pressAfter (codes st.down) = codes (st.event bits defuzz ev).1.down := by
  by_cases hkey : ev.type = evKey ∧ bits.key ev.code = true
  · obtain ⟨type, c, value⟩ := ev
    obtain ⟨rfl, hbit⟩ : type = evKey ∧ bits.key c = true := hkey
    rw [DeviceState.event, if_pos ⟨rfl, hbit⟩, DeviceState.keyEvent]
    rw [writeEvent, if_pos ⟨rfl, hbit⟩] at htogether
    dsimp only at htogether ⊢
    rcases hev rfl with hzero | hone
    · obtain rfl : value = 0 := hzero
      rw [if_neg (by omega), if_pos rfl]
      split_ifs with hmem
      · refine ⟨⟨.inr ⟨.inr rfl, mem_codes.mpr hmem⟩, trivial⟩, ?_⟩
        exact (codes_erase c st.down).symm
      · exact ⟨trivial, rfl⟩
    · obtain rfl : value = 1 := hone
      rw [if_neg (by omega), if_neg (by omega)] at htogether ⊢
      split_ifs with hmem
      · exact ⟨trivial, rfl⟩
      · refine ⟨⟨.inl ⟨rfl, fun h => hmem (mem_codes.mp h), ?_⟩, trivial⟩, ?_⟩
        · rwa [codes_insert] at htogether
        · exact (codes_insert c st.down).symm
  · have hnone : keyEvents (st.event bits defuzz ev).2.toList = [] := by
      cases hpassed : (st.event bits defuzz ev).2 with
      | none => rfl
      | some passed =>
        obtain ⟨htype, hcode, -⟩ := event_of_mem (Option.mem_def.mpr hpassed)
        by_cases htyped : ev.type = evKey
        · -- a key that the device does not have
          have hbit : ¬ bits.key ev.code = true := fun h => hkey ⟨htyped, h⟩
          rw [DeviceState.event] at hpassed
          simp [htyped, hbit, evKey, evRel, evAbsolute, evMisc] at hpassed
        · simp [keyEvents, htype, htyped]
    have hdown : (st.event bits defuzz ev).1.down = st.down := by
      rw [event_down, writeEvent, if_neg hkey]
    rw [hnone, hdown]
    exact ⟨trivial, rfl⟩

/-- The key events that pass follow each other, and lead to the keys that are down. -/
theorem followsAll_pass {P : Finset ℕ → Prop} {evs : List InputEvent}
    (hP : ∀ down, P down → together (codes down))
    (hev : ∀ ev ∈ evs, ev.type = evKey → ev.value = 0 ∨ ev.value = 1)
    (h : Through P bits.key st.down evs) :
    let passed := keyEvents (st.pass bits defuzz evs).2
    FollowsAll together (codes st.down) passed ∧
      passed.foldl pressAfter (codes st.down) = codes (st.pass bits defuzz evs).1.down := by
  induction evs generalizing st with
  | nil => exact ⟨trivial, rfl⟩
  | cons ev evs ih =>
    obtain ⟨hfirst, hrest⟩ := h
    obtain ⟨hfollows, hstate⟩ := followsAll_event (hev ev List.mem_cons_self)
      (hP _ hfirst)
    obtain ⟨hfollows', hstate'⟩ := @ih (st.event bits defuzz ev).1
      (fun ev hmem => hev ev (List.mem_cons_of_mem _ hmem)) (by rwa [event_down])
    dsimp only
    rw [DeviceState.pass, keyEvents_append, followsAll_append, List.foldl_append, hstate]
    exact ⟨⟨hfollows, hfollows'⟩, hstate'⟩

end

/-! ## The keys of a report -/

section

variable {F : Type} {keys : ℕ → Bool} {raw : RawSys F}

theorem card_down_le_one (h : OneKeyDown keys raw) : raw.down.card ≤ 1 :=
  Finset.card_le_one.mpr fun a ha b hb => (h.down a ha).trans (h.down b hb).symm

/-- `KEY_RESERVED` is never down. -/
theorem down_eq_empty {key0x8000 : ℤ} (h : OneKeyDown (hidKeys key0x8000) raw)
    (hlast : raw.drvdata.lastKeycode = 0) : raw.down = ∅ := by
  refine Finset.eq_empty_of_forall_notMem fun c hc => ?_
  have hkey := h.keys c hc
  rw [h.down c hc, hlast] at hkey
  exact absurd hkey (by simp [hidKeys, keyReserved])

/-- The button of a report holds one key at a time. -/
theorem through_reportButton (h : OneKeyDown keys raw) (params : ReportParams) (code : ℕ) :
    let b := (reportButton params raw.drvdata code).2
    Through (·.card ≤ 1) keys raw.down b ∧ (writeEvents keys raw.down b).card ≤ 1 := by
  rcases reportButton_cases params raw.drvdata code with
    ⟨-, hb⟩ | ⟨-, hb⟩ | ⟨mode, k, -, -, -, hb⟩
  · rw [hb]
    exact ⟨trivial, card_down_le_one h⟩
  · simp only [hb, Through, writeEvents_cons, writeEvents_nil,
      writeEvent_release_eq_empty h.down h.keys]
    exact ⟨⟨by simp, trivial⟩, by simp⟩
  · have hpress : (writeEvent keys ∅ (reportKey k 1)).card ≤ 1 := by
      rw [writeEvent_press_empty]
      split_ifs <;> simp
    simp only [hb, Through, writeEvents_cons, writeEvents_nil,
      writeEvent_release_eq_empty h.down h.keys]
    exact ⟨⟨by simp, hpress, trivial⟩, hpress⟩

/-- How many keys a report holds at a time. -/
def mostKeys (params : ReportParams) : ℕ := if params.rawOnly then 1 else 2

theorem one_le_mostKeys (params : ReportParams) : 1 ≤ mostKeys params := by
  rw [mostKeys]
  split_ifs <;> decide

/-- A step of the wheel that is a key. -/
theorem through_click {down : Finset ℕ} (h : down.card ≤ 1) (c : ℕ) :
    Through (·.card ≤ 2) keys down [reportKey c 1, reportKey c 0] := by
  have hpress : (writeEvent keys down (reportKey c 1)).card ≤ 2 := by
    rw [writeEvent]
    split_ifs
    · exact h.trans one_le_two
    · exact (Finset.card_erase_le).trans (h.trans one_le_two)
    · exact (Finset.card_insert_le _ _).trans (Nat.succ_le_succ h)
    · exact h.trans one_le_two
  -- a release takes a key out or does nothing
  have hrelease (down : Finset ℕ) : (writeEvent keys down (reportKey c 0)).card ≤ down.card := by
    refine Finset.card_le_card fun x hx => ?_
    rcases mem_of_mem_writeEvent hx with hmem | ⟨-, hne, -⟩
    · exact hmem
    · exact absurd rfl hne
  exact ⟨hpress, (hrelease _).trans hpress, trivial⟩

/-- The wheel of a report holds one key more, and none in raw mode. -/
theorem through_reportWheel {down : Finset ℕ} (h : down.card ≤ 1) (params : ReportParams)
    (mode : Bool) (wheel : ℤ) :
    Through (·.card ≤ mostKeys params) keys down (reportWheel params mode wheel) := by
  have hone := h.trans (one_le_mostKeys params)
  have hclick (c : ℕ) (hraw : ¬ (params.rawOnly || mode) = true) :
      Through (·.card ≤ mostKeys params) keys down [reportKey c 1, reportKey c 0] := by
    rw [mostKeys, if_neg fun h => hraw (by rw [h, Bool.true_or])]
    exact through_click h c
  rw [reportWheel]
  split_ifs with hzero hrel
  · trivial
  · exact through_of_type_ne hone (by simp [evRel, evKey])
  · exact hclick _ hrel
  · exact hclick _ hrel

variable [CArith F]

/-- A report holds at most two keys at a time, and in raw mode one. -/
theorem through_kbdEvents (h : OneKeyDown keys raw) (params : ReportParams) (data : List UInt8) :
    Through (·.card ≤ mostKeys params) keys raw.down (kbdEvents params raw.drvdata data) := by
  rw [kbdEvents]
  split_ifs with hdata
  · trivial
  · obtain ⟨hbutton, hone⟩ := through_reportButton h params (btnCodeOf data)
    set b := reportButton params raw.drvdata (btnCodeOf data)
    set wheel := reportWheel params b.1.mode (s8 (byteAt data 19))
    have hmost {down : Finset ℕ} (hdown : down.card ≤ 1) : down.card ≤ mostKeys params :=
      hdown.trans (one_le_mostKeys params)
    -- the key of the wheel is up again before the pointer
    have hafter : (writeEvents keys (writeEvents keys raw.down b.2) wheel).card ≤ 1 :=
      (Finset.card_le_card (writeEvents_reportWheel_subset params _ _)).trans hone
    obtain ⟨-, -, -, -, hpointer⟩ := reportPointer_fields params b.1 (sampleOf data).gyro
    rw [through_append, through_append, writeEvents_append]
    exact ⟨⟨hbutton.mono fun _ => hmost, through_reportWheel hone params _ _⟩,
      through_of_type_ne (hmost hafter) hpointer⟩

/-- A report fits in a frame. -/
theorem length_kbdEvents_le (params : ReportParams) (d : Drvdata F) (data : List UInt8) :
    (kbdEvents params d data).length ≤ maxKeys := by
  have hbutton : (reportButton params d (btnCodeOf data)).2.length ≤ 2 := by
    rcases reportButton_cases params d (btnCodeOf data) with
      ⟨-, hb⟩ | ⟨-, hb⟩ | ⟨mode, k, -, -, -, hb⟩ <;> simp [hb]
  have hwheel (mode : Bool) (wheel : ℤ) : (reportWheel params mode wheel).length ≤ 2 := by
    rw [reportWheel]
    split_ifs <;> simp
  have hpointer (d : Drvdata F) (gyro : Vec3 ℤ) : (reportPointer params d gyro).2.2.length ≤ 2 := by
    rw [reportPointer]
    split_ifs
    · dsimp only
      split_ifs <;> simp
    · simp
  rw [kbdEvents]
  split_ifs
  · simp
  · simp only [List.length_append]
    have h₁ := hwheel (reportButton params d (btnCodeOf data)).1.mode (s8 (byteAt data 19))
    have h₂ := hpointer (reportButton params d (btnCodeOf data)).1 (sampleOf data).gyro
    calc _ ≤ 2 + 2 + 2 := by gcongr
      _ ≤ maxKeys := by decide

end

/-! ## What waits -/

/-- The packets that wait lead from the keys that the daemon has seen to those of the device. -/
structure Leads (together : Finset ℤ → Prop) (pressed : Finset ℤ) (down : Finset ℕ)
    (packets : List (List ReadEvent)) : Prop where
  short : ∀ packet ∈ packets, (keysOf packet).length ≤ maxKeys
  follows : FollowsAll together pressed (packets.flatMap packetKeys)
  after : (packets.flatMap packetKeys).foldl pressAfter pressed = codes down

section

variable {together : Finset ℤ → Prop} {pressed : Finset ℤ} {down down' : Finset ℕ}
  {packets : List (List ReadEvent)}

/-- A packet is sent. -/
theorem Leads.send (h : Leads together pressed down packets) {evs : List InputEvent}
    (hlen : evs.length ≤ maxKeys)
    (hvalue : ∀ ev ∈ evs, ev.type = evKey → 0 ≤ ev.value ∧ ev.value ≤ 2)
    (hfollows : FollowsAll together (codes down) (keyEvents evs))
    (hafter : (keyEvents evs).foldl pressAfter (codes down) = codes down') :
    Leads together pressed down' (packets ++ packetsOf evs) where
  short packet hpacket := by
    rcases List.mem_append.mp hpacket with hmem | hmem
    · exact h.short packet hmem
    · rw [packetsOf] at hmem
      split_ifs at hmem
      · cases hmem
      · rw [List.mem_singleton.mp hmem, keysOf, List.length_map]
        exact (List.length_filter_le _ _).trans (by simpa using hlen)
  follows := by
    rw [List.flatMap_append, flatMap_packetsOf hvalue, followsAll_append, h.after]
    exact ⟨h.follows, hfollows⟩
  after := by
    rw [List.flatMap_append, flatMap_packetsOf hvalue, List.foldl_append, h.after, hafter]

/-- A packet is read. -/
theorem Leads.read {packet : List ReadEvent} (h : Leads together pressed down (packet :: packets)) :
    FollowsAll together pressed (packetKeys packet) ∧
      Leads together ((packetKeys packet).foldl pressAfter pressed) down packets := by
  have hfollows := h.follows
  have hafter := h.after
  rw [List.flatMap_cons, followsAll_append] at hfollows
  rw [List.flatMap_cons, List.foldl_append] at hafter
  exact ⟨hfollows.1, fun p hp => h.short p (List.mem_cons_of_mem _ hp), hfollows.2, hafter⟩

end

/-- The invariant of the queue, with at most `n` keys down at a time. -/
structure KeysFlow {F : Type} (key0x8000 : ℤ) (n : ℕ) (s : RemoteSys F) : Prop where
  raw : OneKeyDown (hidKeys key0x8000) s.toRaw
  vals : s.kbdDev.vals = []
  waits : ∃ packets, IsQueue packets s.kbdQueue ∧
    Leads (·.card ≤ n) s.kbd.pressed s.kbdDev.state.down packets

section

variable {F : Type} {key0x8000 : ℤ} {defuzz : ℤ → ℤ → ℤ} {n : ℕ} {s : RemoteSys F}

theorem foldl_key_pressed (es : List KeyEvent) (s : KbdSys F) :
    (es.foldl KbdSys.key s).pressed = es.foldl pressAfter s.pressed := by
  induction es generalizing s with
  | nil => rfl
  | cons e es ih => exact ih (s.key e)

/-- The input core sends a repeat as it is. -/
theorem handleAll_repeatEvents {dev : InputDevice} (hvals : dev.vals = []) (bits : DeviceBits)
    {c : ℕ} (hc : bits.key c = true) :
    dev.handleAll bits defuzz (repeatEvents c) =
      (⟨dev.state, []⟩, packetOf [⟨evKey, c, 2⟩] ⟨evSyn, 0, 1⟩) := by
  have hev : dev.state.pass bits defuzz [⟨evKey, c, 2⟩] = (dev.state, [⟨evKey, c, 2⟩]) := by
    simp [DeviceState.pass, DeviceState.event, DeviceState.keyEvent, hc]
  have hpacket := @handleAll_packet bits defuzz dev [⟨evKey, c, 2⟩] ⟨evSyn, 0, 1⟩
    (by simp [IsReport, evKey, evSyn]) ⟨rfl, rfl⟩ hvals
  rw [hev] at hpacket
  exact hpacket

variable [CArith F]

/-- The keys of the driver and of what waits, once the daemon has opened the devices. -/
theorem JustOpened.keysFlow (h : JustOpened key0x8000 s) : KeysFlow key0x8000 n s where
  raw := h.driver.of_inductive (inductive_oneKeyDown key0x8000)
  vals := h.kbdVals
  waits := ⟨[], h.kbdQueue ▸ .nil, by simp, trivial, h.pressed⟩

/-- The invariant holds after a report. -/
theorem KeysFlow.report (h : KeysFlow key0x8000 n s) {i : RawInput} (hi : mostKeys i.params ≤ n) :
    KeysFlow key0x8000 n (s.report key0x8000 defuzz i) := by
  have hraw : OneKeyDown (hidKeys key0x8000) (s.report key0x8000 defuzz i).toRaw :=
    toRaw_report key0x8000 defuzz s i ▸ h.raw.report i
  have hsent := @handleAll_lgmagicRawEvent F _ i.params s.drvdata i.data s.kbdDev
    (kbdBits key0x8000) defuzz h.raw.hid h.raw.imu h.vals
  obtain ⟨packets, hqueue, hleads⟩ := h.waits
  obtain ⟨hfollows, hafter⟩ := @followsAll_pass (kbdBits key0x8000) defuzz s.kbdDev.state
    (·.card ≤ n) (·.card ≤ mostKeys i.params) (kbdEvents i.params s.drvdata i.data)
    (fun down hdown => (card_codes down).trans_le (hdown.trans hi))
    (fun ev hev hkey => by
      rcases kbdEvents_type ev hev with ⟨-, hvalue⟩ | hrel
      · exact hvalue
      · exact absurd (hkey.symm.trans hrel) (by decide))
    (through_kbdEvents h.raw i.params i.data)
  -- what passes is the events of the report, as they were written
  have hpassed : ∀ ev ∈ (s.kbdDev.state.pass (kbdBits key0x8000) defuzz
      (kbdEvents i.params s.drvdata i.data)).2, ev.type ≠ evSyn ∧
        (ev.type = evKey → 0 ≤ ev.value ∧ ev.value ≤ 2) := by
    intro ev hev
    obtain ⟨ev', hmem, htype, -, hvalue⟩ := pass_of_mem hev
    rcases kbdEvents_type ev' hmem with ⟨hkey, hvalue'⟩ | hrel
    · rw [htype, hvalue (by rw [hkey]; decide), hkey]
      exact ⟨by decide, fun _ => by omega⟩
    · rw [htype, hrel]
      exact ⟨by decide, fun h => absurd h (by decide)⟩
  refine ⟨hraw, ?_, packets ++ packetsOf _, ?_, hleads.send ?_ (fun ev hev => (hpassed ev hev).2)
    hfollows ?_⟩
  · simp only [RemoteSys.report, hsent]
  · simp only [RemoteSys.report, hsent]
    exact isQueue_send hqueue (fun ev hev => (hpassed ev hev).1) rfl
  · exact (length_pass_le _).trans (length_kbdEvents_le _ _ _)
  · simp only [RemoteSys.report, hsent]
    exact hafter

omit [CArith F] in
/-- The invariant holds after a repeat. -/
theorem KeysFlow.autorepeat (h : KeysFlow key0x8000 n s) {c : ℕ} (hc : c ∈ s.kbdDev.state.down) :
    KeysFlow key0x8000 n (s.autorepeat key0x8000 defuzz c) := by
  have hsent := @handleAll_repeatEvents defuzz s.kbdDev h.vals (kbdBits key0x8000) c
    (h.raw.keys c hc)
  obtain ⟨packets, hqueue, hleads⟩ := h.waits
  refine ⟨toRaw_autorepeat key0x8000 defuzz s c ▸ h.raw, ?_, packets ++ packetsOf [⟨evKey, c, 2⟩],
    ?_, hleads.send (by simp [maxKeys]) (by simp) ⟨.inr ⟨.inl rfl, mem_codes.mpr hc⟩, trivial⟩ ?_⟩
  · simp only [RemoteSys.autorepeat, hsent]
  · simp only [RemoteSys.autorepeat, hsent]
    exact isQueue_send hqueue (by simp [evKey, evSyn]) rfl
  · simp only [RemoteSys.autorepeat, hsent]
    exact Finset.insert_eq_of_mem (mem_codes.mpr hc)

/-- A frame of the keyboard has the key events of the first packet that waits. -/
theorem KeysFlow.keyboard (h : KeysFlow key0x8000 n s) {reads rest : List ReadResult} {dev : ImuDev}
    {f : Frame} (hreads : delivered reads = s.kbdQueue)
    (hread : evdevReadFrameExt s.kbdReader reads = .frame dev f rest) :
    FollowsAll (·.card ≤ n) s.kbd.pressed (evdevFrame f).keys ∧
      KeysFlow key0x8000 n (s.keyboard dev f (delivered rest)) := by
  obtain ⟨packets, hqueue, hleads⟩ := h.waits
  obtain ⟨packet, packets', rfl, hqueue', hframe⟩ := (hreads ▸ hqueue).read hread
  obtain ⟨hfollows, hleads'⟩ := hleads.read
  -- no key event is cut off: the packet is short enough for the array of a frame
  have hkeys : (evdevFrame f).keys = packetKeys packet := by
    have hfields := (framePacket_fields s.kbdReader packet).1
    rw [hframe, List.take_of_length_le (hleads.short packet List.mem_cons_self)] at hfields
    exact congrArg (List.map toKeyEvent) hfields
  refine ⟨hkeys ▸ hfollows, h.raw, h.vals, packets', hqueue', ?_⟩
  rw [← hkeys, ← foldl_key_pressed] at hleads'
  exact hleads'

/-! ## No key is stuck -/

/-- Besides, the keys that are down belong to keys that the daemon has seen pressed. -/
structure NoStuckKey (key0x8000 : ℤ) (s : RemoteSys F) : Prop
    extends KeysFlow key0x8000 heldMax s where
  pinned : DownPinned s.kbd

/-- The invariant holds in every state of a run. -/
theorem inductive_noStuckKey (fd : ℕ) :
    (remoteSystem F key0x8000 defuzz fd).Inductive (NoStuckKey key0x8000) where
  init s h := by
    have hflow : KeysFlow key0x8000 heldMax s := h.keysFlow
    have hheld : s.kbd.pipe.held = [] := by
      rw [h.pipe]
      rfl
    refine ⟨hflow, by simp [h.down], by simp [h.down], by simp [hheld], by simp [hheld], ?_⟩
    rw [h.pressed, Finset.card_map]
    exact (card_down_le_one hflow.raw).trans (by decide)
  step s l s' h hstep := by
    cases l with
    | report i =>
      obtain rfl := hstep
      refine ⟨h.toKeysFlow.report ?_, h.pinned⟩
      rw [mostKeys]
      split_ifs <;> decide
    | autorepeat c =>
      obtain ⟨hc, rfl⟩ := hstep
      exact ⟨h.toKeysFlow.autorepeat hc, h.pinned⟩
    | readKbd reads =>
      obtain ⟨hreads, dev, f, rest, hread, rfl⟩ := hstep
      obtain ⟨hfollows, hflow⟩ := h.toKeysFlow.keyboard hreads hread
      exact ⟨hflow, (inductive_downPinned fd).step _ (.frame (evdevFrame f)) _ h.pinned
        ⟨hfollows, rfl⟩⟩
    | readImu reads =>
      obtain ⟨-, dev, f, rest, -, rfl⟩ := hstep
      -- the samples neither press nor release
      have hheld := (pipelineImu_kept s.kbd.pipe (evdevFrame f)).1
      obtain ⟨hdown, hkeys, hnodup, hpressed, hshort⟩ := h.pinned
      exact ⟨⟨h.raw, h.vals, h.waits⟩, by simpa only [RemoteSys.imu, hheld] using hdown, hkeys,
        by simpa only [RemoteSys.imu, hheld] using hnodup,
        by simpa only [RemoteSys.imu, hheld] using hpressed, hshort⟩
    | configure calibLoad dc calibPath gcfg =>
      obtain rfl := hstep
      exact ⟨⟨h.raw, h.vals, h.waits⟩, h.pinned.configure _ _ _ _ _⟩

omit [CArith F] in
/-- A daemon that has read everything has seen the keys that are down on the device. -/
theorem KeysFlow.pressed_eq (h : KeysFlow key0x8000 n s) (hempty : s.kbdQueue = []) :
    s.kbd.pressed = codes s.kbdDev.state.down := by
  obtain ⟨packets, hqueue, hleads⟩ := h.waits
  obtain rfl := hqueue.eq_nil hempty
  exact hleads.after

/-- The keycode of a button code. -/
def keycodeOf (key0x8000 : ℤ) (code : ℕ) : ℕ :=
  if code = 0 then 0
  else ((lgBtnMap.find? fun b => b.1 = code).map fun b => lgmagicBtnKeycode key0x8000 b.1 b.2).getD 0

/-- The keys of the virtual keyboard for a key of the remote. -/
def virtualKeys (map : List (ℤ × ℤ)) (q : ℤ) : Finset ℕ :=
  if kbdKeys (u16 (mapLookup map q)) then {u16 (mapLookup map q)} else ∅

/-- At most one key of the remote is held, and that one is down under the code of the map. -/
def Mirrors (s : KbdSys F) : Prop :=
  (s.pressed = ∅ ∧ s.pipe.held = [] ∧ s.down = ∅) ∨
    ∃ q, s.pressed = {q} ∧ s.pipe.held = [⟨q, mapLookup s.pipe.active.map q⟩] ∧
      s.down = virtualKeys s.pipe.active.map q

omit [CArith F] in
/-- A press while the table is empty. -/
theorem pipelineKey_of_held_eq_nil {p : Pipeline F} {e : KeyEvent} (hheld : p.held = [])
    (hvalue : e.value = 1) :
    pipelineKey p e = ({ p with held := [⟨e.code, mapLookup p.active.map e.code⟩] },
      mapLookup p.active.map e.code) := by
  simp [pipelineKey, hheld, heldIdx, hvalue, heldMax]

omit [CArith F] in
/-- An event of the only key in the table. -/
theorem pipelineKey_of_held_eq_singleton {p : Pipeline F} {e : KeyEvent} {virt : ℤ}
    (hheld : p.held = [⟨e.code, virt⟩]) :
    pipelineKey p e = (if e.value = 0 then { p with held := [] } else p, virt) := by
  by_cases hvalue : e.value = 0
  · simp [pipelineKey, hheld, heldIdx, hvalue, removeHeld]
  · simp [pipelineKey, hheld, heldIdx, hvalue]

omit [CArith F] in
/-- A key event keeps the virtual keyboard in step. -/
theorem Mirrors.key {s : KbdSys F} {e : KeyEvent} (h : Mirrors s)
    (he : Follows (·.card ≤ 1) s.pressed e) : Mirrors (s.key e) := by
  rcases h with ⟨hpressed, hheld, hdown⟩ | ⟨q, hpressed, hheld, hdown⟩
  · -- no key is held: a press
    rcases he with ⟨hone, -, -⟩ | ⟨-, hmem⟩
    · refine .inr ⟨e.code, by simp [KbdSys.key, pressAfter, hone, hpressed], ?_, ?_⟩
      · rw [KbdSys.key, pipelineKey_of_held_eq_nil hheld hone]
      · simp only [KbdSys.key, pipelineKey_of_held_eq_nil hheld hone, hdown, hone, uinputKey,
          writeEvents_cons, writeEvents_nil]
        rw [writeEvent_of_type_ne (by decide)]
        exact writeEvent_press_empty kbdKeys _
    · rw [hpressed] at hmem
      cases hmem
  · rcases he with ⟨-, hnotMem, hcard⟩ | ⟨hvalue, hmem⟩
    · -- a second key would be held
      rw [hpressed] at hnotMem hcard
      rw [Finset.card_insert_of_notMem hnotMem, Finset.card_singleton] at hcard
      omega
    · rw [hpressed] at hmem
      obtain rfl : e.code = q := Finset.mem_singleton.mp hmem
      -- a repeat or the release of the one key that is held
      have hkey := pipelineKey_of_held_eq_singleton hheld
      rcases hvalue with htwo | hzero
      · rw [if_neg (by omega)] at hkey
        refine .inr ⟨e.code, by simp [KbdSys.key, pressAfter, htwo, hpressed], ?_, ?_⟩
        · rw [KbdSys.key, hkey, hheld]
        · simp only [KbdSys.key, hkey, htwo, hdown, uinputKey, writeEvents_cons, writeEvents_nil]
          rw [writeEvent_of_type_ne (by decide), writeEvent_repeat]
      · rw [if_pos hzero] at hkey
        refine .inl ⟨by simp [KbdSys.key, pressAfter, hzero, hpressed], ?_, ?_⟩
        · rw [KbdSys.key, hkey]
        · simp only [KbdSys.key, hkey, hzero, hdown, uinputKey, writeEvents_cons, writeEvents_nil]
          rw [writeEvent_of_type_ne (by decide)]
          have hvirtual : ∀ x ∈ virtualKeys s.pipe.active.map e.code,
              x = u16 (mapLookup s.pipe.active.map e.code) ∧ kbdKeys x = true := by
            intro x hx
            rw [virtualKeys] at hx
            split_ifs at hx with hbit
            · obtain rfl := Finset.mem_singleton.mp hx
              exact ⟨rfl, hbit⟩
            · cases hx
          exact writeEvent_release_eq_empty (fun x hx => (hvirtual x hx).1) fun x hx =>
            (hvirtual x hx).2

omit [CArith F] in
theorem Mirrors.keyEvents {es : List KeyEvent} {s : KbdSys F} (h : Mirrors s)
    (hes : FollowsAll (·.card ≤ 1) s.pressed es) : Mirrors (es.foldl KbdSys.key s) := by
  induction es generalizing s with
  | nil => exact h
  | cons e es ih => exact ih (h.key hes.1) hes.2

/-- The keys that the daemon has seen, the virtual keyboard and the driver, in raw mode. -/
structure Exact (key0x8000 : ℤ) (s : RemoteSys F) : Prop extends KeysFlow key0x8000 1 s where
  last : LastKeyDown (hidKeys key0x8000) s.toRaw
  keycode : s.drvdata.lastKeycode = keycodeOf key0x8000 s.drvdata.lastBtncode
  mirrors : Mirrors s.kbd

omit [CArith F] in
/-- In raw mode the last keycode is that of the last button. -/
theorem reportButton_keycode {params : ReportParams} {d : Drvdata F} {key0x8000 : ℤ}
    (hraw : params.rawOnly = true) (hkey : params.key0x8000 = key0x8000)
    (h : d.lastKeycode = keycodeOf key0x8000 d.lastBtncode) (code : ℕ) :
    let d' := (reportButton params d code).1
    d'.lastKeycode = keycodeOf key0x8000 d'.lastBtncode := by
  intro d'
  simp only [d', reportButton]
  split_ifs with hsame hzero
  · exact h
  · simp [keycodeOf, hzero]
  · cases hfind : lgBtnMap.find? fun b => b.1 = code with
    | none => simp [keycodeOf, hzero, hfind]
    | some b => simp [keycodeOf, hzero, hfind, hraw, hkey]

/-- The runs in raw mode where the daemon opens the devices while the remote holds no button, and takes
a new configuration while it sees none held. -/
def quietSystem (F : Type) [CArith F] (key0x8000 : ℤ) (defuzz : ℤ → ℤ → ℤ) (fd : ℕ) :
    TransitionSystem (RemoteSys F) (RemoteLabel F) where
  init s := JustOpened key0x8000 s ∧ s.lastCode = 0
  step s l s' := (remoteSystem F key0x8000 defuzz fd).step s l s' ∧
    match l with
    | .report i => RawMode key0x8000 i
    | .configure .. => s.kbd.pressed = ∅
    | _ => True

/-- The invariant holds in every state of such a run. -/
theorem inductive_exact (fd : ℕ) :
    (quietSystem F key0x8000 defuzz fd).Inductive (Exact key0x8000) where
  init s h := by
    obtain ⟨hopened, hcode⟩ := h
    have hflow : KeysFlow key0x8000 1 s := hopened.keysFlow
    have hbtn : s.drvdata.lastBtncode = 0 := hflow.raw.code.symm.trans hcode
    have hlast : s.drvdata.lastKeycode = 0 := hflow.raw.unmapped (.inl hbtn)
    have hdown : s.kbdDev.state.down = ∅ := down_eq_empty hflow.raw hlast
    refine ⟨hflow, ⟨hflow.raw, fun hne => absurd hlast hne⟩, ?_, .inl ⟨?_, ?_, hopened.down⟩⟩
    · rw [hlast, hbtn]
      rfl
    · rw [hopened.pressed, hdown]
      rfl
    · rw [hopened.pipe]
      rfl
  step s l s' h hstep := by
    obtain ⟨hstep, hcond⟩ := hstep
    cases l with
    | report i =>
      obtain rfl := hstep
      have hlast := h.last.report hcond
      rw [← toRaw_report key0x8000 defuzz s i] at hlast
      obtain ⟨hraw, hkey⟩ := hcond
      refine ⟨h.toKeysFlow.report (by simp [mostKeys, hraw]), hlast, ?_, h.mirrors⟩
      -- a report that the driver does not know changes no code
      cases hdata : unknownReport i.data with
      | true =>
        simp only [RemoteSys.report, lgmagicRawEvent, hdata, if_true]
        split_ifs <;> exact h.keycode
      | false =>
        obtain ⟨-, -, hkeycode, hbtncode, -⟩ := lgmagicRawEvent_buttons (hidKeys key0x8000)
          s.kbdDev.state.down i.params h.raw.hid h.raw.imu hdata
        have hbutton := reportButton_keycode hraw hkey h.keycode (btnCodeOf i.data)
        exact (hkeycode.trans hbutton).trans (congrArg _ hbtncode.symm)
    | autorepeat c =>
      obtain ⟨hc, rfl⟩ := hstep
      exact ⟨h.toKeysFlow.autorepeat hc, toRaw_autorepeat key0x8000 defuzz s c ▸ h.last, h.keycode,
        h.mirrors⟩
    | readKbd reads =>
      obtain ⟨hreads, dev, f, rest, hread, rfl⟩ := hstep
      obtain ⟨hfollows, hflow⟩ := h.toKeysFlow.keyboard hreads hread
      refine ⟨hflow, h.last, h.keycode, ?_⟩
      rw [RemoteSys.keyboard, KbdSys.frame_eq]
      simpa [Mirrors] using h.mirrors.keyEvents hfollows
    | readImu reads =>
      obtain ⟨-, dev, f, rest, -, rfl⟩ := hstep
      obtain ⟨hheld, hactive, -⟩ := pipelineImu_kept s.kbd.pipe (evdevFrame f)
      refine ⟨⟨h.raw, h.vals, h.waits⟩, h.last, h.keycode, ?_⟩
      simpa only [Mirrors, RemoteSys.imu, hheld, hactive] using h.mirrors
    | configure calibLoad dc calibPath gcfg =>
      obtain rfl := hstep
      -- nothing is held, so the map may change
      refine ⟨⟨h.raw, h.vals, h.waits⟩, h.last, h.keycode, .inl ⟨hcond, ?_, ?_⟩⟩
      · exact pipelineConfigure_held (Int.natCast_nonneg fd)
      · rcases h.mirrors with ⟨-, hheld, hdown⟩ | ⟨q, hpressed, -⟩
        · simp only [KbdSys.configure, pipelineConfigure_writes (Int.natCast_nonneg fd), hheld, hdown]
          rfl
        · exact absurd (hpressed.symm.trans hcond) (Finset.singleton_ne_empty q)

end

/-! ## A run -/

/-- The daemon reads the frame of the keyboard that waits. -/
def RemoteSys.readNext (s : RemoteSys ℚ) : RemoteSys ℚ :=
  match evdevReadFrameExt s.kbdReader (s.kbdQueue.map .whole) with
  | .frame dev f rest => s.keyboard dev f (delivered rest)
  | _ => s

/-- `KEY_UP` is pressed, and the daemon reads it. -/
def upRemote : RemoteSys ℚ := (openedRemote.report 116 farApart upReport).readNext

/-- The next frame can be read while there is one. -/
theorem step_readNext {s : RemoteSys ℚ} {key0x8000 : ℤ} {n : ℕ} (h : KeysFlow key0x8000 n s)
    (hne : s.kbdQueue ≠ []) (defuzz : ℤ → ℤ → ℤ) (fd : ℕ) :
    (remoteSystem ℚ key0x8000 defuzz fd).step s (.readKbd (s.kbdQueue.map .whole)) s.readNext := by
  obtain ⟨packets, hqueue, -⟩ := h.waits
  obtain ⟨dev, f, rest, hread⟩ := hqueue.exists_frame hne s.kbdReader
  refine ⟨delivered_map_whole _, dev, f, rest, hread, ?_⟩
  rw [RemoteSys.readNext, hread]

theorem step_upRemote (fd : ℕ) :
    (remoteSystem ℚ 116 farApart fd).step (openedRemote.report 116 farApart upReport)
      (.readKbd ((openedRemote.report 116 farApart upReport).kbdQueue.map .whole)) upRemote :=
  step_readNext ((justOpened_openedRemote.keysFlow (n := 1)).report (by decide)) (by decide +kernel) _ _

end Remote
