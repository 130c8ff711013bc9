import LgMagic.Lib.InputCore

/-!
# What the readers of an input device get

The part of the Linux input core between a driver and the readers of its device. An event passes when
the device has its code and when it changes something; what passes waits for `SYN_REPORT` and is read as
one packet. A `SYN_REPORT` with nothing before it is not read.

* `DeviceState.event`, `DeviceState.pass`: what passes;
* `InputDevice.handle`, `InputDevice.handleAll`: the packets;
* `handleAll_packet`: the packet of events that end in `SYN_REPORT`;
* `pass_down`: the keys of the device.
-/

namespace InputCore

/-- `EV_ABS` -/
def evAbsolute : ℕ := 0x03

/-- `EV_MSC` -/
def evMisc : ℕ := 0x04

/-- What a device has. -/
structure DeviceBits where
  key : ℕ → Bool
  rel : ℕ → Bool
  abs : ℕ → Bool
  msc : ℕ → Bool

/-- The keys of a device that are down, and the values of its axes. -/
structure DeviceState where
  down : Finset ℕ
  axis : ℕ → ℤ

/-- An event of a key that the device has: the state after it, and whether the event passes. -/
def DeviceState.keyEvent (s : DeviceState) (ev : InputEvent) : DeviceState × Option InputEvent :=
  if ev.value = 2 then (s, some ev)
  else if ev.value = 0 then
    if ev.code ∈ s.down then ({ s with down := s.down.erase ev.code }, some ev) else (s, none)
  else if ev.code ∈ s.down then (s, none)
  else ({ s with down := insert ev.code s.down }, some ev)

section

variable (bits : DeviceBits) (defuzz : ℤ → ℤ → ℤ)

/-- A reading of an axis that the device has. It is smoothed against the one before. -/
def DeviceState.absEvent (s : DeviceState) (ev : InputEvent) : DeviceState × Option InputEvent :=
  if defuzz ev.value (s.axis ev.code) = s.axis ev.code then (s, none)
  else
    ({ s with axis := Function.update s.axis ev.code (defuzz ev.value (s.axis ev.code)) },
      some { ev with value := defuzz ev.value (s.axis ev.code) })

/-- An event of the driver: the state after it, and whether the event passes, with the value that it
passes with. -/
def DeviceState.event (s : DeviceState) (ev : InputEvent) : DeviceState × Option InputEvent :=
  if ev.type = evKey ∧ bits.key ev.code then s.keyEvent ev
  else if ev.type = evRel ∧ bits.rel ev.code then (s, if ev.value = 0 then none else some ev)
  else if ev.type = evAbsolute ∧ bits.abs ev.code then s.absEvent defuzz ev
  else if ev.type = evMisc ∧ bits.msc ev.code then (s, some ev)
  else (s, none)

/-- Several events: the state after them, and those that pass. -/
def DeviceState.pass (s : DeviceState) : List InputEvent → DeviceState × List InputEvent
  | [] => (s, [])
  | ev :: evs =>
    let r := s.event bits defuzz ev
    let r' := r.1.pass evs
    (r'.1, r.2.toList ++ r'.2)

/-- A device, with the events that wait for the end of their packet. -/
structure InputDevice where
  state : DeviceState
  vals : List InputEvent

/-- `SYN_REPORT` -/
def IsReport (ev : InputEvent) : Prop := ev.type = evSyn ∧ ev.code = 0

instance : DecidablePred IsReport := fun ev => inferInstanceAs (Decidable (ev.type = evSyn ∧ _))

/-- The packet that ends in an event, where there is something before it. -/
def packetOf (vals : List InputEvent) (syn : InputEvent) : List InputEvent :=
  if vals = [] then [] else vals ++ [syn]

/-- An event of the driver: the device after it, and what the readers get. -/
def InputDevice.handle (d : InputDevice) (ev : InputEvent) : InputDevice × List InputEvent :=
  if IsReport ev then (⟨d.state, []⟩, packetOf d.vals ev)
  else
    let r := d.state.event bits defuzz ev
    (⟨r.1, d.vals ++ r.2.toList⟩, [])

/-- The events of a driver, one after the other. -/
def InputDevice.handleAll (d : InputDevice) : List InputEvent → InputDevice × List InputEvent
  | [] => (d, [])
  | ev :: evs =>
    let r := d.handle bits defuzz ev
    let r' := r.1.handleAll evs
    (r'.1, r.2 ++ r'.2)

end

/-! ## Packets -/

section

variable {bits : DeviceBits} {defuzz : ℤ → ℤ → ℤ} {s : DeviceState} {d : InputDevice}
  {evs : List InputEvent}

/-- Without a `SYN_REPORT` nothing is read yet. -/
theorem handleAll_eq_pass (h : ∀ ev ∈ evs, ¬ IsReport ev) :
    d.handleAll bits defuzz evs =
      (⟨(d.state.pass bits defuzz evs).1, d.vals ++ (d.state.pass bits defuzz evs).2⟩, []) := by
  induction evs generalizing d with
  | nil => simp [InputDevice.handleAll, DeviceState.pass]
  | cons ev evs ih =>
    rw [InputDevice.handleAll, InputDevice.handle, if_neg (h ev List.mem_cons_self)]
    dsimp only
    rw [ih fun ev hev => h ev (List.mem_cons_of_mem _ hev), List.append_assoc]
    rfl

theorem handleAll_append (evs evs' : List InputEvent) :
    d.handleAll bits defuzz (evs ++ evs') =
      (((d.handleAll bits defuzz evs).1.handleAll bits defuzz evs').1,
        (d.handleAll bits defuzz evs).2 ++
          ((d.handleAll bits defuzz evs).1.handleAll bits defuzz evs').2) := by
  induction evs generalizing d with
  | nil => rfl
  | cons ev evs ih => simp only [List.cons_append, InputDevice.handleAll, ih, List.append_assoc]

/-- Events that end in `SYN_REPORT` are read as one packet, where one of them passes. -/
theorem handleAll_packet {syn : InputEvent} (h : ∀ ev ∈ evs, ¬ IsReport ev) (hsyn : IsReport syn)
    (hvals : d.vals = []) :
    d.handleAll bits defuzz (evs ++ [syn]) =
      (⟨(d.state.pass bits defuzz evs).1, []⟩, packetOf (d.state.pass bits defuzz evs).2 syn) := by
  rw [handleAll_append, handleAll_eq_pass h, hvals, List.nil_append]
  simp only [InputDevice.handleAll, InputDevice.handle, if_pos hsyn, List.nil_append, List.append_nil]

/-! ## What passes -/

theorem keyEvent_down {keys : ℕ → Bool} {ev : InputEvent} (h : ev.type = evKey ∧ keys ev.code) :
    (s.keyEvent ev).1.down = writeEvent keys s.down ev := by
  unfold DeviceState.keyEvent writeEvent
  rw [if_pos h]
  split_ifs with h2 h0 hmem hmem
  · rfl
  · rfl
  · exact (Finset.erase_eq_of_notMem hmem).symm
  · exact (Finset.insert_eq_of_mem hmem).symm
  · rfl

/-- The keys that are down are those that all events leave, also those that do not pass. -/
theorem event_down (ev : InputEvent) :
    (s.event bits defuzz ev).1.down = writeEvent bits.key s.down ev := by
  rw [DeviceState.event]
  split_ifs with hkey hrel hzero habs
  · exact keyEvent_down hkey
  · rw [writeEvent, if_neg hkey]
  · rw [writeEvent, if_neg hkey]
  · rw [writeEvent, if_neg hkey, DeviceState.absEvent]
    split_ifs <;> rfl
  · rw [writeEvent, if_neg hkey]
  · rw [writeEvent, if_neg hkey]

theorem pass_down (evs : List InputEvent) :
    (s.pass bits defuzz evs).1.down = writeEvents bits.key s.down evs := by
  induction evs generalizing s with
  | nil => rfl
  | cons ev evs ih => rw [DeviceState.pass, ih, event_down, writeEvents_cons]

/-- A repeat changes no key. -/
theorem writeEvent_repeat (keys : ℕ → Bool) (down : Finset ℕ) (c : ℕ) :
    writeEvent keys down ⟨evKey, c, 2⟩ = down := by
  rw [writeEvent]
  split_ifs with h htwo hzero
  · rfl
  · exact absurd rfl htwo
  · exact absurd rfl htwo
  · rfl

theorem handleAll_down (evs : List InputEvent) :
    (d.handleAll bits defuzz evs).1.state.down = writeEvents bits.key d.state.down evs := by
  induction evs generalizing d with
  | nil => rfl
  | cons ev evs ih =>
    rw [InputDevice.handleAll, ih, writeEvents_cons, InputDevice.handle]
    split_ifs with hsyn
    · rw [writeEvent_of_type_ne (by rw [hsyn.1]; decide)]
    · rw [← event_down]

/-- What passes has the type and the code that it was written with, and its value but for an axis. -/
theorem event_of_mem {ev passed : InputEvent} (h : passed ∈ (s.event bits defuzz ev).2) :
    passed.type = ev.type ∧ passed.code = ev.code ∧
      (ev.type ≠ evAbsolute → passed.value = ev.value) := by
  rw [DeviceState.event] at h
  split_ifs at h with hkey hrel hzero habs hmsc
  · rw [DeviceState.keyEvent] at h
    split_ifs at h <;> cases h <;> exact ⟨rfl, rfl, fun _ => rfl⟩
  · cases h
  · cases h
    exact ⟨rfl, rfl, fun _ => rfl⟩
  · rw [DeviceState.absEvent] at h
    split_ifs at h
    · cases h
    · cases h
      exact ⟨rfl, rfl, fun hne => absurd habs.1 hne⟩
  · cases h
    exact ⟨rfl, rfl, fun _ => rfl⟩
  · cases h

/-- Every event that passes comes from one that was written. -/
theorem pass_of_mem {passed : InputEvent} (h : passed ∈ (s.pass bits defuzz evs).2) :
    ∃ ev ∈ evs, passed.type = ev.type ∧ passed.code = ev.code ∧
      (ev.type ≠ evAbsolute → passed.value = ev.value) := by
  induction evs generalizing s with
  | nil => cases h
  | cons ev evs ih =>
    rw [DeviceState.pass] at h
    rcases List.mem_append.mp h with hmem | hmem
    · exact ⟨ev, List.mem_cons_self, event_of_mem (Option.mem_toList.mp hmem)⟩
    · obtain ⟨ev', hmem', heq⟩ := ih hmem
      exact ⟨ev', List.mem_cons_of_mem _ hmem', heq⟩

/-- Every state of the keys that some events go through. -/
def Through (P : Finset ℕ → Prop) (keys : ℕ → Bool) (down : Finset ℕ) : List InputEvent → Prop
  | [] => True
  | ev :: evs => P (writeEvent keys down ev) ∧ Through P keys (writeEvent keys down ev) evs

theorem through_append {P : Finset ℕ → Prop} {keys : ℕ → Bool} {down : Finset ℕ}
    {evs evs' : List InputEvent} :
    Through P keys down (evs ++ evs') ↔
      Through P keys down evs ∧ Through P keys (writeEvents keys down evs) evs' := by
  induction evs generalizing down with
  | nil => simp [Through]
  | cons ev evs ih =>
    rw [List.cons_append, Through, Through, ih, writeEvents_cons, and_assoc]

theorem Through.mono {P Q : Finset ℕ → Prop} (hPQ : ∀ down, P down → Q down) {keys : ℕ → Bool}
    {down : Finset ℕ} {evs : List InputEvent} (h : Through P keys down evs) :
    Through Q keys down evs := by
  induction evs generalizing down with
  | nil => trivial
  | cons ev evs ih => exact ⟨hPQ _ h.1, ih h.2⟩

/-- Events that are no key events stay in one state. -/
theorem through_of_type_ne {P : Finset ℕ → Prop} {keys : ℕ → Bool} {down : Finset ℕ} (hP : P down)
    {evs : List InputEvent} (h : ∀ ev ∈ evs, ev.type ≠ evKey) : Through P keys down evs := by
  induction evs with
  | nil => trivial
  | cons ev evs ih =>
    rw [Through, writeEvent_of_type_ne (h ev List.mem_cons_self)]
    exact ⟨hP, ih fun ev hev => h ev (List.mem_cons_of_mem _ hev)⟩

theorem length_pass_le (evs : List InputEvent) :
    (s.pass bits defuzz evs).2.length ≤ evs.length := by
  induction evs generalizing s with
  | nil => exact le_rfl
  | cons ev evs ih =>
    have hopt : ((s.event bits defuzz ev).2.toList).length ≤ 1 := by
      cases (s.event bits defuzz ev).2 <;> simp
    simp only [DeviceState.pass, List.length_append, List.length_cons]
    have := @ih (s.event bits defuzz ev).1
    omega

end

end InputCore
