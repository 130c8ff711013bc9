import Mathlib.Data.Finset.Basic

/-!
# The keys of an input device

The part of the Linux input core that keeps which keys of a device are down: press and release
change the state, autorepeat passes it by, events for keys that the device does not have are
dropped.

* `InputEvent`, `writeEvent`, `writeEvents`;
* `mem_of_mem_writeEvent`, `notMem_writeEvent_release`: the keys that are down after an event.
-/

/-- `struct input_event`, without the time. -/
structure InputEvent where
  type : ℕ
  code : ℕ
  value : ℤ
  deriving DecidableEq

namespace InputCore

/-- `EV_SYN` -/
def evSyn : ℕ := 0x00

/-- `EV_KEY` -/
def evKey : ℕ := 0x01

/-- `EV_REL` -/
def evRel : ℕ := 0x02

/-- The conversion to `__u16`. -/
def u16 (code : ℤ) : ℕ := (code % 65536).toNat

/-- The keys that are down after an event is written to a device with the given keys. -/
def writeEvent (keys : ℕ → Bool) (down : Finset ℕ) (ev : InputEvent) : Finset ℕ :=
  if ev.type = evKey ∧ keys ev.code then
    if ev.value = 2 then down
    else if ev.value = 0 then down.erase ev.code
    else insert ev.code down
  else down

/-- The keys that are down after several events. -/
def writeEvents (keys : ℕ → Bool) (down : Finset ℕ) (evs : List InputEvent) : Finset ℕ :=
  evs.foldl (writeEvent keys) down

variable {keys : ℕ → Bool} {down : Finset ℕ}

@[simp]
theorem writeEvents_nil : writeEvents keys down [] = down := rfl

@[simp]
theorem writeEvents_cons (ev : InputEvent) (evs : List InputEvent) :
    writeEvents keys down (ev :: evs) = writeEvents keys (writeEvent keys down ev) evs := rfl

theorem writeEvents_append (evs evs' : List InputEvent) :
    writeEvents keys down (evs ++ evs') = writeEvents keys (writeEvents keys down evs) evs' :=
  List.foldl_append

/-- Events that are no key events leave the keys as they are. -/
theorem writeEvent_of_type_ne {ev : InputEvent} (h : ev.type ≠ evKey) :
    writeEvent keys down ev = down := by
  simp [writeEvent, h]

/-- Only the key of the event is new among the keys that are down. -/
theorem mem_of_mem_writeEvent {ev : InputEvent} {c : ℕ} (h : c ∈ writeEvent keys down ev) :
    c ∈ down ∨ (c = ev.code ∧ ev.value ≠ 0 ∧ ev.value ≠ 2) := by
  unfold writeEvent at h
  split_ifs at h with _ h2 h0
  · exact .inl h
  · exact .inl (Finset.mem_of_mem_erase h)
  · rcases Finset.mem_insert.mp h with rfl | h
    · exact .inr ⟨rfl, h0, h2⟩
    · exact .inl h
  · exact .inl h

/-- Several events that are no key events leave the keys as they are. -/
theorem writeEvents_of_type_ne {evs : List InputEvent} (h : ∀ ev ∈ evs, ev.type ≠ evKey) :
    writeEvents keys down evs = down := by
  induction evs with
  | nil => rfl
  | cons ev evs ih =>
    rw [writeEvents_cons, writeEvent_of_type_ne (h ev List.mem_cons_self)]
    exact ih fun ev hev => h ev (List.mem_cons_of_mem _ hev)

/-- A device has only its own keys down. -/
theorem keys_of_mem_writeEvent {ev : InputEvent} (hdown : ∀ c ∈ down, keys c) :
    ∀ c ∈ writeEvent keys down ev, keys c := by
  intro c hc
  unfold writeEvent at hc
  split_ifs at hc with h
  · exact hdown c hc
  · exact hdown c (Finset.mem_of_mem_erase hc)
  · rcases Finset.mem_insert.mp hc with rfl | hc
    · exact h.2
    · exact hdown c hc
  · exact hdown c hc

/-- A key that is released is up. -/
theorem notMem_writeEvent_release {c : ℕ} (hdown : ∀ c ∈ down, keys c) :
    c ∉ writeEvent keys down ⟨evKey, c, 0⟩ := by
  by_cases hkey : keys c = true
  · simp [writeEvent, hkey]
  · simpa [writeEvent, hkey] using fun hc => hkey (hdown c hc)

end InputCore
