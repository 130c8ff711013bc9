import LgMagic.Pairing

/-!
# The probe of the kernel driver

Which input devices `lgmagic_probe` registers for a remote: the keyboard always, the IMU where the
module parameters ask for it. The probe fills in the names and the ids of the two devices.

* `lgmagicProbe`;
* `lgmagicProbe_raw`: the devices of a probe that succeeds in raw mode.
-/

namespace Kernel

open CString

/-- `struct input_id` -/
structure InputId where
  bustype : ℕ := 0
  vendor : ℕ := 0
  product : ℕ := 0
  deriving DecidableEq

/-- `struct input_dev` after `devm_input_allocate_device`: what is not set is zero. -/
structure InputDev where
  name : Option CStr := none
  uniq : Option CStr := none
  id : InputId := {}
  deriving DecidableEq

/-- `struct hid_device` -/
structure HidDevice where
  bus : ℕ
  vendor : ℕ
  product : ℕ
  /-- The Bluetooth MAC of the remote. -/
  uniq : CStr
  deriving DecidableEq

/-- `struct hid_device_id` -/
structure HidDeviceId where
  bus : ℕ
  vendor : ℕ
  product : ℕ
  deriving DecidableEq

/-- `BUS_BLUETOOTH` -/
def busBluetooth : ℕ := 0x05

/-- `lgmagic_devices` -/
def lgmagicDevices : List HidDeviceId := [⟨busBluetooth, 0x000f, 0x3412⟩]

/-- Whether the driver is bound to a device. -/
def HidDevice.matchesTable (hdev : HidDevice) : Bool :=
  lgmagicDevices.any fun id =>
    id.bus = hdev.bus && id.vendor = hdev.vendor && id.product = hdev.product

/-- The module parameters that the probe reads. -/
structure ModuleParams where
  imuEvdev : Bool
  rawOnly : Bool
  deriving DecidableEq

/-- The answers of the HID and input cores: zero or a negative error. -/
structure HidCore where
  hidParse : HidDevice → ℤ
  hidHwStart : HidDevice → ℤ
  inputRegisterDevice : InputDev → ℤ

/-- `if (ret) return ret;` -/
def check (ret : ℤ) : Except ℤ Unit := if ret = 0 then .ok () else .error ret

/-- `lgmagic_probe`: the registered input devices. What was registered before an error goes with the
device. -/
def lgmagicProbe (params : ModuleParams) (core : HidCore) (hdev : HidDevice) :
    Except ℤ (List InputDev) := do
  check (core.hidParse hdev)
  check (core.hidHwStart hdev)
  let inputHid : InputDev :=
    { name := some (.lit "LG Magic Remote")
      id := { bustype := hdev.bus, vendor := hdev.vendor, product := hdev.product } }
  check (core.inputRegisterDevice inputHid)
  let inputImu : InputDev :=
    { name := some (.lit "LG Magic Remote IMU")
      id := { bustype := hdev.bus, vendor := hdev.vendor, product := hdev.product } }
  if params.imuEvdev || params.rawOnly then
    check (core.inputRegisterDevice inputImu)
    pure [inputHid, inputImu]
  else pure [inputHid]

theorem check_bind_eq_ok {α : Type} {ret : ℤ} {f : Unit → Except ℤ α} {a : α} :
    (check ret >>= f) = .ok a ↔ ret = 0 ∧ f () = .ok a := by
  unfold check
  split_ifs with h <;> simp [h, bind, Except.bind]

/-- In raw mode a probe that succeeds registers a keyboard and an IMU with the ids of the remote; it
sets `uniq` on neither. -/
theorem lgmagicProbe_raw {params : ModuleParams} {core : HidCore} {hdev : HidDevice}
    {kbd imu : InputDev} (hraw : params.rawOnly = true)
    (h : lgmagicProbe params core hdev = .ok [kbd, imu]) :
    kbd = ⟨some Pairing.kbdName, none, ⟨hdev.bus, hdev.vendor, hdev.product⟩⟩ ∧
      imu = ⟨some Pairing.imuName, none, ⟨hdev.bus, hdev.vendor, hdev.product⟩⟩ := by
  simp only [lgmagicProbe, check_bind_eq_ok, hraw, Bool.or_true, if_true] at h
  obtain ⟨-, -, -, -, h⟩ := h
  simp only [pure, Except.pure, Except.ok.injEq, List.cons.injEq, and_true] at h
  exact ⟨h.1.symm, h.2.symm⟩

end Kernel
