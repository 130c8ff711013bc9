import LgMagic.Calib.Blob

/-!
# Loading the calibration of a remote

Where `lgmagic_probe` takes the calibration of the airmouse from: the firmware with the MAC of the
remote in its name, where the remote has a MAC and there is such a file, else the one for all
remotes. What is not valid leaves the airmouse without a calibration.

* `addrFwName`: the name with the MAC;
* `loadFw`, `probeCalib`: the two requests of a probe;
* `probeCalib_of_named`, `probeCalib_of_generic`: which file counts.
-/

namespace Kernel

open Calibration CString

/-- `lgmagic_sanitize_mac`: what is in the buffer afterwards. -/
def lgmagicSanitizeMac (uniq : CStr) (out : Bytes) : Bytes :=
  (uniq.val.take 17).map (fun c => if c = 0x3A then 0x5F else c) ++ out.drop (min uniq.val.length 17)

/-- `addr_fw_name` of `lgmagic_probe`. -/
def addrFwName (uniq : CStr) : CStr :=
  .ofBuffer (ascii "lgmagic_calib_" ++ lgmagicSanitizeMac uniq (ascii "XX_XX_XX_XX_XX_XX.bin"))

/-- The name of the firmware for all remotes. -/
def genericFwName : CStr := .lit "lgmagic_calib.bin"

/-- `lgmagic_load_fw` for the bytes that `request_firmware` gives. -/
def loadFw (calib : AirmouseCalib Single) (fw : Except ℤ Bytes) : ℤ × AirmouseCalib Single :=
  lgmagicLoadFw calib (fw.map fun b => if b.length < blobSize then none else some (blobOf b))

/-- The part of `lgmagic_probe` that loads the calibration. -/
def probeCalib (requestFirmware : CStr → Except ℤ Bytes) (uniq : CStr) : AirmouseCalib Single :=
  let generic (calib : AirmouseCalib Single) := (loadFw calib (requestFirmware genericFwName)).2
  if uniq.val.length = 17 then
    let r := loadFw calibZero (requestFirmware (addrFwName uniq))
    if r.1 = 0 then r.2 else generic r.2
  else generic calibZero

/-- What the driver keeps of a blob. -/
def acceptedBlob (blob : AirmouseCalib Single) : AirmouseCalib Single :=
  if lgmagicValidateCalib blob = 0 then blob else calibZero

/-- A file that starts with a blob. -/
theorem loadFw_blobBytes (calib blob : AirmouseCalib Single) (rest : Bytes) :
    loadFw calib (.ok (blobBytes blob ++ rest)) = (0, acceptedBlob blob) := by
  have hlen : ¬ (blobBytes blob ++ rest).length < blobSize := by
    rw [List.length_append, length_blobBytes]
    omega
  rw [loadFw, Except.map, if_neg hlen, blobOf_blobBytes, lgmagicLoadFw, acceptedBlob]
  split_ifs <;> rfl

/-- The file with the MAC in its name counts where there is one. -/
theorem probeCalib_of_named {requestFirmware : CStr → Except ℤ Bytes} {uniq : CStr}
    {blob : AirmouseCalib Single} {rest : Bytes} (hlen : uniq.val.length = 17)
    (h : requestFirmware (addrFwName uniq) = .ok (blobBytes blob ++ rest)) :
    probeCalib requestFirmware uniq = acceptedBlob blob := by
  rw [probeCalib, if_pos hlen, h]
  simp only [loadFw_blobBytes, if_true]

/-- Without a MAC the file for all remotes counts. -/
theorem probeCalib_of_generic {requestFirmware : CStr → Except ℤ Bytes} {uniq : CStr}
    {blob : AirmouseCalib Single} {rest : Bytes} (hlen : uniq.val.length ≠ 17)
    (h : requestFirmware genericFwName = .ok (blobBytes blob ++ rest)) :
    probeCalib requestFirmware uniq = acceptedBlob blob := by
  rw [probeCalib, if_neg hlen, h]
  simp only [loadFw_blobBytes]

/-- The name with a MAC of the length of one. -/
theorem addrFwName_val {uniq : CStr} (hlen : uniq.val.length = 17) :
    (addrFwName uniq).val = ascii "lgmagic_calib_" ++
      uniq.val.map (fun c => if c = 0x3A then 0x5F else c) ++ ascii ".bin" := by
  have htail : (ascii "XX_XX_XX_XX_XX_XX.bin").drop 17 = ascii ".bin" := rfl
  have hfull : lgmagicSanitizeMac uniq (ascii "XX_XX_XX_XX_XX_XX.bin") =
      uniq.val.map (fun c => if c = 0x3A then 0x5F else c) ++ ascii ".bin" := by
    rw [lgmagicSanitizeMac, hlen, Nat.min_self, htail, List.take_of_length_le hlen.le]
  rw [addrFwName, hfull, CStr.val_ofBuffer, List.append_assoc]
  have hnames : (0 : UInt8) ∉ ascii "lgmagic_calib_" ∧ (0 : UInt8) ∉ ascii ".bin" := by decide
  have hmac : (0 : UInt8) ∉ uniq.val.map fun c => if c = 0x3A then 0x5F else c := by
    intro hmem
    obtain ⟨c, hc, heq⟩ := List.mem_map.mp hmem
    split_ifs at heq with hcolon
    · exact absurd heq (by decide)
    · exact uniq.property (heq ▸ hc)
  simp [hnames.1, hnames.2, hmac]

end Kernel
