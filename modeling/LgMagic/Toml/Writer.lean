import LgMagic.Lib.Printf
import LgMagic.Toml.Value

/-!
# The TOML writer

`toml_dumps` of `toml.c`: scalar members first, then a header and the members of every table below.
Headers repeat the whole path, with every segment quoted on its own.

* `dumpString`, `dumpPathKey`, `dumpValue`: the pieces;
* `dumpTable`: a table under its path;
* `tomlDumps`: a document, refused when the tables are nested too deep.
-/

namespace Toml

open CString

/-- `bare_safe_key` -/
def bareSafeKey (s : CStr) : Bool := s.val ≠ [] && s.val.all fun c => isAlnum c || c == 0x5F || c == 0x2D

/-- A digit of `%X`. -/
def hexDigit (d : ℕ) : UInt8 := UInt8.ofNat (if d < 10 then 0x30 + d else 0x41 + (d - 10))

/-- The bytes `dump_string` writes for one byte of the string. -/
def dumpByte (c : UInt8) : Bytes :=
  if c = 0x22 then [0x5C, 0x22]
  else if c = 0x5C then [0x5C, 0x5C]
  else if c = 0x0A then [0x5C, 0x6E]
  else if c = 0x09 then [0x5C, 0x74]
  else if c = 0x0D then [0x5C, 0x72]
  else if c = 0x08 then [0x5C, 0x62]
  else if c = 0x0C then [0x5C, 0x66]
  else if c < 0x20 then [0x5C, 0x75, 0x30, 0x30, hexDigit (c.toNat / 16), hexDigit (c.toNat % 16)]
  else [c]

/-- `dump_string` -/
def dumpString (s : CStr) : Bytes := 0x22 :: s.val.flatMap dumpByte ++ [0x22]

/-- `dump_path_key` -/
def dumpPathKey (s : CStr) : Bytes := if bareSafeKey s then s.val else dumpString s

/-- The text of a float: `%.15g`, with a fraction when it would read as an integer. -/
def dumpFloat (d : Binary64.Double) : Bytes :=
  let num := Printf.fmtG 15 d
  if num.any fun c => c ∈ ascii ".eEn" then num else num ++ ascii ".0"

/-- `dump_value`; tables are written by `dumpTable`, never inline. -/
def dumpValue : TomlValue → Bytes
  | .str s => dumpString s
  | .int i => Printf.printInt i.toInt
  | .float d => dumpFloat d
  | .bool b => if b then ascii "true" else ascii "false"
  | .arr items => [0x5B] ++ (ascii ", ").intercalate (items.map dumpString) ++ [0x5D]
  | .table _ => ascii "{}"

/-- The lines of the scalar members of a table. -/
def dumpScalars (t : Members) : Bytes :=
  t.flatMap fun (k, v) =>
    if v.isTable then [] else dumpPathKey k ++ ascii " = " ++ dumpValue v ++ [0x0A]

/-- `TOML_MAX_DEPTH` -/
def tomlMaxDepth : ℕ := 64

/-- The header line of a table. -/
def dumpHeader (segs : List CStr) : Bytes :=
  [0x5B] ++ [0x2E].intercalate (segs.map dumpPathKey) ++ [0x5D, 0x0A]

mutual

/-- `dump_table` for the table with path `segs`; refused when a header would be too long. -/
def dumpTable (segs : List CStr) : TomlValue → Option Bytes
  | .table ms =>
    (dumpTables segs (ms.any fun m => !m.2.isTable) ms).map fun rest => dumpScalars ms ++ rest
  | _ => none

/-- The loop of `dump_table` over the table members; `needNl` says that an empty line comes before
the next header. -/
def dumpTables (segs : List CStr) (needNl : Bool) : Members → Option Bytes
  | [] => some []
  | (k, v) :: ms =>
    if v.isTable then
      if segs.length ≥ tomlMaxDepth - 1 then none
      else do
        let body ← dumpTable (segs ++ [k]) v
        let rest ← dumpTables segs true ms
        return (if needNl then [0x0A] else []) ++ dumpHeader (segs ++ [k]) ++ body ++ rest
    else dumpTables segs needNl ms

end

section

variable {segs : List CStr} {needNl : Bool} {k : CStr} {v : TomlValue} {sub ms : Members}
  {text : Bytes}

theorem dumpTables_scalar (h : v.isTable = false) :
    dumpTables segs needNl ((k, v) :: ms) = dumpTables segs needNl ms := by
  rw [dumpTables, if_neg (by simp [h])]

/-- The text of a table member in front of others. -/
theorem dumpTables_table_eq_some :
    dumpTables segs needNl ((k, .table sub) :: ms) = some text ↔
      segs.length < tomlMaxDepth - 1 ∧ ∃ body rest, dumpTable (segs ++ [k]) (.table sub) = some body ∧
        dumpTables segs true ms = some rest ∧
        text = (if needNl then [0x0A] else []) ++ dumpHeader (segs ++ [k]) ++ body ++ rest := by
  rw [dumpTables, if_pos (isTable_table sub)]
  by_cases hlen : segs.length ≥ tomlMaxDepth - 1
  · rw [if_pos hlen]
    simp [not_lt.mpr hlen]
  · rw [if_neg hlen]
    simp only [Option.bind_eq_bind, Option.bind_eq_some_iff, Option.pure_def, Option.some.injEq]
    constructor
    · rintro ⟨body, hbody, rest, hrest, rfl⟩
      exact ⟨not_le.mp hlen, body, rest, hbody, hrest, rfl⟩
    · rintro ⟨-, body, rest, hbody, hrest, rfl⟩
      exact ⟨body, hbody, rest, hrest, rfl⟩

end

/-- `toml_dumps`: the text of the memory stream, a C string. -/
def tomlDumps (v : TomlValue) : Option CStr :=
  if v.isTable then (dumpTable [] v).map CStr.ofBuffer else none

/-! ## No NUL in the text -/

theorem zero_notMem_dumpByte {c : UInt8} (hc : c ≠ 0) : (0 : UInt8) ∉ dumpByte c := by
  have hhex : ∀ d < 16, hexDigit d ≠ 0 := by decide
  unfold dumpByte
  split_ifs with _ _ _ _ _ _ _ hlt
  all_goals try simp
  · have := UInt8.lt_iff_toNat_lt.mp hlt
    change c.toNat < 32 at this
    exact ⟨(hhex _ (by omega)).symm, (hhex _ (by omega)).symm⟩
  · exact hc.symm

theorem zero_notMem_dumpString (s : CStr) : (0 : UInt8) ∉ dumpString s := by
  have hbody : (0 : UInt8) ∉ s.val.flatMap dumpByte := by
    intro hmem
    obtain ⟨c, hc, h0⟩ := List.mem_flatMap.mp hmem
    exact zero_notMem_dumpByte (fun hzero => s.property (by rwa [hzero] at hc)) h0
  simpa [dumpString] using hbody

theorem zero_notMem_dumpPathKey (k : CStr) : (0 : UInt8) ∉ dumpPathKey k := by
  unfold dumpPathKey
  split_ifs
  · exact k.property
  · exact zero_notMem_dumpString k

theorem zero_notMem_intercalate {sep : Bytes} (hsep : (0 : UInt8) ∉ sep) (ls : List Bytes)
    (h : ∀ l ∈ ls, (0 : UInt8) ∉ l) : (0 : UInt8) ∉ sep.intercalate ls := by
  induction ls with
  | nil => simp
  | cons l ls ih =>
    cases ls with
    | nil => simpa using h l (by simp)
    | cons l' ls =>
      rw [List.intercalate_cons_cons, List.mem_append, List.mem_append, not_or, not_or]
      exact ⟨⟨h l (by simp), hsep⟩, ih fun l hl => h l (List.mem_cons_of_mem _ hl)⟩

theorem zero_notMem_dumpFloat (d : Binary64.Double) : (0 : UInt8) ∉ dumpFloat d := by
  have hnum := Printf.zero_notMem_fmtG d
  have hfrac : (0 : UInt8) ∉ ascii ".0" := by decide
  simp only [dumpFloat]
  split_ifs
  · exact hnum
  · rw [List.mem_append, not_or]
    exact ⟨hnum, hfrac⟩

theorem zero_notMem_dumpValue (v : TomlValue) : (0 : UInt8) ∉ dumpValue v := by
  match v with
  | .str s => exact zero_notMem_dumpString s
  | .int i => exact Printf.zero_notMem_printInt _
  | .float d => exact zero_notMem_dumpFloat d
  | .bool true | .bool false => decide
  | .arr items =>
    have := zero_notMem_intercalate (by decide : (0 : UInt8) ∉ ascii ", ") (items.map dumpString) (by
      intro l hl
      obtain ⟨s, -, rfl⟩ := List.mem_map.mp hl
      exact zero_notMem_dumpString s)
    simpa [dumpValue] using this
  | .table _ => exact (by decide : (0 : UInt8) ∉ ascii "{}")

theorem zero_notMem_dumpHeader (segs : List CStr) : (0 : UInt8) ∉ dumpHeader segs := by
  have := zero_notMem_intercalate (by decide : (0 : UInt8) ∉ [0x2E]) (segs.map dumpPathKey) (by
    intro l hl
    obtain ⟨k, -, rfl⟩ := List.mem_map.mp hl
    exact zero_notMem_dumpPathKey k)
  simpa [dumpHeader] using this

theorem zero_notMem_dumpScalars (t : Members) : (0 : UInt8) ∉ dumpScalars t := by
  intro hmem
  obtain ⟨⟨k, v⟩, -, h0⟩ := List.mem_flatMap.mp hmem
  have heq : (0 : UInt8) ∉ ascii " = " := by decide
  simp only at h0
  split_ifs at h0
  · simp at h0
  · simp [zero_notMem_dumpPathKey, zero_notMem_dumpValue, heq] at h0

theorem zero_notMem_dumpTables (ms : Members) :
    ∀ {segs : List CStr} {needNl : Bool} {text : Bytes},
      dumpTables segs needNl ms = some text → (0 : UInt8) ∉ text := by
  induction ms using membersInduction with
  | nil =>
    intro segs needNl text h
    rw [dumpTables] at h
    injection h with h
    simp [← h]
  | scalar k v ms hv ih =>
    intro segs needNl text h
    exact ih (by rwa [dumpTables_scalar hv] at h)
  | table k sub ms ihsub ih =>
    intro segs needNl text h
    obtain ⟨-, body, rest, hbody, hrest, rfl⟩ := dumpTables_table_eq_some.mp h
    obtain ⟨tables, htables, rfl⟩ := Option.map_eq_some_iff.mp (by rwa [dumpTable] at hbody)
    have hnl : (0 : UInt8) ∉ (if needNl then [0x0A] else []) := by split_ifs <;> simp
    simp only [List.mem_append, not_or]
    exact ⟨⟨⟨hnl, zero_notMem_dumpHeader _⟩, zero_notMem_dumpScalars sub, ihsub htables⟩, ih hrest⟩

theorem zero_notMem_dumpTable {segs : List CStr} {text : Bytes} (ms : Members)
    (h : dumpTable segs (.table ms) = some text) : (0 : UInt8) ∉ text := by
  rw [dumpTable] at h
  obtain ⟨rest, hrest, rfl⟩ := Option.map_eq_some_iff.mp h
  rw [List.mem_append, not_or]
  exact ⟨zero_notMem_dumpScalars ms, zero_notMem_dumpTables ms hrest⟩

/-- The text is all that was written. -/
theorem tomlDumps_eq_some {ms : Members} {s : CStr} :
    tomlDumps (.table ms) = some s ↔ dumpTable [] (.table ms) = some s.val := by
  rw [tomlDumps, if_pos (isTable_table ms)]
  cases h : dumpTable [] (.table ms) with
  | none => simp
  | some text =>
    rw [Option.map_some, Option.some.injEq, Option.some.injEq]
    constructor
    · rintro rfl
      exact (CStr.val_ofBuffer (zero_notMem_dumpTable ms h)).symm
    · rintro rfl
      exact CStr.ofBuffer_val s

end Toml
