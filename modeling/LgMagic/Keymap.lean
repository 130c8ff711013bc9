import LgMagic.Lib.Assoc
import LgMagic.Lib.CString

/-!
# Keycode names

The table of keycode names of `keymap.c`. Codes and names are distinct, so the two lookups are
inverse to each other.

* `keymapNameToCode`, `keymapCodeToName`;
* `keymapNameToCode_codeToName`, `keymapCodeToName_nameToCode`.
-/

namespace Keymap

/-- `key_names` -/
def keyNames : List (ℤ × CStr) :=
  [(28, .lit "KEY_ENTER"), (11, .lit "KEY_0"), (2, .lit "KEY_1"), (3, .lit "KEY_2"),
    (4, .lit "KEY_3"), (5, .lit "KEY_4"), (6, .lit "KEY_5"), (7, .lit "KEY_6"), (8, .lit "KEY_7"),
    (9, .lit "KEY_8"), (10, .lit "KEY_9"), (103, .lit "KEY_UP"), (108, .lit "KEY_DOWN"),
    (105, .lit "KEY_LEFT"), (106, .lit "KEY_RIGHT"), (116, .lit "KEY_POWER"),
    (142, .lit "KEY_SLEEP"), (115, .lit "KEY_VOLUMEUP"), (114, .lit "KEY_VOLUMEDOWN"),
    (113, .lit "KEY_MUTE"), (582, .lit "KEY_VOICECOMMAND"), (102, .lit "KEY_HOME"),
    (141, .lit "KEY_SETUP"), (158, .lit "KEY_BACK"), (139, .lit "KEY_MENU"), (395, .lit "KEY_LIST"),
    (362, .lit "KEY_PROGRAM"), (226, .lit "KEY_MEDIA"), (377, .lit "KEY_TV"),
    (438, .lit "KEY_CONTEXT_MENU"), (403, .lit "KEY_CHANNELDOWN"), (398, .lit "KEY_RED"),
    (399, .lit "KEY_GREEN"), (400, .lit "KEY_YELLOW"), (401, .lit "KEY_BLUE"),
    (393, .lit "KEY_VIDEO"), (207, .lit "KEY_PLAY"), (119, .lit "KEY_PAUSE"),
    (272, .lit "BTN_LEFT"), (273, .lit "BTN_RIGHT"), (274, .lit "BTN_MIDDLE"), (1, .lit "KEY_ESC"),
    (15, .lit "KEY_TAB"), (57, .lit "KEY_SPACE"), (128, .lit "KEY_STOP"), (352, .lit "KEY_OK"),
    (174, .lit "KEY_EXIT"), (407, .lit "KEY_NEXT"), (412, .lit "KEY_PREVIOUS"),
    (104, .lit "KEY_PAGEUP"), (109, .lit "KEY_PAGEDOWN")]

/-- `keymap_name_to_code`; `-1` when the name is unknown. -/
def keymapNameToCode (name : CStr) : ℤ := (Assoc.get (keyNames.map Prod.swap) name).getD (-1)

/-- `keymap_code_to_name` -/
def keymapCodeToName (code : ℤ) : Option CStr := Assoc.get keyNames code

theorem nodup_codes : (keyNames.map Prod.fst).Nodup := by decide +kernel

theorem nodup_names : ((keyNames.map Prod.swap).map Prod.fst).Nodup := by decide +kernel

theorem codes_nonneg : ∀ p ∈ keyNames, 0 ≤ p.1 := by decide +kernel

/-- A known code is read back from its name. -/
theorem keymapNameToCode_codeToName {code : ℤ} {name : CStr}
    (h : keymapCodeToName code = some name) : keymapNameToCode name = code := by
  have hmem : (name, code) ∈ keyNames.map Prod.swap :=
    List.mem_map.mpr ⟨(code, name), Assoc.mem_of_get h, rfl⟩
  rw [keymapNameToCode, Assoc.get_of_mem nodup_names hmem]
  rfl

/-- A name that is known has a code, which is not negative, and is the name of that code. -/
theorem keymapCodeToName_nameToCode {name : CStr} (h : 0 ≤ keymapNameToCode name) :
    keymapCodeToName (keymapNameToCode name) = some name := by
  rw [keymapNameToCode] at h ⊢
  cases hget : Assoc.get (keyNames.map Prod.swap) name with
  | none => rw [hget] at h; exact absurd h (by decide)
  | some code =>
    obtain ⟨⟨c, n⟩, hmem, heq⟩ := List.mem_map.mp (Assoc.mem_of_get hget)
    injection heq with hn hc
    rw [Option.getD_some, ← hn, ← hc]
    exact Assoc.get_of_mem nodup_codes hmem

/-- The code of a name is negative only for unknown names. -/
theorem keymapNameToCode_nonneg_of_codeToName {code : ℤ} {name : CStr}
    (h : keymapCodeToName code = some name) : 0 ≤ code :=
  codes_nonneg _ (Assoc.mem_of_get h)

end Keymap
