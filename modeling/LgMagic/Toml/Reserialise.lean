import LgMagic.Toml.ParsedFloats
import LgMagic.Toml.RoundTrip

/-!
# Writing a parsed text again

The daemon edits a file by parsing it and by writing the tree again. The parser accepts more than
the writer can give back: paths of any length, a number past the range of `double`, which the writer
prints as `inf`, and the numbers whose fifteen digits are past that range.

* `SameDigits`: equal trees, but for floats with the same digits;
* `Reserialises`: the tree is written, and the text is read as that tree again;
* `tomlDumps_isSome_iff`: the trees that the writer accepts;
* `reserialises_iff`: the parsed trees that are written and read again.
-/

namespace Toml

open Binary64 CString Printf

/-- Two trees are equal, but for floats that print the same `%.15g` text. -/
def SameDigits (t t' : Members) : Prop :=
  membersMapFloats (fun _ => .zero false) t = membersMapFloats (fun _ => .zero false) t' ∧
    (membersFloats t).map (fmtG 15) = (membersFloats t').map (fmtG 15)

/-- `toml_dumps` accepts the tree, and `toml_parse` reads its text as the tree again, with the
members that are no tables in front of the tables. -/
def Reserialises (t : Members) : Prop :=
  ∃ text t', tomlDumps (.table t) = some text ∧ tomlParse text.val = .ok t' ∧
    SameDigits t' (normalizeMembers t)

variable {f : Double → Double} {t : Members} {text : Bytes}

theorem membersMapFloats_mapFloats (g f : Double → Double) (ms : Members) :
    membersMapFloats g (membersMapFloats f ms) = membersMapFloats (g ∘ f) ms := by
  induction ms using membersInduction with
  | nil => rw [membersMapFloats, membersMapFloats, membersMapFloats]
  | scalar k v ms hv ih =>
    rw [membersMapFloats, membersMapFloats, membersMapFloats, ih]
    cases v with
    | table sub => cases hv
    | float d | str s | int i | bool b | arr items => rfl
  | table k sub ms ihsub ih =>
    rw [membersMapFloats, membersMapFloats, membersMapFloats, mapFloats_table, mapFloats_table,
      mapFloats_table, ihsub, ih]

/-- Other floats with the same digits. -/
theorem sameDigits_mapFloats_iff :
    SameDigits (membersMapFloats f t) t ↔ ∀ d ∈ membersFloats t, fmtG 15 (f d) = fmtG 15 d := by
  rw [SameDigits, membersMapFloats_mapFloats, membersFloats_mapFloats, List.map_map,
    List.map_inj_left]
  exact and_iff_right rfl

/-- The writer accepts the trees whose headers it can write. -/
theorem tomlDumps_isSome_iff :
    (tomlDumps (.table t)).isSome ↔ (TomlValue.table t).depth ≤ tomlMaxDepth - 1 := by
  refine ⟨fun h => ?_, tomlDumps_isSome⟩
  obtain ⟨text, htext⟩ := Option.isSome_iff_exists.mp h
  obtain ⟨tables, htables, -⟩ :=
    Option.map_eq_some_iff.mp (by rw [← dumpTable]; exact tomlDumps_eq_some.mp htext)
  exact depth_le_of_dumpTables t htables

/-- A parsed text is written again and read as the same tree exactly if it is not nested deeper than
the writer's path and its numbers are not too close to the limit of `double`. -/
theorem reserialises_iff (h : tomlParse text = .ok t) :
    Reserialises t ↔
      (TomlValue.table t).depth ≤ tomlMaxDepth - 1 ∧ ∀ d ∈ membersFloats t, Moderate d := by
  have hwf := wellFormed_of_tomlParse h
  have hperm := perm_membersFloats_normalize t
  constructor
  · rintro ⟨out, t', hdump, hparse, hsame⟩
    refine ⟨tomlDumps_isSome_iff.mp (by rw [hdump]; rfl), fun d hd => ?_⟩
    have hfinite : ∀ d ∈ membersFloats t, d.IsFinite := by
      by_contra hinf
      obtain ⟨e, he⟩ := tomlParse_infinite hwf hinf hdump
      rw [he] at hparse
      cases hparse
    rw [tomlParse_readBack hwf hfinite hdump, normalizeMembers_mapFloats] at hparse
    injection hparse with hparse
    subst hparse
    exact moderate_iff.mpr ⟨hfinite d hd, sameDigits_mapFloats_iff.mp hsame d (hperm.mem_iff.mpr hd)⟩
  · rintro ⟨hdepth, hfloats⟩
    obtain ⟨out, hdump⟩ := Option.isSome_iff_exists.mp (tomlDumps_isSome hdepth)
    have hparse := tomlParse_readBack hwf (fun d hd => (moderate_iff.mp (hfloats d hd)).1) hdump
    rw [normalizeMembers_mapFloats] at hparse
    refine ⟨out, _, hdump, hparse, sameDigits_mapFloats_iff.mpr fun d hd => ?_⟩
    exact (moderate_iff.mp (hfloats d (hperm.mem_iff.mp hd))).2

/-- A text with a float and a nested table. -/
def nestedText : Bytes := ascii "x = 0.5\n[a.b]\nc = 1\n"

theorem reserialises_nestedText : ∃ t, tomlParse nestedText = .ok t ∧ Reserialises t := by
  have hcheck : (tomlParse nestedText).toOption.any (fun t => decide
      ((TomlValue.table t).depth ≤ tomlMaxDepth - 1 ∧ ∀ d ∈ membersFloats t, Moderate d)) = true := by
    decide +kernel
  cases h : tomlParse nestedText with
  | error e => simp [h, Except.toOption] at hcheck
  | ok t =>
    refine ⟨t, rfl, (reserialises_iff h).mpr ?_⟩
    simpa only [h, Except.toOption, Option.any_some, decide_eq_true_eq] using hcheck

/-- A number past the range of `double` is accepted, and its text is not. -/
theorem not_reserialises_overflow :
    ∃ t, tomlParse (ascii "x = 1e999\n") = .ok t ∧ ¬ Reserialises t := by
  have hfloats : (tomlParse (ascii "x = 1e999\n")).toOption.map membersFloats = some [.inf false] := by
    decide +kernel
  cases h : tomlParse (ascii "x = 1e999\n") with
  | error e => simp [h, Except.toOption] at hfloats
  | ok t =>
    refine ⟨t, rfl, ?_⟩
    rintro ⟨out, t', hdump, hparse, -⟩
    have hinf : ¬ ∀ d ∈ membersFloats t, d.IsFinite := by
      have hlist : membersFloats t = [.inf false] := by simpa [h, Except.toOption] using hfloats
      simp [hlist, Double.IsFinite]
    obtain ⟨e, he⟩ := tomlParse_infinite (wellFormed_of_tomlParse h) hinf hdump
    rw [he] at hparse
    cases hparse

end Toml
