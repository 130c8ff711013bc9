import LgMagic.Toml.Grammar
import LgMagic.Toml.Nodes
import LgMagic.Toml.ParsedTrees

/-!
# Dotted lookup

`toml_table_get` of `toml.c`: the node at a dotted path. The path comes as text and is split by a
scanner of its own, which is laxer than the parser's: it takes escapes the parser refuses, and any
bytes but dots in a bare segment. On every spelling of a path that the parser takes the two agree.

* `pathSegment`, `tomlTableGet`: the lookup;
* `pathSegment_of_text`: a segment that the parser takes is read the same way;
* `tomlTableGet_eq_nodeAt`: the lookup of a spelling is the node at the decoded path;
* `tomlTableGet_eq_some_iff`: over parsed trees and spellings that the parser takes.
-/

namespace Toml

open CString

/-- The byte that a lookup takes for an escape of one letter; other letters stand for themselves. -/
def lookupEscape (c : UInt8) : UInt8 :=
  if c = 0x6E then 0x0A
  else if c = 0x74 then 0x09
  else if c = 0x72 then 0x0D
  else if c = 0x62 then 0x08
  else if c = 0x66 then 0x0C
  else c

/-- The segment goes on with some bytes. -/
def storeSegment (bytes : Bytes) (r : Option (Bytes × Bytes)) : Option (Bytes × Bytes) :=
  r.map fun (buf, next) => (bytes ++ buf, next)

/-- The loop of `path_segment` over a quoted segment after its opening quote: the bytes of the buffer
and what follows the closing quote. -/
def quotedSegment (quote : UInt8) : Bytes → Option (Bytes × Bytes)
  | [] => none
  | c :: cs =>
    if c = quote then some ([], cs)
    else if quote == 0x22 && c == 0x5C then
      match cs with
      | [] => none
      | e :: cs =>
        if e = 0x75 then
          match cs with
          | h1 :: h2 :: h3 :: h4 :: cs =>
            match hex4 h1 h2 h3 h4 with
            | some v => storeSegment (utf8 v) (quotedSegment quote cs)
            | none => none
          | _ => none
        else storeSegment [lookupEscape e] (quotedSegment quote cs)
    else storeSegment [c] (quotedSegment quote cs)

/-- `path_segment`: the next segment of a path and what follows it. -/
def pathSegment (path : Bytes) : Option (CStr × Bytes) :=
  match path with
  | [] => none
  | c :: cs =>
    if isQuote c then (quotedSegment c cs).map fun (buf, next) => (CStr.ofBuffer buf, next)
    else if c = 0x2E then none
    else some (CStr.ofBuffer (path.takeWhile (· != 0x2E)), path.dropWhile (· != 0x2E))

/-- The loop of `toml_table_get`. Every turn reads a byte, so the fuel is the number of bytes. -/
def tableGetFuel : ℕ → TomlValue → Bytes → Option TomlValue
  | n + 1, .table ms, dotted =>
    match pathSegment dotted with
    | none => none
    | some (seg, next) =>
      match tableGetShort ms seg with
      | none => none
      | some v =>
        match next with
        | [] => some v
        | c :: rest => if c = 0x2E then tableGetFuel n v rest else none
  | _, _, _ => none

/-- `toml_table_get` -/
def tomlTableGet (t : TomlValue) (dotted : CStr) : Option TomlValue :=
  tableGetFuel dotted.val.length t dotted.val

section

variable {quote : UInt8} {text value rest : Bytes} {seg : CStr} {segs : List CStr}

/-- An escape that the parser takes stands for the same byte in a lookup. -/
theorem lookupEscape_of_escapeByte {e b : UInt8} (h : escapeByte e = some b) : lookupEscape e = b := by
  revert h
  simp only [escapeByte, lookupEscape]
  split_ifs <;> simp_all

/-- A string that the parser takes is read the same way, by induction on its text. -/
theorem quotedSegment_of_text (h : StringText quote text value) (rest : Bytes) :
    quotedSegment quote (text ++ quote :: rest) = some (value, rest) := by
  induction h with
  | nil =>
    rw [List.nil_append, quotedSegment.eq_def]
    simp
  | @plain c text value hc _ ih =>
    simp only [isPlain, Bool.and_eq_true, bne_iff_ne, ne_eq] at hc
    obtain ⟨hne, hc⟩ := hc
    -- a plain byte is no escape in either kind of string
    have hesc : ¬ (quote = 0x22 ∧ c = 0x5C) := by
      rintro ⟨rfl, rfl⟩
      simp at hc
    rw [List.cons_append, quotedSegment.eq_def]
    simp [hne, hesc, ih, storeSegment]
  | @escape e b text value hbasic hb _ ih =>
    subst hbasic
    have he : e ≠ 0x75 := by
      rintro rfl
      cases hb
    rw [List.cons_append, List.cons_append, quotedSegment.eq_def]
    simp [he, ih, storeSegment, lookupEscape_of_escapeByte hb]
  | unicode hbasic hv _ ih =>
    subst hbasic
    simp only [List.cons_append]
    rw [quotedSegment.eq_def]
    simp [hv, ih, storeSegment]

/-- A segment that the parser takes is split off where the path ends or a dot follows. -/
theorem pathSegment_of_text (h : SegmentText text seg) (hrest : rest = [] ∨ peek rest 0x2E = true) :
    pathSegment (text ++ rest) = some (seg, rest) := by
  cases h with
  | bare hne hall =>
    obtain ⟨c, cs, rfl⟩ := List.exists_cons_of_ne_nil hne
    have hnodot : ∀ b ∈ c :: cs, b ≠ 0x2E := by
      rintro b hb rfl
      exact absurd (hall _ hb) (by decide)
    have hquote : isQuote c = false := isQuote_of_isBare (hall c List.mem_cons_self)
    -- the scan stops at the dot or at the end, and not in the segment
    have hends : ∀ b ∈ rest.head?, (b != 0x2E) = false := by
      intro b hb
      rcases hrest with rfl | hrest
      · cases hb
      · simp_all [peek]
    obtain ⟨htake, hdrop⟩ := Printf.span_append (· != 0x2E) hends (c :: cs)
    have hself : (c :: cs).takeWhile (· != 0x2E) = c :: cs :=
      List.takeWhile_eq_self_iff.mpr fun b hb => by simpa using hnodot b hb
    have hnil : (c :: cs).dropWhile (· != 0x2E) = [] :=
      List.dropWhile_eq_nil_iff.mpr fun b hb => by simpa using hnodot b hb
    rw [hself, List.cons_append] at htake
    rw [hnil, List.nil_append, List.cons_append] at hdrop
    rw [List.cons_append, pathSegment, htake, hdrop]
    simp [hquote, hnodot c List.mem_cons_self]
  | quoted h =>
    obtain ⟨hq, htext⟩ := h
    rename_i quote body value
    have hparse := quotedSegment_of_text htext rest
    simp [pathSegment, hq, hparse]

/-- The lookup of a spelling of a path is the node at the decoded path, by induction on the spelling. -/
theorem tableGetFuel_of_text {n : ℕ} (h : PathText text segs) (hn : text.length ≤ n) (t : TomlValue) :
    tableGetFuel n t text = nodeAt t segs := by
  induction h generalizing n t with
  | @last text seg hseg =>
    obtain ⟨n, rfl⟩ := Nat.exists_eq_succ_of_ne_zero (Nat.ne_of_gt (hseg.length_pos.trans_le hn))
    have hsplit := pathSegment_of_text hseg (.inl rfl)
    rw [List.append_nil] at hsplit
    cases t with
    | str s | int i | float d | bool b | arr items => rfl
    | table ms =>
      rw [tableGetFuel, hsplit, nodeAt_cons]
      cases hget : tableGetShort ms seg <;> simp [hget]
  | @cons text rest seg segs hseg _ ih =>
    obtain ⟨n, rfl⟩ := Nat.exists_eq_succ_of_ne_zero (n := n) (by simp at hn; omega)
    have hlen : rest.length ≤ n := by simp at hn; omega
    have hsplit : pathSegment (text ++ 0x2E :: rest) = some (seg, 0x2E :: rest) :=
      pathSegment_of_text hseg (.inr rfl)
    cases t with
    | str s | int i | float d | bool b | arr items => rfl
    | table ms =>
      rw [tableGetFuel, hsplit, nodeAt_cons]
      cases hget : tableGetShort ms seg with
      | none => simp [hget]
      | some v => simpa [hget] using ih hlen v

/-- The lookup of a spelling that the parser takes as a path. -/
theorem tomlTableGet_eq_nodeAt {msg : String} {line : ℕ} {cur : Cursor} {spelling : CStr}
    (h : parseKeyPath msg ⟨spelling.val, line⟩ = .ok (segs, cur)) (hall : cur.p = [])
    (t : TomlValue) : tomlTableGet t spelling = nodeAt t segs := by
  obtain ⟨text, htext, hpath⟩ := text_of_parseKeyPath h
  rw [hall, List.append_nil] at htext
  rw [tomlTableGet, htext]
  exact tableGetFuel_of_text hpath le_rfl t

/-- Over a parsed tree, whatever the spelling: the node at the decoded path, and nothing where the
path leads to no node. -/
theorem tomlTableGet_parsed {msg : String} {line : ℕ} {cur : Cursor} {doc : Bytes} {t : Members}
    {spelling : CStr} (hdoc : tomlParse doc = .ok t)
    (h : parseKeyPath msg ⟨spelling.val, line⟩ = .ok (segs, cur)) (hall : cur.p = []) :
    (∀ node, tomlTableGet (.table t) spelling = some node ↔ NodeAt (.table t) segs node) ∧
      (tomlTableGet (.table t) spelling = none ↔ ¬ ∃ node, NodeAt (.table t) segs node) := by
  have hnode : ∀ node, nodeAt (.table t) segs = some node ↔ NodeAt (.table t) segs node :=
    fun node => nodeAt_eq_some_iff (wellFormed_of_tomlParse hdoc)
  rw [tomlTableGet_eq_nodeAt h hall]
  refine ⟨hnode, ?_⟩
  simp only [Option.eq_none_iff_forall_ne_some, ne_eq, hnode, not_exists]

end

/-- A table and a key with a dot inside. -/
def dottedText : Bytes := ascii "[a]\n'b.c' = true"

/-- The key again, with quotes and the dot escaped. -/
def dottedSpelling : CStr := CStr.lit "'a'.\"b\\u002Ec\""

theorem tomlTableGet_parsed_escapedDot : ∃ t node, tomlParse dottedText = .ok t ∧
    tomlTableGet (.table t) dottedSpelling = some node ∧
    NodeAt (.table t) [CStr.lit "a", CStr.lit "b.c"] node := by
  have hcheck : (tomlParse dottedText).toOption.any (fun t =>
      (tomlTableGet (.table t) dottedSpelling).isSome) = true := by
    decide +kernel
  have hspelling : parseKeyPath "expected key" ⟨dottedSpelling.val, 1⟩ =
      .ok ([CStr.lit "a", CStr.lit "b.c"], ⟨[], 1⟩) := by
    decide +kernel
  obtain ⟨t, hdoc, hsome⟩ := Except.exists_of_any hcheck
  obtain ⟨node, hnode⟩ := Option.isSome_iff_exists.mp hsome
  exact ⟨t, node, hdoc, hnode, ((tomlTableGet_parsed hdoc hspelling rfl).1 node).mp hnode⟩

end Toml
