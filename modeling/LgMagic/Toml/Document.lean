import LgMagic.Toml.Lines
import LgMagic.Toml.Nodes
import LgMagic.Toml.ParsedTrees

/-!
# Documents

A document is a list of table headers and assignments. The parser is the fold of them: it opens the
table of every header and inserts every value at its full path, which is the path of the last header
followed by the key. Which documents it takes is a matter of the paths alone: no assigned path may be
a value or a table already, and no header and no parent of a key may be a value.

* `Entry`, `EntryText`, `DocumentText`: the texts that are documents;
* `Item`, `items`, `insertAll`: a document as a list of insertions at full paths;
* `Fits`: an insertion among those before it;
* `Represents`: a tree has the tables and the values of some insertions;
* `insertAll_isSome_iff`, `Represents.insertAll`: the fold of insertions;
* `tomlParse_eq_fold`: the parser on a document.
-/

namespace Toml

open CString

/-! ## Entries -/

/-- A table header or an assignment. -/
inductive Entry
  | header (path : List CStr)
  | assign (keys : List CStr) (val : TomlValue)

/-- The text of an entry. White space may stand around the equals sign. -/
inductive EntryText : Bytes → Entry → Prop
  | header {text : Bytes} {path : List CStr} : PathText text path →
      EntryText (0x5B :: (text ++ [0x5D])) (.header path)
  | assign {text w w' value : Bytes} {keys : List CStr} {val : TomlValue} : PathText text keys →
      BlankText w → BlankText w' → ValueText value val →
      EntryText (text ++ (w ++ 0x3D :: (w' ++ value))) (.assign keys val)

/-- The text of a document: entries on lines of their own, with white space and comments around. -/
inductive DocumentText : Bytes → List Entry → Prop
  | nil {w tail : Bytes} : BlankText w → LastComment tail → DocumentText (w ++ tail) []
  | cons {w text lineEnd rest : Bytes} {e : Entry} {es : List Entry} : BlankText w →
      EntryText text e → LineEndText lineEnd → StartsLine rest → DocumentText rest es →
      DocumentText (w ++ (text ++ (lineEnd ++ rest))) (e :: es)

/-! ## Insertions -/

/-- An insertion at a full path: a table that is opened, or a value. -/
inductive Item
  | table (path : List CStr)
  | value (path : List CStr) (v : TomlValue)

/-- The insertion of an entry; `cur` is the table that keys belong to. -/
def Entry.item (cur : List CStr) : Entry → Item
  | .header path => .table path
  | .assign keys val => .value (cur ++ keys) val

/-- The table that keys belong to after an entry. -/
def Entry.next (cur : List CStr) : Entry → List CStr
  | .header path => path
  | .assign _ _ => cur

/-- The insertions of a document. -/
def items (cur : List CStr) : List Entry → List Item
  | [] => []
  | e :: es => e.item cur :: items (e.next cur) es

/-- Insert into a tree. -/
def Item.insert (t : Members) : Item → Option Members
  | .table path => enter t path
  | .value path v => insertAt t path v

/-- Insert in order. -/
def insertAll (t : Members) (its : List Item) : Option Members := its.foldlM Item.insert t

/-- The tables that an insertion makes: the prefixes of a header, the parents of a value. -/
def Item.opens (q : List CStr) : Item → Prop
  | .table path => q <+: path
  | .value path _ => q <+: path.dropLast

/-- A path is the path of a value. -/
def IsValue (its : List Item) (q : List CStr) : Prop := ∃ v, Item.value q v ∈ its

/-- A path is the path of a table; the document is one. -/
def IsTable (its : List Item) (q : List CStr) : Prop := q = [] ∨ ∃ item ∈ its, item.opens q

/-- An insertion after others: a header must not cross a value; the path of a value must be free, and
no parent of it may be a value. -/
def Fits (its : List Item) : Item → Prop
  | .table path => ¬ ∃ q, q <+: path ∧ IsValue its q
  | .value path _ => ¬ IsValue its path ∧ ¬ IsTable its path ∧
      ¬ ∃ q, q <+: path.dropLast ∧ IsValue its q

/-- An insertion of a document: values are no tables and have a key. -/
def Item.Proper : Item → Prop
  | .table _ => True
  | .value path v => path ≠ [] ∧ v.isTable = false

/-! ## The fold of insertions -/

/-- A tree has the tables and the values of some insertions, and nothing else. -/
structure Represents (its : List Item) (t : Members) : Prop where
  value : ∀ q v, markAt t q = some (.value v) ↔ Item.value q v ∈ its
  table : ∀ q, markAt t q = some .table ↔ IsTable its q

section

variable {its : List Item} {item : Item} {t t' : Members}

theorem Represents.nil : Represents [] [] where
  value q v := by
    rw [markAt_empty]
    split_ifs <;> simp
  table q := by
    rw [markAt_empty]
    split_ifs with h <;> simp [IsTable, h]

theorem Represents.valueAt_iff (h : Represents its t) (q : List CStr) :
    ValueAt t q ↔ IsValue its q :=
  exists_congr (h.value q)

theorem Represents.free_iff (h : Represents its t) (q : List CStr) :
    markAt t q = none ↔ ¬ IsValue its q ∧ ¬ IsTable its q := by
  rw [← h.valueAt_iff, ← h.table]
  unfold ValueAt
  cases markAt t q with
  | none => simp
  | some m => cases m <;> simp

/-- What is refused is a matter of the paths. -/
theorem Represents.insert_isSome_iff (h : Represents its t) (hitem : item.Proper) :
    (∃ t', item.insert t = some t') ↔ Fits its item := by
  cases item with
  | table path =>
    simp only [Item.insert, enter_isSome_iff, Fits, h.valueAt_iff]
  | value path v =>
    simp only [Item.insert, insertAt_isSome_iff hitem.1, Fits, h.valueAt_iff, h.free_iff, and_assoc]

/-- A proper prefix of a path is a prefix of its parent. -/
theorem prefix_dropLast_iff {q path : List CStr} (hpath : path ≠ []) :
    q <+: path.dropLast ↔ q <+: path ∧ q ≠ path := by
  have hlast := List.dropLast_append_getLast hpath
  constructor
  · intro hq
    refine ⟨hq.trans (List.dropLast_prefix path), ?_⟩
    rintro rfl
    have hlen := hq.length_le
    have hpos := List.length_pos_iff.mpr hpath
    rw [List.length_dropLast] at hlen
    omega
  · rintro ⟨hq, hne⟩
    rw [← hlast, List.prefix_concat_iff, hlast] at hq
    exact hq.resolve_left hne

/-- An insertion adds its tables and its value. -/
theorem Represents.insert (h : Represents its t) (hitem : item.Proper)
    (hinsert : item.insert t = some t') : Represents (its ++ [item]) t' := by
  have hfits := (h.insert_isSome_iff hitem).mp ⟨t', hinsert⟩
  cases item with
  | table path =>
    -- the header makes tables of the prefixes of its path, none of which is a value
    have hmark := markAt_enter hinsert
    constructor
    · intro q v
      rw [hmark, List.mem_append]
      split_ifs with hq
      · have hno : ¬ IsValue its q := fun hval => hfits ⟨q, hq, hval⟩
        simp only [reduceCtorEq, false_iff, Option.some.injEq]
        simpa using fun hmem => hno ⟨v, hmem⟩
      · simp [h.value]
    · intro q
      have hsplit : IsTable (its ++ [.table path]) q ↔ IsTable its q ∨ q <+: path := by
        simp [IsTable, Item.opens, or_and_right, exists_or, or_assoc]
      rw [hmark, hsplit]
      split_ifs with hq
      · simp [hq]
      · simp [hq, h.table]
  | value path v =>
    -- the value stands at its path, its tables above it
    have hmark := markAt_insertAt hitem.2 hinsert
    obtain ⟨hnovalue, hnotable, hparents⟩ := hfits
    have hbelow : ∀ q, q <+: path.dropLast ↔ q <+: path ∧ q ≠ path :=
      fun q => prefix_dropLast_iff hitem.1
    constructor
    · intro q w
      rw [hmark, List.mem_append]
      split_ifs with hself hq
      · subst hself
        have hno : Item.value q w ∉ its := fun hmem => hnovalue ⟨w, hmem⟩
        simp [hno, eq_comm]
      · have hno : Item.value q w ∉ its := fun hmem =>
          hparents ⟨q, (hbelow q).mpr ⟨hq, hself⟩, w, hmem⟩
        simp [hno, hself]
      · simp [h.value, hself]
    · intro q
      have hsplit : IsTable (its ++ [.value path v]) q ↔ IsTable its q ∨ q <+: path ∧ q ≠ path := by
        simp [IsTable, Item.opens, or_and_right, exists_or, or_assoc, hbelow]
      rw [hmark, hsplit]
      split_ifs with hself hq
      · subst hself
        simp [hnotable]
      · simp [hq, hself]
      · simp [hq, h.table]

/-- Every insertion fits what comes before it. -/
def AllFit (done its : List Item) : Prop :=
  ∀ pre item post, its = pre ++ item :: post → Fits (done ++ pre) item

theorem allFit_nil (done : List Item) : AllFit done [] := by
  intro pre item post h
  simp at h

theorem allFit_cons {done : List Item} :
    AllFit done (item :: its) ↔ Fits done item ∧ AllFit (done ++ [item]) its := by
  constructor
  · intro h
    refine ⟨by simpa using h [] item its rfl, fun pre item' post heq => ?_⟩
    simpa using h (item :: pre) item' post (by rw [heq, List.cons_append])
  · rintro ⟨hfirst, hrest⟩ (_ | ⟨head, pre⟩) item' post heq
    · cases heq
      simpa using hfirst
    · cases heq
      simpa using hrest pre item' post rfl

/-- A run of insertions goes through when each of them fits, by induction on the run. -/
theorem Represents.insertAll_isSome_iff {done : List Item} (h : Represents done t)
    (hits : ∀ item ∈ its, item.Proper) : (∃ t', insertAll t its = some t') ↔ AllFit done its := by
  induction its generalizing t done with
  | nil => exact iff_of_true ⟨t, rfl⟩ (allFit_nil done)
  | cons item its ih =>
    rw [List.forall_mem_cons] at hits
    rw [allFit_cons, ← h.insert_isSome_iff hits.1, insertAll, List.foldlM_cons]
    cases hinsert : item.insert t with
    | none => simp
    | some t' =>
      have hnext := h.insert hits.1 hinsert
      simpa [insertAll] using ih hnext hits.2

theorem Represents.insertAll {done : List Item} (h : Represents done t)
    (hits : ∀ item ∈ its, item.Proper) (hinsert : insertAll t its = some t') :
    Represents (done ++ its) t' := by
  induction its generalizing t done with
  | nil =>
    cases hinsert
    simpa using h
  | cons item its ih =>
    rw [List.forall_mem_cons] at hits
    rw [Toml.insertAll, List.foldlM_cons] at hinsert
    obtain ⟨t₁, hfirst, hrest⟩ := Option.bind_eq_some_iff.mp hinsert
    simpa using ih (h.insert hits.1 hfirst) hits.2 hrest

end

/-! ## The parser -/

section

variable {st st' : ParseState} {cursor : Cursor} {text rest : Bytes} {path keys : List CStr}
  {val : TomlValue} {t : Members} {es : List Entry}

theorem parseHeader_err (h : parseHeader st cursor = .ok st') : st'.err = st.err := by
  unfold parseHeader at h
  split at h
  · cases h
  · split at h
    · split_ifs at h
      split at h
      · cases h
      · split at h
        · cases h
        · cases h
          rfl
    · cases h

theorem parseAssign_err (h : parseAssign st cursor = .ok st') (herr : st.err.isSome) :
    st'.err.isSome := by
  unfold parseAssign at h
  split at h
  · cases h
  · simp only at h
    split_ifs at h
    split at h
    · cases h
    · split at h
      · cases h
      · split at h
        · cases h
        · cases h
          dsimp only
          split_ifs
          · exact herr
          · rfl

theorem parseStep_err (h : parseStep st cursor = .ok st') (herr : st.err.isSome) :
    st'.err.isSome := by
  unfold parseStep at h
  split_ifs at h
  · rw [parseHeader_err h]
    exact herr
  · exact parseAssign_err h herr

/-- The first error is the result, whatever follows. -/
theorem parseLoop_err (n : ℕ) (herr : st.err.isSome) : parseLoop n st ≠ .ok t := by
  induction n generalizing st with
  | zero =>
    obtain ⟨e, he⟩ := Option.isSome_iff_exists.mp herr
    simp [parseLoop, he]
  | succ n ih =>
    rw [parseLoop]
    split_ifs with hend
    · obtain ⟨e, he⟩ := Option.isSome_iff_exists.mp herr
      simp [he]
    · cases hstep : parseStep st (skipWs false st.cursor.p st.cursor.line) with
      | error e => simp [bind, Except.bind]
      | ok st' => exact ih (parseStep_err hstep herr)

/-- What a turn of the loop does with an entry: it inserts, or the document is refused. -/
def Turn (st : ParseState) (e : Entry) (rest : Bytes) (r : Except ParseError ParseState) : Prop :=
  match (e.item st.cur).insert st.root with
  | some t => ∃ line', r = .ok ⟨⟨rest, line'⟩, t, e.next st.cur, none⟩
  | none => ∀ st', r = .ok st' → st'.err.isSome

/-- A header opens its table, or its path crosses a value. -/
theorem parseHeader_of_text (h : PathText text path) {lineEnd : Bytes} (hend : LineEndText lineEnd)
    (hrest : StartsLine rest) (herr : st.err = none) (line : ℕ) :
    Turn st (.header path) rest (parseHeader st ⟨text ++ 0x5D :: (lineEnd ++ rest), line⟩) := by
  obtain ⟨line', hpath⟩ := parseKeyPath_of_text h (noBare_cons (c := 0x5D) (t := lineEnd ++ rest) rfl)
    rfl "invalid table header" line
  unfold Turn
  simp only [parseHeader, hpath, skipLineEnd_of_text hend hrest, Entry.item, Item.insert]
  cases enter st.root path with
  | none => simp
  | some root => exact ⟨line', by simp [Entry.next, herr]⟩

/-- What follows a value on its line does not go on with it. -/
theorem endsValue_lineEnd {lineEnd : Bytes} (hend : LineEndText lineEnd) (hrest : StartsLine rest) :
    EndsValue (lineEnd ++ rest) := by
  obtain ⟨hblanks, htail⟩ := hend
  rename_i blanks tail
  intro c hc
  cases blanks with
  | cons b blanks =>
    obtain rfl : b = c := by simpa using hc
    have hb := hblanks b List.mem_cons_self
    simp only [isBlank, Bool.or_eq_true, beq_iff_eq] at hb
    rcases hb with (rfl | rfl) | rfl <;> decide
  | nil =>
    cases htail with
    | none =>
      rcases hrest with rfl | hrest
      · cases hc
      · obtain rfl : 0x0A = c := by simp_all [peek]
        decide
    | comment =>
      obtain rfl : 0x23 = c := by simpa using hc
      decide

/-- A path is followed by white space or by the equals sign. -/
theorem noBare_equals {w : Bytes} (hw : BlankText w) (tail : Bytes) :
    NoBare (w ++ 0x3D :: tail) ∧ peek (w ++ 0x3D :: tail) 0x2E = false := by
  cases hw with
  | nil => exact ⟨noBare_cons rfl, rfl⟩
  | @blank c text hc _ =>
    simp only [isBlank, Bool.or_eq_true, beq_iff_eq] at hc
    rcases hc with (rfl | rfl) | rfl <;> exact ⟨noBare_cons rfl, rfl⟩
  | newline => exact ⟨noBare_cons rfl, rfl⟩
  | comment => exact ⟨noBare_cons rfl, rfl⟩

/-- A value starts with a byte of its own. -/
theorem ValueText.solid {value : Bytes} (h : ValueText value val) :
    ∃ c cs, value = c :: cs ∧ isSolid c = true := by
  cases h with
  | str h =>
    obtain ⟨hq, -⟩ := h
    exact ⟨_, _, rfl, isSolid_quote hq⟩
  | arr => exact ⟨_, _, rfl, rfl⟩
  | yes => exact ⟨_, _, rfl, rfl⟩
  | no => exact ⟨_, _, rfl, rfl⟩
  | number h =>
    obtain ⟨c, cs, rfl, hc⟩ := h.head
    refine ⟨c, cs, rfl, ?_⟩
    by_contra hsolid
    simp only [isSolid, isBlank, Bool.not_eq_true, Bool.not_eq_false', Bool.or_eq_true,
      beq_iff_eq] at hsolid
    rcases hsolid with (((rfl | rfl) | rfl) | rfl) | rfl <;> revert hc <;> decide

/-- An assignment inserts its value, or it is refused. -/
theorem parseAssign_of_text (h : PathText text keys) {w w' value lineEnd : Bytes} (hw : BlankText w)
    (hw' : BlankText w') (hval : ValueText value val) (hend : LineEndText lineEnd)
    (hrest : StartsLine rest) (herr : st.err = none) (line : ℕ) :
    Turn st (.assign keys val) rest
      (parseAssign st ⟨text ++ (w ++ 0x3D :: (w' ++ (value ++ (lineEnd ++ rest)))), line⟩) := by
  obtain ⟨hbare, hdot⟩ := noBare_equals hw (w' ++ (value ++ (lineEnd ++ rest)))
  obtain ⟨line₁, hpath⟩ := parseKeyPath_of_text h hbare hdot "expected key" line
  obtain ⟨line₂, hskip₁⟩ := skipWs_to (c := 0x3D) hw rfl (w' ++ (value ++ (lineEnd ++ rest))) line₁
  obtain ⟨c, cs, hvalue, hsolid⟩ := hval.solid
  obtain ⟨line₃, hskip₂⟩ := skipWs_to hw' hsolid (cs ++ (lineEnd ++ rest)) line₂
  rw [← List.cons_append, ← hvalue] at hskip₂
  obtain ⟨line₄, hparse⟩ := parseValue_of_text hval (endsValue_lineEnd hend hrest) line₃
  -- the path is split into the table and the last key, as the source does
  have hkeys : keys.dropLast ++ [keys.getLastD CStr.empty] = keys := by
    rw [List.getLastD_eq_getLast?, List.getLast?_eq_some_getLast h.ne_nil, Option.getD_some]
    exact List.dropLast_append_getLast h.ne_nil
  have hinsert : insertAt st.root (st.cur ++ keys) val =
      (enter st.root (st.cur ++ keys.dropLast)).bind fun root =>
        addAt root (st.cur ++ keys.dropLast) (keys.getLastD CStr.empty) val := by
    rw [← insertAt_concat, List.append_assoc, hkeys]
  -- the text is read piece by piece: the path, the equals sign, the value, the end of the line
  have hpeek : ∀ t : Bytes, peek (0x3D :: t) 0x3D = true := fun t => rfl
  unfold Turn
  simp only [parseAssign, hpath, hskip₁, hpeek, if_true, List.tail_cons, hskip₂, hparse,
    skipLineEnd_of_text hend hrest, Entry.item, Item.insert, hinsert]
  cases henter : enter st.root (st.cur ++ keys.dropLast) with
  | none => simp
  | some root =>
    rw [Option.bind_some]
    simp only [← addAt.eq_1]
    cases hadd : addAt root (st.cur ++ keys.dropLast) (keys.getLastD CStr.empty) val with
    | none => simp
    | some t => exact ⟨line₄, by simp [Entry.next, herr]⟩

/-- A path starts with a key. -/
theorem PathText.head (h : PathText text path) :
    ∃ c cs, text = c :: cs ∧ (isBare c = true ∨ isQuote c = true) := by
  have hsegment : ∀ {text : Bytes} {seg : CStr}, SegmentText text seg →
      ∃ c cs, text = c :: cs ∧ (isBare c = true ∨ isQuote c = true) := by
    intro text seg hseg
    cases hseg with
    | bare hne hall =>
      obtain ⟨c, cs, rfl⟩ := List.exists_cons_of_ne_nil hne
      exact ⟨c, cs, rfl, .inl (hall c List.mem_cons_self)⟩
    | quoted hquoted =>
      obtain ⟨hq, -⟩ := hquoted
      exact ⟨_, _, rfl, .inr hq⟩
  cases h with
  | last hseg => exact hsegment hseg
  | @cons text rest seg segs hseg _ =>
    obtain ⟨c, cs, rfl, hc⟩ := hsegment hseg
    exact ⟨c, cs ++ 0x2E :: rest, rfl, hc⟩

theorem isSolid_of_key {c : UInt8} (h : isBare c = true ∨ isQuote c = true) :
    isSolid c = true ∧ c ≠ 0x5B := by
  constructor
  · by_contra hsolid
    simp only [isSolid, isBlank, Bool.not_eq_true, Bool.not_eq_false', Bool.or_eq_true,
      beq_iff_eq] at hsolid
    rcases hsolid with (((rfl | rfl) | rfl) | rfl) | rfl <;> revert h <;> decide
  · rintro rfl
    revert h
    decide

theorem EntryText.solid {e : Entry} (h : EntryText text e) :
    ∃ c cs, text = c :: cs ∧ isSolid c = true := by
  cases h with
  | header => exact ⟨_, _, rfl, rfl⟩
  | assign hpath =>
    obtain ⟨c, cs, rfl, hc⟩ := hpath.head
    exact ⟨_, _, rfl, (isSolid_of_key hc).1⟩

/-- One turn of the loop on an entry. -/
theorem parseStep_of_text {e : Entry} (h : EntryText text e) {lineEnd : Bytes}
    (hend : LineEndText lineEnd) (hrest : StartsLine rest) (herr : st.err = none) (line : ℕ) :
    Turn st e rest (parseStep st ⟨text ++ (lineEnd ++ rest), line⟩) := by
  cases h with
  | header hpath =>
    have hturn := parseHeader_of_text hpath hend hrest herr line
    simpa [parseStep, peek] using hturn
  | assign hpath hw hw' hval =>
    have hturn := parseAssign_of_text hpath hw hw' hval hend hrest herr line
    obtain ⟨c, cs, rfl, hc⟩ := hpath.head
    have hne := (isSolid_of_key hc).2
    simpa [parseStep, peek, hne] using hturn

/-- The loop of the parser is the fold of the insertions, by induction on the document. -/
theorem parseLoop_document (h : DocumentText text es) (hp : st.cursor.p = text)
    (herr : st.err = none) {n : ℕ} (hn : text.length ≤ n) :
    parseLoop n st = .ok t ↔ insertAll st.root (items st.cur es) = some t := by
  induction h generalizing st n with
  | @nil w tail hw htail =>
    -- only blank lines and comments are left
    have hdone : parseLoop n st = .ok st.root := by
      cases n with
      | zero => simp [parseLoop, herr]
      | succ n =>
        obtain ⟨line', hskip⟩ := skipWs_of_text hw tail st.cursor.line
        rw [skipWs_lastComment htail] at hskip
        rw [parseLoop, hp, hskip]
        simp [herr]
    rw [hdone]
    simp [items, insertAll]
  | @cons w text lineEnd rest e es hw htext hend hrest _ ih =>
    obtain ⟨c, cs, heq, hsolid⟩ := htext.solid
    -- a statement has at least one byte, so there is fuel for it
    obtain ⟨n, rfl⟩ := Nat.exists_eq_succ_of_ne_zero (n := n) (by simp [heq] at hn; omega)
    obtain ⟨line', hskip⟩ := skipWs_to hw hsolid (cs ++ (lineEnd ++ rest)) st.cursor.line
    rw [← List.cons_append, ← heq] at hskip
    have hne : text ++ (lineEnd ++ rest) ≠ [] := by simp [heq]
    have hlen : rest.length ≤ n := by
      simp [heq] at hn
      omega
    have hturn := parseStep_of_text htext hend hrest herr line'
    rw [parseLoop, hp, hskip]
    simp only [hne, if_false, items, insertAll, List.foldlM_cons]
    unfold Turn at hturn
    cases hinsert : (e.item st.cur).insert st.root with
    | none =>
      rw [hinsert] at hturn
      -- the error stays in the state, and the loop ends with it
      refine iff_of_false ?_ (by simp)
      cases hstep : parseStep st ⟨text ++ (lineEnd ++ rest), line'⟩ with
      | error err => simp [bind, Except.bind]
      | ok st' => exact parseLoop_err n (hturn st' hstep)
    | some t₁ =>
      rw [hinsert] at hturn
      obtain ⟨line₁, hstep⟩ := hturn
      rw [hstep]
      exact ih rfl rfl hlen

theorem ValueText.isTable {value : Bytes} (h : ValueText value val) : val.isTable = false := by
  cases h with
  | str | arr | yes | no => rfl
  | number h => cases h <;> rfl

/-- The insertions of a document are proper. -/
theorem proper_items (h : DocumentText text es) (cur : List CStr) :
    ∀ item ∈ items cur es, item.Proper := by
  induction h generalizing cur with
  | nil => simp [items]
  | cons _ htext _ _ _ ih =>
    rw [items, List.forall_mem_cons]
    refine ⟨?_, ih _⟩
    cases htext with
    | header => trivial
    | assign hpath _ _ hval => exact ⟨List.append_ne_nil_of_right_ne_nil _ hpath.ne_nil, hval.isTable⟩

/-- The parser on a document. It is taken when every header and every assignment fits those before
it, and the tree is then the insertion of all of them in order: the values are the assigned ones, the
tables are the headers and the parents, and keys are distinct. -/
theorem tomlParse_eq_fold (h : DocumentText text es) :
    ((∃ t, tomlParse text = .ok t) ↔ AllFit [] (items [] es)) ∧
      ∀ t, tomlParse text = .ok t →
        insertAll [] (items [] es) = some t ∧ (TomlValue.table t).WellFormed ∧
        (∀ q v, v.isTable = false → (NodeAt (.table t) q v ↔ Item.value q v ∈ items [] es)) ∧
        ∀ q, (∃ sub, NodeAt (.table t) q (.table sub)) ↔ IsTable (items [] es) q := by
  have hproper := proper_items h []
  have hrun : ∀ t, tomlParse text = .ok t ↔ insertAll [] (items [] es) = some t := fun t =>
    parseLoop_document h rfl rfl le_rfl
  refine ⟨?_, fun t ht => ?_⟩
  · simp only [hrun]
    exact Represents.nil.insertAll_isSome_iff hproper
  · have hinsert := (hrun t).mp ht
    have hwf := wellFormed_of_tomlParse ht
    have hrep : Represents (items [] es) t := Represents.nil.insertAll hproper hinsert
    refine ⟨hinsert, hwf, fun q v hv => ?_, fun q => ?_⟩
    · -- the values
      rw [← hrep.value, markAt, ← nodeAt_eq_some_iff hwf, Option.map_eq_some_iff]
      constructor
      · intro hnode
        exact ⟨v, hnode, mark_scalar hv⟩
      · rintro ⟨w, hnode, hmark⟩
        obtain ⟨rfl, -⟩ := mark_eq_value hmark
        exact hnode
    · -- the tables
      simp only [← hrep.table, markAt, ← nodeAt_eq_some_iff hwf, Option.map_eq_some_iff]
      constructor
      · rintro ⟨sub, hnode⟩
        exact ⟨_, hnode, rfl⟩
      · rintro ⟨w, hnode, hmark⟩
        obtain ⟨sub, rfl⟩ := mark_eq_table hmark
        exact ⟨sub, hnode⟩

end

/-- A table that is opened again by a header. -/
def reopenedText : Bytes := ascii "a.b = true\r\n[a] # again\nd = 1_0"

/-- Its entries. -/
def reopenedEntries : List Entry :=
  [.assign [CStr.lit "a", CStr.lit "b"] (.bool true), .header [CStr.lit "a"],
    .assign [CStr.lit "d"] (.int 10)]

theorem tomlParse_eq_fold_reopened : ∃ t, tomlParse reopenedText = .ok t ∧
    NodeAt (.table t) [CStr.lit "a", CStr.lit "d"] (.int 10) := by
  have hkey : ∀ {c : UInt8} {k : CStr}, isBare c = true → CStr.ofBuffer [c] = k →
      SegmentText [c] k := by
    rintro c k hc rfl
    exact .bare (by simp) (by simpa using hc)
  have hspace : BlankText [0x20] := .blank rfl .nil
  have hfirst : EntryText (ascii "a.b = true") (.assign [CStr.lit "a", CStr.lit "b"] (.bool true)) :=
    .assign (.cons (hkey (c := 0x61) rfl rfl) (.last (hkey (c := 0x62) rfl rfl))) hspace hspace .yes
  have hsecond : EntryText (ascii "[a]") (.header [CStr.lit "a"]) :=
    .header (.last (hkey (c := 0x61) rfl rfl))
  have hnumber : NumberText (ascii "1_0") (.int 10) :=
    .int (.inl rfl) (.separated (c := 0x31) rfl (.single (c := 0x30) rfl)) (by decide +kernel) (by decide +kernel)
  have hthird : EntryText (ascii "d = 1_0") (.assign [CStr.lit "d"] (.int 10)) :=
    .assign (.last (hkey (c := 0x64) rfl rfl)) hspace hspace (.number hnumber)
  -- the three ends of lines: a carriage return, a comment, and the end of the text
  have hreturn : LineEndText ([0x0D] ++ []) := .mk (by decide +kernel) .none
  have hcomment : LineEndText ([0x20] ++ 0x23 :: ascii " again") :=
    .mk (by decide +kernel) (.comment (by decide +kernel))
  have hnothing : LineEndText ([] ++ []) := .mk (by simp) .none
  have hdoc : DocumentText reopenedText reopenedEntries :=
    .cons .nil hfirst hreturn (.inr rfl)
      (.cons (.newline .nil) hsecond hcomment (.inr rfl)
        (.cons (.newline .nil) hthird hnothing (.inl rfl) (.nil .nil .none)))
  have hcheck : (tomlParse reopenedText).toOption.any (fun _ => true) = true := by decide +kernel
  obtain ⟨t, ht, -⟩ := Except.exists_of_any hcheck
  obtain ⟨-, hresult⟩ := tomlParse_eq_fold hdoc
  obtain ⟨-, -, hvalues, -⟩ := hresult t ht
  refine ⟨t, ht, (hvalues _ _ rfl).mpr ?_⟩
  simp [items, reopenedEntries, Entry.item, Entry.next]

end Toml
