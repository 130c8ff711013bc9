import LgMagic.Toml.Writer

/-!
# Documents as statements

A TOML document is a sequence of statements: table headers and assignments. A statement acts on the
tree built so far and on the path of the current table. This is the level between the bytes and the
trees: the writer's text is a rendering of the statements of a tree, and executing these statements
builds the tree again, with the scalar members of every table in front of its table members.

* `Statement.exec`, `execAll`: executing statements;
* `statements`: the statements of a tree;
* `normalize`: scalar members first;
* `execAll_statements`: executing the statements of a tree builds its normal form;
* `dumpTable_rendered`: the writer renders the statements of a tree.
-/

namespace Toml

/-- A statement of a document. -/
inductive Statement
  | header (segs : List CStr)
  | assign (key : CStr) (val : TomlValue)

/-- The tree under construction and the path of the table the next keys belong to. -/
structure Build where
  root : Members
  cur : List CStr

/-- Execute a statement; `none` when a path crosses a value or a key is there already. -/
def Statement.exec (b : Build) : Statement → Option Build
  | .header segs => (enter b.root segs).map fun root => ⟨root, segs⟩
  | .assign key val => do
    let parent ← getAt b.root b.cur
    let parent ← tableAdd parent key val
    return ⟨setAt b.root b.cur parent, b.cur⟩

/-- Execute statements in order. -/
def execAll (b : Build) (ss : List Statement) : Option Build := ss.foldlM Statement.exec b

theorem execAll_append (b : Build) (ss ts : List Statement) :
    execAll b (ss ++ ts) = (execAll b ss).bind fun b => execAll b ts :=
  List.foldlM_append

/-! ## The statements of a tree -/

/-- The assignments of the scalar members of a table. -/
def scalarStatements (ms : Members) : List Statement :=
  (ms.filter fun m => !m.2.isTable).map fun m => .assign m.1 m.2

mutual

/-- The statements of the table with path `segs`. -/
def statements (segs : List CStr) : TomlValue → List Statement
  | .table ms => scalarStatements ms ++ tableStatements segs ms
  | _ => []

/-- The statements of the table members. -/
def tableStatements (segs : List CStr) : Members → List Statement
  | [] => []
  | (k, v) :: ms =>
    if v.isTable then
      .header (segs ++ [k]) :: (statements (segs ++ [k]) v ++ tableStatements segs ms)
    else tableStatements segs ms

end

section

variable {segs : List CStr} {k : CStr} {v : TomlValue} {sub ms : Members}

theorem tableStatements_table : tableStatements segs ((k, .table sub) :: ms) =
    .header (segs ++ [k]) :: (statements (segs ++ [k]) (.table sub) ++ tableStatements segs ms) := by
  rw [tableStatements, if_pos (isTable_table sub)]

theorem tableStatements_scalar (h : v.isTable = false) :
    tableStatements segs ((k, v) :: ms) = tableStatements segs ms := by
  rw [tableStatements, if_neg (by simp [h])]

end

mutual

/-- The tree with the scalar members of every table before its table members. -/
def normalize : TomlValue → TomlValue
  | .table ms => .table ((ms.filter fun m => !m.2.isTable) ++ normalizeTables ms)
  | v => v

/-- The table members with their values in normal form. -/
def normalizeTables : Members → Members
  | [] => []
  | (k, v) :: ms => if v.isTable then (k, normalize v) :: normalizeTables ms else normalizeTables ms

end

/-- The members of the normal form of a table. -/
def normalizeMembers (ms : Members) : Members :=
  (ms.filter fun m => !m.2.isTable) ++ normalizeTables ms

theorem normalize_table (ms : Members) : normalize (.table ms) = .table (normalizeMembers ms) := by
  rw [normalize, normalizeMembers]

theorem normalizeTables_table (k : CStr) (sub ms : Members) :
    normalizeTables ((k, .table sub) :: ms) =
      (k, .table (normalizeMembers sub)) :: normalizeTables ms := by
  rw [normalizeTables, if_pos (isTable_table sub), normalize_table]

theorem normalizeTables_scalar (k : CStr) {v : TomlValue} (ms : Members)
    (h : v.isTable = false) : normalizeTables ((k, v) :: ms) = normalizeTables ms := by
  rw [normalizeTables, if_neg (by simp [h])]

@[simp] theorem normalizeMembers_nil : normalizeMembers [] = [] := rfl

/-- A scalar member in front stays in front. -/
theorem normalizeMembers_scalar (k : CStr) {v : TomlValue} (ms : Members) (h : v.isTable = false) :
    normalizeMembers ((k, v) :: ms) = (k, v) :: normalizeMembers ms := by
  simp [normalizeMembers, normalizeTables_scalar k ms h, h]

/-- A table without scalar members. -/
theorem normalizeMembers_tables {ms : Members} (h : ∀ m ∈ ms, m.2.isTable = true) :
    normalizeMembers ms = normalizeTables ms := by
  rw [normalizeMembers, List.filter_eq_nil_iff.mpr (fun m hm => by simp [h m hm]),
    List.nil_append]

/-- Scalar members in front stay in front. -/
theorem normalizeMembers_append {ms ms' : Members} (h : ∀ m ∈ ms, m.2.isTable = false) :
    normalizeMembers (ms ++ ms') = ms ++ normalizeMembers ms' := by
  induction ms with
  | nil => rfl
  | cons m ms ih =>
    obtain ⟨k, v⟩ := m
    rw [List.cons_append, normalizeMembers_scalar k _ (h _ List.mem_cons_self),
      ih fun m hm => h m (List.mem_cons_of_mem _ hm), List.cons_append]

/-- A table with its scalar members in front is in normal form when the tables below are. -/
theorem normalizeMembers_eq_self {ms ms' : Members} (h : ∀ m ∈ ms, m.2.isTable = false)
    (h' : ∀ m ∈ ms', ∃ sub, m.2 = .table sub ∧ normalizeMembers sub = sub) :
    normalizeMembers (ms ++ ms') = ms ++ ms' := by
  have htables : normalizeTables ms' = ms' := by
    induction ms' with
    | nil => rfl
    | cons m ms' ih =>
      obtain ⟨k, v⟩ := m
      obtain ⟨sub, hv, hsub⟩ := h' _ List.mem_cons_self
      obtain rfl : v = .table sub := hv
      rw [normalizeTables_table, hsub, ih fun m hm => h' m (List.mem_cons_of_mem _ hm)]
  have hall : ∀ m ∈ ms', m.2.isTable = true := by
    intro m hm
    obtain ⟨sub, hv, -⟩ := h' m hm
    rw [hv, isTable_table]
  rw [normalizeMembers_append h, normalizeMembers_tables hall, htables]

/-- The keys of the table members stay in order. -/
theorem map_fst_normalizeTables (ms : Members) :
    (normalizeTables ms).map Prod.fst = (ms.filter fun m => m.2.isTable).map Prod.fst := by
  induction ms with
  | nil => rfl
  | cons m ms ih =>
    obtain ⟨k, v⟩ := m
    by_cases h : v.isTable = true <;> simp [normalizeTables, h, ih]

/-- The normal form has the same keys, in another order. -/
theorem perm_normalizeMembers (ms : Members) :
    ((normalizeMembers ms).map Prod.fst).Perm (ms.map Prod.fst) := by
  rw [normalizeMembers, List.map_append, map_fst_normalizeTables, ← List.map_append]
  refine List.Perm.map _ (List.perm_append_comm.trans ?_)
  simpa using List.filter_append_perm (fun m : CStr × TomlValue => m.2.isTable) ms

theorem normalize_scalar {v : TomlValue} (h : v.isTable = false) : normalize v = v := by
  cases v with
  | table ms => simp at h
  | str s | int i | float d | bool b | arr items => rfl

theorem mem_normalizeTables {ms : Members} {k : CStr} {v : TomlValue} (h : (k, v) ∈ ms)
    (hv : v.isTable = true) : (k, normalize v) ∈ normalizeTables ms := by
  induction ms with
  | nil => cases h
  | cons m ms ih =>
    obtain ⟨k', v'⟩ := m
    rw [normalizeTables]
    rcases List.mem_cons.mp h with heq | h
    · cases heq
      rw [if_pos hv]
      exact List.mem_cons_self
    · split_ifs
      · exact List.mem_cons_of_mem _ (ih h)
      · exact ih h

/-- A lookup in the normal form finds the normal form of the member. -/
theorem get_normalizeMembers {ms : Members} (hnodup : (ms.map Prod.fst).Nodup) (k : CStr) :
    tableGetShort (normalizeMembers ms) k = (tableGetShort ms k).map normalize := by
  have hperm := perm_normalizeMembers ms
  cases hget : tableGetShort ms k with
  | none =>
    refine Assoc.get_eq_none_iff.mpr fun hmem => ?_
    exact Assoc.get_eq_none_iff.mp hget (hperm.mem_iff.mp hmem)
  | some v =>
    have hmem := Assoc.mem_of_get hget
    refine Assoc.get_of_mem (hperm.nodup_iff.mpr hnodup) (List.mem_append.mpr ?_)
    cases hv : v.isTable with
    | true => exact .inr (mem_normalizeTables hmem hv)
    | false =>
      rw [normalize_scalar hv]
      exact .inl (List.mem_filter.mpr ⟨hmem, by simp [hv]⟩)

/-! ## Executing the statements of a tree -/

/-- Executing assignments of new keys appends them to the current table. -/
theorem execAll_assigns {root sub : Members} {segs : List CStr} (ms : Members)
    (hget : getAt root segs = some sub) (hnd : ((sub ++ ms).map Prod.fst).Nodup) :
    execAll ⟨root, segs⟩ (ms.map fun m => .assign m.1 m.2) =
      some ⟨setAt root segs (sub ++ ms), segs⟩ := by
  induction ms generalizing root sub with
  | nil => simp [execAll, setAt_self hget]
  | cons m ms ih =>
    obtain ⟨k, v⟩ := m
    have hk : tableGetShort sub k = none := by
      rw [tableGetShort, Assoc.get_eq_none_iff]
      intro hmem
      rw [List.map_append, List.nodup_append] at hnd
      exact hnd.2.2 k hmem k (by simp) rfl
    have hadd : tableAdd sub k v = some (sub ++ [(k, v)]) := tableAdd_eq_some.mpr ⟨hk, rfl⟩
    have hsome : (getAt root segs).isSome := by simp [hget]
    have hstep : Statement.exec ⟨root, segs⟩ (.assign k v) =
        some ⟨setAt root segs (sub ++ [(k, v)]), segs⟩ := by
      simp [Statement.exec, hget, hadd]
    rw [List.map_cons, execAll, List.foldlM_cons, hstep]
    refine (ih (getAt_setAt hsome) ?_).trans ?_
    · simpa using hnd
    · rw [setAt_setAt hsome]
      simp

/-- Executing the statements of the members of a list builds them, at any path. -/
private def Builds (ms : Members) : Prop :=
  ∀ {root sub : Members} {segs : List CStr} (cur : List CStr), getAt root segs = some sub →
    ((sub ++ normalizeTables ms).map Prod.fst).Nodup → membersWellFormed ms →
    ∃ cur', execAll ⟨root, cur⟩ (tableStatements segs ms) =
      some ⟨setAt root segs (sub ++ normalizeTables ms), cur'⟩

/-- Executing the statements of a table in an empty table builds its normal form there, when
those of its table members do. -/
private theorem execAll_statements_of_builds {ms : Members} (h : Builds ms) {root : Members}
    {segs : List CStr} (hget : getAt root segs = some [])
    (hwf : (TomlValue.table ms).WellFormed) :
    ∃ cur, execAll ⟨root, segs⟩ (statements segs (.table ms)) =
      some ⟨setAt root segs (normalizeMembers ms), cur⟩ := by
  have hnd : ((normalizeMembers ms).map Prod.fst).Nodup :=
    (perm_normalizeMembers ms).nodup_iff.mpr hwf.1
  set scalars : Members := ms.filter fun m => !m.2.isTable with hscalars
  have hsome : (getAt root segs).isSome := by simp [hget]
  have hassign := execAll_assigns scalars hget (by
    rw [List.nil_append]
    exact (List.map_append ▸ hnd).of_append_left)
  rw [List.nil_append] at hassign
  obtain ⟨cur, htables⟩ := h segs (getAt_setAt hsome : getAt _ _ = some scalars) hnd hwf.2
  refine ⟨cur, ?_⟩
  rw [statements, execAll_append, scalarStatements, hassign, Option.bind_some, htables,
    setAt_setAt hsome, normalizeMembers]

/-- Executing the statements of the table members appends their normal forms. -/
private theorem builds (ms : Members) : Builds ms := by
  induction ms using membersInduction with
  | nil =>
    intro root sub segs cur hget _ _
    exact ⟨cur, by simp [tableStatements, execAll, normalizeTables, setAt_self hget]⟩
  | scalar k v ms hv ih =>
    intro root sub segs cur hget hnd hwf
    rw [normalizeTables_scalar k ms hv] at hnd ⊢
    rw [tableStatements_scalar hv]
    exact ih cur hget hnd hwf.2
  | table k sub' ms ihsub ih =>
    intro root sub segs cur hget hnd hwf
    rw [normalizeTables_table] at hnd ⊢
    have hk : tableGetShort sub k = none := by
      rw [tableGetShort, Assoc.get_eq_none_iff]
      intro hmem
      rw [List.map_append, List.nodup_append] at hnd
      exact hnd.2.2 k hmem k (by simp) rfl
    have hsome : (getAt root segs).isSome := by simp [hget]
    have hheader : Statement.exec ⟨root, cur⟩ (.header (segs ++ [k])) =
        some ⟨setAt root segs (sub ++ [(k, .table [])]), segs ++ [k]⟩ := by
      simp [Statement.exec, enter_append_new hget hk]
    -- the new table, seen from the root and from its parent
    have hnew : tableGetShort (sub ++ [(k, .table [])]) k = some (.table []) := by
      rw [tableGetShort] at hk
      rw [tableGetShort, Assoc.get_append, hk]
      simp
    have hparent : getAt (setAt root segs (sub ++ [(k, .table [])])) segs =
        some (sub ++ [(k, .table [])]) := getAt_setAt hsome
    have hempty : getAt (setAt root segs (sub ++ [(k, .table [])])) (segs ++ [k]) = some [] := by
      rw [getAt_append, hparent, Option.bind_some, hnew]
    obtain ⟨cur₁, hchild⟩ := execAll_statements_of_builds ihsub hempty hwf.1
    rw [setAt_append hparent hnew, Assoc.set_concat (by simpa [tableGetShort] using hk),
      setAt_setAt hsome] at hchild
    have hnext : getAt (setAt root segs (sub ++ [(k, .table (normalizeMembers sub'))])) segs =
        some (sub ++ [(k, .table (normalizeMembers sub'))]) := getAt_setAt hsome
    obtain ⟨cur₂, hrest⟩ := ih cur₁ hnext (by simpa using hnd) hwf.2
    refine ⟨cur₂, ?_⟩
    rw [tableStatements_table, execAll, List.foldlM_cons, hheader]
    refine (execAll_append _ _ _).trans ?_
    rw [hchild, Option.bind_some, hrest, setAt_setAt hsome, List.append_assoc,
      List.singleton_append]

/-- Executing the statements of a tree in an empty table builds its normal form there. -/
theorem execAll_statements {root : Members} {segs : List CStr} (ms : Members)
    (hget : getAt root segs = some []) (hwf : (TomlValue.table ms).WellFormed) :
    ∃ cur, execAll ⟨root, segs⟩ (statements segs (.table ms)) =
      some ⟨setAt root segs (normalizeMembers ms), cur⟩ :=
  execAll_statements_of_builds (builds ms) hget hwf

/-! ## Rendering -/

/-- The line of a statement, without its line end. -/
def Statement.line : Statement → Bytes
  | .header segs => [0x5B] ++ [0x2E].intercalate (segs.map dumpPathKey) ++ [0x5D]
  | .assign key val => dumpPathKey key ++ CString.ascii " = " ++ dumpValue val

/-- A text renders statements: one line each, with empty lines between them. -/
inductive Rendered : List Statement → Bytes → Prop
  | nil : Rendered [] []
  | cons {s : Statement} {ss : List Statement} {text : Bytes} (blank : Bool) :
    Rendered ss text →
      Rendered (s :: ss) ((if blank then [0x0A] else []) ++ s.line ++ [0x0A] ++ text)

theorem Rendered.append {ss ts : List Statement} {text text' : Bytes} (h : Rendered ss text)
    (h' : Rendered ts text') : Rendered (ss ++ ts) (text ++ text') := by
  induction h with
  | nil => exact h'
  | cons blank _ ih => simpa [List.append_assoc] using Rendered.cons blank ih

theorem dumpScalars_rendered (ms : Members) : Rendered (scalarStatements ms) (dumpScalars ms) := by
  induction ms with
  | nil => exact .nil
  | cons m ms ih =>
    obtain ⟨k, v⟩ := m
    by_cases h : v.isTable = true
    · simpa [scalarStatements, dumpScalars, h] using ih
    · simpa [scalarStatements, dumpScalars, h, Statement.line, List.append_assoc] using
        Rendered.cons (s := .assign k v) false ih

/-- The text of the table members renders their statements. -/
theorem dumpTables_rendered (ms : Members) : ∀ {segs : List CStr} {needNl : Bool} {text : Bytes},
    dumpTables segs needNl ms = some text → Rendered (tableStatements segs ms) text := by
  induction ms using membersInduction with
  | nil =>
    intro segs needNl text h
    rw [dumpTables] at h
    injection h with h
    exact h ▸ .nil
  | scalar k v ms hv ih =>
    intro segs needNl text h
    rw [dumpTables_scalar hv] at h
    rw [tableStatements_scalar hv]
    exact ih h
  | table k sub ms ihsub ih =>
    intro segs needNl text h
    obtain ⟨-, body, rest, hbody, hrest, rfl⟩ := dumpTables_table_eq_some.mp h
    obtain ⟨tables, htables, rfl⟩ := Option.map_eq_some_iff.mp (by rwa [dumpTable] at hbody)
    rw [tableStatements_table, statements]
    simpa [Statement.line, dumpHeader, List.append_assoc] using
      Rendered.cons (s := .header (segs ++ [k])) needNl
        (((dumpScalars_rendered sub).append (ihsub htables)).append (ih hrest))

/-- The text of a table renders its statements. -/
theorem dumpTable_rendered {segs : List CStr} {text : Bytes} (ms : Members)
    (h : dumpTable segs (.table ms) = some text) :
    Rendered (statements segs (.table ms)) text := by
  rw [dumpTable] at h
  obtain ⟨rest, hrest, rfl⟩ := Option.map_eq_some_iff.mp h
  rw [statements]
  exact (dumpScalars_rendered ms).append (dumpTables_rendered ms hrest)

/-- The writer accepts tables whose nesting leaves room for the headers. -/
theorem dumpTables_isSome (ms : Members) : ∀ {segs : List CStr} (needNl : Bool),
    segs.length + membersDepth ms ≤ tomlMaxDepth - 1 → (dumpTables segs needNl ms).isSome := by
  induction ms using membersInduction with
  | nil => exact fun _ _ => rfl
  | scalar k v ms hv ih =>
    intro segs needNl h
    rw [dumpTables_scalar hv]
    exact ih needNl (by simpa [membersDepth, hv] using h)
  | table k sub ms ihsub ih =>
    intro segs needNl h
    simp only [membersDepth, isTable_table, if_true, TomlValue.depth] at h
    obtain ⟨tables, htables⟩ := Option.isSome_iff_exists.mp
      (@ihsub (segs ++ [k]) (sub.any fun m => !m.2.isTable) (by simp; omega))
    obtain ⟨rest, hrest⟩ := Option.isSome_iff_exists.mp (@ih segs true (by omega))
    refine Option.isSome_iff_exists.mpr ⟨_, dumpTables_table_eq_some.mpr
      ⟨by omega, dumpScalars sub ++ tables, rest, ?_, hrest, rfl⟩⟩
    rw [dumpTable, htables]
    rfl

/-- It refuses every other one. -/
theorem depth_le_of_dumpTables (ms : Members) :
    ∀ {segs : List CStr} {needNl : Bool} {text : Bytes}, dumpTables segs needNl ms = some text →
      membersDepth ms ≤ tomlMaxDepth - 1 - segs.length := by
  induction ms using membersInduction with
  | nil => exact fun _ => Nat.zero_le _
  | scalar k v ms hv ih =>
    intro segs needNl text h
    rw [dumpTables_scalar hv] at h
    simpa [membersDepth, hv] using ih h
  | table k sub ms ihsub ih =>
    intro segs needNl text h
    obtain ⟨hlen, body, rest, hbody, hrest, -⟩ := dumpTables_table_eq_some.mp h
    obtain ⟨tables, htables, -⟩ := Option.map_eq_some_iff.mp (by rwa [dumpTable] at hbody)
    have hsub := ihsub htables
    rw [List.length_append, List.length_singleton] at hsub
    rw [membersDepth, if_pos (isTable_table sub), TomlValue.depth]
    exact max_le (by omega) (ih hrest)

/-- The writer accepts every table whose nesting leaves room for the headers. -/
theorem dumpTable_isSome {segs : List CStr} (ms : Members)
    (h : segs.length + membersDepth ms ≤ tomlMaxDepth - 1) :
    (dumpTable segs (.table ms)).isSome := by
  rw [dumpTable, Option.isSome_map]
  exact dumpTables_isSome ms _ h

end Toml
