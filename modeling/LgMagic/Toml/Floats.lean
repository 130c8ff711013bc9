import LgMagic.Lib.ReadBack
import LgMagic.Toml.Nodes
import LgMagic.Toml.Statements

/-!
# The floats of a tree

A float is written with fifteen digits. What is read again is the tree with every float read back.

* `floats`, `mapFloats`: the floats of a tree, and others in their place;
* `wellFormed_mapFloats`, `membersFloats_mapFloats`: the keys stay, the floats are those;
* `nodeAt_mapFloats`, `nodeAt_normalize`: the nodes that paths lead to;
* `Statement.mapFloats`: the same for the statements of a document.
-/

namespace Toml

open Binary64 Printf

mutual

/-- The floats of a value. -/
def TomlValue.floats : TomlValue → List Double
  | .float d => [d]
  | .table ms => membersFloats ms
  | _ => []

/-- The floats of the members of a table. -/
def membersFloats : Members → List Double
  | [] => []
  | (_, v) :: ms => v.floats ++ membersFloats ms

end

mutual

/-- The value with other floats. -/
def TomlValue.mapFloats (f : Double → Double) : TomlValue → TomlValue
  | .float d => .float (f d)
  | .table ms => .table (membersMapFloats f ms)
  | v => v

/-- The members with other floats. -/
def membersMapFloats (f : Double → Double) : Members → Members
  | [] => []
  | (k, v) :: ms => (k, v.mapFloats f) :: membersMapFloats f ms

end

variable {f : Double → Double} {ms : Members} {v : TomlValue}

@[simp] theorem isTable_mapFloats (f : Double → Double) (v : TomlValue) :
    (v.mapFloats f).isTable = v.isTable := by
  cases v <;> rfl

theorem mapFloats_table (f : Double → Double) (ms : Members) :
    (TomlValue.table ms).mapFloats f = .table (membersMapFloats f ms) := by
  rw [TomlValue.mapFloats]

theorem membersMapFloats_eq_map (f : Double → Double) (ms : Members) :
    membersMapFloats f ms = ms.map fun m => (m.1, m.2.mapFloats f) := by
  induction ms with
  | nil => rw [membersMapFloats, List.map_nil]
  | cons m ms ih => rw [membersMapFloats, ih, List.map_cons]

/-- The keys are the same. -/
theorem map_fst_mapFloats (f : Double → Double) (ms : Members) :
    (membersMapFloats f ms).map Prod.fst = ms.map Prod.fst := by
  rw [membersMapFloats_eq_map, List.map_map]
  rfl

theorem get_mapFloats (f : Double → Double) (ms : Members) (k : CStr) :
    tableGetShort (membersMapFloats f ms) k = (tableGetShort ms k).map (TomlValue.mapFloats f) := by
  rw [membersMapFloats_eq_map]
  exact Assoc.get_map _

/-! ## Shape -/

theorem membersWellFormed_mapFloats (f : Double → Double) (ms : Members)
    (h : membersWellFormed ms) : membersWellFormed (membersMapFloats f ms) := by
  induction ms using membersInduction with
  | nil => rwa [membersMapFloats]
  | scalar k v ms hv ih =>
    rw [membersMapFloats]
    refine ⟨?_, ih h.2⟩
    cases v <;> trivial
  | table k sub ms ihsub ih =>
    rw [membersMapFloats, mapFloats_table]
    obtain ⟨⟨hnodup, hsub⟩, hms⟩ := h
    exact ⟨⟨by rwa [map_fst_mapFloats], ihsub hsub⟩, ih hms⟩

theorem wellFormed_mapFloats (f : Double → Double) (h : (TomlValue.table ms).WellFormed) :
    (TomlValue.table (membersMapFloats f ms)).WellFormed := by
  obtain ⟨hnodup, hms⟩ := h
  exact ⟨by rwa [map_fst_mapFloats], membersWellFormed_mapFloats f ms hms⟩

/-- The floats of the mapped tree. -/
theorem membersFloats_mapFloats (f : Double → Double) (ms : Members) :
    membersFloats (membersMapFloats f ms) = (membersFloats ms).map f := by
  induction ms using membersInduction with
  | nil => rw [membersMapFloats, membersFloats, List.map_nil]
  | scalar k v ms hv ih =>
    rw [membersMapFloats, membersFloats, membersFloats, ih, List.map_append]
    congr 1
    cases v with
    | table sub => cases hv
    | float d | str s | int i | bool b | arr items => rfl
  | table k sub ms ihsub ih =>
    rw [membersMapFloats, mapFloats_table, membersFloats, membersFloats, TomlValue.floats,
      TomlValue.floats, ih, ihsub, List.map_append]

/-- The floats of a table are those of its members. -/
theorem mem_membersFloats {d : Double} :
    d ∈ membersFloats ms ↔ ∃ m ∈ ms, d ∈ m.2.floats := by
  induction ms with
  | nil => simp [membersFloats]
  | cons m ms ih => simp [membersFloats, ih]

/-- The floats of the scalar members and those of the tables. -/
theorem forall_floats_iff {P : Double → Prop} :
    (∀ d ∈ membersFloats ms, P d) ↔
      (∀ m ∈ ms, m.2.isTable = false → ∀ d ∈ m.2.floats, P d) ∧
        ∀ m ∈ ms, m.2.isTable = true → ∀ d ∈ m.2.floats, P d := by
  constructor
  · intro h
    exact ⟨fun m hm _ d hd => h d (mem_membersFloats.mpr ⟨m, hm, hd⟩),
      fun m hm _ d hd => h d (mem_membersFloats.mpr ⟨m, hm, hd⟩)⟩
  · rintro ⟨hscalar, htable⟩ d hd
    obtain ⟨m, hm, hd⟩ := mem_membersFloats.mp hd
    cases hv : m.2.isTable with
    | true => exact htable m hm hv d hd
    | false => exact hscalar m hm hv d hd

theorem mapFloats_id (ms : Members) (h : ∀ d ∈ membersFloats ms, f d = d) :
    membersMapFloats f ms = ms := by
  induction ms using membersInduction with
  | nil => rw [membersMapFloats]
  | scalar k v ms hv ih =>
    rw [membersFloats] at h
    rw [membersMapFloats, ih fun d hd => h d (List.mem_append_right _ hd)]
    cases v with
    | float d => rw [TomlValue.mapFloats, h d (List.mem_append_left _ List.mem_cons_self)]
    | table sub => cases hv
    | str s | int i | bool b | arr items => rfl
  | table k sub ms ihsub ih =>
    rw [membersFloats, TomlValue.floats] at h
    rw [membersMapFloats, mapFloats_table, ihsub fun d hd => h d (List.mem_append_left _ hd),
      ih fun d hd => h d (List.mem_append_right _ hd)]

/-! ## Nodes -/

/-- The node at a path, after the floats were replaced. -/
theorem nodeAt_mapFloats (f : Double → Double) (v : TomlValue) (q : List CStr) :
    nodeAt (v.mapFloats f) q = (nodeAt v q).map (TomlValue.mapFloats f) := by
  induction q generalizing v with
  | nil => rw [nodeAt_nil, nodeAt_nil, Option.map_some]
  | cons k q ih =>
    cases v with
    | table ms =>
      rw [mapFloats_table, nodeAt_cons, nodeAt_cons, get_mapFloats]
      cases tableGetShort ms k with
      | none => rfl
      | some v => exact ih v
    | str s | int i | float d | bool b | arr items => rfl

/-- The node at a path in the normal form. -/
theorem nodeAt_normalize (hwf : v.WellFormed) (q : List CStr) :
    nodeAt (normalize v) q = (nodeAt v q).map normalize := by
  induction q generalizing v with
  | nil => rw [nodeAt_nil, nodeAt_nil, Option.map_some]
  | cons k q ih =>
    cases v with
    | table ms =>
      rw [normalize_table, nodeAt_cons, nodeAt_cons, get_normalizeMembers hwf.1]
      cases hget : tableGetShort ms k with
      | none => rfl
      | some v => exact ih (membersWellFormed_iff.mp hwf.2 _ (Assoc.mem_of_get hget))
    | str s | int i | float d | bool b | arr items => rfl

/-- A path leads to a float through the first member or through another one. -/
theorem nodeAt_float_cons_iff {k : CStr} {d : Double} :
    (∃ q, NodeAt (.table ((k, v) :: ms)) q (.float d)) ↔
      (∃ q, NodeAt v q (.float d)) ∨ ∃ q, NodeAt (.table ms) q (.float d) := by
  constructor
  · rintro ⟨q, hq⟩
    cases hq with
    | member hmem hnode =>
      rcases List.mem_cons.mp hmem with heq | hmem
      · cases heq
        exact .inl ⟨_, hnode⟩
      · exact .inr ⟨_, .member hmem hnode⟩
  · rintro (⟨q, hq⟩ | ⟨q, hq⟩)
    · exact ⟨k :: q, .member List.mem_cons_self hq⟩
    · cases hq with
      | member hmem hnode => exact ⟨_, .member (List.mem_cons_of_mem _ hmem) hnode⟩

/-- The floats of a table are the floats that paths lead to. -/
theorem mem_membersFloats_iff_nodeAt {d : Double} :
    d ∈ membersFloats ms ↔ ∃ q, NodeAt (.table ms) q (.float d) := by
  induction ms using membersInduction with
  | nil =>
    rw [membersFloats]
    refine iff_of_false List.not_mem_nil ?_
    rintro ⟨q, hq⟩
    cases hq with
    | member hmem hnode => cases hmem
  | scalar k v ms hv ih =>
    rw [membersFloats, List.mem_append, nodeAt_float_cons_iff, ih]
    refine or_congr_left ⟨fun h => ?_, ?_⟩
    · cases v with
      | float x =>
        obtain rfl := List.mem_singleton.mp h
        exact ⟨[], .here _⟩
      | table sub => cases hv
      | str s | int i | bool b | arr items => cases h
    · rintro ⟨q, hq⟩
      cases hq with
      | here => exact List.mem_cons_self
      | member hmem hnode => cases hv
  | table k sub ms ihsub ih =>
    rw [membersFloats, TomlValue.floats, List.mem_append, nodeAt_float_cons_iff, ihsub, ih]

/-! ## Normal forms -/

theorem filter_isTable_mapFloats (f : Double → Double) (ms : Members) :
    (membersMapFloats f ms).filter (fun m => !m.2.isTable) =
      membersMapFloats f (ms.filter fun m => !m.2.isTable) := by
  rw [membersMapFloats_eq_map, membersMapFloats_eq_map, List.filter_map]
  simp only [Function.comp_def, isTable_mapFloats]

theorem membersMapFloats_append (f : Double → Double) (ms ms' : Members) :
    membersMapFloats f (ms ++ ms') = membersMapFloats f ms ++ membersMapFloats f ms' := by
  rw [membersMapFloats_eq_map, membersMapFloats_eq_map, membersMapFloats_eq_map, List.map_append]

theorem membersFloats_append (ms ms' : Members) :
    membersFloats (ms ++ ms') = membersFloats ms ++ membersFloats ms' := by
  induction ms with
  | nil => rfl
  | cons m ms ih => rw [List.cons_append, membersFloats, membersFloats, ih, List.append_assoc]

theorem normalizeTables_mapFloats (f : Double → Double) (ms : Members) :
    normalizeTables (membersMapFloats f ms) = membersMapFloats f (normalizeTables ms) := by
  induction ms using membersInduction with
  | nil => rw [membersMapFloats, normalizeTables, membersMapFloats]
  | scalar k v ms hv ih =>
    rw [membersMapFloats, normalizeTables_scalar _ _ (by rwa [isTable_mapFloats]),
      normalizeTables_scalar k ms hv, ih]
  | table k sub ms ihsub ih =>
    rw [membersMapFloats, mapFloats_table, normalizeTables_table, normalizeTables_table,
      membersMapFloats, mapFloats_table, ih, normalizeMembers, normalizeMembers,
      filter_isTable_mapFloats, ihsub, membersMapFloats_append]

/-- The normal form of the tree with other floats. -/
theorem normalizeMembers_mapFloats (f : Double → Double) (ms : Members) :
    normalizeMembers (membersMapFloats f ms) = membersMapFloats f (normalizeMembers ms) := by
  rw [normalizeMembers, normalizeMembers, filter_isTable_mapFloats, normalizeTables_mapFloats,
    membersMapFloats_append]

/-- The normal form has the same floats. -/
theorem perm_membersFloats_normalize (ms : Members) :
    (membersFloats (normalizeMembers ms)).Perm (membersFloats ms) := by
  induction ms using membersInduction with
  | nil => exact .refl _
  | scalar k v ms hv ih =>
    rw [normalizeMembers_scalar k ms hv, membersFloats, membersFloats]
    exact ih.append_left _
  | table k sub ms ihsub ih =>
    have hfilter : ((k, TomlValue.table sub) :: ms).filter (fun m => !m.2.isTable) =
        ms.filter fun m => !m.2.isTable := by simp
    rw [normalizeMembers, hfilter, normalizeTables_table, membersFloats_append, membersFloats,
      membersFloats, TomlValue.floats, TomlValue.floats]
    rw [normalizeMembers, membersFloats_append] at ih
    -- the floats of the table come behind those of the scalar members
    refine List.perm_append_comm_assoc _ _ _ |>.trans ?_
    exact ihsub.append ih

/-! ## Statements -/

/-- The statement with other floats. -/
def Statement.mapFloats (f : Double → Double) : Statement → Statement
  | .header segs => .header segs
  | .assign key val => .assign key (val.mapFloats f)

theorem scalarStatements_mapFloats (f : Double → Double) (ms : Members) :
    scalarStatements (membersMapFloats f ms) = (scalarStatements ms).map (Statement.mapFloats f) := by
  rw [membersMapFloats_eq_map, scalarStatements, scalarStatements, List.filter_map, List.map_map,
    List.map_map]
  simp only [Function.comp_def, isTable_mapFloats, Statement.mapFloats]

theorem tableStatements_mapFloats (f : Double → Double) (ms : Members) : ∀ segs : List CStr,
    tableStatements segs (membersMapFloats f ms) =
      (tableStatements segs ms).map (Statement.mapFloats f) := by
  induction ms using membersInduction with
  | nil => intro segs; rw [membersMapFloats, tableStatements, List.map_nil]
  | scalar k v ms hv ih =>
    intro segs
    rw [membersMapFloats, tableStatements_scalar (by rwa [isTable_mapFloats]),
      tableStatements_scalar hv, ih]
  | table k sub ms ihsub ih =>
    intro segs
    rw [membersMapFloats, mapFloats_table, tableStatements_table, tableStatements_table, statements,
      statements, scalarStatements_mapFloats, ihsub, ih]
    simp only [List.map_cons, List.map_append, Statement.mapFloats]

/-- The statements of the tree with other floats. -/
theorem statements_mapFloats (f : Double → Double) (segs : List CStr) (ms : Members) :
    statements segs (.table (membersMapFloats f ms)) =
      (statements segs (.table ms)).map (Statement.mapFloats f) := by
  rw [statements, statements, scalarStatements_mapFloats, tableStatements_mapFloats,
    List.map_append]

end Toml
