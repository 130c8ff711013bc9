import LgMagic.Toml.Value

/-!
# The nodes of a tree

What stands at a path of a tree, and what entering a table and inserting a value change of it. A
`Mark` says what is at a path without the subtree: a table, or a value. Entering a table marks every
prefix of its path as a table; inserting a value marks its path and makes its parents tables; every
other path keeps what it had.

* `NodeAt`, `nodeAt`: the node that a path leads to;
* `Mark`, `markAt`: what is at a path;
* `insertAt`: the insertion of a value at a path;
* `Subtable.valueAt_put`: the values that stay where a table is replaced;
* `markAt_enter`, `markAt_insertAt`: the effect on every path;
* `enter_eq_none_iff`, `insertAt_eq_none_iff`: when they are refused.
-/

namespace Toml

/-- The node that a path leads to from a value. -/
inductive NodeAt : TomlValue → List CStr → TomlValue → Prop
  | here (v : TomlValue) : NodeAt v [] v
  | member {ms : Members} {k : CStr} {ks : List CStr} {v node : TomlValue} : (k, v) ∈ ms →
      NodeAt v ks node → NodeAt (.table ms) (k :: ks) node

/-- The first node that a path leads to. -/
def nodeAt (v : TomlValue) (segs : List CStr) : Option TomlValue :=
  match segs, v with
  | [], v => some v
  | k :: ks, .table ms =>
    match tableGetShort ms k with
    | some v => nodeAt v ks
    | none => none
  | _ :: _, _ => none

section

variable {v node : TomlValue} {ms : Members} {segs : List CStr} {k : CStr}

@[simp] theorem nodeAt_nil (v : TomlValue) : nodeAt v [] = some v := by
  cases v <;> rfl

theorem nodeAt_cons : nodeAt (.table ms) (k :: segs) = (tableGetShort ms k).bind (nodeAt · segs) := by
  rw [nodeAt]
  cases tableGetShort ms k <;> rfl

theorem nodeAt_scalar (h : v.isTable = false) : nodeAt v (k :: segs) = none := by
  cases v with
  | table ms => simp at h
  | str s | int i | float d | bool b | arr items => rfl

theorem nodeAt_of_get (h : tableGetShort ms k = some v) :
    nodeAt (.table ms) (k :: segs) = nodeAt v segs := by
  rw [nodeAt_cons, h, Option.bind_some]

/-- In a tree with distinct keys a path leads to one node at most. -/
theorem nodeAt_eq_some_iff (hwf : v.WellFormed) : nodeAt v segs = some node ↔ NodeAt v segs node := by
  induction segs generalizing v with
  | nil =>
    rw [nodeAt_nil, Option.some_inj]
    constructor
    · rintro rfl
      exact .here v
    · rintro ⟨⟩
      rfl
  | cons k ks ih =>
    cases v with
    | str s | int i | float d | bool b | arr items =>
      rw [nodeAt_scalar rfl]
      constructor
      · intro h
        cases h
      · intro h
        cases h
    | table ms =>
      rw [TomlValue.WellFormed, membersWellFormed_iff] at hwf
      obtain ⟨hnd, hbelow⟩ := hwf
      rw [nodeAt_cons, Option.bind_eq_some_iff]
      constructor
      · rintro ⟨v, hget, hnode⟩
        have hmem := Assoc.mem_of_get hget
        exact .member hmem ((ih (hbelow _ hmem)).mp hnode)
      · rintro (_ | ⟨hmem, hnode⟩)
        exact ⟨_, Assoc.get_of_mem hnd hmem, (ih (hbelow _ hmem)).mpr hnode⟩

end

/-! ## Marks -/

/-- What is at a path: a table, or a value. -/
inductive Mark
  | table
  | value (v : TomlValue)

/-- The mark of a node. -/
def TomlValue.mark : TomlValue → Mark
  | .table _ => .table
  | v => .value v

theorem mark_scalar {v : TomlValue} (h : v.isTable = false) : v.mark = .value v := by
  cases v with
  | table ms => simp at h
  | str s | int i | float d | bool b | arr items => rfl

theorem mark_eq_table {v : TomlValue} (h : v.mark = .table) : ∃ sub, v = .table sub := by
  cases v with
  | table sub => exact ⟨sub, rfl⟩
  | str s | int i | float d | bool b | arr items => cases h

theorem mark_eq_value {v w : TomlValue} (h : v.mark = .value w) : v = w ∧ w.isTable = false := by
  cases v with
  | table sub => cases h
  | str s | int i | float d | bool b | arr items =>
    cases h
    exact ⟨rfl, rfl⟩

/-- What is at a path of a table. -/
def markAt (t : Members) (q : List CStr) : Option Mark := (nodeAt (.table t) q).map TomlValue.mark

/-- Insert a value at a path; the parents that are missing are created. It is refused when a parent
is a value or the path is taken. -/
def insertAt (t : Members) (path : List CStr) (v : TomlValue) : Option Members :=
  match path with
  | [] => none
  | [k] => tableAdd t k v
  | k :: ks =>
    match tableGetShort t k with
    | none => (insertAt [] ks v).map fun sub => t ++ [(k, .table sub)]
    | some (.table sub) => (insertAt sub ks v).map fun sub' => Assoc.set t k (.table sub')
    | some _ => none

section

variable {t t' sub : Members} {path q : List CStr} {k k' : CStr} {v : TomlValue}

@[simp] theorem markAt_nil (t : Members) : markAt t [] = some .table := by
  simp [markAt, TomlValue.mark]

theorem markAt_of_get (h : tableGetShort t k = some v) :
    markAt t (k :: q) = (nodeAt v q).map TomlValue.mark := by
  rw [markAt, nodeAt_of_get h]

theorem markAt_of_table (h : tableGetShort t k = some (.table sub)) :
    markAt t (k :: q) = markAt sub q :=
  markAt_of_get h

theorem markAt_of_none (h : tableGetShort t k = none) : markAt t (k :: q) = none := by
  rw [markAt, nodeAt_cons, h]
  rfl

theorem markAt_congr (h : tableGetShort t k = tableGetShort t' k) :
    markAt t (k :: q) = markAt t' (k :: q) := by
  rw [markAt, markAt, nodeAt_cons, nodeAt_cons, h]

/-- An empty table has no members. -/
theorem markAt_empty : markAt [] q = if q = [] then some .table else none := by
  cases q with
  | nil => rfl
  | cons k q => exact markAt_of_none rfl

/-- Below a value there is nothing. -/
theorem markAt_of_scalar (h : tableGetShort t k = some v) (hv : v.isTable = false) :
    markAt t (k :: q) = if q = [] then some (.value v) else none := by
  rw [markAt_of_get h]
  cases q with
  | nil => simp [mark_scalar hv]
  | cons k' q => rw [nodeAt_scalar hv]; rfl

/-- Setting a member is the only change of a table. -/
theorem markAt_put_self (q : List CStr) :
    markAt (Assoc.put t k v) (k :: q) = (nodeAt v q).map TomlValue.mark :=
  markAt_of_get Assoc.get_put_self

theorem markAt_put_ne (h : k' ≠ k) : markAt (Assoc.put t k v) (k' :: q) = markAt t (k' :: q) :=
  markAt_congr (Assoc.get_put_ne h)

/-- A table stays one with distinct keys. -/
theorem wellFormed_put (h : (TomlValue.table t).WellFormed) (hv : v.WellFormed) :
    (TomlValue.table (Assoc.put t k v)).WellFormed :=
  ⟨Assoc.nodup_put h.1,
    membersWellFormed_iff.mpr (Assoc.forall_mem_put (membersWellFormed_iff.mp h.2) hv)⟩

theorem put_of_none (h : tableGetShort t k = none) : Assoc.put t k v = t ++ [(k, v)] := by
  rw [tableGetShort] at h
  simp [Assoc.put, h]

theorem put_of_some {w : TomlValue} (h : tableGetShort t k = some w) :
    Assoc.put t k v = Assoc.set t k v := by
  rw [tableGetShort] at h
  simp [Assoc.put, h]

theorem tableAdd_eq_put (h : tableAdd t k v = some t') :
    tableGetShort t k = none ∧ t' = Assoc.put t k v := by
  rw [tableAdd_eq_some] at h
  obtain ⟨hnone, rfl⟩ := h
  exact ⟨hnone, (put_of_none hnone).symm⟩

/-! ### Subtables -/

/-- The members below a key: those of a table that is there, none where the key is free. -/
def Subtable (t : Members) (k : CStr) (sub : Members) : Prop :=
  tableGetShort t k = some (.table sub) ∨ tableGetShort t k = none ∧ sub = []

theorem Subtable.markAt_cons (h : Subtable t k sub) (hq : q ≠ []) :
    markAt t (k :: q) = markAt sub q := by
  obtain h | ⟨h, rfl⟩ := h
  · exact markAt_of_table h
  · rw [markAt_of_none h, markAt_empty, if_neg hq]

theorem Subtable.wellFormed (h : Subtable t k sub) (hwf : (TomlValue.table t).WellFormed) :
    (TomlValue.table sub).WellFormed := by
  obtain h | ⟨-, rfl⟩ := h
  · exact membersWellFormed_iff.mp hwf.2 _ (Assoc.mem_of_get h)
  · exact ⟨List.nodup_nil, trivial⟩

/-- Where members below a key are replaced, a value under them stays, unless its path goes on in a
way that they changed. -/
theorem Subtable.valueAt_put {sub' : Members} {w : TomlValue} {p : List CStr}
    (hsub : Subtable t k sub)
    (h : ∀ q, markAt sub' q = some (.value w) ↔ markAt sub q = some (.value w) ∧ ¬ p <+: q)
    (q : List CStr) : markAt (Assoc.put t k (.table sub')) q = some (.value w) ↔
      markAt t q = some (.value w) ∧ ¬ k :: p <+: q := by
  cases q with
  | nil => simp
  | cons k' q =>
    by_cases hk : k' = k
    · subst hk
      rw [markAt_put_self, ← markAt, h, List.cons_prefix_cons, and_iff_right rfl]
      -- at the key itself there is a table, or nothing
      cases q with
      | nil =>
        obtain hsub | ⟨hsub, -⟩ := hsub
        · simp [markAt_of_table hsub]
        · simp [markAt_of_none hsub]
      | cons k q => rw [hsub.markAt_cons (List.cons_ne_nil k q)]
    · rw [markAt_put_ne hk, List.cons_prefix_cons, and_iff_left]
      exact fun h => hk h.1.symm

/-- A walk through a key goes on in the members below it. -/
theorem enter_cons_eq_some : enter t (k :: q) = some t' ↔
    ∃ sub sub', Subtable t k sub ∧ enter sub q = some sub' ∧ t' = Assoc.put t k (.table sub') := by
  rw [enter]
  cases hget : tableGetShort t k with
  | none => simp [Subtable, hget, put_of_none hget, eq_comm]
  | some w =>
    cases w with
    | table sub => simp [Subtable, hget, put_of_some hget, eq_comm]
    | str s | int i | float d | bool b | arr items => simp [Subtable, hget]

theorem insertAt_cons_eq_some (hq : q ≠ []) : insertAt t (k :: q) v = some t' ↔
    ∃ sub sub', Subtable t k sub ∧ insertAt sub q v = some sub' ∧
      t' = Assoc.put t k (.table sub') := by
  rw [insertAt.eq_3 _ _ _ _ hq]
  cases hget : tableGetShort t k with
  | none => simp [Subtable, hget, put_of_none hget, eq_comm]
  | some w =>
    cases w with
    | table sub => simp [Subtable, hget, put_of_some hget, eq_comm]
    | str s | int i | float d | bool b | arr items => simp [Subtable, hget]

/-! ### The effect on the paths -/

/-- Entering a table makes every prefix of its path a table and changes no other path. -/
theorem markAt_enter (h : enter t path = some t') (q : List CStr) :
    markAt t' q = if q <+: path then some .table else markAt t q := by
  induction path generalizing t t' q with
  | nil =>
    cases h
    by_cases hq : q = []
    · simp [hq]
    · simp [hq, List.prefix_nil]
  | cons k ks ih =>
    obtain ⟨sub, sub', hsub, henter, rfl⟩ := enter_cons_eq_some.mp h
    cases q with
    | nil => simp
    | cons k' q =>
      by_cases hk : k' = k
      · subst hk
        rw [markAt_put_self, ← markAt, ih henter]
        by_cases hq : q <+: ks
        · simp [hq]
        · have hne : q ≠ [] := by
            rintro rfl
            exact hq List.nil_prefix
          simp [hq, hsub.markAt_cons hne]
      · rw [markAt_put_ne hk, if_neg (by simp [List.cons_prefix_cons, hk])]

/-- Inserting a value marks its path, makes its parents tables and changes no other path. -/
theorem markAt_insertAt (hv : v.isTable = false) (h : insertAt t path v = some t') (q : List CStr) :
    markAt t' q = if q = path then some (.value v)
      else if q <+: path then some .table else markAt t q := by
  induction path generalizing t t' q with
  | nil => cases h
  | cons k ks ih =>
    cases q with
    | nil => simp
    | cons k' q =>
      -- the last key of the path, or one on the way
      by_cases hks : ks = []
      · subst hks
        obtain ⟨hnone, rfl⟩ := tableAdd_eq_put h
        by_cases hk : k' = k
        · subst hk
          rw [markAt_put_self, markAt_of_none hnone]
          cases q with
          | nil => simp [mark_scalar hv]
          | cons k q => simp [nodeAt_scalar hv, List.cons_prefix_cons]
        · simp [markAt_put_ne hk, hk, List.cons_prefix_cons]
      · obtain ⟨sub, sub', hsub, hins, rfl⟩ := (insertAt_cons_eq_some hks).mp h
        by_cases hk : k' = k
        · subst hk
          rw [markAt_put_self, ← markAt, ih hins]
          by_cases hq : q <+: ks
          · simp [hq, List.cons_prefix_cons]
          · have hne : q ≠ [] := by
              rintro rfl
              exact hq List.nil_prefix
            have hself : q ≠ ks := by
              rintro rfl
              exact hq List.prefix_rfl
            simp [hq, hself, hsub.markAt_cons hne, List.cons_prefix_cons]
        · simp [markAt_put_ne hk, hk, List.cons_prefix_cons]

/-! ### What is refused -/

/-- A value stands at a path. -/
def ValueAt (t : Members) (q : List CStr) : Prop := ∃ v, markAt t q = some (.value v)

theorem not_valueAt_nil (t : Members) : ¬ ValueAt t [] := by
  rintro ⟨v, hv⟩
  simp at hv

/-- The prefixes of a path that are values are below its first key. -/
theorem exists_prefix_valueAt_cons {ks : List CStr} : (∃ q, q <+: k :: ks ∧ ValueAt t q) ↔
    ∃ q, q <+: ks ∧ ValueAt t (k :: q) := by
  constructor
  · rintro ⟨_ | ⟨k', q⟩, hq, hval⟩
    · exact absurd hval (not_valueAt_nil t)
    · obtain ⟨rfl, hq'⟩ := List.cons_prefix_cons.mp hq
      exact ⟨q, hq', hval⟩
  · rintro ⟨q, hq, hval⟩
    exact ⟨k :: q, List.cons_prefix_cons.mpr ⟨rfl, hq⟩, hval⟩

/-- An empty table refuses no path. -/
theorem enter_empty (path : List CStr) : ∃ t, enter [] path = some t := by
  induction path with
  | nil => exact ⟨[], rfl⟩
  | cons k ks ih =>
    obtain ⟨sub, hsub⟩ := ih
    exact ⟨_, enter_cons_eq_some.mpr ⟨[], sub, .inr ⟨rfl, rfl⟩, hsub, rfl⟩⟩

theorem insertAt_empty (hpath : path ≠ []) : ∃ t, insertAt [] path v = some t := by
  induction path with
  | nil => exact absurd rfl hpath
  | cons k ks ih =>
    by_cases hks : ks = []
    · subst hks
      exact ⟨_, tableAdd_eq_some.mpr ⟨rfl, rfl⟩⟩
    · obtain ⟨sub, hsub⟩ := ih hks
      exact ⟨_, (insertAt_cons_eq_some hks).mpr ⟨[], sub, .inr ⟨rfl, rfl⟩, hsub, rfl⟩⟩

/-- A table is entered unless its path meets a value. -/
theorem enter_isSome_iff : (∃ t', enter t path = some t') ↔ ¬ ∃ q, q <+: path ∧ ValueAt t q := by
  induction path generalizing t with
  | nil => simp [enter, List.prefix_nil, not_valueAt_nil]
  | cons k ks ih =>
    rw [exists_prefix_valueAt_cons]
    cases hget : tableGetShort t k with
    | none =>
      obtain ⟨sub, hsub⟩ := enter_empty ks
      refine iff_of_true ⟨_, enter_cons_eq_some.mpr ⟨[], sub, .inr ⟨hget, rfl⟩, hsub, rfl⟩⟩ ?_
      simp [ValueAt, markAt_of_none hget]
    | some w =>
      cases w with
      | table sub =>
        simp only [ValueAt, markAt_of_table hget] at ih ⊢
        rw [← ih]
        simp [enter_cons_eq_some, Subtable, hget]
      | str s | int i | float d | bool b | arr items =>
        refine iff_of_false (by simp [enter_cons_eq_some, Subtable, hget]) (not_not.mpr ?_)
        exact ⟨[], List.nil_prefix, _, by rw [markAt_of_scalar hget rfl, if_pos rfl]⟩

/-- A value is inserted unless a parent of its path is a value or the path is taken. -/
theorem insertAt_isSome_iff (hpath : path ≠ []) : (∃ t', insertAt t path v = some t') ↔
    markAt t path = none ∧ ¬ ∃ q, q <+: path.dropLast ∧ ValueAt t q := by
  induction path generalizing t with
  | nil => exact absurd rfl hpath
  | cons k ks ih =>
    by_cases hks : ks = []
    · subst hks
      simp only [insertAt, tableAdd_eq_some, List.dropLast_singleton, List.prefix_nil,
        exists_eq_left, not_valueAt_nil, not_false_eq_true, and_true, exists_eq_right]
      cases hget : tableGetShort t k with
      | none => simp [markAt_of_none hget]
      | some w => simp [markAt_of_get hget]
    · -- with more of the path left, it depends on what the first key leads to
      rw [List.dropLast_cons_of_ne_nil hks, exists_prefix_valueAt_cons]
      cases hget : tableGetShort t k with
      | none =>
        obtain ⟨sub, hsub⟩ := insertAt_empty (v := v) hks
        refine iff_of_true
          ⟨_, (insertAt_cons_eq_some hks).mpr ⟨[], sub, .inr ⟨hget, rfl⟩, hsub, rfl⟩⟩ ?_
        simp [ValueAt, markAt_of_none hget]
      | some w =>
        cases w with
        | table sub =>
          simp only [ValueAt, markAt_of_table hget] at ih ⊢
          rw [← ih hks]
          simp [insertAt_cons_eq_some hks, Subtable, hget]
        | str s | int i | float d | bool b | arr items =>
          refine iff_of_false (by simp [insertAt_cons_eq_some hks, Subtable, hget]) ?_
          rintro ⟨-, hparents⟩
          exact hparents ⟨[], List.nil_prefix, _, by rw [markAt_of_scalar hget rfl, if_pos rfl]⟩

/-! ### The parser's insertion -/

/-- Add a member to the table at a path. -/
def addAt (t : Members) (path : List CStr) (k : CStr) (v : TomlValue) : Option Members := do
  let parent ← getAt t path
  let parent ← tableAdd parent k v
  return setAt t path parent

theorem addAt_cons (h : tableGetShort t k' = some (.table sub)) :
    addAt t (k' :: path) k v = (addAt sub path k v).map fun sub' => Assoc.set t k' (.table sub') := by
  simp only [addAt, getAt, setAt, h]
  cases getAt sub path with
  | none => rfl
  | some parent => cases htable : tableAdd parent k v <;> simp [htable]

/-- A value is inserted by entering the table above it and adding a member there. -/
theorem insertAt_concat (t : Members) (path : List CStr) (k : CStr) (v : TomlValue) :
    insertAt t (path ++ [k]) v = (enter t path).bind fun root => addAt root path k v := by
  induction path generalizing t with
  | nil =>
    rw [List.nil_append, insertAt, enter, Option.bind_some]
    cases hadd : tableAdd t k v <;> simp [addAt, getAt, setAt, hadd]
  | cons k' ks ih =>
    have hne : ks ++ [k] ≠ [] := by simp
    rw [List.cons_append, insertAt.eq_3 _ _ _ _ hne, enter]
    -- a table on the way is made where there is none; anything else is in the way
    cases hget : tableGetShort t k' with
    | none =>
      rw [ih]
      cases enter [] ks with
      | none => rfl
      | some sub =>
        have hnew : tableGetShort (t ++ [(k', .table sub)]) k' = some (.table sub) := by
          rw [← put_of_none hget]
          exact Assoc.get_put_self
        simp only [Option.bind_some, Option.map_some, addAt_cons hnew]
        congr 1
        exact funext fun sub' => (Assoc.set_concat hget).symm
    | some w =>
      cases w with
      | table sub =>
        simp only [ih]
        cases enter sub ks with
        | none => rfl
        | some sub' =>
          simp only [Option.bind_some, Option.map_some, addAt_cons (tableGetShort_set_self hget),
            Assoc.set_set]
      | str s | int i | float d | bool b | arr items => rfl

end

end Toml
