import LgMagic.Lib.Assoc
import LgMagic.Lib.Binary64
import LgMagic.Lib.CString

/-!
# TOML trees

The tree of `toml.c` and its constructors, lookups and in-place edits. A table is the list of its
members in insertion order, arrays hold strings only.

* `TomlValue`, `Members`;
* `tableGetShort`, `tableAdd`, `tableSetStr`: lookup, insertion, setting;
* `enter`, `getAt`, `setAt`: the table under a path;
* `WellFormed`: the keys of every table are distinct;
* `depth`: the nesting of tables.
-/

namespace Toml

open Binary64

/-- A TOML value. -/
inductive TomlValue
  | str (s : CStr)
  | int (i : Int64)
  | float (d : Double)
  | bool (b : Bool)
  | arr (items : List CStr)
  | table (members : List (CStr × TomlValue))

/-- The members of a table, in insertion order. -/
abbrev Members := List (CStr × TomlValue)

/-- `type == TOML_TABLE` -/
def TomlValue.isTable : TomlValue → Bool
  | .table _ => true
  | _ => false

@[simp] theorem isTable_table (ms : Members) : (TomlValue.table ms).isTable = true := rfl

/-! ## Lookup and insertion -/

/-- `toml_table_get_short` on a table. -/
def tableGetShort (t : Members) (key : CStr) : Option TomlValue := Assoc.get t key

/-- `toml_table_add` on a table; a key that is present is refused. -/
def tableAdd (t : Members) (key : CStr) (v : TomlValue) : Option Members :=
  if (tableGetShort t key).isSome then none else some (t ++ [(key, v)])

/-- `table_set_str`: set or replace a string member. -/
def tableSetStr (t : Members) (key val : CStr) : Members := Assoc.put t key (.str val)

theorem tableGetShort_set_self {t : Members} {key : CStr} {v w : TomlValue}
    (h : tableGetShort t key = some w) : tableGetShort (Assoc.set t key v) key = some v :=
  Assoc.get_set_self (by rw [tableGetShort] at h; simp [h])

theorem tableAdd_eq_some {t t' : Members} {key : CStr} {v : TomlValue} :
    tableAdd t key v = some t' ↔ tableGetShort t key = none ∧ t' = t ++ [(key, v)] := by
  unfold tableAdd
  split_ifs with h
  · simpa using fun hnone => absurd h (by simp [hnone])
  · simp [Option.not_isSome_iff_eq_none.mp h, eq_comm]

/-! ## The table under a path -/

/-- `enter`: walk into the table a path addresses and create the tables that are missing. The
result is the whole tree after that, `none` when the path crosses a value that is no table. -/
def enter (t : Members) (segs : List CStr) : Option Members :=
  match segs with
  | [] => some t
  | k :: ks =>
    match tableGetShort t k with
    | none => (enter [] ks).map fun sub => t ++ [(k, .table sub)]
    | some (.table sub) => (enter sub ks).map fun sub' => Assoc.set t k (.table sub')
    | some _ => none

/-- The table at a path. -/
def getAt (t : Members) (segs : List CStr) : Option Members :=
  match segs with
  | [] => some t
  | k :: ks =>
    match tableGetShort t k with
    | some (.table sub) => getAt sub ks
    | _ => none

/-- Replace the table at a path. -/
def setAt (t : Members) (segs : List CStr) (new : Members) : Members :=
  match segs with
  | [] => new
  | k :: ks =>
    match tableGetShort t k with
    | some (.table sub) => Assoc.set t k (.table (setAt sub ks new))
    | _ => t

section

variable {t sub new : Members} {segs : List CStr} {k : CStr}

theorem getAt_setAt (h : (getAt t segs).isSome) : getAt (setAt t segs new) segs = some new := by
  induction segs generalizing t with
  | nil => rfl
  | cons k ks ih =>
    rw [getAt] at h
    split at h
    · next sub hget =>
      simp only [setAt, getAt, hget, tableGetShort_set_self hget]
      exact ih h
    · simp at h

theorem setAt_setAt (h : (getAt t segs).isSome) (new' : Members) :
    setAt (setAt t segs new) segs new' = setAt t segs new' := by
  induction segs generalizing t with
  | nil => rfl
  | cons k ks ih =>
    rw [getAt] at h
    split at h
    · next sub hget =>
      simp only [setAt, hget, tableGetShort_set_self hget, Assoc.set_set, ih h]
    · simp at h

theorem setAt_self (h : getAt t segs = some sub) : setAt t segs sub = t := by
  induction segs generalizing t with
  | nil =>
    injection h with h
    rw [setAt, h]
  | cons k ks ih =>
    rw [getAt] at h
    split at h
    · next s hget =>
      simp only [setAt, hget]
      rw [ih h]
      exact Assoc.set_self hget
    · simp at h

/-- Entering a table that is there changes nothing. -/
theorem enter_of_getAt (h : (getAt t segs).isSome) : enter t segs = some t := by
  induction segs generalizing t with
  | nil => rfl
  | cons k ks ih =>
    rw [getAt] at h
    split at h
    · next s hget =>
      simp only [enter, hget, ih h, Option.map_some, Assoc.set_self hget]
    · simp at h

/-- Entering a new table below one that is there appends it to that one. -/
theorem enter_append_new (h : getAt t segs = some sub) (hk : tableGetShort sub k = none) :
    enter t (segs ++ [k]) = some (setAt t segs (sub ++ [(k, .table [])])) := by
  induction segs generalizing t with
  | nil =>
    injection h with h
    subst h
    simp [enter, hk, setAt]
  | cons k' ks ih =>
    rw [getAt] at h
    split at h
    · next s hget =>
      simp only [List.cons_append, enter, hget, ih h, Option.map_some, setAt]
    · simp at h

theorem getAt_append : getAt t (segs ++ [k]) = (getAt t segs).bind fun sub =>
    match tableGetShort sub k with
    | some (.table s) => some s
    | _ => none := by
  induction segs generalizing t with
  | nil => simp [getAt]
  | cons k' ks ih =>
    rw [List.cons_append, getAt, getAt]
    split
    · exact ih
    · rfl

/-- Replacing a table below another one is replacing the member of that one. -/
theorem setAt_append {s : Members} (h : getAt t segs = some sub)
    (hk : tableGetShort sub k = some (.table s)) :
    setAt t (segs ++ [k]) new = setAt t segs (Assoc.set sub k (.table new)) := by
  induction segs generalizing t with
  | nil =>
    injection h with h
    subst h
    simp [setAt, hk]
  | cons k' ks ih =>
    rw [getAt] at h
    split at h
    · next s' hget =>
      simp only [List.cons_append, setAt, hget, ih h]
    · simp at h

end

/-! ## Shape of a tree -/

mutual

/-- The keys of every table are distinct. -/
def TomlValue.WellFormed : TomlValue → Prop
  | .table ms => (ms.map Prod.fst).Nodup ∧ membersWellFormed ms
  | _ => True

/-- The values of the members are well formed. -/
def membersWellFormed : Members → Prop
  | [] => True
  | (_, v) :: ms => v.WellFormed ∧ membersWellFormed ms

end

mutual

/-- How deep tables are nested below a value. -/
def TomlValue.depth : TomlValue → ℕ
  | .table ms => membersDepth ms
  | _ => 0

/-- How deep tables are nested in a list of members; each table member is one level. -/
def membersDepth : Members → ℕ
  | [] => 0
  | (_, v) :: ms => max (if v.isTable then v.depth + 1 else 0) (membersDepth ms)

end

/-- How deep every member may be nested. -/
theorem membersDepth_le_iff {ms : Members} {n : ℕ} :
    membersDepth ms ≤ n ↔ ∀ m ∈ ms, m.2.isTable → m.2.depth + 1 ≤ n := by
  induction ms with
  | nil => simp [membersDepth]
  | cons m ms ih =>
    obtain ⟨k, v⟩ := m
    rw [membersDepth, max_le_iff, ih, List.forall_mem_cons]
    refine and_congr_left fun _ => ?_
    split_ifs with h <;> simp [h]

/-- Induction over the members of a table and of the tables below it. -/
theorem membersInduction {P : Members → Prop} (nil : P [])
    (scalar : ∀ k v ms, v.isTable = false → P ms → P ((k, v) :: ms))
    (table : ∀ k sub ms, P sub → P ms → P ((k, .table sub) :: ms)) (ms : Members) : P ms := by
  refine TomlValue.rec_1 (motive_1 := fun v => ∀ sub, v = .table sub → P sub) (motive_2 := P)
    (motive_3 := fun m => ∀ ms, P ms → P (m :: ms)) ?_ ?_ ?_ ?_ ?_ ?_ nil ?_ ?_ ms
  case refine_6 => exact fun members h sub heq => by injection heq with heq; exact heq ▸ h
  case refine_7 => exact fun m ms hm hms => hm ms hms
  case refine_8 =>
    intro k v hv ms hms
    cases v with
    | table sub => exact table k sub ms (hv sub rfl) hms
    | str s | int i | float d | bool b | arr items => exact scalar k _ ms rfl hms
  all_goals exact fun _ sub heq => by simp at heq

theorem membersWellFormed_iff {ms : Members} :
    membersWellFormed ms ↔ ∀ m ∈ ms, m.2.WellFormed := by
  induction ms with
  | nil => simp [membersWellFormed]
  | cons m ms ih => simp [membersWellFormed, ih]

end Toml
