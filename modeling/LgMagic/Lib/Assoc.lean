import Mathlib.Data.List.Basic
import Mathlib.Data.List.Nodup

/-!
# Ordered association lists

Lists of pairs searched from the front, as a program with arrays of keys and values keeps them: the
first pair with a key counts, replacing keeps its place, new pairs go to the end.

* `Assoc.get`, `Assoc.set`, `Assoc.put`;
* `Assoc.get_put`, `Assoc.get_set`: what a lookup finds after an update;
* `Assoc.get_filterMap`: what it finds among pairs that are made from a list of keys.
-/

namespace Assoc

variable {κ α : Type*} [DecidableEq κ]

/-- The value of the first pair with the key. -/
def get : List (κ × α) → κ → Option α
  | [], _ => none
  | (k, v) :: t, key => if k = key then some v else get t key

/-- Replace the value of the first pair with the key. -/
def set : List (κ × α) → κ → α → List (κ × α)
  | [], _, _ => []
  | (k, w) :: t, key, v => if k = key then (k, v) :: t else (k, w) :: set t key v

/-- Replace the value of the first pair with the key, or add a pair at the end. -/
def put (t : List (κ × α)) (key : κ) (v : α) : List (κ × α) :=
  if (get t key).isSome then set t key v else t ++ [(key, v)]

variable {t s : List (κ × α)} {key k : κ} {v w : α}

@[simp] theorem get_nil : get ([] : List (κ × α)) key = none := rfl

@[simp]
theorem get_singleton : get [(k, v)] key = if k = key then some v else none := rfl

theorem get_cons_self : get ((key, v) :: t) key = some v := if_pos rfl

theorem get_cons_ne (h : k ≠ key) : get ((k, v) :: t) key = get t key := if_neg h

theorem get_append : get (t ++ s) key = (get t key).or (get s key) := by
  induction t with
  | nil => rfl
  | cons p t ih =>
    by_cases h : p.1 = key
    · simp [get, h]
    · simp [get, h, ih]

theorem get_eq_none_iff : get t key = none ↔ key ∉ t.map Prod.fst := by
  induction t with
  | nil => simp
  | cons p t ih =>
    by_cases h : p.1 = key
    · simp [get, h]
    · simp [get, h, ih, Ne.symm h]

theorem isSome_get_iff : (get t key).isSome ↔ key ∈ t.map Prod.fst := by
  rw [Option.isSome_iff_ne_none, ne_eq, get_eq_none_iff, not_not]

theorem mem_of_get (h : get t key = some v) : (key, v) ∈ t := by
  induction t with
  | nil => simp at h
  | cons p t ih =>
    obtain ⟨k, w⟩ := p
    rw [get] at h
    split_ifs at h with hk
    · injection h with h
      simp [hk, h]
    · exact List.mem_cons_of_mem _ (ih h)

theorem get_of_mem (hnd : (t.map Prod.fst).Nodup) (h : (key, v) ∈ t) : get t key = some v := by
  induction t with
  | nil => simp at h
  | cons p t ih =>
    obtain ⟨k, w⟩ := p
    rw [List.map_cons, List.nodup_cons] at hnd
    rw [get]
    rcases List.mem_cons.mp h with heq | hmem
    · injection heq with hk hv
      simp [hk, hv]
    · rw [if_neg (fun hk => hnd.1 (List.mem_map.mpr ⟨(key, v), hmem, hk.symm⟩)), ih hnd.2 hmem]

/-- A lookup among other values. -/
theorem get_map {β : Type*} (f : α → β) : get (t.map fun p => (p.1, f p.2)) key = (get t key).map f := by
  induction t with
  | nil => rfl
  | cons p t ih =>
    obtain ⟨k, w⟩ := p
    rw [List.map_cons, get, get, ih]
    split_ifs <;> rfl

/-- A lookup among the pairs that are made for some of the keys. -/
theorem get_filterMap {ι : Type*} [DecidableEq ι] {name : ι → κ} (hname : Function.Injective name)
    (f : ι → Option α) (l : List ι) (i : ι) :
    get (l.filterMap fun j => (f j).map (name j, ·)) (name i) = if i ∈ l then f i else none := by
  induction l with
  | nil => rfl
  | cons j l ih =>
    rw [List.filterMap_cons]
    by_cases hij : j = i
    · subst hij
      rw [if_pos List.mem_cons_self]
      cases hf : f j with
      | none => simp [ih, hf]
      | some v => exact get_cons_self
    · have hmem : i ∈ j :: l ↔ i ∈ l := by
        rw [List.mem_cons, or_iff_right (Ne.symm hij)]
      simp only [hmem, ← ih]
      cases f j with
      | none => rfl
      | some v => exact get_cons_ne fun heq => hij (hname heq)

omit [DecidableEq κ] in
/-- The keys of such pairs are distinct. -/
theorem nodup_filterMap {ι : Type*} {name : ι → κ} (hname : Function.Injective name)
    (f : ι → Option α) {l : List ι} (hl : l.Nodup) :
    ((l.filterMap fun j => (f j).map (name j, ·)).map Prod.fst).Nodup := by
  have hsub : ((l.filterMap fun j => (f j).map (name j, ·)).map Prod.fst).Sublist (l.map name) := by
    clear hl
    induction l with
    | nil => exact .slnil
    | cons j l ih =>
      rw [List.filterMap_cons]
      cases f j with
      | none => exact ih.cons _
      | some v => exact ih.cons_cons _
  exact hsub.nodup (hl.map hname)

@[simp]
theorem map_fst_set : (set t key v).map Prod.fst = t.map Prod.fst := by
  induction t with
  | nil => rfl
  | cons p t ih =>
    by_cases h : p.1 = key
    · simp [set, h]
    · simp [set, h, ih]

theorem get_set_self (h : (get t key).isSome) : get (set t key v) key = some v := by
  induction t with
  | nil => simp at h
  | cons p t ih =>
    by_cases hk : p.1 = key
    · simp [set, get, hk]
    · simp only [get, hk, if_false] at h
      simp [set, get, hk, ih h]

theorem get_set_ne (hne : k ≠ key) : get (set t key v) k = get t k := by
  induction t with
  | nil => rfl
  | cons p t ih =>
    by_cases hk : p.1 = key
    · simp [set, get, hk, hne.symm]
    · simp [set, get, hk, ih]

theorem set_set : set (set t key v) key w = set t key w := by
  induction t with
  | nil => rfl
  | cons p t ih =>
    by_cases h : p.1 = key
    · simp [set, h]
    · simp [set, h, ih]

/-- Setting what is there changes nothing. -/
theorem set_self (h : get t key = some v) : set t key v = t := by
  induction t with
  | nil => rfl
  | cons p t ih =>
    obtain ⟨k, w⟩ := p
    rw [get] at h
    rw [set]
    split_ifs at h ⊢ with hk
    · injection h with h
      rw [h]
    · rw [ih h]

/-- Setting the pair at the end. -/
theorem set_concat (h : get t key = none) : set (t ++ [(key, v)]) key w = t ++ [(key, w)] := by
  induction t with
  | nil => simp [set]
  | cons p t ih =>
    rw [get] at h
    split_ifs at h with hk
    simp [set, hk, ih h]

theorem get_put_self : get (put t key v) key = some v := by
  rw [put]
  split_ifs with h
  · exact get_set_self h
  · rw [get_append, Option.not_isSome_iff_eq_none.mp h]
    simp

theorem get_put_ne (hne : k ≠ key) : get (put t key v) k = get t k := by
  rw [put]
  split_ifs
  · exact get_set_ne hne
  · rw [get_append, get_singleton, if_neg hne.symm, Option.or_none]

/-- A lookup after an update. -/
theorem get_put : get (put t key v) k = if k = key then some v else get t k := by
  split_ifs with h
  · rw [h, get_put_self]
  · exact get_put_ne h

/-- An update keeps the keys distinct. -/
theorem nodup_put (h : (t.map Prod.fst).Nodup) : ((put t key v).map Prod.fst).Nodup := by
  rw [put]
  split_ifs with hk
  · rwa [map_fst_set]
  · rw [isSome_get_iff] at hk
    rw [List.map_append, List.nodup_append]
    refine ⟨h, by simp, fun a hmem b hb heq => hk ?_⟩
    rw [List.map_singleton, List.mem_singleton] at hb
    exact (show b = key from hb) ▸ heq ▸ hmem

/-- The pairs of a list with one of them set. -/
theorem forall_mem_set {P : κ × α → Prop} (h : ∀ p ∈ t, P p) (hv : P (key, v)) :
    ∀ p ∈ set t key v, P p := by
  induction t with
  | nil => simp [set]
  | cons q t ih =>
    obtain ⟨k, w⟩ := q
    intro p hp
    rw [set] at hp
    split_ifs at hp with hk
    · rcases List.mem_cons.mp hp with rfl | hp
      · exact hk ▸ hv
      · exact h p (List.mem_cons_of_mem _ hp)
    · rcases List.mem_cons.mp hp with rfl | hp
      · exact h _ (by simp)
      · exact ih (fun p hp => h p (List.mem_cons_of_mem _ hp)) p hp

/-- The pairs of an updated list. -/
theorem forall_mem_put {P : κ × α → Prop} (h : ∀ p ∈ t, P p) (hv : P (key, v)) :
    ∀ p ∈ put t key v, P p := by
  rw [put]
  split_ifs
  · exact forall_mem_set h hv
  · intro p hp
    rcases List.mem_append.mp hp with hp | hp
    · exact h p hp
    · rw [List.mem_singleton.mp hp]
      exact hv

end Assoc
