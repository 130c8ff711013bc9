import Mathlib.Data.List.Basic

/-!
# Layers

Values that are taken from a list of layers, a later layer over an earlier one: the last layer that
gives a value counts. A program that goes over the layers in order and overwrites what it has ends
with that value.

* `lastSome`: the value of the last layer that gives one;
* `isSome_lastSome`, `lastSome_of_unique`: which layer that is;
* `get_foldl`: a program that overwrites.
-/

namespace Layers

variable {α β S : Type*}

/-- The value of the last layer that gives one. -/
def lastSome (c : α → Option β) (l : List α) : Option β := l.reverse.findSome? c

variable {c : α → Option β} {l : List α} {a : α} {b : β}

@[simp]
theorem lastSome_nil : lastSome c [] = none := rfl

theorem lastSome_append (l l' : List α) :
    lastSome c (l ++ l') = (lastSome c l').or (lastSome c l) := by
  simp [lastSome, List.findSome?_append]

theorem lastSome_cons : lastSome c (a :: l) = (lastSome c l).or (c a) := by
  have hone : lastSome c [a] = c a := by simp [lastSome]
  rw [← List.singleton_append, lastSome_append, hone]

theorem isSome_lastSome : (lastSome c l).isSome = true ↔ ∃ a ∈ l, (c a).isSome = true := by
  simp [lastSome, List.findSome?_isSome_iff]

theorem lastSome_map {γ : Type*} (f : β → γ) (l : List α) :
    lastSome (fun a => (c a).map f) l = (lastSome c l).map f := by
  induction l with
  | nil => rfl
  | cons a l ih =>
    rw [lastSome_cons, lastSome_cons, ih]
    cases lastSome c l <;> rfl

/-- Where all layers but one give nothing. -/
theorem lastSome_of_unique (hmem : a ∈ l) (hother : ∀ x ∈ l, x ≠ a → c x = none) :
    lastSome c l = c a := by
  induction l with
  | nil => simp at hmem
  | cons x l ih =>
    rw [lastSome_cons]
    by_cases hl : a ∈ l
    · rw [ih hl fun y hy => hother y (List.mem_cons_of_mem _ hy)]
      by_cases hx : x = a
      · rw [hx, Option.or_self]
      · rw [hother x List.mem_cons_self hx, Option.or_none]
    · have hx : a = x := (List.mem_cons.mp hmem).resolve_right hl
      have hnone : lastSome c l = none := by
        rw [← Option.not_isSome_iff_eq_none, isSome_lastSome]
        rintro ⟨y, hy, hsome⟩
        rw [hother y (List.mem_cons_of_mem _ hy) fun h => hl (h ▸ hy)] at hsome
        cases hsome
      rw [hnone, hx, Option.none_or]

/-- A program that goes over the layers and overwrites has the value of the last layer in the end,
and what it began with where no layer gives one. -/
theorem get_foldl (get : S → β) {step : S → α → S}
    (h : ∀ s a, get (step s a) = (c a).getD (get s)) (l : List α) (s : S) :
    get (l.foldl step s) = (lastSome c l).getD (get s) := by
  induction l generalizing s with
  | nil => rfl
  | cons a l ih =>
    rw [List.foldl_cons, ih, h, lastSome_cons]
    cases lastSome c l <;> simp

end Layers
