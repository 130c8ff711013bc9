import Mathlib.Order.Lattice
import Mathlib.Data.List.Induction

/-!
# Depth buffers

A buffer has a depth and a look for each cell. A point changes its cell when it is nearer than what
the cell has. In a buffer that was cleared before, each cell then shows the nearest of its points,
whatever the order they came in.

* `Buffer`, `clear`, `put`: the buffer and its operations;
* `nearest`: the depth that a cell should have;
* `foldl_put_clear`: the cells after any points.
-/

namespace DepthBuffer

/-- The depths of the cells and what they show. -/
structure Buffer (Z χ : Type) where
  depth : List Z
  shown : List χ

section

variable {Z χ : Type} [LinearOrder Z]

/-- A buffer of some cells, all of them far and blank. -/
def clear (n : ℕ) (far : Z) (blank : χ) : Buffer Z χ := ⟨List.replicate n far, List.replicate n blank⟩

/-- A point at a cell. -/
def Buffer.put (shade : Z → χ) (b : Buffer Z χ) (p : ℕ × Z) : Buffer Z χ :=
  match b.depth[p.1]? with
  | some old => if old ≤ p.2 then b else ⟨b.depth.set p.1 p.2, b.shown.set p.1 (shade p.2)⟩
  | none => b

/-- The least depth of the points of a cell. -/
def nearest (ps : List (ℕ × Z)) (i : ℕ) : Option Z :=
  ((ps.filter fun p => p.1 = i).map Prod.snd).min?

/-- What a buffer shows of some points. -/
structure Shows (shade : Z → χ) (n : ℕ) (far : Z) (blank : χ) (ps : List (ℕ × Z))
    (b : Buffer Z χ) : Prop where
  length_depth : b.depth.length = n
  length_shown : b.shown.length = n
  depth : ∀ i < n, b.depth[i]? = some ((nearest ps i).getD far)
  shown : ∀ i < n, b.shown[i]? = some ((nearest ps i).elim blank shade)

theorem min?_concat (zs : List Z) (z : Z) :
    (zs ++ [z]).min? = some (zs.min?.elim z fun best => min best z) := by
  cases zs with
  | nil => rfl
  | cons y ys => simp only [List.cons_append, List.min?_cons', List.foldl_append, List.foldl_cons,
      List.foldl_nil, Option.elim_some]

theorem nearest_concat_self (ps : List (ℕ × Z)) (i : ℕ) (z : Z) :
    nearest (ps ++ [(i, z)]) i = some ((nearest ps i).elim z fun best => min best z) := by
  simp only [nearest, List.filter_append, List.map_append]
  rw [← min?_concat]
  simp

theorem nearest_concat_of_ne (ps : List (ℕ × Z)) {i j : ℕ} (h : j ≠ i) (z : Z) :
    nearest (ps ++ [(j, z)]) i = nearest ps i := by
  simp [nearest, List.filter_append, h]

variable {shade : Z → χ} {n : ℕ} {far : Z} {blank : χ} {ps : List (ℕ × Z)} {b : Buffer Z χ}

theorem shows_clear : Shows shade n far blank [] (clear n far blank) where
  length_depth := List.length_replicate
  length_shown := List.length_replicate
  depth i hi := by simp [clear, nearest, hi]
  shown i hi := by simp [clear, nearest, hi]

/-- One more point of a cell. -/
theorem Shows.put (h : Shows shade n far blank ps b) {i : ℕ} {z : Z} (hi : i < n) (hz : z < far) :
    Shows shade n far blank (ps ++ [(i, z)]) (b.put shade (i, z)) := by
  have hold := h.depth i hi
  by_cases hle : (nearest ps i).getD far ≤ z
  · -- the point is hidden: the cell has a nearer one
    have hput : b.put shade (i, z) = b := by simp only [Buffer.put, hold, if_pos hle]
    cases hnear : nearest ps i with
    | none => exact absurd hz (not_lt.mpr (by simpa [hnear] using hle))
    | some best =>
      rw [hnear, Option.getD_some] at hle
      have hsame : ∀ j, nearest (ps ++ [(i, z)]) j = nearest ps j := by
        intro j
        by_cases hj : i = j
        · subst hj
          rw [nearest_concat_self, hnear, Option.elim_some, min_eq_left hle]
        · exact nearest_concat_of_ne ps hj z
      rw [hput]
      exact ⟨h.length_depth, h.length_shown, fun j hj => by rw [hsame, h.depth j hj],
        fun j hj => by rw [hsame, h.shown j hj]⟩
  · have hput : b.put shade (i, z) = ⟨b.depth.set i z, b.shown.set i (shade z)⟩ := by
      simp only [Buffer.put, hold, if_neg hle]
    have hnear : nearest (ps ++ [(i, z)]) i = some z := by
      rw [nearest_concat_self]
      cases hn : nearest ps i with
      | none => rfl
      | some best =>
        rw [hn, Option.getD_some, not_le] at hle
        rw [Option.elim_some, min_eq_right hle.le]
    rw [hput]
    refine ⟨by rw [List.length_set, h.length_depth], by rw [List.length_set, h.length_shown], ?_, ?_⟩
    · intro j hj
      by_cases hij : i = j
      · subst hij
        rw [hnear, List.getElem?_set_self (by rwa [h.length_depth])]
        rfl
      · rw [List.getElem?_set_ne hij, nearest_concat_of_ne ps hij, h.depth j hj]
    · intro j hj
      by_cases hij : i = j
      · subst hij
        rw [hnear, List.getElem?_set_self (by rwa [h.length_shown])]
        rfl
      · rw [List.getElem?_set_ne hij, nearest_concat_of_ne ps hij, h.shown j hj]

/-- The buffer after any points shows the nearest of each cell. -/
theorem foldl_put_clear (h : ∀ p ∈ ps, p.1 < n ∧ p.2 < far) :
    Shows shade n far blank ps (ps.foldl (Buffer.put shade) (clear n far blank)) := by
  induction ps using List.reverseRecOn with
  | nil => exact shows_clear
  | append_singleton ps p ih =>
    obtain ⟨hi, hz⟩ := h p (List.mem_append_right _ List.mem_cons_self)
    rw [List.foldl_append, List.foldl_cons, List.foldl_nil]
    exact (ih fun q hq => h q (List.mem_append_left _ hq)).put hi hz

end

end DepthBuffer
