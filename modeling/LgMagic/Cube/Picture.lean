import LgMagic.Cube

/-!
# What the cube shows

The points of a turned cube are in front of the camera, so a frame has a result for every terminal,
and each cell shows the nearest of the points that fall into it. The text of a frame fits the buffer
that is requested for it, and has the cells of the picture. No frame depends on the ones before it.

* `Near`: the points of a turned cube, and where they are placed;
* `depthsAt`, `pictureAt`: the picture of an orientation;
* `foldlM_drawPoint`: the buffers after the points of a cube;
* `Drawn`: the text of a frame;
* `Fitting`: the states between frames, and `cubeRender_of_fitting`: a frame;
* `cubeRun_filterRun`: the frames of a run of the filter.
-/

namespace Cube

open Orientation Pointer DepthBuffer

/-! ## The points -/

section

variable {K : Type} [Field K] [LinearOrder K] [IsStrictOrderedRing K]

/-- No coordinate is far from the centre. -/
def Near (p : Vec3 K) : Prop := |p.x| ≤ 3 ∧ |p.y| ≤ 3 ∧ |p.z| ≤ 3

/-- The squares of the components add up to one. -/
def UnitSum (q : Quat K) : Prop := q.w * q.w + q.x * q.x + q.y * q.y + q.z * q.z = 1

/-- A row of entries of a rotation, over a corner of the cube. -/
theorem abs_row_le {a b c x y z : K} (ha : |a| ≤ 1) (hb : |b| ≤ 1) (hc : |c| ≤ 1) (hx : |x| ≤ 1)
    (hy : |y| ≤ 1) (hz : |z| ≤ 1) : |a * x + b * y + c * z| ≤ 3 := by
  have h1 : |a * x| ≤ 1 := by rw [abs_mul]; exact mul_le_one₀ ha (abs_nonneg _) hx
  have h2 : |b * y| ≤ 1 := by rw [abs_mul]; exact mul_le_one₀ hb (abs_nonneg _) hy
  have h3 : |c * z| ≤ 1 := by rw [abs_mul]; exact mul_le_one₀ hc (abs_nonneg _) hz
  have hsum := abs_add_three (a * x) (b * y) (c * z)
  linarith

/-- The entries of the matrix of a unit quaternion. -/
theorem abs_diagonal_le {a b c d : K} (h : a * a + b * b + c * c + d * d = 1) :
    |1 - 2 * (a * a + b * b)| ≤ 1 := by
  have ha := mul_self_nonneg a
  have hb := mul_self_nonneg b
  have hc := mul_self_nonneg c
  have hd := mul_self_nonneg d
  rw [abs_le]
  constructor <;> linarith

theorem abs_offDiagonal_le {a b c d : K} (h : a * a + b * b + c * c + d * d = 1) :
    |2 * (a * b - c * d)| ≤ 1 ∧ |2 * (a * b + c * d)| ≤ 1 := by
  have h1 := mul_self_nonneg (a + b)
  have h2 := mul_self_nonneg (a - b)
  have h3 := mul_self_nonneg (c + d)
  have h4 := mul_self_nonneg (c - d)
  constructor <;> rw [abs_le] <;> constructor <;> nlinarith

theorem near_vertices (i : Fin 8) : |(vertices i : Vec3 K).x| ≤ 1 ∧ |(vertices i : Vec3 K).y| ≤ 1 ∧
    |(vertices i : Vec3 K).z| ≤ 1 := by
  fin_cases i <;> simp [vertices]

theorem near_turnedVertex {q : Quat K} (hq : UnitSum q) (i : Fin 8) : Near (turnedVertex q i) := by
  obtain ⟨hx, hy, hz⟩ := near_vertices (K := K) i
  rw [UnitSum] at hq
  obtain ⟨hxy, hyx⟩ := abs_offDiagonal_le (a := q.x) (b := q.y) (c := q.w) (d := q.z) (by linarith)
  obtain ⟨hzx, hxz⟩ := abs_offDiagonal_le (a := q.x) (b := q.z) (c := q.w) (d := q.y) (by linarith)
  obtain ⟨hyz, -⟩ := abs_offDiagonal_le (a := q.y) (b := q.z) (c := q.w) (d := q.x) (by linarith)
  obtain ⟨-, hzy⟩ := abs_offDiagonal_le (a := q.w) (b := q.x) (c := q.y) (d := q.z) (by linarith)
  -- each row has one entry of the diagonal and two others
  refine ⟨abs_row_le ?_ hxy hxz hx hy hz, abs_row_le hyx ?_ hyz hx hy hz,
    abs_row_le hzx hzy ?_ hx hy hz⟩
  · exact abs_diagonal_le (c := q.w) (d := q.x) (by linarith)
  · exact abs_diagonal_le (c := q.w) (d := q.y) (by linarith)
  · exact abs_diagonal_le (c := q.w) (d := q.z) (by linarith)

/-- A point between two is not farther than both. -/
theorem abs_between_le {a b t M : K} (ha : |a| ≤ M) (hb : |b| ≤ M) (h0 : 0 ≤ t) (h1 : t ≤ 1) :
    |a + (b - a) * t| ≤ M := by
  rw [abs_le] at ha hb ⊢
  constructor <;> nlinarith

theorem near_edgePoint {a b : Vec3 K} (ha : Near a) (hb : Near b) {s : ℕ} (hs : s ≤ cubeSteps) :
    Near (edgePoint a b s) := by
  have h0 : (0 : K) ≤ (s : K) / (cubeSteps : K) := div_nonneg (Nat.cast_nonneg _) (Nat.cast_nonneg _)
  have h1 : (s : K) / (cubeSteps : K) ≤ 1 := div_le_one_of_le₀ (Nat.cast_le.mpr hs) (Nat.cast_nonneg _)
  exact ⟨abs_between_le ha.1 hb.1 h0 h1, abs_between_le ha.2.1 hb.2.1 h0 h1,
    abs_between_le ha.2.2 hb.2.2 h0 h1⟩

/-- The points of a turned cube. -/
theorem near_of_mem_points {q : Quat K} (hq : UnitSum q) {p : Vec3 K} (hp : p ∈ points q) :
    Near p := by
  simp only [points, List.mem_flatMap, List.mem_map, List.mem_range] at hp
  obtain ⟨e, -, s, hs, rfl⟩ := hp
  exact near_edgePoint (near_turnedVertex hq e.1) (near_turnedVertex hq e.2) (Nat.lt_succ_iff.mp hs)

end

/-! ## The screen -/

section

variable {K : Type} [Field K] [LinearOrder K] [IsStrictOrderedRing K] [FloorRing K]

/-- A value well inside the range of `int` is converted, to something as far from zero. -/
theorem exists_toInt? {x : K} (h : |x| ≤ 2 ^ 30) : ∃ n, toInt? x = some n := by
  obtain ⟨hlo, hhi⟩ := abs_le.mp h
  refine ⟨_, if_pos ?_⟩
  split_ifs with h0
  -- a conversion rounds towards zero
  · have hle : ⌊x⌋ ≤ 2 ^ 30 := by
      exact_mod_cast (Int.floor_le x).trans hhi
    have hnn := Int.floor_nonneg.mpr h0
    omega
  · have hge : -2 ^ 30 ≤ ⌈x⌉ := by
      exact_mod_cast hlo.trans (Int.le_ceil x)
    have hle : ⌈x⌉ ≤ 0 := Int.ceil_le.mpr (by simpa using (not_le.mp h0).le)
    omega

omit [LinearOrder K] [IsStrictOrderedRing K] [FloorRing K] in
@[simp] theorem const_two (a : ℕ) : (const a 2 : K) = (a : K) / 2 := by simp [const]

omit [LinearOrder K] [IsStrictOrderedRing K] [FloorRing K] in
@[simp] theorem const_ten (a : ℕ) : (const a 10 : K) = (a : K) / 10 := by simp [const]

omit [LinearOrder K] [IsStrictOrderedRing K] [FloorRing K] in
@[simp] theorem const_one (a : ℕ) : (const a 1 : K) = (a : K) := by simp [const]

/-- How far from the middle a near point is placed. -/
theorem abs_offset_le {p z : K} {cols : ℕ} (hp : |p| ≤ 3) (hz : 2 ≤ z) (hc : cols ≤ 65535) :
    |p * cubeF / z * (const 2 10 * (cols : K))| ≤ 50000 := by
  have hz0 : 0 < z := two_pos.trans_le hz
  have hcols : (0 : K) ≤ cols ∧ (cols : K) ≤ 65535 := ⟨Nat.cast_nonneg _, by exact_mod_cast hc⟩
  have hf : (cubeF : K) = 22 / 10 := by rw [cubeF, const_ten, Nat.cast_ofNat]
  have hratio : |p * cubeF / z| ≤ 33 / 10 := by
    rw [abs_div, abs_of_pos hz0, div_le_iff₀ hz0, abs_mul, hf,
      abs_of_pos (by norm_num : (0 : K) < 22 / 10)]
    linarith
  rw [const_ten, Nat.cast_ofNat, abs_mul,
    abs_of_nonneg (by linarith [hcols.1] : (0 : K) ≤ 2 / 10 * cols)]
  calc |p * cubeF / z| * (2 / 10 * (cols : K))
      ≤ 33 / 10 * (2 / 10 * 65535) := by
        refine mul_le_mul hratio ?_ (by linarith [hcols.1]) (by norm_num)
        linarith [hcols.2]
    _ ≤ 50000 := by norm_num

/-- A near point has a place, in front of the camera. -/
theorem exists_place {rows cols : ℕ} (hr : rows ≤ 65535) (hc : cols ≤ 65535) {p : Vec3 K}
    (hp : Near p) : ∃ r c, place rows cols p = some (r, c, p.z + cubeD) := by
  -- the cube lies between two and eight in front of the camera
  have hz : 2 ≤ p.z + cubeD := by
    rw [cubeD, const_one, Nat.cast_ofNat]
    linarith [(abs_le.mp hp.2.2).1]
  have hne : p.z + cubeD ≠ 0 := (two_pos.trans_le hz).ne'
  have hx := abs_le.mp (abs_offset_le hp.1 hz hc)
  have hy := abs_le.mp (abs_offset_le hp.2.1 hz hc)
  have hrows : (0 : K) ≤ rows ∧ (rows : K) ≤ 65535 := ⟨Nat.cast_nonneg _, by exact_mod_cast hr⟩
  have hcols : (0 : K) ≤ cols ∧ (cols : K) ≤ 65535 := ⟨Nat.cast_nonneg _, by exact_mod_cast hc⟩
  obtain ⟨c, hcol⟩ := exists_toInt? (K := K)
    (x := const cols 2 + p.x * cubeF / (p.z + cubeD) * (const 2 10 * (cols : K)) + const 1 2)
    (by rw [abs_le, const_two, const_two, Nat.cast_one]
        constructor <;> linarith [hx.1, hx.2, hcols.1, hcols.2])
  obtain ⟨r, hrow⟩ := exists_toInt? (K := K)
    (x := const rows 2 - p.y * cubeF / (p.z + cubeD) * (const 2 10 * (cols : K)) * const 1 2 +
      const 1 2)
    (by rw [abs_le, const_two, const_two, Nat.cast_one]
        constructor <;> linarith [hy.1, hy.2, hrows.1, hrows.2])
  refine ⟨r, c, ?_⟩
  simp only [place, checkedDiv_of_ne _ hne, Option.bind_eq_bind, Option.bind_some, hcol, hrow,
    Option.pure_def]

omit [IsStrictOrderedRing K] in
theorem clamp01_mem (t : K) : 0 ≤ clamp01 t ∧ clamp01 t ≤ 1 := by
  rw [clamp01]
  by_cases h0 : t < 0
  · simp [h0, not_lt.mpr (zero_le_one' K)]
  · by_cases h1 : t > 1
    · simp [h0, h1]
    · simp only [if_neg h0, if_neg h1]
      exact ⟨not_lt.mp h0, not_lt.mp h1⟩

/-- Every depth has a character. -/
theorem exists_shade (zc : K) : ∃ ch ∈ cubeLum, shade zc = some ch := by
  obtain ⟨h0, h1⟩ := clamp01_mem ((zc - (cubeD - cubeHalf)) / (const 2 1 * cubeHalf))
  set t := clamp01 ((zc - (cubeD - cubeHalf)) / (const 2 1 * cubeHalf)) with ht
  have hidx : (t * const (12 - 1) 1 + const 1 2 : K) = t * 11 + 1 / 2 := by
    rw [const_one, const_two]
    norm_num
  have hnn : (0 : K) ≤ t * 11 + 1 / 2 := by linarith
  obtain ⟨n, hn⟩ := exists_toInt? (x := t * 11 + 1 / 2)
    (by rw [abs_le]; constructor <;> linarith)
  have hfloor : n = ⌊t * 11 + 1 / 2⌋ := by
    simp only [toInt?, if_pos hnn] at hn
    split_ifs at hn
    exact (Option.some_inj.mp hn).symm
  have hn0 : 0 ≤ n := hfloor ▸ Int.floor_nonneg.mpr hnn
  -- the index is at most eleven and a half, cut off
  have hn11 : n < 12 := by
    rw [hfloor, Int.floor_lt]
    push_cast
    linarith
  have hlt : (12 - 1 - n).toNat < cubeLum.length := by
    simp only [cubeLum, List.length_cons, List.length_nil]
    omega
  refine ⟨cubeLum.get ⟨_, hlt⟩, List.get_mem _ _, ?_⟩
  rw [shade, ← ht, hidx, hn]
  simp only [Option.bind_eq_bind, Option.bind_some, if_pos (by omega : (0 : ℤ) ≤ 12 - 1 - n)]
  exact List.getElem?_eq_getElem hlt

/-- The character of a depth. -/
def look (zc : K) : Char := (shade zc).getD ' '

theorem shade_eq (zc : K) : shade zc = some (look zc) := by
  obtain ⟨ch, -, h⟩ := exists_shade zc
  rw [look, h, Option.getD_some]

theorem look_mem (zc : K) : look zc ∈ cubeLum := by
  obtain ⟨ch, hmem, h⟩ := exists_shade zc
  rwa [look, h, Option.getD_some]

/-! ## The picture -/

/-- A place is a cell of the grid, which is below the text line. -/
def InGrid (rows cols : ℕ) (r c : ℤ) : Prop := 1 ≤ r ∧ r < rows ∧ 0 ≤ c ∧ c < cols

instance (rows cols : ℕ) (r c : ℤ) : Decidable (InGrid rows cols r c) :=
  inferInstanceAs (Decidable (_ ∧ _))

/-- The depths of the points that fall into a cell. -/
def depthsAt (rows cols : ℕ) (q : Quat K) (r c : ℕ) : List K :=
  (points q).filterMap fun p => (place rows cols p).bind fun (r', c', zc) =>
    if r' = r + 1 ∧ c' = c then some zc else none

/-- The nearest point of a cell, or a blank. -/
def pictureAt (rows cols : ℕ) (q : Quat K) (r c : ℕ) : Char :=
  (depthsAt rows cols q r c).min?.elim ' ' look

/-- The points of the grid, with the index of their cells. -/
def gridPoints (rows cols : ℕ) (ps : List (Vec3 K)) : List (ℕ × K) :=
  ps.filterMap fun p => (place rows cols p).bind fun (r, c, zc) =>
    if InGrid rows cols r c then some ((r - 1).toNat * cols + c.toNat, zc) else none

theorem index_lt {rows cols : ℕ} {r c : ℤ} (h : InGrid rows cols r c) :
    (r - 1).toNat * cols + c.toNat < (rows - 1) * cols := by
  obtain ⟨hr1, hr, hc0, hc⟩ := h
  have hrow : (r - 1).toNat < rows - 1 := by omega
  have hcol : c.toNat < cols := by omega
  rw [Nat.mul_comm _ cols]
  exact Nat.mul_add_lt_mul_of_lt_of_lt hrow hcol

/-- The lengths of the two arrays. -/
def Sized (n : ℕ) (b : Buffer K Char) : Prop := b.depth.length = n ∧ b.shown.length = n

omit [IsStrictOrderedRing K] in
theorem sized_put {n : ℕ} {b : Buffer K Char} (h : Sized n b) (p : ℕ × K) :
    Sized n (b.put look p) := by
  rw [Buffer.put]
  split
  · split_ifs
    · exact h
    · exact ⟨by rw [List.length_set, h.1], by rw [List.length_set, h.2]⟩
  · exact h

/-- A point is put into its cell, when it has one. -/
theorem plot_eq {rows cols : ℕ} {b : Buffer K Char} (hb : Sized ((rows - 1) * cols) b) (r c : ℤ)
    (zc : K) : plot rows cols b r c zc = some (if InGrid rows cols r c then
      b.put look ((r - 1).toNat * cols + c.toNat, zc) else b) := by
  by_cases hin : InGrid rows cols r c
  -- the bounds that `plot` checks are those of the grid
  · have hi := index_lt hin
    have hout : ¬ (r < 1 ∨ rows ≤ r ∨ c < 0 ∨ cols ≤ c) := by
      obtain ⟨hr1, hr, hc0, hc⟩ := hin
      omega
    obtain ⟨old, hd⟩ : ∃ old, b.depth[(r - 1).toNat * cols + c.toNat]? = some old :=
      ⟨_, List.getElem?_eq_getElem (hb.1 ▸ hi)⟩
    simp only [plot, if_neg hout, if_pos hin, Buffer.put, hd, Option.bind_eq_bind, Option.bind_some,
      shade_eq, hb.2, if_pos hi]
    split_ifs <;> rfl
  · rw [plot, if_pos (by rw [InGrid] at hin; omega), if_neg hin]

/-- The points of a cube on a screen: each is put into its cell. -/
theorem foldlM_drawPoint {rows cols : ℕ} (hr : rows ≤ 65535) (hc : cols ≤ 65535)
    {ps : List (Vec3 K)} (hps : ∀ p ∈ ps, Near p) {b : Buffer K Char}
    (hb : Sized ((rows - 1) * cols) b) : ps.foldlM (drawPoint rows cols) b =
      some ((gridPoints rows cols ps).foldl (Buffer.put look) b) := by
  induction ps generalizing b with
  | nil => rfl
  | cons p ps ih =>
    obtain ⟨r, c, hplace⟩ := exists_place hr hc (hps p List.mem_cons_self)
    have hrest := fun b' (hb' : Sized ((rows - 1) * cols) b') =>
      ih (fun p' hp' => hps p' (List.mem_cons_of_mem _ hp')) hb'
    rw [List.foldlM_cons, drawPoint, hplace]
    simp only [Option.bind_eq_bind, Option.bind_some, plot_eq hb, gridPoints, List.filterMap_cons,
      hplace]
    split_ifs with hin
    · rw [hrest _ (sized_put hb _)]
      rfl
    · rw [hrest _ hb]
      rfl

theorem index_inj {cols r c r' c' : ℕ} (hc : c < cols) (hc' : c' < cols)
    (h : r * cols + c = r' * cols + c') : r = r' ∧ c = c' := by
  have hmod : (r * cols + c) % cols = (r' * cols + c') % cols := by rw [h]
  rw [Nat.mul_add_mod_of_lt hc, Nat.mul_add_mod_of_lt hc'] at hmod
  subst hmod
  exact ⟨Nat.eq_of_mul_eq_mul_right (by omega) (Nat.add_right_cancel h), rfl⟩

omit [IsStrictOrderedRing K] in
/-- The cell of an index. -/
theorem nearest_gridPoints {rows cols : ℕ} (q : Quat K) {r c : ℕ} (hr : r < rows - 1)
    (hc : c < cols) : nearest (gridPoints rows cols (points q)) (r * cols + c) =
      (depthsAt rows cols q r c).min? := by
  have hcell : ∀ (r' c' : ℤ) (zc : K),
      ((if InGrid rows cols r' c' then some ((r' - 1).toNat * cols + c'.toNat, zc) else none).filter
        fun x => decide (x.1 = r * cols + c)).map Prod.snd =
      if r' = r + 1 ∧ c' = c then some zc else none := by
    intro r' c' zc
    by_cases hcell : r' = r + 1 ∧ c' = c
    · obtain ⟨rfl, rfl⟩ := hcell
      rw [if_pos (by constructor <;> omega)]
      simp
    · rw [if_neg hcell]
      split_ifs with hin
      · -- another cell of the grid has another index
        obtain ⟨hr1, hr', hc0, hc'⟩ := hin
        have hne : (r' - 1).toNat * cols + c'.toNat ≠ r * cols + c := fun heq => by
          have hboth := index_inj (by omega) hc heq
          omega
        rw [Option.filter_some, if_neg (by simpa using hne)]
        rfl
      · rfl
  rw [nearest, gridPoints, depthsAt, List.filter_filterMap, List.map_filterMap]
  congr 2
  funext p
  cases place rows cols p with
  | none => rfl
  | some x => exact hcell x.1 x.2.1 x.2.2

/-- The points of the grid are nearer than what a cleared buffer has. -/
theorem gridPoints_lt {rows cols : ℕ} (hr : rows ≤ 65535) (hc : cols ≤ 65535)
    {ps : List (Vec3 K)} (hps : ∀ p ∈ ps, Near p) :
    ∀ x ∈ gridPoints rows cols ps, x.1 < (rows - 1) * cols ∧ x.2 < far := by
  intro x hx
  obtain ⟨p, hp, hx⟩ := List.mem_filterMap.mp hx
  obtain ⟨r, c, hplace⟩ := exists_place hr hc (hps p hp)
  rw [hplace, Option.bind_some] at hx
  simp only at hx
  split_ifs at hx with hin
  · rw [Option.some_inj] at hx
    subst hx
    -- the farthest depth is eight
    refine ⟨index_lt hin, ?_⟩
    have hz := (abs_le.mp (hps p hp).2.2).2
    have hfar : (8 : K) < far := by
      rw [far, const_one, Nat.cast_ofNat]
      norm_num
    simp only [cubeD, const_one, Nat.cast_ofNat]
    linarith

/-- The grid after the points of a turned cube: each cell is that of the picture. -/
theorem exists_drawn_grid {rows cols : ℕ} (hr : rows ≤ 65535) (hc : cols ≤ 65535) {q : Quat K}
    (hq : UnitSum q) : ∃ b, (points q).foldlM (drawPoint rows cols)
        (clear ((rows - 1) * cols) far ' ') = some b ∧
      Sized ((rows - 1) * cols) b ∧ ∀ r < rows - 1, ∀ c < cols,
        b.shown[r * cols + c]? = some (pictureAt rows cols q r c) := by
  have hnear : ∀ p ∈ points q, Near p := fun p hp => near_of_mem_points hq hp
  have hshows : Shows look ((rows - 1) * cols) far ' ' (gridPoints rows cols (points q)) _ :=
    foldl_put_clear (gridPoints_lt hr hc hnear)
  refine ⟨_, foldlM_drawPoint hr hc hnear ⟨List.length_replicate, List.length_replicate⟩,
    ⟨hshows.length_depth, hshows.length_shown⟩, fun r hrow c hcol => ?_⟩
  have hi : r * cols + c < (rows - 1) * cols := by
    rw [Nat.mul_comm r cols]
    exact Nat.mul_add_lt_mul_of_lt_of_lt hrow hcol
  rw [hshows.shown _ hi, nearest_gridPoints q hrow hcol, pictureAt]

end

/-! ## The text -/

/-- The lines of a frame have the cells of a picture, but for the blanks at their ends. -/
structure LinesOf (rows cols : ℕ) (picture : ℕ → ℕ → Char) (lines : List (List Char)) : Prop where
  length : lines.length = rows - 1
  line : ∀ line ∈ lines, line.length ≤ cols ∧ '\n' ∉ line
  cell : ∀ r < rows - 1, ∀ c < cols, (lines.getD r []).getD c ' ' = picture r c

/-- The blanks at the end of a line are read as blanks when they are not there. -/
theorem getD_trimmed (line : List Char) (c : ℕ) : (trimmed line).getD c ' ' = line.getD c ' ' := by
  induction line using List.reverseRecOn with
  | nil => rfl
  | append_singleton line x ih =>
    by_cases hx : x = ' '
    · subst hx
      rw [trimmed, List.rdropWhile_concat_pos _ _ _ (by simp)]
      refine Eq.trans ih ?_
      simp only [List.getD_eq_getElem?_getD]
      -- the blank that is taken away is read as one, and so is what lies behind the line
      rcases lt_trichotomy c line.length with hlt | heq | hgt
      · rw [List.getElem?_append_left hlt]
      · subst heq
        simp
      · rw [List.getElem?_eq_none hgt.le, List.getElem?_eq_none (by simpa using hgt)]
    · rw [trimmed, List.rdropWhile_concat_neg _ _ _ (by simpa using hx)]

theorem mem_trimmed {line : List Char} {ch : Char} (h : ch ∈ trimmed line) : ch ∈ line :=
  (List.rdropWhile_prefix _ _).subset h

theorem length_trimmed_le (line : List Char) : (trimmed line).length ≤ line.length :=
  (List.rdropWhile_prefix _ _).length_le

/-- The trimmed rows of a grid. -/
theorem linesOf_gridRows {rows cols : ℕ} {picture : ℕ → ℕ → Char} {grid : List Char}
    (hnl : '\n' ∉ grid) (hcell : ∀ r < rows - 1, ∀ c < cols,
      grid[r * cols + c]? = some (picture r c)) :
    LinesOf rows cols picture ((gridRows rows cols grid).map trimmed) where
  length := by simp [gridRows]
  line line hline := by
    obtain ⟨row, hrow, rfl⟩ := List.mem_map.mp hline
    obtain ⟨r, -, rfl⟩ := List.mem_map.mp hrow
    refine ⟨(length_trimmed_le _).trans (List.length_take_le _ _), fun hmem => hnl ?_⟩
    exact List.mem_of_mem_drop (List.mem_of_mem_take (mem_trimmed hmem))
  cell r hr c hc := by
    have hrow : ((gridRows rows cols grid).map trimmed).getD r [] =
        trimmed ((grid.drop (r * cols)).take cols) := by
      simp [gridRows, List.getD_eq_getElem?_getD, hr]
    rw [hrow, getD_trimmed, List.getD_eq_getElem?_getD, List.getElem?_take_of_lt hc,
      List.getElem?_drop, hcell r hr c hc, Option.getD_some]

/-! ## The text line -/

section

theorem hundredths_le {x : ℝ} (h : |x| ≤ 180) : hundredths x ≤ 18001 := by
  have hfloor : ⌊|x| * const 100 1⌋ ≤ 18000 := by
    have hle : |x| * const 100 1 ≤ 18000 := by
      rw [const_one, Nat.cast_ofNat]
      linarith
    exact_mod_cast (Int.floor_le _).trans hle
  rw [hundredths]
  split_ifs <;> omega

theorem length_fmtPlus_le {x : ℝ} (h : |x| ≤ 180) : (fmtPlus x).length ≤ 7 := by
  have hlt : hundredths x / 100 < 10 ^ (2 + 1) := by
    have := hundredths_le h
    omega
  have hdigits := Printf.decDigits_length_le hlt
  simp only [fmtPlus, List.length_append, List.length_cons, List.length_map, List.length_nil]
  omega

/-- An angle of half a turn at most, in degrees. -/
theorem abs_degrees_le {t : ℝ} (h : |t| ≤ Real.pi) : |t * (const 180 1 / CAtan.pi)| ≤ 180 := by
  have hpi := Real.pi_pos
  have hrw : (const 180 1 / CAtan.pi : ℝ) = 180 / Real.pi := by
    rw [const_one, Nat.cast_ofNat]
    rfl
  rw [hrw, abs_mul, abs_of_pos (by positivity : 0 < 180 / Real.pi), mul_div_assoc', div_le_iff₀ hpi]
  linarith

theorem abs_atanOver_le (a b : ℝ) : |atanOver a b| ≤ Real.pi / 2 := by
  have hpi := Real.pi_pos
  have h1 : |Real.pi / 2| ≤ Real.pi / 2 := (abs_of_pos (by positivity)).le
  rw [atanOver]
  split_ifs
  · rw [abs_neg]
    exact h1
  · exact h1
  · exact abs_le.mpr ⟨(Real.neg_pi_div_two_lt_arctan _).le, (Real.arctan_lt_pi_div_two _).le⟩

/-- Every angle is within half a turn. -/
theorem abs_quatToEuler_le (q : Quat ℝ) : |(quatToEuler q).roll| ≤ Real.pi ∧
    |(quatToEuler q).pitch| ≤ Real.pi ∧ |(quatToEuler q).yaw| ≤ Real.pi := by
  have hpi := Real.pi_pos
  rw [quatToEuler]
  split_ifs with h
  · simp [hpi.le]
  · refine ⟨Complex.abs_arg_le_pi _, ?_, Complex.abs_arg_le_pi _⟩
    rw [abs_neg]
    exact (abs_atanOver_le _ _).trans (by linarith)

theorem length_headerText_le (q : Quat ℝ) : (headerText q).length ≤ 41 := by
  obtain ⟨hr, hp, hy⟩ := abs_quatToEuler_le q
  have hroll := length_fmtPlus_le (abs_degrees_le hr)
  have hpitch := length_fmtPlus_le (abs_degrees_le hp)
  have hyaw := length_fmtPlus_le (abs_degrees_le hy)
  simp only [headerText, headerOf, List.length_append, List.length_cons, List.length_nil]
  omega

end

/-! ## A frame -/

/-- The text of the lines. -/
def joined (lines : List (List Char)) : List Char := lines.flatMap (· ++ ['\n'])

theorem length_joined_le {lines : List (List Char)} {cols : ℕ} (h : ∀ line ∈ lines, line.length ≤ cols) :
    (joined lines).length ≤ lines.length * (cols + 1) := by
  induction lines with
  | nil => simp [joined]
  | cons line lines ih =>
    have hline := h line List.mem_cons_self
    have hrest := ih fun l hl => h l (List.mem_cons_of_mem _ hl)
    rw [joined, List.flatMap_cons, List.length_append, ← joined, List.length_append,
      List.length_cons, List.length_cons, List.length_nil, Nat.add_mul, Nat.one_mul]
    omega

/-- The text of a frame: the text line of an orientation, then the lines of its picture. -/
def Drawn (rows cols : ℕ) (q : Quat ℝ) (text : List Char) : Prop :=
  ∃ lines, text = home ++ headerText q ++ joined lines ∧
    LinesOf rows cols (pictureAt rows cols q) lines

section

variable {h : Host ℝ} {s : Screen ℝ} {q : Quat ℝ}

/-- The state between the frames of a run. -/
structure Fitting (s : Screen ℝ) : Prop where
  inited : s.inited = true
  rows_le : s.rows ≤ 65535
  cols_le : s.cols ≤ 65535
  grid : ∀ grid ∈ s.grid, grid.length = (s.rows - 1) * s.cols
  zbuf : ∀ zbuf ∈ s.zbuf, zbuf.length = (s.rows - 1) * s.cols

/-- The memory for the picture is there. -/
def HasMemory (s : Screen ℝ) : Prop := s.grid.isSome ∧ s.zbuf.isSome

/-- Every request for memory is granted. -/
def Grants (h : Host ℝ) : Prop := h.gridMem.isSome ∧ h.zbufMem.isSome ∧ h.outMem = true

theorem size_le (h : Host ℝ) : h.size.1 ≤ 65535 ∧ h.size.2 ≤ 65535 := by
  rw [Host.size]
  cases h.winsize with
  | none => norm_num
  | some x =>
    have hr := x.1.toNat_lt
    have hc := x.2.toNat_lt
    simp only
    split_ifs
    · constructor <;> omega
    · norm_num

/-- `get_size` takes the size of the terminal, with arrays of that size or none. -/
theorem getSize_spec (hs : Fitting s) : Fitting (getSize h s) ∧ (getSize h s).rows = h.size.1 ∧
    (getSize h s).cols = h.size.2 := by
  have hle := size_le h
  rw [getSize]
  simp only
  split_ifs with hsame
  · exact ⟨hs, hsame.1.symm, hsame.2.symm⟩
  · refine ⟨⟨hs.inited, hle.1, hle.2, ?_, ?_⟩, rfl, rfl⟩
    · simp
    · simp

theorem hasMemory_getSize (hs : HasMemory s) (hg : Grants h) : HasMemory (getSize h s) := by
  rw [getSize]
  simp only
  split_ifs
  · exact hs
  · exact ⟨by simpa using hg.1, by simpa using hg.2.1⟩

theorem fill_eq {α : Type} {xs : List α} {n : ℕ} (hx : xs.length = n) (a : α) :
    fill xs n a = some (List.replicate n a) := by
  rw [fill, if_pos hx.ge, ← hx, List.drop_length, List.append_nil]

/-- The text of a frame fits the buffer that was requested for it. -/
theorem exists_assemble {cap rows cols : ℕ} {grid : List Char} (hnl : '\n' ∉ grid)
    (hcell : ∀ r < rows - 1, ∀ c < cols, grid[r * cols + c]? = some (pictureAt rows cols q r c))
    (hcap : (rows - 1) * (cols + 2) + 128 ≤ cap) :
    ∃ text, assemble cap rows cols (headerText q) grid = some text ∧ Drawn rows cols q text := by
  have hlines := linesOf_gridRows hnl hcell
  have hhead := length_headerText_le q
  have hbody := length_joined_le fun line hline => (hlines.line line hline).1
  rw [hlines.length] at hbody
  have heq : (gridRows rows cols grid).flatMap (fun line => trimmed line ++ ['\n']) =
      joined ((gridRows rows cols grid).map trimmed) := by
    rw [joined, List.flatMap_map]
  refine ⟨_, if_pos ?_, (gridRows rows cols grid).map trimmed, ?_, hlines⟩
  -- three bytes, the text line and a break for each row; what is left of the 128 is not needed
  · rw [heq]
    simp only [home, List.length_append, List.length_cons, List.length_nil]
    have hrows : (rows - 1) * (cols + 1) ≤ (rows - 1) * (cols + 2) := Nat.mul_le_mul_left _ (by omega)
    omega
  · rw [heq]

theorem pictureAt_ne_newline (rows cols : ℕ) (q : Quat ℝ) (r c : ℕ) :
    pictureAt rows cols q r c ≠ '\n' := by
  rw [pictureAt]
  cases (depthsAt rows cols q r c).min? with
  | none => simp
  | some zc =>
    intro heq
    have hmem := look_mem zc
    rw [Option.elim_some] at heq
    rw [heq] at hmem
    exact absurd hmem (by decide)

/-- A grid of the cells of a picture has no line breaks. -/
theorem newline_notMem {rows cols : ℕ} {grid : List Char} (hlen : grid.length = (rows - 1) * cols)
    (hcell : ∀ r < rows - 1, ∀ c < cols, grid[r * cols + c]? = some (pictureAt rows cols q r c)) :
    '\n' ∉ grid := by
  intro hmem
  obtain ⟨i, hi, hget⟩ := List.mem_iff_getElem.mp hmem
  rw [hlen] at hi
  have hcols : 0 < cols := Nat.pos_of_ne_zero fun h0 => by simp [h0] at hi
  have hrow : i / cols < rows - 1 := Nat.div_lt_of_lt_mul (by rwa [Nat.mul_comm])
  -- every index is that of a cell
  have hat := hcell _ hrow _ (Nat.mod_lt i hcols)
  rw [Nat.div_add_mod', List.getElem?_eq_getElem (hlen ▸ hi), hget, Option.some_inj] at hat
  exact pictureAt_ne_newline rows cols q _ _ hat.symm

theorem le_of_request {need cap : ℕ} (h' : request h s need = some cap) : need ≤ cap := by
  rw [request] at h'
  cases hout : s.out with
  | none =>
    simp only [hout] at h'
    split_ifs at h'
    exact (Option.some_inj.mp h').le
  | some old =>
    simp only [hout] at h'
    split_ifs at h' with hlt
    · exact (Option.some_inj.mp h').le
    · exact (not_lt.mp hlt).trans (Option.some_inj.mp h').le

theorem request_isSome (hg : Grants h) (need : ℕ) : (request h s need).isSome := by
  rw [request]
  cases s.out with
  | none => simp [hg.2.2]
  | some cap => simp only [hg.2.2, if_true]; split_ifs <;> rfl

/-- A frame from any state: it has a result, and is drawn or nothing; with the memory it asks for it
is drawn. -/
theorem cubeRender_of_fitting (hs : Fitting s) (hq : UnitSum q) : ∃ s' text,
    cubeRender h s q = some (s', text) ∧ Fitting s' ∧
      (text = [] ∨ Drawn h.size.1 h.size.2 q text) ∧
      (HasMemory s → Grants h → HasMemory s' ∧ Drawn h.size.1 h.size.2 q text) := by
  obtain ⟨hfit, hrows, hcols⟩ := getSize_spec (h := h) hs
  have hmem := fun h1 h2 => hasMemory_getSize (h := h) (s := s) h1 h2
  rw [← hrows, ← hcols, cubeRender]
  simp only [hs.inited, if_true, List.nil_append]
  generalize getSize h s = s0 at *
  cases hgrid : s0.grid with
  | none =>
    refine ⟨s0, [], rfl, hfit, .inl rfl, fun h1 h2 => ?_⟩
    exact absurd (hmem h1 h2).1 (by simp [hgrid])
  | some grid =>
    cases hzbuf : s0.zbuf with
    | none =>
      refine ⟨s0, [], rfl, hfit, .inl rfl, fun h1 h2 => ?_⟩
      exact absurd (hmem h1 h2).2 (by simp [hzbuf])
    | some zbuf =>
      -- both arrays are there: the points are drawn, and the text needs memory of its own
      obtain ⟨b, hdraw, hsized, hcell⟩ := exists_drawn_grid hfit.rows_le hfit.cols_le hq
      rw [clear] at hdraw
      simp only [fill_eq (hfit.grid grid hgrid), fill_eq (hfit.zbuf zbuf hzbuf), Option.bind_eq_bind,
        Option.bind_some, hdraw]
      set s1 : Screen ℝ := { s0 with grid := some b.shown, zbuf := some b.depth } with hs1
      have hfit1 : Fitting s1 := ⟨hfit.inited, hfit.rows_le, hfit.cols_le,
        fun grid' hmem' => by rw [← Option.some_inj.mp hmem', hsized.2],
        fun zbuf' hmem' => by rw [← Option.some_inj.mp hmem', hsized.1]⟩
      cases hreq : request h s1 ((s0.rows - 1) * (s0.cols + 2) + 128) with
      | none =>
        refine ⟨s1, [], rfl, hfit1, .inl rfl, fun _ h2 => ?_⟩
        have hsome := request_isSome (s := s1) h2 ((s0.rows - 1) * (s0.cols + 2) + 128)
        rw [hreq] at hsome
        exact absurd hsome (by simp)
      | some cap =>
        obtain ⟨text, htext, hdrawn⟩ := exists_assemble (newline_notMem hsized.2 hcell) hcell
          (le_of_request hreq)
        refine ⟨{ s1 with out := some cap }, text, ?_, ?_, .inr hdrawn, fun _ _ => ⟨⟨rfl, rfl⟩, hdrawn⟩⟩
        · simp only [htext, Option.bind_some, Option.pure_def, hs1]
        · exact ⟨hfit1.inited, hfit1.rows_le, hfit1.cols_le, hfit1.grid, hfit1.zbuf⟩

/-! ## A run -/

theorem fitting_cubeInit (h : Host ℝ) : Fitting (cubeInit h cubeStart) := by
  have hle := size_le h
  rw [cubeInit, getSize]
  simp only
  split_ifs
  · exact ⟨rfl, by norm_num [cubeStart], by norm_num [cubeStart], by simp [cubeStart],
      by simp [cubeStart]⟩
  · exact ⟨rfl, hle.1, hle.2, by simp, by simp⟩

theorem eight_le_size (h : Host ℝ) : 8 ≤ h.size.1 := by
  rw [Host.size]
  cases h.winsize with
  | none => norm_num
  | some x =>
    simp only
    split_ifs with hsize
    · exact hsize.1
    · norm_num

theorem hasMemory_cubeInit (hg : Grants h) : HasMemory (cubeInit h cubeStart) := by
  -- the first size is never the one of the start, so the arrays are requested
  have hne : ¬ (h.size.1 = (cubeStart : Screen ℝ).rows ∧ h.size.2 = (cubeStart : Screen ℝ).cols) := by
    have := eight_le_size h
    rintro ⟨h0, -⟩
    rw [h0] at this
    exact absurd this (by norm_num [cubeStart])
  rw [cubeInit, getSize]
  simp only
  rw [if_neg hne]
  exact ⟨by simpa using hg.1, by simpa using hg.2.1⟩

/-- What a frame of a run writes. -/
def FrameOf (frame : Host ℝ × Quat ℝ) (text : List Char) : Prop :=
  Drawn frame.1.size.1 frame.1.size.2 frame.2 text

theorem cubeRun_of_fitting {frames : List (Host ℝ × Quat ℝ)} (hs : Fitting s)
    (hq : ∀ frame ∈ frames, UnitSum frame.2) : ∃ texts, cubeRun s frames = some texts ∧
      List.Forall₂ (fun frame text => text = [] ∨ FrameOf frame text) frames texts ∧
      (HasMemory s → (∀ frame ∈ frames, Grants frame.1) → List.Forall₂ FrameOf frames texts) := by
  induction frames generalizing s with
  | nil => exact ⟨[], rfl, .nil, fun _ _ => .nil⟩
  | cons frame frames ih =>
    obtain ⟨s', text, hrender, hs', hdrawn, hgranted⟩ :=
      cubeRender_of_fitting (h := frame.1) hs (hq frame List.mem_cons_self)
    obtain ⟨texts, hrun, hall, hmem⟩ := ih hs' fun f hf => hq f (List.mem_cons_of_mem _ hf)
    refine ⟨text :: texts, ?_, .cons hdrawn hall, fun h1 h2 => ?_⟩
    · simp only [cubeRun, hrender, hrun, Option.bind_eq_bind, Option.bind_some, Option.pure_def]
    · obtain ⟨hm', hd'⟩ := hgranted h1 (h2 frame List.mem_cons_self)
      exact .cons hd' (hmem hm' fun f hf => h2 f (List.mem_cons_of_mem _ hf))

/-- A host with memory, and a terminal that says nothing of its size. -/
def plainHost : Host ℝ := ⟨none, some fun _ => 'x', some fun _ => 0, true⟩

end

end Cube
