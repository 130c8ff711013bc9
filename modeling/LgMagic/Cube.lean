import LgMagic.Lib.DepthBuffer
import LgMagic.Lib.Printf
import LgMagic.Madgwick.Angles

/-!
# The cube of the terminal

`cube.c`, which shows an orientation as a wireframe cube, over a field with the functions of
`math.h`. The answers of the terminal and of the allocator come with each frame. An access outside a
buffer, a conversion to `int` out of range and a division by zero have no result.

* `points`: the points of the edges, turned;
* `place`, `shade`, `plot`: a point on the screen;
* `headerText`, `assemble`: the text of a frame;
* `cubeInit`, `cubeRender`, `cubeRun`: the state over the frames.
-/

namespace Cube

open Orientation Pointer DepthBuffer

/-! ## The points -/

section

variable {K : Type} [Field K]

/-- `VERTICES` -/
def vertices : Fin 8 → Vec3 K :=
  ![⟨-1, -1, -1⟩, ⟨1, -1, -1⟩, ⟨1, -1, 1⟩, ⟨-1, -1, 1⟩, ⟨-1, 1, -1⟩, ⟨1, 1, -1⟩, ⟨1, 1, 1⟩,
    ⟨-1, 1, 1⟩]

/-- `EDGES` -/
def edges : List (Fin 8 × Fin 8) :=
  [(0, 1), (1, 2), (2, 3), (3, 0), (4, 5), (5, 6), (6, 7), (7, 4), (0, 4), (1, 5), (2, 6), (3, 7)]

/-- `CUBE_STEPS` -/
def cubeSteps : ℕ := 60

/-- A constant, as a fraction. -/
def const (a b : ℕ) : K := (a : K) / (b : K)

/-- `CUBE_F` -/
def cubeF : K := const 22 10

/-- `CUBE_D` -/
def cubeD : K := const 5 1

/-- `CUBE_HALF` -/
def cubeHalf : K := const 18 10

/-- The value of `1e30`. -/
def far : K := const 10 1 ^ 30

/-- The point of an edge at a step. -/
def edgePoint (a b : Vec3 K) (s : ℕ) : Vec3 K :=
  let t := (s : K) / (cubeSteps : K)
  ⟨a.x + (b.x - a.x) * t, a.y + (b.y - a.y) * t, a.z + (b.z - a.z) * t⟩

/-- A vertex, turned. -/
def turnedVertex (q : Quat K) (i : Fin 8) : Vec3 K := mulVec3 (quatToMat3 q) (vertices i)

/-- The points of all edges, in the order of the loops. -/
def points (q : Quat K) : List (Vec3 K) :=
  edges.flatMap fun e =>
    (List.range (cubeSteps + 1)).map (edgePoint (turnedVertex q e.1) (turnedVertex q e.2))

end

/-! ## The screen -/

section

variable {K : Type} [Field K] [LinearOrder K] [FloorRing K]

/-- The conversion to `int`, towards zero. -/
def toInt? (x : K) : Option ℤ :=
  let n := if 0 ≤ x then ⌊x⌋ else ⌈x⌉
  if -2 ^ 31 ≤ n ∧ n < 2 ^ 31 then some n else none

/-- The row, the column and the depth of a point on a screen. -/
def place (rows cols : ℕ) (p : Vec3 K) : Option (ℤ × ℤ × K) := do
  let zc := p.z + cubeD
  let sc := const 2 10 * (cols : K)
  let px ← checkedDiv (p.x * cubeF) zc
  let py ← checkedDiv (p.y * cubeF) zc
  let x := const cols 2 + px * sc
  let y := const rows 2 - py * sc * const 1 2
  return (← toInt? (y + const 1 2), ← toInt? (x + const 1 2), zc)

/-- `CUBE_LUM` -/
def cubeLum : List Char := ['.', ',', '-', '~', ':', ';', '=', '!', '*', '#', '$', '@']

/-- A number between zero and one. -/
def clamp01 (t : K) : K := if (if t < 0 then 0 else t) > 1 then 1 else if t < 0 then 0 else t

/-- The character of a depth: what is near is bright. -/
def shade (zc : K) : Option Char := do
  let t := clamp01 ((zc - (cubeD - cubeHalf)) / (const 2 1 * cubeHalf))
  let idx ← toInt? (t * const (12 - 1) 1 + const 1 2)
  if 0 ≤ 12 - 1 - idx then cubeLum[(12 - 1 - idx).toNat]? else none

/-- `plot` -/
def plot (rows cols : ℕ) (b : Buffer K Char) (r c : ℤ) (zc : K) : Option (Buffer K Char) :=
  if r < 1 ∨ rows ≤ r ∨ c < 0 ∨ cols ≤ c then some b
  else do
    -- row 0 is the text line
    let i := (r - 1).toNat * cols + c.toNat
    let z ← b.depth[i]?
    if z ≤ zc then return b
    else
      let ch ← shade zc
      if i < b.shown.length then return ⟨b.depth.set i zc, b.shown.set i ch⟩ else none

/-- A point of an edge. -/
def drawPoint (rows cols : ℕ) (b : Buffer K Char) (p : Vec3 K) : Option (Buffer K Char) := do
  let (r, c, zc) ← place rows cols p
  plot rows cols b r c zc

/-! ## The text -/

/-- A magnitude in hundredths, a tie to the even one. -/
def hundredths (x : K) : ℕ :=
  let n := ⌊|x| * const 100 1⌋
  let f := |x| * const 100 1 - n
  (if f < const 1 2 ∨ (f = const 1 2 ∧ n % 2 = 0) then n else n + 1).toNat

/-- `%+.2f` -/
def fmtPlus (x : K) : List Char :=
  let n := hundredths x
  (if x < 0 then '-' else '+') :: (Printf.decDigits (n / 100)).map Nat.digitChar ++
    ['.', Nat.digitChar (n / 10 % 10), Nat.digitChar (n % 10)]

/-- The text line, of angles in degrees. -/
def headerOf (roll pitch yaw : K) : List Char :=
  ['R', 'o', 'l', 'l', '='] ++ fmtPlus roll ++ [' ', ' ', 'P', 'i', 't', 'c', 'h', '='] ++
    fmtPlus pitch ++ [' ', ' ', 'Y', 'a', 'w', '='] ++ fmtPlus yaw ++ ['\n']

/-- The text line of an orientation. -/
def headerText [CMath K] [CAtan K] (q : Quat K) : List Char :=
  let e := quatToEuler q
  let degrees := const 180 1 / CAtan.pi
  headerOf (e.roll * degrees) (e.pitch * degrees) (e.yaw * degrees)

end

/-- The escape sequence for the upper left corner. -/
def home : List Char := ['\x1b', '[', 'H']

/-- The escape sequence that hides the cursor. -/
def hideCursor : List Char := ['\x1b', '[', '?', '2', '5', 'l']

/-- The rows of a grid. -/
def gridRows (rows cols : ℕ) (grid : List Char) : List (List Char) :=
  (List.range (rows - 1)).map fun r => (grid.drop (r * cols)).take cols

/-- A row without the blanks at its end. -/
def trimmed (line : List Char) : List Char := line.rdropWhile (· == ' ')

/-- The frame in a buffer of a capacity. -/
def assemble (cap rows cols : ℕ) (header grid : List Char) : Option (List Char) :=
  let body := (gridRows rows cols grid).flatMap fun line => trimmed line ++ ['\n']
  let text := home ++ header ++ body
  if home.length + header.length + 1 ≤ cap ∧ text.length ≤ cap then some text else none

/-! ## The state -/

/-- `C` -/
structure Screen (K : Type) where
  rows : ℕ
  cols : ℕ
  grid : Option (List Char)
  zbuf : Option (List K)
  /-- `out_cap`, when `out` is there -/
  out : Option ℕ
  inited : Bool

/-- What the terminal and the allocator answer during a frame. -/
structure Host (K : Type) where
  /-- `ws_row` and `ws_col`, when `TIOCGWINSZ` succeeds -/
  winsize : Option (UInt16 × UInt16)
  /-- What is in new memory, when there is some. -/
  gridMem : Option (ℕ → Char)
  zbufMem : Option (ℕ → K)
  outMem : Bool

section

variable {K : Type}

/-- The size that `get_size` takes. -/
def Host.size (h : Host K) : ℕ × ℕ :=
  match h.winsize with
  | some (r, c) => if 8 ≤ r.toNat ∧ 20 ≤ c.toNat then (r.toNat, c.toNat) else (24, 80)
  | none => (24, 80)

/-- `get_size` -/
def getSize (h : Host K) (s : Screen K) : Screen K :=
  let (rows, cols) := h.size
  if rows = s.rows ∧ cols = s.cols then s
  else { s with
    rows := rows
    cols := cols
    grid := h.gridMem.map fun mem => (List.range ((rows - 1) * cols)).map mem
    zbuf := h.zbufMem.map fun mem => (List.range ((rows - 1) * cols)).map mem }

/-- The state before `cube_init`. -/
def cubeStart : Screen K := ⟨0, 0, none, none, none, false⟩

/-- `cube_init` -/
def cubeInit (h : Host K) (s : Screen K) : Screen K := { getSize h s with inited := true }

/-- The first cells of an array, set to a value. -/
def fill {α : Type} (xs : List α) (n : ℕ) (a : α) : Option (List α) :=
  if n ≤ xs.length then some (List.replicate n a ++ xs.drop n) else none

/-- The capacity of `out` after the request of a frame, when it is granted. -/
def request (h : Host K) (s : Screen K) (need : ℕ) : Option ℕ :=
  match s.out with
  | some cap => if cap < need then (if h.outMem then some need else none) else some cap
  | none => if h.outMem then some need else none

variable [Field K] [LinearOrder K] [FloorRing K] [CMath K] [CAtan K]

/-- `cube_render`: the state after it, and what is written. -/
def cubeRender (h : Host K) (s : Screen K) (q : Quat K) : Option (Screen K × List Char) :=
  let start := if s.inited then [] else hideCursor
  let s := if s.inited then s else cubeInit h s
  let s := getSize h s
  match s.grid, s.zbuf with
  | some grid, some zbuf => do
    let n := (s.rows - 1) * s.cols
    let grid ← fill grid n ' '
    let zbuf ← fill zbuf n far
    let b ← (points q).foldlM (drawPoint s.rows s.cols) ⟨zbuf, grid⟩
    let s := { s with grid := some b.shown, zbuf := some b.depth }
    match request h s ((s.rows - 1) * (s.cols + 2) + 128) with
    | some cap =>
      let text ← assemble cap s.rows s.cols (headerText q) b.shown
      return ({ s with out := some cap }, start ++ text)
    | none => return (s, start)
  | _, _ => some (s, start)

/-- The frames of a run. -/
def cubeRun (s : Screen K) : List (Host K × Quat K) → Option (List (List Char))
  | [] => some []
  | (h, q) :: frames => do
    let (s', text) ← cubeRender h s q
    let texts ← cubeRun s' frames
    return text :: texts

end

end Cube
