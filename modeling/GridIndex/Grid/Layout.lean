import GridIndex.Geometry.Rect
import GridIndex.Grid.Axis
import GridIndex.Grid.Error

/-!
# The layout of a grid

A layout splits a region into `columns × rows` cells of one width and one height. It is built by
`Layout.new`, which checks its inputs in a fixed order: the cell width, the cell height, the
region's width, the region's height. A cell size larger than the region shrinks to the region's
extent, so that each axis has at least one cell, and the counts are the extents divided by the
cell sizes, rounded up. Counts beyond the 32-bit signed range are refused.

Cell `(col, row)` is the box between column edges `col` and `col + 1` and row edges `row` and
`row + 1`, so neighbouring boxes share their sides exactly. Coordinates outside the grid name
the boxes that would lie there.
-/

namespace GridIndex

/-- A cell of a grid, by column from the left and row from the bottom. -/
structure Cell where
  col : Nat
  row : Nat
deriving DecidableEq, Repr, Inhabited

/-- A region split into equal cells. -/
structure Layout where
  region : Rect
  cellWidth : Float
  cellHeight : Float
  columns : Nat
  rows : Nat
  columns_pos : 0 < columns
  rows_pos : 0 < rows
  columns_le : columns ≤ 2147483647
  rows_le : rows ≤ 2147483647

namespace Layout

/-- Whether `x` is a positive float; NaN is not. -/
def positive (x : Float) : Bool := !(x.isNaN || x ≤ 0.0)

/-- Whether `x` is a finite positive float. -/
def finitePositive (x : Float) : Bool := x.isFinite && !(x ≤ 0.0)

/-- The layout of cells of width `cw` and height `ch` over `region`, or why there is none. -/
def new (region : Rect) (cw ch : Float) : Except GridError Layout :=
  if !positive cw then .error (.cellWidth cw)
  else if !positive ch then .error (.cellHeight ch)
  else if !finitePositive region.width then .error (.regionWidth region.width)
  else if !finitePositive region.height then .error (.regionHeight region.height)
  else
    let cw := min cw region.width
    let ch := min ch region.height
    let columns := Axis.length region.width cw
    let rows := Axis.length region.height ch
    if h : columns ≤ 2147483647 ∧ rows ≤ 2147483647 then
      .ok ⟨region, cw, ch, columns, rows, Axis.one_le_length _ _, Axis.one_le_length _ _,
        h.1, h.2⟩
    else .error (.tooManyCells columns rows)

def xAxis (l : Layout) : Axis := ⟨l.region.x0, l.cellWidth, l.columns⟩

def yAxis (l : Layout) : Axis := ⟨l.region.y0, l.cellHeight, l.rows⟩

def cellCount (l : Layout) : Nat := l.columns * l.rows

/-- The position of a cell in row-major order. -/
def index (l : Layout) (c : Cell) : Nat := c.col + c.row * l.columns

/-- The cell at a position in row-major order. -/
def cellAt (l : Layout) (i : Nat) : Cell := ⟨i % l.columns, i / l.columns⟩

/-- Whether a cell lies in the grid. -/
def Within (l : Layout) (c : Cell) : Prop := c.col < l.columns ∧ c.row < l.rows

instance (l : Layout) (c : Cell) : Decidable (l.Within c) :=
  inferInstanceAs (Decidable (_ ∧ _))

theorem index_lt {l : Layout} {c : Cell} (h : l.Within c) : l.index c < l.cellCount := by
  have hc := h.1
  have hr : c.row + 1 ≤ l.rows := h.2
  have : (c.row + 1) * l.columns ≤ l.rows * l.columns := Nat.mul_le_mul_right _ hr
  simp only [index, cellCount, Nat.succ_mul] at *
  rw [Nat.mul_comm l.columns l.rows]
  omega

/-- The cell coordinates of a point by division, not bounded by the grid. -/
def coords (l : Layout) (p : Point) : Int × Int := (l.xAxis.coord p.x, l.yAxis.coord p.y)

/-- The cell nearest to the coordinates. -/
def clampCoords (l : Layout) (c : Int × Int) : Cell := ⟨l.xAxis.clamp c.1, l.yAxis.clamp c.2⟩

/-- The box of the cell at column `col` and row `row`. -/
def cellBox (l : Layout) (col row : Int) : Rect :=
  ⟨l.xAxis.edge col, l.yAxis.edge row, l.xAxis.edge (col + 1), l.yAxis.edge (row + 1)⟩

/-- The centre of the cell at column `col` and row `row`. -/
def center (l : Layout) (col row : Int) : Point := ⟨l.xAxis.middle col, l.yAxis.middle row⟩

/-- The cell whose box holds `p`, preferring on a shared side the cell that `heading` points
into. -/
def locate (l : Layout) (p : Point) (heading : Vec) : Cell :=
  ⟨l.xAxis.locate p.x heading.x, l.yAxis.locate p.y heading.y⟩

theorem locate_within (l : Layout) (p : Point) (h : Vec) : l.Within (l.locate p h) := by
  have hx := l.xAxis.locate_le_last p.x h.x
  have hy := l.yAxis.locate_le_last p.y h.y
  have := l.columns_pos
  have := l.rows_pos
  simp only [Axis.last, xAxis, yAxis] at hx hy
  refine ⟨?_, ?_⟩
  · simp only [locate, xAxis]; omega
  · simp only [locate, yAxis]; omega

end Layout

end GridIndex
