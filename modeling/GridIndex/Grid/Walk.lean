import GridIndex.Geometry.Clip
import GridIndex.Grid.Layout

/-!
# The cells a segment passes through

`Layout.place` decides which cells receive a segment's key. Only the part of the segment inside
the region counts (`Rect.clip?`). With no such part the segment is placed nowhere; a part that
is a single point goes to the cell that holds it.

Otherwise a walk starts in the cell holding the part's first point, on a grid line the cell the
part heads into, and repeatedly leaves the current cell through one of its sides that the rest
of the part crosses. Of the neighbours beyond those sides it enters the one whose centre is
strictly nearest to the part's last point, and nearer than the current cell's centre; on a tie
the side tested first wins, in the order bottom, right, top, left. It stops when no neighbour
is nearer or the last point is reached. Sides are padded by a small fraction of the cell size,
so a part that leaves through a corner still crosses one of them after rounding, and the
crossing point is pulled back into the cell entered.

The distance to the last point falls strictly at each step, so no cell is entered twice and the
walk takes at most one step per cell of the grid; that number is its fuel.
-/

namespace GridIndex

/-- Where a segment's key is stored. -/
inductive Placement where
  /-- The segment has no part inside the region. -/
  | outside
  /-- The part inside the region is a single point, in this cell. -/
  | single (cell : Cell)
  /-- The cells a walk along the part inside the region passes through, in walk order. -/
  | walked (cells : List Cell)

namespace Placement

/-- The cells that receive the key, in the order they are reached. -/
def cells : Placement → List Cell
  | .outside => []
  | .single c => [c]
  | .walked cs => cs

end Placement

/-- A neighbour that a walk may enter: its cell, the squared distance from its centre to the
walk's target, and the crossing point through which it is entered. -/
structure Exit where
  dist : Float
  point : Point
  col : Int
  row : Int

namespace Layout

/-- The fraction of a cell's size by which its sides are pushed out when looking for the side a
segment leaves through. -/
def edgeSlack : Float := 1e-9

/-- The pad of the sides of a cell. -/
def slack (l : Layout) : Vec := ⟨l.cellWidth * edgeSlack, l.cellHeight * edgeSlack⟩

/-- The exit chosen from the crossing `x` of cell `c`, against the best one so far, or against
staying when there is none so far. -/
def considerExit (l : Layout) (target : Point) (here : Float) (c : Cell) (best : Option Exit)
    (x : Crossing) : Option Exit :=
  let col := (c.col : Int) + x.dx
  let row := (c.row : Int) + x.dy
  if l.xAxis.contains col && l.yAxis.contains row then
    let d := (target - l.center col row).normSq
    if d < ((best.map (·.dist)).getD here) then some ⟨d, x.point, col, row⟩ else best
  else best

/-- The step of a walk towards `target` from `current` in cell `c`: the point where it enters
the next cell, pulled into that cell's box, and the cell; none when no neighbour is nearer. -/
def exit? (l : Layout) (target current : Point) (c : Cell) : Option (Point × Cell) :=
  let here := (target - l.center c.col c.row).normSq
  let crossings := (l.cellBox c.col c.row).crossingsPadded ⟨current, target⟩ l.slack
  (crossings.foldl (l.considerExit target here c) none).map fun e =>
    ((l.cellBox e.col e.row).clampPoint e.point, ⟨e.col.toNat, e.row.toNat⟩)

/-- The cells of a walk along the segment from `start` to `target`, from `current` in cell `c`,
taking at most `fuel` cells. -/
def walk (l : Layout) (start target : Point) : Nat → Point → Cell → List Cell
  | 0, _, _ => []
  | fuel + 1, current, c =>
    if Segment.param ⟨start, target⟩ current < 1.0 then
      c :: match l.exit? target current c with
        | none => []
        | some (p, c') => l.walk start target fuel p c'
    else []

/-- Where the key of segment `s` is stored. -/
def place (l : Layout) (s : Segment) : Placement :=
  match l.region.clip? s with
  | none => .outside
  | some ⟨start, target⟩ =>
    let c := l.locate start (target - start)
    if start == target then .single c
    else .walked (l.walk start target l.cellCount start c)

end Layout

end GridIndex
