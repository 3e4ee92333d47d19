import GridIndex.Grid.Event

/-!
# Grids of keyed segments

A grid holds, for each cell of a layout, the keys of the segments stored in it, in the order
they were stored. Storing a segment appends its key once to each cell that `Layout.place`
chooses, so a key may sit in many cells and, stored twice, twice in one cell.

The buckets are kept in row-major order, the bucket of `(col, row)` at `col + row · columns`,
and there is always one per cell.

## Main definitions

* `Grid.new`: an empty grid, or why the layout cannot be built.
* `Grid.insert`: stores a key along a segment, with the placement it used.
* `Grid.bucket`, `Grid.itemsInCell`: the keys of a cell.
* `Grid.cells`, `Grid.occupied`: all cells, and those holding keys, in row-major order.
-/

namespace GridIndex

/-- Keys stored in the cells of a layout. -/
structure Grid (κ : Type) where
  layout : Layout
  /-- The keys of each cell, in row-major order of the cells. -/
  buckets : Array (Array κ)
  size_buckets : buckets.size = layout.cellCount

namespace Grid

variable {κ : Type}

def empty (l : Layout) : Grid κ := ⟨l, Array.replicate l.cellCount #[], Array.size_replicate⟩

/-- An empty grid with cells of width `cw` and height `ch` over `region`, or why there is
none. -/
def new (region : Rect) (cw ch : Float) : Except GridError (Grid κ) :=
  (Layout.new region cw ch).map empty

/-- The keys of a cell, oldest first; none for a cell outside the grid. -/
def bucket (g : Grid κ) (c : Cell) : Array κ := g.buckets[g.layout.index c]?.getD #[]

/-- Appends `k` to the bucket of cell `c`. -/
def push (g : Grid κ) (k : κ) (c : Cell) : Grid κ :=
  ⟨g.layout, g.buckets.modify (g.layout.index c) (·.push k), by
    rw [Array.size_modify]; exact g.size_buckets⟩

@[simp] theorem layout_push (g : Grid κ) (k : κ) (c : Cell) : (g.push k c).layout = g.layout :=
  rfl

theorem bucket_push_self (g : Grid κ) (k : κ) {c : Cell} (hc : g.layout.Within c) :
    (g.push k c).bucket c = (g.bucket c).push k := by
  have hi : g.layout.index c < g.buckets.size := g.size_buckets ▸ Layout.index_lt hc
  simp only [bucket, push]
  rw [Array.getElem?_modify]
  simp [hi]

theorem bucket_push_of_ne (g : Grid κ) (k : κ) {c d : Cell}
    (h : g.layout.index c ≠ g.layout.index d) : (g.push k c).bucket d = g.bucket d := by
  simp only [bucket, push]
  rw [Array.getElem?_modify]
  simp [h]
/-- Appends `k` to the bucket of each cell of `cs`, in order. -/
def pushAll (g : Grid κ) (k : κ) (cs : List Cell) : Grid κ := cs.foldl (fun g c => g.push k c) g

/-- Stores `k` along segment `s`, with the placement used. -/
def insertPlaced (g : Grid κ) (k : κ) (s : Segment) : Grid κ × Placement :=
  let p := g.layout.place s
  (g.pushAll k p.cells, p)

def insert (g : Grid κ) (k : κ) (s : Segment) : Grid κ := (g.insertPlaced k s).1

/-- Stores each key along its segment, in order, with the events reported. -/
def insertAll (g : Grid κ) (segments : List (κ × Segment)) : Grid κ × List Event :=
  segments.foldl (fun (g, evs) (k, s) =>
    let (g, p) := g.insertPlaced k s
    (g, evs ++ p.events s)) (g, [])

/-- A grid over `region` holding the given keyed segments, with the events reported while
building and filling it, or why there is none. -/
def withSegments (region : Rect) (cw ch : Float) (segments : List (κ × Segment)) :
    Except GridError (Grid κ × List Event) :=
  (Layout.new region cw ch).map fun l =>
    let (g, evs) := (empty l).insertAll segments
    (g, Event.ofLayout l :: evs)

/-- The keys of the cell at column `col` and row `row`, or none outside the grid. -/
def itemsInCell (g : Grid κ) (col row : Nat) : Option (Array κ) :=
  if col < g.layout.columns ∧ row < g.layout.rows then some (g.bucket ⟨col, row⟩) else none

/-- Every cell, in row-major order, each with its keys. -/
def cells (g : Grid κ) : List (Cell × Array κ) :=
  (List.range g.layout.cellCount).map fun i => (g.layout.cellAt i, g.buckets[i]?.getD #[])

/-- The cells that hold keys, in row-major order, each with its keys. -/
def occupied (g : Grid κ) : List (Cell × Array κ) :=
  (List.range g.layout.cellCount).filterMap fun i =>
    let b := g.buckets[i]?.getD #[]
    if b.isEmpty then none else some (g.layout.cellAt i, b)

/-- The number of keys stored, counted once per cell. -/
def entries (g : Grid κ) : Nat := g.buckets.foldl (fun n b => n + b.size) 0

/-- The number of cells that hold keys. -/
def occupiedCount (g : Grid κ) : Nat := g.buckets.foldl (fun n b => if b.isEmpty then n else n + 1) 0

/-- The grid as it is shown when inspected: its layout and how many keys and occupied cells it
has. -/
def inspect (g : Grid κ) : String :=
  let f := Decimal.Notation.inspect.render
  "SegmentGrid \x7b region: " ++ g.layout.region.inspect ++ ", cell_width: " ++
    f g.layout.cellWidth ++ ", cell_height: " ++ f g.layout.cellHeight ++ ", columns: " ++
    toString g.layout.columns ++ ", rows: " ++ toString g.layout.rows ++ ", entries: " ++
    toString g.entries ++ ", occupied_cells: " ++ toString g.occupiedCount ++ ", .. \x7d"

end Grid

/-- The cells that a placement adds a key to, in row-major order. -/
def Placement.grown (p : Placement) (l : Layout) : List Cell :=
  p.cells.mergeSort fun a b => l.index a ≤ l.index b

end GridIndex
