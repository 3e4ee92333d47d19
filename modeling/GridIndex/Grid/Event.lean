import GridIndex.Geometry.Segment
import GridIndex.Grid.Walk

/-!
# What a grid reports

Building a grid and storing segments in it report events: a record of the grid built, at the
debug level, and for each stored segment, at the trace level, either that it lies outside the
region or how many cells a walk along it visited. A segment whose part inside the region is a
single point reports nothing.

An event has a level, a message and named fields, each a count, a float or a text.
-/

namespace GridIndex

/-- How detailed an event is. -/
inductive Level where
  /-- Facts about the grid as a whole. -/
  | debug
  /-- Facts about a single segment. -/
  | trace
deriving DecidableEq, Repr

def Level.name : Level → String
  | .debug => "DEBUG"
  | .trace => "TRACE"

/-- The value of a field of an event. -/
inductive FieldValue where
  | count (n : Nat)
  | real (x : Float)
  | text (s : String)

/-- Something a grid reports. -/
inductive Event where
  /-- A grid of `columns × rows` cells of the given size was built. -/
  | created (columns rows : Nat) (cellWidth cellHeight : Float)
  /-- The segment has no part inside the region and was not stored. -/
  | skipped (segment : Segment)
  /-- A walk stored the segment's key in `cells` cells. -/
  | indexed (cells : Nat)

namespace Event

def level : Event → Level
  | .created .. => .debug
  | .skipped _ | .indexed _ => .trace

def message : Event → String
  | .created .. => "created segment grid"
  | .skipped _ => "segment outside grid region, skipped"
  | .indexed _ => "indexed segment"

def fields : Event → List (String × FieldValue)
  | .created c r w h =>
    [("columns", .count c), ("rows", .count r), ("cell_width", .real w), ("cell_height", .real h)]
  | .skipped s => [("segment", .text s.inspect)]
  | .indexed n => [("cells", .count n)]

/-- The event that reports a layout built. -/
def ofLayout (l : Layout) : Event := .created l.columns l.rows l.cellWidth l.cellHeight

end Event

/-- The events that storing segment `s` at placement `p` reports. -/
def Placement.events (p : Placement) (s : Segment) : List Event :=
  match p with
  | .outside => [.skipped s]
  | .single _ => []
  | .walked cs => [.indexed cs.length]

end GridIndex
