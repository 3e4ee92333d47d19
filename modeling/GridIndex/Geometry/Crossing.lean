import GridIndex.Geometry.Segment

/-!
# Where a segment crosses the sides of a rectangle

The sides of a rectangle are taken in a fixed order, bottom, right, top, left, and each carries
the step to the cell beyond it: `(0, -1)`, `(1, 0)`, `(0, 1)`, `(-1, 0)`. A crossing is a point
where the segment meets a side, with that side's step, and crossings are listed in side order.
A segment through a corner crosses both sides that meet there.

With a pad, each side is moved outward by the pad and lengthened by it past both of its ends,
so neighbouring sides overlap near a corner, and a segment that leaves through a corner still
meets one of them after rounding. The unpadded sides are the padded ones with a zero pad.
-/

namespace GridIndex

/-- A point where a segment meets a side of a rectangle, with the step to the cell beyond that
side. -/
structure Crossing where
  point : Point
  dx : Int
  dy : Int
deriving BEq, Inhabited

namespace Rect

/-- The sides pushed out and lengthened by `pad`, bottom, right, top, left, each with the step
through it. -/
def paddedSides (r : Rect) (pad : Vec) : List (Segment × Int × Int) :=
  let x0 := r.x0 - pad.x
  let y0 := r.y0 - pad.y
  let x1 := r.x1 + pad.x
  let y1 := r.y1 + pad.y
  [(⟨⟨x0 - pad.x, y0⟩, ⟨x1 + pad.x, y0⟩⟩, 0, -1),
   (⟨⟨x1, y0 - pad.y⟩, ⟨x1, y1 + pad.y⟩⟩, 1, 0),
   (⟨⟨x1 + pad.x, y1⟩, ⟨x0 - pad.x, y1⟩⟩, 0, 1),
   (⟨⟨x0, y1 + pad.y⟩, ⟨x0, y0 - pad.y⟩⟩, -1, 0)]

/-- The crossings of `s` with the sides pushed out by `pad`, in side order. -/
def crossingsPadded (r : Rect) (s : Segment) (pad : Vec) : List Crossing :=
  (r.paddedSides pad).filterMap fun (side, dx, dy) =>
    (s.meet? side).map fun p => ⟨p, dx, dy⟩

/-- The crossings of `s` with the sides, in side order. -/
def crossings (r : Rect) (s : Segment) : List Crossing :=
  r.crossingsPadded s Vec.zero

theorem length_crossingsPadded_le (r : Rect) (s : Segment) (pad : Vec) :
    (r.crossingsPadded s pad).length ≤ 4 :=
  Nat.le_trans (List.length_filterMap_le _ _) (by simp [paddedSides])

end Rect

end GridIndex
