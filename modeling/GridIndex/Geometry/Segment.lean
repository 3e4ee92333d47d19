import GridIndex.Geometry.Rect

/-!
# Segments

A segment runs from `p0` to `p1`; its points are `p0 + (p1 - p0) · t` for `t` in `[0, 1]`.

* `Segment.meet?` is the point where two segments cross, ends included. It solves for the
  parameters `t` on the first and `u` on the second with cross products and accepts the point
  when both lie in `[0, 1]`. Parallel segments, collinear ones included, never meet: their
  cross product is zero. A NaN parameter lies in no interval, so NaN input meets nothing.
* `Segment.param` reads the parameter of a point assumed on the segment's line off the axis
  along which the segment moves more, the vertical one on a tie, which keeps steep and flat
  segments well conditioned.
-/

namespace GridIndex

/-- The straight segment from `p0` to `p1`. -/
structure Segment where
  p0 : Point
  p1 : Point
deriving BEq, Inhabited

namespace Segment

def delta (s : Segment) : Vec := s.p1 - s.p0

def inUnit (t : Float) : Bool := 0.0 ≤ t && t ≤ 1.0

/-- The point where `a` and `b` cross, ends included; parallel segments never cross. -/
def meet? (a b : Segment) : Option Point :=
  let ab := a.delta
  let cd := b.delta
  let denom := ab.cross cd
  if denom == 0.0 then none
  else
    let ac := b.p0 - a.p0
    let t := ac.cross cd / denom
    if !inUnit t then none
    else
      let u := ac.cross ab / denom
      if !inUnit u then none
      else some (a.p0 + ab.scale t)

/-- The parameter `t` with `p = p0 + (p1 - p0) · t`, for `p` on the segment's line, read off
the axis of larger movement (the vertical one on a tie). -/
def param (s : Segment) (p : Point) : Float :=
  if (s.p1.x - s.p0.x).abs > (s.p1.y - s.p0.y).abs then (p.x - s.p0.x) / (s.p1.x - s.p0.x)
  else (p.y - s.p0.y) / (s.p1.y - s.p0.y)

def inspect (s : Segment) : String :=
  "Line \x7b p0: " ++ s.p0.inspect ++ ", p1: " ++ s.p1.inspect ++ " \x7d"

example : (meet? ⟨⟨0.0, 0.0⟩, ⟨4.0, 4.0⟩⟩ ⟨⟨0.0, 4.0⟩, ⟨4.0, 0.0⟩⟩ == some ⟨2.0, 2.0⟩) = true := by
  decide +kernel

end Segment

end GridIndex
