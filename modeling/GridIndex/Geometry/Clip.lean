import GridIndex.Geometry.Crossing

/-!
# The part of a segment inside a region

`Rect.clip?` keeps the part of a segment that lies in a region, boundary included. The
candidates for its ends are the crossings with the region's sides and those ends of the segment
that lie in the region. Of the candidates, the one of least parameter below `1` starts the part
and the one of greatest parameter above `0` ends it; without both there is no part.

So a segment that only touches the region at one of its own ends has no part inside, while one
that grazes a corner elsewhere keeps a single point. A segment that is a single point is kept
exactly when the point lies in the region.
-/

namespace GridIndex

/-- The extreme candidates seen so far: the least parameter below `1` and the greatest above
`0`, each with its point once one has been seen. -/
structure Extremes where
  /-- The least parameter seen, `1` before any. -/
  low : Float
  lowAt : Option Point
  /-- The greatest parameter seen, `0` before any. -/
  high : Float
  highAt : Option Point

namespace Extremes

def empty : Extremes := ⟨1.0, none, 0.0, none⟩

/-- Takes in the candidate `p` with parameter `t`. -/
def note (e : Extremes) (t : Float) (p : Point) : Extremes :=
  let e := if t < e.low then { e with low := t, lowAt := some p } else e
  if t > e.high then { e with high := t, highAt := some p } else e

/-- The segment between the extreme candidates, if both were seen and they span more than an
end. -/
def span? (e : Extremes) : Option Segment :=
  match e.lowAt, e.highAt with
  | some p0, some p1 => if e.low < 1.0 && e.high > 0.0 then some ⟨p0, p1⟩ else none
  | _, _ => none

end Extremes

namespace Rect

/-- The candidate ends of the part of `s` inside the region: the crossings in side order, then
each end of `s` that lies in the region. -/
def clipCandidates (r : Rect) (s : Segment) : List Point :=
  (r.crossings s).map (·.point) ++ (if r.contains s.p0 then [s.p0] else []) ++
    (if r.contains s.p1 then [s.p1] else [])

/-- The part of `s` that lies in the region, boundary included. -/
def clip? (r : Rect) (s : Segment) : Option Segment :=
  if s.p0 == s.p1 then (if r.contains s.p0 then some s else none)
  else ((r.clipCandidates s).foldl (fun e p => e.note (s.param p) p) Extremes.empty).span?

end Rect

end GridIndex
