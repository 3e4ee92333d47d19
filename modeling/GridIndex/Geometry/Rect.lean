import GridIndex.Geometry.Point

/-!
# Axis-aligned rectangles

A rectangle is given by a first corner `(x0, y0)` and a second corner `(x1, y1)`, and is kept as
given: nothing orders the corners, so its width `x1 - x0` and height `y1 - y0` may be negative,
zero or NaN, and callers that need a proper region check that themselves.

Membership, `Rect.contains`, is closed on all four sides: the boundary belongs to the rectangle.
-/

namespace GridIndex

/-- A rectangle with sides parallel to the axes. -/
structure Rect where
  x0 : Float
  y0 : Float
  x1 : Float
  y1 : Float
deriving BEq, Inhabited

namespace Rect

def width (r : Rect) : Float := r.x1 - r.x0

def height (r : Rect) : Float := r.y1 - r.y0

def low (r : Rect) : Point := ⟨r.x0, r.y0⟩

def high (r : Rect) : Point := ⟨r.x1, r.y1⟩

/-- Whether `p` lies in the rectangle or on its boundary. A NaN coordinate lies nowhere. -/
def contains (r : Rect) (p : Point) : Bool :=
  r.x0 ≤ p.x && r.y0 ≤ p.y && p.x ≤ r.x1 && p.y ≤ r.y1

theorem contains_iff (r : Rect) (p : Point) :
    r.contains p = true ↔ r.x0 ≤ p.x ∧ r.y0 ≤ p.y ∧ p.x ≤ r.x1 ∧ p.y ≤ r.y1 := by
  simp [contains, and_assoc]

/-- `v` raised to `lo` if it lies below, then lowered to `hi` if it lies above; NaN stays. -/
def clampTo (lo hi v : Float) : Float :=
  let v := if v < lo then lo else v
  if v > hi then hi else v

/-- The point with each coordinate pulled into the rectangle's range on its axis. -/
def clampPoint (r : Rect) (p : Point) : Point :=
  ⟨clampTo r.x0 r.x1 p.x, clampTo r.y0 r.y1 p.y⟩

def inspect (r : Rect) : String :=
  let f := Decimal.Notation.inspect.render
  "Rect \x7b x0: " ++ f r.x0 ++ ", y0: " ++ f r.y0 ++ ", x1: " ++ f r.x1 ++
    ", y1: " ++ f r.y1 ++ " \x7d"

end Rect

end GridIndex
