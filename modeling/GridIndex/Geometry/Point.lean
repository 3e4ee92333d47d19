import GridIndex.Decimal.Notation

/-!
# Points and vectors in the plane

Coordinates are floats, and every operation is the float operation written out, so results are
the rounded ones: `p - q` is `(p.x - q.x, p.y - q.y)`, the cross product is
`a.x * b.y - a.y * b.x`, and the squared length is `v.x * v.x + v.y * v.y`. Equality of points is
equality of their coordinates as floats, so `-0.0` equals `0.0` and a NaN coordinate equals
nothing.
-/

namespace GridIndex

/-- A point of the plane. -/
structure Point where
  x : Float
  y : Float
deriving BEq, Inhabited

/-- A displacement in the plane. -/
structure Vec where
  x : Float
  y : Float
deriving BEq, Inhabited

namespace Vec

def zero : Vec := ⟨0.0, 0.0⟩

def scale (v : Vec) (t : Float) : Vec := ⟨v.x * t, v.y * t⟩

/-- The cross product, positive when `b` turns counterclockwise from `a`. -/
def cross (a b : Vec) : Float := a.x * b.y - a.y * b.x

def normSq (v : Vec) : Float := v.x * v.x + v.y * v.y

end Vec

/-- The displacement from `q` to `p`. -/
instance : HSub Point Point Vec := ⟨fun p q => ⟨p.x - q.x, p.y - q.y⟩⟩

instance : HAdd Point Vec Point := ⟨fun p v => ⟨p.x + v.x, p.y + v.y⟩⟩

namespace Point

@[simp] theorem sub_x (p q : Point) : (p - q).x = p.x - q.x := rfl

@[simp] theorem sub_y (p q : Point) : (p - q).y = p.y - q.y := rfl

@[simp] theorem add_x (p : Point) (v : Vec) : (p + v).x = p.x + v.x := rfl

@[simp] theorem add_y (p : Point) (v : Vec) : (p + v).y = p.y + v.y := rfl

/-- The point as it is shown when inspected: `(x, y)`. -/
def inspect (p : Point) : String :=
  "(" ++ Decimal.Notation.inspect.render p.x ++ ", " ++ Decimal.Notation.inspect.render p.y ++ ")"

end Point

end GridIndex
