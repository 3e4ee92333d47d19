import GridIndex.Decimal.Notation

/-!
# Why a grid cannot be built

Building a grid is the only step that can fail. A cell size must be positive, the region must
have a finite positive width and height, and the cell counts must fit the 32-bit signed range of
cell coordinates. Each failure carries the value that was refused.

Two notations write the refused value. The message writes it in full positional form, without
a point for an integral value (`-1`, `0.0000001`, `NaN`); the inspected form writes it with at
least one digit after the point, and with an exponent below `10⁻⁴` and from `10¹⁶` up (`-1.0`,
`1e-7`).
-/

namespace GridIndex

/-- A reason why a grid cannot be built over a region with given cell sizes. -/
inductive GridError where
  /-- The cell width is NaN or not positive. -/
  | cellWidth (width : Float)
  /-- The cell height is NaN or not positive. -/
  | cellHeight (height : Float)
  /-- The region's width is not finite or not positive. -/
  | regionWidth (width : Float)
  /-- The region's height is not finite or not positive. -/
  | regionHeight (height : Float)
  /-- The cell counts do not fit the range of cell coordinates. -/
  | tooManyCells (columns rows : Nat)

namespace GridError

/-- Values in messages are positional, with no point for integral values and no exponent. -/
def messageNotation : Decimal.Notation where
  minFraction := 0
  exponentOutside := false

def name : GridError → String
  | .cellWidth _ => "InvalidCellWidth"
  | .cellHeight _ => "InvalidCellHeight"
  | .regionWidth _ => "InvalidRegionWidth"
  | .regionHeight _ => "InvalidRegionHeight"
  | .tooManyCells _ _ => "TooManyCells"

/-- The message that explains the reason. -/
def message : GridError → String
  | .cellWidth w =>
    "invalid cell width " ++ messageNotation.render w ++ " (require positive width)"
  | .cellHeight h =>
    "invalid cell height " ++ messageNotation.render h ++ " (require positive height)"
  | .regionWidth w =>
    "invalid bounding region width " ++ messageNotation.render w ++ " (require positive width)"
  | .regionHeight h =>
    "invalid bounding region height " ++ messageNotation.render h ++ " (require positive height)"
  | .tooManyCells c r => "grid of " ++ toString c ++ " x " ++ toString r ++ " cells is too large"

/-- The reason as it is shown when inspected: its name and its values. -/
def inspect (e : GridError) : String :=
  let f := Decimal.Notation.inspect.render
  match e with
  | .cellWidth v | .cellHeight v | .regionWidth v | .regionHeight v => e.name ++ "(" ++ f v ++ ")"
  | .tooManyCells c r =>
    e.name ++ " \x7b columns: " ++ toString c ++ ", rows: " ++ toString r ++ " \x7d"

/-- Whether two reasons are the same: the same kind with equal values, where values compare as
floats, so `0.0` and `-0.0` are equal and NaN equals nothing. -/
def same : GridError → GridError → Bool
  | .cellWidth a, .cellWidth b => a == b
  | .cellHeight a, .cellHeight b => a == b
  | .regionWidth a, .regionWidth b => a == b
  | .regionHeight a, .regionHeight b => a == b
  | .tooManyCells c r, .tooManyCells c' r' => c == c' && r == r'
  | _, _ => false

instance : BEq GridError := ⟨same⟩

/-- A reason never wraps another failure. -/
def cause? (_ : GridError) : Option GridError := none

example : (GridError.cellWidth (-1.0)).message = "invalid cell width -1 (require positive width)" := by
  decide +kernel
example : (GridError.tooManyCells 3 4).message = "grid of 3 x 4 cells is too large" := by
  decide +kernel

end GridError

end GridIndex
