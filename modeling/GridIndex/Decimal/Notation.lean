import GridIndex.Decimal.Shortest

/-!
# Writing a float

A float is written with the digits that `Rounding.shortest` selects, laid out by a `Notation`:
positionally, with the point after, inside or before the digits and at least
`Notation.minFraction` digits after it, or, when the notation asks for it and the magnitude is
below `10⁻⁴` or at least `10¹⁶`, as one digit, the others after a point, and `e` with the
power of ten. A negative value, negative zero included, carries a leading `-`; NaN is written
`NaN` and the infinities `inf` and `-inf`.

`Notation.inspect` is the notation in which values are shown when a structure is inspected:
`1.0`, `0.1`, `1e16`, `1e-7`.
-/

namespace GridIndex.Decimal

/-- The layout decisions for writing a float. -/
structure Notation where
  /-- The least number of digits after the point in positional form; with none the point is
  left out for integral values. -/
  minFraction : Nat
  /-- Magnitudes below `10⁻⁴` or from `10¹⁶` up are written with an exponent. -/
  exponentOutside : Bool

def zeros (n : Nat) : String := String.ofList (List.replicate n '0')

/-- Positional form of `0.s × 10^point` with at least `frac` digits after the point, where `s`
is the string of significant digits. -/
def positional (s : String) (point : Int) (frac : Nat) : String :=
  let n := s.length
  if point ≤ 0 then
    let lead := (-point).toNat
    "0." ++ zeros lead ++ s ++ zeros (frac - n - lead)
  else
    let p := point.toNat
    if p < n then
      String.ofList (s.toList.take p) ++ "." ++ String.ofList (s.toList.drop p) ++
        zeros (frac - (n - p))
    else
      s ++ zeros (p - n) ++ (if frac > 0 then "." ++ zeros frac else "")

/-- Exponent form of `0.s × 10^point`: the first digit, the others after a point, then `e` and
the power of ten of the first digit. -/
def scientific (s : String) (point : Int) : String :=
  let rest := s.toList.drop 1
  String.ofList (s.toList.take 1) ++ (if rest.isEmpty then "" else "." ++ String.ofList rest) ++
    "e" ++ toString (point - 1)

/-- The text of a float in the notation. -/
def Notation.render (nt : Notation) (x : Float) : String :=
  match Binary.ofFloat x with
  | .nan => "NaN"
  | .inf neg => (if neg then "-" else "") ++ "inf"
  | .finite neg _ _ =>
    let sign := if neg then "-" else ""
    match Rounding.ofFloat? x with
    | none =>
      sign ++ (if nt.minFraction > 0 then "0." ++ zeros nt.minFraction else "0")
    | some r =>
      let d := r.shortest
      let s := toString d.digits
      let point := d.exp + s.length
      let mag := x.abs
      if nt.exponentOutside && (mag < 1e-4 || mag ≥ 1e16) then sign ++ scientific s point
      else sign ++ positional s point nt.minFraction

/-- Values shown when a structure is inspected: positional with at least one digit after the
point, and with an exponent below `10⁻⁴` and from `10¹⁶` up. -/
def Notation.inspect : Notation where
  minFraction := 1
  exponentOutside := true

example : Notation.inspect.render 1.0 = "1.0" := by decide +kernel
example : Notation.inspect.render 1e16 = "1e16" := by decide +kernel
example : Notation.inspect.render (-1e-7) = "-1e-7" := by decide +kernel

end GridIndex.Decimal
