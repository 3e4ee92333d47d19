/-!
# Floats as exact binary values

A binary64 `Float` is NaN, an infinity, or a finite value `± m · 2^q`. `Binary.ofFloat` reads
that form off the bits, and the roundings to integers that the grid needs are computed exactly
from it: the floor, the ceiling and the truncation toward zero, each pushed into a bounded range
of integers the way a saturating conversion does (NaN goes to zero, an infinity to the nearer
end).

Everything here is plain arithmetic on `Nat` and `Int`, so it evaluates in the kernel and its
lemmas are lemmas about numbers. Powers are written `Nat.pow`, so the definitions read the same
whichever `^` instances are in scope.
-/

namespace GridIndex

/-- What the bits of a binary64 float stand for. -/
inductive Binary where
  | nan
  | inf (neg : Bool)
  /-- The finite value `(-1)^neg · m · 2^q`. Zero has `m = 0`; a subnormal has `m < 2^52`. -/
  | finite (neg : Bool) (m : Nat) (q : Int)
deriving Repr, DecidableEq

namespace Binary

/-- Decodes sign, exponent field and fraction field of the bits. -/
def ofFloat (x : Float) : Binary :=
  let b : Nat := x.toBits.toNat
  let neg : Bool := b / Nat.pow 2 63 % 2 == 1
  let e : Nat := b / Nat.pow 2 52 % Nat.pow 2 11
  let f : Nat := b % Nat.pow 2 52
  if e = 2047 then
    if f = 0 then .inf neg else .nan
  else if e = 0 then .finite neg f (-1074)
  else .finite neg (Nat.pow 2 52 + f) ((e : Int) - 1075)

example : ofFloat 1.0 = .finite false (2 ^ 52) (-52) := by decide
example : ofFloat (-0.0) = .finite true 0 (-1074) := by decide

/-- `⌊m · 2^q⌋`. -/
def floorMag (m : Nat) (q : Int) : Nat :=
  if 0 ≤ q then m * Nat.pow 2 q.toNat else m / Nat.pow 2 (-q).toNat

/-- `⌈m · 2^q⌉`. -/
def ceilMag (m : Nat) (q : Int) : Nat :=
  if 0 ≤ q then m * Nat.pow 2 q.toNat else (m + Nat.pow 2 (-q).toNat - 1) / Nat.pow 2 (-q).toNat

/-- The greatest integer at most `(-1)^neg · m · 2^q`. -/
def floorOf (neg : Bool) (m : Nat) (q : Int) : Int :=
  if neg then -(ceilMag m q : Int) else floorMag m q

/-- The least integer at least `(-1)^neg · m · 2^q`. -/
def ceilOf (neg : Bool) (m : Nat) (q : Int) : Int :=
  if neg then -(floorMag m q : Int) else ceilMag m q

def clampInt (lo hi n : Int) : Int := max lo (min hi n)

/-- `⌊x⌋` pushed into `[lo, hi]`; NaN gives `0`, and an infinity the end on its side. -/
def floorWithin (lo hi : Int) (x : Float) : Int :=
  match ofFloat x with
  | .nan => 0
  | .inf neg => if neg then lo else hi
  | .finite neg m q => clampInt lo hi (floorOf neg m q)

/-- `⌈x⌉` pushed into `[lo, hi]`; NaN gives `0`, and an infinity the end on its side. -/
def ceilWithin (lo hi : Int) (x : Float) : Int :=
  match ofFloat x with
  | .nan => 0
  | .inf neg => if neg then lo else hi
  | .finite neg m q => clampInt lo hi (ceilOf neg m q)

/-- `x` with its fraction dropped, pushed into `[lo, hi]`; NaN gives `0`, and an infinity the end
on its side. This is the saturating conversion of a float to a bounded integer type. -/
def truncWithin (lo hi : Int) (x : Float) : Int :=
  match ofFloat x with
  | .nan => 0
  | .inf neg => if neg then lo else hi
  | .finite neg m q => clampInt lo hi (if neg then -(floorMag m q : Int) else floorMag m q)

example : floorWithin (-10) 10 (-0.5) = -1 ∧ floorWithin (-10) 10 2.5 = 2 := by decide
example : ceilWithin 0 100 2.25 = 3 ∧ ceilWithin 0 100 (-0.5) = 0 := by decide
example : truncWithin (-10) 10 (-2.5) = -2 ∧ truncWithin (-10) 10 1e300 = 10 := by decide +kernel

end Binary

end GridIndex
