import GridIndex.Binary

/-!
# Shortest decimals that read back

A positive finite float stands for the interval of reals that round to it. `Rounding.shortest`
picks, among the decimals in that interval, one with the fewest significant digits, and of
those the one nearest to the float; when two are equally near it takes the upper one.

The search follows the definition. With `k` the least exponent for which the value lies below
`10^k`, the grid `10^(k-n)` holds the decimals of `n` significant digits, and the two grid
points next to the value are the only candidates of that length that can be nearest. The first
`n` whose grid has a candidate in the interval wins. All comparisons cross-multiply natural
numbers, so nothing is rounded along the way.

## Main definitions

* `Rounding.ofFloat?`: the rounding interval of a float, when it is finite and nonzero.
* `Rounding.admits`: whether a decimal lies in the interval.
* `Rounding.shortest`: the selected decimal, with trailing zeros moved into the exponent.
-/

namespace GridIndex.Decimal

/-- The decimal `digits · 10^exp`. -/
structure Numeral where
  digits : Nat
  exp : Int
deriving Repr, DecidableEq, Inhabited

/-- Compares `a · 10^i` with `b · 2^j`, exactly. -/
def cmpScaled (a : Nat) (i : Int) (b : Nat) (j : Int) : Ordering :=
  compare (a * Nat.pow 10 i.toNat * Nat.pow 2 (-j).toNat) (b * Nat.pow 2 j.toNat * Nat.pow 10 (-i).toNat)

/-- Moves trailing zeros of the digits into the exponent; the value stays the same. -/
def Numeral.trim (d : Numeral) : Numeral :=
  if h : d.digits ≠ 0 ∧ d.digits % 10 = 0 then
    Numeral.trim ⟨d.digits / 10, d.exp + 1⟩
  else d
termination_by d.digits
decreasing_by exact Nat.div_lt_self (Nat.pos_of_ne_zero h.1) (by decide)

/-- The reals that round to the positive float `m · 2^q`. In units of `2^(q-2)` the value is
`4m`, the upper end is `4m + 2`, and the lower end is `4m - 2`, or `4m - 1` just above a power
of two, where the neighbour below is half as far away. -/
structure Rounding where
  m : Nat
  q : Int
  /-- The neighbour below is half as far away as the neighbour above. -/
  narrowBelow : Bool
  /-- The two ends belong to the interval. -/
  closed : Bool

namespace Rounding

/-- The rounding interval of a finite nonzero float, up to sign; its ends belong to it when the
significand is even, and always for a subnormal. -/
def ofFloat? (x : Float) : Option Rounding :=
  match Binary.ofFloat x with
  | .finite _ m q =>
    if m = 0 then none
    else if m < Nat.pow 2 52 then some ⟨m, q, false, true⟩
    else some ⟨m, q, m = Nat.pow 2 52, m % 2 = 0⟩
  | _ => none

/-- The lower end, in units of `2^(q-2)`. -/
def lower (x : Rounding) : Nat := if x.narrowBelow then 4 * x.m - 1 else 4 * x.m - 2

/-- The upper end, in units of `2^(q-2)`. -/
def upper (x : Rounding) : Nat := 4 * x.m + 2

/-- Whether the decimal `d` lies in the interval. -/
def admits (x : Rounding) (d : Numeral) : Bool :=
  let cl := cmpScaled d.digits d.exp x.lower (x.q - 2)
  let ch := cmpScaled d.digits d.exp x.upper (x.q - 2)
  (cl == .gt || (x.closed && cl == .eq)) && (ch == .lt || (x.closed && ch == .eq))

/-- Whether the value lies below `10^k`. -/
def belowPow (x : Rounding) (k : Int) : Bool := cmpScaled 1 k x.m x.q == .gt

/-- The least `k` from `k` upward with the value below `10^k`, taking at most `fuel` steps. -/
def scaleFrom (x : Rounding) : Nat → Int → Int
  | 0, k => k
  | fuel + 1, k => if x.belowPow k then k else x.scaleFrom fuel (k + 1)

/-- The least `k` with the value below `10^k`. The binary length `b` of the value gives
`⌊b · 1233 / 4096⌋ - 2` as a start at or below it, within a few steps. -/
def scale (x : Rounding) : Int :=
  let b : Int := (Nat.log2 x.m + 1 : Nat) + x.q
  x.scaleFrom 16 (b * 1233 / 4096 - 2)

/-- The number of whole grid steps `10^e` in the value. -/
def floorOnGrid (x : Rounding) (e : Int) : Nat :=
  x.m * Nat.pow 2 x.q.toNat * Nat.pow 10 (-e).toNat / (Nat.pow 2 (-x.q).toNat * Nat.pow 10 e.toNat)

/-- Of the two points of the grid `10^e` next to the value, one in the interval: the nearer
if both are, the upper one on a tie. -/
def pickOnGrid (x : Rounding) (e : Int) : Option Numeral :=
  let c := x.floorOnGrid e
  match x.admits ⟨c, e⟩, x.admits ⟨c + 1, e⟩ with
  | true, true => if cmpScaled (2 * c + 1) e x.m (x.q + 1) == .gt then some ⟨c, e⟩ else some ⟨c + 1, e⟩
  | true, false => some ⟨c, e⟩
  | false, true => some ⟨c + 1, e⟩
  | false, false => none

/-- The exact value as a decimal. It lies in the interval, and seventeen digits always find a
shorter one first, so it only stands behind the search. -/
def exact (x : Rounding) : Numeral :=
  if 0 ≤ x.q then ⟨x.m * Nat.pow 2 x.q.toNat, 0⟩ else ⟨x.m * Nat.pow 5 (-x.q).toNat, x.q⟩

/-- The decimal of fewest significant digits in the interval, nearest to the value, the upper
one on a tie, with trailing zeros moved into the exponent. -/
def shortest (x : Rounding) : Numeral :=
  let k := x.scale
  (((List.range 17).findSome? fun i => x.pickOnGrid (k - (i + 1 : Nat))).getD x.exact).trim

example : (Rounding.ofFloat? 0.1).map shortest = some ⟨1, -1⟩ := by decide +kernel
example : (Rounding.ofFloat? (0.1 + 0.2)).map shortest = some ⟨30000000000000004, -17⟩ := by
  decide +kernel
example : (Rounding.ofFloat? 5e-324).map shortest = some ⟨5, -324⟩ := by decide +kernel

end Rounding

end GridIndex.Decimal
