import GridIndex.Binary

/-!
# One axis of a grid

Along one axis a grid has `count` cells of equal `size` starting at `origin`; cell `n` runs from
edge `n` to edge `n + 1`, where edge `n` is `origin + n · size`, rounded once.

Two maps from a coordinate to a cell are in use, and they can disagree by one cell for a point
on a grid line, because one divides and the other multiplies:

* `Axis.coord` divides: the floor of `(v - origin) / size`, within the 32-bit signed range. It
  truncates toward zero with saturation and then steps down once for a negative fraction.
* `Axis.locate` starts there, clamped to the cells, and steps by one cell until `v` lies between
  the cell's edges as `Axis.edge` computes them. A point on an edge shared by two cells goes to
  the one the heading points into.
-/

namespace GridIndex

/-- The least cell coordinate, the least 32-bit signed integer. -/
def coordMin : Int := -2147483648

/-- The greatest cell coordinate, the greatest 32-bit signed integer. -/
def coordMax : Int := 2147483647

/-- The cells along one axis of a grid. -/
structure Axis where
  origin : Float
  size : Float
  count : Nat

namespace Axis

/-- The number of cells needed to cover `extent` by cells of size `cell`: the quotient rounded
up, saturated to 64 bits, and at least one. -/
def length (extent cell : Float) : Nat :=
  max (Binary.ceilWithin 0 (Int.pow 2 64 - 1) (extent / cell)).toNat 1

theorem one_le_length (extent cell : Float) : 1 ≤ length extent cell :=
  Nat.le_max_right _ _

/-- The cell coordinate of `v` by division: `⌊(v - origin) / size⌋` within the 32-bit signed
range, and `0` for NaN. -/
def coord (a : Axis) (v : Float) : Int :=
  let t := (v - a.origin) / a.size
  let c := Binary.truncWithin coordMin coordMax t
  if t < 0.0 && Float.ofInt c > t then max coordMin (c - 1) else c

def last (a : Axis) : Nat := a.count - 1

/-- The cell nearest to coordinate `c`. -/
def clamp (a : Axis) (c : Int) : Nat :=
  if c < 0 then 0 else min c.toNat a.last

/-- Whether coordinate `c` names a cell. -/
def contains (a : Axis) (c : Int) : Bool := 0 ≤ c && c < (a.count : Int)

/-- Edge `n`, where cell `n - 1` ends and cell `n` starts. -/
def edge (a : Axis) (n : Int) : Float := a.origin + Float.ofInt n * a.size

/-- The middle of cell `n`. -/
def middle (a : Axis) (n : Int) : Float := a.origin + (Float.ofInt n + 0.5) * a.size

/-- Steps down from cell `c` while `v` lies below the cell's lower edge. -/
def settleDown (a : Axis) (v : Float) : Nat → Nat
  | 0 => 0
  | c + 1 => if v < a.edge (c + 1 : Nat) then a.settleDown v c else c + 1

/-- Steps up from cell `c`, at most `n` times, while `v` lies above the cell's upper edge. -/
def settleUp (a : Axis) (v : Float) : Nat → Nat → Nat
  | 0, c => c
  | n + 1, c => if v > a.edge (c + 1 : Nat) then a.settleUp v n (c + 1) else c

/-- The cell of `v` whose edges hold it, preferring on a shared edge the cell that `heading`
points into. -/
def locate (a : Axis) (v heading : Float) : Nat :=
  let c := a.settleDown v (a.clamp (a.coord v))
  let c := a.settleUp v (a.last - c) c
  if heading < 0.0 && 0 < c && v ≤ a.edge c then c - 1
  else if heading > 0.0 && c < a.last && v ≥ a.edge (c + 1 : Nat) then c + 1
  else c

theorem clamp_le_last (a : Axis) (c : Int) : a.clamp c ≤ a.last := by
  unfold clamp; split <;> omega

theorem settleDown_le (a : Axis) (v : Float) : ∀ c, a.settleDown v c ≤ c
  | 0 => Nat.le_refl 0
  | c + 1 => by
    unfold settleDown
    split
    · exact Nat.le_succ_of_le (settleDown_le a v c)
    · exact Nat.le_refl _

theorem settleUp_le (a : Axis) (v : Float) : ∀ n c, a.settleUp v n c ≤ c + n
  | 0, c => Nat.le_refl c
  | n + 1, c => by
    unfold settleUp
    split
    · have := settleUp_le a v n (c + 1); omega
    · omega

theorem locate_le_last (a : Axis) (v heading : Float) : a.locate v heading ≤ a.last := by
  have h1 := a.settleDown_le v (a.clamp (a.coord v))
  have h2 := a.clamp_le_last (a.coord v)
  have h3 := a.settleUp_le v (a.last - a.settleDown v (a.clamp (a.coord v)))
    (a.settleDown v (a.clamp (a.coord v)))
  unfold locate
  dsimp only
  split
  · omega
  · split
    · rename_i hc
      simp only [Bool.and_eq_true, decide_eq_true_eq] at hc
      obtain ⟨⟨_, hc⟩, _⟩ := hc
      omega
    · omega
example : (⟨0.0, 1.0, 10⟩ : Axis).coord (-0.5) = -1 := by decide
example : (⟨0.0, 1.0, 10⟩ : Axis).coord 1e20 = coordMax := by decide +kernel
example : (⟨0.0, 2.0, 10⟩ : Axis).locate 4.0 1.0 = 2 ∧ (⟨0.0, 2.0, 10⟩ : Axis).locate 4.0 (-1.0) = 1 := by
  decide

end Axis

end GridIndex
