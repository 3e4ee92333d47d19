import GridIndex.Grid.Basic

/-!
# Range queries

A query box selects a block of cells: its two corners are located in the grid, with no heading,
and the columns and rows between them, ends included, form the block. A box outside the region
thus selects the nearest cells at the region's edge, and a box whose corners are given in either
order selects the same block.

`Grid.visit` lists the keys of the block's cells row by row, each row from left to right, each
cell's keys in the order stored, so a key stored in several of the cells appears once per cell.
`Grid.query` is the set of those keys, listed in ascending order.
-/

namespace GridIndex

/-- A block of cells: the columns from `colLo` to `colHi` and the rows from `rowLo` to `rowHi`,
ends included. -/
structure CellRange where
  colLo : Nat
  colHi : Nat
  rowLo : Nat
  rowHi : Nat
deriving DecidableEq, Repr

/-- The numbers from `lo` to `hi`, ends included. -/
def CellRange.span (lo hi : Nat) : List Nat := List.range' lo (hi + 1 - lo)

/-- The block of cells that the box `r` selects. -/
def Layout.range (l : Layout) (r : Rect) : CellRange :=
  let a := l.locate r.low Vec.zero
  let b := l.locate r.high Vec.zero
  ⟨min a.col b.col, max a.col b.col, min a.row b.row, max a.row b.row⟩

namespace Grid

variable {κ : Type}

/-- The keys of the cells that the box `r` selects, row by row, each row from left to right. -/
def visit (g : Grid κ) (r : Rect) : List κ :=
  let cr := g.layout.range r
  (CellRange.span cr.rowLo cr.rowHi).flatMap fun row =>
    (CellRange.span cr.colLo cr.colHi).flatMap fun col => (g.bucket ⟨col, row⟩).toList

/-- The keys that `visit` lists, each once, in ascending order. -/
def query [Ord κ] [BEq κ] (g : Grid κ) (r : Rect) : List κ :=
  ((g.visit r).mergeSort fun a b => compare a b != .gt).eraseReps

end Grid

end GridIndex
