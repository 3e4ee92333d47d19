import GridIndex.Proofs.RangeQuery
import GridIndex.Proofs.WalkSteps
import Mathlib.Tactic.NormNum

/-!
# Every index and bound the grid computes is in range

A grid only ever changes by inserts, and an insert keeps the layout (`Reaches.layout_eq`), so
every grid reached from `Grid.new` has the layout that `Layout.new` built, with regular axes
and at most `2^31 - 1` columns and rows. From that alone (`inBounds_of_regular`):

* the cell count fits a 64-bit word, and the last column and row leave room for one more step
  within the 32-bit coordinates, so no step of `locate` or of a walk overflows;
* clamping a coordinate is the 32-bit clamp into `[0, last]`, which is never negative;
* every cell an insert stores into, every cell `itemsInCell` reads and every row of a query's
  block indexes buckets that exist;
* the box a walk pulls its position into has ordered sides that are not NaN, since the edges
  are monotone (`Axis.edge_le_edge`);
* the extremes that `clip?` keeps are in order (`Extremes.Ordered`): the least parameter seen is
  at most the greatest, an invariant of each `note`.
-/

namespace GridIndex

set_option autoImplicit false

open Binary

namespace Rect

/-- The extreme candidates of the part of `s` inside the region, as `clip?` finds them. -/
def extremes (r : Rect) (s : Segment) : Extremes :=
  (r.clipCandidates s).foldl (fun e p => e.note (s.param p) p) Extremes.empty

theorem clip?_eq (r : Rect) (s : Segment) :
    r.clip? s = if s.p0 == s.p1 then (if r.contains s.p0 then some s else none)
      else (r.extremes s).span? := rfl

end Rect

namespace Extremes

/-- Once a least parameter has been seen it is at most the greatest, which is never NaN. -/
def Ordered (e : Extremes) : Prop := (e.lowAt = none ∨ e.low ≤ e.high) ∧ ofFloat e.high ≠ .nan

theorem ordered_empty : empty.Ordered := ⟨Or.inl rfl, by decide⟩

theorem Ordered.note {e : Extremes} (h : e.Ordered) (t : Float) (p : Point) :
    (e.note t p).Ordered := by
  obtain ⟨hlow, hhigh⟩ := h
  by_cases hlt : t < e.low
  · have ht : ofFloat t ≠ .nan := ne_nan_of_le_left (le_of_lt_float hlt)
    by_cases hgt : e.high < t
    · simp only [Extremes.note, hlt, hgt, ↓reduceIte]
      exact ⟨Or.inr (le_refl_float ht), ht⟩
    · simp only [Extremes.note, hlt, hgt, ↓reduceIte]
      exact ⟨Or.inr (le_of_not_lt_float hhigh ht hgt), hhigh⟩
  · by_cases hgt : e.high < t
    · simp only [Extremes.note, hlt, hgt, ↓reduceIte]
      refine ⟨?_, ne_nan_of_le_right (le_of_lt_float hgt)⟩
      rcases hlow with hnone | hle
      · exact Or.inl hnone
      · exact Or.inr (le_trans_float hle (le_of_lt_float hgt))
    · simp only [Extremes.note, hlt, hgt, ↓reduceIte]
      exact ⟨hlow, hhigh⟩

theorem Ordered.foldl (f : Point → Float) :
    ∀ (ps : List Point) {e : Extremes}, e.Ordered → (ps.foldl (fun e p => e.note (f p) p) e).Ordered
  | [], _, h => h
  | p :: ps, _, h => Ordered.foldl f ps (h.note (f p) p)

end Extremes

theorem Rect.extremes_ordered (r : Rect) (s : Segment) {p0 : Point}
    (h0 : (r.extremes s).lowAt = some p0) :
    (r.extremes s).low ≤ (r.extremes s).high := by
  have hord := Extremes.Ordered.foldl s.param (r.clipCandidates s) Extremes.ordered_empty
  rcases hord.1 with hnone | hle
  · rw [show (r.extremes s).lowAt = none from hnone] at h0
    cases h0
  · exact hle

namespace Axis

variable {a : Axis}

theorem Regular.last_lt (ha : a.Regular) : (a.last : Int) = a.count - 1 ∧ (a.last : Int) < coordMax := by
  have := ha.count_le
  have := ha.count_pos
  unfold last coordMax
  omega

theorem clamp_eq (a : Axis) (c : Int) : (a.clamp c : Int) = max 0 (min c a.last) := by
  unfold clamp
  split <;> omega

theorem edge_le_edge_succ (ha : a.Regular) {c : Int} (hc : a.contains c = true) :
    a.edge c ≤ a.edge (c + 1) := by
  obtain ⟨h0, hlt⟩ := contains_iff.mp hc
  obtain ⟨n, rfl⟩ := Int.eq_ofNat_of_zero_le h0
  have h := edge_le_edge ha (Nat.le_succ n) (by omega : n + 1 ≤ a.count)
  have e : ((n + 1 : Nat) : Int) = (n : Int) + 1 := by omega
  rw [e] at h
  exact h

end Axis

namespace Layout

theorem cellCount_lt (l : Layout) : l.cellCount < 2 ^ 64 :=
  calc l.cellCount = l.columns * l.rows := rfl
    _ ≤ 2147483647 * 2147483647 := Nat.mul_le_mul l.columns_le l.rows_le
    _ < 2 ^ 64 := by norm_num

/-- A step across a side of a cell of the grid stays a 32-bit coordinate. -/
theorem step_in_range {l : Layout} {c : Cell} (hc : l.Within c) {r : Rect} {s : Segment} {pad : Vec}
    {x : Crossing} (hx : x ∈ r.crossingsPadded s pad) :
    coordMin ≤ c.col + x.dx ∧ c.col + x.dx ≤ coordMax ∧
      coordMin ≤ c.row + x.dy ∧ c.row + x.dy ≤ coordMax := by
  have hstep := Rect.step_of_mem_crossingsPadded hx
  have hcol := hc.1
  have hrow := hc.2
  have := l.columns_le
  have := l.rows_le
  unfold coordMin coordMax
  omega

end Layout

namespace Grid

variable {κ : Type}

@[simp] theorem layout_pushAll (g : Grid κ) (k : κ) (cs : List Cell) :
    (g.pushAll k cs).layout = g.layout := by
  induction cs generalizing g with
  | nil => rfl
  | cons c cs ih => exact (ih (g.push k c)).trans (layout_push g k c)

@[simp] theorem layout_insert (g : Grid κ) (k : κ) (s : Segment) :
    (g.insert k s).layout = g.layout :=
  layout_pushAll g k _

/-- The grids reached from `g₀` by a sequence of inserts; the other operations only read a
grid. -/
inductive Reaches (g₀ : Grid κ) : Grid κ → Prop
  | refl : Reaches g₀ g₀
  | insert {g : Grid κ} (k : κ) (s : Segment) : Reaches g₀ g → Reaches g₀ (g.insert k s)

theorem Reaches.layout_eq {g₀ g : Grid κ} (h : g₀.Reaches g) : g.layout = g₀.layout := by
  induction h with
  | refl => rfl
  | insert k s _ ih => rw [layout_insert, ih]

theorem layout_new {region : Rect} {cw ch : Float} {g : Grid κ}
    (h : Grid.new region cw ch = .ok g) : Layout.new region cw ch = .ok g.layout := by
  unfold Grid.new at h
  cases hl : Layout.new region cw ch with
  | error err =>
    rw [hl] at h
    cases h
  | ok l =>
    rw [hl] at h
    cases h
    rfl

/-- Every index, coordinate and bound that the operations on `g` compute is in range, and
every assertion they make holds. -/
structure InBounds (g : Grid κ) : Prop where
  cellCount_lt : g.layout.cellCount < 2 ^ 64
  buckets_size : g.buckets.size = g.layout.columns * g.layout.rows
  last_lt : ((g.layout.xAxis.last : Int) = g.layout.columns - 1 ∧ (g.layout.xAxis.last : Int) < coordMax) ∧
    ((g.layout.yAxis.last : Int) = g.layout.rows - 1 ∧ (g.layout.yAxis.last : Int) < coordMax)
  clamp_eq : ∀ c : Int, (g.layout.xAxis.clamp c : Int) = max 0 (min c g.layout.xAxis.last) ∧
    (g.layout.yAxis.clamp c : Int) = max 0 (min c g.layout.yAxis.last)
  locate_le : ∀ p h, (g.layout.locate p h).col ≤ g.layout.xAxis.last ∧
    (g.layout.locate p h).row ≤ g.layout.yAxis.last
  step : ∀ c, g.layout.Within c → ∀ (seg : Segment) (pad : Vec),
    ∀ x ∈ (g.layout.cellBox c.col c.row).crossingsPadded seg pad,
      coordMin ≤ c.col + x.dx ∧ c.col + x.dx ≤ coordMax ∧
        coordMin ≤ c.row + x.dy ∧ c.row + x.dy ≤ coordMax
  placed : ∀ s, ∀ c ∈ (g.layout.place s).cells,
    g.layout.Within c ∧ g.layout.index c < g.buckets.size
  item : ∀ col row, col < g.layout.columns → row < g.layout.rows →
    g.layout.index ⟨col, row⟩ < g.buckets.size
  row_slice : ∀ B r, (g.layout.range B).rowLo ≤ r → r ≤ (g.layout.range B).rowHi →
    (g.layout.range B).colLo ≤ (g.layout.range B).colHi ∧
      (g.layout.range B).colHi + r * g.layout.columns < g.buckets.size
  columns_pos : 0 < g.layout.columns
  box_ordered : ∀ col row : Int, g.layout.xAxis.contains col = true →
    g.layout.yAxis.contains row = true →
      (g.layout.cellBox col row).x0 ≤ (g.layout.cellBox col row).x1 ∧
        (g.layout.cellBox col row).y0 ≤ (g.layout.cellBox col row).y1
  size_pos : 0.0 < g.layout.cellWidth ∧ 0.0 < g.layout.cellHeight
  clip_ordered : ∀ (s : Segment) (p0 : Point), (g.layout.region.extremes s).lowAt = some p0 →
    (g.layout.region.extremes s).low ≤ (g.layout.region.extremes s).high

theorem index_lt_size (g : Grid κ) {c : Cell} (hc : g.layout.Within c) :
    g.layout.index c < g.buckets.size := by
  rw [g.size_buckets]
  exact Layout.index_lt hc

theorem inBounds_of_regular (g : Grid κ) (hx : g.layout.xAxis.Regular)
    (hy : g.layout.yAxis.Regular) : g.InBounds where
  cellCount_lt := g.layout.cellCount_lt
  buckets_size := g.size_buckets
  last_lt := ⟨hx.last_lt, hy.last_lt⟩
  clamp_eq c := ⟨Axis.clamp_eq _ c, Axis.clamp_eq _ c⟩
  locate_le p h := ⟨Axis.locate_le_last _ p.x h.x, Axis.locate_le_last _ p.y h.y⟩
  step _ hc _ _ _ hx := Layout.step_in_range hc hx
  placed s c hc := by
    have hw := g.layout.place_within s c hc
    exact ⟨hw, g.index_lt_size hw⟩
  item col row hc hr := g.index_lt_size ⟨hc, hr⟩
  row_slice B r _ hr := by
    have hcol := g.layout.range_colHi_lt B
    have hrow := lt_of_le_of_lt hr (g.layout.range_rowHi_lt B)
    exact ⟨le_trans (min_le_left _ _) (le_max_left _ _),
      g.index_lt_size (c := ⟨(g.layout.range B).colHi, r⟩) ⟨hcol, hrow⟩⟩
  columns_pos := g.layout.columns_pos
  box_ordered _ _ hc hr := ⟨Axis.edge_le_edge_succ hx hc, Axis.edge_le_edge_succ hy hr⟩
  size_pos := ⟨hx.size_pos, hy.size_pos⟩
  clip_ordered s _ h0 := g.layout.region.extremes_ordered s h0

theorem operations_in_bounds {region : Rect} {cw ch : Float} {g₀ g : Grid κ}
    (hnew : Grid.new region cw ch = .ok g₀) (hg : g₀.Reaches g) :
    g.layout = g₀.layout ∧ g.InBounds := by
  have hl : Layout.new region cw ch = .ok g.layout := by
    rw [hg.layout_eq]
    exact layout_new hnew
  obtain ⟨hx, hy⟩ := Layout.regular_of_new hl
  exact ⟨hg.layout_eq, g.inBounds_of_regular hx hy⟩

theorem operations_in_bounds_unit :
    Grid.new ⟨0.0, 0.0, 4.0, 4.0⟩ 1.0 1.0 =
        .ok (Grid.empty (κ := Nat)
          ⟨⟨0.0, 0.0, 4.0, 4.0⟩, 1.0, 1.0, 4, 4, by decide, by decide, by decide, by decide⟩) ∧
      ((Grid.empty (κ := Nat)
        ⟨⟨0.0, 0.0, 4.0, 4.0⟩, 1.0, 1.0, 4, 4, by decide, by decide, by decide, by decide⟩).insert 7
          ⟨⟨0.5, 0.5⟩, ⟨3.5, 2.5⟩⟩).InBounds :=
  ⟨rfl, (@operations_in_bounds Nat ⟨0.0, 0.0, 4.0, 4.0⟩ 1.0 1.0 _ _ rfl (.insert 7 _ .refl)).2⟩

end Grid

end GridIndex
