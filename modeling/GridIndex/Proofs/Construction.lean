import GridIndex.Proofs.InsertOrder
import GridIndex.Proofs.FloatQuotient

/-!
# Building a grid

`Layout.new` checks, in this order, that the cell width and the cell height are positive (NaN and
`-0.0` are refused), that the region's width and height are finite and positive, and that the
cell counts fit the 32-bit signed range of cell coordinates; the first check that fails names the
value it refused (`new_eq_error_iff`), and a layout is built exactly when all pass
(`exists_new_eq_ok_iff`).

The cell sizes are shrunk to the region's extents, so they are finite and positive, and each
count is the ceiling of the rounded quotient of extent by cell size, saturated to 64 bits and at
least one (`length_isCellCount`). Counts that pass the check multiply to less than `2^64`, so the
product of the counts never overflows. The grid built holds one empty bucket per cell, and
building it reports one debug event with the counts and the cell sizes; a refused build reports
nothing.
-/

namespace GridIndex

open Binary

set_option autoImplicit false

namespace Axis

/-- `n` is how many cells of size `cell` the grid lays over `extent`: the ceiling of the rounded
quotient, saturated to 64 bits and at least one, and the saturated count for an infinite
quotient. -/
def IsCellCount (extent cell : Float) (n : Nat) : Prop :=
  ((ofFloat (extent / cell)).isFinite = true ∧
      (n : Int) = max 1 (min (2^64 - 1) ⌈(ofFloat (extent / cell)).toRat⌉)) ∨
    (ofFloat (extent / cell) = .inf false ∧ n = 2^64 - 1)

theorem length_isCellCount {extent cell : Float} (he : Layout.finitePositive extent = true)
    (hc : (ofFloat cell).isFinite = true) (hpos : 0.0 < cell) :
    IsCellCount extent cell (length extent cell) := by
  simp only [Layout.finitePositive, Bool.and_eq_true, Bool.not_eq_true', decide_eq_false_iff_not]
    at he
  obtain ⟨hef, he0⟩ := he
  rw [isFinite_ofFloat] at hef
  have hepos : 0.0 < extent := Layout.zero_lt_of_not_le (ne_nan_of_isFinite hef) he0
  have hc0 := (rank_pos_of_pos hpos).ne'
  have hr : 0 ≤ (ofFloat extent).toRat / (ofFloat cell).toRat := by
    have h₁ := (lt_iff_toRat isFinite_zero hef).mp hepos
    have h₂ := (lt_iff_toRat isFinite_zero hc).mp hpos
    rw [toRat_zero] at h₁ h₂
    exact div_nonneg h₁.le h₂.le
  have hq0 : 0 ≤ (ofFloat (extent / cell)).rank := (brackets_div hef hc hc0 0 0 roundsTo_zero).1 hr
  have hne := div_ne_nan (ne_nan_of_isFinite hef) hc hc0
  have h64 : Int.pow 2 64 - 1 = 2^64 - 1 := rfl
  unfold IsCellCount length
  rw [h64]
  cases hq : ofFloat (extent / cell) with
  | nan => exact absurd hq hne
  | inf k =>
    cases k
    · exact .inr ⟨rfl, by simp [ceilWithin, hq]⟩
    · rw [hq] at hq0
      simp [rank] at hq0
  | finite n m q =>
    have hf : (ofFloat (extent / cell)).isFinite = true := by rw [hq]; rfl
    refine .inl ⟨rfl, ?_⟩
    rw [ceilWithin_of_isFinite hf, hq]
    generalize ⌈(Binary.finite n m q).toRat⌉ = c
    unfold clampInt
    omega

end Axis

namespace Layout

/-- A cell size the grid refuses: NaN, or not above zero, `-0.0` included. -/
def RefusedSize (x : Float) : Prop := x.isNaN = true ∨ x ≤ 0.0

/-- A region extent the grid refuses: not finite, or not above zero. -/
def RefusedExtent (x : Float) : Prop := x.isFinite = false ∨ x ≤ 0.0

instance (x : Float) : Decidable (RefusedSize x) := inferInstanceAs (Decidable (_ ∨ _))

instance (x : Float) : Decidable (RefusedExtent x) := inferInstanceAs (Decidable (_ ∨ _))

/-- What a layout built over `region` with cell sizes `cw` and `ch` holds. -/
structure Built (region : Rect) (cw ch : Float) (l : Layout) : Prop where
  region_eq : l.region = region
  cellWidth_eq : l.cellWidth = min cw region.width
  cellHeight_eq : l.cellHeight = min ch region.height
  cellWidth_pos : 0.0 < l.cellWidth
  cellWidth_le : l.cellWidth ≤ region.width
  cellHeight_pos : 0.0 < l.cellHeight
  cellHeight_le : l.cellHeight ≤ region.height
  columns_eq : l.columns = Axis.length region.width l.cellWidth
  rows_eq : l.rows = Axis.length region.height l.cellHeight
  one_le_columns : 1 ≤ l.columns
  one_le_rows : 1 ≤ l.rows
  cellCount_lt : l.columns * l.rows < 2^64

/-- Every check on the cell sizes and on the region's extents passes. -/
def Admits (region : Rect) (cw ch : Float) : Prop :=
  ¬ RefusedSize cw ∧ ¬ RefusedSize ch ∧ ¬ RefusedExtent region.width ∧
    ¬ RefusedExtent region.height

theorem positive_eq_false_iff {x : Float} : positive x = false ↔ RefusedSize x := by
  simp only [positive, Bool.not_eq_false', Bool.or_eq_true, decide_eq_true_eq, RefusedSize]

theorem finitePositive_eq_false_iff {x : Float} : finitePositive x = false ↔ RefusedExtent x := by
  simp only [finitePositive, Bool.and_eq_false_iff, Bool.not_eq_false', decide_eq_true_eq,
    RefusedExtent]

theorem positive_of_not_refused {x : Float} (h : ¬ RefusedSize x) : positive x = true := by
  simpa [← positive_eq_false_iff] using h

theorem finitePositive_of_not_refused {x : Float} (h : ¬ RefusedExtent x) :
    finitePositive x = true := by
  simpa [← finitePositive_eq_false_iff] using h

section Checks

variable (region : Rect) (cw ch : Float)

/-- What `new` can do: refuse at the first failing check, or build a layout when all pass. -/
theorem new_cases :
    (RefusedSize cw ∧ new region cw ch = .error (.cellWidth cw)) ∨
    (¬ RefusedSize cw ∧ RefusedSize ch ∧ new region cw ch = .error (.cellHeight ch)) ∨
    (¬ RefusedSize cw ∧ ¬ RefusedSize ch ∧ RefusedExtent region.width ∧
      new region cw ch = .error (.regionWidth region.width)) ∨
    (¬ RefusedSize cw ∧ ¬ RefusedSize ch ∧ ¬ RefusedExtent region.width ∧
      RefusedExtent region.height ∧ new region cw ch = .error (.regionHeight region.height)) ∨
    (Admits region cw ch ∧
      (2147483647 < Axis.length region.width (min cw region.width) ∨
        2147483647 < Axis.length region.height (min ch region.height)) ∧
      new region cw ch = .error (.tooManyCells (Axis.length region.width (min cw region.width))
        (Axis.length region.height (min ch region.height)))) ∨
    (Admits region cw ch ∧ Axis.length region.width (min cw region.width) ≤ 2147483647 ∧
      Axis.length region.height (min ch region.height) ≤ 2147483647 ∧
      ∃ l, new region cw ch = .ok l) := by
  simp only [← positive_eq_false_iff, ← finitePositive_eq_false_iff, Admits]
  unfold new
  -- the four checks in order: the first that refuses decides
  cases positive cw
  · simp
  cases positive ch
  · simp
  cases finitePositive region.width
  · simp
  cases finitePositive region.height
  · simp
  simp only [Bool.not_true, Bool.false_eq_true, Bool.true_eq_false, if_false, not_false_eq_true,
    true_and, false_and, false_or]
  split
  · next hc => exact .inr ⟨hc.1, hc.2, _, rfl⟩
  · next hc => exact .inl ⟨by omega, rfl⟩

/-- The first check that fails names the value it refused. -/
theorem new_eq_error_iff (e : GridError) :
    new region cw ch = .error e ↔
      (RefusedSize cw ∧ e = .cellWidth cw) ∨
      (¬ RefusedSize cw ∧ RefusedSize ch ∧ e = .cellHeight ch) ∨
      (¬ RefusedSize cw ∧ ¬ RefusedSize ch ∧ RefusedExtent region.width ∧
        e = .regionWidth region.width) ∨
      (¬ RefusedSize cw ∧ ¬ RefusedSize ch ∧ ¬ RefusedExtent region.width ∧
        RefusedExtent region.height ∧ e = .regionHeight region.height) ∨
      (Admits region cw ch ∧
        (2147483647 < Axis.length region.width (min cw region.width) ∨
          2147483647 < Axis.length region.height (min ch region.height)) ∧
        e = .tooManyCells (Axis.length region.width (min cw region.width))
          (Axis.length region.height (min ch region.height))) := by
  rcases new_cases region cw ch with ⟨h₁, hn⟩ | ⟨h₁, h₂, hn⟩ | ⟨h₁, h₂, h₃, hn⟩ |
    ⟨h₁, h₂, h₃, h₄, hn⟩ | ⟨ha, hc, hn⟩ | ⟨ha, hc, hr, l, hn⟩ <;>
    rw [hn]
  · simp [Admits, h₁, eq_comm]
  · simp [Admits, h₁, h₂, eq_comm]
  · simp [Admits, h₁, h₂, h₃, eq_comm]
  · simp [Admits, h₁, h₂, h₃, h₄, eq_comm]
  · simp only [Admits] at ha
    simp [Admits, ha, hc, eq_comm]
  · simp only [reduceCtorEq, false_iff]
    rintro (⟨h, -⟩ | ⟨-, h, -⟩ | ⟨-, -, h, -⟩ | ⟨-, -, -, h, -⟩ | ⟨-, h, -⟩)
    · exact ha.1 h
    · exact ha.2.1 h
    · exact ha.2.2.1 h
    · exact ha.2.2.2 h
    · omega

/-- A layout is built exactly when every check passes. -/
theorem exists_new_eq_ok_iff :
    (∃ l, new region cw ch = .ok l) ↔
      Admits region cw ch ∧ Axis.length region.width (min cw region.width) ≤ 2147483647 ∧
        Axis.length region.height (min ch region.height) ≤ 2147483647 := by
  rcases new_cases region cw ch with ⟨h₁, hn⟩ | ⟨h₁, h₂, hn⟩ | ⟨h₁, h₂, h₃, hn⟩ |
    ⟨h₁, h₂, h₃, h₄, hn⟩ | ⟨ha, hc, hn⟩ | ⟨ha, hc, hr, l, hn⟩ <;>
    rw [hn]
  all_goals simp only [reduceCtorEq, exists_false, false_iff, Except.ok.injEq, exists_eq', true_iff]
  · exact fun h => h.1.1 h₁
  · exact fun h => h.1.2.1 h₂
  · exact fun h => h.1.2.2.1 h₃
  · exact fun h => h.1.2.2.2 h₄
  · omega
  · exact ⟨ha, hc, hr⟩

theorem isCellCount_of_admits (h : Admits region cw ch) :
    Axis.IsCellCount region.width (min cw region.width)
        (Axis.length region.width (min cw region.width)) ∧
      Axis.IsCellCount region.height (min ch region.height)
        (Axis.length region.height (min ch region.height)) := by
  have hw := finitePositive_of_not_refused h.2.2.1
  have hh := finitePositive_of_not_refused h.2.2.2
  obtain ⟨hcf, hcp⟩ := min_regular (positive_of_not_refused h.1) hw
  obtain ⟨hrf, hrp⟩ := min_regular (positive_of_not_refused h.2.1) hh
  rw [isFinite_ofFloat] at hcf hrf
  exact ⟨Axis.length_isCellCount hw hcf hcp, Axis.length_isCellCount hh hrf hrp⟩

/-- A built layout keeps the region, shrinks the cell sizes to its extents, which leaves them
finite and positive, and has at least one cell along each axis, with a number of cells that
fits 64 bits. -/
theorem new_eq_ok_spec {l : Layout} (h : new region cw ch = .ok l) : Built region cw ch l := by
  obtain ⟨hcw, hch, hw, hh, hr, hcwl, hchl, hcols, hrows⟩ := new_eq_ok h
  have hwn : ofFloat region.width ≠ .nan := by
    simp only [finitePositive, Bool.and_eq_true] at hw
    exact ne_nan_of_isFinite (by rw [← isFinite_ofFloat]; exact hw.1)
  have hhn : ofFloat region.height ≠ .nan := by
    simp only [finitePositive, Bool.and_eq_true] at hh
    exact ne_nan_of_isFinite (by rw [← isFinite_ofFloat]; exact hh.1)
  have hprod : l.columns * l.rows < 2^64 :=
    calc l.columns * l.rows ≤ 2147483647 * 2147483647 := Nat.mul_le_mul l.columns_le l.rows_le
      _ < 2^64 := by norm_num
  exact {
    region_eq := hr
    cellWidth_eq := hcwl
    cellHeight_eq := hchl
    cellWidth_pos := hcwl ▸ (min_regular hcw hw).2
    cellWidth_le := hcwl ▸ min_le_right_float hwn
    cellHeight_pos := hchl ▸ (min_regular hch hh).2
    cellHeight_le := hchl ▸ min_le_right_float hhn
    columns_eq := by rw [hcols, hcwl]
    rows_eq := by rw [hrows, hchl]
    one_le_columns := l.columns_pos
    one_le_rows := l.rows_pos
    cellCount_lt := hprod }

theorem grid_new_of_new {κ : Type} {l : Layout} (h : new region cw ch = .ok l) :
    Grid.new region cw ch = .ok (Grid.empty l : Grid κ) := by
  simp [Grid.new, h, Except.map]

theorem withSegments_nil_of_new {κ : Type} {l : Layout} (h : new region cw ch = .ok l) :
    Grid.withSegments region cw ch ([] : List (κ × Segment)) =
      .ok (Grid.empty l, [.created l.columns l.rows l.cellWidth l.cellHeight]) := by
  simp [Grid.withSegments, h, Except.map, Grid.insertAll, Event.ofLayout]

/-- Building a grid checks the cell sizes, then the region's extents, then the counts; the first
failing check names its value and nothing is reported, and a built grid has the counts, sizes,
empty buckets and single debug event of its layout. -/
theorem new_meets_spec {κ : Type} :
    (∀ e, new region cw ch = .error e ↔
      (RefusedSize cw ∧ e = .cellWidth cw) ∨
      (¬ RefusedSize cw ∧ RefusedSize ch ∧ e = .cellHeight ch) ∨
      (¬ RefusedSize cw ∧ ¬ RefusedSize ch ∧ RefusedExtent region.width ∧
        e = .regionWidth region.width) ∨
      (¬ RefusedSize cw ∧ ¬ RefusedSize ch ∧ ¬ RefusedExtent region.width ∧
        RefusedExtent region.height ∧ e = .regionHeight region.height) ∨
      (Admits region cw ch ∧
        (2147483647 < Axis.length region.width (min cw region.width) ∨
          2147483647 < Axis.length region.height (min ch region.height)) ∧
        e = .tooManyCells (Axis.length region.width (min cw region.width))
          (Axis.length region.height (min ch region.height)))) ∧
    (Admits region cw ch →
      Axis.IsCellCount region.width (min cw region.width)
          (Axis.length region.width (min cw region.width)) ∧
        Axis.IsCellCount region.height (min ch region.height)
          (Axis.length region.height (min ch region.height))) ∧
    ((∃ l, new region cw ch = .ok l) ↔
      Admits region cw ch ∧ Axis.length region.width (min cw region.width) ≤ 2147483647 ∧
        Axis.length region.height (min ch region.height) ≤ 2147483647) ∧
    (∀ l, new region cw ch = .ok l →
      Built region cw ch l ∧
      Grid.new region cw ch = .ok (Grid.empty l : Grid κ) ∧
      (Grid.empty l : Grid κ).buckets = Array.replicate (l.columns * l.rows) #[] ∧
      Grid.withSegments region cw ch ([] : List (κ × Segment)) =
        .ok (Grid.empty l, [.created l.columns l.rows l.cellWidth l.cellHeight])) ∧
    (∀ c r w h, (Event.created c r w h).level = .debug ∧
      (Event.created c r w h).message = "created segment grid") ∧
    (∀ e (xs : List (κ × Segment)), new region cw ch = .error e →
      Grid.withSegments region cw ch xs = .error e) := by
  refine ⟨new_eq_error_iff region cw ch, isCellCount_of_admits region cw ch,
    exists_new_eq_ok_iff region cw ch, fun l h => ?_, fun _ _ _ _ => ⟨rfl, rfl⟩,
    fun _ _ h => Grid.withSegments_error.mpr h⟩
  exact ⟨new_eq_ok_spec region cw ch h, grid_new_of_new region cw ch h, rfl,
    withSegments_nil_of_new region cw ch h⟩

theorem new_meets_spec_negative_zero :
    RefusedSize (-0.0) ∧ new ⟨0.0, 0.0, 1.0, 1.0⟩ (-0.0) 1.0 = .error (.cellWidth (-0.0)) :=
  ⟨by decide +kernel,
    ((new_meets_spec ⟨0.0, 0.0, 1.0, 1.0⟩ (-0.0) 1.0 (κ := Nat)).1 _).mpr
      (.inl ⟨by decide +kernel, rfl⟩)⟩

end Checks

end Layout

end GridIndex
