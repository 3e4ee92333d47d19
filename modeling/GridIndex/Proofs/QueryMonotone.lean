import GridIndex.Proofs.RangeQuery
import GridIndex.Proofs.FloatError

/-!
# A larger box searches more

Located with no heading, a coordinate goes to a cell that never decreases as the coordinate
grows (`Axis.locate_mono`). Where the coordinate grows strictly this follows from the edges that
hold the located cells (`Axis.Holds`); where two coordinates are equal as floats but differ in
their bits, `0.0` and `-0.0`, both take the same steps, since the division that starts the
search and every comparison after it see only the value (`Axis.locate_congr`).

So the cell of the lesser corner of a box is the lesser of the corners' cells, and a box whose
extent along each axis lies inside another's selects a block inside the other's block
(`Layout.range_cols_mono`, `Layout.range_rows_mono`). Its keys, listed row by row, are a sublist of the other's
(`Grid.visit_sublist`), and its answer a subset. Swapping the two corners' coordinates along an
axis selects the very same block.
-/

namespace GridIndex

set_option autoImplicit false

open Binary

namespace Axis

variable {a : Axis}

theorem coord_of_isZero {v : Float} (h : (ofFloat ((v - a.origin) / a.size)).IsZero) :
    a.coord v = 0 := by
  obtain ⟨n, hz⟩ := h
  have hlt : ¬ (v - a.origin) / a.size < 0.0 := by
    rw [lt_iff_rank, hz, Layout.ofFloat_zero]
    cases n <;> simp [rank]
  simp [coord, truncWithin, hz, floorMag_zero, clampInt, hlt, coordMin, coordMax]

theorem Regular.size_rank_ne_zero (ha : a.Regular) : (ofFloat a.size).rank ≠ 0 := by
  obtain ⟨-, -, hr⟩ := (lt_iff_rank _ _).mp ha.size_pos
  rw [Layout.ofFloat_zero, show (Binary.finite false 0 (-1074)).rank = 0 from rfl] at hr
  omega

theorem coord_congr (ha : a.Regular) {v w : Float} (h : (v == w) = true) : a.coord v = a.coord w := by
  have ho : (ofFloat a.origin).isFinite = true := by rw [← isFinite_ofFloat]; exact ha.origin_finite
  have hs : ofFloat a.size ≠ .nan := ne_nan_of_isFinite (by rw [← isFinite_ofFloat]; exact ha.size_finite)
  -- equal values are the same float, or two zeros of opposite signs
  rcases eq_or_isZero_of_beq h with rfl | ⟨hv, hw⟩
  · rfl
  rcases eq_or_isZero_of_beq (sub_beq_of_isZero hv hw ho) with heq | ⟨hz, hz'⟩
  · unfold coord
    rw [heq]
  · rw [coord_of_isZero (zero_div hz hs ha.size_rank_ne_zero),
      coord_of_isZero (zero_div hz' hs ha.size_rank_ne_zero)]

theorem settleDown_congr {v w : Float} (h : (v == w) = true) :
    ∀ c, a.settleDown v c = a.settleDown w c
  | 0 => rfl
  | c + 1 => by
    unfold settleDown
    by_cases hlt : v < a.edge (c + 1 : Nat)
    · rw [if_pos hlt, if_pos ((lt_congr_left h).mp hlt), settleDown_congr h c]
    · rw [if_neg hlt, if_neg (mt (lt_congr_left h).mpr hlt)]

theorem settleUp_congr {v w : Float} (h : (v == w) = true) :
    ∀ n c, a.settleUp v n c = a.settleUp w n c
  | 0, _ => rfl
  | n + 1, c => by
    unfold settleUp
    by_cases hlt : v > a.edge (c + 1 : Nat)
    · rw [if_pos hlt, if_pos ((lt_congr_right h).mp hlt), settleUp_congr h n (c + 1)]
    · rw [if_neg hlt, if_neg (mt (lt_congr_right h).mpr hlt)]

theorem locate_congr (ha : a.Regular) {v w : Float} (h : (v == w) = true) (hd : Float) :
    a.locate v hd = a.locate w hd := by
  simp only [locate, coord_congr ha h, settleDown_congr h, settleUp_congr h, le_congr_left h,
    GE.ge, le_congr_right h]

/-- With no heading, a larger coordinate is located in the same cell or a later one. -/
theorem locate_mono (ha : a.Regular) {v w : Float} (hv : ofFloat v ≠ .nan)
    (hw : ofFloat w ≠ .nan) (h : v ≤ w) : a.locate v 0.0 ≤ a.locate w 0.0 := by
  by_cases heq : (v == w) = true
  · rw [locate_congr ha heq]
  have hlt : v < w := by
    obtain ⟨-, -, hr⟩ := (le_iff_rank v w).mp h
    refine (lt_iff_rank v w).mpr ⟨hv, hw, lt_of_le_of_ne hr fun hr' => heq ?_⟩
    exact (beq_iff_rank v w).mpr ⟨hv, hw, hr'⟩
  rcases (locate_zero_holds ha hw).2 with hl | hup
  · rw [hl]
    exact a.locate_le_last v 0.0
  · exact (locate_zero_holds ha hv).le_of_lt_edge ha (a.locate_le_last v 0.0)
      (lt_of_lt_of_le_float hlt hup)

theorem min_locate (ha : a.Regular) {v w : Float} (hv : ofFloat v ≠ .nan) (hw : ofFloat w ≠ .nan) :
    min (a.locate v 0.0) (a.locate w 0.0) = a.locate (min v w) 0.0 := by
  show _ = a.locate (if v ≤ w then v else w) 0.0
  split
  · exact Nat.min_eq_left (locate_mono ha hv hw ‹_›)
  · exact Nat.min_eq_right (locate_mono ha hw hv (le_of_lt_float (lt_of_not_le_float hv hw ‹_›)))

theorem max_locate (ha : a.Regular) {v w : Float} (hv : ofFloat v ≠ .nan) (hw : ofFloat w ≠ .nan) :
    max (a.locate v 0.0) (a.locate w 0.0) = a.locate (max v w) 0.0 := by
  show _ = a.locate (if v ≤ w then w else v) 0.0
  split
  · exact Nat.max_eq_right (locate_mono ha hv hw ‹_›)
  · exact Nat.max_eq_left (locate_mono ha hw hv (le_of_lt_float (lt_of_not_le_float hv hw ‹_›)))

end Axis

namespace Layout

theorem range_colLo (l : Layout) (B : Rect) :
    (l.range B).colLo = min (l.xAxis.locate B.x0 0.0) (l.xAxis.locate B.x1 0.0) := by
  unfold range
  rfl

theorem range_colHi (l : Layout) (B : Rect) :
    (l.range B).colHi = max (l.xAxis.locate B.x0 0.0) (l.xAxis.locate B.x1 0.0) := by
  unfold range
  rfl

theorem range_rowLo (l : Layout) (B : Rect) :
    (l.range B).rowLo = min (l.yAxis.locate B.y0 0.0) (l.yAxis.locate B.y1 0.0) := by
  unfold range
  rfl

theorem range_rowHi (l : Layout) (B : Rect) :
    (l.range B).rowHi = max (l.yAxis.locate B.y0 0.0) (l.yAxis.locate B.y1 0.0) := by
  unfold range
  rfl

theorem range_colLo_le (l : Layout) (B : Rect) : (l.range B).colLo ≤ (l.range B).colHi := by
  rw [range_colLo, range_colHi]
  omega

theorem range_rowLo_le (l : Layout) (B : Rect) : (l.range B).rowLo ≤ (l.range B).rowHi := by
  rw [range_rowLo, range_rowHi]
  omega

theorem range_swap_x (l : Layout) (B : Rect) : l.range ⟨B.x1, B.y0, B.x0, B.y1⟩ = l.range B := by
  simp only [range, Rect.low, Rect.high, locate, Vec.zero, Nat.min_comm, Nat.max_comm]

theorem range_swap_y (l : Layout) (B : Rect) : l.range ⟨B.x0, B.y1, B.x1, B.y0⟩ = l.range B := by
  simp only [range, Rect.low, Rect.high, locate, Vec.zero, Nat.min_comm, Nat.max_comm]

variable {l : Layout} {A B : Rect}

theorem range_cols (hx : l.xAxis.Regular) (h₀ : ofFloat B.x0 ≠ .nan) (h₁ : ofFloat B.x1 ≠ .nan) :
    (l.range B).colLo = l.xAxis.locate (min B.x0 B.x1) 0.0 ∧
      (l.range B).colHi = l.xAxis.locate (max B.x0 B.x1) 0.0 :=
  ⟨(range_colLo l B).trans (Axis.min_locate hx h₀ h₁),
    (range_colHi l B).trans (Axis.max_locate hx h₀ h₁)⟩

theorem range_rows (hy : l.yAxis.Regular) (h₀ : ofFloat B.y0 ≠ .nan) (h₁ : ofFloat B.y1 ≠ .nan) :
    (l.range B).rowLo = l.yAxis.locate (min B.y0 B.y1) 0.0 ∧
      (l.range B).rowHi = l.yAxis.locate (max B.y0 B.y1) 0.0 :=
  ⟨(range_rowLo l B).trans (Axis.min_locate hy h₀ h₁),
    (range_rowHi l B).trans (Axis.max_locate hy h₀ h₁)⟩

/-- A box whose extent along the horizontal axis lies inside another's selects columns inside
the other's columns. -/
theorem range_cols_mono (hx : l.xAxis.Regular) (hA₀ : ofFloat A.x0 ≠ .nan)
    (hA₁ : ofFloat A.x1 ≠ .nan) (hB₀ : ofFloat B.x0 ≠ .nan) (hB₁ : ofFloat B.x1 ≠ .nan)
    (hlo : min B.x0 B.x1 ≤ min A.x0 A.x1) (hhi : max A.x0 A.x1 ≤ max B.x0 B.x1) :
    (l.range B).colLo ≤ (l.range A).colLo ∧ (l.range A).colHi ≤ (l.range B).colHi := by
  obtain ⟨hAlo, hAhi⟩ := range_cols hx hA₀ hA₁
  obtain ⟨hBlo, hBhi⟩ := range_cols hx hB₀ hB₁
  rw [hAlo, hAhi, hBlo, hBhi]
  exact ⟨Axis.locate_mono hx (ne_nan_of_le_left hlo) (ne_nan_of_le_right hlo) hlo,
    Axis.locate_mono hx (ne_nan_of_le_left hhi) (ne_nan_of_le_right hhi) hhi⟩

theorem range_rows_mono (hy : l.yAxis.Regular) (hA₀ : ofFloat A.y0 ≠ .nan)
    (hA₁ : ofFloat A.y1 ≠ .nan) (hB₀ : ofFloat B.y0 ≠ .nan) (hB₁ : ofFloat B.y1 ≠ .nan)
    (hlo : min B.y0 B.y1 ≤ min A.y0 A.y1) (hhi : max A.y0 A.y1 ≤ max B.y0 B.y1) :
    (l.range B).rowLo ≤ (l.range A).rowLo ∧ (l.range A).rowHi ≤ (l.range B).rowHi := by
  obtain ⟨hAlo, hAhi⟩ := range_rows hy hA₀ hA₁
  obtain ⟨hBlo, hBhi⟩ := range_rows hy hB₀ hB₁
  rw [hAlo, hAhi, hBlo, hBhi]
  exact ⟨Axis.locate_mono hy (ne_nan_of_le_left hlo) (ne_nan_of_le_right hlo) hlo,
    Axis.locate_mono hy (ne_nan_of_le_left hhi) (ne_nan_of_le_right hhi) hhi⟩

end Layout

theorem CellRange.span_sublist {lo hi lo' hi' : Nat} (h₁ : lo' ≤ lo) (h₂ : hi ≤ hi') (h : lo ≤ hi) :
    (CellRange.span lo hi).Sublist (CellRange.span lo' hi') := by
  unfold CellRange.span
  obtain ⟨d, rfl⟩ : ∃ d, lo = lo' + d := ⟨lo - lo', by omega⟩
  obtain ⟨e, he⟩ : ∃ e, hi' + 1 - lo' = d + (hi + 1 - (lo' + d)) + e :=
    ⟨hi' - hi, by omega⟩
  rw [he, ← List.range'_append, ← List.range'_append, Nat.one_mul]
  exact (List.sublist_append_right _ _).trans (List.sublist_append_left _ _)

namespace Grid

variable {κ : Type}

theorem visit_congr (g : Grid κ) {A B : Rect} (h : g.layout.range A = g.layout.range B) :
    g.visit A = g.visit B := by
  unfold visit
  rw [h]

theorem query_congr [Ord κ] [BEq κ] (g : Grid κ) {A B : Rect}
    (h : g.layout.range A = g.layout.range B) : g.query A = g.query B := by
  unfold query
  rw [g.visit_congr h]

/-- A block inside another lists its keys as a sublist of the other's. -/
theorem visit_sublist (g : Grid κ) {A B : Rect}
    (hc₀ : (g.layout.range B).colLo ≤ (g.layout.range A).colLo)
    (hc₁ : (g.layout.range A).colHi ≤ (g.layout.range B).colHi)
    (hr₀ : (g.layout.range B).rowLo ≤ (g.layout.range A).rowLo)
    (hr₁ : (g.layout.range A).rowHi ≤ (g.layout.range B).rowHi) :
    (g.visit A).Sublist (g.visit B) := by
  unfold visit
  -- fewer rows first, then fewer columns within each row
  refine ((CellRange.span_sublist hr₀ hr₁ (g.layout.range_rowLo_le A)).flatMap _).trans ?_
  exact List.Sublist.flatMap_right _ fun _ _ =>
    (CellRange.span_sublist hc₀ hc₁ (g.layout.range_colLo_le A)).flatMap _

/-- What a query over a box `A` inside a box `B` searches and answers, against `B`'s. -/
structure QueryMonotone [Ord κ] [BEq κ] (g : Grid κ) (A B : Rect) : Prop where
  col_lo : (g.layout.range B).colLo ≤ (g.layout.range A).colLo
  col_hi : (g.layout.range A).colHi ≤ (g.layout.range B).colHi
  row_lo : (g.layout.range B).rowLo ≤ (g.layout.range A).rowLo
  row_hi : (g.layout.range A).rowHi ≤ (g.layout.range B).rowHi
  visit_sublist : (g.visit A).Sublist (g.visit B)
  query_subset : ∀ k ∈ g.query A, k ∈ g.query B

theorem query_monotone [LinearOrder κ] {region : Rect} {cw ch : Float} (g : Grid κ)
    (hl : Layout.new region cw ch = .ok g.layout) {A B : Rect}
    (hA : A.x0.isNaN = false ∧ A.x1.isNaN = false ∧ A.y0.isNaN = false ∧ A.y1.isNaN = false)
    (hB : B.x0.isNaN = false ∧ B.x1.isNaN = false ∧ B.y0.isNaN = false ∧ B.y1.isNaN = false)
    (hx : min B.x0 B.x1 ≤ min A.x0 A.x1 ∧ max A.x0 A.x1 ≤ max B.x0 B.x1)
    (hy : min B.y0 B.y1 ≤ min A.y0 A.y1 ∧ max A.y0 A.y1 ≤ max B.y0 B.y1) :
    g.QueryMonotone A B ∧ g.query ⟨A.x1, A.y0, A.x0, A.y1⟩ = g.query A ∧
      g.query ⟨A.x0, A.y1, A.x1, A.y0⟩ = g.query A := by
  have nn {x : Float} (h : x.isNaN = false) : ofFloat x ≠ .nan :=
    (isNaN_ofFloat x).not.mp (Bool.eq_false_iff.mp h)
  obtain ⟨hxa, hya⟩ := Layout.regular_of_new hl
  obtain ⟨hc₀, hc₁⟩ := Layout.range_cols_mono hxa (nn hA.1) (nn hA.2.1) (nn hB.1) (nn hB.2.1) hx.1 hx.2
  obtain ⟨hr₀, hr₁⟩ :=
    Layout.range_rows_mono hya (nn hA.2.2.1) (nn hA.2.2.2) (nn hB.2.2.1) (nn hB.2.2.2) hy.1 hy.2
  have hsub := g.visit_sublist hc₀ hc₁ hr₀ hr₁
  refine ⟨⟨hc₀, hc₁, hr₀, hr₁, hsub, fun k hk => ?_⟩, g.query_congr (g.layout.range_swap_x A),
    g.query_congr (g.layout.range_swap_y A)⟩
  rw [mem_query] at hk ⊢
  exact hsub.subset hk

theorem query_monotone_unit :
    Layout.new ⟨0.0, 0.0, 4.0, 4.0⟩ 1.0 1.0 =
        .ok ⟨⟨0.0, 0.0, 4.0, 4.0⟩, 1.0, 1.0, 4, 4, by decide, by decide, by decide, by decide⟩ ∧
      (min (-0.0 : Float) 3.0 ≤ min 1.5 0.5 ∧ max (1.5 : Float) 0.5 ≤ max (-0.0) 3.0) ∧
      (min (3.0 : Float) 0.0 ≤ min 0.5 2.5 ∧ max (0.5 : Float) 2.5 ≤ max 3.0 0.0) ∧
      (Grid.empty (κ := Nat)
        ⟨⟨0.0, 0.0, 4.0, 4.0⟩, 1.0, 1.0, 4, 4, by decide, by decide, by decide, by decide⟩).QueryMonotone
        ⟨1.5, 0.5, 0.5, 2.5⟩ ⟨-0.0, 3.0, 3.0, 0.0⟩ := by
  have hx : min (-0.0 : Float) 3.0 ≤ min 1.5 0.5 ∧ max (1.5 : Float) 0.5 ≤ max (-0.0) 3.0 := by
    decide
  have hy : min (3.0 : Float) 0.0 ≤ min 0.5 2.5 ∧ max (0.5 : Float) 2.5 ≤ max 3.0 0.0 := by decide
  exact ⟨rfl, hx, hy, (@query_monotone Nat _ ⟨0.0, 0.0, 4.0, 4.0⟩ 1.0 1.0 _ rfl
    ⟨1.5, 0.5, 0.5, 2.5⟩ ⟨-0.0, 3.0, 3.0, 0.0⟩ ⟨rfl, rfl, rfl, rfl⟩ ⟨rfl, rfl, rfl, rfl⟩ hx hy).1⟩

end Grid

end GridIndex
