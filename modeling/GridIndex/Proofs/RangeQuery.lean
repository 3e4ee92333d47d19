import GridIndex.Proofs.Locate
import GridIndex.Grid.Query

/-!
# What a range query searches

A box `B` selects the block `Layout.range B` of cells. Along each axis the block is the span
between the cells of the box's two corners, so by `Axis.covers_locate` it holds every column
(row) whose interior meets the box's extent on that axis, and every one of its columns (rows)
reaches the extent, its edges compared as floats.

`Grid.visit` reads the block row by row, and `Grid.query` keeps each key once, in ascending
order: removing repeats from a sorted list leaves a strictly ascending list with the same
members (`pairwise_eraseReps`, `mem_eraseReps`). `Grid.cells` lists every cell of the grid once,
in the same row-major order.
-/

namespace GridIndex

set_option autoImplicit false

open Binary

section EraseReps

variable {α : Type}

theorem eraseRepsBy_loop_acc (r : α → α → Bool) (a : α) (l acc : List α) :
    List.eraseRepsBy.loop r a l acc = acc.reverse ++ List.eraseRepsBy.loop r a l [] := by
  induction l generalizing a acc with
  | nil => simp [List.eraseRepsBy.loop]
  | cons b l ih =>
    rw [List.eraseRepsBy.loop.eq_2, List.eraseRepsBy.loop.eq_2]
    cases r a b
    · rw [ih b (a :: acc), ih b [a]]
      simp
    · exact ih a acc

theorem eraseRepsBy_loop_cons (r : α → α → Bool) (a b : α) (l : List α) :
    List.eraseRepsBy.loop r a (b :: l) [] =
      if r a b then List.eraseRepsBy.loop r a l [] else a :: List.eraseRepsBy.loop r b l [] := by
  rw [List.eraseRepsBy.loop.eq_2]
  cases r a b
  · simp only [Bool.false_eq_true, if_false]
    rw [eraseRepsBy_loop_acc r b l [a]]
    rfl
  · rfl

variable [LinearOrder α]

theorem mem_eraseReps_loop (a x : α) (l : List α) :
    x ∈ List.eraseRepsBy.loop (fun y z => y == z) a l [] ↔ x ∈ a :: l := by
  induction l generalizing a with
  | nil => simp [List.eraseRepsBy.loop]
  | cons b l ih =>
    rw [eraseRepsBy_loop_cons]
    by_cases hab : a = b
    · subst hab
      simp [ih]
    · simp [hab, ih]

theorem pairwise_eraseReps_loop {a : α} {l : List α} (h : (a :: l).Pairwise (· ≤ ·)) :
    (List.eraseRepsBy.loop (fun y z => y == z) a l []).Pairwise (· < ·) := by
  induction l generalizing a with
  | nil => simp [List.eraseRepsBy.loop]
  | cons b l ih =>
    rw [eraseRepsBy_loop_cons]
    have hb : (b :: l).Pairwise (· ≤ ·) := h.of_cons
    by_cases hab : a = b
    · subst hab
      simp only [beq_self_eq_true, if_true]
      exact ih (h.sublist (.cons_cons a (.cons a (List.Sublist.refl l))))
    · have hlt : a < b := lt_of_le_of_ne (List.rel_of_pairwise_cons h List.mem_cons_self) hab
      simp only [beq_iff_eq, hab, if_false]
      refine List.Pairwise.cons ?_ (ih hb)
      intro y hy
      rcases List.mem_cons.mp ((mem_eraseReps_loop b y l).mp hy) with rfl | hy
      · exact hlt
      · exact lt_of_lt_of_le hlt (List.rel_of_pairwise_cons hb hy)

theorem mem_eraseReps {x : α} {l : List α} : x ∈ l.eraseReps ↔ x ∈ l := by
  cases l with
  | nil => rfl
  | cons a l => exact mem_eraseReps_loop a x l

/-- Removing repeats from an ascending list leaves a strictly ascending one. -/
theorem pairwise_eraseReps {l : List α} (h : l.Pairwise (· ≤ ·)) :
    l.eraseReps.Pairwise (· < ·) := by
  cases l with
  | nil => exact List.Pairwise.nil
  | cons a l => exact pairwise_eraseReps_loop h

end EraseReps

theorem range_mul_eq_flatMap (n m : Nat) :
    List.range (n * m) = (List.range m).flatMap fun r => (List.range n).map fun c => c + r * n := by
  induction m with
  | zero => simp
  | succ m ih =>
    rw [Nat.mul_succ, List.range_add, ih, List.range_succ, List.flatMap_append]
    simp [Nat.add_comm, Nat.mul_comm]

namespace Layout

theorem cellAt_index {l : Layout} {c : Cell} (hc : c.col < l.columns) : l.cellAt (l.index c) = c := by
  have hpos : 0 < l.columns := l.columns_pos
  simp only [cellAt, index]
  rw [Nat.add_mul_mod_self_right, Nat.mod_eq_of_lt hc, Nat.add_mul_div_right _ _ hpos,
    Nat.div_eq_of_lt hc, Nat.zero_add]

theorem within_cellAt {l : Layout} {i : Nat} (hi : i < l.cellCount) : l.Within (l.cellAt i) := by
  have hpos : 0 < l.columns := l.columns_pos
  refine ⟨Nat.mod_lt _ hpos, ?_⟩
  show i / l.columns < l.rows
  rw [Nat.div_lt_iff_lt_mul hpos, Nat.mul_comm]
  exact hi

theorem index_cellAt (l : Layout) (i : Nat) : l.index (l.cellAt i) = i := by
  simp only [index, cellAt]
  rw [Nat.mul_comm]
  exact Nat.mod_add_div i l.columns

theorem range_colHi_lt (l : Layout) (B : Rect) : (l.range B).colHi < l.columns :=
  max_lt (l.locate_within _ _).1 (l.locate_within _ _).1

theorem range_rowHi_lt (l : Layout) (B : Rect) : (l.range B).rowHi < l.rows :=
  max_lt (l.locate_within _ _).2 (l.locate_within _ _).2

theorem range_covers_columns {l : Layout} (hx : l.xAxis.Regular) {B : Rect}
    (h₀ : ofFloat B.x0 ≠ .nan) (h₁ : ofFloat B.x1 ≠ .nan) :
    l.xAxis.Covers (min B.x0 B.x1) (max B.x0 B.x1) (l.range B).colLo (l.range B).colHi :=
  Axis.covers_locate hx h₀ h₁

theorem range_covers_rows {l : Layout} (hy : l.yAxis.Regular) {B : Rect}
    (h₀ : ofFloat B.y0 ≠ .nan) (h₁ : ofFloat B.y1 ≠ .nan) :
    l.yAxis.Covers (min B.y0 B.y1) (max B.y0 B.y1) (l.range B).rowLo (l.range B).rowHi :=
  Axis.covers_locate hy h₀ h₁

end Layout

theorem mem_span {lo hi n : Nat} : n ∈ CellRange.span lo hi ↔ lo ≤ n ∧ n ≤ hi := by
  simp only [CellRange.span, List.mem_range'_1]
  omega

namespace Grid

variable {κ : Type}

theorem itemsInCell_eq (g : Grid κ) {c r : Nat} (hc : c < g.layout.columns) (hr : r < g.layout.rows) :
    g.itemsInCell c r = some (g.bucket ⟨c, r⟩) :=
  if_pos ⟨hc, hr⟩

theorem itemsInCell_eq_some {g : Grid κ} {c r : Nat} {ks : Array κ} (h : g.itemsInCell c r = some ks) :
    g.layout.Within ⟨c, r⟩ ∧ ks = g.bucket ⟨c, r⟩ := by
  unfold itemsInCell at h
  split at h
  · exact ⟨‹_›, (Option.some.inj h).symm⟩
  · exact absurd h (by simp)

theorem visit_eq (g : Grid κ) (B : Rect) :
    g.visit B = (CellRange.span (g.layout.range B).rowLo (g.layout.range B).rowHi).flatMap
      fun r => (CellRange.span (g.layout.range B).colLo (g.layout.range B).colHi).flatMap
        fun c => ((g.itemsInCell c r).getD #[]).toList := by
  apply List.flatMap_congr
  intro r hr
  apply List.flatMap_congr
  intro c hc
  have hr' : r < g.layout.rows :=
    lt_of_le_of_lt (mem_span.mp hr).2 (g.layout.range_rowHi_lt B)
  have hc' : c < g.layout.columns :=
    lt_of_le_of_lt (mem_span.mp hc).2 (g.layout.range_colHi_lt B)
  rw [g.itemsInCell_eq hc' hr', Option.getD_some]

theorem bucket_cellAt (g : Grid κ) (i : Nat) :
    g.bucket (g.layout.cellAt i) = g.buckets[i]?.getD #[] := by
  simp only [bucket, Layout.index_cellAt]

theorem cells_eq (g : Grid κ) :
    g.cells = (List.range g.layout.rows).flatMap fun r =>
      (List.range g.layout.columns).map fun c => ((⟨c, r⟩ : Cell), (g.itemsInCell c r).getD #[]) := by
  unfold cells Layout.cellCount
  rw [range_mul_eq_flatMap, List.map_flatMap]
  apply List.flatMap_congr
  intro r hr
  rw [List.map_map]
  apply List.map_congr_left
  intro c hc
  have hc' : c < g.layout.columns := List.mem_range.mp hc
  have hr' : r < g.layout.rows := List.mem_range.mp hr
  have hcell : g.layout.cellAt (c + r * g.layout.columns) = ⟨c, r⟩ :=
    Layout.cellAt_index (c := ⟨c, r⟩) hc'
  simp only [Function.comp_apply, g.itemsInCell_eq hc' hr', Option.getD_some, ← bucket_cellAt,
    hcell]

theorem cells_map_fst (g : Grid κ) :
    g.cells.map Prod.fst = (List.range g.layout.cellCount).map g.layout.cellAt := by
  simp [cells, Function.comp_def]

theorem cells_nodup (g : Grid κ) : (g.cells.map Prod.fst).Nodup := by
  rw [cells_map_fst]
  apply List.Nodup.map_on _ List.nodup_range
  intro i _ j _ h
  rw [← g.layout.index_cellAt i, ← g.layout.index_cellAt j, h]

theorem mem_cells (g : Grid κ) (c : Cell) : c ∈ g.cells.map Prod.fst ↔ g.layout.Within c := by
  rw [cells_map_fst, List.mem_map]
  constructor
  · rintro ⟨i, hi, rfl⟩
    exact Layout.within_cellAt (List.mem_range.mp hi)
  · intro hc
    exact ⟨g.layout.index c, List.mem_range.mpr (Layout.index_lt hc), Layout.cellAt_index hc.1⟩

variable [LinearOrder κ]

theorem compare_ne_gt {a b : κ} : (compare a b != .gt) = true ↔ a ≤ b := by
  simp [compare_gt_iff_gt]

theorem mem_query (g : Grid κ) (B : Rect) (k : κ) : k ∈ g.query B ↔ k ∈ g.visit B := by
  unfold query
  rw [mem_eraseReps, List.mem_mergeSort]

/-- `query` lists each key once, in ascending order. -/
theorem query_sorted (g : Grid κ) (B : Rect) : (g.query B).Pairwise (· < ·) := by
  apply pairwise_eraseReps
  have hsorted := @List.pairwise_mergeSort κ (fun a b => compare a b != .gt)
    (fun a b c hab hbc => compare_ne_gt.mpr (le_trans (compare_ne_gt.mp hab) (compare_ne_gt.mp hbc)))
    (fun a b => by
      rcases le_total a b with h | h
      · simp [compare_ne_gt.mpr h]
      · simp [compare_ne_gt.mpr h])
    (g.visit B)
  exact hsorted.imp compare_ne_gt.mp

/-- Every key stored in a cell whose interior meets the box is in the query's answer. -/
theorem mem_query_of_overlap (g : Grid κ) {B : Rect}
    (hx : g.layout.xAxis.Covers (min B.x0 B.x1) (max B.x0 B.x1)
      (g.layout.range B).colLo (g.layout.range B).colHi)
    (hy : g.layout.yAxis.Covers (min B.y0 B.y1) (max B.y0 B.y1)
      (g.layout.range B).rowLo (g.layout.range B).rowHi)
    {c r : Nat} {ks : Array κ} (hks : g.itemsInCell c r = some ks)
    (hc₀ : g.layout.xAxis.edge c < max B.x0 B.x1) (hc₁ : min B.x0 B.x1 < g.layout.xAxis.edge (c + 1 : Nat))
    (hr₀ : g.layout.yAxis.edge r < max B.y0 B.y1) (hr₁ : min B.y0 B.y1 < g.layout.yAxis.edge (r + 1 : Nat))
    {k : κ} (hk : k ∈ ks) : k ∈ g.query B := by
  obtain ⟨⟨hc, hr⟩, rfl⟩ := itemsInCell_eq_some hks
  have hcol := hx.overlap c hc hc₀ hc₁
  have hrow := hy.overlap r hr hr₀ hr₁
  rw [mem_query]
  simp only [visit, List.mem_flatMap]
  exact ⟨r, mem_span.mpr hrow, c, mem_span.mpr hcol, Array.mem_toList_iff.mpr hk⟩

/-- What a query over the box `B` does: it reads, row by row, a block of cells that covers `B`
along both axes, and answers the set of keys read; `cells` lists all cells in the same order. -/
structure QuerySpec (g : Grid κ) (B : Rect) : Prop where
  block : ∃ c₀ c₁ r₀ r₁,
    g.layout.xAxis.Covers (min B.x0 B.x1) (max B.x0 B.x1) c₀ c₁ ∧
    g.layout.yAxis.Covers (min B.y0 B.y1) (max B.y0 B.y1) r₀ r₁ ∧
    g.visit B = (CellRange.span r₀ r₁).flatMap fun r =>
      (CellRange.span c₀ c₁).flatMap fun c => ((g.itemsInCell c r).getD #[]).toList
  answers : ∀ k, k ∈ g.query B ↔ k ∈ g.visit B
  ascending : (g.query B).Pairwise (· < ·)
  all_cells : g.cells = (List.range g.layout.rows).flatMap fun r =>
    (List.range g.layout.columns).map fun c => ((⟨c, r⟩ : Cell), (g.itemsInCell c r).getD #[])
  cells_once : (g.cells.map Prod.fst).Nodup
  overlapped : ∀ c r ks, g.itemsInCell c r = some ks →
    g.layout.xAxis.edge c < max B.x0 B.x1 → min B.x0 B.x1 < g.layout.xAxis.edge (c + 1 : Nat) →
    g.layout.yAxis.edge r < max B.y0 B.y1 → min B.y0 B.y1 < g.layout.yAxis.edge (r + 1 : Nat) →
    ∀ k ∈ ks, k ∈ g.query B

theorem query_meets_spec {region : Rect} {cw ch : Float} (g : Grid κ)
    (hl : Layout.new region cw ch = .ok g.layout) (B : Rect)
    (hB : B.x0.isNaN = false ∧ B.x1.isNaN = false ∧ B.y0.isNaN = false ∧ B.y1.isNaN = false) :
    g.QuerySpec B := by
  obtain ⟨hx₀, hx₁, hy₀, hy₁⟩ := hB
  obtain ⟨hxa, hya⟩ := Layout.regular_of_new hl
  have hx := Layout.range_covers_columns hxa
    ((isNaN_ofFloat _).not.mp (Bool.eq_false_iff.mp hx₀)) ((isNaN_ofFloat _).not.mp (Bool.eq_false_iff.mp hx₁))
  have hy := Layout.range_covers_rows hya
    ((isNaN_ofFloat _).not.mp (Bool.eq_false_iff.mp hy₀)) ((isNaN_ofFloat _).not.mp (Bool.eq_false_iff.mp hy₁))
  refine ⟨⟨_, _, _, _, hx, hy, g.visit_eq B⟩, g.mem_query B, g.query_sorted B, g.cells_eq,
    g.cells_nodup, ?_⟩
  intro c r ks hks hc₀ hc₁ hr₀ hr₁ k hk
  exact g.mem_query_of_overlap hx hy hks hc₀ hc₁ hr₀ hr₁ hk

theorem query_meets_spec_unit :
    Layout.new ⟨0.0, 0.0, 4.0, 4.0⟩ 1.0 1.0 =
        .ok ⟨⟨0.0, 0.0, 4.0, 4.0⟩, 1.0, 1.0, 4, 4, by decide, by decide, by decide, by decide⟩ ∧
      (Grid.empty (κ := Nat)
        ⟨⟨0.0, 0.0, 4.0, 4.0⟩, 1.0, 1.0, 4, 4, by decide, by decide, by decide, by decide⟩).QuerySpec
        ⟨3.5, -1.0, 0.5, 2.0⟩ :=
  ⟨rfl, @query_meets_spec Nat _ ⟨0.0, 0.0, 4.0, 4.0⟩ 1.0 1.0 _ rfl _ ⟨rfl, rfl, rfl, rfl⟩⟩

end Grid

end GridIndex
