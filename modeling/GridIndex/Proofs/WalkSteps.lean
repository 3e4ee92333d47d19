import GridIndex.Proofs.Locate
import GridIndex.Grid.Walk

/-!
# The steps of a walk

One step of a walk (`Layout.exit?`) looks at the crossings of the current cell's padded sides
and keeps the best neighbour beyond them. Every crossing steps one cell along one axis, and
`considerExit` keeps a neighbour only if it lies in the grid and its centre is strictly nearer
to the target than the best so far, which starts as the current cell. So each step enters a
cell of the grid that shares a side with the current one and whose centre is strictly nearer
to the target (`exit?_spec`).

By induction on the fuel the same holds along a whole walk: it stays in the grid
(`walk_within`) and each cell is adjacent to, and strictly nearer than, the one before
(`walk_chain`). So every cell a segment is placed in lies in the grid (`place_within`).
-/

namespace GridIndex

set_option autoImplicit false

open Binary

/-- Two cells that share a side: one step along exactly one axis. -/
def Cell.Adjacent (c c' : Cell) : Prop :=
  ((c'.col : Int) - c.col).natAbs + ((c'.row : Int) - c.row).natAbs = 1

instance (c c' : Cell) : Decidable (c.Adjacent c') := inferInstanceAs (Decidable (_ = _))

theorem Rect.step_of_mem_crossingsPadded {r : Rect} {s : Segment} {pad : Vec} {x : Crossing}
    (h : x ∈ r.crossingsPadded s pad) : x.dx.natAbs + x.dy.natAbs = 1 := by
  unfold crossingsPadded at h
  obtain ⟨⟨side, dx, dy⟩, hside, hx⟩ := List.mem_filterMap.mp h
  obtain ⟨p, -, rfl⟩ := Option.map_eq_some_iff.mp hx
  simp only [paddedSides, List.mem_cons, Prod.mk.injEq, List.not_mem_nil, or_false] at hside
  rcases hside with ⟨-, rfl, rfl⟩ | ⟨-, rfl, rfl⟩ | ⟨-, rfl, rfl⟩ | ⟨-, rfl, rfl⟩ <;> rfl

theorem Axis.contains_iff {a : Axis} {c : Int} : a.contains c = true ↔ 0 ≤ c ∧ c < a.count := by
  simp [contains]

namespace Layout

variable (l : Layout) (target : Point)

/-- The squared distance from the centre of cell `c` to `target`, as a walk computes it. -/
def distTo (c : Cell) : Float := (target - l.center c.col c.row).normSq

/-- `e` is an exit from cell `c` that a walk towards `target` may take when the best so far is
`here`: a neighbour across a side, in the grid, whose centre is strictly nearer. -/
structure Enters (c : Cell) (here : Float) (e : Exit) : Prop where
  col_mem : l.xAxis.contains e.col = true
  row_mem : l.yAxis.contains e.row = true
  step : (e.col - c.col).natAbs + (e.row - c.row).natAbs = 1
  dist_eq : e.dist = (target - l.center e.col e.row).normSq
  dist_lt : e.dist < here

variable {l target}

theorem considerExit_enters {here : Float} {c : Cell} {best : Option Exit} {x : Crossing}
    (hx : x.dx.natAbs + x.dy.natAbs = 1) (hbest : ∀ e, best = some e → l.Enters target c here e)
    (e : Exit) (he : l.considerExit target here c best x = some e) : l.Enters target c here e := by
  unfold considerExit at he
  dsimp only at he
  split at he
  · rename_i hin
    split at he
    · rename_i hlt
      cases he
      simp only [Bool.and_eq_true] at hin
      refine ⟨hin.1, hin.2, by simpa using hx, rfl, ?_⟩
      cases best with
      | none => exact hlt
      | some b => exact lt_of_lt_of_le_float hlt (le_of_lt_float (hbest b rfl).dist_lt)
    · exact hbest e he
  · exact hbest e he

theorem foldl_considerExit_enters {here : Float} {c : Cell} :
    ∀ (xs : List Crossing), (∀ x ∈ xs, x.dx.natAbs + x.dy.natAbs = 1) →
      ∀ (best : Option Exit), (∀ e, best = some e → l.Enters target c here e) →
        ∀ e, xs.foldl (l.considerExit target here c) best = some e → l.Enters target c here e
  | [], _, _, hbest => hbest
  | x :: xs, hxs, _, hbest =>
    foldl_considerExit_enters xs (fun y hy => hxs y (List.mem_cons_of_mem x hy)) _
      (considerExit_enters (hxs x List.mem_cons_self) hbest)

/-- One step of a walk enters a cell of the grid across a side of the current one, with its
centre strictly nearer to the target. -/
theorem exit?_spec {current p : Point} {c c' : Cell}
    (h : l.exit? target current c = some (p, c')) :
    l.Within c' ∧ c.Adjacent c' ∧ l.distTo target c' < l.distTo target c := by
  unfold exit? at h
  obtain ⟨e, he, hpc⟩ := Option.map_eq_some_iff.mp h
  have hent := foldl_considerExit_enters _
    (fun x hx => Rect.step_of_mem_crossingsPadded hx) none (by simp) e he
  obtain ⟨-, rfl⟩ := Prod.mk.inj hpc
  have hcol : 0 ≤ e.col ∧ e.col < l.columns := Axis.contains_iff.mp hent.col_mem
  have hrow : 0 ≤ e.row ∧ e.row < l.rows := Axis.contains_iff.mp hent.row_mem
  have hc : ((e.col.toNat : Nat) : Int) = e.col := Int.toNat_of_nonneg hcol.1
  have hr : ((e.row.toNat : Nat) : Int) = e.row := Int.toNat_of_nonneg hrow.1
  refine ⟨⟨show e.col.toNat < l.columns by omega, show e.row.toNat < l.rows by omega⟩, ?_, ?_⟩
  · unfold Cell.Adjacent
    rw [hc, hr]
    exact hent.step
  · unfold distTo
    rw [hc, hr, ← hent.dist_eq]
    exact hent.dist_lt

variable {start : Point}

/-- A walk from a cell of the grid stays in the grid. -/
theorem walk_within : ∀ (fuel : Nat) (p : Point) (c : Cell), l.Within c →
    ∀ d ∈ l.walk start target fuel p c, l.Within d
  | 0, _, _, _ => by simp [walk]
  | fuel + 1, p, c, hc => by
    intro d hd
    unfold walk at hd
    split at hd
    · rcases List.mem_cons.mp hd with rfl | hd
      · exact hc
      · split at hd
        · simp at hd
        · rename_i p' c' hexit
          exact walk_within fuel p' c' (exit?_spec hexit).1 d hd
    · simp at hd

theorem walk_head? : ∀ (fuel : Nat) (p : Point) (c : Cell),
    ∀ d ∈ (l.walk start target fuel p c).head?, d = c
  | 0, _, _ => by simp [walk]
  | fuel + 1, p, c => by
    unfold walk
    split <;> simp

/-- Each cell of a walk is adjacent to the one before, and strictly nearer to the target. -/
theorem walk_chain : ∀ (fuel : Nat) (p : Point) (c : Cell),
    (l.walk start target fuel p c).IsChain
      fun a b => a.Adjacent b ∧ l.distTo target b < l.distTo target a
  | 0, _, _ => by simp [walk]
  | fuel + 1, p, c => by
    unfold walk
    split
    · split
      · exact List.IsChain.singleton c
      · rename_i p' c' hexit
        have hspec := exit?_spec hexit
        refine List.IsChain.cons (walk_chain fuel p' c') ?_
        intro d hd
        rw [walk_head? fuel p' c' d hd]
        exact hspec.2
    · exact List.IsChain.nil

/-- Every cell a segment is placed in lies in the grid. -/
theorem place_within (s : Segment) : ∀ c ∈ (l.place s).cells, l.Within c := by
  intro c hc
  unfold place at hc
  split at hc
  · simp [Placement.cells] at hc
  · dsimp only at hc
    split at hc
    · simp only [Placement.cells, List.mem_singleton] at hc
      subst hc
      exact l.locate_within _ _
    · exact walk_within _ _ _ (l.locate_within _ _) c hc

end Layout

end GridIndex
