import GridIndex.Proofs.QueryMonotone

/-!
# A point on a grid line goes where its heading points

`locate` first searches for a cell whose computed edges hold the coordinate, as it does with no
heading (`Axis.locate_zero_holds`), and then moves by one cell when the coordinate sits on an
edge that the heading points across: back over the lower edge for a negative heading, on over
the upper edge for a positive one (`Axis.locate_eq_nudge`). The coordinate then equals the edge
crossed, so it still lies between the new cell's edges (`Axis.Holds.back`, `Axis.Holds.on`).

With any heading the located cell therefore holds the coordinate (`Axis.locate_holds`), and it
lies on the side the heading points to (`Axis.locate_ahead`, `Axis.locate_behind`): the
coordinate is not on the far edge of the cell unless the cell is the last one in that direction
or has no width, its two computed edges being equal. `Layout.locate_meets_spec` gathers these
facts for both axes of a layout built by `Layout.new`.
-/

namespace GridIndex

set_option autoImplicit false

open Binary

namespace Binary

theorem beq_of_le_of_le {x y : Float} (h : x ≤ y) (h' : y ≤ x) : (x == y) = true := by
  obtain ⟨hx, hy, hr⟩ := (le_iff_rank x y).mp h
  obtain ⟨-, -, hr'⟩ := (le_iff_rank y x).mp h'
  exact (beq_iff_rank x y).mpr ⟨hx, hy, by omega⟩

theorem not_lt_of_lt_float {x y : Float} (h : x < y) : ¬ y < x :=
  fun h' => lt_irrefl_float x (lt_of_lt_of_le_float h (le_of_lt_float h'))

end Binary

namespace Axis

variable {a : Axis}

/-- The coordinate lies below the upper edge of cell `c`, unless `c` is the last cell or has no
width. -/
def Ahead (a : Axis) (v : Float) (c : Nat) : Prop :=
  c = a.last ∨ v < a.edge (c + 1 : Nat) ∨ (a.edge c == a.edge (c + 1 : Nat)) = true

/-- The coordinate lies above the lower edge of cell `c`, unless `c` is the first cell or has no
width. -/
def Behind (a : Axis) (v : Float) (c : Nat) : Prop :=
  c = 0 ∨ a.edge c < v ∨ (a.edge c == a.edge (c + 1 : Nat)) = true

/-- `locate` with a heading is the cell found with none, moved by one across an edge that the
coordinate sits on and that the heading points over. -/
theorem locate_eq_nudge (a : Axis) (v h : Float) :
    a.locate v h =
      if h < 0.0 ∧ 0 < a.locate v 0.0 ∧ v ≤ a.edge (a.locate v 0.0) then a.locate v 0.0 - 1
      else if 0.0 < h ∧ a.locate v 0.0 < a.last ∧ a.edge (a.locate v 0.0 + 1 : Nat) ≤ v then
        a.locate v 0.0 + 1
      else a.locate v 0.0 := by
  rw [locate_zero_eq]
  simp only [locate, Bool.and_eq_true, decide_eq_true_eq, and_assoc, GT.gt, GE.ge]

theorem Holds.back (ha : a.Regular) {v : Float} {c : Nat} (h : a.Holds v c) (hc : 0 < c)
    (hle : v ≤ a.edge c) (hcl : c ≤ a.last) : a.Holds v (c - 1) := by
  have hlow : a.edge c ≤ v := h.1.resolve_left (by omega)
  have hmono := edge_le_edge ha (Nat.sub_le c 1) (by unfold last at hcl; omega)
  refine ⟨Or.inr (le_trans_float hmono hlow), Or.inr ?_⟩
  rw [show c - 1 + 1 = c by omega]
  exact hle

theorem Holds.on (ha : a.Regular) {v : Float} {c : Nat} (h : a.Holds v c) (hc : c < a.last)
    (hge : a.edge (c + 1 : Nat) ≤ v) : a.Holds v (c + 1) := by
  have hup : v ≤ a.edge (c + 1 : Nat) := h.2.resolve_left (by omega)
  refine ⟨Or.inr hge, ?_⟩
  rcases Nat.lt_or_ge (c + 1) a.last with hlt | hge'
  · exact Or.inr (le_trans_float hup (edge_le_edge ha (Nat.le_succ _) (by unfold last at hlt; omega)))
  · exact Or.inl (by omega)

/-- With any heading, `locate` gives a cell whose computed edges hold `v`. -/
theorem locate_holds (ha : a.Regular) {v : Float} (hv : ofFloat v ≠ .nan) (h : Float) :
    a.Holds v (a.locate v h) := by
  have h0 := locate_zero_holds ha hv
  rw [locate_eq_nudge]
  split
  · next hb => exact h0.back ha hb.2.1 hb.2.2 (a.locate_le_last v 0.0)
  · split
    · next hf => exact h0.on ha hf.2.1 hf.2.2
    · exact h0

/-- A positive heading leaves `v` below the upper edge of its cell, unless that cell is the last
or has no width. -/
theorem locate_ahead (ha : a.Regular) {v : Float} (hv : ofFloat v ≠ .nan) {h : Float}
    (hh : 0.0 < h) : a.Ahead v (a.locate v h) := by
  have h0 := locate_zero_holds ha hv
  have hl := a.locate_le_last v 0.0
  rw [locate_eq_nudge, if_neg fun hb => not_lt_of_lt_float hh hb.1]
  split
  · next hf =>
    obtain ⟨-, hlt, hge⟩ := hf
    have hvup : v ≤ a.edge (a.locate v 0.0 + 1 : Nat) := h0.2.resolve_left (by omega)
    refine (Nat.lt_or_ge (a.locate v 0.0 + 1) a.last).elim (fun hlt' => Or.inr ?_)
      (fun hge' => Or.inl (by omega))
    have hup := edge_le_edge ha (Nat.le_succ (a.locate v 0.0 + 1)) (by unfold last at hlt'; omega)
    by_cases hv' : v < a.edge (a.locate v 0.0 + 1 + 1 : Nat)
    · exact Or.inl hv'
    · have hle := le_of_not_lt_float hv
        (edge_ne_nan (c := a.locate v 0.0 + 1 + 1) ha (by unfold last at hlt'; omega)) hv'
      exact Or.inr (beq_of_le_of_le hup (le_trans_float hle hvup))
  · next hn =>
    rcases Nat.lt_or_ge (a.locate v 0.0) a.last with hlt | hge
    · have hnot : ¬ a.edge (a.locate v 0.0 + 1 : Nat) ≤ v := fun hle => hn ⟨hh, hlt, hle⟩
      have hne := edge_ne_nan (c := a.locate v 0.0 + 1) ha (by unfold last at hlt; omega)
      exact Or.inr (Or.inl (lt_of_not_le_float hne hv hnot))
    · exact Or.inl (by omega)

/-- A negative heading leaves `v` above the lower edge of its cell, unless that cell is the first
or has no width. -/
theorem locate_behind (ha : a.Regular) {v : Float} (hv : ofFloat v ≠ .nan) {h : Float}
    (hh : h < 0.0) : a.Behind v (a.locate v h) := by
  have h0 := locate_zero_holds ha hv
  have hl := a.locate_le_last v 0.0
  have hcount : a.last < a.count := by have := ha.count_pos; unfold last; omega
  rw [locate_eq_nudge]
  split
  · next hb =>
    obtain ⟨-, hpos, hle⟩ := hb
    have hvlow : a.edge (a.locate v 0.0) ≤ v := h0.1.resolve_left (by omega)
    have hsucc : a.locate v 0.0 - 1 + 1 = a.locate v 0.0 := by omega
    refine (Nat.eq_zero_or_pos (a.locate v 0.0 - 1)).elim (fun h0' => Or.inl h0')
      (fun _ => Or.inr ?_)
    have hlow := edge_le_edge ha (Nat.sub_le (a.locate v 0.0) 1) (by omega)
    by_cases hv' : a.edge (a.locate v 0.0 - 1 : Nat) < v
    · exact Or.inl hv'
    · have hge := le_of_not_lt_float (edge_ne_nan (c := a.locate v 0.0 - 1) ha (by omega)) hv hv'
      rw [hsucc]
      exact Or.inr (beq_of_le_of_le hlow (le_trans_float hvlow hge))
  · next hn =>
    rcases Nat.eq_zero_or_pos (a.locate v 0.0) with h0' | hpos
    · rw [if_neg fun hf => ?_]
      · exact Or.inl h0'
      · exact absurd hh (not_lt_of_lt_float hf.1)
    · have hnot : ¬ v ≤ a.edge (a.locate v 0.0) := fun hle => hn ⟨hh, hpos, hle⟩
      rw [if_neg fun hf => not_lt_of_lt_float hf.1 hh]
      exact Or.inr (Or.inl (lt_of_not_le_float hv (edge_ne_nan (c := a.locate v 0.0) ha (by omega)) hnot))

end Axis

namespace Layout

/-- Where `locate` puts a point of a layout built by `Layout.new`: in a cell of the grid whose
computed edges hold the point, on the side of any shared edge that the heading points to; and
with no heading, in a column and a row that never decrease as the point moves right or up. -/
theorem locate_meets_spec {region : Rect} {cw ch : Float} {l : Layout}
    (hl : Layout.new region cw ch = .ok l) (p : Point) (hd : Vec)
    (hx : ofFloat p.x ≠ .nan) (hy : ofFloat p.y ≠ .nan) :
    l.Within (l.locate p hd) ∧
      l.xAxis.Holds p.x (l.locate p hd).col ∧ l.yAxis.Holds p.y (l.locate p hd).row ∧
      (0.0 < hd.x → l.xAxis.Ahead p.x (l.locate p hd).col) ∧
      (hd.x < 0.0 → l.xAxis.Behind p.x (l.locate p hd).col) ∧
      (0.0 < hd.y → l.yAxis.Ahead p.y (l.locate p hd).row) ∧
      (hd.y < 0.0 → l.yAxis.Behind p.y (l.locate p hd).row) ∧
      (∀ p' : Point, p.x ≤ p'.x → (l.locate p Vec.zero).col ≤ (l.locate p' Vec.zero).col) ∧
      (∀ p' : Point, p.y ≤ p'.y → (l.locate p Vec.zero).row ≤ (l.locate p' Vec.zero).row) := by
  obtain ⟨hrx, hry⟩ := regular_of_new hl
  refine ⟨l.locate_within p hd, Axis.locate_holds hrx hx hd.x, Axis.locate_holds hry hy hd.y,
    Axis.locate_ahead hrx hx, Axis.locate_behind hrx hx, Axis.locate_ahead hry hy,
    Axis.locate_behind hry hy, fun p' h => ?_, fun p' h => ?_⟩
  · exact Axis.locate_mono hrx hx (ne_nan_of_le_right h) h
  · exact Axis.locate_mono hry hy (ne_nan_of_le_right h) h

/-- On a grid of four columns over `[0, 1]`, a point on the grid line `0.5` heading left goes
to column `1`, whose lower edge lies below it. -/
theorem locate_meets_spec_heading_left :
    Layout.new ⟨0.0, 0.0, 1.0, 1.0⟩ 0.25 1.0 =
        .ok ⟨⟨0.0, 0.0, 1.0, 1.0⟩, 0.25, 1.0, 4, 1, by decide, by decide, by decide, by decide⟩ ∧
      ofFloat 0.5 ≠ .nan ∧ (-1.0 : Float) < 0.0 ∧
      (⟨⟨0.0, 0.0, 1.0, 1.0⟩, 0.25, 1.0, 4, 1, by decide, by decide, by decide, by decide⟩ :
        Layout).xAxis.Behind 0.5
        (Layout.locate ⟨⟨0.0, 0.0, 1.0, 1.0⟩, 0.25, 1.0, 4, 1, by decide, by decide, by decide,
          by decide⟩ ⟨0.5, 0.5⟩ ⟨-1.0, 0.0⟩).col := by
  have hl : Layout.new ⟨0.0, 0.0, 1.0, 1.0⟩ 0.25 1.0 =
      .ok ⟨⟨0.0, 0.0, 1.0, 1.0⟩, 0.25, 1.0, 4, 1, by decide, by decide, by decide, by decide⟩ :=
    rfl
  have hv : ofFloat 0.5 ≠ .nan := by decide
  have hh : (-1.0 : Float) < 0.0 := by decide
  exact ⟨hl, hv, hh, (locate_meets_spec hl ⟨0.5, 0.5⟩ ⟨-1.0, 0.0⟩ hv hv).2.2.2.2.1 hh⟩

end Layout

end GridIndex
