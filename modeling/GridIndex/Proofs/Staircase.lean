import GridIndex.Proofs.Insertion

/-!
# A walk is a staircase

Each step of a walk enters a neighbour whose centre is strictly nearer to the target, in the
squared distance as the walk computes it: the squared horizontal gap plus the squared vertical
one (`distTo_eq`). Two cells of a row share the vertical gap, so a step along a row makes the
horizontal gap strictly smaller, and a step along a column the vertical one (`steps_of_nearer`).

A walk that has stepped from column `i - 1` to column `i` has found the gap of `i` strictly below
that of `i - 1`, and a step back from `i` to `i - 1` would need the opposite. So along each axis
a walk never turns: its columns are monotone and so are its rows (`AxisStep.monotone`). Since
every step moves one cell along one axis, the two coordinates counted in the walk's directions
add up to one more at each step, so a walk has at most a column and a row of cells: a segment is
stored in at most `columns + rows - 1` cells (`place_length_le`), where the fuel of its walk
allows every cell of the grid.
-/

namespace GridIndex

set_option autoImplicit false

open Binary

namespace Axis

/-- The squared gap between `v` and the middle of cell `i`, as a walk computes it. -/
def gapSq (a : Axis) (v : Float) (i : Int) : Float := (v - a.middle i) * (v - a.middle i)

end Axis

/-! ## Steps along one axis -/

section OneAxis

variable {α : Type} (κ : α → Nat) (G : Int → Float)

/-- A step as seen along the coordinate `κ`: it keeps the coordinate, or moves it by one to
where the gap `G` is strictly smaller. -/
def AxisStep (a b : α) : Prop :=
  κ b = κ a ∨ (((κ b : Int) - κ a).natAbs = 1 ∧ G (κ b) < G (κ a))

variable {κ G}

theorem AxisStep.chain_up : ∀ {a : α} {cs : List α}, (a :: cs).IsChain (AxisStep κ G) →
    G (κ a) < G ((κ a : Int) - 1) → (a :: cs).IsChain fun x y => κ x ≤ κ y
  | a, [], _, _ => .singleton a
  | a, b :: cs, hc, hup => by
    rw [List.isChain_cons_cons] at hc ⊢
    rcases hc.1 with hs | ⟨hm, hlt⟩
    · refine ⟨Nat.le_of_eq hs.symm, chain_up hc.2 ?_⟩
      rw [hs]
      exact hup
    · rcases Int.natAbs_eq_iff.mp hm with hm | hm
      · have hb : (κ b : Int) - 1 = κ a := by omega
        exact ⟨by omega, chain_up hc.2 (by rw [hb]; exact hlt)⟩
      · have hb : (κ b : Int) = κ a - 1 := by omega
        rw [hb] at hlt
        exact absurd hup (lt_asymm_float hlt)

theorem AxisStep.chain_down : ∀ {a : α} {cs : List α}, (a :: cs).IsChain (AxisStep κ G) →
    G (κ a) < G ((κ a : Int) + 1) → (a :: cs).IsChain fun x y => κ y ≤ κ x
  | a, [], _, _ => .singleton a
  | a, b :: cs, hc, hdown => by
    rw [List.isChain_cons_cons] at hc ⊢
    rcases hc.1 with hs | ⟨hm, hlt⟩
    · refine ⟨Nat.le_of_eq hs, chain_down hc.2 ?_⟩
      rw [hs]
      exact hdown
    · rcases Int.natAbs_eq_iff.mp hm with hm | hm
      · have hb : (κ b : Int) = κ a + 1 := by omega
        rw [hb] at hlt
        exact absurd hdown (lt_asymm_float hlt)
      · have hb : (κ b : Int) + 1 = κ a := by omega
        exact ⟨by omega, chain_down hc.2 (by rw [hb]; exact hlt)⟩

/-- Along one axis a chain of steps never turns: the coordinate rises throughout or falls
throughout. -/
theorem AxisStep.monotone : ∀ {cs : List α}, cs.IsChain (AxisStep κ G) →
    (cs.IsChain fun x y => κ x ≤ κ y) ∨ (cs.IsChain fun x y => κ y ≤ κ x)
  | [], _ => .inl .nil
  | [a], _ => .inl (.singleton a)
  | a :: b :: cs, hc => by
    rw [List.isChain_cons_cons] at hc
    rcases hc.1 with hs | ⟨hm, hlt⟩
    · rcases monotone hc.2 with h | h
      · exact .inl (h.cons_cons (Nat.le_of_eq hs.symm))
      · exact .inr (h.cons_cons (Nat.le_of_eq hs))
    · rcases Int.natAbs_eq_iff.mp hm with hm | hm
      · have hb : (κ b : Int) - 1 = κ a := by omega
        exact .inl ((chain_up hc.2 (by rw [hb]; exact hlt)).cons_cons (by omega))
      · have hb : (κ b : Int) + 1 = κ a := by omega
        exact .inr ((chain_down hc.2 (by rw [hb]; exact hlt)).cons_cons (by omega))

end OneAxis

/-! ## Staircases of cells -/

/-- A list of cells that moves one cell along one axis at each step, never turning back along
either axis. -/
structure Staircase (cs : List Cell) : Prop where
  adjacent : cs.IsChain Cell.Adjacent
  cols : (cs.IsChain fun a b => a.col ≤ b.col) ∨ (cs.IsChain fun a b => b.col ≤ a.col)
  rows : (cs.IsChain fun a b => a.row ≤ b.row) ∨ (cs.IsChain fun a b => b.row ≤ a.row)

/-- The coordinate `n`, counted up when `u` holds and down otherwise. -/
def signed : Bool → Nat → Int
  | true, n => n
  | false, n => -(n : Int)

theorem isChain_signed {cs : List Cell} {κ : Cell → Nat}
    (h : (cs.IsChain fun a b => κ a ≤ κ b) ∨ (cs.IsChain fun a b => κ b ≤ κ a)) :
    ∃ u : Bool, cs.IsChain fun a b => signed u (κ a) ≤ signed u (κ b) := by
  rcases h with h | h
  · exact ⟨true, h.imp fun a b hab => by simp [signed]; omega⟩
  · exact ⟨false, h.imp fun a b hab => by simp [signed]; omega⟩

theorem isChain_and {α : Type} {R S : α → α → Prop} :
    ∀ {cs : List α}, cs.IsChain R → cs.IsChain S → cs.IsChain fun a b => R a b ∧ S a b
  | [], _, _ => .nil
  | [a], _, _ => .singleton a
  | a :: b :: cs, hR, hS => by
    rw [List.isChain_cons_cons] at hR hS ⊢
    exact ⟨⟨hR.1, hS.1⟩, isChain_and hR.2 hS.2⟩

theorem add_length_le_of_succ {α : Type} (φ : α → Int) (hi : Int) :
    ∀ (a : α) (cs : List α), (a :: cs).IsChain (fun x y => φ y = φ x + 1) →
      (∀ x ∈ a :: cs, φ x ≤ hi) → φ a + cs.length ≤ hi
  | a, [], _, hb => by simpa using hb a List.mem_cons_self
  | a, b :: cs, hc, hb => by
    rw [List.isChain_cons_cons] at hc
    have ih := add_length_le_of_succ φ hi b cs hc.2 fun x hx => hb x (List.mem_cons_of_mem a hx)
    simp only [List.length_cons, Nat.cast_add, Nat.cast_one]
    omega

/-- A staircase of cells of the grid has at most a column and a row of cells. -/
theorem Staircase.length_le {l : Layout} {cs : List Cell} (h : Staircase cs) (hw : ∀ c ∈ cs, l.Within c) :
    cs.length ≤ l.columns + l.rows - 1 := by
  obtain ⟨u, hu⟩ := isChain_signed h.cols
  obtain ⟨v, hv⟩ := isChain_signed h.rows
  -- the coordinates, each counted in the staircase's direction, add up to one more at each step
  let φ : Cell → Int := fun c => signed u c.col + signed v c.row
  let lo : Int := cond u 0 (1 - (l.columns : Int)) + cond v 0 (1 - (l.rows : Int))
  have hbounds : ∀ c ∈ cs, lo ≤ φ c ∧ φ c ≤ lo + (l.columns - 1) + (l.rows - 1) := by
    intro c hc
    have := hw c hc
    cases u <;> cases v <;> simp only [φ, lo, signed, cond, Layout.Within] at this ⊢ <;> omega
  have hstep : cs.IsChain fun a b => φ b = φ a + 1 := by
    refine (isChain_and h.adjacent (isChain_and hu hv)).imp fun a b ⟨hadj, hc, hr⟩ => ?_
    unfold Cell.Adjacent at hadj
    cases u <;> cases v <;> simp only [φ, signed] at hc hr ⊢ <;> omega
  cases cs with
  | nil => exact Nat.zero_le _
  | cons a cs =>
    have hlen := add_length_le_of_succ φ _ a cs hstep fun x hx => (hbounds x hx).2
    have hlo := (hbounds a List.mem_cons_self).1
    have := l.columns_pos
    have := l.rows_pos
    simp only [List.length_cons]
    omega

namespace Layout

variable {l : Layout} {target : Point}

theorem distTo_eq (c : Cell) :
    l.distTo target c = l.xAxis.gapSq target.x c.col + l.yAxis.gapSq target.y c.row := rfl

/-- A step to a strictly nearer neighbour, seen along each axis: along the axis it moves on, the
gap of the cell it enters is strictly smaller; along the other it stays. -/
theorem steps_of_nearer {a b : Cell} (hadj : a.Adjacent b)
    (h : l.distTo target b < l.distTo target a) :
    AxisStep Cell.col (l.xAxis.gapSq target.x) a b ∧
      AxisStep Cell.row (l.yAxis.gapSq target.y) a b := by
  unfold Cell.Adjacent at hadj
  rw [distTo_eq, distTo_eq] at h
  by_cases hr : b.row = a.row
  · rw [hr] at h
    exact ⟨.inr ⟨by omega, lt_of_add_lt_add_right_float h⟩, .inl hr⟩
  · have hc : b.col = a.col := by omega
    rw [hc] at h
    exact ⟨.inl hc, .inr ⟨by omega, lt_of_add_lt_add_left_float h⟩⟩

theorem staircase_of_nearer {cs : List Cell}
    (h : cs.IsChain fun a b => a.Adjacent b ∧ l.distTo target b < l.distTo target a) :
    Staircase cs where
  adjacent := h.imp fun _ _ hab => hab.1
  cols := AxisStep.monotone (h.imp fun _ _ hab => (steps_of_nearer hab.1 hab.2).1)
  rows := AxisStep.monotone (h.imp fun _ _ hab => (steps_of_nearer hab.1 hab.2).2)

variable {start : Point}

theorem walk_staircase (fuel : Nat) (p : Point) (c : Cell) :
    Staircase (l.walk start target fuel p c) :=
  staircase_of_nearer (walk_chain fuel p c)

/-- The cells a segment is placed in form a staircase. -/
theorem place_staircase (s : Segment) : Staircase (l.place s).cells := by
  unfold place
  split
  · exact ⟨.nil, .inl .nil, .inl .nil⟩
  · dsimp only
    split
    · exact ⟨.singleton _, .inl (.singleton _), .inl (.singleton _)⟩
    · exact walk_staircase _ _ _

/-- A segment is stored in at most `columns + rows - 1` cells. -/
theorem place_length_le (s : Segment) : (l.place s).cells.length ≤ l.columns + l.rows - 1 :=
  (place_staircase s).length_le (place_within s)

end Layout

end GridIndex
