import GridIndex.Proofs.ClipInside
import GridIndex.Proofs.FloatFloor

/-!
# Cell boxes tile the plane

Along an axis, edge `n` is `origin + n · size` and the middle of cell `n` is
`origin + (n + 0.5) · size`, each product and sum rounded, and a product may overflow to an
infinity. Every 32-bit cell coordinate, and the one past the last, has magnitude below `2^53`,
so it converts to a float exactly (`toRat_ofInt`); from there rounding only has to keep order:

* converted integers are in order (`Binary.ofInt_le_ofInt`), so the edges never decrease and,
  as the origin is finite, never meet an infinity of the other sign and are never NaN;
* `n + 0.5` rounds between `n` and `n + 1` (`Binary.ofInt_add_half_between`), so the middle of a
  cell lies between its edges;
* `n + 1.0` is exact (`Binary.ofInt_add_one`), so the far side of a box, computed by adding one
  to the converted column, is the near side of the next box, computed from the next column.

`Axis.Tiles` collects these facts for one axis, and `Layout.cellBoxes_tile` states them for a
layout built by `Layout.new`, together with what follows for its boxes: ordered sides, sides
shared with the neighbours, and the centre inside the closed box.
-/

namespace GridIndex

set_option autoImplicit false

open Binary

namespace Binary

theorem ofInt_le_ofInt {c c' : Int} (h : c ≤ c') (hc : c.natAbs < 2^53) (hc' : c'.natAbs < 2^53) :
    Float.ofInt c ≤ Float.ofInt c' := by
  obtain ⟨hf, hv⟩ := toRat_ofInt hc
  obtain ⟨hf', hv'⟩ := toRat_ofInt hc'
  refine le_of_not_lt_float (ne_nan_of_isFinite hf') (ne_nan_of_isFinite hf) fun hlt => ?_
  rw [lt_iff_toRat hf' hf, hv, hv'] at hlt
  exact absurd h (not_le.mpr (by exact_mod_cast hlt))

theorem ofInt_add_half_between {c : Int} (hc : c.natAbs < 2^53) (hc₁ : (c + 1).natAbs < 2^53) :
    Float.ofInt c ≤ Float.ofInt c + 0.5 ∧ Float.ofInt c + 0.5 ≤ Float.ofInt (c + 1) := by
  obtain ⟨hf, hv⟩ := toRat_ofInt hc
  obtain ⟨hf₁, hv₁⟩ := toRat_ofInt hc₁
  obtain ⟨hs, hr⟩ := roundsTo_add hf (show (ofFloat 0.5).isFinite = true by decide)
  rw [hv, toRat_half] at hr
  have hlow : (ofFloat (Float.ofInt c)).rank ≤ (ofFloat (Float.ofInt c + 0.5)).rank :=
    (roundsTo_toRat hf).mono hr (by rw [hv]; linarith)
  have hhigh : (ofFloat (Float.ofInt c + 0.5)).rank ≤ (ofFloat (Float.ofInt (c + 1))).rank :=
    hr.mono (roundsTo_toRat hf₁) (by rw [hv₁]; push_cast; linarith)
  exact ⟨(le_iff_rank _ _).mpr ⟨ne_nan_of_isFinite hf, hs, hlow⟩,
    (le_iff_rank _ _).mpr ⟨hs, ne_nan_of_isFinite hf₁, hhigh⟩⟩

theorem ofInt_add_one {c : Int} (hc : c.natAbs < 2^53) (hc₁ : (c + 1).natAbs < 2^53) :
    Float.ofInt c + 1.0 = Float.ofInt (c + 1) := by
  obtain ⟨hf, hv⟩ := toRat_ofInt hc
  obtain ⟨hf₁, hv₁⟩ := toRat_ofInt hc₁
  obtain ⟨hs, hr⟩ := roundsTo_add hf (show (ofFloat 1.0).isFinite = true by decide)
  rw [hv, toRat_one] at hr
  have hk : (ofFloat (Float.ofInt c + 1.0)).rank = (ofFloat (Float.ofInt (c + 1))).rank :=
    hr.unique (by simpa [hv₁] using roundsTo_toRat hf₁)
  have hc₁' := canonical_ofFloat (ne_nan_of_isFinite hf₁)
  by_cases h0 : (ofFloat (Float.ofInt c + 1.0)).rank = 0
  · -- ranks do not tell the zeros apart: the sum is a zero only at `c = -1`, where both sides
    -- are the positive zero
    have hz := toRat_of_isZero (isZero_of_rank hc₁' hf₁ (hk ▸ h0))
    rw [hv₁] at hz
    obtain rfl : c = -1 := by
      have : c + 1 = 0 := by exact_mod_cast hz
      omega
    exact Float.toBits_inj.mp (by decide)
  · exact eq_of_ofFloat_eq (eq_of_rank_eq (canonical_ofFloat hs) hc₁' hk h0) hs

end Binary

theorem natAbs_lt_of_coord {c : Int} (h₀ : coordMin ≤ c) (h₁ : c ≤ coordMax) :
    c.natAbs < 2^53 ∧ (c + 1).natAbs < 2^53 := by
  unfold coordMin coordMax at *
  omega

namespace Axis

/-- How the cells of an axis tile it over the 32-bit cell coordinates: the edges never decrease
and are never NaN, the edge after cell `c` is the one computed by adding one to `c` as a float,
and the middle of each cell lies between its edges. -/
structure Tiles (a : Axis) : Prop where
  edge_mono : ∀ c c' : Int, coordMin ≤ c → c ≤ c' → c' ≤ coordMax → a.edge c ≤ a.edge c'
  edge_not_nan : ∀ c : Int, coordMin ≤ c → c ≤ coordMax → (a.edge c).isNaN = false
  edge_succ : ∀ c : Int, coordMin ≤ c → c ≤ coordMax →
    a.origin + (Float.ofInt c + 1.0) * a.size = a.edge (c + 1)
  middle_mem : ∀ c : Int, coordMin ≤ c → c ≤ coordMax →
    a.edge c ≤ a.middle c ∧ a.middle c ≤ a.edge (c + 1)

variable {a : Axis}

theorem edge_eq (a : Axis) (n : Int) : a.edge n = a.origin + Float.ofInt n * a.size := rfl

theorem middle_eq (a : Axis) (n : Int) : a.middle n = a.origin + (Float.ofInt n + 0.5) * a.size :=
  rfl

theorem Regular.shift_le_shift (ha : a.Regular) {t t' : Float} (h : t ≤ t') :
    a.origin + t * a.size ≤ a.origin + t' * a.size := by
  have ho : (ofFloat a.origin).isFinite = true := by rw [← isFinite_ofFloat]; exact ha.origin_finite
  have hs : (ofFloat a.size).isFinite = true := by rw [← isFinite_ofFloat]; exact ha.size_finite
  exact Binary.add_le_add_left ho (Binary.mul_le_mul_right hs ha.size_pos h)

theorem edge_le_edge_int (ha : a.Regular) {c c' : Int} (h : c ≤ c') (hc : c.natAbs < 2^53)
    (hc' : c'.natAbs < 2^53) : a.edge c ≤ a.edge c' := by
  have hle := ha.shift_le_shift (ofInt_le_ofInt h hc hc')
  rw [← edge_eq, ← edge_eq] at hle
  exact hle

theorem middle_between (ha : a.Regular) {c : Int} (hc : c.natAbs < 2^53)
    (hc₁ : (c + 1).natAbs < 2^53) : a.edge c ≤ a.middle c ∧ a.middle c ≤ a.edge (c + 1) := by
  obtain ⟨hlow, hhigh⟩ := ofInt_add_half_between hc hc₁
  have h₁ := ha.shift_le_shift hlow
  have h₂ := ha.shift_le_shift hhigh
  rw [← edge_eq, ← middle_eq] at h₁
  rw [← middle_eq, ← edge_eq] at h₂
  exact ⟨h₁, h₂⟩

/-- Every regular axis tiles. -/
theorem Regular.tiles (ha : a.Regular) : a.Tiles where
  edge_mono c c' h₀ h h₁ :=
    edge_le_edge_int ha h (natAbs_lt_of_coord h₀ (by omega)).1 (natAbs_lt_of_coord (by omega) h₁).1
  edge_not_nan c h₀ h₁ := by
    have hc := (natAbs_lt_of_coord h₀ h₁).1
    have hne := ne_nan_of_le_left (edge_le_edge_int ha (le_refl c) hc hc)
    exact Bool.eq_false_iff.mpr fun h => hne ((isNaN_ofFloat _).mp h)
  edge_succ c h₀ h₁ := by
    obtain ⟨hc, hc₁⟩ := natAbs_lt_of_coord h₀ h₁
    rw [edge_eq, ofInt_add_one hc hc₁]
  middle_mem c h₀ h₁ :=
    middle_between ha (natAbs_lt_of_coord h₀ h₁).1 (natAbs_lt_of_coord h₀ h₁).2

end Axis

namespace Layout

/-- The cell boxes of a built layout tile the plane: edges are ordered and never NaN, neighbours
share their sides exactly, and each centre lies in its box. -/
theorem cellBoxes_tile {region : Rect} {cw ch : Float} {l : Layout}
    (hl : Layout.new region cw ch = .ok l) :
    l.xAxis.Tiles ∧ l.yAxis.Tiles ∧
      ∀ col row : Int, coordMin ≤ col → col ≤ coordMax → coordMin ≤ row → row ≤ coordMax →
        (l.cellBox col row).x0 ≤ (l.cellBox col row).x1 ∧
        (l.cellBox col row).y0 ≤ (l.cellBox col row).y1 ∧
        ((l.cellBox col row).x1 == (l.cellBox (col + 1) row).x0) = true ∧
        ((l.cellBox col row).y1 == (l.cellBox col (row + 1)).y0) = true ∧
        (l.cellBox col row).contains (l.center col row) = true := by
  obtain ⟨hx, hy⟩ := regular_of_new hl
  refine ⟨hx.tiles, hy.tiles, fun col row hc₀ hc₁ hr₀ hr₁ => ?_⟩
  obtain ⟨hxl, hxh⟩ := hx.tiles.middle_mem col hc₀ hc₁
  obtain ⟨hyl, hyh⟩ := hy.tiles.middle_mem row hr₀ hr₁
  have hxn := ne_nan_of_le_right hxh
  have hyn := ne_nan_of_le_right hyh
  exact ⟨le_trans_float hxl hxh, le_trans_float hyl hyh, (beq_iff_rank _ _).mpr ⟨hxn, hxn, rfl⟩,
    (beq_iff_rank _ _).mpr ⟨hyn, hyn, rfl⟩, (Rect.contains_iff _ _).mpr ⟨hxl, hyl, hxh, hyh⟩⟩

/-- On a unit square cut into cells of `0.3`, whose last column runs past the region, the boxes
tile; in particular the greatest 32-bit column, in the row below the region, holds its centre. -/
theorem cellBoxes_tile_decimal :
    Layout.new ⟨0.0, 0.0, 1.0, 1.0⟩ 0.3 0.3 =
        .ok ⟨⟨0.0, 0.0, 1.0, 1.0⟩, 0.3, 0.3, 4, 4, by decide, by decide, by decide, by decide⟩ ∧
      (⟨⟨0.0, 0.0, 1.0, 1.0⟩, 0.3, 0.3, 4, 4, by decide, by decide, by decide, by decide⟩ :
        Layout).xAxis.Tiles ∧
      (Layout.cellBox ⟨⟨0.0, 0.0, 1.0, 1.0⟩, 0.3, 0.3, 4, 4, by decide, by decide, by decide,
          by decide⟩ coordMax (-1)).contains
        (Layout.center ⟨⟨0.0, 0.0, 1.0, 1.0⟩, 0.3, 0.3, 4, 4, by decide, by decide, by decide,
          by decide⟩ coordMax (-1)) = true := by
  have hl : Layout.new ⟨0.0, 0.0, 1.0, 1.0⟩ 0.3 0.3 =
      .ok ⟨⟨0.0, 0.0, 1.0, 1.0⟩, 0.3, 0.3, 4, 4, by decide, by decide, by decide, by decide⟩ :=
    rfl
  obtain ⟨hx, -, hbox⟩ := cellBoxes_tile hl
  exact ⟨hl, hx, (hbox coordMax (-1) (by decide) (by decide) (by decide) (by decide)).2.2.2.2⟩

end Layout

end GridIndex
