import GridIndex.Proofs.QueryMonotone
import GridIndex.Proofs.ClipStart

/-!
# Querying the whole region

A query over the region itself locates the region's lower corner in cell `(0, 0)`: the
coordinate lies on edge `0`, and the search never steps up past an edge it does not exceed
(`Axis.locate_origin`).

The upper corner starts from the last cell. Along each axis the count of cells is the extent
divided by the cell size and rounded up, and the coordinate of the upper corner by division is
the same quotient rounded down, so clamped it is the last cell (`Axis.clamp_coord_far`). From
there the search steps down past every cell whose lower edge, as computed, lies above the
region's far side (`Axis.settleDown_above`). The extent is itself a rounded difference, and when
it rounds up the last cell can start beyond the far side; such a cell is not searched.

So the query reads exactly the cells whose lower edges lie within the region, each once, and
answers the keys stored in them (`Grid.query_whole_region`). It answers every stored key when
the last edges lie within the region. When one does not, a segment that meets the region only
inside the cells beyond is stored there and left out of the answer.
-/

namespace GridIndex

set_option autoImplicit false

open Binary

theorem Binary.ceilMag_le_floorMag_succ (m : Nat) (q : Int) : ceilMag m q ≤ floorMag m q + 1 := by
  unfold ceilMag floorMag
  split
  · omega
  · have hpos : 0 < Nat.pow 2 (-q).toNat := Nat.pow_pos (by decide)
    calc (m + Nat.pow 2 (-q).toNat - 1) / Nat.pow 2 (-q).toNat
        ≤ (m + Nat.pow 2 (-q).toNat) / Nat.pow 2 (-q).toNat := Nat.div_le_div_right (by omega)
      _ = m / Nat.pow 2 (-q).toNat + 1 := Nat.add_div_right m hpos

theorem Binary.not_lt_zero_of_ceilWithin_pos {t : Float} {hi : Int} (h : 0 < ceilWithin 0 hi t) :
    ¬ t < 0.0 := by
  rw [lt_iff_rank, Layout.ofFloat_zero]
  unfold ceilWithin at h
  rintro ⟨-, -, hr⟩
  cases hb : ofFloat t with
  | nan => simp [hb] at h
  | inf neg => cases neg <;> simp [hb, rank] at h hr
  | finite neg m q =>
    cases neg
    · have hq := (canon_of_ofFloat hb).1.1
      simp [hb, rank] at hr
      omega
    · simp only [hb, ceilOf, clampInt, if_true] at h
      omega

theorem Binary.ceilWithin_le_truncWithin_succ {t : Float} {lo hi hi' : Int} (hlo : lo ≤ 0)
    (hpos : 0 < ceilWithin 0 hi t) (hle : ceilWithin 0 hi t ≤ hi') :
    ceilWithin 0 hi t ≤ truncWithin lo hi' t + 1 := by
  unfold ceilWithin truncWithin at *
  cases hb : ofFloat t with
  | nan => simp [hb] at hpos
  | inf neg =>
    cases neg
    · simp [hb] at hle ⊢
      omega
    · simp [hb] at hpos
  | finite neg m q =>
    have hcf := ceilMag_le_floorMag_succ m q
    cases neg <;> simp only [hb, ceilOf, clampInt, Bool.false_eq_true, if_false, if_true]
      at hpos hle ⊢
    all_goals omega

namespace Axis

variable {a : Axis}

theorem clamp_eq_last {c : Int} (h : (a.last : Int) ≤ c) : a.clamp c = a.last := by
  unfold clamp
  split <;> omega

theorem coord_of_not_lt {v : Float} (h : ¬ (v - a.origin) / a.size < 0.0) :
    a.coord v = truncWithin coordMin coordMax ((v - a.origin) / a.size) := by
  simp [coord, h]

/-- Along an axis whose count is the extent up to `v` divided by the cell size, rounded up, the
coordinate of `v` by division clamps to the last cell. -/
theorem clamp_coord_far (ha : a.Regular) {v : Float}
    (hc : a.count = length (v - a.origin) a.size) : a.clamp (a.coord v) = a.last := by
  have hle := ha.count_le
  rcases Nat.lt_or_ge a.count 2 with h1 | h2
  · have := a.clamp_le_last (a.coord v)
    unfold last at *
    omega
  · have hceil : (a.count : Int) = ceilWithin 0 (Int.pow 2 64 - 1) ((v - a.origin) / a.size) := by
      rw [hc] at h2 ⊢
      unfold length at h2 ⊢
      omega
    have hpos : 0 < ceilWithin 0 (Int.pow 2 64 - 1) ((v - a.origin) / a.size) := by omega
    have htr : ceilWithin 0 (Int.pow 2 64 - 1) ((v - a.origin) / a.size) ≤
        truncWithin coordMin coordMax ((v - a.origin) / a.size) + 1 :=
      ceilWithin_le_truncWithin_succ (by decide) hpos (by rw [← hceil]; unfold coordMax; omega)
    apply clamp_eq_last
    rw [coord_of_not_lt (not_lt_zero_of_ceilWithin_pos hpos)]
    unfold last
    omega

theorem origin_le_edge (ha : a.Regular) {c : Nat} (hc : c ≤ a.count) : a.origin ≤ a.edge c := by
  have ho : (ofFloat a.origin).isFinite = true := by rw [← isFinite_ofFloat]; exact ha.origin_finite
  have hs : (ofFloat a.size).isFinite = true := by rw [← isFinite_ofFloat]; exact ha.size_finite
  have h0 : (ofFloat (Float.ofNat 0)).IsZero := ⟨false, by decide⟩
  obtain ⟨hn, hz⟩ := roundsTo_mul (isFinite_of_isZero h0) hs
  rw [toRat_of_isZero h0, zero_mul] at hz
  have hzero := isZero_of_roundsTo_zero hn hz
  obtain ⟨he, hr⟩ := roundsTo_add ho (isFinite_of_isZero hzero)
  rw [toRat_of_isZero hzero, add_zero] at hr
  have hk := hr.unique (roundsTo_toRat ho)
  have h₀ : a.origin ≤ a.edge (0 : Nat) :=
    (le_iff_rank _ _).mpr ⟨ne_nan_of_isFinite ho, he, by rw [edge_ofNat, hk]⟩
  exact le_trans_float h₀ (edge_le_edge ha (Nat.zero_le c) hc)

/-- The origin is located, with no heading, in cell `0`. -/
theorem locate_origin (ha : a.Regular) : a.locate a.origin 0.0 = 0 := by
  have ho : (ofFloat a.origin).isFinite = true := by rw [← isFinite_ofFloat]; exact ha.origin_finite
  have hs : ofFloat a.size ≠ .nan :=
    ne_nan_of_isFinite (by rw [← isFinite_ofFloat]; exact ha.size_finite)
  have hcoord : a.coord a.origin = 0 :=
    coord_of_isZero (zero_div (isZero_sub_self ho) hs ha.size_rank_ne_zero)
  have hclamp : a.clamp 0 = 0 := by simp [clamp]
  have hup : ∀ n, a.settleUp a.origin n 0 = 0 := by
    intro n
    cases n with
    | zero => rfl
    | succ n =>
      unfold settleUp
      rw [if_neg]
      exact fun hlt => lt_irrefl_float _
        (lt_of_lt_of_le_float hlt (origin_le_edge ha (by have := ha.count_pos; omega)))
  rw [locate_zero_eq, hcoord, hclamp]
  exact hup _

/-- The cells that the downward search from `c` steps over all start above `v`. -/
theorem settleDown_above {v : Float} : ∀ {c c' : Nat}, a.settleDown v c < c' → c' ≤ c →
    v < a.edge c'
  | 0, _, h, h' => absurd h (by simp only [settleDown]; omega)
  | c + 1, c', h, h' => by
    unfold settleDown at h
    split at h
    · rcases Nat.lt_or_ge c' (c + 1) with hlt | hge
      · exact settleDown_above h (by omega)
      · rwa [show c' = c + 1 by omega]
    · omega

theorem le_locate_far_iff (ha : a.Regular) {v : Float} (hv : ofFloat v ≠ .nan)
    (hc : a.count = length (v - a.origin) a.size) {c : Nat} (hcl : c ≤ a.last) :
    c ≤ a.locate v 0.0 ↔ c = 0 ∨ a.edge c ≤ v := by
  have he : ∀ c, c ≤ a.count → ofFloat (a.edge c) ≠ .nan := fun c hc => edge_ne_nan ha hc
  have hlast : a.last ≤ a.count := Nat.sub_le _ _
  set d := a.settleDown v a.last with hd
  have hdle : d ≤ a.last := a.settleDown_le v a.last
  have hlow := settleDown_low hv he a.last hlast
  have hup : a.settleUp v (a.last - d) d = d := by
    rcases Nat.lt_or_ge d a.last with hlt | hge
    · obtain ⟨n, hn⟩ : ∃ n, a.last - d = n + 1 := ⟨a.last - d - 1, by omega⟩
      rw [hn]
      unfold settleUp
      rw [if_neg]
      exact fun hgt => lt_irrefl_float _ (lt_of_lt_of_le_float hgt
        (le_of_lt_float (settleDown_above (by rw [← hd]; omega) (by omega))))
    · rw [show a.last - d = 0 by omega]
      rfl
  rw [locate_zero_eq, clamp_coord_far ha hc, ← hd, hup]
  constructor
  · intro hcd
    rcases Nat.eq_zero_or_pos c with h0 | hpos
    · exact .inl h0
    · exact .inr (le_trans_float (edge_le_edge ha hcd (by omega)) (hlow.resolve_left (by omega)))
  · rintro (h0 | hle)
    · omega
    · refine Nat.le_of_not_lt fun hgt => lt_irrefl_float v ?_
      exact lt_of_lt_of_le_float (settleDown_above (by omega) hcl) hle

theorem le_locate_span_iff (ha : a.Regular) {v : Float} (hv : ofFloat v ≠ .nan)
    (hc : a.count = length (v - a.origin) a.size) {c : Nat} (hcl : c < a.count) :
    c ≤ max (a.locate a.origin 0.0) (a.locate v 0.0) ↔ c = 0 ∨ a.edge c ≤ v := by
  rw [locate_origin ha, Nat.zero_max]
  exact le_locate_far_iff ha hv hc (by unfold last; omega)

end Axis

namespace Layout

variable {region : Rect} {cw ch : Float} {l : Layout}

theorem counts_of_new (h : Layout.new region cw ch = .ok l) :
    l.columns = Axis.length l.region.width l.cellWidth ∧
      l.rows = Axis.length l.region.height l.cellHeight := by
  obtain ⟨-, -, -, -, hr, hcw, hch, hcols, hrows⟩ := new_eq_ok h
  exact ⟨by rw [hcols, hr, hcw], by rw [hrows, hr, hch]⟩

theorem range_region (h : Layout.new region cw ch = .ok l) :
    (l.range l.region).colLo = 0 ∧ (l.range l.region).rowLo = 0 ∧
      (∀ c, c < l.columns → (c ≤ (l.range l.region).colHi ↔ c = 0 ∨ l.xAxis.edge c ≤ l.region.x1)) ∧
      ∀ r, r < l.rows → (r ≤ (l.range l.region).rowHi ↔ r = 0 ∨ l.yAxis.edge r ≤ l.region.y1) := by
  obtain ⟨hx, hy⟩ := regular_of_new h
  obtain ⟨hcx, hcy⟩ := counts_of_new h
  have hf := region_finite h
  have hx0 : l.xAxis.locate l.region.x0 0.0 = 0 := Axis.locate_origin hx
  have hy0 : l.yAxis.locate l.region.y0 0.0 = 0 := Axis.locate_origin hy
  refine ⟨by rw [range_colLo, hx0, Nat.zero_min], by rw [range_rowLo, hy0, Nat.zero_min],
    fun c hc => ?_, fun r hr => ?_⟩
  · rw [range_colHi]
    exact Axis.le_locate_span_iff hx (ne_nan_of_isFinite hf.x1) hcx hc
  · rw [range_rowHi]
    exact Axis.le_locate_span_iff hy (ne_nan_of_isFinite hf.y1) hcy hr

end Layout

namespace Grid

variable {κ : Type}

theorem mem_visit (g : Grid κ) (B : Rect) (k : κ) :
    k ∈ g.visit B ↔ ∃ c : Cell, ((g.layout.range B).colLo ≤ c.col ∧ c.col ≤ (g.layout.range B).colHi) ∧
      ((g.layout.range B).rowLo ≤ c.row ∧ c.row ≤ (g.layout.range B).rowHi) ∧
      k ∈ (g.bucket c).toList := by
  simp only [visit, List.mem_flatMap, mem_span]
  constructor
  · rintro ⟨r, hr, c, hc, hk⟩
    exact ⟨⟨c, r⟩, hc, hr, hk⟩
  · rintro ⟨⟨c, r⟩, hc, hr, hk⟩
    exact ⟨r, hr, c, hc, hk⟩

/-- What a query over the grid's own region reads: along each axis the cells from the first to
the last that starts within the region, and the keys stored in them. When the last cells start
within the region, that is every cell. -/
structure RegionQuery (g : Grid κ) [LinearOrder κ] : Prop where
  col_lo : (g.layout.range g.layout.region).colLo = 0
  row_lo : (g.layout.range g.layout.region).rowLo = 0
  col_hi : ∀ c, c < g.layout.columns → (c ≤ (g.layout.range g.layout.region).colHi ↔
    c = 0 ∨ g.layout.xAxis.edge c ≤ g.layout.region.x1)
  row_hi : ∀ r, r < g.layout.rows → (r ≤ (g.layout.range g.layout.region).rowHi ↔
    r = 0 ∨ g.layout.yAxis.edge r ≤ g.layout.region.y1)
  answers : ∀ k, k ∈ g.query g.layout.region ↔ ∃ c : Cell, g.layout.Within c ∧
    (c.col = 0 ∨ g.layout.xAxis.edge c.col ≤ g.layout.region.x1) ∧
    (c.row = 0 ∨ g.layout.yAxis.edge c.row ≤ g.layout.region.y1) ∧ k ∈ (g.bucket c).toList
  complete : g.layout.xAxis.edge g.layout.xAxis.last ≤ g.layout.region.x1 →
    g.layout.yAxis.edge g.layout.yAxis.last ≤ g.layout.region.y1 →
    ∀ k, k ∈ g.query g.layout.region ↔ ∃ c : Cell, g.layout.Within c ∧ k ∈ (g.bucket c).toList

theorem query_whole_region [LinearOrder κ] {region : Rect} {cw ch : Float} (g : Grid κ)
    (hl : Layout.new region cw ch = .ok g.layout) : g.RegionQuery := by
  obtain ⟨hx, hy⟩ := Layout.regular_of_new hl
  obtain ⟨hcolLo, hrowLo, hcol, hrow⟩ := Layout.range_region hl
  have hans : ∀ k, k ∈ g.query g.layout.region ↔ ∃ c : Cell, g.layout.Within c ∧
      (c.col = 0 ∨ g.layout.xAxis.edge c.col ≤ g.layout.region.x1) ∧
      (c.row = 0 ∨ g.layout.yAxis.edge c.row ≤ g.layout.region.y1) ∧ k ∈ (g.bucket c).toList := by
    intro k
    rw [mem_query, mem_visit, hcolLo, hrowLo]
    constructor
    · rintro ⟨c, ⟨-, hc⟩, ⟨-, hr⟩, hk⟩
      have hc' := Nat.lt_of_le_of_lt hc (g.layout.range_colHi_lt _)
      have hr' := Nat.lt_of_le_of_lt hr (g.layout.range_rowHi_lt _)
      exact ⟨c, ⟨hc', hr'⟩, (hcol _ hc').mp hc, (hrow _ hr').mp hr, hk⟩
    · rintro ⟨c, ⟨hc', hr'⟩, hcx, hry, hk⟩
      exact ⟨c, ⟨Nat.zero_le _, (hcol _ hc').mpr hcx⟩, ⟨Nat.zero_le _, (hrow _ hr').mpr hry⟩, hk⟩
  refine ⟨hcolLo, hrowLo, hcol, hrow, hans, fun hxl hyl k => ?_⟩
  rw [hans]
  constructor
  · rintro ⟨c, hw, -, -, hk⟩
    exact ⟨c, hw, hk⟩
  · rintro ⟨c, hw, hk⟩
    have hc : c.col ≤ g.layout.xAxis.last := Nat.le_sub_one_of_lt hw.1
    have hr : c.row ≤ g.layout.yAxis.last := Nat.le_sub_one_of_lt hw.2
    exact ⟨c, hw, .inr (le_trans_float (Axis.edge_le_edge hx hc (Nat.sub_le _ _)) hxl),
      .inr (le_trans_float (Axis.edge_le_edge hy hr (Nat.sub_le _ _)) hyl), hk⟩

/-- Over the region from `-0.2` to `0.1` the width rounds up to `0.30000000000000004`, so cells of
width `0.1` make four columns, and the last starts beyond `0.1`. A segment that meets the region
only inside that column is stored there, and the query over the region leaves it out. -/
theorem query_whole_region_skips_column :
    Layout.new ⟨-0.2, 0.0, 0.1, 1.0⟩ 0.1 1.0 =
        .ok ⟨⟨-0.2, 0.0, 0.1, 1.0⟩, 0.1, 1.0, 4, 1, by decide, by decide, by decide, by decide⟩ ∧
      ((Grid.empty (κ := Nat)
        ⟨⟨-0.2, 0.0, 0.1, 1.0⟩, 0.1, 1.0, 4, 1, by decide, by decide, by decide, by decide⟩).insert 7
          ⟨⟨-0.3, 1.2⟩, ⟨0.5, 0.8⟩⟩).RegionQuery ∧
      ¬ ((⟨-0.2, 0.1, 4⟩ : Axis).edge (3 : Nat) ≤ 0.1) ∧
      (((Grid.empty (κ := Nat)
        ⟨⟨-0.2, 0.0, 0.1, 1.0⟩, 0.1, 1.0, 4, 1, by decide, by decide, by decide, by decide⟩).insert 7
          ⟨⟨-0.3, 1.2⟩, ⟨0.5, 0.8⟩⟩).bucket ⟨3, 0⟩).toList = [7] ∧
      ((Grid.empty (κ := Nat)
        ⟨⟨-0.2, 0.0, 0.1, 1.0⟩, 0.1, 1.0, 4, 1, by decide, by decide, by decide, by decide⟩).insert 7
          ⟨⟨-0.3, 1.2⟩, ⟨0.5, 0.8⟩⟩).query ⟨-0.2, 0.0, 0.1, 1.0⟩ = [] :=
  ⟨rfl, @query_whole_region Nat _ ⟨-0.2, 0.0, 0.1, 1.0⟩ 0.1 1.0 _ (by rw [layout_insert]; rfl),
    by decide, by decide +kernel, by decide +kernel⟩

end Grid

end GridIndex
