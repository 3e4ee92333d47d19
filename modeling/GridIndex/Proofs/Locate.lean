import GridIndex.Proofs.FloatMono
import GridIndex.Grid.Layout

/-!
# Edges are ordered, and `locate` finds the cell between them

On an axis with a finite origin and a finite positive cell size (`Axis.Regular`, which every
layout built by `Layout.new` has), the computed edges `origin + n · size` never decrease in `n`
(`edge_le_edge`) and are never NaN, although they are rounded.

Located with no heading, a coordinate that is not NaN lands in a cell whose computed edges hold
it (`locate_zero_holds`): the downward search stops on a lower edge at or below it and the upward
search on an upper edge at or above it. With ordered edges this pins the cells an interval can
reach (`Axis.covers_locate`): those from the cell of one end to the cell of the other.
-/

namespace GridIndex

open Binary

set_option autoImplicit false

namespace Axis

/-- What a layout guarantees of each of its axes. -/
structure Regular (a : Axis) : Prop where
  origin_finite : a.origin.isFinite = true
  size_finite : a.size.isFinite = true
  size_pos : 0.0 < a.size
  count_pos : 0 < a.count
  count_le : a.count ≤ 2147483647

/-- `v` lies in cell `c` as the edges are computed: not below its lower edge unless it is the
first cell, not above its upper edge unless it is the last. -/
def Holds (a : Axis) (v : Float) (c : Nat) : Prop :=
  (c = 0 ∨ a.edge c ≤ v) ∧ (c = a.last ∨ v ≤ a.edge (c + 1 : Nat))

/-- The cells from `lo` to `hi` are the ones a search of the interval from `u` to `w` looks at:
each cell meeting the open interval is among them, and each of them reaches the closed one. -/
structure Covers (a : Axis) (u w : Float) (lo hi : Nat) : Prop where
  le : lo ≤ hi
  lt : hi < a.count
  overlap : ∀ c, c < a.count → a.edge c < w → u < a.edge (c + 1 : Nat) → lo ≤ c ∧ c ≤ hi
  near : ∀ c, lo ≤ c → c ≤ hi → (c = 0 ∨ a.edge c ≤ w) ∧ (c = a.last ∨ u ≤ a.edge (c + 1 : Nat))

variable {a : Axis}

theorem Regular.count_pos_of_le (ha : a.Regular) {c : Nat} (hc : c ≤ a.count) : c < 2^53 := by
  have := ha.count_le
  omega

theorem edge_ofNat (a : Axis) (c : Nat) : a.edge c = a.origin + Float.ofNat c * a.size := rfl

theorem edge_le_edge (ha : a.Regular) {c c' : Nat} (h : c ≤ c') (hc' : c' ≤ a.count) :
    a.edge c ≤ a.edge c' := by
  have hsize : (ofFloat a.size).isFinite = true := by
    rw [← isFinite_ofFloat]; exact ha.size_finite
  have horigin : (ofFloat a.origin).isFinite = true := by
    rw [← isFinite_ofFloat]; exact ha.origin_finite
  have hn := ofNat_le_ofNat h (ha.count_pos_of_le hc')
  have := add_le_add_left horigin (mul_le_mul_right hsize ha.size_pos hn)
  rw [← edge_ofNat, ← edge_ofNat] at this
  exact this

theorem edge_ne_nan (ha : a.Regular) {c : Nat} (hc : c ≤ a.count) : ofFloat (a.edge c) ≠ .nan :=
  ne_nan_of_le_left (edge_le_edge ha (Nat.le_refl c) hc)

section Settle

variable {v : Float} (hv : ofFloat v ≠ .nan) (he : ∀ c, c ≤ a.count → ofFloat (a.edge c) ≠ .nan)
include hv he

theorem settleDown_low : ∀ c, c ≤ a.count → a.settleDown v c = 0 ∨ a.edge (a.settleDown v c) ≤ v
  | 0, _ => Or.inl rfl
  | c + 1, hc => by
    show (if v < a.edge (c + 1 : Nat) then a.settleDown v c else c + 1) = 0 ∨
      a.edge (if v < a.edge (c + 1 : Nat) then a.settleDown v c else c + 1 : Nat) ≤ v
    split
    · exact settleDown_low c (by omega)
    · exact Or.inr (le_of_not_lt_float hv (he _ hc) ‹_›)

theorem settleUp_holds : ∀ n c, c + n = a.last → (c = 0 ∨ a.edge c ≤ v) →
    a.Holds v (a.settleUp v n c)
  | 0, c, hn, hlow => by
    show a.Holds v c
    exact ⟨hlow, Or.inl (by simpa using hn)⟩
  | n + 1, c, hn, hlow => by
    show a.Holds v (if v > a.edge (c + 1 : Nat) then a.settleUp v n (c + 1) else c)
    split
    · exact settleUp_holds n (c + 1) (by omega) (Or.inr (le_of_lt_float ‹_›))
    · have hc : c + 1 ≤ a.count := by unfold last at hn; omega
      exact ⟨hlow, Or.inr (le_of_not_lt_float (he _ hc) hv ‹_›)⟩

end Settle

theorem locate_zero_eq (a : Axis) (v : Float) :
    a.locate v 0.0 = a.settleUp v (a.last - a.settleDown v (a.clamp (a.coord v)))
      (a.settleDown v (a.clamp (a.coord v))) := by
  -- a zero heading points nowhere, so no nudge applies
  have h0 : ¬ ((0.0 : Float) < 0.0) := by decide
  unfold locate
  simp only [h0, GT.gt, decide_false, Bool.false_and, Bool.false_eq_true, if_false]

/-- With no heading, `locate` gives a cell whose computed edges hold `v`. -/
theorem locate_zero_holds (ha : a.Regular) {v : Float} (hv : ofFloat v ≠ .nan) :
    a.Holds v (a.locate v 0.0) := by
  have he : ∀ c, c ≤ a.count → ofFloat (a.edge c) ≠ .nan := fun c hc => edge_ne_nan ha hc
  have hlast := a.clamp_le_last (a.coord v)
  have hcount : a.last ≤ a.count := Nat.sub_le _ _
  have hd := settleDown_low hv he (a.clamp (a.coord v)) (by omega)
  have hle := a.settleDown_le v (a.clamp (a.coord v))
  rw [locate_zero_eq]
  exact settleUp_holds hv he (a.last - a.settleDown v (a.clamp (a.coord v)))
    (a.settleDown v (a.clamp (a.coord v))) (by omega) hd

theorem Holds.le_of_lt_edge (ha : a.Regular) {v : Float} {d : Nat} (h : a.Holds v d)
    (hd : d ≤ a.last) {c : Nat} (hlt : v < a.edge (c + 1 : Nat)) : d ≤ c := by
  refine Nat.le_of_not_lt fun hcd => lt_irrefl_float v ?_
  have hlow : a.edge d ≤ v := h.1.resolve_left (by omega)
  have hmono := edge_le_edge ha (show c + 1 ≤ d by omega) (by unfold last at hd; omega)
  exact lt_of_lt_of_le_float hlt (le_trans_float hmono hlow)

theorem Holds.ge_of_edge_lt (ha : a.Regular) {v : Float} {d : Nat} (h : a.Holds v d)
    {c : Nat} (hc : c ≤ a.last) (hlt : a.edge c < v) : c ≤ d := by
  refine Nat.le_of_not_lt fun hdc => lt_irrefl_float v ?_
  have hup : v ≤ a.edge (d + 1 : Nat) := h.2.resolve_left (by omega)
  have hmono := edge_le_edge ha (show d + 1 ≤ c by omega) (by unfold last at hc; omega)
  exact lt_of_le_of_lt_float (le_trans_float hup hmono) hlt

theorem Holds.low_of_le (ha : a.Regular) {v : Float} {d : Nat} (h : a.Holds v d)
    (hd : d ≤ a.last) {c : Nat} (hcd : c ≤ d) : c = 0 ∨ a.edge c ≤ v := by
  rcases Nat.eq_zero_or_pos c with hc | hc
  · exact Or.inl hc
  · have hlow : a.edge d ≤ v := h.1.resolve_left (by omega)
    exact Or.inr (le_trans_float (edge_le_edge ha hcd (by unfold last at hd; omega)) hlow)

theorem Holds.high_of_ge (ha : a.Regular) {v : Float} {d : Nat} (h : a.Holds v d)
    {c : Nat} (hdc : d ≤ c) (hc : c ≤ a.last) : c = a.last ∨ v ≤ a.edge (c + 1 : Nat) := by
  rcases Nat.lt_or_ge c a.last with hlt | hge
  · have hup : v ≤ a.edge (d + 1 : Nat) := h.2.resolve_left (by omega)
    exact Or.inr (le_trans_float hup (edge_le_edge ha (by omega) (by unfold last at hlt; omega)))
  · exact Or.inl (by omega)

/-- The block between the cells of two coordinates covers the interval they span. -/
theorem covers_locate (ha : a.Regular) {v w : Float} (hv : ofFloat v ≠ .nan)
    (hw : ofFloat w ≠ .nan) :
    a.Covers (min v w) (max v w) (min (a.locate v 0.0) (a.locate w 0.0))
      (max (a.locate v 0.0) (a.locate w 0.0)) := by
  have hpv := locate_zero_holds ha hv
  have hpw := locate_zero_holds ha hw
  have hlv := a.locate_le_last v 0.0
  have hlw := a.locate_le_last w 0.0
  have hlast : a.last < a.count := by have := ha.count_pos; unfold last; omega
  have hmin : min v w = v ∨ min v w = w := by
    show (if v ≤ w then v else w) = v ∨ (if v ≤ w then v else w) = w
    split
    · exact Or.inl rfl
    · exact Or.inr rfl
  have hmax : max v w = w ∨ max v w = v := by
    show (if v ≤ w then w else v) = w ∨ (if v ≤ w then w else v) = v
    split
    · exact Or.inl rfl
    · exact Or.inr rfl
  refine ⟨Nat.le_trans (Nat.min_le_left _ _) (Nat.le_max_left _ _), by omega, ?_, ?_⟩
  · intro c hc hlo hhi
    constructor
    · rcases hmin with h | h <;> rw [h] at hhi
      · exact Nat.le_trans (Nat.min_le_left _ _) (hpv.le_of_lt_edge ha hlv hhi)
      · exact Nat.le_trans (Nat.min_le_right _ _) (hpw.le_of_lt_edge ha hlw hhi)
    · have hc' : c ≤ a.last := by unfold last; omega
      rcases hmax with h | h <;> rw [h] at hlo
      · exact Nat.le_trans (hpw.ge_of_edge_lt ha hc' hlo) (Nat.le_max_right _ _)
      · exact Nat.le_trans (hpv.ge_of_edge_lt ha hc' hlo) (Nat.le_max_left _ _)
  · intro c hlo hhi
    have hc : c ≤ a.last := Nat.le_trans hhi (Nat.max_le.mpr ⟨hlv, hlw⟩)
    constructor
    · by_cases hcv : c ≤ a.locate v 0.0
      · exact (hpv.low_of_le ha hlv hcv).imp_right (le_trans_float · (le_max_left_float hv))
      · have hcw : c ≤ a.locate w 0.0 := by omega
        exact (hpw.low_of_le ha hlw hcw).imp_right (le_trans_float · (le_max_right_float hv hw))
    · by_cases hcv : a.locate v 0.0 ≤ c
      · exact (hpv.high_of_ge ha hcv hc).imp_right (le_trans_float (min_le_left_float hv hw))
      · have hcw : a.locate w 0.0 ≤ c := by omega
        exact (hpw.high_of_ge ha hcw hc).imp_right (le_trans_float (min_le_right_float hw))

end Axis

namespace Layout

theorem ofFloat_zero : ofFloat 0.0 = .finite false 0 (-1074) := by decide

theorem zero_lt_of_not_le {x : Float} (hx : ofFloat x ≠ .nan) (h : ¬ x ≤ 0.0) : 0.0 < x :=
  lt_of_not_le_float hx (by rw [ofFloat_zero]; simp) h

theorem min_regular {c e : Float} (hc : positive c = true) (he : finitePositive e = true) :
    (min c e).isFinite = true ∧ 0.0 < min c e := by
  simp only [positive, finitePositive, Bool.not_eq_eq_eq_not, Bool.not_true, Bool.or_eq_false_iff,
    Bool.and_eq_true, decide_eq_false_iff_not] at hc he
  obtain ⟨hcn, hc0⟩ := hc
  obtain ⟨hef, he0⟩ := he
  have hcn' : ofFloat c ≠ .nan := fun h => by
    rw [(isNaN_ofFloat c).mpr h] at hcn
    exact Bool.noConfusion hcn
  have hef' : (ofFloat e).isFinite = true := by rwa [← isFinite_ofFloat]
  have hen' : ofFloat e ≠ .nan := by
    obtain ⟨n, m, q, h⟩ := exists_of_isFinite hef'; rw [h]; simp
  have hcpos := zero_lt_of_not_le hcn' hc0
  have hepos := zero_lt_of_not_le hen' he0
  show (if c ≤ e then c else e).isFinite = true ∧ 0.0 < if c ≤ e then c else e
  split
  · rename_i hce
    refine ⟨?_, hcpos⟩
    rw [isFinite_ofFloat]
    obtain ⟨n, m, q, h⟩ := exists_of_isFinite hef'
    have hb := rank_finite_bounds (h ▸ canonical_ofFloat hen')
    rw [← h] at hb
    obtain ⟨-, -, hr⟩ := (le_iff_rank c e).mp hce
    obtain ⟨-, -, hr0⟩ := (lt_iff_rank 0.0 c).mp hcpos
    rw [ofFloat_zero, show (Binary.finite false 0 (-1074)).rank = 0 from rfl] at hr0
    refine isFinite_of_rank hcn' ?_ (by omega)
    unfold infRank; omega
  · exact ⟨hef, hepos⟩

theorem new_eq_ok {region : Rect} {cw ch : Float} {l : Layout}
    (h : Layout.new region cw ch = .ok l) :
    positive cw = true ∧ positive ch = true ∧ finitePositive region.width = true ∧
      finitePositive region.height = true ∧ l.region = region ∧
      l.cellWidth = min cw region.width ∧ l.cellHeight = min ch region.height ∧
      l.columns = Axis.length region.width (min cw region.width) ∧
      l.rows = Axis.length region.height (min ch region.height) := by
  unfold new at h
  split at h
  · cases h
  split at h
  · cases h
  split at h
  · cases h
  split at h
  · cases h
  rename_i hcw hch hw hh
  simp only [Bool.not_eq_true', Bool.not_eq_false] at hcw hch hw hh
  dsimp only at h
  split at h
  · injection h with h
    subst h
    exact ⟨hcw, hch, hw, hh, rfl, rfl, rfl, rfl, rfl⟩
  · cases h

theorem regular_of_new {region : Rect} {cw ch : Float} {l : Layout}
    (h : Layout.new region cw ch = .ok l) : l.xAxis.Regular ∧ l.yAxis.Regular := by
  obtain ⟨hcw, hch, hw, hh, hr, hcwl, hchl, -, -⟩ := new_eq_ok h
  have hx0 : l.region.x0.isFinite = true := by
    simp only [finitePositive, Bool.and_eq_true] at hw
    rw [hr, isFinite_ofFloat]
    exact (isFinite_of_sub (by rw [← isFinite_ofFloat]; exact hw.1)).2
  have hy0 : l.region.y0.isFinite = true := by
    simp only [finitePositive, Bool.and_eq_true] at hh
    rw [hr, isFinite_ofFloat]
    exact (isFinite_of_sub (by rw [← isFinite_ofFloat]; exact hh.1)).2
  obtain ⟨hwf, hwp⟩ := min_regular hcw hw
  obtain ⟨hhf, hhp⟩ := min_regular hch hh
  rw [← hcwl] at hwf hwp
  rw [← hchl] at hhf hhp
  exact ⟨⟨hx0, hwf, hwp, l.columns_pos, l.columns_le⟩, ⟨hy0, hhf, hhp, l.rows_pos, l.rows_le⟩⟩

end Layout

end GridIndex
