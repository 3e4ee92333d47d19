import GridIndex.Proofs.CrossingMargins

/-!
# Leaving a padded box through one side

A segment that starts in a rectangle and ends beyond the rectangle grown by two pads leaves the
box grown by `3/2` pads through one of its edges, at a point within that edge
(`exits_of_outside`). In coordinates where the pad is `1`, and turned so that this edge is the
right one, the padded right side then lies half a pad inside the box's
edge and reaches half a pad beyond both of its ends: every margin `meet?` needs is a fixed
fraction of the distance travelled, while rounding moves each cross product by at most `2^-4` of
it (`RightFrame.margins`). The other way round, a crossing of the padded right side accepted by
`meet?` needs the segment to end right of the rectangle (`RightFrame.lt_of_accepted`).

`RightFrame` gathers what the argument reads off the input: the start inside the rectangle
grown by `1/2` pad, every coordinate within `2^46` pads of zero, the side's rounded position
within `1/16` pad of its exact one, and the rounded differences `meet?` forms, each one rounding
from its exact value.
-/

namespace GridIndex

set_option autoImplicit false

/-- The segment from `p` leaves the box `[·, x1 + 3/2] × [y0 - 3/2, y1 + 3/2]` through its right
edge: it reaches that edge's line, and where it does it lies within the edge. -/
def ExitsRight (x1 y0 y1 px py qx qy : ℚ) : Prop :=
  x1 + 3/2 ≤ qx ∧ (y0 - 3/2 - py) * (qx - px) ≤ (x1 + 3/2 - px) * (qy - py) ∧
    (x1 + 3/2 - px) * (qy - py) ≤ (y1 + 3/2 - py) * (qx - px)

/-- A segment from `(px, py)` to `(qx, qy)` against the right side of a rectangle, pushed out by
a pad, in coordinates where the pad is `1`: the side at `X` over `[L, H]`, with the rounded
differences `U, V` along the segment and the offset `(A, B)` to the side's lower end. -/
structure RightFrame (x1 y0 y1 px py qx qy X L H U V G₂ A B : ℚ) : Prop where
  start : px ≤ x1 + 1/2 ∧ y0 - 1/2 ≤ py ∧ py ≤ y1 + 1/2
  scale_x : |x1| ≤ 2^46 ∧ |px| ≤ 2^46 ∧ |qx| ≤ 2^46
  scale_y : |y0| ≤ 2^46 ∧ |y1| ≤ 2^46 ∧ |py| ≤ 2^46 ∧ |qy| ≤ 2^46
  side_x : |X - (x1 + 1)| ≤ 1/16
  side_lo : |L - (y0 - 2)| ≤ 1/16
  side_hi : |H - (y1 + 2)| ≤ 1/16
  dir_x : Approx U (qx - px) (2^(-100 : Int))
  dir_y : Approx V (qy - py) (2^(-100 : Int))
  len : Approx G₂ (H - L) (2^(-100 : Int))
  off_x : Approx A (X - px) (2^(-100 : Int))
  off_y : Approx B (L - py) (2^(-100 : Int))

theorem scale_band {lo hi z w a : ℚ} (hlo : lo ≤ 0) (hhi : 0 ≤ hi) (ha : 0 < a) (haz : a ≤ z)
    (h₁ : lo ≤ z * w) (h₂ : z * w ≤ hi) : lo ≤ a * w ∧ a * w ≤ hi := by
  have hz : 0 < z := lt_of_lt_of_le ha haz
  have hw : a * (z * w) = z * (a * w) := by ring
  constructor
  · have h₃ : a * lo ≤ a * (z * w) := mul_le_mul_of_nonneg_left h₁ ha.le
    have h₄ : z * lo ≤ a * lo := mul_le_mul_of_nonpos_right haz hlo
    exact le_of_mul_le_mul_left (by linarith) hz
  · have h₃ : a * (z * w) ≤ a * hi := mul_le_mul_of_nonneg_left h₂ ha.le
    have h₄ : a * hi ≤ z * hi := mul_le_mul_of_nonneg_right haz hhi
    exact le_of_mul_le_mul_left (by linarith) hz

section Exits

variable {x0 x1 y0 y1 px py qx qy : ℚ}

theorem exits_of_far_right (hpx : x0 - 1/2 ≤ px) (hpx' : px ≤ x1 + 1/2) (hpy : y0 - 1/2 ≤ py)
    (hpy' : py ≤ y1 + 1/2)
    (hq : x1 + 2 < qx) :
    ExitsRight x1 y0 y1 px py qx qy ∨ ExitsRight y1 (-x1) (-x0) py (-px) qy (-qx) ∨
      ExitsRight (-y0) x0 x1 (-py) px (-qy) qx := by
  -- `Z` is how far the box's right edge lies along `x`, `D` how far the segment goes
  have hZ : 0 < x1 + 3/2 - px := by linarith only [hpx']
  have hDZ : x1 + 3/2 - px ≤ qx - px := by linarith only [hq]
  by_cases hT : (x1 + 3/2 - px) * (qy - py) ≤ (y1 + 3/2 - py) * (qx - px)
  · by_cases hB : (y0 - 3/2 - py) * (qx - px) ≤ (x1 + 3/2 - px) * (qy - py)
    · exact .inl ⟨by linarith only [hq], hB, hT⟩
    · rw [not_le] at hB
      have hc : y0 - 3/2 - py < 0 := by linarith only [hpy]
      have h₁ := mul_le_mul_of_nonpos_left hDZ hc.le
      have hdown : qy - py < y0 - 3/2 - py :=
        lt_of_mul_lt_mul_right (by linarith only [hB, h₁] : (qy - py) * (x1 + 3/2 - px) <
          (y0 - 3/2 - py) * (x1 + 3/2 - px)) hZ.le
      refine .inr (.inr ⟨by linarith only [hdown], ?_, by linarith only [hB]⟩)
      have h₂ := mul_nonpos_of_nonpos_of_nonneg (show x0 - 3/2 - px ≤ 0 by linarith only [hpx])
        (show 0 ≤ -qy - -py by linarith only [hdown, hc])
      have h₃ := mul_nonneg (show 0 ≤ -y0 + 3/2 - -py by linarith only [hpy])
        (show 0 ≤ qx - px by linarith only [hq, hpx'])
      linarith only [h₂, h₃]
  · rw [not_le] at hT
    have hC : 0 < y1 + 3/2 - py := by linarith only [hpy']
    have h₁ := mul_le_mul_of_nonneg_left hDZ hC.le
    have hup : y1 + 3/2 - py < qy - py :=
      lt_of_mul_lt_mul_right (by linarith only [hT, h₁] : (y1 + 3/2 - py) * (x1 + 3/2 - px) <
        (qy - py) * (x1 + 3/2 - px)) hZ.le
    refine .inr (.inl ⟨by linarith only [hup], by linarith only [hT], ?_⟩)
    have h₂ := mul_nonpos_of_nonneg_of_nonpos hC.le (show -qx - -px ≤ 0 by linarith only [hq, hpx'])
    have h₃ := mul_nonneg (show 0 ≤ -x0 + 3/2 - -px by linarith only [hpx])
      (show 0 ≤ qy - py by linarith only [hup, hC])
    linarith only [h₂, h₃]

/-- A segment from inside the rectangle grown by `1/2` pad to beyond the rectangle grown by two
pads leaves the box grown by `3/2` pads through its right, left, top or bottom edge, each stated
as a right edge after a turn of the plane. -/
theorem exits_of_outside (hpx : x0 - 1/2 ≤ px) (hpx' : px ≤ x1 + 1/2) (hpy : y0 - 1/2 ≤ py)
    (hpy' : py ≤ y1 + 1/2)
    (hq : qx < x0 - 2 ∨ x1 + 2 < qx ∨ qy < y0 - 2 ∨ y1 + 2 < qy) :
    ExitsRight x1 y0 y1 px py qx qy ∨ ExitsRight (-x0) (-y1) (-y0) (-px) (-py) (-qx) (-qy) ∨
      ExitsRight y1 (-x1) (-x0) py (-px) qy (-qx) ∨ ExitsRight (-y0) x0 x1 (-py) px (-qy) qx := by
  rcases hq with hq | hq | hq | hq
  · rcases exits_of_far_right (show -x1 - 1/2 ≤ -px by linarith only [hpx'])
      (show -px ≤ -x0 + 1/2 by linarith only [hpx]) (show -y1 - 1/2 ≤ -py by linarith only [hpy'])
      (show -py ≤ -y0 + 1/2 by linarith only [hpy]) (by linarith : -x0 + 2 < -qx) with h | h | h
    · exact .inr (.inl h)
    · exact .inr (.inr (.inr (by simpa only [neg_neg] using h)))
    · exact .inr (.inr (.inl (by simpa only [neg_neg] using h)))
  · rcases exits_of_far_right hpx hpx' hpy hpy' hq with h | h | h
    · exact .inl h
    · exact .inr (.inr (.inl h))
    · exact .inr (.inr (.inr h))
  · rcases exits_of_far_right (show -y1 - 1/2 ≤ -py by linarith only [hpy'])
      (show -py ≤ -y0 + 1/2 by linarith only [hpy]) hpx hpx' (by linarith : -y0 + 2 < -qy)
      with h | h | h
    · exact .inr (.inr (.inr h))
    · exact .inl (by simpa only [neg_neg] using h)
    · exact .inr (.inl h)
  · rcases exits_of_far_right hpy hpy' (show -x1 - 1/2 ≤ -px by linarith only [hpx'])
      (show -px ≤ -x0 + 1/2 by linarith only [hpx]) hq with h | h | h
    · exact .inr (.inr (.inl h))
    · exact .inr (.inl h)
    · exact .inl (by simpa only [neg_neg] using h)


end Exits

namespace RightFrame

variable {x1 y0 y1 px py qx qy X L H U V G₂ A B : ℚ}

theorem diffs (h : RightFrame x1 y0 y1 px py qx qy X L H U V G₂ A B) :
    |qx - px| ≤ 2^47 ∧ |qy - py| ≤ 2^47 ∧ (7/16 ≤ X - px ∧ X - px ≤ 2^47 + 2) ∧
      (23/8 ≤ H - L ∧ H - L ≤ 2^47 + 5) ∧ (-(2^47 + 3) ≤ L - py ∧ L - py ≤ -23/16) := by
  obtain ⟨⟨hpx, hpy₀, hpy₁⟩, ⟨hx1, hpx', hqx⟩, ⟨hy0, hy1, hpy, hqy⟩, hX, hL, hH⟩ := h
  rw [abs_le] at hx1 hpx' hqx hy0 hy1 hpy hqy hX hL hH
  refine ⟨abs_le.mpr ⟨?_, ?_⟩, abs_le.mpr ⟨?_, ?_⟩, ⟨?_, ?_⟩, ⟨?_, ?_⟩, ⟨?_, ?_⟩⟩ <;> linarith

theorem products (h : RightFrame x1 y0 y1 px py qx qy X L H U V G₂ A B) :
    |U * G₂ - (qx - px) * (H - L)| ≤ |(qx - px) * (H - L)| * (2 / 2^52 + 1 / 2^104) + 1 / 2^50 ∧
    |A * V - (X - px) * (qy - py)| ≤ |(X - px) * (qy - py)| * (2 / 2^52 + 1 / 2^104) + 1 / 2^50 ∧
    |B * U - (L - py) * (qx - px)| ≤ |(L - py) * (qx - px)| * (2 / 2^52 + 1 / 2^104) + 1 / 2^50 ∧
    |A * G₂ - (X - px) * (H - L)| ≤ |(X - px) * (H - L)| * (2 / 2^52 + 1 / 2^104) + 1 / 2^50 := by
  obtain ⟨hD, hW, hA0, hG0, hB0⟩ := h.diffs
  have hτ : (0 : ℚ) ≤ 2^(-100 : Int) := by positivity
  have hD' : |qx - px| ≤ 2^48 := hD.trans (by norm_num)
  have hW' : |qy - py| ≤ 2^48 := hW.trans (by norm_num)
  have hG : |H - L| ≤ 2^48 := abs_le.mpr ⟨by linarith, by linarith⟩
  have hA : |X - px| ≤ 2^48 := abs_le.mpr ⟨by linarith, by linarith⟩
  have hB : |L - py| ≤ 2^48 := abs_le.mpr ⟨by linarith, by linarith⟩
  exact ⟨h.dir_x.abs_mul_sub_le h.len hτ le_rfl hD' hG,
    h.off_x.abs_mul_sub_le h.dir_y hτ le_rfl hA hW',
    h.off_y.abs_mul_sub_le h.dir_x hτ le_rfl hB hD',
    h.off_x.abs_mul_sub_le h.len hτ le_rfl hA hG⟩

/-- Leaving through the box's right edge leaves room for every margin `meet?` needs against the
padded right side. -/
theorem margins (h : RightFrame x1 y0 y1 px py qx qy X L H U V G₂ A B)
    (hexit : ExitsRight x1 y0 y1 px py qx qy) : Margins U V 0 G₂ A B (2^(-100 : Int)) := by
  obtain ⟨hq, hlo, hhi⟩ := hexit
  obtain ⟨hD, -, hA0, hG0, hB0⟩ := h.diffs
  obtain ⟨hpx, hpy₀, hpy₁⟩ := h.start
  obtain ⟨hy0, hy1, hpy, -⟩ := h.scale_y
  rw [abs_le] at hD hy0 hy1 hpy
  have hX := abs_le.mp h.side_x
  have hL := abs_le.mp h.side_lo
  have hH := abs_le.mp h.side_hi
  have hDn : 0 ≤ qx - px := by linarith only [hq, hpx]
  obtain ⟨hband₁, hband₂⟩ := scale_band
    (mul_nonpos_of_nonpos_of_nonneg (by linarith only [hpy₀]) hDn)
    (mul_nonneg (by linarith only [hpy₁]) hDn) (by linarith only [hX.1, hpx])
    (show X - px ≤ x1 + 3/2 - px by linarith only [hX.2]) hlo hhi
  have hG0n : 0 ≤ H - L := by linarith only [hG0.1]
  have hP₁ := mul_le_mul_of_nonneg_left hG0.1 hDn
  have hP₁' := mul_le_mul_of_nonneg_left hG0.2 hDn
  have hP₂ : |(X - px) * (qy - py)| ≤ (2^47 + 2) * (qx - px) := by
    have h₁ := mul_le_mul_of_nonneg_right
      (show -(2^47 + 2) ≤ y0 - 3/2 - py by linarith only [hy0.1, hpy.2]) hDn
    have h₂ := mul_le_mul_of_nonneg_right
      (show y1 + 3/2 - py ≤ 2^47 + 2 by linarith only [hy1.2, hpy.1]) hDn
    rw [abs_le]; constructor <;> linarith only [h₁, h₂, hband₁, hband₂]
  have hP₃ := mul_le_mul_of_nonneg_right hB0.1 hDn
  have hm₀ := mul_le_mul_of_nonneg_right (show 7/16 ≤ y0 - 3/2 - L by linarith only [hL.2]) hDn
  have hg₀ := mul_le_mul_of_nonneg_right (show 7/16 ≤ H - y1 - 3/2 by linarith only [hH.1]) hDn
  have hP₄ := mul_le_mul_of_nonneg_right hA0.1 hG0n
  have hP₄' := mul_le_mul_of_nonneg_right (show 7/16 ≤ qx - X by linarith only [hq, hX.2]) hG0n
  have hP₄'' := mul_le_mul_of_nonneg_right
    (show qx - px + (X - px) ≤ 2^48 + 2 by linarith only [hD.2, hA0.2]) hG0n
  have hS : (L - py) * (qx - px) ≤ 0 :=
    mul_nonpos_of_nonpos_of_nonneg (by linarith only [hB0.2]) hDn
  obtain ⟨e₁, e₂, e₃, e₄⟩ := h.products
  rw [abs_of_nonneg (mul_nonneg hDn hG0n)] at e₁
  rw [abs_of_nonpos hS] at e₃
  rw [abs_of_nonneg (mul_nonneg (by linarith only [hA0.1]) hG0n)] at e₄
  have e₂' := (abs_sub_abs_le_abs_sub (A * V) ((X - px) * (qy - py))).trans e₂
  have e₃' := (abs_sub_abs_le_abs_sub (B * U) ((L - py) * (qx - px))).trans e₃
  rw [abs_of_nonpos hS] at e₃'
  rw [abs_le] at e₁ e₂ e₃ e₄
  have hQ₁ : 0 < U * G₂ := by linarith only [e₁, hP₁, hq, hpx]
  have hQ₄ : 0 < A * G₂ := by linarith only [e₄, hP₄, hG0]
  have hm : 0 < A * V - B * U := by linarith only [e₂, e₃, hP₂, hP₃, hband₁, hm₀, hq, hpx]
  have hτ : (2 : ℚ)^(-100 : Int) = 1 / 2^100 := by norm_num
  rw [hτ]
  refine ⟨?_, ?_, ?_, ?_, ?_⟩ <;>
    simp only [crossErr, crossQ, crossMag, mul_zero, sub_zero, abs_zero, add_zero,
      abs_of_pos hQ₁, abs_of_pos hQ₄, abs_of_pos hm]
  · linarith only [e₁, hP₁, hq, hpx]
  · linarith only [e₄, hP₄, hG0]
  · linarith only [e₁, e₄, hP₄', hP₄'', hG0]
  · linarith only [e₂, e₃, e₂', e₃', hP₂, hP₃, hband₁, hm₀, hq, hpx]
  · linarith only [e₁, e₂, e₃, e₂', e₃', hP₁', hP₂, hP₃, hband₂, hg₀, hq, hpx]

/-- A crossing of the padded right side that `meet?` accepts needs the segment to end right of the
rectangle: otherwise the side lies at least `15/16` pad beyond the segment, and the exact first
parameter exceeds `1` by far more than rounding can hide. -/
theorem lt_of_accepted (h : RightFrame x1 y0 y1 px py qx qy X L H U V G₂ A B)
    (hacc : Accepted U V 0 G₂ A B (2^(-100 : Int))) : x1 < qx := by
  obtain ⟨n, d, hn, hd, hd0, hlo, hhi⟩ := hacc
  by_contra hq
  rw [not_lt] at hq
  obtain ⟨hD, -, hA0, hG0, -⟩ := h.diffs
  have hX := abs_le.mp h.side_x
  have hG0n : 0 ≤ H - L := by linarith only [hG0.1]
  have hP₁ : |(qx - px) * (H - L)| ≤ 2^47 * (H - L) := by
    rw [abs_mul, abs_of_nonneg hG0n]; exact mul_le_mul_of_nonneg_right hD hG0n
  have hP₄ := mul_le_mul_of_nonneg_right hA0.1 hG0n
  have hP₄' := mul_le_mul_of_nonneg_right hA0.2 hG0n
  have hgap := mul_le_mul_of_nonneg_right (show 15/16 ≤ X - qx by linarith only [hX.1, hq]) hG0n
  obtain ⟨e₁, -, -, e₄⟩ := h.products
  rw [abs_of_nonneg (mul_nonneg (by linarith only [hA0.1]) hG0n)] at e₄
  have e₁' := (abs_sub_abs_le_abs_sub (U * G₂) ((qx - px) * (H - L))).trans e₁
  have hP₁' := abs_le.mp hP₁
  rw [abs_le] at e₁ e₄
  have hQ₄ : 0 < A * G₂ := by linarith only [e₄, hP₄, hG0]
  have hτ : (2 : ℚ)^(-100 : Int) = 1 / 2^100 := by norm_num
  rw [hτ] at hn hd
  simp only [crossErr, crossQ, crossMag, mul_zero, sub_zero, abs_zero, add_zero,
    abs_of_pos hQ₄] at hn hd
  rw [abs_le] at hn hd
  have hd' := neg_abs_le (U * G₂)
  rcases lt_or_gt_of_ne hd0 with hneg | hpos
  · rw [lt_div_iff_of_neg hneg] at hlo
    have hdb : -d ≤ 2^100 := by linarith only [hd, hd', e₁', hP₁, hG0]
    have hdη := mul_le_mul_of_nonneg_left hdb (show (0 : ℚ) ≤ 2^(-1074 : Int) by positivity)
    have hη : (2 : ℚ)^(-1074 : Int) * 2^100 ≤ 1 := by
      rw [← zpow_natCast, ← zpow_add₀ two_ne_zero]
      exact zpow_le_one_of_nonpos₀ (by norm_num) (by norm_num)
    linarith only [hlo, hdη, hη, hn, e₄, hP₄, hG0]
  · rw [div_lt_iff₀ hpos] at hhi
    have h52 : (2 : ℚ)^(-52 : Int) = 1 / 2^52 := by norm_num
    rw [h52] at hhi
    linarith only [hhi, hn, hd, hd', hpos, e₁, e₁', e₄, hP₁, hP₁', hP₄', hgap, hG0]

theorem crossMag_le (h : RightFrame x1 y0 y1 px py qx qy X L H U V G₂ A B) :
    crossMag U V 0 G₂ ≤ 2^97 ∧ crossMag A B 0 G₂ ≤ 2^97 ∧ crossMag A B U V ≤ 2^97 := by
  obtain ⟨hD, hW, hA0, hG0, hB0⟩ := h.diffs
  have hτ : (2 : ℚ)^(-100 : Int) ≤ 1 := zpow_le_one_of_nonpos₀ (by norm_num) (by norm_num)
  have hr : ∀ {x r : ℚ}, Approx x r (2^(-100 : Int)) → |r| ≤ 2^47 + 5 → |x| ≤ 2^48 := by
    intro x r hx hr
    have := abs_sub_abs_le_abs_sub x r
    unfold Approx at hx
    linarith
  have hp : ∀ {x y : ℚ}, |x| ≤ 2^48 → |y| ≤ 2^48 → |x * y| ≤ 2^96 := fun hx hy => by
    rw [abs_mul]
    calc |_| * |_| ≤ (2 : ℚ)^48 * 2^48 := mul_le_mul hx hy (abs_nonneg _) (by positivity)
      _ = 2^96 := by norm_num
  have hU' := hr h.dir_x (hD.trans (by norm_num))
  have hV' := hr h.dir_y (hW.trans (by norm_num))
  have hG' := hr h.len (abs_le.mpr ⟨by linarith, by linarith⟩)
  have hA' := hr h.off_x (abs_le.mpr ⟨by linarith, by linarith⟩)
  have hB' := hr h.off_y (abs_le.mpr ⟨by linarith, by linarith⟩)
  simp only [crossMag, mul_zero, abs_zero, add_zero]
  refine ⟨(hp hU' hG').trans (by norm_num), (hp hA' hG').trans (by norm_num), ?_⟩
  linarith [hp hA' hV', hp hB' hU']

end RightFrame

end GridIndex
