import GridIndex.Proofs.CrossingPoint

/-!
# Padded sides catch every exit

`Rect.crossingsPadded` pushes each side of a rectangle out by a pad and lengthens it by a pad past
both of its ends. Take a segment from a point of the rectangle to a point beyond the rectangle
grown by two pads, with every coordinate within `2^46` pads of zero and each pad between `2^-450`
and `2^450`. Then some padded side reports a crossing, and every side that reports one has the
segment's end strictly beyond the matching side of the rectangle.

The range of the pads is needed. A pad of `1e-200` leaves the cross products of a rectangle of
size `1e-190` below the least subnormal float, and no side reports a crossing; a pad of `1e150`
takes those of a rectangle of size `1e160` beyond the largest float, with the same result.

Each side is the right side of a `RightFrame` after a turn of the plane, in coordinates where each
pad is `1`; `PadInput` gathers what the theorem reads of its input.

The argument needs the start only within `1/2` pad of the rectangle (`PadNear`), which is what a
walk has at its first cell, where the start may lie a rounding beyond the grid's last line. Over
a rectangle of moderate size it also tells where each crossing lies: near the point of the
segment at some parameter in `[0, 1]` (`Segment.at`), and that point near the padded side
crossed (`Rect.crossingsPadded_near`).
-/

namespace GridIndex

set_option autoImplicit false

open Binary

/-! ## Rounding in units of a pad -/

section Scaled

variable {w : ℚ}

theorem least_div_pad_le (hw : 2^(-450 : Int) ≤ w) :
    (2 : ℚ)^(-1074 : Int) / w ≤ 2^(-100 : Int) := by
  rw [div_le_iff₀ (lt_of_lt_of_le (by positivity) hw)]
  calc (2 : ℚ)^(-1074 : Int) ≤ 2^(-550 : Int) := zpow_le_zpow_right₀ (by norm_num) (by norm_num)
    _ = 2^(-100 : Int) * 2^(-450 : Int) := by rw [← zpow_add₀ two_ne_zero]; norm_num
    _ ≤ 2^(-100 : Int) * w := mul_le_mul_of_nonneg_left hw (by positivity)

theorem abs_le_of_pads {x : ℚ} (hw : 2^(-450 : Int) ≤ w) (hw' : w ≤ 2^(450 : Int))
    (hx : |x / w| ≤ 2^49) : |x| ≤ 2^(1000 : Int) := by
  have hpos : 0 < w := lt_of_lt_of_le (by positivity) hw
  rw [abs_div, abs_of_pos hpos, div_le_iff₀ hpos] at hx
  calc |x| ≤ 2^49 * w := hx
    _ ≤ 2^49 * 2^(450 : Int) := mul_le_mul_of_nonneg_left hw' (by positivity)
    _ ≤ 2^(1000 : Int) := by
      rw [← zpow_natCast, ← zpow_add₀ two_ne_zero]
      exact zpow_le_zpow_right₀ (by norm_num) (by norm_num)

variable {x y : Float} (hx : (ofFloat x).isFinite = true) (hy : (ofFloat y).isFinite = true)
  (hw : 2^(-450 : Int) ≤ w) (hw' : w ≤ 2^(450 : Int))
include hx hy hw hw'

theorem approx_sub_div (hxb : |(ofFloat x).toRat / w| ≤ 2^48)
    (hyb : |(ofFloat y).toRat / w| ≤ 2^48) :
    (ofFloat (x - y)).isFinite = true ∧
      Approx ((ofFloat (x - y)).toRat / w) ((ofFloat x).toRat / w - (ofFloat y).toRat / w)
        (2^(-100 : Int)) := by
  have hb : |((ofFloat x).toRat - (ofFloat y).toRat) / w| ≤ 2^49 := by
    rw [sub_div]
    have := abs_sub ((ofFloat x).toRat / w) ((ofFloat y).toRat / w)
    linarith
  obtain ⟨hf, ha⟩ := approx_sub hx hy (abs_le_of_pads hw hw' hb)
  have hpos : 0 < w := lt_of_lt_of_le (by positivity) hw
  refine ⟨hf, ?_⟩
  rw [← sub_div]
  exact (ha.div hpos).mono (least_div_pad_le hw)

theorem shift_add_near (hxb : |(ofFloat x).toRat / (ofFloat y).toRat| ≤ 2^46 + 2)
    (hyw : (ofFloat y).toRat = w) :
    (ofFloat (x + y)).isFinite = true ∧
      |(ofFloat (x + y)).toRat / w - ((ofFloat x).toRat / w + 1)| ≤ 1/32 := by
  subst hyw
  have hpos : 0 < (ofFloat y).toRat := lt_of_lt_of_le (by positivity) hw
  have hb : |((ofFloat x).toRat + (ofFloat y).toRat) / (ofFloat y).toRat| ≤ 2^49 := by
    rw [add_div, div_self hpos.ne']
    have := abs_add_le ((ofFloat x).toRat / (ofFloat y).toRat) 1
    rw [abs_one] at this
    linarith
  obtain ⟨hf, ha⟩ := approx_add hx hy (abs_le_of_pads hw hw' hb)
  refine ⟨hf, ?_⟩
  have h := (ha.div hpos).mono (least_div_pad_le hw)
  rw [add_div, div_self hpos.ne'] at h
  unfold Approx at h
  have h₁ := abs_add_le ((ofFloat x).toRat / (ofFloat y).toRat) 1
  have h₂ : (2 : ℚ)^(-100 : Int) ≤ 1 / 2^100 := by norm_num
  rw [abs_one] at h₁
  linarith

theorem shift_sub_near (hxb : |(ofFloat x).toRat / (ofFloat y).toRat| ≤ 2^46 + 2)
    (hyw : (ofFloat y).toRat = w) :
    (ofFloat (x - y)).isFinite = true ∧
      |(ofFloat (x - y)).toRat / w - ((ofFloat x).toRat / w - 1)| ≤ 1/32 := by
  subst hyw
  have hpos : 0 < (ofFloat y).toRat := lt_of_lt_of_le (by positivity) hw
  have hb : |((ofFloat x).toRat - (ofFloat y).toRat) / (ofFloat y).toRat| ≤ 2^49 := by
    rw [sub_div, div_self hpos.ne']
    have := abs_sub ((ofFloat x).toRat / (ofFloat y).toRat) 1
    rw [abs_one] at this
    linarith
  obtain ⟨hf, ha⟩ := approx_sub hx hy (abs_le_of_pads hw hw' hb)
  refine ⟨hf, ?_⟩
  have h := (ha.div hpos).mono (least_div_pad_le hw)
  rw [sub_div, div_self hpos.ne'] at h
  unfold Approx at h
  have h₁ := abs_sub ((ofFloat x).toRat / (ofFloat y).toRat) 1
  have h₂ : (2 : ℚ)^(-100 : Int) ≤ 1 / 2^100 := by norm_num
  rw [abs_one] at h₁
  linarith

theorem shift_add_add_near (hxb : |(ofFloat x).toRat / (ofFloat y).toRat| ≤ 2^46)
    (hyw : (ofFloat y).toRat = w) :
    (ofFloat (x + y)).isFinite = true ∧ (ofFloat (x + y + y)).isFinite = true ∧
      |(ofFloat (x + y)).toRat / w - ((ofFloat x).toRat / w + 1)| ≤ 1/16 ∧
      |(ofFloat (x + y + y)).toRat / w - ((ofFloat x).toRat / w + 2)| ≤ 1/16 := by
  obtain ⟨hf, h₁⟩ := shift_add_near hx hy hw hw' (hxb.trans (by norm_num)) hyw
  have hb : |(ofFloat (x + y)).toRat / (ofFloat y).toRat| ≤ 2^46 + 2 := by
    subst hyw; rw [abs_le] at hxb h₁ ⊢; constructor <;> linarith
  obtain ⟨hf', h₂⟩ := shift_add_near hf hy hw hw' hb hyw
  refine ⟨hf, hf', h₁.trans (by norm_num), ?_⟩
  rw [abs_le] at h₁ h₂ ⊢
  constructor <;> linarith

theorem shift_sub_sub_near (hxb : |(ofFloat x).toRat / (ofFloat y).toRat| ≤ 2^46)
    (hyw : (ofFloat y).toRat = w) :
    (ofFloat (x - y)).isFinite = true ∧ (ofFloat (x - y - y)).isFinite = true ∧
      |(ofFloat (x - y)).toRat / w - ((ofFloat x).toRat / w - 1)| ≤ 1/16 ∧
      |(ofFloat (x - y - y)).toRat / w - ((ofFloat x).toRat / w - 2)| ≤ 1/16 := by
  obtain ⟨hf, h₁⟩ := shift_sub_near hx hy hw hw' (hxb.trans (by norm_num)) hyw
  have hb : |(ofFloat (x - y)).toRat / (ofFloat y).toRat| ≤ 2^46 + 2 := by
    subst hyw; rw [abs_le] at hxb h₁ ⊢; constructor <;> linarith
  obtain ⟨hf', h₂⟩ := shift_sub_near hf hy hw hw' hb hyw
  refine ⟨hf, hf', h₁.trans (by norm_num), ?_⟩
  rw [abs_le] at h₁ h₂ ⊢
  constructor <;> linarith

end Scaled

theorem abs_point_pads_le {w x P D W t ι : ℚ} (hw : 0 < w) (hι : ι / w ≤ 2^(-100 : Int))
    (h : |x - (P + D * t)| ≤ (|P| + 2 * |D * t|) / 2^51 + 3 * ι)
    (hD : |D / w - W| ≤ |W| / 2^52 + 2^(-100 : Int)) (ht0 : 0 ≤ t) (ht1 : t ≤ 1)
    (hP : |P / w| ≤ 2^46) (htW : |t * W| ≤ 2^40) :
    |x / w - (P / w + t * W)| ≤ 1/16 := by
  have hη : (2 : ℚ)^(-100 : Int) = 1 / 2^100 := by norm_num
  rw [hη] at hι hD
  have h' : |x / w - (P / w + D / w * t)| ≤ (|P / w| + 2 * |D / w * t|) / 2^51 + 3 * ι / w := by
    have e : x / w - (P / w + D / w * t) = (x - (P + D * t)) / w := by field_simp
    rw [e, abs_div, abs_of_pos hw, div_le_iff₀ hw]
    calc |x - (P + D * t)| ≤ (|P| + 2 * |D * t|) / 2^51 + 3 * ι := h
      _ = ((|P / w| + 2 * |D / w * t|) / 2^51 + 3 * ι / w) * w := by
        rw [abs_div, abs_of_pos hw, div_mul_eq_mul_div, abs_div, abs_of_pos hw]
        field_simp
  have htW' : t * |W| = |t * W| := by rw [abs_mul, abs_of_nonneg ht0]
  have hmove : |D / w * t - t * W| ≤ |t * W| / 2^52 + 1 / 2^100 := by
    rw [show D / w * t - t * W = t * (D / w - W) by ring, abs_mul, abs_of_nonneg ht0, ← htW']
    calc t * |D / w - W| ≤ t * (|W| / 2^52 + 1 / 2^100) := mul_le_mul_of_nonneg_left hD ht0
      _ = t * |W| / 2^52 + t * (1 / 2^100) := by ring
      _ ≤ t * |W| / 2^52 + 1 / 2^100 := by
        have := mul_le_of_le_one_left (show (0 : ℚ) ≤ 1 / 2^100 by norm_num) ht1
        linarith
  have hι3 : 3 * ι / w = 3 * (ι / w) := by ring
  have hDt : |D / w * t| ≤ 2^40 + 1 := by
    have := abs_sub_abs_le_abs_sub (D / w * t) (t * W)
    linarith
  have htri := abs_sub_le (x / w) (P / w + D / w * t) (P / w + t * W)
  rw [show P / w + D / w * t - (P / w + t * W) = D / w * t - t * W by ring] at htri
  linarith

/-! ## Crossings in units of the pads -/

theorem pads_product {α β : ℚ} (hα : 2^(-450 : Int) ≤ α ∧ α ≤ 2^(450 : Int))
    (hβ : 2^(-450 : Int) ≤ β ∧ β ≤ 2^(450 : Int)) :
    0 < α ∧ 0 < β ∧ (2 : ℚ)^(-1074 : Int) ≤ 2^(-100 : Int) * (α * β) ∧
      2^97 * (α * β) ≤ 2^(999 : Int) := by
  have hαp : 0 < α := lt_of_lt_of_le (by positivity) hα.1
  have hβp : 0 < β := lt_of_lt_of_le (by positivity) hβ.1
  refine ⟨hαp, hβp, ?_, ?_⟩
  · calc (2 : ℚ)^(-1074 : Int) ≤ 2^(-1000 : Int) := zpow_le_zpow_right₀ (by norm_num) (by norm_num)
      _ = 2^(-100 : Int) * (2^(-450 : Int) * 2^(-450 : Int)) := by
        rw [← zpow_add₀ two_ne_zero, ← zpow_add₀ two_ne_zero]; norm_num
      _ ≤ 2^(-100 : Int) * (α * β) :=
        mul_le_mul_of_nonneg_left (mul_le_mul hα.1 hβ.1 (by positivity) hαp.le) (by positivity)
  · calc 2^97 * (α * β) ≤ 2^97 * (2^(450 : Int) * 2^(450 : Int)) :=
        mul_le_mul_of_nonneg_left (mul_le_mul hα.2 hβ.2 hβp.le (by positivity)) (by positivity)
      _ ≤ 2^(999 : Int) := by
        rw [← zpow_natCast, ← zpow_add₀ two_ne_zero, ← zpow_add₀ two_ne_zero]
        exact zpow_le_zpow_right₀ (by norm_num) (by norm_num)

section Pads

variable {a b : Segment} {α β : ℚ} (hα : 2^(-450 : Int) ≤ α ∧ α ≤ 2^(450 : Int))
  (hβ : 2^(-450 : Int) ≤ β ∧ β ≤ 2^(450 : Int))
include hα hβ

theorem crossMag_le_of_pads {U V G₁ G₂ : ℚ}
    (h : crossMag (U / α) (V / β) (G₁ / α) (G₂ / β) ≤ 2^97) :
    crossMag U V G₁ G₂ ≤ 2^(999 : Int) := by
  obtain ⟨hαp, hβp, -, hK⟩ := pads_product hα hβ
  rw [crossMag_div _ _ _ _ hαp hβp, div_le_iff₀ (mul_pos hαp hβp)] at h
  exact h.trans hK

theorem isSome_meet?_of_pads (hab : a.delta.Finite) (hcd : b.delta.Finite)
    (hac : (b.p0 - a.p0).Finite)
    (hK₁ : crossMag ((ofFloat a.delta.x).toRat / α) ((ofFloat a.delta.y).toRat / β)
      ((ofFloat b.delta.x).toRat / α) ((ofFloat b.delta.y).toRat / β) ≤ 2^97)
    (hK₂ : crossMag ((ofFloat (b.p0 - a.p0).x).toRat / α) ((ofFloat (b.p0 - a.p0).y).toRat / β)
      ((ofFloat b.delta.x).toRat / α) ((ofFloat b.delta.y).toRat / β) ≤ 2^97)
    (hK₃ : crossMag ((ofFloat (b.p0 - a.p0).x).toRat / α) ((ofFloat (b.p0 - a.p0).y).toRat / β)
      ((ofFloat a.delta.x).toRat / α) ((ofFloat a.delta.y).toRat / β) ≤ 2^97)
    (h : Margins ((ofFloat a.delta.x).toRat / α) ((ofFloat a.delta.y).toRat / β)
      ((ofFloat b.delta.x).toRat / α) ((ofFloat b.delta.y).toRat / β)
      ((ofFloat (b.p0 - a.p0).x).toRat / α) ((ofFloat (b.p0 - a.p0).y).toRat / β)
      (2^(-100 : Int))) :
    (a.meet? b).isSome = true := by
  obtain ⟨hαp, hβp, hτ, -⟩ := pads_product hα hβ
  exact Segment.isSome_meet?_of_margins hab hcd hac (crossMag_le_of_pads hα hβ hK₁)
    (crossMag_le_of_pads hα hβ hK₂) (crossMag_le_of_pads hα hβ hK₃) (h.of_div hαp hβp hτ)

theorem accepted_of_pads {p : Point} (hm : a.meet? b = some p) (hab : a.delta.Finite)
    (hcd : b.delta.Finite) (hac : (b.p0 - a.p0).Finite)
    (hK₁ : crossMag ((ofFloat a.delta.x).toRat / α) ((ofFloat a.delta.y).toRat / β)
      ((ofFloat b.delta.x).toRat / α) ((ofFloat b.delta.y).toRat / β) ≤ 2^97)
    (hK₂ : crossMag ((ofFloat (b.p0 - a.p0).x).toRat / α) ((ofFloat (b.p0 - a.p0).y).toRat / β)
      ((ofFloat b.delta.x).toRat / α) ((ofFloat b.delta.y).toRat / β) ≤ 2^97) :
    Accepted ((ofFloat a.delta.x).toRat / α) ((ofFloat a.delta.y).toRat / β)
      ((ofFloat b.delta.x).toRat / α) ((ofFloat b.delta.y).toRat / β)
      ((ofFloat (b.p0 - a.p0).x).toRat / α) ((ofFloat (b.p0 - a.p0).y).toRat / β)
      (2^(-100 : Int)) := by
  obtain ⟨hαp, hβp, hτ, -⟩ := pads_product hα hβ
  exact (Segment.accepted_of_meet? hm hab hcd hac (crossMag_le_of_pads hα hβ hK₁)
    (crossMag_le_of_pads hα hβ hK₂)).div hαp hβp hτ

theorem crossed_of_pads {p : Point} (hm : a.meet? b = some p) (hab : a.delta.Finite)
    (hcd : b.delta.Finite) (hac : (b.p0 - a.p0).Finite)
    (hK₁ : crossMag ((ofFloat a.delta.x).toRat / α) ((ofFloat a.delta.y).toRat / β)
      ((ofFloat b.delta.x).toRat / α) ((ofFloat b.delta.y).toRat / β) ≤ 2^97)
    (hK₂ : crossMag ((ofFloat (b.p0 - a.p0).x).toRat / α) ((ofFloat (b.p0 - a.p0).y).toRat / β)
      ((ofFloat b.delta.x).toRat / α) ((ofFloat b.delta.y).toRat / β) ≤ 2^97)
    (hK₃ : crossMag ((ofFloat (b.p0 - a.p0).x).toRat / α) ((ofFloat (b.p0 - a.p0).y).toRat / β)
      ((ofFloat a.delta.x).toRat / α) ((ofFloat a.delta.y).toRat / β) ≤ 2^97) :
    Crossed ((ofFloat a.delta.x).toRat / α) ((ofFloat a.delta.y).toRat / β)
      ((ofFloat b.delta.x).toRat / α) ((ofFloat b.delta.y).toRat / β)
      ((ofFloat (b.p0 - a.p0).x).toRat / α) ((ofFloat (b.p0 - a.p0).y).toRat / β)
      (2^(-100 : Int)) (ofFloat (a.meetParam b)).toRat := by
  obtain ⟨hαp, hβp, hτ, -⟩ := pads_product hα hβ
  exact (Segment.crossed_of_meet? hm hab hcd hac (crossMag_le_of_pads hα hβ hK₁)
    (crossMag_le_of_pads hα hβ hK₂) (crossMag_le_of_pads hα hβ hK₃)).div hαp hβp hτ

end Pads

theorem abs_neg_sub_le {a b c ε : ℚ} (h : |a - b| ≤ ε) (hc : c = -b) : |-a - c| ≤ ε := by
  rwa [hc, neg_sub_neg, abs_sub_comm]

theorem abs_neg_frame (a b c t : ℚ) : |-a + t * (-b - -a) - -c| = |a + t * (b - a) - c| := by
  rw [show -a + t * (-b - -a) - -c = -(a + t * (b - a) - c) by ring, abs_neg]

theorem abs_mul_neg_sub_neg (t a b : ℚ) : |t * (-b - -a)| = |t * (b - a)| := by
  rw [show t * (-b - -a) = -(t * (b - a)) by ring, abs_neg]

/-! ## Back from pads -/

section Unscaled

variable {a b k k' w : ℚ} (hw : 0 < w)
include hw

theorem le_of_pads (h : a / w ≤ b / w + k) : a ≤ b + k * w := by
  have := mul_le_mul_of_nonneg_right h hw.le
  rwa [add_mul, div_mul_cancel₀ _ hw.ne', div_mul_cancel₀ _ hw.ne'] at this

theorem sub_le_of_pads (h : a / w - k ≤ b / w) : a - k * w ≤ b := by
  have := mul_le_mul_of_nonneg_right h hw.le
  rwa [sub_mul, div_mul_cancel₀ _ hw.ne', div_mul_cancel₀ _ hw.ne'] at this

theorem abs_sub_le_of_pads (h : |a / w - (b / w + k)| ≤ k') : |a - (b + k * w)| ≤ k' * w := by
  have e : a - (b + k * w) = (a / w - (b / w + k)) * w := by field_simp
  rw [e, abs_mul, abs_of_pos hw]
  exact mul_le_mul_of_nonneg_right h hw.le

theorem abs_sub_le_of_pads_sub (h : |a / w - (b / w - k)| ≤ k') :
    |a - (b - k * w)| ≤ k' * w := by
  have e : a - (b - k * w) = (a / w - (b / w - k)) * w := by field_simp
  rw [e, abs_mul, abs_of_pos hw]
  exact mul_le_mul_of_nonneg_right h hw.le

theorem abs_sub_le_of_pads₀ (h : |a / w - b / w| ≤ k') : |a - b| ≤ k' * w := by
  rw [← sub_div, abs_div, abs_of_pos hw, div_le_iff₀ hw] at h
  exact h

end Unscaled

/-! ## The input -/

def Vec.padsX (pad : Vec) (v : Float) : ℚ := (ofFloat v).toRat / (ofFloat pad.x).toRat

def Vec.padsY (pad : Vec) (v : Float) : ℚ := (ofFloat v).toRat / (ofFloat pad.y).toRat

/-- What the padded-exit theorem reads of a rectangle, a segment and a pad: all finite, each pad
between `2^-450` and `2^450`, the segment's start in the rectangle, and every coordinate within
`2^46` pads of zero. -/
structure PadInput (r : Rect) (s : Segment) (pad : Vec) : Prop where
  rect : r.Finite
  stop : s.p1.Finite
  finite_pad : pad.Finite
  pad_x : 2^(-450 : Int) ≤ (ofFloat pad.x).toRat ∧ (ofFloat pad.x).toRat ≤ 2^(450 : Int)
  pad_y : 2^(-450 : Int) ≤ (ofFloat pad.y).toRat ∧ (ofFloat pad.y).toRat ≤ 2^(450 : Int)
  inside : r.contains s.p0 = true
  scale_x : ∀ v ∈ [r.x0, r.x1, s.p0.x, s.p1.x], |(ofFloat v).toRat| ≤ 2^46 * (ofFloat pad.x).toRat
  scale_y : ∀ v ∈ [r.y0, r.y1, s.p0.y, s.p1.y], |(ofFloat v).toRat| ≤ 2^46 * (ofFloat pad.y).toRat

/-- `q` is the point of the segment `s` at `t ∈ [0, 1]` up to `1/16` pad in each coordinate. -/
def Vec.NearAt (pad : Vec) (s : Segment) (t : ℚ) (q : Point) : Prop :=
  0 ≤ t ∧ t ≤ 1 ∧
    |pad.padsX q.x - (pad.padsX s.p0.x + t * (pad.padsX s.p1.x - pad.padsX s.p0.x))| ≤ 1/16 ∧
    |pad.padsY q.y - (pad.padsY s.p0.y + t * (pad.padsY s.p1.y - pad.padsY s.p0.y))| ≤ 1/16

/-- What the side lemmas read: as `PadInput`, but with the segment's start only within `1/2` pad
of the rectangle, in pads. -/
structure PadNear (r : Rect) (s : Segment) (pad : Vec) : Prop where
  rect : r.Finite
  start : s.p0.Finite
  stop : s.p1.Finite
  finite_pad : pad.Finite
  pad_x : 2^(-450 : Int) ≤ (ofFloat pad.x).toRat ∧ (ofFloat pad.x).toRat ≤ 2^(450 : Int)
  pad_y : 2^(-450 : Int) ≤ (ofFloat pad.y).toRat ∧ (ofFloat pad.y).toRat ≤ 2^(450 : Int)
  near : (pad.padsX r.x0 - 1/2 ≤ pad.padsX s.p0.x ∧ pad.padsX s.p0.x ≤ pad.padsX r.x1 + 1/2) ∧
    (pad.padsY r.y0 - 1/2 ≤ pad.padsY s.p0.y ∧ pad.padsY s.p0.y ≤ pad.padsY r.y1 + 1/2)
  scale_x : ∀ v ∈ [r.x0, r.x1, s.p0.x, s.p1.x], |(ofFloat v).toRat| ≤ 2^46 * (ofFloat pad.x).toRat
  scale_y : ∀ v ∈ [r.y0, r.y1, s.p0.y, s.p1.y], |(ofFloat v).toRat| ≤ 2^46 * (ofFloat pad.y).toRat

namespace PadInput

variable {r : Rect} {s : Segment} {pad : Vec} (h : PadInput r s pad)
include h

theorem start : s.p0.Finite := h.rect.contains h.inside

theorem pos_x : 0 < (ofFloat pad.x).toRat := lt_of_lt_of_le (by positivity) h.pad_x.1

theorem pos_y : 0 < (ofFloat pad.y).toRat := lt_of_lt_of_le (by positivity) h.pad_y.1

theorem start_pads : (pad.padsX r.x0 ≤ pad.padsX s.p0.x ∧ pad.padsX s.p0.x ≤ pad.padsX r.x1) ∧
    (pad.padsY r.y0 ≤ pad.padsY s.p0.y ∧ pad.padsY s.p0.y ≤ pad.padsY r.y1) := by
  obtain ⟨h₁, h₂, h₃, h₄⟩ := (r.contains_iff s.p0).mp h.inside
  have hp := h.start
  have hr := h.rect
  simp only [Vec.padsX, Vec.padsY]
  exact ⟨⟨div_le_div_of_nonneg_right (toRat_le_of_le hr.x0 hp.x h₁) h.pos_x.le,
      div_le_div_of_nonneg_right (toRat_le_of_le hp.x hr.x1 h₃) h.pos_x.le⟩,
    ⟨div_le_div_of_nonneg_right (toRat_le_of_le hr.y0 hp.y h₂) h.pos_y.le,
      div_le_div_of_nonneg_right (toRat_le_of_le hp.y hr.y1 h₄) h.pos_y.le⟩⟩

theorem near : PadNear r s pad := by
  obtain ⟨⟨hx₀, hx₁⟩, hy₀, hy₁⟩ := h.start_pads
  exact ⟨h.rect, h.start, h.stop, h.finite_pad, h.pad_x, h.pad_y,
    ⟨⟨by linarith, by linarith⟩, by linarith, by linarith⟩, h.scale_x, h.scale_y⟩

end PadInput

namespace PadNear

variable {r : Rect} {s : Segment} {pad : Vec} (h : PadNear r s pad)
include h

theorem pos_x : 0 < (ofFloat pad.x).toRat := lt_of_lt_of_le (by positivity) h.pad_x.1

theorem pos_y : 0 < (ofFloat pad.y).toRat := lt_of_lt_of_le (by positivity) h.pad_y.1

theorem padsX_le {v : Float} (hv : v ∈ [r.x0, r.x1, s.p0.x, s.p1.x]) : |pad.padsX v| ≤ 2^46 := by
  rw [Vec.padsX, abs_div, abs_of_pos h.pos_x, div_le_iff₀ h.pos_x]
  exact h.scale_x v hv

theorem padsY_le {v : Float} (hv : v ∈ [r.y0, r.y1, s.p0.y, s.p1.y]) : |pad.padsY v| ≤ 2^46 := by
  rw [Vec.padsY, abs_div, abs_of_pos h.pos_y, div_le_iff₀ h.pos_y]
  exact h.scale_y v hv

theorem approx_side {b : Segment} (hb₀ : b.p0.Finite) (hb₁ : b.p1.Finite)
    (h₀x : |pad.padsX b.p0.x| ≤ 2^48) (h₀y : |pad.padsY b.p0.y| ≤ 2^48)
    (h₁x : |pad.padsX b.p1.x| ≤ 2^48) (h₁y : |pad.padsY b.p1.y| ≤ 2^48) :
    s.delta.Finite ∧ b.delta.Finite ∧ (b.p0 - s.p0).Finite ∧
      Approx (pad.padsX (s.p1.x - s.p0.x)) (pad.padsX s.p1.x - pad.padsX s.p0.x) (2^(-100 : Int)) ∧
      Approx (pad.padsY (s.p1.y - s.p0.y)) (pad.padsY s.p1.y - pad.padsY s.p0.y) (2^(-100 : Int)) ∧
      Approx (pad.padsX (b.p1.x - b.p0.x)) (pad.padsX b.p1.x - pad.padsX b.p0.x) (2^(-100 : Int)) ∧
      Approx (pad.padsY (b.p1.y - b.p0.y)) (pad.padsY b.p1.y - pad.padsY b.p0.y) (2^(-100 : Int)) ∧
      Approx (pad.padsX (b.p0.x - s.p0.x)) (pad.padsX b.p0.x - pad.padsX s.p0.x) (2^(-100 : Int)) ∧
      Approx (pad.padsY (b.p0.y - s.p0.y)) (pad.padsY b.p0.y - pad.padsY s.p0.y)
        (2^(-100 : Int)) := by
  have hα := h.pad_x
  have hβ := h.pad_y
  have h46 : (2 : ℚ)^46 ≤ 2^48 := by norm_num
  have hpx := (h.padsX_le (v := s.p0.x) (by simp)).trans h46
  have hqx := (h.padsX_le (v := s.p1.x) (by simp)).trans h46
  have hpy := (h.padsY_le (v := s.p0.y) (by simp)).trans h46
  have hqy := (h.padsY_le (v := s.p1.y) (by simp)).trans h46
  obtain ⟨hUf, hU⟩ := approx_sub_div h.stop.x h.start.x hα.1 hα.2 hqx hpx
  obtain ⟨hVf, hV⟩ := approx_sub_div h.stop.y h.start.y hβ.1 hβ.2 hqy hpy
  obtain ⟨hGf, hG⟩ := approx_sub_div hb₁.x hb₀.x hα.1 hα.2 h₁x h₀x
  obtain ⟨hHf, hH⟩ := approx_sub_div hb₁.y hb₀.y hβ.1 hβ.2 h₁y h₀y
  obtain ⟨hAf, hA⟩ := approx_sub_div hb₀.x h.start.x hα.1 hα.2 h₀x hpx
  obtain ⟨hBf, hB⟩ := approx_sub_div hb₀.y h.start.y hβ.1 hβ.2 h₀y hpy
  exact ⟨⟨hUf, hVf⟩, ⟨hGf, hHf⟩, ⟨hAf, hBf⟩, hU, hV, hG, hH, hA, hB⟩

theorem meet?_point_pads {b : Segment} {q : Point} (hq : s.meet? b = some q)
    (hx : |(ofFloat (s.meetParam b)).toRat * (pad.padsX s.p1.x - pad.padsX s.p0.x)| ≤ 2^40)
    (hy : |(ofFloat (s.meetParam b)).toRat * (pad.padsY s.p1.y - pad.padsY s.p0.y)| ≤ 2^40) :
    pad.NearAt s (ofFloat (s.meetParam b)).toRat q := by
  obtain ⟨-, ht, -, -⟩ := Segment.meet?_eq_some hq
  obtain ⟨-, ht0, ht1⟩ := Segment.inUnit_spec (t := s.meetParam b) ht
  have hα := h.pad_x
  have hβ := h.pad_y
  have h46 : (2 : ℚ)^46 ≤ 2^48 := by norm_num
  have hpx := h.padsX_le (v := s.p0.x) (by simp)
  have hqx := h.padsX_le (v := s.p1.x) (by simp)
  have hpy := h.padsY_le (v := s.p0.y) (by simp)
  have hqy := h.padsY_le (v := s.p1.y) (by simp)
  obtain ⟨-, hU⟩ := approx_sub_div h.stop.x h.start.x hα.1 hα.2 (hqx.trans h46) (hpx.trans h46)
  obtain ⟨-, hV⟩ := approx_sub_div h.stop.y h.start.y hβ.1 hβ.2 (hqy.trans h46) (hpy.trans h46)
  have hbound : ∀ {w P D W : ℚ}, 2^(-450 : Int) ≤ w ∧ w ≤ 2^(450 : Int) → |P / w| ≤ 2^46 →
      Approx (D / w) W (2^(-100 : Int)) → |W| ≤ 2^47 → |P| + 2 * |D| ≤ 2^(999 : Int) := by
    intro w P D W hw hP hD hW
    have hwp : 0 < w := lt_of_lt_of_le (by positivity) hw.1
    have hτ : (2 : ℚ)^(-100 : Int) ≤ 1 := zpow_le_one_of_nonpos₀ (by norm_num) (by norm_num)
    unfold Approx at hD
    have hD' : |D / w| ≤ 2^48 := by
      have := abs_sub_abs_le_abs_sub (D / w) W
      have : |W| / 2^52 ≤ |W| := div_le_self (abs_nonneg W) (by norm_num)
      linarith
    rw [abs_div, abs_of_pos hwp, div_le_iff₀ hwp] at hP hD'
    calc |P| + 2 * |D| ≤ 2^50 * w := by linarith
      _ ≤ 2^50 * 2^(450 : Int) := mul_le_mul_of_nonneg_left hw.2 (by positivity)
      _ ≤ 2^(999 : Int) := by
        rw [← zpow_natCast, ← zpow_add₀ two_ne_zero]
        exact zpow_le_zpow_right₀ (by norm_num) (by norm_num)
  have hWx : |pad.padsX s.p1.x - pad.padsX s.p0.x| ≤ 2^47 := by
    rw [abs_le] at hpx hqx ⊢; constructor <;> linarith
  have hWy : |pad.padsY s.p1.y - pad.padsY s.p0.y| ≤ 2^47 := by
    rw [abs_le] at hpy hqy ⊢; constructor <;> linarith
  obtain ⟨hnx, hny⟩ := Segment.meet?_point_near hq (hbound hα hpx hU hWx) (hbound hβ hpy hV hWy)
  exact ⟨ht0, ht1, abs_point_pads_le h.pos_x (least_div_pad_le hα.1) hnx hU ht0 ht1 hpx hx,
    abs_point_pads_le h.pos_y (least_div_pad_le hβ.1) hny hV ht0 ht1 hpy hy⟩

/-! ## The four sides -/

variable {c e₀ e₁ : Float}

/-- The padded right side, at `c` from `e₀` up to `e₁`, catches an exit through the box's right
edge, and reports a crossing only when the segment ends right of the rectangle. -/
theorem meet_right (hc : (ofFloat c).isFinite = true) (he₀ : (ofFloat e₀).isFinite = true)
    (he₁ : (ofFloat e₁).isFinite = true) (hX : |pad.padsX c - (pad.padsX r.x1 + 1)| ≤ 1/16)
    (hL : |pad.padsY e₀ - (pad.padsY r.y0 - 2)| ≤ 1/16)
    (hH : |pad.padsY e₁ - (pad.padsY r.y1 + 2)| ≤ 1/16) :
    (ExitsRight (pad.padsX r.x1) (pad.padsY r.y0) (pad.padsY r.y1) (pad.padsX s.p0.x)
        (pad.padsY s.p0.y) (pad.padsX s.p1.x) (pad.padsY s.p1.y) →
      (s.meet? ⟨⟨c, e₀⟩, ⟨c, e₁⟩⟩).isSome = true) ∧
    (∀ p, s.meet? ⟨⟨c, e₀⟩, ⟨c, e₁⟩⟩ = some p → r.x1 < s.p1.x) ∧
    (pad.padsX r.x1 - pad.padsX r.x0 ≤ 2^31 → pad.padsY r.y1 - pad.padsY r.y0 ≤ 2^31 →
      ∀ q, s.meet? ⟨⟨c, e₀⟩, ⟨c, e₁⟩⟩ = some q → ∃ t : ℚ, pad.NearAt s t q ∧
        |pad.padsX s.p0.x + t * (pad.padsX s.p1.x - pad.padsX s.p0.x) - pad.padsX c| ≤ 1/16 ∧
        pad.padsY e₀ - 1/16 ≤ pad.padsY s.p0.y + t * (pad.padsY s.p1.y - pad.padsY s.p0.y) ∧
        pad.padsY s.p0.y + t * (pad.padsY s.p1.y - pad.padsY s.p0.y) ≤ pad.padsY e₁ + 1/16) := by
  obtain ⟨⟨hsx₀, hsx⟩, hsy, hsy'⟩ := h.near
  have hx1 := h.padsX_le (v := r.x1) (by simp)
  have hpx := h.padsX_le (v := s.p0.x) (by simp)
  have hqx := h.padsX_le (v := s.p1.x) (by simp)
  have hy0 := h.padsY_le (v := r.y0) (by simp)
  have hy1 := h.padsY_le (v := r.y1) (by simp)
  have hpy := h.padsY_le (v := s.p0.y) (by simp)
  have hqy := h.padsY_le (v := s.p1.y) (by simp)
  have b₁ : |pad.padsX c| ≤ 2^48 := by
    rw [abs_le] at hX hx1 ⊢; constructor <;> linarith only [hX, hx1]
  have b₂ : |pad.padsY e₀| ≤ 2^48 := by
    rw [abs_le] at hL hy0 ⊢; constructor <;> linarith only [hL, hy0]
  have b₃ : |pad.padsY e₁| ≤ 2^48 := by
    rw [abs_le] at hH hy1 ⊢; constructor <;> linarith only [hH, hy1]
  obtain ⟨hsf, hbf, hof, hU, hV, -, hG, hA, hB⟩ :=
    h.approx_side (b := ⟨⟨c, e₀⟩, ⟨c, e₁⟩⟩) ⟨hc, he₀⟩ ⟨hc, he₁⟩ b₁ b₂ b₁ b₃
  have hz := isZero_sub_self hc
  have hG₁ : pad.padsX (c - c) = 0 := by rw [Vec.padsX, toRat_of_isZero hz]; simp
  have hF : RightFrame (pad.padsX r.x1) (pad.padsY r.y0) (pad.padsY r.y1) (pad.padsX s.p0.x)
      (pad.padsY s.p0.y) (pad.padsX s.p1.x) (pad.padsY s.p1.y) (pad.padsX c) (pad.padsY e₀)
      (pad.padsY e₁) (pad.padsX (s.p1.x - s.p0.x)) (pad.padsY (s.p1.y - s.p0.y))
      (pad.padsY (e₁ - e₀)) (pad.padsX (c - s.p0.x)) (pad.padsY (e₀ - s.p0.y)) :=
    ⟨⟨hsx, hsy, hsy'⟩, ⟨hx1, hpx, hqx⟩, ⟨hy0, hy1, hpy, hqy⟩, hX, hL, hH, hU, hV, hG, hA, hB⟩
  obtain ⟨hK₁, hK₂, hK₃⟩ := hF.crossMag_le
  rw [← hG₁] at hK₁ hK₂
  refine ⟨fun hexit => ?_, fun p hp => ?_, fun hw hh q hq => ?_⟩
  · have hM := hF.margins hexit
    rw [← hG₁] at hM
    exact isSome_meet?_of_pads h.pad_x h.pad_y hsf hbf hof hK₁ hK₂ hK₃ hM
  · have hacc := accepted_of_pads h.pad_x h.pad_y hp hsf hbf hof hK₁ hK₂
    change Accepted _ _ (pad.padsX (c - c)) _ _ _ _ at hacc
    rw [hG₁] at hacc
    have hlt := hF.lt_of_accepted hacc
    rw [lt_iff_toRat h.rect.x1 h.stop.x]
    exact (div_lt_div_iff_of_pos_right h.pos_x).mp hlt
  · have hcr := crossed_of_pads h.pad_x h.pad_y hq hsf hbf hof hK₁ hK₂ hK₃
    change Crossed _ _ (pad.padsX (c - c)) _ _ _ _ _ at hcr
    rw [hG₁] at hcr
    obtain ⟨hlx, hly₀, hly₁, htx, hty⟩ := hF.located (by linarith only [hw, hsx₀]) hh hcr
    exact ⟨_, h.meet?_point_pads hq (htx.trans (by norm_num)) (hty.trans (by norm_num)), hlx,
      hly₀, hly₁⟩

theorem meet_left (hc : (ofFloat c).isFinite = true) (he₀ : (ofFloat e₀).isFinite = true)
    (he₁ : (ofFloat e₁).isFinite = true) (hX : |pad.padsX c - (pad.padsX r.x0 - 1)| ≤ 1/16)
    (hL : |pad.padsY e₀ - (pad.padsY r.y0 - 2)| ≤ 1/16)
    (hH : |pad.padsY e₁ - (pad.padsY r.y1 + 2)| ≤ 1/16) :
    (ExitsRight (-pad.padsX r.x0) (-pad.padsY r.y1) (-pad.padsY r.y0) (-pad.padsX s.p0.x)
        (-pad.padsY s.p0.y) (-pad.padsX s.p1.x) (-pad.padsY s.p1.y) →
      (s.meet? ⟨⟨c, e₁⟩, ⟨c, e₀⟩⟩).isSome = true) ∧
    (∀ p, s.meet? ⟨⟨c, e₁⟩, ⟨c, e₀⟩⟩ = some p → s.p1.x < r.x0) ∧
    (pad.padsX r.x1 - pad.padsX r.x0 ≤ 2^31 → pad.padsY r.y1 - pad.padsY r.y0 ≤ 2^31 →
      ∀ q, s.meet? ⟨⟨c, e₁⟩, ⟨c, e₀⟩⟩ = some q → ∃ t : ℚ, pad.NearAt s t q ∧
        |pad.padsX s.p0.x + t * (pad.padsX s.p1.x - pad.padsX s.p0.x) - pad.padsX c| ≤ 1/16 ∧
        pad.padsY e₀ - 1/16 ≤ pad.padsY s.p0.y + t * (pad.padsY s.p1.y - pad.padsY s.p0.y) ∧
        pad.padsY s.p0.y + t * (pad.padsY s.p1.y - pad.padsY s.p0.y) ≤ pad.padsY e₁ + 1/16) := by
  obtain ⟨⟨hsx, hsx₁⟩, hsy, hsy'⟩ := h.near
  have hx0 := h.padsX_le (v := r.x0) (by simp)
  have hpx := h.padsX_le (v := s.p0.x) (by simp)
  have hqx := h.padsX_le (v := s.p1.x) (by simp)
  have hy0 := h.padsY_le (v := r.y0) (by simp)
  have hy1 := h.padsY_le (v := r.y1) (by simp)
  have hpy := h.padsY_le (v := s.p0.y) (by simp)
  have hqy := h.padsY_le (v := s.p1.y) (by simp)
  have b₁ : |pad.padsX c| ≤ 2^48 := by
    rw [abs_le] at hX hx0 ⊢; constructor <;> linarith only [hX, hx0]
  have b₂ : |pad.padsY e₀| ≤ 2^48 := by
    rw [abs_le] at hL hy0 ⊢; constructor <;> linarith only [hL, hy0]
  have b₃ : |pad.padsY e₁| ≤ 2^48 := by
    rw [abs_le] at hH hy1 ⊢; constructor <;> linarith only [hH, hy1]
  obtain ⟨hsf, hbf, hof, hU, hV, -, hG, hA, hB⟩ :=
    h.approx_side (b := ⟨⟨c, e₁⟩, ⟨c, e₀⟩⟩) ⟨hc, he₁⟩ ⟨hc, he₀⟩ b₁ b₃ b₁ b₂
  have hz := isZero_sub_self hc
  have hG₁ : -pad.padsX (c - c) = 0 := by rw [Vec.padsX, toRat_of_isZero hz]; simp
  -- turned by a half turn: every coordinate and difference changes sign
  have hF : RightFrame (-pad.padsX r.x0) (-pad.padsY r.y1) (-pad.padsY r.y0) (-pad.padsX s.p0.x)
      (-pad.padsY s.p0.y) (-pad.padsX s.p1.x) (-pad.padsY s.p1.y) (-pad.padsX c)
      (-pad.padsY e₁) (-pad.padsY e₀) (-pad.padsX (s.p1.x - s.p0.x))
      (-pad.padsY (s.p1.y - s.p0.y)) (-pad.padsY (e₀ - e₁)) (-pad.padsX (c - s.p0.x))
      (-pad.padsY (e₁ - s.p0.y)) :=
    ⟨⟨by linarith only [hsx], by linarith only [hsy'], by linarith only [hsy]⟩,
      ⟨(abs_neg _).trans_le hx0, (abs_neg _).trans_le hpx, (abs_neg _).trans_le hqx⟩,
      ⟨(abs_neg _).trans_le hy1, (abs_neg _).trans_le hy0, (abs_neg _).trans_le hpy,
        (abs_neg _).trans_le hqy⟩,
      abs_neg_sub_le hX (by ring), abs_neg_sub_le hH (by ring), abs_neg_sub_le hL (by ring),
      hU.neg_diff, hV.neg_diff, hG.neg_diff, hA.neg_diff, hB.neg_diff⟩
  obtain ⟨hK₁, hK₂, hK₃⟩ := hF.crossMag_le
  rw [← hG₁, crossMag_neg] at hK₁ hK₂
  rw [crossMag_neg] at hK₃
  refine ⟨fun hexit => ?_, fun p hp => ?_, fun hw hh q hq => ?_⟩
  · have hM := hF.margins hexit
    rw [← hG₁] at hM
    exact isSome_meet?_of_pads h.pad_x h.pad_y hsf hbf hof hK₁ hK₂ hK₃ hM.of_neg
  · have hacc := (accepted_of_pads h.pad_x h.pad_y hp hsf hbf hof hK₁ hK₂).neg
    change Accepted _ _ (-pad.padsX (c - c)) _ _ _ _ at hacc
    rw [hG₁] at hacc
    have hlt := neg_lt_neg_iff.mp (hF.lt_of_accepted hacc)
    rw [lt_iff_toRat h.stop.x h.rect.x0]
    exact (div_lt_div_iff_of_pos_right h.pos_x).mp hlt
  · have hcr := (crossed_of_pads h.pad_x h.pad_y hq hsf hbf hof hK₁ hK₂ hK₃).neg
    change Crossed _ _ (-pad.padsX (c - c)) _ _ _ _ _ at hcr
    rw [hG₁] at hcr
    obtain ⟨hlx, hly₀, hly₁, htx, hty⟩ :=
      hF.located (by linarith only [hw, hsx₁]) (by linarith only [hh]) hcr
    rw [abs_neg_frame] at hlx
    rw [abs_mul_neg_sub_neg] at htx hty
    exact ⟨_, h.meet?_point_pads hq (htx.trans (by norm_num)) (hty.trans (by norm_num)), hlx,
      by linarith only [hly₁], by linarith only [hly₀]⟩

theorem meet_bottom (hc : (ofFloat c).isFinite = true) (he₀ : (ofFloat e₀).isFinite = true)
    (he₁ : (ofFloat e₁).isFinite = true) (hY : |pad.padsY c - (pad.padsY r.y0 - 1)| ≤ 1/16)
    (hL : |pad.padsX e₀ - (pad.padsX r.x0 - 2)| ≤ 1/16)
    (hH : |pad.padsX e₁ - (pad.padsX r.x1 + 2)| ≤ 1/16) :
    (ExitsRight (-pad.padsY r.y0) (pad.padsX r.x0) (pad.padsX r.x1) (-pad.padsY s.p0.y)
        (pad.padsX s.p0.x) (-pad.padsY s.p1.y) (pad.padsX s.p1.x) →
      (s.meet? ⟨⟨e₀, c⟩, ⟨e₁, c⟩⟩).isSome = true) ∧
    (∀ p, s.meet? ⟨⟨e₀, c⟩, ⟨e₁, c⟩⟩ = some p → s.p1.y < r.y0) ∧
    (pad.padsX r.x1 - pad.padsX r.x0 ≤ 2^31 → pad.padsY r.y1 - pad.padsY r.y0 ≤ 2^31 →
      ∀ q, s.meet? ⟨⟨e₀, c⟩, ⟨e₁, c⟩⟩ = some q → ∃ t : ℚ, pad.NearAt s t q ∧
        |pad.padsY s.p0.y + t * (pad.padsY s.p1.y - pad.padsY s.p0.y) - pad.padsY c| ≤ 1/16 ∧
        pad.padsX e₀ - 1/16 ≤ pad.padsX s.p0.x + t * (pad.padsX s.p1.x - pad.padsX s.p0.x) ∧
        pad.padsX s.p0.x + t * (pad.padsX s.p1.x - pad.padsX s.p0.x) ≤ pad.padsX e₁ + 1/16) := by
  obtain ⟨⟨hsx, hsx'⟩, hsy, hsy₁⟩ := h.near
  have hx0 := h.padsX_le (v := r.x0) (by simp)
  have hx1 := h.padsX_le (v := r.x1) (by simp)
  have hpx := h.padsX_le (v := s.p0.x) (by simp)
  have hqx := h.padsX_le (v := s.p1.x) (by simp)
  have hy0 := h.padsY_le (v := r.y0) (by simp)
  have hpy := h.padsY_le (v := s.p0.y) (by simp)
  have hqy := h.padsY_le (v := s.p1.y) (by simp)
  have b₁ : |pad.padsY c| ≤ 2^48 := by
    rw [abs_le] at hY hy0 ⊢; constructor <;> linarith only [hY, hy0]
  have b₂ : |pad.padsX e₀| ≤ 2^48 := by
    rw [abs_le] at hL hx0 ⊢; constructor <;> linarith only [hL, hx0]
  have b₃ : |pad.padsX e₁| ≤ 2^48 := by
    rw [abs_le] at hH hx1 ⊢; constructor <;> linarith only [hH, hx1]
  obtain ⟨hsf, hbf, hof, hU, hV, hG, -, hA, hB⟩ :=
    h.approx_side (b := ⟨⟨e₀, c⟩, ⟨e₁, c⟩⟩) ⟨he₀, hc⟩ ⟨he₁, hc⟩ b₂ b₁ b₃ b₁
  have hz := isZero_sub_self hc
  have hG₂ : -pad.padsY (c - c) = 0 := by rw [Vec.padsY, toRat_of_isZero hz]; simp
  -- turned by a quarter turn: `(x, y)` becomes `(-y, x)`
  have hF : RightFrame (-pad.padsY r.y0) (pad.padsX r.x0) (pad.padsX r.x1) (-pad.padsY s.p0.y)
      (pad.padsX s.p0.x) (-pad.padsY s.p1.y) (pad.padsX s.p1.x) (-pad.padsY c) (pad.padsX e₀)
      (pad.padsX e₁) (-pad.padsY (s.p1.y - s.p0.y)) (pad.padsX (s.p1.x - s.p0.x))
      (pad.padsX (e₁ - e₀)) (-pad.padsY (c - s.p0.y)) (pad.padsX (e₀ - s.p0.x)) :=
    ⟨⟨by linarith only [hsy], hsx, hsx'⟩,
      ⟨(abs_neg _).trans_le hy0, (abs_neg _).trans_le hpy, (abs_neg _).trans_le hqy⟩,
      ⟨hx0, hx1, hpx, hqx⟩, abs_neg_sub_le hY (by ring), hL, hH,
      hV.neg_diff, hU, hG, hB.neg_diff, hA⟩
  obtain ⟨hK₁, hK₂, hK₃⟩ := hF.crossMag_le
  rw [← hG₂, crossMag_rot] at hK₁ hK₂
  rw [crossMag_rot] at hK₃
  refine ⟨fun hexit => ?_, fun p hp => ?_, fun hw hh q hq => ?_⟩
  · have hM := hF.margins hexit
    rw [← hG₂] at hM
    exact isSome_meet?_of_pads h.pad_x h.pad_y hsf hbf hof hK₁ hK₂ hK₃ hM.of_rot
  · have hacc := (accepted_of_pads h.pad_x h.pad_y hp hsf hbf hof hK₁ hK₂).rot
    change Accepted _ _ (-pad.padsY (c - c)) _ _ _ _ at hacc
    rw [hG₂] at hacc
    have hlt := neg_lt_neg_iff.mp (hF.lt_of_accepted hacc)
    rw [lt_iff_toRat h.stop.y h.rect.y0]
    exact (div_lt_div_iff_of_pos_right h.pos_y).mp hlt
  · have hcr := (crossed_of_pads h.pad_x h.pad_y hq hsf hbf hof hK₁ hK₂ hK₃).rot
    change Crossed _ _ (-pad.padsY (c - c)) _ _ _ _ _ at hcr
    rw [hG₂] at hcr
    obtain ⟨hlx, hly₀, hly₁, htx, hty⟩ := hF.located (by linarith only [hh, hsy₁]) hw hcr
    rw [abs_neg_frame] at hlx
    rw [abs_mul_neg_sub_neg] at htx
    exact ⟨_, h.meet?_point_pads hq (hty.trans (by norm_num)) (htx.trans (by norm_num)), hlx,
      hly₀, hly₁⟩

theorem meet_top (hc : (ofFloat c).isFinite = true) (he₀ : (ofFloat e₀).isFinite = true)
    (he₁ : (ofFloat e₁).isFinite = true) (hY : |pad.padsY c - (pad.padsY r.y1 + 1)| ≤ 1/16)
    (hL : |pad.padsX e₀ - (pad.padsX r.x0 - 2)| ≤ 1/16)
    (hH : |pad.padsX e₁ - (pad.padsX r.x1 + 2)| ≤ 1/16) :
    (ExitsRight (pad.padsY r.y1) (-pad.padsX r.x1) (-pad.padsX r.x0) (pad.padsY s.p0.y)
        (-pad.padsX s.p0.x) (pad.padsY s.p1.y) (-pad.padsX s.p1.x) →
      (s.meet? ⟨⟨e₁, c⟩, ⟨e₀, c⟩⟩).isSome = true) ∧
    (∀ p, s.meet? ⟨⟨e₁, c⟩, ⟨e₀, c⟩⟩ = some p → r.y1 < s.p1.y) ∧
    (pad.padsX r.x1 - pad.padsX r.x0 ≤ 2^31 → pad.padsY r.y1 - pad.padsY r.y0 ≤ 2^31 →
      ∀ q, s.meet? ⟨⟨e₁, c⟩, ⟨e₀, c⟩⟩ = some q → ∃ t : ℚ, pad.NearAt s t q ∧
        |pad.padsY s.p0.y + t * (pad.padsY s.p1.y - pad.padsY s.p0.y) - pad.padsY c| ≤ 1/16 ∧
        pad.padsX e₀ - 1/16 ≤ pad.padsX s.p0.x + t * (pad.padsX s.p1.x - pad.padsX s.p0.x) ∧
        pad.padsX s.p0.x + t * (pad.padsX s.p1.x - pad.padsX s.p0.x) ≤ pad.padsX e₁ + 1/16) := by
  obtain ⟨⟨hsx, hsx'⟩, hsy₀, hsy'⟩ := h.near
  have hx0 := h.padsX_le (v := r.x0) (by simp)
  have hx1 := h.padsX_le (v := r.x1) (by simp)
  have hpx := h.padsX_le (v := s.p0.x) (by simp)
  have hqx := h.padsX_le (v := s.p1.x) (by simp)
  have hy1 := h.padsY_le (v := r.y1) (by simp)
  have hpy := h.padsY_le (v := s.p0.y) (by simp)
  have hqy := h.padsY_le (v := s.p1.y) (by simp)
  have b₁ : |pad.padsY c| ≤ 2^48 := by
    rw [abs_le] at hY hy1 ⊢; constructor <;> linarith only [hY, hy1]
  have b₂ : |pad.padsX e₀| ≤ 2^48 := by
    rw [abs_le] at hL hx0 ⊢; constructor <;> linarith only [hL, hx0]
  have b₃ : |pad.padsX e₁| ≤ 2^48 := by
    rw [abs_le] at hH hx1 ⊢; constructor <;> linarith only [hH, hx1]
  obtain ⟨hsf, hbf, hof, hU, hV, hG, -, hA, hB⟩ :=
    h.approx_side (b := ⟨⟨e₁, c⟩, ⟨e₀, c⟩⟩) ⟨he₁, hc⟩ ⟨he₀, hc⟩ b₃ b₁ b₂ b₁
  have hz := isZero_sub_self hc
  have hG₂ : pad.padsY (c - c) = 0 := by rw [Vec.padsY, toRat_of_isZero hz]; simp
  -- turned by a quarter turn the other way: `(x, y)` becomes `(y, -x)`
  have hF : RightFrame (pad.padsY r.y1) (-pad.padsX r.x1) (-pad.padsX r.x0) (pad.padsY s.p0.y)
      (-pad.padsX s.p0.x) (pad.padsY s.p1.y) (-pad.padsX s.p1.x) (pad.padsY c) (-pad.padsX e₁)
      (-pad.padsX e₀) (pad.padsY (s.p1.y - s.p0.y)) (-pad.padsX (s.p1.x - s.p0.x))
      (-pad.padsX (e₀ - e₁)) (pad.padsY (c - s.p0.y)) (-pad.padsX (e₁ - s.p0.x)) :=
    ⟨⟨hsy', by linarith only [hsx'], by linarith only [hsx]⟩, ⟨hy1, hpy, hqy⟩,
      ⟨(abs_neg _).trans_le hx1, (abs_neg _).trans_le hx0, (abs_neg _).trans_le hpx,
        (abs_neg _).trans_le hqx⟩,
      hY, abs_neg_sub_le hH (by ring), abs_neg_sub_le hL (by ring),
      hV, hU.neg_diff, hG.neg_diff, hB, hA.neg_diff⟩
  obtain ⟨hK₁, hK₂, hK₃⟩ := hF.crossMag_le
  rw [← hG₂, crossMag_rot_inv] at hK₁ hK₂
  rw [crossMag_rot_inv] at hK₃
  refine ⟨fun hexit => ?_, fun p hp => ?_, fun hw hh q hq => ?_⟩
  · have hM := hF.margins hexit
    rw [← hG₂] at hM
    exact isSome_meet?_of_pads h.pad_x h.pad_y hsf hbf hof hK₁ hK₂ hK₃ hM.of_rot_inv
  · have hacc := (accepted_of_pads h.pad_x h.pad_y hp hsf hbf hof hK₁ hK₂).rot_inv
    change Accepted _ _ (pad.padsY (c - c)) _ _ _ _ at hacc
    rw [hG₂] at hacc
    have hlt := hF.lt_of_accepted hacc
    rw [lt_iff_toRat h.rect.y1 h.stop.y]
    exact (div_lt_div_iff_of_pos_right h.pos_y).mp hlt
  · have hcr := (crossed_of_pads h.pad_x h.pad_y hq hsf hbf hof hK₁ hK₂ hK₃).rot_inv
    change Crossed _ _ (pad.padsY (c - c)) _ _ _ _ _ at hcr
    rw [hG₂] at hcr
    obtain ⟨hlx, hly₀, hly₁, htx, hty⟩ :=
      hF.located (by linarith only [hh, hsy₀]) (by linarith only [hw]) hcr
    rw [abs_mul_neg_sub_neg] at hty
    exact ⟨_, h.meet?_point_pads hq (hty.trans (by norm_num)) (htx.trans (by norm_num)), hlx,
      by linarith only [hly₁], by linarith only [hly₀]⟩

end PadNear

/-! ## Where the crossings lie -/

def Point.exact (p : Point) : ℚ × ℚ := ((ofFloat p.x).toRat, (ofFloat p.y).toRat)

/-- The point of a segment at parameter `μ`, in exact arithmetic: its start at `0`, its end at
`1`. -/
def Segment.at (s : Segment) (μ : ℚ) : ℚ × ℚ := s.p0.exact + μ • (s.p1.exact - s.p0.exact)

@[simp] theorem Segment.at_fst (s : Segment) (μ : ℚ) :
    (s.at μ).1 = (ofFloat s.p0.x).toRat + μ * ((ofFloat s.p1.x).toRat - (ofFloat s.p0.x).toRat) :=
  rfl

@[simp] theorem Segment.at_snd (s : Segment) (μ : ℚ) :
    (s.at μ).2 = (ofFloat s.p0.y).toRat + μ * ((ofFloat s.p1.y).toRat - (ofFloat s.p0.y).toRat) :=
  rfl

namespace Rect

/-- `z` lies in the rectangle grown by `mx` on the left and right and by `my` below and above, in
exact arithmetic; a negative margin shrinks the rectangle. -/
def Grown (r : Rect) (mx my : ℚ) (z : ℚ × ℚ) : Prop :=
  (ofFloat r.x0).toRat - mx ≤ z.1 ∧ z.1 ≤ (ofFloat r.x1).toRat + mx ∧
    (ofFloat r.y0).toRat - my ≤ z.2 ∧ z.2 ≤ (ofFloat r.y1).toRat + my

/-- Where a crossing of the padded sides of `r` lies: within `2 + 1/8` pads of `r`, and within
`1/8` pad of the padded side that the step `(dx, dy)` crosses. -/
def Lands (r : Rect) (pad : Vec) (dx dy : Int) (z : ℚ × ℚ) : Prop :=
  r.Grown (17/8 * (ofFloat pad.x).toRat) (17/8 * (ofFloat pad.y).toRat) z ∧
    (dx = 1 → |z.1 - ((ofFloat r.x1).toRat + (ofFloat pad.x).toRat)| ≤ (ofFloat pad.x).toRat / 8) ∧
    (dx = -1 → |z.1 - ((ofFloat r.x0).toRat - (ofFloat pad.x).toRat)| ≤ (ofFloat pad.x).toRat / 8) ∧
    (dy = 1 → |z.2 - ((ofFloat r.y1).toRat + (ofFloat pad.y).toRat)| ≤ (ofFloat pad.y).toRat / 8) ∧
    (dy = -1 → |z.2 - ((ofFloat r.y0).toRat - (ofFloat pad.y).toRat)| ≤ (ofFloat pad.y).toRat / 8)

/-- `q` lies beyond the rectangle grown by two pads on every side. -/
def BeyondTwoPads (r : Rect) (pad : Vec) (q : Point) : Prop :=
  (ofFloat q.x).toRat < (ofFloat r.x0).toRat - 2 * (ofFloat pad.x).toRat ∨
    (ofFloat r.x1).toRat + 2 * (ofFloat pad.x).toRat < (ofFloat q.x).toRat ∨
    (ofFloat q.y).toRat < (ofFloat r.y0).toRat - 2 * (ofFloat pad.y).toRat ∨
    (ofFloat r.y1).toRat + 2 * (ofFloat pad.y).toRat < (ofFloat q.y).toRat

variable {r : Rect} {s : Segment} {pad : Vec}

theorem BeyondTwoPads.pads {q : Point} (hq : r.BeyondTwoPads pad q)
    (ha : 0 < (ofFloat pad.x).toRat) (hb : 0 < (ofFloat pad.y).toRat) :
    pad.padsX q.x < pad.padsX r.x0 - 2 ∨ pad.padsX r.x1 + 2 < pad.padsX q.x ∨
      pad.padsY q.y < pad.padsY r.y0 - 2 ∨ pad.padsY r.y1 + 2 < pad.padsY q.y := by
  rcases hq with hq | hq | hq | hq
  · have h := div_lt_div_of_pos_right hq ha
    rw [sub_div, mul_div_cancel_right₀ _ ha.ne'] at h
    exact .inl h
  · have h := div_lt_div_of_pos_right hq ha
    rw [add_div, mul_div_cancel_right₀ _ ha.ne'] at h
    exact .inr (.inl h)
  · have h := div_lt_div_of_pos_right hq hb
    rw [sub_div, mul_div_cancel_right₀ _ hb.ne'] at h
    exact .inr (.inr (.inl h))
  · have h := div_lt_div_of_pos_right hq hb
    rw [add_div, mul_div_cancel_right₀ _ hb.ne'] at h
    exact .inr (.inr (.inr h))

theorem mem_crossingsPadded_of_isSome {side : Segment} {dx dy : Int}
    (hmem : (side, dx, dy) ∈ r.paddedSides pad) (h : (s.meet? side).isSome = true) :
    ∃ x ∈ r.crossingsPadded s pad, x.dx = dx ∧ x.dy = dy := by
  obtain ⟨p, hp⟩ := Option.isSome_iff_exists.mp h
  exact ⟨⟨p, dx, dy⟩, List.mem_filterMap.mpr ⟨(side, dx, dy), hmem, by simp [hp]⟩, rfl, rfl⟩

/-- What the padded sides report for a segment starting within `1/2` pad of the rectangle: an
exit beyond two pads is caught, every crossed side has the end beyond it, each crossing is near
the segment's point at some `t ∈ [0, 1]`, and an exit through an edge of the `3/2`-pad box is
caught by the side beyond it. -/
theorem crossingsPadded_near (h : PadNear r s pad) :
    (r.BeyondTwoPads pad s.p1 → r.crossingsPadded s pad ≠ []) ∧
    (∀ c ∈ r.crossingsPadded s pad, (c.dx = 1 → r.x1 < s.p1.x) ∧ (c.dx = -1 → s.p1.x < r.x0) ∧
        (c.dy = 1 → r.y1 < s.p1.y) ∧ (c.dy = -1 → s.p1.y < r.y0)) ∧
    (pad.padsX r.x1 - pad.padsX r.x0 ≤ 2^31 → pad.padsY r.y1 - pad.padsY r.y0 ≤ 2^31 →
      ∀ x ∈ r.crossingsPadded s pad, ∃ t : ℚ, 0 ≤ t ∧ t ≤ 1 ∧
        |(ofFloat x.point.x).toRat - (s.at t).1| ≤ (ofFloat pad.x).toRat / 16 ∧
        |(ofFloat x.point.y).toRat - (s.at t).2| ≤ (ofFloat pad.y).toRat / 16 ∧
        r.Lands pad x.dx x.dy (s.at t)) ∧
    (ExitsRight (pad.padsX r.x1) (pad.padsY r.y0) (pad.padsY r.y1) (pad.padsX s.p0.x)
        (pad.padsY s.p0.y) (pad.padsX s.p1.x) (pad.padsY s.p1.y) →
      ∃ x ∈ r.crossingsPadded s pad, x.dx = 1 ∧ x.dy = 0) ∧
    (ExitsRight (-pad.padsX r.x0) (-pad.padsY r.y1) (-pad.padsY r.y0) (-pad.padsX s.p0.x)
        (-pad.padsY s.p0.y) (-pad.padsX s.p1.x) (-pad.padsY s.p1.y) →
      ∃ x ∈ r.crossingsPadded s pad, x.dx = -1 ∧ x.dy = 0) ∧
    (ExitsRight (pad.padsY r.y1) (-pad.padsX r.x1) (-pad.padsX r.x0) (pad.padsY s.p0.y)
        (-pad.padsX s.p0.x) (pad.padsY s.p1.y) (-pad.padsX s.p1.x) →
      ∃ x ∈ r.crossingsPadded s pad, x.dx = 0 ∧ x.dy = 1) ∧
    (ExitsRight (-pad.padsY r.y0) (pad.padsX r.x0) (pad.padsX r.x1) (-pad.padsY s.p0.y)
        (pad.padsX s.p0.x) (-pad.padsY s.p1.y) (pad.padsX s.p1.x) →
      ∃ x ∈ r.crossingsPadded s pad, x.dx = 0 ∧ x.dy = -1) := by
  have hα := h.pad_x
  have hβ := h.pad_y
  obtain ⟨hX0f, hX0'f, hX0, hX0'⟩ := shift_sub_sub_near h.rect.x0 h.finite_pad.x hα.1 hα.2
    (h.padsX_le (v := r.x0) (by simp)) rfl
  obtain ⟨hX1f, hX1'f, hX1, hX1'⟩ := shift_add_add_near h.rect.x1 h.finite_pad.x hα.1 hα.2
    (h.padsX_le (v := r.x1) (by simp)) rfl
  obtain ⟨hY0f, hY0'f, hY0, hY0'⟩ := shift_sub_sub_near h.rect.y0 h.finite_pad.y hβ.1 hβ.2
    (h.padsY_le (v := r.y0) (by simp)) rfl
  obtain ⟨hY1f, hY1'f, hY1, hY1'⟩ := shift_add_add_near h.rect.y1 h.finite_pad.y hβ.1 hβ.2
    (h.padsY_le (v := r.y1) (by simp)) rfl
  have hR := h.meet_right hX1f hY0'f hY1'f hX1 hY0' hY1'
  have hL := h.meet_left hX0f hY0'f hY1'f hX0 hY0' hY1'
  have hB := h.meet_bottom hY0f hX0'f hX1'f hY0 hX0' hX1'
  have hT := h.meet_top hY1f hX0'f hX1'f hY1 hX0' hX1'
  have hexits : _ ∧ _ ∧ _ ∧ _ :=
    ⟨fun hE => mem_crossingsPadded_of_isSome (by simp [paddedSides] : (_, 1, 0) ∈ r.paddedSides pad)
        (hR.1 hE),
      fun hE => mem_crossingsPadded_of_isSome
        (by simp [paddedSides] : (_, -1, 0) ∈ r.paddedSides pad) (hL.1 hE),
      fun hE => mem_crossingsPadded_of_isSome (by simp [paddedSides] : (_, 0, 1) ∈ r.paddedSides pad)
        (hT.1 hE),
      fun hE => mem_crossingsPadded_of_isSome
        (by simp [paddedSides] : (_, 0, -1) ∈ r.paddedSides pad) (hB.1 hE)⟩
  refine ⟨?_, fun c hc => ?_, fun hw hh x hx => ?_, hexits⟩
  · intro hq
    obtain ⟨⟨hsx, hsx'⟩, hsy, hsy'⟩ := h.near
    rcases exits_of_outside hsx hsx' hsy hsy' (hq.pads h.pos_x h.pos_y) with hE | hE | hE | hE
    · obtain ⟨x, hx, -⟩ := hexits.1 hE
      exact List.ne_nil_of_mem hx
    · obtain ⟨x, hx, -⟩ := hexits.2.1 hE
      exact List.ne_nil_of_mem hx
    · obtain ⟨x, hx, -⟩ := hexits.2.2.1 hE
      exact List.ne_nil_of_mem hx
    · obtain ⟨x, hx, -⟩ := hexits.2.2.2 hE
      exact List.ne_nil_of_mem hx
  · obtain ⟨⟨side, dx, dy⟩, hmem, hf⟩ := List.mem_filterMap.mp hc
    obtain ⟨p, hp, rfl⟩ := Option.map_eq_some_iff.mp hf
    simp only [paddedSides, List.mem_cons, List.not_mem_nil, or_false, Prod.mk.injEq] at hmem
    rcases hmem with ⟨rfl, rfl, rfl⟩ | ⟨rfl, rfl, rfl⟩ | ⟨rfl, rfl, rfl⟩ | ⟨rfl, rfl, rfl⟩
    · exact ⟨by simp, by simp, by simp, fun _ => hB.2.1 p hp⟩
    · exact ⟨fun _ => hR.2.1 p hp, by simp, by simp, by simp⟩
    · exact ⟨by simp, by simp, fun _ => hT.2.1 p hp, by simp⟩
    · exact ⟨by simp, fun _ => hL.2.1 p hp, by simp, by simp⟩

  · obtain ⟨⟨hsx, hsx'⟩, hsy, hsy'⟩ := h.near
    rw [abs_le] at hX0 hX0' hX1 hX1' hY0 hY0' hY1 hY1'
    -- the powers of two in the pads' range stay out of `linarith`'s way
    clear hα hβ
    obtain ⟨t, ⟨ht0, ht1, hnx, hny⟩, hx₀, hx₁, hy₀, hy₁, hr, hl, ht, hb⟩ : ∃ t : ℚ, pad.NearAt s t x.point ∧
        pad.padsX r.x0 - 17/8 ≤ pad.padsX s.p0.x + t * (pad.padsX s.p1.x - pad.padsX s.p0.x) ∧
        pad.padsX s.p0.x + t * (pad.padsX s.p1.x - pad.padsX s.p0.x) ≤ pad.padsX r.x1 + 17/8 ∧
        pad.padsY r.y0 - 17/8 ≤ pad.padsY s.p0.y + t * (pad.padsY s.p1.y - pad.padsY s.p0.y) ∧
        pad.padsY s.p0.y + t * (pad.padsY s.p1.y - pad.padsY s.p0.y) ≤ pad.padsY r.y1 + 17/8 ∧
        (x.dx = 1 → |pad.padsX s.p0.x + t * (pad.padsX s.p1.x - pad.padsX s.p0.x) -
          (pad.padsX r.x1 + 1)| ≤ 1/8) ∧
        (x.dx = -1 → |pad.padsX s.p0.x + t * (pad.padsX s.p1.x - pad.padsX s.p0.x) -
          (pad.padsX r.x0 - 1)| ≤ 1/8) ∧
        (x.dy = 1 → |pad.padsY s.p0.y + t * (pad.padsY s.p1.y - pad.padsY s.p0.y) -
          (pad.padsY r.y1 + 1)| ≤ 1/8) ∧
        (x.dy = -1 → |pad.padsY s.p0.y + t * (pad.padsY s.p1.y - pad.padsY s.p0.y) -
          (pad.padsY r.y0 - 1)| ≤ 1/8) := by
      obtain ⟨⟨side, dx, dy⟩, hmem, hf⟩ := List.mem_filterMap.mp hx
      obtain ⟨p, hp, rfl⟩ := Option.map_eq_some_iff.mp hf
      simp only [paddedSides, List.mem_cons, List.not_mem_nil, or_false, Prod.mk.injEq] at hmem
      rcases hmem with ⟨rfl, rfl, rfl⟩ | ⟨rfl, rfl, rfl⟩ | ⟨rfl, rfl, rfl⟩ | ⟨rfl, rfl, rfl⟩
      · obtain ⟨t, hn, hc, he₀, he₁⟩ := (h.meet_bottom hY0f hX0'f hX1'f (abs_le.mpr hY0)
          (abs_le.mpr hX0') (abs_le.mpr hX1')).2.2 hw hh p hp
        rw [abs_le] at hc
        simp only [Vec.padsX, Vec.padsY] at hc he₀ he₁ hsx hsx' hsy hsy' ⊢
        refine ⟨t, hn, by linarith, by linarith, by linarith, by linarith, by simp, by simp,
          by simp, fun _ => abs_le.mpr ⟨by linarith, by linarith⟩⟩
      · obtain ⟨t, hn, hc, he₀, he₁⟩ := (h.meet_right hX1f hY0'f hY1'f (abs_le.mpr hX1)
          (abs_le.mpr hY0') (abs_le.mpr hY1')).2.2 hw hh p hp
        rw [abs_le] at hc
        simp only [Vec.padsX, Vec.padsY] at hc he₀ he₁ hsx hsx' hsy hsy' ⊢
        refine ⟨t, hn, by linarith, by linarith, by linarith, by linarith,
          fun _ => abs_le.mpr ⟨by linarith, by linarith⟩, by simp, by simp, by simp⟩
      · obtain ⟨t, hn, hc, he₀, he₁⟩ := (h.meet_top hY1f hX0'f hX1'f (abs_le.mpr hY1)
          (abs_le.mpr hX0') (abs_le.mpr hX1')).2.2 hw hh p hp
        rw [abs_le] at hc
        simp only [Vec.padsX, Vec.padsY] at hc he₀ he₁ hsx hsx' hsy hsy' ⊢
        refine ⟨t, hn, by linarith, by linarith, by linarith, by linarith, by simp, by simp,
          fun _ => abs_le.mpr ⟨by linarith, by linarith⟩, by simp⟩
      · obtain ⟨t, hn, hc, he₀, he₁⟩ := (h.meet_left hX0f hY0'f hY1'f (abs_le.mpr hX0)
          (abs_le.mpr hY0') (abs_le.mpr hY1')).2.2 hw hh p hp
        rw [abs_le] at hc
        simp only [Vec.padsX, Vec.padsY] at hc he₀ he₁ hsx hsx' hsy hsy' ⊢
        refine ⟨t, hn, by linarith, by linarith, by linarith, by linarith, by simp,
          fun _ => abs_le.mpr ⟨by linarith, by linarith⟩, by simp, by simp⟩
    have hpx := h.pos_x
    have hpy := h.pos_y
    have ex : pad.padsX s.p0.x + t * (pad.padsX s.p1.x - pad.padsX s.p0.x) =
        (s.at t).1 / (ofFloat pad.x).toRat := by
      simp only [Segment.at_fst, Vec.padsX]; field_simp
    have ey : pad.padsY s.p0.y + t * (pad.padsY s.p1.y - pad.padsY s.p0.y) =
        (s.at t).2 / (ofFloat pad.y).toRat := by
      simp only [Segment.at_snd, Vec.padsY]; field_simp
    rw [ex] at hnx hx₀ hx₁ hr hl
    rw [ey] at hny hy₀ hy₁ ht hb
    simp only [Vec.padsX, Vec.padsY] at hnx hny hx₀ hx₁ hy₀ hy₁ hr hl ht hb
    refine ⟨t, ht0, ht1, ?_, ?_, ⟨?_, ?_, ?_, ?_⟩, fun h₁ => ?_, fun h₁ => ?_, fun h₁ => ?_,
      fun h₁ => ?_⟩
    · exact (abs_sub_le_of_pads₀ hpx hnx).trans_eq (by ring)
    · exact (abs_sub_le_of_pads₀ hpy hny).trans_eq (by ring)
    · exact sub_le_of_pads hpx hx₀
    · exact le_of_pads hpx hx₁
    · exact sub_le_of_pads hpy hy₀
    · exact le_of_pads hpy hy₁
    · have := abs_sub_le_of_pads hpx (hr h₁)
      rw [one_mul] at this
      exact this.trans_eq (by ring)
    · have := abs_sub_le_of_pads_sub hpx (hl h₁)
      rw [one_mul] at this
      exact this.trans_eq (by ring)
    · have := abs_sub_le_of_pads hpy (ht h₁)
      rw [one_mul] at this
      exact this.trans_eq (by ring)
    · have := abs_sub_le_of_pads_sub hpy (hb h₁)
      rw [one_mul] at this
      exact this.trans_eq (by ring)


/-- Padded sides catch every exit: a segment from a point of the rectangle to a point beyond the
rectangle grown by two pads crosses some padded side, and every padded side it crosses has the
segment's end strictly beyond the matching side of the rectangle. -/
theorem crossingsPadded_exit (h : PadInput r s pad) (hq : r.BeyondTwoPads pad s.p1) :
    r.crossingsPadded s pad ≠ [] ∧
      ∀ c ∈ r.crossingsPadded s pad, (c.dx = 1 → r.x1 < s.p1.x) ∧ (c.dx = -1 → s.p1.x < r.x0) ∧
        (c.dy = 1 → r.y1 < s.p1.y) ∧ (c.dy = -1 → s.p1.y < r.y0) :=
  ⟨(crossingsPadded_near h.near).1 hq, (crossingsPadded_near h.near).2.1⟩

/-- From the centre of the box `[0, 2]²` to `(5, 3)`, with unit pads. -/
theorem crossingsPadded_exit_unit_pads :
    PadInput ⟨0, 0, 2, 2⟩ ⟨⟨1, 1⟩, ⟨5, 3⟩⟩ ⟨1, 1⟩ ∧ Rect.BeyondTwoPads ⟨0, 0, 2, 2⟩ ⟨1, 1⟩ ⟨5, 3⟩ ∧
      Rect.crossingsPadded ⟨0, 0, 2, 2⟩ ⟨⟨1, 1⟩, ⟨5, 3⟩⟩ ⟨1, 1⟩ ≠ [] ∧
      ∀ c ∈ Rect.crossingsPadded ⟨0, 0, 2, 2⟩ ⟨⟨1, 1⟩, ⟨5, 3⟩⟩ ⟨1, 1⟩,
        (c.dx = 1 → (2 : Float) < 5) ∧ (c.dx = -1 → (5 : Float) < 0) ∧
          (c.dy = 1 → (2 : Float) < 3) ∧ (c.dy = -1 → (3 : Float) < 0) := by
  obtain ⟨f0, v0⟩ := toRat_ofNat (c := 0) (by norm_num)
  obtain ⟨f1, v1⟩ := toRat_ofNat (c := 1) (by norm_num)
  obtain ⟨f2, v2⟩ := toRat_ofNat (c := 2) (by norm_num)
  obtain ⟨f3, v3⟩ := toRat_ofNat (c := 3) (by norm_num)
  obtain ⟨f5, v5⟩ := toRat_ofNat (c := 5) (by norm_num)
  have e0 : (ofFloat (0 : Float)).toRat = 0 := by exact_mod_cast v0
  have e1 : (ofFloat (1 : Float)).toRat = 1 := by exact_mod_cast v1
  have e2 : (ofFloat (2 : Float)).toRat = 2 := by exact_mod_cast v2
  have e3 : (ofFloat (3 : Float)).toRat = 3 := by exact_mod_cast v3
  have e5 : (ofFloat (5 : Float)).toRat = 5 := by exact_mod_cast v5
  have hpad : (2 : ℚ)^(-450 : Int) ≤ 1 ∧ (1 : ℚ) ≤ 2^(450 : Int) :=
    ⟨zpow_le_one_of_nonpos₀ (by norm_num) (by norm_num), one_le_zpow₀ (by norm_num) (by norm_num)⟩
  have hin : PadInput ⟨0, 0, 2, 2⟩ ⟨⟨1, 1⟩, ⟨5, 3⟩⟩ ⟨1, 1⟩ := by
    refine ⟨⟨f0, f0, f2, f2⟩, ⟨f5, f3⟩, ⟨f1, f1⟩, ?_, ?_, by decide, ?_, ?_⟩
    · simpa only [e1] using hpad
    · simpa only [e1] using hpad
    · intro v hv
      simp only [List.mem_cons, List.not_mem_nil, or_false] at hv
      rcases hv with rfl | rfl | rfl | rfl <;> simp only [e0, e1, e2, e5] <;> norm_num
    · intro v hv
      simp only [List.mem_cons, List.not_mem_nil, or_false] at hv
      rcases hv with rfl | rfl | rfl | rfl <;> simp only [e0, e1, e2, e3] <;> norm_num
  have hq : Rect.BeyondTwoPads ⟨0, 0, 2, 2⟩ ⟨1, 1⟩ ⟨5, 3⟩ := by
    unfold Rect.BeyondTwoPads
    simp only [e0, e1, e2, e3, e5]
    norm_num
  exact ⟨hin, hq, crossingsPadded_exit hin hq⟩

/-- With a pad of `1e-200`, a diagonal exit from a box of side `1e-190` crosses no padded side:
the cross products of the padded sides underflow. -/
theorem crossingsPadded_underflowing_pad :
    Rect.crossingsPadded ⟨0.0, 0.0, 1e-190, 1e-190⟩ ⟨⟨5e-191, 5e-191⟩, ⟨3e-190, 3e-190⟩⟩
      ⟨1e-200, 1e-200⟩ = [] := by
  decide +kernel

end Rect

end GridIndex
