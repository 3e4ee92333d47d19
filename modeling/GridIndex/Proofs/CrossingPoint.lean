import GridIndex.Proofs.PaddedFrame

/-!
# Where an accepted crossing lies

`meet?` accepts a crossing when the rounded parameters of both segments lie in `[0, 1]`, and
returns the point of the first segment at the rounded first parameter `t`. `Crossed` records
what that tells: the three rounded cross products, within their errors of the exact ones, and
`t` two roundings from the quotient of the first two (`Segment.crossed_of_meet?`). Like
`Accepted`, it survives turning and scaling the plane.

Against the padded right side of a rectangle, in pads, the exact point of the segment at `t`
then lies within `1/16` pad of the side, between its ends up to `1/16` pad
(`RightFrame.located`). The argument needs no margins, only moderate sizes: the start at most
`2^31` pads from the side, the side at most `2^31` pads long. It goes through the horizontal
travel first (`Crossed.right`): the denominator is positive, so the segment moves right, and
`t U` is the offset `A` to the side up to `2^-46` of it. The vertical travel `t V` follows from
the second numerator, whose bounds place the crossing on the side (`Crossed.right_travel`).

The point itself is `p₀ + t · (p₁ - p₀)` computed in floats, two roundings from its exact value
in each coordinate (`Binary.add_mul_near`, `Segment.meet?_point_near`).
-/

namespace GridIndex

set_option autoImplicit false

open Binary

theorem abs_sub_le_of_two_roundings {X P p S τ : ℚ} (hτ : 0 ≤ τ) (hp : |p - P| ≤ |P| / 2^52 + τ)
    (hs : |S - (X + p)| ≤ |X + p| / 2^52 + τ) :
    |S - (X + P)| ≤ (|X| + 2 * |P|) / 2^51 + 3 * τ := by
  have htri := abs_sub_le S (X + p) (X + P)
  rw [show X + p - (X + P) = p - P by ring] at htri
  have hp' : |p| ≤ |P| + (|P| / 2^52 + τ) := by
    have := abs_sub_abs_le_abs_sub p P
    linarith
  have hdiv : |X + p| / 2^52 ≤ (|X| + |P| + (|P| / 2^52 + τ)) / 2^52 :=
    div_le_div_of_nonneg_right ((abs_add_le X p).trans (by linarith)) (by norm_num)
  have hτ52 : τ / 2^52 ≤ τ := div_le_self hτ (by norm_num)
  have hPP : |P| / 2^52 / 2^52 ≤ |P| / 2^52 := div_le_self (by positivity) (by norm_num)
  have e₁ : (|X| + |P| + (|P| / 2^52 + τ)) / (2 : ℚ)^52 =
      |X| / 2^52 + |P| / 2^52 + |P| / 2^52 / 2^52 + τ / 2^52 := by ring
  have e₂ : (|X| + 2 * |P|) / (2 : ℚ)^51 = 2 * (|X| / 2^52) + 4 * (|P| / 2^52) := by ring
  have hX52 : 0 ≤ |X| / (2 : ℚ)^52 := by positivity
  rw [e₂]
  linarith

namespace Binary

/-- `x + c · y` in floats is two roundings from the exact value, each relative to the value it
rounds. -/
theorem add_mul_near {x c y : Float} (hx : (ofFloat x).isFinite = true)
    (hc : (ofFloat c).isFinite = true) (hy : (ofFloat y).isFinite = true)
    (hb : |(ofFloat x).toRat| + 2 * |(ofFloat c).toRat * (ofFloat y).toRat| ≤ 2^(999 : Int)) :
    (ofFloat (x + c * y)).isFinite = true ∧
      |(ofFloat (x + c * y)).toRat - ((ofFloat x).toRat + (ofFloat c).toRat * (ofFloat y).toRat)| ≤
        (|(ofFloat x).toRat| + 2 * |(ofFloat c).toRat * (ofFloat y).toRat|) / 2^51 +
          3 * 2^(-1074 : Int) := by
  -- the powers of two stay opaque to `linarith`
  obtain ⟨M, hM⟩ : ∃ M : ℚ, M = 2^(999 : Int) := ⟨_, rfl⟩
  have h2 : (2 : ℚ)^(1000 : Int) = 2 * M := by
    rw [hM, show (1000 : Int) = 1 + 999 by norm_num, zpow_add₀ two_ne_zero, zpow_one]
  have h1 : (1 : ℚ) ≤ M := hM ▸ one_le_zpow₀ (by norm_num) (by norm_num)
  rw [← hM] at hb
  have hX := abs_nonneg (ofFloat x).toRat
  have hP := abs_nonneg ((ofFloat c).toRat * (ofFloat y).toRat)
  obtain ⟨hpf, hp⟩ := approx_mul hc hy (by rw [h2]; linarith only [hb, hX, h1])
  have hp' := abs_sub_abs_le_abs_sub (ofFloat (c * y)).toRat ((ofFloat c).toRat * (ofFloat y).toRat)
  have hP52 : |(ofFloat c).toRat * (ofFloat y).toRat| / 2^52 ≤
      |(ofFloat c).toRat * (ofFloat y).toRat| := div_le_self hP (by norm_num)
  have hsum := abs_add_le (ofFloat x).toRat (ofFloat (c * y)).toRat
  have hτ1 : (2 : ℚ)^(-1074 : Int) ≤ 1 := zpow_le_one_of_nonpos₀ (by norm_num) (by norm_num)
  unfold Approx at hp
  obtain ⟨hsf, hs⟩ := approx_add hx hpf (by rw [h2]; linarith only [hb, hX, hP, h1, hp, hp', hP52, hsum, hτ1])
  exact ⟨hsf, abs_sub_le_of_two_roundings (by positivity) hp hs⟩

end Binary

/-- What an accepted crossing tells of both parameters: the rounded cross products near the
exact ones, `t ∈ [0, 1]` two roundings from `n / d`, and `k / d` in `(-2^-1074, 1 + 2^-52)`. -/
def Crossed (U V G₁ G₂ A B τ t : ℚ) : Prop :=
  ∃ n d k : ℚ, |n - crossQ A B G₁ G₂| ≤ crossErr τ A B G₁ G₂ ∧
    |d - crossQ U V G₁ G₂| ≤ crossErr τ U V G₁ G₂ ∧ |k - crossQ A B U V| ≤ crossErr τ A B U V ∧
    d ≠ 0 ∧ |t - n / d| ≤ |n / d| / 2^50 + 2^(-1072 : Int) ∧ 0 ≤ t ∧ t ≤ 1 ∧
    -2^(-1074 : Int) < k / d ∧ k / d < 1 + 2^(-52 : Int)

/-- The first parameter of the crossing of `a` with `b`, as `meet?` computes it. -/
def Segment.meetParam (a b : Segment) : Float := (b.p0 - a.p0).cross b.delta / a.delta.cross b.delta

section Invariance

variable {U V G₁ G₂ A B τ t : ℚ}

theorem Crossed.rot (h : Crossed U V G₁ G₂ A B τ t) : Crossed (-V) U (-G₂) G₁ (-B) A τ t := by
  simpa only [Crossed, crossQ_rot, crossErr_rot] using h

theorem Crossed.rot_inv (h : Crossed U V G₁ G₂ A B τ t) : Crossed V (-U) G₂ (-G₁) B (-A) τ t := by
  simpa only [Crossed, crossQ_rot_inv, crossErr_rot_inv] using h

theorem Crossed.neg (h : Crossed U V G₁ G₂ A B τ t) :
    Crossed (-U) (-V) (-G₁) (-G₂) (-A) (-B) τ t := by
  simpa only [Crossed, crossQ_neg, crossErr_neg] using h

theorem Crossed.div {s r τ' : ℚ} (hs : 0 < s) (hr : 0 < r) (h : Crossed U V G₁ G₂ A B τ t)
    (hτ : τ ≤ τ' * (s * r)) :
    Crossed (U / s) (V / r) (G₁ / s) (G₂ / r) (A / s) (B / r) τ' t := by
  obtain ⟨n, d, k, hn, hd, hk, hd0, ht, ht0, ht1, hlo, hhi⟩ := h
  have hsr : 0 < s * r := mul_pos hs hr
  have hq : ∀ x : ℚ, x / (s * r) / (d / (s * r)) = x / d := fun x => by field_simp
  refine ⟨n / (s * r), d / (s * r), k / (s * r), ?_, ?_, ?_, div_ne_zero hd0 hsr.ne',
    by rwa [hq], ht0, ht1, by rwa [hq], by rwa [hq]⟩ <;>
    rw [crossQ_div _ _ _ _ hs hr, crossErr_div _ _ _ _ _ hs hr, ← sub_div, abs_div,
      abs_of_pos hsr, div_le_div_iff_of_pos_right hsr]
  · exact hn.trans (crossErr_mono _ _ _ _ _ hτ)
  · exact hd.trans (crossErr_mono _ _ _ _ _ hτ)
  · exact hk.trans (crossErr_mono _ _ _ _ _ hτ)

end Invariance

theorem abs_sub_le_of_rounding_twice {x y q : ℚ}
    (hy : |y - q| ≤ |q| / 2^52 + 2^(-1074 : Int)) (hx : |x - y| ≤ |y| / 2^52 + 2^(-1074 : Int)) :
    |x - q| ≤ |q| / 2^50 + 2^(-1072 : Int) := by
  have h₄ : (2 : ℚ)^(-1072 : Int) = 4 * 2^(-1074 : Int) := by
    rw [show (-1072 : Int) = 2 + -1074 by norm_num, zpow_add₀ two_ne_zero]; norm_num
  rw [h₄]
  have hι : (0 : ℚ) ≤ 2^(-1074 : Int) := by positivity
  generalize (2 : ℚ)^(-1074 : Int) = ι at hx hy hι
  have hy' : |y| ≤ |q| + (|q| / 2^52 + ι) := by
    have := abs_sub_abs_le_abs_sub y q
    linarith
  have hdiv : |y| / 2^52 ≤ (|q| + (|q| / 2^52 + ι)) / 2^52 :=
    div_le_div_of_nonneg_right hy' (by norm_num)
  have htri := abs_sub_le x y q
  have hq := abs_nonneg q
  linarith

namespace Segment

variable {a b : Segment}

/-- A crossing accepted by `meet?`, with cross products small enough to be finite, in exact
terms: `t` is the first parameter as `meet?` rounds it. -/
theorem crossed_of_meet? {p : Point} (hm : a.meet? b = some p) (hab : a.delta.Finite)
    (hcd : b.delta.Finite) (hac : (b.p0 - a.p0).Finite)
    (hK₁ : crossMag (ofFloat a.delta.x).toRat (ofFloat a.delta.y).toRat (ofFloat b.delta.x).toRat
      (ofFloat b.delta.y).toRat ≤ 2^(999 : Int))
    (hK₂ : crossMag (ofFloat (b.p0 - a.p0).x).toRat (ofFloat (b.p0 - a.p0).y).toRat
      (ofFloat b.delta.x).toRat (ofFloat b.delta.y).toRat ≤ 2^(999 : Int))
    (hK₃ : crossMag (ofFloat (b.p0 - a.p0).x).toRat (ofFloat (b.p0 - a.p0).y).toRat
      (ofFloat a.delta.x).toRat (ofFloat a.delta.y).toRat ≤ 2^(999 : Int)) :
    Crossed (ofFloat a.delta.x).toRat (ofFloat a.delta.y).toRat (ofFloat b.delta.x).toRat
      (ofFloat b.delta.y).toRat (ofFloat (b.p0 - a.p0).x).toRat (ofFloat (b.p0 - a.p0).y).toRat
      (2^(-1074 : Int))
      (ofFloat (a.meetParam b)).toRat := by
  obtain ⟨hbeq, ht, hu, -⟩ := meet?_eq_some hm
  obtain ⟨hdf, hd⟩ := abs_cross_sub_le hab hcd hK₁
  obtain ⟨htf, hte⟩ := abs_cross_sub_le hac hcd hK₂
  obtain ⟨huf, hue⟩ := abs_cross_sub_le hac hab hK₃
  have hd0 := rank_ne_zero_of_beq_zero (ne_nan_of_isFinite hdf) hbeq
  have hdv : (ofFloat (a.delta.cross b.delta)).toRat ≠ 0 := by
    have := least_le_abs_toRat hdf hd0
    intro h0
    rw [h0, abs_zero] at this
    exact absurd this (not_le.mpr (by positivity))
  obtain ⟨hqf, ht0, ht1⟩ := inUnit_spec ht
  obtain ⟨-, δ, hδ, hr⟩ := roundsTo_div htf hdf hd0
  obtain ⟨hulo, huhi⟩ := quotient_bounds_of_inUnit huf hdf hd0 hu
  exact ⟨_, _, _, hte, hd, hue, hdv, abs_sub_le_of_rounding_twice hδ (abs_toRat_sub_le' hqf hr),
    ht0, ht1, hulo, huhi⟩

end Segment

section CrossedRight

variable {U V G₂ A B t : ℚ}

/-- A crossing accepted against a side along `(0, G₂)` at moderate offset: the segment moves
right, and `t U` is `A` up to `2^-46` of it. -/
theorem Crossed.right (hc : Crossed U V 0 G₂ A B (2^(-100 : Int)) t) (hA : 3/8 ≤ A)
    (hA' : A ≤ 2^32) (hG : 11/4 ≤ G₂) (hG' : G₂ ≤ 2^32) (hU : |U| ≤ 2^48) :
    0 < U ∧ |t * U - A| ≤ A / 2^46 ∧ ∃ d k : ℚ, 1 ≤ d ∧ d ≤ U * G₂ * (1 + 1 / 2^49) ∧
      |k - (A * V - B * U)| ≤ (|A * V| + |B * U|) / 2^50 + 1 / 2^98 ∧
      -(d / 2^200) < k ∧ k < (1 + 1 / 2^52) * d := by
  obtain ⟨n, d, k, hn, hd, hk, hd0, ht, ht0, ht1, hklo, hkhi⟩ := hc
  simp only [crossErr, crossQ, crossMag, mul_zero, sub_zero, abs_zero, add_zero] at hn hd hk
  have hη : (2 : ℚ)^(-100 : Int) = 1 / 2^100 := by norm_num
  have h52 : (2 : ℚ)^(-52 : Int) = 1 / 2^52 := by norm_num
  have hι : (2 : ℚ)^(-1074 : Int) ≤ 1 / 2^200 := by
    rw [show (1 : ℚ) / 2^200 = 2^(-200 : Int) by norm_num]
    exact zpow_le_zpow_right₀ (by norm_num) (by norm_num)
  have hι0 : (0 : ℚ) ≤ 2^(-1074 : Int) := by positivity
  have hι' : (2 : ℚ)^(-1072 : Int) ≤ 1 / 2^200 := by
    rw [show (1 : ℚ) / 2^200 = 2^(-200 : Int) by norm_num]
    exact zpow_le_zpow_right₀ (by norm_num) (by norm_num)
  have hι0' : (0 : ℚ) ≤ 2^(-1072 : Int) := by positivity
  rw [hη] at hn hd hk
  rw [h52] at hkhi
  generalize (2 : ℚ)^(-1074 : Int) = ι at hklo hι hι0
  generalize (2 : ℚ)^(-1072 : Int) = ι' at ht hι' hι0'
  have hP : 33/32 ≤ A * G₂ := by
    have := mul_le_mul hA hG (by norm_num) (by linarith)
    linarith
  have hP' : A * G₂ ≤ 2^64 := by
    calc A * G₂ ≤ 2^32 * 2^32 := mul_le_mul hA' hG' (by linarith) (by norm_num)
      _ = 2^64 := by norm_num
  rw [abs_of_pos (by linarith : 0 < A * G₂), abs_le] at hn
  have hn1 : 1 ≤ n := by linarith
  have hUG : |U * G₂| ≤ 2^80 := by
    rw [abs_mul, abs_of_pos (by linarith : 0 < G₂)]
    calc |U| * G₂ ≤ 2^48 * 2^32 := mul_le_mul hU hG' (by linarith) (by norm_num)
      _ = 2^80 := by norm_num
  have hdb : |d| ≤ 2^81 := by
    have := abs_sub_abs_le_abs_sub d (U * G₂)
    linarith
  -- the denominator is positive: a negative one gives a quotient below zero by far more than
  -- a rounding
  have hdpos : 0 < d := by
    rcases lt_or_gt_of_ne hd0 with hneg | hpos
    · exfalso
      have hq : n / d < 0 := div_neg_of_pos_of_neg (by linarith) hneg
      have hq' : n / 2^81 ≤ -(n / d) := by
        rw [← div_neg]
        exact div_le_div_of_nonneg_left (by linarith) (by linarith) (by
          have := neg_abs_le d; linarith)
      have hn81 : 1 / 2^81 ≤ n / 2^81 := div_le_div_of_nonneg_right hn1 (by norm_num)
      rw [abs_of_neg hq, abs_le] at ht
      linarith
    · exact hpos
  have hq0 : 0 < n / d := div_pos (by linarith) hdpos
  have htd : |t * d - n| ≤ n / 2^50 + ι' * d := by
    have e : t * d - n = (t - n / d) * d := by field_simp
    rw [e, abs_mul, abs_of_pos hdpos]
    calc |t - n / d| * d ≤ (|n / d| / 2^50 + ι') * d := mul_le_mul_of_nonneg_right ht hdpos.le
      _ = n / 2^50 + ι' * d := by rw [abs_of_pos hq0]; field_simp
  rw [abs_le] at htd
  have hιd : ι * d ≤ d / 2^200 := by
    have := mul_le_mul_of_nonneg_right hι hdpos.le
    linarith
  have hιd' : ι' * d ≤ d / 2^200 := by
    have := mul_le_mul_of_nonneg_right hι' hdpos.le
    linarith
  have hd81 : d / 2^200 ≤ 1 / 2^100 := by
    have := (le_abs_self d).trans hdb
    rw [div_le_div_iff₀ (by norm_num) (by norm_num)]
    linarith
  have htd' : t * d ≤ d := mul_le_of_le_one_left hdpos.le ht1
  have hd1 : 1 ≤ d := by linarith
  have hUGpos : 0 < U * G₂ := by
    by_contra hneg
    rw [not_lt] at hneg
    rw [abs_of_nonpos hneg, abs_le] at hd
    linarith
  have hUpos : 0 < U := pos_of_mul_pos_left hUGpos (by linarith)
  rw [abs_of_pos hUGpos, abs_le] at hd
  have hW0 : 0 ≤ t * (U * G₂) := mul_nonneg ht0 hUGpos.le
  have htUG : |t * (U * G₂) - t * d| ≤ t * (U * G₂) * (2 / 2^52 + 1 / 2^104) + 4 / 2^100 := by
    rw [← mul_sub, abs_mul, abs_of_nonneg ht0]
    have h₁ : |U * G₂ - d| ≤ U * G₂ * (2 / 2^52 + 1 / 2^104) + 4 / 2^100 := by
      rw [abs_le]; constructor <;> linarith
    have h₂ : t * (4 / 2^100) ≤ 4 / 2^100 := mul_le_of_le_one_left (by norm_num) ht1
    calc t * |U * G₂ - d| ≤ t * (U * G₂ * (2 / 2^52 + 1 / 2^104) + 4 / 2^100) :=
          mul_le_mul_of_nonneg_left h₁ ht0
      _ = t * (U * G₂) * (2 / 2^52 + 1 / 2^104) + t * (4 / 2^100) := by ring
      _ ≤ _ := by linarith
  rw [abs_le] at htUG
  have hW : |t * (U * G₂) - A * G₂| ≤ A * G₂ / 2^47 := by
    rw [abs_le]; constructor <;> linarith
  have hdiv : |t * U - A| * G₂ ≤ A / 2^47 * G₂ := by
    rw [← abs_of_pos (by linarith : 0 < G₂), ← abs_mul, abs_of_pos (by linarith : 0 < G₂)]
    calc |(t * U - A) * G₂| = |t * (U * G₂) - A * G₂| := by ring_nf
      _ ≤ A * G₂ / 2^47 := hW
      _ = A / 2^47 * G₂ := by ring
  have hx := le_of_mul_le_mul_right hdiv (by linarith)
  refine ⟨hUpos, hx.trans (by linarith), d, k, hd1, by linarith, ?_, ?_, ?_⟩
  · calc |k - (A * V - B * U)|
        ≤ (|A * V| + |B * U| + |A * V - B * U|) / 2^52 + (|A * V| + |B * U|) / 2^104 +
          4 * (1 / 2^100) := hk
      _ ≤ (|A * V| + |B * U|) / 2^50 + 1 / 2^98 := by
        have := abs_sub (A * V) (B * U)
        have h₀ := abs_nonneg (A * V)
        have h₁ := abs_nonneg (B * U)
        linarith
  · have := (lt_div_iff₀ hdpos).mp hklo
    have e : ι * d ≤ d / 2^200 := hιd
    linarith
  · exact (div_lt_iff₀ hdpos).mp hkhi

theorem Crossed.right_travel (hc : Crossed U V 0 G₂ A B (2^(-100 : Int)) t) (hA : 3/8 ≤ A)
    (hA' : A ≤ 2^32) (hG : 11/4 ≤ G₂) (hG' : G₂ ≤ 2^32) (hUb : |U| ≤ 2^48) (hB : |B| ≤ 2^32) :
    |t * U - A| ≤ A / 2^46 ∧ B - 1 / 2^9 ≤ t * V ∧ t * V ≤ B + G₂ + 1 / 2^9 := by
  obtain ⟨hU, hx, d, k, hd1, hdU, hk, hklo, hkhi⟩ := hc.right hA hA' hG hG' hUb
  have hsplit : (t * V - B) * U = k - (k - (A * V - B * U)) + (t * U - A) * V := by ring
  have hAV : |A * V| = A * |V| := by rw [abs_mul, abs_of_pos (by linarith : 0 < A)]
  have hBU : |B * U| = |B| * U := by rw [abs_mul, abs_of_pos hU]
  have hYU : |t * V * U| = |t * V| * U := by rw [abs_mul, abs_of_pos hU]
  have hR : |(t * U - A) * V| ≤ |A * V| / 2^46 := by
    rw [abs_mul, hAV]
    calc |t * U - A| * |V| ≤ A / 2^46 * |V| := mul_le_mul_of_nonneg_right hx (abs_nonneg V)
      _ = A * |V| / 2^46 := by ring
  have hAVle : |A * V| ≤ |t * V| * U + |(t * U - A) * V| := by
    rw [← hYU]
    calc |A * V| = |t * V * U - (t * U - A) * V| := by ring_nf
      _ ≤ _ := abs_sub _ _
  have hGU : U * G₂ ≤ 2^32 * U := by
    rw [mul_comm]; exact mul_le_mul_of_nonneg_right hG' hU.le
  have hBU' : |B| * U ≤ 2^32 * U := mul_le_mul_of_nonneg_right hB hU.le
  have hU34 : 1 / 2^34 ≤ U := by linarith
  have hk' : |k| ≤ (1 + 1 / 2^52) * d := by
    rw [abs_le]; constructor <;> linarith
  have hdev : |(t * V - B) * U| ≤ (1 + 1 / 2^52) * d + |k - (A * V - B * U)| +
      |(t * U - A) * V| := by
    rw [hsplit]
    calc |k - (k - (A * V - B * U)) + (t * U - A) * V|
        ≤ |k - (k - (A * V - B * U))| + |(t * U - A) * V| := abs_add_le _ _
      _ ≤ |k| + |k - (A * V - B * U)| + |(t * U - A) * V| := by
        have := abs_sub k (k - (A * V - B * U)); linarith
      _ ≤ _ := by linarith
  have hQ : |t * V| * U ≤ 2^34 * U := by
    have h₁ : |t * V| * U ≤ |(t * V - B) * U| + |B| * U := by
      rw [← hYU, ← hBU]
      calc |t * V * U| = |(t * V - B) * U + B * U| := by ring_nf
        _ ≤ _ := abs_add_le _ _
    linarith
  have hdev' := abs_le.mp hdev
  have hup : t * V * U ≤ (B + G₂ + 1 / 2^9) * U := by linarith
  have hlo : (B - 1 / 2^9) * U ≤ t * V * U := by
    have h₁ : k - |k - (A * V - B * U)| - |(t * U - A) * V| ≤ (t * V - B) * U := by
      rw [hsplit]
      linarith [le_abs_self (k - (A * V - B * U)), neg_abs_le ((t * U - A) * V)]
    linarith
  exact ⟨hx, le_of_mul_le_mul_right hlo hU, le_of_mul_le_mul_right hup hU⟩

end CrossedRight

namespace RightFrame

variable {x1 y0 y1 px py qx qy X L H U V G₂ A B t : ℚ}

theorem located (h : RightFrame x1 y0 y1 px py qx qy X L H U V G₂ A B)
    (hw : x1 - px ≤ 2^31 + 1) (hh : y1 - y0 ≤ 2^31) (hc : Crossed U V 0 G₂ A B (2^(-100 : Int)) t) :
    |px + t * (qx - px) - X| ≤ 1/16 ∧ L - 1/16 ≤ py + t * (qy - py) ∧
      py + t * (qy - py) ≤ H + 1/16 ∧ |t * (qx - px)| ≤ 2^33 ∧ |t * (qy - py)| ≤ 2^33 := by
  obtain ⟨hD, hW, hA0, hG0, hB0⟩ := h.diffs
  obtain ⟨hpx, hpy₀, hpy₁⟩ := h.start
  have hX := abs_le.mp h.side_x
  have hL := abs_le.mp h.side_lo
  have hH := abs_le.mp h.side_hi
  have hη : (2 : ℚ)^(-100 : Int) = 1 / 2^100 := by norm_num
  have eU := h.dir_x
  have eV := h.dir_y
  have eG := h.len
  have eA := h.off_x
  have eB := h.off_y
  unfold Approx at eU eV eG eA eB
  rw [hη] at eU eV eG eA eB
  have hA0' : X - px ≤ 2^31 + 3 := by linarith only [hw, hX.2]
  have hG0' : H - L ≤ 2^31 + 5 := by linarith only [hh, hL.1, hH.2]
  have hB0' : -(2^31 + 3) ≤ L - py := by linarith only [hh, hL.1, hpy₁]
  rw [abs_of_nonneg (by linarith only [hA0.1] : 0 ≤ X - px), abs_le] at eA
  rw [abs_of_nonneg (by linarith only [hG0.1] : 0 ≤ H - L), abs_le] at eG
  rw [abs_of_nonpos (by linarith only [hB0.2] : L - py ≤ 0), abs_le] at eB
  have hA : 3/8 ≤ A ∧ A ≤ 2^32 := ⟨by linarith only [eA.1, hA0.1, hA0'],
    by linarith only [eA.2, hA0'] ⟩
  have hG : 11/4 ≤ G₂ ∧ G₂ ≤ 2^32 := ⟨by linarith only [eG.1, hG0.1, hG0'],
    by linarith only [eG.2, hG0'] ⟩
  have hB : |B| ≤ 2^32 := abs_le.mpr ⟨by linarith only [eB.1, hB0', hB0.2],
    by linarith only [eB.2, hB0', hB0.2]⟩
  have hU : |U| ≤ 2^48 := by
    have := abs_sub_abs_le_abs_sub U (qx - px)
    linarith only [this, eU, hD]
  obtain ⟨hx, hy₀, hy₁⟩ := hc.right_travel hA.1 hA.2 hG.1 hG.2 hU hB
  obtain ⟨-, -, -, -, -, -, -, -, ht0, ht1, -, -⟩ := hc
  have hmove : ∀ {w W : ℚ}, |W| ≤ 2^47 → |w - W| ≤ |W| / 2^52 + 1 / 2^100 →
      |t * W - t * w| ≤ 1/32 + 1 / 2^100 := by
    intro w W hWb hw'
    rw [← mul_sub, abs_mul, abs_of_nonneg ht0, abs_sub_comm]
    calc t * |w - W| ≤ |w - W| := mul_le_of_le_one_left (abs_nonneg _) ht1
      _ ≤ |W| / 2^52 + 1 / 2^100 := hw'
      _ ≤ 2^47 / 2^52 + 1 / 2^100 := by gcongr
      _ = 1/32 + 1 / 2^100 := by norm_num
  have mx := abs_le.mp (hmove hD eU)
  have my := abs_le.mp (hmove hW eV)
  rw [abs_le] at hx
  have hA32 : A / 2^46 ≤ 1 / 2^14 := by
    rw [div_le_div_iff₀ (by norm_num) (by norm_num)]; linarith only [hA.2]
  have hlx₀ : -(1/16) ≤ px + t * (qx - px) - X := by
    linarith only [mx.1, hx.1, hA32, eA.1, hA0']
  have hlx₁ : px + t * (qx - px) - X ≤ 1/16 := by
    linarith only [mx.2, hx.2, hA32, eA.2, hA0']
  have hly₀ : L - 1/16 ≤ py + t * (qy - py) := by linarith only [my.1, hy₀, eB.1, hB0']
  have hly₁ : py + t * (qy - py) ≤ H + 1/16 := by
    linarith only [my.2, hy₁, eB.2, eG.2, hB0', hG0']
  refine ⟨abs_le.mpr ⟨hlx₀, hlx₁⟩, hly₀, hly₁, abs_le.mpr ⟨?_, ?_⟩, abs_le.mpr ⟨?_, ?_⟩⟩
  · linarith only [hlx₀, hA0.1]
  · linarith only [hlx₁, hA0']
  · linarith only [hly₀, hB0']
  · linarith only [hly₁, hB0.2, hG0']

end RightFrame

namespace Segment

variable {a b : Segment}

/-- The point of an accepted crossing is `p₀ + t · (p₁ - p₀)` computed in floats, at the rounded
first parameter `t`: two roundings from its exact value in each coordinate. -/
theorem meet?_point_near {p : Point} (hm : a.meet? b = some p)
    (hx : |(ofFloat a.p0.x).toRat| + 2 * |(ofFloat a.delta.x).toRat| ≤ 2^(999 : Int))
    (hy : |(ofFloat a.p0.y).toRat| + 2 * |(ofFloat a.delta.y).toRat| ≤ 2^(999 : Int)) :
    |(ofFloat p.x).toRat - ((ofFloat a.p0.x).toRat + (ofFloat a.delta.x).toRat *
        (ofFloat (a.meetParam b)).toRat)| ≤
      (|(ofFloat a.p0.x).toRat| + 2 * |(ofFloat a.delta.x).toRat *
        (ofFloat (a.meetParam b)).toRat|) / 2^51 +
        3 * 2^(-1074 : Int) ∧
    |(ofFloat p.y).toRat - ((ofFloat a.p0.y).toRat + (ofFloat a.delta.y).toRat *
        (ofFloat (a.meetParam b)).toRat)| ≤
      (|(ofFloat a.p0.y).toRat| + 2 * |(ofFloat a.delta.y).toRat *
        (ofFloat (a.meetParam b)).toRat|) / 2^51 +
        3 * 2^(-1074 : Int) := by
  obtain ⟨-, ht, -, rfl⟩ := meet?_eq_some hm
  obtain ⟨hp, hab, -⟩ := finite_parts_of_meet? hm
  obtain ⟨htf, ht0, ht1⟩ := inUnit_spec (t := a.meetParam b) ht
  have hle : ∀ D : ℚ, |D * (ofFloat (a.meetParam b)).toRat| ≤
      |D| := fun D => by
    rw [abs_mul, abs_of_nonneg ht0]
    exact mul_le_of_le_one_right (abs_nonneg D) ht1
  have hbx := hle (ofFloat a.delta.x).toRat
  have hby := hle (ofFloat a.delta.y).toRat
  exact ⟨(add_mul_near hp.x hab.x htf (by linarith only [hx, hbx])).2,
    (add_mul_near hp.y hab.y htf (by linarith only [hy, hby])).2⟩

end Segment

end GridIndex
