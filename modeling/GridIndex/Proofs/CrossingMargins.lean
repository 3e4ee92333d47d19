import GridIndex.Proofs.FloatQuotient
import GridIndex.Proofs.ClipStart

/-!
# Rounded crossings with room to spare

`Segment.meet?` accepts a crossing when the rounded cross product of the two directions is not
zero and both rounded parameters lie in `[0, 1]`. Each cross product `a.x * b.y - a.y * b.x` is
three roundings, so it lies within `crossErr τ a b c d` of its exact value `crossQ a b c d`, with
`τ = 2^-1074` (`Binary.abs_cross_sub_le`). Two consequences are drawn here, both over the six
rounded differences `meet?` forms: `U, V` along the first segment, `G₁, G₂` along the second and
`A, B` from the first start to the second.

* Where the exact cross products of these clear their rounding errors with the parameters well
  inside `[0, 1]` (`Margins`), the crossing is accepted (`Segment.isSome_meet?_of_margins`).
* An accepted crossing has a nonzero rounded denominator and a first parameter whose exact
  quotient lies in `(-2^-1074, 1 + 2^-52)` (`Accepted`, `Segment.accepted_of_meet?`).

Neither notion changes when the plane is turned by a quarter turn, and both scale with the axes
(`Margins.of_rot`, `Margins.of_div`, `Accepted.rot`, `Accepted.div`): that is how the four sides
of a rectangle reduce to one, in coordinates where a pad is `1`.
-/

namespace GridIndex

set_option autoImplicit false

open Binary

/-! ## Cross products of exact values -/

/-- The cross product `(a, b) × (c, d)`. -/
def crossQ (a b c d : ℚ) : ℚ := a * d - b * c

/-- The magnitudes of the two products in `(a, b) × (c, d)`, summed. -/
def crossMag (a b c d : ℚ) : ℚ := |a * d| + |b * c|

/-- How far the float cross product `(a, b) × (c, d)` of floats of these values can lie from its
exact value: three roundings, each off by `2^-52` relatively and `τ` absolutely. -/
def crossErr (τ a b c d : ℚ) : ℚ :=
  (crossMag a b c d + |crossQ a b c d|) / 2^52 + crossMag a b c d / 2^104 + 4 * τ

section Symmetry

variable (τ a b c d : ℚ)

@[simp] theorem crossQ_rot : crossQ (-b) a (-d) c = crossQ a b c d := by
  unfold crossQ; ring

@[simp] theorem crossMag_rot : crossMag (-b) a (-d) c = crossMag a b c d := by
  simp only [crossMag, neg_mul, mul_neg, abs_neg]
  rw [add_comm, mul_comm b c]

@[simp] theorem crossErr_rot : crossErr τ (-b) a (-d) c = crossErr τ a b c d := by
  simp only [crossErr, crossQ_rot, crossMag_rot]

@[simp] theorem crossQ_rot_inv : crossQ b (-a) d (-c) = crossQ a b c d := by
  unfold crossQ; ring

@[simp] theorem crossMag_rot_inv : crossMag b (-a) d (-c) = crossMag a b c d := by
  simp only [crossMag, neg_mul, mul_neg, abs_neg]
  rw [add_comm, mul_comm b c]

@[simp] theorem crossErr_rot_inv : crossErr τ b (-a) d (-c) = crossErr τ a b c d := by
  simp only [crossErr, crossQ_rot_inv, crossMag_rot_inv]

@[simp] theorem crossQ_neg : crossQ (-a) (-b) (-c) (-d) = crossQ a b c d := by
  unfold crossQ; ring

@[simp] theorem crossMag_neg : crossMag (-a) (-b) (-c) (-d) = crossMag a b c d := by
  simp only [crossMag, neg_mul_neg]

@[simp] theorem crossErr_neg : crossErr τ (-a) (-b) (-c) (-d) = crossErr τ a b c d := by
  simp only [crossErr, crossQ_neg, crossMag_neg]

theorem crossErr_mono {τ' : ℚ} (h : τ ≤ τ') : crossErr τ a b c d ≤ crossErr τ' a b c d := by
  unfold crossErr; linarith

variable {s t : ℚ} (hs : 0 < s) (ht : 0 < t)
include hs ht

theorem crossQ_div : crossQ (a / s) (b / t) (c / s) (d / t) = crossQ a b c d / (s * t) := by
  unfold crossQ; field_simp

theorem crossMag_div : crossMag (a / s) (b / t) (c / s) (d / t) = crossMag a b c d / (s * t) := by
  have hst : 0 < s * t := mul_pos hs ht
  simp only [crossMag, div_mul_div_comm, abs_div, abs_of_pos hst, mul_comm t s, add_div]

theorem crossErr_div :
    crossErr τ (a / s) (b / t) (c / s) (d / t) = crossErr (τ * (s * t)) a b c d / (s * t) := by
  have hst : 0 < s * t := mul_pos hs ht
  simp only [crossErr, crossMag_div a b c d hs ht, crossQ_div a b c d hs ht, abs_div,
    abs_of_pos hst]
  field_simp

end Symmetry

/-! ## One rounding -/

/-- `x` is within relative error `2^-52` of `r`, up to an absolute error `τ`: what one rounding of
`r` to a finite float gives. -/
def Approx (x r τ : ℚ) : Prop := |x - r| ≤ |r| / 2^52 + τ

namespace Approx

variable {x r τ : ℚ}

theorem neg (h : Approx x r τ) : Approx (-x) (-r) τ := by
  unfold Approx at *
  rwa [← neg_sub', abs_neg, abs_neg]

theorem neg_diff {r' : ℚ} (h : Approx x (r - r') τ) : Approx (-x) (-r - -r') τ := by
  rw [neg_sub_neg, ← neg_sub]
  exact h.neg

theorem div {s : ℚ} (h : Approx x r τ) (hs : 0 < s) : Approx (x / s) (r / s) (τ / s) := by
  unfold Approx at *
  rw [← sub_div, abs_div, abs_div, abs_of_pos hs, div_le_iff₀ hs]
  calc |x - r| ≤ |r| / 2^52 + τ := h
    _ = (|r| / s / 2^52 + τ / s) * s := by field_simp

theorem mono {τ' : ℚ} (h : Approx x r τ) (hτ : τ ≤ τ') : Approx x r τ' := by
  unfold Approx at *; linarith

end Approx

theorem abs_mul_sub_mul_le {x x₀ y y₀ e f : ℚ} (hx : |x - x₀| ≤ e) (hy : |y - y₀| ≤ f) :
    |x * y - x₀ * y₀| ≤ |x₀| * f + |y₀| * e + e * f := by
  have he : x * y - x₀ * y₀ = x₀ * (y - y₀) + y₀ * (x - x₀) + (x - x₀) * (y - y₀) := by ring
  have h₁ := mul_le_mul_of_nonneg_left hy (abs_nonneg x₀)
  have h₂ := mul_le_mul_of_nonneg_left hx (abs_nonneg y₀)
  have h₃ := mul_le_mul hx hy (abs_nonneg _) ((abs_nonneg _).trans hx)
  calc |x * y - x₀ * y₀|
      ≤ |x₀ * (y - y₀)| + |y₀ * (x - x₀)| + |(x - x₀) * (y - y₀)| := by
        rw [he]; exact abs_add_three _ _ _
    _ ≤ |x₀| * f + |y₀| * e + e * f := by simp only [abs_mul]; linarith

theorem Approx.abs_mul_sub_le {x x₀ y y₀ τ : ℚ} (hx : Approx x x₀ τ) (hy : Approx y y₀ τ)
    (hτ : 0 ≤ τ) (hτ' : τ ≤ 2^(-100 : Int)) (hx₀ : |x₀| ≤ 2^48) (hy₀ : |y₀| ≤ 2^48) :
    |x * y - x₀ * y₀| ≤ |x₀ * y₀| * (2 / 2^52 + 1 / 2^104) + 1 / 2^50 := by
  have h := abs_mul_sub_mul_le hx hy
  have hτ₁ : τ ≤ 1 / 2^100 := by rw [show (1 : ℚ) / 2^100 = 2^(-100 : Int) by norm_num]; exact hτ'
  have hX := mul_le_mul hx₀ hτ₁ hτ (by norm_num)
  have hY := mul_le_mul hy₀ hτ₁ hτ (by norm_num)
  have hττ := mul_le_mul hτ₁ hτ₁ hτ (by positivity)
  have hexp : |x₀| * (|y₀| / 2^52 + τ) + |y₀| * (|x₀| / 2^52 + τ) +
      (|x₀| / 2^52 + τ) * (|y₀| / 2^52 + τ) =
      |x₀| * |y₀| * (2 / 2^52 + 1 / 2^104) + (|x₀| * τ + |y₀| * τ) * (1 + 1 / 2^52) + τ * τ := by
    ring
  rw [abs_mul]
  linarith

theorem abs_sub_le_crossErr {P Q p₁ p₂ c τ : ℚ} (hτ : 0 ≤ τ) (h₁ : Approx p₁ P τ)
    (h₂ : Approx p₂ Q τ) (hc : Approx c (p₁ - p₂) τ) :
    |c - (P - Q)| ≤ (|P| + |Q| + |P - Q|) / 2^52 + (|P| + |Q|) / 2^104 + 4 * τ := by
  unfold Approx at h₁ h₂ hc
  have h₃ : |p₁ - p₂| ≤ |P - Q| + |p₁ - P| + |p₂ - Q| := by
    calc |p₁ - p₂| = |(P - Q) + (p₁ - P) + -(p₂ - Q)| := by ring_nf
      _ ≤ |P - Q| + |p₁ - P| + |-(p₂ - Q)| := abs_add_three _ _ _
      _ = |P - Q| + |p₁ - P| + |p₂ - Q| := by rw [abs_neg]
  have h₄ : |c - (P - Q)| ≤ |c - (p₁ - p₂)| + |p₁ - P| + |p₂ - Q| := by
    calc |c - (P - Q)| = |(c - (p₁ - p₂)) + (p₁ - P) + -(p₂ - Q)| := by ring_nf
      _ ≤ |c - (p₁ - p₂)| + |p₁ - P| + |-(p₂ - Q)| := abs_add_three _ _ _
      _ = |c - (p₁ - p₂)| + |p₁ - P| + |p₂ - Q| := by rw [abs_neg]
  linarith

/-! ## Rounded cross products of floats -/

namespace Binary

theorem two_pow_1000_le_maxFinite : (2 : ℚ)^(1000 : Int) ≤ maxFinite := by
  rw [maxFinite, show (1000 : Int) = 29 + 971 by norm_num, zpow_add₀ two_ne_zero]
  exact mul_le_mul_of_nonneg_right (by norm_num) (by positivity)

theorem approx_of_roundsTo {z : Float} {r : ℚ} (hz : ofFloat z ≠ .nan)
    (h : RoundsTo r (ofFloat z).rank) (hr : |r| ≤ 2^(1000 : Int)) :
    (ofFloat z).isFinite = true ∧ Approx (ofFloat z).toRat r (2^(-1074 : Int)) := by
  have hm : |r| ≤ maxFinite + 2^(969 : Int) :=
    hr.trans (two_pow_1000_le_maxFinite.trans (le_add_of_nonneg_right (by positivity)))
  have hf := isFinite_of_roundsTo hz h hm
  exact ⟨hf, abs_toRat_sub_le' hf h⟩

section Operations

variable {x y : Float} (hx : (ofFloat x).isFinite = true) (hy : (ofFloat y).isFinite = true)
include hx hy

theorem approx_sub (hr : |(ofFloat x).toRat - (ofFloat y).toRat| ≤ 2^(1000 : Int)) :
    (ofFloat (x - y)).isFinite = true ∧
      Approx (ofFloat (x - y)).toRat ((ofFloat x).toRat - (ofFloat y).toRat) (2^(-1074 : Int)) :=
  approx_of_roundsTo (roundsTo_sub hx hy).1 (roundsTo_sub hx hy).2 hr

theorem approx_add (hr : |(ofFloat x).toRat + (ofFloat y).toRat| ≤ 2^(1000 : Int)) :
    (ofFloat (x + y)).isFinite = true ∧
      Approx (ofFloat (x + y)).toRat ((ofFloat x).toRat + (ofFloat y).toRat) (2^(-1074 : Int)) :=
  approx_of_roundsTo (roundsTo_add hx hy).1 (roundsTo_add hx hy).2 hr

theorem approx_mul (hr : |(ofFloat x).toRat * (ofFloat y).toRat| ≤ 2^(1000 : Int)) :
    (ofFloat (x * y)).isFinite = true ∧
      Approx (ofFloat (x * y)).toRat ((ofFloat x).toRat * (ofFloat y).toRat) (2^(-1074 : Int)) :=
  approx_of_roundsTo (roundsTo_mul hx hy).1 (roundsTo_mul hx hy).2 hr

end Operations

/-- The float cross product of finite vectors whose products are at most `2^999` is finite and
within `crossErr` of the exact cross product. -/
theorem abs_cross_sub_le {v w : Vec} (hv : v.Finite) (hw : w.Finite)
    (hK : crossMag (ofFloat v.x).toRat (ofFloat v.y).toRat (ofFloat w.x).toRat
      (ofFloat w.y).toRat ≤ 2^(999 : Int)) :
    (ofFloat (v.cross w)).isFinite = true ∧
      |(ofFloat (v.cross w)).toRat - crossQ (ofFloat v.x).toRat (ofFloat v.y).toRat
        (ofFloat w.x).toRat (ofFloat w.y).toRat| ≤
      crossErr (2^(-1074 : Int)) (ofFloat v.x).toRat (ofFloat v.y).toRat (ofFloat w.x).toRat
        (ofFloat w.y).toRat := by
  unfold crossMag at hK
  -- the powers of two stay opaque to `linarith`
  obtain ⟨M, hM⟩ : ∃ M : ℚ, M = 2^(999 : Int) := ⟨_, rfl⟩
  have h1000 : (2 : ℚ)^(1000 : Int) = 2 * M := by
    rw [hM, show (1000 : Int) = 1 + 999 by norm_num, zpow_add₀ two_ne_zero, zpow_one]
  have h1 : 4 ≤ M := by
    rw [hM, show (4 : ℚ) = 2^(2 : Int) by norm_num]
    exact zpow_le_zpow_right₀ (by norm_num) (by norm_num)
  obtain ⟨η, hη'⟩ : ∃ η : ℚ, η = 2^(-1074 : Int) := ⟨_, rfl⟩
  have hη : η ≤ 1 := hη' ▸ zpow_le_one_of_nonpos₀ (by norm_num) (by norm_num)
  rw [← hM] at hK
  rw [← hη']
  have ha := abs_nonneg ((ofFloat v.x).toRat * (ofFloat w.y).toRat)
  have hb := abs_nonneg ((ofFloat v.y).toRat * (ofFloat w.x).toRat)
  obtain ⟨hf₁, h₁⟩ := approx_mul hv.x hw.y (by rw [h1000]; linarith only [hK, hb, h1])
  obtain ⟨hf₂, h₂⟩ := approx_mul hv.y hw.x (by rw [h1000]; linarith only [hK, ha, h1])
  rw [← hη'] at h₁ h₂
  have hd : |(ofFloat (v.x * w.y)).toRat - (ofFloat (v.y * w.x)).toRat| ≤ 2^(1000 : Int) := by
    unfold Approx at h₁ h₂
    have h₃ := abs_sub_abs_le_abs_sub (ofFloat (v.x * w.y)).toRat
      ((ofFloat v.x).toRat * (ofFloat w.y).toRat)
    have h₄ := abs_sub_abs_le_abs_sub (ofFloat (v.y * w.x)).toRat
      ((ofFloat v.y).toRat * (ofFloat w.x).toRat)
    have h₅ := abs_sub (ofFloat (v.x * w.y)).toRat (ofFloat (v.y * w.x)).toRat
    rw [h1000]
    linarith only [hK, h1, hη, h₁, h₂, h₃, h₄, h₅]
  obtain ⟨hf, hc⟩ := approx_sub hf₁ hf₂ hd
  rw [← hη'] at hc
  exact ⟨hf, abs_sub_le_crossErr (hη' ▸ by positivity) h₁ h₂ hc⟩

theorem beq_zero_eq_false {d : Float} (hd : (ofFloat d).isFinite = true)
    (h : (ofFloat d).toRat ≠ 0) : (d == 0.0) = false := by
  rw [Bool.eq_false_iff]
  intro hb
  obtain ⟨-, -, hr⟩ := (beq_iff_rank _ _).mp hb
  rw [Layout.ofFloat_zero] at hr
  exact h (toRat_of_isZero (isZero_of_rank (canonical_ofFloat (ne_nan_of_isFinite hd)) hd hr))

theorem inUnit_div {n d : Float} (hn : (ofFloat n).isFinite = true)
    (hd : (ofFloat d).isFinite = true) (hd0 : (ofFloat d).rank ≠ 0)
    (h₀ : 0 ≤ (ofFloat n).toRat / (ofFloat d).toRat)
    (h₁ : (ofFloat n).toRat / (ofFloat d).toRat ≤ 1) :
    Segment.inUnit (n / d) = true := by
  have hb := brackets_div hn hd hd0
  have hq := div_ne_nan (ne_nan_of_isFinite hn) hd hd0
  have hlo := (hb 0 0 roundsTo_zero).1 h₀
  have hhi := (hb _ _ (roundsTo_toRat (z := 1.0) (by decide))).2 (by rw [toRat_one]; exact h₁)
  simp only [Segment.inUnit, Bool.and_eq_true, decide_eq_true_eq]
  refine ⟨(le_iff_rank _ _).mpr ⟨by decide, hq, ?_⟩, (le_iff_rank _ _).mpr ⟨hq, by decide, hhi⟩⟩
  rw [Layout.ofFloat_zero]
  exact hlo

theorem ofFloat_one_succ : ofFloat 1.0000000000000002 = .finite false (2^52 + 1) (-52) := by
  decide

theorem quotient_bounds_of_inUnit {n d : Float} (hn : (ofFloat n).isFinite = true)
    (hd : (ofFloat d).isFinite = true) (hd0 : (ofFloat d).rank ≠ 0)
    (h : Segment.inUnit (n / d) = true) :
    -2^(-1074 : Int) < (ofFloat n).toRat / (ofFloat d).toRat ∧
      (ofFloat n).toRat / (ofFloat d).toRat < 1 + 2^(-52 : Int) := by
  have hb := brackets_div hn hd hd0
  simp only [Segment.inUnit, Bool.and_eq_true, decide_eq_true_eq] at h
  obtain ⟨⟨-, -, h₀⟩, ⟨-, -, h₁⟩⟩ := And.intro ((le_iff_rank _ _).mp h.1) ((le_iff_rank _ _).mp h.2)
  rw [Layout.ofFloat_zero] at h₀
  constructor
  · by_contra hlt
    have hl : pairVal true 1 (-1074) = -2^(-1074 : Int) := by simp [pairVal]
    have := (hb _ _ (roundsTo_least true)).2 (by rw [hl]; exact not_lt.mp hlt)
    simp only [if_true] at this
    exact absurd (h₀.trans this) (by decide)
  · by_contra hlt
    have hs := roundsTo_toRat (z := 1.0000000000000002) (by decide)
    have hv : (ofFloat 1.0000000000000002).toRat = 1 + 2^(-52 : Int) := by
      rw [ofFloat_one_succ, toRat_finite, pairVal]; norm_num
    have := (hb _ _ hs).1 (by rw [hv]; exact not_lt.mp hlt)
    have h₂ : (ofFloat 1.0000000000000002).rank = 1023 * 2^52 + 1 := by
      rw [ofFloat_one_succ]; rfl
    rw [h₂] at this
    rw [rank_one] at h₁
    linarith

end Binary

/-! ## Accepted crossings -/

/-- Room for a crossing of a segment along `(U, V)` with one along `(G₁, G₂)` that starts `(A, B)`
further on: the exact cross products of these clear their rounding errors, with the denominator
positive and both parameters inside `[0, 1]` by more than the errors. -/
structure Margins (U V G₁ G₂ A B τ : ℚ) : Prop where
  den : crossErr τ U V G₁ G₂ < crossQ U V G₁ G₂
  t_num : crossErr τ A B G₁ G₂ ≤ crossQ A B G₁ G₂
  t_gap : crossErr τ U V G₁ G₂ + crossErr τ A B G₁ G₂ ≤ crossQ U V G₁ G₂ - crossQ A B G₁ G₂
  u_num : crossErr τ A B U V ≤ crossQ A B U V
  u_gap : crossErr τ U V G₁ G₂ + crossErr τ A B U V ≤ crossQ U V G₁ G₂ - crossQ A B U V

/-- What an accepted crossing tells of the first parameter: a numerator `n` and a nonzero
denominator `d`, each within its rounding error of the exact cross products, with `n / d` in
`(-2^-1074, 1 + 2^-52)`. -/
def Accepted (U V G₁ G₂ A B τ : ℚ) : Prop :=
  ∃ n d : ℚ, |n - crossQ A B G₁ G₂| ≤ crossErr τ A B G₁ G₂ ∧
    |d - crossQ U V G₁ G₂| ≤ crossErr τ U V G₁ G₂ ∧ d ≠ 0 ∧
    -2^(-1074 : Int) < n / d ∧ n / d < 1 + 2^(-52 : Int)

section Invariance

variable {U V G₁ G₂ A B τ : ℚ}

theorem Margins.of_rot (h : Margins (-V) U (-G₂) G₁ (-B) A τ) : Margins U V G₁ G₂ A B τ := by
  obtain ⟨h₁, h₂, h₃, h₄, h₅⟩ := h
  simp only [crossQ_rot, crossErr_rot] at h₁ h₂ h₃ h₄ h₅
  exact ⟨h₁, h₂, h₃, h₄, h₅⟩

theorem Margins.of_rot_inv (h : Margins V (-U) G₂ (-G₁) B (-A) τ) : Margins U V G₁ G₂ A B τ := by
  obtain ⟨h₁, h₂, h₃, h₄, h₅⟩ := h
  simp only [crossQ_rot_inv, crossErr_rot_inv] at h₁ h₂ h₃ h₄ h₅
  exact ⟨h₁, h₂, h₃, h₄, h₅⟩

theorem Margins.of_neg (h : Margins (-U) (-V) (-G₁) (-G₂) (-A) (-B) τ) :
    Margins U V G₁ G₂ A B τ := by
  obtain ⟨h₁, h₂, h₃, h₄, h₅⟩ := h
  simp only [crossQ_neg, crossErr_neg] at h₁ h₂ h₃ h₄ h₅
  exact ⟨h₁, h₂, h₃, h₄, h₅⟩

theorem Margins.of_div {s t τ' : ℚ} (hs : 0 < s) (ht : 0 < t)
    (h : Margins (U / s) (V / t) (G₁ / s) (G₂ / t) (A / s) (B / t) τ) (hτ : τ' ≤ τ * (s * t)) :
    Margins U V G₁ G₂ A B τ' := by
  obtain ⟨h₁, h₂, h₃, h₄, h₅⟩ := h
  have hst : 0 < s * t := mul_pos hs ht
  simp only [crossQ_div _ _ _ _ hs ht, crossErr_div _ _ _ _ _ hs ht, ← add_div, ← sub_div,
    div_lt_div_iff_of_pos_right hst, div_le_div_iff_of_pos_right hst] at h₁ h₂ h₃ h₄ h₅
  have e₁ := crossErr_mono _ U V G₁ G₂ hτ
  have e₂ := crossErr_mono _ A B G₁ G₂ hτ
  have e₃ := crossErr_mono _ A B U V hτ
  exact ⟨by linarith, by linarith, by linarith, by linarith, by linarith⟩

theorem Accepted.rot (h : Accepted U V G₁ G₂ A B τ) : Accepted (-V) U (-G₂) G₁ (-B) A τ := by
  simpa only [Accepted, crossQ_rot, crossErr_rot] using h

theorem Accepted.rot_inv (h : Accepted U V G₁ G₂ A B τ) : Accepted V (-U) G₂ (-G₁) B (-A) τ := by
  simpa only [Accepted, crossQ_rot_inv, crossErr_rot_inv] using h

theorem Accepted.neg (h : Accepted U V G₁ G₂ A B τ) :
    Accepted (-U) (-V) (-G₁) (-G₂) (-A) (-B) τ := by
  simpa only [Accepted, crossQ_neg, crossErr_neg] using h

theorem Accepted.div {s t τ' : ℚ} (hs : 0 < s) (ht : 0 < t) (h : Accepted U V G₁ G₂ A B τ)
    (hτ : τ ≤ τ' * (s * t)) : Accepted (U / s) (V / t) (G₁ / s) (G₂ / t) (A / s) (B / t) τ' := by
  obtain ⟨n, d, hn, hd, hd0, hlo, hhi⟩ := h
  have hst : 0 < s * t := mul_pos hs ht
  have hq : n / (s * t) / (d / (s * t)) = n / d := by field_simp
  refine ⟨n / (s * t), d / (s * t), ?_, ?_, div_ne_zero hd0 hst.ne', by rwa [hq], by rwa [hq]⟩ <;>
    rw [crossQ_div _ _ _ _ hs ht, crossErr_div _ _ _ _ _ hs ht, ← sub_div, abs_div,
      abs_of_pos hst, div_le_div_iff_of_pos_right hst]
  · exact hn.trans (crossErr_mono _ _ _ _ _ hτ)
  · exact hd.trans (crossErr_mono _ _ _ _ _ hτ)

end Invariance

namespace Segment

variable {a b : Segment}

/-- With room to spare in every cross product, `meet?` accepts the crossing. -/
theorem isSome_meet?_of_margins (hab : a.delta.Finite) (hcd : b.delta.Finite)
    (hac : (b.p0 - a.p0).Finite)
    (hK₁ : crossMag (ofFloat a.delta.x).toRat (ofFloat a.delta.y).toRat (ofFloat b.delta.x).toRat
      (ofFloat b.delta.y).toRat ≤ 2^(999 : Int))
    (hK₂ : crossMag (ofFloat (b.p0 - a.p0).x).toRat (ofFloat (b.p0 - a.p0).y).toRat
      (ofFloat b.delta.x).toRat (ofFloat b.delta.y).toRat ≤ 2^(999 : Int))
    (hK₃ : crossMag (ofFloat (b.p0 - a.p0).x).toRat (ofFloat (b.p0 - a.p0).y).toRat
      (ofFloat a.delta.x).toRat (ofFloat a.delta.y).toRat ≤ 2^(999 : Int))
    (h : Margins (ofFloat a.delta.x).toRat (ofFloat a.delta.y).toRat (ofFloat b.delta.x).toRat
      (ofFloat b.delta.y).toRat (ofFloat (b.p0 - a.p0).x).toRat (ofFloat (b.p0 - a.p0).y).toRat
      (2^(-1074 : Int))) :
    (a.meet? b).isSome = true := by
  obtain ⟨hdf, hd⟩ := abs_cross_sub_le hab hcd hK₁
  obtain ⟨htf, ht⟩ := abs_cross_sub_le hac hcd hK₂
  obtain ⟨huf, hu⟩ := abs_cross_sub_le hac hab hK₃
  obtain ⟨h₁, h₂, h₃, h₄, h₅⟩ := h
  rw [abs_le] at hd ht hu
  have hpos : 0 < (ofFloat (a.delta.cross b.delta)).toRat := by linarith
  have hd0 : (ofFloat (a.delta.cross b.delta)).rank ≠ 0 := fun h0 =>
    hpos.ne' (toRat_of_isZero (isZero_of_rank (canonical_ofFloat (ne_nan_of_isFinite hdf)) hdf h0))
  have htu := inUnit_div htf hdf hd0 (div_nonneg (by linarith) hpos.le)
    ((div_le_one hpos).mpr (by linarith))
  have huu := inUnit_div huf hdf hd0 (div_nonneg (by linarith) hpos.le)
    ((div_le_one hpos).mpr (by linarith))
  simp [meet?, beq_zero_eq_false hdf hpos.ne', htu, huu]

/-- An accepted crossing whose cross products are small enough to be finite. -/
theorem accepted_of_meet? {p : Point} (hm : a.meet? b = some p) (hab : a.delta.Finite)
    (hcd : b.delta.Finite) (hac : (b.p0 - a.p0).Finite)
    (hK₁ : crossMag (ofFloat a.delta.x).toRat (ofFloat a.delta.y).toRat (ofFloat b.delta.x).toRat
      (ofFloat b.delta.y).toRat ≤ 2^(999 : Int))
    (hK₂ : crossMag (ofFloat (b.p0 - a.p0).x).toRat (ofFloat (b.p0 - a.p0).y).toRat
      (ofFloat b.delta.x).toRat (ofFloat b.delta.y).toRat ≤ 2^(999 : Int)) :
    Accepted (ofFloat a.delta.x).toRat (ofFloat a.delta.y).toRat (ofFloat b.delta.x).toRat
      (ofFloat b.delta.y).toRat (ofFloat (b.p0 - a.p0).x).toRat (ofFloat (b.p0 - a.p0).y).toRat
      (2^(-1074 : Int)) := by
  obtain ⟨hbeq, ht, -, -⟩ := meet?_eq_some hm
  obtain ⟨hdf, hd⟩ := abs_cross_sub_le hab hcd hK₁
  obtain ⟨htf, hte⟩ := abs_cross_sub_le hac hcd hK₂
  have hd0 := rank_ne_zero_of_beq_zero (ne_nan_of_isFinite hdf) hbeq
  have hdv : (ofFloat (a.delta.cross b.delta)).toRat ≠ 0 := by
    have := least_le_abs_toRat hdf hd0
    intro h0
    rw [h0, abs_zero] at this
    exact absurd this (not_le.mpr (by positivity))
  obtain ⟨hlo, hhi⟩ := quotient_bounds_of_inUnit htf hdf hd0 ht
  exact ⟨_, _, hte, hd, hdv, hlo, hhi⟩

end Segment

end GridIndex
