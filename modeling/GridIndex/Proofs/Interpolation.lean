import GridIndex.Proofs.FloatError

/-!
# Points along a segment

A point `x₀ + d · t` along a segment with displacement `d` is computed with two roundings, and
it can overflow even when both ends are finite. This module says when it cannot, and what
happens when it does:

* a displacement below `2^1019`, between finite ends, keeps the point within a quarter unit of
  the largest float of the exact interpolation, which lies between the ends
  (`isFinite_lerp`);
* a parameter of magnitude at most `2^-1000` keeps the point within `2^25` of its start
  (`isFinite_add_mul_tiny`);
* a point that does overflow overflows towards the displacement, so its parameter read back,
  the offset divided by the displacement, is `+∞` and not below `1` (`not_div_lt_one`).

A parameter is such a quotient of cross products. Against a factor of magnitude `2^1019` or
more, a finite product leaves the other factor below `32` (`abs_lt_of_mul_large`), and then a
quotient of two products by a common factor is tiny (`abs_div_le_tiny`).
-/

namespace GridIndex.Binary

set_option autoImplicit false

theorem toRat_one : (ofFloat 1.0).toRat = 1 := by
  rw [show ofFloat 1.0 = .finite false (2^52) (-52) by decide]
  norm_num [pairVal]

theorem rank_one : (ofFloat 1.0).rank = 1023 * 2^52 := by decide

theorem maxFinite_le : maxFinite ≤ 2^(1024 : Int) := by
  have h : (2 : ℚ)^(1024 : Int) = 2^53 * 2^(971 : Int) := by
    rw [show (1024 : Int) = 53 + 971 by norm_num, zpow_add₀ two_ne_zero]; norm_num
  rw [h, maxFinite]
  exact mul_le_mul_of_nonneg_right (by norm_num) (by positivity)

theorem maxFinite_nonneg : 0 ≤ maxFinite :=
  mul_nonneg (by norm_num) (by positivity)

/-! ## Signs through rounding -/

section Signs

variable {z : Float} {r : ℚ}

theorem pos_of_roundsTo (hz : (ofFloat z).isFinite = true) (h : RoundsTo r (ofFloat z).rank)
    (hpos : 0 < (ofFloat z).toRat) : 0 < r := by
  by_contra hr
  have := toRat_le_of_roundsTo hz isFinite_zero h (by rw [toRat_zero]; exact not_lt.mp hr)
  rw [toRat_zero] at this
  linarith

theorem neg_of_roundsTo (hz : (ofFloat z).isFinite = true) (h : RoundsTo r (ofFloat z).rank)
    (hneg : (ofFloat z).toRat < 0) : r < 0 := by
  by_contra hr
  have := le_toRat_of_roundsTo hz isFinite_zero h (by rw [toRat_zero]; exact not_lt.mp hr)
  rw [toRat_zero] at this
  linarith

theorem pos_of_roundsTo_inf (h : RoundsTo r (Binary.inf false).rank) : 0 < r := by
  by_contra hr
  have := h.mono roundsTo_zero (not_lt.mp hr)
  simp [rank] at this

theorem neg_of_roundsTo_inf (h : RoundsTo r (Binary.inf true).rank) : r < 0 := by
  by_contra hr
  have := roundsTo_zero.mono h (not_lt.mp hr)
  simp [rank] at this

end Signs

/-! ## Interpolation between finite ends -/

section Interpolation

variable {x₀ x₁ d t : Float}

theorem isFinite_mul_of_abs_le_one (hd : (ofFloat d).isFinite = true)
    (ht : (ofFloat t).isFinite = true) (h : |(ofFloat t).toRat| ≤ 1) :
    (ofFloat (d * t)).isFinite = true := by
  obtain ⟨hn, hr⟩ := roundsTo_mul hd ht
  refine isFinite_of_roundsTo hn hr ?_
  have hM := abs_toRat_le hd
  have : (0 : ℚ) ≤ 2^(969 : Int) := by positivity
  calc |(ofFloat d).toRat * (ofFloat t).toRat|
      = |(ofFloat d).toRat| * |(ofFloat t).toRat| := abs_mul _ _
    _ ≤ |(ofFloat d).toRat| * 1 := by gcongr
    _ ≤ maxFinite + 2^(969 : Int) := by rw [mul_one]; exact le_add_of_le_of_nonneg hM this

theorem abs_interpolate_le {v₀ v₁ τ M : ℚ} (h₀ : |v₀| ≤ M) (h₁ : |v₁| ≤ M) (hτ0 : 0 ≤ τ)
    (hτ1 : τ ≤ 1) : |(1 - τ) * v₀ + τ * v₁| ≤ M := by
  calc |(1 - τ) * v₀ + τ * v₁| ≤ |(1 - τ) * v₀| + |τ * v₁| := abs_add_le _ _
    _ = (1 - τ) * |v₀| + τ * |v₁| := by
        rw [abs_mul, abs_mul, abs_of_nonneg (by linarith), abs_of_nonneg hτ0]
    _ ≤ (1 - τ) * M + τ * M := by gcongr
    _ = M := by ring

/-- The point at a parameter in `[0, 1]` along a displacement below `2^1019` between finite
ends is finite. -/
theorem isFinite_lerp (h₀ : (ofFloat x₀).isFinite = true) (h₁ : (ofFloat x₁).isFinite = true)
    (hd : (ofFloat (x₁ - x₀)).isFinite = true)
    (hsmall : |(ofFloat (x₁ - x₀)).toRat| < 2^(1019 : Int))
    (ht : (ofFloat t).isFinite = true) (ht0 : 0 ≤ (ofFloat t).toRat)
    (ht1 : (ofFloat t).toRat ≤ 1) :
    (ofFloat (x₀ + (x₁ - x₀) * t)).isFinite = true := by
  have hw := isFinite_mul_of_abs_le_one hd ht (abs_le.mpr ⟨by linarith, ht1⟩)
  obtain ⟨-, hD⟩ := roundsTo_sub h₁ h₀
  obtain ⟨-, hW⟩ := roundsTo_mul hd ht
  obtain ⟨hn, hR⟩ := roundsTo_add h₀ hw
  refine isFinite_of_roundsTo hn hR ?_
  have he₀ := abs_toRat_sub_le' hd hD
  have he₁ := abs_toRat_sub_le' hw hW
  have hc := abs_interpolate_le (abs_toRat_le h₀) (abs_toRat_le h₁) ht0 ht1
  generalize (ofFloat x₀).toRat = v₀ at *
  generalize (ofFloat x₁).toRat = v₁ at *
  generalize (ofFloat (x₁ - x₀)).toRat = δ at *
  generalize (ofFloat t).toRat = τ at *
  generalize (ofFloat ((x₁ - x₀) * t)).toRat = w at *
  have hE : (2 : ℚ)^(1019 : Int) = 2^52 * 2^(967 : Int) := by
    rw [show (1019 : Int) = 52 + 967 by norm_num, zpow_add₀ two_ne_zero]; norm_num
  have hE' : (2 : ℚ)^(969 : Int) = 4 * 2^(967 : Int) := by
    rw [show (969 : Int) = 2 + 967 by norm_num, zpow_add₀ two_ne_zero]; norm_num
  have hε : (2 : ℚ)^(-1074 : Int) ≤ 2^(967 : Int) / 4 := by
    rw [le_div_iff₀ (by norm_num), show (4 : ℚ) = 2^(2 : Int) by norm_num,
      ← zpow_add₀ two_ne_zero]
    exact zpow_le_zpow_right₀ (by norm_num) (by norm_num)
  have hE0 : (0 : ℚ) < 2^(967 : Int) := by positivity
  rw [hE] at hsmall
  rw [hE']
  clear hE hE'
  -- `linarith` cannot take powers this large apart, so `E` is made an atom
  generalize (2 : ℚ)^(967 : Int) = E at *
  have hD' : |v₁ - v₀| ≤ |δ| + |δ - (v₁ - v₀)| := by
    have := abs_sub_abs_le_abs_sub (v₁ - v₀) δ
    rw [abs_sub_comm (v₁ - v₀) δ] at this
    linarith
  have he₀' : |δ - (v₁ - v₀)| ≤ 2 * E + E / 4 := by
    have : |v₁ - v₀| ≤ 2^53 * E := by linarith
    linarith
  have hδτ : |δ * τ| ≤ |δ| := by
    rw [abs_mul, abs_of_nonneg ht0]
    exact mul_le_of_le_one_right (abs_nonneg _) ht1
  have he₁' : |w - δ * τ| ≤ E + E / 4 := by linarith
  have he₀τ : |(δ - (v₁ - v₀)) * τ| ≤ |δ - (v₁ - v₀)| := by
    rw [abs_mul, abs_of_nonneg ht0]
    exact mul_le_of_le_one_right (abs_nonneg _) ht1
  calc |v₀ + w|
      = |((1 - τ) * v₀ + τ * v₁) + ((δ - (v₁ - v₀)) * τ + (w - δ * τ))| := by ring_nf
    _ ≤ |(1 - τ) * v₀ + τ * v₁| + (|(δ - (v₁ - v₀)) * τ| + |w - δ * τ|) :=
        (abs_add_le _ _).trans (add_le_add le_rfl (abs_add_le _ _))
    _ ≤ maxFinite + 4 * E := by linarith

/-- A point at a parameter of magnitude at most `2^-1000` from a finite start is finite: the
product is below `2^25` however large the finite displacement. -/
theorem isFinite_add_mul_tiny (h₀ : (ofFloat x₀).isFinite = true)
    (hd : (ofFloat d).isFinite = true) (ht : (ofFloat t).isFinite = true)
    (htiny : |(ofFloat t).toRat| ≤ 2^(-1000 : Int)) :
    (ofFloat (x₀ + d * t)).isFinite = true := by
  have hle : (2 : ℚ)^(-1000 : Int) ≤ 1 := zpow_le_one_of_nonpos₀ (by norm_num) (by norm_num)
  have hw := isFinite_mul_of_abs_le_one hd ht (htiny.trans hle)
  obtain ⟨-, hW⟩ := roundsTo_mul hd ht
  obtain ⟨hn, hR⟩ := roundsTo_add h₀ hw
  refine isFinite_of_roundsTo hn hR ?_
  have he := abs_toRat_sub_le' hw hW
  have hv₀ := abs_toRat_le h₀
  have hprod : |(ofFloat d).toRat * (ofFloat t).toRat| ≤ 2^(24 : Int) := by
    have h24 : (2 : ℚ)^(24 : Int) = 2^(1024 : Int) * 2^(-1000 : Int) := by
      rw [← zpow_add₀ two_ne_zero]; norm_num
    rw [abs_mul, h24]
    exact mul_le_mul ((abs_toRat_le hd).trans maxFinite_le) htiny (abs_nonneg _) (by positivity)
  have hε : (2 : ℚ)^(-1074 : Int) ≤ 1 := zpow_le_one_of_nonpos₀ (by norm_num) (by norm_num)
  have hw' : |(ofFloat (d * t)).toRat| ≤ 2^(25 : Int) := by
    have := abs_sub_abs_le_abs_sub (ofFloat (d * t)).toRat
      ((ofFloat d).toRat * (ofFloat t).toRat)
    rw [show (2 : ℚ)^(24 : Int) = 16777216 by norm_num] at hprod
    rw [show (2 : ℚ)^(25 : Int) = 33554432 by norm_num]
    linarith
  calc |(ofFloat x₀).toRat + (ofFloat (d * t)).toRat|
      ≤ |(ofFloat x₀).toRat| + |(ofFloat (d * t)).toRat| := abs_add_le _ _
    _ ≤ maxFinite + 2^(969 : Int) :=
        add_le_add hv₀ (hw'.trans (zpow_le_zpow_right₀ (by norm_num) (by norm_num)))

theorem not_div_lt_one (h₀ : (ofFloat x₀).isFinite = true) (hd : (ofFloat d).isFinite = true)
    (ht : (ofFloat t).isFinite = true) (ht0 : 0 ≤ (ofFloat t).toRat)
    (ht1 : (ofFloat t).toRat ≤ 1) (hp : (ofFloat (x₀ + d * t)).isFinite = false) :
    ¬ ((x₀ + d * t) - x₀) / d < 1.0 := by
  have hw := isFinite_mul_of_abs_le_one hd ht (abs_le.mpr ⟨by linarith, ht1⟩)
  obtain ⟨-, hW⟩ := roundsTo_mul hd ht
  obtain ⟨hn, hR⟩ := roundsTo_add h₀ hw
  have hv₀ := abs_le.mp (abs_toRat_le h₀)
  have hbig : maxFinite < |(ofFloat x₀).toRat + (ofFloat (d * t)).toRat| := by
    by_contra h
    have h969 : (0 : ℚ) ≤ 2^(969 : Int) := by positivity
    rw [isFinite_of_roundsTo hn hR ((not_lt.mp h).trans (le_add_of_nonneg_right h969))] at hp
    cases hp
  obtain ⟨n, m, q, hde⟩ := exists_of_isFinite hd
  have hdv : (ofFloat d).toRat = pairVal n m q := by rw [hde, toRat_finite]
  obtain ⟨k, hpe, hk⟩ : ∃ k, ofFloat (x₀ + d * t) = .inf k ∧ (k ^^ n) = false := by
    cases hpe : ofFloat (x₀ + d * t) with
    | nan => exact absurd hpe hn
    | finite => rw [hpe] at hp; cases hp
    | inf k =>
      refine ⟨k, rfl, ?_⟩
      rw [hpe] at hR
      cases k
      · have hr := pos_of_roundsTo_inf hR
        rw [abs_of_pos hr] at hbig
        have hprod := pos_of_roundsTo hw hW (by linarith)
        have hd0 : 0 < (ofFloat d).toRat := by
          by_contra h
          exact absurd hprod (not_lt.mpr (mul_nonpos_of_nonpos_of_nonneg (not_lt.mp h) ht0))
        cases n
        · rfl
        · rw [hdv] at hd0; exact absurd hd0 (not_lt.mpr (pairVal_true_nonpos m q))
      · have hr := neg_of_roundsTo_inf hR
        rw [abs_of_neg hr] at hbig
        have hprod := neg_of_roundsTo hw hW (by linarith)
        have hd0 : (ofFloat d).toRat < 0 := by
          by_contra h
          exact absurd hprod (not_lt.mpr (mul_nonneg (not_lt.mp h) ht0))
        cases n
        · rw [hdv] at hd0; exact absurd hd0 (not_lt.mpr (pairVal_false_nonneg m q))
        · rfl
  have hq := inf_div (sub_inf_left hpe h₀) hde
  rw [hk] at hq
  intro hlt
  obtain ⟨-, -, hr⟩ := (lt_iff_rank _ _).mp hlt
  rw [hq, rank_one] at hr
  simp [rank] at hr

end Interpolation

/-! ## Quotients of products by a common factor -/

section Products

variable {a b c : Float}

theorem abs_lt_of_mul_large (hab : (ofFloat (a * b)).isFinite = true)
    (hb : 2^(1019 : Int) ≤ |(ofFloat b).toRat|) : |(ofFloat a).toRat| < 32 := by
  obtain ⟨ha, hb'⟩ := isFinite_of_mul hab
  obtain ⟨-, hr⟩ := roundsTo_mul ha hb'
  by_contra h
  have hbig : (2 : ℚ)^(1024 : Int) ≤ |(ofFloat a).toRat * (ofFloat b).toRat| := by
    have h32 : (2 : ℚ)^(1024 : Int) = 32 * 2^(1019 : Int) := by
      rw [show (1024 : Int) = 5 + 1019 by norm_num, zpow_add₀ two_ne_zero]; norm_num
    rw [abs_mul, h32]
    exact mul_le_mul (not_lt.mp h) hb (by positivity) (abs_nonneg _)
  rw [not_isFinite_of_roundsTo hr hbig] at hab
  cases hab

theorem abs_mul_le_small (hac : (ofFloat (a * c)).isFinite = true) (ha : |(ofFloat a).toRat| < 32)
    (hc0 : (ofFloat c).rank ≠ 0) : |(ofFloat (a * c)).toRat| ≤ 34 * |(ofFloat c).toRat| := by
  obtain ⟨ha', hc⟩ := isFinite_of_mul hac
  obtain ⟨-, hr⟩ := roundsTo_mul ha' hc
  have he := abs_toRat_sub_le' hac hr
  have hε := least_le_abs_toRat hc hc0
  have hr' : |(ofFloat a).toRat * (ofFloat c).toRat| ≤ 32 * |(ofFloat c).toRat| := by
    rw [abs_mul]
    exact mul_le_mul_of_nonneg_right ha.le (abs_nonneg _)
  have := abs_sub_abs_le_abs_sub (ofFloat (a * c)).toRat ((ofFloat a).toRat * (ofFloat c).toRat)
  have : (0 : ℚ) ≤ 2^(-1074 : Int) := by positivity
  linarith

theorem le_abs_mul_large (hbc : (ofFloat (b * c)).isFinite = true)
    (hb : 2^(1019 : Int) ≤ |(ofFloat b).toRat|) (hc0 : (ofFloat c).rank ≠ 0) :
    2^(1018 : Int) * |(ofFloat c).toRat| ≤ |(ofFloat (b * c)).toRat| := by
  obtain ⟨hb', hc⟩ := isFinite_of_mul hbc
  obtain ⟨-, hr⟩ := roundsTo_mul hb' hc
  have he := abs_toRat_sub_le' hbc hr
  have hε := least_le_abs_toRat hc hc0
  have hr' : 2 * (2^(1018 : Int) * |(ofFloat c).toRat|) ≤
      |(ofFloat b).toRat * (ofFloat c).toRat| := by
    rw [abs_mul, ← mul_assoc, show (2 : ℚ) * 2^(1018 : Int) = 2^(1019 : Int) by
      rw [show (1019 : Int) = 1 + 1018 by norm_num, zpow_add₀ two_ne_zero]; norm_num]
    exact mul_le_mul_of_nonneg_right hb (abs_nonneg _)
  have h2 : (2 : ℚ) ≤ 2^(1018 : Int) :=
    le_trans (by norm_num : (2 : ℚ) ≤ 2^(1 : Int)) (zpow_le_zpow_right₀ (by norm_num) (by norm_num))
  have hc2 : 2 * |(ofFloat c).toRat| ≤ 2^(1018 : Int) * |(ofFloat c).toRat| :=
    mul_le_mul_of_nonneg_right h2 (abs_nonneg _)
  have hc' := abs_nonneg (ofFloat c).toRat
  clear h2
  have := abs_sub_abs_le_abs_sub ((ofFloat b).toRat * (ofFloat c).toRat) (ofFloat (b * c)).toRat
  rw [abs_sub_comm] at this
  clear hb
  generalize 2^(1018 : Int) * |(ofFloat c).toRat| = Y at *
  linarith

theorem abs_div_le_tiny {N D : Float} {γ : ℚ} (hγ : 0 < γ) (hN : (ofFloat N).isFinite = true)
    (hD : ofFloat D ≠ .nan) (hD0 : (ofFloat D).rank ≠ 0) (hNγ : |(ofFloat N).toRat| ≤ 34 * γ)
    (hDγ : (ofFloat D).isFinite = true → 2^(1018 : Int) * γ ≤ |(ofFloat D).toRat|) :
    (ofFloat (N / D)).isFinite = true ∧ |(ofFloat (N / D)).toRat| ≤ 2^(-1000 : Int) := by
  cases hDf : (ofFloat D).isFinite with
  | false =>
    cases hDe : ofFloat D with
    | nan => exact absurd hDe hD
    | finite => rw [hDe] at hDf; cases hDf
    | inf k =>
      have hz := div_inf hN hDe
      refine ⟨isFinite_of_isZero hz, ?_⟩
      rw [toRat_of_isZero hz, abs_zero]
      positivity
  | true =>
    obtain ⟨hn, δ, hδ, hr⟩ := roundsTo_div hN hDf hD0
    have hη : (2 : ℚ)^(-1018 : Int) * 2^(1018 : Int) = 1 := by
      rw [← zpow_add₀ two_ne_zero]; norm_num
    have hDpos : 0 < |(ofFloat D).toRat| :=
      lt_of_lt_of_le (mul_pos (by positivity) hγ) (hDγ hDf)
    have hq : |(ofFloat N).toRat / (ofFloat D).toRat| ≤ 34 * 2^(-1018 : Int) := by
      rw [abs_div, div_le_iff₀ hDpos]
      calc |(ofFloat N).toRat| ≤ 34 * γ := hNγ
        _ = 34 * 2^(-1018 : Int) * (2^(1018 : Int) * γ) := by
            rw [mul_assoc, ← mul_assoc (2^(-1018 : Int)), hη, one_mul]
        _ ≤ 34 * 2^(-1018 : Int) * |(ofFloat D).toRat| := by gcongr; exact hDγ hDf
    clear hη hDγ
    have hε : (2 : ℚ)^(-1074 : Int) ≤ 2^(-1018 : Int) :=
      zpow_le_zpow_right₀ (by norm_num) (by norm_num)
    have hη1 : (2 : ℚ)^(-1018 : Int) ≤ 1 := zpow_le_one_of_nonpos₀ (by norm_num) (by norm_num)
    have hη0 : (0 : ℚ) ≤ 2^(-1018 : Int) := by positivity
    have hδ' : |δ| ≤ 36 * 2^(-1018 : Int) := by
      have := abs_sub_abs_le_abs_sub δ ((ofFloat N).toRat / (ofFloat D).toRat)
      linarith
    have hδ36 : |δ| ≤ maxFinite + 2^(969 : Int) := by
      have h6 : (2 : ℚ)^(6 : Int) ≤ 2^(969 : Int) := zpow_le_zpow_right₀ (by norm_num) (by norm_num)
      have h36 : (36 : ℚ) ≤ 2^(6 : Int) := by norm_num
      exact le_add_of_nonneg_of_le maxFinite_nonneg (((hδ'.trans (by linarith)).trans h36).trans h6)
    have hf := isFinite_of_roundsTo hn hr hδ36
    refine ⟨hf, ?_⟩
    have he := abs_toRat_sub_le' hf hr
    have h1000 : (2 : ℚ)^(-1000 : Int) = 2^(18 : Int) * 2^(-1018 : Int) := by
      rw [← zpow_add₀ two_ne_zero]; norm_num
    rw [h1000, show (2 : ℚ)^(18 : Int) = 262144 by norm_num]
    have := abs_sub_abs_le_abs_sub (ofFloat (N / D)).toRat δ
    linarith

end Products

end GridIndex.Binary
