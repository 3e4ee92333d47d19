import GridIndex.Proofs.FloatDiv

/-!
# How far rounding moves a value

A finite float that an exact value `r` rounds to lies within `|r| · 2^-52 + 2^-1074` of it
(`abs_toRat_sub_le`): the mantissa is rounded to an integer at the target exponent, and that
exponent keeps 53 bits of `r` or is the least one. Values a quarter unit beyond the largest
finite float still round to it (`isFinite_of_roundsTo`), while values of `2^1024` and beyond
round to an infinity (`not_isFinite_of_roundsTo`). Finite floats are multiples of `2^-1074`, so
a difference of two of them that rounds to zero is zero (`rank_eq_of_sub_isZero`).
-/

namespace GridIndex.Binary

set_option autoImplicit false

/-- The largest finite float, `(2^53 - 1) · 2^971`. -/
def maxFinite : ℚ := (2^53 - 1) * 2^(971 : Int)

/-! ## The value of a rounded mantissa -/

theorem abs_rne_sub_le (x b : Nat) : |(rne x b : ℚ) - x / 2^b| ≤ 1 := by
  have hb : (0 : ℚ) < 2^b := by positivity
  have h₁ := div_le_rne x b
  have h₂ := rne_le x b
  have h₃ : ((x / 2^b : Nat) : ℚ) ≤ x / 2^b := by
    rw [le_div_iff₀ hb]; exact_mod_cast Nat.div_mul_le_self x (2^b)
  have h₄ : (x : ℚ) / 2^b < (x / 2^b : Nat) + 1 := by
    rw [div_lt_iff₀ hb]
    have := Nat.lt_div_mul_add (a := x) (Nat.two_pow_pos b)
    exact_mod_cast (by rw [Nat.add_mul, Nat.one_mul]; exact this)
  have h₁' : ((x / 2^b : Nat) : ℚ) ≤ rne x b := by exact_mod_cast h₁
  have h₂' : (rne x b : ℚ) ≤ (x / 2^b : Nat) + 1 := by exact_mod_cast h₂
  rw [abs_le]; constructor <;> linarith

theorem abs_roundPair_sub_le (m : Nat) (e : Int) :
    |((roundPair m e).1 : ℚ) * 2^(roundPair m e).2 - m * 2^e| ≤ 2^(target m e) := by
  have hval : ((roundPair m e).1 : ℚ) * 2^(roundPair m e).2 = roundedAt m e * 2^(target m e) := by
    unfold roundPair
    split
    · rfl
    · have : roundedAt m e = 2^53 := by have := roundedAt_le m e; omega
      rw [this, zpow_add₀ two_ne_zero]; push_cast; ring
  have hx : (m : ℚ) * 2^e =
      ((m * 2^(e - target m e).toNat : Nat) : ℚ) / 2^(target m e - e).toNat * 2^(target m e) := by
    have h2 : (2 : ℚ)^e * 2^(target m e - e).toNat = 2^(e - target m e).toNat * 2^(target m e) := by
      rw [← zpow_natCast, ← zpow_natCast, ← zpow_add₀ two_ne_zero, ← zpow_add₀ two_ne_zero]
      congr 1; omega
    rw [div_mul_eq_mul_div, eq_div_iff (by positivity)]
    push_cast
    rw [mul_assoc, h2]; ring
  rw [hval, hx, ← sub_mul, abs_mul, abs_of_pos (zpow_pos (show (0 : ℚ) < 2 by norm_num) _)]
  have := abs_rne_sub_le (m * 2^(e - target m e).toNat) (target m e - e).toNat
  unfold roundedAt
  nlinarith [zpow_pos (show (0 : ℚ) < 2 by norm_num) (target m e)]

theorem two_pow_target_le {m : Nat} (hm : m ≠ 0) (e : Int) :
    (2 : ℚ)^(target m e) ≤ m * 2^e / 2^52 + 2^(-1074 : Int) := by
  have h0 : (0 : ℚ) ≤ m * 2^e / 2^52 := by positivity
  unfold target
  rcases le_total ((m.log2 : Int) + 1 + e - 53) (-1074) with h | h
  · rw [max_eq_right h]; linarith
  · rw [max_eq_left h]
    have hl : (2 : ℚ)^(m.log2 : Int) ≤ m := by
      rw [zpow_natCast]; exact_mod_cast Nat.log2_self_le hm
    have : (2 : ℚ)^((m.log2 : Int) + 1 + e - 53) = 2^(m.log2 : Int) * 2^e / 2^52 := by
      rw [show (m.log2 : Int) + 1 + e - 53 = m.log2 + e - 52 by ring, zpow_sub₀ two_ne_zero,
        zpow_add₀ two_ne_zero]
      norm_num
    rw [this]
    have : (2 : ℚ)^(m.log2 : Int) * 2^e / 2^52 ≤ m * 2^e / 2^52 := by gcongr
    linarith [zpow_pos (show (0 : ℚ) < 2 by norm_num) (-1074 : Int)]

/-! ## The error of a finite result -/

section Finite

variable {n : Bool} {m : Nat} {q : Int} {n' : Bool} {m' : Nat} {e' : Int}

theorem roundRank_lt_of_signedRank (hc : (Binary.finite n m q).Canonical) (hm' : m' ≠ 0)
    (h : signedRank n' m' e' = rank (.finite n m q)) : roundRank m' e' < infRank := by
  have hb := rank_finite_bounds hc
  unfold signedRank at h
  rw [if_neg hm'] at h
  unfold infRank at hb ⊢
  cases n <;> cases n' <;> simp only [Bool.false_eq_true, if_false, if_true, rank] at h hb <;>
    omega

theorem canonical_roundPair (hc : (Binary.finite n m q).Canonical) (hm' : m' ≠ 0)
    (h : signedRank n' m' e' = rank (.finite n m q)) :
    (Binary.finite n' (roundPair m' e').1 (roundPair m' e').2).Canonical := by
  have hlt := roundRank_lt_of_signedRank hc hm' h
  have hr := roundPair_rank m' e'
  obtain ⟨h₁, h₂, h₃⟩ := roundPair_canon hm' e'
  refine ⟨⟨h₁, h₂, h₃⟩, ?_⟩
  unfold infRank at hlt
  omega

theorem rank_eq_roundRank (hc : (Binary.finite n m q).Canonical) (hm' : m' ≠ 0)
    (h : signedRank n' m' e' = rank (.finite n m q)) :
    rank (.finite n m q) = rank (.finite n' (roundPair m' e').1 (roundPair m' e').2) := by
  have hlt := roundRank_lt_of_signedRank hc hm' h
  have hr := roundPair_rank m' e'
  unfold signedRank at h
  rw [if_neg hm', min_eq_left (by unfold infRank at hlt; omega)] at h
  cases n' <;> simp only [Bool.false_eq_true, if_false, if_true, rank] at h ⊢ <;> omega

end Finite

/-- A finite float that the exact value `r` rounds to is within `|r| · 2^-52 + 2^-1074` of it. -/
theorem abs_toRat_sub_le {z : Float} {n : Bool} {m : Nat} {q : Int}
    (hz : ofFloat z = .finite n m q) {r : ℚ} (h : RoundsTo r (ofFloat z).rank) :
    |pairVal n m q - r| ≤ |r| / 2^52 + 2^(-1074 : Int) := by
  have hc := canon_of_ofFloat hz
  obtain ⟨n', m', e', rfl, hk⟩ := h
  rw [hz] at hk
  have hpos : (0 : ℚ) ≤ |pairVal n' m' e'| / 2^52 := by positivity
  have htiny : (0 : ℚ) ≤ 2^(-1074 : Int) := by positivity
  rcases Nat.eq_zero_or_pos m' with rfl | hm'
  · simp only [signedRank, if_true] at hk
    obtain ⟨n₀, hzero⟩ := isZero_of_rank hc rfl hk.symm
    cases hzero
    cases n <;> cases n' <;> simp [pairVal]
  · have hm0 : m' ≠ 0 := Nat.pos_iff_ne_zero.mp hm'
    have hrank := rank_eq_roundRank hc hm0 hk
    have hcan := canonical_roundPair hc hm0 hk
    have hv : pairVal n m q = pairVal n' (roundPair m' e').1 (roundPair m' e').2 :=
      le_antisymm (toRat_le_of_rank_le hc hcan hrank.le) (toRat_le_of_rank_le hcan hc hrank.ge)
    have herr := abs_roundPair_sub_le m' e'
    have htar := two_pow_target_le hm0 e'
    have h0 : (0 : ℚ) ≤ m' * 2^e' := by positivity
    rw [hv]
    cases n'
    · simp only [pairVal]
      rw [abs_of_nonneg h0]
      linarith
    · simp only [pairVal, neg_sub_neg, abs_neg]
      rw [abs_of_nonneg h0, abs_sub_comm]
      linarith

/-! ## Where rounding overflows -/

theorem log2_one : Nat.log2 1 = 0 := (Nat.log2_eq_iff one_ne_zero).mpr ⟨by norm_num, by norm_num⟩

theorem roundsTo_maxFinite_quarter (n : Bool) :
    RoundsTo (pairVal n (2^55 - 3) 969) (if n then -(infRank - 1) else infRank - 1) := by
  have hlog : Nat.log2 (2^55 - 3) = 54 := by
    rw [Nat.log2_eq_iff (by norm_num)]; norm_num
  have ht : target (2^55 - 3) 969 = 971 := by
    unfold target; rw [hlog]; norm_num
  have hr : roundedAt (2^55 - 3) 969 = 2^53 - 1 := by
    unfold roundedAt; rw [ht]; decide
  refine ⟨n, 2^55 - 3, 969, rfl, ?_⟩
  unfold signedRank roundRank infRank
  rw [ht, hr]
  cases n <;> norm_num

theorem pairVal_maxFinite_quarter : pairVal false (2^55 - 3) 969 = maxFinite + 2^(969 : Int) := by
  have hc : ((2^55 - 3 : Nat) : ℚ) = 4 * (2^53 - 1) + 1 := by norm_num
  have hp : (2 : ℚ)^(971 : Int) = 2^(969 : Int) * 4 := by
    rw [show (971 : Int) = 969 + 2 by norm_num, zpow_add₀ two_ne_zero]; norm_num
  simp only [pairVal, maxFinite, hc, hp]
  ring

theorem roundsTo_two_pow_1024 (n : Bool) :
    RoundsTo (pairVal n 1 1024) (if n then -infRank else infRank) := by
  have ht : target 1 1024 = 972 := by unfold target; rw [log2_one]; norm_num
  have hr : roundedAt 1 1024 = 2^52 := by unfold roundedAt; rw [ht]; decide
  refine ⟨n, 1, 1024, rfl, ?_⟩
  unfold signedRank roundRank infRank
  rw [ht, hr]
  cases n <;> norm_num

/-- A value within a quarter unit of the largest finite float rounds to a finite float. -/
theorem isFinite_of_roundsTo {z : Float} (hz : ofFloat z ≠ .nan) {r : ℚ}
    (h : RoundsTo r (ofFloat z).rank) (hr : |r| ≤ maxFinite + 2^(969 : Int)) :
    (ofFloat z).isFinite = true := by
  have hv := pairVal_maxFinite_quarter
  have hneg : pairVal true (2^55 - 3) 969 = -(maxFinite + 2^(969 : Int)) := by
    rw [← hv]; rfl
  rw [abs_le] at hr
  have h₁ := h.mono (roundsTo_maxFinite_quarter false) (by rw [hv]; exact hr.2)
  have h₂ := (roundsTo_maxFinite_quarter true).mono h (by rw [hneg]; exact hr.1)
  simp only [Bool.false_eq_true, if_false, if_true] at h₁ h₂
  exact isFinite_of_rank hz (by omega) (by omega)

/-- A value of magnitude `2^1024` or more rounds to an infinity. -/
theorem not_isFinite_of_roundsTo {z : Float} {r : ℚ} (h : RoundsTo r (ofFloat z).rank)
    (hr : 2^(1024 : Int) ≤ |r|) : (ofFloat z).isFinite = false := by
  have hv : pairVal false 1 1024 = 2^(1024 : Int) := by simp [pairVal]
  have hv' : pairVal true 1 1024 = -2^(1024 : Int) := by simp [pairVal]
  cases hz : ofFloat z with
  | finite n m q =>
    have hb := rank_finite_bounds (canon_of_ofFloat hz)
    rw [hz] at h
    rcases le_abs'.mp hr with hr | hr
    · have := h.mono (roundsTo_two_pow_1024 true) (by rw [hv']; exact hr)
      simp only [if_true] at this
      omega
    · have := (roundsTo_two_pow_1024 false).mono h (by rw [hv]; exact hr)
      simp only [Bool.false_eq_true, if_false] at this
      omega
  | _ => rfl

theorem abs_pairVal_le {n : Bool} {m : Nat} {q : Int} (hc : (Binary.finite n m q).Canonical) :
    |pairVal n m q| ≤ maxFinite := by
  have hmax (n' : Bool) : (Binary.finite n' (2^53 - 1) 971).Canonical :=
    ⟨⟨by norm_num, by norm_num, Or.inl (by norm_num)⟩, le_refl _⟩
  have hv : pairVal false (2^53 - 1) 971 = maxFinite := by
    simp only [pairVal, maxFinite]; norm_num
  have hb := rank_finite_bounds hc
  unfold infRank at hb
  have h₁ := toRat_le_of_rank_le hc (hmax false) (by
    cases n <;> simp only [rank, Bool.false_eq_true, if_false, if_true] at hb ⊢ <;> omega)
  have h₂ := toRat_le_of_rank_le (hmax true) hc (by
    cases n <;> simp only [rank, Bool.false_eq_true, if_false, if_true] at hb ⊢ <;> omega)
  simp only [toRat_finite] at h₁ h₂
  rw [show pairVal true (2^53 - 1) 971 = -pairVal false (2^53 - 1) 971 from
    pairVal_not false _ _] at h₂
  rw [hv] at h₁ h₂
  exact abs_le.mpr ⟨h₂, h₁⟩

/-! ## Differences that round to zero -/

theorem pairVal_eq_int_mul (n : Bool) (m : Nat) {q : Int} (hq : -1074 ≤ q) :
    ∃ K : Int, pairVal n m q = K * 2^(-1074 : Int) := by
  have h : (m : ℚ) * 2^q = ((m * 2^(q + 1074).toNat : Nat) : Int) * 2^(-1074 : Int) := by
    simp only [Int.cast_natCast, Nat.cast_mul, Nat.cast_pow, Nat.cast_ofNat, Int.cast_mul,
      Int.cast_pow, Int.cast_ofNat]
    rw [← zpow_natCast, mul_assoc, ← zpow_add₀ two_ne_zero]
    congr 2; omega
  cases n
  · exact ⟨_, h⟩
  · refine ⟨-((m * 2^(q + 1074).toNat : Nat) : Int), ?_⟩
    show -((m : ℚ) * 2^q) = _
    rw [h, Int.cast_neg, neg_mul]

theorem roundsTo_least (n : Bool) :
    RoundsTo (pairVal n 1 (-1074)) (if n then -1 else 1) := by
  have ht : target 1 (-1074) = -1074 := by unfold target; rw [log2_one]; norm_num
  have hr : roundedAt 1 (-1074) = 1 := by unfold roundedAt; rw [ht]; decide
  refine ⟨n, 1, -1074, rfl, ?_⟩
  unfold signedRank roundRank
  rw [ht, hr]
  cases n <;> norm_num

/-- Two finite floats whose difference rounds to zero are equal as floats. -/
theorem rank_eq_of_sub_isZero {x y : Float} (hx : (ofFloat x).isFinite = true)
    (hy : (ofFloat y).isFinite = true) (h : (ofFloat (x - y)).rank = 0) :
    (ofFloat x).rank = (ofFloat y).rank := by
  obtain ⟨n, m, q, hxe⟩ := exists_of_isFinite hx
  obtain ⟨n', m', q', hye⟩ := exists_of_isFinite hy
  have cx := canon_of_ofFloat hxe
  have cy := canon_of_ofFloat hye
  have hsub := (sub_finite hxe hye).2
  rw [h] at hsub
  obtain ⟨K, hK⟩ := pairVal_eq_int_mul n m cx.1.1
  obtain ⟨K', hK'⟩ := pairVal_eq_int_mul n' m' cy.1.1
  have hε : (0 : ℚ) < 2^(-1074 : Int) := by positivity
  have hleast : pairVal false 1 (-1074) = 2^(-1074 : Int) := by simp [pairVal]
  have hleast' : pairVal true 1 (-1074) = -2^(-1074 : Int) := by simp [pairVal]
  rcases lt_trichotomy K K' with hlt | heq | hgt
  · have hle : pairVal n m q - pairVal n' m' q' ≤ pairVal true 1 (-1074) := by
      rw [hK, hK', hleast']
      have : (K : ℚ) + 1 ≤ K' := by exact_mod_cast hlt
      nlinarith
    have := hsub.mono (roundsTo_least true) hle
    simp at this
  · have hv : pairVal n m q = pairVal n' m' q' := by rw [hK, hK', heq]
    rw [hxe, hye]
    have := roundsTo_rank cx
    rw [toRat_finite, hv] at this
    exact this.unique (roundsTo_rank cy)
  · have hle : pairVal false 1 (-1074) ≤ pairVal n m q - pairVal n' m' q' := by
      rw [hleast, hK, hK']
      have : (K' : ℚ) + 1 ≤ K := by exact_mod_cast hgt
      nlinarith
    have := (roundsTo_least false).mono hsub hle
    simp at this

/-! ## The same, for the values of floats -/

section Values

variable {x y z : Float}

theorem roundsTo_mul (hx : (ofFloat x).isFinite = true) (hy : (ofFloat y).isFinite = true) :
    ofFloat (x * y) ≠ .nan ∧
      RoundsTo ((ofFloat x).toRat * (ofFloat y).toRat) (ofFloat (x * y)).rank := by
  obtain ⟨n, m, q, hxe⟩ := exists_of_isFinite hx
  obtain ⟨n', m', q', hye⟩ := exists_of_isFinite hy
  rw [hxe, hye]
  exact mul_finite hxe hye

theorem roundsTo_add (hx : (ofFloat x).isFinite = true) (hy : (ofFloat y).isFinite = true) :
    ofFloat (x + y) ≠ .nan ∧
      RoundsTo ((ofFloat x).toRat + (ofFloat y).toRat) (ofFloat (x + y)).rank := by
  obtain ⟨n, m, q, hxe⟩ := exists_of_isFinite hx
  obtain ⟨n', m', q', hye⟩ := exists_of_isFinite hy
  rw [hxe, hye]
  exact add_finite hxe hye

theorem roundsTo_sub (hx : (ofFloat x).isFinite = true) (hy : (ofFloat y).isFinite = true) :
    ofFloat (x - y) ≠ .nan ∧
      RoundsTo ((ofFloat x).toRat - (ofFloat y).toRat) (ofFloat (x - y)).rank := by
  obtain ⟨n, m, q, hxe⟩ := exists_of_isFinite hx
  obtain ⟨n', m', q', hye⟩ := exists_of_isFinite hy
  rw [hxe, hye]
  exact sub_finite hxe hye

theorem roundsTo_toRat (hz : (ofFloat z).isFinite = true) :
    RoundsTo (ofFloat z).toRat (ofFloat z).rank := by
  obtain ⟨n, m, q, hze⟩ := exists_of_isFinite hz
  rw [hze]
  exact roundsTo_rank (canon_of_ofFloat hze)

theorem abs_toRat_le (hz : (ofFloat z).isFinite = true) : |(ofFloat z).toRat| ≤ maxFinite := by
  obtain ⟨n, m, q, hze⟩ := exists_of_isFinite hz
  rw [hze]
  exact abs_pairVal_le (canon_of_ofFloat hze)

theorem abs_toRat_sub_le' (hz : (ofFloat z).isFinite = true) {r : ℚ}
    (h : RoundsTo r (ofFloat z).rank) : |(ofFloat z).toRat - r| ≤ |r| / 2^52 + 2^(-1074 : Int) := by
  obtain ⟨n, m, q, hze⟩ := exists_of_isFinite hz
  have := abs_toRat_sub_le hze h
  rwa [hze]

theorem toRat_le_of_le (hx : (ofFloat x).isFinite = true) (hy : (ofFloat y).isFinite = true)
    (h : x ≤ y) : (ofFloat x).toRat ≤ (ofFloat y).toRat := by
  obtain ⟨n, m, q, hxe⟩ := exists_of_isFinite hx
  obtain ⟨n', m', q', hye⟩ := exists_of_isFinite hy
  obtain ⟨-, -, hr⟩ := (le_iff_rank x y).mp h
  rw [hxe, hye] at hr ⊢
  exact toRat_le_of_rank_le (canon_of_ofFloat hxe) (canon_of_ofFloat hye) hr

theorem least_le_abs_toRat (hz : (ofFloat z).isFinite = true) (h0 : (ofFloat z).rank ≠ 0) :
    2^(-1074 : Int) ≤ |(ofFloat z).toRat| := by
  obtain ⟨n, m, q, hze⟩ := exists_of_isFinite hz
  have hc := canon_of_ofFloat hze
  rw [hze] at h0 ⊢
  have hm : m ≠ 0 := by
    rintro rfl
    exact h0 (rank_of_isZero ⟨n, by rw [show q = -1074 by have := hc.1.2.2; omega]⟩)
  have h1 : (1 : ℚ) ≤ m := by exact_mod_cast Nat.one_le_iff_ne_zero.mpr hm
  have h2 : (2 : ℚ)^(-1074 : Int) ≤ 2^q := zpow_le_zpow_right₀ (by norm_num) hc.1.1
  have h3 : (2 : ℚ)^(-1074 : Int) ≤ m * 2^q := by
    have : (0 : ℚ) ≤ 2^q := by positivity
    nlinarith
  cases n <;> simp only [toRat_finite, pairVal, abs_neg] <;> rw [abs_of_nonneg (by positivity)] <;>
    exact h3

theorem roundsTo_div (hx : (ofFloat x).isFinite = true) (hy : (ofFloat y).isFinite = true)
    (hy0 : (ofFloat y).rank ≠ 0) :
    ofFloat (x / y) ≠ .nan ∧ ∃ d : ℚ,
      |d - (ofFloat x).toRat / (ofFloat y).toRat| ≤
        |(ofFloat x).toRat / (ofFloat y).toRat| / 2^52 + 2^(-1074 : Int) ∧
      RoundsTo d (ofFloat (x / y)).rank := by
  obtain ⟨n, m, q, hxe⟩ := exists_of_isFinite hx
  obtain ⟨n', m', q', hye⟩ := exists_of_isFinite hy
  have hm' : m' ≠ 0 := by
    rintro rfl
    have hq' : q' = -1074 := by have := (canon_of_ofFloat hye).1.2.2; omega
    subst hq'
    rw [hye] at hy0
    exact hy0 (rank_of_isZero ⟨n', rfl⟩)
  rw [hxe, hye]
  exact div_finite hxe hye hm'

theorem toRat_le_of_roundsTo (hz : (ofFloat z).isFinite = true) (hy : (ofFloat y).isFinite = true)
    {r : ℚ} (h : RoundsTo r (ofFloat z).rank) (hr : r ≤ (ofFloat y).toRat) :
    (ofFloat z).toRat ≤ (ofFloat y).toRat := by
  obtain ⟨n, m, q, hze⟩ := exists_of_isFinite hz
  obtain ⟨n', m', q', hye⟩ := exists_of_isFinite hy
  have hk := h.mono (roundsTo_toRat hy) hr
  rw [hze, hye] at hk ⊢
  exact toRat_le_of_rank_le (canon_of_ofFloat hze) (canon_of_ofFloat hye) hk

theorem le_toRat_of_roundsTo (hz : (ofFloat z).isFinite = true) (hy : (ofFloat y).isFinite = true)
    {r : ℚ} (h : RoundsTo r (ofFloat z).rank) (hr : (ofFloat y).toRat ≤ r) :
    (ofFloat y).toRat ≤ (ofFloat z).toRat := by
  obtain ⟨n, m, q, hze⟩ := exists_of_isFinite hz
  obtain ⟨n', m', q', hye⟩ := exists_of_isFinite hy
  have hk := (roundsTo_toRat hy).mono h hr
  rw [hze, hye] at hk ⊢
  exact toRat_le_of_rank_le (canon_of_ofFloat hye) (canon_of_ofFloat hze) hk

theorem toRat_eq_of_roundsTo (hz : (ofFloat z).isFinite = true) (hy : (ofFloat y).isFinite = true)
    (h : RoundsTo (ofFloat y).toRat (ofFloat z).rank) : (ofFloat z).toRat = (ofFloat y).toRat :=
  le_antisymm (toRat_le_of_roundsTo hz hy h le_rfl) (le_toRat_of_roundsTo hz hy h le_rfl)

theorem isFinite_zero : (ofFloat 0.0).isFinite = true := by decide

theorem toRat_zero : (ofFloat 0.0).toRat = 0 := by
  rw [show ofFloat 0.0 = .finite false 0 (-1074) by decide]; simp [pairVal]

theorem signedRank_not (n : Bool) (m : Nat) (e : Int) :
    signedRank (!n) m e = -signedRank n m e := by
  unfold signedRank
  split <;> cases n <;> simp

theorem RoundsTo.neg {r : ℚ} {k : Int} (h : RoundsTo r k) : RoundsTo (-r) (-k) := by
  obtain ⟨n, m, e, rfl, rfl⟩ := h
  exact ⟨!n, m, e, pairVal_not n m e, signedRank_not n m e⟩

theorem rank_not (n : Bool) (m : Nat) (q : Int) :
    rank (.finite (!n) m q) = -rank (.finite n m q) := by
  cases n <;> simp [rank]

theorem toRat_of_isZero {b : Binary} (h : b.IsZero) : b.toRat = 0 := by
  obtain ⟨n, rfl⟩ := h
  cases n <;> simp [pairVal]

/-! ### Exact operations with a zero -/

theorem isZero_of_roundsTo_zero (hz : ofFloat z ≠ .nan) (h : RoundsTo 0 (ofFloat z).rank) :
    (ofFloat z).IsZero := by
  have hk := h.unique roundsTo_zero
  have hf := isFinite_of_rank hz (by rw [hk]; unfold infRank; norm_num)
    (by rw [hk]; unfold infRank; norm_num)
  exact isZero_of_rank (canonical_ofFloat hz) hf hk

theorem isZero_mul_right (hx : (ofFloat x).isFinite = true) (hz : (ofFloat z).IsZero) :
    (ofFloat (x * z)).IsZero := by
  obtain ⟨hn, h⟩ := roundsTo_mul hx (isFinite_of_isZero hz)
  rw [toRat_of_isZero hz, mul_zero] at h
  exact isZero_of_roundsTo_zero hn h

theorem isZero_sub_self (hx : (ofFloat x).isFinite = true) : (ofFloat (x - x)).IsZero := by
  obtain ⟨hn, h⟩ := roundsTo_sub hx hx
  rw [sub_self] at h
  exact isZero_of_roundsTo_zero hn h

theorem toRat_sub_isZero (hx : (ofFloat x).isFinite = true) (hz : (ofFloat z).IsZero) :
    (ofFloat (x - z)).isFinite = true ∧ (ofFloat (x - z)).toRat = (ofFloat x).toRat := by
  obtain ⟨hn, h⟩ := roundsTo_sub hx (isFinite_of_isZero hz)
  rw [toRat_of_isZero hz, sub_zero] at h
  have hk := h.unique (roundsTo_toRat hx)
  obtain ⟨n, m, q, hxe⟩ := exists_of_isFinite hx
  have hb := rank_finite_bounds (canon_of_ofFloat hxe)
  rw [← hxe, ← hk] at hb
  have hf := isFinite_of_rank hn hb.1 hb.2
  exact ⟨hf, toRat_eq_of_roundsTo hf hx h⟩

theorem toRat_isZero_sub (hz : (ofFloat z).IsZero) (hx : (ofFloat x).isFinite = true) :
    (ofFloat (z - x)).isFinite = true ∧ (ofFloat (z - x)).toRat = -(ofFloat x).toRat := by
  obtain ⟨hn, h⟩ := roundsTo_sub (isFinite_of_isZero hz) hx
  rw [toRat_of_isZero hz, zero_sub] at h
  have hk := h.unique (roundsTo_toRat hx).neg
  obtain ⟨n, m, q, hxe⟩ := exists_of_isFinite hx
  have hc := canon_of_ofFloat hxe
  have hb := rank_finite_bounds hc
  rw [hxe] at hk
  have hf := isFinite_of_rank hn (by omega) (by omega)
  refine ⟨hf, ?_⟩
  obtain ⟨n₁, m₁, q₁, hde⟩ := exists_of_isFinite hf
  have hc₁ := canon_of_ofFloat hde
  have hcn : (Binary.finite (!n) m q).Canonical := hc
  rw [hde] at hk ⊢
  rw [← rank_not] at hk
  rw [hxe, toRat_finite, toRat_finite, ← pairVal_not]
  exact le_antisymm (by simpa using toRat_le_of_rank_le hc₁ hcn hk.le)
    (by simpa using toRat_le_of_rank_le hcn hc₁ hk.ge)

/-! ### Differences of equal floats -/

theorem ne_nan_of_isFinite {b : Binary} (h : b.isFinite = true) : b ≠ .nan := by
  rintro rfl
  cases h

theorem sub_ne_nan (hx : ofFloat x ≠ .nan) (hy : (ofFloat y).isFinite = true) :
    ofFloat (x - y) ≠ .nan := by
  cases hxe : ofFloat x with
  | nan => exact absurd hxe hx
  | inf k => rw [sub_inf_left hxe hy]; simp
  | finite n m q => exact (roundsTo_sub (by rw [hxe]; rfl) hy).1

theorem sub_of_beq (h : (x == y) = true) :
    ofFloat (x - y) = .nan ∨ (ofFloat (x - y)).rank = 0 := by
  obtain ⟨hx, hy, hr⟩ := (beq_iff_rank x y).mp h
  cases hxe : ofFloat x with
  | nan => exact absurd hxe hx
  | inf k =>
    left
    rw [hxe] at hr
    cases hye : ofFloat y with
    | nan => exact absurd hye hy
    | inf k' =>
      rw [hye] at hr
      have hk : k' = k := by cases k <;> cases k' <;> simp [rank] at hr ⊢
      rw [hk] at hye
      exact sub_inf_self hxe hye
    | finite n m q =>
      have hb := rank_finite_bounds (canon_of_ofFloat hye)
      rw [hye] at hr
      rw [← hr] at hb
      cases k <;> simp [rank, infRank] at hb
  | finite n m q =>
    right
    have hb := rank_finite_bounds (canon_of_ofFloat hxe)
    rw [← hxe, hr] at hb
    have hxf : (ofFloat x).isFinite = true := by rw [hxe]; rfl
    have hyf := isFinite_of_rank hy hb.1 hb.2
    obtain ⟨hn, hs⟩ := roundsTo_sub hxf hyf
    obtain ⟨n', m', q', hye⟩ := exists_of_isFinite hyf
    have hv : (ofFloat x).toRat = (ofFloat y).toRat := by
      rw [hxe, hye] at hr ⊢
      have cx := canon_of_ofFloat hxe
      have cy := canon_of_ofFloat hye
      exact le_antisymm (toRat_le_of_rank_le cx cy hr.le) (toRat_le_of_rank_le cy cx hr.ge)
    rw [hv, sub_self] at hs
    exact hs.unique roundsTo_zero

theorem beq_of_sub_rank_zero (hx : ofFloat x ≠ .nan) (hy : (ofFloat y).isFinite = true)
    (h : (ofFloat (x - y)).rank = 0) : (x == y) = true := by
  cases hxe : ofFloat x with
  | nan => exact absurd hxe hx
  | inf k =>
    rw [sub_inf_left hxe hy] at h
    cases k <;> simp [rank] at h
  | finite n m q =>
    have hxf : (ofFloat x).isFinite = true := by rw [hxe]; rfl
    exact (beq_iff_rank x y).mpr ⟨hx, ne_nan_of_isFinite hy, rank_eq_of_sub_isZero hxf hy h⟩

theorem sub_beq_of_isZero {w : Float} (hx : (ofFloat x).IsZero) (hw : (ofFloat w).IsZero)
    (hy : (ofFloat y).isFinite = true) : ((x - y) == (w - y)) = true := by
  obtain ⟨hn, hs⟩ := roundsTo_sub (isFinite_of_isZero hx) hy
  obtain ⟨hn', hs'⟩ := roundsTo_sub (isFinite_of_isZero hw) hy
  rw [toRat_of_isZero hx] at hs
  rw [toRat_of_isZero hw] at hs'
  exact (beq_iff_rank _ _).mpr ⟨hn, hn', hs.unique hs'⟩

end Values

end GridIndex.Binary
