import GridIndex.Proofs.FloatSpecial

/-!
# Quotients are rounded

The model divides mantissas with a remainder and rounds the quotient `Q` at exponent `E`,
telling the rounding only how the remainder compares with half the divisor. Rounding sees the
same as it would for the dyadic `(4Q + c) · 2^(E-2)`, where `c` in `0..3` encodes that
comparison (`roundWithAccuracy_proxy`), and that dyadic lies within a quarter of `2^E` of the
exact quotient. So the quotient of two finite floats is the rounding of a dyadic within a
relative `2^-52`, plus the least subnormal, of the exact quotient (`div_finite`).
-/

namespace GridIndex.Binary

open Float.Model (UnpackedFloat totalExponent Format)
open Float.Model.UnpackedFloat

set_option autoImplicit false

/-- The two bits below the last kept one that an accuracy stands for: none, less than half,
exactly half, more than half. -/
def code : Accuracy → Nat
  | .exact => 0
  | .inexact .lt => 1
  | .inexact .eq => 2
  | .inexact .gt => 3

theorem code_lt (a : Accuracy) : code a < 4 := by
  cases a with
  | exact => decide
  | inexact o => cases o <;> decide

theorem shift_ofMantissaAndAccuracy (q : Nat) (a : Accuracy) : ∀ k,
    ExtendedMantissa.ofMantissaAndAccuracy q a >>> k =
      ExtendedMantissa.mk (4 * q + code a) false false >>> (k + 2)
  | 0 => by
    rw [shift_fields]
    cases a with
    | exact =>
      simp [ExtendedMantissa.ofMantissaAndAccuracy, code, HShiftRight.hShiftRight, Nat.repeat]
      omega
    | inexact o =>
      cases o <;>
        simp [ExtendedMantissa.ofMantissaAndAccuracy, code, HShiftRight.hShiftRight,
          Nat.repeat] <;> omega
  | k + 1 => by
    change ExtendedMantissa.shiftRightOne (ExtendedMantissa.ofMantissaAndAccuracy q a >>> k) =
      ExtendedMantissa.shiftRightOne (ExtendedMantissa.mk (4 * q + code a) false false >>> (k + 2))
    rw [shift_ofMantissaAndAccuracy q a k]

/-- Rounding a mantissa with its accuracy is rounding the dyadic that stands for both. -/
theorem roundWithAccuracy_proxy (s : Sign) (q : Nat) (E : Int) (a : Accuracy)
    (ht : target (4 * q + code a) (E - 2) = target q E) (hE : E ≤ target q E) :
    roundWithAccuracy .binary64 s q E a =
      roundWithAccuracy .binary64 s (4 * q + code a) (E - 2) .exact := by
  have hk : (target q E - (E - 2)).toNat = (target q E - E).toNat + 2 := by omega
  have hshift : shiftToTargetExponent .binary64 q E a =
      shiftToTargetExponent .binary64 (4 * q + code a) (E - 2) .exact := by
    rw [shiftToTargetExponent_eq, ht, hk, ← shift_ofMantissaAndAccuracy]
    simp only [shiftToTargetExponent, shiftToExponent, targetExponent_eq, Prod.mk.injEq, true_and]
    omega
  unfold roundWithAccuracy
  rw [hshift]

/-! ## The quotient of the mantissas -/

theorem divCore_spec {m m' Q : Nat} {e e' E : Int} {a : Accuracy}
    (h : UnpackedFloat.divCore .binary64 m e m' e' = (Q, E, a)) :
    E = min (e - e') (max (m.log2 - m'.log2 + e - e' - 53) (-1074)) ∧
      Q = m * 2^(e - e' - E).toNat / m' ∧
      a = accuracyOfFraction (m * 2^(e - e' - E).toNat % m') m' := by
  simp only [UnpackedFloat.divCore, Format.targetExponent, totalExponent, Nat.shiftLeft_eq,
    Prod.mk.injEq, show Format.binary64.mantissaBits = 53 from rfl,
    show Format.binary64.minExponent = -1074 from rfl] at h
  have key : max ((m.log2 : Int) + 1 + e - (m'.log2 + 1 + e') - ((53 : Nat) : Int)) (-1074) =
      max (m.log2 - m'.log2 + e - e' - 53) (-1074) := by omega
  rw [key] at h
  obtain ⟨hQ, rfl, ha⟩ := h
  exact ⟨rfl, hQ.symm, ha.symm⟩

section Core

variable {m m' : Nat} {e e' : Int} (hm : m ≠ 0) (hm' : m' ≠ 0) (hc : m < 2^53)
include hm hm' hc

theorem le_quotient {E : Int} (hE : E = min (e - e') (max (m.log2 - m'.log2 + e - e' - 53) (-1074)))
    (hlo : -1074 < E) : 2^52 ≤ m * 2^(e - e' - E).toNat / m' := by
  have hl : m.log2 < 53 := (Nat.log2_lt hm).mpr hc
  have hsh : (e - e' - E).toNat = m'.log2 + 53 - m.log2 := by omega
  rw [Nat.le_div_iff_mul_le (Nat.pos_of_ne_zero hm'), hsh]
  calc 2^52 * m' ≤ 2^52 * 2^(m'.log2 + 1) :=
        Nat.mul_le_mul_left _ (Nat.le_of_lt Nat.lt_log2_self)
    _ = 2^m.log2 * 2^(m'.log2 + 53 - m.log2) := by
        rw [← Nat.pow_add, ← Nat.pow_add]; congr 1; omega
    _ ≤ m * 2^(m'.log2 + 53 - m.log2) := Nat.mul_le_mul_right _ (Nat.log2_self_le hm)

theorem le_target_quotient {E : Int}
    (hE : E = min (e - e') (max (m.log2 - m'.log2 + e - e' - 53) (-1074))) :
    E ≤ target (m * 2^(e - e' - E).toNat / m') E := by
  unfold target
  by_cases hlo : -1074 < E
  · have h52 := (Nat.le_log2 (by have := le_quotient hm hm' hc hE hlo; omega)).mpr
      (le_quotient hm hm' hc hE hlo)
    omega
  · omega

theorem target_proxy {E : Int}
    (hE : E = min (e - e') (max (m.log2 - m'.log2 + e - e' - 53) (-1074))) {c : Nat} (hc4 : c < 4) :
    target (4 * (m * 2^(e - e' - E).toNat / m') + c) (E - 2) =
      target (m * 2^(e - e' - E).toNat / m') E := by
  generalize hQ : m * 2^(e - e' - E).toNat / m' = Q
  unfold target
  by_cases hQ0 : Q = 0
  · have hlo : E ≤ -1074 := by
      by_contra h
      have := le_quotient hm hm' hc hE (by omega)
      omega
    have : c.log2 ≤ 1 := by
      rcases Nat.eq_zero_or_pos c with rfl | hpos
      · simp
      · have := (Nat.log2_lt (by omega)).mpr (show c < 2^2 by omega)
        omega
    subst hQ0
    simp only [Nat.mul_zero, Nat.zero_add, Nat.log2_zero]
    omega
  · have hlog : (4 * Q + c).log2 = Q.log2 + 2 := by
      rw [Nat.log2_eq_iff (by omega)]
      have h₁ := Nat.log2_self_le hQ0
      have h₂ : Q < 2 * 2^Q.log2 := by rw [← Nat.pow_succ']; exact Nat.lt_log2_self
      have h₄ : 2^(Q.log2 + 2) = 4 * 2^Q.log2 := by rw [Nat.pow_add]; omega
      have h₈ : 2^(Q.log2 + 2 + 1) = 8 * 2^Q.log2 := by rw [Nat.pow_add, Nat.pow_add]; omega
      rw [h₄, h₈]
      constructor <;> omega
    omega

end Core

/-! ## The remainder against half the divisor -/

theorem abs_code_sub_le {R d : Nat} (hR : R < d) :
    |(code (accuracyOfFraction R d) : ℚ) / 4 - R / d| ≤ 1 / 4 := by
  have hd : (0 : ℚ) < d := by exact_mod_cast (show 0 < d by omega)
  have key : |(code (accuracyOfFraction R d) : ℚ) * d - 4 * R| ≤ d := by
    unfold accuracyOfFraction
    split
    · rename_i h0
      subst h0
      simp [code]
    · rcases h : compare (2 * R) d with _ | _ | _ <;> simp only [code]
      · have : 2 * R < d := compare_lt_iff_lt.mp h
        have : (2 * R : ℚ) < d := by exact_mod_cast this
        rw [abs_le]; constructor <;> push_cast <;> linarith
      · have : 2 * R = d := compare_eq_iff_eq.mp h
        have : (2 * R : ℚ) = d := by exact_mod_cast this
        rw [abs_le]; constructor <;> push_cast <;> linarith
      · have : d < 2 * R := compare_gt_iff_gt.mp h
        have : (d : ℚ) < 2 * R := by exact_mod_cast this
        have : (R : ℚ) < d := by exact_mod_cast hR
        rw [abs_le]; constructor <;> push_cast <;> linarith
  have : (code (accuracyOfFraction R d) : ℚ) / 4 - R / d =
      ((code (accuracyOfFraction R d) : ℚ) * d - 4 * R) / (4 * d) := by
    field_simp
  rw [this, abs_div, abs_of_pos (by positivity : (0 : ℚ) < 4 * d), div_le_iff₀ (by positivity)]
  linarith

theorem quotient_split (m : Nat) {m' : Nat} (hm' : m' ≠ 0) {e e' E : Int} (hE : E ≤ e - e') :
    (m : ℚ) * 2^e / (m' * 2^e') =
      ((m * 2^(e - e' - E).toNat / m' : Nat) + (m * 2^(e - e' - E).toNat % m' : Nat) / m') *
        2^E := by
  generalize hsh : (e - e' - E).toNat = sh
  have hsh' : (sh : Int) = e - e' - E := by omega
  generalize hQ : m * 2^sh / m' = Q
  generalize hR : m * 2^sh % m' = R
  have hpos : (0 : ℚ) < m' := by exact_mod_cast Nat.pos_of_ne_zero hm'
  have hMQR : ((m * 2^sh : Nat) : ℚ) = Q * m' + R := by
    rw [← hQ, ← hR]; exact_mod_cast (Nat.div_add_mod' _ m').symm
  have h2 : (2 : ℚ)^e = 2^(sh : Int) * 2^E * 2^e' := by
    rw [← zpow_add₀ two_ne_zero, ← zpow_add₀ two_ne_zero]; congr 1; omega
  have hM : ((m * 2^sh : Nat) : ℚ) = m * 2^(sh : Int) := by push_cast; rw [zpow_natCast]
  rw [h2, show (Q : ℚ) + R / m' = (Q * m' + R) / m' by field_simp, ← hMQR, hM]
  field_simp

section Value

variable {m m' : Nat} {e e' : Int} (hm : m ≠ 0) (hm' : m' ≠ 0)
include hm hm'

theorem two_pow_le_quotient :
    (2 : ℚ)^((m.log2 : Int) - m'.log2 + e - e' - 1) ≤ m * 2^e / (m' * 2^e') := by
  have h₁ : (2 : ℚ)^(m.log2 : Int) ≤ m := by
    rw [zpow_natCast]; exact_mod_cast Nat.log2_self_le hm
  have h₂ : (m' : ℚ) ≤ 2^((m'.log2 : Int) + 1) := by
    rw [show ((m'.log2 : Int) + 1) = ((m'.log2 + 1 : Nat) : Int) by push_cast; ring, zpow_natCast]
    exact_mod_cast Nat.le_of_lt Nat.lt_log2_self
  rw [le_div_iff₀ (by positivity)]
  calc (2 : ℚ)^((m.log2 : Int) - m'.log2 + e - e' - 1) * (m' * 2^e')
      ≤ 2^((m.log2 : Int) - m'.log2 + e - e' - 1) * (2^((m'.log2 : Int) + 1) * 2^e') := by gcongr
    _ = 2^(m.log2 : Int) * 2^e := by
        rw [← zpow_add₀ two_ne_zero, ← zpow_add₀ two_ne_zero, ← zpow_add₀ two_ne_zero]
        congr 1; ring
    _ ≤ m * 2^e := by gcongr

theorem abs_proxy_sub_le {E : Int}
    (hE : E = min (e - e') (max (m.log2 - m'.log2 + e - e' - 53) (-1074))) :
    |((4 * (m * 2^(e - e' - E).toNat / m') +
        code (accuracyOfFraction (m * 2^(e - e' - E).toNat % m') m') : Nat) : ℚ) * 2^(E - 2) -
      m * 2^e / (m' * 2^e')| ≤ m * 2^e / (m' * 2^e') / 2^52 + 2^(-1074 : Int) := by
  have hY := quotient_split m hm' (show E ≤ e - e' by omega)
  generalize (e - e' - E).toNat = sh at hY ⊢
  generalize m * 2^sh / m' = Q at hY ⊢
  generalize hR : m * 2^sh % m' = R at hY ⊢
  have hRlt : R < m' := hR ▸ Nat.mod_lt _ (Nat.pos_of_ne_zero hm')
  have hE2 : (0 : ℚ) < 2^E := zpow_pos (by norm_num) E
  have hD : ((4 * Q + code (accuracyOfFraction R m') : Nat) : ℚ) * 2^(E - 2) =
      (Q + code (accuracyOfFraction R m') / 4) * 2^E := by
    rw [zpow_sub₀ two_ne_zero]; push_cast; ring
  have hdiff : |((4 * Q + code (accuracyOfFraction R m') : Nat) : ℚ) * 2^(E - 2) -
      m * 2^e / (m' * 2^e')| ≤ 2^E / 4 := by
    rw [hD, hY, show ((Q : ℚ) + code (accuracyOfFraction R m') / 4) * 2^E - (Q + R / m') * 2^E =
      (code (accuracyOfFraction R m') / 4 - R / m') * 2^E by ring, abs_mul, abs_of_pos hE2]
    have := abs_code_sub_le hRlt
    nlinarith
  have hbound : (2 : ℚ)^E / 4 ≤ m * 2^e / (m' * 2^e') / 2^52 + 2^(-1074 : Int) := by
    have hY0 : 0 ≤ (m : ℚ) * 2^e / (m' * 2^e') / 2^52 := by positivity
    by_cases hlo : E ≤ -1074
    · have : (2 : ℚ)^E ≤ 2^(-1074 : Int) := zpow_le_zpow_right₀ (by norm_num) hlo
      linarith
    · have hE' : E ≤ (m.log2 : Int) - m'.log2 + e - e' - 1 - 52 := by omega
      have h₁ : (2 : ℚ)^E ≤ 2^((m.log2 : Int) - m'.log2 + e - e' - 1 - 52) :=
        zpow_le_zpow_right₀ (by norm_num) hE'
      have h₂ : (2 : ℚ)^((m.log2 : Int) - m'.log2 + e - e' - 1 - 52) =
          2^((m.log2 : Int) - m'.log2 + e - e' - 1) / 2^52 := by
        rw [zpow_sub₀ two_ne_zero]; norm_num
      have h₃ := @two_pow_le_quotient m m' e e' hm hm'
      have h₄ : (2 : ℚ)^((m.log2 : Int) - m'.log2 + e - e' - 1) / 2^52 ≤
          m * 2^e / (m' * 2^e') / 2^52 := by gcongr
      have : (0 : ℚ) ≤ 2^(-1074 : Int) := by positivity
      linarith
  exact le_trans hdiff hbound

end Value

theorem proxy_ne_zero {m m' sh : Nat} (hm : m ≠ 0) (hm' : m' ≠ 0) :
    4 * (m * 2^sh / m') + code (accuracyOfFraction (m * 2^sh % m') m') ≠ 0 := by
  by_cases hQ : m * 2^sh / m' = 0
  · have hM : m * 2^sh < m' := by
      rcases Nat.div_eq_zero_iff.mp hQ with h | h
      · exact absurd h hm'
      · exact h
    have hR0 : m * 2^sh ≠ 0 := Nat.mul_ne_zero hm (Nat.pos_iff_ne_zero.mp (Nat.two_pow_pos sh))
    rw [Nat.mod_eq_of_lt hM]
    unfold accuracyOfFraction
    rw [if_neg hR0]
    cases compare (2 * (m * 2^sh)) m' <;> simp [code]
  · omega

theorem div_eq_proxy {x y : Float} {n n' : Bool} {m m' : Nat} {q q' : Int}
    (hx : ofFloat x = .finite n m q) (hy : ofFloat y = .finite n' m' q') (hm : m ≠ 0)
    (hm' : m' ≠ 0) :
    ∃ E : Int, E = min (q - q') (max (m.log2 - m'.log2 + q - q' - 53) (-1074)) ∧
      ofFloat (x / y) ≠ .nan ∧
      (ofFloat (x / y)).rank = signedRank (n ^^ n') (4 * (m * 2^(q - q' - E).toNat / m') +
        code (accuracyOfFraction (m * 2^(q - q' - E).toNat % m') m')) (E - 2) := by
  have hc : m < 2^53 := (canon_of_ofFloat hx).1.2.1
  change ∃ E, _ ∧ ofFloat (Float.ofModel (Float.Model.pack (UnpackedFloat.div .binary64
    x.toModel.unpack y.toModel.unpack))) ≠ .nan ∧ (ofFloat (Float.ofModel (Float.Model.pack
      (UnpackedFloat.div .binary64 x.toModel.unpack y.toModel.unpack)))).rank = _
  rw [ofFloat_eq] at hx hy
  rcases ofUnpacked_eq_finite hy with ⟨s', -, -, rfl, -⟩ | ⟨s', hm₁', hu', rfl⟩
  · exact absurd rfl hm'
  rcases ofUnpacked_eq_finite hx with ⟨s, -, -, rfl, -⟩ | ⟨s, hm₁, hu, rfl⟩
  · exact absurd rfl hm
  rw [hu, hu']
  simp only [UnpackedFloat.div]
  generalize hd : UnpackedFloat.divCore .binary64 m q m' q' = r
  obtain ⟨Q, E, a⟩ := r
  obtain ⟨hE, rfl, rfl⟩ := divCore_spec hd
  dsimp only
  have hle := le_target_quotient hm hm' hc hE
  have hne := @proxy_ne_zero m m' (q - q' - E).toNat hm hm'
  have ht := target_proxy hm hm' hc hE (code_lt (accuracyOfFraction
    (m * 2^(q - q' - E).toNat % m') m'))
  rw [roundWithAccuracy_proxy _ _ _ _ ht hle, ← round_eq_roundWithAccuracy _ _ (by omega)]
  exact ⟨E, hE, ofFloat_pack_round_ne_nan _ hne _, by rw [rank_pack_round _ hne _, signBit_div]⟩

/-- The quotient of two finite floats, the divisor not zero, is the rounding of a dyadic within
a relative `2^-52`, plus the least subnormal, of the exact quotient. -/
theorem div_finite {x y : Float} {n n' : Bool} {m m' : Nat} {q q' : Int}
    (hx : ofFloat x = .finite n m q) (hy : ofFloat y = .finite n' m' q') (hm' : m' ≠ 0) :
    ofFloat (x / y) ≠ .nan ∧ ∃ d : ℚ,
      |d - pairVal n m q / pairVal n' m' q'| ≤
        |pairVal n m q / pairVal n' m' q'| / 2^52 + 2^(-1074 : Int) ∧
      RoundsTo d (ofFloat (x / y)).rank := by
  by_cases hm : m = 0
  · subst hm
    change ofFloat (Float.ofModel (Float.Model.pack (UnpackedFloat.div .binary64 x.toModel.unpack
      y.toModel.unpack))) ≠ .nan ∧ ∃ d : ℚ, _ ∧ RoundsTo d (ofFloat (Float.ofModel
        (Float.Model.pack (UnpackedFloat.div .binary64 x.toModel.unpack y.toModel.unpack)))).rank
    rw [ofFloat_eq] at hx hy
    rcases ofUnpacked_eq_finite hy with ⟨s', -, -, rfl, -⟩ | ⟨s', hm'', hu', rfl⟩
    · exact absurd rfl hm'
    rcases ofUnpacked_eq_finite hx with ⟨s, hu, -, -, -⟩ | ⟨s, hm, -, -⟩
    · rw [hu, hu']
      simp only [UnpackedFloat.div]
      rw [ofFloat_pack_zero]
      refine ⟨by simp, 0, by cases n <;> simp [pairVal], ?_⟩
      cases signBit (s / s') <;> simpa [rank] using roundsTo_zero
    · omega
  · obtain ⟨E, hE, hne, hrank⟩ := div_eq_proxy hx hy hm hm'
    refine ⟨hne, _, ?_, n ^^ n', _, _, rfl, hrank.symm⟩
    -- the sign of the quotient is that of the exact one, so only magnitudes matter
    have key := @abs_proxy_sub_le m m' q q' hm hm' _ hE
    have hY : 0 ≤ (m : ℚ) * 2^q / (m' * 2^q') := by positivity
    cases n <;> cases n' <;>
      simp only [pairVal, Bool.xor_false, Bool.xor_true, Bool.not_false, Bool.not_true, neg_div,
        div_neg, neg_neg, abs_neg, sub_neg_eq_add] <;>
      first
      | exact key
      | (rw [abs_of_nonneg hY]; exact key)
      | (rw [neg_add_eq_sub, abs_sub_comm, abs_of_nonneg hY]; exact key)

end GridIndex.Binary
