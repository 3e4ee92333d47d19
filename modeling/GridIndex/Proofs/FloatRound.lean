import GridIndex.Proofs.FloatOrder

/-!
# Rounding to nearest, ties to even, as integer arithmetic

Each arithmetic operation of the float model forms an exact result `± m · 2^e` and hands it to
`round`: the exponent is brought to the one that keeps 53 significant bits, or to the least
exponent `-1074`, the bits shifted out choose between the two neighbours, a tie going to the even
one, and packing turns an exponent beyond the range into an infinity.

Here that pipeline is given in closed form. `rne m k` is `m / 2^k` rounded to nearest even,
`target m e` is the exponent kept and `roundedAt m e` the mantissa at that exponent, so that
`roundRank m e` is the rank of the rounded value while it stays in range. The main statement,
`rank_pack_round`, says that the float the model produces from a positive mantissa has rank
`signedRank`: that rank with its sign, capped at the rank of infinity.
-/

namespace GridIndex.Binary

open Float.Model (UnpackedFloat Format totalExponent)
open Float.Model.UnpackedFloat

set_option autoImplicit false

/-- `m / 2^k` rounded to the nearest integer, a tie going to the even one. -/
def rne (m k : Nat) : Nat :=
  if 2^k < 2 * (m % 2^k) ∨ (2 * (m % 2^k) = 2^k ∧ m / 2^k % 2 = 1) then m / 2^k + 1 else m / 2^k

theorem shift_fields (m k : Nat) :
    (ExtendedMantissa.mk m false false >>> k) =
      ⟨m / 2^k, 0 < k ∧ m / 2^(k-1) % 2 = 1, 1 < k ∧ m % 2^(k-1) ≠ 0⟩ := by
  induction k with
  | zero => simp [HShiftRight.hShiftRight, Nat.repeat]
  | succ k ih =>
    change ExtendedMantissa.shiftRightOne (ExtendedMantissa.mk m false false >>> k) = _
    rw [ih]
    simp only [ExtendedMantissa.shiftRightOne, ExtendedMantissa.mk.injEq]
    refine ⟨by rw [Nat.div_div_eq_div_mul, Nat.pow_succ], Bool.eq_iff_iff.mpr (by simp), ?_⟩
    rcases k with _ | k
    · simp
    · have h := Nat.mod_pow_succ (x := m) (b := 2) (k := k)
      have : 0 < 2^k := Nat.two_pow_pos k
      rw [Bool.eq_iff_iff]
      simp only [Bool.or_eq_true, decide_eq_true_eq, Nat.add_sub_cancel]
      constructor
      · rintro (⟨-, h1⟩ | ⟨-, h2⟩)
        · refine ⟨by omega, ?_⟩
          rw [h, h1]; omega
        · refine ⟨by omega, ?_⟩
          rw [h]; omega
      · rintro ⟨-, h3⟩
        rw [h] at h3
        by_cases h4 : m / 2^k % 2 = 1
        · exact Or.inl ⟨by omega, h4⟩
        · have h5 : m / 2^k % 2 = 0 := by omega
          rw [h5, Nat.mul_zero, Nat.add_zero] at h3
          have : k ≠ 0 := by rintro rfl; exact h3 (Nat.mod_one m)
          exact Or.inr ⟨by omega, h3⟩

theorem roundedMantissa_shift (m k : Nat) :
    (ExtendedMantissa.mk m false false >>> k).roundedMantissa = rne m k := by
  rw [shift_fields]
  rcases k with _ | j
  · simp [rne, ExtendedMantissa.roundedMantissa, ExtendedMantissa.accuracy,
      Accuracy.roundToNearestEven, Nat.mod_one]
  · have hp : 2^(j+1) = 2 * 2^j := by rw [Nat.pow_succ, Nat.mul_comm]
    have h : m % (2 * 2^j) = m % 2^j + 2^j * (m / 2^j % 2) := by
      rw [← hp]; exact Nat.mod_pow_succ
    have hq : m / (2 * 2^j) = m / 2^j / 2 := by
      rw [Nat.mul_comm, Nat.div_div_eq_div_mul]
    have hs := Nat.mod_lt m (Nat.two_pow_pos j)
    have hb : m / 2^j % 2 < 2 := Nat.mod_lt _ (by decide)
    simp only [rne, hp, h, hq, Nat.add_sub_cancel, ExtendedMantissa.roundedMantissa]
    by_cases hb1 : m / 2^j % 2 = 1 <;> by_cases hs0 : m % 2^j = 0
    · rcases Nat.mod_two_eq_zero_or_one (m / 2^j / 2) with h₂ | h₂ <;>
        simp [ExtendedMantissa.accuracy, Accuracy.roundToNearestEven, hb1, hs0, h₂]
    · have hj : 0 < j := Nat.pos_of_ne_zero fun hj => hs0 (by rw [hj]; exact Nat.mod_one m)
      have : 2 * 2^j < 2 * (m % 2^j + 2^j) := by omega
      simp [ExtendedMantissa.accuracy, Accuracy.roundToNearestEven, hb1, hs0, hj, this]
    · have hb0 : m / 2^j % 2 = 0 := by omega
      simp [ExtendedMantissa.accuracy, Accuracy.roundToNearestEven, hb0, hs0]
    · have hb0 : m / 2^j % 2 = 0 := by omega
      have hj : 0 < j := Nat.pos_of_ne_zero fun hj => hs0 (by rw [hj]; exact Nat.mod_one m)
      simp [ExtendedMantissa.accuracy, Accuracy.roundToNearestEven, hb0, hs0, hj]
      omega

theorem div_le_rne (m k : Nat) : m / 2^k ≤ rne m k := by
  unfold rne; split <;> omega

theorem rne_le (m k : Nat) : rne m k ≤ m / 2^k + 1 := by
  unfold rne; split <;> omega

@[simp] theorem rne_zero (m : Nat) : rne m 0 = m := by
  simp [rne, Nat.mod_one]

theorem rne_mono {m m' : Nat} (h : m ≤ m') (k : Nat) : rne m k ≤ rne m' k := by
  have hq : m / 2^k ≤ m' / 2^k := Nat.div_le_div_right h
  rcases Nat.lt_or_eq_of_le hq with hq | hq
  · exact Nat.le_trans (rne_le m k) (Nat.le_trans hq (div_le_rne m' k))
  · have hm := Nat.div_add_mod m (2^k)
    have hm' := Nat.div_add_mod m' (2^k)
    have hr : m % 2^k ≤ m' % 2^k := by
      rw [hq] at hm
      omega
    unfold rne
    rw [hq]
    split <;> split <;> omega

theorem rne_mul_pow (m k j : Nat) : rne (m * 2^j) (k + j) = rne m k := by
  have hd : m * 2^j / 2^(k + j) = m / 2^k := by
    rw [Nat.pow_add, Nat.mul_div_mul_right _ _ (Nat.two_pow_pos j)]
  have hr : m * 2^j % 2^(k + j) = m % 2^k * 2^j := by
    rw [Nat.pow_add, Nat.mul_mod_mul_right]
  have hp : 0 < 2^j := Nat.two_pow_pos j
  unfold rne
  rw [hd, hr, Nat.pow_add]
  have e₁ : 2^k * 2^j < 2 * (m % 2^k * 2^j) ↔ 2^k < 2 * (m % 2^k) := by
    rw [← Nat.mul_assoc]; exact Nat.mul_lt_mul_right hp
  have e₂ : 2 * (m % 2^k * 2^j) = 2^k * 2^j ↔ 2 * (m % 2^k) = 2^k := by
    rw [← Nat.mul_assoc]; exact Nat.mul_right_cancel_iff hp
  simp only [e₁, e₂]

theorem rne_mul_pow_eq (m : Nat) {p q p' q' : Nat} (h : p + q' = p' + q) :
    rne (m * 2^p) q = rne (m * 2^p') q' := by
  rcases Nat.le_total p' p with hp | hp
  · obtain ⟨c, rfl⟩ := Nat.exists_eq_add_of_le hp
    have hq : q = q' + c := by omega
    rw [hq, Nat.pow_add, ← Nat.mul_assoc, rne_mul_pow]
  · obtain ⟨c, rfl⟩ := Nat.exists_eq_add_of_le hp
    have hq : q' = q + c := by omega
    rw [hq, Nat.pow_add, ← Nat.mul_assoc, rne_mul_pow]

theorem log2_mul_two_pow {m : Nat} (hm : m ≠ 0) (j : Nat) : (m * 2^j).log2 = m.log2 + j := by
  have hp : 0 < 2^j := Nat.two_pow_pos j
  rw [Nat.log2_eq_iff (Nat.mul_ne_zero hm (Nat.pos_iff_ne_zero.mp hp))]
  constructor
  · rw [Nat.pow_add]
    exact Nat.mul_le_mul_right _ (Nat.log2_self_le hm)
  · rw [show m.log2 + j + 1 = m.log2 + 1 + j by omega, Nat.pow_add]
    exact Nat.mul_lt_mul_of_pos_right Nat.lt_log2_self hp

theorem log2_mono {m m' : Nat} (hm : m ≠ 0) (h : m ≤ m') : m.log2 ≤ m'.log2 :=
  (Nat.le_log2 (by omega)).mpr (Nat.le_trans (Nat.log2_self_le hm) h)

/-- The exponent that rounding `m · 2^e` keeps: the one that leaves 53 significant bits, but
never one below the least exponent. -/
def target (m : Nat) (e : Int) : Int := max (m.log2 + 1 + e - 53) (-1074)

theorem le_target (m : Nat) (e : Int) : -1074 ≤ target m e := le_max_right _ _

theorem targetExponent_eq (m : Nat) (e : Int) :
    Format.binary64.targetExponent (totalExponent m e) = target m e := by
  simp [Format.targetExponent, totalExponent, Format.mantissaBits, Format.minExponent, target]

theorem target_scale {m : Nat} (hm : m ≠ 0) (e : Int) (j : Nat) :
    target (m * 2^j) (e - j) = target m e := by
  unfold target
  rw [log2_mul_two_pow hm]
  omega

theorem shiftToTargetExponent_eq (m : Nat) (e : Int) :
    shiftToTargetExponent .binary64 m e .exact =
      (ExtendedMantissa.mk m false false >>> (target m e - e).toNat,
        e + (target m e - e).toNat) := by
  simp [shiftToTargetExponent, shiftToExponent, targetExponent_eq,
    ExtendedMantissa.ofMantissaAndAccuracy]

/-- The mantissa that rounding `m · 2^e` gives at the target exponent, before a carry out of 53
bits is renormalised. An exponent above the target is first brought down to it, exactly. -/
def roundedAt (m : Nat) (e : Int) : Nat :=
  rne (m * 2^(e - target m e).toNat) (target m e - e).toNat

theorem roundedAt_scale {m : Nat} (hm : m ≠ 0) (e : Int) (j : Nat) :
    roundedAt (m * 2^j) (e - j) = roundedAt m e := by
  unfold roundedAt
  rw [target_scale hm, Nat.mul_assoc, ← Nat.pow_add]
  exact rne_mul_pow_eq m (by omega)

theorem roundedAt_le (m : Nat) (e : Int) : roundedAt m e ≤ 2^53 := by
  have hk : m.log2 + 1 + (e - target m e).toNat ≤ 53 + (target m e - e).toNat := by
    unfold target; omega
  have : m * 2^(e - target m e).toNat / 2^(target m e - e).toNat < 2^53 := by
    rw [Nat.div_lt_iff_lt_mul (Nat.two_pow_pos _), ← Nat.pow_add]
    calc m * 2^(e - target m e).toNat
        < 2^(m.log2 + 1) * 2^(e - target m e).toNat :=
          Nat.mul_lt_mul_of_pos_right Nat.lt_log2_self (Nat.two_pow_pos _)
      _ = 2^(m.log2 + 1 + (e - target m e).toNat) := (Nat.pow_add ..).symm
      _ ≤ 2^(53 + (target m e - e).toNat) := Nat.pow_le_pow_right (by decide) hk
  have := rne_le (m * 2^(e - target m e).toNat) (target m e - e).toNat
  unfold roundedAt
  omega

theorem le_roundedAt {m : Nat} {e : Int} (hm : m ≠ 0) (ht : -1074 < target m e) :
    2^52 ≤ roundedAt m e := by
  have hk : m.log2 + (e - target m e).toNat = 52 + (target m e - e).toNat := by
    unfold target at ht ⊢; omega
  have : 2^52 ≤ m * 2^(e - target m e).toNat / 2^(target m e - e).toNat := by
    rw [Nat.le_div_iff_mul_le (Nat.two_pow_pos _), ← Nat.pow_add, ← hk, Nat.pow_add]
    exact Nat.mul_le_mul_right _ (Nat.log2_self_le hm)
  exact Nat.le_trans this (div_le_rne _ _)

theorem shift_after_round {r : Nat} {t : Int} (hr : r ≤ 2^53) (ht : -1074 ≤ t) :
    shiftToTargetExponent .binary64 r t .exact =
      if r < 2^53 then (ExtendedMantissa.mk r false false, t)
      else (ExtendedMantissa.mk (2^52) false false, t + 1) := by
  rw [shiftToTargetExponent_eq]
  split
  · rename_i h
    have : (target r t - t).toNat = 0 := by
      rcases Nat.eq_zero_or_pos r with rfl | hr0
      · unfold target; simp; omega
      · have := (Nat.log2_lt (Nat.pos_iff_ne_zero.mp hr0)).mpr (show r < 2^53 from h)
        unfold target; omega
    rw [this]
    simp [HShiftRight.hShiftRight, Nat.repeat]
  · rename_i h
    have hr' : r = 2^53 := by omega
    subst hr'
    have : (target (2^53) t - t).toNat = 1 := by
      unfold target; rw [Nat.log2_two_pow]; omega
    rw [this]
    simp [HShiftRight.hShiftRight, Nat.repeat, ExtendedMantissa.shiftRightOne]

/-- The mantissa and exponent that rounding `m · 2^e` produces. -/
def roundPair (m : Nat) (e : Int) : Nat × Int :=
  if roundedAt m e < 2^53 then (roundedAt m e, target m e) else (2^52, target m e + 1)

theorem roundPair_canon {m : Nat} (hm : m ≠ 0) (e : Int) :
    Canon (roundPair m e).1 (roundPair m e).2 := by
  have ht := le_target m e
  unfold roundPair
  split
  · refine ⟨ht, by assumption, ?_⟩
    rcases Int.lt_or_eq_of_le ht with h | h
    · exact Or.inl (le_roundedAt hm h)
    · exact Or.inr h.symm
  · exact ⟨by simp only; omega, by simp, Or.inl (Nat.le_refl _)⟩

/-- The rank of `m · 2^e` rounded, before overflow is considered. -/
def roundRank (m : Nat) (e : Int) : Int := (target m e + 1074) * 2^52 + roundedAt m e

theorem roundPair_rank (m : Nat) (e : Int) :
    ((roundPair m e).2 + 1074) * 2^52 + (roundPair m e).1 = roundRank m e := by
  have := roundedAt_le m e
  unfold roundPair roundRank
  split
  · rfl
  · simp only
    omega

theorem ofUnpacked_roundWithAccuracy (s : Sign) {m : Nat} {e : Int} (hm : m ≠ 0)
    (he : e ≤ target m e) :
    ofUnpacked (roundWithAccuracy .binary64 s m e .exact) =
      .finite (signBit s) (roundPair m e).1 (roundPair m e).2 := by
  have hr := roundedAt_le m e
  have ht := le_target m e
  have he' : e + ((target m e - e).toNat : Int) = target m e := by omega
  have hz : (roundPair m e).1 = 0 → (roundPair m e).2 = -1074 := by
    obtain ⟨-, -, h'⟩ := roundPair_canon hm e
    omega
  have hra : rne m (target m e - e).toNat = roundedAt m e := by
    simp [roundedAt, show (e - target m e).toNat = 0 by omega]
  unfold roundWithAccuracy
  rw [shiftToTargetExponent_eq]
  simp only [he', roundedMantissa_shift, hra, shift_after_round hr ht]
  unfold roundPair at hz ⊢
  by_cases hlt : roundedAt m e < 2^53
  · simp only [if_pos hlt] at hz ⊢
    by_cases h0 : roundedAt m e = 0
    · rw [dif_pos h0]
      simp only [ofUnpacked]
      rw [h0, hz h0]
    · rw [dif_neg h0]
      rfl
  · simp only [if_neg hlt]
    rfl

theorem round_eq_roundWithAccuracy (s : Sign) (m : Nat) {e : Int} (he : e ≤ target m e) :
    UnpackedFloat.round .binary64 s m e = roundWithAccuracy .binary64 s m e .exact := by
  simp [UnpackedFloat.round, decreaseExponent, targetExponent_eq, show (e - target m e).toNat = 0 by omega]

theorem ofUnpacked_round (s : Sign) {m : Nat} (hm : m ≠ 0) (e : Int) :
    ofUnpacked (UnpackedFloat.round .binary64 s m e) =
      .finite (signBit s) (roundPair m e).1 (roundPair m e).2 := by
  -- `round` first lowers an exponent above the target, which changes neither the target nor
  -- the rounding
  have hj : m <<< (e - target m e).toNat = m * 2^(e - target m e).toNat := Nat.shiftLeft_eq _ _
  have hm' : m * 2^(e - target m e).toNat ≠ 0 :=
    Nat.mul_ne_zero hm (Nat.pos_iff_ne_zero.mp (Nat.two_pow_pos _))
  have hpair : roundPair (m * 2^(e - target m e).toNat) (e - (e - target m e).toNat) =
      roundPair m e := by
    simp only [roundPair, roundedAt_scale hm, target_scale hm]
  have he : e - ((e - target m e).toNat : Int) ≤
      target (m * 2^(e - target m e).toNat) (e - (e - target m e).toNat) := by
    rw [target_scale hm]; omega
  simp only [UnpackedFloat.round, decreaseExponent, targetExponent_eq, hj]
  rw [ofUnpacked_roundWithAccuracy s hm' he, hpair]

/-! ## Packing -/

theorem toNat_append_eq {m n : Nat} (x : BitVec m) (y : BitVec n) :
    (x ++ y).toNat = x.toNat * 2^n + y.toNat := by
  rw [BitVec.toNat_append, ← Nat.shiftLeft_add_eq_or_of_lt y.isLt, Nat.shiftLeft_eq]

theorem ofFloat_of_fields {x : Float} {S E F : Nat} (hS : S < 2) (hE : E < 2^11) (hF : F < 2^52)
    (h : x.toBits.toNat = (S * 2^11 + E) * 2^52 + F) :
    ofFloat x = if E = 2047 then (if F = 0 then .inf (S == 1) else .nan)
      else if E = 0 then .finite (S == 1) F (-1074) else .finite (S == 1) (2^52 + F) (E - 1075) := by
  have h₁ : x.toBits.toNat / 2^63 % 2 = S := by rw [h]; omega
  have h₂ : x.toBits.toNat / 2^52 % 2^11 = E := by rw [h]; omega
  have h₃ : x.toBits.toNat % 2^52 = F := by rw [h]; omega
  unfold ofFloat
  simp only [Nat.pow_eq, h₁, h₂, h₃]

theorem toBits_ofModel_pack (u : UnpackedFloat) :
    (Float.ofModel (Float.Model.pack u)).toBits.toNat = (UnpackedFloat.pack .binary64 u).toNat :=
  rfl

theorem toNat_packComponents (s : Sign) (e : BitVec 11) (m : BitVec 52) :
    (packComponents .binary64 s e m).toNat =
      (s.toBitVec.toNat * 2^11 + e.toNat) * 2^52 + m.toNat := by
  simp only [packComponents, toNat_append_eq]

theorem signBit_eq (s : Sign) : (s.toBitVec.toNat == 1) = signBit s := by
  cases s <;> rfl

/-- A finite value with an exponent beyond the range becomes an infinity of its sign. -/
def clip : Binary → Binary
  | .finite n m q => if 972 ≤ q then .inf n else .finite n m q
  | b => b

/-- The unpacked values that packing keeps: a finite one must be canonical. -/
def Packable : UnpackedFloat → Prop
  | .finite _ m e _ => Canon m e
  | _ => True

theorem packable_of_ofUnpacked {u : UnpackedFloat} {n : Bool} {m : Nat} {q : Int}
    (h : ofUnpacked u = .finite n m q) (hc : Canon m q) : Packable u := by
  cases u with
  | finite s m' e _ =>
    simp only [ofUnpacked, Binary.finite.injEq] at h
    obtain ⟨-, rfl, rfl⟩ := h
    exact hc
  | _ => trivial

theorem ofFloat_pack (u : UnpackedFloat) (hu : Packable u) :
    ofFloat (Float.ofModel (Float.Model.pack u)) = clip (ofUnpacked u) := by
  have hs (s : Sign) : s.toBitVec.toNat < 2 := s.toBitVec.isLt
  cases u with
  | notANumber =>
    rw [@ofFloat_of_fields _ 0 2047 (2^51) (by decide) (by decide) (by decide)
      (by rw [toBits_ofModel_pack]; rfl)]
    rfl
  | infinity s =>
    rw [@ofFloat_of_fields _ _ 2047 0 (hs s) (by decide) (by decide)
      (by rw [toBits_ofModel_pack]; simp only [UnpackedFloat.pack, packedInfinity,
        toNat_packComponents]; rfl)]
    simp [ofUnpacked, clip, signBit_eq]
  | zero s =>
    rw [@ofFloat_of_fields _ _ 0 0 (hs s) (by decide) (by decide)
      (by rw [toBits_ofModel_pack]; simp only [UnpackedFloat.pack, packedZero,
        toNat_packComponents]; rfl)]
    simp [ofUnpacked, clip, signBit_eq]
  | finite s m e hm =>
    obtain ⟨h₁, h₂, h₃⟩ := hu
    have hpack := toBits_ofModel_pack (.finite s m e hm)
    have hbias : Format.binary64.exponentBias = 1023 := rfl
    have hbits : Format.binary64.mantissaBits = 53 := rfl
    simp only [UnpackedFloat.pack, hbias, hbits] at hpack
    by_cases hinf : 972 ≤ e
    · rw [if_pos (by simp; omega), packedInfinity, toNat_packComponents] at hpack
      rw [@ofFloat_of_fields _ _ 2047 0 (hs s) (by decide) (by decide) (by rw [hpack]; rfl)]
      simp [ofUnpacked, clip, signBit_eq, hinf]
    · rw [if_neg (by simp; omega)] at hpack
      have hm0 : m ≠ 0 := by omega
      by_cases hn : m.log2 + 1 = 53
      · have hlo : 2^52 ≤ m := by
          have := Nat.log2_self_le hm0
          rwa [show m.log2 = 52 by omega] at this
        rw [if_pos hn, toNat_packComponents] at hpack
        rw [@ofFloat_of_fields _ _ (e + 1075).toNat (m - 2^52) (hs s) (by omega) (by omega)
          (by rw [hpack]; simp only [BitVec.toNat_ofNat]; omega)]
        simp only [ofUnpacked, clip, signBit_eq, if_neg hinf]
        rw [if_neg (by omega), if_neg (by omega)]
        rw [show 2^52 + (m - 2^52) = m by omega,
          show ((e + 1075).toNat : Int) - 1075 = e by omega]
      · have hlo : m < 2^52 := by
          have : m.log2 < 53 := (Nat.log2_lt hm0).mpr h₂
          exact (Nat.log2_lt hm0).mp (by omega)
        have he : e = -1074 := by omega
        rw [if_neg hn, toNat_packComponents] at hpack
        rw [@ofFloat_of_fields _ _ 0 m (hs s) (by decide) hlo
          (by rw [hpack]; simp only [BitVec.toNat_ofNat]; omega)]
        simp [ofUnpacked, clip, signBit_eq, he]

theorem ofFloat_pack_round (s : Sign) {m : Nat} (hm : m ≠ 0) (e : Int) :
    ofFloat (Float.ofModel (Float.Model.pack (UnpackedFloat.round .binary64 s m e))) =
      clip (.finite (signBit s) (roundPair m e).1 (roundPair m e).2) := by
  have h := ofUnpacked_round s hm e
  rw [ofFloat_pack _ (packable_of_ofUnpacked h (roundPair_canon hm e)), h]

/-! ## The rank of a rounded value -/

/-- The rank of the float that `± m · 2^e` rounds to: `0` for a zero mantissa, and capped at the
rank of an infinity. -/
def signedRank (neg : Bool) (m : Nat) (e : Int) : Int :=
  if m = 0 then 0
  else if neg then -min (roundRank m e) (2047 * 2^52) else min (roundRank m e) (2047 * 2^52)

theorem rank_pack_round (s : Sign) {m : Nat} (hm : m ≠ 0) (e : Int) :
    (ofFloat (Float.ofModel (Float.Model.pack (UnpackedFloat.round .binary64 s m e)))).rank =
      signedRank (signBit s) m e := by
  have hrank := roundPair_rank m e
  obtain ⟨hq, hlt, hlead⟩ := roundPair_canon hm e
  rw [ofFloat_pack_round s hm]
  unfold signedRank
  rw [if_neg hm]
  by_cases hbig : 972 ≤ (roundPair m e).2
  · have : min (roundRank m e) (2047 * 2^52) = 2047 * 2^52 := min_eq_right (by omega)
    simp only [clip, if_pos hbig, rank, this]
  · have : min (roundRank m e) (2047 * 2^52) = roundRank m e := min_eq_left (by omega)
    rw [this, ← hrank]
    simp only [clip, if_neg hbig, rank]

theorem ofFloat_pack_round_ne_nan (s : Sign) {m : Nat} (hm : m ≠ 0) (e : Int) :
    ofFloat (Float.ofModel (Float.Model.pack (UnpackedFloat.round .binary64 s m e))) ≠ .nan := by
  rw [ofFloat_pack_round s hm]
  by_cases h : 972 ≤ (roundPair m e).2 <;> simp [clip, h]

end GridIndex.Binary
