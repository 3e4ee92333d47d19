import GridIndex.Proofs.FloatRound
import Mathlib.Algebra.Order.Field.Power
import Mathlib.Data.Rat.Cast.Order
import Mathlib.Tactic.Ring
import Mathlib.Tactic.Positivity
import Mathlib.Tactic.GCongr

/-!
# The value of a float, and rounding is monotone

A finite float stands for the rational `± m · 2^q`. Two facts connect values and ranks:

* `toRat_le_of_rank_le`: among finite floats, a lower rank means a value no greater;
* `RoundsTo.mono`: if exact values `r ≤ r'` round to ranks `k` and `k'`, then `k ≤ k'`.

`RoundsTo r k` says that `k` is the rank of the float the exact value `r` rounds to. Rounding
depends only on the value (`roundRank_scale`), so two values can be compared at one exponent,
where the rank is monotone in the mantissa (`roundRank_mono_mantissa`): equal target exponents
compare the rounded mantissas, and a larger target exponent means a higher binade.
-/

namespace GridIndex.Binary

set_option autoImplicit false

/-- The value of `± m · 2^e`. -/
def pairVal : Bool → Nat → Int → ℚ
  | false, m, e => m * 2^e
  | true, m, e => -(m * 2^e)

/-- The value of a finite float; an infinity or NaN has none and gets `0`. -/
def toRat : Binary → ℚ
  | .finite n m q => pairVal n m q
  | _ => 0

@[simp] theorem toRat_finite (n : Bool) (m : Nat) (q : Int) :
    toRat (.finite n m q) = pairVal n m q := rfl

theorem pairVal_not (n : Bool) (m : Nat) (e : Int) : pairVal (!n) m e = -pairVal n m e := by
  cases n <;> simp [pairVal]

/-- `k` is the rank of the float that the exact value `r` rounds to. -/
def RoundsTo (r : ℚ) (k : Int) : Prop := ∃ n m e, pairVal n m e = r ∧ signedRank n m e = k

theorem roundRank_scale {m : Nat} (hm : m ≠ 0) (e : Int) (j : Nat) :
    roundRank (m * 2^j) (e - j) = roundRank m e := by
  simp only [roundRank, target_scale hm, roundedAt_scale hm]

theorem roundRank_nonneg (m : Nat) (e : Int) : 0 ≤ roundRank m e := by
  have := le_target m e
  unfold roundRank
  omega

theorem roundRank_mono_mantissa {m m' : Nat} (hm : m ≠ 0) (h : m ≤ m') (e : Int) :
    roundRank m e ≤ roundRank m' e := by
  have ht : target m e ≤ target m' e := by
    have := log2_mono hm h
    unfold target; omega
  rcases Int.lt_or_eq_of_le ht with ht | ht
  · have h₁ := roundedAt_le m e
    have h₂ := le_roundedAt (m := m') (e := e) (by omega) (by have := le_target m e; omega)
    unfold roundRank
    omega
  · have : roundedAt m e ≤ roundedAt m' e := by
      unfold roundedAt
      rw [ht]
      exact rne_mono (Nat.mul_le_mul_right _ h) _
    unfold roundRank
    omega

theorem roundRank_mono {m m' : Nat} {e e' : Int} (hm : m ≠ 0)
    (h : (m : ℚ) * 2^e ≤ m' * 2^e') : roundRank m e ≤ roundRank m' e' := by
  -- compare both at the smaller exponent, where the values are natural numbers
  set K := min e e' with hK
  have hs := roundRank_scale hm e (e - K).toNat
  have hm' : m' ≠ 0 := by
    rintro rfl
    have : (0 : ℚ) < m * 2^e := by positivity
    simp at h; linarith
  have hs' := roundRank_scale hm' e' (e' - K).toNat
  have he : e - ((e - K).toNat : Int) = K := by omega
  have he' : e' - ((e' - K).toNat : Int) = K := by omega
  rw [he] at hs
  rw [he'] at hs'
  rw [← hs, ← hs']
  apply roundRank_mono_mantissa (Nat.mul_ne_zero hm (Nat.pos_iff_ne_zero.mp (Nat.two_pow_pos _)))
  have hp : (0 : ℚ) < 2^K := by positivity
  have hv (a : Nat) (d : Int) (hd : K ≤ d) : ((a * 2^(d - K).toNat : Nat) : ℚ) * 2^K = a * 2^d := by
    push_cast
    rw [mul_assoc, ← zpow_natCast, ← zpow_add₀ two_ne_zero]
    congr 2
    omega
  have key : ((m * 2^(e - K).toNat : Nat) : ℚ) ≤ ((m' * 2^(e' - K).toNat : Nat) : ℚ) :=
    le_of_mul_le_mul_right (by rw [hv m e (min_le_left _ _), hv m' e' (min_le_right _ _)]; exact h) hp
  exact_mod_cast key

@[simp] theorem pairVal_zero (n : Bool) (e : Int) : pairVal n 0 e = 0 := by
  cases n <;> simp [pairVal]

theorem pairVal_false_nonneg (m : Nat) (e : Int) : 0 ≤ pairVal false m e := by
  simp only [pairVal]; positivity

theorem pairVal_true_nonpos (m : Nat) (e : Int) : pairVal true m e ≤ 0 := by
  have : (0 : ℚ) ≤ m * 2^e := by positivity
  simp only [pairVal]; linarith

theorem pairVal_false_pos {m : Nat} (hm : m ≠ 0) (e : Int) : 0 < pairVal false m e := by
  have : (0 : ℚ) < m := by exact_mod_cast Nat.pos_of_ne_zero hm
  exact mul_pos this (zpow_pos two_pos e)

theorem pairVal_true_neg {m : Nat} (hm : m ≠ 0) (e : Int) : pairVal true m e < 0 := by
  have := pairVal_false_pos hm e
  simp only [pairVal] at this ⊢; linarith

theorem signedRank_mono {n n' : Bool} {m m' : Nat} {e e' : Int}
    (h : pairVal n m e ≤ pairVal n' m' e') : signedRank n m e ≤ signedRank n' m' e' := by
  have hr := roundRank_nonneg m e
  have hr' := roundRank_nonneg m' e'
  unfold signedRank
  by_cases hm : m = 0
  · rw [if_pos hm]
    split
    · exact le_refl _
    · rename_i hm'
      cases n'
      · simp only [Bool.false_eq_true, if_false]; omega
      · have := pairVal_true_neg hm' e'
        rw [hm, pairVal_zero] at h; linarith
  · by_cases hm' : m' = 0
    · rw [if_neg hm, if_pos hm']
      cases n
      · have := pairVal_false_pos hm e
        rw [hm', pairVal_zero] at h; linarith
      · simp only [if_true]; omega
    · rw [if_neg hm, if_neg hm']
      cases n <;> cases n'
      · simp only [Bool.false_eq_true, if_false]
        have : roundRank m e ≤ roundRank m' e' := roundRank_mono hm (by simpa [pairVal] using h)
        omega
      · have := pairVal_false_pos hm e
        have := pairVal_true_neg hm' e'
        linarith
      · simp only [Bool.false_eq_true, if_false, if_true]; omega
      · simp only [if_true]
        have : roundRank m' e' ≤ roundRank m e :=
          roundRank_mono hm' (by simp only [pairVal] at h; linarith)
        omega

theorem RoundsTo.mono {r r' : ℚ} {k k' : Int} (h : RoundsTo r k) (h' : RoundsTo r' k')
    (hr : r ≤ r') : k ≤ k' := by
  obtain ⟨n, m, e, rfl, rfl⟩ := h
  obtain ⟨n', m', e', rfl, rfl⟩ := h'
  exact signedRank_mono hr

theorem RoundsTo.unique {r : ℚ} {k k' : Int} (h : RoundsTo r k) (h' : RoundsTo r k') : k = k' :=
  le_antisymm (h.mono h' (le_refl r)) (h'.mono h (le_refl r))

theorem target_of_canon {m : Nat} {q : Int} (hm : m ≠ 0) (h : Canon m q) : target m q = q := by
  obtain ⟨hq, hlt, hlead⟩ := h
  have hl : m.log2 < 53 := (Nat.log2_lt hm).mpr hlt
  unfold target
  rcases hlead with hlead | rfl
  · have : 52 ≤ m.log2 := (Nat.le_log2 hm).mpr hlead
    omega
  · omega

theorem roundsTo_rank {n : Bool} {m : Nat} {q : Int} (h : (Binary.finite n m q).Canonical) :
    RoundsTo (toRat (.finite n m q)) (rank (.finite n m q)) := by
  obtain ⟨hc, hq⟩ := h
  refine ⟨n, m, q, rfl, ?_⟩
  unfold signedRank rank
  by_cases hm : m = 0
  · have : q = -1074 := by have := hc.2.2; omega
    subst hm this
    simp
  · have hr : roundRank m q = (q + 1074) * 2^52 + m := by
      simp [roundRank, roundedAt, target_of_canon hm hc]
    have : min (roundRank m q) (2047 * 2^52) = roundRank m q :=
      min_eq_left (by have := hc.2.1; omega)
    rw [if_neg hm, this, hr]

theorem val_le_of_lex {m m' : Nat} {q q' : Int} (h₁ : Canon m q) (h₂ : Canon m' q')
    (h : (q + 1074) * 2^52 + m ≤ (q' + 1074) * 2^52 + m') : (m : ℚ) * 2^q ≤ m' * 2^q' := by
  obtain ⟨hq, hlt, hlead⟩ := h₁
  obtain ⟨hq', hlt', hlead'⟩ := h₂
  rcases lt_trichotomy q q' with hqq | rfl | hqq
  · have hm' : (2 : ℚ)^52 ≤ m' := by
      have : 2^52 ≤ m' := by omega
      exact_mod_cast this
    calc (m : ℚ) * 2^q ≤ 2^53 * 2^q := by
          gcongr; exact_mod_cast hlt.le
      _ = 2^52 * 2^(q + 1) := by
          rw [zpow_add₀ two_ne_zero, zpow_one]; ring
      _ ≤ 2^52 * 2^q' := by
          gcongr
          · norm_num
          · omega
      _ ≤ m' * 2^q' := by gcongr
  · have : m ≤ m' := by omega
    gcongr
  · omega

/-- Among finite floats, a lower rank means a value no greater. -/
theorem toRat_le_of_rank_le {n n' : Bool} {m m' : Nat} {q q' : Int}
    (ha : (Binary.finite n m q).Canonical) (hb : (Binary.finite n' m' q').Canonical)
    (h : rank (.finite n m q) ≤ rank (.finite n' m' q')) :
    toRat (.finite n m q) ≤ toRat (.finite n' m' q') := by
  obtain ⟨hc, -⟩ := ha
  obtain ⟨hc', -⟩ := hb
  have hq := hc.1
  have hq' := hc'.1
  simp only [toRat]
  cases n <;> cases n' <;> simp only [rank, Bool.false_eq_true, if_false, if_true] at h
  · exact val_le_of_lex hc hc' h
  · have hm : m = 0 := by omega
    have hm' : m' = 0 := by omega
    simp [pairVal, hm, hm']
  · exact le_trans (pairVal_true_nonpos m q) (pairVal_false_nonneg m' q')
  · have := val_le_of_lex hc' hc (by omega)
    simp only [pairVal]; linarith

end GridIndex.Binary
