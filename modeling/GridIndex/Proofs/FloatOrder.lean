import GridIndex.Binary
import Mathlib

/-!
# The order of floats, read off their bits

A float that is not NaN has a rank: its position among all such floats, with both zeros at `0`.
The rank of `± m · 2^q` is `±((q + 1074) · 2^52 + m)`, which for a finite float is the integer
its bits stand for once the sign is split off. Comparisons of floats are comparisons of ranks,
so the order facts the grid relies on become facts about integers.
-/

namespace GridIndex.Binary

open Float.Model (UnpackedFloat)
open Float.Model.UnpackedFloat (Sign)

set_option autoImplicit false

def signBit : Sign → Bool
  | .negative => true
  | .positive => false

/-- The float an unpacked model value stands for, with the exponent of a zero made minimal. -/
def ofUnpacked : UnpackedFloat → Binary
  | .notANumber => .nan
  | .infinity s => .inf (signBit s)
  | .zero s => .finite (signBit s) 0 (-1074)
  | .finite s m e _ => .finite (signBit s) m e

theorem signBit_ofBitVec (v : BitVec 1) : signBit (Sign.ofBitVec v) = (v.toNat == 1) := by
  rcases v with ⟨⟨n, hn⟩⟩
  have : n = 0 ∨ n = 1 := by omega
  rcases this with rfl | rfl <;> rfl

theorem ofFloat_eq (x : Float) : ofFloat x = ofUnpacked x.toModel.unpack := by
  have hb : x.toBits.toNat = x.toModel.toBits.toBitVec.toNat := rfl
  have hm : (@UnpackedFloat.unpackMantissa .binary64 x.toModel.toBits.toBitVec).toNat =
      x.toBits.toNat % 2^52 := by
    simp [UnpackedFloat.unpackMantissa, hb, Nat.shiftRight_eq_div_pow]
  have he : (@UnpackedFloat.unpackExponent .binary64 x.toModel.toBits.toBitVec).toNat =
      x.toBits.toNat / 2^52 % 2^11 := by
    simp [UnpackedFloat.unpackExponent, hb, Nat.shiftRight_eq_div_pow]
  have hs : signBit (Sign.ofBitVec (@UnpackedFloat.unpackSign .binary64
      x.toModel.toBits.toBitVec)) = (x.toBits.toNat / 2^63 % 2 == 1) := by
    rw [signBit_ofBitVec]
    simp [UnpackedFloat.unpackSign, hb, Nat.shiftRight_eq_div_pow]
  have c₁ : @UnpackedFloat.unpackExponent .binary64 x.toModel.toBits.toBitVec = -1#11 ↔
      x.toBits.toNat / 2^52 % 2^11 = 2047 := by
    rw [← BitVec.toNat_inj, he]; simp
  have c₂ : @UnpackedFloat.unpackExponent .binary64 x.toModel.toBits.toBitVec = 0#11 ↔
      x.toBits.toNat / 2^52 % 2^11 = 0 := by
    rw [← BitVec.toNat_inj, he]; simp
  have c₃ : @UnpackedFloat.unpackMantissa .binary64 x.toModel.toBits.toBitVec = 0#52 ↔
      x.toBits.toNat % 2^52 = 0 := by
    rw [← BitVec.toNat_inj, hm]; simp
  unfold ofFloat
  simp only [Nat.pow_eq, Float.Model.unpack, UnpackedFloat.unpack]
  by_cases h₁ : x.toBits.toNat / 2^52 % 2^11 = 2047
  · rw [if_pos h₁, if_pos (c₁.mpr h₁)]
    by_cases h₂ : x.toBits.toNat % 2^52 = 0
    · rw [if_pos h₂, if_pos (c₃.mpr h₂)]
      simp [ofUnpacked, hs]
    · rw [if_neg h₂, if_neg (mt c₃.mp h₂)]
      rfl
  · rw [if_neg h₁, if_neg (mt c₁.mp h₁)]
    by_cases h₃ : x.toBits.toNat / 2^52 % 2^11 = 0
    · rw [if_pos h₃, if_pos (c₂.mpr h₃)]
      by_cases h₂ : x.toBits.toNat % 2^52 = 0
      · rw [dif_pos (c₃.mpr h₂), h₂]
        simp [ofUnpacked, hs]
      · rw [dif_neg (mt c₃.mp h₂)]
        simp only [ofUnpacked, hs, hm, he, h₃, Float.Model.Format.exponentBias]
        rfl
    · rw [if_neg h₃, if_neg (mt c₂.mp h₃)]
      have hM : (1#1 ++ @UnpackedFloat.unpackMantissa .binary64
          x.toModel.toBits.toBitVec).toNat = 2^52 + x.toBits.toNat % 2^52 := by
        rw [BitVec.toNat_append,
          ← Nat.shiftLeft_add_eq_or_of_lt (by rw [hm]; exact Nat.mod_lt _ (by decide)), hm]
        simp
      simp only [ofUnpacked, hs, hM, he, Float.Model.Format.exponentBias]
      rfl

theorem ofUnpacked_eq_nan {u : UnpackedFloat} : ofUnpacked u = .nan ↔ u = .notANumber := by
  cases u <;> simp [ofUnpacked]

/-- Mantissa and exponent as rounding leaves them: the exponent is not below the least one, and
the mantissa has its leading bit unless the exponent is the least. -/
def Canon (m : Nat) (q : Int) : Prop :=
  -1074 ≤ q ∧ m < 2^53 ∧ (2^52 ≤ m ∨ q = -1074)

/-- What the bits of a float that is not NaN can stand for. -/
def Canonical : Binary → Prop
  | .nan => False
  | .inf _ => True
  | .finite _ m q => Canon m q ∧ q ≤ 971

theorem canonical_ofFloat {x : Float} (h : ofFloat x ≠ .nan) : (ofFloat x).Canonical := by
  have hb := x.toBits.toNat_lt
  revert h
  unfold ofFloat
  dsimp only [Nat.pow_eq]
  split
  · split
    · intro; trivial
    · intro h; exact absurd rfl h
  · intro _
    split
    · have := Nat.mod_lt x.toBits.toNat (show 0 < 2^52 by decide)
      exact ⟨⟨le_refl _, by omega, Or.inr rfl⟩, by omega⟩
    · have := Nat.mod_lt x.toBits.toNat (show 0 < 2^52 by decide)
      have := Nat.mod_lt (x.toBits.toNat / 2^52) (show 0 < 2^11 by decide)
      exact ⟨⟨by omega, by omega, Or.inl (by omega)⟩, by omega⟩

/-- The place of a float that is not NaN among all such floats; both zeros have rank `0`. -/
def rank : Binary → Int
  | .nan => 0
  | .inf n => if n then -(2047 * 2^52) else 2047 * 2^52
  | .finite n m q => if n then -((q + 1074) * 2^52 + m) else (q + 1074) * 2^52 + m

theorem compare_eq_of {o : Ordering} {a b : Int} (h₁ : a < b → o = .lt) (h₂ : a = b → o = .eq)
    (h₃ : b < a → o = .gt) : o = compare a b := by
  rcases lt_trichotomy a b with h | h | h
  · rw [h₁ h, compare_lt_iff_lt.mpr h]
  · rw [h₂ h, compare_eq_iff_eq.mpr h]
  · rw [h₃ h, compare_gt_iff_gt.mpr h]

theorem compare_neg_neg (a b : Int) : compare (-a) (-b) = (compare a b).swap := by
  apply (compare_eq_of _ _ _).symm <;> intro h
  · rw [compare_gt_iff_gt.mpr (by omega)]; rfl
  · rw [compare_eq_iff_eq.mpr (by omega)]; rfl
  · rw [compare_lt_iff_lt.mpr (by omega)]; rfl

theorem lex_eq_compare {m₁ m₂ : Nat} {q₁ q₂ : Int} (h₁ : Canon m₁ q₁) (h₂ : Canon m₂ q₂) :
    (compare q₁ q₂).then (compare m₁ m₂) =
      compare ((q₁ + 1074) * 2^52 + m₁) ((q₂ + 1074) * 2^52 + m₂) := by
  obtain ⟨a₁, c₁, d₁⟩ := h₁
  obtain ⟨a₂, c₂, d₂⟩ := h₂
  rcases lt_trichotomy q₁ q₂ with hq | rfl | hq
  · have : (q₁ + 1074) * 2^52 + m₁ < (q₂ + 1074) * 2^52 + m₂ := by omega
    rw [compare_lt_iff_lt.mpr hq, compare_lt_iff_lt.mpr this]
    rfl
  · rw [compare_eq_iff_eq.mpr rfl, Ordering.eq_then]
    apply compare_eq_of <;> intro h
    · exact compare_lt_iff_lt.mpr (by omega)
    · exact compare_eq_iff_eq.mpr (by omega)
    · exact compare_gt_iff_gt.mpr (by omega)
  · have : (q₂ + 1074) * 2^52 + m₂ < (q₁ + 1074) * 2^52 + m₁ := by omega
    rw [compare_gt_iff_gt.mpr hq, compare_gt_iff_gt.mpr this]
    rfl

theorem compare_unpacked (u v : UnpackedFloat) (hu : (ofUnpacked u).Canonical)
    (hv : (ofUnpacked v).Canonical) :
    u.compare v = some (compare (ofUnpacked u).rank (ofUnpacked v).rank) := by
  cases u with
  | notANumber => exact hu.elim
  | infinity s =>
    cases v with
    | notANumber => exact hv.elim
    | infinity t => cases s <;> cases t <;> rfl
    | zero t => cases s <;> cases t <;> rfl
    | finite t m e hm =>
      obtain ⟨⟨a, c, -⟩, b⟩ := hv
      symm
      cases s <;> cases t <;>
        simp [UnpackedFloat.compare, ofUnpacked, rank, signBit, compare_gt_iff_gt,
          compare_lt_iff_lt] <;> omega
  | zero s =>
    cases v with
    | notANumber => exact hv.elim
    | infinity t => cases s <;> cases t <;> rfl
    | zero t => cases s <;> cases t <;> rfl
    | finite t m e hm =>
      obtain ⟨⟨a, c, -⟩, b⟩ := hv
      symm
      cases s <;> cases t <;>
        simp [UnpackedFloat.compare, ofUnpacked, rank, signBit, compare_gt_iff_gt,
          compare_lt_iff_lt] <;> omega
  | finite s m e hm =>
    cases v with
    | notANumber => exact hv.elim
    | infinity t =>
      obtain ⟨⟨a, c, -⟩, b⟩ := hu
      symm
      cases s <;> cases t <;>
        simp [UnpackedFloat.compare, ofUnpacked, rank, signBit, compare_gt_iff_gt,
          compare_lt_iff_lt] <;> omega
    | zero t =>
      obtain ⟨⟨a, c, -⟩, b⟩ := hu
      symm
      cases s <;> cases t <;>
        simp [UnpackedFloat.compare, ofUnpacked, rank, signBit, compare_gt_iff_gt,
          compare_lt_iff_lt] <;> omega
    | finite t n f hn =>
      -- same signs compare lexicographically, opposite signs by sign alone
      cases s <;> cases t
      · simp only [UnpackedFloat.compare, ofUnpacked, rank, signBit, ↓reduceIte]
        rw [compare_neg_neg, lex_eq_compare hu.1 hv.1]
      · symm
        obtain ⟨⟨a, c, -⟩, b⟩ := hu
        obtain ⟨⟨a', c', -⟩, b'⟩ := hv
        simp [UnpackedFloat.compare, ofUnpacked, rank, signBit, compare_lt_iff_lt]
        omega
      · symm
        obtain ⟨⟨a, c, -⟩, b⟩ := hu
        obtain ⟨⟨a', c', -⟩, b'⟩ := hv
        simp [UnpackedFloat.compare, ofUnpacked, rank, signBit, compare_gt_iff_gt]
        omega
      · simp only [UnpackedFloat.compare, ofUnpacked, rank, signBit, Bool.false_eq_true,
          ↓reduceIte]
        rw [lex_eq_compare hu.1 hv.1]

theorem compare_toModel (x y : Float) :
    x.toModel.unpack.compare y.toModel.unpack =
      if ofFloat x = .nan ∨ ofFloat y = .nan then none
      else some (compare (ofFloat x).rank (ofFloat y).rank) := by
  rw [ofFloat_eq, ofFloat_eq]
  split
  · rename_i h
    rcases h with h | h <;> rw [ofUnpacked_eq_nan] at h
    · rw [h]; rfl
    · rw [h]; cases x.toModel.unpack <;> rfl
  · rename_i h
    rw [not_or, ← ofFloat_eq, ← ofFloat_eq] at h
    have hx := canonical_ofFloat h.1
    have hy := canonical_ofFloat h.2
    rw [ofFloat_eq] at hx hy
    exact compare_unpacked _ _ hx hy

theorem lt_iff_rank (x y : Float) :
    x < y ↔ ofFloat x ≠ .nan ∧ ofFloat y ≠ .nan ∧ (ofFloat x).rank < (ofFloat y).rank := by
  have : x < y ↔ x.toModel.unpack.lt y.toModel.unpack = true := by
    show decide (x.toModel < y.toModel) = true ↔ _
    rw [decide_eq_true_iff]
    rfl
  rw [this]
  simp only [UnpackedFloat.lt, compare_toModel]
  split
  · rename_i h
    simp only [beq_iff_eq, reduceCtorEq, false_iff]
    tauto
  · rename_i h
    rw [not_or] at h
    simp [h, compare_lt_iff_lt]

theorem le_iff_rank (x y : Float) :
    x ≤ y ↔ ofFloat x ≠ .nan ∧ ofFloat y ≠ .nan ∧ (ofFloat x).rank ≤ (ofFloat y).rank := by
  have : x ≤ y ↔ (x.toModel.unpack.compare y.toModel.unpack).any (·.isLE) = true := by
    show decide (x.toModel ≤ y.toModel) = true ↔ _
    rw [decide_eq_true_iff]
    rfl
  rw [this]
  rw [compare_toModel]
  split
  · rename_i h
    simp only [Option.any_none, Bool.false_eq_true, false_iff]
    tauto
  · rename_i h
    rw [not_or] at h
    simp [h, Ordering.isLE_iff_ne_gt, compare_gt_iff_gt]

theorem beq_iff_rank (x y : Float) :
    (x == y) = true ↔ ofFloat x ≠ .nan ∧ ofFloat y ≠ .nan ∧ (ofFloat x).rank = (ofFloat y).rank := by
  change (x.toModel.unpack.compare y.toModel.unpack == some .eq) = true ↔ _
  rw [compare_toModel]
  split
  · rename_i h
    simp only [beq_iff_eq, reduceCtorEq, false_iff]
    tauto
  · rename_i h
    rw [not_or] at h
    simp [h]

end GridIndex.Binary
