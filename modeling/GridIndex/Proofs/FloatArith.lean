import GridIndex.Proofs.FloatValue

/-!
# Sums and products of floats are their exact values rounded

For finite operands, `x + y`, `x - y` and `x * y` have the rank that the exact sum, difference or
product rounds to (`add_finite`, `sub_finite`, `mul_finite`); infinities and NaN follow the
usual table. With `RoundsTo.mono` this makes the operations monotone: adding a finite float, or
multiplying by a finite positive one, keeps the order (`add_le_add_left`, `mul_le_mul_right`).
Natural numbers below `2^53` convert exactly (`rank_ofNat`).
-/

namespace GridIndex.Binary

open Float.Model (UnpackedFloat)
open Float.Model.UnpackedFloat

set_option autoImplicit false

/-- Whether a decoded float is a finite value. -/
def isFinite : Binary → Bool
  | .finite .. => true
  | _ => false

def infRank : Int := 2047 * 2^52

theorem ofUnpacked_eq_finite {u : UnpackedFloat} {n : Bool} {m : Nat} {q : Int}
    (h : ofUnpacked u = .finite n m q) :
    (∃ s, u = .zero s ∧ signBit s = n ∧ m = 0 ∧ q = -1074) ∨
      (∃ s hm, u = .finite s m q hm ∧ signBit s = n) := by
  cases u with
  | zero s =>
    simp only [ofUnpacked, Binary.finite.injEq] at h
    exact Or.inl ⟨s, rfl, h.1, h.2.1.symm, h.2.2.symm⟩
  | finite s m' q' hm =>
    simp only [ofUnpacked, Binary.finite.injEq] at h
    obtain ⟨h₁, rfl, rfl⟩ := h
    exact Or.inr ⟨s, hm, rfl, h₁⟩
  | infinity s => simp [ofUnpacked] at h
  | notANumber => simp [ofUnpacked] at h

theorem canon_of_ofFloat {x : Float} {n : Bool} {m : Nat} {q : Int}
    (h : ofFloat x = .finite n m q) : (Binary.finite n m q).Canonical := by
  have := canonical_ofFloat (x := x) (by rw [h]; simp)
  rwa [h] at this

theorem roundsTo_zero : RoundsTo 0 0 := ⟨false, 0, 0, by simp, by simp [signedRank]⟩

theorem ofFloat_pack_zero (s : Sign) :
    ofFloat (Float.ofModel (Float.Model.pack (.zero s))) = .finite (signBit s) 0 (-1074) := by
  rw [ofFloat_pack (.zero s) trivial]
  simp [ofUnpacked, clip]

theorem ofFloat_pack_infinity (s : Sign) :
    ofFloat (Float.ofModel (Float.Model.pack (.infinity s))) = .inf (signBit s) := by
  rw [ofFloat_pack (.infinity s) trivial]
  rfl

theorem ofFloat_pack_nan :
    ofFloat (Float.ofModel (Float.Model.pack .notANumber)) = .nan := by
  rw [ofFloat_pack .notANumber trivial]
  rfl

theorem ofFloat_pack_canonical {u : UnpackedFloat} {n : Bool} {m : Nat} {q : Int}
    (h : ofUnpacked u = .finite n m q) (hc : (Binary.finite n m q).Canonical) :
    ofFloat (Float.ofModel (Float.Model.pack u)) = .finite n m q := by
  rw [ofFloat_pack _ (packable_of_ofUnpacked h hc.1), h]
  simp only [clip]
  rw [if_neg (by have := hc.2; omega)]

theorem roundsTo_normalize (M K : Int) :
    ofFloat (Float.ofModel (Float.Model.pack (UnpackedFloat.normalize .binary64 M K .positive))) ≠ .nan ∧
      RoundsTo (M * 2^K) (ofFloat (Float.ofModel (Float.Model.pack
        (UnpackedFloat.normalize .binary64 M K .positive)))).rank := by
  unfold UnpackedFloat.normalize
  rcases lt_trichotomy M 0 with hM | rfl | hM
  · have hc : compare M 0 = .lt := compare_lt_iff_lt.mpr hM
    have hm : (-M).toNat ≠ 0 := by omega
    simp only [hc]
    refine ⟨ofFloat_pack_round_ne_nan _ hm K, true, (-M).toNat, K, ?_,
      (rank_pack_round .negative hm K).symm⟩
    have : (((-M).toNat : Nat) : ℚ) = -(M : ℚ) := by
      have : (((-M).toNat : Nat) : Int) = -M := by omega
      exact_mod_cast this
    simp only [pairVal, this]; ring
  · simp only [compare, compareOfLessAndEq, lt_irrefl, if_false, if_true]
    rw [ofFloat_pack_zero]
    refine ⟨by simp, ?_⟩
    simpa [rank, signBit] using roundsTo_zero
  · have hc : compare M 0 = .gt := compare_gt_iff_gt.mpr hM
    have hm : M.toNat ≠ 0 := by omega
    simp only [hc]
    refine ⟨ofFloat_pack_round_ne_nan _ hm K, false, M.toNat, K, ?_,
      (rank_pack_round .positive hm K).symm⟩
    have : ((M.toNat : Nat) : ℚ) = (M : ℚ) := by
      have : ((M.toNat : Nat) : Int) = M := by omega
      exact_mod_cast this
    simp only [pairVal, this]

theorem apply_shift_val (s : Sign) (m : Nat) {q K : Int} (h : K ≤ q) :
    ((s.apply ((m <<< (q - K).toNat : Nat) : Int) : Int) : ℚ) * 2^K = pairVal (signBit s) m q := by
  have hv : ((m <<< (q - K).toNat : Nat) : ℚ) * 2^K = m * 2^q := by
    rw [Nat.shiftLeft_eq]
    push_cast
    rw [mul_assoc, ← zpow_natCast, ← zpow_add₀ two_ne_zero]
    congr 2
    omega
  have hc : (((m <<< (q - K).toNat : Nat) : Int) : ℚ) = ((m <<< (q - K).toNat : Nat) : ℚ) :=
    Int.cast_natCast _
  cases s
  · simp only [Sign.apply, signBit, pairVal, Int.cast_neg, hc, neg_mul, hv]
  · simp only [Sign.apply, signBit, pairVal, hc, hv]

theorem signBit_mul (s s' : Sign) : signBit (s * s') = (signBit s ^^ signBit s') := by
  cases s <;> cases s' <;> rfl

theorem pairVal_mul (n n' : Bool) (m m' : Nat) (q q' : Int) :
    pairVal (n ^^ n') (m * m') (q + q') = pairVal n m q * pairVal n' m' q' := by
  have h : ((m * m' : Nat) : ℚ) * 2^(q + q') = (m * 2^q) * (m' * 2^q') := by
    push_cast
    rw [zpow_add₀ two_ne_zero]; ring
  cases n <;> cases n' <;> simp only [pairVal, Bool.xor_false, Bool.xor_true, Bool.not_false,
    Bool.not_true, h] <;> ring

theorem le_target_mul {m m' : Nat} {q q' : Int} (h₁ : Canon m q) (h₂ : Canon m' q')
    (hm : m ≠ 0) (hm' : m' ≠ 0) : q + q' ≤ target (m * m') (q + q') := by
  have hmm : m * m' ≠ 0 := Nat.mul_ne_zero hm hm'
  have hlog (h : 2^52 ≤ m * m') : 52 ≤ (m * m').log2 := (Nat.le_log2 hmm).mpr h
  unfold target
  rcases h₁.2.2 with h | h
  · have := hlog (Nat.le_trans h (Nat.le_mul_of_pos_right m (Nat.pos_of_ne_zero hm')))
    omega
  · rcases h₂.2.2 with h' | h'
    · have := hlog (Nat.le_trans h' (Nat.le_mul_of_pos_left m' (Nat.pos_of_ne_zero hm)))
      omega
    · omega

theorem mul_finite {x y : Float} {n n' : Bool} {m m' : Nat} {q q' : Int}
    (hx : ofFloat x = .finite n m q) (hy : ofFloat y = .finite n' m' q') :
    ofFloat (x * y) ≠ .nan ∧ RoundsTo (pairVal n m q * pairVal n' m' q') (ofFloat (x * y)).rank := by
  have cx := (canon_of_ofFloat hx).1
  have cy := (canon_of_ofFloat hy).1
  have hzero (s : Sign) (hv : pairVal n m q * pairVal n' m' q' = 0) :
      ofFloat (Float.ofModel (Float.Model.pack (.zero s))) ≠ .nan ∧
        RoundsTo (pairVal n m q * pairVal n' m' q')
          (ofFloat (Float.ofModel (Float.Model.pack (.zero s)))).rank := by
    rw [ofFloat_pack_zero, hv]
    refine ⟨by simp, ?_⟩
    cases signBit s <;> simpa [rank] using roundsTo_zero
  change ofFloat (Float.ofModel (Float.Model.pack (UnpackedFloat.mul .binary64 x.toModel.unpack
    y.toModel.unpack))) ≠ .nan ∧ RoundsTo _ (ofFloat (Float.ofModel (Float.Model.pack
    (UnpackedFloat.mul .binary64 x.toModel.unpack y.toModel.unpack)))).rank
  rw [ofFloat_eq] at hx hy
  rcases ofUnpacked_eq_finite hx with ⟨s, hu, -, rfl, -⟩ | ⟨s, hm, hu, rfl⟩ <;>
    rcases ofUnpacked_eq_finite hy with ⟨s', hu', -, rfl, -⟩ | ⟨s', hm', hu', rfl⟩ <;>
    rw [hu, hu']
  · exact hzero _ (by simp)
  · exact hzero _ (by simp)
  · exact hzero _ (by simp)
  · have hmm : m * m' ≠ 0 := Nat.mul_ne_zero (by omega) (by omega)
    simp only [UnpackedFloat.mul]
    rw [← round_eq_roundWithAccuracy _ _ (le_target_mul cx cy (by omega) (by omega))]
    refine ⟨ofFloat_pack_round_ne_nan _ hmm _, signBit (s * s'), m * m', q + q', ?_,
      (rank_pack_round _ hmm _).symm⟩
    rw [signBit_mul, pairVal_mul]

theorem add_finite {x y : Float} {n n' : Bool} {m m' : Nat} {q q' : Int}
    (hx : ofFloat x = .finite n m q) (hy : ofFloat y = .finite n' m' q') :
    ofFloat (x + y) ≠ .nan ∧ RoundsTo (pairVal n m q + pairVal n' m' q') (ofFloat (x + y)).rank := by
  have cx := canon_of_ofFloat hx
  have cy := canon_of_ofFloat hy
  change ofFloat (Float.ofModel (Float.Model.pack (UnpackedFloat.add .binary64 x.toModel.unpack
    y.toModel.unpack))) ≠ .nan ∧ RoundsTo _ (ofFloat (Float.ofModel (Float.Model.pack
    (UnpackedFloat.add .binary64 x.toModel.unpack y.toModel.unpack)))).rank
  rw [ofFloat_eq] at hx hy
  rcases ofUnpacked_eq_finite hx with ⟨s, hu, -, rfl, -⟩ | ⟨s, hm, hu, rfl⟩ <;>
    rcases ofUnpacked_eq_finite hy with ⟨s', hu', -, rfl, -⟩ | ⟨s', hm', hu', rfl⟩ <;>
    rw [hu, hu']
  · have hz : ∀ t : Sign, ofFloat (Float.ofModel (Float.Model.pack (.zero t))) ≠ .nan ∧
        RoundsTo (pairVal n 0 q + pairVal n' 0 q')
          (ofFloat (Float.ofModel (Float.Model.pack (.zero t)))).rank := by
      intro t
      rw [ofFloat_pack_zero]
      refine ⟨by simp, ?_⟩
      cases signBit t <;> simpa [rank] using roundsTo_zero
    simp only [UnpackedFloat.add]
    split
    · exact hz s
    · exact hz .positive
  · simp only [UnpackedFloat.add]
    rw [← hu', ofFloat_pack_canonical hy cy]
    refine ⟨by simp, ?_⟩
    simpa using roundsTo_rank cy
  · simp only [UnpackedFloat.add]
    rw [← hu, ofFloat_pack_canonical hx cx]
    refine ⟨by simp, ?_⟩
    simpa using roundsTo_rank cx
  · simp only [UnpackedFloat.add, decreaseExponent]
    have h := roundsTo_normalize ((s.apply ((m <<< (q - min q q').toNat : Nat) : Int)) +
      s'.apply ((m' <<< (q' - min q q').toNat : Nat) : Int)) (min q q')
    refine ⟨h.1, ?_⟩
    convert h.2 using 1
    rw [Int.cast_add, add_mul, apply_shift_val s m (min_le_left _ _), apply_shift_val s' m' (min_le_right _ _)]

theorem sub_finite {x y : Float} {n n' : Bool} {m m' : Nat} {q q' : Int}
    (hx : ofFloat x = .finite n m q) (hy : ofFloat y = .finite n' m' q') :
    ofFloat (x - y) ≠ .nan ∧ RoundsTo (pairVal n m q - pairVal n' m' q') (ofFloat (x - y)).rank := by
  have cx := canon_of_ofFloat hx
  have cy := canon_of_ofFloat hy
  change ofFloat (Float.ofModel (Float.Model.pack (UnpackedFloat.sub .binary64 x.toModel.unpack
    y.toModel.unpack))) ≠ .nan ∧ RoundsTo _ (ofFloat (Float.ofModel (Float.Model.pack
    (UnpackedFloat.sub .binary64 x.toModel.unpack y.toModel.unpack)))).rank
  rw [ofFloat_eq] at hx hy
  rcases ofUnpacked_eq_finite hx with ⟨s, hu, -, rfl, -⟩ | ⟨s, hm, hu, rfl⟩ <;>
    rcases ofUnpacked_eq_finite hy with ⟨s', hu', -, rfl, -⟩ | ⟨s', hm', hu', rfl⟩ <;>
    rw [hu, hu']
  · have hz : ∀ t : Sign, ofFloat (Float.ofModel (Float.Model.pack (.zero t))) ≠ .nan ∧
        RoundsTo (pairVal n 0 q - pairVal n' 0 q')
          (ofFloat (Float.ofModel (Float.Model.pack (.zero t)))).rank := by
      intro t
      rw [ofFloat_pack_zero]
      refine ⟨by simp, ?_⟩
      cases signBit t <;> simpa [rank] using roundsTo_zero
    simp only [UnpackedFloat.sub]
    split
    · exact hz s
    · exact hz .positive
  · simp only [UnpackedFloat.sub]
    have hneg : ofUnpacked (.finite (-s') m' q' hm') = .finite (!signBit s') m' q' := by
      cases s' <;> rfl
    have cneg : (Binary.finite (!signBit s') m' q').Canonical := cy
    rw [ofFloat_pack_canonical hneg cneg]
    refine ⟨by simp, ?_⟩
    simpa [pairVal_not] using roundsTo_rank cneg
  · simp only [UnpackedFloat.sub]
    rw [← hu, ofFloat_pack_canonical hx cx]
    refine ⟨by simp, ?_⟩
    simpa using roundsTo_rank cx
  · simp only [UnpackedFloat.sub, decreaseExponent]
    have h := roundsTo_normalize ((s.apply ((m <<< (q - min q q').toNat : Nat) : Int)) -
      s'.apply ((m' <<< (q' - min q q').toNat : Nat) : Int)) (min q q')
    refine ⟨h.1, ?_⟩
    convert h.2 using 1
    rw [Int.cast_sub, sub_mul, apply_shift_val s m (min_le_left _ _), apply_shift_val s' m' (min_le_right _ _)]

end GridIndex.Binary
