import GridIndex.Proofs.FloatError

/-!
# Floors and ceilings of floats

The roundings of a float to an integer are computed exactly from its mantissa and exponent
(`Binary.floorWithin` and its kin). Here they are shown to be the floor and the ceiling of the
float's value: `floorMag m q` is `⌊m · 2^q⌋` and `ceilMag m q` is `⌈m · 2^q⌉`, so that a finite
float `x` has `floorWithin lo hi x` equal to `⌊x⌋` clamped to `[lo, hi]`
(`floorWithin_of_isFinite`), and likewise for the ceiling. Along the float order the clamped floor
never decreases, infinities included (`floorWithin_mono`).

Negation flips the sign of a finite float and nothing else (`ofFloat_neg_finite`), and
integers of magnitude below `2^53` convert to floats exactly (`toRat_ofInt`).
-/

namespace GridIndex.Binary

open Float.Model (UnpackedFloat)
open Float.Model.UnpackedFloat

set_option autoImplicit false

/-! ## Floors and ceilings of magnitudes -/

theorem floorMag_eq_floor (m : Nat) (q : Int) : (floorMag m q : Int) = ⌊(m : ℚ) * 2^q⌋ := by
  unfold floorMag
  split
  · next hq =>
    obtain ⟨k, rfl⟩ := Int.eq_ofNat_of_zero_le hq
    rw [Nat.pow_eq, Int.toNat_natCast, zpow_natCast, ← Int.floor_natCast (R := ℚ) (m * 2^k)]
    push_cast
    rfl
  · next hq =>
    obtain ⟨k, rfl⟩ : ∃ k : Nat, q = -k := ⟨(-q).toNat, by omega⟩
    rw [Nat.pow_eq, show (-(-(k : Int))).toNat = k by omega, zpow_neg, zpow_natCast,
      ← div_eq_mul_inv, ← Nat.cast_ofNat, ← Nat.cast_pow, ← Nat.floor_div_eq_div (K := ℚ),
      Int.natCast_floor_eq_floor (by positivity)]
    push_cast
    rfl

theorem ceilMag_eq_ceil (m : Nat) (q : Int) : (ceilMag m q : Int) = ⌈(m : ℚ) * 2^q⌉ := by
  unfold ceilMag
  split
  · next hq =>
    obtain ⟨k, rfl⟩ := Int.eq_ofNat_of_zero_le hq
    rw [Nat.pow_eq, Int.toNat_natCast, zpow_natCast, ← Int.ceil_natCast (R := ℚ) (m * 2^k)]
    push_cast
    rfl
  · next hq =>
    obtain ⟨k, rfl⟩ : ∃ k : Nat, q = -k := ⟨(-q).toNat, by omega⟩
    rw [Nat.pow_eq, show (-(-(k : Int))).toNat = k by omega, zpow_neg, zpow_natCast,
      ← div_eq_mul_inv]
    have hp' : 0 < 2^k := Nat.two_pow_pos k
    have hd := Nat.div_add_mod (m + 2^k - 1) (2^k)
    have hr := Nat.mod_lt (m + 2^k - 1) hp'
    generalize hC : (m + 2^k - 1) / 2^k = C at hd
    have hlo : ((m : Nat) : ℚ) ≤ ((2^k * C : Nat) : ℚ) := by exact_mod_cast (by omega : m ≤ 2^k * C)
    have hhi : ((2^k * C : Nat) : ℚ) < ((m + 2^k : Nat) : ℚ) := by
      exact_mod_cast (by omega : 2^k * C < m + 2^k)
    push_cast at hlo hhi
    have hp : (0 : ℚ) < 2^k := by positivity
    symm
    rw [Int.ceil_eq_iff, div_le_iff₀ hp, lt_div_iff₀ hp]
    push_cast
    constructor <;> nlinarith

theorem floorOf_eq_floor (n : Bool) (m : Nat) (q : Int) : floorOf n m q = ⌊pairVal n m q⌋ := by
  cases n
  · simp only [floorOf, Bool.false_eq_true, if_false, pairVal]
    exact floorMag_eq_floor m q
  · simp only [floorOf, if_true, pairVal, Int.floor_neg, ceilMag_eq_ceil]

theorem ceilOf_eq_ceil (n : Bool) (m : Nat) (q : Int) : ceilOf n m q = ⌈pairVal n m q⌉ := by
  cases n
  · simp only [ceilOf, Bool.false_eq_true, if_false, pairVal]
    exact ceilMag_eq_ceil m q
  · simp only [ceilOf, if_true, pairVal, Int.ceil_neg, floorMag_eq_floor]

/-! ## Floors and ceilings of floats -/

theorem floorWithin_of_isFinite {x : Float} (hx : (ofFloat x).isFinite = true) (lo hi : Int) :
    floorWithin lo hi x = clampInt lo hi ⌊(ofFloat x).toRat⌋ := by
  obtain ⟨n, m, q, hxe⟩ := exists_of_isFinite hx
  simp only [floorWithin, hxe, toRat_finite, floorOf_eq_floor]

theorem ceilWithin_of_isFinite {x : Float} (hx : (ofFloat x).isFinite = true) (lo hi : Int) :
    ceilWithin lo hi x = clampInt lo hi ⌈(ofFloat x).toRat⌉ := by
  obtain ⟨n, m, q, hxe⟩ := exists_of_isFinite hx
  simp only [ceilWithin, hxe, toRat_finite, ceilOf_eq_ceil]

theorem rank_inf_false : (Binary.inf false).rank = infRank := rfl

theorem rank_inf_true : (Binary.inf true).rank = -infRank := rfl

theorem clampInt_mono {lo hi a b : Int} (h : a ≤ b) : clampInt lo hi a ≤ clampInt lo hi b := by
  unfold clampInt
  omega

theorem le_clampInt (lo hi a : Int) : lo ≤ clampInt lo hi a := by
  unfold clampInt
  omega

theorem clampInt_le {lo hi : Int} (h : lo ≤ hi) (a : Int) : clampInt lo hi a ≤ hi := by
  unfold clampInt
  omega

/-- The clamped floor never decreases along the float order: `-∞` goes to `lo`, `+∞` to `hi`,
and finite floats in order have their values in order. -/
theorem floorWithin_mono {lo hi : Int} (hlo : lo ≤ hi) {x y : Float} (h : x ≤ y) :
    floorWithin lo hi x ≤ floorWithin lo hi y := by
  obtain ⟨hx, hy, hr⟩ := (le_iff_rank x y).mp h
  cases hbx : ofFloat x with
  | nan => exact absurd hbx hx
  | inf k =>
    cases k
    · have hby : ofFloat y = .inf false := by
        cases hb : ofFloat y with
        | nan => exact absurd hb hy
        | inf k' => cases k' <;> simp_all [rank]
        | finite n m q =>
          have hc := rank_finite_bounds (hb ▸ canonical_ofFloat hy)
          rw [hbx, hb, rank_inf_false] at hr
          omega
      simp only [floorWithin, hbx, hby, Bool.false_eq_true, if_false, le_refl]
    · simp only [floorWithin, hbx, if_true]
      cases hb : ofFloat y with
      | nan => exact absurd hb hy
      | inf k' => cases k' <;> simp [hlo]
      | finite n m q => exact le_clampInt _ _ _
  | finite n m q =>
    cases hb : ofFloat y with
    | nan => exact absurd hb hy
    | inf k' =>
      cases k'
      · simp only [floorWithin, hbx, hb, Bool.false_eq_true, if_false]
        exact clampInt_le hlo _
      · have hc := rank_finite_bounds (hbx ▸ canonical_ofFloat hx)
        rw [hbx, hb, rank_inf_true] at hr
        omega
    | finite n' m' q' =>
      have hv := toRat_le_of_rank_le (hbx ▸ canonical_ofFloat hx) (hb ▸ canonical_ofFloat hy)
        (by rw [← hbx, ← hb]; exact hr)
      simp only [floorWithin, hbx, hb, floorOf_eq_floor]
      exact clampInt_mono (Int.floor_mono hv)

/-! ## Values that name one float -/

theorem toRat_eq_of_rank_eq {b b' : Binary} (hb : b.Canonical) (hb' : b'.Canonical)
    (hf : b.isFinite = true) (hf' : b'.isFinite = true) (h : b.rank = b'.rank) :
    b.toRat = b'.toRat := by
  by_cases h0 : b.rank = 0
  · rw [toRat_of_isZero (isZero_of_rank hb hf h0), toRat_of_isZero (isZero_of_rank hb' hf' (h ▸ h0))]
  · rw [eq_of_rank_eq hb hb' h h0]

/-- Between finite floats, the order is the order of their values. -/
theorem lt_iff_toRat {x y : Float} (hx : (ofFloat x).isFinite = true)
    (hy : (ofFloat y).isFinite = true) : x < y ↔ (ofFloat x).toRat < (ofFloat y).toRat := by
  have cx := canonical_ofFloat (ne_nan_of_isFinite hx)
  have cy := canonical_ofFloat (ne_nan_of_isFinite hy)
  obtain ⟨n, m, q, hxe⟩ := exists_of_isFinite hx
  obtain ⟨n', m', q', hye⟩ := exists_of_isFinite hy
  rw [lt_iff_rank]
  constructor
  · rintro ⟨-, -, hr⟩
    have hle := toRat_le_of_rank_le (hxe ▸ cx) (hye ▸ cy) (by rw [← hxe, ← hye]; exact hr.le)
    rw [← hxe, ← hye] at hle
    refine lt_of_le_of_ne hle fun heq => ?_
    have := (roundsTo_toRat hx).unique (heq ▸ roundsTo_toRat hy)
    omega
  · intro hlt
    refine ⟨ne_nan_of_isFinite hx, ne_nan_of_isFinite hy, lt_of_not_ge fun hr => ?_⟩
    have hle := toRat_le_of_rank_le (hye ▸ cy) (hxe ▸ cx) (by rw [← hxe, ← hye]; exact hr)
    rw [← hxe, ← hye] at hle
    exact absurd hlt (not_lt.mpr hle)

theorem exists_canonical_eq_nat {c : Nat} (hc : c < 2^53) :
    ∃ m q, (Binary.finite false m q).Canonical ∧ pairVal false m q = c := by
  rcases Nat.eq_zero_or_pos c with rfl | hpos
  · exact ⟨0, -1074, ⟨⟨le_refl _, by norm_num, Or.inr rfl⟩, by norm_num⟩, by simp [pairVal]⟩
  · have hL : c.log2 < 53 := (Nat.log2_lt (by omega)).mpr hc
    have hshift : 2^c.log2 * 2^(52 - c.log2) = 2^52 := by rw [← Nat.pow_add]; congr 1; omega
    refine ⟨c * 2^(52 - c.log2), (c.log2 : Int) - 52, ⟨⟨by omega, ?_, Or.inl ?_⟩, by omega⟩, ?_⟩
    · calc c * 2^(52 - c.log2) < 2^(c.log2 + 1) * 2^(52 - c.log2) :=
            Nat.mul_lt_mul_of_pos_right Nat.lt_log2_self (Nat.two_pow_pos _)
        _ = 2^53 := by rw [← Nat.pow_add]; congr 1; omega
    · rw [← hshift]
      exact Nat.mul_le_mul_right _ (Nat.log2_self_le (by omega))
    · have e : ((2 : ℚ)^(52 - c.log2 : Nat)) * 2^((c.log2 : Int) - 52) = 1 := by
        rw [← zpow_natCast, ← zpow_add₀ two_ne_zero, Nat.cast_sub (by omega)]
        simp
      simp only [pairVal]
      push_cast
      rw [mul_assoc, e, mul_one]

theorem toRat_ofNat {c : Nat} (hc : c < 2^53) :
    (ofFloat (Float.ofNat c)).isFinite = true ∧ (ofFloat (Float.ofNat c)).toRat = c := by
  obtain ⟨hf, hr⟩ := rank_ofNat hc
  obtain ⟨m, q, hcan, hval⟩ := exists_canonical_eq_nat hc
  refine ⟨hf, ?_⟩
  have h₁ : RoundsTo (c : ℚ) (ofFloat (Float.ofNat c)).rank := hr ▸ ⟨false, c, 0, by simp [pairVal], rfl⟩
  have h₂ : RoundsTo (c : ℚ) (Binary.finite false m q).rank := by
    have := roundsTo_rank hcan
    rwa [toRat_finite, hval] at this
  have hk := h₁.unique h₂
  rw [toRat_eq_of_rank_eq (canonical_ofFloat (ne_nan_of_isFinite hf)) hcan hf rfl hk, toRat_finite,
    hval]

theorem ofFloat_neg_finite {x : Float} {n : Bool} {m : Nat} {q : Int}
    (h : ofFloat x = .finite n m q) : ofFloat (-x) = .finite (!n) m q := by
  have hc := canon_of_ofFloat h
  change ofFloat (Float.ofModel (Float.Model.pack x.toModel.unpack.neg)) = _
  rw [ofFloat_eq] at h
  rcases ofUnpacked_eq_finite h with ⟨s, hu, hs, rfl, rfl⟩ | ⟨s, hm, hu, hs⟩ <;> rw [hu]
  · rw [show UnpackedFloat.neg (.zero s) = .zero (-s) from rfl, ofFloat_pack_zero, ← hs]
    cases s <;> rfl
  · rw [show UnpackedFloat.neg (.finite s m q hm) = .finite (-s) m q hm from rfl]
    refine ofFloat_pack_canonical ?_ (by simpa using (show (Binary.finite (!n) m q).Canonical from hc))
    rw [← hs]
    cases s <;> rfl

theorem toRat_ofInt {c : Int} (hc : c.natAbs < 2^53) :
    (ofFloat (Float.ofInt c)).isFinite = true ∧ (ofFloat (Float.ofInt c)).toRat = c := by
  cases c with
  | ofNat n =>
    obtain ⟨hf, hv⟩ := toRat_ofNat (c := n) (by simpa using hc)
    change (ofFloat (Float.ofNat n)).isFinite = true ∧ (ofFloat (Float.ofNat n)).toRat = (n : Int)
    exact ⟨hf, by rw [hv]; push_cast; rfl⟩
  | negSucc n =>
    have hn : n + 1 < 2^53 := by simpa [Int.natAbs_negSucc] using hc
    obtain ⟨hf, hv⟩ := toRat_ofNat hn
    obtain ⟨k, m, q, hxe⟩ := exists_of_isFinite hf
    have hneg := ofFloat_neg_finite hxe
    change (ofFloat (-Float.ofNat (n + 1))).isFinite = true ∧
      (ofFloat (-Float.ofNat (n + 1))).toRat = Int.negSucc n
    rw [hneg]
    rw [hxe, toRat_finite] at hv
    refine ⟨rfl, ?_⟩
    rw [toRat_finite, pairVal_not, hv, Int.negSucc_eq]
    push_cast
    ring

end GridIndex.Binary
