import GridIndex.Proofs.FloatFloor

/-!
# Quotients are correctly rounded, so division is monotone

A quotient is rarely a dyadic, so "the float it rounds to" is stated by bracketing: rank `k`
brackets a rational `r` when every dyadic at most `r` rounds to at most `k` and every dyadic at
least `r` rounds to at least `k` (`Brackets`). The rounding of a dyadic brackets it
(`RoundsTo.brackets`), and two brackets of values in order are in order (`Brackets.mono`), since
a dyadic lies between any two rationals.

The model rounds a quotient through the dyadic `(4Q + c) · 2^(E-2)`, where `Q` is the quotient at
exponent `E` and `c` tells where the remainder lies against half the divisor. When `c` is even
that dyadic is the quotient itself. When it is odd, the quotient and the dyadic lie strictly
inside one half step `(K · 2^(E-1), (K+1) · 2^(E-1))`, and rounding at an exponent of at least
`E` is the same for every value strictly inside such a half step (`rne_eq_of_between`,
`roundRank_eq_of_between`): no midpoint and no representable value lies there. Either way the
result brackets the exact quotient (`brackets_div`), and division by a positive float is
monotone (`div_le_div_of_le`).
-/

namespace GridIndex.Binary

open Float.Model (UnpackedFloat)
open Float.Model.UnpackedFloat

set_option autoImplicit false

/-- Rank `k` brackets `r`: dyadics at most `r` round to at most `k`, and dyadics at least `r` to at
least `k`. -/
def Brackets (r : ℚ) (k : Int) : Prop :=
  ∀ z j, RoundsTo z j → (z ≤ r → j ≤ k) ∧ (r ≤ z → k ≤ j)

theorem RoundsTo.brackets {r : ℚ} {k : Int} (h : RoundsTo r k) : Brackets r k :=
  fun _ _ hz => ⟨fun hle => hz.mono h hle, fun hle => h.mono hz hle⟩

theorem Brackets.neg {r : ℚ} {k : Int} (h : Brackets r k) : Brackets (-r) (-k) := by
  intro z j hz
  have := h (-z) (-j) hz.neg
  constructor
  · intro hle; have := this.2 (by linarith); omega
  · intro hle; have := this.1 (by linarith); omega

theorem exists_roundsTo_between {r r' : ℚ} (h : r < r') :
    ∃ z j, RoundsTo z j ∧ r ≤ z ∧ z ≤ r' := by
  obtain ⟨e, he⟩ := exists_pow_lt_of_lt_one (sub_pos.mpr h) (by norm_num : (1 : ℚ) / 2 < 1)
  have hp : (0 : ℚ) < 2^e := by positivity
  set c := ⌈r * 2^e⌉
  have hc₁ : r * 2^e ≤ c := Int.le_ceil _
  have hc₂ : (c : ℚ) < r * 2^e + 1 := Int.ceil_lt_add_one _
  have hz : pairVal (decide (c < 0)) c.natAbs (-(e : Int)) = c / 2^e := by
    have h2 : (2 : ℚ)^(-(e : Int)) = 1 / 2^e := by rw [zpow_neg, zpow_natCast, one_div]
    rcases Int.lt_or_le c 0 with hneg | hnn
    · simp only [pairVal, decide_eq_true hneg, h2]
      rw [Nat.cast_natAbs, Int.cast_abs, abs_of_neg (by exact_mod_cast hneg)]
      ring
    · simp only [pairVal, decide_eq_false (not_lt.mpr hnn), h2]
      rw [Nat.cast_natAbs, Int.cast_abs, abs_of_nonneg (by exact_mod_cast hnn)]
      ring
  refine ⟨_, _, ⟨_, _, _, hz, rfl⟩, ?_, ?_⟩
  · rw [le_div_iff₀ hp]; exact hc₁
  · rw [div_le_iff₀ hp]
    have : (1 : ℚ) < (r' - r) * 2^e := by
      rw [one_div_pow] at he
      rwa [div_lt_iff₀ hp] at he
    linarith

theorem Brackets.mono {r r' : ℚ} {k k' : Int} (h : Brackets r k) (h' : Brackets r' k')
    (hr : r < r') : k ≤ k' := by
  obtain ⟨z, j, hz, h₁, h₂⟩ := exists_roundsTo_between hr
  exact le_trans ((h z j hz).2 h₁) ((h' z j hz).1 h₂)

/-! ## Rounding inside a half step -/

/-- Rounding away `k` bits sees only which half of its `2^k` step a value lies in; values strictly
between two neighbouring multiples of `2^s`, with `s < k`, round alike. -/
theorem rne_eq_of_between {A B K s k : Nat} (hk : s < k) (hA : K * 2^s < A)
    (hA' : A < (K + 1) * 2^s) (hB : K * 2^s < B) (hB' : B < (K + 1) * 2^s) :
    rne A k = rne B k := by
  suffices key : ∀ X, K * 2^s < X → X < (K + 1) * 2^s →
      rne X k = K / 2^(k - s) + if 2^(k - s - 1) ≤ K % 2^(k - s) then 1 else 0 by
    rw [key A hA hA', key B hB hB']
  intro X hX hX'
  have hD : 2^(k - s) = 2 * 2^(k - s - 1) := by rw [← Nat.pow_succ']; congr 1; omega
  have hk' : 2^k = 2^s * 2^(k - s) := by rw [← Nat.pow_add]; congr 1; omega
  have hu := Nat.mod_lt K (Nat.two_pow_pos (k - s))
  have hKd := Nat.div_add_mod K (2^(k - s))
  generalize K / 2^(k - s) = w at hKd ⊢
  generalize K % 2^(k - s) = u at hKd hu ⊢
  obtain ⟨r, hr, rfl⟩ : ∃ r, 0 < r ∧ X = K * 2^s + r := ⟨X - K * 2^s, by omega, by omega⟩
  have hr' : r < 2^s := by rw [Nat.add_mul, Nat.one_mul] at hX'; omega
  have hX_eq : K * 2^s + r = (2^s * u + r) + 2^k * w := by
    rw [← hKd, hk']; ring
  have hrem : 2^s * u + r < 2^k := by
    have : 2^s * (u + 1) ≤ 2^s * 2^(k - s) := Nat.mul_le_mul_left _ hu
    rw [hk']; rw [Nat.mul_add, Nat.mul_one] at this; omega
  have hdiv : (K * 2^s + r) / 2^k = w := by
    rw [hX_eq, Nat.add_mul_div_left _ _ (Nat.two_pow_pos k), Nat.div_eq_of_lt hrem, Nat.zero_add]
  have hmod : (K * 2^s + r) % 2^k = 2^s * u + r := by
    rw [hX_eq, Nat.add_mul_mod_self_left, Nat.mod_eq_of_lt hrem]
  unfold rne
  rw [hdiv, hmod]
  have hk2 : 2^k = 2 * (2^s * 2^(k - s - 1)) := by rw [hk', hD]; ring
  split
  · next hup =>
    have hupper : 2^(k - s - 1) ≤ u := by
      by_contra hlow
      have : 2^s * (u + 1) ≤ 2^s * 2^(k - s - 1) := Nat.mul_le_mul_left _ (by omega)
      rw [Nat.mul_add, Nat.mul_one] at this
      omega
    rw [if_pos hupper]
  · next hdown =>
    have hlow : ¬ 2^(k - s - 1) ≤ u := by
      intro hupper
      have : 2^s * 2^(k - s - 1) ≤ 2^s * u := Nat.mul_le_mul_left _ hupper
      omega
    rw [if_neg hlow, Nat.add_zero]

theorem log2_of_between {A K s : Nat} (hK : K ≠ 0) (hA : K * 2^s < A) (hA' : A < (K + 1) * 2^s) :
    A.log2 = K.log2 + s := by
  rw [Nat.log2_eq_iff (by omega)]
  constructor
  · calc 2^(K.log2 + s) = 2^K.log2 * 2^s := Nat.pow_add ..
      _ ≤ K * 2^s := Nat.mul_le_mul_right _ (Nat.log2_self_le hK)
      _ ≤ A := hA.le
  · calc A < (K + 1) * 2^s := hA'
      _ ≤ 2^(K.log2 + 1) * 2^s := Nat.mul_le_mul_right _ Nat.lt_log2_self
      _ = 2^(K.log2 + s + 1) := by rw [← Nat.pow_add]; congr 1; omega

theorem target_eq_of_between {A B K s : Nat} {p : Int} (hA : K * 2^s < A)
    (hA' : A < (K + 1) * 2^s) (hB : K * 2^s < B) (hB' : B < (K + 1) * 2^s)
    (hT : p + s < target B p) : target A p = target B p := by
  rcases Nat.eq_zero_or_pos K with rfl | hK
  · have hAl : A.log2 < s := (Nat.log2_lt (by omega)).mpr (by simpa using hA')
    have hBl : B.log2 < s := (Nat.log2_lt (by omega)).mpr (by simpa using hB')
    unfold target at hT ⊢
    omega
  · unfold target
    rw [log2_of_between (by omega) hA hA', log2_of_between (by omega) hB hB']

theorem roundRank_eq_of_between {A B K s : Nat} {p : Int} (hA : K * 2^s < A)
    (hA' : A < (K + 1) * 2^s) (hB : K * 2^s < B) (hB' : B < (K + 1) * 2^s)
    (hT : p + s < target B p) : roundRank A p = roundRank B p := by
  have ht := target_eq_of_between hA hA' hB hB' hT
  have h0 : (p - target B p).toNat = 0 := by omega
  unfold roundRank roundedAt
  rw [ht, h0, pow_zero, Nat.mul_one, Nat.mul_one,
    rne_eq_of_between (by omega) hA hA' hB hB']

theorem roundRank_eq_of_between_val {m m' K : Nat} {e e' h : Int} (hm : m ≠ 0) (hm' : m' ≠ 0)
    (hz : (K : ℚ) * 2^h < pairVal false m e) (hz' : pairVal false m e < (K + 1) * 2^h)
    (hd : (K : ℚ) * 2^h < pairVal false m' e') (hd' : pairVal false m' e' < (K + 1) * 2^h)
    (hT : h < target m' e') : roundRank m e = roundRank m' e' := by
  -- bring both values and the step to one exponent `p` at or below all three
  set p := min (min e e') h
  have h₁ : ((e - p).toNat : Int) = e - p := by omega
  have h₂ : ((e' - p).toNat : Int) = e' - p := by omega
  have h₃ : ((h - p).toNat : Int) = h - p := by omega
  have hsplit : ∀ a : Int, p ≤ a → (2 : ℚ)^a = 2^(a - p).toNat * 2^p := fun a ha => by
    rw [← zpow_natCast, ← zpow_add₀ two_ne_zero]; congr 1; omega
  have hp : (0 : ℚ) < 2^p := by positivity
  simp only [pairVal] at hz hz' hd hd'
  rw [hsplit e (by omega), hsplit h (by omega)] at hz hz'
  rw [hsplit e' (by omega), hsplit h (by omega)] at hd hd'
  have hlt : ∀ a b c d : Nat, (a : ℚ) * (2^c * 2^p) < b * (2^d * 2^p) → a * 2^c < b * 2^d := by
    intro a b c d hab
    have : ((a * 2^c : Nat) : ℚ) * 2^p < ((b * 2^d : Nat) : ℚ) * 2^p := by push_cast; linarith
    exact_mod_cast lt_of_mul_lt_mul_right this hp.le
  have hA := hlt _ _ _ _ hz
  have hA' := hlt (m) (K + 1) _ _ (by push_cast; exact hz')
  have hB := hlt _ _ _ _ hd
  have hB' := hlt (m') (K + 1) _ _ (by push_cast; exact hd')
  have hsA := roundRank_scale hm e (e - p).toNat
  have hsB := roundRank_scale hm' e' (e' - p).toNat
  have htB := target_scale hm' e' (e' - p).toNat
  rw [show e - ((e - p).toNat : Int) = p by omega] at hsA
  rw [show e' - ((e' - p).toNat : Int) = p by omega] at hsB htB
  rw [← hsA, ← hsB]
  exact roundRank_eq_of_between hA hA' hB hB' (by rw [htB]; omega)

theorem brackets_of_between {md K : Nat} {ed h : Int} {r : ℚ} (hmd : md ≠ 0)
    (hT : h < target md ed)
    (hd : (K : ℚ) * 2^h < pairVal false md ed) (hd' : pairVal false md ed < (K + 1) * 2^h)
    (hr : (K : ℚ) * 2^h < r) (hr' : r < (K + 1) * 2^h) :
    Brackets r (signedRank false md ed) := by
  have hK : (0 : ℚ) ≤ K * 2^h := by positivity
  intro z j hz
  obtain ⟨nz, mz, ez, rfl, rfl⟩ := hz
  have key : (K : ℚ) * 2^h < pairVal nz mz ez → pairVal nz mz ez < (K + 1) * 2^h →
      signedRank nz mz ez = signedRank false md ed := by
    intro h₁ h₂
    have hnz : nz = false := by
      cases nz
      · rfl
      · exact absurd (lt_of_le_of_lt hK h₁) (not_lt.mpr (pairVal_true_nonpos mz ez))
    subst hnz
    have hmz : mz ≠ 0 := by rintro rfl; simp [pairVal] at h₁; linarith
    simp only [signedRank, hmz, hmd, if_false, Bool.false_eq_true,
      roundRank_eq_of_between_val hmz hmd h₁ h₂ hd hd' hT]
  have hrz : RoundsTo (pairVal nz mz ez) (signedRank nz mz ez) := ⟨nz, mz, ez, rfl, rfl⟩
  have hrd : RoundsTo (pairVal false md ed) (signedRank false md ed) := ⟨false, md, ed, rfl, rfl⟩
  constructor
  · intro hle
    by_cases hzd : pairVal nz mz ez ≤ pairVal false md ed
    · exact hrz.mono hrd hzd
    · rw [key (by linarith) (by linarith)]
  · intro hle
    by_cases hzd : pairVal false md ed ≤ pairVal nz mz ez
    · exact hrd.mono hrz hzd
    · rw [key (by linarith) (by linarith)]

/-! ## The quotient of two floats -/

theorem code_cases (R d : Nat) :
    (code (accuracyOfFraction R d) = 0 ∧ R = 0) ∨
      (code (accuracyOfFraction R d) = 1 ∧ 0 < R ∧ 2 * R < d) ∨
      (code (accuracyOfFraction R d) = 2 ∧ 0 < R ∧ 2 * R = d) ∨
      (code (accuracyOfFraction R d) = 3 ∧ 0 < R ∧ d < 2 * R) := by
  unfold accuracyOfFraction
  split
  · next h => exact .inl ⟨rfl, h⟩
  · next h =>
    cases hc : compare (2 * R) d with
    | lt => exact .inr (.inl ⟨rfl, by omega, compare_lt_iff_lt.mp hc⟩)
    | eq => exact .inr (.inr (.inl ⟨rfl, by omega, compare_eq_iff_eq.mp hc⟩))
    | gt => exact .inr (.inr (.inr ⟨rfl, by omega, compare_gt_iff_gt.mp hc⟩))

theorem brackets_proxy {Q R d : Nat} {E : Int} (hR : R < d)
    (hne : 4 * Q + code (accuracyOfFraction R d) ≠ 0)
    (hT : E ≤ target (4 * Q + code (accuracyOfFraction R d)) (E - 2)) :
    Brackets ((Q + R / d) * 2^E)
      (signedRank false (4 * Q + code (accuracyOfFraction R d)) (E - 2)) := by
  have hd : (0 : ℚ) < d := by exact_mod_cast (show 0 < d by omega)
  have hP : (0 : ℚ) < 2^E := by positivity
  have h2 : (2 : ℚ)^(E - 1) = 2^E / 2 := by rw [zpow_sub₀ two_ne_zero]; norm_num
  have h4 : (2 : ℚ)^(E - 2) = 2^E / 4 := by rw [zpow_sub₀ two_ne_zero]; norm_num
  have hval : ∀ c : Nat, pairVal false (4 * Q + c) (E - 2) = (Q + c / 4) * 2^E := by
    intro c; simp only [pairVal, h4]; push_cast; ring
  rcases code_cases R d with ⟨hc, rfl⟩ | ⟨hc, hR0, hlt⟩ | ⟨hc, -, heq⟩ | ⟨hc, hR0, hgt⟩ <;>
    rw [hc] at hne hT ⊢
  · exact RoundsTo.brackets ⟨false, _, _, by rw [hval]; simp, rfl⟩
  · have hu : (0 : ℚ) < R / d * 2^E := mul_pos (div_pos (by exact_mod_cast hR0) hd) hP
    have hu' : (R : ℚ) / d * 2^E < 1 / 2 * 2^E := by
      refine mul_lt_mul_of_pos_right ?_ hP
      rw [div_lt_iff₀ hd]
      have : (2 * R : ℚ) < d := by exact_mod_cast hlt
      linarith
    refine brackets_of_between (K := 2 * Q) (h := E - 1) hne (by omega) ?_ ?_ ?_ ?_ <;>
      simp only [hval, h2] <;> push_cast <;> linarith
  · have hhalf : (R : ℚ) / d = 1 / 2 := by
      rw [div_eq_iff hd.ne']
      have : (2 * R : ℚ) = d := by exact_mod_cast heq
      linarith
    exact RoundsTo.brackets ⟨false, _, _, by rw [hval, hhalf]; norm_num, rfl⟩
  · have hu : (1 / 2 : ℚ) * 2^E < R / d * 2^E := by
      refine mul_lt_mul_of_pos_right ?_ hP
      rw [lt_div_iff₀ hd]
      have : (d : ℚ) < 2 * R := by exact_mod_cast hgt
      linarith
    have hu' : (R : ℚ) / d * 2^E < 1 * 2^E := by
      refine mul_lt_mul_of_pos_right ?_ hP
      rw [div_lt_one hd]
      exact_mod_cast hR
    refine brackets_of_between (K := 2 * Q + 1) (h := E - 1) hne (by omega) ?_ ?_ ?_ ?_ <;>
      simp only [hval, h2] <;> push_cast <;> linarith

theorem mantissa_ne_zero {y : Float} {n : Bool} {m : Nat} {q : Int}
    (hy : ofFloat y = .finite n m q) (hy0 : (ofFloat y).rank ≠ 0) : m ≠ 0 := by
  rintro rfl
  have hq := (canon_of_ofFloat hy).1
  simp only [Canon] at hq
  rw [hy] at hy0
  cases n <;> simp [rank] at hy0 <;> omega

/-- The quotient of two finite floats, the divisor not a zero, brackets the exact quotient. -/
theorem brackets_div {x y : Float} (hx : (ofFloat x).isFinite = true)
    (hy : (ofFloat y).isFinite = true) (hy0 : (ofFloat y).rank ≠ 0) :
    Brackets ((ofFloat x).toRat / (ofFloat y).toRat) (ofFloat (x / y)).rank := by
  obtain ⟨n, m, q, hxe⟩ := exists_of_isFinite hx
  obtain ⟨n', m', q', hye⟩ := exists_of_isFinite hy
  have hm' := mantissa_ne_zero hye hy0
  by_cases hm : m = 0
  · subst hm
    have hq : q = -1074 := by have := (canon_of_ofFloat hxe).1; simp [Canon] at this; omega
    have hz : (ofFloat (x / y)).IsZero :=
      zero_div ⟨n, by rw [hxe, hq]⟩ (ne_nan_of_isFinite hy) hy0
    rw [rank_of_isZero hz, hxe, toRat_finite]
    exact RoundsTo.brackets ⟨n, 0, q, by cases n <;> simp [pairVal], by simp [signedRank]⟩
  · obtain ⟨E, hE, -, hrank⟩ := div_eq_proxy hxe hye hm hm'
    have hc : m < 2^53 := (canon_of_ofFloat hxe).1.2.1
    have hT := le_target_quotient hm hm' hc hE
    rw [← target_proxy hm hm' hc hE (code_lt _)] at hT
    have hb := brackets_proxy (Nat.mod_lt _ (Nat.pos_of_ne_zero hm')) (proxy_ne_zero hm hm') hT
    rw [← quotient_split m hm' (by omega)] at hb
    rw [hrank, hxe, hye, toRat_finite, toRat_finite]
    cases n <;> cases n' <;>
      simp only [pairVal, Bool.xor_false, Bool.xor_true, Bool.not_false, Bool.not_true, neg_div,
        div_neg, neg_neg]
    · exact hb
    · rw [show true = !false from rfl, signedRank_not]; exact hb.neg
    · rw [show true = !false from rfl, signedRank_not]; exact hb.neg
    · exact hb

/-! ## Division by a positive float -/

theorem div_ne_nan {x y : Float} (hx : ofFloat x ≠ .nan) (hy : (ofFloat y).isFinite = true)
    (hy0 : (ofFloat y).rank ≠ 0) : ofFloat (x / y) ≠ .nan := by
  obtain ⟨n', m', q', hye⟩ := exists_of_isFinite hy
  cases hxe : ofFloat x with
  | nan => exact absurd hxe hx
  | inf k => rw [inf_div hxe hye]; simp
  | finite n m q => exact (div_finite hxe hye (mantissa_ne_zero hye hy0)).1

/-- Dividing by a positive float is monotone. -/
theorem div_le_div_of_le {x x' w : Float} (hw : (ofFloat w).isFinite = true) (hpos : 0.0 < w)
    (h : x ≤ x') : x / w ≤ x' / w := by
  obtain ⟨m, q, hwe, hm⟩ := exists_of_pos hw hpos
  have hw0 : (ofFloat w).rank ≠ 0 := (rank_pos_of_pos hpos).ne'
  have hwv : 0 < (ofFloat w).toRat := by rw [hwe, toRat_finite]; exact pairVal_false_pos hm q
  refine le_of_finite_le (fun z hz => div_ne_nan hz hw hw0)
    (fun z k hz => by rw [inf_div hz hwe, Bool.xor_false]) (fun z z' hz hz' hle => ?_) h
  obtain ⟨hzn, hzn', hr⟩ := (le_iff_rank _ _).mp hle
  by_cases hb : (z == z') = true
  · rcases eq_or_isZero_of_beq hb with rfl | ⟨h0, h0'⟩
    · exact le_refl_float (div_ne_nan hzn hw hw0)
    · have hq := zero_div h0 (ne_nan_of_isFinite hw) hw0
      have hq' := zero_div h0' (ne_nan_of_isFinite hw) hw0
      refine (le_iff_rank _ _).mpr ⟨div_ne_nan hzn hw hw0, div_ne_nan hzn' hw hw0, ?_⟩
      rw [rank_of_isZero hq, rank_of_isZero hq']
  · have hne : (ofFloat z).rank ≠ (ofFloat z').rank :=
      fun he => hb ((beq_iff_rank _ _).mpr ⟨hzn, hzn', he⟩)
    have hlt : z < z' := (lt_iff_rank _ _).mpr ⟨hzn, hzn', lt_of_le_of_ne hr hne⟩
    have hv := (div_lt_div_iff_of_pos_right hwv).mpr ((lt_iff_toRat hz hz').mp hlt)
    exact (le_iff_rank _ _).mpr ⟨div_ne_nan hzn hw hw0, div_ne_nan hzn' hw hw0,
      (brackets_div hz hw hw0).mono (brackets_div hz' hw hw0) hv⟩

theorem nan_div {x y : Float} (hx : ofFloat x = .nan) : ofFloat (x / y) = .nan := by
  change ofFloat (Float.ofModel (Float.Model.pack (UnpackedFloat.div .binary64 x.toModel.unpack
    y.toModel.unpack))) = _
  rw [ofFloat_eq, ofUnpacked_eq_nan] at hx
  rw [hx]
  exact ofFloat_pack_nan

theorem isZero_div_inf {x y : Float} {k : Bool} (hy : ofFloat y = .inf k)
    (h : ofFloat (x / y) ≠ .nan) : (ofFloat (x / y)).IsZero := by
  change ofFloat (Float.ofModel (Float.Model.pack (UnpackedFloat.div .binary64 x.toModel.unpack
    y.toModel.unpack))) ≠ .nan at h
  change (ofFloat (Float.ofModel (Float.Model.pack (UnpackedFloat.div .binary64 x.toModel.unpack
    y.toModel.unpack)))).IsZero
  rw [ofFloat_eq] at hy
  obtain ⟨t, ht, rfl⟩ := ofUnpacked_eq_inf hy
  rw [ht] at h ⊢
  cases hx : x.toModel.unpack with
  | notANumber => rw [hx] at h; exact absurd ofFloat_pack_nan h
  | infinity s => rw [hx] at h; exact absurd ofFloat_pack_nan h
  | zero s => exact ⟨_, ofFloat_pack_zero _⟩
  | finite s m e hm => exact ⟨_, ofFloat_pack_zero _⟩

theorem div_le_div_of_ne_nan {x x' w : Float} (hpos : 0.0 < w) (h : x ≤ x')
    (hq : ofFloat (x / w) ≠ .nan) (hq' : ofFloat (x' / w) ≠ .nan) : x / w ≤ x' / w := by
  cases hw : ofFloat w with
  | nan => exact absurd hw ((lt_iff_rank _ _).mp hpos).2.1
  | inf k =>
    rw [le_iff_rank, rank_of_isZero (isZero_div_inf hw hq), rank_of_isZero (isZero_div_inf hw hq')]
    exact ⟨hq, hq', le_rfl⟩
  | finite n m q => exact div_le_div_of_le (by rw [hw]; rfl) hpos h

end GridIndex.Binary
