import GridIndex.Proofs.FloatArith

/-!
# Monotone float operations

An operation that sends each infinity to itself and rounds a monotone function of the value on
finite arguments is monotone for the float order (`le_of_extends`). Adding a finite float and
multiplying by a finite positive one are such operations, so `x + y ≤ x + y'` and
`y * w ≤ y' * w` whenever `y ≤ y'` (`add_le_add_left`, `mul_le_mul_right`). Hence a strict order
between two sums with a common operand passes to the other operands
(`lt_of_add_lt_add_left_float`, `lt_of_add_lt_add_right_float`). Natural numbers
below `2^53` convert to floats exactly and in order (`ofNat_le_ofNat`).
-/

namespace GridIndex.Binary

open Float.Model (UnpackedFloat)
open Float.Model.UnpackedFloat

set_option autoImplicit false

theorem isFinite_ofFloat (x : Float) : x.isFinite = (ofFloat x).isFinite := by
  rw [ofFloat_eq]
  show x.toModel.unpack.isFinite = _
  cases x.toModel.unpack <;> rfl

theorem isNaN_ofFloat (x : Float) : x.isNaN = true ↔ ofFloat x = .nan := by
  rw [ofFloat_eq, ofUnpacked_eq_nan]
  show x.toModel.unpack.isNaN = true ↔ _
  cases x.toModel.unpack <;> simp [UnpackedFloat.isNaN]

theorem exists_of_isFinite {b : Binary} (h : b.isFinite = true) : ∃ n m q, b = .finite n m q := by
  cases b with
  | finite n m q => exact ⟨n, m, q, rfl⟩
  | _ => simp [isFinite] at h

theorem ofUnpacked_eq_inf {u : UnpackedFloat} {n : Bool} (h : ofUnpacked u = .inf n) :
    ∃ s, u = .infinity s ∧ signBit s = n := by
  cases u with
  | infinity s =>
    simp only [ofUnpacked, Binary.inf.injEq] at h
    exact ⟨s, rfl, h⟩
  | _ => simp [ofUnpacked] at h

/-! ## Ranks are bounded by the infinities -/

theorem rank_bounds {b : Binary} (h : b.Canonical) : -infRank ≤ b.rank ∧ b.rank ≤ infRank := by
  unfold infRank
  cases b with
  | nan => exact absurd h id
  | inf n => cases n <;> simp [rank]
  | finite n m q =>
    obtain ⟨⟨hq, hm, -⟩, hq'⟩ := h
    cases n <;> simp only [rank, Bool.false_eq_true, if_false, if_true] <;> omega

theorem rank_finite_bounds {n : Bool} {m : Nat} {q : Int} (h : (Binary.finite n m q).Canonical) :
    -infRank < rank (.finite n m q) ∧ rank (.finite n m q) < infRank := by
  obtain ⟨⟨hq, hm, -⟩, hq'⟩ := h
  unfold infRank
  cases n <;> simp only [rank, Bool.false_eq_true, if_false, if_true] <;> omega

theorem rank_ofFloat_bounds {x : Float} (h : ofFloat x ≠ .nan) :
    -infRank ≤ (ofFloat x).rank ∧ (ofFloat x).rank ≤ infRank :=
  rank_bounds (canonical_ofFloat h)

theorem isFinite_of_rank {x : Float} (h : ofFloat x ≠ .nan) (hlo : -infRank < (ofFloat x).rank)
    (hhi : (ofFloat x).rank < infRank) : (ofFloat x).isFinite = true := by
  revert h hlo hhi
  cases ofFloat x with
  | nan => simp
  | inf n => cases n <;> simp [rank, infRank]
  | finite => simp [isFinite]

/-! ## Infinities absorb finite operands -/

theorem add_inf {x y : Float} {k : Bool} (hx : (ofFloat x).isFinite = true)
    (hy : ofFloat y = .inf k) : ofFloat (x + y) = .inf k := by
  obtain ⟨n, m, q, hxe⟩ := exists_of_isFinite hx
  change ofFloat (Float.ofModel (Float.Model.pack (UnpackedFloat.add .binary64 x.toModel.unpack
    y.toModel.unpack))) = _
  rw [ofFloat_eq] at hxe hy
  obtain ⟨t, ht, rfl⟩ := ofUnpacked_eq_inf hy
  rcases ofUnpacked_eq_finite hxe with ⟨s, hu, -⟩ | ⟨s, hm, hu, -⟩ <;>
    rw [hu, ht] <;> exact ofFloat_pack_infinity t

theorem mul_inf {y w : Float} {k n : Bool} {m : Nat} {q : Int} (hy : ofFloat y = .inf k)
    (hw : ofFloat w = .finite n m q) (hm : m ≠ 0) : ofFloat (y * w) = .inf (k ^^ n) := by
  change ofFloat (Float.ofModel (Float.Model.pack (UnpackedFloat.mul .binary64 y.toModel.unpack
    w.toModel.unpack))) = _
  rw [ofFloat_eq] at hw hy
  obtain ⟨t, ht, rfl⟩ := ofUnpacked_eq_inf hy
  rcases ofUnpacked_eq_finite hw with ⟨s, -, -, hm0, -⟩ | ⟨s, hm', hu, rfl⟩
  · exact absurd hm0 hm
  · rw [ht, hu, ← signBit_mul]
    exact ofFloat_pack_infinity _

theorem isFinite_of_sub {x y : Float} (h : (ofFloat (x - y)).isFinite = true) :
    (ofFloat x).isFinite = true ∧ (ofFloat y).isFinite = true := by
  change (ofFloat (Float.ofModel (Float.Model.pack (UnpackedFloat.sub .binary64 x.toModel.unpack
    y.toModel.unpack)))).isFinite = true at h
  rw [ofFloat_eq, ofFloat_eq]
  cases hx : x.toModel.unpack <;> cases hy : y.toModel.unpack <;>
    simp only [hx, hy, UnpackedFloat.sub] at h <;>
    first
    | exact ⟨rfl, rfl⟩
    | (rw [ofFloat_pack_nan] at h; simp [isFinite] at h)
    | (rw [ofFloat_pack_infinity] at h; simp [isFinite] at h)
    | (split at h <;> first
        | (rw [ofFloat_pack_nan] at h; simp [isFinite] at h)
        | (rw [ofFloat_pack_infinity] at h; simp [isFinite] at h))

/-! ## Monotonicity -/

theorem le_of_finite_le {f : Float → Float}
    (hnan : ∀ z, ofFloat z ≠ .nan → ofFloat (f z) ≠ .nan)
    (hinf : ∀ z k, ofFloat z = .inf k → ofFloat (f z) = .inf k)
    (hfin : ∀ z z', (ofFloat z).isFinite = true → (ofFloat z').isFinite = true → z ≤ z' →
      f z ≤ f z')
    {y y' : Float} (h : y ≤ y') : f y ≤ f y' := by
  obtain ⟨hy, hy', hr⟩ := (le_iff_rank y y').mp h
  have by₁ := rank_ofFloat_bounds (hnan y hy)
  have by₂ := rank_ofFloat_bounds (hnan y' hy')
  refine (le_iff_rank _ _).mpr ⟨hnan y hy, hnan y' hy', ?_⟩
  -- `-∞` below and `+∞` above settle every case with an infinite argument
  cases hb : ofFloat y with
  | nan => exact absurd hb hy
  | inf k =>
    rw [hinf y k hb]
    cases k
    · cases hb' : ofFloat y' with
      | nan => exact absurd hb' hy'
      | inf k' =>
        rw [hb, hb'] at hr
        cases k' <;> simp [rank] at hr
        rw [hinf y' false hb']
      | finite n' m' q' =>
        have := rank_finite_bounds (hb' ▸ canonical_ofFloat hy')
        rw [hb, hb'] at hr
        simp [rank, infRank] at hr this; omega
    · simp only [rank, if_true]; exact by₂.1
  | finite n m q =>
    cases hb' : ofFloat y' with
    | nan => exact absurd hb' hy'
    | inf k' =>
      rw [hinf y' k' hb']
      cases k'
      · simp only [rank, Bool.false_eq_true, if_false]; exact by₁.2
      · have := rank_finite_bounds (hb ▸ canonical_ofFloat hy)
        rw [hb, hb'] at hr
        simp [rank, infRank] at hr this; omega
    | finite n' m' q' =>
      exact ((le_iff_rank _ _).mp (hfin y y' (by rw [hb]; rfl) (by rw [hb']; rfl) h)).2.2

/-- An operation that fixes both infinities, keeps NaN away, and on a finite argument gives a
rounding of a monotone function of its value, is monotone. -/
theorem le_of_extends {f : Float → Float} {g : ℚ → ℚ} (hg : Monotone g)
    (hnan : ∀ z, ofFloat z ≠ .nan → ofFloat (f z) ≠ .nan)
    (hinf : ∀ z k, ofFloat z = .inf k → ofFloat (f z) = .inf k)
    (hfin : ∀ z n m q, ofFloat z = .finite n m q → RoundsTo (g (pairVal n m q)) (ofFloat (f z)).rank)
    {y y' : Float} (h : y ≤ y') : f y ≤ f y' := by
  refine le_of_finite_le hnan hinf (fun z z' hz hz' hle => ?_) h
  obtain ⟨n, m, q, hb⟩ := exists_of_isFinite hz
  obtain ⟨n', m', q', hb'⟩ := exists_of_isFinite hz'
  obtain ⟨hzn, hzn', hr⟩ := (le_iff_rank z z').mp hle
  have hv := toRat_le_of_rank_le (hb ▸ canonical_ofFloat hzn) (hb' ▸ canonical_ofFloat hzn')
    (by rw [← hb, ← hb']; exact hr)
  simp only [toRat_finite] at hv
  exact (le_iff_rank _ _).mpr ⟨hnan z hzn, hnan z' hzn',
    (hfin z n m q hb).mono (hfin z' n' m' q' hb') (hg hv)⟩

theorem add_le_add_left {x y y' : Float} (hx : (ofFloat x).isFinite = true) (h : y ≤ y') :
    x + y ≤ x + y' := by
  obtain ⟨n, m, q, hxe⟩ := exists_of_isFinite hx
  refine le_of_extends (f := (x + ·)) (g := (pairVal n m q + ·)) (fun _ _ hab => by simpa using hab)
    ?_ (fun z k hz => add_inf hx hz) (fun z n' m' q' hz => (add_finite hxe hz).2) h
  intro z hz
  cases hb : ofFloat z with
  | nan => exact absurd hb hz
  | inf k => rw [add_inf hx hb]; simp
  | finite n' m' q' => exact (add_finite hxe hb).1

theorem rank_pos_of_pos {w : Float} (hpos : 0.0 < w) : 0 < (ofFloat w).rank := by
  obtain ⟨-, -, hr⟩ := (lt_iff_rank _ _).mp hpos
  rwa [show (ofFloat 0.0).rank = 0 by decide] at hr

theorem exists_of_pos {w : Float} (hw : (ofFloat w).isFinite = true) (hpos : 0.0 < w) :
    ∃ m q, ofFloat w = .finite false m q ∧ m ≠ 0 := by
  obtain ⟨n, m, q, hwe⟩ := exists_of_isFinite hw
  have hr := rank_pos_of_pos hpos
  have hc := (hwe ▸ canonical_ofFloat (x := w) (by rw [hwe]; simp)).1
  have hq := hc.1
  rw [hwe] at hr
  cases n
  · refine ⟨m, q, hwe, fun hm0 => ?_⟩
    have := hc.2.2
    simp [rank, hm0] at hr; omega
  · simp [rank] at hr; omega

theorem mul_le_mul_right {y y' w : Float} (hw : (ofFloat w).isFinite = true) (hpos : 0.0 < w)
    (h : y ≤ y') : y * w ≤ y' * w := by
  obtain ⟨m, q, hwe, hm⟩ := exists_of_pos hw hpos
  have hwpos := pairVal_false_pos hm q
  refine le_of_extends (f := (· * w)) (g := (· * pairVal false m q))
    (fun _ _ hab => mul_le_mul_of_nonneg_right hab hwpos.le) ?_
    (fun z k hz => by rw [mul_inf hz hwe hm, Bool.xor_false])
    (fun z n' m' q' hz => (mul_finite hz hwe).2) h
  intro z hz
  cases hb : ofFloat z with
  | nan => exact absurd hb hz
  | inf k => rw [mul_inf hb hwe hm]; simp
  | finite n' m' q' => exact (mul_finite hb hwe).1

/-! ## Natural numbers -/

theorem ofFloat_one : ofFloat (Float.ofBits 0x3FF0000000000000) = .finite false (2^52) (-52) := by
  decide

theorem roundRank_lt_of_small {c : Nat} (hc : c < 2^53) : roundRank c 0 < infRank := by
  have h₁ := roundedAt_le c 0
  have ht : target c 0 ≤ 0 := by
    rcases Nat.eq_zero_or_pos c with rfl | hc0
    · simp [target]
    · have := (Nat.log2_lt (by omega)).mpr hc
      unfold target; omega
  unfold roundRank infRank
  omega

theorem rank_ofNat {c : Nat} (hc : c < 2^53) :
    (ofFloat (Float.ofNat c)).isFinite = true ∧ (ofFloat (Float.ofNat c)).rank = signedRank false c 0 := by
  have hof : Float.ofNat c = c.toUInt64.toFloat * Float.ofBits 0x3FF0000000000000 := by
    show Float.ofScientific c false 0 = _
    unfold Float.ofScientific
    rw [dif_pos ⟨hc, by decide⟩]
    rfl
  have htc : c.toUInt64.toNat = c := by simp; omega
  have hnorm : ofFloat c.toUInt64.toFloat = ofFloat (Float.ofModel (Float.Model.pack
      (UnpackedFloat.normalize .binary64 (c : Int) 0 .positive))) := by
    show ofFloat (Float.ofModel (Float.Model.pack (UnpackedFloat.ofNat .binary64
      c.toUInt64.toNat))) = _
    rw [htc]
    rfl
  obtain ⟨hn, hr⟩ := roundsTo_normalize (c : Int) 0
  rw [← hnorm] at hn hr
  have hk : (ofFloat c.toUInt64.toFloat).rank = signedRank false c 0 :=
    hr.unique ⟨false, c, 0, by simp [pairVal], rfl⟩
  have hlt := roundRank_lt_of_small hc
  have hmin : min (roundRank c 0) infRank = roundRank c 0 := min_eq_left hlt.le
  have hsmall : signedRank false c 0 < infRank := by
    unfold signedRank
    split
    · unfold infRank; omega
    · rw [if_neg Bool.false_ne_true]
      unfold infRank at hmin hlt ⊢; omega
  have hbig : -infRank < signedRank false c 0 := by
    have := roundRank_nonneg c 0
    unfold signedRank
    split
    · unfold infRank; omega
    · rw [if_neg Bool.false_ne_true]
      unfold infRank at hmin ⊢; omega
  obtain ⟨n, m, q, ht⟩ := exists_of_isFinite (isFinite_of_rank hn (hk ▸ hbig) (hk ▸ hsmall))
  obtain ⟨hn', hr'⟩ := mul_finite ht ofFloat_one
  have hone : pairVal false (2^52) (-52) = 1 := by norm_num [pairVal]
  rw [hone, mul_one] at hr'
  have hcan : (Binary.finite n m q).Canonical := ht ▸ canonical_ofFloat hn
  have hk' := hr'.unique (by simpa using roundsTo_rank hcan)
  rw [← ht, hk] at hk'
  rw [hof]
  exact ⟨isFinite_of_rank hn' (hk' ▸ hbig) (hk' ▸ hsmall), hk'⟩

theorem ofNat_le_ofNat {c c' : Nat} (h : c ≤ c') (hc' : c' < 2^53) :
    Float.ofNat c ≤ Float.ofNat c' := by
  obtain ⟨hf, hr⟩ := rank_ofNat (Nat.lt_of_le_of_lt h hc')
  obtain ⟨hf', hr'⟩ := rank_ofNat hc'
  refine (le_iff_rank _ _).mpr ⟨?_, ?_, ?_⟩
  · obtain ⟨n, m, q, he⟩ := exists_of_isFinite hf; rw [he]; simp
  · obtain ⟨n, m, q, he⟩ := exists_of_isFinite hf'; rw [he]; simp
  · rw [hr, hr']
    exact signedRank_mono (by simp [pairVal]; exact_mod_cast h)

/-! ## The order away from NaN -/

theorem le_trans_float {x y z : Float} (h : x ≤ y) (h' : y ≤ z) : x ≤ z := by
  obtain ⟨hx, -, hr⟩ := (le_iff_rank x y).mp h
  obtain ⟨-, hz, hr'⟩ := (le_iff_rank y z).mp h'
  exact (le_iff_rank x z).mpr ⟨hx, hz, Int.le_trans hr hr'⟩

theorem lt_of_lt_of_le_float {x y z : Float} (h : x < y) (h' : y ≤ z) : x < z := by
  obtain ⟨hx, -, hr⟩ := (lt_iff_rank x y).mp h
  obtain ⟨-, hz, hr'⟩ := (le_iff_rank y z).mp h'
  exact (lt_iff_rank x z).mpr ⟨hx, hz, Int.lt_of_lt_of_le hr hr'⟩

theorem lt_of_le_of_lt_float {x y z : Float} (h : x ≤ y) (h' : y < z) : x < z := by
  obtain ⟨hx, -, hr⟩ := (le_iff_rank x y).mp h
  obtain ⟨-, hz, hr'⟩ := (lt_iff_rank y z).mp h'
  exact (lt_iff_rank x z).mpr ⟨hx, hz, Int.lt_of_le_of_lt hr hr'⟩

theorem le_of_lt_float {x y : Float} (h : x < y) : x ≤ y := by
  obtain ⟨hx, hy, hr⟩ := (lt_iff_rank x y).mp h
  exact (le_iff_rank x y).mpr ⟨hx, hy, Int.le_of_lt hr⟩

theorem lt_irrefl_float (x : Float) : ¬ x < x := by
  intro h
  obtain ⟨-, -, hr⟩ := (lt_iff_rank x x).mp h
  exact Int.lt_irrefl _ hr

theorem le_refl_float {x : Float} (hx : ofFloat x ≠ .nan) : x ≤ x :=
  (le_iff_rank x x).mpr ⟨hx, hx, Int.le_refl _⟩

theorem le_of_not_lt_float {x y : Float} (hx : ofFloat x ≠ .nan) (hy : ofFloat y ≠ .nan)
    (h : ¬ x < y) : y ≤ x := by
  refine (le_iff_rank y x).mpr ⟨hy, hx, ?_⟩
  exact Int.not_lt.mp fun hr => h ((lt_iff_rank x y).mpr ⟨hx, hy, hr⟩)

theorem ne_nan_of_le_left {x y : Float} (h : x ≤ y) : ofFloat x ≠ .nan :=
  ((le_iff_rank x y).mp h).1

theorem ne_nan_of_le_right {x y : Float} (h : x ≤ y) : ofFloat y ≠ .nan :=
  ((le_iff_rank x y).mp h).2.1

theorem lt_of_not_le_float {x y : Float} (hx : ofFloat x ≠ .nan) (hy : ofFloat y ≠ .nan)
    (h : ¬ x ≤ y) : y < x := by
  refine (lt_iff_rank y x).mpr ⟨hy, hx, ?_⟩
  exact Int.lt_of_not_ge fun hr => h ((le_iff_rank x y).mpr ⟨hx, hy, hr⟩)

theorem min_le_left_float {x y : Float} (hx : ofFloat x ≠ .nan) (hy : ofFloat y ≠ .nan) :
    min x y ≤ x := by
  show (if x ≤ y then x else y) ≤ x
  split
  · exact le_refl_float hx
  · exact le_of_lt_float (lt_of_not_le_float hx hy ‹_›)

theorem min_le_right_float {x y : Float} (hy : ofFloat y ≠ .nan) : min x y ≤ y := by
  show (if x ≤ y then x else y) ≤ y
  split
  · assumption
  · exact le_refl_float hy

theorem le_max_left_float {x y : Float} (hx : ofFloat x ≠ .nan) : x ≤ max x y := by
  show x ≤ if x ≤ y then y else x
  split
  · assumption
  · exact le_refl_float hx

theorem le_max_right_float {x y : Float} (hx : ofFloat x ≠ .nan) (hy : ofFloat y ≠ .nan) :
    y ≤ max x y := by
  show y ≤ if x ≤ y then y else x
  split
  · exact le_refl_float hy
  · exact le_of_lt_float (lt_of_not_le_float hx hy ‹_›)

theorem lt_asymm_float {x y : Float} (h : x < y) : ¬ y < x :=
  fun h' => lt_irrefl_float x (lt_of_lt_of_le_float h (le_of_lt_float h'))

/-! ## Cancelling a common addend

NaN absorbs every sum and an infinity absorbs a sum with a finite float. Adding the same finite
float on either side keeps order. So when two sums with a common operand are strictly ordered,
so are the other operands. -/

theorem add_nan_left {x y : Float} (hx : ofFloat x = .nan) : ofFloat (x + y) = .nan := by
  change ofFloat (Float.ofModel (Float.Model.pack (UnpackedFloat.add .binary64 x.toModel.unpack
    y.toModel.unpack))) = _
  rw [ofFloat_eq, ofUnpacked_eq_nan] at hx
  rw [hx]
  exact ofFloat_pack_nan

theorem add_nan_right {x y : Float} (hy : ofFloat y = .nan) : ofFloat (x + y) = .nan := by
  change ofFloat (Float.ofModel (Float.Model.pack (UnpackedFloat.add .binary64 x.toModel.unpack
    y.toModel.unpack))) = _
  rw [ofFloat_eq, ofUnpacked_eq_nan] at hy
  rw [hy]
  cases x.toModel.unpack <;> exact ofFloat_pack_nan

theorem inf_add {x y : Float} {k : Bool} (hx : ofFloat x = .inf k)
    (hy : (ofFloat y).isFinite = true) : ofFloat (x + y) = .inf k := by
  obtain ⟨n, m, q, hye⟩ := exists_of_isFinite hy
  change ofFloat (Float.ofModel (Float.Model.pack (UnpackedFloat.add .binary64 x.toModel.unpack
    y.toModel.unpack))) = _
  rw [ofFloat_eq] at hye hx
  obtain ⟨t, ht, rfl⟩ := ofUnpacked_eq_inf hx
  rcases ofUnpacked_eq_finite hye with ⟨s, hu, -⟩ | ⟨s, hm, hu, -⟩ <;>
    rw [hu, ht] <;> exact ofFloat_pack_infinity t

theorem add_inf_cases {x y : Float} {k : Bool} (hy : ofFloat y = .inf k) :
    ofFloat (x + y) = .inf k ∨ ofFloat (x + y) = .nan := by
  change ofFloat (Float.ofModel (Float.Model.pack (UnpackedFloat.add .binary64 x.toModel.unpack
    y.toModel.unpack))) = _ ∨ ofFloat (Float.ofModel (Float.Model.pack
      (UnpackedFloat.add .binary64 x.toModel.unpack y.toModel.unpack))) = _
  rw [ofFloat_eq] at hy
  obtain ⟨t, ht, rfl⟩ := ofUnpacked_eq_inf hy
  rw [ht]
  cases x.toModel.unpack with
  | notANumber => exact .inr ofFloat_pack_nan
  | infinity s =>
    simp only [UnpackedFloat.add]
    split
    · rename_i hst
      rw [show s = t from eq_of_beq hst]
      exact .inl (ofFloat_pack_infinity t)
    · exact .inr ofFloat_pack_nan
  | zero s => exact .inl (ofFloat_pack_infinity t)
  | finite s m e hm => exact .inl (ofFloat_pack_infinity t)

theorem inf_add_cases {x y : Float} {k : Bool} (hx : ofFloat x = .inf k) :
    ofFloat (x + y) = .inf k ∨ ofFloat (x + y) = .nan := by
  change ofFloat (Float.ofModel (Float.Model.pack (UnpackedFloat.add .binary64 x.toModel.unpack
    y.toModel.unpack))) = _ ∨ ofFloat (Float.ofModel (Float.Model.pack
      (UnpackedFloat.add .binary64 x.toModel.unpack y.toModel.unpack))) = _
  rw [ofFloat_eq] at hx
  obtain ⟨t, ht, rfl⟩ := ofUnpacked_eq_inf hx
  rw [ht]
  cases y.toModel.unpack with
  | notANumber => exact .inr ofFloat_pack_nan
  | infinity s =>
    simp only [UnpackedFloat.add]
    split
    · exact .inl (ofFloat_pack_infinity t)
    · exact .inr ofFloat_pack_nan
  | zero s => exact .inl (ofFloat_pack_infinity t)
  | finite s m e hm => exact .inl (ofFloat_pack_infinity t)

theorem add_le_add_right_float {x y y' : Float} (hx : (ofFloat x).isFinite = true) (h : y ≤ y') :
    y + x ≤ y' + x := by
  obtain ⟨n, m, q, hxe⟩ := exists_of_isFinite hx
  refine le_of_extends (f := (· + x)) (g := (· + pairVal n m q)) (fun _ _ hab => by simpa using hab)
    ?_ (fun z k hz => inf_add hz hx) (fun z n' m' q' hz => (add_finite hz hxe).2) h
  intro z hz
  cases hb : ofFloat z with
  | nan => exact absurd hb hz
  | inf k => rw [inf_add hb hx]; simp
  | finite n' m' q' => exact (add_finite hb hxe).1

theorem not_lt_of_inf {a b : Float} {k : Bool} (ha : ofFloat a = .inf k ∨ ofFloat a = .nan)
    (hb : ofFloat b = .inf k ∨ ofFloat b = .nan) : ¬ a < b := by
  intro h
  obtain ⟨han, hbn, hr⟩ := (lt_iff_rank a b).mp h
  rcases ha with ha | ha
  · rcases hb with hb | hb
    · rw [ha, hb] at hr
      exact Int.lt_irrefl _ hr
    · exact hbn hb
  · exact han ha

theorem lt_of_add_lt_add_right_float {x y z : Float} (h : x + z < y + z) : x < y := by
  obtain ⟨hxz, hyz, -⟩ := (lt_iff_rank _ _).mp h
  cases hz : ofFloat z with
  | nan => exact absurd (add_nan_right hz) hxz
  | inf k => exact absurd h (not_lt_of_inf (add_inf_cases hz) (add_inf_cases hz))
  | finite n m q =>
    have hx : ofFloat x ≠ .nan := fun e => hxz (add_nan_left e)
    have hy : ofFloat y ≠ .nan := fun e => hyz (add_nan_left e)
    refine Classical.byContradiction fun hn => ?_
    have hle := add_le_add_right_float (by rw [hz]; rfl) (le_of_not_lt_float hx hy hn)
    exact lt_irrefl_float _ (lt_of_lt_of_le_float h hle)

theorem lt_of_add_lt_add_left_float {x y z : Float} (h : z + x < z + y) : x < y := by
  obtain ⟨hxz, hyz, -⟩ := (lt_iff_rank _ _).mp h
  cases hz : ofFloat z with
  | nan => exact absurd (add_nan_left hz) hxz
  | inf k => exact absurd h (not_lt_of_inf (inf_add_cases hz) (inf_add_cases hz))
  | finite n m q =>
    have hx : ofFloat x ≠ .nan := fun e => hxz (add_nan_right e)
    have hy : ofFloat y ≠ .nan := fun e => hyz (add_nan_right e)
    refine Classical.byContradiction fun hn => ?_
    have hle := add_le_add_left (by rw [hz]; rfl) (le_of_not_lt_float hx hy hn)
    exact lt_irrefl_float _ (lt_of_lt_of_le_float h hle)

end GridIndex.Binary
