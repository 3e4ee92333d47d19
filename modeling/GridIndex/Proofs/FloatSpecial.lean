import GridIndex.Proofs.FloatMono

/-!
# Infinities, NaN and zeros

The table the float operations follow away from finite values: a product or quotient is finite
only if its first operand is, and a product only if both are (`isFinite_of_mul`,
`isFinite_of_div`); an infinity minus a finite float, or divided by one, stays infinite; a finite
float divided by an infinity, or a zero divided by anything but a zero or NaN, is a zero. The
absolute value keeps the magnitude and drops the sign.
-/

namespace GridIndex.Binary

open Float.Model (UnpackedFloat)
open Float.Model.UnpackedFloat

set_option autoImplicit false

/-- The zeros: rank `0`, either sign. -/
def IsZero (b : Binary) : Prop := ∃ n, b = .finite n 0 (-1074)

theorem rank_of_isZero {b : Binary} (h : b.IsZero) : b.rank = 0 := by
  obtain ⟨n, rfl⟩ := h
  cases n <;> simp [rank]

theorem isZero_of_rank {b : Binary} (hc : b.Canonical) (hb : b.isFinite = true) (h : b.rank = 0) :
    b.IsZero := by
  cases b with
  | finite n m q =>
    obtain ⟨⟨hq, -, -⟩, -⟩ := hc
    refine ⟨n, ?_⟩
    have : m = 0 ∧ q = -1074 := by
      cases n <;> simp only [rank, if_true, Bool.false_eq_true, if_false] at h <;> omega
    rw [this.1, this.2]
  | _ => simp [isFinite] at hb

theorem isFinite_of_isZero {b : Binary} (h : b.IsZero) : b.isFinite = true := by
  obtain ⟨n, rfl⟩ := h
  rfl

theorem floorMag_zero (q : Int) : floorMag 0 q = 0 := by
  unfold floorMag
  split <;> simp

/-! ## Floats of equal value

Two floats compare equal exactly when they have the same rank and neither is NaN. Apart from the
two zeros, the rank names one value and the value one bit pattern, so equal floats are the same
float or two zeros of opposite signs (`eq_or_isZero_of_beq`), and floats of equal value compare
alike with every other float. -/

theorem eq_of_ofFloat_eq {x y : Float} (h : ofFloat x = ofFloat y) (hx : ofFloat x ≠ .nan) :
    x = y := by
  rw [← Float.toBits_inj, ← UInt64.toNat_inj]
  have hbx := x.toBits.toNat_lt
  have hby := y.toBits.toNat_lt
  unfold ofFloat at h hx
  simp only [Nat.pow_eq] at h hx
  generalize x.toBits.toNat = a at *
  generalize y.toBits.toNat = b at *
  split_ifs at h hx <;> simp_all <;> omega

theorem eq_of_rank_eq {b b' : Binary} (hb : b.Canonical) (hb' : b'.Canonical)
    (h : b.rank = b'.rank) (h0 : b.rank ≠ 0) : b = b' := by
  cases b with
  | nan => exact absurd hb id
  | inf n =>
    cases b' with
    | nan => exact absurd hb' id
    | inf n' => cases n <;> cases n' <;> simp_all [rank]
    | finite n' m' q' =>
      have := rank_finite_bounds hb'
      cases n <;> simp only [rank, infRank] at h this <;> omega
  | finite n m q =>
    cases b' with
    | nan => exact absurd hb' id
    | inf n' =>
      have := rank_finite_bounds hb
      cases n' <;> simp only [rank, infRank] at h this <;> omega
    | finite n' m' q' =>
      obtain ⟨⟨hq, hm, hlead⟩, -⟩ := hb
      obtain ⟨⟨hq', hm', hlead'⟩, -⟩ := hb'
      have key : n = n' ∧ (m : Int) = m' ∧ q = q' := by
        cases n <;> cases n' <;> simp only [rank, if_true, if_false, Bool.false_eq_true] at h h0 <;>
          first | exact ⟨rfl, by omega, by omega⟩ | omega
      obtain ⟨rfl, hmm, rfl⟩ := key
      rw [Int.ofNat_inj.mp hmm]

theorem eq_or_isZero_of_beq {x y : Float} (h : (x == y) = true) :
    x = y ∨ ((ofFloat x).IsZero ∧ (ofFloat y).IsZero) := by
  obtain ⟨hx, hy, hr⟩ := (beq_iff_rank x y).mp h
  by_cases h0 : (ofFloat x).rank = 0
  · have hx0 := isZero_of_rank (canonical_ofFloat hx)
      (isFinite_of_rank hx (by unfold infRank; omega) (by unfold infRank; omega)) h0
    rw [hr] at h0
    have hy0 := isZero_of_rank (canonical_ofFloat hy)
      (isFinite_of_rank hy (by unfold infRank; omega) (by unfold infRank; omega)) h0
    exact .inr ⟨hx0, hy0⟩
  · exact .inl (eq_of_ofFloat_eq (eq_of_rank_eq (canonical_ofFloat hx) (canonical_ofFloat hy) hr h0) hx)

section Congr

variable {x y z : Float} (h : (x == y) = true)
include h

theorem lt_congr_left : x < z ↔ y < z := by
  obtain ⟨hx, hy, hr⟩ := (beq_iff_rank x y).mp h
  rw [lt_iff_rank, lt_iff_rank, hr]
  exact ⟨fun ⟨_, hz, hlt⟩ => ⟨hy, hz, hlt⟩, fun ⟨_, hz, hlt⟩ => ⟨hx, hz, hlt⟩⟩

theorem lt_congr_right : z < x ↔ z < y := by
  obtain ⟨hx, hy, hr⟩ := (beq_iff_rank x y).mp h
  rw [lt_iff_rank, lt_iff_rank, hr]
  exact ⟨fun ⟨hz, _, hlt⟩ => ⟨hz, hy, hlt⟩, fun ⟨hz, _, hlt⟩ => ⟨hz, hx, hlt⟩⟩

theorem le_congr_left : x ≤ z ↔ y ≤ z := by
  obtain ⟨hx, hy, hr⟩ := (beq_iff_rank x y).mp h
  rw [le_iff_rank, le_iff_rank, hr]
  exact ⟨fun ⟨_, hz, hle⟩ => ⟨hy, hz, hle⟩, fun ⟨_, hz, hle⟩ => ⟨hx, hz, hle⟩⟩

theorem le_congr_right : z ≤ x ↔ z ≤ y := by
  obtain ⟨hx, hy, hr⟩ := (beq_iff_rank x y).mp h
  rw [le_iff_rank, le_iff_rank, hr]
  exact ⟨fun ⟨hz, _, hle⟩ => ⟨hz, hy, hle⟩, fun ⟨hz, _, hle⟩ => ⟨hz, hx, hle⟩⟩

end Congr

theorem signBit_div (s s' : Sign) : signBit (s / s') = (signBit s ^^ signBit s') := by
  cases s <;> cases s' <;> rfl

/-! ## Finite results need finite operands -/

theorem isFinite_of_mul {x y : Float} (h : (ofFloat (x * y)).isFinite = true) :
    (ofFloat x).isFinite = true ∧ (ofFloat y).isFinite = true := by
  change (ofFloat (Float.ofModel (Float.Model.pack (UnpackedFloat.mul .binary64 x.toModel.unpack
    y.toModel.unpack)))).isFinite = true at h
  rw [ofFloat_eq, ofFloat_eq]
  cases hx : x.toModel.unpack <;> cases hy : y.toModel.unpack <;>
    simp only [hx, hy, UnpackedFloat.mul] at h <;>
    first
    | exact ⟨rfl, rfl⟩
    | (rw [ofFloat_pack_nan] at h; simp [isFinite] at h)
    | (rw [ofFloat_pack_infinity] at h; simp [isFinite] at h)

theorem isFinite_of_div {x y : Float} (h : (ofFloat (x / y)).isFinite = true) :
    (ofFloat x).isFinite = true ∧ ofFloat y ≠ .nan := by
  change (ofFloat (Float.ofModel (Float.Model.pack (UnpackedFloat.div .binary64 x.toModel.unpack
    y.toModel.unpack)))).isFinite = true at h
  rw [ofFloat_eq, ofFloat_eq]
  cases hx : x.toModel.unpack <;> cases hy : y.toModel.unpack <;>
    simp only [hx, hy, UnpackedFloat.div] at h <;>
    first
    | (rw [ofFloat_pack_nan] at h; simp [isFinite] at h)
    | (rw [ofFloat_pack_infinity] at h; simp [isFinite] at h)
    | exact ⟨rfl, by simp [ofUnpacked]⟩

/-! ## Infinite operands -/

theorem sub_inf_left {x y : Float} {k : Bool} (hx : ofFloat x = .inf k)
    (hy : (ofFloat y).isFinite = true) : ofFloat (x - y) = .inf k := by
  obtain ⟨n, m, q, hye⟩ := exists_of_isFinite hy
  change ofFloat (Float.ofModel (Float.Model.pack (UnpackedFloat.sub .binary64 x.toModel.unpack
    y.toModel.unpack))) = _
  rw [ofFloat_eq] at hx hye
  obtain ⟨t, ht, rfl⟩ := ofUnpacked_eq_inf hx
  rcases ofUnpacked_eq_finite hye with ⟨s, hu, -⟩ | ⟨s, hm, hu, -⟩ <;>
    rw [hu, ht] <;> exact ofFloat_pack_infinity t

theorem sub_inf_self {x y : Float} {k : Bool} (hx : ofFloat x = .inf k)
    (hy : ofFloat y = .inf k) : ofFloat (x - y) = .nan := by
  change ofFloat (Float.ofModel (Float.Model.pack (UnpackedFloat.sub .binary64 x.toModel.unpack
    y.toModel.unpack))) = _
  rw [ofFloat_eq] at hx hy
  obtain ⟨s, hs, rfl⟩ := ofUnpacked_eq_inf hx
  obtain ⟨s', hs', he⟩ := ofUnpacked_eq_inf hy
  rw [hs, hs']
  cases s <;> cases s' <;> simp only [signBit, Bool.true_eq_false, Bool.false_eq_true] at he <;>
    exact ofFloat_pack_nan

theorem nan_sub_right {x y : Float} (hy : ofFloat y = .nan) : ofFloat (x - y) = .nan := by
  change ofFloat (Float.ofModel (Float.Model.pack (UnpackedFloat.sub .binary64 x.toModel.unpack
    y.toModel.unpack))) = _
  rw [ofFloat_eq, ofUnpacked_eq_nan] at hy
  rw [hy]
  cases x.toModel.unpack <;> exact ofFloat_pack_nan

theorem sub_inf_right {x y : Float} {k : Bool} (hy : ofFloat y = .inf k)
    (h : ofFloat (x - y) ≠ .nan) : ofFloat (x - y) = .inf (!k) := by
  change ofFloat (Float.ofModel (Float.Model.pack (UnpackedFloat.sub .binary64 x.toModel.unpack
    y.toModel.unpack))) ≠ .nan at h
  change ofFloat (Float.ofModel (Float.Model.pack (UnpackedFloat.sub .binary64 x.toModel.unpack
    y.toModel.unpack))) = _
  rw [ofFloat_eq] at hy
  obtain ⟨t, ht, rfl⟩ := ofUnpacked_eq_inf hy
  rw [ht] at h ⊢
  have hneg : signBit (-t) = !signBit t := by cases t <;> rfl
  cases hx : x.toModel.unpack with
  | notANumber => rw [hx] at h; exact absurd ofFloat_pack_nan h
  | zero s => simp only [UnpackedFloat.sub, ofFloat_pack_infinity, hneg]
  | finite s m e hm => simp only [UnpackedFloat.sub, ofFloat_pack_infinity, hneg]
  | infinity s =>
    rw [hx] at h
    simp only [UnpackedFloat.sub] at h ⊢
    split at h
    · next hs =>
      rw [if_pos hs, ofFloat_pack_infinity]
      cases s <;> cases t <;> first | rfl | exact absurd hs (by decide)
    · exact absurd ofFloat_pack_nan h

theorem sub_le_sub_right {x x' y : Float} (hy : (ofFloat y).isFinite = true) (h : x ≤ x') :
    x - y ≤ x' - y := by
  obtain ⟨n, m, q, hye⟩ := exists_of_isFinite hy
  refine le_of_extends (f := (· - y)) (g := (· - pairVal n m q)) (fun _ _ hab => by simpa using hab)
    ?_ (fun z k hz => sub_inf_left hz hy) (fun z n' m' q' hz => (sub_finite hz hye).2) h
  intro z hz
  cases hb : ofFloat z with
  | nan => exact absurd hb hz
  | inf k => rw [sub_inf_left hb hy]; simp
  | finite n' m' q' => exact (sub_finite hb hye).1

theorem sub_le_sub_right_of_ne_nan {x x' y : Float} (h : x ≤ x') (hd : ofFloat (x - y) ≠ .nan)
    (hd' : ofFloat (x' - y) ≠ .nan) : x - y ≤ x' - y := by
  cases hy : ofFloat y with
  | nan => exact absurd (nan_sub_right hy) hd
  | inf k =>
    have he : x - y = x' - y :=
      eq_of_ofFloat_eq (by rw [sub_inf_right hy hd, sub_inf_right hy hd']) hd
    rw [he]
    exact le_refl_float hd'
  | finite n m q => exact sub_le_sub_right (by rw [hy]; rfl) h

theorem inf_div {x y : Float} {k n : Bool} {m : Nat} {q : Int} (hx : ofFloat x = .inf k)
    (hy : ofFloat y = .finite n m q) : ofFloat (x / y) = .inf (k ^^ n) := by
  change ofFloat (Float.ofModel (Float.Model.pack (UnpackedFloat.div .binary64 x.toModel.unpack
    y.toModel.unpack))) = _
  rw [ofFloat_eq] at hx hy
  obtain ⟨t, ht, rfl⟩ := ofUnpacked_eq_inf hx
  rcases ofUnpacked_eq_finite hy with ⟨s, hu, rfl, -⟩ | ⟨s, hm, hu, rfl⟩ <;>
    rw [ht, hu, ← signBit_div] <;> exact ofFloat_pack_infinity _

theorem div_inf {x y : Float} {k : Bool} (hx : (ofFloat x).isFinite = true)
    (hy : ofFloat y = .inf k) : (ofFloat (x / y)).IsZero := by
  obtain ⟨n, m, q, hxe⟩ := exists_of_isFinite hx
  change (ofFloat (Float.ofModel (Float.Model.pack (UnpackedFloat.div .binary64 x.toModel.unpack
    y.toModel.unpack)))).IsZero
  rw [ofFloat_eq] at hxe hy
  obtain ⟨t, ht, rfl⟩ := ofUnpacked_eq_inf hy
  rcases ofUnpacked_eq_finite hxe with ⟨s, hu, -⟩ | ⟨s, hm, hu, -⟩ <;>
    rw [hu, ht] <;> exact ⟨_, ofFloat_pack_zero _⟩

theorem zero_div {x y : Float} (hx : (ofFloat x).IsZero) (hy : ofFloat y ≠ .nan)
    (hy0 : (ofFloat y).rank ≠ 0) : (ofFloat (x / y)).IsZero := by
  obtain ⟨n, hxe⟩ := hx
  change (ofFloat (Float.ofModel (Float.Model.pack (UnpackedFloat.div .binary64 x.toModel.unpack
    y.toModel.unpack)))).IsZero
  rw [ofFloat_eq] at hxe hy hy0
  rcases ofUnpacked_eq_finite hxe with ⟨s, hu, -⟩ | ⟨s, hm, -, -, -⟩
  · rw [hu]
    cases hv : y.toModel.unpack with
    | notANumber => rw [hv] at hy; exact absurd rfl hy
    | zero s' => rw [hv] at hy0; cases s' <;> simp [ofUnpacked, rank] at hy0
    | infinity s' => exact ⟨_, ofFloat_pack_zero _⟩
    | finite s' m' e' hm' => exact ⟨_, ofFloat_pack_zero _⟩
  · omega

/-! ## The absolute value -/

theorem ofFloat_abs_finite {x : Float} {n : Bool} {m : Nat} {q : Int}
    (h : ofFloat x = .finite n m q) : ofFloat x.abs = .finite false m q := by
  have hc := canon_of_ofFloat h
  change ofFloat (Float.ofModel (Float.Model.pack x.toModel.unpack.abs)) = _
  rw [ofFloat_eq] at h
  rcases ofUnpacked_eq_finite h with ⟨s, hu, -, rfl, rfl⟩ | ⟨s, hm, hu, -⟩ <;> rw [hu]
  · exact ofFloat_pack_zero _
  · exact ofFloat_pack_canonical rfl hc

theorem ofFloat_abs_inf {x : Float} {n : Bool} (h : ofFloat x = .inf n) :
    ofFloat x.abs = .inf false := by
  change ofFloat (Float.ofModel (Float.Model.pack x.toModel.unpack.abs)) = _
  rw [ofFloat_eq] at h
  obtain ⟨s, hu, -⟩ := ofUnpacked_eq_inf h
  rw [hu]
  exact ofFloat_pack_infinity _

theorem rank_abs {x : Float} (h : ofFloat x ≠ .nan) :
    ofFloat x.abs ≠ .nan ∧ (ofFloat x.abs).rank = |(ofFloat x).rank| := by
  cases hx : ofFloat x with
  | nan => exact absurd hx h
  | inf n =>
    rw [ofFloat_abs_inf hx]
    cases n <;> simp [rank]
  | finite n m q =>
    have hq := (canon_of_ofFloat hx).1.1
    rw [ofFloat_abs_finite hx]
    refine ⟨by simp, ?_⟩
    have h0 : 0 ≤ (q + 1074) * 2^52 + (m : Int) := by omega
    cases n <;> simp only [rank, if_true, if_false, Bool.false_eq_true]
    · exact (abs_of_nonneg h0).symm
    · rw [abs_neg]; exact (abs_of_nonneg h0).symm

theorem abs_pairVal (n : Bool) (m : Nat) (q : Int) : |pairVal n m q| = pairVal false m q := by
  cases n
  · exact abs_of_nonneg (pairVal_false_nonneg m q)
  · rw [show pairVal true m q = -pairVal false m q from pairVal_not false m q, abs_neg]
    exact abs_of_nonneg (pairVal_false_nonneg m q)

theorem abs_lt_abs_of_toRat {x y : Float} (hx : (ofFloat x).isFinite = true)
    (hy : (ofFloat y).isFinite = true) (h : |(ofFloat x).toRat| < |(ofFloat y).toRat|) :
    x.abs < y.abs := by
  obtain ⟨n, m, q, hxe⟩ := exists_of_isFinite hx
  obtain ⟨n', m', q', hye⟩ := exists_of_isFinite hy
  have hax := ofFloat_abs_finite hxe
  have hay := ofFloat_abs_finite hye
  refine (lt_iff_rank _ _).mpr ⟨by rw [hax]; simp, by rw [hay]; simp, ?_⟩
  rw [hax, hay]
  by_contra hle
  have cx₀ := canon_of_ofFloat hxe
  have cy₀ := canon_of_ofFloat hye
  have cx : (Binary.finite false m q).Canonical := cx₀
  have cy : (Binary.finite false m' q').Canonical := cy₀
  have hv := toRat_le_of_rank_le cy cx (not_lt.mp hle)
  rw [hxe, hye, toRat_finite, toRat_finite, abs_pairVal, abs_pairVal] at h
  simp only [toRat_finite] at hv
  exact absurd h (not_lt.mpr hv)

end GridIndex.Binary
