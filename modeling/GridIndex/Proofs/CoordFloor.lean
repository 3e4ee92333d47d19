import GridIndex.Proofs.FloatQuotient
import GridIndex.Proofs.QueryMonotone

/-!
# The cell coordinate by division is a saturating floor

`Axis.coord` computes the quotient `t = (v - origin) / size`, truncates it toward zero with
saturation to the 32-bit range, and steps down once when `t` is negative and the truncation
lies above it. That is the floor of `t` in the 32-bit range (`Axis.coord_eq_floorWithin`):

* for a value not below zero, truncation is the floor (`truncWithin_of_nonneg`);
* for a negative value, truncation is the ceiling, and the ceiling lies above the value exactly
  when the value is not an integer, or lies below the range (`clamp_floor_of_ceil`); the
  comparison is exact, since the truncation converts to a float without rounding;
* NaN goes to `0` and an infinity to the end of the range on its side, as for the floor.
-/

namespace GridIndex

set_option autoImplicit false

open Binary

namespace Binary

theorem clamp_floor_of_ceil {lo hi : Int} (hlo : lo ≤ 0) (hhi : 0 ≤ hi) {r : ℚ} (hr : r < 0) :
    (if r < (clampInt lo hi ⌈r⌉ : ℚ) then max lo (clampInt lo hi ⌈r⌉ - 1)
      else clampInt lo hi ⌈r⌉) = clampInt lo hi ⌊r⌋ := by
  have h₁ := Int.floor_le_ceil r
  have h₂ := Int.ceil_le_floor_add_one r
  have hc0 : ⌈r⌉ ≤ 0 := Int.ceil_le.mpr (by simpa using hr.le)
  have hc : clampInt lo hi ⌈r⌉ = max lo ⌈r⌉ := by unfold clampInt; omega
  have hf : clampInt lo hi ⌊r⌋ = max lo ⌊r⌋ := by unfold clampInt; omega
  rw [hc, hf]
  split
  · next hlt =>
    have : ⌊r⌋ < max lo ⌈r⌉ := Int.floor_lt.mpr hlt
    omega
  · next hge =>
    have : max lo ⌈r⌉ ≤ ⌊r⌋ := Int.le_floor.mpr (not_lt.mp hge)
    omega

theorem truncWithin_of_nonneg {x : Float} {lo hi : Int} (hx : (ofFloat x).isFinite = true)
    (h0 : 0 ≤ (ofFloat x).toRat) : truncWithin lo hi x = clampInt lo hi ⌊(ofFloat x).toRat⌋ := by
  obtain ⟨n, m, q, hxe⟩ := exists_of_isFinite hx
  rw [hxe, toRat_finite] at h0
  simp only [truncWithin, hxe, toRat_finite]
  cases n
  · simp only [Bool.false_eq_true, if_false, floorMag_eq_floor, pairVal]
  · have hz : (m : ℚ) * 2^q = 0 := by
      simp only [pairVal] at h0
      exact le_antisymm (by linarith) (by positivity)
    simp only [if_true, floorMag_eq_floor, pairVal, hz, neg_zero, Int.floor_zero]

theorem truncWithin_of_neg {x : Float} {lo hi : Int} (hx : (ofFloat x).isFinite = true)
    (h0 : (ofFloat x).toRat < 0) : truncWithin lo hi x = clampInt lo hi ⌈(ofFloat x).toRat⌉ := by
  obtain ⟨n, m, q, hxe⟩ := exists_of_isFinite hx
  rw [hxe, toRat_finite] at h0
  simp only [truncWithin, hxe, toRat_finite]
  cases n
  · exact absurd h0 (not_lt.mpr (pairVal_false_nonneg m q))
  · simp only [if_true, floorMag_eq_floor, pairVal, Int.ceil_neg]

theorem lt_zero_iff_toRat {x : Float} (hx : (ofFloat x).isFinite = true) :
    x < 0.0 ↔ (ofFloat x).toRat < 0 := by
  rw [lt_iff_toRat hx isFinite_zero, toRat_zero]

end Binary

namespace Axis

theorem natAbs_clampInt_lt {c : Int} :
    (clampInt coordMin coordMax c).natAbs < 2^53 := by
  unfold clampInt coordMin coordMax
  omega

/-- The cell coordinate by division is the floor of the quotient in the 32-bit range. -/
theorem coord_eq_floorWithin (a : Axis) (v : Float) :
    a.coord v = floorWithin coordMin coordMax ((v - a.origin) / a.size) := by
  unfold coord
  generalize (v - a.origin) / a.size = t
  dsimp only
  cases ht : ofFloat t with
  | nan =>
    have hlt : ¬ t < 0.0 := fun h => ((lt_iff_rank _ _).mp h).1 ht
    simp [truncWithin, floorWithin, ht, hlt]
  | inf k =>
    cases k
    · have hlt : ¬ t < 0.0 := by
        rw [lt_iff_rank, ht, Layout.ofFloat_zero]
        simp [rank]
      simp [truncWithin, floorWithin, ht, hlt]
    · have hlt : t < 0.0 := by
        rw [lt_iff_rank, ht, Layout.ofFloat_zero]
        simp [rank]
      simp [truncWithin, floorWithin, ht, hlt, coordMin]
  | finite n m q =>
    have hf : (ofFloat t).isFinite = true := by rw [ht]; rfl
    rw [floorWithin_of_isFinite hf]
    by_cases hlt : t < 0.0
    · have hneg := (lt_zero_iff_toRat hf).mp hlt
      obtain ⟨hcf, hcv⟩ := toRat_ofInt
        (natAbs_clampInt_lt (c := ⌈(ofFloat t).toRat⌉))
      have hcmp : Float.ofInt (clampInt coordMin coordMax ⌈(ofFloat t).toRat⌉) > t ↔
          (ofFloat t).toRat < (clampInt coordMin coordMax ⌈(ofFloat t).toRat⌉ : ℚ) := by
        rw [GT.gt, lt_iff_toRat hf hcf, hcv]
      rw [truncWithin_of_neg hf hneg, ← clamp_floor_of_ceil (by decide) (by decide) hneg]
      simp only [hlt, decide_true, Bool.true_and, decide_eq_true_eq, hcmp]
    · have hnn : 0 ≤ (ofFloat t).toRat := not_lt.mp ((lt_zero_iff_toRat hf).not.mp hlt)
      rw [truncWithin_of_nonneg hf hnn]
      simp [hlt]

theorem coord_mono {a : Axis} (hsize : 0.0 < a.size) {v w : Float} (h : v ≤ w)
    (hv : ofFloat ((v - a.origin) / a.size) ≠ .nan)
    (hw : ofFloat ((w - a.origin) / a.size) ≠ .nan) : a.coord v ≤ a.coord w := by
  have hd : ofFloat (v - a.origin) ≠ .nan := fun hn => hv (nan_div hn)
  have hd' : ofFloat (w - a.origin) ≠ .nan := fun hn => hw (nan_div hn)
  have hq := div_le_div_of_ne_nan hsize (sub_le_sub_right_of_ne_nan h hd hd') hv hw
  rw [coord_eq_floorWithin, coord_eq_floorWithin]
  exact floorWithin_mono (by decide) hq

/-- The cell coordinate is the floor of the rounded quotient `t = (v - origin) / size` clamped to
the 32-bit signed range: `0` for NaN, the ends of the range for the infinities. Along an axis of
positive cell size it is monotone in the value wherever the quotients are not NaN. -/
theorem coord_saturating_floor (a : Axis) :
    (∀ v, ofFloat ((v - a.origin) / a.size) = .nan → a.coord v = 0) ∧
    (∀ v, ofFloat ((v - a.origin) / a.size) = .inf true → a.coord v = -2^31) ∧
    (∀ v, ofFloat ((v - a.origin) / a.size) = .inf false → a.coord v = 2^31 - 1) ∧
    (∀ v, (ofFloat ((v - a.origin) / a.size)).isFinite = true →
      a.coord v = max (-2^31) (min (2^31 - 1) ⌊(ofFloat ((v - a.origin) / a.size)).toRat⌋)) ∧
    (0.0 < a.size → ∀ v w, v ≤ w → ofFloat ((v - a.origin) / a.size) ≠ .nan →
      ofFloat ((w - a.origin) / a.size) ≠ .nan → a.coord v ≤ a.coord w) := by
  refine ⟨fun v ht => ?_, fun v ht => ?_, fun v ht => ?_, fun v ht => ?_,
    fun hsize v w h hv hw => coord_mono hsize h hv hw⟩ <;> rw [coord_eq_floorWithin]
  · simp [floorWithin, ht]
  · simp [floorWithin, ht, coordMin]
  · simp [floorWithin, ht, coordMax]
  · rw [floorWithin_of_isFinite ht]
    simp [clampInt, coordMin, coordMax]

theorem coord_saturating_floor_half :
    0.0 < (⟨0.0, 0.5, 4⟩ : Axis).size ∧
      (⟨0.0, 0.5, 4⟩ : Axis).coord (-0.25) ≤ (⟨0.0, 0.5, 4⟩ : Axis).coord 0.3 :=
  ⟨by decide, (coord_saturating_floor _).2.2.2.2 (by decide) _ _ (by decide) (by decide)
    (by decide)⟩

example : (⟨0.0, 1.0, 1⟩ : Axis).coord (-0.0) = 0 := by decide +kernel

end Axis

end GridIndex
