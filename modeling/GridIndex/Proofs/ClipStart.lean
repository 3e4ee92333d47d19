import GridIndex.Proofs.Interpolation
import GridIndex.Proofs.Safety

/-!
# The part of a segment inside a region starts at a finite point

A walk along the part of a segment inside a region takes its first step when the parameter of
the part's start along the part is below `1`. That parameter is a difference of the start with
itself over a difference of the two ends, read off one axis: a zero over a float that is not a
zero, as long as the start is finite, the end is not NaN and the two differ
(`param_start_lt_one`).

The ends of the part are candidates that `clip?` collects: ends of the segment inside the
region, which are finite, and crossings `s.p0 + (s.p1 - s.p0) · t` with the region's sides,
which can overflow. The one that starts the part has parameter along the segment below `1`, and
that keeps it finite (`finite_of_meet?`):

* along the axis the parameter is read from, an overflowing point would have parameter `+∞`;
* along the other axis, a displacement below `2^1019` cannot overflow;
* when both components of the displacement are `2^1019` or more, the finite cross products of
  an accepted crossing leave the side's start within `32` of the segment's start in each
  component, and the sides are axis-aligned, so the crossing parameter is at most `2^-1000`
  and the point lies within `2^25` of the segment's start (`abs_param_le_tiny`).
-/

namespace GridIndex

set_option autoImplicit false

open Binary

/-! ## Finite points and regions -/

/-- Both coordinates of a point are finite. -/
structure Point.Finite (p : Point) : Prop where
  x : (ofFloat p.x).isFinite = true
  y : (ofFloat p.y).isFinite = true

structure Point.NotNaN (p : Point) : Prop where
  x : ofFloat p.x ≠ .nan
  y : ofFloat p.y ≠ .nan

structure Vec.Finite (v : Vec) : Prop where
  x : (ofFloat v.x).isFinite = true
  y : (ofFloat v.y).isFinite = true

/-- The four coordinates of a rectangle are finite. -/
structure Rect.Finite (r : Rect) : Prop where
  x0 : (ofFloat r.x0).isFinite = true
  y0 : (ofFloat r.y0).isFinite = true
  x1 : (ofFloat r.x1).isFinite = true
  y1 : (ofFloat r.y1).isFinite = true

theorem Point.Finite.notNaN {p : Point} (h : p.Finite) : p.NotNaN :=
  ⟨ne_nan_of_isFinite h.x, ne_nan_of_isFinite h.y⟩

theorem isFinite_between {lo hi v : Float} (hlo : (ofFloat lo).isFinite = true)
    (hhi : (ofFloat hi).isFinite = true) (h₁ : lo ≤ v) (h₂ : v ≤ hi) :
    (ofFloat v).isFinite = true := by
  obtain ⟨-, hv, r₁⟩ := (le_iff_rank _ _).mp h₁
  obtain ⟨-, -, r₂⟩ := (le_iff_rank _ _).mp h₂
  obtain ⟨n, m, q, hloe⟩ := exists_of_isFinite hlo
  obtain ⟨n', m', q', hhie⟩ := exists_of_isFinite hhi
  have b₁ := rank_finite_bounds (canon_of_ofFloat hloe)
  have b₂ := rank_finite_bounds (canon_of_ofFloat hhie)
  rw [← hloe] at b₁
  rw [← hhie] at b₂
  exact isFinite_of_rank hv (by omega) (by omega)

theorem Rect.Finite.contains {r : Rect} (hr : r.Finite) {p : Point} (h : r.contains p = true) :
    p.Finite := by
  obtain ⟨h₁, h₂, h₃, h₄⟩ := (r.contains_iff p).mp h
  exact ⟨isFinite_between hr.x0 hr.x1 h₁ h₃, isFinite_between hr.y0 hr.y1 h₂ h₄⟩

theorem Rect.finite_of_extents {r : Rect} (hw : (ofFloat r.width).isFinite = true)
    (hh : (ofFloat r.height).isFinite = true) : r.Finite :=
  ⟨(isFinite_of_sub hw).2, (isFinite_of_sub hh).2, (isFinite_of_sub hw).1, (isFinite_of_sub hh).1⟩

theorem Layout.region_finite {region : Rect} {cw ch : Float} {l : Layout}
    (h : Layout.new region cw ch = .ok l) : l.region.Finite := by
  obtain ⟨-, -, hw, hh, hr, -⟩ := Layout.new_eq_ok h
  simp only [finitePositive, Bool.and_eq_true] at hw hh
  rw [hr]
  exact Rect.finite_of_extents (by rw [← isFinite_ofFloat]; exact hw.1)
    (by rw [← isFinite_ofFloat]; exact hh.1)

/-! ## The sides of a finite region -/

/-- One component of the displacement of a segment is a zero: the segment is horizontal or
vertical. -/
def Segment.AxisAligned (s : Segment) : Prop :=
  (ofFloat s.delta.x).IsZero ∨ (ofFloat s.delta.y).IsZero

theorem isZero_zero : (ofFloat 0.0).IsZero := ⟨false, Layout.ofFloat_zero⟩

theorem isFinite_add_zero {x : Float} (hx : (ofFloat x).isFinite = true) :
    (ofFloat (x + 0.0)).isFinite = true := by
  obtain ⟨hn, h⟩ := roundsTo_add hx isFinite_zero
  refine isFinite_of_roundsTo hn h ?_
  rw [toRat_zero, add_zero]
  exact (abs_toRat_le hx).trans (le_add_of_nonneg_right (by positivity))

theorem Rect.Finite.axisAligned {r : Rect} (hr : r.Finite) :
    ∀ side ∈ r.paddedSides Vec.zero, side.1.AxisAligned := by
  have h₀ (x : Float) (hx : (ofFloat x).isFinite = true) : (ofFloat (x - 0.0)).isFinite = true :=
    (toRat_sub_isZero hx isZero_zero).1
  intro side hside
  simp only [paddedSides, List.mem_cons, List.not_mem_nil, or_false] at hside
  rcases hside with rfl | rfl | rfl | rfl
  · exact Or.inr (isZero_sub_self (h₀ _ hr.y0))
  · exact Or.inl (isZero_sub_self (isFinite_add_zero hr.x1))
  · exact Or.inr (isZero_sub_self (isFinite_add_zero hr.y1))
  · exact Or.inl (isZero_sub_self (h₀ _ hr.x0))

/-! ## Accepted crossings -/

theorem rank_ne_zero_of_beq_zero {x : Float} (hx : ofFloat x ≠ .nan) (h : (x == 0.0) = false) :
    (ofFloat x).rank ≠ 0 := by
  intro h0
  have : (x == 0.0) = true := (beq_iff_rank _ _).mpr
    ⟨hx, by rw [Layout.ofFloat_zero]; simp, by rw [h0, Layout.ofFloat_zero]; rfl⟩
  rw [h] at this
  cases this

namespace Segment

theorem inUnit_spec {t : Float} (h : inUnit t = true) :
    (ofFloat t).isFinite = true ∧ 0 ≤ (ofFloat t).toRat ∧ (ofFloat t).toRat ≤ 1 := by
  simp only [inUnit, Bool.and_eq_true, decide_eq_true_eq] at h
  obtain ⟨h₀, h₁⟩ := h
  have hf := isFinite_between isFinite_zero (by decide) h₀ h₁
  refine ⟨hf, ?_, ?_⟩
  · have := toRat_le_of_le isFinite_zero hf h₀
    rwa [toRat_zero] at this
  · have := toRat_le_of_le hf (by decide) h₁
    rwa [toRat_one] at this

variable {a b : Segment} {p : Point}

theorem meet?_eq_some (h : a.meet? b = some p) :
    (a.delta.cross b.delta == 0.0) = false ∧
    inUnit ((b.p0 - a.p0).cross b.delta / a.delta.cross b.delta) = true ∧
    inUnit ((b.p0 - a.p0).cross a.delta / a.delta.cross b.delta) = true ∧
    p = a.p0 + a.delta.scale ((b.p0 - a.p0).cross b.delta / a.delta.cross b.delta) := by
  unfold meet? at h
  dsimp only at h
  split at h
  · cases h
  rename_i hd
  split at h
  · cases h
  rename_i ht
  split at h
  · cases h
  rename_i hu
  injection h with h
  simp only [Bool.not_eq_true', Bool.not_eq_false] at hd ht hu
  exact ⟨by simpa using hd, by simpa using ht, by simpa using hu, h.symm⟩

theorem finite_parts_of_meet? (h : a.meet? b = some p) :
    a.p0.Finite ∧ a.delta.Finite ∧ (b.p0 - a.p0).Finite := by
  obtain ⟨-, -, hu, -⟩ := meet?_eq_some h
  obtain ⟨hn, -⟩ := isFinite_of_div (inUnit_spec hu).1
  obtain ⟨h₁, h₂⟩ := isFinite_of_sub hn
  obtain ⟨hacx, haby⟩ := isFinite_of_mul h₁
  obtain ⟨hacy, habx⟩ := isFinite_of_mul h₂
  exact ⟨⟨(isFinite_of_sub hacx).2, (isFinite_of_sub hacy).2⟩, ⟨habx, haby⟩, ⟨hacx, hacy⟩⟩

theorem notNaN_of_meet? (h : a.meet? b = some p) : p.NotNaN := by
  obtain ⟨-, ht, -, rfl⟩ := meet?_eq_some h
  obtain ⟨htf, ht0, ht1⟩ := inUnit_spec ht
  obtain ⟨hp, hab, -⟩ := finite_parts_of_meet? h
  have ht' : |(ofFloat ((b.p0 - a.p0).cross b.delta / a.delta.cross b.delta)).toRat| ≤ 1 :=
    abs_le.mpr ⟨by linarith, ht1⟩
  exact ⟨(roundsTo_add hp.x (isFinite_mul_of_abs_le_one hab.x htf ht')).1,
    (roundsTo_add hp.y (isFinite_mul_of_abs_le_one hab.y htf ht')).1⟩

/-- Against an axis-aligned segment, a crossing along a displacement whose components are both
`2^1019` or more in magnitude has parameter at most `2^-1000`. -/
theorem abs_param_le_tiny (h : a.meet? b = some p) (hb : b.AxisAligned)
    (hx : 2^(1019 : Int) ≤ |(ofFloat a.delta.x).toRat|)
    (hy : 2^(1019 : Int) ≤ |(ofFloat a.delta.y).toRat|) :
    |(ofFloat ((b.p0 - a.p0).cross b.delta / a.delta.cross b.delta)).toRat| ≤ 2^(-1000 : Int) := by
  obtain ⟨hd, ht, hu, -⟩ := meet?_eq_some h
  obtain ⟨-, hab, hac⟩ := finite_parts_of_meet? h
  obtain ⟨hnu, -⟩ := isFinite_of_div (inUnit_spec hu).1
  obtain ⟨hu₁, hu₂⟩ := isFinite_of_sub hnu
  have hacx := abs_lt_of_mul_large hu₁ hy
  have hacy := abs_lt_of_mul_large hu₂ hx
  obtain ⟨hnt, hD⟩ := isFinite_of_div (inUnit_spec ht).1
  obtain ⟨ht₁, ht₂⟩ := isFinite_of_sub hnt
  have hD0 := rank_ne_zero_of_beq_zero hD hd
  rcases hb with hz | hz
  · have hc := (isFinite_of_mul ht₁).2
    have hz₁ := isZero_mul_right hac.y hz
    have hz₂ := isZero_mul_right hab.y hz
    have hc0 : (ofFloat b.delta.y).rank ≠ 0 := by
      intro h0
      have hzc := isZero_of_rank (canonical_ofFloat (ne_nan_of_isFinite hc)) hc h0
      obtain ⟨hn, hs⟩ := roundsTo_sub (isFinite_of_isZero (isZero_mul_right hab.x hzc))
        (isFinite_of_isZero hz₂)
      rw [toRat_of_isZero (isZero_mul_right hab.x hzc), toRat_of_isZero hz₂, sub_zero] at hs
      exact hD0 (rank_of_isZero (isZero_of_roundsTo_zero hn hs))
    refine (abs_div_le_tiny (lt_of_lt_of_le (by positivity) (least_le_abs_toRat hc hc0)) hnt hD
      hD0 ?_ fun hDf => ?_).2
    · rw [Vec.cross, (toRat_sub_isZero ht₁ hz₁).2]
      exact abs_mul_le_small ht₁ hacx hc0
    · have hf := (isFinite_of_sub hDf).1
      rw [Vec.cross, (toRat_sub_isZero hf hz₂).2]
      exact le_abs_mul_large hf hx hc0
  · have hc := (isFinite_of_mul ht₂).2
    have hz₁ := isZero_mul_right hac.x hz
    have hz₂ := isZero_mul_right hab.x hz
    have hc0 : (ofFloat b.delta.x).rank ≠ 0 := by
      intro h0
      have hzc := isZero_of_rank (canonical_ofFloat (ne_nan_of_isFinite hc)) hc h0
      obtain ⟨hn, hs⟩ := roundsTo_sub (isFinite_of_isZero hz₂)
        (isFinite_of_isZero (isZero_mul_right hab.y hzc))
      rw [toRat_of_isZero (isZero_mul_right hab.y hzc), toRat_of_isZero hz₂, sub_zero] at hs
      exact hD0 (rank_of_isZero (isZero_of_roundsTo_zero hn hs))
    refine (abs_div_le_tiny (lt_of_lt_of_le (by positivity) (least_le_abs_toRat hc hc0)) hnt hD
      hD0 ?_ fun hDf => ?_).2
    · rw [Vec.cross, (toRat_isZero_sub hz₁ ht₂).2, abs_neg]
      exact abs_mul_le_small ht₂ hacy hc0
    · have hf := (isFinite_of_sub hDf).2
      rw [Vec.cross, (toRat_isZero_sub hz₂ hf).2, abs_neg]
      exact le_abs_mul_large hf hy hc0

/-- A crossing with an axis-aligned segment whose parameter along the first segment is below
`1` is finite. -/
theorem finite_of_meet? (h : a.meet? b = some p) (hb : b.AxisAligned) (hp : a.param p < 1.0) :
    p.Finite := by
  obtain ⟨-, ht, -, rfl⟩ := meet?_eq_some h
  obtain ⟨htf, ht0, ht1⟩ := inUnit_spec ht
  obtain ⟨h₀, hab, -⟩ := finite_parts_of_meet? h
  have hx₁ := (isFinite_of_sub (x := a.p1.x) (y := a.p0.x) hab.x).1
  have hy₁ := (isFinite_of_sub (x := a.p1.y) (y := a.p0.y) hab.y).1
  unfold param at hp
  by_cases hsx : |(ofFloat a.delta.x).toRat| < 2^(1019 : Int) <;>
    by_cases hsy : |(ofFloat a.delta.y).toRat| < 2^(1019 : Int)
  · exact ⟨isFinite_lerp h₀.x hx₁ hab.x hsx htf ht0 ht1, isFinite_lerp h₀.y hy₁ hab.y hsy htf ht0 ht1⟩
  · have hlt : ¬ (a.p1.x - a.p0.x).abs > (a.p1.y - a.p0.y).abs := by
      have := abs_lt_abs_of_toRat hab.x hab.y (lt_of_lt_of_le hsx (not_lt.mp hsy))
      obtain ⟨-, -, h₁⟩ := (lt_iff_rank _ _).mp this
      intro h₂
      obtain ⟨-, -, h₃⟩ := (lt_iff_rank _ _).mp h₂
      exact absurd (lt_trans h₁ h₃) (lt_irrefl _)
    rw [if_neg hlt] at hp
    refine ⟨isFinite_lerp h₀.x hx₁ hab.x hsx htf ht0 ht1, ?_⟩
    by_contra hy
    exact not_div_lt_one h₀.y hab.y htf ht0 ht1 (Bool.eq_false_iff.mpr hy) hp
  · have hlt : (a.p1.x - a.p0.x).abs > (a.p1.y - a.p0.y).abs :=
      abs_lt_abs_of_toRat hab.y hab.x (lt_of_lt_of_le hsy (not_lt.mp hsx))
    rw [if_pos hlt] at hp
    refine ⟨?_, isFinite_lerp h₀.y hy₁ hab.y hsy htf ht0 ht1⟩
    by_contra hx
    exact not_div_lt_one h₀.x hab.x htf ht0 ht1 (Bool.eq_false_iff.mpr hx) hp
  · have htiny := abs_param_le_tiny h hb (not_lt.mp hsx) (not_lt.mp hsy)
    exact ⟨isFinite_add_mul_tiny h₀.x hab.x htf htiny, isFinite_add_mul_tiny h₀.y hab.y htf htiny⟩

end Segment

/-! ## The extremes `clip?` keeps -/

namespace Extremes

/-- Each extreme kept is one of the candidates `cs`, and the least parameter is the parameter
along `s` of the candidate kept with it. -/
structure Drawn (s : Segment) (cs : List Point) (e : Extremes) : Prop where
  low : ∀ p, e.lowAt = some p → p ∈ cs ∧ e.low = s.param p
  high : ∀ q, e.highAt = some q → q ∈ cs

variable {s : Segment} {cs : List Point}

theorem drawn_empty : empty.Drawn s cs where
  low _ h := by cases h
  high _ h := by cases h

theorem Drawn.note {e : Extremes} (h : e.Drawn s cs) {p : Point} (hp : p ∈ cs) :
    (e.note (s.param p) p).Drawn s cs := by
  obtain ⟨hlow, hhigh⟩ := h
  have hnew : ∀ q, some p = some q → q ∈ cs := by
    intro q hq
    cases hq
    exact hp
  by_cases hlt : s.param p < e.low <;> by_cases hgt : e.high < s.param p
  · simp only [Extremes.note, hlt, hgt, ↓reduceIte]
    exact ⟨fun q hq => by cases hq; exact ⟨hp, rfl⟩, hnew⟩
  · simp only [Extremes.note, hlt, hgt, ↓reduceIte]
    exact ⟨fun q hq => by cases hq; exact ⟨hp, rfl⟩, hhigh⟩
  · simp only [Extremes.note, hlt, hgt, ↓reduceIte]
    exact ⟨hlow, hnew⟩
  · simp only [Extremes.note, hlt, hgt, ↓reduceIte]
    exact ⟨hlow, hhigh⟩

theorem Drawn.foldl : ∀ (ps : List Point) {e : Extremes}, (∀ p ∈ ps, p ∈ cs) → e.Drawn s cs →
    (ps.foldl (fun e p => e.note (s.param p) p) e).Drawn s cs
  | [], _, _, h => h
  | p :: ps, _, hps, h =>
    Drawn.foldl ps (fun q hq => hps q (List.mem_cons_of_mem p hq)) (h.note (hps p List.mem_cons_self))

theorem span?_eq_some {e : Extremes} {p q : Point} (h : e.span? = some ⟨p, q⟩) :
    e.lowAt = some p ∧ e.highAt = some q ∧ e.low < 1.0 := by
  unfold span? at h
  split at h
  · rename_i p₀ p₁ hl hh
    split at h
    · rename_i hc
      injection h with h
      injection h with h₀ h₁
      subst h₀ h₁
      simp only [Bool.and_eq_true, decide_eq_true_eq] at hc
      exact ⟨hl, hh, hc.1⟩
    · cases h
  · cases h

end Extremes

namespace Rect

theorem mem_clipCandidates {r : Rect} {s : Segment} {p : Point} (h : p ∈ r.clipCandidates s) :
    (∃ side ∈ r.paddedSides Vec.zero, s.meet? side.1 = some p) ∨ r.contains p = true := by
  unfold clipCandidates at h
  simp only [List.mem_append, List.mem_map] at h
  rcases h with (⟨x, hx, rfl⟩ | h) | h
  · left
    obtain ⟨⟨side, dx, dy⟩, hside, hx⟩ := List.mem_filterMap.mp hx
    obtain ⟨p', hp', rfl⟩ := Option.map_eq_some_iff.mp hx
    exact ⟨(side, dx, dy), hside, hp'⟩
  · split at h
    · rename_i hc
      rw [List.mem_singleton.mp h]
      exact Or.inr hc
    · cases h
  · split at h
    · rename_i hc
      rw [List.mem_singleton.mp h]
      exact Or.inr hc
    · cases h

end Rect

/-! ## The first step of the walk -/

theorem lt_one_of_isZero {z : Float} (h : (ofFloat z).IsZero) : z < 1.0 := by
  refine (lt_iff_rank _ _).mpr ⟨ne_nan_of_isFinite (isFinite_of_isZero h), by decide, ?_⟩
  rw [rank_of_isZero h, rank_one]
  decide

theorem beq_comm_float {x y : Float} (h : (x == y) = true) : (y == x) = true := by
  obtain ⟨hx, hy, hr⟩ := (beq_iff_rank x y).mp h
  exact (beq_iff_rank y x).mpr ⟨hy, hx, hr.symm⟩

theorem param_axis {p q : Point} (hp : p.Finite) (hq : q.NotNaN) (hpq : (p == q) = false) :
    ((q.x - p.x).abs > (q.y - p.y).abs ∧ (ofFloat (q.x - p.x)).rank ≠ 0) ∨
      (¬ (q.x - p.x).abs > (q.y - p.y).abs ∧ (ofFloat (q.y - p.y)).rank ≠ 0) := by
  have hdx := sub_ne_nan hq.x hp.x
  have hdy := sub_ne_nan hq.y hp.y
  obtain ⟨hax, hrx⟩ := rank_abs hdx
  obtain ⟨hay, hry⟩ := rank_abs hdy
  by_cases hgt : (q.x - p.x).abs > (q.y - p.y).abs
  · refine .inl ⟨hgt, fun h0 => ?_⟩
    obtain ⟨-, -, hr⟩ := (lt_iff_rank _ _).mp hgt
    rw [hrx, hry, h0, abs_zero] at hr
    exact absurd hr (not_lt.mpr (abs_nonneg _))
  · refine .inr ⟨hgt, fun h0 => ?_⟩
    have hle := le_of_not_lt_float hay hax hgt
    obtain ⟨-, -, hr⟩ := (le_iff_rank _ _).mp hle
    rw [hrx, hry, h0, abs_zero] at hr
    have hx0 : (ofFloat (q.x - p.x)).rank = 0 := abs_nonpos_iff.mp hr
    have hbx := beq_comm_float (beq_of_sub_rank_zero hq.x hp.x hx0)
    have hby := beq_comm_float (beq_of_sub_rank_zero hq.y hp.y h0)
    have : (p == q) = true := by
      show (p.x == q.x && p.y == q.y) = true
      rw [hbx, hby]
      rfl
    rw [hpq] at this
    cases this

/-- A walk from a finite start towards an end that is not NaN and differs from it takes its
first step: along the axis the parameter is read from, the difference of the ends is not a
zero, so the start's parameter, a zero over it, is a zero. -/
theorem param_start_lt_one {p q : Point} (hp : p.Finite) (hq : q.NotNaN)
    (hpq : (p == q) = false) : Segment.param ⟨p, q⟩ p < 1.0 := by
  unfold Segment.param
  dsimp only
  rcases param_axis hp hq hpq with ⟨hgt, hx0⟩ | ⟨hgt, hy0⟩
  · rw [if_pos hgt]
    exact lt_one_of_isZero (zero_div (isZero_sub_self hp.x) (sub_ne_nan hq.x hp.x) hx0)
  · rw [if_neg hgt]
    exact lt_one_of_isZero (zero_div (isZero_sub_self hp.y) (sub_ne_nan hq.y hp.y) hy0)

theorem Rect.Finite.param_clip_lt_one {r : Rect} (hr : r.Finite) {s : Segment} {p q : Point}
    (h : r.clip? s = some ⟨p, q⟩) (hpq : (p == q) = false) : Segment.param ⟨p, q⟩ p < 1.0 := by
  rw [Rect.clip?_eq] at h
  split at h
  · rename_i hs
    split at h
    · injection h with h
      subst h
      change (p == q) = true at hs
      rw [hpq] at hs
      cases hs
    · cases h
  · obtain ⟨hlow, hhigh, hlt⟩ := Extremes.span?_eq_some h
    have hd : (r.extremes s).Drawn s (r.clipCandidates s) :=
      Extremes.Drawn.foldl _ (fun _ hp => hp) Extremes.drawn_empty
    obtain ⟨hpc, hpar⟩ := hd.low p hlow
    rw [hpar] at hlt
    have hpf : p.Finite := by
      rcases Rect.mem_clipCandidates hpc with ⟨side, hside, hm⟩ | hc
      · exact Segment.finite_of_meet? hm (hr.axisAligned side hside) hlt
      · exact hr.contains hc
    have hqn : q.NotNaN := by
      rcases Rect.mem_clipCandidates (hd.high q hhigh) with ⟨side, -, hm⟩ | hc
      · exact Segment.notNaN_of_meet? hm
      · exact (hr.contains hc).notNaN
    exact param_start_lt_one hpf hqn hpq

end GridIndex
