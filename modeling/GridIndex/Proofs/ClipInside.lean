import GridIndex.Proofs.ClipStart

/-!
# A segment with both ends in the region keeps a part

In a region whose width and height are finite, a segment with both ends in the region keeps a
part under `Rect.clip?` (`Rect.clip?_ends_inside`). A segment that is a single point is kept
whole. Otherwise its ends are among the candidates. The start has parameter a zero, below `1`,
and the end has parameter the difference along the axis of larger movement divided by itself,
above `0` (`Segment.param_end_pos`). The extremes that `clip?` keeps are then both set
(`Extremes.Settled`).

The differences of the ends stay within the region's extents, so they are finite
(`isFinite_sub_of_between`). Where an extent overflows, the end's parameter is `∞ / ∞`, which
is NaN and never the greatest.

Nothing more is promised of the part: its ends are candidates rounded on the way, and one
that lies outside the region, or a crossing missed on a side the segment meets at a corner,
can leave a segment that crosses the region with no part.
-/

namespace GridIndex

set_option autoImplicit false

open Binary

theorem Binary.toRat_half : (ofFloat 0.5).toRat = 1 / 2 := by
  rw [show ofFloat 0.5 = .finite false (2^52) (-53) by decide]
  norm_num [pairVal]

theorem Binary.toRat_ne_zero {x : Float} (hx : (ofFloat x).isFinite = true)
    (h0 : (ofFloat x).rank ≠ 0) : (ofFloat x).toRat ≠ 0 := by
  intro hz
  have hr := roundsTo_toRat hx
  rw [hz] at hr
  exact h0 (hr.unique roundsTo_zero)

theorem Binary.div_self_pos {x : Float} (hx : (ofFloat x).isFinite = true)
    (h0 : (ofFloat x).rank ≠ 0) : 0.0 < x / x := by
  obtain ⟨hn, d, hd, hr⟩ := roundsTo_div hx hx h0
  rw [div_self (toRat_ne_zero hx h0), abs_one] at hd
  have hhalf : (1 : ℚ) / 2 ≤ d := by
    have h52 : (1 : ℚ) / 2^52 ≤ 1 / 4 := by norm_num
    have h1074 : (2 : ℚ)^(-1074 : Int) ≤ 1 / 4 :=
      calc (2 : ℚ)^(-1074 : Int) ≤ 2^(-2 : Int) := zpow_le_zpow_right₀ (by norm_num) (by norm_num)
        _ = 1 / 4 := by norm_num
    linarith [(abs_le.mp hd).1]
  have hk : (ofFloat 0.5).rank ≤ (ofFloat (x / x)).rank := by
    have h : RoundsTo (ofFloat 0.5).toRat (ofFloat 0.5).rank := roundsTo_toRat (by decide)
    rw [toRat_half] at h
    exact h.mono hr hhalf
  refine (lt_iff_rank _ _).mpr ⟨by decide, hn, ?_⟩
  rw [Layout.ofFloat_zero]
  exact lt_of_lt_of_le (by decide) hk

theorem isFinite_sub_of_between {lo hi u v : Float} (hw : (ofFloat (hi - lo)).isFinite = true)
    (hu : lo ≤ u ∧ u ≤ hi) (hv : lo ≤ v ∧ v ≤ hi) : (ofFloat (v - u)).isFinite = true := by
  obtain ⟨hhi, hlo⟩ := isFinite_of_sub hw
  have hu' := isFinite_between hlo hhi hu.1 hu.2
  have hv' := isFinite_between hlo hhi hv.1 hv.2
  obtain ⟨hn, hd⟩ := roundsTo_sub hv' hu'
  obtain ⟨-, hW⟩ := roundsTo_sub hhi hlo
  have hu₁ := toRat_le_of_le hlo hu' hu.1
  have hu₂ := toRat_le_of_le hu' hhi hu.2
  have hv₁ := toRat_le_of_le hlo hv' hv.1
  have hv₂ := toRat_le_of_le hv' hhi hv.2
  have hup := hd.mono hW (by linarith)
  have hdown := hW.neg.mono hd (by linarith)
  obtain ⟨n, m, q, he⟩ := exists_of_isFinite hw
  have hb := rank_finite_bounds (canon_of_ofFloat he)
  rw [← he] at hb
  exact isFinite_of_rank hn (by omega) (by omega)

namespace Extremes

/-- Each extreme is set exactly when it has moved past its start: the least parameter lies at
most at `1`, and below it once set; the greatest at least at `0`, and above it once set. -/
structure Settled (e : Extremes) : Prop where
  low_le : e.low ≤ 1.0
  lowAt_isSome : e.lowAt.isSome ↔ e.low < 1.0
  le_high : 0.0 ≤ e.high
  highAt_isSome : e.highAt.isSome ↔ 0.0 < e.high

theorem settled_empty : empty.Settled where
  low_le := by decide
  lowAt_isSome := by decide
  le_high := by decide
  highAt_isSome := by decide

variable {e : Extremes} {t : Float} {p : Point}

theorem note_low : (e.note t p).low = if t < e.low then t else e.low := by
  by_cases h₁ : t < e.low <;> by_cases h₂ : e.high < t <;> simp [note, h₁, h₂]

theorem note_high : (e.note t p).high = if e.high < t then t else e.high := by
  by_cases h₁ : t < e.low <;> by_cases h₂ : e.high < t <;> simp [note, h₁, h₂]

theorem Settled.note (h : e.Settled) : (e.note t p).Settled := by
  obtain ⟨hlow, hlowAt, hhigh, hhighAt⟩ := h
  -- each extreme moves only to a parameter past it, hence past its start
  by_cases hlt : t < e.low <;> by_cases hgt : e.high < t
  · simp only [Extremes.note, hlt, hgt, ↓reduceIte, GT.gt]
    have h₁ := lt_of_lt_of_le_float hlt hlow
    have h₂ := lt_of_le_of_lt_float hhigh hgt
    exact ⟨le_of_lt_float h₁, by simpa using h₁, le_of_lt_float h₂, by simpa using h₂⟩
  · simp only [Extremes.note, hlt, hgt, ↓reduceIte, GT.gt]
    have h₁ := lt_of_lt_of_le_float hlt hlow
    exact ⟨le_of_lt_float h₁, by simpa using h₁, hhigh, hhighAt⟩
  · simp only [Extremes.note, hlt, hgt, ↓reduceIte, GT.gt]
    have h₂ := lt_of_le_of_lt_float hhigh hgt
    exact ⟨hlow, hlowAt, le_of_lt_float h₂, by simpa using h₂⟩
  · simp only [Extremes.note, hlt, hgt, ↓reduceIte, GT.gt]
    exact ⟨hlow, hlowAt, hhigh, hhighAt⟩

theorem Settled.lowAt_note (h : e.Settled) (ht : t < 1.0) : (e.note t p).lowAt.isSome := by
  have hs : (e.note t p).Settled := h.note
  refine hs.lowAt_isSome.mpr ?_
  rw [note_low]
  split
  · exact ht
  · rename_i hlt
    exact lt_of_le_of_lt_float (le_of_not_lt_float (ne_nan_of_le_left (le_of_lt_float ht))
      (ne_nan_of_le_left h.low_le) hlt) ht

theorem Settled.highAt_note (h : e.Settled) (ht : 0.0 < t) : (e.note t p).highAt.isSome := by
  have hs : (e.note t p).Settled := h.note
  refine hs.highAt_isSome.mpr ?_
  rw [note_high]
  split
  · exact ht
  · rename_i hgt
    exact lt_of_lt_of_le_float ht (le_of_not_lt_float (ne_nan_of_le_right h.le_high)
      (ne_nan_of_le_right (le_of_lt_float ht)) hgt)

theorem lowAt_note (h : e.lowAt.isSome) : (e.note t p).lowAt.isSome := by
  simp only [Extremes.note]
  split <;> split <;> simp_all

theorem highAt_note (h : e.highAt.isSome) : (e.note t p).highAt.isSome := by
  simp only [Extremes.note]
  split <;> split <;> simp_all

variable {s : Segment}

theorem Settled.foldl : ∀ (ps : List Point) {e : Extremes}, e.Settled →
    (ps.foldl (fun e p => e.note (s.param p) p) e).Settled
  | [], _, h => h
  | _ :: ps, _, h => Settled.foldl ps h.note

theorem lowAt_foldl : ∀ (ps : List Point) {e : Extremes}, e.lowAt.isSome →
    (ps.foldl (fun e p => e.note (s.param p) p) e).lowAt.isSome
  | [], _, h => h
  | _ :: ps, _, h => lowAt_foldl ps (lowAt_note h)

theorem highAt_foldl : ∀ (ps : List Point) {e : Extremes}, e.highAt.isSome →
    (ps.foldl (fun e p => e.note (s.param p) p) e).highAt.isSome
  | [], _, h => h
  | _ :: ps, _, h => highAt_foldl ps (highAt_note h)

theorem lowAt_foldl_of_mem : ∀ (ps : List Point) {e : Extremes} {p : Point}, e.Settled →
    p ∈ ps → s.param p < 1.0 → (ps.foldl (fun e p => e.note (s.param p) p) e).lowAt.isSome
  | q :: ps, _, _, h, hp, ht => by
    rcases List.mem_cons.mp hp with rfl | hp
    · exact lowAt_foldl ps (h.lowAt_note ht)
    · exact lowAt_foldl_of_mem ps h.note hp ht

theorem highAt_foldl_of_mem : ∀ (ps : List Point) {e : Extremes} {p : Point}, e.Settled →
    p ∈ ps → 0.0 < s.param p → (ps.foldl (fun e p => e.note (s.param p) p) e).highAt.isSome
  | q :: ps, _, _, h, hp, ht => by
    rcases List.mem_cons.mp hp with rfl | hp
    · exact highAt_foldl ps (h.highAt_note ht)
    · exact highAt_foldl_of_mem ps h.note hp ht

theorem Settled.span?_isSome (h : e.Settled) (hl : e.lowAt.isSome) (hh : e.highAt.isSome) :
    e.span?.isSome := by
  have h₁ := h.lowAt_isSome.mp hl
  have h₂ := h.highAt_isSome.mp hh
  obtain ⟨p, hp⟩ := Option.isSome_iff_exists.mp hl
  obtain ⟨q, hq⟩ := Option.isSome_iff_exists.mp hh
  simp [span?, hp, hq, h₁, h₂]

end Extremes

namespace Segment

/-- The end of a segment with distinct ends and a finite displacement has a positive parameter:
along the axis it is read from, the displacement divided by itself. -/
theorem param_end_pos {p q : Point} (hp : p.Finite) (hd : (q - p).Finite) (hpq : (p == q) = false) :
    0.0 < Segment.param ⟨p, q⟩ q := by
  have hq : q.NotNaN :=
    ⟨ne_nan_of_isFinite (isFinite_of_sub hd.x).1, ne_nan_of_isFinite (isFinite_of_sub hd.y).1⟩
  unfold Segment.param
  dsimp only
  rcases param_axis hp hq hpq with ⟨hgt, hx0⟩ | ⟨hgt, hy0⟩
  · rw [if_pos hgt]
    exact div_self_pos hd.x hx0
  · rw [if_neg hgt]
    exact div_self_pos hd.y hy0

end Segment

namespace Rect

variable {r : Rect}

theorem sub_finite_of_contains (hw : (ofFloat r.width).isFinite = true)
    (hh : (ofFloat r.height).isFinite = true) {p q : Point} (hp : r.contains p = true)
    (hq : r.contains q = true) : (q - p).Finite := by
  obtain ⟨hp₁, hp₂, hp₃, hp₄⟩ := (r.contains_iff p).mp hp
  obtain ⟨hq₁, hq₂, hq₃, hq₄⟩ := (r.contains_iff q).mp hq
  exact ⟨isFinite_sub_of_between hw ⟨hp₁, hp₃⟩ ⟨hq₁, hq₃⟩,
    isFinite_sub_of_between hh ⟨hp₂, hp₄⟩ ⟨hq₂, hq₄⟩⟩

/-- What `clip?` keeps of a segment with both ends in a region of finite extents: a segment
that is a single point is kept whole exactly when the point lies in the region, and a segment
with both ends in the region always keeps a part. -/
theorem clip?_ends_inside (hw : (ofFloat r.width).isFinite = true)
    (hh : (ofFloat r.height).isFinite = true) :
    (∀ s : Segment, (s.p0 == s.p1) = true → (r.clip? s = some s ↔ r.contains s.p0 = true)) ∧
      ∀ s : Segment, r.contains s.p0 = true → r.contains s.p1 = true → (r.clip? s).isSome := by
  refine ⟨fun s hs => ?_, fun s h₀ h₁ => ?_⟩
  · rw [clip?_eq, if_pos hs]
    by_cases hc : r.contains s.p0 = true <;> simp [hc]
  rw [clip?_eq]
  by_cases hs : (s.p0 == s.p1) = true
  · rw [if_pos hs, if_pos h₀]
    rfl
  rw [if_neg hs]
  have hpq : (s.p0 == s.p1) = false := Bool.eq_false_iff.mpr hs
  have hr := finite_of_extents hw hh
  have hp := hr.contains h₀
  have hd := sub_finite_of_contains hw hh h₀ h₁
  have hm₀ : s.p0 ∈ r.clipCandidates s := by simp [clipCandidates, h₀]
  have hm₁ : s.p1 ∈ r.clipCandidates s := by simp [clipCandidates, h₁]
  have ht₀ : s.param s.p0 < 1.0 :=
    param_start_lt_one hp (hr.contains h₁).notNaN hpq
  have ht₁ : 0.0 < s.param s.p1 := Segment.param_end_pos hp hd hpq
  exact (Extremes.Settled.foldl _ Extremes.settled_empty).span?_isSome
    (Extremes.lowAt_foldl_of_mem _ Extremes.settled_empty hm₀ ht₀)
    (Extremes.highAt_foldl_of_mem _ Extremes.settled_empty hm₁ ht₁)

/-- A segment entering the region `[0, 0.8] × [0, 0.2]` through its corner keeps no part: both
crossings at the corner are lost to rounding. -/
theorem clip?_ends_inside_corner :
    (ofFloat (Rect.width ⟨0.0, 0.0, 0.8, 0.2⟩)).isFinite = true ∧
      (ofFloat (Rect.height ⟨0.0, 0.0, 0.8, 0.2⟩)).isFinite = true ∧
      ((∀ s : Segment, (s.p0 == s.p1) = true →
          (Rect.clip? ⟨0.0, 0.0, 0.8, 0.2⟩ s = some s ↔ Rect.contains ⟨0.0, 0.0, 0.8, 0.2⟩ s.p0 = true)) ∧
        ∀ s : Segment, Rect.contains ⟨0.0, 0.0, 0.8, 0.2⟩ s.p0 = true →
          Rect.contains ⟨0.0, 0.0, 0.8, 0.2⟩ s.p1 = true → (Rect.clip? ⟨0.0, 0.0, 0.8, 0.2⟩ s).isSome) ∧
      Rect.contains ⟨0.0, 0.0, 0.8, 0.2⟩ ⟨0.1, 0.1⟩ = true ∧
      Rect.clip? ⟨0.0, 0.0, 0.8, 0.2⟩ ⟨⟨1.5, 0.3⟩, ⟨0.1, 0.1⟩⟩ = none :=
  ⟨by decide, by decide, clip?_ends_inside (by decide) (by decide), by decide, by decide +kernel⟩

end Rect

end GridIndex
