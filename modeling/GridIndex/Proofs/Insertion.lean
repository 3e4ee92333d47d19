import GridIndex.Proofs.ClipStart

/-!
# Storing a segment

Storing a key along a segment appends it to the bucket of each cell the segment is placed in
and touches nothing else. The cells of a walk are distinct: the distance from a cell's centre to
the walk's target falls strictly at every step (`walk_chain`), so no cell comes back
(`walk_nodup`). The cells nearer than the current one form a set that shrinks strictly with
each step (`nearer_ssubset`), so the walk stops on its own before its fuel, the number of cells,
runs out, and more fuel changes nothing (`walk_add`).

`insert_meets_spec` collects what storing does (`InsertSpec`). The cells are none exactly when
no part of the segment lies in the region: a part with distinct ends starts a walk whose first
test passes (`Rect.Finite.param_clip_lt_one`). A part that is a single point goes to the cell
located with no heading, since a heading between equal points is a zero or NaN
(`locate_of_beq`). Otherwise the cells are the walk from the cell of the part's start, each a
step along one axis from the one before, and the walk is reported with its length.
-/

namespace GridIndex

set_option autoImplicit false

open Binary

namespace Axis

theorem locate_flat (a : Axis) (v : Float) {h : Float} (h₁ : ¬ h < 0.0) (h₂ : ¬ h > 0.0) :
    a.locate v h = a.locate v 0.0 := by
  have z : ¬ (0.0 : Float) < 0.0 := by decide
  simp only [locate, h₁, h₂, z, decide_false, Bool.false_and]

end Axis

namespace Layout

variable {l : Layout} {start target : Point}

theorem index_inj {c d : Cell} (hc : l.Within c) (hd : l.Within d) (h : l.index c = l.index d) :
    c = d := by
  rw [← cellAt_index hc.1, h, cellAt_index hd.1]

theorem length_le_cellCount {cs : List Cell} (hnd : cs.Nodup) (hw : ∀ c ∈ cs, l.Within c) :
    cs.length ≤ l.cellCount := by
  have hinj : (cs.map l.index).Nodup :=
    hnd.map_on fun a ha b hb h => index_inj (hw a ha) (hw b hb) h
  have hsub : cs.map l.index ⊆ List.range l.cellCount := by
    intro i hi
    obtain ⟨c, hc, rfl⟩ := List.mem_map.mp hi
    exact List.mem_range.mpr (index_lt (hw c hc))
  simpa using (hinj.subperm hsub).length_le

/-- Each cell of a walk is strictly nearer to the target than every cell before it. -/
theorem walk_pairwise (fuel : Nat) (p : Point) (c : Cell) :
    (l.walk start target fuel p c).Pairwise
      fun a b => l.distTo target b < l.distTo target a := by
  have : Trans (fun a b : Cell => l.distTo target b < l.distTo target a)
      (fun a b => l.distTo target b < l.distTo target a)
      (fun a b => l.distTo target b < l.distTo target a) :=
    ⟨fun h₁ h₂ => lt_of_lt_of_le_float h₂ (le_of_lt_float h₁)⟩
  exact ((walk_chain fuel p c).imp fun _ _ h => h.2).pairwise

theorem walk_nodup (fuel : Nat) (p : Point) (c : Cell) :
    (l.walk start target fuel p c).Nodup := by
  refine (walk_pairwise fuel p c).imp ?_
  rintro a b h rfl
  exact lt_irrefl_float _ h

/-- The cells, by position, whose centres are strictly nearer to `target` than that of `c`. -/
def nearer (l : Layout) (target : Point) (c : Cell) : Finset Nat :=
  (Finset.range l.cellCount).filter fun i => l.distTo target (l.cellAt i) < l.distTo target c

theorem nearer_ssubset {c c' : Cell} (hc' : l.Within c')
    (h : l.distTo target c' < l.distTo target c) : l.nearer target c' ⊂ l.nearer target c := by
  refine (Finset.ssubset_iff_of_subset ?_).mpr ⟨l.index c', ?_, ?_⟩
  · intro i hi
    simp only [nearer, Finset.mem_filter] at hi ⊢
    exact ⟨hi.1, lt_of_lt_of_le_float hi.2 (le_of_lt_float h)⟩
  · simp only [nearer, Finset.mem_filter, Finset.mem_range, cellAt_index hc'.1]
    exact ⟨index_lt hc', h⟩
  · simp only [nearer, Finset.mem_filter, cellAt_index hc'.1]
    exact fun h' => lt_irrefl_float _ h'.2

theorem card_nearer_lt {c : Cell} (hc : l.Within c) : (l.nearer target c).card < l.cellCount := by
  have h : l.nearer target c ⊂ Finset.range l.cellCount := by
    refine (Finset.ssubset_iff_of_subset (Finset.filter_subset _ _)).mpr ⟨l.index c, ?_, ?_⟩
    · exact Finset.mem_range.mpr (index_lt hc)
    · simp only [Finset.mem_filter, cellAt_index hc.1]
      exact fun h' => lt_irrefl_float _ h'.2
  simpa using Finset.card_lt_card h

theorem walk_succ {fuel : Nat} : ∀ {p : Point} {c : Cell}, l.Within c →
    (l.nearer target c).card < fuel →
      l.walk start target (fuel + 1) p c = l.walk start target fuel p c := by
  induction fuel with
  | zero => intro p c _ h; exact absurd h (Nat.not_lt_zero _)
  | succ fuel ih =>
    intro p c hc h
    rw [walk.eq_2, walk.eq_2]
    by_cases hp : Segment.param ⟨start, target⟩ p < 1.0
    · simp only [hp, if_true]
      congr 1
      cases hx : l.exit? target p c with
      | none => rfl
      | some pc =>
        obtain ⟨p', c'⟩ := pc
        -- the cell entered has strictly fewer cells nearer than itself
        have hspec := exit?_spec hx
        have hlt := Finset.card_lt_card (nearer_ssubset hspec.1 hspec.2.2)
        exact ih hspec.1 (by omega)
    · simp only [hp, if_false]

theorem walk_add {fuel : Nat} {p : Point} {c : Cell} (hc : l.Within c)
    (h : (l.nearer target c).card < fuel) :
    ∀ k, l.walk start target (fuel + k) p c = l.walk start target fuel p c
  | 0 => rfl
  | k + 1 => by rw [← Nat.add_assoc, walk_succ hc (by omega), walk_add hc h k]

/-! ## Where a segment is placed -/

theorem walk_ne_nil {fuel : Nat} {p : Point} {c : Cell} (hf : 0 < fuel)
    (hp : Segment.param ⟨start, target⟩ p < 1.0) : l.walk start target fuel p c ≠ [] := by
  obtain ⟨n, rfl⟩ : ∃ n, fuel = n + 1 := ⟨fuel - 1, by omega⟩
  rw [walk.eq_2, if_pos hp]
  exact List.cons_ne_nil _ _

theorem cellCount_pos (l : Layout) : 0 < l.cellCount := Nat.mul_pos l.columns_pos l.rows_pos

theorem flat_of_beq {x y : Float} (h : (x == y) = true) : ¬ y - x < 0.0 ∧ ¬ y - x > 0.0 := by
  have hz : (ofFloat 0.0).rank = 0 := by rw [ofFloat_zero]; rfl
  rcases sub_of_beq (beq_comm_float h) with hn | h0
  · exact ⟨fun h' => ((lt_iff_rank _ _).mp h').1 hn, fun h' => ((lt_iff_rank _ _).mp h').2.1 hn⟩
  · refine ⟨fun h' => ?_, fun h' => ?_⟩
    · obtain ⟨-, -, hr⟩ := (lt_iff_rank _ _).mp h'
      rw [h0, hz] at hr
      exact lt_irrefl _ hr
    · obtain ⟨-, -, hr⟩ := (lt_iff_rank _ _).mp h'
      rw [h0, hz] at hr
      exact lt_irrefl _ hr

/-- Towards an equal point, a point is located as with no heading. -/
theorem locate_of_beq {p q : Point} (h : (p == q) = true) :
    l.locate p (q - p) = l.locate p Vec.zero := by
  have hxy : (p.x == q.x && p.y == q.y) = true := h
  simp only [Bool.and_eq_true] at hxy
  obtain ⟨hx₁, hx₂⟩ := flat_of_beq hxy.1
  obtain ⟨hy₁, hy₂⟩ := flat_of_beq hxy.2
  unfold locate
  rw [Point.sub_x, Point.sub_y, l.xAxis.locate_flat p.x hx₁ hx₂, l.yAxis.locate_flat p.y hy₁ hy₂]
  rfl

theorem place_nodup (s : Segment) : (l.place s).cells.Nodup := by
  unfold place
  split
  · exact List.nodup_nil
  · dsimp only
    split
    · exact List.nodup_singleton _
    · exact walk_nodup _ _ _

theorem place_of_clip_none {s : Segment} (h : l.region.clip? s = none) : l.place s = .outside := by
  unfold place
  rw [h]

theorem place_single {s : Segment} {p q : Point} (h : l.region.clip? s = some ⟨p, q⟩)
    (hpq : (p == q) = true) : l.place s = .single (l.locate p Vec.zero) := by
  unfold place
  rw [h]
  dsimp only
  rw [if_pos hpq, locate_of_beq hpq]

theorem place_walked {s : Segment} {p q : Point} (h : l.region.clip? s = some ⟨p, q⟩)
    (hpq : (p == q) = false) :
    l.place s = .walked (l.walk p q l.cellCount p (l.locate p (q - p))) := by
  unfold place
  rw [h]
  dsimp only
  rw [if_neg (by rw [hpq]; decide)]

theorem place_eq_nil_iff (hr : l.region.Finite) (s : Segment) :
    (l.place s).cells = [] ↔ l.region.clip? s = none := by
  refine ⟨fun hP => ?_, fun h => by rw [place_of_clip_none h]; rfl⟩
  cases hc : l.region.clip? s with
  | none => rfl
  | some pq =>
    obtain ⟨p, q⟩ := pq
    cases hpq : p == q
    · rw [place_walked hc hpq] at hP
      exact absurd hP (walk_ne_nil l.cellCount_pos (hr.param_clip_lt_one hc hpq))
    · rw [place_single hc hpq] at hP
      cases hP

theorem indexed_mem_events (s : Segment) (n : Nat) :
    Event.indexed n ∈ (l.place s).events s ↔
      (∃ p q, l.region.clip? s = some ⟨p, q⟩ ∧ (p == q) = false) ∧
        n = (l.place s).cells.length := by
  cases hc : l.region.clip? s with
  | none =>
    rw [place_of_clip_none hc]
    simp [Placement.events]
  | some pq =>
    obtain ⟨p, q⟩ := pq
    cases hpq : p == q
    · rw [place_walked hc hpq]
      simp [Placement.events, Placement.cells, hpq]
    · rw [place_single hc hpq]
      simp [Placement.events, hpq]

end Layout

namespace Grid

variable {κ : Type}

theorem bucket_pushAll {d : Cell} (k : κ) : ∀ (g : Grid κ) (cs : List Cell),
    g.layout.Within d → (∀ c ∈ cs, g.layout.Within c) →
      ((g.pushAll k cs).bucket d).toList = (g.bucket d).toList ++ List.replicate (cs.count d) k
  | g, [], _, _ => by simp [pushAll]
  | g, c :: cs, hd, hcs => by
    have hc := hcs c List.mem_cons_self
    show (((g.push k c).pushAll k cs).bucket d).toList = _
    rw [bucket_pushAll k (g.push k c) cs hd fun c' h => hcs c' (List.mem_cons_of_mem c h)]
    by_cases hcd : c = d
    · subst hcd
      rw [bucket_push_self g k hd, Array.toList_push, List.count_cons_self, List.replicate_succ]
      simp
    · rw [bucket_push_of_ne g k fun h => hcd (Layout.index_inj hc hd h), List.count_cons]
      simp [hcd]

/-- What storing key `k` along segment `s` in grid `g` does, with `P` the cells it stores the
key in. -/
structure InsertSpec (g : Grid κ) (k : κ) (s : Segment) (P : List Cell) : Prop where
  distinct : P.Nodup
  within : ∀ c ∈ P, g.layout.Within c
  length_le : P.length ≤ g.layout.cellCount
  layout_eq : (g.insert k s).layout = g.layout
  bucket_eq : ∀ c, g.layout.Within c →
    ((g.insert k s).bucket c).toList = (g.bucket c).toList ++ if c ∈ P then [k] else []
  empty_iff : P = [] ↔ g.layout.region.clip? s = none
  single : ∀ p q, g.layout.region.clip? s = some ⟨p, q⟩ → (p == q) = true →
    P = [g.layout.locate p Vec.zero]
  walked : ∀ p q, g.layout.region.clip? s = some ⟨p, q⟩ → (p == q) = false →
    P.head? = some (g.layout.locate p (q - p)) ∧ P.IsChain Cell.Adjacent ∧
      ∀ extra, g.layout.walk p q (g.layout.cellCount + extra) p (g.layout.locate p (q - p)) = P
  indexed : ∀ n, Event.indexed n ∈ (g.layout.place s).events s ↔
    (∃ p q, g.layout.region.clip? s = some ⟨p, q⟩ ∧ (p == q) = false) ∧ n = P.length

theorem insert_meets_spec {region : Rect} {cw ch : Float} (g : Grid κ)
    (hl : Layout.new region cw ch = .ok g.layout) (k : κ) (s : Segment) :
    g.InsertSpec k s (g.layout.place s).cells := by
  have hnd := g.layout.place_nodup s
  have hw := g.layout.place_within s
  refine ⟨hnd, hw, Layout.length_le_cellCount hnd hw, layout_insert g k s, fun c hc => ?_,
    g.layout.place_eq_nil_iff (Layout.region_finite hl) s, fun p q h hpq => ?_,
    fun p q h hpq => ?_, g.layout.indexed_mem_events s⟩
  · rw [show g.insert k s = g.pushAll k (g.layout.place s).cells from rfl,
      bucket_pushAll k g _ hc hw]
    split
    · rename_i hmem
      rw [List.count_eq_one_of_mem hnd hmem]
      rfl
    · rename_i hmem
      rw [List.count_eq_zero_of_not_mem hmem]
      rfl
  · rw [g.layout.place_single h hpq]
    rfl
  · rw [g.layout.place_walked h hpq]
    dsimp only [Placement.cells]
    have hc := g.layout.locate_within p (q - p)
    have hne : g.layout.walk p q g.layout.cellCount p (g.layout.locate p (q - p)) ≠ [] :=
      Layout.walk_ne_nil g.layout.cellCount_pos ((Layout.region_finite hl).param_clip_lt_one h hpq)
    refine ⟨?_, (Layout.walk_chain _ _ _).imp fun _ _ h => h.1,
      fun extra => Layout.walk_add hc (Layout.card_nearer_lt hc) extra⟩
    obtain ⟨d, ds, hds⟩ := List.exists_cons_of_ne_nil hne
    rw [hds, List.head?_cons, Layout.walk_head? _ _ _ d (by rw [hds]; rfl)]

theorem insert_meets_spec_unit :
    Layout.new ⟨0.0, 0.0, 4.0, 4.0⟩ 1.0 1.0 =
        .ok ⟨⟨0.0, 0.0, 4.0, 4.0⟩, 1.0, 1.0, 4, 4, by decide, by decide, by decide, by decide⟩ ∧
      (Grid.empty (κ := Nat)
        ⟨⟨0.0, 0.0, 4.0, 4.0⟩, 1.0, 1.0, 4, 4, by decide, by decide, by decide, by decide⟩).InsertSpec
        7 ⟨⟨0.5, 0.5⟩, ⟨3.5, 2.5⟩⟩
        ((⟨⟨0.0, 0.0, 4.0, 4.0⟩, 1.0, 1.0, 4, 4, by decide, by decide, by decide, by decide⟩ :
          Layout).place ⟨⟨0.5, 0.5⟩, ⟨3.5, 2.5⟩⟩).cells :=
  ⟨rfl, @insert_meets_spec Nat ⟨0.0, 0.0, 4.0, 4.0⟩ 1.0 1.0 _ rfl 7 _⟩

end Grid

end GridIndex
