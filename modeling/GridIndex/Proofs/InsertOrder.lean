import GridIndex.Proofs.Insertion

/-!
# The order of insertion does not matter

Where a segment's key goes is decided by the layout and the segment alone: `Layout.place` reads
no bucket. Storing a key appends it once to each cell of the placement (`bucket_insert`), so
after a list of keyed segments has been stored, each bucket holds what it held before followed by
the keys of the segments placed in its cell, in list order (`bucket_foldl_insert`).

Reordering the list therefore reorders each bucket and nothing else. The keys that a box's block
of cells lists are then a permutation of each other (`visit_perm`), and the set of them is the
same list, since both answers are strictly ascending with the same members (`query_eq_of_perm`).
`order_free_of_perm` collects these facts about building a grid from two permuted lists.
-/

namespace GridIndex

set_option autoImplicit false

namespace Layout

variable {κ : Type}

/-- The keys of the keyed segments that `l` places in cell `c`, in list order. -/
def keysAt (l : Layout) (c : Cell) (xs : List (κ × Segment)) : List κ :=
  xs.filterMap fun e => if c ∈ (l.place e.2).cells then some e.1 else none

@[simp] theorem keysAt_nil (l : Layout) (c : Cell) : l.keysAt c ([] : List (κ × Segment)) = [] :=
  rfl

theorem keysAt_cons (l : Layout) (c : Cell) (k : κ) (s : Segment) (xs : List (κ × Segment)) :
    l.keysAt c ((k, s) :: xs) = (if c ∈ (l.place s).cells then [k] else []) ++ l.keysAt c xs := by
  by_cases hc : c ∈ (l.place s).cells <;> simp [keysAt, hc]

theorem keysAt_perm (l : Layout) (c : Cell) {xs ys : List (κ × Segment)} (h : xs.Perm ys) :
    (l.keysAt c xs).Perm (l.keysAt c ys) :=
  h.filterMap _

end Layout

namespace Grid

variable {κ : Type}

/-- Storing `k` along `s` appends it to the bucket of each cell the layout places `s` in. -/
theorem bucket_insert (g : Grid κ) (k : κ) (s : Segment) {c : Cell} (hc : g.layout.Within c) :
    ((g.insert k s).bucket c).toList =
      (g.bucket c).toList ++ if c ∈ (g.layout.place s).cells then [k] else [] := by
  rw [show g.insert k s = g.pushAll k (g.layout.place s).cells from rfl,
    bucket_pushAll k g _ hc (g.layout.place_within s)]
  by_cases hmem : c ∈ (g.layout.place s).cells
  · rw [List.count_eq_one_of_mem (g.layout.place_nodup s) hmem, if_pos hmem]
    rfl
  · rw [List.count_eq_zero_of_not_mem hmem, if_neg hmem]
    rfl

/-- Storing a list of keyed segments one after the other. -/
theorem bucket_foldl_insert {c : Cell} :
    ∀ (g : Grid κ) (xs : List (κ × Segment)), g.layout.Within c →
      ((xs.foldl (fun g e => g.insert e.1 e.2) g).bucket c).toList =
        (g.bucket c).toList ++ g.layout.keysAt c xs
  | g, [], _ => by simp
  | g, (k, s) :: xs, hc => by
    have hc' : (g.insert k s).layout.Within c := by rwa [layout_insert]
    rw [List.foldl_cons, bucket_foldl_insert (g.insert k s) xs hc', bucket_insert g k s hc,
      layout_insert, Layout.keysAt_cons, List.append_assoc]

theorem layout_foldl_insert : ∀ (g : Grid κ) (xs : List (κ × Segment)),
    (xs.foldl (fun g e => g.insert e.1 e.2) g).layout = g.layout
  | g, [] => rfl
  | g, (k, s) :: xs => by
    rw [List.foldl_cons, layout_foldl_insert (g.insert k s) xs, layout_insert]

theorem insertAll_fst (g : Grid κ) (xs : List (κ × Segment)) :
    (g.insertAll xs).1 = xs.foldl (fun g e => g.insert e.1 e.2) g := by
  unfold insertAll
  -- the fold carries the events as well: generalise over them
  suffices h : ∀ (g : Grid κ) (evs : List Event),
      (xs.foldl (fun (acc : Grid κ × List Event) (e : κ × Segment) =>
        ((acc.1.insertPlaced e.1 e.2).1,
          acc.2 ++ (acc.1.insertPlaced e.1 e.2).2.events e.2)) (g, evs)).1 =
        xs.foldl (fun g e => g.insert e.1 e.2) g from h g []
  induction xs with
  | nil => intro g evs; rfl
  | cons e xs ih => intro g evs; exact ih _ _

@[simp] theorem bucket_empty (l : Layout) (c : Cell) : (empty l : Grid κ).bucket c = #[] := by
  simp only [bucket, empty]
  by_cases h : l.index c < l.cellCount
  · simp [h]
  · simp [h]

/-- A grid that `withSegments` builds has the layout `Layout.new` gives, and each bucket holds
the keys of the segments placed in its cell, in list order. -/
theorem withSegments_ok {region : Rect} {cw ch : Float} {xs : List (κ × Segment)} {g : Grid κ}
    {evs : List Event} (h : withSegments region cw ch xs = .ok (g, evs)) :
    Layout.new region cw ch = .ok g.layout ∧
      ∀ c, g.layout.Within c → (g.bucket c).toList = g.layout.keysAt c xs := by
  unfold withSegments at h
  cases hl : Layout.new region cw ch with
  | error e => rw [hl] at h; cases h
  | ok l =>
    rw [hl] at h
    injection h with h
    injection h with hg
    replace hg : ((empty l).insertAll xs).1 = g := hg
    have hlayout : g.layout = l := by
      rw [← hg, insertAll_fst, layout_foldl_insert]
      rfl
    refine ⟨by rw [hlayout], fun c hc => ?_⟩
    have hc' : (empty l : Grid κ).layout.Within c := hlayout ▸ hc
    rw [← hg, insertAll_fst, bucket_foldl_insert _ xs hc', bucket_empty, layout_foldl_insert]
    rfl

theorem withSegments_error {region : Rect} {cw ch : Float} {xs : List (κ × Segment)}
    {e : GridError} : withSegments region cw ch xs = .error e ↔ Layout.new region cw ch = .error e := by
  unfold withSegments
  cases Layout.new region cw ch <;> simp [Except.map]

/-- Grids over one layout whose buckets are permutations of each other list permuted keys for
every box. -/
theorem visit_perm {g g' : Grid κ} (hl : g.layout = g'.layout)
    (hb : ∀ c, g.layout.Within c → (g.bucket c).toList.Perm (g'.bucket c).toList) (B : Rect) :
    (g.visit B).Perm (g'.visit B) := by
  unfold visit
  rw [← hl]
  refine List.Perm.flatMap_left _ fun r hr => List.Perm.flatMap_left _ fun c hc => hb _ ⟨?_, ?_⟩
  · exact lt_of_le_of_lt (mem_span.mp hc).2 (g.layout.range_colHi_lt B)
  · exact lt_of_le_of_lt (mem_span.mp hr).2 (g.layout.range_rowHi_lt B)

/-- Two strictly ascending answers with the same members are the same list. -/
theorem query_eq_of_perm [LinearOrder κ] {g g' : Grid κ} {B : Rect}
    (h : (g.visit B).Perm (g'.visit B)) : g.query B = g'.query B := by
  have hs := g.query_sorted B
  have hs' := g'.query_sorted B
  refine List.Perm.eq_of_pairwise (fun a b _ _ hab hba => absurd hba (lt_asymm hab)) hs hs' ?_
  rw [List.perm_ext_iff_of_nodup hs.nodup hs'.nodup]
  intro k
  rw [mem_query, mem_query]
  exact h.mem_iff

/-- What the order of insertion leaves unchanged: grids built from permuted lists of keyed
segments share their layout, their buckets are permutations of each other, and every box lists
permuted keys and answers the same set. -/
structure SameUpToOrder [LinearOrder κ] (g g' : Grid κ) : Prop where
  layout_eq : g.layout = g'.layout
  bucket_perm : ∀ c, g.layout.Within c → (g.bucket c).toList.Perm (g'.bucket c).toList
  visit_perm : ∀ B, (g.visit B).Perm (g'.visit B)
  query_eq : ∀ B, g.query B = g'.query B

/-- Where a segment's key goes depends on the layout and the segment only, and building a grid
from a permuted list of keyed segments fails alike or gives the same grid up to the order within
each bucket. -/
structure OrderFree [LinearOrder κ] (region : Rect) (cw ch : Float) (xs ys : List (κ × Segment)) :
    Prop where
  placed : ∀ (l : Layout) (s : Segment), ∃ P : List Cell, ∀ (g : Grid κ), g.layout = l →
    ∀ (k : κ) (c : Cell), l.Within c →
      ((g.insert k s).bucket c).toList = (g.bucket c).toList ++ (if c ∈ P then [k] else []) ∧
      (((g.insert k s).insert k s).bucket c).toList =
        (g.bucket c).toList ++ (if c ∈ P then [k, k] else [])
  error_iff : ∀ e, withSegments region cw ch xs = .error e ↔ withSegments region cw ch ys = .error e
  ok : ∀ g evs, withSegments region cw ch xs = .ok (g, evs) →
    ∃ g' evs', withSegments region cw ch ys = .ok (g', evs') ∧ g.SameUpToOrder g'

theorem order_free_of_perm [LinearOrder κ] (region : Rect) (cw ch : Float)
    {xs ys : List (κ × Segment)} (hp : xs.Perm ys) : OrderFree region cw ch xs ys := by
  refine ⟨fun l s => ⟨(l.place s).cells, fun g hg k c hc => ?_⟩, fun e => ?_, fun g evs h => ?_⟩
  · subst hg
    have hc' : (g.insert k s).layout.Within c := by rwa [layout_insert]
    refine ⟨bucket_insert g k s hc, ?_⟩
    rw [bucket_insert _ k s hc', bucket_insert g k s hc, layout_insert]
    split <;> simp
  · rw [withSegments_error, withSegments_error]
  · obtain ⟨hl, hb⟩ := withSegments_ok h
    cases h' : withSegments region cw ch ys with
    | error e =>
      rw [withSegments_error, hl] at h'
      cases h'
    | ok r =>
      obtain ⟨g', evs'⟩ := r
      obtain ⟨hl', hb'⟩ := withSegments_ok h'
      have hlay : g.layout = g'.layout := by
        rw [hl] at hl'
        injection hl'
      have hperm : ∀ c, g.layout.Within c → (g.bucket c).toList.Perm (g'.bucket c).toList := by
        intro c hc
        rw [hb c hc, hb' c (hlay ▸ hc), ← hlay]
        exact Layout.keysAt_perm _ c hp
      exact ⟨g', evs', rfl, hlay, hperm, visit_perm hlay hperm,
        fun B => query_eq_of_perm (visit_perm hlay hperm B)⟩

theorem order_free_swap_two :
    ([(1, ⟨⟨0.5, 0.5⟩, ⟨3.5, 2.5⟩⟩), (2, ⟨⟨3.0, 0.0⟩, ⟨0.0, 3.0⟩⟩)] : List (Nat × Segment)).Perm
        [(2, ⟨⟨3.0, 0.0⟩, ⟨0.0, 3.0⟩⟩), (1, ⟨⟨0.5, 0.5⟩, ⟨3.5, 2.5⟩⟩)] ∧
      OrderFree ⟨0.0, 0.0, 4.0, 4.0⟩ 1.0 1.0
        [(1, ⟨⟨0.5, 0.5⟩, ⟨3.5, 2.5⟩⟩), (2, ⟨⟨3.0, 0.0⟩, ⟨0.0, 3.0⟩⟩)]
        [(2, ⟨⟨3.0, 0.0⟩, ⟨0.0, 3.0⟩⟩), (1, ⟨⟨0.5, 0.5⟩, ⟨3.5, 2.5⟩⟩)] :=
  ⟨.swap _ _ _, order_free_of_perm _ _ _ (.swap _ _ _)⟩

end Grid

end GridIndex
