import Pepp.Geom.GridCells
import Pepp.Geom.SpatialMap

/-!
# Layouts

A spatial map stands for a layout: rectangles with ids, no two of them over the
same point. `Represents` says so of its two maps and its grid together; each
operation that changes a map changes its layout by `put` or `erase`.
-/

namespace Pepp

open Algorithms (StdSort lowerBound)
open Containers (FlatMap Sorted)

structure Layout where
  rect : U32 → Option (Rectangle I16)
  decomposable : ∀ {id r}, rect id = some r → r.Decomposable
  disjoint : ∀ {i j r r'}, rect i = some r → rect j = some r' → i ≠ j → ¬ r.intersects r'

namespace Layout

def empty : Layout := ⟨fun _ => none, nofun, nofun⟩

/-- Nothing but what `id` has now is in the rectangle's way. -/
def Clear (L : Layout) (id : U32) (r : Rectangle I16) : Prop :=
  ∀ j r', j ≠ id → L.rect j = some r' → ¬ r.intersects r'

def put (L : Layout) (id : U32) (r : Rectangle I16) (hr : r.Decomposable) (hclear : L.Clear id r) : Layout where
  rect := Function.update L.rect id (some r)
  decomposable := by
    intro i r' h
    by_cases hi : i = id
    · subst hi
      rw [Function.update_self] at h
      cases h
      exact hr
    · rw [Function.update_of_ne hi] at h
      exact L.decomposable h
  disjoint := by
    intro i j a b ha hb hne
    by_cases hi : i = id
    · subst hi
      rw [Function.update_self] at ha
      rw [Function.update_of_ne hne.symm] at hb
      cases ha
      exact hclear j b hne.symm hb
    · rw [Function.update_of_ne hi] at ha
      by_cases hj : j = id
      · subst hj
        rw [Function.update_self] at hb
        cases hb
        rw [Rectangle.intersects_comm]
        exact hclear i a hi ha
      · rw [Function.update_of_ne hj] at hb
        exact L.disjoint ha hb hne

def erase (L : Layout) (id : U32) : Layout where
  rect := Function.update L.rect id none
  decomposable := by
    intro i r h
    by_cases hi : i = id
    · subst hi
      rw [Function.update_self] at h
      cases h
    · rw [Function.update_of_ne hi] at h
      exact L.decomposable h
  disjoint := by
    intro i j a b ha hb hne
    have hkeep : ∀ {k r}, Function.update L.rect id none k = some r → L.rect k = some r := fun {k r} h => by
      by_cases hk : k = id
      · subst hk
        rw [Function.update_self] at h
        cases h
      · rwa [Function.update_of_ne hk] at h
    exact L.disjoint (hkeep ha) (hkeep hb) hne

section

variable {r : Rectangle I16} (L : Layout) (hr : r.Decomposable)
include L hr

theorem put_self {id : U32} (hclear : L.Clear id r) :
    (L.put id r hr hclear).rect id = some r := Function.update_self _ _ _

theorem put_of_ne {id j : U32} (hclear : L.Clear id r) (hj : j ≠ id) :
    (L.put id r hr hclear).rect j = L.rect j := Function.update_of_ne hj _ _

theorem put_eq_some {id : U32} (hclear : L.Clear id r) (j : U32) (r' : Rectangle I16) :
    (L.put id r hr hclear).rect j = some r' ↔ j = id ∧ r' = r ∨ L.rect j = some r' ∧ j ≠ id := by
  by_cases hj : j = id
  · subst hj
    simp [put, eq_comm]
  · simp [put, hj]

end

theorem erase_eq_some (L : Layout) (id j : U32) (r : Rectangle I16) :
    (L.erase id).rect j = some r ↔ L.rect j = some r ∧ j ≠ id := by
  by_cases hj : j = id
  · subst hj
    simp [erase]
  · simp [erase, hj]

variable {L : Layout} {i j : U32} {r r' : Rectangle I16}

/-- A point is in one rectangle at most. -/
theorem eq_of_contains {p : Point I16} (hi : L.rect i = some r) (hj : L.rect j = some r') (hr : r.contains p)
    (hr' : r'.contains p) : i = j := by
  by_contra hne
  exact L.disjoint hi hj hne (Rectangle.intersects_of_contains hr hr')

theorem eq_of_rect (hi : L.rect i = some r) (hj : L.rect j = some r) : i = j :=
  eq_of_contains hi hj (Rectangle.contains_topLeft (L.decomposable hi).valid)
    (Rectangle.contains_topLeft (L.decomposable hi).valid)

end Layout

namespace SpatialMap

/-- The maps are each other's inverse and hold the layout, the grid has the points of its rectangles. -/
structure Represents (s : SpatialMap) (L : Layout) : Prop where
  sortedIds : Sorted BitVec.toNat s.indexToRectangle
  sortedRectangles : Sorted Rectangle.key s.rectangleToIndex
  mem_ids : ∀ id r, (id, r) ∈ s.indexToRectangle ↔ L.rect id = some r
  mem_rectangles : ∀ r id, (r, id) ∈ s.rectangleToIndex ↔ L.rect id = some r
  cell : ∀ p, s.grid.cell p = true ↔ ∃ id r, L.rect id = some r ∧ r.contains p

theorem compares_ids : Containers.Compares idLess BitVec.toNat := fun _ _ => decide_eq_true_iff

variable (fc : FlatMap) {std : StdSort} {s : SpatialMap} {L : Layout}

theorem represents_empty : Represents {} Layout.empty where
  sortedIds := List.Pairwise.nil
  sortedRectangles := List.Pairwise.nil
  mem_ids _ _ := iff_of_false List.not_mem_nil nofun
  mem_rectangles _ _ := iff_of_false List.not_mem_nil nofun
  cell _ := iff_of_false Bool.false_ne_true nofun

namespace Represents

variable (h : Represents s L)

include h

theorem find_eq (id : U32) : fc.find idLess id s.indexToRectangle = (L.rect id).map fun r => (id, r) := by
  cases hid : L.rect id with
  | none =>
    rw [Option.map_none, Option.eq_none_iff_forall_ne_some]
    intro p hp
    obtain ⟨hmem, hkey⟩ := (fc.find_eq_some compares_ids h.sortedIds p).mp hp
    obtain ⟨i, r⟩ := p
    have heq : i = id := BitVec.eq_of_toNat_eq hkey
    rw [h.mem_ids, heq, hid] at hmem
    cases hmem
  | some r =>
    rw [Option.map_some, fc.find_eq_some compares_ids h.sortedIds]
    exact ⟨(h.mem_ids id r).mpr hid, rfl⟩

theorem rectangleAt_eq (id : U32) : s.rectangleAt fc id = L.rect id := by
  rw [rectangleAt, h.find_eq fc, Option.map_map]
  cases L.rect id <;> rfl

theorem overlap_iff {r : Rectangle I16} (hr : r.Decomposable) :
    ∃ found, s.grid.overlap r = some found ∧ (found = true ↔ ∃ id r', L.rect id = some r' ∧ r.intersects r') := by
  obtain ⟨found, hfound, hiff⟩ := SparseOccupancyGrid.overlap_spec hr s.grid
  refine ⟨found, hfound, hiff.trans ?_⟩
  simp only [h.cell, Rectangle.intersects_iff_exists]
  exact ⟨fun ⟨p, hp, id, r', hid, hr'⟩ => ⟨id, r', hid, p, hp, hr'⟩, fun ⟨id, r', hid, p, hp, hr'⟩ => ⟨p, hp, id, r', hid, hr'⟩⟩

/-- The pair of maps after `id` got another rectangle, or its first one. -/
theorem put_maps {id : U32} {r : Rectangle I16} {l : List (Rectangle I16 × U32)} (hr : r.Decomposable)
    (hclear : L.Clear id r) (hl : Sorted Rectangle.key l)
    (hmem : ∀ r' j, (r', j) ∈ l ↔ L.rect j = some r' ∧ j ≠ id) :
    (Sorted BitVec.toNat (fc.insertOrAssign idLess id r s.indexToRectangle) ∧
      Sorted Rectangle.key (fc.insertOrAssign Rectangle.lt r id l)) ∧
      (∀ j r', (j, r') ∈ fc.insertOrAssign idLess id r s.indexToRectangle ↔
        (L.put id r hr hclear).rect j = some r') ∧
      ∀ r' j, (r', j) ∈ fc.insertOrAssign Rectangle.lt r id l ↔ (L.put id r hr hclear).rect j = some r' := by
  refine ⟨⟨fc.sorted_insert id r compares_ids h.sortedIds, fc.sorted_insert r id Rectangle.compares hl⟩,
    fun j r' => ?_, fun r' j => ?_⟩
  · rw [fc.mem_insert compares_ids h.sortedIds (fun _ _ => BitVec.eq_of_toNat_eq), L.put_eq_some, Prod.mk.injEq, h.mem_ids]
  · have hkey : ∀ p ∈ l, p.1.key = r.key → p.1 = r := fun p hp hk => (Rectangle.eq_of_key hr.valid hk.symm).symm
    rw [fc.mem_insert Rectangle.compares hl hkey, L.put_eq_some, Prod.mk.injEq, hmem, and_comm (a := r' = r)]
    refine or_congr_right ⟨And.left, fun hj => ⟨hj, ?_⟩⟩
    rintro rfl
    exact hclear j r' hj.2 hj.1 (Rectangle.intersects_of_contains (Rectangle.contains_topLeft hr.valid)
      (Rectangle.contains_topLeft hr.valid))

theorem mem_erase_rectangles {id : U32} {r : Rectangle I16} (hid : L.rect id = some r) (r' : Rectangle I16) (j : U32) :
    (r', j) ∈ fc.erase Rectangle.lt r s.rectangleToIndex ↔ L.rect j = some r' ∧ j ≠ id := by
  rw [fc.mem_erase Rectangle.compares h.sortedRectangles, h.mem_rectangles]
  refine and_congr_right fun hj => not_congr ?_
  constructor
  · intro hkey
    have heq := Rectangle.eq_of_key (L.decomposable hj).valid hkey
    subst heq
    exact L.eq_of_rect hj hid
  · rintro rfl
    rw [hj] at hid
    cases hid
    rfl

end Represents

/-! ## Steps -/

theorem tryAdd_spec (h : Represents s L) {r : Rectangle I16} (hr : r.Decomposable) :
    ((∃ id r', L.rect id = some r' ∧ r.intersects r') → tryAdd fc r s = .ok none s) ∧
      ((∀ id r', L.rect id = some r' → ¬ r.intersects r') → L.rect s.next = none → ∃ s' hclear,
        tryAdd fc r s = .ok (some s.next) s' ∧ s'.next = s.next + 1 ∧ Represents s' (L.put s.next r hr hclear)) := by
  obtain ⟨found, hfound, hiff⟩ := h.overlap_iff hr
  constructor
  · intro hmeets
    rw [hiff.mpr hmeets] at hfound
    simp [tryAdd, overlap, hfound]
  · intro hfree hfresh
    have hnot : found = false := by
      rw [← Bool.not_eq_true, hiff]
      rintro ⟨id, r', hid, hr'⟩
      exact hfree id r' hid hr'
    subst hnot
    obtain ⟨grid, hgrid, hcells⟩ := (SparseOccupancyGrid.tryAdd_spec hr s.grid).2 fun p hp => by
      rw [← Bool.not_eq_true, h.cell]
      rintro ⟨id, r', hid, hp'⟩
      exact hfree id r' hid (Rectangle.intersects_of_contains hp hp')
    have hclear : L.Clear s.next r := fun j r' _ hj => hfree j r' hj
    obtain ⟨⟨hsi, hsr⟩, hmi, hmr⟩ := h.put_maps fc hr hclear h.sortedRectangles fun r' j => by
      rw [h.mem_rectangles]
      refine (and_iff_left_of_imp fun hj => ?_).symm
      rintro rfl
      rw [hfresh] at hj
      cases hj
    refine ⟨{ s with
      next := s.next + 1
      grid
      rectangleToIndex := fc.insertOrAssign Rectangle.lt r s.next s.rectangleToIndex
      indexToRectangle := fc.insertOrAssign idLess s.next r s.indexToRectangle }, hclear, ?_, rfl, hsi, hsr, hmi, hmr, fun p => ?_⟩
    · simp [tryAdd, overlap, hfound, hgrid]
    · rw [hcells, h.cell]
      simp only [L.put_eq_some]
      constructor
      · rintro (⟨id, r', hid, hp⟩ | hp)
        · refine ⟨id, r', .inr ⟨hid, ?_⟩, hp⟩
          rintro rfl
          rw [hfresh] at hid
          cases hid
        · exact ⟨s.next, r, .inl ⟨rfl, rfl⟩, hp⟩
      · rintro ⟨id, r', ⟨-, rfl⟩ | ⟨hid, -⟩, hp⟩
        · exact .inr hp
        · exact .inl ⟨id, r', hid, hp⟩

/-- What is left of the grid once a rectangle of the layout is gone. -/
theorem Represents.cell_erase (h : Represents s L) {id : U32} {r : Rectangle I16} (hid : L.rect id = some r)
    (p : Point I16) : s.grid.cell p = true ∧ ¬ r.contains p ↔ ∃ j r', (L.rect j = some r' ∧ j ≠ id) ∧ r'.contains p := by
  rw [h.cell]
  constructor
  · rintro ⟨⟨j, r', hj, hp⟩, hnot⟩
    refine ⟨j, r', ⟨hj, ?_⟩, hp⟩
    rintro rfl
    rw [hid] at hj
    cases hj
    exact hnot hp
  · rintro ⟨j, r', ⟨hj, hne⟩, hp⟩
    exact ⟨⟨j, r', hj, hp⟩, fun hp' => hne (L.eq_of_contains hj hid hp hp')⟩

theorem remove_spec (h : Represents s L) (id : U32) :
    (L.rect id = none → remove fc id s = .ok false s) ∧
      (L.rect id ≠ none → ∃ s', remove fc id s = .ok true s' ∧ s'.next = s.next ∧ Represents s' (L.erase id)) := by
  have hfind := h.find_eq fc id
  constructor
  · intro hid
    rw [hid, Option.map_none] at hfind
    simp [remove, hfind]
  · intro hne
    obtain ⟨r, hid⟩ := Option.ne_none_iff_exists'.mp hne
    rw [hid, Option.map_some] at hfind
    obtain ⟨grid, hgrid, hcells⟩ := SparseOccupancyGrid.remove_spec (L.decomposable hid) s.grid
    refine ⟨{ s with
      grid
      rectangleToIndex := fc.erase Rectangle.lt r s.rectangleToIndex
      indexToRectangle := fc.erase idLess id s.indexToRectangle }, ?_, rfl,
      fc.sorted_erase id compares_ids h.sortedIds, fc.sorted_erase r Rectangle.compares h.sortedRectangles,
      fun j r' => ?_, fun r' j => ?_, fun p => ?_⟩
    · simp [remove, hfind, hgrid]
    · rw [fc.mem_erase compares_ids h.sortedIds, h.mem_ids, L.erase_eq_some]
      exact and_congr_right fun _ => not_congr ⟨BitVec.eq_of_toNat_eq, congrArg _⟩
    · rw [h.mem_erase_rectangles fc hid, L.erase_eq_some]
    · rw [hcells, h.cell_erase hid]
      simp only [L.erase_eq_some]

/-- A rectangle moves to where nothing else is, or the step throws. -/
theorem moveOne_spec (h : Represents s L) {delta : Point I16} {transpose : Bool} {id : U32} {src : Rectangle I16}
    (hid : L.rect id = some src) (hdest : (destination delta transpose src).Decomposable) :
    (∀ hclear : L.Clear id (destination delta transpose src), ∃ s', moveOne fc delta transpose id s = .ok () s' ∧
        s'.next = s.next ∧ Represents s' (L.put id _ hdest hclear)) ∧
      (¬ L.Clear id (destination delta transpose src) → ∃ s', moveOne fc delta transpose id s = .error .logicError s') := by
  have hat := h.rectangleAt_eq fc id
  rw [hid] at hat
  obtain ⟨grid, hgrid, hcells⟩ := SparseOccupancyGrid.remove_spec (L.decomposable hid) s.grid
  have hleft : ∀ p, grid.cell p = true ↔ ∃ j r', (L.rect j = some r' ∧ j ≠ id) ∧ r'.contains p := fun p => by
    rw [hcells, h.cell_erase hid]
  obtain ⟨hblocked, hfree⟩ := SparseOccupancyGrid.tryAdd_spec hdest grid
  constructor
  · intro hclear
    obtain ⟨grid', hgrid', hcells'⟩ := hfree fun p hp => by
      rw [← Bool.not_eq_true, hleft]
      rintro ⟨j, r', ⟨hj, hne⟩, hp'⟩
      exact hclear j r' hne hj (Rectangle.intersects_of_contains hp hp')
    obtain ⟨⟨hsi, hsr⟩, hmi, hmr⟩ := h.put_maps fc hdest hclear
      (fc.sorted_erase src Rectangle.compares h.sortedRectangles) (h.mem_erase_rectangles fc hid)
    refine ⟨{ s with
      grid := grid'
      indexToRectangle := fc.insertOrAssign idLess id (destination delta transpose src) s.indexToRectangle
      rectangleToIndex := fc.insertOrAssign Rectangle.lt (destination delta transpose src) id
        (fc.erase Rectangle.lt src s.rectangleToIndex) }, ?_, rfl, hsi, hsr, hmi, hmr, fun p => ?_⟩
    · simp [moveOne, hat, hgrid, hgrid']
    · rw [hcells', hleft]
      simp only [L.put_eq_some]
      constructor
      · rintro (⟨j, r', hj, hp⟩ | hp)
        · exact ⟨j, r', .inr hj, hp⟩
        · exact ⟨id, _, .inl ⟨rfl, rfl⟩, hp⟩
      · rintro ⟨j, r', ⟨-, rfl⟩ | hj, hp⟩
        · exact .inr hp
        · exact .inl ⟨j, r', hj, hp⟩
  · intro hnot
    have hadd := hblocked (by
      simp only [Layout.Clear, not_forall, not_not] at hnot
      obtain ⟨j, r', hne, hj, hmeet⟩ := hnot
      obtain ⟨p, hp, hp'⟩ := Rectangle.intersects_iff_exists.mp hmeet
      exact ⟨p, hp, (hleft p).mpr ⟨j, r', ⟨hj, hne⟩, hp'⟩⟩)
    refine ⟨{ s with
      grid
      indexToRectangle := fc.insertOrAssign idLess id (destination delta transpose src) s.indexToRectangle
      rectangleToIndex := fc.insertOrAssign Rectangle.lt (destination delta transpose src) id
        (fc.erase Rectangle.lt src s.rectangleToIndex) }, ?_⟩
    simp [moveOne, hat, hgrid, hadd]

end SpatialMap

end Pepp

/-! ## Queries of a spatial map

A query looks at a part of the rectangles only. The part ends where it should,
since it is by tops that the rectangles are in order; it begins where a search by
bottoms ends. The answers are those of scans over all rectangles exactly if the
bottoms can be searched in this order. -/

namespace Pepp

open Algorithms (StdSort lowerBound partitionPoint partitionPoint_spec Searchable)
open Containers (FlatMap Sorted)

namespace SpatialMap

/-! ## Scans over all rectangles -/

def scanPoint (self : SpatialMap) (pt : Point I16) : Option U32 :=
  (self.rectangleToIndex.find? fun pair => decide (pair.1.contains pt)).map Prod.snd

def scanRectangle (self : SpatialMap) (rect : Rectangle I16) : Option U32 :=
  (self.rectangleToIndex.find? fun pair => decide (pair.1.same rect)).map Prod.snd

def scanOverlapping (self : SpatialMap) (rect : Rectangle I16) : List (Rectangle I16 × U32) :=
  self.rectangleToIndex.filter fun pair => decide (rect.intersects pair.1)

def scanOverlap (self : SpatialMap) (rect : Rectangle I16) : Bool :=
  self.rectangleToIndex.any fun pair => decide (rect.intersects pair.1)

/-! ## The part that is looked at -/

/-- Where the search by bottoms ends. -/
def first (self : SpatialMap) (top : I16) : Nat :=
  lowerBound (fun pair => pair.1.bottom.toInt) top.toInt self.rectangleToIndex

/-- What the search has passed. -/
def passed (self : SpatialMap) (top : I16) : List (Rectangle I16 × U32) := self.rectangleToIndex.take (self.first top)

/-- The bottoms of the stored rectangles, in scanline order, can be searched. -/
def BottomsSearchable (self : SpatialMap) : Prop :=
  Searchable (fun pair : Rectangle I16 × U32 => pair.1.bottom.toInt) self.rectangleToIndex

instance (self : SpatialMap) : Decidable self.BottomsSearchable := inferInstanceAs (Decidable (Searchable _ _))

/-- Nothing lies between the bottom and the top of a rectangle; so it is for every one that is not upside down. -/
def NoneBetween (self : SpatialMap) (rect : Rectangle I16) : Prop :=
  ∀ pair ∈ self.rectangleToIndex, pair.1.bottom.toInt < rect.top.toInt → pair.1.top.toInt ≤ rect.bottom.toInt

/-- The two searches end in order. -/
def Ordered (self : SpatialMap) (top bottom : I16) : Prop := self.first top ≤ upperBound bottom self.rectangleToIndex

instance (self : SpatialMap) (top bottom : I16) : Decidable (self.Ordered top bottom) := Nat.decLe _ _

variable {s : SpatialMap} {L : Layout} {top bottom : I16}

theorem candidates_eq (self : SpatialMap) (top bottom : I16) : self.candidates top bottom =
    if self.Ordered top bottom then
      .ok ((self.rectangleToIndex.take (upperBound bottom self.rectangleToIndex)).drop (self.first top))
    else .error .pastEnd := rfl

namespace Represents

variable (h : Represents s L)

include h

theorem valid {pair : Rectangle I16 × U32} (hp : pair ∈ s.rectangleToIndex) : pair.1.valid :=
  (L.decomposable ((h.mem_rectangles _ _).mp hp)).valid

theorem nodup : s.rectangleToIndex.Nodup :=
  h.sortedRectangles.imp fun hlt heq => absurd hlt (by rw [heq]; exact lt_irrefl _)

theorem lt_upperBound {i : Nat} (hi : i < s.rectangleToIndex.length) :
    i < upperBound bottom s.rectangleToIndex ↔ s.rectangleToIndex[i].1.top.toInt ≤ bottom.toInt := by
  have htop : ∀ pair : Rectangle I16 × U32, (!decide (bottom < pair.1.top)) = true ↔ pair.1.top.toInt ≤ bottom.toInt :=
    fun pair => by rw [Bool.not_eq_true', decide_eq_false_iff_not, Int16.lt_iff_toInt_lt, Int.not_lt]
  have hsorted : s.rectangleToIndex.Pairwise fun a b =>
      (!decide (bottom < b.1.top)) = true → (!decide (bottom < a.1.top)) = true := by
    refine List.Pairwise.imp_of_mem (fun {a b} ha hb hlt => ?_) h.sortedRectangles
    rw [htop, htop]
    exact (Rectangle.top_le_of_lt (h.valid ha) (h.valid hb) ((Rectangle.compares _ _).mpr hlt)).trans
  exact (partitionPoint_spec hsorted i hi).trans (htop _)

/-- A search downward from the top ends before the search from the bottom does, unless something is in between. -/
theorem ordered (hle : ∀ pair ∈ s.rectangleToIndex, pair.1.bottom.toInt < top.toInt → pair.1.top.toInt ≤ bottom.toInt) :
    s.Ordered top bottom := by
  unfold Ordered
  cases hfirst : s.first top with
  | zero => exact Nat.zero_le _
  | succ i =>
    obtain ⟨hi, hbottom⟩ := Algorithms.partitionPointIn_pred hfirst
    exact (h.lt_upperBound hi).mpr (hle _ (List.getElem_mem hi) (of_decide_eq_true hbottom))

theorem ordered_of_le (hle : top.toInt ≤ bottom.toInt) : s.Ordered top bottom := by
  refine h.ordered fun pair hp hlt => ?_
  have hv := (Rectangle.valid_iff.mp (h.valid hp)).2
  omega

/-- Behind the part that is looked at, everything begins below the bottom. -/
theorem below {pair : Rectangle I16 × U32}
    (hp : pair ∈ s.rectangleToIndex.drop (upperBound bottom s.rectangleToIndex)) : bottom.toInt < pair.1.top.toInt := by
  obtain ⟨i, hi, rfl⟩ := List.mem_iff_getElem.mp hp
  rw [List.length_drop] at hi
  rw [List.getElem_drop]
  have hbehind : ¬ upperBound bottom s.rectangleToIndex + i < upperBound bottom s.rectangleToIndex := by omega
  rw [h.lt_upperBound (by omega)] at hbehind
  omega

end Represents

/-- The rectangles in front of the part, in it and behind it. -/
theorem split_candidates (hle : s.Ordered top bottom) : s.rectangleToIndex =
    s.passed top ++ ((s.rectangleToIndex.take (upperBound bottom s.rectangleToIndex)).drop (s.first top) ++
      s.rectangleToIndex.drop (upperBound bottom s.rectangleToIndex)) := by
  have htake : s.passed top = (s.rectangleToIndex.take (upperBound bottom s.rectangleToIndex)).take (s.first top) := by
    rw [List.take_take, Nat.min_eq_left hle]
    rfl
  rw [← List.append_assoc, htake, List.take_append_drop, List.take_append_drop]

/-! ## Answers -/

/-- A search for the one item with a property finds it unless it was passed. -/
theorem Represents.find_candidates (h : Represents s L) (hle : s.Ordered top bottom)
    {P : Rectangle I16 × U32 → Bool} (hbottom : ∀ pair ∈ s.rectangleToIndex, P pair → pair.1.top.toInt ≤ bottom.toInt) :
    (s.candidates top bottom >>= fun pairs => pure ((pairs.find? P).map Prod.snd)) =
        .ok ((s.rectangleToIndex.find? P).map Prod.snd) ↔ ∀ pair ∈ s.passed top, ¬ P pair := by
  have hsplit := split_candidates hle
  have hnodup := h.nodup
  rw [candidates_eq, if_pos hle]
  change Except.ok _ = Except.ok _ ↔ _
  rw [Except.ok.injEq]
  generalize hin : (s.rectangleToIndex.take (upperBound bottom s.rectangleToIndex)).drop (s.first top) = inside at *
  have hbehind : (s.rectangleToIndex.drop (upperBound bottom s.rectangleToIndex)).find? P = none := by
    rw [List.find?_eq_none]
    intro pair hp hP
    have := h.below hp
    have := hbottom pair (List.mem_of_mem_drop hp) hP
    omega
  have hfind : s.rectangleToIndex.find? P = ((s.passed top).find? P).or (inside.find? P) := by
    conv_lhs => rw [hsplit]
    rw [List.find?_append, List.find?_append, hbehind, Option.or_none]
  have hmem : ∀ pair ∈ inside, pair ∈ s.rectangleToIndex := fun pair hp => by
    rw [hsplit, List.mem_append, List.mem_append]
    exact .inr (.inl hp)
  rw [hfind]
  constructor
  · intro heq pair hp hP
    cases hfound : (s.passed top).find? P with
    | none => exact List.find?_eq_none.mp hfound pair hp hP
    | some a =>
      rw [hfound, Option.some_or, Option.map_some, Option.map_eq_some_iff] at heq
      obtain ⟨b, hb, hba⟩ := heq
      have hbmem := hmem b (List.mem_of_find?_eq_some hb)
      have hamem := List.mem_of_find?_eq_some hfound
      have hab : a = b := by
        refine Prod.ext ?_ hba.symm
        have ha := (h.mem_rectangles a.1 a.2).mp (List.mem_of_mem_take hamem)
        have hb' := (h.mem_rectangles b.1 b.2).mp hbmem
        rw [hba, ha] at hb'
        exact Option.some.inj hb'
      subst hab
      rw [hsplit] at hnodup
      exact (List.disjoint_of_nodup_append hnodup) hamem (List.mem_append_left _ (List.mem_of_find?_eq_some hb))
  · intro hnone
    rw [List.find?_eq_none.mpr hnone, Option.none_or]

theorem Represents.atPoint_iff (h : Represents s L) (pt : Point I16) :
    s.atPoint pt = .ok (s.scanPoint pt) ↔ ∀ pair ∈ s.passed pt.y, ¬ pair.1.contains pt := by
  refine (h.find_candidates (h.ordered_of_le (Int.le_refl _)) fun pair _ hP => ?_).trans ?_
  · exact (Rectangle.contains_iff.mp (of_decide_eq_true hP)).2.2.1
  · simp only [decide_eq_true_eq]

theorem Represents.atRectangle_iff (h : Represents s L) (rect : Rectangle I16) :
    s.atRectangle rect = .ok (s.scanRectangle rect) ↔
      s.Ordered rect.top rect.bottom ∧ ∀ pair ∈ s.passed rect.top, ¬ pair.1.same rect := by
  by_cases hle : s.Ordered rect.top rect.bottom
  · rw [and_iff_right hle]
    refine (h.find_candidates hle fun pair hp hP => ?_).trans ?_
    · rw [← Rectangle.eq_of_same (h.valid hp) (of_decide_eq_true hP)]
      exact (Rectangle.valid_iff.mp (h.valid hp)).2
    · simp only [decide_eq_true_eq]
  · refine iff_of_false (fun heq => ?_) fun hboth => hle hboth.1
    rw [atRectangle, candidates_eq, if_neg hle] at heq
    cases heq

theorem Represents.overlapping_iff (h : Represents s L) (rect : Rectangle I16) :
    s.overlapping rect = .ok (s.scanOverlapping rect) ↔
      s.Ordered rect.top rect.bottom ∧ ∀ pair ∈ s.passed rect.top, ¬ rect.intersects pair.1 := by
  by_cases hle : s.Ordered rect.top rect.bottom
  · rw [and_iff_right hle, overlapping, candidates_eq, if_pos hle]
    change Except.ok _ = Except.ok _ ↔ _
    rw [Except.ok.injEq, scanOverlapping]
    conv_lhs =>
      rhs
      rw [split_candidates hle]
    have hbehind : (s.rectangleToIndex.drop (upperBound rect.bottom s.rectangleToIndex)).filter
        (fun pair => decide (rect.intersects pair.1)) = [] := by
      rw [List.filter_eq_nil_iff]
      intro pair hp hP
      have := h.below hp
      have := (Rectangle.intersects_iff.mp (of_decide_eq_true hP)).2.2.2.2.2
      omega
    rw [List.filter_append, List.filter_append, hbehind, List.append_nil, List.self_eq_append_left, List.filter_eq_nil_iff]
    simp only [decide_eq_true_eq]
  · refine iff_of_false (fun heq => ?_) fun hboth => hle hboth.1
    rw [overlapping, candidates_eq, if_neg hle] at heq
    cases heq

/-- A search passes only what ends above the row that it is for. -/
theorem Represents.passed_above (hs : s.BottomsSearchable) {row : I16} {pair : Rectangle I16 × U32}
    (hp : pair ∈ s.passed row) : pair.1.bottom.toInt < row.toInt := by
  obtain ⟨i, hi, rfl⟩ := List.mem_take_iff_getElem.mp hp
  by_contra hge
  have hle := Algorithms.searchable_iff.mp hs i (by omega) row.toInt (by omega)
  have hlt : i < s.first row := by omega
  exact absurd hle (not_le.mpr hlt)

/-- All points are answered right exactly if no search for a bottom passes a rectangle with that one. -/
theorem Represents.atPoint_all_iff (h : Represents s L) :
    (∀ pt, s.atPoint pt = .ok (s.scanPoint pt)) ↔ s.BottomsSearchable := by
  simp only [h.atPoint_iff]
  constructor
  · intro hall
    refine Algorithms.searchable_iff.mpr fun i hi v hv => ?_
    refine (Algorithms.lowerBound_mono hv _).trans ?_
    by_contra hlt
    have hvalid := Rectangle.valid_iff.mp (h.valid (List.getElem_mem hi))
    refine hall ⟨s.rectangleToIndex[i].1.left, s.rectangleToIndex[i].1.bottom⟩ s.rectangleToIndex[i] ?_ ?_
    · exact List.mem_take_iff_getElem.mpr ⟨i, lt_min (not_le.mp hlt) hi, rfl⟩
    · rw [Rectangle.contains_iff]
      exact ⟨le_rfl, hvalid.1, hvalid.2, le_rfl⟩
  · intro hsearch pt pair hpair hcontains
    have habove := Represents.passed_above hsearch hpair
    have hbelow := (Rectangle.contains_iff.mp hcontains).2.2.2
    omega

/-- So it is for the rectangles that overlap another one. -/
theorem Represents.overlapping_all_iff (h : Represents s L) :
    (∀ rect, s.NoneBetween rect → s.overlapping rect = .ok (s.scanOverlapping rect)) ↔ s.BottomsSearchable := by
  constructor
  · intro hall
    refine h.atPoint_all_iff.mp fun pt => (h.atPoint_iff pt).mpr fun pair hpair hcontains => ?_
    have hbetween : s.NoneBetween (Rectangle.ofPoint pt) := fun pair hp hlt => by
      have hv := (Rectangle.valid_iff.mp (h.valid hp)).2
      change pair.1.bottom.toInt < pt.y.toInt at hlt
      change pair.1.top.toInt ≤ pt.y.toInt
      omega
    refine ((h.overlapping_iff _).mp (hall _ hbetween)).2 pair hpair ?_
    exact Rectangle.intersects_of_contains (Rectangle.contains_iff.mpr ⟨le_rfl, le_rfl, le_rfl, le_rfl⟩) hcontains
  · intro hsearch rect hbetween
    refine (h.overlapping_iff rect).mpr ⟨h.ordered hbetween, fun pair hpair hmeet => ?_⟩
    have habove := Represents.passed_above hsearch hpair
    have hbelow := (Rectangle.intersects_iff.mp hmeet).2.2.2.2.1
    omega

/-- A stored rectangle is found by its own place whatever the bottoms are: nothing behind it ends above its top. -/
theorem Represents.atRectangle_eq (h : Represents s L) {rect : Rectangle I16} (hbetween : s.NoneBetween rect) :
    s.atRectangle rect = .ok (s.scanRectangle rect) := by
  refine (h.atRectangle_iff rect).mpr ⟨h.ordered hbetween, fun pair hpair hsame => ?_⟩
  obtain ⟨i, hi, rfl⟩ := List.mem_take_iff_getElem.mp hpair
  obtain ⟨k, hk⟩ := Nat.exists_eq_succ_of_ne_zero (show s.first rect.top ≠ 0 by omega)
  obtain ⟨hklt, hbottom⟩ := Algorithms.partitionPointIn_pred hk
  replace hbottom : s.rectangleToIndex[k].1.bottom.toInt < rect.top.toInt := of_decide_eq_true hbottom
  have heq := Rectangle.eq_of_same (h.valid (List.getElem_mem (show i < s.rectangleToIndex.length by omega))) hsame
  have hvalid := (Rectangle.valid_iff.mp (h.valid (List.getElem_mem hklt))).2
  have htop : s.rectangleToIndex[i].1.top.toInt ≤ s.rectangleToIndex[k].1.top.toInt := by
    obtain hik | rfl : i < k ∨ i = k := by omega
    · exact Rectangle.top_le_of_lt (h.valid (List.getElem_mem _)) (h.valid (List.getElem_mem _))
        ((Rectangle.compares _ _).mpr (List.pairwise_iff_getElem.mp h.sortedRectangles i k _ _ hik))
    · exact le_rfl
  rw [heq] at htop
  omega

theorem Represents.overlap_eq (h : Represents s L) {rect : Rectangle I16} (hr : rect.Decomposable) :
    s.overlap rect = .ok (s.scanOverlap rect) := by
  obtain ⟨found, hfound, hiff⟩ := h.overlap_iff hr
  rw [overlap, hfound, ended_some, Except.ok.injEq, Bool.eq_iff_iff, hiff, scanOverlap, List.any_eq_true]
  simp only [decide_eq_true_eq, Prod.exists, h.mem_rectangles]
  exact exists_comm

end SpatialMap

end Pepp
