import Pepp.Geom.Atomicity

/-!
# Runs of a spatial map

A spatial map goes from one operation to the next, also where one of them
throws. As long as every operation is sound for the state it meets, the map
stands for a layout. Whether queries are answered as scans would answer them is
then a matter of the bottoms of the rectangles in scanline order.
-/

namespace Pepp

open Algorithms (StdSort)
open Containers (FlatMap)

namespace SpatialMap

inductive Op where
  | tryAdd (rect : Rectangle I16)
  | tryAddPoint (pt : Point I16)
  | remove (id : U32)
  | removeRectangle (rect : Rectangle I16)
  | removePoint (pt : Point I16)
  | moveRelative (ids : List U32) (delta : Point I16) (transpose : Bool)
  | moveAbsolute (id : U32) (newPos : Point I16) (transpose : Bool)

variable (std : StdSort) (fc : FlatMap)

/-- What an operation leaves behind, if it ends at all. -/
def leaves {α : Type} : EStateM.Result SpatialFault SpatialMap α → Option SpatialMap
  | .ok _ s => some s
  | .error .diverges _ | .error .pastEnd _ => none
  | .error .outOfRange s | .error .logicError s => some s

def step (s : SpatialMap) : Op → Option SpatialMap
  | .tryAdd rect => leaves (tryAdd fc rect s)
  | .tryAddPoint pt => leaves (tryAdd fc (.ofPoint pt) s)
  | .remove id => leaves (remove fc id s)
  | .removeRectangle rect => leaves (removeRectangle fc rect s)
  | .removePoint pt => leaves (removePoint fc pt s)
  | .moveRelative ids delta transpose => leaves (moveRelative std fc ids delta transpose s)
  | .moveAbsolute id newPos transpose => leaves (moveAbsolute std fc id newPos transpose s)

/-! ## Sound operations -/

/-- The walk over the blocks gets through the rectangle; it stays out, or its id is not in use. -/
def AddSound (s : SpatialMap) (L : Layout) (rect : Rectangle I16) : Prop :=
  rect.Decomposable ∧ ((∃ id r, L.rect id = some r ∧ rect.intersects r) ∨ L.rect s.next = none)

/-- Nothing is to be done; or no rectangle is pushed over the edge, and the move names an id that is not there, or finds a
place taken by a rectangle that stays, or takes every rectangle in turn to where nothing else is. -/
def MoveSound (s : SpatialMap) (L : Layout) (ids : List U32) (delta : Point I16) (transpose : Bool) : Prop :=
  (ids = [] ∨ delta = ⟨0, 0⟩ ∧ transpose = false) ∨
    (∀ id ∈ ids, ∀ r, L.rect id = some r → (destination delta false r).valid) ∧
      ((∃ id ∈ ids, L.rect id = none) ∨ s.BottomsSearchable ∧ L.Blocked (destination delta false) ids ∨
        ∃ L', Layout.Moves (destination delta transpose) L (turns std L ids delta) L')

def Sound (s : SpatialMap) (L : Layout) : Op → Prop
  | .tryAdd rect => AddSound s L rect
  | .tryAddPoint pt => AddSound s L (.ofPoint pt)
  | .remove _ | .removeRectangle _ | .removePoint _ => True
  | .moveRelative ids delta transpose => MoveSound std s L ids delta transpose
  | .moveAbsolute id newPos transpose =>
    ∀ src, L.rect id = some src → MoveSound std s L [id] (newPos.sub src.topLeft) transpose

/-- The states of runs from the empty map by operations that are sound in the layout they meet. -/
inductive Reached : SpatialMap → Prop
  | start : Reached {}
  | step {s s' : SpatialMap} {op : Op} (hs : Reached s) (hsound : ∀ L, Represents s L → Sound std s L op)
      (hstep : step std fc s op = some s') : Reached s'

/-! ## One step -/

variable {s s' : SpatialMap} {L : Layout} {delta : Point I16} {transpose : Bool} {ids : List U32}

open Outcome

section

variable (h : Represents s L)
include h

theorem tryAdd_step {rect : Rectangle I16} (hsound : AddSound s L rect) (hstep : leaves (tryAdd fc rect s) = some s') :
    ∃ L', Represents s' L' := by
  obtain ⟨hdec, hadd⟩ := hsound
  obtain ⟨hmeets, hfree⟩ := tryAdd_spec fc h hdec
  by_cases hmeet : ∃ id r, L.rect id = some r ∧ rect.intersects r
  · rw [hmeets hmeet] at hstep
    cases hstep
    exact ⟨L, h⟩
  · simp only [not_exists, not_and] at hmeet
    obtain ⟨s₁, hclear, hok, -, h₁⟩ := hfree hmeet (hadd.resolve_left fun ⟨id, r, hid, hr⟩ => hmeet id r hid hr)
    rw [hok] at hstep
    cases hstep
    exact ⟨_, h₁⟩

theorem remove_step (id : U32) : ∃ removed s' L', remove fc id s = .ok removed s' ∧ Represents s' L' := by
  obtain ⟨hnone, hsome⟩ := remove_spec fc h id
  by_cases hid : L.rect id = none
  · exact ⟨false, s, L, hnone hid, h⟩
  · obtain ⟨s₁, hok, -, h₁⟩ := hsome hid
    exact ⟨true, s₁, _, hok, h₁⟩

theorem removeFound_step (found : SpatialMap → Except SpatialFault (Option U32))
    (hstep : leaves (removeFound fc found s) = some s') : ∃ L', Represents s' L' := by
  rw [removeFound, get_bind_apply] at hstep
  cases hfound : found s with
  | error e =>
    rw [hfound, liftQuery_error, throw_bind_apply] at hstep
    cases e with
    | diverges => cases hstep
    | pastEnd => cases hstep
    | outOfRange =>
      cases hstep
      exact ⟨L, h⟩
    | logicError =>
      cases hstep
      exact ⟨L, h⟩
  | ok answer =>
    rw [hfound, liftQuery_ok, pure_bind_apply] at hstep
    cases answer with
    | none =>
      cases hstep
      exact ⟨L, h⟩
    | some id =>
      obtain ⟨removed, s₁, L₁, hok, h₁⟩ := remove_step fc h id
      simp only [bind_apply_ok hok] at hstep
      cases hstep
      exact ⟨L₁, h₁⟩

/-- A move that names an id that is not there leaves everything as it is. -/
theorem moveRelative_unknown (hmissing : ∃ id ∈ ids, L.rect id = none)
    (hv : ∀ id ∈ ids, ∀ r, L.rect id = some r → (destination delta false r).valid)
    (hdelta : ¬ (delta = ⟨0, 0⟩ ∧ transpose = false)) :
    leaves (moveRelative std fc ids delta transpose s) = some s := by
  obtain ⟨id, hid, hnone⟩ := hmissing
  have hids : ids ≠ [] := List.ne_nil_of_mem hid
  rw [moveRelative, if_neg hids, if_neg (by simpa using hdelta), get_bind_apply, canMoveRelative, if_neg hids]
  by_cases hzero : delta = ⟨0, 0⟩
  · have hout : s.sortAhead std fc ids delta = .error .outOfRange := by
      rw [sortAhead, if_pos]
      refine List.any_eq_true.mpr ⟨id, hid, ?_⟩
      rw [h.rectangleAt_eq fc, hnone]
      rfl
    rw [if_pos ⟨hzero, rfl⟩]
    simp only [hout, liftQuery_ok, liftQuery_error, pure_bind, Bool.not_true, Bool.false_eq_true, if_false,
      throw_bind_apply]
    rfl
  · have hmem : ∀ i, i ∈ std.sort idLess ids ↔ i ∈ ids := fun i => (std.perm _ _).mem_iff
    obtain ⟨can, hcan, hiff⟩ := @canMoveEach_spec fc s L delta false h (std.sort idLess ids)
      (std.sorted BitVec.toNat idLess ids compares_ids) (std.sort idLess ids) fun i hi => hv i ((hmem i).mp hi)
    have hno : can = false := by
      rw [← Bool.not_eq_true, hiff]
      intro hall
      obtain ⟨r, hr, -⟩ := hall id ((hmem id).mpr hid)
      rw [hnone] at hr
      cases hr
    rw [if_neg fun hboth => hzero hboth.1]
    simp [hcan, hno, leaves]

theorem moveRelative_step (hsound : MoveSound std s L ids delta transpose)
    (hstep : leaves (moveRelative std fc ids delta transpose s) = some s') : ∃ L', Represents s' L' := by
  by_cases htrivial : ids = [] ∨ delta = ⟨0, 0⟩ ∧ transpose = false
  · have hstay : moveRelative std fc ids delta transpose s = .ok true s := by
      rw [moveRelative]
      rcases htrivial with hnil | hzero
      · rw [if_pos hnil]
        rfl
      · have hzero' : delta = ⟨0, 0⟩ ∧ (!transpose) = true := ⟨hzero.1, by rw [hzero.2]; rfl⟩
        rw [if_pos hzero', ite_self]
        rfl
    rw [hstay] at hstep
    cases hstep
    exact ⟨L, h⟩
  · obtain ⟨hv, hcases⟩ := hsound.resolve_left htrivial
    obtain ⟨hids, hdelta⟩ := not_or.mp htrivial
    by_cases hmissing : ∃ id ∈ ids, L.rect id = none
    · rw [moveRelative_unknown std fc h hmissing hv hdelta] at hstep
      cases hstep
      exact ⟨L, h⟩
    · have hstored : ∀ id ∈ ids, L.rect id ≠ none := fun id hid hnone => hmissing ⟨id, hid, hnone⟩
      obtain ⟨hrefused, hcarried⟩ := moveRelative_eq std fc h hstored hv hids hdelta
      by_cases hfound : Found s L (destination delta false) ids
      · rw [hrefused hfound] at hstep
        cases hstep
        exact ⟨L, h⟩
      · obtain ⟨L', hmoves⟩ := (hcases.resolve_left hmissing).resolve_left fun hblocked =>
          hfound (found_of_blocked h hblocked.1 hblocked.2)
        obtain ⟨s₁, heach, -, h₁⟩ := moveEach_of_moves fc h hmoves
        rw [hcarried hfound, bind_apply_ok heach] at hstep
        cases hstep
        exact ⟨L', h₁⟩

theorem step_represents {op : Op} (hsound : Sound std s L op) (hstep : step std fc s op = some s') :
    ∃ L', Represents s' L' := by
  cases op with
  | tryAdd rect => exact tryAdd_step fc h hsound hstep
  | tryAddPoint pt => exact tryAdd_step fc h hsound hstep
  | remove id =>
    obtain ⟨removed, s₁, L₁, hok, h₁⟩ := remove_step fc h id
    rw [step, hok] at hstep
    cases hstep
    exact ⟨L₁, h₁⟩
  | removeRectangle rect => exact removeFound_step fc h _ hstep
  | removePoint pt => exact removeFound_step fc h _ hstep
  | moveRelative ids delta transpose => exact moveRelative_step std fc h hsound hstep
  | moveAbsolute id newPos transpose =>
    rw [step, moveAbsolute, get_bind_apply, h.rectangleAt_eq fc] at hstep
    cases hid : L.rect id with
    | none =>
      rw [hid] at hstep
      cases hstep
      exact ⟨L, h⟩
    | some src =>
      rw [hid] at hstep
      exact moveRelative_step std fc h (hsound src hid) hstep

end

/-- Every state of a run stands for a layout. -/
theorem Reached.represents (h : Reached std fc s) : ∃ L, Represents s L := by
  induction h with
  | start => exact ⟨Layout.empty, represents_empty⟩
  | step _ hsound hstep ih =>
    obtain ⟨L, hL⟩ := ih
    exact step_represents std fc hL (hsound L hL) hstep

/-! ## Every state of a run -/

/-- Disjoint rectangles, a grid of exactly their points, and two maps that are each other's inverse. -/
structure Proper (s : SpatialMap) : Prop where
  disjoint : ∀ a ∈ s.indexToRectangle, ∀ b ∈ s.indexToRectangle, a.1 ≠ b.1 → ¬ a.2.intersects b.2
  cell : ∀ p, s.grid.cell p = true ↔ ∃ a ∈ s.indexToRectangle, a.2.contains p
  inverse : ∀ id r, (id, r) ∈ s.indexToRectangle ↔ (r, id) ∈ s.rectangleToIndex
  oneRectangle : ∀ id r r', (id, r) ∈ s.indexToRectangle → (id, r') ∈ s.indexToRectangle → r = r'
  oneId : ∀ r id id', (r, id) ∈ s.rectangleToIndex → (r, id') ∈ s.rectangleToIndex → id = id'

theorem Represents.proper (h : Represents s L) : Proper s where
  disjoint a ha b hb := L.disjoint ((h.mem_ids _ _).mp ha) ((h.mem_ids _ _).mp hb)
  cell p := by
    rw [h.cell]
    constructor
    · rintro ⟨id, r, hid, hp⟩
      exact ⟨(id, r), (h.mem_ids id r).mpr hid, hp⟩
    · rintro ⟨a, ha, hp⟩
      exact ⟨a.1, a.2, (h.mem_ids _ _).mp ha, hp⟩
  inverse id r := (h.mem_ids id r).trans (h.mem_rectangles r id).symm
  oneRectangle id r r' hr hr' := Option.some.inj (((h.mem_ids id r).mp hr).symm.trans ((h.mem_ids id r').mp hr'))
  oneId r id id' hid hid' := L.eq_of_rect ((h.mem_rectangles r id).mp hid) ((h.mem_rectangles r id').mp hid')

/-- Runs of sound operations stay proper. There the queries for points and for what overlaps a rectangle are answered as
scans answer them exactly if the bottoms can be searched; those for a rectangle and for overlaps in the grid always are. -/
theorem runs_proper (h : Reached std fc s) :
    Proper s ∧
      ((∀ pt, s.atPoint pt = .ok (s.scanPoint pt)) ↔ s.BottomsSearchable) ∧
      ((∀ rect, s.NoneBetween rect → s.overlapping rect = .ok (s.scanOverlapping rect)) ↔ s.BottomsSearchable) ∧
      (∀ rect, s.NoneBetween rect → s.atRectangle rect = .ok (s.scanRectangle rect)) ∧
      ∀ rect : Rectangle I16, rect.Decomposable → s.overlap rect = .ok (s.scanOverlap rect) := by
  obtain ⟨L, hL⟩ := h.represents std fc
  exact ⟨hL.proper, hL.atPoint_all_iff, hL.overlapping_all_iff, fun _ => hL.atRectangle_eq, fun _ => hL.overlap_eq⟩

/-- A tall rectangle and, beside it, a point that comes later in scanline order. -/
theorem reached_tall : ∃ s₁ s, step std fc {} (.tryAdd ⟨⟨0, 0⟩, ⟨0, 100⟩⟩) = some s₁ ∧
    step std fc s₁ (.tryAddPoint ⟨10, 1⟩) = some s ∧ Reached std fc s₁ ∧ Reached std fc s := by
  have hdec : (⟨⟨0, 0⟩, ⟨0, 100⟩⟩ : Rectangle I16).Decomposable := ⟨by decide, by decide, by decide⟩
  have hdec' : (Rectangle.ofPoint ⟨10, 1⟩).Decomposable := ⟨by decide, by decide, by decide⟩
  obtain ⟨s₁, hclear₁, hadd₁, hnext₁, h₁⟩ := (tryAdd_spec fc represents_empty hdec).2 nofun rfl
  have hone : ∀ id r, (Layout.empty.put 1 ⟨⟨0, 0⟩, ⟨0, 100⟩⟩ hdec hclear₁).rect id = some r ↔
      id = 1 ∧ r = ⟨⟨0, 0⟩, ⟨0, 100⟩⟩ := fun id r => by
    rw [Layout.put_eq_some]
    exact or_iff_left nofun
  have hfresh : (Layout.empty.put 1 ⟨⟨0, 0⟩, ⟨0, 100⟩⟩ hdec hclear₁).rect s₁.next = none := by
    rw [Option.eq_none_iff_forall_ne_some]
    intro r hr
    exact absurd (hnext₁ ▸ ((hone _ r).mp hr).1) (by decide)
  obtain ⟨s₂, hclear₂, hadd₂, -, h₂⟩ := (tryAdd_spec fc h₁ hdec').2 (fun id r hr => by
    rw [((hone id r).mp hr).2]
    decide) hfresh
  have hstep₁ : step std fc {} (.tryAdd ⟨⟨0, 0⟩, ⟨0, 100⟩⟩) = some s₁ := by
    rw [step, hadd₁]
    rfl
  have hstep₂ : step std fc s₁ (.tryAddPoint ⟨10, 1⟩) = some s₂ := by
    rw [step, hadd₂]
    rfl
  have hsound₁ : ∀ L, Represents {} L → Sound std {} L (.tryAdd ⟨⟨0, 0⟩, ⟨0, 100⟩⟩) := by
    refine fun L hL => ⟨hdec, .inr ?_⟩
    rw [← hL.rectangleAt_eq fc, represents_empty.rectangleAt_eq fc]
    rfl
  have hsound₂ : ∀ L, Represents s₁ L → Sound std s₁ L (.tryAddPoint ⟨10, 1⟩) := by
    refine fun L hL => ⟨hdec', .inr ?_⟩
    rw [← hL.rectangleAt_eq fc, h₁.rectangleAt_eq fc]
    exact hfresh
  have hreached₁ : Reached std fc s₁ := .step .start hsound₁ hstep₁
  exact ⟨s₁, s₂, hstep₁, hstep₂, hreached₁, .step hreached₁ hsound₂ hstep₂⟩

/-- As long as the tall rectangle is alone, every point is answered right; with the point behind it, not every one is. -/
theorem runs_proper_tall : ∃ s₁ s, Reached .insertion .simple s₁ ∧ (∀ pt, s₁.atPoint pt = .ok (s₁.scanPoint pt)) ∧
    Reached .insertion .simple s ∧ Proper s ∧ ¬ ∀ pt, s.atPoint pt = .ok (s.scanPoint pt) := by
  obtain ⟨s₁, s, hstep₁, hstep₂, hs₁, hs⟩ := reached_tall .insertion .simple
  have heval : ((step .insertion .simple {} (.tryAdd ⟨⟨0, 0⟩, ⟨0, 100⟩⟩)).bind fun s₁ =>
      (step .insertion .simple s₁ (.tryAddPoint ⟨10, 1⟩)).map fun s =>
        (decide s₁.BottomsSearchable, decide s.BottomsSearchable)) = some (true, false) := by decide +kernel
  rw [hstep₁, Option.bind_some, hstep₂, Option.map_some, Option.some.injEq, Prod.mk.injEq] at heval
  have hproper := runs_proper .insertion .simple hs
  refine ⟨s₁, s, hs₁, ?_, hs, hproper.1, fun hall => ?_⟩
  · exact (runs_proper .insertion .simple hs₁).2.1.mpr (of_decide_eq_true heval.1)
  · exact of_decide_eq_false heval.2 (hproper.2.1.mp hall)

/-- A point in the middle of the tall rectangle is not found there. -/
theorem atPoint_misses_tall : ∃ s, Reached .insertion .simple s ∧
    s.scanPoint ⟨0, 50⟩ = some 1 ∧ s.atPoint ⟨0, 50⟩ = .ok none := by
  obtain ⟨s₁, s, hstep₁, hstep₂, -, hs⟩ := reached_tall .insertion .simple
  have heval : ((step .insertion .simple {} (.tryAdd ⟨⟨0, 0⟩, ⟨0, 100⟩⟩)).bind fun s =>
      (step .insertion .simple s (.tryAddPoint ⟨10, 1⟩)).map fun s =>
        (s.scanPoint ⟨0, 50⟩, (s.atPoint ⟨0, 50⟩).toOption)) = some (some 1, some none) := by decide +kernel
  rw [hstep₁, Option.bind_some, hstep₂, Option.map_some, Option.some.injEq, Prod.mk.injEq] at heval
  refine ⟨s, hs, heval.1, ?_⟩
  cases hat : s.atPoint ⟨0, 50⟩ with
  | error e =>
    rw [hat] at heval
    cases heval.2
  | ok answer =>
    rw [hat] at heval
    exact congrArg Except.ok (Option.some.inj heval.2)

end SpatialMap

end Pepp
