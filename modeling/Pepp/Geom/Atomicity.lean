import Pepp.Geom.Moves

/-!
# Atomicity of group moves

A group move is checked first and carried out after that, rectangle by
rectangle. The check leaves the transposition out and it does not see what its
search passes; carrying it out throws where a destination is still taken by a
rectangle that waits. `Movable` is what is left, in terms of places.
-/

namespace Pepp

open Algorithms (StdSort)
open Containers (FlatMap)

namespace SpatialMap

/-- A move answers as the check does, all or nothing, and yes exactly if there is room. -/
def Atomic (L : Layout) (D : Rectangle I16 → Rectangle I16) (ids : List U32) (s : SpatialMap)
    (can : Except SpatialFault Bool) : EStateM.Result SpatialFault SpatialMap Bool → Prop
  | .error _ _ => False
  | .ok moved s' =>
    (if moved then ∃ L', Represents s' L' ∧ ∀ id, L'.rect id = if id ∈ ids then (L.rect id).map D else L.rect id
      else s' = s) ∧
      (moved = true ↔ L.Apart D ids) ∧ can = .ok moved

/-- The order in which the rectangles of a group move. -/
def turns (std : StdSort) (L : Layout) (ids : List U32) (delta : Point I16) : List U32 :=
  let rectangle id := (L.rect id).getD ⟨.empty, .empty⟩
  std.sort (fun a b => ahead delta (rectangle a) (rectangle b)) (if delta = ⟨0, 0⟩ then ids else std.sort idLess ids)

/-- Nothing is to be done; or there is room, no rectangle that stays is in the way of the destinations without
transposition, and in turn every rectangle finds its own destination free; or the destinations, with transposition and
without, are not free of the rectangles that stay, and these are stored so that a search finds them. -/
def Movable (std : StdSort) (s : SpatialMap) (L : Layout) (D D₀ : Rectangle I16 → Rectangle I16) (ids : List U32)
    (delta : Point I16) (transpose : Bool) : Prop :=
  (ids = [] ∨ delta = ⟨0, 0⟩ ∧ transpose = false) ∨
    (L.Apart D ids ∧ ¬ L.Blocked D₀ ids ∧ L.InTurn D (turns std L ids delta) ∧
      ∀ id ∈ ids, ∀ r, L.rect id = some r → (D r).Decomposable) ∨
    s.BottomsSearchable ∧ L.Blocked D₀ ids ∧ L.Blocked D ids

variable (std : StdSort) (fc : FlatMap) {s : SpatialMap} {L : Layout} {delta : Point I16} {transpose : Bool}
  {ids : List U32} {D D' D₀ D₀' : Rectangle I16 → Rectangle I16}

open Outcome

/-! ## Maps that agree on the group -/

/-- The two send the rectangles of the group to the same places. -/
def Agree (L : Layout) (ids : List U32) (D D' : Rectangle I16 → Rectangle I16) : Prop :=
  ∀ id ∈ ids, ∀ r, L.rect id = some r → D r = D' r

section

variable (h : Agree L ids D D')
include h

theorem Agree.symm : Agree L ids D' D := fun id hid r hr => (h id hid r hr).symm

theorem Agree.apart (hapart : L.Apart D ids) : L.Apart D' ids where
  movers i hi j hj hij r r' hr hr' := by
    rw [← h i hi r hr, ← h j hj r' hr']
    exact hapart.movers i hi j hj hij r r' hr hr'
  others i hi j hj r r' hr hr' := by
    rw [← h i hi r hr]
    exact hapart.others i hi j hj r r' hr hr'

theorem Agree.apart_iff : L.Apart D ids ↔ L.Apart D' ids := ⟨h.apart, h.symm.apart⟩

theorem Agree.inTurn {order : List U32} (horder : ∀ id ∈ order, id ∈ ids) (hturn : L.InTurn D order) :
    L.InTurn D' order := by
  refine List.Pairwise.imp_of_mem (fun {i j} hi _ hij r r' hr hr' => ?_) hturn
  rw [← h i (horder i hi) r hr]
  exact hij r r' hr hr'

theorem Agree.blocked (hblocked : L.Blocked D ids) : L.Blocked D' ids := by
  obtain ⟨id, hid, r, hr, j, r', hj, hmeet, hout⟩ := hblocked
  rw [h id hid r hr] at hmeet
  exact ⟨id, hid, r, hr, j, r', hj, hmeet, hout⟩

theorem Agree.blocked_iff : L.Blocked D ids ↔ L.Blocked D' ids := ⟨h.blocked, h.symm.blocked⟩

end

theorem mem_turns (L : Layout) (ids : List U32) (delta : Point I16) (id : U32) :
    id ∈ turns std L ids delta ↔ id ∈ ids := by
  rw [turns, (std.perm _ _).mem_iff]
  split
  · exact Iff.rfl
  · exact (std.perm _ _).mem_iff

theorem nodup_turns (L : Layout) (delta : Point I16) (h : ids.Nodup) :
    (turns std L ids delta).Nodup := by
  rw [turns, (std.perm _ _).nodup_iff]
  split
  · exact h
  · exact (std.perm _ _).nodup_iff.mpr h

theorem Agree.movable_iff (h : Agree L ids D D') (h₀ : Agree L ids D₀ D₀') :
    Movable std s L D D₀ ids delta transpose ↔ Movable std s L D' D₀' ids delta transpose := by
  have hturn : L.InTurn D (turns std L ids delta) ↔ L.InTurn D' (turns std L ids delta) :=
    ⟨h.inTurn fun id => (mem_turns std L ids delta id).mp, h.symm.inTurn fun id => (mem_turns std L ids delta id).mp⟩
  have hdest : (∀ id ∈ ids, ∀ r, L.rect id = some r → (D r).Decomposable) ↔
      ∀ id ∈ ids, ∀ r, L.rect id = some r → (D' r).Decomposable :=
    forall₂_congr fun id hid => forall₂_congr fun r hr => by rw [h id hid r hr]
  unfold Movable
  rw [h.apart_iff, h.blocked_iff, h₀.blocked_iff, hturn, hdest]

theorem Agree.atomic_iff (h : Agree L ids D D') {can : Except SpatialFault Bool}
    {result : EStateM.Result SpatialFault SpatialMap Bool} :
    Atomic L D ids s can result ↔ Atomic L D' ids s can result := by
  cases result with
  | error e s' => exact Iff.rfl
  | ok moved s' =>
    have hrect : ∀ id, (if id ∈ ids then (L.rect id).map D else L.rect id) =
        if id ∈ ids then (L.rect id).map D' else L.rect id := fun id => by
      split
      · next hid =>
        cases hr : L.rect id with
        | none => rfl
        | some r => exact congrArg some (h id hid r hr)
      · rfl
    simp only [Atomic, h.apart_iff, hrect]

/-! ## The check and the move -/

section

variable (h : Represents s L) (hstored : ∀ id ∈ ids, L.rect id ≠ none)
include h hstored

/-- The check says no where its search finds a rectangle that stays. -/
theorem canMoveRelative_spec (hv : ∀ id ∈ ids, ∀ r, L.rect id = some r → (destination delta transpose r).valid)
    (hids : ids ≠ []) (hdelta : ¬ (delta = ⟨0, 0⟩ ∧ transpose = false)) : ∃ can,
      canMoveRelative std fc s ids delta transpose = (std.sort idLess ids, .ok can) ∧
        (can = true ↔ ¬ Found s L (destination delta transpose) ids) := by
  have hmem : ∀ id, id ∈ std.sort idLess ids ↔ id ∈ ids := fun id => (std.perm _ _).mem_iff
  obtain ⟨can, hcan, hiff⟩ := canMoveEach_spec fc h
    (std.sorted BitVec.toNat idLess ids compares_ids) (std.sort idLess ids) fun id hid => hv id ((hmem id).mp hid)
  refine ⟨can, ?_, hiff.trans ⟨?_, fun hnone id hid => ?_⟩⟩
  · rw [canMoveRelative, if_neg hids, if_neg (by simpa using hdelta)]
    simp only [hcan]
  · rintro hall ⟨id, hid, r, hr, pair, hpair, hmeet, hout⟩
    obtain ⟨r', hr', hclear⟩ := hall id ((hmem id).mpr hid)
    obtain rfl : r = r' := Option.some.inj (hr.symm.trans hr')
    exact hout ((hmem _).mp (hclear pair hpair hmeet))
  · rw [hmem] at hid
    obtain ⟨r, hr⟩ := Option.ne_none_iff_exists'.mp (hstored id hid)
    refine ⟨r, hr, fun pair hpair hmeet => (hmem _).mpr ?_⟩
    by_contra hout
    exact hnone ⟨id, hid, r, hr, pair, hpair, hmeet, hout⟩

theorem sortAhead_eq (delta : Point I16) : s.sortAhead std fc ids delta =
    .ok (std.sort (fun a b => ahead delta ((L.rect a).getD ⟨.empty, .empty⟩) ((L.rect b).getD ⟨.empty, .empty⟩)) ids) := by
  have hnone : (ids.any fun id => (s.rectangleAt fc id).isNone) = false := by
    rw [List.any_eq_false]
    intro id hid
    rw [h.rectangleAt_eq fc, Option.isNone_iff_eq_none]
    exact hstored id hid
  rw [sortAhead, if_neg (by rw [hnone]; exact Bool.false_ne_true)]
  simp only [h.rectangleAt_eq fc]

/-- Past its early answers, a group move is refused or carried out in turn. -/
theorem moveRelative_eq (hv : ∀ id ∈ ids, ∀ r, L.rect id = some r → (destination delta false r).valid) (hids : ids ≠ [])
    (hdelta : ¬ (delta = ⟨0, 0⟩ ∧ transpose = false)) :
    (Found s L (destination delta false) ids → moveRelative std fc ids delta transpose s = .ok false s) ∧
      (¬ Found s L (destination delta false) ids → moveRelative std fc ids delta transpose s =
        (do
          moveEach fc delta transpose (turns std L ids delta)
          return true : Action Bool) s) := by
  rw [moveRelative_apply std fc hids (by simpa using hdelta)]
  by_cases hzero : delta = ⟨0, 0⟩
  · have hnot : ¬ Found s L (destination delta false) ids := by
      rintro ⟨id, hid, r, hr, pair, hpair, hmeet, hout⟩
      have hsame : destination delta false r = r := by
        subst hzero
        refine Rectangle.ext_toInt ?_ ?_ ?_ ?_ <;>
          simp [destination, Rectangle.translated, Rectangle.left, Rectangle.right, Rectangle.top, Rectangle.bottom]
      rw [hsame] at hmeet
      refine L.disjoint hr ((h.mem_rectangles _ _).mp (List.mem_of_mem_drop hpair)) ?_ hmeet
      rintro rfl
      exact hout hid
    refine ⟨fun hfound => absurd hfound hnot, fun _ => ?_⟩
    have hcan : s.canMoveRelative std fc ids delta false = (ids, .ok true) := by
      rw [canMoveRelative, if_neg hids, if_pos ⟨hzero, rfl⟩]
    have hsort := sortAhead_eq std fc h hstored delta
    simp only [hcan, hsort, liftQuery_ok, pure_bind, Bool.not_true, Bool.false_eq_true, if_false]
    rw [turns, if_pos hzero]
  · obtain ⟨can, hcan, hiff⟩ := canMoveRelative_spec std fc h hstored hv hids fun hboth => hzero hboth.1
    have hsort := @sortAhead_eq std fc s L (std.sort idLess ids) h
      (fun id hid => hstored id ((std.perm _ _).mem_iff.mp hid)) delta
    constructor
    · intro hfound
      have hno : can = false := by
        rw [← Bool.not_eq_true, hiff]
        exact not_not.mpr hfound
      simp [hcan, hno]
    · intro hnot
      simp only [hcan, hiff.mpr hnot, hsort, liftQuery_ok, pure_bind, Bool.not_true, Bool.false_eq_true, if_false, turns,
        hzero]

end

/-- A group move is atomic exactly if there is nothing to do, or it is carried out with room and in turn, or it is
refused by both checks without room. -/
theorem atomic_iff_settled (h : Represents s L) (hnodup : ids.Nodup) (hstored : ∀ id ∈ ids, L.rect id ≠ none)
    (hv : ∀ transpose', transpose' = transpose ∨ transpose' = false → ∀ id ∈ ids, ∀ r, L.rect id = some r →
      (destination delta transpose' r).valid) :
    Atomic L (destination delta transpose) ids s (canMoveRelative std fc s ids delta transpose).2
        (moveRelative std fc ids delta transpose s) ↔
      (ids = [] ∨ delta = ⟨0, 0⟩ ∧ transpose = false) ∨
        (L.Apart (destination delta transpose) ids ∧ ¬ Found s L (destination delta false) ids ∧
          L.InTurn (destination delta transpose) (turns std L ids delta) ∧
          ∀ id ∈ ids, ∀ r, L.rect id = some r → (destination delta transpose r).Decomposable) ∨
        ¬ L.Apart (destination delta transpose) ids ∧ Found s L (destination delta false) ids ∧
          Found s L (destination delta transpose) ids := by
  by_cases htrivial : ids = [] ∨ delta = ⟨0, 0⟩ ∧ transpose = false
  · refine iff_of_true ?_ (.inl htrivial)
    have hmove : moveRelative std fc ids delta transpose s = .ok true s ∧
        (canMoveRelative std fc s ids delta transpose).2 = .ok true := by
      rw [moveRelative, canMoveRelative]
      rcases htrivial with hnil | hzero
      · rw [if_pos hnil, if_pos hnil]
        exact ⟨rfl, rfl⟩
      · have hzero' : delta = ⟨0, 0⟩ ∧ (!transpose) = true := ⟨hzero.1, by rw [hzero.2]; rfl⟩
        rw [if_pos hzero', if_pos hzero', ite_self, ite_self]
        exact ⟨rfl, rfl⟩
    have hstay : Agree L ids id (destination delta transpose) := by
      rcases htrivial with rfl | ⟨rfl, rfl⟩
      · intro i hi
        exact absurd hi List.not_mem_nil
      · intro i _ r _
        refine Rectangle.ext_toInt ?_ ?_ ?_ ?_ <;>
          simp [destination, Rectangle.translated, Rectangle.left, Rectangle.right, Rectangle.top, Rectangle.bottom]
    rw [hmove.1, hmove.2, ← hstay.atomic_iff]
    refine ⟨⟨L, h, fun id => ?_⟩, iff_of_true rfl ⟨?_, ?_⟩, rfl⟩
    · rw [Option.map_id_fun]
      exact (ite_self _).symm
    · exact fun i _ j _ hij r r' hr hr' => L.disjoint hr hr' hij
    · intro i hi j hj r r' hr hr'
      refine L.disjoint hr hr' ?_
      rintro rfl
      exact hj hi
  · obtain ⟨hids, hdelta⟩ := not_or.mp htrivial
    obtain ⟨can, hcan, hcaniff⟩ := canMoveRelative_spec std fc h hstored (hv transpose (.inl rfl)) hids hdelta
    obtain ⟨hrefused, hcarried⟩ := moveRelative_eq std fc h hstored (hv false (.inr rfl)) hids hdelta
    rw [hcan]
    rw [or_iff_right htrivial]
    by_cases hfound : Found s L (destination delta false) ids
    · rw [hrefused hfound]
      have hcanfalse : (Except.ok can : Except SpatialFault Bool) = .ok false ↔
          Found s L (destination delta transpose) ids := by
        rw [Except.ok.injEq, ← Bool.not_eq_true, hcaniff, not_not]
      simp only [Atomic, Bool.false_eq_true, if_false, true_and, false_iff, hcanfalse, hfound, not_true, false_and,
        and_false, false_or]
    · rw [hcarried hfound]
      have hmoves := Layout.moves_iff (destination delta transpose) (nodup_turns std L delta hnodup)
        fun id hid => hstored id ((mem_turns std L ids delta id).mp hid)
      have hturns : L.Apart (destination delta transpose) (turns std L ids delta) ↔
          L.Apart (destination delta transpose) ids := by
        constructor
        · rintro ⟨hm, ho⟩
          simp only [mem_turns] at hm ho
          exact ⟨hm, ho⟩
        · rintro ⟨hm, ho⟩
          refine ⟨?_, ?_⟩
          · simpa only [mem_turns] using hm
          · simpa only [mem_turns] using ho
      simp only [hturns, mem_turns] at hmoves
      simp only [hfound, not_false_eq_true, true_and, false_and, and_false, or_false]
      constructor
      · intro hatomic
        cases heach : moveEach fc delta transpose (turns std L ids delta) s with
        | error e s' =>
          rw [bind_apply_error heach] at hatomic
          exact hatomic.elim
        | ok _ s' =>
          rw [bind_apply_ok heach] at hatomic
          obtain ⟨⟨L', h', -⟩, -, -⟩ := hatomic
          obtain ⟨⟨hapart, hturn⟩, hdest⟩ := hmoves.mp (moves_of_moveEach fc h h' (nodup_turns std L delta hnodup)
            (fun id hid => hstored id ((mem_turns std L ids delta id).mp hid)) heach)
          exact ⟨hapart, hturn, hdest⟩
      · rintro ⟨hapart, hturn, hdest⟩
        obtain ⟨L', hmove⟩ := hmoves.mpr ⟨⟨hapart, hturn⟩, hdest⟩
        obtain ⟨s', heach, -, h'⟩ := moveEach_of_moves fc h hmove
        rw [bind_apply_ok heach]
        refine ⟨⟨L', h', fun id => ?_⟩, iff_of_true rfl hapart, ?_⟩
        · rw [hmove.rect_eq (nodup_turns std L delta hnodup)]
          simp only [mem_turns]
        · rw [Except.ok.injEq, hcaniff]
          exact fun hfound => (hfound.blocked h).not_apart hapart

/-- A movable group moves atomically; and only a movable one does, where the bottoms can be searched. -/
theorem atomic_of_movable (h : Represents s L) (hnodup : ids.Nodup) (hstored : ∀ id ∈ ids, L.rect id ≠ none)
    (hv : ∀ transpose', transpose' = transpose ∨ transpose' = false → ∀ id ∈ ids, ∀ r, L.rect id = some r →
      (destination delta transpose' r).valid) :
    (Movable std s L (destination delta transpose) (destination delta false) ids delta transpose →
        Atomic L (destination delta transpose) ids s (canMoveRelative std fc s ids delta transpose).2
          (moveRelative std fc ids delta transpose s)) ∧
      (s.BottomsSearchable → Atomic L (destination delta transpose) ids s
          (canMoveRelative std fc s ids delta transpose).2 (moveRelative std fc ids delta transpose s) →
        Movable std s L (destination delta transpose) (destination delta false) ids delta transpose) := by
  rw [atomic_iff_settled std fc h hnodup hstored hv]
  constructor
  · rintro (htrivial | ⟨hapart, hfree, hturn, hdest⟩ | ⟨hs, hblocked₀, hblocked⟩)
    · exact .inl htrivial
    · exact .inr (.inl ⟨hapart, fun hfound => hfree (hfound.blocked h), hturn, hdest⟩)
    · exact .inr (.inr ⟨hblocked.not_apart, found_of_blocked h hs hblocked₀, found_of_blocked h hs hblocked⟩)
  · rintro hs (htrivial | ⟨hapart, hfree, hturn, hdest⟩ | ⟨-, hfound₀, hfound⟩)
    · exact .inl htrivial
    · exact .inr (.inl ⟨hapart, fun hblocked => hfree (found_of_blocked h hs hblocked), hturn, hdest⟩)
    · exact .inr (.inr ⟨hs, hfound₀.blocked h, hfound.blocked h⟩)

/-! ## Relative and absolute moves -/

/-- The rectangle `delta` away from where it is. -/
def shifted (delta : Point I16) (transpose : Bool) (r : Rectangle I16) : Rectangle I16 :=
  r.placed (r.left.toInt + delta.x.toInt) (r.top.toInt + delta.y.toInt) transpose

/-- The displacement keeps the coordinates of the group within 16 bits. -/
def ShiftFits (L : Layout) (ids : List U32) (delta : Point I16) (transpose : Bool) : Prop :=
  ∀ id ∈ ids, ∀ r, L.rect id = some r → r.Fits (r.left.toInt + delta.x.toInt) (r.top.toInt + delta.y.toInt) transpose

theorem fits_false {r : Rectangle I16} {x y : Int} (h : r.Fits x y transpose) : r.Fits x y false :=
  ⟨h.left, h.top, h.right, h.bottom, nofun, nofun⟩

theorem toInt_add_within {a b : I16} (h : Rectangle.Within (a.toInt + b.toInt)) : (a + b).toInt = a.toInt + b.toInt := by
  unfold Rectangle.Within at h
  rw [Int16.toInt_add, Int.bmod_def]
  omega

theorem destination_shifted (hfits : ShiftFits L ids delta transpose) (transpose' : Bool)
    (ht : transpose' = transpose ∨ transpose' = false) :
    Agree L ids (destination delta transpose') (shifted delta transpose') ∧
      ∀ id ∈ ids, ∀ r, L.rect id = some r → (destination delta transpose' r).valid := by
  have hone : ∀ id ∈ ids, ∀ r, L.rect id = some r →
      destination delta transpose' r = shifted delta transpose' r ∧ (shifted delta transpose' r).valid := by
    intro id hid r hr
    have hfit := hfits id hid r hr
    have hv := (L.decomposable hr).valid
    have hfit' : r.Fits (r.left.toInt + delta.x.toInt) (r.top.toInt + delta.y.toInt) transpose' := by
      rcases ht with rfl | rfl
      · exact hfit
      · exact fits_false hfit
    exact ⟨Rectangle.destination_eq hv (toInt_add_within hfit.left) (toInt_add_within hfit.top) hfit',
      Rectangle.placed_valid hv hfit'⟩
  refine ⟨fun id hid r hr => (hone id hid r hr).1, fun id hid r hr => ?_⟩
  rw [(hone id hid r hr).1]
  exact (hone id hid r hr).2

theorem destination_placed {id : U32} {src : Rectangle I16} {newPos : Point I16} (hid : L.rect id = some src)
    (hfit : src.Fits newPos.x.toInt newPos.y.toInt transpose) (transpose' : Bool)
    (ht : transpose' = transpose ∨ transpose' = false) :
    Agree L [id] (destination (newPos.sub src.topLeft) transpose')
        (fun r => r.placed newPos.x.toInt newPos.y.toInt transpose') ∧
      ∀ i ∈ [id], ∀ r, L.rect i = some r → (destination (newPos.sub src.topLeft) transpose' r).valid := by
  have hone : destination (newPos.sub src.topLeft) transpose' src =
      src.placed newPos.x.toInt newPos.y.toInt transpose' ∧
      (src.placed newPos.x.toInt newPos.y.toInt transpose').valid := by
    have hv := (L.decomposable hid).valid
    have hfit' : src.Fits newPos.x.toInt newPos.y.toInt transpose' := by
      rcases ht with rfl | rfl
      · exact hfit
      · exact fits_false hfit
    have hback : ∀ a b : I16, (a + (b - a)).toInt = b.toInt := fun a b => by
      have ha := RectangleDecomposer.bounds a
      have hb := RectangleDecomposer.bounds b
      simp only [Int16.toInt_add, Int16.toInt_sub, Int.bmod_def]
      omega
    exact ⟨Rectangle.destination_eq hv (hback _ _) (hback _ _) hfit', Rectangle.placed_valid hv hfit'⟩
  have honly : ∀ i ∈ [id], ∀ r, L.rect i = some r → r = src := fun i hi r hr => by
    rw [List.mem_singleton.mp hi, hid] at hr
    exact (Option.some.inj hr).symm
  refine ⟨fun i hi r hr => ?_, fun i hi r hr => ?_⟩
  · rw [honly i hi r hr]
    exact hone.1
  · rw [honly i hi r hr, hone.1]
    exact hone.2

/-- Two rectangles side by side, one of them in a single row, the second one taller. -/
def sideBySide (fc : FlatMap) (row : I16) : Action Unit := do
  let _ ← tryAdd fc ⟨⟨0, 0⟩, ⟨row, row⟩⟩
  let _ ← tryAdd fc ⟨⟨1, 1⟩, ⟨0, 10⟩⟩

theorem sideBySide_spec (fc : FlatMap) {row : I16} (hrow : row = 0 ∨ row = 1) : ∃ s L, sideBySide fc row {} = .ok () s ∧ Represents s L ∧
    ∀ id r, L.rect id = some r ↔ id = 2 ∧ r = ⟨⟨1, 1⟩, ⟨0, 10⟩⟩ ∨ id = 1 ∧ r = ⟨⟨0, 0⟩, ⟨row, row⟩⟩ := by
  have hdec : (⟨⟨0, 0⟩, ⟨row, row⟩⟩ : Rectangle I16).Decomposable := by
    rcases hrow with rfl | rfl <;> exact ⟨by decide, by decide, by decide⟩
  obtain ⟨s₁, hclear₁, hadd₁, hnext₁, h₁⟩ := (tryAdd_spec fc represents_empty hdec).2 nofun rfl
  have hone : ∀ id r, (Layout.empty.put 1 ⟨⟨0, 0⟩, ⟨row, row⟩⟩ hdec hclear₁).rect id = some r ↔
      id = 1 ∧ r = ⟨⟨0, 0⟩, ⟨row, row⟩⟩ := fun id r => by
    rw [Layout.put_eq_some]
    exact or_iff_left nofun
  obtain ⟨s₂, hclear₂, hadd₂, hnext₂, h₂⟩ := (tryAdd_spec fc h₁
    (r := ⟨⟨1, 1⟩, ⟨0, 10⟩⟩) ⟨by decide, by decide, by decide⟩).2 (fun id r hr => by
      rw [((hone id r).mp hr).2]
      rcases hrow with rfl | rfl <;> decide) (by
      rw [Option.eq_none_iff_forall_ne_some]
      intro r hr
      exact absurd (hnext₁ ▸ ((hone _ r).mp hr).1) (by decide))
  refine ⟨s₂, _, ?_, h₂, fun id r => ?_⟩
  · rw [sideBySide, bind_apply_ok hadd₁, bind_apply_ok hadd₂]
    rfl
  · rw [Layout.put_eq_some, hone, hnext₁]
    refine or_congr_right (and_iff_left_of_imp ?_)
    rintro ⟨rfl, -⟩
    decide

/-- From any proper state, a relative move of stored rectangles and an absolute move of one are atomic, and agree with
their checks, if they are movable; and only if they are, where the bottoms can be searched. -/
theorem moves_atomic_iff (h : Represents s L) :
    (∀ (ids : List U32) (delta : Point I16) (transpose : Bool), ids.Nodup → (∀ id ∈ ids, L.rect id ≠ none) →
      ShiftFits L ids delta transpose →
      (Movable std s L (shifted delta transpose) (shifted delta false) ids delta transpose →
          Atomic L (shifted delta transpose) ids s (canMoveRelative std fc s ids delta transpose).2
            (moveRelative std fc ids delta transpose s)) ∧
        (s.BottomsSearchable →
          (Atomic L (shifted delta transpose) ids s (canMoveRelative std fc s ids delta transpose).2
              (moveRelative std fc ids delta transpose s) ↔
            Movable std s L (shifted delta transpose) (shifted delta false) ids delta transpose))) ∧
    ∀ (id : U32) (src : Rectangle I16) (newPos : Point I16) (transpose : Bool), L.rect id = some src →
      src.Fits newPos.x.toInt newPos.y.toInt transpose →
      (Movable std s L (fun r => r.placed newPos.x.toInt newPos.y.toInt transpose)
            (fun r => r.placed newPos.x.toInt newPos.y.toInt false) [id] (newPos.sub src.topLeft) transpose →
          Atomic L (fun r => r.placed newPos.x.toInt newPos.y.toInt transpose) [id] s
            (canMoveAbsolute std fc s id newPos transpose) (moveAbsolute std fc id newPos transpose s)) ∧
        (s.BottomsSearchable →
          (Atomic L (fun r => r.placed newPos.x.toInt newPos.y.toInt transpose) [id] s
              (canMoveAbsolute std fc s id newPos transpose) (moveAbsolute std fc id newPos transpose s) ↔
            Movable std s L (fun r => r.placed newPos.x.toInt newPos.y.toInt transpose)
              (fun r => r.placed newPos.x.toInt newPos.y.toInt false) [id] (newPos.sub src.topLeft) transpose)) := by
  constructor
  · intro ids delta transpose hnodup hstored hfits
    have hagree := (destination_shifted hfits transpose (.inl rfl)).1
    have hagree₀ := (destination_shifted hfits false (.inr rfl)).1
    rw [← hagree.atomic_iff, ← hagree.movable_iff std hagree₀]
    obtain ⟨hatomic, hmovable⟩ := atomic_of_movable std fc h hnodup hstored fun transpose' ht =>
      (destination_shifted hfits transpose' ht).2
    exact ⟨hatomic, fun hs => ⟨hmovable hs, hatomic⟩⟩
  · intro id src newPos transpose hid hfit
    have hagree := (destination_placed hid hfit transpose (.inl rfl)).1
    have hagree₀ := (destination_placed hid hfit false (.inr rfl)).1
    have hat : s.rectangleAt fc id = some src := (h.rectangleAt_eq fc id).trans hid
    have hcan : canMoveAbsolute std fc s id newPos transpose =
        (canMoveRelative std fc s [id] (newPos.sub src.topLeft) transpose).2 := by
      rw [canMoveAbsolute, hat]
    have hmove : moveAbsolute std fc id newPos transpose s =
        moveRelative std fc [id] (newPos.sub src.topLeft) transpose s := by
      rw [moveAbsolute, get_bind_apply, hat]
    have hstored : ∀ i ∈ [id], L.rect i ≠ none := fun i hi => by
      rw [List.mem_singleton.mp hi, hid]
      exact Option.some_ne_none src
    rw [hcan, hmove, ← hagree.atomic_iff, ← hagree.movable_iff std hagree₀]
    obtain ⟨hatomic, hmovable⟩ := atomic_of_movable std fc h (List.nodup_singleton id) hstored fun transpose' ht =>
      (destination_placed hid hfit transpose' ht).2
    exact ⟨hatomic, fun hs => ⟨hmovable hs, hatomic⟩⟩

/-- The first of the two has room on the other side of the second, and moves there; where the second is, it cannot. -/
theorem moves_atomic_one : ∃ s L, sideBySide .simple 0 {} = .ok () s ∧ Represents s L ∧
    Atomic L (shifted ⟨2, 0⟩ false) [1] s (canMoveRelative .insertion .simple s [1] ⟨2, 0⟩ false).2
      (moveRelative .insertion .simple [1] ⟨2, 0⟩ false s) ∧
    Atomic L (shifted ⟨1, 0⟩ false) [1] s (canMoveRelative .insertion .simple s [1] ⟨1, 0⟩ false).2
      (moveRelative .insertion .simple [1] ⟨1, 0⟩ false s) := by
  obtain ⟨s, L, hrun, h, hrect⟩ := sideBySide_spec .simple (.inl rfl)
  have hfirst : ∀ id ∈ [(1 : U32)], ∀ r, L.rect id = some r → r = ⟨⟨0, 0⟩, ⟨0, 0⟩⟩ := fun id hid r hr => by
    rcases (hrect id r).mp hr with ⟨rfl, -⟩ | ⟨-, rfl⟩
    · exact absurd (List.mem_singleton.mp hid) (by decide)
    · rfl
  have hone : L.rect 1 = some ⟨⟨0, 0⟩, ⟨0, 0⟩⟩ := (hrect 1 _).mpr (.inr ⟨rfl, rfl⟩)
  have htwo : L.rect 2 = some ⟨⟨1, 1⟩, ⟨0, 10⟩⟩ := (hrect 2 _).mpr (.inl ⟨rfl, rfl⟩)
  have hstored : ∀ id ∈ [(1 : U32)], L.rect id ≠ none := fun id hid => by
    rw [List.mem_singleton.mp hid, hone]
    exact Option.some_ne_none _
  have hapart : ∀ id ∈ [(1 : U32)], ∀ j, j ∉ [(1 : U32)] → ∀ r r', L.rect id = some r → L.rect j = some r' →
      ¬ (shifted ⟨2, 0⟩ false r).intersects r' := fun id hid j hj r r' hr hr' => by
    rw [hfirst id hid r hr]
    rcases (hrect j r').mp hr' with ⟨-, rfl⟩ | ⟨rfl, -⟩
    · decide
    · exact absurd List.mem_cons_self hj
  have hsearchable : s.BottomsSearchable := by
    have heval : (match sideBySide .simple 0 {} with
        | .ok _ s => decide s.BottomsSearchable
        | .error _ _ => false) = true := by decide +kernel
    rw [hrun] at heval
    exact of_decide_eq_true heval
  have hblocked : L.Blocked (shifted ⟨1, 0⟩ false) [1] :=
    ⟨1, List.mem_cons_self, _, hone, 2, _, htwo, by decide, by decide⟩
  refine ⟨s, L, hrun, h, ((moves_atomic_iff .insertion .simple h).1 [1] ⟨2, 0⟩ false (by decide) hstored
    (fun id hid r hr => ?_)).1 (.inr (.inl ⟨⟨fun i hi j hj hij => ?_, hapart⟩, ?_, ?_, fun id hid r hr => ?_⟩)),
    (((moves_atomic_iff .insertion .simple h).1 [1] ⟨1, 0⟩ false (by decide) hstored
      (fun id hid r hr => ?_)).2 hsearchable).mpr (.inr (.inr ⟨hsearchable, hblocked, hblocked⟩))⟩
  · rw [hfirst id hid r hr]
    exact ⟨by decide, by decide, by decide, by decide, nofun, nofun⟩
  · exact absurd ((List.mem_singleton.mp hi).trans (List.mem_singleton.mp hj).symm) hij
  · exact fun hblocked => hblocked.not_apart ⟨fun i hi j hj hij => absurd
      ((List.mem_singleton.mp hi).trans (List.mem_singleton.mp hj).symm) hij, hapart⟩
  · exact List.pairwise_singleton _ _
  · rw [hfirst id hid r hr]
    exact ⟨by decide, by decide, by decide⟩
  · rw [hfirst id hid r hr]
    exact ⟨by decide, by decide, by decide, by decide, nofun, nofun⟩

/-- Down and to the right there is room for both. The lower one goes first, to where the other one still is. -/
theorem group_move_throws : ∃ s L, sideBySide .simple 1 {} = .ok () s ∧ Represents s L ∧
    ((∀ id ∈ [(1 : U32), 2], L.rect id ≠ none) ∧ ShiftFits L [1, 2] ⟨1, 1⟩ false ∧
      L.Apart (shifted ⟨1, 1⟩ false) [1, 2]) ∧
    (∃ s', moveRelative .insertion .simple [1, 2] ⟨1, 1⟩ false s = .error .logicError s') ∧
    ¬ Atomic L (shifted ⟨1, 1⟩ false) [1, 2] s (canMoveRelative .insertion .simple s [1, 2] ⟨1, 1⟩ false).2
      (moveRelative .insertion .simple [1, 2] ⟨1, 1⟩ false s) := by
  obtain ⟨s, L, hrun, h, hrect⟩ := sideBySide_spec .simple (.inr rfl)
  have hthrows : ∃ s', moveRelative .insertion .simple [1, 2] ⟨1, 1⟩ false s = .error .logicError s' := by
    have hrun' := bind_apply_ok hrun fun _ => moveRelative .insertion .simple [1, 2] ⟨1, 1⟩ false
    have heval : (match (sideBySide .simple 1 >>= fun _ => moveRelative .insertion .simple [1, 2] ⟨1, 1⟩ false) {} with
        | .error .logicError _ => true
        | _ => false) = true := by decide +kernel
    rw [hrun'] at heval
    split at heval
    · next s' heq => exact ⟨s', heq⟩
    · exact absurd heval Bool.false_ne_true
  refine ⟨s, L, hrun, h, ⟨fun id hid => ?_, fun id _ r hr => ?_, ⟨fun i _ j _ hij r r' hr hr' => ?_, fun i _ j hj r r' _ hr' => ?_⟩⟩,
    hthrows, ?_⟩
  · rcases List.mem_cons.mp hid with rfl | hid
    · rw [(hrect 1 _).mpr (.inr ⟨rfl, rfl⟩)]
      exact Option.some_ne_none _
    · rw [List.mem_singleton.mp hid, (hrect 2 _).mpr (.inl ⟨rfl, rfl⟩)]
      exact Option.some_ne_none _
  · rcases (hrect id r).mp hr with ⟨-, rfl⟩ | ⟨-, rfl⟩
    · exact ⟨by decide, by decide, by decide, by decide, nofun, nofun⟩
    · exact ⟨by decide, by decide, by decide, by decide, nofun, nofun⟩
  · rcases (hrect i r).mp hr with ⟨rfl, rfl⟩ | ⟨rfl, rfl⟩ <;> rcases (hrect j r').mp hr' with ⟨rfl, rfl⟩ | ⟨rfl, rfl⟩
    · exact absurd rfl hij
    · decide
    · decide
    · exact absurd rfl hij
  · rcases (hrect j r').mp hr' with ⟨rfl, -⟩ | ⟨rfl, -⟩
    · exact absurd (by decide) hj
    · exact absurd (by decide) hj
  · obtain ⟨s', hs'⟩ := hthrows
    rw [hs']
    exact not_false

end SpatialMap

end Pepp
