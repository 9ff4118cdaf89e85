import Pepp.Geom.Layout

/-!
# Group moves

A group moves one rectangle after the other. `Moves` is that on layouts; it is
possible exactly if the destinations are free of each other, of what stays and,
for each of them, of the rectangles still waiting for their turn.
-/

namespace Pepp

open Algorithms (StdSort lowerBound binarySearch)
open Containers (FlatMap Sorted)

/-! ## Destinations -/

namespace Rectangle

def Within (n : Int) : Prop := -32768 ≤ n ∧ n < 32768

instance (n : Int) : Decidable (Within n) := inferInstanceAs (Decidable (_ ∧ _))

/-- The rectangle with its corner at a point, height and width exchanged on demand. -/
def placed (self : Rectangle I16) (x y : Int) (transpose : Bool) : Rectangle I16 :=
  let width := self.right.toInt - self.left.toInt
  let height := self.bottom.toInt - self.top.toInt
  ⟨⟨Int16.ofInt x, Int16.ofInt (x + if transpose then height else width)⟩,
    ⟨Int16.ofInt y, Int16.ofInt (y + if transpose then width else height)⟩⟩

/-- With and without transposition, the coordinates stay within 16 bits. -/
structure Fits (r : Rectangle I16) (x y : Int) (transpose : Bool) : Prop where
  left : Within x
  top : Within y
  right : Within (x + (r.right.toInt - r.left.toInt))
  bottom : Within (y + (r.bottom.toInt - r.top.toInt))
  right' : transpose = true → Within (x + (r.bottom.toInt - r.top.toInt))
  bottom' : transpose = true → Within (y + (r.right.toInt - r.left.toInt))

variable {r : Rectangle I16} {x y : Int} {delta : Point I16}

theorem ext_toInt {a b : Rectangle I16} (hl : a.left.toInt = b.left.toInt) (hr : a.right.toInt = b.right.toInt)
    (ht : a.top.toInt = b.top.toInt) (hb : a.bottom.toInt = b.bottom.toInt) : a = b := by
  obtain ⟨⟨al, ar⟩, ⟨at_, ab⟩⟩ := a
  obtain ⟨⟨bl, br⟩, ⟨bt, bb⟩⟩ := b
  simp only [left, right, top, bottom, Int16.toInt_inj] at hl hr ht hb
  rw [hl, hr, ht, hb]

theorem placed_valid {transpose : Bool} (hv : r.valid) (h : r.Fits x y transpose) : (r.placed x y transpose).valid := by
  obtain ⟨hx, hy, hr, hb, hr', hb'⟩ := h
  rw [valid_iff] at hv ⊢
  unfold Within at *
  simp only [placed, left, right, top, bottom] at *
  cases transpose with
  | true =>
    have hr' := hr' rfl
    have hb' := hb' rfl
    simp only [if_true]
    rw [RectangleDecomposer.toInt_ofInt hx, RectangleDecomposer.toInt_ofInt hy, RectangleDecomposer.toInt_ofInt hr',
      RectangleDecomposer.toInt_ofInt hb']
    omega
  | false =>
    simp only [Bool.false_eq_true, if_false]
    rw [RectangleDecomposer.toInt_ofInt hx, RectangleDecomposer.toInt_ofInt hy, RectangleDecomposer.toInt_ofInt hr,
      RectangleDecomposer.toInt_ofInt hb]
    omega

theorem translated_eq {transpose : Bool} (hx : (r.left + delta.x).toInt = x) (hy : (r.top + delta.y).toInt = y)
    (h : r.Fits x y transpose) : r.translated delta = r.placed x y false := by
  have hright := h.right
  have hbottom := h.bottom
  unfold Within at hright hbottom
  have hr : (r.right + delta.x).toInt = x + (r.right.toInt - r.left.toInt) := by
    rw [Int16.toInt_add, Int.bmod_def] at *
    omega
  have hb : (r.bottom + delta.y).toInt = y + (r.bottom.toInt - r.top.toInt) := by
    rw [Int16.toInt_add, Int.bmod_def] at *
    omega
  refine ext_toInt ?_ ?_ ?_ ?_
  · exact hx.trans (RectangleDecomposer.toInt_ofInt h.left).symm
  · exact hr.trans (RectangleDecomposer.toInt_ofInt h.right).symm
  · exact hy.trans (RectangleDecomposer.toInt_ofInt h.top).symm
  · exact hb.trans (RectangleDecomposer.toInt_ofInt h.bottom).symm

theorem transposed_eq (hv : r.valid) (h : r.Fits x y true) : (r.placed x y false).transposed = r.placed x y true := by
  have hfits : r.Fits x y false := ⟨h.left, h.top, h.right, h.bottom, nofun, nofun⟩
  have hvalid := placed_valid hv hfits
  have hx := RectangleDecomposer.toInt_ofInt h.left
  have hy := RectangleDecomposer.toInt_ofInt h.top
  have hr := RectangleDecomposer.toInt_ofInt h.right
  have hb := RectangleDecomposer.toInt_ofInt h.bottom
  have hr' := h.right' rfl
  have hb' := h.bottom' rfl
  have hwidth : (r.placed x y false).width.toInt = (r.right.toInt - r.left.toInt + 1).bmod (2 ^ 16) := by
    rw [RectangleDecomposer.toInt_width, Interval.sizeInclusive, if_neg (not_not.mpr hvalid.1)]
    simp only [placed, Bool.false_eq_true, if_false, hx, hr]
    congr 1
    omega
  have hheight : (r.placed x y false).height.toInt = (r.bottom.toInt - r.top.toInt + 1).bmod (2 ^ 16) := by
    rw [RectangleDecomposer.toInt_height, Interval.sizeInclusive, if_neg (not_not.mpr hvalid.2)]
    simp only [placed, Bool.false_eq_true, if_false, hy, hb]
    congr 1
    omega
  refine ext_toInt rfl ?_ rfl ?_
  · refine Eq.trans ?_ (RectangleDecomposer.toInt_ofInt hr').symm
    change (Int16.ofInt x + (r.placed x y false).height - 1).toInt = _
    rw [Int16.toInt_sub, Int16.toInt_add, hheight, hx]
    change Int.bmod (_ - 1) _ = _
    unfold Within at hr'
    simp only [Int.bmod_def]
    omega
  · refine Eq.trans ?_ (RectangleDecomposer.toInt_ofInt hb').symm
    change (Int16.ofInt y + (r.placed x y false).width - 1).toInt = _
    rw [Int16.toInt_sub, Int16.toInt_add, hwidth, hy]
    change Int.bmod (_ - 1) _ = _
    unfold Within at hb'
    simp only [Int.bmod_def]
    omega

/-- The code's destination is the rectangle with its corner where it was asked for. -/
theorem destination_eq {transpose : Bool} (hv : r.valid) (hx : (r.left + delta.x).toInt = x)
    (hy : (r.top + delta.y).toInt = y) (h : r.Fits x y transpose) :
    SpatialMap.destination delta transpose r = r.placed x y transpose := by
  have htranslated := translated_eq hx hy h
  cases transpose with
  | false => exact htranslated
  | true => exact (congrArg transposed htranslated).trans (transposed_eq hv h)

end Rectangle

/-! ## Moves of a layout -/

namespace Layout

/-- One after the other, the rectangles go to where nothing else is. -/
inductive Moves (D : Rectangle I16 → Rectangle I16) : Layout → List U32 → Layout → Prop
  | nil {L : Layout} : Moves D L [] L
  | cons {L L' : Layout} {id : U32} {src : Rectangle I16} {rest : List U32} (hid : L.rect id = some src)
      (hdest : (D src).Decomposable) (hclear : L.Clear id (D src))
      (hrest : Moves D (L.put id (D src) hdest hclear) rest L') : Moves D L (id :: rest) L'

/-- The destinations are disjoint, and disjoint from what stays. -/
structure Apart (L : Layout) (D : Rectangle I16 → Rectangle I16) (ids : List U32) : Prop where
  movers : ∀ i ∈ ids, ∀ j ∈ ids, i ≠ j → ∀ r r', L.rect i = some r → L.rect j = some r' → ¬ (D r).intersects (D r')
  others : ∀ i ∈ ids, ∀ j, j ∉ ids → ∀ r r', L.rect i = some r → L.rect j = some r' → ¬ (D r).intersects r'

/-- A destination is not free of the rectangles that stay. -/
def Blocked (L : Layout) (D : Rectangle I16 → Rectangle I16) (ids : List U32) : Prop :=
  ∃ i ∈ ids, ∃ r, L.rect i = some r ∧ ∃ j r', L.rect j = some r' ∧ (D r).intersects r' ∧ j ∉ ids

/-- No destination is where a rectangle still waits. -/
def InTurn (L : Layout) (D : Rectangle I16 → Rectangle I16) (ids : List U32) : Prop :=
  ids.Pairwise fun i j => ∀ r r', L.rect i = some r → L.rect j = some r' → ¬ (D r).intersects r'

variable {D D' : Rectangle I16 → Rectangle I16} {L L' : Layout} {ids : List U32}

theorem Blocked.not_apart (hblocked : L.Blocked D ids) : ¬ L.Apart D ids := by
  obtain ⟨i, hi, r, hr, j, r', hj, hmeet, hout⟩ := hblocked
  exact fun hapart => hapart.others i hi j hout r r' hr hj hmeet

theorem Moves.rect_eq (h : Moves D L ids L') (hnodup : ids.Nodup) (id : U32) :
    L'.rect id = if id ∈ ids then (L.rect id).map D else L.rect id := by
  induction h with
  | nil => rw [if_neg List.not_mem_nil]
  | @cons L L' i src rest hi hdest hclear hrest ih =>
    obtain ⟨hnot, hnodup⟩ := List.nodup_cons.mp hnodup
    rw [ih hnodup]
    by_cases hid : id = i
    · subst hid
      rw [if_neg hnot, if_pos List.mem_cons_self, hi, Option.map_some]
      exact L.put_self hdest hclear
    · have hrect := L.put_of_ne hdest hclear hid
      simp only [hrect, List.mem_cons, hid, false_or]

/-- The rectangles can move if they can all be where they are to be, and none of them is in an earlier one's way. -/
theorem moves_iff (D : Rectangle I16 → Rectangle I16) (hnodup : ids.Nodup) (hstored : ∀ id ∈ ids, L.rect id ≠ none) :
    (∃ L', Moves D L ids L') ↔
      (L.Apart D ids ∧ L.InTurn D ids) ∧ ∀ id ∈ ids, ∀ r, L.rect id = some r → (D r).Decomposable := by
  induction ids generalizing L with
  | nil => exact iff_of_true ⟨L, .nil⟩ ⟨⟨⟨nofun, nofun⟩, List.Pairwise.nil⟩, nofun⟩
  | cons id rest ih =>
    obtain ⟨hnot, hnodup⟩ := List.nodup_cons.mp hnodup
    obtain ⟨src, hid⟩ := Option.ne_none_iff_exists'.mp (hstored id List.mem_cons_self)
    have hne : ∀ j ∈ rest, j ≠ id := by
      rintro j hj rfl
      exact hnot hj
    -- The layout after the first rectangle has gone.
    have hput : ∀ hdest hclear, ∀ j ≠ id, (L.put id (D src) hdest hclear).rect j = L.rect j :=
      fun hdest hclear j hj => L.put_of_ne hdest hclear hj
    have hself : ∀ hdest hclear, (L.put id (D src) hdest hclear).rect id = some (D src) :=
      fun hdest hclear => L.put_self hdest hclear
    have hrest : ∀ hdest hclear, (∃ L', Moves D (L.put id (D src) hdest hclear) rest L') ↔ _ := fun hdest hclear =>
      @ih (L.put id (D src) hdest hclear) hnodup fun j hj => by
        rw [hput hdest hclear j (hne j hj)]
        exact hstored j (List.mem_cons_of_mem id hj)
    constructor
    · rintro ⟨L', hmoves⟩
      cases hmoves with
      | @cons _ _ _ src' _ hid' hdest hclear htail =>
        obtain rfl : src = src' := Option.some.inj (hid.symm.trans hid')
        obtain ⟨⟨hapart, hturn⟩, hdests⟩ := (hrest hdest hclear).mp ⟨L', htail⟩
        have hmover : ∀ j ∈ rest, ∀ r', L.rect j = some r' → ¬ (D src).intersects (D r') := fun j hj r' hr' => by
          rw [Rectangle.intersects_comm]
          exact hapart.others j hj id hnot _ _ ((hput hdest hclear j (hne j hj)).trans hr') (hself hdest hclear)
        refine ⟨⟨⟨?_, ?_⟩, List.pairwise_cons.mpr ⟨?_, ?_⟩⟩, ?_⟩
        · intro i hi j hj hij r r' hr hr'
          rcases List.mem_cons.mp hi with rfl | hirest
          · obtain rfl := Option.some.inj (hid.symm.trans hr)
            exact hmover j ((List.mem_cons.mp hj).resolve_left hij.symm) r' hr'
          · rcases List.mem_cons.mp hj with rfl | hjrest
            · obtain rfl := Option.some.inj (hid.symm.trans hr')
              rw [Rectangle.intersects_comm]
              exact hmover i hirest r hr
            · exact hapart.movers i hirest j hjrest hij r r' ((hput hdest hclear i (hne i hirest)).trans hr)
                ((hput hdest hclear j (hne j hjrest)).trans hr')
        · intro i hi j hj r r' hr hr'
          have hjid : j ≠ id := fun h => hj (h ▸ List.mem_cons_self)
          rcases List.mem_cons.mp hi with rfl | hi
          · obtain rfl := Option.some.inj (hid.symm.trans hr)
            exact hclear j r' hjid hr'
          · exact hapart.others i hi j (fun h => hj (List.mem_cons_of_mem id h)) r r'
              ((hput hdest hclear i (hne i hi)).trans hr) ((hput hdest hclear j hjid).trans hr')
        · intro j hj r r' hr hr'
          obtain rfl := Option.some.inj (hid.symm.trans hr)
          exact hclear j r' (hne j hj) hr'
        · refine List.Pairwise.imp_of_mem (fun {i j} hi hj h r r' hr hr' => ?_) hturn
          exact h r r' ((hput hdest hclear i (hne i hi)).trans hr) ((hput hdest hclear j (hne j hj)).trans hr')
        · intro i hi r hr
          rcases List.mem_cons.mp hi with rfl | hi
          · obtain rfl := Option.some.inj (hid.symm.trans hr)
            exact hdest
          · exact hdests i hi r ((hput hdest hclear i (hne i hi)).trans hr)
    · rintro ⟨⟨hapart, hturn⟩, hdests⟩
      obtain ⟨hfirst, hturn⟩ := List.pairwise_cons.mp hturn
      have hdest := hdests id List.mem_cons_self src hid
      have hclear : L.Clear id (D src) := fun j r' hj hr' => by
        by_cases hmem : j ∈ rest
        · exact hfirst j hmem src r' hid hr'
        · exact hapart.others id List.mem_cons_self j (fun h => (List.mem_cons.mp h).elim hj hmem) src r' hid hr'
      suffices htail : ∃ L', Moves D (L.put id (D src) hdest hclear) rest L' from
        htail.imp fun L' htail => .cons hid hdest hclear htail
      refine (hrest hdest hclear).mpr ⟨⟨⟨fun i hi j hj hij r r' hr hr' => ?_, fun i hi j hj r r' hr hr' => ?_⟩,
        List.Pairwise.imp_of_mem (fun {i j} hi hj h r r' hr hr' => ?_) hturn⟩, fun i hi r hr => ?_⟩
      · rw [hput hdest hclear i (hne i hi)] at hr
        rw [hput hdest hclear j (hne j hj)] at hr'
        exact hapart.movers i (List.mem_cons_of_mem id hi) j (List.mem_cons_of_mem id hj) hij r r' hr hr'
      · rw [hput hdest hclear i (hne i hi)] at hr
        by_cases hjid : j = id
        · subst hjid
          rw [hself] at hr'
          cases hr'
          exact hapart.movers i (List.mem_cons_of_mem j hi) j List.mem_cons_self (hne i hi) r src hr hid
        · rw [hput hdest hclear j hjid] at hr'
          exact hapart.others i (List.mem_cons_of_mem id hi) j (fun h => (List.mem_cons.mp h).elim hjid hj) r r' hr hr'
      · rw [hput hdest hclear i (hne i hi)] at hr
        rw [hput hdest hclear j (hne j hj)] at hr'
        exact h r r' hr hr'
      · rw [hput hdest hclear i (hne i hi)] at hr
        exact hdests i (List.mem_cons_of_mem id hi) r hr

end Layout

/-! ## Moves of a spatial map -/

namespace SpatialMap

variable (fc : FlatMap) {s : SpatialMap} {L L' : Layout} {delta : Point I16} {transpose : Bool}
  {ids : List U32}

open Outcome

theorem moveEach_of_moves (h : Represents s L) (hmoves : Layout.Moves (destination delta transpose) L ids L') :
    ∃ s', moveEach fc delta transpose ids s = .ok () s' ∧ s'.next = s.next ∧ Represents s' L' := by
  induction hmoves generalizing s with
  | nil => exact ⟨s, rfl, rfl, h⟩
  | cons hid hdest hclear _ ih =>
    obtain ⟨s₁, hone, hnext, h₁⟩ := (moveOne_spec fc h hid hdest).1 hclear
    obtain ⟨s', heach, hnext', h'⟩ := ih h₁
    refine ⟨s', ?_, hnext'.trans hnext, h'⟩
    rw [moveEach, bind_apply_ok hone]
    exact heach

variable {s' : SpatialMap}

/-- A step that returns has changed the map of ids, whatever became of the grid. -/
theorem moveOne_ids {id : U32} (h : moveOne fc delta transpose id s = .ok () s') :
    ∃ src, s.rectangleAt fc id = some src ∧
      s'.indexToRectangle = fc.insertOrAssign idLess id (destination delta transpose src) s.indexToRectangle := by
  rw [moveOne, get_bind_apply] at h
  cases hat : s.rectangleAt fc id with
  | none =>
    rw [hat] at h
    cases h
  | some src =>
    refine ⟨src, rfl, ?_⟩
    simp only [hat] at h
    cases hremove : s.grid.remove src with
    | none =>
      rw [hremove] at h
      cases h
    | some grid =>
      cases hadd : grid.tryAdd (destination delta transpose src) with
      | none =>
        simp only [hremove, ended_some, liftQuery_ok, pure_bind, hadd, ended_none, liftQuery_error] at h
        cases h
      | some result =>
        obtain ⟨added, grid'⟩ := result
        simp only [hremove, ended_some, liftQuery_ok, pure_bind, hadd] at h
        cases added with
        | false => cases h
        | true =>
          cases h
          rfl

/-- Other rectangles keep their place in the map of ids. -/
theorem moveEach_frame (hs : Sorted BitVec.toNat s.indexToRectangle) (h : moveEach fc delta transpose ids s = .ok () s')
    {id : U32} (hid : id ∉ ids) (r : Rectangle I16) : (id, r) ∈ s.indexToRectangle → (id, r) ∈ s'.indexToRectangle := by
  induction ids generalizing s with
  | nil =>
    cases h
    exact fun hmem => hmem
  | cons i rest ih =>
    intro hmem
    cases hone : moveOne fc delta transpose i s with
    | error e s₁ =>
      rw [moveEach, bind_apply_error hone] at h
      cases h
    | ok _ s₁ =>
      rw [moveEach, bind_apply_ok hone] at h
      obtain ⟨src, -, hids⟩ := moveOne_ids fc hone
      rw [List.mem_cons, not_or] at hid
      refine ih ?_ h hid.2 ?_
      · rw [hids]
        exact fc.sorted_insert i _ compares_ids hs
      · rw [hids, fc.mem_insert compares_ids hs (fun _ _ => BitVec.eq_of_toNat_eq)]
        exact .inr ⟨hmem, hid.1⟩

/-- Moves that return to a proper state were possible. -/
theorem moves_of_moveEach (h : Represents s L) (h' : Represents s' L') (hnodup : ids.Nodup)
    (hstored : ∀ id ∈ ids, L.rect id ≠ none) (heq : moveEach fc delta transpose ids s = .ok () s') :
    ∃ L'', Layout.Moves (destination delta transpose) L ids L'' := by
  induction ids generalizing s L with
  | nil => exact ⟨L, .nil⟩
  | cons id rest ih =>
    obtain ⟨hnot, hnodup⟩ := List.nodup_cons.mp hnodup
    obtain ⟨src, hid⟩ := Option.ne_none_iff_exists'.mp (hstored id List.mem_cons_self)
    cases hone : moveOne fc delta transpose id s with
    | error e s₁ =>
      rw [moveEach, bind_apply_error hone] at heq
      cases heq
    | ok _ s₁ =>
      rw [moveEach, bind_apply_ok hone] at heq
      have hdest : (destination delta transpose src).Decomposable := by
        obtain ⟨src', hat, hids⟩ := moveOne_ids fc hone
        rw [h.rectangleAt_eq fc, hid] at hat
        cases hat
        have hmem : (id, destination delta transpose src) ∈ s₁.indexToRectangle := by
          rw [hids, fc.mem_insert compares_ids h.sortedIds (fun _ _ => BitVec.eq_of_toNat_eq)]
          exact .inl rfl
        refine L'.decomposable ((h'.mem_ids id _).mp (moveEach_frame fc ?_ heq hnot _ hmem))
        rw [hids]
        exact fc.sorted_insert id _ compares_ids h.sortedIds
      by_cases hclear : L.Clear id (destination delta transpose src)
      · obtain ⟨s₂, hone', -, h₁⟩ := (moveOne_spec fc h hid hdest).1 hclear
        rw [hone] at hone'
        cases hone'
        obtain ⟨L'', htail⟩ := ih h₁ hnodup (fun j hj => by
          have hne : j ≠ id := by
            rintro rfl
            exact hnot hj
          rw [L.put_of_ne hdest hclear hne]
          exact hstored j (List.mem_cons_of_mem id hj)) heq
        exact ⟨L'', .cons hid hdest hclear htail⟩
      · obtain ⟨s₂, hone'⟩ := (moveOne_spec fc h hid hdest).2 hclear
        rw [hone] at hone'
        cases hone'

/-! ## The check -/

/-- A destination has a rectangle that stays in its way, and the search by bottoms does not pass that one. -/
def Found (s : SpatialMap) (L : Layout) (D : Rectangle I16 → Rectangle I16) (ids : List U32) : Prop :=
  ∃ id ∈ ids, ∃ r, L.rect id = some r ∧
    ∃ pair ∈ s.rectangleToIndex.drop (s.first (D r).top), (D r).intersects pair.1 ∧ pair.2 ∉ ids

theorem Found.blocked {D : Rectangle I16 → Rectangle I16} (h : Represents s L) (hfound : Found s L D ids) :
    L.Blocked D ids := by
  obtain ⟨id, hid, r, hr, pair, hpair, hmeet, hout⟩ := hfound
  exact ⟨id, hid, r, hr, pair.2, pair.1, (h.mem_rectangles _ _).mp (List.mem_of_mem_drop hpair), hmeet, hout⟩

/-- What is in the way is found if the bottoms can be searched. -/
theorem found_of_blocked {D : Rectangle I16 → Rectangle I16} (h : Represents s L) (hs : s.BottomsSearchable)
    (hblocked : L.Blocked D ids) : Found s L D ids := by
  obtain ⟨id, hid, r, hr, j, r', hj, hmeet, hout⟩ := hblocked
  refine ⟨id, hid, r, hr, (r', j), ?_, hmeet, hout⟩
  have hmem : (r', j) ∈ s.rectangleToIndex.take (s.first (D r).top) ++ s.rectangleToIndex.drop (s.first (D r).top) := by
    rw [List.take_append_drop]
    exact (h.mem_rectangles r' j).mpr hj
  refine (List.mem_append.mp hmem).resolve_left fun hpassed => ?_
  have habove := Represents.passed_above hs hpassed
  dsimp only at habove
  have hbelow := (Rectangle.intersects_iff.mp hmeet).2.2.2.2.1
  omega

theorem Represents.overlapping_mem (h : Represents s L) {rect : Rectangle I16} (hv : rect.valid) :
    ∃ pairs, s.overlapping rect = .ok pairs ∧ ∀ pair, pair ∈ pairs ↔
      pair ∈ s.rectangleToIndex.drop (s.first rect.top) ∧ rect.intersects pair.1 := by
  have hle := h.ordered_of_le (Rectangle.valid_iff.mp hv).2
  have hsplit := split_candidates hle
  refine ⟨((s.rectangleToIndex.take (upperBound rect.bottom s.rectangleToIndex)).drop (s.first rect.top)).filter
    fun pair => decide (rect.intersects pair.1), ?_, fun pair => ?_⟩
  · rw [overlapping, candidates_eq, if_pos hle]
    rfl
  · have hdrop : s.rectangleToIndex.drop (s.first rect.top) =
        (s.rectangleToIndex.take (upperBound rect.bottom s.rectangleToIndex)).drop (s.first rect.top) ++
          s.rectangleToIndex.drop (upperBound rect.bottom s.rectangleToIndex) := by
      refine (@List.append_cancel_left _ (s.passed rect.top) _ _ ?_).symm
      rw [← hsplit]
      exact (List.take_append_drop _ _).symm
    rw [List.mem_filter, decide_eq_true_iff, hdrop, List.mem_append]
    refine and_congr_left fun hmeet => ⟨.inl, fun hmem => hmem.resolve_right fun hbehind => ?_⟩
    have := h.below hbehind
    have := (Rectangle.intersects_iff.mp hmeet).2.2.2.2.2
    omega

theorem canMoveEach_spec (h : Represents s L) {ids : List U32} (hsorted : ids.Pairwise fun a b => a.toNat ≤ b.toNat)
    (rest : List U32) (hv : ∀ id ∈ rest, ∀ r, L.rect id = some r → (destination delta transpose r).valid) :
    ∃ can, canMoveEach fc s ids delta transpose rest = .ok can ∧ (can = true ↔ ∀ id ∈ rest, ∃ r, L.rect id = some r ∧
      ∀ pair ∈ s.rectangleToIndex.drop (s.first (destination delta transpose r).top),
        (destination delta transpose r).intersects pair.1 → pair.2 ∈ ids) := by
  induction rest with
  | nil => exact ⟨true, rfl, iff_of_true rfl nofun⟩
  | cons id rest ih =>
    obtain ⟨hvid, hvrest⟩ := List.forall_mem_cons.mp hv
    have hmem : ∀ j : U32, binarySearch BitVec.toNat j.toNat ids = true ↔ j ∈ ids := fun j => by
      rw [Algorithms.binarySearch_iff hsorted]
      exact ⟨fun ⟨i, hi, hij⟩ => BitVec.eq_of_toNat_eq hij ▸ hi, fun hj => ⟨j, hj, rfl⟩⟩
    rw [canMoveEach, h.find_eq fc]
    cases hid : L.rect id with
    | none =>
      refine ⟨false, rfl, iff_of_false Bool.false_ne_true fun hall => ?_⟩
      obtain ⟨r, hr, -⟩ := hall id List.mem_cons_self
      rw [hid] at hr
      cases hr
    | some src =>
      obtain ⟨pairs, hpairs, hmempairs⟩ := h.overlapping_mem (hvid src hid)
      obtain ⟨can, hcan, hiff⟩ := ih hvrest
      simp only [Option.map_some, hpairs]
      have hany : (pairs.any fun overlap => !binarySearch BitVec.toNat overlap.2.toNat ids) = true ↔
          ¬ ∀ pair ∈ s.rectangleToIndex.drop (s.first (destination delta transpose src).top),
            (destination delta transpose src).intersects pair.1 → pair.2 ∈ ids := by
        simp only [List.any_eq_true, Bool.not_eq_true', ← Bool.not_eq_true, hmem, hmempairs]
        constructor
        · rintro ⟨pair, ⟨hp, hmeet⟩, hout⟩ hall
          exact hout (hall pair hp hmeet)
        · intro hnot
          by_contra hnone
          exact hnot fun pair hp hmeet => by_contra fun hout => hnone ⟨pair, ⟨hp, hmeet⟩, hout⟩
      have hall : (∀ i ∈ id :: rest, ∃ r, L.rect i = some r ∧
            ∀ pair ∈ s.rectangleToIndex.drop (s.first (destination delta transpose r).top),
              (destination delta transpose r).intersects pair.1 → pair.2 ∈ ids) ↔
          (∀ pair ∈ s.rectangleToIndex.drop (s.first (destination delta transpose src).top),
            (destination delta transpose src).intersects pair.1 → pair.2 ∈ ids) ∧ can = true := by
        rw [List.forall_mem_cons, hiff, hid]
        simp
      rw [hall]
      by_cases hfound : (pairs.any fun overlap => !binarySearch BitVec.toNat overlap.2.toNat ids) = true
      · refine ⟨false, ?_, iff_of_false Bool.false_ne_true fun hboth => hany.mp hfound hboth.1⟩
        change (if _ then _ else _) = _
        rw [if_pos hfound]
        rfl
      · refine ⟨can, ?_, (and_iff_right (not_not.mp (hany.not.mp hfound))).symm⟩
        change (if _ then _ else _) = _
        rw [if_neg hfound]
        exact hcan

end SpatialMap

end Pepp
