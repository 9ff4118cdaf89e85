import Pepp.Geom.Rectangle
import Pepp.Lib.Algorithms
import Pepp.Lib.Outcome

/-!
# Spatial maps

Rectangles with identifiers: a map each way, and a grid for the check whether
anything is there. What the source leaves to its libraries are two parameters,
`std` for sorting and `fc` for the sorted maps.
-/

namespace Pepp

open Algorithms (StdSort lowerBound partitionPoint binarySearch)
open Containers (FlatMap)

/-- How an operation ends other than by returning. -/
inductive SpatialFault where
  /-- A walk over blocks without an end, or a shift that is not defined. -/
  | diverges
  /-- An iterator that starts behind the end it is compared with. -/
  | pastEnd
  /-- `std::out_of_range` -/
  | outOfRange
  /-- `std::logic_error` -/
  | logicError
  deriving DecidableEq, Repr

structure SpatialMap where
  next : U32 := 1
  grid : SparseOccupancyGrid := fun _ => none
  rectangleToIndex : List (Rectangle I16 × U32) := []
  indexToRectangle : List (U32 × Rectangle I16) := []

def Point.sub (lhs rhs : Point I16) : Point I16 := ⟨lhs.x - rhs.x, lhs.y - rhs.y⟩

namespace SpatialMap

/-- An operation leaves its changes behind when it throws. -/
abbrev Action := EStateM SpatialFault SpatialMap

def idLess (a b : U32) : Bool := decide (a.toNat < b.toNat)

/-- What a search of the grid ends in. -/
def ended {α : Type} : Option α → Except SpatialFault α
  | some a => .ok a
  | none => .error .diverges

def liftQuery {α : Type} : Except SpatialFault α → Action α
  | .ok a => pure a
  | .error e => throw e

variable {α : Type}

@[simp] theorem liftQuery_ok (a : α) : liftQuery (.ok a) = pure a := rfl

@[simp] theorem liftQuery_error (e : SpatialFault) : liftQuery (.error e) = (throw e : Action α) := rfl

@[simp] theorem ended_some (a : α) : ended (some a) = .ok a := rfl

@[simp] theorem ended_none : ended (none : Option α) = .error .diverges := rfl

/-! ## Queries -/

/-- `std::upper_bound` by top. -/
def upperBound (v : I16) (l : List (Rectangle I16 × U32)) : Nat :=
  partitionPoint (fun pair => !decide (v < pair.1.top)) l

/-- The rectangles are in scanline order; they are searched for the first one that ends at the top or below it, and
for the first one that begins below the bottom. -/
def candidates (self : SpatialMap) (top bottom : I16) : Except SpatialFault (List (Rectangle I16 × U32)) :=
  let lb := lowerBound (fun pair => pair.1.bottom.toInt) top.toInt self.rectangleToIndex
  let ub := upperBound bottom self.rectangleToIndex
  if lb ≤ ub then .ok ((self.rectangleToIndex.take ub).drop lb) else .error .pastEnd

def overlap (self : SpatialMap) (rect : Rectangle I16) : Except SpatialFault Bool := ended (self.grid.overlap rect)

def atPoint (self : SpatialMap) (pt : Point I16) : Except SpatialFault (Option U32) := do
  let pairs ← self.candidates pt.y pt.y
  return (pairs.find? fun pair => decide (pair.1.contains pt)).map Prod.snd

def atRectangle (self : SpatialMap) (rect : Rectangle I16) : Except SpatialFault (Option U32) := do
  let pairs ← self.candidates rect.top rect.bottom
  return (pairs.find? fun pair => decide (pair.1.same rect)).map Prod.snd

def overlapping (self : SpatialMap) (rect : Rectangle I16) : Except SpatialFault (List (Rectangle I16 × U32)) := do
  let pairs ← self.candidates rect.top rect.bottom
  return pairs.filter fun pair => decide (rect.intersects pair.1)

section

variable (std : StdSort) (fc : FlatMap)

/-! ## Adding and removing -/

def tryAdd (rect : Rectangle I16) : Action (Option U32) := do
  let self ← get
  if ← liftQuery (self.overlap rect) then return none
  let (added, grid) ← liftQuery (ended (self.grid.tryAdd rect))
  if !added then return none
  let id := self.next
  set { self with
    next := id + 1
    grid
    rectangleToIndex := fc.insertOrAssign Rectangle.lt rect id self.rectangleToIndex
    indexToRectangle := fc.insertOrAssign idLess id rect self.indexToRectangle }
  return some id

def remove (id : U32) : Action Bool := do
  let self ← get
  match fc.find idLess id self.indexToRectangle with
  | none => return false
  | some (_, rect) =>
    let grid ← liftQuery (ended (self.grid.remove rect))
    set { self with
      grid
      rectangleToIndex := fc.erase Rectangle.lt rect self.rectangleToIndex
      indexToRectangle := fc.erase idLess id self.indexToRectangle }
    return true

/-- `remove(Rectangle)` and `remove(Point)`, after the search for the item. -/
def removeFound (found : SpatialMap → Except SpatialFault (Option U32)) : Action (Option U32) := do
  let self ← get
  match ← liftQuery (found self) with
  | none => return none
  | some id =>
    let _ ← remove fc id
    return some id

def removeRectangle (rect : Rectangle I16) : Action (Option U32) := removeFound fc (·.atRectangle rect)

def removePoint (pt : Point I16) : Action (Option U32) := removeFound fc (·.atPoint pt)

/-! ## Moving -/

def destination (delta : Point I16) (transpose : Bool) (src : Rectangle I16) : Rectangle I16 :=
  if transpose then (src.translated delta).transposed else src.translated delta

def canMoveEach (self : SpatialMap) (ids : List U32) (delta : Point I16) (transpose : Bool) :
    List U32 → Except SpatialFault Bool
  | [] => .ok true
  | id :: rest =>
    match fc.find idLess id self.indexToRectangle with
    | none => .ok false
    | some (_, src) => do
      let overlaps ← self.overlapping (destination delta transpose src)
      if overlaps.any fun overlap => !binarySearch BitVec.toNat overlap.2.toNat ids then return false
      canMoveEach self ids delta transpose rest

/-- The caller's ids, in the order they are left in, and the answer. -/
def canMoveRelative (self : SpatialMap) (ids : List U32) (delta : Point I16) (transpose : Bool) :
    List U32 × Except SpatialFault Bool :=
  if ids = [] then (ids, .ok true)
  else if delta = ⟨0, 0⟩ ∧ !transpose then (ids, .ok true)
  else
    let ids := std.sort idLess ids
    (ids, canMoveEach fc self ids delta transpose ids)

/-- `_index_to_rectangle.at(id)` -/
def rectangleAt (self : SpatialMap) (id : U32) : Option (Rectangle I16) :=
  (fc.find idLess id self.indexToRectangle).map Prod.snd

/-- The foremost along the displacement comes first. -/
def ahead (delta : Point I16) (a b : Rectangle I16) : Bool :=
  if delta.y ≠ 0 then if 0 < delta.y then b.top < a.top else a.top < b.top
  else if 0 < delta.x then b.left < a.left else a.left < b.left

/-- The comparison throws at an id that is not there. With a single id there is no comparison, but the first
step of the move throws the same. -/
def sortAhead (self : SpatialMap) (ids : List U32) (delta : Point I16) : Except SpatialFault (List U32) :=
  if ids.any fun id => (self.rectangleAt fc id).isNone then .error .outOfRange
  else
    let rectangle id := (self.rectangleAt fc id).getD ⟨.empty, .empty⟩
    .ok (std.sort (fun a b => ahead delta (rectangle a) (rectangle b)) ids)

def moveOne (delta : Point I16) (transpose : Bool) (id : U32) : Action Unit := do
  let self ← get
  match self.rectangleAt fc id with
  | none => throw .outOfRange
  | some src =>
    let dest := destination delta transpose src
    let self := { self with
      indexToRectangle := fc.insertOrAssign idLess id dest self.indexToRectangle
      rectangleToIndex := fc.insertOrAssign Rectangle.lt dest id (fc.erase Rectangle.lt src self.rectangleToIndex) }
    let grid ← liftQuery (ended (self.grid.remove src))
    let (added, grid) ← liftQuery (ended (grid.tryAdd dest))
    set { self with grid }
    if !added then throw .logicError

def moveEach (delta : Point I16) (transpose : Bool) : List U32 → Action Unit
  | [] => pure ()
  | id :: rest => do
    moveOne fc delta transpose id
    moveEach delta transpose rest

/-- The check is made without the transposition. -/
def moveRelative (ids : List U32) (delta : Point I16) (transpose : Bool) : Action Bool := do
  if ids = [] then return true
  else if delta = ⟨0, 0⟩ ∧ !transpose then return true
  let self ← get
  let (ids, canMove) := self.canMoveRelative std fc ids delta false
  if !(← liftQuery canMove) then return false
  let ids ← liftQuery (self.sortAhead std fc ids delta)
  moveEach fc delta transpose ids
  return true

theorem moveRelative_apply {ids : List U32} {delta : Point I16} {transpose : Bool} (hids : ids ≠ [])
    (hdelta : ¬ (delta = ⟨0, 0⟩ ∧ !transpose)) (s : SpatialMap) :
    moveRelative std fc ids delta transpose s = (do
      let (ids, canMove) := s.canMoveRelative std fc ids delta false
      if !(← liftQuery canMove) then return false
      let ids ← liftQuery (s.sortAhead std fc ids delta)
      moveEach fc delta transpose ids
      return true : Action Bool) s := by
  rw [moveRelative, if_neg hids, if_neg hdelta, Outcome.get_bind_apply]

def canMoveAbsolute (self : SpatialMap) (id : U32) (newPos : Point I16) (transpose : Bool) : Except SpatialFault Bool :=
  match self.rectangleAt fc id with
  | none => .ok false
  | some src => (self.canMoveRelative std fc [id] (newPos.sub src.topLeft) transpose).2

def moveAbsolute (id : U32) (newPos : Point I16) (transpose : Bool) : Action Bool := do
  let self ← get
  match self.rectangleAt fc id with
  | none => return false
  | some src => moveRelative std fc [id] (newPos.sub src.topLeft) transpose

end

end SpatialMap

end Pepp
