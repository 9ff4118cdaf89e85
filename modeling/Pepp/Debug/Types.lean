import Pepp.Integers
import Pepp.Lib.OrderedMap
import Pepp.Lib.Orderings

/-!
# Types of the debugger

Types are compared by structure, and the comparison is that of a linear order,
so that a map with types as keys tells any two of them apart. Nothing is known
of names but their order.
-/

namespace Pepp.Debug

open Orderings

inductive Primitives where
  | i8 | u8 | i16 | u16 | i32 | u32
  deriving DecidableEq, Repr

namespace Primitives

def toU8 : Primitives → U8
  | i8 => 0
  | u8 => 1
  | i16 => 2
  | u16 => 3
  | i32 => 4
  | u32 => 5

theorem toU8_inj {p q : Primitives} (h : p.toU8 = q.toU8) : p = q := by
  cases p <;> cases q <;> first | rfl | exact absurd h (by decide)

end Primitives

inductive MetaType where
  | Never | Primitive | Pointer | Array | Struct
  deriving DecidableEq, Repr

def MetaType.toU8 : MetaType → U8
  | Never => 0
  | Primitive => 1
  | Pointer => 2
  | Array => 3
  | Struct => 4

theorem MetaType.toU8_inj {m n : MetaType} (h : m.toU8 = n.toU8) : m = n := by
  cases m <;> cases n <;> first | rfl | exact absurd h (by decide)

mutual

/-- `Type`, and what is in a `BoxedType`. -/
inductive BoxedType (Name : Type)
  | never
  | primitive (p : Primitives)
  | pointer (pointerSize : U8) (type : BoxedType Name)
  | array (pointerSize : U8) (length : U16) (type : BoxedType Name)
  | struct (pointerSize : U8) (members : Members Name)

/-- The members of a struct: names, types and offsets. -/
inductive Members (Name : Type)
  | nil
  | cons (name : Name) (type : BoxedType Name) (offset : U16) (members : Members Name)

end

variable {Name : Type}

def BoxedType.metatype : BoxedType Name → MetaType
  | never => .Never
  | primitive _ => .Primitive
  | pointer .. => .Pointer
  | array .. => .Array
  | struct .. => .Struct

namespace Members

def length : Members Name → Nat
  | nil => 0
  | cons _ _ _ members => members.length + 1

/-- The types of the members. -/
def types : Members Name → List (BoxedType Name)
  | nil => []
  | cons _ type _ members => type :: members.types

def names : Members Name → List Name
  | nil => []
  | cons name _ _ members => name :: members.names

end Members

variable [LinearOrder Name]

mutual

/-- `operator<=>` -/
def BoxedType.compare : BoxedType Name → BoxedType Name → Ordering
  | .never, .never => .eq
  | .primitive p, .primitive q => Ord.compare p.toU8.toNat q.toU8.toNat
  | .pointer n t, .pointer m u => (BoxedType.compare t u).then (Ord.compare n.toNat m.toNat)
  | .array n k t, .array m l u =>
    (BoxedType.compare t u).then ((Ord.compare k.toNat l.toNat).then (Ord.compare n.toNat m.toNat))
  | .struct n ts, .struct m us =>
    (Ord.compare ts.length us.length).then ((Ord.compare n.toNat m.toNat).then (Members.compare ts us))
  | t, u => Ord.compare t.metatype.toU8.toNat u.metatype.toU8.toNat

/-- The loop over the members ends where either struct does. -/
def Members.compare : Members Name → Members Name → Ordering
  | .cons a t k ts, .cons b u l us =>
    (Ord.compare a b).then
      ((BoxedType.compare t u).then ((Ord.compare k.toNat l.toNat).then (Members.compare ts us)))
  | _, _ => .eq

end

theorem BoxedType.compare_of_ne {t u : BoxedType Name} (h : t.metatype ≠ u.metatype) :
    t.compare u = Ord.compare t.metatype.toU8.toNat u.metatype.toU8.toNat := by
  cases t <;> cases u <;> first | exact absurd rfl h | rfl

theorem MetaType.toNat_inj {m n : MetaType} (h : m.toU8.toNat = n.toU8.toNat) : m = n :=
  toU8_inj (BitVec.eq_of_toNat_eq h)

mutual

theorem BoxedType.compare_swap : ∀ t u : BoxedType Name, (t.compare u).swap = u.compare t
  | .never, u => by
    cases u with
    | never => rfl
    | _ => rfl
  | .primitive p, u => by
    cases u with
    | primitive q => exact swap_compare _ _
    | _ => rfl
  | .pointer n t, u => by
    cases u with
    | pointer m u => exact swap_then (BoxedType.compare_swap t u) (swap_compare _ _)
    | _ => rfl
  | .array n k t, u => by
    cases u with
    | array m l u => exact swap_then (BoxedType.compare_swap t u) (swap_then (swap_compare _ _) (swap_compare _ _))
    | _ => rfl
  | .struct n ts, u => by
    cases u with
    | struct m us =>
      exact swap_then (swap_compare _ _) (swap_then (swap_compare _ _) (Members.compare_swap ts us))
    | _ => rfl

theorem Members.compare_swap : ∀ ts us : Members Name, (ts.compare us).swap = us.compare ts
  | .nil, us => by cases us <;> rfl
  | .cons a t k ts, us => by
    cases us with
    | nil => rfl
    | cons b u l us =>
      exact swap_then (swap_compare _ _)
        (swap_then (BoxedType.compare_swap t u) (swap_then (swap_compare _ _) (Members.compare_swap ts us)))

end

theorem compare_toNat {w : Nat} {x y : BitVec w} : compare x.toNat y.toNat = .eq ↔ x = y := by
  rw [compare_eq_iff_eq]
  exact ⟨BitVec.eq_of_toNat_eq, congrArg BitVec.toNat⟩

mutual

theorem BoxedType.compare_eq_iff : ∀ t u : BoxedType Name, t.compare u = .eq ↔ t = u
  | .never, u => by
    cases u with
    | never => exact ⟨fun _ => rfl, fun _ => rfl⟩
    | _ => exact ⟨nofun, nofun⟩
  | .primitive p, u => by
    cases u with
    | primitive q =>
      rw [BoxedType.compare, compare_toNat, BoxedType.primitive.injEq]
      exact ⟨Primitives.toU8_inj, congrArg _⟩
    | _ => exact ⟨nofun, nofun⟩
  | .pointer n t, u => by
    cases u with
    | pointer m u =>
      rw [BoxedType.compare, then_eq_eq, compare_toNat, BoxedType.compare_eq_iff t u, BoxedType.pointer.injEq, and_comm]
    | _ => exact ⟨nofun, nofun⟩
  | .array n k t, u => by
    cases u with
    | array m l u =>
      rw [BoxedType.compare, then_eq_eq, then_eq_eq, compare_toNat, compare_toNat, BoxedType.compare_eq_iff t u,
        BoxedType.array.injEq]
      constructor
      · rintro ⟨ht, hk, hn⟩
        exact ⟨hn, hk, ht⟩
      · rintro ⟨hn, hk, ht⟩
        exact ⟨ht, hk, hn⟩
    | _ => exact ⟨nofun, nofun⟩
  | .struct n ts, u => by
    cases u with
    | struct m us =>
      rw [BoxedType.compare, then_eq_eq, then_eq_eq, compare_toNat, compare_eq_iff_eq, BoxedType.struct.injEq]
      constructor
      · rintro ⟨hlength, hn, hts⟩
        exact ⟨hn, (Members.compare_eq_iff ts us hlength).mp hts⟩
      · rintro ⟨hn, rfl⟩
        exact ⟨rfl, hn, (Members.compare_eq_iff ts ts rfl).mpr rfl⟩
    | _ => exact ⟨nofun, nofun⟩

theorem Members.compare_eq_iff : ∀ ts us : Members Name, ts.length = us.length → (ts.compare us = .eq ↔ ts = us)
  | .nil, us => by
    intro h
    cases us with
    | nil => exact ⟨fun _ => rfl, fun _ => rfl⟩
    | cons => nomatch h
  | .cons a t k ts, us => by
    intro h
    cases us with
    | nil => nomatch h
    | cons b u l us =>
      rw [Members.compare, then_eq_eq, then_eq_eq, then_eq_eq, compare_eq_iff_eq, compare_toNat,
        BoxedType.compare_eq_iff t u, Members.compare_eq_iff ts us (Nat.succ.inj h), Members.cons.injEq]

end

theorem BoxedType.coherent_of_metatypes {t u v : BoxedType Name}
    (h : t.metatype = u.metatype → u.metatype = v.metatype → Coherent (t.compare u) (u.compare v) (t.compare v)) :
    Coherent (t.compare u) (u.compare v) (t.compare v) := by
  have hne : ∀ {t u : BoxedType Name}, t.metatype.toU8.toNat ≠ u.metatype.toU8.toNat →
      t.compare u = Ord.compare t.metatype.toU8.toNat u.metatype.toU8.toNat := by
    intro t u hne
    exact compare_of_ne fun heq => hne (by rw [heq])
  exact coherent_of_tags hne hne hne fun htu huv => h (MetaType.toNat_inj htu) (MetaType.toNat_inj huv)

mutual

theorem BoxedType.compare_coherent : ∀ t u v : BoxedType Name, Coherent (t.compare u) (u.compare v) (t.compare v)
  | .never, u, v => by
    refine BoxedType.coherent_of_metatypes fun htu huv => ?_
    cases u with
    | never =>
      cases v with
      | never => exact ⟨fun _ => rfl, fun _ => rfl, nofun, nofun⟩
      | _ => nomatch huv
    | _ => nomatch htu
  | .primitive p, u, v => by
    refine BoxedType.coherent_of_metatypes fun htu huv => ?_
    cases u with
    | primitive q =>
      cases v with
      | primitive r => exact coherent_compare _ _ _
      | _ => nomatch huv
    | _ => nomatch htu
  | .pointer n t, u, v => by
    refine BoxedType.coherent_of_metatypes fun htu huv => ?_
    cases u with
    | pointer m u =>
      cases v with
      | pointer k v => exact (BoxedType.compare_coherent t u v).then fun _ _ => coherent_compare _ _ _
      | _ => nomatch huv
    | _ => nomatch htu
  | .array n k t, u, v => by
    refine BoxedType.coherent_of_metatypes fun htu huv => ?_
    cases u with
    | array m l u =>
      cases v with
      | array =>
        refine (BoxedType.compare_coherent t u _).then fun _ _ => ?_
        exact (coherent_compare _ _ _).then fun _ _ => coherent_compare _ _ _
      | _ => nomatch huv
    | _ => nomatch htu
  | .struct n ts, u, v => by
    refine BoxedType.coherent_of_metatypes fun htu huv => ?_
    cases u with
    | struct m us =>
      cases v with
      | struct k vs =>
        refine (coherent_compare _ _ _).then fun htus husv => ?_
        refine (coherent_compare _ _ _).then fun _ _ => ?_
        exact Members.compare_coherent ts us vs (compare_eq_iff_eq.mp htus) (compare_eq_iff_eq.mp husv)
      | _ => nomatch huv
    | _ => nomatch htu

theorem Members.compare_coherent : ∀ ts us vs : Members Name, ts.length = us.length → us.length = vs.length →
    Coherent (ts.compare us) (us.compare vs) (ts.compare vs)
  | .nil, us, vs => by
    intro htu huv
    cases us with
    | nil => cases vs <;> exact ⟨fun _ => rfl, fun _ => rfl, nofun, nofun⟩
    | cons => nomatch htu
  | .cons a t k ts, us, vs => by
    intro htu huv
    cases us with
    | nil => nomatch htu
    | cons b u l us =>
      cases vs with
      | nil => nomatch huv
      | cons c v m vs =>
        refine (coherent_compare _ _ _).then fun _ _ => ?_
        refine (BoxedType.compare_coherent t u v).then fun _ _ => ?_
        refine (coherent_compare _ _ _).then fun _ _ => ?_
        exact Members.compare_coherent ts us vs (Nat.succ.inj htu) (Nat.succ.inj huv)

end

theorem BoxedType.lawful_compare : Lawful (BoxedType.compare : BoxedType Name → BoxedType Name → Ordering) where
  swap := compare_swap
  eq_iff := compare_eq_iff
  coherent := compare_coherent

instance : LinearOrder (BoxedType Name) := BoxedType.lawful_compare.linearOrder

theorem BoxedType.lt_iff {t u : BoxedType Name} : t < u ↔ t.compare u = .lt := Iff.rfl

end Pepp.Debug

/-! ## Registered types

A direct handle stands for one type for good, and the order of registration is
kept. An indirect handle stands for a name, whose type may be set again and
again. Dependent types are registered before the types that consist of them. -/

namespace Pepp.Debug

open Containers

structure DirectHandle where
  metatype : MetaType
  type : BitVec 13
  deriving DecidableEq, Repr

def DirectHandle.ofPrimitive (p : Primitives) : DirectHandle := ⟨.Primitive, p.toU8.setWidth 13⟩

structure IndirectHandle where
  index : U16
  deriving DecidableEq, Repr

theorem IndirectHandle.toNat_inj {h h' : IndirectHandle} (heq : h.index.toNat = h'.index.toNat) : h = h' := by
  cases h
  cases h'
  exact congrArg mk (BitVec.eq_of_toNat_eq heq)

instance : LinearOrder IndirectHandle := LinearOrder.lift' (fun h => h.index.toNat) fun _ _ => IndirectHandle.toNat_inj

/-- `Versioned<OptType>` -/
structure VersionedType (Name : Type) where
  type : BoxedType Name
  version : U32

variable {Name : Type} [LinearOrder Name]

/-- The members of `TypeInfo` for direct types; a type has its handle and its place in the order of registration. -/
structure DirectTypes (Name : Type) [LinearOrder Name] where
  directTypes : OrderedMap (BoxedType Name) (DirectHandle × U16)
  nextDirectHandle : MetaType → U16

namespace DirectTypes

/-- A type that is not there gets the next handle. -/
def insert (self : DirectTypes Name) (t : BoxedType Name) : DirectTypes Name × DirectHandle :=
  let freeIndex := self.nextDirectHandle t.metatype + 1
  let hnd : DirectHandle := ⟨t.metatype, freeIndex.setWidth 13⟩
  (⟨self.directTypes.assign t (hnd, BitVec.ofNat 16 self.directTypes.size),
    fun m => if m = t.metatype then freeIndex else self.nextDirectHandle m⟩, hnd)

/-- The handle of a type, which is put in once its dependents are registered. -/
def findOrInsert (self : DirectTypes Name) (t : BoxedType Name) (registered : DirectTypes Name) :
    DirectTypes Name × DirectHandle :=
  match self.directTypes.find t with
  | some entry => (self, entry.1)
  | none => registered.insert t

mutual

def addOrGetDirect (self : DirectTypes Name) : BoxedType Name → DirectTypes Name × DirectHandle
  | .never => self.findOrInsert .never self
  | .primitive p => self.findOrInsert (.primitive p) self
  | .pointer pointerSize t => self.findOrInsert (.pointer pointerSize t) (addOrGetDirect self t).1
  | .array pointerSize length t => self.findOrInsert (.array pointerSize length t) (addOrGetDirect self t).1
  | .struct pointerSize members => self.findOrInsert (.struct pointerSize members) (registerMembers self members)

/-- `register_dependents` of a struct. -/
def registerMembers (self : DirectTypes Name) : Members Name → DirectTypes Name
  | .nil => self
  | .cons _ t _ members => registerMembers (addOrGetDirect self t).1 members

end

def registerPrimitive (self : DirectTypes Name) (p : Primitives) : DirectTypes Name :=
  { self with
    directTypes := self.directTypes.assign (.primitive p) (.ofPrimitive p, BitVec.ofNat 16 self.directTypes.size) }

/-- Never and the primitives are always registered. -/
def create : DirectTypes Name :=
  let never := (addOrGetDirect ⟨.empty, fun _ => 0⟩ .never).1
  (((((never.registerPrimitive .i8).registerPrimitive .u8).registerPrimitive .i16).registerPrimitive .u16).registerPrimitive
    .i32).registerPrimitive .u32

/-- An invalid handle stands for never. -/
def typeFrom (self : DirectTypes Name) (handle : DirectHandle) : BoxedType Name :=
  match self.directTypes.entries.find? fun p => p.2.1 = handle with
  | some p => p.1
  | none => .never

end DirectTypes

structure TypeInfo (Name : Type) [LinearOrder Name] extends DirectTypes Name where
  nameToIndirect : OrderedMap Name IndirectHandle
  indirectTypes : OrderedMap IndirectHandle (VersionedType Name)

inductive TypeError where
  | outOfRange
  | invalidArgument
  deriving DecidableEq, Repr

namespace TypeInfo

/-- The constructor; the name of handle zero is the empty one. -/
def create (empty : Name) : TypeInfo Name :=
  { DirectTypes.create with
    nameToIndirect := OrderedMap.empty.assign empty ⟨0⟩
    indirectTypes := OrderedMap.empty.assign ⟨0⟩ ⟨.never, 0⟩ }

variable (self : TypeInfo Name)

def registerDirect (t : BoxedType Name) : TypeInfo Name × DirectHandle :=
  let (direct, handle) := self.toDirectTypes.addOrGetDirect t
  ({ self with toDirectTypes := direct }, handle)

def box (t : BoxedType Name) : TypeInfo Name × BoxedType Name := ((self.registerDirect t).1, t)

/-- Whether the name was new, and its handle. -/
def registerIndirect (name : Name) : TypeInfo Name × Bool × IndirectHandle :=
  match self.nameToIndirect.find name with
  | some hnd => (self, false, hnd)
  | none =>
    let hnd : IndirectHandle := ⟨BitVec.ofNat 16 self.nameToIndirect.size⟩
    let (info, boxed) := self.box .never
    ({ info with
      indirectTypes := info.indirectTypes.assign hnd ⟨boxed, 0⟩
      nameToIndirect := info.nameToIndirect.assign name hnd }, true, hnd)

def setIndirectType (indirect : IndirectHandle) (direct : DirectHandle) : Except TypeError (TypeInfo Name) :=
  let type := self.typeFrom direct
  if indirect.index.toNat < 1 ∨ indirect.index.toNat ≥ self.nameToIndirect.size then .error .outOfRange
  else
    match self.indirectTypes.find indirect with
    | none => .ok { self with indirectTypes := self.indirectTypes.assign indirect ⟨type, 0⟩ }
    | some versioned =>
      .ok { self with indirectTypes := self.indirectTypes.assign indirect ⟨type, versioned.version + 1⟩ }

def setIndirectTypeOf (name : Name) (direct : DirectHandle) : Except TypeError (TypeInfo Name) :=
  match self.nameToIndirect.find name with
  | none => .error .invalidArgument
  | some hnd => self.setIndirectType hnd direct

end TypeInfo

/-- The operations that change which types there are. -/
inductive TypeOp (Name : Type) where
  | registerDirect (t : BoxedType Name)
  | box (t : BoxedType Name)
  | registerIndirect (name : Name)
  | setIndirectType (indirect : IndirectHandle) (direct : DirectHandle)
  | setIndirectTypeOf (name : Name) (direct : DirectHandle)

/-- An operation that throws leaves everything as it was. -/
def TypeInfo.perform (self : TypeInfo Name) : TypeOp Name → TypeInfo Name
  | .registerDirect t => (self.registerDirect t).1
  | .box t => (self.box t).1
  | .registerIndirect name => (self.registerIndirect name).1
  | .setIndirectType indirect direct => (self.setIndirectType indirect direct).toOption.getD self
  | .setIndirectTypeOf name direct => (self.setIndirectTypeOf name direct).toOption.getD self

inductive TypeInfo.Reachable (empty : Name) : TypeInfo Name → Prop
  | create : Reachable empty (TypeInfo.create empty)
  | perform {info : TypeInfo Name} (op : TypeOp Name) : Reachable empty info → Reachable empty (info.perform op)

end Pepp.Debug
