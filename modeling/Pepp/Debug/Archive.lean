import Pepp.Debug.Types
import Pepp.Lib.Algorithms
import Pepp.Lib.Readers

/-!
# Type information as bytes

Strings come first, in one pool; then the types in the order of registration,
with their parts as places in it; then the names and what they stand for.
Handles are not written but given again.
-/

namespace Pepp.Debug

open Containers Readers
open Algorithms (StdSort)

/-- What the strings of the library do; their bytes end before the first zero when they are read. -/
structure Strings (Name : Type) where
  empty : Name
  toUtf8 : Name → List U8
  fromUtf8 : List U8 → Name
  toUtf8_empty : toUtf8 empty = []
  fromUtf8_nil : fromUtf8 [] = empty

variable {Name : Type} [LinearOrder Name]

structure StringInternPool (Name : Type) [LinearOrder Name] where
  added : OrderedMap Name U32
  data : List U8

/-- A string up to its zero, if there is one. -/
def cString : List U8 → Option (List U8)
  | [] => none
  | b :: bytes => if b = 0 then some [] else (cString bytes).map (b :: ·)

inductive ReadError where
  | resultOutOfRange
  | protocolError
  | outOfRange
  | undefined
  deriving DecidableEq, Repr

abbrev In := Reader U8 ReadError

/-- What the archives of the serialization library do with what types are written as: numbers, and spans of characters.
One archive appends to its data. The other takes from the front of its data what was written for a value, which is then
the value, and no more; numbers of elements have 32 bits. -/
structure Archives where
  writeU8 : U8 → List U8
  writeU16 : U16 → List U8
  writeU32 : U32 → List U8
  writeSpan : List U8 → List U8
  readU8 : In U8
  readU16 : In U16
  readU32 : In U32
  readVector : In (List U8)
  reads_u8 : ∀ v, Reads readU8 (writeU8 v) v
  reads_u16 : ∀ v, Reads readU16 (writeU16 v) v
  reads_u32 : ∀ v, Reads readU32 (writeU32 v) v
  reads_vector : ∀ data, data.length < 2 ^ 32 → Reads readVector (writeSpan data) data

variable (text : Strings Name) (ar : Archives)

namespace StringInternPool

def create : StringInternPool Name := ⟨.empty, [0]⟩

def add (self : StringInternPool Name) (str : Name) : StringInternPool Name × U32 :=
  match self.added.find str with
  | some i => (self, i)
  | none =>
    let ret := BitVec.ofNat 32 self.data.length
    (⟨self.added.assign str ret, self.data ++ text.toUtf8 str ++ [0]⟩, ret)

def addAll (self : StringInternPool Name) (strs : List Name) : StringInternPool Name :=
  strs.foldl (fun pool str => (pool.add text str).1) self

end StringInternPool

structure SerializationHelper (Name : Type) [LinearOrder Name] where
  strs : StringInternPool Name
  typeToIndex : OrderedMap (BoxedType Name) U16

namespace SerializationHelper

variable (self : SerializationHelper Name)

def indexForType (t : BoxedType Name) : Except TypeError U16 :=
  match self.typeToIndex.find t with
  | some i => .ok i
  | none => .error .outOfRange

def typeForIndex (i : U16) : Except ReadError (BoxedType Name) :=
  match self.typeToIndex.entries.find? fun p => p.2 = i with
  | some p => .ok p.1
  | none => .error .outOfRange

def indexForString (str : Name) : SerializationHelper Name × U32 :=
  let (strs, i) := self.strs.add text str
  ({ self with strs := strs }, i)

/-- No zero before the end of the pool is undefined behaviour. -/
def stringForIndex (i : U32) : Except ReadError Name :=
  match cString (self.strs.data.drop i.toNat) with
  | some bytes => .ok (text.fromUtf8 bytes)
  | none => .error .undefined

end SerializationHelper

/-- Members write the places of their names and types. -/
def serializeMembers (h : SerializationHelper Name) :
    Members Name → Except TypeError (List U8 × SerializationHelper Name)
  | .nil => .ok ([], h)
  | .cons name type offset members => do
    let (h, nameIndex) := h.indexForString text name
    let typeIndex ← h.indexForType type
    let (bytes, h) ← serializeMembers h members
    return (ar.writeU32 nameIndex ++ (ar.writeU16 typeIndex ++ (ar.writeU16 offset ++ bytes)), h)

/-- `types::serialize` of an archive that is written. -/
def serializeType (h : SerializationHelper Name) (t : BoxedType Name) :
    Except TypeError (List U8 × SerializationHelper Name) :=
  match t with
  | .never => .ok (ar.writeU8 t.metatype.toU8, h)
  | .primitive p => .ok (ar.writeU8 t.metatype.toU8 ++ ar.writeU8 p.toU8, h)
  | .pointer pointerSize u => do
    let i ← h.indexForType u
    return (ar.writeU8 t.metatype.toU8 ++ (ar.writeU8 pointerSize ++ ar.writeU16 i), h)
  | .array pointerSize length u => do
    let i ← h.indexForType u
    return (ar.writeU8 t.metatype.toU8 ++ (ar.writeU8 pointerSize ++ (ar.writeU16 length ++ ar.writeU16 i)), h)
  | .struct pointerSize members => do
    let (bytes, h) ← serializeMembers text ar h members
    return (ar.writeU8 t.metatype.toU8 ++
      (ar.writeU8 pointerSize ++ (ar.writeU8 (BitVec.ofNat 8 members.length) ++ bytes)), h)

def serializeTypes (h : SerializationHelper Name) :
    List (BoxedType Name) → Except TypeError (List U8 × SerializationHelper Name)
  | [] => .ok ([], h)
  | t :: ts => do
    let (bytes, h) ← serializeType text ar h t
    let (more, h) ← serializeTypes h ts
    return (bytes ++ more, h)

def serializeNames (h : SerializationHelper Name) :
    List (Name × IndirectHandle) → Except TypeError (List U8 × SerializationHelper Name)
  | [] => .ok ([], h)
  | (name, hnd) :: entries => do
    let (h, nameIndex) := h.indexForString text name
    let (more, h) ← serializeNames h entries
    return (ar.writeU32 nameIndex ++ (ar.writeU16 hnd.index ++ more), h)

def serializeIndirect (h : SerializationHelper Name) :
    List (IndirectHandle × VersionedType Name) → Except TypeError (List U8)
  | [] => .ok []
  | (hnd, versioned) :: entries => do
    let typeIndex ← h.indexForType versioned.type
    let more ← serializeIndirect h entries
    return ar.writeU16 hnd.index ++ (ar.writeU16 typeIndex ++ more)

def BoxedType.memberNames : BoxedType Name → List Name
  | struct _ members => members.names
  | _ => []

namespace TypeInfo

/-- The strings of the structs and of the indirect types, in the order in which they are extracted. -/
def strings (self : TypeInfo Name) : List Name :=
  self.directTypes.keys.flatMap BoxedType.memberNames ++ self.nameToIndirect.keys

def extractStrings (self : TypeInfo Name) : StringInternPool Name := StringInternPool.create.addAll text self.strings

/-- The place of a type; the map would make an entry with place zero for one that is not there. -/
def placeOf (self : TypeInfo Name) (t : BoxedType Name) : U16 :=
  match self.directTypes.find t with
  | some entry => entry.2
  | none => 0

/-- The helper once strings and places are extracted. -/
def helper (self : TypeInfo Name) : SerializationHelper Name :=
  ⟨self.extractStrings text, OrderedMap.empty.assignAll (self.directTypes.entries.map fun p => (p.1, p.2.2))⟩

/-- `serialize` of an archive that is written; the helper is left to the caller. -/
def serialize (sort : StdSort) (self : TypeInfo Name) : Except TypeError (List U8 × SerializationHelper Name) := do
  let strs := self.extractStrings text
  let h := self.helper text
  let b := sort.sort (fun lhs rhs => (self.placeOf lhs).ult (self.placeOf rhs)) self.directTypes.keys
  let (types, h) ← serializeTypes text ar h b
  let (names, h) ← serializeNames text ar h self.nameToIndirect.entries
  let indirect ← serializeIndirect ar h self.indirectTypes.entries
  return (ar.writeSpan strs.data ++ (ar.writeU16 (BitVec.ofNat 16 b.length) ++ (types ++
    (ar.writeU16 (BitVec.ofNat 16 self.nameToIndirect.size) ++ (names ++
      (ar.writeU16 (BitVec.ofNat 16 self.indirectTypes.size) ++ indirect))))), h)

end TypeInfo

def readMembers (h : SerializationHelper Name) : Nat → In (Members Name)
  | 0 => pure .nil
  | n + 1 => do
    let name ← h.stringForIndex text (← ar.readU32)
    let type ← h.typeForIndex (← ar.readU16)
    let offset ← ar.readU16
    return .cons name type offset (← readMembers h n)

/-- No other byte stands for a primitive. -/
def Primitives.ofU8 (v : U8) : Except ReadError Primitives :=
  match [i8, u8, i16, u16, i32, u32].find? fun p => p.toU8 = v with
  | some p => .ok p
  | none => .error .undefined

/-- `types::serialize` of an archive that is read. -/
def readType (h : SerializationHelper Name) : In (BoxedType Name) := do
  match (← ar.readU8).toNat with
  | 0 => return .never
  | 1 => return .primitive (← Primitives.ofU8 (← ar.readU8))
  | 2 => do
    let pointerSize ← ar.readU8
    return .pointer pointerSize (← h.typeForIndex (← ar.readU16))
  | 3 => do
    let pointerSize ← ar.readU8
    let length ← ar.readU16
    return .array pointerSize length (← h.typeForIndex (← ar.readU16))
  | 4 => do
    let pointerSize ← ar.readU8
    let count ← ar.readU8
    return .struct pointerSize (← readMembers text ar h count.toNat)
  | _ => throw .protocolError

/-- The types from place `i` on are boxed in turn. -/
def readTypes : Nat → Nat → TypeInfo Name → SerializationHelper Name → In (TypeInfo Name × SerializationHelper Name)
  | 0, _, self, h => pure (self, h)
  | n + 1, i, self, h => do
    let t ← readType text ar h
    let (self, boxed) := self.box t
    readTypes n (i + 1) self { h with typeToIndex := h.typeToIndex.assign boxed (BitVec.ofNat 16 i) }

def readNames (h : SerializationHelper Name) : Nat → TypeInfo Name → In (TypeInfo Name)
  | 0, self => pure self
  | n + 1, self => do
    let name ← h.stringForIndex text (← ar.readU32)
    let index ← ar.readU16
    readNames h n { self with nameToIndirect := self.nameToIndirect.assign name ⟨index⟩ }

def readIndirect (h : SerializationHelper Name) : Nat → TypeInfo Name → In (TypeInfo Name)
  | 0, self => pure self
  | n + 1, self => do
    let index ← ar.readU16
    let type ← h.typeForIndex (← ar.readU16)
    readIndirect h n { self with indirectTypes := self.indirectTypes.assign ⟨index⟩ ⟨type, 0⟩ }

/-- `serialize` of an archive that is read, into an instance that may hold types already. -/
def TypeInfo.deserialize (self : TypeInfo Name) : In (TypeInfo Name × SerializationHelper Name) := do
  let data ← ar.readVector
  let typeCount ← ar.readU16
  let (self, h) ← readTypes text ar typeCount.toNat 0 self ⟨⟨.empty, data⟩, .empty⟩
  let handleCount ← ar.readU16
  let self ← readNames text ar h handleCount.toNat self
  let count ← ar.readU16
  let self ← readIndirect ar h count.toNat self
  return (self, h)

end Pepp.Debug
