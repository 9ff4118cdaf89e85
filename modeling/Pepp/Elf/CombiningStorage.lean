import Pepp.Elf.Storage

/-!
# Addresses in combined storage

The parts of a combined storage, which may be combined storages themselves, are
laid out by rounding every start up to the part's alignment. A byte is looked up
by counting sizes, each rounded up. The two put a part at the same offset only
where these roundings come to the same.
-/

namespace Pepp.Elf

open Padding Patches

/-! ## Leaves -/

/-- The storages that have their bytes themselves. -/
inductive Leaf where
  | block (bytes : List U8)
  | paged (pages : List (List U8))
  | mapped (bytes : List U8)
  | null
  deriving DecidableEq

/-- `std::search`: where the needle is first, or behind the last byte. -/
def search (needle : List U8) : List U8 → Nat
  | [] => 0
  | b :: bytes => if needle.isPrefixOf (b :: bytes) then 0 else search needle bytes + 1

namespace Leaf

/-- The bytes that lie together. -/
def pages : Leaf → List (List U8)
  | .block bytes => [bytes]
  | .paged pages => pages
  | .mapped bytes => [bytes]
  | .null => []

/-- The pieces it is laid out in. Only a mapped file has an empty one. -/
def pieces : Leaf → List (List U8)
  | .block bytes => if bytes.isEmpty then [] else [bytes]
  | .paged pages => pages.filter (!·.isEmpty)
  | .mapped bytes => [bytes]
  | .null => []

def bytes (self : Leaf) : List U8 := self.pages.flatten

def size (self : Leaf) : Nat := self.bytes.length

/-- A span from the offset on within one page of those from `base` on. -/
def getPage (offset length : Nat) : Nat → List (List U8) → Option (Nat × Nat)
  | _, [] => none
  | base, page :: pages =>
    if offset < base + page.length then
      if base + page.length < offset + length then none else some (offset, length)
    else getPage offset length (base + page.length) pages

/-- Which bytes a span has: where they begin, and how many. Spans that leave the leaf, or a page, are empty. -/
def get (self : Leaf) (offset length : Nat) : Option (Nat × Nat) :=
  if self.size < addSize offset length then none
  else
    match self with
    | .block _ => some (offset, length)
    | .paged pages => getPage offset length 0 pages
    | .mapped _ => some (offset, length)
    | .null => none

def strlen (self : Leaf) (offset : Nat) : Nat := ((self.bytes.drop offset).takeWhile (· != 0)).length

def findPage (needle : List U8) : Nat → List (List U8) → Nat
  | offset, [] => offset
  | offset, page :: pages =>
    if search needle page ≠ page.length then offset + search needle page
    else findPage needle (offset + page.length) pages

/-- What is not found is at 0, or behind the last page. -/
def find (self : Leaf) (needle : List U8) : Nat :=
  match self with
  | .block bytes => if search needle bytes = bytes.length then 0 else search needle bytes
  | .paged pages => findPage needle 0 pages
  | .mapped bytes => if search needle bytes = bytes.length then 0 else search needle bytes
  | .null => 0

end Leaf

/-! ## The interface -/

/-- `LayoutItem`: where bytes of a leaf go. A path says which part the leaf is in, in each of the storages around it. -/
structure Piece where
  dst : Nat
  path : List Nat
  offset : Nat
  length : Nat
  deriving DecidableEq, Repr

/-- The piece, seen from the storage around. -/
def Piece.within (part : Nat) (self : Piece) : Piece := { self with path := part :: self.path }

/-- What the functions of a storage answer, with places for the bytes. -/
structure Answers where
  size : Nat
  get : (offset length : Nat) → Option (List Nat × Nat × Nat)
  strlen : (offset : Nat) → Nat
  find : (needle : List U8) → Nat
  calculateLayout : (dst : Nat) → List Piece × Nat

/-- The pieces of a leaf from `dst` on. -/
def layoutPieces : (dst offset : Nat) → List (List U8) → List Piece × Nat
  | dst, _, [] => ([], dst)
  | dst, offset, piece :: pieces =>
    let (items, dst') := layoutPieces (addSize dst piece.length) (offset + piece.length) pieces
    (⟨dst, [], offset, piece.length⟩ :: items, dst')

def Leaf.answers (self : Leaf) : Answers where
  size := self.size
  get offset length := (self.get offset length).map fun span => ([], span)
  strlen := self.strlen
  find := self.find
  calculateLayout dst := layoutPieces dst 0 self.pieces

/-! ## The combination -/

namespace CombiningStorage

/-- Sections with their alignments. -/
abbrev Entries := List (Nat × Answers)

/-- Nothing is rounded for the first. -/
def plain : Entries → Entries
  | [] => []
  | (_, data) :: entries => (0, data) :: entries

def sizeFrom : Nat → Entries → Nat
  | total, [] => total
  | total, (align, data) :: entries => sizeFrom (addSize (alignUpMask total align) data.size) entries

def size (entries : Entries) : Nat := sizeFrom 0 (plain entries)

def layoutFrom : Nat → Nat → Entries → List Piece × Nat
  | _, dst, [] => ([], dst)
  | part, dst, (align, data) :: entries =>
    let (items, dst) := data.calculateLayout (alignUpMask dst align)
    let (items', dst) := layoutFrom (part + 1) dst entries
    (items.map (Piece.within part) ++ items', dst)

def calculateLayout (entries : Entries) (dst : Nat) : List Piece × Nat := layoutFrom 0 dst (plain entries)

/-- The part that an offset is in, and the offset in that part. -/
def locate : Nat → Entries → Nat → Option (Nat × Answers × Nat)
  | _, [], _ => none
  | part, (align, data) :: entries, offset =>
    if offset < data.size then some (part, data, offset)
    else if offset < alignUpMask data.size align then none
    else locate (part + 1) entries (offset - alignUpMask data.size align)

def get (entries : Entries) (offset length : Nat) : Option (List Nat × Nat × Nat) := do
  let (part, data, offset) ← locate 0 (plain entries) offset
  let (path, span) ← data.get offset length
  return (part :: path, span)

def strlen (entries : Entries) (offset : Nat) : Nat :=
  match locate 0 (plain entries) offset with
  | some (_, data, offset) => data.strlen offset
  | none => 0

/-- `-1u`, an `unsigned int`. -/
def notFound : Nat := 2 ^ 32 - 1

def findFrom (needle : List U8) : Nat → Entries → Nat
  | _, [] => notFound
  | rolling, (align, data) :: entries =>
    if data.find needle ≠ notFound then addSize rolling (data.find needle)
    else findFrom needle (addSize rolling (alignUpMask data.size align)) entries

def find (entries : Entries) (needle : List U8) : Nat := findFrom needle 0 (plain entries)

def answers (entries : Entries) : Answers :=
  ⟨size entries, get entries, strlen entries, find entries, calculateLayout entries⟩

end CombiningStorage

/-- A storage, or the sections of other files with their alignments, whose data may be anything again. -/
inductive Part where
  | leaf (data : Leaf)
  | combining (entries : List (Nat × Part))

namespace Part

mutual

def answers : Part → Answers
  | .leaf data => data.answers
  | .combining entries => CombiningStorage.answers (answersOf entries)

def answersOf : List (Nat × Part) → CombiningStorage.Entries
  | [] => []
  | (align, data) :: entries => (align, answers data) :: answersOf entries

end

mutual

/-- The leaves, from the first one on. -/
def leaves : Part → List Leaf
  | .leaf data => [data]
  | .combining entries => leavesOf entries

def leavesOf : List (Nat × Part) → List Leaf
  | [] => []
  | (_, data) :: entries => leaves data ++ leavesOf entries

end

/-- The leaf that a path leads to. -/
def leafAt : Part → List Nat → Option Leaf
  | .leaf data, [] => some data
  | .leaf _, _ :: _ => none
  | .combining _, [] => none
  | .combining entries, part :: path =>
    match entries[part]? with
    | some (_, data) => leafAt data path
    | none => none

def size (self : Part) : Nat := self.answers.size

def get (self : Part) : (offset length : Nat) → Option (List Nat × Nat × Nat) := self.answers.get

def strlen (self : Part) : (offset : Nat) → Nat := self.answers.strlen

def find (self : Part) : (needle : List U8) → Nat := self.answers.find

def calculateLayout (self : Part) : (dst : Nat) → List Piece × Nat := self.answers.calculateLayout

end Part

/-! ## Agreement -/

/-- The byte that is laid out at an address: the path to its leaf, and where it is there. -/
def placedAt : List Piece → Nat → Option (List Nat × Nat)
  | [], _ => none
  | p :: items, x =>
    if p.dst ≤ x ∧ x < p.dst + p.length then some (p.path, p.offset + (x - p.dst)) else placedAt items x

namespace Part

/-- The leaf where a search ends, and what it answers. -/
inductive Stops (needle : List U8) : Part → List Nat → Nat → Prop
  | leaf (data : Leaf) : Stops needle (.leaf data) [] (data.find needle)
  | part {before after : List (Nat × Part)} {align : Nat} {data : Part} {path : List Nat} {offset : Nat}
    (hbefore : ∀ e ∈ before, e.2.find needle = CombiningStorage.notFound)
    (hdata : data.find needle ≠ CombiningStorage.notFound) (h : Stops needle data path offset) :
    Stops needle (.combining (before ++ (align, data) :: after)) (before.length :: path) offset

/-- Every offset refers to the byte that is laid out there. -/
structure Agrees (storage : Part) (base : Nat) : Prop where
  size : base + storage.size = (storage.calculateLayout base).2
  get : ∀ o < storage.size,
    storage.get o 1 = (placedAt (storage.calculateLayout base).1 (base + o)).map fun p => (p.1, p.2, 1)
  strlen : ∀ o < storage.size, ∀ path offset, placedAt (storage.calculateLayout base).1 (base + o) = some (path, offset) →
    ∃ data, storage.leafAt path = some data ∧ storage.strlen o = data.strlen offset
  find : ∀ needle path offset data, storage.Stops needle path offset → storage.leafAt path = some data → offset < data.size →
    placedAt (storage.calculateLayout base).1 (base + storage.find needle) = some (path, offset)

end Part

namespace CombiningStorage

/-- The sizes and alignments. -/
def shape (entries : Entries) : List (Nat × Nat) := entries.map fun e => (e.2.size, e.1)

/-- What is in front of each part when every size is rounded up. -/
def counted : Nat → List (Nat × Nat) → List Nat
  | _, [] => []
  | y, (size, a) :: pieces => y :: counted (y + alignUp size a) pieces

/-- The starts, rounded up from `x` on, are those of the parts with rounded sizes from `y` on. -/
def SteadyFrom (x y : Nat) (pieces : List (Nat × Nat)) : Prop :=
  ∀ (i size a : Nat), pieces[i]? = some (size, a) → 0 < size → (places x pieces)[i]? = (counted y pieces)[i]?

/-- Alignments are powers of two, the base is aligned, and there is room for everything. -/
structure FitsFrom (entries : Entries) (base x : Nat) : Prop where
  maskable : ∀ e ∈ entries, Maskable e.1
  aligned : ∀ e ∈ entries, Aligned e.1 base
  room : base + extent x (shape entries) < 2 ^ 63

end CombiningStorage

namespace Part

open CombiningStorage

/-- What is laid out at the base has room there, and its parts at their places. -/
inductive Fits : Part → Nat → Prop
  | leaf {data : Leaf} {base : Nat} (room : base + data.size < 2 ^ 63) : Fits (.leaf data) base
  | combining {entries : List (Nat × Part)} {base : Nat} (fits : FitsFrom (plain (answersOf entries)) base 0)
    (parts : ∀ (i align : Nat) (data : Part) (place : Nat), entries[i]? = some (align, data) →
      (places 0 (shape (plain (answersOf entries))))[i]? = some place → Fits data (base + place)) :
    Fits (.combining entries) base

/-- Wherever there is a part that is not empty, rounding the starts up and rounding the sizes up come to the same; and
so it is within the parts. -/
inductive Steady : Part → Prop
  | leaf (data : Leaf) : Steady (.leaf data)
  | combining {entries : List (Nat × Part)} (steady : SteadyFrom 0 0 (shape (plain (answersOf entries))))
    (parts : ∀ e ∈ entries, Steady e.2) : Steady (.combining entries)

end Part

end Pepp.Elf
