import Pepp.Asmb.Lines
import Pepp.Lib.Runs

/-!
# Assigning addresses

`assign_addresses` visits the sections in an order computed from the positions
of the `.ORG`s, forward from a base or backward from one. Going forward the
running base is the first free byte, going backward the last free one.
-/

namespace Pepp.Tc

/-- The two address types the layout is instantiated with. -/
inductive AddressKind where
  | pepp | riscv
  deriving DecidableEq, Repr

namespace AddressKind

def bits : AddressKind → Nat
  | .pepp => 16
  | .riscv => 32

/-- `sizeof(addr_t)`. -/
def bytes : AddressKind → Nat
  | .pepp => 2
  | .riscv => 4

def modulus (kind : AddressKind) : Nat := 2 ^ kind.bits

end AddressKind

structure Address where
  address : Nat
  size : Nat
  deriving DecidableEq, Repr

inductive Direction where
  | forward | backward
  deriving DecidableEq, Repr

/-- A visited line: its entry in the address table and the value its symbol is set to, if any. -/
structure Placed where
  line : Line
  address : Option Address
  value : Option SymbolValue
  deriving DecidableEq

variable (kind : AddressKind) (lineToSymbol : LinearIR → SymbolType)

/-- The value an `.EQUATE` gives its symbol. -/
def equateValue : IRValue → SymbolValue
  | .symbolic _ other => .alias (BitVec.ofNat 16 kind.bytes) other
  | .literal value =>
    let bits := value.serialize (List.replicate kind.bytes 0) hostOrder
    .constant ⟨BitVec.ofNat 8 kind.bytes, BitVec.ofNat 64 (Endian.ofLE bits), BitVec.ofNat 64 (kind.modulus - 1)⟩

def locationValue (line : Line) (size symbolBase : Nat) : Option SymbolValue :=
  line.symbol.map fun _ => .location (BitVec.ofNat 16 size) (BitVec.ofNat 16 kind.bytes) (BitVec.ofNat 64 symbolBase) 0
    (lineToSymbol line.ir)

/-- The body of the loop over lines, for a line of that size: the base and the symbol base are 16 bits wide. -/
def Line.place (direction : Direction) (base : Nat) (maybeSize : Option Nat) (line : Line) : Placed × Nat :=
  let size := maybeSize.getD 0 % 2 ^ 16
  match line.ir with
  | .dotEquate _ argument => (⟨line, none, some (equateValue kind argument)⟩, base)
  | .dotOrg argument => (⟨line, none, none⟩, argument.valueAs 2)
  | _ =>
    match maybeSize, direction with
    | none, _ => (⟨line, none, none⟩, base)
    | some _, .forward =>
      let nextBase := (base + size) % kind.modulus % 2 ^ 16
      (⟨line, some ⟨base, size⟩, locationValue kind lineToSymbol line size (base % 2 ^ 16)⟩, nextBase)
    | some _, .backward =>
      let nextBase := (base + kind.modulus - size) % kind.modulus % 2 ^ 16
      let adjustedAddress := nextBase + if 0 < size then 1 else 0
      (⟨line, some ⟨adjustedAddress % kind.modulus, size⟩,
        locationValue kind lineToSymbol line size (adjustedAddress % 2 ^ 16)⟩, nextBase)

def forLines (direction : Direction) : Nat → List Line → Except Trap (List Placed × Nat)
  | base, [] => .ok ([], base)
  | base, line :: lines => do
    let maybeSize ← line.ir.objectSize base
    let (placed, next) := line.place kind lineToSymbol direction base maybeSize
    let (rest, last) ← forLines direction next lines
    return (placed :: rest, last)

/-- What a section is given: its addresses and its part of the table. -/
structure Extent where
  lowAddress : Nat
  highAddress : Nat
  byteCount : Nat
  placed : List Placed
  deriving DecidableEq

def Extent.unset : Extent := ⟨0, 0, 0, []⟩

def byteCount (placed : List Placed) : Nat := (placed.map fun p => (p.address.map Address.size).getD 0).sum % 2 ^ 32

structure SectionAddrInfo where
  index : Nat
  previous : Nat
  deriving DecidableEq, Repr

/-- The order of the sections from number `it` on; `first` is the first section with an `.ORG` so far. -/
def orderFrom : Option Nat → Nat → List Section → List SectionAddrInfo
  | _, _, [] => []
  | none, it, sec :: rest =>
    if 0 < sec.1.orgCount then
      ⟨it, it⟩ :: ((List.range it).reverse.map fun jt => ⟨jt, jt + 1⟩) ++ orderFrom (some it) (it + 1) rest
    else orderFrom none (it + 1) rest
  | some first, it, sec :: rest =>
    (if 0 < sec.1.orgCount then ⟨it, it⟩ else ⟨it, it - 1⟩) :: orderFrom (some first) (it + 1) rest

def firstOrgSection (prog : List Section) : Option Nat := prog.findIdx? fun sec => decide (0 < sec.1.orgCount)

/-- Phase 1. Without an `.ORG` the first section acts as if it began with one. -/
def sortedWork (prog : List Section) : List SectionAddrInfo :=
  if (firstOrgSection prog).isNone then
    ⟨0, 0⟩ :: (List.range' 1 (prog.length - 1)).map fun it => ⟨it, it - 1⟩
  else orderFrom none 0 prog

abbrev SymbolTable := Name → SymbolValue

/-- What phase 2 has written. -/
structure Work where
  extents : Nat → Extent
  symbols : SymbolTable

def assignSymbol (symbols : SymbolTable) (placed : Placed) : SymbolTable :=
  match placed.line.declaration, placed.value with
  | some symbol, some value => Function.update symbols symbol value
  | _, _ => symbols

def Work.finish (work : Work) (index : Nat) (extent : Extent) (visited : List Placed) : Work where
  extents := Function.update work.extents index extent
  symbols := visited.foldl assignSymbol work.symbols

def assignForward (base : Nat) (index : Nat) (lines : List Line) (work : Work) : Except Trap Work := do
  let (placed, high) ← forLines kind lineToSymbol .forward base lines
  return work.finish index ⟨base, high, byteCount placed, placed⟩ placed

def assignBackward (base : Nat) (index : Nat) (lines : List Line) (work : Work) : Except Trap Work := do
  let (placed, low) ← forLines kind lineToSymbol .backward base lines.reverse
  return work.finish index ⟨low, base, byteCount placed, placed.reverse⟩ placed

/-- What precedes the first `.ORG` of some lines, and the rest with it. -/
def beforeOrg (lines : List Line) : List Line := lines.takeWhile fun line => !line.ir.isOrg
def fromOrg (lines : List Line) : List Line := lines.dropWhile fun line => !line.ir.isOrg

/-- The 16-bit argument of an `.ORG` that comes first. -/
def orgArgument (lines : List Line) : Nat :=
  match lines.head?.map Line.ir with
  | some (.dotOrg argument) => argument.valueAs 2
  | _ => 0

/-- The section with the first `.ORG`: what is before it goes backward, the rest forward. -/
def assignFirstOrg (index : Nat) (lines : List Line) (work : Work) : Except Trap Work := do
  let orgArg := orgArgument (fromOrg lines)
  let (down, low) ← forLines kind lineToSymbol .backward ((orgArg + kind.modulus - 1) % kind.modulus)
    (beforeOrg lines).reverse
  let (up, high) ← forLines kind lineToSymbol .forward orgArg (fromOrg lines)
  return work.finish index ⟨low, high, byteCount (down.reverse ++ up), down.reverse ++ up⟩ (down ++ up)

/-- Phase 2 for one section. -/
def assignSection (prog : List Section) (initialBaseAddress : Nat) (work : Work) (info : SectionAddrInfo) :
    Except Trap Work :=
  let lines := (prog[info.index]?.map Prod.snd).getD []
  if firstOrgSection prog = some info.index then assignFirstOrg kind lineToSymbol info.index lines work
  else if info.index = info.previous then
    let base := if info.index = 0 then initialBaseAddress else (work.extents (info.index - 1)).highAddress
    assignForward kind lineToSymbol base info.index lines work
  else if info.previous < info.index then
    assignForward kind lineToSymbol (work.extents info.previous).highAddress info.index lines work
  else assignBackward kind lineToSymbol (work.extents info.previous).lowAddress info.index lines work

/-- The address table and the section addresses of a program, and the values of its symbols. -/
structure Layout where
  extents : List Extent
  symbols : SymbolTable

def assignAddresses (prog : List Section) (initialBaseAddress : Nat) : Except Trap Layout := do
  let work := sortedWork prog
  if prog.length ≠ work.length then throw (.logicError "Layout of sections failed")
  let done ← work.foldlM (assignSection kind lineToSymbol prog initialBaseAddress)
    ⟨fun _ => .unset, fun _ => .empty 0⟩
  return ⟨(List.range prog.length).map done.extents, done.symbols⟩

/-- `pepp_assign_addresses` tells code from data by the line. -/
def peppLineToSymbol : LinearIR → SymbolType
  | .monadic _ => .code
  | .dyadic _ _ _ => .code
  | _ => .object

def peppAssignAddresses (prog : List Section) (initialBaseAddress : U16) : Except Trap Layout :=
  assignAddresses .pepp peppLineToSymbol prog initialBaseAddress.toNat

def riscvLineToSymbol : LinearIR → SymbolType
  | .integer => .code
  | _ => .object

def riscvAssignAddresses (prog : List Section) (initialBaseAddress : U32) : Except Trap Layout :=
  assignAddresses .riscv riscvLineToSymbol prog initialBaseAddress.toNat

end Pepp.Tc
