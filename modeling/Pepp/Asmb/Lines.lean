import Pepp.Isa.Pep10
import Pepp.Lib.Endian

/-!
# Lines and their values

Arguments of IR lines and values of symbols. A literal is copied into its
destination from its bytes in host order; a symbolic argument stands for the
value of another symbol.
-/

namespace Pepp.Tc

open Endian

inductive Order where
  | bigEndian | littleEndian
  deriving DecidableEq, Repr

/-- The supported hosts are little endian. -/
def hostOrder : Order := .littleEndian

/-- What `dest` holds after the copy. -/
def memcpyEndian (dest : List U8) (destOrder : Order) (src : List U8) (srcOrder : Order) : List U8 :=
  let srcOffset := if dest.length < src.length ∧ srcOrder = .bigEndian then src.length - dest.length else 0
  let destOffset := if src.length < dest.length ∧ destOrder = .bigEndian then dest.length - src.length else 0
  let adjustedSrc := (src.drop srcOffset).take (min (src.length - srcOffset) dest.length)
  let copied := if srcOrder = destOrder then adjustedSrc else adjustedSrc.reverse
  dest.take destOffset ++ copied ++ dest.drop (destOffset + copied.length)

/-- Between equal orders a shorter destination keeps the front of the source. -/
theorem memcpyEndian_host {dest src : List U8} (h : dest.length ≤ src.length) :
    memcpyEndian dest .littleEndian src .littleEndian = src.take dest.length := by
  simp [memcpyEndian, h]

structure MaskedBits where
  byteCount : U8
  bitPattern : U64
  mask : U64
  deriving DecidableEq, Repr

/-- `bits::mask`. -/
def byteMask (byteCount : U8) : U64 :=
  if 8 ≤ byteCount.toNat then BitVec.allOnes 64 else (1#64 <<< (byteCount.toNat * 8)) - 1

/-- A symbol is known by its name. -/
abbrev Name := String

inductive SymbolType where
  | empty | object | code | constant | deleted | alias
  deriving DecidableEq, Repr

inductive SymbolValue where
  | empty (bytes : U8)
  | constant (value : MaskedBits)
  | location (pointedSize pointerSize : U16) (base offset : U64) (type : SymbolType)
  | alias (ptrSize : U16) (symbolPointer : Name)
  deriving DecidableEq, Repr

inductive Numeric.Format where
  | signedDecimal | unsignedDecimal | hexadecimal
  deriving DecidableEq, Repr

/-- A number with the bytes it is given to serialize to. -/
structure Numeric where
  format : Numeric.Format
  value : U64
  size : U8
  deriving DecidableEq, Repr

/-- What a value is copied from. -/
inductive Literal where
  | numeric (number : Numeric)
  | character (value : U8)
  | string (bytes : List U8)
  deriving DecidableEq, Repr

inductive IRValue where
  | literal (value : Literal)
  | symbolic (ptrSize : U8) (symbol : Name)
  deriving DecidableEq, Repr

/-- The size of a string is kept in a byte. -/
def Literal.serializedSize : Literal → Nat
  | .numeric number => number.size.toNat
  | .character _ => 1
  | .string bytes => bytes.length % 2 ^ 8

def IRValue.serializedSize : IRValue → Nat
  | .literal value => value.serializedSize
  | .symbolic ptrSize _ => ptrSize.toNat

/-- The bytes a literal copies, in host order. -/
def Literal.source : Literal → List U8
  | .numeric number => leBytes 8 number.value.toNat
  | .character value => [value]
  | .string bytes => bytes.take (bytes.length % 2 ^ 8)

def Literal.serialize (value : Literal) (dest : List U8) (destEndian : Order) : List U8 :=
  memcpyEndian dest destEndian value.source hostOrder

/-- `value_as` of an integer of so many bytes. -/
def Numeric.valueAs (number : Numeric) (bytes : Nat) : Nat :=
  ofLE ((Literal.numeric number).serialize (List.replicate bytes 0) hostOrder)

theorem Numeric.valueAs_eq {bytes : Nat} (h : bytes ≤ 8) (number : Numeric) :
    number.valueAs bytes = number.value.toNat % 256 ^ bytes := by
  rw [Numeric.valueAs, Literal.serialize, hostOrder, memcpyEndian_host (by simpa [Literal.source] using h),
    List.length_replicate, Literal.source, take_leBytes h, ofLE_leBytes]

end Pepp.Tc

/-! ## Linear IR

The lines the Pep and RISC-V parsers produce, after macros are flattened, and
the number of bytes each generates at an address. The number of a line with an
alignment depends on that address; a line without a size is not addressed. -/

namespace Pepp.Tc

open Isa

/-- What ends an assembly abnormally. -/
inductive Trap where
  | logicError (what : String)
  | outOfRange
  | divisionByZero
  | shiftCount
  | spanBounds
  | aliasCycle
  deriving DecidableEq, Repr

inductive AlignWhich where
  | byteCount | pow2
  deriving DecidableEq, Repr

inductive LiteralWhich where
  | ASCII | byte1 | byte2 | byte4
  deriving DecidableEq, Repr

structure SectionFlags where
  r : Bool
  w : Bool
  x : Bool
  z : Bool
  deriving DecidableEq, Repr

/-- Arguments of `.ALIGN`, `.BLOCK` and `.ORG` are numbers in either language. -/
inductive LinearIR where
  | empty
  | comment
  | dotAlign (which : AlignWhich) (argument : Numeric)
  | dotSymbol
  | dotBlock (argument : Numeric)
  | dotEquate (symbol : Name) (argument : IRValue)
  | dotLiteral (which : LiteralWhich) (argument : IRValue)
  | dotOrg (argument : Numeric)
  | dotSection (name : String) (flags : SectionFlags)
  | dotConditional
  | dotAnnotate
  | macroDefinition
  | macroInstantiation
  | monadic (mnemonic : Mnemonic)
  | dyadic (mnemonic : Mnemonic) (addrMode : AddressingMode) (argument : IRValue)
  | integer
  deriving DecidableEq

/-- A line with the symbol declaration attached to it. -/
structure Line where
  ir : LinearIR
  symbol : Option Name
  deriving DecidableEq

/-- `typed_attribute<SymbolDeclaration>`; that of an `.EQUATE` is its own. -/
def Line.declaration (line : Line) : Option Name :=
  match line.ir with
  | .dotEquate symbol _ => some symbol
  | _ => line.symbol

def LinearIR.isOrg : LinearIR → Bool
  | .dotOrg _ => true
  | _ => false

/-- The alignment in bytes. The power of two is a shift of an `int`, whose top bit is its sign. -/
def alignment (which : AlignWhich) (argument : Numeric) : Except Trap Nat :=
  let value := argument.valueAs 8
  match which with
  | .byteCount => .ok value
  | .pow2 =>
    if value < 31 then .ok (2 ^ value)
    else if value = 31 then .ok (2 ^ 64 - 2 ^ 31)
    else .error .shiftCount

def LinearIR.objectSize (baseAddress : Nat) : LinearIR → Except Trap (Option Nat)
  | .dotAlign which argument => do
    let align ← alignment which argument
    if align = 0 then throw .divisionByZero
    let ret := (align - baseAddress % align) % align
    return if ret = 0 then none else some ret
  | .dotBlock argument => .ok (some (argument.valueAs 8))
  | .dotLiteral which argument =>
    match which with
    | .ASCII => .ok (some argument.serializedSize)
    | .byte1 => .ok (some 1)
    | .byte2 => .ok (some 2)
    | .byte4 => .ok (some 4)
  | .monadic _ => .ok (some 1)
  | .dyadic _ _ _ => .ok (some 3)
  | .integer => .ok (some 4)
  | _ => .ok none

structure SectionDescriptor where
  name : String
  flags : SectionFlags
  alignment : Nat
  orgCount : Nat
  sectionIndex : Nat
  deriving DecidableEq

abbrev Section := SectionDescriptor × List Line

end Pepp.Tc

/-! ## Splitting a program into sections

`pepp_split_to_sections` sorts the flattened lines into sections by the last
`.SECTION` before them, in the order the sections are first named. -/

namespace Pepp.Tc

/-- How often the symbol table saw a symbol declared. -/
inductive DefinitionState where
  | undefined | single | multiple | externalMultiple
  deriving DecidableEq, Repr

/-- The sections so far, the one lines go to, and the section each symbol is declared in. -/
structure Grouping where
  groupedIr : List Section
  active : Nat
  sectionIndex : Name → Nat

namespace Grouping

def sectionBaseIndex : Nat := 3

def start (initialSection : SectionDescriptor) : Grouping := ⟨[(initialSection, [])], 0, fun _ => 0⟩

/-- Change the descriptor of the active section. -/
def describe (grouping : Grouping) (f : SectionDescriptor → SectionDescriptor) : Grouping :=
  { grouping with groupedIr := grouping.groupedIr.modify grouping.active fun sec => (f sec.1, sec.2) }

/-- A `.SECTION` opens a new section or goes back to an existing one, whose flags it may not change. -/
def select (grouping : Grouping) (name : String) (flags : SectionFlags) : Except Trap Grouping :=
  match grouping.groupedIr.findIdx? fun sec => sec.1.name == name with
  | none => .ok { grouping with
      groupedIr := grouping.groupedIr ++
        [(⟨name, flags, 1, 0, (sectionBaseIndex + grouping.groupedIr.length) % 2 ^ 16⟩, [])]
      active := grouping.groupedIr.length }
  | some existing =>
    if (grouping.groupedIr[existing]?.map fun sec => sec.1.flags) ≠ some flags then
      .error (.logicError "Modifying flags for an existing section")
    else .ok { grouping with active := existing }

/-- What the type of a line does to the sections. -/
def enter (grouping : Grouping) : LinearIR → Except Trap Grouping
  | .dotSection name flags => grouping.select name flags
  | .dotAlign _ argument =>
    .ok (grouping.describe fun desc => { desc with alignment := max desc.alignment (argument.valueAs 2) })
  | .dotOrg _ => .ok (grouping.describe fun desc => { desc with orgCount := (desc.orgCount + 1) % 2 ^ 16 })
  | .macroDefinition => .error (.logicError "Cannot perform code generation on macros")
  | .macroInstantiation => .error (.logicError "Cannot perform code generation on macros")
  | _ => .ok grouping

/-- The symbol a line declares must be declared once, and is linked to the active section. -/
def link (state : Name → DefinitionState) (grouping : Grouping) (line : Line) : Except Trap Grouping :=
  match line.declaration with
  | none => .ok grouping
  | some symbol =>
    if state symbol = .single then .ok { grouping with
      sectionIndex := Function.update grouping.sectionIndex symbol
        ((grouping.groupedIr[grouping.active]?.map fun sec => sec.1.sectionIndex).getD 0) }
    else .error (.logicError ("Multiply defined symbol " ++ symbol))

def append (grouping : Grouping) (line : Line) : Grouping :=
  { grouping with groupedIr := grouping.groupedIr.modify grouping.active fun sec => (sec.1, sec.2 ++ [line]) }

def add (state : Name → DefinitionState) (grouping : Grouping) (line : Line) : Except Trap Grouping := do
  let entered ← grouping.enter line.ir
  let linked ← entered.link state line
  return linked.append line

end Grouping

def peppSplitToSections (state : Name → DefinitionState) (prog : List Line) (initialSection : SectionDescriptor) :
    Except Trap Grouping :=
  prog.foldlM (Grouping.add state) (.start initialSection)

def defaultDescriptor : SectionDescriptor := ⟨".text", ⟨true, true, true, false⟩, 1, 0, Grouping.sectionBaseIndex⟩

end Pepp.Tc
