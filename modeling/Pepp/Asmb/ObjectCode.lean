import Pepp.Asmb.Addresses
import Pepp.Lib.Bytes

/-!
# Emitting object code

`to_object_code` gives every section a part of one zeroed arena and visits its
lines in order; a line takes its bytes off the front of what is left of that
part. Sections with the `z` flag are given an empty part at the start.
-/

namespace Pepp.Tc

open Isa Span

/-- `isa::Pep10::opcode` of an instruction without an operand. -/
def opcode (mnemonic : Mnemonic) : U8 := BitVec.ofNat 8 mnemonic.value

/-- `isa::Pep10::opcode` of an instruction with an addressing mode. -/
def opcodeWith (mnemonic : Mnemonic) (addr : AddressingMode) : Except Trap U8 :=
  let base := opcode mnemonic
  if opcode .BR ≤ base ∧ base ≤ opcode .CALL then .ok (base ||| if addr = .X then 1 else 0)
  else
    match addr with
    | .I => .ok (base ||| 0x0)
    | .D => .ok (base ||| 0x1)
    | .N => .ok (base ||| 0x2)
    | .S => .ok (base ||| 0x3)
    | .SF => .ok (base ||| 0x4)
    | .X => .ok (base ||| 0x5)
    | .SX => .ok (base ||| 0x6)
    | .SFX => .ok (base ||| 0x7)
    | .NONE => .error (.logicError "Invalid ADDR mode")
    | .ALL => .error (.logicError "Invalid ADDR mode")
    | .INVALID => .error (.logicError "Invalid ADDR mode")

/-- What emission knows of the symbols: their values, how often each is declared, the longest chain of aliases
the stack holds, and the bytes between the fields of a `MaskedBits`. -/
structure SymbolContext where
  values : SymbolTable
  state : Name → DefinitionState
  depth : Nat
  padding : Vector U8 7

def Layout.context (layout : Layout) (state : Name → DefinitionState) (depth : Nat) (padding : Vector U8 7) :
    SymbolContext := ⟨layout.symbols, state, depth, padding⟩

/-- `AbstractValue::value`; an alias asks the symbol it points to. -/
def resolve (values : SymbolTable) : Nat → Name → Except Trap MaskedBits
  | 0, _ => .error .aliasCycle
  | depth + 1, symbol =>
    match values symbol with
    | .empty bytes => .ok ⟨bytes, 0, 0⟩
    | .constant value => .ok value
    | .location _ pointerSize base offset _ =>
      .ok ⟨pointerSize.setWidth 8, base + offset, byteMask (pointerSize.setWidth 8)⟩
    | .alias _ pointer => resolve values depth pointer

/-- A `MaskedBits` as it lies in memory. -/
def MaskedBits.raw (padding : Vector U8 7) (value : MaskedBits) : List U8 :=
  value.byteCount :: padding.toList ++ Endian.leBytes 8 value.bitPattern.toNat ++ Endian.leBytes 8 value.mask.toNat

/-- A symbolic value copies from the start of the `MaskedBits` of its symbol. -/
def IRValue.serialize (ctx : SymbolContext) (dest : List U8) (destEndian : Order) : IRValue → Except Trap (List U8)
  | .literal value => .ok (value.serialize dest destEndian)
  | .symbolic ptrSize symbol => do
    let src ← resolve ctx.values ctx.depth symbol
    return memcpyEndian dest destEndian ((src.raw ctx.padding).take ptrSize.toNat) hostOrder

/-- A part of the arena. -/
structure ByteSpan where
  start : Nat
  size : Nat
  deriving DecidableEq, Repr

/-- Taking more than a span has is outside its contract. -/
def ByteSpan.first (span : ByteSpan) (count : Nat) : Except Trap ByteSpan :=
  if count ≤ span.size then .ok ⟨span.start, count⟩ else .error .spanBounds

def ByteSpan.subspan (span : ByteSpan) (offset : Nat) : Except Trap ByteSpan :=
  if offset ≤ span.size then .ok ⟨span.start + offset, span.size - offset⟩ else .error .spanBounds

structure StaticRelocation where
  sectionOffset : Nat
  sectionIdx : Nat
  deriving DecidableEq, Repr

/-- An entry of `ir_to_object_code`: a line of a section and its bytes. -/
structure LineCode where
  sectionIdx : Nat
  placed : Placed
  code : ByteSpan
  deriving DecidableEq

/-- What the visitors share; the relocations are in the order they are inserted. -/
structure Emission where
  objectCode : Nat → U8
  relocations : List (Name × StaticRelocation)
  irToObjectCode : List LineCode

/-- The undefined symbol an argument asks to be relocated against. -/
def IRValue.undefinedSymbol (state : Name → DefinitionState) : IRValue → Option Name
  | .symbolic _ symbol => if state symbol = .undefined then some symbol else none
  | .literal _ => none

/-- The visitor of one section, by its number. -/
structure ObjectVisitor where
  baseAddress : U16
  sectionIdx : Nat

namespace ObjectVisitor

variable (visitor : ObjectVisitor) (ctx : SymbolContext)

def relocate (argument : IRValue) (address : Nat) : List (Name × StaticRelocation) :=
  (argument.undefinedSymbol ctx.state).toList.map fun symbol =>
    (symbol, ⟨(BitVec.ofNat 16 address - visitor.baseAddress).toNat, visitor.sectionIdx % 2 ^ 16⟩)

/-- Write the bytes of a line to the front of the span, and go past them. -/
def put (p : Placed) (bytes : List U8) (relocations : List (Name × StaticRelocation)) (outBytes : ByteSpan)
    (emission : Emission) : Except Trap (ByteSpan × Emission) := do
  let code ← outBytes.first bytes.length
  let rest ← outBytes.subspan bytes.length
  return (rest, ⟨overwrite emission.objectCode code.start bytes, emission.relocations ++ relocations,
    emission.irToObjectCode ++ [⟨visitor.sectionIdx, p, code⟩]⟩)

/-- `ir_to_address.at`. -/
def addressOf (p : Placed) : Except Trap Address :=
  match p.address with
  | some address => .ok address
  | none => .error .outOfRange

def visit (p : Placed) (outBytes : ByteSpan) (emission : Emission) : Except Trap (ByteSpan × Emission) :=
  match p.line.ir with
  | .monadic mnemonic => visitor.put p [opcode mnemonic] [] outBytes emission
  | .dyadic mnemonic addrMode argument => do
    let addrInfo ← addressOf p
    let operation ← opcodeWith mnemonic addrMode
    let operands ← outBytes.subspan 1 >>= fun rest => rest.first 2
    let operand ← argument.serialize ctx (slice emission.objectCode operands.start 2) .bigEndian
    visitor.put p (operation :: operand) (visitor.relocate ctx argument addrInfo.address) outBytes emission
  | .dotAlign _ _ => do
    let addrInfo ← addressOf p
    visitor.put p (List.replicate addrInfo.size 0) [] outBytes emission
  | .dotLiteral _ argument => do
    let addrInfo ← addressOf p
    let code ← outBytes.first addrInfo.size
    let bytes ← argument.serialize ctx (slice emission.objectCode code.start code.size) .bigEndian
    visitor.put p bytes (visitor.relocate ctx argument addrInfo.address) outBytes emission
  | .dotBlock _ => do
    let addrInfo ← addressOf p
    visitor.put p (List.replicate addrInfo.size 0) [] outBytes emission
  | .empty => .ok (outBytes, emission)
  | .comment => .ok (outBytes, emission)
  | .dotEquate _ _ => .ok (outBytes, emission)
  | .dotSection _ _ => .ok (outBytes, emission)
  | .dotAnnotate => .ok (outBytes, emission)
  | .dotOrg _ => .ok (outBytes, emission)
  | .macroDefinition => .ok (outBytes, emission)
  | .macroInstantiation => .ok (outBytes, emission)
  | .dotSymbol => .error (.logicError "Unknown IR line type")
  | .dotConditional => .error (.logicError "Unknown IR line type")
  | .integer => .error (.logicError "Unknown IR line type")

/-- The lines of a section, each on what the one before it left of the span. -/
def visitLines : List Placed → ByteSpan → Emission → Except Trap (ByteSpan × Emission)
  | [], outBytes, emission => .ok (outBytes, emission)
  | p :: rest, outBytes, emission => do
    let (outBytes, emission) ← visitor.visit ctx p outBytes emission
    visitLines rest outBytes emission

end ObjectVisitor

/-- The parts of the arena from `size` on; no bytes for a `z` section. -/
def sectionSpans : Nat → List (Section × Extent) → List ByteSpan
  | _, [] => []
  | size, (sec, extent) :: rest =>
    if sec.1.flags.z then ⟨0, 0⟩ :: sectionSpans size rest
    else ⟨size, extent.byteCount⟩ :: sectionSpans (size + extent.byteCount) rest

/-- Visit the sections from number `it` on. -/
def emitSections (ctx : SymbolContext) : Nat → List (ByteSpan × Extent) → Emission → Except Trap Emission
  | _, [], emission => .ok emission
  | it, (span, extent) :: rest, emission => do
    let (_, emission) ← (ObjectVisitor.mk (BitVec.ofNat 16 extent.lowAddress) it).visitLines ctx extent.placed span emission
    emitSections ctx (it + 1) rest emission

/-- `ProgramObjectCodeResult`. -/
structure ObjectCode where
  irToObjectCode : List LineCode
  relocations : List (Name × StaticRelocation)
  objectCode : List U8
  sectionSpans : List ByteSpan

/-- What the sections are given to emit, after the arena is divided among them. -/
def sectionWork (prog : List Section) (layout : Layout) : List (ByteSpan × Extent) :=
  (sectionSpans 0 (prog.zip layout.extents)).zip layout.extents

def arenaSize (spans : List ByteSpan) : Nat := (spans.map ByteSpan.size).sum

def peppToObjectCode (ctx : SymbolContext) (prog : List Section) (layout : Layout) : Except Trap ObjectCode := do
  let spans := sectionSpans 0 (prog.zip layout.extents)
  let emission ← emitSections ctx 0 (sectionWork prog layout) ⟨fun _ => 0, [], []⟩
  return ⟨emission.irToObjectCode, emission.relocations, slice emission.objectCode 0 (arenaSize spans), spans⟩

end Pepp.Tc
