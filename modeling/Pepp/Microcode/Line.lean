import Pepp.Integers
import Pepp.Lib.Numerals

/-!
# Microcode lines

The control signals of a processor data path, and what the microassembler asks
of each: its name, its width, the clause it belongs to. A line of microcode
gives values to some signals. There are three such architectures: the one-byte
bus, the two-byte bus, and the two-byte bus with a control section.
-/

namespace Pepp.Ucode

abbrev Text := List Char

/-- Case-insensitive comparison of names. -/
def sameName (a b : Text) : Bool := a.map Char.toLower == b.map Char.toLower

/-- `fmt::join` -/
def join (sep : Text) (parts : List Text) : Text := sep.intercalate parts

/-- A control word, and which of its signals a line has set. -/
structure CodeWithEnables (S : Type) where
  code : S → U8 := fun _ => 0
  enables : S → Bool := fun _ => false

namespace CodeWithEnables

variable {S : Type} [DecidableEq S]

def enabled (c : CodeWithEnables S) (s : S) : Bool := c.enables s

def get (c : CodeWithEnables S) (s : S) : U8 := c.code s

def enable (c : CodeWithEnables S) (s : S) : CodeWithEnables S := { c with enables := Function.update c.enables s true }

/-- `Code::set`: a bit field of `width` bits keeps the low bits of the value. -/
def store (c : CodeWithEnables S) (width : Nat) (s : S) (value : U8) : CodeWithEnables S :=
  { c with code := Function.update c.code s ((value.setWidth width).setWidth 8) }

/-- `CodeWithEnables::set` of the data sections: clearing a clock also takes it off the line. -/
def setClocked (isClock : S → Bool) (bitSize : S → Nat) (c : CodeWithEnables S) (s : S) (value : U8) :
    CodeWithEnables S :=
  let enables := Function.update c.enables s (!(isClock s && value == 0))
  { c with enables }.store (bitSize s) s value

end CodeWithEnables

/-- The clauses of a line that are complete, and the signals of the one being written. -/
structure Clauses where
  ret : List Text := []
  group : List Text := []

namespace Clauses

def close (c : Clauses) : Clauses := if c.group = [] then c else ⟨c.ret ++ [join ", ".toList c.group], []⟩

def text (c : Clauses) : Text := join "; ".toList c.close.ret

end Clauses

/-- How a signal of a line is written. -/
def shown {S : Type} (name : S → Text) (isClock : S → Bool) (c : CodeWithEnables S) (s : S) : Text :=
  if isClock s then name s else name s ++ '=' :: Numerals.numeral 10 (c.get s).toNat

def Clauses.write {S : Type} (name : S → Text) (isClock : S → Bool) (c : CodeWithEnables S) (a : Clauses) (s : S) :
    Clauses :=
  if c.enabled s then { a with group := a.group ++ [shown name isClock c s] } else a

/-- What the assembler asks of an architecture with the signals `S`. -/
class Uarch (S : Type) where
  decEq : DecidableEq S
  /-- The keys of `signal_to_string`, in the order of the enumeration. -/
  signals : List S
  name : S → Text
  signalBitSize : S → Nat
  signalGroup : S → Nat
  maxSignalGroups : Nat
  isClock : S → Bool
  allowsSymbols : Bool
  signalAllowsSymbolicArgument : S → Bool
  memRead : S
  memWrite : S
  set : CodeWithEnables S → S → U8 → CodeWithEnables S
  toText : CodeWithEnables S → Text

instance {S : Type} [Uarch S] : DecidableEq S := Uarch.decEq

def parseSignal {S : Type} [Uarch S] (name : Text) : Option S :=
  (Uarch.signals : List S).find? fun s => sameName (Uarch.name s) name

end Pepp.Ucode

/-! ## The three architectures

Signals of the one-byte bus, the two-byte bus, and the two-byte bus with a
control section, and how a line of each is written. The last one writes
`PreValid` after the multiplexers, out of the order of its enumeration. -/

namespace Pepp.Ucode

namespace Pep9ByteBus

inductive Signals where
  | MemRead | MemWrite | A | B | AMux | ALU | CSMux | AndZ | CMux | C | MDRMux
  | NCk | ZCk | VCk | CCk | SCk | MARCk | LoadCk | MDRCk
  deriving DecidableEq, Repr

open Signals

def signals : List Signals :=
  [MemRead, MemWrite, A, B, AMux, ALU, CSMux, AndZ, CMux, C, MDRMux,
    NCk, ZCk, VCk, CCk, SCk, MARCk, LoadCk, MDRCk]

def name : Signals → Text
  | MemRead => "MemRead".toList | MemWrite => "MemWrite".toList | A => "A".toList | B => "B".toList
  | AMux => "AMux".toList | ALU => "ALU".toList | CSMux => "CSMux".toList | AndZ => "AndZ".toList
  | CMux => "CMux".toList | C => "C".toList | MDRMux => "MDRMux".toList
  | NCk => "NCk".toList | ZCk => "ZCk".toList | VCk => "VCk".toList | CCk => "CCk".toList
  | SCk => "SCk".toList | MARCk => "MARCk".toList | LoadCk => "LoadCk".toList | MDRCk => "MDRCk".toList

def signalBitSize : Signals → Nat
  | A | B | C => 5
  | ALU => 4
  | _ => 1

def signalGroup (s : Signals) : Nat := if s.ctorIdx < NCk.ctorIdx then 0 else 1

def isClock (s : Signals) : Bool := if NCk.ctorIdx ≤ s.ctorIdx then true else s == MemRead || s == MemWrite

def visit (c : CodeWithEnables Signals) (a : Clauses) (s : Signals) : Clauses :=
  let a := a.write name isClock c s
  if s = MDRMux then a.close else a

instance : Uarch Signals where
  decEq := inferInstance
  signals := signals
  name := name
  signalBitSize := signalBitSize
  signalGroup := signalGroup
  maxSignalGroups := 2
  isClock := isClock
  allowsSymbols := false
  signalAllowsSymbolicArgument := fun _ => false
  memRead := MemRead
  memWrite := MemWrite
  set := CodeWithEnables.setClocked isClock signalBitSize
  toText := fun c => (signals.foldl (visit c) {}).text

end Pep9ByteBus

namespace Pep9WordBus

inductive Signals where
  | MemRead | MemWrite | A | B | EOMux | MARMux | AMux | ALU | CSMux | AndZ | CMux | C | MDROMux | MDREMux
  | NCk | ZCk | VCk | CCk | SCk | MARCk | LoadCk | MDROCk | MDRECk
  deriving DecidableEq, Repr

open Signals

def signals : List Signals :=
  [MemRead, MemWrite, A, B, EOMux, MARMux, AMux, ALU, CSMux, AndZ, CMux, C, MDROMux, MDREMux,
    NCk, ZCk, VCk, CCk, SCk, MARCk, LoadCk, MDROCk, MDRECk]

def name : Signals → Text
  | MemRead => "MemRead".toList | MemWrite => "MemWrite".toList | A => "A".toList | B => "B".toList
  | EOMux => "EOMux".toList | MARMux => "MARMux".toList | AMux => "AMux".toList | ALU => "ALU".toList
  | CSMux => "CSMux".toList | AndZ => "AndZ".toList | CMux => "CMux".toList | C => "C".toList
  | MDROMux => "MDROMux".toList | MDREMux => "MDREMux".toList
  | NCk => "NCk".toList | ZCk => "ZCk".toList | VCk => "VCk".toList | CCk => "CCk".toList
  | SCk => "SCk".toList | MARCk => "MARCk".toList | LoadCk => "LoadCk".toList
  | MDROCk => "MDROCk".toList | MDRECk => "MDRECk".toList

def signalBitSize : Signals → Nat
  | A | B | C => 5
  | ALU => 4
  | _ => 1

def signalGroup (s : Signals) : Nat := if s.ctorIdx < NCk.ctorIdx then 0 else 1

def isClock (s : Signals) : Bool := if NCk.ctorIdx ≤ s.ctorIdx then true else s == MemRead || s == MemWrite

def visit (c : CodeWithEnables Signals) (a : Clauses) (s : Signals) : Clauses :=
  let a := a.write name isClock c s
  if s = MDREMux then a.close else a

instance : Uarch Signals where
  decEq := inferInstance
  signals := signals
  name := name
  signalBitSize := signalBitSize
  signalGroup := signalGroup
  maxSignalGroups := 2
  isClock := isClock
  allowsSymbols := false
  signalAllowsSymbolicArgument := fun _ => false
  memRead := MemRead
  memWrite := MemWrite
  set := CodeWithEnables.setClocked isClock signalBitSize
  toText := fun c => (signals.foldl (visit c) {}).text

end Pep9WordBus

namespace Pep9WordBusControl

inductive Signals where
  | MemRead | MemWrite | A | B | EOMux | MARMux | AMux | ALU | CSMux | AndZ | CMux | C | MDROMux | MDREMux
  | NCk | ZCk | VCk | CCk | SCk | MARCk | LoadCk | MDROCk | MDRECk
  | PreValid | BR | TrueT | FalseT
  deriving DecidableEq, Repr

open Signals

def signals : List Signals :=
  [MemRead, MemWrite, A, B, EOMux, MARMux, AMux, ALU, CSMux, AndZ, CMux, C, MDROMux, MDREMux,
    NCk, ZCk, VCk, CCk, SCk, MARCk, LoadCk, MDROCk, MDRECk, PreValid, BR, TrueT, FalseT]

def name : Signals → Text
  | MemRead => "MemRead".toList | MemWrite => "MemWrite".toList | A => "A".toList | B => "B".toList
  | EOMux => "EOMux".toList | MARMux => "MARMux".toList | AMux => "AMux".toList | ALU => "ALU".toList
  | CSMux => "CSMux".toList | AndZ => "AndZ".toList | CMux => "CMux".toList | C => "C".toList
  | MDROMux => "MDROMux".toList | MDREMux => "MDREMux".toList
  | NCk => "NCk".toList | ZCk => "ZCk".toList | VCk => "VCk".toList | CCk => "CCk".toList
  | SCk => "SCk".toList | MARCk => "MARCk".toList | LoadCk => "LoadCk".toList
  | MDROCk => "MDROCk".toList | MDRECk => "MDRECk".toList
  | PreValid => "PreValid".toList | BR => "BR".toList | TrueT => "TrueT".toList | FalseT => "FalseT".toList

def signalBitSize : Signals → Nat
  | A | B | C => 5
  | ALU | BR => 4
  | TrueT | FalseT => 8
  | _ => 1

def signalGroup (s : Signals) : Nat :=
  match s with
  | PreValid => 0
  | BR | TrueT | FalseT => 2
  | s => if s.ctorIdx < NCk.ctorIdx then 0 else 1

def isClock (s : Signals) : Bool :=
  if NCk.ctorIdx ≤ s.ctorIdx ∧ s.ctorIdx ≤ MDRECk.ctorIdx then true else s == MemRead || s == MemWrite

/-- Every signal that is set is on the line, a cleared clock too. -/
def set (c : CodeWithEnables Signals) (s : Signals) (value : U8) : CodeWithEnables Signals :=
  (c.enable s).store (signalBitSize s) s value

def visit (c : CodeWithEnables Signals) (a : Clauses) (s : Signals) : Clauses :=
  if s = PreValid then a
  else
    let a := a.write name isClock c s
    if s = MDREMux ∧ c.enabled PreValid then a.write name isClock c PreValid
    else if s = MDREMux then a.close
    else if s = MDRECk then a.close
    else a

instance : Uarch Signals where
  decEq := inferInstance
  signals := signals
  name := name
  signalBitSize := signalBitSize
  signalGroup := signalGroup
  maxSignalGroups := 3
  isClock := isClock
  allowsSymbols := true
  signalAllowsSymbolicArgument := fun s => s == TrueT || s == FalseT
  memRead := MemRead
  memWrite := MemWrite
  set := set
  toText := fun c => (signals.foldl (visit c) {}).text

end Pep9WordBusControl

end Pepp.Ucode

/-! ## Lines of microcode

A line is code, with control signals, or a list of tests on memory, registers
and status bits that hold before or after the program runs. -/

namespace Pepp.Ucode

inductive NamedRegisters where
  | A | X | SP | PC | IR | T1 | T2 | T3 | T4 | T5 | T6 | M1 | M2 | M3 | M4 | M5 | INVALID
  deriving DecidableEq, Repr

inductive CSRs where
  | N | Z | V | C | S
  deriving DecidableEq, Repr

namespace NamedRegisters

def all : List NamedRegisters := [A, X, SP, PC, IR, T1, T2, T3, T4, T5, T6, M1, M2, M3, M4, M5, INVALID]

def name : NamedRegisters → Text
  | A => "A".toList | X => "X".toList | SP => "SP".toList | PC => "PC".toList | IR => "IR".toList
  | T1 => "T1".toList | T2 => "T2".toList | T3 => "T3".toList | T4 => "T4".toList | T5 => "T5".toList
  | T6 => "T6".toList | M1 => "M1".toList | M2 => "M2".toList | M3 => "M3".toList | M4 => "M4".toList
  | M5 => "M5".toList | INVALID => "invalid".toList

def byteSize : NamedRegisters → Nat
  | T1 => 1
  | IR => 3
  | _ => 2

end NamedRegisters

namespace CSRs

def all : List CSRs := [N, Z, V, C, S]

def name : CSRs → Text
  | N => "N".toList | Z => "Z".toList | V => "V".toList | C => "C".toList | S => "S".toList

end CSRs

def parseRegister (name : Text) : Option NamedRegisters := NamedRegisters.all.find? fun r => sameName r.name name

def parseCsr (name : Text) : Option CSRs := CSRs.all.find? fun r => sameName r.name name

/-- A test of one or two bytes of memory; the second byte of a short test is zero. -/
structure MemTest where
  value : U8 × U8
  address : U16
  size : Nat
  deriving DecidableEq

def MemTest.ofByte (address : U16) (value : U8) : MemTest := ⟨(value, 0), address, 1⟩

def MemTest.ofWord (address : U16) (value : U16) : MemTest := ⟨(hiByte value, loByte value), address, 2⟩

structure RegisterTest where
  reg : NamedRegisters
  value : U32
  deriving DecidableEq

structure CSRTest where
  reg : CSRs
  value : Bool
  deriving DecidableEq

inductive Test where
  | mem (t : MemTest)
  | register (t : RegisterTest)
  | csr (t : CSRTest)
  deriving DecidableEq

inductive LineType where
  | Code
  | Pre
  | Post
  deriving DecidableEq, Repr

structure Line (S : Type) where
  controls : CodeWithEnables S := {}
  comment : Option Text := none
  symbolDecl : Option Text := none
  address : U16 := -1
  /-- The symbols that signals wait for, known once all lines are read. -/
  deferredValues : S → Option Text := fun _ => none
  type : LineType := .Code
  tests : List Test := []

variable {S : Type} [Uarch S]

/-- `enables.any()` -/
def CodeWithEnables.any (c : CodeWithEnables S) : Bool := (Uarch.signals : List S).any c.enables

/-! ## Formatting -/

open Numerals

def MemTest.toText (t : MemTest) : Text :=
  "Mem[0x".toList ++ padded 16 4 t.address.toNat ++ "]=0x".toList ++ numeral 16 t.value.1.toNat ++
    if t.size = 2 then numeral 16 t.value.2.toNat else []

/-- The mask of a register of `size` bytes. -/
def registerMask : Nat → U32
  | 0 => 0
  | 1 => 0xFF
  | 2 => 0xFFFF
  | _ => 0xFFFFFFFF

def RegisterTest.toText (t : RegisterTest) : Text :=
  t.reg.name ++ "=0x".toList ++ padded 16 (2 * t.reg.byteSize) (t.value &&& registerMask t.reg.byteSize).toNat

def CSRTest.toText (t : CSRTest) : Text := t.reg.name ++ '=' :: numeral 10 t.value.toNat

def Test.toText : Test → Text
  | .mem t => t.toText
  | .register t => t.toText
  | .csr t => t.toText

/-- `format` of one line -/
def Line.format (line : Line S) : Text :=
  let tests := join ", ".toList (line.tests.map Test.toText)
  match line.type with
  | .Pre => "UnitPre: ".toList ++ tests
  | .Post => "UnitPost: ".toList ++ tests
  | .Code =>
    (match line.symbolDecl with
      | some symbol => symbol ++ ": ".toList
      | none => []) ++
    Uarch.toText line.controls ++ line.comment.getD []

end Pepp.Ucode
