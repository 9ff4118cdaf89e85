import Mathlib.Data.Nat.Log
import Pepp.Asmb.Lexer
import Pepp.Asmb.Lines
import Pepp.Bits.Escapes

/-!
# Arguments of assembly lines

The value that the token of an argument stands for, and what the Pep parser asks
of it where a line takes an operand, a `.WORD`, a `.BYTE` or a `.BLOCK`.
-/

namespace Pepp.Tc

open Isa Ucode

inductive NullaryError where
  | argumentInvalidIntegerFormat
  | argumentExceeded2Bytes
  | argumentExceeded1Byte
  | argumentMissing
  | argumentExpectedInteger
  deriving DecidableEq, Repr

/-- `PepParserError::to_string` -/
def NullaryError.toText : NullaryError → String
  | .argumentInvalidIntegerFormat => "Unrecognized integer format"
  | .argumentExceeded2Bytes => "Argument must fit in two bytes"
  | .argumentExceeded1Byte => "Argument must fit in one byte"
  | .argumentMissing => "Expected an argument"
  | .argumentExpectedInteger => "Argument must be an integer"

/-- A diagnostic, or an exception that the parser does not catch. -/
inductive ParserError where
  | nullary (error : NullaryError)
  | logicError (what : String)
  deriving DecidableEq, Repr

/-- The bytes of a text, one for each character. -/
def textBytes (text : Text) : List U8 := text.map Bits.ch

/-- `PepParser::argument` at a token. -/
def argument : AsmbToken → Except ParserError (Option IRValue)
  | .integer value .SignedDec => .ok (some (.literal (.numeric ⟨.signedDecimal, value, 2⟩)))
  | .integer value .Hex => .ok (some (.literal (.numeric ⟨.hexadecimal, value, 2⟩)))
  | .integer value .UnsignedDec => .ok (some (.literal (.numeric ⟨.unsignedDecimal, value, 2⟩)))
  | .integer _ .Bin => .error (.nullary .argumentInvalidIntegerFormat)
  | .identifier value => .ok (some (.symbolic 2 (String.ofList value)))
  | .characterConstant value => .ok (some (.literal (.character (Bits.ch (value.headD '\x00')))))
  | .stringConstant value =>
    match Bits.stringFromEscaped (textBytes value) with
    | .ok bytes => .ok (some (.literal (.string bytes)))
    | .error what => .error (.logicError what)
  | _ => .ok none

/-- The whole bytes that a logarithm to base 2 of `n` takes. -/
def bytesOf (n : Nat) : Nat := Nat.clog 256 n

/-- The values that are their own negation are taken for the widest. -/
def Numeric.minimumSize (number : Numeric) : Nat :=
  match number.format with
  | .signedDecimal => if number.value * -1 = number.value then 8 else bytesOf (2 * (-1 * number.value).toNat)
  | .unsignedDecimal => bytesOf (number.value + 1).toNat
  | .hexadecimal => bytesOf (number.value + 1).toNat

/-- `minimum_size`, with the values the symbols have so far. -/
def IRValue.minimumSize (values : Name → U64) : IRValue → Nat
  | .literal (.numeric number) => number.minimumSize
  | .literal value => value.serializedSize
  | .symbolic _ symbol => bytesOf (values symbol + 1).toNat

/-- Where an argument is asked for. -/
inductive Slot where
  | operand (mnemonic : Mnemonic) (addrMode : AddressingMode)
  | word
  | byte
  | block
  deriving DecidableEq

/-- The line that is made of an argument: the checks of `instruction` and `pseudo`. -/
def Slot.line (values : Name → U64) : Slot → Option IRValue → Except ParserError LinearIR
  | .operand mnemonic addrMode, arg =>
    match arg with
    | none => .error (.nullary .argumentMissing)
    | some arg =>
      if 2 < arg.minimumSize values then .error (.nullary .argumentExceeded2Bytes)
      else .ok (.dyadic mnemonic addrMode arg)
  | .word, arg =>
    match arg with
    | some (.literal (.numeric number)) =>
      if 2 < number.minimumSize then .error (.nullary .argumentExceeded2Bytes)
      else .ok (.dotLiteral .byte2 (.literal (.numeric number)))
    | some (.symbolic ptrSize symbol) => .ok (.dotLiteral .byte2 (.symbolic ptrSize symbol))
    | _ => .error (.nullary .argumentExpectedInteger)
  | .byte, arg =>
    match arg with
    | some (.literal (.numeric number)) =>
      if 1 < number.minimumSize then .error (.nullary .argumentExceeded1Byte)
      else .ok (.dotLiteral .byte1 (.literal (.numeric number)))
    | some (.symbolic ptrSize symbol) =>
      if 1 < (IRValue.symbolic ptrSize symbol).minimumSize values then .error (.nullary .argumentExceeded1Byte)
      else .ok (.dotLiteral .byte1 (.symbolic ptrSize symbol))
    | _ => .error (.nullary .argumentExpectedInteger)
  | .block, arg =>
    match arg with
    | some (.literal (.numeric number)) => .ok (.dotBlock number)
    | _ => .error (.nullary .argumentExpectedInteger)

/-- A line from the token of its argument. -/
def Slot.parse (slot : Slot) (values : Name → U64) (token : AsmbToken) : Except ParserError LinearIR :=
  argument token >>= slot.line values

end Pepp.Tc
