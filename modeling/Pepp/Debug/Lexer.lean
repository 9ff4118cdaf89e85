import Pepp.Debug.Values
import Pepp.Lib.Numerals

/-!
# The lexer of watch expressions

Each pattern is tried in a fixed order at the start of what is left of the
input. A sign in front of digits is part of a constant. The suffix of a constant
is a token of its own, which only stands directly behind it.
-/

namespace Pepp.Debug

abbrev Text := List Char

inductive Format where
  | Dec
  | Hex
  deriving DecidableEq, Repr

inductive Token where
  | Invalid
  | Eof
  | UnsignedConstant (format : Format) (value : U64)
  | TypeSuffix (type : Primitives)
  | Identifier (value : Text)
  | DebugIdentifier (value : Text)
  | Literal (literal : Text)
  deriving DecidableEq, Repr

/-! ## Patterns

A pattern that matches gives the matched text and the rest of the input. -/

def isWhitespace (c : Char) : Bool := c == ' ' || c == '\r' || c == '\t' || c == '\n'

def isHexDigit (c : Char) : Bool := c.isDigit || ('a' ≤ c && c ≤ 'f') || ('A' ≤ c && c ≤ 'F')

def isWord (c : Char) : Bool := c.isAlphanum || c == '_'

def isSign (c : Char) : Bool := c == '+' || c == '-'

/-- One or more characters of a class. -/
def matchSome (p : Char → Bool) (text : Text) : Option (Text × Text) :=
  if text.takeWhile p = [] then none else some (text.takeWhile p, text.dropWhile p)

/-- A given character, and a pattern behind it. -/
def matchAfter (c : Char) (pattern : Text → Option (Text × Text)) : Text → Option (Text × Text)
  | [] => none
  | c' :: text => if c' = c then (pattern text).map fun m => (c :: m.1, m.2) else none

def matchBits : Text → Option (Text × Text)
  | '8' :: text => some (['8'], text)
  | '1' :: '6' :: text => some (['1', '6'], text)
  | '3' :: '2' :: text => some (['3', '2'], text)
  | _ => none

def integerLiteralSuffix (text : Text) : Option (Text × Text) :=
  matchAfter '_' (fun rest => (matchAfter 'i' matchBits rest).or (matchAfter 'u' matchBits rest)) text

def hex (text : Text) : Option (Text × Text) :=
  matchAfter '0' (fun rest => (matchAfter 'x' (matchSome isHexDigit) rest).or
    (matchAfter 'X' (matchSome isHexDigit) rest)) text

def dec (text : Text) : Option (Text × Text) :=
  ((matchAfter '+' (matchSome Char.isDigit) text).or (matchAfter '-' (matchSome Char.isDigit) text)).or
    (matchSome Char.isDigit text)

/-- The literals of two characters, which come before those of one. -/
def wideLiterals : List Text :=
  [['=', '='], ['<', '='], ['>', '='], ['!', '='], ['-', '>'], ['<', '<'], ['>', '>']]

def narrowLiterals : Text := ['=', '<', '>', '(', ')', '/', '!', '~', '%', '^', '&', '*', '-', '+', '.', '|']

def literal (text : Text) : Option (Text × Text) :=
  if text.take 2 ∈ wideLiterals then some (text.take 2, text.drop 2)
  else if text.head?.any (narrowLiterals.contains ·) then some (text.take 1, text.drop 1)
  else none

def debug (text : Text) : Option (Text × Text) := matchAfter '$' (matchSome isWord) text

def ident (text : Text) : Option (Text × Text) := matchSome isWord text

/-! ## Tokens -/

/-- The names in `types`. -/
def primitiveFromString (str : Text) : Option Primitives :=
  if str = ['i', '8'] then some .i8
  else if str = ['u', '8'] then some .u8
  else if str = ['i', '1', '6'] then some .i16
  else if str = ['u', '1', '6'] then some .u16
  else if str = ['i', '3', '2'] then some .i32
  else if str = ['u', '3', '2'] then some .u32
  else none

def signed (base : Nat) : Text → Int
  | '+' :: digits => Numerals.value base digits
  | '-' :: digits => -Numerals.value base digits
  | digits => Numerals.value base digits

/-- `toInt`, which gives zero for what is out of the range of an `int`. -/
def toInt (base : Nat) (text : Text) : Int :=
  if -2 ^ 31 ≤ signed base text ∧ signed base text < 2 ^ 31 then signed base text else 0

/-- The input from the offset on, and whether the suffix of a constant may follow. -/
structure Lexer where
  input : Text
  allowsLiteralSuffix : Bool
  deriving DecidableEq, Repr

namespace Lexer

/-- What follows the white space. -/
def nextSymbol (text : Text) : Token × Lexer :=
  match hex text with
  | some (found, rest) => (.UnsignedConstant .Hex (.ofInt 64 (toInt 16 (found.drop 2))), ⟨rest, true⟩)
  | none =>
    match dec text with
    | some (found, rest) => (.UnsignedConstant .Dec (.ofInt 64 (toInt 10 found)), ⟨rest, true⟩)
    | none =>
      match literal text with
      | some (found, rest) => (.Literal found, ⟨rest, false⟩)
      | none =>
        match debug text with
        | some (found, rest) => (.DebugIdentifier (found.drop 1), ⟨rest, false⟩)
        | none =>
          match ident text with
          | some (found, rest) => (.Identifier found, ⟨rest, false⟩)
          | none => (.Invalid, ⟨text, false⟩)

def nextToken (self : Lexer) : Token × Lexer :=
  if self.input = [] then (.Eof, self)
  else
    match if self.allowsLiteralSuffix then integerLiteralSuffix self.input else none with
    | some (found, rest) =>
      match primitiveFromString (found.drop 1) with
      | some type => (.TypeSuffix type, ⟨rest, false⟩)
      | none => (.Invalid, ⟨rest, false⟩)
    | none => nextSymbol (self.input.dropWhile isWhitespace)

/-- The lexer after so many tokens. -/
def skip (self : Lexer) : Nat → Lexer
  | 0 => self
  | n + 1 => (self.skip n).nextToken.2

/-- Every token that `next_token` gives in turn. -/
def token (self : Lexer) (n : Nat) : Token := (self.skip n).nextToken.1

end Lexer

end Pepp.Debug
