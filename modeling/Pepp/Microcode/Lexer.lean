import Pepp.Lex.Buffer
import Pepp.Microcode.Line

/-!
# The microcode lexer

Tokens of a line of microcode. Each pattern is matched at the start of what is
left of the source, in a fixed order. A line break is a token of its own; other
white space separates tokens.
-/

namespace Pepp.Ucode

inductive IntegerFormat where
  | SignedDec
  | UnsignedDec
  | Hex
  | Bin
  deriving DecidableEq, Repr

inductive Token where
  | invalid (content : Text)
  | empty
  | integer (value : Nat) (format : IntegerFormat)
  | identifier (value : Text)
  | inlineComment (value : Text)
  | symbolDeclaration (value : Text)
  | literal (value : Char)
  | lineNumber (line : Nat)
  | unitPre
  | unitPost
  deriving DecidableEq, Repr

open Numerals in
/-- `Token::to_string` -/
def Token.toText : Token → Text
  | invalid content => content
  | empty => ['\n']
  | integer value .Hex => "0x".toList ++ numeral 16 value
  | integer value .Bin => "0b".toList ++ numeral 2 value
  | integer value _ => numeral 10 value
  | identifier value | inlineComment value | symbolDeclaration value => value
  | literal value => [value]
  | lineNumber line => numeral 10 line ++ ['.']
  | unitPre => "UnitPre:".toList
  | unitPost => "UnitPost:".toList

def isSpace (c : Char) : Bool := c == ' ' || ('\t' ≤ c && c ≤ '\r')

def isIdentifierStart (c : Char) : Bool := c.isAlpha || c == '_'

def isIdentifierRest (c : Char) : Bool := c.isAlphanum || c == '_'

def isHexDigit (c : Char) : Bool := c.isDigit || ('a' ≤ c && c ≤ 'f') || ('A' ≤ c && c ≤ 'F')

def isLiteral (c : Char) : Bool := c == '[' || c == ']' || c == '=' || c == ',' || c == ';'

/-! A pattern that matches gives the matched text and the rest of the source. -/

/-- One or more characters of a class. -/
def matchSome (p : Char → Bool) (text : Text) : Option (Text × Text) :=
  if text.takeWhile p = [] then none else some (text.takeWhile p, text.dropWhile p)

/-- `[a-zA-Z_][a-zA-Z0-9_]*` -/
def matchIdentifier : Text → Option (Text × Text)
  | c :: text =>
    if isIdentifierStart c then some (c :: text.takeWhile isIdentifierRest, text.dropWhile isIdentifierRest) else none
  | [] => none

/-- `[a-zA-Z_][a-zA-Z0-9_]*:` -/
def matchSymbol (text : Text) : Option (Text × Text) :=
  match matchIdentifier text with
  | some (name, ':' :: rest) => some (name ++ [':'], rest)
  | _ => none

/-- `[0-9]+` -/
def matchDecimal : Text → Option (Text × Text) := matchSome Char.isDigit

/-- `[0-9]+\.`, without the period -/
def matchLineNumber (text : Text) : Option (Text × Text) :=
  match matchDecimal text with
  | some (digits, '.' :: rest) => some (digits, rest)
  | _ => none

/-- `0[xX][0-9a-fA-F]+`, without the first two characters -/
def matchHexadecimal : Text → Option (Text × Text)
  | '0' :: x :: text => if x == 'x' || x == 'X' then matchSome isHexDigit text else none
  | _ => none

/-- `//[^\n]*` -/
def matchComment : Text → Option (Text × Text)
  | '/' :: '/' :: text => some ('/' :: '/' :: text.takeWhile (· != '\n'), text.dropWhile (· != '\n'))
  | _ => none

/-- `std::from_chars` into an `int` that was zero: a number that does not fit leaves it so. -/
def fromChars (base : Nat) (digits : Text) : Nat :=
  if Numerals.value base digits < 2 ^ 31 then Numerals.value base digits else 0

def symbolToken (name : Text) : Token :=
  if sameName name "UnitPre:".toList then .unitPre
  else if sameName name "UnitPost:".toList then .unitPost
  else .symbolDeclaration name

/-- The token at a character that is not white space. -/
def scan (c : Char) (text : Text) : Token × Text :=
  if isLiteral c then (.literal c, text)
  else match matchSymbol (c :: text) with
  | some (name, rest) => (symbolToken name, rest)
  | none => match matchIdentifier (c :: text) with
  | some (name, rest) => (.identifier name, rest)
  | none => match matchLineNumber (c :: text) with
  | some (digits, rest) => (.lineNumber (fromChars 10 digits), rest)
  | none => match matchHexadecimal (c :: text) with
  | some (digits, rest) => (.integer (fromChars 16 digits) .Hex, rest)
  | none => match matchDecimal (c :: text) with
  | some (digits, rest) => (.integer (fromChars 10 digits) .UnsignedDec, rest)
  | none => match matchComment (c :: text) with
  | some (comment, rest) => (.inlineComment comment, rest)
  | none => (.invalid [c], text)

/-- The lexer's place in its source: the row, from zero, and what is left to read. -/
structure MicroLexer where
  row : Nat
  rest : Text
  deriving DecidableEq

namespace MicroLexer

/-- A carriage return stands for an empty token as long as nothing comes after it. -/
def nextTokenFrom (row : Nat) (current : Option Token) : Text → Option Token × MicroLexer
  | [] => (current, ⟨row, []⟩)
  | c :: text =>
    if c = '\n' then (some .empty, ⟨row + 1, text⟩)
    else if c = '\r' then nextTokenFrom row (some .empty) text
    else if isSpace c then nextTokenFrom row current text
    else (some (scan c text).1, ⟨row, (scan c text).2⟩)

def nextToken (l : MicroLexer) : Option Token × MicroLexer := nextTokenFrom l.row none l.rest

/-- Skip to the start of the next line. -/
def synchronize (l : MicroLexer) : MicroLexer :=
  match l.rest.dropWhile (· != '\n') with
  | [] => ⟨l.row, []⟩
  | _ :: rest => ⟨l.row + 1, rest⟩

instance : Lex.ALexer MicroLexer Token where
  inputRemains l := !l.rest.isEmpty
  nextToken := nextToken

end MicroLexer

end Pepp.Ucode
