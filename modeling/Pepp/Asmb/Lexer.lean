import Pepp.Microcode.Lexer

/-!
# The assembly lexer

Tokens of an assembly source. White space between tokens is skipped; then each
pattern is matched at the cursor, in a fixed order, and the cursor goes past what
it matched. The cursor counts rows and columns on its way, in 16 bits each, and
the lexer keeps where in its source each row starts.
-/

namespace Pepp.Tc

open Ucode (Text IntegerFormat fromChars isSpace isHexDigit isIdentifierStart isIdentifierRest matchSome matchDecimal
  matchSymbol)

/-- A character of a text. -/
structure Location where
  row : U16
  column : U16
  deriving DecidableEq, Repr

structure LocationInterval where
  lower : Location
  upper : Location
  deriving DecidableEq, Repr

/-- Sequential reading of a text, with what is selected between two offsets. -/
structure SeekableData where
  data : Text
  start : Nat
  end_ : Nat
  loc : Location

namespace SeekableData

def ofText (data : Text) : SeekableData := ⟨data, 0, 0, ⟨0, 0⟩⟩

variable (self : SeekableData)

def rest : Text := self.data.drop self.end_

def inputRemains : Bool := self.end_ < self.data.length

def advance (n : Nat) : SeekableData :=
  { self with end_ := self.end_ + n, loc := ⟨self.loc.row, self.loc.column + BitVec.ofNat 16 n⟩ }

def skip (n : Nat) : SeekableData := { self.advance n with start := self.end_ + n }

def newline : SeekableData := { self with loc := ⟨self.loc.row + 1, 0⟩ }

/-- An offset behind the text is out of range. -/
def viewBetween (start stop : Nat) : Option Text :=
  if start ≤ self.data.length then some ((self.data.drop start).take (stop - start)) else none

end SeekableData

structure AsmbOptions where
  allowDotInIdent : Bool := true
  allowParens : Bool := false
  allowMacroArguments : Bool := false
  allowAtInIdent : Bool := false
  recognizeOperators : Bool := false
  lineCommentLeader : Text := [';']

/-- `PepLexer::options` -/
def PepLexer.options : AsmbOptions where
  allowDotInIdent := false
  allowParens := false
  allowMacroArguments := true
  allowAtInIdent := true

/-- A token, without its location. -/
inductive AsmbToken where
  | invalid (content : Text)
  | empty
  | integer (value : U64) (format : IntegerFormat)
  | identifier (value : Text)
  | inlineComment (value : Text)
  | symbolDeclaration (value : Text)
  | literal (literal : Text)
  | dotCommand (value : Text)
  | characterConstant (value : Text)
  | stringConstant (value : Text)
  | macroPlaceholder (value : Text)
  deriving DecidableEq, Repr

/-! ## Patterns

A pattern that matches gives the matched text and the rest of the source. -/

def literalsFor (opts : AsmbOptions) : List Char :=
  (if opts.allowParens then ['(', ')'] else []) ++
    (if opts.recognizeOperators then
      ['+', '-', '*', '/', '%', '|', '&', '^', '=', '~', '!', '<', '>'] else []) ++ [',']

/-- A character of one class and any number of another. -/
def matchWord (first following : Char → Bool) : Text → Option (Text × Text)
  | c :: text => if first c then some (c :: text.takeWhile following, text.dropWhile following) else none
  | [] => none

/-- Characters in front of a match. -/
def withPrefix (pre : Text) (m : Option (Text × Text)) : Option (Text × Text) := m.map fun m => (pre ++ m.1, m.2)

/-- `[@a-zA-Z_][a-zA-Z0-9_.]*`, with or without the `@` and the period -/
def matchIdentifier (opts : AsmbOptions) : Text → Option (Text × Text) :=
  matchWord (fun c => isIdentifierStart c || (opts.allowAtInIdent && c == '@'))
    (fun c => isIdentifierRest c || (opts.allowDotInIdent && c == '.'))

/-- `\\([@a-zA-Z_+][a-zA-Z0-9_.]*|\(\))` -/
def matchMacroArg : Text → Option (Text × Text)
  | '\\' :: '(' :: ')' :: text => some (['\\', '(', ')'], text)
  | '\\' :: text => withPrefix ['\\']
      (matchWord (fun c => isIdentifierStart c || c == '@' || c == '+') (fun c => isIdentifierRest c || c == '.') text)
  | _ => none

/-- `\.[a-zA-Z][a-zA-Z0-9_]*` -/
def matchDirective : Text → Option (Text × Text)
  | '.' :: text => withPrefix ['.'] (matchWord Char.isAlpha isIdentifierRest text)
  | _ => none

/-- `0[xX][0-9a-fA-F]+` -/
def matchHexadecimal : Text → Option (Text × Text)
  | '0' :: x :: text => if x == 'x' || x == 'X' then withPrefix ['0', x] (matchSome isHexDigit text) else none
  | _ => none

/-- `0[xX]` -/
def matchBadHex : Text → Option (Text × Text)
  | '0' :: x :: text => if x == 'x' || x == 'X' then some (['0', x], text) else none
  | _ => none

/-- What may stand behind a backslash in a literal with these quotes. -/
def isEscape (quote c : Char) : Bool :=
  c == 'b' || c == 'v' || c == 'n' || c == 'r' || c == 't' || c == '\\' || c == '0' || c == quote

/-- A character of a literal with these quotes: `[^'\\]|\\[bvnrt\\0']|\\[xX][0-9a-fA-F]{2}` -/
def matchCharacter (quote : Char) : Text → Option (Text × Text)
  | [] => none
  | c :: text =>
    if c == quote then none
    else if c != '\\' then some ([c], text)
    else match text with
    | [] => none
    | d :: text =>
      if isEscape quote d then some ([c, d], text)
      else if d == 'x' || d == 'X' then
        match text with
        | high :: low :: text => if isHexDigit high && isHexDigit low then some ([c, d, high, low], text) else none
        | _ => none
      else none

def matchCharConstant : Text → Option (Text × Text)
  | '\'' :: text =>
    match matchCharacter '\'' text with
    | some (m, '\'' :: rest) => some ('\'' :: m ++ ['\''], rest)
    | _ => none
  | _ => none

/-- As many characters of a string as there are. -/
def matchCharacters : Nat → Text → Text × Text
  | 0, text => ([], text)
  | fuel + 1, text =>
    match matchCharacter '"' text with
    | some (m, rest) => (m ++ (matchCharacters fuel rest).1, (matchCharacters fuel rest).2)
    | none => ([], text)

def matchStrConstant : Text → Option (Text × Text)
  | '"' :: text =>
    match matchCharacters text.length text with
    | (m, '"' :: rest) => some ('"' :: m ++ ['"'], rest)
    | _ => none
  | _ => none

def matchLineComment (opts : AsmbOptions) (text : Text) : Option (Text × Text) :=
  if opts.lineCommentLeader.isPrefixOf text then
    let text := text.drop opts.lineCommentLeader.length
    some (opts.lineCommentLeader ++ text.takeWhile (· != '\n'), text.dropWhile (· != '\n'))
  else none

/-- A match without its first and last character. -/
def unquoted (m : Text) : Text := m.tail.dropLast

/-- The token at a character that is not white space, and the characters it takes. -/
def scan (opts : AsmbOptions) (c : Char) (text : Text) : AsmbToken × Text :=
  if (literalsFor opts).contains c then (.literal [c], [c])
  else if !opts.recognizeOperators && (c == '+' || c == '-') then
    match matchDecimal text with
    | some (digits, _) =>
      let val := BitVec.ofNat 64 (fromChars 10 digits)
      (if c == '-' then .integer (-val) .SignedDec else .integer val .UnsignedDec, c :: digits)
    -- The sign is skipped, so that nothing is selected.
    | none => (.invalid [], [c])
  else match matchMacroArg (c :: text) with
  | some (m, _) => (if opts.allowMacroArguments then .macroPlaceholder m.tail else .invalid m, m)
  | none => match matchSymbol (c :: text) with
  | some (m, _) => (.symbolDeclaration m.dropLast, m)
  | none => match matchIdentifier opts (c :: text) with
  | some (m, _) => (.identifier m, m)
  | none => match matchDirective (c :: text) with
  | some (m, _) => (.dotCommand m.tail, m)
  | none => if c == '.' then (.invalid [c], [c]) else match matchHexadecimal (c :: text) with
  | some (m, _) => (.integer (BitVec.ofNat 64 (fromChars 16 (m.drop 2))) .Hex, m)
  | none => match matchBadHex (c :: text) with
  | some (m, _) => (.invalid m, m)
  | none => match matchDecimal (c :: text) with
  | some (m, _) => (.integer (BitVec.ofNat 64 (fromChars 10 m)) .UnsignedDec, m)
  | none => match matchLineComment opts (c :: text) with
  | some (m, _) => (.inlineComment m.tail, m)
  | none => match matchCharConstant (c :: text) with
  | some (m, _) => (.characterConstant (unquoted m), m)
  | none => match matchStrConstant (c :: text) with
  | some (m, _) => (.stringConstant (unquoted m), m)
  | none => (.invalid [c], [c])

/-! ## The lexer -/

structure Token where
  token : AsmbToken
  loc : LocationInterval
  deriving DecidableEq, Repr

structure AsmbLexer where
  opts : AsmbOptions
  cursor : SeekableData
  rowToStreampos : U16 → Option Nat

namespace AsmbLexer

def ofText (opts : AsmbOptions) (data : Text) : AsmbLexer := ⟨opts, .ofText data, fun _ => none⟩

/-- White space in front of a token. A carriage return stands for an empty token, at the location behind it, as long as
no token comes after it. -/
def skipBlanks (cursor : SeekableData) (current : Option Location) : Text → SeekableData × Option Location
  | [] => (cursor, current)
  | c :: text =>
    if c = '\n' then (cursor, current)
    else if c = '\r' then skipBlanks (cursor.skip 1) (some (cursor.skip 1).loc) text
    else if isSpace c then skipBlanks (cursor.skip 1) current text
    else (cursor, current)

/-- A new line is entered when its first token is asked for. -/
def recordRow (self : AsmbLexer) : AsmbLexer :=
  if self.cursor.loc.column = 0 ∧ self.rowToStreampos self.cursor.loc.row = none then
    { self with rowToStreampos := Function.update self.rowToStreampos self.cursor.loc.row (some self.cursor.end_) }
  else self

/-- What a call takes from the source behind the white space: a token and its characters. -/
def scanned (opts : AsmbOptions) : Text → AsmbToken × Text
  | [] => (.empty, [])
  | c :: text => if c = '\n' then (.empty, [c]) else scan opts c text

def nextToken (self : AsmbLexer) : Token × AsmbLexer :=
  let self := self.recordRow
  let (cursor, current) := skipBlanks self.cursor none self.cursor.rest
  -- The start of the token goes along with the cursor while it skips.
  let locStart := cursor.loc
  match cursor.rest with
  | [] => (⟨.empty, ⟨current.getD locStart, current.getD cursor.loc⟩⟩, { self with cursor := cursor.skip 0 })
  | c :: text =>
    if c = '\n' then
      let cursor := (cursor.advance 1).newline
      (⟨.empty, ⟨locStart, cursor.loc⟩⟩, { self with cursor := cursor.skip 0 })
    else
      let (token, m) := scan self.opts c text
      let cursor := cursor.advance m.length
      (⟨token, ⟨locStart, cursor.loc⟩⟩, { self with cursor := cursor.skip 0 })

/-- The text between two locations of rows that the lexer has entered; an empty text otherwise. -/
def view (self : AsmbLexer) (loc : LocationInterval) : Option Text :=
  match self.rowToStreampos loc.lower.row, self.rowToStreampos loc.upper.row with
  | some start, some stop =>
    self.cursor.viewBetween (start + loc.lower.column.toNat) (stop + loc.upper.column.toNat)
  | _, _ => some []

end AsmbLexer

end Pepp.Tc
