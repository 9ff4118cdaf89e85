import Pepp.Lib.Outcome
import Pepp.Microcode.Lexer

/-!
# The microcode parser

A line is read one item at a time. Signals stand in clauses, separated by
semicolons, and a clause holds the signals of one group. After an error the
parser goes on at the next line. Symbols are resolved once all lines are read.
-/

namespace Pepp.Ucode

/-- How reading a line ends early. -/
inductive Failure where
  | error (message : String)
  /-- The source ends in white space, and the parser asks the missing token for its text. -/
  | nullToken
  /-- The loop of the model was given too few turns. -/
  | exhausted
  deriving DecidableEq, Repr

abbrev MicroBuffer := Lex.Buffer MicroLexer Token

abbrev Micro := EStateM Failure MicroBuffer

def peek : Micro (Option Token) := modifyGet Lex.Buffer.peek

def advance : Micro Unit := modify Lex.Buffer.advance

def matchAs {α : Type} (kind : Token → Option α) : Micro (Option α) := modifyGet (Lex.Buffer.matchAs kind)

theorem matchAs_apply {α : Type} (kind : Token → Option α) (b : MicroBuffer) :
    matchAs kind b = .ok (Lex.Buffer.matchAs kind b).1 (Lex.Buffer.matchAs kind b).2 := rfl

def inputRemains : Micro Bool := return (← get).inputRemains

/-- `count_matched_tokens() == 0` -/
def noneMatched : Micro Bool := return (← get).matched.isEmpty

def fail {α : Type} (message : String) : Micro α := throw (.error message)

def require (condition : Prop) [Decidable condition] (message : String) : Micro Unit :=
  if condition then pure () else fail message

def Token.identifier? : Token → Option Text
  | .identifier name => some name
  | _ => none

def Token.integer? : Token → Option (Nat × IntegerFormat)
  | .integer value format => some (value, format)
  | _ => none

def Token.literal? (c : Char) : Token → Option Unit
  | .literal c' => if c' = c then some () else none
  | _ => none

def expectLiteral (c : Char) (message : String) : Micro Unit := do
  match ← matchAs (Token.literal? c) with
  | some _ => pure ()
  | none => fail message

def expectInteger (message : String) : Micro (Nat × IntegerFormat) := do
  match ← matchAs Token.integer? with
  | some integer => pure integer
  | none => fail message

/-! ## Tests -/

def memTest : Micro MemTest := do
  expectLiteral '[' "Expected '[' after 'Mem'"
  let address ← expectInteger "Expected address after '['"
  require (address.2 = .Hex) "Failed to parse address"
  require (address.1 ≤ 0xFFFF) "Address out of range"
  expectLiteral ']' "Expected ']' after address"
  expectLiteral '=' "Expected '=' after Mem"
  let value ← expectInteger "Expected value after '='"
  require (value.2 = .Hex ∨ value.2 = .SignedDec ∨ value.2 = .UnsignedDec) "Failed to parse value"
  require (value.1 ≤ 0xFFFF) "Value too large"
  if value.1 < 256 then return .ofByte (.ofNat 16 address.1) (.ofNat 8 value.1)
  else return .ofWord (.ofNat 16 address.1) (.ofNat 16 value.1)

def registerTest (reg : NamedRegisters) : Micro RegisterTest := do
  expectLiteral '=' "Expected '=' after register"
  let value ← expectInteger "Expected value after '='"
  require (value.2 = .Hex ∨ value.2 = .SignedDec ∨ value.2 = .UnsignedDec) "Failed to parse value"
  require (value.1 ≤ 2 ^ (8 * reg.byteSize) - 1)
    ("Register value too large " ++ String.ofList (Numerals.numeral 16 value.1))
  return ⟨reg, .ofNat 32 value.1⟩

def csrTest (reg : CSRs) : Micro CSRTest := do
  expectLiteral '=' "Expected '=' after register"
  let value ← expectInteger "Expected value after '='"
  require (value.2 = .UnsignedDec) "Failed to parse value"
  require (value.1 ≤ 1) "Register value too large"
  return ⟨reg, value.1 != 0⟩

def test : Micro Test := do
  match ← matchAs Token.identifier? with
  | none => fail "Expected identifier after pre/post unit"
  | some name =>
    if sameName name "mem".toList then return .mem (← memTest)
    else match parseRegister name with
    | some reg => return .register (← registerTest reg)
    | none => match parseCsr name with
    | some reg => return .csr (← csrTest reg)
    | none => fail ("Unknown register: " ++ String.ofList name)

/-! ## Lines -/

variable {S : Type} [Uarch S]

/-- A line as far as it is read, and the clause that is open. -/
structure Progress (S : Type) where
  code : Line S := {}
  currentGroup : Nat := 0
  signalsInGroup : Nat := 0

/-- An iteration of the loop either goes on or completes the line. -/
inductive Turn (S : Type) where
  | again (p : Progress S)
  | done (line : Line S)

/-- A test, and what separates it from the next one. -/
def testTurn (p : Progress S) : Micro (Turn S) := do
  let t ← test
  let p := { p with code.tests := p.code.tests ++ [t] }
  match ← peek with
  | some (.literal ',') => advance; return .again p
  | some .empty => advance; return .done p.code
  | some (.inlineComment comment) => advance; return .again { p with code.comment := some comment }
  | _ =>
    if ← inputRemains then fail "Unexpected comma, newline, or comment after test"
    else return .again p

/-- A clause may be left for a later one as long as it has no clocks. -/
def enterGroup (name : Text) (group : Nat) (p : Progress S) : Micro (Progress S) :=
  if group = p.currentGroup then pure p
  else if p.signalsInGroup = 0 ∧ p.currentGroup ≤ group then pure { p with currentGroup := group }
  else fail ("Unexpected signal: " ++ String.ofList name)

def clockSignal (s : S) (p : Progress S) : Micro (Progress S) := do
  require (p.code.controls.enabled s = false) "Clock signal already defined"
  return { p with
    code.controls := Uarch.set p.code.controls s 1
    signalsInGroup := p.signalsInGroup + 1 }

def controlSignal (s : S) (p : Progress S) : Micro (Progress S) := do
  require (p.code.controls.enabled s = false) "Control signal already defined"
  expectLiteral '=' "Expected '=' after signal"
  match ← matchAs Token.identifier? with
  | some symbol =>
    require (Uarch.signalAllowsSymbolicArgument s = true) "Signal does not allow symbolic argument"
    return { p with
      code.controls := p.code.controls.enable s
      code.deferredValues := Function.update p.code.deferredValues s (some symbol) }
  | none =>
    match ← matchAs Token.integer? with
    | some (value, .UnsignedDec) =>
      require (value ≤ 2 ^ Uarch.signalBitSize s - 1) "Signal value too large"
      return { p with code.controls := Uarch.set p.code.controls s (.ofNat 8 value) }
    | _ => fail "Expected value for signal"

def signal (name : Text) (p : Progress S) : Micro (Progress S) := do
  match parseSignal (S := S) name with
  | none => fail ("Unknown signal: " ++ String.ofList name)
  | some s =>
    let p ← enterGroup name (Uarch.signalGroup s) p
    if Uarch.isClock s then clockSignal s p else controlSignal s p

/-- What follows a signal. -/
def separator (p : Progress S) : Micro (Turn S) := do
  match ← peek with
  | some (.inlineComment comment) => advance; return .again { p with code.comment := some comment }
  | some (.literal ';') => return .again p
  | some (.literal ',') => advance; return .again p
  | some .empty => return .again p
  | _ => if ← inputRemains then fail "Unexpected  seperator after signal" else return .again p

def unexpected {α : Type} (t : Token) : Micro α := fail ("Unexpected token: " ++ String.ofList t.toText)

def codeTurn (first : Bool) (next : Option Token) (p : Progress S) : Micro (Turn S) := do
  match next with
  | some .unitPre =>
    if first then advance; return .again { p with code.type := .Pre } else unexpected .unitPre
  | some .unitPost =>
    if first then advance; return .again { p with code.type := .Post } else unexpected .unitPost
  | some (.symbolDeclaration name) =>
    advance
    require (Uarch.allowsSymbols S = true) "Symbols are forbidden"
    match (← peek).bind Token.identifier? with
    | some _ => return .again { p with code.symbolDecl := some name.dropLast }
    | none => fail "Expected identifier after symbol declaration"
  | some (.literal ';') =>
    advance
    require (p.currentGroup + 1 < Uarch.maxSignalGroups S) "Unexpected semicolon"
    return .again { p with currentGroup := p.currentGroup + 1, signalsInGroup := 0 }
  | some (.identifier name) =>
    advance
    separator (← signal name p)
  | some (.inlineComment comment) => advance; return .again { p with code.comment := some comment }
  | some .empty => advance; return .done p.code
  | some t => unexpected t
  | none => throw .nullToken

/-- The body of the loop in `nextLine`. -/
def turn (p : Progress S) : Micro (Turn S) := do
  let first ← noneMatched
  let next ← peek
  match first, next with
  | true, some (.lineNumber _) => advance; return .again p
  | _, _ => if p.code.type = .Code then codeTurn first next p else testTurn p

theorem codeTurn_symbol (first : Bool) (name : Text) (p : Progress S) :
    codeTurn first (some (.symbolDeclaration name)) p =
      advance >>= fun _ => require (Uarch.allowsSymbols S = true) "Symbols are forbidden" >>= fun _ => peek >>= fun next =>
        match next.bind Token.identifier? with
        | some _ => pure (.again { p with code.symbolDecl := some name.dropLast })
        | none => fail "Expected identifier after symbol declaration" := rfl

theorem turn_apply (p : Progress S) (b : MicroBuffer) :
    turn p b =
      (match b.matched.isEmpty, b.fill.ahead.head? with
        | true, some (.lineNumber _) => advance >>= fun _ => pure (.again p)
        | _, _ => if p.code.type = .Code then codeTurn b.matched.isEmpty b.fill.ahead.head? p else testTurn p
        : Micro (Turn S)) b.fill := rfl

def lineLoop : Nat → Progress S → Micro (Line S)
  | 0, _ => throw .exhausted
  | turns + 1, p => do
    if ← inputRemains then
      match ← turn p with
      | .again p => lineLoop turns p
      | .done line => return line
    else return p.code

theorem lineLoop_apply (turns : Nat) (p : Progress S) (b : MicroBuffer) :
    lineLoop (turns + 1) p b =
      (if b.inputRemains = true then
        turn p >>= fun t => match t with
          | .again p => lineLoop turns p
          | .done line => pure line
      else pure p.code : Micro (Line S)) b := rfl

/-- The buffer is empty before and after a line. -/
def nextLine (l : MicroLexer) : Except Failure (Line S) × MicroLexer :=
  match lineLoop (l.rest.length + 1) {} (.ofLexer l) with
  | .ok line b => (.ok line, b.clearTokens.lexer)
  | .error e b => (.error e, b.clearTokens.lexer)

end Pepp.Ucode

/-! ## Microprograms

Lines with control signals are numbered from zero, and a symbol stands for the
number of its line. Signals that name a symbol are filled in at the end.
Formatting a program writes its lines in turn, with or without their numbers. -/

namespace Pepp.Ucode

variable {S : Type} [Uarch S]

structure ParseResult (S : Type) where
  errors : List (Nat × String) := []
  symbols : List (Text × U16) := []
  program : List (Line S) := []

/-- A parse under way: what it has found, and the number of the next line of code. -/
structure Assembly (S : Type) where
  result : ParseResult S := {}
  addressCounter : Nat := 0

/-- The number of a line, if it defines control signals. -/
def Assembly.place (a : Assembly S) (line : Line S) : Line S :=
  if line.controls.any then { line with address := .ofNat 16 a.addressCounter } else line

/-- Enter the symbol that a placed line declares. -/
def ParseResult.declare (r : ParseResult S) (row : Nat) (line : Line S) : ParseResult S :=
  match line.symbolDecl with
  | none => r
  | some symbol =>
    match r.symbols.lookup symbol with
    | some _ => { r with errors := r.errors ++ [(row, "Symbol already defined: " ++ String.ofList symbol)] }
    | none => { r with symbols := r.symbols ++ [(symbol, line.address)] }

/-- Keep a line, unless it both reads and writes memory. -/
def ParseResult.keep (r : ParseResult S) (row : Nat) (line : Line S) : ParseResult S :=
  if line.controls.enabled Uarch.memRead && line.controls.enabled Uarch.memWrite then
    { r with errors := r.errors ++ [(row, "Cannot set both MemRead and MemWrite")] }
  else { r with program := r.program ++ [line] }

def Assembly.add (a : Assembly S) (row : Nat) (line : Line S) : Assembly S where
  result := (a.result.declare row (a.place line)).keep row (a.place line)
  addressCounter := if line.controls.any then a.addressCounter + 1 else a.addressCounter

def Assembly.report (a : Assembly S) (row : Nat) (message : String) : Assembly S :=
  { a with result := { a.result with errors := a.result.errors ++ [(row, message)] } }

/-- The body of the loop in `parse`. -/
def parseLine (a : Assembly S) (l : MicroLexer) : Except Failure (Assembly S × MicroLexer) :=
  match nextLine l with
  | (.ok line, l') => .ok (a.add l'.row line, l')
  | (.error (.error message), l') => .ok (a.report l'.row message, l'.synchronize)
  | (.error e, _) => .error e

def parseLoop : Nat → Assembly S → MicroLexer → Except Failure (Assembly S)
  | 0, _, _ => .error .exhausted
  | turns + 1, a, l =>
    if l.rest = [] then .ok a
    else do
      let (a, l) ← parseLine a l
      parseLoop turns a l

/-- Fill in one signal of a line, or report its symbol. -/
def resolveSignal (symbols : List (Text × U16)) (state : List (Nat × String) × Line S) (s : S) :
    List (Nat × String) × Line S :=
  match state.2.deferredValues s with
  | none => state
  | some symbol =>
    match symbols.lookup symbol with
    | some address => (state.1, { state.2 with controls := Uarch.set state.2.controls s (address.setWidth 8) })
    | none => (state.1 ++ [(state.2.address.toNat, "Undefined symbol: " ++ String.ofList symbol)], state.2)

def resolveLine (symbols : List (Text × U16)) (line : Line S) : List (Nat × String) × Line S :=
  Uarch.signals.foldl (resolveSignal symbols) ([], line)

def ParseResult.resolve (r : ParseResult S) : ParseResult S where
  errors := r.errors ++ r.program.flatMap fun line => (resolveLine r.symbols line).1
  symbols := r.symbols
  program := r.program.map fun line => (resolveLine r.symbols line).2

def parse (source : Text) : Except Failure (ParseResult S) := do
  let a ← parseLoop (source.length + 1) {} ⟨0, source⟩
  return a.result.resolve

inductive FormatStyle where
  | SourceStyle
  | ListingStyle
  deriving DecidableEq, Repr

/-- `is_code_line` -/
def Line.isCodeLine (line : Line S) : Bool := line.type = .Code && line.controls.any

/-- A line of a formatted program, with its break. -/
def Line.row (style : FormatStyle) (line : Line S) : Text :=
  (if style = .ListingStyle && line.isCodeLine then Numerals.numeral 10 (line.address.toNat + 1) ++ ". ".toList
    else []) ++ line.format ++ ['\n']

/-- `format` of a program -/
def ParseResult.format (r : ParseResult S) (style : FormatStyle) : Text := r.program.flatMap (Line.row style)

end Pepp.Ucode
