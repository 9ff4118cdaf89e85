import Mathlib.Data.List.MinMax
import Pepp.Debug.Terms
import Pepp.Lib.Outcome

/-!
# The parser of watch expressions

Each rule remembers what it has parsed at a position, which is kept in 16 bits.
A rule that fails goes back to where it started. Tokens are read on demand, each
of them once, so that the buffer is the sequence of all tokens and a position.
-/

namespace Pepp.Debug

inductive Rule where
  | DEBUG_IDENT | VALUE | PAREN | CONSTANT | IDENT | P0 | CAST | P1 | P2 | P3 | P4 | P5 | P6 | P7
  deriving DecidableEq, Repr

structure Memo where
  rule : Rule
  start : U16
  stop : U16
  term : Term

/-- The term with the first end at a position or behind it. -/
def matchAt (memos : List Memo) (position : U16) (rule : Rule) : Option (Term × U16) :=
  ((memos.filter fun m => m.rule = rule ∧ m.start = position ∧ position.toNat ≤ m.stop.toNat).argmin
    fun m => m.stop.toNat).map fun m => (m.term, m.stop)

/-- A set keeps what it has for a key. -/
def insertMemo (memos : List Memo) (m : Memo) : List Memo :=
  if ∃ m' ∈ memos, m'.rule = m.rule ∧ m'.start = m.start ∧ m'.stop = m.stop then memos else m :: memos

/-- The position in the tokens, the memos and the terms that are in the expression cache. -/
structure ParserState where
  head : Nat
  memos : List Memo
  cache : List Term

inductive ParserFault where
  /-- A null term is asked for what it holds. -/
  | nullTerm
  /-- A cast of one kind is compared with one of the other. -/
  | confusedCasts
  /-- The model was given too few turns. -/
  | exhausted
  deriving DecidableEq, Repr

abbrev Parser := EStateM ParserFault ParserState

/-- `add_or_return`, where the comparisons of a term with all others have to be defined. -/
def accept (t : Term) : Parser Term := do
  let cache := (← get).cache
  if ∃ c ∈ cache, t.same c = none then throw .confusedCasts
  match cache.find? fun c => t.same c = some true with
  | some c => return c
  | none =>
    modify fun s => { s with cache := t :: s.cache }
    return t

/-- A term that is made of another one, which may be null. -/
def acceptOver (make : Term → Term) : Option Term → Parser Term
  | none => throw .nullTerm
  | some arg => accept (make arg)

def rollback (start : Nat) : Parser (Option Term) := do
  modify fun s => { s with head := start }
  return none

def memoize (start : Nat) (rule : Rule) (t : Term) : Parser (Option Term) := do
  modify fun s => { s with memos := insertMemo s.memos ⟨rule, .ofNat 16 start, .ofNat 16 s.head, t⟩ }
  return some t

/-- A rule from a position on, unless there is a memo for it. -/
def useMemo (rule : Rule) (body : Nat → Parser (Option Term)) : Parser (Option Term) := do
  let s ← get
  match matchAt s.memos (.ofNat 16 s.head) rule with
  | some (term, stop) =>
    set { s with head := stop.toNat }
    return some term
  | none => body s.head

namespace Token

def literal? : Token → Option Text
  | Literal text => some text
  | _ => none

def literalOf? (text : Text) : Token → Option Unit
  | Literal text' => if text' = text then some () else none
  | _ => none

def identifier? : Token → Option Text
  | Identifier name => some name
  | _ => none

def debugIdentifier? : Token → Option Text
  | DebugIdentifier name => some name
  | _ => none

def constant? : Token → Option (Format × U64)
  | UnsignedConstant format value => some (format, value)
  | _ => none

def typeSuffix? : Token → Option Primitives
  | TypeSuffix type => some type
  | _ => none

end Token

/-- The type of a pointer to a pointer, and so on. -/
def pointerTo (type : BoxedType Text) : Nat → BoxedType Text
  | 0 => type
  | n + 1 => .pointer 2 (pointerTo type n)

section Rules

variable (tokens : Nat → Token)

/-- `TokenBuffer::match` -/
def matchToken {α : Type} (kind : Token → Option α) : Parser (Option α) := do
  match kind (tokens (← get).head) with
  | some a =>
    modify fun s => { s with head := s.head + 1 }
    return some a
  | none => return none

def parseDebugIdentifier : Parser (Option Term) := useMemo .DEBUG_IDENT fun cp => do
  match ← matchToken tokens Token.debugIdentifier? with
  | none => return none
  | some name => memoize cp .DEBUG_IDENT (← accept (.DebuggerVariable name))

def parseIdentifier : Parser (Option Term) := useMemo .IDENT fun cp => do
  match ← matchToken tokens Token.identifier? with
  | none => return none
  | some name => memoize cp .IDENT (← accept (.Variable name))

/-- A memo is used, but the rule does not return. -/
def parseConstant : Parser (Option Term) := do
  let s ← get
  let cp := s.head
  match matchAt s.memos (.ofNat 16 cp) .CONSTANT with
  | some (_, stop) => set { s with head := stop.toNat }
  | none => pure ()
  match ← matchToken tokens Token.constant? with
  | none => return none
  | some (format, value) =>
    match ← matchToken tokens Token.typeSuffix? with
    | some type => memoize cp .CONSTANT (← accept (.Constant format (.fromBits type value)))
    | none => memoize cp .CONSTANT (← accept (.Constant format (.fromBits .i16 value)))

/-- `parse_parened`, where `p7` parses what is between the parentheses. -/
def parseParened (p7 : Parser (Option Term)) : Parser (Option Term) := useMemo .PAREN fun cp => do
  match ← matchToken tokens (Token.literalOf? ['(']) with
  | none => rollback cp
  | some _ =>
    match ← p7 with
    | none => rollback cp
    | some inner =>
      match ← matchToken tokens (Token.literalOf? [')']) with
      | none => rollback cp
      | some _ => memoize cp .PAREN (← accept (.Parenthesized inner))

def parseValue (p7 : Parser (Option Term)) : Parser (Option Term) := useMemo .VALUE fun cp => do
  match ← parseDebugIdentifier tokens with
  | some reg => memoize cp .VALUE reg
  | none =>
    match ← parseConstant tokens with
    | some constant => memoize cp .VALUE constant
    | none =>
      match ← parseIdentifier tokens with
      | some ident => memoize cp .VALUE ident
      | none =>
        match ← parseParened tokens p7 with
        | some par => memoize cp .VALUE par
        | none => return none

/-- What `parse_binary_infix` does behind the operator. -/
def parseOperand (cp : Nat) (lhs : Term) (parseRhs : Parser (Option Term)) : InfixOperators → Parser (Option Term)
  | .member op => do
    match ← matchToken tokens Token.identifier? with
    | none => rollback cp
    | some name => return some (← accept (.MemberAccess op lhs name))
  | .binary op => do
    match ← parseRhs with
    | none => rollback cp
    | some rhs => return some (← accept (.BinaryInfix op lhs rhs))

def parseBinaryInfix (valid : List InfixOperators) (parseLhs parseRhs : Parser (Option Term)) :
    Parser (Option Term) := do
  let cp := (← get).head
  match ← parseLhs with
  | none => rollback cp
  | some lhs =>
    match ← matchToken tokens Token.literal? with
    | none => rollback cp
    | some lit =>
      match stringToBinaryInfix lit with
      | none => rollback cp
      | some op => if op ∈ valid then parseOperand tokens cp lhs parseRhs op else rollback cp

def parseP0 (p7 : Parser (Option Term)) : Parser (Option Term) := useMemo .P0 fun cp => do
  match ← parseBinaryInfix tokens [.member .STAR_DOT, .member .DOT] (parseIdentifier tokens)
    (parseIdentifier tokens) with
  | some memberAccess => memoize cp .P0 memberAccess
  | none =>
    match ← parseValue tokens p7 with
    | some value => memoize cp .P0 value
    | none => rollback cp

/-- The loop over the stars of a cast. -/
def parseStars : Nat → BoxedType Text → Parser (BoxedType Text)
  | 0, _ => throw .exhausted
  | turns + 1, type => do
    match ← matchToken tokens (Token.literalOf? ['*']) with
    | some _ => parseStars turns (.pointer 2 type)
    | none => return type

/-- What `parse_cast` does behind the name of a primitive. -/
def parseDirectCast (turns : Nat) (p7 : Parser (Option Term)) (cp : Nat) (prim : Primitives) :
    Parser (Option Term) := do
  let type ← parseStars tokens turns (.primitive prim)
  match ← matchToken tokens (Token.literalOf? [')']) with
  | none => rollback cp
  | some _ => memoize cp .CAST (← acceptOver (.DirectCast type) (← parseP0 tokens p7))

/-- What `parse_cast` does behind any other name. -/
def parseIndirectCast (p7 : Parser (Option Term)) (cp : Nat) (name : Text) : Parser (Option Term) := do
  match ← matchToken tokens (Token.literalOf? ['*']) with
  | none => rollback cp
  | some _ =>
    match ← matchToken tokens (Token.literalOf? [')']) with
    | none => rollback cp
    | some _ => memoize cp .CAST (← acceptOver (.IndirectCast name) (← parseP0 tokens p7))

def parseCast (turns : Nat) (p7 : Parser (Option Term)) : Parser (Option Term) := useMemo .CAST fun cp => do
  match ← matchToken tokens (Token.literalOf? ['(']) with
  | none => rollback cp
  | some _ =>
    match ← matchToken tokens Token.identifier? with
    | none => rollback cp
    | some name =>
      match primitiveFromString name with
      | some prim => parseDirectCast tokens turns p7 cp prim
      | none => parseIndirectCast tokens p7 cp name

def parseP1 (turns : Nat) (p7 : Parser (Option Term)) : Parser (Option Term) := useMemo .P1 fun cp => do
  match ← parseCast tokens turns p7 with
  | some cast => memoize cp .P1 cast
  | none =>
    match ← matchToken tokens Token.literal? with
    | none => parseP0 tokens p7
    | some lit =>
      match stringToUnaryPrefix lit with
      | none =>
        let _ ← rollback cp
        parseP0 tokens p7
      | some op =>
        match ← parseP0 tokens p7 with
        | none => rollback cp
        | some arg => memoize cp .P1 (← accept (if op = .DEREFERENCE then .MemoryRead arg else .UnaryPrefix op arg))

/-- What the rules for binary operators have in common. -/
def parseLevel (rule : Rule) (valid : List Operators) (lower level : Parser (Option Term)) : Parser (Option Term) :=
  useMemo rule fun cp => do
    match ← parseBinaryInfix tokens (valid.map .binary) lower level with
    | some maybeInfix => memoize cp rule maybeInfix
    | none =>
      match ← lower with
      | some value => memoize cp rule value
      | none => rollback cp

variable (turns : Nat) (parse : Rule → Parser (Option Term))

def parseP2 : Parser (Option Term) :=
  parseLevel tokens .P2 [.MULTIPLY, .DIVIDE, .MODULO] (parseP1 tokens turns (parse .P7)) (parse .P2)

def parseP3 : Parser (Option Term) :=
  parseLevel tokens .P3 [.ADD, .SUBTRACT] (parseP2 tokens turns parse) (parse .P3)

def parseP4 : Parser (Option Term) :=
  parseLevel tokens .P4 [.SHIFT_LEFT, .SHIFT_RIGHT] (parseP3 tokens turns parse) (parse .P4)

def parseP5 : Parser (Option Term) :=
  parseLevel tokens .P5 [.LESS, .LESS_OR_EQUAL, .GREATER_OR_EQUAL, .GREATER] (parseP4 tokens turns parse) (parse .P5)

def parseP6 : Parser (Option Term) :=
  parseLevel tokens .P6 [.EQUAL, .NOT_EQUAL] (parseP5 tokens turns parse) (parse .P6)

def parseP7 : Parser (Option Term) :=
  parseLevel tokens .P7 [.BIT_AND, .BIT_OR, .BIT_XOR] (parseP6 tokens turns parse) (parse .P7)

/-- The rules that call themselves from a later position on. -/
def parseRule : Nat → Rule → Parser (Option Term)
  | 0, _ => throw .exhausted
  | fuel + 1, .P2 => parseP2 tokens turns (parseRule fuel)
  | fuel + 1, .P3 => parseP3 tokens turns (parseRule fuel)
  | fuel + 1, .P4 => parseP4 tokens turns (parseRule fuel)
  | fuel + 1, .P5 => parseP5 tokens turns (parseRule fuel)
  | fuel + 1, .P6 => parseP6 tokens turns (parseRule fuel)
  | fuel + 1, _ => parseP7 tokens turns (parseRule fuel)

end Rules

/-- `compile`, with turns enough for every token. -/
def compile (expr : Text) : Parser (Option Term) := do
  let tokens := (Lexer.mk expr false).token
  let ret ← parseRule tokens (expr.length + 2) (expr.length + 2) .P7
  if tokens (← get).head = .Eof then return ret else return none

/-- How a parser ends. -/
def outcome : EStateM.Result ParserFault ParserState (Option Term) → Except ParserFault (Option Term)
  | .ok ret _ => .ok ret
  | .error fault _ => .error fault

/-- The term, if there is one, or how the parser ends otherwise. -/
def compileWith (cache : List Term) (expr : Text) : Except ParserFault (Option Term) :=
  outcome (compile expr ⟨0, [], cache⟩)

end Pepp.Debug
