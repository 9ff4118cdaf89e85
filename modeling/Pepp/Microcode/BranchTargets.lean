import Pepp.Microcode.RoundTrip

/-!
# Branch targets

The lines with control signals are taken out of a program to be run. A line
branches to the line of a symbol, whose number is cut to the width of the field
that holds it. Branches arrive where they should as long as the symbols they
name are declared early enough, and no line is so late that its number wraps.
-/

namespace Pepp.Ucode

variable {S : Type} [Uarch S]

/-- The lines that `microcodeFor` takes out of a program. -/
def ParseResult.codeLines (r : ParseResult S) : List (Line S) := r.program.filter Line.isCodeLine

/-- The lines of a source that are run. -/
def sourceCode (source : Text) : List (Line S) := (sourceLines source).filter fun line => line.controls.any

/-- Line numbers fit their type, and a symbol that a signal names is declared on a line whose number fits the signal. -/
def Near (code : List (Line S)) : Prop :=
  code.length ≤ 2 ^ 16 ∧ ∀ line ∈ code, ∀ s, ∀ symbol ∈ line.deferredValues s,
    ∃ target ∈ code.take (2 ^ Uarch.signalBitSize s), target.symbolDecl = some symbol

/-! ## Numbers -/

/-- The line with the number `n`. -/
def Line.placedAt (line : Line S) (n : Nat) : Line S := { line with address := .ofNat 16 n }

variable {symbol : Text} {lines : List (Nat × Line S)}

variable {a : Assembly S}

section Signals

variable {symbols : List (Text × U16)} {line : Line S}

/-- The address that a signal waits for. -/
def Line.target (line : Line S) (symbols : List (Text × U16)) (s : S) : Option U16 :=
  (line.deferredValues s).bind fun symbol => symbols.lookup symbol

variable {state : List (Nat × String) × Line S}

variable [Uarch.Lawful S]

end Signals

/-! ## Programs -/

/-- The code of a program, and what its symbols stand for. -/
structure Built (source : Text) (r : ParseResult S) : Prop where
  codeLines : ∀ i : Nat, r.codeLines[i]? =
    ((sourceCode source)[i]?).map fun line => (line.placedAt i).resolved r.symbols
  symbols : ∀ symbol address, r.symbols.lookup symbol = some address ↔
    ∃ (i : Nat) (line : Line S), (sourceCode source)[i]? = some line ∧ line.symbolDecl = some symbol ∧
      address = .ofNat 16 i
  defined : ∀ line ∈ sourceCode (S := S) source, ∀ s, ∀ symbol ∈ line.deferredValues s,
    ∃ address, r.symbols.lookup symbol = some address
  declares : ∀ line ∈ r.program, ∀ symbol ∈ line.symbolDecl, line ∈ r.codeLines
  kept : ∀ line ∈ sourceCode (S := S) source, line.Kept

namespace Built

variable {source : Text} {r : ParseResult S} (h : Built source r)

include h

end Built

variable [Uarch.Lawful S]

namespace Built

variable {source : Text} {r : ParseResult S} (h : Built source r)

include h

end Built

/-! ## The control section -/

end Pepp.Ucode
