import Mathlib.Init

/-!
# The token buffer

A buffer stands between a parser and its lexer. Tokens are fetched when the
parser looks at them, and stay in the buffer, matched or not, until the last
checkpoint goes out of scope: then all of them are dropped.
-/

namespace Pepp.Lex

/-- What a buffer asks of its lexer. At the end of its input a lexer may have no token to give. -/
class ALexer (κ : Type) (τ : outParam Type) where
  inputRemains : κ → Bool
  nextToken : κ → Option τ × κ

/-- The tokens held, cut at the head: those matched, and those only looked at. -/
structure Buffer (κ τ : Type) where
  matched : List τ
  ahead : List τ
  lexer : κ
  deriving DecidableEq

namespace Buffer

variable {κ τ α : Type} [ALexer κ τ]

def ofLexer (lexer : κ) : Buffer κ τ := ⟨[], [], lexer⟩

def inputRemains (b : Buffer κ τ) : Bool := !b.ahead.isEmpty || ALexer.inputRemains b.lexer

/-- Fetch a token when none is waiting. A lexer without a token leaves nothing behind. -/
def fill (b : Buffer κ τ) : Buffer κ τ :=
  match b.ahead with
  | _ :: _ => b
  | [] =>
    match ALexer.nextToken b.lexer with
    | (some t, lexer) => { b with ahead := [t], lexer }
    | (none, lexer) => { b with lexer }

def peek (b : Buffer κ τ) : Option τ × Buffer κ τ := (b.fill.ahead.head?, b.fill)

/-- `match`: move the head past the next token if it is of the wanted kind. -/
def matchAs (kind : τ → Option α) (b : Buffer κ τ) : Option α × Buffer κ τ :=
  match b.fill with
  | ⟨matched, t :: ahead, lexer⟩ =>
    match kind t with
    | some a => (some a, ⟨matched ++ [t], ahead, lexer⟩)
    | none => (none, ⟨matched, t :: ahead, lexer⟩)
  | ⟨matched, [], lexer⟩ => (none, ⟨matched, [], lexer⟩)

/-- Move the head past the next token, whatever it is. -/
def advance (b : Buffer κ τ) : Buffer κ τ :=
  match b.fill with
  | ⟨matched, t :: ahead, lexer⟩ => ⟨matched ++ [t], ahead, lexer⟩
  | ⟨matched, [], lexer⟩ => ⟨matched, [], lexer⟩

/-- What the destructor of the last checkpoint does. -/
def clearTokens (b : Buffer κ τ) : Buffer κ τ := ⟨[], [], b.lexer⟩

variable {matched ahead : List τ} {lexer lexer' : κ} {t : τ}

@[simp] theorem matched_fill (b : Buffer κ τ) : b.fill.matched = b.matched := by
  rw [fill]
  split
  · rfl
  · split <;> rfl

theorem fill_cons : fill ⟨matched, t :: ahead, lexer⟩ = (⟨matched, t :: ahead, lexer⟩ : Buffer κ τ) := rfl

theorem fill_nil (h : ALexer.nextToken lexer = (some t, lexer')) :
    fill ⟨matched, [], lexer⟩ = (⟨matched, [t], lexer'⟩ : Buffer κ τ) := by
  simp only [fill, h]

end Buffer

end Pepp.Lex
