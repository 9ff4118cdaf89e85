import Mathlib.Data.Char
import Mathlib.Data.List.Lex
import Pepp.Debug.Lexer

/-!
# Terms of watch expressions

Terms are kept in a cache, which answers with a term that compares equal to the
new one. Constants compare by value and casts by what they cast to. Both kinds
of casts give themselves out for the same kind of term, so that no comparison of
one with the other is defined.
-/

namespace Pepp.Debug

/-- The `Operators` of `MemberAccess`. -/
inductive MemberOperators where
  | DOT
  | STAR_DOT
  deriving DecidableEq, Repr

/-- The `Operators` of `UnaryPrefix`. -/
inductive UnaryOperators where
  | PLUS
  | MINUS
  | DEREFERENCE
  | ADDRESS_OF
  | NOT
  | NEGATE
  deriving DecidableEq, Repr

/-- A type stands for its handle, and a name for its. -/
inductive Term where
  | Constant (formatHint : Format) (value : VPrimitive)
  | Variable (name : Text)
  | DebuggerVariable (name : Text)
  | BinaryInfix (op : Operators) (lhs rhs : Term)
  | MemberAccess (op : MemberOperators) (lhs : Term) (rhs : Text)
  | UnaryPrefix (op : UnaryOperators) (arg : Term)
  | MemoryRead (arg : Term)
  | Parenthesized (term : Term)
  | DirectCast (castTo : BoxedType Text) (arg : Term)
  | IndirectCast (castTo : Text) (arg : Term)

/-! ## Operators -/

def MemberOperators.text : MemberOperators → Text
  | DOT => ['.']
  | STAR_DOT => ['-', '>']

def Operators.text : Operators → Text
  | MULTIPLY => ['*']
  | DIVIDE => ['/']
  | MODULO => ['%']
  | ADD => ['+']
  | SUBTRACT => ['-']
  | SHIFT_LEFT => ['<', '<']
  | SHIFT_RIGHT => ['>', '>']
  | LESS => ['<']
  | LESS_OR_EQUAL => ['<', '=']
  | EQUAL => ['=', '=']
  | NOT_EQUAL => ['!', '=']
  | GREATER => ['>']
  | GREATER_OR_EQUAL => ['>', '=']
  | BIT_AND => ['&']
  | BIT_OR => ['|']
  | BIT_XOR => ['^']

/-- `unops` -/
def UnaryOperators.text : UnaryOperators → Text
  | PLUS => ['+']
  | MINUS => ['-']
  | DEREFERENCE => ['*']
  | ADDRESS_OF => ['&']
  | NOT => ['!']
  | NEGATE => ['~']

/-- The `Operators` of `BinaryInfix`. -/
inductive InfixOperators where
  | member (op : MemberOperators)
  | binary (op : Operators)
  deriving DecidableEq, Repr

def InfixOperators.text : InfixOperators → Text
  | member op => op.text
  | binary op => op.text

/-- The operators in the order of `ops`. -/
def infixOperators : List InfixOperators :=
  [.member .DOT, .member .STAR_DOT, .binary .MULTIPLY, .binary .DIVIDE, .binary .MODULO, .binary .ADD,
    .binary .SUBTRACT, .binary .SHIFT_LEFT, .binary .SHIFT_RIGHT, .binary .LESS, .binary .LESS_OR_EQUAL, .binary .EQUAL,
    .binary .NOT_EQUAL, .binary .GREATER, .binary .GREATER_OR_EQUAL, .binary .BIT_AND, .binary .BIT_OR,
    .binary .BIT_XOR]

def stringToBinaryInfix (key : Text) : Option InfixOperators := infixOperators.find? (·.text = key)

def unaryOperators : List UnaryOperators := [.PLUS, .MINUS, .DEREFERENCE, .ADDRESS_OF, .NOT, .NEGATE]

def stringToUnaryPrefix (key : Text) : Option UnaryOperators := unaryOperators.find? (·.text = key)

theorem stringToBinaryInfix_eq_some_iff {key : Text} {op : InfixOperators} :
    stringToBinaryInfix key = some op ↔ key = op.text := by
  constructor
  · intro h
    have htext := List.find?_some h
    exact (of_decide_eq_true htext).symm
  · rintro rfl
    cases op with
    | member op => cases op <;> rfl
    | binary op => cases op <;> rfl

theorem stringToUnaryPrefix_eq_some_iff {key : Text} {op : UnaryOperators} :
    stringToUnaryPrefix key = some op ↔ key = op.text := by
  constructor
  · intro h
    have htext := List.find?_some h
    exact (of_decide_eq_true htext).symm
  · rintro rfl
    cases op <;> rfl

namespace Term

/-! ## Comparisons -/

/-- Whether `operator<=>` finds two terms equal; a direct and an indirect cast are taken for one another. -/
def same : Term → Term → Option Bool
  | Constant _ value, Constant _ value' => some (value.compare value' == .eq)
  | Variable name, Variable name' => some (name == name')
  | DebuggerVariable name, DebuggerVariable name' => some (name == name')
  | BinaryInfix op lhs rhs, BinaryInfix op' lhs' rhs' =>
    if op = op' then (same lhs lhs').bind fun equal => if equal then same rhs rhs' else some false else some false
  | MemberAccess op lhs rhs, MemberAccess op' lhs' rhs' =>
    if op = op' then (same lhs lhs').map fun equal => equal && rhs == rhs' else some false
  | UnaryPrefix op arg, UnaryPrefix op' arg' => if op = op' then same arg arg' else some false
  | MemoryRead arg, MemoryRead arg' => same arg arg'
  | Parenthesized term, Parenthesized term' => same term term'
  | DirectCast castTo arg, DirectCast castTo' arg' =>
    if castTo.compare castTo' = Ordering.eq then same arg arg' else some false
  | IndirectCast castTo arg, IndirectCast castTo' arg' => if castTo = castTo' then same arg arg' else some false
  | DirectCast _ _, IndirectCast _ _ => none
  | IndirectCast _ _, DirectCast _ _ => none
  | _, _ => some false

/-- A term without the formats, which no comparison looks at. -/
def erase : Term → Term
  | Constant _ value => Constant .Dec value
  | Variable name => Variable name
  | DebuggerVariable name => DebuggerVariable name
  | BinaryInfix op lhs rhs => BinaryInfix op lhs.erase rhs.erase
  | MemberAccess op lhs rhs => MemberAccess op lhs.erase rhs
  | UnaryPrefix op arg => UnaryPrefix op arg.erase
  | MemoryRead arg => MemoryRead arg.erase
  | Parenthesized term => Parenthesized term.erase
  | DirectCast castTo arg => DirectCast castTo arg.erase
  | IndirectCast castTo arg => IndirectCast castTo arg.erase

inductive CastKind where
  | direct
  | indirect
  deriving DecidableEq, Repr

/-- All casts in the term are of the kind. -/
def Casts (kind : CastKind) : Term → Prop
  | Constant _ _ | Variable _ | DebuggerVariable _ => True
  | BinaryInfix _ lhs rhs => lhs.Casts kind ∧ rhs.Casts kind
  | MemberAccess _ lhs _ => lhs.Casts kind
  | UnaryPrefix _ arg | MemoryRead arg | Parenthesized arg => arg.Casts kind
  | DirectCast _ arg => kind = .direct ∧ arg.Casts kind
  | IndirectCast _ arg => kind = .indirect ∧ arg.Casts kind

open Orderings in
theorem same_erase {t t' : Term} (h : t.same t' = some true) : t.erase = t'.erase := by
  induction t generalizing t' with
  | Constant format value =>
    cases t' with
    | Constant format' value' =>
      have hcompare : value.compare value' = .eq := eq_of_beq (Option.some_inj.mp h)
      obtain ⟨hp, hbits⟩ := then_eq_eq.mp hcompare
      have hprimitive := Primitives.toU8_inj (BitVec.eq_of_toNat_eq (compare_eq_iff_eq.mp hp))
      have heq := VPrimitive.ext_bits hprimitive (BitVec.eq_of_toNat_eq (compare_eq_iff_eq.mp hbits))
      rw [erase, erase, heq]
    | _ => cases h
  | Variable name =>
    cases t' with
    | Variable name' => rw [eq_of_beq (Option.some_inj.mp h)]
    | _ => cases h
  | DebuggerVariable name =>
    cases t' with
    | DebuggerVariable name' => rw [eq_of_beq (Option.some_inj.mp h)]
    | _ => cases h
  | BinaryInfix op lhs rhs ihl ihr =>
    cases t' with
    | BinaryInfix op' lhs' rhs' =>
      rw [same] at h
      split at h
      · next hop =>
        obtain ⟨equal, hequal, hrest⟩ := Option.bind_eq_some_iff.mp h
        cases equal with
        | false => cases hrest
        | true => rw [erase, erase, hop, ihl hequal, ihr hrest]
      · cases h
    | _ => cases h
  | MemberAccess op lhs rhs ih =>
    cases t' with
    | MemberAccess op' lhs' rhs' =>
      rw [same] at h
      split at h
      · next hop =>
        obtain ⟨equal, hequal, hrest⟩ := Option.map_eq_some_iff.mp h
        obtain ⟨rfl, hname⟩ := Bool.and_eq_true_iff.mp hrest
        rw [erase, erase, hop, ih hequal, eq_of_beq hname]
      · cases h
    | _ => cases h
  | UnaryPrefix op arg ih =>
    cases t' with
    | UnaryPrefix op' arg' =>
      rw [same] at h
      split at h
      · next hop => rw [erase, erase, hop, ih h]
      · cases h
    | _ => cases h
  | MemoryRead arg ih =>
    cases t' with
    | MemoryRead arg' => rw [erase, erase, ih h]
    | _ => cases h
  | Parenthesized term ih =>
    cases t' with
    | Parenthesized term' => rw [erase, erase, ih h]
    | _ => cases h
  | DirectCast castTo arg ih =>
    cases t' with
    | DirectCast castTo' arg' =>
      rw [same] at h
      split at h
      · next heq => rw [erase, erase, (BoxedType.lawful_compare.eq_iff castTo castTo').mp heq, ih h]
      · cases h
    | _ => cases h
  | IndirectCast castTo arg ih =>
    cases t' with
    | IndirectCast castTo' arg' =>
      rw [same] at h
      split at h
      · next heq => rw [erase, erase, heq, ih h]
      · cases h
    | _ => cases h

/-- Terms with casts of one kind can be compared. -/
theorem same_defined {kind : CastKind} {t t' : Term} (h : t.Casts kind) (h' : t'.Casts kind) :
    (t.same t').isSome = true := by
  induction t generalizing t' with
  | BinaryInfix op lhs rhs ihl ihr =>
    cases t' with
    | BinaryInfix op' lhs' rhs' =>
      rw [same]
      split
      · obtain ⟨equal, hequal⟩ := Option.isSome_iff_exists.mp (ihl h.1 h'.1)
        rw [hequal, Option.bind_some]
        split
        · exact ihr h.2 h'.2
        · rfl
      · rfl
    | _ => rfl
  | MemberAccess op lhs rhs ih =>
    cases t' with
    | MemberAccess op' lhs' rhs' =>
      rw [same]
      split
      · rw [Option.isSome_map]
        exact ih h h'
      · rfl
    | _ => rfl
  | UnaryPrefix op arg ih =>
    cases t' with
    | UnaryPrefix op' arg' =>
      rw [same]
      split
      · exact ih h h'
      · rfl
    | _ => rfl
  | MemoryRead arg ih =>
    cases t' with
    | MemoryRead arg' => exact ih h h'
    | _ => rfl
  | Parenthesized term ih =>
    cases t' with
    | Parenthesized term' => exact ih h h'
    | _ => rfl
  | DirectCast castTo arg ih =>
    cases t' with
    | DirectCast castTo' arg' =>
      rw [same]
      split
      · exact ih h.2 h'.2
      · rfl
    | IndirectCast castTo' arg' => exact CastKind.noConfusion (h.1.symm.trans h'.1)
    | _ => rfl
  | IndirectCast castTo arg ih =>
    cases t' with
    | IndirectCast castTo' arg' =>
      rw [same]
      split
      · exact ih h.2 h'.2
      · rfl
    | DirectCast castTo' arg' => exact CastKind.noConfusion (h.1.symm.trans h'.1)
    | _ => rfl
  | _ => cases t' <;> rfl

end Term

end Pepp.Debug
