import Mathlib.Data.List.Nodup
import Mathlib.Logic.Function.Basic
import Pepp.Integers
import Pepp.Lib.Trees

/-!
# Symbol tables

The tables of a program and its operating system hang in one tree. A call on one
of them looks at the entries with its name in all of them, and may turn some into
imports of another.
-/

namespace Pepp.Symbol

inductive DefinitionState where
  | Undefined | Single | Multiple | ExternalMultiple
  deriving DecidableEq, Repr

inductive Binding where
  | Local | Global | Imported
  deriving DecidableEq, Repr

structure MaskedBits where
  byteCount : U8
  bitPattern : U64
  mask : U64
  deriving DecidableEq, Repr

/-- What the calls give as a value. A pointer is to the entry with the same name in some table. -/
inductive Value (T : Type) where
  | empty (bytes : U8)
  | internalPointer (ptrSize : U16) (symbolPointer : Option T)
  deriving DecidableEq, Repr

structure Entry (T : Type) where
  state : DefinitionState
  binding : Binding
  value : Value T
  deriving DecidableEq, Repr

/-- A new entry. -/
def Entry.fresh {T : Type} : Entry T := ⟨.Undefined, .Local, .empty 0⟩

/-- The entries with one name, by table. -/
abbrev Entries (T : Type) := T → Option (Entry T)

/-- One definition more. -/
def DefinitionState.defined : DefinitionState → DefinitionState
  | .Undefined => .Single
  | .Single => .Multiple
  | state => state

/-- Children first, then the table itself. -/
def visit {T : Type} : RoseTree T → List T
  | .node t ts => visits ts ++ [t]
where
  visits : List (RoseTree T) → List T
    | [] => []
    | t :: ts => visit t ++ visits ts

/-- A tree of tables. `T` is the type of its tables, and each of them is in it once. -/
structure Hierarchy (T : Type) where
  tree : RoseTree T
  pointerSize : U16
  nodup : (visit tree).Nodup
  complete : ∀ t, t ∈ visit tree

variable {T : Type} [DecidableEq T]

namespace Entries

def bound (s : Entries T) (b : Binding) (t : T) : Bool := (s t).any fun e => e.binding = b

def modify (s : Entries T) (t : T) (f : Entry T → Entry T) : Entries T := Function.update s t ((s t).map f)

/-- Create the entry if it does not exist. -/
def touch (s : Entries T) (t : T) : Entries T := Function.update s t (some ((s t).getD .fresh))

/-- Make one entry an import of another. -/
def importFrom (pointerSize : U16) (importer exporter : T) (s : Entries T) : Entries T :=
  match s exporter with
  | some e => s.modify importer fun _ => ⟨e.state, .Imported, .internalPointer pointerSize (some exporter)⟩
  | none => s

end Entries

/-- The value of an entry. No value comes out of fuel that does not last. -/
def Value.value (s : Entries T) : Nat → Value T → Option MaskedBits
  | 0, _ => none
  | _ + 1, .empty bytes => some ⟨bytes, 0, 0⟩
  | _ + 1, .internalPointer _ none => some ⟨0, 0, 0⟩
  | fuel + 1, .internalPointer _ (some t) => (s t).bind fun e => value s fuel e.value

section Calls

variable (h : Hierarchy T) (self : T)

/-- The tables of the whole tree that have an entry with the name, in the order of the traversal. -/
def selectByName (s : Entries T) : List T := (visit h.tree).filter fun t => (s t).isSome

def reference (s : Entries T) : Entries T :=
  let s := s.touch self
  let symbols := selectByName h s
  let globalCount := symbols.countP fun other => other ≠ self ∧ s.bound .Global other
  if 1 < globalCount then s.modify self fun e => { e with state := .ExternalMultiple, binding := .Global }
  else if globalCount = 1 then
    -- the entry of `self` is among the symbols
    symbols.foldl (fun s other => if s.bound .Global other then s.importFrom h.pointerSize self other else s) s
  else s

def define (s : Entries T) : Entries T :=
  let s := reference h self s
  let sameName := selectByName h s
  match (s self).map Entry.binding with
  | some .Imported => s.modify self fun e => { e with state := .ExternalMultiple }
  | some .Global =>
    let s := s.modify self fun e => { e with state := e.state.defined }
    sameName.foldl
      (fun s other =>
        if other = self then s
        else if s.bound .Imported other then s.importFrom h.pointerSize other self
        else s) s
  | some .Local => s.modify self fun e => { e with state := e.state.defined }
  | none => s

def markGlobal (s : Entries T) : Entries T :=
  let s := reference h self s
  let s := s.modify self fun e => { e with binding := .Global }
  let sameName := selectByName h s
  sameName.foldl
    (fun s other =>
      if other = self then s
      else if s.bound .Global other then
        (s.modify other fun e => { e with state := .ExternalMultiple }).modify self fun e =>
          { e with state := .ExternalMultiple }
      else if s.bound .Local other then s.importFrom h.pointerSize other self
      else s) s

end Calls

inductive Operation where
  | reference | define | markGlobal
  deriving DecidableEq, Repr

structure Call (Name : Type) where
  operation : Operation
  name : Name
  deriving DecidableEq, Repr

def perform (h : Hierarchy T) (self : T) : Operation → Entries T → Entries T
  | .reference => reference h self
  | .define => define h self
  | .markGlobal => markGlobal h self

/-- Calls on one name in their order, each with its table. -/
def performAll (h : Hierarchy T) (run : List (T × Operation)) : Entries T :=
  run.foldl (fun s p => perform h p.1 p.2 s) fun _ => none

variable {Name : Type} [DecidableEq Name]

/-- A call leaves the entries with other names alone. -/
def call (h : Hierarchy T) (self : T) (c : Call Name) (s : Name → Entries T) : Name → Entries T :=
  Function.update s c.name (perform h self c.operation (s c.name))

/-- Calls in their order, from empty tables. -/
def exec (h : Hierarchy T) (run : List (T × Call Name)) : Name → Entries T :=
  run.foldl (fun s p => call h p.1 p.2 s) fun _ _ => none

/-- What a call is to a name. -/
def Call.on (x : Name) (c : Call Name) : Option Operation := if c.name = x then some c.operation else none

end Pepp.Symbol
