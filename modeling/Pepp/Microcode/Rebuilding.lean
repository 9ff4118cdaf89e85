import Pepp.Microcode.TestLines

/-!
# Building a program again

Whether a program is built without errors depends on its symbols, on which lines
define control signals, and on which access memory. Two lists of lines that
agree on these are built alike, with the same symbols and the same addresses.
-/

namespace Pepp.Ucode

variable {S : Type}

section Symbols

variable {r : ParseResult S} {row : Nat} {line : Line S}

theorem declare_errors (h : (r.declare row line).errors = []) :
    r.errors = [] ∧ ∀ symbol ∈ line.symbolDecl, r.symbols.lookup symbol = none := by
  rw [ParseResult.declare] at h
  split at h
  · next hnone => exact ⟨h, fun symbol hsymbol => by rw [hnone] at hsymbol; exact absurd hsymbol (Option.not_mem_none _)⟩
  · next symbol hsome =>
    split at h
    · exact absurd h (by simp)
    · next hlookup => exact ⟨h, fun name hname => by rw [hsome] at hname; rwa [← Option.some.inj hname]⟩

theorem declare_ok (h : ∀ symbol ∈ line.symbolDecl, r.symbols.lookup symbol = none) :
    r.declare row line =
      { r with symbols := r.symbols ++ (line.symbolDecl.map (·, line.address)).toList } := by
  rw [ParseResult.declare]
  split
  · next hnone => simp [hnone]
  · next symbol hsome => simp [h symbol hsome, hsome]

end Symbols

variable [Uarch S]

/-- What building a program looks at. -/
structure Line.Like (line line' : Line S) : Prop where
  symbolDecl : line'.symbolDecl = line.symbolDecl
  any : line'.controls.any = line.controls.any
  memRead : line'.controls.enabled Uarch.memRead = line.controls.enabled Uarch.memRead
  memWrite : line'.controls.enabled Uarch.memWrite = line.controls.enabled Uarch.memWrite

def Assembly.addAll (a : Assembly S) (lines : List (Nat × Line S)) : Assembly S :=
  lines.foldl (fun a line => a.add line.1 line.2) a

/-- The line with the number `n`, if it defines control signals. -/
def Line.numbered (line : Line S) (n : Nat) : Line S :=
  if line.controls.any then { line with address := .ofNat 16 n } else line

theorem Line.numbered_of_any {line : Line S} (h : line.controls.any = true) (n : Nat) :
    line.numbered n = { line with address := .ofNat 16 n } := if_pos h

theorem Line.numbered_of_not {line : Line S} (h : line.controls.any = false) (n : Nat) : line.numbered n = line :=
  if_neg (by rw [h]; exact Bool.false_ne_true)

/-- The lines with their numbers, the first of which is `n`. -/
def placed : Nat → List (Line S) → List (Line S)
  | _, [] => []
  | n, line :: lines => line.numbered n :: placed (if line.controls.any then n + 1 else n) lines

variable {a a' : Assembly S} {row row' : Nat} {line line' : Line S}

theorem keep_errors {r : ParseResult S} (h : (r.keep row line).errors = []) :
    r.errors = [] ∧ (line.controls.enabled Uarch.memRead && line.controls.enabled Uarch.memWrite) = false := by
  rw [ParseResult.keep] at h
  split at h
  · exact absurd h (by simp)
  · next hmem => exact ⟨h, by simpa using hmem⟩

theorem keep_ok {r : ParseResult S}
    (h : (line.controls.enabled Uarch.memRead && line.controls.enabled Uarch.memWrite) = false) :
    r.keep row line = { r with program := r.program ++ [line] } := by
  rw [ParseResult.keep, if_neg (by rw [h]; decide)]

theorem place_controls : (a.place line).controls = line.controls := by
  rw [Assembly.place]
  split <;> rfl

theorem place_symbolDecl : (a.place line).symbolDecl = line.symbolDecl := by
  rw [Assembly.place]
  split <;> rfl

/-- A line that is added without an error. -/
structure Assembly.Adds (a : Assembly S) (line : Line S) : Prop where
  fresh : ∀ symbol ∈ line.symbolDecl, a.result.symbols.lookup symbol = none
  oneAccess : (line.controls.enabled Uarch.memRead && line.controls.enabled Uarch.memWrite) = false

theorem add_errors (h : (a.add row line).result.errors = []) : a.result.errors = [] ∧ a.Adds line := by
  obtain ⟨hdeclare, haccess⟩ := keep_errors (r := a.result.declare row (a.place line)) h
  obtain ⟨herrors, hfresh⟩ := declare_errors hdeclare
  rw [place_controls] at haccess
  rw [place_symbolDecl] at hfresh
  exact ⟨herrors, hfresh, haccess⟩

theorem add_ok (h : a.Adds line) : a.add row line =
    ⟨⟨a.result.errors, a.result.symbols ++ (line.symbolDecl.map (·, (a.place line).address)).toList,
      a.result.program ++ [a.place line]⟩, if line.controls.any then a.addressCounter + 1 else a.addressCounter⟩ := by
  rw [Assembly.add, declare_ok (by rw [place_symbolDecl]; exact h.fresh), keep_ok (by rw [place_controls]; exact h.oneAccess),
    place_symbolDecl]

/-- The place of a line that defines no signals is not looked at when it declares no symbol. -/
theorem Assembly.Adds.like (h : a.Adds line) (hlike : line.Like line') (hsymbols : a'.result.symbols = a.result.symbols) :
    a'.Adds line' where
  fresh := by rw [hlike.symbolDecl, hsymbols]; exact h.fresh
  oneAccess := by rw [hlike.memRead, hlike.memWrite]; exact h.oneAccess

theorem addAll_cons (line : Nat × Line S) (lines : List (Nat × Line S)) :
    a.addAll (line :: lines) = (a.add line.1 line.2).addAll lines := rfl

/-- Errors stay. -/
theorem addAll_errors {lines : List (Nat × Line S)} (h : (a.addAll lines).result.errors = []) :
    a.result.errors = [] := by
  induction lines generalizing a with
  | nil => exact h
  | cons line lines ih => exact (add_errors (ih h)).1

/-- The lines of a program that is built without errors. -/
theorem addAll_program {lines : List (Nat × Line S)} (h : (a.addAll lines).result.errors = []) :
    (a.addAll lines).result.program = a.result.program ++ placed a.addressCounter (lines.map Prod.snd) := by
  induction lines generalizing a with
  | nil => exact (List.append_nil _).symm
  | cons line lines ih =>
    have h : ((a.add line.1 line.2).addAll lines).result.errors = [] := h
    rw [addAll_cons, ih h, add_ok (add_errors (addAll_errors h)).2, List.map_cons, placed, List.append_assoc]
    rfl

/-- A symbol stands for the number of a line that has one. -/
theorem place_address (hlike : line.Like line') (hcounter : a'.addressCounter = a.addressCounter)
    (h : line.controls.any = true) : (a'.place line').address = (a.place line).address := by
  rw [Assembly.place, Assembly.place, if_pos h, if_pos (hlike.any.trans h), hcounter]

/-- Lists of lines that agree are built alike. -/
theorem addAll_like {lines lines' : List (Nat × Line S)}
    (hlike : List.Forall₂ (fun line line' => line.2.Like line'.2) lines lines')
    (hsignal : ∀ line ∈ lines, line.2.symbolDecl ≠ none → line.2.controls.any = true)
    (hsymbols : a'.result.symbols = a.result.symbols) (hcounter : a'.addressCounter = a.addressCounter)
    (herrors : a'.result.errors = []) (h : (a.addAll lines).result.errors = []) :
    (a'.addAll lines').result.errors = [] ∧ (a'.addAll lines').result.symbols = (a.addAll lines).result.symbols := by
  induction hlike generalizing a a' with
  | nil => exact ⟨herrors, hsymbols⟩
  | @cons line line' lines lines' hhead hlike ih =>
    have hadds := (add_errors (@addAll_errors _ _ _ lines h)).2
    have hadds' := hadds.like hhead hsymbols
    obtain ⟨hsig, hsignal⟩ := List.forall_mem_cons.mp hsignal
    rw [addAll_cons] at h ⊢
    rw [addAll_cons]
    refine ih hsignal ?_ ?_ ?_ h
    · rw [add_ok hadds, add_ok hadds', hhead.symbolDecl]
      dsimp only
      rw [hsymbols]
      cases hsymbol : line.2.symbolDecl with
      | none => rfl
      | some symbol => rw [place_address hhead hcounter (hsig (by rw [hsymbol]; exact nofun))]
    · rw [add_ok hadds, add_ok hadds', hhead.any, hcounter]
    · rw [add_ok hadds']
      exact herrors

end Pepp.Ucode
