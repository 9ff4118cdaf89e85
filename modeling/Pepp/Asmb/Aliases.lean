import Pepp.Asmb.AddressLayout
import Pepp.Asmb.Partition
import Pepp.Lib.Chains

/-!
# Chains of aliases

An `.EQUATE` of a symbol to another one leaves an alias, which asks the other
symbol whenever it is asked. Nothing keeps symbols from being aliases of each
other, and those are asked for ever.
-/

namespace Pepp.Tc

open Chains Relation Span

/-! ## What a program says of its symbols -/

def LinearIR.isEquate : LinearIR → Bool
  | .dotEquate _ _ => true
  | _ => false

/-- The symbol that an `.EQUATE` refers to. -/
def LinearIR.aliased : LinearIR → Option Name
  | .dotEquate _ (.symbolic _ other) => some other
  | _ => none

/-- The line gives its symbol a value: an `.EQUATE`, or a line with an address. -/
def Placed.defines (symbol : Name) (p : Placed) : Bool :=
  p.declaration = some symbol && (p.line.ir.isEquate || p.address.isSome)

/-- The line a symbol has its value from is the last one. -/
def definition (visited : List Placed) (symbol : Name) : Option Placed := visited.reverse.find? (Placed.defines symbol)

def aliasOf (visited : List Placed) (symbol : Name) : Option Name :=
  (definition visited symbol).bind fun p => p.line.ir.aliased

section Denotations

variable (kind : AddressKind)

/-- The constant or the location that a line stands for. -/
def Placed.denotes (p : Placed) : Option MaskedBits :=
  match p.line.ir with
  | .dotEquate _ (.literal value) =>
    some ⟨BitVec.ofNat 8 kind.bytes,
      BitVec.ofNat 64 (Endian.ofLE (value.serialize (List.replicate kind.bytes 0) hostOrder)),
      BitVec.ofNat 64 (kind.modulus - 1)⟩
  | .dotEquate _ (.symbolic _ _) => none
  | _ => p.address.map fun address =>
    ⟨BitVec.ofNat 8 kind.bytes, BitVec.ofNat 64 (address.address % 2 ^ 16), byteMask (BitVec.ofNat 8 kind.bytes)⟩

/-- What a symbol denotes by itself; without a definition it has no bytes. -/
def denotation (visited : List Placed) (symbol : Name) : Option MaskedBits :=
  match definition visited symbol with
  | none => some ⟨0, 0, 0⟩
  | some p => p.denotes kind

end Denotations

/-! ## What the table says -/

namespace SymbolValue

def pointer : SymbolValue → Option Name
  | .alias _ other => some other
  | _ => none

/-- The bits of a value that is not an alias. -/
def bits : SymbolValue → Option MaskedBits
  | .empty bytes => some ⟨bytes, 0, 0⟩
  | .constant value => some value
  | .location _ pointerSize base offset _ =>
    some ⟨pointerSize.setWidth 8, base + offset, byteMask (pointerSize.setWidth 8)⟩
  | .alias _ _ => none

end SymbolValue

variable {values : SymbolTable} {symbol : Name} {p : Placed}

theorem resolve_pointer {symbol other : Name} (h : (values symbol).pointer = some other) (depth : Nat) :
    resolve values (depth + 1) symbol = resolve values depth other := by
  rw [resolve]
  generalize values symbol = value at h
  rcases value with _ | _ | _ | _
  all_goals cases h
  rfl

theorem resolve_own {bits : MaskedBits} (h : (values symbol).pointer = none) (depth : Nat) :
    resolve values (depth + 1) symbol = .ok bits ↔ (values symbol).bits = some bits := by
  rw [resolve]
  generalize values symbol = value at h
  rcases value with _ | _ | _ | _
  · simp [SymbolValue.bits]
  · simp [SymbolValue.bits]
  · simp [SymbolValue.bits]
  · cases h

/-- A symbol is asked down its chain of aliases. -/
theorem resolve_ok_iff {depth : Nat} {bits : MaskedBits} :
    resolve values depth symbol = .ok bits ↔
      ∃ e, endWithin (fun s => (values s).pointer) depth symbol = some e ∧ (values e).bits = some bits := by
  induction depth generalizing symbol with
  | zero => simp [resolve, endWithin]
  | succ depth ih =>
    cases hpointer : (values symbol).pointer with
    | some other => rw [resolve_pointer hpointer, endWithin_points hpointer, ih]
    | none =>
      rw [resolve_own hpointer, endWithin_end hpointer]
      simp

/-- On the way into a cycle the stack runs out, however deep it is. -/
theorem resolve_looped (h : Looped (fun s => (values s).pointer) symbol) (depth : Nat) :
    resolve values depth symbol = .error .aliasCycle := by
  induction depth generalizing symbol with
  | zero => rfl
  | succ depth ih =>
    obtain ⟨other, hpointer, hloop⟩ := exists_next h
    rw [resolve_pointer hpointer]
    exact ih hloop

/-! ## The table of a program -/

variable {kind : AddressKind} {lineToSymbol : LinearIR → SymbolType} {direction : Direction}

/-- A visited line sets its symbol to what it says, if it is one that defines it. -/
def Placed.Sets (kind : AddressKind) (p : Placed) : Prop :=
  ∀ symbol, p.declaration = some symbol →
    if p.defines symbol then
      ∃ value, p.value = some value ∧ value.pointer = p.line.ir.aliased ∧ value.bits = p.denotes kind
    else p.value = none

theorem plain_line (h : p.line.ir.isEquate = false) :
    p.declaration = p.line.symbol ∧ p.line.ir.aliased = none ∧
    p.denotes kind = p.address.map fun address =>
      ⟨BitVec.ofNat 8 kind.bytes, BitVec.ofNat 64 (address.address % 2 ^ 16), byteMask (BitVec.ofNat 8 kind.bytes)⟩ := by
  rw [Placed.declaration, Line.declaration, Placed.denotes]
  generalize p.line.ir = ir at h
  cases ir with
  | dotEquate => cases h
  | _ => exact ⟨rfl, rfl, rfl⟩

theorem unplaced_sets (h : p.line.ir.isEquate = false) (ha : p.address = none) (hv : p.value = none) : p.Sets kind := by
  intro symbol hs
  rw [if_neg (by simp [Placed.defines, h, ha])]
  exact hv

theorem placed_sets (h : p.line.ir.isEquate = false) {address base size size' : Nat}
    (ha : p.address = some ⟨address, size⟩)
    (hv : p.value = locationValue kind lineToSymbol p.line size' (base % 2 ^ 16))
    (hbase : base % 2 ^ 16 = address % 2 ^ 16) : p.Sets kind := by
  intro symbol hs
  obtain ⟨hdeclaration, haliased, hdenotes⟩ := @plain_line p kind h
  have hsymbol : p.line.symbol = some symbol := hdeclaration.symm.trans hs
  have hbytes : (BitVec.ofNat 16 kind.bytes).setWidth 8 = BitVec.ofNat 8 kind.bytes := by cases kind <;> rfl
  rw [if_pos (by simp [Placed.defines, hs, ha]), haliased, hdenotes, hv, locationValue, hsymbol, ha, hbase]
  refine ⟨_, rfl, rfl, ?_⟩
  rw [SymbolValue.bits, hbytes, add_zero]
  rfl

theorem place_sets (line : Line) (base : Nat) (maybeSize : Option Nat) :
    (line.place kind lineToSymbol direction base maybeSize).1.Sets kind := by
  obtain ⟨ir, symbol⟩ := line
  cases ir with
  | dotEquate name argument =>
    intro symbol' hs
    rw [if_pos (by rw [Placed.defines, hs]; simp [Line.place, LinearIR.isEquate])]
    cases argument <;> exact ⟨_, rfl, rfl, rfl⟩
  | dotOrg => exact unplaced_sets rfl rfl rfl
  | _ =>
    cases maybeSize with
    | none => exact unplaced_sets rfl rfl rfl
    | some size =>
      cases direction with
      | forward => exact placed_sets rfl rfl rfl rfl
      | backward => exact placed_sets rfl rfl rfl (by cases kind <;> simp [AddressKind.modulus, AddressKind.bits])

theorem visits_sets (prog : List Section) (initial : Nat) :
    ∀ p ∈ visits kind lineToSymbol prog initial, p.Sets kind := by
  have hwalk : ∀ (direction : Direction) (lines : List Line) (base : Nat),
      ∀ p ∈ (walk kind lineToSymbol direction base lines).1, p.Sets kind := by
    intro direction lines
    induction lines with
    | nil => exact fun _ _ hp => absurd hp List.not_mem_nil
    | cons line lines ih => exact fun base => List.forall_mem_cons.mpr ⟨place_sets line base _, ih _⟩
  intro p hp
  obtain ⟨extent, he, hp⟩ := List.mem_flatMap.mp ((visits_perm kind lineToSymbol prog initial).mem_iff.mp hp)
  refine forall_regions (P := fun extent => ∀ p ∈ extent.placed, p.Sets kind) (fun base lines => hwalk .forward lines base)
    (fun base lines p hp => ?_) (fun lines p hp => ?_) extent he p hp
  · exact hwalk .backward _ _ p (List.mem_reverse.mp hp)
  · rcases List.mem_append.mp hp with hp | hp
    · exact hwalk .backward _ _ p (List.mem_reverse.mp hp)
    · exact hwalk .forward _ _ p hp

/-- A symbol ends with the value of the last line that gives it one. -/
theorem table_of_definition {visited : List Placed} (hset : ∀ p ∈ visited, p.Sets kind) (symbol : Name) :
    ((visited.foldl assignSymbol fun _ => .empty 0) symbol).pointer = aliasOf visited symbol ∧
    ((visited.foldl assignSymbol fun _ => .empty 0) symbol).bits = denotation kind visited symbol := by
  induction visited using List.reverseRecOn with
  | nil => exact ⟨rfl, rfl⟩
  | append_singleton visited p ih =>
    obtain ⟨hpointer, hbits⟩ := ih fun q hq => hset q (List.mem_append_left _ hq)
    have hp := hset p (List.mem_append_right _ List.mem_cons_self)
    have hlast : definition (visited ++ [p]) symbol =
        if p.defines symbol then some p else definition visited symbol := by
      rw [definition, List.reverse_append, List.reverse_singleton, List.singleton_append, List.find?_cons]
      cases p.defines symbol <;> rfl
    rw [List.foldl_append, List.foldl_cons, List.foldl_nil, aliasOf, denotation, hlast]
    by_cases hd : p.declaration = some symbol
    · have hsets := hp symbol hd
      rw [assignSymbol_of_eq hd]
      by_cases hdefines : p.defines symbol
      · rw [if_pos hdefines] at hsets
        obtain ⟨value, hvalue, hpointer, hbits⟩ := hsets
        rw [if_pos hdefines, hvalue]
        exact ⟨hpointer, hbits⟩
      · rw [if_neg hdefines] at hsets
        rw [if_neg hdefines, hsets]
        exact ⟨hpointer, hbits⟩
    · rw [assignSymbol_of_ne hd, if_neg (by simp [Placed.defines, hd])]
      exact ⟨hpointer, hbits⟩

/-- Of the symbols only those declared can be aliases. -/
theorem finite_aliases (visited : List Placed) : {symbol | aliasOf visited symbol ≠ none}.Finite := by
  refine (visited.filterMap Placed.declaration).finite_toSet.subset fun symbol hsymbol => ?_
  have hsome : definition visited symbol ≠ none := by
    intro hnone
    exact hsymbol (by rw [aliasOf, hnone]; rfl)
  obtain ⟨p, hp⟩ := Option.ne_none_iff_exists'.mp hsome
  have hdefines := List.find?_some hp
  have hmem := List.mem_reverse.mp (List.mem_of_find?_eq_some hp)
  rw [Placed.defines, Bool.and_eq_true, decide_eq_true_iff] at hdefines
  exact List.mem_filterMap.mpr ⟨p, hmem, hdefines.1⟩

/-! ## Evaluation -/

/-- From some depth of the stack on, asking for the symbol yields what the end of its chain of aliases denotes. -/
def Evaluates (kind : AddressKind) (visited : List Placed) (values : SymbolTable) (symbol : Name) : Prop :=
  ∃ e bits n, Ends (aliasOf visited) symbol e ∧ denotation kind visited e = some bits ∧
    ∀ depth, n ≤ depth → resolve values depth symbol = .ok bits

theorem evaluates_iff {visited : List Placed} (hset : ∀ p ∈ visited, p.Sets kind) (symbol : Name) :
    Evaluates kind visited (visited.foldl assignSymbol fun _ => .empty 0) symbol ↔
      ¬ Looped (aliasOf visited) symbol := by
  have hpointer : (fun s => ((visited.foldl assignSymbol fun _ => .empty 0) s).pointer) = aliasOf visited :=
    funext fun s => (table_of_definition hset s).1
  constructor
  · rintro ⟨e, bits, n, hends, -⟩
    exact not_looped hends
  · intro hloop
    obtain ⟨e, hends⟩ := exists_ends (finite_aliases visited) hloop
    obtain ⟨n, hn⟩ := exists_endWithin_iff.mpr hends
    obtain ⟨bits, hbits⟩ : ∃ bits, denotation kind visited e = some bits := by
      have hnone : ((visited.foldl assignSymbol fun _ => .empty 0) e).pointer = none :=
        (table_of_definition hset e).1.trans hends.2
      rw [← (table_of_definition hset e).2]
      generalize (visited.foldl assignSymbol fun _ => .empty 0) e = value at hnone
      rcases value with _ | _ | _ | _
      · exact ⟨_, rfl⟩
      · exact ⟨_, rfl⟩
      · exact ⟨_, rfl⟩
      · cases hnone
    refine ⟨e, bits, n, hends, hbits, fun depth hdepth => resolve_ok_iff.mpr ⟨e, ?_, ?_⟩⟩
    · rw [hpointer]
      exact endWithin_mono hdepth hn
    · exact (table_of_definition hset e).2.trans hbits

/-- A symbol of a program that is laid out evaluates to the end of its chain of aliases, if and only if the chain does
not lead into a cycle; else no depth of the stack suffices. -/
theorem symbols_evaluate_iff {prog : List Section} {initial : Nat} {layout : Layout}
    (h : assignAddresses kind lineToSymbol prog initial = .ok layout) (symbol : Name) :
    (Evaluates kind (visits kind lineToSymbol prog initial) layout.symbols symbol ↔
      ¬ Looped (aliasOf (visits kind lineToSymbol prog initial)) symbol) ∧
    (Looped (aliasOf (visits kind lineToSymbol prog initial)) symbol →
      ∀ depth, resolve layout.symbols depth symbol = .error .aliasCycle) := by
  obtain ⟨hne, hdef⟩ := defined_of_assignAddresses h
  obtain rfl := Except.ok.inj (h.symm.trans (assignAddresses_eq initial hne hdef))
  have hset := @visits_sets kind lineToSymbol prog initial
  refine ⟨evaluates_iff hset symbol, fun hloop => resolve_looped ?_⟩
  rwa [funext fun s => (table_of_definition hset s).1]

/-- `y: .EQUATE x` before `x: .EQUATE 5`. -/
def forwardAlias : List Section :=
  [(⟨".text", ⟨true, true, true, false⟩, 1, 0, 0⟩,
    [⟨.dotEquate "y" (.symbolic 2 "x"), none⟩, ⟨.dotEquate "x" (.literal (.numeric ⟨.unsignedDecimal, 5, 2⟩)), none⟩])]

theorem symbols_evaluate_forward : ∃ layout, peppAssignAddresses forwardAlias 0 = .ok layout ∧
    Evaluates .pepp (visits .pepp peppLineToSymbol forwardAlias 0) layout.symbols "y" := by
  refine ⟨_, rfl, ((symbols_evaluate_iff rfl "y").1).mpr (not_looped (e := "x") ⟨?_, by decide⟩)⟩
  exact .single (show aliasOf _ "y" = some "x" by decide)

/-- `x: .EQUATE x` -/
def selfAlias : List Section :=
  [(⟨".text", ⟨true, true, true, false⟩, 1, 0, 0⟩, [⟨.dotEquate "x" (.symbolic 2 "x"), none⟩])]

/-- A symbol that is an alias of itself is never evaluated. -/
theorem not_symbols_evaluate : ¬ ∀ (prog : List Section) (initial : U16) (layout : Layout),
    peppAssignAddresses prog initial = .ok layout → ∀ symbol, ∃ depth bits, resolve layout.symbols depth symbol = .ok bits := by
  intro h
  obtain ⟨layout, hlayout, hx⟩ : ∃ layout, peppAssignAddresses selfAlias 0 = .ok layout ∧
      layout.symbols "x" = .alias 2 "x" := ⟨_, rfl, rfl⟩
  obtain ⟨depth, bits, hok⟩ := h selfAlias 0 layout hlayout "x"
  have hpoints : Points (fun s => (layout.symbols s).pointer) "x" "x" := by
    rw [Points, hx]
    rfl
  rw [resolve_looped ⟨"x", .refl, .single hpoints⟩ depth] at hok
  cases hok

end Pepp.Tc
