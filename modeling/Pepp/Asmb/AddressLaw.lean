import Pepp.Asmb.Regions

/-!
# The address layout law

What the comment of `assign_addresses` promises, as a walk over positions that
never wraps before the address type does, and the exact condition on a program
under which the assembler keeps the promise.
-/

namespace Pepp.Tc

def LinearIR.isAlign : LinearIR → Bool
  | .dotAlign _ _ => true
  | _ => false

/-- A program as the caller splits it: the sections count their `.ORG`s and no symbol is declared twice. -/
structure Program where
  sections : List Section
  counted : ∀ sec ∈ sections, Counted sec
  declaredOnce : ((sections.flatMap Prod.snd).filterMap Line.declaration).Nodup

def Program.lines (prog : Program) : List Line := prog.sections.flatMap Prod.snd

/-- The value of the symbol a line declares is the address. -/
def SymbolAt (symbols : SymbolTable) (line : Line) (address : Nat) : Prop :=
  ∀ symbol ∈ line.declaration, ∃ size width type, symbols symbol = .location size width (BitVec.ofNat 64 address) 0 type

/-- A line of that size is at the address: a sized one in the table, and a sized one or an `.ALIGN` by its symbol. -/
def LineLaw (symbols : SymbolTable) (address : Nat) (size : Option Nat) (p : Placed) : Prop :=
  p.address.map Address.address = size.map (fun _ => address) ∧
    (size.isSome ∨ p.line.ir.isAlign → SymbolAt symbols p.line address)

variable (kind : AddressKind)

/-- An `.ORG` moves the position to its argument. -/
def LinearIR.start (top : Nat) : LinearIR → Nat
  | .dotOrg argument => argument.valueAs 8 % kind.modulus
  | _ => top

/-- The position behind a line. -/
def LinearIR.past (top : Nat) (ir : LinearIR) : Nat := (top + (ir.sizeAt top).getD 0) % kind.modulus

/-- Another sized line stands at the position before the next `.ORG`. -/
def Followed (position : Nat) (lines : List Line) : Prop :=
  ∃ line ∈ beforeOrg lines, (line.ir.sizeAt position).isSome

/-- The line after an `.ALIGN` is at a multiple of the alignment. -/
def AlignLaw (position : Nat) (ir : LinearIR) (rest : List Line) : Prop :=
  match ir with
  | .dotAlign which argument =>
    ∀ n, alignment which argument = .ok n → Followed (ir.past kind position) rest → n ∣ ir.past kind position
  | _ => True

/-- Going forward each line is where the line before it ends, or where an `.ORG` says. -/
def ForwardLaw (symbols : SymbolTable) : Nat → List Placed → Prop
  | _, [] => True
  | top, p :: rest =>
    let position := p.line.ir.start kind top
    LineLaw symbols position (p.line.ir.sizeAt position) p ∧
      AlignLaw kind position p.line.ir (rest.map Placed.line) ∧
      ForwardLaw symbols (p.line.ir.past kind position) rest

/-- Going backward each line ends at `bottom`, where the line behind it is; an `.ALIGN` pads up to the last free byte. -/
def BackwardLaw (symbols : SymbolTable) : Nat → Nat → List Placed → Prop
  | _, _, [] => True
  | lastFree, bottom, p :: rest =>
    let size := p.line.ir.sizeAt lastFree
    let position := (bottom + kind.modulus - size.getD 0 % kind.modulus) % kind.modulus
    LineLaw symbols position size p ∧
      BackwardLaw symbols (if size.isSome then (position + kind.modulus - 1) % kind.modulus else lastFree) position rest

/-- The lines before the first `.ORG` are packed against its argument, the others go forward. -/
def LayoutLaw (symbols : SymbolTable) (initial : Nat) (placed : List Placed) : Prop :=
  let before := placed.takeWhile fun p => !p.line.ir.isOrg
  let rest := placed.dropWhile fun p => !p.line.ir.isOrg
  match rest with
  | [] => ForwardLaw kind symbols initial placed
  | org :: _ =>
    let bottom := org.line.ir.start kind 0
    let lastFree := (bottom % 2 ^ 16 + kind.modulus - 1) % kind.modulus
    BackwardLaw kind symbols lastFree bottom before.reverse ∧ ForwardLaw kind symbols 0 rest

/-- The assembler lays the program out, every line of it, by the law. -/
def LaidOut (lineToSymbol : LinearIR → SymbolType) (prog : Program) (initial : Nat) : Prop :=
  ∃ layout, assignAddresses kind lineToSymbol prog.sections initial = .ok layout ∧
    layout.extents.map (fun extent => extent.placed.map Placed.line) = prog.sections.map Prod.snd ∧
    LayoutLaw kind layout.symbols initial (layout.extents.flatMap Extent.placed)

/-! ## When the law is kept -/

/-- A position as the 16-bit base carries it; the base a program starts at is as wide as an address. -/
def carried (fresh : Bool) (top : Nat) : Nat := if fresh then top else top % 2 ^ 16

/-- An `.ALIGN` whose padding runs over the end of the address space. -/
def Wraps (position : Nat) (ir : LinearIR) : Prop :=
  match ir with
  | .dotAlign which argument =>
    ∃ n, alignment which argument = .ok n ∧ kind.modulus ≤ position + (ir.sizeAt position).getD 0 ∧
      ¬ n ∣ kind.modulus ∧ ¬ kind.modulus ∣ n
  | _ => False

/-- Going forward: sized lines start below `2 ^ 16`, except at an unlabelled start, and no `.ALIGN` that
needs no padding has a label. -/
def ForwardSound : Bool → Nat → List Line → Prop
  | _, _, [] => True
  | fresh, top, line :: rest =>
    let position := line.ir.start kind top
    let fresh := fresh && !line.ir.isOrg
    match line.ir.sizeAt position with
    | none =>
      (line.ir.isAlign → line.symbol = none ∧ line.ir.sizeAt (carried fresh position) = none) ∧
        ForwardSound fresh position rest
    | some _ =>
      (position < 2 ^ 16 ∨ fresh ∧ line.symbol = none) ∧
        (Wraps kind position line.ir → ¬ Followed (line.ir.past kind position) rest) ∧
        ForwardSound false (line.ir.past kind position) rest

/-- Going backward: sizes are not multiples of `2 ^ 16`, lines start above 0 and up to `2 ^ 16`, and no
`.ALIGN` that needs no padding has a label. -/
def BackwardSound : Nat → Nat → List Line → Prop
  | _, _, [] => True
  | lastFree, bottom, line :: rest =>
    match line.ir.sizeAt lastFree with
    | none => (line.ir.isAlign → line.symbol = none) ∧ BackwardSound lastFree bottom rest
    | some size =>
      let position := (bottom + kind.modulus - size % kind.modulus) % kind.modulus
      let below := (position + kind.modulus - 1) % kind.modulus
      size % 2 ^ 16 ≠ 0 ∧ below < 2 ^ 16 ∧ (line.symbol.isSome → position < 2 ^ 16) ∧
        BackwardSound below position rest

/-- Backward before the first `.ORG`, forward from it on, or forward from the initial base without one. -/
def LinesSound (initial : Nat) (lines : List Line) : Prop :=
  match fromOrg lines with
  | [] => ForwardSound kind true initial lines
  | org :: rest =>
    let bottom := org.ir.start kind 0
    let lastFree := (bottom % 2 ^ 16 + kind.modulus - 1) % kind.modulus
    BackwardSound kind lastFree bottom (beforeOrg lines).reverse ∧ ForwardSound kind false 0 (org :: rest)

/-- There are sections, every alignment is defined, and the lines are sound. -/
def Sound (prog : Program) (initial : Nat) : Prop :=
  prog.sections ≠ [] ∧ (∀ line ∈ prog.lines, line.ir.Defined) ∧ LinesSound kind initial prog.lines

end Pepp.Tc

/-! ## One line against the law

What placing a line leaves behind, in either direction, and what of it the law
asks for. -/

namespace Pepp.Tc

theorem AddressKind.modulus_cases (kind : AddressKind) :
    kind.modulus = 65536 ∨ kind.modulus = 4294967296 := by
  cases kind
  · exact .inl rfl
  · exact .inr rfl

/-! ## Symbols -/

def Placed.declaration (p : Placed) : Option Name := p.line.declaration

variable {p : Placed} {symbol : Name} {symbols : SymbolTable} {base size : Nat} {line : Line}

theorem assignSymbol_of_ne (h : p.declaration ≠ some symbol) : assignSymbol symbols p symbol = symbols symbol := by
  change p.line.declaration ≠ some symbol at h
  rw [assignSymbol]
  cases hd : p.line.declaration with
  | none => rfl
  | some symbol' =>
    have hne : symbol ≠ symbol' := fun he => h (hd.trans (congrArg some he.symm))
    cases p.value with
    | none => rfl
    | some value => exact Function.update_of_ne hne value symbols

theorem assignSymbol_of_eq (h : p.declaration = some symbol) :
    assignSymbol symbols p symbol = p.value.getD (symbols symbol) := by
  change p.line.declaration = some symbol at h
  rw [assignSymbol, h]
  cases p.value with
  | none => rfl
  | some value => exact Function.update_self symbol value symbols

theorem foldl_assignSymbol_of_notMem {visited : List Placed} (h : symbol ∉ visited.filterMap Placed.declaration) :
    visited.foldl assignSymbol symbols symbol = symbols symbol := by
  induction visited generalizing symbols with
  | nil => rfl
  | cons p visited ih =>
    have hp : p.declaration ≠ some symbol := fun hd => h (List.mem_filterMap.mpr ⟨p, List.mem_cons_self, hd⟩)
    have hrest : symbol ∉ visited.filterMap Placed.declaration := by
      intro hm
      obtain ⟨q, hq, hs⟩ := List.mem_filterMap.mp hm
      exact h (List.mem_filterMap.mpr ⟨q, List.mem_cons_of_mem _ hq, hs⟩)
    rw [List.foldl_cons, ih hrest, assignSymbol_of_ne hp]

/-- A symbol declared once ends with the value of the line that declares it. -/
theorem foldl_assignSymbol {visited : List Placed} (hn : (visited.filterMap Placed.declaration).Nodup)
    (hp : p ∈ visited) (hs : p.declaration = some symbol) :
    visited.foldl assignSymbol symbols symbol = p.value.getD (symbols symbol) := by
  induction visited generalizing symbols with
  | nil => exact absurd hp List.not_mem_nil
  | cons q visited ih =>
    rw [List.foldl_cons]
    rcases List.mem_cons.mp hp with rfl | hp
    · rw [List.filterMap_cons_some hs, List.nodup_cons] at hn
      rw [foldl_assignSymbol_of_notMem hn.1, assignSymbol_of_eq hs]
    · have hq : q.declaration ≠ some symbol := by
        intro hq
        rw [List.filterMap_cons_some hq, List.nodup_cons] at hn
        exact hn.1 (List.mem_filterMap.mpr ⟨p, hp, hs⟩)
      have hrest : (visited.filterMap Placed.declaration).Nodup := by
        cases hd : q.declaration with
        | none => rwa [List.filterMap_cons_none hd] at hn
        | some s =>
          rw [List.filterMap_cons_some hd, List.nodup_cons] at hn
          exact hn.2
      rw [ih hrest hp, assignSymbol_of_ne hq]

/-- The symbol of a visited line has the value the line sets it to, or is still empty. -/
def Settled (symbols : SymbolTable) (p : Placed) : Prop :=
  ∀ symbol, p.declaration = some symbol → symbols symbol = p.value.getD (.empty 0)

theorem symbolAt_location {kind : AddressKind} {lineToSymbol : LinearIR → SymbolType} {size base address : Nat}
    (hs : Settled symbols p) (hd : p.line.declaration = p.line.symbol)
    (hv : p.value = locationValue kind lineToSymbol p.line size base) (hb : base < 2 ^ 64) (ha : address < 2 ^ 64) :
    SymbolAt symbols p.line address ↔ p.line.symbol = none ∨ base = address := by
  cases hsym : p.line.symbol with
  | none => simp [SymbolAt, hd, hsym]
  | some symbol =>
    have hvalue := hs symbol (hd.trans hsym)
    simp only [hv, locationValue, hsym, Option.map_some, Option.getD_some] at hvalue
    simp only [reduceCtorEq, false_or]
    constructor
    · intro h
      obtain ⟨_, _, _, he⟩ := h symbol (hd.trans hsym)
      rw [hvalue] at he
      injection he with _ _ he
      have := congrArg BitVec.toNat he
      rwa [BitVec.toNat_ofNat, BitVec.toNat_ofNat, Nat.mod_eq_of_lt hb, Nat.mod_eq_of_lt ha] at this
    · rintro rfl symbol' hs'
      obtain rfl : symbol = symbol' := Option.some.inj (hsym.symm.trans (hd.symm.trans hs'))
      exact ⟨_, _, _, hvalue⟩

theorem symbolAt_unset {address : Nat} (hs : Settled symbols p) (hd : p.line.declaration = p.line.symbol)
    (hv : p.value = none) : SymbolAt symbols p.line address ↔ p.line.symbol = none := by
  cases hsym : p.line.symbol with
  | none => simp [SymbolAt, hd, hsym]
  | some symbol =>
    have hvalue := hs symbol (hd.trans hsym)
    simp [SymbolAt, hd, hsym, hvalue, hv]

/-! ## Sizes -/

variable {kind : AddressKind} {lineToSymbol : LinearIR → SymbolType} {direction : Direction}

/-- Only the size of an `.ALIGN` depends on where it is. -/
theorem LinearIR.sizeAt_eq {ir : LinearIR} (h : ¬ ir.isAlign) (a b : Nat) : ir.sizeAt a = ir.sizeAt b := by
  cases ir with
  | dotAlign which argument => exact absurd rfl h
  | _ => rfl

theorem LinearIR.sizeAt_align {which : AlignWhich} {argument : Numeric}
    (h : (LinearIR.dotAlign which argument).sizeAt base = some size) :
    ∃ n, alignment which argument = .ok n ∧ 0 < n ∧ size = (n - base % n) % n ∧ size ≠ 0 := by
  simp only [sizeAt, objectSize] at h
  cases hn : alignment which argument with
  | error e => rw [hn] at h; cases h
  | ok n =>
    rw [hn] at h
    simp only [bind, Except.bind] at h
    by_cases h0 : n = 0
    · rw [if_pos h0] at h
      cases h
    · rw [if_neg h0] at h
      simp only [pure, Except.pure] at h
      split at h
      · cases h
      · obtain rfl := Option.some.inj h
        exact ⟨n, rfl, Nat.pos_of_ne_zero h0, rfl, by assumption⟩

theorem Line.declaration_of_sized (base : Nat) (h : (line.ir.sizeAt base).isSome ∨ line.ir.isAlign) :
    line.declaration = line.symbol := by
  obtain ⟨ir, symbol⟩ := line
  cases ir with
  | dotEquate s argument => rcases h with h | h <;> cases h
  | _ => rfl

/-! ## Placing -/

variable (kind lineToSymbol direction) in
theorem place_none (h : ¬ line.ir.isOrg) (base : Nat) :
    ∃ value, line.place kind lineToSymbol direction base none = (⟨line, none, value⟩, base) ∧
      (line.ir.isAlign → value = none) := by
  obtain ⟨ir, symbol⟩ := line
  cases ir with
  | dotOrg argument => exact absurd rfl h
  | dotEquate s argument => exact ⟨_, rfl, fun h => nomatch h⟩
  | _ => exact ⟨none, rfl, fun _ => rfl⟩

theorem place_forward (h : line.ir.sizeAt base = some size) :
    line.place kind lineToSymbol .forward base (some size) =
      (⟨line, some ⟨base, size % 2 ^ 16⟩, locationValue kind lineToSymbol line (size % 2 ^ 16) (base % 2 ^ 16)⟩,
        (base + size % 2 ^ 16) % kind.modulus % 2 ^ 16) := by
  obtain ⟨ir, symbol⟩ := line
  cases ir with
  | dotOrg argument => cases h
  | dotEquate s argument => cases h
  | _ => rfl

theorem place_backward (h : line.ir.sizeAt base = some size) :
    let next := (base + kind.modulus - size % 2 ^ 16) % kind.modulus % 2 ^ 16
    let adjusted := next + if 0 < size % 2 ^ 16 then 1 else 0
    line.place kind lineToSymbol .backward base (some size) =
      (⟨line, some ⟨adjusted % kind.modulus, size % 2 ^ 16⟩,
        locationValue kind lineToSymbol line (size % 2 ^ 16) (adjusted % 2 ^ 16)⟩, next) := by
  obtain ⟨ir, symbol⟩ := line
  cases ir with
  | dotOrg argument => cases h
  | dotEquate s argument => cases h
  | _ => rfl

/-! ## Alignment -/

/-- A padded position that wraps around stays a multiple only of what divides the address space, or is divided by it. -/
theorem dvd_wrapped {n top m : Nat} (hm : 0 < m) (hn : 0 < n) (ht : top < m) (hs : (n - top % n) % n ≠ 0) :
    n ∣ (top + (n - top % n) % n) % m ↔ top + (n - top % n) % n < m ∨ n ∣ m ∨ m ∣ n := by
  have hlt : top % n < n := Nat.mod_lt _ hn
  have hne : top % n ≠ 0 := by
    intro h0
    rw [h0, Nat.sub_zero, Nat.mod_self] at hs
    exact hs rfl
  have hpad : (n - top % n) % n = n - top % n := Nat.mod_eq_of_lt (by omega)
  have hdvd : n ∣ top + (n - top % n) := by
    have := Nat.mod_add_div top n
    exact ⟨top / n + 1, by rw [Nat.mul_add, Nat.mul_one]; omega⟩
  rw [hpad]
  by_cases hfit : top + (n - top % n) < m
  · rw [Nat.mod_eq_of_lt hfit]
    exact iff_of_true hdvd (.inl hfit)
  simp only [hfit, false_or]
  by_cases hnm : n ≤ m
  · have hsub : (top + (n - top % n)) % m = top + (n - top % n) - m := by
      rw [Nat.mod_eq_sub_mod (by omega), Nat.mod_eq_of_lt (by omega)]
    rw [hsub, Nat.dvd_sub_iff_right (by omega) hdvd]
    refine ⟨.inl, ?_⟩
    rintro (h | h)
    · exact h
    · rw [Nat.le_antisymm hnm (Nat.le_of_dvd hn h)]
  · have htop : top % n = top := Nat.mod_eq_of_lt (by omega)
    rw [htop, Nat.add_sub_cancel' (by omega)]
    have hmod : n % m < n := (Nat.mod_lt n hm).trans (by omega)
    constructor
    · intro h
      exact .inr (Nat.dvd_of_mod_eq_zero (Nat.eq_zero_of_dvd_of_lt h hmod))
    · rintro (h | h)
      · exact absurd (Nat.le_of_dvd hm h) hnm
      · rw [Nat.mod_eq_zero_of_dvd h]
        exact dvd_zero n

end Pepp.Tc
