import Pepp.Asmb.AddressLaw

/-!
# The address layout law over whole programs

A walk over lines keeps the law exactly when the lines are sound, and so does
the layout of a whole program.
-/

namespace Pepp.Tc

variable {kind : AddressKind} {lineToSymbol : LinearIR → SymbolType} {symbols : SymbolTable}

variable {ir : LinearIR} {top : Nat} {line : Line} {p : Placed}

theorem LinearIR.exists_org (h : ir.isOrg) : ∃ argument, ir = .dotOrg argument := by
  cases ir with
  | dotOrg argument => exact ⟨argument, rfl⟩
  | _ => cases h

theorem LinearIR.not_org_of_sized {base size : Nat} (h : ir.sizeAt base = some size) : ¬ ir.isOrg := by
  intro hn
  obtain ⟨argument, rfl⟩ := exists_org hn
  cases h

theorem LinearIR.start_eq (h : ¬ ir.isOrg) (top : Nat) : ir.start kind top = top := by
  cases ir with
  | dotOrg argument => exact absurd rfl h
  | _ => rfl

theorem LinearIR.past_none (h : ir.sizeAt top = none) (ht : top < kind.modulus) : ir.past kind top = top := by
  rw [past, h, Option.getD_none, Nat.add_zero, Nat.mod_eq_of_lt ht]

theorem LinearIR.past_lt (ir : LinearIR) (top : Nat) : ir.past kind top < kind.modulus := by
  apply Nat.mod_lt
  rcases kind.modulus_cases with h | h <;> omega

theorem alignLaw_of_notAlign (h : ¬ ir.isAlign) (top : Nat) (rest : List Line) : AlignLaw kind top ir rest := by
  cases ir with
  | dotAlign which argument => exact absurd rfl h
  | _ => trivial

/-- Where no padding is needed the position is a multiple already. -/
theorem alignLaw_unpadded (hd : ir.Defined) (ht : top < kind.modulus) (h : ir.sizeAt top = none) (rest : List Line) :
    AlignLaw kind top ir rest := by
  by_cases ha : ir.isAlign
  · cases ir with
    | dotAlign which argument =>
      intro n hn _
      obtain ⟨n', hn', hpos⟩ := hd
      obtain rfl : n' = n := Except.ok.inj (hn'.symm.trans hn)
      rw [LinearIR.past_none h ht]
      simp only [LinearIR.sizeAt, LinearIR.objectSize, hn, bind, Except.bind, if_neg hpos.ne', pure, Except.pure] at h
      have hz : (n' - top % n') % n' = 0 := by
        by_contra hz
        rw [if_neg hz] at h
        cases h
      have hlt : top % n' < n' := Nat.mod_lt _ hpos
      apply Nat.dvd_of_mod_eq_zero
      by_contra hne
      rw [Nat.mod_eq_of_lt (by omega)] at hz
      omega
    | _ => cases ha
  · exact alignLaw_of_notAlign ha top rest

theorem alignLaw_iff {top size : Nat} (ht : top < kind.modulus) (h : ir.sizeAt top = some size) (rest : List Line) :
    AlignLaw kind top ir rest ↔ (Wraps kind top ir → ¬ Followed (ir.past kind top) rest) := by
  by_cases ha : ir.isAlign
  · cases ir with
    | dotAlign which argument =>
      obtain ⟨n, hn, hpos, hsize, hne⟩ := LinearIR.sizeAt_align h
      have hm : 0 < kind.modulus := by omega
      have hdvd := dvd_wrapped hm hpos ht (hsize ▸ hne)
      rw [← hsize] at hdvd
      have hpast : (LinearIR.dotAlign which argument).past kind top = (top + size) % kind.modulus := by
        rw [LinearIR.past, h, Option.getD_some]
      rw [← hpast] at hdvd
      have hlaw : AlignLaw kind top (.dotAlign which argument) rest ↔
          (Followed ((LinearIR.dotAlign which argument).past kind top) rest →
            n ∣ (LinearIR.dotAlign which argument).past kind top) := by
        refine ⟨fun hl => hl n hn, fun hl n' hn' => ?_⟩
        obtain rfl : n = n' := Except.ok.inj (hn.symm.trans hn')
        exact hl
      have hwraps : Wraps kind top (.dotAlign which argument) ↔
          ¬ (top + size < kind.modulus ∨ n ∣ kind.modulus ∨ kind.modulus ∣ n) := by
        simp only [Wraps, h, Option.getD_some, not_or, Nat.not_lt]
        constructor
        · rintro ⟨n', hn', hw⟩
          obtain rfl : n = n' := Except.ok.inj (hn.symm.trans hn')
          exact hw
        · exact fun hw => ⟨n, hn, hw⟩
      rw [hlaw, hwraps, hdvd]
      exact ⟨fun hl hw hf => hw (hl hf), fun hl hf => by_contra fun hw => hl hw hf⟩
    | _ => cases ha
  · refine iff_of_true (alignLaw_of_notAlign ha top rest) fun hw => ?_
    cases ir with
    | dotAlign which argument => exact absurd rfl ha
    | _ => cases hw

variable (kind) in
theorem Numeric.valueAs_two (argument : Numeric) :
    argument.valueAs 2 = carried false (argument.valueAs 8 % kind.modulus) := by
  rw [Numeric.valueAs_eq (by omega), Numeric.valueAs_eq le_rfl, carried]
  rcases kind.modulus_cases with h | h <;> rw [h] <;> simp only [Bool.false_eq_true, if_false] <;> omega

theorem lt_of_kind {a : Nat} (ha : a < kind.modulus) : a < 2 ^ 64 := by
  rcases kind.modulus_cases with h | h <;> omega

theorem place_line {direction : Direction} {base next : Nat}
    (h : line.place kind lineToSymbol direction base (line.ir.sizeAt base) = (p, next)) : p.line = line := by
  rw [← line_place line base (line.ir.sizeAt base), h]

theorem walk_cons {direction : Direction} {base next : Nat}
    (h : line.place kind lineToSymbol direction base (line.ir.sizeAt base) = (p, next)) (lines : List Line) :
    (walk kind lineToSymbol direction base (line :: lines)).1 =
      p :: (walk kind lineToSymbol direction next lines).1 := by
  rw [walk, h]

/-! ## Forward -/

theorem forwardLaw_cons (horg : ¬ p.line.ir.isOrg) (top : Nat) (rest : List Placed) :
    ForwardLaw kind symbols top (p :: rest) ↔
      LineLaw symbols top (p.line.ir.sizeAt top) p ∧ AlignLaw kind top p.line.ir (rest.map Placed.line) ∧
        ForwardLaw kind symbols (p.line.ir.past kind top) rest := by
  simp only [ForwardLaw, LinearIR.start_eq horg]

theorem forwardSound_none (horg : ¬ line.ir.isOrg) (h : line.ir.sizeAt top = none) (fresh : Bool) (rest : List Line) :
    ForwardSound kind fresh top (line :: rest) ↔
      (line.ir.isAlign → line.symbol = none ∧ line.ir.sizeAt (carried fresh top) = none) ∧
        ForwardSound kind fresh top rest := by
  rw [Bool.not_eq_true] at horg
  simp only [ForwardSound, LinearIR.start_eq (Bool.eq_false_iff.mp horg), h, horg, Bool.not_false, Bool.and_true]

theorem forwardSound_some {top size : Nat} (h : line.ir.sizeAt top = some size) (fresh : Bool) (rest : List Line) :
    ForwardSound kind fresh top (line :: rest) ↔
      (top < 2 ^ 16 ∨ fresh ∧ line.symbol = none) ∧
        (Wraps kind top line.ir → ¬ Followed (line.ir.past kind top) rest) ∧
        ForwardSound kind false (line.ir.past kind top) rest := by
  have horg := LinearIR.not_org_of_sized h
  rw [Bool.not_eq_true] at horg
  simp only [ForwardSound, LinearIR.start_eq (Bool.eq_false_iff.mp horg), h, horg, Bool.not_false, Bool.and_true]

/-- A line without a size: the code must see none either, and an `.ALIGN` must have no label. -/
theorem forward_unsized {fresh : Bool} {top next : Nat} (horg : ¬ line.ir.isOrg) (h : line.ir.sizeAt top = none)
    (hp : line.place kind lineToSymbol .forward (carried fresh top) (line.ir.sizeAt (carried fresh top)) = (p, next))
    (hs : Settled symbols p) :
    (LineLaw symbols top none p ↔
        (line.ir.isAlign → line.symbol = none ∧ line.ir.sizeAt (carried fresh top) = none)) ∧
      (LineLaw symbols top none p → next = carried fresh top) := by
  have hline := place_line hp
  cases hcar : line.ir.sizeAt (carried fresh top) with
  | none =>
    obtain ⟨value, hplace, hvalue⟩ := place_none kind lineToSymbol .forward horg
      (carried fresh top)
    rw [hcar, hplace] at hp
    obtain ⟨rfl, rfl⟩ := Prod.mk.inj hp
    refine ⟨?_, fun _ => rfl⟩
    simp only [LineLaw, Option.map_none, Option.isSome_none, Bool.false_eq_true, false_or, true_and, and_true]
    refine forall_congr' fun ha => ?_
    exact symbolAt_unset hs (Line.declaration_of_sized top (.inr ha)) (hvalue ha)
  | some size =>
    have ha : line.ir.isAlign := by
      by_contra ha
      rw [LinearIR.sizeAt_eq ha _ top, h] at hcar
      cases hcar
    rw [hcar, place_forward hcar] at hp
    obtain ⟨rfl, -⟩ := Prod.mk.inj hp
    have hno : ∀ a value, ¬ LineLaw symbols top none ⟨line, some a, value⟩ := fun a value hl =>
      Option.some_ne_none _ hl.1
    exact ⟨iff_of_false (hno _ _) fun hc => Option.some_ne_none _ (hc ha).2, fun hl => absurd hl (hno _ _)⟩

/-- A sized line: the 16-bit base must be the position, and reach the symbol unchanged. -/
theorem forward_sized {fresh : Bool} {top size next : Nat} (ht : top < kind.modulus)
    (h : line.ir.sizeAt top = some size)
    (hp : line.place kind lineToSymbol .forward (carried fresh top) (line.ir.sizeAt (carried fresh top)) = (p, next))
    (hs : Settled symbols p) :
    (LineLaw symbols top (some size) p ↔ top < 2 ^ 16 ∨ fresh ∧ line.symbol = none) ∧
      (LineLaw symbols top (some size) p → next = carried false (line.ir.past kind top)) := by
  by_cases hexact : carried fresh top = top
  · rw [hexact, h, place_forward h] at hp
    obtain ⟨rfl, rfl⟩ := Prod.mk.inj hp
    have hd : line.declaration = line.symbol := Line.declaration_of_sized top (.inl (by rw [h]; rfl))
    have hat := symbolAt_location hs hd rfl ((Nat.mod_le _ _).trans_lt (lt_of_kind ht)) (lt_of_kind ht)
    refine ⟨?_, fun _ => ?_⟩
    · simp only [LineLaw, Option.map_some, Option.isSome_some, true_or, true_implies, true_and]
      rw [hat]
      have hmod : top % 2 ^ 16 = top ↔ top < 2 ^ 16 := Nat.mod_eq_iff_lt (by omega)
      cases fresh with
      | false => exact iff_of_true (.inr hexact) (.inl (hmod.mp hexact))
      | true => simp only [hmod, true_and, or_comm]
    · rw [LinearIR.past, h, Option.getD_some, carried, if_neg Bool.false_ne_true]
      rcases kind.modulus_cases with hm | hm <;> rw [hm] <;> omega
  · have hno : ¬ LineLaw symbols top (some size) p := by
      intro hl
      cases hcar : line.ir.sizeAt (carried fresh top) with
      | none =>
        obtain ⟨value, hplace, -⟩ := place_none kind lineToSymbol .forward
          (LinearIR.not_org_of_sized h) (carried fresh top)
        rw [hcar, hplace] at hp
        obtain ⟨rfl, -⟩ := Prod.mk.inj hp
        exact Option.some_ne_none _ hl.1.symm
      | some size' =>
        rw [hcar, place_forward hcar] at hp
        obtain ⟨rfl, -⟩ := Prod.mk.inj hp
        exact hexact (Option.some.inj hl.1)
    refine ⟨iff_of_false hno ?_, fun hl => absurd hl hno⟩
    rintro (hlt | ⟨hf, -⟩)
    · exact hexact (by rw [carried, Nat.mod_eq_of_lt hlt, ite_self])
    · exact hexact (by rw [carried, if_pos hf])

/-- Going forward the law is kept exactly when the lines are sound. -/
theorem forward_iff (fresh : Bool) (lines : List Line) (hdef : ∀ line ∈ lines, line.ir.Defined)
    (ht : top < kind.modulus)
    (hs : ∀ p ∈ (walk kind lineToSymbol .forward (carried fresh top) lines).1, Settled symbols p) :
    ForwardLaw kind symbols top (walk kind lineToSymbol .forward (carried fresh top) lines).1 ↔
      ForwardSound kind fresh top lines := by
  induction lines generalizing fresh top with
  | nil => exact Iff.rfl
  | cons line lines ih =>
    obtain ⟨hd, hrest⟩ := List.forall_mem_cons.mp hdef
    obtain ⟨⟨p, next⟩, hplace⟩ : ∃ r, line.place kind lineToSymbol .forward (carried fresh top)
      (line.ir.sizeAt (carried fresh top)) = r := ⟨_, rfl⟩
    have hline := place_line hplace
    rw [walk_cons hplace] at hs ⊢
    obtain ⟨hp, htail⟩ := List.forall_mem_cons.mp hs
    by_cases horg : line.ir.isOrg
    · obtain ⟨ir, symbol⟩ := line
      obtain ⟨argument, rfl⟩ := LinearIR.exists_org horg
      have hv : argument.valueAs 8 % kind.modulus < kind.modulus :=
        Nat.mod_lt _ (by rcases kind.modulus_cases with h | h <;> omega)
      have hpast : LinearIR.past kind (argument.valueAs 8 % kind.modulus) (.dotOrg argument) =
          argument.valueAs 8 % kind.modulus := LinearIR.past_none rfl hv
      obtain ⟨rfl, rfl⟩ := Prod.mk.inj hplace
      rw [argument.valueAs_two kind] at htail ⊢
      have hih := ih false hrest hv htail
      simp only [ForwardLaw, ForwardSound, LinearIR.start, LinearIR.isOrg, LinearIR.isAlign, LinearIR.sizeAt,
        LinearIR.objectSize, Bool.not_true, Bool.and_false, Bool.false_eq_true, false_implies, true_and]
      rw [hpast, hih]
      refine ⟨fun h => h.2.2, fun h => ⟨⟨rfl, fun ho => ?_⟩, trivial, h⟩⟩
      rcases ho with ho | ho <;> cases ho
    · rw [forwardLaw_cons (by rwa [hline]), walk_lines, hline]
      cases hsize : line.ir.sizeAt top with
      | none =>
        obtain ⟨hiff, hnext⟩ := forward_unsized horg hsize hplace hp
        rw [forwardSound_none horg hsize, LinearIR.past_none hsize ht, ← hiff]
        refine and_congr_right fun hl => ?_
        obtain rfl := hnext hl
        rw [ih fresh hrest ht htail]
        exact and_iff_right (alignLaw_unpadded hd ht hsize lines)
      | some size =>
        obtain ⟨hiff, hnext⟩ := forward_sized ht hsize hplace hp
        rw [forwardSound_some hsize, ← hiff]
        refine and_congr_right fun hl => ?_
        obtain rfl := hnext hl
        rw [ih false hrest (LinearIR.past_lt _ _) htail, alignLaw_iff ht hsize]

/-! ## Backward -/

theorem backward_unsized {lastFree next : Nat} (bottom : Nat) (horg : ¬ line.ir.isOrg)
    (h : line.ir.sizeAt lastFree = none)
    (hp : line.place kind lineToSymbol .backward lastFree (line.ir.sizeAt lastFree) = (p, next))
    (hs : Settled symbols p) :
    (LineLaw symbols bottom none p ↔ (line.ir.isAlign → line.symbol = none)) ∧ next = lastFree := by
  obtain ⟨value, hplace, hvalue⟩ := place_none kind lineToSymbol .backward horg lastFree
  rw [h, hplace] at hp
  obtain ⟨rfl, rfl⟩ := Prod.mk.inj hp
  refine ⟨?_, rfl⟩
  simp only [LineLaw, Option.map_none, Option.isSome_none, Bool.false_eq_true, false_or, true_and]
  refine forall_congr' fun ha => ?_
  exact symbolAt_unset hs (Line.declaration_of_sized bottom (.inr ha)) (hvalue ha)

/-- A sized line: its size must show in 16 bits, and so must the byte below it and the address of its symbol. -/
theorem backward_sized {lastFree bottom size next : Nat} (hq : lastFree < kind.modulus) (hb : bottom < kind.modulus)
    (hrel : (lastFree + 1) % 2 ^ 16 = bottom % 2 ^ 16) (h : line.ir.sizeAt lastFree = some size)
    (hp : line.place kind lineToSymbol .backward lastFree (line.ir.sizeAt lastFree) = (p, next))
    (hs : Settled symbols p) :
    let position := (bottom + kind.modulus - size % kind.modulus) % kind.modulus
    let below := (position + kind.modulus - 1) % kind.modulus
    (LineLaw symbols position (some size) p ↔
        size % 2 ^ 16 ≠ 0 ∧ below < 2 ^ 16 ∧ (line.symbol.isSome → position < 2 ^ 16)) ∧
      (LineLaw symbols position (some size) p → next = below) := by
  intro position below
  have hpos : position < kind.modulus := Nat.mod_lt _ (by omega)
  have hd : line.declaration = line.symbol := Line.declaration_of_sized lastFree (.inl (by rw [h]; rfl))
  obtain ⟨next', hnext'⟩ : ∃ n, (lastFree + kind.modulus - size % 2 ^ 16) % kind.modulus % 2 ^ 16 = n := ⟨_, rfl⟩
  rw [h, place_backward h, hnext'] at hp
  obtain ⟨rfl, rfl⟩ := Prod.mk.inj hp
  have hnext : next' = below % 2 ^ 16 := by
    rw [← hnext']
    simp only [below, position]
    rcases kind.modulus_cases with hm | hm <;> rw [hm] at hq hb ⊢ <;> omega
  have hbelow : below = (position + kind.modulus - 1) % kind.modulus := rfl
  have hat := symbolAt_location hs hd rfl ((Nat.mod_lt _ (by omega)).trans (by omega : 2 ^ 16 < 2 ^ 64)) (lt_of_kind hpos)
  simp only [LineLaw, Option.map_some, Option.isSome_some, true_or, true_implies]
  rw [hat]
  simp only [Option.some.injEq]
  have hsome : line.symbol.isSome ↔ ¬ line.symbol = none := Option.isSome_iff_ne_none
  rw [hsome]
  clear_value position below
  by_cases hz : size % 2 ^ 16 = 0
  · rw [hz, if_neg (by omega), Nat.add_zero]
    have hno : ¬ next' % kind.modulus = position := by
      rcases kind.modulus_cases with hm | hm <;> rw [hm] at hpos hbelow ⊢ <;> omega
    exact ⟨iff_of_false (fun hl => hno hl.1) (fun hl => hl.1 rfl), fun hl => absurd hl.1 hno⟩
  · rw [if_pos (by omega)]
    have haddr : (next' + 1) % kind.modulus = position ↔ below < 2 ^ 16 := by
      rcases kind.modulus_cases with hm | hm <;> rw [hm] at hpos hbelow ⊢ <;> omega
    have hsym : below < 2 ^ 16 → ((next' + 1) % 2 ^ 16 = position ↔ position < 2 ^ 16) := by
      intro hlt
      rcases kind.modulus_cases with hm | hm <;> rw [hm] at hpos hbelow <;> omega
    rw [haddr]
    refine ⟨?_, fun hl => by rw [hnext, Nat.mod_eq_of_lt hl.1]⟩
    rw [and_iff_right hz]
    refine and_congr_right fun hlt => ?_
    rw [hsym hlt]
    tauto

/-- Going backward the law is kept exactly when the lines are sound. -/
theorem backward_iff (lines : List Line) (horg : ∀ line ∈ lines, ¬ line.ir.isOrg) {lastFree bottom : Nat}
    (hq : lastFree < kind.modulus) (hb : bottom < kind.modulus) (hrel : (lastFree + 1) % 2 ^ 16 = bottom % 2 ^ 16)
    (hs : ∀ p ∈ (walk kind lineToSymbol .backward lastFree lines).1, Settled symbols p) :
    BackwardLaw kind symbols lastFree bottom (walk kind lineToSymbol .backward lastFree lines).1 ↔
      BackwardSound kind lastFree bottom lines := by
  induction lines generalizing lastFree bottom with
  | nil => exact Iff.rfl
  | cons line lines ih =>
    obtain ⟨ho, hrest⟩ := List.forall_mem_cons.mp horg
    obtain ⟨⟨p, next⟩, hplace⟩ : ∃ r, line.place kind lineToSymbol .backward lastFree (line.ir.sizeAt lastFree) = r :=
      ⟨_, rfl⟩
    have hline := place_line hplace
    rw [walk_cons hplace] at hs ⊢
    obtain ⟨hp, htail⟩ := List.forall_mem_cons.mp hs
    simp only [BackwardLaw, BackwardSound, hline]
    cases hsize : line.ir.sizeAt lastFree with
    | none =>
      obtain ⟨hiff, rfl⟩ := backward_unsized bottom ho hsize hplace hp
      have hpos : (bottom + kind.modulus - 0 % kind.modulus) % kind.modulus = bottom := by
        rw [Nat.zero_mod, Nat.sub_zero, Nat.add_mod_right, Nat.mod_eq_of_lt hb]
      simp only [Option.getD_none, hpos, Option.isSome_none, Bool.false_eq_true, if_false, hiff]
      rw [ih hrest hq hb hrel htail]
    | some size =>
      obtain ⟨hiff, hnext⟩ := backward_sized hq hb hrel hsize hplace hp
      simp only [Option.getD_some, Option.isSome_some, if_true]
      rw [← and_assoc, ← and_assoc, and_assoc (a := size % 2 ^ 16 ≠ 0), ← hiff]
      refine and_congr_right fun hl => ?_
      obtain rfl := hnext hl
      refine ih hrest (Nat.mod_lt _ (by omega)) (Nat.mod_lt _ (by omega)) ?_ htail
      rcases kind.modulus_cases with hm | hm <;> rw [hm] at hb ⊢ <;> omega

end Pepp.Tc

/-! ## Layout of a program

The assembler keeps the address layout law for exactly the sound programs. -/

namespace Pepp.Tc

variable {kind : AddressKind} {lineToSymbol : LinearIR → SymbolType} {symbols : SymbolTable}

/-- Where a walk that begins with an `.ORG` starts does not matter. -/
theorem walk_org {org : Line} (h : org.ir.isOrg) (base base' : Nat) (rest : List Line) :
    walk kind lineToSymbol .forward base (org :: rest) = walk kind lineToSymbol .forward base' (org :: rest) := by
  obtain ⟨ir, symbol⟩ := org
  obtain ⟨argument, rfl⟩ := LinearIR.exists_org h
  rfl

theorem isOrg_of_fromOrg {lines rest : List Line} {org : Line} (h : fromOrg lines = org :: rest) : org.ir.isOrg := by
  have := List.head?_dropWhile_not (fun line : Line => !line.ir.isOrg) lines
  rw [← fromOrg, h] at this
  simpa using this

theorem takeWhile_placed (before rest : List Placed) (hb : ∀ p ∈ before, ¬ p.line.ir.isOrg)
    (hr : ∀ p ∈ rest.head?, p.line.ir.isOrg) :
    (before ++ rest).takeWhile (fun p => !p.line.ir.isOrg) = before ∧
      (before ++ rest).dropWhile (fun p => !p.line.ir.isOrg) = rest := by
  have hb' : ∀ p ∈ before, (!p.line.ir.isOrg) = true := by simpa using hb
  rw [List.takeWhile_append_of_pos hb', List.dropWhile_append_of_pos hb']
  cases rest with
  | nil => simp
  | cons p rest => simp [hr p rfl]

/-- The layout of some lines keeps the law exactly when they are sound on either side of the first `.ORG`. -/
theorem layoutLaw_iff {lines : List Line} (hdef : ∀ line ∈ lines, line.ir.Defined) {initial : Nat}
    (hi : initial < kind.modulus) (hs : ∀ p ∈ flatLayout kind lineToSymbol initial lines, Settled symbols p) :
    LayoutLaw kind symbols initial (flatLayout kind lineToSymbol initial lines) ↔ LinesSound kind initial lines := by
  have hpos : 0 < kind.modulus := by omega
  have hmem : ∀ {direction base lines'} {p : Placed}, p ∈ (walk kind lineToSymbol direction base lines').1 →
      p.line ∈ lines' := by
    intro direction base lines' p hp
    rw [← walk_lines kind lineToSymbol direction base lines']
    exact List.mem_map_of_mem hp
  rw [flatLayout] at hs ⊢
  rw [LinesSound]
  cases hfrom : fromOrg lines with
  | nil =>
    rw [if_pos hfrom] at hs
    rw [if_pos rfl]
    have hnone := fromOrg_eq_nil.mp hfrom
    obtain ⟨-, hdrop⟩ := takeWhile_placed (walk kind lineToSymbol .forward initial lines).1 []
      (fun p hp => hnone _ (hmem hp)) (by simp)
    rw [List.append_nil] at hdrop
    simp only [LayoutLaw, hdrop]
    exact forward_iff true lines hdef hi hs
  | cons org rest =>
    have horg := isOrg_of_fromOrg hfrom
    rw [if_neg (by rw [hfrom]; exact List.cons_ne_nil _ _), hfrom] at hs
    rw [if_neg (List.cons_ne_nil _ _)]
    have hbefore : ∀ line ∈ (beforeOrg lines).reverse, ¬ line.ir.isOrg := by
      intro line hl
      simpa using List.mem_takeWhile_imp (List.mem_reverse.mp hl)
    have hrest : ∀ line ∈ org :: rest, line.ir.Defined := fun line hl =>
      hdef line ((List.dropWhile_sublist _).subset (by rw [← hfrom] at hl; exact hl))
    have hdown : ∀ p ∈ (walk kind lineToSymbol .backward ((orgArgument (org :: rest) + kind.modulus - 1) % kind.modulus)
        (beforeOrg lines).reverse).1.reverse, ¬ p.line.ir.isOrg := fun p hp =>
      hbefore _ (hmem (List.mem_reverse.mp hp))
    obtain ⟨up, hup⟩ : ∃ p, org.place kind lineToSymbol .forward (orgArgument (org :: rest))
      (org.ir.sizeAt (orgArgument (org :: rest))) = p := ⟨_, rfl⟩
    have hwalk := walk_cons hup rest
    have hfirst : up.1.line = org := place_line hup
    obtain ⟨htake, hdrop⟩ := takeWhile_placed _
      (walk kind lineToSymbol .forward (orgArgument (org :: rest)) (org :: rest)).1 hdown (by
        rw [hwalk]
        rintro p ⟨⟩
        rwa [hfirst])
    simp only [LayoutLaw, htake, hdrop]
    rw [hwalk]
    simp only [hfirst, List.reverse_reverse]
    rw [← hwalk, walk_org horg _ (carried false 0)]
    refine and_congr ?_ (forward_iff false (org :: rest) hrest hpos fun p hp => hs p (List.mem_append_right _ ?_))
    · obtain ⟨ir, symbol⟩ := org
      obtain ⟨argument, rfl⟩ := LinearIR.exists_org horg
      have hlt : argument.valueAs 8 % kind.modulus < kind.modulus := Nat.mod_lt _ hpos
      have harg : orgArgument (⟨.dotOrg argument, symbol⟩ :: rest) = argument.valueAs 8 % kind.modulus % 2 ^ 16 :=
        argument.valueAs_two kind
      rw [harg] at hs ⊢
      refine backward_iff _ hbefore (Nat.mod_lt _ hpos) hlt ?_ fun p hp =>
        hs p (List.mem_append_left _ (List.mem_reverse.mpr hp))
      rcases kind.modulus_cases with hm | hm <;> rw [hm] <;> omega
    · rwa [walk_org horg _ (carried false 0)]

/-- A line's symbol ends with the value the line set it to. -/
theorem settled_visited {placed visited : List Placed} (hperm : visited.Perm placed)
    (hn : ((placed.map Placed.line).filterMap Line.declaration).Nodup) :
    ∀ p ∈ placed, Settled (visited.foldl assignSymbol fun _ => .empty 0) p := by
  intro p hp symbol hs
  have hnodup : (visited.filterMap Placed.declaration).Nodup := by
    rw [List.filterMap_map] at hn
    exact (hperm.filterMap _).nodup_iff.mpr hn
  exact foldl_assignSymbol hnodup (hperm.mem_iff.mpr hp) hs

theorem flatLayout_lines (initial : Nat) (lines : List Line) :
    (flatLayout kind lineToSymbol initial lines).map Placed.line = lines := by
  rw [flatLayout]
  split
  · exact walk_lines ..
  · rw [List.map_append, List.map_reverse, walk_lines, walk_lines, List.reverse_reverse]
    exact List.takeWhile_append_dropWhile

/-- The assembler keeps the address layout law for exactly the sound programs. -/
theorem laidOut_iff_sound (kind : AddressKind) (lineToSymbol : LinearIR → SymbolType) (prog : Program)
    (initial : BitVec kind.bits) :
    LaidOut kind lineToSymbol prog initial.toNat ↔ Sound kind prog initial.toNat := by
  have hsec : (∀ sec ∈ prog.sections, ∀ line ∈ sec.2, line.ir.Defined) ↔ ∀ line ∈ prog.lines, line.ir.Defined := by
    simp only [Program.lines, List.mem_flatMap]
    exact ⟨fun h line ⟨sec, hs, hl⟩ => h sec hs line hl, fun h sec hs line hl => h line ⟨sec, hs, hl⟩⟩
  have hlaw : ∀ visited : List Placed,
      visited.Perm ((regions kind lineToSymbol prog.sections initial.toNat).flatMap Extent.placed) →
      (∀ line ∈ prog.lines, line.ir.Defined) →
      (LayoutLaw kind (visited.foldl assignSymbol fun _ => .empty 0) initial.toNat
          ((regions kind lineToSymbol prog.sections initial.toNat).flatMap Extent.placed) ↔
        LinesSound kind initial.toNat prog.lines) := by
    intro visited hperm hdef
    rw [regions_placed prog.counted] at hperm ⊢
    refine layoutLaw_iff hdef initial.isLt (settled_visited hperm ?_)
    rw [flatLayout_lines]
    exact prog.declaredOnce
  constructor
  · rintro ⟨layout, hok, -, hl⟩
    obtain ⟨hne, hdef⟩ := defined_of_assignAddresses hok
    obtain ⟨visited, hperm, hassign⟩ := assignAddresses_ok initial.toNat hne hdef
    obtain rfl := Except.ok.inj (hok.symm.trans hassign)
    exact ⟨hne, hsec.mp hdef, (hlaw visited hperm (hsec.mp hdef)).mp hl⟩
  · rintro ⟨hne, hdef, hsound⟩
    obtain ⟨visited, hperm, hassign⟩ := assignAddresses_ok initial.toNat hne (hsec.mpr hdef)
    exact ⟨_, hassign, regions_lines, (hlaw visited hperm hdef).mpr hsound⟩

/-- `end: .BLOCK 0` and then `.ORG 0x0010`. -/
def blockBeforeOrg : Program where
  sections := [(⟨".text", ⟨true, true, true, false⟩, 1, 1, 3⟩,
    [⟨.dotBlock ⟨.unsignedDecimal, 0, 2⟩, some "end"⟩, ⟨.dotOrg ⟨.hexadecimal, 0x10, 2⟩, none⟩])]
  counted := by simp [Counted, LinearIR.isOrg]
  declaredOnce := by decide

/-- The empty block is at 0x000F, not at the address of the line that follows it. -/
theorem blockBeforeOrg_not_laidOut : ¬ LaidOut .pepp peppLineToSymbol blockBeforeOrg 0 := by
  rintro ⟨layout, hok, -, hlaw⟩
  have hassign : (assignAddresses .pepp peppLineToSymbol blockBeforeOrg.sections 0).map (fun l => l.extents) =
      .ok [⟨15, 16, 0, [⟨⟨.dotBlock ⟨.unsignedDecimal, 0, 2⟩, some "end"⟩, some ⟨15, 0⟩, some (.location 0 2 15 0 .object)⟩,
        ⟨⟨.dotOrg ⟨.hexadecimal, 0x10, 2⟩, none⟩, none, none⟩]⟩] := rfl
  rw [hok] at hassign
  have hextents : layout.extents = _ := Except.ok.inj hassign
  rw [hextents] at hlaw
  exact absurd hlaw.1.1.1 (by decide)

end Pepp.Tc
