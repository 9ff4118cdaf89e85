import Pepp.Microcode.Rereading

/-!
# Lines of code

A formatted line of code is read back as it was, up to its place in the program
and the symbols it has been given values for, if and only if its layout is
accepted. Otherwise reading it is an error.
-/

namespace Pepp.Ucode

variable {S : Type} [Uarch S]

/-- A line whose symbols have values, and that has a place in the program. -/
structure Line.Fine (line : Line S) : Prop where
  controls : line.controls.Sound
  comment : ∀ comment ∈ line.comment, IsComment comment
  symbolDecl : ∀ name ∈ line.symbolDecl, IsSymbol name ∧ Uarch.allowsSymbols S = true
  signal : line.symbolDecl ≠ none → line.controls.any = true
  tests : ∀ t ∈ line.tests, t.Sound
  code : line.type = .Code → line.tests = []
  test : line.type ≠ .Code → line.controls = {} ∧ line.symbolDecl = none

/-- A line without its place and its symbolic values. -/
def Line.bare (line : Line S) : Line S := { line with address := -1, deferredValues := fun _ => none }

/-! ## The control word -/

section Assign

variable [Uarch.Lawful S] {c : CodeWithEnables S} {items : List (Separator × S)}

theorem assign_spec (hc : c.Sound) (hitems : ∀ item ∈ items, c.enabled item.2 = true) (k : CodeWithEnables S) (s : S) :
    (assign c items k).enabled s = (if s ∈ items.map Prod.snd then true else k.enabled s) ∧
      (assign c items k).get s = if s ∈ items.map Prod.snd then c.get s else k.get s := by
  induction items generalizing k with
  | nil => exact ⟨rfl, rfl⟩
  | cons item items ih =>
    have hhead := List.forall_mem_cons.mp hitems
    have hvalue : Uarch.isClock item.2 = true → c.get item.2 ≠ 0 := fun hclock => by
      rw [hc.clock _ hhead.1 hclock]
      decide
    obtain ⟨hon, hget⟩ := ih hhead.2 (Uarch.set k item.2 (c.get item.2))
    rw [CodeWithEnables.enabled_set hvalue] at hon
    rw [CodeWithEnables.get_set hvalue, cut_of_lt (Uarch.Lawful.signalBitSize_le _) (hc.fits _)] at hget
    have hmem : s ∈ (item :: items).map Prod.snd ↔ s = item.2 ∨ s ∈ items.map Prod.snd := by
      rw [List.map_cons, List.mem_cons]
    refine ⟨hon.trans ?_, hget.trans ?_⟩
    · simp only [hmem]
      split_ifs <;> simp_all
    · simp only [hmem]
      split_ifs <;> simp_all

/-- Giving the signals of a line their values again makes its control word again. -/
theorem assign_layout [Uarch.Layout S] (hc : c.Sound) : assign c (layout c) {} = c := by
  have hmem : ∀ s, s ∈ (layout c).map Prod.snd ↔ c.enabled s = true := by
    intro s
    rw [map_snd_layout]
    exact Uarch.Layout.mem_iff c s
  have hitems : ∀ item ∈ layout c, c.enabled item.2 = true := fun item hitem =>
    (hmem item.2).mp (List.mem_map_of_mem hitem)
  have hspec := assign_spec hc hitems {}
  have hcode : (assign c (layout c) {}).code = c.code := by
    funext s
    refine (hspec s).2.trans ?_
    simp only [hmem]
    split
    · rfl
    · next hoff => exact (hc.off s (by simpa using hoff)).symm
  have henables : (assign c (layout c) {}).enables = c.enables := by
    funext s
    refine (hspec s).1.trans ?_
    simp only [hmem]
    split
    · next hon => exact hon.symm
    · next hoff => exact (by simpa using hoff : c.enabled s = false).symm
  cases hassign : assign c (layout c) {}
  cases c
  simp_all

end Assign

/-! ## Reading a line -/

theorem layout_cases [Uarch.Layout S] (c : CodeWithEnables S) :
    layout c = [] ∨ ∃ s items, layout c = (.nothing, s) :: items ∧ ∀ item ∈ items, item.1 ≠ .nothing :=
  items_cases nonempty_ne_nil

theorem turn_symbol {p : Progress S} {b : MicroBuffer} {matched : List Token} {symbol name : Text} {l l' : MicroLexer}
    (hb : b.fill = ⟨matched, [.symbolDeclaration (symbol ++ [':'])], l⟩) (htype : p.code.type = .Code)
    (hallows : Uarch.allowsSymbols S = true)
    (hname : Lex.Buffer.fill ⟨matched ++ [.symbolDeclaration (symbol ++ [':'])], [], l⟩ =
      (⟨matched ++ [.symbolDeclaration (symbol ++ [':'])], [.identifier name], l'⟩ : MicroBuffer)) :
    turn p b = .ok (.again { p with code.symbolDecl := some symbol })
      ⟨matched ++ [.symbolDeclaration (symbol ++ [':'])], [.identifier name], l'⟩ := by
  rw [turn_code hb htype fun _ _ => nofun]
  have hadvance : advance ⟨matched, [.symbolDeclaration (symbol ++ [':'])], l⟩ =
      .ok () ⟨matched ++ [.symbolDeclaration (symbol ++ [':'])], [], l⟩ := rfl
  rw [codeTurn_symbol, Outcome.bind_apply_ok hadvance, Outcome.bind_apply_ok (require_pos hallows), Outcome.bind_apply_ok (peek_fill hname), List.dropLast_concat]
  rfl

section Reading

variable [Uarch.Lawful S] [Uarch.Layout S] {c : CodeWithEnables S} {comment : Option Text} {row : Nat} {rest : Text}

omit [Uarch.Layout S] in
/-- The first signal of a line. -/
theorem fill_name (hcomment : ∀ x ∈ comment, IsComment x) {s : S} {items : List (Separator × S)}
    (hseps : ∀ item ∈ items, item.1 ≠ .nothing) (matched : List Token) :
    Lex.Buffer.fill ⟨matched, [], ⟨row, itemsText c ((.nothing, s) :: items) (tailText comment rest)⟩⟩ =
      (⟨matched, [.identifier (Uarch.name s)], ⟨row, valueText c s ++ itemsText c items (tailText comment rest)⟩⟩ :
        MicroBuffer) := by
  have htext : Delimited (itemsText c items (tailText comment rest)) :=
    delimited_items (delimited_tail hcomment rest) hseps
  rw [itemsText_cons]
  refine Lex.Buffer.fill_nil (MicroLexer.nextToken_identifier (Uarch.Lawful.isIdentifier_name s) ?_)
  rw [valueText]
  split
  · exact htext
  · exact delimited_cons rfl

variable {b : MicroBuffer}

/-- The signals and the comment of a line, where nothing of them has been read. -/
theorem loops_body (hc : c.Sound) (hcomment : ∀ x ∈ comment, IsComment x) {p : Progress S} {matched : List Token}
    (htype : p.code.type = .Code) (hcontrols : p.code.controls = {}) (hp : p.code.comment = none)
    (hb : b.fill = Lex.Buffer.fill ⟨matched, [], ⟨row, itemsText c (layout c) (tailText comment rest)⟩⟩) :
    ∃ r, Loops p b r ∧ Reread c comment ⟨row + 1, rest⟩ p.code p.place (layout c) r := by
  have hmem : ∀ item ∈ layout c, c.enabled item.2 = true ∧ p.code.controls.enabled item.2 = false := by
    intro item hitem
    refine ⟨(Uarch.Layout.mem_iff c item.2).mp ?_, by rw [hcontrols]; rfl⟩
    rw [← map_snd_layout]
    exact List.mem_map_of_mem hitem
  have hnodup : ((layout c).map Prod.snd).Nodup := by
    rw [map_snd_layout]
    exact Uarch.Layout.nodup c
  rcases layout_cases c with hnil | ⟨s, items, hcons, hseps⟩
  · rw [hnil] at hb ⊢
    have hempty : ∀ m, Lex.Buffer.fill ⟨m, [], ⟨row, '\n' :: rest⟩⟩ = (⟨m, [.empty], ⟨row + 1, rest⟩⟩ : MicroBuffer) :=
      fun m => Lex.Buffer.fill_nil MicroLexer.nextToken_newline
    cases comment with
    | none =>
      have hfill := hb.trans (hempty matched)
      refine ⟨_, Loops.done hfill (turn_empty hfill htype), ⟨matched ++ [.empty], [], ⟨row + 1, rest⟩⟩, ?_, rfl⟩
      rw [← hp]
      rfl
    | some x =>
      have hfill := hb.trans (Lex.Buffer.fill_nil (MicroLexer.nextToken_comment (hcomment x rfl)))
      refine ⟨_, Loops.again hfill (turn_comment hfill htype) (Loops.done (hempty _) (turn_empty (hempty _) htype)), ?_⟩
      exact ⟨_, rfl, rfl⟩
  · rw [hcons] at hb hmem hnodup ⊢
    have hhead := hmem _ List.mem_cons_self
    have htext : Delimited (itemsText c items (tailText comment rest)) :=
      delimited_items (delimited_tail hcomment rest) hseps
    have hfill := hb.trans (fill_name hcomment hseps matched)
    refine loops_signal hc hhead.1 hhead.2 htype htext hfill fun place _ => ?_
    have hpending : Pending c p ((.nothing, s) :: items) := hmem
    exact follows hc hcomment htype hp hseps (hpending.tail hc hnodup place) (List.nodup_cons.mp hnodup).2

/-- What stands before the signals of a line: its symbol. -/
def symbolText (symbol : Option Text) : Text :=
  match symbol with
  | some symbol => symbol ++ ": ".toList
  | none => []

/-- A line from its symbol on. -/
theorem loops_symbol {line : Line S} (h : line.Fine) {b : MicroBuffer} {matched : List Token}
    (hb : b.fill = Lex.Buffer.fill ⟨matched, [], ⟨row, symbolText line.symbolDecl ++
      itemsText line.controls (layout line.controls) (tailText line.comment rest)⟩⟩) :
    ∃ r, Loops {} b r ∧ Reread line.controls line.comment ⟨row + 1, rest⟩
      { ({} : Line S) with symbolDecl := line.symbolDecl } {} (layout line.controls) r := by
  cases hsymbol : line.symbolDecl with
  | none => exact loops_body h.controls h.comment rfl rfl rfl (hsymbol ▸ hb)
  | some symbol =>
    rw [hsymbol] at hb
    obtain ⟨⟨hid, htoken⟩, hallows⟩ := h.symbolDecl symbol hsymbol
    have hany := h.signal (by rw [hsymbol]; exact nofun)
    obtain ⟨s, hon⟩ := CodeWithEnables.any_iff.mp hany
    rcases layout_cases line.controls with hnil | ⟨s', items, hcons, hseps⟩
    · have hmem := (Uarch.Layout.mem_iff line.controls s).mpr hon
      rw [← map_snd_layout, hnil] at hmem
      exact absurd hmem List.not_mem_nil
    · have hfill : b.fill = (⟨matched, [.symbolDeclaration (symbol ++ [':'])],
            ⟨row, ' ' :: itemsText line.controls (layout line.controls) (tailText line.comment rest)⟩⟩ : MicroBuffer) := by
        rw [hb, symbolText, List.append_assoc]
        refine Lex.Buffer.fill_nil ?_
        rw [← htoken]
        exact MicroLexer.nextToken_symbol hid
      have hname := @fill_name S _ _ line.controls line.comment row rest h.comment s' items hseps
        (matched ++ [.symbolDeclaration (symbol ++ [':'])])
      rw [← hcons] at hname
      obtain ⟨r, hloops, hreread⟩ := @loops_body S _ _ _ line.controls line.comment row rest _
        h.controls h.comment { code := { ({} : Line S) with symbolDecl := some symbol } } _ rfl rfl rfl
        (Lex.Buffer.fill_cons.trans hname.symm)
      exact ⟨r, Loops.again hfill (turn_symbol hfill rfl hallows hname) hloops, hreread⟩

omit [Uarch.Lawful S] [Uarch.Layout S] in
/-- The number in front of a line of a listing is skipped. -/
theorem turn_lineNumber {p : Progress S} {n : Nat} {l : MicroLexer} (hmatched : b.matched = [])
    (hb : b.fill = ⟨[], [.lineNumber n], l⟩) : turn p b = .ok (.again p) ⟨[.lineNumber n], [], l⟩ := by
  rw [turn_apply, hb, hmatched]
  rfl

/-- What a line of code is read back as. -/
theorem nextLine_code {line : Line S} (h : line.Fine) (htype : line.type = .Code) (style : FormatStyle) :
    match Place.readAll {} (layout line.controls) with
    | some _ => nextLine ⟨row, line.row style ++ rest⟩ = (.ok line.bare, ⟨row + 1, rest⟩)
    | none => ∃ message l, nextLine (S := S) ⟨row, line.row style ++ rest⟩ = (.error (.error message), l) := by
  let text := symbolText line.symbolDecl ++ itemsText line.controls (layout line.controls) (tailText line.comment rest)
  have hbody : line.format ++ '\n' :: rest = text := by
    simp only [Line.format, htype, text, itemsText, tailText, symbolText, toText_layout, List.append_assoc]
    all_goals rfl
  have hrun : ∃ r, Loops {} (.ofLexer ⟨row, line.row style ++ rest⟩) r ∧
      Reread line.controls line.comment ⟨row + 1, rest⟩ { ({} : Line S) with symbolDecl := line.symbolDecl } {}
        (layout line.controls) r := by
    rw [Line.row]
    split
    · have hnumber : Lex.Buffer.fill (.ofLexer ⟨row, Numerals.numeral 10 (line.address.toNat + 1) ++ '.' :: ' ' :: text⟩) =
          (⟨[], [.lineNumber _], ⟨row, ' ' :: text⟩⟩ : MicroBuffer) :=
        Lex.Buffer.fill_nil (MicroLexer.nextToken_lineNumber
          (fun c hc => Numerals.isDigit_digit (Numerals.isDigit_numeral (by decide) _ c hc)) (Numerals.numeral_ne_nil _))
      rw [List.append_assoc, List.append_assoc, List.append_assoc, List.singleton_append, hbody]
      have hspace : ∀ matched, Lex.Buffer.fill ⟨matched, [], ⟨row, ' ' :: text⟩⟩ =
          (Lex.Buffer.fill ⟨matched, [], ⟨row, text⟩⟩ : MicroBuffer) := fun _ => rfl
      obtain ⟨r, hloops, hreread⟩ := loops_symbol h (hspace _)
      exact ⟨r, Loops.again hnumber (turn_lineNumber rfl hnumber) hloops, hreread⟩
    · rw [List.nil_append, List.append_assoc, List.singleton_append, hbody]
      exact loops_symbol h rfl
  obtain ⟨r, hloops, hreread⟩ := hrun
  have hnext := nextLine_of_loops hloops
  rw [Reread, assign_layout h.controls] at hreread
  cases hplace : Place.readAll {} (layout line.controls) with
  | some place =>
    rw [hplace] at hreread
    obtain ⟨b, rfl, hlexer⟩ := hreread
    change nextLine ⟨row, line.row style ++ rest⟩ = (.ok line.bare, ⟨row + 1, rest⟩)
    rw [hnext, LineResult.outcome, ← hlexer]
    have htests := h.code htype
    cases line
    simp_all [Line.bare]
  | none =>
    rw [hplace] at hreread
    obtain ⟨message, b, rfl⟩ := hreread
    exact ⟨message, b.lexer, hnext⟩

end Reading

end Pepp.Ucode
