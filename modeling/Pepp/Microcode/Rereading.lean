import Pepp.Microcode.Acceptance

/-!
# Reading a line of code back

The signals of a line are read back one at a time, with the values they were
written with, until the parser meets one that it does not accept. A line that is
accepted gives the control word it was written from.
-/

namespace Pepp.Ucode

open Outcome

def Progress.place {S : Type} (p : Progress S) : Place := ⟨p.currentGroup, p.signalsInGroup⟩

theorem enterGroup_eq {S : Type} {p : Progress S} (name : Text) (group : Nat) :
    enterGroup name group p = match p.place.enter group with
      | some place => pure { p with currentGroup := place.group, signalsInGroup := place.clocks }
      | none => fail ("Unexpected signal: " ++ String.ofList name) := by
  rw [enterGroup, Place.enter, Progress.place]
  by_cases h : group = p.currentGroup
  · rw [if_pos h, if_pos h]
  · rw [if_neg h, if_neg h]
    by_cases h' : p.signalsInGroup = 0 ∧ p.currentGroup ≤ group
    · rw [if_pos h', if_pos h']
    · rw [if_neg h', if_neg h']

/-! ## What follows a signal -/

section Separators

variable {S : Type} {p : Progress S} {b : MicroBuffer} {matched : List Token} {l : MicroLexer}

theorem separator_comma (hb : b.fill = ⟨matched, [.literal ','], l⟩) :
    separator p b = .ok (.again p) ⟨matched ++ [.literal ','], [], l⟩ := by
  rw [separator, bind_apply_ok (peek_fill hb)]
  rfl

theorem separator_semicolon (hb : b.fill = ⟨matched, [.literal ';'], l⟩) :
    separator p b = .ok (.again p) ⟨matched, [.literal ';'], l⟩ := by
  rw [separator, bind_apply_ok (peek_fill hb)]
  rfl

theorem separator_empty (hb : b.fill = ⟨matched, [.empty], l⟩) :
    separator p b = .ok (.again p) ⟨matched, [.empty], l⟩ := by
  rw [separator, bind_apply_ok (peek_fill hb)]
  rfl

theorem separator_comment {comment : Text} (hb : b.fill = ⟨matched, [.inlineComment comment], l⟩) :
    separator p b =
      .ok (.again { p with code.comment := some comment }) ⟨matched ++ [.inlineComment comment], [], l⟩ := by
  rw [separator, bind_apply_ok (peek_fill hb)]
  rfl

end Separators

variable {S : Type} [Uarch S] {c : CodeWithEnables S} {p q : Progress S} {s : S} {b : MicroBuffer}
  {matched : List Token} {row : Nat} {text : Text}

/-- What stands after the name of a signal. -/
def valueText (c : CodeWithEnables S) (s : S) : Text :=
  if Uarch.isClock s then [] else '=' :: Numerals.numeral 10 (c.get s).toNat

theorem written_eq (c : CodeWithEnables S) (s : S) : written c s = Uarch.name s ++ valueText c s := by
  rw [written, shown, valueText]
  split
  · rw [List.append_nil]
  · rfl

/-- The text of the items of a line, and what comes after it. -/
def itemsText (c : CodeWithEnables S) (items : List (Separator × S)) (tail : Text) : Text :=
  items.flatMap (itemText (written c)) ++ tail

theorem itemsText_cons (item : Separator × S) (items : List (Separator × S)) (tail : Text) :
    itemsText c (item :: items) tail =
      item.1.text ++ (Uarch.name item.2 ++ (valueText c item.2 ++ itemsText c items tail)) := by
  rw [itemsText, List.flatMap_cons, itemText, written_eq]
  simp only [List.append_assoc, itemsText]

theorem nextToken_numeral (n : Nat) (h : n < 2 ^ 31) (htext : Delimited text) :
    MicroLexer.nextToken ⟨row, Numerals.numeral 10 n ++ text⟩ = (some (.integer n .UnsignedDec), ⟨row, text⟩) := by
  have hdigits : ∀ c ∈ Numerals.numeral 10 n, c.isDigit = true := fun c hc =>
    Numerals.isDigit_digit (Numerals.isDigit_numeral (by decide) n c hc)
  rw [MicroLexer.nextToken_decimal hdigits (Numerals.numeral_ne_nil n) htext, fromChars,
    Numerals.value_numeral (by decide) (by decide), if_pos h]

/-- The line with one more signal of `c`, read at a place. -/
def Progress.take (p : Progress S) (c : CodeWithEnables S) (s : S) (place : Place) : Progress S where
  code := { p.code with controls := Uarch.set p.code.controls s (c.get s) }
  currentGroup := (place.count s).group
  signalsInGroup := (place.count s).clocks

section Signal

variable [Uarch.Lawful S]

/-- A signal that may stand here is read with its value. -/
theorem signal_accepted {place : Place} (hc : c.Sound) (hon : c.enabled s = true)
    (hplace : p.place.enter (Uarch.signalGroup s) = some place) (hoff : p.code.controls.enabled s = false)
    (htext : Delimited text) : ∃ matched', signal (Uarch.name s) p ⟨matched, [], ⟨row, valueText c s ++ text⟩⟩ =
      .ok (p.take c s place) ⟨matched', [], ⟨row, text⟩⟩ := by
  have henter : ∀ b, enterGroup (Uarch.name s) (Uarch.signalGroup s) p b =
      .ok { p with currentGroup := place.group, signalsInGroup := place.clocks } b := by
    intro b
    rw [enterGroup_eq, hplace]
    rfl
  rw [signal, Uarch.Lawful.parseSignal_name s]
  dsimp only
  rw [bind_apply_ok (henter _)]
  cases hclock : Uarch.isClock s with
  | true =>
    refine ⟨matched, ?_⟩
    rw [if_pos rfl, clockSignal, bind_apply_ok (require_pos hoff), valueText, if_pos hclock, Progress.take, Place.count,
      if_pos hclock, hc.clock s hon hclock]
    rfl
  | false =>
    have hvalue : (c.get s).toNat ≤ 2 ^ Uarch.signalBitSize s - 1 := by
      have := hc.fits s
      omega
    have hnumber := @nextToken_numeral row _ (c.get s).toNat (by omega) htext
    have hequals : Lex.Buffer.fill ⟨matched, [], ⟨row, valueText c s ++ text⟩⟩ =
        (⟨matched, [.literal '='], ⟨row, Numerals.numeral 10 (c.get s).toNat ++ text⟩⟩ : MicroBuffer) := by
      rw [valueText, hclock]
      exact Lex.Buffer.fill_nil (MicroLexer.nextToken_literal (by decide))
    have hfill : ∀ m : List Token, Lex.Buffer.fill ⟨m, [], ⟨row, Numerals.numeral 10 (c.get s).toNat ++ text⟩⟩ =
        (⟨m, [.integer (c.get s).toNat .UnsignedDec], ⟨row, text⟩⟩ : MicroBuffer) :=
      fun m => Lex.Buffer.fill_nil hnumber
    refine ⟨matched ++ [.literal '='] ++ [.integer (c.get s).toNat .UnsignedDec], ?_⟩
    rw [if_neg Bool.false_ne_true, controlSignal, bind_apply_ok (require_pos hoff), bind_apply_ok (expectLiteral_hit hequals),
      bind_apply_ok (matchAs_miss (hfill _) rfl)]
    dsimp only
    rw [bind_apply_ok (matchInteger_hit Lex.Buffer.fill_cons)]
    dsimp only
    rw [bind_apply_ok (require_pos hvalue), Progress.take, Place.count, hclock, if_neg Bool.false_ne_true,
      BitVec.ofNat_toNat, BitVec.setWidth_eq]
    rfl

/-- One that may not is an error. -/
theorem signal_rejected (hplace : p.place.enter (Uarch.signalGroup s) = none) (b : MicroBuffer) :
    ∃ message, signal (Uarch.name s) p b = .error (.error message) b := by
  have henter : enterGroup (Uarch.name s) (Uarch.signalGroup s) p b =
      .error (.error ("Unexpected signal: " ++ String.ofList (Uarch.name s))) b := by
    rw [enterGroup_eq, hplace]
    rfl
  rw [signal, Uarch.Lawful.parseSignal_name s]
  dsimp only
  exact ⟨_, bind_apply_error henter _⟩

end Signal

/-! ## Turns -/

section Following

variable {l : MicroLexer}

theorem turn_empty (hb : b.fill = ⟨matched, [.empty], l⟩) (htype : p.code.type = .Code) :
    turn p b = .ok (.done p.code) ⟨matched ++ [.empty], [], l⟩ := by
  rw [turn_code hb htype fun _ _ => nofun]
  rfl

theorem turn_comment {comment : Text} (hb : b.fill = ⟨matched, [.inlineComment comment], l⟩)
    (htype : p.code.type = .Code) :
    turn p b = .ok (.again { p with code.comment := some comment }) ⟨matched ++ [.inlineComment comment], [], l⟩ := by
  rw [turn_code hb htype fun _ _ => nofun]
  rfl

theorem turn_signal {t : Turn S} {name : Text} {b₁ b₂ : MicroBuffer} (hb : b.fill = ⟨matched, [.identifier name], l⟩)
    (htype : p.code.type = .Code) (hsignal : signal name p ⟨matched ++ [.identifier name], [], l⟩ = .ok q b₁)
    (hsep : separator q b₁ = .ok t b₂) : turn p b = .ok t b₂ := by
  rw [turn_code hb htype fun _ _ => nofun]
  change (signal name p >>= separator) ⟨matched ++ [.identifier name], [], l⟩ = _
  rw [bind_apply_ok hsignal, hsep]

theorem turn_signal_error {name : Text} {e : Failure} {b₁ : MicroBuffer}
    (hb : b.fill = ⟨matched, [.identifier name], l⟩) (htype : p.code.type = .Code)
    (hsignal : signal name p ⟨matched ++ [.identifier name], [], l⟩ = .error e b₁) : turn p b = .error e b₁ := by
  rw [turn_code hb htype fun _ _ => nofun]
  change (signal name p >>= separator) ⟨matched ++ [.identifier name], [], l⟩ = _
  rw [bind_apply_error hsignal]

theorem turn_semicolon (hb : b.fill = ⟨matched, [.literal ';'], l⟩) (htype : p.code.type = .Code) :
    turn p b = if p.currentGroup + 1 < Uarch.maxSignalGroups S then
        .ok (.again { p with currentGroup := p.currentGroup + 1, signalsInGroup := 0 })
          ⟨matched ++ [.literal ';'], [], l⟩
      else .error (.error "Unexpected semicolon") ⟨matched ++ [.literal ';'], [], l⟩ := by
  rw [turn_code hb htype fun _ _ => nofun]
  change (require (p.currentGroup + 1 < Uarch.maxSignalGroups S) "Unexpected semicolon" >>= fun _ =>
    pure (.again { p with currentGroup := p.currentGroup + 1, signalsInGroup := 0 }) : Micro (Turn S))
      ⟨matched ++ [.literal ';'], [], l⟩ = _
  rw [require]
  split <;> rfl

end Following

/-! ## The rest of a line -/

/-- How a line ends: with its comment, if it has one. -/
def tailText (comment : Option Text) (rest : Text) : Text := comment.getD [] ++ '\n' :: rest

/-- The values that the items of a line give to its signals. -/
def assign (c : CodeWithEnables S) (items : List (Separator × S)) (controls : CodeWithEnables S) : CodeWithEnables S :=
  items.foldl (fun controls item => Uarch.set controls item.2 (c.get item.2)) controls

/-- How reading `items` from a place ends: with a line that has their signals and the comment, or in an error. -/
def Reread (c : CodeWithEnables S) (comment : Option Text) (l : MicroLexer) (code : Line S) (place : Place)
    (items : List (Separator × S)) (r : LineResult S) : Prop :=
  match place.readAll items with
  | some _ => ∃ b, r = .ok { code with controls := assign c items code.controls, comment := comment } b ∧ b.lexer = l
  | none => ∃ message b, r = .error (.error message) b

variable {comment : Option Text} {l : MicroLexer} {code : Line S} {place place' : Place} {sep : Separator}
  {items : List (Separator × S)} {r : LineResult S}

theorem Reread.cons {q : Place} (hsep : place.separate S sep = some q)
    (henter : q.enter (Uarch.signalGroup s) = some place')
    (h : Reread c comment l { code with controls := Uarch.set code.controls s (c.get s) } (place'.count s) items r) :
    Reread c comment l code place ((sep, s) :: items) r := by
  rw [Reread, Place.readAll_cons, Place.read, hsep, Option.bind_some, henter, Option.map_some, Option.bind_some]
  exact h

theorem Reread.rejected {message : String} (h : place.readAll items = none) :
    Reread c comment l code place items (.error (.error message) b) := by
  rw [Reread, h]
  exact ⟨message, b, rfl⟩

theorem delimited_tail (hcomment : ∀ x ∈ comment, IsComment x) (rest : Text) : Delimited (tailText comment rest) := by
  cases comment with
  | none => exact delimited_cons rfl
  | some x =>
    obtain ⟨rest', rfl, -⟩ := hcomment x rfl
    exact delimited_cons rfl

theorem delimited_items {tail : Text} (htail : Delimited tail) (hitems : ∀ item ∈ items, item.1 ≠ .nothing) :
    Delimited (itemsText c items tail) := by
  match items with
  | [] => exact htail
  | (.comma, s) :: items => exact delimited_cons rfl
  | (.semicolon, s) :: items => exact delimited_cons rfl
  | (.nothing, s) :: items => exact absurd rfl (hitems _ List.mem_cons_self)

section Run

variable {rest : Text}

/-- What follows a signal is read so, whatever has been matched before. -/
def Follows (c : CodeWithEnables S) (comment : Option Text) (row : Nat) (rest : Text) (p : Progress S)
    (items : List (Separator × S)) : Prop :=
  ∀ matched, ∃ p' b' r,
    separator p ⟨matched, [], ⟨row, itemsText c items (tailText comment rest)⟩⟩ = .ok (.again p') b' ∧
      Loops p' b' r ∧ Reread c comment ⟨row + 1, rest⟩ p.code p.place items r

theorem follows_end (htype : p.code.type = .Code) (hcomment : ∀ x ∈ comment, IsComment x) (hp : p.code.comment = none) :
    Follows c comment row rest p [] := by
  intro matched
  have hempty : ∀ m, Lex.Buffer.fill ⟨m, [], ⟨row, '\n' :: rest⟩⟩ = (⟨m, [.empty], ⟨row + 1, rest⟩⟩ : MicroBuffer) :=
    fun m => Lex.Buffer.fill_nil MicroLexer.nextToken_newline
  cases comment with
  | none =>
    refine ⟨p, _, _, separator_empty (hempty matched), Loops.done Lex.Buffer.fill_cons
      (turn_empty Lex.Buffer.fill_cons htype), ?_⟩
    refine ⟨⟨matched ++ [.empty], [], ⟨row + 1, rest⟩⟩, ?_, rfl⟩
    rw [← hp]
    rfl
  | some x =>
    have hfill : Lex.Buffer.fill ⟨matched, [], ⟨row, x ++ '\n' :: rest⟩⟩ =
        (⟨matched, [.inlineComment x], ⟨row, '\n' :: rest⟩⟩ : MicroBuffer) :=
      Lex.Buffer.fill_nil (MicroLexer.nextToken_comment (hcomment x rfl))
    refine ⟨_, _, _, separator_comment hfill, Loops.done (hempty _) (turn_empty (hempty _) htype), ?_⟩
    exact ⟨_, rfl, rfl⟩

/-- The signals that are still to come are on the written line and not yet on the one that is read. -/
def Pending (c : CodeWithEnables S) (p : Progress S) (items : List (Separator × S)) : Prop :=
  ∀ item ∈ items, c.enabled item.2 = true ∧ p.code.controls.enabled item.2 = false

variable [Uarch.Lawful S]

/-- From the name of a signal on. -/
theorem loops_signal (hc : c.Sound) (hon : c.enabled s = true) (hoff : p.code.controls.enabled s = false)
    (htype : p.code.type = .Code) (htext : Delimited (itemsText c items (tailText comment rest)))
    (hb : b.fill = ⟨matched, [.identifier (Uarch.name s)],
      ⟨row, valueText c s ++ itemsText c items (tailText comment rest)⟩⟩)
    (hfollows : ∀ place, p.place.enter (Uarch.signalGroup s) = some place →
      Follows c comment row rest (p.take c s place) items) :
    ∃ r, Loops p b r ∧ Reread c comment ⟨row + 1, rest⟩ p.code p.place ((.nothing, s) :: items) r := by
  cases henter : p.place.enter (Uarch.signalGroup s) with
  | none =>
    obtain ⟨message, hsignal⟩ := signal_rejected henter ⟨matched ++ [.identifier (Uarch.name s)], [],
      ⟨row, valueText c s ++ itemsText c items (tailText comment rest)⟩⟩
    refine ⟨_, Loops.error hb (turn_signal_error hb htype hsignal) nofun, Reread.rejected ?_⟩
    have hsep : p.place.separate S .nothing = some p.place := rfl
    rw [Place.readAll_cons, Place.read, hsep, Option.bind_some, henter]
    rfl
  | some place =>
    obtain ⟨matched', hsignal⟩ := signal_accepted hc hon henter hoff htext
    obtain ⟨p', b', r, hsep, hloops, hreread⟩ := hfollows place henter matched'
    exact ⟨r, Loops.again hb (turn_signal hb htype hsignal hsep) hloops, Reread.cons rfl henter hreread⟩

theorem Pending.tail {item : Separator × S} (hc : c.Sound) (hnodup : ((item :: items).map Prod.snd).Nodup)
    (h : Pending c p (item :: items)) (place : Place) : Pending c (p.take c item.2 place) items := by
  have hhead := h item List.mem_cons_self
  have hvalue : Uarch.isClock item.2 = true → c.get item.2 ≠ 0 := fun hclock => by
    rw [hc.clock _ hhead.1 hclock]
    decide
  intro item' hmem
  obtain ⟨hon, hoff⟩ := h item' (List.mem_cons_of_mem _ hmem)
  refine ⟨hon, ?_⟩
  have hne : item'.2 ≠ item.2 := by
    intro heq
    refine (List.nodup_cons.mp hnodup).1 ?_
    rw [← heq]
    exact List.mem_map_of_mem hmem
  rw [Progress.take, CodeWithEnables.enabled_set hvalue, if_neg hne, hoff]

/-- The items of a line are read back one after the other. -/
theorem follows (hc : c.Sound) (hcomment : ∀ x ∈ comment, IsComment x) (htype : p.code.type = .Code)
    (hp : p.code.comment = none) (hseps : ∀ item ∈ items, item.1 ≠ .nothing) (hpending : Pending c p items)
    (hnodup : (items.map Prod.snd).Nodup) : Follows c comment row rest p items := by
  induction items generalizing p with
  | nil => exact follows_end htype hcomment hp
  | cons item items ih =>
    obtain ⟨sep, s⟩ := item
    intro matched
    obtain ⟨hon, hoff⟩ := hpending _ List.mem_cons_self
    obtain ⟨hne, hitems⟩ := List.forall_mem_cons.mp hseps
    have htext : Delimited (itemsText c items (tailText comment rest)) :=
      delimited_items (delimited_tail hcomment rest) hitems
    have hname : ∀ m, Lex.Buffer.fill
        ⟨m, [], ⟨row, ' ' :: (Uarch.name s ++ (valueText c s ++ itemsText c items (tailText comment rest)))⟩⟩ =
        (⟨m, [.identifier (Uarch.name s)], ⟨row, valueText c s ++ itemsText c items (tailText comment rest)⟩⟩ :
          MicroBuffer) := by
      intro m
      refine Lex.Buffer.fill_nil (MicroLexer.nextToken_identifier (Uarch.Lawful.isIdentifier_name s) ?_)
      rw [valueText]
      split
      · exact htext
      · exact delimited_cons rfl
    have hnext : ∀ q : Progress S, q.code = p.code → ∀ m, ∃ r, Loops q
        ⟨m, [], ⟨row, ' ' :: (Uarch.name s ++ (valueText c s ++ itemsText c items (tailText comment rest)))⟩⟩ r ∧
        Reread c comment ⟨row + 1, rest⟩ p.code q.place ((.nothing, s) :: items) r := by
      intro q hq m
      rw [← hq] at htype hp hoff ⊢
      have hpending' : Pending c q ((sep, s) :: items) := by rwa [Pending, hq]
      refine loops_signal hc hon hoff htype htext (hname m) fun place _ => ?_
      exact ih htype hp hitems (hpending'.tail hc hnodup place) (List.nodup_cons.mp hnodup).2
    rw [itemsText_cons]
    cases sep with
    | nothing => exact absurd rfl hne
    | comma =>
      obtain ⟨r, hloops, hreread⟩ := hnext p rfl (matched ++ [.literal ','])
      exact ⟨_, _, r, separator_comma (Lex.Buffer.fill_nil (MicroLexer.nextToken_literal (by decide))), hloops, hreread⟩
    | semicolon =>
      have hsemi : Lex.Buffer.fill ⟨matched, [], ⟨row, ';' :: ' ' :: (Uarch.name s ++
          (valueText c s ++ itemsText c items (tailText comment rest)))⟩⟩ = (⟨matched, [.literal ';'],
            ⟨row, ' ' :: (Uarch.name s ++ (valueText c s ++ itemsText c items (tailText comment rest)))⟩⟩ : MicroBuffer) :=
        Lex.Buffer.fill_nil (MicroLexer.nextToken_literal (by decide))
      have hturn := turn_semicolon (S := S) (p := p) (b := ⟨matched, [.literal ';'],
        ⟨row, ' ' :: (Uarch.name s ++ (valueText c s ++ itemsText c items (tailText comment rest)))⟩⟩)
        Lex.Buffer.fill_cons htype
      by_cases hgroup : p.currentGroup + 1 < Uarch.maxSignalGroups S
      · rw [if_pos hgroup] at hturn
        obtain ⟨r, hloops, hreread⟩ := hnext { p with currentGroup := p.currentGroup + 1, signalsInGroup := 0 } rfl
          (matched ++ [.literal ';'])
        refine ⟨_, _, r, separator_semicolon hsemi, Loops.again Lex.Buffer.fill_cons hturn hloops, ?_⟩
        have hsep : p.place.separate S .semicolon = some ⟨p.currentGroup + 1, 0⟩ := if_pos hgroup
        rw [Reread, Place.readAll_cons, Place.read, hsep]
        exact hreread
      · rw [if_neg hgroup] at hturn
        refine ⟨_, _, _, separator_semicolon hsemi, Loops.error Lex.Buffer.fill_cons hturn (by rintro ⟨⟩), Reread.rejected ?_⟩
        have hsep : p.place.separate S .semicolon = none := if_neg hgroup
        rw [Place.readAll_cons, Place.read, hsep]
        rfl

end Run

end Pepp.Ucode
