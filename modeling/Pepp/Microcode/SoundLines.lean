import Pepp.Microcode.Sound

/-!
# Lines as they are read

Each turn of the loop keeps the line well formed and makes progress. A line that
is complete is well formed, whatever the source: only the line itself can be at
fault, never the loop.
-/

namespace Pepp.Ucode

open Outcome

variable {S : Type} [Uarch S]

/-- Signals that are not on the line are zero, clocks on the line are one, and values have their width. -/
structure CodeWithEnables.Sound (c : CodeWithEnables S) : Prop where
  off : ∀ s, c.enabled s = false → c.get s = 0
  clock : ∀ s, c.enabled s = true → Uarch.isClock s = true → c.get s = 1
  fits : ∀ s, (c.get s).toNat < 2 ^ Uarch.signalBitSize s

theorem toNat_cut {width : Nat} (h : width ≤ 8) (value : U8) : (cut width value).toNat = value.toNat % 2 ^ width := by
  have hlt : value.toNat % 2 ^ width < 2 ^ 8 :=
    (Nat.mod_lt _ (Nat.two_pow_pos _)).trans_le (Nat.pow_le_pow_right (by decide) h)
  rw [cut, BitVec.toNat_setWidth, BitVec.toNat_setWidth, Nat.mod_eq_of_lt hlt]

theorem cut_of_lt {width : Nat} {value : U8} (h : width ≤ 8) (hlt : value.toNat < 2 ^ width) :
    cut width value = value := by
  rw [← BitVec.toNat_inj, toNat_cut h, Nat.mod_eq_of_lt hlt]

namespace CodeWithEnables

variable {c : CodeWithEnables S}

theorem sound_empty : ({} : CodeWithEnables S).Sound where
  off _ _ := rfl
  clock _ h := absurd h Bool.false_ne_true
  fits _ := Nat.two_pow_pos _

theorem enabled_enable (s s' : S) : (c.enable s).enabled s' = if s' = s then true else c.enabled s' :=
  Function.update_apply _ _ _ _

theorem get_store (width : Nat) (s s' : S) (value : U8) :
    (c.store width s value).get s' = if s' = s then cut width value else c.get s' :=
  Function.update_apply _ _ _ _

section Lawful

variable [Uarch.Lawful S]

theorem any_iff : c.any = true ↔ ∃ s, c.enabled s = true := by
  rw [any, List.any_eq_true]
  exact ⟨fun ⟨s, _, h⟩ => ⟨s, h⟩, fun ⟨s, h⟩ => ⟨s, Uarch.Lawful.mem_signals s, h⟩⟩

variable {value : U8}

variable {s : S}

theorem enabled_set (h : Uarch.isClock s = true → value ≠ 0) (s' : S) :
    (Uarch.set c s value).enabled s' = if s' = s then true else c.enabled s' := by
  rw [Uarch.Lawful.set_eq c s value h]
  exact enabled_enable s s'

theorem get_set (h : Uarch.isClock s = true → value ≠ 0) (s' : S) :
    (Uarch.set c s value).get s' = if s' = s then cut (Uarch.signalBitSize s) value else c.get s' := by
  rw [Uarch.Lawful.set_eq c s value h]
  exact get_store _ s s' value

theorem Sound.set (hc : c.Sound) (h : Uarch.isClock s = true → value = 1) :
    (Uarch.set c s value).Sound where
  off s' hoff := by
    rw [enabled_set (fun hs => by rw [h hs]; decide)] at hoff
    rw [get_set (fun hs => by rw [h hs]; decide)]
    split at hoff
    · exact nomatch hoff
    · next hne => rw [if_neg hne, hc.off s' hoff]
  clock s' hon hclock := by
    rw [enabled_set (fun hs => by rw [h hs]; decide)] at hon
    rw [get_set (fun hs => by rw [h hs]; decide)]
    split at hon
    · next heq =>
      subst heq
      rw [if_pos rfl, h hclock, cut_of_lt (Uarch.Lawful.signalBitSize_le s')]
      exact Nat.one_lt_two_pow (Uarch.Lawful.signalBitSize_pos s').ne'
    · next hne => rw [if_neg hne, hc.clock s' hon hclock]
  fits s' := by
    rw [get_set (fun hs => by rw [h hs]; decide)]
    split
    · next heq =>
      subst heq
      rw [toNat_cut (Uarch.Lawful.signalBitSize_le s')]
      exact Nat.mod_lt _ (Nat.two_pow_pos _)
    · exact hc.fits s'

end Lawful

theorem Sound.enable (hc : c.Sound) {s : S} (h : Uarch.isClock s = false) : (c.enable s).Sound where
  off s' hoff := by
    rw [enabled_enable] at hoff
    split at hoff
    · exact nomatch hoff
    · exact hc.off s' hoff
  clock s' hon hclock := by
    rw [enabled_enable] at hon
    split at hon
    · next heq => rw [heq, h] at hclock; exact absurd hclock Bool.false_ne_true
    · exact hc.clock s' hon hclock
  fits := hc.fits

end CodeWithEnables

/-- What holds of every line the parser makes. -/
structure Line.Sound (line : Line S) : Prop where
  controls : line.controls.Sound
  comment : ∀ comment ∈ line.comment, IsComment comment
  symbolDecl : ∀ name ∈ line.symbolDecl, IsSymbol name ∧ Uarch.allowsSymbols S = true
  deferred : ∀ s, line.deferredValues s ≠ none → line.controls.enabled s = true ∧ Uarch.isClock s = false
  tests : ∀ t ∈ line.tests, t.Sound
  code : line.type = .Code → line.tests = []
  test : line.type ≠ .Code → line.controls = {} ∧ line.symbolDecl = none
  address : line.address = -1

/-- What holds between two turns: a symbol that has no signal yet is about to get one. -/
structure Progress.Sound (p : Progress S) (b : MicroBuffer) : Prop where
  line : p.code.Sound
  fresh : b.matched = [] → p.code = {}
  pending : p.code.symbolDecl ≠ none → p.code.controls.any = false → ∃ name, b.ahead.head? = some (.identifier name)

theorem Line.sound_empty : ({} : Line S).Sound where
  controls := CodeWithEnables.sound_empty
  comment _ h := absurd h (Option.not_mem_none _)
  symbolDecl _ h := absurd h (Option.not_mem_none _)
  deferred _ h := absurd rfl h
  tests _ h := absurd h List.not_mem_nil
  code _ := rfl
  test _ := ⟨rfl, rfl⟩
  address := rfl

theorem Progress.sound_start (l : MicroLexer) : ({} : Progress S).Sound (.ofLexer l) where
  line := Line.sound_empty
  fresh _ := rfl
  pending h := absurd rfl h

/-! ## Turns -/

/-- A line whose symbol, if it has one, has a signal to stand for. -/
def Line.Kept (line : Line S) : Prop := line.Sound ∧ (line.symbolDecl ≠ none → line.controls.any = true)

def Turn.Kept : Turn S → Prop
  | .again p => p.code.Kept
  | .done line => line.Kept

variable {line : Line S} {t : Turn S} {p : Progress S} {b : MicroBuffer}

theorem Line.Sound.withComment (h : line.Sound) {t : Token} {comment : Text} (ht : t.Lexical)
    (hcomment : t = .inlineComment comment) : ({ line with comment := some comment } : Line S).Sound where
  controls := h.controls
  comment c hc := by
    subst hcomment
    rw [← Option.some.inj hc]
    exact ht
  symbolDecl := h.symbolDecl
  deferred := h.deferred
  tests := h.tests
  code := h.code
  test := h.test
  address := h.address

theorem reads_advance_kept {R : Turn S → Prop} (hR : ¬R t) (h : t.Kept) :
    Reads (advance >>= fun _ => pure t) R fun t _ => t.Kept :=
  reads_seq reads_advance fun _ _ => reads_pure (fun hr => hR hr.1) fun _ => h

/-- At the end of the input, go on; elsewhere, fail. -/
theorem reads_ending {R : Turn S → Prop} {message : String} (hR : ¬R t) (h : t.Kept) :
    Reads (inputRemains >>= fun more => if more = true then fail message else pure t) R fun t _ => t.Kept := by
  refine reads_seq reads_inputRemains fun more _ => ?_
  split
  · exact reads_fail
  · exact reads_pure (fun hr => hR hr.1) fun _ => h

theorem reads_separator (hp : p.code.Kept) : Reads (separator p) (fun _ => False) fun t _ => t.Kept := by
  refine reads_seq reads_peek fun next ⟨_, _, hnext⟩ => ?_
  split
  · next comment =>
    exact reads_advance_kept (by simp) ⟨hp.1.withComment (hnext _ rfl) rfl, hp.2⟩
  · exact reads_pure (by simp) fun _ => hp
  · exact reads_advance_kept (by simp) hp
  · exact reads_pure (by simp) fun _ => hp
  · exact reads_ending (by simp) hp

theorem reads_testTurn (hp : p.code.Sound) (htype : p.code.type ≠ .Code) :
    Reads (testTurn p) (fun _ => True) fun t _ => t.Kept := by
  refine reads_seq reads_test fun t ⟨_, ht⟩ => ?_
  have hadd : ({ p.code with tests := p.code.tests ++ [t] } : Line S).Kept := by
    refine ⟨⟨hp.controls, hp.comment, hp.symbolDecl, hp.deferred, ?_, fun h => absurd h htype, hp.test, hp.address⟩, ?_⟩
    · exact List.forall_mem_append.mpr ⟨hp.tests, List.forall_mem_singleton.mpr ht⟩
    · exact fun hsym => absurd (hp.test htype).2 hsym
  refine reads_seq reads_peek fun next ⟨_, _, hnext⟩ => ?_
  split
  · exact reads_advance_kept (by simp) hadd
  · exact reads_advance_kept (by simp) hadd
  · next comment =>
    exact reads_advance_kept (by simp) ⟨hadd.1.withComment (hnext _ rfl) rfl, hadd.2⟩
  · exact reads_ending (by simp) hadd

/-- What a turn leaves behind. -/
def Turn.Leaves (t : Turn S) (b : MicroBuffer) : Prop :=
  match t with
  | .again p => p.Sound b
  | .done line => line.Kept

/-- After progress, a line whose symbol has its signal is all that matters. -/
theorem Turn.Kept.leaves {b b' : MicroBuffer} (h : t.Kept) (hpast : Past b b') : t.Leaves b' := by
  match t with
  | .again p =>
    refine ⟨h.1, fun hfresh => absurd hfresh hpast.matched, fun hsym hany => ?_⟩
    exact absurd (h.2 hsym) (by rw [hany]; decide)
  | .done line => exact h

theorem meets_leaves {x : Micro (Turn S)} (h : Meets x b (Ends b (fun _ => True) fun t _ => t.Kept)) :
    Meets x b (Ends b (fun _ => True) Turn.Leaves) := by
  refine h.mono fun r b' hend => ⟨hend.1, hend.2.1, ?_⟩
  match r, hend.2.2 with
  | .error e, he => exact he
  | .ok t, ht => exact ⟨ht.1.leaves (ht.2 trivial), ht.2⟩

/-- A symbol that still waits for its signal is followed by an identifier. -/
theorem Progress.Sound.kept (hp : p.Sound b) (h : ∀ name, b.ahead.head? ≠ some (.identifier name)) : p.code.Kept := by
  refine ⟨hp.line, fun hsym => ?_⟩
  by_contra hany
  obtain ⟨name, hname⟩ := hp.pending hsym (by simpa using hany)
  exact h name hname

/-- A symbol waits for the identifier that comes next. -/
theorem meets_symbol {name : Text} (hb : Clean b) (hp : p.code.Sound) (htype : p.code.type = .Code)
    (hnext : b.ahead.head? = some (.symbolDeclaration name)) :
    Meets (codeTurn b.matched.isEmpty (some (.symbolDeclaration name)) p) b (Ends b (fun _ => True) Turn.Leaves) := by
  obtain ⟨symbol, rfl, hsymbol⟩ : (Token.symbolDeclaration name).Lexical := hb _ (List.mem_of_mem_head? hnext)
  -- What holds before the token is matched; that one is matched makes the line no longer fresh.
  have hwaits : Meets (codeTurn b.matched.isEmpty (some (.symbolDeclaration (symbol ++ [':']))) p) b
      (Ends b (fun _ => True) fun t b' => ∃ p', t = .again p' ∧ p'.code.Sound ∧
        ∃ name, b'.ahead.head? = some (.identifier name)) := by
    refine meets_advance hb hnext (reads_seq reads_require fun _ ⟨_, hallows⟩ => ?_)
    refine reads_bind reads_peek fun next b' hpeek hb' => ?_
    split
    · next found hfound =>
      refine meets_pure ⟨hb', .refl b', ⟨_, rfl, ⟨hp.controls, hp.comment, fun name hname => ?_, hp.deferred, hp.tests,
        hp.code, fun hne => absurd htype hne, hp.address⟩, ?_⟩, by simp⟩
      · rw [← Option.some.inj hname, List.dropLast_concat]
        exact ⟨hsymbol, hallows⟩
      · obtain ⟨t, ht, htoken⟩ := Option.bind_eq_some_iff.mp hfound
        match t, htoken with
        | .identifier name, _ => exact ⟨name, hpeek.1 ▸ ht⟩
    · exact reads_fail b' hb'
  refine hwaits.mono fun r b' hend => ⟨hend.1, hend.2.1, ?_⟩
  match r, hend.2.2 with
  | .error e, he => exact he
  | .ok t, ht =>
    obtain ⟨⟨p', rfl, hsound, hident⟩, hpast⟩ := ht
    exact ⟨⟨hsound, fun hfresh => absurd hfresh (hpast trivial).matched, fun _ _ => hident⟩, hpast⟩

theorem codeTurn_literal {first : Bool} {c : Char} (h : c ≠ ';') :
    codeTurn first (some (.literal c)) p = unexpected (.literal c) := by
  unfold codeTurn
  split <;> simp_all

variable [Uarch.Lawful S]

theorem Line.Sound.withSignal (h : line.Sound) (htype : line.type = .Code) {s : S} {value : U8}
    (hclock : Uarch.isClock s = true → value = 1) :
    ({ line with controls := Uarch.set line.controls s value } : Line S).Kept := by
  have hne : Uarch.isClock s = true → value ≠ 0 := fun hs => by rw [hclock hs]; decide
  refine ⟨⟨h.controls.set hclock, h.comment, h.symbolDecl, fun s' hs' => ?_, h.tests, h.code,
    fun hne => absurd htype hne, h.address⟩, fun _ => ?_⟩
  · obtain ⟨hon, hs⟩ := h.deferred s' hs'
    refine ⟨?_, hs⟩
    rw [CodeWithEnables.enabled_set hne, hon, ite_self]
  · exact CodeWithEnables.any_iff.mpr ⟨s, by rw [CodeWithEnables.enabled_set hne, if_pos rfl]⟩

theorem Line.Sound.withSymbol (h : line.Sound) (htype : line.type = .Code) {s : S} {symbol : Text}
    (hclock : Uarch.isClock s = false) :
    ({ line with
      controls := line.controls.enable s
      deferredValues := Function.update line.deferredValues s (some symbol) } : Line S).Kept := by
  refine ⟨⟨h.controls.enable hclock, h.comment, h.symbolDecl, fun s' hs' => ?_, h.tests, h.code,
    fun hne => absurd htype hne, h.address⟩, fun _ => ?_⟩
  · rw [CodeWithEnables.enabled_enable]
    by_cases heq : s' = s
    · rw [if_pos heq, heq]
      exact ⟨rfl, hclock⟩
    · rw [if_neg heq]
      dsimp only at hs'
      rw [Function.update_of_ne heq] at hs'
      exact h.deferred s' hs'
  · exact CodeWithEnables.any_iff.mpr ⟨s, by rw [CodeWithEnables.enabled_enable, if_pos rfl]⟩

theorem reads_signal (hp : p.code.Sound) (htype : p.code.type = .Code) (name : Text) :
    Reads (signal name p) (fun _ => False) fun p' _ => p'.code.Kept := by
  rw [signal]
  split
  · exact reads_fail
  · next s _ =>
    have henter : Reads (enterGroup name (Uarch.signalGroup s) p) (fun _ => False) fun p' _ => p'.code = p.code := by
      rw [enterGroup]
      split_ifs
      · exact reads_pure id fun _ => rfl
      · exact reads_pure id fun _ => rfl
      · exact reads_fail
    refine reads_seq henter ?_
    rintro p' ⟨_, hp'⟩
    rw [← hp'] at hp htype
    split
    · refine reads_seq reads_require fun _ _ => reads_pure (by simp) fun _ => ?_
      exact hp.withSignal htype fun _ => rfl
    · next hclock =>
      have hclock : Uarch.isClock s = false := by simpa using hclock
      refine reads_seq reads_require fun _ _ => ?_
      refine reads_seq reads_expectLiteral fun _ _ => ?_
      refine reads_seq (reads_matchAs _) fun found _ => ?_
      cases found with
      | some symbol =>
        refine reads_seq reads_require fun _ _ => reads_pure (by simp) fun _ => ?_
        exact hp.withSymbol htype hclock
      | none =>
        refine reads_seq (reads_matchAs _) fun value _ => ?_
        split
        · refine reads_seq reads_require fun _ _ => reads_pure (by simp) fun _ => ?_
          exact hp.withSignal htype fun h => absurd h (by rw [hclock]; decide)
        · exact reads_fail

theorem meets_codeTurn (hb : Clean b) (hp : p.Sound b) (htype : p.code.type = .Code) :
    Meets (codeTurn b.matched.isEmpty b.ahead.head? p) b (Ends b (fun _ => True) Turn.Leaves) := by
  have hfirst : b.matched.isEmpty = true → ∀ type, ({ p.code with type := type } : Line S).Kept := by
    intro hempty type
    rw [hp.fresh (List.isEmpty_iff.mp hempty)]
    have hsound := Line.sound_empty (S := S)
    exact ⟨⟨hsound.controls, hsound.comment, hsound.symbolDecl, hsound.deferred, hsound.tests, fun _ => rfl,
      fun _ => ⟨rfl, rfl⟩, hsound.address⟩, fun h => absurd rfl h⟩
  match hnext : b.ahead.head? with
  | none => exact meets_throw ⟨hb, .refl b, nofun⟩
  | some .unitPre =>
    rw [codeTurn]
    split
    · next h => exact meets_leaves (meets_advance hb hnext (reads_pure id fun _ => hfirst h .Pre))
    · exact reads_fail b hb
  | some .unitPost =>
    rw [codeTurn]
    split
    · next h => exact meets_leaves (meets_advance hb hnext (reads_pure id fun _ => hfirst h .Post))
    · exact reads_fail b hb
  | some (.symbolDeclaration name) =>
    exact meets_symbol hb hp.line htype hnext
  | some (.literal c) =>
    by_cases hc : c = ';'
    · subst hc
      have hkept := hp.kept fun name h => by rw [hnext] at h; exact nomatch h
      refine meets_leaves (meets_advance hb hnext (reads_seq reads_require fun _ _ => ?_))
      exact reads_pure (by simp) fun _ => hkept
    · rw [codeTurn_literal hc]
      exact reads_fail b hb
  | some (.identifier name) =>
    refine meets_leaves (meets_advance hb hnext (reads_seq (reads_signal hp.line htype name) fun p' ⟨_, hp'⟩ => ?_))
    exact (reads_separator hp').mono (by simp) fun _ _ h => h
  | some (.inlineComment comment) =>
    have hkept := hp.kept fun name h => by rw [hnext] at h; exact nomatch h
    have hlex := hb (.inlineComment comment) (List.mem_of_mem_head? hnext)
    refine meets_leaves (meets_advance hb hnext (reads_pure id fun _ => ?_))
    exact ⟨hkept.1.withComment hlex rfl, hkept.2⟩
  | some .empty =>
    have hkept := hp.kept fun name h => by rw [hnext] at h; exact nomatch h
    exact meets_leaves (meets_advance hb hnext (reads_pure id fun _ => hkept))
  | some (.invalid content) => exact reads_fail b hb
  | some (.integer value format) => exact reads_fail b hb
  | some (.lineNumber line) => exact reads_fail b hb

theorem meets_turn (hb : Clean b) (hp : p.Sound b) : Meets (turn p) b (Ends b (fun _ => True) Turn.Leaves) := by
  obtain ⟨hclean, hlater, hmatched⟩ := fill_spec hb
  have hfill : p.Sound b.fill := by
    refine ⟨hp.line, fun h => hp.fresh (hmatched ▸ h), fun hsym hany => ?_⟩
    obtain ⟨name, hname⟩ := hp.pending hsym hany
    obtain ⟨m, ahead, l⟩ := b
    cases ahead with
    | nil => cases hname
    | cons t ahead => exact ⟨name, hname⟩
  refine meets_bind (meets_get (meets_pure (meets_bind (meets_modifyGet ?_))))
  rw [← hmatched]
  -- The turn after the two looks at the buffer.
  refine Meets.mono (Q := Ends b.fill (fun _ => True) Turn.Leaves) ?_ fun r b' hend =>
    ⟨hend.1, hlater.trans hend.2.1, ?_⟩
  · split
    · next hfirst hnext =>
      have hcode : p.code.Kept := by
        rw [hfill.fresh (List.isEmpty_iff.mp hfirst)]
        exact ⟨Line.sound_empty, fun h => absurd rfl h⟩
      exact meets_leaves (meets_advance hclean hnext (reads_pure id fun _ => hcode))
    · split
      · next htype => exact meets_codeTurn hclean hfill htype
      · next htype => exact meets_leaves (reads_testTurn hp.line htype b.fill hclean)
  · cases r with
    | error e => exact hend.2.2
    | ok t => exact ⟨hend.2.2.1, fun h => hlater.past (hend.2.2.2 h)⟩

/-- With a turn for everything that is left the loop ends in a well-formed line or in an error of the source. -/
theorem meets_lineLoop {turns : Nat} (hb : Clean b) (hp : p.Sound b) (hturns : size b < turns) :
    Meets (lineLoop turns p) b (Ends b (fun _ => False) fun line _ => line.Kept) := by
  induction turns generalizing p b with
  | zero => exact absurd hturns (Nat.not_lt_zero _)
  | succ turns ih =>
    rw [lineLoop]
    refine meets_bind (meets_get (meets_pure ?_))
    dsimp only
    split
    · refine meets_bind ((meets_turn hb hp).mono fun r b' hend => ?_)
      match r, hend with
      | .error e, hend => exact hend
      | .ok (.done line), hend => exact meets_pure ⟨hend.1, hend.2.1, hend.2.2.1, False.elim⟩
      | .ok (.again p), hend =>
        have hlt := (hend.2.2.2 trivial).size_lt
        refine (ih hend.1 hend.2.2.1 (by omega)).mono fun r b'' hend' => ⟨hend'.1, hend.2.1.trans hend'.2.1, ?_⟩
        match r, hend'.2.2 with
        | .error e, he => exact he
        | .ok line, hline => exact ⟨hline.1, False.elim⟩
    · next hempty =>
      refine meets_pure ⟨hb, .refl b, hp.kept fun name hname => hempty ?_, False.elim⟩
      match b, hname with
      | ⟨_, _ :: _, _⟩, _ => rfl

/-- The loop of `nextLine` has turns enough, and a line that it completes is well formed. -/
theorem nextLine_spec (l : MicroLexer) :
    (nextLine (S := S) l).2.rest.length ≤ l.rest.length ∧
      match (nextLine (S := S) l).1 with
      | .ok line => line.Kept
      | .error e => e ≠ .exhausted := by
  have hsize : size (.ofLexer l) < l.rest.length + 1 := by simp [size, Lex.Buffer.ofLexer]
  have hmeets := meets_lineLoop (b := .ofLexer l) (fun t ht => absurd ht List.not_mem_nil)
    (Progress.sound_start (S := S) l) hsize
  rw [nextLine]
  split
  · next line b' hrun => exact ⟨(hmeets.ok hrun).2.1.lexer_le, (hmeets.ok hrun).2.2.1⟩
  · next e b' hrun => exact ⟨(hmeets.error hrun).2.1.lexer_le, (hmeets.error hrun).2.2⟩

end Pepp.Ucode
