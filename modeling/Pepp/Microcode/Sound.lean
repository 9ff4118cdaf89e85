import Pepp.Microcode.Lexemes
import Pepp.Microcode.Parser

/-!
# Well-formed lines

Whatever the parser does to its buffer, the tokens in it have the form of their
kinds, and no more of the source is left than before. A program makes progress
when less is left. As every turn of the loop that goes on makes progress, the
loop never runs out of turns.
-/

namespace Pepp.Ucode

open Outcome

variable {α β : Type}

def Clean (b : MicroBuffer) : Prop := ∀ t ∈ b.ahead, t.Lexical

/-- Tokens that wait, and characters that are not read yet. -/
def size (b : MicroBuffer) : Nat := b.ahead.length + b.lexer.rest.length

/-- No more is left at `b'` than at `b`, and what is matched stays matched. -/
structure Later (b b' : MicroBuffer) : Prop where
  size_le : size b' ≤ size b
  matched : b.matched ≠ [] → b'.matched ≠ []
  lexer_le : b'.lexer.rest.length ≤ b.lexer.rest.length

/-- A token has been matched between `b` and `b'`. -/
structure Past (b b' : MicroBuffer) : Prop where
  size_lt : size b' < size b
  matched : b'.matched ≠ []

theorem Later.refl (b : MicroBuffer) : Later b b := ⟨Nat.le_refl _, id, Nat.le_refl _⟩

variable {b b₁ b₂ : MicroBuffer}

theorem Later.trans (h : Later b b₁) (h' : Later b₁ b₂) : Later b b₂ :=
  ⟨h'.size_le.trans h.size_le, h'.matched ∘ h.matched, h'.lexer_le.trans h.lexer_le⟩

theorem Past.later (h : Past b b₁) (h' : Later b₁ b₂) : Past b b₂ :=
  ⟨Nat.lt_of_le_of_lt h'.size_le h.size_lt, h'.matched h.matched⟩

theorem Later.past (h : Later b b₁) (h' : Past b₁ b₂) : Past b b₂ :=
  ⟨Nat.lt_of_lt_of_le h'.size_lt h.size_le, h'.matched⟩

/-- How a program that starts at `b` ends: results in `R` have made progress. -/
def Ends (b : MicroBuffer) (R : α → Prop) (Q : α → MicroBuffer → Prop) (r : Except Failure α) (b' : MicroBuffer) : Prop :=
  Clean b' ∧ Later b b' ∧
    match r with
    | .ok a => Q a b' ∧ (R a → Past b b')
    | .error e => e ≠ .exhausted

def Reads (x : Micro α) (R : α → Prop) (Q : α → MicroBuffer → Prop) : Prop :=
  ∀ b, Clean b → Meets x b (Ends b R Q)

variable {R : α → Prop} {P : β → Prop} {Q : α → MicroBuffer → Prop} {T : β → MicroBuffer → Prop}

theorem Reads.mono {R' : α → Prop} {Q' : α → MicroBuffer → Prop} {x : Micro α} (h : Reads x R Q)
    (hR : ∀ a, R' a → R a) (hQ : ∀ a b', Q a b' → Q' a b') : Reads x R' Q' := by
  intro b hb
  refine (h b hb).mono fun r b' hend => ⟨hend.1, hend.2.1, ?_⟩
  match r, hend.2.2 with
  | .ok a, ha => exact ⟨hQ _ _ ha.1, fun hr => ha.2 (hR _ hr)⟩
  | .error e, he => exact he

theorem reads_pure {a : α} (hR : ¬R a) (hQ : ∀ b', Q a b') : Reads (pure a) R Q := fun b hb =>
  meets_pure ⟨hb, .refl b, hQ b, fun hr => absurd hr hR⟩

theorem reads_fail {message : String} : Reads (fail message : Micro α) R Q := fun _ hb =>
  meets_throw ⟨hb, .refl _, nofun⟩

/-- What has made progress once need not make it again. -/
theorem reads_bind {x : Micro β} {f : β → Micro α} (hx : Reads x P T)
    (hf : ∀ a b', T a b' → Clean b' → Meets (f a) b' (Ends b' (fun r => R r ∧ ¬P a) Q)) : Reads (x >>= f) R Q := by
  intro b hb
  refine meets_bind ((hx b hb).mono fun r b' hend => ?_)
  obtain ⟨hclean, hle, hend⟩ := hend
  match r, hend with
  | .error e, he => exact ⟨hclean, hle, he⟩
  | .ok a, ha =>
    refine (hf a b' ha.1 hclean).mono fun r' b'' hend' => ⟨hend'.1, hle.trans hend'.2.1, ?_⟩
    match r', hend'.2.2 with
    | .error e, he => exact he
    | .ok a', ha' =>
      refine ⟨ha'.1, fun hr => ?_⟩
      by_cases hp : P a
      · exact (ha.2 hp).later hend'.2.1
      · exact hle.past (ha'.2 ⟨hr, hp⟩)

/-- A program whose continuation does not look at the buffer. -/
theorem reads_seq {x : Micro β} {f : β → Micro α} (hx : Reads x P T)
    (hf : ∀ a, (∃ b, T a b) → Reads (f a) (fun r => R r ∧ ¬P a) Q) : Reads (x >>= f) R Q :=
  reads_bind hx fun a b hT => hf a ⟨b, hT⟩ b

theorem reads_require {condition : Prop} [Decidable condition] {message : String} :
    Reads (require condition message) (fun _ => False) fun _ _ => condition := by
  rw [require]
  split
  · next h => exact reads_pure id fun _ => h
  · exact reads_fail

/-! ## The buffer -/

theorem fill_spec {b : MicroBuffer} (hb : Clean b) : Clean b.fill ∧ Later b b.fill ∧ b.fill.matched = b.matched := by
  match b with
  | ⟨matched, t :: ahead, l⟩ => exact ⟨hb, .refl _, rfl⟩
  | ⟨matched, [], l⟩ =>
    match hnext : l.nextToken with
    | (some t, l') =>
      have hfill : Lex.Buffer.fill ⟨matched, [], l⟩ = (⟨matched, [t], l'⟩ : MicroBuffer) := Lex.Buffer.fill_nil hnext
      rw [hfill]
      have hlt := MicroLexer.nextToken_length hnext
      refine ⟨List.forall_mem_singleton.mpr (MicroLexer.nextToken_lexical hnext), ⟨?_, id, hlt.le⟩, rfl⟩
      simp only [size, List.length_cons, List.length_nil]
      omega
    | (none, l') =>
      have hfill : Lex.Buffer.fill ⟨matched, [], l⟩ = (⟨matched, [], l'⟩ : MicroBuffer) := by
        simp only [Lex.Buffer.fill, Lex.ALexer.nextToken, hnext]
      rw [hfill]
      have hle := MicroLexer.nextToken_none hnext
      refine ⟨fun t ht => absurd ht List.not_mem_nil, ⟨?_, id, hle⟩, rfl⟩
      simp only [size, List.length_nil]
      omega

/-- Matching the token that waits. -/
theorem past_match (matched ahead : List Token) (l : MicroLexer) (t : Token) :
    Past ⟨matched, t :: ahead, l⟩ ⟨matched ++ [t], ahead, l⟩ := by
  refine ⟨?_, by simp⟩
  simp only [size, List.length_cons]
  omega

theorem later_match (matched ahead : List Token) (l : MicroLexer) (t : Token) :
    Later ⟨matched, t :: ahead, l⟩ ⟨matched ++ [t], ahead, l⟩ :=
  ⟨(past_match matched ahead l t).size_lt.le, fun _ => (past_match matched ahead l t).matched, Nat.le_refl _⟩

theorem reads_peek : Reads peek (fun _ => False) fun next b => next = b.ahead.head? ∧ ∀ t ∈ next, t.Lexical := by
  intro b hb
  obtain ⟨hclean, hlater, -⟩ := fill_spec hb
  exact ⟨hclean, hlater, ⟨rfl, fun t ht => hclean t (List.mem_of_mem_head? ht)⟩, False.elim⟩

theorem reads_inputRemains : Reads inputRemains (fun _ => False) fun _ _ => True := fun b hb =>
  meets_get (meets_pure ⟨hb, .refl b, trivial, False.elim⟩)

theorem reads_advance : Reads advance (fun _ => False) fun _ _ => True := by
  intro b hb
  obtain ⟨hclean, hlater, -⟩ := fill_spec hb
  refine meets_modify ?_
  rw [Lex.Buffer.advance]
  split
  · next matched t ahead l hfill =>
    rw [hfill] at hclean hlater
    refine ⟨fun t ht => hclean t (List.mem_cons_of_mem _ ht), ?_, trivial, False.elim⟩
    exact hlater.trans (later_match matched ahead l t)
  · next hfill =>
    rw [hfill] at hclean hlater
    exact ⟨hclean, hlater, trivial, False.elim⟩

/-- Taking a token that waits is progress. -/
theorem meets_advance {b : MicroBuffer} {t : Token} (hb : Clean b) (ht : b.ahead.head? = some t) {f : Unit → Micro α}
    (hf : Reads (f ()) (fun _ => False) Q) : Meets (advance >>= f) b (Ends b R Q) := by
  obtain ⟨matched, ahead, l⟩ := b
  match ahead, ht with
  | _ :: ahead, rfl =>
    have hclean : Clean ⟨matched ++ [t], ahead, l⟩ := fun t ht => hb t (List.mem_cons_of_mem _ ht)
    have hpast := past_match matched ahead l t
    refine meets_bind (meets_modify ?_)
    refine (hf ⟨matched ++ [t], ahead, l⟩ hclean).mono fun r b' hend => ⟨hend.1, (later_match matched ahead l t).trans hend.2.1, ?_⟩
    match r, hend.2.2 with
    | .error e, he => exact he
    | .ok a, ha => exact ⟨ha.1, fun _ => hpast.later hend.2.1⟩

theorem reads_matchAs (kind : Token → Option α) :
    Reads (matchAs kind) (fun found => found.isSome = true)
      fun found _ => ∀ a ∈ found, ∃ t : Token, t.Lexical ∧ kind t = some a := by
  intro b hb
  obtain ⟨hclean, hlater, -⟩ := fill_spec hb
  refine meets_modifyGet ?_
  rw [Lex.Buffer.matchAs]
  split
  · next matched t ahead l hfill =>
    rw [hfill] at hclean hlater
    have hpast := hlater.past (past_match matched ahead l t)
    split
    · next a ha =>
      refine ⟨fun t ht => hclean t (List.mem_cons_of_mem _ ht), hlater.trans (later_match matched ahead l t),
        fun a' ha' => ?_, fun _ => hpast⟩
      rw [← Option.some.inj ha']
      exact ⟨t, hclean t List.mem_cons_self, ha⟩
    · exact ⟨hclean, hlater, fun a ha => absurd ha (Option.not_mem_none a), nofun⟩
  · next hfill =>
    rw [hfill] at hclean hlater
    exact ⟨hclean, hlater, fun a ha => absurd ha (Option.not_mem_none a), nofun⟩

end Pepp.Ucode

/-! ## Well-formed lines

What every architecture has in common, and what holds of a line as it is read:
its signals have values of their width, its clocks are set, its symbol and its
comment have the form the lexer gives them, and its tests are in range. -/

namespace Pepp.Ucode

/-- The width of a bit field cuts the value that is stored. -/
def cut (width : Nat) (value : U8) : U8 := (value.setWidth width).setWidth 8

/-- What the three architectures have in common. -/
class Uarch.Lawful (S : Type) [Uarch S] : Prop where
  mem_signals : ∀ s : S, s ∈ Uarch.signals
  signalBitSize_pos : ∀ s : S, 0 < Uarch.signalBitSize s
  signalBitSize_le : ∀ s : S, Uarch.signalBitSize s ≤ 8
  isIdentifier_name : ∀ s : S, IsIdentifier (Uarch.name s)
  parseSignal_name : ∀ s : S, parseSignal (Uarch.name s) = some s
  set_eq : ∀ (c : CodeWithEnables S) (s : S) (value : U8), (Uarch.isClock s = true → value ≠ 0) →
    Uarch.set c s value = (c.enable s).store (Uarch.signalBitSize s) s value

theorem setClocked_eq {S : Type} [DecidableEq S] {isClock : S → Bool} {bitSize : S → Nat} {c : CodeWithEnables S} {s : S}
    {value : U8} (h : isClock s = true → value ≠ 0) :
    c.setClocked isClock bitSize s value = (c.enable s).store (bitSize s) s value := by
  have hset : (!(isClock s && value == 0)) = true := by
    cases hclock : isClock s
    · rfl
    · simpa using h hclock
  rw [CodeWithEnables.setClocked, hset]
  rfl

/-- A decidable form of `IsIdentifier`, for the names of signals. -/
theorem isIdentifier_of_all {name : Text} (h : ((name.head?.map isIdentifierStart).getD false &&
    name.tail.all isIdentifierRest) = true) : IsIdentifier name := by
  match name with
  | [] => exact absurd h (by decide)
  | c :: rest =>
    obtain ⟨hc, hrest⟩ := (Bool.and_eq_true _ _).mp h
    exact ⟨c, rest, rfl, hc, List.all_eq_true.mp hrest⟩

instance : Uarch.Lawful Pep9ByteBus.Signals where
  mem_signals s := by cases s <;> decide
  signalBitSize_pos s := by cases s <;> decide
  signalBitSize_le s := by cases s <;> decide
  isIdentifier_name s := isIdentifier_of_all (by cases s <;> decide)
  parseSignal_name s := by cases s <;> decide
  set_eq _ _ _ := setClocked_eq

instance : Uarch.Lawful Pep9WordBus.Signals where
  mem_signals s := by cases s <;> decide
  signalBitSize_pos s := by cases s <;> decide
  signalBitSize_le s := by cases s <;> decide
  isIdentifier_name s := isIdentifier_of_all (by cases s <;> decide)
  parseSignal_name s := by cases s <;> decide
  set_eq _ _ _ := setClocked_eq

instance : Uarch.Lawful Pep9WordBusControl.Signals where
  mem_signals s := by cases s <;> decide
  signalBitSize_pos s := by cases s <;> decide
  signalBitSize_le s := by cases s <;> decide
  isIdentifier_name s := isIdentifier_of_all (by cases s <;> decide)
  parseSignal_name s := by cases s <;> decide
  set_eq _ _ _ _ := rfl

/-! ## Tests -/

/-- A test as the parser makes it: a word of memory has a high byte, and a register holds its value. -/
def Test.Sound : Test → Prop
  | .mem t => t.size = 1 ∧ t.value.2 = 0 ∨ t.size = 2 ∧ t.value.1 ≠ 0
  | .register t => t.value.toNat < 2 ^ (8 * t.reg.byteSize)
  | .csr _ => True

theorem sound_memTest (address value : Nat) (h : value ≤ 0xFFFF) :
    Test.Sound (.mem (if value < 256 then .ofByte (.ofNat 16 address) (.ofNat 8 value)
      else .ofWord (.ofNat 16 address) (.ofNat 16 value))) := by
  split
  · exact .inl ⟨rfl, rfl⟩
  · refine .inr ⟨rfl, fun hzero => ?_⟩
    have hhigh : value / 256 % 256 = 0 := by
      simpa [MemTest.ofWord, hiByte, BitVec.toNat_eq, Nat.shiftRight_eq_div_pow, show value % 65536 = value by omega]
        using congrArg BitVec.toNat hzero
    omega

theorem reads_expectLiteral {c : Char} {message : String} :
    Reads (expectLiteral c message) (fun _ => True) fun _ _ => True := by
  refine reads_seq (reads_matchAs _) fun found _ => ?_
  match found with
  | some _ => exact reads_pure (by simp) fun _ => trivial
  | none => exact reads_fail

theorem reads_expectInteger {message : String} :
    Reads (expectInteger message) (fun _ => True) fun _ _ => True := by
  refine reads_seq (reads_matchAs _) fun found _ => ?_
  match found with
  | some _ => exact reads_pure (by simp) fun _ => trivial
  | none => exact reads_fail

theorem reads_memTest : Reads memTest (fun _ => True) fun t _ => Test.Sound (.mem t) := by
  refine reads_seq reads_expectLiteral fun _ _ => ?_
  refine reads_seq reads_expectInteger fun address _ => ?_
  refine reads_seq reads_require fun _ _ => ?_
  refine reads_seq reads_require fun _ _ => ?_
  refine reads_seq reads_expectLiteral fun _ _ => ?_
  refine reads_seq reads_expectLiteral fun _ _ => ?_
  refine reads_seq reads_expectInteger fun value _ => ?_
  refine reads_seq reads_require fun _ _ => ?_
  refine reads_seq reads_require fun _ ⟨_, hvalue⟩ => ?_
  have hsound := sound_memTest address.1 value.1 hvalue
  split <;> next h => exact reads_pure (by simp) fun _ => by simpa [h] using hsound

theorem reads_registerTest (reg : NamedRegisters) :
    Reads (registerTest reg) (fun _ => True) fun t _ => Test.Sound (.register t) := by
  refine reads_seq reads_expectLiteral fun _ _ => ?_
  refine reads_seq reads_expectInteger fun value _ => ?_
  refine reads_seq reads_require fun _ _ => ?_
  refine reads_seq reads_require fun _ ⟨_, hvalue⟩ => ?_
  refine reads_pure (by simp) fun _ => ?_
  have hpos : 0 < 2 ^ (8 * reg.byteSize) := Nat.two_pow_pos _
  have hlt : value.1 < 2 ^ (8 * reg.byteSize) := by omega
  exact (Nat.mod_le _ _).trans_lt hlt

theorem reads_csrTest (reg : CSRs) : Reads (csrTest reg) (fun _ => True) fun t _ => Test.Sound (.csr t) := by
  refine reads_seq reads_expectLiteral fun _ _ => ?_
  refine reads_seq reads_expectInteger fun value _ => ?_
  refine reads_seq reads_require fun _ _ => ?_
  refine reads_seq reads_require fun _ _ => ?_
  exact reads_pure (by simp) fun _ => trivial

theorem reads_test : Reads test (fun _ => True) fun t _ => t.Sound := by
  refine reads_seq (reads_matchAs _) fun found _ => ?_
  match found with
  | none => exact reads_fail
  | some name =>
    dsimp only
    split
    · refine reads_seq reads_memTest fun t ⟨_, ht⟩ => reads_pure (by simp) fun _ => ht
    split
    · refine reads_seq (reads_registerTest _) fun t ⟨_, ht⟩ => reads_pure (by simp) fun _ => ht
    split
    · refine reads_seq (reads_csrTest _) fun t ⟨_, ht⟩ => reads_pure (by simp) fun _ => ht
    · exact reads_fail

end Pepp.Ucode
