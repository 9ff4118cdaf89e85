import Mathlib.Data.List.TakeWhile
import Pepp.Debug.Parsing

/-!
# Sentences

A text is read as symbols with white space around them, each of them the longest
one at its place, and the sentences are the texts that the grammar derives from
the start symbol. Signs are symbols of their own here, and constants may be
binary and of any size. The parser agrees on the texts that have none of what
its lexer reads in another way.
-/

namespace Pepp.Debug

open Term (CastKind)

/-! ## Symbols -/

def isBit (c : Char) : Bool := c == '0' || c == '1'

def binary (text : Text) : Option (Text × Text) :=
  matchAfter '0' (fun rest => (matchAfter 'b' (matchSome isBit) rest).or (matchAfter 'B' (matchSome isBit) rest)) text

/-- A constant without its type. -/
def numeral (text : Text) : Option ((Format × Nat) × Text) :=
  ((hex text).map fun m => ((.Hex, Numerals.value 16 (m.1.drop 2)), m.2)).or
    (((binary text).map fun m => ((.Dec, Numerals.value 2 (m.1.drop 2)), m.2)).or
      ((matchSome Char.isDigit text).map fun m => ((.Dec, Numerals.value 10 m.1), m.2)))

/-- The type of a constant, which stands right behind it. -/
def typeSuffix (text : Text) : Option (Primitives × Text) :=
  (integerLiteralSuffix text).bind fun m => (primitiveFromString (m.1.drop 1)).map fun type => (type, m.2)

/-- A symbol that is not a constant. -/
def sign (text : Text) : Option (Token × Text) :=
  ((literal text).map fun m => (.Literal m.1, m.2)).or
    (((debug text).map fun m => (.DebugIdentifier (m.1.drop 1), m.2)).or
      ((ident text).map fun m => (.Identifier m.1, m.2)))

/-- The longest symbol at the start of a text as its tokens, and what is left. -/
def symbol (text : Text) : Option (List Token × Text) :=
  match numeral text with
  | some ((format, value), rest) =>
    match typeSuffix rest with
    | some (type, rest') => some ([.UnsignedConstant format (.ofNat 64 value), .TypeSuffix type], rest')
    | none => some ([.UnsignedConstant format (.ofNat 64 value)], rest)
  | none => (sign text).map fun m => ([m.1], m.2)

/-- A text gives tokens up to where no symbol stands behind the white space. -/
inductive Spells : Text → List Token → Text → Prop where
  | stop {text : Text} (h : symbol (text.dropWhile isWhitespace) = none) : Spells text [] (text.dropWhile isWhitespace)
  | symbol {text rest left : Text} {found ts : List Token}
    (h : symbol (text.dropWhile isWhitespace) = some (found, rest)) (hs : Spells rest ts left) :
    Spells text (found ++ ts) left

/-- A text whose symbols all together are derived as a term. -/
def Sentence (text : Text) (t : Term) : Prop := ∃ ts, Spells text ts [] ∧ Derives .P7 ts [] t

theorem Spells.unique {text left left' : Text} {ts ts' : List Token} (h : Spells text ts left)
    (h' : Spells text ts' left') : ts = ts' ∧ left = left' := by
  induction h generalizing ts' left' with
  | stop hnone =>
    cases h' with
    | stop _ => exact ⟨rfl, rfl⟩
    | symbol hsome _ =>
      rw [hnone] at hsome
      cases hsome
  | symbol hsome _ ih =>
    cases h' with
    | stop hnone =>
      rw [hnone] at hsome
      cases hsome
    | symbol hsome' hs' =>
      obtain ⟨rfl, rfl⟩ := Prod.mk.inj (Option.some_inj.mp (hsome.symm.trans hsome'))
      obtain ⟨rfl, rfl⟩ := ih hs'
      exact ⟨rfl, rfl⟩

/-! ## Patterns take a part of the text -/

/-- A pattern that matches takes some of the text. -/
def Takes {α : Type} (pattern : Text → Option (α × Text)) : Prop :=
  ∀ text a rest, pattern text = some (a, rest) → ∃ front, front ≠ [] ∧ text = front ++ rest

theorem matchSome_eq_some {p : Char → Bool} {text found rest : Text} (h : matchSome p text = some (found, rest)) :
    found ≠ [] ∧ text = found ++ rest ∧ ∀ c ∈ found, p c = true := by
  rw [matchSome] at h
  split at h
  · cases h
  · next hne =>
    obtain ⟨rfl, rfl⟩ := Prod.mk.inj (Option.some_inj.mp h)
    exact ⟨hne, (List.takeWhile_append_dropWhile).symm, fun c hc => List.mem_takeWhile_imp hc⟩

variable {c : Char}

theorem matchAfter_eq_some {pattern : Text → Option (Text × Text)} {text found rest : Text}
    (h : matchAfter c pattern text = some (found, rest)) :
    ∃ more found', text = c :: more ∧ found = c :: found' ∧ pattern more = some (found', rest) := by
  cases text with
  | nil => cases h
  | cons c' text =>
    rw [matchAfter] at h
    split at h
    · next hc =>
      obtain ⟨⟨found', rest'⟩, hpattern, heq⟩ := Option.map_eq_some_iff.mp h
      obtain ⟨rfl, rfl⟩ := Prod.mk.inj heq
      rw [hc]
      exact ⟨text, found', rfl, rfl, hpattern⟩
    · cases h

theorem Takes.or {α : Type} {pattern pattern' : Text → Option (α × Text)} (h : Takes pattern) (h' : Takes pattern') :
    Takes fun text => (pattern text).or (pattern' text) := by
  intro text a rest hor
  obtain hsome | ⟨-, hsome⟩ := Option.or_eq_some_iff.mp hor
  · exact h text a rest hsome
  · exact h' text a rest hsome

theorem Takes.map {α β : Type} {pattern : Text → Option (α × Text)} (h : Takes pattern) (f : α → β) :
    Takes fun text => (pattern text).map fun m => (f m.1, m.2) := by
  intro text b rest hmap
  obtain ⟨⟨a, rest'⟩, hsome, heq⟩ := Option.map_eq_some_iff.mp hmap
  obtain ⟨-, rfl⟩ := Prod.mk.inj heq
  exact h text a rest' hsome

theorem takes_matchSome (p : Char → Bool) : Takes (matchSome p) := by
  intro text found rest h
  obtain ⟨hne, heq, -⟩ := matchSome_eq_some h
  exact ⟨found, hne, heq⟩

theorem Takes.after {pattern : Text → Option (Text × Text)} (h : Takes pattern) (c : Char) :
    Takes (matchAfter c pattern) := by
  intro text found rest hafter
  obtain ⟨more, found', rfl, -, hsome⟩ := matchAfter_eq_some hafter
  obtain ⟨front, -, rfl⟩ := h _ _ _ hsome
  exact ⟨c :: front, List.cons_ne_nil _ _, rfl⟩

theorem takes_literal : Takes literal := by
  intro text found rest h
  rw [literal] at h
  split at h
  · next hwide =>
    obtain ⟨rfl, rfl⟩ := Prod.mk.inj (Option.some_inj.mp h)
    refine ⟨text.take 2, ?_, (List.take_append_drop 2 text).symm⟩
    intro hnil
    rw [hnil] at hwide
    exact absurd hwide (by decide)
  · split at h
    · next hnarrow =>
      obtain ⟨rfl, rfl⟩ := Prod.mk.inj (Option.some_inj.mp h)
      cases text with
      | nil => cases hnarrow
      | cons c text => exact ⟨[c], List.cons_ne_nil _ _, rfl⟩
    · cases h

theorem takes_matchBits : Takes matchBits := by
  intro text found rest h
  unfold matchBits at h
  split at h
  · obtain ⟨rfl, rfl⟩ := Prod.mk.inj (Option.some_inj.mp h)
    exact ⟨['8'], List.cons_ne_nil _ _, rfl⟩
  · obtain ⟨rfl, rfl⟩ := Prod.mk.inj (Option.some_inj.mp h)
    exact ⟨['1', '6'], List.cons_ne_nil _ _, rfl⟩
  · obtain ⟨rfl, rfl⟩ := Prod.mk.inj (Option.some_inj.mp h)
    exact ⟨['3', '2'], List.cons_ne_nil _ _, rfl⟩
  · cases h

/-- A sign and a size are the name of a primitive. -/
theorem primitive_of_matchBits {text found rest : Text} (h : matchBits text = some (found, rest)) :
    (primitiveFromString ('i' :: found)).isSome = true ∧ (primitiveFromString ('u' :: found)).isSome = true := by
  unfold matchBits at h
  split at h
  · rw [← (Prod.mk.inj (Option.some_inj.mp h)).1]
    decide
  · rw [← (Prod.mk.inj (Option.some_inj.mp h)).1]
    decide
  · rw [← (Prod.mk.inj (Option.some_inj.mp h)).1]
    decide
  · cases h

theorem primitive_of_suffix {text found rest : Text} (h : integerLiteralSuffix text = some (found, rest)) :
    ∃ type, primitiveFromString (found.drop 1) = some type := by
  obtain ⟨more, found', -, rfl, hor⟩ := matchAfter_eq_some h
  rw [← Option.isSome_iff_exists]
  obtain hafter | ⟨-, hafter⟩ := Option.or_eq_some_iff.mp hor
  · obtain ⟨_, bits, -, rfl, hbits⟩ := matchAfter_eq_some hafter
    exact (primitive_of_matchBits hbits).1
  · obtain ⟨_, bits, -, rfl, hbits⟩ := matchAfter_eq_some hafter
    exact (primitive_of_matchBits hbits).2

theorem typeSuffix_eq_some_iff {text rest : Text} {type : Primitives} : typeSuffix text = some (type, rest) ↔
    ∃ found, integerLiteralSuffix text = some (found, rest) ∧ primitiveFromString (found.drop 1) = some type := by
  constructor
  · intro h
    obtain ⟨⟨found, rest'⟩, hsome, hmap⟩ := Option.bind_eq_some_iff.mp h
    obtain ⟨type', hprim, heq⟩ := Option.map_eq_some_iff.mp hmap
    obtain ⟨rfl, rfl⟩ := Prod.mk.inj heq
    exact ⟨found, hsome, hprim⟩
  · rintro ⟨found, hsome, hprim⟩
    rw [typeSuffix, hsome, Option.bind_some, hprim]
    rfl

theorem suffix_of_typeSuffix {text : Text} (h : typeSuffix text = none) : integerLiteralSuffix text = none := by
  cases hsome : integerLiteralSuffix text with
  | none => rfl
  | some m =>
    obtain ⟨type, hprim⟩ := primitive_of_suffix hsome
    have htype := (typeSuffix_eq_some_iff).mpr ⟨m.1, hsome, hprim⟩
    rw [h] at htype
    cases htype

theorem takes_suffix : Takes integerLiteralSuffix :=
  ((takes_matchBits.after 'i').or (takes_matchBits.after 'u')).after '_'

theorem takes_typeSuffix : Takes typeSuffix := by
  intro text type rest h
  obtain ⟨found, hsome, -⟩ := (typeSuffix_eq_some_iff).mp h
  exact takes_suffix text found rest hsome

theorem takes_hex : Takes hex :=
  (((takes_matchSome isHexDigit).after 'x').or ((takes_matchSome isHexDigit).after 'X')).after '0'

theorem takes_binary : Takes binary :=
  (((takes_matchSome isBit).after 'b').or ((takes_matchSome isBit).after 'B')).after '0'

theorem takes_debug : Takes debug := (takes_matchSome isWord).after '$'

theorem takes_ident : Takes ident := takes_matchSome isWord

theorem takes_numeral : Takes numeral :=
  (takes_hex.map fun found => (Format.Hex, Numerals.value 16 (found.drop 2))).or
    ((takes_binary.map fun found => (Format.Dec, Numerals.value 2 (found.drop 2))).or
      ((takes_matchSome Char.isDigit).map fun found => (Format.Dec, Numerals.value 10 found)))

theorem takes_sign : Takes sign :=
  (takes_literal.map Token.Literal).or
    ((takes_debug.map fun found => Token.DebugIdentifier (found.drop 1)).or (takes_ident.map Token.Identifier))

/-- A symbol takes at least a character for each of its tokens. -/
theorem symbol_takes {text rest : Text} {found : List Token} (h : symbol text = some (found, rest)) :
    ∃ front, text = front ++ rest ∧ 0 < found.length ∧ found.length ≤ front.length := by
  rw [symbol] at h
  cases hnumeral : numeral text with
  | some m =>
    obtain ⟨⟨format, value⟩, rest₁⟩ := m
    obtain ⟨front, hne, rfl⟩ := takes_numeral _ _ _ hnumeral
    have hpos := List.length_pos_of_ne_nil hne
    rw [hnumeral] at h
    dsimp only at h
    cases hsuffix : typeSuffix rest₁ with
    | some m =>
      obtain ⟨type, rest₂⟩ := m
      obtain ⟨front', hne', rfl⟩ := takes_typeSuffix _ _ _ hsuffix
      have hpos' := List.length_pos_of_ne_nil hne'
      rw [hsuffix] at h
      obtain ⟨rfl, rfl⟩ := Prod.mk.inj (Option.some_inj.mp h)
      refine ⟨front ++ front', (List.append_assoc _ _ _).symm, Nat.zero_lt_succ _, ?_⟩
      rw [List.length_append]
      exact Nat.add_le_add hpos hpos'
    | none =>
      rw [hsuffix] at h
      obtain ⟨rfl, rfl⟩ := Prod.mk.inj (Option.some_inj.mp h)
      exact ⟨front, rfl, Nat.zero_lt_succ _, hpos⟩
  | none =>
    rw [hnumeral] at h
    obtain ⟨⟨tok, rest'⟩, hsign, heq⟩ := Option.map_eq_some_iff.mp h
    obtain ⟨rfl, rfl⟩ := Prod.mk.inj heq
    obtain ⟨front, hne, rfl⟩ := takes_sign _ _ _ hsign
    exact ⟨front, rfl, Nat.zero_lt_succ _, List.length_pos_of_ne_nil hne⟩

theorem symbol_nil : symbol [] = none := rfl

/-! ## The lexer on plain texts -/

/-- A place where the lexer reads a symbol as the grammar does. -/
structure Plain (at_ : Text) : Prop where
  /-- No sign stands directly in front of a digit. -/
  signs : ∀ c digit rest, at_ = c :: digit :: rest → isSign c = true → digit.isDigit = false
  /-- A constant is not binary. -/
  base : binary at_ = none
  /-- A constant fits into an `int`. -/
  size : ∀ format value rest, numeral at_ = some ((format, value), rest) → value < 2 ^ 31

/-- A text begins with symbols that the lexer reads as the grammar does. -/
inductive Opens : Text → List Token → Text → Prop where
  | nil (text : Text) : Opens text [] text
  | symbol {text rest left : Text} {found ts : List Token} (hplain : Plain (text.dropWhile isWhitespace))
    (h : symbol (text.dropWhile isWhitespace) = some (found, rest)) (hs : Opens rest ts left) :
    Opens text (found ++ ts) left

theorem signed_of_digits {base : Nat} {digits : Text} (h : ∀ c ∈ digits, isSign c = false) :
    signed base digits = Numerals.value base digits := by
  rw [signed.eq_def]
  split
  · exact absurd (h '+' List.mem_cons_self) (by decide)
  · exact absurd (h '-' List.mem_cons_self) (by decide)
  · rfl

theorem toInt_of_digits {base : Nat} {digits : Text} (h : ∀ c ∈ digits, isSign c = false)
    (hlt : Numerals.value base digits < 2 ^ 31) :
    BitVec.ofInt 64 (toInt base digits) = BitVec.ofNat 64 (Numerals.value base digits) := by
  rw [toInt, signed_of_digits h, if_pos ⟨by omega, by omega⟩, BitVec.ofInt_natCast]

theorem isSign_of_isDigit (h : c.isDigit = true) : isSign c = false := by
  by_contra hsign
  rw [Bool.not_eq_false, isSign, Bool.or_eq_true, beq_iff_eq, beq_iff_eq] at hsign
  obtain rfl | rfl := hsign
  · exact absurd h (by decide)
  · exact absurd h (by decide)

theorem isSign_of_isHexDigit (h : isHexDigit c = true) : isSign c = false := by
  by_contra hsign
  rw [Bool.not_eq_false, isSign, Bool.or_eq_true, beq_iff_eq, beq_iff_eq] at hsign
  obtain rfl | rfl := hsign
  · exact absurd h (by decide)
  · exact absurd h (by decide)

theorem isDigit_of_matchSome {text : Text} {m : Text × Text} (h : matchAfter c (matchSome Char.isDigit) text = some m) :
    ∃ digit rest, text = c :: digit :: rest ∧ digit.isDigit = true := by
  obtain ⟨more, found', rfl, -, hsome⟩ := matchAfter_eq_some h
  obtain ⟨hne, rfl, hdigits⟩ := matchSome_eq_some hsome
  obtain ⟨digit, found, rfl⟩ := List.exists_cons_of_ne_nil hne
  exact ⟨digit, found ++ m.2, rfl, hdigits digit List.mem_cons_self⟩

/-- Where no sign is in front of a digit no constant has a sign. -/
theorem dec_of_signs {text : Text}
    (h : ∀ c digit rest, text = c :: digit :: rest → isSign c = true → digit.isDigit = false) :
    dec text = matchSome Char.isDigit text := by
  have hnone : ∀ c, isSign c = true → matchAfter c (matchSome Char.isDigit) text = none := by
    intro c hc
    cases hsome : matchAfter c (matchSome Char.isDigit) text with
    | none => rfl
    | some m =>
      obtain ⟨digit, rest, htext, hdigit⟩ := isDigit_of_matchSome hsome
      rw [h c digit rest htext hc] at hdigit
      cases hdigit
  rw [dec, hnone '+' rfl, hnone '-' rfl]
  rfl

theorem nextSymbol_numeral {text rest : Text} {format : Format} {value : Nat}
    (hsigns : ∀ c digit rest, text = c :: digit :: rest → isSign c = true → digit.isDigit = false)
    (hbase : binary text = none) (hnumeral : numeral text = some ((format, value), rest)) (hlt : value < 2 ^ 31) :
    Lexer.nextSymbol text = (.UnsignedConstant format (.ofNat 64 value), ⟨rest, true⟩) := by
  rw [numeral, hbase] at hnumeral
  cases hhex : hex text with
  | some m =>
    obtain ⟨found, rest'⟩ := m
    rw [hhex] at hnumeral
    obtain ⟨hpair, rfl⟩ := Prod.mk.inj (Option.some_inj.mp hnumeral)
    obtain ⟨rfl, rfl⟩ := Prod.mk.inj hpair
    have hdigits : ∀ c ∈ found.drop 2, isSign c = false := by
      obtain ⟨_, found', -, rfl, hor⟩ := matchAfter_eq_some hhex
      obtain hafter | ⟨-, hafter⟩ := Option.or_eq_some_iff.mp hor
      all_goals
        obtain ⟨_, digits, -, rfl, hsome⟩ := matchAfter_eq_some hafter
        exact fun c hc => isSign_of_isHexDigit ((matchSome_eq_some hsome).2.2 c hc)
    rw [Lexer.nextSymbol, hhex]
    dsimp only
    rw [toInt_of_digits hdigits hlt]
  | none =>
    rw [hhex] at hnumeral
    obtain ⟨⟨found, rest'⟩, hsome, heq⟩ := Option.map_eq_some_iff.mp hnumeral
    obtain ⟨hpair, rfl⟩ := Prod.mk.inj heq
    obtain ⟨rfl, rfl⟩ := Prod.mk.inj hpair
    have hdigits : ∀ c ∈ found, isSign c = false := fun c hc => isSign_of_isDigit ((matchSome_eq_some hsome).2.2 c hc)
    rw [Lexer.nextSymbol, hhex, dec_of_signs hsigns, hsome]
    dsimp only
    rw [toInt_of_digits hdigits hlt]

theorem nextSymbol_sign {text : Text}
    (hsigns : ∀ c digit rest, text = c :: digit :: rest → isSign c = true → digit.isDigit = false)
    (hnumeral : numeral text = none) :
    (∀ tok rest, sign text = some (tok, rest) → Lexer.nextSymbol text = (tok, ⟨rest, false⟩) ∧ tok ≠ .Eof) ∧
      (sign text = none → (Lexer.nextSymbol text).1 = .Invalid) := by
  obtain ⟨hhex, hor⟩ := Option.or_eq_none_iff.mp hnumeral
  obtain ⟨-, hdec⟩ := Option.or_eq_none_iff.mp hor
  rw [Option.map_eq_none_iff] at hhex hdec
  rw [Lexer.nextSymbol, hhex, dec_of_signs hsigns, hdec, sign]
  dsimp only
  cases hliteral : literal text <;> cases hdebug : debug text <;> cases hident : ident text
  case none.none.none => exact ⟨fun tok rest hsign => absurd hsign.symm (Option.some_ne_none _), fun _ => rfl⟩
  all_goals
    refine ⟨fun tok rest hsign => ?_, fun hsign => absurd hsign (Option.some_ne_none _)⟩
    obtain ⟨rfl, rfl⟩ := Prod.mk.inj (Option.some_inj.mp hsign)
    exact ⟨rfl, fun heof => by cases heof⟩

namespace Lexer

theorem skip_succ (self : Lexer) (n : Nat) : self.skip (n + 1) = self.nextToken.2.skip n := by
  induction n with
  | zero => rfl
  | succ n ih => rw [skip, ih, skip]

theorem token_succ (self : Lexer) (n : Nat) : self.token (n + 1) = self.nextToken.2.token n := by
  rw [token, skip_succ, token]

theorem token_nil (allows : Bool) (n : Nat) : (Lexer.mk [] allows).token n = .Eof := by
  induction n with
  | zero => rfl
  | succ n ih => exact (token_succ _ n).trans ih

/-- What follows a constant without a type is read as if there were no constant. -/
theorem nextToken_of_no_suffix {text : Text} (h : typeSuffix text = none) :
    (Lexer.mk text true).token = (Lexer.mk text false).token := by
  have hnext : text ≠ [] → (Lexer.mk text true).nextToken = (Lexer.mk text false).nextToken := by
    intro hne
    rw [nextToken, nextToken, if_neg hne, if_neg hne, if_pos rfl, if_neg Bool.false_ne_true, suffix_of_typeSuffix h]
  funext n
  cases text with
  | nil => rw [token_nil, token_nil]
  | cons c text =>
    cases n with
    | zero => exact congrArg Prod.fst (hnext (List.cons_ne_nil _ _))
    | succ n => rw [token_succ, token_succ, hnext (List.cons_ne_nil _ _)]

theorem nextToken_of_suffix {text rest : Text} {type : Primitives} (h : typeSuffix text = some (type, rest)) :
    (Lexer.mk text true).nextToken = (.TypeSuffix type, ⟨rest, false⟩) := by
  obtain ⟨found, hsome, hprim⟩ := (typeSuffix_eq_some_iff).mp h
  have hne : text ≠ [] := by
    rintro rfl
    cases hsome
  rw [nextToken, if_neg hne, if_pos rfl, hsome]
  dsimp only
  rw [hprim]

theorem nextToken_of_ne_nil {text : Text} (hne : text ≠ []) :
    (Lexer.mk text false).nextToken = nextSymbol (text.dropWhile isWhitespace) := by
  rw [nextToken, if_neg hne, if_neg Bool.false_ne_true]

end Lexer

theorem reads_nil {self : Lexer} (h : self.nextToken.1 = .Eof ∨ self.nextToken.1 = .Invalid) : Reads self.token [] :=
  ⟨fun _ hi => absurd hi (Nat.not_lt_zero _), List.not_mem_nil, h⟩

theorem reads_cons {self self' : Lexer} {tok : Token} {toks : List Token} (h : self.nextToken = (tok, self'))
    (htok : tok ≠ .Eof) (hreads : Reads self'.token toks) : Reads self.token (tok :: toks) := by
  have hsucc : ∀ n, self.token (n + 1) = self'.token n := by
    intro n
    rw [Lexer.token_succ, h]
  refine ⟨?_, ?_, ?_⟩
  · intro i hi
    cases i with
    | zero => exact congrArg Prod.fst h
    | succ i => exact (hsucc i).trans (hreads.get i (Nat.lt_of_succ_lt_succ hi))
  · intro hmem
    obtain rfl | hmem := List.mem_cons.mp hmem
    · exact htok rfl
    · exact hreads.only hmem
  · rw [List.length_cons, hsucc]
    exact hreads.stop

theorem symbol_append {text rest : Text} {found : List Token}
    (h : symbol (text.dropWhile isWhitespace) = some (found, rest)) :
    ∃ front, text = front ++ rest ∧ 0 < found.length ∧ found.length ≤ front.length := by
  obtain ⟨front, heq, hpos, hle⟩ := symbol_takes h
  refine ⟨text.takeWhile isWhitespace ++ front, ?_, hpos, ?_⟩
  · rw [List.append_assoc, ← heq, List.takeWhile_append_dropWhile]
  · rw [List.length_append]
    omega

/-- The lexer gives the tokens of a symbol one after the other. -/
theorem reads_symbol {text rest : Text} {found ts : List Token} (hplain : Plain (text.dropWhile isWhitespace))
    (hs : symbol (text.dropWhile isWhitespace) = some (found, rest)) (hreads : Reads (Lexer.mk rest false).token ts) :
    Reads (Lexer.mk text false).token (found ++ ts) ∧
      (Lexer.mk text false).token (found ++ ts).length = (Lexer.mk rest false).token ts.length := by
  have hne : text ≠ [] := by
    rintro rfl
    cases hs
  have hnext := Lexer.nextToken_of_ne_nil hne
  rw [symbol] at hs
  cases hnumeral : numeral (text.dropWhile isWhitespace) with
  | some m =>
    obtain ⟨⟨format, value⟩, rest₁⟩ := m
    rw [nextSymbol_numeral hplain.signs hplain.base hnumeral (hplain.size _ _ _ hnumeral)] at hnext
    rw [hnumeral] at hs
    dsimp only at hs
    cases hsuffix : typeSuffix rest₁ with
    | some m =>
      obtain ⟨type, rest₂⟩ := m
      rw [hsuffix] at hs
      obtain ⟨rfl, rfl⟩ := Prod.mk.inj (Option.some_inj.mp hs)
      have hnext' := Lexer.nextToken_of_suffix hsuffix
      refine ⟨reads_cons hnext (fun heof => by cases heof) (reads_cons hnext' (fun heof => by cases heof) hreads), ?_⟩
      rw [List.length_append, Nat.add_comm, List.length_cons, List.length_cons, List.length_nil, ← Nat.add_assoc,
        Lexer.token_succ, hnext, Nat.add_zero, Lexer.token_succ, hnext']
    | none =>
      rw [hsuffix] at hs
      obtain ⟨rfl, rfl⟩ := Prod.mk.inj (Option.some_inj.mp hs)
      rw [← Lexer.nextToken_of_no_suffix hsuffix] at hreads ⊢
      refine ⟨reads_cons hnext (fun heof => by cases heof) hreads, ?_⟩
      rw [List.singleton_append, List.length_cons, Lexer.token_succ, hnext]
  | none =>
    rw [hnumeral] at hs
    obtain ⟨⟨tok, rest'⟩, hsign, heq⟩ := Option.map_eq_some_iff.mp hs
    obtain ⟨rfl, rfl⟩ := Prod.mk.inj heq
    obtain ⟨htok, hnot⟩ := (nextSymbol_sign hplain.signs hnumeral).1 tok rest' hsign
    rw [htok] at hnext
    refine ⟨reads_cons hnext hnot hreads, ?_⟩
    rw [List.singleton_append, List.length_cons, Lexer.token_succ, hnext]

/-- Where no symbol stands the lexer has no token. -/
theorem invalid_of_symbol {text : Text} (hne : text ≠ [])
    (hs : symbol (text.dropWhile isWhitespace) = none) : (Lexer.mk text false).nextToken.1 = .Invalid := by
  rw [Lexer.nextToken_of_ne_nil hne]
  rw [symbol] at hs
  cases hnumeral : numeral (text.dropWhile isWhitespace) with
  | some m =>
    obtain ⟨⟨format, value⟩, rest⟩ := m
    rw [hnumeral] at hs
    dsimp only at hs
    split at hs <;> cases hs
  | none =>
    rw [hnumeral] at hs
    have hsign : sign (text.dropWhile isWhitespace) = none := Option.map_eq_none_iff.mp hs
    refine (nextSymbol_sign ?_ hnumeral).2 hsign
    -- A sign would be a literal.
    intro c digit rest htext hc
    have hliteral := Option.map_eq_none_iff.mp (Option.or_eq_none_iff.mp hsign).1
    rw [isSign, Bool.or_eq_true, beq_iff_eq, beq_iff_eq] at hc
    rw [htext, literal] at hliteral
    obtain rfl | rfl := hc <;> split at hliteral <;> cases hliteral

theorem takes_dec : Takes dec :=
  (((takes_matchSome Char.isDigit).after '+').or ((takes_matchSome Char.isDigit).after '-')).or
    (takes_matchSome Char.isDigit)

/-- The lexer takes some of the text for every token. -/
theorem Lexer.nextToken_lt {self self' : Lexer} {tok : Token} (h : self.nextToken = (tok, self')) (heof : tok ≠ .Eof)
    (hinvalid : tok ≠ .Invalid) : self'.input.length < self.input.length := by
  have hlt : ∀ {text found rest : Text} {pattern : Text → Option (Text × Text)}, Takes pattern →
      text.length ≤ self.input.length → pattern text = some (found, rest) → rest.length < self.input.length := by
    intro text found rest pattern htakes hle hsome
    obtain ⟨front, hne, rfl⟩ := htakes _ _ _ hsome
    have hpos := List.length_pos_of_ne_nil hne
    rw [List.length_append] at hle
    omega
  have hle := (List.dropWhile_suffix isWhitespace (l := self.input)).length_le
  rw [nextToken] at h
  split at h
  · exact absurd (Prod.mk.inj h).1.symm heof
  split at h
  · next found rest hsome =>
    have hsuffix : integerLiteralSuffix self.input = some (found, rest) := by
      split at hsome
      · exact hsome
      · cases hsome
    split at h
    · obtain ⟨-, rfl⟩ := Prod.mk.inj h
      exact hlt takes_suffix le_rfl hsuffix
    · exact absurd (Prod.mk.inj h).1.symm hinvalid
  rw [nextSymbol] at h
  split at h
  · next hsome =>
    obtain ⟨-, rfl⟩ := Prod.mk.inj h
    exact hlt takes_hex hle hsome
  split at h
  · next hsome =>
    obtain ⟨-, rfl⟩ := Prod.mk.inj h
    exact hlt takes_dec hle hsome
  split at h
  · next hsome =>
    obtain ⟨-, rfl⟩ := Prod.mk.inj h
    exact hlt takes_literal hle hsome
  split at h
  · next hsome =>
    obtain ⟨-, rfl⟩ := Prod.mk.inj h
    exact hlt takes_debug hle hsome
  split at h
  · next hsome =>
    obtain ⟨-, rfl⟩ := Prod.mk.inj h
    exact hlt takes_ident hle hsome
  · exact absurd (Prod.mk.inj h).1.symm hinvalid

/-- The lexer comes to an end, with no more tokens than characters. -/
theorem Lexer.exists_reads (self : Lexer) : ∃ toks, Reads self.token toks ∧ toks.length ≤ self.input.length := by
  induction hn : self.input.length using Nat.strongRecOn generalizing self with
  | ind n ih =>
    subst hn
    obtain ⟨tok, self', hnext⟩ : ∃ tok self', self.nextToken = (tok, self') := ⟨_, _, rfl⟩
    by_cases hstop : tok = .Eof ∨ tok = .Invalid
    · refine ⟨[], reads_nil ?_, Nat.zero_le _⟩
      rw [hnext]
      exact hstop
    · obtain ⟨heof, hinvalid⟩ := not_or.mp hstop
      have hlt := nextToken_lt hnext heof hinvalid
      obtain ⟨toks, hreads, hle⟩ := ih _ hlt self' rfl
      exact ⟨tok :: toks, reads_cons hnext heof hreads, hle.trans_lt hlt⟩

namespace Opens

variable {text left : Text} {found ts : List Token}

theorem spells {left' : Text} (h : Opens text found left) (hs : Spells left ts left') :
    Spells text (found ++ ts) left' := by
  induction h with
  | nil _ => exact hs
  | symbol _ hsome _ ih =>
    rw [List.append_assoc]
    exact .symbol hsome (ih hs)

/-- All symbols of a text begin with those. -/
theorem prefixes {left' : Text} (h : Opens text found left) (hs : Spells text ts left') :
    ∃ more, ts = found ++ more := by
  induction h generalizing ts with
  | nil _ => exact ⟨ts, rfl⟩
  | symbol _ hsome _ ih =>
    cases hs with
    | stop hnone =>
      rw [hnone] at hsome
      cases hsome
    | symbol hsome' hs' =>
      obtain ⟨rfl, rfl⟩ := Prod.mk.inj (Option.some_inj.mp (hsome.symm.trans hsome'))
      obtain ⟨more, rfl⟩ := ih hs'
      exact ⟨more, (List.append_assoc _ _ _).symm⟩

/-- The lexer gives those tokens and then what it gives for what is left. -/
theorem reads (h : Opens text found left) (hreads : Reads (Lexer.mk left false).token ts)
    (hlength : ts.length ≤ left.length) :
    Reads (Lexer.mk text false).token (found ++ ts) ∧ (found ++ ts).length ≤ text.length ∧
      (Lexer.mk text false).token (found ++ ts).length = (Lexer.mk left false).token ts.length := by
  induction h with
  | nil _ => exact ⟨hreads, hlength, rfl⟩
  | symbol hplain hsome _ ih =>
    obtain ⟨hreads', hle, htoken⟩ := ih hreads hlength
    obtain ⟨hreads'', htoken'⟩ := reads_symbol hplain hsome hreads'
    obtain ⟨front, rfl, -, hfront⟩ := symbol_append hsome
    rw [List.append_assoc]
    refine ⟨hreads'', ?_, htoken'.trans htoken⟩
    rw [List.length_append, @List.length_append _ front]
    exact Nat.add_le_add hfront hle

end Opens

/-! ## Sentences and the parser -/

/-- The lexer reads as the grammar does up to where it is known whether a text is a sentence. -/
inductive Legible (text : Text) (kind : CastKind) : Prop where
  /-- Up to the end, where white space may only stand behind what is not derived. -/
  | whole {toks : List Token} {left : Text} (hopens : Opens text toks left)
    (hstop : symbol (left.dropWhile isWhitespace) = none)
    (hblank : left ≠ [] → left.dropWhile isWhitespace = [] → ∀ t, ¬Derives .P7 toks [] t)
    (hregular : Regular toks kind)
  /-- Up to symbols that no sentence begins with. -/
  | start {found : List Token} {left : Text} (hopens : Opens text found left)
    (hdead : ∀ more t, ¬Derives .P7 (found ++ more) [] t) (hregular : ∀ more, Regular (found ++ more) kind)

/-- Of the texts that its lexer reads as the grammar does the parser accepts the sentences, with their terms. -/
theorem compileWith_sentence {cache : List Term} {text : Text} {kind : CastKind} (h : Legible text kind)
    (hcache : ∀ c ∈ cache, c.Casts kind) :
    ∃ ret, compileWith cache text = .ok ret ∧ ∀ t, Sentence text t ↔ ∃ t', ret = some t' ∧ t'.erase = t := by
  cases h with
  | @whole toks left hopens hstop hblank hregular =>
    have hspells := hopens.spells (.stop hstop)
    rw [List.append_nil] at hspells
    have hend : Reads (Lexer.mk left false).token [] := by
      by_cases hne : left = []
      · subst hne
        exact reads_nil (.inl rfl)
      · exact reads_nil (.inr (invalid_of_symbol hne hstop))
    obtain ⟨hreads, hlength, htoken⟩ := hopens.reads hend (Nat.zero_le _)
    rw [List.append_nil] at hreads hlength htoken
    obtain ⟨ret, hret, hiff⟩ := compileWith_of_reads hregular hreads hlength hcache
    refine ⟨ret, hret, fun t => Iff.trans ?_ (hiff t)⟩
    rw [htoken]
    constructor
    · rintro ⟨ts, hspells', hderives⟩
      obtain ⟨rfl, hleft⟩ := hspells.unique hspells'
      by_cases hne : left = []
      · subst hne
        exact ⟨rfl, hderives⟩
      · exact absurd hderives (hblank hne hleft t)
    · rintro ⟨heof, hderives⟩
      by_cases hne : left = []
      · subst hne
        exact ⟨toks, hspells, hderives⟩
      · have hinvalid := invalid_of_symbol hne hstop
        have htoken₀ : (Lexer.mk left false).token 0 = (Lexer.mk left false).nextToken.1 := rfl
        rw [List.length_nil, htoken₀, hinvalid] at heof
        cases heof
  | @start found left hopens hdead hregular =>
    obtain ⟨more, hmore, hle⟩ := (Lexer.mk left false).exists_reads
    obtain ⟨hreads, hlength, -⟩ := hopens.reads hmore hle
    obtain ⟨ret, hret, hiff⟩ := compileWith_of_reads (hregular more) hreads hlength hcache
    refine ⟨ret, hret, fun t => Iff.trans (iff_of_false ?_ fun hderives => hdead more t hderives.2) (hiff t)⟩
    rintro ⟨ts, hspells, hderives⟩
    obtain ⟨more', rfl⟩ := hopens.prefixes hspells
    exact hdead more' t hderives

/-- A short list of tokens without a cast is regular. -/
theorem regular_of_no_cast {toks : List Token} (hlength : toks.length < 2 ^ 16)
    (hcast : ∀ i name n ts, toks.drop i ≠ castTokens name n ++ ts) (kind : CastKind) : Regular toks kind :=
  ⟨fun _ _ htried => ⟨htried.le.trans_lt hlength, fun _ _ _ hj => hj.trans_lt hlength⟩,
    fun i name n ts _ heq => absurd heq (hcast i name n ts),
    fun i name n ts _ _ _ heq => absurd heq (hcast i name n ts)⟩

/-- Behind two names nothing is tried. -/
theorem regular_of_names (name name' : Text) (more : List Token) (kind : CastKind) :
    Regular (.Identifier name :: .Identifier name' :: more) kind := by
  have hrest : ∀ {r rest t}, Derives r (.Identifier name :: .Identifier name' :: more) rest t →
      rest = .Identifier name' :: more :=
    fun h => h.rest_of_name rfl fun _ _ heq => by cases heq
  have htried : ∀ {r i}, Tried (.Identifier name :: .Identifier name' :: more) r i → i = 0 := by
    intro r i h
    induction h with
    | start => rfl
    | behind _ _ _ hlhs _ ih =>
      subst ih
      have heq := hrest hlhs.derives
      cases heq
    | casted _ _ hdrop _ ih =>
      subst ih
      cases hdrop
    | prefixed _ hdrop ih =>
      subst ih
      cases hdrop
    | inner _ hdrop ih =>
      subst ih
      cases hdrop
    | lower _ _ ih | cast _ ih | operand _ ih | value _ ih | among _ _ ih => exact ih
  refine ⟨fun r i h => ?_, fun i _ _ _ h heq => ?_, fun i _ _ _ _ _ h heq => ?_⟩
  · obtain rfl := htried h
    refine ⟨by decide, fun j t hlongest hj => ?_⟩
    have hlength := congrArg List.length (hrest hlongest.derives)
    rw [List.length_drop] at hlength
    simp only [List.length_cons] at hlength hj
    omega
  · obtain rfl := htried h
    cases heq
  · obtain rfl := htried h
    cases heq

/-- `a - 1` is read as the grammar says, and so is `a b -1 ` that it does not know. -/
theorem compileWith_spaced :
    (∃ ret, compileWith [] ['a', ' ', '-', ' ', '1'] = .ok ret ∧
      ∀ t, Sentence ['a', ' ', '-', ' ', '1'] t ↔ ∃ t', ret = some t' ∧ t'.erase = t) ∧
    ∃ ret, compileWith [] ['a', ' ', 'b', ' ', '-', '1', ' '] = .ok ret ∧
      ∀ t, Sentence ['a', ' ', 'b', ' ', '-', '1', ' '] t ↔ ∃ t', ret = some t' ∧ t'.erase = t := by
  have hplain : ∀ c : Char, ∀ text : Text, isSign c = false ∨ text.head?.any Char.isDigit = false →
      binary (c :: text) = none → (∀ m ∈ numeral (c :: text), m.1.2 < 2 ^ 31) → Plain (c :: text) := by
    rintro c text hsign hbase hsize
    refine ⟨?_, hbase, fun format value rest hsome => hsize _ hsome⟩
    intro c' digit rest heq hc
    obtain ⟨rfl, rfl⟩ := List.cons.inj heq
    obtain hsign | hdigit := hsign
    · rw [hsign] at hc
      cases hc
    · exact hdigit
  have hcache : ∀ c ∈ ([] : List Term), c.Casts .direct := fun c hc => absurd hc List.not_mem_nil
  refine ⟨compileWith_sentence ?_ hcache, compileWith_sentence ?_ hcache⟩
  · have hopens : Opens ['a', ' ', '-', ' ', '1'] ([.Identifier ['a']] ++ ([.Literal ['-']] ++
        ([.UnsignedConstant .Dec 1] ++ []))) [] :=
      .symbol (hplain 'a' _ (.inl rfl) rfl (by decide)) rfl (.symbol (hplain '-' _ (.inr rfl) rfl (by decide)) rfl
        (.symbol (hplain '1' _ (.inl rfl) rfl (by decide)) rfl (.nil _)))
    refine .whole hopens symbol_nil (fun hne => absurd rfl hne) (regular_of_no_cast (by decide) ?_ _)
    intro i name n ts heq
    rw [castTokens_append] at heq
    rcases i with _ | _ | _ | i
    · cases heq
    · cases heq
    · cases heq
    · simp at heq
  · have hopens : Opens ['a', ' ', 'b', ' ', '-', '1', ' '] ([.Identifier ['a']] ++ ([.Identifier ['b']] ++ []))
        [' ', '-', '1', ' '] :=
      .symbol (hplain 'a' _ (.inl rfl) rfl (by decide)) rfl
        (.symbol (hplain 'b' _ (.inl rfl) rfl (by decide)) rfl (.nil _))
    refine .start hopens (fun more t hderives => ?_) fun more => regular_of_names ['a'] ['b'] more _
    have hrest := hderives.rest_of_name rfl fun _ _ heq => by cases heq
    cases hrest

/-- `a-1` is no sentence for the parser. -/
theorem unspaced_minus : compileWith [] ['a', '-', '1'] = .ok none ∧
    Sentence ['a', '-', '1'] (.BinaryInfix .SUBTRACT (.Variable ['a']) (.Constant .Dec (.fromBits .i16 1))) := by
  have hname : symbol (List.dropWhile isWhitespace ['a', '-', '1']) = some ([.Identifier ['a']], ['-', '1']) := rfl
  have hminus : symbol (List.dropWhile isWhitespace ['-', '1']) = some ([.Literal ['-']], ['1']) := rfl
  have hone : symbol (List.dropWhile isWhitespace ['1']) = some ([.UnsignedConstant .Dec 1], []) := rfl
  have hend : Spells [] [] [] := .stop symbol_nil
  have hvalue : ∀ {r ts rest t}, r ∈ valueRules → Derives r ts rest t → Derives .P2 ts rest t :=
    fun hr h => .lift rfl (.operand (.primary (.value hr h)))
  refine ⟨rfl, [.Identifier ['a'], .Literal ['-'], .UnsignedConstant .Dec 1],
    .symbol hname (.symbol hminus (.symbol hone hend)), ?_⟩
  have hsum : Derives .P3 [.Identifier ['a'], .Literal ['-'], .UnsignedConstant .Dec 1] []
      (.BinaryInfix .SUBTRACT (.Variable ['a']) (.Constant .Dec (.fromBits .i16 1))) :=
    .binary rfl rfl (hvalue (by decide) (.ident _ _)) (.lift rfl (hvalue (by decide) (.constant _ _ _)))
  exact .lift rfl (.lift rfl (.lift rfl (.lift rfl hsum)))

end Pepp.Debug
