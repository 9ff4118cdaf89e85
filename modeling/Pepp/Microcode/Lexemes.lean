import Mathlib.Data.List.TakeWhile
import Pepp.Microcode.Lexer

/-!
# What the lexer reads

Every token takes at least one character of the source, and its text has the
form of its kind. Conversely, a text of that form, followed by a character that
cannot extend it, is read back as one token.
-/

namespace Pepp.Ucode

/-- An identifier: a letter or an underscore, then letters, digits and underscores. -/
def IsIdentifier (name : Text) : Prop :=
  ∃ c rest, name = c :: rest ∧ isIdentifierStart c = true ∧ ∀ c' ∈ rest, isIdentifierRest c' = true

def IsComment (comment : Text) : Prop := ∃ rest, comment = '/' :: '/' :: rest ∧ '\n' ∉ rest

/-- A name that declares a symbol, and neither of the two keywords. -/
def IsSymbol (name : Text) : Prop :=
  IsIdentifier name ∧ symbolToken (name ++ [':']) = .symbolDeclaration (name ++ [':'])

/-- The text of a token has the form of its kind. -/
def Token.Lexical : Token → Prop
  | .symbolDeclaration value => ∃ name, value = name ++ [':'] ∧ IsSymbol name
  | .inlineComment value => IsComment value
  | .identifier value => IsIdentifier value
  | _ => True

/-! ## Patterns -/

variable {p : Char → Bool} {c : Char}

theorem matchSome_spec {text matched rest : Text} (h : matchSome p text = some (matched, rest)) :
    text = matched ++ rest ∧ matched ≠ [] := by
  rw [matchSome] at h
  split at h
  · exact absurd h nofun
  · next hne =>
    obtain ⟨rfl, rfl⟩ := Prod.mk.inj (Option.some.inj h)
    exact ⟨List.takeWhile_append_dropWhile.symm, hne⟩

theorem matchIdentifier_spec {text name rest : Text} (h : matchIdentifier text = some (name, rest)) :
    text = name ++ rest ∧ IsIdentifier name := by
  match text with
  | [] => exact absurd h nofun
  | c :: text =>
    rw [matchIdentifier] at h
    split at h
    · next hc =>
      obtain ⟨rfl, rfl⟩ := Prod.mk.inj (Option.some.inj h)
      refine ⟨?_, c, _, rfl, hc, fun c' hc' => List.mem_takeWhile_imp hc'⟩
      rw [List.cons_append, List.takeWhile_append_dropWhile]
    · exact absurd h nofun

theorem matchSymbol_spec {text value rest : Text} (h : matchSymbol text = some (value, rest)) :
    text = value ++ rest ∧ ∃ name, value = name ++ [':'] ∧ IsIdentifier name := by
  rw [matchSymbol] at h
  split at h
  · next name rest' hname =>
    obtain ⟨rfl, rfl⟩ := Prod.mk.inj (Option.some.inj h)
    obtain ⟨rfl, hid⟩ := matchIdentifier_spec hname
    exact ⟨by simp, name, rfl, hid⟩
  · exact absurd h nofun

theorem matchLineNumber_length {text digits rest : Text} (h : matchLineNumber text = some (digits, rest)) :
    rest.length < text.length := by
  rw [matchLineNumber] at h
  split at h
  · next hdigits =>
    obtain ⟨rfl, rfl⟩ := Prod.mk.inj (Option.some.inj h)
    obtain ⟨rfl, -⟩ := matchSome_spec hdigits
    simp only [List.length_append, List.length_cons]
    omega
  · exact absurd h nofun

theorem matchHexadecimal_length {text digits rest : Text} (h : matchHexadecimal text = some (digits, rest)) :
    rest.length < text.length := by
  rw [matchHexadecimal.eq_def] at h
  split at h
  · split at h
    · obtain ⟨rfl, -⟩ := matchSome_spec h
      simp only [List.length_append, List.length_cons]
      omega
    · exact absurd h nofun
  · exact absurd h nofun

theorem matchComment_spec {text comment rest : Text} (h : matchComment text = some (comment, rest)) :
    rest.length < text.length ∧ IsComment comment := by
  rw [matchComment.eq_def] at h
  split at h
  · next text =>
    obtain ⟨rfl, rfl⟩ := Prod.mk.inj (Option.some.inj h)
    refine ⟨?_, _, rfl, fun hmem => ?_⟩
    · have := (List.dropWhile_suffix (l := text) (· != '\n')).length_le
      simp only [List.length_cons]
      omega
    · simpa using List.mem_takeWhile_imp hmem
  · exact absurd h nofun

theorem length_lt_of_append {text matched rest : Text} (h : text = matched ++ rest) (hne : matched ≠ []) :
    rest.length < text.length := by
  have := List.length_pos_iff.mpr hne
  rw [h, List.length_append]
  omega

theorem IsIdentifier.ne_nil {name : Text} (h : IsIdentifier name) : name ≠ [] := by
  obtain ⟨c, rest, rfl, -⟩ := h
  exact List.cons_ne_nil _ _

theorem lexical_symbolToken {name : Text} (h : IsIdentifier name) : (symbolToken (name ++ [':'])).Lexical := by
  rw [symbolToken]
  split
  · trivial
  · next hpre =>
    split
    · trivial
    · next hpost =>
      refine ⟨name, rfl, h, ?_⟩
      rw [symbolToken, if_neg hpre, if_neg hpost]

/-- A token takes the character it starts at, and maybe more. -/
theorem scan_spec (c : Char) (text : Text) :
    (scan c text).1.Lexical ∧ (scan c text).2.length ≤ text.length := by
  rw [scan]
  split
  · exact ⟨trivial, Nat.le_refl _⟩
  split
  · next name rest h =>
    obtain ⟨happ, name, rfl, hid⟩ := matchSymbol_spec h
    have := length_lt_of_append happ (by simp)
    exact ⟨lexical_symbolToken hid, Nat.lt_succ_iff.mp this⟩
  split
  · next name rest h =>
    obtain ⟨happ, hid⟩ := matchIdentifier_spec h
    have := length_lt_of_append happ hid.ne_nil
    exact ⟨hid, Nat.lt_succ_iff.mp this⟩
  split
  · next h => exact ⟨trivial, Nat.lt_succ_iff.mp (matchLineNumber_length h)⟩
  split
  · next h => exact ⟨trivial, Nat.lt_succ_iff.mp (matchHexadecimal_length h)⟩
  split
  · next h =>
    obtain ⟨happ, hne⟩ := matchSome_spec h
    exact ⟨trivial, Nat.lt_succ_iff.mp (length_lt_of_append happ hne)⟩
  split
  · next h => exact ⟨(matchComment_spec h).2, Nat.lt_succ_iff.mp (matchComment_spec h).1⟩
  · exact ⟨trivial, Nat.le_refl _⟩

namespace MicroLexer

theorem nextTokenFrom_length (row : Nat) (current : Option Token) (c : Char) (text : Text) :
    (nextTokenFrom row current (c :: text)).2.rest.length ≤ text.length := by
  induction text generalizing c current with
  | nil =>
    have hscan := (scan_spec c []).2
    rw [nextTokenFrom]
    split_ifs
    · exact Nat.le_refl _
    · exact Nat.le_refl _
    · exact Nat.le_refl _
    · exact hscan
  | cons c' text ih =>
    have hscan := (scan_spec c (c' :: text)).2
    rw [nextTokenFrom]
    split_ifs
    · exact Nat.le_refl _
    · exact (ih _ c').trans (Nat.le_succ _)
    · exact (ih _ c').trans (Nat.le_succ _)
    · exact hscan

theorem nextTokenFrom_lexical {row : Nat} {current : Option Token} {text : Text} {t : Token} {l : MicroLexer}
    (hcurrent : ∀ t ∈ current, t.Lexical) (h : nextTokenFrom row current text = (some t, l)) : t.Lexical := by
  induction text generalizing current with
  | nil => exact hcurrent t (Prod.mk.inj h).1
  | cons c text ih =>
    rw [nextTokenFrom] at h
    split_ifs at h
    · rw [← Option.some.inj (Prod.mk.inj h).1]
      trivial
    · exact ih (fun t ht => by rw [← Option.some.inj ht]; trivial) h
    · exact ih hcurrent h
    · rw [← Option.some.inj (Prod.mk.inj h).1]
      exact (scan_spec c text).1

variable {l l' : MicroLexer} {t : Token}

theorem nextToken_lexical (h : l.nextToken = (some t, l')) : t.Lexical :=
  nextTokenFrom_lexical (fun _ hnone => absurd hnone (Option.not_mem_none _)) h

theorem nextToken_length (h : l.nextToken = (some t, l')) : l'.rest.length < l.rest.length := by
  obtain ⟨row, text⟩ := l
  match text with
  | [] => exact absurd h nofun
  | c :: text =>
    have := nextTokenFrom_length row none c text
    rw [show nextTokenFrom row none (c :: text) = (some t, l') from h] at this
    exact Nat.lt_succ_of_le this

theorem nextToken_none (h : l.nextToken = (none, l')) : l'.rest.length ≤ l.rest.length := by
  obtain ⟨row, text⟩ := l
  match text with
  | [] => rw [← (Prod.mk.inj h).2]
  | c :: text =>
    have := nextTokenFrom_length row none c text
    rw [show nextTokenFrom row none (c :: text) = (none, l') from h] at this
    exact this.trans (Nat.le_succ _)

end MicroLexer

/-! ## Reading back -/

/-- A character that ends a name or a number. -/
def isDelimiter (c : Char) : Bool := isLiteral c || c == '/' || c == '\n'

def Delimited (text : Text) : Prop := ∀ c ∈ text.head?, isDelimiter c = true

theorem delimited_cons {text : Text} (h : isDelimiter c = true) : Delimited (c :: text) := by
  rintro c' ⟨⟩
  exact h

theorem isDelimiter_cases (h : isDelimiter c = true) :
    c = '[' ∨ c = ']' ∨ c = '=' ∨ c = ',' ∨ c = ';' ∨ c = '/' ∨ c = '\n' := by
  simpa [isDelimiter, isLiteral, or_assoc] using h

theorem Delimited.stops (hp : ∀ c, isDelimiter c = true → p c = false) {text : Text} (h : Delimited text) :
    text.takeWhile p = [] ∧ text.dropWhile p = text := by
  match text with
  | [] => exact ⟨rfl, rfl⟩
  | c :: text =>
    have hc := hp c (h c rfl)
    exact ⟨by rw [List.takeWhile_cons, hc]; rfl, by rw [List.dropWhile_cons, hc]; rfl⟩

theorem Delimited.span (hp : ∀ c, isDelimiter c = true → p c = false) {name text : Text}
    (hname : ∀ c ∈ name, p c = true) (h : Delimited text) :
    (name ++ text).takeWhile p = name ∧ (name ++ text).dropWhile p = text := by
  rw [List.takeWhile_append_of_pos hname, List.dropWhile_append_of_pos hname, (h.stops hp).1, (h.stops hp).2,
    List.append_nil]
  exact ⟨rfl, rfl⟩

theorem delimiter_not_rest (c : Char) (h : isDelimiter c = true) : isIdentifierRest c = false := by
  rcases isDelimiter_cases h with rfl | rfl | rfl | rfl | rfl | rfl | rfl <;> rfl

theorem delimiter_not_digit (c : Char) (h : isDelimiter c = true) : c.isDigit = false := by
  rcases isDelimiter_cases h with rfl | rfl | rfl | rfl | rfl | rfl | rfl <;> rfl

theorem delimiter_not_hex (c : Char) (h : isDelimiter c = true) : isHexDigit c = false := by
  rcases isDelimiter_cases h with rfl | rfl | rfl | rfl | rfl | rfl | rfl <;> rfl

theorem matchIdentifier_append {name text : Text} (hname : IsIdentifier name)
    (h : (text.takeWhile isIdentifierRest) = [] ∧ text.dropWhile isIdentifierRest = text) :
    matchIdentifier (name ++ text) = some (name, text) := by
  obtain ⟨c, rest, rfl, hc, hrest⟩ := hname
  rw [List.cons_append, matchIdentifier, if_pos hc, List.takeWhile_append_of_pos hrest,
    List.dropWhile_append_of_pos hrest, h.1, h.2, List.append_nil]

/-! ### First characters -/

theorem start_toNat (h : isIdentifierStart c = true) : 65 ≤ c.toNat := by
  delta isIdentifierStart Char.isAlpha Char.isUpper Char.isLower at h
  simp only [Bool.or_eq_true, Bool.and_eq_true, decide_eq_true_iff, beq_iff_eq, ge_iff_le, UInt32.le_iff_toNat_le] at h
  rcases h with (⟨h, -⟩ | ⟨h, -⟩) | rfl
  · exact h
  · exact le_trans (by decide) h
  · decide

theorem space_toNat (h : isSpace c = true) : c.toNat ≤ 32 := by
  simp only [isSpace, Bool.or_eq_true, Bool.and_eq_true, decide_eq_true_iff, beq_iff_eq, Char.le_def,
    UInt32.le_iff_toNat_le] at h
  rcases h with rfl | ⟨-, h⟩
  · decide
  · exact le_trans h (by decide)

theorem digit_toNat (h : c.isDigit = true) : 48 ≤ c.toNat ∧ c.toNat ≤ 57 :=
  Char.isDigit_iff_toNat.mp h

theorem literal_not_start (h : isLiteral c = true) : isIdentifierStart c = false ∧ c.isDigit = false := by
  have hc : c = '[' ∨ c = ']' ∨ c = '=' ∨ c = ',' ∨ c = ';' := by simpa [isLiteral, or_assoc] using h
  rcases hc with rfl | rfl | rfl | rfl | rfl <;> exact ⟨rfl, rfl⟩

theorem digit_not_start (h : c.isDigit = true) : isIdentifierStart c = false := by
  by_contra hstart
  have := start_toNat (by simpa using hstart)
  have := digit_toNat h
  omega

theorem matchIdentifier_of_not_start (text : Text) (h : isIdentifierStart c = false) :
    matchIdentifier (c :: text) = none := by rw [matchIdentifier, h]; rfl

theorem matchSymbol_of_not_start (text : Text) (h : isIdentifierStart c = false) :
    matchSymbol (c :: text) = none := by rw [matchSymbol, matchIdentifier_of_not_start text h]

theorem matchDecimal_append {digits text : Text} (hdigits : ∀ c ∈ digits, c.isDigit = true) (hne : digits ≠ [])
    (h : text.takeWhile Char.isDigit = [] ∧ text.dropWhile Char.isDigit = text) :
    matchDecimal (digits ++ text) = some (digits, text) := by
  rw [matchDecimal, matchSome, List.takeWhile_append_of_pos hdigits, List.dropWhile_append_of_pos hdigits, h.1, h.2,
    List.append_nil, if_neg hne]

namespace MicroLexer

variable {row : Nat} {name digits text : Text}

@[simp] theorem nextToken_newline : nextToken ⟨row, '\n' :: text⟩ = (some .empty, ⟨row + 1, text⟩) := rfl

/-- Past white space the next token is what the patterns find. -/
theorem nextToken_solid {c : Char} (h : 33 ≤ c.toNat) :
    nextToken ⟨row, c :: text⟩ = (some (scan c text).1, ⟨row, (scan c text).2⟩) := by
  have hnewline : c ≠ '\n' := by
    rintro rfl
    exact absurd h (by decide)
  have hreturn : c ≠ '\r' := by
    rintro rfl
    exact absurd h (by decide)
  have hspace : isSpace c ≠ true := fun hs => absurd (space_toNat hs) (by omega)
  rw [nextToken, nextTokenFrom, if_neg hnewline, if_neg hreturn, if_neg hspace]

theorem nextToken_literal {c : Char} (h : isLiteral c = true) :
    nextToken ⟨row, c :: text⟩ = (some (.literal c), ⟨row, text⟩) := by
  have hc : 33 ≤ c.toNat := by
    have hc : c = '[' ∨ c = ']' ∨ c = '=' ∨ c = ',' ∨ c = ';' := by simpa [isLiteral, or_assoc] using h
    rcases hc with rfl | rfl | rfl | rfl | rfl <;> decide
  rw [nextToken_solid hc, scan, if_pos h]

theorem nextToken_identifier (hname : IsIdentifier name) (h : Delimited text) :
    nextToken ⟨row, name ++ text⟩ = (some (.identifier name), ⟨row, text⟩) := by
  have hid := matchIdentifier_append hname (h.stops delimiter_not_rest)
  obtain ⟨c, rest, rfl, hc, -⟩ := hname
  have hlit : isLiteral c ≠ true := fun hl => absurd hc (by rw [(literal_not_start hl).1]; decide)
  have hsym : matchSymbol (c :: rest ++ text) = none := by
    rw [matchSymbol, hid]
    match text with
    | [] => rfl
    | c' :: text =>
      have hc' : c' ≠ ':' := by
        rintro rfl
        exact absurd (h ':' rfl) (by decide)
      split
      · next hcons => exact absurd (List.cons.inj (Prod.mk.inj (Option.some.inj hcons)).2).1 hc'
      · rfl
  rw [List.cons_append, nextToken_solid (by have := start_toNat hc; omega), scan, if_neg hlit]
  simp only [← List.cons_append, hsym, hid]

theorem nextToken_symbol (hname : IsIdentifier name) :
    nextToken ⟨row, name ++ ':' :: text⟩ = (some (symbolToken (name ++ [':'])), ⟨row, text⟩) := by
  have hid : matchIdentifier (name ++ ':' :: text) = some (name, ':' :: text) :=
    matchIdentifier_append hname ⟨rfl, rfl⟩
  obtain ⟨c, rest, rfl, hc, -⟩ := hname
  have hlit : isLiteral c ≠ true := fun hl => absurd hc (by rw [(literal_not_start hl).1]; decide)
  rw [List.cons_append, nextToken_solid (by have := start_toNat hc; omega), scan, if_neg hlit]
  simp only [← List.cons_append, matchSymbol, hid]

theorem scan_digit {c : Char} (hc : c.isDigit = true) :
    scan c text = match matchLineNumber (c :: text) with
      | some (digits, rest) => (.lineNumber (fromChars 10 digits), rest)
      | none => match matchHexadecimal (c :: text) with
      | some (digits, rest) => (.integer (fromChars 16 digits) .Hex, rest)
      | none => match matchDecimal (c :: text) with
      | some (digits, rest) => (.integer (fromChars 10 digits) .UnsignedDec, rest)
      | none => match matchComment (c :: text) with
      | some (comment, rest) => (.inlineComment comment, rest)
      | none => (.invalid [c], text) := by
  have hlit : isLiteral c ≠ true := fun hl => absurd hc (by rw [(literal_not_start hl).2]; decide)
  rw [scan, if_neg hlit, matchSymbol_of_not_start _ (digit_not_start hc),
    matchIdentifier_of_not_start _ (digit_not_start hc)]
  all_goals rfl

theorem nextToken_lineNumber (hdigits : ∀ c ∈ digits, c.isDigit = true) (hne : digits ≠ []) :
    nextToken ⟨row, digits ++ '.' :: text⟩ = (some (.lineNumber (fromChars 10 digits)), ⟨row, text⟩) := by
  have hdec : matchDecimal (digits ++ '.' :: text) = some (digits, '.' :: text) :=
    matchDecimal_append hdigits hne ⟨rfl, rfl⟩
  cases digits with
  | nil => exact absurd rfl hne
  | cons c digits =>
    have hc := hdigits c List.mem_cons_self
    rw [List.cons_append, nextToken_solid (by have := digit_toNat hc; omega), scan_digit hc]
    simp only [← List.cons_append, matchLineNumber, hdec]

theorem nextToken_decimal (hdigits : ∀ c ∈ digits, c.isDigit = true) (hne : digits ≠ []) (h : Delimited text) :
    nextToken ⟨row, digits ++ text⟩ = (some (.integer (fromChars 10 digits) .UnsignedDec), ⟨row, text⟩) := by
  have hdec := matchDecimal_append hdigits hne (h.stops delimiter_not_digit)
  have hnum : matchLineNumber (digits ++ text) = none := by
    rw [matchLineNumber, hdec]
    split
    · next hcons =>
      have hdot := h '.' (by rw [(Prod.mk.inj (Option.some.inj hcons)).2]; rfl)
      exact absurd hdot (by decide)
    · rfl
  have hhex : matchHexadecimal (digits ++ text) = none := by
    rw [matchHexadecimal.eq_def]
    split
    · next x rest hcons =>
      rw [if_neg]
      intro hx
      have hx : x = 'x' ∨ x = 'X' := by simpa using hx
      cases digits with
      | nil => exact hne rfl
      | cons c digits =>
        cases digits with
        | nil =>
          have htext : text = x :: rest := (List.cons.inj hcons).2
          have hd := h x (by rw [htext]; rfl)
          rcases hx with rfl | rfl <;> exact absurd hd (by decide)
        | cons c' digits =>
          have hd := hdigits c' (by simp)
          rw [(List.cons.inj (List.cons.inj hcons).2).1] at hd
          rcases hx with rfl | rfl <;> exact absurd hd (by decide)
    · rfl
  cases digits with
  | nil => exact absurd rfl hne
  | cons c digits =>
    have hc := hdigits c List.mem_cons_self
    rw [List.cons_append, nextToken_solid (by have := digit_toNat hc; omega), scan_digit hc]
    simp only [← List.cons_append, hnum, hhex, hdec]

theorem nextToken_hexadecimal (hdigits : ∀ c ∈ digits, isHexDigit c = true) (hne : digits ≠ []) (h : Delimited text) :
    nextToken ⟨row, '0' :: 'x' :: (digits ++ text)⟩ = (some (.integer (fromChars 16 digits) .Hex), ⟨row, text⟩) := by
  have hspan := h.span delimiter_not_hex hdigits
  have hhex : matchHexadecimal ('0' :: 'x' :: (digits ++ text)) = some (digits, text) := by
    rw [matchHexadecimal, if_pos (by decide), matchSome, hspan.1, hspan.2, if_neg hne]
  have hnum : matchLineNumber ('0' :: 'x' :: (digits ++ text)) = none := rfl
  rw [nextToken_solid (by decide), scan_digit (by decide)]
  simp only [hnum, hhex]

theorem nextToken_comment {comment : Text} (h : IsComment comment) :
    nextToken ⟨row, comment ++ '\n' :: text⟩ = (some (.inlineComment comment), ⟨row, '\n' :: text⟩) := by
  obtain ⟨rest, rfl, hrest⟩ := h
  have hne : ∀ c ∈ rest, (c != '\n') = true := by
    intro c hc
    refine bne_iff_ne.mpr ?_
    rintro rfl
    exact hrest hc
  have hcomment : matchComment ('/' :: '/' :: (rest ++ '\n' :: text)) = some ('/' :: '/' :: rest, '\n' :: text) := by
    rw [matchComment, List.takeWhile_append_of_pos hne, List.dropWhile_append_of_pos hne]
    simp
  rw [List.cons_append, List.cons_append, nextToken_solid (by decide), scan, if_neg (by decide),
    matchSymbol_of_not_start _ (by decide), matchIdentifier_of_not_start _ (by decide)]
  have hnum : matchLineNumber ('/' :: '/' :: (rest ++ '\n' :: text)) = none := rfl
  have hhex : matchHexadecimal ('/' :: '/' :: (rest ++ '\n' :: text)) = none := rfl
  have hdec : matchDecimal ('/' :: '/' :: (rest ++ '\n' :: text)) = none := rfl
  simp only [hnum, hhex, hdec, hcomment]

end MicroLexer

end Pepp.Ucode
