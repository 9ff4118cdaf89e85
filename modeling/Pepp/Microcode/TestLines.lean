import Pepp.Microcode.CodeLines

/-!
# Lines of tests

A test is read back with the number that its digits stand for. Only a word of
memory can come back as another number: its bytes are written one after the
other, and a low byte of one digit moves the high byte down.
-/

namespace Pepp.Ucode

open Outcome Numerals

/-- The digits of the value that a test of memory is written with. -/
def MemTest.digits (t : MemTest) : Text :=
  numeral 16 t.value.1.toNat ++ if t.size = 2 then numeral 16 t.value.2.toNat else []

/-- The test that is read from the text of a test. -/
def MemTest.reread (t : MemTest) : MemTest :=
  let n := Numerals.value 16 t.digits
  if n < 256 then .ofByte t.address (.ofNat 8 n) else .ofWord t.address (.ofNat 16 n)

def Test.reread : Test → Test
  | .mem t => .mem t.reread
  | t => t

/-- Tests of a word keep their value if the low byte has two digits. -/
def Test.Legible : Test → Prop
  | .mem t => t.size = 2 → 16 ≤ t.value.2.toNat
  | _ => True

instance : DecidablePred Test.Legible
  | .mem t => inferInstanceAs (Decidable (t.size = 2 → 16 ≤ t.value.2.toNat))
  | .register _ => .isTrue trivial
  | .csr _ => .isTrue trivial

/-! ## Values of memory -/

variable {t : MemTest}

theorem value_digits_byte (h : t.size = 1) : value 16 t.digits = t.value.1.toNat := by
  rw [MemTest.digits, if_neg (by omega), List.append_nil, value_numeral (by decide) (by decide)]

theorem value_digits_word (h : t.size = 2) :
    value 16 t.digits = t.value.1.toNat * (if 16 ≤ t.value.2.toNat then 256 else 16) + t.value.2.toNat := by
  rw [MemTest.digits, if_pos h, value_append, value_numeral (by decide) (by decide),
    value_numeral (by decide) (by decide)]
  split
  · next hlow =>
    rw [length_numeral_two (by decide) hlow t.value.2.isLt]
    rfl
  · next hlow => rw [length_numeral_of_lt (Nat.lt_of_not_le hlow), Nat.pow_one]

theorem value_digits_le (h : (Test.mem t).Sound) : value 16 t.digits ≤ 0xFFFF := by
  have hhigh := t.value.1.isLt
  have hlow := t.value.2.isLt
  rcases h with ⟨hsize, -⟩ | ⟨hsize, -⟩
  · rw [value_digits_byte hsize]
    omega
  · rw [value_digits_word hsize]
    split <;> omega

theorem bytes_ofWord {n : Nat} (h : n < 65536) (address : U16) :
    (MemTest.ofWord address (.ofNat 16 n)).value.1.toNat * 256 +
      (MemTest.ofWord address (.ofNat 16 n)).value.2.toNat = n := by
  simp only [MemTest.ofWord, hiByte, loByte, BitVec.toNat_setWidth, BitVec.toNat_ushiftRight, BitVec.toNat_ofNat,
    Nat.shiftRight_eq_div_pow]
  omega

theorem ofWord_bytes (address : U16) (high low : U8) :
    MemTest.ofWord address (.ofNat 16 (high.toNat * 256 + low.toNat)) = ⟨(high, low), address, 2⟩ := by
  have hhigh := high.isLt
  have hlow := low.isLt
  have hbytes := bytes_ofWord (show high.toNat * 256 + low.toNat < 65536 by omega) address
  set t := MemTest.ofWord address (.ofNat 16 (high.toNat * 256 + low.toNat)) with ht
  have hhi := t.value.1.isLt
  have hlo := t.value.2.isLt
  have hfst : t.value.1 = high := BitVec.eq_of_toNat_eq (by omega)
  have hsnd : t.value.2 = low := BitVec.eq_of_toNat_eq (by omega)
  rw [← hfst, ← hsnd, ht, MemTest.ofWord]

/-- A test comes back as it was if and only if it is legible. -/
theorem Test.reread_eq_iff {t : Test} (h : t.Sound) : t.reread = t ↔ t.Legible := by
  match t, h with
  | .register _, _ => exact iff_of_true rfl trivial
  | .csr _, _ => exact iff_of_true rfl trivial
  | .mem ⟨(byte, zero), address, size⟩, .inl ⟨hsize, hzero⟩ =>
    have hlt := byte.isLt
    have hvalue := @value_digits_byte ⟨(byte, zero), address, size⟩ hsize
    dsimp only at hsize hzero hvalue
    refine iff_of_true ?_ fun h => absurd (hsize.symm.trans h) (by decide)
    rw [reread, MemTest.reread, hvalue, if_pos hlt, BitVec.ofNat_toNat, BitVec.setWidth_eq, MemTest.ofByte, hsize, hzero]
  | .mem ⟨(high, low), address, size⟩, .inr ⟨hsize, hhigh⟩ =>
    have hlt := high.isLt
    have hlow := low.isLt
    have hpos : 0 < high.toNat := Nat.pos_of_ne_zero fun h => hhigh (BitVec.eq_of_toNat_eq h)
    have hvalue := @value_digits_word ⟨(high, low), address, size⟩ hsize
    dsimp only at hsize hvalue
    rw [Legible, reread, MemTest.reread, hvalue]
    by_cases hlegible : 16 ≤ low.toNat
    · rw [if_pos hlegible, if_neg (by omega), ofWord_bytes, hsize]
      exact iff_of_true rfl fun _ => hlegible
    · rw [if_neg hlegible]
      refine iff_of_false (fun heq => ?_) fun h => hlegible (h hsize)
      have heq := Test.mem.inj heq
      split at heq
      · have hone : 1 = size := congrArg MemTest.size heq
        omega
      · have hbytes := bytes_ofWord (show high.toNat * 16 + low.toNat < 65536 by omega) address
        rw [heq] at hbytes
        dsimp only at hbytes
        omega

/-! ## Reading a test -/

section Reading

variable {row : Nat} {text : Text} {b : MicroBuffer}

theorem expectLiteral_text {c : Char} {message : String} (hc : isLiteral c = true) (matched : List Token) :
    expectLiteral c message ⟨matched, [], ⟨row, c :: text⟩⟩ = .ok () ⟨matched ++ [.literal c], [], ⟨row, text⟩⟩ :=
  expectLiteral_hit (Lex.Buffer.fill_nil (MicroLexer.nextToken_literal hc))

theorem expectInteger_hex {digits : Text} {message : String} (hdigits : ∀ c ∈ digits, IsDigit 16 c) (hne : digits ≠ [])
    (hvalue : value 16 digits < 2 ^ 31) (htext : Delimited text) (matched : List Token) :
    expectInteger message ⟨matched, [], ⟨row, '0' :: 'x' :: (digits ++ text)⟩⟩ =
      .ok (value 16 digits, .Hex) ⟨matched ++ [.integer (value 16 digits) .Hex], [], ⟨row, text⟩⟩ := by
  refine expectInteger_hit (Lex.Buffer.fill_nil ?_)
  have hhex : ∀ c ∈ digits, isHexDigit c = true := by
    intro c hc
    obtain ⟨d, hd, rfl⟩ := hdigits c hc
    interval_cases d <;> decide
  have hnext := @MicroLexer.nextToken_hexadecimal row _ _ hhex hne htext
  rwa [fromChars, if_pos hvalue] at hnext

theorem padded_ne_nil (width n : Nat) : padded 16 width n ≠ [] := by
  rw [padded, Ne, List.append_eq_nil_iff, not_and]
  exact fun _ => numeral_ne_nil n

theorem toNat_lt_word (w : U16) : w.toNat < 2 ^ 31 := w.isLt.trans (by decide)

theorem MemTest.toText_append (t : MemTest) (text : Text) :
    t.toText ++ text = ['M', 'e', 'm'] ++ '[' :: '0' :: 'x' :: (padded 16 4 t.address.toNat ++
      (']' :: '=' :: '0' :: 'x' :: (t.digits ++ text))) := by
  have hopen : "Mem[0x".toList = ['M', 'e', 'm', '[', '0', 'x'] := by decide
  have hclose : "]=0x".toList = [']', '=', '0', 'x'] := by decide
  unfold MemTest.toText MemTest.digits
  rw [hopen, hclose]
  simp only [List.append_assoc, List.cons_append, List.nil_append]

theorem RegisterTest.toText_append (t : RegisterTest) (text : Text) :
    t.toText ++ text = t.reg.name ++ '=' :: '0' :: 'x' ::
      (padded 16 (2 * t.reg.byteSize) (t.value &&& registerMask t.reg.byteSize).toNat ++ text) := by
  simp [RegisterTest.toText, List.append_assoc]

theorem CSRTest.toText_append (t : CSRTest) (text : Text) :
    t.toText ++ text = t.reg.name ++ '=' :: (numeral 10 t.value.toNat ++ text) := by
  simp [CSRTest.toText, List.append_assoc]

/-- From the bracket on. -/
theorem memTest_text {t : MemTest} (h : (Test.mem t).Sound) (htext : Delimited text) (matched : List Token) :
    ∃ matched', memTest ⟨matched, [], ⟨row, '[' :: '0' :: 'x' :: (padded 16 4 t.address.toNat ++
      (']' :: '=' :: '0' :: 'x' :: (t.digits ++ text)))⟩⟩ = .ok t.reread ⟨matched', [], ⟨row, text⟩⟩ := by
  have hle := value_digits_le h
  have haddress := value_padded (b := 16) (by decide) (by decide) 4 t.address.toNat
  have hlt := t.address.isLt
  have hdigits : ∀ c ∈ t.digits, IsDigit 16 c := by
    refine List.forall_mem_append.mpr ⟨isDigit_numeral (by decide) _, ?_⟩
    split
    · exact isDigit_numeral (by decide) _
    · exact fun c hc => absurd hc List.not_mem_nil
  have hne : t.digits ≠ [] := by
    rw [MemTest.digits, Ne, List.append_eq_nil_iff, not_and]
    exact fun hnil => absurd hnil (numeral_ne_nil _)
  refine ⟨matched ++ [.literal '['] ++ [.integer t.address.toNat .Hex] ++ [.literal ']'] ++ [.literal '='] ++
    [.integer (value 16 t.digits) .Hex], ?_⟩
  rw [memTest, bind_apply_ok (expectLiteral_text (by decide) _), bind_apply_ok (expectInteger_hex
    (isDigit_padded (by decide) _ _) (padded_ne_nil _ _) (by rw [haddress]; exact toNat_lt_word _)
    (delimited_cons rfl) _), haddress, bind_apply_ok (require_pos rfl), bind_apply_ok (require_pos (by omega)),
    bind_apply_ok (expectLiteral_text (by decide) _), bind_apply_ok (expectLiteral_text (by decide) _),
    bind_apply_ok (expectInteger_hex hdigits hne (by omega) htext _), bind_apply_ok (require_pos (.inl rfl)),
    bind_apply_ok (require_pos hle), BitVec.ofNat_toNat, BitVec.setWidth_eq, MemTest.reread]
  dsimp only
  split <;> rfl

variable (reg : NamedRegisters)

theorem byteSize_cases : reg.byteSize = 1 ∨ reg.byteSize = 2 ∨ reg.byteSize = 3 := by
  cases reg <;> decide

theorem and_registerMask {reg : NamedRegisters} {value : U32} (h : value.toNat < 2 ^ (8 * reg.byteSize)) :
    value &&& registerMask reg.byteSize = value := by
  have hmask : ∀ n, value.toNat < 2 ^ n → value.toNat &&& (2 ^ n - 1) = value.toNat := fun n hn => by
    rw [Nat.and_two_pow_sub_one_eq_mod, Nat.mod_eq_of_lt hn]
  rw [← BitVec.toNat_inj, BitVec.toNat_and]
  rcases byteSize_cases reg with hsize | hsize | hsize <;> rw [hsize] at h ⊢
  · exact hmask 8 h
  · exact hmask 16 h
  · exact hmask 32 value.isLt

/-- From the equals sign on. -/
theorem registerTest_text {t : RegisterTest} (h : (Test.register t).Sound) (htext : Delimited text)
    (matched : List Token) :
    ∃ matched', registerTest t.reg ⟨matched, [], ⟨row, '=' :: '0' :: 'x' ::
      (padded 16 (2 * t.reg.byteSize) (t.value &&& registerMask t.reg.byteSize).toNat ++ text)⟩⟩ =
        .ok t ⟨matched', [], ⟨row, text⟩⟩ := by
  rw [and_registerMask h]
  have hvalue := value_padded (b := 16) (by decide) (by decide) (2 * t.reg.byteSize) t.value.toNat
  have hlt : t.value.toNat < 2 ^ (8 * t.reg.byteSize) := h
  have hsmall : t.value.toNat < 2 ^ 31 := by
    rcases byteSize_cases t.reg with hsize | hsize | hsize <;> rw [hsize] at hlt <;> omega
  refine ⟨matched ++ [.literal '='] ++ [.integer t.value.toNat .Hex], ?_⟩
  rw [registerTest, bind_apply_ok (expectLiteral_text (by decide) _), bind_apply_ok (expectInteger_hex
    (isDigit_padded (by decide) _ _) (padded_ne_nil _ _) (by rw [hvalue]; exact hsmall) htext _), hvalue,
    bind_apply_ok (require_pos (.inl rfl)), bind_apply_ok (require_pos (by omega)), BitVec.ofNat_toNat, BitVec.setWidth_eq]
  rfl

theorem csrTest_text {t : CSRTest} (htext : Delimited text) (matched : List Token) :
    ∃ matched', csrTest t.reg ⟨matched, [], ⟨row, '=' :: (numeral 10 t.value.toNat ++ text)⟩⟩ =
      .ok t ⟨matched', [], ⟨row, text⟩⟩ := by
  have hlt : t.value.toNat < 2 ^ 31 := by cases t.value <;> decide
  have hle : t.value.toNat ≤ 1 := by cases t.value <;> decide
  have hfill : ∀ m, Lex.Buffer.fill ⟨m, [], ⟨row, numeral 10 t.value.toNat ++ text⟩⟩ =
      (⟨m, [.integer t.value.toNat .UnsignedDec], ⟨row, text⟩⟩ : MicroBuffer) :=
    fun m => Lex.Buffer.fill_nil (nextToken_numeral _ hlt htext)
  refine ⟨matched ++ [.literal '='] ++ [.integer t.value.toNat .UnsignedDec], ?_⟩
  rw [csrTest, bind_apply_ok (expectLiteral_text (by decide) _), bind_apply_ok (expectInteger_hit (hfill _)),
    bind_apply_ok (require_pos rfl), bind_apply_ok (require_pos hle)]
  obtain ⟨reg, value⟩ := t
  cases value <;> rfl

theorem isIdentifier_register : IsIdentifier reg.name :=
  isIdentifier_of_all (by cases reg <;> decide)

theorem isIdentifier_csr (reg : CSRs) : IsIdentifier reg.name := isIdentifier_of_all (by cases reg <;> decide)

theorem parseRegister_name : sameName reg.name "mem".toList = false ∧ parseRegister reg.name = some reg := by
  cases reg <;> decide

theorem parseCsr_name (reg : CSRs) :
    sameName reg.name "mem".toList = false ∧ parseRegister reg.name = none ∧ parseCsr reg.name = some reg := by
  cases reg <;> decide

theorem test_identifier {name : Text} {matched : List Token} (hname : IsIdentifier name) (htext : Delimited text)
    (hb : b.fill = Lex.Buffer.fill ⟨matched, [], ⟨row, name ++ text⟩⟩) :
    matchAs Token.identifier? b = .ok (some name) ⟨matched ++ [.identifier name], [], ⟨row, text⟩⟩ :=
  matchAs_hit (hb.trans (Lex.Buffer.fill_nil (MicroLexer.nextToken_identifier hname htext))) rfl

/-- A test begins with a name. -/
theorem Test.toText_append (t : Test) (text : Text) :
    ∃ name text', IsIdentifier name ∧ Delimited text' ∧ t.toText ++ text = name ++ text' := by
  match t with
  | .mem t => exact ⟨_, _, isIdentifier_of_all (by decide), delimited_cons rfl, t.toText_append text⟩
  | .register t => exact ⟨_, _, isIdentifier_register t.reg, delimited_cons rfl, t.toText_append text⟩
  | .csr t => exact ⟨_, _, isIdentifier_csr t.reg, delimited_cons rfl, t.toText_append text⟩

/-- The text of a test is read as a test. -/
theorem test_text {t : Test} (h : t.Sound) (htext : Delimited text) {matched : List Token}
    (hb : b.fill = Lex.Buffer.fill ⟨matched, [], ⟨row, t.toText ++ text⟩⟩) :
    ∃ matched', test b = .ok t.reread ⟨matched', [], ⟨row, text⟩⟩ := by
  match t with
  | .mem t =>
    change b.fill = Lex.Buffer.fill ⟨matched, [], ⟨row, t.toText ++ text⟩⟩ at hb
    rw [MemTest.toText_append] at hb
    obtain ⟨matched', hrun⟩ := @memTest_text row _ _ h htext (matched ++ [.identifier ['M', 'e', 'm']])
    have hname : IsIdentifier ['M', 'e', 'm'] := isIdentifier_of_all (by decide)
    refine ⟨matched', ?_⟩
    rw [test, bind_apply_ok (test_identifier hname (delimited_cons rfl) hb)]
    dsimp only
    rw [if_pos (by decide), bind_apply_ok hrun]
    rfl
  | .register t =>
    change b.fill = Lex.Buffer.fill ⟨matched, [], ⟨row, t.toText ++ text⟩⟩ at hb
    rw [RegisterTest.toText_append] at hb
    obtain ⟨matched', hrun⟩ := @registerTest_text row _ _ h htext (matched ++ [.identifier t.reg.name])
    refine ⟨matched', ?_⟩
    rw [test, bind_apply_ok (test_identifier (isIdentifier_register t.reg) (delimited_cons rfl) hb)]
    dsimp only
    rw [if_neg (by rw [(parseRegister_name t.reg).1]; decide), (parseRegister_name t.reg).2]
    dsimp only
    rw [bind_apply_ok hrun]
    rfl
  | .csr t =>
    change b.fill = Lex.Buffer.fill ⟨matched, [], ⟨row, t.toText ++ text⟩⟩ at hb
    rw [CSRTest.toText_append] at hb
    obtain ⟨matched', hrun⟩ := @csrTest_text row _ t htext (matched ++ [.identifier t.reg.name])
    refine ⟨matched', ?_⟩
    rw [test, bind_apply_ok (test_identifier (isIdentifier_csr t.reg) (delimited_cons rfl) hb)]
    dsimp only
    rw [if_neg (by rw [(parseCsr_name t.reg).1]; decide), (parseCsr_name t.reg).2.1, (parseCsr_name t.reg).2.2]
    dsimp only
    rw [bind_apply_ok hrun]
    rfl

/-- The buffer at the name of a test, and the test that is read there. -/
theorem test_fill {t : Test} (h : t.Sound) (htext : Delimited text) {matched : List Token}
    (hb : b.fill = Lex.Buffer.fill ⟨matched, [], ⟨row, t.toText ++ text⟩⟩) :
    (∃ name l, b.fill = ⟨matched, [.identifier name], l⟩) ∧
      ∃ matched', test b.fill = .ok t.reread ⟨matched', [], ⟨row, text⟩⟩ := by
  obtain ⟨name, text', hname, htext', heq⟩ := t.toText_append text
  have hfill : b.fill = ⟨matched, [.identifier name], ⟨row, text'⟩⟩ := by
    rw [hb, heq]
    exact Lex.Buffer.fill_nil (MicroLexer.nextToken_identifier hname htext')
  refine ⟨⟨name, ⟨row, text'⟩, hfill⟩, ?_⟩
  refine @test_text _ _ _ _ h htext matched (Eq.trans ?_ hb)
  rw [hfill]
  rfl

end Reading

section Turns

variable {S : Type} {p : Progress S} {b : MicroBuffer} {matched : List Token} {row : Nat} {text : Text}

theorem testTurn_comma {t : Test} (htest : test b = .ok t ⟨matched, [], ⟨row, ',' :: text⟩⟩) :
    testTurn p b = .ok (.again { p with code.tests := p.code.tests ++ [t] })
      ⟨matched ++ [.literal ','], [], ⟨row, text⟩⟩ := by
  rw [testTurn, bind_apply_ok htest, bind_apply_ok (peek_fill (Lex.Buffer.fill_nil (MicroLexer.nextToken_literal rfl)))]
  rfl

theorem testTurn_newline {t : Test} (htest : test b = .ok t ⟨matched, [], ⟨row, '\n' :: text⟩⟩) :
    testTurn p b = .ok (.done { p.code with tests := p.code.tests ++ [t] })
      ⟨matched ++ [.empty], [], ⟨row + 1, text⟩⟩ := by
  rw [testTurn, bind_apply_ok htest, bind_apply_ok (peek_fill (Lex.Buffer.fill_nil MicroLexer.nextToken_newline))]
  rfl

end Turns

/-! ## Reading a line -/

section Lines

variable {S : Type} [Uarch S] {p : Progress S} {b : MicroBuffer} {matched : List Token} {row : Nat} {text rest : Text}

/-- What stands before the tests of a line. -/
def LineType.header : LineType → Text
  | .Code => []
  | .Pre => "UnitPre".toList
  | .Post => "UnitPost".toList

theorem turn_test (hb : b.fill = Lex.Buffer.fill ⟨matched, [], ⟨row, text⟩⟩) (hmatched : matched ≠ [])
    (htype : p.code.type ≠ .Code) : turn p b = testTurn p b.fill := by
  have hempty : b.matched.isEmpty = false := by
    have hb := congrArg Lex.Buffer.matched hb
    rw [Lex.Buffer.matched_fill, Lex.Buffer.matched_fill] at hb
    rw [hb]
    simpa using hmatched
  rw [turn_apply, hempty, if_neg htype]

/-- What is left of a line after its first test. -/
def moreTests (tests : List Test) (rest : Text) : Text :=
  (tests.map Test.toText).flatMap (", ".toList ++ ·) ++ '\n' :: rest

theorem delimited_moreTests (tests : List Test) (rest : Text) : Delimited (moreTests tests rest) := by
  cases tests <;> exact delimited_cons rfl

theorem loops_tests {t : Test} {tests : List Test} (hsound : ∀ t' ∈ t :: tests, t'.Sound) (htype : p.code.type ≠ .Code)
    (hmatched : matched ≠ [])
    (hb : b.fill = Lex.Buffer.fill ⟨matched, [], ⟨row, t.toText ++ moreTests tests rest⟩⟩) :
    ∃ b', Loops p b (.ok { p.code with tests := p.code.tests ++ (t :: tests).map Test.reread } b') ∧
      b'.lexer = ⟨row + 1, rest⟩ := by
  induction tests generalizing t p b matched with
  | nil =>
    obtain ⟨hfill, matched', htest⟩ := test_fill (hsound t List.mem_cons_self) (delimited_moreTests [] rest) hb
    obtain ⟨name, l, hname⟩ := hfill
    exact ⟨_, Loops.done hname ((turn_test hb hmatched htype).trans (testTurn_newline htest)), rfl⟩
  | cons t' tests ih =>
    obtain ⟨ht, htests⟩ := List.forall_mem_cons.mp hsound
    obtain ⟨hfill, matched', htest⟩ := test_fill ht (delimited_moreTests (t' :: tests) rest) hb
    obtain ⟨name, l, hname⟩ := hfill
    have hmore : moreTests (t' :: tests) rest = ',' :: ' ' :: (t'.toText ++ moreTests tests rest) := by
      simp [moreTests, List.append_assoc]
    rw [hmore] at htest
    have hspace : Lex.Buffer.fill ⟨matched' ++ [.literal ','], [], ⟨row, ' ' :: (t'.toText ++ moreTests tests rest)⟩⟩ =
        (Lex.Buffer.fill ⟨matched' ++ [.literal ','], [], ⟨row, t'.toText ++ moreTests tests rest⟩⟩ : MicroBuffer) := rfl
    obtain ⟨b', hloops, hlexer⟩ := ih (p := { p with code.tests := p.code.tests ++ [t.reread] }) htests htype
      (by simp) hspace
    refine ⟨b', Loops.again hname ((turn_test hb hmatched htype).trans (testTurn_comma htest)) ?_, hlexer⟩
    simpa [List.append_assoc] using hloops

theorem turn_header {type : LineType} (htype : type ≠ .Code) :
    ∃ t, Lex.Buffer.fill (.ofLexer ⟨row, type.header ++ ':' :: text⟩) = (⟨[], [t], ⟨row, text⟩⟩ : MicroBuffer) ∧
      turn (S := S) {} (.ofLexer ⟨row, type.header ++ ':' :: text⟩) =
        .ok (.again { code := { ({} : Line S) with type } }) ⟨[t], [], ⟨row, text⟩⟩ := by
  have hheader : IsIdentifier type.header := by
    cases type with
    | Code => exact absurd rfl htype
    | Pre => exact isIdentifier_of_all (by decide)
    | Post => exact isIdentifier_of_all (by decide)
  have hfill : Lex.Buffer.fill (.ofLexer ⟨row, type.header ++ ':' :: text⟩) =
      (⟨[], [symbolToken (type.header ++ [':'])], ⟨row, text⟩⟩ : MicroBuffer) :=
    Lex.Buffer.fill_nil (MicroLexer.nextToken_symbol hheader)
  refine ⟨_, hfill, ?_⟩
  cases type with
  | Code => exact absurd rfl htype
  | Pre =>
    have htoken : symbolToken (LineType.header .Pre ++ [':']) = .unitPre := by decide
    rw [htoken] at hfill ⊢
    rw [turn_code hfill rfl fun _ _ => nofun]
    rfl
  | Post =>
    have htoken : symbolToken (LineType.header .Post ++ [':']) = .unitPost := by decide
    rw [htoken] at hfill ⊢
    rw [turn_code hfill rfl fun _ _ => nofun]
    rfl

theorem row_test {line : Line S} (htype : line.type ≠ .Code) (style : FormatStyle) :
    line.row style ++ rest =
      line.type.header ++ ':' :: ' ' :: (join ", ".toList (line.tests.map Test.toText) ++ '\n' :: rest) := by
  have hcode : line.isCodeLine = false := by simp [Line.isCodeLine, htype]
  have hpre : "UnitPre: ".toList = LineType.header .Pre ++ [':', ' '] := by decide
  have hpost : "UnitPost: ".toList = LineType.header .Post ++ [':', ' '] := by decide
  rw [Line.row, hcode, Bool.and_false, if_neg Bool.false_ne_true, List.nil_append, Line.format, List.append_assoc,
    List.singleton_append]
  cases hline : line.type with
  | Code => exact absurd hline htype
  | Pre => simp only [hpre, List.append_assoc, List.cons_append, List.nil_append]
  | Post => simp only [hpost, List.append_assoc, List.cons_append, List.nil_append]

variable [Uarch.Lawful S]

/-- What a line of tests is read back as. -/
theorem nextLine_test {line : Line S} (h : line.Fine) (htype : line.type ≠ .Code) (style : FormatStyle) :
    if line.tests = [] then
      ∃ message l, nextLine (S := S) ⟨row, line.row style ++ rest⟩ = (.error (.error message), l)
    else nextLine ⟨row, line.row style ++ rest⟩ =
      (.ok { line.bare with comment := none, tests := line.tests.map Test.reread }, ⟨row + 1, rest⟩) := by
  obtain ⟨t, hfill, hturn⟩ := @turn_header S _ row (' ' :: (join ", ".toList (line.tests.map Test.toText) ++ '\n' :: rest)) _ htype
  rw [← row_test htype style] at hfill hturn
  obtain ⟨hcontrols, hsymbol⟩ := h.test htype
  match htests : line.tests with
  | [] =>
    rw [if_pos rfl]
    have hempty : Lex.Buffer.fill ⟨[t], [], ⟨row, ' ' :: (join ", ".toList (line.tests.map Test.toText) ++ '\n' :: rest)⟩⟩ =
        (⟨[t], [.empty], ⟨row + 1, rest⟩⟩ : MicroBuffer) := by
      rw [htests]
      rfl
    have hmiss : matchAs Token.identifier? (⟨[t], [.empty], ⟨row + 1, rest⟩⟩ : MicroBuffer) = .ok none _ :=
      matchAs_miss Lex.Buffer.fill_cons rfl
    have hfail : testTurn (S := S) { code := { ({} : Line S) with type := line.type } } ⟨[t], [.empty], ⟨row + 1, rest⟩⟩ =
        .error (.error "Expected identifier after pre/post unit") ⟨[t], [.empty], ⟨row + 1, rest⟩⟩ := by
      have htest : test (⟨[t], [.empty], ⟨row + 1, rest⟩⟩ : MicroBuffer) =
          .error (.error "Expected identifier after pre/post unit") ⟨[t], [.empty], ⟨row + 1, rest⟩⟩ := by
        rw [test, bind_apply_ok hmiss]
        rfl
      rw [testTurn, bind_apply_error htest]
    have hrest : turn (S := S) { code := { ({} : Line S) with type := line.type } }
        ⟨[t], [], ⟨row, ' ' :: (join ", ".toList (line.tests.map Test.toText) ++ '\n' :: rest)⟩⟩ =
        .error (.error "Expected identifier after pre/post unit") ⟨[t], [.empty], ⟨row + 1, rest⟩⟩ := by
      rw [turn_test rfl (List.cons_ne_nil t []) htype, hempty, hfail]
    exact ⟨_, _, nextLine_of_loops (Loops.again hfill hturn (Loops.error hempty hrest nofun))⟩
  | test :: tests =>
    rw [if_neg (List.cons_ne_nil _ _)]
    have hjoin : join ", ".toList (line.tests.map Test.toText) ++ '\n' :: rest = test.toText ++ moreTests tests rest := by
      rw [htests, List.map_cons, join_cons, moreTests, List.append_assoc]
    have hspace : Lex.Buffer.fill ⟨[t], [], ⟨row, ' ' :: (join ", ".toList (line.tests.map Test.toText) ++ '\n' :: rest)⟩⟩ =
        (Lex.Buffer.fill ⟨[t], [], ⟨row, test.toText ++ moreTests tests rest⟩⟩ : MicroBuffer) := by
      rw [hjoin]
      rfl
    obtain ⟨b', hloops, hlexer⟩ := loops_tests (p := { code := { ({} : Line S) with type := line.type } })
      (htests ▸ h.tests) htype (by simp) hspace
    have hnext := nextLine_of_loops (Loops.again hfill hturn hloops)
    rw [hnext, LineResult.outcome, ← hlexer]
    cases line
    simp_all [Line.bare]

end Lines

end Pepp.Ucode
