import Pepp.Asmb.Arguments
import Pepp.Asmb.TokenLocations
import Pepp.Asmb.Visiting

/-!
# Integer literals

Digits are read into an `int`, and a number that does not fit leaves it zero. A
literal that is too large is taken for zero by that, and a negative zero is the
one value that no argument may have.
-/

namespace Pepp.Tc

open Isa Ucode Span Runs

/-! ## Literals of a source -/

inductive LiteralNotation where
  | decimal | plus | minus | hexLower | hexUpper
  deriving DecidableEq, Repr

namespace LiteralNotation

def lead : LiteralNotation → Text
  | .decimal => []
  | .plus => ['+']
  | .minus => ['-']
  | .hexLower => ['0', 'x']
  | .hexUpper => ['0', 'X']

def base : LiteralNotation → Nat
  | .decimal | .plus | .minus => 10
  | .hexLower | .hexUpper => 16

def isDigit : LiteralNotation → Char → Bool
  | .decimal | .plus | .minus => Char.isDigit
  | .hexLower | .hexUpper => isHexDigit

end LiteralNotation

/-- A literal of any number of digits. -/
structure IntegerLiteral where
  form : LiteralNotation
  digits : Text
  nonempty : digits ≠ []
  valid : ∀ c ∈ digits, form.isDigit c = true

namespace IntegerLiteral

variable (literal : IntegerLiteral)

def text : Text := literal.form.lead ++ literal.digits

def magnitude : Nat := Numerals.value literal.form.base literal.digits

/-- The number that a literal denotes. -/
def value : Int := if literal.form = .minus then -literal.magnitude else literal.magnitude

/-- The token it should be, for the number that its digits are read as. -/
def token : AsmbToken :=
  let val := BitVec.ofNat 64 (fromChars literal.form.base literal.digits)
  match literal.form with
  | .decimal => .integer val .UnsignedDec
  | .plus => .integer val .UnsignedDec
  | .minus => .integer (-val) .SignedDec
  | .hexLower => .integer val .Hex
  | .hexUpper => .integer val .Hex

end IntegerLiteral

/-- What is behind a literal does not go on with it. -/
def Stops (rest : Text) : Prop := ∀ c ∈ rest.head?, isIdentifierRest c = false

variable {c : Char} {s : Nat}

theorem hexDigit_rest (h : isHexDigit c = true) : isIdentifierRest c = true := by
  delta isHexDigit at h
  delta isIdentifierRest Char.isAlphanum Char.isAlpha Char.isUpper Char.isLower
  simp only [Char.le_def, Bool.or_eq_true, Bool.and_eq_true, decide_eq_true_iff, ge_iff_le,
    UInt32.le_iff_toNat_le] at h ⊢
  rcases h with (h | ⟨hlo, hhi⟩) | ⟨hlo, hhi⟩
  · exact .inl (.inr h)
  · exact .inl (.inl (.inr ⟨hlo, le_trans hhi (by decide)⟩))
  · exact .inl (.inl (.inl ⟨hlo, le_trans hhi (by decide)⟩))

theorem Stops.split {p : Char → Bool} (hp : ∀ c, p c = true → isIdentifierRest c = true) {rest : Text} (h : Stops rest) :
    rest.takeWhile p = [] ∧ rest.dropWhile p = rest := by
  match rest with
  | [] => exact ⟨rfl, rfl⟩
  | c :: rest =>
    have hc : p c ≠ true := fun hc => by
      have := h c rfl
      rw [hp c hc] at this
      cases this
    exact ⟨List.takeWhile_cons_of_neg hc, List.dropWhile_cons_of_neg hc⟩

theorem matchSome_literal {p : Char → Bool} (hp : ∀ c, p c = true → isIdentifierRest c = true) {digits rest : Text}
    (hne : digits ≠ []) (hdigits : ∀ c ∈ digits, p c = true) (h : Stops rest) :
    matchSome p (digits ++ rest) = some (digits, rest) := by
  rw [matchSome, List.takeWhile_append_of_pos hdigits, List.dropWhile_append_of_pos hdigits, (h.split hp).1,
    (h.split hp).2, List.append_nil, if_neg hne]

theorem digit_rest (h : c.isDigit = true) : isIdentifierRest c = true := by
  delta isIdentifierRest Char.isAlphanum
  rw [h, Bool.or_true, Bool.true_or]

theorem digit_cases (h : c.isDigit = true) : c ∈ ['0', '1', '2', '3', '4', '5', '6', '7', '8', '9'] := by
  obtain ⟨hlo, hhi⟩ := digit_toNat h
  have hc : c = Char.ofNat c.toNat := (Char.ofNat_toNat c).symm
  generalize c.toNat = n at hlo hhi hc
  subst hc
  interval_cases n <;> decide

/-- Patterns that do not start with a digit. -/
theorem scan_digit_start (hc : c.isDigit = true) (text : Text) :
    (literalsFor PepLexer.options).contains c = false ∧ (c == '+' || c == '-') = false ∧
    matchMacroArg (c :: text) = none ∧ matchSymbol (c :: text) = none ∧
    matchIdentifier PepLexer.options (c :: text) = none ∧ matchDirective (c :: text) = none ∧ (c == '.') = false ∧
    c ≠ '\n' := by
  have hcases := digit_cases hc
  simp only [List.mem_cons, List.not_mem_nil, or_false] at hcases
  rcases hcases with rfl | rfl | rfl | rfl | rfl | rfl | rfl | rfl | rfl | rfl <;>
    exact ⟨rfl, rfl, rfl, rfl, rfl, rfl, rfl, by decide⟩

theorem scanned_hexadecimal (hc : c.isDigit = true) {text m rest : Text}
    (h : matchHexadecimal (c :: text) = some (m, rest)) :
    AsmbLexer.scanned PepLexer.options (c :: text) =
      (.integer (BitVec.ofNat 64 (fromChars 16 (m.drop 2))) .Hex, m) := by
  obtain ⟨hliteral, hsign, hmacro, hsymbol, hident, hdirective, hdot, hnewline⟩ := scan_digit_start hc text
  rw [AsmbLexer.scanned, if_neg hnewline, scan, hliteral, hsign, hmacro, hsymbol, hident, hdirective, hdot, h]
  rfl

theorem scanned_decimal (hc : c.isDigit = true) {text m rest : Text} (hhex : matchHexadecimal (c :: text) = none)
    (hbad : matchBadHex (c :: text) = none) (h : matchDecimal (c :: text) = some (m, rest)) :
    AsmbLexer.scanned PepLexer.options (c :: text) =
      (.integer (BitVec.ofNat 64 (fromChars 10 m)) .UnsignedDec, m) := by
  obtain ⟨hliteral, hsign, hmacro, hsymbol, hident, hdirective, hdot, hnewline⟩ := scan_digit_start hc text
  rw [AsmbLexer.scanned, if_neg hnewline, scan, hliteral, hsign, hmacro, hsymbol, hident, hdirective, hdot, hhex, hbad, h]
  rfl

/-- Decimal digits are not the start of a hexadecimal number. -/
theorem decimal_not_hex {digits rest : Text} (hdigits : ∀ d ∈ digits, d.isDigit = true) (h : Stops rest) :
    matchHexadecimal (c :: (digits ++ rest)) = none ∧ matchBadHex (c :: (digits ++ rest)) = none := by
  have hx : ∀ x text, digits ++ rest = x :: text → (x == 'x' || x == 'X') = false := by
    intro x text hcons
    have hno : x ≠ 'x' ∧ x ≠ 'X' := by
      cases digits with
      | nil =>
        have hrest := h x (by rw [show rest = x :: text from hcons]; rfl)
        constructor <;> rintro rfl <;> exact absurd hrest (by decide)
      | cons d digits =>
        obtain ⟨rfl, -⟩ := List.cons.inj hcons
        have hd := hdigits d List.mem_cons_self
        constructor <;> rintro rfl <;> exact absurd hd (by decide)
    simp [hno]
  rw [matchHexadecimal.eq_def, matchBadHex.eq_def]
  constructor <;> split
  · next heq => rw [hx _ _ (List.cons.inj heq).2]; rfl
  · rfl
  · next heq => rw [hx _ _ (List.cons.inj heq).2]; rfl
  · rfl

/-- A literal is one token, whatever it is followed by. -/
theorem scan_literal (literal : IntegerLiteral) {rest : Text} (h : Stops rest) :
    AsmbLexer.scanned PepLexer.options (literal.text ++ rest) = (literal.token, literal.text) := by
  obtain ⟨form, digits, hne, hvalid⟩ := literal
  have hdecimal : (∀ c ∈ digits, c.isDigit = true) → matchDecimal (digits ++ rest) = some (digits, rest) := fun hd =>
    matchSome_literal (fun c => digit_rest) hne hd h
  have hhex : (∀ c ∈ digits, isHexDigit c = true) → ∀ x, (x == 'x' || x == 'X') = true →
      matchHexadecimal ('0' :: x :: (digits ++ rest)) = some ('0' :: x :: digits, rest) := by
    intro hd x hx
    rw [matchHexadecimal, if_pos hx, matchSome_literal (fun c => hexDigit_rest) hne hd h]
    rfl
  cases form with
  | decimal =>
    cases digits with
    | nil => exact absurd rfl hne
    | cons c digits =>
      obtain ⟨hno, hbad⟩ := @decimal_not_hex c digits rest (fun d hd => hvalid d (List.mem_cons_of_mem _ hd)) h
      exact scanned_decimal (hvalid c List.mem_cons_self) hno hbad (hdecimal hvalid)
  | plus =>
    change AsmbLexer.scanned PepLexer.options ('+' :: (digits ++ rest)) = _
    rw [AsmbLexer.scanned, if_neg (by decide), scan]
    simp only [hdecimal hvalid]
    rfl
  | minus =>
    change AsmbLexer.scanned PepLexer.options ('-' :: (digits ++ rest)) = _
    rw [AsmbLexer.scanned, if_neg (by decide), scan]
    simp only [hdecimal hvalid]
    rfl
  | hexLower => exact scanned_hexadecimal rfl (hhex hvalid 'x' rfl)
  | hexUpper => exact scanned_hexadecimal rfl (hhex hvalid 'X' rfl)

/-! ## Values -/

/-- The integer of so many bytes, most significant byte first. -/
def wordOf (bytes : Nat) (value : Int) : List U8 := (Endian.leBytes bytes (value % 256 ^ bytes).toNat).reverse

/-- Visiting a line that is placed with its size writes these bytes at this offset. -/
def LinearIR.Emits (line : LinearIR) (offset : Nat) (bytes : List U8) : Prop :=
  ∀ (visitor : ObjectVisitor) (ctx : SymbolContext) (p : Placed) (outBytes outBytes' : ByteSpan)
    (emission emission' : Emission) (a size : Nat), p.line.ir = line → line.objectSize a = .ok (some size) →
    p.address = some ⟨a, size⟩ → visitor.visit ctx p outBytes emission = .ok (outBytes', emission') →
    slice emission'.objectCode (outBytes.start + offset) bytes.length = bytes

/-- What a line makes of the number that its argument denotes; a block has as many bytes. -/
def Slot.Emitted (value : Int) (line : LinearIR) : Slot → Prop
  | .operand _ _ => line.Emits 1 (wordOf 2 value)
  | .word => line.Emits 0 (wordOf 2 value)
  | .byte => line.Emits 0 (wordOf 1 value)
  | .block => ∀ a, line.objectSize a = .ok (some (value % 2 ^ 16).toNat)

/-- The numbers that a line has room for. -/
def Slot.InRange (value : Int) : Slot → Prop
  | .operand _ _ => -2 ^ 15 ≤ value ∧ value < 2 ^ 16
  | .word => -2 ^ 15 ≤ value ∧ value < 2 ^ 16
  | .byte => -2 ^ 7 ≤ value ∧ value < 2 ^ 8
  | .block => 0 ≤ value ∧ value < 2 ^ 16

instance (value : Int) : (slot : Slot) → Decidable (slot.InRange value)
  | .operand _ _ => inferInstanceAs (Decidable (_ ∧ _))
  | .word => inferInstanceAs (Decidable (_ ∧ _))
  | .byte => inferInstanceAs (Decidable (_ ∧ _))
  | .block => inferInstanceAs (Decidable (_ ∧ _))

/-- A number is rejected, or its value emitted; and it is accepted exactly when it is in range. -/
def Slot.Keeps (slot : Slot) (values : Name → U64) (value : Int) (token : AsmbToken) : Prop :=
  (∀ line, slot.parse values token = .ok line → slot.Emitted value line) ∧
  ((∃ line, slot.parse values token = .ok line) ↔ slot.InRange value)

/-- The digits fit an `int`, or stand behind a minus sign and are not all zero. -/
def IntegerLiteral.Held (literal : IntegerLiteral) : Prop :=
  if literal.form = .minus then literal.magnitude ≠ 0 else literal.magnitude < 2 ^ 31

instance (literal : IntegerLiteral) : Decidable literal.Held :=
  inferInstanceAs (Decidable (if literal.form = .minus then literal.magnitude ≠ 0 else literal.magnitude < 2 ^ 31))

/-- What a literal must be for its argument to keep it. -/
def IntegerLiteral.Suits (literal : IntegerLiteral) : Slot → Prop
  | .operand _ _ => literal.Held
  | .word => literal.Held
  | .byte => literal.Held
  | .block => 0 ≤ literal.value ∧ literal.value < 2 ^ 16

theorem bytesOf_le {n s : Nat} : bytesOf n ≤ s ↔ n ≤ 256 ^ s := Nat.clog_le_iff_le_pow (by decide)

theorem fromChars_lt (base : Nat) (digits : Text) : fromChars base digits < 2 ^ 31 := by
  rw [fromChars]
  split
  · assumption
  · decide

/-- The number a literal is taken for. -/
def IntegerLiteral.number (literal : IntegerLiteral) : Numeric :=
  let val := BitVec.ofNat 64 (fromChars literal.form.base literal.digits)
  match literal.form with
  | .decimal => ⟨.unsignedDecimal, val, 2⟩
  | .plus => ⟨.unsignedDecimal, val, 2⟩
  | .minus => ⟨.signedDecimal, -val, 2⟩
  | .hexLower => ⟨.hexadecimal, val, 2⟩
  | .hexUpper => ⟨.hexadecimal, val, 2⟩

theorem argument_literal (literal : IntegerLiteral) :
    argument literal.token = .ok (some (.literal (.numeric literal.number))) := by
  obtain ⟨form, digits, hne, hvalid⟩ := literal
  cases form <;> rfl

theorem number_value (literal : IntegerLiteral) : literal.number.value =
    if literal.form = .minus then -BitVec.ofNat 64 (fromChars literal.form.base literal.digits)
    else BitVec.ofNat 64 (fromChars literal.form.base literal.digits) := by
  obtain ⟨form, digits, hne, hvalid⟩ := literal
  cases form <;> rfl

/-- The sizes that the checks see. -/
theorem minimumSize_number (literal : IntegerLiteral) (s : Nat) (hs : s = 1 ∨ s = 2) :
    literal.number.minimumSize ≤ s ↔
      if literal.form = .minus then
        fromChars literal.form.base literal.digits ≠ 0 ∧ 2 * fromChars literal.form.base literal.digits ≤ 256 ^ s
      else fromChars literal.form.base literal.digits < 256 ^ s := by
  have hlt := fromChars_lt literal.form.base literal.digits
  generalize hval : fromChars literal.form.base literal.digits = val at hlt
  have hunsigned : bytesOf (BitVec.ofNat 64 val + 1).toNat ≤ s ↔ val < 256 ^ s := by
    rw [bytesOf_le, BitVec.toNat_add, BitVec.toNat_ofNat, Nat.mod_eq_of_lt (a := val) (by omega)]
    change (val + 1) % 2 ^ 64 ≤ 256 ^ s ↔ _
    rw [Nat.mod_eq_of_lt (by omega)]
    exact Nat.succ_le_iff
  have hsigned : (Numeric.mk .signedDecimal (-BitVec.ofNat 64 val) 2).minimumSize ≤ s ↔ val ≠ 0 ∧ 2 * val ≤ 256 ^ s := by
    have hback : -1 * -BitVec.ofNat 64 val = BitVec.ofNat 64 val := by rw [neg_one_mul, neg_neg]
    have hself : -BitVec.ofNat 64 val * -1 = -BitVec.ofNat 64 val ↔ val = 0 := by
      rw [mul_comm, hback, ← BitVec.toNat_inj, BitVec.toNat_neg, BitVec.toNat_ofNat]
      omega
    have hnat : (BitVec.ofNat 64 val).toNat = val := by
      rw [BitVec.toNat_ofNat]
      omega
    simp only [Numeric.minimumSize, hself, hback, hnat]
    split
    · next h => exact ⟨fun h8 => absurd h8 (by omega), fun h' => absurd h h'.1⟩
    · next h => rw [bytesOf_le, and_iff_right h]
  obtain ⟨form, digits, hne, hvalid⟩ := literal
  subst hval
  cases form with
  | minus => exact hsigned
  | _ => exact hunsigned

/-- The checks of the three lines that have some. -/
theorem parse_literal (literal : IntegerLiteral) (values : Name → U64) (slot : Slot) :
    slot.parse values literal.token = match slot with
      | .operand mnemonic addrMode =>
        if 2 < literal.number.minimumSize then .error (.nullary .argumentExceeded2Bytes)
        else .ok (.dyadic mnemonic addrMode (.literal (.numeric literal.number)))
      | .word =>
        if 2 < literal.number.minimumSize then .error (.nullary .argumentExceeded2Bytes)
        else .ok (.dotLiteral .byte2 (.literal (.numeric literal.number)))
      | .byte =>
        if 1 < literal.number.minimumSize then .error (.nullary .argumentExceeded1Byte)
        else .ok (.dotLiteral .byte1 (.literal (.numeric literal.number)))
      | .block => .ok (.dotBlock literal.number) := by
  rw [Slot.parse, argument_literal]
  cases slot <;> rfl

/-- A number is copied in the byte order of its destination, as much of it as there is room for. -/
theorem serialize_number (number : Numeric) (ctx : SymbolContext) {dest : List U8} {bytes : Nat} (hb : bytes ≤ 8)
    (hdest : dest.length = bytes) :
    (IRValue.literal (.numeric number)).serialize ctx dest .bigEndian =
      .ok (Endian.leBytes bytes number.value.toNat).reverse := by
  have hbig : ¬ 8 < bytes := by omega
  rw [IRValue.serialize, Literal.serialize, memcpyEndian, Literal.source, hostOrder]
  simp only [Endian.length_leBytes, hdest, hbig, reduceCtorEq, false_and, and_false, if_false, List.drop_zero,
    List.take_zero, List.nil_append, Nat.sub_zero, Nat.min_eq_right hb, Endian.take_leBytes hb, List.length_reverse,
    Nat.zero_add]
  rw [List.drop_eq_nil_of_le (Nat.le_of_eq hdest), List.append_nil]

/-- The bytes of a number depend on its remainder only. -/
theorem leBytes_mod (bytes n : Nat) : Endian.leBytes bytes (n % 256 ^ bytes) = Endian.leBytes bytes n := by
  have hlen := Endian.length_leBytes bytes n
  rw [← Endian.ofLE_leBytes, Endian.leBytes_ofLE, hlen, Nat.sub_self, List.replicate_zero, List.append_nil,
    List.take_of_length_le (Nat.le_of_eq hlen)]

theorem emits_dyadic (mnemonic : Mnemonic) (addrMode : AddressingMode) (number : Numeric) :
    (LinearIR.dyadic mnemonic addrMode (.literal (.numeric number))).Emits 1
      (Endian.leBytes 2 number.value.toNat).reverse := by
  intro visitor ctx p outBytes outBytes' emission emission' a size hir hsize ha hvisit
  obtain rfl : size = 3 := by cases hsize; rfl
  have hc : p.Consistent := by
    rw [Placed.Consistent, hir]
    exact ⟨a, ha⟩
  have hp : p.size = 3 := by rw [Placed.size, ha]; rfl
  obtain ⟨-, -, bytes, hencode, -, hafter⟩ := (ObjectVisitor.visit_ok hc).mp hvisit
  have hdest : ((slice emission.objectCode outBytes.start p.size).drop 1).length = 2 := by
    rw [List.length_drop, length_slice, hp]
  simp only [hir, LinearIR.encode, bind_ok, pure_ok, serialize_number number ctx (by decide) hdest, Except.ok.injEq,
    exists_eq_left'] at hencode
  obtain ⟨operation, -, rfl⟩ := hencode
  have hcode : emission'.objectCode = overwrite emission.objectCode outBytes.start
      (operation :: (Endian.leBytes 2 number.value.toNat).reverse) := congrArg (·.2.objectCode) hafter
  have hpart := slice_overwrite_part emission.objectCode outBytes.start
    (operation :: (Endian.leBytes 2 number.value.toNat).reverse) (show 1 + 2 ≤ _ from Nat.le_refl 3)
  rw [hcode]
  exact hpart

theorem emits_literal (which : LiteralWhich) (number : Numeric) {bytes : Nat} (hb : bytes ≤ 8)
    (hwhich : ∀ a, (LinearIR.dotLiteral which (.literal (.numeric number))).objectSize a = .ok (some bytes)) :
    (LinearIR.dotLiteral which (.literal (.numeric number))).Emits 0
      (Endian.leBytes bytes number.value.toNat).reverse := by
  intro visitor ctx p outBytes outBytes' emission emission' a size hir hsize ha hvisit
  obtain rfl : bytes = size := by
    rw [hwhich] at hsize
    cases hsize
    rfl
  have hc : p.Consistent := by
    rw [Placed.Consistent, hir]
    exact Option.isSome_of_eq_some ha
  have hp : p.size = bytes := by rw [Placed.size, ha]; rfl
  obtain ⟨-, -, out, hencode, -, hafter⟩ := (ObjectVisitor.visit_ok hc).mp hvisit
  have hdest : (slice emission.objectCode outBytes.start p.size).length = bytes := by rw [length_slice, hp]
  rw [hir, LinearIR.encode, serialize_number number ctx hb hdest] at hencode
  obtain rfl := Except.ok.inj hencode
  have hcode : emission'.objectCode = overwrite emission.objectCode outBytes.start
      (Endian.leBytes bytes number.value.toNat).reverse := congrArg (·.2.objectCode) hafter
  rw [hcode, Nat.add_zero, slice_overwrite]

/-! ## When literals are kept -/

theorem fromChars_magnitude (literal : IntegerLiteral) : fromChars literal.form.base literal.digits =
    if literal.magnitude < 2 ^ 31 then literal.magnitude else 0 := rfl

/-- The size check is that of the range exactly when the number is held. -/
theorem size_exact_iff (literal : IntegerLiteral) (hs : s = 1 ∨ s = 2) :
    (literal.number.minimumSize ≤ s ↔ -(256 ^ s / 2) ≤ literal.value ∧ literal.value < 256 ^ s) ↔ literal.Held := by
  rw [minimumSize_number literal s hs, fromChars_magnitude, IntegerLiteral.Held, IntegerLiteral.value]
  by_cases hm : literal.form = .minus <;> by_cases hlt : literal.magnitude < 2 ^ 31 <;>
    simp only [hm, hlt, if_true, if_false, ne_eq, not_true_eq_false, false_and, iff_true, iff_false, false_iff] <;>
    rcases hs with rfl | rfl <;> omega

/-- A number that is held and accepted is written as it is. -/
theorem wordOf_number (literal : IntegerLiteral) (hs : s = 1 ∨ s = 2) (hheld : literal.Held)
    (hsize : literal.number.minimumSize ≤ s) :
    (Endian.leBytes s literal.number.value.toNat).reverse = wordOf s literal.value := by
  rw [minimumSize_number literal s hs, fromChars_magnitude] at hsize
  have hlt : literal.magnitude < 2 ^ 31 := by
    by_contra hlt
    rw [if_neg hlt] at hsize
    by_cases hm : literal.form = .minus
    · rw [if_pos hm] at hsize
      exact hsize.1 rfl
    · rw [IntegerLiteral.Held, if_neg hm] at hheld
      exact hlt hheld
  have hnumber : (literal.number.value.toNat : Int) % 256 ^ s = literal.value % 256 ^ s := by
    have hval : fromChars literal.form.base literal.digits = literal.magnitude := by
      rw [fromChars_magnitude, if_pos hlt]
    have hpos : (BitVec.ofNat 64 literal.magnitude).toNat = literal.magnitude := by
      rw [BitVec.toNat_ofNat]
      omega
    have hneg : (-BitVec.ofNat 64 literal.magnitude).toNat = (2 ^ 64 - literal.magnitude) % 2 ^ 64 := by
      rw [BitVec.toNat_neg, hpos]
    have hcases : literal.number.value.toNat =
        if literal.form = .minus then (2 ^ 64 - literal.magnitude) % 2 ^ 64 else literal.magnitude := by
      rw [number_value, hval]
      split
      · exact hneg
      · exact hpos
    rw [hcases, IntegerLiteral.value]
    split <;> rcases hs with rfl | rfl <;> omega
  have hnat : literal.number.value.toNat % 256 ^ s = (literal.value % 256 ^ s).toNat := by
    rw [← hnumber]
    rcases hs with rfl | rfl <;> omega
  rw [wordOf, ← leBytes_mod, hnat]

theorem keeps_checked (literal : IntegerLiteral) (values : Name → U64) {slot : Slot} {s : Nat} (hs : s = 1 ∨ s = 2)
    {line : LinearIR} {error : ParserError}
    (hparse : slot.parse values literal.token = if s < literal.number.minimumSize then .error error else .ok line)
    (hrange : slot.InRange literal.value ↔ -(256 ^ s / 2) ≤ literal.value ∧ literal.value < 256 ^ s)
    (hemitted : wordOf s literal.value = (Endian.leBytes s literal.number.value.toNat).reverse →
      slot.Emitted literal.value line) :
    slot.Keeps values literal.value literal.token ↔ literal.Held := by
  have haccepted : (∃ line', slot.parse values literal.token = .ok line') ↔ literal.number.minimumSize ≤ s := by
    rw [hparse]
    by_cases h : s < literal.number.minimumSize
    · rw [if_pos h]
      constructor
      · rintro ⟨line', hline⟩
        cases hline
      · intro hle
        exact absurd h (by omega)
    · rw [if_neg h]
      exact ⟨fun _ => by omega, fun _ => ⟨line, rfl⟩⟩
  rw [Slot.Keeps, haccepted, hrange, ← size_exact_iff literal hs]
  refine ⟨And.right, fun hexact => ⟨fun line' hline => ?_, hexact⟩⟩
  have hsize := haccepted.mp ⟨line', hline⟩
  rw [hparse, if_neg (by omega)] at hline
  cases hline
  exact hemitted (wordOf_number literal hs ((size_exact_iff literal hs).mp hexact) hsize).symm

/-- A block of a size that two bytes hold has that size. -/
theorem blockSize_number (literal : IntegerLiteral) (h : 0 ≤ literal.value ∧ literal.value < 2 ^ 16) (a : Nat) :
    (LinearIR.dotBlock literal.number).objectSize a = .ok (some (literal.value % 2 ^ 16).toNat) := by
  have hvalue : literal.value = literal.magnitude := by
    rw [IntegerLiteral.value] at h ⊢
    split at h
    · next hm =>
      rw [if_pos hm]
      omega
    · next hm => rw [if_neg hm]
  rw [hvalue] at h ⊢
  have hsmall : literal.magnitude < 2 ^ 31 := by omega
  have hnat : literal.number.value.toNat = literal.magnitude := by
    rw [number_value, fromChars_magnitude, if_pos hsmall]
    split
    · next hm =>
      have hzero : literal.magnitude = 0 := by
        rw [IntegerLiteral.value, if_pos hm] at hvalue
        omega
      rw [hzero]
      rfl
    · rw [BitVec.toNat_ofNat]
      omega
  rw [LinearIR.objectSize, Numeric.valueAs_eq (by decide), hnat]
  congr 2
  omega

/-- A literal at the cursor is rejected or keeps its value, and is accepted exactly when it is in range, if and only if
its digits suit where it stands. -/
theorem literals_kept_iff {l : AsmbLexer} {literal : IntegerLiteral} {rest : Text} (hopts : l.opts = PepLexer.options)
    (htext : l.cursor.rest.dropWhile isBlank = literal.text ++ rest) (hrest : Stops rest) (values : Name → U64)
    (slot : Slot) : slot.Keeps values literal.value l.nextToken.1.token ↔ literal.Suits slot := by
  rw [l.nextToken_step.token, hopts, htext, scan_literal literal hrest]
  cases slot with
  | operand mnemonic addrMode =>
    refine keeps_checked literal values (.inr rfl) (parse_literal literal values _) Iff.rfl fun h => ?_
    rw [Slot.Emitted, h]
    exact emits_dyadic mnemonic addrMode literal.number
  | word =>
    refine keeps_checked literal values (.inr rfl) (parse_literal literal values _) Iff.rfl fun h => ?_
    rw [Slot.Emitted, h]
    exact emits_literal .byte2 literal.number (by decide) fun _ => rfl
  | byte =>
    refine keeps_checked literal values (.inl rfl) (parse_literal literal values _) Iff.rfl fun h => ?_
    rw [Slot.Emitted, h]
    exact emits_literal .byte1 literal.number (by decide) fun _ => rfl
  | block =>
    have hparse : (Slot.block).parse values literal.token = .ok (.dotBlock literal.number) :=
      parse_literal literal values .block
    have haccepted : ∃ line, (Slot.block).parse values literal.token = .ok line := ⟨_, hparse⟩
    refine ⟨fun h => h.2.mp haccepted, fun h => ⟨fun line hline => ?_, iff_of_true haccepted h⟩⟩
    rw [hparse] at hline
    cases hline
    exact blockSize_number literal h

/-- A negative `.WORD`, from its text. -/
theorem literals_kept_word : ∃ literal : IntegerLiteral, literal.value = -5 ∧ Slot.word.Keeps (fun _ => 0) literal.value
    (AsmbLexer.ofText PepLexer.options "  -5 ;five".toList).nextToken.1.token :=
  ⟨⟨.minus, ['5'], by decide, List.all_eq_true.mp rfl⟩, by decide,
    (@literals_kept_iff _ _ " ;five".toList rfl rfl (by rintro c ⟨⟩; rfl) (fun _ => 0) .word).mpr
      (show IntegerLiteral.Held _ by decide)⟩

/-- The first number behind 32 bits is accepted, as zero. -/
theorem not_literals_kept : ¬ ∀ (literal : IntegerLiteral) (values : Name → U64) (slot : Slot),
    slot.Keeps values literal.value (AsmbLexer.ofText PepLexer.options literal.text).nextToken.1.token := by
  intro h
  have hword := h ⟨.hexLower, "100000000".toList, by decide, List.all_eq_true.mp rfl⟩ (fun _ => 0) .word
  exact absurd (hword.2.mp ⟨.dotLiteral .byte2 (.literal (.numeric ⟨.hexadecimal, 0, 2⟩)), by rfl⟩) (by decide)

end Pepp.Tc
