import Mathlib.Data.List.Induction
import Pepp.Sys.Devices

/-!
# Integer fields

What a number or a text of a description denotes, and which of them a field of an
integer type is read from. The converter of texts reads a minus sign for signed
types, after the parser has taken a sign or a prefix away.
-/

namespace Pepp.Sys

/-- Digits of a base, and the number that they stand for. -/
inductive Digits (base : Nat) : List Char → Nat → Prop where
  | one {c : Char} {d : Nat} (hc : digitValue c = some d) (hd : d < base) : Digits base [c] d
  | more {digits : List Char} {n : Nat} {c : Char} {d : Nat} (h : Digits base digits n)
    (hc : digitValue c = some d) (hd : d < base) : Digits base (digits ++ [c]) (n * base + d)

/-- A literal has a sign in front of decimal digits or a prefix with the base, but not both. -/
inductive Literal : List Char → Int → Prop where
  | decimal {digits : List Char} {n : Nat} (h : Digits 10 digits n) : Literal digits n
  | plus {digits : List Char} {n : Nat} (h : Digits 10 digits n) : Literal ('+' :: digits) n
  | minus {digits : List Char} {n : Nat} (h : Digits 10 digits n) : Literal ('-' :: digits) (-n)
  | binary {letter : Char} {digits : List Char} {n : Nat} (hletter : letter = 'b' ∨ letter = 'B')
    (h : Digits 2 digits n) : Literal ('0' :: letter :: digits) n
  | octal {letter : Char} {digits : List Char} {n : Nat} (hletter : letter = 'o' ∨ letter = 'O')
    (h : Digits 8 digits n) : Literal ('0' :: letter :: digits) n
  | hexadecimal {letter : Char} {digits : List Char} {n : Nat} (hletter : letter = 'x' ∨ letter = 'X')
    (h : Digits 16 digits n) : Literal ('0' :: letter :: digits) n

/-- The integer that a value stands for. -/
inductive Denotes : Json → Int → Prop where
  | unsigned (n : U64) : Denotes (.unsigned n) n.toNat
  | integer (n : U64) : Denotes (.integer n) n.toInt
  | string {s : String} {v : Int} (h : Literal s.toList v) : Denotes (.string s) v

namespace IntegerType

variable (type : IntegerType)

def InRange (v : Int) : Prop := type.min ≤ v ∧ v ≤ type.max

/-- The number in the bits of a value of the type. -/
def valueOf (bits : BitVec type.width) : Int := if type.signed then bits.toInt else bits.toNat

end IntegerType

/-- An integer in the range of the type is what the field has; any other value is refused. -/
def Exact (type : IntegerType) (value : Json) (field : Except ParsingError (BitVec type.width)) : Prop :=
  (∃ v, Denotes value v ∧ type.InRange v ∧ ∃ bits, field = .ok bits ∧ type.valueOf bits = v) ∨
    ((∀ v, Denotes value v → ¬type.InRange v) ∧ ∃ text, field = .error (.message text))

/-- A signed type is wrongly refused its smallest number, and given a text with a minus sign behind the sign or the
prefix; an unsigned type is refused a negative zero. -/
def Misread (type : IntegerType) (text : List Char) : Prop :=
  if type.signed then
    (∃ digits, text = '-' :: digits ∧ Digits 10 digits (2 ^ (type.width - 1))) ∨
      ∃ base digits sign n, IntegerType.prefixOf text = (base, '-' :: digits, sign) ∧ Digits base digits n ∧
        n ≤ 2 ^ (type.width - 1)
  else ∃ digits, text = '-' :: digits ∧ Digits 10 digits 0

/-- The values that a field is read from as it should be. -/
def Readable (type : IntegerType) : Json → Prop
  | .unsigned n => type.signed → n.toNat < 2 ^ 64 - 2 ^ (type.width - 1)
  | .integer n => type.signed ∨ n.toInt ≤ type.max
  | .string s => ¬Misread type s.toList
  | _ => True

/-! ## Digits -/

section Digits

variable {base : Nat} {digits : List Char} {n : Nat}

theorem magnitude_append (front back : List Char) (n : Nat) :
    magnitude base (front ++ back) n = (magnitude base front n).bind (magnitude base back) := by
  induction front generalizing n with
  | nil => rfl
  | cons c front ih =>
    rw [List.cons_append, magnitude, magnitude]
    cases digitValue c with
    | none => rfl
    | some d =>
      dsimp only
      split
      · exact ih _
      · rfl

theorem magnitude_singleton {c : Char} {n m : Nat} :
    magnitude base [c] n = some m ↔ ∃ d, digitValue c = some d ∧ d < base ∧ m = n * base + d := by
  rw [magnitude]
  cases digitValue c with
  | none => exact iff_of_false (by simp) (by simp)
  | some d =>
    dsimp only
    split
    · next hd =>
      rw [magnitude, Option.some_inj]
      constructor
      · rintro rfl
        exact ⟨d, rfl, hd, rfl⟩
      · rintro ⟨d', hd', -, rfl⟩
        rw [Option.some_inj.mp hd']
    · next hd =>
      refine iff_of_false (by simp) ?_
      rintro ⟨d', hd', hlt, -⟩
      exact hd (Option.some_inj.mp hd' ▸ hlt)

theorem Digits.ne_nil (h : Digits base digits n) : digits ≠ [] := by
  cases h with
  | one => exact List.cons_ne_nil _ _
  | more => exact List.append_ne_nil_of_right_ne_nil _ (List.cons_ne_nil _ _)

theorem Digits.magnitude_eq (h : Digits base digits n) : magnitude base digits 0 = some n := by
  induction h with
  | one hc hd => exact magnitude_singleton.mpr ⟨_, hc, hd, by omega⟩
  | more h hc hd ih =>
    rw [magnitude_append, ih]
    exact magnitude_singleton.mpr ⟨_, hc, hd, rfl⟩

/-- What the converter adds up is what the digits stand for. -/
theorem digits_iff : Digits base digits n ↔ digits ≠ [] ∧ magnitude base digits 0 = some n := by
  refine ⟨fun h => ⟨h.ne_nil, h.magnitude_eq⟩, ?_⟩
  rintro ⟨hnil, h⟩
  induction digits using List.reverseRecOn generalizing n with
  | nil => exact absurd rfl hnil
  | append_singleton digits c ih =>
    rw [magnitude_append] at h
    obtain ⟨m, hm, hlast⟩ := Option.bind_eq_some_iff.mp h
    obtain ⟨d, hc, hd, rfl⟩ := magnitude_singleton.mp hlast
    by_cases hdigits : digits = []
    · subst hdigits
      obtain rfl := Option.some_inj.mp hm
      rw [Nat.zero_mul, Nat.zero_add]
      exact .one hc hd
    · exact .more (ih hdigits hm) hc hd

theorem Digits.unique {m : Nat} (h : Digits base digits n) (h' : Digits base digits m) : n = m :=
  Option.some_inj.mp (h.magnitude_eq.symm.trans h'.magnitude_eq)

theorem Digits.mem (h : Digits base digits n) : ∀ c ∈ digits, ∃ d, digitValue c = some d ∧ d < base := by
  induction h with
  | one hc hd => exact List.forall_mem_singleton.mpr ⟨_, hc, hd⟩
  | more _ hc hd ih => exact List.forall_mem_append.mpr ⟨ih, List.forall_mem_singleton.mpr ⟨_, hc, hd⟩⟩

theorem not_digits_minus : ¬Digits base ('-' :: digits) n := by
  intro h
  obtain ⟨d, hd, -⟩ := h.mem '-' List.mem_cons_self
  cases hd

/-- A prefix with the base, a sign or nothing is taken away in front of a text. -/
theorem prefixOf_cases {text rest : List Char} {sign : Int} (h : IntegerType.prefixOf text = (base, rest, sign)) :
    (sign = 1 ∧ ∃ letter, text = '0' :: letter :: rest ∧ ((base = 2 ∧ (letter = 'b' ∨ letter = 'B')) ∨
      (base = 8 ∧ (letter = 'o' ∨ letter = 'O')) ∨ (base = 16 ∧ (letter = 'x' ∨ letter = 'X')))) ∨
    (sign = -1 ∧ base = 10 ∧ text = '-' :: rest) ∨ (sign = 1 ∧ base = 10 ∧ text = '+' :: rest) ∨
    (sign = 1 ∧ base = 10 ∧ text = rest ∧ text.head? ≠ some '-') := by
  revert h
  fun_cases IntegerType.prefixOf text <;> intro h <;> cases h
  · exact .inl ⟨rfl, _, rfl, .inl ⟨rfl, .inl rfl⟩⟩
  · exact .inl ⟨rfl, _, rfl, .inl ⟨rfl, .inr rfl⟩⟩
  · exact .inl ⟨rfl, _, rfl, .inr (.inl ⟨rfl, .inl rfl⟩)⟩
  · exact .inl ⟨rfl, _, rfl, .inr (.inl ⟨rfl, .inr rfl⟩)⟩
  · exact .inl ⟨rfl, _, rfl, .inr (.inr ⟨rfl, .inl rfl⟩)⟩
  · exact .inl ⟨rfl, _, rfl, .inr (.inr ⟨rfl, .inr rfl⟩)⟩
  · exact .inr (.inl ⟨rfl, rfl, rfl⟩)
  · exact .inr (.inr (.inl ⟨rfl, rfl, rfl⟩))
  · next hminus _ =>
    refine .inr (.inr (.inr ⟨rfl, rfl, rfl, fun hhead => ?_⟩))
    obtain ⟨text', rfl⟩ := List.head?_eq_some_iff.mp hhead
    exact hminus _ rfl

/-- No sign and no prefix are taken away in front of decimal digits. -/
theorem Digits.prefixOf_eq (h : Digits 10 digits n) : IntegerType.prefixOf digits = (10, digits, 1) := by
  have hnot : ∀ c ∈ digits, digitValue c = none ∨ 10 ≤ (digitValue c).getD 0 → False := by
    intro c hc hval
    obtain ⟨d, hd, hlt⟩ := h.mem c hc
    rw [hd] at hval
    obtain hval | hval := hval
    · cases hval
    · exact absurd hlt (Nat.not_lt_of_le hval)
  rcases hpre : IntegerType.prefixOf digits with ⟨base, rest, sign⟩
  obtain ⟨-, letter, rfl, hletter⟩ | ⟨-, -, rfl⟩ | ⟨-, -, rfl⟩ | ⟨rfl, rfl, rfl, -⟩ := prefixOf_cases hpre
  · refine (hnot letter (List.mem_cons_of_mem _ List.mem_cons_self) ?_).elim
    obtain ⟨-, rfl | rfl⟩ | ⟨-, rfl | rfl⟩ | ⟨-, rfl | rfl⟩ := hletter <;> decide
  · exact (hnot _ List.mem_cons_self (by decide)).elim
  · exact (hnot _ List.mem_cons_self (by decide)).elim
  · rfl

theorem prefixOf_sign {text rest : List Char} {sign : Int} (h : IntegerType.prefixOf text = (base, rest, sign)) :
    (sign = 1 ∧ text.head? ≠ some '-') ∨ (sign = -1 ∧ base = 10 ∧ text = '-' :: rest) := by
  obtain ⟨rfl, letter, rfl, -⟩ | hminus | ⟨rfl, -, rfl⟩ | ⟨rfl, -, -, hhead⟩ := prefixOf_cases h
  · exact .inl ⟨rfl, fun hhead => absurd (Option.some_inj.mp hhead) (by decide)⟩
  · exact .inr hminus
  · exact .inl ⟨rfl, fun hhead => absurd (Option.some_inj.mp hhead) (by decide)⟩
  · exact .inl ⟨rfl, hhead⟩

end Digits

/-! ## The converter -/

section Converter

variable {type : IntegerType} {base : Nat} {text digits : List Char} {n : Nat}

theorem literal_of_digits {rest : List Char} {sign : Int} (hpre : IntegerType.prefixOf text = (base, rest, sign))
    (h : Digits base rest n) : Literal text (sign * n) := by
  obtain ⟨rfl, letter, rfl, hletter⟩ | ⟨rfl, rfl, rfl⟩ | ⟨rfl, rfl, rfl⟩ | ⟨rfl, rfl, rfl, -⟩ := prefixOf_cases hpre
  · rw [Int.one_mul]
    obtain ⟨rfl, hletter⟩ | ⟨rfl, hletter⟩ | ⟨rfl, hletter⟩ := hletter
    · exact .binary hletter h
    · exact .octal hletter h
    · exact .hexadecimal hletter h
  · exact Int.neg_eq_neg_one_mul _ ▸ .minus h
  · exact (Int.one_mul _).symm ▸ .plus h
  · exact (Int.one_mul _).symm ▸ .decimal h

/-- What is taken away in front of a text says what the text denotes. -/
theorem literal_iff {rest : List Char} {sign v : Int} (hpre : IntegerType.prefixOf text = (base, rest, sign)) :
    Literal text v ↔ ∃ n : Nat, Digits base rest n ∧ v = sign * n := by
  constructor
  · intro h
    cases h with
    | decimal h =>
      cases hpre.symm.trans h.prefixOf_eq
      exact ⟨_, h, (Int.one_mul _).symm⟩
    | plus h =>
      cases hpre
      exact ⟨_, h, (Int.one_mul _).symm⟩
    | minus h =>
      cases hpre
      exact ⟨_, h, Int.neg_eq_neg_one_mul _⟩
    | binary hletter h | octal hletter h | hexadecimal hletter h =>
      obtain rfl | rfl := hletter
      · cases hpre
        exact ⟨_, h, (Int.one_mul _).symm⟩
      · cases hpre
        exact ⟨_, h, (Int.one_mul _).symm⟩
  · rintro ⟨n, h, rfl⟩
    exact literal_of_digits hpre h

/-- The digits of a text, and the range. -/
def converted (type : IntegerType) (base : Nat) (digits : List Char) (negative : Bool) : Option Int :=
  if digits = [] then none
  else
    (magnitude base digits 0).bind fun n =>
      let value : Int := if negative then -(n : Int) else n
      if type.min ≤ value ∧ value ≤ type.max then some value else none

theorem converted_eq_some {negative : Bool} {r : Int} : converted type base digits negative = some r ↔
    ∃ n : Nat, Digits base digits n ∧ r = (if negative then -(n : Int) else n) ∧ type.InRange r := by
  rw [converted]
  split
  · next hnil =>
    refine iff_of_false (by simp) ?_
    rintro ⟨n, h, -⟩
    exact h.ne_nil hnil
  · next hnil =>
    cases hm : magnitude base digits 0 with
    | none =>
      refine iff_of_false (by simp) ?_
      rintro ⟨n, h, -⟩
      cases hm.symm.trans h.magnitude_eq
    | some n =>
      rw [Option.bind_some]
      constructor
      · intro h
        obtain ⟨hrange, heq⟩ := Option.ite_none_right_eq_some.mp h
        obtain rfl := Option.some_inj.mp heq
        exact ⟨n, digits_iff.mpr ⟨hnil, hm⟩, rfl, hrange⟩
      · rintro ⟨m, h, rfl, hrange⟩
        obtain rfl := Option.some_inj.mp (hm.symm.trans h.magnitude_eq)
        exact if_pos hrange

theorem fromChars_eq : type.fromChars base text =
    if type.signed ∧ text.head? = some '-' then converted type base text.tail true
    else converted type base text false := by
  cases text with
  | nil => simp [IntegerType.fromChars, converted]
  | cons c text =>
    by_cases hc : c = '-'
    · subst hc
      cases hs : type.signed
      · simp [IntegerType.fromChars, hs, converted]
        cases magnitude base ('-' :: text) 0 <;> rfl
      · simp [IntegerType.fromChars, hs, converted]
        cases magnitude base text 0 <;> rfl
    · simp [IntegerType.fromChars, hc, converted]
      cases magnitude base (c :: text) 0 <;> rfl

/-- The converter reads digits, and for a signed type also digits behind a minus sign. -/
theorem fromChars_eq_some {r : Int} : type.fromChars base text = some r ↔ type.InRange r ∧
    ((∃ n : Nat, Digits base text n ∧ r = n) ∨
      (type.signed = true ∧ ∃ digits, ∃ n : Nat, text = '-' :: digits ∧ Digits base digits n ∧ r = -n)) := by
  rw [fromChars_eq]
  split
  · next h =>
    obtain ⟨hs, hhead⟩ := h
    obtain ⟨digits, rfl⟩ := List.head?_eq_some_iff.mp hhead
    rw [List.tail_cons, converted_eq_some]
    constructor
    · rintro ⟨n, h, rfl, hrange⟩
      exact ⟨hrange, .inr ⟨hs, digits, n, rfl, h, rfl⟩⟩
    · rintro ⟨hrange, ⟨n, h, -⟩ | ⟨-, digits', n, heq, h, rfl⟩⟩
      · exact absurd h not_digits_minus
      · obtain rfl := (List.cons_eq_cons.mp heq).2
        exact ⟨n, h, rfl, hrange⟩
  · next hnot =>
    rw [converted_eq_some]
    constructor
    · rintro ⟨n, h, rfl, hrange⟩
      exact ⟨hrange, .inl ⟨n, h, rfl⟩⟩
    · rintro ⟨hrange, ⟨n, h, rfl⟩ | ⟨hs, digits', n, rfl, h, -⟩⟩
      · exact ⟨n, h, rfl, hrange⟩
      · exact absurd ⟨hs, rfl⟩ hnot

end Converter

/-! ## Ranges -/

section Ranges

variable {type : IntegerType}

theorem inRange_valueOf (bits : BitVec type.width) : type.InRange (type.valueOf bits) := by
  rw [IntegerType.InRange, IntegerType.min, IntegerType.max, IntegerType.valueOf]
  split
  · have hle := BitVec.le_toInt bits
    have hlt := BitVec.toInt_lt (x := bits)
    exact ⟨hle, by omega⟩
  · have hlt := bits.isLt
    have hcast : ((2 ^ type.width : Nat) : Int) = 2 ^ type.width := by push_cast; rfl
    omega

variable {v : Int}

theorem valueOf_ofInt (hwidth : 0 < type.width) (h : type.InRange v) :
    type.valueOf (BitVec.ofInt type.width v) = v := by
  rw [IntegerType.InRange, IntegerType.min, IntegerType.max] at h
  rw [IntegerType.valueOf]
  split
  · next hs =>
    rw [if_pos hs, if_pos hs] at h
    exact BitVec.toInt_ofInt_eq_self hwidth h.1 (by omega)
  · next hs =>
    rw [if_neg hs, if_neg hs] at h
    rw [BitVec.toNat_ofInt]
    have hcast : ((2 ^ type.width : Nat) : Int) = 2 ^ type.width := by push_cast; rfl
    rw [hcast, Int.emod_eq_of_lt h.1 (by omega)]
    omega

/-- A field that is read has a value in the range, which must be what is denoted. -/
theorem exact_ok {value : Json} {bits : BitVec type.width} :
    Exact type value (.ok bits) ↔ Denotes value (type.valueOf bits) := by
  constructor
  · rintro (⟨v, h, -, bits', heq, rfl⟩ | ⟨-, text, heq⟩)
    · cases heq
      exact h
    · cases heq
  · intro h
    exact .inl ⟨_, h, inRange_valueOf bits, bits, rfl, rfl⟩

theorem exact_error {value : Json} {text : String} :
    Exact type value (.error (.message text)) ↔ ∀ v, Denotes value v → ¬type.InRange v := by
  constructor
  · rintro (⟨v, -, -, bits, heq, -⟩ | ⟨h, -⟩)
    · cases heq
    · exact h
  · intro h
    exact .inr ⟨h, text, rfl⟩

theorem denotes_unsigned {n : U64} : Denotes (.unsigned n) v ↔ v = n.toNat := by
  constructor
  · rintro ⟨⟩
    rfl
  · rintro rfl
    exact .unsigned n

theorem denotes_integer {n : U64} : Denotes (.integer n) v ↔ v = n.toInt := by
  constructor
  · rintro ⟨⟩
    rfl
  · rintro rfl
    exact .integer n

theorem denotes_string {s : String} : Denotes (.string s) v ↔ Literal s.toList v := by
  constructor
  · rintro (_ | _ | h)
    exact h
  · exact .string

end Ranges

/-! ## Fields -/

section Fields

variable {type : IntegerType}

theorem signed_range (hs : type.signed = true) :
    type.min = -((2 ^ (type.width - 1) : Nat) : Int) ∧ type.max = ((2 ^ (type.width - 1) : Nat) : Int) - 1 := by
  rw [IntegerType.min, IntegerType.max, if_pos hs, if_pos hs]
  push_cast
  exact ⟨rfl, rfl⟩

theorem unsigned_min (hs : type.signed = false) : type.min = 0 := by
  rw [IntegerType.min, hs]
  exact if_neg Bool.false_ne_true

theorem max_nonneg (hs : type.signed = false) : 0 ≤ type.max := by
  rw [IntegerType.max, hs, if_neg Bool.false_ne_true]
  have hpos : (0 : Int) < 2 ^ type.width := Int.pow_pos (by decide)
  omega

theorem inRange_neg {n : Nat} (hs : type.signed = true) : type.InRange (-n) ↔ n ≤ 2 ^ (type.width - 1) := by
  obtain ⟨hmin, hmax⟩ := signed_range hs
  have hpos : 0 < 2 ^ (type.width - 1) := Nat.two_pow_pos _
  rw [IntegerType.InRange, hmin, hmax]
  omega

theorem inRange_neg_unsigned {n : Nat} (hs : type.signed = false) : type.InRange (-n) ↔ n = 0 := by
  have hmin := unsigned_min hs
  have hmax := max_nonneg hs
  rw [IntegerType.InRange, hmin]
  omega

/-- Of the numbers from 2^63 on a signed type is given some negative ones. -/
theorem exact_unsigned_iff (hwidth : 0 < type.width) (hwidth' : type.width ≤ 64) (n : U64) :
    Exact type (.unsigned n) (asInt type (.unsigned n)) ↔ Readable type (.unsigned n) := by
  have hpow : 2 ^ (type.width - 1) ≤ 2 ^ 63 := Nat.pow_le_pow_right (by omega) (by omega)
  have hpos : 0 < 2 ^ (type.width - 1) := Nat.two_pow_pos _
  have hlt := n.isLt
  have hint := BitVec.toInt_eq_toNat_cond n
  rw [Readable, asInt]
  by_cases hs : type.signed = true
  · obtain ⟨hmin, hmax⟩ := signed_range hs
    rw [if_pos hs]
    split
    · next hout =>
      rw [exact_error]
      refine iff_of_true (fun v hv hrange => ?_) fun _ => ?_
      · obtain rfl := denotes_unsigned.mp hv
        obtain ⟨hle, hle'⟩ := hrange
        split at hint <;> omega
      · split at hint <;> omega
    · next hin =>
      rw [exact_ok, valueOf_ofInt hwidth ⟨by omega, by omega⟩, denotes_unsigned]
      constructor
      · intro heq _
        omega
      · intro h
        have hn := h hs
        split at hint <;> omega
  · have hmin := unsigned_min (Bool.eq_false_iff.mpr hs)
    rw [if_neg hs]
    split
    · next hout =>
      rw [exact_error]
      refine iff_of_true (fun v hv hrange => ?_) fun h => absurd h hs
      obtain rfl := denotes_unsigned.mp hv
      exact absurd hrange.2 (by omega)
    · next hin =>
      rw [← BitVec.ofInt_natCast, exact_ok, valueOf_ofInt hwidth ⟨by omega, by omega⟩, denotes_unsigned]
      exact iff_of_true rfl fun h => absurd h hs

/-- An unsigned type is given what is left of numbers too large for it. -/
theorem exact_integer_iff (hwidth : 0 < type.width) (n : U64) :
    Exact type (.integer n) (asInt type (.integer n)) ↔ Readable type (.integer n) := by
  rw [Readable, asInt]
  by_cases hs : type.signed = true
  · rw [if_pos hs]
    split
    · next hout =>
      rw [exact_error]
      refine iff_of_true (fun v hv hrange => ?_) (.inl hs)
      obtain rfl := denotes_integer.mp hv
      obtain ⟨hle, hle'⟩ := hrange
      omega
    · next hin =>
      rw [exact_ok, valueOf_ofInt hwidth ⟨by omega, by omega⟩, denotes_integer]
      exact iff_of_true rfl (.inl hs)
  · have hmin := unsigned_min (Bool.eq_false_iff.mpr hs)
    rw [if_neg hs]
    split
    · next hout =>
      rw [exact_error]
      refine iff_of_true (fun v hv hrange => ?_) (.inr ?_)
      · obtain rfl := denotes_integer.mp hv
        exact absurd hrange.1 (by omega)
      · exact Int.le_trans (Int.le_of_lt hout) (max_nonneg (Bool.eq_false_iff.mpr hs))
    · next hin =>
      rw [exact_ok, denotes_integer]
      constructor
      · intro heq
        exact .inr (heq ▸ (inRange_valueOf _).2)
      · rintro (hsigned | hle)
        · exact absurd hsigned hs
        · exact valueOf_ofInt hwidth ⟨by omega, hle⟩

variable {sign : Int}

/-- No minus sign stands behind a sign or a prefix of what the converter refuses. -/
theorem misread_of_refused {text rest : List Char} {base : Nat} (hs : type.signed = true)
    (hpre : IntegerType.prefixOf text = (base, rest, sign)) (h : ∀ r, type.fromChars base rest ≠ some r) :
    Misread type text ↔ ∃ digits, text = '-' :: digits ∧ Digits 10 digits (2 ^ (type.width - 1)) := by
  rw [Misread, if_pos hs]
  refine or_iff_left ?_
  rintro ⟨base', digits, sign', n, hpre', hdigits, hle⟩
  cases hpre.symm.trans hpre'
  exact h (-n) (fromChars_eq_some.mpr ⟨(inRange_neg hs).mpr hle, .inr ⟨hs, digits, n, rfl, hdigits, rfl⟩⟩)

/-- A text that the converter refuses has no number in the range, unless it is the smallest one. -/
theorem refused_iff {text rest : List Char} {base : Nat} (hpre : IntegerType.prefixOf text = (base, rest, sign))
    (hsign : ¬(¬type.signed = true ∧ sign < 0)) (h : ∀ r, type.fromChars base rest ≠ some r) :
    (∀ v, Literal text v → ¬type.InRange v) ↔ ¬Misread type text := by
  have hnot : ∀ n : Nat, Digits base rest n → ¬type.InRange n := fun n hdigits hrange =>
    h n (fromChars_eq_some.mpr ⟨hrange, .inl ⟨n, hdigits, rfl⟩⟩)
  obtain ⟨rfl, hhead⟩ | ⟨rfl, rfl, rfl⟩ := prefixOf_sign hpre
  · refine iff_of_true (fun v hv hrange => ?_) fun hmisread => ?_
    · obtain ⟨n, hdigits, rfl⟩ := (literal_iff hpre).mp hv
      rw [Int.one_mul] at hrange
      exact hnot n hdigits hrange
    · by_cases hs : type.signed = true
      · obtain ⟨digits, rfl, -⟩ := (misread_of_refused hs hpre h).mp hmisread
        exact hhead rfl
      · rw [Misread, if_neg hs] at hmisread
        obtain ⟨digits, rfl, -⟩ := hmisread
        exact hhead rfl
  · have hs : type.signed = true := by
      by_contra hs
      exact hsign ⟨hs, by decide⟩
    obtain ⟨hmin, hmax⟩ := signed_range hs
    rw [misread_of_refused hs hpre h]
    constructor
    · rintro hall ⟨digits, heq, hdigits⟩
      obtain rfl := (List.cons_eq_cons.mp heq).2
      exact hall _ (.minus hdigits) ((inRange_neg hs).mpr (Nat.le_refl _))
    · rintro hsmallest v hv hrange
      obtain ⟨n, hdigits, rfl⟩ := (literal_iff hpre).mp hv
      rw [← Int.neg_eq_neg_one_mul, inRange_neg hs] at hrange
      obtain hlt | rfl := Nat.lt_or_eq_of_le hrange
      · exact hnot n hdigits ⟨by omega, by omega⟩
      · exact hsmallest ⟨rest, rfl, hdigits⟩

theorem read_digits {text rest : List Char} {base n : Nat} (hpre : IntegerType.prefixOf text = (base, rest, sign))
    (hsign : ¬(¬type.signed = true ∧ sign < 0)) (hdigits : Digits base rest n) (hrange : type.InRange n) :
    type.InRange (sign * n) ∧ ¬Misread type text := by
  have hsecond : ∀ base' digits sign', IntegerType.prefixOf text ≠ (base', '-' :: digits, sign') := by
    intro base' digits sign' hpre'
    cases hpre.symm.trans hpre'
    exact not_digits_minus hdigits
  rw [Misread]
  obtain ⟨rfl, hhead⟩ | ⟨rfl, rfl, rfl⟩ := prefixOf_sign hpre
  · rw [Int.one_mul]
    refine ⟨hrange, fun hmisread => ?_⟩
    split at hmisread
    · obtain ⟨digits, rfl, -⟩ | ⟨base', digits, sign', m, hpre', -⟩ := hmisread
      · exact hhead rfl
      · exact hsecond _ _ _ hpre'
    · obtain ⟨digits, rfl, -⟩ := hmisread
      exact hhead rfl
  · have hs : type.signed = true := by
      by_contra hs
      exact hsign ⟨hs, by decide⟩
    obtain ⟨hmin, hmax⟩ := signed_range hs
    have hlt := hrange.2
    rw [← Int.neg_eq_neg_one_mul, inRange_neg hs, if_pos hs]
    refine ⟨by omega, ?_⟩
    rintro (⟨digits, heq, hsmallest⟩ | ⟨base', digits, sign', m, hpre', -⟩)
    · obtain rfl := (List.cons_eq_cons.mp heq).2
      obtain rfl := hdigits.unique hsmallest
      omega
    · exact hsecond _ _ _ hpre'

/-- What the converter reads behind a minus sign is not denoted, and anything else is. -/
theorem read_iff {text rest : List Char} {base : Nat} {sign ret : Int} (hwidth : 0 < type.width)
    (hpre : IntegerType.prefixOf text = (base, rest, sign)) (hsign : ¬(¬type.signed = true ∧ sign < 0))
    (h : type.fromChars base rest = some ret) :
    Literal text (type.valueOf (BitVec.ofInt type.width (sign * ret))) ↔ ¬Misread type text := by
  obtain ⟨hrange, ⟨n, hdigits, rfl⟩ | ⟨hs, digits, n, rfl, hdigits, rfl⟩⟩ := fromChars_eq_some.mp h
  · obtain ⟨hin, hnot⟩ := read_digits hpre hsign hdigits hrange
    rw [valueOf_ofInt hwidth hin]
    exact iff_of_true ((literal_iff hpre).mpr ⟨n, hdigits, rfl⟩) hnot
  · rw [inRange_neg hs] at hrange
    refine iff_of_false (fun hliteral => ?_) fun hnot => hnot ?_
    · obtain ⟨m, hm, -⟩ := (literal_iff hpre).mp hliteral
      exact not_digits_minus hm
    · rw [Misread, if_pos hs]
      exact .inr ⟨base, digits, sign, n, hpre, hdigits, hrange⟩

theorem exact_string_iff (hwidth : 0 < type.width) (s : String) :
    Exact type (.string s) (asInt type (.string s)) ↔ Readable type (.string s) := by
  rw [Readable, asInt]
  rcases hpre : IntegerType.prefixOf s.toList with ⟨base, rest, sign⟩
  dsimp only
  split
  · next hneg =>
    have hs := Bool.eq_false_iff.mpr hneg.1
    obtain ⟨rfl, -⟩ | ⟨rfl, rfl, htext⟩ := prefixOf_sign hpre
    · exact absurd hneg.2 (by decide)
    · rw [exact_error, Misread, if_neg hneg.1]
      constructor
      · rintro hall ⟨digits, heq, hdigits⟩
        exact hall _ (.string (heq ▸ .minus hdigits)) ((inRange_neg_unsigned hs).mpr rfl)
      · rintro hzero v hv hrange
        obtain ⟨n, hdigits, rfl⟩ := (literal_iff hpre).mp (denotes_string.mp hv)
        rw [← Int.neg_eq_neg_one_mul, inRange_neg_unsigned hs] at hrange
        exact hzero ⟨rest, htext, hrange ▸ hdigits⟩
  · next hsign =>
    cases h : type.fromChars base rest with
    | none =>
      dsimp only
      rw [exact_error, ← refused_iff hpre hsign fun r hr => by cases h.symm.trans hr]
      exact forall_congr' fun v => imp_congr_left denotes_string
    | some ret =>
      dsimp only
      rw [exact_ok, denotes_string]
      exact read_iff hwidth hpre hsign h

/-- A field of an integer type is read exactly, from all values but those for which the parser mistakes a sign, a
smallest number or the representation of a number. -/
theorem asInt_exact_iff (type : IntegerType) (hwidth : 0 < type.width ∧ type.width ≤ 64) (value : Json) :
    Exact type value (asInt type value) ↔ Readable type value := by
  cases value with
  | unsigned n => exact exact_unsigned_iff hwidth.1 hwidth.2 n
  | integer n => exact exact_integer_iff hwidth.1 n
  | string s => exact exact_string_iff hwidth.1 s
  | null | boolean b | real | array items | object fields =>
    rw [asInt, exact_error]
    · exact iff_of_true (fun v hv => by cases hv) trivial
    all_goals rintro _ ⟨⟩

theorem asInt_largest : Exact ⟨true, 8⟩ (.string "0x7f") (asInt ⟨true, 8⟩ (.string "0x7f")) := by
  refine (asInt_exact_iff ⟨true, 8⟩ (by decide) (.string "0x7f")).mpr ?_
  rintro (⟨digits, heq, -⟩ | ⟨base, digits, sign, n, heq, -⟩)
  · exact absurd (List.cons_eq_cons.mp heq).1 (by decide)
  · exact absurd (List.cons_eq_cons.mp (Prod.mk.inj (Prod.mk.inj heq).2).1).1 (by decide)

/-- The smallest number of a signed type is refused, as its digits are too large before they are negated. -/
theorem asInt_smallest : ¬Exact ⟨true, 8⟩ (.string "-128") (asInt ⟨true, 8⟩ (.string "-128")) := by
  have hone : Digits 10 ['1'] 1 := .one (by decide : digitValue '1' = some 1) (by decide)
  have htwo : Digits 10 ['1', '2'] 12 := hone.more (by decide : digitValue '2' = some 2) (by decide)
  have hdigits : Digits 10 ['1', '2', '8'] 128 := htwo.more (by decide : digitValue '8' = some 8) (by decide)
  intro h
  exact exact_error.mp h (-128) (.string (.minus hdigits)) ⟨by decide, by decide⟩

example : asI8 (.string "--5") = .ok 5 := by decide
example : asInt ⟨false, 8⟩ (.integer 300) = .ok 44 := by decide
example : asI8 (.unsigned (-1)) = .ok (-1) := by decide
example : asU32 (.string "-0") = .error (.message "Unsigned integer field cannot be negative") := by decide

end Fields

end Pepp.Sys
