import Pepp.Integers
import Mathlib.Data.List.Chain

/-!
# Escape sequences

Bytes are written as characters of a source text, with a backslash before what
cannot be printed, and read back one escape at a time. The callers read into
one variable, which keeps the byte before.
-/

namespace Pepp.Bits

/-- The byte of an ASCII character. -/
def ch (c : Char) : U8 := BitVec.ofNat 8 c.toNat

def isspace (c : U8) : Bool := c = ch ' ' || (ch '\t' ≤ c && c ≤ ch '\r')

/-- The value of a hexadecimal digit of either case. -/
def xdigit (c : U8) : Option Nat :=
  if ch '0' ≤ c ∧ c ≤ ch '9' then some (c - ch '0').toNat
  else if ch 'A' ≤ c ∧ c ≤ ch 'F' then some ((c - ch 'A').toNat + 10)
  else if ch 'a' ≤ c ∧ c ≤ ch 'f' then some ((c - ch 'a').toNat + 10)
  else none

/-- `strtol` in base 16 on the characters before the terminator, too few to overflow: the number and what is left. -/
def strtol16 (text : List U8) : Int × List U8 :=
  let body := text.dropWhile isspace
  let negative := body.head? = some (ch '-')
  let body := if negative ∨ body.head? = some (ch '+') then body.tail else body
  let body :=
    match body with
    | zero :: x :: c :: rest =>
      if zero = ch '0' ∧ (x = ch 'x' ∨ x = ch 'X') ∧ (xdigit c).isSome then c :: rest else body
    | _ => body
  let digits := body.takeWhile fun c => (xdigit c).isSome
  if digits = [] then (0, text)
  else
    let magnitude : Nat := digits.foldl (fun n c => 16 * n + (xdigit c).getD 0) 0
    (if negative then -magnitude else magnitude, body.dropWhile fun c => (xdigit c).isSome)

/-- What a call leaves behind: its result, where `start` is now, and `value`. -/
structure Parsed where
  okay : Bool
  start : List U8
  value : U8
  deriving DecidableEq, Repr

def charactersToByte (start : List U8) (value : U8) : Except String Parsed :=
  match start with
  | [] => .ok ⟨false, [], value⟩
  | head :: start =>
    if head ≠ ch '\\' then .ok ⟨true, start, head⟩
    else
      match start with
      | [] => .ok ⟨false, [], value⟩
      | head :: start =>
        -- an escaped backslash changes `head`, which nothing reads any more
        if head = ch '\\' then .ok ⟨true, start, value⟩
        else if head = ch 'b' then .ok ⟨true, start, 8⟩
        else if head = ch 'f' then .ok ⟨true, start, 12⟩
        else if head = ch 'n' then .ok ⟨true, start, 10⟩
        else if head = ch 'r' then .ok ⟨true, start, 13⟩
        else if head = ch 't' then .ok ⟨true, start, 9⟩
        else if head = ch 'v' then .ok ⟨true, start, 11⟩
        else if head = ch '0' then .ok ⟨true, start, 0⟩
        else if head = ch 'x' ∨ head = ch 'X' then
          match start with
          | c₀ :: c₁ :: start =>
            let (number, left) := strtol16 ([c₀, c₁].takeWhile (· ≠ 0))
            .ok ⟨left = [], start, BitVec.ofInt 8 number⟩
          | _ => .ok ⟨false, start, value⟩
        else .error "Unreachable"

/-- A digit of a two-digit `{:02X}`. -/
def upperDigit (n : Nat) : U8 := BitVec.ofNat 8 (if n < 10 then n + 48 else n + 55)

def byteToEscaped (value : U8) : List U8 :=
  if value = ch '\\' then [ch '\\', ch '\\']
  else if value = 8 then [ch '\\', ch 'b']
  else if value = 12 then [ch '\\', ch 'f']
  else if value = 10 then [ch '\\', ch 'n']
  else if value = 13 then [ch '\\', ch 'r']
  else if value = 9 then [ch '\\', ch 't']
  else if value = 11 then [ch '\\', ch 'v']
  else if value = 0 then [ch '\\', ch '0']
  else if 0x20 ≤ value ∧ value < 0x7F then [value]
  else [ch '\\', ch 'x', upperDigit (value.toNat / 16), upperDigit (value.toNat % 16)]

/-! ## One escape -/

theorem length_start {start : List U8} {value : U8} {parsed : Parsed} (hne : start ≠ [])
    (h : charactersToByte start value = .ok parsed) : parsed.start.length < start.length := by
  have hbranch : ∀ {c : Prop} [Decidable c] {x y : Except String Parsed} {p : Prop}, (x = .ok parsed → p) →
      (y = .ok parsed → p) → (if c then x else y) = .ok parsed → p := by
    intro c _ x y p hx hy
    split
    · exact hx
    · exact hy
  cases start with
  | nil => exact absurd rfl hne
  | cons head start =>
    revert h
    refine hbranch (fun h => ?_) (fun h => ?_)
    · cases h
      exact Nat.lt_succ_self _
    · cases start with
      | nil =>
        cases h
        exact Nat.zero_lt_succ _
      | cons c start =>
        -- but for the hexadecimal digits every escape is one character long
        have hone : ∀ {okay value}, (.ok ⟨okay, start, value⟩ : Except String Parsed) = .ok parsed →
            parsed.start.length < (head :: c :: start).length := by
          intro okay value h
          cases h
          exact Nat.lt_succ_of_lt (Nat.lt_succ_self _)
        revert h
        refine hbranch hone (hbranch hone (hbranch hone (hbranch hone (hbranch hone (hbranch hone (hbranch hone
          (hbranch hone (hbranch (fun h => ?_) fun h => ?_))))))))
        · split at h
          · cases h
            simp only [List.length_cons]
            omega
          · exact hone h
        · cases h

theorem strtol16_digits : ∀ b : U8,
    strtol16 ([upperDigit (b.toNat / 16), upperDigit (b.toNat % 16)].takeWhile (· ≠ 0)) = ((b.toNat : Int), []) := by
  decide +kernel

/-- An escape is taken off the text exactly, but a backslash leaves `value` as it was. -/
theorem charactersToByte_escaped (b value : U8) (rest : List U8) :
    charactersToByte (byteToEscaped b ++ rest) value = .ok ⟨true, rest, if b = ch '\\' then value else b⟩ := by
  unfold byteToEscaped
  split
  case isTrue h =>
    subst h
    rfl
  case isFalse h =>
    split_ifs with h8 h12 h10 h13 h9 h11 h0 hp
    all_goals try
      subst b
      rfl
    · change charactersToByte (b :: rest) value = _
      exact if_pos h
    · have hx : charactersToByte
          ([ch '\\', ch 'x', upperDigit (b.toNat / 16), upperDigit (b.toNat % 16)] ++ rest) value =
          let (number, left) := strtol16 ([upperDigit (b.toNat / 16), upperDigit (b.toNat % 16)].takeWhile (· ≠ 0))
          .ok ⟨left = [], rest, BitVec.ofInt 8 number⟩ := rfl
      rw [hx, strtol16_digits]
      simp

/-! ## Whole texts -/

/-- The loop of the callers: `temp` keeps the last byte from one call to the next. -/
def escapedStringToBytes (start : List U8) (temp : U8) : Except String (Bool × List U8) :=
  if _hne : start = [] then .ok (true, [])
  else
    match _h : charactersToByte start temp with
    | .error e => .error e
    | .ok parsed => do
      let (okay, output) ← escapedStringToBytes parsed.start parsed.value
      return (parsed.okay && okay, parsed.value :: output)
termination_by start.length
decreasing_by exact length_start ‹_› ‹_›

/-- `String(std::string)`. -/
def stringFromEscaped (value : List U8) : Except String (List U8) := do
  let (okay, bytes) ← escapedStringToBytes value 0
  if okay then return bytes else throw "Invalid escape sequence in string"

/-- `String::raw_string`. -/
def rawString (bytes : List U8) : List U8 := bytes.flatMap byteToEscaped

/-- What comes back for the bytes: a backslash comes back as the byte before it. -/
def heldOver : U8 → List U8 → List U8
  | _, [] => []
  | temp, b :: bytes =>
    let value := if b = ch '\\' then temp else b
    value :: heldOver value bytes

theorem byteToEscaped_ne_nil (b : U8) : byteToEscaped b ≠ [] := by
  have hbranch : ∀ {c : Prop} [Decidable c] {x y : List U8}, x ≠ [] → y ≠ [] → (if c then x else y) ≠ [] := by
    intro c _ x y hx hy
    split <;> assumption
  have hcons : ∀ {c : U8} {rest : List U8}, c :: rest ≠ [] := List.cons_ne_nil _ _
  exact hbranch hcons (hbranch hcons (hbranch hcons (hbranch hcons (hbranch hcons (hbranch hcons (hbranch hcons
    (hbranch hcons (hbranch hcons hcons))))))))

theorem escapedStringToBytes_raw (bytes : List U8) (temp : U8) :
    escapedStringToBytes (rawString bytes) temp = .ok (true, heldOver temp bytes) := by
  induction bytes generalizing temp with
  | nil =>
    rw [escapedStringToBytes]
    rfl
  | cons b bytes ih =>
    have hne : byteToEscaped b ++ rawString bytes ≠ [] := by
      simp [byteToEscaped_ne_nil]
    change escapedStringToBytes (byteToEscaped b ++ rawString bytes) temp = _
    rw [escapedStringToBytes, dif_neg hne]
    split
    case h_1 h =>
      rw [charactersToByte_escaped] at h
      cases h
    case h_2 h =>
      rw [charactersToByte_escaped] at h
      cases h
      rw [ih]
      rfl

/-- A backslash stands behind a backslash only. -/
def BackslashesHeld (temp : U8) (bytes : List U8) : Prop :=
  List.IsChain (fun a b => b = ch '\\' → a = ch '\\') (temp :: bytes)

theorem heldOver_eq_iff (temp : U8) (bytes : List U8) : heldOver temp bytes = bytes ↔ BackslashesHeld temp bytes := by
  induction bytes generalizing temp with
  | nil => simp [heldOver, BackslashesHeld]
  | cons b bytes ih =>
    have hhead : (if b = ch '\\' then temp else b) = b ↔ (b = ch '\\' → temp = ch '\\') := by
      by_cases hb : b = ch '\\'
      · rw [if_pos hb, hb]
        simp
      · simp [hb]
    rw [BackslashesHeld, List.isChain_cons_cons, heldOver, List.cons.injEq, hhead]
    constructor
    · rintro ⟨h, htail⟩
      rw [hhead.mpr h] at htail
      exact ⟨h, (ih b).mp htail⟩
    · rintro ⟨h, htail⟩
      rw [hhead.mpr h]
      exact ⟨h, (ih b).mpr htail⟩

theorem backslashesHeld_of_ne {temp : U8} (h : temp ≠ ch '\\') (bytes : List U8) :
    BackslashesHeld temp bytes ↔ ch '\\' ∉ bytes := by
  induction bytes generalizing temp with
  | nil => simp [BackslashesHeld]
  | cons b bytes ih =>
    rw [BackslashesHeld, List.isChain_cons_cons, List.mem_cons, not_or]
    constructor
    · rintro ⟨hb, htail⟩
      have hne : b ≠ ch '\\' := fun hc => h (hb hc)
      exact ⟨fun hc => hne hc.symm, (ih hne).mp htail⟩
    · rintro ⟨hb, htail⟩
      have hne : b ≠ ch '\\' := fun hc => hb hc.symm
      exact ⟨fun hc => absurd hc hne, (ih hne).mpr htail⟩

/-- Escapes read back as the bytes they were written for, except a backslash that finds something else in the
variable of the caller. A string, whose variable starts at 0, reads back when it has no backslash. -/
theorem escapes_read_back_iff (b value temp : U8) (rest bytes : List U8) :
    (charactersToByte (byteToEscaped b ++ rest) value = .ok ⟨true, rest, b⟩ ↔ (b = ch '\\' → value = ch '\\')) ∧
    (escapedStringToBytes (rawString bytes) temp = .ok (true, bytes) ↔ BackslashesHeld temp bytes) ∧
    (stringFromEscaped (rawString bytes) = .ok bytes ↔ ch '\\' ∉ bytes) := by
  refine ⟨?_, ?_, ?_⟩
  · rw [charactersToByte_escaped, Except.ok.injEq, Parsed.mk.injEq]
    by_cases hb : b = ch '\\'
    · rw [if_pos hb, hb]
      simp
    · simp [hb]
  · rw [escapedStringToBytes_raw, Except.ok.injEq, Prod.mk.injEq, heldOver_eq_iff]
    simp
  · rw [stringFromEscaped, escapedStringToBytes_raw]
    change Except.ok (heldOver 0 bytes) = _ ↔ _
    rw [Except.ok.injEq, heldOver_eq_iff, backslashesHeld_of_ne (by decide)]

/-- A string of one backslash comes back as a zero, and one behind a letter as the letter again. -/
theorem not_escapes_read_back : stringFromEscaped (rawString [ch '\\']) = .ok [0] ∧
    stringFromEscaped (rawString [ch 'a', ch '\\']) = .ok [ch 'a', ch 'a'] := by
  have hread : ∀ bytes, stringFromEscaped (rawString bytes) = .ok (heldOver 0 bytes) := fun bytes => by
    rw [stringFromEscaped, escapedStringToBytes_raw]
    rfl
  rw [hread, hread]
  exact ⟨rfl, rfl⟩

end Pepp.Bits
