import Pepp.Debug.Types
import Pepp.Lib.TwosComplement

/-!
# Values of watch expressions

A number of any primitive type is carried in 64 bits, extended from its width.
Binary operators convert both operands to a common type, work on all 64 bits and
extend the result from its width again. Values are ordered by type before they
are ordered by what they hold. A memory read assembles the bytes of a primitive.
-/

namespace Pepp.Debug

open TwosComplement

namespace Primitives

def bitness : Primitives → Nat
  | i8 | u8 => 8
  | i16 | u16 => 16
  | i32 | u32 => 32

def isUnsigned : Primitives → Bool
  | u8 | u16 | u32 => true
  | i8 | i16 | i32 => false

def makeUnsigned : Primitives → Primitives
  | i8 | u8 => u8
  | i16 | u16 => u16
  | i32 | u32 => u32

def commonType (lhs rhs : Primitives) : Primitives :=
  if lhs = rhs then lhs
  else if lhs.isUnsigned = rhs.isUnsigned then if lhs.bitness ≥ rhs.bitness then lhs else rhs
  else if !lhs.isUnsigned && lhs.bitness > rhs.bitness then lhs
  else if !rhs.isUnsigned && rhs.bitness > lhs.bitness then rhs
  else makeUnsigned (if lhs.bitness ≥ rhs.bitness then lhs else rhs)

/-- The low bits as a number of the type, which is extended to 64 bits. -/
def extend (p : Primitives) (bits : U64) : U64 :=
  if p.isUnsigned then (bits.setWidth p.bitness).setWidth 64 else (bits.setWidth p.bitness).signExtend 64

variable (p : Primitives)

theorem bitness_pos : 0 < p.bitness := by cases p <;> decide

theorem bitness_le : p.bitness ≤ 64 := by cases p <;> decide

/-- Extending keeps the low bits. -/
theorem setWidth_extend (bits : U64) : (p.extend bits).setWidth p.bitness = bits.setWidth p.bitness := by
  rw [extend]
  split
  · rw [BitVec.setWidth_setWidth_of_le _ p.bitness_le, BitVec.setWidth_eq]
  · exact (setWidth_ofInt p.bitness_le _).trans BitVec.ofInt_toInt

theorem extend_congr {p : Primitives} {bits bits' : U64} (h : bits.setWidth p.bitness = bits'.setWidth p.bitness) :
    p.extend bits = p.extend bits' := by
  rw [extend, extend, h]

/-- The number of the type that `z` wraps to. -/
def reduce (p : Primitives) (z : Int) : Int := if p.isUnsigned then z % 2 ^ p.bitness else z.bmod (2 ^ p.bitness)

end Primitives

/-! ## Values -/

/-- A number, whose bits are extended from the width of its type. -/
structure VPrimitive where
  primitive : Primitives
  bits : U64
  extended : primitive.extend bits = bits

namespace VPrimitive

theorem ext_bits {v v' : VPrimitive} (hp : v.primitive = v'.primitive) (hbits : v.bits = v'.bits) : v = v' := by
  cases v
  cases v'
  simp_all

def typeHandle (v : VPrimitive) : DirectHandle := .ofPrimitive v.primitive

/-- `from` -/
def fromBits (newType : Primitives) (bits : U64) : VPrimitive :=
  ⟨newType, newType.extend bits, Primitives.extend_congr (newType.setWidth_extend bits)⟩

def withBits (type : VPrimitive) (newValue : U64) : VPrimitive := fromBits type.primitive newValue

def promote (value : VPrimitive) (newType : Primitives) : VPrimitive :=
  if newType = value.primitive then value else fromBits newType value.bits

/-- `operator<=>` -/
def compare (lhs rhs : VPrimitive) : Ordering :=
  (Ord.compare lhs.primitive.toU8.toNat rhs.primitive.toU8.toNat).then (Ord.compare lhs.bits.toNat rhs.bits.toNat)

/-- The number that the bits stand for. -/
def value (v : VPrimitive) : Int := if v.primitive.isUnsigned then v.bits.toNat else v.bits.toInt

/-- The value of the type that a number wraps to. -/
def ofInt (p : Primitives) (z : Int) : VPrimitive := fromBits p (BitVec.ofInt 64 z)

variable (v : VPrimitive)

theorem ofInt_value : BitVec.ofInt 64 v.value = v.bits := by
  rw [value]
  split
  · rw [BitVec.ofInt_natCast, BitVec.ofNat_toNat, BitVec.setWidth_eq]
  · exact BitVec.ofInt_toInt

theorem fromBits_bits : fromBits v.primitive v.bits = v := ext_bits rfl v.extended

theorem value_ofInt (p : Primitives) (z : Int) : (ofInt p z).value = p.reduce z := by
  rw [value, Primitives.reduce]
  change (if p.isUnsigned then ((p.extend (BitVec.ofInt 64 z)).toNat : Int)
    else (p.extend (BitVec.ofInt 64 z)).toInt) = _
  rw [Primitives.extend, setWidth_ofInt p.bitness_le]
  split
  · rw [BitVec.toNat_setWidth_of_le p.bitness_le, BitVec.toNat_ofInt,
      Int.toNat_of_nonneg (Int.emod_nonneg _ (two_pow_ne_zero _))]
    push_cast
    rfl
  · rw [BitVec.toInt_signExtend_of_le p.bitness_le, BitVec.toInt_ofInt]

/-- Promotion wraps the number to the new type. -/
theorem value_promote (p : Primitives) : (v.promote p).value = p.reduce v.value := by
  have hfrom : v.promote p = fromBits p v.bits := by
    rw [promote]
    split
    · next h => rw [h, fromBits_bits]
    · rfl
  rw [hfrom, ← value_ofInt, ofInt, ofInt_value]

def True : VPrimitive := ⟨.u8, 1, by decide⟩

def False : VPrimitive := ⟨.u8, 0, by decide⟩

end VPrimitive

/-- `Value` -/
inductive Value where
  | never
  | primitive (v : VPrimitive)
  | pointer (typeHandle : DirectHandle) (bits : U64)
  | array (typeHandle : DirectHandle) (bits : U64)
  | struct (typeHandle : DirectHandle) (bits : U64)

def DirectHandle.compare (lhs rhs : DirectHandle) : Ordering :=
  (Ord.compare lhs.metatype.toU8.toNat rhs.metatype.toU8.toNat).then (Ord.compare lhs.type.toNat rhs.type.toNat)

namespace Value

/-- The handle that a value carries; that of never is the default one. -/
def typeHandle : Value → DirectHandle
  | never => ⟨.Never, 0⟩
  | primitive v => v.typeHandle
  | pointer hnd _ => hnd
  | array hnd _ => hnd
  | struct hnd _ => hnd

/-- `operator<=>`: values of one kind by what they are, others by the kind of their handles. -/
def compare : Value → Value → Ordering
  | never, never => .eq
  | primitive lhs, primitive rhs => lhs.compare rhs
  | pointer hnd bits, pointer hnd' bits' => (hnd.compare hnd').then (Ord.compare bits.toNat bits'.toNat)
  | array hnd bits, array hnd' bits' => (hnd.compare hnd').then (Ord.compare bits.toNat bits'.toNat)
  | struct hnd bits, struct hnd' bits' => (hnd.compare hnd').then (Ord.compare bits.toNat bits'.toNat)
  | lhs, rhs => Ord.compare lhs.typeHandle.metatype.toU8.toNat rhs.typeHandle.metatype.toU8.toNat

/-- `value_bits` -/
def bits : Value → U64
  | never => 0
  | primitive v => v.bits
  | pointer _ bits => bits
  | array _ bits => bits
  | struct _ bits => bits

end Value

/-! ## Binary operators

An operation on 64 bits has no result where that of the processor is not
defined: a division by zero, or a shift by 64 or more. -/

/-- `BinaryArithVisitor` -/
def binaryArith (op : U64 → U64 → Option U64) : Value → Value → Option Value
  | .primitive lhs, .primitive rhs =>
    if lhs.primitive = rhs.primitive then (op lhs.bits rhs.bits).map fun bits => .primitive (lhs.withBits bits)
    else
      let common := Primitives.commonType lhs.primitive rhs.primitive
      let lhs := lhs.promote common
      let rhs := rhs.promote common
      (op lhs.bits rhs.bits).map fun bits => .primitive (lhs.withBits bits)
  | _, _ => some .never

def bitShiftLeft (x y : U64) : Option U64 := if y.toNat < 64 then some (x <<< y.toNat) else none

def bitShiftRight (x y : U64) : Option U64 := if y.toNat < 64 then some (x >>> y.toNat) else none

def op2Add : Value → Value → Option Value := binaryArith fun x y => some (x + y)

def op2Sub : Value → Value → Option Value := binaryArith fun x y => some (x - y)

def op2Mul : Value → Value → Option Value := binaryArith fun x y => some (x * y)

def op2Div : Value → Value → Option Value := binaryArith fun x y => if y = 0 then none else some (x / y)

def op2Mod : Value → Value → Option Value := binaryArith fun x y => if y = 0 then none else some (x % y)

def op2Bsl : Value → Value → Option Value := binaryArith bitShiftLeft

def op2Bsr : Value → Value → Option Value := binaryArith bitShiftRight

def op2Bitand : Value → Value → Option Value := binaryArith fun x y => some (x &&& y)

def op2Bitor : Value → Value → Option Value := binaryArith fun x y => some (x ||| y)

def op2Bitxor : Value → Value → Option Value := binaryArith fun x y => some (x ^^^ y)

/-- `VPrimitive::True()` or `VPrimitive::False()` -/
def verdict (b : Bool) : Value := .primitive (if b then .True else .False)

def op2Lt (lhs rhs : Value) : Value := verdict (lhs.compare rhs == .lt)

def op2Le (lhs rhs : Value) : Value := verdict (lhs.compare rhs != .gt)

def op2Eq (lhs rhs : Value) : Value := verdict (lhs.compare rhs == .eq)

def op2Ne (lhs rhs : Value) : Value := verdict (lhs.compare rhs != .eq)

def op2Ge (lhs rhs : Value) : Value := verdict (lhs.compare rhs != .lt)

def op2Gt (lhs rhs : Value) : Value := verdict (lhs.compare rhs == .gt)

/-- The operators of `BinaryInfix`, but for the accesses to members. -/
inductive Operators where
  | MULTIPLY | DIVIDE | MODULO | ADD | SUBTRACT | SHIFT_LEFT | SHIFT_RIGHT
  | LESS | LESS_OR_EQUAL | EQUAL | NOT_EQUAL | GREATER | GREATER_OR_EQUAL
  | BIT_AND | BIT_OR | BIT_XOR
  deriving DecidableEq, Repr

/-- What `BinaryInfix::evaluate` makes of the values of its operands. -/
def Operators.evaluate : Operators → Value → Value → Option Value
  | MULTIPLY => op2Mul
  | DIVIDE => op2Div
  | MODULO => op2Mod
  | ADD => op2Add
  | SUBTRACT => op2Sub
  | SHIFT_LEFT => op2Bsl
  | SHIFT_RIGHT => op2Bsr
  | LESS => fun lhs rhs => some (op2Lt lhs rhs)
  | LESS_OR_EQUAL => fun lhs rhs => some (op2Le lhs rhs)
  | EQUAL => fun lhs rhs => some (op2Eq lhs rhs)
  | NOT_EQUAL => fun lhs rhs => some (op2Ne lhs rhs)
  | GREATER => fun lhs rhs => some (op2Gt lhs rhs)
  | GREATER_OR_EQUAL => fun lhs rhs => some (op2Ge lhs rhs)
  | BIT_AND => op2Bitand
  | BIT_OR => op2Bitor
  | BIT_XOR => op2Bitxor

/-! ## Reading memory -/

/-- The bytes and words that expressions can read. -/
structure Environment where
  readMemU8 : U32 → U8
  readMemU16 : U32 → U16

section Types

variable {Name : Type} [LinearOrder Name]

/-- `bitness` of any type, which is kept in a byte. -/
def BoxedType.bitness : BoxedType Name → U8
  | .never => 0
  | .primitive p => .ofNat 8 p.bitness
  | .pointer pointerSize _ => 8 * pointerSize
  | .array pointerSize _ _ => 8 * pointerSize
  | .struct pointerSize _ => 8 * pointerSize

def op1Typeof (info : TypeInfo Name) : Value → BoxedType Name
  | .never => .never
  | .primitive v => .primitive v.primitive
  | .pointer hnd _ => info.typeFrom hnd
  | .array hnd _ => info.typeFrom hnd
  | .struct hnd _ => info.typeFrom hnd

def op1DereferenceTypeof (info : TypeInfo Name) (v : Value) : BoxedType Name :=
  match op1Typeof info v with
  | .never => .never
  | .primitive _ => .primitive .i16
  | .pointer _ t => t
  | .array _ _ t => t
  | .struct _ _ => .never

/-- `from_bits` -/
def valueFromBits : BoxedType Name → U64 → Value
  | .primitive p, bits => .primitive (.fromBits p bits)
  | _, _ => .never

/-- `MemoryRead::evaluate`, once its argument has a value and nothing is cached; it throws for other sizes. -/
def memoryRead (env : Environment) (info : TypeInfo Name) (v : Value) : Option Value :=
  let retType := op1DereferenceTypeof info v
  let address := v.bits
  match (retType.bitness / 8).toNat with
  | 1 => some (valueFromBits retType ((env.readMemU8 (address.setWidth 32)).setWidth 64))
  | 2 => some (valueFromBits retType ((env.readMemU16 (address.setWidth 32)).setWidth 64))
  | 4 =>
    -- The address has moved when the lower half is read.
    let address := address + 2
    let readBuf : U64 := ((env.readMemU16 (address.setWidth 32)).setWidth 32 <<< 16).setWidth 64
    some (valueFromBits retType (readBuf ||| (env.readMemU16 (address.setWidth 32)).setWidth 64))
  | _ => none

end Types

end Pepp.Debug
