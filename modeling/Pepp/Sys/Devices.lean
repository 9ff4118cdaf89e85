import Pepp.Sim.Fifo

/-!
# Device configurations

A system description after its text has been read, and the accessors that the
parsers use. Numbers keep the 64 bits and the signedness that they are stored
with; nobody looks at the value of a real number.
-/

namespace Pepp.Sys

/-- Why a description is not a system. -/
inductive ParsingError where
  | message (text : String)
  | failedToParse (what : String)
  | typeError
  | assertion
  | runtimeError (text : String)
  deriving DecidableEq, Repr

inductive Json where
  | null
  | boolean (b : Bool)
  | unsigned (n : U64)
  | integer (n : U64)
  | real
  | string (s : String)
  | array (items : List Json)
  | object (fields : List (String × Json))

/-- ASCII only, as in the C locale. -/
def toLower (s : String) : String := String.ofList (s.toList.map Char.toLower)

namespace Json

def find (key : String) : List (String × Json) → Option Json
  | [] => none
  | (k, v) :: fields => if k = key then some v else find key fields

def lookup (key : String) : Json → Option Json
  | object fields => find key fields
  | _ => none

/-- `contains(key) && !at(key).is_null()` -/
def present (key : String) (self : Json) : Option Json :=
  match self.lookup key with
  | some null => none
  | value => value

/-- `operator[]` of a constant value asserts that the key is there. -/
def at_ (key : String) (self : Json) : Except ParsingError Json :=
  match self with
  | object fields =>
    match find key fields with
    | some value => .ok value
    | none => .error .assertion
  | _ => .error .typeError

/-- `get<std::string>` -/
def getString : Json → Except ParsingError String
  | string s => .ok s
  | _ => .error .typeError

end Json

/-- The value of a digit, of letters of either case from ten on. -/
def digitValue (c : Char) : Option Nat :=
  if '0' ≤ c ∧ c ≤ '9' then some (c.toNat - '0'.toNat)
  else if 'a' ≤ c ∧ c ≤ 'z' then some (c.toNat - 'a'.toNat + 10)
  else if 'A' ≤ c ∧ c ≤ 'Z' then some (c.toNat - 'A'.toNat + 10)
  else none

def magnitude (base : Nat) : List Char → Nat → Option Nat
  | [], n => some n
  | c :: digits, n =>
    match digitValue c with
    | some d => if d < base then magnitude base digits (n * base + d) else none
    | none => none

/-- An integer type, by its signedness and its width. -/
structure IntegerType where
  signed : Bool
  width : Nat

namespace IntegerType

variable (self : IntegerType)

def min : Int := if self.signed then -(2 ^ (self.width - 1)) else 0

def max : Int := if self.signed then 2 ^ (self.width - 1) - 1 else 2 ^ self.width - 1

/-- `std::from_chars` of a whole text: a minus sign is only read for signed types, a plus sign never. -/
def fromChars (base : Nat) (text : List Char) : Option Int :=
  let (negative, digits) : Bool × List Char := match text with
    | '-' :: digits => if self.signed then (true, digits) else (false, text)
    | _ => (false, text)
  if digits = [] then none
  else
    match magnitude base digits 0 with
    | none => none
    | some n =>
      let value : Int := if negative then -(n : Int) else n
      if self.min ≤ value ∧ value ≤ self.max then some value else none

/-- The base, what stands behind the prefix, and the sign. -/
def prefixOf : List Char → Nat × List Char × Int
  | '0' :: 'b' :: text | '0' :: 'B' :: text => (2, text, 1)
  | '0' :: 'o' :: text | '0' :: 'O' :: text => (8, text, 1)
  | '0' :: 'x' :: text | '0' :: 'X' :: text => (16, text, 1)
  | '-' :: text => (10, text, -1)
  | '+' :: text => (10, text, 1)
  | text => (10, text, 1)

end IntegerType

open IntegerType in
/-- `as_int`; the signed branch reads unsigned numbers through `i64`. -/
def asInt (type : IntegerType) (value : Json) : Except ParsingError (BitVec type.width) :=
  match value with
  | .unsigned v =>
    if type.signed then
      if v.toInt < type.min ∨ v.toInt > type.max then .error (.message "Signed integer field out of range")
      else .ok (BitVec.ofInt type.width v.toInt)
    else if (v.toNat : Int) > type.max then .error (.message "Unsigned integer field too large")
    else .ok (BitVec.ofNat type.width v.toNat)
  | .integer v =>
    if type.signed then
      if v.toInt < type.min ∨ v.toInt > type.max then .error (.message "Signed integer field out of range")
      else .ok (BitVec.ofInt type.width v.toInt)
    else if v.toInt < 0 then .error (.message "Unsigned integer field cannot be negative")
    else .ok (BitVec.ofInt type.width v.toInt)
  | .string s =>
    let (base, text, sign) := prefixOf s.toList
    if ¬ type.signed ∧ sign < 0 then .error (.message "Unsigned integer field cannot be negative")
    else
      match type.fromChars base text with
      | none => .error (.message "Failed to parse integer from string")
      | some ret => .ok (BitVec.ofInt type.width (sign * ret))
  | _ => .error (.message "Field must be an integer or string containing an integer")

def asI8 (value : Json) : Except ParsingError U8 := asInt ⟨true, 8⟩ value

def asU32 (value : Json) : Except ParsingError U32 := asInt ⟨false, 32⟩ value

example : asI8 (.string "-0x1") = .error (.message "Failed to parse integer from string") := by decide
example : asI8 (.string "0x-1") = .ok 0xFF#8 := by decide

end Pepp.Sys

/-! ## Device configurations

Each kind of device has a function that creates its configuration from a node of
the description, and one that writes it back. -/

namespace Pepp.Sys

structure Access where
  read : Bool
  write : Bool
  execute : Bool
  deriving DecidableEq, Repr

structure Direction where
  input : Bool
  output : Bool
  deriving DecidableEq, Repr

inductive Isa where
  | Pep8 | Pep9 | Pep10
  deriving DecidableEq, Repr

/-- `SimpleBus::Configuration::Mapping` -/
structure Mapping where
  target : String
  access : Access
  sourceSpan : AddressSpan
  targetOffset : Address
  deriving DecidableEq, Repr

/-- The register banks of a CPU are created with it, and are not serialized. -/
inductive Configuration where
  | system
  | dense (fill : U8) (span : AddressSpan)
  | sparse (fill : U8) (span : AddressSpan)
  | simpleBus (fill : U8) (span : AddressSpan) (failPolicy : FailPolicy) (mappings : List Mapping)
  | fifoRegister (fill : U8) (direction : Direction) (span : AddressSpan) (failPolicy : FailPolicy)
  | pepIsa3 (isa : Isa) (target : String)
  | pepRegisterBank
  | pepCsrBank
  deriving DecidableEq, Repr

structure Device where
  basename : String
  compatible : String
  configuration : Configuration
  deriving DecidableEq, Repr

def Configuration.skipSerialize : Configuration → Bool
  | pepRegisterBank | pepCsrBank => true
  | _ => false

/-- A handler turns the type errors of the JSON library into parsing errors. -/
def caught {α : Type} (what : String) : Except ParsingError α → Except ParsingError α
  | .error .typeError => .error (.failedToParse what)
  | result => result

section Parsers

open Json

variable (self : Json)

def getOptional (key : String) : Except ParsingError String :=
  match self.present key with
  | some value => value.getString
  | none => .ok ""

/-- The compatible name and the basename, empty ones if they are absent. -/
def parseStandardFields : Except ParsingError (String × String) := do
  let compatible ← getOptional self "compatible"
  let basename ← getOptional self "basename"
  return (compatible, basename)

def requireBasename (basename error : String) : Except ParsingError Unit :=
  if basename.isEmpty then .error (.message error) else .ok ()

def requireU32 (key error : String) : Except ParsingError U32 :=
  match self.present key with
  | none => .error (.message error)
  | some value => asU32 value

def parseFill : Except ParsingError U8 :=
  match self.present "fill" with
  | some value => asI8 value
  | none => .ok 0

/-- `create_dense` and `create_sparse` -/
def createRam (what : String) (ram : U8 → AddressSpan → Configuration) : Except ParsingError Device :=
  caught what do
    let (compatible, basename) ← parseStandardFields self
    requireBasename basename "RAM must have a basename"
    let min ← requireU32 self "min_offset" "RAM must have a min_offset"
    let max ← requireU32 self "max_offset" "RAM must have a max_offset"
    let fill ← parseFill self
    return ⟨basename, compatible, ram fill ⟨min, max⟩⟩

def createDense : Except ParsingError Device := createRam self "dense RAM" .dense

def createSparse : Except ParsingError Device := createRam self "sparse RAM" .sparse

def parseSpan (pre : String) : Except ParsingError AddressSpan := do
  let min ← requireU32 self (pre ++ "min_offset") "SimpleBus must have a min_offset"
  let max ← requireU32 self (pre ++ "max_offset") "SimpleBus must have a max_offset"
  return ⟨min, max⟩

def parseFailPolicy (error : String → String) : Except ParsingError FailPolicy :=
  match self.present "fail_policy" with
  | none => .ok .RaiseError
  | some value => do
    let policy := toLower (← value.getString)
    if policy = "raise_error" then return .RaiseError
    else if policy = "yield_default" then return .YieldDefaultValue
    else .error (.message (error policy))

/-- `find(letter) == npos` -/
def lacks (access : String) (letter : Char) : Bool := !access.toList.contains letter

def requireString (key error : String) : Except ParsingError String :=
  match self.present key with
  | none => .error (.message error)
  | some value => value.getString

def parseAccess : Except ParsingError Access :=
  match self.present "access" with
  | none => .ok ⟨true, true, true⟩
  | some value => do
    let access := toLower (← value.getString)
    return ⟨lacks access 'r', lacks access 'w', lacks access 'x'⟩

/-- The zero of an absent target offset is overwritten in the next line of the source. -/
def createMapping : Except ParsingError Mapping := do
  let target ← requireString self "target" "SimpleBus mapping must have a string target"
  let sourceSpan ← parseSpan self "source_"
  let targetOffset ← asU32 (← self.at_ "target_offset")
  let access ← parseAccess self
  return ⟨target, access, sourceSpan, targetOffset⟩

def createMappings : Except ParsingError (List Mapping) :=
  match self.lookup "mappings" with
  | some (.array mappings) => mappings.mapM createMapping
  | _ => .error (.message "SimpleBus must have a mappings array")

def createSimpleBus : Except ParsingError Device :=
  caught "SimpleBus" do
    let (compatible, basename) ← parseStandardFields self
    requireBasename basename "SimpleBus must have a basename"
    let span ← parseSpan self ""
    let fill ← parseFill self
    let failPolicy ← parseFailPolicy self fun policy => "Unknown fail_policy: " ++ policy
    let mappings ← createMappings self
    return ⟨basename, compatible, .simpleBus fill span failPolicy mappings⟩

def parseDirection : Except ParsingError Direction :=
  match self.present "direction" with
  | none => .ok ⟨false, false⟩
  | some value => do
    let direction := toLower (← value.getString)
    if direction = "none" then return ⟨false, false⟩
    else if direction = "in" then return ⟨true, false⟩
    else if direction = "out" then return ⟨false, true⟩
    else if direction = "inout" then return ⟨true, true⟩
    else .error (.message "FIFORegister direction must be one of: none, in, out, inout")

def createMmreg : Except ParsingError Device :=
  caught "dense FIFORegister" do
    let (compatible, basename) ← parseStandardFields self
    requireBasename basename "FIFORegister must have a basename"
    let offset ← requireU32 self "offset" "FIFORegister must have a offset"
    let fill ← parseFill self
    let direction ← parseDirection self
    let failPolicy ← parseFailPolicy self fun _ => "FIFORegister fail_policy must be one of: raise_error, yield_default"
    return ⟨basename, compatible, .fifoRegister fill direction ⟨offset, offset⟩ failPolicy⟩

def stringToIsa (text : String) : Option Isa :=
  if toLower text = "pep8" then some .Pep8
  else if toLower text = "pep9" then some .Pep9
  else if toLower text = "pep10" then some .Pep10
  else none

def isaToString : Isa → String
  | .Pep8 => "pep8"
  | .Pep9 => "pep9"
  | .Pep10 => "pep10"

def parseIsa : Except ParsingError Isa :=
  match self.present "isa" with
  | none => .ok .Pep10
  | some value => do
    let text ← value.getString
    match stringToIsa text with
    | some isa => return isa
    | none => .error (.message ("PepISA3CPU: unknown ISA " ++ text))

def createPepisacpu : Except ParsingError Device :=
  caught "PepISA3CPU" do
    let (compatible, basename) ← parseStandardFields self
    requireBasename basename "PepISA3CPU must have a basename"
    let target ← requireString self "target" "PepISA3CPU must have a target"
    let isa ← parseIsa self
    return ⟨basename, compatible, .pepIsa3 isa target⟩

/-- The parsers, and the choice between them by the compatible name. -/
def createDevice : Except ParsingError Device := do
  let compatible ← (← self.at_ "compatible").getString
  if compatible = "ram,dense" ∨ compatible = "ram" then createDense self
  else if compatible = "ram,sparse" then createSparse self
  else if compatible = "bus,simple" then createSimpleBus self
  else if compatible = "io,fifo" then createMmreg self
  else if compatible = "cpu,pep,isa3" then createPepisacpu self
  else .error (.message ("Unknown compatible type: " ++ compatible))

end Parsers

section Serializers

def numberU8 (v : U8) : Json := .unsigned (v.setWidth 64)

def numberU32 (v : U32) : Json := .unsigned (v.setWidth 64)

def fillField (fill : U8) : List (String × Json) := if fill ≠ 0 then [("fill", numberU8 fill)] else []

def serializeRam (compatible basename : String) (fill : U8) (span : AddressSpan) : List (String × Json) :=
  [("compatible", .string compatible), ("basename", .string basename), ("min_offset", numberU32 span.lower),
    ("max_offset", numberU32 span.upper)] ++ fillField fill

def Access.text (access : Access) : String :=
  (if access.read then "r" else "") ++ (if access.write then "w" else "") ++ (if access.execute then "x" else "")

def serializeMapping (mapping : Mapping) : Json :=
  .object [("target", .string mapping.target), ("source_min_offset", numberU32 mapping.sourceSpan.lower),
    ("source_max_offset", numberU32 mapping.sourceSpan.upper), ("target_offset", numberU32 mapping.targetOffset),
    ("access", .string mapping.access.text)]

def serializeSimpleBus (basename : String) (fill : U8) (span : AddressSpan) (failPolicy : FailPolicy)
    (mappings : List Mapping) : List (String × Json) :=
  [("compatible", .string "bus,simple"), ("basename", .string basename), ("min_offset", numberU32 span.lower),
    ("max_offset", numberU32 span.upper)] ++ fillField fill ++
  (match failPolicy with
    | .RaiseError => []
    | .YieldDefaultValue => [("fail_policy", .string "yield_default")]) ++
  [("mappings", .array (mappings.map serializeMapping))]

def Direction.text : Direction → String
  | ⟨false, false⟩ => "none"
  | ⟨true, false⟩ => "in"
  | ⟨false, true⟩ => "out"
  | ⟨true, true⟩ => "inout"

def failPolicyText : FailPolicy → String
  | .YieldDefaultValue => "yield_default"
  | .RaiseError => "raise_error"

def serializeMmreg (basename : String) (fill : U8) (direction : Direction) (span : AddressSpan) (failPolicy : FailPolicy) :
    List (String × Json) :=
  [("compatible", .string "io,fifo"), ("basename", .string basename), ("offset", numberU32 span.lower)] ++
  fillField fill ++ [("direction", .string direction.text), ("fail_policy", .string (failPolicyText failPolicy))]

def serializePepisacpu (basename : String) (isa : Isa) (target : String) : List (String × Json) :=
  [("compatible", .string "cpu,pep,isa3"), ("basename", .string basename), ("target", .string target),
    ("isa", .string (isaToString isa))]

/-- `serializer()->serialize` -/
def serializeDevice (device : Device) : List (String × Json) :=
  match device.configuration with
  | .system => [("compatible", .string device.compatible), ("basename", .string device.basename)]
  | .dense fill span => serializeRam "ram,dense" device.basename fill span
  | .sparse fill span => serializeRam "ram,sparse" device.basename fill span
  | .simpleBus fill span failPolicy mappings => serializeSimpleBus device.basename fill span failPolicy mappings
  | .fifoRegister fill direction span failPolicy => serializeMmreg device.basename fill direction span failPolicy
  | .pepIsa3 isa target => serializePepisacpu device.basename isa target
  | .pepRegisterBank | .pepCsrBank => []

end Serializers

end Pepp.Sys
