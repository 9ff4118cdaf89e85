import Pepp.Integers

/-!
# Pep/10 opcode tables

`initOpcodes` of the instruction set fills two planes at once: the mnemonic
plane read by the sim3 processor and the behavior plane read by the core
processor. Both are kept as the list of assignments the source makes, in the
source's order; the last assignment to an opcode is the one that stands.
-/

namespace Pepp.Isa

inductive Mnemonic where
  | RET | SRET | MOVFLGA | MOVAFLG | MOVSPA | MOVASP | NOP
  | NEGA | NEGX | ASLA | ASLX | ASRA | ASRX | NOTA | NOTX | ROLA | ROLX | RORA | RORX
  | BR | BRLE | BRLT | BREQ | BRNE | BRGE | BRGT | BRV | BRC | CALL
  | SCALL | ADDSP | SUBSP | ADDA | ADDX | SUBA | SUBX | ANDA | ANDX | ORA | ORX | XORA | XORX
  | CPWA | CPWX | CPBA | CPBX | LDWA | LDWX | LDBA | LDBX | STWA | STWX | STBA | STBX
  | INVALID
  deriving DecidableEq, Repr

def Mnemonic.value : Mnemonic → Nat
  | .RET => 1
  | .SRET => 2
  | .MOVFLGA => 3
  | .MOVAFLG => 4
  | .MOVSPA => 5
  | .MOVASP => 6
  | .NOP => 7
  | .NEGA => 0x18
  | .NEGX => 0x19
  | .ASLA => 0x1A
  | .ASLX => 0x1B
  | .ASRA => 0x1C
  | .ASRX => 0x1D
  | .NOTA => 0x1E
  | .NOTX => 0x1F
  | .ROLA => 0x20
  | .ROLX => 0x21
  | .RORA => 0x22
  | .RORX => 0x23
  | .BR => 0x24
  | .BRLE => 0x26
  | .BRLT => 0x28
  | .BREQ => 0x2A
  | .BRNE => 0x2C
  | .BRGE => 0x2E
  | .BRGT => 0x30
  | .BRV => 0x32
  | .BRC => 0x34
  | .CALL => 0x36
  | .SCALL => 0x38
  | .ADDSP => 0x40
  | .SUBSP => 0x48
  | .ADDA => 0x50
  | .ADDX => 0x58
  | .SUBA => 0x60
  | .SUBX => 0x68
  | .ANDA => 0x70
  | .ANDX => 0x78
  | .ORA => 0x80
  | .ORX => 0x88
  | .XORA => 0x90
  | .XORX => 0x98
  | .CPWA => 0xA0
  | .CPWX => 0xA8
  | .CPBA => 0xB0
  | .CPBX => 0xB8
  | .LDWA => 0xC0
  | .LDWX => 0xC8
  | .LDBA => 0xD0
  | .LDBX => 0xD8
  | .STWA => 0xE0
  | .STWX => 0xE8
  | .STBA => 0xF0
  | .STBX => 0xF8
  | .INVALID => 0x100

inductive AddressingMode where
  | NONE | I | D | N | S | SF | X | SX | SFX | ALL | INVALID
  deriving DecidableEq, Repr

inductive InstructionType where
  | Invalid | U_none | R_none | A_ix | AAA_all | AAA_i | RAAA_all | RAAA_noi
  deriving DecidableEq, Repr

structure Instruction where
  mnemon : Mnemonic
  type : InstructionType
  unary : Bool
  deriving DecidableEq, Repr

structure Opcode where
  instr : Instruction
  mode : AddressingMode
  valid : Bool
  deriving DecidableEq, Repr

/-- Register numbers of the bank. Anything past `OS` names no register. -/
inductive Register where
  | A | X | SP | PC | IS | OS | INVALID
  deriving DecidableEq, Repr

def Register.value : Register → Nat
  | .A => 0
  | .X => 1
  | .SP => 2
  | .PC => 3
  | .IS => 4
  | .OS => 5
  | .INVALID => 6

/-- `static_cast<Register>(u8)` followed by the bank's `default:` case. -/
def Register.ofU8 (n : U8) : Register :=
  match n.toNat with
  | 0 => .A
  | 1 => .X
  | 2 => .SP
  | 3 => .PC
  | 4 => .IS
  | 5 => .OS
  | _ => .INVALID

inductive SharedOpBehavior where
  | INVALID | STOP | UNIMPL | RET | SRET | MOVFLGA | MOVAFLG | MOVSPA | MOVASP | HW_NOP
  | NEG | ASL | ASR | NOT | ROL | ROR
  | BR | BRLE | BRLT | BREQ | BRNE | BRGE | BRGT | BRV | BRC | CALL | SCALL | TRAP_CALL
  | ADDSP | SUBSP | ADD | SUB | AND | OR | XOR | CPW | CPB | LDW | LDB | STW | STB
  deriving DecidableEq, Repr

inductive SharedAddrMode where
  | Unary | I | D | N | S | SF | X | SX | SFX
  deriving DecidableEq, Repr

structure SharedOp where
  behavior : SharedOpBehavior
  addr : SharedAddrMode
  target : U8 := -1
  deriving DecidableEq, Repr

inductive MemoryVectors where
  | TrapHandler | Dispatcher | SystemStackPtr | CharIn | CharOut | PwrOff
  deriving DecidableEq, Repr

def MemoryVectors.value : MemoryVectors → U16
  | .TrapHandler => 0xFFF7
  | .Dispatcher => 0xFFF9
  | .SystemStackPtr => 0xFFFB
  | .CharIn => 0xFFFD
  | .CharOut => 0xFFFE
  | .PwrOff => 0xFFFF

/-! ## Rows of the mnemonic plane -/

def addUnary (m : Mnemonic) (type : InstructionType) : List (Nat × Opcode) :=
  [(m.value, ⟨⟨m, type, true⟩, .NONE, true⟩)]

def addIx (i : Instruction) : List (Nat × Opcode) :=
  [(i.mnemon.value, ⟨i, .I, true⟩), (i.mnemon.value + 1, ⟨i, .X, true⟩)]

/-- Addressing modes of the eight-row instructions, in encoding order. -/
def allModes : List AddressingMode := [.I, .D, .N, .S, .SF, .X, .SX, .SFX]

def addAll (i : Instruction) : List (Nat × Opcode) :=
  allModes.zipIdx.map fun (mode, k) =>
    (i.mnemon.value + k, ⟨i, mode, mode ≠ .I || i.type ≠ .RAAA_noi⟩)

def invalidRow (at_ : Nat) : Nat × Opcode := (at_, ⟨⟨.INVALID, .U_none, true⟩, .NONE, false⟩)

/-- Opcodes strictly between `NOP` and `NOTA` start out unimplemented. -/
def gap : List Nat := (List.range (Mnemonic.NOTA.value - (Mnemonic.NOP.value + 1))).map (Mnemonic.NOP.value + 1 + ·)

def mnemonicRows : List (Nat × Opcode) :=
  [invalidRow 0] ++
  [Mnemonic.RET, .SRET, .MOVFLGA, .MOVAFLG, .MOVSPA, .MOVASP, .NOP].flatMap (addUnary · .U_none) ++
  gap.map invalidRow ++
  [Mnemonic.NEGA, .NEGX, .ASLA, .ASLX, .ASRA, .ASRX, .NOTA, .NOTX, .ROLA, .ROLX, .RORA, .RORX].flatMap
    (addUnary · .R_none) ++
  [Mnemonic.BR, .BRLE, .BRLT, .BREQ, .BRNE, .BRGE, .BRGT, .BRV, .BRC, .CALL].flatMap
    (fun m => addIx ⟨m, .A_ix, false⟩) ++
  addAll ⟨.SCALL, .AAA_all, true⟩ ++
  [Mnemonic.LDWA, .LDWX, .LDBA, .LDBX].flatMap (fun m => addAll ⟨m, .RAAA_all, false⟩) ++
  [Mnemonic.STWA, .STWX, .STBA, .STBX].flatMap (fun m => addAll ⟨m, .RAAA_noi, false⟩) ++
  [Mnemonic.CPWA, .CPWX, .CPBA, .CPBX, .ADDA, .ADDX, .SUBA, .SUBX, .ANDA, .ANDX, .ORA, .ORX, .XORA, .XORX].flatMap
    (fun m => addAll ⟨m, .RAAA_all, false⟩) ++
  [Mnemonic.ADDSP, .SUBSP].flatMap (fun m => addAll ⟨m, .AAA_all, false⟩)

/-! ## Rows of the behavior plane -/

def bhUnary (m : Mnemonic) (b : SharedOpBehavior) : List (Nat × SharedOp) :=
  [(m.value, { behavior := b, addr := .Unary })]

def bhUnaryR (m : Mnemonic) (b : SharedOpBehavior) (r : Register) : List (Nat × SharedOp) :=
  [(m.value, ⟨b, .Unary, BitVec.ofNat 8 r.value⟩)]

def bhIx (m : Mnemonic) (b : SharedOpBehavior) : List (Nat × SharedOp) :=
  [(m.value, { behavior := b, addr := .I }), (m.value + 1, { behavior := b, addr := .X })]

def allAddrs : List SharedAddrMode := [.I, .D, .N, .S, .SF, .X, .SX, .SFX]

def bhAllAaa (m : Mnemonic) (b : SharedOpBehavior) (r : Register := .INVALID) : List (Nat × SharedOp) :=
  allAddrs.zipIdx.map fun (addr, k) => (m.value + k, ⟨b, addr, BitVec.ofNat 8 r.value⟩)

def bhUnaryAaa (m : Mnemonic) (b : SharedOpBehavior) (r : Register := .INVALID) : List (Nat × SharedOp) :=
  (List.range 8).map fun k => (m.value + k, ⟨b, .Unary, BitVec.ofNat 8 r.value⟩)

/-- Stores have no immediate row. -/
def bhNoiAaa (m : Mnemonic) (b : SharedOpBehavior) (r : Register := .INVALID) : List (Nat × SharedOp) :=
  (m.value, { behavior := .INVALID, addr := .Unary }) :: (bhAllAaa m b r).tail

def behaviorRows : List (Nat × SharedOp) :=
  [(0, { behavior := .INVALID, addr := .Unary })] ++
  bhUnary .RET .RET ++ bhUnary .SRET .SRET ++ bhUnary .MOVFLGA .MOVFLGA ++ bhUnary .MOVAFLG .MOVAFLG ++
  bhUnary .MOVSPA .MOVSPA ++ bhUnary .MOVASP .MOVASP ++ bhUnary .NOP .HW_NOP ++
  gap.map (fun at_ => (at_, { behavior := .UNIMPL, addr := .Unary })) ++
  bhUnaryR .NEGA .NEG .A ++ bhUnaryR .NEGX .NEG .X ++ bhUnaryR .ASLA .ASL .A ++ bhUnaryR .ASLX .ASL .X ++
  bhUnaryR .ASRA .ASR .A ++ bhUnaryR .ASRX .ASR .X ++ bhUnaryR .NOTA .NOT .A ++ bhUnaryR .NOTX .NOT .X ++
  bhUnaryR .ROLA .ROL .A ++ bhUnaryR .ROLX .ROL .X ++ bhUnaryR .RORA .ROR .A ++ bhUnaryR .RORX .ROR .X ++
  bhIx .BR .BR ++ bhIx .BRLE .BRLE ++ bhIx .BRLT .BRLT ++ bhIx .BREQ .BREQ ++ bhIx .BRNE .BRNE ++
  bhIx .BRGE .BRGE ++ bhIx .BRGT .BRGT ++ bhIx .BRV .BRV ++ bhIx .BRC .BRC ++ bhIx .CALL .CALL ++
  bhUnaryAaa .SCALL .SCALL ++
  bhAllAaa .LDWA .LDW .A ++ bhAllAaa .LDWX .LDW .X ++ bhAllAaa .LDBA .LDB .A ++ bhAllAaa .LDBX .LDB .X ++
  bhNoiAaa .STWA .STW .A ++ bhNoiAaa .STWX .STW .X ++ bhNoiAaa .STBA .STB .A ++ bhNoiAaa .STBX .STB .X ++
  bhAllAaa .CPWA .CPW .A ++ bhAllAaa .CPWX .CPW .X ++ bhAllAaa .CPBA .CPB .A ++ bhAllAaa .CPBX .CPB .X ++
  bhAllAaa .ADDA .ADD .A ++ bhAllAaa .ADDX .ADD .X ++ bhAllAaa .SUBA .SUB .A ++ bhAllAaa .SUBX .SUB .X ++
  bhAllAaa .ANDA .AND .A ++ bhAllAaa .ANDX .AND .X ++ bhAllAaa .ORA .OR .A ++ bhAllAaa .ORX .OR .X ++
  bhAllAaa .XORA .XOR .A ++ bhAllAaa .XORX .XOR .X ++ bhAllAaa .ADDSP .ADDSP ++ bhAllAaa .SUBSP .SUBSP

/-! ## Lookup -/

def lastRow {α : Type} (rows : List (Nat × α)) (default : α) (at_ : Nat) : α :=
  rows.foldl (fun found row => if row.1 = at_ then row.2 else found) default

/-- `Pep10::opcodeLUT`. -/
def opcodeLUT (op : U8) : Opcode := lastRow mnemonicRows (invalidRow 0).2 op.toNat

/-- `Pep10::opcode_plane`. -/
def opcodePlane (op : U8) : SharedOp := lastRow behaviorRows { behavior := .INVALID, addr := .Unary } op.toNat

def isOpcodeUnary (op : U8) : Bool := (opcodeLUT op).instr.unary

def isStore (m : Mnemonic) : Bool := m = .STBA || m = .STWA || m = .STBX || m = .STWX

def isValidAddressingMode (m : Mnemonic) (addr : AddressingMode) : Bool :=
  match (opcodeLUT (BitVec.ofNat 8 m.value)).instr.type with
  | .Invalid | .U_none | .R_none => false
  | .A_ix => addr = .X || addr = .I
  | .AAA_i => addr = .I
  | .AAA_all | .RAAA_all => !(addr = .ALL || addr = .INVALID || addr = .NONE)
  | .RAAA_noi => !(addr = .ALL || addr = .INVALID || addr = .NONE || addr = .I)

/-! ## The two planes describe one instruction set -/

/-- What the core processor does for a mnemonic. -/
def Mnemonic.behavior : Mnemonic → SharedOpBehavior
  | .RET => .RET
  | .SRET => .SRET
  | .MOVFLGA => .MOVFLGA
  | .MOVAFLG => .MOVAFLG
  | .MOVSPA => .MOVSPA
  | .MOVASP => .MOVASP
  | .NOP => .HW_NOP
  | .NEGA | .NEGX => .NEG
  | .ASLA | .ASLX => .ASL
  | .ASRA | .ASRX => .ASR
  | .NOTA | .NOTX => .NOT
  | .ROLA | .ROLX => .ROL
  | .RORA | .RORX => .ROR
  | .BR => .BR
  | .BRLE => .BRLE
  | .BRLT => .BRLT
  | .BREQ => .BREQ
  | .BRNE => .BRNE
  | .BRGE => .BRGE
  | .BRGT => .BRGT
  | .BRV => .BRV
  | .BRC => .BRC
  | .CALL => .CALL
  | .SCALL => .SCALL
  | .ADDSP => .ADDSP
  | .SUBSP => .SUBSP
  | .ADDA | .ADDX => .ADD
  | .SUBA | .SUBX => .SUB
  | .ANDA | .ANDX => .AND
  | .ORA | .ORX => .OR
  | .XORA | .XORX => .XOR
  | .CPWA | .CPWX => .CPW
  | .CPBA | .CPBX => .CPB
  | .LDWA | .LDWX => .LDW
  | .LDBA | .LDBX => .LDB
  | .STWA | .STWX => .STW
  | .STBA | .STBX => .STB
  | .INVALID => .INVALID

def AddressingMode.shared : AddressingMode → SharedAddrMode
  | .I => .I
  | .D => .D
  | .N => .N
  | .S => .S
  | .SF => .SF
  | .X => .X
  | .SX => .SX
  | .SFX => .SFX
  | _ => .Unary

/-- The register a register-specific mnemonic works on. -/
def Mnemonic.register : Mnemonic → Register
  | .NEGA | .ASLA | .ASRA | .NOTA | .ROLA | .RORA | .ADDA | .SUBA | .ANDA | .ORA | .XORA
  | .CPWA | .CPBA | .LDWA | .LDBA | .STWA | .STBA => .A
  | .NEGX | .ASLX | .ASRX | .NOTX | .ROLX | .RORX | .ADDX | .SUBX | .ANDX | .ORX | .XORX
  | .CPWX | .CPBX | .LDWX | .LDBX | .STWX | .STBX => .X
  | _ => .INVALID

/-- Behaviors on which the core processor throws. -/
def SharedOpBehavior.throws : SharedOpBehavior → Bool
  | .INVALID | .STOP | .UNIMPL | .SCALL | .TRAP_CALL => true
  | _ => false

/-- Every opcode the core processor executes is described alike by both planes. -/
def PlanesAgree (op : U8) : Prop :=
  (opcodePlane op).behavior.throws ∨
    (opcodePlane op).behavior = (opcodeLUT op).instr.mnemon.behavior ∧
    (opcodePlane op).addr = (opcodeLUT op).mode.shared ∧
    Register.ofU8 (opcodePlane op).target = (opcodeLUT op).instr.mnemon.register

instance (op : U8) : Decidable (PlanesAgree op) := inferInstanceAs (Decidable (_ ∨ _))

theorem lastRow_of_rows {α : Type} {P : α → Prop} {rows : List (Nat × α)} {a : α} (h : ∀ row ∈ rows, P row.2)
    (hdefault : P a) (at_ : Nat) : P (lastRow rows a at_) := by
  induction rows generalizing a with
  | nil => exact hdefault
  | cons row rows ih =>
    obtain ⟨hrow, hrows⟩ := List.forall_mem_cons.mp h
    refine ih hrows ?_
    dsimp only
    split
    · exact hrow
    · exact hdefault

/-- Rows that are related one by one give related entries. -/
theorem lastRow_related {α β : Type} {R : α → β → Prop} {rows : List (Nat × α)} {rows' : List (Nat × β)} {a : α}
    {b : β} (h : List.Forall₂ (fun row row' => row.1 = row'.1 ∧ R row.2 row'.2) rows rows') (hdefault : R a b)
    (at_ : Nat) : R (lastRow rows a at_) (lastRow rows' b at_) := by
  induction h generalizing a b with
  | nil => exact hdefault
  | @cons row row' rows rows' hrow _ ih =>
    refine ih ?_
    dsimp only
    rw [← hrow.1]
    split
    · exact hrow.2
    · exact hdefault

/-- The entries of the planes for an opcode say the same. -/
def Described (i : Opcode) (op : SharedOp) : Prop :=
  op.behavior.throws ∨
    op.behavior = i.instr.mnemon.behavior ∧ op.addr = i.mode.shared ∧ Register.ofU8 op.target = i.instr.mnemon.register

instance (i : Opcode) (op : SharedOp) : Decidable (Described i op) := inferInstanceAs (Decidable (_ ∨ _))

/-- The rows of the two planes are in the same order. -/
theorem rows_described :
    List.Forall₂ (fun row row' => row.1 = row'.1 ∧ Described row.2 row'.2) mnemonicRows behaviorRows := by
  decide +kernel

theorem planes_agree (op : U8) : PlanesAgree op :=
  lastRow_related rows_described (show Described _ _ by decide) op.toNat

end Pepp.Isa
