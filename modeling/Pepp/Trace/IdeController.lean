import Pepp.Trace.Dense

/-!
# The disk controller

Eight registers, big endian, say what part of a disk a command is about and
where in the memory of the target its bytes come from or go to. A command copies
them in pieces of a sector. The registers may be part of that memory; what a
command writes to them starts no other one.
-/

namespace Pepp.Trace

open XorDeltas

namespace Ide

structure IDERegs where
  ideCMD : U8
  offLBA : U8
  LBA : U16
  addrDMA : U16
  lenDMA : U16
  deriving DecidableEq, Repr

inductive Commands where
  | READ_DMA | WRITE_DMA | ERASE
  deriving DecidableEq, Repr

def Commands.value : Commands → U8
  | READ_DMA => 0xC9
  | WRITE_DMA => 0xCB
  | ERASE => 0x50

/-- The bytes of the `int` that a command is, on a little endian host. -/
def Commands.bytes (command : Commands) : List U8 := [command.value, 0, 0, 0]

/-- The registers in their big endian form. -/
def IDERegs.bytes (regs : IDERegs) : List U8 :=
  [regs.ideCMD, regs.offLBA, hiByte regs.LBA, loByte regs.LBA, hiByte regs.addrDMA, loByte regs.addrDMA,
    hiByte regs.lenDMA, loByte regs.lenDMA]

def IDERegs.ofBytes (buf : List U8) : IDERegs where
  ideCMD := buf.getD 0 0
  offLBA := buf.getD 1 0
  LBA := bigEndian (buf.getD 2 0) (buf.getD 3 0)
  addrDMA := bigEndian (buf.getD 4 0) (buf.getD 5 0)
  lenDMA := bigEndian (buf.getD 6 0) (buf.getD 7 0)

/-- Which addresses the target has, and at which of them the registers of the controller are found. -/
structure Target where
  inside : U16 → Bool
  register : U16 → Option (Fin 8)

/-- The controller and the cells of its target. No trace buffer is attached. -/
structure State where
  regs : Dense 2
  disk : Dense 4
  cells : U16 → U8

namespace State

/-- `regs` -/
def getRegs (s : State) : Except Exception IDERegs :=
  (s.regs.read 0 (List.replicate 8 0) .Application).map fun r => .ofBytes r.1

section Target

variable (target : Target)

def readByte (s : State) (address : U16) : Except Exception U8 :=
  if target.inside address then
    match target.register address with
    | some j => (s.regs.read (s.regs.span.lower + .ofNat 16 j) [0] .Standard).map fun r => r.1.getD 0 0
    | none => .ok (s.cells address)
  else .error (.oobAccess address.toNat)

def readBytes (s : State) : Nat → U16 → Except Exception (List U8)
  | 0, _ => .ok []
  | n + 1, address => do
    let byte ← s.readByte target address
    let rest ← s.readBytes n (address + 1)
    return byte :: rest

/-- A byte that is written while a command runs. Where it goes to a register, no command is started. -/
def writeByte (s : State) (address : U16) (byte : U8) : Except Exception State :=
  if target.inside address then
    match target.register address with
    | some j =>
      (s.regs.write (s.regs.span.lower + .ofNat 16 j) [byte] .Standard).map fun regs => { s with regs := regs }
    | none => .ok { s with cells := Function.update s.cells address byte }
  else .error (.oobAccess address.toNat)

def writeBytes (s : State) (address : U16) : List U8 → Except Exception State
  | [] => .ok s
  | byte :: rest => do
    let s ← s.writeByte target address byte
    s.writeBytes (address + 1) rest

/-- A turn of the loop of `READ_DMA`. -/
def readPiece (disk : U32) (mem : U16) (size : Nat) (s : State) : Except Exception State := do
  let (span, _) ← s.disk.read disk (List.replicate size 0) .Standard
  s.writeBytes target mem span

/-- A turn of the loop of `WRITE_DMA`. -/
def writePiece (disk : U32) (mem : U16) (size : Nat) (s : State) : Except Exception State := do
  let span ← s.readBytes target size mem
  let disk ← s.disk.write disk span .Standard
  return { s with disk := disk }

/-- A turn of the loop of `ERASE`, which does not use the memory. -/
def erasePiece (disk : U32) (_ : U16) (size : Nat) (s : State) : Except Exception State := do
  let disk ← s.disk.write disk (List.replicate size 0) .Standard
  return { s with disk := disk }

/-- The loop of a command. A turn takes at least one byte. -/
def pieces (turn : U32 → U16 → Nat → State → Except Exception State) :
    Nat → U32 → U16 → U16 → State → Except Exception State
  | 0, _, _, _, s => .ok s
  | fuel + 1, curDiskAddress, curMemAddress, remainingBytes, s =>
    if remainingBytes = 0 then .ok s
    else do
      let size := min 256 remainingBytes.toNat
      let s ← turn curDiskAddress curMemAddress size s
      pieces turn fuel (curDiskAddress + .ofNat 32 size) (curMemAddress + .ofNat 16 size)
        (remainingBytes - .ofNat 16 size) s

def execCommand (s : State) : Except Exception State := do
  let regs ← s.getRegs
  let curDiskAddress := regs.LBA.setWidth 32 <<< 8 ||| regs.offLBA.setWidth 32
  let run (turn : U32 → U16 → Nat → State → Except Exception State) :=
    pieces turn regs.lenDMA.toNat curDiskAddress regs.addrDMA regs.lenDMA s
  if regs.ideCMD = Commands.READ_DMA.value then run (readPiece target)
  else if regs.ideCMD = Commands.WRITE_DMA.value then run (writePiece target)
  else if regs.ideCMD = Commands.ERASE.value then run erasePiece
  else return s

def write (s : State) (address : U16) (src : List U8) (op : AccessType) : Except Exception State := do
  let regs ← s.regs.write address src op
  let s := { s with regs := regs }
  let accessed : Interval 16 := ⟨address, address + .ofNat 16 src.length⟩
  if op = .Standard ∧ accessed.has 0 then s.execCommand target else return s

def setRegs (s : State) (regs : IDERegs) (triggerExec : Bool) : Except Exception State := do
  let s ← s.write target 0 regs.bytes .Application
  if triggerExec then s.execCommand target else return s

def execute (s : State) (command : Commands) : Except Exception State := do
  let s ← s.write target 0 command.bytes .Application
  s.execCommand target

end Target

/-! ### What the registers say -/

/-- As the constructor makes the memories, whatever they hold. -/
structure Built (base : U16) (s : State) : Prop where
  regs_span : s.regs.span = ⟨base, base + 7⟩
  regs_tb : s.regs.tb = none
  disk_span : s.disk.span = ⟨0, 256 * 0x10000⟩
  disk_tb : s.disk.tb = none

variable (target : Target)

/-- `n` bytes of the disk from `d` on are copied to the memory from `a` on. -/
structure Read (d a n : Nat) (s s' : State) : Prop where
  disk : s'.disk = s.disk
  inside : ∀ x : U16, a ≤ x.toNat → x.toNat < a + n → target.register x = none →
    s.disk.data[d + (x.toNat - a)]? = some (s'.cells x)
  outside : ∀ x : U16, ¬(a ≤ x.toNat ∧ x.toNat < a + n) → s'.cells x = s.cells x

/-- And back. -/
structure Written (d a n : Nat) (s s' : State) : Prop where
  regs : s'.regs = s.regs
  cells : s'.cells = s.cells
  inside : ∀ x : U16, a ≤ x.toNat → x.toNat < a + n → target.register x = none →
    s'.disk.data[d + (x.toNat - a)]? = some (s.cells x)
  outside : ∀ j, ¬(d ≤ j ∧ j < d + n) → s'.disk.data[j]? = s.disk.data[j]?

structure Erased (d n : Nat) (s s' : State) : Prop where
  regs : s'.regs = s.regs
  cells : s'.cells = s.cells
  inside : ∀ j, d ≤ j → j < d + n → s'.disk.data[j]? = some 0
  outside : ∀ j, ¬(d ≤ j ∧ j < d + n) → s'.disk.data[j]? = s.disk.data[j]?

/-- The effect of a command. -/
def Done (command : Commands) (regs : IDERegs) (s s' : State) : Prop :=
  let d := regs.LBA.toNat * 256 + regs.offLBA.toNat
  match command with
  | .READ_DMA => Read target d regs.addrDMA.toNat regs.lenDMA.toNat s s'
  | .WRITE_DMA => Written target d regs.addrDMA.toNat regs.lenDMA.toNat s s'
  | .ERASE => Erased d regs.lenDMA.toNat s s'

/-- Commands do what the registers say, however they are started. -/
structure Correct (base : U16) (regs : IDERegs) (s : State) : Prop where
  done : ∀ command, ∃ s₁ s', s.setRegs target { regs with ideCMD := command.value } false = .ok s₁ ∧
    s.setRegs target { regs with ideCMD := command.value } true = .ok s' ∧ Done target command regs s₁ s' ∧
      s₁.disk = s.disk ∧ s₁.cells = s.cells
  execute : ∀ command, (s.setRegs target regs false >>= fun s => s.execute target command) =
    s.setRegs target { regs with ideCMD := command.value } true
  trigger : ∀ address src regs', s.regs.write address src .Standard = .ok regs' →
    s.write target address src .Standard =
      if address.toNat ≤ base.toNat ∧ base.toNat < address.toNat + src.length then
        ({ s with regs := regs' } : State).execCommand target
      else .ok { s with regs := regs' }

end State

/-! ## Accesses to the memories -/

section Dense

variable {k : Nat} {m : Dense k} {a : BitVec (8 * k)} {n : Nat}

/-- What is read are the bytes from the address on. -/
theorem dense_read (hlower : m.span.lower = 0) (hn : 0 < n) (hfit : a.toNat + n ≤ m.data.length) (op : AccessType) :
    ∃ m', m.read a (List.replicate n 0) op = .ok ((m.data.drop a.toNat).take n, m') := by
  have hin := Dense.inBounds_of_le hlower hn hfit
  have hcopy : memcpy (List.replicate n 0) (m.data.drop a.toNat) = (m.data.drop a.toNat).take n := by
    have hrest : (List.replicate n (0 : U8)).drop (m.data.drop a.toNat).length = [] := by
      refine List.drop_eq_nil_of_le ?_
      rw [List.length_replicate, List.length_drop]
      omega
    rw [memcpy, copy, List.length_replicate, hrest, List.append_nil]
  rw [Dense.read, List.length_replicate, if_pos hin, Dense.offset_eq a hlower]
  dsimp only
  rw [hcopy]
  exact ⟨_, rfl⟩

/-- A write replaces the bytes from the address on. -/
theorem dense_write (hlower : m.span.lower = 0) {src : List U8} (hn : 0 < src.length)
    (hfit : a.toNat + src.length ≤ m.data.length) (htb : m.tb = none) (op : AccessType) :
    ∃ m', m.write a src op = .ok m' ∧ m'.span = m.span ∧ m'.device = m.device ∧ m'.tb = none ∧
      ∀ j, m'.data[j]? = if a.toNat ≤ j ∧ j < a.toNat + src.length then src[j - a.toNat]? else m.data[j]? := by
  have hin := Dense.inBounds_of_le hlower hn hfit
  refine ⟨_, if_pos hin, rfl, rfl, ?_, fun j => ?_⟩
  · dsimp only
    rw [htb, Option.map_none, ite_self]
  · dsimp only
    have hfront : (m.data.take a.toNat).length = a.toNat := List.length_take_of_le (by omega)
    have hrest : (m.data.drop a.toNat).length = m.data.length - a.toNat := List.length_drop
    rw [Dense.offset_eq a hlower]
    rcases Nat.lt_or_ge j a.toNat with hlt | hge
    · rw [List.getElem?_append_left (by omega), List.getElem?_take_of_lt hlt, if_neg (by omega)]
    · rw [List.getElem?_append_right (by omega), hfront]
      rcases Nat.lt_or_ge j m.data.length with hlt | hge'
      · have hold : (m.data.drop a.toNat)[j - a.toNat]? = m.data[j]? := by
          rw [List.getElem?_drop, Nat.add_sub_cancel' hge]
        rw [memcpy, getElem?_copy _ _ (by omega), hold]
        exact if_congr (by omega) rfl rfl
      · rw [List.getElem?_eq_none (by rw [memcpy, length_copy]; omega), if_neg (by omega), List.getElem?_eq_none hge']

end Dense

namespace State

section Pieces

variable {target : Target} {s s' : State}

/-- With a register base of 0, the addresses of the registers are their offsets. -/
theorem Built.length_regs (hs : Built 0 s) : s.regs.data.length = 8 := by
  rw [s.regs.size_data, hs.regs_span]
  rfl

theorem Built.length_disk (hs : Built 0 s) : s.disk.data.length = 256 * 0x10000 + 1 := by
  rw [s.disk.size_data, hs.disk_span]
  rfl

theorem Built.register_fits (hs : Built 0 s) (j : Fin 8) :
    s.regs.span.lower = 0 ∧ (s.regs.span.lower + .ofNat 16 j : U16).toNat + 1 ≤ s.regs.data.length := by
  have hlower : s.regs.span.lower = 0 := by rw [hs.regs_span]
  refine ⟨hlower, ?_⟩
  rw [hlower, hs.length_regs, zero_add, BitVec.toNat_ofNat, Nat.mod_eq_of_lt (by omega)]
  omega

variable {x : U16}

theorem Built.readByte (hs : Built 0 s) (hx : target.inside x) :
    ∃ b, s.readByte target x = .ok b ∧ (target.register x = none → b = s.cells x) := by
  rw [State.readByte, if_pos hx]
  cases target.register x with
  | none => exact ⟨_, rfl, fun _ => rfl⟩
  | some j =>
    obtain ⟨hlower, hfit⟩ := hs.register_fits j
    obtain ⟨m', hread⟩ := @dense_read 2 s.regs _ 1 hlower Nat.one_pos hfit .Standard
    exact ⟨_, congrArg (Except.map _) hread, by rintro ⟨⟩⟩

theorem Built.writeByte (hs : Built 0 s) (hx : target.inside x) (b : U8) :
    ∃ s', s.writeByte target x b = .ok s' ∧ Built 0 s' ∧ s'.disk = s.disk ∧
      (∀ y ≠ x, s'.cells y = s.cells y) ∧ (target.register x = none → s'.cells x = b) := by
  rw [State.writeByte, if_pos hx]
  cases target.register x with
  | none =>
    refine ⟨_, rfl, ⟨hs.regs_span, hs.regs_tb, hs.disk_span, hs.disk_tb⟩, rfl, fun y hy => ?_, fun _ => ?_⟩
    · exact Function.update_of_ne hy ..
    · exact Function.update_self ..
  | some j =>
    obtain ⟨hlower, hfit⟩ := hs.register_fits j
    obtain ⟨m', hwrite, hspan, -, htb, -⟩ := @dense_write 2 s.regs _ hlower [b] Nat.one_pos hfit hs.regs_tb .Standard
    exact ⟨{ s with regs := m' }, congrArg (Except.map _) hwrite,
      ⟨hspan.trans hs.regs_span, htb, hs.disk_span, hs.disk_tb⟩, rfl, fun _ _ => rfl, by rintro ⟨⟩⟩

/-- The addresses of a range belong to the target. -/
def Within (target : Target) (a n : Nat) : Prop :=
  a + n ≤ 0x10000 ∧ ∀ x : U16, a ≤ x.toNat → x.toNat < a + n → target.inside x

theorem Within.head {n : Nat} (h : Within target x.toNat (n + 1)) : target.inside x := h.2 x le_rfl (by omega)

theorem Within.tail {n : Nat} (h : Within target x.toNat (n + 1)) (hn : 0 < n) :
    (x + 1).toNat = x.toNat + 1 ∧ Within target (x + 1).toNat n := by
  have hlt := h.1
  have hnext : (x + 1).toNat = x.toNat + 1 := by
    rw [BitVec.toNat_add_of_lt]
    · rfl
    · change x.toNat + 1 < 2 ^ 16
      omega
  refine ⟨hnext, ?_, fun y hy hy' => h.2 y ?_ ?_⟩ <;> omega

theorem Built.readBytes (hs : Built 0 s) {n : Nat} (hwithin : Within target x.toNat n) :
    ∃ bytes, s.readBytes target n x = .ok bytes ∧ bytes.length = n ∧
      ∀ y : U16, x.toNat ≤ y.toNat → y.toNat < x.toNat + n → target.register y = none →
        bytes[y.toNat - x.toNat]? = some (s.cells y) := by
  induction n generalizing x with
  | zero => exact ⟨[], rfl, rfl, fun y hy hy' => absurd hy' (by omega)⟩
  | succ n ih =>
    obtain ⟨b, hb, hcell⟩ := hs.readByte hwithin.head
    obtain ⟨bytes, hbytes, hlength, hcells⟩ : ∃ bytes, s.readBytes target n (x + 1) = .ok bytes ∧ bytes.length = n ∧
        ∀ y : U16, x.toNat + 1 ≤ y.toNat → y.toNat < x.toNat + 1 + n → target.register y = none →
          bytes[y.toNat - (x.toNat + 1)]? = some (s.cells y) := by
      rcases Nat.eq_zero_or_pos n with rfl | hn
      · exact ⟨[], rfl, rfl, fun y hy hy' => absurd hy' (by omega)⟩
      · obtain ⟨hnext, htail⟩ := hwithin.tail hn
        rw [← hnext]
        exact ih htail
    refine ⟨b :: bytes, ?_, congrArg (· + 1) hlength, fun y hy hy' hy'' => ?_⟩
    · rw [State.readBytes, hb]
      change (s.readBytes target n (x + 1) >>= _) = _
      rw [hbytes]
      rfl
    · rcases Nat.eq_or_lt_of_le hy with heq | hlt
      · obtain rfl := BitVec.eq_of_toNat_eq heq
        rw [Nat.sub_self, hcell hy'']
        rfl
      · rw [show y.toNat - x.toNat = y.toNat - (x.toNat + 1) + 1 by omega, List.getElem?_cons_succ]
        exact hcells y hlt (by omega) hy''

theorem Built.writeBytes (hs : Built 0 s) {bytes : List U8} (hwithin : Within target x.toNat bytes.length) :
    ∃ s', s.writeBytes target x bytes = .ok s' ∧ Built 0 s' ∧ s'.disk = s.disk ∧
      (∀ y : U16, ¬(x.toNat ≤ y.toNat ∧ y.toNat < x.toNat + bytes.length) → s'.cells y = s.cells y) ∧
      ∀ y : U16, x.toNat ≤ y.toNat → y.toNat < x.toNat + bytes.length → target.register y = none →
        bytes[y.toNat - x.toNat]? = some (s'.cells y) := by
  induction bytes generalizing s x with
  | nil => exact ⟨s, rfl, hs, rfl, fun _ _ => rfl, fun y hy hy' => absurd hy' (by simp; omega)⟩
  | cons b bytes ih =>
    obtain ⟨s₁, hwrite, hs₁, hdisk₁, hother, hcell⟩ := hs.writeByte hwithin.head b
    obtain ⟨s', hrest, hs', hdisk', hout, hin⟩ : ∃ s', s₁.writeBytes target (x + 1) bytes = .ok s' ∧ Built 0 s' ∧
        s'.disk = s₁.disk ∧
        (∀ y : U16, ¬(x.toNat + 1 ≤ y.toNat ∧ y.toNat < x.toNat + 1 + bytes.length) → s'.cells y = s₁.cells y) ∧
        ∀ y : U16, x.toNat + 1 ≤ y.toNat → y.toNat < x.toNat + 1 + bytes.length → target.register y = none →
          bytes[y.toNat - (x.toNat + 1)]? = some (s'.cells y) := by
      rcases Nat.eq_zero_or_pos bytes.length with hzero | hpos
      · obtain rfl := List.eq_nil_of_length_eq_zero hzero
        exact ⟨s₁, rfl, hs₁, rfl, fun _ _ => rfl, fun y hy hy' => absurd hy' (by simp; omega)⟩
      · obtain ⟨hnext, htail⟩ := hwithin.tail hpos
        rw [← hnext]
        exact ih hs₁ htail
    refine ⟨s', ?_, hs', hdisk'.trans hdisk₁, fun y hy => ?_, fun y hy hy' hy'' => ?_⟩
    · rw [State.writeBytes, hwrite]
      exact hrest
    · rw [List.length_cons] at hy
      rw [hout y (by omega), hother y]
      rintro rfl
      omega
    · rw [List.length_cons] at hy'
      rcases Nat.eq_or_lt_of_le hy with heq | hlt
      · obtain rfl := BitVec.eq_of_toNat_eq heq
        rw [Nat.sub_self, hout x (by omega), hcell hy'']
        rfl
      · rw [show y.toNat - x.toNat = y.toNat - (x.toNat + 1) + 1 by omega, List.getElem?_cons_succ]
        exact hin y hlt (by omega) hy''

/-! ### The turns of the loops -/

section

variable {d : U32} {n : Nat} (hs : Built 0 s) (hn : 0 < n) (hd : d.toNat + n ≤ 256 * 0x10000 + 1)
include hs hn hd

theorem Built.readPiece (hwithin : Within target x.toNat n) :
    ∃ s', State.readPiece target d x n s = .ok s' ∧ Built 0 s' ∧ Read target d.toNat x.toNat n s s' := by
  obtain ⟨m', hread⟩ := @dense_read 4 s.disk d n (by rw [hs.disk_span]) hn (by rwa [hs.length_disk]) .Standard
  have hlength : ((s.disk.data.drop d.toNat).take n).length = n := by
    rw [List.length_take, List.length_drop, hs.length_disk]
    omega
  obtain ⟨s', hwrite, hs', hdisk, hout, hin⟩ :=
    @Built.writeBytes target s x hs ((s.disk.data.drop d.toNat).take n) (by rwa [hlength])
  rw [hlength] at hout hin
  refine ⟨s', ?_, hs', hdisk, fun y hy hy' hy'' => ?_, hout⟩
  · rw [State.readPiece, hread]
    exact hwrite
  · rw [← hin y hy hy' hy'', List.getElem?_take_of_lt (by omega), List.getElem?_drop]

theorem Built.writePiece (hwithin : Within target x.toNat n) :
    ∃ s', State.writePiece target d x n s = .ok s' ∧ Built 0 s' ∧ Written target d.toNat x.toNat n s s' := by
  obtain ⟨bytes, hread, hlength, hcells⟩ := hs.readBytes hwithin
  obtain ⟨m', hwrite, hspan, -, htb, hdata⟩ := @dense_write 4 s.disk d (by rw [hs.disk_span]) bytes (by omega)
    (by rw [hs.length_disk, hlength]; exact hd) hs.disk_tb .Standard
  rw [hlength] at hdata
  refine ⟨{ s with disk := m' }, ?_, ⟨hs.regs_span, hs.regs_tb, hspan.trans hs.disk_span, htb⟩, rfl, rfl,
    fun y hy hy' hy'' => ?_, fun j hj => ?_⟩
  · rw [State.writePiece, hread]
    change (s.disk.write d bytes .Standard >>= _) = _
    rw [hwrite]
    rfl
  · rw [← hcells y hy hy' hy'', hdata, if_pos (by omega), Nat.add_sub_cancel_left]
  · rw [hdata, if_neg hj]

theorem Built.erasePiece : ∃ s', State.erasePiece d x n s = .ok s' ∧ Built 0 s' ∧ Erased d.toNat n s s' := by
  obtain ⟨m', hwrite, hspan, -, htb, hdata⟩ := @dense_write 4 s.disk d (by rw [hs.disk_span]) (List.replicate n 0)
    (by rwa [List.length_replicate]) (by rw [hs.length_disk, List.length_replicate]; exact hd) hs.disk_tb .Standard
  rw [List.length_replicate] at hdata
  refine ⟨{ s with disk := m' }, ?_, ⟨hs.regs_span, hs.regs_tb, hspan.trans hs.disk_span, htb⟩, rfl, rfl,
    fun j hj hj' => ?_, fun j hj => ?_⟩
  · rw [State.erasePiece, hwrite]
    rfl
  · rw [hdata, if_pos ⟨hj, hj'⟩, List.getElem?_replicate_of_lt (by omega)]
  · rw [hdata, if_neg hj]

end

variable {d a n m : Nat} {s₁ : State}

theorem Read.trans (h : Read target d a n s s₁) (h' : Read target (d + n) (a + n) m s₁ s') :
    Read target d a (n + m) s s' := by
  refine ⟨h'.disk.trans h.disk, fun y hy hy' hy'' => ?_, fun y hy => ?_⟩
  · rcases Nat.lt_or_ge y.toNat (a + n) with hlt | hge
    · rw [h'.outside y (by omega)]
      exact h.inside y hy hlt hy''
    · rw [← h'.inside y hge (by omega) hy'', h.disk]
      congr 1
      omega
  · rw [h'.outside y (by omega), h.outside y (by omega)]

theorem Written.trans (h : Written target d a n s s₁) (h' : Written target (d + n) (a + n) m s₁ s') :
    Written target d a (n + m) s s' := by
  refine ⟨h'.regs.trans h.regs, h'.cells.trans h.cells, fun y hy hy' hy'' => ?_, fun j hj => ?_⟩
  · rcases Nat.lt_or_ge y.toNat (a + n) with hlt | hge
    · rw [h'.outside _ (by omega)]
      exact h.inside y hy hlt hy''
    · rw [← h.cells, ← h'.inside y hge (by omega) hy'']
      congr 1
      omega
  · rw [h'.outside j (by omega), h.outside j (by omega)]

theorem Erased.trans (h : Erased d n s s₁) (h' : Erased (d + n) m s₁ s') : Erased d (n + m) s s' := by
  refine ⟨h'.regs.trans h.regs, h'.cells.trans h.cells, fun j hj hj' => ?_, fun j hj => ?_⟩
  · rcases Nat.lt_or_ge j (d + n) with hlt | hge
    · rw [h'.outside j (by omega)]
      exact h.inside j hj hlt
    · exact h'.inside j hge (by omega)
  · rw [h'.outside j (by omega), h.outside j (by omega)]

/-! ### The loops -/

theorem pieces_zero (turn : U32 → U16 → Nat → State → Except Exception State) (fuel : Nat) (d : U32) (x : U16) :
    pieces turn fuel d x 0 s = .ok s := by
  cases fuel with
  | zero => rfl
  | succ fuel =>
    rw [pieces]
    exact if_pos rfl

/-- If each turn has an effect on its piece and effects add up, the loop has the effect on the whole range. -/
theorem pieces_spec {turn : U32 → U16 → Nat → State → Except Exception State}
    {E : Nat → Nat → Nat → State → State → Prop}
    (hzero : ∀ d a s, E d a 0 s s)
    (hadd : ∀ {d a n m s s₁ s'}, E d a n s s₁ → E (d + n) (a + n) m s₁ s' → E d a (n + m) s s')
    (hturn : ∀ {s : State} {d : U32} {x : U16} {n : Nat}, Built 0 s → 0 < n → d.toNat + n ≤ 256 * 0x10000 + 1 →
      Within target x.toNat n → ∃ s', turn d x n s = .ok s' ∧ Built 0 s' ∧ E d.toNat x.toNat n s s')
    {fuel : Nat} {d : U32} {x rest : U16} (hfuel : rest.toNat ≤ fuel) (hs : Built 0 s)
    (hd : d.toNat + rest.toNat ≤ 256 * 0x10000 + 1) (hwithin : Within target x.toNat rest.toNat) :
    ∃ s', pieces turn fuel d x rest s = .ok s' ∧ Built 0 s' ∧ E d.toNat x.toNat rest.toNat s s' := by
  induction fuel generalizing s d x rest with
  | zero =>
    have hrest : rest.toNat = 0 := Nat.le_zero.mp hfuel
    rw [hrest]
    exact ⟨s, rfl, hs, hzero _ _ _⟩
  | succ fuel ih =>
    rw [pieces]
    split
    · next hrest =>
      rw [hrest]
      exact ⟨s, rfl, hs, hzero _ _ _⟩
    · next hrest =>
      have hpos : 0 < rest.toNat := Nat.pos_of_ne_zero fun h => hrest (BitVec.eq_of_toNat_eq h)
      obtain ⟨n, hn⟩ : ∃ n, n = min 256 rest.toNat := ⟨_, rfl⟩
      have hsize : (BitVec.ofNat 16 n).toNat = n := by rw [BitVec.toNat_ofNat, Nat.mod_eq_of_lt (by omega)]
      have hrest' : (rest - .ofNat 16 n).toNat = rest.toNat - n := by
        rw [BitVec.toNat_sub_of_le, hsize]
        rw [BitVec.le_def, hsize]
        omega
      obtain ⟨s₁, hs₁, hbuilt, heffect⟩ := hturn hs (show 0 < n by omega) (show d.toNat + n ≤ _ by omega)
        ⟨show x.toNat + n ≤ _ by have := hwithin.1; omega, fun y hy hy' => hwithin.2 y hy (by omega)⟩
      dsimp only
      rw [← hn, hs₁]
      change ∃ s', pieces turn fuel (d + .ofNat 32 n) (x + .ofNat 16 n) (rest - .ofNat 16 n) s₁ = .ok s' ∧ _
      rcases Nat.eq_zero_or_pos (rest.toNat - n) with hlast | hmore
      · have hnone : rest - .ofNat 16 n = 0 := BitVec.eq_of_toNat_eq (hrest'.trans hlast)
        rw [hnone, pieces_zero]
        obtain rfl : rest.toNat = n := by omega
        exact ⟨s₁, rfl, hbuilt, heffect⟩
      · have hwidth := hwithin.1
        have hd' : (d + .ofNat 32 n).toNat = d.toNat + n := by
          have hn' : (BitVec.ofNat 32 n).toNat = n := by rw [BitVec.toNat_ofNat, Nat.mod_eq_of_lt (by omega)]
          rw [BitVec.toNat_add_of_lt (by omega), hn']
        have hx' : (x + .ofNat 16 n).toNat = x.toNat + n := by
          rw [BitVec.toNat_add_of_lt (by omega), hsize]
        obtain ⟨s', hs', hbuilt', heffect'⟩ := @ih s₁ (d + .ofNat 32 n) (x + .ofNat 16 n) (rest - .ofNat 16 n)
          (by omega) hbuilt (by omega) ⟨by omega, fun y hy hy' => hwithin.2 y (by omega) (by omega)⟩
        rw [hd', hx', hrest'] at heffect'
        have hall := hadd heffect heffect'
        rw [Nat.add_sub_cancel' (by omega)] at hall
        exact ⟨s', hs', hbuilt', hall⟩

end Pieces

/-! ### Commands -/

section Commands

variable {target : Target} {s s₁ s' : State} {r : IDERegs} {base : U16}

theorem ofBytes_bytes (r : IDERegs) : IDERegs.ofBytes r.bytes = r := by
  simp [IDERegs.ofBytes, IDERegs.bytes]

theorem diskAddress_toNat (r : IDERegs) :
    (r.LBA.setWidth 32 <<< 8 ||| r.offLBA.setWidth 32 : U32).toNat = r.LBA.toNat * 256 + r.offLBA.toNat := by
  have hLBA := r.LBA.isLt
  have hoff := r.offLBA.isLt
  rw [BitVec.toNat_or, BitVec.toNat_shiftLeft, BitVec.toNat_setWidth, BitVec.toNat_setWidth,
    Nat.mod_eq_of_lt (show r.LBA.toNat < 2 ^ 32 by omega), Nat.mod_eq_of_lt (show r.offLBA.toNat < 2 ^ 32 by omega),
    Nat.shiftLeft_eq, Nat.mod_eq_of_lt (by omega), ← Nat.shiftLeft_eq, ← Nat.shiftLeft_add_eq_or_of_lt hoff,
    Nat.shiftLeft_eq]

theorem Built.getRegs (hs : Built 0 s) (hdata : s.regs.data = r.bytes) : s.getRegs = .ok r := by
  obtain ⟨m', hread⟩ := @dense_read 2 s.regs 0 8 (by rw [hs.regs_span]) (by omega) (by rw [hs.length_regs]; rfl)
    .Application
  rw [State.getRegs, hread, hdata]
  exact congrArg Except.ok (ofBytes_bytes r)

/-- The ranges of the registers are inside of the disk and of the target. -/
structure Fits (target : Target) (r : IDERegs) : Prop where
  disk : r.LBA.toNat * 256 + r.offLBA.toNat + r.lenDMA.toNat ≤ 256 * 0x10000 + 1
  memory : Within target r.addrDMA.toNat r.lenDMA.toNat

/-- What the registers say is done. -/
theorem Built.execCommand (hs : Built 0 s) (hfits : Fits target r) {command : Commands}
    (hdata : s.regs.data = ({ r with ideCMD := command.value } : IDERegs).bytes) :
    ∃ s', s.execCommand target = .ok s' ∧ Done target command r s s' := by
  have hregs := hs.getRegs hdata
  have hd := diskAddress_toNat r
  have hdisk : (r.LBA.setWidth 32 <<< 8 ||| r.offLBA.setWidth 32 : U32).toNat + r.lenDMA.toNat ≤ 256 * 0x10000 + 1 := by
    rw [hd]
    exact hfits.disk
  rw [State.execCommand, hregs]
  cases command with
  | READ_DMA =>
    obtain ⟨s', hrun, -, heffect⟩ := @pieces_spec target s (State.readPiece target) (Read target)
      (fun d a s => ⟨rfl, fun y hy hy' => absurd hy' (by omega), fun _ _ => rfl⟩) Read.trans (fun hs => hs.readPiece)
      r.lenDMA.toNat _ r.addrDMA r.lenDMA le_rfl hs hdisk hfits.memory
    rw [hd] at heffect
    exact ⟨s', hrun, heffect⟩
  | WRITE_DMA =>
    obtain ⟨s', hrun, -, heffect⟩ := @pieces_spec target s (State.writePiece target) (Written target)
      (fun d a s => ⟨rfl, rfl, fun y hy hy' => absurd hy' (by omega), fun _ _ => rfl⟩) Written.trans
      (fun hs => hs.writePiece) r.lenDMA.toNat _ r.addrDMA r.lenDMA le_rfl hs hdisk hfits.memory
    rw [hd] at heffect
    exact ⟨s', hrun, heffect⟩
  | ERASE =>
    obtain ⟨s', hrun, -, heffect⟩ := @pieces_spec target s State.erasePiece (fun d _ n => Erased d n)
      (fun d a s => ⟨rfl, rfl, fun j hj hj' => absurd hj' (by omega), fun _ _ => rfl⟩) Erased.trans
      (fun hs hn hd _ => hs.erasePiece hn hd) r.lenDMA.toNat _ r.addrDMA r.lenDMA le_rfl hs hdisk hfits.memory
    rw [hd] at heffect
    exact ⟨s', hrun, heffect⟩

/-- A write to the registers that is not a standard one runs no command. -/
theorem Built.write (hs : Built 0 s) {src : List U8} (hn : 0 < src.length) (hfit : src.length ≤ 8) :
    ∃ s₁, s.write target 0 src .Application = .ok s₁ ∧ Built 0 s₁ ∧ s₁.regs.device = s.regs.device ∧
      s₁.disk = s.disk ∧ s₁.cells = s.cells ∧
        ∀ j, s₁.regs.data[j]? = if j < src.length then src[j]? else s.regs.data[j]? := by
  obtain ⟨m', hwrite, hspan, hdevice, htb, hdata⟩ := @dense_write 2 s.regs 0 (by rw [hs.regs_span]) src hn
    (by rw [hs.length_regs]; exact (Nat.zero_add _).trans_le hfit) hs.regs_tb .Application
  refine ⟨{ s with regs := m' }, ?_, ⟨hspan.trans hs.regs_span, htb, hs.disk_span, hs.disk_tb⟩, hdevice, rfl, rfl,
    fun j => ?_⟩
  · rw [State.write, hwrite]
    simp only [bind, Except.bind, reduceCtorEq, false_and, if_false]
    rfl
  · refine (hdata j).trans ?_
    change (if 0 ≤ j ∧ j < 0 + src.length then src[j - 0]? else _) = _
    rw [Nat.zero_add, Nat.sub_zero]
    exact if_congr (and_iff_right j.zero_le) rfl rfl

theorem Built.setRegs (hs : Built 0 s) (r : IDERegs) :
    ∃ s₁, (∀ triggerExec, s.setRegs target r triggerExec = if triggerExec then s₁.execCommand target else .ok s₁) ∧
      Built 0 s₁ ∧ s₁.regs.device = s.regs.device ∧ s₁.disk = s.disk ∧ s₁.cells = s.cells ∧ s₁.regs.data = r.bytes := by
  obtain ⟨s₁, hwrite, hbuilt, hdevice, hdisk, hcells, hdata⟩ :=
    @Built.write target s hs r.bytes (Nat.succ_pos 7) le_rfl
  refine ⟨s₁, fun triggerExec => ?_, hbuilt, hdevice, hdisk, hcells, List.ext_getElem? fun j => ?_⟩
  · rw [State.setRegs, hwrite]
    rfl
  · rw [hdata]
    split
    · rfl
    · next hge =>
      rw [List.getElem?_eq_none (by rw [hs.length_regs]; exact Nat.not_lt.mp hge),
        List.getElem?_eq_none (Nat.not_lt.mp hge)]

/-- To execute a command is to put 32 bits into the registers, of which it takes eight. -/
theorem Built.execute (hs : Built 0 s) (hdata : s.regs.data = r.bytes) (command : Commands) :
    ∃ s₁, s.execute target command = s₁.execCommand target ∧ Built 0 s₁ ∧ s₁.regs.device = s.regs.device ∧
      s₁.disk = s.disk ∧ s₁.cells = s.cells ∧
        s₁.regs.data = (⟨command.value, 0, 0, r.addrDMA, r.lenDMA⟩ : IDERegs).bytes := by
  obtain ⟨s₁, hwrite, hbuilt, hdevice, hdisk, hcells, hbytes⟩ :=
    @Built.write target s hs command.bytes (Nat.succ_pos 3) (show 4 ≤ 8 by decide)
  refine ⟨s₁, ?_, hbuilt, hdevice, hdisk, hcells, List.ext_getElem? fun j => ?_⟩
  · rw [State.execute, hwrite]
    rfl
  · rw [hbytes, hdata]
    rcases j with _ | _ | _ | _ | j
    · rfl
    · rfl
    · exact congrArg some (show 0 = hiByte 0 by decide)
    · exact congrArg some (show 0 = loByte 0 by decide)
    · rfl

/-- The states of one controller are told apart by what its memories and its target hold. -/
theorem Built.ext (hs : Built base s) (hs' : Built base s') (hdevice : s.regs.device = s'.regs.device)
    (hdata : s.regs.data = s'.regs.data) (hdisk : s.disk = s'.disk) (hcells : s.cells = s'.cells) : s = s' := by
  obtain ⟨⟨span, device, data, tb, hsize⟩, disk, cells⟩ := s
  obtain ⟨⟨span', device', data', tb', hsize'⟩, disk', cells'⟩ := s'
  obtain rfl : span = span' := hs.regs_span.trans hs'.regs_span.symm
  obtain rfl : tb = tb' := hs.regs_tb.trans hs'.regs_tb.symm
  cases hdevice
  cases hdata
  cases hdisk
  cases hcells
  rfl

/-! ### Which controllers are right -/

/-- A base of 0 is the only one with which the registers are found. -/
theorem base_of_setRegs (hs : Built base s) {triggerExec : Bool} (h : s.setRegs target r triggerExec = .ok s') :
    base = 0 := by
  have hin : s.regs.inBounds 0 r.bytes.length := by
    by_contra hout
    rw [State.setRegs, State.write, Dense.write, if_neg hout] at h
    cases h
  have hle := hin.1
  rw [hs.regs_span] at hle
  exact BitVec.le_zero_iff.mp hle

theorem Built.trigger (hs : Built 0 s) {address : U16} {src : List U8} {regs' : Dense 2}
    (h : s.regs.write address src .Standard = .ok regs') : s.write target address src .Standard =
      if address.toNat ≤ 0 ∧ 0 < address.toNat + src.length then ({ s with regs := regs' } : State).execCommand target
      else .ok { s with regs := regs' } := by
  have hin : s.regs.inBounds address src.length := by
    by_contra hout
    rw [Dense.write, if_neg hout] at h
    cases h
  have hpos : 0 < src.length := by
    by_contra hzero
    have hlast := hin.2
    rw [Nat.eq_zero_of_not_pos hzero, Dense.maxDestAddr, if_pos (by decide), hs.regs_span] at hlast
    exact absurd ((Nat.le_add_left _ _).trans hlast) (by decide)
  have hcovers : (⟨address, address + .ofNat 16 src.length⟩ : Interval 16).has 0 ↔
      address.toNat ≤ 0 ∧ 0 < address.toNat + src.length := by
    rw [Interval.has_iff]
    exact ⟨fun hle => ⟨hle.1, Nat.lt_add_left _ hpos⟩, fun hle => ⟨hle.1, Nat.zero_le _⟩⟩
  rw [State.write, h]
  exact if_congr ((and_iff_right rfl).trans hcovers) rfl rfl

/-- From a base of 0, what the registers say is done. -/
theorem Built.done (hs : Built 0 s) (hfits : Fits target r) (command : Commands) :
    ∃ s₁ s', s.setRegs target { r with ideCMD := command.value } false = .ok s₁ ∧
      s.setRegs target { r with ideCMD := command.value } true = .ok s' ∧ Done target command r s₁ s' ∧
        s₁.disk = s.disk ∧ s₁.cells = s.cells := by
  obtain ⟨s₁, hset, hs₁, -, hdisk, hcells, hdata⟩ := @Built.setRegs target s hs { r with ideCMD := command.value }
  obtain ⟨s', hexec, hdone⟩ := hs₁.execCommand hfits hdata
  exact ⟨s₁, s', hset false, (hset true).trans hexec, hdone, hdisk, hcells⟩

/-- A controller is right just when its registers are at 0 and say that the disk range starts there as well. -/
theorem controller_correct_iff (target : Target) (base : U16) (r : IDERegs) (s : State) (hs : Built base s)
    (hfits : Fits target r) : Correct target base r s ↔ base = 0 ∧ r.offLBA = 0 ∧ r.LBA = 0 := by
  constructor
  · intro h
    obtain ⟨s₁, -, hset, -⟩ := h.done .ERASE
    obtain rfl := base_of_setRegs hs hset
    obtain ⟨s₁, hset₁, hs₁, -, -, -, hdata₁⟩ := @Built.setRegs target s hs r
    obtain ⟨s₂, hexecute, hs₂, -, -, -, hdata₂⟩ := @Built.execute target s₁ r hs₁ hdata₁ .ERASE
    obtain ⟨s₃, hset₃, hs₃, -, -, -, hdata₃⟩ :=
      @Built.setRegs target s hs { r with ideCMD := Commands.ERASE.value }
    have hfits₂ : Fits target ⟨r.ideCMD, 0, 0, r.addrDMA, r.lenDMA⟩ := by
      refine ⟨?_, hfits.memory⟩
      have hlen := r.lenDMA.isLt
      change 0 * 256 + 0 + r.lenDMA.toNat ≤ _
      omega
    obtain ⟨t₂, hrun₂, hdone₂⟩ := @Built.execCommand target s₂ _ hs₂ hfits₂ .ERASE hdata₂
    obtain ⟨t₃, hrun₃, hdone₃⟩ := hs₃.execCommand hfits hdata₃
    have hrun : s₂.execCommand target = s₃.execCommand target := by
      have hall := h.execute .ERASE
      rw [hset₁, hset₃] at hall
      exact hexecute.symm.trans hall
    obtain rfl : t₂ = t₃ := Except.ok.inj (hrun₂.symm.trans (hrun.trans hrun₃))
    -- the registers are those that each of the two starts from
    have hregs : s₂.regs = s₃.regs := (show Erased _ _ _ _ from hdone₂).regs.symm.trans
      (show Erased _ _ _ _ from hdone₃).regs
    have hbytes := congrArg IDERegs.ofBytes (hdata₂.symm.trans ((congrArg Dense.data hregs).trans hdata₃))
    rw [ofBytes_bytes, ofBytes_bytes] at hbytes
    exact ⟨rfl, (congrArg IDERegs.offLBA hbytes).symm, (congrArg IDERegs.LBA hbytes).symm⟩
  · rintro ⟨rfl, hoff, hLBA⟩
    refine ⟨hs.done hfits, fun command => ?_, fun address src regs' => hs.trigger⟩
    obtain ⟨s₁, hset₁, hs₁, hdevice₁, hdisk₁, hcells₁, hdata₁⟩ := @Built.setRegs target s hs r
    obtain ⟨s₂, hexecute, hs₂, hdevice₂, hdisk₂, hcells₂, hdata₂⟩ := @Built.execute target s₁ r hs₁ hdata₁ command
    obtain ⟨s₃, hset₃, hs₃, hdevice₃, hdisk₃, hcells₃, hdata₃⟩ :=
      @Built.setRegs target s hs { r with ideCMD := command.value }
    have hsame : s₂ = s₃ := by
      refine hs₂.ext hs₃ ?_ ?_ ?_ ?_
      · rw [hdevice₂, hdevice₁, hdevice₃]
      · rw [hdata₂, hdata₃, hoff, hLBA]
      · rw [hdisk₂, hdisk₁, hdisk₃]
      · rw [hcells₂, hcells₁, hcells₃]
    rw [hset₁, hset₃, ← hsame]
    exact hexecute

/-- A controller whose registers and disk hold zeros, at address `base`. -/
def made (base : U16) : State where
  regs := ⟨⟨base, base + 7⟩, 1, .replicate ((⟨base, base + 7⟩ : Interval 16).size false) 0, none, List.length_replicate⟩
  disk := ⟨⟨0, 256 * 0x10000⟩, 2, .replicate ((⟨0, 256 * 0x10000⟩ : Interval 32).size false) 0, none,
    List.length_replicate⟩
  cells := fun _ => 0

theorem built_made (base : U16) : Built base (made base) := ⟨rfl, rfl, rfl, rfl⟩

/-- A target that has all addresses, and nothing of the controller at them. -/
def flat : Target where
  inside := fun _ => true
  register := fun _ => none

theorem fits_flat {r : IDERegs} (hLBA : r.LBA = 0) (haddr : r.addrDMA = 0) : Fits flat r := by
  have hoff := r.offLBA.isLt
  have hlen := r.lenDMA.isLt
  refine ⟨?_, ?_, fun x _ _ => rfl⟩
  · rw [hLBA]
    change 0 * 256 + r.offLBA.toNat + r.lenDMA.toNat ≤ _
    omega
  · rw [haddr]
    change 0 + r.lenDMA.toNat ≤ _
    omega

/-- With two bytes and a sector to copy, all is well if the disk range starts at 0, and not otherwise. -/
theorem controller_correct_made :
    Correct flat 0 ⟨0, 0, 0, 0, 258⟩ (made 0) ∧ ¬Correct flat 0 ⟨0, 8, 0, 0, 258⟩ (made 0) :=
  ⟨(controller_correct_iff flat 0 _ _ (built_made 0) (fits_flat rfl rfl)).mpr ⟨rfl, rfl, rfl⟩,
    fun h => absurd ((controller_correct_iff flat 0 _ _ (built_made 0) (fits_flat rfl rfl)).mp h).2.1 (by decide)⟩

/-- Not every controller does what its registers say: one at 16 does not find them. -/
theorem not_controller_correct : ¬∀ target base r s, Built base s → Fits target r → Correct target base r s := by
  intro h
  obtain ⟨s₁, -, hset, -⟩ := (h flat 16 ⟨0, 0, 0, 0, 8⟩ _ (built_made 16) (fits_flat rfl rfl)).done .READ_DMA
  exact absurd (base_of_setRegs (built_made 16) hset) (by decide)

end Commands

end State

end Ide

end Pepp.Trace
