import Pepp.Lib.SlotRing
import Pepp.Tvm.Encoding

/-!
# The trace buffer

Recordings claim an entry of the ring when they begin and fill it when they
commit. Code goes to the chain of the claimed slot, payloads to the chain of the
initiator in that slot, and bodies seen twice to the stencil chain.
-/

namespace Pepp.Tvm

open Bts Span

/-- A position in the trace: an absolute slot and an entry of its location buffer. -/
abbrev Cursor := SlotRing.Position

namespace Cursor

/-- Slots first, then entries. -/
def lt (a b : Cursor) : Prop := a.slot < b.slot ∨ a.slot = b.slot ∧ a.entry < b.entry

instance (a b : Cursor) : Decidable (a.lt b) := inferInstanceAs (Decidable (_ ∨ _))

end Cursor

/-- Where a record has pointed `DP` so far, how wide that payload is and how much it reserved. -/
structure DpAnchor where
  set : Bool
  at_ : Location
  size : U16
  stride : U16
  deriving DecidableEq, Repr

def Location.null : Location := ⟨0, 0⟩

def ProgramLocation.null : ProgramLocation := ⟨Location.null, Location.null⟩

def DpAnchor.none : DpAnchor := ⟨false, Location.null, 0, 0⟩

/-- The scratch of one initiator. It outlives its recordings. -/
structure Recording where
  prefix_ : List U8
  body : List U8
  postfix_ : List U8
  id : U8
  active : Bool
  dp : DpAnchor
  dataStart : Location
  slot : Nat
  entry : Nat

def Recording.fresh (initiator : U8) : Recording :=
  ⟨[], [], [], initiator, false, DpAnchor.none, Location.null, 0, 0⟩

/-- A node of the ring. No slot occupies it when `slot` is none; an initiator that never wrote here has an
empty data chain. -/
structure Node where
  slot : Option Nat
  locations : Option Bts.ID
  code : BufferChain
  data : U8 → BufferChain
  count : Nat
  open_ : Nat

def Node.empty : Node := ⟨none, none, BufferChain.empty, fun _ => BufferChain.empty, 0, 0⟩

/-- A promoted body: where it lies, how long it is and how often it was called. -/
structure StencilEntry where
  location : Location
  size : Nat
  hitCount : U32

structure BodyResolution where
  isStencil : Bool
  location : Location

/-- A callback's threshold is what the comparison of the occupancy with it comes out as, for a number of
used slots. -/
structure Watermark where
  threshold : Nat → Bool
  fired : Bool

structure Footprint where
  code : Nat
  codeIfInlined : Nat
  stencils : Nat
  data : Nat
  programs : Nat

def Footprint.zero : Footprint := ⟨0, 0, 0, 0, 0⟩

/-- Bodies from this size on are worth a call. -/
def PROMOTION_THRESHOLD : Nat := 8

def MAX_PENDING_HASHES : Nat := 65536

/-- Entries of one location buffer, eight bytes each. -/
def MAX_LOCATION_ENTRIES : Nat := 8192

structure TraceBuffer where
  mgr : BufferManager
  ringSize : Nat
  ring : Nat → Node
  head : Nat
  tail : Nat
  recordings : U8 → Option Recording
  stencils : BufferChain
  tombstone : ProgramLocation
  stencilMap : U32 → Option StencilEntry
  pendingHashes : List U32
  watermarks : List Watermark
  footprint : Footprint

abbrev TraceM := EStateM Exception TraceBuffer

/-- Every initiator there can be. -/
def devices : List U8 := (List.range 256).map (BitVec.ofNat 8)

/-- The chains of a trace buffer: one for code and one for each initiator's data in every node, and one
for the stencils. -/
inductive ChainName where
  | code : Nat → ChainName
  | data : Nat → U8 → ChainName
  | stencils
  deriving DecidableEq, Repr

namespace TraceBuffer

variable (self : TraceBuffer)

def index (absoluteSlot : Nat) : Nat := absoluteSlot % self.ringSize

def nodeAt (absoluteSlot : Nat) : Node := self.ring (self.index absoluteSlot)

def currentNode : Node := self.nodeAt self.head

def setNode (i : Nat) (node : Node) : TraceBuffer :=
  { self with ring := fun j => if j = i then node else self.ring j }

/-- The node of a slot, unless the ring has moved on. -/
def residentNode (absoluteSlot : Nat) : Option Node :=
  if (self.nodeAt absoluteSlot).slot = some absoluteSlot then some (self.nodeAt absoluteSlot) else none

def countAt (absoluteSlot : Nat) : Nat :=
  match self.residentNode absoluteSlot with
  | some node => node.count
  | none => 0

/-- An initiator's open recording. -/
def findRecording (initiator : U8) : Option Recording := (self.recordings initiator).filter Recording.active

def isRecording (initiator : U8) : Bool := (self.findRecording initiator).isSome

def setRecording (initiator : U8) (recording : Recording) : TraceBuffer :=
  { self with recordings := fun d => if d = initiator then some recording else self.recordings d }

def chain : ChainName → BufferChain
  | .code i => (self.ring i).code
  | .data i initiator => (self.ring i).data initiator
  | .stencils => self.stencils

def setChain (name : ChainName) (chain : BufferChain) : TraceBuffer :=
  match name with
  | .code i => self.setNode i { self.ring i with code := chain }
  | .data i initiator =>
    self.setNode i { self.ring i with data := fun d => if d = initiator then chain else (self.ring i).data d }
  | .stencils => { self with stencils := chain }

/-- Run an operation of one chain, on the manager all of them share. -/
def onChain {α : Type} (name : ChainName) (x : ChainM α) : TraceM α := fun self =>
  match x (self.mgr, self.chain name) with
  | .ok a s => .ok a ({ self with mgr := s.1 }.setChain name s.2)
  | .error e s => .error e ({ self with mgr := s.1 }.setChain name s.2)

def assert (c : Bool) (message : String) : TraceM Unit := if c then pure () else throw (.assertion message)

/-! Ring management -/

/-- `Node::reset`: give the buffers back and forget the slot. Chains of a map go in some order. -/
def resetNode (i : Nat) : TraceBuffer :=
  let node := self.ring i
  let mgr := node.code.bufs.foldl BufferManager.freeBuffer self.mgr
  let mgr := devices.foldl (fun mgr d => (node.data d).bufs.foldl BufferManager.freeBuffer mgr) mgr
  let mgr :=
    match node.locations with
    | some id => mgr.freeBuffer id
    | none => mgr
  { self with mgr := mgr }.setNode i { Node.empty with open_ := node.open_ }

def usedSlots : Nat := self.head - self.tail

/-- The loop of `acknowledge`, which stops at a slot that still has an open recording. -/
def acknowledgeLoop : Nat → TraceBuffer → TraceBuffer
  | 0, self => self
  | n + 1, self =>
    if 0 < (self.nodeAt self.tail).open_ then self
    else acknowledgeLoop n { self.resetNode (self.index self.tail) with tail := self.tail + 1 }

/-- Release the slots before the cursor, as far as the head. -/
def acknowledge (upTo : Cursor) : TraceBuffer :=
  let self := acknowledgeLoop (min upTo.slot self.head - self.tail) self
  let rearm := fun wm : Watermark => if wm.threshold self.usedSlots then wm else { wm with fired := false }
  { self with watermarks := self.watermarks.map rearm }

/-- Fire the callbacks from the `i`-th on whose threshold `used` slots reach. A callback acknowledges the
cursors it likes. -/
def fireWatermarks (used : Nat) (respond : Nat → List Cursor) : List Nat → TraceBuffer → TraceBuffer
  | [], self => self
  | i :: rest, self =>
    let self :=
      match self.watermarks[i]? with
      | some wm =>
        if !wm.fired && wm.threshold used then
          (respond i).foldl acknowledge { self with watermarks := self.watermarks.set i { wm with fired := true } }
        else self
      | none => self
    fireWatermarks used respond rest self

def advanceSlot (respond : Nat → List Cursor) : TraceBuffer :=
  let self := { self with head := self.head + 1 }
  fireWatermarks self.usedSlots respond (List.range self.watermarks.length) self

/-! Location buffers -/

/-- A program location as it lies in memory. -/
def locationBytes (program : ProgramLocation) : List U8 :=
  leWords [program.code.id, program.code.offset, program.data.id, program.data.offset]

def writeLocation (i entry : Nat) (program : ProgramLocation) : TraceM Unit := do
  assert (entry < MAX_LOCATION_ENTRIES)
    "location buffer overflow: entry written without a matching begin() reservation"
  let self ← get
  match (self.ring i).locations with
  | none => throw (.assertion "write_location() into a slot with no location buffer")
  | some id =>
    let offset := entry * 8
    let required := offset + 8
    let buffer := self.mgr.deref id
    let buffer := { buffer with bytes := overwrite buffer.bytes offset (locationBytes program) }
    if buffer.used < required then
      match buffer.allocateUninitialized (required - buffer.used) with
      | .ok buffer => set { self with mgr := self.mgr.setBuffer id buffer }
      | .error e => throw e
    else set { self with mgr := self.mgr.setBuffer id buffer }

def readLocation (node : Node) (entry : Nat) : ProgramLocation :=
  match node.locations with
  | none => ProgramLocation.null
  | some id =>
    let src := (self.mgr.deref id).bytes
    let word := fun k => bigEndian (src (entry * 8 + 2 * k + 1)) (src (entry * 8 + 2 * k))
    ⟨⟨word 0, word 1⟩, ⟨word 2, word 3⟩⟩

/-! Recording -/

def begin (respond : Nat → List Cursor) (initiator : U8) : TraceM Unit := do
  let self ← get
  if self.currentNode.slot = some self.head ∧ MAX_LOCATION_ENTRIES ≤ self.currentNode.count then
    set (self.advanceSlot respond)
  let self ← get
  let i := self.index self.head
  let node := self.currentNode
  if node.slot ≠ none ∧ node.slot ≠ some self.head then throw (.ringOverflow self.head)
  if node.locations = none then
    match self.mgr.allocBuffer with
    | .ok (id, mgr) => set ({ self with mgr := mgr }.setNode i { node with locations := some id })
    | .error e => throw e
  let self ← get
  let node := self.ring i
  let recording := (self.recordings initiator).getD (Recording.fresh initiator)
  assert (!recording.active) "begin() called while this initiator is already recording"
  let recording : Recording := ⟨[], [], [], initiator, true, DpAnchor.none, Location.null, self.head, node.count⟩
  let node := { node with slot := some self.head, count := node.count + 1, open_ := node.open_ + 1 }
  set ((self.setNode i node).setRecording initiator recording)
  writeLocation i recording.entry self.tombstone

def emitTo (initiator : U8) (edit : Recording → Recording) (message : String) : TraceM Unit := do
  let self ← get
  match self.findRecording initiator with
  | some recording => set (self.setRecording initiator (edit recording))
  | none => throw (.assertion message)

def emitPrefix (initiator : U8) (encoded : List U8) : TraceM Unit :=
  emitTo initiator (fun recording => { recording with prefix_ := recording.prefix_ ++ encoded })
    "emit_prefix() outside a begin()/commit() pair"

def emitBody (initiator : U8) (encoded : List U8) : TraceM Unit :=
  emitTo initiator (fun recording => { recording with body := recording.body ++ encoded })
    "emit_body() outside a begin()/commit() pair"

def emitPostfix (initiator : U8) (encoded : List U8) : TraceM Unit :=
  emitTo initiator (fun recording => { recording with postfix_ := recording.postfix_ ++ encoded })
    "emit_postfix() outside a begin()/commit() pair"

def setDpAnchor (initiator : U8) (at_ : Location) (size stride : U16) : TraceM Unit :=
  emitTo initiator (fun recording => { recording with dp := ⟨true, at_, size, stride⟩ })
    "set_dp_anchor() outside a recording"

/-- Payload bytes go to the initiator's chain in the claimed slot at once. The first of them is remembered. -/
def appendData (initiator : U8) (data : List U8) : TraceM Location := do
  let self ← get
  match self.findRecording initiator with
  | none => throw (.assertion "append_data() outside a begin()/commit() pair")
  | some recording =>
    let loc ← onChain (.data (self.index recording.slot) recording.id) (BufferChain.append data)
    let self ← get
    let self := { self with footprint := { self.footprint with data := self.footprint.data + data.length } }
    set (if recording.dataStart.id = 0 then self.setRecording initiator { recording with dataStart := loc } else self)
    return loc

/-- The bytes of a promoted body. -/
def stencilBody (entry : StencilEntry) : List U8 :=
  slice (self.mgr.deref entry.location.id).bytes entry.location.offset.toNat entry.size

def stencilMatches (entry : StencilEntry) (body : List U8) : Bool := self.stencilBody entry = body

section Commit

variable (hash : List U8 → U32)

/-- Whether the body is called, and where: it was promoted before, or is now, at its second sight. -/
def resolveBody (body : List U8) : TraceM BodyResolution := do
  let self ← get
  let inlined : BodyResolution := ⟨false, Location.null⟩
  if body = [] then return inlined
  else
    let h := hash body
    match self.stencilMap h with
    | some entry =>
      if self.stencilMatches entry body then
        let entry := { entry with hitCount := entry.hitCount + 1 }
        set { self with stencilMap := fun k => if k = h then some entry else self.stencilMap k }
        return ⟨true, entry.location⟩
      else return inlined
    | none =>
      if h ∈ self.pendingHashes then
        if PROMOTION_THRESHOLD ≤ body.length then
          onChain .stencils (BufferChain.ensureCapacity (body.length + EncodedOp.ret0.length))
          let loc ← onChain .stencils (BufferChain.reserve body.length)
          onChain .stencils (BufferChain.fill loc body)
          let _ ← onChain .stencils (BufferChain.append EncodedOp.ret0)
          let self ← get
          set { self with
            footprint :=
              { self.footprint with stencils := self.footprint.stencils + body.length + EncodedOp.ret0.length }
            stencilMap := fun k => if k = h then some ⟨loc, body.length, 2⟩ else self.stencilMap k
            pendingHashes := self.pendingHashes.erase h }
          return ⟨true, loc⟩
        else return inlined
      else
        let pending := if MAX_PENDING_HASHES ≤ self.pendingHashes.length then [] else self.pendingHashes
        set { self with pendingHashes := h :: pending }
        return inlined

/-- One part of a subroutine. The first of them is where it starts. -/
def appendPart (name : ChainName) (start : Option Location) (bytes : List U8) : TraceM (Option Location) := do
  let loc ← onChain name (BufferChain.append bytes)
  return some (start.getD loc)

/-- The parts of a subroutine in order, with room made for all of them first. -/
def flushToRing (recording : Recording) (resolution : BodyResolution) : TraceM ProgramLocation := do
  let self ← get
  let i := self.index recording.slot
  let callEnc := EncodedOp.call2 ⟨resolution.location.id, resolution.location.offset⟩
  let total := recording.prefix_.length + recording.postfix_.length +
    if resolution.isStencil then callEnc.length else recording.body.length
  onChain (.code i) (BufferChain.ensureCapacity total)
  let start ← if recording.prefix_ ≠ [] then appendPart (.code i) none recording.prefix_ else pure none
  let start ←
    if resolution.isStencil then appendPart (.code i) start callEnc
    else if recording.body ≠ [] then appendPart (.code i) start recording.body
    else pure start
  let start ← appendPart (.code i) start recording.postfix_
  modify fun self =>
    { self with
      footprint :=
        { self.footprint with
          code := self.footprint.code + total
          codeIfInlined := self.footprint.codeIfInlined +
            (recording.prefix_.length + recording.body.length + recording.postfix_.length) } }
  let program : ProgramLocation := ⟨start.getD Location.null, recording.dataStart⟩
  writeLocation i recording.entry program
  return program

/-- The reservation is released before anything that can throw. -/
def commit (respond : Nat → List Cursor) (initiator : U8) : TraceM ProgramLocation := do
  let self ← get
  match self.findRecording initiator with
  | none => throw (.assertion "commit() called without a matching begin()")
  | some recording =>
    let recording := { recording with postfix_ := recording.postfix_ ++ EncodedOp.halt0 }
    let i := self.index recording.slot
    assert (0 < (self.ring i).open_) "commit() without a matching begin() reservation"
    let node := { self.ring i with open_ := (self.ring i).open_ - 1 }
    set ((self.setNode i node).setRecording initiator { recording with active := false })
    let resolution ← resolveBody hash recording.body
    let ret ← flushToRing recording resolution
    modify fun self => { self with footprint := { self.footprint with programs := self.footprint.programs + 1 } }
    let self ← get
    if recording.slot = self.head ∧ MAX_LOCATION_ENTRIES ≤ (self.ring i).count ∧ (self.ring i).open_ = 0 then
      set (self.advanceSlot respond)
    return ret

end Commit

/-- Nothing happens when nothing is recording. The entry keeps the tombstone. -/
def abort (initiator : U8) : TraceM Unit := do
  let self ← get
  match self.findRecording initiator with
  | none => pure ()
  | some recording =>
    let i := self.index recording.slot
    assert (0 < (self.ring i).open_) "abort() without a matching begin() reservation"
    let node := { self.ring i with open_ := (self.ring i).open_ - 1 }
    let recording : Recording :=
      ⟨[], [], [], recording.id, false, DpAnchor.none, Location.null, recording.slot, recording.entry⟩
    set ((self.setNode i node).setRecording initiator recording)

/-- Back to the state after construction, apart from the watermarks' registrations. -/
def clear : TraceM Unit := do
  devices.forM abort
  modify fun self => (List.range self.ringSize).foldl resetNode self
  modify fun self =>
    { self with
      head := 0
      tail := 0
      footprint := Footprint.zero
      stencilMap := fun _ => none
      pendingHashes := [] }
  onChain .stencils BufferChain.clear
  modify fun self => { self with tombstone := ProgramLocation.null }
  let code ← onChain .stencils (BufferChain.append EncodedOp.halt0)
  modify fun self =>
    { self with
      tombstone := ⟨code, Location.null⟩
      watermarks := self.watermarks.map fun wm => { wm with fired := false } }

/-- A buffer that holds nothing yet: what the constructor has set up before it calls `clear`. -/
def blank (mgr : BufferManager) (ringSize : Nat) : TraceBuffer :=
  ⟨mgr, ringSize, fun _ => Node.empty, 0, 0, fun _ => none, BufferChain.empty, ProgramLocation.null,
    fun _ => none, [], [], Footprint.zero⟩

/-- The constructor. -/
def create (mgr : BufferManager) (ringSize : Nat) : Except Exception TraceBuffer :=
  if ringSize = 0 then .error (.logicError "TraceBuffer: ring_size must be at least 1")
  else
    match clear (blank mgr ringSize) with
    | .ok _ self => .ok self
    | .error e _ => .error e

def onWatermark (threshold : Nat → Bool) : TraceBuffer :=
  { self with watermarks := self.watermarks ++ [⟨threshold, false⟩] }

/-! Cursors and iteration -/

/-- Past the last reserved entry. -/
def cursor : Cursor := ⟨self.head, self.currentNode.count⟩

/-- Past the last entry that is final: the earliest reservation still open. -/
def committedCursor : Cursor :=
  devices.foldl (fun stable d =>
    match self.findRecording d with
    | some recording =>
      let at_ : Cursor := ⟨recording.slot, recording.entry⟩
      if at_.lt stable then at_ else stable
    | none => stable) self.cursor

/-- `operator++`. At the head slot the count is the past-the-end sentinel. -/
def next (at_ : Cursor) : Cursor :=
  if self.countAt at_.slot ≤ at_.entry + 1 ∧ at_.slot < self.head then ⟨at_.slot + 1, 0⟩
  else ⟨at_.slot, at_.entry + 1⟩

/-- `operator--`. -/
def prev (at_ : Cursor) : Cursor :=
  if 0 < at_.entry then ⟨at_.slot, at_.entry - 1⟩
  else if at_.slot = 0 then at_
  else if self.countAt (at_.slot - 1) = 0 then at_
  else ⟨at_.slot - 1, self.countAt (at_.slot - 1) - 1⟩

end TraceBuffer

end Pepp.Tvm
