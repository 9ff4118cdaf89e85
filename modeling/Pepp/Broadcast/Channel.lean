import Mathlib.Data.List.Nodup
import Pepp.Broadcast.SharedLog
import Pepp.Integers

/-!
# The broadcast channel

Events are linked in both directions from the head to the tail. Reverted events
stay where endpoints hold them; they are marked empty, and both of their links
lead to the event that was the new tail. Shared pointers are indices into the
list of all events, in the order of their allocation.
-/

namespace Pepp.Broadcast

/-- What an operation can fail with. -/
inductive Fault where
  | nullDereference
  | endlessLoop
  deriving DecidableEq, Repr

structure Event (V : Type) where
  value : V
  publisher : U16
  empty : Bool
  nextNode : Option Nat
  prevNode : Option Nat
  displacement : Nat
  deriving DecidableEq, Repr

structure Channel (V : Type) where
  events : List (Event V)
  head : Nat
  tail : Nat
  nextId : U16

namespace Channel

variable {V : Type} (self : Channel V)

def create (default : V) : Channel V := ⟨[⟨default, 0, false, none, none, 0⟩], 0, 0, 1⟩

def load (node : Option Nat) : Except Fault (Event V) :=
  match node.bind fun n => self.events[n]? with
  | some event => .ok event
  | none => .error .nullDereference

/-- The loop of `event_at`. -/
def walkTo (time : Nat) : Nat → Option Nat → Except Fault (Option Nat)
  | 0, _ => .error .endlessLoop
  | fuel + 1, ptr => do
    let event ← self.load ptr
    if event.displacement ≠ time then walkTo time fuel event.nextNode else return ptr

/-- `event_at` and `mutable_event_at` -/
def eventAt (time : Nat) : Except Fault (Option Nat) := do
  let tail ← self.load self.tail
  if tail.displacement < time then return none
  self.walkTo time self.events.length self.head

/-- The loop of `next_event` and `previous_event`: follow the links until an event is not empty. -/
def skip (link : Event V → Option Nat) : Nat → Option Nat → Except Fault (Option Nat)
  | 0, _ => .error .endlessLoop
  | fuel + 1, node => do
    let event ← self.load node
    if event.empty && (link event).isSome then skip link fuel (link event) else return node

def step (link : Event V → Option Nat) (node : Option Nat) : Except Fault (Option Nat) := do
  let event ← self.load node
  match link event with
  | none => return node
  | some next => self.skip link self.events.length (some next)

def nextEvent (node : Option Nat) : Except Fault (Option Nat) := self.step Event.nextNode node

def previousEvent (node : Option Nat) : Except Fault (Option Nat) := self.step Event.prevNode node

def latestEvent : Option Nat := some self.tail

def appendEvent (publisher : U16) (value : V) : Except Fault (Option Nat × Channel V) := do
  let tail ← self.load self.tail
  let node := self.events.length
  let event : Event V := ⟨value, publisher, false, none, some self.tail, tail.displacement + 1⟩
  let events := self.events.modify self.tail fun tail => { tail with nextNode := some node }
  return (some node, { self with events := events ++ [event], tail := node })

/-- The loop of `revert_event` that looks for the publisher's last event. -/
def findWrite (publisher : U16) : Nat → Option Nat → Except Fault (Option Nat)
  | 0, _ => .error .endlessLoop
  | fuel + 1, ptr => do
    let event ← self.load ptr
    if event.prevNode.isSome ∧ event.publisher ≠ publisher then findWrite publisher fuel event.prevNode
    else return ptr

/-- The loop of `revert_event` that redirects the events behind `ptr`. -/
def fixup (ptr : Option Nat) : Nat → Option Nat → Channel V → Except Fault (Channel V)
  | _, none, self => .ok self
  | 0, some _, _ => .error .endlessLoop
  | fuel + 1, some node, self => do
    let event ← self.load (some node)
    let events := self.events.modify node fun event =>
      { event with prevNode := ptr, nextNode := ptr, empty := true }
    fixup ptr fuel event.nextNode { self with events := events }

def revertEvent (publisher : U16) (time : Nat) : Except Fault (Option Nat × Channel V) := do
  let ptr ← self.eventAt time
  let ptr ← self.findWrite publisher self.events.length ptr
  let ptr ← if ptr ≠ some self.head then Event.prevNode <$> self.load ptr else pure ptr
  let event ← self.load ptr
  let self ← fixup ptr self.events.length event.nextNode self
  match ptr with
  | none => .error .nullDereference
  | some tail =>
    let events := self.events.modify tail fun event => { event with nextNode := none }
    return (ptr, { self with events := events, tail := tail })

end Channel

structure Endpoint where
  event : Option Nat
  id : U16
  deriving DecidableEq, Repr

/-- A channel and its endpoints, in the order in which they were made. -/
structure System (V : Type) where
  channel : Channel V
  endpoints : List Endpoint

namespace System

variable {V : Type} (self : System V)

def create (default : V) : System V := ⟨.create default, []⟩

def endpoint (e : Nat) : Except Fault Endpoint :=
  match self.endpoints[e]? with
  | some endpoint => .ok endpoint
  | none => .error .nullDereference

/-- Move an endpoint to another event. -/
def moveTo (e : Nat) (node : Option Nat) : System V :=
  { self with endpoints := self.endpoints.modify e fun endpoint => { endpoint with event := node } }

def newEndpoint : System V :=
  ⟨{ self.channel with nextId := self.channel.nextId + 1 },
    self.endpoints ++ [⟨some self.channel.tail, self.channel.nextId⟩]⟩

def clone (e : Nat) : Except Fault (System V) := do
  let endpoint ← self.endpoint e
  let event ← self.channel.load endpoint.event
  let ret := self.newEndpoint
  let node ← ret.channel.eventAt event.displacement
  return ret.moveTo self.endpoints.length node

/-- Move an endpoint and read the value there, unless it is there already. -/
def visit (e : Nat) (node : Option Nat) : Except Fault (Option V × System V) := do
  let endpoint ← self.endpoint e
  if endpoint.event = node then return (none, self)
  let event ← self.channel.load node
  return (some event.value, self.moveTo e node)

/-- Move an endpoint and read the value there, be it there already or not. -/
def setTo (e : Nat) (node : Option Nat) : Except Fault (Option V × System V) := do
  let event ← self.channel.load node
  return (some event.value, self.moveTo e node)

def perform : Operation V → Except Fault (Option V × System V)
  | .newEndpoint => return (none, self.newEndpoint)
  | .clone e => return (none, ← self.clone e)
  | .appendValue e value => do
    let endpoint ← self.endpoint e
    let (node, channel) ← self.channel.appendEvent endpoint.id value
    return (none, ({ self with channel := channel } : System V).moveTo e node)
  | .nextValue e => do
    let endpoint ← self.endpoint e
    self.visit e (← self.channel.nextEvent endpoint.event)
  | .unread e => do
    let endpoint ← self.endpoint e
    self.visit e (← self.channel.previousEvent endpoint.event)
  | .unwrite e => do
    let endpoint ← self.endpoint e
    let event ← self.channel.load endpoint.event
    let (node, channel) ← self.channel.revertEvent endpoint.id event.displacement
    ({ self with channel := channel } : System V).visit e node
  | .setToHead e => do
    let _ ← self.endpoint e
    self.setTo e (← self.channel.eventAt 0)
  | .setToTail e => do
    let _ ← self.endpoint e
    self.setTo e self.channel.latestEvent

def run : List (Operation V) → System V → Except Fault (List (Option V) × System V)
  | [], self => return ([], self)
  | operation :: operations, self => do
    let (result, self) ← self.perform operation
    let (results, self) ← run operations self
    return (result :: results, self)

end System

end Pepp.Broadcast

/-! ## The list of events

The events from head to tail lie on a path, in the order of their displacements.
An event off the path leads to one with a smaller displacement, so that the way
back to the path ends. -/

namespace Pepp.Broadcast

namespace Channel

variable {V : Type} {c : Channel V} {path : List Nat} {i n d l fuel : Nat}

/-- The events on the path are the list; the others have been reverted. -/
structure Threaded (c : Channel V) (path : List Nat) : Prop where
  head_eq : path[0]? = some c.head
  tail_eq : path[path.length - 1]? = some c.tail
  on : ∀ i n, path[i]? = some n → ∃ e : Event V, c.events[n]? = some e ∧ e.empty = false ∧
    e.displacement = i ∧ e.nextNode = path[i + 1]? ∧ e.prevNode = if i = 0 then none else path[i - 1]?
  off : ∀ n (e : Event V), c.events[n]? = some e → n ∉ path → e.empty = true ∧ ∃ m, ∃ em : Event V, e.nextNode = some m ∧
    e.prevNode = some m ∧ c.events[m]? = some em ∧ em.displacement < e.displacement
  bound : ∀ n (e : Event V), c.events[n]? = some e → e.displacement ≤ n

/-- Following the links from `n` leads to the path at `l`. -/
inductive Lands (c : Channel V) (path : List Nat) : Nat → Nat → Prop where
  | here {n l : Nat} (h : path[l]? = some n) : Lands c path n l
  | redirected {n m l : Nat} {e : Event V} (he : c.events[n]? = some e) (hn : n ∉ path) (hnext : e.nextNode = some m)
      (h : Lands c path m l) : Lands c path n l

/-- Where an endpoint with the event `n` stands. -/
def StandsAt (c : Channel V) (path : List Nat) (n : Nat) : Place → Prop
  | .on p => path[p]? = some n
  | .off d l => n ∉ path ∧ (∃ e : Event V, c.events[n]? = some e ∧ e.displacement = d) ∧ Lands c path n l

/-- The events of `c` are in `c'`, with the same values, publishers and displacements. -/
def Keeps (c c' : Channel V) : Prop :=
  ∀ (n : Nat) (e : Event V), c.events[n]? = some e → ∃ e' : Event V, c'.events[n]? = some e' ∧ e'.value = e.value ∧
    e'.publisher = e.publisher ∧ e'.displacement = e.displacement

theorem Lands.exists_on (h : Lands c path n l) : ∃ m, path[l]? = some m := by
  induction h with
  | here hl => exact ⟨_, hl⟩
  | redirected _ _ _ _ ih => exact ih

/-- Where an endpoint off the path lands is another event. -/
theorem StandsAt.landing (h : StandsAt c path n (.off d l)) : ∃ m, path[l]? = some m ∧ n ≠ m := by
  obtain ⟨hn, -, hl⟩ := h
  obtain ⟨m, hm⟩ := hl.exists_on
  refine ⟨m, hm, ?_⟩
  rintro rfl
  exact hn (List.mem_of_getElem? hm)

theorem StandsAt.displacement {place : Place} (h : StandsAt c path n place) (hthreaded : Threaded c path) :
    ∃ e : Event V, c.events[n]? = some e ∧ e.displacement = place.displacement := by
  cases place with
  | on p =>
    obtain ⟨e, he, -, hd, -⟩ := hthreaded.on p n h
    exact ⟨e, he, hd⟩
  | off d l => exact h.2.1

variable {c' : Channel V}

theorem Lands.of_events (hev : c'.events = c.events) (h : Lands c path n l) : Lands c' path n l := by
  induction h with
  | here hl => exact .here hl
  | redirected he hn hnext _ ih => exact .redirected (hev ▸ he) hn hnext ih

theorem StandsAt.of_events (hev : c'.events = c.events) {place : Place} (h : StandsAt c path n place) :
    StandsAt c' path n place := by
  cases place with
  | on p => exact h
  | off d l =>
    obtain ⟨hn, he, hl⟩ := h
    exact ⟨hn, hev ▸ he, hl.of_events hev⟩

theorem Threaded.of_events (hev : c'.events = c.events) (hhead : c'.head = c.head) (htail : c'.tail = c.tail)
    (h : Threaded c path) : Threaded c' path :=
  ⟨hhead ▸ h.head_eq, htail ▸ h.tail_eq, hev ▸ h.on, hev ▸ h.off, hev ▸ h.bound⟩

theorem step_none {link : Event V → Option Nat} {e : Event V} (he : c.events[n]? = some e) (hto : link e = none) :
    c.step link (some n) = .ok (some n) := by
  rw [step, load, Option.bind_some, he]
  change (match link e with
    | none => (.ok (some n) : Except Fault (Option Nat))
    | some next => c.skip link c.events.length (some next)) = _
  rw [hto]

namespace Threaded

variable (h : Threaded c path)
include h

theorem pos : 0 < path.length := by
  obtain ⟨hlt, -⟩ := List.getElem?_eq_some_iff.mp h.head_eq
  exact hlt

theorem unique {j : Nat} (hi : path[i]? = some n) (hj : path[j]? = some n) : i = j := by
  obtain ⟨e, he, -, hdi, -⟩ := h.on i n hi
  obtain ⟨e', he', -, hdj, -⟩ := h.on j n hj
  obtain rfl : e = e' := Option.some.inj (he.symm.trans he')
  exact hdi.symm.trans hdj

theorem nodup : path.Nodup := by
  rw [List.nodup_iff_getElem?_ne_getElem?]
  intro i j hij hj heq
  rw [List.getElem?_eq_getElem hj] at heq
  have := h.unique heq (List.getElem?_eq_getElem hj)
  omega

theorem load_on (hi : path[i]? = some n) : ∃ e : Event V, c.load (some n) = .ok e ∧ c.events[n]? = some e ∧
    e.empty = false ∧ e.displacement = i ∧ e.nextNode = path[i + 1]? ∧ e.prevNode = if i = 0 then none else path[i - 1]? := by
  obtain ⟨e, he, hrest⟩ := h.on i n hi
  refine ⟨e, ?_, he, hrest⟩
  rw [load, Option.bind_some, he]

/-- There are at least as many events as the path is long. -/
theorem length_le : path.length ≤ c.events.length := by
  obtain ⟨e, he, -, hd, -⟩ := h.on _ _ h.tail_eq
  have hle := h.bound _ _ he
  obtain ⟨hlt, -⟩ := List.getElem?_eq_some_iff.mp he
  omega

theorem walkTo_spec {time : Nat} (hi : i ≤ time) (htime : time < path.length) (hfuel : time - i < fuel) :
    c.walkTo time fuel path[i]? = .ok path[time]? := by
  induction fuel generalizing i with
  | zero => omega
  | succ fuel ih =>
    obtain ⟨n, hn⟩ : ∃ n, path[i]? = some n := ⟨_, List.getElem?_eq_getElem (by omega)⟩
    obtain ⟨e, hload, -, -, hd, hnext, -⟩ := h.load_on hn
    rw [hn, walkTo, hload]
    change (if e.displacement ≠ time then c.walkTo time fuel e.nextNode else .ok (some n)) = _
    rw [hd, hnext]
    rcases Nat.lt_or_eq_of_le hi with hlt | rfl
    · rw [if_pos (by omega), ih (by omega) (by omega)]
    · rw [if_neg (not_not.mpr rfl), hn]

/-- The event at a displacement on the path is found. -/
theorem eventAt_spec (hd : d < path.length) : c.eventAt d = .ok path[d]? := by
  obtain ⟨e, hload, -, -, htail, -⟩ := h.load_on h.tail_eq
  have hle := h.length_le
  rw [eventAt, hload]
  change (if e.displacement < d then .ok none else c.walkTo d c.events.length (some c.head)) = _
  rw [if_neg (by omega), ← h.head_eq, h.walkTo_spec (Nat.zero_le d) hd (by omega)]

variable {link : Event V → Option Nat}

/-- An event off the path is skipped on the way to where it lands. -/
theorem skip_spec (hlink : link = Event.nextNode ∨ link = Event.prevNode) (hlands : Lands c path n l) {e : Event V}
    (he : c.events[n]? = some e) (hfuel : e.displacement < fuel) : c.skip link fuel (some n) = .ok path[l]? := by
  induction hlands generalizing fuel e with
  | @here n l hl =>
    obtain ⟨fuel, rfl⟩ : ∃ f, fuel = f + 1 := ⟨fuel - 1, by omega⟩
    obtain ⟨e', hload, -, hempty, -⟩ := h.load_on hl
    rw [skip, hload]
    change (if e'.empty && (link e').isSome then c.skip link fuel (link e') else .ok (some n)) = _
    rw [hempty, Bool.false_and, if_neg Bool.false_ne_true, hl]
  | @redirected n m l e' he' hn hnext hlands ih =>
    obtain rfl : e = e' := Option.some.inj (he.symm.trans he')
    obtain ⟨fuel, rfl⟩ : ∃ f, fuel = f + 1 := ⟨fuel - 1, by omega⟩
    obtain ⟨hempty, m', em, hnext', hprev, hem, hlt⟩ := h.off n e he hn
    obtain rfl : m = m' := Option.some.inj (hnext.symm.trans hnext')
    have hto : link e = some m := by rcases hlink with rfl | rfl <;> assumption
    rw [skip, load, Option.bind_some, he]
    change (if e.empty && (link e).isSome then c.skip link fuel (link e) else .ok (some n)) = _
    rw [hempty, hto]
    exact ih hem (by omega)

/-- A node that is stepped to lies on the path, or leads there. -/
theorem step_spec (hlink : link = Event.nextNode ∨ link = Event.prevNode) {m : Nat} {e : Event V}
    (he : c.events[n]? = some e) (hto : link e = some m) (hlands : Lands c path m l) {em : Event V}
    (hem : c.events[m]? = some em) : c.step link (some n) = .ok path[l]? := by
  have hbound := h.bound m em hem
  obtain ⟨hlt, -⟩ := List.getElem?_eq_some_iff.mp hem
  rw [step, load, Option.bind_some, he]
  change (match link e with
    | none => (.ok (some n) : Except Fault (Option Nat))
    | some next => c.skip link c.events.length (some next)) = _
  rw [hto]
  exact h.skip_spec hlink hlands hem (by omega)

theorem nextEvent_on (hi : path[i]? = some n) :
    c.nextEvent (some n) = .ok (if i + 1 < path.length then path[i + 1]? else some n) := by
  obtain ⟨e, -, he, -, -, hnext, -⟩ := h.load_on hi
  rw [nextEvent]
  split
  · next hlt =>
    obtain ⟨m, hm⟩ : ∃ m, path[i + 1]? = some m := ⟨_, List.getElem?_eq_getElem hlt⟩
    obtain ⟨em, -, hem, -⟩ := h.load_on hm
    exact h.step_spec (Or.inl rfl) he (hnext.trans hm) (.here hm) hem
  · next hlast => exact step_none he (hnext.trans (List.getElem?_eq_none (by omega)))

theorem previousEvent_on (hi : path[i]? = some n) :
    c.previousEvent (some n) = .ok (if 0 < i then path[i - 1]? else some n) := by
  obtain ⟨e, -, he, -, -, -, hprev⟩ := h.load_on hi
  obtain ⟨hlt, -⟩ := List.getElem?_eq_some_iff.mp hi
  rw [previousEvent]
  split
  · next hpos =>
    obtain ⟨m, hm⟩ : ∃ m, path[i - 1]? = some m := ⟨_, List.getElem?_eq_getElem (by omega)⟩
    obtain ⟨em, -, hem, -⟩ := h.load_on hm
    rw [if_neg (by omega)] at hprev
    exact h.step_spec (Or.inr rfl) he (hprev.trans hm) (.here hm) hem
  · next hzero =>
    rw [if_pos (by omega)] at hprev
    exact step_none he hprev

theorem step_off (hlink : link = Event.nextNode ∨ link = Event.prevNode) (hn : n ∉ path) (hlands : Lands c path n l) :
    c.step link (some n) = .ok path[l]? := by
  cases hlands with
  | here hl => exact absurd (List.mem_of_getElem? hl) hn
  | @redirected _ m _ e he _ hnext hlands =>
    obtain ⟨-, m', em, hnext', hprev, hem, -⟩ := h.off n e he hn
    obtain rfl : m = m' := Option.some.inj (hnext.symm.trans hnext')
    have hto : link e = some m := by rcases hlink with rfl | rfl <;> assumption
    exact h.step_spec hlink he hto hlands hem

end Threaded

end Channel

end Pepp.Broadcast
