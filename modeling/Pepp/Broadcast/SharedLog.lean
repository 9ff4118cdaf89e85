import Mathlib.Algebra.Group.Nat.Defs
import Mathlib.Data.List.Basic

/-!
# A shared log with undo

What a broadcast channel is for. There is one log, which starts with a default
value. A reader stands on an entry of it, moves along it, and writes to its end;
it can take back its last write and all that came later. A reader whose entry
has been taken back is off the log until it moves, and then lands on the entry
that the log was cut back to.
-/

namespace Pepp.Broadcast

/-- An element of a list with one more at its end is an old one, or the one at the end. -/
theorem getElem?_concat_cases {α : Type} {xs : List α} {x y : α} {i : Nat} (h : (xs ++ [x])[i]? = some y) :
    xs[i]? = some y ∨ i = xs.length ∧ y = x := by
  rcases Nat.lt_trichotomy i xs.length with hlt | rfl | hgt
  · rw [List.getElem?_append_left hlt] at h
    exact Or.inl h
  · rw [List.getElem?_concat_length] at h
    exact Or.inr ⟨rfl, (Option.some.inj h).symm⟩
  · rw [List.getElem?_eq_none (by rw [List.length_append, List.length_singleton]; omega)] at h
    cases h

/-- Where a reader stands. Off the log it still knows its displacement, and where it will land. -/
inductive Place where
  | on (position : Nat)
  | off (displacement landing : Nat)
  deriving DecidableEq, Repr

namespace Place

def displacement : Place → Nat
  | on p => p
  | off d _ => d

def isOn : Place → Bool
  | on _ => true
  | off _ _ => false

/-- The place after the log has been cut behind entry `k`. -/
def cut (k : Nat) : Place → Place
  | on p => if p ≤ k then on p else off p k
  | off d l => off d (min l k)

end Place

/-- An entry is the writer and the value; the first one is nobody's. -/
structure SharedLog (V : Type) where
  entries : List (Option Nat × V)
  readers : List Place

/-- What an endpoint can be asked for. The endpoints are numbered in the order in which they were made. -/
inductive Operation (V : Type) where
  | newEndpoint
  | clone (endpoint : Nat)
  | appendValue (endpoint : Nat) (value : V)
  | nextValue (endpoint : Nat)
  | unread (endpoint : Nat)
  | unwrite (endpoint : Nat)
  | setToHead (endpoint : Nat)
  | setToTail (endpoint : Nat)
  deriving DecidableEq, Repr

/-- The endpoint that an operation belongs to. -/
def Operation.endpoint? {V : Type} : Operation V → Option Nat
  | newEndpoint => none
  | clone e | appendValue e _ | nextValue e | unread e | unwrite e | setToHead e | setToTail e => some e

namespace SharedLog

variable {V : Type} (log : SharedLog V)

def initial (default : V) : SharedLog V := ⟨[(none, default)], []⟩

def last : Nat := log.entries.length - 1

def valueAt (p : Nat) : Option V := (log.entries[p]?).map Prod.snd

/-- Put a reader on an entry, and give it the value. -/
def seek (e p : Nat) : Option V × SharedLog V := (log.valueAt p, { log with readers := log.readers.set e (.on p) })

/-- The last entry that a reader has written, up to a position. -/
def lastWrite (e d : Nat) : Option Nat := (List.range (d + 1)).reverse.find? fun p => (log.entries[p]?).map Prod.fst = some (some e)

/-- Cut the log behind entry `k`. -/
def cutAt (k : Nat) : SharedLog V := ⟨log.entries.take (k + 1), log.readers.map (Place.cut k)⟩

/-- The entry in front of the last write, or the default value if there is no write. -/
def undoneTo (e d : Nat) : Nat :=
  match log.lastWrite e d with
  | some p => p - 1
  | none => 0

def perform : Operation V → Option V × SharedLog V
  | .newEndpoint => (none, { log with readers := log.readers ++ [.on log.last] })
  | .clone e =>
    match log.readers[e]? with
    | some (.on p) => (none, { log with readers := log.readers ++ [.on p] })
    | _ => (none, log)
  | .appendValue e value =>
    (none, ⟨log.entries ++ [(some e, value)], log.readers.set e (.on log.entries.length)⟩)
  | .nextValue e =>
    match log.readers[e]? with
    | some (.on p) => if p < log.last then log.seek e (p + 1) else (none, log)
    | some (.off _ l) => log.seek e l
    | none => (none, log)
  | .unread e =>
    match log.readers[e]? with
    | some (.on p) => if 0 < p then log.seek e (p - 1) else (none, log)
    | some (.off _ l) => log.seek e l
    | none => (none, log)
  | .unwrite e =>
    match log.readers[e]? with
    | some place =>
      let k := log.undoneTo e place.displacement
      if place = .on k then (none, log.cutAt k) else (log.cutAt k).seek e k
    | none => (none, log)
  | .setToHead e => log.seek e 0
  | .setToTail e => log.seek e log.last

def run : List (Operation V) → SharedLog V → List (Option V) × SharedLog V
  | [], log => ([], log)
  | operation :: operations, log =>
    let (result, log) := log.perform operation
    let (results, log) := run operations log
    (result :: results, log)

/-- The operations that the channel supports: a reader that copies itself is on the log, one that takes back a write
stands no further than the end of the log, and there are no more readers than identities. -/
def Supports : Operation V → Prop
  | .newEndpoint => log.readers.length < 2 ^ 16
  | .clone e => (log.readers[e]?).any Place.isOn ∧ log.readers.length < 2 ^ 16
  | .unwrite e => (log.readers[e]?).any fun place => place.displacement ≤ log.last
  | .appendValue e _ | .nextValue e | .unread e | .setToHead e | .setToTail e => e < log.readers.length

instance (operation : Operation V) : Decidable (log.Supports operation) :=
  match operation with
  | .newEndpoint => inferInstanceAs (Decidable (_ < _))
  | .clone _ => inferInstanceAs (Decidable (_ ∧ _))
  | .unwrite _ => inferInstanceAs (Decidable (_ = true))
  | .appendValue _ _ | .nextValue _ | .unread _ | .setToHead _ | .setToTail _ => inferInstanceAs (Decidable (_ < _))

def SupportsAll : List (Operation V) → SharedLog V → Prop
  | [], _ => True
  | operation :: operations, log => log.Supports operation ∧ SupportsAll operations (log.perform operation).2

instance SupportsAll.decidable : (operations : List (Operation V)) → (log : SharedLog V) →
    Decidable (SupportsAll operations log)
  | [], _ => inferInstanceAs (Decidable True)
  | _ :: operations, _ => haveI := decidable operations; inferInstanceAs (Decidable (_ ∧ _))

variable {log : SharedLog V} {e p d l k : Nat}

theorem Supports.of_clone (h : log.Supports (.clone e)) :
    (∃ p, log.readers[e]? = some (.on p)) ∧ log.readers.length < 2 ^ 16 := by
  obtain ⟨hon, hfew⟩ := h
  obtain ⟨place, hplace, hon⟩ := (Option.any_eq_true ..).mp hon
  cases place with
  | on p => exact ⟨⟨p, hplace⟩, hfew⟩
  | off d l => cases hon

theorem Supports.of_unwrite (h : log.Supports (.unwrite e)) :
    ∃ place, log.readers[e]? = some place ∧ place.displacement ≤ log.last := by
  obtain ⟨place, hplace, hd⟩ := (Option.any_eq_true ..).mp h
  exact ⟨place, hplace, of_decide_eq_true hd⟩

theorem Supports.lt {operation : Operation V} (h : log.Supports operation) (he : operation.endpoint? = some e) :
    e < log.readers.length := by
  cases operation with
  | newEndpoint => cases he
  | clone e' =>
    obtain rfl := Option.some.inj he
    obtain ⟨⟨p, hp⟩, -⟩ := h.of_clone
    exact (List.getElem?_eq_some_iff.mp hp).1
  | unwrite e' =>
    obtain rfl := Option.some.inj he
    obtain ⟨place, hp, -⟩ := h.of_unwrite
    exact (List.getElem?_eq_some_iff.mp hp).1
  | appendValue e' v | nextValue e' | unread e' | setToHead e' | setToTail e' =>
    obtain rfl := Option.some.inj he
    exact h

theorem seek_readers (he : e < log.readers.length) : (log.seek e p).2.readers[e]? = some (.on p) :=
  List.getElem?_set_self he

theorem next_on (h : log.readers[e]? = some (.on p)) (hp : p < log.last) :
    log.perform (.nextValue e) = log.seek e (p + 1) := by
  rw [perform, h]
  exact if_pos hp

theorem perform_unwrite {place : Place} (h : log.readers[e]? = some place) (hk : log.undoneTo e place.displacement = k) :
    log.perform (.unwrite e) = if place = .on k then (none, log.cutAt k) else (log.cutAt k).seek e k := by
  rw [perform, h, ← hk]

/-- After an operation, its reader is on the log. -/
theorem perform_on {operation : Operation V} (h : log.Supports operation) (he : operation.endpoint? = some e) :
    ∃ p, (log.perform operation).2.readers[e]? = some (.on p) := by
  have hlt := h.lt he
  cases operation with
  | newEndpoint => cases he
  | clone e' =>
    obtain rfl := Option.some.inj he
    obtain ⟨⟨p, hp⟩, -⟩ := h.of_clone
    rw [perform, hp]
    exact ⟨p, (List.getElem?_append_left hlt).trans hp⟩
  | appendValue e' v =>
    obtain rfl := Option.some.inj he
    exact ⟨_, List.getElem?_set_self hlt⟩
  | nextValue e' | unread e' =>
    obtain rfl := Option.some.inj he
    rw [perform]
    cases hp : log.readers[e']? with
    | none => exact absurd hlt (Nat.not_lt.mpr (List.getElem?_eq_none_iff.mp hp))
    | some place =>
      cases place with
      | on p =>
        dsimp only
        split
        · exact ⟨_, seek_readers hlt⟩
        · exact ⟨p, hp⟩
      | off d l => exact ⟨l, seek_readers hlt⟩
  | unwrite e' =>
    obtain rfl := Option.some.inj he
    obtain ⟨place, hp, -⟩ := h.of_unwrite
    obtain ⟨k, hk⟩ : ∃ k, log.undoneTo e' place.displacement = k := ⟨_, rfl⟩
    refine ⟨k, ?_⟩
    rw [perform_unwrite hp hk]
    split
    · next heq =>
      change (log.readers.map (Place.cut k))[e']? = _
      rw [List.getElem?_map, hp, heq, Option.map_some, Place.cut, if_pos (Nat.le_refl k)]
    · refine seek_readers ?_
      change e' < (log.readers.map (Place.cut k)).length
      rwa [List.length_map]
  | setToHead e' | setToTail e' =>
    obtain rfl := Option.some.inj he
    exact ⟨_, seek_readers hlt⟩

/-- Reading on gives the entries that follow, one by one. -/
theorem run_reads (h : log.readers[e]? = some (.on p)) {n : Nat} (hn : p + n ≤ log.last) :
    (run (List.replicate n (.nextValue e)) log).1 = ((log.entries.drop (p + 1)).take n).map fun entry => some entry.2 := by
  induction n generalizing log p with
  | zero => rfl
  | succ n ih =>
    have hlt : e < log.readers.length := (List.getElem?_eq_some_iff.mp h).1
    have hp : p + 1 < log.entries.length := by
      rw [last] at hn
      omega
    have hfirst : (log.seek e (p + 1)).1 = some (log.entries[p + 1]).2 := by
      rw [seek, valueAt, List.getElem?_eq_getElem hp, Option.map_some]
    rw [List.replicate_succ, run, next_on h (by omega), List.drop_eq_getElem_cons hp, List.take_succ_cons,
      List.map_cons, ← hfirst]
    have hnext : (log.seek e (p + 1)).2.readers[e]? = some (.on (p + 1)) := seek_readers hlt
    have hrest : p + 1 + n ≤ (log.seek e (p + 1)).2.last := by
      change p + 1 + n ≤ log.last
      omega
    exact congrArg _ (ih hnext hrest)

/-- Going back undoes going on. -/
theorem unread_next (h : log.readers[e]? = some (.on p)) (hp : p < log.last) :
    ((log.perform (.nextValue e)).2.perform (.unread e)).2 = log := by
  have hlt : e < log.readers.length := (List.getElem?_eq_some_iff.mp h).1
  rw [next_on h hp, perform, seek_readers hlt]
  change (if 0 < p + 1 then (log.seek e (p + 1)).2.seek e (p + 1 - 1) else _).2 = log
  rw [if_pos (Nat.succ_pos p), Nat.add_sub_cancel]
  change (⟨log.entries, (log.readers.set e (.on (p + 1))).set e (.on p)⟩ : SharedLog V) = log
  rw [List.set_set, ← (List.getElem?_eq_some_iff.mp h).2, List.set_getElem_self]

theorem lastWrite_succ : log.lastWrite e (d + 1) =
    if (log.entries[d + 1]?).map Prod.fst = some (some e) then some (d + 1) else log.lastWrite e d := by
  rw [lastWrite, List.range_succ, List.reverse_concat, List.find?_cons]
  split
  · next h => rw [if_pos (of_decide_eq_true h)]
  · next h => exact (if_neg (of_decide_eq_false h)).symm

/-- The last write is the reader's, and no later one up to the position is. -/
theorem lastWrite_spec (h : log.lastWrite e d = some p) : p ≤ d ∧ (log.entries[p]?).map Prod.fst = some (some e) ∧
    ∀ i, p < i → i ≤ d → (log.entries[i]?).map Prod.fst ≠ some (some e) := by
  induction d with
  | zero =>
    have hp := List.find?_some h
    have hmem := List.mem_of_find?_eq_some h
    rw [List.mem_reverse, List.mem_range] at hmem
    exact ⟨by omega, of_decide_eq_true hp, fun i hpi hi => by omega⟩
  | succ d ih =>
    rw [lastWrite_succ] at h
    split at h
    · next hwrite =>
      obtain rfl := Option.some.inj h
      exact ⟨Nat.le_refl _, hwrite, fun i hpi hi => by omega⟩
    · next hother =>
      obtain ⟨hpd, hp, hlater⟩ := ih h
      refine ⟨by omega, hp, ?_⟩
      intro i hpi hi
      rcases Nat.lt_or_eq_of_le hi with hlt | rfl
      · exact hlater i hpi (by omega)
      · exact hother

/-- What is taken back is the last write and all that came after it. -/
theorem unwrite_entries {place : Place} (h : log.readers[e]? = some place)
    (hwrite : log.lastWrite e place.displacement = some p) (hp : 0 < p) :
    (log.perform (.unwrite e)).2.entries = log.entries.take p := by
  have hk : log.undoneTo e place.displacement = p - 1 := by rw [undoneTo, hwrite]
  have hentries : (log.cutAt (p - 1)).entries = log.entries.take p := by rw [cutAt, Nat.sub_add_cancel hp]
  rw [perform_unwrite h hk]
  split
  · exact hentries
  · exact hentries

/-- An operation leaves the entries alone, writes one behind them, or cuts some off. -/
theorem perform_entries (operation : Operation V) : (log.perform operation).2.entries = log.entries ∨
    (∃ e v, operation = .appendValue e v ∧ (log.perform operation).2.entries = log.entries ++ [(some e, v)]) ∨
    ∃ k, (log.perform operation).2.entries = log.entries.take (k + 1) := by
  cases operation with
  | newEndpoint | setToHead e | setToTail e => exact Or.inl rfl
  | clone e | nextValue e | unread e =>
    refine Or.inl ?_
    rw [perform]
    split
    all_goals first | rfl | (split <;> rfl)
  | appendValue e v => exact Or.inr (Or.inl ⟨e, v, rfl, rfl⟩)
  | unwrite e =>
    cases hplace : log.readers[e]? with
    | none =>
      refine Or.inl ?_
      rw [perform, hplace]
    | some place =>
      refine Or.inr (Or.inr ⟨log.undoneTo e place.displacement, ?_⟩)
      rw [perform_unwrite hplace rfl]
      split
      · rfl
      · rfl

/-- The default value stays at the front. -/
theorem perform_first {default : V} (h : log.entries[0]? = some (none, default)) (operation : Operation V) :
    (log.perform operation).2.entries[0]? = some (none, default) := by
  have hpos : 0 < log.entries.length := (List.getElem?_eq_some_iff.mp h).1
  rcases log.perform_entries operation with hsame | ⟨e, v, -, happend⟩ | ⟨k, hcut⟩
  · rw [hsame, h]
  · rw [happend, List.getElem?_append_left hpos, h]
  · rw [hcut, List.getElem?_take_of_lt (Nat.succ_pos k), h]

theorem run_first {default : V} (operations : List (Operation V)) (h : log.entries[0]? = some (none, default)) :
    (run operations log).2.entries[0]? = some (none, default) := by
  induction operations generalizing log with
  | nil => exact h
  | cons operation operations ih => exact ih (perform_first h operation)

end SharedLog

end Pepp.Broadcast
