import Pepp.Broadcast.Reverts

/-!
# The channel is a shared log

The path of events carries the entries of the log, and each endpoint stands
where the log has its reader.
-/

namespace Pepp.Broadcast

/-- The endpoints are numbered from one; the default value has the publisher zero. -/
def identity : Option Nat → U16
  | none => 0
  | some k => BitVec.ofNat 16 (k + 1)

theorem identity_inj {i j : Nat} (hi : i < 2 ^ 16) (hj : j < 2 ^ 16) (h : identity (some i) = identity (some j)) :
    i = j := by
  have hnat := congrArg BitVec.toNat h
  rw [identity, identity, BitVec.toNat_ofNat, BitVec.toNat_ofNat] at hnat
  omega

variable {V : Type} {c c' : Channel V} {path : List Nat} {entries : List (Option Nat × V)}

/-- The events on the path carry the entries of the log. -/
structure Carries (c : Channel V) (path : List Nat) (entries : List (Option Nat × V)) : Prop where
  length_eq : path.length = entries.length
  entry : ∀ (i n : Nat), path[i]? = some n → ∃ (e : Event V) (writer : Option Nat), c.events[n]? = some e ∧
    entries[i]? = some (writer, e.value) ∧ e.publisher = identity writer

namespace Carries

theorem valueAt {i n : Nat} (h : Carries c path entries) (readers : List Place) (hi : path[i]? = some n) :
    ∃ e : Event V, c.load (some n) = .ok e ∧ (⟨entries, readers⟩ : SharedLog V).valueAt i = some e.value := by
  obtain ⟨e, writer, he, hentry, -⟩ := h.entry i n hi
  refine ⟨e, ?_, ?_⟩
  · rw [Channel.load, Option.bind_some, he]
  · rw [SharedLog.valueAt, hentry, Option.map_some]

theorem append {e : Nat} {value : V} {new : Event V} (h : Carries c path entries) (ha : c.Appended c' new)
    (hvalue : new.value = value) (hid : new.publisher = identity (some e)) :
    Carries c' (path ++ [c.events.length]) (entries ++ [(some e, value)]) := by
  constructor
  · rw [List.length_append, List.length_append, h.length_eq]
    rfl
  · intro i n hi
    rcases getElem?_concat_cases hi with hold | ⟨rfl, rfl⟩
    · obtain ⟨ev, writer, he, hentry, hpub⟩ := h.entry i n hold
      obtain ⟨ev', he', hval, hpub', -⟩ := ha.keeps n ev he
      obtain ⟨hlt, -⟩ := List.getElem?_eq_some_iff.mp hentry
      refine ⟨ev', writer, he', ?_, hpub'.trans hpub⟩
      rw [List.getElem?_append_left hlt, hentry, hval]
    · refine ⟨new, some e, ha.fresh, ?_, hid⟩
      rw [h.length_eq, List.getElem?_concat_length, hvalue]

theorem cut {k : Nat} (h : Carries c path entries) (hkeeps : c.Keeps c') : Carries c' (path.take k) (entries.take k) := by
  constructor
  · rw [List.length_take, List.length_take, h.length_eq]
  · intro i n hi
    obtain ⟨hlt, -⟩ := List.getElem?_eq_some_iff.mp hi
    rw [List.length_take] at hlt
    rw [List.getElem?_take_of_lt (by omega)] at hi
    obtain ⟨e, writer, he, hentry, hpub⟩ := h.entry i n hi
    obtain ⟨e', he', hval, hpub', -⟩ := hkeeps n e he
    refine ⟨e', writer, he', ?_, hpub'.trans hpub⟩
    rw [List.getElem?_take_of_lt (by omega), hentry, hval]

end Carries

/-- The state of the channel and its endpoints shows the log, with the events of the path as its entries. -/
structure Refines (s : System V) (log : SharedLog V) (path : List Nat) : Prop where
  threaded : s.channel.Threaded path
  carries : Carries s.channel path log.entries
  first : ∀ (i : Nat) (v : V), log.entries[i]? = some (none, v) → i = 0
  writers : ∀ (i w : Nat) (v : V), log.entries[i]? = some (some w, v) → w < log.readers.length
  count : s.endpoints.length = log.readers.length
  few : log.readers.length ≤ 2 ^ 16
  nextId_eq : s.channel.nextId = BitVec.ofNat 16 (log.readers.length + 1)
  endpoints : ∀ (i : Nat) (endpoint : Endpoint), s.endpoints[i]? = some endpoint → endpoint.id = identity (some i) ∧
    ∃ n place, endpoint.event = some n ∧ log.readers[i]? = some place ∧ s.channel.StandsAt path n place

theorem moveTo_endpoints {s : System V} {e i : Nat} {node : Option Nat} {endpoint : Endpoint}
    (h : (s.moveTo e node).endpoints[i]? = some endpoint) : ∃ old : Endpoint, s.endpoints[i]? = some old ∧
    endpoint = if e = i then { old with event := node } else old := by
  have hmodify : (s.moveTo e node).endpoints[i]? =
      (s.endpoints[i]?).map fun old => if e = i then { old with event := node } else old := List.getElem?_modify ..
  rw [hmodify, Option.map_eq_some_iff] at h
  obtain ⟨old, hold, heq⟩ := h
  exact ⟨old, hold, heq.symm⟩

namespace Refines

variable {s : System V} {log : SharedLog V} {e p n m : Nat} {place : Place} (h : Refines s log path)
include h

theorem endpoint_of (he : log.readers[e]? = some place) : ∃ n, s.endpoint e = .ok ⟨some n, identity (some e)⟩ ∧
    s.endpoints[e]? = some ⟨some n, identity (some e)⟩ ∧ s.channel.StandsAt path n place := by
  obtain ⟨hlt, -⟩ := List.getElem?_eq_some_iff.mp he
  obtain ⟨endpoint, hend⟩ : ∃ endpoint, s.endpoints[e]? = some endpoint :=
    ⟨_, List.getElem?_eq_getElem (h.count ▸ hlt)⟩
  obtain ⟨hid, n, place', hn, hplace, hstands⟩ := h.endpoints e endpoint hend
  obtain rfl := Option.some.inj (he.symm.trans hplace)
  obtain ⟨event, id⟩ := endpoint
  obtain rfl : event = some n := hn
  obtain rfl : id = identity (some e) := hid
  exact ⟨n, by rw [System.endpoint, hend], hend, hstands⟩

theorem last_eq : log.last = path.length - 1 := by rw [SharedLog.last, h.carries.length_eq]

/-- An endpoint that moves to an event of the path moves its reader. -/
theorem seek (hp : path[p]? = some n) : Refines (s.moveTo e (some n)) (log.seek e p).2 path := by
  have hcount : (log.seek e p).2.readers.length = log.readers.length := List.length_set
  refine ⟨h.threaded, h.carries, h.first, ?_, ?_, ?_, ?_, ?_⟩
  · rw [hcount]
    exact h.writers
  · rw [hcount, ← h.count]
    exact List.length_modify ..
  · rw [hcount]
    exact h.few
  · rw [hcount]
    exact h.nextId_eq
  · intro i endpoint hi
    obtain ⟨old, hold, rfl⟩ := moveTo_endpoints hi
    obtain ⟨hid, m, place, hm, hplace, hstands⟩ := h.endpoints i old hold
    obtain ⟨hlt, -⟩ := List.getElem?_eq_some_iff.mp hplace
    by_cases hie : e = i
    · subst hie
      rw [if_pos rfl]
      exact ⟨hid, n, .on p, rfl, List.getElem?_set_self hlt, hp⟩
    · rw [if_neg hie]
      exact ⟨hid, m, place, hm, (List.getElem?_set_ne hie).trans hplace, hstands⟩

/-- Visiting another event of the path gives the value of its entry. -/
theorem visit_ne (he : s.endpoint e = .ok ⟨some m, identity (some e)⟩) (hp : path[p]? = some n) (hne : m ≠ n) :
    ∃ s', s.visit e path[p]? = .ok ((log.seek e p).1, s') ∧ Refines s' (log.seek e p).2 path := by
  obtain ⟨ev, hload, hvalue⟩ := h.carries.valueAt log.readers hp
  have hother : (⟨some m, identity (some e)⟩ : Endpoint).event ≠ some n := fun heq => hne (Option.some.inj heq)
  refine ⟨s.moveTo e (some n), ?_, h.seek hp⟩
  rw [hp, System.visit, he]
  change (if (⟨some m, identity (some e)⟩ : Endpoint).event = some n then _ else s.channel.load (some n) >>= _) = _
  rw [if_neg hother, hload]
  exact congrArg (fun value => Except.ok (value, s.moveTo e (some n))) hvalue.symm

omit h in
theorem visit_same (he : s.endpoint e = .ok ⟨some n, identity (some e)⟩) : s.visit e (some n) = .ok (none, s) := by
  rw [System.visit, he]
  exact if_pos rfl

/-- Setting an endpoint on an event of the path gives the value of its entry. -/
theorem setTo_spec (hp : path[p]? = some n) :
    ∃ s', s.setTo e path[p]? = .ok ((log.seek e p).1, s') ∧ Refines s' (log.seek e p).2 path := by
  obtain ⟨ev, hload, hvalue⟩ := h.carries.valueAt log.readers hp
  refine ⟨s.moveTo e (some n), ?_, h.seek hp⟩
  rw [hp, System.setTo, hload]
  exact congrArg (fun value => Except.ok (value, s.moveTo e (some n))) hvalue.symm

theorem newEndpoint (hfew : log.readers.length < 2 ^ 16) :
    Refines s.newEndpoint (log.perform .newEndpoint).2 path := by
  have hcount : (log.readers ++ [Place.on log.last]).length = log.readers.length + 1 := by simp
  have hevents : s.newEndpoint.channel.events = s.channel.events := rfl
  have hthreaded : s.newEndpoint.channel.Threaded path := h.threaded.of_events hevents rfl rfl
  refine ⟨hthreaded, ⟨h.carries.length_eq, h.carries.entry⟩, h.first, ?_, ?_, ?_, ?_, ?_⟩
  · intro i w v hi
    have := h.writers i w v hi
    change w < (log.readers ++ [Place.on log.last]).length
    omega
  · change (s.endpoints ++ [_]).length = (log.readers ++ [Place.on log.last]).length
    rw [hcount, List.length_append, h.count]
    rfl
  · change (log.readers ++ [Place.on log.last]).length ≤ 2 ^ 16
    omega
  · change s.channel.nextId + 1 = BitVec.ofNat 16 ((log.readers ++ [Place.on log.last]).length + 1)
    rw [hcount, h.nextId_eq]
    exact (BitVec.ofNat_add (log.readers.length + 1) 1).symm
  · intro i endpoint hi
    change (s.endpoints ++ [⟨some s.channel.tail, s.channel.nextId⟩])[i]? = some endpoint at hi
    rcases getElem?_concat_cases hi with hold | ⟨rfl, rfl⟩
    · obtain ⟨hid, n, place, hn, hplace, hs⟩ := h.endpoints i endpoint hold
      obtain ⟨hlt, -⟩ := List.getElem?_eq_some_iff.mp hplace
      exact ⟨hid, n, place, hn, (List.getElem?_append_left hlt).trans hplace, hs.of_events hevents⟩
    · refine ⟨?_, s.channel.tail, .on log.last, rfl, ?_, ?_⟩
      · rw [h.count]
        exact h.nextId_eq
      · rw [h.count]
        exact List.getElem?_concat_length ..
      · rw [h.last_eq]
        exact hthreaded.tail_eq

theorem clone (he : log.readers[e]? = some (.on p)) (hfew : log.readers.length < 2 ^ 16) :
    ∃ s', s.clone e = .ok s' ∧ Refines s' (log.perform (.clone e)).2 path := by
  obtain ⟨n, hend, -, hp⟩ := h.endpoint_of he
  obtain ⟨ev, hload, -, -, hd, -⟩ := h.threaded.load_on hp
  have hnew := h.newEndpoint hfew
  obtain ⟨hlt, -⟩ := List.getElem?_eq_some_iff.mp hp
  refine ⟨s.newEndpoint.moveTo s.endpoints.length (some n), ?_, ?_⟩
  · rw [System.clone, hend]
    change (s.channel.load (some n) >>= _) = _
    rw [hload]
    change (s.newEndpoint.channel.eventAt ev.displacement >>= _) = _
    rw [hd, hnew.threaded.eventAt_spec hlt, hp]
    rfl
  · have hseek := hnew.seek (e := s.endpoints.length) hp
    have hset : (log.readers ++ [Place.on log.last]).set s.endpoints.length (.on p) = log.readers ++ [.on p] := by
      rw [h.count, List.set_append_right _ _ (Nat.le_refl _), Nat.sub_self]
      rfl
    rw [SharedLog.perform, he]
    change Refines _ ⟨log.entries, (log.readers ++ [Place.on log.last]).set s.endpoints.length (.on p)⟩ path at hseek
    rwa [hset] at hseek

section

variable (he : e < log.readers.length)
include he

theorem appendValue (value : V) :
    ∃ s', s.perform (.appendValue e value) = .ok (none, s') ∧
      Refines s' (log.perform (.appendValue e value)).2 (path ++ [s.channel.events.length]) := by
  obtain ⟨n, hend, -, -⟩ := h.endpoint_of (List.getElem?_eq_getElem he)
  obtain ⟨c', happend, ha⟩ := h.threaded.appendEvent_spec (identity (some e)) value
  have happended : Refines { s with channel := c' } ⟨log.entries ++ [(some e, value)], log.readers⟩
      (path ++ [s.channel.events.length]) := by
    refine ⟨ha.threaded h.threaded ⟨rfl, rfl, rfl, rfl⟩, h.carries.append ha rfl rfl, ?_, ?_, h.count, h.few, ?_, ?_⟩
    · intro i v hi
      rcases getElem?_concat_cases hi with hold | ⟨-, hnew⟩
      · exact h.first i v hold
      · cases hnew
    · intro i w v hi
      rcases getElem?_concat_cases hi with hold | ⟨-, hnew⟩
      · exact h.writers i w v hold
      · cases hnew
        exact he
    · exact ha.nextId_eq.trans h.nextId_eq
    · intro i endpoint hi
      obtain ⟨hid, n, place, hn, hplace, hs⟩ := h.endpoints i endpoint hi
      exact ⟨hid, n, place, hn, hplace, ha.standsAt h.threaded hs⟩
  have hfresh : (path ++ [s.channel.events.length])[log.entries.length]? = some s.channel.events.length := by
    rw [← h.carries.length_eq]
    exact List.getElem?_concat_length ..
  refine ⟨_, ?_, happended.seek hfresh⟩
  rw [System.perform, hend]
  change (s.channel.appendEvent (identity (some e)) value >>= _) = _
  rw [happend]
  rfl

theorem nextValue : ∃ s', s.perform (.nextValue e) =
    .ok ((log.perform (.nextValue e)).1, s') ∧ Refines s' (log.perform (.nextValue e)).2 path := by
  obtain ⟨place, hplace⟩ : ∃ place, log.readers[e]? = some place := ⟨_, List.getElem?_eq_getElem he⟩
  obtain ⟨n, hend, -, hs⟩ := h.endpoint_of hplace
  have hlast := h.last_eq
  rw [System.perform, hend, SharedLog.perform, hplace]
  change ∃ s', (s.channel.nextEvent (some n) >>= s.visit e) = _ ∧ _
  cases place with
  | on p =>
    rw [h.threaded.nextEvent_on hs]
    by_cases hp : p < log.last
    · obtain ⟨m, hm⟩ : ∃ m, path[p + 1]? = some m := ⟨_, List.getElem?_eq_getElem (by omega)⟩
      have hne : n ≠ m := by
        rintro rfl
        have := h.threaded.unique hs hm
        omega
      simp only [if_pos hp, if_pos (show p + 1 < path.length by omega)]
      exact h.visit_ne hend hm hne
    · simp only [if_neg hp, if_neg (show ¬p + 1 < path.length by omega)]
      exact ⟨s, visit_same hend, h⟩
  | off d l =>
    obtain ⟨m, hm, hne⟩ := hs.landing
    rw [Channel.nextEvent, h.threaded.step_off (Or.inl rfl) hs.1 hs.2.2]
    exact h.visit_ne hend hm hne

theorem unread : ∃ s', s.perform (.unread e) =
    .ok ((log.perform (.unread e)).1, s') ∧ Refines s' (log.perform (.unread e)).2 path := by
  obtain ⟨place, hplace⟩ : ∃ place, log.readers[e]? = some place := ⟨_, List.getElem?_eq_getElem he⟩
  obtain ⟨n, hend, -, hs⟩ := h.endpoint_of hplace
  rw [System.perform, hend, SharedLog.perform, hplace]
  change ∃ s', (s.channel.previousEvent (some n) >>= s.visit e) = _ ∧ _
  cases place with
  | on p =>
    obtain ⟨hlt, -⟩ := List.getElem?_eq_some_iff.mp hs
    rw [h.threaded.previousEvent_on hs]
    by_cases hp : 0 < p
    · obtain ⟨m, hm⟩ : ∃ m, path[p - 1]? = some m := ⟨_, List.getElem?_eq_getElem (by omega)⟩
      have hne : n ≠ m := by
        rintro rfl
        have := h.threaded.unique hs hm
        omega
      simp only [if_pos hp]
      exact h.visit_ne hend hm hne
    · simp only [if_neg hp]
      exact ⟨s, visit_same hend, h⟩
  | off d l =>
    obtain ⟨m, hm, hne⟩ := hs.landing
    rw [Channel.previousEvent, h.threaded.step_off (Or.inr rfl) hs.1 hs.2.2]
    exact h.visit_ne hend hm hne

theorem setToHead : ∃ s', s.perform (.setToHead e) =
    .ok ((log.perform (.setToHead e)).1, s') ∧ Refines s' (log.perform (.setToHead e)).2 path := by
  obtain ⟨n, hend, -, -⟩ := h.endpoint_of (List.getElem?_eq_getElem he)
  rw [System.perform, hend]
  change ∃ s', (s.channel.eventAt 0 >>= s.setTo e) = _ ∧ _
  rw [h.threaded.eventAt_spec h.threaded.pos]
  exact h.setTo_spec h.threaded.head_eq

theorem setToTail : ∃ s', s.perform (.setToTail e) =
    .ok ((log.perform (.setToTail e)).1, s') ∧ Refines s' (log.perform (.setToTail e)).2 path := by
  obtain ⟨n, hend, -, -⟩ := h.endpoint_of (List.getElem?_eq_getElem he)
  rw [System.perform, hend, SharedLog.perform, h.last_eq]
  change ∃ s', s.setTo e (some s.channel.tail) = _ ∧ _
  rw [← h.threaded.tail_eq]
  exact h.setTo_spec h.threaded.tail_eq

/-- An event of the path is the endpoint's write if it has its identity. -/
theorem wrote_iff {ev : Event V} {i : Nat} (hpos : 0 < i) (hi : path[i]? = some n)
    (hev : s.channel.events[n]? = some ev) :
    decide ((log.entries[i]?).map Prod.fst = some (some e)) = true ↔ ev.publisher = identity (some e) := by
  obtain ⟨ev', writer, hev', hentry, hpub⟩ := h.carries.entry i n hi
  obtain rfl := Option.some.inj (hev.symm.trans hev')
  have hfew := h.few
  rw [decide_eq_true_iff, hentry, hpub, Option.map_some, Option.some.injEq]
  cases writer with
  | none =>
    have := h.first i _ hentry
    omega
  | some w =>
    have hw := h.writers i w _ hentry
    constructor
    · rintro ⟨⟩
      rfl
    · intro heq
      rw [identity_inj (by omega) (by omega) heq]

end

/-- The channel is cut where the log is. -/
theorem cutAt {k t : Nat} (hc : s.channel.CutBehind c' (path.drop (k + 1)) t) (ht : path[k]? = some t) :
    Refines { s with channel := c' } (log.cutAt k) (path.take (k + 1)) := by
  have hentry : ∀ {i : Nat} {x : Option Nat × V}, (log.entries.take (k + 1))[i]? = some x → log.entries[i]? = some x := by
    intro i x hi
    obtain ⟨hlt, -⟩ := List.getElem?_eq_some_iff.mp hi
    rw [List.length_take] at hlt
    rwa [List.getElem?_take_of_lt (by omega)] at hi
  have hcount : (log.cutAt k).readers.length = log.readers.length := List.length_map _
  refine ⟨hc.threaded h.threaded ht, h.carries.cut hc.keeps, ?_, ?_, ?_, ?_, ?_, ?_⟩
  · intro i v hi
    exact h.first i v (hentry hi)
  · intro i w v hi
    rw [hcount]
    exact h.writers i w v (hentry hi)
  · exact h.count.trans hcount.symm
  · rw [hcount]
    exact h.few
  · rw [hcount]
    exact hc.nextId_eq.trans h.nextId_eq
  · intro i endpoint hi
    obtain ⟨hid, n, place, hn, hplace, hs⟩ := h.endpoints i endpoint hi
    refine ⟨hid, n, place.cut k, hn, ?_, hc.standsAt h.threaded ht hs⟩
    change (log.readers.map (Place.cut k))[i]? = _
    rw [List.getElem?_map, hplace, Option.map_some]

theorem unwrite (hplace : log.readers[e]? = some place) (hd : place.displacement ≤ log.last) :
    ∃ s' path', s.perform (.unwrite e) = .ok ((log.perform (.unwrite e)).1, s') ∧
      Refines s' (log.perform (.unwrite e)).2 path' := by
  obtain ⟨n, hend, -, hs⟩ := h.endpoint_of hplace
  obtain ⟨hlt, -⟩ := List.getElem?_eq_some_iff.mp hplace
  have hlast := h.last_eq
  have hpos := h.threaded.pos
  obtain ⟨ev, hev, hdisplacement⟩ := hs.displacement h.threaded
  obtain ⟨k, hk⟩ : ∃ k, log.undoneTo e place.displacement = k := ⟨_, rfl⟩
  have hfound : k = (log.lastWrite e place.displacement).getD 0 - 1 := by
    rw [← hk, SharedLog.undoneTo]
    cases log.lastWrite e place.displacement with
    | none => rfl
    | some p => rfl
  obtain ⟨t, c', hrevert, ht, hc⟩ := h.threaded.revertEvent_spec (identity (some e))
    (fun i n ev hi hn hev => h.wrote_iff hlt hi hn hev) (show place.displacement < path.length by omega) hfound
  have hcut := h.cutAt hc ht
  have htail : (path.take (k + 1))[k]? = some t := by rw [List.getElem?_take_of_lt (Nat.lt_succ_self k), ht]
  have hstands := hc.standsAt h.threaded ht hs
  rw [System.perform, hend, SharedLog.perform_unwrite hplace hk]
  change ∃ s' path', (s.channel.load (some n) >>= _) = _ ∧ _
  rw [Channel.load, Option.bind_some, hev]
  change ∃ s' path', (s.channel.revertEvent (identity (some e)) ev.displacement >>= _) = _ ∧ _
  rw [hdisplacement, hrevert]
  change ∃ s' path', ({ s with channel := c' } : System V).visit e (some t) = _ ∧ _
  by_cases hon : place = .on k
  · subst hon
    obtain rfl : n = t := Option.some.inj (hs.symm.trans ht)
    rw [if_pos rfl]
    exact ⟨_, path.take (k + 1), visit_same hend, hcut⟩
  · have hne : n ≠ t := by
      rintro rfl
      cases place with
      | on p => exact hon (congrArg Place.on (h.threaded.unique hs ht))
      | off d l => exact hs.1 (List.mem_of_getElem? ht)
    obtain ⟨s', hvisit, hrefines⟩ := hcut.visit_ne hend htail hne
    rw [if_neg hon, ← htail]
    exact ⟨s', path.take (k + 1), hvisit, hrefines⟩

/-- Every operation that is supported has the result that it has on the log. -/
theorem perform {operation : Operation V} (hsupports : log.Supports operation) : ∃ s' path',
    s.perform operation = .ok ((log.perform operation).1, s') ∧ Refines s' (log.perform operation).2 path' := by
  cases operation with
  | newEndpoint => exact ⟨s.newEndpoint, path, rfl, h.newEndpoint hsupports⟩
  | clone e =>
    obtain ⟨⟨p, hp⟩, hfew⟩ := hsupports.of_clone
    obtain ⟨s', hclone, hrefines⟩ := h.clone hp hfew
    refine ⟨s', path, ?_, hrefines⟩
    rw [System.perform, hclone, SharedLog.perform, hp]
    rfl
  | appendValue e value =>
    obtain ⟨s', happend, hrefines⟩ := h.appendValue hsupports value
    exact ⟨s', _, happend, hrefines⟩
  | nextValue e =>
    obtain ⟨s', hnext, hrefines⟩ := h.nextValue hsupports
    exact ⟨s', path, hnext, hrefines⟩
  | unread e =>
    obtain ⟨s', hprevious, hrefines⟩ := h.unread hsupports
    exact ⟨s', path, hprevious, hrefines⟩
  | unwrite e =>
    obtain ⟨place, hplace, hd⟩ := hsupports.of_unwrite
    exact h.unwrite hplace hd
  | setToHead e =>
    obtain ⟨s', hset, hrefines⟩ := h.setToHead hsupports
    exact ⟨s', path, hset, hrefines⟩
  | setToTail e =>
    obtain ⟨s', hset, hrefines⟩ := h.setToTail hsupports
    exact ⟨s', path, hset, hrefines⟩

theorem run {operations : List (Operation V)} (hsupports : log.SupportsAll operations) : ∃ s' path',
    s.run operations = .ok ((log.run operations).1, s') ∧ Refines s' (log.run operations).2 path' := by
  induction operations generalizing s log path with
  | nil => exact ⟨s, path, rfl, h⟩
  | cons operation operations ih =>
    obtain ⟨hop, hops⟩ := hsupports
    obtain ⟨s₁, path₁, hperform, h₁⟩ := h.perform hop
    obtain ⟨s₂, path₂, hrun, h₂⟩ := ih h₁ hops
    refine ⟨s₂, path₂, ?_, h₂⟩
    rw [System.run, hperform]
    change (s₁.run operations >>= _) = _
    rw [hrun]
    rfl

end Refines

/-- In the beginning there is the default value, and no endpoint. -/
theorem refines_create (default : V) : Refines (System.create default) (SharedLog.initial default) [0] := by
  refine ⟨⟨rfl, rfl, ?_, ?_, ?_⟩, ⟨rfl, ?_⟩, ?_, ?_, rfl, Nat.zero_le _, rfl, ?_⟩
  · rintro (_ | i) n hi
    · obtain rfl := Option.some.inj hi
      exact ⟨_, rfl, rfl, rfl, rfl, rfl⟩
    · cases hi
  · rintro (_ | n) e he hn
    · exact absurd List.mem_cons_self hn
    · cases he
  · rintro (_ | n) e he
    · obtain rfl := Option.some.inj he
      exact Nat.le_refl 0
    · cases he
  · rintro (_ | i) n hi
    · obtain rfl := Option.some.inj hi
      exact ⟨_, none, rfl, rfl, rfl⟩
    · cases hi
  · rintro (_ | i) v hi
    · rfl
    · cases hi
  · rintro (_ | i) w v hi
    · cases hi
    · cases hi
  · intro i endpoint hi
    cases hi

end Pepp.Broadcast

/-! ## Runs of the channel

The channel is related to the shared log when it is new, and every operation that is supported keeps that. -/

namespace Pepp.Broadcast

open SharedLog

variable {V : Type}

/-- In a run of supported operations nothing fails, the results are those of the shared log, and the events from head
to tail are its entries. The log starts with the default value, gives its entries in order to a reader that reads on,
and takes back the last write with all that came later; a reader is on the log after each of its operations. -/
theorem run_isSharedLog (default : V) (operations : List (Operation V))
    (hsupports : (SharedLog.initial default).SupportsAll operations) :
    ∃ (s : System V) (log : SharedLog V) (path : List Nat),
      (System.create default).run operations = .ok (((SharedLog.initial default).run operations).1, s) ∧
      ((SharedLog.initial default).run operations).2 = log ∧ Refines s log path ∧
      log.entries[0]? = some (none, default) ∧
      (∀ e p, log.readers[e]? = some (.on p) → ∀ n, p + n ≤ log.last →
        (log.run (List.replicate n (.nextValue e))).1 = ((log.entries.drop (p + 1)).take n).map fun entry => some entry.2) ∧
      (∀ e p, log.readers[e]? = some (.on p) → p < log.last →
        ((log.perform (.nextValue e)).2.perform (.unread e)).2 = log) ∧
      (∀ e place p, log.readers[e]? = some place → log.lastWrite e place.displacement = some p →
        (log.perform (.unwrite e)).2.entries = log.entries.take p) ∧
      ∀ operation, log.Supports operation →
        (∃ s' path', s.perform operation = .ok ((log.perform operation).1, s') ∧
          Refines s' (log.perform operation).2 path') ∧
        ∀ e, operation.endpoint? = some e → ∃ p, (log.perform operation).2.readers[e]? = some (.on p) := by
  obtain ⟨s, path, hrun, hrefines⟩ := (refines_create default).run hsupports
  have hfirst : ((SharedLog.initial default).run operations).2.entries[0]? = some (none, default) := run_first operations rfl
  refine ⟨s, _, path, hrun, rfl, hrefines, hfirst, ?_, ?_, ?_, ?_⟩
  · intro e p hp n hn
    exact run_reads hp hn
  · intro e p hp hlt
    exact unread_next hp hlt
  · intro e place p hplace hwrite
    refine unwrite_entries hplace hwrite ?_
    rcases Nat.eq_zero_or_pos p with rfl | hpos
    · obtain ⟨-, hwriter, -⟩ := lastWrite_spec hwrite
      rw [hfirst] at hwriter
      cases hwriter
    · exact hpos
  · intro operation hop
    exact ⟨hrefines.perform hop, fun e he => perform_on hop he⟩

/-- Two writers that take back their writes, one after the other. -/
theorem run_isSharedLog_two : ∃ s : System Nat, (System.create 1).run [.newEndpoint, .newEndpoint, .appendValue 0 7,
    .nextValue 1, .appendValue 0 8, .unwrite 0, .appendValue 1 9, .clone 1, .unread 0, .unwrite 1, .nextValue 2] =
    .ok ([none, none, none, some 7, none, some 7, none, none, some 1, some 7, some 7], s) := by
  obtain ⟨s, -, -, hrun, -⟩ := run_isSharedLog 1 [.newEndpoint, .newEndpoint, .appendValue 0 7, .nextValue 1,
    .appendValue 0 8, .unwrite 0, .appendValue 1 9, .clone 1, .unread 0, .unwrite 1, .nextValue 2] (by decide +kernel)
  exact ⟨s, hrun⟩

/-- A reader on an event that its writer takes back cannot take back a write of its own. -/
theorem run_unwrite_fails : (System.create 0).run [.newEndpoint, .newEndpoint, .appendValue 0 7, .nextValue 1,
    .unwrite 0, .unwrite 1] = .error .nullDereference :=
  rfl

end Pepp.Broadcast
