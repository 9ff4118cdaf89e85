import Pepp.Broadcast.Channel

/-!
# Reverting a write

An appended event makes the path one longer. All else stands where it stood.
-/

namespace Pepp.Broadcast

namespace Channel

variable {V : Type} {c c' : Channel V} {path : List Nat} {i n l : Nat}

/-- `c'` is `c` with the event `new` behind the tail. -/
structure Appended (c c' : Channel V) (new : Event V) : Prop where
  old : ∀ n, n < c.events.length → c'.events[n]? = (c.events[n]?).map fun e =>
    if c.tail = n then { e with nextNode := some c.events.length } else e
  fresh : c'.events[c.events.length]? = some new
  length_eq : c'.events.length = c.events.length + 1
  head_eq : c'.head = c.head
  tail_eq : c'.tail = c.events.length
  nextId_eq : c'.nextId = c.nextId

namespace Threaded

variable (h : Threaded c path)
include h

theorem appendEvent_spec (publisher : U16) (value : V) : ∃ c' : Channel V,
    c.appendEvent publisher value = .ok (some c.events.length, c') ∧
    Appended c c' ⟨value, publisher, false, none, some c.tail, path.length⟩ := by
  obtain ⟨e, hload, -, -, hd, -⟩ := h.load_on h.tail_eq
  have hpos := h.pos
  have hdisplacement : e.displacement + 1 = path.length := by omega
  refine ⟨{ c with
    events := c.events.modify c.tail (fun tail => { tail with nextNode := some c.events.length }) ++
      [⟨value, publisher, false, none, some c.tail, path.length⟩],
    tail := c.events.length }, ?_, ?_⟩
  · rw [appendEvent, hload, ← hdisplacement]
    rfl
  · constructor
    · intro n hn
      rw [List.getElem?_append_left (by rwa [List.length_modify]), List.getElem?_modify]
      rfl
    · rw [List.getElem?_append_right (by rw [List.length_modify]), List.length_modify, Nat.sub_self]
      rfl
    · simp
    all_goals rfl

theorem ne_tail (hn : n ∉ path) : c.tail ≠ n := by
  rintro rfl
  exact hn (List.mem_of_getElem? h.tail_eq)

end Threaded

theorem path_left (m : Nat) (hi : path[i]? = some n) : (path ++ [m])[i]? = some n := by
  obtain ⟨hlt, -⟩ := List.getElem?_eq_some_iff.mp hi
  rw [List.getElem?_append_left hlt, hi]

namespace Appended

variable {new : Event V} (ha : Appended c c' new)
include ha

theorem keeps : Keeps c c' := by
  intro n e he
  obtain ⟨hlt, -⟩ := List.getElem?_eq_some_iff.mp he
  rw [ha.old n hlt, he]
  by_cases htail : c.tail = n
  · exact ⟨{ e with nextNode := some c.events.length }, by rw [Option.map_some, if_pos htail], rfl, rfl, rfl⟩
  · exact ⟨e, by rw [Option.map_some, if_neg htail], rfl, rfl, rfl⟩

theorem off_tail (hn : c.tail ≠ n) {e : Event V} (he : c.events[n]? = some e) : c'.events[n]? = some e := by
  obtain ⟨hlt, -⟩ := List.getElem?_eq_some_iff.mp he
  rw [ha.old n hlt, he, Option.map_some, if_neg hn]

variable (h : Threaded c path)
include h

theorem on_old (hi : path[i]? = some n) : ∃ e : Event V, c'.events[n]? = some e ∧ e.empty = false ∧
    e.displacement = i ∧ e.nextNode = (path ++ [c.events.length])[i + 1]? ∧
    e.prevNode = if i = 0 then none else (path ++ [c.events.length])[i - 1]? := by
  obtain ⟨hlt, -⟩ := List.getElem?_eq_some_iff.mp hi
  obtain ⟨e, he, hempty, hd, hnext, hprev⟩ := h.on i n hi
  have hbefore : (path ++ [c.events.length])[i - 1]? = path[i - 1]? := List.getElem?_append_left (by omega)
  rw [← hbefore] at hprev
  obtain ⟨hbound, -⟩ := List.getElem?_eq_some_iff.mp he
  by_cases htail : c.tail = n
  · obtain rfl : i = path.length - 1 := h.unique hi (htail ▸ h.tail_eq)
    refine ⟨{ e with nextNode := some c.events.length }, ?_, hempty, hd, ?_, hprev⟩
    · rw [ha.old n hbound, he, Option.map_some, if_pos htail]
    · rw [Nat.sub_add_cancel h.pos, List.getElem?_concat_length]
  · refine ⟨e, ha.off_tail htail he, hempty, hd, ?_, hprev⟩
    have hlast : i ≠ path.length - 1 := by
      rintro rfl
      exact htail (Option.some.inj (h.tail_eq.symm.trans hi))
    rw [hnext, List.getElem?_append_left (by omega)]

theorem threaded (hnew : new.empty = false ∧ new.nextNode = none ∧ new.prevNode = some c.tail ∧
    new.displacement = path.length) : Threaded c' (path ++ [c.events.length]) := by
  have hpos := h.pos
  constructor
  · rw [ha.head_eq, List.getElem?_append_left hpos, h.head_eq]
  · rw [ha.tail_eq, List.length_append, List.length_singleton, Nat.add_sub_cancel, List.getElem?_concat_length]
  · intro i n hi
    rcases getElem?_concat_cases hi with hold | ⟨rfl, rfl⟩
    · exact ha.on_old h hold
    · obtain ⟨hempty, hnext, hprev, hd⟩ := hnew
      refine ⟨new, ha.fresh, hempty, hd, ?_, ?_⟩
      · rw [hnext, List.getElem?_eq_none (by simp)]
      · rw [hprev, if_neg (by omega), List.getElem?_append_left (by omega), h.tail_eq]
  · intro n e he hn
    rw [List.mem_append, List.mem_singleton, not_or] at hn
    obtain ⟨hn, hfresh⟩ := hn
    obtain ⟨hlt, -⟩ := List.getElem?_eq_some_iff.mp he
    have hlen := ha.length_eq
    obtain ⟨e', he'⟩ : ∃ e', c.events[n]? = some e' := ⟨_, List.getElem?_eq_getElem (by omega)⟩
    obtain rfl := Option.some.inj (he.symm.trans (ha.off_tail (h.ne_tail hn) he'))
    obtain ⟨hempty, m, em, hnext, hprev, hem, hless⟩ := h.off n e he' hn
    obtain ⟨em', hem', -, -, hd⟩ := ha.keeps m em hem
    exact ⟨hempty, m, em', hnext, hprev, hem', by omega⟩
  · intro n e he
    obtain ⟨hlt, -⟩ := List.getElem?_eq_some_iff.mp he
    have hlen := ha.length_eq
    have hle := h.length_le
    rcases Nat.lt_or_eq_of_le (Nat.le_of_lt_succ (hlen ▸ hlt)) with hold | rfl
    · obtain ⟨e', he'⟩ : ∃ e', c.events[n]? = some e' := ⟨_, List.getElem?_eq_getElem hold⟩
      obtain ⟨e'', he'', -, -, hd⟩ := ha.keeps n e' he'
      obtain rfl := Option.some.inj (he.symm.trans he'')
      exact hd ▸ h.bound n e' he'
    · obtain rfl := Option.some.inj (he.symm.trans ha.fresh)
      omega

theorem lands (hl : Lands c path n l) : Lands c' (path ++ [c.events.length]) n l := by
  induction hl with
  | here hl => exact .here (path_left _ hl)
  | @redirected n m l e he hn hnext hland ih =>
    refine .redirected (ha.off_tail (h.ne_tail hn) he) ?_ hnext ih
    obtain ⟨hlt, -⟩ := List.getElem?_eq_some_iff.mp he
    rw [List.mem_append, List.mem_singleton, not_or]
    exact ⟨hn, by omega⟩

theorem standsAt {place : Place} (hs : StandsAt c path n place) : StandsAt c' (path ++ [c.events.length]) n place := by
  cases place with
  | on p => exact path_left _ hs
  | off d l =>
    obtain ⟨hn, ⟨e, he, hd⟩, hl⟩ := hs
    obtain ⟨e', he', -, -, hd'⟩ := ha.keeps n e he
    obtain ⟨hlt, -⟩ := List.getElem?_eq_some_iff.mp he
    refine ⟨?_, ⟨e', he', hd'.trans hd⟩, ha.lands h hl⟩
    rw [List.mem_append, List.mem_singleton, not_or]
    exact ⟨hn, by omega⟩

end Appended

end Channel

end Pepp.Broadcast

/-! ## Reverting a write

A revert keeps a first part of the path. The events behind it leave the path and
land on its new end, and so does what landed on them. -/

namespace Pepp.Broadcast

/-- An empty event whose links both lead to `t`. -/
def Event.backTo {V : Type} (t : Nat) (e : Event V) : Event V :=
  { e with prevNode := some t, nextNode := some t, empty := true }

namespace Channel

variable {V : Type} {c c' : Channel V} {path : List Nat} {i n d k l t : Nat}

/-- What `revert_event` makes of an event, if the events `gone` lie behind the new tail `t`. -/
def redirect (gone : List Nat) (t n : Nat) (e : Event V) : Event V :=
  if n ∈ gone then e.backTo t else if t = n then { e with nextNode := none } else e

/-- `c'` is `c` without the events `gone`, with the tail `t`. -/
structure CutBehind (c c' : Channel V) (gone : List Nat) (t : Nat) : Prop where
  events_eq : ∀ n : Nat, c'.events[n]? = (c.events[n]?).map (redirect gone t n)
  head_eq : c'.head = c.head
  tail_eq : c'.tail = t
  nextId_eq : c'.nextId = c.nextId

namespace Threaded

variable (h : Threaded c path)
include h

/-- The search goes back to the last event of the publisher, or to the head. -/
theorem findWrite_spec {publisher : U16} {wrote : Nat → Bool} (fuel : Nat)
    (hwrote : ∀ i n (e : Event V), 0 < i → path[i]? = some n → c.events[n]? = some e →
      (wrote i = true ↔ e.publisher = publisher)) (hd : d < path.length) (hfuel : d < fuel) :
    c.findWrite publisher fuel path[d]? = .ok path[((List.range (d + 1)).reverse.find? wrote).getD 0]? := by
  induction d generalizing fuel with
  | zero =>
    obtain ⟨fuel, rfl⟩ : ∃ f, fuel = f + 1 := ⟨fuel - 1, by omega⟩
    obtain ⟨e, hload, -, -, -, -, hprev⟩ := h.load_on h.head_eq
    have hfound : ((List.range (0 + 1)).reverse.find? wrote).getD 0 = 0 := by
      cases hw : wrote 0 <;> simp [hw]
    rw [hfound, h.head_eq, findWrite, hload]
    change (if e.prevNode.isSome ∧ e.publisher ≠ publisher then c.findWrite publisher fuel e.prevNode
      else .ok (some c.head)) = _
    rw [hprev, if_neg (by simp)]
  | succ d ih =>
    obtain ⟨fuel, rfl⟩ : ∃ f, fuel = f + 1 := ⟨fuel - 1, by omega⟩
    obtain ⟨n, hn⟩ : ∃ n, path[d + 1]? = some n := ⟨_, List.getElem?_eq_getElem hd⟩
    obtain ⟨m, hm⟩ : ∃ m, path[d]? = some m := ⟨_, List.getElem?_eq_getElem (by omega)⟩
    obtain ⟨e, hload, he, -, -, -, hprev⟩ := h.load_on hn
    rw [if_neg (by omega), Nat.add_sub_cancel] at hprev
    have hiff := hwrote (d + 1) n e (by omega) hn he
    rw [List.range_succ, List.reverse_concat, List.find?_cons, hn, findWrite, hload]
    change (if e.prevNode.isSome ∧ e.publisher ≠ publisher then c.findWrite publisher fuel e.prevNode
      else .ok (some n)) = _
    rw [hprev]
    cases hw : wrote (d + 1) with
    | true =>
      rw [if_neg (fun hc => hc.2 (hiff.mp hw))]
      exact congrArg _ hn.symm
    | false =>
      have hne : e.publisher ≠ publisher := fun heq => by
        rw [hiff.mpr heq] at hw
        cases hw
      rw [if_pos ⟨by rw [hm]; rfl, hne⟩]
      exact ih fuel (by omega) (by omega)

end Threaded

theorem mem_drop_iff {j : Nat} : n ∈ path.drop j ↔ ∃ i, j ≤ i ∧ path[i]? = some n := by
  rw [List.mem_iff_getElem?]
  constructor
  · rintro ⟨i, hi⟩
    rw [List.getElem?_drop] at hi
    exact ⟨j + i, Nat.le_add_right j i, hi⟩
  · rintro ⟨i, hji, hi⟩
    refine ⟨i - j, ?_⟩
    rw [List.getElem?_drop, Nat.add_sub_cancel' hji, hi]

theorem mem_take_iff : n ∈ path.take (k + 1) ↔ ∃ i, i ≤ k ∧ path[i]? = some n := by
  rw [List.mem_iff_getElem?]
  constructor
  · rintro ⟨i, hi⟩
    obtain ⟨hlt, -⟩ := List.getElem?_eq_some_iff.mp hi
    rw [List.length_take] at hlt
    rw [List.getElem?_take_of_lt (by omega)] at hi
    exact ⟨i, by omega, hi⟩
  · rintro ⟨i, hik, hi⟩
    exact ⟨i, by rw [List.getElem?_take_of_lt (by omega), hi]⟩

/-- The loop redirects all events of the path from its `j`-th on. -/
theorem fixup_spec {s : Channel V} {j : Nat} (fuel : Nat) (hnodup : path.Nodup)
    (hlinks : ∀ i n, j ≤ i → path[i]? = some n → ∃ e : Event V, s.events[n]? = some e ∧ e.nextNode = path[i + 1]?)
    (hfuel : path.length ≤ j + fuel) : ∃ s' : Channel V, fixup (some t) fuel path[j]? s = .ok s' ∧
      (∀ n : Nat, s'.events[n]? = (s.events[n]?).map fun e => if n ∈ path.drop j then e.backTo t else e) ∧
      s'.head = s.head ∧ s'.nextId = s.nextId := by
  induction fuel generalizing j s with
  | zero =>
    have hend : path[j]? = none := List.getElem?_eq_none hfuel
    have hgone : path.drop j = [] := List.drop_eq_nil_of_le hfuel
    rw [hend, hgone]
    exact ⟨s, by rw [fixup], by simp, rfl, rfl⟩
  | succ fuel ih =>
    rcases Nat.lt_or_ge j path.length with hj | hj
    · obtain ⟨n, hn⟩ : ∃ n, path[j]? = some n := ⟨_, List.getElem?_eq_getElem hj⟩
      obtain ⟨e, he, hnext⟩ := hlinks j n (Nat.le_refl j) hn
      have hdrop : path.drop j = n :: path.drop (j + 1) := by
        rw [List.drop_eq_getElem_cons hj, (List.getElem?_eq_some_iff.mp hn).2]
      have hnotin : n ∉ path.drop (j + 1) := by
        have hrest := hnodup.sublist (List.drop_sublist j path)
        rw [hdrop, List.nodup_cons] at hrest
        exact hrest.1
      have hredirect : ∀ m : Nat, (s.events.modify n (Event.backTo t))[m]? =
          (s.events[m]?).map fun em => if n = m then em.backTo t else em := fun m => List.getElem?_modify ..
      have hrest : ∀ i m, j + 1 ≤ i → path[i]? = some m → ∃ em : Event V,
          (s.events.modify n (Event.backTo t))[m]? = some em ∧ em.nextNode = path[i + 1]? := by
        intro i m hi hm
        have hne : n ≠ m := by
          rintro rfl
          exact hnotin (mem_drop_iff.mpr ⟨i, hi, hm⟩)
        obtain ⟨em, hem, hlink⟩ := hlinks i m (by omega) hm
        exact ⟨em, by rw [hredirect, hem, Option.map_some, if_neg hne], hlink⟩
      obtain ⟨s', hs', hevents, hhead, hid⟩ := ih (s := { s with events := s.events.modify n (Event.backTo t) })
        hrest (by omega)
      refine ⟨s', ?_, ?_, hhead, hid⟩
      · rw [← hs', hn, fixup, load, Option.bind_some, he, ← hnext]
        rfl
      · intro m
        rw [hevents, hredirect, hdrop, Option.map_map]
        congr 1
        funext em
        by_cases hm : n = m
        · subst hm
          rw [Function.comp_apply, if_neg hnotin, if_pos rfl, if_pos List.mem_cons_self]
        · have hiff : m ∈ n :: path.drop (j + 1) ↔ m ∈ path.drop (j + 1) := by
            rw [List.mem_cons, or_iff_right (Ne.symm hm)]
          rw [Function.comp_apply, if_neg hm]
          exact (if_congr hiff rfl rfl).symm
    · have hend : path[j]? = none := List.getElem?_eq_none hj
      have hgone : path.drop j = [] := List.drop_eq_nil_of_le hj
      rw [hend, hgone]
      exact ⟨s, by rw [fixup], by simp, rfl, rfl⟩

namespace Threaded

variable (h : Threaded c path)
include h

theorem notMem_gone (hi : path[i]? = some n) (hik : i ≤ k) : n ∉ path.drop (k + 1) := by
  intro hmem
  obtain ⟨j, hj, hn⟩ := mem_drop_iff.mp hmem
  have := h.unique hi hn
  omega

/-- From a write, the revert goes back one more event. -/
theorem back_spec {j : Nat} (hj : j < path.length) : j = 0 ∧ path[j]? = some c.head ∨
    path[j]? ≠ some c.head ∧ ∃ e : Event V, c.load path[j]? = .ok e ∧ e.prevNode = path[j - 1]? := by
  rcases Nat.eq_zero_or_pos j with rfl | hpos
  · exact Or.inl ⟨rfl, h.head_eq⟩
  · obtain ⟨n, hn⟩ : ∃ n, path[j]? = some n := ⟨_, List.getElem?_eq_getElem hj⟩
    obtain ⟨e, hload, -, -, -, -, hprev⟩ := h.load_on hn
    rw [if_neg (by omega)] at hprev
    refine Or.inr ⟨fun heq => ?_, e, by rw [hn, hload], hprev⟩
    have := h.unique heq h.head_eq
    omega

/-- The events behind the one in front of the publisher's last write are cut off. -/
theorem revertEvent_spec (publisher : U16) {wrote : Nat → Bool}
    (hwrote : ∀ i n (e : Event V), 0 < i → path[i]? = some n → c.events[n]? = some e →
      (wrote i = true ↔ e.publisher = publisher)) (hd : d < path.length)
    (hk : k = ((List.range (d + 1)).reverse.find? wrote).getD 0 - 1) :
    ∃ t c', c.revertEvent publisher d = .ok (some t, c') ∧ path[k]? = some t ∧ CutBehind c c' (path.drop (k + 1)) t := by
  have hle := h.length_le
  have hfind := h.findWrite_spec c.events.length hwrote hd (by omega)
  have hjd : ((List.range (d + 1)).reverse.find? wrote).getD 0 ≤ d := by
    cases hj : (List.range (d + 1)).reverse.find? wrote with
    | none => exact Nat.zero_le d
    | some j =>
      have hmem := List.mem_of_find?_eq_some hj
      rw [List.mem_reverse, List.mem_range] at hmem
      exact Nat.le_of_lt_succ hmem
  generalize ((List.range (d + 1)).reverse.find? wrote).getD 0 = j at hk hfind hjd
  obtain ⟨t, ht⟩ : ∃ t, path[k]? = some t := ⟨_, List.getElem?_eq_getElem (by omega)⟩
  obtain ⟨e, hload, -, -, -, hnext, -⟩ := h.load_on ht
  have hlinks : ∀ i n, k + 1 ≤ i → path[i]? = some n → ∃ e : Event V, c.events[n]? = some e ∧
      e.nextNode = path[i + 1]? := by
    intro i n _ hi
    obtain ⟨e, -, he, -, -, hnext, -⟩ := h.load_on hi
    exact ⟨e, he, hnext⟩
  obtain ⟨s, hs, hevents, hhead, hid⟩ := fixup_spec (t := t) c.events.length h.nodup hlinks (by omega)
  refine ⟨t, { s with events := s.events.modify t fun event => { event with nextNode := none }, tail := t }, ?_, ht,
    ?_, hhead, rfl, hid⟩
  · rw [revertEvent, h.eventAt_spec hd]
    change (c.findWrite publisher c.events.length path[d]? >>= _) = _
    rw [hfind]
    have hcut : (fixup path[k]? c.events.length e.nextNode c >>= fun self => .ok (path[k]?, { self with
          events := self.events.modify t fun event => { event with nextNode := none }, tail := t })) =
        .ok (some t, { s with events := s.events.modify t fun event => { event with nextNode := none }, tail := t }) := by
      rw [hnext, ht, hs]
      rfl
    rcases h.back_spec (j := j) (by omega) with ⟨rfl, hj⟩ | ⟨hj, e', hload', hprev⟩
    · change (if path[0]? ≠ some c.head then _ else c.load path[0]? >>= _) = _
      rw [Nat.zero_sub] at hk
      rw [if_neg (not_not.mpr hj), ← hk, ht, hload, ← hcut, ht]
      rfl
    · change (if path[j]? ≠ some c.head then (Event.prevNode <$> c.load path[j]?) >>= _ else _) = _
      rw [if_pos hj, hload']
      change (c.load e'.prevNode >>= _) = _
      rw [hprev, ← hk, ht, hload, ← hcut, ht]
      rfl
  · intro n
    have hmod : (s.events.modify t fun event => { event with nextNode := none })[n]? =
        (s.events[n]?).map fun event => if t = n then { event with nextNode := none } else event := List.getElem?_modify ..
    change (s.events.modify t fun event => { event with nextNode := none })[n]? = _
    rw [hmod, hevents, Option.map_map]
    congr 1
    funext event
    rw [Function.comp_apply, redirect]
    by_cases htn : t = n
    · subst htn
      rw [if_pos rfl, if_neg (h.notMem_gone ht (Nat.le_refl k)), if_pos rfl, if_neg (h.notMem_gone ht (Nat.le_refl k))]
    · rw [if_neg htn, if_neg htn]

end Threaded

namespace CutBehind

variable (hc : CutBehind c c' (path.drop (k + 1)) t)
include hc

theorem keeps : Keeps c c' := by
  intro n e he
  refine ⟨redirect (path.drop (k + 1)) t n e, by rw [hc.events_eq, he, Option.map_some], ?_⟩
  rw [redirect]
  split_ifs <;> exact ⟨rfl, rfl, rfl⟩

theorem events_of {e' : Event V} (he : c'.events[n]? = some e') : ∃ e : Event V, c.events[n]? = some e ∧
    e' = redirect (path.drop (k + 1)) t n e := by
  rw [hc.events_eq, Option.map_eq_some_iff] at he
  obtain ⟨e, he, rfl⟩ := he
  exact ⟨e, he, rfl⟩

variable (h : Threaded c path) (ht : path[k]? = some t)
include h ht

theorem threaded : Threaded c' (path.take (k + 1)) := by
  obtain ⟨hkl, -⟩ := List.getElem?_eq_some_iff.mp ht
  have hlen : (path.take (k + 1)).length = k + 1 := by rw [List.length_take]; omega
  constructor
  · rw [hc.head_eq, List.getElem?_take_of_lt (by omega), h.head_eq]
  · rw [hc.tail_eq, hlen, Nat.add_sub_cancel, List.getElem?_take_of_lt (by omega), ht]
  · intro i n hi
    obtain ⟨hlt, -⟩ := List.getElem?_eq_some_iff.mp hi
    rw [List.getElem?_take_of_lt (by omega)] at hi
    obtain ⟨e, he, hempty, hd, hnext, hprev⟩ := h.on i n hi
    have hnot : n ∉ path.drop (k + 1) := h.notMem_gone hi (by omega)
    have hbefore : (path.take (k + 1))[i - 1]? = path[i - 1]? := List.getElem?_take_of_lt (by omega)
    rw [hbefore, hc.events_eq, he, Option.map_some, redirect, if_neg hnot]
    by_cases htn : t = n
    · rw [if_pos htn]
      refine ⟨_, rfl, hempty, hd, ?_, hprev⟩
      obtain rfl : i = k := h.unique hi (htn ▸ ht)
      exact (List.getElem?_eq_none (Nat.le_of_eq hlen)).symm
    · rw [if_neg htn]
      refine ⟨e, rfl, hempty, hd, ?_, hprev⟩
      have hik : i ≠ k := by
        rintro rfl
        exact htn (Option.some.inj (ht.symm.trans hi))
      rw [hnext, List.getElem?_take_of_lt (by omega)]
  · intro n e' he' hn
    obtain ⟨e, he, rfl⟩ := hc.events_of he'
    obtain ⟨et, het, -, hdt, -⟩ := h.on k t ht
    obtain ⟨et', het', -, -, hdt'⟩ := hc.keeps t et het
    have hne : t ≠ n := by
      rintro rfl
      exact hn (mem_take_iff.mpr ⟨k, Nat.le_refl k, ht⟩)
    rw [redirect]
    by_cases hgone : n ∈ path.drop (k + 1)
    · rw [if_pos hgone]
      obtain ⟨i, hi, hpath⟩ := mem_drop_iff.mp hgone
      obtain ⟨e'', he'', -, hd, -⟩ := h.on i n hpath
      obtain rfl := Option.some.inj (he.symm.trans he'')
      exact ⟨rfl, t, et', rfl, rfl, het', by change et'.displacement < e.displacement; omega⟩
    · rw [if_neg hgone, if_neg hne]
      have hoff : n ∉ path := by
        rw [← List.take_append_drop (k + 1) path, List.mem_append, not_or]
        exact ⟨hn, hgone⟩
      obtain ⟨hempty, m, em, hnext, hprev, hem, hlt⟩ := h.off n e he hoff
      obtain ⟨em', hem', -, -, hd⟩ := hc.keeps m em hem
      exact ⟨hempty, m, em', hnext, hprev, hem', by omega⟩
  · intro n e' he'
    obtain ⟨e, he, rfl⟩ := hc.events_of he'
    have hbound := h.bound n e he
    rw [redirect]
    split_ifs <;> exact hbound

/-- An event leads to where it led, or to the new tail. -/
theorem lands (hl : Lands c path n l) : Lands c' (path.take (k + 1)) n (min l k) := by
  have htail : Lands c' (path.take (k + 1)) t k := .here (by rw [List.getElem?_take_of_lt (by omega), ht])
  induction hl with
  | @here n l hl =>
    rcases Nat.lt_or_ge k l with hlt | hle
    · rw [Nat.min_eq_right (Nat.le_of_lt hlt)]
      obtain ⟨e, he, -⟩ := h.on l n hl
      have hgone : n ∈ path.drop (k + 1) := mem_drop_iff.mpr ⟨l, hlt, hl⟩
      refine .redirected (e := e.backTo t) ?_ ?_ rfl htail
      · rw [hc.events_eq, he, Option.map_some, redirect, if_pos hgone]
      · intro hmem
        obtain ⟨i, hi, hn⟩ := mem_take_iff.mp hmem
        have := h.unique hn hl
        omega
    · rw [Nat.min_eq_left hle]
      exact .here (by rw [List.getElem?_take_of_lt (by omega), hl])
  | @redirected n m l e he hn hnext _ ih =>
    have hgone : n ∉ path.drop (k + 1) := fun hmem => hn (List.mem_of_mem_drop hmem)
    have hne : t ≠ n := by
      rintro rfl
      exact hn (List.mem_of_getElem? ht)
    refine .redirected (e := e) ?_ (fun hmem => hn (List.mem_of_mem_take hmem)) hnext ih
    rw [hc.events_eq, he, Option.map_some, redirect, if_neg hgone, if_neg hne]

theorem standsAt {place : Place} (hs : StandsAt c path n place) : StandsAt c' (path.take (k + 1)) n (place.cut k) := by
  cases place with
  | on p =>
    rw [Place.cut]
    split
    · next hpk => exact (List.getElem?_take_of_lt (by omega)).trans hs
    · next hpk =>
      obtain ⟨e, he, -, hd, -⟩ := h.on p n hs
      obtain ⟨e', he', -, -, hd'⟩ := hc.keeps n e he
      refine ⟨?_, ⟨e', he', by omega⟩, ?_⟩
      · intro hmem
        obtain ⟨i, hi, hn⟩ := mem_take_iff.mp hmem
        have := h.unique hn hs
        omega
      · have hland := hc.lands h ht (.here hs)
        rwa [Nat.min_eq_right (by omega)] at hland
  | off d l =>
    obtain ⟨hn, ⟨e, he, hd⟩, hl⟩ := hs
    obtain ⟨e', he', -, -, hd'⟩ := hc.keeps n e he
    exact ⟨fun hmem => hn (List.mem_of_mem_take hmem), ⟨e', he', hd'.trans hd⟩, hc.lands h ht hl⟩

end CutBehind

end Channel

end Pepp.Broadcast
