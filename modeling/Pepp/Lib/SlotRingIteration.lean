import Pepp.Lib.SlotRing

/-!
# Iterating over a ring of slots

Positions are counted from the first entry of slot zero. Stepping from the tail
visits every position up to the one the cursor names, in both directions; what
the cursor names is the end of the taken entries only while the ring has room.
-/

namespace SlotRing

variable {D : Type}

/-- The positions an iterator goes through from `p` until it equals `stop`. -/
def forward (next : Position → Position) (stop : Position) : Nat → Position → Option (List Position)
  | 0, p => if p = stop then some [] else none
  | n + 1, p => if p = stop then some [] else (forward next stop n (next p)).map (p :: ·)

/-- The positions a reverse iterator goes through: it steps before it looks. -/
def backward (prev : Position → Position) (stop : Position) : Nat → Position → Option (List Position)
  | 0, p => if p = stop then some [] else none
  | n + 1, p => if p = stop then some [] else (backward prev stop n (prev p)).map (prev p :: ·)

section Definitions

variable (cap : Nat) (r : SlotRing D)

/-- How many entries of a slot can be read: none once another slot took its node. -/
def countAt (s : Nat) : Nat := if r.slot (r.node s) = some s then r.count (r.node s) else 0

def cursor : Position := ⟨r.head, r.count (r.node r.head)⟩

def first : Position := ⟨r.tail, 0⟩

def next (p : Position) : Position :=
  if r.countAt p.slot ≤ p.entry + 1 ∧ p.slot < r.head then ⟨p.slot + 1, 0⟩ else ⟨p.slot, p.entry + 1⟩

def prev (p : Position) : Position :=
  if 0 < p.entry then ⟨p.slot, p.entry - 1⟩
  else if p.slot = 0 then p
  else if r.countAt (p.slot - 1) = 0 then p
  else ⟨p.slot - 1, r.countAt (p.slot - 1) - 1⟩

/-- The `k`-th position of the sequence. -/
def position (k : Nat) : Position := ⟨k / cap, k % cap⟩

/-- How many positions come before a position. -/
def rank (p : Position) : Nat := cap * p.slot + p.entry

/-- How many entries were ever taken. -/
def taken : Nat := cap * r.head + r.countAt r.head

/-- How many positions come before the cursor. -/
def span : Nat := cap * r.head + r.count (r.node r.head)

/-- The positions with ranks from `a` to `b`. -/
def positions (a b : Nat) : List Position := (List.range' a (b - a)).map (position cap)

/-- The iterator after `k` positions. -/
def iterator (k : Nat) : Position := if k < span cap r then position cap k else r.cursor

end Definitions

variable {cap : Nat} {r : SlotRing D}

theorem position_rank {p : Position} (h : p.entry < cap) : position cap (rank cap p) = p := by
  have hpos : 0 < cap := by omega
  cases p
  simp [position, rank, Nat.mul_add_div hpos, Nat.div_eq_of_lt h, Nat.mod_eq_of_lt h]

theorem position_add {s e : Nat} (h : e < cap) : position cap (cap * s + e) = ⟨s, e⟩ := position_rank (p := ⟨s, e⟩) h

theorem positions_cons {a b : Nat} (h : a < b) : positions cap a b = position cap a :: positions cap (a + 1) b := by
  rw [positions, show b - a = (b - (a + 1)) + 1 by omega, List.range'_succ, List.map_cons]
  rfl

theorem positions_snoc {a b : Nat} (h : a ≤ b) : positions cap a (b + 1) = positions cap a b ++ [position cap b] := by
  rw [positions, show b + 1 - a = (b - a) + 1 by omega, List.range'_concat, List.map_append]
  simp [positions, show a + (b - a) = b by omega]

theorem forward_unique {next : Position → Position} {stop p : Position} {n m : Nat} {l l' : List Position}
    (h : forward next stop n p = some l) (h' : forward next stop m p = some l') : l = l' := by
  induction n generalizing m p l l' with
  | zero =>
    simp only [forward, Option.ite_none_right_eq_some, Option.some.injEq] at h
    obtain ⟨hp, rfl⟩ := h
    cases m <;> simpa [forward, hp] using h'
  | succ n ih =>
    by_cases hp : p = stop
    · simp only [forward, hp, if_true, Option.some.injEq] at h
      subst h
      cases m <;> simpa [forward, hp] using h'
    · cases m with
      | zero => simp [forward, hp] at h'
      | succ m =>
        simp only [forward, hp, if_false, Option.map_eq_some_iff] at h h'
        obtain ⟨t, ht, rfl⟩ := h
        obtain ⟨t', ht', rfl⟩ := h'
        rw [ih ht ht']

namespace Sound

variable [Fintype D]

section

variable (h : Sound cap r)
include h

theorem countAt_of_lt {s : Nat} (hl : r.tail ≤ s) (hu : s < r.head) : r.countAt s = cap := by
  obtain ⟨hs, hc⟩ := h.full s hl hu
  rw [countAt, if_pos hs, hc]

/-- The cursor names the end of the taken entries exactly while the ring has room. -/
theorem span_eq_taken (hcap : 0 < cap) : span cap r = taken cap r ↔ r.head < r.tail + r.size := by
  have hhead := h.head_le
  unfold span taken countAt
  constructor
  · intro he
    refine Nat.lt_of_le_of_ne hhead fun hr => ?_
    obtain ⟨hs, hc⟩ := h.lapped hr
    have := h.size_pos
    rw [hs, if_neg (by rw [Option.some.injEq]; omega), hc] at he
    omega
  · intro hr
    cases hs : r.slot (r.node r.head) with
    | none => simp [(h.free _ hs).1]
    | some s =>
      by_cases hne : s = r.head
      · simp [hne]
      · have := (h.stale hs hne).2
        omega

variable {k : Nat}

/-- A position before the cursor, taken apart. -/
theorem before_span (hk : cap * r.tail ≤ k) (hk' : k < span cap r) :
    ∃ s e, k = cap * s + e ∧ e < cap ∧ r.tail ≤ s ∧
      (s < r.head ∧ r.countAt s = cap ∨ s = r.head ∧ e < r.count (r.node r.head)) := by
  have hcount := h.count_le (r.node r.head)
  have hpos : 0 < cap := by
    rcases Nat.eq_zero_or_pos cap with rfl | hpos
    · simp [span] at hk' hcount
      omega
    · exact hpos
  have hdiv := Nat.div_add_mod k cap
  have hmod := Nat.mod_lt k hpos
  have htail : r.tail ≤ k / cap := (Nat.le_div_iff_mul_le hpos).mpr (by rwa [Nat.mul_comm])
  refine ⟨k / cap, k % cap, hdiv.symm, hmod, htail, ?_⟩
  rcases Nat.lt_or_ge (k / cap) r.head with hlt | hge
  · exact .inl ⟨hlt, h.countAt_of_lt htail hlt⟩
  · have hle : k / cap ≤ r.head := by
      by_contra hgt
      have := Nat.mul_le_mul_left cap (show r.head + 1 ≤ k / cap by omega)
      rw [Nat.mul_succ] at this
      simp only [span] at hk'
      omega
    have he : k / cap = r.head := Nat.le_antisymm hle hge
    refine .inr ⟨he, ?_⟩
    rw [he] at hdiv
    simp only [span] at hk'
    omega

theorem iterator_tail (hcap : 0 < cap) : iterator cap r (cap * r.tail) = r.first := by
  unfold iterator
  split
  · exact position_add (s := r.tail) (e := 0) hcap
  · rename_i hn
    have hle := Nat.mul_le_mul_left cap h.tail_le
    simp only [span] at hn
    have hz : r.count (r.node r.head) = 0 := by omega
    have he : cap * r.tail = cap * r.head := by omega
    simp [cursor, first, hz, Nat.eq_of_mul_eq_mul_left hcap he]

theorem next_iterator (hk : cap * r.tail ≤ k) (hk' : k < span cap r) :
    r.next (iterator cap r k) = iterator cap r (k + 1) := by
  obtain ⟨s, e, rfl, he, hs, hcase⟩ := h.before_span hk hk'
  have hcount := h.count_le (r.node r.head)
  rw [iterator, if_pos hk', position_add he, next]
  rcases hcase with ⟨hlt, hc⟩ | ⟨rfl, hlt⟩
  · have hmul := Nat.mul_le_mul_left cap (show s + 1 ≤ r.head by omega)
    rw [Nat.mul_succ] at hmul
    by_cases hend : cap ≤ e + 1
    · rw [if_pos ⟨by rw [hc]; exact hend, hlt⟩, show cap * s + e + 1 = cap * (s + 1) + 0 by rw [Nat.mul_succ]; omega,
        iterator]
      split
      · rw [position_add (by omega)]
      · rename_i hn
        simp only [span, Nat.mul_succ] at hn
        have hz : r.count (r.node r.head) = 0 := by omega
        have he' : cap * (s + 1) = cap * r.head := by rw [Nat.mul_succ]; omega
        rw [cursor, hz, Nat.eq_of_mul_eq_mul_left (by omega) he']
    · rw [if_neg (fun hle => hend (hc.symm.le.trans hle.1)), iterator, if_pos (by simp only [span]; omega), Nat.add_assoc,
        position_add (by omega)]
  · rw [if_neg (by simp), iterator]
    split
    · rename_i hn
      simp only [span] at hn
      rw [Nat.add_assoc, position_add (by omega)]
    · rename_i hn
      simp only [span] at hn
      rw [cursor, show r.count (r.node r.head) = e + 1 by omega]

theorem prev_iterator (hk : cap * r.tail ≤ k) (hk' : k < span cap r) :
    r.prev (iterator cap r (k + 1)) = iterator cap r k := by
  have hcount := h.count_le (r.node r.head)
  rw [← h.next_iterator hk hk']
  obtain ⟨s, e, rfl, he, hs, hcase⟩ := h.before_span hk hk'
  rw [iterator, if_pos hk', position_add he, next]
  rcases hcase with ⟨hlt, hc⟩ | ⟨rfl, hlt⟩
  · by_cases hend : cap ≤ e + 1
    · rw [if_pos ⟨by rw [hc]; exact hend, hlt⟩]
      simp only [prev, Nat.lt_irrefl, if_false, Nat.add_one_ne_zero, Nat.add_sub_cancel, hc]
      rw [if_neg (by omega), show cap - 1 = e by omega]
    · rw [if_neg (fun hle => hend (hc.symm.le.trans hle.1))]
      simp [prev]
  · rw [if_neg (by simp)]
    simp [prev]

theorem forward_iterator (n : Nat) (hk : cap * r.tail ≤ k) (hn : k + n = span cap r) :
    forward r.next r.cursor n (iterator cap r k) = some (positions cap k (span cap r)) := by
  induction n generalizing k with
  | zero =>
    obtain rfl : k = span cap r := hn
    simp [forward, iterator, positions]
  | succ n ih =>
    have hk' : k < span cap r := by omega
    have hne : iterator cap r k ≠ r.cursor := by
      intro he
      obtain ⟨s, e, rfl, he', -, hcase⟩ := h.before_span hk hk'
      rw [iterator, if_pos hk', position_add he', cursor, Position.mk.injEq] at he
      omega
    rw [forward, if_neg hne, h.next_iterator hk hk', ih (by omega) (by omega), positions_cons hk', iterator, if_pos hk']
    rfl

theorem backward_iterator (hcap : 0 < cap) (n : Nat) (hn : cap * r.tail + n ≤ span cap r) :
    backward r.prev r.first n (iterator cap r (cap * r.tail + n)) =
      some (positions cap (cap * r.tail) (cap * r.tail + n)).reverse := by
  induction n with
  | zero => simp [backward, h.iterator_tail hcap, positions]
  | succ n ih =>
    have hk' : cap * r.tail + n < span cap r := by omega
    have hprev := h.prev_iterator (Nat.le_add_right _ _) hk'
    have hne : iterator cap r (cap * r.tail + n + 1) ≠ r.first := by
      intro he
      have hnext := h.next_iterator (Nat.le_add_right _ _) hk'
      rw [he] at hnext
      obtain ⟨s, e, hse, he', hs, -⟩ := h.before_span (Nat.le_add_right _ _) hk'
      rw [iterator, if_pos hk', hse, position_add he', next, first] at hnext
      split at hnext <;> simp only [Position.mk.injEq] at hnext <;> omega
    rw [← Nat.add_assoc, backward, if_neg hne, hprev, ih (by omega), positions_snoc (by omega), List.reverse_append,
      iterator, if_pos hk']
    rfl

/-- Iterating from the tail to the cursor visits the positions in between, in order and in reverse. -/
theorem iterate (hcap : 0 < cap) :
    (∃ n, forward r.next r.cursor n r.first = some (positions cap (cap * r.tail) (span cap r))) ∧
      ∃ n, backward r.prev r.first n r.cursor = some (positions cap (cap * r.tail) (span cap r)).reverse := by
  have hle : cap * r.tail ≤ span cap r := (Nat.mul_le_mul_left cap h.tail_le).trans (Nat.le_add_right _ _)
  have hsum : cap * r.tail + (span cap r - cap * r.tail) = span cap r := by omega
  constructor
  · refine ⟨span cap r - cap * r.tail, ?_⟩
    have := h.forward_iterator (span cap r - cap * r.tail) (Nat.le_refl _) hsum
    rwa [h.iterator_tail hcap] at this
  · refine ⟨span cap r - cap * r.tail, ?_⟩
    have := h.backward_iterator hcap (span cap r - cap * r.tail) hsum.le
    rwa [hsum, iterator, if_neg (Nat.lt_irrefl _)] at this

end

/-! How many entries were ever taken -/

/-- The next entry to be claimed at a head with room. -/
theorem taken_eq (h : Sound cap r) (hs : r.slot (r.node r.head) = none ∨ r.slot (r.node r.head) = some r.head) :
    taken cap r = cap * r.head + r.count (r.node r.head) := by
  unfold taken countAt
  rcases hs with hs | hs
  · simp [hs, (h.free _ hs).1]
  · rw [if_pos hs]

theorem taken_claim [DecidableEq D] (h : Sound cap r)
    (hs : r.slot (r.node r.head) = none ∨ r.slot (r.node r.head) = some r.head) (d : D) :
    taken cap (r.claim d) = taken cap r + 1 := by
  rw [h.taken_eq hs]
  have hslot : (r.claim d).slot ((r.claim d).node (r.claim d).head) = some (r.claim d).head := Function.update_self ..
  have hcount : (r.claim d).count ((r.claim d).node (r.claim d).head) = r.count (r.node r.head) + 1 :=
    Function.update_self ..
  rw [taken, countAt, if_pos hslot, hcount]
  rfl

theorem taken_advance (h : Sound cap r) (hs : r.slot (r.node r.head) = some r.head)
    (hc : r.count (r.node r.head) = cap) : taken cap r.advance = taken cap r := by
  have hnew : r.slot (r.node (r.head + 1)) ≠ some (r.head + 1) := fun he =>
    Nat.not_succ_le_self _ (h.stamp _ _ he).2.2
  have hcount : countAt r.advance r.advance.head = 0 := if_neg hnew
  rw [h.taken_eq (.inr hs), taken, hcount, hc]
  change cap * (r.head + 1) + 0 = _
  rw [Nat.mul_succ, Nat.add_zero]

theorem taken_retire (h : Sound cap r) (hlt : r.tail < r.head) : taken cap r.retire = taken cap r := by
  have hst := (h.full r.tail (Nat.le_refl _) hlt).1
  have hcount : r.retire.countAt r.head = r.countAt r.head := by
    unfold countAt
    change (if Function.update r.slot (r.node r.tail) none (r.node r.head) = some r.head then
      Function.update r.count (r.node r.tail) 0 (r.node r.head) else 0) = _
    by_cases hn : r.node r.head = r.node r.tail
    · rw [hn, hst, Function.update_self, if_neg (by simp), if_neg]
      rw [Option.some.injEq]
      omega
    · rw [Function.update_of_ne hn, Function.update_of_ne hn]
  rw [taken, taken]
  exact congrArg _ hcount

/-- The entries taken from the tail on are the ones whose slots are still in the ring. -/
theorem resident_position (h : Sound cap r) {k : Nat} (hk : k < taken cap r) :
    r.slot (r.node (position cap k).slot) = some (position cap k).slot ↔ cap * r.tail ≤ k := by
  have hpos : 0 < cap := by
    rcases Nat.eq_zero_or_pos cap with rfl | hpos
    · have hc : r.countAt r.head = 0 := by
        unfold countAt
        split
        · exact Nat.le_zero.mp (h.count_le _)
        · rfl
      simp [taken, hc] at hk
    · exact hpos
  constructor
  · intro hr
    have := (h.stamp _ _ hr).2.1
    calc cap * r.tail ≤ cap * (k / cap) := Nat.mul_le_mul_left cap this
      _ ≤ k := Nat.mul_div_le k cap
  · intro hle
    have htail : r.tail ≤ k / cap := (Nat.le_div_iff_mul_le hpos).mpr (by rwa [Nat.mul_comm])
    rcases Nat.lt_or_ge (k / cap) r.head with hlt | hge
    · exact (h.full _ htail hlt).1
    · have hdiv := Nat.div_add_mod k cap
      have hmod := Nat.mod_lt k hpos
      have hmul := Nat.mul_le_mul_left cap hge
      have hle : r.countAt r.head ≤ cap := by
        unfold countAt
        split
        · exact h.count_le _
        · exact Nat.zero_le _
      have hcnt : k % cap < r.countAt r.head ∧ k / cap = r.head := by
        have hhead : k / cap ≤ r.head := by
          by_contra hgt
          have := Nat.mul_le_mul_left cap (show r.head + 1 ≤ k / cap by omega)
          rw [Nat.mul_succ] at this
          simp only [taken] at hk
          omega
        have he : k / cap = r.head := Nat.le_antisymm hhead hge
        rw [he] at hdiv
        simp only [taken] at hk
        exact ⟨by omega, he⟩
      change r.slot (r.node (k / cap)) = some (k / cap)
      rw [hcnt.2]
      by_contra hne
      have : r.countAt r.head = 0 := if_neg hne
      omega

end Sound

end SlotRing
