import Mathlib.Data.List.TakeWhile
import Pepp.Lib.IntervalLists
import Pepp.Lib.OrderedSet
import Pepp.Trace.Interval

/-!
# Sets of modified addresses

`IntervalSet` keeps the addresses of inserted intervals as a sorted set of
intervals, and merges an interval that is inserted with those that it meets or
touches. A sink searches the set for an address.
-/

namespace Pepp.Trace.IntervalSet

open IntervalLists Interval

variable {w : Nat}

/-- `value + offset`, where types that are smaller than `int` are promoted. -/
def plusOffset (rightInclusive : Bool) (value : BitVec w) : Nat :=
  let sum := value.toNat + if rightInclusive then 1 else 0
  if w < 32 then sum else sum % 2 ^ w

/-- `std::max` -/
def maximum (a b : BitVec w) : BitVec w := if a < b then b else a

/-- The loop that merges with the following intervals, and how many it has merged. -/
def merge (rightInclusive : Bool) (interval : Interval w) : List (Interval w) → Interval w × Nat
  | [] => (interval, 0)
  | it :: rest =>
    if it.intersects interval ∨ it.lower.toNat = plusOffset rightInclusive interval.upper then
      let merged := merge rightInclusive ⟨interval.lower, maximum interval.upper it.upper⟩ rest
      (merged.1, merged.2 + 1)
    else (interval, 0)

/-- Merge with the following intervals, erase them, `erased` at least, and put the result in. -/
def replace (rightInclusive : Bool) (kept : List (Interval w)) (erased : Nat) (interval : Interval w)
    (rest : List (Interval w)) : List (Interval w) :=
  let merged := merge rightInclusive interval rest
  (OrderedSet.insert Interval.key merged.1 (kept ++ rest.drop (max erased merged.2))).2

def insert (rightInclusive : Bool) (s : List (Interval w)) (interval : Interval w) : List (Interval w) :=
  let before := s.takeWhile fun a => decide (a.key < interval.key)
  let next := OrderedSet.lowerBound Interval.key interval.key s
  match before.getLast? with
  | none => replace rightInclusive [] 0 interval next
  | some prev =>
    if prev.contains interval then s
    else if prev.intersects interval ∨ plusOffset rightInclusive prev.upper = interval.lower.toNat then
      replace rightInclusive before.dropLast 1 ⟨prev.lower, interval.upper⟩ (prev :: next)
    else replace rightInclusive before 0 interval next

/-- `ModifiedAddressSink::contains` -/
def contains (s : List (Interval w)) (addr : BitVec w) : Bool :=
  let key := (Interval.mk addr addr).key
  let before := s.takeWhile fun a => decide (a.key < key)
  match before.getLast?, OrderedSet.lowerBound Interval.key key s with
  | none, [] => false
  | none, lb :: _ => lb.has addr
  | some prev, [] => prev.has addr
  | some prev, lb :: _ => if lb.lower ≤ addr then lb.has addr else prev.has addr

/-! ## One insertion -/

variable {i m : Interval w} {s kept rest : List (Interval w)} {n : Nat}

theorem plusOffset_le (v : BitVec w) : plusOffset true v ≤ v.toNat + 1 := by
  rw [plusOffset, if_pos rfl]
  split
  · exact Nat.le_refl _
  · exact Nat.mod_le _ _

variable {v : BitVec w} {inserted : List (Interval w)}

theorem plusOffset_of_lt (h : v.toNat + 1 < 2 ^ w) : plusOffset true v = v.toNat + 1 := by
  rw [plusOffset, if_pos rfl, Nat.mod_eq_of_lt h, ite_self]

theorem toNat_maximum (a b : BitVec w) : (maximum a b).toNat = max a.toNat b.toNat := by
  rw [maximum]
  split
  · next h => rw [max_eq_right (BitVec.lt_def.mp h).le]
  · next h => rw [max_eq_left (not_lt.mp (mt BitVec.lt_def.mpr h))]

/-- Two intervals are merged if and only if there is no gap between them. -/
theorem mergeable_iff {a b : Interval w} (ha : a.valid) (hb : b.valid) (hle : low a ≤ low b) :
    b.intersects a ∨ b.lower.toNat = plusOffset true a.upper ↔ low b ≤ high a + 1 := by
  have hle' : plusOffset true a.upper ≤ high a + 1 := plusOffset_le a.upper
  rw [intersects_iff hb ha]
  rw [valid_iff] at *
  change _ ∨ low b = _ ↔ _
  constructor
  · omega
  · intro h
    rcases Nat.lt_or_ge (high a) (low b) with hlt | hge
    · have hlast : plusOffset true a.upper = high a + 1 := plusOffset_of_lt (Nat.lt_of_le_of_lt hlt b.low_lt)
      omega
    · omega

theorem merge_spec (hi : i.valid) (hrest : Separated low high rest) (hle : ∀ a ∈ rest, low i ≤ low a) :
    low (merge true i rest).1 = low i ∧ high i ≤ high (merge true i rest).1 ∧
      (∀ a ∈ rest.drop (merge true i rest).2, high (merge true i rest).1 + 1 < low a) ∧
      ∀ n, Covers low high ((merge true i rest).1 :: rest.drop (merge true i rest).2) n ↔
        Covers low high (i :: rest) n := by
  induction rest generalizing i with
  | nil => exact ⟨rfl, Nat.le_refl _, fun a ha => absurd ha List.not_mem_nil, fun n => Iff.rfl⟩
  | cons it rest ih =>
    have hit := hrest.valid it List.mem_cons_self
    have hlow := hle it List.mem_cons_self
    have hmergeable := mergeable_iff hi hit hlow
    rw [merge]
    split <;> dsimp only
    · next h =>
      have htouch := hmergeable.mp h
      have hmax : high ⟨i.lower, maximum i.upper it.upper⟩ = max (high i) (high it) := toNat_maximum i.upper it.upper
      have hsame : low ⟨i.lower, maximum i.upper it.upper⟩ = low i := rfl
      have hvalid : (Interval.mk i.lower (maximum i.upper it.upper)).valid := by
        rw [valid_iff] at *
        omega
      obtain ⟨hlower, hupper, hgaps, hcovers⟩ := ih hvalid hrest.tail fun a ha => hle a (List.mem_cons_of_mem it ha)
      refine ⟨hlower, by omega, hgaps, fun n => ?_⟩
      rw [List.drop_succ_cons, hcovers, covers_cons, covers_cons, covers_cons, ← or_assoc]
      refine or_congr_left ?_
      rw [hmax, hsame]
      omega
    · next h =>
      have hgap : high i + 1 < low it := Nat.lt_of_not_le (mt hmergeable.mpr h)
      refine ⟨rfl, Nat.le_refl _, fun a ha => ?_, fun n => Iff.rfl⟩
      rcases List.mem_cons.mp ha with rfl | ha
      · exact hgap
      · have hnext := List.rel_of_pairwise_cons hrest.gaps ha
        omega

theorem replace_spec {erased : Nat} (hi : i.valid) (hkept : Separated low high kept) (hrest : Separated low high rest)
    (hbefore : ∀ a ∈ kept, high a + 1 < low i) (hle : ∀ a ∈ rest, low i ≤ low a)
    (herased : erased ≤ (merge true i rest).2) :
    Separated low high (replace true kept erased i rest) ∧
      ∀ n, Covers low high (replace true kept erased i rest) n ↔
        Covers low high kept n ∨ Covers low high (i :: rest) n := by
  obtain ⟨hlower, hupper, hgaps, hcovers⟩ := merge_spec hi hrest hle
  have hdrop : Separated low high (rest.drop (merge true i rest).2) := by
    refine Separated.right (s := rest.take (merge true i rest).2) ?_
    rwa [List.take_append_drop]
  have hvalid : (merge true i rest).1.valid := by
    rw [valid_iff] at *
    omega
  have hinsert : replace true kept erased i rest = kept ++ (merge true i rest).1 :: rest.drop (merge true i rest).2 := by
    rw [replace, max_eq_right herased]
    refine OrderedSet.insert_between (fun a ha => ?_) fun a ha => ?_
    · have hlt := hbefore a ha
      have hle := hkept.valid a ha
      rw [key_lt (valid_iff.mpr hle) hvalid]
      omega
    · have hlt := hgaps a ha
      rw [key_lt hvalid (hdrop.valid a ha)]
      rw [valid_iff] at hvalid
      omega
  rw [hinsert]
  refine ⟨hkept.append ⟨List.forall_mem_cons.mpr ⟨valid_iff.mp hvalid, hdrop.valid⟩,
    List.pairwise_cons.mpr ⟨hgaps, hdrop.gaps⟩⟩ fun a ha b hb => ?_, fun n => ?_⟩
  · have hlt := hbefore a ha
    rcases List.mem_cons.mp hb with rfl | hb
    · omega
    · have hgap := hgaps b hb
      rw [valid_iff] at hvalid
      omega
  · rw [covers_append, hcovers]

/-- The interval before the place of another one, and what that place says about the rest. -/
theorem cut_spec (hs : Separated low high s) (hi : i.valid) :
    (s.takeWhile fun a => decide (a.key < i.key)) ++ OrderedSet.lowerBound key i.key s = s ∧
      (∀ a ∈ s.takeWhile fun a => decide (a.key < i.key), low a < low i ∨ low a = low i ∧ high a < high i) ∧
      ∀ a ∈ OrderedSet.lowerBound key i.key s, low i < low a ∨ low i = low a ∧ high i ≤ high a := by
  have hsorted : OrderedSet.Sorted key s := by
    refine hs.gaps.imp_of_mem fun ha hb hgap => ?_
    have hvalid := hs.valid _ ha
    rw [key_lt (valid_iff.mpr hvalid) (valid_iff.mpr (hs.valid _ hb))]
    omega
  refine ⟨List.takeWhile_append_dropWhile, fun a ha => ?_, fun a ha => ?_⟩
  · have hlt := List.mem_takeWhile_imp ha
    rwa [decide_eq_true_iff, key_lt (valid_iff.mpr (hs.valid a ((List.takeWhile_prefix _).subset ha))) hi] at hlt
  · obtain ⟨hmem, hle⟩ := (OrderedSet.mem_lowerBound hsorted).mp ha
    have hlt := not_lt.mpr hle
    rw [key_lt (valid_iff.mpr (hs.valid a hmem)) hi] at hlt
    omega

/-- An interval that the one before it meets or touches takes its start. -/
theorem join_spec {front next : List (Interval w)} {prev : Interval w} (hs : Separated low high (front ++ prev :: next))
    (hlow : low prev ≤ low i) (hhigh : high prev ≤ high i) (htouch : low i ≤ high prev + 1)
    (hnext : ∀ a ∈ next, low i ≤ low a) :
    Separated low high (replace true front 1 ⟨prev.lower, i.upper⟩ (prev :: next)) ∧
      ∀ n, Covers low high (replace true front 1 ⟨prev.lower, i.upper⟩ (prev :: next)) n ↔
        (low i ≤ n ∧ n ≤ high i) ∨ Covers low high (front ++ prev :: next) n := by
  have hprev := hs.right.valid prev List.mem_cons_self
  have hjoined : low ⟨prev.lower, i.upper⟩ = low prev ∧ high ⟨prev.lower, i.upper⟩ = high i := ⟨rfl, rfl⟩
  have hvalid : (Interval.mk prev.lower i.upper).valid := by
    rw [valid_iff]
    omega
  have hgaps : ∀ a ∈ front, high a + 1 < low prev := fun a ha =>
    (List.pairwise_append.mp hs.gaps).2.2 a ha prev List.mem_cons_self
  have hle : ∀ a ∈ prev :: next, low ⟨prev.lower, i.upper⟩ ≤ low a := by
    refine List.forall_mem_cons.mpr ⟨Nat.le_refl _, fun a ha => ?_⟩
    have hle := hnext a ha
    omega
  have herased : 1 ≤ (merge true ⟨prev.lower, i.upper⟩ (prev :: next)).2 := by
    have hmeets : prev.intersects ⟨prev.lower, i.upper⟩ := by
      rw [intersects_iff (valid_iff.mpr hprev) hvalid]
      omega
    rw [merge, if_pos (.inl hmeets)]
    exact Nat.succ_le_succ (Nat.zero_le _)
  obtain ⟨hsep, hcovers⟩ := replace_spec hvalid hs.left hs.right hgaps hle herased
  refine ⟨hsep, fun n => ?_⟩
  have hunion : low prev ≤ n ∧ n ≤ high i ↔ (low i ≤ n ∧ n ≤ high i) ∨ (low prev ≤ n ∧ n ≤ high prev) := by omega
  rw [hcovers, covers_append, covers_cons, covers_cons, hjoined.1, hjoined.2, hunion]
  constructor
  · rintro (h | (h | h) | h | h) <;> simp [h]
  · rintro (h | h | h | h) <;> simp [h]

/-- An insertion keeps the set separated and adds what the interval covers. -/
theorem insert_spec (hs : Separated low high s) (hi : i.valid) :
    Separated low high (insert true s i) ∧
      ∀ n, Covers low high (insert true s i) n ↔ (low i ≤ n ∧ n ≤ high i) ∨ Covers low high s n := by
  obtain ⟨hcut, hbefore, hnext⟩ := cut_spec hs hi
  have hvalid := valid_iff.mp hi
  rw [insert]
  generalize s.takeWhile (fun a => decide (a.key < i.key)) = before at *
  generalize OrderedSet.lowerBound key i.key s = next at *
  subst hcut
  have hlenext : ∀ a ∈ next, low i ≤ low a := fun a ha => by
    have hnext := hnext a ha
    omega
  split
  · next hnone =>
    obtain rfl : before = [] := List.getLast?_eq_none_iff.mp hnone
    obtain ⟨hsep, hcovers⟩ := replace_spec hi hs.left hs.right nofun hlenext (Nat.zero_le _)
    refine ⟨hsep, fun n => ?_⟩
    rw [hcovers, covers_cons, or_iff_right covers_nil, List.nil_append]
  · next prev hlast =>
    obtain ⟨front, rfl⟩ := List.getLast?_eq_some_iff.mp hlast
    have hprev := hbefore prev (List.mem_append_right front List.mem_cons_self)
    have hvalidPrev := hs.left.valid prev (List.mem_append_right front List.mem_cons_self)
    have hmergeable : prev.intersects i ∨ plusOffset true prev.upper = i.lower.toNat ↔ low i ≤ high prev + 1 := by
      rw [intersects_comm, eq_comm]
      exact mergeable_iff (valid_iff.mpr hvalidPrev) hi (by omega)
    rw [List.dropLast_concat]
    split
    · next hcontains =>
      rw [contains_iff (valid_iff.mpr hvalidPrev) hi] at hcontains
      refine ⟨hs, fun n => (or_iff_right_of_imp fun hn => ?_).symm⟩
      exact ⟨prev, List.mem_append_left next (List.mem_append_right front List.mem_cons_self), hcontains.1.trans hn.1,
        hn.2.trans hcontains.2⟩
    · next hcontains =>
      rw [contains_iff (valid_iff.mpr hvalidPrev) hi] at hcontains
      rw [List.append_assoc, List.singleton_append] at hs ⊢
      split
      · next htouch => exact join_spec hs (by omega) (by omega) (hmergeable.mp htouch) hlenext
      · next htouch =>
        have hgap : high prev + 1 < low i := Nat.lt_of_not_le (mt hmergeable.mpr htouch)
        have hgaps : ∀ a ∈ front ++ [prev], high a + 1 < low i := by
          refine List.forall_mem_append.mpr ⟨fun a ha => ?_, List.forall_mem_singleton.mpr hgap⟩
          have hgap' := (List.pairwise_append.mp hs.gaps).2.2 a ha prev List.mem_cons_self
          omega
        have hsplit : front ++ prev :: next = (front ++ [prev]) ++ next := by simp
        rw [hsplit] at hs ⊢
        obtain ⟨hsep, hcovers⟩ := replace_spec hi hs.left hs.right hgaps hlenext (Nat.zero_le _)
        refine ⟨hsep, fun n => ?_⟩
        rw [hcovers, covers_cons, or_left_comm, ← covers_append]

/-! ## Sequences of insertions -/

def insertAll (inserted : List (Interval w)) : List (Interval w) := inserted.foldl (insert true) []

theorem foldl_spec (hs : Separated low high s) (h : ∀ i ∈ inserted, i.valid) :
    Separated low high (inserted.foldl (insert true) s) ∧
      ∀ n, Covers low high (inserted.foldl (insert true) s) n ↔ Covers low high inserted n ∨ Covers low high s n := by
  induction inserted generalizing s with
  | nil => exact ⟨hs, fun n => (or_iff_right covers_nil).symm⟩
  | cons i inserted ih =>
    obtain ⟨hi, hrest⟩ := List.forall_mem_cons.mp h
    obtain ⟨hsep, hcovers⟩ := insert_spec hs hi
    obtain ⟨hsep', hcovers'⟩ := ih hsep hrest
    refine ⟨hsep', fun n => ?_⟩
    rw [List.foldl_cons, hcovers', hcovers, covers_cons, or_left_comm, ← or_assoc]

theorem insertAll_spec (h : ∀ i ∈ inserted, i.valid) :
    Separated low high (insertAll inserted) ∧
      ∀ n, Covers low high (insertAll inserted) n ↔ Covers low high inserted n := by
  obtain ⟨hsep, hcovers⟩ := foldl_spec ⟨fun a ha => absurd ha List.not_mem_nil, .nil⟩ h
  exact ⟨hsep, fun n => (hcovers n).trans (or_iff_left covers_nil)⟩

theorem has_iff_covers (v : BitVec w) : (∃ i ∈ inserted, i.has v) ↔ Covers low high inserted v.toNat :=
  exists_congr fun _ => and_congr_right fun _ => has_iff

/-- Of the intervals that start at or before an address only the last can have it. -/
theorem has_append {front next : List (Interval w)} {prev : Interval w}
    (hs : Separated low high (front ++ prev :: next)) (hprev : low prev ≤ v.toNat) :
    (∃ i ∈ front ++ prev :: next, i.has v) ↔ prev.has v ∨ ∃ i ∈ next, i.has v := by
  simp only [List.mem_append, List.mem_cons, or_and_right, exists_or, exists_eq_left]
  rw [or_iff_right]
  rintro ⟨i, hi, hv⟩
  have hgap := (List.pairwise_append.mp hs.gaps).2.2 i hi prev List.mem_cons_self
  rw [has_iff] at hv
  omega

/-- Of those that start there or later only the first can. -/
theorem has_next {rest : List (Interval w)} {lb : Interval w} (hs : Separated low high (lb :: rest))
    (hlb : v.toNat ≤ low lb) : (∃ i ∈ lb :: rest, i.has v) ↔ lb.lower ≤ v := by
  have hvalid := hs.valid lb List.mem_cons_self
  rw [List.exists_mem_cons_iff, or_iff_left, has_iff, BitVec.le_def]
  · change _ ↔ low lb ≤ _
    omega
  · rintro ⟨i, hi, hv⟩
    have hgap := List.rel_of_pairwise_cons hs.gaps hi
    rw [has_iff] at hv
    omega

/-- The lookup finds the interval that has an address. -/
theorem contains_spec (hs : Separated low high s) (v : BitVec w) : contains s v = true ↔ ∃ i ∈ s, i.has v := by
  have hpoint : (Interval.mk v v).valid := BitVec.le_refl v
  obtain ⟨hcut, hbefore, hnext⟩ := cut_spec hs hpoint
  rw [contains]
  generalize s.takeWhile (fun a => decide (a.key < (Interval.mk v v).key)) = before at *
  generalize OrderedSet.lowerBound key (Interval.mk v v).key s = next at *
  subst hcut
  simp only [low_mk, high_mk] at hbefore hnext
  have hlow : ∀ lb rest, next = lb :: rest → v.toNat ≤ low lb ∧ (lb.has v ↔ lb.lower ≤ v) := by
    rintro lb rest rfl
    have hvalid := hs.right.valid lb List.mem_cons_self
    have hnext := hnext lb List.mem_cons_self
    refine ⟨by omega, ?_⟩
    rw [has_iff, BitVec.le_def]
    change _ ↔ low lb ≤ _
    omega
  split
  · next hnone =>
    obtain rfl : before = [] := List.getLast?_eq_none_iff.mp hnone
    simp
  · next lb rest hnone =>
    obtain rfl : before = [] := List.getLast?_eq_none_iff.mp hnone
    obtain ⟨hle, hhas⟩ := hlow lb rest rfl
    rw [List.nil_append, has_next hs hle, decide_eq_true_iff, hhas]
  · next prev hlast =>
    obtain ⟨front, rfl⟩ := List.getLast?_eq_some_iff.mp hlast
    have hprev := hbefore prev (List.mem_append_right front List.mem_cons_self)
    have hsplit : front ++ [prev] ++ [] = front ++ prev :: [] := by simp
    rw [hsplit] at hs ⊢
    rw [has_append hs (by omega), decide_eq_true_iff]
    simp
  · next prev lb rest hlast =>
    obtain ⟨front, rfl⟩ := List.getLast?_eq_some_iff.mp hlast
    obtain ⟨hle, hhas⟩ := hlow lb rest rfl
    have hprev := hbefore prev (List.mem_append_right front List.mem_cons_self)
    have hsplit : front ++ [prev] ++ lb :: rest = front ++ prev :: lb :: rest := by simp
    rw [hsplit] at hs ⊢
    rw [has_append hs (by omega), has_next hs.right.tail hle]
    split
    · next hlb => simp [hhas, hlb]
    · next hlb => simp [hlb]

/-- The set of inserted intervals is sorted, with gaps in it, covers what was inserted, in whatever order,
and the sink finds exactly that. -/
theorem insertAll_exact (w : Nat) (inserted : List (Interval w)) (h : ∀ i ∈ inserted, i.valid) :
    ((insertAll inserted).Pairwise fun a b => a.upper.toNat + 1 < b.lower.toNat) ∧
      (∀ i ∈ insertAll inserted, i.valid) ∧
      (∀ v, (∃ i ∈ insertAll inserted, i.has v) ↔ ∃ i ∈ inserted, i.has v) ∧
      (∀ inserted', inserted'.Perm inserted → insertAll inserted' = insertAll inserted) ∧
      ∀ v, contains (insertAll inserted) v = true ↔ ∃ i ∈ inserted, i.has v := by
  obtain ⟨hsep, hcovers⟩ := insertAll_spec h
  have hunion : ∀ v, (∃ i ∈ insertAll inserted, i.has v) ↔ ∃ i ∈ inserted, i.has v := fun v => by
    rw [has_iff_covers, has_iff_covers, hcovers]
  refine ⟨hsep.gaps, fun i hi => valid_iff.mpr (hsep.valid i hi), hunion, fun inserted' hperm => ?_, fun v => ?_⟩
  · obtain ⟨hsep', hcovers'⟩ := insertAll_spec fun i hi => h i (hperm.mem_iff.mp hi)
    refine hsep'.unique (fun a b => ext_toNat) hsep fun n => ?_
    rw [hcovers', hcovers]
    exact exists_congr fun i => and_congr_left fun _ => hperm.mem_iff
  · rw [contains_spec hsep, hunion]

theorem insertAll_exact_touching :
    (insertAll [⟨0xFE, 0xFF⟩, ⟨0, 1⟩, ⟨3, 3⟩, ⟨2, 2⟩] : List (Interval 8)) = [⟨0, 3⟩, ⟨0xFE, 0xFF⟩] ∧
      ∀ v, contains (insertAll [⟨0xFE, 0xFF⟩, ⟨0, 1⟩, ⟨3, 3⟩, ⟨2, 2⟩] : List (Interval 8)) v = true ↔
        ∃ i ∈ ([⟨0xFE, 0xFF⟩, ⟨0, 1⟩, ⟨3, 3⟩, ⟨2, 2⟩] : List (Interval 8)), i.has v :=
  ⟨by decide, (insertAll_exact 8 _ (by decide)).2.2.2.2⟩

end Pepp.Trace.IntervalSet
