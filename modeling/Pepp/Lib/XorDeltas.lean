import Mathlib.Data.BitVec
import Mathlib.Data.List.Basic

/-!
# Exclusive-or deltas

A delta is applied to a span of a buffer. It is its own inverse, so that a delta
between an old and a new content leads from either to the other.
-/

namespace XorDeltas

variable {n : Nat}

/-- Copy as much of `src` as there is room for. -/
def copy {α : Type} (dest src : List α) : List α := src.take dest.length ++ dest.drop src.length

variable {α : Type} (data : List (BitVec n))

@[simp] theorem length_copy (dest src : List α) : (copy dest src).length = dest.length := by
  simp only [copy, List.length_append, List.length_take, List.length_drop]
  omega

theorem getElem?_copy (dest src : List α) {i : Nat} (hi : i < dest.length) :
    (copy dest src)[i]? = if i < src.length then src[i]? else dest[i]? := by
  rw [copy]
  split
  · next h => rw [List.getElem?_append_left (by rw [List.length_take]; omega), List.getElem?_take_of_lt hi]
  · next h =>
    rw [List.getElem?_append_right (by rw [List.length_take]; omega), List.getElem?_drop, List.length_take]
    congr 1
    omega

/-- What fits is at the front of the copy. -/
theorem take_copy {dest src : List α} (h : src.length ≤ dest.length) : (copy dest src).take src.length = src := by
  rw [copy, List.take_of_length_le h, List.take_left]

theorem copy_of_length_eq {dest src : List α} (h : src.length = dest.length) : copy dest src = src := by
  rw [copy, List.take_of_length_le h.le, h, List.drop_length, List.append_nil]

/-- The difference of two contents, as far as both go. -/
def delta (new old : List (BitVec n)) : List (BitVec n) := List.zipWith (· ^^^ ·) new old

@[simp] theorem length_delta (new old : List (BitVec n)) : (delta new old).length = min new.length old.length :=
  List.length_zipWith

/-- Apply a delta from `base` on. -/
def apply (data : List (BitVec n)) (base : Nat) (d : List (BitVec n)) : List (BitVec n) :=
  data.take base ++ copy (data.drop base) (delta (data.drop base) d)

variable (base : Nat)

@[simp] theorem length_apply (d : List (BitVec n)) : (apply data base d).length = data.length := by
  simp only [apply, List.length_append, List.length_take, length_copy, List.length_drop]
  omega

theorem copy_delta_copy (old new : List (BitVec n)) : copy old (delta old (delta new old)) = copy old new := by
  apply List.ext_getElem?
  intro i
  rcases Nat.lt_or_ge i old.length with hi | hi
  · rw [getElem?_copy _ _ hi, getElem?_copy _ _ hi]
    simp only [length_delta]
    by_cases hnew : i < new.length
    · rw [if_pos (by omega), if_pos hnew, delta, delta, List.getElem?_zipWith, List.getElem?_zipWith,
        List.getElem?_eq_getElem hi, List.getElem?_eq_getElem hnew]
      simp [← BitVec.xor_assoc, BitVec.xor_comm]
    · rw [if_neg (by omega), if_neg hnew]
  · rw [List.getElem?_eq_none (by simpa using hi), List.getElem?_eq_none (by simpa using hi)]

/-- To overwrite a span is to apply the difference to it. -/
theorem apply_delta (new : List (BitVec n)) :
    apply data base (delta new (data.drop base)) = data.take base ++ copy (data.drop base) new := by
  rw [apply, copy_delta_copy]

theorem getElem?_apply (d : List (BitVec n)) (i : Nat) :
    (apply data base d)[i]? = data[i]?.map fun b => b ^^^ if base ≤ i then d[i - base]?.getD 0 else 0 := by
  rcases Nat.lt_or_ge i data.length with hi | hi
  · rw [List.getElem?_eq_getElem hi, Option.map_some, apply]
    by_cases hbase : base ≤ i
    · rw [List.getElem?_append_right (by rw [List.length_take]; omega), List.length_take, Nat.min_eq_left (by omega),
        getElem?_copy _ _ (by rw [List.length_drop]; omega), if_pos hbase, length_delta, List.length_drop]
      have hdrop : (data.drop base)[i - base]? = some data[i] := by
        rw [List.getElem?_drop, Nat.add_sub_cancel' hbase, List.getElem?_eq_getElem hi]
      by_cases hd : i - base < d.length
      · rw [if_pos (by omega), delta, List.getElem?_zipWith, hdrop, List.getElem?_eq_getElem hd]
        rfl
      · rw [if_neg (by omega), hdrop, List.getElem?_eq_none (by omega), Option.getD_none]
        simp
    · rw [List.getElem?_append_left (by rw [List.length_take]; omega), List.getElem?_take_of_lt (by omega),
        List.getElem?_eq_getElem hi, if_neg hbase]
      simp
  · rw [List.getElem?_eq_none (by simpa using hi), List.getElem?_eq_none hi]
    rfl

/-- A delta undoes itself. -/
theorem apply_apply (d : List (BitVec n)) : apply (apply data base d) base d = data := by
  apply List.ext_getElem?
  intro i
  rw [getElem?_apply, getElem?_apply, Option.map_map]
  cases data[i]? with
  | none => rfl
  | some b => simp [BitVec.xor_assoc]

end XorDeltas
