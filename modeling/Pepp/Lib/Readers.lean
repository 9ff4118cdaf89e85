import Mathlib.Control.Monad.Basic
import Pepp.Lib.Endian

/-!
# Readers of bytes

A reader takes what it needs off the front of its input. That it reads a value
from some bytes means that it does so whatever follows them; such facts compose
along a sequence of readers.
-/

namespace Readers

variable {S ε α β : Type}

abbrev Reader (S ε : Type) := StateT (List S) (Except ε)

/-- The reader takes just these symbols, whatever comes after them. -/
def Reads (p : Reader S ε α) (s : List S) (a : α) : Prop := ∀ rest, p (s ++ rest) = .ok (a, rest)

theorem reads_pure (a : α) : Reads (pure a : Reader S ε α) [] a := fun _ => rfl

variable {a : α} {b : β} {f : α → Reader S ε β} {p : Reader S ε α} {s t : List S} {r : Except ε α}

theorem Reads.bind (h : Reads p s a) (h' : Reads (f a) t b) : Reads (p >>= f) (s ++ t) b := by
  intro rest
  change (p (s ++ t ++ rest) >>= fun x => f x.1 x.2) = _
  rw [List.append_assoc, h (t ++ rest)]
  exact h' rest

/-- The last step that takes something. -/
theorem Reads.bind_last {s : List S} (h : Reads p s a) (h' : Reads (f a) [] b) : Reads (p >>= f) s b := by
  have hbind := h.bind h'
  rwa [List.append_nil] at hbind

theorem Reads.map {s : List S} (f : α → β) (h : Reads p s a) : Reads (f <$> p) s (f a) := by
  intro rest
  change (p (s ++ rest) >>= fun x => pure (f x.1, x.2)) = _
  rw [h rest]
  rfl

/-- What cannot fail takes nothing. -/
theorem reads_lift (h : r = .ok a) : Reads (liftM r : Reader S ε α) [] a := by
  subst h
  intro _
  rfl

/-- A step that takes nothing comes before another one. -/
theorem Reads.of_lift {s : List S} (h : r = .ok a) (h' : Reads (f a) s b) :
    Reads ((liftM r : Reader S ε α) >>= f) s b := (reads_lift h).bind h'

/-- The next `n` symbols. -/
def next (short : ε) (n : Nat) : Reader S ε (List S) := fun s =>
  if s.length < n then .error short else .ok (s.take n, s.drop n)

theorem reads_next (short : ε) (s : List S) : Reads (next short s.length) s s := by
  intro rest
  rw [next, if_neg (by rw [List.length_append]; omega), List.take_left, List.drop_left]

/-- A number of `w` bits from `k` bytes. -/
def word (short : ε) (k w : Nat) : Reader (BitVec 8) ε (BitVec w) :=
  (fun bytes => BitVec.ofNat w (Endian.ofLE bytes)) <$> next short k

theorem reads_word (short : ε) {k w : Nat} (hw : 2 ^ w = 256 ^ k) (v : BitVec w) :
    Reads (word short k w) (Endian.leBytes k v.toNat) v := by
  have hnext := reads_next short (Endian.leBytes k v.toNat)
  rw [Endian.length_leBytes] at hnext
  have hmap := hnext.map fun bytes => BitVec.ofNat w (Endian.ofLE bytes)
  rwa [Endian.ofLE_leBytes, Nat.mod_eq_of_lt (hw ▸ v.isLt), BitVec.ofNat_toNat, BitVec.setWidth_eq] at hmap

/-- What a sequence of readers has read was read by each of them. -/
theorem ok_of_bind (h : (p >>= f) s = .ok (b, t)) : ∃ a u, p s = .ok (a, u) ∧ f a u = .ok (b, t) := by
  change (p s >>= fun x => f x.1 x.2) = _ at h
  cases hp : p s with
  | error e =>
    rw [hp] at h
    nomatch h
  | ok x =>
    rw [hp] at h
    exact ⟨x.1, x.2, rfl, h⟩

theorem ok_of_lift (h : ((liftM r : Reader S ε α) >>= f) s = .ok (b, t)) : ∃ a, r = .ok a ∧ f a s = .ok (b, t) := by
  cases r with
  | error e => nomatch h
  | ok a => exact ⟨a, rfl, h⟩

theorem ok_of_pure {a b : α} (h : (pure a : Reader S ε α) s = .ok (b, t)) : b = a ∧ t = s := by
  cases h
  exact ⟨rfl, rfl⟩

end Readers
