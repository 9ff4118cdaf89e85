import Mathlib.Data.BitVec

/-!
# Numbers as bytes

The low bytes of a number, least significant first, and the number such bytes
stand for. Reading back what was written keeps as much as there were bytes.
-/

namespace Endian

def leBytes : Nat → Nat → List (BitVec 8)
  | 0, _ => []
  | k + 1, v => BitVec.ofNat 8 v :: leBytes k (v / 256)

def ofLE : List (BitVec 8) → Nat
  | [] => 0
  | b :: bs => b.toNat + 256 * ofLE bs

@[simp] theorem length_leBytes (k v : Nat) : (leBytes k v).length = k := by
  induction k generalizing v with
  | zero => rfl
  | succ k ih => simp [leBytes, ih]

/-- As much of the number comes back as was written. -/
theorem ofLE_leBytes (k v : Nat) : ofLE (leBytes k v) = v % 256 ^ k := by
  induction k generalizing v with
  | zero => simp [leBytes, ofLE, Nat.mod_one]
  | succ k ih =>
    change (BitVec.ofNat 8 v).toNat + 256 * ofLE (leBytes k (v / 256)) = _
    rw [ih, BitVec.toNat_ofNat]
    calc v % 256 + 256 * (v / 256 % 256 ^ k) = v % (256 * 256 ^ k) := Nat.mod_mul.symm
      _ = v % 256 ^ (k + 1) := by rw [Nat.pow_succ']

theorem take_leBytes {j k : Nat} (h : j ≤ k) (v : Nat) : (leBytes k v).take j = leBytes j v := by
  induction j generalizing k v with
  | zero => rfl
  | succ j ih =>
    obtain ⟨k, rfl⟩ : ∃ k', k = k' + 1 := ⟨k - 1, by omega⟩
    simp only [leBytes, List.take_succ_cons]
    rw [ih (by omega)]

theorem drop_leBytes (j k v : Nat) : (leBytes (j + k) v).drop j = leBytes k (v / 256 ^ j) := by
  induction j generalizing v with
  | zero => simp
  | succ j ih =>
    rw [Nat.add_right_comm, leBytes, List.drop_succ_cons, ih, Nat.div_div_eq_div_mul, Nat.pow_succ']

/-- The bytes of the number that bytes stand for, cut or padded with zeros. -/
theorem leBytes_ofLE (k : Nat) (bytes : List (BitVec 8)) :
    leBytes k (ofLE bytes) = bytes.take k ++ List.replicate (k - bytes.length) 0 := by
  induction k generalizing bytes with
  | zero => simp [leBytes]
  | succ k ih =>
    cases bytes with
    | nil =>
      have hnil := ih []
      simp only [ofLE, List.take_nil, List.nil_append, List.length_nil, Nat.sub_zero] at hnil ⊢
      rw [leBytes, Nat.zero_div, hnil, List.replicate_succ]
      rfl
    | cons b bytes =>
      have hb := b.isLt
      have hlow : BitVec.ofNat 8 (b.toNat + 256 * ofLE bytes) = b := by
        apply BitVec.eq_of_toNat_eq
        rw [BitVec.toNat_ofNat]
        omega
      have hhigh : (b.toNat + 256 * ofLE bytes) / 256 = ofLE bytes := by omega
      rw [ofLE, leBytes, hlow, hhigh, ih, List.take_succ_cons, List.length_cons, Nat.add_sub_add_right, List.cons_append]

theorem ofLE_lt (bytes : List (BitVec 8)) : ofLE bytes < 256 ^ bytes.length := by
  induction bytes with
  | nil => exact Nat.one_pos
  | cons b bytes ih =>
    have hb := b.isLt
    rw [ofLE, List.length_cons, Nat.pow_succ]
    omega

/-! ## Either byte order -/

inductive Order where
  | little
  | big
  deriving DecidableEq, Repr

/-- The low `k` bytes of a number in the given order. -/
def encode (o : Order) (k v : Nat) : List (BitVec 8) :=
  match o with
  | .little => leBytes k v
  | .big => (leBytes k v).reverse

def decode (o : Order) (bytes : List (BitVec 8)) : Nat :=
  match o with
  | .little => ofLE bytes
  | .big => ofLE bytes.reverse

variable (o : Order)

@[simp] theorem length_encode (k v : Nat) : (encode o k v).length = k := by
  cases o <;> simp [encode]

theorem decode_encode (k v : Nat) : decode o (encode o k v) = v % 256 ^ k := by
  cases o <;> simp [decode, encode, ofLE_leBytes]

theorem encode_decode (bytes : List (BitVec 8)) : encode o bytes.length (decode o bytes) = bytes := by
  cases o with
  | little => simp [encode, decode, leBytes_ofLE]
  | big =>
    have h := leBytes_ofLE bytes.reverse.length bytes.reverse
    rw [List.take_length, Nat.sub_self, List.replicate_zero, List.append_nil, List.length_reverse] at h
    rw [encode, decode, h, List.reverse_reverse]

theorem decode_lt (bytes : List (BitVec 8)) : decode o bytes < 256 ^ bytes.length := by
  cases o with
  | little => exact ofLE_lt bytes
  | big =>
    have h := ofLE_lt bytes.reverse
    rw [List.length_reverse] at h
    exact h

/-- The number whose `k` bytes are at an offset. -/
def readAt (o : Order) (k : Nat) (data : List (BitVec 8)) (offset : Nat) : Nat :=
  decode o ((data.drop offset).take k)

theorem length_flatMap_encode (k : Nat) (l : List Nat) : (l.flatMap (encode o k)).length = k * l.length := by
  induction l with
  | nil => simp
  | cons v l ih =>
    rw [List.flatMap_cons, List.length_append, length_encode, ih, List.length_cons, Nat.mul_add, Nat.mul_one,
      Nat.add_comm]

/-- One of several numbers written one after another. -/
theorem readAt_flatMap (k : Nat) (pre post : List (BitVec 8)) (l : List Nat) {i : Nat} (hi : i < l.length) :
    readAt o k (pre ++ (l.flatMap (encode o k) ++ post)) (pre.length + k * i) = l[i] % 256 ^ k := by
  have hsplit : l.flatMap (encode o k) =
      (l.take i).flatMap (encode o k) ++ (encode o k l[i] ++ (l.drop (i + 1)).flatMap (encode o k)) := by
    conv_lhs => rw [← List.take_append_drop i l, List.drop_eq_getElem_cons hi, List.flatMap_append, List.flatMap_cons]
  have hlen : ((l.take i).flatMap (encode o k)).length = k * i := by
    rw [length_flatMap_encode, List.length_take, Nat.min_eq_left hi.le]
  rw [readAt, List.drop_length_add_append, hsplit, List.append_assoc, List.append_assoc, List.drop_left' hlen,
    List.take_left' (length_encode o k _), decode_encode]

end Endian
