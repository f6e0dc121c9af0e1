import Mathlib.Algebra.BigOperators.Fin
import Mathlib.Tactic.Ring

/-! # Little-endian byte strings

A list of bytes read as a number, the first byte lowest, and the bytes of a
number.

* `ofBytes_append`: a string behind another is shifted by its length;
* `ofBytes_inj`: strings of one length are determined by their numbers;
* `ofBytes_bytesOf`: the first `n` bytes of a number give it back modulo
  `256 ^ n`;
* `ofBytes_eq_sum`: the number as the usual sum.
-/

set_option autoImplicit false

namespace Bytes

/-- The number a little-endian byte string stands for. -/
def ofBytes : List (BitVec 8) → Nat
  | [] => 0
  | b :: bs => b.toNat + 256 * ofBytes bs

/-- Byte `i` of a number. -/
def byteOf (n i : Nat) : BitVec 8 := BitVec.ofNat 8 (n / 256 ^ i)

/-- The first `k` bytes of a number. -/
def bytesOf (n k : Nat) : List (BitVec 8) := (List.range k).map (byteOf n)

/-- The empty string is the number zero. -/
@[simp] theorem ofBytes_nil : ofBytes [] = 0 := rfl

/-- The first byte is the lowest. -/
@[simp] theorem ofBytes_cons (b : BitVec 8) (bs : List (BitVec 8)) :
    ofBytes (b :: bs) = b.toNat + 256 * ofBytes bs := rfl

/-- As many bytes as were asked for, whatever the number. -/
@[simp] theorem length_bytesOf (n k : Nat) : (bytesOf n k).length = k := by
  simp [bytesOf]

/-- A string behind another one counts above it. -/
theorem ofBytes_append (xs ys : List (BitVec 8)) :
    ofBytes (xs ++ ys) = ofBytes xs + 256 ^ xs.length * ofBytes ys := by
  induction xs with
  | nil => simp
  | cons x xs ih =>
    rw [List.cons_append, ofBytes_cons, ih, ofBytes_cons, List.length_cons]
    ring

/-- A string of `k` bytes is a number below `256 ^ k`. -/
theorem ofBytes_lt (xs : List (BitVec 8)) : ofBytes xs < 256 ^ xs.length := by
  induction xs with
  | nil => simp
  | cons x xs ih =>
    have hx : x.toNat < 256 := x.isLt
    rw [ofBytes_cons, List.length_cons, pow_succ]
    omega

/-- Two strings of one length with one number are equal. The induction takes
the lowest byte off both. -/
theorem ofBytes_inj {xs ys : List (BitVec 8)} (hlen : xs.length = ys.length)
    (h : ofBytes xs = ofBytes ys) : xs = ys := by
  induction xs generalizing ys with
  | nil => exact (List.length_eq_zero_iff.1 hlen.symm).symm
  | cons x xs ih =>
    cases ys with
    | nil => simp at hlen
    | cons y ys =>
      have hx : x.toNat < 256 := x.isLt
      have hy : y.toNat < 256 := y.isLt
      rw [ofBytes_cons, ofBytes_cons] at h
      have hxy : x = y := BitVec.eq_of_toNat_eq (by omega)
      rw [hxy, ih (Nat.succ.inj hlen) (by omega)]

/-- A byte of a number, as arithmetic. -/
theorem byteOf_toNat (n i : Nat) : (byteOf n i).toNat = n / 256 ^ i % 256 :=
  BitVec.toNat_ofNat _ 8

/-- One byte more is put at the upper end. -/
theorem bytesOf_succ (n k : Nat) : bytesOf n (k + 1) = bytesOf n k ++ [byteOf n k] := by
  rw [bytesOf, List.range_succ, List.map_append]
  rfl

/-- The first `k` bytes of a number give it back modulo `256 ^ k`. -/
theorem ofBytes_bytesOf (n k : Nat) : ofBytes (bytesOf n k) = n % 256 ^ k := by
  induction k with
  | zero => simp [bytesOf, Nat.mod_one]
  | succ k ih =>
    rw [bytesOf_succ, ofBytes_append, ih, length_bytesOf, ofBytes_cons, ofBytes_nil,
      byteOf_toNat, pow_succ, Nat.mod_mul]
    ring

/-- A string is the bytes of its number. -/
theorem bytesOf_ofBytes (bs : List (BitVec 8)) : bytesOf (ofBytes bs) bs.length = bs := by
  refine ofBytes_inj (length_bytesOf _ _) ?_
  rw [ofBytes_bytesOf, Nat.mod_eq_of_lt (ofBytes_lt bs)]

/-- The bytes of a string are read back from its number. -/
theorem byteOf_ofBytes {bs : List (BitVec 8)} {i : Nat} (hi : i < bs.length) :
    byteOf (ofBytes bs) i = bs[i] := by
  have hget : (bytesOf (ofBytes bs) bs.length)[i]? = some (byteOf (ofBytes bs) i) := by
    simp [bytesOf, hi]
  rw [bytesOf_ofBytes, List.getElem?_eq_getElem hi] at hget
  exact (Option.some.inj hget).symm

/-- A byte of a part of a number is a byte of the number. -/
theorem byteOf_part {n s k i : Nat} (h : i < k) :
    byteOf (n / 256 ^ s % 256 ^ k) i = byteOf n (s + i) := by
  obtain ⟨j, rfl⟩ := Nat.exists_eq_add_of_lt h
  have hsplit : 256 ^ (i + j + 1) = 256 ^ i * 256 ^ (j + 1) := by ring
  have hdvd : 256 ∣ 256 ^ (j + 1) := Dvd.intro_left (256 ^ j) rfl
  refine BitVec.eq_of_toNat_eq ?_
  rw [byteOf_toNat, byteOf_toNat, hsplit, Nat.mod_mul_right_div_self,
    Nat.mod_mod_of_dvd _ hdvd, Nat.div_div_eq_div_mul, pow_add]

/-- The bytes of a number below its `k`-th. -/
theorem byteOf_mod {n k i : Nat} (h : i < k) : byteOf (n % 256 ^ k) i = byteOf n i := by
  have hpart : byteOf (n / 256 ^ 0 % 256 ^ k) i = byteOf n (0 + i) := byteOf_part h
  rwa [pow_zero, Nat.div_one, Nat.zero_add] at hpart

/-- The bytes of a word narrowed to `n` bytes are its own. -/
theorem byteOf_setWidth {w n i : Nat} (x : BitVec w) (h : i < n) :
    byteOf (x.setWidth (8 * n)).toNat i = byteOf x.toNat i := by
  rw [BitVec.toNat_setWidth, Nat.pow_mul]
  exact byteOf_mod h

/-- The bytes of `n` bytes extended with their sign are their own. -/
theorem byteOf_signExtend {w n i : Nat} (x : BitVec (8 * n)) (hw : 8 * n ≤ w) (h : i < n) :
    byteOf (x.signExtend w).toNat i = byteOf x.toNat i := by
  have hlow : (x.signExtend w).setWidth (8 * n) = x := by
    refine BitVec.eq_of_getLsbD_eq fun j hj => ?_
    rw [BitVec.getLsbD_setWidth, BitVec.getLsbD_signExtend, if_pos hj]
    simp [hj, show j < w by omega]
  rw [← byteOf_setWidth (x.signExtend w) h, hlow]

/-- The number of a string of computed bytes as a sum. -/
theorem ofBytes_eq_sum (f : Nat → BitVec 8) (n : Nat) :
    ofBytes ((List.range n).map f) = ∑ i ∈ Finset.range n, 256 ^ i * (f i).toNat := by
  induction n with
  | zero => simp
  | succ n ih =>
    rw [List.range_succ, List.map_append, ofBytes_append, ih, Finset.sum_range_succ]
    simp

end Bytes
