import Mathlib.Algebra.Group.Int.Defs
import Mathlib.Algebra.Group.Nat.Defs
import Mathlib.Tactic.Common

/-! # Status flags of two's-complement arithmetic

The carry, zero, sign and overflow flags that the x86 instructions set from
their operands, and the conditions that read them.

* `Cond.holds_ofSub`: after a subtraction, and so after a comparison, the ten
  conditions of the unsigned, signed and equality groups are the comparisons
  of the operands they are named after;
* `be_ofAdd`, `l_ofAdd`, `le_ofAdd`: after an addition they compare the exact
  sum with zero or with the modulus;
* `be_ofLogic`, `l_ofLogic`, `le_ofLogic`: after a bitwise operation they
  compare the result with zero.
-/

set_option autoImplicit false

namespace StatusFlags

variable {w : Nat}

/-- The four status flags that conditions read. The parity and adjust flags are left out. -/
structure Flags where
  cf : Bool
  zf : Bool
  sf : Bool
  of : Bool
deriving DecidableEq, Repr

/-- The flags of `a - b`, which are those of `cmp` too. -/
def ofSub (a b : BitVec w) : Flags := ⟨a.ult b, a - b == 0, (a - b).msb, a.ssubOverflow b⟩

/-- The flags of `a + b`. -/
def ofAdd (a b : BitVec w) : Flags :=
  ⟨a.uaddOverflow b, a + b == 0, (a + b).msb, a.saddOverflow b⟩

/-- The flags of a bitwise operation with result `r`. -/
def ofLogic (r : BitVec w) : Flags := ⟨false, r == 0, r.msb, false⟩

/-- The conditions of the unsigned, signed and equality groups. -/
inductive Cond where
  | b | nb | be | nbe | l | nl | le | nle | z | nz
deriving DecidableEq, Repr

namespace Cond

/-- What a condition reads of the flags. -/
def holds : Cond → Flags → Bool
  | .b, f => f.cf
  | .nb, f => !f.cf
  | .be, f => f.cf || f.zf
  | .nbe, f => !(f.cf || f.zf)
  | .l, f => f.sf != f.of
  | .nl, f => f.sf == f.of
  | .le, f => f.zf || f.sf != f.of
  | .nle, f => !f.zf && f.sf == f.of
  | .z, f => f.zf
  | .nz, f => !f.zf

/-- The comparison a condition is named after. -/
def compare : Cond → BitVec w → BitVec w → Bool
  | .b, x, y => x.ult y
  | .nb, x, y => y.ule x
  | .be, x, y => x.ule y
  | .nbe, x, y => y.ult x
  | .l, x, y => x.slt y
  | .nl, x, y => y.sle x
  | .le, x, y => x.sle y
  | .nle, x, y => y.slt x
  | .z, x, y => x == y
  | .nz, x, y => x != y

end Cond

/-! ## Wrapped results -/

/-- The zero flag of a difference says whether the operands are equal, at any width. -/
theorem sub_beq_zero (a b : BitVec w) : (a - b == 0#w) = (a == b) := by
  rw [Bool.eq_iff_iff, beq_iff_eq, beq_iff_eq]
  constructor
  · intro h
    calc a = a - b + b := (BitVec.sub_add_cancel a b).symm
      _ = b := by rw [h, BitVec.zero_add]
  · intro h
    rw [h]
    exact BitVec.sub_self b

/-- A number that misses the signed range by less than its width wraps to the
one number of the range that differs from it by the width. -/
theorem bmod_two_pow {n : Nat} {d : Int} (h1 : -2 * 2 ^ n ≤ d) (h2 : d < 2 * 2 ^ n) :
    Int.bmod d (2 ^ (n + 1)) =
      if 2 ^ n ≤ d then d - 2 * 2 ^ n else if d < -2 ^ n then d + 2 * 2 ^ n else d := by
  have hpos : (0 : Int) < 2 ^ n := Int.pow_pos (by decide)
  have hcast : ((2 ^ (n + 1) : Nat) : Int) = 2 * 2 ^ n := by
    rw [Nat.pow_succ]
    push_cast
    omega
  rw [Int.bmod_def, hcast]
  by_cases hneg : d < 0
  · have hmod : d % (2 * 2 ^ n) = d + 2 * 2 ^ n := by
      rw [← Int.add_emod_right]
      exact Int.emod_eq_of_lt (by omega) (by omega)
    rw [hmod]
    split <;> split <;> (try split) <;> omega
  · rw [Int.emod_eq_of_lt (by omega) h2]
    split <;> split <;> (try split) <;> omega

/-- The sign of a wrapped result, corrected by the overflow, is the sign of
the exact one. -/
theorem msb_bne_overflow {n : Nat} {d : Int} {x : BitVec (n + 1)} (h1 : -2 * 2 ^ n ≤ d)
    (h2 : d < 2 * 2 ^ n) (hx : x.toInt = Int.bmod d (2 ^ (n + 1))) :
    (x.msb != decide (2 ^ n ≤ d ∨ d < -2 ^ n)) = decide (d < 0) := by
  have hpos : (0 : Int) < 2 ^ n := Int.pow_pos (by decide)
  rw [BitVec.msb_eq_toInt, hx, bmod_two_pow h1 h2]
  by_cases hhigh : 2 ^ n ≤ d
  · have hwrap : d - 2 * 2 ^ n < 0 := by omega
    have hnot : ¬ d < 0 := by omega
    simp [hhigh, hwrap, hnot]
  · by_cases hlow : d < -2 ^ n
    · have hwrap : ¬ d + 2 * 2 ^ n < 0 := by omega
      have hneg : d < 0 := by omega
      simp [hhigh, hlow, hwrap, hneg]
    · simp [hhigh, hlow]

/-- The signed ranges of two operands. -/
theorem toInt_bounds {n : Nat} (a : BitVec (n + 1)) : -2 ^ n ≤ a.toInt ∧ a.toInt < 2 ^ n := by
  have h1 := BitVec.le_toInt a
  have h2 := @BitVec.toInt_lt (n + 1) a
  simp only [Nat.add_sub_cancel] at h1 h2
  exact ⟨h1, h2⟩

/-! ## Subtraction -/

/-- The sign flag is that of the exact difference where it does not overflow, and the
opposite where it does. So the two together tell the smaller operand. -/
theorem msb_sub_bne_ssubOverflow (hw : 0 < w) (a b : BitVec w) :
    ((a - b).msb != a.ssubOverflow b) = a.slt b := by
  obtain ⟨n, rfl⟩ : ∃ n, w = n + 1 := ⟨w - 1, by omega⟩
  have ha := toInt_bounds a
  have hb := toInt_bounds b
  have hover : a.ssubOverflow b
      = decide (2 ^ n ≤ a.toInt - b.toInt ∨ a.toInt - b.toInt < -2 ^ n) := by
    simp [BitVec.ssubOverflow]
  rw [hover, msb_bne_overflow (by omega) (by omega) BitVec.toInt_sub, BitVec.slt_eq_decide,
    decide_eq_decide]
  omega

/-- Less or equal, as the processor puts it together from two flags. -/
theorem ult_or_beq (a b : BitVec w) : (a.ult b || a == b) = a.ule b := by
  rw [Bool.eq_iff_iff, Bool.or_eq_true, beq_iff_eq, BitVec.ult_iff_toNat_lt,
    BitVec.ule_iff_toNat_le, ← BitVec.toNat_inj]
  omega

/-- After a subtraction every condition is the comparison it is named
after. -/
theorem Cond.holds_ofSub (c : Cond) (hw : 0 < w) (a b : BitVec w) :
    c.holds (ofSub a b) = c.compare a b := by
  have hz : (ofSub a b).zf = (a == b) := sub_beq_zero a b
  have hc : (ofSub a b).cf = a.ult b := rfl
  have hs : ((ofSub a b).sf != (ofSub a b).of) = a.slt b := msb_sub_bne_ssubOverflow hw a b
  have hs' : ((ofSub a b).sf == (ofSub a b).of) = !a.slt b := by
    rw [← hs]
    cases (ofSub a b).sf <;> cases (ofSub a b).of <;> rfl
  cases c with
  | b => exact hc
  | nb => simp only [holds, compare, hc, BitVec.ule_eq_not_ult]
  | be => simp only [holds, compare, hc, hz, ult_or_beq]
  | nbe => simp only [holds, compare, hc, hz, ult_or_beq, BitVec.ule_eq_not_ult, Bool.not_not]
  | l => exact hs
  | nl => simp only [holds, compare, hs', BitVec.sle_eq_not_slt]
  | le => simp only [holds, compare, hz, hs, BitVec.sle_eq_slt_or_eq, Bool.or_comm]
  | nle =>
    have hslt : b.slt a = !a.sle b := by rw [BitVec.sle_eq_not_slt, Bool.not_not]
    simp only [holds, compare, hz, hs', hslt, BitVec.sle_eq_slt_or_eq, Bool.not_or,
      Bool.and_comm]
  | z => exact hz
  | nz => simp only [holds, compare, hz, bne]

/-! ## Pairs of conditions -/

namespace Cond

/-- The one of a condition and its negation that is named without `n`. -/
def base : Cond → Cond
  | .b | .nb => .b
  | .be | .nbe => .be
  | .l | .nl => .l
  | .le | .nle => .le
  | .z | .nz => .z

/-- Whether the name of the condition has the `n`. -/
def negated : Cond → Bool
  | .nb | .nbe | .nl | .nle | .nz => true
  | .b | .be | .l | .le | .z => false

/-- The conditions come in pairs, and the `n` negates. So what follows is said of five of
them. -/
theorem holds_base (c : Cond) (F : Flags) : c.holds F = (c.base.holds F ^^ c.negated) := by
  obtain ⟨cf, zf, sf, of⟩ := F
  cases c <;> cases cf <;> cases zf <;> cases sf <;> cases of <;> rfl

/-- The comparisons that the conditions are named after come in the same pairs. -/
theorem compare_base (c : Cond) (a b : BitVec w) :
    c.compare a b = (c.base.compare a b ^^ c.negated) := by
  cases c with
  | b | be | l | le | z => exact (Bool.xor_false _).symm
  | nb => simp only [compare, base, negated, BitVec.ule_eq_not_ult, Bool.xor_true]
  | nbe => simp only [compare, base, negated, BitVec.ule_eq_not_ult, Bool.xor_true, Bool.not_not]
  | nl => simp only [compare, base, negated, BitVec.sle_eq_not_slt, Bool.xor_true]
  | nle => simp only [compare, base, negated, BitVec.sle_eq_not_slt, Bool.xor_true, Bool.not_not]
  | nz => simp only [compare, base, negated, bne, Bool.xor_true]

end Cond

/-! ## Addition -/

/-- A sum wraps to zero when it is zero or the modulus. -/
theorem add_eq_zero_iff (a b : BitVec w) :
    a + b = 0#w ↔ a.toNat + b.toNat = 0 ∨ a.toNat + b.toNat = 2 ^ w := by
  have ha := a.isLt
  have hb := b.isLt
  rw [← BitVec.toNat_inj, BitVec.toNat_add, BitVec.toNat_ofNat, Nat.zero_mod]
  constructor
  · intro h
    obtain ⟨q, hq⟩ := Nat.dvd_of_mod_eq_zero h
    have hq2 : q < 2 := by
      by_contra hge
      have hmul : 2 ^ w * 2 ≤ 2 ^ w * q := Nat.mul_le_mul_left _ (by omega)
      omega
    obtain rfl | rfl : q = 0 ∨ q = 1 := by omega
    · exact Or.inl (by rw [hq, Nat.mul_zero])
    · exact Or.inr (by rw [hq, Nat.mul_one])
  · rintro (h | h)
    · rw [h, Nat.zero_mod]
    · rw [h, Nat.mod_self]

/-- After an addition `be` asks whether the sum wrapped around or is zero. -/
theorem be_ofAdd (a b : BitVec w) : Cond.be.holds (ofAdd a b) = true ↔
    2 ^ w ≤ a.toNat + b.toNat ∨ a.toNat + b.toNat = 0 := by
  show (decide (2 ^ w ≤ a.toNat + b.toNat) || a + b == 0#w) = true ↔ _
  rw [Bool.or_eq_true, decide_eq_true_eq, beq_iff_eq, add_eq_zero_iff]
  omega

/-- The sign and the overflow flag together are the sign of the exact sum. -/
theorem msb_add_bne_saddOverflow (hw : 0 < w) (a b : BitVec w) :
    ((a + b).msb != a.saddOverflow b) = decide (a.toInt + b.toInt < 0) := by
  obtain ⟨n, rfl⟩ : ∃ n, w = n + 1 := ⟨w - 1, by omega⟩
  have ha := toInt_bounds a
  have hb := toInt_bounds b
  have hover : a.saddOverflow b
      = decide (2 ^ n ≤ a.toInt + b.toInt ∨ a.toInt + b.toInt < -2 ^ n) := by
    simp [BitVec.saddOverflow]
  rw [hover]
  exact msb_bne_overflow (by omega) (by omega) (BitVec.toInt_add a b)

/-- After an addition `l` asks for the sign of the exact sum. -/
theorem l_ofAdd (hw : 0 < w) (a b : BitVec w) :
    Cond.l.holds (ofAdd a b) = true ↔ a.toInt + b.toInt < 0 := by
  show ((a + b).msb != a.saddOverflow b) = true ↔ _
  rw [msb_add_bne_saddOverflow hw, decide_eq_true_eq]

/-- After an addition `le` asks whether the exact sum is not positive. A wrapped sum of zero
is the exact one unless it overflows, and then the exact one is negative. -/
theorem le_ofAdd (hw : 0 < w) (a b : BitVec w) :
    Cond.le.holds (ofAdd a b) = true ↔ a.toInt + b.toInt ≤ 0 := by
  show (a + b == 0#w || ((a + b).msb != a.saddOverflow b)) = true ↔ _
  rw [msb_add_bne_saddOverflow hw, Bool.or_eq_true, beq_iff_eq, decide_eq_true_eq]
  obtain ⟨n, rfl⟩ : ∃ n, w = n + 1 := ⟨w - 1, by omega⟩
  have ha := toInt_bounds a
  have hb := toInt_bounds b
  have hpos : (0 : Int) < 2 ^ n := Int.pow_pos (by decide)
  have hsum : a + b = 0#(n + 1) ↔ Int.bmod (a.toInt + b.toInt) (2 ^ (n + 1)) = 0 := by
    rw [← BitVec.toInt_inj, BitVec.toInt_add, BitVec.toInt_zero]
  -- a sum that is not negative wraps to zero only if it is zero
  rw [hsum, bmod_two_pow (by omega) (by omega)]
  split
  · omega
  · split <;> omega

/-! ## Bitwise operations -/

/-- A bitwise operation clears the carry, so `be` asks for a result of zero. -/
theorem be_ofLogic (r : BitVec w) : Cond.be.holds (ofLogic r) = true ↔ r = 0#w := by
  show (false || r == 0#w) = true ↔ _
  rw [Bool.false_or, beq_iff_eq]

/-- It clears the overflow flag, so `l` asks for the sign of the result. -/
theorem l_ofLogic (r : BitVec w) : Cond.l.holds (ofLogic r) = true ↔ r.toInt < 0 := by
  show (r.msb != false) = true ↔ _
  rw [Bool.bne_false, BitVec.msb_eq_toInt, decide_eq_true_eq]

/-- And `le` asks whether the result is not positive. -/
theorem le_ofLogic (r : BitVec w) : Cond.le.holds (ofLogic r) = true ↔ r.toInt ≤ 0 := by
  show (r == 0#w || (r.msb != false)) = true ↔ _
  rw [Bool.bne_false, BitVec.msb_eq_toInt, Bool.or_eq_true, beq_iff_eq, decide_eq_true_eq,
    ← BitVec.toInt_inj, BitVec.toInt_zero]
  omega

end StatusFlags
