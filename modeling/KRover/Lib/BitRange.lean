import Mathlib.Data.Nat.Notation
import Mathlib.Tactic.Common

/-! # Runs of bits in a machine word

The mask of `n` bits from bit `a` on, built as a shadow bitmap builds it from
two shifts of the word of all ones, and what setting, clearing and testing
such a run does to the single bits.
-/

set_option autoImplicit false

namespace BitRange

/-- The bits from `a` to `a + n` of a word of `w` bits. -/
def mask (w a n : Nat) : BitVec w :=
  (BitVec.allOnes w <<< a) &&& (BitVec.allOnes w >>> (w - a - n))

/-- The bits of a mask are those of its range. -/
theorem getLsbD_mask {w a n : Nat} (h : a + n ≤ w) (i : Nat) :
    (mask w a n).getLsbD i = decide (a ≤ i ∧ i < a + n) := by
  have hbits : (mask w a n).getLsbD i = true ↔ a ≤ i ∧ i < a + n := by
    rw [mask, BitVec.getLsbD_and, BitVec.getLsbD_shiftLeft, BitVec.getLsbD_ushiftRight,
      BitVec.getLsbD_allOnes, BitVec.getLsbD_allOnes]
    simp only [Bool.and_eq_true, Bool.not_eq_true', decide_eq_true_eq, decide_eq_false_iff_not]
    omega
  by_cases hi : a ≤ i ∧ i < a + n
  · rw [hbits.2 hi, decide_eq_true hi]
  · rw [decide_eq_false hi]
    exact Bool.eq_false_iff.2 fun htrue => hi (hbits.1 htrue)

/-- The first bit of a run is set, however far the run reaches. -/
theorem getLsbD_mask_first {w a n : Nat} (hn : 0 < n) (ha : a < w) :
    (mask w a n).getLsbD a = true := by
  rw [mask, BitVec.getLsbD_and, BitVec.getLsbD_shiftLeft, BitVec.getLsbD_ushiftRight,
    BitVec.getLsbD_allOnes, BitVec.getLsbD_allOnes]
  simp only [Bool.and_eq_true, Bool.not_eq_true', decide_eq_true_eq, decide_eq_false_iff_not]
  omega

/-- Marking a range sets its bits and leaves the others. -/
theorem getLsbD_or_mask {w a n : Nat} (h : a + n ≤ w) (x : BitVec w) (i : Nat) :
    (x ||| mask w a n).getLsbD i = true ↔ x.getLsbD i = true ∨ a ≤ i ∧ i < a + n := by
  rw [BitVec.getLsbD_or, getLsbD_mask h, Bool.or_eq_true, decide_eq_true_eq]

/-- Unmarking a range clears its bits and leaves the others. -/
theorem getLsbD_and_not_mask {w a n : Nat} (h : a + n ≤ w) (x : BitVec w) (i : Nat) :
    (x &&& ~~~(mask w a n)).getLsbD i = true
      ↔ x.getLsbD i = true ∧ ¬ (a ≤ i ∧ i < a + n) := by
  rw [BitVec.getLsbD_and, BitVec.getLsbD_not, getLsbD_mask h, Bool.and_eq_true]
  refine and_congr_right fun hx => ?_
  have hi : i < w := BitVec.lt_of_getLsbD hx
  rw [decide_eq_true hi, Bool.true_and, Bool.not_eq_true', decide_eq_false_iff_not]

/-- A run tests as set when one of its bits is. -/
theorem and_mask_ne_zero_iff {w a n : Nat} (h : a + n ≤ w) (x : BitVec w) :
    x &&& mask w a n ≠ 0#w ↔ ∃ i, (a ≤ i ∧ i < a + n) ∧ x.getLsbD i = true := by
  constructor
  · intro hne
    by_contra hno
    refine hne (BitVec.eq_of_getLsbD_eq fun i _ => ?_)
    rw [BitVec.getLsbD_and, getLsbD_mask h, BitVec.getLsbD_zero, Bool.and_eq_false_iff]
    by_cases hi : a ≤ i ∧ i < a + n
    · left
      by_contra hx
      exact hno ⟨i, hi, by simpa using hx⟩
    · right
      exact decide_eq_false hi
  · rintro ⟨i, hi, hx⟩ hzero
    have hbit : (x &&& mask w a n).getLsbD i = true := by
      rw [BitVec.getLsbD_and, getLsbD_mask h, hx, decide_eq_true hi]
      rfl
    rw [hzero, BitVec.getLsbD_zero] at hbit
    exact Bool.false_ne_true hbit

end BitRange
