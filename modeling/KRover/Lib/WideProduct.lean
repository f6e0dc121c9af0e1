import Mathlib.Algebra.Group.Int.Defs
import Mathlib.Algebra.Group.Nat.Defs
import Mathlib.Tactic.Common
import KRover.Lib.Extend

/-! # Products of twice the width

The exact product of two words of `w` bits has `2 * w`. A machine that computes
it in `n` bits and extends the result with its sign gets it right exactly when
it fits into `n` bits (`narrow_eq_smul_iff`).

* `eq_of_halves`: a product is determined by its two halves;
* `lowHalf_setWidth`, `highHalf_setWidth`: the halves of a product that was
  computed in a wider word.
-/

set_option autoImplicit false

namespace WideProduct

open Extend

variable {w v : Nat}

/-- The product of two words without sign. -/
def umul (x y : BitVec w) : BitVec (2 * w) := BitVec.ofNat (2 * w) (x.toNat * y.toNat)

/-- The product of two words with sign. -/
def smul (x y : BitVec w) : BitVec (2 * w) := BitVec.ofInt (2 * w) (x.toInt * y.toInt)

/-- The lower half of a product. -/
def lowHalf (p : BitVec (2 * w)) : BitVec w := p.setWidth w

/-- The upper half of a product. -/
def highHalf (p : BitVec (2 * w)) : BitVec w := (p >>> w).setWidth w

/-! ## Halves -/

/-- Cutting a word to twice the width does not change the lower half, and neither does it
matter whether the word is wider or narrower than that. -/
theorem lowHalf_setWidth (p : BitVec v) :
    lowHalf (p.setWidth (2 * w)) = p.setWidth w := by
  rw [lowHalf, BitVec.setWidth_setWidth_of_le _ (by omega)]

/-- The upper half can be cut out before or after the word is cut to twice the width: the
bits from `w` on are the same ones. -/
theorem highHalf_setWidth (p : BitVec v) :
    highHalf (p.setWidth (2 * w)) = (p >>> w).setWidth w := by
  refine BitVec.eq_of_getLsbD_eq fun i hi => ?_
  have hlt : w + i < 2 * w := by omega
  rw [highHalf, BitVec.getLsbD_setWidth, BitVec.getLsbD_setWidth, BitVec.getLsbD_ushiftRight,
    BitVec.getLsbD_ushiftRight, BitVec.getLsbD_setWidth, decide_eq_true hlt, Bool.true_and]

/-- A product is determined by its halves. -/
theorem eq_of_halves {p q : BitVec (2 * w)} (hlow : lowHalf p = lowHalf q)
    (hhigh : highHalf p = highHalf q) : p = q := by
  refine BitVec.eq_of_getLsbD_eq fun i hi => ?_
  by_cases hiw : i < w
  · have hbit := congrArg (fun x : BitVec w => x.getLsbD i) hlow
    simpa [lowHalf, hiw] using hbit
  · have hbit := congrArg (fun x : BitVec w => x.getLsbD (i - w)) hhigh
    have hlt : i - w < w := by omega
    have hsum : w + (i - w) = i := by omega
    simpa [highHalf, hlt, hsum] using hbit

/-! ## Products -/

/-- The product of two words that were extended far enough. -/
theorem toInt_mul_signExtend (hw : 0 < w) (h : 2 * w ≤ v) (x y : BitVec w) :
    (x.signExtend v * y.signExtend v).toInt = x.toInt * y.toInt := by
  have hle : -(2 ^ (w * 2 - 2)) ≤ x.toInt * y.toInt := BitVec.le_toInt_mul_toInt
  have hge : x.toInt * y.toInt ≤ 2 ^ (w * 2 - 2) := BitVec.toInt_mul_toInt_le
  have hpow : (2 : Int) ^ (w * 2 - 2) * 2 < 2 ^ v := by
    have hlt : 2 ^ (w * 2 - 2) * 2 < 2 ^ v := by
      rw [← Nat.pow_succ]
      exact Nat.pow_lt_pow_right (by decide) (by omega)
    exact_mod_cast hlt
  rw [BitVec.toInt_mul, BitVec.toInt_signExtend_of_le (by omega),
    BitVec.toInt_signExtend_of_le (by omega)]
  refine Int.bmod_eq_of_le_mul_two ?_ ?_
  · push_cast
    omega
  · push_cast
    omega

/-- The signed product in twice the width is that of the extended factors. -/
theorem smul_eq (x y : BitVec w) :
    smul x y = x.signExtend (2 * w) * y.signExtend (2 * w) := by
  rw [smul, BitVec.ofInt_mul]
  rfl

/-- In twice the width no signed product is lost, not even that of the two smallest factors. -/
theorem toInt_smul (hw : 0 < w) (x y : BitVec w) : (smul x y).toInt = x.toInt * y.toInt := by
  rw [smul_eq]
  exact toInt_mul_signExtend hw (Nat.le_refl _) x y

/-- A product that was computed in a wider word. -/
theorem umul_eq_setWidth (h : 2 * w ≤ v) (x y : BitVec w) :
    umul x y = (x.setWidth v * y.setWidth v).setWidth (2 * w) := by
  have hle : ∀ z : BitVec w, z.toNat % 2 ^ v = z.toNat := fun z =>
    Nat.mod_eq_of_lt (Nat.lt_of_lt_of_le z.isLt (Nat.pow_le_pow_right (by decide) (by omega)))
  refine BitVec.eq_of_toNat_eq ?_
  rw [umul, BitVec.toNat_ofNat, BitVec.toNat_setWidth, BitVec.toNat_mul, BitVec.toNat_setWidth,
    BitVec.toNat_setWidth, hle, hle, Nat.mod_mod_of_dvd _ (Nat.pow_dvd_pow 2 h)]

/-- A product in a word of at least twice the width has the same lower part. This is how the
halves are computed in a word of 128 bits. -/
theorem smul_eq_setWidth (h : 2 * w ≤ v) (x y : BitVec w) :
    smul x y = (x.signExtend v * y.signExtend v).setWidth (2 * w) := by
  rw [BitVec.setWidth_mul _ _ h, setWidth_signExtend h, setWidth_signExtend h, smul_eq]

/-- The range of a number of `n` bits. -/
theorem toInt_bounds {n : Nat} (z : BitVec n) : -2 ^ n ≤ z.toInt * 2 ∧ z.toInt * 2 < 2 ^ n := by
  have hle : -2 ^ n ≤ 2 * z.toInt := BitVec.le_two_mul_toInt
  have hlt : 2 * z.toInt < 2 ^ n := BitVec.two_mul_toInt_lt
  omega

/-- A product computed in `n` bits and extended with its sign is the exact one
just when that fits into `n` bits. -/
theorem narrow_eq_smul_iff {n : Nat} (hw : 0 < w) (hwn : w ≤ n) (hnv : n ≤ v) (h : 2 * w ≤ v)
    (x y : BitVec w) :
    ((x.signExtend n * y.signExtend n).signExtend v).setWidth (2 * w) = smul x y ↔
      -2 ^ n ≤ x.toInt * y.toInt * 2 ∧ x.toInt * y.toInt * 2 < 2 ^ n := by
  have hnarrow : (x.signExtend n * y.signExtend n).toInt = (x.toInt * y.toInt).bmod (2 ^ n) := by
    rw [BitVec.toInt_mul, BitVec.toInt_signExtend_of_le hwn, BitVec.toInt_signExtend_of_le hwn]
  constructor
  · intro heq
    have hbounds := toInt_bounds (x.signExtend n * y.signExtend n)
    by_cases hlt : 2 * w < n
    · rwa [toInt_mul_signExtend hw (Nat.le_of_lt hlt)] at hbounds
    · -- the result is extended to the width of the product
      have hint := congrArg BitVec.toInt heq
      rw [setWidth_signExtend h, BitVec.toInt_signExtend_of_le (by omega), toInt_smul hw] at hint
      rwa [hint] at hbounds
  · intro ⟨hle, hlt⟩
    have hfit : (x.signExtend n * y.signExtend n).signExtend v
        = x.signExtend v * y.signExtend v := by
      refine BitVec.eq_of_toInt_eq ?_
      rw [BitVec.toInt_signExtend_of_le hnv, hnarrow, toInt_mul_signExtend hw h]
      refine Int.bmod_eq_of_le_mul_two ?_ ?_
      · push_cast
        exact hle
      · push_cast
        exact hlt
    rw [hfit, smul_eq_setWidth h]

end WideProduct
