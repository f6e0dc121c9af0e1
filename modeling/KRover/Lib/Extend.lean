import Mathlib.Tactic.Common

/-! # Extensions of a word

A word of `w` bits that is extended to `v`, with its sign or with zeros.

* `signExtend_inj`, `signExtend_eq_setWidth_iff`: when two extensions are the
  same;
* `signCopies`: the copies of the sign that stand above a word.
-/

set_option autoImplicit false

namespace Extend

variable {w v : Nat}

/-- An extension that is cut is an extension by less. -/
theorem setWidth_signExtend {u : Nat} (hu : u ≤ v) (z : BitVec w) :
    (z.signExtend v).setWidth u = z.signExtend u := by
  refine BitVec.eq_of_getLsbD_eq fun i hi => ?_
  have hiv : i < v := by omega
  rw [BitVec.getLsbD_setWidth, BitVec.getLsbD_signExtend, BitVec.getLsbD_signExtend,
    decide_eq_true hi, decide_eq_true hiv, Bool.true_and]

/-- A word that is extended is still there. -/
theorem signExtend_inj (h : w ≤ v) {x y : BitVec w} :
    x.signExtend v = y.signExtend v ↔ x = y := by
  constructor
  · intro hext
    have hcut := congrArg (BitVec.setWidth w) hext
    rw [setWidth_signExtend h, setWidth_signExtend h, BitVec.signExtend_eq,
      BitVec.signExtend_eq] at hcut
    exact hcut
  · rintro rfl
    rfl

/-- The two extensions of one word differ by its sign. -/
theorem signExtend_eq_setWidth_self_iff (h : w < v) (x : BitVec w) :
    x.signExtend v = x.setWidth v ↔ x.msb = false := by
  constructor
  · intro hext
    -- the bit right above the word
    have hbit : (x.signExtend v).getLsbD w = (x.setWidth v).getLsbD w := by rw [hext]
    rw [BitVec.getLsbD_signExtend, BitVec.getLsbD_setWidth, decide_eq_true h,
      if_neg (Nat.lt_irrefl w), Bool.true_and, Bool.true_and] at hbit
    exact hbit.trans (BitVec.getLsbD_of_ge x w (Nat.le_refl w))
  · exact BitVec.signExtend_eq_setWidth_of_msb_false

/-- When an extension with the sign is one with zeros. -/
theorem signExtend_eq_setWidth_iff (h : w ≤ v) {x y : BitVec w} :
    x.signExtend v = y.setWidth v ↔ x = y ∧ (w < v → y.msb = false) := by
  constructor
  · intro hext
    have hcut := congrArg (BitVec.setWidth w) hext
    rw [setWidth_signExtend h, BitVec.signExtend_eq, BitVec.setWidth_setWidth_of_le _ h,
      BitVec.setWidth_eq] at hcut
    subst hcut
    exact ⟨rfl, fun hlt => (signExtend_eq_setWidth_self_iff hlt x).1 hext⟩
  · rintro ⟨rfl, hmsb⟩
    rcases Nat.lt_or_eq_of_le h with hlt | rfl
    · exact (signExtend_eq_setWidth_self_iff hlt x).2 (hmsb hlt)
    · rw [BitVec.signExtend_eq, BitVec.setWidth_eq]

/-- The sign in every bit. -/
def signCopies (x : BitVec w) : BitVec w := if x.msb then BitVec.allOnes w else 0#w

/-- The sign of an extension decides between the two. -/
theorem setWidth_signCopies (h : w ≤ v) (x : BitVec w) :
    (if 0 ≤ (x.signExtend v).toInt then 0#v else BitVec.allOnes v).setWidth w = signCopies x := by
  have hsign : 0 ≤ (x.signExtend v).toInt ↔ x.msb = false := by
    rw [BitVec.toInt_signExtend_of_le h, BitVec.msb_eq_toInt, decide_eq_false_iff_not,
      Int.not_lt]
  rw [signCopies]
  cases hmsb : x.msb with
  | true =>
    rw [if_neg (by rw [hsign, hmsb]; decide), if_pos rfl]
    refine BitVec.eq_of_getLsbD_eq fun i hi => ?_
    have hiv : i < v := by omega
    simp [hi, hiv]
  | false =>
    rw [if_pos (hsign.2 hmsb), if_neg (by decide)]
    exact BitVec.setWidth_zero w v

end Extend
