import Mathlib.Order.Fin.Basic
import Mathlib.Tactic.Common

/-! # Bisection of a sorted table

The loop that looks for a value in a table of `n` keys, in the interval of
indices from `low` to `high`, both included. The bounds are integers, since an
empty interval may end below the table; that they stay inside it is carried
along, so every read is in range.

* `find_sound`: an index that is returned holds the value;
* `find_complete`: over increasing keys a value of the interval is found;
* `find_spec`: both, for a search through the whole table.
-/

set_option autoImplicit false

namespace Bisect

variable {α : Type} [LinearOrder α] {n : Nat}

/-- The loop over the interval from `low` to `high`; `-1` when it is empty. -/
def find (key : Fin n → α) (x : α) (low high : Int) (hlow : 0 ≤ low) (hhigh : high < n) : Int :=
  if h : low ≤ high then
    let mid := (low + high) / 2
    let midVal := key ⟨mid.toNat, by omega⟩
    if midVal < x then find key x (mid + 1) high (by omega) hhigh
    else if midVal > x then find key x low (mid - 1) hlow (by omega)
    else mid
  else -1
termination_by (high + 1 - low).toNat

variable {key : Fin n → α} {x : α} {low high : Int}

/-- The search ends at an index of the value, or with `-1`. -/
theorem find_sound (hlow : 0 ≤ low) (hhigh : high < n) :
    find key x low high hlow hhigh = -1 ∨
      ∃ i : Fin n, find key x low high hlow hhigh = i ∧ key i = x := by
  fun_induction find key x low high hlow hhigh with
  | case1 low high hlow hhigh hle mid midVal hlt ih => exact ih
  | case2 low high hlow hhigh hle mid midVal hlt hgt ih => exact ih
  | case3 low high hlow hhigh hle mid midVal hlt hgt =>
    refine Or.inr ⟨⟨mid.toNat, by omega⟩, ?_, le_antisymm (not_lt.1 hgt) (not_lt.1 hlt)⟩
    show mid = (mid.toNat : Int)
    omega
  | case4 low high hlow hhigh hle => exact Or.inl rfl

/-- Over increasing keys, an index of the interval that holds the value is the
one returned. -/
theorem find_complete (hlow : 0 ≤ low) (hhigh : high < n) (hkey : StrictMono key) {i : Fin n}
    (hi : key i = x) (hl : low ≤ i) (hh : (i : Int) ≤ high) :
    find key x low high hlow hhigh = i := by
  fun_induction find key x low high hlow hhigh with
  | case1 low high hlow hhigh hle mid midVal hlt ih =>
    -- the key at `mid` is below the value, so the index lies above `mid`
    have hmid : (⟨mid.toNat, by omega⟩ : Fin n) < i := hkey.lt_iff_lt.1 (hi ▸ hlt)
    have hnat : mid.toNat < i := hmid
    exact ih (by omega) hh
  | case2 low high hlow hhigh hle mid midVal hlt hgt ih =>
    have hmid : i < (⟨mid.toNat, by omega⟩ : Fin n) := hkey.lt_iff_lt.1 (hi ▸ hgt)
    have hnat : (i : Nat) < mid.toNat := hmid
    exact ih hl (by omega)
  | case3 low high hlow hhigh hle mid midVal hlt hgt =>
    have heq : key ⟨mid.toNat, by omega⟩ = key i :=
      (le_antisymm (not_lt.1 hgt) (not_lt.1 hlt)).trans hi.symm
    have hmid : (⟨mid.toNat, by omega⟩ : Fin n) = i := hkey.injective heq
    have hnat : mid.toNat = i := congrArg Fin.val hmid
    omega
  | case4 low high hlow hhigh hle => omega

/-- A search through a whole table of increasing keys. -/
theorem find_spec (hlow : 0 ≤ low) (hhigh : high < n) (hkey : StrictMono key) (hn : low = 0)
    (hm : high = (n : Int) - 1) :
    (∀ i : Fin n, key i = x → find key x low high hlow hhigh = i) ∧
    ((∀ i : Fin n, key i ≠ x) → find key x low high hlow hhigh = -1) := by
  constructor
  · intro i hi
    exact find_complete hlow hhigh hkey hi (by omega) (by omega)
  · intro hno
    have hsound : find key x low high hlow hhigh = -1 ∨ _ := find_sound hlow hhigh
    rcases hsound with h | ⟨i, -, hi⟩
    · exact h
    · exact absurd hi (hno i)

end Bisect
