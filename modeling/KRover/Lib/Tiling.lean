import Mathlib.Algebra.Ring.Nat
import KRover.Lib.Segment

/-! # Tilings and the order of their pieces

A list of segments that follow each other without a gap, the bytes it spells,
and the bytes it spells when its pieces are taken from last to first. Taking
the pieces in the opposite order moves each piece as a whole: the piece from
`s` to `t` of a range of `n` positions goes to `n - t`.

* `Tiles.getElem?_spell`: in their order the pieces spell what the list reads
  as;
* `Tiles.getElem?_spell_reverse`: where a byte goes in the opposite order;
* `Tiles.exists_of_lt`: every position of the opposite order is reached;
* `Tiles.spell_reverse_eq_iff`: so the two orders spell the same bytes exactly
  when no piece lands on different ones.
-/

set_option autoImplicit false

namespace Segments

universe u v

variable {ε : Type u} {β : Type v}

/-- The segments follow each other from `a` to `n`. -/
def Tiles : Int → Int → List (Segment ε) → Prop
  | a, n, [] => a = n
  | a, n, x :: xs => x.addr = a ∧ 0 < x.size ∧ Tiles x.stop n xs

/-- The bytes of the segments, one segment after the other. -/
def spell (bytes : ε → Nat → β) (L : List (Segment ε)) : List β :=
  L.flatMap fun x => (List.range x.size).map (bytes x.val)

/-- No segments spell nothing. -/
@[simp] theorem spell_nil (bytes : ε → Nat → β) : spell bytes ([] : List (Segment ε)) = [] :=
  rfl

/-- The bytes of the head come first. -/
theorem spell_cons (bytes : ε → Nat → β) (x : Segment ε) (L : List (Segment ε)) :
    spell bytes (x :: L) = (List.range x.size).map (bytes x.val) ++ spell bytes L := rfl

/-- Lists one behind the other spell their bytes one behind the other. -/
theorem spell_append (bytes : ε → Nat → β) (L M : List (Segment ε)) :
    spell bytes (L ++ M) = spell bytes L ++ spell bytes M := List.flatMap_append

/-- As many bytes are spelled as the segments have. -/
theorem length_spell (bytes : ε → Nat → β) (L : List (Segment ε)) :
    (spell bytes L).length = (L.map Segment.size).sum := by
  induction L with
  | nil => rfl
  | cons x xs ih => rw [spell_cons]; simp [ih]

/-- The opposite order spells as many bytes. -/
theorem length_spell_reverse (bytes : ε → Nat → β) (L : List (Segment ε)) :
    (spell bytes L.reverse).length = (spell bytes L).length := by
  rw [length_spell, length_spell, List.map_reverse, List.sum_reverse]

namespace Tiles

variable {bytes : ε → Nat → β} {L : List (Segment ε)} {a n : Int}

/-- What is tiled is no negative range. -/
theorem le (h : Tiles a n L) : a ≤ n := by
  induction L generalizing a with
  | nil => exact le_of_eq h
  | cons x xs ih =>
    obtain ⟨rfl, hpos, hxs⟩ := h
    have hstop : x.stop = x.addr + x.size := rfl
    have hle := ih hxs
    omega

/-- Two tilings that meet are one tiling. -/
theorem append {b : Int} {M : List (Segment ε)} (h : Tiles a b L) (hM : Tiles b n M) :
    Tiles a n (L ++ M) := by
  induction L generalizing a with
  | nil => exact (show a = b from h) ▸ hM
  | cons x xs ih => exact ⟨h.1, h.2.1, ih h.2.2⟩

/-- The sizes of the pieces add up to the length of the range. -/
theorem sum_sizes (h : Tiles a n L) : ((L.map Segment.size).sum : Int) = n - a := by
  induction L generalizing a with
  | nil =>
    rw [show a = n from h]
    simp
  | cons x xs ih =>
    obtain ⟨rfl, hpos, hxs⟩ := h
    have hstop : x.stop = x.addr + x.size := rfl
    have hsum := ih hxs
    rw [List.map_cons, List.sum_cons]
    omega

/-- The bytes of a tiling fill its range, so the length does not depend on how it is cut
into segments. -/
theorem length_spell (h : Tiles a n L) : ((spell bytes L).length : Int) = n - a := by
  rw [Segments.length_spell]
  exact h.sum_sizes

/-- Each piece starts where the one before it ends. -/
theorem addr_succ (h : Tiles a n L) {i : Nat} {x y : Segment ε} (hx : L[i]? = some x)
    (hy : L[i + 1]? = some y) : y.addr = x.stop := by
  induction L generalizing a i with
  | nil => simp at hx
  | cons z zs ih =>
    obtain ⟨-, -, hzs⟩ := h
    cases i with
    | zero =>
      obtain rfl : z = x := Option.some.inj hx
      cases zs with
      | nil => simp at hy
      | cons w ws =>
        obtain rfl : w = y := Option.some.inj hy
        exact hzs.1
    | succ i => exact ih hzs hx hy

/-- The segments of a tiling lie in its range. -/
theorem inside (h : Tiles a n L) : ∀ x ∈ L, a ≤ x.addr ∧ 0 < x.size ∧ x.stop ≤ n := by
  induction L generalizing a with
  | nil => simp
  | cons y ys ih =>
    obtain ⟨rfl, hpos, hys⟩ := h
    have hstop : y.stop = y.addr + y.size := rfl
    intro x hx
    rcases List.mem_cons.1 hx with rfl | hx
    · exact ⟨le_refl _, hpos, hys.le⟩
    · obtain ⟨h1, h2, h3⟩ := ih hys x hx
      exact ⟨by omega, h2, h3⟩

/-- A tiling is in order. The converse fails where there are gaps. -/
theorem sorted (h : Tiles a n L) : Sorted L := by
  induction L generalizing a with
  | nil => exact Sorted.nil
  | cons x xs ih =>
    obtain ⟨-, hpos, hxs⟩ := h
    exact sorted_cons.2 ⟨hpos, ih hxs, fun y hy => (hxs.inside y hy).1⟩

/-- Every position of the range lies in a piece. -/
theorem covered (h : Tiles a n L) {b : Int} (ha : a ≤ b) (hb : b < n) :
    ∃ x ∈ L, x.Covers b := by
  induction L generalizing a with
  | nil =>
    have hn : a = n := h
    omega
  | cons x xs ih =>
    obtain ⟨rfl, hpos, hxs⟩ := h
    by_cases hx : b < x.stop
    · exact ⟨x, by simp, ha, hx⟩
    · obtain ⟨y, hy, hyb⟩ := ih hxs (by omega)
      exact ⟨y, by simp [hy], hyb⟩

/-- The pieces spell their bytes in place. -/
theorem getElem?_spell (h : Tiles a n L) {x : Segment ε} (hx : x ∈ L) {k : Nat}
    (hk : k < x.size) :
    (spell bytes L)[(x.addr - a).toNat + k]? = some (bytes x.val k) := by
  induction L generalizing a with
  | nil => simp at hx
  | cons y ys ih =>
    obtain ⟨rfl, hpos, hys⟩ := h
    have hstop : y.stop = y.addr + y.size := rfl
    rcases List.mem_cons.1 hx with rfl | hx
    · rw [spell_cons, List.getElem?_append_left (by simpa using hk)]
      simp [hk]
    · have hin := (hys.inside x hx).1
      have hidx : (x.addr - y.addr).toNat + k - y.size = (x.addr - y.stop).toNat + k := by omega
      rw [spell_cons, List.getElem?_append_right (by simp; omega), List.length_map,
        List.length_range, hidx]
      exact ih hys hx

/-- In the opposite order the piece that ends at `t` starts at `n - t`. -/
theorem getElem?_spell_reverse (h : Tiles a n L) {x : Segment ε} (hx : x ∈ L) {k : Nat}
    (hk : k < x.size) :
    (spell bytes L.reverse)[(n - x.stop).toNat + k]? = some (bytes x.val k) := by
  induction L generalizing a with
  | nil => simp at hx
  | cons y ys ih =>
    obtain ⟨rfl, hpos, hys⟩ := h
    have hlen : ((spell bytes ys.reverse).length : Int) = n - y.stop := by
      rw [length_spell_reverse]
      exact hys.length_spell
    rw [List.reverse_cons, spell_append]
    rcases List.mem_cons.1 hx with rfl | hx
    · -- the first piece comes last, behind all the others
      have hidx : (n - x.stop).toNat + k - (spell bytes ys.reverse).length = k := by omega
      rw [List.getElem?_append_right (by omega), hidx, spell_cons]
      simp [hk]
    · have hin := hys.inside x hx
      have hstop : x.stop = x.addr + x.size := rfl
      rw [List.getElem?_append_left (by omega)]
      exact ih hys hx

/-- Every position of the opposite order is one that a piece goes to. -/
theorem exists_of_lt (h : Tiles a n L) {j : Nat} (hj : (j : Int) < n - a) :
    ∃ x ∈ L, ∃ k < x.size, j = (n - x.stop).toNat + k := by
  induction L generalizing a with
  | nil =>
    have hn : a = n := h
    omega
  | cons y ys ih =>
    obtain ⟨rfl, hpos, hys⟩ := h
    have hstop : y.stop = y.addr + y.size := rfl
    have hle := hys.le
    by_cases hlt : (j : Int) < n - y.stop
    · obtain ⟨x, hx, k, hk, hjk⟩ := ih hys hlt
      exact ⟨x, by simp [hx], k, hk, hjk⟩
    · exact ⟨y, by simp, j - (n - y.stop).toNat, by omega, by omega⟩

/-- The two orders spell the same bytes exactly when each piece lands on bytes
like its own. -/
theorem spell_reverse_eq_iff (h : Tiles a n L) :
    spell bytes L.reverse = spell bytes L ↔
      ∀ x ∈ L, ∀ k < x.size,
        (spell bytes L)[(n - x.stop).toNat + k]? = some (bytes x.val k) := by
  constructor
  · intro heq x hx k hk
    rw [← heq]
    exact h.getElem?_spell_reverse hx hk
  · intro hall
    have hlen : ((spell bytes L).length : Int) = n - a := h.length_spell
    have hrev := length_spell_reverse bytes L
    refine List.ext_getElem? fun j => ?_
    by_cases hj : (j : Int) < n - a
    · obtain ⟨x, hx, k, hk, rfl⟩ := h.exists_of_lt hj
      rw [hall x hx k hk]
      exact h.getElem?_spell_reverse hx hk
    · rw [List.getElem?_eq_none (by omega), List.getElem?_eq_none (by omega)]

end Tiles

end Segments
