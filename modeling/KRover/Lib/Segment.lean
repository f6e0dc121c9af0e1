import Mathlib.Data.List.Basic
import Mathlib.Algebra.Order.Group.Int
import Mathlib.Tactic.Common

/-! # Lists of disjoint segments of an integer line

A *segment* is a half-open interval `[addr, addr + size)` that carries a
value. A store that keeps a sorted list of disjoint segments answers two
questions: which segment covers a position, and what is left of the
list when a range is cut out, copied or replaced.

The value type is arbitrary. The only thing the store knows about it is
an operation `cut e s t`, the part of `e` from `s` to `t`, which it applies
whenever the edge of a range falls strictly inside a segment.

* `below`, `above` and `window`: what lies before, after and inside a
  range, with the segments at its edges cut;
* `lookup_below`, `lookup_above`, `lookup_window`: the three operations
  read byte by byte;
* `splice`: replacing a range, with `lookup_splice` and `Sorted.splice`.
-/

set_option autoImplicit false

namespace Segments

universe u v

/-- A value laid over the half-open interval `[addr, addr + size)`. -/
structure Segment (ε : Type u) where
  addr : Int
  size : Nat
  val : ε
deriving DecidableEq, Repr

variable {ε : Type u} {β : Type v}

namespace Segment

/-- The first position after the segment. -/
def stop (x : Segment ε) : Int := x.addr + x.size

/-- `b` lies in the segment. -/
def Covers (x : Segment ε) (b : Int) : Prop := x.addr ≤ b ∧ b < x.stop

/-- Whether an address lies under a segment can be computed. -/
instance (x : Segment ε) (b : Int) : Decidable (x.Covers b) :=
  inferInstanceAs (Decidable (_ ∧ _))

/-- The segment moved down by `d`. -/
def shift (d : Int) (x : Segment ε) : Segment ε := { x with addr := x.addr - d }

/-- The end of a segment, in the form in which `omega` can use it. -/
@[simp] theorem stop_mk (a : Int) (n : Nat) (e : ε) : (Segment.mk a n e).stop = a + n := rfl

/-- A shift moves the address down by `d`, so that a range can be moved to the origin. -/
@[simp] theorem shift_addr (d : Int) (x : Segment ε) : (x.shift d).addr = x.addr - d := rfl

/-- A shift keeps the size. -/
@[simp] theorem shift_size (d : Int) (x : Segment ε) : (x.shift d).size = x.size := rfl

/-- A shift keeps the value: the bytes are counted from the start of the segment. -/
@[simp] theorem shift_val (d : Int) (x : Segment ε) : (x.shift d).val = x.val := rfl

/-- The end moves with the address. -/
@[simp] theorem shift_stop (d : Int) (x : Segment ε) : (x.shift d).stop = x.stop - d := by
  simp only [stop, shift_addr, shift_size]
  omega

end Segment

/-! ## Reading a position -/

/-- The value byte that the first segment over `b` holds there, if any. -/
def lookup (bytes : ε → Nat → β) : List (Segment ε) → Int → Option β
  | [], _ => none
  | x :: xs, b =>
    if x.Covers b then some (bytes x.val (b - x.addr).toNat) else lookup bytes xs b

/-- Some segment of the list lies over `b`. -/
def Covered (L : List (Segment ε)) (b : Int) : Prop := ∃ x ∈ L, x.Covers b

/-- Nothing is covered by no segments. -/
@[simp] theorem covered_nil (b : Int) : ¬ Covered ([] : List (Segment ε)) b := by
  simp [Covered]

/-- Coverage of a list, segment by segment. The inductions below go along it. -/
@[simp] theorem covered_cons (x : Segment ε) (L : List (Segment ε)) (b : Int) :
    Covered (x :: L) b ↔ x.Covers b ∨ Covered L b := by
  simp [Covered]

/-- Coverage of two lists, one behind the other. -/
@[simp] theorem covered_append (L M : List (Segment ε)) (b : Int) :
    Covered (L ++ M) b ↔ Covered L b ∨ Covered M b := by
  simp [Covered, or_and_right, exists_or]

/-- A position reads as something exactly when it is covered. -/
theorem lookup_isSome (bytes : ε → Nat → β) (L : List (Segment ε)) (b : Int) :
    (lookup bytes L b).isSome ↔ Covered L b := by
  induction L with
  | nil => simp [lookup]
  | cons x xs ih =>
    rw [lookup, covered_cons]
    split
    · simp [*]
    · simp [*]

/-- A byte is found exactly where one is covered. -/
theorem lookup_eq_none (bytes : ε → Nat → β) (L : List (Segment ε)) (b : Int) :
    lookup bytes L b = none ↔ ¬ Covered L b := by
  rw [← lookup_isSome bytes, Option.not_isSome_iff_eq_none]

/-- Reading a concatenation: the left list wins. -/
theorem lookup_append (bytes : ε → Nat → β) (L M : List (Segment ε)) (b : Int) :
    lookup bytes (L ++ M) b = (lookup bytes L b).or (lookup bytes M b) := by
  induction L with
  | nil => simp [lookup]
  | cons x xs ih =>
    simp only [List.cons_append, lookup, ih]
    split <;> simp

/-- Reading a moved list is reading the list at the moved position. -/
theorem lookup_shift (bytes : ε → Nat → β) (d : Int) (L : List (Segment ε)) (b : Int) :
    lookup bytes (L.map (Segment.shift d)) b = lookup bytes L (b + d) := by
  induction L with
  | nil => rfl
  | cons x xs ih =>
    have hcov : (x.shift d).Covers b ↔ x.Covers (b + d) := by
      simp only [Segment.Covers, Segment.shift_addr, Segment.shift_stop]
      omega
    have hoff : b - (x.addr - d) = b + d - x.addr := by omega
    simp only [List.map_cons, lookup, hcov, ih, Segment.shift_val, Segment.shift_addr, hoff]

/-- A shifted list covers what the list covered, `d` higher up. -/
theorem covered_shift (d : Int) (L : List (Segment ε)) (b : Int) :
    Covered (L.map (Segment.shift d)) b ↔ Covered L (b + d) := by
  rw [← lookup_isSome (fun _ _ => ()), lookup_shift, lookup_isSome]

/-! ## Sorted lists -/

/-- Positive segments, each ending before the next begins. -/
structure Sorted (L : List (Segment ε)) : Prop where
  disjoint : L.Pairwise (fun x y => x.stop ≤ y.addr)
  positive : ∀ x ∈ L, 0 < x.size

/-- The empty list is in order. -/
theorem Sorted.nil : Sorted ([] : List (Segment ε)) := ⟨List.Pairwise.nil, by simp⟩

/-- Two lists in order can be joined when the second starts behind the first. -/
theorem Sorted.append {L M : List (Segment ε)} (hL : Sorted L) (hM : Sorted M)
    (h : ∀ x ∈ L, ∀ y ∈ M, x.stop ≤ y.addr) : Sorted (L ++ M) := by
  refine ⟨List.pairwise_append.2 ⟨hL.disjoint, hM.disjoint, h⟩, ?_⟩
  intro x hx
  rcases List.mem_append.1 hx with hx | hx
  · exact hL.positive x hx
  · exact hM.positive x hx

/-- The joined list is in order exactly then. -/
theorem sorted_append {L M : List (Segment ε)} :
    Sorted (L ++ M) ↔ Sorted L ∧ Sorted M ∧ ∀ x ∈ L, ∀ y ∈ M, x.stop ≤ y.addr := by
  refine ⟨fun h => ?_, fun h => h.1.append h.2.1 h.2.2⟩
  have hp := List.pairwise_append.1 h.disjoint
  refine ⟨⟨hp.1, fun x hx => h.positive x ?_⟩, ⟨hp.2.1, fun x hx => h.positive x ?_⟩, hp.2.2⟩
  · exact List.mem_append_left _ hx
  · exact List.mem_append_right _ hx

/-- Order, segment by segment: the head is not empty, and ends before the others begin. -/
theorem sorted_cons {x : Segment ε} {L : List (Segment ε)} :
    Sorted (x :: L) ↔ 0 < x.size ∧ Sorted L ∧ ∀ y ∈ L, x.stop ≤ y.addr := by
  constructor
  · rintro ⟨hd, hp⟩
    have hd := List.pairwise_cons.1 hd
    exact ⟨hp x (by simp), ⟨hd.2, fun y hy => hp y (by simp [hy])⟩, hd.1⟩
  · rintro ⟨hx, ⟨hd, hp⟩, hy⟩
    refine ⟨List.pairwise_cons.2 ⟨hy, hd⟩, ?_⟩
    intro y hy
    rcases List.mem_cons.1 hy with rfl | hy
    · exact hx
    · exact hp y hy

/-- A shift keeps the order. -/
theorem Sorted.shift {L : List (Segment ε)} (h : Sorted L) (d : Int) :
    Sorted (L.map (Segment.shift d)) := by
  refine ⟨?_, ?_⟩
  · refine List.pairwise_map.2 (h.disjoint.imp ?_)
    intro x y hxy
    simp only [Segment.shift_stop, Segment.shift_addr]
    omega
  · intro x hx
    obtain ⟨y, hy, rfl⟩ := List.mem_map.1 hx
    exact h.positive y hy

/-- Where a list of segments starts. -/
def start (L : List (Segment ε)) : Int := (L.head?.map Segment.addr).getD 0

/-- Where a list of segments ends. -/
def finish (L : List (Segment ε)) : Int := (L.getLast?.map Segment.stop).getD 0

/-- A sorted list lies between its start and its end. -/
theorem Sorted.within {L : List (Segment ε)} (h : Sorted L) :
    ∀ x ∈ L, start L ≤ x.addr ∧ x.stop ≤ finish L := by
  intro x hx
  constructor
  · cases L with
    | nil => simp at hx
    | cons y ys =>
      obtain ⟨hpos, -, hle⟩ := sorted_cons.1 h
      have hstop : y.stop = y.addr + y.size := rfl
      have hstart : start (y :: ys) = y.addr := rfl
      rcases List.mem_cons.1 hx with rfl | hx
      · exact le_of_eq hstart
      · have hyx := hle x hx
        omega
  · rcases List.eq_nil_or_concat L with rfl | ⟨ys, y, rfl⟩
    · simp at hx
    · rw [List.concat_eq_append] at *
      obtain ⟨-, hy, hle⟩ := sorted_append.1 h
      have hpos := hy.positive y (by simp)
      have hstop : y.stop = y.addr + y.size := rfl
      have hfin : finish (ys ++ [y]) = y.stop := by simp [finish]
      rcases List.mem_append.1 hx with hx | hx
      · have hxy := hle x hx y (by simp)
        omega
      · rw [List.mem_singleton.1 hx, hfin]

/-- A list in order that is not empty spans at least one byte. -/
theorem Sorted.start_lt_finish {L : List (Segment ε)} (h : Sorted L) (hne : L ≠ []) :
    start L < finish L := by
  obtain ⟨x, hx⟩ := List.exists_mem_of_ne_nil L hne
  have hpos := h.positive x hx
  have hstop : x.stop = x.addr + x.size := rfl
  have hin := h.within x hx
  omega

/-- A sorted list reaches from its start to its finish. -/
theorem Sorted.covered_ends {L : List (Segment ε)} (h : Sorted L) (hne : L ≠ []) :
    Covered L (start L) ∧ Covered L (finish L - 1) := by
  constructor
  · cases L with
    | nil => exact absurd rfl hne
    | cons y ys =>
      have hpos := h.positive y (by simp)
      exact ⟨y, by simp, le_refl _, by show y.addr < y.addr + y.size; omega⟩
  · rcases List.eq_nil_or_concat L with rfl | ⟨ys, y, rfl⟩
    · exact absurd rfl hne
    · have hpos := h.positive y (by simp)
      have hfin : finish (ys.concat y) = y.addr + y.size := by simp [finish, Segment.stop]
      rw [hfin]
      exact ⟨y, by simp, by omega, by show y.addr + y.size - 1 < y.addr + y.size; omega⟩

/-- A segment of a sorted list may be replaced by sorted segments inside it. -/
theorem Sorted.refine {L M xs : List (Segment ε)} {x : Segment ε} (h : Sorted (L ++ x :: M))
    (hxs : Sorted xs) (hin : ∀ y ∈ xs, x.addr ≤ y.addr ∧ y.stop ≤ x.stop) :
    Sorted (L ++ (xs ++ M)) := by
  obtain ⟨hL, hxM, hLx⟩ := sorted_append.1 h
  obtain ⟨-, hM, hxM⟩ := sorted_cons.1 hxM
  refine hL.append (hxs.append hM ?_) ?_
  · intro y hy z hz
    exact le_trans (hin y hy).2 (hxM z hz)
  · intro w hw y hy
    rcases List.mem_append.1 hy with hy | hy
    · exact le_trans (hLx w hw x (by simp)) (hin y hy).1
    · exact hLx w hw y (by simp [hy])

/-- In a sorted list only one segment covers a position, so its byte is
what the position reads as. -/
theorem lookup_of_mem (bytes : ε → Nat → β) {L : List (Segment ε)} (hL : Sorted L)
    {x : Segment ε} (hx : x ∈ L) {b : Int} (hb : x.Covers b) :
    lookup bytes L b = some (bytes x.val (b - x.addr).toNat) := by
  induction L with
  | nil => simp at hx
  | cons y ys ih =>
    obtain ⟨hpos, hys, hle⟩ := sorted_cons.1 hL
    rcases List.mem_cons.1 hx with rfl | hmem
    · rw [lookup, if_pos hb]
    · have hlt : y.stop ≤ x.addr := hle x hmem
      have hnot : ¬ y.Covers b := by
        intro hc
        have h1 := hc.2
        have h2 := hb.1
        omega
      rw [lookup, if_neg hnot, ih hys hmem]

/-! ## Cutting at the edges of a range -/

section Cut

variable (cut : ε → Nat → Nat → ε)

/-- What of the segment lies before `hs`. -/
def belowOne (hs : Int) (x : Segment ε) : List (Segment ε) :=
  if x.stop ≤ hs then [x]
  else if x.addr < hs then
    [⟨x.addr, (hs - x.addr).toNat, cut x.val 0 (hs - x.addr).toNat⟩]
  else []

/-- What of the segment lies from `te` on. -/
def aboveOne (te : Int) (x : Segment ε) : List (Segment ε) :=
  if te ≤ x.addr then [x]
  else if te < x.stop then
    [⟨te, (x.stop - te).toNat, cut x.val (te - x.addr).toNat x.size⟩]
  else []

/-- What of the segment lies in `[hs, te)`. -/
def windowOne (hs te : Int) (x : Segment ε) : List (Segment ε) :=
  if x.stop ≤ hs ∨ te ≤ x.addr then []
  else if hs ≤ x.addr ∧ x.stop ≤ te then [x]
  else
    let s := max hs x.addr
    let t := min te x.stop
    [⟨s, (t - s).toNat, cut x.val (s - x.addr).toNat (t - x.addr).toNat⟩]

/-- The part of the list before `hs`. -/
def below (hs : Int) (L : List (Segment ε)) : List (Segment ε) := L.flatMap (belowOne cut hs)

/-- The part of the list from `te` on. -/
def above (te : Int) (L : List (Segment ε)) : List (Segment ε) := L.flatMap (aboveOne cut te)

/-- The part of the list in `[hs, te)`. -/
def window (hs te : Int) (L : List (Segment ε)) : List (Segment ε) :=
  L.flatMap (windowOne cut hs te)

/-- The list with the range `[hs, te)` replaced by `src`. -/
def splice (hs te : Int) (src L : List (Segment ε)) : List (Segment ε) :=
  below cut hs L ++ (src ++ above cut te L)

/-! ### Segments that lie wholly on one side -/

/-- What lies below an address is cut segment by segment, so lists can be joined before or
after the cut. -/
theorem below_append (hs : Int) (L M : List (Segment ε)) :
    below cut hs (L ++ M) = below cut hs L ++ below cut hs M := List.flatMap_append

/-- The same of what lies above an address. -/
theorem above_append (te : Int) (L M : List (Segment ε)) :
    above cut te (L ++ M) = above cut te L ++ above cut te M := List.flatMap_append

/-- The same of a window. -/
theorem window_append (hs te : Int) (L M : List (Segment ε)) :
    window cut hs te (L ++ M) = window cut hs te L ++ window cut hs te M :=
  List.flatMap_append

/-- Segments that end before the cut are kept as they are, without a cut. -/
theorem below_of_stop_le {hs : Int} {L : List (Segment ε)} (h : ∀ x ∈ L, x.stop ≤ hs) :
    below cut hs L = L := by
  induction L with
  | nil => rfl
  | cons x xs ih =>
    have hx : belowOne cut hs x = [x] := if_pos (h x (by simp))
    have hxs := ih (fun y hy => h y (by simp [hy]))
    simp only [below] at hxs
    simp only [below, List.flatMap_cons, hx, hxs, List.singleton_append]

/-- Segments that start behind the cut leave nothing below it. -/
theorem below_of_le_addr {hs : Int} {L : List (Segment ε)} (hL : ∀ x ∈ L, 0 < x.size)
    (h : ∀ x ∈ L, hs ≤ x.addr) : below cut hs L = [] := by
  refine List.flatMap_eq_nil_iff.2 ?_
  intro x hx
  have h1 := h x hx
  have h2 := hL x hx
  have h3 : x.stop = x.addr + x.size := rfl
  rw [belowOne, if_neg (by omega), if_neg (by omega)]

/-- Segments that start behind the cut are kept as they are. -/
theorem above_of_le_addr {te : Int} {L : List (Segment ε)} (h : ∀ x ∈ L, te ≤ x.addr) :
    above cut te L = L := by
  induction L with
  | nil => rfl
  | cons x xs ih =>
    have hx : aboveOne cut te x = [x] := if_pos (h x (by simp))
    have hxs := ih (fun y hy => h y (by simp [hy]))
    simp only [above] at hxs
    simp only [above, List.flatMap_cons, hx, hxs, List.singleton_append]

/-- Segments that end before the cut leave nothing above it. -/
theorem above_of_stop_le {te : Int} {L : List (Segment ε)} (hL : ∀ x ∈ L, 0 < x.size)
    (h : ∀ x ∈ L, x.stop ≤ te) : above cut te L = [] := by
  refine List.flatMap_eq_nil_iff.2 ?_
  intro x hx
  have h1 := h x hx
  have h2 := hL x hx
  have h3 : x.stop = x.addr + x.size := rfl
  rw [aboveOne, if_neg (by omega), if_neg (by omega)]

/-- Segments below a window leave nothing in it. -/
theorem window_of_stop_le {hs te : Int} {L : List (Segment ε)} (h : ∀ x ∈ L, x.stop ≤ hs) :
    window cut hs te L = [] := by
  refine List.flatMap_eq_nil_iff.2 ?_
  intro x hx
  rw [windowOne, if_pos (Or.inl (h x hx))]

/-- Segments above a window leave nothing in it. -/
theorem window_of_le_addr {hs te : Int} {L : List (Segment ε)} (h : ∀ x ∈ L, te ≤ x.addr) :
    window cut hs te L = [] := by
  refine List.flatMap_eq_nil_iff.2 ?_
  intro x hx
  rw [windowOne, if_pos (Or.inr (h x hx))]

/-- Segments inside a window are kept as they are. Together with the two lemmas before it,
it says what a window is of a list whose segments at the two edges end there. -/
theorem window_of_inside {hs te : Int} {L : List (Segment ε)} (hL : ∀ x ∈ L, 0 < x.size)
    (h : ∀ x ∈ L, hs ≤ x.addr ∧ x.stop ≤ te) : window cut hs te L = L := by
  induction L with
  | nil => rfl
  | cons x xs ih =>
    have hx : windowOne cut hs te x = [x] := by
      have h1 := h x (by simp)
      have h2 := hL x (by simp)
      have h3 : x.stop = x.addr + x.size := rfl
      rw [windowOne, if_neg (by omega), if_pos h1]
    have hxs := ih (fun y hy => hL y (by simp [hy])) (fun y hy => h y (by simp [hy]))
    simp only [window] at hxs
    simp only [window, List.flatMap_cons, hx, hxs, List.singleton_append]

/-! ### Where the pieces lie -/

/-- A piece of `below` is a piece of a segment, ends by `hs` and is positive. -/
theorem mem_belowOne {hs : Int} {x y : Segment ε} (hx : 0 < x.size)
    (h : y ∈ belowOne cut hs x) :
    0 < y.size ∧ x.addr = y.addr ∧ y.stop ≤ x.stop ∧ y.stop ≤ hs := by
  have hstop : x.stop = x.addr + x.size := rfl
  unfold belowOne at h
  split at h
  · rename_i h1
    rw [List.mem_singleton.1 h]
    exact ⟨hx, rfl, le_refl _, h1⟩
  · split at h
    · rw [List.mem_singleton.1 h]
      simp only [Segment.stop_mk]
      refine ⟨?_, trivial, ?_, ?_⟩ <;> omega
    · simp at h

/-- What is left of a segment above a cut is not empty, keeps its end and starts at the cut
or behind it. -/
theorem mem_aboveOne {te : Int} {x y : Segment ε} (hx : 0 < x.size)
    (h : y ∈ aboveOne cut te x) :
    0 < y.size ∧ x.addr ≤ y.addr ∧ y.stop = x.stop ∧ te ≤ y.addr := by
  have hstop : x.stop = x.addr + x.size := rfl
  unfold aboveOne at h
  split at h
  · rename_i h1
    rw [List.mem_singleton.1 h]
    exact ⟨hx, le_refl _, rfl, h1⟩
  · split at h
    · rw [List.mem_singleton.1 h]
      simp only [Segment.stop_mk]
      refine ⟨?_, ?_, ?_, ?_⟩ <;> omega
    · simp at h

/-- What a window shows of a segment is not empty and lies inside of both. -/
theorem mem_windowOne {hs te : Int} {x y : Segment ε} (hx : 0 < x.size) (hst : hs < te)
    (h : y ∈ windowOne cut hs te x) :
    0 < y.size ∧ x.addr ≤ y.addr ∧ y.stop ≤ x.stop ∧ hs ≤ y.addr ∧ y.stop ≤ te := by
  have hstop : x.stop = x.addr + x.size := rfl
  unfold windowOne at h
  split at h
  · simp at h
  · split at h
    · rename_i h1
      rw [List.mem_singleton.1 h]
      exact ⟨hx, le_refl _, le_refl _, h1⟩
    · rw [List.mem_singleton.1 h]
      simp only [Segment.stop_mk]
      refine ⟨?_, ?_, ?_, ?_, ?_⟩ <;> omega

/-- The part of a segment in a range has the inner ones of the edges. -/
theorem windowOne_ends {hs te : Int} {x y : Segment ε} (hst : hs < te)
    (hx : 0 < x.size) (h : y ∈ windowOne cut hs te x) :
    y.addr = max hs x.addr ∧ y.stop = min te x.stop := by
  have hstop : x.stop = x.addr + x.size := rfl
  unfold windowOne at h
  split at h
  · simp at h
  · split at h
    · rw [List.mem_singleton.1 h]
      omega
    · rw [List.mem_singleton.1 h]
      simp only [Segment.stop_mk]
      exact ⟨trivial, by omega⟩

/-- A segment over a position of a range has a part in the range. -/
theorem exists_mem_windowOne {hs te b : Int} {x : Segment ε} (hx : x.Covers b) (h1 : hs ≤ b)
    (h2 : b < te) : ∃ y, y ∈ windowOne cut hs te x := by
  have hx1 := hx.1
  have hx2 := hx.2
  rw [windowOne, if_neg (by omega)]
  split
  · exact ⟨x, by simp⟩
  · exact ⟨_, List.mem_singleton.2 rfl⟩

/-- Every segment of a list cut piecewise stays sorted when each piece
stays inside the segment it comes from and a segment yields at most one
piece. -/
theorem Sorted.flatMap {f : Segment ε → List (Segment ε)} {L : List (Segment ε)}
    (hL : Sorted L) (hone : ∀ x ∈ L, (f x).length ≤ 1)
    (hin : ∀ x ∈ L, ∀ y ∈ f x, 0 < y.size ∧ x.addr ≤ y.addr ∧ y.stop ≤ x.stop) :
    Sorted (L.flatMap f) := by
  induction L with
  | nil => exact Sorted.nil
  | cons x xs ih =>
    obtain ⟨-, hxs, hle⟩ := sorted_cons.1 hL
    have ih := ih hxs (fun y hy => hone y (by simp [hy])) (fun y hy => hin y (by simp [hy]))
    have hfx : Sorted (f x) := by
      have hlen := hone x (by simp)
      have hpos := fun y hy => (hin x (by simp) y hy).1
      match hf : f x with
      | [] => exact Sorted.nil
      | [y] => exact sorted_cons.2 ⟨hpos y (by simp [hf]), Sorted.nil, by simp⟩
      | y :: z :: t => simp [hf] at hlen
    rw [List.flatMap_cons]
    refine hfx.append ih ?_
    intro y hy z hz
    obtain ⟨w, hw, hzw⟩ := List.mem_flatMap.1 hz
    have h1 := (hin x (by simp) y hy).2.2
    have h2 := (hin w (by simp [hw]) z hzw).2.1
    have h3 := hle w hw
    omega

/-- What lies below a cut is in order. -/
theorem Sorted.below {L : List (Segment ε)} (hL : Sorted L) (hs : Int) :
    Sorted (below cut hs L) := by
  refine hL.flatMap ?_ ?_
  · intro x _
    unfold belowOne
    split <;> [simp; (split <;> simp)]
  · intro x hx y hy
    obtain ⟨h1, h2, h3, -⟩ := mem_belowOne cut (hL.positive x hx) hy
    exact ⟨h1, le_of_eq h2, h3⟩

/-- What lies above a cut is in order. -/
theorem Sorted.above {L : List (Segment ε)} (hL : Sorted L) (te : Int) :
    Sorted (above cut te L) := by
  refine hL.flatMap ?_ ?_
  · intro x _
    unfold aboveOne
    split <;> [simp; (split <;> simp)]
  · intro x hx y hy
    obtain ⟨h1, h2, h3, -⟩ := mem_aboveOne cut (hL.positive x hx) hy
    exact ⟨h1, h2, le_of_eq h3⟩

/-- What a window shows is in order. -/
theorem Sorted.window {L : List (Segment ε)} (hL : Sorted L) {hs te : Int} (hst : hs < te) :
    Sorted (window cut hs te L) := by
  refine hL.flatMap ?_ ?_
  · intro x _
    unfold windowOne
    split <;> [simp; (split <;> simp)]
  · intro x hx y hy
    obtain ⟨h1, h2, h3, -, -⟩ := mem_windowOne cut (hL.positive x hx) hst hy
    exact ⟨h1, h2, h3⟩

/-- A piece below a cut ends there at the latest. -/
theorem stop_le_of_mem_below {L : List (Segment ε)} (hL : Sorted L) {hs : Int}
    {y : Segment ε} (hy : y ∈ below cut hs L) : y.stop ≤ hs := by
  obtain ⟨x, hx, hyx⟩ := List.mem_flatMap.1 hy
  exact (mem_belowOne cut (hL.positive x hx) hyx).2.2.2

/-- A piece above a cut starts there at the earliest. -/
theorem le_addr_of_mem_above {L : List (Segment ε)} (hL : Sorted L) {te : Int}
    {y : Segment ε} (hy : y ∈ above cut te L) : te ≤ y.addr := by
  obtain ⟨x, hx, hyx⟩ := List.mem_flatMap.1 hy
  exact (mem_aboveOne cut (hL.positive x hx) hyx).2.2.2

/-- A piece in a window is inside of it. -/
theorem inside_of_mem_window {L : List (Segment ε)} (hL : Sorted L) {hs te : Int}
    (hst : hs < te) {y : Segment ε} (hy : y ∈ window cut hs te L) :
    hs ≤ y.addr ∧ y.stop ≤ te := by
  obtain ⟨x, hx, hyx⟩ := List.mem_flatMap.1 hy
  exact (mem_windowOne cut (hL.positive x hx) hst hyx).2.2.2

/-- Replacing a range by a sorted list that lies inside it keeps the
list sorted. -/
theorem Sorted.splice {L src : List (Segment ε)} (hL : Sorted L) (hsrc : Sorted src)
    {hs te : Int} (hst : hs ≤ te) (hin : ∀ x ∈ src, hs ≤ x.addr ∧ x.stop ≤ te) :
    Sorted (splice cut hs te src L) := by
  refine (hL.below cut hs).append (hsrc.append (hL.above cut te) ?_) ?_
  · intro x hx y hy
    exact le_trans (hin x hx).2 (le_addr_of_mem_above cut hL hy)
  · intro x hx y hy
    have h1 := stop_le_of_mem_below cut hL hx
    rcases List.mem_append.1 hy with hy | hy
    · exact le_trans h1 (hin y hy).1
    · exact le_trans h1 (le_trans hst (le_addr_of_mem_above cut hL hy))

/-! ### What the pieces read as -/

section Lookup

variable (bytes : ε → Nat → β)

/-- The law of `cut` at the segments of a list: byte `i` of the part from
`s` to `t` is byte `s + i` of the whole. -/
def CutLaw (L : List (Segment ε)) : Prop :=
  ∀ x ∈ L, ∀ s t i, t ≤ x.size → i < t - s → bytes (cut x.val s t) i = bytes x.val (s + i)

variable {cut bytes}

/-- A segment between two edges of `x`, cut out of it, reads as `x` there. -/
theorem lookup_piece {x : Segment ε} (hcut : CutLaw cut bytes [x]) {s t : Int}
    (h1 : x.addr ≤ s) (h2 : s ≤ t) (h3 : t ≤ x.stop) (b : Int) :
    lookup bytes [⟨s, (t - s).toNat, cut x.val (s - x.addr).toNat (t - x.addr).toNat⟩] b
      = if s ≤ b ∧ b < t then some (bytes x.val (b - x.addr).toNat) else none := by
  have hsize : x.stop = x.addr + x.size := rfl
  have hstop : s + ((t - s).toNat : Int) = t := by omega
  simp only [lookup, Segment.Covers, Segment.stop_mk, hstop]
  split
  · rename_i hb
    rw [hcut x (by simp) _ _ _ (by omega) (by omega)]
    congr 2
    omega
  · rfl

/-- Reading a single segment. -/
theorem lookup_singleton (x : Segment ε) (b : Int) :
    lookup bytes [x] b
      = if x.addr ≤ b ∧ b < x.stop then some (bytes x.val (b - x.addr).toNat) else none := rfl

/-- One segment cut from above reads below the cut as before, and not behind it. The law of
the cut is what makes its bytes those of the whole segment. -/
theorem lookup_belowOne {x : Segment ε} (hcut : CutLaw cut bytes [x]) (hs b : Int) :
    lookup bytes (belowOne cut hs x) b = if b < hs then lookup bytes [x] b else none := by
  have hstop : x.stop = x.addr + x.size := rfl
  unfold belowOne
  split
  · rw [lookup_singleton]
    split_ifs <;> first | rfl | omega
  · split
    · rename_i h1 h2
      have hp := lookup_piece hcut (s := x.addr) (t := hs) (by omega) (by omega) (by omega) b
      simp only [sub_self, Int.toNat_zero] at hp
      rw [hp, lookup_singleton]
      split_ifs <;> first | rfl | omega
    · rw [lookup_singleton]
      split_ifs <;> first | rfl | omega

/-- One segment cut from below. Its bytes are counted from the cut now, which the law of the
cut makes up for. -/
theorem lookup_aboveOne {x : Segment ε} (hcut : CutLaw cut bytes [x]) (te b : Int) :
    lookup bytes (aboveOne cut te x) b = if te ≤ b then lookup bytes [x] b else none := by
  have hstop : x.stop = x.addr + x.size := rfl
  unfold aboveOne
  split
  · rw [lookup_singleton]
    split_ifs <;> first | rfl | omega
  · split
    · have hp := lookup_piece hcut (s := te) (t := x.stop) (by omega) (by omega) (by omega) b
      have hsz : (x.stop - x.addr).toNat = x.size := by omega
      rw [hsz] at hp
      rw [hp, lookup_singleton]
      split_ifs <;> first | rfl | omega
    · rw [lookup_singleton]
      split_ifs <;> first | rfl | omega

/-- One segment in a window, where it may be cut at both ends. -/
theorem lookup_windowOne {x : Segment ε} (hcut : CutLaw cut bytes [x]) {hs te : Int}
    (hst : hs < te) (b : Int) :
    lookup bytes (windowOne cut hs te x) b
      = if hs ≤ b ∧ b < te then lookup bytes [x] b else none := by
  have hstop : x.stop = x.addr + x.size := rfl
  unfold windowOne
  split
  · rw [lookup_singleton]
    split_ifs <;> first | rfl | omega
  · split
    · rw [lookup_singleton]
      split_ifs <;> first | rfl | omega
    · dsimp only
      rw [lookup_piece hcut (s := max hs x.addr) (t := min te x.stop)
        (by omega) (by omega) (by omega) b, lookup_singleton]
      split_ifs <;> first | rfl | omega

/-- Reading piecewise: when each segment's pieces read as the segment on a
set of positions and as nothing elsewhere, so does the whole list. -/
theorem lookup_flatMap {f : Segment ε → List (Segment ε)} {p : Int → Prop} [DecidablePred p]
    {L : List (Segment ε)}
    (h : ∀ x ∈ L, ∀ b, lookup bytes (f x) b = if p b then lookup bytes [x] b else none)
    (b : Int) :
    lookup bytes (L.flatMap f) b = if p b then lookup bytes L b else none := by
  induction L with
  | nil => simp [lookup]
  | cons x xs ih =>
    have hcons : lookup bytes (x :: xs) b = (lookup bytes [x] b).or (lookup bytes xs b) :=
      lookup_append bytes [x] xs b
    rw [List.flatMap_cons, lookup_append, h x (by simp),
      ih (fun y hy => h y (by simp [hy])), hcons]
    split <;> rfl

/-- The law of a list holds of each of its segments. -/
theorem CutLaw.singleton {L : List (Segment ε)} (h : CutLaw cut bytes L) {x : Segment ε}
    (hx : x ∈ L) : CutLaw cut bytes [x] := by
  intro y hy
  rw [List.mem_singleton.1 hy]
  exact h x hx

/-- The bytes below a cut are those of the list, and behind it there are none. By induction
on the list, from the case of one segment. -/
theorem lookup_below {L : List (Segment ε)} (hcut : CutLaw cut bytes L) (hs b : Int) :
    lookup bytes (below cut hs L) b = if b < hs then lookup bytes L b else none :=
  lookup_flatMap (fun _ hx => lookup_belowOne (hcut.singleton hx) hs) b

/-- The same above a cut. -/
theorem lookup_above {L : List (Segment ε)} (hcut : CutLaw cut bytes L) (te b : Int) :
    lookup bytes (above cut te L) b = if te ≤ b then lookup bytes L b else none :=
  lookup_flatMap (fun _ hx => lookup_aboveOne (hcut.singleton hx) te) b

/-- The bytes in a window are those of the list, and outside there are none. -/
theorem lookup_window {L : List (Segment ε)} (hcut : CutLaw cut bytes L) {hs te : Int}
    (hst : hs < te) (b : Int) :
    lookup bytes (window cut hs te L) b
      = if hs ≤ b ∧ b < te then lookup bytes L b else none :=
  lookup_flatMap (fun _ hx => lookup_windowOne (hcut.singleton hx) hst) b

/-- A list that lies inside `[hs, te)` reads as nothing outside it. -/
theorem lookup_of_outside {src : List (Segment ε)} {hs te : Int}
    (hin : ∀ x ∈ src, hs ≤ x.addr ∧ x.stop ≤ te) {b : Int} (hb : b < hs ∨ te ≤ b) :
    lookup bytes src b = none := by
  refine (lookup_eq_none bytes src b).2 ?_
  rintro ⟨x, hx, h1, h2⟩
  have h3 := hin x hx
  omega

/-- A spliced list reads as the new part inside the range and as the old
list outside it. -/
theorem lookup_splice {L : List (Segment ε)} (hcut : CutLaw cut bytes L) {hs te : Int}
    (hst : hs ≤ te) {src : List (Segment ε)} (hin : ∀ x ∈ src, hs ≤ x.addr ∧ x.stop ≤ te)
    (b : Int) :
    lookup bytes (splice cut hs te src L) b
      = if hs ≤ b ∧ b < te then lookup bytes src b else lookup bytes L b := by
  rw [splice, lookup_append, lookup_append, lookup_below hcut, lookup_above hcut]
  by_cases h1 : b < hs
  · rw [if_pos h1, if_neg (show ¬ te ≤ b by omega), if_neg (show ¬ (hs ≤ b ∧ b < te) by omega),
      lookup_of_outside hin (Or.inl h1)]
    simp
  · by_cases h2 : b < te
    · rw [if_neg h1, if_neg (show ¬ te ≤ b by omega), if_pos (show hs ≤ b ∧ b < te by omega)]
      simp
    · rw [if_neg h1, if_pos (show te ≤ b by omega), if_neg (show ¬ (hs ≤ b ∧ b < te) by omega),
        lookup_of_outside hin (Or.inr (by omega))]
      simp

end Lookup

/-- The unit byte function, for statements about coverage alone. -/
theorem cutLaw_unit (L : List (Segment ε)) : CutLaw cut (fun _ _ => ()) L :=
  fun _ _ _ _ _ _ _ => rfl

/-- A window shows what is covered in it. -/
theorem covered_window {hs te : Int} (hst : hs < te) (L : List (Segment ε)) (b : Int) :
    Covered (window cut hs te L) b ↔ (hs ≤ b ∧ b < te) ∧ Covered L b := by
  rw [← lookup_isSome (fun _ _ => ()), lookup_window (cutLaw_unit cut L) hst,
    ← lookup_isSome (fun _ _ => ())]
  split <;> simp [*]

/-- After a splice the range is covered as the source covers it, and what is outside as
before. A range that the source leaves open is open afterwards. -/
theorem covered_splice {hs te : Int} (hst : hs ≤ te) {src : List (Segment ε)}
    (hin : ∀ x ∈ src, hs ≤ x.addr ∧ x.stop ≤ te) (L : List (Segment ε)) (b : Int) :
    Covered (splice cut hs te src L) b
      ↔ if hs ≤ b ∧ b < te then Covered src b else Covered L b := by
  rw [← lookup_isSome (fun _ _ => ()), lookup_splice (cutLaw_unit cut L) hst hin]
  split <;> rw [lookup_isSome]

/-- What was spliced in is what lies in the range afterwards. -/
theorem window_splice {hs te : Int} {src L : List (Segment ε)} (hL : Sorted L)
    (hsrc : Sorted src) (hin : ∀ x ∈ src, hs ≤ x.addr ∧ x.stop ≤ te) :
    window cut hs te (splice cut hs te src L) = src := by
  rw [splice, window_append, window_append,
    window_of_stop_le cut fun y hy => stop_le_of_mem_below cut hL hy,
    window_of_inside cut hsrc.positive hin,
    window_of_le_addr cut fun y hy => le_addr_of_mem_above cut hL hy, List.nil_append,
    List.append_nil]

/-! ### Predicates kept by cutting -/

/-- A property of segments that every cut piece inherits holds of every
piece of a spliced list. -/
theorem forall_mem_splice {p : Segment ε → Prop} {hs te : Int} {src L : List (Segment ε)}
    (hcut : ∀ x ∈ L, p x → ∀ s t, s < t → t ≤ x.size → p ⟨x.addr + s, t - s, cut x.val s t⟩)
    (hL : ∀ x ∈ L, p x) (hsrc : ∀ x ∈ src, p x) :
    ∀ x ∈ splice cut hs te src L, p x := by
  intro y hy
  simp only [splice, List.mem_append, below, above, List.mem_flatMap] at hy
  rcases hy with ⟨x, hx, hy⟩ | hy | ⟨x, hx, hy⟩
  · have hstop : x.stop = x.addr + x.size := rfl
    unfold belowOne at hy
    split at hy
    · rw [List.mem_singleton.1 hy]
      exact hL x hx
    · split at hy
      · have h := hcut x hx (hL x hx) 0 (hs - x.addr).toNat (by omega) (by omega)
        simpa [List.mem_singleton.1 hy] using h
      · simp at hy
  · exact hsrc y hy
  · have hstop : x.stop = x.addr + x.size := rfl
    unfold aboveOne at hy
    split at hy
    · rw [List.mem_singleton.1 hy]
      exact hL x hx
    · split at hy
      · have h := hcut x hx (hL x hx) (te - x.addr).toNat x.size (by omega) (le_refl _)
        have h1 : x.addr + ((te - x.addr).toNat : Int) = te := by omega
        have h2 : x.size - (te - x.addr).toNat = (x.stop - te).toNat := by omega
        rw [h1, h2] at h
        rw [List.mem_singleton.1 hy]
        exact h
      · simp at hy

/-- A property of the segments that a cut keeps holds of what a window shows. -/
theorem forall_mem_window {p : Segment ε → Prop} {hs te : Int} (hst : hs < te)
    {L : List (Segment ε)}
    (hcut : ∀ x ∈ L, p x → ∀ s t, s < t → t ≤ x.size → p ⟨x.addr + s, t - s, cut x.val s t⟩)
    (hL : ∀ x ∈ L, p x) : ∀ x ∈ window cut hs te L, p x := by
  intro y hy
  simp only [window, List.mem_flatMap] at hy
  obtain ⟨x, hx, hy⟩ := hy
  have hstop : x.stop = x.addr + x.size := rfl
  unfold windowOne at hy
  split at hy
  · simp at hy
  · split at hy
    · rw [List.mem_singleton.1 hy]
      exact hL x hx
    · have h := hcut x hx (hL x hx) (max hs x.addr - x.addr).toNat
        (min te x.stop - x.addr).toNat (by omega) (by omega)
      have h1 : x.addr + ((max hs x.addr - x.addr).toNat : Int) = max hs x.addr := by omega
      have h2 : (min te x.stop - x.addr).toNat - (max hs x.addr - x.addr).toNat
          = (min te x.stop - max hs x.addr).toNat := by omega
      rw [h1, h2] at h
      rw [List.mem_singleton.1 hy]
      exact h

end Cut

end Segments
