import Mathlib.Data.List.Basic
import Mathlib.Data.List.Nodup
import Mathlib.Logic.Function.Basic
import Mathlib.Tactic.Common

/-! # Doubly linked lists in a heap

A heap gives each pointer a `next` and a `prev` link, either of which may be
null. `Linked next prev p xs q` says that the pointers `xs` form a doubly
linked run: they are chained in this order by `next`, chained backwards by
`prev`, and the links at the two ends lead to `p` and `q`.

* `linked_append`: a run splits at any place;
* `Linked.congr`: a run only depends on the links of its own pointers;
* `Linked.set_next_last`, `Linked.set_prev_head`: relinking an end;
* `Linked.join`: linking the end of one run to the start of another;
* `Linked.insert_after`, `Linked.insert_before`: a new pointer beside one of
  a null-terminated run.
-/

set_option autoImplicit false

namespace DoublyLinked

universe u

variable {α : Type u}

/-- The pointers `xs` are chained by `next` and, backwards, by `prev`, with
`p` before the first and `q` after the last. -/
def Linked (next prev : α → Option α) : Option α → List α → Option α → Prop
  | _, [], _ => True
  | p, x :: xs, q => prev x = p ∧ next x = xs.head?.or q ∧ Linked next prev (some x) xs q

variable {next prev : α → Option α} {p q : Option α}

/-- Nothing has to be linked between two neighbours of no cells. -/
@[simp] theorem linked_nil : Linked next prev p [] q := trivial

/-- The links of the head, and those of the rest with the head before it. -/
theorem linked_cons {x : α} {xs : List α} :
    Linked next prev p (x :: xs) q
      ↔ prev x = p ∧ next x = xs.head?.or q ∧ Linked next prev (some x) xs q := Iff.rfl

/-- One cell is linked to both neighbours. -/
theorem linked_singleton {x : α} :
    Linked next prev p [x] q ↔ prev x = p ∧ next x = q := by
  simp [linked_cons]

/-- A run splits at any place into two runs that lead into each other. -/
theorem linked_append {xs ys : List α} :
    Linked next prev p (xs ++ ys) q
      ↔ Linked next prev p xs (ys.head?.or q) ∧ Linked next prev (xs.getLast?.or p) ys q := by
  induction xs generalizing p with
  | nil => simp
  | cons x xs ih =>
    have hlast : (x :: xs).getLast?.or p = xs.getLast?.or (some x) := by
      cases xs with
      | nil => simp
      | cons y ys => simp [List.getLast?_cons]
    rw [List.cons_append, linked_cons, linked_cons, ih, hlast, List.head?_append,
      Option.or_assoc]
    simp only [and_assoc]

/-- A run only depends on the links of its own pointers. -/
theorem Linked.congr {next' prev' : α → Option α} {xs : List α}
    (h : Linked next prev p xs q) (hn : ∀ x ∈ xs, next' x = next x)
    (hp : ∀ x ∈ xs, prev' x = prev x) : Linked next' prev' p xs q := by
  induction xs generalizing p with
  | nil => trivial
  | cons x xs ih =>
    obtain ⟨h1, h2, h3⟩ := h
    refine ⟨(hp x (by simp)).trans h1, (hn x (by simp)).trans h2, ?_⟩
    exact ih h3 (fun y hy => hn y (by simp [hy])) (fun y hy => hp y (by simp [hy]))

/-- Two neighbours in a run are linked both ways. -/
theorem Linked.adjacent {xs ys : List α} {x y : α}
    (h : Linked next prev p (xs ++ x :: y :: ys) q) : next x = some y ∧ prev y = some x := by
  have h := (linked_append.1 h).2
  obtain ⟨-, h1, h2, -⟩ := h
  exact ⟨by simpa using h1, h2⟩

/-- The pointer before a place of a run is what `prev` gives there. -/
theorem Linked.prev_eq {xs ys : List α} {y : α} (h : Linked next prev p (xs ++ y :: ys) q) :
    prev y = xs.getLast?.or p := (linked_append.1 h).2.1

/-- The pointer after a place of a run is what `next` gives there. -/
theorem Linked.next_eq {xs ys : List α} {y : α} (h : Linked next prev p (xs ++ y :: ys) q) :
    next y = ys.head?.or q := (linked_append.1 h).2.2.1

section Update

variable [DecidableEq α]

/-- Redirecting the `next` link of the last pointer redirects the run. -/
theorem Linked.set_next_last {xs : List α} {x : α} {q' : Option α}
    (h : Linked next prev p (xs ++ [x]) q) (hx : x ∉ xs) :
    Linked (Function.update next x q') prev p (xs ++ [x]) q' := by
  obtain ⟨h1, h2⟩ := linked_append.1 h
  refine linked_append.2 ⟨?_, ?_⟩
  · refine (h1.congr ?_ (fun _ _ => rfl))
    intro y hy
    exact Function.update_of_ne (ne_of_mem_of_not_mem hy hx) _ _
  · exact linked_singleton.2 ⟨(linked_singleton.1 h2).1, Function.update_self ..⟩

/-- Redirecting the `prev` link of the first pointer redirects the run. -/
theorem Linked.set_prev_head {xs : List α} {x : α} {p' : Option α}
    (h : Linked next prev p (x :: xs) q) (hx : x ∉ xs) :
    Linked next (Function.update prev x p') p' (x :: xs) q := by
  obtain ⟨-, h2, h3⟩ := h
  refine ⟨Function.update_self .., h2, h3.congr (fun _ _ => rfl) ?_⟩
  intro y hy
  exact Function.update_of_ne (ne_of_mem_of_not_mem hy hx) _ _

/-- Changing the `next` link of a pointer outside the run does not matter. -/
theorem Linked.set_next_of_notMem {xs : List α} {x : α} {v : Option α}
    (h : Linked next prev p xs q) (hx : x ∉ xs) :
    Linked (Function.update next x v) prev p xs q :=
  h.congr (fun _ hy => Function.update_of_ne (ne_of_mem_of_not_mem hy hx) _ _) (fun _ _ => rfl)

/-- Changing the `prev` link of a pointer outside the run does not matter. -/
theorem Linked.set_prev_of_notMem {xs : List α} {x : α} {v : Option α}
    (h : Linked next prev p xs q) (hx : x ∉ xs) :
    Linked next (Function.update prev x v) p xs q :=
  h.congr (fun _ _ => rfl) (fun _ hy => Function.update_of_ne (ne_of_mem_of_not_mem hy hx) _ _)

/-- Linking the last pointer of one run to the first of another joins them. -/
theorem Linked.join {xs ys : List α} {a b : α} {q' p' : Option α}
    (hx : Linked next prev p (xs ++ [a]) q') (hy : Linked next prev p' (b :: ys) q)
    (hnd : (xs ++ a :: b :: ys).Nodup) :
    Linked (Function.update next a (some b)) (Function.update prev b (some a)) p
      (xs ++ a :: b :: ys) q := by
  have hnd' := List.nodup_append.1 hnd
  have hab := List.nodup_cons.1 hnd'.2.1
  have hb := List.nodup_cons.1 hab.2
  have ha : a ∉ xs := fun h => hnd'.2.2 a h a (by simp) rfl
  have hbx : b ∉ xs ++ [a] := by
    intro h
    rcases List.mem_append.1 h with h | h
    · exact hnd'.2.2 b h b (by simp) rfl
    · exact hab.1 (by simp [List.mem_singleton.1 h])
  have hleft : Linked (Function.update next a (some b)) (Function.update prev b (some a)) p
      (xs ++ [a]) (some b) := (hx.set_next_last ha).set_prev_of_notMem hbx
  have hright : Linked (Function.update next a (some b)) (Function.update prev b (some a))
      (some a) (b :: ys) q := (hy.set_next_of_notMem hab.1).set_prev_head hb.1
  have happ : xs ++ a :: b :: ys = (xs ++ [a]) ++ b :: ys := by simp
  rw [happ]
  refine linked_append.2 ⟨?_, ?_⟩
  · simpa using hleft
  · simpa using hright

/-- A new pointer `n` behind `a` in a null-terminated run: `n` takes over the
successor of `a`. -/
theorem Linked.insert_after {l r : List α} {a n : α}
    (h : Linked next prev none (l ++ a :: r) none) (hnd : (l ++ a :: r).Nodup)
    (hn : n ∉ l ++ a :: r) :
    Linked (fun y => if y = a then some n else if y = n then next a else next y)
      (fun y => if y = n then some a else if some y = next a then some n else prev y)
      none (l ++ a :: n :: r) none := by
  obtain ⟨hl, hpa, hna, hr⟩ := linked_append.1 h
  rw [Option.or_none] at hna
  have hnd' := List.nodup_append.1 hnd
  have har := (List.nodup_cons.1 hnd'.2.1).1
  -- a pointer of the old run is not the new one
  have hold : ∀ y ∈ l ++ a :: r, y ≠ n := fun y hy heq => hn (heq ▸ hy)
  have hhead : ∀ y, y ∉ r → some y ≠ r.head? := by
    intro y hy heq
    exact hy (List.mem_of_head? heq.symm)
  rw [linked_append, linked_cons, linked_cons]
  refine ⟨?_, ?_, ?_, ?_, ?_, ?_⟩
  · apply hl.congr
    · intro y hy
      have h1 : y ≠ a := fun heq => hnd'.2.2 y hy a (by simp) heq
      have h2 : y ≠ n := hold y (by simp [hy])
      simp [h1, h2]
    · intro y hy
      have h1 : y ≠ n := hold y (by simp [hy])
      have h2 : some y ≠ r.head? := hhead y fun hyr => hnd'.2.2 y hy y (by simp [hyr]) rfl
      simp [h1, hna, h2]
  · have h1 : a ≠ n := hold a (by simp)
    simp [h1, hna, hhead a har, hpa]
  · simp
  · simp
  · have h1 : n ≠ a := (hold a (by simp)).symm
    simp [h1, hna]
  · cases r with
    | nil => trivial
    | cons b r =>
      obtain ⟨hpb, hnb, hr'⟩ := hr
      have hb : b ≠ n := hold b (by simp)
      have hba : b ≠ a := fun heq => har (by simp [heq])
      have hbr := (List.nodup_cons.1 (List.nodup_cons.1 hnd'.2.1).2).1
      rw [linked_cons]
      refine ⟨by simp [hb, hna], by simp [hb, hba, hnb], ?_⟩
      apply hr'.congr
      · intro y hy
        have h1 : y ≠ a := fun heq => har (by simp [← heq, hy])
        have h2 : y ≠ n := hold y (by simp [hy])
        simp [h1, h2]
      · intro y hy
        have h1 : y ≠ n := hold y (by simp [hy])
        have h2 : y ≠ b := fun heq => hbr (heq ▸ hy)
        simp [h1, hna, h2]

/-- A new pointer `n` in front of `b` in a null-terminated run: `n` takes
over the predecessor of `b`. -/
theorem Linked.insert_before {l r : List α} {b n : α}
    (h : Linked next prev none (l ++ b :: r) none) (hnd : (l ++ b :: r).Nodup)
    (hn : n ∉ l ++ b :: r) :
    Linked (fun y => if y = n then some b else if some y = prev b then some n else next y)
      (fun y => if y = b then some n else if y = n then prev b else prev y)
      none (l ++ n :: b :: r) none := by
  obtain ⟨hl, hpb, hnb, hr⟩ := linked_append.1 h
  rw [Option.or_none] at hpb
  have hnd' := List.nodup_append.1 hnd
  have hbr := (List.nodup_cons.1 hnd'.2.1).1
  have hbl : b ∉ l := fun hb => hnd'.2.2 b hb b (by simp) rfl
  have hold : ∀ y ∈ l ++ b :: r, y ≠ n := fun y hy heq => hn (heq ▸ hy)
  have hlast : ∀ y, y ∉ l → some y ≠ l.getLast? := by
    intro y hy heq
    exact hy (List.mem_of_getLast? heq.symm)
  have hbn : b ≠ n := hold b (by simp)
  have hr' : Linked (fun y => if y = n then some b else if some y = prev b then some n else next y)
      (fun y => if y = b then some n else if y = n then prev b else prev y) (some b) r none := by
    apply hr.congr
    · intro y hy
      have h1 : y ≠ n := hold y (by simp [hy])
      have h2 : some y ≠ l.getLast? := hlast y fun hyl => hnd'.2.2 y hyl y (by simp [hy]) rfl
      simp [h1, hpb, h2]
    · intro y hy
      have h1 : y ≠ n := hold y (by simp [hy])
      have h2 : y ≠ b := fun heq => hbr (heq ▸ hy)
      simp [h1, h2]
  have hright : Linked
      (fun y => if y = n then some b else if some y = prev b then some n else next y)
      (fun y => if y = b then some n else if y = n then prev b else prev y)
      l.getLast? (n :: b :: r) none := by
    refine ⟨by simp [hbn.symm, hpb], by simp, by simp, ?_, hr'⟩
    simp only [hbn, if_false, hpb, hlast b hbl]
    exact hnb
  rw [linked_append, Option.or_none, Option.or_none]
  refine ⟨?_, hright⟩
  -- the run in front of `b`: only its last pointer is redirected
  rcases List.eq_nil_or_concat l with rfl | ⟨l, c, rfl⟩
  · trivial
  · rw [List.concat_eq_append] at *
    rw [linked_append] at hl ⊢
    obtain ⟨hl1, hl2⟩ := hl
    obtain ⟨hpc, -⟩ := linked_singleton.1 hl2
    have hndl := List.nodup_append.1 hnd'.1
    have hpb' : prev b = some c := by simpa using hpb
    constructor
    · apply hl1.congr
      · intro y hy
        have h1 : y ≠ n := hold y (by simp [hy])
        have h2 : y ≠ c := fun heq => hndl.2.2 y hy c (by simp) heq
        simp [h1, hpb', h2]
      · intro y hy
        have h1 : y ≠ n := hold y (by simp [hy])
        have h2 : y ≠ b := fun heq => hbl (by simp [← heq, hy])
        simp [h1, h2]
    · have h1 : c ≠ n := hold c (by simp)
      have h2 : c ≠ b := fun heq => hbl (by simp [heq])
      refine linked_singleton.2 ⟨?_, ?_⟩
      · simp only [h1, h2, if_false]
        exact hpc
      · simp [h1, hpb']

end Update

end DoublyLinked
