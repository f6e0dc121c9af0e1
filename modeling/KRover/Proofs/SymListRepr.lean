import Mathlib.Data.List.Perm.Subperm
import KRover.Proofs.SymListHeap

/-! # The representation invariant of the symbol list

`SymbolListMap.Repr m ps` says that the store `m` holds exactly the cells
`ps`, in this order, between its header and its tail:

* the pointers are allocated, different and doubly linked;
* the cells are sorted, disjoint, of positive size and at canonical addresses;
* the index holds the header under `-1`, and the cells and the tail under
  their keys, and nothing else.

`getAffectedCells_spec` finds the two cells at the edges of a range. It is
where the order of the list and the index are used together.
-/

set_option autoImplicit false

namespace KRover.SymbolListMap

open Segments DoublyLinked

/-- A null-terminated doubly linked list of allocated cells. -/
structure Chain (m : SymbolListMap) (zs : List Nat) : Prop where
  linked : Linked m.next m.prev none zs none
  nodup : zs.Nodup
  bound : ∀ z ∈ zs, z < m.nextPtr

/-- The range `[a, e)` lies wholly in `[-2^47, -1)` or in `[0, 2^47)`. -/
def Canonical (a e : Int) : Prop :=
  -2 ^ 47 ≤ a ∧ e ≤ -1 ∨ 0 ≤ a ∧ e ≤ 2 ^ 47

/-- A canonical range is told by its two ends. -/
instance (a e : Int) : Decidable (Canonical a e) := inferInstanceAs (Decidable (_ ∨ _))

/-- What a search needs of a range: it lies between the sentinels with room to
spare, and it does not start at `-1`, whose key is that of the tail. -/
def Searchable (a e : Int) : Prop := -2 ^ 58 ≤ a ∧ a ≠ -1 ∧ e ≤ 2 ^ 58

/-- The whole list of the store, sentinels included. -/
def chainOf (m : SymbolListMap) (ps : List Nat) : List Nat :=
  m.listheader :: (ps ++ [m.listtail])

/-- The store `m` holds exactly the cells `ps`. -/
structure Repr (m : SymbolListMap) (ps : List Nat) : Prop where
  chain : Chain m (m.chainOf ps)
  header : m.seg m.listheader = ⟨-2 ^ 60, 0, .null⟩
  tail : m.seg m.listtail = ⟨2 ^ 59 - 1, 0, .null⟩
  sorted : Sorted (ps.map m.seg)
  canonical : ∀ p ∈ ps, Canonical (m.seg p).addr (m.seg p).stop
  indexed : ∀ k q, m.sm k = some q ↔
    k = -1 ∧ q = m.listheader ∨
    ∃ p ∈ ps ++ [m.listtail], k = addrToKey (m.seg p).addr ∧ q = p

/-! ## Keys -/

/-- A key is an unsigned number. -/
theorem addrToKey_nonneg (a : Int) : 0 ≤ addrToKey a := by
  unfold addrToKey
  omega

/-- Two canonical addresses with one key are equal. -/
theorem addrToKey_inj {a b : Int} (ha : Canonical a (a + 1)) (hb : Canonical b (b + 1))
    (h : addrToKey a = addrToKey b) : a = b := by
  unfold addrToKey at h
  unfold Canonical at ha hb
  omega

/-- Only `-1` has the key of the tail. -/
theorem addrToKey_ne_tail {a : Int} (ha : Searchable a (a + 1)) :
    addrToKey a ≠ addrToKey (2 ^ 59 - 1) := by
  unfold addrToKey
  unfold Searchable at ha
  omega

/-- An address with the key of a canonical one is that one. -/
theorem addrToKey_eq_canonical {a b : Int} (ha : Searchable a (a + 1))
    (hb : Canonical b (b + 1)) (h : addrToKey a = addrToKey b) : a = b := by
  unfold addrToKey at h
  unfold Searchable at ha
  unfold Canonical at hb
  omega

/-- The first byte of a canonical range is one by itself. -/
theorem Canonical.start {a e : Int} (h : Canonical a e) (hlt : a < e) :
    Canonical a (a + 1) := by
  unfold Canonical at *
  omega

/-- So is every part of it. -/
theorem Canonical.mono {a e a' e' : Int} (h : Canonical a e) (h1 : a ≤ a') (h2 : e' ≤ e) :
    Canonical a' e' := by
  unfold Canonical at *
  omega

/-- A canonical range can be searched for: its keys are sorted as its addresses are. -/
theorem Canonical.searchable {a e : Int} (h : Canonical a e) (hlt : a < e) :
    Searchable a e := by
  unfold Canonical at h
  unfold Searchable
  omega

/-- So can its first byte. -/
theorem Searchable.start {a e : Int} (h : Searchable a e) (hlt : a < e) :
    Searchable a (a + 1) := by
  unfold Searchable at *
  omega

namespace Repr

variable {m : SymbolListMap} {ps : List Nat}

/-- No node is empty. -/
theorem size_pos (h : Repr m ps) {p : Nat} (hp : p ∈ ps) : 0 < (m.seg p).size :=
  h.sorted.positive _ (List.mem_map_of_mem hp)

/-- So a node ends after it starts. -/
theorem addr_lt_stop (h : Repr m ps) {p : Nat} (hp : p ∈ ps) :
    (m.seg p).addr < (m.seg p).stop := by
  have hpos := h.size_pos hp
  have hstop : (m.seg p).stop = (m.seg p).addr + (m.seg p).size := rfl
  omega

/-- A node starts at a canonical address. -/
theorem canonical_start (h : Repr m ps) {p : Nat} (hp : p ∈ ps) :
    Canonical (m.seg p).addr ((m.seg p).addr + 1) :=
  (h.canonical p hp).start (h.addr_lt_stop hp)

/-- In the whole list, sentinels included, each cell starts below and ends
by the start of every later one. -/
theorem ordered (h : Repr m ps) : (m.chainOf ps).Pairwise fun x y =>
    (m.seg x).addr < (m.seg y).addr ∧ (m.seg x).stop ≤ (m.seg y).addr := by
  have hcells : ps.Pairwise fun x y => (m.seg x).stop ≤ (m.seg y).addr :=
    List.pairwise_map.1 h.sorted.disjoint
  -- The sentinels lie outside of every canonical address.
  have hwin : ∀ p ∈ ps, -2 ^ 60 < (m.seg p).addr ∧ (m.seg p).stop ≤ 2 ^ 59 - 1 := by
    intro p hp
    have hc := h.canonical p hp
    have hlt := h.addr_lt_stop hp
    unfold Canonical at hc
    omega
  have hhead : (m.seg m.listheader).stop = -2 ^ 60 := by simp [h.header]
  have hhead' : (m.seg m.listheader).addr = -2 ^ 60 := by simp [h.header]
  have htail : (m.seg m.listtail).addr = 2 ^ 59 - 1 := by simp [h.tail]
  rw [chainOf, List.pairwise_cons]
  constructor
  · intro y hy
    rcases List.mem_append.1 hy with hy | hy
    · have hw := hwin y hy
      omega
    · rw [List.mem_singleton.1 hy]
      omega
  · rw [List.pairwise_append]
    refine ⟨?_, List.pairwise_singleton _ _, ?_⟩
    · apply hcells.imp_of_mem
      intro x y hx hy hxy
      have hlt := h.addr_lt_stop hx
      exact ⟨by omega, hxy⟩
    · intro x hx y hy
      rw [List.mem_singleton.1 hy]
      have hw := hwin x hx
      have hlt := h.addr_lt_stop hx
      omega

/-- The header is on the chain. -/
theorem header_mem : m.listheader ∈ m.chainOf ps := List.mem_cons_self ..

/-- So is the tail. -/
theorem tail_mem : m.listtail ∈ m.chainOf ps := by
  simp [chainOf]

/-- And every node between the two. -/
theorem mem_chainOf {p : Nat} (hp : p ∈ ps) : p ∈ m.chainOf ps := by
  simp [chainOf, hp]

/-- A cell of the list that is neither sentinel is one of `ps`. -/
theorem mem_of_mem_chainOf {p : Nat} (hp : p ∈ m.chainOf ps) :
    p = m.listheader ∨ p = m.listtail ∨ p ∈ ps := by
  simp only [chainOf, List.mem_cons, List.mem_append, List.not_mem_nil, or_false] at hp
  tauto

/-- The index entry under the key of an address is the cell that starts
there. -/
theorem sm_eq_some (h : Repr m ps) {a : Int} (ha : Searchable a (a + 1)) {q : Nat} :
    m.sm (addrToKey a) = some q ↔ q ∈ ps ∧ (m.seg q).addr = a := by
  rw [h.indexed]
  constructor
  · rintro (⟨hk, -⟩ | ⟨p, hp, hk, rfl⟩)
    · have hnn := addrToKey_nonneg a
      omega
    · rcases List.mem_append.1 hp with hp | hp
      · exact ⟨hp, (addrToKey_eq_canonical ha (h.canonical_start hp) hk).symm⟩
      · rw [List.mem_singleton.1 hp, h.tail] at hk
        exact absurd hk (addrToKey_ne_tail ha)
  · rintro ⟨hq, rfl⟩
    exact Or.inr ⟨q, List.mem_append_left _ hq, rfl, rfl⟩

end Repr

/-! ## The two searches of `GetAffectedCells` -/

section Seek

variable {m : SymbolListMap} {hs te : Int}

/-- From `p` the search for `insertAfter` ends at `A` within `n` turns. -/
inductive SeeksAfter (m : SymbolListMap) (hs : Int) (A : Nat) : Nat → Bool → Nat → Prop
  | found (n : Nat) : SeeksAfter m hs A A true n
  | turn {p p' : Nat} {b : Bool} {n : Nat} (h : m.seekAfter hs p = some (p', b))
      (h' : SeeksAfter m hs A p' b n) : SeeksAfter m hs A p false (n + 1)

/-- From `p` the search for `insertBefore` ends at `B` within `n` turns. -/
inductive SeeksBefore (m : SymbolListMap) (te : Int) (B : Nat) : Nat → Bool → Nat → Prop
  | found (n : Nat) : SeeksBefore m te B B true n
  | turn {p p' : Nat} {b : Bool} {n : Nat} (h : m.seekBefore te p = some (p', b))
      (h' : SeeksBefore m te B p' b n) : SeeksBefore m te B p false (n + 1)

/-- A walk that has ended is not changed by more steps allowed to it. -/
theorem SeeksAfter.mono {A p : Nat} {b : Bool} {n : Nat} (h : SeeksAfter m hs A p b n)
    {k : Nat} (hk : n ≤ k) : SeeksAfter m hs A p b k := by
  induction h generalizing k with
  | found n => exact .found k
  | turn h _ ih =>
    obtain ⟨k, rfl⟩ := Nat.exists_eq_add_of_lt hk
    exact .turn h (ih (by omega))

/-- The same for the walk to the left. -/
theorem SeeksBefore.mono {B p : Nat} {b : Bool} {n : Nat} (h : SeeksBefore m te B p b n)
    {k : Nat} (hk : n ≤ k) : SeeksBefore m te B p b k := by
  induction h generalizing k with
  | found n => exact .found k
  | turn h _ ih =>
    obtain ⟨k, rfl⟩ := Nat.exists_eq_add_of_lt hk
    exact .turn h (ih (by omega))

/-- The joint loop runs both searches to their ends. The measure is the
number of turns left to the slower one. -/
theorem affectedLoop_of_seeks {A B : Nat} {n : Nat} {ia ib : Nat} {fa fb : Bool}
    (ha : SeeksAfter m hs A ia fa n) (hb : SeeksBefore m te B ib fb n) (fuel : Nat)
    (hfuel : n ≤ fuel) (hpos : 0 < fuel) :
    m.affectedLoop hs te fuel ia fa ib fb = some (A, B) := by
  -- The induction is on the fuel. In each turn a search that has not ended takes one step, and the
  -- loop ends with the later of the two.
  induction fuel generalizing n ia ib fa fb with
  | zero => omega
  | succ fuel ih =>
    cases ha with
    | found =>
      cases hb with
      | found => simp [affectedLoop]
      | turn h h' =>
        rename_i p' b k
        cases b with
        | true =>
          cases h'
          simp [affectedLoop, h]
        | false =>
          have hk : 0 < k := by
            cases h'
            omega
          simp only [affectedLoop, if_true, h, Option.bind_eq_bind, Option.bind_some,
            Bool.false_eq_true, if_false, Bool.and_false]
          exact ih (.found k) h' (by omega) (by omega)
    | turn h h' =>
      rename_i p' b k
      cases hb with
      | found =>
        cases b with
        | true =>
          cases h'
          simp [affectedLoop, h]
        | false =>
          have hk : 0 < k := by
            cases h'
            omega
          simp only [affectedLoop, if_true, h, Option.bind_eq_bind, Option.bind_some,
            Bool.false_eq_true, if_false, Bool.false_and]
          exact ih h' (.found k) (by omega) (by omega)
      | turn g g' =>
        rename_i q' c
        cases hbc : (b && c) with
        | true =>
          obtain ⟨rfl, rfl⟩ := Bool.and_eq_true_iff.1 hbc
          cases h'
          cases g'
          simp [affectedLoop, h, g]
        | false =>
          have hk : 0 < k := by
            cases b with
            | false =>
              cases h'
              omega
            | true =>
              have hc : c = false := by simpa using hbc
              subst hc
              cases g'
              omega
          simp only [affectedLoop, h, g, Option.bind_eq_bind, Option.bind_some,
            Bool.false_eq_true, if_false, hbc]
          exact ih h' g' (by omega) (by omega)

variable {zs : List Nat}

/-- Along a list whose cells start below `hs` up to `A`, and not after it,
the first search ends at `A`. -/
theorem seeksAfter_of_list (hlink : Linked m.next m.prev none zs none) {A y : Nat}
    {r : List Nat} (hA : (m.seg A).addr < hs) (hy : hs ≤ (m.seg y).addr)
    (xs l : List Nat) {x : Nat} (hzs : zs = l ++ (xs ++ A :: y :: r))
    (hx : (xs ++ [A]).head? = some x) (hxs : ∀ z ∈ xs, (m.seg z).addr < hs) :
    SeeksAfter m hs A x false (xs.length + 1) := by
  -- The induction is on the cells between the start of the walk and `A`.
  induction xs generalizing l x with
  | nil =>
    have hnext : m.next A = some y := (hzs ▸ hlink).adjacent.1
    have hxA : A = x := by simpa using hx
    subst hxA
    have hseek : m.seekAfter hs A = some (A, true) := by simp [seekAfter, hnext, hA, hy]
    exact .turn hseek (.found 0)
  | cons w xs ih =>
    have hwx : w = x := by simpa using hx
    subst hwx
    -- the successor of `w` is the next cell of the list, which starts below `hs`
    obtain ⟨w', hw'⟩ : ∃ w', (xs ++ [A]).head? = some w' := by
      cases xs with
      | nil => exact ⟨A, rfl⟩
      | cons u us => exact ⟨u, rfl⟩
    obtain ⟨us, hus⟩ : ∃ us, xs ++ A :: y :: r = w' :: us := by
      cases xs with
      | nil => exact ⟨y :: r, by simpa using hw'⟩
      | cons u us => exact ⟨us ++ A :: y :: r, by simpa using hw'⟩
    have hnext : m.next w = some w' := by
      rw [hzs, List.cons_append, hus] at hlink
      exact hlink.adjacent.1
    have hlow : (m.seg w').addr < hs := by
      cases xs with
      | nil =>
        have hAw : A = w' := by simpa using hw'
        rwa [← hAw]
      | cons u us =>
        have huw : u = w' := by simpa using hw'
        exact hxs w' (by simp [huw])
    have hseek : m.seekAfter hs w = some (w', false) := by
      have hnle : ¬ hs ≤ (m.seg w').addr := by omega
      simp [seekAfter, hnext, hnle]
    exact .turn hseek (ih (l ++ [w]) (by rw [hzs]; simp) hw' fun z hz => hxs z (by simp [hz]))

/-- Along a list whose cells end by `te` before `B`, which ends after it, the
second search ends at `B`. -/
theorem seeksBefore_of_list (hlink : Linked m.next m.prev none zs none) {B : Nat}
    {r : List Nat} (hB : te < (m.seg B).stop) (xs l : List Nat) {x : Nat}
    (hzs : zs = l ++ x :: (xs ++ B :: r)) (hx : (m.seg x).stop ≤ te)
    (hxs : ∀ z ∈ xs, (m.seg z).stop ≤ te) :
    SeeksBefore m te B x false (xs.length + 1) := by
  induction xs generalizing l x with
  | nil =>
    have hnext : m.next x = some B := (hzs ▸ hlink).adjacent.1
    have hseek : m.seekBefore te x = some (B, true) := by simp [seekBefore, hnext, hx, hB]
    exact .turn hseek (.found 0)
  | cons w xs ih =>
    have hnext : m.next x = some w := (hzs ▸ hlink).adjacent.1
    have hw : (m.seg w).stop ≤ te := hxs w (by simp)
    have hseek : m.seekBefore te x = some (w, false) := by
      have hnlt : ¬ te < (m.seg w).stop := by omega
      simp [seekBefore, hnext, hnlt]
    exact .turn hseek (ih (l ++ [x]) (by rw [hzs]; simp) hw fun z hz => hxs z (by simp [hz]))

end Seek

/-! ## `GetAffectedCells` -/

/-- A list whose first element has a property and whose last does not splits
at the first element without it. -/
theorem exists_split {α : Type} (P : α → Prop) [DecidablePred P] (xs : List α)
    (hex : ∃ x ∈ xs, ¬ P x) :
    ∃ l y r, xs = l ++ y :: r ∧ (∀ x ∈ l, P x) ∧ ¬ P y := by
  induction xs with
  | nil =>
    obtain ⟨x, hx, -⟩ := hex
    simp at hx
  | cons x xs ih =>
    by_cases hx : P x
    · obtain ⟨z, hz, hPz⟩ := hex
      have hz' : z ∈ xs := by
        rcases List.mem_cons.1 hz with rfl | hz
        · exact absurd hx hPz
        · exact hz
      obtain ⟨l, y, r, rfl, hl, hy⟩ := ih ⟨z, hz', hPz⟩
      refine ⟨x :: l, y, r, rfl, ?_, hy⟩
      intro w hw
      rcases List.mem_cons.1 hw with rfl | hw
      · exact hx
      · exact hl w hw
    · exact ⟨[], x, xs, rfl, by simp, hx⟩

/-- What `GetAffectedCells` finds for a range: either one cell `A` that
reaches over both edges, or the last cell `A` that starts before the range and
the first cell `B` that ends after it, with cells `mid` of the range between
them. -/
inductive Affected (m : SymbolListMap) (ps : List Nat) (hs te : Int) (A B : Nat) : Prop
  | inside (l r : List Nat) (hps : ps = l ++ A :: r) (hB : B = A)
      (hA : (m.seg A).addr < hs) (hA' : te < (m.seg A).stop)
  | between (l mid r : List Nat) (hzs : m.chainOf ps = l ++ A :: (mid ++ B :: r))
      (hA : (m.seg A).addr < hs) (hA' : (m.seg A).stop ≤ te)
      (hmid : ∀ x ∈ mid, hs ≤ (m.seg x).addr ∧ (m.seg x).stop ≤ te)
      (hB : hs ≤ (m.seg B).addr) (hB' : te < (m.seg B).stop)

namespace Repr

variable {m : SymbolListMap} {ps : List Nat} {hs te : Int}

/-- A chain has no more nodes than were made, so a walk that is allowed that many steps
ends. -/
theorem length_le (h : Repr m ps) : (m.chainOf ps).length ≤ m.nextPtr := by
  have hsub : m.chainOf ps ⊆ List.range m.nextPtr := by
    intro z hz
    exact List.mem_range.2 (h.chain.bound z hz)
  have hle := (List.Nodup.subperm h.chain.nodup hsub).length_le
  rwa [List.length_range] at hle

/-- The search for `insertAfter` has an easy start exactly when a cell starts
at `hs`: the index gives its predecessor. Otherwise it starts at the header.
In both cases it ends at the last cell that starts below `hs`. -/
theorem affectedStart_spec (h : Repr m ps) (hc : Searchable hs (hs + 1)) {l r : List Nat}
    {A y : Nat} (hzs : m.chainOf ps = l ++ A :: y :: r) (hl : ∀ x ∈ l ++ [A], (m.seg x).addr < hs)
    (hy : hs ≤ (m.seg y).addr) :
    ∃ start found,
      m.affectedStart hs = some (start, found) ∧
      SeeksAfter m hs A start found (l.length + 1) ∧
      (start = m.listheader ∨ start = A ∧ (m.seg y).addr = hs) := by
  -- The index names a cell that starts at `hs`, or the walk begins at the header.
  cases hsm : m.sm (addrToKey hs) with
  | some it =>
    obtain ⟨hit, haddr⟩ := (h.sm_eq_some hc).1 hsm
    -- the indexed cell is the first one not below `hs`
    have hord := h.ordered
    have hity : it = y := by
      have hmem := mem_chainOf (m := m) hit
      rw [hzs, show l ++ A :: y :: r = (l ++ [A]) ++ y :: r by simp] at hmem hord
      rcases List.mem_append.1 hmem with hmem | hmem
      · have hlt := hl it hmem
        omega
      · rcases List.mem_cons.1 hmem with heq | hmem
        · exact heq
        · have hlt := (List.pairwise_cons.1 (List.pairwise_append.1 hord).2.1).1 it hmem
          omega
    subst hity
    have hprev : m.prev it = some A := (hzs ▸ h.chain.linked).adjacent.2
    exact ⟨A, true, by simp [affectedStart, hsm, hprev], .found _, Or.inr ⟨rfl, haddr⟩⟩
  | none =>
    have hhead : (l ++ [A]).head? = some m.listheader := by
      have hz := congrArg List.head? hzs
      rw [show l ++ A :: y :: r = (l ++ [A]) ++ y :: r by simp] at hz
      cases l with
      | nil => simpa [chainOf, eq_comm] using hz
      | cons w l => simpa [chainOf, eq_comm] using hz
    refine ⟨m.listheader, false, by simp [affectedStart, hsm], ?_, Or.inl rfl⟩
    exact seeksAfter_of_list h.chain.linked (hl A (by simp)) hy l [] (by simpa using hzs)
      hhead fun z hz => hl z (by simp [hz])

/-- `GetAffectedCells` terminates on every range it can search and finds the cells
at its edges. -/
theorem getAffectedCells_spec (h : Repr m ps) (hc : Searchable hs te) (hlt : hs < te) :
    ∃ A B, m.getAffectedCells hs te = some (A, B) ∧ Affected m ps hs te A B := by
  have hc1 := hc.start hlt
  have hord := h.ordered
  have hhead : (m.seg m.listheader).addr < hs ∧ (m.seg m.listheader).stop ≤ te := by
    unfold Searchable at hc
    simp only [h.header, Segment.stop]
    omega
  have htail : te < (m.seg m.listtail).addr ∧ te < (m.seg m.listtail).stop := by
    unfold Searchable at hc
    simp only [h.tail, Segment.stop]
    omega
  -- the first cell `y` that does not start below `hs`, and `A` before it
  obtain ⟨l', y, r, hzs', hl', hy⟩ := exists_split (fun x => (m.seg x).addr < hs)
    (m.chainOf ps) ⟨m.listtail, tail_mem, by omega⟩
  obtain ⟨l, A, rfl⟩ : ∃ l A, l' = l ++ [A] := by
    rcases List.eq_nil_or_concat l' with rfl | ⟨l, A, rfl⟩
    · simp only [chainOf, List.nil_append, List.cons.injEq] at hzs'
      exact absurd hhead.1 (hzs'.1 ▸ hy)
    · exact ⟨l, A, by simp⟩
  have hzs : m.chainOf ps = l ++ A :: y :: r := by simpa using hzs'
  have hA : (m.seg A).addr < hs := hl' A (by simp)
  have hy : hs ≤ (m.seg y).addr := by omega
  have hlen := h.length_le
  obtain ⟨start, found, hstart, hseek, hwhere⟩ := h.affectedStart_spec hc1 hzs hl' hy
  have hord' := hzs ▸ hord
  have hlA : ∀ x ∈ l, (m.seg x).stop ≤ (m.seg A).addr := fun x hx =>
    ((List.pairwise_append.1 hord').2.2 x hx A (by simp)).2
  have hafter : ∀ x ∈ y :: r, hs ≤ (m.seg x).addr := by
    intro x hx
    rcases List.mem_cons.1 hx with rfl | hx
    · exact hy
    · have hlt := (List.pairwise_cons.1
        (List.pairwise_cons.1 (List.pairwise_append.1 hord').2.1).2).1 x hx
      omega
  by_cases hover : te < (m.seg A).stop
  · -- `A` reaches over both edges; it is no sentinel, and no cell starts at `hs`
    have hAne : A ≠ m.listheader := by
      rintro rfl
      omega
    have hAt : A ≠ m.listtail := by
      rintro rfl
      omega
    have hAy : (m.seg A).stop ≤ (m.seg y).addr :=
      ((List.pairwise_cons.1 (List.pairwise_append.1 hord').2.1).1 y (by simp)).2
    have hhd : start = m.listheader := by
      rcases hwhere with hw | ⟨-, hw⟩
      · exact hw
      · omega
    obtain ⟨l0, hl0⟩ : ∃ l0, l = m.listheader :: l0 := by
      cases l with
      | nil =>
        simp only [chainOf, List.nil_append, List.cons.injEq] at hzs
        exact absurd hzs.1.symm hAne
      | cons w l0 =>
        simp only [chainOf, List.cons_append, List.cons.injEq] at hzs
        exact ⟨l0, by rw [hzs.1]⟩
    subst hhd
    -- The walk from the header meets `A` as the first cell that ends behind the range.
    have hbefore : SeeksBefore m te A m.listheader false (l0.length + 1) := by
      apply seeksBefore_of_list h.chain.linked hover l0 [] (r := y :: r)
      · rw [hzs, hl0]
        simp
      · exact hhead.2
      · intro z hz
        have hz' := hlA z (by simp [hl0, hz])
        omega
    refine ⟨A, A, ?_, ?_⟩
    · rw [getAffectedCells, hstart]
      simp only [Option.bind_eq_bind, Option.bind_some]
      have hll : l.length + 1 ≤ m.nextPtr := by
        rw [hzs] at hlen
        simp at hlen
        omega
      refine affectedLoop_of_seeks hseek (hbefore.mono ?_) _ hll (by omega)
      simp [hl0]
    · -- the cells of the list without the sentinels
      obtain ⟨r0, t, hrt⟩ : ∃ r0 t, y :: r = r0 ++ [t] := by
        rcases List.eq_nil_or_concat (y :: r) with hnil | ⟨r0, t, hrt⟩
        · simp at hnil
        · exact ⟨r0, t, by rw [hrt, List.concat_eq_append]⟩
      have hz : ps ++ [m.listtail] = (l0 ++ A :: r0) ++ [t] := by
        rw [hl0, hrt, chainOf, List.cons_append, List.cons.injEq] at hzs
        rw [hzs.2]
        simp
      exact .inside l0 r0 (List.append_inj' hz rfl).1 rfl hA hover
  · -- the first cell `B` behind `A` that ends after the range
    obtain ⟨mid, B, r', hyr, hmid, hB⟩ := exists_split (fun x => (m.seg x).stop ≤ te)
      (y :: r) ⟨m.listtail, by
        have ht : m.listtail ∈ l ++ A :: y :: r := hzs ▸ tail_mem
        have hnot : ∀ x ∈ l ++ [A], x ≠ m.listtail := by
          rintro x hx rfl
          have hx' := hl' _ hx
          omega
        rw [show l ++ A :: y :: r = (l ++ [A]) ++ y :: r by simp, List.mem_append] at ht
        rcases ht with ht | ht
        · exact absurd rfl (hnot _ ht)
        · exact ht, by omega⟩
    have hzs2 : m.chainOf ps = l ++ A :: (mid ++ B :: r') := by rw [hzs, hyr]
    have hB' : te < (m.seg B).stop := by omega
    have hmidle : mid.length + l.length + 2 ≤ m.nextPtr := by
      rw [hzs2] at hlen
      simp at hlen
      omega
    -- the second search starts at `A` or at the header
    have hbefore : SeeksBefore m te B start false (mid.length + l.length + 1) := by
      rcases hwhere with rfl | ⟨rfl, -⟩
      · cases l with
        | nil =>
          have hAh : A = m.listheader := by
            have hz := hzs
            simp only [chainOf, List.nil_append, List.cons.injEq] at hz
            exact hz.1.symm
          subst hAh
          exact seeksBefore_of_list h.chain.linked hB' mid [] hzs2 hhead.2 hmid
        | cons w l =>
          have hw : m.listheader = w := by
            have hz := hzs
            simp only [chainOf, List.cons_append, List.cons.injEq] at hz
            exact hz.1
          subst hw
          have hs1 := seeksBefore_of_list h.chain.linked hB' (l ++ A :: mid) []
            (r := r') (x := m.listheader) (by rw [hzs2]; simp) hhead.2 (by
              intro z hz
              rcases List.mem_append.1 hz with hz | hz
              · have hz' := hlA z (by simp [hz])
                omega
              · rcases List.mem_cons.1 hz with rfl | hz
                · omega
                · exact hmid z hz)
          refine hs1.mono ?_
          simp
          omega
      · exact (seeksBefore_of_list h.chain.linked hB' mid l hzs2 (by omega) hmid).mono (by omega)
    refine ⟨A, B, ?_, .between l mid r' hzs2 hA (by omega) ?_ ?_ hB'⟩
    · rw [getAffectedCells, hstart]
      simp only [Option.bind_eq_bind, Option.bind_some]
      exact affectedLoop_of_seeks (hseek.mono (by omega)) hbefore _ (by omega) (by omega)
    · intro x hx
      refine ⟨hafter x ?_, hmid x hx⟩
      rw [hyr]
      simp [hx]
    · refine hafter B ?_
      rw [hyr]
      simp

end Repr

end KRover.SymbolListMap
