import KRover.Proofs.SymListRead

/-! # Runs of the symbol list

A run applies `Merge`, `Remove`, `GetCellList` and `GetExpr` to a new store in
any order. `StoreOp.Admissible` is what the callers keep to: the ranges are
canonical and not empty, a source list is sorted, and a range that is read has
a covered byte.

`WellFormed` is the representation invariant as a reader would state it, on
`next`, `prev`, the cells and `m_sm`.

* `Repr.wellFormed`: the invariant of the proofs implies it;
* `apply_repr`: one operation succeeds and keeps the invariant;
* `reachable_repr`: so does every run.
-/

set_option autoImplicit false

namespace KRover.SymbolListMap

open Segments DoublyLinked

/-- An operation on the store. -/
inductive StoreOp where
  | merge (src : List (Segment Expr))
  | remove (addr : Int) (size : Nat)
  | getCellList (addr : Int) (size : Nat)
  | getExpr (addr : Int) (size : Nat) (concreteV : BitVec 64)

/-- The store after an operation. -/
def StoreOp.apply : StoreOp → SymbolListMap → Option SymbolListMap
  | .merge src, m => m.mergeList src
  | .remove addr size, m => m.remove addr size
  | .getCellList addr size, m => (m.cellList addr size).map Prod.fst
  | .getExpr addr size v, m => (m.getExpr addr size v).map Prod.fst

/-- The pointers from `p` on, along `next`. -/
def walk (m : SymbolListMap) : Nat → Option Nat → List Nat
  | 0, _ => []
  | _ + 1, none => []
  | fuel + 1, some p => p :: m.walk fuel (m.next p)

/-- The live cells of the store: those between the header and the tail. -/
def liveCells (m : SymbolListMap) : List Nat :=
  ((m.walk (m.nextPtr + 1) (some m.listheader)).drop 1).dropLast

/-- The range `[addr, addr + size)` is one that the callers pass. -/
def GoodRange (addr : Int) (size : Nat) : Prop := 0 < size ∧ Canonical addr (addr + size)

/-- A good range can be searched for. -/
theorem GoodRange.searchable {addr : Int} {size : Nat} (h : GoodRange addr size) :
    Searchable addr (addr + size) :=
  h.2.searchable (by have hpos := h.1; omega)

/-- What the callers keep to. -/
def StoreOp.Admissible (m : SymbolListMap) : StoreOp → Prop
  | .merge src => src ≠ [] ∧ Sorted src ∧ Canonical (start src) (finish src)
  | .remove addr size => GoodRange addr size
  | .getCellList addr size | .getExpr addr size _ =>
    GoodRange addr size ∧
      ∃ b, addr ≤ b ∧ b < addr + size ∧ Covered (m.segs m.liveCells) b

/-- The representation invariant: from the header to the tail the cells
`m.liveCells` are doubly linked, strictly ordered, disjoint and of positive
size, and the index holds exactly the header under `-1`, the tail under its
key and every live cell under the key of its address. -/
structure WellFormed (m : SymbolListMap) : Prop where
  first : (m.liveCells ++ [m.listtail]).head? = m.next m.listheader
  ends : m.prev m.listheader = none ∧ m.next m.listtail = none
  inverse : ∀ p ∈ m.listheader :: m.liveCells, ∀ q ∈ m.liveCells ++ [m.listtail],
    m.next p = some q ↔ m.prev q = some p
  linked : ∀ l p q r, m.listheader :: (m.liveCells ++ [m.listtail]) = l ++ p :: q :: r →
    m.next p = some q ∧ m.prev q = some p
  different : (m.listheader :: (m.liveCells ++ [m.listtail])).Nodup
  ordered : (m.listheader :: (m.liveCells ++ [m.listtail])).Pairwise fun p q =>
    (m.seg p).addr < (m.seg q).addr
  disjoint : m.liveCells.Pairwise fun p q => (m.seg p).stop ≤ (m.seg q).addr
  positive : ∀ p ∈ m.liveCells, 0 < (m.seg p).size
  indexed : ∀ k q, m.sm k = some q ↔
    k = -1 ∧ q = m.listheader ∨ k = addrToKey (m.seg m.listtail).addr ∧ q = m.listtail ∨
      ∃ p ∈ m.liveCells, k = addrToKey (m.seg p).addr ∧ q = p

/-- The states of a run. -/
inductive Reachable : SymbolListMap → Prop
  | new : Reachable new
  | step {m m' : SymbolListMap} {op : StoreOp} (h : Reachable m) (hop : op.Admissible m)
      (hstep : op.apply m = some m') : Reachable m'

/-! ## The invariant of the proofs -/

/-- The walk along a linked list gives its nodes, with as much fuel as there are nodes. -/
theorem walk_spec (zs : List Nat) {m : SymbolListMap} {p : Option Nat}
    (hlink : Linked m.next m.prev p zs none) {fuel : Nat} (hfuel : zs.length ≤ fuel) :
    m.walk fuel zs.head? = zs := by
  induction zs generalizing p fuel with
  | nil => cases fuel <;> rfl
  | cons x zs ih =>
    cases fuel with
    | zero => simp at hfuel
    | succ fuel =>
      obtain ⟨-, hnext, hrest⟩ := linked_cons.1 hlink
      rw [Option.or_none] at hnext
      rw [List.head?_cons, walk, hnext, ih hrest (Nat.le_of_succ_le_succ hfuel)]

namespace Repr

variable {m : SymbolListMap} {ps : List Nat}

/-- The live cells are those the store holds. -/
theorem liveCells_eq (h : Repr m ps) : m.liveCells = ps := by
  have hlen := h.length_le
  have hwalk := walk_spec (m.chainOf ps) h.chain.linked (Nat.le_succ_of_le hlen)
  have hhead : (m.chainOf ps).head? = some m.listheader := rfl
  rw [hhead] at hwalk
  rw [liveCells, hwalk, chainOf]
  simp

/-- A store that is represented is well formed. -/
theorem wellFormed (h : Repr m ps) : WellFormed m := by
  have hlive := h.liveCells_eq
  have hadj : ∀ l p q r, m.chainOf ps = l ++ p :: q :: r →
      m.next p = some q ∧ m.prev q = some p := by
    intro l p q r hzs
    exact (hzs ▸ h.chain.linked).adjacent
  constructor
  · have hn := h.chain.linked.2.1
    rw [Option.or_none] at hn
    rw [hlive, hn]
  · refine ⟨h.chain.linked.1, ?_⟩
    have hz : m.chainOf ps = (m.listheader :: ps) ++ m.listtail :: [] := by simp [chainOf]
    exact (hz ▸ h.chain.linked).next_eq
  · rw [hlive]
    intro p hp q hq
    constructor
    · intro hpq
      -- `p` is not the last cell, so it has a successor, and that is `q`
      obtain ⟨l, r, hl⟩ := List.append_of_mem (List.mem_append_left [m.listtail] hp)
      cases r with
      | nil =>
        have hcat : (m.listheader :: ps) ++ [m.listtail] = l ++ [p] := hl
        have hpt : m.listtail = p := (List.cons.inj (List.append_inj' hcat rfl).2).1
        have hnd := h.chain.nodup
        rw [chainOf, ← List.cons_append, List.nodup_append] at hnd
        exact absurd hpt.symm (hnd.2.2 p hp m.listtail (by simp))
      | cons q' r =>
        have hq' := hadj l p q' r (by rw [← hl]; rfl)
        rw [hq'.1] at hpq
        rw [← Option.some.inj hpq]
        exact hq'.2
    · intro hqp
      obtain ⟨l, r, hl⟩ := List.append_of_mem (List.mem_cons_of_mem m.listheader hq)
      rcases List.eq_nil_or_concat l with rfl | ⟨l, p', rfl⟩
      · have hcons : m.listheader :: (ps ++ [m.listtail]) = q :: r := hl
        have hqh : m.listheader = q := (List.cons.inj hcons).1
        have hnd := (List.nodup_cons.1 h.chain.nodup).1
        exact absurd (hqh ▸ hq) hnd
      · rw [List.concat_eq_append, List.append_assoc] at hl
        have hp' := hadj l p' q r hl
        rw [hp'.2] at hqp
        rw [← Option.some.inj hqp]
        exact hp'.1
  · rw [hlive]
    exact hadj
  · rw [hlive]
    exact h.chain.nodup
  · rw [hlive]
    exact h.ordered.imp fun hpq => hpq.1
  · rw [hlive]
    exact List.pairwise_map.1 h.sorted.disjoint
  · rw [hlive]
    intro p hp
    exact h.size_pos hp
  · rw [hlive]
    intro k q
    rw [h.indexed]
    refine or_congr_right ?_
    constructor
    · rintro ⟨p, hp, hk, hq⟩
      rcases List.mem_append.1 hp with hp | hp
      · exact Or.inr ⟨p, hp, hk, hq⟩
      · rw [List.mem_singleton.1 hp] at hk hq
        exact Or.inl ⟨hk, hq⟩
    · rintro (⟨hk, hq⟩ | ⟨p, hp, hk, hq⟩)
      · exact ⟨m.listtail, by simp, hk, hq⟩
      · exact ⟨p, by simp [hp], hk, hq⟩

end Repr

/-- The constructor's store holds no cell. -/
theorem repr_new : Repr new [] := by
  constructor
  · constructor
    · exact ⟨rfl, rfl, rfl, rfl, trivial⟩
    · decide
    · decide
  · rfl
  · rfl
  · exact Sorted.nil
  · simp
  · intro k q
    have hne : addrToKey (2 ^ 59 - 1) ≠ -1 := by decide
    have hnew : new.sm k = if k = addrToKey (2 ^ 59 - 1) then some 1
        else if k = -1 then some 0 else none := rfl
    have hkeys : (k = -1 ∧ q = new.listheader ∨
        ∃ p ∈ [] ++ [new.listtail], k = addrToKey (new.seg p).addr ∧ q = p)
        ↔ k = -1 ∧ q = 0 ∨ k = addrToKey (2 ^ 59 - 1) ∧ q = 1 := by
      simp only [List.nil_append, List.mem_singleton, exists_eq_left]
      rfl
    rw [hnew, hkeys]
    generalize addrToKey (2 ^ 59 - 1) = K at hne ⊢
    by_cases hk : k = K
    · have hk1 : k ≠ -1 := fun heq => hne (hk ▸ heq)
      simp [hk, hne, eq_comm]
    · by_cases hk' : k = -1
      · simp [hk', hne.symm, eq_comm]
      · simp [hk, hk']

/-- Three cells. The second begins where the first ends, and there is a gap in front of the
third. -/
def threeCells : List (Segment Expr) :=
  [⟨0x1000, 8, Expr.constExpr 1 8⟩, ⟨0x1008, 4, Expr.constExpr 2 4⟩,
    ⟨0x1010, 8, Expr.constExpr 3 8⟩]

/-- They are merged into the new store. -/
theorem exists_threeCells : ∃ m, new.mergeList threeCells = some m ∧ Repr m m.liveCells ∧
    m.segs m.liveCells = threeCells := by
  have hsort : Sorted threeCells := by
    refine sorted_cons.2 ⟨by decide, sorted_cons.2 ⟨by decide, sorted_cons.2 ⟨by decide,
      Sorted.nil, by simp⟩, ?_⟩, ?_⟩ <;> decide
  obtain ⟨m, ps, hm, hrepr, hsegs⟩ := repr_new.mergeList_spec (by decide) hsort
    (Or.inr (by decide))
  refine ⟨m, hm, ?_, ?_⟩
  · rw [hrepr.liveCells_eq]
    exact hrepr
  · rw [hrepr.liveCells_eq, hsegs]
    rfl

/-- One admissible operation succeeds and keeps the invariant. -/
theorem apply_repr {m : SymbolListMap} {ps : List Nat} (h : Repr m ps) {op : StoreOp}
    (hop : op.Admissible m) : ∃ m' ps', op.apply m = some m' ∧ Repr m' ps' := by
  cases op with
  | merge src =>
    obtain ⟨m', ps', hm', hrepr, -⟩ := h.mergeList_spec hop.1 hop.2.1 hop.2.2
    exact ⟨m', ps', hm', hrepr⟩
  | remove addr size =>
    obtain ⟨m', ps', hm', hrepr, -⟩ := h.remove_spec hop.searchable hop.1
    exact ⟨m', ps', hm', hrepr⟩
  | getCellList addr size =>
    obtain ⟨hrange, hcov⟩ := hop
    rw [h.liveCells_eq] at hcov
    obtain ⟨m', hm', hrepr, -⟩ := h.cellList_spec hrange.searchable hcov
    exact ⟨m', ps, by rw [StoreOp.apply, hm']; rfl, hrepr⟩
  | getExpr addr size v =>
    obtain ⟨hrange, hcov⟩ := hop
    rw [h.liveCells_eq] at hcov
    obtain ⟨m', e, hm', -, hrepr, -⟩ := h.getExpr_spec v hrange.searchable hcov
    exact ⟨m', ps, by rw [StoreOp.apply, hm']; rfl, hrepr⟩

/-- Every state of a run satisfies the invariant. -/
theorem reachable_repr {m : SymbolListMap} (h : Reachable m) : ∃ ps, Repr m ps := by
  induction h with
  | new => exact ⟨[], repr_new⟩
  | step _ hop hstep ih =>
    obtain ⟨ps, hps⟩ := ih
    obtain ⟨m', ps', hm', hrepr⟩ := apply_repr hps hop
    rw [hstep] at hm'
    exact ⟨ps', Option.some.inj hm' ▸ hrepr⟩

/-- In every state of a run the store is well formed, and every admissible operation
succeeds. Well formed is that the cells are linked both ways, sorted, apart and not empty,
and that the index knows the start of each and nothing else. This is the invariant that all
other results about the store rest on. -/
theorem store_invariant (m : SymbolListMap) (h : Reachable m) :
    WellFormed m ∧ ∀ op : StoreOp, op.Admissible m → ∃ m', op.apply m = some m' := by
  obtain ⟨ps, hps⟩ := reachable_repr h
  refine ⟨hps.wellFormed, ?_⟩
  intro op hop
  obtain ⟨m', ps', hm', -⟩ := apply_repr hps hop
  exact ⟨m', hm'⟩

/-- A run that writes one cell and then removes its middle. -/
theorem store_invariant_split : WellFormed
    ((((StoreOp.merge [⟨0x1000, 8, .udef none 4⟩]).apply new).bind
      (StoreOp.remove 0x1002 2).apply).getD new) := by
  have hmerge : (StoreOp.merge [⟨0x1000, 8, .udef none 4⟩]).Admissible new := by
    refine ⟨by simp, ?_, ?_⟩
    · exact sorted_cons.2 ⟨by decide, Sorted.nil, by simp⟩
    · exact Or.inr (by decide)
  obtain ⟨m₁, hm₁⟩ := (store_invariant new .new).2 _ hmerge
  have hreach : Reachable m₁ := .step .new hmerge hm₁
  have hremove : (StoreOp.remove 0x1002 2).Admissible m₁ := ⟨by decide, Or.inr (by decide)⟩
  obtain ⟨m₂, hm₂⟩ := (store_invariant m₁ hreach).2 _ hremove
  rw [hm₁, Option.bind_some, hm₂, Option.getD_some]
  exact (store_invariant m₂ (.step hreach hremove hm₂)).1

end KRover.SymbolListMap
