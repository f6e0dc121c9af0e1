import KRover.Proofs.SymListRun

/-! # The cells at the edges of a range

`Affected` says what `GetAffectedCells` finds as the operations need it. Here
it is said of each of the two cells by itself: `insertAfter` is the last cell
that starts below the range, `insertBefore` the first one that ends behind it.

* `affected_edges`: the first form implies the second;
* `scanCells_eq`: a search of the whole list from the header finds them;
* `getAffectedCells_edges`: so does `GetAffectedCells`, with or without the
  index.
-/

set_option autoImplicit false

namespace KRover.SymbolListMap

open Segments DoublyLinked

/-- `A` is the last cell, the header included, that starts below `s`. -/
def LastBelow (m : SymbolListMap) (ps : List Nat) (s : Int) (A : Nat) : Prop :=
  ∃ l r, m.chainOf ps = l ++ A :: r ∧ (m.seg A).addr < s ∧ ∀ x ∈ r, s ≤ (m.seg x).addr

/-- `B` is the first cell, the tail included, that ends behind `e`. -/
def FirstAbove (m : SymbolListMap) (ps : List Nat) (e : Int) (B : Nat) : Prop :=
  ∃ l r, m.chainOf ps = l ++ B :: r ∧ e < (m.seg B).stop ∧ ∀ x ∈ l, (m.seg x).stop ≤ e

/-- A search of the whole list: both cursors start at the header. -/
def scanCells (m : SymbolListMap) (s e : Int) (turns : Nat) : Option (Nat × Nat) :=
  m.affectedLoop s e turns m.listheader false m.listheader false

namespace Repr

variable {m : SymbolListMap} {ps : List Nat} {s e : Int} {A B : Nat}

/-- The cells before a cell of the list start and end below it. -/
theorem before_lt (h : Repr m ps) {l r : List Nat} {x : Nat} (hzs : m.chainOf ps = l ++ x :: r)
    {y : Nat} (hy : y ∈ l) :
    (m.seg y).addr < (m.seg x).addr ∧ (m.seg y).stop ≤ (m.seg x).addr := by
  have hord := h.ordered
  rw [hzs] at hord
  exact (List.pairwise_append.1 hord).2.2 y hy x List.mem_cons_self

/-- The cells behind a cell of the list start and end above it. -/
theorem after_lt (h : Repr m ps) {l r : List Nat} {x : Nat} (hzs : m.chainOf ps = l ++ x :: r)
    {y : Nat} (hy : y ∈ r) :
    (m.seg x).addr < (m.seg y).addr ∧ (m.seg x).stop ≤ (m.seg y).addr := by
  have hord := h.ordered
  rw [hzs] at hord
  exact (List.pairwise_cons.1 (List.pairwise_append.1 hord).2.1).1 y hy

/-- What the operations need of the two cells, said of each by itself. -/
theorem affected_edges (h : Repr m ps) (hlt : s < e) (ha : Affected m ps s e A B) :
    LastBelow m ps s A ∧ FirstAbove m ps e B := by
  cases ha with
  | inside l r hps hB hA hA' =>
    subst hB
    have hzs : m.chainOf ps = (m.listheader :: l) ++ B :: (r ++ [m.listtail]) := by
      rw [chainOf, hps]
      simp
    constructor
    · refine ⟨_, _, hzs, hA, ?_⟩
      intro x hx
      have hx' := (h.after_lt hzs hx).2
      omega
    · refine ⟨_, _, hzs, hA', ?_⟩
      intro x hx
      have hx' := (h.before_lt hzs hx).2
      omega
  | between l mid r hzs hA hA' hmid hB hB' =>
    have hzs' : m.chainOf ps = (l ++ A :: mid) ++ B :: r := by
      rw [hzs]
      simp
    constructor
    · refine ⟨_, _, hzs, hA, ?_⟩
      intro x hx
      rcases List.mem_append.1 hx with hx | hx
      · exact (hmid x hx).1
      · rcases List.mem_cons.1 hx with rfl | hx
        · exact hB
        · have hx' := (h.after_lt hzs' hx).1
          omega
    · refine ⟨_, _, hzs', hB', ?_⟩
      intro x hx
      rcases List.mem_append.1 hx with hx | hx
      · have hx' := (h.before_lt hzs hx).2
        omega
      · rcases List.mem_cons.1 hx with rfl | hx
        · exact hA'
        · exact (hmid x hx).2

/-- From the header on, the first search ends at the last cell below `s`. -/
theorem seeksAfter_scan (h : Repr m ps) (hc : Searchable s e) (hlt : s < e)
    (hA : LastBelow m ps s A) : SeeksAfter m s A m.listheader false m.nextPtr := by
  obtain ⟨l, r, hzs, hAs, hr⟩ := hA
  -- a cell follows `A`, for `A` is not the tail
  cases r with
  | nil =>
    have hlast : m.listtail = A := by
      have hl := congrArg List.getLast? hzs
      rw [chainOf, List.getLast?_append, List.getLast?_cons] at hl
      simpa [List.getLast?_append] using hl
    have htail := h.le_tail_addr hc
    rw [hlast] at htail
    omega
  | cons y r =>
    have hhead : (l ++ [A]).head? = some m.listheader := by
      cases l with
      | nil =>
        have hz := congrArg List.head? hzs
        simpa [chainOf, eq_comm] using hz
      | cons w l =>
        have hz := congrArg List.head? hzs
        simpa [chainOf, eq_comm] using hz
    have hseek := seeksAfter_of_list h.chain.linked hAs (hr y List.mem_cons_self) l [] hzs
      hhead (fun z hz => (h.before_lt hzs hz).1.trans hAs)
    have hlen := h.length_le
    rw [hzs, List.length_append] at hlen
    exact hseek.mono (by simp at hlen; omega)

/-- From the header on, the second search ends at the first cell above
`e`. -/
theorem seeksBefore_scan (h : Repr m ps) (hc : Searchable s e) (hlt : s < e)
    (hB : FirstAbove m ps e B) : SeeksBefore m e B m.listheader false m.nextPtr := by
  obtain ⟨l, r, hzs, hBe, hl⟩ := hB
  have hhead := (h.header_stop_le hc).trans hlt.le
  -- `B` is not the header
  cases l with
  | nil =>
    have hBh : m.listheader = B := (List.cons.inj hzs).1
    rw [hBh] at hhead
    omega
  | cons w l =>
    have hw : m.listheader = w := (List.cons.inj hzs).1
    subst hw
    have hseek := seeksBefore_of_list h.chain.linked hBe l [] hzs hhead
      (fun z hz => hl z (List.mem_cons_of_mem _ hz))
    have hlen := h.length_le
    rw [hzs, List.length_append] at hlen
    exact hseek.mono (by simp at hlen; omega)

/-- A search of the whole list finds the cells at the edges. -/
theorem scanCells_eq (h : Repr m ps) (hc : Searchable s e) (hlt : s < e)
    (hA : LastBelow m ps s A) (hB : FirstAbove m ps e B) {turns : Nat}
    (hturns : m.nextPtr ≤ turns) : m.scanCells s e turns = some (A, B) := by
  have hpos : 0 < m.nextPtr := by
    have hlen := h.length_le
    rw [chainOf, List.length_cons] at hlen
    omega
  exact affectedLoop_of_seeks (h.seeksAfter_scan hc hlt hA) (h.seeksBefore_scan hc hlt hB) _
    hturns (by omega)

end Repr

/-- On a canonical range `GetAffectedCells` ends at the last cell that starts below it and
the first one that ends behind it. No cursor has followed the null link of the tail, and a
search of the whole list ends at the same cells. A start that is known to the index saves
the walk from the header, and it must lead to the same cells. -/
theorem getAffectedCells_edges {m : SymbolListMap} {ps : List Nat} (h : Repr m ps) {s e : Int}
    (hc : Canonical s e) (hlt : s < e) :
    ∃ A B, m.getAffectedCells s e = some (A, B) ∧
      LastBelow m ps s A ∧ FirstAbove m ps e B ∧
      ∀ turns, m.nextPtr ≤ turns → m.scanCells s e turns = some (A, B) := by
  have hs := hc.searchable hlt
  obtain ⟨A, B, hres, haff⟩ := h.getAffectedCells_spec hs hlt
  obtain ⟨hA, hB⟩ := h.affected_edges hlt haff
  exact ⟨A, B, hres, hA, hB, fun turns hturns => h.scanCells_eq hs hlt hA hB hturns⟩

/-- Two ranges in a store of three cells. The first begins where a cell does, which the index
knows; the second begins inside a cell, so the search starts at the header. -/
theorem getAffectedCells_edges_three : ∃ m : SymbolListMap, m.segs m.liveCells = threeCells ∧
    m.sm (addrToKey 0x1008) ≠ none ∧ m.sm (addrToKey 0x1004) = none ∧
    ∀ s ∈ [(0x1008 : Int), 0x1004], ∃ A B, m.getAffectedCells s 0x1012 = some (A, B) ∧
      LastBelow m m.liveCells s A ∧ FirstAbove m m.liveCells 0x1012 B ∧
      ∀ turns, m.nextPtr ≤ turns → m.scanCells s 0x1012 turns = some (A, B) := by
  obtain ⟨m, hm, hrepr, hsegs⟩ := exists_threeCells
  have hindex : (new.mergeList threeCells).map (fun m =>
      ((m.sm (addrToKey 0x1008)).isSome, (m.sm (addrToKey 0x1004)).isSome))
        = some (true, false) := by decide +kernel
  rw [hm] at hindex
  obtain ⟨hknown, hunknown⟩ := Prod.mk.inj (Option.some.inj hindex)
  refine ⟨m, hsegs, ?_, ?_, fun s hs => ?_⟩
  · exact fun hnone => absurd hknown (by simp [hnone])
  · exact Option.isSome_eq_false_iff.1 hunknown |> Option.isNone_iff_eq_none.1
  · have hrange : ∀ s ∈ [(0x1008 : Int), 0x1004], Canonical s 0x1012 ∧ s < 0x1012 := by decide
    obtain ⟨hcanonical, hlt⟩ := hrange s hs
    exact getAffectedCells_edges hrepr hcanonical hlt

end KRover.SymbolListMap
