import KRover.Proofs.SymListRun

/-! # The symbol list as a partial map

Read byte by byte, with the extractions that the splits put around an
expression undone, a symbol list is a partial map from addresses to bytes of
expressions. A cut piece reads as the cell it was cut from (`cutLaw_resolve`),
so the splits do not show.

* `merge_remove_byteMap`: `Merge` and `Remove` are updates of the map;
* `getCellList_byteMap`: `GetCellList` is its restriction to a range, and
  leaves the store as it is.
-/

set_option autoImplicit false

namespace KRover.SymbolListMap

open Segments

/-- The byte of an expression that the store holds for address `b`. -/
def byteMap (m : SymbolListMap) (b : Int) : Option (Expr × Nat) :=
  lookup Expr.resolve (m.segs m.liveCells) b

/-- A cut piece reads as the cell it was cut from. -/
theorem cutLaw_resolve (L : List (Segment Expr)) : CutLaw cutExpr Expr.resolve L := by
  intro x _ s t i _ _
  exact Expr.resolve_extractExpr x.val s t i

/-- The map of a store looks a byte up in its cells. -/
theorem byteMap_eq {m : SymbolListMap} {ps : List Nat} (h : Repr m ps) (b : Int) :
    m.byteMap b = lookup Expr.resolve (m.segs ps) b := by
  rw [byteMap, h.liveCells_eq]

/-- `Merge` replaces the map from the first to the last cell of the source list, its gaps
included, by the source list, and `Remove` takes a range out of it; outside the map stays as
it is. The map is the view of the store as a partial function from addresses to bytes of
expressions. Every write of a shadow is one of these two calls. -/
theorem merge_remove_byteMap {m : SymbolListMap} (h : Repr m m.liveCells) :
    (∀ src : List (Segment Expr), src ≠ [] → Sorted src → Canonical (start src) (finish src) →
      ∃ m', m.mergeList src = some m' ∧ Repr m' m'.liveCells ∧
        ∀ b, m'.byteMap b = if start src ≤ b ∧ b < finish src then lookup Expr.resolve src b
          else m.byteMap b) ∧
    (∀ (addr : Int) (size : Nat), GoodRange addr size →
      ∃ m', m.remove addr size = some m' ∧ Repr m' m'.liveCells ∧
        ∀ b, m'.byteMap b = if addr ≤ b ∧ b < addr + size then none else m.byteMap b) := by
  constructor
  · intro src hne hsort hc
    obtain ⟨m', ps', hm', hrepr, hsegs⟩ := h.mergeList_spec hne hsort hc
    have hlt := hsort.start_lt_finish hne
    refine ⟨m', hm', by rw [hrepr.liveCells_eq]; exact hrepr, fun b => ?_⟩
    rw [byteMap_eq hrepr, hsegs, lookup_splice (cutLaw_resolve _) (le_of_lt hlt) hsort.within]
    rfl
  · intro addr size hrange
    obtain ⟨m', ps', hm', hrepr, hsegs⟩ := h.remove_spec hrange.searchable hrange.1
    refine ⟨m', hm', by rw [hrepr.liveCells_eq]; exact hrepr, fun b => ?_⟩
    rw [byteMap_eq hrepr, hsegs, lookup_splice (cutLaw_resolve _) (by omega) (by simp)]
    rfl

/-- Two cells with a gap between them. -/
def gappedCells : List (Segment Expr) :=
  [⟨0x1004, 2, Expr.constExpr 4 2⟩, ⟨0x100a, 1, Expr.constExpr 5 1⟩]

/-- Cells with a gap are merged over the border of two cells, and a range inside the third
cell is taken out. The gap is uncovered, and what lies outside reads as before. -/
theorem merge_remove_byteMap_three : ∃ m m₁ m₂ : SymbolListMap,
    m.segs m.liveCells = threeCells ∧ m.mergeList gappedCells = some m₁ ∧
    m₁.remove 0x1012 4 = some m₂ ∧
    -- the merge
    m₁.byteMap 0x1002 = some (Expr.constExpr 1 8, 2) ∧
    m₁.byteMap 0x1005 = some (Expr.constExpr 4 2, 1) ∧ m₁.byteMap 0x1008 = none ∧
    m₁.byteMap 0x100b = some (Expr.constExpr 2 4, 3) ∧
    -- the removal
    m₂.byteMap 0x1005 = some (Expr.constExpr 4 2, 1) ∧
    m₂.byteMap 0x1011 = some (Expr.constExpr 3 8, 1) ∧ m₂.byteMap 0x1013 = none ∧
    m₂.byteMap 0x1016 = some (Expr.constExpr 3 8, 6) := by
  obtain ⟨m, -, hrepr, hsegs⟩ := exists_threeCells
  have hsort : Sorted gappedCells :=
    sorted_cons.2 ⟨by decide, sorted_cons.2 ⟨by decide, Sorted.nil, by simp⟩, by decide⟩
  obtain ⟨m₁, hm₁, hrepr₁, hmap₁⟩ :=
    (merge_remove_byteMap hrepr).1 gappedCells (by decide) hsort (Or.inr (by decide))
  obtain ⟨m₂, hm₂, -, hmap₂⟩ :=
    (merge_remove_byteMap hrepr₁).2 0x1012 4 ⟨by decide, Or.inr (by decide)⟩
  have hread : ∀ b, m.byteMap b = lookup Expr.resolve threeCells b := by
    intro b
    rw [byteMap, hsegs]
  -- every byte is one of the two formulas, evaluated
  refine ⟨m, m₁, m₂, hsegs, hm₁, hm₂, ?_, ?_, ?_, ?_, ?_, ?_, ?_, ?_⟩ <;>
    (simp only [hmap₁, hmap₂, hread]; rfl)

/-- A cell with its links, range and expression. -/
theorem cells_eq {m m' : SymbolListMap} {p : Nat} (hn : m'.next p = m.next p)
    (hp : m'.prev p = m.prev p) (hs : m'.seg p = m.seg p) : m'.cells p = m.cells p := by
  have hn : (m'.cells p).next = (m.cells p).next := hn
  have hp : (m'.cells p).prev = (m.cells p).prev := hp
  obtain ⟨ha, hz, hv⟩ := Segment.mk.inj hs
  cases h : m'.cells p
  cases h' : m.cells p
  rw [h, h'] at hn hp ha hz hv
  simp only at hn hp ha hz hv
  rw [hn, hp, ha, hz, hv]

/-- `GetCellList` returns the covered bytes of the range, at addresses relative to it and
with the bytes they have in the store, and leaves every cell of the store and the index as
they are. The call works on copies that it cuts and moves. -/
theorem getCellList_byteMap {m : SymbolListMap} (h : Repr m m.liveCells) {addr : Int}
    {size : Nat} (hrange : GoodRange addr size)
    (hcov : ∃ b, addr ≤ b ∧ b < addr + size ∧ Covered (m.segs m.liveCells) b) :
    ∃ m' cells, m.cellList addr size = some (m', cells) ∧ Sorted cells ∧
      (∀ b, Covered cells b
        ↔ (0 ≤ b ∧ b < size) ∧ Covered (m.segs m.liveCells) (addr + b)) ∧
      (∀ b, lookup Expr.resolve cells b
        = if 0 ≤ b ∧ b < size then m.byteMap (addr + b) else none) ∧
      m'.liveCells = m.liveCells ∧ m'.listheader = m.listheader ∧ m'.listtail = m.listtail ∧
      (∀ p ∈ m.listheader :: (m.liveCells ++ [m.listtail]), m'.cells p = m.cells p) ∧
      m'.sm = m.sm := by
  have hpos := hrange.1
  have hlt : addr < addr + (size : Int) := by omega
  obtain ⟨m', hm', hrepr, -, hframe, hsm⟩ := h.cellList_spec hrange.searchable hcov
  obtain ⟨hhead, htail⟩ := Prod.mk.inj hframe.ends
  refine ⟨m', _, hm', (h.sorted.window cutExpr hlt).shift addr, fun b => ?_, fun b => ?_,
    hrepr.liveCells_eq, hhead, htail, fun p hp => ?_, hsm⟩
  · rw [covered_shift, covered_window cutExpr hlt, add_comm b addr]
    refine and_congr_left fun _ => ?_
    omega
  · rw [lookup_shift, lookup_window (cutLaw_resolve _) hlt, add_comm b addr]
    have hiff : addr ≤ addr + b ∧ addr + b < addr + size ↔ 0 ≤ b ∧ b < (size : Int) := by omega
    simp only [hiff]
    rfl
  · -- the copies are new cells, so those of the store are left alone
    have hbound : p < m.nextPtr := h.chain.bound p hp
    exact cells_eq (hframe.next p hbound (by simp)) (hframe.prev p hbound (by simp))
      (hframe.seg p hbound (by simp))

/-- A read of the middle of a cell. -/
theorem getCellList_byteMap_middle : ∃ (m m' : SymbolListMap) (cells : List (Segment Expr)),
    m.segs m.liveCells = [⟨0x1000, 8, Expr.constExpr 0 8⟩] ∧
      m.cellList 0x1002 4 = some (m', cells) ∧
      lookup Expr.resolve cells 1 = some (Expr.constExpr 0 8, 3) ∧ m'.sm = m.sm := by
  have hsort : Sorted [(⟨0x1000, 8, Expr.constExpr 0 8⟩ : Segment Expr)] :=
    sorted_cons.2 ⟨by decide, Sorted.nil, by simp⟩
  obtain ⟨m, ps, -, hrepr, hsegs⟩ := repr_new.mergeList_spec (by simp) hsort (Or.inr (by decide))
  have hcells : m.segs m.liveCells = [⟨0x1000, 8, Expr.constExpr 0 8⟩] := by
    rw [hrepr.liveCells_eq, hsegs]
    rfl
  have hlive : Repr m m.liveCells := by
    rw [hrepr.liveCells_eq]
    exact hrepr
  have hcov : ∃ b, (0x1002 : Int) ≤ b ∧ b < 0x1002 + (4 : Nat) ∧
      Covered (m.segs m.liveCells) b := by
    rw [hcells]
    exact ⟨0x1002, by decide, by decide, (covered_cons _ _ _).2 (Or.inl ⟨by decide, by decide⟩)⟩
  obtain ⟨m', cells, hm', -, -, hread, -, -, -, -, hsm⟩ :=
    getCellList_byteMap hlive ⟨by decide, Or.inr (by decide)⟩ hcov
  refine ⟨m, m', cells, hcells, hm', ?_, hsm⟩
  rw [hread, if_pos (by decide), byteMap, hcells]
  rfl

end KRover.SymbolListMap
