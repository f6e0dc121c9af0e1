import KRover.Proofs.GetExprValue
import KRover.Proofs.SymListRun

/-! # When `GetExpr` keeps the order of the bytes

The pieces of the range end up in the value from last to first. Each piece
keeps its own bytes together, so a byte stays where it is only when its piece
does, and the value is the little-endian one when no byte that moves lands on
a different one.

A range that starts at `-1` fails on its own: the key of `-1` is that of the
tail, so the search starts at the last cell and cuts it before its start.

* `getExpr_neg_one`: what happens there;
* `getExpr_littleEndian_iff`: the exact condition for all ranges;
* `getExpr_not_littleEndian`: one byte of a cell and one byte of the word.
-/

set_option autoImplicit false

namespace KRover

open Segments BvTerm Bytes SymbolListMap DoublyLinked

variable {ρ : Valuation}

/-- The expression of `GetExpr` has the little-endian value of the range. -/
def GetExprLittleEndian (ρ : Valuation) (m : SymbolListMap) (ps : List Nat) (addr : Int)
    (n : Nat) (v : BitVec 64) : Prop :=
  ∃ m' e, m.getExpr addr n v = some (m', e) ∧
    exprNat ρ e = some (8 * n,
      ∑ i ∈ Finset.range n, 256 ^ i * (sourceByte ρ (segs m ps) addr v i).toNat)

/-- Where position `i` of the piece from `s` to `t` goes when the pieces of a
range of `n` bytes are put in the opposite order. -/
def swapped (n : Nat) (s t : Int) (i : Nat) : Nat := (n - t + (i - s)).toNat

/-- Putting the pieces of the range in the opposite order leaves every byte as
it is. The pieces are the parts of the cells in the range and the single
bytes that no cell covers. -/
structure SameSwapped (ρ : Valuation) (L : List (Segment Expr)) (addr : Int) (n : Nat)
    (v : BitVec 64) : Prop where
  cell : ∀ x ∈ L, ∀ i < n, x.Covers (addr + i) →
    sourceByte ρ L addr v
        (swapped n (max addr x.addr - addr) (min (addr + n) x.stop - addr) i)
      = sourceByte ρ L addr v i
  gap : ∀ i < n, ¬ Covered L (addr + i) →
    sourceByte ρ L addr v (swapped n i (i + 1) i) = sourceByte ρ L addr v i

/-! ## The condition on a cell list of its own -/

section Relative

variable {v : BitVec 64} {n : Nat} {cells : List (Segment Expr)} (hs : Sorted cells)
  (hin : ∀ x ∈ cells, 0 ≤ x.addr ∧ x.stop ≤ n)

include hs hin

/-- The value of the expression is the little-endian one exactly when the
pieces spell the same in both orders. -/
theorem exprNat_exprOfCells_iff
    (hw : ∀ x ∈ cells, ∃ w, exprNat ρ x.val = some (8 * x.size, w)) {e : Expr}
    (he : exprOfCells v n cells = some e) :
    exprNat ρ e = some (8 * n,
        ∑ i ∈ Finset.range n, 256 ^ i * (sourceByte ρ cells 0 v i).toNat)
      ↔ spell (exprByte ρ) (exprPieces v n cells 0).reverse
          = spell (exprByte ρ) (exprPieces v n cells 0) := by
  have hval : exprNat ρ e = some (_, _) := exprIs_exprOfCells hs hin hw he
  have hspell : spell (exprByte ρ) (exprPieces v n cells 0) = _ := spell_exprPieces hs hin
  have hlen : (spell (exprByte ρ) (exprPieces v n cells 0)).length = n := by
    rw [hspell]
    simp
  have hrev : (spell (exprByte ρ) (exprPieces v n cells 0).reverse).length = n := by
    rw [length_spell_reverse, hlen]
  rw [hval, hrev, ← ofBytes_eq_sum, ← hspell]
  constructor
  · intro h
    exact ofBytes_inj (hrev.trans hlen.symm) (Prod.mk.inj (Option.some.inj h)).2
  · intro h
    rw [h]

/-- The two orders spell the same exactly when no byte that moves lands on a
different one. -/
theorem spell_reverse_eq_iff_sameSwapped :
    spell (exprByte ρ) (exprPieces v n cells 0).reverse
        = spell (exprByte ρ) (exprPieces v n cells 0)
      ↔ SameSwapped ρ cells 0 n v := by
  have htiles := @exprPieces_tiles v n cells 0 hs hin (Nat.zero_le _)
  have hspell : spell (exprByte ρ) (exprPieces v n cells 0) = _ := spell_exprPieces hs hin
  have hget : ∀ y ∈ exprPieces v n cells 0, ∀ k < y.size,
      (spell (exprByte ρ) (exprPieces v n cells 0))[(n - y.stop).toNat + k]?
        = some (sourceByte ρ cells 0 v ((n - y.stop).toNat + k)) := by
    intro y hy k hk
    have hstop : y.stop = y.addr + y.size := rfl
    have hyin := htiles.inside y hy
    have hlt : (n - y.stop).toNat + k < n := by omega
    rw [hspell]
    simp [hlt]
  rw [htiles.spell_reverse_eq_iff]
  constructor
  -- Every piece shows the bytes of its place, and the reversed order puts them at the mirrored one.
  · intro h
    have hmoved : ∀ y ∈ exprPieces v n cells 0, ∀ k < y.size,
        sourceByte ρ cells 0 v ((n - y.stop).toNat + k)
          = sourceByte ρ cells 0 v (y.addr.toNat + k) := by
      intro y hy k hk
      have heq := h y hy k hk
      rw [hget y hy k hk, exprByte_piece hs hin hy hk] at heq
      exact Option.some.inj heq
    constructor
    · intro x hx i hi hcov
      have hstop : x.stop = x.addr + x.size := rfl
      obtain ⟨h1, h2⟩ := hcov
      obtain ⟨hx0, hxn⟩ := hin x hx
      have hk := hmoved x (mem_exprPieces_of_mem hx) (i - x.addr.toNat) (by omega)
      have hto : swapped n (max 0 x.addr - 0) (min (0 + (n : Int)) x.stop - 0) i
          = (n - x.stop).toNat + (i - x.addr.toNat) := by
        unfold swapped
        omega
      rw [hto, hk]
      congr 1
      omega
    · intro i hi hcov
      rw [zero_add] at hcov
      have hk := hmoved _ (mem_exprPieces_of_not_covered (fun x hx => (hin x hx).1)
        ⟨Nat.zero_le i, hi⟩ hcov) 0 Nat.one_pos
      have hto : swapped n i (i + 1) i = (n - ((i : Int) + ((1 : Nat) : Int))).toNat + 0 := by
        unfold swapped
        omega
      rw [hto]
      exact hk
  · intro h y hy k hk
    have hstop : y.stop = y.addr + y.size := rfl
    rw [hget y hy k hk, exprByte_piece hs hin hy hk]
    congr 1
    -- A piece is a cell, or one byte of a gap.
    rcases eq_or_of_mem_exprPieces hs hin (Nat.zero_le _) hy with hmem | ⟨i, hi, hcov, rfl⟩
    · obtain ⟨hy0, hyn⟩ := hin y hmem
      have hto : swapped n (max 0 y.addr - 0) (min (0 + (n : Int)) y.stop - 0)
          (y.addr.toNat + k) = (n - y.stop).toNat + k := by
        unfold swapped
        omega
      rw [← h.cell y hmem (y.addr.toNat + k) (by omega) ⟨by omega, by omega⟩, hto]
    · have hk0 : k = 0 := by
        have hk1 : k < 1 := hk
        omega
      subst hk0
      have hto : swapped n i (i + 1) i = (n - ((i : Int) + ((1 : Nat) : Int))).toNat + 0 := by
        unfold swapped
        omega
      have hgap := h.gap i hi (by rw [zero_add]; exact hcov)
      rw [hto] at hgap
      exact hgap

end Relative

/-! ## The condition on the cells of the store -/

/-- The widths of cells carry over to their parts. -/
theorem exprNat_window {L : List (Segment Expr)} {hs te : Int} (hst : hs < te)
    (hw : ∀ x ∈ L, ∃ w, exprNat ρ x.val = some (8 * x.size, w)) :
    ∀ x ∈ window cutExpr hs te L, ∃ w, exprNat ρ x.val = some (8 * x.size, w) := by
  refine forall_mem_window cutExpr hst ?_ hw
  intro x _ ⟨w, hxw⟩ s t hlt hle
  exact ⟨_, exprNat_extractExpr hxw hlt hle⟩

/-- A part of a cell holds the bytes of the cell. -/
theorem cutLaw_exprByte {L : List (Segment Expr)}
    (hw : ∀ x ∈ L, ∃ w, exprNat ρ x.val = some (8 * x.size, w)) :
    CutLaw cutExpr (exprByte ρ) L := by
  intro x hx s t i ht hi
  obtain ⟨w, hxw⟩ := hw x hx
  have hcut := exprNat_extractExpr hxw (show s < t by omega) ht
  rw [exprByte, exprByte, hcut, hxw]
  exact byteOf_part hi

section Absolute

variable {L : List (Segment Expr)} {addr : Int} {n : Nat} {v : BitVec 64}

/-- The bytes of a range are those of its window. -/
theorem sourceByte_window
    (hw : ∀ x ∈ L, ∃ w, exprNat ρ x.val = some (8 * x.size, w)) {i : Nat} (hi : i < n) :
    sourceByte ρ ((window cutExpr addr (addr + n) L).map (Segment.shift addr)) 0 v i
      = sourceByte ρ L addr v i := by
  have hpos : (0 : Int) + i + addr = addr + i := by omega
  rw [sourceByte, sourceByte, lookup_shift, lookup_window (cutLaw_exprByte hw) (by omega), hpos,
    if_pos (by omega)]

/-- The condition on a range is the condition on its window. -/
theorem sameSwapped_window (hn : 0 < n) (hL : Sorted L)
    (hw : ∀ x ∈ L, ∃ w, exprNat ρ x.val = some (8 * x.size, w)) :
    SameSwapped ρ ((window cutExpr addr (addr + n) L).map (Segment.shift addr)) 0 n v
      ↔ SameSwapped ρ L addr n v := by
  have hlt : addr < addr + (n : Int) := by omega
  have hbyte := fun {i : Nat} (hi : i < n) => @sourceByte_window ρ L addr n v hw i hi
  have hcovered : ∀ i < n, Covered ((window cutExpr addr (addr + n) L).map
      (Segment.shift addr)) (0 + (i : Int)) ↔ Covered L (addr + i) := by
    intro i hi
    rw [covered_shift, covered_window cutExpr hlt, show (0 : Int) + i + addr = addr + i by omega]
    exact and_iff_right (by omega)
  constructor
  -- The part of a cell that lies in the range is swapped as the cell of the window is.
  · intro h
    constructor
    · intro x hx i hi hcov
      have hpos := hL.positive x hx
      have hcov1 := hcov.1
      have hcov2 := hcov.2
      have hstop : x.stop = x.addr + x.size := rfl
      -- the part of `x` in the range
      obtain ⟨y, hy⟩ := exists_mem_windowOne cutExpr hcov (show addr ≤ addr + i by omega)
        (show addr + (i : Int) < addr + n by omega)
      obtain ⟨h1, h2⟩ := windowOne_ends cutExpr hlt hpos hy
      have hmem : y.shift addr ∈ (window cutExpr addr (addr + n) L).map (Segment.shift addr) :=
        List.mem_map_of_mem (List.mem_flatMap.2 ⟨x, hx, hy⟩)
      have hcell := h.cell _ hmem i hi ⟨by simp; omega, by simp; omega⟩
      have hto : swapped n (max 0 (y.shift addr).addr - 0)
          (min (0 + (n : Int)) (y.shift addr).stop - 0) i
          = swapped n (max addr x.addr - addr) (min (addr + n) x.stop - addr) i := by
        rw [Segment.shift_addr, Segment.shift_stop, h1, h2]
        unfold swapped
        omega
      have hto' : swapped n (max addr x.addr - addr) (min (addr + n) x.stop - addr) i < n := by
        unfold swapped
        omega
      rw [hto, hbyte hto', hbyte hi] at hcell
      exact hcell
    · intro i hi hcov
      have hgap := h.gap i hi (fun hc => hcov ((hcovered i hi).1 hc))
      have hto : swapped n i (i + 1) i < n := by
        unfold swapped
        omega
      rw [hbyte hto, hbyte hi] at hgap
      exact hgap
  · intro h
    constructor
    · intro z hz i hi hcov
      obtain ⟨y, hy, rfl⟩ := List.mem_map.1 hz
      obtain ⟨x, hx, hyx⟩ := List.mem_flatMap.1 hy
      have hpos := hL.positive x hx
      have hstop : x.stop = x.addr + x.size := rfl
      obtain ⟨h1, h2⟩ := windowOne_ends cutExpr hlt hpos hyx
      obtain ⟨hcov1, hcov2⟩ := hcov
      rw [Segment.shift_addr] at hcov1
      rw [Segment.shift_stop] at hcov2
      have hcell := h.cell x hx i hi ⟨by omega, by omega⟩
      have hto : swapped n (max 0 (y.shift addr).addr - 0)
          (min (0 + (n : Int)) (y.shift addr).stop - 0) i
          = swapped n (max addr x.addr - addr) (min (addr + n) x.stop - addr) i := by
        rw [Segment.shift_addr, Segment.shift_stop, h1, h2]
        unfold swapped
        omega
      have hto' : swapped n (max addr x.addr - addr) (min (addr + n) x.stop - addr) i < n := by
        unfold swapped
        omega
      rw [hto, hbyte hto', hbyte hi]
      exact hcell
    · intro i hi hcov
      have hgap := h.gap i hi (fun hc => hcov ((hcovered i hi).2 hc))
      have hto : swapped n i (i + 1) i < n := by
        unfold swapped
        omega
      rw [hbyte hto, hbyte hi]
      exact hgap

end Absolute

/-! ## A range that starts at `-1` -/

/-- An extraction from before the start of its expression has no term. -/
theorem z3HandlingExprPtr_extract_neg (e : Expr) {s : Int} (hs : s < 0) (t : Int) :
    ∃ err, z3HandlingExprPtr (Expr.extractExpr e s t) = .error err := by
  rw [Expr.extractExpr, z3HandlingExprPtr]
  cases he : z3HandlingExprPtr e with
  | error err => exact ⟨err, rfl⟩
  | ok x =>
    refine ⟨.z3Exception, ?_⟩
    show z3HandleExtract x s t = _
    rw [z3HandleExtract, if_neg (by omega)]

/-- Nor has the expression of a list whose first cell, at offset 0, holds
one. -/
theorem exprNat_exprOfCells_neg {v : BitVec 64} {n : Nat} {x : Segment Expr} (hx : x.addr = 0)
    {err : Z3Error} (herr : z3HandlingExprPtr x.val = .error err) {e : Expr}
    (he : exprOfCells v n [x] = some e) : exprNat ρ e = none := by
  have hpieces : exprPieces v n [x] 0
      = x :: exprPieces v n [] (x.addr.toNat + x.size) := by
    show padBytes v 0 x.addr.toNat ++ x :: exprPieces v n [] (x.addr.toNat + x.size) = _
    rw [hx]
    rfl
  have hfail : z3HandlingExprPtr e = .error err := by
    rw [exprOfCells, hpieces] at he
    split at he
    · rw [← Option.some.inj he, Expr.combineMultiExpr, z3HandlingExprPtr, List.map_cons,
        z3HandlingExprPtrs, herr]
      rfl
    · rw [← Option.some.inj he]
      exact herr
  rw [exprNat, hfail]

section NegOne

variable {m : SymbolListMap} {l : List Nat} {A : Nat} {te : Int}

/-- The links at the end of the store. -/
theorem SymbolListMap.Repr.last_links (h : Repr m (l ++ [A])) :
    m.next A = some m.listtail ∧ m.prev m.listtail = some A ∧ m.next m.listtail = none := by
  have hzs : m.chainOf (l ++ [A]) = (m.listheader :: l) ++ A :: m.listtail :: [] := by
    simp [chainOf]
  have hzs' : m.chainOf (l ++ [A]) = (m.listheader :: (l ++ [A])) ++ m.listtail :: [] := by
    simp [chainOf]
  have hadj := (hzs ▸ h.chain.linked).adjacent
  exact ⟨hadj.1, hadj.2, (hzs' ▸ h.chain.linked).next_eq⟩

/-- The search from `-1` finds the tail in the index, so it starts at the last
cell; when that does not end in the range, it runs off the list. -/
theorem SymbolListMap.Repr.getAffectedCells_neg_one (h : Repr m (l ++ [A]))
    (hte : te < 2 ^ 59 - 1) :
    m.getAffectedCells (-1) te
      = if (m.seg A).stop ≤ te then some (A, m.listtail) else none := by
  obtain ⟨hnext, hprev, hend⟩ := h.last_links
  have hkey : addrToKey (-1) = addrToKey (2 ^ 59 - 1) := by decide
  have hidx : m.sm (addrToKey (-1)) = some m.listtail := by
    rw [h.indexed, hkey]
    exact Or.inr ⟨m.listtail, by simp, by rw [h.tail], rfl⟩
  have hlt : A < m.nextPtr := h.lt_nextPtr (by simp)
  have htail : te < (m.seg m.listtail).stop := by
    rw [h.tail, Segment.stop_mk]
    omega
  obtain ⟨k, hk⟩ := Nat.exists_eq_add_of_lt hlt
  have hstart : m.affectedStart (-1) = some (A, true) := by
    rw [affectedStart, hidx]
    simp [hprev]
  rw [getAffectedCells, hstart, hk]
  simp only [Option.bind_eq_bind, Option.bind_some, affectedLoop, if_true, seekBefore, hnext,
    htail, and_true, Bool.false_eq_true, if_false]
  split
  · rfl
  · -- the next turn reads the successor of the tail
    simp only [Option.bind_some, Bool.and_false, Bool.false_eq_true, if_false]
    cases A + k with
    | zero => rfl
    | succ k => simp [affectedLoop, seekBefore, hend]

/-- The list it then makes has one cell, cut from before its start. -/
theorem SymbolListMap.Repr.cellList_neg_one (h : Repr m (l ++ [A])) {n : Nat}
    (hte : (m.seg A).stop ≤ -1 + n) (hn : n ≤ 8) (h0 : 0 ≤ (m.seg A).addr) :
    ∃ m', m.cellList (-1) n = some (m', [(highPart (m.seg A) (-1)).shift (-1)]) := by
  have hfind : m.getAffectedCells (-1) (-1 + n) = _ :=
    h.getAffectedCells_neg_one (by omega)
  rw [if_pos hte] at hfind
  have hzs : m.chainOf (l ++ [A]) = (m.listheader :: l) ++ ([A, m.listtail] ++ []) := by
    simp [chainOf]
  obtain ⟨m₁, cs, A', B', hcreate, hchain, hsegs, hhead, hlast, -, -, -⟩ :=
    createSymbolList_spec (hzs ▸ h.chain) rfl (show _ = some m.listtail from rfl)
  -- the copies of the last cell and of the tail
  obtain rfl : cs = [A', B'] := by
    have hlen := congrArg List.length hsegs
    obtain ⟨a, b, rfl⟩ := List.length_eq_two.1 ((List.length_map _).symm.trans hlen)
    rw [show a = A' from Option.some.inj hhead, show b = B' from Option.some.inj hlast]
  have hsegA : m₁.seg A' = m.seg A := (List.cons.inj hsegs).1
  have hsegB : m₁.seg B' = m.seg m.listtail := (List.cons.inj (List.cons.inj hsegs).2).1
  obtain ⟨-, hnextA, -⟩ := hchain.linked
  have hnextA : m₁.next A' = some B' := hnextA
  have hAlt : A' < m₁.nextPtr := hchain.bound A' (by simp)
  have hBlt : B' < m₁.nextPtr := hchain.bound B' (by simp)
  have hAB : A' ≠ B' := by
    intro heq
    exact (List.nodup_cons.1 hchain.nodup).1 (by simp [heq])
  have hstop : (m.seg A).stop = (m.seg A).addr + (m.seg A).size := rfl
  -- The cell reaches over the start and the tail lies behind the end, so only the head is cut.
  have hsplit : m₁.splitHeadTail A' B' (-1) (-1 + n) true
      = (m₁.seplitCellHead A' (-1) true, B') := by
    have hB : ¬ ((m₁.seplitCellHead A' (-1) true).seg B').addr < -1 + n := by
      rw [seg_seplitCellHead hAlt]
      simp only [if_neg hAB.symm, if_neg (Nat.ne_of_lt hBlt), hsegB, h.tail]
      omega
    rw [splitHeadTail, if_neg hAB, if_pos (by rw [hsegA]; omega)]
    simp only [if_neg hB]
  -- the new cell is all that is left of them
  let p := m₁.nextPtr
  let m₂ := m₁.seplitCellHead A' (-1) true
  let m₃ := (m₂.setNext p none).setPrev p none
  have hpA : p ≠ A' := (Nat.ne_of_lt hAlt).symm
  have hnext₂ : m₂.next A' = some p := by
    simp only [m₂, next_seplitCellHead hAlt, if_true]
    rfl
  have hprev₂ : m₂.prev B' = some p := by
    simp only [m₂, prev_seplitCellHead hAlt, if_neg (Nat.ne_of_lt hBlt), hnextA, if_true]
    rfl
  have hseg₃ : m₃.seg p = highPart (m.seg A) (-1) := by
    simp only [m₃, m₂, seg_setPrev, seg_setNext, seg_seplitCellHead hAlt, if_neg hpA, hsegA]
    exact if_pos rfl
  have hptr₃ : m₃.nextPtr = m₁.nextPtr + 1 := by
    simp [m₃, m₂, nextPtr_seplitCellHead]
  have hlink₃ : Linked m₃.next m₃.prev none [p] none := by
    refine ⟨?_, ?_, trivial⟩
    · simp [m₃]
    · simp [m₃]
  obtain ⟨m₄, hrebase, hnext₄, hprev₄, hptr₄, -, -, -, hsegs₄⟩ :=
    rebase_spec (-1) [p] hlink₃ (List.nodup_singleton p)
      (show [p].length < m₃.nextPtr + 1 by simp; omega)
  have hread : m₄.readList (m₄.nextPtr + 1) [p].head? = segs m₄ [p] :=
    readList_spec [p] (by rw [hnext₄, hprev₄]; exact hlink₃) (by simp; omega)
  refine ⟨m₄, ?_⟩
  have hget : m.getCellList (-1) n = some (m₄, some p) := by
    have hnext₂' : (m₂.setNext p none).next A' = some p := by
      rw [next_setNext, Function.update_of_ne hpA.symm, hnext₂]
    rw [getCellList]
    simp only [hfind, Option.bind_eq_bind, Option.bind_some, hcreate, hsplit]
    show (m₂.prev B').bind _ = _
    rw [hprev₂, Option.bind_some]
    show ((m₂.setNext p none).next A').bind _ = _
    rw [hnext₂', Option.bind_some]
    show (rebase (-1) (m₃.nextPtr + 1) m₃ (some p)).bind _ = _
    rw [show rebase (-1) (m₃.nextPtr + 1) m₃ (some p) = some m₄ from hrebase]
    rfl
  rw [cellList]
  simp only [hget, Option.bind_eq_bind, Option.bind_some]
  rw [show m₄.readList (m₄.nextPtr + 1) (some p) = segs m₄ [p] from hread, hsegs₄]
  simp [segs, hseg₃]

end NegOne

/-- What is read from `-1` on, when anything is, comes from one cell that was cut
from before its start. -/
theorem SymbolListMap.Repr.getExpr_neg_one_eq {m m' : SymbolListMap} {ps : List Nat}
    (h : Repr m ps) {n : Nat} (hn : n ≤ 8)
    (hcov : ∃ b : Int, -1 ≤ b ∧ b < -1 + n ∧ Covered (segs m ps) b) {v : BitVec 64} {e : Expr}
    (hget : m.getExpr (-1) n v = some (m', e)) :
    ∃ (x : Segment Expr) (e₀ : Expr) (s t : Int), x.addr = 0 ∧ 0 < x.size ∧
      x.val = Expr.extractExpr e₀ s t ∧ s < 0 ∧ exprOfCells v n [x] = some e := by
  obtain ⟨b, hb1, hb2, x, hx, hxb1, hxb2⟩ := hcov
  obtain ⟨p, hp, rfl⟩ := List.mem_map.1 hx
  -- the covered byte is not `-1`, so the last cell starts at 0 or above
  have hcan := h.canonical p hp
  unfold Canonical at hcan
  obtain ⟨l, A, rfl⟩ : ∃ l A, ps = l ++ [A] := by
    rcases List.eq_nil_or_concat ps with rfl | ⟨l, A, hl⟩
    · simp at hp
    · exact ⟨l, A, by rw [hl, List.concat_eq_append]⟩
  have hle : (m.seg p).addr ≤ (m.seg A).addr := by
    have hord := h.ordered
    rw [chainOf, List.pairwise_cons] at hord
    have hord := (List.pairwise_append.1 hord.2).1
    rcases List.mem_append.1 hp with hp | hp
    · exact le_of_lt ((List.pairwise_append.1 hord).2.2 p hp A (by simp)).1
    · rw [List.mem_singleton.1 hp]
  have h0 : 0 ≤ (m.seg A).addr := by omega
  rw [getExpr] at hget
  by_cases hte : (m.seg A).stop ≤ -1 + n
  · obtain ⟨m₁, hcells⟩ := h.cellList_neg_one hte hn h0
    rw [hcells] at hget
    simp only [Option.bind_eq_bind, Option.bind_some] at hget
    obtain ⟨e', he', heq⟩ := Option.bind_eq_some_iff.1 hget
    have hee : e' = e := (Prod.mk.inj (Option.some.inj heq)).2
    have hsize : 0 < ((highPart (m.seg A) (-1)).shift (-1)).size := by
      show 0 < ((m.seg A).addr + (m.seg A).size - -1).toNat
      omega
    refine ⟨(highPart (m.seg A) (-1)).shift (-1), (m.seg A).val, -1 - (m.seg A).addr,
      (m.seg A).size, ?_, hsize, rfl, by omega, hee ▸ he'⟩
    show (-1 : Int) - -1 = 0
    omega
  · -- the search ran off the list
    have hfind : m.getAffectedCells (-1) (-1 + n) = _ :=
      h.getAffectedCells_neg_one (by omega)
    rw [if_neg hte] at hfind
    rw [cellList, getCellList, hfind] at hget
    exact absurd hget (by simp)

/-- A range that starts at `-1` and reaches a cell never gives its value. -/
theorem getExpr_neg_one {m : SymbolListMap} {ps : List Nat} (h : Repr m ps) {n : Nat}
    (hn : n ≤ 8) (hcov : ∃ b : Int, -1 ≤ b ∧ b < -1 + n ∧ Covered (segs m ps) b)
    (v : BitVec 64) : ¬ GetExprLittleEndian ρ m ps (-1) n v := by
  rintro ⟨m', e, hget, hval⟩
  obtain ⟨x, e₀, s, t, hx0, -, hx, hs, he⟩ := h.getExpr_neg_one_eq hn hcov hget
  obtain ⟨err, herr⟩ := z3HandlingExprPtr_extract_neg e₀ hs t
  rw [exprNat_exprOfCells_neg hx0 (by rw [hx, herr]) he] at hval
  exact absurd hval (by simp)

/-! ## The exact condition -/

/-- The expression `GetExpr` returns has the little-endian value of the range exactly when
the range does not start at `-1` and putting its pieces in the opposite order leaves every
byte as it is. The pieces are handed over with the lowest first, and the translation puts
the first one highest. So the value is that of the pieces in the opposite order, each with
its own bytes kept. -/
theorem getExpr_littleEndian_iff {m : SymbolListMap} {ps : List Nat} (h : Repr m ps)
    (hw : ∀ x ∈ segs m ps, ∃ w, exprNat ρ x.val = some (8 * x.size, w)) {addr : Int} {n : Nat}
    (hn : 1 ≤ n ∧ n ≤ 8)
    (hcov : ∃ b, addr ≤ b ∧ b < addr + n ∧ Covered (segs m ps) b) (v : BitVec 64) :
    GetExprLittleEndian ρ m ps addr n v
      ↔ addr ≠ -1 ∧ SameSwapped ρ (segs m ps) addr n v := by
  by_cases hneg : addr = -1
  · subst hneg
    have hno : ¬ GetExprLittleEndian ρ m ps (-1) n v := getExpr_neg_one h hn.2 hcov v
    simp [hno]
  · -- a cell in the range is canonical, so the range can be searched
    have hsearch : Searchable addr (addr + n) := by
      obtain ⟨b, hb1, hb2, x, hx, hxb1, hxb2⟩ := hcov
      obtain ⟨p, hp, rfl⟩ := List.mem_map.1 hx
      have hcan := h.canonical p hp
      unfold Canonical at hcan
      unfold Searchable
      omega
    obtain ⟨m', e, hget, he, -, -⟩ := h.getExpr_spec v hsearch hcov
    have hlt : addr < addr + (n : Int) := by omega
    let cells := (window cutExpr addr (addr + n) (segs m ps)).map (Segment.shift addr)
    have hsort : Sorted cells := (h.sorted.window cutExpr hlt).shift addr
    have hin : ∀ x ∈ cells, 0 ≤ x.addr ∧ x.stop ≤ n := by
      intro x hx
      obtain ⟨y, hy, rfl⟩ := List.mem_map.1 hx
      have hyin := inside_of_mem_window cutExpr h.sorted hlt hy
      rw [Segment.shift_addr, Segment.shift_stop]
      omega
    have hwin : ∀ x ∈ cells, ∃ w, exprNat ρ x.val = some (8 * x.size, w) := by
      intro x hx
      obtain ⟨y, hy, rfl⟩ := List.mem_map.1 hx
      exact exprNat_window hlt hw y hy
    have hsum : ∑ i ∈ Finset.range n, 256 ^ i * (sourceByte ρ cells 0 v i).toNat
        = ∑ i ∈ Finset.range n, 256 ^ i * (sourceByte ρ (segs m ps) addr v i).toNat := by
      refine Finset.sum_congr rfl fun i hi => ?_
      rw [sourceByte_window hw (Finset.mem_range.1 hi)]
    -- The condition about the window is the one about the store.
    have hcond : SameSwapped ρ cells 0 n v ↔ SameSwapped ρ (segs m ps) addr n v :=
      sameSwapped_window hn.1 h.sorted hw
    have hiff := exprNat_exprOfCells_iff hsort hin hwin he
    rw [spell_reverse_eq_iff_sameSwapped hsort hin, hcond, hsum] at hiff
    calc GetExprLittleEndian ρ m ps addr n v
        ↔ exprNat ρ e = some (8 * n,
            ∑ i ∈ Finset.range n, 256 ^ i * (sourceByte ρ (segs m ps) addr v i).toNat) := by
          constructor
          · rintro ⟨m₁, e₁, hget₁, hval⟩
            rw [hget] at hget₁
            rw [(Prod.mk.inj (Option.some.inj hget₁)).2]
            exact hval
          · intro hval
            exact ⟨m', e, hget, hval⟩
      _ ↔ SameSwapped ρ (segs m ps) addr n v := hiff
      _ ↔ addr ≠ -1 ∧ SameSwapped ρ (segs m ps) addr n v := (and_iff_right hneg).symm

/-- A store that holds a given list of cells. -/
theorem SymbolListMap.exists_store {src : List (Segment Expr)} (hne : src ≠ []) (hsort : Sorted src)
    (hc : Canonical (start src) (finish src)) : ∃ m ps, Repr m ps ∧ segs m ps = src := by
  obtain ⟨m, ps, -, hrepr, hsegs⟩ := repr_new.mergeList_spec hne hsort hc
  refine ⟨m, ps, hrepr, ?_⟩
  rw [hsegs]
  show [] ++ (src ++ []) = src
  simp

/-- A cell of `size` bytes at `0x1000` that holds a declared object. -/
def objectCell (size : Nat) : Segment Expr :=
  ⟨0x1000, size, Expr.udefExpr (some ⟨0, "x", 0x1000, size, false, true, 0⟩)⟩

/-- Some store has the one cell of an object. -/
theorem exists_objectCell_store {size : Nat} (h : 0 < size) (h' : size ≤ 8) :
    ∃ m ps, Repr m ps ∧ segs m ps = [objectCell size] := by
  have hsort : Sorted [objectCell size] := sorted_cons.2 ⟨h, Sorted.nil, by simp⟩
  have hc : Canonical (start [objectCell size]) (finish [objectCell size]) := by
    show Canonical 0x1000 (0x1000 + size)
    unfold Canonical
    omega
  exact SymbolListMap.exists_store (by simp) hsort hc

/-- Two objects of two bytes with a gap of four bytes between them. -/
def symmetricCells : List (Segment Expr) :=
  [⟨0x1000, 2, Expr.udefExpr (some ⟨0, "x", 0x1000, 2, false, true, 0⟩)⟩,
    ⟨0x1006, 2, Expr.udefExpr (some ⟨1, "y", 0x1006, 2, false, true, 0⟩)⟩]

/-- A range over both objects and the gap, of which the six pieces are the same in the opposite
order: the objects have one value, and so have the two outer bytes and the two inner bytes of
the gap. -/
theorem getExpr_littleEndian_symmetric : ∃ m ps, segs m ps = symmetricCells ∧
    GetExprLittleEndian (fun _ w => BitVec.ofNat w 0x201) m ps 0x1000 8 0x30202030000 := by
  have hsort : Sorted symmetricCells :=
    sorted_cons.2 ⟨by decide, sorted_cons.2 ⟨by decide, Sorted.nil, by simp⟩, by decide⟩
  obtain ⟨m, ps, hrepr, hsegs⟩ :=
    SymbolListMap.exists_store (by decide) hsort (Or.inr (by decide))
  let byte := sourceByte (fun _ w => BitVec.ofNat w 0x201) symmetricCells 0x1000 0x30202030000
  have hcell : ∀ x ∈ symmetricCells, ∀ i < 8, (x.addr ≤ 0x1000 + (i : Nat) ∧ 0x1000 + i < x.stop) →
      byte (swapped 8 (max 0x1000 x.addr - 0x1000) (min (0x1000 + 8) x.stop - 0x1000) i)
        = byte i := by
    decide +kernel
  have hgap : ∀ i < 8,
      (∃ x ∈ symmetricCells, x.addr ≤ 0x1000 + (i : Nat) ∧ 0x1000 + i < x.stop) ∨
        byte (swapped 8 i (i + 1) i) = byte i := by
    decide +kernel
  refine ⟨m, ps, hsegs, (getExpr_littleEndian_iff hrepr ?_ (by decide) ?_ _).2 ⟨by decide, ?_⟩⟩
  · rw [hsegs]
    intro x hx
    have hmem : x = symmetricCells[0] ∨ x = symmetricCells[1] := by
      simpa [symmetricCells] using hx
    rcases hmem with rfl | rfl <;> exact ⟨_, rfl⟩
  · rw [hsegs]
    exact ⟨0x1000, by decide, by decide,
      (covered_cons _ _ _).2 (Or.inl ⟨by decide, by decide⟩)⟩
  · rw [hsegs]
    exact ⟨hcell, fun i hi hno => (hgap i hi).resolve_left hno⟩

/-- One byte of an object with value 1 and one byte of the word with value 2 make `0x102`,
where `0x201` is stored. The two pieces come out in the opposite order. -/
theorem getExpr_not_littleEndian : ∃ m ps, Repr m ps ∧ segs m ps = [objectCell 1] ∧
    exprNat (fun _ _ => 1) (objectCell 1).val = some (8 * 1, 1) ∧
    ¬ GetExprLittleEndian (fun _ _ => 1) m ps 0x1000 2 0x200 := by
  obtain ⟨m, ps, hrepr, hsegs⟩ := exists_objectCell_store (show 0 < 1 by decide) (by decide)
  refine ⟨m, ps, hrepr, hsegs, rfl, ?_⟩
  rintro ⟨m₁, e₁, hget₁, hval⟩
  have hcov : ∃ b, (0x1000 : Int) ≤ b ∧ b < 0x1000 + (2 : Nat) ∧ Covered (segs m ps) b := by
    rw [hsegs]
    exact ⟨0x1000, by decide, by decide, (covered_cons _ _ _).2 (Or.inl ⟨by decide, by decide⟩)⟩
  obtain ⟨m', e, hget, he, -⟩ := hrepr.getExpr_spec 0x200
    (show Searchable 0x1000 (0x1000 + (2 : Nat)) from ⟨by decide, by decide, by decide⟩)
    hcov
  rw [hget] at hget₁
  rw [← (Prod.mk.inj (Option.some.inj hget₁)).2] at hval
  -- the cell comes first, so it is put highest
  have hcells : some (Expr.combineMultiExpr [(objectCell 1).val, constByte 0x200 1] [0, 1]
      [1, 1] 2) = some e := by
    rw [← he, hsegs]
    rfl
  rw [hsegs, ← Option.some.inj hcells] at hval
  have hnum := (Prod.mk.inj (Option.some.inj hval)).2
  exact absurd hnum (by decide)

end KRover
