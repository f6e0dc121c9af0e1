import KRover.Proofs.GetExprOrder
import KRover.Proofs.SymListMap

/-! # The pieces of a range

What `GetExpr` makes of a range that is covered in part: a combination whose
pieces follow each other without a gap, a literal for each byte that no cell
covers (`getExpr_tiles_iff`). The store is left as it was. The one range that
is read wrongly is that from the last address on, which the index takes for the
tail of the list.
-/

set_option autoImplicit false

namespace KRover

open Segments Bytes SymbolListMap

/-- Each piece of a combination starts where the one before it ends, the first
at 0 and the last ending at `n`. -/
structure PiecesTile (es : List Expr) (offsets sizes : List Nat) (n : Nat) : Prop where
  atLeastTwo : 2 ≤ es.length
  lengths : offsets.length = es.length ∧ sizes.length = es.length
  first : offsets[0]? = some 0
  next : ∀ i o k, i + 1 < es.length → offsets[i]? = some o → sizes[i]? = some k →
    offsets[i + 1]? = some (o + k)
  total : sizes.sum = n

/-- One of the pieces of a combination. -/
def IsPiece (es : List Expr) (offsets sizes : List Nat) (e : Expr) (o k : Nat) : Prop :=
  ∃ j : Nat, es[j]? = some e ∧ offsets[j]? = some o ∧ sizes[j]? = some k

/-- The expressions of a range over the cells `L` and the word `v`: one that is
all of it, or a combination. Every covered byte is that of its cell, extractions
undone. -/
inductive RangeExpr (L : List (Segment Expr)) (addr : Int) (n : Nat) (v : BitVec 64) :
    Expr → Prop where
  | whole (e : Expr)
      (hbyte : ∀ i < n, lookup Expr.resolve L (addr + i) = some (e.resolve i))
      (hvalue : ∀ ρ, exprNat ρ e
        = some (8 * n, ofBytes ((List.range n).map (sourceByte ρ L addr v)))) :
      RangeExpr L addr n v e
  | pieces (es : List Expr) (offsets sizes : List Nat) (htile : PiecesTile es offsets sizes n)
      (hgap : ∀ i < n, ¬ Covered L (addr + i) → ∃ c : BitVec 64,
        c = (byteOf v.toNat i).setWidth 64 ∧ IsPiece es offsets sizes (Expr.constExpr c 1) i 1)
      (hcell : ∀ i < n, Covered L (addr + i) → ∃ e o k, IsPiece es offsets sizes e o k ∧
        (o ≤ i ∧ i < o + k) ∧ lookup Expr.resolve L (addr + i) = some (e.resolve (i - o)) ∧
        ∀ ρ, ∃ w, exprNat ρ e = some (8 * k, w)) :
      RangeExpr L addr n v (.combineMulti es offsets sizes n)

/-- Every cell of a store, its links and the index are as they were. -/
structure StoreKept (m m' : SymbolListMap) : Prop where
  liveCells : m'.liveCells = m.liveCells
  ends : m'.listheader = m.listheader ∧ m'.listtail = m.listtail
  cells : ∀ p ∈ m.listheader :: (m.liveCells ++ [m.listtail]), m'.cells p = m.cells p
  sm : m'.sm = m.sm

/-- `GetExpr` returns an expression of the range and keeps the store. -/
def GetExprTiles (m : SymbolListMap) (addr : Int) (n : Nat) (v : BitVec 64) : Prop :=
  ∃ m' e, m.getExpr addr n v = some (m', e) ∧ RangeExpr (m.segs m.liveCells) addr n v e ∧
    StoreKept m m'

/-! ## A list of pieces -/

section Pieces

variable {L : List (Segment Expr)}

/-- The combination of a tiling by two pieces or more. -/
theorem piecesTile_of_tiles {k : Nat} (h : Tiles 0 k L) (hlen : 1 < L.length) :
    PiecesTile (L.map (·.val)) (L.map (·.addr.toNat)) (L.map (·.size)) k where
  atLeastTwo := by
    rw [List.length_map]
    exact hlen
  lengths := by simp
  first := by
    cases L with
    | nil => simp at hlen
    | cons x xs =>
      have hx : x.addr = 0 := h.1
      simp [hx]
  -- Each piece begins where the one before it stops.
  next := by
    intro i o s hi ho hs
    rw [List.length_map] at hi
    have hx : L[i]? = some L[i] := List.getElem?_eq_getElem (by omega)
    have hy : L[i + 1]? = some L[i + 1] := List.getElem?_eq_getElem hi
    have hstep := h.addr_succ hx hy
    have hpos := (h.inside L[i] (List.getElem_mem _)).1
    have hstop : L[i].stop = L[i].addr + L[i].size := rfl
    rw [List.getElem?_map, hx] at ho hs
    obtain rfl : L[i].addr.toNat = o := Option.some.inj ho
    obtain rfl : L[i].size = s := Option.some.inj hs
    rw [List.getElem?_map, hy]
    have hnext : L[i + 1].addr.toNat = L[i].addr.toNat + L[i].size := by omega
    exact congrArg some hnext
  total := by
    have hsum : (((L.map fun x => x.size).sum : Nat) : Int) = k - 0 := h.sum_sizes
    omega

/-- A member of a list is a piece of its combination. -/
theorem isPiece_of_mem {x : Segment Expr} (hx : x ∈ L) :
    IsPiece (L.map (·.val)) (L.map (·.addr.toNat)) (L.map (·.size)) x.val x.addr.toNat x.size := by
  obtain ⟨j, hj⟩ := List.mem_iff_getElem?.1 hx
  refine ⟨j, ?_, ?_, ?_⟩ <;> rw [List.getElem?_map, hj] <;> rfl

/-- And a piece of the combination is a member. -/
theorem exists_mem_of_isPiece {e : Expr} {o k : Nat}
    (h : IsPiece (L.map (·.val)) (L.map (·.addr.toNat)) (L.map (·.size)) e o k) :
    ∃ x ∈ L, x.val = e ∧ x.addr.toNat = o ∧ x.size = k := by
  obtain ⟨j, he, ho, hk⟩ := h
  rw [List.getElem?_map] at he ho hk
  cases hx : L[j]? with
  | none =>
    rw [hx] at he
    exact absurd he (by simp)
  | some x =>
    rw [hx] at he ho hk
    exact ⟨x, List.mem_of_getElem? hx, Option.some.inj he, Option.some.inj ho,
      Option.some.inj hk⟩

end Pieces

/-! ## The expression of a cell list -/

section Relative

variable {v : BitVec 64} {n : Nat} {cells : List (Segment Expr)} (hs : Sorted cells)
  (hin : ∀ x ∈ cells, 0 ≤ x.addr ∧ x.stop ≤ n)

include hs hin

/-- The expression of the cells of a range, at addresses relative to it. -/
theorem rangeExpr_exprOfCells
    (hw : ∀ ρ, ∀ x ∈ cells, ∃ w, exprNat ρ x.val = some (8 * x.size, w)) {e : Expr}
    (he : exprOfCells v n cells = some e) : RangeExpr cells 0 n v e := by
  have htiles := @exprPieces_tiles v n cells 0 hs hin (Nat.zero_le _)
  -- More than one piece is combined; a single one is handed out as it stands.
  by_cases hlen : (exprPieces v n cells 0).length > 1
  · rw [exprOfCells, if_pos hlen] at he
    obtain rfl := Option.some.inj he
    refine .pieces _ _ _ (piecesTile_of_tiles htiles hlen) (fun i hi hgap => ?_) fun i hi hc => ?_
    · rw [zero_add] at hgap
      -- A byte that no cell covers is a literal of its own.
      have hmem : ⟨i, 1, constByte v i⟩ ∈ exprPieces v n cells 0 :=
        mem_exprPieces_of_not_covered (fun x hx => (hin x hx).1) ⟨Nat.zero_le _, hi⟩ hgap
      have hpiece := isPiece_of_mem hmem
      rw [constByte_eq] at hpiece
      exact ⟨_, rfl, hpiece⟩
    · rw [zero_add] at hc ⊢
      obtain ⟨x, hx, hxc⟩ := hc
      -- A byte of a cell is in the piece of that cell.
      have hxin := hin x hx
      have hxb : x.addr ≤ i ∧ (i : Int) < x.addr + x.size := hxc
      have hsub : ((i : Int) - x.addr).toNat = i - x.addr.toNat := by omega
      refine ⟨x.val, x.addr.toNat, x.size, isPiece_of_mem (mem_exprPieces_of_mem hx), by omega,
        ?_, fun ρ => hw ρ x hx⟩
      rw [lookup_of_mem Expr.resolve hs hx hxc, hsub]
  · have hne : cells ≠ [] := by
      rintro rfl
      rw [exprOfCells, if_neg hlen] at he
      exact absurd he (by simp)
    -- one cell is all there is
    obtain ⟨x, rfl, hone, hx0, hxn⟩ := exists_singleton hs hin hne hlen
    have hval : ∀ ρ, ExprIs ρ e _ := fun ρ => exprIs_exprOfCells hs hin (hw ρ) he
    have hspell : ∀ ρ, spell (exprByte ρ) (exprPieces v n [x] 0) = _ :=
      fun ρ => spell_exprPieces hs hin
    rw [exprOfCells, if_neg hlen] at he
    obtain rfl : x.val = e := Option.some.inj he
    refine .whole _ (fun i hi => ?_) fun ρ => ?_
    · have hcov : x.Covers (0 + i) := by
        have h1 : x.addr ≤ 0 + i := by omega
        have h2 : (0 : Int) + i < x.addr + x.size := by omega
        exact ⟨h1, h2⟩
      have hidx : ((0 : Int) + i - x.addr).toNat = i := by omega
      rw [lookup_of_mem Expr.resolve hs (List.mem_singleton_self x) hcov, hidx]
    · have hv := hval ρ
      have hp := hspell ρ
      rw [hone] at hv hp
      rw [List.reverse_singleton, hp] at hv
      rw [hv, List.length_map, List.length_range]

end Relative

/-! ## The expression of a range -/

section Absolute

variable {L : List (Segment Expr)} {addr : Int} {n : Nat} {v : BitVec 64}

/-- An expression of the window of a range is one of the range. -/
theorem RangeExpr.of_window (hn : 0 < n)
    (hw : ∀ ρ, ∀ x ∈ L, ∃ w, exprNat ρ x.val = some (8 * x.size, w)) {e : Expr}
    (h : RangeExpr ((window cutExpr addr (addr + n) L).map (Segment.shift addr)) 0 n v e) :
    RangeExpr L addr n v e := by
  have hlt : addr < addr + (n : Int) := by omega
  -- The window shows each byte of the range as the list does.
  have hlook : ∀ i < n,
      lookup Expr.resolve ((window cutExpr addr (addr + n) L).map (Segment.shift addr)) (0 + i)
        = lookup Expr.resolve L (addr + i) := by
    intro i hi
    rw [lookup_shift, lookup_window (cutLaw_resolve _) hlt, if_pos (by omega), zero_add,
      add_comm]
  have hcov : ∀ i < n,
      (Covered ((window cutExpr addr (addr + n) L).map (Segment.shift addr)) (0 + i)
        ↔ Covered L (addr + i)) := by
    intro i hi
    rw [← lookup_isSome Expr.resolve, hlook i hi, lookup_isSome]
  cases h with
  | whole e hbyte hvalue =>
    refine .whole _ (fun i hi => (hlook i hi).symm.trans (hbyte i hi)) fun ρ => ?_
    rw [hvalue ρ]
    have hmap : (List.range n).map
          (sourceByte ρ ((window cutExpr addr (addr + n) L).map (Segment.shift addr)) 0 v)
        = (List.range n).map (sourceByte ρ L addr v) :=
      List.map_congr_left fun i hi => sourceByte_window (hw ρ) (List.mem_range.1 hi)
    rw [hmap]
  | pieces es offsets sizes htile hgap hcell =>
    refine .pieces _ _ _ htile (fun i hi hc => hgap i hi ((hcov i hi).not.2 hc)) fun i hi hc => ?_
    have hres := hcell i hi ((hcov i hi).2 hc)
    rwa [hlook i hi] at hres

end Absolute

/-- A range with a covered byte, other than that from `-1` on, can be
searched. -/
theorem SymbolListMap.Repr.searchable_of_covered {m : SymbolListMap} {ps : List Nat}
    (h : Repr m ps) {addr : Int} {n : Nat} (hn : n ≤ 8) (hneg : addr ≠ -1)
    (hcov : ∃ b, addr ≤ b ∧ b < addr + n ∧ Covered (segs m ps) b) :
    Searchable addr (addr + n) := by
  obtain ⟨b, hb1, hb2, x, hx, hxb1, hxb2⟩ := hcov
  obtain ⟨p, hp, rfl⟩ := List.mem_map.1 hx
  have hcan := h.canonical p hp
  unfold Canonical at hcan
  unfold Searchable
  omega

/-- `GetExpr` leaves the store as it was. -/
theorem SymbolListMap.Repr.getExpr_kept {m m' : SymbolListMap} (h : Repr m m.liveCells)
    {addr : Int} {n : Nat} {v : BitVec 64} (hsearch : Searchable addr (addr + n))
    (hcov : ∃ b, addr ≤ b ∧ b < addr + n ∧ Covered (segs m m.liveCells) b) {e : Expr}
    (hget : m.getExpr addr n v = some (m', e)) : StoreKept m m' := by
  obtain ⟨m₁, hlist, hrepr, -, hframe, hsm⟩ := h.cellList_spec hsearch hcov
  rw [getExpr, hlist] at hget
  simp only [Option.bind_eq_bind, Option.bind_some] at hget
  obtain ⟨e', -, heq⟩ := Option.bind_eq_some_iff.1 hget
  obtain rfl : m₁ = m' := (Prod.mk.inj (Option.some.inj heq)).1
  obtain ⟨hhead, htail⟩ := Prod.mk.inj hframe.ends
  refine ⟨hrepr.liveCells_eq, ⟨hhead, htail⟩, fun p hp => ?_, hsm⟩
  -- what is made of the range are new cells
  have hbound : p < m.nextPtr := h.chain.bound p hp
  exact cells_eq (hframe.next p hbound (by simp)) (hframe.prev p hbound (by simp))
    (hframe.seg p hbound (by simp))

/-- What is read from `-1` on is no expression of that range: the first byte is
not covered, and the piece that lies over it is no literal. -/
theorem SymbolListMap.Repr.not_rangeExpr_neg_one {m m' : SymbolListMap} (h : Repr m m.liveCells)
    {n : Nat} (hn : 1 ≤ n ∧ n ≤ 8)
    (hcov : ∃ b : Int, -1 ≤ b ∧ b < -1 + n ∧ Covered (segs m m.liveCells) b) {v : BitVec 64}
    {e : Expr} (hget : m.getExpr (-1) n v = some (m', e)) :
    ¬ RangeExpr (segs m m.liveCells) (-1) n v e := by
  obtain ⟨x, e₀, s, t, hx0, hxpos, hxval, -, he⟩ := h.getExpr_neg_one_eq hn.2 hcov hget
  -- No cell lies at -1, so the first byte of the range is a literal.
  have hnot : ¬ Covered (segs m m.liveCells) (-1 + (0 : Nat)) := by
    rintro ⟨y, hy, hy1, hy2⟩
    obtain ⟨p, hp, rfl⟩ := List.mem_map.1 hy
    have hcan := h.canonical p hp
    unfold Canonical at hcan
    simp only [Nat.cast_zero, add_zero] at hy1 hy2
    omega
  -- The expression puts the cell at the first byte instead.
  have hpieces : exprPieces v n [x] 0 = x :: padBytes v (x.addr.toNat + x.size) n := by
    show padBytes v 0 x.addr.toNat ++ x :: padBytes v (x.addr.toNat + x.size) n = _
    rw [hx0]
    rfl
  intro hrange
  rw [exprOfCells, hpieces] at he
  cases hrange with
  | whole e hbyte =>
    have hfirst := hbyte 0 (by omega)
    rw [(lookup_eq_none _ _ _).2 hnot] at hfirst
    exact absurd hfirst (by simp)
  | pieces es offsets sizes htile hgap =>
    obtain ⟨c, -, hpiece⟩ := hgap 0 (by omega) hnot
    split at he
    · obtain ⟨rfl, rfl, rfl, -⟩ := Expr.combineMulti.inj (Option.some.inj he)
      obtain ⟨y, hy, hyval, hyaddr, -⟩ := exists_mem_of_isPiece hpiece
      rcases List.mem_cons.1 hy with rfl | hy
      · rw [hxval] at hyval
        exact absurd hyval (by simp [Expr.extractExpr, Expr.constExpr])
      · obtain ⟨i, hi, rfl⟩ := mem_padBytes.1 hy
        have hyaddr : ((i : Nat) : Int).toNat = 0 := hyaddr
        omega
    · have hone : x.val = .combineMulti es offsets sizes n := Option.some.inj he
      rw [hxval] at hone
      exact absurd hone (by simp [Expr.extractExpr])

/-- `GetExpr` returns the expression of a range, and keeps the store, exactly when the range
does not start at `-1`. The pieces of the list tile the range, cells and literals together.
At `-1` the index gives the tail, whose key is the same, so the walk ends at the last cell
of the list. -/
theorem getExpr_tiles_iff {m : SymbolListMap} (h : Repr m m.liveCells)
    (hw : ∀ ρ, ∀ x ∈ segs m m.liveCells, ∃ w, exprNat ρ x.val = some (8 * x.size, w))
    {addr : Int} {n : Nat} (hn : 1 ≤ n ∧ n ≤ 8)
    (hcov : ∃ b, addr ≤ b ∧ b < addr + n ∧ Covered (segs m m.liveCells) b) (v : BitVec 64) :
    GetExprTiles m addr n v ↔ addr ≠ -1 := by
  -- At `-1` the search starts behind the list; at every other address it gives the window.
  constructor
  · rintro ⟨m', e, hget, hrange, -⟩ rfl
    exact h.not_rangeExpr_neg_one hn hcov hget hrange
  · intro hneg
    have hsearch := h.searchable_of_covered hn.2 hneg hcov
    have hlt : addr < addr + (n : Int) := by omega
    obtain ⟨m', e, hget, he, -, -⟩ := h.getExpr_spec v hsearch hcov
    have hsort : Sorted ((window cutExpr addr (addr + n) (segs m m.liveCells)).map
        (Segment.shift addr)) := (h.sorted.window cutExpr hlt).shift addr
    have hin : ∀ x ∈ (window cutExpr addr (addr + n) (segs m m.liveCells)).map
        (Segment.shift addr), 0 ≤ x.addr ∧ x.stop ≤ n := by
      intro x hx
      obtain ⟨y, hy, rfl⟩ := List.mem_map.1 hx
      have hyin := inside_of_mem_window cutExpr h.sorted hlt hy
      rw [Segment.shift_addr, Segment.shift_stop]
      omega
    have hwin : ∀ ρ, ∀ x ∈ (window cutExpr addr (addr + n) (segs m m.liveCells)).map
        (Segment.shift addr), ∃ w, exprNat ρ x.val = some (8 * x.size, w) := by
      intro ρ x hx
      obtain ⟨y, hy, rfl⟩ := List.mem_map.1 hx
      exact exprNat_window hlt (hw ρ) y hy
    have hrange := rangeExpr_exprOfCells hsort hin hwin he
    exact ⟨m', e, hget, hrange.of_window hn.1 hw, h.getExpr_kept hsearch hcov hget⟩

/-- A store with one cell, that of a byte-sized object. -/
theorem exists_byteStore (addr : Int) (hc : Canonical addr (addr + 1)) :
    ∃ m, Repr m m.liveCells ∧ segs m m.liveCells = [⟨addr, 1, (objectCell 1).val⟩] ∧
      ∀ ρ, ∀ x ∈ segs m m.liveCells, ∃ w, exprNat ρ x.val = some (8 * x.size, w) := by
  have hsort : Sorted [(⟨addr, 1, (objectCell 1).val⟩ : Segment Expr)] :=
    sorted_cons.2 ⟨Nat.one_pos, Sorted.nil, by simp⟩
  obtain ⟨m, ps, hrepr, hsegs⟩ := SymbolListMap.exists_store (by simp) hsort hc
  obtain rfl := hrepr.liveCells_eq
  refine ⟨m, hrepr, hsegs, fun ρ x hx => ?_⟩
  rw [hsegs] at hx
  rw [List.mem_singleton.1 hx]
  exact ⟨_, rfl⟩

/-- A covered byte and the one behind it. -/
theorem getExpr_tiles_two : ∃ m, segs m m.liveCells = [⟨0x1000, 1, (objectCell 1).val⟩] ∧
    GetExprTiles m 0x1000 2 0x200 := by
  obtain ⟨m, hrepr, hsegs, hw⟩ := exists_byteStore 0x1000 (Or.inr (by decide))
  refine ⟨m, hsegs, (getExpr_tiles_iff hrepr hw (by decide) ?_ 0x200).2 (by decide)⟩
  rw [hsegs]
  exact ⟨0x1000, by decide, by decide, (covered_cons _ _ _).2 (Or.inl ⟨by decide, by decide⟩)⟩

/-- The last byte of the address space and the first one, which is covered. The tail has the
key of the last byte, so what is cut out belongs to another range. -/
theorem not_getExpr_tiles_last : ∃ m, Repr m m.liveCells ∧
    (∀ ρ, ∀ x ∈ segs m m.liveCells, ∃ w, exprNat ρ x.val = some (8 * x.size, w)) ∧
    segs m m.liveCells = [⟨0, 1, (objectCell 1).val⟩] ∧ ¬ GetExprTiles m (-1) 2 0 := by
  obtain ⟨m, hrepr, hsegs, hw⟩ := exists_byteStore 0 (Or.inr (by decide))
  refine ⟨m, hrepr, hw, hsegs, ?_⟩
  rintro ⟨m', e, hget, hrange, -⟩
  refine hrepr.not_rangeExpr_neg_one (by decide) ?_ hget hrange
  rw [hsegs]
  exact ⟨0, by decide, by decide, (covered_cons _ _ _).2 (Or.inl ⟨by decide, by decide⟩)⟩

end KRover
