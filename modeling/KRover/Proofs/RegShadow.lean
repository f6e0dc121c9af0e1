import KRover.CPUState
import KRover.Proofs.MemShadow

/-! # Reading and writing registers

What `readRegister` and `writeRegister` do to one word of the register file,
in terms of its concrete value, its bitmap and the cells of its symbol list.

`RegShadow` is the invariant of a word: its symbol list is well formed, its
cells lie inside the word, and the bitmap marks no byte that no cell covers.

* `RegShadow.write`: the word after a write;
* `RegShadow.read`: the value that a read returns;
* `CpuShadow.apply`, `CpuReachable.shadow`: the invariant over single calls
  and over runs.
-/

set_option autoImplicit false

namespace KRover

open Segments SymbolListMap SYCPUState

/-! ## Registers the engine knows -/

/-- A register the engine knows starts at the low byte of its word. -/
theorem regIdxToAddrSize_of_encoded {r : MachRegister} {n : Nat}
    (h : dyinstEncoding r = some n) :
    regIdxToAddrSize r.sub = (0, n) ∧ regMaskBits r.sub = BitRange.mask 64 0 n ∧
      (n = 1 ∨ n = 2 ∨ n = 4 ∨ n = 8) := by
  have hfull : BitRange.mask 64 0 8 = 0xff := by decide
  have hd : BitRange.mask 64 0 4 = 0xf := by decide
  have hw : BitRange.mask 64 0 2 = 0x3 := by decide
  have hl : BitRange.mask 64 0 1 = 0x1 := by decide
  obtain ⟨offt, sub⟩ := r
  cases sub with
  | h => cases offt <;> simp [dyinstEncoding] at h
  | full =>
    obtain rfl : n = 8 := by cases offt <;> simp_all [dyinstEncoding]
    exact ⟨rfl, hfull.symm, by decide⟩
  | d =>
    obtain rfl : n = 4 := by cases offt <;> simp_all [dyinstEncoding]
    exact ⟨rfl, hd.symm, by decide⟩
  | w =>
    obtain rfl : n = 2 := by cases offt <;> simp_all [dyinstEncoding]
    exact ⟨rfl, hw.symm, by decide⟩
  | l =>
    obtain rfl : n = 1 := by cases offt <;> simp_all [dyinstEncoding]
    exact ⟨rfl, hl.symm, by decide⟩

/-- An access to a register the engine knows, with the size it has. -/
def RegValue.Encoded (V : RegValue) : Prop := dyinstEncoding V.indx = some V.size

/-- Encoded values are told by the table of registers. -/
instance (V : RegValue) : Decidable V.Encoded :=
  inferInstanceAs (Decidable (dyinstEncoding V.indx = some V.size))

/-- What the callers of `writeRegister` keep to. -/
structure RegValue.Writable (V : RegValue) : Prop where
  encoded : V.Encoded
  form : V.bsym = true → V.isSymList = true → ReadForm V.size V.symcellPtr

namespace RegValue.Encoded

variable {V : RegValue}

/-- The bytes of an encoded value in its word begin with the first. -/
theorem range (h : V.Encoded) : regIdxToAddrSize V.indx.sub = (0, V.size) :=
  (regIdxToAddrSize_of_encoded h).1

/-- Its mask covers these bytes. -/
theorem mask (h : V.Encoded) : regMaskBits V.indx.sub = BitRange.mask 64 0 V.size :=
  (regIdxToAddrSize_of_encoded h).2.1

/-- It has one to eight bytes. -/
theorem size_bounds (h : V.Encoded) : 0 < V.size ∧ V.size ≤ 8 := by
  rcases (regIdxToAddrSize_of_encoded h).2.2 with hs | hs | hs | hs <;> rw [hs] <;> decide

/-- So its range can be searched for in the list. -/
theorem canonical (h : V.Encoded) : Canonical 0 (0 + V.size) := by
  have hs := h.size_bounds
  unfold Canonical
  omega

end RegValue.Encoded

/-! ## The bits of a cell list -/

/-- The bytes of the cells, one bit each. -/
def cellMask : List (Segment Expr) → BitVec 64
  | [] => 0
  | x :: xs => BitRange.mask 64 x.addr.toNat x.size ||| cellMask xs

/-- The shifts of `tmpbitmap` are defined for cells inside a word. -/
theorem cellBits_eq {L : List (Segment Expr)} (h : ∀ x ∈ L, 0 ≤ x.addr ∧ x.stop ≤ 8) :
    cellBits L = some (cellMask L) := by
  induction L with
  | nil => rfl
  | cons x xs ih =>
    have hx := h x (by simp)
    rw [cellBits, ih fun y hy => h y (by simp [hy])]
    simp only [Option.bind_eq_bind, Option.bind_some]
    rw [if_pos ⟨hx.1, by omega⟩]
    rfl

/-- A bit of the mask is set where a cell covers the byte. -/
theorem getLsbD_cellMask {L : List (Segment Expr)} (h : ∀ x ∈ L, 0 ≤ x.addr ∧ x.stop ≤ 8)
    (k : Nat) : (cellMask L).getLsbD k = true ↔ Covered L k := by
  induction L with
  | nil => exact iff_of_false (by simp [cellMask]) (covered_nil _)
  | cons x xs ih =>
    have hx := h x (by simp)
    have hstop : x.stop = x.addr + x.size := rfl
    rw [cellMask, BitVec.getLsbD_or, Bool.or_eq_true, ih fun y hy => h y (by simp [hy]),
      covered_cons, BitRange.getLsbD_mask (by omega), decide_eq_true_eq]
    refine or_congr_left ?_
    show _ ↔ x.addr ≤ (k : Int) ∧ (k : Int) < x.stop
    omega

/-- A list that starts inside a word keeps its addresses. -/
theorem rebaseCells_eq {L : List (Segment Expr)} (hne : L ≠ [])
    (h : ∀ x ∈ L, 0 ≤ x.addr ∧ x.addr < 8) : rebaseCells L = some L := by
  cases L with
  | nil => exact absurd rfl hne
  | cons x xs =>
    have hx := h x (by simp)
    have hstart : ¬ rebaseCells.toUlongStart x ≥ 8 := by
      unfold rebaseCells.toUlongStart
      omega
    rw [rebaseCells, if_neg hstart]

/-- Cells that were read from a register lie in a word. -/
theorem ReadForm.inside_word {size : Nat} {cells : List (Segment Expr)}
    (h : ReadForm size cells) (hs : size ≤ 8) : ∀ x ∈ cells, 0 ≤ x.addr ∧ x.stop ≤ 8 := by
  intro x hx
  have hin := h.inside x hx
  omega

/-- So does the start of each. -/
theorem ReadForm.start_inside {size : Nat} {cells : List (Segment Expr)}
    (h : ReadForm size cells) (hs : size ≤ 8) : ∀ x ∈ cells, 0 ≤ x.addr ∧ x.addr < 8 := by
  intro x hx
  have hin := h.inside x hx
  have hpos := h.sorted.positive x hx
  have hstop : x.stop = x.addr + x.size := rfl
  omega

/-! ## The invariant of a word -/

/-- The cells of the symbol list of a word. -/
def SYCPUState.regCells (st : SYCPUState) (i : PtIdx) : List (Segment Expr) :=
  (st.symList i).segs (st.symList i).liveCells

/-- The symbol list of a word is well formed, its cells lie inside the word,
and what the bitmap marks is covered. -/
structure RegShadow (st : SYCPUState) (i : PtIdx) : Prop where
  repr : Repr (st.symList i) (st.symList i).liveCells
  inside : ∀ x ∈ st.regCells i, 0 ≤ x.addr ∧ x.stop ≤ 8
  marked : ∀ k, (st.symBitmap i).getLsbD k = true → k < 8 ∧ Covered (st.regCells i) k

/-! ## Writing -/

namespace RegValue

/-- The bitmap of a word after a write. -/
def bitmapAfter (V : RegValue) (b : BitVec 64) : BitVec 64 :=
  if V.bsym then
    if V.isSymList then b &&& ~~~BitRange.mask 64 0 V.size ||| cellMask V.symcellPtr
    else b ||| BitRange.mask 64 0 V.size
  else b &&& ~~~BitRange.mask 64 0 V.size

/-- The cells that a write lays over a word. -/
def newCells (V : RegValue) : List (Segment Expr) :=
  if V.bsym then (if V.isSymList then V.symcellPtr else [⟨0, V.size, V.expr⟩]) else []

/-- The range that a write replaces. For a list it reaches from the first to
the last cell only. -/
def newRange (V : RegValue) : Int × Int :=
  if V.bsym ∧ V.isSymList then (start V.symcellPtr, finish V.symcellPtr) else (0, V.size)

/-- The cells of a word after a write. -/
def cellsAfter (V : RegValue) (L : List (Segment Expr)) : List (Segment Expr) :=
  splice cutExpr V.newRange.1 V.newRange.2 V.newCells L

/-- What a write replaces lies inside the register and holds the new cells. -/
structure NewCells (V : RegValue) : Prop where
  low : 0 ≤ V.newRange.1
  lt : V.newRange.1 < V.newRange.2
  high : V.newRange.2 ≤ V.size
  sorted : Sorted V.newCells
  inside : ∀ x ∈ V.newCells, V.newRange.1 ≤ x.addr ∧ x.stop ≤ V.newRange.2

/-- What can be written is one cell per expression, in the form a read returns. -/
theorem Writable.newCells {V : RegValue} (hV : V.Writable) : V.NewCells := by
  have hs := hV.encoded.size_bounds
  -- A concrete value brings no cell, an expression one over the whole register, and a list its own
  -- cells.
  cases hsym : V.bsym with
  | false =>
    have hnew : V.newCells = [] := by simp [RegValue.newCells, hsym]
    have hrange : V.newRange = (0, (V.size : Int)) := by simp [newRange, hsym]
    exact ⟨by simp [hrange], by rw [hrange]; omega, by simp [hrange], hnew ▸ Sorted.nil,
      by simp [hnew]⟩
  | true =>
    cases hlist : V.isSymList with
    | false =>
      have hnew : V.newCells = [⟨0, V.size, V.expr⟩] := by simp [RegValue.newCells, hsym, hlist]
      have hrange : V.newRange = (0, (V.size : Int)) := by simp [newRange, hlist]
      refine ⟨by simp [hrange], by rw [hrange]; omega, by simp [hrange], ?_, ?_⟩
      · rw [hnew]
        exact sorted_cons.2 ⟨hs.1, Sorted.nil, by simp⟩
      · intro x hx
        rw [hnew] at hx
        rw [List.mem_singleton.1 hx, hrange]
        exact ⟨le_refl _, le_of_eq (Int.zero_add _)⟩
    | true =>
      have hform := hV.form hsym hlist
      have hends := start_finish_inside hform.ne hform.inside
      have hnew : V.newCells = V.symcellPtr := by simp [RegValue.newCells, hsym, hlist]
      have hrange : V.newRange = (start V.symcellPtr, finish V.symcellPtr) := by
        simp [newRange, hsym, hlist]
      refine ⟨by rw [hrange]; exact hends.1, ?_, by rw [hrange]; exact hends.2, ?_, ?_⟩
      · rw [hrange]
        exact hform.sorted.start_lt_finish hform.ne
      · rw [hnew]
        exact hform.sorted
      · rw [hnew, hrange]
        exact hform.sorted.within

/-- Coverage after a write. -/
theorem Writable.covered_after {V : RegValue} (hV : V.Writable) (L : List (Segment Expr))
    (b : Int) : Covered (V.cellsAfter L) b ↔
      if V.newRange.1 ≤ b ∧ b < V.newRange.2 then Covered V.newCells b else Covered L b :=
  covered_splice cutExpr (le_of_lt hV.newCells.lt) hV.newCells.inside L b

end RegValue

/-- The concrete words after a write. -/
def SYCPUState.wordsAfter (st : SYCPUState) (V : RegValue) : MacReg :=
  (st.writeConcreteValue V.indx V.size V.i64).ptRegs

namespace RegShadow

variable {st : SYCPUState} {V : RegValue}

/-- Each kind of write lays its cells over the old ones and sets the bits
accordingly. -/
theorem write (h : RegShadow st V.indx.offt) (hV : V.Writable) :
    ∃ m, st.writeRegister V = some (true,
        { ptRegs := st.wordsAfter V
          symBitmap := Function.update st.symBitmap V.indx.offt
            (V.bitmapAfter (st.symBitmap V.indx.offt))
          symList := Function.update st.symList V.indx.offt m
          bsymFlag := st.bsymFlag }) ∧
      Repr m m.liveCells ∧ m.segs m.liveCells = V.cellsAfter (st.regCells V.indx.offt) := by
  have hs := hV.encoded.size_bounds
  have hnew := hV.newCells
  have hregion := hV.encoded.range
  have hmask := hV.encoded.mask
  have henc : dyinstEncoding V.indx = some V.size := hV.encoded
  have hcanon := hV.encoded.canonical
  rw [Int.zero_add] at hcanon
  unfold RegValue.cellsAfter RegValue.newCells RegValue.newRange
  -- The branches of the source: remove for a word, merge for an expression or a list.
  cases hsym : V.bsym with
  | false =>
    obtain ⟨m, ps, hm, hrepr, hsegs⟩ := h.repr.remove_spec
      (hV.encoded.canonical.searchable (by omega)) hs.1
    rw [Int.zero_add] at hsegs
    refine ⟨m, ?_, repr_liveCells hrepr, ?_⟩
    · rw [writeRegister, henc]
      simp only [Option.bind_eq_bind, Option.bind_some, ne_eq, not_true_eq_false, if_false, hsym,
        Bool.false_eq_true, hregion]
      show ((st.symList V.indx.offt).remove 0 V.size).bind _ = _
      rw [hm]
      simp only [Option.bind_some, RegValue.bitmapAfter, hsym, ← hmask]
      rfl
    · rw [segs_liveCells hrepr, hsegs]
      rfl
  | true =>
    cases hlist : V.isSymList with
    | false =>
      have hsort : Sorted [(⟨0, V.size, V.expr⟩ : Segment Expr)] :=
        sorted_cons.2 ⟨hs.1, Sorted.nil, by simp⟩
      have hfin : finish [(⟨0, V.size, V.expr⟩ : Segment Expr)] = V.size := Int.zero_add _
      obtain ⟨m, ps, hm, hrepr, hsegs⟩ := h.repr.mergeList_spec (by simp) hsort
        (show Canonical _ (finish [(⟨0, V.size, V.expr⟩ : Segment Expr)]) from hfin ▸ hcanon)
      rw [hfin] at hsegs
      refine ⟨m, ?_, repr_liveCells hrepr, ?_⟩
      · rw [writeRegister, henc]
        simp only [Option.bind_eq_bind, Option.bind_some, ne_eq, not_true_eq_false, if_false,
          hsym, hlist, Bool.false_eq_true, if_true, hregion]
        show ((st.symList V.indx.offt).mergeList [⟨0, V.size, V.expr⟩]).bind _ = _
        rw [hm]
        simp only [Option.bind_some, RegValue.bitmapAfter, hsym, hlist, ← hmask]
        rfl
      · rw [segs_liveCells hrepr, hsegs]
        rfl
    | true =>
      have hform := hV.form hsym hlist
      have hends := start_finish_inside hform.ne hform.inside
      obtain ⟨m, ps, hm, hrepr, hsegs⟩ := h.repr.mergeList_spec hform.ne hform.sorted
        (hcanon.mono hends.1 hends.2)
      refine ⟨m, ?_, repr_liveCells hrepr, ?_⟩
      · rw [writeRegister, henc]
        simp only [Option.bind_eq_bind, Option.bind_some, ne_eq, not_true_eq_false, if_false,
          hsym, hlist, if_true, hregion, rebaseCells_eq hform.ne (hform.start_inside hs.2),
          cellBits_eq (hform.inside_word hs.2)]
        show ((st.symList V.indx.offt).mergeList V.symcellPtr).bind _ = _
        rw [hm]
        -- the bits of the register are cleared first and those of the cells set then
        simp only [Option.bind_some, RegValue.bitmapAfter, hsym, hlist, ← hmask, clrSYReg,
          setBitmap, Function.update_self, Function.update_idem]
        rfl
      · rw [segs_liveCells hrepr, hsegs]
        rfl

/-- The bits of a word after a write. -/
theorem getLsbD_bitmapAfter (hV : V.Writable) (b : BitVec 64) (k : Nat) :
    (V.bitmapAfter b).getLsbD k = true ↔
      Covered V.newCells k ∨ (¬ (k < V.size) ∧ b.getLsbD k = true) := by
  have hs := hV.encoded.size_bounds
  unfold RegValue.bitmapAfter RegValue.newCells
  -- The register's bits are cleared, set, or replaced by those of the cells.
  cases hsym : V.bsym with
  | false =>
    simp only [Bool.false_eq_true, if_false]
    rw [BitRange.getLsbD_and_not_mask (by omega), or_iff_right (covered_nil _), and_comm]
    simp
  | true =>
    cases hlist : V.isSymList with
    | false =>
      simp only [Bool.false_eq_true, if_false, if_true]
      rw [BitRange.getLsbD_or_mask (by omega), covered_cons, or_iff_left (covered_nil _)]
      have hone : (⟨0, V.size, V.expr⟩ : Segment Expr).Covers k ↔ k < V.size := by
        show (0 : Int) ≤ k ∧ (k : Int) < 0 + V.size ↔ _
        omega
      rw [hone]
      by_cases hk : k < V.size <;> simp [hk]
    | true =>
      have hword := (hV.form hsym hlist).inside_word hs.2
      simp only [if_true]
      rw [BitVec.getLsbD_or, Bool.or_eq_true, getLsbD_cellMask hword,
        BitRange.getLsbD_and_not_mask (by omega)]
      have hzero : 0 ≤ k ∧ k < 0 + V.size ↔ k < V.size := by omega
      rw [hzero, or_comm, and_comm]

/-- Where the bitmap and the cells agreed, they agree after a write over the
whole register. -/
theorem getLsbD_bitmapAfter_iff (hV : V.Writable) (hrange : V.newRange = (0, (V.size : Int)))
    {b : BitVec 64} {L : List (Segment Expr)} {k : Nat}
    (h : b.getLsbD k = true ↔ Covered L k) :
    (V.bitmapAfter b).getLsbD k = true ↔ Covered (V.cellsAfter L) k := by
  have hin := hV.newCells.inside
  rw [getLsbD_bitmapAfter hV, hV.covered_after, hrange, h]
  by_cases hk : k < V.size
  · rw [if_pos (by show (0 : Int) ≤ k ∧ (k : Int) < V.size; omega)]
    simp [hk]
  · have hnew : ¬ Covered V.newCells k := by
      rintro ⟨x, hx, hx1, hx2⟩
      have hx3 := (hin x hx).2
      rw [hrange] at hx3
      have hx3 : x.stop ≤ (V.size : Int) := hx3
      omega
    rw [if_neg (by show ¬ ((0 : Int) ≤ k ∧ (k : Int) < V.size); omega)]
    simp [hk, hnew]

/-- A write keeps the invariant of its word. -/
theorem after (h : RegShadow st V.indx.offt) (hV : V.Writable) :
    (∀ x ∈ V.cellsAfter (st.regCells V.indx.offt), 0 ≤ x.addr ∧ x.stop ≤ 8) ∧
    (∀ k, (V.bitmapAfter (st.symBitmap V.indx.offt)).getLsbD k = true →
      k < 8 ∧ Covered (V.cellsAfter (st.regCells V.indx.offt)) k) := by
  have hs := hV.encoded.size_bounds
  have hnew := hV.newCells
  have hlow := hnew.low
  have hhigh := hnew.high
  constructor
  · refine forall_mem_splice cutExpr ?_ h.inside ?_
    · -- a piece of an old cell lies inside the old cell
      intro x _ hx s t hst ht
      have hstop : x.stop = x.addr + x.size := rfl
      show 0 ≤ x.addr + (s : Int) ∧ x.addr + (s : Int) + ((t - s : Nat) : Int) ≤ 8
      omega
    · intro x hx
      have hin := hnew.inside x hx
      omega
  -- A bit that is set was set by this write, or was set before outside of the register.
  · intro k hk
    rw [hV.covered_after]
    rcases (getLsbD_bitmapAfter hV _ k).1 hk with hcov | ⟨hout, hold⟩
    · obtain ⟨x, hx, hx1, hx2⟩ := hcov
      have hin := hnew.inside x hx
      rw [if_pos (by omega)]
      exact ⟨by omega, x, hx, hx1, hx2⟩
    · obtain ⟨hk8, hcov⟩ := h.marked k hold
      rw [if_neg (by omega)]
      exact ⟨hk8, hcov⟩

/-! ## Reading -/

/-- A symbolic register has a covered byte. -/
theorem covered_of_isSYReg (h : RegShadow st V.indx.offt) (hV : V.Encoded)
    (hsym : st.isSYReg V.indx = true) :
    ∃ b : Int, 0 ≤ b ∧ b < 0 + V.size ∧ Covered (st.regCells V.indx.offt) b := by
  have hs := hV.size_bounds
  rw [isSYReg, hV.mask, bne_iff_ne] at hsym
  obtain ⟨k, hk, hbit⟩ := (BitRange.and_mask_ne_zero_iff (by omega) _).1 hsym
  obtain ⟨-, hcov⟩ := h.marked k hbit
  exact ⟨k, by omega, by omega, hcov⟩

end RegShadow

/-- The low bits of a union are those assigned to it last. -/
theorem setWidth_assignLow {w : Nat} (hw : w ≤ 64) (u v : BitVec 64) :
    (assignLow w u v).setWidth w = v.setWidth w := by
  apply BitVec.eq_of_getLsbD_eq
  intro i hi
  simp only [assignLow, BitVec.getLsbD_setWidth, hi, decide_true, Bool.true_and,
    BitVec.getLsbD_or, BitVec.getLsbD_shiftLeft, BitVec.getLsbD_ushiftRight]
  have h1 : i < 64 := by omega
  have h2 : 64 - w + i < 64 := by omega
  have h3 : ¬ 64 - w + i < 64 - w := by omega
  have h4 : 64 - w + i - (64 - w) = i := by omega
  simp [h1, h2, h4]

/-- A concrete read returns the low bytes of the word, but the second byte for
a register of one byte. -/
theorem setWidth_readConcreteValue (st : SYCPUState) {V : RegValue} (hV : V.Encoded)
    (u : BitVec 64) :
    (st.readConcreteValue V.indx V.size u).setWidth (8 * V.size)
      = (if V.size = 1 then st.ptRegs V.indx.offt >>> 8 else st.ptRegs V.indx.offt).setWidth
          (8 * V.size) := by
  have hs := hV.size_bounds
  unfold readConcreteValue
  split
  · rename_i hone
    rw [hone]
    exact setWidth_assignLow (by decide) _ _
  · exact setWidth_assignLow (by omega) _ _

/-- The cells of a register, those at its end cut. -/
def SYCPUState.regWindow (st : SYCPUState) (V : RegValue) : List (Segment Expr) :=
  (window cutExpr 0 (0 + V.size) (st.regCells V.indx.offt)).map (Segment.shift 0)

/-- The value that a read returns. -/
def SYCPUState.valueRead (st : SYCPUState) (V : RegValue) : RegValue :=
  let v := st.readConcreteValue V.indx V.size V.i64
  if st.isSYReg V.indx then
    if V.isSymList then { V with bsym := true, i64 := v, symcellPtr := st.regWindow V }
    else
      { V with
        bsym := true
        i64 := v
        expr := (exprOfCells v V.size (st.regWindow V)).getD .null }
  else { V with bsym := false, isSymList := false, i64 := v }

namespace RegShadow

variable {st : SYCPUState} {V : RegValue}

/-- A read returns the cells of the register, or the expression that they and
the concrete bytes make up, and leaves the cells as they are. -/
theorem read (h : RegShadow st V.indx.offt) (hV : V.Encoded) :
    ∃ m, st.readRegister V = some (true, st.valueRead V, st.setSymList V.indx.offt m) ∧
      Repr m m.liveCells ∧ m.segs m.liveCells = st.regCells V.indx.offt := by
  have hs := hV.size_bounds
  have hregion := hV.range
  have henc : dyinstEncoding V.indx = some V.size := hV
  have hsearch : Searchable 0 (0 + V.size) := hV.canonical.searchable (by omega)
  -- Without a mark no list is touched.
  cases hsym : st.isSYReg V.indx with
  | false =>
    refine ⟨st.symList V.indx.offt, ?_, h.repr, rfl⟩
    rw [readRegister, henc, valueRead, hsym]
    simp only [Option.bind_eq_bind, Option.bind_some, ne_eq, not_true_eq_false, if_false,
      Bool.false_eq_true, setSymList, Function.update_eq_self]
    rfl
  | true =>
    have hcov := h.covered_of_isSYReg hV hsym
    -- A read may reorganise the list of the word, whose cells stay what they are.
    cases hlist : V.isSymList with
    | true =>
      obtain ⟨m, hm, hrepr, hsame, -⟩ := h.repr.cellList_spec hsearch hcov
      refine ⟨m, ?_, repr_liveCells hrepr, (segs_liveCells hrepr).trans hsame⟩
      rw [readRegister, henc, valueRead, hsym, hlist]
      simp only [Option.bind_eq_bind, Option.bind_some, ne_eq, not_true_eq_false, if_false, if_true,
        hregion]
      rw [hm]
      rfl
    | false =>
      obtain ⟨m, e, hm, he, hrepr, hsame⟩ := h.repr.getExpr_spec
        (st.readConcreteValue V.indx V.size V.i64) hsearch hcov
      refine ⟨m, ?_, repr_liveCells hrepr, (segs_liveCells hrepr).trans hsame⟩
      have he' : exprOfCells (st.readConcreteValue V.indx V.size V.i64) V.size (st.regWindow V)
          = some e := he
      rw [readRegister, henc, valueRead, hsym, hlist, he']
      simp only [Option.bind_eq_bind, Option.bind_some, ne_eq, not_true_eq_false, if_false, if_true,
        hregion, Bool.false_eq_true]
      rw [hm]
      rfl

end RegShadow

/-! ## Runs -/

/-- A call on the registers. -/
inductive CpuOp where
  | readRegister (V : RegValue)
  | writeRegister (V : RegValue)
  | setFlagBit (f : Flag) (s : FlagStat)
  | clearAllSymFlag
  | setConcreteCPUState (regs : MacReg)

namespace CpuOp

/-- What the callers keep to. -/
def Admissible : CpuOp → Prop
  | .readRegister V => V.Encoded
  | .writeRegister V => V.Writable
  | _ => True

/-- What a call does to the state. -/
def apply : CpuOp → SYCPUState → Option SYCPUState
  | .readRegister V, st => (st.readRegister V).map fun r => r.2.2
  | .writeRegister V, st => (st.writeRegister V).map fun r => r.2
  | .setFlagBit f s, st => some (st.setFlagBit f s)
  | .clearAllSymFlag, st => some st.clearAllSymFlag
  | .setConcreteCPUState regs, st => some (st.setConcreteCPUState regs)

end CpuOp

/-- The invariant of every word, and no mark and no cell in the words that no
register name leads to. -/
structure CpuShadow (st : SYCPUState) : Prop where
  word : ∀ i, RegShadow st i
  unnamed : ∀ i, (∀ sub, dyinstEncoding ⟨i, sub⟩ = none) →
    st.symBitmap i = 0 ∧ st.regCells i = []

/-- In a new state no register has cells. -/
theorem regCells_new (regs : MacReg) (i : PtIdx) : (SYCPUState.new regs).regCells i = [] :=
  segs_liveCells repr_new

/-- So bitmap and lists agree there, the bitmap being zero. -/
theorem cpuShadow_new (regs : MacReg) : CpuShadow (SYCPUState.new regs) where
  word i := by
    constructor
    · exact repr_liveCells repr_new
    · rw [regCells_new]
      simp
    · intro k hk
      exact absurd hk (by simp [SYCPUState.new])
  unnamed i _ := ⟨rfl, regCells_new regs i⟩

/-- The invariant reads the bitmaps and the cells of the words. -/
theorem RegShadow.congr {st st' : SYCPUState} {i : PtIdx} (h : RegShadow st i)
    (hb : st'.symBitmap i = st.symBitmap i) (hm : st'.symList i = st.symList i) :
    RegShadow st' i := by
  have hcells : st'.regCells i = st.regCells i := by rw [regCells, hm, regCells]
  constructor
  · rw [hm]
    exact h.repr
  · rw [hcells]
    exact h.inside
  · rw [hb, hcells]
    exact h.marked

/-- The agreement looks at the bitmap and at the lists only. -/
theorem CpuShadow.congr {st st' : SYCPUState} (h : CpuShadow st)
    (hb : st'.symBitmap = st.symBitmap) (hm : st'.symList = st.symList) : CpuShadow st' where
  word i := (h.word i).congr (congrFun hb i) (congrFun hm i)
  unnamed i hi := by
    rw [hb, regCells, hm]
    exact h.unnamed i hi

/-- A word is named when an access to it is encoded. -/
theorem RegValue.Encoded.named {V : RegValue} (h : V.Encoded) :
    ¬ ∀ sub, dyinstEncoding ⟨V.indx.offt, sub⟩ = none := by
  intro hnone
  have henc : dyinstEncoding V.indx = some V.size := h
  exact absurd (henc.symm.trans (hnone V.indx.sub)) (by simp)

/-- The state after a write keeps the invariant. -/
theorem CpuShadow.writeRegister {st st' : SYCPUState} {V : RegValue} {ok : Bool}
    (h : CpuShadow st) (hV : V.Writable) (hst : st.writeRegister V = some (ok, st')) :
    CpuShadow st' := by
  obtain ⟨m, hm, hrepr, hsegs⟩ := (h.word V.indx.offt).write hV
  rw [hm] at hst
  obtain rfl := (Prod.mk.inj (Option.some.inj hst)).2
  obtain ⟨hin, hmark⟩ := (h.word V.indx.offt).after hV
  constructor
  · intro i
    by_cases hi : i = V.indx.offt
    · subst hi
      constructor
      · simpa using hrepr
      · simpa [regCells, hsegs] using hin
      · simpa [regCells, hsegs] using hmark
    · exact (h.word i).congr (Function.update_of_ne hi _ _) (Function.update_of_ne hi _ _)
  · intro i hi
    have hne : i ≠ V.indx.offt := fun heq => hV.encoded.named (heq ▸ hi)
    rw [regCells]
    simp only [Function.update_of_ne hne]
    exact h.unnamed i hi

/-- The state after a read keeps the invariant. -/
theorem CpuShadow.readRegister {st st' : SYCPUState} {V W : RegValue} {ok : Bool}
    (h : CpuShadow st) (hV : V.Encoded) (hst : st.readRegister V = some (ok, W, st')) :
    CpuShadow st' := by
  obtain ⟨m, hm, hrepr, hsegs⟩ := (h.word V.indx.offt).read hV
  rw [hm] at hst
  obtain rfl := (Prod.mk.inj (Prod.mk.inj (Option.some.inj hst)).2).2
  constructor
  · intro i
    -- Only the list of the word that was read may have changed.
    by_cases hi : i = V.indx.offt
    · subst hi
      have hcells : (st.setSymList V.indx.offt m).regCells V.indx.offt
          = st.regCells V.indx.offt := by
        rw [regCells, setSymList]
        simpa using hsegs
      constructor
      · simpa [setSymList] using hrepr
      · rw [hcells]
        exact (h.word _).inside
      · rw [hcells]
        exact (h.word _).marked
    · exact (h.word i).congr rfl (Function.update_of_ne hi _ _)
  · intro i hi
    have hne : i ≠ V.indx.offt := fun heq => hV.named (heq ▸ hi)
    rw [regCells, setSymList]
    simp only [Function.update_of_ne hne]
    exact h.unnamed i hi

/-- One admissible call keeps the invariant. -/
theorem CpuShadow.apply {st st' : SYCPUState} {op : CpuOp} (h : CpuShadow st)
    (hop : op.Admissible) (hst : op.apply st = some st') : CpuShadow st' := by
  cases op with
  | readRegister V =>
    obtain ⟨⟨ok, W, st₁⟩, hread, rfl⟩ := Option.map_eq_some_iff.1 hst
    exact h.readRegister hop hread
  | writeRegister V =>
    obtain ⟨⟨ok, st₁⟩, hwrite, rfl⟩ := Option.map_eq_some_iff.1 hst
    exact h.writeRegister hop hwrite
  | setFlagBit f s =>
    obtain rfl := Option.some.inj hst
    cases s <;> exact h.congr rfl rfl
  | clearAllSymFlag =>
    obtain rfl := Option.some.inj hst
    exact h.congr rfl rfl
  | setConcreteCPUState regs =>
    obtain rfl := Option.some.inj hst
    exact h.congr rfl rfl

/-- The states that sequences of admissible calls reach from fresh registers, whose
bitmaps were zero. -/
inductive CpuReachable : SYCPUState → Prop where
  | new (regs : MacReg) (symBitmap : PtIdx → BitVec 64) (hzero : ZeroBitmap symBitmap) :
      CpuReachable (SYCPUState.construct regs symBitmap)
  | step {st st' : SYCPUState} (op : CpuOp) (h : CpuReachable st) (hop : op.Admissible)
    (hst : op.apply st = some st') : CpuReachable st'

/-- Every reachable state has the invariant. -/
theorem CpuReachable.shadow {st : SYCPUState} (h : CpuReachable st) : CpuShadow st := by
  induction h with
  | new regs symBitmap hzero =>
    rw [construct_eq_new regs hzero]
    exact cpuShadow_new regs
  | step op _ hop hst ih => exact ih.apply hop hst

end KRover
