import Mathlib.Logic.Relation
import KRover.Proofs.MemBitmap
import KRover.Proofs.SymListRun

/-! # The bitmap and the symbol list of the memory agree

A byte is marked in `m_Bitmap` when it is covered by a cell of
`m_AllSymbolList`: `Shadow` is the invariant, `MemOp` the accesses.

A write of a cell list unmarks its whole range and marks the cells, while
`Merge` replaces the old cells from the first to the last new one only. So the
two agree afterwards exactly when no old cell reaches into the range before
the first or behind the last new cell (`MemOp.GapFree`).

* `Shadow.write_expr`, `Shadow.write_concrete`, `Shadow.read`: what the other
  accesses do;
* `Shadow.write_list_iff`: the exact condition for one write of a list;
* `agrees_of_run`: every run whose writes meet it keeps the two in step.
-/

set_option autoImplicit false

namespace KRover

open Segments SymbolListMap

/-! ## Addresses -/

/-- An address and the signed number that the symbol list keeps of it are one. -/
theorem toUlong_toInt64 {a : Nat} (h : a < 2 ^ 64) : toUlong (toInt64 a) = a := by
  unfold toUlong toInt64
  split <;> omega

/-- Two addresses have different signed numbers. -/
theorem toInt64_inj {a b : Nat} (ha : a < 2 ^ 64) (hb : b < 2 ^ 64)
    (h : toInt64 a = toInt64 b) : a = b := by
  rw [← toUlong_toInt64 ha, h, toUlong_toInt64 hb]

/-- A canonical range of `int64_t` is a range of `ulong` too. -/
theorem toUlong_range {a : Int} {n : Nat} (hc : Canonical a (a + n)) :
    toUlong a + n ≤ 2 ^ 64 := by
  unfold Canonical at hc
  unfold toUlong
  omega

/-- A canonical range does not wrap around. -/
theorem noWrap_of_canonical {a : Int} {n : Nat} (hc : Canonical a (a + n)) :
    SYMemBitmap.NoWrap (toUlong a) n := by
  unfold Canonical at hc
  unfold SYMemBitmap.NoWrap
  omega

/-- A byte lies in a canonical range by its address exactly when it does by its signed
number. Bitmap and list count the bytes in these two ways. -/
theorem mem_toUlong_range {a : Int} {n b : Nat} (hc : Canonical a (a + n)) (hb : b < 2 ^ 64) :
    toUlong a ≤ b ∧ b < toUlong a + n ↔ a ≤ toInt64 b ∧ toInt64 b < a + n := by
  unfold Canonical at hc
  unfold toUlong toInt64
  split <;> omega

/-- The address of an access and the range it stands for. -/
structure AccessRange (addr size : Nat) : Prop where
  width : isAccessSize size = true
  bound : addr < 2 ^ 64
  canonical : Canonical (toInt64 addr) (toInt64 addr + size)

namespace AccessRange

variable {addr size : Nat}

/-- An access has at least one byte. -/
theorem pos (h : AccessRange addr size) : 0 < size := by
  have hs := h.width
  simp only [isAccessSize, Bool.or_eq_true, decide_eq_true_eq] at hs
  omega

/-- The list can be searched for the range of an access. -/
theorem searchable (h : AccessRange addr size) :
    Searchable (toInt64 addr) (toInt64 addr + size) :=
  h.canonical.searchable (by have hpos := h.pos; omega)

/-- The range of an access ends at the end of memory at the latest. -/
theorem le (h : AccessRange addr size) : addr + size ≤ 2 ^ 64 := by
  have hle := toUlong_range h.canonical
  rwa [toUlong_toInt64 h.bound] at hle

/-- The range of an access does not wrap around. -/
theorem noWrap (h : AccessRange addr size) : SYMemBitmap.NoWrap addr size := by
  have hs := h.width
  simp only [isAccessSize, Bool.or_eq_true, decide_eq_true_eq] at hs
  unfold SYMemBitmap.NoWrap
  omega

/-- The two ways to count the bytes of an access. -/
theorem mem_iff (h : AccessRange addr size) {b : Nat} (hb : b < 2 ^ 64) :
    addr ≤ b ∧ b < addr + size ↔ toInt64 addr ≤ toInt64 b ∧ toInt64 b < toInt64 addr + size := by
  have hmem := mem_toUlong_range h.canonical hb
  rwa [toUlong_toInt64 h.bound] at hmem

end AccessRange

/-! ## Concrete bytes -/

/-- A byte that is stored. -/
theorem storeBytes_inside {mem : Nat → BitVec 8} {addr size i : Nat} (hsz : size < 2 ^ 64)
    (v : BitVec 64) (hi : i < size) :
    storeBytes mem addr size v (addr + i) = Bytes.byteOf v.toNat i := by
  have hoff : toUlong (((addr + i : Nat) : Int) - addr) = i := by
    unfold toUlong
    omega
  rw [storeBytes]
  simp only [hoff, hi, if_true]

/-- The other bytes. -/
theorem storeBytes_outside {mem : Nat → BitVec 8} {addr size b : Nat}
    (h : addr + size ≤ 2 ^ 64) (v : BitVec 64) (hb : b < 2 ^ 64)
    (hout : ¬ (addr ≤ b ∧ b < addr + size)) : storeBytes mem addr size v b = mem b := by
  have hoff : ¬ toUlong ((b : Int) - addr) < size := by
    unfold toUlong
    omega
  rw [storeBytes]
  simp only [hoff, if_false]

/-- A number that is loaded depends on its bytes only. -/
theorem loadBytes_congr {mem mem' : Nat → BitVec 8} {addr size : Nat} (h : addr + size ≤ 2 ^ 64)
    (hmem : ∀ i < size, mem' (addr + i) = mem (addr + i)) :
    loadBytes mem' addr size = loadBytes mem addr size := by
  rw [loadBytes, loadBytes]
  refine congrArg Bytes.ofBytes (List.map_congr_left fun i hi => ?_)
  have hi := List.mem_range.1 hi
  rw [Nat.mod_eq_of_lt (by omega)]
  exact hmem i hi

/-- The word that is stored is loaded. -/
theorem loadBytes_storeBytes {mem : Nat → BitVec 8} {addr : Nat} (h : addr + 8 ≤ 2 ^ 64)
    (v : BitVec 64) : loadBytes (storeBytes mem addr 8 v) addr 8 = v.toNat := by
  have hbytes : loadBytes (storeBytes mem addr 8 v) addr 8
      = Bytes.ofBytes (Bytes.bytesOf v.toNat 8) := by
    rw [loadBytes, Bytes.bytesOf]
    refine congrArg Bytes.ofBytes (List.map_congr_left fun i hi => ?_)
    have hi := List.mem_range.1 hi
    rw [Nat.mod_eq_of_lt (by omega)]
    exact storeBytes_inside (by decide) v hi
  rw [hbytes, Bytes.ofBytes_bytesOf]
  exact Nat.mod_eq_of_lt v.isLt

/-! ## Cell lists as the read functions return them -/

/-- Sorted cells with offsets inside an access of `size` bytes; the bytes
between them are concrete. -/
structure ReadForm (size : Nat) (cells : List (Segment Expr)) : Prop where
  ne : cells ≠ []
  sorted : Sorted cells
  inside : ∀ x ∈ cells, 0 ≤ x.addr ∧ x.stop ≤ size

namespace ReadForm

variable {size : Nat} {cells : List (Segment Expr)}

/-- The window of a range with a covered byte is of this form. -/
theorem window {L : List (Segment Expr)} (hL : Sorted L) {a : Int}
    (hcov : ∃ b, a ≤ b ∧ b < a + size ∧ Covered L b) :
    ReadForm size ((window cutExpr a (a + size) L).map (Segment.shift a)) := by
  have hlt : a < a + (size : Int) := by omega
  constructor
  · intro hnil
    obtain ⟨b, hb1, hb2, hb⟩ := hcov
    have hw := (covered_window cutExpr hlt L b).2 ⟨⟨hb1, hb2⟩, hb⟩
    rw [List.map_eq_nil_iff.1 hnil] at hw
    exact covered_nil b hw
  · exact (hL.window cutExpr hlt).shift a
  · intro x hx
    obtain ⟨y, hy, rfl⟩ := List.mem_map.1 hx
    have hin := inside_of_mem_window cutExpr hL hlt hy
    rw [Segment.shift_addr, Segment.shift_stop]
    omega

/-- The list moved to its addresses lies in the range of the access. -/
theorem shift_inside (h : ReadForm size cells) (a : Int) :
    ∀ x ∈ cells.map (Segment.shift (-a)), a ≤ x.addr ∧ x.stop ≤ a + size := by
  intro x hx
  obtain ⟨y, hy, rfl⟩ := List.mem_map.1 hx
  have hin := h.inside y hy
  rw [Segment.shift_addr, Segment.shift_stop]
  omega

/-- A list that is written is not empty, wherever it is moved to. -/
theorem shift_ne (h : ReadForm size cells) (a : Int) :
    cells.map (Segment.shift (-a)) ≠ [] := by
  intro hnil
  exact h.ne (List.map_eq_nil_iff.1 hnil)

end ReadForm

/-- The ends of a list are those of its first and last segment. -/
theorem start_finish_inside {L : List (Segment Expr)} (hne : L ≠ []) {a e : Int}
    (h : ∀ x ∈ L, a ≤ x.addr ∧ x.stop ≤ e) : a ≤ start L ∧ finish L ≤ e := by
  constructor
  · obtain ⟨x, xs, rfl⟩ := List.exists_cons_of_ne_nil hne
    exact (h x (by simp)).1
  · rcases List.eq_nil_or_concat L with rfl | ⟨xs, x, rfl⟩
    · exact absurd rfl hne
    · rw [List.concat_eq_append] at h ⊢
      have hfin : finish (xs ++ [x]) = x.stop := by simp [finish]
      rw [hfin]
      exact (h x (by simp)).2

/-! ## The invariant -/

/-- The cells of the symbol list. -/
def SYMemState.storedCells (st : SYMemState) : List (Segment Expr) :=
  st.allSymbolList.segs st.allSymbolList.liveCells

/-- Byte by byte the bitmap says what the symbol list covers. -/
def SYMemState.Agrees (st : SYMemState) : Prop :=
  ∀ b < 2 ^ 64, st.bitmap.Marked b ↔ Covered st.storedCells (toInt64 b)

/-- The symbol list is well formed and agrees with the bitmap. -/
structure Shadow (st : SYMemState) : Prop where
  repr : Repr st.allSymbolList st.allSymbolList.liveCells
  agrees : st.Agrees

/-- A store that is represented by some list is so by its own cells. -/
theorem repr_liveCells {m : SymbolListMap} {ps : List Nat} (h : Repr m ps) :
    Repr m m.liveCells := by
  rw [h.liveCells_eq]
  exact h

/-- Its cells are the segments of that list. -/
theorem segs_liveCells {m : SymbolListMap} {ps : List Nat} (h : Repr m ps) :
    m.segs m.liveCells = m.segs ps := by
  rw [h.liveCells_eq]

/-- In new memory nothing is marked and nothing covered. -/
theorem shadow_new (mem : Nat → BitVec 8) : Shadow (SYMemState.new mem) := by
  have hlive : (SYMemState.new mem).storedCells = [] := segs_liveCells repr_new
  constructor
  · exact repr_liveCells repr_new
  · intro b _
    rw [hlive]
    exact iff_of_false (SYMemBitmap.not_marked_new b) (covered_nil _)

/-- Marking cell by cell marks what the cells cover. -/
theorem marked_markCells (L : List (Segment Expr)) (B : SYMemBitmap)
    (h : ∀ x ∈ L, Canonical x.addr x.stop) {b : Nat} (hb : b < 2 ^ 64) :
    (SYMemState.markCells B L).Marked b ↔ B.Marked b ∨ Covered L (toInt64 b) := by
  induction L generalizing B with
  | nil => simp [SYMemState.markCells]
  | cons x xs ih =>
    have hx : Canonical x.addr (x.addr + x.size) := h x (by simp)
    rw [SYMemState.markCells, ih _ fun y hy => h y (by simp [hy]),
      SYMemBitmap.marked_markSYMemBitmap B (toUlong_range hx) (noWrap_of_canonical hx),
      mem_toUlong_range hx hb, covered_cons, or_assoc]
    rfl

/-! ## Accesses -/

/-- One access. -/
inductive MemOp where
  | read (v : MemValue)
  | write (v : MemValue)

/-- The state and the result after an access. -/
def MemOp.apply : MemOp → SYMemState → Option (Bool × SYMemState)
  | .read v, st => (st.readMemoryCell v).map fun (ok, _, st) => (ok, st)
  | .write v, st => st.writeMemoryCell v

/-- What the callers keep to. -/
def MemOp.Admissible : MemOp → Prop
  | .read v => AccessRange v.addr v.size
  | .write v =>
    AccessRange v.addr v.size ∧ (v.bsym → v.isSymList → ReadForm v.size v.symcellPtr)

/-- No old cell reaches into the range of a written list before its first or
behind its last cell. -/
def MemOp.GapFree (st : SYMemState) : MemOp → Prop
  | .read _ => True
  | .write v => v.bsym → v.isSymList →
      ∀ b : Int, toInt64 v.addr ≤ b ∧ b < toInt64 v.addr + v.size →
        Covered st.storedCells b →
        toInt64 v.addr + start v.symcellPtr ≤ b ∧ b < toInt64 v.addr + finish v.symcellPtr

/-! ## What the writes do -/

/-- An access inside a 16-byte line is inside a chunk. -/
theorem AccessRange.not_crossesChunk {addr size : Nat} (hr : AccessRange addr size)
    (h : SYMemState.insideHalfChunk addr size = true) :
    SYMemState.crossesChunk addr size = false := by
  have hw := hr.noWrap
  unfold SYMemBitmap.NoWrap at hw
  simp only [SYMemState.insideHalfChunk, decide_eq_true_eq] at h
  simp only [SYMemState.crossesChunk, decide_eq_false_iff_not]
  omega

/-- An expression that was written lies in a 16-byte line, as is asserted. -/
theorem insideHalf_of_expr {st st' : SYMemState} {addr size : Nat} {e : Expr}
    (hw : st.writeSymbolicExpr addr size e = some (true, st')) :
    SYMemState.insideHalfChunk addr size = true := by
  rw [SYMemState.writeSymbolicExpr] at hw
  split at hw
  · simp at hw
  · split at hw
    · assumption
    · simp at hw

/-- So does a list. -/
theorem insideHalf_of_list {st st' : SYMemState} {addr size : Nat}
    {cells : List (Segment Expr)}
    (hw : st.writeSymbolicList addr size cells = some (true, st')) :
    SYMemState.insideHalfChunk addr size = true := by
  rw [SYMemState.writeSymbolicList] at hw
  split at hw
  · simp at hw
  · split at hw
    · assumption
    · simp at hw

/-- A single cell over the range of an access lies in it. -/
theorem singleton_inside (addr size : Nat) (e : Expr) :
    ∀ x ∈ ([⟨toInt64 addr, size, e⟩] : List (Segment Expr)),
      toInt64 addr ≤ x.addr ∧ x.stop ≤ toInt64 addr + size := by
  intro x hx
  rw [List.mem_singleton.1 hx]
  exact ⟨le_refl _, le_refl _⟩

namespace SymbolListMap.Repr

variable {st : SYMemState} {ps : List Nat} {addr size : Nat}

/-- An expression is laid over its range. -/
theorem writeSymbolicExpr_spec (h : Repr st.allSymbolList ps) (hr : AccessRange addr size)
    (hin : SYMemState.insideHalfChunk addr size = true) (e : Expr) :
    ∃ m' ps', st.writeSymbolicExpr addr size e = some (true,
        { st with bitmap := (st.bitmap.markSYMemBitmap addr size).2, allSymbolList := m' }) ∧
      Repr m' ps' ∧
      m'.segs ps' = splice cutExpr (toInt64 addr) (toInt64 addr + size)
        [⟨toInt64 addr, size, e⟩] (st.allSymbolList.segs ps) := by
  have hpos := hr.pos
  let src : List (Segment Expr) := [⟨toInt64 addr, size, e⟩]
  have hsort : Sorted src := sorted_cons.2 ⟨hpos, Sorted.nil, by simp⟩
  obtain ⟨m', ps', hm', hrepr, hsegs⟩ := h.mergeList_spec (show src ≠ [] by simp [src])
    hsort hr.canonical
  refine ⟨m', ps', ?_, hrepr, hsegs⟩
  rw [SYMemState.writeSymbolicExpr, hr.not_crossesChunk hin, hin]
  simp only [src] at hm'
  simp only [Bool.false_eq_true, if_false, if_true, hm', Option.bind_eq_bind, Option.bind_some]
  rfl

/-- A cell list replaces what lies from its first to its last cell. -/
theorem writeSymbolicList_spec (h : Repr st.allSymbolList ps) (hr : AccessRange addr size)
    (hin : SYMemState.insideHalfChunk addr size = true) {cells : List (Segment Expr)}
    (hform : ReadForm size cells) :
    ∃ m' ps', st.writeSymbolicList addr size cells = some (true,
        { st with
          bitmap := SYMemState.markCells (st.bitmap.unmarkSYMemBitmap addr size)
            (cells.map (Segment.shift (-toInt64 addr)))
          allSymbolList := m' }) ∧
      Repr m' ps' ∧
      m'.segs ps' = splice cutExpr (start (cells.map (Segment.shift (-toInt64 addr))))
        (finish (cells.map (Segment.shift (-toInt64 addr))))
        (cells.map (Segment.shift (-toInt64 addr))) (st.allSymbolList.segs ps) := by
  have hends := start_finish_inside (hform.shift_ne (toInt64 addr))
    (hform.shift_inside (toInt64 addr))
  obtain ⟨m', ps', hm', hrepr, hsegs⟩ := h.mergeList_spec (hform.shift_ne (toInt64 addr))
    (hform.sorted.shift _) (hr.canonical.mono hends.1 hends.2)
  refine ⟨m', ps', ?_, hrepr, hsegs⟩
  rw [SYMemState.writeSymbolicList, hr.not_crossesChunk hin, hin]
  simp only [Bool.false_eq_true, if_false, if_true, hm', Option.bind_eq_bind, Option.bind_some]
  rfl

/-- A concrete value takes its range out of the shadow. -/
theorem writeMemoryCell_concrete (h : Repr st.allSymbolList ps) {v : MemValue}
    (hwidth : isAccessSize v.size = true)
    (hsearch : Searchable (toInt64 v.addr) (toInt64 v.addr + v.size)) (hsym : v.bsym = false) :
    ∃ m' ps', st.writeMemoryCell v = some (true,
        { st with
          bitmap := st.bitmap.unmarkSYMemBitmap v.addr v.size
          allSymbolList := m'
          concrete := storeBytes st.concrete v.addr v.size v.i64 }) ∧
      Repr m' ps' ∧
      m'.segs ps' = splice cutExpr (toInt64 v.addr) (toInt64 v.addr + v.size) []
        (st.allSymbolList.segs ps) := by
  have hpos : 0 < v.size := by
    simp only [isAccessSize, Bool.or_eq_true, decide_eq_true_eq] at hwidth
    omega
  obtain ⟨m', ps', hm', hrepr, hsegs⟩ := h.remove_spec hsearch hpos
  refine ⟨m', ps', ?_, hrepr, hsegs⟩
  rw [SYMemState.writeMemoryCell, hsym]
  simp only [Bool.false_eq_true, if_false, hm', Option.bind_eq_bind, Option.bind_some,
    SYMemState.writeConcreteValue, hwidth, if_true]
  rfl

end SymbolListMap.Repr

/-- A concrete write is no part of the shadow. -/
theorem SYMemState.writeConcreteValue_shadow (st : SYMemState) (addr size : Nat)
    (v : BitVec 64) :
    (st.writeConcreteValue addr size v).2.bitmap = st.bitmap ∧
      (st.writeConcreteValue addr size v).2.allSymbolList = st.allSymbolList := by
  rw [writeConcreteValue]
  split <;> exact ⟨rfl, rfl⟩

/-- A symbolic write comes after a concrete one. -/
theorem SYMemState.writeMemoryCell_expr (st : SYMemState) {v : MemValue} (hsym : v.bsym = true)
    (hlist : v.isSymList = false) :
    st.writeMemoryCell v
      = (st.writeConcreteValue v.addr v.size v.i64).2.writeSymbolicExpr v.addr v.size v.expr := by
  rw [writeMemoryCell, hsym, hlist]
  rfl

/-- A list is written behind the concrete bytes of the value. -/
theorem SYMemState.writeMemoryCell_list (st : SYMemState) {v : MemValue} (hsym : v.bsym = true)
    (hlist : v.isSymList = true) :
    st.writeMemoryCell v
      = (st.writeConcreteValue v.addr v.size v.i64).2.writeSymbolicList v.addr v.size
          v.symcellPtr := by
  rw [writeMemoryCell, hsym, hlist]
  rfl

namespace Shadow

variable {st st' : SYMemState} {addr size : Nat}

/-- The invariant is about the bitmap and the symbol list only. -/
theorem of_same (h : Shadow st) (hb : st'.bitmap = st.bitmap)
    (hm : st'.allSymbolList = st.allSymbolList) : Shadow st' := by
  have hcells : st'.storedCells = st.storedCells := by
    unfold SYMemState.storedCells
    rw [hm]
  constructor
  · rw [hm]
    exact h.repr
  · rw [SYMemState.Agrees, hb, hcells]
    exact h.agrees

/-- Coverage after the range of an access was replaced. -/
theorem covered_range {L src : List (Segment Expr)} (hr : AccessRange addr size)
    (hin : ∀ x ∈ src, toInt64 addr ≤ x.addr ∧ x.stop ≤ toInt64 addr + size) {b : Nat}
    (hb : b < 2 ^ 64) :
    Covered (splice cutExpr (toInt64 addr) (toInt64 addr + size) src L) (toInt64 b)
      ↔ if addr ≤ b ∧ b < addr + size then Covered src (toInt64 b)
        else Covered L (toInt64 b) := by
  have hpos := hr.pos
  rw [covered_splice cutExpr (by omega) hin]
  simp only [hr.mem_iff hb]

/-- Writing an expression keeps the invariant. -/
theorem write_expr (h : Shadow st) (hr : AccessRange addr size) {e : Expr}
    (hw : st.writeSymbolicExpr addr size e = some (true, st')) : Shadow st' := by
  have hin := insideHalf_of_expr hw
  obtain ⟨m', ps', hst, hrepr, hsegs⟩ := h.repr.writeSymbolicExpr_spec hr hin e
  rw [hst] at hw
  obtain rfl := (Prod.mk.inj (Option.some.inj hw)).2
  constructor
  · exact repr_liveCells hrepr
  · intro b hb
    rw [SYMemBitmap.marked_markSYMemBitmap _ hr.le hr.noWrap, SYMemState.storedCells,
      segs_liveCells hrepr, hsegs, covered_range hr (singleton_inside addr size e) hb,
      h.agrees b hb]
    have hcov : Covered [⟨toInt64 addr, size, e⟩] (toInt64 b) ↔ addr ≤ b ∧ b < addr + size := by
      rw [hr.mem_iff hb, covered_cons, or_iff_left (covered_nil _)]
      rfl
    split
    · rename_i hmem
      simp [hcov, hmem]
    · rename_i hmem
      rw [or_iff_left hmem]
      rfl

/-- Writing a concrete value keeps the invariant. -/
theorem write_concrete (h : Shadow st) {v : MemValue} (hr : AccessRange v.addr v.size)
    (hsym : v.bsym = false) (hw : st.writeMemoryCell v = some (true, st')) : Shadow st' := by
  obtain ⟨m', ps', hst, hrepr, hsegs⟩ := h.repr.writeMemoryCell_concrete hr.width hr.searchable hsym
  rw [hst] at hw
  obtain rfl := (Prod.mk.inj (Option.some.inj hw)).2
  constructor
  · exact repr_liveCells hrepr
  · intro b hb
    rw [SYMemBitmap.marked_unmarkSYMemBitmap _ hr.le hr.noWrap, SYMemState.storedCells,
      segs_liveCells hrepr, hsegs, covered_range hr (by simp) hb, h.agrees b hb]
    split
    · rename_i hmem
      simp [hmem]
    · rename_i hmem
      rw [and_iff_left hmem]
      rfl

/-- A write of a list keeps the two in step exactly when no old cell reaches
into its gaps at the two ends. -/
theorem write_list_iff (h : Shadow st) (hr : AccessRange addr size)
    {cells : List (Segment Expr)} (hform : ReadForm size cells)
    (hw : st.writeSymbolicList addr size cells = some (true, st')) :
    Repr st'.allSymbolList st'.allSymbolList.liveCells ∧
      (st'.Agrees ↔ ∀ b : Int, toInt64 addr ≤ b ∧ b < toInt64 addr + size →
        Covered st.storedCells b →
        toInt64 addr + start cells ≤ b ∧ b < toInt64 addr + finish cells) := by
  have hhalf := insideHalf_of_list hw
  obtain ⟨m', ps', hst, hrepr, hsegs⟩ := h.repr.writeSymbolicList_spec hr hhalf hform
  rw [hst] at hw
  obtain rfl := (Prod.mk.inj (Option.some.inj hw)).2
  -- The cells at their addresses, which is how the store keeps them.
  let src := cells.map (Segment.shift (-toInt64 addr))
  have hin : ∀ x ∈ src, toInt64 addr ≤ x.addr ∧ x.stop ≤ toInt64 addr + size :=
    hform.shift_inside (toInt64 addr)
  have hne : src ≠ [] := hform.shift_ne (toInt64 addr)
  have hsort : Sorted src := hform.sorted.shift _
  have hends := start_finish_inside hne hin
  have hlt := hsort.start_lt_finish hne
  have hcanon : ∀ x ∈ src, Canonical x.addr x.stop := fun x hx =>
    hr.canonical.mono (hin x hx).1 (hin x hx).2
  -- the ends of the list, as addresses
  obtain ⟨x, xs, hcells⟩ := List.exists_cons_of_ne_nil hform.ne
  have hstart : start src = toInt64 addr + start cells := by
    have h1 : start src = x.addr - -toInt64 addr := by simp [src, hcells, start]
    have h2 : start cells = x.addr := by simp [hcells, start]
    omega
  have hfinish : finish src = toInt64 addr + finish cells := by
    obtain ⟨ys, y, hys⟩ : ∃ ys y, cells = ys ++ [y] := by
      rcases List.eq_nil_or_concat cells with hnil | ⟨ys, y, hys⟩
      · exact absurd hnil hform.ne
      · exact ⟨ys, y, by rw [hys, List.concat_eq_append]⟩
    have h1 : finish src = y.stop - -toInt64 addr := by simp [src, hys, finish]
    have h2 : finish cells = y.stop := by simp [hys, finish]
    omega
  refine ⟨repr_liveCells hrepr, ?_⟩
  -- what both sides say about one byte
  have hbyte : ∀ b < 2 ^ 64,
      ((SYMemState.markCells (st.bitmap.unmarkSYMemBitmap addr size) src).Marked b
        ↔ Covered (m'.segs m'.liveCells) (toInt64 b))
      ↔ (toInt64 addr ≤ toInt64 b ∧ toInt64 b < toInt64 addr + size →
          Covered st.storedCells (toInt64 b) →
          start src ≤ toInt64 b ∧ toInt64 b < finish src) := by
    intro b hb
    have hwithin : ∀ x ∈ src, start src ≤ x.addr ∧ x.stop ≤ finish src := hsort.within
    rw [marked_markCells src _ hcanon hb, SYMemBitmap.marked_unmarkSYMemBitmap _ hr.le hr.noWrap,
      segs_liveCells hrepr, hsegs]
    show (_ ↔ Covered (splice cutExpr (start src) (finish src) src _) _) ↔ _
    rw [covered_splice cutExpr (le_of_lt hlt) hwithin, hr.mem_iff hb, h.agrees b hb]
    by_cases hmid : start src ≤ toInt64 b ∧ toInt64 b < finish src
    · -- between the ends the new list decides on both sides
      have hmem : toInt64 addr ≤ toInt64 b ∧ toInt64 b < toInt64 addr + size := by omega
      simp [hmid, hmem]
    · have hout : ¬ Covered src (toInt64 b) := by
        rintro ⟨y, hy, hy1, hy2⟩
        have hyin := hwithin y hy
        omega
      rw [if_neg hmid, or_iff_left hout]
      show (_ ∧ _ ↔ Covered st.storedCells (toInt64 b)) ↔ _
      tauto
  rw [← hstart, ← hfinish]
  constructor
  · intro hagree b hb hcov
    have hb64 : toUlong b < 2 ^ 64 ∧ toInt64 (toUlong b) = b := by
      have hcan := hr.canonical
      unfold Canonical at hcan
      unfold toInt64 toUlong
      -- Every address of the range is an unsigned one below 2^64, so the two quantifiers range
      -- alike.
      constructor
      · omega
      · split <;> omega
    have hiff := (hbyte (toUlong b) hb64.1).1 (hagree (toUlong b) hb64.1)
    rw [hb64.2] at hiff
    exact hiff hb hcov
  · intro hgap b hb
    exact (hbyte b hb).2 (hgap (toInt64 b))

/-- A symbolic byte of a range is a covered one. -/
theorem covered_of_test (h : Shadow st) (hr : AccessRange addr size)
    (ht : st.bitmap.testSYMemBitmap addr size = true) :
    ∃ b, toInt64 addr ≤ b ∧ b < toInt64 addr + size ∧ Covered st.storedCells b := by
  obtain ⟨b, hb, hm⟩ := (SYMemBitmap.testSYMemBitmap_iff _ hr.le hr.pos hr.noWrap).1 ht
  have hle := hr.le
  have hb64 : b < 2 ^ 64 := by omega
  have hmem := (hr.mem_iff hb64).1 hb
  exact ⟨toInt64 b, hmem.1, hmem.2, (h.agrees b hb64).1 hm⟩

/-- A read leaves the shadow as it is. -/
theorem read (h : Shadow st) {v w : MemValue} (hr : AccessRange v.addr v.size)
    (hread : st.readMemoryCell v = some (true, w, st')) : Shadow st' := by
  rw [SYMemState.readMemoryCell] at hread
  split at hread
  · rename_i hsym
    have hcov := h.covered_of_test hr hsym
    split at hread
    · -- as a cell list
      rw [SYMemState.readSymbolicList] at hread
      obtain ⟨m', hm', hrepr, hsame, -⟩ := h.repr.cellList_spec hr.searchable hcov
      split at hread
      · simp at hread
      · split at hread
        · simp only [hm', Option.bind_eq_bind, Option.bind_some] at hread
          obtain rfl := (Prod.mk.inj (Prod.mk.inj (Option.some.inj hread)).2).2
          refine ⟨repr_liveCells hrepr, fun b hb => ?_⟩
          rw [SYMemState.storedCells, segs_liveCells hrepr, hsame]
          exact h.agrees b hb
        · simp at hread
    · -- as an expression
      rw [SYMemState.readSymbolicExpr] at hread
      obtain ⟨m', e, hm', -, hrepr, hsame⟩ := h.repr.getExpr_spec
        (((readConcrete st.concrete v.addr v.size)).getD 0) hr.searchable hcov
      split at hread
      · simp at hread
      · split at hread
        · simp only [readConcrete, hr.width, if_true, Option.getD_some] at hm' hread
          simp only [hm', Option.bind_eq_bind, Option.bind_some] at hread
          obtain rfl := (Prod.mk.inj (Prod.mk.inj (Option.some.inj hread)).2).2
          refine ⟨repr_liveCells hrepr, fun b hb => ?_⟩
          rw [SYMemState.storedCells, segs_liveCells hrepr, hsame]
          exact h.agrees b hb
        · simp at hread
  · obtain rfl := (Prod.mk.inj (Prod.mk.inj (Option.some.inj hread)).2).2
    exact h

end Shadow

/-- One admissible access that returns true keeps the invariant when it is
free of gaps. -/
theorem Shadow.apply {st st' : SYMemState} (h : Shadow st) {op : MemOp} (hop : op.Admissible)
    (hgap : op.GapFree st) (hstep : op.apply st = some (true, st')) : Shadow st' := by
  -- A read leaves the cells; a concrete write clears them; a symbolic one marks what it stores.
  cases op with
  | read v =>
    obtain ⟨⟨ok, w, st₁⟩, hread, heq⟩ := Option.map_eq_some_iff.1 hstep
    obtain ⟨rfl, rfl⟩ := Prod.mk.inj heq
    exact h.read hop hread
  | write v =>
    obtain ⟨hr, hform⟩ := hop
    rw [MemOp.apply] at hstep
    cases hsym : v.bsym with
    | false => exact h.write_concrete hr hsym hstep
    | true =>
      -- the concrete value is written first and is no part of the shadow
      have hsame := st.writeConcreteValue_shadow v.addr v.size v.i64
      have h₁ : Shadow (st.writeConcreteValue v.addr v.size v.i64).2 :=
        h.of_same hsame.1 hsame.2
      have hcells : (st.writeConcreteValue v.addr v.size v.i64).2.storedCells
          = st.storedCells := by
        rw [SYMemState.storedCells, hsame.2]
        rfl
      cases hlist : v.isSymList with
      | false =>
        rw [st.writeMemoryCell_expr hsym hlist] at hstep
        exact h₁.write_expr hr hstep
      | true =>
        rw [st.writeMemoryCell_list hsym hlist] at hstep
        obtain ⟨hrepr, hiff⟩ := h₁.write_list_iff hr (hform hsym hlist) hstep
        rw [hcells] at hiff
        exact ⟨hrepr, hiff.2 (hgap hsym hlist)⟩

/-! ## Runs -/

/-- One step of a run: an admissible access that meets `ok` and returns
true. -/
def MemStep (ok : SYMemState → MemOp → Prop) (st st' : SYMemState) : Prop :=
  ∃ op : MemOp, op.Admissible ∧ ok st op ∧ op.apply st = some (true, st')

/-- The states that runs from the empty shadow reach. -/
def MemReachable (ok : SYMemState → MemOp → Prop) (st : SYMemState) : Prop :=
  ∃ mem, Relation.ReflTransGen (MemStep ok) (SYMemState.new mem) st

/-- In every state of a run whose list writes leave no old cell in their gaps, a byte is
marked exactly when it is covered. A list write clears the marks of its whole range and
merges from its first to its last cell. An old cell that lies in the rest of the range stays
in the store and has no mark; where there is none, the write keeps the agreement. -/
theorem agrees_of_run {st : SYMemState} (h : MemReachable (fun st op => op.GapFree st) st) :
    st.Agrees := by
  obtain ⟨mem, hrun⟩ := h
  have hinv : Shadow st := by
    induction hrun with
    | refl => exact shadow_new mem
    | tail _ hstep ih =>
      obtain ⟨op, hop, hgap, hst⟩ := hstep
      exact ih.apply hop hgap hst
  exact hinv.agrees

/-- An 8-byte expression at `0x1000`. -/
def exprWrite : MemValue :=
  ⟨0x1000, 8, true, false, 0, Expr.constExpr 0 8, []⟩

/-- A list of one cell that covers the middle of the same 8 bytes. -/
def gapWrite : MemValue :=
  ⟨0x1000, 8, true, true, 0, .null, [⟨2, 2, Expr.constExpr 0 2⟩]⟩

/-- The range of the first write is one of an access. -/
theorem exprWrite_range : AccessRange exprWrite.addr exprWrite.size :=
  ⟨by decide, by decide, Or.inr (by decide)⟩

/-- The list with a gap at both ends is one that can be read. -/
theorem gapWrite_form : ReadForm gapWrite.size gapWrite.symcellPtr := by
  constructor
  · simp [gapWrite]
  · exact sorted_cons.2 ⟨by decide, Sorted.nil, by simp⟩
  · intro x hx
    rw [List.mem_singleton.1 hx]
    decide

/-- The state after the expression is written to an empty shadow. -/
theorem exists_exprWrite : ∃ st, Shadow st ∧
    (MemOp.write exprWrite).apply (SYMemState.new fun _ => 0) = some (true, st) ∧
    st.storedCells = [⟨0x1000, 8, Expr.constExpr 0 8⟩] := by
  have hnew := shadow_new fun _ => 0
  have hsame := (SYMemState.new fun _ => 0).writeConcreteValue_shadow 0x1000 8 0
  have h₁ : Shadow ((SYMemState.new fun _ => 0).writeConcreteValue 0x1000 8 0).2 :=
    hnew.of_same hsame.1 hsame.2
  obtain ⟨m', ps', hst, hrepr, hsegs⟩ :=
    h₁.repr.writeSymbolicExpr_spec exprWrite_range (by decide) (Expr.constExpr 0 8)
  have hempty : SymbolListMap.new.segs SymbolListMap.new.liveCells = [] :=
    segs_liveCells repr_new
  refine ⟨_, h₁.write_expr exprWrite_range hst, hst, ?_⟩
  show m'.segs m'.liveCells = _
  rw [segs_liveCells hrepr, hsegs, hsame.2]
  show splice cutExpr _ _ _ (SymbolListMap.new.segs SymbolListMap.new.liveCells) = _
  rw [hempty]
  rfl

/-- A list of two cells that begins and ends with the same 8 bytes, with a gap between. -/
def endsWrite : MemValue :=
  ⟨0x1000, 8, true, true, 0, .null,
    [⟨0, 2, Expr.constExpr 1 2⟩, ⟨6, 2, Expr.constExpr 2 2⟩]⟩

/-- So is the list that reaches both ends. -/
theorem endsWrite_form : ReadForm endsWrite.size endsWrite.symcellPtr := by
  constructor
  · simp [endsWrite]
  · exact sorted_cons.2 ⟨by decide, sorted_cons.2 ⟨by decide, Sorted.nil, by simp⟩, by decide⟩
  · intro x hx
    have hmem : x = ⟨0, 2, Expr.constExpr 1 2⟩ ∨ x = ⟨6, 2, Expr.constExpr 2 2⟩ := by
      simpa [endsWrite] using hx
    rcases hmem with rfl | rfl <;> decide

/-- A run that writes the expression and then the list over it. The gap lies between the new
cells, so no byte of it stays covered. -/
theorem agrees_of_run_listWrite : ∃ st st',
    (MemOp.write exprWrite).apply (SYMemState.new fun _ => 0) = some (true, st) ∧
      (MemOp.write endsWrite).apply st = some (true, st') ∧ st'.Agrees := by
  obtain ⟨st, h, hst, -⟩ := exists_exprWrite
  have hsame := st.writeConcreteValue_shadow 0x1000 8 0
  have h₁ : Shadow (st.writeConcreteValue 0x1000 8 0).2 := h.of_same hsame.1 hsame.2
  have hwrite : ∃ st', (MemOp.write endsWrite).apply st = some (true, st') := by
    obtain ⟨m', ps', hst', -, -⟩ :=
      h₁.repr.writeSymbolicList_spec exprWrite_range (by decide) endsWrite_form
    exact ⟨_, hst'⟩
  obtain ⟨st', hst'⟩ := hwrite
  have hexpr : MemStep (fun st op => op.GapFree st) (SYMemState.new fun _ => 0) st := by
    refine ⟨.write exprWrite, ⟨exprWrite_range, ?_⟩, ?_, hst⟩
    · intro _ hlist
      exact absurd hlist (by decide)
    · intro _ hlist
      exact absurd hlist (by decide)
  have hlist : MemStep (fun st op => op.GapFree st) st st' := by
    refine ⟨.write endsWrite, ⟨exprWrite_range, fun _ _ => endsWrite_form⟩, ?_, hst'⟩
    -- the cells begin and end where the access does
    intro _ _ b hb _
    have hends : start endsWrite.symcellPtr = 0 ∧ finish endsWrite.symcellPtr = 8 := by decide
    rw [hends.1, hends.2]
    have hsize : (endsWrite.size : Int) = 8 := rfl
    omega
  exact ⟨st, st', hst, hst', agrees_of_run ⟨_, .tail (.single hexpr) hlist⟩⟩

/-- Writing the list over the expression leaves bytes that are covered and not marked. They
lie between the end of the list and that of the range. -/
theorem not_agrees_gapWrite : ∃ st st',
    (MemOp.write exprWrite).apply (SYMemState.new fun _ => 0) = some (true, st) ∧
      (MemOp.write gapWrite).apply st = some (true, st') ∧ ¬ st'.Agrees := by
  obtain ⟨st, h, hst, hcells⟩ := exists_exprWrite
  have hsame := st.writeConcreteValue_shadow 0x1000 8 0
  have h₁ : Shadow (st.writeConcreteValue 0x1000 8 0).2 := h.of_same hsame.1 hsame.2
  obtain ⟨m', ps', hst', -, -⟩ :=
    h₁.repr.writeSymbolicList_spec exprWrite_range (by decide) gapWrite_form
  refine ⟨st, _, hst, hst', fun hagree => ?_⟩
  have hgap := (h₁.write_list_iff exprWrite_range gapWrite_form hst').2.1 hagree 0x1000
    (by decide)
  rw [SYMemState.storedCells, hsame.2] at hgap
  have hcov : Covered st.storedCells 0x1000 := by
    rw [hcells]
    exact (covered_cons _ _ _).2 (Or.inl ⟨by decide, by decide⟩)
  exact absurd (hgap hcov).1 (by decide)

end KRover
