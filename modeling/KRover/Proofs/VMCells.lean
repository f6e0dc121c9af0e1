import KRover.Proofs.ExprLaw
import KRover.Proofs.RegShadow
import KRover.Oprand

/-! # What the accesses of the handlers do to the cells

The invariant of a state of the machine: the symbol lists are well formed, and
what the bitmaps mark is covered. It is kept by every read and write, also by
those that leave covered bytes unmarked. A read leaves bitmaps, cells and
concrete values alone, and a write lays its cells over the old ones.

* `MemCells.write`, `MemCells.read`: the accesses to the memory;
* `VMShape.readRegister` and its like: the accesses of the machine;
* `CellsHold.writeRegister` and its like: a property that obeys `ExprLaw` stays
  with all cells when it holds of those that are written.
-/

set_option autoImplicit false

namespace KRover

open Segments SymbolListMap

/-! ## Memory -/

/-- The range of an access that the memory is there for. -/
theorem accessRange_of_mapped {addr size : Nat} (hwidth : isAccessSize size = true)
    (h : VMState.mapped addr size = true) : AccessRange addr size := by
  have hs := hwidth
  simp only [isAccessSize, Bool.or_eq_true, decide_eq_true_eq] at hs
  simp only [VMState.mapped, Bool.or_eq_true, Bool.and_eq_true, decide_eq_true_eq] at h
  refine ⟨hwidth, by omega, ?_⟩
  unfold Canonical toInt64
  split <;> omega

/-- The memory is there for the range of an access. -/
theorem AccessRange.mapped {addr n : Nat} (hr : AccessRange addr n) :
    VMState.mapped addr n = true := by
  have hc := hr.canonical
  have hb := hr.bound
  simp only [VMState.mapped, Bool.or_eq_true, Bool.and_eq_true, decide_eq_true_eq]
  unfold Canonical toInt64 at hc
  split at hc <;> omega

/-- The symbol list is well formed, and what the bitmap marks is covered. -/
structure MemCells (st : SYMemState) : Prop where
  repr : Repr st.allSymbolList st.allSymbolList.liveCells
  marked : ∀ b < 2 ^ 64, st.bitmap.Marked b → Covered st.storedCells (toInt64 b)

/-- New memory has no cells. -/
theorem memCells_new (mem : Nat → BitVec 8) : MemCells (SYMemState.new mem) where
  repr := (shadow_new mem).repr
  marked b hb hm := ((shadow_new mem).agrees b hb).1 hm

/-- The cells that a write lays over the memory. -/
def MemValue.newCells (V : MemValue) : List (Segment Expr) :=
  if V.bsym then
    if V.isSymList then V.symcellPtr.map (Segment.shift (-toInt64 V.addr))
    else [⟨toInt64 V.addr, V.size, V.expr⟩]
  else []

/-- The cells of an access, those at its ends cut, at offsets from its
address. -/
def SYMemState.memWindow (st : SYMemState) (addr size : Nat) : List (Segment Expr) :=
  (window cutExpr (toInt64 addr) (toInt64 addr + size) st.storedCells).map
    (Segment.shift (toInt64 addr))

/-- The value that a read returns. -/
def SYMemState.valueRead (st : SYMemState) (V : MemValue) : MemValue :=
  let v := (readConcrete st.concrete V.addr V.size).getD V.i64
  if st.isSYMemoryCell V.addr V.size then
    if V.isSymList then
      { V with bsym := true, i64 := v, symcellPtr := st.memWindow V.addr V.size }
    else
      { V with
        bsym := true
        i64 := v
        expr := (exprOfCells v V.size (st.memWindow V.addr V.size)).getD .null }
  else { V with bsym := false, isSymList := false, i64 := v }

namespace MemCells

variable {st st' : SYMemState} {V : MemValue}

/-- A state with the same cells and no new marks. -/
theorem congr (h : MemCells st) (hm : st'.allSymbolList = st.allSymbolList)
    (hb : st'.bitmap = st.bitmap) : MemCells st' := by
  have hcells : st'.storedCells = st.storedCells := by
    unfold SYMemState.storedCells
    rw [hm]
  constructor
  · rw [hm]
    exact h.repr
  · rw [hb, hcells]
    exact h.marked

/-- The invariant after a part of the range of an access was replaced. A byte
outside the range keeps its mark, and one inside is marked with a new cell
only. -/
theorem of_splice (h : MemCells st) {addr size : Nat} (hr : AccessRange addr size)
    {s e : Int} {src : List (Segment Expr)} (hse : s ≤ e) (hs : toInt64 addr ≤ s)
    (he : e ≤ toInt64 addr + size) (hsrc : ∀ x ∈ src, s ≤ x.addr ∧ x.stop ≤ e)
    {m : SymbolListMap} {ps : List Nat} (hrepr : Repr m ps)
    (hsegs : m.segs ps = splice cutExpr s e src st.storedCells)
    (hlist : st'.allSymbolList = m)
    (hmarks : ∀ b < 2 ^ 64, st'.bitmap.Marked b →
      Covered src (toInt64 b) ∨ (st.bitmap.Marked b ∧ ¬ (addr ≤ b ∧ b < addr + size))) :
    MemCells st' := by
  constructor
  · rw [hlist]
    exact repr_liveCells hrepr
  · intro b hb hmark
    rw [SYMemState.storedCells, hlist, segs_liveCells hrepr, hsegs,
      covered_splice cutExpr hse hsrc]
    rcases hmarks b hb hmark with hnew | ⟨hold, hout⟩
    · obtain ⟨x, hx, hx1, hx2⟩ := hnew
      have hin := hsrc x hx
      rw [if_pos (by omega)]
      exact ⟨x, hx, hx1, hx2⟩
    · rw [hr.mem_iff hb] at hout
      rw [if_neg (by omega)]
      exact h.marked b hb hold

/-- A write that returns true lays its cells over the old ones. -/
theorem write (h : MemCells st) (hr : AccessRange V.addr V.size)
    (hform : V.bsym = true → V.isSymList = true → ReadForm V.size V.symcellPtr)
    (hw : st.writeMemoryCell V = some (true, st')) :
    MemCells st' ∧ ∃ s e, st'.storedCells = splice cutExpr s e V.newCells st.storedCells := by
  have hpos := hr.pos
  -- A concrete write clears its range; a symbolic one lays cells over it.
  cases hsym : V.bsym with
  | false =>
    obtain ⟨m', ps', hst, hrepr, hsegs⟩ :=
      h.repr.writeMemoryCell_concrete hr.width hr.searchable hsym
    rw [hst] at hw
    obtain rfl := (Prod.mk.inj (Option.some.inj hw)).2
    refine ⟨h.of_splice hr (by omega) (le_refl _) (le_refl _) (by simp) hrepr hsegs rfl ?_,
      toInt64 V.addr, toInt64 V.addr + V.size, ?_⟩
    · intro b _ hmark
      exact Or.inr ((SYMemBitmap.marked_unmarkSYMemBitmap _ hr.le hr.noWrap b).1 hmark)
    · rw [SYMemState.storedCells, segs_liveCells hrepr, hsegs, MemValue.newCells, hsym]
      rfl
  | true =>
    -- the concrete value is written first and is no part of the shadow
    have hsame := st.writeConcreteValue_shadow V.addr V.size V.i64
    have h₁ : MemCells (st.writeConcreteValue V.addr V.size V.i64).2 :=
      h.congr hsame.2 hsame.1
    have hcells : (st.writeConcreteValue V.addr V.size V.i64).2.storedCells
        = st.storedCells := by
      rw [SYMemState.storedCells, hsame.2]
      rfl
    -- An expression is one cell over the range, a list is the cells it brings.
    cases hlist : V.isSymList with
    | false =>
      rw [st.writeMemoryCell_expr hsym hlist] at hw
      obtain ⟨m', ps', hst, hrepr, hsegs⟩ :=
        h₁.repr.writeSymbolicExpr_spec hr (insideHalf_of_expr hw) V.expr
      rw [hst] at hw
      obtain rfl := (Prod.mk.inj (Option.some.inj hw)).2
      refine ⟨h₁.of_splice hr (by omega) (le_refl _) (le_refl _)
        (singleton_inside V.addr V.size V.expr) hrepr hsegs rfl ?_,
        toInt64 V.addr, toInt64 V.addr + V.size, ?_⟩
      · intro b hb hmark
        rcases (SYMemBitmap.marked_markSYMemBitmap _ hr.le hr.noWrap b).1 hmark with hold | hin
        · by_cases hin : V.addr ≤ b ∧ b < V.addr + V.size
          · exact Or.inl ⟨_, List.mem_singleton_self _, (hr.mem_iff hb).1 hin⟩
          · exact Or.inr ⟨hold, hin⟩
        · exact Or.inl ⟨_, List.mem_singleton_self _, (hr.mem_iff hb).1 hin⟩
      · rw [SYMemState.storedCells, segs_liveCells hrepr, hsegs, MemValue.newCells, hsym, hlist,
          ← hcells]
        rfl
    | true =>
      have hread := hform hsym hlist
      rw [st.writeMemoryCell_list hsym hlist] at hw
      obtain ⟨m', ps', hst, hrepr, hsegs⟩ :=
        h₁.repr.writeSymbolicList_spec hr (insideHalf_of_list hw) hread
      rw [hst] at hw
      obtain rfl := (Prod.mk.inj (Option.some.inj hw)).2
      have hin := hread.shift_inside (toInt64 V.addr)
      have hne := hread.shift_ne (toInt64 V.addr)
      have hends := start_finish_inside hne hin
      have hsort := hread.sorted.shift (-toInt64 V.addr)
      have hcanon : ∀ x ∈ V.symcellPtr.map (Segment.shift (-toInt64 V.addr)),
          Canonical x.addr x.stop := fun x hx => hr.canonical.mono (hin x hx).1 (hin x hx).2
      refine ⟨h₁.of_splice hr (le_of_lt (hsort.start_lt_finish hne)) hends.1 hends.2
        hsort.within hrepr hsegs rfl ?_,
        start (V.symcellPtr.map (Segment.shift (-toInt64 V.addr))),
        finish (V.symcellPtr.map (Segment.shift (-toInt64 V.addr))), ?_⟩
      · intro b hb hmark
        rcases (marked_markCells _ _ hcanon hb).1 hmark with hold | hnew
        · exact Or.inr ((SYMemBitmap.marked_unmarkSYMemBitmap _ hr.le hr.noWrap b).1 hold)
        · exact Or.inl hnew
      · rw [SYMemState.storedCells, segs_liveCells hrepr, hsegs, MemValue.newCells, hsym, hlist,
          ← hcells]
        rfl

/-- An expression can be written to any half of a chunk. -/
theorem exists_writeExpr (h : MemCells st) (hr : AccessRange V.addr V.size) (hsym : V.bsym = true)
    (hlist : V.isSymList = false) (hin : SYMemState.insideHalfChunk V.addr V.size = true) :
    ∃ st', st.writeMemoryCell V = some (true, st') ∧ MemCells st' ∧
      st'.storedCells = splice cutExpr (toInt64 V.addr) (toInt64 V.addr + V.size)
        [⟨toInt64 V.addr, V.size, V.expr⟩] st.storedCells ∧
      st'.isSYMemoryCell V.addr V.size = true ∧
      ∀ b, st'.bitmap.Marked b ↔ st.bitmap.Marked b ∨ V.addr ≤ b ∧ b < V.addr + V.size := by
  have hsame := st.writeConcreteValue_shadow V.addr V.size V.i64
  have h₁ : MemCells (st.writeConcreteValue V.addr V.size V.i64).2 := h.congr hsame.2 hsame.1
  obtain ⟨m', ps', hst, hrepr, hsegs⟩ := h₁.repr.writeSymbolicExpr_spec hr hin V.expr
  have hw := (st.writeMemoryCell_expr hsym hlist).trans hst
  have hmarked := SYMemBitmap.marked_markSYMemBitmap
    (st.writeConcreteValue V.addr V.size V.i64).2.bitmap hr.le hr.noWrap
  refine ⟨_, hw, (h.write hr (by simp [hlist]) hw).1, ?_, ?_, fun b => ?_⟩
  · show m'.segs m'.liveCells = _
    rw [segs_liveCells hrepr, hsegs, hsame.2]
    rfl
  · have hpos := hr.pos
    exact (SYMemBitmap.testSYMemBitmap_iff _ hr.le hr.pos hr.noWrap).2
      ⟨V.addr, by omega, (hmarked _).2 (Or.inr (by omega))⟩
  · rw [← hsame.1]
    exact hmarked b

/-- So can a cell list. -/
theorem exists_writeList (h : MemCells st) (hr : AccessRange V.addr V.size) (hsym : V.bsym = true)
    (hlist : V.isSymList = true) (hin : SYMemState.insideHalfChunk V.addr V.size = true)
    (hform : ReadForm V.size V.symcellPtr) :
    ∃ st', st.writeMemoryCell V = some (true, st') := by
  have hsame := st.writeConcreteValue_shadow V.addr V.size V.i64
  have h₁ : MemCells (st.writeConcreteValue V.addr V.size V.i64).2 := h.congr hsame.2 hsame.1
  obtain ⟨m', ps', hst, -, -⟩ := h₁.repr.writeSymbolicList_spec hr hin hform
  exact ⟨_, (st.writeMemoryCell_list hsym hlist).trans hst⟩

/-- A symbolic byte of a range is a covered one. -/
theorem covered_of_test (h : MemCells st) {addr size : Nat} (hr : AccessRange addr size)
    (ht : st.isSYMemoryCell addr size = true) :
    ∃ b, toInt64 addr ≤ b ∧ b < toInt64 addr + size ∧ Covered st.storedCells b := by
  obtain ⟨b, hb, hm⟩ := (SYMemBitmap.testSYMemBitmap_iff _ hr.le hr.pos hr.noWrap).1 ht
  have hle := hr.le
  have hb64 : b < 2 ^ 64 := by omega
  have hmem := (hr.mem_iff hb64).1 hb
  exact ⟨toInt64 b, hmem.1, hmem.2, h.marked b hb64 hm⟩

/-- A read that returns true returns what the cells and the memory say, and
leaves them as they are. -/
theorem read (h : MemCells st) (hr : AccessRange V.addr V.size) {W : MemValue}
    (hread : st.readMemoryCell V = some (true, W, st')) :
    W = st.valueRead V ∧ st'.bitmap = st.bitmap ∧ st'.concrete = st.concrete ∧
      Repr st'.allSymbolList st'.allSymbolList.liveCells ∧
      st'.storedCells = st.storedCells := by
  have hconc : ∃ c, readConcrete st.concrete V.addr V.size = some c := by
    rw [readConcrete, if_pos hr.width]
    exact ⟨_, rfl⟩
  obtain ⟨c, hc⟩ := hconc
  rw [SYMemState.readMemoryCell, hc] at hread
  rw [SYMemState.valueRead, hc]
  show W = (if st.bitmap.testSYMemBitmap V.addr V.size then _ else _) ∧ _
  -- Nothing marked is a read of the concrete bytes.
  cases hsym : st.bitmap.testSYMemBitmap V.addr V.size with
  | false =>
    rw [hsym] at hread
    obtain ⟨-, hval⟩ := Prod.mk.inj (Option.some.inj hread)
    obtain ⟨rfl, rfl⟩ := Prod.mk.inj hval
    exact ⟨rfl, rfl, rfl, h.repr, rfl⟩
  | true =>
    have hcov := h.covered_of_test hr hsym
    rw [hsym] at hread
    -- A symbolic range is handed out as a list or as one expression.
    cases hlist : V.isSymList with
    | true =>
      obtain ⟨m', hm', hrepr, hsame, -⟩ := h.repr.cellList_spec hr.searchable hcov
      simp only [hlist, if_true, Option.getD_some, SYMemState.readSymbolicList] at hread
      split at hread
      · simp at hread
      · split at hread
        · simp only [hm', Option.bind_eq_bind, Option.bind_some] at hread
          obtain ⟨-, hval⟩ := Prod.mk.inj (Option.some.inj hread)
          obtain ⟨rfl, rfl⟩ := Prod.mk.inj hval
          refine ⟨?_, rfl, rfl, repr_liveCells hrepr, ?_⟩
          · simp only [if_true]
            rfl
          · rw [SYMemState.storedCells, segs_liveCells hrepr, hsame]
            rfl
        · simp at hread
    | false =>
      obtain ⟨m', e, hm', he, hrepr, hsame⟩ :=
        h.repr.getExpr_spec c hr.searchable hcov
      simp only [hlist, if_true, Bool.false_eq_true, if_false, Option.getD_some,
        SYMemState.readSymbolicExpr] at hread
      split at hread
      · simp at hread
      · split at hread
        · simp only [hc, hm', Option.bind_eq_bind, Option.bind_some] at hread
          obtain ⟨-, hval⟩ := Prod.mk.inj (Option.some.inj hread)
          obtain ⟨rfl, rfl⟩ := Prod.mk.inj hval
          have he' : exprOfCells c V.size (st.memWindow V.addr V.size) = some e := he
          refine ⟨?_, rfl, rfl, repr_liveCells hrepr, ?_⟩
          · simp only [if_true, Bool.false_eq_true, if_false, Option.getD_some, he']
          · rw [SYMemState.storedCells, segs_liveCells hrepr, hsame]
            rfl
        · simp at hread

end MemCells

/-! ## The machine -/

/-- The invariant of memory and registers. -/
structure VMShape (vm : VMState) : Prop where
  mem : MemCells vm.mem
  cpu : CpuShadow vm.cpu

/-- It reads neither the registers nor the concrete memory. -/
theorem VMShape.congr {vm vm' : VMState} (h : VMShape vm)
    (hbitmap : vm'.mem.bitmap = vm.mem.bitmap)
    (hlist : vm'.mem.allSymbolList = vm.mem.allSymbolList)
    (hsymBitmap : vm'.cpu.symBitmap = vm.cpu.symBitmap)
    (hsymList : vm'.cpu.symList = vm.cpu.symList) : VMShape vm' where
  mem := h.mem.congr hlist hbitmap
  cpu := h.cpu.congr hsymBitmap hsymList

/-- A machine without symbols. -/
theorem vmShape_new (ptRegs : MacReg) (concrete : Nat → BitVec 8) :
    VMShape (VMState.new ptRegs concrete) :=
  ⟨memCells_new concrete, cpuShadow_new ptRegs⟩

/-- A fresh machine in which an object was declared: the bytes of the object are marked and
covered, and no others. -/
theorem exists_declared (ptRegs : MacReg) (concrete : Nat → BitVec 8) {addr size : Nat}
    (hr : AccessRange addr size) (hin : SYMemState.insideHalfChunk addr size = true)
    (isSigned hasSeed : Bool) (conVal : BitVec 64) (name : String) :
    ∃ (vm : VMState) (obj : SYMemObject), (VMState.new ptRegs concrete).createSYMemObject addr size
        isSigned hasSeed conVal name = some (true, vm) ∧ VMShape vm ∧
      vm.cpu = SYCPUState.new ptRegs ∧ obj.size = size ∧
      vm.mem.storedCells = [⟨toInt64 addr, size, Expr.udefExpr (some obj)⟩] ∧
      ∀ b, vm.mem.bitmap.Marked b ↔ addr ≤ b ∧ b < addr + size := by
  let vm₀ := VMState.new ptRegs concrete
  let obj := vm₀.newSYMemObject addr size isSigned hasSeed conVal name
  let V : MemValue := ⟨addr, size, true, false, 0, Expr.udefExpr (some obj), []⟩
  have hnil : (SYMemState.new concrete).storedCells = [] := segs_liveCells repr_new
  obtain ⟨mem, hwrite, hmem, hcells, -, hmarked⟩ :=
    (memCells_new concrete).exists_writeExpr (V := V) hr rfl rfl hin
  refine ⟨{ vm₀.addSYMemObject (hashTogether addr size) obj rfl with mem := mem }, obj, ?_,
    ⟨hmem, cpuShadow_new ptRegs⟩, rfl, rfl, ?_, fun b => ?_⟩
  · show (vm₀.mem.writeMemoryCell V >>= _) = _
    rw [show vm₀.mem.writeMemoryCell V = some (true, mem) from hwrite]
    rfl
  · show mem.storedCells = _
    rw [hcells, hnil]
    rfl
  · exact (hmarked b).trans (or_iff_right (SYMemBitmap.not_marked_new b))

/-- A range tests as symbolic when one of its bytes is marked. -/
theorem isSYMemoryCell_iff_marked {vm : VMState} {addr size : Nat} (hr : AccessRange addr size) :
    vm.mem.isSYMemoryCell addr size = true ↔
      ∃ b, (addr ≤ b ∧ b < addr + size) ∧ vm.mem.bitmap.Marked b :=
  SYMemBitmap.testSYMemBitmap_iff _ hr.le hr.pos hr.noWrap

/-- Bitmaps, cells, concrete values and flags are the same. The heaps of the
symbol lists are not: a read leaves copies of cells behind. -/
structure SameCells (vm vm' : VMState) : Prop where
  ptRegs : vm'.cpu.ptRegs = vm.cpu.ptRegs
  symBitmap : vm'.cpu.symBitmap = vm.cpu.symBitmap
  regCells : vm'.cpu.regCells = vm.cpu.regCells
  bsymFlag : vm'.cpu.bsymFlag = vm.cpu.bsymFlag
  bitmap : vm'.mem.bitmap = vm.mem.bitmap
  storedCells : vm'.mem.storedCells = vm.mem.storedCells
  concrete : vm'.mem.concrete = vm.mem.concrete
  eflagsMgr : vm'.eflagsMgr = vm.eflagsMgr

/-- A state has its own cells. -/
theorem SameCells.refl (vm : VMState) : SameCells vm vm :=
  ⟨rfl, rfl, rfl, rfl, rfl, rfl, rfl, rfl⟩

/-- The same cells twice over are the same. -/
theorem SameCells.trans {vm vm₁ vm₂ : VMState} (h : SameCells vm vm₁) (h' : SameCells vm₁ vm₂) :
    SameCells vm vm₂ where
  ptRegs := h'.ptRegs.trans h.ptRegs
  symBitmap := h'.symBitmap.trans h.symBitmap
  regCells := h'.regCells.trans h.regCells
  bsymFlag := h'.bsymFlag.trans h.bsymFlag
  bitmap := h'.bitmap.trans h.bitmap
  storedCells := h'.storedCells.trans h.storedCells
  concrete := h'.concrete.trans h.concrete
  eflagsMgr := h'.eflagsMgr.trans h.eflagsMgr

/-- A register access that does not fail has the size of the register. -/
theorem encoded_of_readRegister {st : SYCPUState} {V : RegValue}
    {r : Bool × RegValue × SYCPUState} (h : st.readRegister V = some r) : V.Encoded := by
  rw [SYCPUState.readRegister] at h
  cases henc : dyinstEncoding V.indx with
  | none => simp [henc] at h
  | some size =>
    by_cases hne : size ≠ V.size
    · simp [henc, hne] at h
    · show dyinstEncoding V.indx = some V.size
      rw [henc, not_not.1 hne]

/-- A register that was written has an encoding, as the write asserts it. -/
theorem encoded_of_writeRegister {st : SYCPUState} {V : RegValue} {r : Bool × SYCPUState}
    (h : st.writeRegister V = some r) : V.Encoded := by
  rw [SYCPUState.writeRegister] at h
  cases henc : dyinstEncoding V.indx with
  | none => simp [henc] at h
  | some size =>
    by_cases hne : size ≠ V.size
    · simp [henc, hne] at h
    · show dyinstEncoding V.indx = some V.size
      rw [henc, not_not.1 hne]

namespace VMShape

variable {vm vm' : VMState}

/-- A read of a register returns what its cells and its word say. -/
theorem readRegister (h : VMShape vm) {V W : RegValue}
    (hread : vm.readRegister V = some (true, W, vm')) :
    VMShape vm' ∧ SameCells vm vm' ∧ V.Encoded ∧ W = vm.cpu.valueRead V := by
  rw [VMState.readRegister, Option.bind_eq_bind, Option.bind_eq_some_iff] at hread
  obtain ⟨⟨ok, W', cpu⟩, hcpu, hout⟩ := hread
  obtain ⟨rfl, hval⟩ := Prod.mk.inj (Option.some.inj hout)
  obtain ⟨rfl, rfl⟩ := Prod.mk.inj hval
  have henc := encoded_of_readRegister hcpu
  have hshape := h.cpu.readRegister henc hcpu
  obtain ⟨m, hm, -, hsegs⟩ := (h.cpu.word V.indx.offt).read henc
  rw [hm] at hcpu
  obtain ⟨-, hread⟩ := Prod.mk.inj (Option.some.inj hcpu)
  obtain ⟨rfl, rfl⟩ := Prod.mk.inj hread
  refine ⟨⟨h.mem, hshape⟩, ?_, henc, rfl⟩
  have hcells : (vm.cpu.setSymList V.indx.offt m).regCells = vm.cpu.regCells := by
    funext i
    by_cases hi : i = V.indx.offt
    · subst hi
      rw [SYCPUState.regCells, SYCPUState.setSymList]
      simpa using hsegs
    · have hlist : (vm.cpu.setSymList V.indx.offt m).symList i = vm.cpu.symList i :=
        Function.update_of_ne hi _ _
      rw [SYCPUState.regCells, hlist, SYCPUState.regCells]
  exact ⟨rfl, rfl, hcells, rfl, rfl, rfl, rfl, rfl⟩

/-- A read of the memory returns what its cells and its bytes say. -/
theorem readMemory (h : VMShape vm) {V W : MemValue} (hwidth : isAccessSize V.size = true)
    (hread : vm.readMemory V = some (true, W, vm')) :
    VMShape vm' ∧ SameCells vm vm' ∧ AccessRange V.addr V.size ∧ W = vm.mem.valueRead V := by
  rw [VMState.readMemory] at hread
  split at hread
  · rename_i hmapped
    have hr := accessRange_of_mapped hwidth hmapped
    rw [Option.bind_eq_bind, Option.bind_eq_some_iff] at hread
    obtain ⟨⟨ok, W', mem⟩, hmem, hout⟩ := hread
    obtain ⟨rfl, hval⟩ := Prod.mk.inj (Option.some.inj hout)
    obtain ⟨rfl, rfl⟩ := Prod.mk.inj hval
    obtain ⟨rfl, hbitmap, hconc, hrepr, hcells⟩ := h.mem.read hr hmem
    have hshape : MemCells mem := by
      constructor
      · exact hrepr
      · rw [hbitmap, hcells]
        exact h.mem.marked
    exact ⟨⟨hshape, h.cpu⟩, ⟨rfl, rfl, rfl, rfl, hbitmap, hcells, hconc, rfl⟩, hr, rfl⟩
  · simp at hread

end VMShape

/-- The invariant, and a property that holds of every cell. -/
structure VMCells (P : Expr → Nat → Prop) (vm : VMState) : Prop where
  shape : VMShape vm
  memCells : CellsOk P vm.mem.storedCells
  regCells : ∀ i, CellsOk P (vm.cpu.regCells i)

/-- The shape of a state is the case of the property that holds of every expression. -/
theorem VMShape.vmCells {vm : VMState} (h : VMShape vm) : VMCells (fun _ _ => True) vm where
  shape := h
  memCells := fun _ _ => trivial
  regCells := fun _ _ _ => trivial

namespace VMCells

variable {P : Expr → Nat → Prop} {vm vm' : VMState}

/-- The property looks at the cells, so it goes over to a state with the same ones. -/
theorem same (h : VMCells P vm) (hshape : VMShape vm') (hsame : SameCells vm vm') :
    VMCells P vm' := by
  constructor
  · exact hshape
  · rw [hsame.storedCells]
    exact h.memCells
  · rw [hsame.regCells]
    exact h.regCells

/-- A write to a register. -/
theorem writeRegister (hP : ExprLaw P) (h : VMCells P vm) {V : RegValue}
    (hform : V.bsym = true → V.isSymList = true → ReadForm V.size V.symcellPtr)
    (hnew : V.Encoded → CellsOk P V.newCells) (hw : vm.writeRegister V = some (true, vm')) :
    VMCells P vm' ∧ vm'.eflagsMgr = vm.eflagsMgr := by
  rw [VMState.writeRegister, Option.bind_eq_bind, Option.bind_eq_some_iff] at hw
  obtain ⟨⟨ok, cpu⟩, hcpu, hval⟩ := hw
  obtain ⟨rfl, rfl⟩ := Prod.mk.inj (Option.some.inj hval)
  have henc := encoded_of_writeRegister hcpu
  have hV : V.Writable := ⟨henc, hform⟩
  have hshape := h.shape.cpu.writeRegister hV hcpu
  obtain ⟨m, hm, -, hsegs⟩ := (h.shape.cpu.word V.indx.offt).write hV
  rw [hm] at hcpu
  obtain ⟨-, rfl⟩ := Prod.mk.inj (Option.some.inj hcpu)
  refine ⟨⟨⟨h.shape.mem, hshape⟩, h.memCells, ?_⟩, rfl⟩
  intro i
  -- Only the list of the written register is another.
  by_cases hi : i = V.indx.offt
  · subst hi
    have hcells : CellsOk P (m.segs m.liveCells) := by
      rw [hsegs]
      exact hP.splice (h.regCells _) (hnew henc) _ _
    show CellsOk P ((Function.update vm.cpu.symList V.indx.offt m V.indx.offt).segs _)
    simpa using hcells
  · show CellsOk P ((Function.update vm.cpu.symList V.indx.offt m i).segs
      (Function.update vm.cpu.symList V.indx.offt m i).liveCells)
    rw [Function.update_of_ne hi]
    exact h.regCells i

/-- A write to the memory. -/
theorem writeMemory (hP : ExprLaw P) (h : VMCells P vm) {V : MemValue}
    (hwidth : isAccessSize V.size = true)
    (hform : V.bsym = true → V.isSymList = true → ReadForm V.size V.symcellPtr)
    (hnew : CellsOk P V.newCells) (hw : vm.writeMemory V = some (true, vm')) :
    VMCells P vm' ∧ vm'.eflagsMgr = vm.eflagsMgr := by
  rw [VMState.writeMemory] at hw
  split at hw
  · rename_i hmapped
    have hr := accessRange_of_mapped hwidth hmapped
    rw [Option.bind_eq_bind, Option.bind_eq_some_iff] at hw
    obtain ⟨⟨ok, mem⟩, hmem, hval⟩ := hw
    obtain ⟨rfl, rfl⟩ := Prod.mk.inj (Option.some.inj hval)
    obtain ⟨hshape, s, e, hcells⟩ := h.shape.mem.write hr hform hmem
    refine ⟨⟨⟨hshape, h.shape.cpu⟩, ?_, h.regCells⟩, rfl⟩
    show CellsOk P mem.storedCells
    rw [hcells]
    exact hP.splice h.memCells hnew s e
  · simp at hw

/-- The cells that a read of a symbolic register returns. -/
theorem regWindow (hP : ExprLaw P) (h : VMCells P vm) {V : RegValue} (henc : V.Encoded)
    (hsym : vm.isSYReg V.indx = true) :
    ReadForm V.size (vm.cpu.regWindow V) ∧ CellsOk P (vm.cpu.regWindow V) := by
  have hs := henc.size_bounds
  have hword := h.shape.cpu.word V.indx.offt
  have hlt : (0 : Int) < 0 + V.size := by omega
  refine ⟨?_, (hP.window (h.regCells V.indx.offt) hlt).shift 0⟩
  exact ReadForm.window hword.repr.sorted (hword.covered_of_isSYReg henc hsym)

/-- The expression that a read of a symbolic register returns. -/
theorem regExpr (hP : ExprLaw P) (h : VMCells P vm) {V : RegValue} (henc : V.Encoded)
    (hsym : vm.isSYReg V.indx = true) (hlist : V.isSymList = false) :
    P (vm.cpu.valueRead V).expr V.size := by
  obtain ⟨hform, hcells⟩ := h.regWindow hP henc hsym
  have hcpu : vm.cpu.isSYReg V.indx = true := hsym
  obtain ⟨e, he⟩ := exprOfCells_isSome (vm.cpu.readConcreteValue V.indx V.size V.i64) V.size
    hform.ne
  rw [SYCPUState.valueRead, hcpu, hlist]
  show P ((SymbolListMap.exprOfCells _ V.size (vm.cpu.regWindow V)).getD .null) V.size
  rw [he]
  exact hP.exprOfCells hform.sorted hform.inside hcells he

/-- The cells that a read of symbolic memory returns. -/
theorem memWindow (hP : ExprLaw P) (h : VMCells P vm) {addr size : Nat}
    (hr : AccessRange addr size) (hsym : vm.mem.isSYMemoryCell addr size = true) :
    ReadForm size (vm.mem.memWindow addr size) ∧ CellsOk P (vm.mem.memWindow addr size) := by
  have hpos := hr.pos
  have hlt : toInt64 addr < toInt64 addr + size := by omega
  refine ⟨?_, (hP.window h.memCells hlt).shift _⟩
  exact ReadForm.window h.shape.mem.repr.sorted (h.shape.mem.covered_of_test hr hsym)

/-- The expression that a read of symbolic memory returns. -/
theorem memExpr (hP : ExprLaw P) (h : VMCells P vm) {V : MemValue} (hr : AccessRange V.addr V.size)
    (hsym : vm.mem.isSYMemoryCell V.addr V.size = true) (hlist : V.isSymList = false) :
    P (vm.mem.valueRead V).expr V.size := by
  obtain ⟨hform, hcells⟩ := h.memWindow hP hr hsym
  obtain ⟨e, he⟩ := exprOfCells_isSome
    ((readConcrete vm.mem.concrete V.addr V.size).getD V.i64) V.size hform.ne
  rw [SYMemState.valueRead, hsym, hlist]
  show P ((SymbolListMap.exprOfCells _ V.size (vm.mem.memWindow V.addr V.size)).getD .null) V.size
  rw [he]
  exact hP.exprOfCells hform.sorted hform.inside hcells he

end VMCells

end KRover
