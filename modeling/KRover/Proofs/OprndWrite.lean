import KRover.Proofs.BinaryStep
import KRover.Proofs.MovStep

/-! # Writing an operand and reading it back

What a handler puts into an operand is what the next instruction reads there:
an expression as it is (`exists_setSymValue`), a concrete value as the bytes of
the register (`exists_setConValue`). A write to one register leaves every other
one alone (`RegKept`).
-/

set_option autoImplicit false

namespace KRover

open Segments BvTerm SymbolListMap

/-! ## Places -/

/-- `mem_conaddr`. -/
def OprndInfo.memConaddr (oi : OprndInfo) : Option Nat :=
  match oi.opty with
  | .memCell addr => some addr
  | .memCellCon addr _ => some addr
  | .memCellSym addr _ => some addr
  | _ => none

/-- An operand that a result can be put into: a register the engine knows, or
memory inside a line of 16 bytes. -/
inductive OprndInfo.Place (oi : OprndInfo) : Prop where
  | register (r : MachRegister) (hindex : oi.regIndex = some r)
      (henc : dyinstEncoding r = some oi.size)
  | memory (addr : Nat) (haddr : oi.memConaddr = some addr) (hr : AccessRange addr oi.size)
      (hline : addr % 16 + oi.size ≤ 16)

/-- What is read where an operand lies: whether it is symbolic, its expression
and its concrete word. -/
def VMState.readOprnd (vm : VMState) (oi : OprndInfo) : Option (Bool × Expr × BitVec 64) :=
  match oi.regIndex, oi.memConaddr with
  | some r, _ => (vm.readRegisterExpr r oi.size).map fun p => (p.1.bsym, p.1.expr, p.1.i64)
  | none, some addr => (asserted (vm.readMemory (memRead addr oi.size false))).map
      fun p => (p.1.bsym, p.1.expr, p.1.i64)
  | none, none => none

/-- What is read of an operand of `w` bits has the value `x` under every
valuation among `P`: that of the expression, or the low bits of the word. -/
def VMState.ReadsAs (vm : VMState) (oi : OprndInfo) (w : Nat) (P : Valuation → Prop)
    (x : Valuation → BitVec w) : Prop :=
  ∃ symb e v, vm.readOprnd oi = some (symb, e, v) ∧
    (symb = true → ∃ t, z3HandlingExprPtr e = .ok ⟨.bv w, t⟩ ∧ ∀ ρ, P ρ → t.eval ρ = x ρ) ∧
    (symb = false → ∀ ρ, P ρ → v.setWidth w = x ρ)

variable {vm vm' : VMState} {oi : OprndInfo} {r : MachRegister}

/-- An expression that translates to no term is read as no value. -/
theorem not_readsAs {w : Nat} {e : Expr} {v : BitVec 64} {err : Z3Error}
    (hread : vm.readOprnd oi = some (true, e, v)) (he : z3HandlingExprPtr e = .error err)
    (P : Valuation → Prop) (x : Valuation → BitVec w) : ¬ vm.ReadsAs oi w P x := by
  rintro ⟨symb, e', v', hread', hval, -⟩
  have hparts := Option.some.inj (hread.symm.trans hread')
  obtain ⟨t, ht, -⟩ := hval (Prod.mk.inj hparts).1.symm
  rw [← (Prod.mk.inj (Prod.mk.inj hparts).2).1, he] at ht
  exact absurd ht (by simp)

/-- A register that is set through one of its types. -/
theorem OprndInfo.setValue_register (hindex : oi.regIndex = some r) (vm : VMState) :
    (∀ e, oi.setSymValue vm e
      = asserted (vm.writeRegister ⟨r, oi.size, true, false, 0, e, []⟩)) ∧
    ∀ v, oi.setConValue vm v
      = asserted (vm.writeRegister ⟨r, oi.size, false, false, v, .null, []⟩) := by
  cases hop : oi.opty with
  | reg _ | regCon _ _ | regSym _ _ =>
    constructor
    · intro e
      simp only [OprndInfo.setSymValue, hop, hindex, Option.bind_eq_bind, Option.bind_some]
    · intro v
      simp only [OprndInfo.setConValue, hop, hindex, Option.bind_eq_bind, Option.bind_some]
  | unk | imm _ | memCell _ | memCellCon _ _ | memCellSym _ _ =>
    rw [OprndInfo.regIndex, hop] at hindex
    exact absurd hindex (by simp)

/-- Memory that is set to an expression. -/
theorem OprndInfo.setSymValue_memory {addr : Nat} (haddr : oi.memConaddr = some addr)
    (vm : VMState) (e : Expr) :
    oi.regIndex = none ∧ oi.setSymValue vm e
      = asserted (vm.writeMemory ⟨addr, oi.size, true, false, 0, e, []⟩) := by
  cases hop : oi.opty with
  | memCell _ | memCellCon _ _ | memCellSym _ _ =>
    rw [OprndInfo.memConaddr, hop] at haddr
    obtain rfl := Option.some.inj haddr
    constructor
    · rw [OprndInfo.regIndex, hop]
    · rw [OprndInfo.setSymValue, hop]
  | unk | imm _ | reg _ | regCon _ _ | regSym _ _ =>
    rw [OprndInfo.memConaddr, hop] at haddr
    exact absurd haddr (by simp)

/-! ## Reading -/

/-- What is read of a register. -/
theorem VMShape.readOprnd_register (h : VMShape vm) (hindex : oi.regIndex = some r)
    (henc : dyinstEncoding r = some oi.size) :
    vm.readOprnd oi = some (vm.isSYReg r,
      (vm.cpu.valueRead (regRead r oi.size false)).expr,
      (vm.cpu.valueRead (regRead r oi.size false)).i64) := by
  obtain ⟨vm', hread, -, -⟩ := h.exists_readRegisterExpr henc
  have hbsym : (vm.cpu.valueRead (regRead r oi.size false)).bsym = vm.isSYReg r :=
    vm.cpu.bsym_valueRead _
  rw [VMState.readOprnd, hindex]
  show (vm.readRegisterExpr r oi.size).map _ = _
  rw [hread, Option.map_some, hbsym]

/-- What is read of symbolic memory inside a line. -/
theorem VMShape.readOprnd_memory (h : VMShape vm) {addr : Nat} (hreg : oi.regIndex = none)
    (haddr : oi.memConaddr = some addr) (hr : AccessRange addr oi.size)
    (hline : addr % 16 + oi.size ≤ 16)
    (hsym : vm.mem.isSYMemoryCell addr oi.size = true) :
    vm.readOprnd oi = some (true, (vm.mem.valueRead (memRead addr oi.size false)).expr,
      (vm.mem.valueRead (memRead addr oi.size false)).i64) := by
  have hcross : SYMemState.crossesChunk addr oi.size = false := by
    rw [SYMemState.crossesChunk, decide_eq_false_iff_not]
    omega
  obtain ⟨W, vm', hread⟩ := h.exists_readMemory hr hsym hcross false
  obtain ⟨-, -, -, hW⟩ := h.readMemory (V := memRead addr oi.size false) hr.width hread
  have hbsym : W.bsym = true := by
    rw [hW, vm.mem.bsym_valueRead]
    exact hsym
  rw [VMState.readOprnd, hreg, haddr]
  show (asserted (vm.readMemory (memRead addr oi.size false))).map _ = _
  rw [asserted_eq_some.2 hread, Option.map_some, hbsym, hW]

/-- One cell that fills the range is all that is read of it. -/
theorem exprOfCells_whole (v : BitVec 64) {n : Nat} (e : Expr) :
    exprOfCells v n [⟨0, n, e⟩] = some e := by
  have hpieces : exprPieces v n [⟨0, n, e⟩] 0 = [⟨0, n, e⟩] := by
    show padBytes v 0 0 ++ ⟨0, n, e⟩ :: padBytes v (0 + n) n = _
    simp [padBytes]
  rw [exprOfCells, hpieces]
  rfl

/-! ## Writing a register -/

/-- Another word of the registers is as it was. -/
structure RegKept (vm vm' : VMState) (i : PtIdx) : Prop where
  words : vm'.cpu.ptRegs i = vm.cpu.ptRegs i
  bits : vm'.cpu.symBitmap i = vm.cpu.symBitmap i
  cells : vm'.cpu.regCells i = vm.cpu.regCells i

/-- A register reads the same when its word is as it was. -/
theorem RegKept.readOprnd (hkept : RegKept vm vm' r.offt) (h : VMShape vm) (h' : VMShape vm')
    (hindex : oi.regIndex = some r) (henc : dyinstEncoding r = some oi.size) :
    vm'.readOprnd oi = vm.readOprnd oi := by
  have hsym : vm'.cpu.isSYReg r = vm.cpu.isSYReg r := by
    rw [SYCPUState.isSYReg, SYCPUState.isSYReg, hkept.bits]
  have hvalue : vm'.cpu.valueRead (regRead r oi.size false)
      = vm.cpu.valueRead (regRead r oi.size false) := by
    have hwindow : vm'.cpu.regWindow (regRead r oi.size false)
        = vm.cpu.regWindow (regRead r oi.size false) := by
      rw [SYCPUState.regWindow, SYCPUState.regWindow]
      rw [show vm'.cpu.regCells (regRead r oi.size false).indx.offt = _ from hkept.cells]
      rfl
    have hconc : vm'.cpu.readConcreteValue r oi.size 0 = vm.cpu.readConcreteValue r oi.size 0 := by
      rw [SYCPUState.readConcreteValue, SYCPUState.readConcreteValue, hkept.words]
    simp only [SYCPUState.valueRead, regRead, hsym, hconc] at hwindow ⊢
    rw [hwindow]
    rfl
  have hsym : vm'.isSYReg r = vm.isSYReg r := hsym
  rw [h'.readOprnd_register hindex henc, h.readOprnd_register hindex henc, hvalue, hsym]

/-- A write to one word keeps the others. -/
theorem ListWritten.regKept {V : RegValue} (hw : ListWritten vm vm' V) {i : PtIdx}
    (hi : i ≠ V.indx.offt) : RegKept vm vm' i where
  words := by
    rw [hw.words]
    exact Function.update_of_ne hi _ _
  bits := (hw.others i hi).2
  cells := (hw.others i hi).1

/-- A register is symbolic after an expression was written to it. -/
theorem ListWritten.isSYReg_expr {n : Nat} {e : Expr} (henc : dyinstEncoding r = some n)
    (hw : ListWritten vm vm' ⟨r, n, true, false, 0, e, []⟩) : vm'.isSYReg r = true := by
  have hV : (⟨r, n, true, false, 0, e, []⟩ : RegValue).Writable := ⟨henc, by simp⟩
  have hbounds : 0 < n ∧ n ≤ 8 := hV.encoded.size_bounds
  obtain ⟨-, hmask, -⟩ := regIdxToAddrSize_of_encoded henc
  show (vm'.cpu.symBitmap r.offt &&& regMaskBits r.sub != 0) = true
  rw [hw.bits, hmask, bne_iff_ne]
  refine (BitRange.and_mask_ne_zero_iff (show 0 + n ≤ 64 by omega) _).2
    ⟨0, by omega, (RegShadow.getLsbD_bitmapAfter hV _ _).2 (Or.inl ?_)⟩
  have h0 : (0 : Int) ≤ (0 : Nat) := le_refl _
  have hn : ((0 : Nat) : Int) < 0 + n := by omega
  exact (covered_cons _ _ _).2 (Or.inl ⟨h0, hn⟩)

/-- It is not after a concrete value was. -/
theorem ListWritten.isSYReg_word {n : Nat} {v : BitVec 64} (henc : dyinstEncoding r = some n)
    (hw : ListWritten vm vm' ⟨r, n, false, false, v, .null, []⟩) : vm'.isSYReg r = false := by
  have hV : (⟨r, n, false, false, v, .null, []⟩ : RegValue).Writable := ⟨henc, by simp⟩
  have hbounds : 0 < n ∧ n ≤ 8 := hV.encoded.size_bounds
  obtain ⟨-, hmask, -⟩ := regIdxToAddrSize_of_encoded henc
  show (vm'.cpu.symBitmap r.offt &&& regMaskBits r.sub != 0) = false
  rw [hw.bits, hmask, bne_eq_false_iff_eq]
  by_contra hne
  obtain ⟨k, hk, hbit⟩ := (BitRange.and_mask_ne_zero_iff (show 0 + n ≤ 64 by omega) _).1 hne
  rcases (RegShadow.getLsbD_bitmapAfter hV _ _).1 hbit with hcov | ⟨hout, -⟩
  · exact covered_nil _ hcov
  · have hout : ¬ k < n := hout
    omega

/-- An expression that was written to a register is read back. -/
theorem ListWritten.readOprnd_expr {e : Expr} (h : VMShape vm)
    (hindex : oi.regIndex = some r) (henc : dyinstEncoding r = some oi.size)
    (hw : ListWritten vm vm' ⟨r, oi.size, true, false, 0, e, []⟩) :
    ∃ v, vm'.readOprnd oi = some (true, e, v) := by
  have hV : (⟨r, oi.size, true, false, 0, e, []⟩ : RegValue).Writable := ⟨henc, by simp⟩
  have hbounds : 0 < oi.size ∧ oi.size ≤ 8 := hV.encoded.size_bounds
  have hsym : vm'.isSYReg r = true := hw.isSYReg_expr henc
  have hcells : vm'.cpu.regCells r.offt
      = splice cutExpr 0 oi.size [⟨0, oi.size, e⟩] (vm.cpu.regCells r.offt) := hw.cells
  have hsorted : Sorted (vm.cpu.regCells r.offt) := (h.cpu.word r.offt).repr.sorted
  have hwindow : vm'.cpu.regWindow (regRead r oi.size false) = [⟨0, oi.size, e⟩] := by
    have hone : window cutExpr 0 (0 + (oi.size : Int)) (vm'.cpu.regCells r.offt)
        = [⟨0, oi.size, e⟩] := by
      rw [hcells, zero_add]
      refine window_splice cutExpr hsorted
        (sorted_cons.2 ⟨hbounds.1, Sorted.nil, by simp⟩) fun x hx => ?_
      rw [List.mem_singleton.1 hx]
      exact ⟨le_refl _, by simp⟩
    show (window cutExpr 0 (0 + (oi.size : Int)) (vm'.cpu.regCells r.offt)).map
      (Segment.shift 0) = _
    rw [hone]
    simp [Segment.shift]
  have hexpr : (vm'.cpu.valueRead (regRead r oi.size false)).expr = e := by
    have hsym' : vm'.cpu.isSYReg (regRead r oi.size false).indx = true := hsym
    rw [SYCPUState.valueRead, if_pos hsym', hwindow]
    show (exprOfCells _ oi.size [⟨0, oi.size, e⟩]).getD .null = e
    rw [exprOfCells_whole, Option.getD_some]
  refine ⟨(vm'.cpu.valueRead (regRead r oi.size false)).i64, ?_⟩
  rw [hw.shape.readOprnd_register hindex henc, hsym, hexpr]

/-- The low bits of a register of more than one byte after a write. -/
theorem setWidth_wordsAfter (cpu : SYCPUState) {V : RegValue} (henc : V.Encoded)
    (hn : V.size ≠ 1) :
    (cpu.wordsAfter V V.indx.offt).setWidth (8 * V.size) = V.i64.setWidth (8 * V.size) := by
  have hbounds := henc.size_bounds
  have hword : cpu.wordsAfter V V.indx.offt = assignLow (8 * V.size) (cpu.ptRegs V.indx.offt)
      V.i64 := by
    rw [SYCPUState.wordsAfter, SYCPUState.writeConcreteValue, if_neg hn]
    exact Function.update_self _ _ _
  rw [hword, setWidth_assignLow (by omega)]

/-- The bytes of a concrete value that was written to a register are read
back. -/
theorem ListWritten.readOprnd_word {v : BitVec 64} (hindex : oi.regIndex = some r)
    (henc : dyinstEncoding r = some oi.size) (hn : oi.size ≠ 1)
    (hw : ListWritten vm vm' ⟨r, oi.size, false, false, v, .null, []⟩) :
    ∃ e x, vm'.readOprnd oi = some (false, e, x) ∧
      x.setWidth (8 * oi.size) = v.setWidth (8 * oi.size) := by
  have hV : (⟨r, oi.size, false, false, v, .null, []⟩ : RegValue).Writable := ⟨henc, by simp⟩
  have hsym : vm'.isSYReg r = false := hw.isSYReg_word henc
  refine ⟨(vm'.cpu.valueRead (regRead r oi.size false)).expr,
    (vm'.cpu.valueRead (regRead r oi.size false)).i64, ?_, ?_⟩
  · rw [hw.shape.readOprnd_register hindex henc, hsym]
  · have henc' : (regRead r oi.size false).Encoded := henc
    have hlow := setWidth_readConcreteValue vm'.cpu henc' 0
    rw [if_neg (show ¬ (regRead r oi.size false).size = 1 from hn)] at hlow
    rw [vm'.cpu.i64_valueRead]
    have hword : (vm'.cpu.ptRegs r.offt).setWidth (8 * oi.size) = v.setWidth (8 * oi.size) := by
      rw [hw.words]
      exact setWidth_wordsAfter vm.cpu hV.encoded hn
    exact hlow.trans hword

/-- A write of an expression to a register. -/
theorem VMShape.exists_setSymValue_register (h : VMShape vm) (hindex : oi.regIndex = some r)
    (henc : dyinstEncoding r = some oi.size) (e : Expr) :
    ∃ vm' v, oi.setSymValue vm e = some vm' ∧ VMShape vm' ∧
      vm'.readOprnd oi = some (true, e, v) ∧ ∀ i, i ≠ r.offt → RegKept vm vm' i := by
  have hV : (⟨r, oi.size, true, false, 0, e, []⟩ : RegValue).Writable := ⟨henc, by simp⟩
  obtain ⟨vm', hset, hw⟩ := listWritten h (SameCells.refl vm) hV
  obtain ⟨v, hread⟩ := hw.readOprnd_expr h hindex henc
  refine ⟨vm', v, ?_, hw.shape, hread, fun i hi => hw.regKept hi⟩
  rw [(OprndInfo.setValue_register hindex vm).1 e]
  exact hset

/-- A write of a concrete value to a register. -/
theorem VMShape.exists_setConValue_register (h : VMShape vm) (hindex : oi.regIndex = some r)
    (henc : dyinstEncoding r = some oi.size) (hn : oi.size ≠ 1) (v : BitVec 64) :
    ∃ vm' e x, oi.setConValue vm v = some vm' ∧ VMShape vm' ∧
      vm'.readOprnd oi = some (false, e, x) ∧
      x.setWidth (8 * oi.size) = v.setWidth (8 * oi.size) ∧
      ∀ i, i ≠ r.offt → RegKept vm vm' i := by
  have hV : (⟨r, oi.size, false, false, v, .null, []⟩ : RegValue).Writable := ⟨henc, by simp⟩
  obtain ⟨vm', hset, hw⟩ := listWritten h (SameCells.refl vm) hV
  obtain ⟨e, x, hread, hlow⟩ := hw.readOprnd_word hindex henc hn
  refine ⟨vm', e, x, ?_, hw.shape, hread, hlow, fun i hi => hw.regKept hi⟩
  rw [(OprndInfo.setValue_register hindex vm).2 v]
  exact hset

/-! ## Writing any place -/

/-- A write of an expression to memory. -/
theorem VMShape.exists_setSymValue_memory (h : VMShape vm) {addr : Nat}
    (haddr : oi.memConaddr = some addr) (hr : AccessRange addr oi.size)
    (hline : addr % 16 + oi.size ≤ 16) (e : Expr) :
    ∃ vm' v, oi.setSymValue vm e = some vm' ∧ VMShape vm' ∧
      vm'.readOprnd oi = some (true, e, v) := by
  obtain ⟨hreg, hset⟩ := OprndInfo.setSymValue_memory haddr vm e
  have hpos := hr.pos
  have hin : SYMemState.insideHalfChunk addr oi.size = true := by
    rw [SYMemState.insideHalfChunk, decide_eq_true_eq]
    omega
  let V : MemValue := ⟨addr, oi.size, true, false, 0, e, []⟩
  obtain ⟨mem, hwrite, hmem, hcells, hsym, -⟩ :=
    h.mem.exists_writeExpr (V := V) hr rfl rfl hin
  have hvm : asserted (vm.writeMemory V) = some { vm with mem := mem } := by
    rw [asserted_eq_some, VMState.writeMemory, if_pos hr.mapped, hwrite]
    rfl
  have hshape : VMShape { vm with mem := mem } := ⟨hmem, h.cpu⟩
  have hwindow : mem.memWindow addr oi.size = [⟨0, oi.size, e⟩] := by
    have hcells : mem.storedCells = splice cutExpr (toInt64 addr) (toInt64 addr + oi.size)
        [⟨toInt64 addr, oi.size, e⟩] vm.mem.storedCells := hcells
    have hsorted : Sorted vm.mem.storedCells := h.mem.repr.sorted
    have hone : Sorted [(⟨toInt64 addr, oi.size, e⟩ : Segment Expr)] :=
      sorted_cons.2 ⟨hpos, Sorted.nil, by simp⟩
    have hin : ∀ x ∈ [(⟨toInt64 addr, oi.size, e⟩ : Segment Expr)],
        toInt64 addr ≤ x.addr ∧ x.stop ≤ toInt64 addr + oi.size := by
      intro x hx
      rw [List.mem_singleton.1 hx]
      exact ⟨le_refl _, le_refl _⟩
    rw [SYMemState.memWindow, hcells, window_splice cutExpr hsorted hone hin]
    simp [Segment.shift]
  have hexpr : (mem.valueRead (memRead addr oi.size false)).expr = e := by
    have hsym : mem.isSYMemoryCell (memRead addr oi.size false).addr
        (memRead addr oi.size false).size = true := hsym
    rw [SYMemState.valueRead, if_pos hsym]
    show (exprOfCells _ oi.size (mem.memWindow addr oi.size)).getD .null = e
    rw [hwindow, exprOfCells_whole, Option.getD_some]
  refine ⟨{ vm with mem := mem }, (mem.valueRead (memRead addr oi.size false)).i64,
    hset.trans hvm, hshape, ?_⟩
  rw [hshape.readOprnd_memory hreg haddr hr hline hsym, hexpr]

/-- An expression that was put into an operand is what is read of it. -/
theorem VMShape.exists_setSymValue (h : VMShape vm) (hplace : oi.Place) (e : Expr) :
    ∃ vm' v, oi.setSymValue vm e = some vm' ∧ VMShape vm' ∧
      vm'.readOprnd oi = some (true, e, v) := by
  cases hplace with
  | register r hindex henc =>
    obtain ⟨vm', v, hset, hshape, hread, -⟩ := h.exists_setSymValue_register hindex henc e
    exact ⟨vm', v, hset, hshape, hread⟩
  | memory addr haddr hr hline => exact h.exists_setSymValue_memory haddr hr hline e

/-! ## The flags -/

namespace SameBytes

/-- Over the same bytes every register is kept. -/
theorem regKept (hsame : SameBytes vm vm') (i : PtIdx) : RegKept vm vm' i where
  words := by rw [hsame.ptRegs]
  bits := by rw [hsame.symBitmap]
  cells := by rw [SYCPUState.regCells, SYCPUState.regCells, hsame.symList]

/-- Neither the flags nor their manager are read. -/
theorem readOprnd (hsame : SameBytes vm vm') (h : VMShape vm) (hplace : oi.Place) :
    vm'.readOprnd oi = vm.readOprnd oi := by
  cases hplace with
  | register r hindex henc =>
    exact (hsame.regKept r.offt).readOprnd h (hsame.shape h) hindex henc
  | memory addr haddr hr hline =>
    obtain ⟨hreg, -⟩ := OprndInfo.setSymValue_memory haddr vm .null
    rw [VMState.readOprnd, VMState.readOprnd, hreg, haddr]
    show (asserted (vm'.readMemory _)).map _ = (asserted (vm.readMemory _)).map _
    rw [VMState.readMemory, VMState.readMemory, hsame.mem]
    split
    · cases vm.mem.readMemoryCell (memRead addr oi.size false) with
      | none => rfl
      | some p =>
        obtain ⟨ok, W, mem⟩ := p
        cases ok <;> rfl
    · rfl

end SameBytes

end KRover
