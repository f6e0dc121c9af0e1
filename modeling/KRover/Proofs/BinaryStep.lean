import KRover.Proofs.OprndValue
import KRover.Proofs.SymExecStep

/-! # What an arithmetic or logic instruction does

`add`, `sub`, `and`, `or` and `xor` on operands of two, four or eight bytes:
the destination then reads as an expression that stands for the result, and
nothing else has changed but the flags.

* `writeRegister_expr`, `writeMemory_expr`: an expression laid over a register
  or over memory;
* `processBinary_done`: the handler on what the parser has found;
* `exec_binary`: the instruction, parsed and run.
-/

set_option autoImplicit false

namespace KRover

open Segments BvTerm Bytes SymbolListMap SymExecutor

/-! ## Writing an expression -/

/-- The registers in `R` and the bytes of memory in `M` keep their values and
whether they are symbolic. -/
structure KeepsBytes (vm vm' : VMState) (R : PtIdx → Prop) (M : Nat → Prop) : Prop where
  reg : ∀ i, R i → ∀ k < 8,
    (vm'.cpu.symBitmap i).getLsbD k = (vm.cpu.symBitmap i).getLsbD k ∧
      ∀ ρ, vm'.regByte ρ i k = vm.regByte ρ i k
  mem : ∀ a < 2 ^ 64, M a →
    (vm'.mem.bitmap.Marked a ↔ vm.mem.bitmap.Marked a) ∧ ∀ ρ, vm'.memByte ρ a = vm.memByte ρ a

/-- The register holds an expression of `n` bytes. -/
structure HoldsReg (vm : VMState) (r : MachRegister) (n : Nat) (e : Expr) : Prop where
  sym : vm.isSYReg r = true
  bytes : ∀ ρ k, k < n → vm.regByte ρ r.offt k = e.byte ρ k

/-- The memory from `addr` on holds an expression of `n` bytes. -/
structure HoldsMem (vm : VMState) (addr n : Nat) (e : Expr) : Prop where
  sym : vm.mem.isSYMemoryCell addr n = true
  bytes : ∀ ρ k, k < n → vm.memByte ρ (addr + k) = e.byte ρ k

section Write

variable {vm : VMState} {n : Nat} {e : Expr}

/-- An expression of the width of a register is written over it: the register then holds the
expression, and every byte outside of it stands for what it stood for. -/
theorem writeRegister_expr (h : VMAgrees vm) {r : MachRegister}
    (henc : dyinstEncoding r = some n) (he : HasBytes e n) :
    ∃ vm', asserted (vm.writeRegister ⟨r, n, true, false, 0, e, []⟩) = some vm' ∧
      VMAgrees vm' ∧ vm'.eflagsMgr = vm.eflagsMgr ∧ HoldsReg vm' r n e ∧
      KeepsBytes vm vm' (· ≠ r.offt) fun _ => True := by
  let V : RegValue := ⟨r, n, true, false, 0, e, []⟩
  have hV : V.Writable := ⟨henc, by simp [V]⟩
  have hs : 0 < n ∧ n ≤ 8 := hV.encoded.size_bounds
  obtain ⟨-, hmask, -⟩ := regIdxToAddrSize_of_encoded henc
  obtain ⟨m, hst, -, hsegs⟩ := (h.cells.shape.cpu.word r.offt).write hV
  let cpu : SYCPUState :=
    { ptRegs := vm.cpu.wordsAfter V
      symBitmap := Function.update vm.cpu.symBitmap r.offt (V.bitmapAfter (vm.cpu.symBitmap r.offt))
      symList := Function.update vm.cpu.symList r.offt m
      bsymFlag := vm.cpu.bsymFlag }
  have hwrite : vm.writeRegister V = some (true, { vm with cpu := cpu }) := by
    rw [VMState.writeRegister, hst]
    rfl
  obtain ⟨hcells, hmgr⟩ := h.cells.writeRegister exprLaw_hasBytes (V := V) (by simp [V])
    (fun _ => cellsOk_singleton he) hwrite
  -- The list of the word that is written, and those of the others.
  have hself : cpu.regCells r.offt = V.cellsAfter (vm.cpu.regCells r.offt) := by
    have hword : Function.update vm.cpu.symList r.offt m r.offt = m := Function.update_self _ _ _
    rw [SYCPUState.regCells]
    simp only [cpu, hword]
    exact hsegs
  have hother : ∀ i, i ≠ r.offt → cpu.regCells i = vm.cpu.regCells i := by
    intro i hi
    have hlist : Function.update vm.cpu.symList r.offt m i = vm.cpu.symList i :=
      Function.update_of_ne hi _ _
    rw [SYCPUState.regCells, SYCPUState.regCells]
    simp only [cpu, hlist]
  -- The bits and the cells are changed over the same bytes.
  have hagrees : VMAgrees { vm with cpu := cpu } := by
    refine ⟨hcells, h.mem, fun i k hk => ?_⟩
    by_cases hi : i = r.offt
    · subst hi
      have hbits : cpu.symBitmap r.offt = V.bitmapAfter (vm.cpu.symBitmap r.offt) :=
        Function.update_self _ _ _
      show (cpu.symBitmap r.offt).getLsbD k = true ↔ Covered (cpu.regCells r.offt) k
      rw [hbits, hself]
      exact RegShadow.getLsbD_bitmapAfter_iff hV rfl (h.regs _ k hk)
    · have hbits : cpu.symBitmap i = vm.cpu.symBitmap i := Function.update_of_ne hi _ _
      show (cpu.symBitmap i).getLsbD k = true ↔ Covered (cpu.regCells i) k
      rw [hbits, hother i hi]
      exact h.regs i k hk
  refine ⟨{ vm with cpu := cpu }, asserted_eq_some.2 hwrite, hagrees, hmgr, ?_, ?_⟩
  · constructor
    · -- the bits of the register have been set
      have hbit : (V.bitmapAfter (vm.cpu.symBitmap r.offt)).getLsbD 0 = true := by
        rw [RegShadow.getLsbD_bitmapAfter hV]
        exact Or.inl ⟨⟨0, n, e⟩, List.mem_singleton_self _, le_refl _, by
          show ((0 : Nat) : Int) < 0 + (n : Int)
          omega⟩
      have hne := (BitRange.and_mask_ne_zero_iff (show 0 + n ≤ 64 by omega)
        (V.bitmapAfter (vm.cpu.symBitmap r.offt))).2 ⟨0, by omega, hbit⟩
      show (Function.update vm.cpu.symBitmap r.offt _ r.offt &&& regMaskBits r.sub != 0) = true
      rw [Function.update_self, hmask, bne_iff_ne]
      exact hne
    · intro ρ k hk
      have hcells' : ({ vm with cpu := cpu } : VMState).cpu.regCells r.offt
          = splice cutExpr 0 n [⟨0, n, e⟩] (vm.cpu.regCells r.offt) := hself
      rw [VMState.regByte, hcells', lookup_splice (cutLaw_byte (h.cells.regCells _)) (by omega)
        (by simp), if_pos (by omega), lookup_singleton, if_pos (by
          show (0 : Int) ≤ k ∧ (k : Int) < 0 + (n : Int)
          omega)]
      simp
  · constructor
    · intro i hi k hk
      have hbits : cpu.symBitmap i = vm.cpu.symBitmap i := Function.update_of_ne hi _ _
      have hword : cpu.ptRegs i = vm.cpu.ptRegs i := Function.update_of_ne hi _ _
      refine ⟨congrArg (BitVec.getLsbD · k) hbits, fun ρ => ?_⟩
      rw [VMState.regByte, VMState.regByte, hother i hi, hword]
    · intro a _ _
      exact ⟨Iff.rfl, fun ρ => rfl⟩

/-- The same for memory, where the range must lie in one line of 16 bytes. -/
theorem writeMemory_expr (h : VMAgrees vm) {addr : Nat} (hr : AccessRange addr n)
    (hline : addr % 16 + n ≤ 16) (he : HasBytes e n) :
    ∃ vm', asserted (vm.writeMemory ⟨addr, n, true, false, 0, e, []⟩) = some vm' ∧
      VMAgrees vm' ∧ vm'.eflagsMgr = vm.eflagsMgr ∧ HoldsMem vm' addr n e ∧
      KeepsBytes vm vm' (fun _ => True) fun a => ¬ (addr ≤ a ∧ a < addr + n) := by
  let V : MemValue := ⟨addr, n, true, false, 0, e, []⟩
  have hpos := hr.pos
  have hle := hr.le
  have hwidth := hr.width
  have hin : SYMemState.insideHalfChunk addr n = true := by
    rw [SYMemState.insideHalfChunk, decide_eq_true_eq]
    omega
  -- the concrete value is written first
  let mem₁ := (vm.mem.writeConcreteValue addr n 0).2
  have hsame := vm.mem.writeConcreteValue_shadow addr n 0
  have h₁ : MemCells mem₁ := h.cells.shape.mem.congr hsame.2 hsame.1
  have hcells₁ : mem₁.storedCells = vm.mem.storedCells := by
    rw [SYMemState.storedCells, hsame.2]
    rfl
  have hconc : mem₁.concrete = storeBytes vm.mem.concrete addr n 0 := by
    simp only [mem₁, SYMemState.writeConcreteValue, hwidth, if_true]
  obtain ⟨m, ps, hst, hrepr, hsegs⟩ := h₁.repr.writeSymbolicExpr_spec hr hin e
  let mem : SYMemState :=
    { mem₁ with bitmap := (mem₁.bitmap.markSYMemBitmap addr n).2, allSymbolList := m }
  have hcells : mem.storedCells = splice cutExpr (toInt64 addr) (toInt64 addr + n)
      [⟨toInt64 addr, n, e⟩] vm.mem.storedCells := by
    show m.segs m.liveCells = _
    rw [segs_liveCells hrepr, hsegs, ← hcells₁]
    rfl
  have hwrite : vm.writeMemory V = some (true, { vm with mem := mem }) := by
    rw [VMState.writeMemory, if_pos hr.mapped, vm.mem.writeMemoryCell_expr rfl rfl]
    show (mem₁.writeSymbolicExpr addr n e >>= _) = _
    rw [hst]
    rfl
  -- The marks after the write, and the cells under them, grow by the same range.
  have hmarked : ∀ b, mem.bitmap.Marked b ↔
      vm.mem.bitmap.Marked b ∨ (addr ≤ b ∧ b < addr + n) := by
    intro b
    have hbitmap : mem₁.bitmap = vm.mem.bitmap := hsame.1
    show (mem₁.bitmap.markSYMemBitmap addr n).2.Marked b ↔ _
    rw [hbitmap]
    exact SYMemBitmap.marked_markSYMemBitmap vm.mem.bitmap hr.le hr.noWrap b
  obtain ⟨hvm, hmgr⟩ := h.cells.writeMemory exprLaw_hasBytes (V := V) hwidth (by simp [V])
    (cellsOk_singleton he) hwrite
  have hagrees : VMAgrees { vm with mem := mem } := by
    refine ⟨hvm, fun b hb => ?_, h.regs⟩
    show mem.bitmap.Marked b ↔ Covered mem.storedCells (toInt64 b)
    have hone : Covered [⟨toInt64 addr, n, e⟩] (toInt64 b) ↔ addr ≤ b ∧ b < addr + n := by
      rw [hr.mem_iff hb, covered_cons, or_iff_left (covered_nil _)]
      rfl
    rw [hmarked, hcells, Shadow.covered_range hr (singleton_inside addr n e) hb, hone, h.mem b hb]
    split
    · rename_i hin
      exact iff_of_true (Or.inr hin) hin
    · rename_i hin
      exact or_iff_left hin
  -- Inside the range the new cell is found, and outside of it what was there.
  have hlookup : ∀ ρ b, lookup (Expr.byte ρ) mem.storedCells b
      = if toInt64 addr ≤ b ∧ b < toInt64 addr + n then
          some (e.byte ρ (b - toInt64 addr).toNat)
        else lookup (Expr.byte ρ) vm.mem.storedCells b := by
    intro ρ b
    rw [hcells, lookup_splice (cutLaw_byte h.cells.memCells) (by omega) (singleton_inside addr n e)]
    split
    · rename_i hb
      exact (lookup_singleton _ _).trans (if_pos hb)
    · rfl
  refine ⟨{ vm with mem := mem }, asserted_eq_some.2 hwrite, hagrees, hmgr, ?_, ?_⟩
  · constructor
    · exact (SYMemBitmap.testSYMemBitmap_iff mem.bitmap hr.le hr.pos hr.noWrap).2
        ⟨addr, by omega, (hmarked addr).2 (Or.inr (by omega))⟩
    · intro ρ k hk
      have hadd := hr.toInt64_add hk
      have hidx : (toInt64 addr + k - toInt64 addr).toNat = k := by omega
      rw [VMState.memByte, hlookup, hadd, if_pos (by omega), hidx, Option.getD_some]
  · constructor
    · intro i _ k _
      exact ⟨rfl, fun ρ => rfl⟩
    · intro a ha hout
      have hout' := hout
      rw [hr.mem_iff ha] at hout'
      refine ⟨(hmarked a).trans (or_iff_left hout), fun ρ => ?_⟩
      have hbyte : mem.concrete a = vm.mem.concrete a := by
        have hidx : ¬ toUlong ((a : Int) - addr) < n := by
          unfold toUlong
          omega
        show mem₁.concrete a = _
        rw [hconc, storeBytes]
        exact if_neg hidx
      rw [VMState.memByte, VMState.memByte, hlookup, if_neg hout', hbyte]

end Write

/-! ## Reading an expression back -/

/-- A read of the register or of the memory, at the address that the operand
had, returns an expression that stands for the given bytes. -/
def VMState.ReadsBack (vm : VMState) (O : Operand) (addr : Nat)
    (x : Valuation → List (BitVec 8)) : Prop :=
  match O.deref, O.value with
  | some n, _ => ∃ W vm', vm.readMemory (memRead addr n false) = some (true, W, vm') ∧
      W.bsym = true ∧ ∀ ρ, W.expr.denote ρ = some (x ρ)
  | none, .register r n => ∃ W vm', vm.readRegister (regRead r n false) = some (true, W, vm') ∧
      W.bsym = true ∧ ∀ ρ, W.expr.denote ρ = some (x ρ)
  | none, _ => False

section ReadBack

variable {vm : VMState} {n : Nat} {e : Expr}

/-- A register that holds an expression is read back as an expression of the same value.
Single bytes go another way in the source and are left out here. -/
theorem HoldsReg.readRegister (h : VMCells HasBytes vm) {r : MachRegister}
    (henc : dyinstEncoding r = some n) (hn : n ≠ 1) (he : HasBytes e n)
    (hholds : HoldsReg vm r n e) :
    ∃ W vm', vm.readRegister (regRead r n false) = some (true, W, vm') ∧ W.bsym = true ∧
      ∀ ρ, W.expr.denote ρ = e.denote ρ := by
  let V := regRead r n false
  obtain ⟨m, hread, -, -⟩ := (h.shape.cpu.word r.offt).read (V := V) henc
  have hvm : vm.readRegister V
      = some (true, vm.cpu.valueRead V, { vm with cpu := vm.cpu.setSymList r.offt m }) := by
    rw [VMState.readRegister, hread]
    rfl
  refine ⟨_, _, hvm, ?_, fun ρ => ?_⟩
  · rw [SYCPUState.bsym_valueRead]
    exact hholds.sym
  · rw [regExpr_denote h henc hn hholds.sym, he.denote_eq ρ]
    refine congrArg some (List.map_congr_left fun k hk => ?_)
    exact hholds.bytes ρ k (List.mem_range.1 hk)

/-- So is a range of memory. -/
theorem HoldsMem.readMemory (h : VMCells HasBytes vm) {addr : Nat} (hr : AccessRange addr n)
    (hline : addr % 16 + n ≤ 16) (he : HasBytes e n) (hholds : HoldsMem vm addr n e) :
    ∃ W vm', vm.readMemory (memRead addr n false) = some (true, W, vm') ∧ W.bsym = true ∧
      ∀ ρ, W.expr.denote ρ = e.denote ρ := by
  have hhalf : SYMemState.insideHalfChunk addr n = true := by
    have hle := hr.le
    rw [SYMemState.insideHalfChunk, decide_eq_true_eq]
    omega
  have hcross : SYMemState.crossesChunk addr n = false := hr.not_crossesChunk hhalf
  obtain ⟨W, vm', hread⟩ := h.shape.exists_readMemory hr hholds.sym hcross false
  obtain ⟨-, -, -, rfl⟩ := h.shape.readMemory hr.width hread
  refine ⟨_, vm', hread, ?_, fun ρ => ?_⟩
  · rw [SYMemState.bsym_valueRead]
    exact hholds.sym
  · rw [memExpr_denote h hr hholds.sym, he.denote_eq ρ]
    refine congrArg some (List.map_congr_left fun k hk => ?_)
    exact hholds.bytes ρ k (List.mem_range.1 hk)

end ReadBack

/-! ## The handler -/

/-- The registers and the bytes of memory that an operand is. -/
def Operand.InReg (O : Operand) (i : PtIdx) : Prop :=
  O.deref = none ∧ ∃ r n, O.value = .register r n ∧ r.offt = i

/-- The byte at `a` lies in the memory operand whose address is `addr`. -/
def Operand.InMem (O : Operand) (addr a : Nat) : Prop :=
  ∃ n, O.deref = some n ∧ addr ≤ a ∧ a < addr + n

/-- What an operation leaves behind: its destination reads as the result, all
other bytes are as before, the flags are those of the result, and bitmaps and
cells agree again. -/
structure BinaryDone (op : BinOp) (I : Instruction) (D S : Operand) (vm vm' : VMState) :
    Prop where
  result : vm'.ReadsBack D (D.address I vm.cpu)
    fun ρ => binBytes op (D.bytes ρ vm I) (S.bytes ρ vm I)
  frame : KeepsBytes vm vm' (fun i => ¬ D.InReg i) fun a => ¬ D.InMem (D.address I vm.cpu) a
  flags : ∀ f ∈ [Flag.cf, .pf, .af, .zf, .sf, .of], vm'.cpu.getFlagBit f = .uncertain
  last : ∀ ρ, vm'.eflagsMgr.lastExpr.denote ρ
    = some (binBytes op (D.bytes ρ vm I) (S.bytes ρ vm I))
  agrees : VMAgrees vm'

/-- The expression that the handler builds stands for the result. -/
theorem operate_denote {k : BinKind} {op : BinOp} (hk : k.op = some op) {vm : VMState}
    {I : Instruction} {D S : Operand} {o1 o2 : OprndInfo} (h1 : HoldsBytes vm I D o1)
    (h2 : HoldsBytes vm I S o2)
    (hlen : ∀ ρ, (D.bytes ρ vm I).length = (S.bytes ρ vm I).length)
    (hsym : o1.symb = true ∨ o2.symb = true) :
    ∃ oe, operate k o1 o2 o1.size o2.size = some oe ∧
      ∀ ρ, oe.denote ρ = some (binBytes op (D.bytes ρ vm I) (S.bytes ρ vm I)) := by
  rw [operate]
  -- An operand that is not symbolic enters as a literal of its own size.
  cases hs1 : o1.symb with
  | true =>
    obtain ⟨e1, he1, hd1⟩ := h1.sym hs1
    cases hs2 : o2.symb with
    | true =>
      obtain ⟨e2, he2, hd2⟩ := h2.sym hs2
      refine ⟨Expr.binExpr k e1 e2, ?_, fun ρ => denote_binExpr hk (hd1 ρ) (hd2 ρ) (hlen ρ)⟩
      simp [he1, he2]
    | false =>
      obtain ⟨v2, hv2, hd2⟩ := h2.con hs2
      refine ⟨Expr.binExpr k e1 (Expr.constExpr v2 o2.size), ?_, fun ρ => ?_⟩
      · simp [he1, hv2]
      · have hlit := denote_constExpr (ρ := ρ) v2 o2.size
        rw [hd2 ρ] at hlit
        exact denote_binExpr hk (hd1 ρ) hlit (hlen ρ)
  | false =>
    obtain ⟨v1, hv1, hd1⟩ := h1.con hs1
    have hs2 : o2.symb = true := hsym.resolve_left (by simp [hs1])
    obtain ⟨e2, he2, hd2⟩ := h2.sym hs2
    refine ⟨Expr.binExpr k (Expr.constExpr v1 o1.size) e2, ?_, fun ρ => ?_⟩
    · simp [hs2, he2, hv1]
    · have hlit := denote_constExpr (ρ := ρ) v1 o1.size
      rw [hd1 ρ] at hlit
      exact denote_binExpr hk hlit (hd2 ρ) (hlen ρ)

namespace SameBytes

variable {vm₀ vm vm' : VMState}

/-- The bytes of the registers stand for the same values. -/
theorem regByte (h : SameBytes vm vm') (ρ : Valuation) (i : PtIdx) (k : Nat) :
    vm'.regByte ρ i k = vm.regByte ρ i k := by
  rw [VMState.regByte, VMState.regByte, SYCPUState.regCells, SYCPUState.regCells, h.symList,
    h.ptRegs]

/-- The bytes of the memory stand for the same values. -/
theorem memByte (h : SameBytes vm vm') (ρ : Valuation) (a : Nat) :
    vm'.memByte ρ a = vm.memByte ρ a := by
  rw [VMState.memByte, VMState.memByte, h.mem]

/-- So a frame up to the first machine is one up to the second. -/
theorem keepsBytes (h : SameBytes vm vm') {R : PtIdx → Prop} {M : Nat → Prop}
    (hkeep : KeepsBytes vm₀ vm R M) : KeepsBytes vm₀ vm' R M := by
  constructor
  · intro i hi k hk
    obtain ⟨hbit, hbyte⟩ := hkeep.reg i hi k hk
    rw [h.symBitmap]
    exact ⟨hbit, fun ρ => (h.regByte ρ i k).trans (hbyte ρ)⟩
  · intro a ha hM
    obtain ⟨hmark, hbyte⟩ := hkeep.mem a ha hM
    rw [h.mem]
    exact ⟨hmark, fun ρ => (h.memByte ρ a).trans (hbyte ρ)⟩

/-- The agreement of the shadow with the concrete bytes is kept. -/
theorem vmAgrees (h : SameBytes vm vm') (hvm : VMAgrees vm) : VMAgrees vm' := by
  have hcells : vm'.cpu.regCells = vm.cpu.regCells := by
    funext i
    rw [SYCPUState.regCells, SYCPUState.regCells, h.symList]
  constructor
  · constructor
    · constructor
      · rw [h.mem]
        exact hvm.cells.shape.mem
      · exact hvm.cells.shape.cpu.congr h.symBitmap h.symList
    · rw [h.mem]
      exact hvm.cells.memCells
    · rw [hcells]
      exact hvm.cells.regCells
  · rw [h.mem]
    exact hvm.mem
  · rw [h.symBitmap, hcells]
    exact hvm.regs

/-- A register that holds an expression still does. -/
theorem holdsReg (h : SameBytes vm vm') {r : MachRegister} {n : Nat} {e : Expr}
    (hreg : HoldsReg vm r n e) : HoldsReg vm' r n e := by
  constructor
  · rw [VMState.isSYReg, SYCPUState.isSYReg, h.symBitmap]
    exact hreg.sym
  · intro ρ k hk
    rw [h.regByte]
    exact hreg.bytes ρ k hk

/-- A range of memory that holds an expression still does. -/
theorem holdsMem (h : SameBytes vm vm') {addr n : Nat} {e : Expr} (hmem : HoldsMem vm addr n e) :
    HoldsMem vm' addr n e := by
  constructor
  · rw [h.mem]
    exact hmem.sym
  · intro ρ k hk
    rw [h.memByte]
    exact hmem.bytes ρ k hk

end SameBytes

/-- Saving the expression of an instruction that changes the flags. -/
theorem saveFlagChanging_spec (vm : VMState) {id : EntryID} (hid : isFlagChangingInstr id = true)
    (e : Expr) :
    ∃ vm', asserted (some (vm.saveFlagChangingInstructionExpr id e)) = some vm' ∧
      SameBytes vm vm' ∧ vm'.eflagsMgr.lastExpr = e ∧
      ∀ f ∈ [Flag.cf, .pf, .af, .zf, .sf, .of], vm'.cpu.getFlagBit f = .uncertain := by
  have hres : (vm.saveFlagChangingInstructionExpr id e).1 = true := by
    rw [VMState.saveFlagChangingInstructionExpr, EFlagsManager.saveFlagChangingInstructionExpr,
      hid]
    rfl
  refine ⟨(vm.saveFlagChangingInstructionExpr id e).2, ?_, sameBytes_save vm id e, ?_⟩
  · rw [asserted_eq_some, ← hres]
  · rw [VMState.saveFlagChangingInstructionExpr, EFlagsManager.saveFlagChangingInstructionExpr,
      hid]
    refine ⟨rfl, fun f hf => ?_⟩
    simp only [List.mem_cons, List.not_mem_nil, or_false] at hf
    rcases hf with rfl | rfl | rfl | rfl | rfl | rfl <;>
      simp [SYCPUState.setFlagBit, SYCPUState.getFlagBit, Function.update]

section Handler

variable {vm : VMState} {I : Instruction} {D S : Operand} {w : Nat}

/-- A register that is read and written is set through its index. -/
theorem Parsed.setSymValue_register {oi : OprndInfo} (hp : Parsed vm I D false oi)
    {r : MachRegister} (hderef : D.deref = none) (hval : D.value = .register r w)
    (hread : D.isRead = true) (e : Expr) :
    oi.setSymValue vm e = asserted (vm.writeRegister ⟨r, w, true, false, 0, e, []⟩) := by
  have hset := Operand.Form.readSet_register hderef hval hread
  have hsize := D.size_register hderef hval
  cases hp with
  | imm _ _ _ hempty => simp [hset] at hempty
  | regCon _ r' _ _ _ hr =>
    obtain rfl : r = r' := by simpa [hset] using hr
    rw [OprndInfo.setSymValue, hsize]
    rfl
  | regSym r' size' _ _ hval' _ _ =>
    obtain ⟨rfl, rfl⟩ := OperandAST.register.inj (hval'.symm.trans hval)
    rw [OprndInfo.setSymValue, hsize]
    rfl
  | sum _ _ _ _ _ _ _ hval' _ _ _ => simp [hval] at hval'
  | memCon _ _ _ hsome _ _ _ | memSym _ _ hsome _ _ _ => simp [hderef] at hsome
  | regWritten _ _ _ _ hnot | memWritten _ hnot => simp [hread] at hnot

/-- Memory that is read and written is set at its address. -/
theorem Parsed.setSymValue_memory {oi : OprndInfo} (hp : Parsed vm I D false oi)
    (hderef : D.deref = some w) (hread : D.isRead = true) :
    AccessRange (D.address I vm.cpu) w ∧ ∀ e, oi.setSymValue vm e
      = asserted (vm.writeMemory ⟨D.address I vm.cpu, w, true, false, 0, e, []⟩) := by
  have hsize : D.size = w := (Operand.Form.memory hderef).size_eq
  cases hp with
  | memCon _ accs haccs _ _ hr _ =>
    rw [hsize] at hr ⊢
    exact ⟨hr, fun e => rfl⟩
  | memSym accs haccs _ _ hr _ =>
    rw [hsize] at hr ⊢
    exact ⟨hr, fun e => rfl⟩
  | imm _ hnone _ _ | regCon _ _ hnone _ _ _ | regSym _ _ hnone _ _ _ _
  | sum _ _ _ _ _ hnone _ _ _ _ _ => simp [hderef] at hnone
  | regWritten _ _ _ _ hnot | memWritten _ hnot => simp [hread] at hnot

/-- An expression put into the destination is there afterwards, whatever
happens to the flags, and all other bytes are as before. -/
theorem setSymValue_done (h : VMAgrees vm) (hw : w ≠ 1) (hD : D.Place w)
    (hread : D.isRead = true) (hline : D.deref.isSome = true → D.address I vm.cpu % 16 + w ≤ 16)
    {oi : OprndInfo} (hp : Parsed vm I D false oi) {e : Expr} (he : HasBytes e w) :
    ∃ vm', oi.setSymValue vm e = some vm' ∧ VMAgrees vm' ∧
      KeepsBytes vm vm' (fun i => ¬ D.InReg i) (fun a => ¬ D.InMem (D.address I vm.cpu) a) ∧
      ∀ vm'', SameBytes vm' vm'' → ∀ x : Valuation → List (BitVec 8),
        (∀ ρ, e.denote ρ = some (x ρ)) → vm''.ReadsBack D (D.address I vm.cpu) x := by
  -- The destination is written, and read back through the same interface in any later state with
  -- its bytes.
  cases hD with
  | register r hderef hval henc =>
    obtain ⟨vm', hset, hagrees, -, hholds, hkeep⟩ := writeRegister_expr h henc he
    rw [hp.setSymValue_register hderef hval hread]
    refine ⟨vm', hset, hagrees, ?_, ?_⟩
    · constructor
      · intro i hi k hk
        refine hkeep.reg i ?_ k hk
        rintro rfl
        exact hi ⟨hderef, r, w, hval, rfl⟩
      · exact fun a ha _ => hkeep.mem a ha trivial
    · intro vm'' hsame x hx
      obtain ⟨W, vm₃, hreg, hbsym, hden⟩ :=
        (hsame.holdsReg hholds).readRegister (hsame.vmAgrees hagrees).cells henc hw he
      rw [VMState.ReadsBack, hderef, hval]
      exact ⟨W, vm₃, hreg, hbsym, fun ρ => (hden ρ).trans (hx ρ)⟩
  | memory hderef =>
    obtain ⟨hr, hset⟩ := hp.setSymValue_memory hderef hread
    have hline := hline (by rw [hderef]; rfl)
    obtain ⟨vm', hwrite, hagrees, -, hholds, hkeep⟩ := writeMemory_expr h hr hline he
    refine ⟨vm', (hset e).trans hwrite, hagrees, ?_, ?_⟩
    · constructor
      · exact fun i _ k hk => hkeep.reg i trivial k hk
      · intro a ha hout
        refine hkeep.mem a ha ?_
        exact fun hin => hout ⟨w, hderef, hin⟩
    · intro vm'' hsame x hx
      obtain ⟨W, vm₃, hmem, hbsym, hden⟩ :=
        (hsame.holdsMem hholds).readMemory (hsame.vmAgrees hagrees).cells hr hline he
      rw [VMState.ReadsBack, hderef]
      exact ⟨W, vm₃, hmem, hbsym, fun ρ => (hden ρ).trans (hx ρ)⟩

/-- The handler of arithmetic and logic on operands of one width, one of them
symbolic. -/
theorem processBinary_done {k : BinKind} {op : BinOp} (hk : k.op = some op) {id : EntryID}
    (hid : isFlagChangingInstr id = true) (h : VMAgrees vm) (hw : w = 2 ∨ w = 4 ∨ w = 8)
    (hD : D.Place w) (hS : S.Form w) (hDread : D.isRead = true) (hSread : S.isRead = true)
    (hline : D.deref.isSome = true → D.address I vm.cpu % 16 + w ≤ 16)
    (hsym : vm.isSymOprnd I D = true ∨ vm.isSymOprnd I S = true) {vecOI : List OprndInfo}
    (hall : List.Forall₂ (fun O oi => Parsed vm I O false oi) [D, S] vecOI) :
    ∃ vm', processBinary k id vm vecOI = some vm' ∧ BinaryDone op I D S vm vm' := by
  have hw1 : w ≠ 1 := by omega
  obtain ⟨o1, rest, hp1, hrest, rfl⟩ := List.forall₂_cons_left_iff.1 hall
  obtain ⟨o2, rest, hp2, hnil, rfl⟩ := List.forall₂_cons_left_iff.1 hrest
  rw [List.forall₂_nil_left_iff.1 hnil]
  have h1 := HoldsBytes.of_parsed h hw1 hD.form hDread hp1
  have h2 := HoldsBytes.of_parsed h hw1 hS hSread hp2
  rw [← hp1.symb_eq hDread, ← hp2.symb_eq hSread] at hsym
  have hlenD := fun ρ => hD.form.length_bytes ρ vm I
  have hlenS := fun ρ => hS.length_bytes ρ vm I
  obtain ⟨oe, hoe, hden⟩ := operate_denote hk h1 h2 (fun ρ => (hlenD ρ).trans (hlenS ρ).symm) hsym
  have hbytes : HasBytes oe w :=
    ⟨by omega, fun ρ => ⟨_, hden ρ, (length_binBytes _ _ _).trans (hlenD ρ)⟩⟩
  obtain ⟨vm₁, hset, hagrees, hkeep, hback⟩ := setSymValue_done h hw1 hD hDread hline hp1 hbytes
  obtain ⟨vm₂, hsave, hsame, hlast, hflags⟩ := saveFlagChanging_spec vm₁ hid oe
  refine ⟨vm₂, ?_, ?_⟩
  · rw [processBinary]
    simp only [List.getElem?_cons_zero, List.getElem?_cons_succ, Option.bind_eq_bind,
      Option.bind_some, hoe, hset, hsave]
  · constructor
    · exact hback vm₂ hsame _ hden
    · exact hsame.keepsBytes hkeep
    · exact hflags
    · rw [hlast]
      exact hden
    · exact hsame.vmAgrees hagrees

end Handler

/-! ## The instruction -/

/-- The operation of an instruction. -/
def binaryOp : EntryID → Option BinOp
  | .add => some .add
  | .sub => some .sub
  | .and => some .and
  | .or => some .or
  | .xor => some .xor
  | _ => none

/-- `process` sends the seven two-operand instructions to one handler, each with its own
operation, and all of them change the flags. -/
theorem process_eq_binary {I : Instruction} {op : BinOp} (hop : binaryOp I.id = some op) :
    ∃ k : BinKind, k.op = some op ∧ isFlagChangingInstr I.id = true ∧
      ∀ vm vecOI, process I vm vecOI = processBinary k I.id vm vecOI := by
  obtain ⟨id, operands, implicitReads⟩ := I
  cases id with
  | add =>
    obtain rfl := Option.some.inj hop
    exact ⟨.add, rfl, rfl, fun _ _ => rfl⟩
  | sub =>
    obtain rfl := Option.some.inj hop
    exact ⟨.sub, rfl, rfl, fun _ _ => rfl⟩
  | and =>
    obtain rfl := Option.some.inj hop
    exact ⟨.and, rfl, rfl, fun _ _ => rfl⟩
  | or =>
    obtain rfl := Option.some.inj hop
    exact ⟨.or, rfl, rfl, fun _ _ => rfl⟩
  | xor =>
    obtain rfl := Option.some.inj hop
    exact ⟨.xor, rfl, rfl, fun _ _ => rfl⟩
  | _ => simp [binaryOp] at hop

section Same

variable {vm vm₁ vm' : VMState} (hsame : SameCells vm vm₁)

include hsame

/-- Machines with the same cells have the same bytes in the registers. -/
theorem SameCells.regByte (ρ : Valuation) (i : PtIdx) (k : Nat) :
    vm₁.regByte ρ i k = vm.regByte ρ i k := by
  rw [VMState.regByte, VMState.regByte, hsame.regCells, hsame.ptRegs]

/-- They have the same bytes in memory. -/
theorem SameCells.memByte (ρ : Valuation) (a : Nat) : vm₁.memByte ρ a = vm.memByte ρ a := by
  rw [VMState.memByte, VMState.memByte, hsame.storedCells, hsame.concrete]

/-- So the bytes of an operand are the same, its address included. -/
theorem SameCells.bytes (ρ : Valuation) (I : Instruction) (O : Operand) :
    O.bytes ρ vm₁ I = O.bytes ρ vm I := by
  simp only [Operand.bytes, hsame.memByte, hsame.address, hsame.eval, funext (hsame.regByte ρ _)]

/-- The agreement with the concrete bytes depends on the cells alone. -/
theorem SameCells.vmAgrees (hshape : VMShape vm₁) (h : VMAgrees vm) : VMAgrees vm₁ := by
  constructor
  · exact h.cells.same hshape hsame
  · rw [SYMemState.Agrees, hsame.bitmap, hsame.storedCells]
    exact h.mem
  · rw [hsame.symBitmap, hsame.regCells]
    exact h.regs

/-- What has been done since a parse has been done since before it. -/
theorem SameCells.binaryDone {op : BinOp} {I : Instruction} {D S : Operand}
    (hdone : BinaryDone op I D S vm₁ vm') : BinaryDone op I D S vm vm' := by
  obtain ⟨hresult, hframe, hflags, hlast, hagrees⟩ := hdone
  rw [hsame.address] at hresult hframe
  simp only [hsame.bytes] at hresult hlast
  refine ⟨hresult, ⟨?_, ?_⟩, hflags, hlast, hagrees⟩
  · intro i hi k hk
    obtain ⟨hbit, hbyte⟩ := hframe.reg i hi k hk
    rw [hsame.symBitmap] at hbit
    exact ⟨hbit, fun ρ => (hbyte ρ).trans (hsame.regByte ρ i k)⟩
  · intro a ha hM
    obtain ⟨hmark, hbyte⟩ := hframe.mem a ha hM
    rw [hsame.bitmap] at hmark
    exact ⟨hmark, fun ρ => (hbyte ρ).trans (hsame.memByte ρ a)⟩

end Same

/-- `add`, `sub`, `and`, `or` and `xor` on the parsed operands. The destination then holds
the operation on the values of both operands, and so does the expression that is saved for
the flags. Every byte outside of the destination stands for what it did, the flags are
uncertain, and the shadow agrees with its marks. -/
theorem exec_binary {vm vm₁ : VMState} {I : Instruction} {D S : Operand} {w : Nat} {op : BinOp}
    {vecOI : List OprndInfo} (h : VMAgrees vm) (hop : binaryOp I.id = some op)
    (hops : I.operands = [D, S]) (hw : w = 2 ∨ w = 4 ∨ w = 8) (hD : D.Place w) (hS : S.Form w)
    (hDread : D.isRead = true) (hSread : S.isRead = true)
    (hline : D.deref.isSome = true → D.address I vm.cpu % 16 + w ≤ 16)
    (hsym : vm.isSymOprnd I D = true ∨ vm.isSymOprnd I S = true)
    (hparse : vm.parseOperands false I = some (vecOI, vm₁)) :
    ∃ vm', process I vm₁ vecOI = some vm' ∧ BinaryDone op I D S vm vm' := by
  have hsizes : ∀ O ∈ I.operands, isAccessSize O.size = true := by
    have hwidth : isAccessSize w = true := by
      rcases hw with rfl | rfl | rfl <;> rfl
    intro O hO
    rw [hops] at hO
    rcases List.mem_cons.1 hO with rfl | hO
    · rw [hD.form.size_eq]
      exact hwidth
    · rw [List.mem_singleton.1 hO, hS.size_eq]
      exact hwidth
  obtain ⟨hshape, hsame, hall⟩ := h.cells.shape.parseOperands hsizes hparse
  obtain ⟨k, hk, hid, hproc⟩ := process_eq_binary hop
  -- The parse of the operands is one from its own end state, too, as it has only read.
  have hall₁ : List.Forall₂ (fun O oi => Parsed vm₁ I O false oi) [D, S] vecOI := by
    rw [← hops]
    exact hall.imp fun _ _ hp => hsame.symm.parsed hp
  rw [← hsame.address] at hline
  rw [← hsame.isSymOprnd, ← hsame.isSymOprnd] at hsym
  obtain ⟨vm', hrun, hdone⟩ := processBinary_done hk hid (hsame.vmAgrees hshape h) hw hD hS hDread
    hSread hline hsym hall₁
  exact ⟨vm', (hproc vm₁ vecOI).trans hrun, hsame.binaryDone hdone⟩

/-- A fresh machine has neither marks nor cells. -/
theorem vmAgrees_new (ptRegs : MacReg) (concrete : Nat → BitVec 8) :
    VMAgrees (VMState.new ptRegs concrete) := by
  have hmem : (SYMemState.new concrete).storedCells = [] := segs_liveCells repr_new
  constructor
  · constructor
    · exact ⟨memCells_new concrete, cpuShadow_new ptRegs⟩
    · show CellsOk HasBytes (SYMemState.new concrete).storedCells
      rw [hmem]
      exact cellsOk_nil
    · intro i
      show CellsOk HasBytes ((SYCPUState.new ptRegs).regCells i)
      rw [regCells_new]
      exact cellsOk_nil
  · exact (shadow_new concrete).agrees
  · intro i k _
    have hbit : ((VMState.new ptRegs concrete).cpu.symBitmap i).getLsbD k = false :=
      BitVec.getLsbD_zero
    have hcells : (VMState.new ptRegs concrete).cpu.regCells i = [] := regCells_new ptRegs i
    rw [hbit, hcells]
    exact iff_of_false Bool.false_ne_true (covered_nil _)

/-- `add rax, 7` with a symbol in `rax`. The immediate is of the width of the register. -/
theorem exec_binary_add : ∃ vm vm₁ vm' vecOI,
    vm.isSYReg ⟨.rax, .full⟩ = true ∧
    vm.parseOperands false
      ⟨.add, [⟨.register ⟨.rax, .full⟩ 8, none, true, true⟩, ⟨.immediate 7 8, none, true, false⟩],
        []⟩ = some (vecOI, vm₁) ∧
    process
      ⟨.add, [⟨.register ⟨.rax, .full⟩ 8, none, true, true⟩, ⟨.immediate 7 8, none, true, false⟩],
        []⟩ vm₁ vecOI = some vm' ∧
    BinaryDone .add
      ⟨.add, [⟨.register ⟨.rax, .full⟩ 8, none, true, true⟩, ⟨.immediate 7 8, none, true, false⟩],
        []⟩ ⟨.register ⟨.rax, .full⟩ 8, none, true, true⟩ ⟨.immediate 7 8, none, true, false⟩
      vm vm' := by
  let obj : SYMemObject := ⟨0, "S", 4096, 8, false, true, 1⟩
  have hsymbol : HasBytes (Expr.udefExpr (some obj)) 8 := by
    refine ⟨by decide, fun ρ => ⟨bytesOf (ρ "S" 64).toNat 8, ?_, length_bytesOf _ 8⟩⟩
    rw [Expr.udefExpr, Expr.denote]
    rfl
  -- The symbol is put into `rax` by a write.
  obtain ⟨vm, -, hvm, -, hholds, -⟩ := writeRegister_expr (vmAgrees_new (fun _ => 0) fun _ => 0)
    (show dyinstEncoding ⟨.rax, .full⟩ = some 8 from rfl) hsymbol
  let D : Operand := ⟨.register ⟨.rax, .full⟩ 8, none, true, true⟩
  let S : Operand := ⟨.immediate 7 8, none, true, false⟩
  have hD : D.Place 8 := .register ⟨.rax, .full⟩ rfl rfl rfl
  have hS : S.Form 8 := .immediate 7 rfl rfl
  obtain ⟨vecOI, vm₁, hparse⟩ := hvm.cells.shape.exists_parseOperands (I := ⟨.add, [D, S], []⟩)
    (by
      intro O hO
      simp only [List.mem_cons, List.not_mem_nil, or_false] at hO
      rcases hO with rfl | rfl
      · exact ⟨rfl, 8, hD.form, Or.inl rfl, fun hsome => absurd hsome (by simp [D])⟩
      · exact ⟨rfl, 8, hS, Or.inl rfl, fun hsome => absurd hsome (by simp [S])⟩)
    (show ∀ P ∈ [((⟨.rax, .full⟩ : MachRegister), 8)], dyinstEncoding P.1 = some P.2 by decide)
    false
  have hsym : vm.isSymOprnd ⟨.add, [D, S], []⟩ D = true := by
    show ([(⟨.rax, .full⟩, 8)] : List (MachRegister × Nat)).any (fun P => vm.isSYReg P.1) = true
    simp [hholds.sym]
  obtain ⟨vm', hrun, hdone⟩ := exec_binary hvm rfl rfl (Or.inr (Or.inr rfl)) hD hS rfl rfl
    (by simp [D]) (Or.inl hsym) hparse
  exact ⟨vm, vm₁, vm', vecOI, hholds.sym, hparse, hrun, hdone⟩

end KRover
