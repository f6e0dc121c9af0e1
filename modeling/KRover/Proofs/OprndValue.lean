import KRover.Proofs.ExprDenote
import KRover.Proofs.OprndParse

/-! # The bytes that operands hold

A byte of a register or of the memory is what the cell over it stands for, or
the concrete byte where there is none. An operand holds the bytes of its
register, its memory or its immediate, and these are what the parser finds: an
expression that stands for them when one of them is symbolic, and otherwise a
constant that consists of them.

* `regExpr_denote`, `memExpr_denote`: what reads of symbolic ranges stand for;
* `HoldsBytes.of_parsed`: what the parser finds;
* `exists_parseOperands`: operands are parsed, those in memory when they are found.
-/

set_option autoImplicit false

namespace KRover

open Segments BvTerm Bytes SymbolListMap

/-! ## Bytes of the state -/

namespace VMState

/-- Byte `k` of a register word. -/
def regByte (ρ : Valuation) (vm : VMState) (i : PtIdx) (k : Nat) : BitVec 8 :=
  (lookup (Expr.byte ρ) (vm.cpu.regCells i) k).getD (byteOf (vm.cpu.ptRegs i).toNat k)

/-- The byte of the memory at an address. -/
def memByte (ρ : Valuation) (vm : VMState) (a : Nat) : BitVec 8 :=
  (lookup (Expr.byte ρ) vm.mem.storedCells (toInt64 a)).getD (vm.mem.concrete a)

end VMState

/-- The bytes that an operand holds. -/
def Operand.bytes (ρ : Valuation) (vm : VMState) (I : Instruction) (O : Operand) :
    List (BitVec 8) :=
  match O.deref, O.value with
  | some n, _ => (List.range n).map fun k => vm.memByte ρ (O.address I vm.cpu + k)
  | none, .register r n => (List.range n).map (vm.regByte ρ r.offt)
  | none, a => bytesOf (a.eval vm.cpu).toNat a.size

/-- The bitmaps and the cell lists agree, and every cell holds an expression
of its size. -/
structure VMAgrees (vm : VMState) : Prop where
  cells : VMCells HasBytes vm
  mem : vm.mem.Agrees
  regs : ∀ i (k : Nat), k < 8 →
    ((vm.cpu.symBitmap i).getLsbD k = true ↔ Covered (vm.cpu.regCells i) k)

/-! ## Reading registers -/

section Registers

variable {vm : VMState} {ρ : Valuation} {r : MachRegister} {n : Nat}

/-- The concrete bytes of a register of more than one byte. -/
theorem byteOf_readConcreteValue (cpu : SYCPUState) (henc : dyinstEncoding r = some n)
    (hn : n ≠ 1) {k : Nat} (hk : k < n) :
    byteOf (cpu.readConcreteValue r n 0).toNat k = byteOf (cpu.ptRegs r.offt).toNat k := by
  have henc' : (regRead r n false).Encoded := henc
  have hlow := setWidth_readConcreteValue cpu henc' 0
  rw [if_neg (show ¬ (regRead r n false).size = 1 from hn)] at hlow
  have hlow : (cpu.readConcreteValue r n 0).setWidth (8 * n)
      = (cpu.ptRegs r.offt).setWidth (8 * n) := hlow
  rw [← byteOf_setWidth _ hk, hlow, byteOf_setWidth _ hk]

/-- `setReadRegs` extends them with their sign. -/
theorem byteOf_registerResult (cpu : SYCPUState) (henc : dyinstEncoding r = some n)
    (hn : n ≠ 1) {k : Nat} (hk : k < n) :
    byteOf (OperandAST.registerResult cpu r n).toNat k
      = byteOf (cpu.ptRegs r.offt).toNat k := by
  have henc' : (regRead r n false).Encoded := henc
  have hs : n ≤ 8 := henc'.size_bounds.2
  rw [OperandAST.registerResult, byteOf_signExtend _ (by omega) hk, byteOf_setWidth _ hk]
  exact byteOf_readConcreteValue cpu henc hn hk

/-- A read of a symbolic register stands for its bytes. -/
theorem regExpr_denote (h : VMCells HasBytes vm) (henc : dyinstEncoding r = some n) (hn : n ≠ 1)
    (hsym : vm.isSYReg r = true) :
    (vm.cpu.valueRead (regRead r n false)).expr.denote ρ
      = some ((List.range n).map (vm.regByte ρ r.offt)) := by
  have henc' : (regRead r n false).Encoded := henc
  have hpos : 0 < n := henc'.size_bounds.1
  obtain ⟨hform, hcells⟩ := h.regWindow exprLaw_hasBytes henc' hsym
  obtain ⟨e, he⟩ := exprOfCells_isSome (vm.cpu.readConcreteValue r n 0) n hform.ne
  have hexpr : (vm.cpu.valueRead (regRead r n false)).expr = e := by
    have hcpu : vm.cpu.isSYReg (regRead r n false).indx = true := hsym
    rw [SYCPUState.valueRead, hcpu]
    show (exprOfCells (vm.cpu.readConcreteValue r n 0) n (vm.cpu.regWindow _)).getD .null = e
    rw [he]
    rfl
  rw [hexpr, denote_exprOfCells hform.sorted hform.inside hcells he, overlay]
  refine congrArg some (List.map_congr_left fun k hk => ?_)
  have hk : k < n := List.mem_range.1 hk
  have hwin : lookup (Expr.byte ρ) (vm.cpu.regWindow (regRead r n false)) k
      = lookup (Expr.byte ρ) (vm.cpu.regCells r.offt) k := by
    rw [SYCPUState.regWindow, lookup_shift]
    show lookup (Expr.byte ρ) (window cutExpr 0 (0 + (n : Int)) (vm.cpu.regCells r.offt)) _ = _
    rw [lookup_window (cutLaw_byte (h.regCells _)) (by omega), if_pos (by omega), Int.add_zero]
  rw [hwin, byteOf_readConcreteValue vm.cpu henc hn hk]
  rfl

/-- No byte of a register that is not symbolic lies under a cell. -/
theorem VMAgrees.regByte_concrete (h : VMAgrees vm) (henc : dyinstEncoding r = some n)
    (hcon : vm.isSYReg r = false) {k : Nat} (hk : k < n) :
    vm.regByte ρ r.offt k = byteOf (vm.cpu.ptRegs r.offt).toNat k := by
  obtain ⟨-, hmask, hsize⟩ := regIdxToAddrSize_of_encoded henc
  have hnot : ¬ Covered (vm.cpu.regCells r.offt) k := by
    intro hcov
    have hbit := (h.regs r.offt k (by omega)).2 hcov
    have hne := (BitRange.and_mask_ne_zero_iff (show 0 + n ≤ 64 by omega)
      (vm.cpu.symBitmap r.offt)).2 ⟨k, by omega, hbit⟩
    rw [VMState.isSYReg, SYCPUState.isSYReg, hmask, bne_eq_false_iff_eq] at hcon
    exact hne hcon
  rw [VMState.regByte, (lookup_eq_none _ _ _).2 hnot, Option.getD_none]

end Registers

/-! ## Reading memory -/

section Memory

variable {vm : VMState} {ρ : Valuation} {addr n : Nat}

/-- The bytes of an access have consecutive signed addresses. -/
theorem AccessRange.toInt64_add (hr : AccessRange addr n) {k : Nat} (hk : k < n) :
    toInt64 (addr + k) = toInt64 addr + k := by
  have hc := hr.canonical
  have hb := hr.bound
  unfold Canonical toInt64 at *
  split at hc <;> split <;> omega

/-- The concrete bytes of a range. -/
theorem byteOf_readConcrete (mem : Nat → BitVec 8) (hr : AccessRange addr n) {k : Nat}
    (hk : k < n) :
    byteOf ((readConcrete mem addr n).getD 0).toNat k = mem (addr + k) := by
  have hw := hr.width
  simp only [isAccessSize, Bool.or_eq_true, decide_eq_true_eq] at hw
  have hle := hr.le
  rw [readConcrete, if_pos hr.width, Option.getD_some, byteOf_signExtend _ (by omega) hk,
    BitVec.toNat_ofNat, Nat.pow_mul]
  show byteOf (loadBytes mem addr n % 256 ^ n) k = _
  rw [byteOf_mod hk, loadBytes, byteOf_ofBytes (by simpa using hk)]
  have hmod : (addr + k) % 2 ^ 64 = addr + k := Nat.mod_eq_of_lt (by omega)
  simp only [List.getElem_map, List.getElem_range, hmod]

/-- A read of symbolic memory stands for its bytes. -/
theorem memExpr_denote (h : VMCells HasBytes vm) (hr : AccessRange addr n)
    (hsym : vm.mem.isSYMemoryCell addr n = true) :
    (vm.mem.valueRead (memRead addr n false)).expr.denote ρ
      = some ((List.range n).map fun k => vm.memByte ρ (addr + k)) := by
  have hpos := hr.pos
  obtain ⟨hform, hcells⟩ := h.memWindow exprLaw_hasBytes hr hsym
  obtain ⟨e, he⟩ := exprOfCells_isSome ((readConcrete vm.mem.concrete addr n).getD 0) n hform.ne
  have hexpr : (vm.mem.valueRead (memRead addr n false)).expr = e := by
    have hmem : vm.mem.isSYMemoryCell (memRead addr n false).addr (memRead addr n false).size
        = true := hsym
    rw [SYMemState.valueRead, hmem]
    show (exprOfCells ((readConcrete vm.mem.concrete addr n).getD 0) n
      (vm.mem.memWindow addr n)).getD .null = e
    rw [he]
    rfl
  -- The expression is spelled byte by byte: the cells over the concrete bytes.
  rw [hexpr, denote_exprOfCells hform.sorted hform.inside hcells he, overlay]
  refine congrArg some (List.map_congr_left fun k hk => ?_)
  have hk : k < n := List.mem_range.1 hk
  have hwin : lookup (Expr.byte ρ) (vm.mem.memWindow addr n) k
      = lookup (Expr.byte ρ) vm.mem.storedCells (toInt64 (addr + k)) := by
    rw [SYMemState.memWindow, lookup_shift, lookup_window (cutLaw_byte h.memCells)
      (show toInt64 addr < toInt64 addr + (n : Nat) by omega), if_pos (by omega),
      hr.toInt64_add hk, Int.add_comm]
  rw [hwin, byteOf_readConcrete vm.mem.concrete hr hk]
  rfl

/-- No byte of memory that is not symbolic lies under a cell. -/
theorem VMAgrees.memByte_concrete (h : VMAgrees vm) (hr : AccessRange addr n)
    (hcon : vm.mem.isSYMemoryCell addr n = false) {k : Nat} (hk : k < n) :
    vm.memByte ρ (addr + k) = vm.mem.concrete (addr + k) := by
  have hle := hr.le
  have hnot : ¬ Covered vm.mem.storedCells (toInt64 (addr + k)) := by
    intro hcov
    have hmark := (h.mem (addr + k) (by omega)).2 hcov
    have hsym := (SYMemBitmap.testSYMemBitmap_iff vm.mem.bitmap hr.le hr.pos hr.noWrap).2
      ⟨addr + k, by omega, hmark⟩
    exact Bool.false_ne_true (hcon.symm.trans hsym)
  rw [VMState.memByte, (lookup_eq_none _ _ _).2 hnot, Option.getD_none]

end Memory

/-! ## Operands -/

/-- The operands of arithmetic and logic: a register, memory or an immediate of
`w` bytes. -/
inductive Operand.Form (w : Nat) (O : Operand) : Prop where
  | register (r : MachRegister) (hderef : O.deref = none) (hval : O.value = .register r w)
      (henc : dyinstEncoding r = some w)
  | memory (hderef : O.deref = some w)
  | immediate (v : BitVec 64) (hderef : O.deref = none) (hval : O.value = .immediate v w)

/-- Those that a result goes to. -/
inductive Operand.Place (w : Nat) (O : Operand) : Prop where
  | register (r : MachRegister) (hderef : O.deref = none) (hval : O.value = .register r w)
      (henc : dyinstEncoding r = some w)
  | memory (hderef : O.deref = some w)

/-- A place is one of the forms of an operand. -/
theorem Operand.Place.form {w : Nat} {O : Operand} (h : O.Place w) : O.Form w := by
  cases h with
  | register r hderef hval henc => exact .register r hderef hval henc
  | memory hderef => exact .memory hderef

namespace Operand.Form

variable {w : Nat} {O : Operand}

/-- The size of the operand is that of its form. -/
theorem size_eq (h : O.Form w) : O.size = w := by
  cases h with
  | register r hderef hval henc => rw [Operand.size, hderef, hval]; rfl
  | memory hderef => rw [Operand.size, hderef]; rfl
  | immediate v hderef hval => rw [Operand.size, hderef, hval]; rfl

/-- It stands for that many bytes. -/
theorem length_bytes (h : O.Form w) (ρ : Valuation) (vm : VMState) (I : Instruction) :
    (O.bytes ρ vm I).length = w := by
  cases h with
  | register r hderef hval henc => simp [Operand.bytes, hderef, hval]
  | memory hderef => simp [Operand.bytes, hderef]
  | immediate v hderef hval => simp [Operand.bytes, hderef, hval, OperandAST.size]

/-- A register that is read is all the operand reads. -/
theorem readSet_register {r : MachRegister} (hderef : O.deref = none)
    (hval : O.value = .register r w) (hread : O.isRead = true) : O.readSet = [(r, w)] := by
  rw [Operand.readSet, hderef, hval, hread]
  rfl

/-- A literal reads no register. -/
theorem readSet_immediate {v : BitVec 64} (hderef : O.deref = none)
    (hval : O.value = .immediate v w) : O.readSet = [] := by
  rw [Operand.readSet, hderef, hval]
  rfl

end Operand.Form

/-- What the parser has found of an operand are the bytes that it holds: an
expression that stands for them, or a constant that consists of them. -/
structure HoldsBytes (vm : VMState) (I : Instruction) (O : Operand) (oi : OprndInfo) : Prop where
  sym : oi.symb = true →
    ∃ e, oi.getSymValue = some e ∧ ∀ ρ, e.denote ρ = some (O.bytes ρ vm I)
  con : oi.symb = false →
    ∃ v, oi.getConValue = some v ∧ ∀ ρ, bytesOf v.toNat oi.size = O.bytes ρ vm I

/-- A register, memory or immediate of more than one byte, as the parser finds
it. -/
theorem HoldsBytes.of_parsed {vm : VMState} (h : VMAgrees vm) {I : Instruction} {O : Operand}
    {oi : OprndInfo} {w : Nat} (hw : w ≠ 1) (hform : O.Form w) (hread : O.isRead = true)
    (hp : Parsed vm I O false oi) : HoldsBytes vm I O oi := by
  have hsize := hform.size_eq
  -- By what the operand is, and within that by the branch its parser took.
  cases hform with
  | register r hderef hval henc =>
    have hset := Operand.Form.readSet_register hderef hval hread
    have hbytes : ∀ ρ, O.bytes ρ vm I = (List.range w).map (vm.regByte ρ r.offt) := by
      intro ρ
      rw [Operand.bytes, hderef, hval]
    cases hp with
    | imm _ _ _ hempty => simp [hset] at hempty
    | regCon _ r' _ _ hcon _ =>
      refine ⟨fun hsym => absurd hsym Bool.false_ne_true, fun _ => ⟨_, rfl, fun ρ => ?_⟩⟩
      -- The register is the one that was asked for and found concrete.
      have hreg : vm.isSYReg r = false := by
        refine hcon (r, w) ?_
        rw [hset]
        exact List.mem_singleton_self _
      rw [hbytes ρ, hval]
      show bytesOf (OperandAST.registerResult vm.cpu r w).toNat O.size = _
      rw [hsize, bytesOf]
      refine List.map_congr_left fun k hk => ?_
      have hk : k < w := List.mem_range.1 hk
      rw [byteOf_registerResult vm.cpu henc hw hk, h.regByte_concrete henc hreg hk]
    | regSym r' size' _ _ hval' _ hsym =>
      obtain ⟨rfl, rfl⟩ := OperandAST.register.inj (hval'.symm.trans hval)
      refine ⟨fun _ => ⟨_, rfl, fun ρ => ?_⟩, fun hcon => absurd hcon (by simp)⟩
      rw [hbytes ρ]
      exact regExpr_denote h.cells henc hw hsym
    | sum x y size e1 e2 _ _ hval' _ _ _ => simp [hval] at hval'
    | memCon _ _ _ hsome _ _ _ | memSym _ _ hsome _ _ _ => simp [hderef] at hsome
    | regWritten _ _ _ _ hnot | memWritten _ hnot => simp [hread] at hnot
  | memory hderef =>
    have hbytes : ∀ ρ, O.bytes ρ vm I
        = (List.range w).map fun k => vm.memByte ρ (O.address I vm.cpu + k) := by
      intro ρ
      rw [Operand.bytes, hderef]
    cases hp with
    | memCon _ accs haccs _ _ hr hcon =>
      refine ⟨fun hsym => absurd hsym Bool.false_ne_true, fun _ => ?_⟩
      refine ⟨(vm.mem.valueRead (memRead (O.address I vm.cpu) O.size false)).i64, ?_, fun ρ => ?_⟩
      · simp [OprndInfo.getConValue, haccs]
      -- A concrete cell is read as the machine holds it.
      · have hi64 : (vm.mem.valueRead (memRead (O.address I vm.cpu) O.size false)).i64
            = (readConcrete vm.mem.concrete (O.address I vm.cpu) O.size).getD 0 := by
          have hcon' : vm.mem.isSYMemoryCell (memRead (O.address I vm.cpu) O.size false).addr
              (memRead (O.address I vm.cpu) O.size false).size = false := hcon
          rw [SYMemState.valueRead, hcon']
          rfl
        show bytesOf _ O.size = _
        rw [hbytes ρ, hi64, ← hsize, bytesOf]
        refine List.map_congr_left fun k hk => ?_
        have hk : k < O.size := List.mem_range.1 hk
        rw [byteOf_readConcrete vm.mem.concrete hr hk, h.memByte_concrete hr hcon hk]
    | memSym accs haccs _ _ hr hsym =>
      refine ⟨fun _ => ⟨_, rfl, fun ρ => ?_⟩, fun hcon => absurd hcon (by simp)⟩
      rw [hbytes ρ, ← hsize]
      exact memExpr_denote h.cells hr hsym
    | imm _ hnone _ _ | regCon _ _ hnone _ _ _ | regSym _ _ hnone _ _ _ _
    | sum _ _ _ _ _ hnone _ _ _ _ _ => simp [hderef] at hnone
    | regWritten _ _ _ _ hnot | memWritten _ hnot => simp [hread] at hnot
  | immediate v hderef hval =>
    have hset := Operand.Form.readSet_immediate hderef hval
    cases hp with
    | imm _ _ _ _ =>
      refine ⟨fun hsym => absurd hsym Bool.false_ne_true, fun _ => ⟨_, rfl, fun ρ => ?_⟩⟩
      show bytesOf (O.value.eval vm.cpu).toNat O.size = _
      rw [Operand.bytes, hderef, hval, hsize]
      rfl
    | regCon _ r _ _ _ hr => simp [hset] at hr
    | regSym _ _ _ _ hval' _ _ | sum _ _ _ _ _ _ _ hval' _ _ _ => simp [hval] at hval'
    | memCon _ _ _ hsome _ _ _ | memSym _ _ hsome _ _ _ => simp [hderef] at hsome
    | regWritten _ _ _ _ hnot | memWritten _ hnot => simp [hread] at hnot

/-! ## Operands that are parsed -/

/-- The parser finds the address of a memory operand, it is concrete, and the
bytes are there, in one line of 16. -/
structure Operand.Reached (O : Operand) (vm : VMState) (I : Instruction) : Prop where
  base : O.readSet ≠ [] ∨ O.isWritten = false ∧ I.gsBase vm.cpu ≠ 0
  concrete : ∀ P ∈ O.readSet, vm.isSYReg P.1 = false
  range : AccessRange (O.address I vm.cpu) O.size
  line : O.address I vm.cpu % 16 + O.size ≤ 16

/-- What is reached over some cells is so over the same ones. -/
theorem SameCells.reached {vm vm₁ : VMState} (hsame : SameCells vm vm₁) {O : Operand}
    {I : Instruction} (h : O.Reached vm I) : O.Reached vm₁ I where
  base := by
    rw [hsame.gsBase]
    exact h.base
  concrete := by
    intro P hP
    rw [hsame.isSYReg]
    exact h.concrete P hP
  range := by
    rw [hsame.address]
    exact h.range
  line := by
    rw [hsame.address]
    exact h.line

/-- An operand that is read, or a place that is written; one in memory is
found. -/
structure Operand.Parses (O : Operand) (vm : VMState) (I : Instruction) (w : Nat) : Prop where
  form : O.Form w
  access : O.isRead = true ∨ O.isWritten = true ∧ O.Place w
  memory : O.deref.isSome = true → O.Reached vm I

namespace VMShape

variable {vm : VMState} {I : Instruction} {O : Operand} {w : Nat}

/-- A register or literal that is read is parsed as one expression. -/
theorem exists_parse_read (h : VMShape vm) (hform : O.Form w) (hderef : O.deref = none)
    (hread : O.isRead = true) : ∃ oi vm', vm.mayOperandUseSymbolXX O = some (oi, vm') := by
  rw [VMState.mayOperandUseSymbolXX, if_pos hread]
  cases hform with
  | memory hsome => simp [hderef] at hsome
  | immediate v _ hval =>
    rw [Operand.Form.readSet_immediate hderef hval]
    exact ⟨_, vm, rfl⟩
  | register r _ hval henc =>
    obtain ⟨vm₁, hreg, h₁, -⟩ := h.exists_readRegisterExpr henc
    rw [Operand.Form.readSet_register hderef hval hread]
    -- A symbolic register is read a second time, for its expression.
    cases hsym : (vm.cpu.valueRead (regRead r w false)).bsym with
    | false =>
      have hfind : vm.findSymReg [(r, w)] = some (false, vm₁) := by
        rw [VMState.findSymReg, hreg]
        simp only [Option.bind_eq_bind, Option.bind_some, hsym, Bool.false_eq_true, if_false]
        rfl
      simp only [hfind, Option.bind_eq_bind, Option.bind_some, Bool.false_eq_true, if_false]
      exact ⟨_, vm₁, rfl⟩
    | true =>
      have hfind : vm.findSymReg [(r, w)] = some (true, vm₁) := by
        rw [VMState.findSymReg, hreg]
        simp only [Option.bind_eq_bind, Option.bind_some, hsym, if_true]
        rfl
      obtain ⟨vm₂, hreg₂, -, -⟩ := h₁.exists_readRegisterExpr henc
      simp only [hfind, hval, hreg₂, Option.bind_eq_bind, Option.bind_some, if_true]
      exact ⟨_, vm₂, rfl⟩

/-- It is parsed as a list of cells just as well. -/
theorem exists_parse_readList (h : VMShape vm) (hform : O.Form w) (hderef : O.deref = none)
    (hread : O.isRead = true) : ∃ oi vm', vm.parseOperandXX O = some (oi, vm') := by
  rw [VMState.parseOperandXX, if_pos hread]
  cases hform with
  | memory hsome => simp [hderef] at hsome
  | immediate v _ hval =>
    rw [Operand.Form.readSet_immediate hderef hval]
    exact ⟨_, vm, rfl⟩
  | register r _ hval henc =>
    obtain ⟨vm₁, hreg, -, -⟩ := h.exists_readRegister henc true
    have hlist : vm.readRegisterList r w = some (vm.cpu.valueRead (regRead r w true), vm₁) :=
      asserted_eq_some.2 hreg
    rw [Operand.Form.readSet_register hderef hval hread]
    simp only [hlist, Option.bind_eq_bind, Option.bind_some, hval]
    split
    · exact ⟨_, vm₁, rfl⟩
    · exact ⟨_, vm₁, rfl⟩

/-- A register or an immediate that is read is parsed. -/
theorem exists_parseOperand_read (h : VMShape vm) (I : Instruction) (hform : O.Form w)
    (hderef : O.deref = none) (hread : O.isRead = true) (b : Bool) :
    ∃ oi vm', vm.parseOperand b I O = some (oi, vm') := by
  rw [VMState.parseOperand, Operand.readsMemory, Operand.writesMemory, hderef]
  cases b with
  | false => exact h.exists_parse_read hform hderef hread
  | true => exact h.exists_parse_readList hform hderef hread

/-- So is one that is only written. -/
theorem exists_parseOperand_written (vm : VMState) (I : Instruction) {r : MachRegister} {n : Nat}
    (hderef : O.deref = none) (hval : O.value = .register r n)
    (henc : dyinstEncoding r = some n) (hread : O.isRead = false)
    (hwritten : O.isWritten = true) (b : Bool) : ∃ oi, vm.parseOperand b I O = some (oi, vm) := by
  rw [VMState.parseOperand, Operand.readsMemory, Operand.writesMemory, hderef]
  cases b with
  | false =>
    show ∃ oi, vm.mayOperandUseSymbolXX O = some (oi, vm)
    rw [VMState.mayOperandUseSymbolXX, hread, hwritten, hval]
    simp only [Bool.false_eq_true, if_false, if_true, vm.isSYRegAt_of_encoding henc,
      Option.bind_eq_bind, Option.bind_some]
    split
    · exact ⟨_, rfl⟩
    · exact ⟨_, rfl⟩
  | true =>
    show ∃ oi, vm.parseOperandXX O = some (oi, vm)
    rw [VMState.parseOperandXX, hread, hwritten, hval]
    simp only [Bool.false_eq_true, if_false, if_true, vm.isSYRegAt_of_encoding henc,
      Option.bind_eq_bind, Option.bind_some]
    exact ⟨_, rfl⟩

/-- And memory, when it is found. -/
theorem exists_parseOperand_memory (h : VMShape vm) (hsome : O.deref.isSome = true)
    (hacc : O.isRead = true ∨ O.isWritten = true) (hreached : O.Reached vm I) (b : Bool) :
    ∃ oi vm', vm.parseOperand b I O = some (oi, vm') := by
  have hbase : O.readSet ≠ [] ∨ (!O.isWritten) = true ∧ I.gsBase vm.cpu ≠ 0 :=
    hreached.base.imp_right fun hgs => ⟨by rw [hgs.1]; rfl, hgs.2⟩
  obtain ⟨vm₁, haddr, h₁, -⟩ := h.exists_memConaddr hbase hreached.concrete
  have hcell : ∀ accs, ∃ oi vm', vm₁.parseMemCell b (O.address I vm.cpu) O.size accs
      = some (oi, vm') := fun accs => h₁.exists_parseMemCell hreached.range hreached.line b accs
  rw [VMState.parseOperand, Operand.readsMemory, Operand.writesMemory, hsome]
  cases hread : O.isRead with
  | false =>
    rw [hread] at hacc
    have hwritten : O.isWritten = true := hacc.resolve_left Bool.false_ne_true
    rw [hwritten] at haddr ⊢
    show ∃ oi vm', vm.parseOperandXW I O = some (oi, vm')
    rw [VMState.parseOperandXW]
    simp only [Bool.not_true] at haddr
    simp only [haddr, Option.bind_eq_bind, Option.bind_some]
    exact ⟨_, vm₁, rfl⟩
  | true =>
    cases hwritten : O.isWritten with
    | false =>
      rw [hwritten] at haddr
      simp only [Bool.not_false] at haddr
      show ∃ oi vm', vm.parseOperandRX b I O = some (oi, vm')
      rw [VMState.parseOperandRX]
      simp only [haddr, Option.bind_eq_bind, Option.bind_some]
      exact hcell .rd
    | true =>
      rw [hwritten] at haddr
      simp only [Bool.not_true] at haddr
      show ∃ oi vm', vm.parseOperandRW b I O = some (oi, vm')
      rw [VMState.parseOperandRW]
      simp only [haddr, Option.bind_eq_bind, Option.bind_some]
      exact hcell .rdwr

/-- An operand of known form is parsed, in either way. -/
theorem exists_parseOperand (h : VMShape vm) (hO : O.Parses vm I w) (b : Bool) :
    ∃ oi vm', vm.parseOperand b I O = some (oi, vm') := by
  cases hsome : O.deref.isSome with
  | true =>
    exact h.exists_parseOperand_memory hsome (hO.access.imp_right And.left) (hO.memory hsome) b
  | false =>
    have hderef : O.deref = none := Option.isNone_iff_eq_none.1 (by simpa using hsome)
    cases hread : O.isRead with
    | true => exact h.exists_parseOperand_read I hO.form hderef hread b
    | false =>
      obtain ⟨hwritten, hplace⟩ := hO.access.resolve_left (by simp [hread])
      cases hplace with
      | memory hmem => simp [hderef] at hmem
      | register r _ hval henc =>
        obtain ⟨oi, hparse⟩ := exists_parseOperand_written vm I hderef hval henc hread hwritten b
        exact ⟨oi, vm, hparse⟩

/-- So are all operands in turn. A parse only reads, so the next one meets the same cells. -/
theorem exists_parseEach (h : VMShape vm) {Os : List Operand}
    (hOs : ∀ O ∈ Os, isAccessSize O.size = true ∧ ∃ w, O.Parses vm I w) (b : Bool) :
    ∃ vecOI vm', vm.parseEach b I Os = some (vecOI, vm') := by
  induction Os generalizing vm with
  | nil => exact ⟨[], vm, rfl⟩
  | cons O Os ih =>
    obtain ⟨hwidth, w, hO⟩ := hOs O (by simp)
    obtain ⟨oi, vm₁, hparse⟩ := h.exists_parseOperand hO b
    obtain ⟨h₁, hsame, -⟩ := h.parseOperand hwidth hparse
    have hrest : ∀ Q ∈ Os, isAccessSize Q.size = true ∧ ∃ w, Q.Parses vm₁ I w := by
      intro Q hQ
      obtain ⟨hwidth, w, hQ⟩ := hOs Q (by simp [hQ])
      exact ⟨hwidth, w, hQ.form, hQ.access, fun hsome => hsame.reached (hQ.memory hsome)⟩
    obtain ⟨vecOI, vm', hrest⟩ := ih h₁ hrest
    refine ⟨oi :: vecOI, vm', ?_⟩
    simp only [VMState.parseEach, hparse, hrest, Option.bind_eq_bind, Option.bind_some]
    rfl

/-- An instruction is parsed when its operands are and the engine knows the
registers that it reads. -/
theorem exists_parseOperands (h : VMShape vm)
    (hOs : ∀ O ∈ I.operands, isAccessSize O.size = true ∧ ∃ w, O.Parses vm I w)
    (hknown : ∀ P ∈ I.readSet, dyinstEncoding P.1 = some P.2) (b : Bool) :
    ∃ vecOI vm', vm.parseOperands b I = some (vecOI, vm') := by
  obtain ⟨vm₁, hset, h₁, hsame⟩ := h.exists_setReadRegs hknown
  have hOs₁ : ∀ O ∈ I.operands, isAccessSize O.size = true ∧ ∃ w, O.Parses vm₁ I w := by
    intro O hO
    obtain ⟨hwidth, w, hO⟩ := hOs O hO
    exact ⟨hwidth, w, hO.form, hO.access, fun hsome => hsame.reached (hO.memory hsome)⟩
  obtain ⟨vecOI, vm', hparse⟩ := h₁.exists_parseEach hOs₁ b
  refine ⟨vecOI, vm', ?_⟩
  rw [VMState.parseOperands, hset]
  exact hparse

end VMShape

end KRover
