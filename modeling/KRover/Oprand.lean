import KRover.VMState

/-! # Operands

What the decoder says of an instruction, what the engine finds out about its
operands before it runs a handler, and how a handler gets and sets their
values.

There are two parsers. That of `CThinCtrl` reads a symbolic operand as one
expression, that of `SymExecutor` as a list of cells; on memory operands they
differ in nothing else.

`none` is a failed assertion, an exit, or a member read that was never
assigned.
-/

set_option autoImplicit false

namespace KRover

open Segments

/-- `assert(res)` on the result of a call. In a build with assertions the process ends
otherwise, which is `none`. -/
def asserted {α : Type} : Option (Bool × α) → Option α
  | some (true, a) => some a
  | _ => none

/-- A call whose result is asserted goes on only where it returned true. -/
@[simp] theorem asserted_eq_some {α : Type} {r : Option (Bool × α)} {a : α} :
    asserted r = some a ↔ r = some (true, a) := by
  unfold asserted
  split
  · simp
  · rename_i hne
    exact iff_of_false (by simp) (fun h => hne a h)

/-! ## Decoded instructions -/

/-- The expression of an operand: `RegisterAST`, `Immediate` and the two functions that
addresses are made with, each with its size. An immediate is kept as it converts to 64 bits.
-/
inductive OperandAST where
  | register (r : MachRegister) (size : Nat)
  | immediate (v : BitVec 64) (size : Nat)
  | add (x y : OperandAST) (size : Nat)
  | multiply (x y : OperandAST) (size : Nat)
deriving DecidableEq, Repr

namespace OperandAST

/-- The registers of an expression. -/
def uses : OperandAST → List (MachRegister × Nat)
  | .register r size => [(r, size)]
  | .immediate _ _ => []
  | .add x y _ => x.uses ++ y.uses
  | .multiply x y _ => x.uses ++ y.uses

/-- `size()`. -/
def size : OperandAST → Nat
  | .register _ size => size
  | .immediate _ size => size
  | .add _ _ size => size
  | .multiply _ _ size => size

/-- What `setReadRegs` makes of the value of a concrete register: a signed number of the
register's size. The decoder computes with it when it evaluates an address. -/
def registerResult (cpu : SYCPUState) (r : MachRegister) (size : Nat) : BitVec 64 :=
  ((cpu.readConcreteValue r size 0).setWidth (8 * size)).signExtend 64

/-- `eval()` and the conversion to 64 bits, with the registers as `setReadRegs` has set
them. -/
def eval (cpu : SYCPUState) : OperandAST → BitVec 64
  | .register r size => registerResult cpu r size
  | .immediate v _ => v
  | .add x y _ => x.eval cpu + y.eval cpu
  | .multiply x y _ => x.eval cpu * y.eval cpu

end OperandAST

/-- `Operand`: a value, or with `deref` so many bytes of memory at an address. Whether it is
read or written is the decoder's answer for this use of the operand. -/
structure Operand where
  value : OperandAST
  deref : Option Nat
  isRead : Bool
  isWritten : Bool
deriving DecidableEq, Repr

namespace Operand

/-- `getValue()->size()`. -/
def size (O : Operand) : Nat := O.deref.getD O.value.size

/-- `readsMemory` of the decoder's operand. -/
def readsMemory (O : Operand) : Bool := O.deref.isSome && O.isRead

/-- `writesMemory` of the decoder's operand. -/
def writesMemory (O : Operand) : Bool := O.deref.isSome && O.isWritten

/-- `getReadSet`: a register that is itself the operand counts only when the
operand is read. -/
def readSet (O : Operand) : List (MachRegister × Nat) :=
  match O.deref, O.value with
  | none, .register r size => if O.isRead then [(r, size)] else []
  | _, a => a.uses

end Operand

/-- An instruction, with the registers it reads beside its operands. The flags
that it reads are not listed: `setReadRegs` skips them. -/
structure Instruction where
  id : EntryID
  operands : List Operand
  implicitReads : List (MachRegister × Nat)
deriving DecidableEq, Repr

/-- `getReadSet` of an instruction. -/
def Instruction.readSet (I : Instruction) : List (MachRegister × Nat) :=
  I.operands.flatMap Operand.readSet ++ I.implicitReads

/-! ## `OprndInfo` -/

/-- `OperandType` with the members of the two unions that go with it. `reg_index` is not
assigned for a sum of registers that is symbolic. It says where a result is to be written.
-/
inductive OperandType where
  | unk
  | imm (v : BitVec 64)
  | reg (r : MachRegister)
  | regCon (r : MachRegister) (v : BitVec 64)
  | regSym (r : Option MachRegister) (e : Expr)
  | memCell (addr : Nat)
  | memCellCon (addr : Nat) (v : BitVec 64)
  | memCellSym (addr : Nat) (e : Expr)
deriving Repr

/-- `OperandAccs`. -/
inductive OperandAccs where
  | unk | rd | wr | rdwr
deriving DecidableEq, Repr

/-- `(rdwr & OPAC_RD) != 0`. -/
def OperandAccs.reads : OperandAccs → Bool
  | .rd | .rdwr => true
  | .unk | .wr => false

/-- `OprndInfo`. The last three members are those of an operand read as a list of cells. It
is what the parser hands to a handler: the type, the size, whether the value is symbolic,
and the value. -/
structure OprndInfo where
  opty : OperandType
  rdwr : OperandAccs
  size : Nat
  symb : Bool
  isSymList : Bool
  conVal : BitVec 64
  symList : List (Segment Expr)
deriving Repr

namespace VMState

/-- `readRegister`. The value is read into a `RegValue` whose size and mode the caller has
set. -/
def readRegister (vm : VMState) (V : RegValue) : Option (Bool × RegValue × VMState) := do
  let (res, V, cpu) ← vm.cpu.readRegister V
  return (res, V, { vm with cpu := cpu })

/-- `writeRegister`. That the register has an encoding is asserted. -/
def writeRegister (vm : VMState) (V : RegValue) : Option (Bool × VMState) := do
  let (res, cpu) ← vm.cpu.writeRegister V
  return (res, { vm with cpu := cpu })

/-- Where memory can be mapped: at canonical addresses, the very last byte apart. Both
functions below go to the memory itself and fault elsewhere. A range there is taken to be
mapped. The test is by the two halves of the canonical addresses. -/
def mapped (addr size : Nat) : Bool :=
  addr + size ≤ 2 ^ 47 || (2 ^ 64 - 2 ^ 47 ≤ addr && addr + size < 2 ^ 64)

/-- `readMemory`. A refused access returns false, and the callers assert the result. -/
def readMemory (vm : VMState) (V : MemValue) : Option (Bool × MemValue × VMState) :=
  if mapped V.addr V.size then do
    let (res, V, mem) ← vm.mem.readMemoryCell V
    return (res, V, { vm with mem := mem })
  else none

/-- `writeMemory`. -/
def writeMemory (vm : VMState) (V : MemValue) : Option (Bool × VMState) :=
  if mapped V.addr V.size then do
    let (res, mem) ← vm.mem.writeMemoryCell V
    return (res, { vm with mem := mem })
  else none

/-- `isSYReg` of a register that has an encoding. -/
def isSYReg (vm : VMState) (r : MachRegister) : Bool := vm.cpu.isSYReg r

/-- `isSYReg` of a register number. -/
def isSYRegAt (vm : VMState) (r : MachRegister) : Option Bool := vm.cpu.isSYRegAt r

/-- The mark of a register that is found is that of its bytes. -/
theorem isSYRegAt_eq_some {vm : VMState} {r : MachRegister} {b : Bool}
    (h : vm.isSYRegAt r = some b) : b = vm.isSYReg r := by
  obtain ⟨_, _, hb⟩ := Option.map_eq_some_iff.1 h
  exact hb.symm

/-- A register with an encoding is found. -/
theorem isSYRegAt_of_encoding (vm : VMState) {r : MachRegister} {n : Nat}
    (h : dyinstEncoding r = some n) : vm.isSYRegAt r = some (vm.isSYReg r) := by
  rw [isSYRegAt, SYCPUState.isSYRegAt, h]
  rfl

/-- `SaveFlagChangingInstructionExpr`. -/
def saveFlagChangingInstructionExpr (vm : VMState) (id : EntryID) (e : Expr) : Bool × VMState :=
  let (res, mgr, cpu) := vm.eflagsMgr.saveFlagChangingInstructionExpr vm.cpu id e
  (res, { vm with eflagsMgr := mgr, cpu := cpu })

end VMState

namespace OprndInfo

/-- `getConValue`. -/
def getConValue (oi : OprndInfo) : Option (BitVec 64) :=
  if oi.symb || !oi.rdwr.reads then none
  else
    match oi.opty with
    | .imm v => some v
    | .regCon _ v => some v
    | .memCellCon _ v => some v
    | _ => none

/-- `getSymValue` of an expression. -/
def getSymValue (oi : OprndInfo) : Option Expr :=
  match oi.opty with
  | .regSym _ e => some e
  | .memCellSym _ e => some e
  | _ => none

/-- `getSymValue` of a cell list, with the concrete word below it. -/
def getSymList (oi : OprndInfo) : Option (List (Segment Expr) × BitVec 64) :=
  if oi.isSymList then some (oi.symList, oi.conVal) else none

/-- `reg_index`. -/
def regIndex (oi : OprndInfo) : Option MachRegister :=
  match oi.opty with
  | .reg r => some r
  | .regCon r _ => some r
  | .regSym r _ => r
  | _ => none

/-- `setConValue`: a register takes the word, and so does memory that is only written or
that holds a concrete word. It has no case for a symbolic memory cell. -/
def setConValue (vm : VMState) (oi : OprndInfo) (v : BitVec 64) : Option VMState :=
  match oi.opty with
  | .reg _ | .regCon _ _ | .regSym _ _ => do
    let r ← oi.regIndex
    asserted (vm.writeRegister ⟨r, oi.size, false, false, v, .null, []⟩)
  | .memCell addr | .memCellCon addr _ =>
    asserted (vm.writeMemory ⟨addr, oi.size, false, false, v, .null, []⟩)
  | _ => none

/-- `setSymValue` of an expression, over a concrete value of 0. -/
def setSymValue (vm : VMState) (oi : OprndInfo) (e : Expr) : Option VMState :=
  match oi.opty with
  | .reg _ | .regCon _ _ | .regSym _ _ => do
    let r ← oi.regIndex
    asserted (vm.writeRegister ⟨r, oi.size, true, false, 0, e, []⟩)
  | .memCell addr | .memCellCon addr _ | .memCellSym addr _ =>
    asserted (vm.writeMemory ⟨addr, oi.size, true, false, 0, e, []⟩)
  | _ => none

/-- `setSymValue` of a cell list and the concrete word below it. -/
def setSymList (vm : VMState) (oi : OprndInfo) (cells : List (Segment Expr)) (v : BitVec 64) :
    Option VMState :=
  match oi.opty with
  | .reg _ | .regCon _ _ | .regSym _ _ => do
    let r ← oi.regIndex
    asserted (vm.writeRegister ⟨r, oi.size, true, true, v, .null, cells⟩)
  | .memCell addr | .memCellCon addr _ | .memCellSym addr _ =>
    asserted (vm.writeMemory ⟨addr, oi.size, true, true, v, .null, cells⟩)
  | _ => none

end OprndInfo

/-! ## Parsing -/

namespace VMState

/-- A register read as one expression. -/
def readRegisterExpr (vm : VMState) (r : MachRegister) (size : Nat) :
    Option (RegValue × VMState) :=
  asserted (vm.readRegister ⟨r, size, false, false, 0, .null, []⟩)

/-- A register read as a cell list. -/
def readRegisterList (vm : VMState) (r : MachRegister) (size : Nat) :
    Option (RegValue × VMState) :=
  asserted (vm.readRegister ⟨r, size, false, true, 0, .null, []⟩)

/-- `setReadRegs`: the values go into the decoder's expressions, where
`OperandAST.eval` finds them. -/
def setReadRegs (vm : VMState) : List (MachRegister × Nat) → Option VMState
  | [] => some vm
  | (r, size) :: regs => do
    let (_, vm) ← vm.readRegisterExpr r size
    vm.setReadRegs regs

/-- `isUseGS`: the base of `gs` when the instruction reads that register, and 0
otherwise. -/
def isUseGS (vm : VMState) (I : Instruction) : Option (BitVec 64 × VMState) :=
  if I.implicitReads.any fun P => P.1 = ⟨.gs, .full⟩ then do
    let (RV, vm) ← vm.readRegisterExpr ⟨.gs, .full⟩ 8
    return (RV.i64, vm)
  else some (0, vm)

/-- The loop that looks for a symbolic register. It asks for one register after the other
and stops at the first symbolic one. -/
def findSymReg (vm : VMState) : List (MachRegister × Nat) → Option (Bool × VMState)
  | [] => some (false, vm)
  | (r, size) :: regs => do
    let (RV, vm) ← vm.readRegisterExpr r size
    if RV.bsym then return (true, vm) else vm.findSymReg regs

/-- The expression of one summand of a symbolic sum; a register must be
symbolic. -/
def sumExpr (vm : VMState) : OperandAST → Option (Expr × VMState)
  | .register r size => do
    let (RV, vm) ← vm.readRegisterExpr r size
    if RV.bsym then return (RV.expr, vm) else none
  | .immediate v size => some (Expr.constExpr v size, vm)
  | .add _ _ _ | .multiply _ _ _ => none

/-- `_mayOperandUseSymbol_XX`: a register, an immediate, or a sum of registers
and immediates. -/
def mayOperandUseSymbolXX (vm : VMState) (O : Operand) : Option (OprndInfo × VMState) :=
  if O.isRead then
    match O.readSet with
    | [] => some (⟨.imm (O.value.eval vm.cpu), .rd, O.size, false, false, 0, []⟩, vm)
    | P :: _ => do
      let (symReg, vm) ← vm.findSymReg O.readSet
      if symReg then
        match O.value with
        | .register r size => do
          let (RV, vm) ← vm.readRegisterExpr r size
          return (⟨.regSym (some r) RV.expr, .rd, O.size, true, false, 0, []⟩, vm)
        | .add x y _ => do
          let (e1, vm) ← vm.sumExpr x
          let (e2, vm) ← vm.sumExpr y
          return (⟨.regSym none (Expr.binExpr .add e1 e2), .rd, O.size, true, false, 0, []⟩, vm)
        | .immediate _ _ | .multiply _ _ _ => none
      else return (⟨.regCon P.1 (O.value.eval vm.cpu), .rd, O.size, false, false, 0, []⟩, vm)
  else if O.isWritten then
    match O.value with
    | .register r _ => do
      let symb ← vm.isSYRegAt r
      if symb then return (⟨.regSym (some r) .null, .wr, O.size, true, false, 0, []⟩, vm)
      else return (⟨.regCon r 0, .wr, O.size, false, false, 0, []⟩, vm)
    | _ => none
  else none

/-- `_parseOperand_XX`: a register or an immediate. The list of a sum is not
assigned. -/
def parseOperandXX (vm : VMState) (O : Operand) : Option (OprndInfo × VMState) :=
  if O.isRead then
    match O.readSet with
    | [] => some (⟨.imm (O.value.eval vm.cpu), .rd, O.size, false, false, 0, []⟩, vm)
    | [(r, size)] => do
      let (RV, vm) ← vm.readRegisterList r size
      if RV.bsym then
        match O.value with
        | .register _ _ =>
          return (⟨.regSym (some r) .null, .rd, O.size, true, true, RV.i64, RV.symcellPtr⟩, vm)
        | _ => none
      else return (⟨.regCon r (O.value.eval vm.cpu), .rd, O.size, false, false, 0, []⟩, vm)
    | _ => none
  else if O.isWritten then
    match O.value with
    | .register r _ => do
      let symb ← vm.isSYRegAt r
      return (⟨.reg r, .wr, O.size, symb, false, 0, []⟩, vm)
    | _ => none
  else none

/-- The address of a memory operand, to which the base of `gs` is added. Its registers must
be concrete, and there must be one unless `gs` stands for it. `setReadRegs` has found them
all before. The address is concrete therefore, and a symbolic one ends the run. -/
def memConaddr (vm : VMState) (I : Instruction) (O : Operand) (direct : Bool) :
    Option (Nat × VMState) := do
  let (gsBase, vm) ← vm.isUseGS I
  if O.readSet = [] ∧ ¬ (direct ∧ gsBase ≠ 0) then none
  else if O.readSet.any fun P => vm.isSYReg P.1 then none
  else return ((O.value.eval vm.cpu + gsBase).toNat, vm)

/-- A memory operand that is read. -/
def parseMemCell (vm : VMState) (isSymList : Bool) (addr size : Nat) (accs : OperandAccs) :
    Option (OprndInfo × VMState) := do
  let (MV, vm) ← asserted (vm.readMemory ⟨addr, size, false, isSymList, 0, .null, []⟩)
  if MV.bsym then
    if isSymList then
      return (⟨.memCellSym addr .null, accs, size, true, true, MV.i64, MV.symcellPtr⟩, vm)
    else return (⟨.memCellSym addr MV.expr, accs, size, true, false, 0, []⟩, vm)
  else return (⟨.memCellCon addr MV.i64, accs, size, false, false, 0, []⟩, vm)

/-- `_mayOperandUseSymbol_RX` and `_parseOperand_RX`: memory that is read. -/
def parseOperandRX (vm : VMState) (isSymList : Bool) (I : Instruction) (O : Operand) :
    Option (OprndInfo × VMState) := do
  let (addr, vm) ← vm.memConaddr I O true
  vm.parseMemCell isSymList addr O.size .rd

/-- `_mayOperandUseSymbol_XW` and `_parseOperand_XW`: memory that is
written. -/
def parseOperandXW (vm : VMState) (I : Instruction) (O : Operand) :
    Option (OprndInfo × VMState) := do
  let (addr, vm) ← vm.memConaddr I O false
  return (⟨.memCell addr, .wr, O.size, false, false, 0, []⟩, vm)

/-- `_mayOperandUseSymbol_RW` and `_parseOperand_RW`: memory that is read and
written. -/
def parseOperandRW (vm : VMState) (isSymList : Bool) (I : Instruction) (O : Operand) :
    Option (OprndInfo × VMState) := do
  let (addr, vm) ← vm.memConaddr I O false
  vm.parseMemCell isSymList addr O.size .rdwr

/-- One turn of the loop of `parseOperands`. The mode of the operand chooses one of four
functions, with a twin for lists each. -/
def parseOperand (vm : VMState) (isSymList : Bool) (I : Instruction) (O : Operand) :
    Option (OprndInfo × VMState) :=
  match O.readsMemory, O.writesMemory with
  | false, false => if isSymList then vm.parseOperandXX O else vm.mayOperandUseSymbolXX O
  | true, false => vm.parseOperandRX isSymList I O
  | false, true => vm.parseOperandXW I O
  | true, true => vm.parseOperandRW isSymList I O

/-- The loop of `parseOperands`. -/
def parseEach (vm : VMState) (isSymList : Bool) (I : Instruction) :
    List Operand → Option (List OprndInfo × VMState)
  | [] => some ([], vm)
  | O :: Os => do
    let (oi, vm) ← vm.parseOperand isSymList I O
    let (vecOI, vm) ← vm.parseEach isSymList I Os
    return (oi :: vecOI, vm)

/-- `CThinCtrl::parseOperands`, and with `isSymList` that of `SymExecutor`. The registers of
the instruction are read once before the operands are looked at. -/
def parseOperands (vm : VMState) (isSymList : Bool) (I : Instruction) :
    Option (List OprndInfo × VMState) := do
  let vm ← vm.setReadRegs I.readSet
  vm.parseEach isSymList I I.operands

end VMState

end KRover
