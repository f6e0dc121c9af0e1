import KRover.SymExec
import KRover.ThinCtrl

/-! # The default case of `processFunction`

How `CThinCtrl` decides whether an instruction that transfers no control is
handed to the executor or runs natively: by the flags it depends on, and by the
registers and the memory of its operands.

The decoder's expressions belong to the cached instruction. Their register nodes
keep the value that was last set on them, over all visits of the instruction.

`none` is a failed assertion, or a read of memory that was freed.
-/

set_option autoImplicit false

namespace KRover

open BvTerm

/-- `getWriteSet`: a register that is itself the operand. -/
def Operand.writeSet (O : Operand) : List (MachRegister × Nat) :=
  match O.deref, O.value with
  | none, .register r size => if O.isWritten then [(r, size)] else []
  | _, _ => []

/-- An instruction of the cache: its length, and the memory that it reads and writes beside
its operands, by address expression and number of bytes. `setReadRegs` and the visitor write
into the expressions of such an instruction, which later visits share. -/
structure CachedInsn extends Instruction where
  length : Nat
  implicitMemReads : List (OperandAST × Nat)
  implicitMemWrites : List (OperandAST × Nat)
deriving DecidableEq, Repr

/-! ## Register nodes -/

/-- The expressions of an instruction: that of an operand, and those of its
implicit accesses. -/
inductive ExprPos where
  | operand (i : Nat)
  | implicitRead (i : Nat)
  | implicitWrite (i : Nat)
deriving DecidableEq, Repr

/-- The node of a register in an expression of the instruction in a slot of the
cache. The nodes of one register in one expression are always set together. -/
structure RegNode where
  slot : Nat
  pos : ExprPos
  reg : MachRegister
  size : Nat
deriving DecidableEq, Repr

/-- The values that were last set on the nodes. A node that was never set is `none`. -/
abbrev NodeValues := RegNode → Option (BitVec 64)

/-- `eval()`, with the values of the nodes. It is undefined when one of them
is. -/
def OperandAST.evalNodes (nodes : MachRegister → Nat → Option (BitVec 64)) :
    OperandAST → Option (BitVec 64)
  | .register r size => nodes r size
  | .immediate v _ => some v
  | .add x y _ => do return (← x.evalNodes nodes) + (← y.evalNodes nodes)
  | .multiply x y _ => do return (← x.evalNodes nodes) * (← y.evalNodes nodes)

/-- `setValue` with a register value as a signed number of its size. -/
def NodeValues.setValue (nodes : NodeValues) (node : RegNode) (v : BitVec 64) : NodeValues :=
  Function.update nodes node (some ((v.setWidth (8 * node.size)).signExtend 64))

/-- The registers of an expression, visited by `ExprEvalVisitor`: a symbolic one
leaves its node as it is. `setReadRegs` does the same with a read set. -/
def visitRegisters (slot : Nat) (pos : ExprPos) (vm : VMState) (nodes : NodeValues) :
    List (MachRegister × Nat) → Option (VMState × NodeValues)
  | [] => some (vm, nodes)
  | (r, size) :: regs => do
    let (RV, vm) ← vm.readRegisterExpr r size
    visitRegisters slot pos vm
      (if RV.bsym then nodes else nodes.setValue ⟨slot, pos, r, size⟩ RV.i64) regs

/-! ## Symbolic operands -/

/-- One of the two loops of `OpdhasSymReg`: it ends at the first symbolic register. It asks
for the marks of one register after the other and looks at no value. -/
def VMState.anySYReg (vm : VMState) : List (MachRegister × Nat) → Option Bool
  | [] => some false
  | (r, _) :: regs => do
    let ret ← vm.isSYRegAt r
    if ret then return true else vm.anySYReg regs

/-- What an instance of `CThinCtrl` works on: the machine, the map of its `Z3Handler`,
the nodes of its cache, and the slots of the cache whose instruction was deleted. -/
structure ThinState where
  vm : VMState
  symObjectsMap : List SYMemObject
  nodes : NodeValues
  freed : Nat → Bool

namespace ThinState

/-- The test of one address: `isSYMemoryCell`, of as many bytes as the address expression
has itself. A symbolic register in the address keeps the value its node had, from this visit
or from one before. -/
def testAddress (st : ThinState) (slot : Nat) (pos : ExprPos) (a : OperandAST)
    (gsBase : BitVec 64) : Option (Bool × ThinState) := do
  let (vm, nodes) ← visitRegisters slot pos st.vm st.nodes a.uses
  let addr ← a.evalNodes fun r size => nodes ⟨slot, pos, r, size⟩
  return (vm.mem.isSYMemoryCell (addr + gsBase).toNat a.size,
    { st with vm := vm, nodes := nodes })

/-- `OpdhasSymReg`. Both sets are looked at, so that a register that is only written counts.
-/
def opdhasSymReg (st : ThinState) (O : Operand) : Option Bool := do
  let ret ← st.vm.anySYReg O.readSet
  if ret then return true else st.vm.anySYReg O.writeSet

/-- The test of a memory operand at index `i`, when it is of this kind. -/
def testOperand (st : ThinState) (slot i : Nat) (O : Operand) (gsBase : BitVec 64) (kind : Bool) :
    Option (Bool × ThinState) :=
  if kind then st.testAddress slot (.operand i) O.value gsBase else some (false, st)

/-- `OpdhasSymMemCell`. -/
def opdhasSymMemCell (st : ThinState) (slot i : Nat) (O : Operand) (gsBase : BitVec 64) :
    Option (Bool × ThinState) := do
  let (ret, st) ← st.testOperand slot i O gsBase O.readsMemory
  if ret then return (true, st) else st.testOperand slot i O gsBase O.writesMemory

/-- One turn of the loop of `hasSymOperand`. `isUseGS` is asked again for every memory
operand. A register operand is tested by its marks, and a memory operand by the cells at its
address. -/
def operandHasSym (st : ThinState) (slot : Nat) (C : CachedInsn) (i : Nat) (O : Operand) :
    Option (Bool × ThinState) :=
  if !O.readsMemory && !O.writesMemory then do
    let ret ← st.opdhasSymReg O
    return (ret, st)
  else do
    let (gsBase, vm) ← st.vm.isUseGS C.toInstruction
    { st with vm := vm }.opdhasSymMemCell slot i O gsBase

/-- The loop of `hasSymOperand` over the operands from index `i` on. It ends at the first
operand that is symbolic. -/
def operandsHaveSym (st : ThinState) (slot : Nat) (C : CachedInsn) :
    Nat → List Operand → Option (Bool × ThinState)
  | _, [] => some (false, st)
  | i, O :: Os => do
    let (ret, st) ← st.operandHasSym slot C i O
    if ret then return (true, st) else st.operandsHaveSym slot C (i + 1) Os

/-- One of the two loops of `checkImplicitMemAccess`. -/
def implicitHasSym (st : ThinState) (slot : Nat) (pos : Nat → ExprPos) :
    Nat → List (OperandAST × Nat) → Option (Bool × ThinState)
  | _, [] => some (false, st)
  | i, (a, _) :: accesses => do
    let (ret, st) ← st.testAddress slot (pos i) a 0
    if ret then return (true, st) else st.implicitHasSym slot pos (i + 1) accesses

/-- `checkImplicitMemAccess`. -/
def checkImplicitMemAccess (st : ThinState) (slot : Nat) (C : CachedInsn) :
    Option (Bool × ThinState) := do
  let (ret, st) ← st.implicitHasSym slot .implicitRead 0 C.implicitMemReads
  if ret then return (true, st)
  else st.implicitHasSym slot .implicitWrite 0 C.implicitMemWrites

/-- `hasSymOperand`. The explicit operands come first, and only if none of them is symbolic
the implicit accesses. -/
def hasSymOperand (st : ThinState) (slot : Nat) (C : CachedInsn) : Option (Bool × ThinState) := do
  let (ret, st) ← st.operandsHaveSym slot C 0 C.operands
  if ret then return (true, st) else st.checkImplicitMemAccess slot C

end ThinState

/-! ## The default case -/

/-- `dependFlagCon`: whether the flags that the instruction depends on are definite, and
`bChoice`. An instruction that depends on no flag has them definite. -/
def dependFlagCon (cpu : SYCPUState) (instrID : EntryID) (bChoice : Bool) : Option (Bool × Bool) :=
  if isConditionalExecuteInstr instrID then
    EFlagsManager.dependencyFlagConcreted cpu instrID bChoice
  else some (true, bChoice)

/-- What becomes of an instruction: it is skipped, as its condition is false, it
goes to the executor, because of its condition or of its operands, or it runs
natively. -/
inductive Dispatch where
  | skip
  | symExecCondition
  | symExecOperand
  | native
deriving DecidableEq, Repr

namespace ThinState

/-- `m_regs->rip += in->size()`, before the instruction is looked at. The operands are read
and the targets computed with the advanced pointer, as the processor does. -/
def advanceRip (st : ThinState) (C : CachedInsn) : ThinState :=
  { st with vm := { st.vm with
      cpu := st.vm.cpu.setWord .rip (st.vm.cpu.ptRegs .rip + BitVec.ofNat 64 C.length) } }

/-- How the default case decides. Undecided flags are asked of the solver, whose answer
skips the instruction or sends it to the executor. With decided ones the operands are
tested. -/
def dispatch (S : Simplifier) (st : ThinState) (slot : Nat) (C : CachedInsn) :
    Option (Dispatch × ThinState) := do
  let (concreted, _) ← dependFlagCon st.vm.cpu C.id false
  if !concreted then
    let (bExecute, vm, symObjectsMap) ← st.vm.evalCondition S st.symObjectsMap C.id
    let st := { st with vm := vm, symObjectsMap := symObjectsMap }
    return (if bExecute then .symExecCondition else .skip, st)
  else
    let (shouldSymExe, st) ← st.hasSymOperand slot C
    return (if shouldSymExe then .symExecOperand else .native, st)

/-- The executor, whose parsers set the nodes of the read sets. `InstrInfo` has taken the
instruction over, and deletes it when the executor is done; the cache keeps its address. -/
def symExec (st : ThinState) (slot : Nat) (C : CachedInsn) : Option ThinState := do
  let nodes ← readNodes st.vm st.nodes 0 C.operands
  let vm ← SymExecutor.exec st.vm C.toInstruction
  return { st with vm := vm, nodes := nodes, freed := Function.update st.freed slot true }
where
  /-- The nodes of the operands from index `i` on. -/
  readNodes (vm : VMState) (nodes : NodeValues) : Nat → List Operand → Option NodeValues
    | _, [] => some nodes
    | i, O :: Os => do
      let (vm, nodes) ← visitRegisters slot (.operand i) vm nodes O.readSet
      readNodes vm nodes (i + 1) Os

/-- `InsnDispatch`: the processor runs a copy of the instruction on the concrete registers
and the memory. The marks and the cells of the engine are left as they are, whatever the
instruction writes. -/
def insnDispatch (processor : Instruction → MacReg → (Nat → BitVec 8) → MacReg × (Nat → BitVec 8))
    (st : ThinState) (C : CachedInsn) : ThinState :=
  let (ptRegs, concrete) := processor C.toInstruction st.vm.cpu.ptRegs st.vm.mem.concrete
  { st with vm := { st.vm with
      cpu := { st.vm.cpu with ptRegs := ptRegs }
      mem := { st.vm.mem with concrete := concrete } } }

/-- One turn of the loop with an instruction of the default category. An instruction that
changes flags and ran natively has made them definite. -/
def defaultCase (S : Simplifier)
    (processor : Instruction → MacReg → (Nat → BitVec 8) → MacReg × (Nat → BitVec 8))
    (st : ThinState) (slot : Nat) (C : CachedInsn) : Option ThinState := do
  let (d, st) ← (st.advanceRip C).dispatch S slot C
  match d with
  | .skip => return st
  | .symExecCondition =>
    let st ← st.symExec slot C
    -- `ConcreteFlag` is given the operation of the instruction, which is read here
    if st.freed slot then none
    else
      let (_, cpu) ← EFlagsManager.concreteFlag st.vm.cpu C.id true
      return { st with vm := { st.vm with cpu := cpu } }
  | .symExecOperand => st.symExec slot C
  | .native =>
    let st := st.insnDispatch processor C
    if isFlagChangingInstr C.id then
      return { st with vm := { st.vm with cpu := st.vm.cpu.clearAllSymFlag } }
    else return st

end ThinState

end KRover
