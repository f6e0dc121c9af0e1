import KRover.ProcessFunction

/-! # Control transfers

The cases of `processFunction` for jumps, calls and returns, which the engine
carries out itself: it finds the target, moves the stack pointer and sets `rip`,
which already stands behind the instruction. What a call pushes and a return
pops goes straight to the memory of the process.

`none` is a failed assertion or a fault.
-/

set_option autoImplicit false

namespace KRover

open BvTerm

/-- `eval()` with `rip` bound and no other register: `none` is a result that is
not defined. -/
def OperandAST.evalRip (rip : BitVec 64) : OperandAST → Option (BitVec 64) :=
  OperandAST.evalNodes fun r _ => if r = ⟨.rip, .full⟩ then some rip else none

namespace VMState

/-- Assign a word of `m_regs`. -/
def setPtReg (vm : VMState) (i : PtIdx) (x : BitVec 64) : VMState :=
  { vm with cpu := vm.cpu.setWord i x }

/-- `*((unsigned long*) addr)`. -/
def loadWord (vm : VMState) (addr : BitVec 64) : Option (BitVec 64) :=
  if mapped addr.toNat 8 then
    some (BitVec.ofNat 64 (loadBytes vm.mem.concrete addr.toNat 8))
  else none

/-- `*((unsigned long*) addr) = v`. -/
def storeWord (vm : VMState) (addr v : BitVec 64) : Option VMState :=
  if mapped addr.toNat 8 then
    some { vm with
      mem := { vm.mem with concrete := storeBytes vm.mem.concrete addr.toNat 8 v } }
  else none

/-- `bindRegValForMemOpd`: false at the first symbolic register. The values go
into the decoder's expression, where `OperandAST.eval` finds them. -/
def bindRegValForMemOpd (vm : VMState) (O : Operand) : Option (Bool × VMState) := do
  let (symReg, vm) ← vm.findSymReg O.readSet
  return (!symReg, vm)

/-- A target that is read from a register. The register must be concrete, which is asserted.
-/
def registerTarget (vm : VMState) (O : Operand) : Option (BitVec 64 × VMState) :=
  match O.readSet with
  | [(r, size)] => do
    let (RV, vm) ← vm.readRegisterExpr r size
    if RV.bsym then none else return (RV.i64, vm)
  | _ => none

/-- A target that is read from memory. The base of `gs` is left out. `bsym` is
what the caller asserts of the value. -/
def memoryTarget (vm : VMState) (O : Operand) (bsym : Bool) : Option (BitVec 64 × VMState) := do
  let (noSymReg, vm) ← vm.bindRegValForMemOpd O
  if !noSymReg then none
  else
    let memConaddr := (O.value.eval vm.cpu).toNat
    let (MV, vm) ← asserted (vm.readMemory ⟨memConaddr, 8, false, false, 0, .null, []⟩)
    if MV.bsym = bsym then return (MV.i64, vm) else none

/-- `dispatchRet`. The stack pointer must be concrete. The word that it points to is taken
from the memory, whether or not its bytes are symbolic. -/
def dispatchRet (vm : VMState) : Option VMState :=
  if vm.isSYReg ⟨.rsp, .full⟩ then none
  else do
    let stackPtr := vm.cpu.ptRegs .rsp
    let tempTarget ← vm.loadWord stackPtr
    return (vm.setPtReg .rip tempTarget).setPtReg .rsp (stackPtr + 8)

/-- What all three branches of `dispatchCall` end with: push `rip` and go to the target. The
word is stored to the memory directly, and the marks of its bytes stay. -/
def pushAndGo (vm : VMState) (tempTarget : BitVec 64) : Option VMState := do
  let vm := vm.setPtReg .rsp (vm.cpu.ptRegs .rsp - 8)
  let vm ← vm.storeWord (vm.cpu.ptRegs .rsp) (vm.cpu.ptRegs .rip)
  return vm.setPtReg .rip tempTarget

/-- `dispatchCall`. The decoder adds the length to a direct target. -/
def dispatchCall (vm : VMState) (C : CachedInsn) : Option VMState :=
  match C.operands with
  | [O] =>
    if !O.readsMemory then
      match O.value.evalRip (vm.cpu.ptRegs .rip) with
      | some res => vm.pushAndGo (res - BitVec.ofNat 64 C.length)
      | none => do
        let (tempTarget, vm) ← vm.registerTarget O
        vm.pushAndGo tempTarget
    else do
      let (target, vm) ← vm.memoryTarget O false
      vm.pushAndGo target
  | _ => none

end VMState

namespace ThinState

/-- `updateJCCDecision`. The result of `ConcreteFlag` is ignored. Definite flags decide by
themselves; otherwise `EvalCondition` is asked, and the flags that its decision determines
are written. -/
def updateJCCDecision (S : Simplifier) (st : ThinState) (id : EntryID) :
    Option (Bool × ThinState) := do
  let (concreted, _) ← dependFlagCon st.vm.cpu id false
  if !concreted then
    let (bExecute, vm, symObjectsMap) ← st.vm.evalCondition S st.symObjectsMap id
    let (_, cpu) ← EFlagsManager.concreteFlag vm.cpu id bExecute
    return (bExecute, { st with vm := { vm with cpu := cpu }, symObjectsMap := symObjectsMap })
  else
    let ret ← chkCondFail id st.vm.cpu.ptRegs
    return (!ret, st)

/-- What all three branches of `dispatchBranch` end with: an instruction that allows a
fall-through goes to the target if its condition holds. Any other one goes to the target. -/
def goIf (S : Simplifier) (st : ThinState) (id : EntryID) (allowsFallThrough : Bool)
    (tempTarget : BitVec 64) : Option ThinState :=
  if allowsFallThrough then do
    let (bExecute, st) ← st.updateJCCDecision S id
    if bExecute then return { st with vm := st.vm.setPtReg .rip tempTarget } else return st
  else some { st with vm := st.vm.setPtReg .rip tempTarget }

/-- `dispatchBranch`. In memory it asserts that the target is symbolic. That is the opposite
of what `dispatchCall` asserts, so a jump through concrete memory stops the engine. -/
def dispatchBranch (S : Simplifier) (st : ThinState) (C : CachedInsn)
    (allowsFallThrough : Bool) : Option ThinState :=
  match C.operands with
  | [O] =>
    if !O.readsMemory then
      match O.value.evalRip (st.vm.cpu.ptRegs .rip) with
      | some res => st.goIf S C.id allowsFallThrough (res - BitVec.ofNat 64 C.length)
      | none => do
        let (tempTarget, vm) ← st.vm.registerTarget O
        { st with vm := vm }.goIf S C.id allowsFallThrough tempTarget
    else do
      let (tempTarget, vm) ← st.vm.memoryTarget O true
      { st with vm := vm }.goIf S C.id allowsFallThrough tempTarget
  | _ => none

end ThinState

end KRover
