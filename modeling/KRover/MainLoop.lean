import KRover.ControlTransfer

/-! # The main loop of `processFunction`

The loop that walks through the code of the target: a turn takes the instruction
at `rip` from the cache or decodes it, moves `rip` behind it and carries it out by
its category. The loop ends when the stack pointer is above the one that it
started with.

`none` is a failed assertion, an exit or a fault.
-/

set_option autoImplicit false

namespace KRover

open BvTerm

/-- `InsnCategory`; `other` stands for every category with no case of its own. -/
inductive InsnCategory where
  | returnInsn | callInsn | branchInsn | other
deriving DecidableEq, Repr

/-- An instruction of the cache with what the decoder says of its control flow. -/
structure DecodedInsn extends CachedInsn where
  category : InsnCategory
  allowsFallThrough : Bool
deriving DecidableEq, Repr

/-- `CThinCtrl` between two turns, with the number of the calls of `EvalCondition` that were
timed so far, `z3_api_calls`. The cache and the counter belong to the instance, so they live
on from one call to the next. -/
structure LoopState where
  thin : ThinState
  insnCache : Nat → Option DecodedInsn
  z3ApiCalls : Nat

/-- The size of `z3_api_clk_cycls`. -/
def z3ApiClkCycls : Nat := 100

namespace LoopState

section Loop

variable (S : Simplifier)
  (processor : Instruction → MacReg → (Nat → BitVec 8) → MacReg × (Nat → BitVec 8))
  (decode : Nat → DecodedInsn)

/-- `m_regs->rip`, as the address of the next instruction. -/
def crtAddr (st : LoopState) : Nat := (st.thin.vm.cpu.ptRegs .rip).toNat

/-- The instruction at an address, from the cache or decoded, and the cache with it. The
instruction of a slot may have been deleted. A slot that was filled is never decoded again,
though another address may have filled it. Where its instruction was deleted there is no
result. -/
def fetchAt (st : LoopState) (addr : Nat) : Option (DecodedInsn × (Nat → Option DecodedInsn)) :=
  UntaggedCache.handOut insnCacheIdx decode st.insnCache st.thin.freed addr

/-- The instruction of the next turn. -/
def fetch (st : LoopState) : Option (DecodedInsn × (Nat → Option DecodedInsn)) :=
  st.fetchAt decode st.crtAddr

/-- Whether a turn asks `EvalCondition`: a flag that the instruction depends on is uncertain. -/
def asksZ3 (thin : ThinState) (insn : DecodedInsn) : Bool :=
  let uncertain :=
    match dependFlagCon thin.vm.cpu insn.id false with
    | some (concreted, _) => !concreted
    | none => false
  match insn.category with
  | .returnInsn | .callInsn => false
  | .branchInsn => insn.allowsFallThrough && uncertain
  | .other => uncertain

/-- `z3_api_clk_cycls[z3_api_calls++]`, where a turn asks `EvalCondition`. Behind the end of
the array other globals are overwritten. The array has 100 elements. What happens behind it
is left out, so there is no result from the 101st decision on. -/
def countZ3Call (st : LoopState) (insn : DecodedInsn) : Option Nat :=
  if asksZ3 st.thin insn then
    if st.z3ApiCalls < z3ApiClkCycls then some (st.z3ApiCalls + 1) else none
  else some st.z3ApiCalls

/-- The switch over the category. The Boolean is false where a turn ends with `continue`.
Returns, calls and branches have a dispatcher each, and everything else goes through the
default case. -/
def dispatchInsn (thin : ThinState) (idx : Nat) (insn : DecodedInsn) :
    Option (Bool × ThinState) :=
  let advanced := thin.advanceRip insn.toCachedInsn
  match insn.category with
  | .returnInsn => do
    let vm ← advanced.vm.dispatchRet
    return (true, { advanced with vm := vm })
  | .callInsn => do
    let vm ← advanced.vm.dispatchCall insn.toCachedInsn
    return (true, { advanced with vm := vm })
  | .branchInsn => do
    let thin ← advanced.dispatchBranch S insn.toCachedInsn insn.allowsFallThrough
    return (true, thin)
  | .other => do
    let (d, _) ← advanced.dispatch S idx insn.toCachedInsn
    let thin ← thin.defaultCase S processor idx insn.toCachedInsn
    return (d ≠ .skip, thin)

/-- One turn. The Boolean says whether the stack pointer is looked at behind it. A `nop`
only advances the pointer. Every other instruction is fetched, counted and dispatched. -/
def turn (st : LoopState) : Option (Bool × LoopState) := do
  let (insn, insnCache) ← st.fetch decode
  if insn.id = .nop then
    return (false, ⟨st.thin.advanceRip insn.toCachedInsn, insnCache, st.z3ApiCalls⟩)
  else
    let z3ApiCalls ← st.countZ3Call insn
    let (looks, thin) ← dispatchInsn S processor st.thin (insnCacheIdx st.crtAddr) insn
    return (looks, ⟨thin, insnCache, z3ApiCalls⟩)

/-- The loop for at most so many turns, and whether it has ended by then. It ends behind a
turn that has brought the stack pointer above that of the caller. -/
def mainLoop (termRsp : BitVec 64) : Nat → LoopState → Option (Bool × LoopState)
  | 0, st => some (false, st)
  | turns + 1, st => do
    let (looks, st) ← st.turn S processor decode
    if looks && termRsp < st.thin.vm.cpu.ptRegs .rsp then return (true, st)
    else mainLoop termRsp turns st

/-! ## The pass before the loop -/

/-- The pre-disassembly pass for at most so many turns, and whether it has come to `m_endRIP`
by then. It follows the addresses that were recorded and puts every instruction into the
cache. -/
def preDisassemble (call : FunctionCall) :
    Nat → Nat → Nat → LoopState → Option (Bool × LoopState)
  | 0, _, _, st => some (false, st)
  | turns + 1, crtAddr, cfCounter, st => do
    let (insn, insnCache) ← st.fetchAt decode crtAddr
    let (crtAddr, cfCounter) :=
      preNext (fun insn : DecodedInsn => insn.category ≠ .other) (·.length) call crtAddr cfCounter
        insn
    let st := { st with insnCache := insnCache }
    if crtAddr = call.endRIP then return (true, st)
    else preDisassemble call turns crtAddr cfCounter st

/-- How far `processFunction` has come: the file of the next addresses could not be opened, the
pass before the loop is under way, the loop is, or the loop has ended. -/
inductive Progress where
  | notOpened | preDisassembling | running | ended
deriving DecidableEq, Repr

/-- `processFunction`, for at most so many turns of the pass before the loop and of the
loop. `file` is what `ReadNextIPFromFile` leaves in `m_endRIP` and `m_NextIP`. A file that
cannot be opened ends the call before anything has run. -/
def processFunction (file : Option (Nat × (Nat → Nat))) (preTurns turns : Nat) (st : LoopState) :
    Option (Progress × LoopState) :=
  match file with
  | none => some (.notOpened, st)
  | some (endRIP, nextIP) => do
    let termRsp := st.thin.vm.cpu.ptRegs .rsp
    let (done, st) ← preDisassemble decode ⟨st.crtAddr, endRIP, nextIP, []⟩ preTurns
      st.crtAddr 0 st
    if done then
      let (ended, st) ← mainLoop S processor decode termRsp turns st
      return (if ended then .ended else .running, st)
    else return (.preDisassembling, st)

end Loop

end LoopState

end KRover
