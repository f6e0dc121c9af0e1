import Mathlib.Algebra.Group.Nat.Defs
import KRover.EFlagsManager
import KRover.Lib.UntaggedCache

/-! # The thin controller

`CThinCtrl`: the loop that walks through the code, takes each instruction from
its cache or from the decoder, and decides how it is executed.
-/

set_option autoImplicit false

namespace KRover

/-- `chkCondFail`: does the jump fall through? `none` is the default branch,
which leaves the guest. -/
def chkCondFail (opera_id : EntryID) (regs : MacReg) : Option Bool :=
  let eflags := regs .efl
  let cf := eflags.getLsbD 0
  let pf := eflags.getLsbD 2
  let zf := eflags.getLsbD 6
  let sf := eflags.getLsbD 7
  let of := eflags.getLsbD 11
  match opera_id with
  | .jnbe => some (cf || zf)
  | .jb => some !cf
  | .jnb => some cf
  | .jnb_jae_j => some cf
  | .jb_jnaej_j => some !cf
  | .jbe => some (!cf && !zf)
  | .jz => some !zf
  | .jnz => some zf
  | .jnp => some pf
  | .jp => some !pf
  | .jcxz_jec => some (regs .rcx &&& 0xffffffff != 0)
  | .jnle => some (zf || (sf ^^ of))
  | .jnl => some (sf ^^ of)
  | .jl => some !(sf ^^ of)
  | .jle => some !((sf ^^ of) || zf)
  | .jno => some of
  | .jns => some sf
  | .jo => some !of
  | .js => some !sf
  | _ => none

/-! ## The instruction cache

What the decoder makes of the bytes at an address, the category of an
instruction and its length are parameters. The loops of `processFunction`
fetch one instruction a turn; the pre-disassembly pass finds the next address
itself, the main loop takes it from `rip`, which the execution of the
instructions moves. An instruction that the executor runs becomes the property of an
`InstrInfo`, which deletes it; the cache keeps the pointer.
-/

section InsnCache

variable {Instr : Type}

/-- `crtAddr & 0xFFFFFFF`. Addresses that agree in their low 28 bits have one slot of the
cache. -/
def insnCacheIdx (crtAddr : Nat) : Nat := crtAddr &&& 0xFFFFFFF

/-- One call of `processFunction`: where it starts, what `ReadNextIPFromFile`
read, and the addresses that `rip` goes through in the main loop, each with whether the
executor runs the instruction there. -/
structure FunctionCall where
  rip : Nat
  endRIP : Nat
  nextIP : Nat → Nat
  executed : List (Nat × Bool)

/-- Where `processFunction` stands between two instructions. -/
inductive FetchState where
  | preDisassemble (crtAddr cfCounter : Nat)
  | execute (addrs : List (Nat × Bool))

/-- The next address of the pre-disassembly pass, with the count of the
control transfers, which is part of the key of `m_NextIP`. -/
def preNext (isTransfer : Instr → Bool) (size : Instr → Nat) (call : FunctionCall)
    (crtAddr cfCounter : Nat) (insn : Instr) : Nat × Nat :=
  if isTransfer insn then
    let cfCounter := (cfCounter + 1) % 2 ^ 64
    let key := (crtAddr &&& 0xFFFFFFFF) ||| (cfCounter <<< 48) % 2 ^ 64
    (call.nextIP key, cfCounter)
  else ((crtAddr + size insn) % 2 ^ 64, cfCounter)

/-- The loop of `ReadNextIPFromFile` from the count `counter` on, over the lines
that `sscanf` has split into `crtRIP` and `nextRIP`. -/
def readNextIPFromFile (nextIP : Nat → Nat) (counter : Nat) : List (Nat × Nat) → Nat → Nat
  | [] => nextIP
  | (crtRIP, nextRIP) :: lines =>
    let counter := (counter + 1) % 2 ^ 64
    let key := (crtRIP &&& 0xFFFFFFFF) ||| (counter <<< 48) % 2 ^ 64
    let val := nextRIP &&& 0xFFFFFFFFFFFFFFFF
    readNextIPFromFile (Function.update nextIP key val) counter lines

/-- The pre-disassembly pass of `processFunction`: the control transfers of so
many turns, each with the next address that the pass obtains for it. -/
def preDisassembled (decode : Nat → Instr) (isTransfer : Instr → Bool) (size : Instr → Nat)
    (call : FunctionCall) : Nat → Nat → Nat → (Nat → Option Instr) → List (Nat × Nat)
  | 0, _, _, _ => []
  | turns + 1, crtAddr, cfCounter, insnCache =>
    let (insn, insnCache) := UntaggedCache.fetch insnCacheIdx decode insnCache crtAddr
    let (nextAddr, cfCounter) := preNext isTransfer size call crtAddr cfCounter insn
    let rest :=
      if nextAddr = call.endRIP then []
      else preDisassembled decode isTransfer size call turns nextAddr cfCounter insnCache
    if isTransfer insn then (crtAddr, nextAddr) :: rest else rest

/-- The two loops of `processFunction`, as far as they fetch instructions. -/
def fetchLoops (isTransfer : Instr → Bool) (size : Instr → Nat) (call : FunctionCall) :
    UntaggedCache.Client Nat Instr FetchState where
  ask
    | .preDisassemble crtAddr _ => some crtAddr
    | .execute ((crtAddr, _) :: _) => some crtAddr
    | .execute [] => none
  takes
    | .execute ((_, shouldSymExe) :: _) => shouldSymExe
    | _ => false
  answer
    | .preDisassemble crtAddr cfCounter, insn =>
      let (crtAddr, cfCounter) := preNext isTransfer size call crtAddr cfCounter insn
      if crtAddr = call.endRIP then .execute call.executed
      else .preDisassemble crtAddr cfCounter
    | .execute addrs, _ => .execute addrs.tail

variable (decode : Nat → Instr) (isTransfer : Instr → Bool) (size : Instr → Nat)

/-- The instructions that calls of `processFunction` take from `m_InsnCache`,
with their addresses: so many turns of each call. There is none where the cache holds a
pointer to an instruction that was deleted. -/
def fetchedInsns :
    List (FunctionCall × Nat) → (Nat → Option Instr) → (Nat → Bool) → List (Nat × Option Instr)
  | [], _, _ => []
  | (call, turns) :: calls, insnCache, freed =>
    let (insns, _, insnCache, freed) := UntaggedCache.fetchAll insnCacheIdx decode
      (fetchLoops isTransfer size call) turns (.preDisassemble call.rip 0) insnCache freed
    insns ++ fetchedInsns calls insnCache freed

/-- The addresses that the calls visit when every instruction is decoded anew, with whether
the executor runs the instruction there. -/
def visitedAddrs (calls : List (FunctionCall × Nat)) : List (Nat × Bool) :=
  calls.flatMap fun (call, turns) =>
    (UntaggedCache.askAll decode (fetchLoops isTransfer size call) turns
      (.preDisassemble call.rip 0)).1

end InsnCache

end KRover
