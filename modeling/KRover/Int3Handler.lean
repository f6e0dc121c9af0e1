import KRover.CPUState
import KRover.FatCtrl
import KRover.Lib.Bytes

/-! # The handler of the probes

`INT3Handler` runs when the target has come to a probe. The processor has pushed the
state of the target to the stack of the exception. The handler carries out the call
that the probe stands at and puts probes into the function that is called.

`none` is the hypercall that gives up, or a fault.
-/

set_option autoImplicit false

namespace KRover.FattCtrl

/-- `*((unsigned long*) addr)`. Eight bytes, the lowest first. -/
def loadLong (mem : BitVec 64 → BitVec 8) (addr : BitVec 64) : BitVec 64 :=
  BitVec.ofNat 64 (Bytes.ofBytes ((List.range 8).map fun k => mem (addr + BitVec.ofNat 64 k)))

/-- `*((unsigned long*) addr) = v`. The bytes wrap around at the end of memory. -/
def storeLong (mem : BitVec 64 → BitVec 8) (addr v : BitVec 64) : BitVec 64 → BitVec 8 :=
  fun b => if b - addr < 8 then Bytes.byteOf v.toNat (b - addr).toNat else mem b

/-- `find_probe_idx` from index `i` on. It gives up at a probe whose destination is not in
the table. The first probe with the address is the one, so that a second probe at one
address is never used. -/
def findProbeIdx (s : FattCtrl) (rip : BitVec 64) (i : Nat) : Option Nat :=
  if i < s.crtInt3Idx then
    if (s.probeOrigInst i).addr = rip then
      if (s.probeOrigInst i).dest ≠ 0 then some i else none
    else s.findProbeIdx rip (i + 1)
  else none
termination_by s.crtInt3Idx - i

/-- `emulCall`: the destination, and the machine behind the call. The return address is
pushed on the stack of the target, which goes on at the destination. -/
def emulCall (s : FattCtrl) (tInt3Stack : BitVec 64) (regs : MacReg) :
    Option (BitVec 64 × FattCtrl × MacReg) := do
  let int3StackPtr := tInt3Stack - 0x28
  -- the saved `rip` is behind the `int3`
  let savedRip := loadLong s.mem int3StackPtr - 1
  let savedRflags := loadLong s.mem (int3StackPtr + 16)
  let savedRsp := loadLong s.mem (int3StackPtr + 24)
  let probeIdx ← s.findProbeIdx savedRip 0
  let callDest := (s.probeOrigInst probeIdx).dest
  let retAddr := savedRip + BitVec.ofInt 64 (s.probeOrigInst probeIdx).len
  let tStackPtr := savedRsp - 8
  let regs := Function.update regs .rsp tStackPtr
  let regs := Function.update regs .efl savedRflags
  let regs := Function.update regs .rip callDest
  return (callDest, { s with mem := storeLong s.mem tStackPtr retAddr }, regs)

/-- `INT3Handler`. It emulates the call, and puts probes into the function that was called.
-/
def int3Handler (s : FattCtrl) (funcCall : FuncDB) (tInt3Stack : BitVec 64) (regs : MacReg) :
    Option (FattCtrl × MacReg) := do
  let (callDest, s, regs) ← s.emulCall tInt3Stack regs
  let s ← s.installInt3ForFunc funcCall callDest
  return (s, regs)

end KRover.FattCtrl
