import KRover.EFlagsManager
import Mathlib.Logic.Function.Basic

/-! # The concrete executor

`ConExecutor::RewRIPInsn`: an instruction with an operand relative to `rip` runs
at another address, so its base becomes `r15`, which holds the address that
`rip` would have.

`none` is a `vmcall` or a failed assertion.
-/

set_option autoImplicit false

namespace KRover

namespace ConExecutor

/-- `orig_insn`. A byte that is not copied is not read. -/
abbrev OrigInsn := Nat → BitVec 8

/-- `memcpy(orig_insn + dst, orig_insn_addr + src, n)`. -/
def memcpy (origInsn : OrigInsn) (dst : Nat) (code : Nat → BitVec 8) (src n : Nat) : OrigInsn :=
  fun i => if dst ≤ i ∧ i < dst + n then code (src + (i - dst)) else origInsn i

/-- `orig_insn[i] |= v`. -/
def orByte (origInsn : OrigInsn) (i : Nat) (v : BitVec 8) : OrigInsn :=
  Function.update origInsn i (origInsn i ||| v)

/-- `memcpy(T_insn, orig_insn, n)`; `n` is returned. -/
def copyOut (origInsn : OrigInsn) (n : Nat) : List (BitVec 8) := (List.range n).map origInsn

/-- The three cases by the four bytes from `disp` on: the byte at `modrm` gets another mode,
and the first `len` bytes are copied, with as many of the displacement as that mode has. A
displacement of zeroes is taken to have no byte, one with zeroes behind the first byte to
have one, and any other four. Its sign is not looked at. -/
def copyByDisp (origInsn : OrigInsn) (modrm disp len : Nat) : List (BitVec 8) :=
  if origInsn disp = 0 ∧ origInsn (disp + 1) = 0 ∧ origInsn (disp + 2) = 0 ∧
      origInsn (disp + 3) = 0 then
    copyOut (orByte origInsn modrm 0x02) len
  else if origInsn disp ≠ 0 ∧ origInsn (disp + 1) = 0 ∧ origInsn (disp + 2) = 0 ∧
      origInsn (disp + 3) = 0 then
    copyOut (orByte origInsn modrm 0x42) (len + 1)
  else copyOut (orByte origInsn modrm 0x82) (len + 4)

/-- `RewRIPInsn`, on the bytes at `orig_insn_addr`: what is copied to `T_insn`. `readsGS` is
`instr->isRead(x86_gs)`. The length of the instruction and whether it reads `gs` choose the
case, and each case assumes where the prefixes, the opcode and the mode byte stand. -/
def rewRIPInsn (opcode : EntryID) (size : Nat) (readsGS : Bool) (code : Nat → BitVec 8) :
    Option (List (BitVec 8)) :=
  match opcode with
  | .mov | .cmp | .lea | .add | .sub =>
    let origInsn := memcpy (fun _ => 0) 0 code 0 8
    if readsGS then
      if opcode = .mov ∨ opcode = .add then
        if size = 7 then
          let origInsn := memcpy origInsn 2 code 1 6
          let origInsn := Function.update origInsn 1 0x41
          some (copyByDisp origInsn 3 4 4)
        else if size = 8 then some (copyByDisp (orByte origInsn 1 0x1) 3 4 4)
        else none
      else none
    else if size = 7 then some (copyByDisp (orByte origInsn 0 0x1) 2 3 3)
    else if size = 6 then
      let origInsn := memcpy origInsn 1 code 0 6
      let origInsn := Function.update origInsn 0 0x41
      some (copyByDisp origInsn 2 3 3)
    else none
  | .and =>
    if readsGS ∧ size = 11 then
      let origInsn := memcpy (fun _ => 0) 0 code 0 1
      let origInsn := memcpy origInsn 2 code 1 10
      let origInsn := Function.update origInsn 1 0x41
      if origInsn 4 ≠ 0 ∧ origInsn 5 ≠ 0 ∧ origInsn 6 ≠ 0 then
        some (copyOut (orByte origInsn 3 0x82) 12)
      else none
    else none
  | .xadd =>
    if size = 8 then
      let origInsn := memcpy (fun _ => 0) 0 code 0 1
      let origInsn := memcpy origInsn 2 code 1 7
      let origInsn := Function.update origInsn 1 0x41
      if origInsn 5 ≠ 0 ∧ origInsn 6 ≠ 0 ∧ origInsn 7 ≠ 0 then
        some (copyOut (orByte origInsn 4 0x82) 9)
      else none
    else none
  | .test =>
    let origInsn := memcpy (fun _ => 0) 1 code 0 7
    let origInsn := Function.update origInsn 0 0x41
    some (copyByDisp origInsn 2 4 4)
  | _ => none

end ConExecutor

end KRover
