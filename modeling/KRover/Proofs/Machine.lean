import KRover.Lib.Footprint
import KRover.MainLoop
import KRover.Proofs.BytePut
import KRover.Proofs.CondTurn

/-! # The machine of the target

What the target does with no engine around it. The machine has the registers and
the memory. A turn moves `rip` behind the instruction at `rip` and carries it out,
and a run ends when the stack pointer is above the one that it started with. The
default category is left to the processor.

* `Machine.turn`, `Machine.run`: the machine;
* `ProcessorLaw`: what is known of the processor. Every instruction has a
  footprint, and the result and the flags of some of them are known.
-/

set_option autoImplicit false

namespace KRover

open BvTerm StatusFlags Bytes Footprint

/-- The registers and the memory. -/
@[ext] structure Machine where
  regs : MacReg
  mem : Nat → BitVec 8

/-- The flags after an operation on two numbers. -/
def statusFlags {w : Nat} (op : BinOp) (a b : BitVec w) : Flags :=
  match op with
  | .add => ofAdd a b
  | .sub => ofSub a b
  | op => ofLogic (op.eval a b)

/-- Where an operand lies: in its register or at its address. -/
def Operand.loc (O : Operand) (I : Instruction) (cpu : SYCPUState) : Loc :=
  match O.deref, O.value with
  | none, .register r _ => .reg r
  | _, _ => .mem (O.address I cpu)

namespace Machine

/-- The machine with another word in one register. -/
def setReg (m : Machine) (i : PtIdx) (x : BitVec 64) : Machine :=
  { m with regs := Function.update m.regs i x }

/-- The word of eight bytes at an address. -/
def loadWord (m : Machine) (addr : BitVec 64) : BitVec 64 :=
  BitVec.ofNat 64 (loadBytes m.mem addr.toNat 8)

/-- The machine with such a word stored. -/
def storeWord (m : Machine) (addr v : BitVec 64) : Machine :=
  { m with mem := storeBytes m.mem addr.toNat 8 v }

/-- The registers as the addresses of operands are evaluated with them. -/
def cpu (m : Machine) : SYCPUState := SYCPUState.new m.regs

/-- The byte at a place, in a register or in memory. -/
def byte (m : Machine) : ByteLoc → BitVec 8
  | .reg i k => byteOf (m.regs i).toNat k
  | .mem b => m.mem b

/-- The bytes that an operand holds. -/
def bytes (m : Machine) (I : Instruction) (O : Operand) : List (BitVec 8) :=
  match O.deref, O.value with
  | some n, _ => (List.range n).map fun k => m.mem (O.address I m.cpu + k)
  | none, .register r n => (List.range n).map (byteOf (m.regs r.offt).toNat)
  | none, a => bytesOf (a.eval m.cpu).toNat a.size

/-- New bytes at a place; a register is a whole word. -/
def put (m : Machine) (n : Nat) (l : Loc) (x : List (BitVec 8)) : Machine :=
  match l with
  | .reg r => m.setReg r.offt (BitVec.ofNat 64 (ofBytes x))
  | .mem addr =>
    { m with mem := fun a =>
        if addr ≤ a ∧ a < addr + n then x.getD (a - addr) 0 else m.mem a }

/-- A register that was set has the new word. -/
@[simp] theorem regs_setReg_self (m : Machine) (i : PtIdx) (x : BitVec 64) :
    (m.setReg i x).regs i = x := Function.update_self ..

/-- Every other register has its old one. -/
theorem regs_setReg_of_ne (m : Machine) {i j : PtIdx} (h : j ≠ i) (x : BitVec 64) :
    (m.setReg i x).regs j = m.regs j := Function.update_of_ne h ..

/-- The memory is left alone. -/
@[simp] theorem mem_setReg (m : Machine) (i : PtIdx) (x : BitVec 64) :
    (m.setReg i x).mem = m.mem := rfl

/-- A store leaves the registers alone. -/
@[simp] theorem regs_storeWord (m : Machine) (addr v : BitVec 64) :
    (m.storeWord addr v).regs = m.regs := rfl

section Turn

variable (processor : Instruction → MacReg → (Nat → BitVec 8) → MacReg × (Nat → BitVec 8))

/-- An instruction on the processor. -/
def ran (I : Instruction) (m : Machine) : Machine :=
  let (regs, mem) := processor I m.regs m.mem
  ⟨regs, mem⟩

/-- The target of a jump or a call. The decoder adds the length to a direct one. -/
def target (m : Machine) (C : CachedInsn) : Option (BitVec 64) :=
  match C.operands with
  | [O] =>
    match O.deref with
    | some _ => some (m.loadWord (O.value.eval m.cpu + C.toInstruction.gsBase m.cpu))
    | none =>
      match O.value.evalRip (m.regs .rip), O.value with
      | some res, _ => some (res - BitVec.ofNat 64 C.length)
      | none, .register r _ => some (m.regs r.offt)
      | none, _ => none
  | _ => none

/-- Is the jump made? -/
def jumps (m : Machine) (C : DecodedInsn) : Option Bool :=
  if C.allowsFallThrough then (switchCase C.id).map (·.holds m.regs.flags) else some true

/-- What an instruction does with `rip` already behind it. -/
def carryOut (C : DecodedInsn) (m : Machine) : Option Machine :=
  match C.category with
  | .returnInsn =>
    some ((m.setReg .rip (m.loadWord (m.regs .rsp))).setReg .rsp (m.regs .rsp + 8))
  | .callInsn => do
    let tempTarget ← m.target C.toCachedInsn
    return ((m.setReg .rsp (m.regs .rsp - 8)).storeWord (m.regs .rsp - 8) (m.regs .rip)).setReg
      .rip tempTarget
  | .branchInsn => do
    let tempTarget ← m.target C.toCachedInsn
    let taken ← m.jumps C
    return if taken then m.setReg .rip tempTarget else m
  | .other => some (m.ran processor C.toInstruction)

/-- One turn. -/
def turn (C : DecodedInsn) (m : Machine) : Option Machine :=
  let m := m.setReg .rip (m.regs .rip + BitVec.ofNat 64 C.length)
  if C.id = .nop then some m else m.carryOut processor C

/-- At most so many turns, with the addresses that they are at, and whether the
function has returned by then. -/
def run (decode : Nat → DecodedInsn) (termRsp : BitVec 64) :
    Nat → Machine → Option (List (BitVec 64) × Bool × Machine)
  | 0, m => some ([], false, m)
  | turns + 1, m => do
    let m' ← m.turn processor (decode (m.regs .rip).toNat)
    if termRsp < m'.regs .rsp then return ([m.regs .rip], true, m')
    else
      let (visited, rest) ← run decode termRsp turns m'
      return (m.regs .rip :: visited, rest)

end Turn

end Machine

/-! ## The processor -/

/-- What an instruction can read and write: a byte, or a bit of `eflags`. -/
inductive MacLoc where
  | byte (b : ByteLoc)
  | flag (i : Nat)
deriving DecidableEq, Repr

/-- What is found at a location, a byte or a flag. -/
def MacLoc.Value : MacLoc → Type
  | .byte _ => BitVec 8
  | .flag _ => Bool

/-- What a machine has at a location. The bytes of `eflags` are no locations. -/
def Machine.view (m : Machine) : (l : MacLoc) → l.Value
  | .byte (.reg .efl _) => (0 : BitVec 8)
  | .byte b => m.byte b
  | .flag i => (m.regs .efl).getLsbD i

/-- A byte of a word other than `eflags`, or of the memory. -/
def ByteLoc.General : ByteLoc → Prop
  | .reg i k => i ≠ .efl ∧ k < 8
  | .mem b => b < 2 ^ 64

/-- A byte of a general register or of memory exists. -/
theorem ByteLoc.General.valid {b : ByteLoc} (h : b.General) : b.Valid := by
  cases b with
  | reg i k => exact h.2
  | mem b => exact h

/-- Outside of the flags the view is the byte itself. -/
theorem Machine.view_byte (m : Machine) {b : ByteLoc} (h : b.General) :
    m.view (.byte b) = m.byte b := by
  cases b with
  | mem b => rfl
  | reg i k =>
    have hne : i ≠ .efl := h.1
    cases i <;> first | rfl | exact absurd rfl hne

/-- What an instruction leaves: the new bytes at its destination, if it has one, and
every other byte and bit as it was, the status flags apart. -/
structure Machine.Leaves (m m' : Machine) (dest : Option (Nat × Loc)) (x : List (BitVec 8)) :
    Prop where
  bytes : ∀ n l, dest = some (n, l) → ∀ k < n, m'.byte (l.byte k) = x.getD k 0
  others : ∀ b : ByteLoc, b.General → (∀ n l, dest = some (n, l) → ∀ k < n, b ≠ l.byte k) →
    m'.byte b = m.byte b
  eflags : ∀ i, (∀ f ∈ changedFlags, f.bit ≠ i) →
    (m'.regs .efl).getLsbD i = (m.regs .efl).getLsbD i

/-- The operands of an instruction of one size, whose destination is a whole
register or memory. -/
structure Instruction.IsPair (I : Instruction) (D S : Operand) (w : Nat) : Prop where
  operands : I.operands = [D, S]
  width : w = 2 ∨ w = 4 ∨ w = 8
  dest : D.Place w
  source : S.Form w
  whole : D.deref = none → w = 8
  general : ∀ O ∈ [D, S], ∀ P ∈ O.value.uses, P.1.offt ≠ .efl
  ripKept : D.deref = none → ∀ P ∈ D.value.uses, P.1.offt ≠ .rip

/-- The memory operands are where an access goes to. -/
def Instruction.InRange (I : Instruction) (cpu : SYCPUState) : Prop :=
  ∀ O ∈ I.operands, O.deref.isSome = true → AccessRange (O.address I cpu) O.size

/-- The operation of a comparison, which keeps the flags only. -/
def compareOp : EntryID → Option BinOp
  | .cmp => some .sub
  | .test => some .and
  | _ => none

/-- What is known of the processor. `reads` and `writes` are the footprints of the
instructions; the others are what the manual says of the two-operand instructions
and of moves. -/
structure ProcessorLaw
    (processor : Instruction → MacReg → (Nat → BitVec 8) → MacReg × (Nat → BitVec 8))
    (reads writes : Instruction → Machine → Set MacLoc) : Prop where
  footprint : ∀ I : Instruction, Local Machine.view (Machine.ran processor I) (reads I) (writes I)
  binary : ∀ (I : Instruction) (D S : Operand) (w : Nat) (op : BinOp) (m : Machine),
    I.IsPair D S w → I.InRange m.cpu → binaryOp I.id = some op →
    m.Leaves (m.ran processor I) (some (w, D.loc I m.cpu))
        (binBytes op (m.bytes I D) (m.bytes I S)) ∧
      (m.ran processor I).regs.flags
        = statusFlags op (bitsOf (m.bytes I D) w) (bitsOf (m.bytes I S) w)
  compare : ∀ (I : Instruction) (D S : Operand) (w : Nat) (op : BinOp) (m : Machine),
    I.IsPair D S w → I.InRange m.cpu → compareOp I.id = some op →
    m.Leaves (m.ran processor I) none [] ∧
      (m.ran processor I).regs.flags
        = statusFlags op (bitsOf (m.bytes I D) w) (bitsOf (m.bytes I S) w)
  move : ∀ (I : Instruction) (D S : Operand) (w : Nat) (m : Machine),
    I.IsPair D S w → I.InRange m.cpu → I.id = .mov →
    m.Leaves (m.ran processor I) (some (w, D.loc I m.cpu)) (m.bytes I S) ∧
      (m.ran processor I).regs .efl = m.regs .efl

end KRover
