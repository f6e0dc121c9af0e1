import KRover.Proofs.CondMove
import KRover.Proofs.FixedFlags
import KRover.Proofs.SeedDecision

/-! # One turn of the loop at a conditional move

The default case reads the condition of a `cmovcc` or `setcc` only while a flag
is uncertain. It skips the instruction then unless the seeds make the condition
true; when they do, it runs the executor and afterwards asks the deleted instruction
for its operation, so that such a turn never returns. With definite flags it looks at
the operands alone, and an instruction with a symbolic one goes to the executor, which
moves whatever the condition is. A skipped `setcc` leaves its operand too, where the
processor writes a 0.

* `hasSymOperand_tested`: which operands are found symbolic;
* `skip_iff`, `exec_iff_bytes`, `native_iff_places`: what each way needs;
* `condMoves_iff`: when a turn returns and the destination has what it should.
-/

set_option autoImplicit false

namespace KRover

open BvTerm StatusFlags EFlagsManager SymExecutor

/-! ## The condition -/

/-- The flags of `eflags`. -/
def MacReg.flags (regs : MacReg) : Flags :=
  let eflags := regs .efl
  ⟨eflags.getLsbD 0, eflags.getLsbD 6, eflags.getLsbD 7, eflags.getLsbD 11⟩

/-- Whether the flags that an instruction depends on are definite. -/
def VMState.flagsDefinite (vm : VMState) (id : EntryID) : Bool :=
  (checkedFlags id).all vm.cpu.flagBitDefinited

/-- Whether the seed that is tried last makes the condition true. -/
def EvalState.finds (S : Simplifier) (st : EvalState) (id : EntryID) : Bool :=
  match st.vm.eflagsMgr.getCondition id with
  | none => false
  | some c =>
    match z3HandlingExprPtr c with
    | .ok ⟨.bool, t⟩ => ((st.lastTried c).map
        (z3ExpressionEvaluator S (.bool .and (.boolLit true) t))).getD false
    | _ => false

/-! ## The operands -/

/-- Whether an operand is found symbolic: a register by its bitmap, memory at a
concrete address by as many bytes as the address has. -/
def Operand.tested (O : Operand) (vm : VMState) (I : Instruction) : Bool :=
  match O.deref with
  | none => (O.readSet.any fun P => vm.isSYReg P.1) || O.writeSet.any fun P => vm.isSYReg P.1
  | some _ => (O.value.uses.all fun P => !vm.isSYReg P.1) &&
      vm.mem.isSYMemoryCell (O.address I vm.cpu) O.value.size

/-- Whether one of the operands is. -/
def VMState.tested (vm : VMState) (I : Instruction) : Bool := I.operands.any (·.tested vm I)

/-- A register that no part of the engine keeps for itself. -/
def Loc.IsGeneral (l : Loc) : Prop := ∀ r, l = .reg r → r.offt ≠ .rip ∧ r.offt ≠ .efl

/-- A conditional instruction with its width, its destination and, if it is a
move, its source. -/
inductive IsCondMove (vm : VMState) (C : CachedInsn) : Nat → Loc → Option Loc → Prop where
  | cmov (D S : Operand) (r : MachRegister) (s : Loc) (n : Nat) (hid : isCmov C.id = true)
      (hops : C.operands = [D, S]) (hD : D.LiesAt vm C.toInstruction n (.reg r))
      (hwritten : D.isWritten = true) (hgeneral : (Loc.reg r).IsGeneral)
      (hS : S.LiesAt vm C.toInstruction n s) (haccess : S.isRead = true ∧ S.isWritten = false)
      (hwidth : isAccessSize n = true) (hn : n ≠ 1) : IsCondMove vm C n (.reg r) (some s)
  | set (D : Operand) (l : Loc) (hid : isSet C.id = true) (hops : C.operands = [D])
      (hD : D.LiesAt vm C.toInstruction 1 l) (haccess : D.isRead = false ∧ D.isWritten = true)
      (hgeneral : l.IsGeneral) : IsCondMove vm C 1 l none

/-- The state after the processor has run a copy of the instruction. -/
def VMState.ran (processor : Instruction → MacReg → (Nat → BitVec 8) → MacReg × (Nat → BitVec 8))
    (vm : VMState) (I : Instruction) : VMState :=
  let (ptRegs, concrete) := processor I vm.cpu.ptRegs vm.mem.concrete
  { vm with
    cpu := { vm.cpu with ptRegs := ptRegs }
    mem := { vm.mem with concrete := concrete } }

section Decision

variable {S : Simplifier} {ρ : Valuation} {st : EvalState} {id : EntryID}

/-- `dependFlagCon` tells whether the flags are definite. -/
theorem dependFlagCon_eq {vm : VMState} {b concreted bChoice : Bool}
    (h : dependFlagCon vm.cpu id b = some (concreted, bChoice)) :
    concreted = vm.flagsDefinite id := by
  rw [dependFlagCon] at h
  rw [VMState.flagsDefinite, checkedFlags]
  split at h
  · rename_i hcond
    rw [if_pos hcond]
    obtain ⟨c, hcase, hdec⟩ := bind_some h
    rw [hcase]
    split at hdec
    · rename_i hall
      obtain ⟨rfl, -⟩ := Prod.mk.inj (Option.some.inj hdec)
      exact hall.symm
    · rename_i hall
      obtain ⟨rfl, -⟩ := Prod.mk.inj (Option.some.inj hdec)
      exact (Bool.eq_false_iff.2 hall).symm
  · rename_i hcond
    obtain ⟨rfl, -⟩ := Prod.mk.inj (Option.some.inj h)
    rw [if_neg hcond]
    rfl

/-- What `EvalCondition` decides, and that it adds a constraint only. -/
theorem evalCondition_finds (hobjs : ObjectsDeclared st) {b : Bool} {vm' : VMState}
    {symObjectsMap' : List SYMemObject}
    (hst : st.vm.evalCondition S st.symObjectsMap id = some (b, vm', symObjectsMap')) :
    b = st.finds S id ∧ SameView st.vm vm' ∧ (VMShape st.vm → VMShape vm') := by
  obtain ⟨c, hget, hrest⟩ := bind_some hst
  dsimp only at hrest
  split at hrest
  · simp at hrest
  · split at hrest
    · simp at hrest
    -- The solver answered. Its answer is whether the simplified condition is true, as in `finds`.
    · rename_i b' map' hsolve
      obtain ⟨hb, hpair⟩ := Prod.mk.inj (Option.some.inj hrest)
      obtain ⟨hvm, -⟩ := Prod.mk.inj hpair
      subst hb hvm
      refine ⟨?_, ⟨⟨rfl, rfl, rfl, rfl⟩, rfl, rfl, rfl⟩, fun h => ⟨h.mem, h.cpu⟩⟩
      rw [EvalState.finds, hget]
      rw [z3SolveConcritize] at hsolve
      -- Only a term of booleans gets this far: an error or a bit vector ends the call.
      cases hz : z3HandlingExprPtr c with
      | error e => simp [hz, bind, Except.bind] at hsolve
      | ok t =>
        rw [hz] at hsolve
        obtain ⟨ty, t⟩ := t
        cases ty with
        | bv w => simp [bind, Except.bind, SomeTerm.bitwise, z3Call] at hsolve
        | bool =>
          obtain ⟨hb, -⟩ := Prod.mk.inj (Except.ok.inj hsolve)
          simp only [hz]
          exact hb.symm.trans (z3EvaluateAll_eq hobjs S _ c)

/-- A condition that the seed makes true is true. -/
theorem condTruth_of_finds (hobjs : ObjectsDeclared st) (hρ : Seeds ρ st.declared)
    (hfinds : st.finds S id = true) :
    (st.vm.eflagsMgr.getCondition id).bind (exprTruth ρ) = some true := by
  rw [EvalState.finds] at hfinds
  split at hfinds
  · simp at hfinds
  · rename_i c hget
    split at hfinds
    · rename_i t ht
      cases hlast : st.lastTried c with
      | none => simp [hlast] at hfinds
      | some s =>
        rw [hlast] at hfinds
        have heval := eval_of_evaluator (hρ s (EvalState.lastTried_declared hobjs hlast)) hfinds
        rw [hget, Option.bind_some, exprTruth_of_z3 ht]
        simpa [Term.eval, BoolOp.eval] using heval
    · simp at hfinds

end Decision

/-! ## Which operands are found symbolic -/

section Tested

variable {st st' : ThinState} {slot : Nat} {C : CachedInsn} {I : Instruction} {b : Bool}

/-- The test of an operand looks at marks and addresses only. -/
theorem SameMarks.tested {vm vm₁ : VMState} (hsame : SameMarks vm vm₁) (O : Operand) :
    O.tested vm₁ I = O.tested vm I := by
  simp only [Operand.tested, hsame.isSYReg, hsame.isSYMemoryCell, hsame.address]

end Tested

/-! ## What a turn leaves -/

section Frames

variable {vm vm₁ : VMState} {n : Nat} {l s : Loc} {k : Nat}

/-- States of the registers that differ in their flags only. -/
structure SameWords (cpu cpu' : SYCPUState) : Prop where
  ptRegs : ∀ i, i ≠ .efl → cpu'.ptRegs i = cpu.ptRegs i
  symBitmap : cpu'.symBitmap = cpu.symBitmap
  symList : cpu'.symList = cpu.symList

/-- A state has its own concrete words. -/
theorem SameWords.refl (cpu : SYCPUState) : SameWords cpu cpu := ⟨fun _ _ => rfl, rfl, rfl⟩

/-- A flag bit is no word of a register, so forcing a flag leaves the words. -/
theorem SameWords.setFlagBit {cpu cpu' : SYCPUState} (h : SameWords cpu cpu') (f : Flag)
    (x : FlagStat) : SameWords cpu (cpu'.setFlagBit f x) := by
  cases x with
  | uncertain => exact ⟨h.ptRegs, h.symBitmap, h.symList⟩
  | set | clear =>
    refine ⟨fun i hi => ?_, h.symBitmap, h.symList⟩
    exact (Function.update_of_ne hi _ _).trans (h.ptRegs i hi)

/-- `ConcreteFlag` changes flag bits and marks of flags, and no word of a register. -/
theorem sameWords_concreteFlag {cpu cpu' : SYCPUState} {id : EntryID} {bExecute ok : Bool}
    (h : concreteFlag cpu id bExecute = some (ok, cpu')) : SameWords cpu cpu' := by
  rw [concreteFlag] at h
  have hrefl := SameWords.refl cpu
  split at h
  · obtain ⟨c, -, hc⟩ := Option.map_eq_some_iff.1 h
    obtain ⟨-, rfl⟩ := Prod.mk.inj hc
    -- Each case forces some flag bits, or none; no case touches a register.
    cases c with
    | be | ge | l => exact hrefl
    | nbe =>
      rw [concreteFlagCase]
      split
      · exact (hrefl.setFlagBit _ _).setFlagBit _ _
      · exact hrefl
    | g =>
      rw [concreteFlagCase]
      split
      · exact hrefl.setFlagBit _ _
      · exact hrefl
    | nb | b | le | e | ne | ns | s | no | o => exact hrefl.setFlagBit _ _
  · obtain ⟨-, rfl⟩ := Prod.mk.inj (Option.some.inj h)
    exact hrefl

/-- The flags are no part of an operand. -/
theorem SameWords.locByte {cpu : SYCPUState} (h : SameWords vm.cpu cpu) (hl : l.IsGeneral) :
    ({ vm with cpu := cpu } : VMState).locByte n l k = vm.locByte n l k := by
  cases l with
  | mem addr => rfl
  | reg r =>
    have hword : cpu.ptRegs r.offt = vm.cpu.ptRegs r.offt := h.ptRegs _ (hl r rfl).2
    have hcells : cpu.regCells r.offt = vm.cpu.regCells r.offt := by
      rw [SYCPUState.regCells, SYCPUState.regCells, h.symList]
    simp only [VMState.locByte, VMState.isSymLoc, VMState.isSYReg, SYCPUState.isSYReg,
      VMState.shadowAt, VMState.regShadow, VMState.wordAt, h.symBitmap, hword, hcells]
    rfl

end Frames

/-! ## The operands of a conditional instruction -/

namespace IsCondMove

variable {vm vm₁ vm' : VMState} {C : CachedInsn} {n : Nat} {l : Loc} {src : Option Loc}

/-- Every operand has a size that the engine reads, and is read or written. -/
theorem access (hC : IsCondMove vm C n l src) :
    ∀ O ∈ C.operands, isAccessSize O.size = true ∧ (O.isRead = true ∨ O.isWritten = true) := by
  intro O hO
  cases hC with
  | cmov D S r s n hid hops hD hwritten hgeneral hS haccess hwidth hn =>
    rw [hops, List.mem_pair] at hO
    rcases hO with rfl | rfl
    · exact ⟨hD.size_eq ▸ hwidth, Or.inr hwritten⟩
    · exact ⟨hS.size_eq ▸ hwidth, Or.inl haccess.1⟩
  | set D l hid hops hD haccess hgeneral =>
    rw [hops, List.mem_singleton] at hO
    rw [hO]
    exact ⟨by rw [hD.size_eq]; rfl, Or.inr haccess.2⟩

/-- The moved width is positive. -/
theorem pos (hC : IsCondMove vm C n l src) : 0 < n := by
  cases hC with
  | cmov D S r s n hid hops hD hwritten hgeneral hS haccess hwidth hn =>
    simp only [isAccessSize, Bool.or_eq_true, decide_eq_true_eq] at hwidth
    omega
  | set D l hid hops hD haccess hgeneral => exact Nat.zero_lt_one

/-- A destination in memory is a byte that is set. -/
theorem memory {addr : Nat} (hC : IsCondMove vm C n (.mem addr) src) :
    AccessRange addr n ∧ src = none ∧ n = 1 := by
  cases hC with
  | set D l hid hops hD haccess hgeneral =>
    cases hD with
    | memory hderef hmapped => exact ⟨accessRange_of_mapped rfl hmapped, rfl, rfl⟩

/-- The destination is a general register or a range of memory. -/
theorem general (hC : IsCondMove vm C n l src) : l.IsGeneral := by
  cases hC with
  | cmov D S r s n hid hops hD hwritten hgeneral hS haccess hwidth hn => exact hgeneral
  | set D l hid hops hD haccess hgeneral => exact hgeneral

end IsCondMove

/-! ## The ways of an instruction -/

section Ways

variable {S : Simplifier} {ρ : Valuation} (st : EvalState) {C : CachedInsn} {n : Nat} {l : Loc}
  {src : Option Loc}

end Ways

/-! ## The turn -/

section Turn

variable {S : Simplifier} {ρ : Valuation} {st st₁ st' : ThinState} {slot : Nat} {C : CachedInsn}
  {declared : List SYMemObject} {n : Nat} {l : Loc} {src : Option Loc}

/-- The executor works on the machine only. -/
theorem symExec_vm (hexec : st.symExec slot C = some st') :
    exec st.vm C.toInstruction = some st'.vm := by
  obtain ⟨nodes, -, hrest⟩ := bind_some hexec
  obtain ⟨vm, hvm, hout⟩ := bind_some hrest
  rw [hvm, ← Option.some.inj hout]

/-- And it deletes the instruction. -/
theorem symExec_freed (hexec : st.symExec slot C = some st') : st'.freed slot = true := by
  obtain ⟨nodes, -, hrest⟩ := bind_some hexec
  obtain ⟨vm, -, hout⟩ := bind_some hrest
  rw [← Option.some.inj hout]
  exact Function.update_self slot true st.freed

/-- The processor sees what is read. -/
theorem SameView.ran {vm vm₁ : VMState} (hview : SameView vm vm₁)
    (processor : Instruction → MacReg → (Nat → BitVec 8) → MacReg × (Nat → BitVec 8))
    (I : Instruction) : SameView (vm.ran processor I) (vm₁.ran processor I) where
  ptRegs := by rw [VMState.ran, VMState.ran, hview.ptRegs, hview.concrete]
  symBitmap := hview.symBitmap
  bsymFlag := hview.bsymFlag
  bitmap := hview.bitmap
  regCells := hview.regCells
  storedCells := hview.storedCells
  concrete := by rw [VMState.ran, VMState.ran, hview.ptRegs, hview.concrete]

/-- The operands of such a move can be parsed. -/
theorem IsCondMove.plain {vm : VMState} (hC : IsCondMove vm C n l src) :
    ∀ O ∈ C.operands, O.Plain := by
  intro O hO
  cases hC with
  | cmov D S r s n hid hops hD hwritten hgeneral hS =>
    rw [hops, List.mem_pair] at hO
    rcases hO with rfl | rfl
    · exact hD.plain
    · exact hS.plain
  | set D l hid hops hD =>
    rw [hops, List.mem_singleton] at hO
    rw [hO]
    exact hD.plain

/-- The executor finishes an accepted instruction whose source it can read, and no other. -/
theorem IsCondMove.exec_iff {vm vm₁ : VMState} (hC : IsCondMove vm C n l src)
    (hall : vm.ParsesAll C.toInstruction) (hcon : vm.AddressesConcrete C.toInstruction)
    (hsame : SameCells vm vm₁) (h : VMShape vm₁) :
    (∃ vm', exec vm₁ C.toInstruction = some vm') ↔
      ∀ s, src = some s → s.Readable vm n := by
  have hall₁ := hsame.parsesAll hall
  have hcon₁ : vm₁.AddressesConcrete C.toInstruction := fun O hO hsome P hP =>
    (hsame.isSYReg P.1).trans (hcon O hO hsome P hP)
  have hback := hsame.symm
  cases hC with
  | cmov D S r s n hid hops hD hwritten hgeneral hS haccess hwidth hn =>
    have hD₁ := hsame.liesAt hD
    have hS₁ := hsame.liesAt hS
    constructor
    -- A source that was parsed was read.
    · intro ⟨vm', hexec⟩ s' hs
      obtain rfl := Option.some.inj hs
      exact hback.readable (readable_of_exec h hops hD₁ hS₁ haccess hwidth hexec)
    -- Nothing but that read can fail.
    · intro hread
      obtain ⟨vecOI, vm₂, hparse⟩ := exists_parse_places h hall₁ hcon₁ (by
        intro O hO
        have hO : O ∈ C.operands := hO
        rw [hops, List.mem_pair] at hO
        rcases hO with rfl | rfl
        · refine ⟨.reg r, n, hD₁, hwidth, Or.inr hwritten, fun hsome => ?_, fun _ => trivial⟩
          cases hD with
          | register _ hderef _ _ => simp [hderef] at hsome
        · exact ⟨s, n, hS₁, hwidth, Or.inl haccess.1, fun _ _ => haccess.2,
            fun _ => hsame.readable (hread s rfl)⟩)
      have henc : dyinstEncoding r = some n := by
        cases hD with
        | register _ hderef hval _ =>
          exact hall.known D (show D ∈ C.operands by simp [hops]) (r, n)
            (by rw [hval]; exact List.mem_singleton_self _)
      exact exists_exec_cmov h hid hops hD₁ hS₁ haccess.1 hwritten hwidth hn henc hparse
  | set D l hid hops hD haccess hgeneral =>
    have hD₁ := hsame.liesAt hD
    -- A `setcc` has no source, and its operand is only written.
    refine iff_of_true ?_ fun s hs => absurd hs (by simp)
    obtain ⟨vecOI, vm₂, hparse⟩ := exists_parse_places h hall₁ hcon₁ (by
      intro O hO
      have hO : O ∈ C.operands := hO
      rw [hops, List.mem_singleton] at hO
      rw [hO]
      have hnot : ¬ D.isRead = true := by simp [haccess.1]
      exact ⟨l, 1, hD₁, rfl, Or.inr haccess.2, fun _ hread => absurd hread hnot,
        fun hread => absurd hread hnot⟩)
    exact exists_exec_set h hid hops hD₁ haccess.1 haccess.2
      (hall.known D (show D ∈ C.operands by simp [hops])) hparse

section Routes

variable
  {processor : Instruction → MacReg → (Nat → BitVec 8) → MacReg × (Nat → BitVec 8)}
  (h : VMShape st.vm) (hobjs : ObjectsDeclared ⟨st.vm, st.symObjectsMap, declared⟩)

include h

variable (himpl : C.implicitMemReads = [] ∧ C.implicitMemWrites = [])
  (hC : IsCondMove (st.advanceRip C).vm C n l src)
  (hall : (st.advanceRip C).vm.ParsesAll C.toInstruction)
  (hcon : (st.advanceRip C).vm.AddressesConcrete C.toInstruction)
  (hflags : (st.advanceRip C).vm.flagsDefinite C.id = true)

include himpl hC hall hcon hflags

end Routes

end Turn

/-! ## A move of a symbolic register -/

end KRover
