import KRover.ProcessFunction
import KRover.Proofs.MovStep

/-! # What runs natively

An instruction of the default category runs natively when the flags it depends
on are definite and `hasSymOperand` finds nothing. The test looks at the
registers of operands that are no memory, at as many bytes from an address as
the address expression has itself, and at the flags of the conditional
instructions.

* `hasSymOperand_false`: what a test that finds nothing has looked at;
* `nativeReads_iff`: nothing symbolic is read natively exactly when all that is
  symbolic lies where the test looks.
-/

set_option autoImplicit false

namespace KRover

open BvTerm EFlagsManager SYCPUState Segments Bytes SymbolListMap

/-! ## Reads leave the marks alone -/

/-- Bitmaps, concrete words and marks of flags are the same. -/
structure SameMarks (vm vm' : VMState) : Prop where
  ptRegs : vm'.cpu.ptRegs = vm.cpu.ptRegs
  symBitmap : vm'.cpu.symBitmap = vm.cpu.symBitmap
  bsymFlag : vm'.cpu.bsymFlag = vm.cpu.bsymFlag
  bitmap : vm'.mem.bitmap = vm.mem.bitmap

/-- Nothing has been looked at yet. -/
theorem SameMarks.refl (vm : VMState) : SameMarks vm vm := ⟨rfl, rfl, rfl, rfl⟩

section Same

variable {vm vm₁ vm₂ : VMState}

/-- What is looked at one after the other changes nothing. -/
theorem SameMarks.trans (h : SameMarks vm vm₁) (h' : SameMarks vm₁ vm₂) : SameMarks vm vm₂ where
  ptRegs := h'.ptRegs.trans h.ptRegs
  symBitmap := h'.symBitmap.trans h.symBitmap
  bsymFlag := h'.bsymFlag.trans h.bsymFlag
  bitmap := h'.bitmap.trans h.bitmap

/-- The marks of a register are the same. -/
theorem SameMarks.isSYReg (h : SameMarks vm vm₁) (r : MachRegister) :
    vm₁.isSYReg r = vm.isSYReg r := by
  rw [VMState.isSYReg, VMState.isSYReg, SYCPUState.isSYReg, SYCPUState.isSYReg, h.symBitmap]

/-- The marks of a range are the same. -/
theorem SameMarks.isSYMemoryCell (h : SameMarks vm vm₁) (addr size : Nat) :
    vm₁.mem.isSYMemoryCell addr size = vm.mem.isSYMemoryCell addr size := by
  rw [SYMemState.isSYMemoryCell, SYMemState.isSYMemoryCell, h.bitmap]

/-- The concrete value of a register is the same. -/
theorem SameMarks.readConcreteValue (h : SameMarks vm vm₁) (r : MachRegister) (size : Nat) :
    vm₁.cpu.readConcreteValue r size 0 = vm.cpu.readConcreteValue r size 0 := by
  rw [SYCPUState.readConcreteValue, SYCPUState.readConcreteValue, h.ptRegs]

/-- So is the value that a register has in an address. -/
theorem SameMarks.registerResult (h : SameMarks vm vm₁) (r : MachRegister) (size : Nat) :
    OperandAST.registerResult vm₁.cpu r size = OperandAST.registerResult vm.cpu r size := by
  rw [OperandAST.registerResult, OperandAST.registerResult, h.readConcreteValue]

/-- So is the value of an address. By induction on the expression. -/
theorem SameMarks.eval (h : SameMarks vm vm₁) (a : OperandAST) :
    a.eval vm₁.cpu = a.eval vm.cpu := by
  induction a with
  | register r size => exact h.registerResult r size
  | immediate v size => rfl
  | add x y size hx hy => rw [OperandAST.eval, OperandAST.eval, hx, hy]
  | multiply x y size hx hy => rw [OperandAST.eval, OperandAST.eval, hx, hy]

/-- So is the base that `gs` adds. -/
theorem SameMarks.gsBase (h : SameMarks vm vm₁) (I : Instruction) :
    I.gsBase vm₁.cpu = I.gsBase vm.cpu := by
  rw [Instruction.gsBase, Instruction.gsBase, h.readConcreteValue]

/-- So is the address of an operand. -/
theorem SameMarks.address (h : SameMarks vm vm₁) (I : Instruction) (O : Operand) :
    O.address I vm₁.cpu = O.address I vm.cpu := by
  rw [Operand.address, Operand.address, h.eval, h.gsBase]

end Same

/-- A read of a register says whether it is symbolic, and what its word holds. -/
theorem readRegisterExpr_marks {vm vm' : VMState} {r : MachRegister} {size : Nat} {RV : RegValue}
    (hread : vm.readRegisterExpr r size = some (RV, vm')) :
    SameMarks vm vm' ∧ RV.bsym = vm.isSYReg r ∧ RV.i64 = vm.cpu.readConcreteValue r size 0 := by
  obtain ⟨⟨ok, W, cpu⟩, hreg, hout⟩ := bind_some (asserted_eq_some.1 hread)
  obtain ⟨-, hvalue⟩ := Prod.mk.inj (Option.some.inj hout)
  obtain ⟨rfl, rfl⟩ := Prod.mk.inj hvalue
  obtain ⟨n, -, hcpu⟩ := bind_some hreg
  split at hcpu
  · simp at hcpu
  · split at hcpu
    · -- the word is symbolic; the read copies cells and nothing else
      rename_i hsym
      have hsym : vm.isSYReg r = true := hsym
      simp only [Bool.false_eq_true, if_false] at hcpu
      obtain ⟨⟨m, e⟩, -, hpair⟩ := bind_some hcpu
      obtain ⟨rfl, rfl⟩ := Prod.mk.inj (Prod.mk.inj (Option.some.inj hpair)).2
      exact ⟨⟨rfl, rfl, rfl, rfl⟩, hsym.symm, rfl⟩
    · rename_i hcon
      have hcon : ¬ vm.isSYReg r = true := hcon
      obtain ⟨rfl, rfl⟩ := Prod.mk.inj (Prod.mk.inj (Option.some.inj hcpu)).2
      exact ⟨SameMarks.refl vm, (Bool.eq_false_iff.2 hcon).symm, rfl⟩

/-- The question for `gs` answers with its base and changes nothing. -/
theorem isUseGS_marks {vm vm' : VMState} {I : Instruction} {base : BitVec 64}
    (hgs : vm.isUseGS I = some (base, vm')) : SameMarks vm vm' ∧ base = I.gsBase vm.cpu := by
  rw [VMState.isUseGS] at hgs
  rw [Instruction.gsBase]
  split at hgs
  · rename_i hany
    obtain ⟨⟨RV, vm₁⟩, hread, hout⟩ := bind_some hgs
    obtain ⟨rfl, rfl⟩ := Prod.mk.inj (Option.some.inj hout)
    obtain ⟨hsame, -, hval⟩ := readRegisterExpr_marks hread
    rw [if_pos hany]
    exact ⟨hsame, hval⟩
  · rename_i hany
    obtain ⟨rfl, rfl⟩ := Prod.mk.inj (Option.some.inj hgs)
    rw [if_neg hany]
    exact ⟨SameMarks.refl _, rfl⟩

/-! ## Values of nodes -/

section Nodes

variable {slot : Nat} {pos : ExprPos} {vm vm' : VMState} {nodes nodes' : NodeValues}

/-- The node of a concrete register holds its value after a visit of the
register, and keeps it when others are visited. -/
theorem visitRegisters_spec {regs : List (MachRegister × Nat)}
    (hvisit : visitRegisters slot pos vm nodes regs = some (vm', nodes')) :
    SameMarks vm vm' ∧ ∀ r size, vm.isSYReg r = false →
      ((r, size) ∈ regs ∨
        nodes ⟨slot, pos, r, size⟩ = some (OperandAST.registerResult vm.cpu r size)) →
      nodes' ⟨slot, pos, r, size⟩ = some (OperandAST.registerResult vm.cpu r size) := by
  -- The induction is on the registers still to be visited. A later visit of the same node binds the
  -- same word, as reads change none.
  induction regs generalizing vm nodes with
  | nil =>
    obtain ⟨rfl, rfl⟩ := Prod.mk.inj (Option.some.inj hvisit)
    exact ⟨SameMarks.refl _, fun r size _ h => h.resolve_left (by simp)⟩
  | cons P regs ih =>
    obtain ⟨q, qsize⟩ := P
    obtain ⟨⟨RV, vm₁⟩, hread, hrest⟩ := bind_some hvisit
    obtain ⟨hsame, hbsym, hval⟩ := readRegisterExpr_marks hread
    obtain ⟨hsame', hnodes⟩ := ih hrest
    refine ⟨hsame.trans hsame', fun r size hcon h => ?_⟩
    have hnode := hnodes r size ((hsame.isSYReg r).trans hcon)
    rw [hsame.registerResult] at hnode
    refine hnode ?_
    by_cases heq : (r, size) = (q, qsize)
    · -- the register is read here
      obtain ⟨rfl, rfl⟩ := Prod.mk.inj heq
      refine Or.inr ?_
      rw [hbsym, hcon, if_neg Bool.false_ne_true, NodeValues.setValue, Function.update_self, hval]
      rfl
    · refine h.imp (fun hmem => (List.mem_cons.1 hmem).resolve_left heq) fun hold => ?_
      split
      · exact hold
      · rw [NodeValues.setValue, Function.update_of_ne]
        · exact hold
        · intro hnode
          obtain ⟨-, -, rfl, rfl⟩ := RegNode.mk.inj hnode
          exact heq rfl

/-- An expression whose nodes hold the values of the registers. -/
theorem evalNodes_eq {cpu : SYCPUState} {f : MachRegister → Nat → Option (BitVec 64)}
    {a : OperandAST} (h : ∀ P ∈ a.uses, f P.1 P.2 = some (OperandAST.registerResult cpu P.1 P.2)) :
    a.evalNodes f = some (a.eval cpu) := by
  induction a with
  | register r size => exact h (r, size) (by simp [OperandAST.uses])
  | immediate v size => rfl
  | add x y size hx hy =>
    rw [OperandAST.evalNodes, hx fun P hP => h P (by simp [OperandAST.uses, hP]),
      hy fun P hP => h P (by simp [OperandAST.uses, hP])]
    rfl
  | multiply x y size hx hy =>
    rw [OperandAST.evalNodes, hx fun P hP => h P (by simp [OperandAST.uses, hP]),
      hy fun P hP => h P (by simp [OperandAST.uses, hP])]
    rfl

end Nodes

/-! ## What the test looks at -/

section Test

variable {st st' : ThinState} {slot : Nat} {C : CachedInsn} {b : Bool}

/-- With concrete registers the address that is tested is the current one,
whatever the nodes held before. -/
theorem testAddress_spec {pos : ExprPos} {a : OperandAST} {gsBase : BitVec 64}
    (htest : st.testAddress slot pos a gsBase = some (b, st')) :
    SameMarks st.vm st'.vm ∧ ((∀ P ∈ a.uses, st.vm.isSYReg P.1 = false) →
      b = st.vm.mem.isSYMemoryCell (a.eval st.vm.cpu + gsBase).toNat a.size) := by
  obtain ⟨⟨vm, nodes⟩, hvisit, hrest⟩ := bind_some htest
  obtain ⟨addr, haddr, hout⟩ := bind_some hrest
  obtain ⟨rfl, rfl⟩ := Prod.mk.inj (Option.some.inj hout)
  obtain ⟨hsame, hnodes⟩ := visitRegisters_spec hvisit
  refine ⟨hsame, fun hcon => ?_⟩
  have heval := evalNodes_eq (f := fun r size => nodes ⟨slot, pos, r, size⟩) fun P hP =>
    hnodes P.1 P.2 (hcon P hP) (Or.inl hP)
  obtain rfl := Option.some.inj (heval.symm.trans haddr)
  exact hsame.isSYMemoryCell _ _

/-- An operand in which nothing was found. -/
structure OperandChecked (vm : VMState) (C : CachedInsn) (O : Operand) : Prop where
  regs : O.deref = none → ∀ P ∈ O.readSet, vm.isSYReg P.1 = false
  memory : O.readsMemory = true → (∀ P ∈ O.value.uses, vm.isSYReg P.1 = false) →
    vm.mem.isSYMemoryCell (O.address C.toInstruction vm.cpu) O.value.size = false

/-- The test of a memory operand answers for its address, where no register of it is
symbolic. With a symbolic one the node has the value of an earlier visit, and the answer is
for another address. -/
theorem testOperand_spec {i : Nat} {O : Operand} {gsBase : BitVec 64} {kind : Bool}
    (htest : st.testOperand slot i O gsBase kind = some (b, st')) :
    SameMarks st.vm st'.vm ∧ (kind = true → (∀ P ∈ O.value.uses, st.vm.isSYReg P.1 = false) →
      b = st.vm.mem.isSYMemoryCell (O.value.eval st.vm.cpu + gsBase).toNat O.value.size) := by
  rw [ThinState.testOperand] at htest
  split at htest
  · obtain ⟨hsame, hret⟩ := testAddress_spec htest
    exact ⟨hsame, fun _ => hret⟩
  · rename_i hkind
    obtain ⟨-, rfl⟩ := Prod.mk.inj (Option.some.inj htest)
    exact ⟨SameMarks.refl _, fun h => absurd h hkind⟩

/-- An operand that is read and found concrete is so at its address, under the same
condition. -/
theorem opdhasSymMemCell_spec {i : Nat} {O : Operand} {gsBase : BitVec 64}
    (htest : st.opdhasSymMemCell slot i O gsBase = some (b, st')) :
    SameMarks st.vm st'.vm ∧ (b = false → O.readsMemory = true →
      (∀ P ∈ O.value.uses, st.vm.isSYReg P.1 = false) →
      st.vm.mem.isSYMemoryCell (O.value.eval st.vm.cpu + gsBase).toNat O.value.size = false) := by
  rw [ThinState.opdhasSymMemCell] at htest
  obtain ⟨⟨ret, st₁⟩, hread, hrest⟩ := bind_some htest
  obtain ⟨hsame, hret⟩ := testOperand_spec hread
  simp only at hrest
  split at hrest
  · obtain ⟨rfl, rfl⟩ := Prod.mk.inj (Option.some.inj hrest)
    exact ⟨hsame, fun h => absurd h (by simp)⟩
  · rename_i hfalse
    refine ⟨hsame.trans (testOperand_spec hrest).1, fun _ hreads hcon => ?_⟩
    exact (hret hreads hcon).symm.trans (Bool.eq_false_iff.2 hfalse)

/-- What was found of an operand is so for the state before. -/
theorem SameMarks.operandChecked {vm vm₁ : VMState} (hsame : SameMarks vm vm₁) {O : Operand}
    (h : OperandChecked vm₁ C O) : OperandChecked vm C O where
  regs hderef P hP := (hsame.isSYReg P.1).symm.trans (h.regs hderef P hP)
  memory hreads hcon := by
    have htest := h.memory hreads fun P hP => (hsame.isSYReg P.1).trans (hcon P hP)
    rw [hsame.isSYMemoryCell, hsame.address] at htest
    exact htest

/-- The loop over registers that are all found gives whether one of them is symbolic. -/
theorem anySYReg_eq_some {vm : VMState} {regs : List (MachRegister × Nat)} {b : Bool}
    (h : vm.anySYReg regs = some b) : b = regs.any fun P => vm.isSYReg P.1 := by
  induction regs with
  | nil => exact (Option.some.inj h).symm
  | cons P regs ih =>
    obtain ⟨ret, hret, hrest⟩ := bind_some h
    obtain rfl := VMState.isSYRegAt_eq_some hret
    rw [List.any_cons]
    split at hrest
    · rename_i hsym
      rw [hsym, Bool.true_or]
      exact (Option.some.inj hrest).symm
    · rename_i hcon
      rw [Bool.eq_false_iff.2 hcon, Bool.false_or]
      exact ih hrest

/-- It finds them when they have encodings. -/
theorem anySYReg_of_encodings (vm : VMState) {regs : List (MachRegister × Nat)}
    (henc : ∀ P ∈ regs, ∃ n, dyinstEncoding P.1 = some n) :
    vm.anySYReg regs = some (regs.any fun P => vm.isSYReg P.1) := by
  induction regs with
  | nil => rfl
  | cons P regs ih =>
    obtain ⟨n, hP⟩ := henc P (by simp)
    have hrest := ih fun Q hQ => henc Q (by simp [hQ])
    rw [VMState.anySYReg, vm.isSYRegAt_of_encoding hP, List.any_cons]
    cases hsym : vm.isSYReg P.1 with
    | true => rfl
    | false =>
      rw [Bool.false_or]
      exact hrest

/-- The test of the registers of an operand asks for the read ones and, if there is no
symbolic one among them, for the written ones. -/
theorem opdhasSymReg_eq_some {st : ThinState} {O : Operand} {b : Bool}
    (h : st.opdhasSymReg O = some b) :
    b = ((O.readSet.any fun P => st.vm.isSYReg P.1) ||
      O.writeSet.any fun P => st.vm.isSYReg P.1) := by
  obtain ⟨ret, hret, hrest⟩ := bind_some h
  rw [← anySYReg_eq_some hret]
  split at hrest
  · rename_i hsym
    rw [hsym, Bool.true_or]
    exact (Option.some.inj hrest).symm
  · rename_i hcon
    rw [Bool.eq_false_iff.2 hcon, Bool.false_or]
    exact anySYReg_eq_some hrest

/-- The test of an operand whose registers have encodings. -/
theorem opdhasSymReg_of_encodings (st : ThinState) {O : Operand}
    (hread : ∀ P ∈ O.readSet, ∃ n, dyinstEncoding P.1 = some n)
    (hwrite : ∀ P ∈ O.writeSet, ∃ n, dyinstEncoding P.1 = some n) :
    st.opdhasSymReg O = some ((O.readSet.any fun P => st.vm.isSYReg P.1) ||
      O.writeSet.any fun P => st.vm.isSYReg P.1) := by
  rw [ThinState.opdhasSymReg, anySYReg_of_encodings _ hread, anySYReg_of_encodings _ hwrite]
  cases O.readSet.any fun P => st.vm.isSYReg P.1 with
  | true => rfl
  | false => rfl

/-- One operand of the loop. -/
theorem operandHasSym_spec {O : Operand} {i : Nat}
    (htest : st.operandHasSym slot C i O = some (b, st')) :
    SameMarks st.vm st'.vm ∧ (b = false → OperandChecked st.vm C O) := by
  rw [ThinState.operandHasSym] at htest
  split at htest
  · rename_i hmem
    obtain ⟨hreads, -⟩ := Bool.and_eq_true_iff.1 hmem
    obtain ⟨ret, hret, htest⟩ := bind_some htest
    obtain ⟨rfl, rfl⟩ := Prod.mk.inj (Option.some.inj htest)
    refine ⟨SameMarks.refl _, fun hfalse => ⟨fun _ P hP => ?_, fun h => ?_⟩⟩
    · rw [opdhasSymReg_eq_some hret, Bool.or_eq_false_iff, List.any_eq_false] at hfalse
      exact Bool.eq_false_iff.2 (hfalse.1 P hP)
    · rw [h] at hreads
      exact absurd hreads (by simp)
  · rename_i hmem
    obtain ⟨⟨gsBase, vm⟩, hgs, hcell⟩ := bind_some htest
    obtain ⟨hsame, rfl⟩ := isUseGS_marks hgs
    obtain ⟨hsame', hcheck⟩ := opdhasSymMemCell_spec hcell
    refine ⟨hsame.trans hsame', fun hfalse => hsame.operandChecked ⟨fun hderef => ?_, ?_⟩⟩
    · rw [Operand.readsMemory, Operand.writesMemory, hderef] at hmem
      exact absurd rfl hmem
    · intro hreads hcon
      have htest := hcheck hfalse hreads hcon
      rw [Operand.address, hsame.gsBase]
      exact htest

/-- The loop over the operands: when it finds none symbolic, each was checked. -/
theorem operandsHaveSym_spec {Os : List Operand} {i : Nat}
    (htest : st.operandsHaveSym slot C i Os = some (b, st')) :
    SameMarks st.vm st'.vm ∧ (b = false → ∀ O ∈ Os, OperandChecked st.vm C O) := by
  induction Os generalizing st i with
  | nil =>
    obtain ⟨-, rfl⟩ := Prod.mk.inj (Option.some.inj htest)
    exact ⟨SameMarks.refl _, fun _ O hO => absurd hO (by simp)⟩
  | cons O Os ih =>
    rw [ThinState.operandsHaveSym] at htest
    obtain ⟨⟨ret, st₁⟩, hfirst, hrest⟩ := bind_some htest
    obtain ⟨hsame, hcheck⟩ := operandHasSym_spec hfirst
    simp only at hrest
    split at hrest
    · obtain ⟨rfl, rfl⟩ := Prod.mk.inj (Option.some.inj hrest)
      exact ⟨hsame, fun h => absurd h (by simp)⟩
    · rename_i hfalse
      obtain ⟨hsame', hall⟩ := ih hrest
      refine ⟨hsame.trans hsame', fun hb Q hQ => ?_⟩
      rcases List.mem_cons.1 hQ with rfl | hQ
      · exact hcheck (Bool.eq_false_iff.2 hfalse)
      · exact hsame.operandChecked (hall hb Q hQ)

/-- An implicit access at which nothing was found. -/
def AccessChecked (vm : VMState) (a : OperandAST) : Prop :=
  (∀ P ∈ a.uses, vm.isSYReg P.1 = false) →
    vm.mem.isSYMemoryCell (a.eval vm.cpu).toNat a.size = false

/-- What was found of an implicit access is so for the state before. -/
theorem SameMarks.accessChecked {vm vm₁ : VMState} (hsame : SameMarks vm vm₁) {a : OperandAST}
    (h : AccessChecked vm₁ a) : AccessChecked vm a := by
  intro hcon
  have htest := h fun P hP => (hsame.isSYReg P.1).trans (hcon P hP)
  rw [hsame.isSYMemoryCell, hsame.eval] at htest
  exact htest

/-- The loop over the implicit accesses, in the same way. -/
theorem implicitHasSym_spec {pos : Nat → ExprPos} {accesses : List (OperandAST × Nat)} {i : Nat}
    (htest : st.implicitHasSym slot pos i accesses = some (b, st')) :
    SameMarks st.vm st'.vm ∧ (b = false → ∀ p ∈ accesses, AccessChecked st.vm p.1) := by
  induction accesses generalizing st i with
  | nil =>
    obtain ⟨-, rfl⟩ := Prod.mk.inj (Option.some.inj htest)
    exact ⟨SameMarks.refl _, fun _ p hp => absurd hp (by simp)⟩
  | cons p accesses ih =>
    obtain ⟨a, n⟩ := p
    rw [ThinState.implicitHasSym] at htest
    obtain ⟨⟨ret, st₁⟩, hfirst, hrest⟩ := bind_some htest
    obtain ⟨hsame, hret⟩ := testAddress_spec hfirst
    simp only at hrest
    split at hrest
    · obtain ⟨rfl, rfl⟩ := Prod.mk.inj (Option.some.inj hrest)
      exact ⟨hsame, fun h => absurd h (by simp)⟩
    -- The loop goes on while the answers are no.
    · rename_i hfalse
      obtain ⟨hsame', hall⟩ := ih hrest
      refine ⟨hsame.trans hsame', fun hb q hq => ?_⟩
      rcases List.mem_cons.1 hq with rfl | hq
      · intro hcon
        have htest := (hret hcon).symm.trans (Bool.eq_false_iff.2 hfalse)
        have hzero : a.eval st.vm.cpu + (0 : BitVec 64) = a.eval st.vm.cpu := BitVec.add_zero _
        rw [hzero] at htest
        exact htest
      · exact hsame.accessChecked (hall hb q hq)

/-- A test that finds nothing has checked the operands and the implicit
accesses. -/
theorem hasSymOperand_false (htest : st.hasSymOperand slot C = some (false, st')) :
    SameMarks st.vm st'.vm ∧ (∀ O ∈ C.operands, OperandChecked st.vm C O) ∧
      ∀ p ∈ C.implicitMemReads, AccessChecked st.vm p.1 := by
  rw [ThinState.hasSymOperand] at htest
  obtain ⟨⟨ret, st₁⟩, hops, hrest⟩ := bind_some htest
  obtain ⟨hsame, hchecked⟩ := operandsHaveSym_spec hops
  simp only at hrest
  split at hrest
  · exact absurd (Prod.mk.inj (Option.some.inj hrest)).1 (by simp)
  · rename_i hfalse
    rw [ThinState.checkImplicitMemAccess] at hrest
    obtain ⟨⟨ret', st₂⟩, hreads, hwrites⟩ := bind_some hrest
    obtain ⟨hsame₂, himplicit⟩ := implicitHasSym_spec hreads
    simp only at hwrites
    split at hwrites
    · exact absurd (Prod.mk.inj (Option.some.inj hwrites)).1 (by simp)
    · rename_i hfalse'
      obtain ⟨hsame₃, -⟩ := implicitHasSym_spec hwrites
      exact ⟨(hsame.trans hsame₂).trans hsame₃, hchecked (Bool.eq_false_iff.2 hfalse),
        fun p hp => hsame.accessChecked (himplicit (Bool.eq_false_iff.2 hfalse') p hp)⟩

/-- What an instruction that runs natively has passed. -/
theorem dispatch_native {S : Simplifier} (hd : st.dispatch S slot C = some (.native, st')) :
    (∃ bChoice, dependFlagCon st.vm.cpu C.id false = some (true, bChoice)) ∧
      st.hasSymOperand slot C = some (false, st') := by
  rw [ThinState.dispatch] at hd
  obtain ⟨⟨concreted, bChoice⟩, hflags, hrest⟩ := bind_some hd
  cases concreted with
  | false =>
    obtain ⟨⟨bExecute, vm, map⟩, -, hout⟩ := bind_some hrest
    have hdispatch := (Prod.mk.inj (Option.some.inj hout)).1
    cases bExecute with
    | true => exact absurd hdispatch (by simp)
    | false => exact absurd hdispatch (by simp)
  | true =>
    obtain ⟨⟨ret, st₁⟩, htest, hout⟩ := bind_some hrest
    obtain ⟨hdispatch, rfl⟩ := Prod.mk.inj (Option.some.inj hout)
    cases ret with
    | true => exact absurd hdispatch (by simp)
    | false => exact ⟨⟨bChoice, hflags⟩, htest⟩

end Test

/-- The flags that `dependFlagCon` asks for. -/
def checkedFlags (id : EntryID) : List Flag :=
  if isConditionalExecuteInstr id then ((switchCaseSbb id).map dependencyFlags).getD [] else []

/-- The flags that a conditional instruction asks for are definite when they are reported
so. -/
theorem flagBitDefinited_of_dependFlagCon {cpu : SYCPUState} {id : EntryID} {b bChoice : Bool}
    (h : dependFlagCon cpu id b = some (true, bChoice)) :
    ∀ f ∈ checkedFlags id, cpu.flagBitDefinited f = true := by
  intro f hf
  rw [dependFlagCon] at h
  rw [checkedFlags] at hf
  split at h
  · rename_i hcond
    rw [if_pos hcond] at hf
    obtain ⟨c, hcase, hrest⟩ := bind_some h
    rw [hcase] at hf
    split at hrest
    · rename_i hall
      exact List.all_eq_true.1 hall f hf
    · exact absurd (Prod.mk.inj (Option.some.inj hrest)).1 (by simp)
  · rename_i hcond
    rw [if_neg hcond] at hf
    exact absurd hf (by simp)

/-! ## What the processor reads -/

/-- What an instruction reads beside its registers: the flags, and which of its
memory operands lie in the segment of `gs`. -/
structure X86Reads where
  flags : List Flag
  inGS : Operand → Bool

/-- Where a memory operand lies. -/
def Operand.x86Address (O : Operand) (X : X86Reads) (cpu : SYCPUState) : Nat :=
  (O.value.eval cpu + if X.inGS O then cpu.readConcreteValue ⟨.gs, .full⟩ 8 0 else 0).toNat

/-- Whether a byte of memory is symbolic. Addresses go round. -/
def VMState.SymByte (vm : VMState) (addr k : Nat) : Prop :=
  vm.mem.bitmap.Marked ((addr + k) % 2 ^ 64)

/-- Nothing that the instruction reads is symbolic: no register of an operand or
of an address, no byte of memory, no flag. -/
structure ConcreteReads (vm : VMState) (C : CachedInsn) (X : X86Reads) : Prop where
  regs : ∀ O ∈ C.operands, ∀ P ∈ O.readSet, vm.isSYReg P.1 = false
  memory : ∀ O ∈ C.operands, O.readsMemory = true → ∀ k < O.size,
    ¬ vm.SymByte (O.x86Address X vm.cpu) k
  implicitRegs : ∀ p ∈ C.implicitMemReads, ∀ P ∈ p.1.uses, vm.isSYReg P.1 = false
  implicitMemory : ∀ p ∈ C.implicitMemReads, ∀ k < p.2, ¬ vm.SymByte (p.1.eval vm.cpu).toNat k
  flags : ∀ f ∈ X.flags, vm.cpu.flagBitDefinited f = true

/-- What is symbolic lies where the test looks: not in an address, among the
bytes from the tested address on, as many as the address expression has, and
among the flags that are asked for. -/
structure ReadsChecked (vm : VMState) (C : CachedInsn) (X : X86Reads) : Prop where
  address : ∀ O ∈ C.operands, O.deref.isSome = true → ∀ P ∈ O.value.uses, vm.isSYReg P.1 = false
  memory : ∀ O ∈ C.operands, O.readsMemory = true → ∀ k < O.size,
    vm.SymByte (O.x86Address X vm.cpu) k → ∃ j < O.value.size,
      (O.address C.toInstruction vm.cpu + j) % 2 ^ 64 = (O.x86Address X vm.cpu + k) % 2 ^ 64
  implicitAddress : ∀ p ∈ C.implicitMemReads, ∀ P ∈ p.1.uses, vm.isSYReg P.1 = false
  implicitMemory : ∀ p ∈ C.implicitMemReads, ∀ k < p.2,
    vm.SymByte (p.1.eval vm.cpu).toNat k → k < p.1.size
  flags : ∀ f ∈ X.flags, f ∉ checkedFlags C.id → vm.cpu.flagBitDefinited f = true

/-- Address expressions have eight bytes at most. -/
structure CachedInsn.ShortAddresses (C : CachedInsn) : Prop where
  operand : ∀ O ∈ C.operands, O.value.size ≤ 8
  implicitRead : ∀ p ∈ C.implicitMemReads, p.1.size ≤ 8

section Reads

variable {st st' : ThinState} {slot : Nat} {C : CachedInsn} {X : X86Reads}

/-- A byte that was tested is not symbolic. -/
theorem not_symByte {vm : VMState} {addr size k : Nat} (haddr : addr < 2 ^ 64) (hsize : size ≤ 8)
    (htest : vm.mem.isSYMemoryCell addr size = false) (hk : k < size) : ¬ vm.SymByte addr k := by
  intro hsym
  have hwrap : SYMemBitmap.NoWrap addr size := by
    unfold SYMemBitmap.NoWrap
    omega
  have htrue := (SYMemBitmap.testSYMemBitmap_iff_mod vm.mem.bitmap haddr hwrap).2 ⟨k, hk, hsym⟩
  exact Bool.false_ne_true (htest.symm.trans htrue)

/-- What runs natively reads nothing symbolic exactly when all that is symbolic
lies where the test looks. -/
theorem concreteReads_iff {S : Simplifier} (hshort : C.ShortAddresses)
    (hd : st.dispatch S slot C = some (.native, st')) :
    ConcreteReads st.vm C X ↔ ReadsChecked st.vm C X := by
  obtain ⟨⟨bChoice, hflags⟩, htest⟩ := dispatch_native hd
  obtain ⟨-, hops, himplicit⟩ := hasSymOperand_false htest
  have hreadSet : ∀ O : Operand, O.deref.isSome = true → O.readSet = O.value.uses := by
    intro O hderef
    obtain ⟨n, hn⟩ := Option.isSome_iff_exists.1 hderef
    rw [Operand.readSet, hn]
  constructor
  -- The registers of an address are among those that are read.
  · intro h
    refine ⟨fun O hO hderef P hP => h.regs O hO P ?_, fun O hO hreads k hk hsym => ?_,
      h.implicitRegs, fun p hp k hk hsym => ?_, fun f hf _ => h.flags f hf⟩
    · rw [hreadSet O hderef]
      exact hP
    · exact absurd hsym (h.memory O hO hreads k hk)
    · exact absurd hsym (h.implicitMemory p hp k hk)
  · intro h
    refine ⟨fun O hO P hP => ?_, fun O hO hreads k hk hsym => ?_, h.implicitAddress,
      fun p hp k hk hsym => ?_, fun f hf => ?_⟩
    · cases hderef : O.deref with
      | none => exact (hops O hO).regs hderef P hP
      | some n =>
        have hsome : O.deref.isSome = true := by rw [hderef]; rfl
        rw [hreadSet O hsome] at hP
        exact h.address O hO hsome P hP
    · -- a symbolic byte would have been tested
      obtain ⟨j, hj, heq⟩ := h.memory O hO hreads k hk hsym
      have hderef := (Bool.and_eq_true_iff.1 hreads).1
      have htested := (hops O hO).memory hreads (h.address O hO hderef)
      have hsym' : st.vm.SymByte (O.address C.toInstruction st.vm.cpu) j := by
        show st.vm.mem.bitmap.Marked _
        rw [heq]
        exact hsym
      exact not_symByte (BitVec.isLt _) (hshort.operand O hO) htested hj hsym'
    · have htested := himplicit p hp (h.implicitAddress p hp)
      exact not_symByte (BitVec.isLt _) (hshort.implicitRead p hp) htested
        (h.implicitMemory p hp k hk hsym) hsym
    · by_cases hchecked : f ∈ checkedFlags C.id
      · exact flagBitDefinited_of_dependFlagCon hflags f hchecked
      · exact h.flags f hf hchecked

end Reads

/-! ## Runs -/

/-- A turn of the loop with the instruction of a slot that is of the default
category, or anything else that happens to the state. -/
inductive ThinEvent where
  | visit (slot : Nat)
  | other (st : ThinState)

section Runs

variable (S : Simplifier)
  (processor : Instruction → MacReg → (Nat → BitVec 8) → MacReg × (Nat → BitVec 8))
  (code : Nat → CachedInsn)

/-- One event. -/
def ThinEvent.step (st : ThinState) : ThinEvent → Option ThinState
  | .visit slot => st.defaultCase S processor slot (code slot)
  | .other st' => some st'

/-- If the event is an instruction that runs natively, the registers, memory and
flags that it finds have a property. -/
def ThinEvent.NativeHas (P : VMState → Nat → Prop) (st : ThinState) : ThinEvent → Prop
  | .visit slot => ∀ st', (st.advanceRip (code slot)).dispatch S slot (code slot)
      = some (.native, st') → P (st.advanceRip (code slot)).vm slot
  | .other _ => True

/-- Whatever runs natively in a run finds the property. -/
def NativeOver (P : VMState → Nat → Prop) : List ThinEvent → ThinState → Prop
  | [], _ => True
  | ev :: evs, st => ev.NativeHas S code P st ∧
      ∀ st', ev.step S processor code st = some st' → NativeOver P evs st'

variable {S processor code}

/-- Two properties that agree at every native dispatch hold of the same runs. -/
theorem NativeOver.congr {P Q : VMState → Nat → Prop}
    (h : ∀ st ev, ThinEvent.NativeHas S code P st ev ↔ ThinEvent.NativeHas S code Q st ev)
    (evs : List ThinEvent) (st : ThinState) :
    NativeOver S processor code P evs st ↔ NativeOver S processor code Q evs st := by
  induction evs generalizing st with
  | nil => exact Iff.rfl
  | cons ev evs ih =>
    rw [NativeOver, NativeOver, h st ev]
    exact and_congr_right fun _ => forall_congr' fun st' => imp_congr_right fun _ => ih st'

/-- In every run, from every state, nothing symbolic is read natively exactly when all that
is symbolic in what an instruction reads lies where the test looks. The test looks at the
bytes of each operand, at the address that the nodes of the cached instruction give. A node
of a symbolic register keeps an older value, so the test may look elsewhere than the
processor. -/
theorem nativeReads_iff (reads : Nat → X86Reads)
    (hshort : ∀ slot, (code slot).ShortAddresses) (evs : List ThinEvent) (st : ThinState) :
    NativeOver S processor code (fun vm slot => ConcreteReads vm (code slot) (reads slot)) evs st ↔
      NativeOver S processor code (fun vm slot => ReadsChecked vm (code slot) (reads slot))
        evs st := by
  refine NativeOver.congr (fun st ev => ?_) evs st
  cases ev with
  | visit slot =>
    exact forall_congr' fun st' => imp_congr_right fun hd => concreteReads_iff (hshort slot) hd
  | other st' => exact Iff.rfl

end Runs

/-! ## A loop of two loads -/

/-- `mov dst, [base]`. -/
def loadInsn (dst base : PtIdx) : CachedInsn where
  id := .mov
  operands := [⟨.register ⟨dst, .full⟩ 8, none, false, true⟩,
    ⟨.register ⟨base, .full⟩ 8, some 8, true, false⟩]
  implicitReads := []
  length := 3
  implicitMemReads := []
  implicitMemWrites := []

/-- The value that a test finds on the node of a register. -/
def ThinState.nodeAfter (st : ThinState) (node : RegNode) : Option (BitVec 64) :=
  if st.vm.isSYReg node.reg then st.nodes node
  else some (OperandAST.registerResult st.vm.cpu node.reg node.size)

section Load

variable {st : ThinState} {slot : Nat} {dst base : PtIdx}

/-- The visitor at one register. It leaves the value of this visit on the node, or that of
an earlier one where the register is symbolic, and the nodes of other instructions alone. -/
theorem exists_visitRegister (slot : Nat) (h : VMShape st.vm) {r : MachRegister} {n : Nat}
    (henc : dyinstEncoding r = some n) (pos : ExprPos) :
    ∃ vm nodes, visitRegisters slot pos st.vm st.nodes [(r, n)] = some (vm, nodes) ∧
      VMShape vm ∧ SameCells st.vm vm ∧
      nodes ⟨slot, pos, r, n⟩ = st.nodeAfter ⟨slot, pos, r, n⟩ ∧
      ∀ node, node.slot ≠ slot → nodes node = st.nodes node := by
  obtain ⟨vm, hread, hshape, hsame⟩ := h.exists_readRegisterExpr henc
  obtain ⟨-, hbsym, hval⟩ := readRegisterExpr_marks hread
  refine ⟨vm, _, by rw [visitRegisters, hread]; rfl, hshape, hsame, ?_, fun node hnode => ?_⟩
  · rw [ThinState.nodeAfter, hbsym]
    split
    · rfl
    · rw [NodeValues.setValue, Function.update_self, hval]
      rfl
  · split
    · rfl
    · rw [NodeValues.setValue, Function.update_of_ne]
      intro heq
      exact hnode (by rw [heq])

/-- The test of a load whose destination is concrete. -/
theorem exists_hasSymOperand (h : VMShape st.vm) (hdst : st.vm.isSYReg ⟨dst, .full⟩ = false)
    (hencD : dyinstEncoding ⟨dst, .full⟩ = some 8)
    (henc : dyinstEncoding ⟨base, .full⟩ = some 8) {addr : BitVec 64}
    (haddr : st.nodeAfter ⟨slot, .operand 1, ⟨base, .full⟩, 8⟩ = some addr) :
    ∃ st', st.hasSymOperand slot (loadInsn dst base)
        = some (st.vm.mem.isSYMemoryCell addr.toNat 8, st') ∧
      VMShape st'.vm ∧ SameCells st.vm st'.vm ∧ st'.symObjectsMap = st.symObjectsMap ∧
      st'.nodes ⟨slot, .operand 1, ⟨base, .full⟩, 8⟩ = some addr ∧
      ∀ node, node.slot ≠ slot → st'.nodes node = st.nodes node := by
  obtain ⟨vm, nodes, hvisit, hshape, hsame, hnode, hothers⟩ :=
    exists_visitRegister slot h henc (.operand 1)
  have hzero : addr + (0 : BitVec 64) = addr := BitVec.add_zero _
  have htest : st.testAddress slot (.operand 1) (.register ⟨base, .full⟩ 8) 0
      = some (st.vm.mem.isSYMemoryCell addr.toNat 8, { st with vm := vm, nodes := nodes }) := by
    rw [ThinState.testAddress]
    simp only [OperandAST.uses, hvisit, Option.bind_eq_bind, Option.bind_some,
      OperandAST.evalNodes, hnode, haddr, hzero]
    rw [hsame.isSYMemoryCell]
    rfl
  refine ⟨{ st with vm := vm, nodes := nodes }, ?_, hshape, hsame, rfl, hnode.trans haddr, hothers⟩
  let C := loadInsn dst base
  let D : Operand := ⟨.register ⟨dst, .full⟩ 8, none, false, true⟩
  let S : Operand := ⟨.register ⟨base, .full⟩ 8, some 8, true, false⟩
  -- The destination is only tested for its mark, and the source by its address.
  have hD : st.operandHasSym slot C 0 D = some (false, st) := by
    have hD : st.opdhasSymReg D = some false := by
      rw [opdhasSymReg_of_encodings st (fun P hP => absurd hP (by simp [D, Operand.readSet]))
        fun P hP => ⟨8, by rw [List.mem_singleton.1 (show P ∈ [(⟨dst, .full⟩, 8)] from hP), hencD]⟩]
      simp [Operand.readSet, Operand.writeSet, D, hdst]
    show (st.opdhasSymReg D >>= _) = _
    rw [hD]
    rfl
  have hS : st.operandHasSym slot C 1 S
      = some (st.vm.mem.isSYMemoryCell addr.toNat 8, { st with vm := vm, nodes := nodes }) := by
    show st.opdhasSymMemCell slot 1 S 0 = _
    rw [ThinState.opdhasSymMemCell]
    show (st.testAddress slot (.operand 1) (.register ⟨base, .full⟩ 8) 0 >>= _) = _
    rw [htest]
    cases st.vm.mem.isSYMemoryCell addr.toNat 8 with
    | true => rfl
    | false => rfl
  have hloop : st.operandsHaveSym slot C 0 C.operands
      = some (st.vm.mem.isSYMemoryCell addr.toNat 8, { st with vm := vm, nodes := nodes }) := by
    show st.operandsHaveSym slot C 0 [D, S] = _
    simp only [ThinState.operandsHaveSym, hD, hS, Option.bind_eq_bind, Option.bind_some,
      Bool.false_eq_true, if_false]
    cases st.vm.mem.isSYMemoryCell addr.toNat 8 with
    | true => rfl
    | false => rfl
  rw [ThinState.hasSymOperand, hloop]
  cases st.vm.mem.isSYMemoryCell addr.toNat 8 with
  | true => rfl
  | false => rfl

end Load

/-- The value of a whole register. -/
theorem registerResult_full (cpu : SYCPUState) (i : PtIdx) :
    OperandAST.registerResult cpu ⟨i, .full⟩ 8 = cpu.ptRegs i := by
  rw [OperandAST.registerResult, SYCPUState.readConcreteValue, if_neg (by decide)]
  have hlow := setWidth_assignLow (w := 64) (le_refl _) 0 (cpu.ptRegs i)
  have hlow : (assignLow (8 * 8) 0 (cpu.ptRegs i)).setWidth (8 * 8)
      = (cpu.ptRegs i).setWidth (8 * 8) := hlow
  show ((assignLow (8 * 8) 0 (cpu.ptRegs i)).setWidth (8 * 8)).signExtend 64 = _
  rw [hlow]
  simp

/-- `mov rax, [rbx]` in slot 0 and `mov rbx, [rcx]` in slot 1. -/
def loopCode : Nat → CachedInsn
  | 1 => loadInsn .rbx .rcx
  | _ => loadInsn .rax .rbx

/-- `rbx` and `rcx` point to memory. -/
def loopRegs : MacReg := fun i => if i = .rbx then 4096 else if i = .rcx then 8192 else 0

/-- The loads of the loop do not change concrete values here: the memory is
zero. -/
def idleProcessor : Instruction → MacReg → (Nat → BitVec 8) → MacReg × (Nat → BitVec 8) :=
  fun _ regs mem => (regs, mem)

/-- Neither flags nor the segment of `gs` are read. -/
def plainReads : X86Reads := ⟨[], fun _ => false⟩

/-- The addresses of the two loads have eight bytes. -/
theorem shortAddresses_loopCode (slot : Nat) : (loopCode slot).ShortAddresses := by
  have hload : ∀ dst base, (loadInsn dst base).ShortAddresses := by
    intro dst base
    refine ⟨fun O hO => ?_, fun p hp => absurd hp (by simp [loadInsn])⟩
    rcases List.mem_pair.1 (show O ∈ [_, _] from hO) with rfl | rfl
    · exact le_refl 8
    · exact le_refl 8
  unfold loopCode
  split
  · exact hload _ _
  · exact hload _ _

/-- The start of the loop, with a symbol at 8192. -/
theorem exists_loopStart : ∃ vm,
    (VMState.new loopRegs fun _ => 0).createSYMemObject 8192 8 false true 1 "S" = some (true, vm) ∧
      VMShape vm ∧ vm.cpu = SYCPUState.new loopRegs ∧
      vm.mem.isSYMemoryCell 8192 8 = true ∧ vm.mem.isSYMemoryCell 4096 8 = false := by
  have hr : AccessRange 8192 8 := accessRange_of_mapped (by decide) (by decide)
  obtain ⟨vm, obj, hst, hshape, hcpu, -, -, hmarked⟩ :=
    exists_declared loopRegs (fun _ => 0) hr (by decide) false true 1 "S"
  refine ⟨vm, hst, hshape, hcpu,
    (isSYMemoryCell_iff_marked hr).2 ⟨8192, by decide, (hmarked 8192).2 (by decide)⟩, ?_⟩
  have hr' : AccessRange 4096 8 := accessRange_of_mapped (by decide) (by decide)
  rw [← Bool.not_eq_true, isSYMemoryCell_iff_marked hr']
  rintro ⟨b, hb, hmark⟩
  have hobj := (hmarked b).1 hmark
  omega

/-- With a symbol at 8192 the first load runs natively, and what it reads at 4096 is not
symbolic. The address is concrete and was bound in this visit. -/
theorem nativeReads_load : ∃ vm,
    (VMState.new loopRegs fun _ => 0).createSYMemObject 8192 8 false true 1 "S" = some (true, vm) ∧
    vm.mem.isSYMemoryCell 8192 8 = true ∧
    NativeOver Simplifier.closedOnly idleProcessor loopCode
      (fun vm slot => ConcreteReads vm (loopCode slot) plainReads)
      [.visit 0] ⟨vm, [], fun _ => none, fun _ => false⟩ := by
  obtain ⟨vm, hst, -, hcpu, hsym, -⟩ := exists_loopStart
  refine ⟨vm, hst, hsym, (nativeReads_iff (fun _ => plainReads) shortAddresses_loopCode _ _).2
    ⟨fun st' _ => ⟨fun O _ _ P _ => ?_, fun O hO hread k hk _ => ?_, fun p hp => ?_,
      fun p hp => ?_, fun f hf => ?_⟩, fun _ _ => trivial⟩⟩
  · show (vm.cpu.symBitmap P.1.offt &&& regMaskBits P.1.sub != 0) = false
    rw [hcpu]
    show (0#64 &&& regMaskBits P.1.sub != 0) = false
    simp
  · -- the address is as wide as the load
    rcases List.mem_pair.1 (show O ∈ [_, _] from hO) with rfl | rfl
    · exact absurd hread (by decide)
    · exact ⟨k, hk, rfl⟩
  · exact absurd hp (by simp [loopCode, loadInsn])
  · exact absurd hp (by simp [loopCode, loadInsn])
  · exact absurd hf (by simp [plainReads])

/-- The lists and the marks do not depend on `rip`. -/
theorem advanceRip_shape {st : ThinState} (h : VMShape st.vm) (C : CachedInsn) :
    VMShape (st.advanceRip C).vm :=
  ⟨h.mem, h.cpu.congr rfl rfl⟩

/-- The other registers stay where they are. -/
theorem ptRegs_advanceRip (st : ThinState) (C : CachedInsn) {i : PtIdx} (hi : i ≠ .rip) :
    (st.advanceRip C).vm.cpu.ptRegs i = st.vm.cpu.ptRegs i :=
  Function.update_of_ne hi _ _

/-- A load from memory that tests as concrete, to a concrete register, runs
natively. -/
theorem exists_visit_native {st : ThinState} (slot : Nat) (dst base : PtIdx) (addr : BitVec 64)
    (h : VMShape st.vm) (hcode : loopCode slot = loadInsn dst base)
    (hdst : st.vm.isSYReg ⟨dst, .full⟩ = false)
    (hencD : dyinstEncoding ⟨dst, .full⟩ = some 8) (henc : dyinstEncoding ⟨base, .full⟩ = some 8)
    (haddr : (st.advanceRip (loopCode slot)).nodeAfter ⟨slot, .operand 1, ⟨base, .full⟩, 8⟩
      = some addr)
    (htest : st.vm.mem.isSYMemoryCell addr.toNat 8 = false) :
    ∃ st', (st.advanceRip (loopCode slot)).dispatch Simplifier.closedOnly slot (loopCode slot)
        = some (.native, st') ∧
      (ThinEvent.visit slot).step Simplifier.closedOnly idleProcessor loopCode st = some st' ∧
      VMShape st'.vm ∧ SameCells (st.advanceRip (loopCode slot)).vm st'.vm ∧
      st'.nodes ⟨slot, .operand 1, ⟨base, .full⟩, 8⟩ = some addr := by
  rw [hcode] at haddr ⊢
  obtain ⟨st', hsym, hshape, hsame, -, hnode, -⟩ :=
    exists_hasSymOperand (advanceRip_shape h (loadInsn dst base)) hdst hencD henc haddr
  have htest : (st.advanceRip (loadInsn dst base)).vm.mem.isSYMemoryCell addr.toNat 8 = false :=
    htest
  rw [htest] at hsym
  have hd : (st.advanceRip (loadInsn dst base)).dispatch Simplifier.closedOnly slot
      (loadInsn dst base) = some (.native, st') := by
    rw [ThinState.dispatch]
    show ((st.advanceRip (loadInsn dst base)).hasSymOperand slot (loadInsn dst base) >>= _) = _
    rw [hsym]
    rfl
  refine ⟨st', hd, ?_, hshape, hsame, hnode⟩
  rw [ThinEvent.step, hcode, ThinState.defaultCase, hd]
  rfl

/-- A load of eight symbolic bytes goes to the executor, which makes the register
symbolic and leaves everything else as it was. -/
theorem exists_visit_symExec {st : ThinState} (slot : Nat) (dst base : PtIdx)
    (h : VMShape st.vm) (hcode : loopCode slot = loadInsn dst base)
    (hdst : st.vm.isSYReg ⟨dst, .full⟩ = false)
    (hbase : st.vm.isSYReg ⟨base, .full⟩ = false) (hrip : base ≠ .rip)
    (hencD : dyinstEncoding ⟨dst, .full⟩ = some 8) (henc : dyinstEncoding ⟨base, .full⟩ = some 8)
    (hr : AccessRange (st.vm.cpu.ptRegs base).toNat 8)
    (hone : SYMemState.crossesChunk (st.vm.cpu.ptRegs base).toNat 8 = false)
    (htest : st.vm.mem.isSYMemoryCell (st.vm.cpu.ptRegs base).toNat 8 = true) :
    ∃ st', (ThinEvent.visit slot).step Simplifier.closedOnly idleProcessor loopCode st = some st' ∧
      VMShape st'.vm ∧ st'.vm.isSYReg ⟨dst, .full⟩ = true ∧
      (∀ i, i ≠ dst → st'.vm.cpu.symBitmap i = st.vm.cpu.symBitmap i) ∧
      st'.vm.mem.bitmap = st.vm.mem.bitmap ∧
      ∀ node, node.slot ≠ slot → st'.nodes node = st.nodes node := by
  let C := loadInsn dst base
  let D : Operand := ⟨.register ⟨dst, .full⟩ 8, none, false, true⟩
  let M : Operand := ⟨.register ⟨base, .full⟩ 8, some 8, true, false⟩
  let st₀ := st.advanceRip C
  have hregs₀ : st₀.vm.cpu.ptRegs base = st.vm.cpu.ptRegs base := ptRegs_advanceRip st C hrip
  have hbase₀ : st₀.vm.isSYReg ⟨base, .full⟩ = false := hbase
  -- the address is concrete, and what lies there is not
  have haddr : st₀.nodeAfter ⟨slot, .operand 1, ⟨base, .full⟩, 8⟩
      = some (st.vm.cpu.ptRegs base) := by
    rw [ThinState.nodeAfter, hbase₀, if_neg Bool.false_ne_true, registerResult_full, hregs₀]
  obtain ⟨st₁, hsym, h₁, hsame, -, -, hothers⟩ :=
    exists_hasSymOperand (advanceRip_shape h C) hdst hencD henc haddr
  have htest₀ : st₀.vm.mem.isSYMemoryCell (st.vm.cpu.ptRegs base).toNat 8 = true := htest
  rw [htest₀] at hsym
  have hregs₁ : st₁.vm.cpu.ptRegs base = st.vm.cpu.ptRegs base :=
    (congrFun hsame.ptRegs base).trans hregs₀
  have haddr₁ : M.address C.toInstruction st₁.vm.cpu = (st.vm.cpu.ptRegs base).toNat := by
    have hzero : OperandAST.registerResult st₁.vm.cpu ⟨base, .full⟩ 8 + (0 : BitVec 64)
        = OperandAST.registerResult st₁.vm.cpu ⟨base, .full⟩ 8 := BitVec.add_zero _
    show (OperandAST.registerResult st₁.vm.cpu ⟨base, .full⟩ 8 + (0 : BitVec 64)).toNat = _
    rw [hzero, registerResult_full, hregs₁]
  have hI : IsMov st₁.vm C.toInstruction D M ⟨dst, .full⟩ 8 := by
    refine ⟨rfl, hencD, ⟨rfl, rfl⟩, ⟨rfl, rfl⟩, ⟨rfl, rfl⟩, .memory rfl ?_ ?_ ?_, ?_⟩
    · rw [haddr₁]
      exact hr
    · exact Or.inl (by simp [M, Operand.readSet, OperandAST.uses])
    · intro P hP
      rw [List.mem_singleton.1 (show P ∈ [(⟨base, .full⟩, 8)] from hP), hsame.isSYReg]
      exact hbase₀
    · intro P hP
      rw [List.mem_singleton.1 (show P ∈ [(⟨base, .full⟩, 8)] from hP)]
      exact henc
  have hone₁ : M.OneChunk st₁.vm C.toInstruction 8 := by
    intro _
    rw [haddr₁]
    exact hone
  have hsymM : st₁.vm.isSymOprnd C.toInstruction M = true := by
    show st₁.vm.mem.isSYMemoryCell (M.address C.toInstruction st₁.vm.cpu) 8 = true
    rw [haddr₁, hsame.isSYMemoryCell]
    exact htest₀
  -- The executor moves the symbolic cells into the destination.
  obtain ⟨vm₂, vm₃, cells, v, hsame₂, hform, hexec, hw⟩ := hI.exists_exec h₁ rfl hsymM hone₁
  -- Its reader binds the nodes of this instruction only.
  obtain ⟨vm₄, nodes, hvisit, -, -, -, hothers₂⟩ :=
    exists_visitRegister slot h₁ henc (.operand 1)
  have hV : (listWrite ⟨dst, .full⟩ 8 cells v).Writable := ⟨hencD, fun _ _ => hform⟩
  have hnodes : ThinState.symExec.readNodes slot st₁.vm st₁.nodes 0 [D, M] = some nodes := by
    show ThinState.symExec.readNodes slot st₁.vm st₁.nodes 1 [M] = some nodes
    rw [ThinState.symExec.readNodes]
    show (visitRegisters slot (.operand 1) st₁.vm st₁.nodes [(⟨base, .full⟩, 8)] >>= _) = _
    rw [hvisit]
    rfl
  refine ⟨{ st₁ with vm := vm₃, nodes := nodes, freed := Function.update st₁.freed slot true },
    ?_, hw.shape, hw.isSYReg hV, fun i hi => ?_, ?_,
    fun node hnode => (hothers₂ node hnode).trans (hothers node hnode)⟩
  · rw [ThinEvent.step, hcode, ThinState.defaultCase, ThinState.dispatch]
    show ((st₀.hasSymOperand slot C >>= _) >>= _) = _
    rw [hsym]
    show st₁.symExec slot C = _
    rw [ThinState.symExec]
    show (ThinState.symExec.readNodes slot st₁.vm st₁.nodes 0 [D, M] >>= _) = _
    rw [hnodes]
    show (SymExecutor.exec st₁.vm C.toInstruction >>= _) = _
    rw [hexec]
    rfl
  · rw [(hw.others i hi).2, hsame₂.symBitmap, hsame.symBitmap]
    rfl
  · exact hw.bitmap.trans (hsame₂.bitmap.trans hsame.bitmap)

/-- With `rbx` loaded from a symbol, the first load of the loop is tested at the
address that the node of `rbx` kept, and runs natively. -/
theorem not_nativeReads_loop : ∃ vm,
    (VMState.new loopRegs fun _ => 0).createSYMemObject 8192 8 false true 1 "S" = some (true, vm) ∧
      ¬ NativeOver Simplifier.closedOnly idleProcessor loopCode
        (fun vm slot => ConcreteReads vm (loopCode slot) plainReads)
        [.visit 0, .visit 1, .visit 0] ⟨vm, [], fun _ => none, fun _ => false⟩ := by
  obtain ⟨vm, hdecl, h, hcpu, hsymbol, hplain⟩ := exists_loopStart
  refine ⟨vm, hdecl, fun hall => ?_⟩
  let st : ThinState := ⟨vm, [], fun _ => none, fun _ => false⟩
  have hclear : ∀ r, vm.isSYReg r = false := by
    intro r
    rw [VMState.isSYReg, hcpu]
    simp [SYCPUState.isSYReg, SYCPUState.new]
  have hregs : vm.cpu.ptRegs = loopRegs := by rw [hcpu]; rfl
  -- the first load leaves the address in its node
  obtain ⟨st₁, -, hst₁, h₁, hsame₁, hnode₁⟩ :=
    exists_visit_native 0 .rax .rbx 4096 h rfl (hclear _) rfl rfl (by
      have hcon : (st.advanceRip (loopCode 0)).vm.isSYReg ⟨.rbx, .full⟩ = false := hclear _
      rw [ThinState.nodeAfter, hcon, if_neg Bool.false_ne_true, registerResult_full,
        ptRegs_advanceRip st _ (by decide), hregs]
      rfl) hplain
  have hregs₁ : st₁.vm.cpu.ptRegs .rcx = 8192 := by
    rw [hsame₁.ptRegs, ptRegs_advanceRip st _ (by decide), hregs]
    rfl
  have hclear₁ : ∀ r, st₁.vm.isSYReg r = false := fun r => (hsame₁.isSYReg r).trans (hclear r)
  -- the second load makes the register symbolic
  obtain ⟨st₂, hst₂, h₂, hsym₂, hbits₂, hmem₂, hnodes₂⟩ :=
    exists_visit_symExec 1 .rbx .rcx h₁ rfl (hclear₁ _) (hclear₁ _) (by decide) rfl rfl
    (by rw [hregs₁]; exact accessRange_of_mapped (by decide) (by decide))
    (by rw [hregs₁]; decide)
    (by rw [hregs₁]; exact (hsame₁.isSYMemoryCell 8192 8).trans hsymbol)
  have hrax₂ : st₂.vm.isSYReg ⟨.rax, .full⟩ = false := by
    rw [VMState.isSYReg, SYCPUState.isSYReg, hbits₂ .rax (by decide)]
    exact hclear₁ ⟨.rax, .full⟩
  obtain ⟨st₃, hd, -, -, -, -⟩ := exists_visit_native 0 .rax .rbx 4096 h₂ rfl hrax₂ rfl rfl (by
      have hsym : (st₂.advanceRip (loopCode 0)).vm.isSYReg ⟨.rbx, .full⟩ = true := hsym₂
      rw [ThinState.nodeAfter, hsym, if_pos rfl]
      exact (hnodes₂ _ (by decide)).trans hnode₁) (by
      rw [SYMemState.isSYMemoryCell, hmem₂]
      exact (hsame₁.isSYMemoryCell 4096 8).trans hplain)
  -- The third visit runs natively, by the address of the first, and reads the symbolic register.
  obtain ⟨-, hrest⟩ := hall
  obtain ⟨-, hrest⟩ := hrest st₁ hst₁
  obtain ⟨hreads, -⟩ := hrest st₂ hst₂
  have hrbx := (hreads st₃ hd).regs ⟨.register ⟨.rbx, .full⟩ 8, some 8, true, false⟩ (by decide)
    (⟨.rbx, .full⟩, 8) (by decide)
  exact Bool.false_ne_true (hrbx.symm.trans hsym₂)

end KRover
