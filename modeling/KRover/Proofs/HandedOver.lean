import KRover.Proofs.HandlerRun
import KRover.Proofs.NativeDispatch

/-! # What is handed over to the executor

`hasSymOperand` hands an instruction to the executor when a register it reads or
writes is symbolic, or memory that it reads or writes. The executor should then
finish it. `hasSymOperand` only reads the state (`hasSymOperand_onlyReads`), so
that happens exactly for the instructions that are accepted (`handedOver_iff`):
`not` is never finished, nor is a move of a concrete value to symbolic memory.
-/

set_option autoImplicit false

namespace KRover

open Segments SymbolListMap SymExecutor

/-! ## The test for symbolic operands -/

/-- A step that only reads: the invariant is kept, and what can be seen of the
state. -/
def OnlyReads (vm vm' : VMState) : Prop := VMShape vm → VMShape vm' ∧ SameCells vm vm'

/-- To do nothing only reads. -/
theorem OnlyReads.refl (vm : VMState) : OnlyReads vm vm := fun h => ⟨h, SameCells.refl vm⟩

/-- Two steps that only read do so together. -/
theorem OnlyReads.trans {vm vm₁ vm₂ : VMState} (h₁ : OnlyReads vm vm₁) (h₂ : OnlyReads vm₁ vm₂) :
    OnlyReads vm vm₂ := by
  intro h
  obtain ⟨hshape₁, hsame₁⟩ := h₁ h
  obtain ⟨hshape₂, hsame₂⟩ := h₂ hshape₁
  exact ⟨hshape₂, hsame₁.trans hsame₂⟩

section Test

variable {st st' : ThinState} {slot : Nat} {C : CachedInsn} {b : Bool}

/-- The visitor asks for the marks of registers and binds their words. -/
theorem visitRegisters_onlyReads {pos : ExprPos} {vm vm' : VMState} {nodes nodes' : NodeValues}
    {regs : List (MachRegister × Nat)}
    (hvisit : visitRegisters slot pos vm nodes regs = some (vm', nodes')) : OnlyReads vm vm' := by
  induction regs generalizing vm nodes with
  | nil =>
    obtain ⟨rfl, -⟩ := Prod.mk.inj (Option.some.inj hvisit)
    exact .refl vm
  | cons P regs ih =>
    obtain ⟨⟨W, vm₁⟩, hread, hrest⟩ := bind_some hvisit
    have h₁ : OnlyReads vm vm₁ := by
      intro h
      obtain ⟨hshape, hsame, -, -⟩ := h.readRegisterExpr hread
      exact ⟨hshape, hsame⟩
    exact h₁.trans (ih hrest)

/-- The address of an operand is evaluated from what the visitor bound. -/
theorem testAddress_onlyReads {pos : ExprPos} {a : OperandAST} {gsBase : BitVec 64}
    (htest : st.testAddress slot pos a gsBase = some (b, st')) : OnlyReads st.vm st'.vm := by
  obtain ⟨⟨vm, nodes⟩, hvisit, hrest⟩ := bind_some htest
  obtain ⟨addr, -, hout⟩ := bind_some hrest
  obtain ⟨-, rfl⟩ := Prod.mk.inj (Option.some.inj hout)
  exact visitRegisters_onlyReads hvisit

/-- The test of a memory operand looks at its address and asks for the marks. -/
theorem testOperand_onlyReads {i : Nat} {O : Operand} {gsBase : BitVec 64} {kind : Bool}
    (htest : st.testOperand slot i O gsBase kind = some (b, st')) : OnlyReads st.vm st'.vm := by
  cases kind with
  | true => exact testAddress_onlyReads htest
  | false =>
    obtain ⟨-, rfl⟩ := Prod.mk.inj (Option.some.inj htest)
    exact .refl st.vm

/-- The test of one explicit operand reads. -/
theorem operandHasSym_onlyReads {i : Nat} {O : Operand}
    (htest : st.operandHasSym slot C i O = some (b, st')) : OnlyReads st.vm st'.vm := by
  rw [ThinState.operandHasSym] at htest
  split at htest
  · obtain ⟨ret, -, htest⟩ := bind_some htest
    obtain ⟨-, rfl⟩ := Prod.mk.inj (Option.some.inj htest)
    exact .refl st.vm
  · obtain ⟨⟨gsBase, vm₁⟩, hgs, hrest⟩ := bind_some htest
    have h₁ : OnlyReads st.vm vm₁ := by
      intro h
      obtain ⟨hshape, hsame, -⟩ := h.isUseGS hgs
      exact ⟨hshape, hsame⟩
    obtain ⟨⟨ret, st₂⟩, hread, hrest⟩ := bind_some hrest
    have h₂ := h₁.trans (testOperand_onlyReads hread)
    simp only at hrest
    split at hrest
    · obtain ⟨-, rfl⟩ := Prod.mk.inj (Option.some.inj hrest)
      exact h₂
    · exact h₂.trans (testOperand_onlyReads hrest)

/-- So does the test of all of them, one after the other until one is symbolic. -/
theorem operandsHaveSym_onlyReads {Os : List Operand} {i : Nat}
    (htest : st.operandsHaveSym slot C i Os = some (b, st')) : OnlyReads st.vm st'.vm := by
  induction Os generalizing st i with
  | nil =>
    obtain ⟨-, rfl⟩ := Prod.mk.inj (Option.some.inj htest)
    exact .refl st.vm
  | cons O Os ih =>
    obtain ⟨⟨ret, st₁⟩, hO, hrest⟩ := bind_some htest
    have h₁ := operandHasSym_onlyReads hO
    simp only at hrest
    split at hrest
    · obtain ⟨-, rfl⟩ := Prod.mk.inj (Option.some.inj hrest)
      exact h₁
    · exact h₁.trans (ih hrest)

/-- The implicit accesses are tested in the same way. -/
theorem implicitHasSym_onlyReads {pos : Nat → ExprPos} {accesses : List (OperandAST × Nat)}
    {i : Nat} (htest : st.implicitHasSym slot pos i accesses = some (b, st')) :
    OnlyReads st.vm st'.vm := by
  induction accesses generalizing st i with
  | nil =>
    obtain ⟨-, rfl⟩ := Prod.mk.inj (Option.some.inj htest)
    exact .refl st.vm
  | cons p accesses ih =>
    obtain ⟨⟨ret, st₁⟩, hp, hrest⟩ := bind_some htest
    have h₁ := testAddress_onlyReads hp
    simp only at hrest
    split at hrest
    · obtain ⟨-, rfl⟩ := Prod.mk.inj (Option.some.inj hrest)
      exact h₁
    · exact h₁.trans (ih hrest)

/-- `hasSymOperand` leaves the machine as it was, whatever its answer is. What the executor
finds afterwards is therefore what the test has seen. -/
theorem hasSymOperand_onlyReads (htest : st.hasSymOperand slot C = some (b, st')) :
    OnlyReads st.vm st'.vm := by
  obtain ⟨⟨ret, st₁⟩, hops, hrest⟩ := bind_some htest
  have h₁ := operandsHaveSym_onlyReads hops
  simp only at hrest
  split at hrest
  · obtain ⟨-, rfl⟩ := Prod.mk.inj (Option.some.inj hrest)
    exact h₁
  · obtain ⟨⟨ret, st₂⟩, hreads, hrest⟩ := bind_some hrest
    have h₂ := h₁.trans (implicitHasSym_onlyReads hreads)
    simp only at hrest
    split at hrest
    · obtain ⟨-, rfl⟩ := Prod.mk.inj (Option.some.inj hrest)
      exact h₂
    · exact h₂.trans (implicitHasSym_onlyReads hrest)

/-! ### The test returns -/

end Test

/-- An instruction that the parser accepts is accepted over the same cells. -/
theorem SameCells.accepts {vm vm₁ : VMState} (hsame : SameCells vm vm₁) {I : Instruction}
    (h : vm.Accepts I) : vm₁.Accepts I where
  toParsesAll := hsame.parsesAll h.toParsesAll
  sees := by
    have hsees := h.sees
    rw [VMState.HandlerSees] at hsees ⊢
    simpa only [hsame.isSymOprnd, hsame.isSYReg] using hsees

/-- When `hasSymOperand` has returned true, the parser and the handler return exactly for
the instructions that are accepted. What `hasSymOperand` looks at is more than the parser
and the handlers take. The exact condition is put together from what the parser asserts of
each operand and what the handler wants to be symbolic. -/
theorem handedOver_iff {st st' : ThinState} {slot : Nat} {C : CachedInsn} (h : VMShape st.vm)
    (hI : C.toInstruction.Plain) (hin : ∀ O ∈ C.operands, O.InLine st.vm C.toInstruction)
    (hsym : st.hasSymOperand slot C = some (true, st')) :
    (∃ vm', exec st'.vm C.toInstruction = some vm') ↔ st.vm.Accepts C.toInstruction := by
  obtain ⟨h', hsame⟩ := hasSymOperand_onlyReads hsym h
  rw [exec_iff h' hI fun O hO => hsame.inLine (hin O hO)]
  constructor
  · exact fun haccepts => hsame.symm.accepts haccepts
  · exact fun haccepts => hsame.accepts haccepts

/-! ## `neg rax` and `not rax` -/

/-- The operand `rax`, read and written. -/
def raxOperand : Operand := ⟨.register ⟨.rax, .full⟩ 8, none, true, true⟩

/-- An instruction on `rax`. -/
def unaryRax (id : EntryID) : CachedInsn := ⟨⟨id, [raxOperand], []⟩, 3, [], []⟩

/-- `not rax` and `neg rax` have operands that can be parsed. -/
theorem unaryRax_plain {id : EntryID} (hid : id = .not ∨ id = .neg) :
    (unaryRax id).toInstruction.Plain :=
  .unary raxOperand hid rfl ⟨.register ⟨.rax, .full⟩ rfl rfl, rfl, rfl, rfl⟩

/-- They have no memory operand, so nothing reaches out of a line. -/
theorem unaryRax_inLine (id : EntryID) (vm : VMState) :
    ∀ O ∈ (unaryRax id).operands, O.InLine vm (unaryRax id).toInstruction := by
  intro O hO
  obtain rfl := List.mem_singleton.1 hO
  exact ⟨fun hsome => absurd hsome (by decide), fun hsome => absurd hsome (by decide)⟩

/-- With a symbol in `rax` such an instruction is handed over. -/
theorem exists_unaryRax : ∃ st : ThinState, VMShape st.vm ∧
    st.vm.isSYReg ⟨.rax, .full⟩ = true ∧
    ∀ id, st.hasSymOperand 0 (unaryRax id) = some (true, st) := by
  have hV : (listWrite ⟨.rax, .full⟩ 8 [⟨0, 8, symbolOf 8⟩] 0).Writable :=
    ⟨rfl, fun _ _ => readForm_singleton (by decide)⟩
  obtain ⟨vm, -, hw⟩ := listWritten (vmShape_new (fun _ => 0) fun _ => 0) (SameCells.refl _) hV
  have hrax : vm.isSYReg ⟨.rax, .full⟩ = true := hw.isSYReg hV
  let st : ThinState := ⟨vm, [], fun _ => none, fun _ => false⟩
  refine ⟨st, hw.shape, hrax, fun id => ?_⟩
  have hread : vm.anySYReg raxOperand.readSet = some true := by
    show (vm.isSYRegAt ⟨.rax, .full⟩ >>= _) = _
    rw [vm.isSYRegAt_of_encoding (n := 8) rfl, hrax]
    rfl
  have hsym : st.opdhasSymReg raxOperand = some true := by
    rw [ThinState.opdhasSymReg, show st.vm.anySYReg raxOperand.readSet = _ from hread]
    rfl
  show (st.operandsHaveSym 0 (unaryRax id) 0 [raxOperand] >>= _) = _
  rw [ThinState.operandsHaveSym]
  show ((st.opdhasSymReg raxOperand >>= _) >>= _) >>= _ = _
  rw [hsym]
  rfl

/-- `neg rax` is finished. The symbol in `rax` is what the test has found, and the handler
takes it. -/
theorem handedOver_neg_rax : ∃ (st st' : ThinState) (vm' : VMState),
    st.hasSymOperand 0 (unaryRax .neg) = some (true, st') ∧
    exec st'.vm (unaryRax .neg).toInstruction = some vm' := by
  obtain ⟨st, h, hrax, hsym⟩ := exists_unaryRax
  have haccepts : st.vm.Accepts (unaryRax .neg).toInstruction := by
    refine ⟨⟨by decide, by decide, fun O hO hsome => ?_⟩, ?_⟩
    · obtain rfl := List.mem_singleton.1 hO
      exact absurd hsome (by decide)
    · show (st.vm.isSYReg ⟨.rax, .full⟩ || false) = true
      rw [hrax]
      rfl
  obtain ⟨vm', hrun⟩ := (handedOver_iff h (unaryRax_plain (Or.inr rfl))
    (unaryRax_inLine .neg st.vm) (hsym .neg)).2 haccepts
  exact ⟨st, st, vm', hsym .neg, hrun⟩

/-- `not rax` is not. Its handler asserts the result of a call that fails for `not`, as the
instruction is in no list of those that change flags. -/
theorem not_handedOver_not_rax : ∃ st st' : ThinState, VMShape st.vm ∧
    (unaryRax .not).toInstruction.Plain ∧
    (∀ O ∈ (unaryRax .not).operands, O.InLine st.vm (unaryRax .not).toInstruction) ∧
    st.hasSymOperand 0 (unaryRax .not) = some (true, st') ∧
    exec st'.vm (unaryRax .not).toInstruction = none := by
  obtain ⟨st, h, -, hsym⟩ := exists_unaryRax
  refine ⟨st, st, h, unaryRax_plain (Or.inl rfl), unaryRax_inLine .not st.vm, hsym .not, ?_⟩
  rw [Option.eq_none_iff_forall_ne_some]
  intro vm' hexec
  obtain ⟨⟨vecOI, vm₁⟩, -, hproc⟩ := bind_some hexec
  have hproc : processNot vm₁ vecOI = some vm' := hproc
  rw [processNot_eq_none] at hproc
  exact absurd hproc (by simp)

end KRover
