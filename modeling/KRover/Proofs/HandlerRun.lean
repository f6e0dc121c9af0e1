import KRover.Proofs.OprndWrite

/-! # Which instructions the executor finishes

For `mov`, arithmetic, logic, `test` and `cmp` on operands at concrete addresses
the parsers and the handler return exactly when the instruction is accepted
(`exec_iff`): the engine knows its registers and finds its addresses, and among
the operands that the handler looks at is one that is symbolic.
-/

set_option autoImplicit false

namespace KRover

open Segments SymbolListMap SymExecutor

/-! ## Instructions as they are decoded -/

/-- An operand is an immediate, which is only read, a register, or memory. -/
inductive Operand.Plain (O : Operand) : Prop where
  | immediate (v : BitVec 64) (hderef : O.deref = none) (hval : O.value = .immediate v O.size)
      (hwritten : O.isWritten = false)
  | register (r : MachRegister) (hderef : O.deref = none) (hval : O.value = .register r O.size)
  | memory (hderef : O.deref = some O.size)

/-- An operand with the way it is accessed. -/
structure Operand.Mode (O : Operand) (isRead isWritten : Bool) : Prop where
  plain : O.Plain
  width : isAccessSize O.size = true
  read : O.isRead = isRead
  written : O.isWritten = isWritten

/-- `mov`, `add`, `sub`, `and`, `or`, `xor`, `test`, `cmp`, `not` and `neg`. An
immediate that is moved may be narrower than the destination. -/
inductive Instruction.Plain (I : Instruction) : Prop where
  | mov (D S : Operand) (hid : I.id = .mov) (hops : I.operands = [D, S]) (hD : D.Mode false true)
      (hS : S.Mode true false)
      (hwidth : (∃ v, S.deref = none ∧ S.value = .immediate v S.size) ∨ D.size = S.size)
  | binary (D S : Operand) (hid : (binaryOp I.id).isSome = true) (hops : I.operands = [D, S])
      (hD : D.Mode true true) (hS : S.Mode true false)
  | compare (D S : Operand) (hid : I.id = .test ∨ I.id = .cmp) (hops : I.operands = [D, S])
      (hD : D.Mode true false) (hS : S.Mode true false)
  | unary (D : Operand) (hid : I.id = .not ∨ I.id = .neg) (hops : I.operands = [D])
      (hD : D.Mode true true)

/-- A memory operand has a concrete address and lies in one line of 16 bytes. -/
structure Operand.InLine (O : Operand) (vm : VMState) (I : Instruction) : Prop where
  concrete : O.deref.isSome = true → ∀ P ∈ O.value.uses, vm.isSYReg P.1 = false
  line : O.deref.isSome = true → O.address I vm.cpu % 16 + O.size ≤ 16

/-- Among the operands that the handler looks at there is a symbolic one. For a
move it is the source, or a register that is overwritten. -/
def VMState.HandlerSees (vm : VMState) (I : Instruction) : Prop :=
  match I.id, I.operands with
  | .not, _ => False
  | .neg, [D] => vm.isSymOprnd I D = true
  | .mov, [D, S] => vm.isSymOprnd I S = true ∨
      D.deref = none ∧ ∃ P ∈ D.value.uses, vm.isSYReg P.1 = true
  | _, [D, S] => vm.isSymOprnd I D = true ∨ vm.isSymOprnd I S = true
  | _, _ => False

/-- The engine has a register in the address of a memory operand, or a base of
`gs` for one that is only read, and memory can be mapped there. -/
structure Operand.Found (O : Operand) (vm : VMState) (I : Instruction) : Prop where
  base : O.value.uses ≠ [] ∨ O.isWritten = false ∧ I.gsBase vm.cpu ≠ 0
  mapped : VMState.mapped (O.address I vm.cpu) O.size = true

/-- What both parsers need of an instruction. -/
structure VMState.ParsesAll (vm : VMState) (I : Instruction) : Prop where
  implicit : ∀ P ∈ I.implicitReads, dyinstEncoding P.1 = some P.2
  known : ∀ O ∈ I.operands, ∀ P ∈ O.value.uses, dyinstEncoding P.1 = some P.2
  found : ∀ O ∈ I.operands, O.deref.isSome = true → O.Found vm I

/-- Which reads succeed depends on the cells alone. -/
theorem SameCells.parsesAll {vm vm₁ : VMState} (hsame : SameCells vm vm₁) {I : Instruction}
    (h : vm.ParsesAll I) : vm₁.ParsesAll I where
  implicit := h.implicit
  known := h.known
  found := by
    intro O hO hsome
    obtain ⟨hbase, hmapped⟩ := h.found O hO hsome
    rw [← hsame.gsBase] at hbase
    rw [← hsame.address] at hmapped
    exact ⟨hbase, hmapped⟩

/-- The instructions that are finished. -/
structure VMState.Accepts (vm : VMState) (I : Instruction) : Prop extends vm.ParsesAll I where
  sees : vm.HandlerSees I

section Operands

variable {vm vm₁ : VMState} {I : Instruction} {O : Operand} {isRead isWritten : Bool}

/-- The visitor finds every register of the address. -/
theorem Operand.readSet_memory (hsome : O.deref.isSome = true) : O.readSet = O.value.uses := by
  obtain ⟨n, hderef⟩ := Option.isSome_iff_exists.1 hsome
  rw [Operand.readSet, hderef]

/-- The registers of an operand that is read, or of its address, are in its read
set. -/
theorem Operand.Plain.mem_readSet (hO : O.Plain) (hread : O.isRead = true ∨ O.deref.isSome = true)
    {P : MachRegister × Nat} (hP : P ∈ O.value.uses) : P ∈ O.readSet := by
  cases hO with
  | immediate v hderef hval _ =>
    rw [hval] at hP
    exact absurd hP List.not_mem_nil
  | register r hderef hval =>
    rw [hval] at hP
    rw [Operand.Form.readSet_register hderef hval (hread.resolve_right (by simp [hderef]))]
    exact hP
  | memory hderef =>
    rw [Operand.readSet_memory (by rw [hderef]; rfl)]
    exact hP

/-- An operand of an accepted instruction is parsed. -/
theorem Operand.Mode.parses (hO : O.Mode isRead isWritten)
    (hacc : isRead = true ∨ isWritten = true)
    (hknown : ∀ P ∈ O.value.uses, dyinstEncoding P.1 = some P.2)
    (hfound : O.deref.isSome = true → O.Found vm I) (hin : O.InLine vm I) :
    O.Parses vm I O.size := by
  have hmemory : O.deref.isSome = true → O.Reached vm I := by
    intro hsome
    have hset := Operand.readSet_memory hsome
    constructor
    · rw [hset]
      exact (hfound hsome).base
    · rw [hset]
      exact hin.concrete hsome
    · exact accessRange_of_mapped hO.width (hfound hsome).mapped
    · exact hin.line hsome
  rw [← hO.read, ← hO.written] at hacc
  -- A literal is never written, so it is read. The other forms are places.
  cases hO.plain with
  | immediate v hderef hval hwritten =>
    refine ⟨.immediate v hderef hval, Or.inl ?_, hmemory⟩
    exact hacc.resolve_right (by simp [hwritten])
  | register r hderef hval =>
    have henc : dyinstEncoding r = some O.size :=
      hknown (r, O.size) (by rw [hval]; exact List.mem_singleton_self _)
    have hplace : O.Place O.size := .register r hderef hval henc
    exact ⟨hplace.form, hacc.imp_right fun hwritten => ⟨hwritten, hplace⟩, hmemory⟩
  | memory hderef =>
    have hplace : O.Place O.size := .memory hderef
    exact ⟨hplace.form, hacc.imp_right fun hwritten => ⟨hwritten, hplace⟩, hmemory⟩

/-- A memory operand that is parsed is found: its address, and when it is read
its bytes. -/
theorem VMShape.parseOperand_found (h : VMShape vm) (hwidth : isAccessSize O.size = true)
    (hsome : O.deref.isSome = true) (hacc : O.isRead = true ∨ O.isWritten = true) {b : Bool}
    {oi : OprndInfo} (hp : vm.parseOperand b I O = some (oi, vm₁)) :
    (O.value.uses ≠ [] ∨ O.isWritten = false ∧ I.gsBase vm.cpu ≠ 0) ∧
      (O.isRead = true → VMState.mapped (O.address I vm.cpu) O.size = true) := by
  have hparsed := (h.parseOperand hwidth hp).2.2
  have hset := Operand.readSet_memory hsome
  constructor
  · have hbase : O.readSet ≠ [] ∨ (!O.isWritten) = true ∧ I.gsBase vm.cpu ≠ 0 := by
      rw [VMState.parseOperand, Operand.readsMemory, Operand.writesMemory, hsome] at hp
      -- Every way to parse a memory operand computes its address first.
      cases hread : O.isRead <;> cases hwritten : O.isWritten <;> rw [hread, hwritten] at hp
      · simp [hread, hwritten] at hacc
      · obtain ⟨⟨addr, vm₂⟩, haddr, -⟩ := bind_some hp
        exact h.memConaddr_found haddr
      · obtain ⟨⟨addr, vm₂⟩, haddr, -⟩ := bind_some hp
        exact h.memConaddr_found haddr
      · obtain ⟨⟨addr, vm₂⟩, haddr, -⟩ := bind_some hp
        exact h.memConaddr_found haddr
    rw [hset] at hbase
    exact hbase.imp_right fun hgs => ⟨by simpa using hgs.1, hgs.2⟩
  · intro hread
    -- Only the three forms of a memory read are left.
    cases hparsed with
    | memCon _ _ _ _ _ hr _ | memSym _ _ _ _ hr _ | memList _ _ _ _ hr _ => exact hr.mapped
    | imm _ hderef _ _ | regCon _ _ hderef _ _ _ | regSym _ _ hderef _ _ _ _
    | sum _ _ _ _ _ hderef _ _ _ _ _ | regList _ _ hderef _ _ _ _
    | regWritten _ _ _ hderef _ => simp [hderef] at hsome
    | memWritten _ hnot => simp [hread] at hnot

/-- The operands of a parsed instruction are found. -/
theorem VMShape.parseEach_found (h : VMShape vm) {b : Bool} {Os : List Operand}
    (hOs : ∀ O ∈ Os, isAccessSize O.size = true ∧ (O.isRead = true ∨ O.isWritten = true))
    {vecOI : List OprndInfo} (hp : vm.parseEach b I Os = some (vecOI, vm₁)) :
    ∀ O ∈ Os, O.deref.isSome = true →
      (O.value.uses ≠ [] ∨ O.isWritten = false ∧ I.gsBase vm.cpu ≠ 0) ∧
      (O.isRead = true → VMState.mapped (O.address I vm.cpu) O.size = true) := by
  induction Os generalizing vm vm₁ vecOI with
  | nil => exact fun O hO => absurd hO List.not_mem_nil
  | cons Q Qs ih =>
    obtain ⟨⟨oi, vm₂⟩, hparse, hrest⟩ := bind_some hp
    obtain ⟨⟨vecOI', vm₃⟩, hrest, -⟩ := bind_some hrest
    obtain ⟨hwidth, hacc⟩ := hOs Q List.mem_cons_self
    obtain ⟨h₂, hsame, -⟩ := h.parseOperand hwidth hparse
    intro O hO hsome
    rcases List.mem_cons.1 hO with rfl | hO
    · exact h.parseOperand_found hwidth hsome hacc hparse
    · have hfound := ih h₂ (fun O hO => hOs O (List.mem_cons_of_mem _ hO)) hrest O hO hsome
      rw [hsame.gsBase, hsame.address] at hfound
      exact hfound

/-- Registers that are read are known. -/
theorem setReadRegs_known {regs : List (MachRegister × Nat)}
    (hset : vm.setReadRegs regs = some vm₁) : ∀ P ∈ regs, dyinstEncoding P.1 = some P.2 := by
  induction regs generalizing vm with
  | nil => exact fun P hP => absurd hP List.not_mem_nil
  | cons R regs ih =>
    obtain ⟨⟨W, vm₂⟩, hread, hrest⟩ := bind_some hset
    have hreg : vm.readRegister ⟨R.1, R.2, false, false, 0, .null, []⟩ = some (true, W, vm₂) :=
      asserted_eq_some.1 hread
    obtain ⟨⟨ok, W', cpu⟩, hcpu, -⟩ := bind_some hreg
    intro P hP
    rcases List.mem_cons.1 hP with rfl | hP
    · exact encoded_of_readRegister hcpu
    · exact ih hrest P hP

/-- What a parsed instruction has: the registers that it reads are known, and
its operands are found. -/
theorem VMShape.parseOperands_found (h : VMShape vm) {b : Bool}
    (hOs : ∀ O ∈ I.operands, isAccessSize O.size = true ∧ (O.isRead = true ∨ O.isWritten = true))
    {vecOI : List OprndInfo} (hp : vm.parseOperands b I = some (vecOI, vm₁)) :
    (∀ P ∈ I.readSet, dyinstEncoding P.1 = some P.2) ∧
      ∀ O ∈ I.operands, O.deref.isSome = true →
        (O.value.uses ≠ [] ∨ O.isWritten = false ∧ I.gsBase vm.cpu ≠ 0) ∧
        (O.isRead = true → VMState.mapped (O.address I vm.cpu) O.size = true) := by
  obtain ⟨vm₂, hset, hparse⟩ := bind_some hp
  obtain ⟨h₂, hsame⟩ := h.setReadRegs hset
  refine ⟨setReadRegs_known hset, fun O hO hsome => ?_⟩
  have hfound := h₂.parseEach_found hOs hparse O hO hsome
  rw [hsame.gsBase, hsame.address] at hfound
  exact hfound

end Operands

/-! ## Handlers of parsed operands -/

section Handlers

variable {vm vm' : VMState} {I : Instruction} {D S : Operand} {o1 o2 : OprndInfo}

/-- A symbolic operand that is read has an expression. -/
theorem Parsed.exists_symValue (hp : Parsed vm I D false o1) (hread : D.isRead = true)
    (hsym : o1.symb = true) : ∃ e, o1.getSymValue = some e := by
  cases hp with
  | regSym _ _ _ _ _ _ _ | sum _ _ _ _ _ _ _ _ _ _ _ | memSym _ _ _ _ _ _ => exact ⟨_, rfl⟩
  | imm _ _ _ _ | regCon _ _ _ _ _ _ | memCon _ _ _ _ _ _ _ => simp at hsym
  | regWritten _ _ _ _ hnot | memWritten _ hnot => simp [hread] at hnot

/-- A concrete one has a constant. -/
theorem Parsed.exists_conValue {b : Bool} (hp : Parsed vm I D b o1) (hread : D.isRead = true)
    (hcon : o1.symb = false) : ∃ v, o1.getConValue = some v := by
  cases hp with
  | imm _ _ _ _ | regCon _ _ _ _ _ _ => exact ⟨_, rfl⟩
  | memCon _ accs haccs _ _ _ _ =>
    rw [OprndInfo.getConValue, haccs]
    exact ⟨_, rfl⟩
  | regSym _ _ _ _ _ _ _ | sum _ _ _ _ _ _ _ _ _ _ _ | memSym _ _ _ _ _ _
  | regList _ _ _ _ _ _ _ | memList _ _ _ _ _ _ => simp at hcon
  | regWritten _ _ _ _ hnot | memWritten _ hnot => simp [hread] at hnot

/-- The expression of two operands is there when one of them is symbolic. -/
theorem exists_operate (hp1 : Parsed vm I D false o1) (hD : D.isRead = true)
    (hp2 : Parsed vm I S false o2) (hS : S.isRead = true) (k : BinKind) (size1 size2 : Nat) :
    (∃ oe, operate k o1 o2 size1 size2 = some oe) ↔
      vm.isSymOprnd I D = true ∨ vm.isSymOprnd I S = true := by
  have hsym1 := hp1.exists_symValue hD
  have hcon1 := hp1.exists_conValue hD
  have hsym2 := hp2.exists_symValue hS
  have hcon2 := hp2.exists_conValue hS
  rw [← hp1.symb_eq hD, ← hp2.symb_eq hS, operate]
  -- The code asks the two marks in this order. It fails where both are clear.
  cases h1 : o1.symb with
  | true =>
    obtain ⟨e1, he1⟩ := hsym1 h1
    refine iff_of_true ?_ (Or.inl rfl)
    cases h2 : o2.symb with
    | true =>
      obtain ⟨e2, he2⟩ := hsym2 h2
      rw [he1, he2]
      exact ⟨_, rfl⟩
    | false =>
      obtain ⟨v2, hv2⟩ := hcon2 h2
      rw [he1, hv2]
      exact ⟨_, rfl⟩
  | false =>
    cases h2 : o2.symb with
    | true =>
      obtain ⟨v1, hv1⟩ := hcon1 h1
      obtain ⟨e2, he2⟩ := hsym2 h2
      refine iff_of_true ?_ (Or.inr rfl)
      rw [hv1, he2]
      exact ⟨_, rfl⟩
    | false => simp

/-- A place that is read and written, as the parser finds it. -/
theorem Parsed.place {w : Nat} (hp : Parsed vm I D false o1) (hread : D.isRead = true)
    (hplace : D.Place w) (hin : D.InLine vm I) : o1.Place := by
  have hsize : o1.size = w := hp.size_eq.trans hplace.form.size_eq
  cases hplace with
  | register r hderef hval henc =>
    have hset := Operand.Form.readSet_register hderef hval hread
    rw [← hsize] at henc
    -- Of the forms of the parse two belong to a register that is read.
    cases hp with
    | imm _ _ _ hempty => simp [hset] at hempty
    | regCon _ r' _ _ _ hr =>
      obtain rfl : r = r' := by simpa [hset] using hr
      exact .register r rfl henc
    | regSym r' size' _ _ hval' _ _ =>
      obtain ⟨rfl, rfl⟩ := OperandAST.register.inj (hval'.symm.trans hval)
      exact .register r' rfl henc
    | sum _ _ _ _ _ _ _ hval' _ _ _ => simp [hval] at hval'
    | memCon _ _ _ hsome _ _ _ | memSym _ _ hsome _ _ _ => simp [hderef] at hsome
    | regWritten _ _ _ _ hnot | memWritten _ hnot => simp [hread] at hnot
  | memory hderef =>
    have hline := hin.line (by rw [hderef]; rfl)
    -- And two belong to memory that is read.
    cases hp with
    | memCon _ accs haccs _ _ hr _ => exact .memory _ rfl hr hline
    | memSym accs haccs _ _ hr _ => exact .memory _ rfl hr hline
    | imm _ hnone _ _ | regCon _ _ hnone _ _ _ | regSym _ _ hnone _ _ _ _
    | sum _ _ _ _ _ hnone _ _ _ _ _ => simp [hderef] at hnone
    | regWritten _ _ _ _ hnot | memWritten _ hnot => simp [hread] at hnot

/-- A handler that first builds its expression, and gets through with every expression,
returns exactly when one of its two operands is symbolic. -/
theorem exists_run_iff (hD : D.isRead = true) (hS : S.isRead = true)
    (hp1 : Parsed vm I D false o1) (hp2 : Parsed vm I S false o2) {k : BinKind} {s1 s2 : Nat}
    {rest : Expr → Option VMState} (hrest : ∀ oe, ∃ vm', rest oe = some vm') :
    (∃ vm', (operate k o1 o2 s1 s2).bind rest = some vm') ↔
      vm.isSymOprnd I D = true ∨ vm.isSymOprnd I S = true := by
  rw [← exists_operate hp1 hD hp2 hS k s1 s2]
  constructor
  · rintro ⟨vm', hproc⟩
    obtain ⟨oe, hoe, -⟩ := bind_some hproc
    exact ⟨oe, hoe⟩
  · rintro ⟨oe, hoe⟩
    rw [hoe]
    exact hrest oe

/-- A handler with two operands that it reads returns when one of them is
symbolic. -/
theorem processBinary_iff (h : VMShape vm) {k : BinKind} {id : EntryID} {w : Nat}
    (hid : isFlagChangingInstr id = true) (hplace : D.Place w) (hD : D.isRead = true)
    (hS : S.isRead = true) (hin : D.InLine vm I) (hp1 : Parsed vm I D false o1)
    (hp2 : Parsed vm I S false o2) :
    (∃ vm', processBinary k id vm [o1, o2] = some vm') ↔
      vm.isSymOprnd I D = true ∨ vm.isSymOprnd I S = true := by
  show (∃ vm', (operate k o1 o2 o1.size o2.size).bind (fun oe =>
    (o1.setSymValue vm oe).bind fun vm =>
      asserted (some (vm.saveFlagChangingInstructionExpr id oe))) = some vm') ↔ _
  refine exists_run_iff hD hS hp1 hp2 fun oe => ?_
  obtain ⟨vm₁, v, hset, -, -⟩ := h.exists_setSymValue (hp1.place hD hplace hin) oe
  obtain ⟨vm₂, hsave, -, -, -⟩ := saveFlagChanging_spec vm₁ hid oe
  refine ⟨vm₂, ?_⟩
  rw [hset, Option.bind_some]
  exact hsave

/-- `process_test` needs a symbolic operand, and gets through with one. -/
theorem processTest_iff (hD : D.isRead = true) (hS : S.isRead = true)
    (hp1 : Parsed vm I D false o1) (hp2 : Parsed vm I S false o2) :
    (∃ vm', processTest vm [o1, o2] = some vm') ↔
      vm.isSymOprnd I D = true ∨ vm.isSymOprnd I S = true := by
  show (∃ vm', (operate .and o1 o2 o1.size o2.size).bind (fun oe =>
    some (vm.saveFlagChangingInstructionExpr .test oe).2) = some vm') ↔ _
  exact exists_run_iff hD hS hp1 hp2 fun oe => ⟨_, rfl⟩

/-- So does `process_cmp`. -/
theorem processCmp_iff (hD : D.isRead = true) (hS : S.isRead = true)
    (hp1 : Parsed vm I D false o1) (hp2 : Parsed vm I S false o2) :
    (∃ vm', processCmp vm [o1, o2] = some vm') ↔
      vm.isSymOprnd I D = true ∨ vm.isSymOprnd I S = true := by
  show (∃ vm', (operate .sub o1 o2 o2.size o1.size).bind (fun oe =>
    asserted (some (vm.saveFlagChangingInstructionExpr .cmp oe))) = some vm') ↔ _
  refine exists_run_iff hD hS hp1 hp2 fun oe => ?_
  obtain ⟨vm₂, hsave, -, -, -⟩ := saveFlagChanging_spec vm (show isFlagChangingInstr .cmp = true
    from rfl) oe
  exact ⟨vm₂, hsave⟩

/-- `process_neg` needs its operand symbolic. -/
theorem processNeg_iff (h : VMShape vm) {w : Nat} (hplace : D.Place w) (hD : D.isRead = true)
    (hin : D.InLine vm I) (hp1 : Parsed vm I D false o1) :
    (∃ vm', processNeg vm [o1] = some vm') ↔ vm.isSymOprnd I D = true := by
  rw [← hp1.symb_eq hD]
  constructor
  · rintro ⟨vm', hproc⟩
    obtain ⟨oi1, ho1, hrest⟩ := bind_some hproc
    obtain rfl := Option.some.inj ho1
    split at hrest
    · assumption
    · simp at hrest
  · intro hsym
    obtain ⟨e, he⟩ := hp1.exists_symValue hD hsym
    obtain ⟨vm₁, v, hset, -, -⟩ := h.exists_setSymValue (hp1.place hD hplace hin)
      (Expr.uryExpr .neg e)
    obtain ⟨vm₂, hsave, -, -, -⟩ := saveFlagChanging_spec vm₁ (show isFlagChangingInstr .neg = true
      from rfl) (Expr.uryExpr .neg e)
    refine ⟨vm₂, ?_⟩
    rw [processNeg]
    simp only [List.getElem?_cons_zero, Option.bind_eq_bind, Option.bind_some, hsym, if_true, he,
      hset, hsave]

end Handlers

/-! ## Moves -/

/-- The engine can write to a place: it knows the register, or memory can be
mapped there. -/
structure Operand.Writable (O : Operand) (vm : VMState) (I : Instruction) : Prop where
  known : O.deref = none → ∀ P ∈ O.value.uses, dyinstEncoding P.1 = some P.2
  mapped : O.deref.isSome = true → VMState.mapped (O.address I vm.cpu) O.size = true

/-- A place that is only written, as the parser of cell lists finds it. -/
inductive DestFound (vm : VMState) (I : Instruction) (D : Operand) : OprndInfo → Prop where
  | register (r : MachRegister) (hderef : D.deref = none) (hval : D.value = .register r D.size) :
      DestFound vm I D ⟨.reg r, .wr, D.size, vm.isSYReg r, false, 0, []⟩
  | memory (hderef : D.deref = some D.size) :
      DestFound vm I D ⟨.memCell (D.address I vm.cpu), .wr, D.size, false, false, 0, []⟩

section Mov

variable {vm vm₁ vm' : VMState} {I : Instruction} {D S : Operand} {oi : OprndInfo}

/-- The parsed destination is found at the same place. -/
theorem SameCells.destFound (hsame : SameCells vm vm₁) (hd : DestFound vm I D oi) :
    DestFound vm₁ I D oi := by
  cases hd with
  | register r hderef hval =>
    rw [← hsame.isSYReg]
    exact .register r hderef hval
  | memory hderef =>
    rw [← hsame.address]
    exact .memory hderef

/-- A destination that was parsed is a register, or a range at the address computed. -/
theorem VMShape.parse_dest (h : VMShape vm) (hD : D.Mode false true)
    (hp : vm.parseOperand true I D = some (oi, vm₁)) : DestFound vm I D oi := by
  rw [VMState.parseOperand, Operand.readsMemory, Operand.writesMemory, hD.read, hD.written] at hp
  cases hD.plain with
  | immediate v _ _ hnot => exact absurd (hnot.symm.trans hD.written) Bool.false_ne_true
  | register r hderef hval =>
    rw [hderef] at hp
    have hp : vm.parseOperandXX D = some (oi, vm₁) := hp
    rw [VMState.parseOperandXX, hD.read, hD.written, hval] at hp
    obtain ⟨symb, hsymb, hp⟩ := bind_some hp
    obtain rfl := VMState.isSYRegAt_eq_some hsymb
    obtain ⟨rfl, -⟩ := Prod.mk.inj (Option.some.inj hp)
    exact .register r hderef hval
  | memory hderef =>
    rw [hderef] at hp
    have hp : vm.parseOperandXW I D = some (oi, vm₁) := hp
    obtain ⟨⟨addr, vm₂⟩, haddr, hrest⟩ := bind_some hp
    obtain ⟨-, -, rfl⟩ := h.memConaddr haddr
    obtain ⟨rfl, -⟩ := Prod.mk.inj (Option.some.inj hrest)
    exact .memory hderef

/-- A cell list can be put into a place that the engine can write to. -/
theorem DestFound.setSymList_iff (h : VMShape vm) (hd : DestFound vm I D oi)
    (hwidth : isAccessSize D.size = true) (hin : D.InLine vm I) {cells : List (Segment Expr)}
    (hform : ReadForm D.size cells) (v : BitVec 64) :
    (∃ vm', oi.setSymList vm cells v = some vm') ↔ D.Writable vm I := by
  cases hd with
  | register r hderef hval =>
    show (∃ vm', asserted (vm.writeRegister ⟨r, D.size, true, true, v, .null, cells⟩)
      = some vm') ↔ _
    constructor
    -- The write asserts that the register has an encoding, or that the range is mapped.
    · rintro ⟨vm', hw⟩
      obtain ⟨⟨ok, cpu⟩, hcpu, -⟩ := bind_some (asserted_eq_some.1 hw)
      refine ⟨fun _ P hP => ?_, fun hsome => absurd hsome (by simp [hderef])⟩
      rw [hval] at hP
      obtain rfl := List.mem_singleton.1 hP
      exact encoded_of_writeRegister hcpu
    · intro hwritable
      have henc : dyinstEncoding r = some D.size :=
        hwritable.known hderef (r, D.size) (by rw [hval]; exact List.mem_singleton_self _)
      obtain ⟨vm', hw, -⟩ := listWritten h (SameCells.refl vm)
        (V := ⟨r, D.size, true, true, v, .null, cells⟩) ⟨henc, fun _ _ => hform⟩
      exact ⟨vm', hw⟩
  | memory hderef =>
    have hsome : D.deref.isSome = true := by rw [hderef]; rfl
    show (∃ vm', asserted (vm.writeMemory
      ⟨D.address I vm.cpu, D.size, true, true, v, .null, cells⟩) = some vm') ↔ _
    constructor
    · rintro ⟨vm', hw⟩
      have hw := asserted_eq_some.1 hw
      rw [VMState.writeMemory] at hw
      split at hw
      · rename_i hmapped
        exact ⟨fun hnone => absurd hsome (by simp [hnone]), fun _ => hmapped⟩
      · simp at hw
    · intro hwritable
      have hmapped := hwritable.mapped hsome
      have hr := accessRange_of_mapped hwidth hmapped
      have hline := hin.line hsome
      have hpos := hr.pos
      have hhalf : SYMemState.insideHalfChunk (D.address I vm.cpu) D.size = true := by
        rw [SYMemState.insideHalfChunk, decide_eq_true_eq]
        omega
      obtain ⟨mem, hw⟩ := h.mem.exists_writeList
        (V := ⟨D.address I vm.cpu, D.size, true, true, v, .null, cells⟩) hr rfl rfl hhalf hform
      refine ⟨{ vm with mem := mem }, ?_⟩
      rw [asserted_eq_some, VMState.writeMemory, if_pos hmapped, hw]
      rfl

/-- A constant overwrites a register that is symbolic, if the engine knows it. -/
theorem DestFound.setConValue_iff (h : VMShape vm) (hd : DestFound vm I D oi) (v : BitVec 64) :
    (oi.symb = true ∧ ∃ vm', oi.setConValue vm v = some vm') ↔
      (D.deref = none ∧ ∃ P ∈ D.value.uses, vm.isSYReg P.1 = true) ∧ D.Writable vm I := by
  cases hd with
  | register r hderef hval =>
    have huses : D.value.uses = [(r, D.size)] := by rw [hval]; rfl
    have hsome : ¬ D.deref.isSome = true := by simp [hderef]
    show (vm.isSYReg r = true ∧ ∃ vm', asserted (vm.writeRegister
      ⟨r, D.size, false, false, v, .null, []⟩) = some vm') ↔ _
    constructor
    -- `SetConValue` of `mov` is only reached for a symbolic register.
    · rintro ⟨hsym, vm', hw⟩
      obtain ⟨⟨ok, cpu⟩, hcpu, -⟩ := bind_some (asserted_eq_some.1 hw)
      refine ⟨⟨hderef, (r, D.size), by rw [huses]; exact List.mem_singleton_self _, hsym⟩,
        fun _ P hP => ?_, fun hyes => absurd hyes hsome⟩
      rw [huses] at hP
      obtain rfl := List.mem_singleton.1 hP
      exact encoded_of_writeRegister hcpu
    · rintro ⟨⟨-, P, hP, hsym⟩, hwritable⟩
      have henc := hwritable.known hderef P hP
      rw [huses] at hP
      obtain rfl := List.mem_singleton.1 hP
      obtain ⟨vm', hw, -⟩ := listWritten h (SameCells.refl vm)
        (V := ⟨r, D.size, false, false, v, .null, []⟩) ⟨henc, by simp⟩
      exact ⟨hsym, vm', hw⟩
  -- In memory a concrete `mov` is left to the processor, and the handler asserts.
  | memory hderef => simp [hderef]

/-- The list of a symbolic operand. -/
theorem Parsed.exists_symList (h : VMShape vm) (hp : Parsed vm I S true oi)
    (hwidth : isAccessSize S.size = true) (hread : S.isRead = true) (hsym : oi.symb = true) :
    ∃ cells v, oi.getSymList = some (cells, v) ∧ ReadForm S.size cells := by
  have hlist : oi.isSymList = true := by
    cases hp with
    | regList _ _ _ _ _ _ _ | memList _ _ _ _ _ _ => rfl
    | imm _ _ _ _ | regCon _ _ _ _ _ _ | memCon _ _ _ _ _ _ _ => simp at hsym
    | regWritten _ _ _ _ hnot | memWritten _ hnot => simp [hread] at hnot
  have hop := ListOprnd.of_parsed exprLaw_true h.vmCells hwidth hp
  refine ⟨oi.symList, oi.conVal, ?_, ?_⟩
  · rw [OprndInfo.getSymList, if_pos hlist]
  · rw [← hp.size_eq]
    exact (hop.list hlist).1

/-- Both operands of a move, as the parser of cell lists finds them. -/
theorem VMShape.parse_mov (h : VMShape vm) (hops : I.operands = [D, S]) (hD : D.Mode false true)
    (hS : S.Mode true false) {vecOI : List OprndInfo}
    (hparse : vm.parseOperands true I = some (vecOI, vm₁)) :
    ∃ o1 o2, vecOI = [o1, o2] ∧ DestFound vm I D o1 ∧ Parsed vm I S true o2 := by
  obtain ⟨vm₂, hset, hrest⟩ := bind_some hparse
  obtain ⟨h₂, hsame₂⟩ := h.setReadRegs hset
  have hrest : vm₂.parseEach true I I.operands = some (vecOI, vm₁) := hrest
  rw [hops] at hrest
  obtain ⟨⟨o1, vm₃⟩, hp1, hrest⟩ := bind_some hrest
  obtain ⟨h₃, hsame₃, -⟩ := h₂.parseOperand hD.width hp1
  obtain ⟨⟨rest, vm₄⟩, hrest, hout⟩ := bind_some hrest
  obtain ⟨⟨o2, vm₅⟩, hp2, hrest⟩ := bind_some hrest
  obtain ⟨-, -, hparsed⟩ := h₃.parseOperand hS.width hp2
  obtain ⟨⟨tail, vm₆⟩, hnil, hrest⟩ := bind_some hrest
  obtain ⟨rfl, -⟩ := Prod.mk.inj (Option.some.inj hnil)
  obtain ⟨rfl, -⟩ := Prod.mk.inj (Option.some.inj hrest)
  obtain ⟨rfl, -⟩ := Prod.mk.inj (Option.some.inj hout)
  exact ⟨o1, o2, rfl, hsame₂.symm.destFound (h₂.parse_dest hD hp1),
    (hsame₂.trans hsame₃).parsed hparsed⟩

/-- Whether it can be written is asked of its place. -/
theorem SameCells.writable (hsame : SameCells vm vm₁) :
    D.Writable vm₁ I ↔ D.Writable vm I := by
  constructor
  · rintro ⟨hknown, hmapped⟩
    rw [hsame.address] at hmapped
    exact ⟨hknown, hmapped⟩
  · rintro ⟨hknown, hmapped⟩
    rw [← hsame.address] at hmapped
    exact ⟨hknown, hmapped⟩

/-- A move returns when its source is symbolic, or the register it overwrites,
and the destination can be written. -/
theorem processMov_iff (h : VMShape vm) (hops : I.operands = [D, S]) (hD : D.Mode false true)
    (hS : S.Mode true false)
    (hfits : (∃ v, S.deref = none ∧ S.value = .immediate v S.size) ∨ D.size = S.size)
    (hin : D.InLine vm I) {vecOI : List OprndInfo}
    (hparse : vm.parseOperands true I = some (vecOI, vm₁)) :
    (∃ vm', processMov vm I = some vm') ↔
      (vm.isSymOprnd I S = true ∨ D.deref = none ∧ ∃ P ∈ D.value.uses, vm.isSYReg P.1 = true) ∧
        D.Writable vm I := by
  have hsizes : ∀ O ∈ I.operands, isAccessSize O.size = true := by
    rw [hops]
    simp [hD.width, hS.width]
  obtain ⟨h₁, hsame, -⟩ := h.parseOperands hsizes hparse
  obtain ⟨o1, o2, rfl, hdest, hsource⟩ := h.parse_mov hops hD hS hparse
  have hdest₁ := hsame.destFound hdest
  have hin₁ : D.InLine vm₁ I := by
    refine ⟨fun hsome P hP => ?_, fun hsome => ?_⟩
    · rw [hsame.isSYReg]
      exact hin.concrete hsome P hP
    · rw [hsame.address]
      exact hin.line hsome
  have hsymS := hsource.symb_eq hS.read
  -- The handler parses again, with lists this time. What follows looks at the two marks.
  have hrun : ∀ vm', processMov vm I = some vm' ↔
      (if o2.symb = true then o2.getSymList >>= fun p => o1.setSymList vm₁ p.1 p.2
        else if o1.symb = true then o2.getConValue >>= fun v => o1.setConValue vm₁ v
        else none) = some vm' := by
    intro vm'
    rw [processMov, hparse]
    rfl
  simp only [hrun]
  cases hsym : o2.symb with
  | true =>
    obtain ⟨cells, v, hlist, hform⟩ := hsource.exists_symList h hS.width hS.read hsym
    rw [← hsymS, hsym]
    -- A list is only made of a place, which has the size of the destination.
    have hsize : D.size = S.size := by
      rcases hfits with ⟨v, hderef, hval⟩ | hsize
      · rw [hsymS, VMState.isSymOprnd, hderef, Operand.Form.readSet_immediate hderef hval] at hsym
        exact absurd hsym (by simp)
      · exact hsize
    have hiff := hdest₁.setSymList_iff h₁ hD.width hin₁ (hsize ▸ hform) v
    rw [hsame.writable] at hiff
    simp only [if_true, hlist, Option.bind_eq_bind, Option.bind_some, true_or, true_and]
    exact hiff
  | false =>
    obtain ⟨v, hcon⟩ := hsource.exists_conValue hS.read hsym
    rw [← hsymS, hsym]
    have hiff := hdest₁.setConValue_iff h₁ v
    rw [hsame.writable] at hiff
    simp only [hsame.isSYReg] at hiff
    simp only [Bool.false_eq_true, if_false, hcon, Option.bind_eq_bind, Option.bind_some, false_or]
    rw [← hiff]
    cases o1.symb with
    | true => simp
    | false => simp

end Mov

/-! ## Instructions -/

section Exec

variable {vm vm₁ vm' : VMState} {I : Instruction} {O D S : Operand} {isRead isWritten : Bool}

/-- The operand lies in a line as before. -/
theorem SameCells.inLine (hsame : SameCells vm vm₁) (hin : O.InLine vm I) : O.InLine vm₁ I where
  concrete := by
    intro hsome P hP
    rw [hsame.isSYReg]
    exact hin.concrete hsome P hP
  line := by
    rw [hsame.address]
    exact hin.line

/-- A read set is part of the registers of the operand. -/
theorem Operand.Plain.uses_of_mem (hO : O.Plain) {P : MachRegister × Nat} (hP : P ∈ O.readSet) :
    P ∈ O.value.uses := by
  cases hO with
  | immediate v hderef hval _ =>
    rw [Operand.Form.readSet_immediate hderef hval] at hP
    exact absurd hP List.not_mem_nil
  | register r hderef hval =>
    rw [Operand.readSet, hderef, hval] at hP
    simp only at hP
    split at hP
    · rw [hval]
      exact hP
    · exact absurd hP List.not_mem_nil
  | memory hderef =>
    rw [Operand.readSet_memory (by rw [hderef]; rfl)] at hP
    exact hP

/-- All operands are parsed, one after the other, where each read succeeds. The parser
leaves the cells alone, so the hypothesis holds for the operands that follow. -/
theorem VMShape.exists_parse (h : VMShape vm)
    (hmode : ∀ O ∈ I.operands, ∃ r w, O.Mode r w ∧ (r = true ∨ w = true))
    (hin : ∀ O ∈ I.operands, O.InLine vm I) (hall : vm.ParsesAll I) (b : Bool) :
    ∃ vecOI vm', vm.parseOperands b I = some (vecOI, vm') := by
  refine h.exists_parseOperands (fun O hO => ?_) (fun P hP => ?_) b
  · obtain ⟨r, w, hO', hacc⟩ := hmode O hO
    exact ⟨hO'.width, O.size, hO'.parses hacc (hall.known O hO) (hall.found O hO) (hin O hO)⟩
  · rcases List.mem_append.1 hP with hP | hP
    · obtain ⟨O, hO, hP⟩ := List.mem_flatMap.1 hP
      obtain ⟨r, w, hO', -⟩ := hmode O hO
      exact hall.known O hO P (hO'.plain.uses_of_mem hP)
    · exact hall.implicit P hP

/-- What an instruction that was parsed has, when the operands that are only
written can be written. -/
theorem VMShape.parsesAll (h : VMShape vm)
    (hmode : ∀ O ∈ I.operands, ∃ r w, O.Mode r w ∧ (r = true ∨ w = true))
    (hwritable : ∀ O ∈ I.operands, O.isRead = false → O.Writable vm I) {b : Bool}
    {vecOI : List OprndInfo} (hp : vm.parseOperands b I = some (vecOI, vm₁)) :
    vm.ParsesAll I := by
  have haccess : ∀ O ∈ I.operands,
      isAccessSize O.size = true ∧ (O.isRead = true ∨ O.isWritten = true) := by
    intro O hO
    obtain ⟨r, w, hO', hacc⟩ := hmode O hO
    rw [hO'.read, hO'.written]
    exact ⟨hO'.width, hacc⟩
  obtain ⟨hreads, hfound⟩ := h.parseOperands_found haccess hp
  constructor
  · intro P hP
    exact hreads P (List.mem_append_right _ hP)
  · intro O hO P hP
    obtain ⟨r, w, hO', -⟩ := hmode O hO
    -- The registers of a read or of an address were looked up. Those that are left belong to a
    -- register that is only written.
    by_cases hread : O.isRead = true ∨ O.deref.isSome = true
    · refine hreads P (List.mem_append_left _ (List.mem_flatMap.2 ⟨O, hO, ?_⟩))
      exact hO'.plain.mem_readSet hread hP
    · rw [not_or] at hread
      have hderef : O.deref = none := Option.isNone_iff_eq_none.1 (by simpa using hread.2)
      exact (hwritable O hO (by simpa using hread.1)).known hderef P hP
  · intro O hO hsome
    obtain ⟨hbase, hmapped⟩ := hfound O hO hsome
    refine ⟨hbase, ?_⟩
    cases hread : O.isRead with
    | true => exact hmapped hread
    | false => exact (hwritable O hO hread).mapped hsome

/-- An instruction all of whose operands are read returns when the parser and
the handler do. -/
theorem exec_iff_of_read (h : VMShape vm)
    (hmode : ∀ O ∈ I.operands, ∃ w, O.Mode true w) (hin : ∀ O ∈ I.operands, O.InLine vm I)
    (hproc : vm.ParsesAll I → ∀ vm₁ vecOI, VMShape vm₁ → SameCells vm vm₁ →
      List.Forall₂ (fun O oi => Parsed vm₁ I O false oi) I.operands vecOI →
      ((∃ vm', process I vm₁ vecOI = some vm') ↔ vm.HandlerSees I)) :
    (∃ vm', exec vm I = some vm') ↔ vm.Accepts I := by
  have hmode' : ∀ O ∈ I.operands, ∃ r w, O.Mode r w ∧ (r = true ∨ w = true) := by
    intro O hO
    obtain ⟨w, hO'⟩ := hmode O hO
    exact ⟨true, w, hO', Or.inl rfl⟩
  have hsizes : ∀ O ∈ I.operands, isAccessSize O.size = true := by
    intro O hO
    obtain ⟨w, hO'⟩ := hmode O hO
    exact hO'.width
  constructor
  -- The parse that was made shows that all operands can be parsed.
  · rintro ⟨vm', hexec⟩
    obtain ⟨⟨vecOI, vm₁⟩, hparse, hrun⟩ := bind_some hexec
    have hall : vm.ParsesAll I := by
      refine h.parsesAll hmode' (fun O hO hnot => ?_) hparse
      obtain ⟨w, hO'⟩ := hmode O hO
      exact absurd (hnot.symm.trans hO'.read) Bool.false_ne_true
    obtain ⟨h₁, hsame, hparsed⟩ := h.parseOperands hsizes hparse
    have hsees := (hproc hall vm₁ vecOI h₁ hsame
      (hparsed.imp fun _ _ hp => hsame.symm.parsed hp)).1 ⟨vm', hrun⟩
    exact ⟨hall, hsees⟩
  -- A parse exists, and the handler gets through after it.
  · rintro ⟨hall, hsees⟩
    obtain ⟨vecOI, vm₁, hparse⟩ := h.exists_parse hmode' hin hall false
    obtain ⟨h₁, hsame, hparsed⟩ := h.parseOperands hsizes hparse
    obtain ⟨vm', hrun⟩ := (hproc hall vm₁ vecOI h₁ hsame
      (hparsed.imp fun _ _ hp => hsame.symm.parsed hp)).2 hsees
    refine ⟨vm', ?_⟩
    rw [exec, hparse]
    exact hrun

/-- A written place of an accepted instruction. -/
theorem Operand.Mode.place (hD : D.Mode isRead true)
    (hknown : ∀ P ∈ D.value.uses, dyinstEncoding P.1 = some P.2) : D.Place D.size := by
  cases hD.plain with
  | immediate v _ _ hnot => exact absurd (hnot.symm.trans hD.written) Bool.false_ne_true
  | register r hderef hval =>
    exact .register r hderef hval
      (hknown (r, D.size) (by rw [hval]; exact List.mem_singleton_self _))
  | memory hderef => exact .memory hderef

/-- A two-operand instruction gets through exactly where the engine accepts it. -/
theorem exec_binary_iff (h : VMShape vm) (hid : (binaryOp I.id).isSome = true)
    (hops : I.operands = [D, S]) (hD : D.Mode true true) (hS : S.Mode true false)
    (hin : ∀ O ∈ I.operands, O.InLine vm I) :
    (∃ vm', exec vm I = some vm') ↔ vm.Accepts I := by
  obtain ⟨op, hop⟩ := Option.isSome_iff_exists.1 hid
  obtain ⟨k, -, hflag, hprocess⟩ := process_eq_binary hop
  refine exec_iff_of_read h (fun O hO => ?_) hin fun hall vm₁ vecOI h₁ hsame hparsed => ?_
  · rw [hops] at hO
    rcases List.mem_cons.1 hO with rfl | hO
    · exact ⟨true, hD⟩
    · rw [List.mem_singleton.1 hO]
      exact ⟨false, hS⟩
  · have hmem : D ∈ I.operands := by rw [hops]; exact List.mem_cons_self
    have hinD : D.InLine vm₁ I := hsame.inLine (hin D hmem)
    rw [hops] at hparsed
    obtain ⟨o1, rest, hp1, hrest, rfl⟩ := List.forall₂_cons_left_iff.1 hparsed
    obtain ⟨o2, rest, hp2, hnil, rfl⟩ := List.forall₂_cons_left_iff.1 hrest
    rw [List.forall₂_nil_left_iff.1 hnil]
    simp only [hprocess]
    rw [processBinary_iff h₁ hflag (hD.place (hall.known D hmem)) hD.read hS.read hinD hp1 hp2,
      hsame.isSymOprnd, hsame.isSymOprnd]
    clear hprocess hflag
    obtain ⟨id, operands, implicitReads⟩ := I
    obtain rfl : operands = [D, S] := hops
    -- The handler's condition is the one of `HandlerSees` in each of the five cases.
    cases id with
    | add | sub | and | or | xor => rfl
    | _ => simp [binaryOp] at hop

/-- So does `test` and `cmp`, which write no operand. -/
theorem exec_compare_iff (h : VMShape vm) (hid : I.id = .test ∨ I.id = .cmp)
    (hops : I.operands = [D, S]) (hD : D.Mode true false) (hS : S.Mode true false)
    (hin : ∀ O ∈ I.operands, O.InLine vm I) :
    (∃ vm', exec vm I = some vm') ↔ vm.Accepts I := by
  refine exec_iff_of_read h (fun O hO => ?_) hin fun _ vm₁ vecOI _ hsame hparsed => ?_
  · rw [hops] at hO
    rcases List.mem_cons.1 hO with rfl | hO
    · exact ⟨false, hD⟩
    · rw [List.mem_singleton.1 hO]
      exact ⟨false, hS⟩
  · rw [hops] at hparsed
    obtain ⟨o1, rest, hp1, hrest, rfl⟩ := List.forall₂_cons_left_iff.1 hparsed
    obtain ⟨o2, rest, hp2, hnil, rfl⟩ := List.forall₂_cons_left_iff.1 hrest
    rw [List.forall₂_nil_left_iff.1 hnil, VMState.HandlerSees, hops]
    rcases hid with hid | hid
    · simp only [process, hid]
      rw [processTest_iff hD.read hS.read hp1 hp2, hsame.isSymOprnd, hsame.isSymOprnd]
    · simp only [process, hid]
      rw [processCmp_iff hD.read hS.read hp1 hp2, hsame.isSymOprnd, hsame.isSymOprnd]

/-- So do `not` and `neg`. -/
theorem exec_unary_iff (h : VMShape vm) (hid : I.id = .not ∨ I.id = .neg)
    (hops : I.operands = [D]) (hD : D.Mode true true) (hin : ∀ O ∈ I.operands, O.InLine vm I) :
    (∃ vm', exec vm I = some vm') ↔ vm.Accepts I := by
  refine exec_iff_of_read h (fun O hO => ?_) hin fun hall vm₁ vecOI h₁ hsame hparsed => ?_
  · rw [hops] at hO
    rw [List.mem_singleton.1 hO]
    exact ⟨true, hD⟩
  · have hmem : D ∈ I.operands := by rw [hops]; exact List.mem_cons_self
    rw [hops] at hparsed
    obtain ⟨o1, rest, hp1, hnil, rfl⟩ := List.forall₂_cons_left_iff.1 hparsed
    rw [List.forall₂_nil_left_iff.1 hnil, VMState.HandlerSees, hops]
    rcases hid with hid | hid
    · simp [process, hid, processNot_eq_none]
    · simp only [process, hid]
      rw [processNeg_iff h₁ (hD.place (hall.known D hmem)) hD.read (hsame.inLine (hin D hmem)) hp1,
        hsame.isSymOprnd]

/-- So does `mov`, whose source is copied cell by cell. -/
theorem exec_mov_iff (h : VMShape vm) (hid : I.id = .mov) (hops : I.operands = [D, S])
    (hD : D.Mode false true) (hS : S.Mode true false)
    (hfits : (∃ v, S.deref = none ∧ S.value = .immediate v S.size) ∨ D.size = S.size)
    (hin : ∀ O ∈ I.operands, O.InLine vm I) :
    (∃ vm', exec vm I = some vm') ↔ vm.Accepts I := by
  have hmode : ∀ O ∈ I.operands, ∃ r w, O.Mode r w ∧ (r = true ∨ w = true) := by
    intro O hO
    rw [hops] at hO
    rcases List.mem_cons.1 hO with rfl | hO
    · exact ⟨false, true, hD, Or.inr rfl⟩
    · rw [List.mem_singleton.1 hO]
      exact ⟨true, false, hS, Or.inl rfl⟩
  have hsizes : ∀ O ∈ I.operands, isAccessSize O.size = true := by
    rw [hops]
    simp [hD.width, hS.width]
  have hmem : D ∈ I.operands := by rw [hops]; exact List.mem_cons_self
  have hsees : vm.HandlerSees I ↔
      vm.isSymOprnd I S = true ∨ D.deref = none ∧ ∃ P ∈ D.value.uses, vm.isSYReg P.1 = true := by
    rw [VMState.HandlerSees, hid, hops]
  -- the second parse sees what the first one saw
  have hmov : ∀ vm₁, VMShape vm₁ → SameCells vm vm₁ → ∀ vecOI vm₂,
      vm₁.parseOperands true I = some (vecOI, vm₂) →
      ((∃ vm', processMov vm₁ I = some vm') ↔ vm.HandlerSees I ∧ D.Writable vm I) := by
    intro vm₁ h₁ hsame vecOI vm₂ hparse
    rw [processMov_iff h₁ hops hD hS hfits (hsame.inLine (hin D hmem)) hparse, hsees,
      hsame.isSymOprnd, hsame.writable]
    simp only [hsame.isSYReg]
  constructor
  -- `mov` is parsed twice, once by the executor and once by its handler.
  · rintro ⟨vm', hexec⟩
    obtain ⟨⟨vecOI, vm₁⟩, hparse, hrun⟩ := bind_some hexec
    obtain ⟨h₁, hsame, -⟩ := h.parseOperands hsizes hparse
    have hrun : processMov vm₁ I = some vm' := by
      simp only [process, hid] at hrun
      exact hrun
    obtain ⟨⟨vecOI', vm₂⟩, hparse', -⟩ := bind_some hrun
    obtain ⟨hsym, hwritable⟩ := (hmov vm₁ h₁ hsame vecOI' vm₂ hparse').1 ⟨vm', hrun⟩
    refine ⟨h.parsesAll hmode (fun O hO hnot => ?_) hparse, hsym⟩
    rw [hops] at hO
    rcases List.mem_cons.1 hO with rfl | hO
    · exact hwritable
    · rw [List.mem_singleton.1 hO] at hnot
      exact absurd (hnot.symm.trans hS.read) Bool.false_ne_true
  · rintro ⟨hall, hsym⟩
    obtain ⟨vecOI, vm₁, hparse⟩ := h.exists_parse hmode hin hall false
    obtain ⟨h₁, hsame, -⟩ := h.parseOperands hsizes hparse
    have hall₁ : vm₁.ParsesAll I := hsame.parsesAll hall
    obtain ⟨vecOI', vm₂, hparse'⟩ :=
      h₁.exists_parse hmode (fun O hO => hsame.inLine (hin O hO)) hall₁ true
    have hwritable : D.Writable vm I :=
      ⟨fun _ => hall.known D hmem, fun hsome => (hall.found D hmem hsome).mapped⟩
    obtain ⟨vm', hrun⟩ := (hmov vm₁ h₁ hsame vecOI' vm₂ hparse').2 ⟨hsym, hwritable⟩
    refine ⟨vm', ?_⟩
    rw [exec, hparse]
    show process I vm₁ vecOI = some vm'
    rw [process, hid]
    exact hrun

/-- The executor finishes the instructions that are accepted, and no other. -/
theorem exec_iff (h : VMShape vm) (hI : I.Plain) (hin : ∀ O ∈ I.operands, O.InLine vm I) :
    (∃ vm', exec vm I = some vm') ↔ vm.Accepts I := by
  cases hI with
  | mov D S hid hops hD hS hwidth => exact exec_mov_iff h hid hops hD hS hwidth hin
  | binary D S hid hops hD hS => exact exec_binary_iff h hid hops hD hS hin
  | compare D S hid hops hD hS => exact exec_compare_iff h hid hops hD hS hin
  | unary D hid hops hD => exact exec_unary_iff h hid hops hD hin

end Exec

end KRover
