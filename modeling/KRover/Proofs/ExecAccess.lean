import KRover.Proofs.SymExecStep
import Mathlib.Logic.Relation

/-! # What an execution does to the machine

A handler is a sequence of accesses: it reads and writes registers and memory,
and it saves the expression of the flags. `exec_accesses` says so of every
handler at once. What an access keeps, an execution keeps, so an invariant of the
machine is shown for one access only.

* `VMShape.access`, `VMShape.exec`: the lists and the marks stay well formed;
* `Access.objectsKept`: the declared objects and the constraints are not touched.
-/

set_option autoImplicit false

namespace KRover

open Segments SymbolListMap SymExecutor Relation

/-! ## Accesses -/

/-- One access of a handler or of a parser, that does not fail. What is written as
a list has the form of a list that was read. -/
inductive Access (vm : VMState) : VMState → Prop where
  | readRegister (V W : RegValue) {vm' : VMState}
      (hread : vm.readRegister V = some (true, W, vm')) : Access vm vm'
  | readMemory (V W : MemValue) {vm' : VMState} (hwidth : isAccessSize V.size = true)
      (hread : vm.readMemory V = some (true, W, vm')) : Access vm vm'
  | writeRegister (V : RegValue) {vm' : VMState}
      (hform : V.bsym = true → V.isSymList = true → ReadForm V.size V.symcellPtr)
      (hwrite : vm.writeRegister V = some (true, vm')) : Access vm vm'
  | writeMemory (V : MemValue) {vm' : VMState} (hwidth : isAccessSize V.size = true)
      (hform : V.bsym = true → V.isSymList = true → ReadForm V.size V.symcellPtr)
      (hwrite : vm.writeMemory V = some (true, vm')) : Access vm vm'
  | save (id : EntryID) (e : Expr) : Access vm (vm.saveFlagChangingInstructionExpr id e).2

/-- Accesses one after the other. -/
abbrev Accesses : VMState → VMState → Prop := ReflTransGen Access

/-- The declared objects and the constraints are the same. -/
structure ObjectsKept (vm vm' : VMState) : Prop where
  symMemObjects : vm'.symMemObjects = vm.symMemObjects
  nextId : vm'.nextId = vm.nextId
  constraint : vm'.eflagsMgr.constraint = vm.eflagsMgr.constraint

/-- Nothing has changed yet. -/
theorem ObjectsKept.refl (vm : VMState) : ObjectsKept vm vm := ⟨rfl, rfl, rfl⟩

/-- What keeps the objects one step after the other keeps them. -/
theorem ObjectsKept.trans {vm vm₁ vm₂ : VMState} (h : ObjectsKept vm vm₁)
    (h' : ObjectsKept vm₁ vm₂) : ObjectsKept vm vm₂ where
  symMemObjects := h'.symMemObjects.trans h.symMemObjects
  nextId := h'.nextId.trans h.nextId
  constraint := h'.constraint.trans h.constraint

section Invariants

variable {vm vm' : VMState}

/-- Saving an expression keeps the constraints, whether it is saved or not. -/
theorem objectsKept_save (vm : VMState) (id : EntryID) (e : Expr) :
    ObjectsKept vm (vm.saveFlagChangingInstructionExpr id e).2 := by
  rw [VMState.saveFlagChangingInstructionExpr, EFlagsManager.saveFlagChangingInstructionExpr]
  cases isFlagChangingInstr id || isFlagSettingInstr id with
  | true => exact ⟨rfl, rfl, rfl⟩
  | false => exact .refl vm

/-- No access declares an object or adds a constraint: cells, bitmaps, concrete values and
the saved expression are all that it can change. -/
theorem Access.objectsKept (h : Access vm vm') : ObjectsKept vm vm' := by
  cases h with
  | readRegister V W hread =>
    obtain ⟨⟨res, W', cpu⟩, -, hout⟩ := bind_some hread
    rw [← (Prod.mk.inj (Prod.mk.inj (Option.some.inj hout)).2).2]
    exact ⟨rfl, rfl, rfl⟩
  | readMemory V W hwidth hread =>
    rw [VMState.readMemory] at hread
    split at hread
    · obtain ⟨⟨res, W', mem⟩, -, hout⟩ := bind_some hread
      rw [← (Prod.mk.inj (Prod.mk.inj (Option.some.inj hout)).2).2]
      exact ⟨rfl, rfl, rfl⟩
    · simp at hread
  | writeRegister V hform hwrite =>
    obtain ⟨⟨res, cpu⟩, -, hout⟩ := bind_some hwrite
    rw [← (Prod.mk.inj (Option.some.inj hout)).2]
    exact ⟨rfl, rfl, rfl⟩
  | writeMemory V hwidth hform hwrite =>
    rw [VMState.writeMemory] at hwrite
    split at hwrite
    · obtain ⟨⟨res, mem⟩, -, hout⟩ := bind_some hwrite
      rw [← (Prod.mk.inj (Option.some.inj hout)).2]
      exact ⟨rfl, rfl, rfl⟩
    · simp at hwrite
  | save id e => exact objectsKept_save vm id e

/-- Nor do many. By induction on the run. -/
theorem Accesses.objectsKept (h : Accesses vm vm') : ObjectsKept vm vm' := by
  induction h with
  | refl => exact .refl _
  | tail _ hstep ih => exact ih.trans hstep.objectsKept

/-- An access leaves the lists and the marks well formed. -/
theorem VMShape.access (h : VMShape vm) (hstep : Access vm vm') : VMShape vm' := by
  cases hstep with
  | readRegister V W hread => exact (h.readRegister hread).1
  | readMemory V W hwidth hread => exact (h.readMemory hwidth hread).1
  | writeRegister V hform hwrite =>
    exact (h.vmCells.writeRegister exprLaw_true hform (fun _ _ _ => trivial) hwrite).1.shape
  | writeMemory V hwidth hform hwrite =>
    exact (h.vmCells.writeMemory exprLaw_true hwidth hform (fun _ _ => trivial) hwrite).1.shape
  | save id e => exact (sameBytes_save vm id e).shape h

/-- Many accesses leave the lists and the marks well formed, as each one does. -/
theorem VMShape.accesses (h : VMShape vm) (hrun : Accesses vm vm') : VMShape vm' := by
  induction hrun with
  | refl => exact h
  | tail _ hstep ih => exact ih.access hstep

end Invariants

/-! ## Parsers -/

section Parsers

variable {vm vm' : VMState} {I : Instruction} {O : Operand}

/-- The read of a register as an expression, with its result asserted. -/
theorem Access.readRegisterExpr {r : MachRegister} {size : Nat} {W : RegValue}
    (hread : vm.readRegisterExpr r size = some (W, vm')) : Access vm vm' :=
  .readRegister _ W (asserted_eq_some.1 hread)

/-- The values of the registers that an address reads. By induction on them. -/
theorem setReadRegs_accesses {regs : List (MachRegister × Nat)}
    (hset : vm.setReadRegs regs = some vm') : Accesses vm vm' := by
  induction regs generalizing vm with
  | nil =>
    obtain rfl := Option.some.inj hset
    exact .refl
  | cons R regs ih =>
    obtain ⟨⟨W, vm₁⟩, hread, hrest⟩ := bind_some hset
    exact .head (.readRegisterExpr hread) (ih hrest)

/-- The search for a symbolic register, which ends at the first one. -/
theorem findSymReg_accesses {regs : List (MachRegister × Nat)} {found : Bool}
    (hfind : vm.findSymReg regs = some (found, vm')) : Accesses vm vm' := by
  induction regs generalizing vm with
  | nil =>
    obtain ⟨-, rfl⟩ := Prod.mk.inj (Option.some.inj hfind)
    exact .refl
  | cons R regs ih =>
    obtain ⟨⟨W, vm₁⟩, hread, hrest⟩ := bind_some hfind
    dsimp only at hrest
    -- The loop ends at the first symbolic register.
    split at hrest
    · obtain ⟨-, rfl⟩ := Prod.mk.inj (Option.some.inj hrest)
      exact .single (.readRegisterExpr hread)
    · exact .head (.readRegisterExpr hread) (ih hrest)

/-- Whether an instruction uses `gs`. The base is read when it does. -/
theorem isUseGS_accesses {base : BitVec 64} (hgs : vm.isUseGS I = some (base, vm')) :
    Accesses vm vm' := by
  rw [VMState.isUseGS] at hgs
  split at hgs
  · obtain ⟨⟨W, vm₁⟩, hread, hout⟩ := bind_some hgs
    obtain ⟨-, rfl⟩ := Prod.mk.inj (Option.some.inj hout)
    exact .single (.readRegisterExpr hread)
  · obtain ⟨-, rfl⟩ := Prod.mk.inj (Option.some.inj hgs)
    exact .refl

/-- The expression of a sum of registers, as `lea` has it: one read for each summand. -/
theorem sumExpr_accesses {a : OperandAST} {e : Expr} (hsum : vm.sumExpr a = some (e, vm')) :
    Accesses vm vm' := by
  cases a with
  | register r size =>
    obtain ⟨⟨W, vm₁⟩, hread, hrest⟩ := bind_some hsum
    dsimp only at hrest
    split at hrest
    · obtain ⟨-, rfl⟩ := Prod.mk.inj (Option.some.inj hrest)
      exact .single (.readRegisterExpr hread)
    · simp at hrest
  | immediate v size =>
    obtain ⟨-, rfl⟩ := Prod.mk.inj (Option.some.inj hsum)
    exact .refl
  | add x y size => simp [VMState.sumExpr] at hsum
  | multiply x y size => simp [VMState.sumExpr] at hsum

/-- The address of a memory operand: its registers, and then `gs`. -/
theorem memConaddr_accesses {direct : Bool} {addr : Nat}
    (hp : vm.memConaddr I O direct = some (addr, vm')) : Accesses vm vm' := by
  obtain ⟨⟨base, vm₁⟩, hgs, hrest⟩ := bind_some hp
  dsimp only at hrest
  split at hrest
  · simp at hrest
  · split at hrest
    · simp at hrest
    · obtain ⟨-, rfl⟩ := Prod.mk.inj (Option.some.inj hrest)
      exact isUseGS_accesses hgs

variable {oi : OprndInfo}

/-- A register, an immediate or a sum of them, read as an expression. -/
theorem mayOperandUseSymbolXX_accesses (hp : vm.mayOperandUseSymbolXX O = some (oi, vm')) :
    Accesses vm vm' := by
  rw [VMState.mayOperandUseSymbolXX] at hp
  -- A literal is no access. A register is looked up, and an operand that is only written is not.
  split at hp
  · split at hp
    · obtain ⟨-, rfl⟩ := Prod.mk.inj (Option.some.inj hp)
      exact .refl
    · obtain ⟨⟨symReg, vm₁⟩, hfind, hrest⟩ := bind_some hp
      have hfound := findSymReg_accesses hfind
      -- A symbolic register is read once more, for its expression.
      dsimp only at hrest
      split at hrest
      · split at hrest
        · obtain ⟨⟨W, vm₂⟩, hread, hout⟩ := bind_some hrest
          obtain ⟨-, rfl⟩ := Prod.mk.inj (Option.some.inj hout)
          exact hfound.tail (.readRegisterExpr hread)
        · obtain ⟨⟨e1, vm₂⟩, hx, hrest⟩ := bind_some hrest
          obtain ⟨⟨e2, vm₃⟩, hy, hout⟩ := bind_some hrest
          obtain ⟨-, rfl⟩ := Prod.mk.inj (Option.some.inj hout)
          exact (hfound.trans (sumExpr_accesses hx)).trans (sumExpr_accesses hy)
        · simp at hrest
        · simp at hrest
      · obtain ⟨-, rfl⟩ := Prod.mk.inj (Option.some.inj hrest)
        exact hfound
  · split at hp
    · split at hp
      · obtain ⟨symb, -, hp⟩ := bind_some hp
        split at hp <;>
        · obtain ⟨-, rfl⟩ := Prod.mk.inj (Option.some.inj hp)
          exact .refl
      · simp at hp
    · simp at hp

/-- A register or an immediate, read as a list. -/
theorem parseOperandXX_accesses (hp : vm.parseOperandXX O = some (oi, vm')) :
    Accesses vm vm' := by
  rw [VMState.parseOperandXX] at hp
  split at hp
  · split at hp
    · obtain ⟨-, rfl⟩ := Prod.mk.inj (Option.some.inj hp)
      exact .refl
    · obtain ⟨⟨W, vm₁⟩, hread, hrest⟩ := bind_some hp
      have hstep : Access vm vm₁ := .readRegister _ W (asserted_eq_some.1 hread)
      dsimp only at hrest
      split at hrest
      · split at hrest
        · obtain ⟨-, rfl⟩ := Prod.mk.inj (Option.some.inj hrest)
          exact .single hstep
        · simp at hrest
      · obtain ⟨-, rfl⟩ := Prod.mk.inj (Option.some.inj hrest)
        exact .single hstep
    · simp at hp
  · split at hp
    · split at hp
      · obtain ⟨symb, -, hp⟩ := bind_some hp
        obtain ⟨-, rfl⟩ := Prod.mk.inj (Option.some.inj hp)
        exact .refl
      · simp at hp
    · simp at hp

/-- The memory behind the address, read as an expression or as a list. -/
theorem parseMemCell_accesses {b : Bool} {addr size : Nat} {accs : OperandAccs}
    (hwidth : isAccessSize size = true)
    (hp : vm.parseMemCell b addr size accs = some (oi, vm')) : Accesses vm vm' := by
  obtain ⟨⟨W, vm₁⟩, hread, hrest⟩ := bind_some hp
  dsimp only at hrest
  have hstep : Access vm vm₁ := .readMemory _ W hwidth (asserted_eq_some.1 hread)
  split at hrest
  · split at hrest <;>
    · obtain ⟨-, rfl⟩ := Prod.mk.inj (Option.some.inj hrest)
      exact .single hstep
  · obtain ⟨-, rfl⟩ := Prod.mk.inj (Option.some.inj hrest)
    exact .single hstep

/-- The four parsers, whichever one is chosen for the operand: they read, and write nothing. -/
theorem parseOperand_accesses {b : Bool} (hwidth : isAccessSize O.size = true)
    (hp : vm.parseOperand b I O = some (oi, vm')) : Accesses vm vm' := by
  rw [VMState.parseOperand] at hp
  split at hp
  · split at hp
    · exact parseOperandXX_accesses hp
    · exact mayOperandUseSymbolXX_accesses hp
  · obtain ⟨⟨addr, vm₁⟩, haddr, hcell⟩ := bind_some hp
    exact (memConaddr_accesses haddr).trans (parseMemCell_accesses hwidth hcell)
  · obtain ⟨⟨addr, vm₁⟩, haddr, hout⟩ := bind_some hp
    obtain ⟨-, rfl⟩ := Prod.mk.inj (Option.some.inj hout)
    exact memConaddr_accesses haddr
  · obtain ⟨⟨addr, vm₁⟩, haddr, hcell⟩ := bind_some hp
    exact (memConaddr_accesses haddr).trans (parseMemCell_accesses hwidth hcell)

/-- The operands one after the other. By induction on them. -/
theorem parseEach_accesses {b : Bool} {Os : List Operand} {vecOI : List OprndInfo}
    (hwidth : ∀ O ∈ Os, isAccessSize O.size = true)
    (hp : vm.parseEach b I Os = some (vecOI, vm')) : Accesses vm vm' := by
  induction Os generalizing vm vecOI with
  | nil =>
    obtain ⟨-, rfl⟩ := Prod.mk.inj (Option.some.inj hp)
    exact .refl
  | cons O Os ih =>
    obtain ⟨⟨oi, vm₁⟩, hone, hrest⟩ := bind_some hp
    obtain ⟨⟨vecOI', vm₂⟩, hmore, hout⟩ := bind_some hrest
    obtain ⟨-, rfl⟩ := Prod.mk.inj (Option.some.inj hout)
    exact (parseOperand_accesses (hwidth O List.mem_cons_self) hone).trans
      (ih (fun O' hO' => hwidth O' (List.mem_cons_of_mem _ hO')) hmore)

/-- All operands of an instruction. -/
theorem parseOperands_accesses {b : Bool} {vecOI : List OprndInfo}
    (hwidth : ∀ O ∈ I.operands, isAccessSize O.size = true)
    (hp : vm.parseOperands b I = some (vecOI, vm')) : Accesses vm vm' := by
  obtain ⟨vm₁, hset, hrest⟩ := bind_some hp
  exact (setReadRegs_accesses hset).trans (parseEach_accesses hwidth hrest)

end Parsers

/-! ## Handlers -/

section Writes

variable {vm vm' : VMState} {oi : OprndInfo} (hwidth : isAccessSize oi.size = true)

include hwidth

/-- An operand is written with an expression, as a register or in memory. The size of the
cell is that of the operand. -/
theorem OprndInfo.setSymValue_access {e : Expr} (hset : oi.setSymValue vm e = some vm') :
    Access vm vm' := by
  rcases OprndInfo.setSymValue_cases hset with ⟨r, hwrite⟩ | ⟨addr, hwrite⟩
  · exact .writeRegister _ (by simp) hwrite
  · exact .writeMemory _ hwidth (by simp) hwrite

/-- An operand is written with a concrete value. -/
theorem OprndInfo.setConValue_access {v : BitVec 64} (hset : oi.setConValue vm v = some vm') :
    Access vm vm' := by
  rcases OprndInfo.setConValue_cases hset with ⟨r, hwrite⟩ | ⟨addr, hwrite⟩
  · exact .writeRegister _ (by simp) hwrite
  · exact .writeMemory _ hwidth (by simp) hwrite

/-- An operand is written with a list of cells. It has the form of a list that was read with
this size, which is what keeps the lists well formed. -/
theorem OprndInfo.setSymList_access {cells : List (Segment Expr)}
    (hform : ReadForm oi.size cells) {v : BitVec 64}
    (hset : oi.setSymList vm cells v = some vm') : Access vm vm' := by
  rcases OprndInfo.setSymList_cases hset with ⟨r, hwrite⟩ | ⟨addr, hwrite⟩
  · exact .writeRegister _ (fun _ _ => hform) hwrite
  · exact .writeMemory _ hwidth (fun _ _ => hform) hwrite

end Writes

/-- The saved expression of the flags is replaced. -/
theorem save_access {vm vm' : VMState} {id : EntryID} {e : Expr}
    (hsave : asserted (some (vm.saveFlagChangingInstructionExpr id e)) = some vm') :
    Access vm vm' := by
  have hout := Option.some.inj (asserted_eq_some.1 hsave)
  have hstep : Access vm (vm.saveFlagChangingInstructionExpr id e).2 := .save id e
  rwa [hout] at hstep

section Handlers

variable {vm vm' : VMState} {vecOI : List OprndInfo}
  (hops : ∀ oi ∈ vecOI, isAccessSize oi.size = true)

include hops

/-- The handlers that move one operand to another. -/
theorem move_accesses {f : Expr → Expr} {g : BitVec 64 → BitVec 64} {oidst oisrc : OprndInfo}
    (hdst : vecOI[0]? = some oidst) (hmoved : MovedTo f g vm oidst oisrc vm') :
    Accesses vm vm' := by
  have hwidth := hops oidst (List.mem_of_getElem? hdst)
  cases hmoved with
  | expr e _ _ hset => exact .single (OprndInfo.setSymValue_access hwidth hset)
  | value v _ _ hset => exact .single (OprndInfo.setConValue_access hwidth hset)

/-- `process_lea` writes the sum that was parsed to the destination. -/
theorem processLea_accesses (hproc : processLea vm vecOI = some vm') : Accesses vm vm' := by
  obtain ⟨oidst, oisrc, hdst, -, hmoved⟩ := processLea_cases hproc
  exact move_accesses hops hdst hmoved

/-- `process_cmovxx` writes the source to the destination. -/
theorem processCmovxx_accesses (hproc : processCmovxx vm vecOI = some vm') :
    Accesses vm vm' := by
  obtain ⟨oidst, oisrc, hdst, -, hmoved⟩ := processCmovxx_cases hproc
  exact move_accesses hops hdst hmoved

/-- The widening moves write one node over the source, or the concrete value. -/
theorem processExtend_accesses {k : UryKind} (hproc : processExtend k vm vecOI = some vm') :
    Accesses vm vm' := by
  obtain ⟨oidst, oisrc, hdst, -, hmoved⟩ := processExtend_cases hproc
  exact move_accesses hops hdst hmoved

/-- `process_set` writes a concrete byte. -/
theorem processSet_accesses (hproc : processSet vm vecOI = some vm') : Accesses vm vm' := by
  obtain ⟨oidst, hdst, hset⟩ := bind_some hproc
  exact .single (OprndInfo.setConValue_access (hops oidst (List.mem_of_getElem? hdst)) hset)

/-- `process_cdq` writes the sign of the accumulator to `d`. -/
theorem processCdq_accesses (hproc : processCdq vm vecOI = some vm') : Accesses vm vm' := by
  obtain ⟨oD, oA, hD, -, hmoved⟩ := processCdq_cases hproc
  exact move_accesses hops hD hmoved

/-- `process_cbw` reads the lower half of the accumulator once more, past the operands, and
writes the whole. -/
theorem processCbw_accesses (hproc : processCbw vm vecOI = some vm') : Accesses vm vm' := by
  obtain ⟨oi, e, sub, size, rv, vm₁, hoi, -, -, hread, hset⟩ := processCbw_cases hproc
  have hstep : Access vm vm₁ := .readRegisterExpr hread
  rcases hset with ⟨-, hset⟩ | ⟨-, hwrite⟩
  · exact .head hstep
      (.single (OprndInfo.setSymValue_access (hops oi (List.mem_of_getElem? hoi)) hset))
  · exact .head hstep (.single (.writeRegister _ (by simp) hwrite))

/-- An expression goes into an operand and is saved for the flags. -/
theorem setSave_accesses {id : EntryID} {i : Nat} {oi : OprndInfo} (hoi : vecOI[i]? = some oi)
    {oe : Expr} (hset : SetSaved id vm oi oe vm') : Accesses vm vm' := by
  obtain ⟨vm₁, hset, hsave⟩ := hset
  have hstep := OprndInfo.setSymValue_access (hops oi (List.mem_of_getElem? hoi)) hset
  exact .head hstep (.single (save_access hsave))

/-- The five two-operand handlers write the result and save it for the flags. -/
theorem processBinary_accesses {k : BinKind} {id : EntryID}
    (hproc : processBinary k id vm vecOI = some vm') : Accesses vm vm' := by
  obtain ⟨o1, o2, oe, h1, -, -, hset⟩ := processBinary_cases hproc
  exact setSave_accesses hops h1 hset

/-- `process_neg` has one operand and does the same. -/
theorem processNeg_accesses (hproc : processNeg vm vecOI = some vm') : Accesses vm vm' := by
  obtain ⟨o1, e1, h1, -, -, hset⟩ := processNeg_cases hproc
  exact setSave_accesses hops h1 hset

/-- The shifts do the same. Which operand the count is taken from does not matter here. -/
theorem processShift_accesses {k : BinKind} {id : EntryID}
    {count : OprndInfo → OprndInfo → OprndInfo}
    (hproc : processShift k id count vm vecOI = some vm') : Accesses vm vm' := by
  obtain ⟨o1, o2, e1, v2, h1, -, -, -, -, hset⟩ := processShift_cases hproc
  exact setSave_accesses hops h1 hset

omit hops in
/-- `process_test` saves an expression and writes nothing. -/
theorem processTest_accesses (hproc : processTest vm vecOI = some vm') : Accesses vm vm' := by
  obtain ⟨o1, o2, oe, -, -, -, rfl⟩ := processTest_cases hproc
  exact .single (.save .test oe)

omit hops in
/-- `process_cmp` saves an expression and writes nothing. -/
theorem processCmp_accesses (hproc : processCmp vm vecOI = some vm') : Accesses vm vm' := by
  obtain ⟨o1, o2, oe, -, -, -, hsave⟩ := processCmp_cases hproc
  exact .single (save_access hsave)

/-- `process_xchg` makes two writes. -/
theorem processXchg_accesses (hproc : processXchg vm vecOI = some vm') : Accesses vm vm' := by
  obtain ⟨o1, o2, h1, h2, hswap⟩ := processXchg_cases hproc
  have hw1 := hops o1 (List.mem_of_getElem? h1)
  have hw2 := hops o2 (List.mem_of_getElem? h2)
  cases hswap with
  | both e1 e2 vm₁ _ _ _ hset1 hset2 =>
    exact .head (OprndInfo.setSymValue_access hw1 hset1)
      (.single (OprndInfo.setSymValue_access hw2 hset2))
  | first e1 v2 vm₁ _ _ _ hset1 hset2 =>
    exact .head (OprndInfo.setConValue_access hw1 hset1)
      (.single (OprndInfo.setSymValue_access hw2 hset2))
  | second e2 v1 vm₁ _ _ _ hset1 hset2 =>
    exact .head (OprndInfo.setSymValue_access hw1 hset1)
      (.single (OprndInfo.setConValue_access hw2 hset2))

/-- `process_idiv` writes quotient and remainder. -/
theorem processIdiv_accesses (hproc : processIdiv vm vecOI = some vm') : Accesses vm vm' := by
  obtain ⟨oD, oA, eQuotient, eRemainder, vm₁, hD, hA, hset1, hset2⟩ := processIdiv_cases hproc
  exact .head (OprndInfo.setSymValue_access (hops oA (List.mem_of_getElem? hA)) hset1)
    (.single (OprndInfo.setSymValue_access (hops oD (List.mem_of_getElem? hD)) hset2))

/-- `process_mul` writes both halves of the product. -/
theorem processMul_accesses {id : EntryID} (hproc : processMul id vm vecOI = some vm') :
    Accesses vm vm' := by
  obtain ⟨oD, oA, oM, hD, hA, -, hset⟩ := processMul_cases hproc
  have hwA := hops oA (List.mem_of_getElem? hA)
  have hwD := hops oD (List.mem_of_getElem? hD)
  cases hset with
  | values vrl vrh vm₁ _ hset1 hset2 =>
    exact .head (OprndInfo.setConValue_access hwA hset1)
      (.single (OprndInfo.setConValue_access hwD hset2))
  | exprs el eh vm₁ _ hset1 hset2 =>
    exact .head (OprndInfo.setSymValue_access hwA hset1)
      (.single (OprndInfo.setSymValue_access hwD hset2))

end Handlers

/-! ## Handlers that parse again -/

/-- What the decoder promises of a move: its operands have one size, but for an
immediate. -/
def Instruction.MovesWhole (I : Instruction) : Prop :=
  I.id = .mov → ∀ D S, I.operands[0]? = some D → I.operands[1]? = some S →
    (∃ v, S.deref = none ∧ S.value = .immediate v S.size) ∨ D.size = S.size

section Reparse

variable {vm vm' : VMState} {I : Instruction} (h : VMShape vm)
  (hsizes : ∀ O ∈ I.operands, isAccessSize O.size = true)

include h hsizes

/-- The operand at a place, parsed as a list. -/
theorem parsedList_getElem? {vecOI : List OprndInfo} {vm₁ : VMState}
    (hparse : vm.parseOperands true I = some (vecOI, vm₁)) {i : Nat} {oi : OprndInfo}
    (hoi : vecOI[i]? = some oi) :
    ∃ O, I.operands[i]? = some O ∧ Parsed vm I O true oi ∧
      ListOprnd (fun _ _ => True) oi := by
  obtain ⟨-, -, hall⟩ := h.parseOperands hsizes hparse
  obtain ⟨O, hO, hp⟩ := forall₂_getElem? hall hoi
  exact ⟨O, hO, hp, .of_parsed exprLaw_true h.vmCells (hsizes O (List.mem_of_getElem? hO)) hp⟩

/-- `process_mov` parses its operands a second time, as lists. The list that it writes was
read with the size of the source, so both operands must have one size. An immediate is no
list. -/
theorem processMov_accesses (hread : ∀ S, I.operands[1]? = some S → S.isRead = true)
    (hfits : ∀ D S, I.operands[0]? = some D → I.operands[1]? = some S →
      (∃ v, S.deref = none ∧ S.value = .immediate v S.size) ∨ D.size = S.size)
    (hproc : processMov vm I = some vm') : Accesses vm vm' := by
  obtain ⟨vecOI, vm₁, oidst, oisrc, hparse, hdst, hsrc, hmoved⟩ := processMov_cases hproc
  have hfirst := parseOperands_accesses hsizes hparse
  obtain ⟨D, hD, hpD, hlD⟩ := parsedList_getElem? h hsizes hparse hdst
  obtain ⟨S, hS, hpS, hlS⟩ := parsedList_getElem? h hsizes hparse hsrc
  cases hmoved with
  -- A symbolic source is copied as a list.
  | list cells v hsym hlist hset =>
    -- An immediate is never symbolic, so the list is as long as the destination.
    have hsize : oidst.size = oisrc.size := by
      rcases hfits D S hD hS with ⟨v, hderef, hval⟩ | hsize
      · have himm : vm.isSymOprnd I S = false := by
          rw [VMState.isSymOprnd, hderef, Operand.readSet, hderef, hval]
          rfl
        rw [hpS.symb_eq (hread S hS), himm] at hsym
        exact absurd hsym Bool.false_ne_true
      · rw [hpD.size_eq, hpS.size_eq, hsize]
    exact hfirst.tail (OprndInfo.setSymList_access hlD.width
      (hsize ▸ (hlS.of_getSymList hlist).1) hset)
  | value v _ _ _ hset => exact hfirst.tail (OprndInfo.setConValue_access hlD.width hset)

/-- `process_pop` parses its operand again, reads the word at `rsp`, writes it and moves
`rsp`. -/
theorem processPop_accesses (hproc : processPop vm I = some vm') : Accesses vm vm' := by
  obtain ⟨vecOI, vm₁, o1, o2, rsp, V, vm₂, MV, vm₃, vm₄, hparse, ho1, ho2, hread, hmem, hset,
    hwrite⟩ := processPop_cases hproc
  have hfirst := parseOperands_accesses hsizes hparse
  obtain ⟨-, -, -, hl1⟩ := parsedList_getElem? h hsizes hparse ho1
  have h₁ := (h.parseOperands hsizes hparse).1
  obtain ⟨h₂, -, henc, hV⟩ := h₁.readRegisterExpr hread
  have hstack : Accesses vm vm₃ :=
    (hfirst.tail (.readRegisterExpr hread)).tail (.readMemory _ MV hl1.width hmem)
  have hpopped : Access vm₃ vm₄ := by
    rcases hset with ⟨hbsym, hset⟩ | hset
    · -- What is popped as a list has the form of a list that was read.
      obtain ⟨-, -, hr, rfl⟩ := h₂.readMemory hl1.width hmem
      rw [SYMemState.bsym_valueRead] at hbsym
      have hform := (h₂.vmCells.memWindow exprLaw_true hr hbsym).1
      rw [SYMemState.valueRead] at hset
      simp only [hbsym, if_true] at hset
      exact OprndInfo.setSymList_access hl1.width hform hset
    · exact OprndInfo.setConValue_access hl1.width hset
  -- The stack pointer is written back as it was read, and that was no list.
  have hnotList : V.isSymList = false := by
    rw [hV]
    exact (h₁.vmCells.regWriteBack exprLaw_true henc 0).1
  refine (hstack.tail hpopped).tail (.writeRegister _ ?_ hwrite)
  intro _ hlist
  exact absurd (hnotList.symm.trans hlist) Bool.false_ne_true

/-- `process_push` moves `rsp` and writes the operand there. -/
theorem processPush_accesses (hproc : processPush vm I = some vm') : Accesses vm vm' := by
  obtain ⟨vecOI, vm₁, o1, o2, rsp, V, vm₂, vm₃, hparse, ho1, ho2, hread, hwrite, hstore⟩ :=
    processPush_cases hproc
  have hfirst := parseOperands_accesses hsizes hparse
  obtain ⟨-, -, -, hl1⟩ := parsedList_getElem? h hsizes hparse ho1
  have h₁ := (h.parseOperands hsizes hparse).1
  obtain ⟨-, -, henc, hV⟩ := h₁.readRegisterExpr hread
  -- The stack pointer is written back as it was read, and that was no list.
  have hnotList : V.isSymList = false := by
    rw [hV]
    exact (h₁.vmCells.regWriteBack exprLaw_true henc 0).1
  have hmoved : Accesses vm vm₃ := by
    refine (hfirst.tail (.readRegisterExpr hread)).tail (.writeRegister _ ?_ hwrite)
    intro _ hlist
    exact absurd (hnotList.symm.trans hlist) Bool.false_ne_true
  rcases hstore with ⟨cells, v, hlist, hstore⟩ | ⟨v, hstore⟩
  · exact hmoved.tail
      (.writeMemory _ hl1.width (fun _ _ => (hl1.of_getSymList hlist).1) hstore)
  · exact hmoved.tail (.writeMemory _ hl1.width (by simp) hstore)

end Reparse

/-! ## Instructions -/

/-- One instruction, parsed and run, is a sequence of accesses. -/
theorem exec_accesses {vm vm' : VMState} {I : Instruction} (h : VMShape vm) (hdec : I.Decoded)
    (hmov : I.MovesWhole) (hexec : exec vm I = some vm') : Accesses vm vm' := by
  obtain ⟨⟨vecOI, vm₁⟩, hparse, hproc⟩ := bind_some hexec
  obtain ⟨h₁, -, hall⟩ := h.parseOperands hdec.sizes hparse
  refine (parseOperands_accesses hdec.sizes hparse).trans ?_
  have hops : ∀ oi ∈ vecOI, isAccessSize oi.size = true := by
    intro oi hoi
    obtain ⟨i, hi⟩ := List.mem_iff_getElem?.1 hoi
    obtain ⟨O, hO, hp⟩ := forall₂_getElem? hall hi
    rw [hp.size_eq]
    exact hdec.sizes O (List.mem_of_getElem? hO)
  dsimp only at hproc
  rw [process] at hproc
  cases hid : I.id <;> simp only [hid] at hproc
  -- One case for each handler, by the accesses that it makes.
  case mov =>
    exact processMov_accesses h₁ hdec.sizes
      (fun S hS => hdec.reads 1 S hS (by rw [hid]; rfl)) (hmov hid) hproc
  case movsx | movslq | movsxd | movzx => exact processExtend_accesses hops hproc
  case cdq | cwd => exact processCdq_accesses hops hproc
  case cbw | cwde | cwtl => exact processCbw_accesses hops hproc
  case add | sub | and | or | xor => exact processBinary_accesses hops hproc
  case test => exact processTest_accesses hproc
  case cmp | cmpw => exact processCmp_accesses hproc
  case xchg => exact processXchg_accesses hops hproc
  case shl_sal | shr | sar => exact processShift_accesses hops hproc
  case neg => exact processNeg_accesses hops hproc
  case not => simp [processNot_eq_none] at hproc
  case idiv => exact processIdiv_accesses hops hproc
  case mul | imul => exact processMul_accesses hops hproc
  case cmovbe | cmove | cmovnae | cmovnb | cmovnbe | cmovne | cmovng | cmovnge | cmovnl | cmovno
      | cmovns | cmovo | cmovpe | cmovpo | cmovs => exact processCmovxx_accesses hops hproc
  case lea => exact processLea_accesses hops hproc
  case setb | setbe | setl | setle | setnb | setnbe | setnl | setnle | setno | setnp | setns
      | setnz | seto | setp | sets | setz => exact processSet_accesses hops hproc
  case push => exact processPush_accesses h₁ hdec.sizes hproc
  case pop => exact processPop_accesses h₁ hdec.sizes hproc
  case jbe | je | jge | jl | jle | jmp | jmpq | jne | jz | jnz | jns | js | rdtsc =>
    obtain rfl := Option.some.inj hproc
    exact .refl
  all_goals simp at hproc

/-- An execution leaves the lists and the marks well formed. -/
theorem VMShape.exec {vm vm' : VMState} {I : Instruction} (h : VMShape vm) (hdec : I.Decoded)
    (hmov : I.MovesWhole) (hexec : SymExecutor.exec vm I = some vm') : VMShape vm' :=
  h.accesses (exec_accesses h hdec hmov hexec)

end KRover
