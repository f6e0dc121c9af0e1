import KRover.Proofs.VMCells

/-! # What the parsers find

A parser reads registers and memory and changes nothing that can be seen. What
it finds out about an operand is one of the cases of `Parsed`, each with the
values of the state before the parse.

* `VMShape.parseOperand`: one operand;
* `VMShape.parseOperands`: all operands of an instruction;
* `VMShape.exists_readMemory`: reads that do not fail.
-/

set_option autoImplicit false

namespace KRover

open Segments SymbolListMap

/-- A read of a register as an expression, or with `isSymList` as a list. -/
def regRead (r : MachRegister) (size : Nat) (isSymList : Bool) : RegValue :=
  ⟨r, size, false, isSymList, 0, .null, []⟩

/-- A read of memory. -/
def memRead (addr size : Nat) (isSymList : Bool) : MemValue :=
  ⟨addr, size, false, isSymList, 0, .null, []⟩

/-- What `isUseGS` returns. -/
def Instruction.gsBase (I : Instruction) (cpu : SYCPUState) : BitVec 64 :=
  if I.implicitReads.any fun P => P.1 = ⟨.gs, .full⟩ then
    cpu.readConcreteValue ⟨.gs, .full⟩ 8 0
  else 0

/-- The address of a memory operand. -/
def Operand.address (O : Operand) (I : Instruction) (cpu : SYCPUState) : Nat :=
  (O.value.eval cpu + I.gsBase cpu).toNat

/-- A summand of a symbolic sum and its expression. -/
inductive Summand (vm : VMState) : OperandAST → Expr → Prop where
  | register (r : MachRegister) (size : Nat) (henc : (regRead r size false).Encoded)
      (hsym : vm.isSYReg r = true) :
      Summand vm (.register r size) (vm.cpu.valueRead (regRead r size false)).expr
  | immediate (v : BitVec 64) (size : Nat) :
      Summand vm (.immediate v size) (Expr.constExpr v size)

/-- What a parser finds out about an operand, in a state and with the operand
read as an expression or, with `true`, as a list. -/
inductive Parsed (vm : VMState) (I : Instruction) (O : Operand) : Bool → OprndInfo → Prop where
  | imm (b : Bool) (hderef : O.deref = none) (hread : O.isRead = true) (hset : O.readSet = []) :
      Parsed vm I O b ⟨.imm (O.value.eval vm.cpu), .rd, O.size, false, false, 0, []⟩
  | regCon (b : Bool) (r : MachRegister) (hderef : O.deref = none) (hread : O.isRead = true)
      (hcon : ∀ P ∈ O.readSet, vm.isSYReg P.1 = false) (hr : O.readSet.head?.map (·.1) = some r) :
      Parsed vm I O b ⟨.regCon r (O.value.eval vm.cpu), .rd, O.size, false, false, 0, []⟩
  | regSym (r : MachRegister) (size : Nat) (hderef : O.deref = none) (hread : O.isRead = true)
      (hval : O.value = .register r size) (henc : (regRead r size false).Encoded)
      (hsym : vm.isSYReg r = true) :
      Parsed vm I O false ⟨.regSym (some r) (vm.cpu.valueRead (regRead r size false)).expr, .rd,
        O.size, true, false, 0, []⟩
  | sum (x y : OperandAST) (size : Nat) (e1 e2 : Expr) (hderef : O.deref = none)
      (hread : O.isRead = true) (hval : O.value = .add x y size)
      (hsym : ∃ P ∈ O.readSet, vm.isSYReg P.1 = true) (hx : Summand vm x e1)
      (hy : Summand vm y e2) :
      Parsed vm I O false ⟨.regSym none (Expr.binExpr .add e1 e2), .rd, O.size, true, false, 0, []⟩
  | regList (r : MachRegister) (size : Nat) (hderef : O.deref = none) (hread : O.isRead = true)
      (hval : O.value = .register r size) (henc : (regRead r size true).Encoded)
      (hsym : vm.isSYReg r = true) :
      Parsed vm I O true ⟨.regSym (some r) .null, .rd, O.size, true, true,
        (vm.cpu.valueRead (regRead r size true)).i64, vm.cpu.regWindow (regRead r size true)⟩
  | regWritten (b : Bool) (opty : OperandType) (symb : Bool) (hderef : O.deref = none)
      (hread : O.isRead = false) : Parsed vm I O b ⟨opty, .wr, O.size, symb, false, 0, []⟩
  | memWritten (b : Bool) (hread : O.isRead = false) :
      Parsed vm I O b ⟨.memCell (O.address I vm.cpu), .wr, O.size, false, false, 0, []⟩
  | memCon (b : Bool) (accs : OperandAccs) (haccs : accs.reads = true)
      (hderef : O.deref.isSome = true) (hread : O.isRead = true)
      (hr : AccessRange (O.address I vm.cpu) O.size)
      (hcon : vm.mem.isSYMemoryCell (O.address I vm.cpu) O.size = false) :
      Parsed vm I O b ⟨.memCellCon (O.address I vm.cpu)
        (vm.mem.valueRead (memRead (O.address I vm.cpu) O.size b)).i64, accs, O.size, false, false,
        0, []⟩
  | memSym (accs : OperandAccs) (haccs : accs.reads = true) (hderef : O.deref.isSome = true)
      (hread : O.isRead = true) (hr : AccessRange (O.address I vm.cpu) O.size)
      (hsym : vm.mem.isSYMemoryCell (O.address I vm.cpu) O.size = true) :
      Parsed vm I O false ⟨.memCellSym (O.address I vm.cpu)
        (vm.mem.valueRead (memRead (O.address I vm.cpu) O.size false)).expr, accs, O.size, true,
        false, 0, []⟩
  | memList (accs : OperandAccs) (haccs : accs.reads = true) (hderef : O.deref.isSome = true)
      (hread : O.isRead = true) (hr : AccessRange (O.address I vm.cpu) O.size)
      (hsym : vm.mem.isSYMemoryCell (O.address I vm.cpu) O.size = true) :
      Parsed vm I O true ⟨.memCellSym (O.address I vm.cpu) .null, accs, O.size, true, true,
        (vm.mem.valueRead (memRead (O.address I vm.cpu) O.size true)).i64,
        vm.mem.memWindow (O.address I vm.cpu) O.size⟩

/-! ## Reads in a state with the same cells -/

section Same

variable {vm vm' : VMState} (h : SameCells vm vm')

include h

/-- The marks of a register are those of the state before. -/
theorem SameCells.isSYReg (r : MachRegister) : vm'.isSYReg r = vm.isSYReg r := by
  rw [VMState.isSYReg, SYCPUState.isSYReg, h.symBitmap]
  rfl

/-- So is its concrete value, in the low bytes of any union. -/
theorem SameCells.readConcreteValue (r : MachRegister) (size : Nat) (u : BitVec 64) :
    vm'.cpu.readConcreteValue r size u = vm.cpu.readConcreteValue r size u := by
  rw [SYCPUState.readConcreteValue, SYCPUState.readConcreteValue, h.ptRegs]

/-- So is what a read of it returns. -/
theorem SameCells.valueRead (V : RegValue) : vm'.cpu.valueRead V = vm.cpu.valueRead V := by
  have hsym : vm'.cpu.isSYReg V.indx = vm.cpu.isSYReg V.indx := h.isSYReg V.indx
  rw [SYCPUState.valueRead, SYCPUState.valueRead, h.readConcreteValue, hsym,
    SYCPUState.regWindow, h.regCells]
  rfl

/-- The marks of a range are those of the state before. -/
theorem SameCells.isSYMemoryCell (addr size : Nat) :
    vm'.mem.isSYMemoryCell addr size = vm.mem.isSYMemoryCell addr size := by
  rw [SYMemState.isSYMemoryCell, h.bitmap]
  rfl

/-- So is what a read of it returns. -/
theorem SameCells.memValueRead (V : MemValue) : vm'.mem.valueRead V = vm.mem.valueRead V := by
  rw [SYMemState.valueRead, SYMemState.valueRead, h.isSYMemoryCell, h.concrete,
    SYMemState.memWindow, h.storedCells]
  rfl

/-- So is the value of an address. -/
theorem SameCells.eval (a : OperandAST) : a.eval vm'.cpu = a.eval vm.cpu := by
  induction a with
  | register r size =>
    rw [OperandAST.eval, OperandAST.eval, OperandAST.registerResult, h.readConcreteValue]
    rfl
  | immediate v size => rfl
  | add x y size ihx ihy => rw [OperandAST.eval, OperandAST.eval, ihx, ihy]
  | multiply x y size ihx ihy => rw [OperandAST.eval, OperandAST.eval, ihx, ihy]

/-- So is the base of `gs`. -/
theorem SameCells.gsBase (I : Instruction) : I.gsBase vm'.cpu = I.gsBase vm.cpu := by
  rw [Instruction.gsBase, Instruction.gsBase, h.readConcreteValue]

/-- So is the address of an operand. -/
theorem SameCells.address (I : Instruction) (O : Operand) :
    O.address I vm'.cpu = O.address I vm.cpu := by
  rw [Operand.address, Operand.address, h.eval, h.gsBase]

/-- What a parser finds depends on what can be seen of the state only. -/
theorem SameCells.summand {a : OperandAST} {e : Expr} (hs : Summand vm' a e) :
    Summand vm a e := by
  cases hs with
  | register r size henc hsym =>
    rw [h.valueRead]
    exact .register r size henc (h.isSYReg r ▸ hsym)
  | immediate v size => exact .immediate v size

/-- An operand that was parsed later says the same of the state before. This is why the
operands can be parsed one after the other. -/
theorem SameCells.parsed {I : Instruction} {O : Operand} {b : Bool} {oi : OprndInfo}
    (hp : Parsed vm' I O b oi) : Parsed vm I O b oi := by
  have haddr := h.address I O
  -- Each form asks for the mode, for marks and for values read. All of these are the same.
  cases hp with
  | imm _ hderef hread hset =>
    rw [h.eval]
    exact .imm b hderef hread hset
  | regCon _ r hderef hread hcon hr =>
    rw [h.eval]
    exact .regCon b r hderef hread (fun P hP => h.isSYReg P.1 ▸ hcon P hP) hr
  | regSym r size hderef hread hval henc hsym =>
    rw [h.valueRead]
    exact .regSym r size hderef hread hval henc (h.isSYReg r ▸ hsym)
  | sum x y size e1 e2 hderef hread hval hsym hx hy =>
    obtain ⟨P, hP, hPsym⟩ := hsym
    rw [h.isSYReg] at hPsym
    exact .sum x y size e1 e2 hderef hread hval ⟨P, hP, hPsym⟩ (h.summand hx) (h.summand hy)
  | regList r size hderef hread hval henc hsym =>
    rw [h.valueRead, SYCPUState.regWindow, h.regCells]
    exact .regList r size hderef hread hval henc (h.isSYReg r ▸ hsym)
  | regWritten _ opty symb hderef hread => exact .regWritten b opty symb hderef hread
  | memWritten _ hread =>
    rw [haddr]
    exact .memWritten b hread
  | memCon _ accs haccs hderef hread hr hcon =>
    rw [haddr, h.isSYMemoryCell] at hcon
    rw [haddr] at hr
    rw [haddr, h.memValueRead]
    exact .memCon b accs haccs hderef hread hr hcon
  | memSym accs haccs hderef hread hr hsym =>
    rw [haddr, h.isSYMemoryCell] at hsym
    rw [haddr] at hr
    rw [haddr, h.memValueRead]
    exact .memSym accs haccs hderef hread hr hsym
  | memList accs haccs hderef hread hr hsym =>
    rw [haddr, h.isSYMemoryCell] at hsym
    rw [haddr] at hr
    rw [haddr, h.memValueRead, SYMemState.memWindow, h.storedCells]
    exact .memList accs haccs hderef hread hr hsym

end Same

/-! ## The parsers -/

/-- Whether a register value is symbolic is what the bitmap says. -/
theorem SYCPUState.bsym_valueRead (st : SYCPUState) (V : RegValue) :
    (st.valueRead V).bsym = st.isSYReg V.indx := by
  rw [SYCPUState.valueRead]
  cases st.isSYReg V.indx with
  | false => rfl
  | true => cases V.isSymList <;> rfl

/-- Whatever is read, the concrete word is read as well. -/
theorem SYCPUState.i64_valueRead (st : SYCPUState) (V : RegValue) :
    (st.valueRead V).i64 = st.readConcreteValue V.indx V.size V.i64 := by
  rw [SYCPUState.valueRead]
  cases st.isSYReg V.indx with
  | false => rfl
  | true => cases V.isSymList <;> rfl

/-- A read reports a symbolic value where a byte is marked. -/
theorem SYMemState.bsym_valueRead (st : SYMemState) (V : MemValue) :
    (st.valueRead V).bsym = st.isSYMemoryCell V.addr V.size := by
  rw [SYMemState.valueRead]
  cases st.isSYMemoryCell V.addr V.size with
  | false => rfl
  | true => cases V.isSymList <;> rfl

/-- The steps of a `do` block that did not fail. -/
theorem bind_some {α β : Type} {x : Option α} {f : α → Option β} {b : β}
    (h : (x >>= f) = some b) : ∃ a, x = some a ∧ f a = some b :=
  Option.bind_eq_some_iff.1 h

/-- An operand that is accessed, but not in memory, is no reference to it. -/
theorem Operand.deref_eq_none {O : Operand} (hreads : O.readsMemory = false)
    (hwrites : O.writesMemory = false) (h : O.isRead = true ∨ O.isWritten = true) :
    O.deref = none := by
  cases hd : O.deref with
  | none => rfl
  | some n =>
    rw [Operand.readsMemory, hd] at hreads
    rw [Operand.writesMemory, hd] at hwrites
    simp only [Option.isSome_some, Bool.true_and] at hreads hwrites
    rw [hreads, hwrites] at h
    simp at h

namespace VMShape

variable {vm vm' : VMState} {I : Instruction} {O : Operand} {oi : OprndInfo}

/-- The read of a register as an expression: it has an encoding, the value is that of the
register, and the machine looks the same behind it. -/
theorem readRegisterExpr (h : VMShape vm) {r : MachRegister} {size : Nat} {W : RegValue}
    (hread : vm.readRegisterExpr r size = some (W, vm')) :
    VMShape vm' ∧ SameCells vm vm' ∧ (regRead r size false).Encoded ∧
      W = vm.cpu.valueRead (regRead r size false) :=
  h.readRegister (asserted_eq_some.1 hread)

/-- The same of a read as a list. -/
theorem readRegisterList (h : VMShape vm) {r : MachRegister} {size : Nat} {W : RegValue}
    (hread : vm.readRegisterList r size = some (W, vm')) :
    VMShape vm' ∧ SameCells vm vm' ∧ (regRead r size true).Encoded ∧
      W = vm.cpu.valueRead (regRead r size true) :=
  h.readRegister (asserted_eq_some.1 hread)

/-- The registers of an address are read one by one. -/
theorem setReadRegs (h : VMShape vm) {regs : List (MachRegister × Nat)}
    (hset : vm.setReadRegs regs = some vm') : VMShape vm' ∧ SameCells vm vm' := by
  induction regs generalizing vm with
  | nil =>
    obtain rfl := Option.some.inj hset
    exact ⟨h, SameCells.refl vm⟩
  | cons P regs ih =>
    obtain ⟨⟨W, vm₁⟩, hread, hrest⟩ := bind_some hset
    obtain ⟨h₁, hsame, -, -⟩ := h.readRegisterExpr hread
    obtain ⟨h', hsame'⟩ := ih h₁ hrest
    exact ⟨h', hsame.trans hsame'⟩

/-- The base of `gs` is read where the instruction uses it. -/
theorem isUseGS (h : VMShape vm) {base : BitVec 64} (hgs : vm.isUseGS I = some (base, vm')) :
    VMShape vm' ∧ SameCells vm vm' ∧ base = I.gsBase vm.cpu := by
  rw [VMState.isUseGS] at hgs
  rw [Instruction.gsBase]
  split at hgs
  · rename_i hany
    obtain ⟨⟨W, vm₁⟩, hread, hout⟩ := bind_some hgs
    obtain ⟨h₁, hsame, -, rfl⟩ := h.readRegisterExpr hread
    obtain ⟨rfl, rfl⟩ := Prod.mk.inj (Option.some.inj hout)
    rw [if_pos hany, SYCPUState.i64_valueRead]
    exact ⟨h₁, hsame, rfl⟩
  · rename_i hany
    obtain ⟨rfl, rfl⟩ := Prod.mk.inj (Option.some.inj hgs)
    rw [if_neg hany]
    exact ⟨h, SameCells.refl vm, rfl⟩

/-- When the loop finds no symbolic register, there is none. -/
theorem findSymReg (h : VMShape vm) {regs : List (MachRegister × Nat)} {found : Bool}
    (hfind : vm.findSymReg regs = some (found, vm')) :
    VMShape vm' ∧ SameCells vm vm' ∧
      (found = false → ∀ P ∈ regs, vm.isSYReg P.1 = false) ∧
      (found = true → ∃ P ∈ regs, vm.isSYReg P.1 = true) := by
  -- The induction is on the registers. The search ends at the first that is symbolic.
  induction regs generalizing vm with
  | nil =>
    obtain ⟨rfl, rfl⟩ := Prod.mk.inj (Option.some.inj hfind)
    exact ⟨h, SameCells.refl vm, by simp, by simp⟩
  | cons P regs ih =>
    obtain ⟨⟨W, vm₁⟩, hread, hrest⟩ := bind_some hfind
    obtain ⟨h₁, hsame, -, rfl⟩ := h.readRegisterExpr hread
    have hbsym : (vm.cpu.valueRead (regRead P.1 P.2 false)).bsym = vm.isSYReg P.1 :=
      SYCPUState.bsym_valueRead _ _
    simp only [hbsym] at hrest
    split at hrest
    · rename_i hsym
      obtain ⟨rfl, rfl⟩ := Prod.mk.inj (Option.some.inj hrest)
      exact ⟨h₁, hsame, by simp, fun _ => ⟨P, by simp, hsym⟩⟩
    · rename_i hsym
      obtain ⟨h', hsame', hnone, hsome⟩ := ih h₁ hrest
      refine ⟨h', hsame.trans hsame', ?_, ?_⟩
      · intro hf Q hQ
        rcases List.mem_cons.1 hQ with rfl | hQ
        · exact Bool.eq_false_iff.2 hsym
        · rw [← hsame.isSYReg]
          exact hnone hf Q hQ
      · intro hf
        obtain ⟨Q, hQ, hQsym⟩ := hsome hf
        rw [hsame.isSYReg] at hQsym
        exact ⟨Q, by simp [hQ], hQsym⟩

/-- The expression of a sum, and which registers it was made of. -/
theorem sumExpr (h : VMShape vm) {a : OperandAST} {e : Expr}
    (hsum : vm.sumExpr a = some (e, vm')) : VMShape vm' ∧ SameCells vm vm' ∧ Summand vm a e := by
  cases a with
  | register r size =>
    obtain ⟨⟨W, vm₁⟩, hread, hrest⟩ := bind_some hsum
    obtain ⟨h₁, hsame, henc, rfl⟩ := h.readRegisterExpr hread
    have hbsym : (vm.cpu.valueRead (regRead r size false)).bsym = vm.isSYReg r :=
      SYCPUState.bsym_valueRead _ _
    simp only [hbsym] at hrest
    split at hrest
    · rename_i hsym
      obtain ⟨rfl, rfl⟩ := Prod.mk.inj (Option.some.inj hrest)
      exact ⟨h₁, hsame, .register r size henc hsym⟩
    · simp at hrest
  | immediate v size =>
    obtain ⟨rfl, rfl⟩ := Prod.mk.inj (Option.some.inj hsum)
    exact ⟨h, SameCells.refl vm, .immediate v size⟩
  | add x y size => simp [VMState.sumExpr] at hsum
  | multiply x y size => simp [VMState.sumExpr] at hsum

/-- An operand that is no memory: an immediate, a register or a sum. -/
theorem mayOperandUseSymbolXX (h : VMShape vm) (hreads : O.readsMemory = false)
    (hwrites : O.writesMemory = false) (hp : vm.mayOperandUseSymbolXX O = some (oi, vm')) :
    VMShape vm' ∧ SameCells vm vm' ∧ Parsed vm I O false oi := by
  rw [VMState.mayOperandUseSymbolXX] at hp
  split at hp
  · rename_i hread
    have hderef := O.deref_eq_none hreads hwrites (Or.inl hread)
    split at hp
    · rename_i hset
      obtain ⟨rfl, rfl⟩ := Prod.mk.inj (Option.some.inj hp)
      exact ⟨h, SameCells.refl vm, .imm false hderef hread hset⟩
    · rename_i P regs hset
      obtain ⟨⟨symReg, vm₁⟩, hfind, hrest⟩ := bind_some hp
      obtain ⟨h₁, hsame, hnone, hsome⟩ := h.findSymReg hfind
      -- With a symbolic register only two shapes of an operand are accepted: the register, and a
      -- sum with one.
      cases symReg with
      | false =>
        obtain ⟨rfl, rfl⟩ := Prod.mk.inj (Option.some.inj hrest)
        refine ⟨h₁, hsame, ?_⟩
        rw [hsame.eval]
        exact .regCon false P.1 hderef hread (hnone rfl) (by rw [hset]; rfl)
      | true =>
        simp only [if_true] at hrest
        split at hrest
        · rename_i r size hval
          obtain ⟨⟨W, vm₂⟩, hreg, hout⟩ := bind_some hrest
          obtain ⟨h₂, hsame₂, henc, rfl⟩ := h₁.readRegisterExpr hreg
          obtain ⟨rfl, rfl⟩ := Prod.mk.inj (Option.some.inj hout)
          refine ⟨h₂, hsame.trans hsame₂, ?_⟩
          have hr : vm.isSYReg r = true := by
            obtain ⟨Q, hQ, hQsym⟩ := hsome rfl
            have hQr : Q = (r, size) := by
              rw [Operand.readSet, hderef, hval] at hQ
              simpa [hread] using hQ
            rw [hQr] at hQsym
            exact hQsym
          rw [hsame.valueRead]
          exact .regSym r size hderef hread hval henc hr
        · rename_i x y size hval
          obtain ⟨⟨e1, vm₂⟩, hx, hrest⟩ := bind_some hrest
          obtain ⟨h₂, hsame₂, hsx⟩ := h₁.sumExpr hx
          obtain ⟨⟨e2, vm₃⟩, hy, hout⟩ := bind_some hrest
          obtain ⟨h₃, hsame₃, hsy⟩ := h₂.sumExpr hy
          obtain ⟨rfl, rfl⟩ := Prod.mk.inj (Option.some.inj hout)
          refine ⟨h₃, (hsame.trans hsame₂).trans hsame₃, ?_⟩
          exact .sum x y size e1 e2 hderef hread hval (hsome rfl) (hsame.summand hsx)
            ((hsame.trans hsame₂).summand hsy)
        · simp at hrest
        · simp at hrest
  · rename_i hread
    have hread : O.isRead = false := Bool.eq_false_iff.2 hread
    split at hp
    · rename_i hwritten
      have hderef := O.deref_eq_none hreads hwrites (Or.inr hwritten)
      split at hp
      · -- only whether the register holds a symbol decides which way it is recorded
        obtain ⟨symb, -, hp⟩ := bind_some hp
        split at hp
        · obtain ⟨rfl, rfl⟩ := Prod.mk.inj (Option.some.inj hp)
          exact ⟨h, SameCells.refl vm, .regWritten false _ _ hderef hread⟩
        · obtain ⟨rfl, rfl⟩ := Prod.mk.inj (Option.some.inj hp)
          exact ⟨h, SameCells.refl vm, .regWritten false _ _ hderef hread⟩
      · simp at hp
    · simp at hp

/-- Such an operand where the list form is asked for. A register is read as a list then. -/
theorem parseOperandXX (h : VMShape vm) (hreads : O.readsMemory = false)
    (hwrites : O.writesMemory = false) (hp : vm.parseOperandXX O = some (oi, vm')) :
    VMShape vm' ∧ SameCells vm vm' ∧ Parsed vm I O true oi := by
  rw [VMState.parseOperandXX] at hp
  split at hp
  · rename_i hread
    have hderef := O.deref_eq_none hreads hwrites (Or.inl hread)
    split at hp
    · rename_i hset
      obtain ⟨rfl, rfl⟩ := Prod.mk.inj (Option.some.inj hp)
      exact ⟨h, SameCells.refl vm, .imm true hderef hread hset⟩
    -- A single register is read as a list. Other sets of registers are asserted not to occur.
    · rename_i r size hset
      obtain ⟨⟨W, vm₁⟩, hreg, hrest⟩ := bind_some hp
      obtain ⟨h₁, hsame, henc, rfl⟩ := h.readRegisterList hreg
      have hbsym : (vm.cpu.valueRead (regRead r size true)).bsym = vm.isSYReg r :=
        SYCPUState.bsym_valueRead _ _
      simp only [hbsym] at hrest
      split at hrest
      · rename_i hsym
        split at hrest
        · rename_i r' size' hval
          have hr : (r', size') = (r, size) := by
            rw [Operand.readSet, hderef, hval] at hset
            simpa [hread] using hset
          obtain ⟨rfl, rfl⟩ := Prod.mk.inj hr
          obtain ⟨rfl, rfl⟩ := Prod.mk.inj (Option.some.inj hrest)
          refine ⟨h₁, hsame, ?_⟩
          have hcells : (vm.cpu.valueRead (regRead r' size' true)).symcellPtr
              = vm.cpu.regWindow (regRead r' size' true) := by
            have hcpu : vm.cpu.isSYReg (regRead r' size' true).indx = true := hsym
            rw [SYCPUState.valueRead, hcpu]
            rfl
          rw [hcells]
          exact .regList r' size' hderef hread hval henc hsym
        · simp at hrest
      · rename_i hsym
        obtain ⟨rfl, rfl⟩ := Prod.mk.inj (Option.some.inj hrest)
        refine ⟨h₁, hsame, ?_⟩
        rw [hsame.eval]
        refine .regCon true r hderef hread ?_ (by rw [hset]; rfl)
        intro P hP
        rw [hset, List.mem_singleton] at hP
        rw [hP]
        exact Bool.eq_false_iff.2 hsym
    · simp at hp
  · rename_i hread
    have hread : O.isRead = false := Bool.eq_false_iff.2 hread
    split at hp
    · rename_i hwritten
      have hderef := O.deref_eq_none hreads hwrites (Or.inr hwritten)
      split at hp
      · obtain ⟨symb, -, hp⟩ := bind_some hp
        obtain ⟨rfl, rfl⟩ := Prod.mk.inj (Option.some.inj hp)
        exact ⟨h, SameCells.refl vm, .regWritten true _ _ hderef hread⟩
      · simp at hp
    · simp at hp

/-- The address of a memory operand. A symbolic register in it fails an assertion. -/
theorem memConaddr (h : VMShape vm) {direct : Bool} {addr : Nat}
    (hp : vm.memConaddr I O direct = some (addr, vm')) :
    VMShape vm' ∧ SameCells vm vm' ∧ addr = O.address I vm.cpu := by
  obtain ⟨⟨base, vm₁⟩, hgs, hrest⟩ := bind_some hp
  obtain ⟨h₁, hsame, rfl⟩ := h.isUseGS hgs
  simp only at hrest
  split at hrest
  · simp at hrest
  · split at hrest
    · simp at hrest
    · obtain ⟨rfl, rfl⟩ := Prod.mk.inj (Option.some.inj hrest)
      rw [Operand.address, hsame.eval]
      exact ⟨h₁, hsame, rfl⟩

/-- An address that is found has a register in it, or the base of `gs` when it
is asked for. -/
theorem memConaddr_found (h : VMShape vm) {direct : Bool} {addr : Nat}
    (hp : vm.memConaddr I O direct = some (addr, vm')) :
    O.readSet ≠ [] ∨ direct = true ∧ I.gsBase vm.cpu ≠ 0 := by
  obtain ⟨⟨base, vm₁⟩, hgs, hrest⟩ := bind_some hp
  obtain ⟨-, -, rfl⟩ := h.isUseGS hgs
  simp only at hrest
  split at hrest
  · simp at hrest
  · rename_i hset
    by_cases hnil : O.readSet = []
    · exact Or.inr (not_not.1 fun hno => hset ⟨hnil, hno⟩)
    · exact Or.inl hnil

/-- The memory behind the address, where the operand is read. -/
theorem parseMemCell (h : VMShape vm) {b : Bool} {accs : OperandAccs} (haccs : accs.reads = true)
    (hderef : O.deref.isSome = true) (hread : O.isRead = true)
    (hwidth : isAccessSize O.size = true)
    (hp : vm.parseMemCell b (O.address I vm.cpu) O.size accs = some (oi, vm')) :
    VMShape vm' ∧ SameCells vm vm' ∧ Parsed vm I O b oi := by
  obtain ⟨⟨W, vm₁⟩, hmem, hrest⟩ := bind_some hp
  obtain ⟨h₁, hsame, hr, rfl⟩ := h.readMemory hwidth (asserted_eq_some.1 hmem)
  have hbsym := SYMemState.bsym_valueRead vm.mem (memRead (O.address I vm.cpu) O.size b)
  have hbsym' : (vm.mem.valueRead ⟨O.address I vm.cpu, O.size, false, b, 0, .null, []⟩).bsym
      = vm.mem.isSYMemoryCell (O.address I vm.cpu) O.size := hbsym
  simp only [hbsym'] at hrest
  split at hrest
  · rename_i hsym
    -- The caller asks for an expression or for a list.
    cases b with
    | false =>
      obtain ⟨rfl, rfl⟩ := Prod.mk.inj (Option.some.inj hrest)
      exact ⟨h₁, hsame, .memSym accs haccs hderef hread hr hsym⟩
    | true =>
      obtain ⟨rfl, rfl⟩ := Prod.mk.inj (Option.some.inj hrest)
      refine ⟨h₁, hsame, ?_⟩
      have hcells : (vm.mem.valueRead (memRead (O.address I vm.cpu) O.size true)).symcellPtr
          = vm.mem.memWindow (O.address I vm.cpu) O.size := by
        have hcpu : vm.mem.isSYMemoryCell (memRead (O.address I vm.cpu) O.size true).addr
            (memRead (O.address I vm.cpu) O.size true).size = true := hsym
        rw [SYMemState.valueRead, hcpu]
        rfl
      have hlist := Parsed.memList accs haccs hderef hread hr hsym
      rw [← hcells] at hlist
      exact hlist
  · rename_i hsym
    obtain ⟨rfl, rfl⟩ := Prod.mk.inj (Option.some.inj hrest)
    exact ⟨h₁, hsame, .memCon b accs haccs hderef hread hr (Bool.eq_false_iff.2 hsym)⟩

/-- One operand, parsed by either parser. -/
theorem parseOperand (h : VMShape vm) {b : Bool} (hwidth : isAccessSize O.size = true)
    (hp : vm.parseOperand b I O = some (oi, vm')) :
    VMShape vm' ∧ SameCells vm vm' ∧ Parsed vm I O b oi := by
  -- a memory operand that is read, for reading alone or for writing too
  have hread : ∀ {direct : Bool} {accs : OperandAccs}, O.readsMemory = true →
      accs.reads = true →
      ((vm.memConaddr I O direct) >>= fun p => p.2.parseMemCell b p.1 O.size accs)
        = some (oi, vm') →
      VMShape vm' ∧ SameCells vm vm' ∧ Parsed vm I O b oi := by
    intro direct accs hreads haccs hp
    obtain ⟨hderef, hisRead⟩ := Bool.and_eq_true_iff.1 hreads
    obtain ⟨⟨addr, vm₁⟩, haddr, hrest⟩ := bind_some hp
    obtain ⟨h₁, hsame, rfl⟩ := h.memConaddr haddr
    simp only [← hsame.address] at hrest
    obtain ⟨h₂, hsame₂, hparsed⟩ := h₁.parseMemCell haccs hderef hisRead hwidth hrest
    exact ⟨h₂, hsame.trans hsame₂, hsame.parsed hparsed⟩
  rw [VMState.parseOperand] at hp
  -- The four ways of the source, by whether memory is read and written.
  cases hreads : O.readsMemory with
  | true =>
    cases hwrites : O.writesMemory with
    | false =>
      rw [hreads, hwrites] at hp
      exact hread hreads rfl hp
    | true =>
      rw [hreads, hwrites] at hp
      exact hread hreads rfl hp
  | false =>
    cases hwrites : O.writesMemory with
    | true =>
      have hisRead : O.isRead = false := by
        rw [Operand.readsMemory, (Bool.and_eq_true_iff.1 hwrites).1] at hreads
        exact hreads
      rw [hreads, hwrites] at hp
      obtain ⟨⟨addr, vm₁⟩, haddr, hrest⟩ := bind_some hp
      obtain ⟨h₁, hsame, rfl⟩ := h.memConaddr haddr
      obtain ⟨rfl, rfl⟩ := Prod.mk.inj (Option.some.inj hrest)
      exact ⟨h₁, hsame, .memWritten b hisRead⟩
    | false =>
      rw [hreads, hwrites] at hp
      cases b with
      | false => exact h.mayOperandUseSymbolXX hreads hwrites hp
      | true => exact h.parseOperandXX hreads hwrites hp

/-- The operands one after the other, each as the parser of its access leaves it. By
induction on the list; `SameCells.parsed` carries what was parsed over the later reads. -/
theorem parseEach (h : VMShape vm) {b : Bool} {Os : List Operand} {vecOI : List OprndInfo}
    (hwidth : ∀ O ∈ Os, isAccessSize O.size = true)
    (hp : vm.parseEach b I Os = some (vecOI, vm')) :
    VMShape vm' ∧ SameCells vm vm' ∧ List.Forall₂ (fun O oi => Parsed vm I O b oi) Os vecOI := by
  induction Os generalizing vm vecOI with
  | nil =>
    obtain ⟨rfl, rfl⟩ := Prod.mk.inj (Option.some.inj hp)
    exact ⟨h, SameCells.refl vm, .nil⟩
  | cons O Os ih =>
    obtain ⟨⟨oi, vm₁⟩, hfirst, hrest⟩ := bind_some hp
    obtain ⟨h₁, hsame, hparsed⟩ := h.parseOperand (hwidth O (by simp)) hfirst
    obtain ⟨⟨ois, vm₂⟩, htail, hout⟩ := bind_some hrest
    obtain ⟨rfl, rfl⟩ := Prod.mk.inj (Option.some.inj hout)
    obtain ⟨h₂, hsame₂, hall⟩ := ih h₁ (fun O' hO' => hwidth O' (by simp [hO'])) htail
    exact ⟨h₂, hsame.trans hsame₂,
      .cons hparsed (hall.imp fun _ _ hrel => hsame.parsed hrel)⟩

/-- All operands of an instruction: what is found is about the state before the
parse, which the parse does not change. -/
theorem parseOperands (h : VMShape vm) {b : Bool} {vecOI : List OprndInfo}
    (hwidth : ∀ O ∈ I.operands, isAccessSize O.size = true)
    (hp : vm.parseOperands b I = some (vecOI, vm')) :
    VMShape vm' ∧ SameCells vm vm' ∧
      List.Forall₂ (fun O oi => Parsed vm I O b oi) I.operands vecOI := by
  obtain ⟨vm₁, hset, hrest⟩ := bind_some hp
  obtain ⟨h₁, hsame⟩ := h.setReadRegs hset
  obtain ⟨h₂, hsame₂, hall⟩ := h₁.parseEach hwidth hrest
  exact ⟨h₂, hsame.trans hsame₂, hall.imp fun _ _ hrel => hsame.parsed hrel⟩

/-! ## Reads that succeed -/

/-- The other way round: a register that has an encoding can be read. -/
theorem exists_readRegister (h : VMShape vm) {r : MachRegister} {n : Nat}
    (henc : dyinstEncoding r = some n) (b : Bool) :
    ∃ vm', vm.readRegister (regRead r n b) = some (true, vm.cpu.valueRead (regRead r n b), vm') ∧
      VMShape vm' ∧ SameCells vm vm' := by
  obtain ⟨m, hread, -, -⟩ := (h.cpu.word r.offt).read (V := regRead r n b) henc
  have hvm : vm.readRegister (regRead r n b)
      = some (true, vm.cpu.valueRead (regRead r n b),
        { vm with cpu := vm.cpu.setSymList r.offt m }) := by
    rw [VMState.readRegister, hread]
    rfl
  obtain ⟨hshape, hsame, -, -⟩ := h.readRegister hvm
  exact ⟨_, hvm, hshape, hsame⟩

/-- So can it as an expression with the result asserted. -/
theorem exists_readRegisterExpr (h : VMShape vm) {r : MachRegister} {n : Nat}
    (henc : dyinstEncoding r = some n) :
    ∃ vm', vm.readRegisterExpr r n = some (vm.cpu.valueRead (regRead r n false), vm') ∧
      VMShape vm' ∧ SameCells vm vm' := by
  obtain ⟨vm', hread, hshape, hsame⟩ := h.exists_readRegister henc false
  exact ⟨vm', asserted_eq_some.2 hread, hshape, hsame⟩

/-- So can the registers of an address. -/
theorem exists_setReadRegs (h : VMShape vm) {regs : List (MachRegister × Nat)}
    (henc : ∀ P ∈ regs, dyinstEncoding P.1 = some P.2) :
    ∃ vm', vm.setReadRegs regs = some vm' ∧ VMShape vm' ∧ SameCells vm vm' := by
  induction regs generalizing vm with
  | nil => exact ⟨vm, rfl, h, SameCells.refl vm⟩
  | cons P regs ih =>
    obtain ⟨vm₁, hread, hshape, hsame⟩ := h.exists_readRegisterExpr (henc P (by simp))
    obtain ⟨vm', hrest, hshape', hsame'⟩ := ih hshape fun Q hQ => henc Q (by simp [hQ])
    exact ⟨vm', by rw [VMState.setReadRegs, hread]; exact hrest, hshape', hsame.trans hsame'⟩

/-- The question for `gs` always returns. -/
theorem exists_isUseGS (h : VMShape vm) (I : Instruction) :
    ∃ vm', vm.isUseGS I = some (I.gsBase vm.cpu, vm') ∧ VMShape vm' ∧ SameCells vm vm' := by
  rw [VMState.isUseGS, Instruction.gsBase]
  split
  · obtain ⟨vm', hread, hshape, hsame⟩ := h.exists_readRegisterExpr
      (show dyinstEncoding ⟨.gs, .full⟩ = some 8 from rfl)
    refine ⟨vm', ?_, hshape, hsame⟩
    rw [hread]
    show some ((vm.cpu.valueRead (regRead ⟨.gs, .full⟩ 8 false)).i64, vm') = _
    rw [SYCPUState.i64_valueRead]
    rfl
  · exact ⟨vm, rfl, h, SameCells.refl vm⟩

/-- A concrete address is found. -/
theorem exists_memConaddr (h : VMShape vm) {I : Instruction} {O : Operand} {direct : Bool}
    (haddr : O.readSet ≠ [] ∨ direct = true ∧ I.gsBase vm.cpu ≠ 0)
    (hcon : ∀ P ∈ O.readSet, vm.isSYReg P.1 = false) :
    ∃ vm', vm.memConaddr I O direct = some (O.address I vm.cpu, vm') ∧ VMShape vm' ∧
      SameCells vm vm' := by
  obtain ⟨vm', hgs, hshape, hsame⟩ := h.exists_isUseGS I
  refine ⟨vm', ?_, hshape, hsame⟩
  have hany : (O.readSet.any fun P => vm'.isSYReg P.1) = false := by
    rw [List.any_eq_false]
    intro P hP
    rw [hsame.isSYReg, hcon P hP]
    exact Bool.false_ne_true
  have hset : ¬ (O.readSet = [] ∧ ¬ (direct = true ∧ I.gsBase vm.cpu ≠ 0)) := by
    rintro ⟨hnil, hzero⟩
    exact haddr.elim (fun hne => hne hnil) hzero
  simp only [VMState.memConaddr, hgs, Option.bind_eq_bind, Option.bind_some, hset, hany,
    Bool.false_eq_true, if_false]
  rw [Operand.address, hsame.eval]
  rfl

/-- Symbolic memory of one chunk can be read. -/
theorem exists_readMemory (h : VMShape vm) {addr n : Nat} (hr : AccessRange addr n)
    (hsym : vm.mem.isSYMemoryCell addr n = true) (hcross : SYMemState.crossesChunk addr n = false)
    (b : Bool) : ∃ W vm', vm.readMemory (memRead addr n b) = some (true, W, vm') := by
  have hle := hr.le
  have hwidth := hr.width
  simp only [isAccessSize, Bool.or_eq_true, decide_eq_true_eq] at hwidth
  -- the chunk is there, since one of its bytes is marked
  have hchunk : vm.mem.hasChunk addr = true := by
    obtain ⟨a, ha, hmark⟩ :=
      (SYMemBitmap.testSYMemBitmap_iff vm.mem.bitmap hr.le hr.pos hr.noWrap).1 hsym
    rw [SYMemState.crossesChunk, decide_eq_false_iff_not] at hcross
    have hsame : a / 32 * 32 = addr / 32 * 32 := by omega
    rw [SYMemBitmap.Marked, hsame, SYMemBitmap.bitsAt] at hmark
    rw [SYMemState.hasChunk]
    cases hc : vm.mem.bitmap.chunk (addr / 32 * 32) with
    | some c => rfl
    | none => simp [hc] at hmark
  obtain ⟨c, hc⟩ : ∃ c, readConcrete vm.mem.concrete addr n = some c := by
    rw [readConcrete, if_pos hr.width]
    exact ⟨_, rfl⟩
  have hcov := h.mem.covered_of_test hr hsym
  have hmem : ∃ W mem, vm.mem.readMemoryCell (memRead addr n b) = some (true, W, mem) := by
    have hsym' : vm.mem.bitmap.testSYMemBitmap addr n = true := hsym
    rw [SYMemState.readMemoryCell]
    -- Nothing else can fail: the cells that cover the range are found in the list.
    cases b with
    | true =>
      obtain ⟨m, hm, -, -, -⟩ := h.mem.repr.cellList_spec hr.searchable hcov
      simp only [memRead, hsym', if_true, SYMemState.readSymbolicList, hcross, hchunk,
        Bool.false_eq_true, if_false, hm, Option.bind_eq_bind, Option.bind_some]
      exact ⟨_, _, rfl⟩
    | false =>
      obtain ⟨m, e, hm, -, -, -⟩ := h.mem.repr.getExpr_spec c hr.searchable hcov
      simp only [memRead, hsym', if_true, SYMemState.readSymbolicExpr, hcross, hchunk, hc,
        Bool.false_eq_true, if_false, hm, Option.bind_eq_bind, Option.bind_some]
      exact ⟨_, _, rfl⟩
  obtain ⟨W, mem, hmem⟩ := hmem
  have hmapped : VMState.mapped (memRead addr n b).addr (memRead addr n b).size = true := hr.mapped
  refine ⟨W, { vm with mem := mem }, ?_⟩
  rw [VMState.readMemory, if_pos hmapped, hmem]
  rfl

/-- So can concrete memory. -/
theorem exists_readMemory_concrete {addr n : Nat} (hr : AccessRange addr n)
    (hcon : vm.mem.isSYMemoryCell addr n = false) (b : Bool) :
    ∃ W vm', vm.readMemory (memRead addr n b) = some (true, W, vm') := by
  have hcon : vm.mem.bitmap.testSYMemBitmap (memRead addr n b).addr (memRead addr n b).size
      = false := hcon
  have hwidth : isAccessSize (memRead addr n b).size = true := hr.width
  have hmapped : VMState.mapped (memRead addr n b).addr (memRead addr n b).size = true := hr.mapped
  rw [VMState.readMemory, if_pos hmapped, SYMemState.readMemoryCell]
  simp only [hcon, readConcrete, hwidth, Bool.false_eq_true, if_false, if_true, Option.isSome_some]
  exact ⟨_, _, rfl⟩

/-- Memory inside a line of 16 bytes can be parsed. -/
theorem exists_parseMemCell (h : VMShape vm) {addr n : Nat} (hr : AccessRange addr n)
    (hline : addr % 16 + n ≤ 16) (b : Bool) (accs : OperandAccs) :
    ∃ oi vm', vm.parseMemCell b addr n accs = some (oi, vm') := by
  have hread : ∃ W vm', vm.readMemory (memRead addr n b) = some (true, W, vm') := by
    cases hsym : vm.mem.isSYMemoryCell addr n with
    | true =>
      have hcross : SYMemState.crossesChunk addr n = false := by
        rw [SYMemState.crossesChunk, decide_eq_false_iff_not]
        omega
      exact h.exists_readMemory hr hsym hcross b
    | false => exact exists_readMemory_concrete hr hsym b
  obtain ⟨W, vm', hread⟩ := hread
  have hread : asserted (vm.readMemory ⟨addr, n, false, b, 0, .null, []⟩) = some (W, vm') :=
    asserted_eq_some.2 hread
  rw [VMState.parseMemCell, hread]
  simp only [Option.bind_eq_bind, Option.bind_some]
  split
  · split
    · exact ⟨_, _, rfl⟩
    · exact ⟨_, _, rfl⟩
  · exact ⟨_, _, rfl⟩

end VMShape

/-- Symbolic memory that crosses two chunks is not read. -/
theorem crossesChunk_of_readMemory {vm vm' : VMState} {addr n : Nat} {b : Bool} {W : MemValue}
    (hsym : vm.mem.isSYMemoryCell addr n = true)
    (hread : vm.readMemory (memRead addr n b) = some (true, W, vm')) :
    SYMemState.crossesChunk addr n = false := by
  by_contra hcross
  rw [Bool.not_eq_false] at hcross
  have hsym : vm.mem.bitmap.testSYMemBitmap addr n = true := hsym
  rw [VMState.readMemory] at hread
  split at hread
  · cases b <;>
      simp [memRead, SYMemState.readMemoryCell, hsym, SYMemState.readSymbolicList,
        SYMemState.readSymbolicExpr, hcross] at hread
  · simp at hread

end KRover
