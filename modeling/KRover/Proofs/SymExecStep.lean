import KRover.Proofs.HandlerCases

/-! # What a handler does to the expressions of the machine

A property of expressions that obeys `ExprLaw` holds of every cell and of the
operands of `m_LastExpr` after a handler when it did before, as long as the
handler keeps to what the property says of widths. Which handlers do, and on
which operands, is `VMState.WidthsFit`.

* `ExprOprnd.of_parsed`: what the parsers find has the property;
* `process_holds`: one handler;
* `exec_holds`: one instruction, parsed and run.
-/

set_option autoImplicit false

namespace KRover

open Segments SymbolListMap SymExecutor

variable {P : Expr → Nat → Prop}

/-! ## Operands -/

/-- What a handler relies on of an operand read as an expression. -/
structure ExprOprnd (P : Expr → Nat → Prop) (oi : OprndInfo) : Prop where
  width : isAccessSize oi.size = true
  expr : oi.rdwr.reads = true → ∀ e, oi.getSymValue = some e → P e oi.size

/-- What a handler relies on of an operand read as a list. -/
structure ListOprnd (P : Expr → Nat → Prop) (oi : OprndInfo) : Prop where
  width : isAccessSize oi.size = true
  list : oi.isSymList = true → ReadForm oi.size oi.symList ∧ CellsOk P oi.symList

/-- The summands of a sum have its size. -/
def Operand.SumFits (O : Operand) : Prop :=
  ∀ x y size, O.deref = none → O.value = .add x y size → x.size = size ∧ y.size = size

/-- The four sizes of an access are positive. -/
theorem pos_of_isAccessSize {n : Nat} (h : isAccessSize n = true) : 0 < n := by
  simp only [isAccessSize, Bool.or_eq_true, decide_eq_true_eq] at h
  omega

namespace VMCells

variable {vm : VMState}

/-- The cells of a register value that was read as an expression, whatever its
concrete word. -/
theorem regWriteBack (hP : ExprLaw P) (h : VMCells P vm) {r : MachRegister} {size : Nat}
    (henc : (regRead r size false).Encoded) (v : BitVec 64) :
    { vm.cpu.valueRead (regRead r size false) with i64 := v }.isSymList = false ∧
      CellsOk P { vm.cpu.valueRead (regRead r size false) with i64 := v }.newCells := by
  cases hsym : vm.isSYReg r with
  | false =>
    have hcpu : vm.cpu.isSYReg (regRead r size false).indx = false := hsym
    rw [SYCPUState.valueRead, hcpu]
    exact ⟨rfl, cellsOk_nil⟩
  | true =>
    have hexpr := h.regExpr hP henc hsym rfl
    have hcpu : vm.cpu.isSYReg (regRead r size false).indx = true := hsym
    rw [SYCPUState.valueRead, hcpu] at hexpr ⊢
    exact ⟨rfl, cellsOk_singleton hexpr⟩

/-- A summand of a sum. -/
theorem summand (hP : ExprLaw P) (h : VMCells P vm) {a : OperandAST} {e : Expr}
    (hpos : 0 < a.size) (hs : Summand vm a e) : P e a.size := by
  cases hs with
  | register r size henc hsym => exact h.regExpr hP henc hsym rfl
  | immediate v size => exact hP.lit v hpos

end VMCells

/-- Whether an operand that is read is symbolic: a byte of its memory, or one of
its registers. -/
def VMState.isSymOprnd (vm : VMState) (I : Instruction) (O : Operand) : Bool :=
  if O.deref.isSome then vm.mem.isSYMemoryCell (O.address I vm.cpu) O.size
  else O.readSet.any fun R => vm.isSYReg R.1

/-- The size of a parsed operand is the decoder's. -/
theorem Parsed.size_eq {vm : VMState} {I : Instruction} {O : Operand} {b : Bool} {oi : OprndInfo}
    (hp : Parsed vm I O b oi) : oi.size = O.size := by
  cases hp <;> rfl

/-- An operand that is not read is only written. -/
theorem Parsed.reads_eq {vm : VMState} {I : Instruction} {O : Operand} {b : Bool} {oi : OprndInfo}
    (hp : Parsed vm I O b oi) (hread : O.isRead = true) : oi.rdwr.reads = true := by
  cases hp with
  | imm _ _ _ _ | regCon _ _ _ _ _ _ | regSym _ _ _ _ _ _ _ | sum _ _ _ _ _ _ _ _ _ _ _
  | regList _ _ _ _ _ _ _ => rfl
  | memCon _ _ haccs _ _ _ _ | memSym _ haccs _ _ _ _ | memList _ haccs _ _ _ _ => exact haccs
  | regWritten _ _ _ _ hnot | memWritten _ hnot =>
    exact absurd (hread.symm.trans hnot) Bool.false_ne_true.symm

/-- The parsers find out whether an operand that is read is symbolic. -/
theorem Parsed.symb_eq {vm : VMState} {I : Instruction} {O : Operand} {b : Bool} {oi : OprndInfo}
    (hp : Parsed vm I O b oi) (hread : O.isRead = true) : oi.symb = vm.isSymOprnd I O := by
  rw [VMState.isSymOprnd]
  -- a register operand reads itself
  have hregister : ∀ r size, O.deref = none → O.value = .register r size →
      vm.isSYReg r = true → true = (O.readSet.any fun R => vm.isSYReg R.1) := by
    intro r size hderef hval hsym
    rw [Operand.readSet, hderef, hval, hread]
    simp [hsym]
  cases hp with
  | imm _ hderef _ hset => simp [hderef, hset]
  | regCon _ r hderef _ hcon _ => simpa [hderef] using hcon
  | regSym r size hderef _ hval _ hsym =>
    simpa [hderef] using hregister r size hderef hval hsym
  | sum x y size e1 e2 hderef _ _ hsym _ _ => simpa [hderef] using hsym
  | regList r size hderef _ hval _ hsym =>
    simpa [hderef] using hregister r size hderef hval hsym
  | memCon _ _ _ hderef _ _ hcon => simp [hderef, hcon]
  | memSym _ _ hderef _ _ hsym => simp [hderef, hsym]
  | memList _ _ hderef _ _ hsym => simp [hderef, hsym]
  | regWritten _ _ _ _ hnot | memWritten _ hnot =>
    exact absurd (hread.symm.trans hnot) Bool.false_ne_true.symm

/-- The size of a register operand. -/
theorem Operand.size_register {O : Operand} {r : MachRegister} {n : Nat} (hderef : O.deref = none)
    (hval : O.value = .register r n) : O.size = n := by
  rw [Operand.size, hderef, hval]
  rfl

/-- The expression that the parser of `CThinCtrl` finds has the property. -/
theorem ExprOprnd.of_parsed (hP : ExprLaw P) {vm : VMState} (h : VMCells P vm) {I : Instruction}
    {O : Operand} {oi : OprndInfo} (hwidth : isAccessSize O.size = true)
    (hsum : vm.isSymOprnd I O = true → O.SumFits) (hp : Parsed vm I O false oi) :
    ExprOprnd P oi := by
  -- The first four forms carry a word and no expression.
  cases hp with
  | imm _ _ _ _ => exact ⟨hwidth, fun _ e he => absurd he (by simp [OprndInfo.getSymValue])⟩
  | regCon _ _ _ _ _ _ =>
    exact ⟨hwidth, fun _ e he => absurd he (by simp [OprndInfo.getSymValue])⟩
  | memWritten _ _ =>
    exact ⟨hwidth, fun _ e he => absurd he (by simp [OprndInfo.getSymValue])⟩
  | memCon _ _ _ _ _ _ _ =>
    exact ⟨hwidth, fun _ e he => absurd he (by simp [OprndInfo.getSymValue])⟩
  | regWritten _ opty symb _ _ => exact ⟨hwidth, fun hreads => absurd hreads Bool.false_ne_true⟩
  | regSym r size hderef _ hval henc hsym =>
    refine ⟨hwidth, fun _ e he => ?_⟩
    obtain rfl := Option.some.inj he
    show P _ O.size
    rw [O.size_register hderef hval]
    exact h.regExpr hP henc hsym rfl
  | sum x y size e1 e2 hderef _ hval hsym hx hy =>
    refine ⟨hwidth, fun _ e he => ?_⟩
    obtain rfl := Option.some.inj he
    have hsize : O.size = size := by rw [Operand.size, hderef, hval]; rfl
    have hpos : 0 < size := hsize ▸ pos_of_isAccessSize hwidth
    -- A sum of a register and another summand has the size of both, or the hypothesis excludes it.
    obtain ⟨hxs, hys⟩ :=
      hsum (by simpa [VMState.isSymOprnd, hderef] using hsym) x y size hderef hval
    have h1 := h.summand hP (hxs ▸ hpos) hx
    have h2 := h.summand hP (hys ▸ hpos) hy
    rw [hxs] at h1
    rw [hys] at h2
    show P _ O.size
    rw [hsize]
    exact hP.bin rfl h1 h2
  | memSym accs _ _ _ hr hsym =>
    refine ⟨hwidth, fun _ e he => ?_⟩
    obtain rfl := Option.some.inj he
    exact h.memExpr hP (V := memRead (O.address I vm.cpu) O.size false) hr hsym rfl

/-- The list that the parser of `SymExecutor` finds has the property. -/
theorem ListOprnd.of_parsed (hP : ExprLaw P) {vm : VMState} (h : VMCells P vm) {I : Instruction}
    {O : Operand} {oi : OprndInfo} (hwidth : isAccessSize O.size = true)
    (hp : Parsed vm I O true oi) : ListOprnd P oi := by
  cases hp with
  | imm _ _ _ _ | regCon _ _ _ _ _ _ | memWritten _ _ | memCon _ _ _ _ _ _ _
  | regWritten _ _ _ _ _ => exact ⟨hwidth, fun hlist => absurd hlist Bool.false_ne_true⟩
  | regList r size hderef _ hval henc hsym =>
    refine ⟨hwidth, fun _ => ?_⟩
    show ReadForm O.size _ ∧ _
    rw [O.size_register hderef hval]
    exact h.regWindow hP henc hsym
  | memList accs _ _ _ hr hsym => exact ⟨hwidth, fun _ => h.memWindow hP hr hsym⟩

/-- The list that an operand hands out has the form of a list that was read, and its cells
have the property. -/
theorem ListOprnd.of_getSymList {oi : OprndInfo} (h : ListOprnd P oi)
    {cells : List (Segment Expr)} {v : BitVec 64} (hlist : oi.getSymList = some (cells, v)) :
    ReadForm oi.size cells ∧ CellsOk P cells := by
  rw [OprndInfo.getSymList] at hlist
  split at hlist
  · rename_i hisList
    obtain ⟨rfl, rfl⟩ := Prod.mk.inj (Option.some.inj hlist)
    exact h.list hisList
  · simp at hlist

/-! ## Setting values -/

namespace OprndInfo

variable {vm vm' : VMState} {oi : OprndInfo}

/-- A value that was set in the register of an operand was written to that register. -/
theorem exists_written {V : MachRegister → RegValue}
    (hset : (oi.regIndex.bind fun r => asserted (vm.writeRegister (V r))) = some vm') :
    ∃ r, vm.writeRegister (V r) = some (true, vm') := by
  obtain ⟨r, -, hw⟩ := Option.bind_eq_some_iff.1 hset
  exact ⟨r, asserted_eq_some.1 hw⟩

/-- A concrete value goes into a register or into memory. -/
theorem setConValue_cases {v : BitVec 64} (hset : oi.setConValue vm v = some vm') :
    (∃ r, vm.writeRegister ⟨r, oi.size, false, false, v, .null, []⟩ = some (true, vm')) ∨
      ∃ addr, vm.writeMemory ⟨addr, oi.size, false, false, v, .null, []⟩ = some (true, vm') := by
  rw [setConValue] at hset
  split at hset
  · exact Or.inl (exists_written hset)
  · exact Or.inl (exists_written hset)
  · exact Or.inl (exists_written hset)
  · exact Or.inr ⟨_, asserted_eq_some.1 hset⟩
  · exact Or.inr ⟨_, asserted_eq_some.1 hset⟩
  · simp at hset

/-- So does an expression. -/
theorem setSymValue_cases {e : Expr} (hset : oi.setSymValue vm e = some vm') :
    (∃ r, vm.writeRegister ⟨r, oi.size, true, false, 0, e, []⟩ = some (true, vm')) ∨
      ∃ addr, vm.writeMemory ⟨addr, oi.size, true, false, 0, e, []⟩ = some (true, vm') := by
  rw [setSymValue] at hset
  split at hset
  · exact Or.inl (exists_written hset)
  · exact Or.inl (exists_written hset)
  · exact Or.inl (exists_written hset)
  · exact Or.inr ⟨_, asserted_eq_some.1 hset⟩
  · exact Or.inr ⟨_, asserted_eq_some.1 hset⟩
  · exact Or.inr ⟨_, asserted_eq_some.1 hset⟩
  · simp at hset

/-- And a cell list. -/
theorem setSymList_cases {cells : List (Segment Expr)} {v : BitVec 64}
    (hset : oi.setSymList vm cells v = some vm') :
    (∃ r, vm.writeRegister ⟨r, oi.size, true, true, v, .null, cells⟩ = some (true, vm')) ∨
      ∃ addr, vm.writeMemory ⟨addr, oi.size, true, true, v, .null, cells⟩ = some (true, vm') := by
  rw [setSymList] at hset
  split at hset
  · exact Or.inl (exists_written hset)
  · exact Or.inl (exists_written hset)
  · exact Or.inl (exists_written hset)
  · exact Or.inr ⟨_, asserted_eq_some.1 hset⟩
  · exact Or.inr ⟨_, asserted_eq_some.1 hset⟩
  · exact Or.inr ⟨_, asserted_eq_some.1 hset⟩
  · simp at hset

end OprndInfo

namespace VMCells

variable {vm vm' : VMState} {oi : OprndInfo}

/-- A concrete value takes cells away. -/
theorem setConValue (hP : ExprLaw P) (h : VMCells P vm) (hwidth : isAccessSize oi.size = true)
    {v : BitVec 64} (hset : oi.setConValue vm v = some vm') :
    VMCells P vm' ∧ vm'.eflagsMgr = vm.eflagsMgr := by
  rcases OprndInfo.setConValue_cases hset with ⟨r, hw⟩ | ⟨addr, hw⟩
  · exact h.writeRegister hP (by simp) (fun _ => cellsOk_nil) hw
  · exact h.writeMemory hP hwidth (by simp) cellsOk_nil hw

/-- An expression lays one cell. -/
theorem setSymValue (hP : ExprLaw P) (h : VMCells P vm) (hwidth : isAccessSize oi.size = true)
    {e : Expr} (he : P e oi.size) (hset : oi.setSymValue vm e = some vm') :
    VMCells P vm' ∧ vm'.eflagsMgr = vm.eflagsMgr := by
  rcases OprndInfo.setSymValue_cases hset with ⟨r, hw⟩ | ⟨addr, hw⟩
  · exact h.writeRegister hP (V := ⟨r, oi.size, true, false, 0, e, []⟩) (by simp)
      (fun _ => cellsOk_singleton he) hw
  · exact h.writeMemory hP (V := ⟨addr, oi.size, true, false, 0, e, []⟩) hwidth (by simp)
      (cellsOk_singleton he) hw

/-- A list lays its cells. -/
theorem setSymList (hP : ExprLaw P) (h : VMCells P vm) (hwidth : isAccessSize oi.size = true)
    {cells : List (Segment Expr)} (hform : ReadForm oi.size cells) (hcells : CellsOk P cells)
    {v : BitVec 64} (hset : oi.setSymList vm cells v = some vm') :
    VMCells P vm' ∧ vm'.eflagsMgr = vm.eflagsMgr := by
  rcases OprndInfo.setSymList_cases hset with ⟨r, hw⟩ | ⟨addr, hw⟩
  · exact h.writeRegister hP (V := ⟨r, oi.size, true, true, v, .null, cells⟩) (fun _ _ => hform)
      (fun _ => hcells) hw
  · exact h.writeMemory hP (V := ⟨addr, oi.size, true, true, v, .null, cells⟩) hwidth
      (fun _ _ => hform) (hcells.shift _) hw

end VMCells

/-! ## `m_LastExpr` -/

/-- `m_LastExpr` is null, or an operation on two operands of one width, or a
negation. -/
inductive LastOk (P : Expr → Nat → Prop) : Expr → Prop where
  | null : LastOk P .null
  | bin {k : BinKind} {r l : Expr} {n : Nat} (hk : k.isCompare = false) (hr : P r n)
      (hl : P l n) : LastOk P (Expr.binExpr k r l)
  | neg {e : Expr} {n : Nat} (he : P e n) : LastOk P (Expr.uryExpr .neg e)

/-- The property holds of all cells and of the operands of `m_LastExpr`. -/
structure VMHolds (P : Expr → Nat → Prop) (vm : VMState) : Prop where
  cells : VMCells P vm
  last : LastOk P vm.eflagsMgr.lastExpr

namespace VMHolds

variable {vm vm' : VMState} {oi : OprndInfo}

/-- What keeps the cells and does not touch the saved expression keeps the property of the
machine. -/
theorem of_cells (h : VMHolds P vm) (h' : VMCells P vm' ∧ vm'.eflagsMgr = vm.eflagsMgr) :
    VMHolds P vm' := by
  constructor
  · exact h'.1
  · rw [h'.2]
    exact h.last

/-- The invariant depends on what can be seen of the state only. -/
theorem same (h : VMHolds P vm) (hshape : VMShape vm') (hsame : SameCells vm vm') :
    VMHolds P vm' :=
  h.of_cells ⟨h.cells.same hshape hsame, hsame.eflagsMgr⟩

/-- Saving an expression changes it and the marks of the flags. -/
theorem save (h : VMHolds P vm) (id : EntryID) {e : Expr} (he : LastOk P e) :
    VMHolds P (vm.saveFlagChangingInstructionExpr id e).2 := by
  have hsame := sameBytes_save vm id e
  refine ⟨⟨hsame.shape h.cells.shape, ?_, fun i => ?_⟩, ?_⟩
  · rw [hsame.mem]
    exact h.cells.memCells
  · rw [hsame.regCells]
    exact h.cells.regCells i
  · rw [VMState.saveFlagChangingInstructionExpr, EFlagsManager.saveFlagChangingInstructionExpr]
    cases isFlagChangingInstr id || isFlagSettingInstr id with
    | true => exact he
    | false => exact h.last

/-- A saved expression that has the property keeps it of the machine. -/
theorem save_asserted (h : VMHolds P vm) {id : EntryID} {e : Expr} (he : LastOk P e)
    (hs : asserted (some (vm.saveFlagChangingInstructionExpr id e)) = some vm') :
    VMHolds P vm' := by
  have hsave := h.save id he
  rw [Option.some.inj (asserted_eq_some.1 hs)] at hsave
  exact hsave

end VMHolds

/-! ## Handlers -/

/-- What is found at a place of a list has a counterpart at that place. -/
theorem forall₂_getElem? {α β : Type} {R : α → β → Prop} {l : List α} {l' : List β}
    (h : List.Forall₂ R l l') {i : Nat} {b : β} (hb : l'[i]? = some b) :
    ∃ a, l[i]? = some a ∧ R a b := by
  induction h generalizing i with
  | nil => simp at hb
  | cons hab _ ih =>
    cases i with
    | zero =>
      obtain rfl := Option.some.inj hb
      exact ⟨_, rfl, hab⟩
    | succ i => exact ih hb

/-- An expression that a handler reads off an operand. -/
theorem ExprOprnd.of_getElem? {vecOI : List OprndInfo} (hops : ∀ oi ∈ vecOI, ExprOprnd P oi)
    {i : Nat} {oi : OprndInfo} (hoi : vecOI[i]? = some oi) : ExprOprnd P oi :=
  hops oi (List.mem_of_getElem? hoi)

/-- The operand at a place is read, as the handler takes it to be. -/
def ReadAt (vecOI : List OprndInfo) (i : Nat) : Prop :=
  ∀ oi, vecOI[i]? = some oi → oi.rdwr.reads = true

/-- The first two operands have one size. -/
def SameSizes (vecOI : List OprndInfo) : Prop :=
  ∀ a b, vecOI[0]? = some a → vecOI[1]? = some b → a.size = b.size

/-- The expression that a two-operand handler builds is an operation on two
expressions of one width, that of a symbolic operand. -/
theorem operate_holds (hP : ExprLaw P) {k : BinKind} {o1 o2 : OprndInfo} (h1 : ExprOprnd P o1)
    (h2 : ExprOprnd P o2) (hr1 : o1.rdwr.reads = true) (hr2 : o2.rdwr.reads = true)
    {size1 size2 n : Nat} {oe : Expr} (hn1 : o1.symb = true → o1.size = n)
    (hn2 : o2.symb = true → o2.size = n) (hs1 : o1.symb = false → size1 = n)
    (hs2 : o2.symb = false → size2 = n) (hoe : operate k o1 o2 size1 size2 = some oe) :
    ∃ r l, oe = Expr.binExpr k r l ∧ P r n ∧ P l n := by
  have hpos1 := pos_of_isAccessSize h1.width
  have hpos2 := pos_of_isAccessSize h2.width
  rw [operate] at hoe
  -- An operand that is symbolic brings its expression. The other becomes a literal of the size that
  -- is passed for it.
  cases hsym1 : o1.symb with
  | true =>
    have hsize1 := hn1 hsym1
    cases hsym2 : o2.symb with
    | true =>
      rw [hsym1, hsym2] at hoe
      obtain ⟨e1, he1, hrest⟩ := bind_some hoe
      obtain ⟨e2, he2, hout⟩ := bind_some hrest
      refine ⟨e1, e2, (Option.some.inj hout).symm, ?_, ?_⟩
      · exact hsize1 ▸ h1.expr hr1 e1 he1
      · exact hn2 hsym2 ▸ h2.expr hr2 e2 he2
    | false =>
      rw [hsym1, hsym2] at hoe
      obtain ⟨e1, he1, hrest⟩ := bind_some hoe
      obtain ⟨v2, -, hout⟩ := bind_some hrest
      refine ⟨e1, Expr.constExpr v2 size2, (Option.some.inj hout).symm, ?_, ?_⟩
      · exact hsize1 ▸ h1.expr hr1 e1 he1
      · rw [hs2 hsym2]
        exact hP.lit v2 (by omega)
  | false =>
    cases hsym2 : o2.symb with
    | true =>
      have hsize2 := hn2 hsym2
      rw [hsym1, hsym2] at hoe
      obtain ⟨e2, he2, hrest⟩ := bind_some hoe
      obtain ⟨v1, -, hout⟩ := bind_some hrest
      refine ⟨Expr.constExpr v1 size1, e2, (Option.some.inj hout).symm, ?_, ?_⟩
      · rw [hs1 hsym1]
        exact hP.lit v1 (by omega)
      · exact hsize2 ▸ h2.expr hr2 e2 he2
    | false =>
      rw [hsym1, hsym2] at hoe
      simp at hoe

/-- The operand of the first place, as an expression of its size. -/
theorem ExprOprnd.of_read {vecOI : List OprndInfo} (hops : ∀ oi ∈ vecOI, ExprOprnd P oi) {i : Nat}
    (hread : ReadAt vecOI i) {oi : OprndInfo} (hoi : vecOI[i]? = some oi) {e : Expr}
    (he : oi.getSymValue = some e) : P e oi.size :=
  (ExprOprnd.of_getElem? hops hoi).expr (hread oi hoi) e he

/-- The assertion at the end of `process_not` fails whenever it is reached. -/
theorem processNot_eq_none (vm : VMState) (vecOI : List OprndInfo) :
    processNot vm vecOI = none := by
  rw [Option.eq_none_iff_forall_ne_some]
  intro vm' hproc
  obtain ⟨o1, -, hrest⟩ := bind_some hproc
  split at hrest
  · obtain ⟨e1, -, hrest⟩ := bind_some hrest
    obtain ⟨vm₁, -, hsave⟩ := bind_some hrest
    have hres : (vm₁.saveFlagChangingInstructionExpr .not (Expr.uryExpr .not e1)).1 = false := rfl
    rw [asserted_eq_some, Option.some.injEq] at hsave
    rw [hsave] at hres
    simp at hres
  · simp at hrest

/-- A shift that reads its count from the operand it shifts asserts: a symbolic
operand has no constant. -/
theorem processShift_eq_none (k : BinKind) (id : EntryID) (vm : VMState)
    (vecOI : List OprndInfo) : processShift k id (fun oisrc1 _ => oisrc1) vm vecOI = none := by
  rw [Option.eq_none_iff_forall_ne_some]
  intro vm' hproc
  obtain ⟨o1, -, hrest⟩ := bind_some hproc
  obtain ⟨o2, -, hrest⟩ := bind_some hrest
  split at hrest
  · rename_i hsym
    obtain ⟨e1, -, hrest⟩ := bind_some hrest
    obtain ⟨v2, hv2, -⟩ := bind_some hrest
    rw [OprndInfo.getConValue, (Bool.and_eq_true_iff.1 hsym).1] at hv2
    simp at hv2
  · simp at hrest

section Handlers

variable {vm vm' : VMState} {vecOI : List OprndInfo} (hP : ExprLaw P) (h : VMHolds P vm)
  (hops : ∀ oi ∈ vecOI, ExprOprnd P oi)

include hP h hops

/-- The handlers that move one operand to another: the expression that is moved
must have the width of the destination. -/
theorem move_holds {f : Expr → Expr} {g : BitVec 64 → BitVec 64} {oidst oisrc : OprndInfo}
    (hdst : vecOI[0]? = some oidst)
    (hfits : ∀ e, oisrc.symb = true → oisrc.getSymValue = some e → P (f e) oidst.size)
    (hmoved : MovedTo f g vm oidst oisrc vm') : VMHolds P vm' := by
  have hwidth := (ExprOprnd.of_getElem? hops hdst).width
  cases hmoved with
  | expr e hsym he hset =>
    exact h.of_cells (h.cells.setSymValue hP hwidth (hfits e hsym he) hset)
  | value v _ _ hset => exact h.of_cells (h.cells.setConValue hP hwidth hset)

/-- `process_lea` lays the sum over the destination, so it must have its size. -/
theorem processLea_holds
    (hfits : ∀ a b e, vecOI[0]? = some a → vecOI[1]? = some b → b.symb = true →
      b.getSymValue = some e → P e a.size)
    (hproc : processLea vm vecOI = some vm') : VMHolds P vm' := by
  obtain ⟨oidst, oisrc, hdst, hsrc, hmoved⟩ := processLea_cases hproc
  exact move_holds hP h hops hdst (fun e => hfits oidst oisrc e hdst hsrc) hmoved

/-- `process_cmovxx` lays the source over the destination. -/
theorem processCmovxx_holds
    (hfits : ∀ a b e, vecOI[0]? = some a → vecOI[1]? = some b → b.symb = true →
      b.getSymValue = some e → P e a.size)
    (hproc : processCmovxx vm vecOI = some vm') : VMHolds P vm' := by
  obtain ⟨oidst, oisrc, hdst, hsrc, hmoved⟩ := processCmovxx_cases hproc
  exact move_holds hP h hops hdst (fun e => hfits oidst oisrc e hdst hsrc) hmoved

/-- An extension of a concrete operand is a move. -/
theorem processExtend_holds {k : UryKind}
    (hcon : ∀ b, vecOI[1]? = some b → b.symb = false)
    (hproc : processExtend k vm vecOI = some vm') : VMHolds P vm' := by
  obtain ⟨oidst, oisrc, hdst, hsrc, hmoved⟩ := processExtend_cases hproc
  refine move_holds hP h hops hdst (fun e hsym _ => ?_) hmoved
  exact absurd (hsym.symm.trans (hcon oisrc hsrc)) (by simp)

/-- `process_set` writes no expression. -/
theorem processSet_holds (hproc : processSet vm vecOI = some vm') : VMHolds P vm' := by
  obtain ⟨oidst, hdst, hset⟩ := bind_some hproc
  exact h.of_cells (h.cells.setConValue hP (ExprOprnd.of_getElem? hops hdst).width hset)

/-- `process_cdq` of a concrete accumulator writes no expression. -/
theorem processCdq_holds (hcon : ∀ b, vecOI[1]? = some b → b.symb = false)
    (hproc : processCdq vm vecOI = some vm') : VMHolds P vm' := by
  obtain ⟨oD, oA, hD, hA, hmoved⟩ := processCdq_cases hproc
  refine move_holds hP h hops hD (fun e hsym _ => ?_) hmoved
  exact absurd (hsym.symm.trans (hcon oA hA)) (by simp)

/-- An expression goes into the first operand and is saved as the last one that
changed the flags. -/
theorem setSave_holds {id : EntryID} {oi : OprndInfo} (hoi : vecOI[0]? = some oi) {oe : Expr}
    (hoe : P oe oi.size) (hlast : LastOk P oe) (hset : SetSaved id vm oi oe vm') :
    VMHolds P vm' := by
  obtain ⟨vm₁, hset, hsave⟩ := hset
  have h₁ := h.of_cells
    (h.cells.setSymValue hP (ExprOprnd.of_getElem? hops hoi).width hoe hset)
  exact h₁.save_asserted hlast hsave

/-- The two-operand handlers lay their result over the destination and save it. With
operands of one size the law of the property gives it for the result. -/
theorem processBinary_holds {k : BinKind} {id : EntryID} (hk : k.isCompare = false)
    (hr0 : ReadAt vecOI 0) (hr1 : ReadAt vecOI 1) (hsizes : SameSizes vecOI)
    (hproc : processBinary k id vm vecOI = some vm') : VMHolds P vm' := by
  obtain ⟨o1, o2, oe, h1, h2, hoe, hset⟩ := processBinary_cases hproc
  have hsize : o1.size = o2.size := hsizes o1 o2 h1 h2
  obtain ⟨r, l, rfl, hr, hl⟩ := operate_holds hP (ExprOprnd.of_getElem? hops h1)
    (ExprOprnd.of_getElem? hops h2) (hr0 o1 h1) (hr1 o2 h2) (fun _ => rfl) (fun _ => hsize.symm)
    (fun _ => rfl) (fun _ => hsize.symm) hoe
  exact setSave_holds hP h hops h1 (hP.bin hk hr hl) (.bin hk hr hl) hset

/-- `process_test` saves the conjunction. -/
theorem processTest_holds (hr0 : ReadAt vecOI 0) (hr1 : ReadAt vecOI 1)
    (hsizes : SameSizes vecOI) (hproc : processTest vm vecOI = some vm') : VMHolds P vm' := by
  obtain ⟨o1, o2, oe, h1, h2, hoe, rfl⟩ := processTest_cases hproc
  have hsize : o1.size = o2.size := hsizes o1 o2 h1 h2
  obtain ⟨r, l, rfl, hr, hl⟩ := operate_holds hP (ExprOprnd.of_getElem? hops h1)
    (ExprOprnd.of_getElem? hops h2) (hr0 o1 h1) (hr1 o2 h2) (fun _ => rfl) (fun _ => hsize.symm)
    (fun _ => rfl) (fun _ => hsize.symm) hoe
  exact h.save .test (.bin rfl hr hl)

/-- A literal takes the size of the other operand, so a concrete operand may
have any size. -/
theorem processCmp_holds (hr0 : ReadAt vecOI 0) (hr1 : ReadAt vecOI 1)
    (hsizes : ∀ a b, vecOI[0]? = some a → vecOI[1]? = some b → a.symb = true → b.symb = true →
      a.size = b.size)
    (hproc : processCmp vm vecOI = some vm') : VMHolds P vm' := by
  obtain ⟨o1, o2, oe, h1, h2, hoe, hsave⟩ := processCmp_cases hproc
  -- The two sizes may differ, as the literal is given the size of the symbolic operand.
  have hlast : LastOk P oe := by
    cases hsym1 : o1.symb with
    | true =>
      obtain ⟨r, l, rfl, hr, hl⟩ := operate_holds (n := o1.size) hP
        (ExprOprnd.of_getElem? hops h1) (ExprOprnd.of_getElem? hops h2) (hr0 o1 h1) (hr1 o2 h2)
        (fun _ => rfl) (fun hs => (hsizes o1 o2 h1 h2 hsym1 hs).symm)
        (fun hs => absurd (hsym1.symm.trans hs) (by simp)) (fun _ => rfl) hoe
      exact .bin rfl hr hl
    | false =>
      have hsym2 : o2.symb = true := by
        rw [operate, hsym1] at hoe
        cases hs : o2.symb with
        | true => rfl
        | false => simp [hs] at hoe
      obtain ⟨r, l, rfl, hr, hl⟩ := operate_holds (n := o2.size) hP
        (ExprOprnd.of_getElem? hops h1) (ExprOprnd.of_getElem? hops h2) (hr0 o1 h1) (hr1 o2 h2)
        (fun hs => absurd (hsym1.symm.trans hs) (by simp)) (fun _ => rfl) (fun _ => rfl)
        (fun hs => absurd (hsym2.symm.trans hs) (by simp)) hoe
      exact .bin rfl hr hl
  exact h.save_asserted hlast hsave

/-- `process_xchg` lays each operand over the other. -/
theorem processXchg_holds (hr0 : ReadAt vecOI 0) (hr1 : ReadAt vecOI 1)
    (hsizes : SameSizes vecOI) (hproc : processXchg vm vecOI = some vm') : VMHolds P vm' := by
  obtain ⟨o1, o2, h1, h2, hswap⟩ := processXchg_cases hproc
  have hsize : o1.size = o2.size := hsizes o1 o2 h1 h2
  have hw1 := (ExprOprnd.of_getElem? hops h1).width
  have hw2 := (ExprOprnd.of_getElem? hops h2).width
  have hp1 : ∀ e1, o1.getSymValue = some e1 → P e1 o2.size := fun e1 he1 =>
    hsize ▸ ExprOprnd.of_read hops hr0 h1 he1
  have hp2 : ∀ e2, o2.getSymValue = some e2 → P e2 o1.size := fun e2 he2 =>
    hsize ▸ ExprOprnd.of_read hops hr1 h2 he2
  cases hswap with
  | both e1 e2 vm₁ _ he1 he2 hset1 hset2 =>
    have hvm₁ := h.of_cells (h.cells.setSymValue hP hw1 (hp2 e2 he2) hset1)
    exact hvm₁.of_cells (hvm₁.cells.setSymValue hP hw2 (hp1 e1 he1) hset2)
  | first e1 v2 vm₁ _ he1 _ hset1 hset2 =>
    have hvm₁ := h.of_cells (h.cells.setConValue hP hw1 hset1)
    exact hvm₁.of_cells (hvm₁.cells.setSymValue hP hw2 (hp1 e1 he1) hset2)
  | second e2 v1 vm₁ _ he2 _ hset1 hset2 =>
    have hvm₁ := h.of_cells (h.cells.setSymValue hP hw1 (hp2 e2 he2) hset1)
    exact hvm₁.of_cells (hvm₁.cells.setConValue hP hw2 hset2)

/-- `process_neg` lays the negation over its operand and saves it. -/
theorem processNeg_holds (hr0 : ReadAt vecOI 0) (hproc : processNeg vm vecOI = some vm') :
    VMHolds P vm' := by
  obtain ⟨o1, e1, h1, -, he1, hset⟩ := processNeg_cases hproc
  have hp1 := ExprOprnd.of_read hops hr0 h1 he1
  exact setSave_holds hP h hops h1 (hP.neg hp1) (.neg hp1) hset

/-- The shifts lay their result over the destination. The count has its size. -/
theorem processShift_holds {k : BinKind} {id : EntryID}
    {count : OprndInfo → OprndInfo → OprndInfo} (hk : k.isCompare = false)
    (hr0 : ReadAt vecOI 0) (hsizes : SameSizes vecOI)
    (hproc : processShift k id count vm vecOI = some vm') : VMHolds P vm' := by
  obtain ⟨o1, o2, e1, v2, h1, h2, -, he1, -, hset⟩ := processShift_cases hproc
  have hp1 := ExprOprnd.of_read hops hr0 h1 he1
  have hp2 : P (Expr.constExpr v2 o2.size) o1.size := by
    rw [hsizes o1 o2 h1 h2]
    exact hP.lit v2 (pos_of_isAccessSize (ExprOprnd.of_getElem? hops h2).width)
  exact setSave_holds hP h hops h1 (hP.bin hk hp1 hp2) (.bin hk hp1 hp2) hset

/-- `process_mul` of a concrete multiplier writes no expression, and a symbolic accumulator
stops it. -/
theorem processMul_holds {id : EntryID} (hcon : ∀ b, vecOI[2]? = some b → b.symb = false)
    (hproc : processMul id vm vecOI = some vm') : VMHolds P vm' := by
  obtain ⟨oD, oA, oM, hD, hA, hM, hset⟩ := processMul_cases hproc
  cases hset with
  | values vrl vrh vm₁ _ hset1 hset2 =>
    have hvm₁ := h.of_cells
      (h.cells.setConValue hP (ExprOprnd.of_getElem? hops hA).width hset1)
    exact hvm₁.of_cells
      (hvm₁.cells.setConValue hP (ExprOprnd.of_getElem? hops hD).width hset2)
  | exprs el eh vm₁ hsym _ _ =>
    rw [hcon oM hM] at hsym
    simp at hsym

omit hops in
/-- A widening of the accumulator writes a number when the lower half is
concrete. -/
theorem processCbw_holds
    (hcon : ∀ a sub size, vecOI[0]? = some a → lowerHalf a.size = some (sub, size) →
      vm.isSYReg ⟨.rax, sub⟩ = false)
    (hproc : processCbw vm vecOI = some vm') : VMHolds P vm' := by
  obtain ⟨oi, e, sub, size, rv, vm₁, hoi, -, hhalf, hread, hset⟩ := processCbw_cases hproc
  obtain ⟨hshape, hsame, -, rfl⟩ := h.cells.shape.readRegisterExpr hread
  have hbsym : (vm.cpu.valueRead (regRead ⟨.rax, sub⟩ size false)).bsym
      = vm.isSYReg ⟨.rax, sub⟩ := SYCPUState.bsym_valueRead _ _
  rw [hbsym, hcon oi sub size hoi hhalf] at hset
  have h₁ := h.same hshape hsame
  rcases hset with ⟨hsym, -⟩ | ⟨-, hwrite⟩
  · exact absurd hsym Bool.false_ne_true
  · exact h₁.of_cells (h₁.cells.writeRegister hP (by simp) (fun _ => cellsOk_nil) hwrite)

end Handlers

/-! ## Handlers that parse again -/

/-- Parsing leaves the invariant alone. -/
theorem VMHolds.parseOperands {vm vm' : VMState} (h : VMHolds P vm) {I : Instruction} {b : Bool}
    (hsizes : ∀ O ∈ I.operands, isAccessSize O.size = true) {vecOI : List OprndInfo}
    (hparse : vm.parseOperands b I = some (vecOI, vm')) :
    VMHolds P vm' ∧ SameCells vm vm' ∧
      List.Forall₂ (fun O oi => Parsed vm I O b oi) I.operands vecOI := by
  obtain ⟨hshape, hsame, hall⟩ := h.cells.shape.parseOperands hsizes hparse
  exact ⟨h.same hshape hsame, hsame, hall⟩

section Reparse

variable {vm vm' : VMState} {I : Instruction} (hP : ExprLaw P) (h : VMHolds P vm)
  (hsizes : ∀ O ∈ I.operands, isAccessSize O.size = true)

include hP h hsizes

/-- The operand at a place, parsed as a list. -/
theorem listOprnd_getElem? {vm₁ : VMState} {vecOI : List OprndInfo}
    (hparse : vm.parseOperands true I = some (vecOI, vm₁)) {i : Nat} {oi : OprndInfo}
    (hoi : vecOI[i]? = some oi) :
    ∃ O, I.operands[i]? = some O ∧ Parsed vm I O true oi ∧ ListOprnd P oi := by
  obtain ⟨-, -, hall⟩ := h.parseOperands hsizes hparse
  obtain ⟨O, hO, hparsed⟩ := forall₂_getElem? hall hoi
  exact ⟨O, hO, hparsed,
    ListOprnd.of_parsed hP h.cells (hsizes O (List.mem_of_getElem? hO)) hparsed⟩

/-- `process_mov` writes the list of the source, whose cells have the property. -/
theorem processMov_holds (hread : ∀ S, I.operands[1]? = some S → S.isRead = true)
    (hfits : ∀ D S, I.operands[0]? = some D → I.operands[1]? = some S →
      vm.isSymOprnd I S = true → D.size = S.size)
    (hproc : processMov vm I = some vm') : VMHolds P vm' := by
  obtain ⟨vecOI, vm₁, oidst, oisrc, hparse, hdst, hsrc, hmoved⟩ := processMov_cases hproc
  obtain ⟨h₁, -, -⟩ := h.parseOperands hsizes hparse
  obtain ⟨D, hD, hpD, hlD⟩ := listOprnd_getElem? hP h hsizes hparse hdst
  obtain ⟨S, hS, hpS, hlS⟩ := listOprnd_getElem? hP h hsizes hparse hsrc
  cases hmoved with
  | list cells v hsym hlist hset =>
    obtain ⟨hform, hcells⟩ := hlS.of_getSymList hlist
    have hsize : oidst.size = oisrc.size := by
      rw [hpD.size_eq, hpS.size_eq]
      exact hfits D S hD hS ((hpS.symb_eq (hread S hS)).symm.trans hsym)
    exact h₁.of_cells (h₁.cells.setSymList hP hlD.width (hsize ▸ hform) hcells hset)
  | value v _ _ _ hset => exact h₁.of_cells (h₁.cells.setConValue hP hlD.width hset)

/-- `process_pop` moves the cells of a word of the stack. -/
theorem processPop_holds (hproc : processPop vm I = some vm') : VMHolds P vm' := by
  obtain ⟨vecOI, vm₁, o1, o2, rsp, V, vm₂, MV, vm₃, vm₄, hparse, ho1, ho2, hread, hmem, hset,
    hwrite⟩ := processPop_cases hproc
  obtain ⟨h₁, -, -⟩ := h.parseOperands hsizes hparse
  obtain ⟨-, -, -, hl1⟩ := listOprnd_getElem? hP h hsizes hparse ho1
  obtain ⟨hshape₂, hsame₂, henc, rfl⟩ := h₁.cells.shape.readRegisterExpr hread
  obtain ⟨hnotList, hback⟩ := h₁.cells.regWriteBack hP henc
    ((vm₁.cpu.valueRead (regRead rsp o2.size false)).i64 + 8)
  have h₂ := h₁.same hshape₂ hsame₂
  obtain ⟨hshape₃, hsame₃, hr, rfl⟩ := h₂.cells.shape.readMemory hl1.width hmem
  have h₃ := h₂.same hshape₃ hsame₃
  have h₄ : VMHolds P vm₄ := by
    rcases hset with ⟨hbsym, hset⟩ | hset
    · rw [SYMemState.bsym_valueRead] at hbsym
      obtain ⟨hform, hcells⟩ := h₂.cells.memWindow hP hr hbsym
      have hptr : ∀ a, vm₂.mem.isSYMemoryCell a o1.size = true →
          (vm₂.mem.valueRead ⟨a, o1.size, false, true, 0, .null, []⟩).symcellPtr
            = vm₂.mem.memWindow a o1.size := by
        intro a ha
        rw [SYMemState.valueRead]
        simp only [ha, if_true]
      rw [hptr _ hbsym] at hset
      exact h₃.of_cells (h₃.cells.setSymList hP hl1.width hform hcells hset)
    · exact h₃.of_cells (h₃.cells.setConValue hP hl1.width hset)
  -- The stack pointer is written back as it was read, and that was no list.
  exact h₄.of_cells (h₄.cells.writeRegister hP
    (fun _ hlist => absurd (hnotList.symm.trans hlist) Bool.false_ne_true) (fun _ => hback) hwrite)

/-- `process_push` moves the cells of its operand. -/
theorem processPush_holds (hproc : processPush vm I = some vm') : VMHolds P vm' := by
  obtain ⟨vecOI, vm₁, o1, o2, rsp, V, vm₂, vm₃, hparse, ho1, ho2, hread, hwrite, hstore⟩ :=
    processPush_cases hproc
  obtain ⟨h₁, -, -⟩ := h.parseOperands hsizes hparse
  obtain ⟨-, -, -, hl1⟩ := listOprnd_getElem? hP h hsizes hparse ho1
  obtain ⟨hshape₂, hsame₂, henc, rfl⟩ := h₁.cells.shape.readRegisterExpr hread
  obtain ⟨hnotList, hback⟩ := h₁.cells.regWriteBack hP henc
    ((vm₁.cpu.valueRead (regRead rsp o2.size false)).i64 - 8)
  -- The stack pointer is read and written back eight lower, with what was read.
  have h₂ := h₁.same hshape₂ hsame₂
  have h₃ := h₂.of_cells (h₂.cells.writeRegister hP
    (fun _ hlist => absurd (hnotList.symm.trans hlist) Bool.false_ne_true) (fun _ => hback) hwrite)
  rcases hstore with ⟨cells, v, hlist, hstore⟩ | ⟨v, hstore⟩
  · obtain ⟨hform, hcells⟩ := hl1.of_getSymList hlist
    exact h₃.of_cells (h₃.cells.writeMemory hP (V := ⟨_, o1.size, true, true, _, .null, cells⟩)
      hl1.width (fun _ _ => hform) (hcells.shift _) hstore)
  · exact h₃.of_cells (h₃.cells.writeMemory hP (V := ⟨_, o1.size, false, false, _, .null, []⟩)
      hl1.width (by simp) cellsOk_nil hstore)

end Reparse

/-! ## Instructions -/

/-- Which operands an instruction that has a handler reads. -/
def readsOperand : EntryID → Nat → Bool
  | .add, i | .sub, i | .and, i | .or, i | .xor, i | .test, i | .cmp, i | .cmpw, i
  | .xchg, i | .shl_sal, i => i ≤ 1
  | .neg, i => i = 0
  | .mov, i | .movsx, i | .movslq, i | .movsxd, i | .movzx, i | .lea, i | .cdq, i | .cwd, i => i = 1
  | .cmovbe, i | .cmove, i | .cmovnae, i | .cmovnb, i | .cmovnbe, i | .cmovne, i | .cmovng, i
  | .cmovnge, i | .cmovnl, i | .cmovno, i | .cmovns, i | .cmovo, i | .cmovpe, i | .cmovpo, i
  | .cmovs, i => i = 1
  | .mul, i | .imul, i => i = 1 || i = 2
  | _, _ => false

/-- What the decoder promises of the instructions that are handed over. -/
structure Instruction.Decoded (I : Instruction) : Prop where
  sizes : ∀ O ∈ I.operands, isAccessSize O.size = true
  reads : ∀ i O, I.operands[i]? = some O → readsOperand I.id i = true → O.isRead = true

/-- Where the operands of an instruction have the widths that its handler takes
for granted, and are concrete where the handler has no node that fits. -/
def VMState.KindFits (vm : VMState) (I : Instruction) : Prop :=
  match I.id with
  | .add | .sub | .and | .or | .xor | .test | .xchg | .shl_sal =>
    ∀ D S, I.operands[0]? = some D → I.operands[1]? = some S → D.size = S.size
  | .cmp | .cmpw =>
    ∀ D S, I.operands[0]? = some D → I.operands[1]? = some S →
      vm.isSymOprnd I D = true → vm.isSymOprnd I S = true → D.size = S.size
  | .mov | .lea | .cmovbe | .cmove | .cmovnae | .cmovnb | .cmovnbe | .cmovne | .cmovng | .cmovnge
  | .cmovnl | .cmovno | .cmovns | .cmovo | .cmovpe | .cmovpo | .cmovs =>
    ∀ D S, I.operands[0]? = some D → I.operands[1]? = some S →
      vm.isSymOprnd I S = true → D.size = S.size
  | .movsx | .movslq | .movsxd | .movzx | .cdq | .cwd =>
    ∀ S, I.operands[1]? = some S → vm.isSymOprnd I S = false
  | .cbw | .cwde | .cwtl =>
    ∀ D sub size, I.operands[0]? = some D → lowerHalf D.size = some (sub, size) →
      vm.isSYReg ⟨.rax, sub⟩ = false
  | .mul | .imul =>
    ∀ i S, i = 1 ∨ i = 2 → I.operands[i]? = some S → vm.isSymOprnd I S = false
  | .idiv => False
  | _ => True

/-- The widths fit: those of the operands, and those of the summands of a
symbolic sum. -/
structure VMState.WidthsFit (vm : VMState) (I : Instruction) : Prop where
  sums : ∀ O ∈ I.operands, vm.isSymOprnd I O = true → O.SumFits
  kind : vm.KindFits I

/-- Machines that look the same do so in both directions. -/
theorem SameCells.symm {vm vm' : VMState} (h : SameCells vm vm') : SameCells vm' vm where
  ptRegs := h.ptRegs.symm
  symBitmap := h.symBitmap.symm
  regCells := h.regCells.symm
  bsymFlag := h.bsymFlag.symm
  bitmap := h.bitmap.symm
  storedCells := h.storedCells.symm
  concrete := h.concrete.symm
  eflagsMgr := h.eflagsMgr.symm

/-- An operand is symbolic in both or in none. -/
theorem SameCells.isSymOprnd {vm vm' : VMState} (h : SameCells vm vm') (I : Instruction)
    (O : Operand) : vm'.isSymOprnd I O = vm.isSymOprnd I O := by
  rw [VMState.isSymOprnd, VMState.isSymOprnd, h.isSYMemoryCell, h.address]
  simp only [h.isSYReg]

/-- So the widths fit in both or in none. -/
theorem SameCells.widthsFit {vm vm' : VMState} (h : SameCells vm vm') {I : Instruction}
    (hfits : vm.WidthsFit I) : vm'.WidthsFit I := by
  obtain ⟨hsums, hkind⟩ := hfits
  rw [VMState.KindFits] at hkind
  constructor
  · simpa only [h.isSymOprnd] using hsums
  · rw [VMState.KindFits]
    simpa only [h.isSymOprnd, h.isSYReg] using hkind

section Process

variable {vm vm' : VMState} {I : Instruction} {vecOI : List OprndInfo} (hP : ExprLaw P)
  (h : VMHolds P vm) (hdec : I.Decoded) (hfits : vm.WidthsFit I)
  (hall : List.Forall₂ (fun O oi => Parsed vm I O false oi) I.operands vecOI)

include hall

/-- The operand at a place is read when the decoder says so. -/
theorem readAt_of_decoded (hdec : I.Decoded) {i : Nat} (hread : readsOperand I.id i = true) :
    ReadAt vecOI i := by
  intro oi hoi
  obtain ⟨O, hO, hparsed⟩ := forall₂_getElem? hall hoi
  exact hparsed.reads_eq (hdec.reads i O hO hread)

/-- What the parser finds of the operand at a place. -/
theorem oprnd_getElem? (hdec : I.Decoded) {i : Nat} (hread : readsOperand I.id i = true)
    {oi : OprndInfo} (hoi : vecOI[i]? = some oi) :
    ∃ O, I.operands[i]? = some O ∧ oi.size = O.size ∧ oi.symb = vm.isSymOprnd I O := by
  obtain ⟨O, hO, hparsed⟩ := forall₂_getElem? hall hoi
  exact ⟨O, hO, hparsed.size_eq, hparsed.symb_eq (hdec.reads i O hO hread)⟩

/-- Operands of one size, as the parser finds them. -/
theorem sameSizes_of_kindFits
    (hk : ∀ D S, I.operands[0]? = some D → I.operands[1]? = some S → D.size = S.size) :
    SameSizes vecOI := by
  intro a b ha hb
  obtain ⟨D, hD, hpD⟩ := forall₂_getElem? hall ha
  obtain ⟨S, hS, hpS⟩ := forall₂_getElem? hall hb
  rw [hpD.size_eq, hpS.size_eq]
  exact hk D S hD hS

/-- A concrete operand, as the parser finds it. -/
theorem concrete_of_kindFits (hdec : I.Decoded) {i : Nat} (hread : readsOperand I.id i = true)
    (hk : ∀ S, I.operands[i]? = some S → vm.isSymOprnd I S = false) :
    ∀ b, vecOI[i]? = some b → b.symb = false := by
  intro b hb
  obtain ⟨S, hS, -, hsym⟩ := oprnd_getElem? hall hdec hread hb
  rw [hsym]
  exact hk S hS

/-- The expression of a symbolic source has the width of the destination. -/
theorem move_of_kindFits (hdec : I.Decoded) (hops : ∀ oi ∈ vecOI, ExprOprnd P oi)
    (hread : readsOperand I.id 1 = true)
    (hk : ∀ D S, I.operands[0]? = some D → I.operands[1]? = some S →
      vm.isSymOprnd I S = true → D.size = S.size) :
    ∀ a b e, vecOI[0]? = some a → vecOI[1]? = some b → b.symb = true →
      b.getSymValue = some e → P e a.size := by
  intro a b e ha hb hsym he
  obtain ⟨D, hD, hpD⟩ := forall₂_getElem? hall ha
  obtain ⟨S, hS, hsize, hsymS⟩ := oprnd_getElem? hall hdec hread hb
  rw [hpD.size_eq, hk D S hD hS (hsymS.symm.trans hsym), ← hsize]
  exact ExprOprnd.of_read hops (readAt_of_decoded hall hdec hread) hb he

include hP h hdec hfits

/-- One handler, over the operands that the parser has found. -/
theorem process_holds (hproc : process I vm vecOI = some vm') : VMHolds P vm' := by
  obtain ⟨hsums, hkind⟩ := hfits
  rw [VMState.KindFits] at hkind
  have hops : ∀ oi ∈ vecOI, ExprOprnd P oi := by
    intro oi hoi
    obtain ⟨i, hi⟩ := List.mem_iff_getElem?.1 hoi
    obtain ⟨O, hO, hparsed⟩ := forall₂_getElem? hall hi
    have hmem := List.mem_of_getElem? hO
    exact .of_parsed hP h.cells (hdec.sizes O hmem) (hsums O hmem) hparsed
  have hread := fun i => readAt_of_decoded hall hdec (i := i)
  rw [process] at hproc
  cases hid : I.id <;> simp only [hid] at hproc hkind
  -- One case for each handler. What `KindFits` asks of the instruction is the hypothesis of that
  -- handler's lemma.
  case mov =>
    exact processMov_holds hP h hdec.sizes
      (fun S hS => hdec.reads 1 S hS (by rw [hid]; rfl)) hkind hproc
  case movsx | movslq | movsxd | movzx =>
    exact processExtend_holds hP h hops
      (concrete_of_kindFits hall hdec (by rw [hid]; rfl) hkind) hproc
  case cdq | cwd =>
    exact processCdq_holds hP h hops
      (concrete_of_kindFits hall hdec (by rw [hid]; rfl) hkind) hproc
  case cbw | cwde | cwtl =>
    refine processCbw_holds hP h ?_ hproc
    intro a sub size ha hhalf
    obtain ⟨D, hD, hpD⟩ := forall₂_getElem? hall ha
    rw [hpD.size_eq] at hhalf
    exact hkind D sub size hD hhalf
  case add | sub | and | or | xor =>
    exact processBinary_holds hP h hops rfl (hread 0 (by rw [hid]; rfl))
      (hread 1 (by rw [hid]; rfl))
      (sameSizes_of_kindFits hall hkind) hproc
  case test =>
    exact processTest_holds hP h hops (hread 0 (by rw [hid]; rfl)) (hread 1 (by rw [hid]; rfl))
      (sameSizes_of_kindFits hall hkind) hproc
  case xchg =>
    exact processXchg_holds hP h hops (hread 0 (by rw [hid]; rfl)) (hread 1 (by rw [hid]; rfl))
      (sameSizes_of_kindFits hall hkind) hproc
  case shl_sal =>
    exact processShift_holds hP h hops rfl (hread 0 (by rw [hid]; rfl))
      (sameSizes_of_kindFits hall hkind) hproc
  case cmp | cmpw =>
    refine processCmp_holds hP h hops (hread 0 (by rw [hid]; rfl)) (hread 1 (by rw [hid]; rfl)) ?_
      hproc
    intro a b ha hb hsa hsb
    obtain ⟨D, hD, hsizeD, hsymD⟩ := oprnd_getElem? hall hdec (by rw [hid]; rfl) ha
    obtain ⟨S, hS, hsizeS, hsymS⟩ := oprnd_getElem? hall hdec (by rw [hid]; rfl) hb
    rw [hsizeD, hsizeS]
    exact hkind D S hD hS (hsymD.symm.trans hsa) (hsymS.symm.trans hsb)
  case neg => exact processNeg_holds hP h hops (hread 0 (by rw [hid]; rfl)) hproc
  case not => simp [processNot_eq_none] at hproc
  case shr | sar => simp [processShr, processSar, processShift_eq_none] at hproc
  case mul | imul =>
    exact processMul_holds hP h hops
      (concrete_of_kindFits hall hdec (by rw [hid]; rfl) fun S => hkind 2 S (Or.inr rfl)) hproc
  case cmovbe | cmove | cmovnae | cmovnb | cmovnbe | cmovne | cmovng | cmovnge | cmovnl | cmovno
      | cmovns | cmovo | cmovpe | cmovpo | cmovs =>
    exact processCmovxx_holds hP h hops
      (move_of_kindFits hall hdec hops (by rw [hid]; rfl) hkind) hproc
  case lea =>
    exact processLea_holds hP h hops
      (move_of_kindFits hall hdec hops (by rw [hid]; rfl) hkind) hproc
  case setb | setbe | setl | setle | setnb | setnbe | setnl | setnle | setno | setnp | setns
      | setnz | seto | setp | sets | setz => exact processSet_holds hP h hops hproc
  case push => exact processPush_holds hP h hdec.sizes hproc
  case pop => exact processPop_holds hP h hdec.sizes hproc
  case jbe | je | jge | jl | jle | jmp | jmpq | jne | jz | jnz | jns | js | rdtsc =>
    obtain rfl := Option.some.inj hproc
    exact h
  all_goals simp at hproc

end Process

/-- One instruction, parsed and run. -/
theorem exec_holds (hP : ExprLaw P) {vm vm' : VMState} (h : VMHolds P vm) {I : Instruction}
    (hdec : I.Decoded) (hfits : vm.WidthsFit I) (hexec : exec vm I = some vm') :
    VMHolds P vm' := by
  obtain ⟨⟨vecOI, vm₁⟩, hparse, hproc⟩ := bind_some hexec
  obtain ⟨h₁, hsame, hall⟩ := h.parseOperands hdec.sizes hparse
  exact process_holds hP h₁ hdec (hsame.widthsFit hfits)
    (hall.imp fun _ _ hp => hsame.symm.parsed hp) hproc

end KRover
