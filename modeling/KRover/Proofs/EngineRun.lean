import KRover.Proofs.ExprWidth
import KRover.Proofs.SymExecStep

/-! # Runs of the engine

A run declares symbols, hands instructions to the executor and changes concrete
values, in any order. A property that obeys `ExprLaw` and holds of the declared
symbols holds of all cells and of `m_LastExpr` after every run whose
instructions keep to the widths.

* `EngineRun.holds`: a property of the declared symbols holds after a run;
* `builds_translate`: what the engine builds translates to a Z3 term, and so
  do the conditions that `GetCondition` has a class for;
* `widths_recorded`: with symbols of four bytes, the sizes in the nodes are
  those of the terms.
-/

set_option autoImplicit false

namespace KRover

open Segments SymbolListMap SymExecutor BvTerm

/-! ## Events -/

/-- What happens to the machine. Native execution, and the flags that are fixed
after a branch, change concrete values and marks of flags only. -/
inductive EngineEvent where
  | createSYMemObject (addr size : Nat) (isSigned hasSeed : Bool) (conVal : BitVec 64)
      (name : String)
  | createSYRegObject (index : MachRegister) (size : Nat)
  | exec (I : Instruction)
  | native (ptRegs : MacReg) (concrete : Nat → BitVec 8) (bsymFlag : Flag → Bool)

namespace EngineEvent

/-- One event. A symbol is declared where there is memory: its concrete value
is written. -/
def step (vm : VMState) : EngineEvent → Option VMState
  | .createSYMemObject addr size isSigned hasSeed conVal name =>
    if VMState.mapped addr size then
      (vm.createSYMemObject addr size isSigned hasSeed conVal name).map (·.2)
    else none
  | .createSYRegObject index size => (vm.createSYRegObject index size).map (·.2)
  | .exec I => SymExecutor.exec vm I
  | .native ptRegs concrete bsymFlag =>
    some { vm with
      cpu := { vm.cpu with ptRegs := ptRegs, bsymFlag := bsymFlag }
      mem := { vm.mem with concrete := concrete } }

/-- What the callers keep to: the sizes that a declaration knows, and what the
decoder promises. -/
def Admissible : EngineEvent → Prop
  | .createSYMemObject _ size _ _ _ _ => isAccessSize size = true
  | .createSYRegObject _ _ => True
  | .exec I => I.Decoded
  | .native _ _ _ => True

/-- The declared sizes are among `sizes`, no register is declared, and the
widths of an instruction fit. -/
def Fits (sizes : Nat → Prop) (vm : VMState) : EngineEvent → Prop
  | .createSYMemObject _ size _ _ _ _ => sizes size
  | .createSYRegObject _ _ => False
  | .exec I => vm.WidthsFit I
  | .native _ _ _ => True

end EngineEvent

/-- The states that runs reach whose events meet a condition in the state they
happen in. -/
inductive EngineRun (ok : VMState → EngineEvent → Prop) : VMState → Prop where
  | new (ptRegs : MacReg) (symBitmap : PtIdx → BitVec 64)
      (hzero : SYCPUState.ZeroBitmap symBitmap) (concrete : Nat → BitVec 8) :
      EngineRun ok (VMState.construct ptRegs symBitmap concrete)
  | step {vm vm' : VMState} (ev : EngineEvent) (h : EngineRun ok vm) (hadm : ev.Admissible)
    (hok : ok vm ev) (hst : ev.step vm = some vm') : EngineRun ok vm'

/-! ## A property of all expressions -/

variable {P : Expr → Nat → Prop}

/-- A new state has no cells, so each of them has the property. -/
theorem vmHolds_new (ptRegs : MacReg) (concrete : Nat → BitVec 8) :
    VMHolds P (VMState.new ptRegs concrete) := by
  have hmem : (SYMemState.new concrete).storedCells = [] := segs_liveCells repr_new
  constructor
  · constructor
    · exact ⟨memCells_new concrete, cpuShadow_new ptRegs⟩
    · show CellsOk P (SYMemState.new concrete).storedCells
      rw [hmem]
      exact cellsOk_nil
    · intro i
      show CellsOk P ((SYCPUState.new ptRegs).regCells i)
      rw [regCells_new]
      exact cellsOk_nil
  · exact .null

/-- The new symbol is laid over its memory, or nothing but its concrete value
is written. -/
theorem createSYMemObject_holds (hP : ExprLaw P) {vm vm' : VMState} (h : VMHolds P vm)
    {addr size : Nat} {isSigned hasSeed ok : Bool} {conVal : BitVec 64} {name : String}
    (hwidth : isAccessSize size = true) (hmapped : VMState.mapped addr size = true)
    (hsym : ∀ obj : SYMemObject, obj.size = size → P (Expr.udefExpr (some obj)) size)
    (hst : vm.createSYMemObject addr size isSigned hasSeed conVal name = some (ok, vm')) :
    VMHolds P vm' := by
  obtain ⟨⟨ok', mem⟩, hmem, hout⟩ := bind_some hst
  obtain ⟨rfl, rfl⟩ := Prod.mk.inj (Option.some.inj hout)
  let obj := vm.newSYMemObject addr size isSigned hasSeed conVal name
  let V : MemValue := ⟨addr, size, true, false, 0, Expr.udefExpr (some obj), []⟩
  have hr : AccessRange V.addr V.size := accessRange_of_mapped hwidth hmapped
  have hmem : vm.mem.writeMemoryCell V = some (ok', mem) := hmem
  -- A refused write has changed at most the concrete bytes.
  cases ok' with
  | true =>
    obtain ⟨hshape, s, e, hcells⟩ := h.cells.shape.mem.write hr (by simp [V]) hmem
    have hnew : CellsOk P V.newCells := cellsOk_singleton (hsym obj rfl)
    refine ⟨⟨⟨hshape, h.cells.shape.cpu⟩, ?_, h.cells.regCells⟩, h.last⟩
    show CellsOk P mem.storedCells
    rw [hcells]
    exact hP.splice h.cells.memCells hnew s e
  | false =>
    rw [vm.mem.writeMemoryCell_expr rfl rfl, SYMemState.writeSymbolicExpr] at hmem
    split at hmem
    · obtain ⟨-, rfl⟩ := Prod.mk.inj (Option.some.inj hmem)
      have hsame := vm.mem.writeConcreteValue_shadow V.addr V.size V.i64
      refine ⟨⟨⟨h.cells.shape.mem.congr hsame.2 hsame.1, h.cells.shape.cpu⟩, ?_,
        h.cells.regCells⟩, h.last⟩
      show CellsOk P ((vm.mem.writeConcreteValue V.addr V.size V.i64).2).storedCells
      rw [SYMemState.storedCells, hsame.2]
      exact h.cells.memCells
    · split at hmem
      · obtain ⟨m, -, hval⟩ := bind_some hmem
        simp at hval
      · simp at hmem

/-- A change of concrete values and marks of flags. -/
theorem native_holds {vm : VMState} (h : VMHolds P vm) (ptRegs : MacReg)
    (concrete : Nat → BitVec 8) (bsymFlag : Flag → Bool) :
    VMHolds P { vm with
      cpu := { vm.cpu with ptRegs := ptRegs, bsymFlag := bsymFlag }
      mem := { vm.mem with concrete := concrete } } := by
  constructor
  · constructor
    · exact ⟨h.cells.shape.mem.congr rfl rfl, h.cells.shape.cpu.congr rfl rfl⟩
    · exact h.cells.memCells
    · exact h.cells.regCells
  · exact h.last

/-- A property that obeys the law and holds of the declared symbols holds after
every run whose events fit. -/
theorem EngineRun.holds (hP : ExprLaw P) {sizes : Nat → Prop}
    (hsym : ∀ obj : SYMemObject, isAccessSize obj.size = true → sizes obj.size →
      P (Expr.udefExpr (some obj)) obj.size)
    {vm : VMState} (h : EngineRun (EngineEvent.Fits sizes) vm) : VMHolds P vm := by
  -- The induction is on the events of the run.
  induction h with
  | new ptRegs symBitmap hzero concrete =>
    rw [VMState.construct_eq_new ptRegs hzero]
    exact vmHolds_new ptRegs concrete
  | step ev _ hadm hok hst ih =>
    -- Each event has its own lemma; a register object is excluded by the hypothesis.
    cases ev with
    | createSYMemObject addr size isSigned hasSeed conVal name =>
      rw [EngineEvent.step] at hst
      split at hst
      · rename_i hmapped
        obtain ⟨⟨ok, vm₁⟩, hcreate, rfl⟩ := Option.map_eq_some_iff.1 hst
        refine createSYMemObject_holds hP ih hadm hmapped ?_ hcreate
        intro obj hsize
        have hobj := hsym obj (hsize ▸ hadm) (hsize ▸ hok)
        rwa [hsize] at hobj
      · simp at hst
    | createSYRegObject index size => exact hok.elim
    | exec I => exact exec_holds hP ih hadm hok hst
    | native ptRegs concrete bsymFlag =>
      obtain rfl := Option.some.inj hst
      exact native_holds ih ptRegs concrete bsymFlag

/-! ## Translation -/

/-- The translation returns a term. -/
def Expr.Translates (e : Expr) : Prop := ∃ t, z3HandlingExprPtr e = .ok t

/-- An expression of some width is translated. -/
theorem HasWidth.translates {e : Expr} {n : Nat} (h : HasWidth e n) : e.Translates := by
  obtain ⟨-, t, ht, -⟩ := h
  exact ⟨t, ht⟩

/-- The expressions that are in the cells of a state or that a read puts
together. -/
inductive VMState.Builds (vm : VMState) : Expr → Prop where
  | memCell (x : Segment Expr) (hx : x ∈ vm.mem.storedCells) : Builds vm x.val
  | regCell (i : PtIdx) (x : Segment Expr) (hx : x ∈ vm.cpu.regCells i) : Builds vm x.val
  | readRegister (V W : RegValue) (vm' : VMState) (hlist : V.isSymList = false)
      (hread : vm.readRegister V = some (true, W, vm')) (hsym : W.bsym = true) : Builds vm W.expr
  | readRegisterCell (V W : RegValue) (vm' : VMState) (x : Segment Expr)
      (hlist : V.isSymList = true) (hread : vm.readRegister V = some (true, W, vm'))
      (hsym : W.bsym = true) (hx : x ∈ W.symcellPtr) : Builds vm x.val
  | readMemory (V W : MemValue) (vm' : VMState) (hwidth : isAccessSize V.size = true)
      (hlist : V.isSymList = false) (hread : vm.readMemory V = some (true, W, vm'))
      (hsym : W.bsym = true) : Builds vm W.expr
  | readMemoryCell (V W : MemValue) (vm' : VMState) (x : Segment Expr)
      (hwidth : isAccessSize V.size = true) (hlist : V.isSymList = true)
      (hread : vm.readMemory V = some (true, W, vm')) (hsym : W.bsym = true)
      (hx : x ∈ W.symcellPtr) : Builds vm x.val

/-- What is built of cells with the property has it. -/
theorem VMCells.of_builds (hP : ExprLaw P) {vm : VMState} (h : VMCells P vm) {e : Expr}
    (he : vm.Builds e) : ∃ n, P e n := by
  cases he with
  | memCell x hx => exact ⟨x.size, h.memCells x hx⟩
  | regCell i x hx => exact ⟨x.size, h.regCells i x hx⟩
  | readRegister V W vm' hlist hread hsym =>
    obtain ⟨-, -, henc, rfl⟩ := h.shape.readRegister hread
    rw [SYCPUState.bsym_valueRead] at hsym
    exact ⟨V.size, h.regExpr hP henc hsym hlist⟩
  | readRegisterCell V W vm' x hlist hread hsym hx =>
    obtain ⟨-, -, henc, rfl⟩ := h.shape.readRegister hread
    rw [SYCPUState.bsym_valueRead] at hsym
    rw [SYCPUState.valueRead, hsym, hlist] at hx
    exact ⟨x.size, (h.regWindow hP henc hsym).2 x hx⟩
  | readMemory V W vm' hwidth hlist hread hsym =>
    obtain ⟨-, -, hr, rfl⟩ := h.shape.readMemory hwidth hread
    rw [SYMemState.bsym_valueRead] at hsym
    exact ⟨V.size, h.memExpr hP hr hsym hlist⟩
  | readMemoryCell V W vm' x hwidth hlist hread hsym hx =>
    obtain ⟨-, -, hr, rfl⟩ := h.shape.readMemory hwidth hread
    rw [SYMemState.bsym_valueRead] at hsym
    rw [SYMemState.valueRead, hsym, hlist] at hx
    exact ⟨x.size, (h.memWindow hP hr hsym).2 x hx⟩

/-! ## Conditions -/

/-- The node that an operation takes its size from: that of the first operand,
and so on. -/
def Expr.sizeNode : Expr → Expr
  | .bin _ r _ _ => r.sizeNode
  | .ury _ e _ => e.sizeNode
  | e => e

/-- The expression has a width, and records it unless its size comes from a
declared symbol, which records its own. -/
structure SizeFrom (e : Expr) (n : Nat) : Prop where
  width : HasWidth e n
  origin : (∃ obj, e.sizeNode = .udef (some obj) e.getExprSize ∧ obj.size = n) ∨
    ((∀ obj size, e.sizeNode ≠ .udef obj size) ∧ e.getExprSize = n)

/-- To be built from declared sizes is a property that the nodes of the engine keep. -/
theorem exprLaw_sizeFrom : ExprLaw SizeFrom where
  lit v _ hn := ⟨hasWidth_constExpr v hn, Or.inr ⟨by simp [Expr.constExpr, Expr.sizeNode], rfl⟩⟩
  bin hk hr hl := ⟨hasWidth_bin hk hr.width hl.width _, hr.origin⟩
  neg he := ⟨hasWidth_neg he.width _, he.origin⟩
  extract := by
    intro e n s t he hst ht
    refine ⟨hasWidth_extract he.width hst ht _, Or.inr ⟨?_, ?_⟩⟩
    · simp [Expr.extractExpr, Expr.sizeNode]
    · show ((t : Int) - s).toNat = t - s
      omega
  combine := by
    intro n L htiles hlen hL
    have hwidths : CellsOk HasWidth L := fun x hx => (hL x hx).width
    exact ⟨exprLaw_hasWidth.combine htiles hlen hwidths,
      Or.inr ⟨by simp [Expr.combineMultiExpr, Expr.sizeNode], rfl⟩⟩

/-- A symbol with a positive size is built so. -/
theorem sizeFrom_udefExpr {obj : SYMemObject} (hn : 0 < obj.size) :
    SizeFrom (Expr.udefExpr (some obj)) obj.size :=
  ⟨hasWidth_udef hn 4, Or.inl ⟨obj, rfl, rfl⟩⟩

/-- The conditions of the carry, zero and sign comparisons translate. For those
of the sign and overflow flags alone there is no class of expressions but one,
and that takes its bit at the recorded size. -/
def CondFits (last : Expr) : CondCase → Prop
  | .ns | .no | .o => False
  | .s => ∀ obj size, last.sizeNode = .udef (some obj) size → size ≤ obj.size
  | _ => True

/-- A comparison of two expressions of one width is translated. -/
theorem translates_compare {k : BinKind} (hk : k.isCompare = true) {r l : Expr} {n : Nat}
    (hr : HasWidth r n) (hl : HasWidth l n) (size : Nat) : (Expr.bin k r l size).Translates := by
  obtain ⟨-, t, ht, htw⟩ := hr
  obtain ⟨-, u, hu, huw⟩ := hl
  obtain ⟨x, rfl⟩ := htw.exists_eq
  obtain ⟨y, rfl⟩ := huw.exists_eq
  -- Both sides have the same sort, which is all the library asks for.
  have hcmp : ∀ op : CmpOp, z3Call (SomeTerm.cmp op ⟨.bv (8 * n), x⟩ ⟨.bv (8 * n), y⟩)
      = .ok ⟨.bool, .cmp op x y⟩ := by
    intro op
    rw [SomeTerm.cmp, dif_pos rfl]
    rfl
  have hkind : ∃ t, z3HandleBinKind k ⟨.bv (8 * n), x⟩ ⟨.bv (8 * n), y⟩ = .ok t := by
    cases k with
    | ult => exact ⟨_, hcmp .ult⟩
    | ule => exact ⟨_, hcmp .ule⟩
    | ugt => exact ⟨_, hcmp .ugt⟩
    | uge => exact ⟨_, hcmp .uge⟩
    | slt => exact ⟨_, hcmp .slt⟩
    | sle => exact ⟨_, hcmp .sle⟩
    | sgt => exact ⟨_, hcmp .sgt⟩
    | sge => exact ⟨_, hcmp .sge⟩
    | add | sub | mul | uDiv | sDiv | sRem | and | or | xor | shl | lShr | aShr =>
      exact absurd hk (by decide)
  obtain ⟨t, ht'⟩ := hkind
  refine ⟨t, ?_⟩
  rw [z3HandlingExprPtr, ht, hu]
  exact ht'

/-- So is a test for zero. -/
theorem translates_equal {e : Expr} {n : Nat} (he : HasWidth e n) (size : Nat) :
    (Expr.ury .equal e size).Translates := by
  obtain ⟨-, t, ht, htw⟩ := he
  obtain ⟨x, rfl⟩ := htw.exists_eq
  refine ⟨⟨.bool, .cmp .eq x (.lit 0)⟩, ?_⟩
  rw [z3HandlingExprPtr, ht]
  rfl

/-- So is its negation. -/
theorem translates_distinct {e : Expr} {n : Nat} (he : HasWidth e n) (size : Nat) :
    (Expr.ury .distinct e size).Translates := by
  obtain ⟨-, t, ht, htw⟩ := he
  obtain ⟨x, rfl⟩ := htw.exists_eq
  refine ⟨⟨.bool, .cmp .ne x (.lit 0)⟩, ?_⟩
  rw [z3HandlingExprPtr, ht]
  rfl

/-- The sign bit is there when the recorded size is no greater than the
width. -/
theorem translates_sign_iff {e : Expr} {n : Nat} (he : HasWidth e n) (size : Nat) :
    (Expr.ury .sign e size).Translates ↔ size ≤ n := by
  obtain ⟨hn, t, ht, htw⟩ := he
  obtain ⟨x, rfl⟩ := htw.exists_eq
  have hz3 : z3HandlingExprPtr (.ury .sign e size)
      = if size * 8 - 1 < 8 * n then .ok ⟨.bv 1, .lit 1⟩ else .error .z3Exception := by
    rw [z3HandlingExprPtr, ht]
    show z3HandleSign ⟨.bv (8 * n), x⟩ size = _
    rw [z3HandleSign, SomeTerm.extract]
    by_cases hlt : size * 8 - 1 < 8 * n
    · rw [if_pos ⟨le_refl _, hlt⟩, if_pos hlt]
      rfl
    · rw [if_neg (fun h => hlt h.2), if_neg hlt]
  rw [Expr.Translates, hz3]
  by_cases hlt : size * 8 - 1 < 8 * n
  · rw [if_pos hlt]
    exact iff_of_true ⟨_, rfl⟩ (by omega)
  · rw [if_neg hlt]
    refine iff_of_false ?_ (by omega)
    rintro ⟨t, ht'⟩
    simp at ht'

/-- A missing expression is not. -/
theorem not_translates_null : ¬ Expr.null.Translates := by
  rintro ⟨t, ht⟩
  rw [z3HandlingExprPtr] at ht
  simp at ht

/-- What `CreateExprByID` makes of an expression with a width, for the ids of
the conditions. Comparisons need its two operands. -/
theorem createExprByID_translates_iff {last e : Expr} {n : Nat} {c : CondCase}
    (hlast : SizeFrom last n)
    (hRL : ∀ r l, getRL last = some (r, l) → ∃ m, HasWidth r m ∧ HasWidth l m)
    (he : createExprByID (EFlagsManager.conditionExprId c) last last.getExprSize = some e) :
    e.Translates ↔ CondFits last c := by
  -- The eight comparisons take the two children apart.
  have hcmp : ∀ k : BinKind, k.isCompare = true →
      createExprByID (.bin k) last last.getExprSize = some e → e.Translates := by
    intro k hk hcreate
    rw [createExprByID, if_pos hk] at hcreate
    obtain ⟨⟨r, l⟩, hpair, rfl⟩ := Option.map_eq_some_iff.1 hcreate
    obtain ⟨m, hr, hl⟩ := hRL r l hpair
    exact translates_compare hk hr hl _
  -- The zero conditions look at the whole expression, the sign at its top bit. For `ns`, `no` and
  -- `o` the expression is null.
  cases c with
  | nb => exact iff_of_true (hcmp .uge rfl he) trivial
  | nbe => exact iff_of_true (hcmp .ugt rfl he) trivial
  | be => exact iff_of_true (hcmp .ule rfl he) trivial
  | b => exact iff_of_true (hcmp .ult rfl he) trivial
  | ge => exact iff_of_true (hcmp .sge rfl he) trivial
  | g => exact iff_of_true (hcmp .sgt rfl he) trivial
  | le => exact iff_of_true (hcmp .sle rfl he) trivial
  | l => exact iff_of_true (hcmp .slt rfl he) trivial
  | e =>
    obtain rfl := Option.some.inj he
    exact iff_of_true (translates_equal hlast.width _) trivial
  | ne =>
    obtain rfl := Option.some.inj he
    exact iff_of_true (translates_distinct hlast.width _) trivial
  | ns | no | o =>
    obtain rfl := Option.some.inj he
    exact iff_of_false not_translates_null (fun h => h)
  | s =>
    obtain rfl := Option.some.inj he
    rw [translates_sign_iff hlast.width]
    rcases hlast.origin with ⟨obj, hnode, hobj⟩ | ⟨hnode, hsize⟩
    · constructor
      · intro hle obj' size hnode'
        rw [hnode] at hnode'
        obtain ⟨hsome, rfl⟩ := Expr.udef.inj hnode'
        obtain rfl := Option.some.inj hsome
        omega
      · intro hfits
        rw [← hobj]
        exact hfits obj _ hnode
    · exact iff_of_true (le_of_eq hsize) fun obj size h => absurd h (hnode (some obj) size)

/-- A condition translates exactly when its kind fits. -/
theorem getCondition_translates_iff {mgr : EFlagsManager} (hlast : LastOk SizeFrom mgr.lastExpr)
    {id : EntryID} {c : CondCase} {e : Expr} (hcase : EFlagsManager.switchCaseSbb id = some c)
    (hget : mgr.getCondition id = some e) : e.Translates ↔ CondFits mgr.lastExpr c := by
  have hcond : isConditionalExecuteInstr id = true := by
    rw [EFlagsManager.switchCaseSbb] at hcase
    split at hcase
    · rename_i hid
      rw [hid]
      rfl
    · exact isConditionalExecuteInstr_of_switchCase hcase
  rw [EFlagsManager.getCondition, if_pos hcond, hcase, Option.bind_eq_bind, Option.bind_some,
    EFlagsManager.doGetCondition] at hget
  generalize mgr.lastExpr = last at hlast hget ⊢
  cases hlast with
  | null => simp at hget
  | bin hk hr hl =>
    refine createExprByID_translates_iff (exprLaw_sizeFrom.bin hk hr hl) ?_ hget
    intro r' l' hpair
    obtain ⟨rfl, rfl⟩ := Prod.mk.inj (Option.some.inj hpair)
    exact ⟨_, hr.width, hl.width⟩
  | neg he =>
    refine createExprByID_translates_iff (exprLaw_sizeFrom.neg he) ?_ hget
    intro r' l' hpair
    simp [getRL, Expr.uryExpr] at hpair

/-! ## Every expression translates -/

/-- After a run whose events fit, what the engine builds translates, and a condition does
when its kind fits. Each cell and each saved expression has been built by the nodes of the
engine from sized parts, and such an expression translates. A condition is built later, from
operands that may be of two widths, so its kind is asked for. -/
theorem builds_translate {vm : VMState} (h : EngineRun (EngineEvent.Fits fun _ => True) vm) :
    (∀ e, vm.Builds e → e.Translates) ∧
      ∀ id c e, EFlagsManager.switchCaseSbb id = some c → vm.eflagsMgr.getCondition id = some e →
        (e.Translates ↔ CondFits vm.eflagsMgr.lastExpr c) := by
  have hholds : VMHolds SizeFrom vm := h.holds exprLaw_sizeFrom fun obj hwidth _ =>
    sizeFrom_udefExpr (pos_of_isAccessSize hwidth)
  constructor
  · intro e he
    obtain ⟨n, hn⟩ := hholds.cells.of_builds exprLaw_sizeFrom he
    exact hn.width.translates
  · intro id c e hcase hget
    exact getCondition_translates_iff hholds.last hcase hget

/-- Declaring a symbol in a fresh machine lays its cell. -/
theorem step_createSYMemObject_new (addr size : Nat) (hwidth : isAccessSize size = true)
    (hmapped : VMState.mapped addr size = true)
    (hin : SYMemState.insideHalfChunk addr size = true) (ptRegs : MacReg)
    (concrete : Nat → BitVec 8) (isSigned hasSeed : Bool) (conVal : BitVec 64) (name : String) :
    ∃ vm obj, (EngineEvent.createSYMemObject addr size isSigned hasSeed conVal name).step
        (VMState.new ptRegs concrete) = some vm ∧
      vm.mem.storedCells = [⟨toInt64 addr, size, Expr.udefExpr (some obj)⟩] ∧ obj.size = size := by
  obtain ⟨vm, obj, hst, -, -, hsize, hcells, -⟩ := exists_declared ptRegs concrete
    (accessRange_of_mapped hwidth hmapped) hin isSigned hasSeed conVal name
  refine ⟨vm, obj, ?_, hcells, hsize⟩
  rw [EngineEvent.step, if_pos hmapped, hst]
  rfl

/-- Declaring a register in a fresh machine lays a symbol without an object. -/
theorem step_createSYRegObject_new (index : MachRegister) (size : Nat)
    (henc : dyinstEncoding index = some size) (ptRegs : MacReg) (concrete : Nat → BitVec 8) :
    ∃ vm, (EngineEvent.createSYRegObject index size).step (VMState.new ptRegs concrete) = some vm ∧
      vm.cpu.regCells index.offt = [⟨0, size, Expr.udefExpr none⟩] := by
  let V : RegValue := ⟨index, size, true, false, 0, Expr.udefExpr none, []⟩
  have hV : V.Writable := ⟨henc, by simp [V]⟩
  obtain ⟨m, hst, -, hsegs⟩ := ((cpuShadow_new ptRegs).word V.indx.offt).write hV
  have hcells : m.segs m.liveCells = [⟨0, size, Expr.udefExpr none⟩] := by
    rw [hsegs, regCells_new]
    rfl
  have hwrite : ∃ cpu, (SYCPUState.new ptRegs).writeRegister V = some (true, cpu) ∧
      cpu.regCells index.offt = [⟨0, size, Expr.udefExpr none⟩] := by
    refine ⟨_, hst, ?_⟩
    have hword : Function.update (SYCPUState.new ptRegs).symList V.indx.offt m index.offt = m :=
      Function.update_self _ _ _
    rw [SYCPUState.regCells]
    simp only [hword]
    exact hcells
  obtain ⟨cpu, hcpu, hcells⟩ := hwrite
  refine ⟨{ VMState.new ptRegs concrete with cpu := cpu }, ?_, hcells⟩
  rw [EngineEvent.step]
  show ((SYCPUState.new ptRegs).writeRegister V >>= _).map _ = _
  rw [hcpu]
  rfl

/-- `add` of the `size` bytes at `rbx` to the accumulator: to `eax` when there are
four of them. -/
def addSymbol (size : Nat) : Instruction :=
  ⟨.add, [⟨.register ⟨.rax, if size = 4 then .d else .full⟩ size, none, true, true⟩,
    ⟨.register ⟨.rbx, .full⟩ 8, some size, true, false⟩], []⟩

/-- The widths fit in every machine: both operands have one width, and neither is a
sum. -/
theorem addSymbol_widthsFit (vm : VMState) (size : Nat) : vm.WidthsFit (addSymbol size) where
  sums O hO _ x y n _ hsum := by
    simp only [addSymbol, List.mem_cons, List.not_mem_nil, or_false] at hO
    rcases hO with rfl | rfl <;> cases hsum
  kind D S hD hS := by
    obtain rfl := Option.some.inj hD
    obtain rfl := Option.some.inj hS
    rfl

/-- The decoder may hand such an `add` over: its sizes are access sizes, and both
operands are marked as read. -/
theorem addSymbol_decoded {size : Nat} (hwidth : isAccessSize size = true) :
    (addSymbol size).Decoded where
  sizes O hO := by
    simp only [addSymbol, List.mem_cons, List.not_mem_nil, or_false] at hO
    rcases hO with rfl | rfl
    · exact hwidth
    · exact hwidth
  reads i O hO hread := by
    -- The place does not matter, since every operand of the list is read.
    have hmem := List.mem_of_getElem? hO
    simp only [addSymbol, List.mem_cons, List.not_mem_nil, or_false] at hmem
    rcases hmem with rfl | rfl <;> rfl

/-- A symbol is declared at the address in `rbx`, and the executor adds it to the
accumulator. -/
def addedSymbol (size : Nat) : Option VMState :=
  ((EngineEvent.createSYMemObject 4096 size false true 1 "S").step
    (VMState.new (fun i => if i = .rbx then 4096 else 0) fun _ => 0)).bind
      (EngineEvent.exec (addSymbol size)).step

/-- Such a run leaves an expression in `rax`, and in `m_LastExpr` a sum with its two
operands. -/
theorem exists_addedSymbol (sizes : Nat → Prop) (size : Nat) (hsize : sizes size)
    (hwidth : isAccessSize size = true)
    (hadded : (addedSymbol size).any (fun vm => vm.isSYReg ⟨.rax, .full⟩ &&
      vm.eflagsMgr.lastExpr.nodes.length == 3) = true) :
    ∃ vm, EngineRun (EngineEvent.Fits sizes) vm ∧ vm.isSYReg ⟨.rax, .full⟩ = true ∧
      vm.eflagsMgr.lastExpr.nodes.length = 3 := by
  obtain ⟨vm, hadd, hfacts⟩ := (Option.any_eq_true _ _).1 hadded
  obtain ⟨vm₁, hdecl, hexec⟩ := bind_some hadd
  obtain ⟨hsym, hnodes⟩ := (Bool.and_eq_true _ _).mp hfacts
  have hnew : EngineRun (EngineEvent.Fits sizes) vm₁ :=
    .step (.createSYMemObject 4096 size false true 1 "S") (.new _ _ (fun _ => rfl) _) hwidth
      hsize hdecl
  have hrun : EngineRun (EngineEvent.Fits sizes) vm :=
    .step (.exec (addSymbol size)) hnew (addSymbol_decoded hwidth)
      (addSymbol_widthsFit vm₁ size) hexec
  exact ⟨vm, hrun, hsym, eq_of_beq hnodes⟩

/-- A symbol of eight bytes was added to `rax`: the expressions of the register, of the
memory and of the flags translate. -/
theorem builds_translate_added :
    ∃ vm, EngineRun (EngineEvent.Fits fun _ => True) vm ∧ vm.isSYReg ⟨.rax, .full⟩ = true ∧
      vm.eflagsMgr.lastExpr.nodes.length = 3 ∧
      (∀ e, vm.Builds e → e.Translates) ∧
      ∀ id c e, EFlagsManager.switchCaseSbb id = some c → vm.eflagsMgr.getCondition id = some e →
        (e.Translates ↔ CondFits vm.eflagsMgr.lastExpr c) := by
  obtain ⟨vm, hrun, hsym, hlast⟩ := exists_addedSymbol (fun _ => True) 8 trivial rfl
    (by decide +kernel)
  exact ⟨vm, hrun, hsym, hlast, builds_translate hrun⟩

/-- The symbol of a declared register has no object, and its translation
dereferences a null pointer. -/
theorem builds_translate_register :
    ¬ ∀ vm, EngineRun (fun _ _ => True) vm → ∀ e, vm.Builds e → e.Translates := by
  intro hall
  obtain ⟨vm, hst, hcells⟩ := step_createSYRegObject_new ⟨.rax, .full⟩ 8 rfl
    (fun _ => 0) (fun _ => 0)
  have hrun : EngineRun (fun _ _ => True) vm :=
    .step (.createSYRegObject ⟨.rax, .full⟩ 8) (.new _ _ (fun _ => rfl) _) trivial trivial hst
  have hcell : (⟨0, 8, Expr.udefExpr none⟩ : Segment Expr) ∈ vm.cpu.regCells .rax := by
    have hmem : vm.cpu.regCells .rax = [⟨0, 8, Expr.udefExpr none⟩] := hcells
    rw [hmem]
    exact List.mem_singleton_self _
  obtain ⟨t, ht⟩ := hall vm hrun _ (.regCell .rax _ hcell)
  rw [Expr.udefExpr, z3HandlingExprPtr] at ht
  simp at ht

/-! ## Every width is recorded -/

/-- Every cell holds an expression of its size, and the nodes of the cells and
of `m_LastExpr` say of their operands what is so. -/
structure WidthsRecorded (vm : VMState) : Prop where
  memCells : CellsOk Sized vm.mem.storedCells
  regCells : ∀ i, CellsOk Sized (vm.cpu.regCells i)
  last : ∀ d ∈ vm.eflagsMgr.lastExpr.nodes, d.OperandsFit

/-- Under a saved expression that is sized each node has operands that fit. -/
theorem LastOk.nodesFit {e : Expr} (h : LastOk Sized e) : ∀ d ∈ e.nodes, d.OperandsFit := by
  cases h with
  | null =>
    intro d hd
    rw [Expr.nodes, List.mem_singleton] at hd
    rw [hd]
    exact trivial
  | bin hk hr hl => exact operandsFit_bin hr hl _
  | neg he => exact (exprLaw_sized.neg he).nodes

/-- A declared symbol records its width when that is four bytes. -/
theorem sized_udefExpr {obj : SYMemObject} (h : obj.size = 4) :
    Sized (Expr.udefExpr (some obj)) obj.size := by
  constructor
  · rw [h]
    rfl
  · exact hasWidth_udef (by omega) 4
  · intro d hd
    rw [Expr.udefExpr, Expr.nodes, List.mem_singleton] at hd
    rw [hd]
    exact trivial

/-- After a run whose events fit and whose symbols have four bytes, every width is recorded.
A symbol records four bytes whatever its object has, so that the recorded width of anything
above it is right only for objects of four bytes. -/
theorem widths_recorded {vm : VMState} (h : EngineRun (EngineEvent.Fits (· = 4)) vm) :
    WidthsRecorded vm := by
  have hholds : VMHolds Sized vm := h.holds exprLaw_sized fun obj _ hsize => sized_udefExpr hsize
  exact ⟨hholds.cells.memCells, hholds.cells.regCells, hholds.last.nodesFit⟩

/-- A symbol of four bytes was added to `eax`: the register, the memory and the sum in
`m_LastExpr` record their widths. -/
theorem widths_recorded_added :
    ∃ vm, EngineRun (EngineEvent.Fits (· = 4)) vm ∧ vm.isSYReg ⟨.rax, .full⟩ = true ∧
      vm.eflagsMgr.lastExpr.nodes.length = 3 ∧ WidthsRecorded vm := by
  obtain ⟨vm, hrun, hsym, hlast⟩ := exists_addedSymbol (· = 4) 4 rfl rfl (by decide +kernel)
  exact ⟨vm, hrun, hsym, hlast, widths_recorded hrun⟩

/-- A symbol of eight bytes records four. The default of the constructor is never replaced.
-/
theorem widths_recorded_eight : ¬ ∀ vm, EngineRun (fun _ _ => True) vm → WidthsRecorded vm := by
  intro hall
  obtain ⟨vm, obj, hst, hcells, -⟩ := step_createSYMemObject_new 4096 8
    (by decide) (by decide) (by decide) (fun _ => 0) (fun _ => 0) false true 1 "S"
  have hrun : EngineRun (fun _ _ => True) vm :=
    .step (.createSYMemObject 4096 8 false true 1 "S") (.new _ _ (fun _ => rfl) _) rfl trivial hst
  have hsized := (hall vm hrun).memCells ⟨toInt64 4096, 8, Expr.udefExpr (some obj)⟩
    (by rw [hcells]; exact List.mem_singleton_self _)
  have hrec : (4 : Nat) = 8 := hsized.recorded
  simp at hrec

end KRover
