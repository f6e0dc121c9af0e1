import KRover.MainLoop
import KRover.Proofs.CallStack
import KRover.Proofs.CondTurn
import KRover.Proofs.EngineRun
import KRover.Proofs.ExecAccess

/-! # Turns of the main loop

A turn of `processFunction` does no more to the machine than accesses and changes
of the concrete registers, the flags and the concrete memory, around at most one
decision of a condition. `turn_turned` says so of every turn, and `mainLoop_keeps`
carries what a turn keeps over a run.

* `run_shape`: the lists and the marks stay well formed;
* `run_reads`: in every state of a run, registers and memory can be read.
-/

set_option autoImplicit false

namespace KRover

open BvTerm SymExecutor Relation

/-! ## Quiet steps -/

/-- A step that decides nothing: an access, or a change of what is concrete. -/
inductive MachineStep (vm : VMState) : VMState → Prop where
  | access {vm' : VMState} (h : Access vm vm') : MachineStep vm vm'
  | concrete (ptRegs : MacReg) (concrete : Nat → BitVec 8) (bsymFlag : Flag → Bool) :
    MachineStep vm { vm with
      cpu := { vm.cpu with ptRegs := ptRegs, bsymFlag := bsymFlag }
      mem := { vm.mem with concrete := concrete } }

/-- Steps one after the other. -/
abbrev Quiet : VMState → VMState → Prop := ReflTransGen MachineStep

section Steps

variable {vm vm' : VMState}

/-- The accesses of a handler are steps of the machine, one by one. -/
theorem Accesses.quiet (h : Accesses vm vm') : Quiet vm vm' :=
  h.lift id fun _ _ hacc => .access hacc

/-- No step of the machine declares an object or adds a constraint. -/
theorem MachineStep.objectsKept (h : MachineStep vm vm') : ObjectsKept vm vm' := by
  cases h with
  | access hacc => exact hacc.objectsKept
  | concrete ptRegs concrete bsymFlag => exact ⟨rfl, rfl, rfl⟩

/-- Nor do many. By induction on the run. -/
theorem Quiet.objectsKept (h : Quiet vm vm') : ObjectsKept vm vm' := by
  induction h with
  | refl => exact .refl vm
  | tail _ hstep ih => exact ih.trans hstep.objectsKept

/-- A step keeps the lists and the marks well formed. A change of concrete values touches
neither, and of an access it was shown before. -/
theorem VMShape.machineStep (h : VMShape vm) (hstep : MachineStep vm vm') : VMShape vm' := by
  cases hstep with
  | access hacc => exact h.access hacc
  | concrete ptRegs concrete bsymFlag => exact h.congr rfl rfl rfl rfl

/-- Many steps do. By induction on the run. -/
theorem VMShape.quiet (h : VMShape vm) (hrun : Quiet vm vm') : VMShape vm' := by
  induction hrun with
  | refl => exact h
  | tail _ hstep ih => exact ih.machineStep hstep

/-- A write of one of the words of `pt_regs` past the bitmap, as the dispatchers make it. -/
theorem quiet_setPtReg (vm : VMState) (i : PtIdx) (x : BitVec 64) : Quiet vm (vm.setPtReg i x) :=
  .single (.concrete (vm.cpu.setWord i x).ptRegs vm.mem.concrete vm.cpu.bsymFlag)

/-- A store through a raw pointer, as a call pushes its return address. -/
theorem quiet_storeWord {addr v : BitVec 64} (hstore : vm.storeWord addr v = some vm') :
    Quiet vm vm' := by
  rw [VMState.storeWord] at hstore
  split at hstore
  · rw [← Option.some.inj hstore]
    exact .single (.concrete vm.cpu.ptRegs _ vm.cpu.bsymFlag)
  · simp at hstore

/-- Fixing flags leaves the marks and the lists of the registers as they are. -/
theorem quiet_concreteFlag {id : EntryID} {bExecute ok : Bool} {cpu : SYCPUState}
    (hfix : EFlagsManager.concreteFlag vm.cpu id bExecute = some (ok, cpu)) :
    Quiet vm { vm with cpu := cpu } := by
  have hwords := sameWords_concreteFlag hfix
  have hcpu : cpu = { vm.cpu with ptRegs := cpu.ptRegs, bsymFlag := cpu.bsymFlag } := by
    show cpu = ⟨cpu.ptRegs, vm.cpu.symBitmap, vm.cpu.symList, cpu.bsymFlag⟩
    rw [← hwords.symBitmap, ← hwords.symList]
  rw [hcpu]
  exact .single (.concrete cpu.ptRegs vm.mem.concrete cpu.bsymFlag)

end Steps

/-! ## The test for symbolic operands -/

section Test

variable {st st' : ThinState} {slot : Nat} {C : CachedInsn} {b : Bool}

/-- The visitor reads the registers of an expression one by one, so it is a run of accesses.
By induction on the registers. -/
theorem visitRegisters_accesses {pos : ExprPos} {vm vm' : VMState} {nodes nodes' : NodeValues}
    {regs : List (MachRegister × Nat)}
    (hvisit : visitRegisters slot pos vm nodes regs = some (vm', nodes')) : Accesses vm vm' := by
  induction regs generalizing vm nodes with
  | nil => rw [← (Prod.mk.inj (Option.some.inj hvisit)).1]
  | cons P regs ih =>
    obtain ⟨⟨W, vm₁⟩, hread, hrest⟩ := bind_some hvisit
    exact .head (.readRegisterExpr hread) (ih hrest)

/-- The test of an address visits the registers and looks at the bitmap. -/
theorem testAddress_accesses {pos : ExprPos} {a : OperandAST} {gsBase : BitVec 64}
    (htest : st.testAddress slot pos a gsBase = some (b, st')) :
    Accesses st.vm st'.vm ∧ st'.symObjectsMap = st.symObjectsMap := by
  obtain ⟨⟨vm, nodes⟩, hvisit, hrest⟩ := bind_some htest
  obtain ⟨addr, -, hout⟩ := bind_some hrest
  rw [← (Prod.mk.inj (Option.some.inj hout)).2]
  exact ⟨visitRegisters_accesses hvisit, rfl⟩

/-- The test of a memory operand is that of its address, or nothing. -/
theorem testOperand_accesses {i : Nat} {O : Operand} {gsBase : BitVec 64} {kind : Bool}
    (htest : st.testOperand slot i O gsBase kind = some (b, st')) :
    Accesses st.vm st'.vm ∧ st'.symObjectsMap = st.symObjectsMap := by
  rw [ThinState.testOperand] at htest
  split at htest
  · exact testAddress_accesses htest
  · rw [← (Prod.mk.inj (Option.some.inj htest)).2]
    exact ⟨.refl, rfl⟩

/-- A test after a test; the second is made only if the first finds nothing. -/
theorem accesses_orElse {b₁ : Bool} {st₁ : ThinState} {next : Option (Bool × ThinState)}
    (hfirst : Accesses st.vm st₁.vm ∧ st₁.symObjectsMap = st.symObjectsMap)
    (hrest : (if b₁ then some (true, st₁) else next) = some (b, st'))
    (hnext : next = some (b, st') →
      Accesses st₁.vm st'.vm ∧ st'.symObjectsMap = st₁.symObjectsMap) :
    Accesses st.vm st'.vm ∧ st'.symObjectsMap = st.symObjectsMap := by
  split at hrest
  · rw [← (Prod.mk.inj (Option.some.inj hrest)).2]
    exact hfirst
  · have hsecond := hnext hrest
    exact ⟨hfirst.1.trans hsecond.1, hsecond.2.trans hfirst.2⟩

/-- The test of an operand may ask for the base of `gs` first, which is an access of its
own. -/
theorem operandHasSym_accesses {i : Nat} {O : Operand}
    (htest : st.operandHasSym slot C i O = some (b, st')) :
    Accesses st.vm st'.vm ∧ st'.symObjectsMap = st.symObjectsMap := by
  rw [ThinState.operandHasSym] at htest
  split at htest
  · obtain ⟨ret, -, htest⟩ := bind_some htest
    rw [← (Prod.mk.inj (Option.some.inj htest)).2]
    exact ⟨.refl, rfl⟩
  · obtain ⟨⟨gsBase, vm₁⟩, hgs, hrest⟩ := bind_some htest
    obtain ⟨⟨b₁, st₁⟩, hreads, hwrites⟩ := bind_some hrest
    have hfirst := testOperand_accesses hreads
    refine accesses_orElse ⟨(isUseGS_accesses hgs).trans hfirst.1, hfirst.2⟩ hwrites ?_
    exact testOperand_accesses

/-- The loop over the operands. It may end early, at one that is symbolic. -/
theorem operandsHaveSym_accesses {Os : List Operand} {i : Nat}
    (htest : st.operandsHaveSym slot C i Os = some (b, st')) :
    Accesses st.vm st'.vm ∧ st'.symObjectsMap = st.symObjectsMap := by
  induction Os generalizing st i with
  | nil =>
    rw [← (Prod.mk.inj (Option.some.inj htest)).2]
    exact ⟨.refl, rfl⟩
  | cons O Os ih =>
    obtain ⟨⟨b₁, st₁⟩, hfirst, hrest⟩ := bind_some htest
    exact accesses_orElse (operandHasSym_accesses hfirst) hrest ih

/-- The loop over the implicit accesses, by induction on them. -/
theorem implicitHasSym_accesses {pos : Nat → ExprPos} {accesses : List (OperandAST × Nat)}
    {i : Nat} (htest : st.implicitHasSym slot pos i accesses = some (b, st')) :
    Accesses st.vm st'.vm ∧ st'.symObjectsMap = st.symObjectsMap := by
  induction accesses generalizing st i with
  | nil =>
    rw [← (Prod.mk.inj (Option.some.inj htest)).2]
    exact ⟨.refl, rfl⟩
  | cons a accesses ih =>
    obtain ⟨⟨b₁, st₁⟩, hfirst, hrest⟩ := bind_some htest
    exact accesses_orElse (testAddress_accesses hfirst) hrest ih

/-- So asking for symbolic operands reads the machine and nothing else. In particular it
enters no object into the map of the solver. -/
theorem hasSymOperand_accesses (htest : st.hasSymOperand slot C = some (b, st')) :
    Accesses st.vm st'.vm ∧ st'.symObjectsMap = st.symObjectsMap := by
  obtain ⟨⟨b₁, st₁⟩, hfirst, hrest⟩ := bind_some htest
  refine accesses_orElse (operandsHaveSym_accesses hfirst) hrest fun himplicit => ?_
  obtain ⟨⟨b₂, st₂⟩, hreads, hwrites⟩ := bind_some himplicit
  exact accesses_orElse (implicitHasSym_accesses hreads) hwrites implicitHasSym_accesses

end Test

/-! ## Decisions -/

/-- The constraint that comes from a decision. -/
def decidedConstraint (c : Expr) (b : Bool) : Expr :=
  if b then c else .ury .lNot c c.getExprSize

/-- The condition that is decided for an instruction whose flags are not definite,
and the answer. -/
def ThinState.decisionOf (S : Simplifier) (st : ThinState) (id : EntryID) :
    Option (Expr × Bool) :=
  if st.vm.flagsDefinite id then none
  else do
    let c ← st.vm.eflagsMgr.getCondition id
    let b ← (st.vm.evalCondition S st.symObjectsMap id).map (·.1)
    return (c, b)

/-- The instructions that look at flags: every one of the default case, and a
branch that can fall through. -/
def DecodedInsn.decides (insn : DecodedInsn) : Bool :=
  insn.id ≠ .nop && match insn.category with
    | .returnInsn | .callInsn => false
    | .branchInsn => insn.allowsFallThrough
    | .other => true

/-- What is decided in the next turn. -/
def LoopState.decision (S : Simplifier) (decode : Nat → DecodedInsn) (st : LoopState) :
    Option (Expr × Bool) := do
  let (insn, _) ← st.fetch decode
  if insn.decides then st.thin.decisionOf S insn.id else none

section Decisions

variable {S : Simplifier} {vm vm₁ vm' : VMState} {objs objs' : List SYMemObject} {id : EntryID}
  {b : Bool}

/-- An answer is to a condition that translates, and all that changes is that a
constraint is added. -/
theorem evalCondition_spec (heval : vm.evalCondition S objs id = some (b, vm', objs')) :
    ∃ c t, vm.eflagsMgr.getCondition id = some c ∧ z3HandlingExprPtr c = .ok ⟨.bool, t⟩ ∧
      objs' = objs ++ metObjects c ∧
      vm' = { vm with eflagsMgr := { vm.eflagsMgr with
        constraint := vm.eflagsMgr.constraint ++ [decidedConstraint c b] } } := by
  obtain ⟨c, hget, hrest⟩ := bind_some heval
  dsimp only at hrest
  split at hrest
  · simp at hrest
  · split at hrest
    · simp at hrest
    · rename_i b' objs₁ hsolve
      obtain ⟨hb, hpair⟩ := Prod.mk.inj (Option.some.inj hrest)
      obtain ⟨hvm, hmap⟩ := Prod.mk.inj hpair
      subst hb hmap
      -- the solver has answered, so the condition is a Boolean term
      rw [z3SolveConcritize] at hsolve
      cases hz : z3HandlingExprPtr c with
      | error e => simp [hz, bind, Except.bind] at hsolve
      | ok t =>
        rw [hz] at hsolve
        obtain ⟨sort, t⟩ := t
        cases sort with
        | bv w => simp [bind, Except.bind, SomeTerm.bitwise, z3Call] at hsolve
        | bool =>
          have hout := (Prod.mk.inj (Except.ok.inj hsolve)).2
          exact ⟨c, t, hget, hz, hout.symm, hvm.symm⟩

/-- The answer alone. -/
theorem map_evalCondition (vm : VMState) :
    (vm.evalCondition S objs id).map (·.1) = (vm.eflagsMgr.getCondition id).bind fun c =>
      if c.isNull then none
      else (z3SolveConcritize S objs (vm.symMemObjects.map (·.2)) c).toOption.map (·.1) := by
  rw [VMState.evalCondition]
  cases vm.eflagsMgr.getCondition id with
  | none => rfl
  | some c =>
    simp only [Option.bind_eq_bind, Option.bind_some]
    split
    · rfl
    · cases z3SolveConcritize S objs (vm.symMemObjects.map (·.2)) c with
      | error e => rfl
      | ok r => rfl

/-- It depends on the flags manager and the objects only. -/
theorem evalCondition_congr (hmgr : vm₁.eflagsMgr = vm.eflagsMgr)
    (hobjs : vm₁.symMemObjects = vm.symMemObjects) :
    (vm₁.evalCondition S objs id).map (·.1) = (vm.evalCondition S objs id).map (·.1) := by
  rw [map_evalCondition, map_evalCondition, hmgr, hobjs]

/-- Whether flags are definite is asked of their marks only. -/
theorem flagsDefinite_congr (hflags : vm₁.cpu.bsymFlag = vm.cpu.bsymFlag) :
    vm₁.flagsDefinite id = vm.flagsDefinite id := by
  have hdefinite : vm₁.cpu.flagBitDefinited = vm.cpu.flagBitDefinited := by
    funext f
    rw [SYCPUState.flagBitDefinited, SYCPUState.flagBitDefinited, hflags]
  rw [VMState.flagsDefinite, VMState.flagsDefinite, hdefinite]

/-- The decision of a state depends on the marks of the flags, the saved expression and the
constraints, and the declared objects. What moves registers or cells keeps it. -/
theorem decisionOf_congr {st st₁ : ThinState} (hflags : st₁.vm.cpu.bsymFlag = st.vm.cpu.bsymFlag)
    (hmgr : st₁.vm.eflagsMgr = st.vm.eflagsMgr)
    (hobjs : st₁.vm.symMemObjects = st.vm.symMemObjects)
    (hmap : st₁.symObjectsMap = st.symObjectsMap) :
    st₁.decisionOf S id = st.decisionOf S id := by
  rw [ThinState.decisionOf, ThinState.decisionOf, flagsDefinite_congr hflags, hmgr, hmap,
    evalCondition_congr hmgr hobjs]

end Decisions

/-! ## Turns -/

/-- A turn of the loop with what it decides: it is quiet, or quiet but for one
decision. -/
inductive Turned (S : Simplifier) (id : EntryID) (st st' : ThinState) :
    Option (Expr × Bool) → Prop where
  | quiet (hrun : Quiet st.vm st'.vm) (hmap : st'.symObjectsMap = st.symObjectsMap) :
    Turned S id st st' none
  | decided (c : Expr) (b : Bool) (vm₁ vm₂ : VMState) (hbefore : Quiet st.vm vm₁)
      (hmgr : vm₁.eflagsMgr = st.vm.eflagsMgr)
      (hget : st.vm.eflagsMgr.getCondition id = some c)
      (heval : vm₁.evalCondition S st.symObjectsMap id = some (b, vm₂, st'.symObjectsMap))
      (hafter : Quiet vm₂ st'.vm) : Turned S id st st' (some (c, b))

section Turns

variable {S : Simplifier} {st st₁ st' : ThinState} {id : EntryID} {d : Option (Expr × Bool)}

/-- Quiet steps before a turn. -/
theorem Turned.head (hbefore : Quiet st.vm st₁.vm) (hmgr : st₁.vm.eflagsMgr = st.vm.eflagsMgr)
    (hmap : st₁.symObjectsMap = st.symObjectsMap) (h : Turned S id st₁ st' d) :
    Turned S id st st' d := by
  cases h with
  | quiet hrun hmap' => exact .quiet (hbefore.trans hrun) (hmap'.trans hmap)
  | decided c b vm₁ vm₂ hbefore₁ hmgr₁ hget heval hafter =>
    rw [hmgr] at hget
    rw [hmap] at heval
    exact .decided c b vm₁ vm₂ (hbefore.trans hbefore₁) (hmgr₁.trans hmgr) hget heval hafter

/-- Quiet steps behind a turn. -/
theorem Turned.tail (h : Turned S id st st₁ d) (hafter : Quiet st₁.vm st'.vm)
    (hmap : st'.symObjectsMap = st₁.symObjectsMap) : Turned S id st st' d := by
  cases h with
  | quiet hrun hmap₁ => exact .quiet (hrun.trans hafter) (hmap.trans hmap₁)
  | decided c b vm₁ vm₂ hbefore hmgr hget heval hafter₁ =>
    rw [← hmap] at heval
    exact .decided c b vm₁ vm₂ hbefore hmgr hget heval (hafter₁.trans hafter)

/-- A condition is decided when the flags are not definite. -/
theorem turned_evalCondition {b : Bool} {vm' : VMState} {objs' : List SYMemObject}
    (hflags : st.vm.flagsDefinite id = false)
    (heval : st.vm.evalCondition S st.symObjectsMap id = some (b, vm', objs')) :
    Turned S id st { st with vm := vm', symObjectsMap := objs' } (st.decisionOf S id) := by
  obtain ⟨c, t, hget, -, -, -⟩ := evalCondition_spec heval
  have hdecision : st.decisionOf S id = some (c, b) := by
    rw [ThinState.decisionOf, hflags, hget, heval]
    rfl
  rw [hdecision]
  exact .decided c b st.vm vm' .refl rfl hget heval .refl

/-- With definite flags there is no decision, and a turn without one is quiet. -/
theorem turned_definite (hflags : st.vm.flagsDefinite id = true) (hrun : Quiet st.vm st'.vm)
    (hmap : st'.symObjectsMap = st.symObjectsMap) : Turned S id st st' (st.decisionOf S id) := by
  have hdecision : st.decisionOf S id = none := by
    rw [ThinState.decisionOf, hflags]
    rfl
  rw [hdecision]
  exact .quiet hrun hmap

/-! ### Control transfers -/

/-- The decision of a conditional jump, as what it does to the constraint: with definite
flags nothing, and with uncertain ones one more entry. -/
theorem updateJCCDecision_turned {bExecute : Bool}
    (hstep : st.updateJCCDecision S id = some (bExecute, st')) :
    Turned S id st st' (st.decisionOf S id) := by
  obtain ⟨⟨concreted, bChoice⟩, hdep, hrest⟩ := bind_some hstep
  have hflags := dependFlagCon_eq hdep
  dsimp only at hrest
  cases hconc : concreted with
  | false =>
    rw [hconc] at hrest hflags
    obtain ⟨⟨b, vm₁, objs⟩, heval, hrest⟩ := bind_some hrest
    obtain ⟨⟨ok, cpu⟩, hfix, hout⟩ := bind_some hrest
    rw [← (Prod.mk.inj (Option.some.inj hout)).2]
    exact (turned_evalCondition hflags.symm heval).tail (quiet_concreteFlag hfix) rfl
  | true =>
    rw [hconc] at hrest hflags
    obtain ⟨ret, -, hout⟩ := bind_some hrest
    rw [← (Prod.mk.inj (Option.some.inj hout)).2]
    exact turned_definite hflags.symm .refl rfl

/-- What a jump decides: nothing, unless it can fall through. -/
theorem goIf_turned {allowsFallThrough : Bool} {t : BitVec 64}
    (hstep : st.goIf S id allowsFallThrough t = some st') :
    Turned S id st st' (if allowsFallThrough then st.decisionOf S id else none) := by
  cases allowsFallThrough with
  | false =>
    rw [← Option.some.inj hstep]
    exact .quiet (quiet_setPtReg st.vm .rip t) rfl
  | true =>
    obtain ⟨⟨bExecute, st₁⟩, hjcc, hrest⟩ := bind_some hstep
    have hturned := updateJCCDecision_turned hjcc
    dsimp only at hrest
    split at hrest
    · rw [← Option.some.inj hrest]
      exact hturned.tail (quiet_setPtReg st₁.vm .rip t) rfl
    · rw [← Option.some.inj hrest]
      exact hturned

/-- A target in a register is read once. -/
theorem registerTarget_accesses {vm vm' : VMState} {O : Operand} {t : BitVec 64}
    (hread : vm.registerTarget O = some (t, vm')) : Accesses vm vm' := by
  rw [VMState.registerTarget] at hread
  split at hread
  · obtain ⟨⟨RV, vm₁⟩, hreg, hrest⟩ := bind_some hread
    dsimp only at hrest
    split at hrest
    · simp at hrest
    · rw [← (Prod.mk.inj (Option.some.inj hrest)).2]
      exact .single (.readRegisterExpr hreg)
  · simp at hread

/-- A target in memory is read once, behind the registers of its address. -/
theorem memoryTarget_accesses {vm vm' : VMState} {O : Operand} {bsym : Bool} {t : BitVec 64}
    (hread : vm.memoryTarget O bsym = some (t, vm')) : Accesses vm vm' := by
  obtain ⟨⟨noSymReg, vm₁⟩, hbind, hrest⟩ := bind_some hread
  obtain ⟨⟨symReg, vm₂⟩, hfind, hout⟩ := bind_some hbind
  obtain ⟨-, rfl⟩ := Prod.mk.inj (Option.some.inj hout)
  dsimp only at hrest
  split at hrest
  · simp at hrest
  · obtain ⟨⟨MV, vm₃⟩, hmem, hrest⟩ := bind_some hrest
    dsimp only at hrest
    split at hrest
    · rw [← (Prod.mk.inj (Option.some.inj hrest)).2]
      exact (findSymReg_accesses hfind).tail (.readMemory _ MV rfl (asserted_eq_some.1 hmem))
    · simp at hrest

/-- Reading a target changes nothing that can be seen. -/
theorem registerTarget_sameCells {vm vm' : VMState} (h : VMShape vm) {O : Operand}
    {t : BitVec 64} (hread : vm.registerTarget O = some (t, vm')) : SameCells vm vm' := by
  rw [VMState.registerTarget] at hread
  split at hread
  · obtain ⟨⟨RV, vm₁⟩, hreg, hrest⟩ := bind_some hread
    dsimp only at hrest
    split at hrest
    · simp at hrest
    · rw [← (Prod.mk.inj (Option.some.inj hrest)).2]
      exact (h.readRegisterExpr hreg).2.1
  · simp at hread

/-- A jump behind the reads that find its target. -/
theorem goIf_turned_behind {vm : VMState} {allowsFallThrough : Bool} {t : BitVec 64}
    (hreads : Accesses st.vm vm) (hsame : SameCells st.vm vm)
    (hstep : { st with vm := vm }.goIf S id allowsFallThrough t = some st') :
    Turned S id st st' (if allowsFallThrough then st.decisionOf S id else none) := by
  have hturned := goIf_turned hstep
  have hdecision : ({ st with vm := vm } : ThinState).decisionOf S id = st.decisionOf S id :=
    decisionOf_congr hsame.bsymFlag hsame.eflagsMgr hreads.objectsKept.symMemObjects rfl
  rw [hdecision] at hturned
  refine Turned.head ?_ ?_ ?_ hturned
  · exact hreads.quiet
  · exact hsame.eflagsMgr
  · rfl

/-- A jump makes a decision when it may fall through, and none when it may not. The target
is read before or behind it. -/
theorem dispatchBranch_turned (h : VMShape st.vm) {C : CachedInsn} {allowsFallThrough : Bool}
    (hstep : st.dispatchBranch S C allowsFallThrough = some st') :
    Turned S C.id st st' (if allowsFallThrough then st.decisionOf S C.id else none) := by
  rw [ThinState.dispatchBranch] at hstep
  split at hstep
  · split at hstep
    · split at hstep
      · exact goIf_turned hstep
      · obtain ⟨⟨t, vm₁⟩, htarget, hrest⟩ := bind_some hstep
        exact goIf_turned_behind (registerTarget_accesses htarget)
          (registerTarget_sameCells h htarget) hrest
    · obtain ⟨⟨t, vm₁⟩, htarget, hrest⟩ := bind_some hstep
      have hsame := (h.memoryTarget_spec htarget).2.2.2.1
      exact goIf_turned_behind (memoryTarget_accesses htarget) hsame hrest
  · simp at hstep

/-- The push of a return address moves a register and writes a word. -/
theorem pushAndGo_quiet {vm vm' : VMState} {t : BitVec 64} (hpush : vm.pushAndGo t = some vm') :
    Quiet vm vm' := by
  obtain ⟨vm₁, hstore, hout⟩ := bind_some hpush
  rw [← Option.some.inj hout]
  exact ((quiet_setPtReg vm .rsp _).trans (quiet_storeWord hstore)).trans (quiet_setPtReg _ .rip _)

/-- So a call is quiet, whatever its target is. -/
theorem dispatchCall_quiet {vm vm' : VMState} {C : CachedInsn}
    (hcall : vm.dispatchCall C = some vm') : Quiet vm vm' := by
  rw [VMState.dispatchCall] at hcall
  split at hcall
  · split at hcall
    · split at hcall
      · exact pushAndGo_quiet hcall
      · obtain ⟨⟨t, vm₁⟩, htarget, hpush⟩ := bind_some hcall
        exact (registerTarget_accesses htarget).quiet.trans (pushAndGo_quiet hpush)
    · obtain ⟨⟨t, vm₁⟩, htarget, hpush⟩ := bind_some hcall
      exact (memoryTarget_accesses htarget).quiet.trans (pushAndGo_quiet hpush)
  · simp at hcall

/-- And so is a return, which moves two registers. -/
theorem dispatchRet_quiet {vm vm' : VMState} (hret : vm.dispatchRet = some vm') :
    Quiet vm vm' := by
  rw [VMState.dispatchRet] at hret
  split at hret
  · simp at hret
  · obtain ⟨t, -, hout⟩ := bind_some hret
    rw [← Option.some.inj hout]
    exact (quiet_setPtReg vm .rip t).trans (quiet_setPtReg _ .rsp _)

/-! ### The default case -/

variable {slot : Nat} {C : CachedInsn}
  {processor : Instruction → MacReg → (Nat → BitVec 8) → MacReg × (Nat → BitVec 8)}

/-- What the executor does in a turn is a run of accesses. That the instruction is deleted
behind it shows in `freed` only. -/
theorem symExec_quiet (h : VMShape st.vm) (hdec : C.toInstruction.Decoded)
    (hmov : C.toInstruction.MovesWhole) (hexec : st.symExec slot C = some st') :
    Quiet st.vm st'.vm ∧ st'.symObjectsMap = st.symObjectsMap := by
  constructor
  · exact (exec_accesses h hdec hmov (symExec_vm hexec)).quiet
  · obtain ⟨nodes, -, hrest⟩ := bind_some hexec
    obtain ⟨vm, -, hout⟩ := bind_some hrest
    rw [← Option.some.inj hout]

/-- A native instruction changes concrete values, and `bsym_flag` at most. -/
theorem insnDispatch_quiet (st : ThinState) : Quiet st.vm (st.insnDispatch processor C).vm :=
  .single (.concrete _ _ st.vm.cpu.bsymFlag)

/-- `rip` moves to the next instruction before anything else. -/
theorem advanceRip_quiet (st : ThinState) (C : CachedInsn) : Quiet st.vm (st.advanceRip C).vm :=
  quiet_setPtReg st.vm .rip _

/-- No decision depends on `rip`. -/
theorem decisionOf_advanceRip (st : ThinState) (C : CachedInsn) (id : EntryID) :
    (st.advanceRip C).decisionOf S id = st.decisionOf S id :=
  decisionOf_congr rfl rfl rfl rfl

/-- What the default case decides: its own condition, when the flags are not
definite. -/
theorem defaultCase_turned (h : VMShape st.vm) (hdec : C.toInstruction.Decoded)
    (hmov : C.toInstruction.MovesWhole)
    (hstep : st.defaultCase S processor slot C = some st') :
    Turned S C.id st st' (st.decisionOf S C.id) := by
  rw [← decisionOf_advanceRip st C]
  refine Turned.head (advanceRip_quiet st C) rfl rfl ?_
  have hadv : VMShape (st.advanceRip C).vm := h.quiet (advanceRip_quiet st C)
  obtain ⟨⟨d, st₁⟩, hdispatch, hrest⟩ := bind_some hstep
  obtain ⟨⟨concreted, bChoice⟩, hdep, hdispatch⟩ := bind_some hdispatch
  have hflags := dependFlagCon_eq hdep
  dsimp only at hdispatch hrest
  cases hconc : concreted with
  | false =>
    rw [hconc] at hdispatch hflags
    obtain ⟨⟨b, vm₁, objs⟩, heval, hout⟩ := bind_some hdispatch
    obtain ⟨rfl, rfl⟩ := Prod.mk.inj (Option.some.inj hout)
    have hturned := turned_evalCondition hflags.symm heval
    obtain ⟨c, t, -, -, -, hvm⟩ := evalCondition_spec heval
    have hshape : VMShape vm₁ := hvm ▸ hadv.congr rfl rfl rfl rfl
    cases b with
    | false =>
      rw [← Option.some.inj hrest]
      exact hturned
    | true =>
      -- the executor runs, and the operation of the deleted instruction is read
      obtain ⟨st₂, hexec, hrest⟩ := bind_some hrest
      rw [symExec_freed hexec] at hrest
      exact absurd hrest (by simp)
  | true =>
    rw [hconc] at hdispatch hflags
    obtain ⟨⟨b, st₂⟩, htest, hout⟩ := bind_some hdispatch
    obtain ⟨rfl, rfl⟩ := Prod.mk.inj (Option.some.inj hout)
    obtain ⟨hacc, hmap⟩ := hasSymOperand_accesses htest
    cases b with
    | true =>
      obtain ⟨hquiet, hmap'⟩ := symExec_quiet (hadv.accesses hacc) hdec hmov hrest
      exact turned_definite hflags.symm (hacc.quiet.trans hquiet) (hmap'.trans hmap)
    | false =>
      have hnative : Quiet st₂.vm (st₂.insnDispatch processor C).vm := insnDispatch_quiet st₂
      have hquiet := hacc.quiet.trans hnative
      simp only [Bool.false_eq_true, if_false] at hrest
      split at hrest
      · rw [← Option.some.inj hrest]
        refine turned_definite hflags.symm (hquiet.tail ?_) hmap
        exact .concrete _ _ (st₂.insnDispatch processor C).vm.cpu.clearAllSymFlag.bsymFlag
      · rw [← Option.some.inj hrest]
        exact turned_definite hflags.symm hquiet hmap

end Turns

/-! ### One turn -/

/-- What the decoder promises of an instruction that the executor may be handed. -/
structure DecodedInsn.Handled (insn : DecodedInsn) : Prop where
  decoded : insn.category = .other → insn.id ≠ .nop → insn.toInstruction.Decoded
  movesWhole : insn.category = .other → insn.toInstruction.MovesWhole

/-- Between two turns: the machine is well formed, and the decoder has kept its
promise for what is in the cache. -/
structure LoopState.Good (st : LoopState) : Prop where
  shape : VMShape st.thin.vm
  cached : ∀ i insn, st.insnCache i = some insn → insn.Handled

namespace LoopState

variable {S : Simplifier}
  {processor : Instruction → MacReg → (Nat → BitVec 8) → MacReg × (Nat → BitVec 8)}
  {decode : Nat → DecodedInsn} (hdecode : ∀ addr, (decode addr).Handled)
  {st st' : LoopState} {looks ended : Bool} {termRsp : BitVec 64} {turns : Nat}

section Fetch

include hdecode

/-- An instruction comes from the decoder, at this visit or at an earlier one. -/
theorem handled_fetchAt (hcached : ∀ i insn, st.insnCache i = some insn → insn.Handled)
    {addr : Nat} {insn : DecodedInsn} {insnCache : Nat → Option DecodedInsn}
    (hfetch : st.fetchAt decode addr = some (insn, insnCache)) :
    insn.Handled ∧ ∀ i insn, insnCache i = some insn → insn.Handled := by
  rw [LoopState.fetchAt, UntaggedCache.handOut] at hfetch
  split at hfetch
  · simp at hfetch
  · have hall : (UntaggedCache.fetch insnCacheIdx decode st.insnCache addr).1.Handled ∧ _ :=
      UntaggedCache.fetch_all hdecode hcached addr
    rw [Option.some.inj hfetch] at hall
    exact hall

end Fetch

/-- What the switch over the category decides. -/
theorem dispatchInsn_turned {thin thin' : ThinState} {idx : Nat} {insn : DecodedInsn}
    (h : VMShape thin.vm) (hinsn : insn.Handled) (hnop : insn.id ≠ .nop)
    (hstep : dispatchInsn S processor thin idx insn = some (looks, thin')) :
    Turned S insn.id thin thin' (if insn.decides then thin.decisionOf S insn.id else none) := by
  have hquiet := advanceRip_quiet thin insn.toCachedInsn
  have hdecides : insn.decides = match insn.category with
      | .returnInsn | .callInsn => false
      | .branchInsn => insn.allowsFallThrough
      | .other => true := by
    rw [DecodedInsn.decides, decide_eq_true hnop, Bool.true_and]
  rw [hdecides]
  rw [dispatchInsn] at hstep
  cases hcat : insn.category with
  | returnInsn =>
    rw [hcat] at hstep
    obtain ⟨vm, hret, hout⟩ := bind_some hstep
    rw [← (Prod.mk.inj (Option.some.inj hout)).2]
    exact .quiet (hquiet.trans (dispatchRet_quiet hret)) rfl
  | callInsn =>
    rw [hcat] at hstep
    obtain ⟨vm, hcall, hout⟩ := bind_some hstep
    rw [← (Prod.mk.inj (Option.some.inj hout)).2]
    exact .quiet (hquiet.trans (dispatchCall_quiet hcall)) rfl
  | branchInsn =>
    rw [hcat] at hstep
    obtain ⟨thin₁, hbranch, hout⟩ := bind_some hstep
    rw [← (Prod.mk.inj (Option.some.inj hout)).2]
    have hturned := dispatchBranch_turned (h.quiet hquiet) hbranch
    rw [decisionOf_advanceRip] at hturned
    exact hturned.head hquiet rfl rfl
  | other =>
    rw [hcat] at hstep
    -- the first part only looks whether the turn ends with `continue`
    obtain ⟨d, -, hrest⟩ := bind_some hstep
    obtain ⟨thin₁, hcase, hout⟩ := bind_some hrest
    rw [← (Prod.mk.inj (Option.some.inj hout)).2]
    exact defaultCase_turned h (hinsn.decoded hcat hnop) (hinsn.movesWhole hcat) hcase

variable {insn : DecodedInsn} {insnCache : Nat → Option DecodedInsn}

/-- A turn by the instruction that it takes. -/
theorem turn_eq (hfetch : st.fetch decode = some (insn, insnCache)) :
    st.turn S processor decode = if insn.id = .nop then
      some (false, ⟨st.thin.advanceRip insn.toCachedInsn, insnCache, st.z3ApiCalls⟩)
    else (st.countZ3Call insn).bind fun z3ApiCalls =>
      (dispatchInsn S processor st.thin (insnCacheIdx st.crtAddr) insn).bind fun P =>
        some (P.1, ⟨P.2, insnCache, z3ApiCalls⟩) := by
  rw [LoopState.turn, hfetch]
  rfl

/-- The decision of the next turn, by the instruction that is fetched for it. -/
theorem decision_eq (hfetch : st.fetch decode = some (insn, insnCache)) :
    st.decision S decode = if insn.decides then st.thin.decisionOf S insn.id else none := by
  rw [LoopState.decision, hfetch]
  rfl

/-- A turn that does not stop has taken an instruction. -/
theorem fetch_of_turn (hturn : st.turn S processor decode = some (looks, st')) :
    ∃ insn insnCache, st.fetch decode = some (insn, insnCache) := by
  obtain ⟨⟨insn, insnCache⟩, hfetch, -⟩ := bind_some hturn
  exact ⟨insn, insnCache, hfetch⟩

section Turn

include hdecode

/-- A turn decides at most one condition, and nothing else is decided in it. -/
theorem turn_turned (h : st.Good) (hfetch : st.fetch decode = some (insn, insnCache))
    (hturn : st.turn S processor decode = some (looks, st')) :
    Turned S insn.id st.thin st'.thin (st.decision S decode) ∧ st'.insnCache = insnCache := by
  obtain ⟨hinsn, -⟩ := handled_fetchAt hdecode h.cached hfetch
  rw [turn_eq hfetch] at hturn
  rw [decision_eq hfetch]
  split at hturn
  · rename_i hnop
    rw [← (Prod.mk.inj (Option.some.inj hturn)).2]
    have hdecides : insn.decides = false := by
      rw [DecodedInsn.decides, hnop]
      rfl
    rw [hdecides]
    exact ⟨.quiet (advanceRip_quiet st.thin _) rfl, rfl⟩
  · rename_i hnop
    obtain ⟨z3ApiCalls, -, hturn⟩ := Option.bind_eq_some_iff.1 hturn
    obtain ⟨⟨looks', thin⟩, hdispatch, hout⟩ := Option.bind_eq_some_iff.1 hturn
    rw [← (Prod.mk.inj (Option.some.inj hout)).2]
    exact ⟨dispatchInsn_turned h.shape hinsn hnop hdispatch, rfl⟩

/-- A turn leaves the machine well formed and the cache with handled instructions. What the
turn took into the cache is a decoded instruction, and the decoder keeps its promise. -/
theorem Good.turn (h : st.Good) (hturn : st.turn S processor decode = some (looks, st')) :
    st'.Good := by
  obtain ⟨insn, insnCache, hfetch⟩ := fetch_of_turn hturn
  obtain ⟨hturned, hcache⟩ := turn_turned hdecode h hfetch hturn
  generalize st.decision S decode = d at hturned
  constructor
  · cases hturned with
    | quiet hrun hmap => exact h.shape.quiet hrun
    | decided c b vm₁ vm₂ hbefore hmgr hget heval hafter =>
      obtain ⟨_, _, -, -, -, hvm⟩ := evalCondition_spec heval
      have h₂ : VMShape vm₂ := hvm ▸ (h.shape.quiet hbefore).congr rfl rfl rfl rfl
      exact h₂.quiet hafter
  · rw [hcache]
    exact (handled_fetchAt hdecode h.cached hfetch).2

end Turn

/-! ## The pass before the loop -/

/-- The pass before the loop puts instructions into the cache and changes nothing else. -/
theorem preDisassemble_keeps {P : (Nat → Option DecodedInsn) → Prop} {call : FunctionCall}
    {crtAddr cfCounter : Nat} {done : Bool}
    (hkeep : ∀ (st : LoopState) addr insn insnCache, P st.insnCache →
      st.fetchAt decode addr = some (insn, insnCache) → P insnCache)
    (h : P st.insnCache)
    (hrun : preDisassemble decode call turns crtAddr cfCounter st = some (done, st')) :
    st'.thin = st.thin ∧ st'.z3ApiCalls = st.z3ApiCalls ∧ P st'.insnCache := by
  induction turns generalizing st crtAddr cfCounter with
  | zero =>
    rw [← (Prod.mk.inj (Option.some.inj hrun)).2]
    exact ⟨rfl, rfl, h⟩
  | succ turns ih =>
    obtain ⟨⟨insn, insnCache⟩, hfetch, hrest⟩ := bind_some hrun
    have hnext : P insnCache := hkeep st crtAddr insn insnCache h hfetch
    dsimp only at hrest
    split at hrest
    · rw [← (Prod.mk.inj (Option.some.inj hrest)).2]
      exact ⟨rfl, rfl, hnext⟩
    · -- the state that goes on differs from this one in its table only
      exact @ih { st with insnCache := insnCache } _ _ hnext hrest

/-- The state in which the loop is entered: the file was opened and the pass before the
loop has come to its end. -/
def loopEntry (decode : Nat → DecodedInsn) (file : Option (Nat × (Nat → Nat))) (preTurns : Nat)
    (st : LoopState) : Option LoopState :=
  match file with
  | none => none
  | some (endRIP, nextIP) =>
    match preDisassemble decode ⟨st.crtAddr, endRIP, nextIP, []⟩ preTurns st.crtAddr 0 st with
    | some (true, st₁) => some st₁
    | _ => none

variable {st₁ : LoopState} {file : Option (Nat × (Nat → Nat))} {preTurns : Nat}
  {progress : Progress}

/-- What every turn keeps, a run keeps. -/
theorem mainLoop_keeps {P : LoopState → Prop}
    (hkeep : ∀ st looks st', P st → st.turn S processor decode = some (looks, st') → P st')
    (h : P st) (hrun : mainLoop S processor decode termRsp turns st = some (ended, st')) :
    P st' := by
  induction turns generalizing st with
  | zero =>
    rw [← (Prod.mk.inj (Option.some.inj hrun)).2]
    exact h
  | succ turns ih =>
    obtain ⟨⟨looks, st₁⟩, hturn, hrest⟩ := bind_some hrun
    have h₁ := hkeep st looks st₁ h hturn
    dsimp only at hrest
    split at hrest
    · rw [← (Prod.mk.inj (Option.some.inj hrest)).2]
      exact h₁
    · exact ih h₁ hrest

include hdecode

/-- So does the loop, by induction on the turns. -/
theorem run_good (h : st.Good)
    (hrun : mainLoop S processor decode termRsp turns st = some (ended, st')) : st'.Good :=
  mainLoop_keeps (fun _ _ _ hst hturn => hst.turn hdecode hturn) h hrun

/-- So does the pass before the loop, which fills the cache and leaves the machine alone. -/
theorem preDisassemble_good {call : FunctionCall} {crtAddr cfCounter : Nat} {done : Bool}
    (h : st.Good)
    (hrun : preDisassemble decode call turns crtAddr cfCounter st = some (done, st')) :
    st'.Good := by
  obtain ⟨hthin, -, hcached⟩ := preDisassemble_keeps
    (fun _ _ _ _ hcached hfetch => (handled_fetchAt hdecode hcached hfetch).2) h.cached hrun
  exact ⟨by rw [hthin]; exact h.shape, hcached⟩

/-- However far `processFunction` comes. -/
theorem processFunction_good (h : st.Good)
    (hrun : st.processFunction S processor decode file preTurns turns = some (progress, st')) :
    st'.Good := by
  cases file with
  | none =>
    rw [← (Prod.mk.inj (Option.some.inj hrun)).2]
    exact h
  | some P =>
    obtain ⟨⟨done, st₁⟩, hpre, hrest⟩ := bind_some hrun
    have h₁ : st₁.Good := preDisassemble_good hdecode h hpre
    dsimp only at hrest
    split at hrest
    · obtain ⟨⟨ended, st₂⟩, hloop, hout⟩ := bind_some hrest
      rw [← (Prod.mk.inj (Option.some.inj hout)).2]
      exact run_good hdecode h₁ hloop
    · rw [← (Prod.mk.inj (Option.some.inj hrest)).2]
      exact h₁

end LoopState

/-- Registers and memory can be read, and a read changes nothing that can be seen. There is
one exception: symbolic memory on both sides of the border of a chunk, of which a read
fails. -/
structure VMState.Reads (vm : VMState) : Prop where
  register : ∀ r size b, dyinstEncoding r = some size →
    ∃ W vm', vm.readRegister (regRead r size b) = some (true, W, vm') ∧ SameCells vm vm'
  memory : ∀ addr size b, AccessRange addr size →
    (vm.mem.isSYMemoryCell addr size = true → SYMemState.crossesChunk addr size = false) →
    ∃ W vm', vm.readMemory (memRead addr size b) = some (true, W, vm') ∧ SameCells vm vm'
  crossing : ∀ addr size b, AccessRange addr size → vm.mem.isSYMemoryCell addr size = true →
    SYMemState.crossesChunk addr size = true →
    asserted (vm.readMemory (memRead addr size b)) = none

/-- In a well-formed machine everything can be read but symbolic bytes over the border of a
chunk. -/
theorem VMShape.reads {vm : VMState} (h : VMShape vm) : vm.Reads := by
  refine ⟨?_, ?_, ?_⟩
  · intro r size b henc
    obtain ⟨vm', hread, -, hsame⟩ := h.exists_readRegister henc b
    exact ⟨_, vm', hread, hsame⟩
  · intro addr size b hr hcross
    have hread : ∃ W vm', vm.readMemory (memRead addr size b) = some (true, W, vm') := by
      cases hsym : vm.mem.isSYMemoryCell addr size with
      | true => exact h.exists_readMemory hr hsym (hcross hsym) b
      | false => exact exists_readMemory_concrete hr hsym b
    obtain ⟨W, vm', hread⟩ := hread
    exact ⟨W, vm', hread, (h.readMemory (V := memRead addr size b) hr.width hread).2.1⟩
  · intro addr size b hr hsym hcross
    rw [Option.eq_none_iff_forall_ne_some]
    rintro ⟨W, vm'⟩ hread
    rw [crossesChunk_of_readMemory hsym (asserted_eq_some.1 hread)] at hcross
    exact Bool.noConfusion hcross

/-- In every state that `processFunction` comes to, in the pass before the loop or in the
loop, the lists and the marks are well formed, and everything can be read but symbolic
memory over the border of a chunk. It comes no further than a failed assertion, a visit to
an instruction that was deleted, or a decision behind the end of `z3_api_clk_cycls`. -/
theorem run_reads (S : Simplifier)
    (processor : Instruction → MacReg → (Nat → BitVec 8) → MacReg × (Nat → BitVec 8))
    (decode : Nat → DecodedInsn) (hdecode : ∀ addr, (decode addr).Handled)
    (file : Option (Nat × (Nat → Nat))) (preTurns turns : Nat) (st st' : LoopState)
    (progress : LoopState.Progress) (h : st.Good)
    (hrun : st.processFunction S processor decode file preTurns turns = some (progress, st')) :
    VMShape st'.thin.vm ∧ st'.thin.vm.Reads := by
  have hgood := LoopState.processFunction_good hdecode h hrun
  exact ⟨hgood.shape, hgood.shape.reads⟩

/-! ## A turn with a decision -/

/-- `je 0x2000`. -/
def jeNear : DecodedInsn :=
  ⟨⟨⟨.je, [⟨.immediate 0x2002 8, none, true, false⟩], []⟩, 2, [], []⟩, .branchInsn, true⟩

/-- A jump is not handed to the executor, so the decoder has promised nothing of it. -/
theorem jeNear_handled : jeNear.Handled where
  decoded h := absurd h (by decide)
  movesWhole h := absurd h (by decide)

/-- The condition is decided, and the jump is made or not. -/
theorem exists_jeTurn {S : Simplifier}
    (processor : Instruction → MacReg → (Nat → BitVec 8) → MacReg × (Nat → BitVec 8))
    (st : LoopState) {insnCache : Nat → Option DecodedInsn}
    (hfetch : st.fetch (fun _ => jeNear) = some (jeNear, insnCache))
    (hcalls : st.z3ApiCalls < z3ApiClkCycls) (hflags : st.thin.vm.cpu.bsymFlag .zf = true)
    {b : Bool} {vm : VMState} {objs : List SYMemObject}
    (heval : (st.thin.advanceRip jeNear.toCachedInsn).vm.evalCondition S
      st.thin.symObjectsMap .je = some (b, vm, objs)) :
    ∃ st', st.turn S processor (fun _ => jeNear) = some (true, st') ∧
      st'.thin.vm.cpu.ptRegs .rsp = vm.cpu.ptRegs .rsp := by
  let thin := st.thin.advanceRip jeNear.toCachedInsn
  have hdep : dependFlagCon thin.vm.cpu .je false = some (false, false) := by
    have hzf : [Flag.zf].all thin.vm.cpu.flagBitDefinited = false := by
      show (!st.thin.vm.cpu.bsymFlag .zf && true) = false
      rw [hflags]
      rfl
    show (if [Flag.zf].all thin.vm.cpu.flagBitDefinited then _ else some (false, false)) = _
    rw [hzf]
    rfl
  let cpu := vm.cpu.setFlagBit .zf (if b then .set else .clear)
  let thin₁ : ThinState := { thin with vm := { vm with cpu := cpu }, symObjectsMap := objs }
  have hjcc : thin.updateJCCDecision S .je = some (b, thin₁) := by
    show (dependFlagCon thin.vm.cpu .je false >>= _) = _
    rw [hdep]
    show (thin.vm.evalCondition S thin.symObjectsMap .je >>= _) = _
    rw [show thin.vm.evalCondition S thin.symObjectsMap .je = some (b, vm, objs) from heval]
    rfl
  have hrsp : cpu.ptRegs .rsp = vm.cpu.ptRegs .rsp := by
    have hwords := (SameWords.refl vm.cpu).setFlagBit .zf (if b then .set else .clear)
    exact hwords.ptRegs .rsp (by decide)
  -- the target is direct: the operand holds it with the length added
  have hbranch : ∃ thin₂, thin.dispatchBranch S jeNear.toCachedInsn true = some thin₂ ∧
      thin₂.vm.cpu.ptRegs .rsp = vm.cpu.ptRegs .rsp := by
    show ∃ thin₂, (thin.updateJCCDecision S .je >>= fun P =>
      if P.1 then some { P.2 with vm := P.2.vm.setPtReg .rip (0x2002 - BitVec.ofNat 64 2) }
      else some P.2) = some thin₂ ∧ _
    rw [hjcc]
    cases b with
    | true =>
      refine ⟨_, rfl, ?_⟩
      show (thin₁.vm.setPtReg .rip _).cpu.ptRegs .rsp = _
      rw [VMState.ptRegs_setPtReg_of_ne _ (by decide)]
      exact hrsp
    | false => exact ⟨_, rfl, hrsp⟩
  obtain ⟨thin₂, hbranch, hrsp₂⟩ := hbranch
  -- the decision is counted
  have hcount : st.countZ3Call jeNear = some (st.z3ApiCalls + 1) := by
    have hasks : LoopState.asksZ3 st.thin jeNear = true := by
      have hdep' : dependFlagCon st.thin.vm.cpu .je false = some (false, false) := hdep
      rw [LoopState.asksZ3, show jeNear.id = .je from rfl, hdep']
      rfl
    rw [LoopState.countZ3Call, hasks, if_pos rfl, if_pos hcalls]
  refine ⟨⟨thin₂, insnCache, st.z3ApiCalls + 1⟩, ?_, hrsp₂⟩
  rw [LoopState.turn_eq hfetch, hcount]
  show ((thin.dispatchBranch S jeNear.toCachedInsn true >>= _).bind _) = _
  rw [hbranch]
  rfl

/-- A symbol of one byte with the seed 5. -/
def jeSymbol : SYMemObject :=
  (VMState.new (fun _ => 0) fun _ => 0).newSYMemObject 4096 1 false true 5 "S"

/-- A machine that has compared the symbol with 5: the comparison has left its
expression and flags that are not definite. -/
def jeState (vm : VMState) : LoopState :=
  ⟨⟨{ vm.compared (Expr.udefExpr (some jeSymbol)) (Expr.constExpr 5 1) with
      cpu := { vm.cpu with bsymFlag := fun f => f ∈ changedFlags } }, [], fun _ => none,
    fun _ => false⟩, fun _ => none, 0⟩

/-- `crtRIP` and `nextRIP` of a jump to 0x2000, where the pass before the loop ends. -/
def jeFile : Option (Nat × (Nat → Nat)) := some (0x2000, fun _ => 0x2000)

/-- The state behind the pass before the loop, which has decoded the jump. -/
def LoopState.preDisassembledJe (st : LoopState) : LoopState :=
  { st with insnCache := Function.update (fun _ => none) (insnCacheIdx st.crtAddr) (some jeNear) }

/-- The pass takes the jump into the cache and is at the end of the file then. -/
theorem preDisassemble_je {st : LoopState} (hcache : st.insnCache = fun _ => none)
    (hfreed : st.thin.freed = fun _ => false) :
    LoopState.preDisassemble (fun _ => jeNear) ⟨st.crtAddr, 0x2000, fun _ => 0x2000, []⟩ 1
      st.crtAddr 0 st = some (true, st.preDisassembledJe) := by
  have hfetch : st.fetchAt (fun _ => jeNear) st.crtAddr
      = some (jeNear, Function.update (fun _ => none) (insnCacheIdx st.crtAddr) (some jeNear)) := by
    rw [LoopState.fetchAt, UntaggedCache.handOut, UntaggedCache.fetch, hcache, hfreed]
    rfl
  rw [LoopState.preDisassemble, hfetch]
  rfl

/-- The jump in the cache is a handled instruction. -/
theorem LoopState.Good.preDisassembledJe {st : LoopState} (h : st.Good) :
    st.preDisassembledJe.Good := by
  refine ⟨h.shape, fun i insn hi => ?_⟩
  have hi : Function.update (fun _ => none) (insnCacheIdx st.crtAddr) (some jeNear) i
      = some insn := hi
  by_cases heq : i = insnCacheIdx st.crtAddr
  · rw [heq, Function.update_self] at hi
    rw [← Option.some.inj hi]
    exact jeNear_handled
  · rw [Function.update_of_ne heq] at hi
    exact absurd hi (by simp)

/-- The loop finds it there. -/
theorem fetch_preDisassembledJe {st : LoopState} (hfreed : st.thin.freed = fun _ => false) :
    st.preDisassembledJe.fetch (fun _ => jeNear)
      = some (jeNear, st.preDisassembledJe.insnCache) := by
  have hslot : st.preDisassembledJe.insnCache (insnCacheIdx st.crtAddr) = some jeNear := by
    simp [LoopState.preDisassembledJe]
  show UntaggedCache.handOut insnCacheIdx (fun _ => jeNear) st.preDisassembledJe.insnCache
    st.thin.freed st.crtAddr = _
  rw [UntaggedCache.handOut, UntaggedCache.fetch, hfreed, hslot]
  rfl

/-- A symbol with the seed 5 is compared with 5, and a `je` is run. -/
theorem exists_jeRun
    (processor : Instruction → MacReg → (Nat → BitVec 8) → MacReg × (Nat → BitVec 8)) :
    ∃ (vm : VMState) (st' : LoopState), (VMState.new (fun _ => 0) fun _ => 0).createSYMemObject
        4096 1 false true 5 "S" = some (true, vm) ∧ (jeState vm).Good ∧
      ObjectsDeclared ⟨(jeState vm).thin.vm, (jeState vm).thin.symObjectsMap, [jeSymbol]⟩ ∧
      Seeds (fun _ w => BitVec.ofNat w 5) [jeSymbol] ∧
      (jeState vm).thin.vm.eflagsMgr.constraint = [] ∧
      (jeState vm).processFunction Simplifier.closedOnly processor (fun _ => jeNear) jeFile 1 1
        = some (.running, st') ∧
      LoopState.mainLoop Simplifier.closedOnly processor (fun _ => jeNear)
        ((jeState vm).thin.vm.cpu.ptRegs .rsp) 1 (jeState vm).preDisassembledJe
          = some (false, st') ∧
      ∃ c, (jeState vm).preDisassembledJe.decision Simplifier.closedOnly (fun _ => jeNear)
        = some (c, true) := by
  let vm₀ := VMState.new (fun _ => 0) fun _ => 0
  let x := jeSymbol
  obtain ⟨vm₁, hst, -⟩ := exists_createSYMemObject (show MemCells vm₀.mem from memCells_new _)
    4096 1 (by decide) (by decide) (by decide) 5 "S"
  have hobjs : vm₁.symMemObjects = [(hashTogether 4096 1, x)] :=
    symMemObjects_createSYMemObject hst
  have hshape : VMShape vm₁ :=
    (createSYMemObject_holds exprLaw_true (vmHolds_new _ _) (by decide) (by decide)
      (fun _ _ => trivial) hst).cells.shape
  let st : LoopState := jeState vm₁
  let vm₂ : VMState := st.thin.vm
  let last := Expr.binExpr .sub (Expr.udefExpr (some x)) (Expr.constExpr 5 1)
  let c : Expr := .ury .equal last last.getExprSize
  have hdeclared : ∀ cpu, ObjectsDeclared ⟨{ vm₂ with cpu := cpu }, [], [x]⟩ := by
    intro cpu
    constructor
    · intro p hp
      have hp : p ∈ vm₁.symMemObjects := hp
      rw [hobjs] at hp
      rw [List.mem_singleton.1 hp]
      exact List.mem_singleton_self x
    · intro o ho
      rw [List.mem_singleton.1 ho]
      exact ⟨rfl, rfl⟩
  have heval : ∀ cpu, ∃ vm, ({ vm₂ with cpu := cpu } : VMState).evalCondition
      Simplifier.closedOnly [] .je = some (true, vm, [x]) ∧ vm.cpu = cpu := by
    intro cpu
    have hlast : EvalState.lastTried ⟨{ vm₂ with cpu := cpu }, [], [x]⟩ c = some x := by
      rw [EvalState.lastTried]
      show ((vm₁.symMemObjects.map _).filter _).getLast? = _
      rw [hobjs]
      rfl
    have hc : z3HandlingExprPtr c = .ok ⟨.bool, .cmp .eq (.bin .sub (.const "S" 8) (.lit 5#8))
      (.lit 0#8)⟩ := rfl
    refine ⟨_, evalCondition_eq (hdeclared cpu) rfl hc Simplifier.closedOnly ?_, rfl⟩
    rw [hlast]
    -- the condition has no other symbol, and it is true under the seed
    exact evaluator_of_only (ρ := fun _ w => BitVec.ofNat w 5) rfl
      (fun y hy => List.mem_singleton.1 hy) rfl
  have hfetch : st.preDisassembledJe.fetch (fun _ => jeNear) = _ := fetch_preDisassembledJe rfl
  have hdecision : st.preDisassembledJe.decision Simplifier.closedOnly (fun _ => jeNear)
      = some (c, true) := by
    obtain ⟨vm, hvm, -⟩ := heval vm₂.cpu
    have hvm : vm₂.evalCondition Simplifier.closedOnly [] .je = some (true, vm, [x]) := hvm
    rw [LoopState.decision_eq hfetch]
    show ((vm₂.evalCondition Simplifier.closedOnly [] .je).map (·.1)).bind
      (fun b => some (c, b)) = _
    rw [hvm]
    rfl
  obtain ⟨vm, hvm, hcpu⟩ := heval (st.thin.advanceRip jeNear.toCachedInsn).vm.cpu
  obtain ⟨st', hturn, hrsp⟩ := exists_jeTurn processor st.preDisassembledJe hfetch
    (show 0 < 100 by decide) rfl hvm
  have hrsp : st'.thin.vm.cpu.ptRegs .rsp = st.thin.vm.cpu.ptRegs .rsp := by
    rw [hrsp, hcpu]
    exact VMState.ptRegs_setPtReg_of_ne _ (by decide) _
  have hloop : LoopState.mainLoop Simplifier.closedOnly processor (fun _ => jeNear)
      (st.thin.vm.cpu.ptRegs .rsp) 1 st.preDisassembledJe = some (false, st') := by
    rw [LoopState.mainLoop, hturn]
    show (if (true && decide (st.thin.vm.cpu.ptRegs .rsp < st'.thin.vm.cpu.ptRegs .rsp)) = true
      then _ else some (false, st')) = _
    rw [hrsp, decide_eq_false (BitVec.lt_irrefl _)]
    rfl
  refine ⟨vm₁, st', hst, ⟨hshape.congr rfl rfl rfl rfl, fun i insn hi => ?_⟩, hdeclared _, ?_, rfl,
    ?_, hloop, c, hdecision⟩
  · exact absurd hi (by simp [jeState])
  · intro o ho
    rw [List.mem_singleton.1 ho]
    rfl
  · show (LoopState.preDisassemble (fun _ => jeNear) ⟨st.crtAddr, 0x2000, fun _ => 0x2000, []⟩ 1
      st.crtAddr 0 st >>= _) = _
    rw [preDisassemble_je rfl rfl]
    show (LoopState.mainLoop Simplifier.closedOnly processor (fun _ => jeNear)
      (st.thin.vm.cpu.ptRegs .rsp) 1 st.preDisassembledJe >>= _) = _
    rw [hloop]
    rfl

/-- After a decision about a symbol in memory everything can be read. -/
theorem run_reads_je : ∃ st st' : LoopState,
    st.processFunction Simplifier.closedOnly (fun _ regs mem => (regs, mem)) (fun _ => jeNear)
      jeFile 1 1 = some (.running, st') ∧
    (∃ d, st.preDisassembledJe.decision Simplifier.closedOnly (fun _ => jeNear) = some d) ∧
    VMShape st'.thin.vm ∧ st'.thin.vm.Reads := by
  obtain ⟨vm, st', -, hgood, -, -, -, hrun, -, c, hdecision⟩ :=
    exists_jeRun fun _ regs mem => (regs, mem)
  exact ⟨jeState vm, st', hrun, ⟨_, hdecision⟩, run_reads Simplifier.closedOnly _ (fun _ => jeNear)
    (fun _ => jeNear_handled) jeFile 1 1 _ st' .running hgood hrun⟩

end KRover
