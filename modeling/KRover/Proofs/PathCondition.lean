import KRover.Proofs.MainLoopRun

/-! # The path condition

The constraints that a run of the main loop collects are one for each condition
that it decides, in order. They hold under exactly the values of the symbols under
which every condition has the truth that was decided (`run_pathCondition`). The
values that the engine itself decides by are the seeds. A condition that it takes
for true is true under them, so the seeds miss the path condition only by a true
condition that was taken for false (`seeds_pathCondition_iff`).
-/

set_option autoImplicit false

namespace KRover

open BvTerm

/-- The values of the symbols make all of the constraints true. -/
def Satisfies (ρ : Valuation) (constraint : List Expr) : Prop :=
  ∀ e ∈ constraint, exprTruth ρ e = some true

/-- The conditions that a run decides, and how. -/
def LoopState.decisions (S : Simplifier)
    (processor : Instruction → MacReg → (Nat → BitVec 8) → MacReg × (Nat → BitVec 8))
    (decode : Nat → DecodedInsn) (termRsp : BitVec 64) : Nat → LoopState → List (Expr × Bool)
  | 0, _ => []
  | turns + 1, st =>
    (st.decision S decode).toList ++
      match st.turn S processor decode with
      | none => []
      | some (looks, st') =>
        if looks && termRsp < st'.thin.vm.cpu.ptRegs .rsp then []
        else decisions S processor decode termRsp turns st'

/-- The condition of a decision is a Boolean term. -/
def IsDecision (d : Expr × Bool) : Prop := ∃ t, z3HandlingExprPtr d.1 = .ok ⟨.bool, t⟩

section Constraints

variable {ρ : Valuation} {d : Expr × Bool} {constraint : List Expr} {ds : List (Expr × Bool)}

/-- Two lists of constraints are met together where each of them is. -/
theorem satisfies_append {more : List Expr} :
    Satisfies ρ (constraint ++ more) ↔ Satisfies ρ constraint ∧ Satisfies ρ more := by
  constructor
  · intro h
    exact ⟨fun e he => h e (List.mem_append_left more he),
      fun e he => h e (List.mem_append_right constraint he)⟩
  · rintro ⟨hleft, hright⟩ e he
    exact (List.mem_append.1 he).elim (hleft e) (hright e)

/-- The constraint of a decision says what was decided. -/
theorem exprTruth_decidedConstraint (h : IsDecision d) :
    exprTruth ρ (decidedConstraint d.1 d.2) = some true ↔ exprTruth ρ d.1 = some d.2 := by
  obtain ⟨c, b⟩ := d
  obtain ⟨t, ht⟩ := h
  cases b with
  | true => exact Iff.rfl
  | false =>
    have hnot : exprTruth ρ (decidedConstraint c false) = some !t.eval ρ := exprTruth_lNot ht _
    rw [hnot, exprTruth_of_z3 ht]
    cases t.eval ρ <;> simp

/-- The constraints of some decisions are met where each condition has the decided truth. -/
theorem satisfies_decided (hds : ∀ d ∈ ds, IsDecision d) :
    Satisfies ρ (ds.map fun d => decidedConstraint d.1 d.2) ↔
      ∀ d ∈ ds, exprTruth ρ d.1 = some d.2 := by
  induction ds with
  | nil => simp [Satisfies]
  | cons d ds ih =>
    have hhead := exprTruth_decidedConstraint (ρ := ρ) (hds d List.mem_cons_self)
    have htail := ih fun d' hd' => hds d' (List.mem_cons_of_mem d hd')
    rw [Satisfies] at htail ⊢
    rw [List.map_cons, List.forall_mem_cons, List.forall_mem_cons, hhead, htail]

end Constraints

/-! ## Turns -/

section Turns

variable {S : Simplifier} {st st' : ThinState} {id : EntryID} {d : Option (Expr × Bool)}

/-- What a turn adds to the constraints. -/
theorem Turned.constraint (h : Turned S id st st' d) :
    st'.vm.eflagsMgr.constraint = st.vm.eflagsMgr.constraint ++
        d.toList.map (fun d => decidedConstraint d.1 d.2) ∧
      ∀ d' ∈ d.toList, IsDecision d' := by
  cases h with
  | quiet hrun hmap =>
    refine ⟨?_, by simp⟩
    rw [hrun.objectsKept.constraint]
    exact (List.append_nil _).symm
  | decided c b vm₁ vm₂ hbefore hmgr hget heval hafter =>
    obtain ⟨c', t, hget', ht, -, hvm⟩ := evalCondition_spec heval
    rw [hmgr, hget] at hget'
    obtain rfl := Option.some.inj hget'
    constructor
    · rw [hafter.objectsKept.constraint, hvm, ← hbefore.objectsKept.constraint]
      rfl
    · intro d' hd'
      rw [List.mem_singleton.1 hd']
      exact ⟨t, ht⟩

/-- The declared objects stay declared. -/
theorem Turned.objectsDeclared {declared : List SYMemObject} (h : Turned S id st st' d)
    (hobjs : ObjectsDeclared ⟨st.vm, st.symObjectsMap, declared⟩) :
    ObjectsDeclared ⟨st'.vm, st'.symObjectsMap, declared⟩ := by
  have hsame : st'.vm.symMemObjects = st.vm.symMemObjects := by
    cases h with
    | quiet hrun hmap => exact hrun.objectsKept.symMemObjects
    | decided c b vm₁ vm₂ hbefore hmgr hget heval hafter =>
      rw [hafter.objectsKept.symMemObjects, symMemObjects_evalCondition heval,
        hbefore.objectsKept.symMemObjects]
  constructor
  · rw [show (EvalState.mk st'.vm st'.symObjectsMap declared).vm.symMemObjects
      = st.vm.symMemObjects from hsame]
    exact hobjs.declared
  · exact hobjs.seeded

/-- What is taken for true is true under the seeds. -/
theorem Turned.decided_true {ρ : Valuation} {declared : List SYMemObject} {c : Expr}
    (h : Turned S id st st' (some (c, true)))
    (hobjs : ObjectsDeclared ⟨st.vm, st.symObjectsMap, declared⟩) (hρ : Seeds ρ declared) :
    exprTruth ρ c = some true := by
  cases h with
  | decided c b vm₁ vm₂ hbefore hmgr hget heval hafter =>
    -- the objects are the same where the condition is evaluated
    have hobjs₁ : ObjectsDeclared ⟨vm₁, st.symObjectsMap, declared⟩ := by
      constructor
      · rw [show (EvalState.mk vm₁ st.symObjectsMap declared).vm.symMemObjects
          = st.vm.symMemObjects from hbefore.objectsKept.symMemObjects]
        exact hobjs.declared
      · exact hobjs.seeded
    obtain ⟨hfinds, -, -⟩ := evalCondition_finds hobjs₁ heval
    have htruth := condTruth_of_finds hobjs₁ hρ hfinds.symm
    rw [show (EvalState.mk vm₁ st.symObjectsMap declared).vm.eflagsMgr = st.vm.eflagsMgr from hmgr,
      hget] at htruth
    exact htruth

end Turns

/-! ## Runs -/

namespace LoopState

variable {S : Simplifier}
  {processor : Instruction → MacReg → (Nat → BitVec 8) → MacReg × (Nat → BitVec 8)}
  {decode : Nat → DecodedInsn} {st st' : LoopState} {ended : Bool} {termRsp : BitVec 64}
  {turns : Nat}

/-- The constraints of a run, turn by turn. -/
theorem run_constraint (hdecode : ∀ addr, (decode addr).Handled) (h : st.Good)
    (hrun : mainLoop S processor decode termRsp turns st = some (ended, st')) :
    st'.thin.vm.eflagsMgr.constraint = st.thin.vm.eflagsMgr.constraint ++
        (st.decisions S processor decode termRsp turns).map
          (fun d => decidedConstraint d.1 d.2) ∧
      ∀ d ∈ st.decisions S processor decode termRsp turns, IsDecision d := by
  induction turns generalizing st with
  | zero =>
    rw [← (Prod.mk.inj (Option.some.inj hrun)).2]
    simp [decisions]
  | succ turns ih =>
    obtain ⟨⟨looks, st₁⟩, hturn, hrest⟩ := bind_some hrun
    obtain ⟨insn, insnCache, hfetch⟩ := fetch_of_turn hturn
    obtain ⟨hadd, hbool⟩ := (turn_turned hdecode h hfetch hturn).1.constraint
    rw [decisions, hturn]
    dsimp only at hrest ⊢
    split at hrest
    · rename_i hend
      rw [if_pos hend, List.append_nil, ← (Prod.mk.inj (Option.some.inj hrest)).2]
      exact ⟨hadd, hbool⟩
    · rename_i hgoOn
      obtain ⟨hmore, hmoreBool⟩ := ih (h.turn hdecode hturn) hrest
      rw [if_neg hgoOn, hmore, hadd, List.map_append, List.append_assoc]
      exact ⟨rfl, fun d hd => (List.mem_append.1 hd).elim (hbool d) (hmoreBool d)⟩

/-- Along a run, what is taken for true is true under the seeds. -/
theorem run_decided_true {ρ : Valuation} {declared : List SYMemObject}
    (hdecode : ∀ addr, (decode addr).Handled) (h : st.Good)
    (hobjs : ObjectsDeclared ⟨st.thin.vm, st.thin.symObjectsMap, declared⟩)
    (hρ : Seeds ρ declared)
    (hrun : mainLoop S processor decode termRsp turns st = some (ended, st')) :
    ∀ c, (c, true) ∈ st.decisions S processor decode termRsp turns →
      exprTruth ρ c = some true := by
  induction turns generalizing st with
  | zero =>
    intro c hc
    simp [decisions] at hc
  | succ turns ih =>
    intro c hc
    obtain ⟨⟨looks, st₁⟩, hturn, hrest⟩ := bind_some hrun
    obtain ⟨insn, insnCache, hfetch⟩ := fetch_of_turn hturn
    have hturned := (turn_turned hdecode h hfetch hturn).1
    rw [decisions, hturn] at hc
    dsimp only at hrest hc
    rcases List.mem_append.1 hc with hnow | hlater
    · rw [Option.mem_toList.1 hnow] at hturned
      exact hturned.decided_true hobjs hρ
    · split at hrest
      · rename_i hend
        rw [if_pos hend] at hlater
        exact absurd hlater List.not_mem_nil
      · rename_i hgoOn
        rw [if_neg hgoOn] at hlater
        exact ih (h.turn hdecode hturn) (hturned.objectsDeclared hobjs) hrest c hlater

end LoopState

/-- The path condition of a run: its constraints hold under exactly the values
under which every condition that was decided has its decided truth. -/
theorem run_pathCondition (S : Simplifier)
    (processor : Instruction → MacReg → (Nat → BitVec 8) → MacReg × (Nat → BitVec 8))
    (decode : Nat → DecodedInsn) (hdecode : ∀ addr, (decode addr).Handled) (termRsp : BitVec 64)
    (turns : Nat) (st st' : LoopState) (ended : Bool) (h : st.Good)
    (hrun : st.mainLoop S processor decode termRsp turns = some (ended, st')) (ρ : Valuation) :
    Satisfies ρ st'.thin.vm.eflagsMgr.constraint ↔
      Satisfies ρ st.thin.vm.eflagsMgr.constraint ∧
        ∀ d ∈ st.decisions S processor decode termRsp turns, exprTruth ρ d.1 = some d.2 := by
  obtain ⟨hconstraint, hbool⟩ := LoopState.run_constraint hdecode h hrun
  rw [hconstraint, satisfies_append, satisfies_decided hbool]

/-- One turn decides one condition at most. -/
theorem LoopState.decisions_one {S : Simplifier}
    {processor : Instruction → MacReg → (Nat → BitVec 8) → MacReg × (Nat → BitVec 8)}
    {decode : Nat → DecodedInsn} (termRsp : BitVec 64) (st : LoopState) :
    st.decisions S processor decode termRsp 1 = (st.decision S decode).toList := by
  rw [decisions]
  cases st.turn S processor decode with
  | none => exact List.append_nil _
  | some P =>
    dsimp only
    split <;> exact List.append_nil _

/-- The path condition behind a `je`. -/
theorem run_pathCondition_je : ∃ (st st' : LoopState) (c : Expr),
    st.mainLoop Simplifier.closedOnly (fun _ regs mem => (regs, mem)) (fun _ => jeNear)
      (st.thin.vm.cpu.ptRegs .rsp) 1 = some (false, st') ∧
    ∀ ρ, Satisfies ρ st'.thin.vm.eflagsMgr.constraint ↔ exprTruth ρ c = some true := by
  obtain ⟨vm, st', -, hgood, -, -, hnone, -, hrun, c, hdecision⟩ :=
    exists_jeRun fun _ regs mem => (regs, mem)
  refine ⟨(jeState vm).preDisassembledJe, st', c, hrun, fun ρ => ?_⟩
  have hstart : (jeState vm).preDisassembledJe.thin.vm.eflagsMgr.constraint = [] := hnone
  rw [run_pathCondition Simplifier.closedOnly _ (fun _ => jeNear) (fun _ => jeNear_handled) _ 1
    _ st' false hgood.preDisassembledJe hrun ρ, LoopState.decisions_one, hdecision, hstart]
  simp [Satisfies]

/-- The seeds and the path condition of a run from a state whose constraints they
satisfy: what was taken for true is true, and the path condition holds of the seeds
unless a true condition was taken for false. -/
theorem seeds_pathCondition_iff (S : Simplifier)
    (processor : Instruction → MacReg → (Nat → BitVec 8) → MacReg × (Nat → BitVec 8))
    (decode : Nat → DecodedInsn) (hdecode : ∀ addr, (decode addr).Handled) (termRsp : BitVec 64)
    (turns : Nat) (st st' : LoopState) (ended : Bool) (h : st.Good)
    (hrun : st.mainLoop S processor decode termRsp turns = some (ended, st'))
    (declared : List SYMemObject)
    (hobjs : ObjectsDeclared ⟨st.thin.vm, st.thin.symObjectsMap, declared⟩) (ρ : Valuation)
    (hρ : Seeds ρ declared) (hstart : Satisfies ρ st.thin.vm.eflagsMgr.constraint) :
    (∀ c, (c, true) ∈ st.decisions S processor decode termRsp turns →
      exprTruth ρ c = some true) ∧
    (Satisfies ρ st'.thin.vm.eflagsMgr.constraint ↔
      ∀ c, (c, false) ∈ st.decisions S processor decode termRsp turns →
        exprTruth ρ c ≠ some true) := by
  obtain ⟨hconstraint, hbool⟩ := LoopState.run_constraint hdecode h hrun
  have htrue := LoopState.run_decided_true hdecode h hobjs hρ hrun
  refine ⟨htrue, ?_⟩
  rw [hconstraint, satisfies_append, satisfies_decided hbool]
  constructor
  · rintro ⟨-, hall⟩ c hc
    rw [hall (c, false) hc]
    exact fun heq => Bool.false_ne_true (Option.some.inj heq)
  · intro hfalse
    refine ⟨hstart, ?_⟩
    rintro ⟨c, b⟩ hd
    cases b with
    | true => exact htrue c hd
    | false =>
      -- the condition is a Boolean term, so it is false when it is not true
      obtain ⟨t, ht⟩ := hbool (c, false) hd
      have hne := hfalse c hd
      rw [exprTruth_of_z3 ht] at hne ⊢
      cases hval : t.eval ρ with
      | true => exact absurd (congrArg some hval) hne
      | false => rfl

/-- The seed satisfies the path condition behind a `je` that was decided by it. -/
theorem seeds_pathCondition_je : ∃ st st' : LoopState,
    st.mainLoop Simplifier.closedOnly (fun _ regs mem => (regs, mem)) (fun _ => jeNear)
      (st.thin.vm.cpu.ptRegs .rsp) 1 = some (false, st') ∧
    st'.thin.vm.eflagsMgr.constraint ≠ [] ∧
    Satisfies (fun _ w => BitVec.ofNat w 5) st'.thin.vm.eflagsMgr.constraint := by
  obtain ⟨vm, st', -, hgood, hobjs, hρ, hnone, -, hrun, c, hdecision⟩ :=
    exists_jeRun fun _ regs mem => (regs, mem)
  have hgood' := hgood.preDisassembledJe
  refine ⟨(jeState vm).preDisassembledJe, st', hrun, ?_, ?_⟩
  · rw [(LoopState.run_constraint (fun _ => jeNear_handled) hgood' hrun).1,
      LoopState.decisions_one, hdecision]
    simp
  · have hstart : Satisfies (fun _ w => BitVec.ofNat w 5)
        (jeState vm).preDisassembledJe.thin.vm.eflagsMgr.constraint := by
      rw [show (jeState vm).preDisassembledJe.thin.vm.eflagsMgr.constraint = [] from hnone]
      exact fun e he => absurd he List.not_mem_nil
    refine (seeds_pathCondition_iff Simplifier.closedOnly _ (fun _ => jeNear)
      (fun _ => jeNear_handled) _ 1 _ st' false hgood' hrun [jeSymbol] hobjs _ hρ hstart).2.2 ?_
    -- the only decision is `true`
    rw [LoopState.decisions_one, hdecision]
    intro c' hc'
    simp at hc'

end KRover
