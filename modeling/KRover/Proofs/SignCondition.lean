import KRover.Proofs.CondBuild
import KRover.Proofs.FixedFlags
import KRover.VMState

/-! # Conditions on the sign and the overflow alone

Four labels read the sign flag or the overflow flag and no other. Of their four
expressions the factory builds that of the sign only, and the handler of that
one answers with a literal of one bit, which is no formula. So no such condition
is ever evaluated (`signCondition_none`).
-/

set_option autoImplicit false

namespace KRover

open BvTerm StatusFlags EFlagsManager SymExecutor

/-- The labels on one of the two flags. -/
def signCases : List CondCase := [.ns, .s, .no, .o]

/-- `GetCondition` builds a formula that holds just when the condition holds of
the flags, as its negation does when it does not, and `EvalCondition` evaluates
it. -/
structure SignCondition (vm : VMState) (id : EntryID) (c : CondCase) (F : Valuation → Flags) :
    Prop where
  formula : ∃ e, vm.eflagsMgr.getCondition id = some e ∧ e.isNull = false ∧
    ∀ ρ, exprTruth ρ e = some (c.holds (F ρ)) ∧
      exprTruth ρ (.ury .lNot e e.getExprSize) = some (!c.holds (F ρ))
  evaluates : ∀ S symObjectsMap, vm.evalCondition S symObjectsMap id ≠ none

/-- The expression of the sign is never a formula. -/
theorem z3_sign_not_bool (e : Expr) (size : Nat) (t : Term .bool) :
    z3HandlingExprPtr (.ury .sign e size) ≠ .ok ⟨.bool, t⟩ := by
  intro h
  rw [z3HandlingExprPtr] at h
  cases he : z3HandlingExprPtr e with
  | error err =>
    rw [he] at h
    exact absurd h (by simp [bind, Except.bind])
  | ok x =>
    rw [he] at h
    have h : z3HandleSign x size = .ok ⟨.bool, t⟩ := h
    rw [z3HandleSign] at h
    split at h
    · -- the sorts differ already
      have hsort : some (Ty.bv 1) = some Ty.bool :=
        congrArg (fun r : Z3Result => r.toOption.map Sigma.fst) h
      exact absurd hsort (by decide)
    · exact absurd h (by simp)

variable {vm : VMState} {id : EntryID} {c : CondCase}

/-- At the four labels `GetCondition` hands out the expression of the sign, or
none at all. -/
theorem getCondition_sign (hcase : switchCase id = some c) (hc : c ∈ signCases) {e : Expr}
    (he : vm.eflagsMgr.getCondition id = some e) :
    e = .null ∨ ∃ x size, e = .ury .sign x size := by
  have hne : vm.eflagsMgr.lastExpr ≠ .null := by
    intro hnull
    rw [getCondition, if_pos (isConditionalExecuteInstr_of_switchCase hcase)] at he
    obtain ⟨c', -, he⟩ := bind_some he
    rw [doGetCondition, hnull] at he
    exact absurd he (by simp)
  rw [getCondition_of_lastExpr hcase rfl hne] at he
  have hmem : c = .ns ∨ c = .s ∨ c = .no ∨ c = .o := by simpa [signCases] using hc
  rcases hmem with rfl | rfl | rfl | rfl
  · exact Or.inl (Option.some.inj he).symm
  · exact Or.inr ⟨_, _, (Option.some.inj he).symm⟩
  · exact Or.inl (Option.some.inj he).symm
  · exact Or.inl (Option.some.inj he).symm

/-- What is not a formula is not evaluated. -/
theorem evalCondition_none {e : Expr} (he : vm.eflagsMgr.getCondition id = some e)
    (hbool : ∀ t : Term .bool, z3HandlingExprPtr e ≠ .ok ⟨.bool, t⟩) (S : Simplifier)
    (symObjectsMap : List SYMemObject) : vm.evalCondition S symObjectsMap id = none := by
  rw [VMState.evalCondition, he]
  show (if e.isNull then none else _) = none
  split
  · rfl
  · have herr : ∃ err, z3SolveConcritize S symObjectsMap (vm.symMemObjects.map (·.2)) e
        = .error err := by
      cases ht : z3HandlingExprPtr e with
      | error err =>
        refine ⟨err, ?_⟩
        rw [z3SolveConcritize, ht]
        rfl
      | ok x =>
        obtain ⟨s, t⟩ := x
        cases s with
        | bool => exact absurd ht (hbool t)
        | bv w =>
          refine ⟨.z3Exception, ?_⟩
          rw [z3SolveConcritize, ht]
          rfl
    obtain ⟨err, herr⟩ := herr
    rw [herr]

/-- Nothing is evaluated at the four labels, in any state. -/
theorem evalCondition_sign (hcase : switchCase id = some c) (hc : c ∈ signCases)
    (S : Simplifier) (symObjectsMap : List SYMemObject) :
    vm.evalCondition S symObjectsMap id = none := by
  cases he : vm.eflagsMgr.getCondition id with
  | none =>
    rw [VMState.evalCondition, he]
    rfl
  | some e =>
    refine evalCondition_none he (fun t ht => ?_) S symObjectsMap
    rcases getCondition_sign hcase hc he with rfl | ⟨x, size, rfl⟩
    · exact absurd ht (by simp [z3HandlingExprPtr])
    · exact z3_sign_not_bool x size t ht

/-- At no label on the sign or the overflow alone is there a formula of the condition,
whatever was saved last: `EvalCondition` stops, and what `GetCondition` hands out holds
under no valuation. For the sign the builder makes a node whose translation is a one-bit
literal instead of a truth value, and for the overflow there is no node at all. -/
theorem signCondition_none (vm : VMState) (F : Valuation → Flags)
    (hcase : switchCase id = some c) (hc : c ∈ signCases) :
    ¬ SignCondition vm id c F ∧
      (∀ S symObjectsMap, vm.evalCondition S symObjectsMap id = none) ∧
      ∀ ρ, (vm.eflagsMgr.getCondition id).bind (exprTruth ρ) = none := by
  refine ⟨fun h => ?_, evalCondition_sign hcase hc, fun ρ => ?_⟩
  · exact h.evaluates Simplifier.closedOnly [] (evalCondition_sign hcase hc _ _)
  · cases he : vm.eflagsMgr.getCondition id with
    | none => rfl
    | some e =>
      rw [Option.bind_some, exprTruth]
      rcases getCondition_sign hcase hc he with rfl | ⟨x, size, rfl⟩
      · rfl
      · split
        · rename_i t ht
          exact absurd ht (z3_sign_not_bool x size t)
        · rfl

/-- In the machine after `test rax, rbx`, with a symbol in each register, nothing evaluates
`js`. -/
theorem signCondition_none_js : ∃ vm', process testInstruction
      (VMState.new (fun _ => 0) fun _ => 0) testedOperands = some vm' ∧
    vm'.eflagsMgr.lastExpr ≠ .null ∧
    ∀ S symObjectsMap, vm'.evalCondition S symObjectsMap .js = none := by
  refine ⟨_, rfl, Expr.noConfusion, ?_⟩
  exact (signCondition_none _ (fun _ => FlagSetter.and.flags 0#64 3#64) rfl (by decide)).2.1

/-- After `test rax, rbx` with a symbol in each register, `js` is not decided. -/
theorem not_signCondition_test_js : ∃ vm', process testInstruction
      (VMState.new (fun _ => 0) fun _ => 0) testedOperands = some vm' ∧
    ¬ SignCondition vm' .js .s fun ρ => FlagSetter.and.flags (ρ "A" 64) (ρ "B" 64) := by
  refine ⟨_, rfl, fun h => ?_⟩
  exact h.evaluates Simplifier.closedOnly [] (evalCondition_sign rfl (by decide) _ _)

end KRover
