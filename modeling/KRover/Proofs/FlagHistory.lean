import KRover.Proofs.FlagStatus

/-! # Where definite flags come from

Flags are written by three kinds of steps: an instruction that the executor
runs, after which all six flags are uncertain; an instruction that runs natively,
after which all of them are definite if it is in `stateChangingInstrList`; and
`ConcreteFlag`. A flag is pending when an instruction of the first kind was the
last to write it, so that `eflags` does not hold it.

`flagHistory_iff`: no pending flag is ever reported definite exactly when every
native instruction of the list writes all the flags that are pending.
-/

set_option autoImplicit false

namespace KRover

open SYCPUState EFlagsManager

/-! ## Steps -/

/-- A step that changes flags. `writes` are the flags that the instruction
writes on x86, `eflags` is the word that native execution leaves. -/
inductive FlagStep where
  | symbolic (instrID : EntryID) (exprPtr : Expr) (writes : Flag → Bool)
  | native (instrID : EntryID) (writes : Flag → Bool) (eflags : BitVec 64)
  | concreteFlag (instrID : EntryID) (bExecute : Bool)

/-- The flags that are pending. -/
abbrev PendingFlags := Flag → Bool

namespace FlagStep

/-- The step. Saving and fixing are asserted. -/
def apply : FlagStep → FlagState → Option FlagState
  | .symbolic id e _, (mgr, cpu) =>
    if (mgr.saveFlagChangingInstructionExpr cpu id e).1 then
      some (mgr.saveFlagChangingInstructionExpr cpu id e).2
    else none
  | .native id _ eflags, (mgr, cpu) =>
    let cpu := cpu.setWord .efl eflags
    some (mgr, if isFlagChangingInstr id then cpu.clearAllSymFlag else cpu)
  | .concreteFlag id bExecute, (mgr, cpu) =>
    (EFlagsManager.concreteFlag cpu id bExecute).map fun (_, cpu) => (mgr, cpu)

/-- The flags that `ConcreteFlag` fixes. -/
def fixed (id : EntryID) (bExecute : Bool) : List Flag :=
  match switchCase id with
  | some c => (fixedFlags c bExecute).map Prod.fst
  | none => []

/-- What is pending afterwards. -/
def pendingAfter : FlagStep → PendingFlags → PendingFlags
  | .symbolic _ _ writes, pending => fun f => writes f || pending f
  | .native _ writes _, pending => fun f => pending f && !writes f
  | .concreteFlag id bExecute, pending => fun f => pending f && f ∉ fixed id bExecute

/-- What a native instruction of the list writes is definite afterwards. -/
def WritesDefinite (cpu : SYCPUState) : FlagStep → Prop
  | .native id writes _ =>
    isFlagChangingInstr id = true → ∀ f, writes f = true → cpu.flagBitDefinited f = true
  | _ => True

/-- A native instruction of the list writes all the flags that are pending. -/
def WritesPending (pending : PendingFlags) : FlagStep → Prop
  | .native id writes _ =>
    isFlagChangingInstr id = true → ∀ f ∈ changedFlags, pending f = true → writes f = true
  | _ => True

end FlagStep

/-- No flag that is pending is reported as definite. -/
def HistoryLaw (cpu : SYCPUState) (pending : PendingFlags) : Prop :=
  ∀ f ∈ changedFlags, cpu.flagBitDefinited f = true → pending f = false

/-- The law in every state of a run, and what native instructions write. -/
def HistoryLawOver : List FlagStep → FlagState → PendingFlags → Prop
  | [], σ, pending => HistoryLaw σ.2 pending
  | s :: steps, σ, pending =>
    HistoryLaw σ.2 pending ∧ ∀ σ', s.apply σ = some σ' →
      s.WritesDefinite σ'.2 ∧ HistoryLawOver steps σ' (s.pendingAfter pending)

/-- The condition at every step of a run. -/
def WritesPendingOver : List FlagStep → FlagState → PendingFlags → Prop
  | [], _, _ => True
  | s :: steps, σ, pending => ∀ σ', s.apply σ = some σ' →
    s.WritesPending pending ∧ WritesPendingOver steps σ' (s.pendingAfter pending)

/-! ## One step -/

/-- What is definite after native execution. -/
theorem flagBitDefinited_native {id : EntryID} {writes : Flag → Bool} {eflags : BitVec 64}
    {σ σ' : FlagState} (hst : (FlagStep.native id writes eflags).apply σ = some σ') (f : Flag) :
    σ'.2.flagBitDefinited f = (isFlagChangingInstr id || σ.2.flagBitDefinited f) := by
  obtain rfl := Option.some.inj hst
  show (if isFlagChangingInstr id then _ else _ : SYCPUState).flagBitDefinited f = _
  cases isFlagChangingInstr id with
  | true => rfl
  | false => rfl

/-- A step that was made has written definite flags only where it says so. -/
theorem FlagStep.writesDefinite_of_apply {s : FlagStep} {σ σ' : FlagState}
    (hst : s.apply σ = some σ') : s.WritesDefinite σ'.2 := by
  cases s with
  | symbolic | concreteFlag => trivial
  | native id writes eflags =>
    intro hid f _
    rw [flagBitDefinited_native hst, hid, Bool.true_or]

/-- `ConcreteFlag` leaves the marks of the flags. -/
theorem flagBitDefinited_concreteFlag {cpu cpu' : SYCPUState} {id : EntryID} {bExecute ok : Bool}
    (h : concreteFlag cpu id bExecute = some (ok, cpu')) (f : Flag) :
    cpu'.flagBitDefinited f = cpu.flagBitDefinited f := by
  rw [concreteFlag] at h
  split at h
  · obtain ⟨c, -, hc⟩ := Option.map_eq_some_iff.1 h
    obtain ⟨-, rfl⟩ := Prod.mk.inj hc
    exact flagBitDefinited_concreteFlagCase cpu c bExecute f
  · obtain ⟨-, rfl⟩ := Prod.mk.inj (Option.some.inj h)
    rfl

/-- A step keeps the law exactly when it meets the condition. -/
theorem historyLaw_apply_iff {s : FlagStep} {σ σ' : FlagState} {pending : PendingFlags}
    (h : HistoryLaw σ.2 pending) (hst : s.apply σ = some σ') :
    HistoryLaw σ'.2 (s.pendingAfter pending) ↔ s.WritesPending pending := by
  obtain ⟨mgr, cpu⟩ := σ
  cases s with
  | symbolic id e writes =>
    -- all six flags are uncertain
    refine iff_of_true (fun f hf hdef => ?_) trivial
    rw [FlagStep.apply] at hst
    split at hst
    · rename_i hres
      obtain rfl := Option.some.inj hst
      have hid : (isFlagChangingInstr id || isFlagSettingInstr id) = true := by
        by_contra hid
        rw [saveFlagChangingInstructionExpr, if_neg hid] at hres
        exact Bool.false_ne_true hres
      have hread := getFlagBit_save mgr cpu id e f
      rw [if_pos ⟨hid, hf⟩] at hread
      rcases (flagBitDefinited_iff _ f).1 hdef with hset | hclear
      · exact absurd (hread.symm.trans hset) (by decide)
      · exact absurd (hread.symm.trans hclear) (by decide)
    · simp at hst
  | native id writes eflags =>
    cases hid : isFlagChangingInstr id with
    | true =>
      -- all six flags are definite, so none of them may be left pending
      constructor
      · intro hlaw _ f hf hpend
        have hafter : (pending f && !writes f) = false := by
          refine hlaw f hf ?_
          rw [flagBitDefinited_native hst, hid, Bool.true_or]
        rw [hpend, Bool.true_and, Bool.not_eq_false'] at hafter
        exact hafter
      · intro hwrites f hf _
        show (pending f && !writes f) = false
        cases hpend : pending f with
        | false => rfl
        | true => rw [hwrites hid f hf hpend]; rfl
    | false =>
      refine iff_of_true (fun f hf hdef => ?_) (fun h => absurd h (by simp [hid]))
      rw [flagBitDefinited_native hst, hid, Bool.false_or] at hdef
      show (pending f && !writes f) = false
      rw [h f hf hdef]
      rfl
  | concreteFlag id bExecute =>
    refine iff_of_true (fun f hf hdef => ?_) trivial
    rw [FlagStep.apply] at hst
    obtain ⟨⟨ok, cpu'⟩, hfix, rfl⟩ := Option.map_eq_some_iff.1 hst
    have hdef : cpu'.flagBitDefinited f = true := hdef
    rw [flagBitDefinited_concreteFlag hfix] at hdef
    show (pending f && _) = false
    rw [h f hf hdef]
    rfl

/-! ## Runs -/

/-- The law over some steps is a law about where they end. -/
theorem HistoryLawOver.law {steps : List FlagStep} {σ : FlagState} {pending : PendingFlags}
    (h : HistoryLawOver steps σ pending) : HistoryLaw σ.2 pending := by
  cases steps with
  | nil => exact h
  | cons s steps => exact h.1

/-- A run keeps the law exactly when every step meets the condition. -/
theorem historyLawOver_iff (steps : List FlagStep) {σ : FlagState} {pending : PendingFlags}
    (h : HistoryLaw σ.2 pending) :
    HistoryLawOver steps σ pending ↔ WritesPendingOver steps σ pending := by
  induction steps generalizing σ pending with
  | nil => exact iff_of_true h trivial
  | cons s steps ih =>
    rw [HistoryLawOver, WritesPendingOver, and_iff_right h]
    refine forall_congr' fun σ' => imp_congr_right fun hst => ?_
    rw [and_iff_right (FlagStep.writesDefinite_of_apply hst)]
    constructor
    · intro hrest
      have hnext := hrest.law
      exact ⟨(historyLaw_apply_iff h hst).1 hnext, (ih hnext).1 hrest⟩
    · intro ⟨hop, hrest⟩
      exact (ih ((historyLaw_apply_iff h hst).2 hop)).2 hrest

/-- From a state where no flag is pending, no flag that is pending is ever reported as
definite, and what native instructions of the list write is definite, exactly when these
write all the flags that are pending. A native run of a flag-changing instruction takes the
marks off all flags, whichever of them it writes. So a flag that was left pending by the
executor is reported definite, unless that run writes it. -/
theorem flagHistory_iff (steps : List FlagStep) (σ : FlagState) :
    HistoryLawOver steps σ (fun _ => false) ↔ WritesPendingOver steps σ fun _ => false :=
  historyLawOver_iff steps fun _ _ _ => rfl

/-- `add` on a symbol and `inc` of a concrete register: the carry is reported as definite,
and `inc` does not write it. All six marks are taken off behind `inc`. -/
theorem not_flagHistory_inc :
    ¬ HistoryLawOver
      [.symbolic .add (Expr.binExpr .add (Expr.udefExpr none) (Expr.constExpr 1 8))
          (· ∈ changedFlags),
        .native .inc (fun f => f ∈ changedFlags ∧ f ≠ .cf) 0]
      newFlagState fun _ => false := by
  intro h
  obtain ⟨-, hrest⟩ := h
  obtain ⟨-, -, hrest⟩ := hrest _ rfl
  obtain ⟨-, hlaw⟩ := hrest _ rfl
  exact absurd (hlaw .cf (by decide) rfl) (by decide)

end KRover
