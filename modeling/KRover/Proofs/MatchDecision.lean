import KRover.Proofs.CondBuild
import KRover.Proofs.DenoteValue
import KRover.Proofs.Matching
import KRover.Proofs.PathCondition
import KRover.Proofs.SignCondition

/-! # Decisions beside the machine

A jump is decided by the flags when they are definite, and else by the condition that
is built from the last expression, which joins the constraint as it was decided. The
machine decides the same way when the values of the symbols satisfy what joins.

* `exprTruth_pending`: what the condition says of pending flags;
* `Matches.decision`: the decision of the engine and that of the machine.
-/

set_option autoImplicit false

namespace KRover

open BvTerm StatusFlags Bytes EFlagsManager

/-! ## What is fixed -/

/-- Setting or clearing a flag writes its bit only. -/
theorem setFlagBit_spec (cpu : SYCPUState) (f : Flag) {s : FlagStat} (hs : s ≠ .uncertain) :
    (cpu.setFlagBit f s).bsymFlag = cpu.bsymFlag ∧
      ∀ i, f.bit ≠ i →
        ((cpu.setFlagBit f s).ptRegs .efl).getLsbD i = (cpu.ptRegs .efl).getLsbD i := by
  -- The mask has no bit but the flag's own.
  have hbit : ∀ i, f.bit ≠ i → (1#64 <<< f.bit).getLsbD i = false := by
    intro i hi
    rw [BitVec.getLsbD_shiftLeft]
    by_cases hlt : i < f.bit
    · simp [hlt]
    · have hpos : i - f.bit ≠ 0 := by omega
      simp [hpos]
  cases s with
  | uncertain => exact absurd rfl hs
  | set =>
    have hword : (cpu.setFlagBit f .set).ptRegs .efl = cpu.ptRegs .efl ||| 1#64 <<< f.bit :=
      Function.update_self PtIdx.efl _ cpu.ptRegs
    refine ⟨rfl, fun i hi => ?_⟩
    rw [hword, BitVec.getLsbD_or, hbit i hi, Bool.or_false]
  | clear =>
    have hword : (cpu.setFlagBit f .clear).ptRegs .efl
        = cpu.ptRegs .efl &&& ~~~(1#64 <<< f.bit) :=
      Function.update_self PtIdx.efl _ cpu.ptRegs
    refine ⟨rfl, fun i hi => ?_⟩
    rw [hword, BitVec.getLsbD_and, BitVec.getLsbD_not, hbit i hi]
    by_cases hlt : i < 64
    · simp [hlt]
    · rw [BitVec.getLsbD_of_ge _ _ (by omega), Bool.false_and]

/-- `ConcreteFlag` knows the instruction and writes only bits of status flags. -/
theorem concreteFlag_spec {cpu cpu' : SYCPUState} {id : EntryID} {b ok : Bool}
    (hid : isConditionalExecuteInstr id = true)
    (hfix : concreteFlag cpu id b = some (ok, cpu')) :
    (∃ c, switchCase id = some c) ∧ SameWords cpu cpu' ∧ cpu'.bsymFlag = cpu.bsymFlag ∧
      ∀ i, (∀ f ∈ changedFlags, f.bit ≠ i) →
        (cpu'.ptRegs .efl).getLsbD i = (cpu.ptRegs .efl).getLsbD i := by
  have hwords := sameWords_concreteFlag hfix
  rw [concreteFlag, hid, if_pos rfl] at hfix
  obtain ⟨c, hcase, hc⟩ := Option.map_eq_some_iff.1 hfix
  obtain ⟨-, rfl⟩ := Prod.mk.inj hc
  refine ⟨⟨c, hcase⟩, hwords, ?_⟩
  rw [concreteFlagCase_eq]
  have hall : ∀ P ∈ fixedFlags c b, P.1 ∈ changedFlags ∧ P.2 ≠ .uncertain := by
    cases c <;> cases b <;> decide
  -- by induction on the flags that are fixed
  generalize fixedFlags c b = L at hall
  clear hwords hcase hc hfix
  induction L generalizing cpu with
  | nil => exact ⟨rfl, fun _ _ => rfl⟩
  | cons P L ih =>
    obtain ⟨hmem, hs⟩ := hall P List.mem_cons_self
    obtain ⟨hsym, hbits⟩ := setFlagBit_spec cpu P.1 hs
    obtain ⟨hsym', hbits'⟩ :=
      @ih (cpu.setFlagBit P.1 P.2) fun Q hQ => hall Q (List.mem_cons_of_mem _ hQ)
    refine ⟨hsym'.trans hsym, fun i hi => ?_⟩
    exact (hbits' i hi).trans (hbits i (hi _ hmem))

/-! ## What is decided -/

/-- Where the flags are not definite the last expression is direct, and it is a
difference or the condition asks for zero. -/
def DecisionFits (vm : VMState) (id : EntryID) : Prop :=
  vm.flagsDefinite id = false → vm.eflagsMgr.lastExpr.isDirect = true ∧
    (switchCase id = some .e ∨ switchCase id = some .ne ∨
      ∃ e1 e2 size, vm.eflagsMgr.lastExpr = .bin .sub e1 e2 size)

section Decision

variable {S : Simplifier} {ρ : Valuation} {st st' : ThinState} {m : Machine} {id : EntryID}
  {c : CondCase} {k : Cond} {b : Bool}

/-- A case of the engine is the condition it stands for, on any flags. -/
theorem CondCase.holds_cond (hk : c.cond = some k) (F : Flags) : c.holds F = k.holds F := by
  cases c <;> simp only [CondCase.cond, Option.some.injEq, reduceCtorEq] at hk <;> subst hk <;> rfl

/-- ZF says whether the result is zero. -/
theorem zf_statusFlags {w : Nat} (op : BinOp) (a b : BitVec w) :
    (statusFlags op a b).zf = (op.eval a b == 0#w) := by
  cases op <;> rfl

/-- The condition that is built of pending flags is true when they say so. -/
theorem exprTruth_pending {mgr : EFlagsManager} {kind : BinKind} {op : BinOp} {e1 e2 : Expr}
    {x y : List (BitVec 8)} (hcase : switchCase id = some c) (hk : c.cond = some k)
    (hop : kind.op = some op) (hlast : mgr.lastExpr = Expr.binExpr kind e1 e2)
    (hdirect : e1.isDirect = true ∧ e2.isDirect = true) (h1 : e1.denote ρ = some x)
    (h2 : e2.denote ρ = some y) (hlen : x.length = y.length) (hpos : 0 < x.length)
    (hfits : c = .e ∨ c = .ne ∨ kind = .sub) :
    (mgr.getCondition id).bind (exprTruth ρ)
      = some (c.holds (statusFlags op (bitsOf x x.length) (bitsOf y x.length))) := by
  have hx := exprIs_denote e1 hdirect.1 h1
  have hy := exprIs_denote e2 hdirect.2 h2
  obtain ⟨t, u, hzt, hzu, ht, hu⟩ := exprIs_terms hx hy hlen
  rw [CondCase.holds_cond hk]
  -- the term of the operation
  have hbin : z3HandlingExprPtr (Expr.binExpr kind e1 e2) = .ok ⟨_, .bin op t u⟩ := by
    refine z3_binExpr ?_ hzt hzu
    cases kind <;> simp only [BinKind.op, Option.some.injEq, reduceCtorEq] at hop <;> subst hop <;>
      rfl
  have hzero : k = .z ∨ k = .nz →
      (mgr.getCondition id).bind (exprTruth ρ)
        = some (k.holds (statusFlags op (bitsOf x x.length) (bitsOf y x.length))) := by
    intro hz
    rw [exprTruth_getCondition hcase hk hzt hzu hbin hlast, Term.eval, ht, hu]
    rcases hz with rfl | rfl
    · rw [builtCond, Cond.holds, zf_statusFlags]
    · rw [builtCond, Cond.holds, zf_statusFlags]
      rfl
  -- The zero conditions fit every operation; the others only a subtraction.
  rcases hfits with rfl | rfl | rfl
  · exact hzero (Or.inl (Option.some.inj hk).symm)
  · exact hzero (Or.inr (Option.some.inj hk).symm)
  · obtain rfl : op = .sub := (Option.some.inj hop).symm
    rw [exprTruth_getCondition_sub hcase hk hzt hzu hlast, ht, hu]
    exact congrArg some (Cond.holds_ofSub k (by omega) _ _).symm

/-- A pending condition that is decided is none of the sign group, which the
translation does not get through. -/
theorem cond_of_evalCondition {vm vm' : VMState} {objs objs' : List SYMemObject}
    (hcase : switchCase id = some c) (heval : vm.evalCondition S objs id = some (b, vm', objs')) :
    ∃ k, c.cond = some k := by
  by_cases hc : c ∈ signCases
  · rw [evalCondition_sign hcase hc] at heval
    simp at heval
  · cases c <;> first | exact ⟨_, rfl⟩ | exact absurd (by decide) hc

/-- A jump that `chkCondFail` lists has a label. -/
theorem switchCase_of_chkCondFail {regs : MacReg} {ret bChoice : Bool} {cpu : SYCPUState}
    (hchk : chkCondFail id regs = some ret)
    (hdep : dependFlagCon cpu id false = some (true, bChoice)) :
    ∃ c, switchCase id = some c ∧ ∀ f ∈ dependencyFlags c, cpu.bsymFlag f = false := by
  have hid : isConditionalExecuteInstr id = true ∧ id ≠ .sbb := by
    unfold chkCondFail at hchk
    cases id <;> first | exact ⟨rfl, by decide⟩ | simp at hchk
  have hflags := flagBitDefinited_of_dependFlagCon hdep
  rw [dependFlagCon, if_pos hid.1, dependencyFlagConcreted] at hdep
  obtain ⟨c, hcase, -⟩ := bind_some hdep
  have hcase' := hcase
  rw [switchCaseSbb, if_neg hid.2] at hcase
  refine ⟨c, hcase, fun f hf => ?_⟩
  rw [checkedFlags, if_pos hid.1, hcase'] at hflags
  have hdef := hflags f hf
  rw [SYCPUState.flagBitDefinited, Bool.not_eq_true'] at hdef
  exact hdef

/-- The machine decides a jump, and the constraint asks for the decision of the
engine. The engine stands for the machine in any case. -/
theorem Matches.decision (h : Matches ρ st.vm m)
    (hstep : st.updateJCCDecision S id = some (b, st')) (hfits : DecisionFits st.vm id) :
    ∃ d, (switchCase id).map (·.holds m.regs.flags) = some d ∧
      (Satisfies ρ st'.vm.eflagsMgr.constraint ↔
        Satisfies ρ st.vm.eflagsMgr.constraint ∧ d = b) ∧ Matches ρ st'.vm m := by
  rw [ThinState.updateJCCDecision] at hstep
  obtain ⟨⟨concreted, bChoice⟩, hdep, hrest⟩ := bind_some hstep
  have hdef := dependFlagCon_eq hdep
  dsimp only at hrest
  cases concreted with
  | true =>
    -- by the flags, which the machine has as well
    obtain ⟨ret, hchk, hout⟩ := bind_some hrest
    obtain ⟨rfl, rfl⟩ := Prod.mk.inj (Option.some.inj hout)
    obtain ⟨c, hcase, hflags⟩ := switchCase_of_chkCondFail hchk hdep
    refine ⟨!ret, ?_, (and_iff_left rfl).symm, h⟩
    rw [hcase, Option.map_some]
    cases h.flags with
    | definite _ heflags =>
      refine congrArg some (chkCondFail_of_holds hcase (fun f hf => ?_) hchk).symm
      rw [HoldsFlag, heflags]
      cases c <;> fin_cases hf <;> rfl
    | pending _ _ _ _ _ _ hsym =>
      obtain ⟨f, hf, hin⟩ : ∃ f ∈ dependencyFlags c, f ∈ changedFlags := by
        cases c <;> decide
      have hnot := hflags f hf
      rw [hsym, decide_eq_false_iff_not] at hnot
      exact absurd hin hnot
  | false =>
    have hid : isConditionalExecuteInstr id = true := by
      by_contra hnot
      rw [dependFlagCon, if_neg hnot] at hdep
      simp at hdep
    obtain ⟨⟨bExecute, vm₁, objs⟩, heval, hrest⟩ := bind_some hrest
    obtain ⟨⟨ok, cpu⟩, hfix, hout⟩ := bind_some hrest
    obtain ⟨rfl, rfl⟩ := Prod.mk.inj (Option.some.inj hout)
    obtain ⟨⟨c, hcase⟩, hwords, hsymFlag, hbits⟩ := concreteFlag_spec hid hfix
    obtain ⟨k, hk⟩ := cond_of_evalCondition hcase heval
    obtain ⟨cond, t, hget, hz3, -, rfl⟩ := evalCondition_spec heval
    have htruth := exprTruth_decidedConstraint (ρ := ρ) (d := (cond, bExecute)) ⟨t, hz3⟩
    rw [hcase, Option.map_some]
    cases h.flags with
    | definite hdefinite _ =>
      rw [VMState.flagsDefinite, eq_comm, List.all_eq_false] at hdef
      obtain ⟨f, -, hf⟩ := hdef
      simp [SYCPUState.flagBitDefinited, hdefinite] at hf
    | pending kind op e1 e2 x y hsym hop hlast h1 h2 hlen hpos hflags heflags =>
      obtain ⟨hdirect, hcond⟩ := hfits hdef.symm
      rw [hlast, Expr.binExpr, Expr.isDirect, Bool.and_eq_true] at hdirect
      have hkind : c = .e ∨ c = .ne ∨ kind = .sub := by
        rw [hcase, hlast, Expr.binExpr] at hcond
        rcases hcond with heq | heq | ⟨_, _, _, heq⟩
        · exact Or.inl (Option.some.inj heq)
        · exact Or.inr (Or.inl (Option.some.inj heq))
        · exact Or.inr (Or.inr (Expr.bin.inj heq).1)
      have hbuilt := exprTruth_pending hcase hk hop hlast hdirect h1 h2 hlen hpos hkind
      rw [hget, Option.bind_some, ← hflags] at hbuilt
      refine ⟨_, rfl, ?_, ?_⟩
      · -- the constraint asks for the decision
        show Satisfies ρ (st.vm.eflagsMgr.constraint ++ [_]) ↔ _
        rw [satisfies_append, ← Option.some_inj, ← hbuilt, ← htruth]
        exact and_congr_right fun _ => by simp [Satisfies]
      · refine h.concrete ⟨hwords.symBitmap, hwords.symList, rfl, rfl⟩ (fun b hb hmark => ?_)
          (fun b hb hmark => rfl) ?_
        · rw [← h.conByte hb hmark]
          cases b with
          | mem a => rfl
          | reg i k =>
            show byteOf (cpu.ptRegs i).toNat k = _
            rw [hwords.ptRegs i hb.1]
            rfl
        · refine .pending kind op e1 e2 x y (fun f => ?_) hop hlast h1 h2 hlen hpos hflags
            fun i hi => ?_
          · rw [hsymFlag]
            exact hsym f
          · exact (hbits i hi).trans (heflags i hi)

end Decision

end KRover
