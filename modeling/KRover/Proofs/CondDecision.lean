import KRover.Lib.StatusFlags
import KRover.Proofs.FlagStatus
import KRover.ThinCtrl
import KRover.Z3Handler

/-! # Three decisions of one condition

After a comparison a conditional instruction is decided in three places: by
the expression that `GetCondition` builds, by `DependencyFlagConcreted` from
definite flags, and, for the jumps it lists, by `chkCondFail`.

`decisions_agree_iff`: they agree on every label but that of `jle`, where
`DependencyFlagConcreted` asks for both of two conditions of which one is
enough. There they agree only when the first operand is the greater one.
-/

set_option autoImplicit false

namespace KRover

open BvTerm StatusFlags EFlagsManager SYCPUState

/-- The condition that a label of the unsigned, signed or equality group
stands for. -/
def CondCase.cond : CondCase → Option Cond
  | .nb => some .nb
  | .nbe => some .nbe
  | .be => some .be
  | .b => some .b
  | .ge => some .nl
  | .g => some .nle
  | .le => some .le
  | .l => some .l
  | .e => some .z
  | .ne => some .nz
  | .ns | .s | .no | .o => none

/-- `eflags` holds the four flags, and none of them is uncertain. -/
structure HoldsFlags (cpu : SYCPUState) (F : Flags) : Prop where
  definite : ∀ f ∈ [Flag.cf, .zf, .sf, .of], cpu.bsymFlag f = false
  cf : (cpu.ptRegs .efl).getLsbD 0 = F.cf
  zf : (cpu.ptRegs .efl).getLsbD 6 = F.zf
  sf : (cpu.ptRegs .efl).getLsbD 7 = F.sf
  of : (cpu.ptRegs .efl).getLsbD 11 = F.of

/-! ## The condition expression -/

variable {ρ : Valuation} {w : Nat} {ea eb : Expr} {ta tb : Term (.bv w)}

/-- The comparison of two expressions of one width, translated. -/
theorem z3_compare (k : BinKind) (op : CmpOp) {size : Nat}
    (hk : ∀ x y, z3HandleBinKind k x y = z3Call (SomeTerm.cmp op x y))
    (ha : z3HandlingExprPtr ea = .ok ⟨.bv w, ta⟩) (hb : z3HandlingExprPtr eb = .ok ⟨.bv w, tb⟩) :
    exprTruth ρ (.bin k ea eb size) = some (op.eval (ta.eval ρ) (tb.eval ρ)) := by
  have hz3 : z3HandlingExprPtr (.bin k ea eb size) = .ok ⟨.bool, .cmp op ta tb⟩ := by
    simp only [z3HandlingExprPtr, ha, hb, bind, Except.bind, hk, SomeTerm.cmp, dite_true]
    rfl
  simp only [exprTruth, hz3, Term.eval]

/-- The comparison of an expression with zero, translated. -/
theorem z3_zero (k : UryKind) (op : CmpOp) {size : Nat} {e : Expr} {t : Term (.bv w)}
    (hk : ∀ e, z3HandlingExprPtr (.ury k e size) = (do
      let x ← z3HandlingExprPtr e
      z3Call (SomeTerm.cmpZero op x)))
    (he : z3HandlingExprPtr e = .ok ⟨.bv w, t⟩) :
    exprTruth ρ (.ury k e size) = some (op.eval (t.eval ρ) 0#w) := by
  simp only [exprTruth, hk, he, bind, Except.bind, SomeTerm.cmpZero, z3Call, Term.eval]
  rfl

/-- A test for zero is true where the value is zero. -/
theorem z3_equal {size : Nat} {e : Expr} {t : Term (.bv w)}
    (he : z3HandlingExprPtr e = .ok ⟨.bv w, t⟩) :
    exprTruth ρ (.ury .equal e size) = some (t.eval ρ == 0#w) :=
  z3_zero .equal .eq (fun _ => by simp only [z3HandlingExprPtr, z3HandleEqual]) he

/-- Its negation where it is not. -/
theorem z3_distinct {size : Nat} {e : Expr} {t : Term (.bv w)}
    (he : z3HandlingExprPtr e = .ok ⟨.bv w, t⟩) :
    exprTruth ρ (.ury .distinct e size) = some (t.eval ρ != 0#w) :=
  z3_zero .distinct .ne (fun _ => by simp only [z3HandlingExprPtr, z3HandleDistinct]) he

/-- What `GetCondition` makes of operands `a` and `b` and of the result `r`:
the comparison that the condition is named after, except that equality is that
of the result with zero. -/
def builtCond (k : Cond) (a b r : BitVec w) : Bool :=
  match k with
  | .z => r == 0#w
  | .nz => r != 0#w
  | k => k.compare a b

/-- `GetCondition` at a label hands the saved expression on. -/
theorem getCondition_of_lastExpr {mgr : EFlagsManager} {id : EntryID} {c : CondCase} {e : Expr}
    (hcase : switchCase id = some c) (hlast : mgr.lastExpr = e) (hne : e ≠ .null) :
    mgr.getCondition id = createExprByID (conditionExprId c) e e.getExprSize := by
  rw [getCondition, if_pos (isConditionalExecuteInstr_of_switchCase hcase), switchCaseSbb,
    if_neg (fun h => by simp [h, switchCase] at hcase), hcase]
  simp only [Option.bind_eq_bind, Option.bind_some, doGetCondition, hlast]

/-- The expression that `GetCondition` builds from one with two operands. -/
theorem exprTruth_getCondition {mgr : EFlagsManager} {id : EntryID} {c : CondCase} {k : Cond}
    {kind : BinKind} {tr : Term (.bv w)} (hcase : switchCase id = some c) (hk : c.cond = some k)
    (ha : z3HandlingExprPtr ea = .ok ⟨.bv w, ta⟩) (hb : z3HandlingExprPtr eb = .ok ⟨.bv w, tb⟩)
    (hr : z3HandlingExprPtr (Expr.binExpr kind ea eb) = .ok ⟨.bv w, tr⟩)
    (hlast : mgr.lastExpr = Expr.binExpr kind ea eb) :
    (mgr.getCondition id).bind (exprTruth ρ)
      = some (builtCond k (ta.eval ρ) (tb.eval ρ) (tr.eval ρ)) := by
  rw [getCondition_of_lastExpr hcase hlast (by simp [Expr.binExpr])]
  cases c with
  | nb =>
    obtain rfl := Option.some.inj hk
    exact z3_compare .uge .uge (fun _ _ => rfl) ha hb
  | nbe =>
    obtain rfl := Option.some.inj hk
    exact z3_compare .ugt .ugt (fun _ _ => rfl) ha hb
  | be =>
    obtain rfl := Option.some.inj hk
    exact z3_compare .ule .ule (fun _ _ => rfl) ha hb
  | b =>
    obtain rfl := Option.some.inj hk
    exact z3_compare .ult .ult (fun _ _ => rfl) ha hb
  | ge =>
    obtain rfl := Option.some.inj hk
    exact z3_compare .sge .sge (fun _ _ => rfl) ha hb
  | g =>
    obtain rfl := Option.some.inj hk
    exact z3_compare .sgt .sgt (fun _ _ => rfl) ha hb
  | le =>
    obtain rfl := Option.some.inj hk
    exact z3_compare .sle .sle (fun _ _ => rfl) ha hb
  | l =>
    obtain rfl := Option.some.inj hk
    exact z3_compare .slt .slt (fun _ _ => rfl) ha hb
  | e =>
    obtain rfl := Option.some.inj hk
    exact z3_equal hr
  | ne =>
    obtain rfl := Option.some.inj hk
    exact z3_distinct hr
  | ns | s | no | o => exact absurd hk (by simp [CondCase.cond])

/-- After a comparison it is the comparison that the condition is named
after. -/
theorem exprTruth_getCondition_sub {mgr : EFlagsManager} {id : EntryID} {c : CondCase} {k : Cond}
    (hcase : switchCase id = some c) (hk : c.cond = some k)
    (ha : z3HandlingExprPtr ea = .ok ⟨.bv w, ta⟩) (hb : z3HandlingExprPtr eb = .ok ⟨.bv w, tb⟩)
    (hlast : mgr.lastExpr = Expr.binExpr .sub ea eb) :
    (mgr.getCondition id).bind (exprTruth ρ) = some (k.compare (ta.eval ρ) (tb.eval ρ)) := by
  have hsub : z3HandlingExprPtr (Expr.binExpr .sub ea eb) = .ok ⟨.bv w, .bin .sub ta tb⟩ := by
    simp only [Expr.binExpr, z3HandlingExprPtr, ha, hb, bind, Except.bind, z3HandleBinKind,
      z3HandleSub, SomeTerm.bin, dite_true]
    rfl
  rw [exprTruth_getCondition hcase hk ha hb hsub hlast]
  have hzero := sub_beq_zero (ta.eval ρ) (tb.eval ρ)
  cases k with
  | b | nb | be | nbe | l | nl | le | nle => rfl
  | z => exact congrArg some hzero
  | nz => exact congrArg (fun b => some !b) hzero

/-! ## The flags -/

variable {cpu : SYCPUState} {F : Flags}

/-- A definite flag reads as its bit. -/
theorem HoldsFlags.getFlagBit (h : HoldsFlags cpu F) :
    cpu.getFlagBit .cf = (if F.cf then .set else .clear) ∧
    cpu.getFlagBit .zf = (if F.zf then .set else .clear) ∧
    cpu.getFlagBit .sf = (if F.sf then .set else .clear) ∧
    cpu.getFlagBit .of = (if F.of then .set else .clear) := by
  have hdef : ∀ f ∈ [Flag.cf, .zf, .sf, .of], cpu.getFlagBit f = cpu.eflagsBit f := by
    intro f hf
    rw [getFlagBit_eq, h.definite f hf]
    rfl
  rw [hdef .cf (by decide), hdef .zf (by decide), hdef .sf (by decide), hdef .of (by decide)]
  rw [← h.cf, ← h.zf, ← h.sf, ← h.of]
  exact ⟨rfl, rfl, rfl, rfl⟩

/-- What `DependencyFlagConcreted` decides: the condition, except at the label
of `jle`, where it asks for both parts of it. -/
theorem HoldsFlags.decideCase (h : HoldsFlags cpu F) {c : CondCase} {k : Cond}
    (hk : c.cond = some k) :
    EFlagsManager.decideCase cpu c
      = if c = .le then F.zf && (F.sf != F.of) else k.holds F := by
  obtain ⟨hcf, hzf, hsf, hof⟩ := h.getFlagBit
  unfold EFlagsManager.decideCase
  rw [hcf, hzf, hsf, hof]
  cases c with
  | ns | s | no | o => exact absurd hk (by simp [CondCase.cond])
  | nb | nbe | be | b | e | ne =>
    obtain rfl := Option.some.inj hk
    cases hc : F.cf <;> cases hz : F.zf <;> simp [Cond.holds, hc, hz]
  | ge | l =>
    obtain rfl := Option.some.inj hk
    cases hs : F.sf <;> cases ho : F.of <;> simp [Cond.holds, hs, ho]
  | g | le =>
    obtain rfl := Option.some.inj hk
    cases hz : F.zf <;> cases hs : F.sf <;> cases ho : F.of <;> simp [Cond.holds, hz, hs, ho]

/-- The flags that a label depends on are among the four. -/
theorem HoldsFlags.dependencyFlagConcreted (h : HoldsFlags cpu F) {id : EntryID} {c : CondCase}
    (hcase : switchCase id = some c) (b : Bool) :
    EFlagsManager.dependencyFlagConcreted cpu id b
      = some (true, EFlagsManager.decideCase cpu c) := by
  have hsub : ∀ f ∈ dependencyFlags c, f ∈ [Flag.cf, .zf, .sf, .of] := by
    cases c <;> decide
  have hall : (dependencyFlags c).all cpu.flagBitDefinited = true := by
    rw [List.all_eq_true]
    intro f hf
    rw [flagBitDefinited, h.definite f (hsub f hf)]
    rfl
  rw [EFlagsManager.dependencyFlagConcreted, switchCaseSbb,
    if_neg (fun he => by simp [he, switchCase] at hcase), hcase]
  simp only [Option.bind_eq_bind, Option.bind_some, hall, if_true]
  rfl

/-- `chkCondFail` is the negation of the condition at every jump it lists. -/
theorem HoldsFlags.chkCondFail (h : HoldsFlags cpu F) {id : EntryID} {c : CondCase} {k : Cond}
    (hcase : switchCase id = some c) (hk : c.cond = some k) {r : Bool}
    (hr : KRover.chkCondFail id cpu.ptRegs = some r) : (!r) = k.holds F := by
  unfold KRover.chkCondFail at hr
  simp only [h.cf, h.zf, h.sf, h.of] at hr
  -- one goal for each jump that is listed and named by a label of the groups
  cases id <;> try (first | (simp at hr; done) | (simp [switchCase] at hcase; done))
  all_goals
    obtain rfl := Option.some.inj hr
    obtain rfl := Option.some.inj hcase
    first
      | (simp [CondCase.cond] at hk; done)
      | obtain rfl := Option.some.inj hk
        cases F with
        | mk cf zf sf of => cases cf <;> cases zf <;> cases sf <;> cases of <;> rfl

/-! ## The three decisions -/

/-- The three decisions of a conditional instruction are one. -/
def DecisionsAgree (ρ : Valuation) (mgr : EFlagsManager) (cpu : SYCPUState) (id : EntryID)
    (bExecute : Bool) : Prop :=
  ∃ d, (mgr.getCondition id).bind (exprTruth ρ) = some d ∧
    dependencyFlagConcreted cpu id bExecute = some (true, d) ∧
    ∀ r, chkCondFail id cpu.ptRegs = some r → (!r) = d

/-- After a comparison the three decisions agree, except at the label of `jle` when the
first operand is not the greater one. The label asks for ZF and SF, OF together where either
of the two would do. All other labels read the flags as the builder's comparison does. -/
theorem decisions_agree_iff {mgr : EFlagsManager} {id : EntryID} {c : CondCase} {k : Cond}
    (hw : 0 < w) (hcase : switchCase id = some c) (hk : c.cond = some k)
    (ha : z3HandlingExprPtr ea = .ok ⟨.bv w, ta⟩) (hb : z3HandlingExprPtr eb = .ok ⟨.bv w, tb⟩)
    (hlast : mgr.lastExpr = Expr.binExpr .sub ea eb)
    (hflags : HoldsFlags cpu (ofSub (ta.eval ρ) (tb.eval ρ))) (bExecute : Bool) :
    DecisionsAgree ρ mgr cpu id bExecute ↔
      (c = .le → (tb.eval ρ).slt (ta.eval ρ) = true) := by
  have hexpr := exprTruth_getCondition_sub (ρ := ρ) hcase hk ha hb hlast
  have hdep := hflags.dependencyFlagConcreted hcase bExecute
  rw [hflags.decideCase hk, k.holds_ofSub hw] at hdep
  have hchk : ∀ r, chkCondFail id cpu.ptRegs = some r →
      (!r) = k.compare (ta.eval ρ) (tb.eval ρ) := by
    intro r hr
    rw [hflags.chkCondFail hcase hk hr, k.holds_ofSub hw]
  rw [DecisionsAgree, hexpr, hdep]
  by_cases hc : c = .le
  · subst hc
    obtain rfl := Option.some.inj hk
    -- equal operands are not less, so the two parts are never met at once
    have hboth : ((ofSub (ta.eval ρ) (tb.eval ρ)).zf &&
        ((ofSub (ta.eval ρ) (tb.eval ρ)).sf != (ofSub (ta.eval ρ) (tb.eval ρ)).of)) = false := by
      show ((ta.eval ρ - tb.eval ρ == 0#w) && _) = false
      rw [sub_beq_zero]
      show (_ && ((ta.eval ρ - tb.eval ρ).msb != (ta.eval ρ).ssubOverflow (tb.eval ρ))) = false
      rw [msb_sub_bne_ssubOverflow hw]
      by_cases heq : ta.eval ρ = tb.eval ρ
      · rw [heq, BitVec.slt_eq_decide]
        simp
      · simp [heq]
    simp only [if_true, hboth, forall_true_left]
    have hle : Cond.compare .le (ta.eval ρ) (tb.eval ρ) = !(tb.eval ρ).slt (ta.eval ρ) :=
      BitVec.sle_eq_not_slt
    rw [hle] at hchk ⊢
    constructor
    · intro ⟨d, h1, h2, _⟩
      have hd : (!(tb.eval ρ).slt (ta.eval ρ)) = false :=
        (Option.some.inj h1).trans (Prod.mk.inj (Option.some.inj h2)).2.symm
      simpa using hd
    · intro hslt
      rw [hslt] at hchk ⊢
      exact ⟨false, rfl, rfl, hchk⟩
  · simp only [hc, false_implies, iff_true]
    exact ⟨_, rfl, rfl, hchk⟩

/-- The state after the comparison of the one-byte literals `a` and `b`, with
the given `eflags`. -/
def comparedBytes (a b : BitVec 64) : EFlagsManager :=
  ⟨Expr.binExpr .sub (Expr.constExpr a 1) (Expr.constExpr b 1), []⟩

/-- A fresh state with the given word of flags. -/
def cpuWithEflags (x : BitVec 64) : SYCPUState :=
  SYCPUState.new fun i => if i = .efl then x else 0

/-- `cmp 1, 0` and `jle`, which is not taken. -/
theorem decisions_agree_jle_greater :
    DecisionsAgree (fun _ _ => 0) (comparedBytes 1 0) (cpuWithEflags 0) .jle false := by
  have hflags : HoldsFlags (cpuWithEflags 0) (ofSub 1#8 0#8) :=
    ⟨fun _ _ => rfl, by decide, by decide, by decide, by decide⟩
  exact (decisions_agree_iff (ρ := fun _ _ => 0) (by decide)
    rfl rfl rfl rfl rfl hflags false).2 fun _ => by decide

/-- `cmp 0, 0` and `jle`: the expression says taken, the flags say not. -/
theorem not_decisions_agree_jle_equal :
    HoldsFlags (cpuWithEflags 0x40) (ofSub 0#8 0#8) ∧
      ¬ DecisionsAgree (fun _ _ => 0) (comparedBytes 0 0) (cpuWithEflags 0x40) .jle false := by
  refine ⟨⟨fun _ _ => rfl, by decide, by decide, by decide, by decide⟩, ?_⟩
  intro ⟨d, h1, h2, _⟩
  have hexpr : ((comparedBytes 0 0).getCondition .jle).bind (exprTruth fun _ _ => 0)
      = some true := rfl
  have hdep : dependencyFlagConcreted (cpuWithEflags 0x40) .jle false = some (true, false) := rfl
  rw [hexpr] at h1
  rw [hdep] at h2
  have hd : false = d := (Prod.mk.inj (Option.some.inj h2)).2
  rw [← hd] at h1
  exact absurd h1 (by decide)

end KRover
