import KRover.Proofs.CondDecision
import KRover.Proofs.OprndParse
import KRover.SymExec

/-! # Conditions after arithmetic and logic

`GetCondition` compares the two operands of the expression that was saved last,
as is right after `cmp`. The executor saves the expressions of `add`, `and`,
`test`, `or`, `xor` and `neg` too, which set the flags otherwise, and that of
`neg` has one operand only.

A literal takes the size that the decoder gives the operand, and that of an immediate
may be less than the size of the other operand. Then the solver has no term for the
two, whatever the condition is. For `cmp` alone the size is corrected.

* `exprTruth_getCondition_widths`: operands of two widths make no condition;
* `condition_after_iff`: for operands of one width the condition is that of the flags
  when it reads the zero flag alone, and otherwise only when the operands happen to
  compare as the result does with zero, or, for the carry of a sum, with the modulus.
-/

set_option autoImplicit false

namespace KRover

open BvTerm StatusFlags EFlagsManager SymExecutor

/-! ## Instructions that set the flags -/

/-- The ways of setting the flags, `cmp` and `sub` apart. -/
inductive FlagSetter where
  | add | and | or | xor | neg
deriving DecidableEq, Repr

/-- The kind of flag setter that an instruction is, if its result is saved for the
conditions. -/
def flagSetter : EntryID → Option FlagSetter
  | .add => some .add
  | .and | .test => some .and
  | .or => some .or
  | .xor => some .xor
  | .neg => some .neg
  | _ => none

namespace FlagSetter

variable {w : Nat}

/-- The flags that an instruction sets, from its first operand and its second
one, if it has two. -/
def flags (a b : BitVec w) : FlagSetter → Flags
  | .add => ofAdd a b
  | .and => ofLogic (a &&& b)
  | .or => ofLogic (a ||| b)
  | .xor => ofLogic (a ^^^ b)
  | .neg => ofSub 0#w a

/-- The operands compare as a bitwise result `r` does with zero. -/
def LogicAgrees (a b r : BitVec w) : Cond → Prop
  | .b => b.toNat ≤ a.toNat
  | .be => a.toNat ≤ b.toNat ↔ r = 0#w
  | .l => a.toInt < b.toInt ↔ r.toInt < 0
  | .le => a.toInt ≤ b.toInt ↔ r.toInt ≤ 0
  | _ => True

/-- When the condition that is built after an instruction is that of the flags.
A condition and its negation agree together. -/
def Agrees (k : Cond) (a b : BitVec w) : FlagSetter → Prop
  | .add =>
    match k.base with
    | .b => a.toNat < b.toNat ↔ 2 ^ w ≤ a.toNat + b.toNat
    | .be => a.toNat ≤ b.toNat ↔ 2 ^ w ≤ a.toNat + b.toNat ∨ a.toNat + b.toNat = 0
    | .l => a.toInt < b.toInt ↔ a.toInt + b.toInt < 0
    | .le => a.toInt ≤ b.toInt ↔ a.toInt + b.toInt ≤ 0
    | _ => True
  | .and => LogicAgrees a b (a &&& b) k.base
  | .or => LogicAgrees a b (a ||| b) k.base
  | .xor => LogicAgrees a b (a ^^^ b) k.base
  | .neg => k.base = .z

end FlagSetter

/-- An operand stands for a number: its expression translates to a term of that
value, or its constant is that number. -/
structure OprndInfo.Evaluates (ρ : Valuation) (oi : OprndInfo) (w : Nat) (x : BitVec w) :
    Prop where
  sym : oi.symb = true →
    ∃ e t, oi.getSymValue = some e ∧ z3HandlingExprPtr e = .ok ⟨.bv w, t⟩ ∧ t.eval ρ = x
  con : oi.symb = false →
    ∃ v, oi.getConValue = some v ∧ w = oi.size * 8 ∧ x = BitVec.ofNat w v.toNat

/-- The operands of an instruction that sets the flags, each of the width that the decoder
gives it. The first has the width of the instruction. -/
def FlagSetter.Operands (ρ : Valuation) (vecOI : List OprndInfo) {w w' : Nat} (a : BitVec w)
    (b : BitVec w') : FlagSetter → Prop
  | .neg => ∃ o, vecOI = [o] ∧ o.Evaluates ρ w a
  | _ => ∃ o1 o2, vecOI = [o1, o2] ∧ o1.Evaluates ρ w a ∧ o2.Evaluates ρ w' b

/-! ## The expression that is saved -/

variable {ρ : Valuation} {w w' : Nat}

/-- The literal of a constant operand. -/
theorem z3_constExpr (hw : 0 < w) {v : BitVec 64} {size : Nat} (hsize : w = size * 8) :
    z3HandlingExprPtr (Expr.constExpr v size) = .ok ⟨.bv w, .lit (BitVec.ofNat w v.toNat)⟩ := by
  subst hsize
  rw [Expr.constExpr, z3HandlingExprPtr, z3HandleConst, SomeTerm.lit, if_neg (by omega)]
  rfl

/-- `operate` builds the node of two expressions that have the values of the
operands. -/
theorem operate_evaluates {a : BitVec w} {b : BitVec w'} (hw : 0 < w) (hw' : 0 < w') {k : BinKind}
    {o1 o2 : OprndInfo} {oe : Expr} (h1 : o1.Evaluates ρ w a) (h2 : o2.Evaluates ρ w' b)
    (hop : operate k o1 o2 o1.size o2.size = some oe) :
    ∃ (e1 e2 : Expr) (t1 : Term (.bv w)) (t2 : Term (.bv w')), oe = Expr.binExpr k e1 e2 ∧
      z3HandlingExprPtr e1 = .ok ⟨.bv w, t1⟩ ∧ z3HandlingExprPtr e2 = .ok ⟨.bv w', t2⟩ ∧
      t1.eval ρ = a ∧ t2.eval ρ = b := by
  rw [operate] at hop
  -- Both symbolic, one of them, or none, which is refused.
  cases hs1 : o1.symb with
  | true =>
    obtain ⟨e1, t1, he1, ht1, hv1⟩ := h1.sym hs1
    cases hs2 : o2.symb with
    | true =>
      obtain ⟨e2, t2, he2, ht2, hv2⟩ := h2.sym hs2
      simp [hs1, hs2, he1, he2] at hop
      exact ⟨e1, e2, t1, t2, hop.symm, ht1, ht2, hv1, hv2⟩
    | false =>
      obtain ⟨v2, hc2, hsize, rfl⟩ := h2.con hs2
      simp [hs1, hs2, he1, hc2] at hop
      exact ⟨e1, _, t1, _, hop.symm, ht1, z3_constExpr hw' hsize, hv1, rfl⟩
  | false =>
    obtain ⟨v1, hc1, hsize, rfl⟩ := h1.con hs1
    cases hs2 : o2.symb with
    | true =>
      obtain ⟨e2, t2, he2, ht2, hv2⟩ := h2.sym hs2
      simp [hs1, hs2, hc1, he2] at hop
      exact ⟨_, e2, _, t2, hop.symm, z3_constExpr hw hsize, ht2, rfl, hv2⟩
    | false => simp [hs1, hs2] at hop

/-- A result that was saved for a flag-changing instruction is the last expression. -/
theorem saved_lastExpr {vm vm' : VMState} {id : EntryID} {e : Expr}
    (hid : isFlagChangingInstr id = true)
    (hsave : (vm.saveFlagChangingInstructionExpr id e).2 = vm') : vm'.eflagsMgr.lastExpr = e := by
  rw [← hsave, VMState.saveFlagChangingInstructionExpr,
    EFlagsManager.saveFlagChangingInstructionExpr, hid]
  rfl

/-- What the handlers of two operands save. -/
theorem processBinary_lastExpr {k : BinKind} {id : EntryID} (hid : isFlagChangingInstr id = true)
    {vm vm' : VMState} {o1 o2 : OprndInfo} (hrun : processBinary k id vm [o1, o2] = some vm') :
    operate k o1 o2 o1.size o2.size = some vm'.eflagsMgr.lastExpr := by
  obtain ⟨p1, hp1, hrun⟩ := bind_some hrun
  obtain ⟨p2, hp2, hrun⟩ := bind_some hrun
  obtain rfl : o1 = p1 := Option.some.inj hp1
  obtain rfl : o2 = p2 := Option.some.inj hp2
  obtain ⟨oe, hoe, hrun⟩ := bind_some hrun
  obtain ⟨vm₁, -, hrun⟩ := bind_some hrun
  have hsave := congrArg Prod.snd (Option.some.inj (asserted_eq_some.1 hrun))
  rw [hoe, saved_lastExpr hid hsave]

/-- `process_test` saves the conjunction of its operands. -/
theorem processTest_lastExpr {vm vm' : VMState} {o1 o2 : OprndInfo}
    (hrun : processTest vm [o1, o2] = some vm') :
    operate .and o1 o2 o1.size o2.size = some vm'.eflagsMgr.lastExpr := by
  obtain ⟨p1, hp1, hrun⟩ := bind_some hrun
  obtain ⟨p2, hp2, hrun⟩ := bind_some hrun
  obtain rfl : o1 = p1 := Option.some.inj hp1
  obtain rfl : o2 = p2 := Option.some.inj hp2
  obtain ⟨oe, hoe, hrun⟩ := bind_some hrun
  rw [hoe, saved_lastExpr (show isFlagChangingInstr .test = true from rfl) (Option.some.inj hrun)]

/-- `process_neg` saves the negation, a unary node. -/
theorem processNeg_lastExpr {vm vm' : VMState} {o : OprndInfo}
    (hrun : processNeg vm [o] = some vm') :
    ∃ e, o.symb = true ∧ o.getSymValue = some e ∧
      vm'.eflagsMgr.lastExpr = Expr.uryExpr .neg e := by
  obtain ⟨p, hp, hrun⟩ := bind_some hrun
  obtain rfl : o = p := Option.some.inj hp
  split at hrun
  · rename_i hsym
    obtain ⟨e, he, hrun⟩ := bind_some hrun
    obtain ⟨vm₁, -, hrun⟩ := bind_some hrun
    have hsave := congrArg Prod.snd (Option.some.inj (asserted_eq_some.1 hrun))
    exact ⟨e, hsym, he, saved_lastExpr (show isFlagChangingInstr .neg = true from rfl) hsave⟩
  · simp at hrun

/-- The node that is saved by an instruction with two operands. -/
def FlagSetter.kind : FlagSetter → Option BinKind
  | .add => some .add
  | .and => some .and
  | .or => some .or
  | .xor => some .xor
  | .neg => none

/-- A two-operand handler saves what `operate` builds of the operands and their sizes. -/
theorem process_lastExpr {vm vm' : VMState} {I : Instruction} {s : FlagSetter} {k : BinKind}
    {o1 o2 : OprndInfo} (hs : flagSetter I.id = some s) (hk : s.kind = some k)
    (hrun : process I vm [o1, o2] = some vm') :
    operate k o1 o2 o1.size o2.size = some vm'.eflagsMgr.lastExpr := by
  obtain ⟨id, operands, implicitReads⟩ := I
  -- Only these instructions set the flags that the condition reads.
  cases id with
  | add =>
    obtain rfl := Option.some.inj hs
    obtain rfl := Option.some.inj hk
    exact processBinary_lastExpr (show isFlagChangingInstr .add = true from rfl) hrun
  | and =>
    obtain rfl := Option.some.inj hs
    obtain rfl := Option.some.inj hk
    exact processBinary_lastExpr (show isFlagChangingInstr .and = true from rfl) hrun
  | test =>
    obtain rfl := Option.some.inj hs
    obtain rfl := Option.some.inj hk
    exact processTest_lastExpr hrun
  | or =>
    obtain rfl := Option.some.inj hs
    obtain rfl := Option.some.inj hk
    exact processBinary_lastExpr (show isFlagChangingInstr .or = true from rfl) hrun
  | xor =>
    obtain rfl := Option.some.inj hs
    obtain rfl := Option.some.inj hk
    exact processBinary_lastExpr (show isFlagChangingInstr .xor = true from rfl) hrun
  | neg =>
    obtain rfl := Option.some.inj hs
    simp [FlagSetter.kind] at hk
  | _ => simp [flagSetter] at hs

/-! ## What is built and what holds -/

/-- A negated condition is built as the negation of the other. -/
theorem builtCond_base (k : Cond) (a b r : BitVec w) :
    builtCond k a b r = (builtCond k.base a b r ^^ k.negated) := by
  cases k with
  | z => exact (Bool.xor_false _).symm
  | nz => exact (Bool.xor_true _).symm
  | b => exact Cond.compare_base .b a b
  | nb => exact Cond.compare_base .nb a b
  | be => exact Cond.compare_base .be a b
  | nbe => exact Cond.compare_base .nbe a b
  | l => exact Cond.compare_base .l a b
  | nl => exact Cond.compare_base .nl a b
  | le => exact Cond.compare_base .le a b
  | nle => exact Cond.compare_base .nle a b

/-- A condition and its negation are right together. -/
theorem builtCond_eq_iff (k : Cond) (a b r : BitVec w) (F : Flags) :
    builtCond k a b r = k.holds F ↔
      (builtCond k.base a b r = true ↔ k.base.holds F = true) := by
  rw [builtCond_base, Cond.holds_base k F, ← Bool.eq_iff_iff]
  cases k.negated with
  | false => rw [Bool.xor_false, Bool.xor_false]
  | true => rw [Bool.xor_true, Bool.xor_true, Bool.not_inj_iff]

/-- After an addition the builder compares the summands, so it is right exactly where that
comparison gives what the flags of the sum say. -/
theorem builtCond_add_iff (hw : 0 < w) (k : Cond) (a b : BitVec w) :
    builtCond k a b (a + b) = k.holds (ofAdd a b) ↔ FlagSetter.add.Agrees k a b := by
  rw [builtCond_eq_iff, FlagSetter.Agrees]
  cases k with
  | b | nb =>
    show (a.ult b = true ↔ decide (2 ^ w ≤ a.toNat + b.toNat) = true) ↔ _
    rw [BitVec.ult_iff_toNat_lt, decide_eq_true_eq]
    rfl
  | be | nbe =>
    show (a.ule b = true ↔ Cond.be.holds (ofAdd a b) = true) ↔ _
    rw [BitVec.ule_iff_toNat_le, be_ofAdd]
    rfl
  | l | nl =>
    show (a.slt b = true ↔ Cond.l.holds (ofAdd a b) = true) ↔ _
    rw [BitVec.slt_iff_toInt_lt, l_ofAdd hw]
    rfl
  | le | nle =>
    show (a.sle b = true ↔ Cond.le.holds (ofAdd a b) = true) ↔ _
    rw [BitVec.sle_iff_toInt_le, le_ofAdd hw]
    rfl
  | z | nz => exact iff_of_true Iff.rfl trivial

/-- After a logical instruction carry and overflow are clear, and the comparison of the
operands must come to the same. -/
theorem builtCond_logic_iff (k : Cond) (a b r : BitVec w) :
    builtCond k a b r = k.holds (ofLogic r) ↔ FlagSetter.LogicAgrees a b r k.base := by
  rw [builtCond_eq_iff]
  cases k with
  | b | nb =>
    -- no bitwise operation sets the carry
    show (a.ult b = true ↔ false = true) ↔ b.toNat ≤ a.toNat
    rw [BitVec.ult_iff_toNat_lt, iff_false_right Bool.false_ne_true]
    omega
  | be | nbe =>
    show (a.ule b = true ↔ Cond.be.holds (ofLogic r) = true) ↔ _
    rw [BitVec.ule_iff_toNat_le, be_ofLogic]
    rfl
  | l | nl =>
    show (a.slt b = true ↔ Cond.l.holds (ofLogic r) = true) ↔ _
    rw [BitVec.slt_iff_toInt_lt, l_ofLogic]
    rfl
  | le | nle =>
    show (a.sle b = true ↔ Cond.le.holds (ofLogic r) = true) ↔ _
    rw [BitVec.sle_iff_toInt_le, le_ofLogic]
    rfl
  | z | nz => exact iff_of_true Iff.rfl trivial

/-- The expression of two operands, translated. -/
theorem z3_binExpr {k : BinKind} {op : BinOp} {e1 e2 : Expr} {t1 t2 : Term (.bv w)}
    (hk : z3HandleBinKind k ⟨.bv w, t1⟩ ⟨.bv w, t2⟩
      = z3Call (SomeTerm.bin op ⟨.bv w, t1⟩ ⟨.bv w, t2⟩))
    (h1 : z3HandlingExprPtr e1 = .ok ⟨.bv w, t1⟩) (h2 : z3HandlingExprPtr e2 = .ok ⟨.bv w, t2⟩) :
    z3HandlingExprPtr (Expr.binExpr k e1 e2) = .ok ⟨.bv w, .bin op t1 t2⟩ := by
  simp only [Expr.binExpr, z3HandlingExprPtr, h1, h2, bind, Except.bind, hk, SomeTerm.bin,
    dite_true]
  rfl

/-! ### Operands of two widths -/

section Widths

variable {e1 e2 : Expr} {t1 : Term (.bv w)} {t2 : Term (.bv w')}

/-- A node of two children whose widths differ has no term. -/
theorem z3_bin_widths {k : BinKind} {size : Nat}
    (hk : z3HandleBinKind k ⟨.bv w, t1⟩ ⟨.bv w', t2⟩ = .error .z3Exception)
    (h1 : z3HandlingExprPtr e1 = .ok ⟨.bv w, t1⟩) (h2 : z3HandlingExprPtr e2 = .ok ⟨.bv w', t2⟩) :
    z3HandlingExprPtr (.bin k e1 e2 size) = .error .z3Exception := by
  simp only [z3HandlingExprPtr, h1, h2, bind, Except.bind, hk]

/-- Nor is their comparison true or false. -/
theorem z3_compare_widths (hne : w' ≠ w) (k : BinKind) (op : CmpOp) {size : Nat}
    (hk : ∀ x y, z3HandleBinKind k x y = z3Call (SomeTerm.cmp op x y))
    (h1 : z3HandlingExprPtr e1 = .ok ⟨.bv w, t1⟩) (h2 : z3HandlingExprPtr e2 = .ok ⟨.bv w', t2⟩) :
    exprTruth ρ (.bin k e1 e2 size) = none := by
  have herr : z3HandleBinKind k ⟨.bv w, t1⟩ ⟨.bv w', t2⟩ = .error .z3Exception := by
    rw [hk, SomeTerm.cmp, dif_neg hne]
    rfl
  rw [exprTruth, z3_bin_widths herr h1 h2]

/-- Nor is that of such a node with zero. -/
theorem z3_zero_error (k : UryKind) (hk : k = .equal ∨ k = .distinct) {size : Nat} {e : Expr}
    (he : z3HandlingExprPtr e = .error .z3Exception) : exprTruth ρ (.ury k e size) = none := by
  have herr : z3HandlingExprPtr (.ury k e size) = .error .z3Exception := by
    rcases hk with rfl | rfl
    · simp only [z3HandlingExprPtr, he, bind, Except.bind]
    · simp only [z3HandlingExprPtr, he, bind, Except.bind]
  rw [exprTruth, herr]

/-- What is built from two operands of different widths is no condition, not even one that
asks for zero. -/
theorem exprTruth_getCondition_widths {mgr : EFlagsManager} {id : EntryID} {c : CondCase}
    {k : Cond} {kind : BinKind} (hcase : switchCase id = some c) (hk : c.cond = some k)
    (hne : w' ≠ w)
    (hkind : z3HandleBinKind kind ⟨.bv w, t1⟩ ⟨.bv w', t2⟩ = .error .z3Exception)
    (h1 : z3HandlingExprPtr e1 = .ok ⟨.bv w, t1⟩) (h2 : z3HandlingExprPtr e2 = .ok ⟨.bv w', t2⟩)
    (hlast : mgr.lastExpr = Expr.binExpr kind e1 e2) :
    (mgr.getCondition id).bind (exprTruth ρ) = none := by
  have hnode : z3HandlingExprPtr (Expr.binExpr kind e1 e2) = .error .z3Exception :=
    z3_bin_widths hkind h1 h2
  rw [getCondition_of_lastExpr hcase hlast (by simp [Expr.binExpr])]
  -- the labels differ in the comparison only
  cases c with
  | nb => exact z3_compare_widths hne .uge .uge (fun _ _ => rfl) h1 h2
  | nbe => exact z3_compare_widths hne .ugt .ugt (fun _ _ => rfl) h1 h2
  | be => exact z3_compare_widths hne .ule .ule (fun _ _ => rfl) h1 h2
  | b => exact z3_compare_widths hne .ult .ult (fun _ _ => rfl) h1 h2
  | ge => exact z3_compare_widths hne .sge .sge (fun _ _ => rfl) h1 h2
  | g => exact z3_compare_widths hne .sgt .sgt (fun _ _ => rfl) h1 h2
  | le => exact z3_compare_widths hne .sle .sle (fun _ _ => rfl) h1 h2
  | l => exact z3_compare_widths hne .slt .slt (fun _ _ => rfl) h1 h2
  | e => exact z3_zero_error .equal (Or.inl rfl) hnode
  | ne => exact z3_zero_error .distinct (Or.inr rfl) hnode
  | ns | s | no | o => exact absurd hk (by simp [CondCase.cond])

end Widths

/-! ### One operand -/

/-- A node with one operand has no two children to compare. -/
theorem exprTruth_getCondition_neg {mgr : EFlagsManager} {id : EntryID} {c : CondCase} {k : Cond}
    {e : Expr} {t : Term (.bv w)} (hcase : switchCase id = some c) (hk : c.cond = some k)
    (he : z3HandlingExprPtr e = .ok ⟨.bv w, t⟩) (hlast : mgr.lastExpr = Expr.uryExpr .neg e) :
    (mgr.getCondition id).bind (exprTruth ρ) = some (k.holds (ofSub 0#w (t.eval ρ))) ↔
      k.base = .z := by
  have hneg : z3HandlingExprPtr (Expr.uryExpr .neg e) = .ok ⟨.bv w, .un .neg t⟩ := by
    simp only [Expr.uryExpr, z3HandlingExprPtr, he, bind, Except.bind, z3HandleNeg, SomeTerm.un]
    rfl
  have hzf : (ofSub 0#w (t.eval ρ)).zf = (-t.eval ρ == 0#w) := by
    show (0#w - t.eval ρ == 0#w) = _
    rw [BitVec.zero_sub]
  rw [getCondition_of_lastExpr hcase hlast (by simp [Expr.uryExpr])]
  -- A negation has one child, so only the zero conditions have what they need.
  cases c with
  | e =>
    obtain rfl := Option.some.inj hk
    refine iff_of_true ?_ rfl
    show exprTruth ρ (.ury .equal (Expr.uryExpr .neg e) _) = some (ofSub 0#w (t.eval ρ)).zf
    rw [z3_equal hneg, hzf]
    rfl
  | ne =>
    obtain rfl := Option.some.inj hk
    refine iff_of_true ?_ rfl
    show exprTruth ρ (.ury .distinct (Expr.uryExpr .neg e) _) = some !(ofSub 0#w (t.eval ρ)).zf
    rw [z3_distinct hneg, hzf]
    rfl
  | nb | nbe | be | b | ge | g | le | l =>
    obtain rfl := Option.some.inj hk
    refine iff_of_false ?_ (by simp [Cond.base])
    show ¬ (none : Option Bool) = some _
    exact fun h => absurd h (by simp)
  | ns | s | no | o => exact absurd hk (by simp [CondCase.cond])

/-! ## The condition after an instruction -/

/-- The saved node of two operands: its condition is built as the comparison of the two when
they have one width, and not at all otherwise. -/
theorem condition_after_binary {a : BitVec w} {b : BitVec w'} {vm vm' : VMState} {I : Instruction}
    {o1 o2 : OprndInfo} {s : FlagSetter} {mgr : EFlagsManager} {id : EntryID} {c : CondCase}
    {k : Cond} {kind : BinKind} {op : BinOp} (hw : 0 < w) (hw' : 0 < w')
    (hs : flagSetter I.id = some s) (hkind : s.kind = some kind)
    (hz3 : ∀ x y : SomeTerm, x.1 ≠ .bool → z3HandleBinKind kind x y = z3Call (SomeTerm.bin op x y))
    (h1 : o1.Evaluates ρ w a) (h2 : o2.Evaluates ρ w' b)
    (hrun : process I vm [o1, o2] = some vm') (hsaved : mgr.lastExpr = vm'.eflagsMgr.lastExpr)
    (hcase : switchCase id = some c) (hk : c.cond = some k) :
    (mgr.getCondition id).bind (exprTruth ρ)
      = if w' = w then some (builtCond k a (b.signExtend w) (op.eval a (b.signExtend w)))
        else none := by
  obtain ⟨e1, e2, t1, t2, hlast, ht1, ht2, rfl, rfl⟩ :=
    operate_evaluates hw hw' h1 h2 (process_lastExpr hs hkind hrun)
  split
  · rename_i heq
    subst heq
    rw [BitVec.signExtend_eq]
    exact exprTruth_getCondition hcase hk ht1 ht2
      (z3_binExpr (hz3 ⟨.bv w', t1⟩ ⟨.bv w', t2⟩ (by simp)) ht1 ht2) (hsaved.trans hlast)
  · rename_i hne
    refine exprTruth_getCondition_widths hcase hk hne ?_ ht1 ht2 (hsaved.trans hlast)
    rw [hz3 _ _ (by simp), SomeTerm.bin, dif_neg hne]
    rfl

/-- After `add`, `and`, `test`, `or`, `xor` or `neg` a later condition is that of the flags
exactly when the decoder gives the two operands one width, if there are two, and the
operands agree with the condition. The flags are those of the second operand extended to the
width of the instruction. The conditions are built from the two operands of the last
expression, as behind a comparison. That is right for the result's zero test, and for the
others only where comparing the operands comes to the same. -/
theorem condition_after_iff {a : BitVec w} {b : BitVec w'} {vm vm' : VMState} {I : Instruction}
    {vecOI : List OprndInfo} {s : FlagSetter} {mgr : EFlagsManager} {id : EntryID} {c : CondCase}
    {k : Cond} (hw : 0 < w) (hw' : 0 < w') (hs : flagSetter I.id = some s)
    (hops : s.Operands ρ vecOI a b) (hrun : process I vm vecOI = some vm')
    (hsaved : mgr.lastExpr = vm'.eflagsMgr.lastExpr) (hcase : switchCase id = some c)
    (hk : c.cond = some k) :
    (mgr.getCondition id).bind (exprTruth ρ) = some (k.holds (s.flags a (b.signExtend w))) ↔
      (s = .neg ∨ w' = w) ∧ s.Agrees k a (b.signExtend w) := by
  -- the two-operand instructions differ in their node and in their flags only
  have hbin : ∀ (kind : BinKind) (op : BinOp), s ≠ .neg → s.kind = some kind →
      (∀ x y : SomeTerm, x.1 ≠ .bool →
        z3HandleBinKind kind x y = z3Call (SomeTerm.bin op x y)) →
      (∃ o1 o2, vecOI = [o1, o2] ∧ o1.Evaluates ρ w a ∧ o2.Evaluates ρ w' b) →
      (builtCond k a (b.signExtend w) (op.eval a (b.signExtend w))
        = k.holds (s.flags a (b.signExtend w)) ↔ s.Agrees k a (b.signExtend w)) →
      ((mgr.getCondition id).bind (exprTruth ρ) = some (k.holds (s.flags a (b.signExtend w))) ↔
        (s = .neg ∨ w' = w) ∧ s.Agrees k a (b.signExtend w)) := by
    rintro kind op hneg hkind hz3 ⟨o1, o2, rfl, h1, h2⟩ hbuilt
    rw [condition_after_binary hw hw' hs hkind hz3 h1 h2 hrun hsaved hcase hk]
    split
    · rename_i heq
      rw [Option.some_inj, hbuilt]
      exact (and_iff_right (Or.inr heq)).symm
    · rename_i hne
      exact iff_of_false (by simp) fun h => h.1.elim hneg hne
  -- the bitwise operations serve both sorts
  have hbitwise : ∀ (op : BinOp) (bop : BoolOp) (x y : SomeTerm), x.1 ≠ .bool →
      z3Call (SomeTerm.bitwise op bop x y) = z3Call (SomeTerm.bin op x y) := by
    rintro op bop ⟨_ | v, x⟩ ⟨_ | v', y⟩ hx
    · exact absurd rfl hx
    · exact absurd rfl hx
    · rfl
    · rfl
  -- Each instruction brings its node and the table of its flags.
  cases s with
  | add =>
    exact hbin .add .add (by decide) rfl (fun _ _ _ => rfl) hops (builtCond_add_iff hw k a _)
  | and =>
    exact hbin .and .and (by decide) rfl (hbitwise .and .and) hops (builtCond_logic_iff k a _ _)
  | or =>
    exact hbin .or .or (by decide) rfl (hbitwise .or .or) hops (builtCond_logic_iff k a _ _)
  | xor =>
    exact hbin .xor .xor (by decide) rfl (hbitwise .xor .xor) hops (builtCond_logic_iff k a _ _)
  | neg =>
    obtain ⟨o, rfl, h1⟩ := hops
    have hid : I.id = .neg := by
      cases hid : I.id <;> simp [hid, flagSetter] at hs ⊢
    have hproc : process I vm [o] = processNeg vm [o] := by rw [process, hid]
    obtain ⟨e, hsym, he, hlast⟩ := processNeg_lastExpr (hproc.symm.trans hrun)
    obtain ⟨e', t, he', ht, rfl⟩ := h1.sym hsym
    obtain rfl : e = e' := Option.some.inj (he.symm.trans he')
    rw [and_iff_right (Or.inl rfl)]
    exact exprTruth_getCondition_neg hcase hk ht (hsaved.trans hlast)

/-! ## `test` with a symbol in `rax` -/

/-- A register with a symbol of eight bytes, as it is parsed. -/
def symbolRegister (i : PtIdx) (name : String) : OprndInfo :=
  ⟨.regSym (some ⟨i, .full⟩) (Expr.udefExpr (some ⟨0, name, 4096, 8, false, true, 1⟩)), .rd, 8,
    true, false, 0, []⟩

/-- The operands of `test rax, rbx`. -/
def testedOperands : List OprndInfo := [symbolRegister .rax "A", symbolRegister .rbx "B"]

/-- `test rax, rbx`. -/
def testInstruction : Instruction :=
  ⟨.test, [⟨.register ⟨.rax, .full⟩ 8, none, true, false⟩,
    ⟨.register ⟨.rbx, .full⟩ 8, none, true, false⟩], []⟩

/-- The operands of `test rax, 3`. The immediate has four bytes. -/
def testedImmediate : List OprndInfo :=
  [symbolRegister .rax "A", ⟨.imm 3, .rd, 4, false, false, 0, []⟩]

/-- `test rax, 3`, whose literal is encoded in four bytes. -/
def testImmediate : Instruction :=
  ⟨.test, [⟨.register ⟨.rax, .full⟩ 8, none, true, false⟩, ⟨.immediate 3 4, none, true, false⟩], []⟩

/-- The values of the two symbols. -/
def testedValues (x y : Nat) : Valuation := fun name w =>
  BitVec.ofNat w (if name = "A" then x else y)

/-- The symbol of a register stands for its value under the valuation. -/
theorem symbolRegister_evaluates (i : PtIdx) (name : String) (ρ : Valuation) :
    (symbolRegister i name).Evaluates ρ 64 (ρ name 64) where
  sym _ := ⟨_, .const name 64, rfl, rfl, rfl⟩
  con h := absurd h (by simp [symbolRegister])

/-- The operands of the first are the symbols `A` and `B`. -/
theorem testedOperands_evaluate (ρ : Valuation) :
    FlagSetter.and.Operands ρ testedOperands (ρ "A" 64) (ρ "B" 64) :=
  ⟨_, _, rfl, symbolRegister_evaluates .rax "A" ρ, symbolRegister_evaluates .rbx "B" ρ⟩

/-- Those of the second are the symbol `A` and a literal of another width. -/
theorem testedImmediate_evaluate (ρ : Valuation) :
    FlagSetter.and.Operands ρ testedImmediate (ρ "A" 64) 3#32 :=
  ⟨_, _, rfl, symbolRegister_evaluates .rax "A" ρ, by simp, fun _ => ⟨3, rfl, rfl, rfl⟩⟩

/-- After `test rax, rbx` of 7 and 5 `jl` is right: 7 is not less than 5, and the conjunction
of the two is not less than zero. After `test rax, 3`, whose immediate has four bytes, not
even `jz` is. -/
theorem condition_after_test_jl : (∃ vm', process testInstruction (VMState.new (fun _ => 0)
      fun _ => 0) testedOperands = some vm' ∧
    (vm'.eflagsMgr.getCondition .jl).bind (exprTruth (testedValues 7 5))
      = some (Cond.l.holds (FlagSetter.and.flags 7#64 5#64))) ∧
    ∃ vm', process testImmediate (VMState.new (fun _ => 0) fun _ => 0) testedImmediate
        = some vm' ∧
      (vm'.eflagsMgr.getCondition .jz).bind (exprTruth (testedValues 7 5))
        ≠ some (Cond.z.holds (FlagSetter.and.flags 7#64 3#64)) := by
  refine ⟨⟨_, rfl, ?_⟩, _, rfl, ?_⟩
  · refine (condition_after_iff (I := testInstruction) (by decide) (by decide) rfl
      (testedOperands_evaluate (testedValues 7 5)) rfl rfl rfl rfl).2 ⟨Or.inr rfl, ?_⟩
    show (7#64).toInt < (5#64).toInt ↔ (7#64 &&& 5#64).toInt < 0
    decide
  · intro h
    have hwidths := ((condition_after_iff (I := testImmediate) (by decide) (by decide) rfl
      (testedImmediate_evaluate (testedValues 7 5)) rfl rfl rfl rfl).1 h).1
    exact absurd hwidths (by decide)

/-- With 1 and 3 in the symbols of `test rax, rbx`, `jb` is wrong: `test` clears the carry.
The builder compares the operands instead, and 1 is less than 3. -/
theorem not_condition_after_test_jb : ∃ vm', process testInstruction (VMState.new (fun _ => 0)
      fun _ => 0) testedOperands = some vm' ∧
    (vm'.eflagsMgr.getCondition .jb).bind (exprTruth (testedValues 1 3))
      ≠ some (Cond.b.holds (FlagSetter.and.flags 1#64 3#64)) := by
  refine ⟨_, rfl, ?_⟩
  show (some ((1#64).ult 3#64) : Option Bool) ≠ some false
  decide

end KRover
