import KRover.Proofs.CondBuild
import KRover.Proofs.OprndWrite

/-! # The shifts

Of the three handlers one reads the count where it is, and makes a literal of
it as wide as the count operand; the other two read it from the operand that is
shifted, which is symbolic, and stop. The count is not masked either
(`shiftDone_iff`).
-/

set_option autoImplicit false

namespace KRover

open BvTerm SymExecutor

/-- The bits of a count that the processor reads when it shifts `n` bytes. -/
def shiftCount (n : Nat) (c : BitVec 64) : Nat := c.toNat % if n = 8 then 64 else 32

/-- The instructions that shift. -/
def shiftIds : List EntryID := [.shl_sal, .shr, .sar]

/-- What they make of a value and a count that is masked already. -/
def shifted {w : Nat} (id : EntryID) (x : BitVec w) (count : Nat) : BitVec w :=
  match id with
  | .shr => x >>> count
  | .sar => x.sshiftRight count
  | _ => x <<< count

/-- The instruction was run, and its first operand, which had the value `x`, is
read as an expression of the shifted value. The node holds a value and a count
of one width. -/
def ShiftDone (I : Instruction) (vm : VMState) (o1 o2 : OprndInfo) (c : BitVec 64) {w : Nat}
    (x : Valuation → BitVec w) : Prop :=
  ∃ vm', process I vm [o1, o2] = some vm' ∧
    (∃ k e1 e2 t1 t2 size v, vm'.readOprnd o1 = some (true, .bin k e1 e2 size, v) ∧
      z3HandlingExprPtr e1 = .ok ⟨.bv w, t1⟩ ∧ z3HandlingExprPtr e2 = .ok ⟨.bv w, t2⟩) ∧
    vm'.ReadsAs o1 w (fun _ => True) fun ρ => shifted I.id (x ρ) (shiftCount o1.size c)

/-! ## Shifting left -/

/-- A shift to the left loses every bit exactly when the lower ones are zero. -/
theorem shiftLeft_eq_zero_iff {w : Nat} (x : BitVec w) (k : Nat) :
    x <<< k = 0#w ↔ 2 ^ (w - k) ∣ x.toNat := by
  have hval : (x <<< k).toNat = x.toNat * 2 ^ k % 2 ^ w := by
    rw [BitVec.toNat_shiftLeft, Nat.shiftLeft_eq]
  have hdvd : x <<< k = 0#w ↔ 2 ^ w ∣ x.toNat * 2 ^ k := by
    rw [← BitVec.toNat_inj, hval, BitVec.toNat_zero]
    exact (Nat.dvd_iff_mod_eq_zero ..).symm
  rw [hdvd]
  by_cases hk : k ≤ w
  · have hpow : 2 ^ w = 2 ^ (w - k) * 2 ^ k := by
      rw [← Nat.pow_add, Nat.sub_add_cancel hk]
    rw [hpow]
    exact Nat.mul_dvd_mul_iff_right (Nat.two_pow_pos k)
  · have hzero : w - k = 0 := by omega
    rw [hzero, Nat.pow_zero]
    exact iff_of_true (Dvd.dvd.mul_left (Nat.pow_dvd_pow 2 (by omega)) _) (Nat.one_dvd _)

/-- A count that the solver takes as it is, beside the count that the processor
masks. -/
theorem shiftLeft_count_iff {n w : Nat} (hn : n = 1 ∨ n = 2 ∨ n = 4 ∨ n = 8) (hw : w = n * 8)
    (x : BitVec w) (c : BitVec 64) :
    x <<< (c.toNat % 2 ^ w) = x <<< shiftCount n c ↔
      c.toNat % 2 ^ w < (if n = 8 then 64 else 32) ∨ 2 ^ (w - shiftCount n c) ∣ x.toNat := by
  obtain ⟨m, hm, hdvd, hle⟩ :
      ∃ m, m = (if n = 8 then 64 else 32) ∧ m ∣ 2 ^ w ∧ w ≤ m := by
    subst hw
    rcases hn with rfl | rfl | rfl | rfl <;> exact ⟨_, rfl, by decide, by decide⟩
  rw [shiftCount, ← hm]
  by_cases hlt : c.toNat % 2 ^ w < m
  · have hsame : c.toNat % 2 ^ w = c.toNat % m := by
      rw [← Nat.mod_mod_of_dvd c.toNat hdvd, Nat.mod_eq_of_lt hlt]
    rw [hsame]
    exact iff_of_true rfl (Or.inl (hsame ▸ hlt))
  · -- so large a count loses every bit
    have hlost : x <<< (c.toNat % 2 ^ w) = 0#w := by
      rw [shiftLeft_eq_zero_iff, Nat.sub_eq_zero_of_le (by omega), Nat.pow_zero]
      exact Nat.one_dvd _
    rw [hlost, eq_comm, shiftLeft_eq_zero_iff]
    exact (or_iff_right hlt).symm

/-! ## The handlers -/

variable {vm : VMState} {I : Instruction} {o1 o2 : OprndInfo} {e : Expr} {c : BitVec 64}

/-- The two handlers that read the count from a symbolic operand stop. -/
theorem process_shift_right (hid : I.id = .shr ∨ I.id = .sar) (hsym : o1.symb = true) :
    process I vm [o1, o2] = none := by
  have hcon : o1.getConValue = none := by
    rw [OprndInfo.getConValue, hsym]
    rfl
  have hshift : ∀ k id, processShift k id (fun oisrc1 _ => oisrc1) vm [o1, o2] = none := by
    intro k id
    show (if (o1.symb && !o2.symb) = true then _ else none) = none
    split
    · cases o1.getSymValue with
      | none => rfl
      | some e1 =>
        rw [hcon]
        rfl
    · rfl
  rcases hid with hid | hid
  · simp only [process, hid]
    exact hshift .lShr .shr
  · simp only [process, hid]
    exact hshift .aShr .sar

/-- The third one puts the node into the operand, as wide as the count says. -/
theorem exists_process_shl (hid : I.id = .shl_sal) (h : VMShape vm) (hplace : o1.Place)
    (hsym : o1.symb = true) (hval : o1.getSymValue = some e) (hcon : o2.symb = false)
    (hc : o2.getConValue = some c) :
    ∃ vm' v, process I vm [o1, o2] = some vm' ∧
      vm'.readOprnd o1
        = some (true, Expr.binExpr .shl e (Expr.constExpr c o2.size), v) := by
  obtain ⟨vm₁, v, hset, h₁, hread⟩ :=
    h.exists_setSymValue hplace (Expr.binExpr .shl e (Expr.constExpr c o2.size))
  obtain ⟨vm', hsave, hsame, -, -⟩ := saveFlagChanging_spec vm₁
    (show isFlagChangingInstr .shl_sal = true by decide)
    (Expr.binExpr .shl e (Expr.constExpr c o2.size))
  have hrun : process I vm [o1, o2] = some vm' := by
    simp only [process, hid]
    show (if (o1.symb && !o2.symb) = true then _ else none) = some vm'
    simp only [hsym, hcon, Bool.not_false, Bool.and_true, if_true, hval, hc, hset,
      Option.bind_eq_bind, Option.bind_some]
    exact hsave
  exact ⟨vm', v, hrun, (hsame.readOprnd h₁ hplace).trans hread⟩

/-- A literal of another width than the value makes no node. -/
theorem width_of_shl {w size : Nat} {t : Term (.bv w)} (ht : z3HandlingExprPtr e = .ok ⟨.bv w, t⟩)
    {t' : Term (.bv w)}
    (hnode : z3HandlingExprPtr (Expr.binExpr .shl e (Expr.constExpr c size)) = .ok ⟨.bv w, t'⟩) :
    w = size * 8 := by
  rw [Expr.binExpr, z3HandlingExprPtr, ht] at hnode
  have hnode : (z3HandlingExprPtr (Expr.constExpr c size) >>=
      fun y => z3HandleShl ⟨.bv w, t⟩ y) = .ok ⟨.bv w, t'⟩ := hnode
  rw [Expr.constExpr, z3HandlingExprPtr, z3HandleConst, SomeTerm.lit] at hnode
  split at hnode
  · exact absurd hnode (by simp [z3Call, bind, Except.bind])
  · have hnode : z3Call (SomeTerm.bin .shl ⟨.bv w, t⟩
        ⟨.bv (size * 8), .lit (BitVec.ofNat (size * 8) c.toNat)⟩) = .ok ⟨.bv w, t'⟩ := hnode
    rw [SomeTerm.bin] at hnode
    split at hnode
    · rename_i hw
      exact hw.symm
    · exact absurd hnode (by simp [z3Call])

/-- A symbolic operand is shifted right exactly when the shift is one to the left, its count
operand is as wide as the value, and the count is one that the processor does not mask, or
it shifts out every bit either way. Both shifts to the right read their count from the
operand that is shifted, which is symbolic here and has no constant. The one to the left
takes a literal of the count's own size. -/
theorem shiftDone_iff {w : Nat} {t : Term (.bv w)} (hid : I.id ∈ shiftIds) (h : VMShape vm)
    (hsize : o1.size = 1 ∨ o1.size = 2 ∨ o1.size = 4 ∨ o1.size = 8) (hw : w = o1.size * 8)
    (hplace : o1.Place) (hsym : o1.symb = true) (hval : o1.getSymValue = some e)
    (ht : z3HandlingExprPtr e = .ok ⟨.bv w, t⟩) (hcon : o2.symb = false)
    (hc : o2.getConValue = some c) :
    ShiftDone I vm o1 o2 c (fun ρ => t.eval ρ) ↔
      I.id = .shl_sal ∧ o2.size = o1.size ∧
        (c.toNat % 2 ^ w < (if o1.size = 8 then 64 else 32) ∨
          ∀ ρ, 2 ^ (w - shiftCount o1.size c) ∣ (t.eval ρ).toNat) := by
  by_cases hshl : I.id = .shl_sal
  · obtain ⟨vm', v, hrun, hread⟩ := exists_process_shl hshl h hplace hsym hval hcon hc
    have hwpos : 0 < w := by omega
    -- the node, when its two operands are of one width
    have hnode : w = o2.size * 8 →
        z3HandlingExprPtr (Expr.binExpr .shl e (Expr.constExpr c o2.size))
          = .ok ⟨.bv w, .bin .shl t (.lit (BitVec.ofNat w c.toNat))⟩ :=
      fun hw2 => z3_binExpr rfl ht (z3_constExpr hwpos hw2)
    have hcount : ∀ ρ, (Term.bin .shl t (.lit (BitVec.ofNat w c.toNat))).eval ρ
          = shifted I.id (t.eval ρ) (shiftCount o1.size c) ↔
        c.toNat % 2 ^ w < (if o1.size = 8 then 64 else 32) ∨
          2 ^ (w - shiftCount o1.size c) ∣ (t.eval ρ).toNat := by
      intro ρ
      rw [← shiftLeft_count_iff hsize hw, hshl]
      show t.eval ρ <<< BitVec.ofNat w c.toNat = t.eval ρ <<< shiftCount o1.size c ↔ _
      rw [BitVec.shiftLeft_eq', BitVec.toNat_ofNat]
    constructor
    · rintro ⟨vm'', hrun', -, symb, e', v', hread', hvalue, -⟩
      obtain rfl : vm' = vm'' := Option.some.inj (hrun.symm.trans hrun')
      have hparts := Option.some.inj (hread.symm.trans hread')
      obtain ⟨t', ht', hval'⟩ := hvalue (Prod.mk.inj hparts).1.symm
      rw [← (Prod.mk.inj (Prod.mk.inj hparts).2).1] at ht'
      have hw2 := width_of_shl ht ht'
      refine ⟨hshl, by omega, ?_⟩
      obtain rfl : .bin .shl t (.lit (BitVec.ofNat w c.toNat)) = t' := by
        have hterm := Except.ok.inj ((hnode hw2).symm.trans ht')
        exact eq_of_heq (Sigma.mk.inj hterm).2
      by_contra hno
      rw [not_or, not_forall] at hno
      obtain ⟨hlarge, ρ, hρ⟩ := hno
      rcases (hcount ρ).1 (hval' ρ trivial) with hlt | hdvd
      · exact hlarge hlt
      · exact hρ hdvd
    · rintro ⟨-, hsize2, hfits⟩
      have hw2 : w = o2.size * 8 := by omega
      refine ⟨vm', hrun, ⟨_, _, _, t, _, _, v, hread, ht, z3_constExpr hwpos hw2⟩,
        true, _, v, hread, fun _ => ⟨_, hnode hw2, fun ρ _ => ?_⟩, fun hno => absurd hno (by simp)⟩
      exact (hcount ρ).2 (hfits.imp_right fun hall => hall ρ)
  · refine iff_of_false ?_ fun hright => hshl hright.1
    rintro ⟨vm', hrun, -⟩
    have hid : I.id = .shr ∨ I.id = .sar := by
      have hmem : I.id = .shl_sal ∨ I.id = .shr ∨ I.id = .sar := by simpa [shiftIds] using hid
      exact hmem.resolve_left hshl
    rw [process_shift_right hid hsym] at hrun
    exact absurd hrun (by simp)

/-- A part of `rax` that holds a symbol, and a count in a byte. -/
def shiftOperands (sub : SubIndex) (size : Nat) (count : BitVec 64) : OprndInfo × OprndInfo :=
  (⟨.regSym (some ⟨.rax, sub⟩) (symbolOf size), .rdwr, size, true, false, 0, []⟩,
    ⟨.imm count, .rd, 1, false, false, 0, []⟩)

/-- `shl al, 3`. The count operand has one byte, as the value has. -/
theorem shiftDone_shl_al : ShiftDone ⟨.shl_sal, [], []⟩ (VMState.new (fun _ => 0) fun _ => 0)
    (shiftOperands .l 1 3).1 (shiftOperands .l 1 3).2 3 fun ρ => ρ "S" 8 := by
  have hplace : (shiftOperands .l 1 3).1.Place := .register ⟨.rax, .l⟩ rfl rfl
  have ht : z3HandlingExprPtr (symbolOf 1) = .ok ⟨.bv 8, .const "S" 8⟩ := rfl
  exact (shiftDone_iff (t := .const "S" 8) (by decide) (vmShape_new _ _) (Or.inl rfl) rfl hplace
    rfl rfl ht rfl rfl).2 ⟨rfl, rfl, Or.inl (by decide)⟩

/-- `shr rax, 1`. -/
theorem not_shiftDone_shr_rax : ¬ ShiftDone ⟨.shr, [], []⟩ (VMState.new (fun _ => 0) fun _ => 0)
    (shiftOperands .full 8 1).1 (shiftOperands .full 8 1).2 1 fun ρ => ρ "S" 64 := by
  rintro ⟨vm', hrun, -⟩
  rw [process_shift_right (Or.inl rfl) rfl] at hrun
  exact absurd hrun (by simp)

end KRover
