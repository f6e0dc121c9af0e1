import KRover.Lib.WideProduct
import KRover.Proofs.CondBuild
import KRover.Proofs.OprndWrite

/-! # Division and multiplication of the accumulators

The two handlers that leave a result in the pair `d:a`. `process_idiv` divides
a term of twice the width by one of the width, which the solver takes for none
of its terms (`not_idivDone`). `process_mul` is right on concrete operands, a
signed product that does not fit into 64 bits apart; on a symbolic one it cuts
the upper half out of a product that has none (`mulDone_iff`).
-/

set_option autoImplicit false

namespace KRover

open BvTerm SymExecutor WideProduct

/-- The operands that name the two accumulators of `n` bytes. -/
structure AccumulatorPair (oD oA : OprndInfo) (n : Nat) : Prop where
  sizes : oD.size = n ∧ oA.size = n
  upper : oD.regIndex = some ⟨.rdx, accumulator n⟩
  lower : oA.regIndex = some ⟨.rax, accumulator n⟩

/-- The processor raises a divide error: the divisor is zero, or the quotient is
too large for the register. -/
def idivFaults {w : Nat} (d a m : BitVec w) : Prop :=
  m = 0#w ∨ ¬ (-2 ^ (w - 1) ≤ (d ++ a).toInt.tdiv m.toInt ∧
    (d ++ a).toInt.tdiv m.toInt < 2 ^ (w - 1))

/-- The division was run, and where there is no divide error the accumulators
are read as the quotient and the remainder. -/
def IdivDone (I : Instruction) (vm : VMState) (oD oA oDivisor : OprndInfo) {w : Nat}
    (d a m : Valuation → BitVec w) : Prop :=
  ∃ vm', process I vm [oD, oA, oDivisor] = some vm' ∧
    (vm'.ReadsAs oA w (fun ρ => ¬ idivFaults (d ρ) (a ρ) (m ρ))
      fun ρ => BitVec.ofInt w ((d ρ ++ a ρ).toInt.tdiv (m ρ).toInt)) ∧
    vm'.ReadsAs oD w (fun ρ => ¬ idivFaults (d ρ) (a ρ) (m ρ))
      fun ρ => BitVec.ofInt w ((d ρ ++ a ρ).toInt.tmod (m ρ).toInt)

/-- The exact product, with sign or without. -/
def exactProduct {w : Nat} (id : EntryID) (x y : BitVec w) : BitVec (2 * w) :=
  if id = .mul then umul x y else smul x y

/-- The multiplication was run, and the accumulators are read as the halves of
the product. -/
def MulDone (I : Instruction) (vm : VMState) (oD oA oM : OprndInfo) {w : Nat}
    (x y : Valuation → BitVec w) : Prop :=
  ∃ vm', process I vm [oD, oA, oM] = some vm' ∧
    (vm'.ReadsAs oA w (fun _ => True) fun ρ => lowHalf (exactProduct I.id (x ρ) (y ρ))) ∧
    vm'.ReadsAs oD w (fun _ => True) fun ρ => highHalf (exactProduct I.id (x ρ) (y ρ))

/-! ## The operands -/

section Operands

variable {vm : VMState} {oD oA oi : OprndInfo} {n w : Nat}

/-- The expression that a handler makes of an operand. -/
theorem exists_operandExpr (hw : 0 < w) {x : Valuation → BitVec w}
    (h : ∀ ρ, oi.Evaluates ρ w (x ρ)) :
    ∃ e t, operandExpr oi = some e ∧ z3HandlingExprPtr e = .ok ⟨.bv w, t⟩ ∧
      ∀ ρ, t.eval ρ = x ρ := by
  cases hsymb : oi.symb with
  | true =>
    obtain ⟨e, t, he, ht, -⟩ := (h fun _ _ => 0).sym hsymb
    refine ⟨e, t, ?_, ht, fun ρ => ?_⟩
    · rw [operandExpr, hsymb, if_pos rfl]
      exact he
    · obtain ⟨e', t', he', ht', hval⟩ := (h ρ).sym hsymb
      obtain rfl : e = e' := Option.some.inj (he.symm.trans he')
      obtain rfl : t = t' := eq_of_heq (Sigma.mk.inj (Except.ok.inj (ht.symm.trans ht'))).2
      exact hval
  | false =>
    obtain ⟨v, hv, hsize, -⟩ := (h fun _ _ => 0).con hsymb
    refine ⟨Expr.constExpr v oi.size, .lit (BitVec.ofNat w v.toNat), ?_, z3_constExpr hw hsize,
      fun ρ => ?_⟩
    · rw [operandExpr, hsymb, hv]
      rfl
    · obtain ⟨v', hv', -, hval⟩ := (h ρ).con hsymb
      obtain rfl : v = v' := Option.some.inj (hv.symm.trans hv')
      exact hval.symm

namespace AccumulatorPair

/-- The engine knows both. -/
theorem encoded (hpair : AccumulatorPair oD oA n) (hn : n = 2 ∨ n = 4 ∨ n = 8) :
    dyinstEncoding ⟨.rdx, accumulator n⟩ = some oD.size ∧
      dyinstEncoding ⟨.rax, accumulator n⟩ = some oA.size := by
  rw [hpair.sizes.1, hpair.sizes.2]
  rcases hn with rfl | rfl | rfl <;> exact ⟨rfl, rfl⟩

/-- The lower one is written, then the upper one, and both are read back. -/
theorem exists_setSymValue (hpair : AccumulatorPair oD oA n) (hn : n = 2 ∨ n = 4 ∨ n = 8)
    (h : VMShape vm) (eA eD : Expr) :
    ∃ vm₁ vm' vA vD, oA.setSymValue vm eA = some vm₁ ∧ oD.setSymValue vm₁ eD = some vm' ∧
      vm'.readOprnd oA = some (true, eA, vA) ∧ vm'.readOprnd oD = some (true, eD, vD) := by
  obtain ⟨hd, ha⟩ := hpair.encoded hn
  obtain ⟨vm₁, vA, hset, h₁, hreadA, -⟩ := h.exists_setSymValue_register hpair.lower ha eA
  obtain ⟨vm', vD, hset', h', hreadD, hkept⟩ := h₁.exists_setSymValue_register hpair.upper hd eD
  have hsame :=
    (hkept .rax PtIdx.noConfusion).readOprnd (r := ⟨.rax, accumulator n⟩) h₁ h' hpair.lower ha
  exact ⟨vm₁, vm', vA, vD, hset, hset', hsame.trans hreadA, hreadD⟩

/-- So are two concrete values. -/
theorem exists_setConValue (hpair : AccumulatorPair oD oA n) (hn : n = 2 ∨ n = 4 ∨ n = 8)
    (h : VMShape vm) (vA vD : BitVec 64) :
    ∃ vm₁ vm' eA xA eD xD, oA.setConValue vm vA = some vm₁ ∧ oD.setConValue vm₁ vD = some vm' ∧
      (vm'.readOprnd oA = some (false, eA, xA) ∧ xA.setWidth (8 * n) = vA.setWidth (8 * n)) ∧
      vm'.readOprnd oD = some (false, eD, xD) ∧ xD.setWidth (8 * n) = vD.setWidth (8 * n) := by
  obtain ⟨hd, ha⟩ := hpair.encoded hn
  obtain ⟨hsizeD, hsizeA⟩ := hpair.sizes
  obtain ⟨vm₁, eA, xA, hset, h₁, hreadA, hlowA, -⟩ :=
    h.exists_setConValue_register hpair.lower ha (by omega) vA
  obtain ⟨vm', eD, xD, hset', h', hreadD, hlowD, hkept⟩ :=
    h₁.exists_setConValue_register hpair.upper hd (by omega) vD
  have hsame :=
    (hkept .rax PtIdx.noConfusion).readOprnd (r := ⟨.rax, accumulator n⟩) h₁ h' hpair.lower ha
  rw [hsizeA] at hlowA
  rw [hsizeD] at hlowD
  exact ⟨vm₁, vm', eA, xA, eD, xD, hset, hset', ⟨hsame.trans hreadA, hlowA⟩, hreadD, hlowD⟩

end AccumulatorPair

end Operands

/-! ## Division -/

section Idiv

variable {vm : VMState} {I : Instruction} {oD oA oM : OprndInfo} {n w : Nat}

/-- The solver makes no term of a quotient whose dividend is twice as wide as
the divisor. -/
theorem z3_sDiv_combine (hw : 0 < w) {eD eA eM : Expr} {tD tA tM : Term (.bv w)}
    (hD : z3HandlingExprPtr eD = .ok ⟨.bv w, tD⟩) (hA : z3HandlingExprPtr eA = .ok ⟨.bv w, tA⟩)
    (hM : z3HandlingExprPtr eM = .ok ⟨.bv w, tM⟩) (rsz lsz size size' : Nat) :
    z3HandlingExprPtr (.bin .sDiv (.combine eD eA rsz lsz size) eM size')
      = .error .z3Exception := by
  have hne : ¬ w = w + w := by omega
  simp only [z3HandlingExprPtr, hD, hA, hM, bind, Except.bind, z3HandleCombine, SomeTerm.concat,
    z3Call, z3HandleBinKind, z3HandleSDiv, SomeTerm.bin, hne, dite_false]

/-- What is left in the upper accumulator. -/
theorem exists_process_idiv (hid : I.id = .idiv) (h : VMShape vm) (hn : n = 2 ∨ n = 4 ∨ n = 8)
    (hw : w = 8 * n) (hpair : AccumulatorPair oD oA n) {d a m : Valuation → BitVec w}
    (hd : ∀ ρ, oD.Evaluates ρ w (d ρ)) (ha : ∀ ρ, oA.Evaluates ρ w (a ρ))
    (hm : ∀ ρ, oM.Evaluates ρ w (m ρ)) :
    ∃ vm' e v, process I vm [oD, oA, oM] = some vm' ∧ vm'.readOprnd oD = some (true, e, v) ∧
      z3HandlingExprPtr e = .error .z3Exception := by
  have hwpos : 0 < w := by omega
  obtain ⟨eD, tD, hopD, hzD, -⟩ := exists_operandExpr hwpos hd
  obtain ⟨eA, tA, hopA, hzA, -⟩ := exists_operandExpr hwpos ha
  obtain ⟨eM, tM, hopM, hzM, -⟩ := exists_operandExpr hwpos hm
  let eQ := Expr.bin .sDiv (.combine eD eA oD.size oA.size (oD.size + oA.size)) eM oM.size
  obtain ⟨vm₁, vm', vA, vD, hset, hset', -, hread⟩ := hpair.exists_setSymValue hn h eQ eQ
  have hrun : process I vm [oD, oA, oM] = some vm' := by
    simp only [process, hid]
    rw [processIdiv]
    simp only [List.getElem?_cons_zero, List.getElem?_cons_succ, Option.bind_eq_bind,
      Option.bind_some, hopD, hopA, hopM]
    rw [show oA.setSymValue vm _ = some vm₁ from hset]
    exact hset'
  exact ⟨vm', eQ, vD, hrun, hread, z3_sDiv_combine hwpos hzD hzA hzM _ _ _ _⟩

/-- No division leaves its remainder in the upper accumulator, whatever is symbolic: what is
written there translates to no term. The handler builds both results from operands of two
widths, and the width of the dividend is twice that of the divisor. The translation of such
a node throws. -/
theorem not_idivDone (hid : I.id = .idiv) (h : VMShape vm) (hn : n = 2 ∨ n = 4 ∨ n = 8)
    (hw : w = 8 * n) (hpair : AccumulatorPair oD oA n) {d a m : Valuation → BitVec w}
    (hd : ∀ ρ, oD.Evaluates ρ w (d ρ)) (ha : ∀ ρ, oA.Evaluates ρ w (a ρ))
    (hm : ∀ ρ, oM.Evaluates ρ w (m ρ)) : ¬ IdivDone I vm oD oA oM d a m := by
  obtain ⟨vm', e, v, hrun, hread, herr⟩ := exists_process_idiv hid h hn hw hpair hd ha hm
  rintro ⟨vm'', hrun', -, hupper⟩
  obtain rfl : vm' = vm'' := Option.some.inj (hrun.symm.trans hrun')
  exact not_readsAs hread herr _ _ hupper

/-- A register of eight bytes that holds a concrete value. -/
def concreteOprnd (i : PtIdx) (v : BitVec 64) : OprndInfo :=
  ⟨.regCon ⟨i, .full⟩ v, .rdwr, 8, false, false, 0, []⟩

/-- A register of eight bytes that holds a symbol. -/
def symbolicOprnd (i : PtIdx) : OprndInfo :=
  ⟨.regSym (some ⟨i, .full⟩) (symbolOf 8), .rdwr, 8, true, false, 0, []⟩

/-- A concrete operand has its value. -/
theorem concreteOprnd_evaluates (i : PtIdx) (v : BitVec 64) (ρ : Valuation) :
    (concreteOprnd i v).Evaluates ρ 64 v where
  sym := fun h => absurd h (by simp [concreteOprnd])
  con := fun _ => ⟨v, rfl, rfl, (BitVec.ofNat_toNat 64 v).symm ▸ (BitVec.setWidth_eq v).symm⟩

/-- A symbolic one that of its symbol. -/
theorem symbolicOprnd_evaluates (i : PtIdx) (ρ : Valuation) :
    (symbolicOprnd i).Evaluates ρ 64 (ρ "S" 64) where
  sym := fun _ => ⟨symbolOf 8, .const "S" 64, rfl, rfl, rfl⟩
  con := fun h => absurd h (by simp [symbolicOprnd])

/-- `idiv rbx` of 7 by 2. Two concrete operands go the same way as literals. -/
theorem not_idivDone_concrete : ¬ IdivDone ⟨.idiv, [], []⟩ (VMState.new (fun _ => 0) fun _ => 0)
    (concreteOprnd .rdx 0) (concreteOprnd .rax 7) (concreteOprnd .rbx 2) (fun _ => 0#64)
    (fun _ => 7#64) fun _ => 2#64 :=
  not_idivDone rfl (vmShape_new _ _) (Or.inr (Or.inr rfl)) rfl ⟨⟨rfl, rfl⟩, rfl, rfl⟩
    (concreteOprnd_evaluates _ _) (concreteOprnd_evaluates _ _) (concreteOprnd_evaluates _ _)

/-- `idiv rbx` of a symbol by 2. The upper accumulator gets the same expression as the lower
one. -/
theorem not_idivDone_symbol : ¬ IdivDone ⟨.idiv, [], []⟩ (VMState.new (fun _ => 0) fun _ => 0)
    (concreteOprnd .rdx 0) (symbolicOprnd .rax) (concreteOprnd .rbx 2) (fun _ => 0#64)
    (fun ρ => ρ "S" 64) fun _ => 2#64 := by
  obtain ⟨vm', e, v, hrun, hread, herr⟩ := exists_process_idiv (I := ⟨.idiv, [], []⟩) rfl
    (vmShape_new (fun _ => 0) fun _ => 0) (Or.inr (Or.inr rfl)) rfl
    (⟨⟨rfl, rfl⟩, rfl, rfl⟩ : AccumulatorPair (concreteOprnd .rdx 0) (symbolicOprnd .rax) 8)
    (concreteOprnd_evaluates .rdx 0) (symbolicOprnd_evaluates .rax)
    (concreteOprnd_evaluates .rbx 2)
  rintro ⟨vm'', hrun', -, hupper⟩
  obtain rfl : vm' = vm'' := Option.some.inj (hrun.symm.trans hrun')
  exact not_readsAs hread herr _ _ hupper

end Idiv

/-! ## Multiplication -/

section Mul

variable {vm : VMState} {I : Instruction} {oD oA oM : OprndInfo} {n w : Nat}

/-- The two words that are cut out of the product show its two halves. -/
theorem setWidth_and_mask (hw : w ≤ 64) (p : BitVec 128) :
    ((p &&& BitVec.ofNat 128 (2 ^ w - 1)).setWidth 64).setWidth w = p.setWidth w := by
  refine BitVec.eq_of_getLsbD_eq fun i hi => ?_
  have hi64 : i < 64 := by omega
  have hmask : (BitVec.ofNat 128 (2 ^ w - 1)).getLsbD i = true := by
    rw [BitVec.getLsbD_ofNat, Nat.testBit_two_pow_sub_one]
    simp [hi, show i < 128 by omega]
  rw [BitVec.getLsbD_setWidth, BitVec.getLsbD_setWidth, BitVec.getLsbD_setWidth,
    BitVec.getLsbD_and, hmask, decide_eq_true hi64, Bool.true_and, Bool.and_true]

/-- The product of the concrete branch is the exact one, except that a signed
one must fit into 64 bits. -/
theorem concreteProduct_iff (hid : I.id = .mul ∨ I.id = .imul) (hn : n = 2 ∨ n = 4 ∨ n = 8)
    (hw : w = 8 * n) {x y : BitVec w} {vA vM : BitVec 64} (hA : vA = x.signExtend 64)
    (hM : vM = y.signExtend 64) :
    ∃ vR, concreteProduct I.id vA vM n n = some vR ∧
      (vR.setWidth (2 * w) = exactProduct I.id x y ↔
        (I.id = .imul → -2 ^ 64 ≤ x.toInt * y.toInt * 2 ∧ x.toInt * y.toInt * 2 < 2 ^ 64)) := by
  have hw64 : w ≤ 64 := by omega
  subst hw hA hM
  rcases hid with hid | hid
  -- `mul` reads the sign-extended values back as unsigned ones, which undoes the extension.
  · have hcut : ∀ z : BitVec (8 * n), signedToUnsigned (z.signExtend 64) n
        = some (z.setWidth 128) := by
      intro z
      have hsize : isAccessSize n = true := by
        rcases hn with rfl | rfl | rfl <;> decide
      rw [signedToUnsigned, if_pos hsize, Extend.setWidth_signExtend hw64,
        BitVec.signExtend_eq_setWidth_of_le _ (Nat.le_refl _), BitVec.setWidth_eq]
    refine ⟨x.setWidth 128 * y.setWidth 128, ?_, iff_of_true ?_ (fun h => ?_)⟩
    · rw [concreteProduct, if_pos hid, hcut, hcut]
      rfl
    · rw [exactProduct, if_pos hid, umul_eq_setWidth (show 2 * (8 * n) ≤ 128 by omega)]
    · rw [hid] at h
      exact absurd h (by decide)
  · have hne : I.id ≠ .mul := by
      rw [hid]
      decide
    -- `imul` multiplies in 64 bits: the product is right as long as it fits there.
    refine ⟨(x.signExtend 64 * y.signExtend 64).signExtend 128, ?_, ?_⟩
    · rw [concreteProduct, if_neg hne]
    · rw [exactProduct, if_neg hne, narrow_eq_smul_iff (by omega) hw64 (by decide) (by omega)]
      exact ⟨fun h _ => h, fun h => h hid⟩

/-- The concrete branch. -/
theorem exists_process_mul_concrete (hid : I.id = .mul ∨ I.id = .imul) (h : VMShape vm)
    (hn : n = 2 ∨ n = 4 ∨ n = 8) (hpair : AccumulatorPair oD oA n) (hsizeM : oM.size = n)
    (hsymA : oA.symb = false) (hsymM : oM.symb = false) {vA vM : BitVec 64}
    (hconA : oA.getConValue = some vA) (hconM : oM.getConValue = some vM) {vR : BitVec 128}
    (hprod : concreteProduct I.id vA vM n n = some vR) :
    ∃ vm' eA xA eD xD, process I vm [oD, oA, oM] = some vm' ∧
      (vm'.readOprnd oA = some (false, eA, xA) ∧ xA.setWidth (8 * n) = vR.setWidth (8 * n)) ∧
      vm'.readOprnd oD = some (false, eD, xD) ∧
        xD.setWidth (8 * n) = (vR >>> (8 * n)).setWidth (8 * n) := by
  obtain ⟨hsizeD, hsizeA⟩ := hpair.sizes
  have hw64 : 8 * n ≤ 64 := by omega
  -- The product is cut into the two halves by a mask and a shift.
  let mask : BitVec 128 := BitVec.ofNat 128 (2 ^ (8 * n) - 1)
  obtain ⟨vm₁, vm', eA, xA, eD, xD, hset, hset', ⟨hreadA, hlowA⟩, hreadD, hlowD⟩ :=
    hpair.exists_setConValue hn h ((vR &&& mask).setWidth 64)
      ((vR >>> (8 * n) &&& mask).setWidth 64)
  have hmul : processMul I.id vm [oD, oA, oM] = some vm' := by
    rw [processMul]
    simp only [List.getElem?_cons_zero, List.getElem?_cons_succ, Option.bind_eq_bind,
      Option.bind_some, accumulatorExpr, operandExpr, hsymA, hsymM, hconA, hconM,
      Bool.false_eq_true, if_false, Bool.not_false, Bool.and_self, if_true, hsizeA, hsizeM,
      hsizeD, hprod]
    rw [show oA.setConValue vm _ = some vm₁ from hset]
    exact hset'
  have hrun : process I vm [oD, oA, oM] = some vm' := by
    rcases hid with hid | hid <;> (rw [hid] at hmul; simp only [process, hid]; exact hmul)
  rw [setWidth_and_mask hw64] at hlowA hlowD
  exact ⟨vm', eA, xA, eD, xD, hrun, ⟨hreadA, hlowA⟩, hreadD, hlowD⟩

/-- The solver makes no term of the upper half of a product that is as wide as
its factors. -/
theorem z3_extract_mul (hw : w = 8 * n) (hpos : 0 < n) {eA eM : Expr} {tA tM : Term (.bv w)}
    (hA : z3HandlingExprPtr eA = .ok ⟨.bv w, tA⟩) (hM : z3HandlingExprPtr eM = .ok ⟨.bv w, tM⟩)
    (size size' : Nat) :
    z3HandlingExprPtr (.extract (.bin .mul eA eM size) n (n * 2 : Nat) size')
      = .error .z3Exception := by
  have hbits : (0 : Int) ≤ n ∧ (0 : Int) ≤ (n * 2 : Nat) * 8 - 1 := by omega
  have hout : ¬ (((n : Int) * 8).toNat ≤ (((n * 2 : Nat) : Int) * 8 - 1).toNat ∧
      (((n * 2 : Nat) : Int) * 8 - 1).toNat < w) := by omega
  simp only [z3HandlingExprPtr, hA, hM, bind, Except.bind, z3HandleBinKind, z3HandleMul,
    SomeTerm.bin, dite_true, z3Call, z3HandleExtract, SomeTerm.extract]
  rw [if_pos hbits, if_neg hout]

/-- With a symbolic accumulator there is no result: its expression is asserted to have been
read before anything was. -/
theorem process_mul_symbolicAccumulator (hid : I.id = .mul ∨ I.id = .imul)
    (hsymA : oA.symb = true) : process I vm [oD, oA, oM] = none := by
  have hmul : processMul I.id vm [oD, oA, oM] = none := by
    rw [processMul]
    simp only [List.getElem?_cons_zero, List.getElem?_cons_succ, Option.bind_eq_bind,
      Option.bind_some, accumulatorExpr, hsymA, if_true, Option.bind_none]
  rcases hid with hid | hid
  · rw [hid] at hmul
    simp only [process, hid]
    exact hmul
  · rw [hid] at hmul
    simp only [process, hid]
    exact hmul

/-- What a concrete accumulator and a symbolic factor leave in the upper accumulator. -/
theorem exists_process_mul_symbolic (hid : I.id = .mul ∨ I.id = .imul) (h : VMShape vm)
    (hn : n = 2 ∨ n = 4 ∨ n = 8) (hw : w = 8 * n) (hpair : AccumulatorPair oD oA n)
    {x y : Valuation → BitVec w} (hx : ∀ ρ, oA.Evaluates ρ w (x ρ))
    (hy : ∀ ρ, oM.Evaluates ρ w (y ρ)) (hsymA : oA.symb = false) (hsymM : oM.symb = true) :
    ∃ vm' e v, process I vm [oD, oA, oM] = some vm' ∧ vm'.readOprnd oD = some (true, e, v) ∧
      z3HandlingExprPtr e = .error .z3Exception := by
  have hwpos : 0 < w := by omega
  obtain ⟨hsizeD, hsizeA⟩ := hpair.sizes
  obtain ⟨eA, tA, hopA, hzA, -⟩ := exists_operandExpr hwpos hx
  obtain ⟨eM, tM, hopM, hzM, -⟩ := exists_operandExpr hwpos hy
  let eR := Expr.bin .mul eA eM oM.size
  obtain ⟨vm₁, vm', vA, vD, hset, hset', -, hread⟩ := hpair.exists_setSymValue hn h
    (.extract eR 0 n n) (.extract eR n (n * 2 : Nat) n)
  -- The accumulator enters as a literal, since it is concrete.
  have hacc : accumulatorExpr oA = some eA := by
    rw [accumulatorExpr, hsymA, if_neg Bool.false_ne_true, hopA]
  have hmul : processMul I.id vm [oD, oA, oM] = some vm' := by
    rw [processMul]
    simp only [List.getElem?_cons_zero, List.getElem?_cons_succ, Option.bind_eq_bind,
      Option.bind_some, hacc, hopM, hsymM, Bool.not_true, Bool.and_false,
      Bool.false_eq_true, if_false, hsizeA]
    rw [show oA.setSymValue vm _ = some vm₁ from hset]
    exact hset'
  have hrun : process I vm [oD, oA, oM] = some vm' := by
    rcases hid with hid | hid <;> (rw [hid] at hmul; simp only [process, hid]; exact hmul)
  exact ⟨vm', _, vD, hrun, hread, z3_extract_mul hw (by omega) hzA hzM _ _⟩

/-- The halves of the product are in the accumulators exactly when both factors are concrete
and, if they are signed, their product fits into 64 bits. With a symbolic accumulator the
handler asserts a result that was never assigned. With a symbolic multiplier the upper half
is made by an extract that lies past the product, whose width is that of one factor. -/
theorem mulDone_iff (hid : I.id = .mul ∨ I.id = .imul) (h : VMShape vm)
    (hn : n = 2 ∨ n = 4 ∨ n = 8) (hw : w = 8 * n) (hpair : AccumulatorPair oD oA n)
    (hsizeM : oM.size = n) {x y : Valuation → BitVec w} (hx : ∀ ρ, oA.Evaluates ρ w (x ρ))
    (hy : ∀ ρ, oM.Evaluates ρ w (y ρ))
    (hext : ∀ oi ∈ [oA, oM], ∀ v, oi.getConValue = some v → v = (v.setWidth w).signExtend 64) :
    MulDone I vm oD oA oM x y ↔ oA.symb = false ∧ oM.symb = false ∧
      (I.id = .imul → ∀ ρ, -2 ^ 64 ≤ (x ρ).toInt * (y ρ).toInt * 2 ∧
        (x ρ).toInt * (y ρ).toInt * 2 < 2 ^ 64) := by
  -- With a symbol in either operand the property fails; without one it turns on the product.
  by_cases hsym : oA.symb = false ∧ oM.symb = false
  · obtain ⟨hsymA, hsymM⟩ := hsym
    obtain ⟨vA, hconA, -, -⟩ := (hx fun _ _ => 0).con hsymA
    obtain ⟨vM, hconM, -, -⟩ := (hy fun _ _ => 0).con hsymM
    -- the values do not depend on the valuation
    have hxA : ∀ ρ, x ρ = vA.setWidth w := by
      intro ρ
      obtain ⟨v, hv, -, hval⟩ := (hx ρ).con hsymA
      obtain rfl : vA = v := Option.some.inj (hconA.symm.trans hv)
      rw [hval, BitVec.ofNat_toNat]
    have hyM : ∀ ρ, y ρ = vM.setWidth w := by
      intro ρ
      obtain ⟨v, hv, -, hval⟩ := (hy ρ).con hsymM
      obtain rfl : vM = v := Option.some.inj (hconM.symm.trans hv)
      rw [hval, BitVec.ofNat_toNat]
    obtain ⟨vR, hprod, hiff⟩ := concreteProduct_iff hid hn hw
      (hext oA (by simp) vA hconA) (hext oM (by simp) vM hconM)
    obtain ⟨vm', eA, xA, eD, xD, hrun, ⟨hreadA, hlowA⟩, hreadD, hlowD⟩ :=
      exists_process_mul_concrete hid h hn hpair hsizeM hsymA hsymM hconA hconM hprod
    subst hw
    have hlow : lowHalf (vR.setWidth (2 * (8 * n))) = xA.setWidth (8 * n) :=
      (lowHalf_setWidth vR).trans hlowA.symm
    have hhigh : highHalf (vR.setWidth (2 * (8 * n))) = xD.setWidth (8 * n) :=
      (highHalf_setWidth vR).trans hlowD.symm
    -- The bound on the product says the same as equality with the exact one.
    have hcond : (I.id = .imul → ∀ ρ, -2 ^ 64 ≤ (x ρ).toInt * (y ρ).toInt * 2 ∧
          (x ρ).toInt * (y ρ).toInt * 2 < 2 ^ 64) ↔
        vR.setWidth (2 * (8 * n))
          = exactProduct I.id (vA.setWidth (8 * n)) (vM.setWidth (8 * n)) := by
      rw [hiff]
      simp only [hxA, hyM, forall_const]
    have hexact : ∀ ρ, exactProduct I.id (x ρ) (y ρ)
        = exactProduct I.id (vA.setWidth (8 * n)) (vM.setWidth (8 * n)) := by
      intro ρ
      rw [hxA, hyM]
    rw [hcond]
    -- The two halves determine the product, in both directions.
    constructor
    · rintro ⟨vm'', hrun', ⟨symb, e, v, hread', -, hval⟩, symb', e', v', hread'', -, hval'⟩
      obtain rfl : vm' = vm'' := Option.some.inj (hrun.symm.trans hrun')
      have hpartsA := Option.some.inj (hreadA.symm.trans hread')
      have hpartsD := Option.some.inj (hreadD.symm.trans hread'')
      have hvalA : v.setWidth (8 * n) = lowHalf (exactProduct I.id _ _) :=
        hval (Prod.mk.inj hpartsA).1.symm (fun _ _ => 0) trivial
      have hvalD : v'.setWidth (8 * n) = highHalf (exactProduct I.id _ _) :=
        hval' (Prod.mk.inj hpartsD).1.symm (fun _ _ => 0) trivial
      rw [← (Prod.mk.inj (Prod.mk.inj hpartsA).2).2, ← hlow, hexact] at hvalA
      rw [← (Prod.mk.inj (Prod.mk.inj hpartsD).2).2, ← hhigh, hexact] at hvalD
      exact ⟨hsymA, hsymM, eq_of_halves hvalA hvalD⟩
    · rintro ⟨-, -, heq⟩
      refine ⟨vm', hrun, ⟨false, eA, xA, hreadA, fun hno => absurd hno (by simp),
        fun _ ρ _ => ?_⟩, false, eD, xD, hreadD, fun hno => absurd hno (by simp), fun _ ρ _ => ?_⟩
      · show xA.setWidth (8 * n) = lowHalf (exactProduct I.id (x ρ) (y ρ))
        rw [hexact, ← heq, hlow]
      · show xD.setWidth (8 * n) = highHalf (exactProduct I.id (x ρ) (y ρ))
        rw [hexact, ← heq, hhigh]
  · refine iff_of_false ?_ fun hright => hsym ⟨hright.1, hright.2.1⟩
    rintro ⟨vm'', hrun', -, hupper⟩
    -- A symbolic accumulator stops at the assertion; a symbolic multiplier is cut at a wrong width.
    cases hsymA : oA.symb with
    | true =>
      rw [process_mul_symbolicAccumulator hid hsymA] at hrun'
      exact absurd hrun' (by simp)
    | false =>
      have hsymM : oM.symb = true := by
        rw [← Bool.not_eq_false]
        exact fun hno => hsym ⟨hsymA, hno⟩
      obtain ⟨vm', e, v, hrun, hread, herr⟩ :=
        exists_process_mul_symbolic hid h hn hw hpair hx hy hsymA hsymM
      obtain rfl : vm' = vm'' := Option.some.inj (hrun.symm.trans hrun')
      exact not_readsAs hread herr _ _ hupper

/-- `imul rbx` of -3 by 5. The product is extended from 64 bits, into which it fits. -/
theorem mulDone_imul_concrete : MulDone ⟨.imul, [], []⟩ (VMState.new (fun _ => 0) fun _ => 0)
    (concreteOprnd .rdx 0) (concreteOprnd .rax (-3)) (concreteOprnd .rbx 5) (fun _ => -3#64)
    fun _ => 5#64 := by
  refine (mulDone_iff (Or.inr rfl) (vmShape_new _ _) (Or.inr (Or.inr rfl)) rfl
    ⟨⟨rfl, rfl⟩, rfl, rfl⟩ rfl (concreteOprnd_evaluates _ _) (concreteOprnd_evaluates _ _) ?_).2
    ⟨rfl, rfl, fun _ _ => by decide⟩
  intro oi _ v _
  rw [BitVec.setWidth_eq, BitVec.signExtend_eq_setWidth_of_le _ (Nat.le_refl _),
    BitVec.setWidth_eq]

/-- `mul rbx` of 5 by a symbol. The product is a term of 64 bits, and there is no upper half
to extract. -/
theorem not_mulDone_symbol : ¬ MulDone ⟨.mul, [], []⟩ (VMState.new (fun _ => 0) fun _ => 0)
    (concreteOprnd .rdx 0) (concreteOprnd .rax 5) (symbolicOprnd .rbx) (fun _ => 5#64)
    fun ρ => ρ "S" 64 := by
  obtain ⟨vm', e, v, hrun, hread, herr⟩ := exists_process_mul_symbolic (I := ⟨.mul, [], []⟩)
    (Or.inl rfl) (vmShape_new (fun _ => 0) fun _ => 0) (Or.inr (Or.inr rfl)) rfl
    (⟨⟨rfl, rfl⟩, rfl, rfl⟩ : AccumulatorPair (concreteOprnd .rdx 0) (concreteOprnd .rax 5) 8)
    (concreteOprnd_evaluates .rax 5) (symbolicOprnd_evaluates .rbx) rfl rfl
  rintro ⟨vm'', hrun', -, hupper⟩
  obtain rfl : vm' = vm'' := Option.some.inj (hrun.symm.trans hrun')
  exact not_readsAs hread herr _ _ hupper

end Mul

end KRover
