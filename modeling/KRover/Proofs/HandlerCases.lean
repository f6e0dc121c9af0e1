import KRover.Proofs.OprndParse
import KRover.SymExec

/-! # The ways through a handler

A handler that returns has found its operands and has taken one of a few ways through its
code. `processLea_cases` to `processPush_cases` state these ways, one lemma for each
handler. A way is told by its guards, by what was read, and by the writes that were made.
An invariant of the machine follows from the cases, and no proof about one has to unfold a
handler.

Four kinds of writes recur:

* `MovedTo`: one operand goes to another, as an expression or as a concrete value;
* `ListMoved`: the same where the source is parsed as a list of cells;
* `SetSaved`: an expression goes into an operand and is saved for the flags;
* `Swapped`: each of two operands goes to the other.

What is saved for the flags leaves the bytes of the machine as they are (`sameBytes_save`).
-/

set_option autoImplicit false

namespace KRover

open Segments SymExecutor

/-! ## Kinds of writes -/

/-- What `oisrc` reads as goes into `oidst`. An expression goes through `f`, a concrete value
through `g`. -/
inductive MovedTo (f : Expr → Expr) (g : BitVec 64 → BitVec 64) (vm : VMState)
    (oidst oisrc : OprndInfo) (vm' : VMState) : Prop where
  | expr (e : Expr) (hsym : oisrc.symb = true) (he : oisrc.getSymValue = some e)
      (hset : oidst.setSymValue vm (f e) = some vm')
  | value (v : BitVec 64) (hcon : oisrc.symb = false) (hv : oisrc.getConValue = some v)
      (hset : oidst.setConValue vm (g v) = some vm')

/-- What `oisrc` reads as goes into `oidst`, a symbolic source as a list of cells. A concrete
source goes into a symbolic destination only. -/
inductive ListMoved (vm : VMState) (oidst oisrc : OprndInfo) (vm' : VMState) : Prop where
  | list (cells : List (Segment Expr)) (v : BitVec 64) (hsym : oisrc.symb = true)
      (hlist : oisrc.getSymList = some (cells, v))
      (hset : oidst.setSymList vm cells v = some vm')
  | value (v : BitVec 64) (hcon : oisrc.symb = false) (hdst : oidst.symb = true)
      (hv : oisrc.getConValue = some v) (hset : oidst.setConValue vm v = some vm')

/-- The expression `oe` goes into `oi`. Behind the write it is saved as the last one that
changed the flags. -/
def SetSaved (id : EntryID) (vm : VMState) (oi : OprndInfo) (oe : Expr) (vm' : VMState) : Prop :=
  ∃ vm₁, oi.setSymValue vm oe = some vm₁ ∧
    asserted (some (vm₁.saveFlagChangingInstructionExpr id oe)) = some vm'

/-- Each operand goes to the other. The first operand is written first. -/
inductive Swapped (vm : VMState) (o1 o2 : OprndInfo) (vm' : VMState) : Prop where
  | both (e1 e2 : Expr) (vm₁ : VMState) (hsym : o1.symb = true ∧ o2.symb = true)
      (he1 : o1.getSymValue = some e1) (he2 : o2.getSymValue = some e2)
      (hset1 : o1.setSymValue vm e2 = some vm₁) (hset2 : o2.setSymValue vm₁ e1 = some vm')
  | first (e1 : Expr) (v2 : BitVec 64) (vm₁ : VMState)
      (hsym : o1.symb = true ∧ o2.symb = false) (he1 : o1.getSymValue = some e1)
      (hv2 : o2.getConValue = some v2) (hset1 : o1.setConValue vm v2 = some vm₁)
      (hset2 : o2.setSymValue vm₁ e1 = some vm')
  | second (e2 : Expr) (v1 : BitVec 64) (vm₁ : VMState)
      (hsym : o1.symb = false ∧ o2.symb = true) (he2 : o2.getSymValue = some e2)
      (hv1 : o1.getConValue = some v1) (hset1 : o1.setSymValue vm e2 = some vm₁)
      (hset2 : o2.setConValue vm₁ v1 = some vm')

/-- The two halves of a product go into the accumulator and into `d`. They are numbers where
both factors are, and expressions where the multiplier is symbolic. -/
inductive HalvesSet (vm : VMState) (oD oA oM : OprndInfo) (vm' : VMState) : Prop where
  | values (vrl vrh : BitVec 64) (vm₁ : VMState) (hcon : oA.symb = false ∧ oM.symb = false)
      (hset1 : oA.setConValue vm vrl = some vm₁) (hset2 : oD.setConValue vm₁ vrh = some vm')
  | exprs (el eh : Expr) (vm₁ : VMState) (hsym : oA.symb = false ∧ oM.symb = true)
      (hset1 : oA.setSymValue vm el = some vm₁) (hset2 : oD.setSymValue vm₁ eh = some vm')

/-! ## What is saved for the flags -/

/-- States that differ in their flags only. -/
structure SameBytes (vm vm' : VMState) : Prop where
  ptRegs : vm'.cpu.ptRegs = vm.cpu.ptRegs
  symBitmap : vm'.cpu.symBitmap = vm.cpu.symBitmap
  symList : vm'.cpu.symList = vm.cpu.symList
  mem : vm'.mem = vm.mem

namespace SameBytes

variable {vm vm' : VMState}

/-- Over the same bytes the shape is kept. -/
theorem shape (hsame : SameBytes vm vm') (h : VMShape vm) : VMShape vm' where
  mem := by
    rw [hsame.mem]
    exact h.mem
  cpu := h.cpu.congr hsame.symBitmap hsame.symList

/-- The cells of the registers are the same. -/
theorem regCells (hsame : SameBytes vm vm') : vm'.cpu.regCells = vm.cpu.regCells := by
  funext i
  rw [SYCPUState.regCells, SYCPUState.regCells, hsame.symList]

end SameBytes

/-- Saving an expression marks flags, and changes nothing else of the machine. -/
theorem sameBytes_save (vm : VMState) (id : EntryID) (e : Expr) :
    SameBytes vm (vm.saveFlagChangingInstructionExpr id e).2 := by
  rw [VMState.saveFlagChangingInstructionExpr, EFlagsManager.saveFlagChangingInstructionExpr]
  cases isFlagChangingInstr id || isFlagSettingInstr id with
  | true =>
    simp only [if_true, SYCPUState.setFlagBit]
    exact ⟨rfl, rfl, rfl, rfl⟩
  | false => exact ⟨rfl, rfl, rfl, rfl⟩

/-! ## Handlers -/

section Handlers

variable {vm vm' : VMState} {vecOI : List OprndInfo}

/-- A handler that asks first whether its source is symbolic has moved it, where the other
branch moves a concrete value. -/
theorem MovedTo.of_run {f : Expr → Expr} {g : BitVec 64 → BitVec 64} {oidst oisrc : OprndInfo}
    {rest : Option VMState}
    (hrun : (if oisrc.symb = true then oisrc.getSymValue >>= fun e => oidst.setSymValue vm (f e)
      else rest) = some vm')
    (hrest : rest = some vm' →
      ∃ v, oisrc.getConValue = some v ∧ oidst.setConValue vm (g v) = some vm') :
    MovedTo f g vm oidst oisrc vm' := by
  split at hrun
  · rename_i hsym
    obtain ⟨e, he, hset⟩ := bind_some hrun
    exact .expr e hsym he hset
  · rename_i hcon
    obtain ⟨v, hv, hset⟩ := hrest hrun
    exact .value v (Bool.eq_false_iff.2 hcon) hv hset

/-- A concrete value is moved to a symbolic destination only. -/
theorem exists_value_of_guard {oidst oisrc : OprndInfo}
    (hrun : (if oidst.symb = true then oisrc.getConValue >>= fun v => oidst.setConValue vm v
      else none) = some vm') :
    oidst.symb = true ∧ ∃ v, oisrc.getConValue = some v ∧ oidst.setConValue vm v = some vm' := by
  split at hrun
  · rename_i hsym
    exact ⟨hsym, bind_some hrun⟩
  · simp at hrun

/-- `process_lea`: a concrete source asks for a symbolic destination. -/
theorem processLea_cases (hproc : processLea vm vecOI = some vm') :
    ∃ oidst oisrc, vecOI[0]? = some oidst ∧ vecOI[1]? = some oisrc ∧
      MovedTo (fun e => e) (fun v => v) vm oidst oisrc vm' := by
  obtain ⟨oidst, hdst, hrest⟩ := bind_some hproc
  obtain ⟨oisrc, hsrc, hrest⟩ := bind_some hrest
  exact ⟨oidst, oisrc, hdst, hsrc, .of_run hrest fun hvalue => (exists_value_of_guard hvalue).2⟩

/-- `process_cmovxx` moves whatever the condition is. -/
theorem processCmovxx_cases (hproc : processCmovxx vm vecOI = some vm') :
    ∃ oidst oisrc, vecOI[0]? = some oidst ∧ vecOI[1]? = some oisrc ∧
      MovedTo (fun e => e) (fun v => v) vm oidst oisrc vm' := by
  obtain ⟨oidst, hdst, hrest⟩ := bind_some hproc
  obtain ⟨oisrc, hsrc, hrest⟩ := bind_some hrest
  exact ⟨oidst, oisrc, hdst, hsrc, .of_run hrest bind_some⟩

/-- The widening moves put one node over an expression and leave a concrete value as it is. -/
theorem processExtend_cases {k : UryKind} (hproc : processExtend k vm vecOI = some vm') :
    ∃ oidst oisrc, vecOI[0]? = some oidst ∧ vecOI[1]? = some oisrc ∧
      MovedTo (Expr.uryExpr k) (fun v => v) vm oidst oisrc vm' := by
  obtain ⟨oidst, hdst, hrest⟩ := bind_some hproc
  obtain ⟨oisrc, hsrc, hrest⟩ := bind_some hrest
  exact ⟨oidst, oisrc, hdst, hsrc, .of_run hrest fun hvalue => (exists_value_of_guard hvalue).2⟩

/-- `process_cdq` moves the sign of the accumulator to `d`. -/
theorem processCdq_cases (hproc : processCdq vm vecOI = some vm') :
    ∃ oD oA, vecOI[0]? = some oD ∧ vecOI[1]? = some oA ∧
      MovedTo (fun eA => .extract (.ury .signExt eA (oA.size * 2)) oA.size (oA.size * 2 : Nat)
        oD.size) (fun vA => if 0 ≤ vA.toInt then 0 else -1) vm oD oA vm' := by
  obtain ⟨oD, hD, hrest⟩ := bind_some hproc
  obtain ⟨oA, hA, hrest⟩ := bind_some hrest
  exact ⟨oD, oA, hD, hA, .of_run hrest bind_some⟩

/-- `process_cbw` reads the lower half of the accumulator once more. The mark of that read
decides whether an expression is written, or the sign of the value. -/
theorem processCbw_cases (hproc : processCbw vm vecOI = some vm') :
    ∃ oi e sub size rv vm₁, vecOI[0]? = some oi ∧ oi.getSymValue = some e ∧
      lowerHalf oi.size = some (sub, size) ∧
      vm.readRegisterExpr ⟨.rax, sub⟩ size = some (rv, vm₁) ∧
      (rv.bsym = true ∧ oi.setSymValue vm₁ (.ury .signExt e oi.size) = some vm' ∨
        rv.bsym = false ∧ vm₁.writeRegister ⟨⟨.rax, accumulator oi.size⟩, oi.size, false, false,
          (rv.i64.setWidth (8 * size)).signExtend 64, .null, []⟩ = some (true, vm')) := by
  obtain ⟨oi, hoi, hrest⟩ := bind_some hproc
  split at hrest
  · obtain ⟨e, he, hrest⟩ := bind_some hrest
    obtain ⟨⟨sub, size⟩, hhalf, hrest⟩ := bind_some hrest
    obtain ⟨⟨rv, vm₁⟩, hread, hrest⟩ := bind_some hrest
    refine ⟨oi, e, sub, size, rv, vm₁, hoi, he, hhalf, hread, ?_⟩
    dsimp only at hrest
    split at hrest
    · rename_i hsym
      exact Or.inl ⟨hsym, hrest⟩
    · rename_i hcon
      exact Or.inr ⟨Bool.eq_false_iff.2 hcon, asserted_eq_some.1 hrest⟩
  · simp at hrest

/-- The five two-operand handlers put the result into the first operand. -/
theorem processBinary_cases {k : BinKind} {id : EntryID}
    (hproc : processBinary k id vm vecOI = some vm') :
    ∃ o1 o2 oe, vecOI[0]? = some o1 ∧ vecOI[1]? = some o2 ∧
      operate k o1 o2 o1.size o2.size = some oe ∧ SetSaved id vm o1 oe vm' := by
  obtain ⟨o1, h1, hrest⟩ := bind_some hproc
  obtain ⟨o2, h2, hrest⟩ := bind_some hrest
  obtain ⟨oe, hoe, hrest⟩ := bind_some hrest
  exact ⟨o1, o2, oe, h1, h2, hoe, bind_some hrest⟩

/-- `process_neg` has one operand, which must be symbolic. -/
theorem processNeg_cases (hproc : processNeg vm vecOI = some vm') :
    ∃ o1 e1, vecOI[0]? = some o1 ∧ o1.symb = true ∧ o1.getSymValue = some e1 ∧
      SetSaved .neg vm o1 (Expr.uryExpr .neg e1) vm' := by
  obtain ⟨o1, h1, hrest⟩ := bind_some hproc
  split at hrest
  · rename_i hsym
    obtain ⟨e1, he1, hrest⟩ := bind_some hrest
    exact ⟨o1, e1, h1, hsym, he1, bind_some hrest⟩
  · simp at hrest

/-- A shift asks for a symbolic first operand and a concrete second one, whose size the count
has. -/
theorem processShift_cases {k : BinKind} {id : EntryID}
    {count : OprndInfo → OprndInfo → OprndInfo}
    (hproc : processShift k id count vm vecOI = some vm') :
    ∃ o1 o2 e1 v2, vecOI[0]? = some o1 ∧ vecOI[1]? = some o2 ∧
      (o1.symb = true ∧ o2.symb = false) ∧ o1.getSymValue = some e1 ∧
      (count o1 o2).getConValue = some v2 ∧
      SetSaved id vm o1 (Expr.binExpr k e1 (Expr.constExpr v2 o2.size)) vm' := by
  obtain ⟨o1, h1, hrest⟩ := bind_some hproc
  obtain ⟨o2, h2, hrest⟩ := bind_some hrest
  split at hrest
  · rename_i hguard
    obtain ⟨hsym, hcon⟩ := Bool.and_eq_true_iff.1 hguard
    obtain ⟨e1, he1, hrest⟩ := bind_some hrest
    obtain ⟨v2, hv2, hrest⟩ := bind_some hrest
    exact ⟨o1, o2, e1, v2, h1, h2, ⟨hsym, by simpa using hcon⟩, he1, hv2, bind_some hrest⟩
  · simp at hrest

/-- `process_test` saves an expression, asserts nothing of that, and writes no operand. -/
theorem processTest_cases (hproc : processTest vm vecOI = some vm') :
    ∃ o1 o2 oe, vecOI[0]? = some o1 ∧ vecOI[1]? = some o2 ∧
      operate .and o1 o2 o1.size o2.size = some oe ∧
      vm' = (vm.saveFlagChangingInstructionExpr .test oe).2 := by
  obtain ⟨o1, h1, hrest⟩ := bind_some hproc
  obtain ⟨o2, h2, hrest⟩ := bind_some hrest
  obtain ⟨oe, hoe, hout⟩ := bind_some hrest
  exact ⟨o1, o2, oe, h1, h2, hoe, (Option.some.inj hout).symm⟩

/-- `process_cmp` saves a difference. A literal has the size of the other operand. -/
theorem processCmp_cases (hproc : processCmp vm vecOI = some vm') :
    ∃ o1 o2 oe, vecOI[0]? = some o1 ∧ vecOI[1]? = some o2 ∧
      operate .sub o1 o2 o2.size o1.size = some oe ∧
      asserted (some (vm.saveFlagChangingInstructionExpr .cmp oe)) = some vm' := by
  obtain ⟨o1, h1, hrest⟩ := bind_some hproc
  obtain ⟨o2, h2, hrest⟩ := bind_some hrest
  obtain ⟨oe, hoe, hsave⟩ := bind_some hrest
  exact ⟨o1, o2, oe, h1, h2, hoe, hsave⟩

/-- `process_xchg` needs a symbolic operand and makes two writes. -/
theorem processXchg_cases (hproc : processXchg vm vecOI = some vm') :
    ∃ o1 o2, vecOI[0]? = some o1 ∧ vecOI[1]? = some o2 ∧ Swapped vm o1 o2 vm' := by
  obtain ⟨o1, h1, hrest⟩ := bind_some hproc
  obtain ⟨o2, h2, hrest⟩ := bind_some hrest
  refine ⟨o1, o2, h1, h2, ?_⟩
  cases hs1 : o1.symb <;> cases hs2 : o2.symb <;>
    simp only [hs1, hs2, Bool.and_true, Bool.and_false, if_true, Bool.false_eq_true,
      if_false] at hrest
  case false.false => simp at hrest
  case false.true =>
    obtain ⟨e2, he2, hrest⟩ := bind_some hrest
    obtain ⟨v1, hv1, hrest⟩ := bind_some hrest
    obtain ⟨vm₁, hset1, hset2⟩ := bind_some hrest
    exact .second e2 v1 vm₁ ⟨hs1, hs2⟩ he2 hv1 hset1 hset2
  case true.false =>
    obtain ⟨e1, he1, hrest⟩ := bind_some hrest
    obtain ⟨v2, hv2, hrest⟩ := bind_some hrest
    obtain ⟨vm₁, hset1, hset2⟩ := bind_some hrest
    exact .first e1 v2 vm₁ ⟨hs1, hs2⟩ he1 hv2 hset1 hset2
  case true.true =>
    obtain ⟨e1, he1, hrest⟩ := bind_some hrest
    obtain ⟨e2, he2, hrest⟩ := bind_some hrest
    obtain ⟨vm₁, hset1, hset2⟩ := bind_some hrest
    exact .both e1 e2 vm₁ ⟨hs1, hs2⟩ he1 he2 hset1 hset2

/-- `process_mul` writes the lower half of the product to the accumulator and then the upper
one to `d`. Of a symbolic accumulator it asserts. -/
theorem processMul_cases {id : EntryID} (hproc : processMul id vm vecOI = some vm') :
    ∃ oD oA oM, vecOI[0]? = some oD ∧ vecOI[1]? = some oA ∧ vecOI[2]? = some oM ∧
      HalvesSet vm oD oA oM vm' := by
  obtain ⟨oD, hD, hrest⟩ := bind_some hproc
  obtain ⟨oA, hA, hrest⟩ := bind_some hrest
  obtain ⟨oM, hM, hrest⟩ := bind_some hrest
  obtain ⟨eA, hacc, hrest⟩ := bind_some hrest
  obtain ⟨eM, -, hrest⟩ := bind_some hrest
  refine ⟨oD, oA, oM, hD, hA, hM, ?_⟩
  split at hrest
  · rename_i hguard
    have hcon : oA.symb = false ∧ oM.symb = false := by simpa using hguard
    obtain ⟨vA, -, hrest⟩ := bind_some hrest
    obtain ⟨vM, -, hrest⟩ := bind_some hrest
    obtain ⟨vR, -, hrest⟩ := bind_some hrest
    obtain ⟨vm₁, hset1, hset2⟩ := bind_some hrest
    exact .values _ _ vm₁ hcon hset1 hset2
  · rename_i hguard
    have hconA : oA.symb = false := by
      rw [accumulatorExpr] at hacc
      split at hacc
      · simp at hacc
      · rename_i hconA
        exact Bool.eq_false_iff.2 hconA
    have hsymM : oM.symb = true := by simpa [hconA] using hguard
    obtain ⟨vm₁, hset1, hset2⟩ := bind_some hrest
    exact .exprs _ _ vm₁ ⟨hconA, hsymM⟩ hset1 hset2

/-- `process_idiv` writes quotient and remainder, to the accumulator and to `d`. -/
theorem processIdiv_cases (hproc : processIdiv vm vecOI = some vm') :
    ∃ oD oA eQuotient eRemainder vm₁, vecOI[0]? = some oD ∧ vecOI[1]? = some oA ∧
      oA.setSymValue vm eQuotient = some vm₁ ∧ oD.setSymValue vm₁ eRemainder = some vm' := by
  obtain ⟨oD, hD, hrest⟩ := bind_some hproc
  obtain ⟨oA, hA, hrest⟩ := bind_some hrest
  obtain ⟨oDivisor, -, hrest⟩ := bind_some hrest
  obtain ⟨eD, -, hrest⟩ := bind_some hrest
  obtain ⟨eA, -, hrest⟩ := bind_some hrest
  obtain ⟨eDivisor, -, hrest⟩ := bind_some hrest
  obtain ⟨vm₁, hset1, hset2⟩ := bind_some hrest
  exact ⟨oD, oA, _, _, vm₁, hD, hA, hset1, hset2⟩

end Handlers

/-! ## Handlers that parse again -/

section Reparse

variable {vm vm' : VMState} {I : Instruction}

/-- `process_mov` parses the operands as lists. -/
theorem processMov_cases (hproc : processMov vm I = some vm') :
    ∃ vecOI vm₁ oidst oisrc, vm.parseOperands true I = some (vecOI, vm₁) ∧
      vecOI[0]? = some oidst ∧ vecOI[1]? = some oisrc ∧ ListMoved vm₁ oidst oisrc vm' := by
  obtain ⟨⟨vecOI, vm₁⟩, hparse, hrest⟩ := bind_some hproc
  obtain ⟨oidst, hdst, hrest⟩ := bind_some hrest
  obtain ⟨oisrc, hsrc, hrest⟩ := bind_some hrest
  refine ⟨vecOI, vm₁, oidst, oisrc, hparse, hdst, hsrc, ?_⟩
  split at hrest
  · rename_i hsym
    obtain ⟨⟨cells, v⟩, hlist, hset⟩ := bind_some hrest
    exact .list cells v hsym hlist hset
  · rename_i hcon
    obtain ⟨hsymd, v, hv, hset⟩ := exists_value_of_guard hrest
    exact .value v (Bool.eq_false_iff.2 hcon) hsymd hv hset

/-- `process_pop` reads `rsp`, then the word there as a list, writes the first operand, and
writes `rsp` back. -/
theorem processPop_cases (hproc : processPop vm I = some vm') :
    ∃ vecOI vm₁ o1 o2 rsp V vm₂ MV vm₃ vm₄, vm.parseOperands true I = some (vecOI, vm₁) ∧
      vecOI[0]? = some o1 ∧ vecOI[1]? = some o2 ∧
      vm₁.readRegisterExpr rsp o2.size = some (V, vm₂) ∧
      vm₂.readMemory ⟨V.i64.toNat, o1.size, false, true, 0, .null, []⟩ = some (true, MV, vm₃) ∧
      (MV.bsym = true ∧ o1.setSymList vm₃ MV.symcellPtr MV.i64 = some vm₄ ∨
        o1.setConValue vm₃ MV.i64 = some vm₄) ∧
      vm₄.writeRegister { V with i64 := V.i64 + 8 } = some (true, vm') := by
  obtain ⟨⟨vecOI, vm₁⟩, hparse, hrest⟩ := bind_some hproc
  obtain ⟨o1, ho1, hrest⟩ := bind_some hrest
  obtain ⟨o2, ho2, hrest⟩ := bind_some hrest
  split at hrest
  · simp at hrest
  · obtain ⟨rsp, -, hrest⟩ := bind_some hrest
    obtain ⟨⟨V, vm₂⟩, hread, hrest⟩ := bind_some hrest
    obtain ⟨⟨MV, vm₃⟩, hmem, hrest⟩ := bind_some hrest
    dsimp only at hrest
    split at hrest
    · rename_i hsym
      obtain ⟨vm₄, hset, hwrite⟩ := bind_some hrest
      exact ⟨vecOI, vm₁, o1, o2, rsp, V, vm₂, MV, vm₃, vm₄, hparse, ho1, ho2, hread,
        asserted_eq_some.1 hmem, Or.inl ⟨hsym, hset⟩, asserted_eq_some.1 hwrite⟩
    · obtain ⟨vm₄, hset, hwrite⟩ := bind_some hrest
      exact ⟨vecOI, vm₁, o1, o2, rsp, V, vm₂, MV, vm₃, vm₄, hparse, ho1, ho2, hread,
        asserted_eq_some.1 hmem, Or.inr hset, asserted_eq_some.1 hwrite⟩

/-- `process_push` writes `rsp` back first, and then the first operand to the memory there. -/
theorem processPush_cases (hproc : processPush vm I = some vm') :
    ∃ vecOI vm₁ o1 o2 rsp V vm₂ vm₃, vm.parseOperands true I = some (vecOI, vm₁) ∧
      vecOI[0]? = some o1 ∧ vecOI[1]? = some o2 ∧
      vm₁.readRegisterExpr rsp o2.size = some (V, vm₂) ∧
      vm₂.writeRegister { V with i64 := V.i64 - 8 } = some (true, vm₃) ∧
      ((∃ cells v, o1.getSymList = some (cells, v) ∧ vm₃.writeMemory
          ⟨(V.i64 - 8).toNat, o1.size, true, true, v, .null, cells⟩ = some (true, vm')) ∨
        ∃ v, vm₃.writeMemory ⟨(V.i64 - 8).toNat, o1.size, false, false, v, .null, []⟩
          = some (true, vm')) := by
  obtain ⟨⟨vecOI, vm₁⟩, hparse, hrest⟩ := bind_some hproc
  obtain ⟨o1, ho1, hrest⟩ := bind_some hrest
  obtain ⟨o2, ho2, hrest⟩ := bind_some hrest
  split at hrest
  · simp at hrest
  · obtain ⟨rsp, -, hrest⟩ := bind_some hrest
    obtain ⟨⟨V, vm₂⟩, hread, hrest⟩ := bind_some hrest
    obtain ⟨vm₃, hwrite, hrest⟩ := bind_some hrest
    refine ⟨vecOI, vm₁, o1, o2, rsp, V, vm₂, vm₃, hparse, ho1, ho2, hread,
      asserted_eq_some.1 hwrite, ?_⟩
    split at hrest
    · obtain ⟨⟨cells, v⟩, hlist, hstore⟩ := bind_some hrest
      exact Or.inl ⟨cells, v, hlist, asserted_eq_some.1 hstore⟩
    · obtain ⟨v, -, hstore⟩ := bind_some hrest
      exact Or.inr ⟨v, asserted_eq_some.1 hstore⟩

end Reparse

end KRover
