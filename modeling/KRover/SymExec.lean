import KRover.Oprand

/-! # The symbolic executor

`SymExecutor`: one handler for each kind of instruction, over the operands the
parser has found. Every handler returns true or does not return at all, so a
handler is a partial function on states.

`none` is a failed assertion, an exit, or an operand that is not there.
-/

set_option autoImplicit false

namespace KRover

open Segments

namespace SymExecutor

/-! ## Moving -/

/-- `process_lea`. -/
def processLea (vm : VMState) (vecOI : List OprndInfo) : Option VMState := do
  let oidst ← vecOI[0]?
  let oisrc ← vecOI[1]?
  if oisrc.symb then
    let e ← oisrc.getSymValue
    oidst.setSymValue vm e
  else if oidst.symb then
    let val ← oisrc.getConValue
    oidst.setConValue vm val
  else none

/-- `process_mov`, which parses the operands again, as cell lists. -/
def processMov (vm : VMState) (I : Instruction) : Option VMState := do
  let (vecOI, vm) ← vm.parseOperands true I
  let oidst ← vecOI[0]?
  let oisrc ← vecOI[1]?
  if oisrc.symb then
    let (cellList, val) ← oisrc.getSymList
    oidst.setSymList vm cellList val
  else if oidst.symb then
    let val ← oisrc.getConValue
    oidst.setConValue vm val
  else none

/-- `process_cmovxx`. `domov` is always true. -/
def processCmovxx (vm : VMState) (vecOI : List OprndInfo) : Option VMState := do
  let oidst ← vecOI[0]?
  let oisrc ← vecOI[1]?
  if oisrc.symb then
    let e ← oisrc.getSymValue
    oidst.setSymValue vm e
  else
    let val ← oisrc.getConValue
    oidst.setConValue vm val

/-- `process_xchg`. -/
def processXchg (vm : VMState) (vecOI : List OprndInfo) : Option VMState := do
  let oisrc1 ← vecOI[0]?
  let oisrc2 ← vecOI[1]?
  if oisrc1.symb && oisrc2.symb then
    let e1 ← oisrc1.getSymValue
    let e2 ← oisrc2.getSymValue
    let vm ← oisrc1.setSymValue vm e2
    oisrc2.setSymValue vm e1
  else if oisrc1.symb then
    let e1 ← oisrc1.getSymValue
    let v2 ← oisrc2.getConValue
    let vm ← oisrc1.setConValue vm v2
    oisrc2.setSymValue vm e1
  else if oisrc2.symb then
    let e2 ← oisrc2.getSymValue
    let v1 ← oisrc1.getConValue
    let vm ← oisrc1.setSymValue vm e2
    oisrc2.setConValue vm v1
  else none

/-- `process_set`: the operand becomes 1. -/
def processSet (vm : VMState) (vecOI : List OprndInfo) : Option VMState := do
  let oidst ← vecOI[0]?
  oidst.setConValue vm 1

/-! ## Widening -/

/-- `process_movsx` and `process_movzx`, which differ in the class of the node
they build. A concrete value is taken over as it is. -/
def processExtend (k : UryKind) (vm : VMState) (vecOI : List OprndInfo) : Option VMState := do
  let oidst ← vecOI[0]?
  let oisrc ← vecOI[1]?
  if oisrc.symb then
    let e ← oisrc.getSymValue
    oidst.setSymValue vm (Expr.uryExpr k e)
  else if oidst.symb then
    let val ← oisrc.getConValue
    oidst.setConValue vm val
  else none

/-- `process_movsx`. -/
def processMovsx := processExtend .signExt

/-- `process_movzx`. -/
def processMovzx := processExtend .zeroExt

/-- The lower half of the accumulator of a size in bytes: its part and its own
size. -/
def lowerHalf : Nat → Option (SubIndex × Nat)
  | 2 => some (.l, 1)
  | 4 => some (.w, 2)
  | 8 => some (.d, 4)
  | _ => none

/-- The part of the accumulator of a size in bytes. -/
def accumulator : Nat → SubIndex
  | 2 => .w
  | 4 => .d
  | _ => .full

/-- `process_cbw`. The lower half decides whether the result is symbolic; the
node is built of the whole accumulator. -/
def processCbw (vm : VMState) (vecOI : List OprndInfo) : Option VMState := do
  let oisrc ← vecOI[0]?
  if oisrc.symb then
    let e ← oisrc.getSymValue
    let (sub, size) ← lowerHalf oisrc.size
    let (rv, vm) ← vm.readRegisterExpr ⟨.rax, sub⟩ size
    if rv.bsym then oisrc.setSymValue vm (.ury .signExt e oisrc.size)
    else
      let v := (rv.i64.setWidth (8 * size)).signExtend 64
      asserted (vm.writeRegister
        ⟨⟨.rax, accumulator oisrc.size⟩, oisrc.size, false, false, v, .null, []⟩)
  else none

/-- `process_cdq`. -/
def processCdq (vm : VMState) (vecOI : List OprndInfo) : Option VMState := do
  let oD ← vecOI[0]?
  let oA ← vecOI[1]?
  if oA.symb then
    let eA ← oA.getSymValue
    let eR := Expr.ury .signExt eA (oA.size * 2)
    oD.setSymValue vm (.extract eR oA.size (oA.size * 2 : Nat) oD.size)
  else
    let vA ← oA.getConValue
    oD.setConValue vm (if 0 ≤ vA.toInt then 0 else -1)

/-! ## Arithmetic and logic -/

/-- The expression that a two-operand handler builds, a concrete operand taken
as a literal of the given size. -/
def operate (k : BinKind) (oisrc1 oisrc2 : OprndInfo) (size1 size2 : Nat) : Option Expr :=
  if oisrc1.symb && oisrc2.symb then do
    let e1 ← oisrc1.getSymValue
    let e2 ← oisrc2.getSymValue
    return Expr.binExpr k e1 e2
  else if oisrc1.symb then do
    let e1 ← oisrc1.getSymValue
    let v2 ← oisrc2.getConValue
    return Expr.binExpr k e1 (Expr.constExpr v2 size2)
  else if oisrc2.symb then do
    let e2 ← oisrc2.getSymValue
    let v1 ← oisrc1.getConValue
    return Expr.binExpr k (Expr.constExpr v1 size1) e2
  else none

/-- The handlers that put the result into the first operand. -/
def processBinary (k : BinKind) (id : EntryID) (vm : VMState) (vecOI : List OprndInfo) :
    Option VMState := do
  let oisrc1 ← vecOI[0]?
  let oisrc2 ← vecOI[1]?
  let oe ← operate k oisrc1 oisrc2 oisrc1.size oisrc2.size
  let vm ← oisrc1.setSymValue vm oe
  asserted (some (vm.saveFlagChangingInstructionExpr id oe))

/-- `process_add`. The result of the last call is not asserted, but it is
true. -/
def processAdd := processBinary .add .add

/-- `process_sub`. -/
def processSub := processBinary .sub .sub

/-- `process_and`. -/
def processAnd := processBinary .and .and

/-- `process_or`. -/
def processOr := processBinary .or .or

/-- `process_xor`. -/
def processXor := processBinary .xor .xor

/-- `process_test`, which keeps the expression for the flags only. -/
def processTest (vm : VMState) (vecOI : List OprndInfo) : Option VMState := do
  let oisrc1 ← vecOI[0]?
  let oisrc2 ← vecOI[1]?
  let oe ← operate .and oisrc1 oisrc2 oisrc1.size oisrc2.size
  return (vm.saveFlagChangingInstructionExpr .test oe).2

/-- `process_cmp`. A literal takes the size of the symbolic operand. -/
def processCmp (vm : VMState) (vecOI : List OprndInfo) : Option VMState := do
  let oisrc1 ← vecOI[0]?
  let oisrc2 ← vecOI[1]?
  let oe ← operate .sub oisrc1 oisrc2 oisrc2.size oisrc1.size
  asserted (some (vm.saveFlagChangingInstructionExpr .cmp oe))

/-- `process_not`. The last assertion fails: `e_not` changes no flags. -/
def processNot (vm : VMState) (vecOI : List OprndInfo) : Option VMState := do
  let oisrc1 ← vecOI[0]?
  if oisrc1.symb then
    let e1 ← oisrc1.getSymValue
    let oe := Expr.uryExpr .not e1
    let vm ← oisrc1.setSymValue vm oe
    asserted (some (vm.saveFlagChangingInstructionExpr .not oe))
  else none

/-- `process_neg`. -/
def processNeg (vm : VMState) (vecOI : List OprndInfo) : Option VMState := do
  let oisrc1 ← vecOI[0]?
  if oisrc1.symb then
    let e1 ← oisrc1.getSymValue
    let oe := Expr.uryExpr .neg e1
    let vm ← oisrc1.setSymValue vm oe
    asserted (some (vm.saveFlagChangingInstructionExpr .neg oe))
  else none

/-- The shifts. `count` is the operand that the constant is read from. -/
def processShift (k : BinKind) (id : EntryID) (count : OprndInfo → OprndInfo → OprndInfo)
    (vm : VMState) (vecOI : List OprndInfo) : Option VMState := do
  let oisrc1 ← vecOI[0]?
  let oisrc2 ← vecOI[1]?
  if oisrc1.symb && !oisrc2.symb then
    let e1 ← oisrc1.getSymValue
    let v2 ← (count oisrc1 oisrc2).getConValue
    let oe := Expr.binExpr k e1 (Expr.constExpr v2 oisrc2.size)
    let vm ← oisrc1.setSymValue vm oe
    asserted (some (vm.saveFlagChangingInstructionExpr id oe))
  else none

/-- `process_shl_sal`. -/
def processShlSal := processShift .shl .shl_sal fun _ oisrc2 => oisrc2

/-- `process_shr`. The count is read from the operand that is shifted. -/
def processShr := processShift .lShr .shr fun oisrc1 _ => oisrc1

/-- `process_sar`. The count is read from the operand that is shifted. -/
def processSar := processShift .aShr .sar fun oisrc1 _ => oisrc1

/-- The expression of an operand, a concrete one as a literal of its size. -/
def operandExpr (oi : OprndInfo) : Option Expr :=
  if oi.symb then oi.getSymValue
  else do
    let v ← oi.getConValue
    return Expr.constExpr v oi.size

/-- `process_idiv`. Quotient and remainder are the same expression. -/
def processIdiv (vm : VMState) (vecOI : List OprndInfo) : Option VMState := do
  let oD ← vecOI[0]?
  let oA ← vecOI[1]?
  let oDivisor ← vecOI[2]?
  let eD ← operandExpr oD
  let eA ← operandExpr oA
  let eDividend := Expr.combine eD eA oD.size oA.size (oD.size + oA.size)
  let eDivisor ← operandExpr oDivisor
  let eQuotient := Expr.bin .sDiv eDividend eDivisor oDivisor.size
  let eRemainder := Expr.bin .sDiv eDividend eDivisor oDivisor.size
  let vm ← oA.setSymValue vm eQuotient
  oD.setSymValue vm eRemainder

/-- `SignedTOUnsigned`, through the unsigned type of the size. -/
def signedToUnsigned (v : BitVec 64) (size : Nat) : Option (BitVec 128) :=
  if isAccessSize size then some ((v.setWidth (8 * size)).setWidth 128) else none

/-- The product of two concrete operands. That of `imul` is computed in 64
bits and then extended. -/
def concreteProduct (id : EntryID) (vA vM : BitVec 64) (sizeA sizeM : Nat) :
    Option (BitVec 128) :=
  if id = .mul then do
    let uA ← signedToUnsigned vA sizeA
    let uM ← signedToUnsigned vM sizeM
    return uA * uM
  else some ((vA * vM).signExtend 128)

/-- The expression of the accumulator of `process_mul`. Of a symbolic one it asserts a
result that it has not assigned. -/
def accumulatorExpr (oA : OprndInfo) : Option Expr := if oA.symb then none else operandExpr oA

/-- `process_mul`. -/
def processMul (id : EntryID) (vm : VMState) (vecOI : List OprndInfo) : Option VMState := do
  let oD ← vecOI[0]?
  let oA ← vecOI[1]?
  let oM ← vecOI[2]?
  let eA ← accumulatorExpr oA
  -- the result that is asserted of a concrete multiplier is still that of the accumulator
  let eM ← operandExpr oM
  if !oA.symb && !oM.symb then
    let vA ← oA.getConValue
    let vM ← oM.getConValue
    let vR ← concreteProduct id vA vM oA.size oM.size
    let vrl := (vR &&& BitVec.ofNat 128 (2 ^ (8 * oA.size) - 1)).setWidth 64
    let vrh := (vR >>> (8 * oD.size) &&& BitVec.ofNat 128 (2 ^ (8 * oD.size) - 1)).setWidth 64
    let vm ← oA.setConValue vm vrl
    oD.setConValue vm vrh
  else
    let eR := Expr.bin .mul eA eM oM.size
    let vm ← oA.setSymValue vm (.extract eR 0 oA.size oA.size)
    oD.setSymValue vm (.extract eR oA.size (oA.size * 2 : Nat) oA.size)

/-! ## The stack -/

/-- `process_pop`. -/
def processPop (vm : VMState) (I : Instruction) : Option VMState := do
  let (vecOI, vm) ← vm.parseOperands true I
  let oisrc1 ← vecOI[0]?
  let oisrc2 ← vecOI[1]?
  if oisrc2.symb || oisrc2.size ≠ 8 then none
  else
    let rsp ← oisrc2.regIndex
    let (V, vm) ← vm.readRegisterExpr rsp oisrc2.size
    let (MV, vm) ← asserted (vm.readMemory
      ⟨V.i64.toNat, oisrc1.size, false, true, 0, .null, []⟩)
    let vm ←
      if MV.bsym then oisrc1.setSymList vm MV.symcellPtr MV.i64
      else oisrc1.setConValue vm MV.i64
    asserted (vm.writeRegister { V with i64 := V.i64 + 8 })

/-- `process_push`. -/
def processPush (vm : VMState) (I : Instruction) : Option VMState := do
  let (vecOI, vm) ← vm.parseOperands true I
  let oisrc1 ← vecOI[0]?
  let oisrc2 ← vecOI[1]?
  if oisrc2.symb || oisrc2.size ≠ 8 then none
  else
    let rsp ← oisrc2.regIndex
    let (V, vm) ← vm.readRegisterExpr rsp oisrc2.size
    let V := { V with i64 := V.i64 - 8 }
    let vm ← asserted (vm.writeRegister V)
    if oisrc1.symb then
      let (cellList, v) ← oisrc1.getSymList
      asserted (vm.writeMemory ⟨V.i64.toNat, oisrc1.size, true, true, v, .null, cellList⟩)
    else
      let v ← oisrc1.getConValue
      asserted (vm.writeMemory ⟨V.i64.toNat, oisrc1.size, false, false, v, .null, []⟩)

/-! ## Dispatch -/

/-- The switch of `run`, over the operands that `CThinCtrl` has parsed. A jump
and `rdtsc` do nothing; `shrd` and whatever has no label assert. -/
def process (I : Instruction) (vm : VMState) (vecOI : List OprndInfo) : Option VMState :=
  match I.id with
  | .mov => processMov vm I
  | .movsx | .movslq | .movsxd => processMovsx vm vecOI
  | .movzx => processMovzx vm vecOI
  | .cbw | .cwde | .cwtl => processCbw vm vecOI
  | .cdq | .cwd => processCdq vm vecOI
  | .add => processAdd vm vecOI
  | .sub => processSub vm vecOI
  | .idiv => processIdiv vm vecOI
  | .mul | .imul => processMul I.id vm vecOI
  | .and => processAnd vm vecOI
  | .or => processOr vm vecOI
  | .not => processNot vm vecOI
  | .neg => processNeg vm vecOI
  | .test => processTest vm vecOI
  | .cmovbe | .cmove | .cmovnae | .cmovnb | .cmovnbe | .cmovne | .cmovng | .cmovnge | .cmovnl
  | .cmovno | .cmovns | .cmovo | .cmovpe | .cmovpo | .cmovs => processCmovxx vm vecOI
  | .jbe | .je | .jge | .jl | .jle | .jmp | .jmpq | .jne | .jz | .jnz | .jns | .js => some vm
  | .setb | .setbe | .setl | .setle | .setnb | .setnbe | .setnl | .setnle | .setno | .setnp
  | .setns | .setnz | .seto | .setp | .sets | .setz => processSet vm vecOI
  | .cmp | .cmpw => processCmp vm vecOI
  | .xor => processXor vm vecOI
  | .shl_sal => processShlSal vm vecOI
  | .shr => processShr vm vecOI
  | .sar => processSar vm vecOI
  | .xchg => processXchg vm vecOI
  | .pop => processPop vm I
  | .push => processPush vm I
  | .lea => processLea vm vecOI
  | .rdtsc => some vm
  | _ => none

/-- One instruction handed to the executor: parsed, pushed and run. -/
def exec (vm : VMState) (I : Instruction) : Option VMState := do
  let (vecOI, vm) ← vm.parseOperands false I
  process I vm vecOI

end SymExecutor

end KRover
