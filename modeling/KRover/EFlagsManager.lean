import KRover.CPUState

/-! # The flags manager

`EFlagsManager`: which instructions change the flags and which depend on them,
and how a conditional instruction is decided. The switch statements of the
source agree on their labels, so `switchCase` states the labels once and each
function says what it does at them.

`none` is a failed assertion.
-/

set_option autoImplicit false

namespace KRover

/-- The `entryID`s that the engine tells apart, under the names of the
enumerators. `mov` stands for all the labels of `process_mov`, and `other` for
the rest, which no table mentions and every switch rejects. -/
inductive EntryID where
  | jb | ja | jb_jnaej_j | jbe | jge | jcxz_jec | jl | jle | jmp | jmpe | jmpq | je
  | jnb | jnb_jae_j | jne | jnbe | jnl | jnle | jno | jnp | jns | jnz | jo | jp | js | jz
  | jg | jrcxz
  | cmovbe | cmove | cmovnae | cmovnb | cmovnbe | cmovne | cmovng | cmovnge | cmovnl
  | cmovno | cmovns | cmovo | cmovpe | cmovpo | cmovs
  | setb | setbe | setl | setle | setnb | setnbe | setnl | setnle | setno | setnp | setns
  | setnz | seto | setp | sets | setz
  | adc | add | cmp | cmpw | cmpxch | cmpxch8b | and | bsf | bsr | bt | btc | btr | bts
  | dec | decl | div | idiv | imul | inc | neg | or | popcnt | popf | popfq | popfd
  | rdrand | rol | rolb | ror | salc | sar | sarb | sbb | sbbl | scas | scasb | scasd
  | scasw | shl_sal | shld | shr | shrb | shrd | sub | sysret | test | tzcnt | xadd | xor
  | sahf
  | not | mul | xchg | mov | movsx | movsxd | movslq | movzx | cbw | cwde | cwtl | cdq
  | cwd | lea | push | pop | rdtsc | nop
  | other (id : Nat)
deriving DecidableEq, Repr

/-- `stateChangingInstrList`, whose entries have `FLAG_CHANGING_ATTR`. It lists the
instructions whose result a later condition may ask for. -/
def stateChangingInstrList : List EntryID :=
  [.adc, .add, .cmp, .cmpw, .cmpxch, .cmpxch8b, .and, .bsf, .bsr, .bt, .btc, .btr, .bts, .dec,
   .decl, .div, .idiv, .imul, .inc, .neg, .or, .popcnt, .popf, .popfq, .popfd, .rdrand, .rol,
   .rolb, .ror, .salc, .sar, .sarb, .sbb, .sbbl, .scas, .scasb, .scasd, .scasw, .shl_sal, .shld,
   .shr, .shrb, .shrd, .sub, .sysret, .test, .tzcnt, .xadd, .xor, .sahf]

/-- `isFlagChangingInstr`. The executor marks the flags as uncertain behind such an
instruction. -/
def isFlagChangingInstr (id : EntryID) : Bool := id ∈ stateChangingInstrList

/-- `isFlagSettingInstr`: the comparisons, whose result goes into the flags and nowhere
else. -/
def isFlagSettingInstr (id : EntryID) : Bool :=
  id = .cmp || id = .cmpw || id = .test || id = .bt

/-- The conditions of the switch statements, by the suffix that names them in
the comments of the source. -/
inductive CondCase where
  | nb | nbe | be | b | ge | g | le | l | e | ne | ns | s | no | o
deriving DecidableEq, Repr

/-- The labels of the switch statements. Where this is `none` they assert. Two labels at one
case are decided in one way, so a slip in a case concerns them all. -/
def switchCase : EntryID → Option CondCase
  | .jnb | .jnb_jae_j | .cmovnb | .setnb => some .nb
  | .ja | .jnbe | .cmovnbe | .setnbe => some .nbe
  | .jbe | .cmovbe | .setbe => some .be
  | .jb | .jb_jnaej_j | .cmovnae | .setb => some .b
  | .jge | .jnl | .cmovnl | .setnl => some .ge
  | .jnle | .jg | .setnle => some .g
  | .jle | .cmovng | .setle => some .le
  | .jl | .cmovnge | .setl => some .l
  | .je | .jz | .cmove | .setz => some .e
  | .jne | .jnz | .cmovne | .setnz => some .ne
  | .jns | .cmovns | .setns => some .ns
  | .js | .cmovs | .sets => some .s
  | .jno | .cmovno | .setno => some .no
  | .jo | .cmovo | .seto => some .o
  | _ => none

/-- `isConditionalExecuteInstr`: the jumps from `e_jb` to `e_jrcxz` but
`e_jmp`, the conditional moves and sets, and the instructions that take the
carry. -/
def isConditionalExecuteInstr : EntryID → Bool
  | .jb | .ja | .jb_jnaej_j | .jbe | .jge | .jcxz_jec | .jl | .jle | .jmpe | .jmpq | .je
  | .jnb | .jnb_jae_j | .jne | .jnbe | .jnl | .jnle | .jno | .jnp | .jns | .jnz | .jo | .jp
  | .js | .jz | .jg | .jrcxz => true
  | .cmovbe | .cmove | .cmovnae | .cmovnb | .cmovnbe | .cmovne | .cmovng | .cmovnge | .cmovnl
  | .cmovno | .cmovns | .cmovo | .cmovpe | .cmovpo | .cmovs => true
  | .setb | .setbe | .setl | .setle | .setnb | .setnbe | .setnl | .setnle | .setno | .setnp
  | .setns | .setnz | .seto | .setp | .sets | .setz => true
  | .adc | .sbb | .sbbl => true
  | _ => false

/-- Every instruction with a label is a conditional one. -/
theorem isConditionalExecuteInstr_of_switchCase {id : EntryID} {c : CondCase}
    (h : switchCase id = some c) : isConditionalExecuteInstr id = true := by
  cases id <;> first | rfl | exact absurd h (by decide) | exact absurd h (by simp [switchCase])

/-- The state of `EFlagsManager`: the expression of the last flag-changing instruction and
the constraints met so far. Each decision of the solver adds one at the end. -/
structure EFlagsManager where
  lastExpr : Expr
  constraint : List Expr

namespace EFlagsManager

open SYCPUState

/-! ## Fixing and reading flags -/

/-- What `ConcreteFlag` does at a label: it writes the bits of the flags that the outcome
determines. Where the outcome does not tell the flags it does nothing. The marks stay in
either case. -/
def concreteFlagCase (cpu : SYCPUState) (c : CondCase) (bExecute : Bool) : SYCPUState :=
  let fset := FlagStat.set
  let fclr := FlagStat.clear
  match c with
  | .nb => cpu.setFlagBit .cf (if bExecute then fclr else fset)
  | .nbe => if bExecute then (cpu.setFlagBit .cf fclr).setFlagBit .zf fclr else cpu
  | .be => cpu
  | .b => cpu.setFlagBit .cf (if bExecute then fset else fclr)
  | .ge => cpu
  | .g => if bExecute then cpu.setFlagBit .zf fclr else cpu
  | .le => cpu.setFlagBit .zf (if bExecute then fset else fclr)
  | .l => cpu
  | .e => cpu.setFlagBit .zf (if bExecute then fset else fclr)
  | .ne => cpu.setFlagBit .zf (if bExecute then fclr else fset)
  | .ns => cpu.setFlagBit .sf (if bExecute then fclr else fset)
  | .s => cpu.setFlagBit .sf (if bExecute then fset else fclr)
  | .no => cpu.setFlagBit .of (if bExecute then fclr else fset)
  | .o => cpu.setFlagBit .of (if bExecute then fset else fclr)

/-- `ConcreteFlag`. -/
def concreteFlag (cpu : SYCPUState) (instrID : EntryID) (bExecute : Bool) :
    Option (Bool × SYCPUState) :=
  if isConditionalExecuteInstr instrID then
    (switchCase instrID).map fun c => (true, concreteFlagCase cpu c bExecute)
  else some (false, cpu)

/-- The flags that `DependencyFlagConcreted` asks for at a label. -/
def dependencyFlags : CondCase → List Flag
  | .nb | .b => [.cf]
  | .nbe | .be => [.cf, .zf]
  | .ge | .l => [.sf, .of]
  | .g | .le => [.zf, .sf, .of]
  | .e | .ne => [.zf]
  | .ns | .s => [.sf]
  | .no | .o => [.of]

/-- What `DependencyFlagConcreted` makes of definite flags at a label. The code compares
statuses and not bits, and it is only reached when all flags of the case are definite. -/
def decideCase (cpu : SYCPUState) (c : CondCase) : Bool :=
  let cf := cpu.getFlagBit .cf
  let zf := cpu.getFlagBit .zf
  let sf := cpu.getFlagBit .sf
  let of := cpu.getFlagBit .of
  match c with
  | .nb => cf = .clear
  | .nbe => cf = .clear && zf = .clear
  | .be => cf = .set || zf = .set
  | .b => cf = .set
  | .ge => sf = of
  | .g => zf = .clear && sf = of
  -- the comment of the source says "or"
  | .le => zf = .set && sf ≠ of
  | .l => sf ≠ of
  | .e => zf = .set
  | .ne => zf = .clear
  | .ns => sf = .clear
  | .s => sf = .set
  | .no => of = .clear
  | .o => of = .set

/-- `e_sbb` stands at the label of `e_jb` in `DependencyFlagConcreted` and in
`GetCondition`. -/
def switchCaseSbb (id : EntryID) : Option CondCase :=
  if id = .sbb then some .b else switchCase id

/-- `DependencyFlagConcreted`: whether the flags are definite, and `bExecute`, which is left
alone when they are not. -/
def dependencyFlagConcreted (cpu : SYCPUState) (instrID : EntryID) (bExecute : Bool) :
    Option (Bool × Bool) := do
  let c ← switchCaseSbb instrID
  if (dependencyFlags c).all cpu.flagBitDefinited then return (true, decideCase cpu c)
  else return (false, bExecute)

/-! ## Conditions -/

/-- `SaveFlagChangingInstructionExpr`: for an instruction that changes or sets the flags the
expression is kept, and all six flags become uncertain. For any other one the call returns
false. -/
def saveFlagChangingInstructionExpr (mgr : EFlagsManager) (cpu : SYCPUState) (instrID : EntryID)
    (exprPtr : Expr) : Bool × EFlagsManager × SYCPUState :=
  if isFlagChangingInstr instrID || isFlagSettingInstr instrID then
    let cpu := cpu.setFlagBit .zf .uncertain
    let cpu := cpu.setFlagBit .cf .uncertain
    let cpu := cpu.setFlagBit .of .uncertain
    let cpu := cpu.setFlagBit .af .uncertain
    let cpu := cpu.setFlagBit .pf .uncertain
    let cpu := cpu.setFlagBit .sf .uncertain
    (true, { mgr with lastExpr := exprPtr }, cpu)
  else (false, mgr, cpu)

/-- The `exprID` of a label in `GetCondition`. The comparison is of the two operands of the
last expression, or of the whole of it with zero. -/
def conditionExprId : CondCase → ExprId
  | .nb => .bin .uge
  | .nbe => .bin .ugt
  | .be => .bin .ule
  | .b => .bin .ult
  | .ge => .bin .sge
  | .g => .bin .sgt
  | .le => .bin .sle
  | .l => .bin .slt
  | .e => .ury .equal
  | .ne => .ury .distinct
  | .ns => .ury .noSign
  | .s => .ury .sign
  | .no => .ury .noOverflow
  | .o => .ury .overflow

/-- `DoGetCondition`: the condition is made of the last expression, or of its two operands.
-/
def doGetCondition (mgr : EFlagsManager) (exprID : ExprId) : Option Expr :=
  match mgr.lastExpr with
  | .null => none
  | e => createExprByID exprID e e.getExprSize

/-- `GetCondition`; the condition of any other instruction is null. At a label on the sign
or the overflow alone it makes a node whose translation is no condition. -/
def getCondition (mgr : EFlagsManager) (instrID : EntryID) : Option Expr :=
  if isConditionalExecuteInstr instrID then do
    let c ← switchCaseSbb instrID
    mgr.doGetCondition (conditionExprId c)
  else some .null

end EFlagsManager

end KRover
