import KRover.Lib.BitRange
import KRover.SymList

/-! # The register shadow

`SYCPUState`: the concrete registers of `MacReg`, and beside each of them a
bitmap of its symbolic bytes and a symbol list with their expressions. A flag
lives in two places: its bit of `eflags`, and the mark that it is uncertain.

`none` is a failed assertion, a null pointer dereferenced or an undefined
shift.
-/

set_option autoImplicit false

namespace KRover

open Segments

/-! ## Registers -/

/-- `PTREGS_ENCODING`: the words of `MacReg`, which are those of `struct pt_regs` and the
two segment bases. The status flags are no word of their own here: they are bits of `efl`.
-/
inductive PtIdx where
  | r15 | r14 | r13 | r12 | rbp | rbx | r11 | r10 | r9 | r8 | rax | rcx | rdx | rsi | rdi
  | orax | rip | cs | efl | rsp | ss | fs | gs
deriving DecidableEq, Repr

/-- `MacReg`. -/
abbrev MacReg := PtIdx → BitVec 64

/-- What `RegToSubIndex` tells apart: `REG_FULL`, `REG_L`, `REG_H`, `REG_W`
and `REG_D`. -/
inductive SubIndex where
  | full | l | h | w | d
deriving DecidableEq, Repr

/-- A register name: the word it lies in and the part of it. -/
structure MachRegister where
  offt : PtIdx
  sub : SubIndex
deriving DecidableEq, Repr

/-- `DyinstEncoding`: the sizes of the registers the engine knows. It knows no `ah` and its
like, and of `rip`, `flags`, `fs` and `gs` the whole only. `none` stands for the assertion
that fails when a register is looked up. -/
def dyinstEncoding : MachRegister → Option Nat
  | ⟨.orax, _⟩ | ⟨.cs, _⟩ | ⟨.ss, _⟩ | ⟨_, .h⟩ => none
  | ⟨_, .full⟩ => some 8
  | ⟨.rip, _⟩ | ⟨.efl, _⟩ | ⟨.fs, _⟩ | ⟨.gs, _⟩ => none
  | ⟨_, .d⟩ => some 4
  | ⟨_, .w⟩ => some 2
  | ⟨_, .l⟩ => some 1

/-- `reg_mask_bits`: the bytes of the word that a part has. -/
def regMaskBits : SubIndex → BitVec 64
  | .full => 0xff
  | .l => 0x1
  | .h => 0x2
  | .w => 0x3
  | .d => 0xF

/-- `regIdxToAddrSize`. -/
def regIdxToAddrSize : SubIndex → Int × Nat
  | .full => (0, 8)
  | .d => (0, 4)
  | .w => (0, 2)
  | .l => (0, 1)
  | .h => (1, 1)

/-- The status flags `DyinstEncoding` has names for. -/
inductive Flag where
  | cf | pf | af | zf | sf | tf | df | of | rf
deriving DecidableEq, Repr

/-- The low byte of a flag's register number: its bit of `eflags`. -/
def Flag.bit : Flag → Nat
  | .cf => 0
  | .pf => 2
  | .af => 4
  | .zf => 6
  | .sf => 7
  | .tf => 8
  | .df => 10
  | .of => 11
  | .rf => 16

/-- `FLAG_STAT`. -/
inductive FlagStat where
  | clear | set | uncertain
deriving DecidableEq, Repr

/-- `RegValue`, the union read as `i64`; a list of cells stands for the pointer to its first
cell. `bsym` tells an expression or a list from a concrete word, and `isSymList` the list
from the expression. -/
structure RegValue where
  indx : MachRegister
  size : Nat
  bsym : Bool
  isSymList : Bool
  i64 : BitVec 64
  expr : Expr
  symcellPtr : List (Segment Expr)
deriving Repr

/-- Assign the low `w` bits of a word, as through a narrower member of a
union. -/
def assignLow (w : Nat) (u v : BitVec 64) : BitVec 64 :=
  (u >>> w) <<< w ||| (v <<< (64 - w)) >>> (64 - w)

/-! ## `SYCPUState` -/

/-- `SYCPUState`. The arrays are indexed by the word a register lies in; the flags have an
uncertainty mark only. A bit of `symBitmap` marks one byte of a word as symbolic, and the
list of the word holds its cells. -/
structure SYCPUState where
  ptRegs : MacReg
  symBitmap : PtIdx → BitVec 64
  symList : PtIdx → SymbolListMap
  bsymFlag : Flag → Bool

namespace SYCPUState

/-- The constructor. It assigns neither the concrete registers nor the bitmaps: they are
what the memory of the object held. The engine allocates the object with `new`, so nothing
clears that memory. -/
def construct (ptRegs : MacReg) (symBitmap : PtIdx → BitVec 64) : SYCPUState where
  ptRegs := ptRegs
  symBitmap := symBitmap
  symList := fun _ => SymbolListMap.new
  bsymFlag := fun _ => false

/-- The bitmaps of an object whose memory was zero. No code sees to it, and the engine
relies on it: a bit that is left over marks a byte that has no cell. -/
def ZeroBitmap (symBitmap : PtIdx → BitVec 64) : Prop := ∀ i, symBitmap i = 0

/-- The constructor in memory that was zero. -/
def new (ptRegs : MacReg) : SYCPUState := construct ptRegs fun _ => 0

/-- The constructor leaves in the bitmap what was there. -/
@[simp] theorem symBitmap_construct (ptRegs : MacReg) (symBitmap : PtIdx → BitVec 64) :
    (construct ptRegs symBitmap).symBitmap = symBitmap := rfl

/-- Where that was zero the state is the fresh one. -/
theorem construct_eq_new (ptRegs : MacReg) {symBitmap : PtIdx → BitVec 64}
    (hzero : ZeroBitmap symBitmap) : construct ptRegs symBitmap = new ptRegs := by
  rw [new, show symBitmap = fun _ => 0 from funext hzero]

/-- Assign the concrete word of a register. -/
def setWord (st : SYCPUState) (i : PtIdx) (x : BitVec 64) : SYCPUState :=
  { st with ptRegs := Function.update st.ptRegs i x }

/-- Assign the bitmap of a register. -/
def setBitmap (st : SYCPUState) (i : PtIdx) (b : BitVec 64) : SYCPUState :=
  { st with symBitmap := Function.update st.symBitmap i b }

/-- Assign the symbol list of a register. -/
def setSymList (st : SYCPUState) (i : PtIdx) (m : SymbolListMap) : SYCPUState :=
  { st with symList := Function.update st.symList i m }

/-- `setConcreteCPUState`. It copies the words. The bitmaps, the lists and the marks of the
flags stay as they are. -/
def setConcreteCPUState (st : SYCPUState) (regs : MacReg) : SYCPUState :=
  { st with ptRegs := regs }

/-- `readConcreteCPUState`. -/
def readConcreteCPUState (st : SYCPUState) : MacReg := st.ptRegs

/-- `clearAllSymFlag`. It takes the marks off all flags, so that each of them is the bit of
`eflags` again. -/
def clearAllSymFlag (st : SYCPUState) : SYCPUState :=
  { st with bsymFlag := fun _ => false }

/-! ### Registers -/

/-- `isSYReg` of a register that was found. It tests the bytes of the register in the bitmap
of its word. -/
def isSYReg (st : SYCPUState) (r : MachRegister) : Bool :=
  st.symBitmap r.offt &&& regMaskBits r.sub != 0

/-- `isSYReg` of a register number. `idxToReg` asserts that there is such a register. A
number without a register ends the call, and that is `none` here. -/
def isSYRegAt (st : SYCPUState) (r : MachRegister) : Option Bool :=
  (dyinstEncoding r).map fun _ => st.isSYReg r

/-- `setSYReg`. -/
def setSYReg (st : SYCPUState) (r : MachRegister) : SYCPUState :=
  st.setBitmap r.offt (st.symBitmap r.offt ||| regMaskBits r.sub)

/-- `clrSYReg`. -/
def clrSYReg (st : SYCPUState) (r : MachRegister) : SYCPUState :=
  st.setBitmap r.offt (st.symBitmap r.offt &&& ~~~regMaskBits r.sub)

/-- `readConcreteValue`, into a union that holds `u`. The test that tells the
low byte from the high one compares with `L_REG << 8`, which no register
meets, so a register of one byte is read as the second byte of its word. -/
def readConcreteValue (st : SYCPUState) (r : MachRegister) (size : Nat) (u : BitVec 64) :
    BitVec 64 :=
  if size = 1 then assignLow 8 u (st.ptRegs r.offt >>> 8)
  else assignLow (8 * size) u (st.ptRegs r.offt)

/-- `writeConcreteValue`; a register of one byte is written as the second byte of its word.
The rest of the word is left alone, also for a register of four bytes. -/
def writeConcreteValue (st : SYCPUState) (r : MachRegister) (size : Nat) (v : BitVec 64) :
    SYCPUState :=
  let x := st.ptRegs r.offt
  st.setWord r.offt
    (if size = 1 then assignLow 16 x ((x &&& 0xff) ||| ((v <<< 8) &&& 0xff00))
     else assignLow (8 * size) x v)

/-- `readRegister`. The first assertion looks the register up. A register with a marked byte
is read through the list of its word, as an expression or as cells. Any other is read as a
concrete word. -/
def readRegister (st : SYCPUState) (V : RegValue) : Option (Bool × RegValue × SYCPUState) := do
  let size ← dyinstEncoding V.indx
  if size ≠ V.size then none
  else if st.isSYReg V.indx then
    let (addr, size) := regIdxToAddrSize V.indx.sub
    let V := { V with bsym := true, i64 := st.readConcreteValue V.indx V.size V.i64 }
    let i := V.indx.offt
    if V.isSymList then
      let (m, symList) ← (st.symList i).cellList addr size
      return (true, { V with symcellPtr := symList }, st.setSymList i m)
    else
      let (m, e) ← (st.symList i).getExpr addr size V.i64
      return (true, { V with expr := e }, st.setSymList i m)
  else
    let v := st.readConcreteValue V.indx V.size V.i64
    return (true, { V with bsym := false, isSymList := false, i64 := v }, st)

/-- The cells relative to the first one when that one does not start inside a
register. -/
def rebaseCells : List (Segment Expr) → Option (List (Segment Expr))
  | [] => none
  | x :: xs =>
    if toUlongStart x ≥ 8 then some ((x :: xs).map (Segment.shift x.addr)) else some (x :: xs)
where
  /-- The address of a cell read as a `uint64_t`. -/
  toUlongStart (x : Segment Expr) : Nat := (x.addr % 2 ^ 64).toNat

/-- `tmpbitmap`: one bit for each byte of the cells. `1 << i` is an `int`, so
the bytes lie below 31. -/
def cellBits : List (Segment Expr) → Option (BitVec 64)
  | [] => some 0
  | x :: xs => do
    let b ← cellBits xs
    if 0 ≤ x.addr ∧ x.stop ≤ 31 then
      return BitRange.mask 64 x.addr.toNat x.size ||| b
    else none

/-- `writeRegister`. A concrete word clears the bits and removes the cells of the register;
an expression or a list sets bits and is merged into the list of the word. -/
def writeRegister (st : SYCPUState) (V : RegValue) : Option (Bool × SYCPUState) := do
  let size ← dyinstEncoding V.indx
  if size ≠ V.size then none
  else
    let i := V.indx.offt
    let (addr, size) := regIdxToAddrSize V.indx.sub
    if V.bsym then
      let st := st.writeConcreteValue V.indx V.size V.i64
      if V.isSymList then
        let cells ← rebaseCells V.symcellPtr
        let tmpbitmap ← cellBits cells
        let st := st.clrSYReg V.indx
        let st := st.setBitmap i (st.symBitmap i ||| tmpbitmap)
        let m ← (st.symList i).mergeList cells
        return (true, st.setSymList i m)
      else
        let st := st.setSYReg V.indx
        let m ← (st.symList i).mergeList [⟨addr, size, V.expr⟩]
        return (true, st.setSymList i m)
    else
      let st := st.clrSYReg V.indx
      let m ← (st.symList i).remove addr size
      return (true, (st.setSymList i m).writeConcreteValue V.indx V.size V.i64)

/-! ### Flags -/

/-- `getFlagBit`. A marked flag is uncertain, and any other one is its bit of `eflags`. -/
def getFlagBit (st : SYCPUState) (f : Flag) : FlagStat :=
  if st.bsymFlag f then .uncertain
  else if (st.ptRegs .efl).getLsbD f.bit then .set else .clear

/-- `setFlagBit`. An uncertain status sets the mark of the flag; a definite one writes the
bit and leaves the mark as it is. -/
def setFlagBit (st : SYCPUState) (f : Flag) (s : FlagStat) : SYCPUState :=
  match s with
  | .uncertain => { st with bsymFlag := Function.update st.bsymFlag f true }
  | .set => st.setWord .efl (st.ptRegs .efl ||| 1#64 <<< f.bit)
  | .clear => st.setWord .efl (st.ptRegs .efl &&& ~~~(1#64 <<< f.bit))

/-- `FlagBitDefinited`. The mark alone decides, whatever the bit is. -/
def flagBitDefinited (st : SYCPUState) (f : Flag) : Bool := !st.bsymFlag f

end SYCPUState

end KRover
