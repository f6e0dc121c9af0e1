import KRover.Lib.Bytes
import KRover.Lib.BitRange
import KRover.SymList

/-! # The memory shadow

`SYMemBitmap` and `SYMemState`: a bitmap of the symbolic bytes, kept in
32-byte chunks, beside the symbol list that holds their expressions, over the
concrete memory of the process.

Addresses are `ulong` values: natural numbers below `2^64`, converted to
`int64_t` where the symbol list takes them. `none` is a failed assertion, a
null pointer dereferenced or an uninitialised value read.
-/

set_option autoImplicit false

namespace KRover

open Segments

/-- The conversion of a `ulong` to `int64_t`. -/
def toInt64 (a : Nat) : Int := if a < 2 ^ 63 then a else a - 2 ^ 64

/-- The conversion of an `int64_t` to `ulong`. -/
def toUlong (a : Int) : Nat := (a % 2 ^ 64).toNat

/-! ## `SYMemBitmap` -/

/-- `SYMemChunk`: the bits of 32 bytes, and the chunks right before and behind it that a
marked range has crossed into. A chunk is identified by its aligned address. The two links
are kept as addresses, and a destroyed neighbour is unlinked. -/
structure SYMemChunk where
  bitmap : BitVec 32
  l : Option Nat
  r : Option Nat
deriving Repr

/-- `SYMemBitmap`: the chunks by aligned address. A chunk is there as long as one of its
bits is set. -/
structure SYMemBitmap where
  chunk : Nat → Option SYMemChunk

namespace SYMemBitmap

/-- The bitmap before the first mark: no chunk has a node. -/
def new : SYMemBitmap := ⟨fun _ => none⟩

/-- The node of the chunk at an address, made, changed or removed. -/
def set (B : SYMemBitmap) (a : Nat) (c : Option SYMemChunk) : SYMemBitmap :=
  ⟨Function.update B.chunk a c⟩

/-- `c->l = v` for the chunk at `a`, if there is one. -/
def setL (B : SYMemBitmap) (a : Nat) (v : Option Nat) : SYMemBitmap :=
  B.set a ((B.chunk a).map fun c => { c with l := v })

/-- `c->r = v` for the chunk at `a`, if there is one. -/
def setR (B : SYMemBitmap) (a : Nat) (v : Option Nat) : SYMemBitmap :=
  B.set a ((B.chunk a).map fun c => { c with r := v })

/-- `m_SYMemBitmap.erase(it)`: the destructor of the chunk resets the
neighbours that know it. -/
def erase (B : SYMemBitmap) (a : Nat) (c : SYMemChunk) : SYMemBitmap :=
  let B := B.set a none
  let B := match c.l with
    | some p => B.setR p none
    | none => B
  match c.r with
  | some p => B.setL p none
  | none => B

/-- `_maskSYMemBitmap`: set the bits of a run, in a new chunk if need be. -/
def maskChunk (B : SYMemBitmap) (alignedAddr hcaveSz symbolSize : Nat) : SYMemBitmap :=
  let blk := (B.chunk alignedAddr).getD ⟨0, none, none⟩
  let mm := BitRange.mask 32 hcaveSz symbolSize
  B.set alignedAddr (some { blk with bitmap := blk.bitmap ||| mm })

/-- `_unmaskSYMemBitmap`: clear the bits of a run, and drop an empty chunk. -/
def unmaskChunk (B : SYMemBitmap) (alignedAddr caveSz symbolSize : Nat) : SYMemBitmap :=
  match B.chunk alignedAddr with
  | none => B
  | some blk =>
    let mm := ~~~(BitRange.mask 32 caveSz symbolSize)
    let blk := { blk with bitmap := blk.bitmap &&& mm }
    if blk.bitmap = 0 then B.erase alignedAddr blk else B.set alignedAddr (some blk)

/-- `_testSYMemBitmap`. -/
def testChunk (B : SYMemBitmap) (alignedAddr caveSz symbolSize : Nat) : Bool :=
  match B.chunk alignedAddr with
  | none => false
  | some blk => blk.bitmap &&& BitRange.mask 32 caveSz symbolSize != 0

/-- `markSYMemBitmap`: chunk by chunk, linking each to the next. The first component is the
chunk of `addr`. The sum `align_sz` is a `ulong`. A range over a chunk's end goes on with
the next chunk, and the two are linked to each other. -/
def markSYMemBitmap (B : SYMemBitmap) (addr size : Nat) : Nat × SYMemBitmap :=
  let alignedAddr := addr / 32 * 32
  let hcaveSz := addr - alignedAddr
  if _h : (hcaveSz + size) % 2 ^ 64 > 32 then
    let sz := 32 - hcaveSz
    let B := B.maskChunk alignedAddr hcaveSz sz
    let (r, B) := B.markSYMemBitmap ((alignedAddr + 32) % 2 ^ 64) (size - sz)
    (alignedAddr, (B.setR alignedAddr (some r)).setL r (some alignedAddr))
  else (alignedAddr, B.maskChunk alignedAddr hcaveSz size)
termination_by size
decreasing_by
  have hlt : addr < addr / 32 * 32 + 32 := by omega
  omega

/-- `unmarkSYMemBitmap`, which goes over the chunks as `markSYMemBitmap` does and links
none. -/
def unmarkSYMemBitmap (B : SYMemBitmap) (addr size : Nat) : SYMemBitmap :=
  let alignedAddr := addr / 32 * 32
  let hcaveSz := addr - alignedAddr
  if _h : (hcaveSz + size) % 2 ^ 64 > 32 then
    let sz := 32 - hcaveSz
    let B := B.unmaskChunk alignedAddr hcaveSz sz
    B.unmarkSYMemBitmap ((alignedAddr + 32) % 2 ^ 64) (size - sz)
  else B.unmaskChunk alignedAddr hcaveSz size
termination_by size
decreasing_by
  have hlt : addr < addr / 32 * 32 + 32 := by omega
  omega

/-- `testSYMemBitmap`: is any byte of the range symbolic? A range over the end of a chunk is
tested in both. -/
def testSYMemBitmap (B : SYMemBitmap) (addr size : Nat) : Bool :=
  let alignedAddr := addr / 32 * 32
  let hcaveSz := addr - alignedAddr
  if _h : (hcaveSz + size) % 2 ^ 64 > 32 then
    let sz := 32 - hcaveSz
    let res1 := B.testChunk alignedAddr hcaveSz sz
    let res2 := B.testSYMemBitmap ((alignedAddr + 32) % 2 ^ 64) (size - sz)
    res1 || res2
  else B.testChunk alignedAddr hcaveSz size
termination_by size
decreasing_by
  have hlt : addr < addr / 32 * 32 + 32 := by omega
  omega

end SYMemBitmap

/-! ## Concrete memory -/

/-- `size` bytes of `v` from `address` on, low byte first. -/
def storeBytes (mem : Nat → BitVec 8) (address size : Nat) (v : BitVec 64) : Nat → BitVec 8 :=
  fun b =>
    let i := toUlong ((b : Int) - address)
    if i < size then Bytes.byteOf v.toNat i else mem b

/-- The bytes from `address` on as a number. -/
def loadBytes (mem : Nat → BitVec 8) (address size : Nat) : Nat :=
  Bytes.ofBytes ((List.range size).map fun i => mem ((address + i) % 2 ^ 64))

/-- The lengths that `writeConcreteValue` and `readConcreteValue` accept. -/
def isAccessSize (size : Nat) : Bool := size = 1 || size = 2 || size = 4 || size = 8

/-- `readConcreteValue`: the value is read through a signed type, so it is
extended with its sign. `none` is an unexpected length. -/
def readConcrete (mem : Nat → BitVec 8) (address size : Nat) : Option (BitVec 64) :=
  if isAccessSize size then
    some ((BitVec.ofNat (8 * size) (loadBytes mem address size)).signExtend 64)
  else none

/-! ## `SYMemState` -/

/-- `MemValue`, the union read as `i64`; a list of cells stands for the pointer to its first
cell. The members are those of `RegValue`, with an address in place of a register. -/
structure MemValue where
  addr : Nat
  size : Nat
  bsym : Bool
  isSymList : Bool
  i64 : BitVec 64
  expr : Expr
  symcellPtr : List (Segment Expr)
deriving Repr

/-- `SYMemState` with the memory it shadows. The concrete bytes are the memory of the
process itself, which the engine reads and writes in place. -/
structure SYMemState where
  bitmap : SYMemBitmap
  allSymbolList : SymbolListMap
  concrete : Nat → BitVec 8

namespace SYMemState

/-- The constructor, over the memory of the process. -/
def new (concrete : Nat → BitVec 8) : SYMemState :=
  ⟨SYMemBitmap.new, SymbolListMap.new, concrete⟩

/-- `isSYMemoryCell`. -/
def isSYMemoryCell (st : SYMemState) (addr size : Nat) : Bool :=
  st.bitmap.testSYMemBitmap addr size

/-- `writeConcreteValue`. -/
def writeConcreteValue (st : SYMemState) (addr size : Nat) (v : BitVec 64) :
    Bool × SYMemState :=
  if isAccessSize size then (true, { st with concrete := storeBytes st.concrete addr size v })
  else (false, st)

/-- A symbolic access crosses into the next chunk. Such an access is refused: the call
returns false after it has printed an error. -/
def crossesChunk (addr size : Nat) : Bool := (addr - addr / 32 * 32 + size) % 2 ^ 64 > 32

/-- `assert((addr&0xf)+size<=16)`. -/
def insideHalfChunk (addr size : Nat) : Bool := (addr % 16 + size) % 2 ^ 64 ≤ 16

/-- The loop of `writeSymbolicValue`: mark the bytes of every cell. -/
def markCells (B : SYMemBitmap) : List (Segment Expr) → SYMemBitmap
  | [] => B
  | x :: xs => markCells (B.markSYMemBitmap (toUlong x.addr) x.size).2 xs

/-- `writeSymbolicValue` of a cell list, whose offsets become addresses. The marks of the
whole range are cleared before those of the cells are set, while `Merge` replaces what lies
from the first cell to the last. -/
def writeSymbolicList (st : SYMemState) (addr size : Nat) (symList : List (Segment Expr)) :
    Option (Bool × SYMemState) :=
  if crossesChunk addr size then some (false, st)
  else if insideHalfChunk addr size then do
    let B := st.bitmap.unmarkSYMemBitmap addr size
    let symList := symList.map (Segment.shift (-toInt64 addr))
    let B := markCells B symList
    let m ← st.allSymbolList.mergeList symList
    return (true, { st with bitmap := B, allSymbolList := m })
  else none

/-- `writeSymbolicValue` of an expression. -/
def writeSymbolicExpr (st : SYMemState) (addr size : Nat) (e : Expr) :
    Option (Bool × SYMemState) :=
  if crossesChunk addr size then some (false, st)
  else if insideHalfChunk addr size then do
    let B := (st.bitmap.markSYMemBitmap addr size).2
    let m ← st.allSymbolList.mergeList [⟨toInt64 addr, size, e⟩]
    return (true, { st with bitmap := B, allSymbolList := m })
  else none

/-- `writeMemoryCell`. Of a symbolic value the concrete word is stored first, then come the
marks and the cells. A concrete one takes these away and is stored last. -/
def writeMemoryCell (st : SYMemState) (v : MemValue) : Option (Bool × SYMemState) :=
  if v.bsym then
    let (_, st) := st.writeConcreteValue v.addr v.size v.i64
    if v.isSymList then st.writeSymbolicList v.addr v.size v.symcellPtr
    else st.writeSymbolicExpr v.addr v.size v.expr
  else do
    let B := st.bitmap.unmarkSYMemBitmap v.addr v.size
    let m ← st.allSymbolList.remove (toInt64 v.addr) v.size
    return { st with bitmap := B, allSymbolList := m }.writeConcreteValue v.addr v.size v.i64

/-- `assert(c != NULL)` for the chunk of an address. -/
def hasChunk (st : SYMemState) (addr : Nat) : Bool :=
  (st.bitmap.chunk (addr / 32 * 32)).isSome

/-- `readSymbolicValue` as a cell list. -/
def readSymbolicList (st : SYMemState) (v : MemValue) :
    Option (Bool × MemValue × SYMemState) :=
  if crossesChunk v.addr v.size then some (false, v, st)
  else if st.hasChunk v.addr then do
    let (m, cells) ← st.allSymbolList.cellList (toInt64 v.addr) v.size
    return (true, { v with symcellPtr := cells }, { st with allSymbolList := m })
  else none

/-- `readSymbolicValue` as an expression; the bytes that are not symbolic come
from the concrete value. -/
def readSymbolicExpr (st : SYMemState) (v : MemValue) :
    Option (Bool × MemValue × SYMemState) :=
  if crossesChunk v.addr v.size then some (false, v, st)
  else if st.hasChunk v.addr then do
    let c ← readConcrete st.concrete v.addr v.size
    let (m, e) ← st.allSymbolList.getExpr (toInt64 v.addr) v.size c
    return (true, { v with expr := e }, { st with allSymbolList := m })
  else none

/-- `readMemoryCell`. A range with a marked byte is read through the store, as an expression
or as cells; any other one is read from the memory. -/
def readMemoryCell (st : SYMemState) (v : MemValue) :
    Option (Bool × MemValue × SYMemState) :=
  let c := readConcrete st.concrete v.addr v.size
  let v := { v with bsym := st.bitmap.testSYMemBitmap v.addr v.size, i64 := c.getD v.i64 }
  if v.bsym then
    if v.isSymList then st.readSymbolicList v else st.readSymbolicExpr v
  else some (c.isSome, { v with isSymList := false }, st)

end SYMemState

end KRover
