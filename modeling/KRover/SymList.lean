import Mathlib.Logic.Function.Basic
import KRover.Lib.Segment
import KRover.Expr

/-! # The symbol list of a memory or a register

`Symbol_List_Map`: a doubly linked list of cells, each a range of addresses
that holds an expression, between a header and a tail; and an index `m_sm`
from the low bits of an address to the cell that starts there.

The cells live in a heap of the store's own. A pointer is a number, the null
pointer is `none`, and a new cell takes the next free number, so cells that
were unlinked stay where they are. `none` as the result of an operation is a
null pointer dereferenced or a loop that does not end.
-/

set_option autoImplicit false

namespace KRover

open Segments

/-- `SymCell`: the links, the range and the expression. A cell is on the heap under its
address, so the links are numbers; null is `none`. -/
structure SymCell where
  next : Option Nat
  prev : Option Nat
  addr : Int
  size : Nat
  exprPtr : Expr
deriving Repr

/-- `Symbol_List_Map` with its heap. `m_sl` is written once and never read, so it is left
out. The heap is part of the store, as the list is changed through pointers only: `nextPtr`
is the address that the next `new` gives out, and `sm` is the index from keys to cells. -/
structure SymbolListMap where
  cells : Nat → SymCell
  nextPtr : Nat
  sm : Int → Option Nat
  listheader : Nat
  listtail : Nat

/-- `ADDR_TO_KEY`: the low 59 bits of an address. Addresses that differ by a multiple of
2^59 have one key. On canonical addresses it still tells any two apart. -/
def addrToKey (a : Int) : Int := a % 2 ^ 59

namespace SymbolListMap

/-! ## The heap -/

/-- `next` of a cell, null at the end of the list. -/
def next (m : SymbolListMap) (p : Nat) : Option Nat := (m.cells p).next

/-- `prev` of a cell, null at the header. -/
def prev (m : SymbolListMap) (p : Nat) : Option Nat := (m.cells p).prev

/-- What a cell says, its links apart. -/
def seg (m : SymbolListMap) (p : Nat) : Segment Expr :=
  ⟨(m.cells p).addr, (m.cells p).size, (m.cells p).exprPtr⟩

/-- Overwrite a cell of the heap. -/
def set (m : SymbolListMap) (p : Nat) (c : SymCell) : SymbolListMap :=
  { m with cells := Function.update m.cells p c }

/-- `p->next = v`. -/
def setNext (m : SymbolListMap) (p : Nat) (v : Option Nat) : SymbolListMap :=
  m.set p { m.cells p with next := v }

/-- `p->prev = v`. -/
def setPrev (m : SymbolListMap) (p : Nat) (v : Option Nat) : SymbolListMap :=
  m.set p { m.cells p with prev := v }

/-- Assign `addr`, `size` and `exprPtr` of a cell. -/
def setSeg (m : SymbolListMap) (p : Nat) (x : Segment Expr) : SymbolListMap :=
  m.set p { m.cells p with addr := x.addr, size := x.size, exprPtr := x.val }

/-- `new SymCell(addr, size, expr)`: both links are null. -/
def alloc (m : SymbolListMap) (x : Segment Expr) : Nat × SymbolListMap :=
  (m.nextPtr,
    { m.set m.nextPtr ⟨none, none, x.addr, x.size, x.val⟩ with nextPtr := m.nextPtr + 1 })

/-- `m_sm[ADDR_TO_KEY(p->addr)] = p`. -/
def index (m : SymbolListMap) (p : Nat) : SymbolListMap :=
  { m with sm := Function.update m.sm (addrToKey (m.seg p).addr) (some p) }

/-- `m_sm.erase(ADDR_TO_KEY(p->addr))`. -/
def unindex (m : SymbolListMap) (p : Nat) : SymbolListMap :=
  { m with sm := Function.update m.sm (addrToKey (m.seg p).addr) none }

/-- The constructor: header and tail linked to each other, the header indexed
under `-1`. -/
def new : SymbolListMap where
  cells := fun p =>
    if p = 0 then ⟨some 1, none, -2 ^ 60, 0, .null⟩
    else ⟨none, some 0, 2 ^ 59 - 1, 0, .null⟩
  nextPtr := 2
  sm := fun k =>
    if k = addrToKey (2 ^ 59 - 1) then some 1 else if k = -1 then some 0 else none
  listheader := 0
  listtail := 1

/-! ## Finding the cells at the edges of a range -/

/-- One turn of the search for `insertAfter`. It looks at the cell behind `ia` and stops
before the first one that does not start below the range. -/
def seekAfter (m : SymbolListMap) (headerStart : Int) (p : Nat) : Option (Nat × Bool) := do
  let n ← m.next p
  if (m.seg p).addr < headerStart ∧ headerStart ≤ (m.seg n).addr then some (p, true)
  else some (n, false)

/-- One turn of the search for `insertBefore`. It looks at the cell behind `ib` and stops at
the first one that ends behind the range. -/
def seekBefore (m : SymbolListMap) (tailEnd : Int) (p : Nat) : Option (Nat × Bool) := do
  let n ← m.next p
  if (m.seg p).stop ≤ tailEnd ∧ tailEnd < (m.seg n).stop then some (n, true)
  else some (n, false)

/-- The loop of `GetAffectedCells`: both searches advance in step until both have found
their cell. The source has no bound on it; the fuel is the number of cells ever made, which
no walk along the list exceeds. -/
def affectedLoop (m : SymbolListMap) (headerStart tailEnd : Int) :
    Nat → Nat → Bool → Nat → Bool → Option (Nat × Nat)
  | 0, _, _, _, _ => none
  | fuel + 1, insertAfter, afterFound, insertBefore, beforeFound => do
    let (insertAfter, afterFound) ←
      if afterFound then some (insertAfter, true) else m.seekAfter headerStart insertAfter
    let (insertBefore, beforeFound) ←
      if beforeFound then some (insertBefore, true) else m.seekBefore tailEnd insertBefore
    if afterFound && beforeFound then some (insertAfter, insertBefore)
    else m.affectedLoop headerStart tailEnd fuel insertAfter afterFound insertBefore beforeFound

/-- Where `GetAffectedCells` starts: when a cell begins exactly at the range,
its predecessor is `insertAfter`, found at once; otherwise both searches begin
at the header. -/
def affectedStart (m : SymbolListMap) (headerStart : Int) : Option (Nat × Bool) :=
  match m.sm (addrToKey headerStart) with
  | some it => (m.prev it).map fun insertAfter => (insertAfter, true)
  | none => some (m.listheader, false)

/-- `GetAffectedCells`. The result is the pair of edges: the last cell that starts below the
range and the first one that ends behind it. They are one cell if that reaches over the
whole range. -/
def getAffectedCells (m : SymbolListMap) (headerStart tailEnd : Int) : Option (Nat × Nat) := do
  let (start, found) ← m.affectedStart headerStart
  m.affectedLoop headerStart tailEnd m.nextPtr start found start false

/-! ## Splitting the cells at the edges -/

/-- `if (c != NULL) c->prev = p`. -/
def setPrevOf (m : SymbolListMap) (c : Option Nat) (p : Nat) : SymbolListMap :=
  match c with
  | some c => m.setPrev c (some p)
  | none => m

/-- `if (c != NULL) c->next = p`. -/
def setNextOf (m : SymbolListMap) (c : Option Nat) (p : Nat) : SymbolListMap :=
  match c with
  | some c => m.setNext c (some p)
  | none => m

/-- `SplitCell3`: a cell that reaches over both edges becomes three. The second component is
the new `insertBefore`. The middle and the upper part are new cells, which are entered in
the index unless `read` says that the cells are copies. -/
def splitCell3 (m : SymbolListMap) (insertAfter : Nat) (headerStart tailEnd : Int)
    (read : Bool) : SymbolListMap × Nat :=
  let c := m.seg insertAfter
  let p1a := c.addr
  let p1s := headerStart - c.addr
  let p3a := tailEnd
  let p3s := c.addr + c.size - tailEnd
  let p2a := p1a + p1s
  let p2s := p3a - p2a
  let e1 := Expr.extractExpr c.val 0 p1s
  let e3 := Expr.extractExpr c.val (p3a - p1a) ((p3a - p1a) + p3s)
  let e2 := Expr.extractExpr c.val (p2a - p1a) ((p2a - p1a) + p2s)
  let (p3, m) := m.alloc ⟨p3a, p3s.toNat, e3⟩
  let (p2, m) := m.alloc ⟨p2a, p2s.toNat, e2⟩
  let m := m.setSeg insertAfter ⟨p1a, p1s.toNat, e1⟩
  let m := m.setPrev p2 (some insertAfter)
  let m := m.setNext p2 (some p3)
  let m := m.setPrevOf (m.next insertAfter) p3
  let m := m.setNext p3 (m.next insertAfter)
  let m := m.setPrev p3 (some p2)
  let m := m.setNext insertAfter (some p2)
  let m := if read then m else ((m.index p3).index p2).index insertAfter
  (m, p3)

/-- `SeplitCell_Head`: the cell at the lower edge becomes two. The part from the start of
the range on is a new cell behind it. -/
def seplitCellHead (m : SymbolListMap) (insertAfter : Nat) (headerStart : Int)
    (read : Bool) : SymbolListMap :=
  let c := m.seg insertAfter
  let p1a := c.addr
  let p2a := headerStart
  let p1s := headerStart - c.addr
  let p2s := c.addr + c.size - headerStart
  let e1 := Expr.extractExpr c.val 0 p1s
  let e2 := Expr.extractExpr c.val (p2a - p1a) ((p2a - p1a) + p2s)
  let (p2, m) := m.alloc ⟨p2a, p2s.toNat, e2⟩
  let m := m.setSeg insertAfter ⟨p1a, p1s.toNat, e1⟩
  let m := m.setNext p2 (m.next insertAfter)
  let m := m.setPrevOf (m.next insertAfter) p2
  let m := m.setPrev p2 (some insertAfter)
  let m := m.setNext insertAfter (some p2)
  if read then m else (m.index p2).index insertAfter

/-- `SeplitCell_Tail`: the cell at the upper edge becomes two; the new cell
is the lower one. -/
def seplitCellTail (m : SymbolListMap) (insertBefore : Nat) (tailEnd : Int)
    (read : Bool) : SymbolListMap :=
  let c := m.seg insertBefore
  let p2a := tailEnd
  let p1a := c.addr
  let p2s := c.addr + c.size - tailEnd
  let p1s := tailEnd - c.addr
  let e2 := Expr.extractExpr c.val (tailEnd - c.addr) ((tailEnd - c.addr) + p2s)
  let e1 := Expr.extractExpr c.val 0 p1s
  let (p1, m) := m.alloc ⟨p1a, p1s.toNat, e1⟩
  let m := m.setSeg insertBefore ⟨p2a, p2s.toNat, e2⟩
  let m := m.setNextOf (m.prev insertBefore) p1
  let m := m.setNext p1 (some insertBefore)
  let m := m.setPrev p1 (m.prev insertBefore)
  let m := m.setPrev insertBefore (some p1)
  if read then m else (m.index insertBefore).index p1

/-- `Split_Head_Tail`. The cells at the two edges are cut where the range cuts them. If the
edges are one cell it becomes three, and otherwise each of them is looked at. -/
def splitHeadTail (m : SymbolListMap) (insertAfter insertBefore : Nat)
    (headerStart tailEnd : Int) (read : Bool) : SymbolListMap × Nat :=
  if insertAfter = insertBefore then
    if (m.seg insertAfter).stop ≥ tailEnd then
      m.splitCell3 insertAfter headerStart tailEnd read
    else (m, insertBefore)
  else
    let m :=
      if (m.seg insertAfter).stop > headerStart then
        m.seplitCellHead insertAfter headerStart read
      else m
    let m :=
      if (m.seg insertBefore).addr < tailEnd then m.seplitCellTail insertBefore tailEnd read
      else m
    (m, insertBefore)

/-! ## Unlinking and linking -/

/-- The loop of `Remove`: drop the index entries of the cells from `tmp` up to
`insertBefore`. The cells themselves stay on the heap, as no one refers to them any more. -/
def unindexUntil (insertBefore : Nat) : Nat → SymbolListMap → Option Nat → Option SymbolListMap
  | 0, _, _ => none
  | fuel + 1, m, tmp => do
    let tmp ← tmp
    if tmp = insertBefore then some m
    else unindexUntil insertBefore fuel (m.unindex tmp) (m.next tmp)

/-- `Remove(insertAfter, insertBefore)`: take out everything between. The index entries of
the cells go first, then the two edges are linked to each other. -/
def removeBetween (m : SymbolListMap) (insertAfter insertBefore : Nat) :
    Option SymbolListMap := do
  let m ← unindexUntil insertBefore (m.nextPtr + 1) m (m.next insertAfter)
  let m := m.setNext insertAfter (some insertBefore)
  return m.setPrev insertBefore (some insertAfter)

/-- `Remove(addr, size)`. It finds the edges of the range, cuts them and takes out what is
between. -/
def remove (m : SymbolListMap) (addr : Int) (size : Nat) : Option SymbolListMap := do
  let (insertAfter, insertBefore) ← m.getAffectedCells addr (addr + size)
  let (m, insertBefore) := m.splitHeadTail insertAfter insertBefore addr (addr + size) false
  m.removeBetween insertAfter insertBefore

/-- The last cell that `next` leads to. -/
def lastFrom (m : SymbolListMap) : Nat → Nat → Option Nat
  | 0, _ => none
  | fuel + 1, t =>
    match m.next t with
    | some n => m.lastFrom fuel n
    | none => some t

/-- The loop that indexes the cells from `h` to `t`. It follows `next`, so the list must be
linked already. -/
def indexUntil (t : Nat) : Nat → SymbolListMap → Nat → Option SymbolListMap
  | 0, _, _ => none
  | fuel + 1, m, h =>
    let m := m.index h
    if h = t then some m
    else do
      let n ← m.next h
      indexUntil t fuel m n

/-- `Merge`: replace the range from the first to the last cell of the source list by the
source list. The range is cut out as by `Remove`, the list is linked in between the edges,
and its cells are entered in the index. A gap of the list is left uncovered. -/
def merge (m : SymbolListMap) (srcList : Nat) : Option SymbolListMap := do
  let h := srcList
  let t ← m.lastFrom (m.nextPtr + 1) h
  let headerStart := (m.seg h).addr
  let tailEnd := (m.seg t).stop
  let (insertAfter, insertBefore) ← m.getAffectedCells headerStart tailEnd
  let (m, insertBefore) := m.splitHeadTail insertAfter insertBefore headerStart tailEnd false
  let m ← m.removeBetween insertAfter insertBefore
  let m := m.setNext insertAfter (some h)
  let m := m.setPrev h (some insertAfter)
  let m := m.setPrev insertBefore (some t)
  let m := m.setNext t (some insertBefore)
  indexUntil t (m.nextPtr + 1) m h

/-! ## Reading -/

/-- The loop of `CreateSymbolList`: copy the cells from `it` back to `after`,
each copy in front of the one made before. -/
def copyBack (after : Nat) : Nat → SymbolListMap → Nat → Option Nat → Option (SymbolListMap × Nat)
  | 0, _, _, _ => none
  | fuel + 1, m, it, tmp =>
    let (newCell, m) := m.alloc (m.seg it)
    let m := m.setNext newCell tmp
    let m := m.setPrevOf tmp newCell
    if it = after then some (m, newCell)
    else do
      let p ← m.prev it
      copyBack after fuel m p (some newCell)

/-- `CreateSymbolList`: copies of the cells from `after` to `before`. The copies are linked
to each other and to nothing else. They are not in the index. -/
def createSymbolList (m : SymbolListMap) (after before : Nat) :
    Option (SymbolListMap × Nat × Nat) := do
  let (m, after) ← copyBack after (m.nextPtr + 1) m before none
  let before ← m.lastFrom (m.nextPtr + 1) after
  return (m, after, before)

/-- The last loop of `GetCellList`: make the addresses relative. -/
def rebase (addr : Int) : Nat → SymbolListMap → Option Nat → Option SymbolListMap
  | 0, _, _ => none
  | _ + 1, m, none => some m
  | fuel + 1, m, some tmp =>
    let m := m.setSeg tmp ((m.seg tmp).shift addr)
    rebase addr fuel m (m.next tmp)

/-- `GetCellList`: copies of the cells in the range, those at the edges cut,
with addresses relative to the range. On a range that no cell covers the
source dereferences a null pointer. -/
def getCellList (m : SymbolListMap) (addr : Int) (size : Nat) :
    Option (SymbolListMap × Option Nat) := do
  let (after, before) ← m.getAffectedCells addr (addr + size)
  let (m, after, before) ← m.createSymbolList after before
  let (m, before) := m.splitHeadTail after before addr (addr + size) true
  let m := m.setNext (← m.prev before) none
  let cellList := m.next after
  let m := m.setPrev (← m.next after) none
  let m ← rebase addr (m.nextPtr + 1) m cellList
  return (m, cellList)

/-- The cells that a pointer leads to, read off the heap. -/
def readList (m : SymbolListMap) : Nat → Option Nat → List (Segment Expr)
  | 0, _ => []
  | _ + 1, none => []
  | fuel + 1, some p => m.seg p :: m.readList fuel (m.next p)

/-- `GetCellList` with the list read off the heap. -/
def cellList (m : SymbolListMap) (addr : Int) (size : Nat) :
    Option (SymbolListMap × List (Segment Expr)) := do
  let (m, p) ← m.getCellList addr size
  return (m, m.readList (m.nextPtr + 1) p)

/-- A list of fresh cells, linked in order: the form in which a caller hands
a list to `Merge`. -/
def allocList (m : SymbolListMap) : List (Segment Expr) → SymbolListMap × Option Nat
  | [] => (m, none)
  | x :: xs =>
    let (m, q) := m.allocList xs
    let (p, m) := m.alloc x
    let m := m.setNext p q
    (m.setPrevOf q p, some p)

/-- `Merge` of a fresh copy of `src`; an empty list is a null pointer. The caller has made
the cells for this call, so none of them is in the store. -/
def mergeList (m : SymbolListMap) (src : List (Segment Expr)) : Option SymbolListMap := do
  let (m, p) := m.allocList src
  m.merge (← p)

/-! ## `GetExpr` -/

/-- `c_val[i]` as a one-byte literal. -/
def constByte (concreteV : BitVec 64) (i : Nat) : Expr :=
  Expr.constExpr ((concreteV >>> (8 * i)) &&& 0xff) 1

/-- A `while (next_addr < limit)` loop of `GetExpr`: one literal for each
byte that no cell covers. -/
def padBytes (concreteV : BitVec 64) (nextAddr limit : Nat) : List (Segment Expr) :=
  (List.range' nextAddr (limit - nextAddr)).map fun (i : Nat) => ⟨i, 1, constByte concreteV i⟩

/-- The loops of `GetExpr`: the pieces of the range in the order of their offsets, cells and
literals. The bytes before, between and behind the cells come from the concrete value, one
literal for each. -/
def exprPieces (concreteV : BitVec 64) (size : Nat) : List (Segment Expr) → Nat →
    List (Segment Expr)
  | [], nextAddr => padBytes concreteV nextAddr size
  | x :: xs, nextAddr =>
    padBytes concreteV nextAddr x.addr.toNat
      ++ x :: exprPieces concreteV size xs (x.addr.toNat + x.size)

/-- The expression `GetExpr` makes of a cell list: a `CombineMultiExpr` of the pieces, or
the expression of the one cell if there is no second piece. -/
def exprOfCells (concreteV : BitVec 64) (size : Nat) (cells : List (Segment Expr)) :
    Option Expr :=
  let pieces := exprPieces concreteV size cells 0
  if pieces.length > 1 then
    some (Expr.combineMultiExpr (pieces.map (·.val)) (pieces.map (·.addr.toNat))
      (pieces.map (·.size)) size)
  else cells.head?.map (·.val)

/-- `GetExpr`. The pieces of the range are put together in the order of their offsets, the
lowest one first, which `CombineMultiExpr` takes for the highest. -/
def getExpr (m : SymbolListMap) (addr : Int) (size : Nat) (concreteV : BitVec 64) :
    Option (SymbolListMap × Expr) := do
  let (m, cells) ← m.cellList addr size
  let e ← exprOfCells concreteV size cells
  return (m, e)

end SymbolListMap

end KRover
