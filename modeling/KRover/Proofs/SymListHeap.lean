import KRover.SymList
import KRover.Lib.DoublyLinked

/-! # Heap lemmas of the symbol list

What each primitive write does to the links, the contents and the index; then
the same for the three kinds of split. From here on nothing looks at
`SymCell` records: a heap is seen through `next`, `prev`, `seg` and `sm`.
-/

set_option autoImplicit false

namespace KRover.SymbolListMap

open Segments DoublyLinked

/-- The two sentinels. No operation moves them. -/
def ends (m : SymbolListMap) : Nat × Nat := (m.listheader, m.listtail)

variable (m : SymbolListMap) (p : Nat) (v : Option Nat) (x : Segment Expr)

/-! ## Primitive writes -/

/-- A write of a next pointer shows at `p` and at no other cell. -/
@[simp] theorem next_setNext : (m.setNext p v).next = Function.update m.next p v := by
  funext y
  by_cases h : y = p
  · subst h
    simp [next, setNext, set]
  · simp [next, setNext, set, h]

/-- The two directions are written apart: `next` leaves `prev` alone. -/
@[simp] theorem prev_setNext : (m.setNext p v).prev = m.prev := by
  funext y
  by_cases h : y = p
  · subst h
    simp [prev, setNext, set]
  · simp [prev, setNext, set, h]

/-- Relinking moves no cell: its range and its expression stay. -/
@[simp] theorem seg_setNext : (m.setNext p v).seg = m.seg := by
  funext y
  by_cases h : y = p
  · subst h
    simp [seg, setNext, set]
  · simp [seg, setNext, set, h]

/-- The mirror image of `prev_setNext`. -/
@[simp] theorem next_setPrev : (m.setPrev p v).next = m.next := by
  funext y
  by_cases h : y = p
  · subst h
    simp [next, setPrev, set]
  · simp [next, setPrev, set, h]

/-- A write of a previous pointer shows at `p` and at no other cell. -/
@[simp] theorem prev_setPrev : (m.setPrev p v).prev = Function.update m.prev p v := by
  funext y
  by_cases h : y = p
  · subst h
    simp [prev, setPrev, set]
  · simp [prev, setPrev, set, h]

/-- Relinking moves no cell, in this direction either. -/
@[simp] theorem seg_setPrev : (m.setPrev p v).seg = m.seg := by
  funext y
  by_cases h : y = p
  · subst h
    simp [seg, setPrev, set]
  · simp [seg, setPrev, set, h]

/-- A cell that is cut or moved keeps its place in the list. -/
@[simp] theorem next_setSeg : (m.setSeg p x).next = m.next := by
  funext y
  by_cases h : y = p
  · subst h
    simp [next, setSeg, set]
  · simp [next, setSeg, set, h]

/-- The same for the way back. -/
@[simp] theorem prev_setSeg : (m.setSeg p x).prev = m.prev := by
  funext y
  by_cases h : y = p
  · subst h
    simp [prev, setSeg, set]
  · simp [prev, setSeg, set, h]

/-- A write of a range and its expression shows at `p` only. -/
@[simp] theorem seg_setSeg : (m.setSeg p x).seg = Function.update m.seg p x := by
  funext y
  by_cases h : y = p
  · subst h
    simp [seg, setSeg, set]
  · simp [seg, setSeg, set, h]

/-- A new cell gets the next pointer that was never handed out. -/
@[simp] theorem alloc_fst : (m.alloc x).1 = m.nextPtr := rfl

/-- The new cell is linked to nothing yet. -/
@[simp] theorem next_alloc : (m.alloc x).2.next = Function.update m.next m.nextPtr none := by
  funext y
  by_cases h : y = m.nextPtr
  · subst h
    simp [next, alloc, set]
  · simp [next, alloc, set, h]

/-- Nor is anything linked to the new cell. -/
@[simp] theorem prev_alloc : (m.alloc x).2.prev = Function.update m.prev m.nextPtr none := by
  funext y
  by_cases h : y = m.nextPtr
  · subst h
    simp [prev, alloc, set]
  · simp [prev, alloc, set, h]

/-- The new cell has the range it was made with. -/
@[simp] theorem seg_alloc : (m.alloc x).2.seg = Function.update m.seg m.nextPtr x := by
  funext y
  by_cases h : y = m.nextPtr
  · subst h
    simp [seg, alloc, set]
  · simp [seg, alloc, set, h]

/-- Pointers are handed out in order and never again, so a cell that is older than the
allocation is below the bound and differs from the new one. -/
@[simp] theorem nextPtr_alloc : (m.alloc x).2.nextPtr = m.nextPtr + 1 := rfl

/-- Only an allocation hands out a pointer; a write does not. -/
@[simp] theorem nextPtr_setNext : (m.setNext p v).nextPtr = m.nextPtr := rfl

/-- The same of a write in the other direction. -/
@[simp] theorem nextPtr_setPrev : (m.setPrev p v).nextPtr = m.nextPtr := rfl

/-- The same of a write of a range. -/
@[simp] theorem nextPtr_setSeg : (m.setSeg p x).nextPtr = m.nextPtr := rfl

/-- The index `m_sm` is kept apart from the list, so relinking leaves it as it is. -/
@[simp] theorem sm_setNext : (m.setNext p v).sm = m.sm := rfl

/-- The same of a write in the other direction. -/
@[simp] theorem sm_setPrev : (m.setPrev p v).sm = m.sm := rfl

/-- A cell whose range changes stays under its old key. The operations that cut a cell index
it again for this reason. -/
@[simp] theorem sm_setSeg : (m.setSeg p x).sm = m.sm := rfl

/-- A new cell is in no index until it is put there. -/
@[simp] theorem sm_alloc : (m.alloc x).2.sm = m.sm := rfl

/-- An entry of the index links nothing. -/
@[simp] theorem next_index : (m.index p).next = m.next := rfl

/-- The same of the way back. -/
@[simp] theorem prev_index : (m.index p).prev = m.prev := rfl

/-- An entry of the index moves no cell. -/
@[simp] theorem seg_index : (m.index p).seg = m.seg := rfl

/-- An entry of the index is no allocation. -/
@[simp] theorem nextPtr_index : (m.index p).nextPtr = m.nextPtr := rfl

/-- The key of a cell is made of the address that it has at this moment. -/
@[simp] theorem sm_index :
    (m.index p).sm = Function.update m.sm (addrToKey (m.seg p).addr) (some p) := rfl

/-- A cell that is taken out of the index stays in the list. -/
@[simp] theorem next_unindex : (m.unindex p).next = m.next := rfl

/-- The same of the way back. -/
@[simp] theorem prev_unindex : (m.unindex p).prev = m.prev := rfl

/-- The cell keeps its range, which the key was made of. -/
@[simp] theorem seg_unindex : (m.unindex p).seg = m.seg := rfl

/-- No pointer is handed back. -/
@[simp] theorem nextPtr_unindex : (m.unindex p).nextPtr = m.nextPtr := rfl

/-- What is removed is whatever lies under the key, as `erase` does. -/
@[simp] theorem sm_unindex :
    (m.unindex p).sm = Function.update m.sm (addrToKey (m.seg p).addr) none := rfl

/-- The guarded write (`if (v) v->prev = p`) leaves the other direction alone. -/
@[simp] theorem next_setPrevOf : (m.setPrevOf v p).next = m.next := by
  cases v <;> simp [setPrevOf]

/-- The guarded write as one function: it shows at the cell that `v` points to, and nowhere
when `v` is null. -/
@[simp] theorem prev_setPrevOf :
    (m.setPrevOf v p).prev = fun y => if some y = v then some p else m.prev y := by
  funext y
  cases v with
  | none => simp [setPrevOf]
  | some c => simp [setPrevOf, Function.update_apply]

/-- The guarded write moves no cell, whether it is made or not. -/
@[simp] theorem seg_setPrevOf : (m.setPrevOf v p).seg = m.seg := by
  cases v <;> simp [setPrevOf]

/-- It is no allocation, in either case. -/
@[simp] theorem nextPtr_setPrevOf : (m.setPrevOf v p).nextPtr = m.nextPtr := by
  cases v <;> simp [setPrevOf]

/-- It leaves the index as it is, in either case. -/
@[simp] theorem sm_setPrevOf : (m.setPrevOf v p).sm = m.sm := by
  cases v <;> simp [setPrevOf]

/-- The mirror image of `next_setPrevOf`. -/
@[simp] theorem prev_setNextOf : (m.setNextOf v p).prev = m.prev := by
  cases v <;> simp [setNextOf]

/-- The guarded write of a next pointer as one function. -/
@[simp] theorem next_setNextOf :
    (m.setNextOf v p).next = fun y => if some y = v then some p else m.next y := by
  funext y
  cases v with
  | none => simp [setNextOf]
  | some c => simp [setNextOf, Function.update_apply]

/-- It moves no cell, whether it is made or not. -/
@[simp] theorem seg_setNextOf : (m.setNextOf v p).seg = m.seg := by
  cases v <;> simp [setNextOf]

/-- It is no allocation, in either case. -/
@[simp] theorem nextPtr_setNextOf : (m.setNextOf v p).nextPtr = m.nextPtr := by
  cases v <;> simp [setNextOf]

/-- It leaves the index as it is, in either case. -/
@[simp] theorem sm_setNextOf : (m.setNextOf v p).sm = m.sm := by
  cases v <;> simp [setNextOf]

/-- The header and the tail are set once, by the constructor. No write below moves them. -/
@[simp] theorem ends_setNext : (m.setNext p v).ends = m.ends := rfl

/-- The same of a write in the other direction. -/
@[simp] theorem ends_setPrev : (m.setPrev p v).ends = m.ends := rfl

/-- The same of a write of a range. -/
@[simp] theorem ends_setSeg : (m.setSeg p x).ends = m.ends := rfl

/-- The same of an allocation. -/
@[simp] theorem ends_alloc : (m.alloc x).2.ends = m.ends := rfl

/-- The same of an entry of the index. -/
@[simp] theorem ends_index : (m.index p).ends = m.ends := rfl

/-- The same of a removal from it. -/
@[simp] theorem ends_unindex : (m.unindex p).ends = m.ends := rfl

/-- The same of the guarded write, whether it is made or not. -/
@[simp] theorem ends_setPrevOf : (m.setPrevOf v p).ends = m.ends := by
  cases v <;> rfl

/-- The same of the guarded write in the other direction. -/
@[simp] theorem ends_setNextOf : (m.setNextOf v p).ends = m.ends := by
  cases v <;> rfl

/-! ## The three splits -/

section Split

variable {m} {A B : Nat} {hs te : Int} {read : Bool}

/-- The contents of the lower part of a cell split at `hs`. -/
def lowPart (x : Segment Expr) (hs : Int) : Segment Expr :=
  ⟨x.addr, (hs - x.addr).toNat, Expr.extractExpr x.val 0 (hs - x.addr)⟩

/-- The contents of the upper part of a cell split at `te`. -/
def highPart (x : Segment Expr) (te : Int) : Segment Expr :=
  ⟨te, (x.addr + x.size - te).toNat, Expr.extractExpr x.val (te - x.addr) x.size⟩

/-- The contents of the middle part of a cell split at `hs` and `te`. -/
def midPart (x : Segment Expr) (hs te : Int) : Segment Expr :=
  ⟨hs, (te - hs).toNat, Expr.extractExpr x.val (hs - x.addr) (te - x.addr)⟩

/-- The lower part of a cut cell keeps the address, and so the key. -/
@[simp] theorem lowPart_addr (x : Segment Expr) (hs : Int) : (lowPart x hs).addr = x.addr := rfl

/-- The upper part starts at the cut. -/
@[simp] theorem highPart_addr (x : Segment Expr) (te : Int) : (highPart x te).addr = te := rfl

/-- The middle part starts at the first of the two cuts. -/
@[simp] theorem midPart_addr (x : Segment Expr) (hs te : Int) : (midPart x hs te).addr = hs := rfl

/-- `SeplitCell_Head` keeps the lower part in the cell and links a new cell
with the upper part behind it. -/
theorem next_seplitCellHead (hA : A < m.nextPtr) :
    (m.seplitCellHead A hs read).next
      = fun y => if y = A then some m.nextPtr else if y = m.nextPtr then m.next A
          else m.next y := by
  have hne : A ≠ m.nextPtr := Nat.ne_of_lt hA
  funext y
  cases read <;> simp [seplitCellHead, Function.update_apply, hne]

/-- A cut at the head puts the new cell behind the old one: the old successor, if there is
one, points back to it. -/
theorem prev_seplitCellHead (hA : A < m.nextPtr) :
    (m.seplitCellHead A hs read).prev
      = fun y => if y = m.nextPtr then some A else if some y = m.next A then some m.nextPtr
          else m.prev y := by
  have hne : A ≠ m.nextPtr := Nat.ne_of_lt hA
  funext y
  cases read <;> by_cases hy : y = m.nextPtr <;>
    simp [seplitCellHead, Function.update_apply, hne, hy]

/-- The old cell keeps the lower part, and the new cell gets the upper one. -/
theorem seg_seplitCellHead (hA : A < m.nextPtr) :
    (m.seplitCellHead A hs read).seg
      = fun y => if y = A then lowPart (m.seg A) hs
          else if y = m.nextPtr then highPart (m.seg A) hs else m.seg y := by
  have hne : A ≠ m.nextPtr := Nat.ne_of_lt hA
  have hend : (hs - (m.seg A).addr) + ((m.seg A).addr + (m.seg A).size - hs)
      = (m.seg A).size := by omega
  funext y
  cases read <;>
    simp only [seplitCellHead, seg_setNext, seg_setPrev, seg_setPrevOf, seg_setSeg, seg_alloc,
      seg_index, alloc_fst, Function.update_apply, hend, lowPart, highPart, if_true,
      Bool.false_eq_true, if_false]

/-- One cell is made, whether the store is read or written. -/
theorem nextPtr_seplitCellHead :
    (m.seplitCellHead A hs read).nextPtr = m.nextPtr + 1 := by
  cases read <;> simp [seplitCellHead]

/-- A cut takes place between the header and the tail. -/
theorem ends_seplitCellHead : (m.seplitCellHead A hs read).ends = m.ends := by
  cases read <;> simp [seplitCellHead]

/-- While the store is read, the cells that are cut are copies, and copies are not indexed. -/
theorem sm_seplitCellHead_read : (m.seplitCellHead A hs true).sm = m.sm := by
  simp [seplitCellHead]

/-- While the store is written, both parts are put under their keys. -/
theorem sm_seplitCellHead (hA : A < m.nextPtr) :
    (m.seplitCellHead A hs false).sm
      = Function.update (Function.update m.sm (addrToKey hs) (some m.nextPtr))
          (addrToKey (m.seg A).addr) (some A) := by
  have hne : m.nextPtr ≠ A := (Nat.ne_of_lt hA).symm
  simp [seplitCellHead, hne]

/-- `SeplitCell_Tail` keeps the upper part in the cell and links a new cell
with the lower part in front of it. -/
theorem next_seplitCellTail (hB : B < m.nextPtr) :
    (m.seplitCellTail B te read).next
      = fun y => if y = m.nextPtr then some B else if some y = m.prev B then some m.nextPtr
          else m.next y := by
  have hne : B ≠ m.nextPtr := Nat.ne_of_lt hB
  funext y
  cases read <;> by_cases hy : y = m.nextPtr <;>
    simp [seplitCellTail, Function.update_apply, hne, hy]

/-- A cut at the tail puts the new cell before the old one, so that it takes over the old
predecessor. -/
theorem prev_seplitCellTail (hB : B < m.nextPtr) :
    (m.seplitCellTail B te read).prev
      = fun y => if y = B then some m.nextPtr else if y = m.nextPtr then m.prev B
          else m.prev y := by
  have hne : B ≠ m.nextPtr := Nat.ne_of_lt hB
  funext y
  cases read <;> simp [seplitCellTail, Function.update_apply, hne]

/-- The old cell keeps the upper part here, and the new cell gets the lower one. -/
theorem seg_seplitCellTail (hB : B < m.nextPtr) :
    (m.seplitCellTail B te read).seg
      = fun y => if y = B then highPart (m.seg B) te
          else if y = m.nextPtr then lowPart (m.seg B) te else m.seg y := by
  have hne : B ≠ m.nextPtr := Nat.ne_of_lt hB
  have hend : (te - (m.seg B).addr) + ((m.seg B).addr + (m.seg B).size - te)
      = (m.seg B).size := by omega
  funext y
  cases read <;>
    simp only [seplitCellTail, seg_setNext, seg_setPrev, seg_setNextOf, seg_setSeg, seg_alloc,
      seg_index, alloc_fst, Function.update_apply, hend, lowPart, highPart, if_true,
      Bool.false_eq_true, if_false]

/-- One cell is made, whether the store is read or written. -/
theorem nextPtr_seplitCellTail :
    (m.seplitCellTail B te read).nextPtr = m.nextPtr + 1 := by
  cases read <;> simp [seplitCellTail]

/-- A cut takes place between the header and the tail. -/
theorem ends_seplitCellTail : (m.seplitCellTail B te read).ends = m.ends := by
  cases read <;> simp [seplitCellTail]

/-- Copies are not indexed. -/
theorem sm_seplitCellTail_read : (m.seplitCellTail B te true).sm = m.sm := by
  simp [seplitCellTail]

/-- The old cell moves to a new key, and the new cell takes over the old one. -/
theorem sm_seplitCellTail (hB : B < m.nextPtr) :
    (m.seplitCellTail B te false).sm
      = Function.update (Function.update m.sm (addrToKey te) (some B))
          (addrToKey (m.seg B).addr) (some m.nextPtr) := by
  have hne : m.nextPtr ≠ B := (Nat.ne_of_lt hB).symm
  simp [seplitCellTail, hne]

/-- `SplitCell3` keeps the lower part in the cell and links two new cells
behind it, the middle and the upper part. -/
theorem splitCell3_snd : (m.splitCell3 A hs te read).2 = m.nextPtr := rfl

/-- Of two cuts in one cell come three parts: the old cell, the middle one and the upper
one, in this order. The upper one was allocated first. -/
theorem next_splitCell3 (hA : A < m.nextPtr) :
    (m.splitCell3 A hs te read).1.next
      = fun y => if y = A then some (m.nextPtr + 1) else if y = m.nextPtr then m.next A
          else if y = m.nextPtr + 1 then some m.nextPtr else m.next y := by
  have h1 : A ≠ m.nextPtr := Nat.ne_of_lt hA
  have h2 : A ≠ m.nextPtr + 1 := Nat.ne_of_lt (Nat.lt_succ_of_lt hA)
  funext y
  by_cases hy : y = m.nextPtr <;> cases read <;>
    simp [splitCell3, Function.update_apply, h1, h2, hy]

/-- The way back through the three parts, and from the old successor. -/
theorem prev_splitCell3 (hA : A < m.nextPtr) :
    (m.splitCell3 A hs te read).1.prev
      = fun y => if y = m.nextPtr then some (m.nextPtr + 1)
          else if some y = m.next A then some m.nextPtr
          else if y = m.nextPtr + 1 then some A else m.prev y := by
  have h1 : A ≠ m.nextPtr := Nat.ne_of_lt hA
  have h2 : A ≠ m.nextPtr + 1 := Nat.ne_of_lt (Nat.lt_succ_of_lt hA)
  funext y
  by_cases hy : y = m.nextPtr <;> by_cases hy' : y = m.nextPtr + 1 <;> cases read <;>
    simp [splitCell3, Function.update_apply, h1, h2, hy, hy']

/-- The old cell keeps the lowest part. -/
theorem seg_splitCell3 (hA : A < m.nextPtr) :
    (m.splitCell3 A hs te read).1.seg
      = fun y => if y = A then lowPart (m.seg A) hs
          else if y = m.nextPtr + 1 then midPart (m.seg A) hs te
          else if y = m.nextPtr then highPart (m.seg A) te else m.seg y := by
  have h1 : A ≠ m.nextPtr := Nat.ne_of_lt hA
  have h2 : A ≠ m.nextPtr + 1 := Nat.ne_of_lt (Nat.lt_succ_of_lt hA)
  have he3 : (te - (m.seg A).addr) + ((m.seg A).addr + (m.seg A).size - te)
      = (m.seg A).size := by omega
  have ha2 : (m.seg A).addr + (hs - (m.seg A).addr) = hs := by omega
  have he2 : (hs - (m.seg A).addr) + (te - hs) = te - (m.seg A).addr := by omega
  funext y
  cases read <;>
    simp only [splitCell3, seg_setNext, seg_setPrev, seg_setPrevOf, seg_setSeg, seg_alloc,
      seg_index, alloc_fst, nextPtr_alloc, Function.update_apply, ha2, he2, he3, lowPart,
      midPart, highPart, if_true, Bool.false_eq_true, if_false]

/-- Two cells are made, whether the store is read or written. -/
theorem nextPtr_splitCell3 : (m.splitCell3 A hs te read).1.nextPtr = m.nextPtr + 2 := by
  cases read <;> simp [splitCell3]

/-- The cuts take place between the header and the tail. -/
theorem ends_splitCell3 : (m.splitCell3 A hs te read).1.ends = m.ends := by
  cases read <;> simp [splitCell3]

/-- Copies are not indexed. -/
theorem sm_splitCell3_read : (m.splitCell3 A hs te true).1.sm = m.sm := by
  simp [splitCell3]

/-- While the store is written, all three parts are put under their keys. -/
theorem sm_splitCell3 (hA : A < m.nextPtr) :
    (m.splitCell3 A hs te false).1.sm
      = Function.update (Function.update (Function.update m.sm (addrToKey te) (some m.nextPtr))
          (addrToKey hs) (some (m.nextPtr + 1))) (addrToKey (m.seg A).addr) (some A) := by
  have h1 : m.nextPtr ≠ A := (Nat.ne_of_lt hA).symm
  have h2 : m.nextPtr + 1 ≠ A := (Nat.ne_of_lt (Nat.lt_succ_of_lt hA)).symm
  have ha2 : (m.seg A).addr + (hs - (m.seg A).addr) = hs := by omega
  simp [splitCell3, h1, h2, ha2]

end Split

end KRover.SymbolListMap
