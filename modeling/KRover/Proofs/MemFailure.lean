import KRover.Proofs.MemShadow
import KRover.VMState

/-! # What a write that fails leaves behind

`writeMemoryCell` stores the concrete bytes of a symbolic value before it
checks how the access lies, once against the 32-byte chunk, where it returns
false, and once against the 16-byte line, where it asserts.

* `writeKeepsOrSucceeds_of_repr`: a write returns true or changes nothing exactly
  when it is concrete, or keeps inside a 16-byte line, or crosses a chunk while
  the memory holds the concrete bytes already;
* `createKeepsObjects_of_crosses`: `createSYMemObject` returns false with a changed
  map exactly when the object crosses a chunk.
-/

set_option autoImplicit false

namespace KRover

open Segments SymbolListMap

namespace SYMemState

/-- The bitmap, the symbol list and every byte of memory are the same. -/
structure SameAs (st st' : SYMemState) : Prop where
  bitmap : st'.bitmap = st.bitmap
  allSymbolList : st'.allSymbolList = st.allSymbolList
  concrete : ∀ b < 2 ^ 64, st'.concrete b = st.concrete b

/-- A write returns true, or returns false and has changed nothing. -/
def WriteKeepsOrSucceeds (st : SYMemState) (v : MemValue) : Prop :=
  ∃ ok st', st.writeMemoryCell v = some (ok, st') ∧ (ok = false → st.SameAs st')

/-- The memory holds the bytes of a value. -/
def Holds (st : SYMemState) (addr size : Nat) (v : BitVec 64) : Prop :=
  ∀ i < size, st.concrete (addr + i) = Bytes.byteOf v.toNat i

/-- Storing bytes that are there already changes nothing. -/
theorem storeBytes_eq_iff {mem : Nat → BitVec 8} {addr size : Nat} (h : addr + size ≤ 2 ^ 64)
    (hsz : size < 2 ^ 64) (v : BitVec 64) :
    (∀ b < 2 ^ 64, storeBytes mem addr size v b = mem b) ↔
      ∀ i < size, mem (addr + i) = Bytes.byteOf v.toNat i := by
  constructor
  · intro hall i hi
    exact (hall (addr + i) (by omega)).symm.trans (storeBytes_inside hsz v hi)
  · intro hall b hb
    by_cases hmem : addr ≤ b ∧ b < addr + size
    · obtain ⟨i, rfl⟩ := Nat.exists_eq_add_of_le hmem.1
      have hi : i < size := by omega
      rw [storeBytes_inside hsz v hi]
      exact (hall i hi).symm
    · exact storeBytes_outside h v hb hmem

end SYMemState

open SYMemState

variable {st : SYMemState} {v : MemValue}

/-! ## The outcomes of a symbolic write -/

/-- Across a chunk the concrete bytes are stored and the write returns
false. -/
theorem writeMemoryCell_crosses (hsym : v.bsym = true)
    (hcross : crossesChunk v.addr v.size = true) :
    st.writeMemoryCell v = some (false, (st.writeConcreteValue v.addr v.size v.i64).2) := by
  cases hlist : v.isSymList with
  | true => rw [st.writeMemoryCell_list hsym hlist, writeSymbolicList, if_pos hcross]
  | false => rw [st.writeMemoryCell_expr hsym hlist, writeSymbolicExpr, if_pos hcross]

/-- Across a 16-byte line inside a chunk the assertion fails. -/
theorem writeMemoryCell_asserts (hsym : v.bsym = true)
    (hcross : crossesChunk v.addr v.size = false)
    (hin : insideHalfChunk v.addr v.size = false) : st.writeMemoryCell v = none := by
  cases hlist : v.isSymList with
  | true =>
    rw [st.writeMemoryCell_list hsym hlist, writeSymbolicList, hcross, hin]
    rfl
  | false =>
    rw [st.writeMemoryCell_expr hsym hlist, writeSymbolicExpr, hcross, hin]
    rfl

/-- Inside a 16-byte line the write returns true. -/
theorem writeMemoryCell_inside (h : Repr st.allSymbolList st.allSymbolList.liveCells)
    (hr : AccessRange v.addr v.size) (hsym : v.bsym = true)
    (hform : v.isSymList = true → ReadForm v.size v.symcellPtr)
    (hin : insideHalfChunk v.addr v.size = true) :
    ∃ st', st.writeMemoryCell v = some (true, st') := by
  have hsame := st.writeConcreteValue_shadow v.addr v.size v.i64
  have h₁ : Repr (st.writeConcreteValue v.addr v.size v.i64).2.allSymbolList
      st.allSymbolList.liveCells := by
    rw [hsame.2]
    exact h
  cases hlist : v.isSymList with
  | true =>
    obtain ⟨m', ps', hst, -, -⟩ := h₁.writeSymbolicList_spec hr hin (hform hlist)
    rw [st.writeMemoryCell_list hsym hlist, hst]
    exact ⟨_, rfl⟩
  | false =>
    obtain ⟨m', ps', hst, -, -⟩ := h₁.writeSymbolicExpr_spec hr hin v.expr
    rw [st.writeMemoryCell_expr hsym hlist, hst]
    exact ⟨_, rfl⟩

/-- The exact condition for one write. -/
theorem writeKeepsOrSucceeds_of_repr (h : Repr st.allSymbolList st.allSymbolList.liveCells)
    (hr : AccessRange v.addr v.size)
    (hform : v.bsym = true → v.isSymList = true → ReadForm v.size v.symcellPtr) :
    st.WriteKeepsOrSucceeds v ↔
      (v.bsym = true → insideHalfChunk v.addr v.size = true ∨
        crossesChunk v.addr v.size = true ∧ st.Holds v.addr v.size v.i64) := by
  cases hsym : v.bsym with
  | false =>
    refine iff_of_true ?_ (fun h => absurd h (by decide))
    obtain ⟨m', ps', hst, -, -⟩ := h.writeMemoryCell_concrete hr.width hr.searchable hsym
    exact ⟨true, _, hst, fun h => absurd h (by decide)⟩
  | true =>
    rw [forall_prop_of_true rfl]
    cases hin : insideHalfChunk v.addr v.size with
    | true =>
      obtain ⟨st', hst⟩ := writeMemoryCell_inside h hr hsym (hform hsym) hin
      exact iff_of_true ⟨true, st', hst, fun h => absurd h (by decide)⟩ (Or.inl rfl)
    | false =>
      cases hcross : crossesChunk v.addr v.size with
      | false =>
        refine iff_of_false ?_ (by simp)
        rintro ⟨ok, st', hst, -⟩
        rw [writeMemoryCell_asserts hsym hcross hin] at hst
        exact absurd hst (by simp)
      | true =>
        -- the concrete bytes are all that the write leaves behind
        have hsz : v.size < 2 ^ 64 := by
          have hle := hr.le
          have hw := hr.noWrap
          unfold SYMemBitmap.NoWrap at hw
          omega
        have hstore : (∀ b < 2 ^ 64,
            storeBytes st.concrete v.addr v.size v.i64 b = st.concrete b) ↔
            st.Holds v.addr v.size v.i64 := storeBytes_eq_iff hr.le hsz v.i64
        have hwrite : (st.writeConcreteValue v.addr v.size v.i64).2
            = { st with concrete := storeBytes st.concrete v.addr v.size v.i64 } := by
          rw [writeConcreteValue, if_pos hr.width]
        rw [WriteKeepsOrSucceeds, writeMemoryCell_crosses hsym hcross, hwrite]
        constructor
        · rintro ⟨ok, st', hst, hkeep⟩
          obtain ⟨hok, hst'⟩ := Prod.mk.inj (Option.some.inj hst)
          have hsame := (hkeep hok.symm).concrete
          rw [← hst'] at hsame
          exact Or.inr ⟨rfl, hstore.1 hsame⟩
        · rintro (hfalse | ⟨-, hholds⟩)
          · exact absurd hfalse (by decide)
          · exact ⟨false, _, rfl, fun _ => ⟨rfl, rfl, hstore.2 hholds⟩⟩

/-! ## Creating an object -/

/-- Whenever `createSYMemObject` returns false, `m_SYMemObjects` is as
before. -/
def CreateKeepsObjects (vm : VMState) (addr size : Nat) (isSigned hasSeed : Bool)
    (conVal : BitVec 64) (name : String) : Prop :=
  ∀ vm', vm.createSYMemObject addr size isSigned hasSeed conVal name = some (false, vm') →
    vm'.symMemObjects = vm.symMemObjects

/-- The object is in the map whatever the write to memory returns, and it was
not there before. -/
theorem createKeepsObjects_of_crosses (vm : VMState) (addr size : Nat) (isSigned hasSeed : Bool)
    (conVal : BitVec 64) (name : String) :
    CreateKeepsObjects vm addr size isSigned hasSeed conVal name ↔
      crossesChunk addr size = false := by
  let obj := vm.newSYMemObject addr size isSigned hasSeed conVal name
  let V : MemValue := ⟨addr, size, true, false, 0, Expr.udefExpr (some obj), []⟩
  constructor
  · intro hkeep
    by_contra hcross
    have hwrite : vm.mem.writeMemoryCell V = _ :=
      writeMemoryCell_crosses rfl (Bool.eq_true_of_not_eq_false hcross)
    have hcreate : vm.createSYMemObject addr size isSigned hasSeed conVal name
        = some (false, { vm.addSYMemObject (hashTogether addr size) obj rfl with
            mem := (vm.mem.writeConcreteValue addr size 0).2 }) := by
      rw [VMState.createSYMemObject]
      show ((vm.mem.writeMemoryCell V).bind _) = _
      rw [hwrite]
      rfl
    have hsame := hkeep _ hcreate
    -- the new object has an address that no object in the map has
    have hmem : (hashTogether addr size, obj) ∈ vm.symMemObjects := by
      rw [← hsame]
      exact SYMemObjects.mem_insert_self _ _ _
    exact absurd (vm.fresh _ hmem) (Nat.lt_irrefl _)
  · intro hcross vm' hcreate
    rw [VMState.createSYMemObject] at hcreate
    obtain ⟨⟨ok, mem⟩, hwrite, heq⟩ := Option.bind_eq_some_iff.1 hcreate
    have hok : ok = false := (Prod.mk.inj (Option.some.inj heq)).1
    subst hok
    -- inside a chunk a write that returns does not return false
    have hnot : vm.mem.writeMemoryCell V ≠ some (false, mem) := by
      rw [vm.mem.writeMemoryCell_expr rfl rfl, writeSymbolicExpr, if_neg (by simp [V, hcross])]
      split
      · cases hm : (vm.mem.writeConcreteValue V.addr V.size V.i64).2.allSymbolList.mergeList
          [⟨toInt64 V.addr, V.size, V.expr⟩] <;> simp
      · simp
    exact absurd hwrite hnot

/-- A write keeps or succeeds, and a failed creation keeps the map, each with its exact
condition. A write stores the concrete bytes before it looks at the range, and a creation
enters its object before the write. -/
theorem writeKeepsOrSucceeds_iff (st : SYMemState) (v : MemValue) (vm : VMState)
    (addr size : Nat) (isSigned hasSeed : Bool) (conVal : BitVec 64) (name : String)
    (h : Repr st.allSymbolList st.allSymbolList.liveCells) (hr : AccessRange v.addr v.size)
    (hform : v.bsym = true → v.isSymList = true → ReadForm v.size v.symcellPtr) :
    (st.WriteKeepsOrSucceeds v ↔
      (v.bsym = true → insideHalfChunk v.addr v.size = true ∨
        crossesChunk v.addr v.size = true ∧ st.Holds v.addr v.size v.i64)) ∧
    (CreateKeepsObjects vm addr size isSigned hasSeed conVal name ↔
      crossesChunk addr size = false) :=
  ⟨writeKeepsOrSucceeds_of_repr h hr hform,
    createKeepsObjects_of_crosses vm addr size isSigned hasSeed conVal name⟩

/-- An 8-byte expression over a line of an empty shadow. -/
def lineWrite : MemValue :=
  ⟨0x100c, 8, true, false, 0, Expr.constExpr 0 8, []⟩

/-- The same across a chunk, with a concrete value that the memory does not
hold. -/
def chunkWrite : MemValue :=
  ⟨0x101c, 8, true, false, 1, Expr.constExpr 0 8, []⟩

/-- An expression over the upper half of an older one, inside one line. -/
def overlapWrite : MemValue :=
  ⟨0x1004, 8, true, false, 5, Expr.constExpr 1 8, []⟩

/-- The write over an older expression keeps or succeeds, and so does the creation of an object
beside it. -/
theorem writeKeepsOrSucceeds_overlap : ∃ st,
    (MemOp.write exprWrite).apply (SYMemState.new fun _ => 0) = some (true, st) ∧
    st.WriteKeepsOrSucceeds overlapWrite ∧
    CreateKeepsObjects { VMState.new (fun _ => 0) fun _ => 0 with mem := st } 0x1008 8 true true 0
      "x" := by
  obtain ⟨st, hshadow, hst, -⟩ := exists_exprWrite
  obtain ⟨hwrite, hcreate⟩ := writeKeepsOrSucceeds_iff st overlapWrite
    { VMState.new (fun _ => 0) fun _ => 0 with mem := st } 0x1008 8 true true 0 "x" hshadow.repr
    ⟨by decide, by decide, Or.inr (by decide)⟩ (fun _ h => absurd h (by decide))
  exact ⟨st, hst, hwrite.2 fun _ => Or.inl (by decide), hcreate.2 (by decide)⟩

/-- A symbolic write over a line fails the assertion, one across a chunk
returns false with the memory changed, and a creation across a chunk returns
false with the map changed. -/
theorem not_writeKeepsOrSucceeds :
    ¬ (SYMemState.new fun _ => 0).WriteKeepsOrSucceeds lineWrite ∧
    ¬ (SYMemState.new fun _ => 0).WriteKeepsOrSucceeds chunkWrite ∧
    ¬ CreateKeepsObjects (VMState.new (fun _ => 0) fun _ => 0) 0x101c 8 true true 0 "x" := by
  have hnew : Repr (SYMemState.new fun _ => 0).allSymbolList _ := repr_liveCells repr_new
  refine ⟨?_, ?_, ?_⟩
  · rw [writeKeepsOrSucceeds_of_repr hnew ⟨by decide, by decide, Or.inr (by decide)⟩
      (fun _ h => absurd h (by decide))]
    intro h
    rcases h rfl with hin | ⟨hcross, -⟩
    · exact absurd hin (by decide)
    · exact absurd hcross (by decide)
  · rw [writeKeepsOrSucceeds_of_repr hnew ⟨by decide, by decide, Or.inr (by decide)⟩
      (fun _ h => absurd h (by decide))]
    intro h
    rcases h rfl with hin | ⟨-, hholds⟩
    · exact absurd hin (by decide)
    · exact absurd (hholds 0 (by decide)) (by decide)
  · rw [createKeepsObjects_of_crosses]
    decide

end KRover
