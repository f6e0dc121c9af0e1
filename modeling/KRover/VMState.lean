import KRover.CPUState
import KRover.EFlagsManager
import KRover.MemState
import KRover.Z3Handler

/-! # The state of the virtual machine

`VMState`: the registers, the memory, the flags manager and the symbolic
objects the user declared, and what a condition is evaluated to. The register
objects are kept in a map of their own that nothing but their destruction
reads, so it is left out.

`none` is a failed assertion, a null pointer dereferenced or an undefined
operation.
-/

set_option autoImplicit false

namespace KRover

/-- `HashTogether`: the size is added to the 3 before the shift. The address is shifted by
the size, so that two objects of different sizes may have one hash. -/
def hashTogether (addr size : Nat) : Nat := addr <<< (3 + size) % 2 ^ 64

/-- `std::map<ulong, SYMemObject *>`, by ascending key. -/
abbrev SYMemObjects := List (Nat × SYMemObject)

/-- `m_SYMemObjects[hash] = obj`. -/
def SYMemObjects.insert (hash : Nat) (obj : SYMemObject) : SYMemObjects → SYMemObjects
  | [] => [(hash, obj)]
  | (k, o) :: rest =>
    if hash < k then (hash, obj) :: (k, o) :: rest
    else if hash = k then (hash, obj) :: rest
    else (k, o) :: SYMemObjects.insert hash obj rest

/-- `m_SYMemObjects.find(hash)`. -/
def SYMemObjects.find (hash : Nat) (M : SYMemObjects) : Option SYMemObject := List.lookup hash M

/-- `m_SYMemObjects.erase(it)`. -/
def SYMemObjects.erase (hash : Nat) (M : SYMemObjects) : SYMemObjects :=
  List.filter (fun p => p.1 ≠ hash) M

/-- What is in the map after an assignment was in it before, or is the new
object. -/
theorem SYMemObjects.mem_insert {hash : Nat} {obj : SYMemObject} {M : SYMemObjects}
    {p : Nat × SYMemObject} (h : p ∈ SYMemObjects.insert hash obj M) : p = (hash, obj) ∨ p ∈ M := by
  induction M with
  | nil => exact Or.inl (List.mem_singleton.1 h)
  | cons q rest ih =>
    obtain ⟨k, o⟩ := q
    rw [SYMemObjects.insert] at h
    split at h
    · exact List.mem_cons.1 h
    · split at h
      · rcases List.mem_cons.1 h with h | h
        · exact Or.inl h
        · exact Or.inr (List.mem_cons_of_mem _ h)
      · rcases List.mem_cons.1 h with h | h
        · exact Or.inr (h ▸ List.mem_cons_self)
        · exact (ih h).imp_right (List.mem_cons_of_mem _)

/-- The new object is in the map. -/
theorem SYMemObjects.mem_insert_self (hash : Nat) (obj : SYMemObject) (M : SYMemObjects) :
    (hash, obj) ∈ SYMemObjects.insert hash obj M := by
  induction M with
  | nil => exact List.mem_singleton_self _
  | cons q rest ih =>
    obtain ⟨k, o⟩ := q
    rw [SYMemObjects.insert]
    split
    · exact List.mem_cons_self
    · split
      · exact List.mem_cons_self
      · exact List.mem_cons_of_mem _ ih

/-- `VMState`. An object is told apart by its address in the engine's heap, and `new` gives
out one address after the other. It owns the shadow of the registers, that of the memory,
the flags and the registry of declared objects. -/
structure VMState where
  cpu : SYCPUState
  mem : SYMemState
  eflagsMgr : EFlagsManager
  symMemObjects : SYMemObjects
  nextId : Nat
  fresh : ∀ p ∈ symMemObjects, p.2.id < nextId

namespace VMState

/-- The constructor. -/
def construct (ptRegs : MacReg) (symBitmap : PtIdx → BitVec 64) (concrete : Nat → BitVec 8) :
    VMState where
  cpu := SYCPUState.construct ptRegs symBitmap
  mem := SYMemState.new concrete
  eflagsMgr := ⟨.null, []⟩
  symMemObjects := []
  nextId := 0
  fresh := fun _ h => absurd h (by simp)

/-- The constructor in memory that was zero. -/
def new (ptRegs : MacReg) (concrete : Nat → BitVec 8) : VMState :=
  construct ptRegs (fun _ => 0) concrete

/-- The machine is the fresh one where the memory of its bitmap was zero. -/
theorem construct_eq_new (ptRegs : MacReg) {symBitmap : PtIdx → BitVec 64}
    (hzero : SYCPUState.ZeroBitmap symBitmap) (concrete : Nat → BitVec 8) :
    construct ptRegs symBitmap concrete = new ptRegs concrete := by
  rw [new, show symBitmap = fun _ => 0 from funext hzero]

/-- `new SYMemObject()` and the assignments to it. The seed is assigned
through the union member of the object's size; the bytes above it are not
read. -/
def newSYMemObject (vm : VMState) (addr size : Nat) (isSigned hasSeed : Bool)
    (conVal : BitVec 64) (name : String) : SYMemObject where
  id := vm.nextId
  name := name
  addr := addr
  size := size
  isSigned := isSigned
  hasSeed := hasSeed
  seed := assignLow (8 * size) 0 conVal

/-- `m_SYMemObjects[hash] = obj` for a new object. -/
def addSYMemObject (vm : VMState) (hash : Nat) (obj : SYMemObject) (hid : obj.id = vm.nextId) :
    VMState :=
  { vm with
    symMemObjects := SYMemObjects.insert hash obj vm.symMemObjects
    nextId := vm.nextId + 1
    fresh := by
      intro p hp
      rcases SYMemObjects.mem_insert hp with rfl | hp
      · rw [hid]
        exact Nat.lt_succ_self _
      · exact Nat.lt_succ_of_lt (vm.fresh p hp) }

/-- `createSYMemObject`: the object enters the map, then its expression is written to
memory, over a concrete value of 0. If the write is refused the call returns false, and the
object stays in the map. -/
def createSYMemObject (vm : VMState) (addr size : Nat) (isSigned hasSeed : Bool)
    (conVal : BitVec 64) (name : String) : Option (Bool × VMState) := do
  let obj := vm.newSYMemObject addr size isSigned hasSeed conVal name
  let vm := vm.addSYMemObject (hashTogether addr size) obj rfl
  let (ok, mem) ← vm.mem.writeMemoryCell
    ⟨addr, size, true, false, 0, Expr.udefExpr (some obj), []⟩
  return (ok, { vm with mem := mem })

/-- `m_SYMemObjects.erase(it)` in the machine. -/
def eraseSYMemObject (vm : VMState) (hash : Nat) : VMState :=
  { vm with
    symMemObjects := SYMemObjects.erase hash vm.symMemObjects
    fresh := fun p hp => vm.fresh p (List.mem_of_mem_filter hp) }

/-- `destroySYMemObject`: the object that is found leaves the map, and the
memory becomes a concrete 0. -/
def destroySYMemObject (vm : VMState) (addr size : Nat) : Option VMState := do
  let hash := hashTogether addr size
  let _ ← SYMemObjects.find hash vm.symMemObjects
  let vm := vm.eraseSYMemObject hash
  let (_, mem) ← vm.mem.writeMemoryCell ⟨addr, size, false, false, 0, .null, []⟩
  return { vm with mem := mem }

/-- `createSYRegObject`: the expression that is written is a symbol without
an object. -/
def createSYRegObject (vm : VMState) (index : MachRegister) (size : Nat) :
    Option (Bool × VMState) := do
  let (ok, cpu) ← vm.cpu.writeRegister
    ⟨index, size, true, false, 0, Expr.udefExpr none, []⟩
  return (ok, { vm with cpu := cpu })

/-- `EvalCondition`: the condition is evaluated against the seeds, and it or its negation
becomes a constraint. The map of `Z3Handler` is passed along. Without a condition, or if the
translation throws, there is no result. -/
def evalCondition (S : BvTerm.Simplifier) (vm : VMState) (symObjectsMap : List SYMemObject)
    (insnID : EntryID) : Option (Bool × VMState × List SYMemObject) := do
  let exprPtr ← vm.eflagsMgr.getCondition insnID
  if exprPtr.isNull then none
  else
    match z3SolveConcritize S symObjectsMap (vm.symMemObjects.map (·.2)) exprPtr with
    | .error _ => none
    | .ok (bExecute, symObjectsMap) =>
      let constraint := if bExecute then exprPtr else .ury .lNot exprPtr exprPtr.getExprSize
      let mgr := { vm.eflagsMgr with constraint := vm.eflagsMgr.constraint ++ [constraint] }
      return (bExecute, { vm with eflagsMgr := mgr }, symObjectsMap)

end VMState

end KRover
