import KRover.FatCtrl

/-! # The table of functions

`FindFuncCallInfo` keeps the key of an entry in an `int`. In the top 2 GiB of
the address space that loses nothing: an address there is the widening of its
low half.
-/

set_option autoImplicit false

namespace KRover

/-- The kernel text: the top 2 GiB of the address space. -/
def InTop2GiB (addr : BitVec 64) : Prop := 2 ^ 64 - 2 ^ 31 ≤ addr.toNat

/-- An address of the kernel text is compared as itself. -/
theorem midVal_of_inTop2GiB {addr : BitVec 64} (h : InTop2GiB addr) : midVal addr = addr := by
  have hlt : addr.toNat < 2 ^ 64 := addr.isLt
  have hmod : addr.toNat % 2 ^ 32 = addr.toNat - (2 ^ 64 - 2 ^ 32) := by
    rw [InTop2GiB] at h
    omega
  -- the top bit of the low half is set, so the high half is filled with ones
  have hmsb : (addr.setWidth 32).msb = true := by
    rw [BitVec.msb_eq_decide, BitVec.toNat_setWidth, hmod, decide_eq_true_eq]
    rw [InTop2GiB] at h
    omega
  apply BitVec.eq_of_toNat_eq
  rw [midVal, BitVec.toNat_signExtend, hmsb, if_pos rfl, BitVec.toNat_setWidth,
    BitVec.toNat_setWidth, hmod]
  rw [InTop2GiB] at h
  omega

/-- The keys that the search compares are in the order of the addresses. -/
theorem midVal_strictMono {funcCall : FuncDB}
    (hmono : ∀ i j, i < j → (funcCall i).funcAddr < (funcCall j).funcAddr)
    (htop : ∀ i, InTop2GiB (funcCall i).funcAddr) :
    StrictMono fun i => (midVal (funcCall i).funcAddr).toNat := by
  intro i j hij
  show (midVal (funcCall i).funcAddr).toNat < (midVal (funcCall j).funcAddr).toNat
  rw [midVal_of_inTop2GiB (htop i), midVal_of_inTop2GiB (htop j)]
  exact hmono i j hij

/-- `FindFuncCallInfo` ends, at the entry of the address if there is one. The table must be
sorted and lie in the top two gigabytes, where the address survives being cut down to an
`int`. -/
theorem findFuncCallInfo_spec (funcCall : FuncDB)
    (hmono : ∀ i j, i < j → (funcCall i).funcAddr < (funcCall j).funcAddr)
    (htop : ∀ i, InTop2GiB (funcCall i).funcAddr) (addr : BitVec 64) :
    (∀ i, (funcCall i).funcAddr = addr → findFuncCallInfo funcCall addr = i) ∧
    ((∀ i, (funcCall i).funcAddr ≠ addr) → findFuncCallInfo funcCall addr = -1) := by
  have hspec := Bisect.find_spec (x := addr.toNat) (Int.le_refl 0) (by decide)
    (midVal_strictMono hmono htop) rfl (by decide : (44019 : Int) = _)
  constructor
  · intro i hi
    apply hspec.1
    show (midVal (funcCall i).funcAddr).toNat = addr.toNat
    rw [midVal_of_inTop2GiB (htop i), hi]
  · intro hno
    apply hspec.2
    intro i hi
    apply hno i
    rw [← midVal_of_inTop2GiB (htop i)]
    exact BitVec.eq_of_toNat_eq hi

/-- A function every 16 bytes from the start of the kernel text on. -/
def evenTable : FuncDB := fun i => ⟨0xffffffff80000000 + BitVec.ofNat 64 (16 * i), []⟩

/-- The entries of the table are 16 bytes apart. -/
theorem evenTable_toNat (i : Fin 44020) :
    (evenTable i).funcAddr.toNat = 0xffffffff80000000 + 16 * i := by
  have hi := i.isLt
  rw [evenTable, BitVec.toNat_add, BitVec.toNat_ofNat]
  show (0xffffffff80000000 + 16 * (i : Nat) % 2 ^ 64) % 2 ^ 64 = _
  omega

/-- So it is sorted. -/
theorem evenTable_lt (i j : Fin 44020) (h : i < j) :
    (evenTable i).funcAddr < (evenTable j).funcAddr := by
  have hij : (i : Nat) < j := h
  rw [BitVec.lt_def, evenTable_toNat, evenTable_toNat]
  omega

/-- All of it lies in the top two gigabytes. -/
theorem evenTable_inTop2GiB (i : Fin 44020) : InTop2GiB (evenTable i).funcAddr := by
  rw [InTop2GiB, evenTable_toNat]
  omega

/-- In that table the third function is found, and an address between two
functions is not. -/
theorem findFuncCallInfo_evenTable :
    findFuncCallInfo evenTable 0xffffffff80000020 = 2 ∧
    findFuncCallInfo evenTable 0xffffffff80000021 = -1 := by
  constructor
  · exact (findFuncCallInfo_spec evenTable evenTable_lt evenTable_inTop2GiB _).1 2 (by decide)
  · apply (findFuncCallInfo_spec evenTable evenTable_lt evenTable_inTop2GiB _).2
    intro i hi
    have hnat := congrArg BitVec.toNat hi
    rw [evenTable_toNat] at hnat
    simp only [BitVec.reduceToNat] at hnat
    omega

end KRover
