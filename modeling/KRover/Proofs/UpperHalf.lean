import KRover.Proofs.OprndWrite
import KRover.Proofs.RegOverlay

/-! # The upper half of a register

An instruction that writes a 32-bit register clears the upper half of the 64-bit
one: bytes 4 to 7 become a concrete zero (`UpperZero`). No handler does that.
Each writes as many bytes as its operand has, and leaves the rest of the word,
of its bitmap and of its cell list (`UpperKept`), so the upper half is zero
after the instruction exactly when it was zero before (`upperZero_iff`).
-/

set_option autoImplicit false

namespace KRover

open Segments Bytes SymbolListMap SymExecutor

/-! ## Bytes 4 to 7 -/

/-- The upper half of a register is a concrete zero: in its value, in the bitmap
and in the cell list. -/
structure UpperZero (vm : VMState) (i : PtIdx) : Prop where
  words : ∀ k, 4 ≤ k → k < 8 → byteOf (vm.cpu.ptRegs i).toNat k = 0
  bits : ∀ k, 4 ≤ k → k < 8 → (vm.cpu.symBitmap i).getLsbD k = false
  cells : ∀ k : Nat, 4 ≤ k → k < 8 → ¬ Covered (vm.cpu.regCells i) k

/-- The upper half of a register is as it was. -/
structure UpperKept (vm vm' : VMState) (i : PtIdx) : Prop where
  words : ∀ k, 4 ≤ k → k < 8 →
    byteOf (vm'.cpu.ptRegs i).toNat k = byteOf (vm.cpu.ptRegs i).toNat k
  bits : ∀ k, 4 ≤ k → k < 8 →
    (vm'.cpu.symBitmap i).getLsbD k = (vm.cpu.symBitmap i).getLsbD k
  cells : ∀ k : Nat, 4 ≤ k → k < 8 →
    (Covered (vm'.cpu.regCells i) k ↔ Covered (vm.cpu.regCells i) k)

/-- What is kept is the same in both states, so the relation can be turned around. -/
theorem UpperKept.symm {vm vm' : VMState} {i : PtIdx} (h : UpperKept vm vm' i) :
    UpperKept vm' vm i where
  words k hlow hhigh := (h.words k hlow hhigh).symm
  bits k hlow hhigh := (h.bits k hlow hhigh).symm
  cells k hlow hhigh := (h.cells k hlow hhigh).symm

/-- An upper half that is kept stays zero: the word, the marks and the cells each agree on
it. -/
theorem UpperKept.zero {vm vm' : VMState} {i : PtIdx} (h : UpperKept vm vm' i)
    (hz : UpperZero vm i) : UpperZero vm' i := by
  constructor
  · intro k hlow hhigh
    rw [h.words k hlow hhigh]
    exact hz.words k hlow hhigh
  · intro k hlow hhigh
    rw [h.bits k hlow hhigh]
    exact hz.bits k hlow hhigh
  · intro k hlow hhigh
    rw [h.cells k hlow hhigh]
    exact hz.cells k hlow hhigh

/-- Where the upper half is kept, it is zero after the instruction exactly when it was zero
before. -/
theorem UpperKept.zero_iff {vm vm' : VMState} {i : PtIdx} (h : UpperKept vm vm' i) :
    UpperZero vm' i ↔ UpperZero vm i :=
  ⟨h.symm.zero, h.zero⟩

/-- All upper halves are as they were. -/
structure UppersKept (vm₀ vm : VMState) : Prop where
  shape : VMShape vm
  kept : ∀ i, UpperKept vm₀ vm i

/-- A write of four bytes leaves the upper half of its word. -/
theorem ListWritten.upperKept {vm vm' : VMState} {V : RegValue} (hw : ListWritten vm vm' V)
    (hV : V.Writable) (hsize : V.size = 4) (i : PtIdx) : UpperKept vm vm' i := by
  -- A four-byte write stays in the lower half of its register.
  by_cases hi : i = V.indx.offt
  · subst hi
    have hrange := hV.newCells.high
    rw [hsize] at hrange
    constructor
    · intro k hlow hhigh
      have hword : vm'.cpu.ptRegs V.indx.offt
          = assignLow (8 * 4) (vm.cpu.ptRegs V.indx.offt) V.i64 := by
        rw [hw.words, SYCPUState.wordsAfter, SYCPUState.writeConcreteValue, hsize]
        exact Function.update_self _ _ _
      rw [hword, byteOf_assignLow (show 4 ≤ 8 by omega) _ _ hhigh, if_neg (by omega)]
    · intro k hlow hhigh
      have hnew : ¬ Covered V.newCells k := by
        rintro ⟨x, hx, hlo, hhi⟩
        have hstop := (hV.newCells.inside x hx).2
        omega
      have hiff := RegShadow.getLsbD_bitmapAfter hV (vm.cpu.symBitmap V.indx.offt) k
      rw [hw.bits, Bool.eq_iff_iff, hiff]
      constructor
      · rintro (hcov | ⟨-, hbit⟩)
        · exact absurd hcov hnew
        · exact hbit
      · intro hbit
        exact Or.inr ⟨by omega, hbit⟩
    · intro k hlow hhigh
      rw [hw.cells, hV.covered_after, if_neg (by omega)]
  · obtain ⟨hcells, hbits⟩ := hw.others i hi
    have hword : vm'.cpu.ptRegs i = vm.cpu.ptRegs i := (hw.regKept hi).words
    constructor
    · intro k _ _
      rw [hword]
    · intro k _ _
      rw [hbits]
    · intro k _ _
      rw [hcells]

namespace UppersKept

variable {vm₀ vm vm' : VMState}

/-- Nothing has been written yet. -/
theorem refl (h : VMShape vm) : UppersKept vm vm where
  shape := h
  kept := fun _ => ⟨fun _ _ _ => rfl, fun _ _ _ => rfl, fun _ _ _ => Iff.rfl⟩

/-- Writes one after the other keep the upper halves. -/
theorem trans (h : UppersKept vm₀ vm) (h' : UppersKept vm vm') : UppersKept vm₀ vm' where
  shape := h'.shape
  kept := fun i => {
    words := fun k hlow hhigh =>
      ((h'.kept i).words k hlow hhigh).trans ((h.kept i).words k hlow hhigh)
    bits := fun k hlow hhigh =>
      ((h'.kept i).bits k hlow hhigh).trans ((h.kept i).bits k hlow hhigh)
    cells := fun k hlow hhigh =>
      ((h'.kept i).cells k hlow hhigh).trans ((h.kept i).cells k hlow hhigh) }

/-- Nothing that can be seen of the registers has changed. -/
theorem of_eq (h : UppersKept vm₀ vm) (h' : VMShape vm') (hwords : vm'.cpu.ptRegs = vm.cpu.ptRegs)
    (hbits : vm'.cpu.symBitmap = vm.cpu.symBitmap)
    (hcells : vm'.cpu.regCells = vm.cpu.regCells) : UppersKept vm₀ vm' := by
  refine h.trans ⟨h', fun i => ⟨?_, ?_, ?_⟩⟩
  · intro k _ _
    rw [hwords]
  · intro k _ _
    rw [hbits]
  · intro k _ _
    rw [hcells]

/-- A read keeps them. -/
theorem of_sameCells (h : UppersKept vm₀ vm) (h' : VMShape vm') (hsame : SameCells vm vm') :
    UppersKept vm₀ vm' :=
  h.of_eq h' hsame.ptRegs hsame.symBitmap hsame.regCells

/-! ## Writes of four bytes -/

/-- A write of four bytes is a write of the lower half: its bytes, its bits and its cells.
The form of the list keeps the cells inside. -/
theorem writeRegister (h : UppersKept vm₀ vm) {V : RegValue} (hsize : V.size = 4)
    (hform : V.bsym = true → V.isSymList = true → ReadForm V.size V.symcellPtr)
    (hw : vm.writeRegister V = some (true, vm')) : UppersKept vm₀ vm' := by
  have henc : V.Encoded := by
    obtain ⟨⟨ok, cpu⟩, hcpu, -⟩ := bind_some hw
    exact encoded_of_writeRegister hcpu
  obtain ⟨vm₁, hwrite, hwritten⟩ := listWritten h.shape (SameCells.refl vm) ⟨henc, hform⟩
  obtain rfl : vm₁ = vm' := Option.some.inj (hwrite.symm.trans (asserted_eq_some.2 hw))
  exact h.trans ⟨hwritten.shape, hwritten.upperKept ⟨henc, hform⟩ hsize⟩

/-- A write to memory leaves all registers. -/
theorem writeMemory (h : UppersKept vm₀ vm) {V : MemValue} (hsize : V.size = 4)
    (hform : V.bsym = true → V.isSymList = true → ReadForm V.size V.symcellPtr)
    (hw : vm.writeMemory V = some (true, vm')) : UppersKept vm₀ vm' := by
  have hwidth : isAccessSize V.size = true := by rw [hsize]; rfl
  obtain ⟨hcells, -⟩ := h.shape.vmCells.writeMemory exprLaw_true hwidth hform
    (fun _ _ => trivial) hw
  have hcpu : vm'.cpu = vm.cpu := by
    rw [VMState.writeMemory] at hw
    split at hw
    · obtain ⟨⟨ok, mem⟩, -, hout⟩ := bind_some hw
      have hvm : ({ vm with mem := mem } : VMState) = vm' :=
        (Prod.mk.inj (Option.some.inj hout)).2
      rw [← hvm]
    · simp at hw
  exact h.of_eq hcells.shape (by rw [hcpu]) (by rw [hcpu]) (by rw [hcpu])

variable {oi : OprndInfo}

/-- So an operand of four bytes can be written with a value. -/
theorem setConValue (h : UppersKept vm₀ vm) (hsize : oi.size = 4) {v : BitVec 64}
    (hset : oi.setConValue vm v = some vm') : UppersKept vm₀ vm' := by
  rcases OprndInfo.setConValue_cases hset with ⟨r, hw⟩ | ⟨addr, hw⟩
  · exact h.writeRegister hsize (by simp) hw
  · exact h.writeMemory hsize (by simp) hw

/-- It can be written with an expression. -/
theorem setSymValue (h : UppersKept vm₀ vm) (hsize : oi.size = 4) {e : Expr}
    (hset : oi.setSymValue vm e = some vm') : UppersKept vm₀ vm' := by
  rcases OprndInfo.setSymValue_cases hset with ⟨r, hw⟩ | ⟨addr, hw⟩
  · exact h.writeRegister hsize (by simp) hw
  · exact h.writeMemory hsize (by simp) hw

/-- It can be written with a list of cells. -/
theorem setSymList (h : UppersKept vm₀ vm) (hsize : oi.size = 4) {cells : List (Segment Expr)}
    (hform : ReadForm oi.size cells) {v : BitVec 64}
    (hset : oi.setSymList vm cells v = some vm') : UppersKept vm₀ vm' := by
  rcases OprndInfo.setSymList_cases hset with ⟨r, hw⟩ | ⟨addr, hw⟩
  · exact h.writeRegister hsize (fun _ _ => hform) hw
  · exact h.writeMemory hsize (fun _ _ => hform) hw

/-- Saving an expression changes the marks of the flags only. -/
theorem save_asserted (h : UppersKept vm₀ vm) {id : EntryID} {e : Expr}
    (hs : asserted (some (vm.saveFlagChangingInstructionExpr id e)) = some vm') :
    UppersKept vm₀ vm' := by
  have hsame := sameBytes_save vm id e
  have hsave : UppersKept vm₀ (vm.saveFlagChangingInstructionExpr id e).2 :=
    h.of_eq (hsame.shape h.shape) hsame.ptRegs hsame.symBitmap hsame.regCells
  rw [Option.some.inj (asserted_eq_some.1 hs)] at hsave
  exact hsave

end UppersKept

/-! ## Handlers -/

section Handlers

variable {vm₀ vm vm' : VMState} {vecOI : List OprndInfo} (h : UppersKept vm₀ vm)
  (hdst : ∀ oi, vecOI[0]? = some oi → oi.size = 4)

include h hdst

/-- A move writes its destination once. -/
theorem move_upper {f : Expr → Expr} {g : BitVec 64 → BitVec 64} {oidst oisrc : OprndInfo}
    (hoi : vecOI[0]? = some oidst) (hmoved : MovedTo f g vm oidst oisrc vm') :
    UppersKept vm₀ vm' := by
  have hsize := hdst oidst hoi
  cases hmoved with
  | expr e _ _ hset => exact h.setSymValue hsize hset
  | value v _ _ hset => exact h.setConValue hsize hset

/-- So does a handler that saves what it writes. -/
theorem setSave_upper {id : EntryID} {oi : OprndInfo} {oe : Expr} (hoi : vecOI[0]? = some oi)
    (hset : SetSaved id vm oi oe vm') : UppersKept vm₀ vm' := by
  obtain ⟨vm₁, hset, hsave⟩ := hset
  have h₁ := h.setSymValue (hdst oi hoi) hset
  exact h₁.save_asserted hsave

/-- A conditional move writes its destination once. -/
theorem processCmovxx_upper (hproc : processCmovxx vm vecOI = some vm') : UppersKept vm₀ vm' := by
  obtain ⟨oidst, oisrc, hoi, -, hmoved⟩ := processCmovxx_cases hproc
  exact move_upper h hdst hoi hmoved

/-- A widening move to four bytes writes them and no more. -/
theorem processExtend_upper {k : UryKind} (hproc : processExtend k vm vecOI = some vm') :
    UppersKept vm₀ vm' := by
  obtain ⟨oidst, oisrc, hoi, -, hmoved⟩ := processExtend_cases hproc
  exact move_upper h hdst hoi hmoved

/-- The two-operand handlers write their destination once. -/
theorem processBinary_upper {k : BinKind} {id : EntryID}
    (hproc : processBinary k id vm vecOI = some vm') : UppersKept vm₀ vm' := by
  obtain ⟨o1, o2, oe, ho1, -, -, hset⟩ := processBinary_cases hproc
  exact setSave_upper h hdst ho1 hset

/-- `neg` writes its operand once. -/
theorem processNeg_upper (hproc : processNeg vm vecOI = some vm') : UppersKept vm₀ vm' := by
  obtain ⟨o1, e, ho1, -, -, hset⟩ := processNeg_cases hproc
  exact setSave_upper h hdst ho1 hset

/-- A shift writes its destination once. -/
theorem processShift_upper {k : BinKind} {id : EntryID} {count : OprndInfo → OprndInfo → OprndInfo}
    (hproc : processShift k id count vm vecOI = some vm') : UppersKept vm₀ vm' := by
  obtain ⟨o1, o2, e, v, ho1, -, -, -, -, hset⟩ := processShift_cases hproc
  exact setSave_upper h hdst ho1 hset

/-- An exchange writes two operands of four bytes. -/
theorem processXchg_upper (hsnd : ∀ oi, vecOI[1]? = some oi → oi.size = 4)
    (hproc : processXchg vm vecOI = some vm') : UppersKept vm₀ vm' := by
  obtain ⟨o1, o2, ho1, ho2, hswap⟩ := processXchg_cases hproc
  have hs1 := hdst o1 ho1
  have hs2 := hsnd o2 ho2
  cases hswap with
  | both e1 e2 vm₁ _ _ _ hset1 hset2 => exact (h.setSymValue hs1 hset1).setSymValue hs2 hset2
  | first e1 v2 vm₁ _ _ _ hset1 hset2 => exact (h.setConValue hs1 hset1).setSymValue hs2 hset2
  | second e2 v1 vm₁ _ _ _ hset1 hset2 => exact (h.setSymValue hs1 hset1).setConValue hs2 hset2

end Handlers

/-! ## Instructions -/

/-- The instructions with a handler that can write a general register of 32
bits. -/
def writerIds : List EntryID :=
  [.mov, .add, .sub, .and, .or, .xor, .not, .neg, .shl_sal, .shr, .sar, .cmovbe, .cmove, .cmovnae,
   .cmovnb, .cmovnbe, .cmovne, .cmovng, .cmovnge, .cmovnl, .cmovno, .cmovns, .cmovo, .cmovpe,
   .cmovpo, .cmovs, .movzx, .movsx, .movslq, .movsxd, .xchg]

/-- A decoded instruction that writes a 32-bit register: its first operand, or
either operand of an exchange. Both operands of a move have that width. -/
structure Instruction.Writes32 (I : Instruction) (r : MachRegister) : Prop where
  id : I.id ∈ writerIds
  sizes : ∀ O ∈ I.operands, isAccessSize O.size = true
  dest : ∃ i O, I.operands[i]? = some O ∧ (i = 0 ∨ I.id = .xchg ∧ i = 1) ∧ O.isWritten = true ∧
    O.deref = none ∧ O.value = .register r 4
  wide : ∀ i O, I.operands[i]? = some O →
    i = 0 ∨ (I.id = .mov ∨ I.id = .xchg) ∧ i = 1 → O.size = 4

section Exec

variable {vm₀ vm vm' : VMState} {I : Instruction} {r : MachRegister}

/-- What the parser finds of a written operand has its width. -/
theorem Instruction.Writes32.oprnd_size (hI : I.Writes32 r) {b : Bool} {vecOI : List OprndInfo}
    (hall : List.Forall₂ (fun O oi => Parsed vm I O b oi) I.operands vecOI) {i : Nat}
    (hi : i = 0 ∨ (I.id = .mov ∨ I.id = .xchg) ∧ i = 1) :
    ∀ oi, vecOI[i]? = some oi → oi.size = 4 := by
  intro oi hoi
  obtain ⟨O, hO, hparsed⟩ := forall₂_getElem? hall hoi
  rw [hparsed.size_eq]
  exact hI.wide i O hO hi

/-- A move writes a value, an expression or a list of cells of four bytes. -/
theorem processMov_upper (h : UppersKept vm₀ vm) (hI : I.Writes32 r) (hid : I.id = .mov)
    (hproc : processMov vm I = some vm') : UppersKept vm₀ vm' := by
  obtain ⟨vecOI, vm₁, oidst, oisrc, hparse, hdst, hsrc, hmoved⟩ := processMov_cases hproc
  obtain ⟨hshape₁, hsame, hall⟩ := h.shape.parseOperands hI.sizes hparse
  have h₁ := h.of_sameCells hshape₁ hsame
  have hsize := hI.oprnd_size hall (Or.inl rfl) oidst hdst
  have hsizeS := hI.oprnd_size hall (Or.inr ⟨Or.inl hid, rfl⟩) oisrc hsrc
  -- By the kind of source, as the handler asks for it: a list of cells, else a concrete value.
  cases hmoved with
  | list cells v _ hlist hset =>
    have hform : ReadForm oidst.size cells := by
      obtain ⟨S, hS, hparsed⟩ := forall₂_getElem? hall hsrc
      have hop : ListOprnd (fun _ _ => True) oisrc :=
        .of_parsed exprLaw_true h.shape.vmCells (hI.sizes S (List.mem_of_getElem? hS)) hparsed
      rw [hsize, ← hsizeS]
      exact (hop.of_getSymList hlist).1
    exact h₁.setSymList hsize hform hset
  | value v _ _ _ hset => exact h₁.setConValue hsize hset

/-- No handler changes an upper half. -/
theorem Instruction.Writes32.uppersKept (h : VMShape vm) (hI : I.Writes32 r)
    (hexec : exec vm I = some vm') : UppersKept vm vm' := by
  obtain ⟨⟨vecOI, vm₁⟩, hparse, hproc⟩ := bind_some hexec
  obtain ⟨hshape₁, hsame, hall⟩ := h.parseOperands hI.sizes hparse
  have h₁ := (UppersKept.refl h).of_sameCells hshape₁ hsame
  have hdst : ∀ oi, vecOI[0]? = some oi → oi.size = 4 := hI.oprnd_size hall (Or.inl rfl)
  have hid := hI.id
  have hproc : process I vm₁ vecOI = some vm' := hproc
  rw [process] at hproc
  cases hcase : I.id <;> simp only [hcase] at hproc hid
  case mov => exact processMov_upper h₁ hI hcase hproc
  case add | sub | and | or | xor => exact processBinary_upper h₁ hdst hproc
  case not => simp [processNot_eq_none] at hproc
  case neg => exact processNeg_upper h₁ hdst hproc
  case shl_sal | shr | sar => exact processShift_upper h₁ hdst hproc
  case cmovbe | cmove | cmovnae | cmovnb | cmovnbe | cmovne | cmovng | cmovnge | cmovnl | cmovno
      | cmovns | cmovo | cmovpe | cmovpo | cmovs => exact processCmovxx_upper h₁ hdst hproc
  case movzx | movsx | movslq | movsxd => exact processExtend_upper h₁ hdst hproc
  case xchg =>
    exact processXchg_upper h₁ hdst (hI.oprnd_size hall (Or.inr ⟨Or.inr hcase, rfl⟩)) hproc
  all_goals simp [writerIds] at hid

/-- After an instruction that writes a 32-bit register the upper half of the 64-bit one is a
concrete zero exactly when it was one before. `writeConcreteValue` assigns the low four
bytes of the word and leaves the rest, as do the marks and the cells. So the upper half is
what it was. -/
theorem upperZero_iff (h : VMShape vm) (hI : I.Writes32 r) (hexec : exec vm I = some vm') :
    UpperZero vm' r.offt ↔ UpperZero vm r.offt :=
  ((hI.uppersKept h hexec).kept r.offt).zero_iff

end Exec

/-! ## `mov eax, ecx` -/

/-- `eax`, as it is written. -/
def movEax : Operand := ⟨.register ⟨.rax, .d⟩ 4, none, false, true⟩

/-- `ecx`, as it is read. -/
def movEcx : Operand := ⟨.register ⟨.rcx, .d⟩ 4, none, true, false⟩

/-- `mov eax, ecx`. -/
def movEaxEcx : Instruction := ⟨.mov, [movEax, movEcx], []⟩

/-- `mov eax, ecx` is a move between registers of four bytes. -/
theorem isMov_movEaxEcx (vm : VMState) : IsMov vm movEaxEcx movEax movEcx ⟨.rax, .d⟩ 4 where
  operands := rfl
  encoded := rfl
  register := ⟨rfl, rfl⟩
  written := ⟨rfl, rfl⟩
  read := ⟨rfl, rfl⟩
  source := .register ⟨.rcx, .d⟩ rfl rfl rfl
  known := by decide

/-- It is one of the instructions that write a 32-bit register. -/
theorem movEaxEcx_writes32 : movEaxEcx.Writes32 ⟨.rax, .d⟩ where
  id := by decide
  sizes := by decide
  dest := ⟨0, movEax, rfl, Or.inl rfl, rfl, rfl, rfl⟩
  wide := by
    rintro i O hO (rfl | ⟨-, rfl⟩)
    · obtain rfl := Option.some.inj hO
      rfl
    · obtain rfl := Option.some.inj hO
      rfl

/-- A machine with a symbol in `ecx` and a number in `rax`, and the state that
the move leaves. -/
theorem exists_exec_movEaxEcx (x : BitVec 64) :
    ∃ vm vm', VMShape vm ∧ vm.cpu.ptRegs .rax = x ∧ vm.cpu.symBitmap .rax = 0 ∧
      vm.cpu.regCells .rax = [] ∧ exec vm movEaxEcx = some vm' := by
  have hV : (listWrite ⟨.rcx, .d⟩ 4 [⟨0, 4, symbolOf 4⟩] 0).Writable :=
    ⟨rfl, fun _ _ => readForm_singleton (by decide)⟩
  obtain ⟨vm, -, hw⟩ := listWritten (vmShape_new (fun _ => x) fun _ => 0) (SameCells.refl _) hV
  -- the symbol leaves `rax` as the constructor has set it
  have hkept := hw.regKept (i := .rax) PtIdx.noConfusion
  have hsym : vm.isSymOprnd movEaxEcx movEcx = true := by
    have hrcx : vm.isSYReg ⟨.rcx, .d⟩ = true := hw.isSYReg hV
    show (vm.isSYReg ⟨.rcx, .d⟩ || false) = true
    rw [hrcx]
    rfl
  obtain ⟨-, vm', -, -, -, -, hexec, -⟩ :=
    (isMov_movEaxEcx vm).exists_exec hw.shape rfl hsym fun hsome => absurd hsome (by decide)
  exact ⟨vm, vm', hw.shape, hkept.words, hkept.bits, hkept.cells.trans (regCells_new _ _), hexec⟩

/-- Over an upper half of zero the move leaves zero there. -/
theorem upperZero_movEaxEcx : ∃ vm vm', vm.cpu.ptRegs .rax = 1 ∧
    exec vm movEaxEcx = some vm' ∧ UpperZero vm' .rax := by
  obtain ⟨vm, vm', h, hword, hbits, hcells, hexec⟩ := exists_exec_movEaxEcx 1
  refine ⟨vm, vm', hword, hexec, (upperZero_iff h movEaxEcx_writes32 hexec).2 ⟨?_, ?_, ?_⟩⟩
  · intro k hlow hhigh
    rw [hword]
    interval_cases k <;> rfl
  · intro k _ _
    rw [hbits]
    exact BitVec.getLsbD_zero
  · intro k _ _
    rw [hcells]
    exact covered_nil _

/-- Over an upper half of ones it leaves those. -/
theorem not_upperZero_movEaxEcx : ∃ vm vm', VMShape vm ∧ movEaxEcx.Writes32 ⟨.rax, .d⟩ ∧
    exec vm movEaxEcx = some vm' ∧ ¬ UpperZero vm' .rax := by
  obtain ⟨vm, vm', h, hword, -, -, hexec⟩ := exists_exec_movEaxEcx (BitVec.allOnes 64)
  refine ⟨vm, vm', h, movEaxEcx_writes32, hexec, fun hzero => ?_⟩
  have hkept := ((movEaxEcx_writes32.uppersKept h hexec).kept .rax).words 4 (by omega) (by omega)
  rw [hzero.words 4 (by omega) (by omega), hword] at hkept
  exact absurd hkept (by decide)

end KRover
