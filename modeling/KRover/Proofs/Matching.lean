import KRover.Proofs.BinaryStep
import KRover.Proofs.Machine
import KRover.Proofs.TransferTarget

/-! # The engine beside the machine

Under values of the symbols the engine stands for a machine. A byte that is marked
stands for the byte of its expression, and any other byte is what the engine has
there. The flags are the ones in `eflags`, or they are pending: then they are those
of the last operation, whose operands are in `m_LastExpr`.

* `Matches`: the engine stands for the machine;
* `Matches.concrete`: a step that leaves the marks and the cells as they are;
* `Matches.operandBytes`: the operands of the two are the same.
-/

set_option autoImplicit false

namespace KRover

open Segments BvTerm StatusFlags Bytes

/-- A word is its eight bytes. -/
theorem eq_of_bytes {x y : BitVec 64} (h : ∀ k < 8, byteOf x.toNat k = byteOf y.toNat k) :
    x = y := by
  refine BitVec.eq_of_getLsbD_eq fun i hi => ?_
  have hbit := congrArg (BitVec.getLsbD · (i % 8)) (h (i / 8) (by omega))
  rw [getLsbD_byteOf _ _ (by omega), getLsbD_byteOf _ _ (by omega), Nat.div_add_mod] at hbit
  exact hbit

namespace VMState

/-- A byte that its bitmap marks. -/
def Marked (vm : VMState) : ByteLoc → Prop
  | .reg i k => (vm.cpu.symBitmap i).getLsbD k = true
  | .mem b => vm.mem.bitmap.Marked b

/-- A mark of a register byte or of a memory byte is a bit. -/
instance (vm : VMState) (b : ByteLoc) : Decidable (vm.Marked b) :=
  match b with
  | .reg i k => inferInstanceAs (Decidable ((vm.cpu.symBitmap i).getLsbD k = true))
  | .mem b => inferInstanceAs (Decidable (vm.mem.bitmap.Marked b))

/-- What a byte stands for. -/
def byteValue (ρ : Valuation) (vm : VMState) : ByteLoc → BitVec 8
  | .reg i k => vm.regByte ρ i k
  | .mem b => vm.memByte ρ b

end VMState

/-- The flags of the machine are definite and in `eflags`, or they are those of the
last operation. -/
inductive FlagsMatch (ρ : Valuation) (vm : VMState) (m : Machine) : Prop where
  | definite (hdef : ∀ f, vm.cpu.bsymFlag f = false) (heflags : vm.cpu.ptRegs .efl = m.regs .efl)
  | pending (k : BinKind) (op : BinOp) (e1 e2 : Expr) (x y : List (BitVec 8))
      (hsym : ∀ f, vm.cpu.bsymFlag f = decide (f ∈ changedFlags)) (hk : k.op = some op)
      (hlast : vm.eflagsMgr.lastExpr = Expr.binExpr k e1 e2) (h1 : e1.denote ρ = some x)
      (h2 : e2.denote ρ = some y) (hlen : x.length = y.length) (hpos : 0 < x.length)
      (hflags : m.regs.flags = statusFlags op (bitsOf x x.length) (bitsOf y x.length))
      (heflags : ∀ i, (∀ f ∈ changedFlags, f.bit ≠ i) →
        (vm.cpu.ptRegs .efl).getLsbD i = (m.regs .efl).getLsbD i)

/-- The engine stands for the machine. The words `rip` and `eflags` are never
symbolic. -/
structure Matches (ρ : Valuation) (vm : VMState) (m : Machine) : Prop where
  agrees : VMAgrees vm
  bytes : ∀ b : ByteLoc, b.General → vm.byteValue ρ b = m.byte b
  plain : ∀ i ∈ [PtIdx.rip, .efl], ∀ k < 8, ¬ vm.Marked (.reg i k)
  flags : FlagsMatch ρ vm m

/-! ## Steps that change nothing symbolic -/

/-- What is concrete changes; the marks and the cells do not. -/
structure ConcreteStep (vm vm' : VMState) : Prop where
  symBitmap : vm'.cpu.symBitmap = vm.cpu.symBitmap
  symList : vm'.cpu.symList = vm.cpu.symList
  bitmap : vm'.mem.bitmap = vm.mem.bitmap
  allSymbolList : vm'.mem.allSymbolList = vm.mem.allSymbolList

section Steps

variable {ρ : Valuation} {vm vm' : VMState} {m m' : Machine} {b : ByteLoc}

namespace ConcreteStep

variable (h : ConcreteStep vm vm')

include h

/-- The marks are the same. -/
theorem marked (b : ByteLoc) : vm'.Marked b ↔ vm.Marked b := by
  cases b with
  | reg i k => rw [VMState.Marked, VMState.Marked, h.symBitmap]
  | mem b => rw [VMState.Marked, VMState.Marked, h.bitmap]

/-- So are the cells of the registers. -/
theorem regCells : vm'.cpu.regCells = vm.cpu.regCells := by
  funext i
  rw [SYCPUState.regCells, SYCPUState.regCells, h.symList]

/-- So are those of the memory. -/
theorem storedCells : vm'.mem.storedCells = vm.mem.storedCells := by
  rw [SYMemState.storedCells, SYMemState.storedCells, h.allSymbolList]

/-- So is the agreement of the two. -/
theorem vmAgrees (hvm : VMAgrees vm) : VMAgrees vm' := by
  have hmem := h.storedCells
  have hregs := h.regCells
  refine ⟨⟨hvm.cells.shape.congr h.bitmap h.allSymbolList h.symBitmap h.symList, ?_, ?_⟩, ?_, ?_⟩
  · rw [hmem]
    exact hvm.cells.memCells
  · rw [hregs]
    exact hvm.cells.regCells
  · have hagree := hvm.mem
    rw [SYMemState.Agrees] at hagree ⊢
    rwa [h.bitmap, hmem]
  · rw [h.symBitmap, hregs]
    exact hvm.regs

end ConcreteStep

/-- A byte with no mark stands for what the engine has there. -/
theorem VMAgrees.byteValue_unmarked (h : VMAgrees vm) (hb : b.Valid) (hmark : ¬ vm.Marked b) :
    vm.byteValue ρ b = vm.conByte b := by
  cases b with
  | reg i k =>
    have hnot : ¬ Covered (vm.cpu.regCells i) k := mt (h.regs i k hb).2 hmark
    rw [VMState.byteValue, VMState.regByte, (lookup_eq_none _ _ _).2 hnot]
    rfl
  | mem a =>
    have hnot : ¬ Covered vm.mem.storedCells (toInt64 a) := mt (h.mem a hb).2 hmark
    rw [VMState.byteValue, VMState.memByte, (lookup_eq_none _ _ _).2 hnot]
    rfl

/-- A byte with a mark stands for its cell. -/
theorem ConcreteStep.byteValue_marked (hstep : ConcreteStep vm vm') (h : VMAgrees vm)
    (hb : b.Valid) (hmark : vm.Marked b) : vm'.byteValue ρ b = vm.byteValue ρ b := by
  have hget : ∀ (L : List (Segment Expr)) (i : Int) (x y : BitVec 8), Covered L i →
      (lookup (Expr.byte ρ) L i).getD x = (lookup (Expr.byte ρ) L i).getD y := by
    intro L i x y hcov
    obtain ⟨v, hv⟩ := Option.isSome_iff_exists.1 ((lookup_isSome (Expr.byte ρ) L i).2 hcov)
    rw [hv]
    rfl
  cases b with
  | reg i k =>
    rw [VMState.byteValue, VMState.byteValue, VMState.regByte, VMState.regByte, hstep.regCells]
    exact hget _ _ _ _ ((h.regs i k hb).1 hmark)
  | mem a =>
    rw [VMState.byteValue, VMState.byteValue, VMState.memByte, VMState.memByte,
      hstep.storedCells]
    exact hget _ _ _ _ ((h.mem a hb).1 hmark)

namespace Matches

variable (h : Matches ρ vm m)

include h

/-- An unmarked byte of the engine is the byte of the machine. -/
theorem conByte (hb : b.General) (hmark : ¬ vm.Marked b) : vm.conByte b = m.byte b := by
  rw [← h.bytes b hb, h.agrees.byteValue_unmarked hb.valid hmark]

/-- The word of a register with no mark. -/
theorem word {i : PtIdx} (hi : i ≠ .efl) (hcon : ∀ k < 8, ¬ vm.Marked (.reg i k)) :
    vm.cpu.ptRegs i = m.regs i :=
  eq_of_bytes fun k hk => h.conByte (b := .reg i k) ⟨hi, hk⟩ (hcon k hk)

/-- Both stand at the same instruction. -/
theorem rip : vm.cpu.ptRegs .rip = m.regs .rip :=
  h.word (by decide) (h.plain .rip (by decide))

/-- The engine and the machine go on together when the bytes without marks are
those of the machine and it keeps those with marks. -/
theorem concrete (hstep : ConcreteStep vm vm')
    (hbytes : ∀ b : ByteLoc, b.General → ¬ vm.Marked b → vm'.conByte b = m'.byte b)
    (hkept : ∀ b : ByteLoc, b.General → vm.Marked b → m'.byte b = m.byte b)
    (hflags : FlagsMatch ρ vm' m') : Matches ρ vm' m' := by
  refine ⟨hstep.vmAgrees h.agrees, fun b hb => ?_, fun i hi k hk => ?_, hflags⟩
  · by_cases hmark : vm.Marked b
    · rw [hstep.byteValue_marked h.agrees hb.valid hmark, hkept b hb hmark, h.bytes b hb]
    · have hmark' : ¬ vm'.Marked b := mt (hstep.marked b).1 hmark
      rw [(hstep.vmAgrees h.agrees).byteValue_unmarked hb.valid hmark', hbytes b hb hmark]
  · rw [hstep.marked]
    exact h.plain i hi k hk

end Matches

/-- The flags are matched by `eflags`, the marks of the flags and the last
expression. -/
theorem FlagsMatch.congr (h : FlagsMatch ρ vm m) (hefl : vm'.cpu.ptRegs .efl = vm.cpu.ptRegs .efl)
    (hsym : vm'.cpu.bsymFlag = vm.cpu.bsymFlag)
    (hlast : vm'.eflagsMgr.lastExpr = vm.eflagsMgr.lastExpr) (hm : m'.regs .efl = m.regs .efl) :
    FlagsMatch ρ vm' m' := by
  have hflags : m'.regs.flags = m.regs.flags := by rw [MacReg.flags, MacReg.flags, hm]
  cases h with
  | definite hdef heflags =>
    refine .definite ?_ ?_
    · rw [hsym]
      exact hdef
    · rw [hefl, hm, heflags]
  | pending k op e1 e2 x y hsym' hk hlast' h1 h2 hlen hpos hflags' heflags =>
    refine .pending k op e1 e2 x y ?_ hk (hlast.trans hlast') h1 h2 hlen hpos
      (hflags.trans hflags') ?_
    · rw [hsym]
      exact hsym'
    · rw [hefl, hm]
      exact heflags

namespace Matches

variable (h : Matches ρ vm m)

include h

/-- Reads and the parsers change nothing that can be seen. -/
theorem same (hshape : VMShape vm') (hsame : SameCells vm vm') : Matches ρ vm' m := by
  refine ⟨hsame.vmAgrees hshape h.agrees, fun b hb => ?_, fun i hi k hk => ?_, ?_⟩
  · rw [← h.bytes b hb]
    cases b with
    | reg i k => exact hsame.regByte ρ i k
    | mem a => exact hsame.memByte ρ a
  · rw [VMState.Marked, hsame.symBitmap]
    exact h.plain i hi k hk
  · refine h.flags.congr ?_ hsame.bsymFlag ?_ rfl
    · rw [hsame.ptRegs]
    · rw [hsame.eflagsMgr]

/-- A word with no mark is set. -/
theorem setPtReg {i : PtIdx} (hi : i ≠ .efl) (hcon : ∀ k < 8, ¬ vm.Marked (.reg i k))
    (x : BitVec 64) : Matches ρ (vm.setPtReg i x) (m.setReg i x) := by
  refine h.concrete ⟨rfl, rfl, rfl, rfl⟩ (fun b hb hmark => ?_) (fun b hb hmark => ?_) ?_
  · cases b with
    | mem a => exact h.conByte hb hmark
    | reg j k =>
      rw [VMState.conByte, Machine.byte]
      by_cases hj : j = i
      · rw [hj, VMState.ptRegs_setPtReg_self, Machine.regs_setReg_self]
      · rw [VMState.ptRegs_setPtReg_of_ne _ hj, Machine.regs_setReg_of_ne _ hj]
        exact h.conByte hb hmark
  · cases b with
    | mem a => rfl
    | reg j k =>
      have hj : j ≠ i := by
        rintro rfl
        exact hcon k hb.2 hmark
      rw [Machine.byte, Machine.byte, Machine.regs_setReg_of_ne _ hj]
  · refine h.flags.congr ?_ rfl rfl ?_
    · exact VMState.ptRegs_setPtReg_of_ne _ hi.symm _
    · exact Machine.regs_setReg_of_ne _ hi.symm _

/-- A word with no mark is loaded. -/
theorem loadWord {addr t : BitVec 64} (hcon : ∀ k < 8, ¬ vm.Marked (.mem (addr.toNat + k)))
    (hload : vm.loadWord addr = some t) : t = m.loadWord addr := by
  rw [VMState.loadWord] at hload
  split at hload
  · rename_i hmapped
    have hle : addr.toNat + 8 ≤ 2 ^ 64 := (accessRange_word hmapped).le
    rw [← Option.some.inj hload, Machine.loadWord]
    refine congrArg _ (loadBytes_congr hle fun k hk => ?_)
    exact h.conByte (b := .mem (addr.toNat + k)) (show _ < _ by omega) (hcon k hk)
  · simp at hload

/-- A word with no mark is stored. -/
theorem storeWord {addr v : BitVec 64} (hcon : ∀ k < 8, ¬ vm.Marked (.mem (addr.toNat + k)))
    (hstore : vm.storeWord addr v = some vm') : Matches ρ vm' (m.storeWord addr v) := by
  rw [VMState.storeWord] at hstore
  split at hstore
  · rename_i hmapped
    have hle : addr.toNat + 8 ≤ 2 ^ 64 := (accessRange_word hmapped).le
    have hbyte : ∀ (mem : Nat → BitVec 8) (a : Nat), a < 2 ^ 64 →
        storeBytes mem addr.toNat 8 v a = if addr.toNat ≤ a ∧ a < addr.toNat + 8 then
          byteOf v.toNat (a - addr.toNat) else mem a := by
      intro mem a ha
      split
      · rename_i hin
        have hstored :=
          @storeBytes_inside mem addr.toNat 8 (a - addr.toNat) (by decide) v (by omega)
        rwa [Nat.add_sub_cancel' hin.1] at hstored
      · rename_i hout
        exact storeBytes_outside hle v ha hout
    rw [← Option.some.inj hstore]
    refine h.concrete ⟨rfl, rfl, rfl, rfl⟩ (fun b hb hmark => ?_) (fun b hb hmark => ?_)
      (h.flags.congr rfl rfl rfl rfl)
    · cases b with
      | reg i k => exact h.conByte hb hmark
      | mem a =>
        show storeBytes vm.mem.concrete addr.toNat 8 v a = storeBytes m.mem addr.toNat 8 v a
        rw [hbyte _ a hb, hbyte _ a hb]
        split
        · rfl
        · exact h.conByte hb hmark
    · cases b with
      | reg i k => rfl
      | mem a =>
        show storeBytes m.mem addr.toNat 8 v a = m.mem a
        refine storeBytes_outside hle v hb fun hin => ?_
        -- the stored bytes have no marks
        have hnot := hcon (a - addr.toNat) (by omega)
        rw [Nat.add_sub_cancel' hin.1] at hnot
        exact hnot hmark
  · simp at hstore

end Matches

end Steps

/-! ## Operands -/

/-- An operand in memory is found by whole registers that are not symbolic. -/
structure Operand.Addressed (O : Operand) (vm : VMState) (I : Instruction) : Prop where
  registers : ∀ P ∈ O.value.uses, P.1.sub = .full ∧ P.2 = 8 ∧ P.1.offt ≠ .efl ∧
    ∀ k < 8, ¬ vm.Marked (.reg P.1.offt k)
  gs : ∀ k < 8, ¬ vm.Marked (.reg .gs k)
  range : AccessRange (O.address I vm.cpu) O.size

section Operands

variable {ρ : Valuation} {vm : VMState} {m : Machine} {I : Instruction} {O : Operand}
  (h : Matches ρ vm m)

include h

/-- An address over unmarked registers is the same on both sides. -/
theorem Matches.eval {a : OperandAST} (hregs : ∀ P ∈ a.uses, P.1.sub = .full ∧ P.2 = 8 ∧
    P.1.offt ≠ .efl ∧ ∀ k < 8, ¬ vm.Marked (.reg P.1.offt k)) : a.eval vm.cpu = a.eval m.cpu := by
  induction a with
  | register r size =>
    obtain ⟨hfull, hsize, hefl, hcon⟩ := hregs (r, size) List.mem_cons_self
    obtain ⟨i, sub⟩ := r
    obtain rfl : sub = .full := hfull
    obtain rfl : size = 8 := hsize
    rw [OperandAST.eval, OperandAST.eval, registerResult_full, registerResult_full]
    exact h.word hefl hcon
  | immediate v size => rfl
  | add x y size ihx ihy =>
    rw [OperandAST.eval, OperandAST.eval, ihx fun P hP => hregs P (List.mem_append_left _ hP),
      ihy fun P hP => hregs P (List.mem_append_right _ hP)]
  | multiply x y size ihx ihy =>
    rw [OperandAST.eval, OperandAST.eval, ihx fun P hP => hregs P (List.mem_append_left _ hP),
      ihy fun P hP => hregs P (List.mem_append_right _ hP)]

/-- So is the address of an operand. -/
theorem Matches.address (hO : O.Addressed vm I) : O.address I vm.cpu = O.address I m.cpu := by
  have hgs : I.gsBase vm.cpu = I.gsBase m.cpu := by
    rw [Instruction.gsBase, Instruction.gsBase, SYCPUState.readConcreteValue_full,
      SYCPUState.readConcreteValue_full]
    split
    · exact h.word (by decide) hO.gs
    · rfl
  rw [Operand.address, Operand.address, hgs, h.eval hO.registers]

/-- The operands of the engine stand for those of the machine. -/
theorem Matches.operandBytes {w : Nat} (hform : O.Form w)
    (haddr : O.deref.isSome = true → O.Addressed vm I)
    (hefl : ∀ P ∈ O.value.uses, P.1.offt ≠ .efl) : O.bytes ρ vm I = m.bytes I O := by
  cases hform with
  | register r hderef hval henc =>
    have hsize := (regIdxToAddrSize_of_encoded henc).2.2
    have hne : r.offt ≠ .efl := hefl (r, w) (by rw [hval]; exact List.mem_cons_self)
    rw [Operand.bytes, Machine.bytes, hderef, hval]
    refine List.map_congr_left fun k hk => ?_
    have hk := List.mem_range.1 hk
    exact h.bytes (.reg r.offt k) ⟨hne, by omega⟩
  | memory hderef =>
    have hO := haddr (by rw [hderef]; rfl)
    have hrange := hO.range.le
    have hsize : O.size = w := by rw [Operand.size, hderef]; rfl
    rw [Operand.bytes, Machine.bytes, hderef, ← h.address hO]
    refine List.map_congr_left fun k hk => ?_
    have hk := List.mem_range.1 hk
    exact h.bytes (.mem (O.address I vm.cpu + k)) (show _ < _ by omega)
  | immediate v hderef hval =>
    rw [Operand.bytes, Machine.bytes, hderef, hval]
    rfl

end Operands

end KRover
