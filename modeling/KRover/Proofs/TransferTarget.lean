import KRover.ControlTransfer
import KRover.Proofs.OprndParse

/-! # The target of a control transfer

A transfer follows its target when `rip` becomes the target if all its bytes
are concrete, and the run stops if one of them is symbolic. A direct target has
no bytes to look at. A target in memory counts as symbolic too when a register
of its address is.

* `exists_memoryTarget`, `memoryTarget_spec`: what is read from memory;
* `Follows`: the transfer follows its target;
* `follows_iff`: when it does. A return looks at the stack pointer only; a jump
  through memory asks for a symbolic byte where a call asks for none; and both
  leave out the base of `gs`.
-/

set_option autoImplicit false

namespace KRover

open Segments

/-! ## Registers and memory -/

/-- All of a word is read. -/
theorem SYCPUState.readConcreteValue_full (st : SYCPUState) (i : PtIdx) (u : BitVec 64) :
    st.readConcreteValue ⟨i, .full⟩ 8 u = st.ptRegs i := by
  rw [SYCPUState.readConcreteValue, if_neg (by decide), assignLow]
  simp

/-- A register of eight bytes is a whole word. -/
theorem sub_of_dyinstEncoding_eight {r : MachRegister} (h : dyinstEncoding r = some 8) :
    r = ⟨r.offt, .full⟩ := by
  obtain ⟨i, sub⟩ := r
  cases sub
  · rfl
  all_goals cases i <;> exact absurd h (by simp [dyinstEncoding])

namespace VMState

/-- The concrete word at an address. -/
def memWord (vm : VMState) (addr : Nat) : BitVec 64 :=
  BitVec.ofNat 64 (loadBytes vm.mem.concrete addr 8)

/-- What `memoryTarget` can read with `bsym`: eight bytes that can be mapped,
with a symbolic one or without. A chunk is left only by concrete bytes. -/
def Readable (vm : VMState) (addr : Nat) (bsym : Bool) : Prop :=
  mapped addr 8 = true ∧ vm.mem.isSYMemoryCell addr 8 = bsym ∧
    (bsym = true → SYMemState.crossesChunk addr 8 = false)

/-- A register of the address is symbolic. -/
def SymAddress (vm : VMState) (O : Operand) : Prop :=
  ∃ P ∈ O.readSet, vm.isSYReg P.1 = true

/-- The address of an operand is looked at register by register. -/
instance (vm : VMState) (O : Operand) : Decidable (vm.SymAddress O) :=
  inferInstanceAs (Decidable (∃ P ∈ O.readSet, vm.isSYReg P.1 = true))

end VMState

/-- Eight bytes that can be mapped are accessed. -/
theorem accessRange_word {addr : Nat} (h : VMState.mapped addr 8 = true) : AccessRange addr 8 :=
  accessRange_of_mapped rfl h

/-- Eight bytes are read as they are. -/
theorem readConcrete_word (mem : Nat → BitVec 8) (addr : Nat) :
    readConcrete mem addr 8 = some (BitVec.ofNat 64 (loadBytes mem addr 8)) := by
  rw [readConcrete, if_pos (by rfl)]
  show some ((BitVec.ofNat 64 _).signExtend 64) = _
  rw [BitVec.signExtend_eq]

/-- The concrete part of eight bytes that are read. -/
theorem SYMemState.i64_valueRead_word (st : SYMemState) (addr : Nat) :
    (st.valueRead (memRead addr 8 false)).i64
      = BitVec.ofNat 64 (loadBytes st.concrete addr 8) := by
  show (SYMemState.valueRead st ⟨addr, 8, false, false, 0, .null, []⟩).i64 = _
  rw [SYMemState.valueRead]
  simp only [readConcrete_word]
  split <;> rfl

namespace VMShape

variable {vm vm' : VMState} {O : Operand} {b : Bool}

/-- Only concrete registers are found among concrete ones. -/
theorem exists_findSymReg (h : VMShape vm) {regs : List (MachRegister × Nat)}
    (henc : ∀ P ∈ regs, dyinstEncoding P.1 = some P.2)
    (hcon : ∀ P ∈ regs, vm.isSYReg P.1 = false) :
    ∃ vm', vm.findSymReg regs = some (false, vm') ∧ VMShape vm' ∧ SameCells vm vm' := by
  induction regs generalizing vm with
  | nil => exact ⟨vm, rfl, h, SameCells.refl vm⟩
  | cons P regs ih =>
    obtain ⟨vm₁, hread, hshape, hsame⟩ := h.exists_readRegisterExpr (henc P (by simp))
    have hcon₁ : ∀ Q ∈ regs, vm₁.isSYReg Q.1 = false := by
      intro Q hQ
      rw [hsame.isSYReg]
      exact hcon Q (by simp [hQ])
    have hP : (vm.cpu.valueRead (regRead P.1 P.2 false)).bsym = false := by
      rw [SYCPUState.bsym_valueRead]
      exact hcon P (by simp)
    obtain ⟨vm', hrest, hshape', hsame'⟩ := ih hshape (fun Q hQ => henc Q (by simp [hQ])) hcon₁
    refine ⟨vm', ?_, hshape', hsame.trans hsame'⟩
    rw [VMState.findSymReg, hread]
    simp only [Option.bind_eq_bind, Option.bind_some, hP, Bool.false_eq_true, if_false]
    exact hrest

/-- A target that can be read is read. -/
theorem exists_memoryTarget (h : VMShape vm)
    (henc : ∀ P ∈ O.readSet, dyinstEncoding P.1 = some P.2)
    (hcon : ¬ vm.SymAddress O) (hr : vm.Readable (O.value.eval vm.cpu).toNat b) :
    ∃ vm', vm.memoryTarget O b = some (vm.memWord (O.value.eval vm.cpu).toNat, vm') ∧
      SameCells vm vm' := by
  obtain ⟨hmapped, hsym, hcross⟩ := hr
  have hcon : ∀ P ∈ O.readSet, vm.isSYReg P.1 = false := by
    intro P hP
    exact Bool.eq_false_iff.2 fun hP' => hcon ⟨P, hP, hP'⟩
  obtain ⟨vm₁, hfind, hshape₁, hsame₁⟩ := h.exists_findSymReg henc hcon
  have hrange := accessRange_word hmapped
  have hsym₁ : vm₁.mem.isSYMemoryCell (O.value.eval vm.cpu).toNat 8 = b := by
    rw [hsame₁.isSYMemoryCell, hsym]
  -- The word is read whole, as an expression if it is symbolic. Only that read needs the one chunk.
  have hread : ∃ W vm₂, vm₁.readMemory (memRead (O.value.eval vm.cpu).toNat 8 false)
      = some (true, W, vm₂) := by
    cases b with
    | true => exact hshape₁.exists_readMemory hrange hsym₁ (hcross rfl) false
    | false => exact exists_readMemory_concrete hrange hsym₁ false
  obtain ⟨W, vm₂, hread⟩ := hread
  obtain ⟨hshape₂, hsame₂, -, hW⟩ := hshape₁.readMemory rfl hread
  have hval : W.i64 = vm.memWord (O.value.eval vm.cpu).toNat := by
    rw [hW, SYMemState.i64_valueRead_word, hsame₁.concrete]
    rfl
  have hbsym : W.bsym = b := by
    rw [hW, SYMemState.bsym_valueRead]
    exact hsym₁
  have hasserted : asserted (vm₁.readMemory
      ⟨(O.value.eval vm₁.cpu).toNat, 8, false, false, 0, .null, []⟩) = some (W, vm₂) := by
    rw [hsame₁.eval]
    exact asserted_eq_some.2 hread
  refine ⟨vm₂, ?_, hsame₁.trans hsame₂⟩
  have hbind : vm.bindRegValForMemOpd O = some (true, vm₁) := by
    rw [VMState.bindRegValForMemOpd, hfind]
    rfl
  rw [VMState.memoryTarget, hbind]
  simp only [Option.bind_eq_bind, Option.bind_some, Bool.not_true, Bool.false_eq_true, if_false,
    hasserted, hbsym, if_true, hval]
  rfl

/-- Nothing else is. -/
theorem memoryTarget_spec (h : VMShape vm) {t : BitVec 64}
    (hrun : vm.memoryTarget O b = some (t, vm')) :
    ¬ vm.SymAddress O ∧ vm.Readable (O.value.eval vm.cpu).toNat b ∧
      t = vm.memWord (O.value.eval vm.cpu).toNat ∧ SameCells vm vm' ∧ VMShape vm' := by
  rw [VMState.memoryTarget] at hrun
  obtain ⟨⟨noSymReg, vm₁⟩, hbind, hrun⟩ := bind_some hrun
  rw [VMState.bindRegValForMemOpd] at hbind
  obtain ⟨⟨symReg, vm₁'⟩, hfind, hbind⟩ := bind_some hbind
  cases hbind
  obtain ⟨hshape₁, hsame₁, hnone, -⟩ := h.findSymReg hfind
  -- A symbolic address ends the call before anything is read.
  cases symReg with
  | true => exact absurd hrun (by simp)
  | false =>
    simp only [Bool.not_false, Bool.not_true, Bool.false_eq_true, if_false] at hrun
    obtain ⟨⟨W, vm₂⟩, hread, hrun⟩ := bind_some hrun
    have hread := asserted_eq_some.1 hread
    rw [hsame₁.eval] at hread
    have hread : vm₁.readMemory (memRead (O.value.eval vm.cpu).toNat 8 false)
        = some (true, W, vm₂) := hread
    obtain ⟨hshape₂, hsame₂, hrange, hW⟩ := hshape₁.readMemory rfl hread
    have hbsym : W.bsym = vm.mem.isSYMemoryCell (O.value.eval vm.cpu).toNat 8 := by
      rw [hW, SYMemState.bsym_valueRead, ← hsame₁.isSYMemoryCell]
      rfl
    have hval : W.i64 = vm.memWord (O.value.eval vm.cpu).toNat := by
      rw [hW, SYMemState.i64_valueRead_word, hsame₁.concrete]
      rfl
    dsimp only at hrun
    split at hrun
    · rename_i hb
      cases hrun
      have hcross : b = true →
          SYMemState.crossesChunk (O.value.eval vm.cpu).toNat 8 = false := by
        rintro rfl
        have hsym : vm₁.mem.isSYMemoryCell (O.value.eval vm.cpu).toNat 8 = true := by
          rw [hsame₁.isSYMemoryCell, ← hbsym, hb]
        exact crossesChunk_of_readMemory hsym hread
      have hnosym : ¬ vm.SymAddress O := by
        rintro ⟨P, hP, hsym⟩
        rw [hnone rfl P hP] at hsym
        exact Bool.false_ne_true hsym
      exact ⟨hnosym, ⟨hrange.mapped, hbsym.symm.trans hb, hcross⟩, hval, hsame₁.trans hsame₂,
        hshape₂⟩
    · exact absurd hrun (by simp)

end VMShape

/-! ## Transfers -/

/-- The transfers that the engine carries out. -/
inductive Transfer where
  | jump | call | ret
deriving DecidableEq, Repr

/-- The dispatcher of a transfer; the jump is not conditional. -/
def ThinState.transfer (S : BvTerm.Simplifier) (st : ThinState) (C : CachedInsn) :
    Transfer → Option ThinState
  | .jump => st.dispatchBranch S C false
  | .call => (st.vm.dispatchCall C).map fun vm => { st with vm := vm }
  | .ret => st.vm.dispatchRet.map fun vm => { st with vm := vm }

/-- Where an instruction takes its target from. -/
inductive Target where
  | direct (t : BitVec 64)
  | register (r : MachRegister)
  | memory (O : Operand)
  | stack

/-- The target of a transfer as its instruction gives it. -/
inductive HasTarget (vm : VMState) (C : CachedInsn) : Transfer → Target → Prop where
  | direct (T : Transfer) (O : Operand) (t : BitVec 64) (hT : T ≠ .ret)
      (hop : C.operands = [O]) (hderef : O.deref = none)
      (hval : O.value.evalRip (vm.cpu.ptRegs .rip) = some (t + BitVec.ofNat 64 C.length)) :
      HasTarget vm C T (.direct t)
  | register (T : Transfer) (r : MachRegister) (w : Bool) (hT : T ≠ .ret)
      (hop : C.operands = [⟨.register r 8, none, true, w⟩]) (henc : dyinstEncoding r = some 8)
      (hrip : r.offt ≠ .rip) : HasTarget vm C T (.register r)
  | memory (T : Transfer) (O : Operand) (hT : T ≠ .ret) (hop : C.operands = [O])
      (hderef : O.deref = some 8) (hread : O.isRead = true)
      (henc : ∀ P ∈ O.readSet, dyinstEncoding P.1 = some P.2)
      (hmapped : VMState.mapped (O.address C.toInstruction vm.cpu) 8 = true) :
      HasTarget vm C T (.memory O)
  | stack : HasTarget vm C .ret .stack

/-- The stack is there for the word that a transfer pushes or pops. -/
def Transfer.StackMapped (vm : VMState) : Transfer → Prop
  | .jump => True
  | .call => VMState.mapped (vm.cpu.ptRegs .rsp - 8).toNat 8 = true
  | .ret => VMState.mapped (vm.cpu.ptRegs .rsp).toNat 8 = true

namespace Target

/-- Eight bytes of memory if they are all concrete. -/
def wordOf (vm : VMState) (addr : Nat) : Option (BitVec 64) :=
  if vm.mem.isSYMemoryCell addr 8 then none else some (vm.memWord addr)

/-- The target if all its bytes are concrete. -/
def contents (vm : VMState) (C : CachedInsn) : Target → Option (BitVec 64)
  | direct t => some t
  | register r => if vm.isSYReg r then none else some (vm.cpu.ptRegs r.offt)
  | memory O =>
    if vm.SymAddress O then none else wordOf vm (O.address C.toInstruction vm.cpu)
  | stack =>
    if vm.isSYReg ⟨.rsp, .full⟩ then none else wordOf vm (vm.cpu.ptRegs .rsp).toNat

/-- When the dispatcher of a transfer looks at its target as it should. Memory
is read at the address without the base of `gs`, by a jump with `bsym`. -/
def Seen (vm : VMState) (C : CachedInsn) (T : Transfer) : Target → Prop
  | direct _ | register _ => True
  | memory O => vm.SymAddress O ∨
    if vm.mem.isSYMemoryCell (O.address C.toInstruction vm.cpu) 8 then
      ¬ vm.Readable (O.value.eval vm.cpu).toNat (T = .jump)
    else
      vm.Readable (O.value.eval vm.cpu).toNat (T = .jump) ∧
        vm.memWord (O.value.eval vm.cpu).toNat = vm.memWord (O.address C.toInstruction vm.cpu)
  | stack => vm.isSYReg ⟨.rsp, .full⟩ = true ∨
    vm.mem.isSYMemoryCell (vm.cpu.ptRegs .rsp).toNat 8 = false

end Target

/-- The run goes to a target whose bytes are all concrete, and stops at one
with a symbolic byte. -/
def Follows (S : BvTerm.Simplifier) (st : ThinState) (C : CachedInsn) (T : Transfer)
    (F : Target) : Prop :=
  (st.transfer S C T).map (fun st' => st'.vm.cpu.ptRegs .rip) = F.contents st.vm C

/-! ## Each form of target -/

/-- The word of a register that is assigned. -/
@[simp] theorem VMState.ptRegs_setPtReg_self (vm : VMState) (i : PtIdx) (x : BitVec 64) :
    (vm.setPtReg i x).cpu.ptRegs i = x := by
  show Function.update vm.cpu.ptRegs i x i = x
  exact Function.update_self i x vm.cpu.ptRegs

/-- The other words. -/
theorem VMState.ptRegs_setPtReg_of_ne (vm : VMState) {i j : PtIdx} (h : j ≠ i) (x : BitVec 64) :
    (vm.setPtReg i x).cpu.ptRegs j = vm.cpu.ptRegs j := by
  show Function.update vm.cpu.ptRegs i x j = vm.cpu.ptRegs j
  exact Function.update_of_ne h x vm.cpu.ptRegs

/-- A call that has its target goes there. -/
theorem map_pushAndGo {vm : VMState} (t : BitVec 64)
    (h : VMState.mapped (vm.cpu.ptRegs .rsp - 8).toNat 8 = true) :
    (vm.pushAndGo t).map (fun vm' => vm'.cpu.ptRegs .rip) = some t := by
  have hrsp : (vm.setPtReg .rsp (vm.cpu.ptRegs .rsp - 8)).cpu.ptRegs .rsp
      = vm.cpu.ptRegs .rsp - 8 := vm.ptRegs_setPtReg_self .rsp _
  rw [VMState.pushAndGo]
  simp only [VMState.storeWord, hrsp, h, if_true, Option.bind_eq_bind, Option.bind_some]
  show some (VMState.cpu _ |>.ptRegs .rip) = _
  rw [VMState.ptRegs_setPtReg_self]

section
variable {S : BvTerm.Simplifier} {st : ThinState} {C : CachedInsn} {T : Transfer} {O : Operand}

/-- What a jump or a call does with its target. -/
def ThinState.goTo (S : BvTerm.Simplifier) (st : ThinState) (C : CachedInsn) (T : Transfer)
    (vm : VMState) (t : BitVec 64) : Option ThinState :=
  match T with
  | .jump => { st with vm := vm }.goIf S C.id false t
  | .call | .ret => (vm.pushAndGo t).map fun vm => { st with vm := vm }

/-- It goes there. -/
theorem map_goTo {vm : VMState} (t : BitVec 64) (hT : T ≠ .ret) (hstack : T.StackMapped st.vm)
    (hregs : vm.cpu.ptRegs = st.vm.cpu.ptRegs) :
    (st.goTo S C T vm t).map (fun st' => st'.vm.cpu.ptRegs .rip) = some t := by
  cases T with
  | ret => exact absurd rfl hT
  | jump => exact congrArg some (vm.ptRegs_setPtReg_self .rip t)
  | call =>
    have hstack : VMState.mapped (vm.cpu.ptRegs .rsp - 8).toNat 8 = true := by
      rw [hregs]
      exact hstack
    rw [ThinState.goTo, Option.map_map]
    exact map_pushAndGo t hstack

/-- A transfer whose target is not in memory. -/
theorem transfer_of_not_readsMemory (hT : T ≠ .ret) (hop : C.operands = [O])
    (hreads : O.readsMemory = false) :
    st.transfer S C T =
      match O.value.evalRip (st.vm.cpu.ptRegs .rip) with
      | some res => st.goTo S C T st.vm (res - BitVec.ofNat 64 C.length)
      | none => (st.vm.registerTarget O).bind fun (t, vm) => st.goTo S C T vm t := by
  cases T with
  | ret => exact absurd rfl hT
  | jump =>
    rw [ThinState.transfer, ThinState.dispatchBranch, hop]
    simp only [hreads, Bool.not_false, if_true]
    rfl
  | call =>
    rw [ThinState.transfer, VMState.dispatchCall, hop]
    simp only [hreads, Bool.not_false, if_true]
    cases O.value.evalRip (st.vm.cpu.ptRegs .rip) with
    | some res => rfl
    | none =>
      show ((st.vm.registerTarget O).bind _).map _ = (st.vm.registerTarget O).bind _
      rw [Option.map_bind]
      rfl

/-- A transfer whose target is. -/
theorem transfer_of_readsMemory (hT : T ≠ .ret) (hop : C.operands = [O])
    (hreads : O.readsMemory = true) :
    st.transfer S C T =
      (st.vm.memoryTarget O (T = .jump)).bind fun (t, vm) => st.goTo S C T vm t := by
  cases T with
  | ret => exact absurd rfl hT
  | jump =>
    rw [ThinState.transfer, ThinState.dispatchBranch, hop]
    simp only [hreads, Bool.not_true, Bool.false_eq_true, if_false, decide_true]
    rfl
  | call =>
    rw [ThinState.transfer, VMState.dispatchCall, hop]
    simp only [hreads, Bool.not_true, Bool.false_eq_true, if_false]
    show ((st.vm.memoryTarget O false).bind _).map _ = (st.vm.memoryTarget O false).bind _
    rw [Option.map_bind]
    rfl

/-- A direct target is followed. -/
theorem follows_direct {t : BitVec 64} (hT : T ≠ .ret) (hstack : T.StackMapped st.vm)
    (hop : C.operands = [O]) (hderef : O.deref = none)
    (hval : O.value.evalRip (st.vm.cpu.ptRegs .rip) = some (t + BitVec.ofNat 64 C.length)) :
    Follows S st C T (.direct t) := by
  have hreads : O.readsMemory = false := by rw [Operand.readsMemory, hderef]; rfl
  rw [Follows, transfer_of_not_readsMemory hT hop hreads, hval, Target.contents]
  show (st.goTo S C T st.vm (t + BitVec.ofNat 64 C.length - BitVec.ofNat 64 C.length)).map _ = _
  rw [map_goTo _ hT hstack rfl, BitVec.add_sub_cancel]

/-- So is a register. -/
theorem follows_register (h : VMShape st.vm) {r : MachRegister} {w : Bool} (hT : T ≠ .ret)
    (hstack : T.StackMapped st.vm) (hop : C.operands = [⟨.register r 8, none, true, w⟩])
    (henc : dyinstEncoding r = some 8) (hrip : r.offt ≠ .rip) :
    Follows S st C T (.register r) := by
  have heval : OperandAST.evalRip (st.vm.cpu.ptRegs .rip) (.register r 8) = none := by
    show (if r = ⟨.rip, .full⟩ then _ else none) = none
    rw [if_neg]
    rintro rfl
    exact hrip rfl
  obtain ⟨vm, hread, -, hsame⟩ := h.exists_readRegisterExpr henc
  rw [Follows, transfer_of_not_readsMemory hT hop rfl]
  simp only [heval]
  have hreg : st.vm.registerTarget ⟨.register r 8, none, true, w⟩
      = if st.vm.isSYReg r then none else some (st.vm.cpu.ptRegs r.offt, vm) := by
    have hi64 : (st.vm.cpu.valueRead (regRead r 8 false)).i64 = st.vm.cpu.ptRegs r.offt := by
      rw [SYCPUState.i64_valueRead]
      show st.vm.cpu.readConcreteValue r 8 0 = _
      rw [sub_of_dyinstEncoding_eight henc, SYCPUState.readConcreteValue_full]
    show (st.vm.readRegisterExpr r 8).bind _ = _
    rw [hread, Option.bind_some]
    simp only [SYCPUState.bsym_valueRead, hi64]
    rfl
  rw [hreg, Target.contents]
  cases hsym : st.vm.isSYReg r with
  | true => rfl
  | false => exact map_goTo _ hT hstack hsame.ptRegs

/-- A target in memory is followed if it is seen. -/
theorem follows_memory_iff (h : VMShape st.vm) (hT : T ≠ .ret) (hstack : T.StackMapped st.vm)
    (hop : C.operands = [O]) (hderef : O.deref = some 8) (hread : O.isRead = true)
    (henc : ∀ P ∈ O.readSet, dyinstEncoding P.1 = some P.2) :
    Follows S st C T (.memory O) ↔ (Target.memory O).Seen st.vm C T := by
  have hreads : O.readsMemory = true := by rw [Operand.readsMemory, hderef, hread]; rfl
  rw [Follows, transfer_of_readsMemory hT hop hreads, Target.contents, Target.Seen]
  -- the run stops unless the target can be read
  have hstop : ¬ (¬ st.vm.SymAddress O ∧
      st.vm.Readable (O.value.eval st.vm.cpu).toNat (T = .jump)) →
      st.vm.memoryTarget O (T = .jump) = none := by
    intro hno
    cases hrun : st.vm.memoryTarget O (T = .jump) with
    | none => rfl
    | some P =>
      obtain ⟨haddr, hr, -, -⟩ := h.memoryTarget_spec hrun
      exact absurd ⟨haddr, hr⟩ hno
  by_cases haddr : st.vm.SymAddress O
  · rw [hstop fun hno => hno.1 haddr, if_pos haddr]
    exact iff_of_true rfl (Or.inl haddr)
  · rw [if_neg haddr, or_iff_right haddr, Target.wordOf]
    -- The jump asserts a symbolic word where the call asserts a concrete one.
    by_cases hr : st.vm.Readable (O.value.eval st.vm.cpu).toNat (T = .jump)
    · obtain ⟨vm, hrun, hsame⟩ := h.exists_memoryTarget henc haddr hr
      rw [hrun, Option.bind_some]
      show (st.goTo S C T vm _).map _ = _ ↔ _
      rw [map_goTo _ hT hstack hsame.ptRegs]
      split
      · exact iff_of_false (by simp) (fun hno => hno hr)
      · rw [Option.some_inj]
        exact (and_iff_right hr).symm
    · rw [hstop fun hno => hr hno.2]
      split
      · exact iff_of_true rfl hr
      · exact iff_of_false (by simp) (fun hno => hr hno.1)

/-- The return address is followed if it is. -/
theorem follows_stack_iff (hstack : Transfer.ret.StackMapped st.vm) :
    Follows S st C .ret .stack ↔ Target.stack.Seen st.vm C .ret := by
  have hstack : VMState.mapped (st.vm.cpu.ptRegs .rsp).toNat 8 = true := hstack
  rw [Follows, ThinState.transfer, VMState.dispatchRet, Target.contents, Target.Seen]
  cases hsym : st.vm.isSYReg ⟨.rsp, .full⟩ with
  | true => exact iff_of_true rfl (Or.inl rfl)
  | false =>
    simp only [VMState.loadWord, hstack, Bool.false_eq_true, if_false, if_true,
      Option.bind_eq_bind, Option.bind_some, false_or, Option.map_map]
    show some (VMState.cpu ((st.vm.setPtReg .rip _).setPtReg .rsp _) |>.ptRegs .rip) = _ ↔ _
    rw [VMState.ptRegs_setPtReg_of_ne _ (by decide), VMState.ptRegs_setPtReg_self, Target.wordOf]
    cases st.vm.mem.isSYMemoryCell (st.vm.cpu.ptRegs .rsp).toNat 8 with
    | true => exact iff_of_false (by simp) (by simp)
    | false => exact iff_of_true rfl rfl

/-- A call through memory without `gs` sees its target. -/
theorem seen_call (h : VMState.mapped (O.address C.toInstruction st.vm.cpu) 8 = true)
    (hgs : C.toInstruction.gsBase st.vm.cpu = 0) :
    (Target.memory O).Seen st.vm C .call := by
  have haddr : (O.value.eval st.vm.cpu).toNat = O.address C.toInstruction st.vm.cpu := by
    rw [Operand.address, hgs]
    exact congrArg BitVec.toNat (BitVec.add_zero _).symm
  rw [Target.Seen, haddr]
  refine Or.inr ?_
  split
  · rename_i hsym
    rintro ⟨-, hcon, -⟩
    rw [hsym] at hcon
    exact absurd hcon (by decide)
  · rename_i hcon
    exact ⟨⟨h, Bool.eq_false_iff.2 hcon, fun hj => absurd hj (by decide)⟩, rfl⟩

/-- A jump sees it only to stop: at a symbolic address, or at symbolic bytes in
two chunks. -/
theorem seen_jump_iff (h : VMState.mapped (O.address C.toInstruction st.vm.cpu) 8 = true)
    (hgs : C.toInstruction.gsBase st.vm.cpu = 0) :
    (Target.memory O).Seen st.vm C .jump ↔ st.vm.SymAddress O ∨
      st.vm.mem.isSYMemoryCell (O.address C.toInstruction st.vm.cpu) 8 = true ∧
        SYMemState.crossesChunk (O.address C.toInstruction st.vm.cpu) 8 = true := by
  have haddr : (O.value.eval st.vm.cpu).toNat = O.address C.toInstruction st.vm.cpu := by
    rw [Operand.address, hgs]
    exact congrArg BitVec.toNat (BitVec.add_zero _).symm
  rw [Target.Seen, haddr]
  refine or_congr_right ?_
  split
  · rename_i hsym
    rw [VMState.Readable, h, hsym]
    simp
  · rename_i hcon
    refine iff_of_false ?_ fun hno => hcon hno.1
    rintro ⟨⟨-, hsym, -⟩, -⟩
    exact hcon hsym

/-- A transfer follows its target exactly when its dispatcher looks at it as it should. A
call asserts that a target in memory is concrete, and a jump asserts that it is symbolic. A
target in a register must be concrete for both, and a return looks at nothing. -/
theorem follows_iff (S : BvTerm.Simplifier) (st : ThinState) (C : CachedInsn) (T : Transfer)
    (F : Target) (h : VMShape st.vm) (hF : HasTarget st.vm C T F)
    (hstack : T.StackMapped st.vm) : Follows S st C T F ↔ F.Seen st.vm C T := by
  cases hF with
  | direct _ O t hT hop hderef hval =>
    exact iff_of_true (follows_direct hT hstack hop hderef hval) trivial
  | register _ r w hT hop henc hrip =>
    exact iff_of_true (follows_register h hT hstack hop henc hrip) trivial
  | memory _ O hT hop hderef hread henc hmapped =>
    exact follows_memory_iff h hT hstack hop hderef hread henc
  | stack => exact follows_stack_iff hstack

end

/-! ## A jump through memory -/

/-- `[rax]`. -/
def targetAtRax : Operand := ⟨.register ⟨.rax, .full⟩ 8, some 8, true, false⟩

/-- `jmp [rax]`. -/
def jmpRax : CachedInsn := ⟨⟨.jmp, [targetAtRax], []⟩, 2, [], []⟩

/-- A machine without symbols, with 0x1000 in all its registers. -/
def concreteState : ThinState :=
  ⟨VMState.new (fun _ => 0x1000) fun _ => 0, [], fun _ => none, fun _ => false⟩

/-- No byte of new memory is symbolic. -/
theorem isSYMemoryCell_new {addr size : Nat} (hr : AccessRange addr size)
    (concrete : Nat → BitVec 8) :
    (SYMemState.new concrete).isSYMemoryCell addr size = false := by
  rw [← Bool.not_eq_true]
  intro hsym
  obtain ⟨b, -, hb⟩ := (SYMemBitmap.testSYMemBitmap_iff _ hr.le hr.pos hr.noWrap).1 hsym
  exact SYMemBitmap.not_marked_new b hb

/-- `jmp [rax]` has its target in memory. -/
theorem hasTarget_jmpRax (T : Transfer) (hT : T ≠ .ret) :
    HasTarget concreteState.vm jmpRax T (.memory targetAtRax) := by
  refine .memory T targetAtRax hT rfl rfl rfl ?_ (by decide)
  intro P hP
  obtain rfl := List.mem_singleton.1 hP
  rfl

/-- The call and the jump of one form: the call sees its target and goes there. -/
theorem follows_iff_callRax :
    (Follows BvTerm.Simplifier.closedOnly concreteState jmpRax .call (.memory targetAtRax)
      ↔ (Target.memory targetAtRax).Seen concreteState.vm jmpRax .call) ∧
      Follows BvTerm.Simplifier.closedOnly concreteState jmpRax .call (.memory targetAtRax) := by
  have hiff := follows_iff BvTerm.Simplifier.closedOnly concreteState jmpRax .call _
    (vmShape_new _ _) (hasTarget_jmpRax .call (by decide))
    (show VMState.mapped _ 8 = true by decide)
  have hseen : (Target.memory targetAtRax).Seen concreteState.vm jmpRax .call :=
    seen_call (by decide) rfl
  exact ⟨hiff, hiff.2 hseen⟩

/-- The jump does not, though all eight bytes are concrete. The assertion of the jump asks
for a symbolic word. -/
theorem not_follows_jmpRax :
    (Target.memory targetAtRax).contents concreteState.vm jmpRax = some 0 ∧
      ¬ Follows BvTerm.Simplifier.closedOnly concreteState jmpRax .jump
        (.memory targetAtRax) := by
  have hcon : concreteState.vm.mem.isSYMemoryCell 0x1000 8 = false :=
    isSYMemoryCell_new (accessRange_word (by decide)) _
  constructor
  · show (if concreteState.vm.SymAddress targetAtRax then none
      else if concreteState.vm.mem.isSYMemoryCell 0x1000 8 then none else _) = _
    rw [if_neg (by decide), hcon, if_neg Bool.false_ne_true]
    decide
  · have henc : ∀ P ∈ targetAtRax.readSet, dyinstEncoding P.1 = some P.2 := by
      intro P hP
      obtain rfl := List.mem_singleton.1 hP
      rfl
    have hjump : (Target.memory targetAtRax).Seen concreteState.vm jmpRax .jump ↔
        concreteState.vm.SymAddress targetAtRax ∨
          concreteState.vm.mem.isSYMemoryCell 0x1000 8 = true ∧
            SYMemState.crossesChunk 0x1000 8 = true :=
      seen_jump_iff (by decide) rfl
    have hstack : Transfer.jump.StackMapped concreteState.vm := trivial
    intro hfollows
    have hseen : (Target.memory targetAtRax).Seen concreteState.vm jmpRax .jump :=
      (follows_memory_iff (vmShape_new _ _) (by decide) hstack rfl rfl rfl henc).1 hfollows
    rcases hjump.1 hseen with haddr | ⟨hsym, -⟩
    · exact absurd haddr (by decide)
    · exact absurd (hcon.symm.trans hsym) Bool.false_ne_true

end KRover
