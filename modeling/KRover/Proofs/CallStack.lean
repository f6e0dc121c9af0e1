import KRover.Proofs.SymListMap
import KRover.Proofs.TransferTarget

/-! # Calls and returns

A call writes its return address straight to memory. The bitmap and the cells
of the slot stay as they were, so the slot reads as symbolic afterwards if it
did before.

* `dispatchCall_pushed`, `dispatchRet_popped`: what one transfer does;
* `StackFrame`: what calls and returns that match leave alone;
* `StackFrame.of_nested`: a properly nested run leaves it alone;
* `callKept_iff`: a call is undone by its return, and its slot reads as the
  return address, exactly when no byte of the slot was symbolic and `rsp` is
  not.
-/

set_option autoImplicit false

namespace KRover

open Segments

/-! ## One transfer -/

/-- A word that can be mapped does not wrap around, so a push goes right below
the stack pointer. -/
theorem toNat_sub_eight {sp : BitVec 64} (h : VMState.mapped (sp - 8).toNat 8 = true) :
    (sp - 8).toNat + 8 = sp.toNat := by
  simp only [VMState.mapped, Bool.or_eq_true, Bool.and_eq_true, decide_eq_true_eq] at h
  have hsub : (sp - 8).toNat = (2 ^ 64 - 8 + sp.toNat) % 2 ^ 64 := BitVec.toNat_sub sp 8
  have hlt := sp.isLt
  omega

/-- What a call changes. -/
structure Pushed (vm vm' : VMState) : Prop where
  shape : VMShape vm'
  mapped : VMState.mapped (vm.cpu.ptRegs .rsp - 8).toNat 8 = true
  rsp : vm'.cpu.ptRegs .rsp = vm.cpu.ptRegs .rsp - 8
  symBitmap : vm'.cpu.symBitmap = vm.cpu.symBitmap
  bitmap : vm'.mem.bitmap = vm.mem.bitmap
  storedCells : vm'.mem.storedCells = vm.mem.storedCells
  concrete : vm'.mem.concrete
    = storeBytes vm.mem.concrete (vm.cpu.ptRegs .rsp - 8).toNat 8 (vm.cpu.ptRegs .rip)

/-- What a return changes. -/
structure Popped (vm vm' : VMState) : Prop where
  shape : VMShape vm'
  mapped : VMState.mapped (vm.cpu.ptRegs .rsp).toNat 8 = true
  rsp : vm'.cpu.ptRegs .rsp = vm.cpu.ptRegs .rsp + 8
  rip : vm'.cpu.ptRegs .rip = vm.memWord (vm.cpu.ptRegs .rsp).toNat
  symBitmap : vm'.cpu.symBitmap = vm.cpu.symBitmap
  mem : vm'.mem = vm.mem

section
variable {vm vm' : VMState} {C : CachedInsn}

/-- The reads of the target go before. -/
theorem Pushed.of_sameCells {vm₁ : VMState} (hsame : SameCells vm vm₁) (h : Pushed vm₁ vm') :
    Pushed vm vm' where
  shape := h.shape
  mapped := hsame.ptRegs ▸ h.mapped
  rsp := hsame.ptRegs ▸ h.rsp
  symBitmap := h.symBitmap.trans hsame.symBitmap
  bitmap := h.bitmap.trans hsame.bitmap
  storedCells := h.storedCells.trans hsame.storedCells
  concrete := by rw [h.concrete, hsame.concrete, hsame.ptRegs]

/-- A call that gets through has pushed a word and left the rest of the stack. -/
theorem pushAndGo_pushed (h : VMShape vm) {t : BitVec 64} (hpush : vm.pushAndGo t = some vm') :
    Pushed vm vm' := by
  have hrsp : (vm.setPtReg .rsp (vm.cpu.ptRegs .rsp - 8)).cpu.ptRegs .rsp
      = vm.cpu.ptRegs .rsp - 8 := vm.ptRegs_setPtReg_self .rsp _
  have hrip : (vm.setPtReg .rsp (vm.cpu.ptRegs .rsp - 8)).cpu.ptRegs .rip
      = vm.cpu.ptRegs .rip := vm.ptRegs_setPtReg_of_ne (by decide) _
  obtain ⟨vm₁, hstore, hpush⟩ := bind_some hpush
  rw [VMState.storeWord, hrsp, hrip] at hstore
  split at hstore
  · rename_i hmapped
    obtain rfl := Option.some.inj hstore
    obtain rfl := Option.some.inj hpush
    exact {
      shape := h.congr rfl rfl rfl rfl
      mapped := hmapped
      rsp := by rw [VMState.ptRegs_setPtReg_of_ne _ (by decide)]; exact hrsp
      symBitmap := rfl
      bitmap := rfl
      storedCells := rfl
      concrete := rfl }
  · exact absurd hstore (by simp)

/-- A call pushes the return address. -/
theorem dispatchCall_pushed (h : VMShape vm) (hcall : vm.dispatchCall C = some vm') :
    Pushed vm vm' := by
  rw [VMState.dispatchCall] at hcall
  split at hcall
  · rename_i O hop
    split at hcall
    · split at hcall
      · exact pushAndGo_pushed h hcall
      · obtain ⟨⟨t, vm₁⟩, htarget, hpush⟩ := bind_some hcall
        rw [VMState.registerTarget] at htarget
        split at htarget
        · obtain ⟨⟨W, vm₂⟩, hread, htarget⟩ := bind_some htarget
          obtain ⟨hshape, hsame, -, -⟩ := h.readRegisterExpr hread
          dsimp only at htarget
          split at htarget
          · exact absurd htarget (by simp)
          · cases htarget
            exact (pushAndGo_pushed hshape hpush).of_sameCells hsame
        · exact absurd htarget (by simp)
    · obtain ⟨⟨t, vm₁⟩, htarget, hpush⟩ := bind_some hcall
      obtain ⟨-, -, -, hsame, hshape⟩ := h.memoryTarget_spec htarget
      exact (pushAndGo_pushed hshape hpush).of_sameCells hsame
  · exact absurd hcall (by simp)

/-- A return pops it. -/
theorem dispatchRet_popped (h : VMShape vm) (hret : vm.dispatchRet = some vm') :
    Popped vm vm' := by
  rw [VMState.dispatchRet] at hret
  split at hret
  · exact absurd hret (by simp)
  · obtain ⟨t, hload, hret⟩ := bind_some hret
    rw [VMState.loadWord] at hload
    split at hload
    · rename_i hmapped
      obtain rfl := Option.some.inj hload
      obtain rfl := Option.some.inj hret
      exact {
        shape := h.congr rfl rfl rfl rfl
        mapped := hmapped
        rsp := VMState.ptRegs_setPtReg_self _ _ _
        rip := by
          rw [VMState.ptRegs_setPtReg_of_ne _ (by decide), VMState.ptRegs_setPtReg_self]
          rfl
        symBitmap := rfl
        mem := rfl }
    · exact absurd hload (by simp)

end

/-! ## Nesting -/

/-- Calls and returns that match. -/
inductive Nested : VMState → VMState → Prop where
  | done (vm : VMState) : Nested vm vm
  | call {vm vm₁ vm₂ vm₃ vm₄ : VMState} {C : CachedInsn} (hcall : vm.dispatchCall C = some vm₁)
      (hbody : Nested vm₁ vm₂) (hret : vm₂.dispatchRet = some vm₃) (hrest : Nested vm₃ vm₄) :
      Nested vm vm₄

/-- The stack pointer, the shadow and the memory from the stack pointer on are
the same. -/
structure StackFrame (vm vm' : VMState) : Prop where
  shape : VMShape vm'
  rsp : vm'.cpu.ptRegs .rsp = vm.cpu.ptRegs .rsp
  symBitmap : vm'.cpu.symBitmap = vm.cpu.symBitmap
  concrete : ∀ b < 2 ^ 64, (vm.cpu.ptRegs .rsp).toNat ≤ b →
    vm'.mem.concrete b = vm.mem.concrete b

namespace StackFrame

variable {vm vm₁ vm₂ vm₃ : VMState}

/-- Nothing done is a frame. -/
theorem refl (h : VMShape vm) : StackFrame vm vm := ⟨h, rfl, rfl, fun _ _ _ => rfl⟩

/-- One frame after the other is one. This is the step of the induction over the nested
calls. -/
theorem trans (h : StackFrame vm vm₁) (h' : StackFrame vm₁ vm₂) : StackFrame vm vm₂ where
  shape := h'.shape
  rsp := h'.rsp.trans h.rsp
  symBitmap := h'.symBitmap.trans h.symBitmap
  concrete := by
    intro b hb hle
    rw [h'.concrete b hb (h.rsp ▸ hle), h.concrete b hb hle]

/-- A call writes below the stack pointer, and its return steps back over
that. -/
theorem of_call (hcall : Pushed vm vm₁) (hbody : StackFrame vm₁ vm₂) (hret : Popped vm₂ vm₃) :
    StackFrame vm vm₃ where
  shape := hret.shape
  rsp := by
    rw [hret.rsp, hbody.rsp, hcall.rsp]
    exact BitVec.sub_add_cancel _ _
  symBitmap := hret.symBitmap.trans (hbody.symBitmap.trans hcall.symBitmap)
  concrete := by
    intro b hb hle
    have hslot := toNat_sub_eight hcall.mapped
    have hlt := (vm.cpu.ptRegs .rsp).isLt
    have hbelow : (vm₁.cpu.ptRegs .rsp).toNat ≤ b := by
      rw [hcall.rsp]
      omega
    rw [hret.mem, hbody.concrete b hb hbelow, hcall.concrete]
    exact storeBytes_outside (by omega) _ hb (by omega)

/-- Calls and returns that match leave the stack of their caller alone: by
induction on the run, its body below the return address. -/
theorem of_nested (h : VMShape vm) (hrun : Nested vm vm₁) : StackFrame vm vm₁ := by
  induction hrun with
  | done vm => exact refl h
  | call hcall hbody hret hrest ihbody ihrest =>
    have hpush := dispatchCall_pushed h hcall
    have hframe := ihbody hpush.shape
    have hpop := dispatchRet_popped hframe.shape hret
    exact (of_call hpush hframe hpop).trans (ihrest hpop.shape)

end StackFrame

/-! ## The return address -/

/-- A call is undone by its return. -/
structure CallKept (vm vm₁ : VMState) : Prop where
  /-- The slot reads as the return address. -/
  slot : ∃ W mem, vm₁.mem.readMemoryCell (memRead (vm₁.cpu.ptRegs .rsp).toNat 8 false)
    = some (true, W, mem) ∧ W.bsym = false ∧ W.i64 = vm.cpu.ptRegs .rip
  /-- The other bytes are the same. -/
  others : ∀ b < 2 ^ 64,
    ¬ ((vm₁.cpu.ptRegs .rsp).toNat ≤ b ∧ b < (vm₁.cpu.ptRegs .rsp).toNat + 8) →
      (vm₁.mem.bitmap.Marked b ↔ vm.mem.bitmap.Marked b) ∧
      vm₁.mem.allSymbolList.byteMap (toInt64 b) = vm.mem.allSymbolList.byteMap (toInt64 b) ∧
      vm₁.mem.concrete b = vm.mem.concrete b
  agrees : vm.mem.Agrees → vm₁.mem.Agrees
  /-- The return that matches goes back. -/
  returns : ∀ vm₂, Nested vm₁ vm₂ → ∃ vm₃, vm₂.dispatchRet = some vm₃ ∧
    vm₃.cpu.ptRegs .rip = vm.cpu.ptRegs .rip ∧ vm₃.cpu.ptRegs .rsp = vm.cpu.ptRegs .rsp

namespace Pushed

variable {vm vm₁ vm₂ : VMState}

/-- The word in the slot. -/
theorem memWord_slot (h : Pushed vm vm₁) :
    vm₁.memWord (vm₁.cpu.ptRegs .rsp).toNat = vm.cpu.ptRegs .rip := by
  have hslot := toNat_sub_eight h.mapped
  have hlt := (vm.cpu.ptRegs .rsp).isLt
  rw [VMState.memWord, h.concrete, h.rsp, loadBytes_storeBytes (by omega)]
  rw [BitVec.ofNat_toNat, BitVec.setWidth_eq]

/-- The registers are as symbolic as they were. -/
theorem isSYReg (h : Pushed vm vm₁) (r : MachRegister) : vm₁.isSYReg r = vm.isSYReg r := by
  rw [VMState.isSYReg, SYCPUState.isSYReg, h.symBitmap]
  rfl

/-- The slot is as symbolic as it was. -/
theorem isSYMemoryCell_slot (h : Pushed vm vm₁) :
    vm₁.mem.isSYMemoryCell (vm₁.cpu.ptRegs .rsp).toNat 8
      = vm.mem.isSYMemoryCell (vm.cpu.ptRegs .rsp - 8).toNat 8 := by
  rw [SYMemState.isSYMemoryCell, h.bitmap, h.rsp, SYMemState.isSYMemoryCell]

/-- The slot that was pushed to is mapped. -/
theorem mapped_slot (h : Pushed vm vm₁) :
    VMState.mapped (vm₁.cpu.ptRegs .rsp).toNat 8 = true := h.rsp ▸ h.mapped

/-- What the slot reads as. -/
theorem slot_iff (h : Pushed vm vm₁) :
    (∃ W mem, vm₁.mem.readMemoryCell (memRead (vm₁.cpu.ptRegs .rsp).toNat 8 false)
      = some (true, W, mem) ∧ W.bsym = false ∧ W.i64 = vm.cpu.ptRegs .rip) ↔
      vm.mem.isSYMemoryCell (vm.cpu.ptRegs .rsp - 8).toNat 8 = false := by
  have hrange := accessRange_word h.mapped_slot
  rw [← h.isSYMemoryCell_slot]
  constructor
  · rintro ⟨W, mem, hread, hbsym, -⟩
    obtain ⟨hW, -⟩ := h.shape.mem.read hrange hread
    rw [hW, SYMemState.bsym_valueRead] at hbsym
    exact hbsym
  · intro hcon
    have hcon : vm₁.mem.bitmap.testSYMemBitmap (vm₁.cpu.ptRegs .rsp).toNat 8 = false := hcon
    rw [SYMemState.readMemoryCell]
    simp only [memRead, hcon, readConcrete_word, Bool.false_eq_true, if_false]
    exact ⟨_, _, rfl, rfl, h.memWord_slot⟩

/-- The other bytes are the same. -/
theorem others (h : Pushed vm vm₁) {b : Nat} (hb : b < 2 ^ 64)
    (hout : ¬ ((vm₁.cpu.ptRegs .rsp).toNat ≤ b ∧ b < (vm₁.cpu.ptRegs .rsp).toNat + 8)) :
    (vm₁.mem.bitmap.Marked b ↔ vm.mem.bitmap.Marked b) ∧
      vm₁.mem.allSymbolList.byteMap (toInt64 b) = vm.mem.allSymbolList.byteMap (toInt64 b) ∧
      vm₁.mem.concrete b = vm.mem.concrete b := by
  have hslot := toNat_sub_eight h.mapped
  have hlt := (vm.cpu.ptRegs .rsp).isLt
  rw [h.rsp] at hout
  refine ⟨by rw [h.bitmap], ?_, ?_⟩
  · show lookup Expr.resolve vm₁.mem.storedCells _ = lookup Expr.resolve vm.mem.storedCells _
    rw [h.storedCells]
  · rw [h.concrete]
    exact storeBytes_outside (by omega) _ hb hout

/-- The return that matches, unless the stack pointer is symbolic. -/
theorem returns (h : Pushed vm vm₁) (hcon : vm.isSYReg ⟨.rsp, .full⟩ = false)
    (hrun : Nested vm₁ vm₂) :
    ∃ vm₃, vm₂.dispatchRet = some vm₃ ∧ vm₃.cpu.ptRegs .rip = vm.cpu.ptRegs .rip ∧
      vm₃.cpu.ptRegs .rsp = vm.cpu.ptRegs .rsp := by
  have hframe := StackFrame.of_nested h.shape hrun
  have hmapped : VMState.mapped (vm₂.cpu.ptRegs .rsp).toNat 8 = true := by
    rw [hframe.rsp]
    exact h.mapped_slot
  have hsym : vm₂.isSYReg ⟨.rsp, .full⟩ = false := by
    rw [← hcon, ← h.isSYReg, VMState.isSYReg, SYCPUState.isSYReg, hframe.symBitmap]
    rfl
  have hword : vm₂.memWord (vm₂.cpu.ptRegs .rsp).toNat = vm.cpu.ptRegs .rip := by
    have hle := (accessRange_word h.mapped_slot).le
    rw [← h.memWord_slot, VMState.memWord, VMState.memWord, hframe.rsp]
    refine congrArg _ (loadBytes_congr hle fun i hi => ?_)
    exact hframe.concrete _ (by omega) (by omega)
  have hret : ∃ vm₃, vm₂.dispatchRet = some vm₃ := by
    rw [VMState.dispatchRet, hsym]
    simp only [VMState.loadWord, hmapped, Bool.false_eq_true, if_false, if_true,
      Option.bind_eq_bind, Option.bind_some]
    exact ⟨_, rfl⟩
  obtain ⟨vm₃, hret⟩ := hret
  have hpop := dispatchRet_popped hframe.shape hret
  refine ⟨vm₃, hret, hpop.rip.trans hword, ?_⟩
  rw [hpop.rsp, hframe.rsp, h.rsp]
  exact BitVec.sub_add_cancel _ _

end Pushed

/-- A call is undone by its return, and its slot reads as the return address, exactly when
no byte of the slot was symbolic and the stack pointer is not. A call stores the return
address to the memory directly, so that marks and cells of the slot stay, and the return
loads it in the same way. What is between them is an induction over the nested calls. -/
theorem callKept_iff (vm vm₁ : VMState) (C : CachedInsn) (h : VMShape vm)
    (hcall : vm.dispatchCall C = some vm₁) :
    CallKept vm vm₁ ↔ vm.mem.isSYMemoryCell (vm.cpu.ptRegs .rsp - 8).toNat 8 = false ∧
      vm.isSYReg ⟨.rsp, .full⟩ = false := by
  have hpush := dispatchCall_pushed h hcall
  constructor
  · intro hkept
    refine ⟨hpush.slot_iff.1 hkept.slot, ?_⟩
    -- the return right behind the call asks for a concrete stack pointer
    obtain ⟨vm₃, hret, -⟩ := hkept.returns vm₁ (.done vm₁)
    rw [← Bool.not_eq_true, ← hpush.isSYReg]
    intro hsym
    rw [VMState.dispatchRet, if_pos hsym] at hret
    exact absurd hret (by simp)
  · rintro ⟨hslot, hcon⟩
    exact {
      slot := hpush.slot_iff.2 hslot
      others := fun b hb hout => hpush.others hb hout
      agrees := fun hagrees b hb => by
        rw [hpush.bitmap, hpush.storedCells]
        exact hagrees b hb
      returns := fun vm₂ hrun => hpush.returns hcon hrun }

/-! ## A call of a fixed address -/

/-- `call 0x2000`, as the decoder has it. -/
def callDirect : CachedInsn :=
  ⟨⟨.other 0, [⟨.immediate 0x2005 8, none, true, false⟩], []⟩, 5, [], []⟩

/-- A direct call gets through where its slot is mapped. -/
theorem exists_callDirect (vm : VMState)
    (h : VMState.mapped (vm.cpu.ptRegs .rsp - 8).toNat 8 = true) :
    ∃ vm₁, vm.dispatchCall callDirect = some vm₁ := by
  obtain ⟨vm₁, hpush, -⟩ := Option.map_eq_some_iff.1 (map_pushAndGo (0x2005 - 5) h)
  exact ⟨vm₁, hpush⟩

/-- A kernel stack. -/
def stackRegs : MacReg := fun i => if i = .rsp then 0xffffc90000004000 else 0x1000

/-- A fresh machine with this stack, in which one object was declared, with the slot of the next
call. -/
theorem exists_stackObject {addr : Nat} (hr : AccessRange addr 8)
    (hin : SYMemState.insideHalfChunk addr 8 = true) :
    ∃ vm, (VMState.new stackRegs fun _ => 0).createSYMemObject addr 8 true true 0 "x"
        = some (true, vm) ∧ VMShape vm ∧ vm.cpu = SYCPUState.new stackRegs ∧
      (vm.cpu.ptRegs .rsp - 8).toNat = 0xffffc90000003ff8 ∧
      VMState.mapped (vm.cpu.ptRegs .rsp - 8).toNat 8 = true ∧
      ∀ b, vm.mem.bitmap.Marked b ↔ addr ≤ b ∧ b < addr + 8 := by
  obtain ⟨vm, obj, hst, hshape, hcpu, -, -, hmarked⟩ :=
    exists_declared stackRegs (fun _ => 0) hr hin true true 0 "x"
  have hslot : (vm.cpu.ptRegs .rsp - 8).toNat = 0xffffc90000003ff8 := by
    rw [hcpu]
    decide
  have hmapped : VMState.mapped (vm.cpu.ptRegs .rsp - 8).toNat 8 = true := by
    rw [hslot]
    decide
  exact ⟨vm, hst, hshape, hcpu, hslot, hmapped, hmarked⟩

/-- The call of a fixed address with a symbol in the word that the stack pointer points to, right
behind the slot, is undone. -/
theorem callKept_direct : ∃ vm vm₁,
    (VMState.new stackRegs fun _ => 0).createSYMemObject 0xffffc90000004000 8 true true 0 "x"
        = some (true, vm) ∧
      vm.mem.isSYMemoryCell 0xffffc90000004000 8 = true ∧
      vm.dispatchCall callDirect = some vm₁ ∧ CallKept vm vm₁ := by
  have hr : AccessRange 0xffffc90000004000 8 := accessRange_of_mapped (by decide) (by decide)
  obtain ⟨vm, hst, hshape, hcpu, hslot, hmapped, hmarked⟩ := exists_stackObject hr (by decide)
  obtain ⟨vm₁, hcall⟩ := exists_callDirect vm hmapped
  have hsymbol : vm.mem.isSYMemoryCell 0xffffc90000004000 8 = true :=
    (isSYMemoryCell_iff_marked hr).2 ⟨_, ⟨le_refl _, by decide⟩, (hmarked _).2 (by decide)⟩
  refine ⟨vm, vm₁, hst, hsymbol, hcall, (callKept_iff vm vm₁ callDirect hshape hcall).2 ⟨?_, ?_⟩⟩
  · -- the slot ends where the symbol begins
    rw [← Bool.not_eq_true, isSYMemoryCell_iff_marked (accessRange_word hmapped), hslot]
    rintro ⟨b, hb, hmark⟩
    have hobj := (hmarked b).1 hmark
    omega
  · rw [VMState.isSYReg, hcpu]
    rfl

/-- Where an object was declared in the slot, it is not. The word is stored, and the slot
still reads as the object. -/
theorem not_callKept_declared : ∃ vm vm₁,
    (VMState.new stackRegs fun _ => 0).createSYMemObject 0xffffc90000003ff8 8 true true 0 "x"
        = some (true, vm) ∧
      vm.dispatchCall callDirect = some vm₁ ∧ ¬ CallKept vm vm₁ := by
  have hr : AccessRange 0xffffc90000003ff8 8 := accessRange_of_mapped (by decide) (by decide)
  obtain ⟨vm, hst, hshape, -, hslot, hmapped, hmarked⟩ := exists_stackObject hr (by decide)
  obtain ⟨vm₁, hcall⟩ := exists_callDirect vm hmapped
  refine ⟨vm, vm₁, hst, hcall, fun hkept => ?_⟩
  have hcon := (dispatchCall_pushed hshape hcall).slot_iff.1 hkept.slot
  rw [hslot, ← Bool.not_eq_true, isSYMemoryCell_iff_marked hr] at hcon
  exact hcon ⟨_, ⟨le_refl _, by decide⟩, (hmarked _).2 (by decide)⟩

end KRover
