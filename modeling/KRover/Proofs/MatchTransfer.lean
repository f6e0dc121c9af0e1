import KRover.Proofs.MatchDecision

/-! # Transfers beside the machine

The engine carries out jumps, calls and returns itself, on its concrete state. It
goes where the machine goes when the target and the word on the stack are not
symbolic.

* `Matches.target`: the two find the same target;
* `Matches.jump`, `Matches.call`, `Matches.ret`: the transfers.
-/

set_option autoImplicit false

namespace KRover

open BvTerm StatusFlags Bytes

/-! ## The target -/

/-- A jump or a call to an address that the decoder knows, or through a register. -/
inductive TargetFits (C : CachedInsn) : Prop where
  | direct (O : Operand) (hop : C.operands = [O]) (hderef : O.deref = none)
      (hval : ∀ rip, (O.value.evalRip rip).isSome = true)
  | register (r : MachRegister) (w : Bool) (hop : C.operands = [⟨.register r 8, none, true, w⟩])
      (henc : dyinstEncoding r = some 8) (hrip : r.offt ≠ .rip) (hefl : r.offt ≠ .efl)

/-- The target, and the state that the engine is in when it has found it. -/
def VMState.foundTarget (vm : VMState) (C : CachedInsn) : Option (BitVec 64 × VMState) :=
  match C.operands with
  | [O] =>
    match O.value.evalRip (vm.cpu.ptRegs .rip) with
    | some res => some (res - BitVec.ofNat 64 C.length, vm)
    | none => vm.registerTarget O
  | _ => none

section Target

variable {S : Simplifier} {ρ : Valuation} {vm vm' : VMState} {st : ThinState} {m : Machine}
  {C : CachedInsn} {t : BitVec 64}

/-- An operand without a dereference reads no memory. -/
theorem readsMemory_eq_false {O : Operand} (hderef : O.deref = none) : O.readsMemory = false := by
  rw [Operand.readsMemory, hderef]
  rfl

/-- A register other than the program counter is not known from the position alone. -/
theorem evalRip_register {r : MachRegister} {n : Nat} (hrip : r.offt ≠ .rip) (rip : BitVec 64) :
    OperandAST.evalRip rip (.register r n) = none := by
  show (if r = ⟨.rip, .full⟩ then some rip else none) = none
  rw [if_neg]
  rintro rfl
  exact hrip rfl

/-- A transfer that fits has one operand, and it is no memory. -/
theorem TargetFits.operand (hC : TargetFits C) :
    ∃ O, C.operands = [O] ∧ O.readsMemory = false := by
  cases hC with
  | direct O hop hderef _ => exact ⟨O, hop, readsMemory_eq_false hderef⟩
  | register r w hop _ _ _ => exact ⟨_, hop, rfl⟩

/-- Both dispatchers look for the target in the same way. -/
theorem dispatchBranch_eq (hC : TargetFits C) (b : Bool) :
    st.dispatchBranch S C b
      = (st.vm.foundTarget C).bind fun P => { st with vm := P.2 }.goIf S C.id b P.1 := by
  obtain ⟨O, hop, hreads⟩ := hC.operand
  rw [ThinState.dispatchBranch, VMState.foundTarget, hop]
  simp only [hreads, Bool.not_false, if_true]
  cases O.value.evalRip (st.vm.cpu.ptRegs .rip) <;> rfl

/-- `dispatchCall` goes where the target is found, with the return address pushed. -/
theorem dispatchCall_eq (hC : TargetFits C) :
    vm.dispatchCall C = (vm.foundTarget C).bind fun P => P.2.pushAndGo P.1 := by
  obtain ⟨O, hop, hreads⟩ := hC.operand
  rw [VMState.dispatchCall, VMState.foundTarget, hop]
  simp only [hreads, Bool.not_false, if_true]
  cases O.value.evalRip (vm.cpu.ptRegs .rip) <;> rfl

/-- A register that the engine does not take for symbolic has no mark. -/
theorem not_marked_of_isSYReg {r : MachRegister} {n : Nat} (henc : dyinstEncoding r = some n)
    (hcon : vm.isSYReg r = false) : ∀ k < n, ¬ vm.Marked (.reg r.offt k) := by
  intro k hk hmark
  obtain ⟨-, hmask, hn⟩ := regIdxToAddrSize_of_encoded henc
  rw [VMState.isSYReg, SYCPUState.isSYReg, hmask, bne_eq_false_iff_eq] at hcon
  exact (BitRange.and_mask_ne_zero_iff (by omega) _).2 ⟨k, by omega, hmark⟩ hcon

/-- The target is that of the machine. -/
theorem Matches.target (h : Matches ρ vm m) (hC : TargetFits C)
    (hfound : vm.foundTarget C = some (t, vm')) :
    m.target C = some t ∧ SameCells vm vm' ∧ Matches ρ vm' m := by
  -- The target stands in the instruction or in a register.
  cases hC with
  | direct O hop hderef hval =>
    obtain ⟨res, hres⟩ := Option.isSome_iff_exists.1 (hval (m.regs .rip))
    rw [VMState.foundTarget, hop, h.rip] at hfound
    simp only [hres, Option.some.injEq, Prod.mk.injEq] at hfound
    obtain ⟨rfl, rfl⟩ := hfound
    refine ⟨?_, SameCells.refl vm, h⟩
    rw [Machine.target, hop]
    simp only [hderef, hres]
  | register r w hop henc hrip hefl =>
    rw [VMState.foundTarget, hop] at hfound
    simp only [evalRip_register hrip] at hfound
    obtain ⟨vm₁, hread, hshape, hsame⟩ := h.agrees.cells.shape.exists_readRegisterExpr henc
    -- the read of the register
    have hreg : vm.registerTarget ⟨.register r 8, none, true, w⟩
        = if vm.isSYReg r then none else some (vm.cpu.ptRegs r.offt, vm₁) := by
      have hi64 : (vm.cpu.valueRead (regRead r 8 false)).i64 = vm.cpu.ptRegs r.offt := by
        rw [SYCPUState.i64_valueRead]
        show vm.cpu.readConcreteValue r 8 0 = _
        rw [sub_of_dyinstEncoding_eight henc, SYCPUState.readConcreteValue_full]
      show (vm.readRegisterExpr r 8).bind _ = _
      rw [hread, Option.bind_some]
      simp only [SYCPUState.bsym_valueRead, hi64]
      rfl
    rw [hreg] at hfound
    cases hsym : vm.isSYReg r with
    | true => simp [hsym] at hfound
    | false =>
      rw [hsym, if_neg Bool.false_ne_true] at hfound
      obtain ⟨rfl, rfl⟩ := Prod.mk.inj (Option.some.inj hfound)
      refine ⟨?_, hsame, h.same hshape hsame⟩
      rw [Machine.target, hop]
      simp only [evalRip_register hrip, h.word hefl (not_marked_of_isSYReg henc hsym)]

end Target

/-! ## The transfers -/

section Transfer

variable {S : Simplifier} {ρ : Valuation} {vm vm' : VMState} {st st' : ThinState} {m : Machine}
  {C : DecodedInsn} {t : BitVec 64} {b : Bool}

/-- A word that is not symbolic. -/
def VMState.PlainReg (vm : VMState) (i : PtIdx) : Prop := ∀ k < 8, ¬ vm.Marked (.reg i k)

/-- A word of memory that is concrete and not marked. -/
def VMState.PlainWord (vm : VMState) (addr : BitVec 64) : Prop :=
  ∀ k < 8, ¬ vm.Marked (.mem (addr.toNat + k))

/-- A plain register is one whose eight marks are clear. -/
instance (vm : VMState) (i : PtIdx) : Decidable (vm.PlainReg i) :=
  inferInstanceAs (Decidable (∀ k < 8, ¬ vm.Marked (.reg i k)))

/-- A plain word is looked at byte by byte. -/
instance (vm : VMState) (addr : BitVec 64) : Decidable (vm.PlainWord addr) :=
  inferInstanceAs (Decidable (∀ k < 8, ¬ vm.Marked (.mem (addr.toNat + k))))

/-- Where the machine is behind a turn of the engine: along its way, when the engine
stands for it and the constraint asks for nothing new, or away from it, at another
address. Then the constraint excludes the input. -/
inductive Behind (ρ : Valuation) (constraint : List Expr) (vm' : VMState) (m' : Machine) :
    Prop where
  | along (hsat : Satisfies ρ constraint → Satisfies ρ vm'.eflagsMgr.constraint)
      (h : Matches ρ vm' m')
  | away (hsat : ¬ Satisfies ρ vm'.eflagsMgr.constraint)
      (hrip : m'.regs .rip ≠ vm'.cpu.ptRegs .rip)
      (hrsp : vm'.PlainReg .rsp → vm'.cpu.ptRegs .rsp = m'.regs .rsp)

/-- A jump that is made or not made. A conditional one has two ways to go. -/
theorem Matches.goIf (h : Matches ρ st.vm m)
    (hfits : C.allowsFallThrough = true → DecisionFits st.vm C.id ∧ t ≠ st.vm.cpu.ptRegs .rip)
    (hstep : st.goIf S C.id C.allowsFallThrough t = some st') :
    ∃ taken, m.jumps C = some taken ∧
      Behind ρ st.vm.eflagsMgr.constraint st'.vm (if taken then m.setReg .rip t else m) := by
  rw [ThinState.goIf] at hstep
  rw [Machine.jumps]
  -- Only an instruction that allows a fall-through asks for a decision.
  split at hstep
  · rename_i hfall
    obtain ⟨hdecision, hforks⟩ := hfits hfall
    obtain ⟨⟨b, st₁⟩, hdecide, hrest⟩ := bind_some hstep
    obtain ⟨d, hjumps, hsat, h₁⟩ := h.decision hdecide hdecision
    refine ⟨d, (if_pos hfall).trans hjumps, ?_⟩
    rw [h.rip] at hforks
    have hplain := h₁.plain .rip (by decide)
    have hrsp := fun hplain => h₁.word (i := .rsp) (by decide) hplain
    cases b with
    | true =>
      rw [← Option.some.inj hrest]
      cases d with
      | true => exact .along (fun hstart => hsat.2 ⟨hstart, rfl⟩) (h₁.setPtReg (by decide) hplain t)
      | false =>
        -- the machine goes on behind the jump
        refine .away (fun hend => absurd (hsat.1 hend).2 Bool.false_ne_true) ?_ fun hplain => ?_
        · rw [VMState.ptRegs_setPtReg_self]
          exact hforks.symm
        · rw [VMState.ptRegs_setPtReg_of_ne _ (by decide)]
          exact hrsp hplain
    | false =>
      rw [← Option.some.inj hrest]
      cases d with
      | false => exact .along (fun hstart => hsat.2 ⟨hstart, rfl⟩) h₁
      | true =>
        -- the machine jumps
        refine .away (fun hend => absurd (hsat.1 hend).2.symm Bool.false_ne_true) ?_
          fun hplain => ?_
        · rw [if_pos rfl, Machine.regs_setReg_self, h₁.rip]
          exact hforks
        · rw [if_pos rfl, Machine.regs_setReg_of_ne _ (by decide)]
          exact hrsp hplain
  · rename_i hfall
    refine ⟨true, if_neg hfall, ?_⟩
    rw [← Option.some.inj hstep]
    exact .along id (h.setPtReg (by decide) (h.plain .rip (by decide)) t)

/-- A jump. -/
theorem Matches.jump (h : Matches ρ st.vm m) (hC : TargetFits C.toCachedInsn)
    (hfits : C.allowsFallThrough = true → DecisionFits st.vm C.id ∧
      ∀ t vm, st.vm.foundTarget C.toCachedInsn = some (t, vm) → t ≠ st.vm.cpu.ptRegs .rip)
    (hstep : st.dispatchBranch S C.toCachedInsn C.allowsFallThrough = some st') :
    ∃ t taken, m.target C.toCachedInsn = some t ∧ m.jumps C = some taken ∧
      Behind ρ st.vm.eflagsMgr.constraint st'.vm (if taken then m.setReg .rip t else m) := by
  rw [dispatchBranch_eq hC] at hstep
  obtain ⟨⟨t, vm₁⟩, hfound, hgo⟩ := bind_some hstep
  obtain ⟨htarget, hsame, h₁⟩ := h.target hC hfound
  have hfits₁ : C.allowsFallThrough = true →
      DecisionFits vm₁ C.id ∧ t ≠ vm₁.cpu.ptRegs .rip := by
    intro hfall
    obtain ⟨hdecision, hforks⟩ := hfits hfall
    rw [DecisionFits, ← flagsDefinite_congr hsame.bsymFlag, ← hsame.eflagsMgr] at hdecision
    refine ⟨hdecision, ?_⟩
    rw [hsame.ptRegs]
    exact hforks t vm₁ hfound
  obtain ⟨taken, hjumps, hbehind⟩ := @Matches.goIf S ρ { st with vm := vm₁ } _ m C t h₁ hfits₁ hgo
  rw [show ({ st with vm := vm₁ } : ThinState).vm.eflagsMgr = st.vm.eflagsMgr
    from hsame.eflagsMgr] at hbehind
  exact ⟨t, taken, htarget, hjumps, hbehind⟩

/-- A call, which pushes to memory that is not symbolic. -/
theorem Matches.call (h : Matches ρ vm m) (hC : TargetFits C.toCachedInsn)
    (hrsp : vm.PlainReg .rsp) (hslot : vm.PlainWord (vm.cpu.ptRegs .rsp - 8))
    (hstep : vm.dispatchCall C.toCachedInsn = some vm') :
    ∃ t, m.target C.toCachedInsn = some t ∧
      Matches ρ vm' (((m.setReg .rsp (m.regs .rsp - 8)).storeWord (m.regs .rsp - 8)
        (m.regs .rip)).setReg .rip t) := by
  rw [dispatchCall_eq hC] at hstep
  obtain ⟨⟨t, vm₁⟩, hfound, hpush⟩ := bind_some hstep
  obtain ⟨htarget, hsame, h₁⟩ := h.target hC hfound
  refine ⟨t, htarget, ?_⟩
  have hrsp₁ : vm₁.PlainReg .rsp := by
    intro k hk
    rw [VMState.Marked, hsame.symBitmap]
    exact hrsp k hk
  have hword := h.word (by decide) hrsp
  have hword₁ : vm₁.cpu.ptRegs .rsp = m.regs .rsp := by rw [hsame.ptRegs, hword]
  -- the stack pointer, the word and the target
  obtain ⟨vm₂, hstore, hgo⟩ := bind_some hpush
  have h₂ := h₁.setPtReg (by decide) hrsp₁ (vm₁.cpu.ptRegs .rsp - 8)
  rw [VMState.ptRegs_setPtReg_self, VMState.ptRegs_setPtReg_of_ne _ (by decide), h₁.rip] at hstore
  rw [hword₁] at h₂ hstore
  have h₃ := h₂.storeWord (fun k hk => ?_) hstore
  · rw [← Option.some.inj hgo]
    exact h₃.setPtReg (by decide) (h₃.plain .rip (by decide)) t
  · have hplain := hslot k hk
    rw [hword] at hplain
    show ¬ vm₁.mem.bitmap.Marked _
    rw [hsame.bitmap]
    exact hplain

/-- A return. -/
theorem Matches.ret (h : Matches ρ vm m) (hrsp : vm.PlainReg .rsp)
    (hslot : vm.PlainWord (vm.cpu.ptRegs .rsp)) (hstep : vm.dispatchRet = some vm') :
    Matches ρ vm' ((m.setReg .rip (m.loadWord (m.regs .rsp))).setReg .rsp (m.regs .rsp + 8)) := by
  have hword := h.word (by decide) hrsp
  rw [VMState.dispatchRet] at hstep
  split at hstep
  · simp at hstep
  · obtain ⟨t, hload, hout⟩ := bind_some hstep
    rw [← Option.some.inj hout, ← hword, ← h.loadWord hslot hload]
    exact (h.setPtReg (by decide) (h.plain .rip (by decide)) t).setPtReg (by decide) hrsp _

end Transfer

end KRover
