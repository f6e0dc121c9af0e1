import KRover.Proofs.Matching
import KRover.Proofs.MainLoopRun

/-! # Native turns beside the machine

An instruction whose footprint has no symbolic byte runs natively, and the engine
goes on to stand for the machine.

* `Matches.agreeOn`: what is concrete is the same in the two;
* `Matches.native`: the turn.
-/

set_option autoImplicit false

namespace KRover

open BvTerm StatusFlags Bytes Footprint

/-- The concrete registers and the concrete memory. -/
def VMState.machine (vm : VMState) : Machine := ⟨vm.cpu.ptRegs, vm.mem.concrete⟩

/-- The locations that are concrete: the bytes with no mark, and the bits of
`eflags` that belong to no flag that is uncertain. -/
def VMState.concreteLocs (vm : VMState) : Set MacLoc := fun l =>
  match l with
  | .byte b => b.General ∧ ¬ vm.Marked b
  | .flag i => ∀ f : Flag, f.bit = i → vm.cpu.bsymFlag f = false

/-- The footprint of an instruction meets nothing symbolic. An instruction that is
listed as changing the flags writes every uncertain one, and no other writes any
while one is uncertain. -/
structure NativeFits (reads writes : Instruction → Machine → Set MacLoc) (vm : VMState)
    (I : Instruction) : Prop where
  reached : reads I vm.machine ⊆ vm.concreteLocs
  left : ∀ b : ByteLoc, b.General → MacLoc.byte b ∈ writes I vm.machine → ¬ vm.Marked b
  changes : isFlagChangingInstr I.id = true → ∀ f, vm.cpu.bsymFlag f = true →
    MacLoc.flag f.bit ∈ writes I vm.machine
  keeps : isFlagChangingInstr I.id = false → (∃ f, vm.cpu.bsymFlag f = true) →
    ∀ i, MacLoc.flag i ∉ writes I vm.machine

/-- What the engine is left with behind a native instruction. -/
def VMState.afterNative
    (processor : Instruction → MacReg → (Nat → BitVec 8) → MacReg × (Nat → BitVec 8))
    (vm : VMState) (I : Instruction) : VMState :=
  if isFlagChangingInstr I.id then
    { vm.ran processor I with cpu := (vm.ran processor I).cpu.clearAllSymFlag }
  else vm.ran processor I

section Native

variable {ρ : Valuation} {vm : VMState} {m : Machine} {I : Instruction}
  {processor : Instruction → MacReg → (Nat → BitVec 8) → MacReg × (Nat → BitVec 8)}
  {reads writes : Instruction → Machine → Set MacLoc}

/-- The machine of a state has its concrete bytes. -/
theorem VMState.byte_machine (vm : VMState) (b : ByteLoc) : vm.machine.byte b = vm.conByte b := by
  cases b <;> rfl

/-- The concrete state of the engine behind the instruction. -/
theorem VMState.afterNative_concrete (vm : VMState) (I : Instruction) :
    ConcreteStep vm (vm.afterNative processor I) ∧
      (vm.afterNative processor I).machine = vm.machine.ran processor I ∧
      (vm.afterNative processor I).eflagsMgr = vm.eflagsMgr ∧
      (vm.afterNative processor I).cpu.bsymFlag
        = if isFlagChangingInstr I.id then fun _ => false else vm.cpu.bsymFlag := by
  rw [VMState.afterNative]
  split
  · exact ⟨⟨rfl, rfl, rfl, rfl⟩, rfl, rfl, rfl⟩
  · exact ⟨⟨rfl, rfl, rfl, rfl⟩, rfl, rfl, rfl⟩

/-- The engine and the machine have the same at the concrete locations. -/
theorem Matches.agreeOn (h : Matches ρ vm m) :
    AgreeOn Machine.view vm.concreteLocs vm.machine m := by
  intro l hl
  cases l with
  | byte b =>
    obtain ⟨hb, hmark⟩ := hl
    rw [Machine.view_byte _ hb, Machine.view_byte _ hb, vm.byte_machine]
    exact h.conByte hb hmark
  | flag i =>
    show (vm.cpu.ptRegs .efl).getLsbD i = (m.regs .efl).getLsbD i
    cases h.flags with
    | definite hdef heflags => rw [heflags]
    | pending k op e1 e2 x y hsym hk hlast h1 h2 hlen hpos hflags heflags =>
      refine heflags i fun f hf hbit => ?_
      have hnot := hl f hbit
      rw [hsym, decide_eq_false_iff_not] at hnot
      exact hnot hf

/-- A native instruction whose footprint is concrete. -/
theorem Matches.native (h : Matches ρ vm m)
    (hlaw : Local Machine.view (Machine.ran processor I) (reads I) (writes I))
    (hfits : NativeFits reads writes vm I) :
    Matches ρ (vm.afterNative processor I) (m.ran processor I) := by
  obtain ⟨hstep, hmachine, hmgr, hsymFlag⟩ := @VMState.afterNative_concrete processor vm I
  have hagree := h.agreeOn
  have hread := hagree.mono hfits.reached
  have hresult := hlaw.agreeOn hagree hfits.reached
  have hefl : ∀ i, MacLoc.flag i ∈ vm.concreteLocs ∪ writes I vm.machine →
      ((vm.afterNative processor I).cpu.ptRegs .efl).getLsbD i
        = ((m.ran processor I).regs .efl).getLsbD i := by
    intro i hi
    have hview := hresult _ hi
    rw [← hmachine] at hview
    exact hview
  refine h.concrete hstep (fun b hb hmark => ?_) (fun b hb hmark => ?_) ?_
  · have hview := hresult (.byte b) (Or.inl ⟨hb, hmark⟩)
    rw [Machine.view_byte _ hb, Machine.view_byte _ hb, ← hmachine] at hview
    rw [← VMState.byte_machine]
    exact hview
  · have hview := hlaw.frame_other hread fun hw => hfits.left b hb hw hmark
    rwa [Machine.view_byte _ hb, Machine.view_byte _ hb] at hview
  · cases hid : isFlagChangingInstr I.id with
    | true =>
      -- every flag is definite now, and was concrete or is written
      rw [hid, if_pos rfl] at hsymFlag
      refine .definite (fun f => by rw [hsymFlag]) (BitVec.eq_of_getLsbD_eq fun i hi => hefl i ?_)
      by_cases hsome : ∃ f : Flag, f.bit = i ∧ vm.cpu.bsymFlag f = true
      · obtain ⟨f, hbit, hf⟩ := hsome
        rw [← hbit]
        exact Or.inr (hfits.changes hid f hf)
      · refine Or.inl fun f hbit => ?_
        rw [← Bool.not_eq_true]
        exact fun hf => hsome ⟨f, hbit, hf⟩
    | false =>
      rw [hid, if_neg Bool.false_ne_true] at hsymFlag
      cases h.flags with
      | definite hdef heflags =>
        refine .definite (fun f => by rw [hsymFlag, hdef]) (BitVec.eq_of_getLsbD_eq fun i hi => ?_)
        exact hefl i (Or.inl fun f _ => hdef f)
      | pending k op e1 e2 x y hsym hk hlast h1 h2 hlen hpos hflags heflags =>
        -- no flag is written
        have hnone := hfits.keeps hid ⟨.cf, by rw [hsym]; decide⟩
        have hkept : (m.ran processor I).regs .efl = m.regs .efl :=
          BitVec.eq_of_getLsbD_eq fun i _ => hlaw.frame_other hread (hnone i)
        have hkept' : (vm.afterNative processor I).cpu.ptRegs .efl = vm.cpu.ptRegs .efl := by
          refine BitVec.eq_of_getLsbD_eq fun i _ => ?_
          have hframe := hlaw.frame vm.machine _ (hnone i)
          rw [← hmachine] at hframe
          exact hframe
        refine h.flags.congr hkept' hsymFlag ?_ hkept
        rw [hmgr]

end Native

end KRover
