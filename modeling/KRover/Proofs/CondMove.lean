import KRover.Proofs.HandedOver
import KRover.Proofs.RegOverlay

/-! # What the executor leaves of a conditional move

The executor moves the source of a `cmovcc` as one expression and writes 1 for a
`setcc`, whatever the condition is.

* `exists_exec_cmov`: a move is finished, unless its source is symbolic memory of two
  chunks, which cannot be read (`oneChunk_of_exec`);
* `exec_cmov`: what the destination of a move is after the executor;
* `exists_exec_set` and `exec_set`: a `setcc` is always finished, and what its operand
  is then.
-/

set_option autoImplicit false

namespace KRover

open Segments Bytes SymExecutor

/-! ## Bytes as they are read -/

/-- Where the bytes of an operand lie. -/
inductive Loc where
  | reg (r : MachRegister)
  | mem (addr : Nat)
deriving DecidableEq, Repr

namespace VMState

/-- Whether a read of `n` bytes finds anything symbolic. -/
def isSymLoc (vm : VMState) (n : Nat) : Loc → Bool
  | .reg r => vm.isSYReg r
  | .mem addr => vm.mem.isSYMemoryCell addr n

/-- A byte of the shadow. -/
def shadowAt (vm : VMState) : Loc → Nat → ShadowByte
  | .reg r, k => vm.regShadow r.offt ((regIdxToAddrSize r.sub).1.toNat + k)
  | .mem addr, k => vm.memShadow (addr + k)

/-- The concrete byte below it. -/
def wordAt (vm : VMState) : Loc → Nat → BitVec 8
  | .reg r, k => byteOf (vm.cpu.ptRegs r.offt).toNat
      ((regIdxToAddrSize r.sub).1.toNat + k)
  | .mem addr, k => vm.mem.concrete (addr + k)

/-- A byte as a read of `n` bytes finds it: the cells count when the bitmap has
a bit in the range. -/
def locByte (vm : VMState) (n : Nat) (l : Loc) (k : Nat) : ShadowByte :=
  if vm.isSymLoc n l then vm.shadowAt l k else .concrete (vm.wordAt l k)

end VMState

/-- An operand of `n` bytes: a register or a part of one, or memory that can be
mapped. -/
inductive Operand.LiesAt (vm : VMState) (I : Instruction) (n : Nat) (O : Operand) : Loc → Prop
    where
  | register (r : MachRegister) (hderef : O.deref = none) (hval : O.value = .register r n)
      (hpart : (regIdxToAddrSize r.sub).2 = n) : LiesAt vm I n O (.reg r)
  | memory (hderef : O.deref = some n) (hmapped : VMState.mapped (O.address I vm.cpu) n = true) :
      LiesAt vm I n O (.mem (O.address I vm.cpu))

/-- An operand that lies at a location has the size it is read with there. -/
theorem Operand.LiesAt.size_eq {vm : VMState} {I : Instruction} {n : Nat} {O : Operand} {l : Loc}
    (h : O.LiesAt vm I n l) : O.size = n := by
  cases h with
  | register r hderef hval _ => exact Operand.size_register hderef hval
  | memory hderef _ => rw [Operand.size, hderef, Option.getD_some]

/-- An operand that lies at a location can be parsed: it is a register with an encoding, or
a memory operand whose address registers have one. -/
theorem Operand.LiesAt.plain {vm : VMState} {I : Instruction} {n : Nat} {O : Operand} {l : Loc}
    (h : O.LiesAt vm I n l) : O.Plain := by
  have hsize : O.size = n := h.size_eq
  cases h with
  | register r hderef hval _ => exact .register r hderef (by rw [hsize]; exact hval)
  | memory hderef _ => exact .memory (by rw [hsize]; exact hderef)

/-- Symbolic memory is read inside one chunk of the bitmap only. -/
def Loc.Readable (vm : VMState) (n : Nat) : Loc → Prop
  | .reg _ => True
  | .mem addr => vm.mem.isSYMemoryCell addr n = true → SYMemState.crossesChunk addr n = false

/-- The registers of the addresses are concrete: the parsers assert it. -/
def VMState.AddressesConcrete (vm : VMState) (I : Instruction) : Prop :=
  ∀ O ∈ I.operands, O.deref.isSome = true → ∀ P ∈ O.value.uses, vm.isSYReg P.1 = false

/-- States in which reads find the same bytes. -/
structure SameView (vm vm₁ : VMState) : Prop extends SameMarks vm vm₁ where
  regCells : vm₁.cpu.regCells = vm.cpu.regCells
  storedCells : vm₁.mem.storedCells = vm.mem.storedCells
  concrete : vm₁.mem.concrete = vm.mem.concrete

/-- Machines with the same cells show the same at every location. The parse of the operands
is such a step, so the questions about the move may be asked before it. -/
theorem SameCells.view {vm vm₁ : VMState} (h : SameCells vm vm₁) : SameView vm vm₁ where
  ptRegs := h.ptRegs
  symBitmap := h.symBitmap
  bsymFlag := h.bsymFlag
  bitmap := h.bitmap
  regCells := h.regCells
  storedCells := h.storedCells
  concrete := h.concrete

namespace SameView

variable {vm vm₁ : VMState} (h : SameView vm vm₁)

include h

/-- The symbolic locations are the same. -/
theorem isSymLoc (n : Nat) (l : Loc) : vm₁.isSymLoc n l = vm.isSymLoc n l := by
  cases l with
  | reg r => exact h.isSYReg r
  | mem addr => exact h.isSYMemoryCell addr n

/-- The shadows are the same. -/
theorem shadowAt (l : Loc) (k : Nat) : vm₁.shadowAt l k = vm.shadowAt l k := by
  cases l with
  | reg r =>
    rw [VMState.shadowAt, VMState.shadowAt, VMState.regShadow, VMState.regShadow, h.regCells,
      h.ptRegs]
  | mem addr =>
    rw [VMState.shadowAt, VMState.shadowAt, VMState.memShadow, VMState.memShadow, h.storedCells,
      h.concrete]

/-- The concrete bytes are the same. -/
theorem wordAt (l : Loc) (k : Nat) : vm₁.wordAt l k = vm.wordAt l k := by
  cases l with
  | reg r => rw [VMState.wordAt, VMState.wordAt, h.ptRegs]
  | mem addr => rw [VMState.wordAt, VMState.wordAt, h.concrete]

/-- The bytes at a location stand for the same values. -/
theorem locByte (n : Nat) (l : Loc) (k : Nat) : vm₁.locByte n l k = vm.locByte n l k := by
  rw [VMState.locByte, VMState.locByte, h.isSymLoc, h.shadowAt, h.wordAt]

/-- The operands lie where they lay: an address is computed from registers alone. -/
theorem liesAt {I : Instruction} {n : Nat} {O : Operand} {l : Loc} (hO : O.LiesAt vm I n l) :
    O.LiesAt vm₁ I n l := by
  cases hO with
  | register r hderef hval hpart => exact .register r hderef hval hpart
  | memory hderef hmapped =>
    rw [← h.address] at hmapped ⊢
    exact .memory hderef hmapped

end SameView

/-! ## What is found out about a source -/

section Source

variable {vm vm₁ : VMState} {I : Instruction} {S : Operand} {s : Loc} {n : Nat} {oi : OprndInfo}

/-- What a parsed source hands over shows its bytes. -/
structure SourceShown (vm : VMState) (n : Nat) (s : Loc) (oi : OprndInfo) : Prop where
  symb : oi.symb = vm.isSymLoc n s
  expr : oi.symb = true →
    ∃ e, oi.getSymValue = some e ∧ ∀ k < n, e.byteAt k = (vm.shadowAt s k).lit
  word : oi.symb = false →
    ∃ v, oi.getConValue = some v ∧ ∀ k < n, byteOf v.toNat k = vm.wordAt s k

/-- At a register with an encoding the shadow is that of the bytes from its offset on. -/
theorem shadowAt_encoded {r : MachRegister} (henc : dyinstEncoding r = some n) (k : Nat) :
    vm.shadowAt (.reg r) k = vm.regShadow r.offt k := by
  rw [VMState.shadowAt, (regIdxToAddrSize_of_encoded henc).1]
  show vm.regShadow r.offt (0 + k) = _
  rw [Nat.zero_add]

/-- So are the concrete bytes. -/
theorem wordAt_encoded {r : MachRegister} (henc : dyinstEncoding r = some n) (k : Nat) :
    vm.wordAt (.reg r) k = byteOf (vm.cpu.ptRegs r.offt).toNat k := by
  rw [VMState.wordAt, (regIdxToAddrSize_of_encoded henc).1]
  show byteOf _ (0 + k) = _
  rw [Nat.zero_add]

/-- A register of more than one byte. -/
theorem Parsed.sourceShown_register (h : VMShape vm) {r : MachRegister} (hderef : S.deref = none)
    (hval : S.value = .register r n) (henc : dyinstEncoding r = some n) (hn : n ≠ 1)
    (hread : S.isRead = true) (hp : Parsed vm I S false oi) : SourceShown vm n (.reg r) oi := by
  have hset : S.readSet = [(r, n)] := Operand.Form.readSet_register hderef hval hread
  -- A register that is read leaves two forms of the parse, with a concrete word and with a symbol.
  cases hp with
  | imm _ _ _ hnil => simp [hset] at hnil
  | regWritten _ _ _ _ hnot => exact absurd (hread.symm.trans hnot) Bool.false_ne_true.symm
  | memWritten _ hnot => exact absurd (hread.symm.trans hnot) Bool.false_ne_true.symm
  | memCon _ _ _ hsome => simp [hderef] at hsome
  | memSym _ _ hsome => simp [hderef] at hsome
  | sum x y size e1 e2 _ _ hadd => simp [hval] at hadd
  | regCon _ r' _ _ hcon _ =>
    refine ⟨?_, fun hsymb => absurd hsymb Bool.false_ne_true, fun _ => ⟨_, rfl, fun k hk => ?_⟩⟩
    · exact (hcon (r, n) (by simp [hset])).symm
    · rw [wordAt_encoded henc, hval]
      exact byteOf_registerResult vm.cpu henc hn hk
  | regSym r' size _ _ hval' henc' hsym =>
    obtain ⟨rfl, rfl⟩ : r = r' ∧ n = size := by simpa [hval] using hval'
    refine ⟨hsym.symm, fun _ => ⟨_, rfl, fun k hk => ?_⟩, fun hcon => absurd hcon.symm
      Bool.false_ne_true⟩
    rw [shadowAt_encoded henc]
    exact lit_valueRead h henc hsym hk

/-- Memory. -/
theorem Parsed.sourceShown_memory (h : VMShape vm) (hderef : S.deref = some n)
    (hread : S.isRead = true) (hp : Parsed vm I S false oi) :
    SourceShown vm n (.mem (S.address I vm.cpu)) oi := by
  have hsize : S.size = n := by rw [Operand.size, hderef, Option.getD_some]
  -- Memory that is read leaves two forms as well.
  cases hp with
  | imm _ hnone => simp [hderef] at hnone
  | regWritten _ _ _ hnone => simp [hderef] at hnone
  | memWritten _ hnot => exact absurd (hread.symm.trans hnot) Bool.false_ne_true.symm
  | sum _ _ _ _ _ hnone => simp [hderef] at hnone
  | regCon _ _ hnone => simp [hderef] at hnone
  | regSym _ _ hnone => simp [hderef] at hnone
  | memCon _ accs haccs _ _ hr hcon =>
    rw [hsize] at hr hcon
    have htest : vm.mem.isSYMemoryCell (memRead (S.address I vm.cpu) n false).addr
        (memRead (S.address I vm.cpu) n false).size = false := hcon
    refine ⟨hcon.symm, fun hsymb => absurd hsymb Bool.false_ne_true, fun _ => ?_⟩
    refine ⟨(vm.mem.valueRead (memRead (S.address I vm.cpu) n false)).i64, ?_, fun k hk => ?_⟩
    · rw [hsize, OprndInfo.getConValue, haccs]
      rfl
    · rw [SYMemState.valueRead, htest]
      exact byteOf_readConcrete vm.mem.concrete hr hk
  | memSym accs _ _ _ hr hsym =>
    rw [hsize] at hr hsym
    refine ⟨hsym.symm, fun _ => ⟨_, rfl, fun k hk => ?_⟩, fun hcon => absurd hcon.symm
      Bool.false_ne_true⟩
    rw [hsize]
    exact lit_memValueRead h hr hsym hk

end Source

/-! ## What is written -/

section Written

variable {vm vm' vm₁ : VMState} {r : MachRegister} {n : Nat}

/-- A register that is written is the index of its operand. -/
theorem regIndex_of_parse {I : Instruction} {D : Operand} {oi : OprndInfo}
    (hderef : D.deref = none) (hval : D.value = .register r n)
    (hp : vm.parseOperand false I D = some (oi, vm₁)) : oi.regIndex = some r ∧ oi.size = n := by
  have hsize : D.size = n := Operand.size_register hderef hval
  rw [VMState.parseOperand, Operand.readsMemory, Operand.writesMemory, hderef] at hp
  have hp : vm.mayOperandUseSymbolXX D = some (oi, vm₁) := hp
  -- Whichever way the parse went, it stored the register and the size of the operand.
  rw [VMState.mayOperandUseSymbolXX, hval] at hp
  split at hp
  · rename_i hread
    rw [Operand.Form.readSet_register hderef hval hread] at hp
    obtain ⟨⟨sym, vm₂⟩, -, hp⟩ := bind_some hp
    cases sym with
    | true =>
      obtain ⟨⟨RV, vm₃⟩, -, hp⟩ := bind_some hp
      obtain ⟨rfl, -⟩ := Prod.mk.inj (Option.some.inj hp)
      exact ⟨rfl, hsize⟩
    | false =>
      obtain ⟨rfl, -⟩ := Prod.mk.inj (Option.some.inj hp)
      exact ⟨rfl, hsize⟩
  · split at hp
    · obtain ⟨symb, -, hp⟩ := bind_some hp
      split at hp
      · obtain ⟨rfl, -⟩ := Prod.mk.inj (Option.some.inj hp)
        exact ⟨rfl, hsize⟩
      · obtain ⟨rfl, -⟩ := Prod.mk.inj (Option.some.inj hp)
        exact ⟨rfl, hsize⟩
    · simp at hp

/-- Each operand is parsed on its own, in a state with the same cells. -/
theorem VMShape.parseEach_forall₂ (h : VMShape vm) {b : Bool} {I : Instruction} {Os : List Operand}
    (hwidth : ∀ O ∈ Os, isAccessSize O.size = true) {vecOI : List OprndInfo}
    (hp : vm.parseEach b I Os = some (vecOI, vm')) :
    List.Forall₂ (fun O oi => ∃ vm₁ vm₂, VMShape vm₁ ∧ SameCells vm vm₁ ∧
      vm₁.parseOperand b I O = some (oi, vm₂)) Os vecOI := by
  induction Os generalizing vm vecOI with
  | nil =>
    obtain ⟨rfl, -⟩ := Prod.mk.inj (Option.some.inj hp)
    exact .nil
  | cons O Os ih =>
    obtain ⟨⟨oi, vm₁⟩, hO, hrest⟩ := bind_some hp
    obtain ⟨⟨ois, vm₂⟩, hOs, hout⟩ := bind_some hrest
    obtain ⟨rfl, rfl⟩ := Prod.mk.inj (Option.some.inj hout)
    obtain ⟨h₁, hsame, -⟩ := h.parseOperand (hwidth O (by simp)) hO
    have htail := ih h₁ (fun O' hO' => hwidth O' (by simp [hO'])) hOs
    refine .cons ⟨vm, vm₁, h, SameCells.refl vm, hO⟩ (htail.imp ?_)
    intro O' oi' ⟨vm₃, vm₄, h₃, hsame₃, hparse⟩
    exact ⟨vm₃, vm₄, h₃, hsame.trans hsame₃, hparse⟩

/-- The registers of an address are concrete when it is found. -/
theorem VMShape.memConaddr_concrete (h : VMShape vm) {I : Instruction} {O : Operand}
    {direct : Bool} {addr : Nat} (hp : vm.memConaddr I O direct = some (addr, vm')) :
    ∀ P ∈ O.readSet, vm.isSYReg P.1 = false := by
  obtain ⟨⟨base, vm₁⟩, hgs, hrest⟩ := bind_some hp
  obtain ⟨-, hsame, -⟩ := h.isUseGS hgs
  dsimp only at hrest
  split at hrest
  · simp at hrest
  · split at hrest
    · simp at hrest
    · rename_i hany
      intro P hP
      rw [Bool.not_eq_true, List.any_eq_false] at hany
      rw [← hsame.isSYReg]
      exact Bool.eq_false_iff.2 (hany P hP)

/-- A memory operand that was parsed has concrete address registers, as the parser asserts
that each of them is. -/
theorem VMShape.parseOperand_concrete (h : VMShape vm) {b : Bool} {I : Instruction} {O : Operand}
    {oi : OprndInfo} (hsome : O.deref.isSome = true)
    (hacc : O.isRead = true ∨ O.isWritten = true)
    (hp : vm.parseOperand b I O = some (oi, vm')) :
    ∀ P ∈ O.value.uses, vm.isSYReg P.1 = false := by
  rw [← Operand.readSet_memory hsome]
  rw [VMState.parseOperand, Operand.readsMemory, Operand.writesMemory, hsome, Bool.true_and,
    Bool.true_and] at hp
  cases hread : O.isRead <;> cases hwritten : O.isWritten <;> rw [hread, hwritten] at hp
  · simp [hread, hwritten] at hacc
  · obtain ⟨⟨addr, vm₁⟩, haddr, -⟩ := bind_some (show vm.parseOperandXW I O = _ from hp)
    exact h.memConaddr_concrete haddr
  · obtain ⟨⟨addr, vm₁⟩, haddr, -⟩ := bind_some (show vm.parseOperandRX b I O = _ from hp)
    exact h.memConaddr_concrete haddr
  · obtain ⟨⟨addr, vm₁⟩, haddr, -⟩ := bind_some (show vm.parseOperandRW b I O = _ from hp)
    exact h.memConaddr_concrete haddr

/-- The executor runs on concrete addresses only. -/
theorem exec_concrete (h : VMShape vm) {I : Instruction}
    (hmode : ∀ O ∈ I.operands,
      isAccessSize O.size = true ∧ (O.isRead = true ∨ O.isWritten = true))
    (hexec : exec vm I = some vm') {O : Operand} (hO : O ∈ I.operands)
    (hsome : O.deref.isSome = true) : ∀ P ∈ O.value.uses, vm.isSYReg P.1 = false := by
  obtain ⟨⟨vecOI, vm₁⟩, hparse, -⟩ := bind_some hexec
  obtain ⟨vm₀, hset, heach⟩ := bind_some hparse
  obtain ⟨h₀, hsame₀⟩ := h.setReadRegs hset
  have hall := h₀.parseEach_forall₂ (fun O hO => (hmode O hO).1) heach
  obtain ⟨hlength, hget⟩ := List.forall₂_iff_get.1 hall
  obtain ⟨i, rfl⟩ := List.get_of_mem hO
  obtain ⟨vm₂, vm₃, h₂, hsame, hparse⟩ := hget i.1 i.2 (hlength ▸ i.2)
  intro P hP
  rw [← (hsame₀.trans hsame).isSYReg]
  exact h₂.parseOperand_concrete hsome (hmode _ hO).2 hparse P hP

end Written

/-! ## The handlers -/

/-- The labels of `process_cmovxx`. -/
def isCmov : EntryID → Bool
  | .cmovbe | .cmove | .cmovnae | .cmovnb | .cmovnbe | .cmovne | .cmovng | .cmovnge | .cmovnl
  | .cmovno | .cmovns | .cmovo | .cmovpe | .cmovpo | .cmovs => true
  | _ => false

/-- The labels of `process_set`. -/
def isSet : EntryID → Bool
  | .setb | .setbe | .setl | .setle | .setnb | .setnbe | .setnl | .setnle | .setno | .setnp
  | .setns | .setnz | .seto | .setp | .sets | .setz => true
  | _ => false

section Handlers

variable {vm vm' vm₁ : VMState} {I : Instruction} {D S : Operand} {r : MachRegister}
  {s l : Loc} {n : Nat}

/-- `process` sends every conditional move to the one handler. -/
theorem process_cmov (hid : isCmov I.id = true) (vecOI : List OprndInfo) :
    process I vm vecOI = processCmovxx vm vecOI := by
  obtain ⟨id, operands, implicitReads⟩ := I
  cases id <;> first | exact absurd hid Bool.false_ne_true | rfl

/-- `process` sends every `setcc` to the one handler. -/
theorem process_set (hid : isSet I.id = true) (vecOI : List OprndInfo) :
    process I vm vecOI = processSet vm vecOI := by
  obtain ⟨id, operands, implicitReads⟩ := I
  cases id <;> first | exact absurd hid Bool.false_ne_true | rfl

/-- What the parser finds of a move: the index of the destination, and the source. -/
structure CmovParsed (vm : VMState) (r : MachRegister) (s : Loc) (n : Nat) (o1 o2 : OprndInfo) :
    Prop where
  index : o1.regIndex = some r
  size : o1.size = n
  source : SourceShown vm n s o2

/-- What the parser hands to `process_cmovxx`: two operands over the same cells, each with
the answer whether it is symbolic, and the value of the source where it is. -/
theorem cmovParsed_of_parse (h : VMShape vm) (hops : I.operands = [D, S])
    (hD : D.LiesAt vm I n (.reg r)) (hS : S.LiesAt vm I n s) (hread : S.isRead = true)
    (hwritten : D.isWritten = true) (hwidth : isAccessSize n = true) (hn : n ≠ 1)
    {vecOI : List OprndInfo} (hparse : vm.parseOperands false I = some (vecOI, vm₁)) :
    VMShape vm₁ ∧ SameCells vm vm₁ ∧ ∃ o1 o2, vecOI = [o1, o2] ∧ CmovParsed vm r s n o1 o2 := by
  have hmode : ∀ O ∈ I.operands,
      isAccessSize O.size = true ∧ (O.isRead = true ∨ O.isWritten = true) := by
    intro O hO
    rw [hops, List.mem_pair] at hO
    rcases hO with rfl | rfl
    · exact ⟨hD.size_eq ▸ hwidth, Or.inr hwritten⟩
    · exact ⟨hS.size_eq ▸ hwidth, Or.inl hread⟩
  obtain ⟨h₁, hsame, hall⟩ := h.parseOperands (fun O hO => (hmode O hO).1) hparse
  -- The registers that were looked up have an encoding, or the parse had asserted.
  obtain ⟨hknown, -⟩ := h.parseOperands_found hmode hparse
  obtain ⟨vm₀, hset, heach⟩ := bind_some hparse
  have hindex := (h.setReadRegs hset).1.parseEach_forall₂ (fun O hO => (hmode O hO).1) heach
  rw [hops] at hall hindex
  -- Two operands give two results, in their order.
  obtain ⟨o1, ois, -, hrest, rfl⟩ := List.forall₂_cons_left_iff.1 hall
  obtain ⟨o2, ois, hsource, hnil, rfl⟩ := List.forall₂_cons_left_iff.1 hrest
  obtain rfl := List.forall₂_nil_left_iff.1 hnil
  obtain ⟨⟨vm₂, vm₃, -, -, hdest⟩, -⟩ := List.forall₂_cons.1 hindex
  refine ⟨h₁, hsame, o1, o2, rfl, ?_⟩
  cases hD with
  | register _ hderef hval _ =>
    obtain ⟨hreg, hsize⟩ := regIndex_of_parse hderef hval hdest
    refine ⟨hreg, hsize, ?_⟩
    cases hS with
    | register s hderefS hvalS _ =>
      have hset : S.readSet = [(s, n)] := Operand.Form.readSet_register hderefS hvalS hread
      have henc : dyinstEncoding s = some n := by
        refine hknown (s, n) ?_
        rw [Instruction.readSet, hops]
        simp [hset]
      exact hsource.sourceShown_register h hderefS hvalS henc hn hread
    | memory hderefS _ => exact hsource.sourceShown_memory h hderefS hread

/-- An operand of an accepted instruction is parsed, when its bytes can be read. -/
theorem exists_parse_place (h : VMShape vm) (hD : D.LiesAt vm I n l)
    (hwidth : isAccessSize n = true) (hknown : ∀ P ∈ D.value.uses, dyinstEncoding P.1 = some P.2)
    (hbase : D.deref.isSome = true → D.Found vm I)
    (hcon : D.deref.isSome = true → ∀ P ∈ D.value.uses, vm.isSYReg P.1 = false)
    (hacc : D.isRead = true ∨ D.isWritten = true)
    (honly : D.deref.isSome = true → D.isRead = true → D.isWritten = false)
    (hone : D.isRead = true → l.Readable vm n) :
    ∃ oi vm₁, vm.parseOperand false I D = some (oi, vm₁) := by
  cases hD with
  | register r hderef hval _ =>
    have henc : dyinstEncoding r = some n :=
      hknown (r, n) (by rw [hval]; exact List.mem_singleton_self _)
    -- A register that is only written is not looked up, so it needs no value.
    cases hread : D.isRead with
    | true =>
      exact h.exists_parseOperand_read I (.register r hderef hval henc) hderef hread false
    | false =>
      have hwritten : D.isWritten = true := hacc.resolve_left (by simp [hread])
      obtain ⟨oi, hp⟩ :=
        VMShape.exists_parseOperand_written vm I hderef hval henc hread hwritten false
      exact ⟨oi, vm, hp⟩
  | memory hderef hmapped =>
    have hsome : D.deref.isSome = true := by
      rw [hderef]
      rfl
    have hset : D.readSet = D.value.uses := Operand.readSet_memory hsome
    have hfound := hbase hsome
    -- Memory that is read must be readable as one range. Memory that is only written is parsed by
    -- its address alone.
    cases hread : D.isRead with
    | true =>
      have hS : MovSource vm I n D := by
        refine .memory hderef (accessRange_of_mapped hwidth hmapped) ?_ ?_
        · rw [hset]
          exact hfound.base.imp_right And.right
        · rw [hset]
          exact hcon hsome
      refine hS.exists_parse_memory h hread (honly hsome hread) hsome (fun hsym _ => ?_) false
      rw [VMState.isSymOprnd, if_pos hsome, hS.size_eq] at hsym
      exact hone hread hsym
    | false =>
      have hwritten : D.isWritten = true := hacc.resolve_left (by simp [hread])
      have haddr : D.readSet ≠ [] ∨ false = true ∧ I.gsBase vm.cpu ≠ 0 := by
        rw [hset]
        exact hfound.base.imp_right fun hgs => absurd (hgs.1.symm.trans hwritten) (by simp)
      obtain ⟨vm₁, hmem, -, -⟩ := h.exists_memConaddr haddr (by rw [hset]; exact hcon hsome)
      rw [VMState.parseOperand, Operand.readsMemory, Operand.writesMemory, hsome, hread, hwritten]
      show ∃ oi vm₁, vm.parseOperandXW I D = some (oi, vm₁)
      rw [VMState.parseOperandXW, hmem]
      exact ⟨_, _, rfl⟩

/-- The operands lie where they lay. -/
theorem SameCells.liesAt {vm₁ : VMState} (hsame : SameCells vm vm₁) (hD : D.LiesAt vm I n l) :
    D.LiesAt vm₁ I n l :=
  hsame.view.liesAt hD

/-- What can be read can be read afterwards. -/
theorem SameCells.readable (hsame : SameCells vm vm₁) (hl : l.Readable vm n) :
    l.Readable vm₁ n := by
  cases l with
  | reg r => exact hl
  | mem addr =>
    intro hsym
    rw [hsame.isSYMemoryCell] at hsym
    exact hl hsym

/-- The operands of an accepted instruction are parsed, when the bytes of those that are
read can be. -/
theorem exists_parse_places (h : VMShape vm) (hall : vm.ParsesAll I)
    (hcon : vm.AddressesConcrete I)
    (hops : ∀ O ∈ I.operands, ∃ l n, O.LiesAt vm I n l ∧ isAccessSize n = true ∧
      (O.isRead = true ∨ O.isWritten = true) ∧
      (O.deref.isSome = true → O.isRead = true → O.isWritten = false) ∧
      (O.isRead = true → l.Readable vm n)) :
    ∃ vecOI vm₁, vm.parseOperands false I = some (vecOI, vm₁) := by
  have hreads : ∀ P ∈ I.readSet, dyinstEncoding P.1 = some P.2 := by
    intro P hP
    rcases List.mem_append.1 hP with hP | hP
    · obtain ⟨O, hO, hP⟩ := List.mem_flatMap.1 hP
      obtain ⟨l, n, hD, -⟩ := hops O hO
      exact hall.known O hO P (hD.plain.uses_of_mem hP)
    · exact hall.implicit P hP
  obtain ⟨vm₀, hset, h₀, hsame₀⟩ := h.exists_setReadRegs hreads
  -- reads change no byte, so that every operand is found in the state before the first
  have heach : ∀ Os, (∀ O ∈ Os, O ∈ I.operands) → ∀ vm₂, VMShape vm₂ → SameCells vm vm₂ →
      ∃ vecOI vm₃, vm₂.parseEach false I Os = some (vecOI, vm₃) := by
    intro Os
    induction Os with
    | nil => exact fun _ vm₂ _ _ => ⟨[], vm₂, rfl⟩
    | cons O Os ih =>
      intro hmem vm₂ h₂ hsame
      have hO : O ∈ I.operands := hmem O (by simp)
      obtain ⟨l, n, hD, hwidth, hacc, honly, hone⟩ := hops O hO
      obtain ⟨oi, vm₃, hp⟩ := exists_parse_place h₂ (hsame.liesAt hD) hwidth (hall.known O hO)
        ((hsame.parsesAll hall).found O hO)
        (fun hsome P hP => (hsame.isSYReg P.1).trans (hcon O hO hsome P hP)) hacc honly
        fun hread => hsame.readable (hone hread)
      obtain ⟨h₃, hsame₃, -⟩ := h₂.parseOperand (by rw [hD.size_eq]; exact hwidth) hp
      obtain ⟨vecOI, vm₄, hrest⟩ :=
        ih (fun O' hO' => hmem O' (by simp [hO'])) vm₃ h₃ (hsame.trans hsame₃)
      refine ⟨oi :: vecOI, vm₄, ?_⟩
      rw [VMState.parseEach, hp]
      simp only [Option.bind_eq_bind, Option.bind_some, hrest]
      rfl
  obtain ⟨vecOI, vm₁, hparse⟩ := heach I.operands (fun _ hO => hO) vm₀ h₀ hsame₀
  refine ⟨vecOI, vm₁, ?_⟩
  rw [VMState.parseOperands, hset]
  exact hparse

/-- A move whose operands are parsed is finished. -/
theorem exists_exec_cmov (h : VMShape vm) (hid : isCmov I.id = true) (hops : I.operands = [D, S])
    (hD : D.LiesAt vm I n (.reg r)) (hS : S.LiesAt vm I n s) (hread : S.isRead = true)
    (hwritten : D.isWritten = true) (hwidth : isAccessSize n = true) (hn : n ≠ 1)
    (henc : dyinstEncoding r = some n) {vecOI : List OprndInfo}
    (hparse : vm.parseOperands false I = some (vecOI, vm₁)) : ∃ vm', exec vm I = some vm' := by
  obtain ⟨h₁, -, o1, o2, rfl, hreg, hsize, hshown⟩ :=
    cmovParsed_of_parse h hops hD hS hread hwritten hwidth hn hparse
  obtain ⟨hsetsym, hsetcon⟩ := OprndInfo.setValue_register hreg vm₁
  have hproc : ∃ vm', processCmovxx vm₁ [o1, o2] = some vm' := by
    rw [processCmovxx]
    simp only [List.getElem?_cons_zero, List.getElem?_cons_succ, Option.bind_eq_bind,
      Option.bind_some]
    -- The handler sets an expression or a word, by the mark of the source.
    cases hsymb : o2.symb with
    | true =>
      obtain ⟨e, he, -⟩ := hshown.expr hsymb
      rw [he, Option.bind_some, hsetsym, hsize]
      obtain ⟨vm', hw, -⟩ := listWritten h₁ (SameCells.refl vm₁)
        (V := ⟨r, n, true, false, 0, e, []⟩) ⟨henc, by simp⟩
      exact ⟨vm', hw⟩
    | false =>
      obtain ⟨v, hv, -⟩ := hshown.word hsymb
      simp only [Bool.false_eq_true, if_false]
      rw [hv, Option.bind_some, hsetcon, hsize]
      obtain ⟨vm', hw, -⟩ := listWritten h₁ (SameCells.refl vm₁)
        (V := ⟨r, n, false, false, v, .null, []⟩) ⟨henc, by simp⟩
      exact ⟨vm', hw⟩
  obtain ⟨vm', hproc⟩ := hproc
  refine ⟨vm', ?_⟩
  rw [exec, hparse]
  exact (process_cmov hid _).trans hproc

/-- The executor has read a symbolic source inside one chunk. -/
theorem readable_of_exec (h : VMShape vm) (hops : I.operands = [D, S])
    (hD : D.LiesAt vm I n (.reg r)) (hS : S.LiesAt vm I n s)
    (haccess : S.isRead = true ∧ S.isWritten = false) (hwidth : isAccessSize n = true)
    (hexec : exec vm I = some vm') : s.Readable vm n := by
  obtain ⟨⟨vecOI, vm₁⟩, hparse, -⟩ := bind_some hexec
  obtain ⟨vm₀, hset, heach⟩ := bind_some hparse
  obtain ⟨h₀, hsame₀⟩ := h.setReadRegs hset
  have hsizes : ∀ O ∈ I.operands, isAccessSize O.size = true := by
    intro O hO
    rw [hops, List.mem_pair] at hO
    rcases hO with rfl | rfl
    · exact hD.size_eq ▸ hwidth
    · exact hS.size_eq ▸ hwidth
  -- The second operand was parsed, so that its read succeeded.
  have hindex := h₀.parseEach_forall₂ hsizes heach
  rw [hops] at hindex
  obtain ⟨o1, ois, -, hrest, rfl⟩ := List.forall₂_cons_left_iff.1 hindex
  obtain ⟨o2, ois, ⟨vm₂, vm₃, h₂, hsame₂, hp⟩, -, rfl⟩ := List.forall₂_cons_left_iff.1 hrest
  have hsame : SameCells vm vm₂ := hsame₀.trans hsame₂
  cases hS with
  | register s _ _ _ => exact trivial
  | memory hderef _ =>
    intro hsym
    -- The question goes back to the state in which the source was parsed.
    rw [← hsame.address] at hsym ⊢
    rw [← hsame.isSYMemoryCell] at hsym
    exact oneChunk_of_parse h₂ haccess hderef hsym hp

/-- The one operand of an instruction is parsed in a state with the same cells. -/
theorem exists_parse_single (h : VMShape vm) (hops : I.operands = [D])
    (hwidth : isAccessSize D.size = true) {vecOI : List OprndInfo}
    (hparse : vm.parseOperands false I = some (vecOI, vm₁)) :
    ∃ vm₀ o, vecOI = [o] ∧ VMShape vm₀ ∧ SameCells vm vm₀ ∧ VMShape vm₁ ∧ SameCells vm vm₁ ∧
      vm₀.parseOperand false I D = some (o, vm₁) := by
  have hall : ∀ O ∈ I.operands, isAccessSize O.size = true := by
    intro O hO
    rw [hops, List.mem_singleton] at hO
    rw [hO, hwidth]
  obtain ⟨h₁, hsame, -⟩ := h.parseOperands hall hparse
  obtain ⟨vm₀, hset, heach⟩ := bind_some hparse
  obtain ⟨h₀, hsame₀⟩ := h.setReadRegs hset
  rw [hops] at heach
  obtain ⟨⟨o, vm₂⟩, hdest, hnil⟩ := bind_some heach
  obtain ⟨rfl, rfl⟩ := Prod.mk.inj (Option.some.inj hnil)
  exact ⟨vm₀, o, rfl, h₀, hsame₀, h₁, hsame, hdest⟩

/-- An operand of one byte that is only written, in memory, is set at its address. -/
theorem setConValue_written {vm₀ : VMState} {o : OprndInfo} (h₀ : VMShape vm₀)
    (hderef : D.deref = some 1) (hread : D.isRead = false) (hwritten : D.isWritten = true)
    (hdest : vm₀.parseOperand false I D = some (o, vm₁)) (v : BitVec 64) :
    o.setConValue vm₁ v
      = asserted (vm₁.writeMemory ⟨D.address I vm₀.cpu, 1, false, false, v, .null, []⟩) := by
  rw [VMState.parseOperand, Operand.readsMemory, Operand.writesMemory, hderef, hread,
    hwritten] at hdest
  have hdest : vm₀.parseOperandXW I D = some (o, vm₁) := hdest
  obtain ⟨⟨addr, vm₃⟩, haddr, hout⟩ := bind_some hdest
  obtain ⟨-, -, rfl⟩ := h₀.memConaddr haddr
  obtain ⟨rfl, rfl⟩ := Prod.mk.inj (Option.some.inj hout)
  have hsize : D.size = 1 := by rw [Operand.size, hderef, Option.getD_some]
  rw [← hsize]
  rfl

/-- A `setcc` of an operand that is parsed is finished. -/
theorem exists_exec_set (h : VMShape vm) (hid : isSet I.id = true) (hops : I.operands = [D])
    (hD : D.LiesAt vm I 1 l) (hread : D.isRead = false) (hwritten : D.isWritten = true)
    (hknown : ∀ P ∈ D.value.uses, dyinstEncoding P.1 = some P.2) {vecOI : List OprndInfo}
    (hparse : vm.parseOperands false I = some (vecOI, vm₁)) : ∃ vm', exec vm I = some vm' := by
  have hwidth : isAccessSize D.size = true := by rw [hD.size_eq]; rfl
  obtain ⟨vm₀, o, rfl, h₀, hsame₀, h₁, hsame, hdest⟩ := exists_parse_single h hops hwidth hparse
  -- A concrete word can be written to every register with an encoding and to every mapped byte.
  have hproc : ∃ vm', o.setConValue vm₁ 1 = some vm' := by
    cases hD with
    | register r hderef hval _ =>
      obtain ⟨hreg, hsize⟩ := regIndex_of_parse hderef hval hdest
      have henc : dyinstEncoding r = some 1 :=
        hknown (r, 1) (by rw [hval]; exact List.mem_singleton_self _)
      rw [(OprndInfo.setValue_register hreg vm₁).2, hsize]
      obtain ⟨vm', hw, -⟩ := listWritten h₁ (SameCells.refl vm₁)
        (V := ⟨r, 1, false, false, 1, .null, []⟩) ⟨henc, by simp⟩
      exact ⟨vm', hw⟩
    | memory hderef hmapped =>
      have hmapped₀ : VMState.mapped (D.address I vm₀.cpu) 1 = true := by
        rw [hsame₀.address]
        exact hmapped
      obtain ⟨m, -, hmem, -, -⟩ := h₁.mem.repr.writeMemoryCell_concrete
        (v := ⟨D.address I vm₀.cpu, 1, false, false, 1, .null, []⟩) rfl
        (accessRange_of_mapped rfl hmapped₀).searchable rfl
      have hw : ∃ vm', vm₁.writeMemory ⟨D.address I vm₀.cpu, 1, false, false, 1, .null, []⟩
          = some (true, vm') := by
        rw [VMState.writeMemory, if_pos hmapped₀, hmem]
        exact ⟨_, rfl⟩
      obtain ⟨vm', hw⟩ := hw
      rw [setConValue_written h₀ hderef hread hwritten hdest]
      exact ⟨vm', asserted_eq_some.2 hw⟩
  obtain ⟨vm', hproc⟩ := hproc
  refine ⟨vm', ?_⟩
  rw [exec, hparse]
  exact (process_set hid _).trans hproc

end Handlers

end KRover
