import KRover.Lib.Extend
import KRover.Proofs.CondMove
import KRover.Proofs.OprndWrite

/-! # What the widening instructions compute

`movsx`, `movzx` and the two that widen the accumulator. A symbolic source
becomes a node that `Z3Handler` does not translate; a concrete one is read
with its sign, and through a one-byte name as the byte above it.

* `IsWidening`: the instructions, with the part that is extended and the
  register it goes to;
* `WidenDone`: the destination reads as the extension of the source;
* `widenDone_iff`: exactly for concrete sources that are read as they are, and
  that have no sign where `movzx` widens them.
-/

set_option autoImplicit false

namespace KRover

open Bytes BvTerm SymExecutor Extend

/-! ## Values -/

/-- The value of a byte under a valuation of the symbols. -/
def ShadowByte.value (ρ : Valuation) : ShadowByte → BitVec 8
  | .symbolic e i => exprByte ρ e i
  | .concrete b => b

namespace VMState

/-- The value of `n` bytes under a valuation. -/
def locValue (ρ : Valuation) (vm : VMState) (n : Nat) (l : Loc) : BitVec (8 * n) :=
  BitVec.ofNat (8 * n) (ofBytes ((List.range n).map fun k => (vm.locByte n l k).value ρ))

/-- The concrete part of `n` bytes. -/
def conWord (vm : VMState) (n : Nat) (l : Loc) : BitVec (8 * n) :=
  BitVec.ofNat (8 * n) (ofBytes ((List.range n).map (vm.wordAt l)))

/-- The concrete part as the engine reads it. -/
def readWord (vm : VMState) (n : Nat) : Loc → BitVec (8 * n)
  | .reg r => (vm.cpu.readConcreteValue r n 0).setWidth (8 * n)
  | .mem addr => BitVec.ofNat (8 * n) (loadBytes vm.mem.concrete addr n)

/-- A one-byte register has the byte that is read in its place, the one
above. -/
def ByteRead (vm : VMState) (n : Nat) (l : Loc) : Prop :=
  ∀ r, l = .reg r → n = 1 →
    (vm.cpu.ptRegs r.offt >>> 8).setWidth 8 = (vm.cpu.ptRegs r.offt).setWidth 8

end VMState

section Values

variable {vm vm' : VMState} {n : Nat} {l : Loc} {r : MachRegister}

/-- The word of a location is made of the bytes seen. -/
theorem SameView.readWord {vm₁ : VMState} (hview : SameView vm vm₁) (n : Nat) (l : Loc) :
    vm₁.readWord n l = vm.readWord n l := by
  cases l with
  | reg r =>
    rw [VMState.readWord, VMState.readWord, SYCPUState.readConcreteValue,
      SYCPUState.readConcreteValue, hview.ptRegs]
  | mem addr => rw [VMState.readWord, VMState.readWord, hview.concrete]

/-- Concrete bytes have one value. -/
theorem locValue_concrete (hcon : vm.isSymLoc n l = false) (ρ : Valuation) :
    vm.locValue ρ n l = vm.conWord n l := by
  have hbyte : ∀ k, (vm.locByte n l k).value ρ = vm.wordAt l k := by
    intro k
    rw [VMState.locByte, hcon]
    rfl
  rw [VMState.locValue, VMState.conWord]
  simp only [hbyte]

/-- The bytes of a part of a word. -/
theorem ofNat_ofBytes (x : BitVec 64) (n : Nat) :
    BitVec.ofNat (8 * n) (ofBytes ((List.range n).map (byteOf x.toNat))) = x.setWidth (8 * n) := by
  show BitVec.ofNat (8 * n) (ofBytes (bytesOf x.toNat n)) = _
  refine BitVec.eq_of_toNat_eq ?_
  rw [ofBytes_bytesOf, BitVec.toNat_ofNat, BitVec.toNat_setWidth, pow_mul]
  exact Nat.mod_mod_of_dvd _ (dvd_refl _)

/-- At a register the concrete word is the low part of the whole one. -/
theorem conWord_reg (henc : dyinstEncoding r = some n) :
    vm.conWord n (.reg r) = (vm.cpu.ptRegs r.offt).setWidth (8 * n) := by
  have hbyte : vm.wordAt (.reg r) = byteOf (vm.cpu.ptRegs r.offt).toNat :=
    funext (wordAt_encoded henc)
  rw [← ofNat_ofBytes, VMState.conWord, hbyte]

/-- At memory it is what is read. -/
theorem conWord_mem {addr : Nat} (hr : AccessRange addr n) :
    vm.conWord n (.mem addr) = vm.readWord n (.mem addr) := by
  have hle := hr.le
  rw [VMState.conWord, VMState.readWord, loadBytes]
  refine congrArg (fun L => BitVec.ofNat (8 * n) (ofBytes L)) (List.map_congr_left fun k hk => ?_)
  have hk := List.mem_range.1 hk
  have haddr : (addr + k) % 2 ^ 64 = addr + k := Nat.mod_eq_of_lt (by omega)
  rw [haddr]
  rfl

/-- A register is read as it is, unless it has one byte. -/
theorem readWord_reg_iff (henc : dyinstEncoding r = some n) :
    vm.readWord n (.reg r) = vm.conWord n (.reg r) ↔ vm.ByteRead n (.reg r) := by
  have hread : vm.readWord n (.reg r)
      = (if n = 1 then vm.cpu.ptRegs r.offt >>> 8 else vm.cpu.ptRegs r.offt).setWidth (8 * n) :=
    setWidth_readConcreteValue vm.cpu (V := regRead r n false) henc 0
  rw [hread, conWord_reg henc]
  by_cases hn : n = 1
  · subst hn
    constructor
    · intro heq r' hr' _
      obtain rfl := Loc.reg.inj hr'
      exact heq
    · intro hbyte
      exact hbyte r rfl rfl
  · rw [if_neg hn]
    exact iff_of_true rfl fun _ _ hone => absurd hone hn

end Values

/-! ## The instructions -/

/-- What a widening does with its source. -/
inductive Widening where
  | sign | zero | copies
deriving DecidableEq, Repr

/-- The result, of `n` bytes for the copies of the sign as for the source. -/
def Widening.apply (k : Widening) {n : Nat} (m : Nat) (x : BitVec (8 * n)) : BitVec (8 * m) :=
  match k with
  | .sign => x.signExtend (8 * m)
  | .zero => x.setWidth (8 * m)
  | .copies => (signCopies x).setWidth (8 * m)

/-- A register operand of a widening. -/
def regOperand (r : MachRegister) (n : Nat) (isRead isWritten : Bool) : Operand :=
  ⟨.register r n, none, isRead, isWritten⟩

/-- A source of `n` bytes at a place, and a register of `m` bytes that is only
written. -/
structure WidenOperands (vm : VMState) (I : Instruction) (S : Operand) (n : Nat) (s : Loc) (m : Nat)
    (r : MachRegister) : Prop where
  operands : I.operands = [regOperand r m false true, S]
  encoded : dyinstEncoding r = some m
  source : MovSource vm I n S
  lies : S.LiesAt vm I n s
  read : S.isRead = true
  written : S.isWritten = false
  known : ∀ P ∈ I.readSet, dyinstEncoding P.1 = some P.2

/-- The widenings of `n` bytes at a place to the `m` bytes of a register. -/
inductive IsWidening (vm : VMState) (I : Instruction) :
    Widening → Nat → Loc → Nat → MachRegister → Prop where
  | movsx {n m : Nat} {s : Loc} {r : MachRegister} (S : Operand)
      (hid : I.id = .movsx ∨ I.id = .movslq ∨ I.id = .movsxd)
      (hops : WidenOperands vm I S n s m r) (hle : n ≤ m) (hm : m ≠ 1) :
      IsWidening vm I .sign n s m r
  | movzx {n m : Nat} {s : Loc} {r : MachRegister} (S : Operand) (hid : I.id = .movzx)
      (hops : WidenOperands vm I S n s m r) (hle : n ≤ m) (hm : m ≠ 1) :
      IsWidening vm I .zero n s m r
  | cbw {n m : Nat} {sub : SubIndex} (hid : I.id = .cbw ∨ I.id = .cwde ∨ I.id = .cwtl)
      (hlow : lowerHalf m = some (sub, n))
      (hops : I.operands = [regOperand ⟨.rax, accumulator m⟩ m true true])
      (hknown : ∀ P ∈ I.readSet, dyinstEncoding P.1 = some P.2) :
      IsWidening vm I .sign n (.reg ⟨.rax, sub⟩) m ⟨.rax, accumulator m⟩
  | cdq {n : Nat} (hid : I.id = .cdq ∨ I.id = .cwd) (hn : n = 2 ∨ n = 4 ∨ n = 8)
      (hops : I.operands = [regOperand ⟨.rdx, accumulator n⟩ n false true,
        regOperand ⟨.rax, accumulator n⟩ n true false])
      (hknown : ∀ P ∈ I.readSet, dyinstEncoding P.1 = some P.2) :
      IsWidening vm I .copies n (.reg ⟨.rax, accumulator n⟩) n ⟨.rdx, accumulator n⟩

/-- The destination as an operand. -/
def destOprnd (vm : VMState) (r : MachRegister) (m : Nat) : OprndInfo :=
  ⟨if vm.isSYReg r then .regSym (some r) .null else .regCon r 0, .wr, m, vm.isSYReg r, false, 0,
    []⟩

/-- After the handler the destination reads as the extension of the source. -/
def WidenDone (vm : VMState) (I : Instruction) (k : Widening) (n : Nat) (s : Loc) (m : Nat)
    (r : MachRegister) : Prop :=
  ∃ vm', exec vm I = some vm' ∧
    vm'.ReadsAs (destOprnd vm r m) (8 * m) (fun _ => True) fun ρ => k.apply m (vm.locValue ρ n s)

section Parse

variable {vm vm₁ vm' : VMState} {I : Instruction} {D S : Operand} {r : MachRegister} {n m : Nat}
  {s : Loc} {oi : OprndInfo}

/-- The destination is found by its register. -/
theorem regIndex_destOprnd (vm : VMState) (r : MachRegister) (m : Nat) :
    (destOprnd vm r m).regIndex = some r := by
  rw [destOprnd, OprndInfo.regIndex]
  cases vm.isSYReg r <;> rfl

/-- A register that is written is parsed as the destination. -/
theorem parse_destOprnd (hsame : SameCells vm vm₁) (henc : dyinstEncoding r = some m) :
    vm₁.parseOperand false I (regOperand r m false true) = some (destOprnd vm r m, vm₁) := by
  have hsym : vm₁.isSYReg r = vm.isSYReg r := hsame.isSYReg r
  show (vm₁.isSYRegAt r >>= _) = _
  rw [vm₁.isSYRegAt_of_encoding henc, hsym, destOprnd]
  cases vm.isSYReg r <;> rfl

/-- The operands of a widening with a destination of its own. -/
theorem parseOperands_dest (h : VMShape vm) (hops : I.operands = [regOperand r m false true, S])
    (henc : dyinstEncoding r = some m)
    (hknown : ∀ P ∈ I.readSet, dyinstEncoding P.1 = some P.2) :
    ∃ vm₀, VMShape vm₀ ∧ SameCells vm vm₀ ∧
      vm.parseOperands false I
        = (vm₀.parseOperand false I S).map fun p => ([destOprnd vm r m, p.1], p.2) := by
  obtain ⟨vm₀, hset, hshape, hsame⟩ := h.exists_setReadRegs hknown
  refine ⟨vm₀, hshape, hsame, ?_⟩
  rw [VMState.parseOperands, hset, hops]
  simp only [Option.bind_eq_bind, Option.bind_some, VMState.parseEach,
    parse_destOprnd hsame henc]
  cases vm₀.parseOperand false I S with
  | none => rfl
  | some p => rfl

/-- What the parser asks of a source is what a read finds. -/
theorem isSymOprnd_eq (hat : S.LiesAt vm I n s) (hread : S.isRead = true) :
    vm.isSymOprnd I S = vm.isSymLoc n s := by
  rw [VMState.isSymOprnd, hat.size_eq]
  cases hat with
  | register r hderef hval hpart =>
    have hset : S.readSet = [(r, n)] := Operand.Form.readSet_register hderef hval hread
    rw [hderef, hset]
    exact Bool.or_false _
  | memory hderef hmapped =>
    rw [hderef]
    rfl

/-- A concrete source is handed over with its sign. -/
theorem Parsed.conValue (hp : Parsed vm I S false oi) (hat : S.LiesAt vm I n s)
    (hread : S.isRead = true) (hcon : oi.symb = false) :
    oi.getConValue = some ((vm.readWord n s).signExtend 64) := by
  have hsize := hat.size_eq
  -- The operand is concrete and read, which leaves a register and a memory operand.
  cases hp with
  | regWritten _ _ _ _ hnot | memWritten _ hnot =>
    exact absurd (hread.symm.trans hnot) Bool.false_ne_true.symm
  | regSym | sum | memSym => exact absurd hcon Bool.false_ne_true.symm
  | imm _ hderef _ hnil =>
    cases hat with
    | register r _ hval _ =>
      rw [Operand.Form.readSet_register hderef hval hread] at hnil
      exact absurd hnil (by simp)
    | memory hsome _ => exact absurd (hderef.symm.trans hsome) (by simp)
  | regCon _ r' hderef =>
    cases hat with
    | register r _ hval _ => rw [hval]; rfl
    | memory hsome _ => exact absurd (hderef.symm.trans hsome) (by simp)
  | memCon _ accs haccs hderef _ hr htest =>
    cases hat with
    | register r hnone _ _ => exact absurd hderef (by simp [hnone])
    | memory hsome hmapped =>
      rw [hsize] at hr htest ⊢
      have htest : vm.mem.isSYMemoryCell (memRead (S.address I vm.cpu) n false).addr
          (memRead (S.address I vm.cpu) n false).size = false := htest
      rw [OprndInfo.getConValue, haccs, SYMemState.valueRead, htest]
      simp only [memRead, readConcrete, hr.width, if_true]
      rfl

/-- A concrete source is parsed. -/
theorem exists_parse_concrete (h : VMShape vm) (hS : MovSource vm I n S)
    (hat : S.LiesAt vm I n s) (hread : S.isRead = true) (hwritten : S.isWritten = false)
    (hcon : vm.isSymLoc n s = false) :
    ∃ oi vm₁, vm.parseOperand false I S = some (oi, vm₁) ∧ VMShape vm₁ ∧ SameCells vm vm₁ ∧
      oi.symb = false ∧ oi.getConValue = some ((vm.readWord n s).signExtend 64) := by
  have hoprnd : vm.isSymOprnd I S = false := (isSymOprnd_eq hat hread).trans hcon
  have hparse : ∃ oi vm₁, vm.parseOperand false I S = some (oi, vm₁) := by
    cases hsome : S.deref.isSome with
    | true =>
      refine hS.exists_parse_memory h hread hwritten hsome (fun hsym => ?_) false
      exact absurd (hsym.symm.trans hoprnd) Bool.false_ne_true.symm
    | false =>
      have hderef : S.deref = none := Option.isNone_iff_eq_none.1 (by simpa using hsome)
      cases hS with
      | memory hmem _ _ _ => simp [hmem] at hsome
      | register r _ hval henc =>
        exact h.exists_parseOperand_read I (.register r hderef hval henc) hderef hread false
  have hwidth : isAccessSize S.size = true := by
    rw [hS.size_eq]
    exact hS.width
  obtain ⟨oi, vm₁, hparse⟩ := hparse
  obtain ⟨h₁, hsame, hp⟩ := h.parseOperand hwidth hparse
  have hsymb : oi.symb = false := (hp.symb_eq hread).trans hoprnd
  exact ⟨oi, vm₁, hparse, h₁, hsame, hsymb, hp.conValue hat hread hsymb⟩

/-- A symbolic source that is parsed is handed over as an expression. -/
theorem parse_symbolic (h : VMShape vm) (hS : MovSource vm I n S) (hat : S.LiesAt vm I n s)
    (hread : S.isRead = true) (hsym : vm.isSymLoc n s = true)
    (hp : vm.parseOperand false I S = some (oi, vm₁)) :
    VMShape vm₁ ∧ SameCells vm vm₁ ∧ oi.symb = true ∧ ∃ e, oi.getSymValue = some e := by
  have hwidth : isAccessSize S.size = true := by
    rw [hS.size_eq]
    exact hS.width
  obtain ⟨h₁, hsame, hparsed⟩ := h.parseOperand hwidth hp
  have hsymb : oi.symb = true :=
    (hparsed.symb_eq hread).trans ((isSymOprnd_eq hat hread).trans hsym)
  exact ⟨h₁, hsame, hsymb, hparsed.exists_symValue hread hsymb⟩

end Parse

/-! ## The handlers -/

section Handlers

variable {vm vm₁ vm' : VMState} {I : Instruction} {S : Operand} {r : MachRegister} {n m : Nat}
  {s : Loc} {oi : OprndInfo}

/-- No register is wider than 64 bits. -/
theorem bits_of_encoded (henc : dyinstEncoding r = some m) : 8 * m ≤ 64 := by
  rcases (regIdxToAddrSize_of_encoded henc).2.2 with rfl | rfl | rfl | rfl <;> decide

/-- `process` sends the three sign extensions to one handler. -/
theorem process_movsx (hid : I.id = .movsx ∨ I.id = .movslq ∨ I.id = .movsxd)
    (vecOI : List OprndInfo) : process I vm vecOI = processExtend .signExt vm vecOI := by
  rcases hid with hid | hid | hid <;> rw [process, hid, processMovsx]

/-- The zero extension goes to the same one with the other node. -/
theorem process_movzx (hid : I.id = .movzx) (vecOI : List OprndInfo) :
    process I vm vecOI = processExtend .zeroExt vm vecOI := by
  rw [process, hid, processMovzx]

/-- The extensions of the accumulator in place have a handler. -/
theorem process_cbw (hid : I.id = .cbw ∨ I.id = .cwde ∨ I.id = .cwtl)
    (vecOI : List OprndInfo) : process I vm vecOI = processCbw vm vecOI := by
  rcases hid with hid | hid | hid <;> rw [process, hid]

/-- Those into the data register have another. -/
theorem process_cdq (hid : I.id = .cdq ∨ I.id = .cwd) (vecOI : List OprndInfo) :
    process I vm vecOI = processCdq vm vecOI := by
  rcases hid with hid | hid <;> rw [process, hid]

/-- An operand that names the register is written as the destination. -/
theorem setValue_destOprnd (vm vm₁ : VMState) (hindex : oi.regIndex = some r)
    (hsize : oi.size = m) :
    (∀ e, oi.setSymValue vm₁ e = (destOprnd vm r m).setSymValue vm₁ e) ∧
      ∀ v, oi.setConValue vm₁ v = (destOprnd vm r m).setConValue vm₁ v := by
  have hoi := OprndInfo.setValue_register hindex vm₁
  have hdest := OprndInfo.setValue_register (regIndex_destOprnd vm r m) vm₁
  constructor
  · intro e
    rw [hoi.1, hdest.1, hsize]
    rfl
  · intro v
    rw [hoi.2, hdest.2, hsize]
    rfl

/-- A node that is not translated is read as no value. -/
theorem not_readsAs_setSymValue (h₁ : VMShape vm₁) (henc : dyinstEncoding r = some m) {e : Expr}
    {err : Z3Error} (he : z3HandlingExprPtr e = .error err)
    (hset : (destOprnd vm r m).setSymValue vm₁ e = some vm') (P : Valuation → Prop)
    (x : Valuation → BitVec (8 * m)) : ¬ vm'.ReadsAs (destOprnd vm r m) (8 * m) P x := by
  obtain ⟨vm₂, v, hset', -, hread, -⟩ :=
    h₁.exists_setSymValue_register (regIndex_destOprnd vm r m) henc e
  obtain rfl := Option.some.inj (hset.symm.trans hset')
  exact not_readsAs hread he P x

/-- A word is read as its low bytes. -/
theorem exists_setConValue_dest (vm : VMState) (h₁ : VMShape vm₁)
    (henc : dyinstEncoding r = some m) (hm : m ≠ 1) (v : BitVec 64) :
    ∃ vm', (destOprnd vm r m).setConValue vm₁ v = some vm' ∧
      ∀ x : Valuation → BitVec (8 * m), (vm'.ReadsAs (destOprnd vm r m) (8 * m) (fun _ => True) x ↔
        ∀ ρ, v.setWidth (8 * m) = x ρ) := by
  obtain ⟨vm', e, y, hset, -, hread, hlow, -⟩ :=
    h₁.exists_setConValue_register (regIndex_destOprnd vm r m) henc hm v
  refine ⟨vm', hset, fun x => ?_⟩
  constructor
  · rintro ⟨symb, e', v', hread', -, hcon⟩ ρ
    have hparts := Option.some.inj (hread.symm.trans hread')
    have hv : y = v' := (Prod.mk.inj (Prod.mk.inj hparts).2).2
    rw [← hcon (Prod.mk.inj hparts).1.symm ρ trivial, ← hv]
    exact hlow.symm
  · intro hx
    refine ⟨false, e, y, hread, fun hsym => absurd hsym Bool.false_ne_true, fun _ ρ _ => ?_⟩
    exact hlow.trans (hx ρ)

/-- A handler of a concrete source that ends with the write of a word. -/
theorem widenDone_iff_of_setConValue {K : Widening} (h₁ : VMShape vm₁)
    (henc : dyinstEncoding r = some m) (hm : m ≠ 1) (hcon : vm.isSymLoc n s = false) {v : BitVec 64}
    (hexec : exec vm I = (destOprnd vm r m).setConValue vm₁ v) :
    WidenDone vm I K n s m r ↔ v.setWidth (8 * m) = K.apply m (vm.conWord n s) := by
  obtain ⟨vm', hset, hreads⟩ := exists_setConValue_dest vm h₁ henc hm v
  rw [← hexec] at hset
  have hval : ∀ ρ, vm.locValue ρ n s = vm.conWord n s := locValue_concrete hcon
  constructor
  · rintro ⟨vm'', hexec', hdone⟩
    obtain rfl := Option.some.inj (hset.symm.trans hexec')
    -- one valuation is as good as another
    have hv := (hreads _).1 hdone fun _ _ => 0
    rwa [hval] at hv
  · intro hv
    refine ⟨vm', hset, (hreads _).2 fun ρ => ?_⟩
    rw [hval]
    exact hv

/-- A symbolic source that the handler gets. -/
theorem WidenOperands.exec_symbolic (hI : WidenOperands vm I S n s m r) (h : VMShape vm)
    (hsym : vm.isSymLoc n s = true) (hexec : exec vm I = some vm') :
    ∃ vm₁ oi e, VMShape vm₁ ∧ oi.symb = true ∧ oi.getSymValue = some e ∧
      process I vm₁ [destOprnd vm r m, oi] = some vm' := by
  obtain ⟨vm₀, h₀, hsame₀, hparse⟩ := parseOperands_dest h hI.operands hI.encoded hI.known
  obtain ⟨⟨vecOI, vm₁⟩, hvec, hrun⟩ := bind_some hexec
  rw [hparse] at hvec
  obtain ⟨⟨oi, vm₂⟩, hp, hpair⟩ := Option.map_eq_some_iff.1 hvec
  obtain ⟨rfl, rfl⟩ := Prod.mk.inj hpair
  have hsym₀ : vm₀.isSymLoc n s = true := (hsame₀.view.isSymLoc n s).trans hsym
  obtain ⟨h₂, -, hsymb, e, hval⟩ := parse_symbolic h₀ (hsame₀.movSource hI.source)
    (hsame₀.view.liesAt hI.lies) hI.read hsym₀ hp
  exact ⟨vm₂, oi, e, h₂, hsymb, hval, hrun⟩

/-- A concrete one. -/
theorem WidenOperands.exec_concrete (hI : WidenOperands vm I S n s m r) (h : VMShape vm)
    (hcon : vm.isSymLoc n s = false) :
    ∃ vm₁ oi, VMShape vm₁ ∧ oi.symb = false ∧
      oi.getConValue = some ((vm.readWord n s).signExtend 64) ∧
      exec vm I = process I vm₁ [destOprnd vm r m, oi] := by
  obtain ⟨vm₀, h₀, hsame₀, hparse⟩ := parseOperands_dest h hI.operands hI.encoded hI.known
  have hcon₀ : vm₀.isSymLoc n s = false := (hsame₀.view.isSymLoc n s).trans hcon
  obtain ⟨oi, vm₁, hp, h₁, -, hsymb, hval⟩ := exists_parse_concrete h₀
    (hsame₀.movSource hI.source) (hsame₀.view.liesAt hI.lies) hI.read hI.written hcon₀
  rw [hsame₀.view.readWord] at hval
  refine ⟨vm₁, oi, h₁, hsymb, hval, ?_⟩
  rw [exec, hparse, hp]
  rfl

/-- `process_movsx` and `process_movzx` of a symbolic source. -/
theorem WidenOperands.not_widenDone_extend (hI : WidenOperands vm I S n s m r) (h : VMShape vm)
    {k : UryKind} {K : Widening} {err : Z3Error}
    (hk : ∀ e size, z3HandlingExprPtr (.ury k e size) = .error err)
    (hprocess : ∀ vm₁ vecOI, process I vm₁ vecOI = processExtend k vm₁ vecOI)
    (hsym : vm.isSymLoc n s = true) : ¬ WidenDone vm I K n s m r := by
  rintro ⟨vm', hexec, hreads⟩
  obtain ⟨vm₁, oi, e, h₁, hsymb, hval, hrun⟩ := hI.exec_symbolic h hsym hexec
  rw [hprocess, processExtend] at hrun
  simp only [Option.bind_eq_bind, Option.bind_some, List.getElem?_cons_zero,
    List.getElem?_cons_succ, hsymb, if_true, hval] at hrun
  exact not_readsAs_setSymValue h₁ hI.encoded (hk e _) hrun _ _ hreads

/-- Of a concrete one, which they take over as it was read. -/
theorem WidenOperands.widenDone_extend_iff (hI : WidenOperands vm I S n s m r) (h : VMShape vm)
    {k : UryKind} {K : Widening}
    (hprocess : ∀ vm₁ vecOI, process I vm₁ vecOI = processExtend k vm₁ vecOI) (hm : m ≠ 1)
    (hdest : vm.isSYReg r = true) (hcon : vm.isSymLoc n s = false) :
    WidenDone vm I K n s m r ↔
      (vm.readWord n s).signExtend (8 * m) = K.apply m (vm.conWord n s) := by
  obtain ⟨vm₁, oi, h₁, hsymb, hval, hexec⟩ := hI.exec_concrete h hcon
  rw [hprocess, processExtend] at hexec
  simp only [Option.bind_eq_bind, Option.bind_some, List.getElem?_cons_zero,
    List.getElem?_cons_succ, hsymb, Bool.false_eq_true, if_false, hval] at hexec
  rw [show (destOprnd vm r m).symb = true from hdest, if_pos rfl] at hexec
  rw [widenDone_iff_of_setConValue h₁ hI.encoded hm hcon hexec,
    setWidth_signExtend (bits_of_encoded hI.encoded)]

/-- `process_cdq` of a symbolic accumulator. -/
theorem WidenOperands.not_widenDone_cdq (hI : WidenOperands vm I S n s n r) (h : VMShape vm)
    (hid : I.id = .cdq ∨ I.id = .cwd) (hsym : vm.isSymLoc n s = true) :
    ¬ WidenDone vm I .copies n s n r := by
  rintro ⟨vm', hexec, hreads⟩
  obtain ⟨vm₁, oi, e, h₁, hsymb, hval, hrun⟩ := hI.exec_symbolic h hsym hexec
  rw [process_cdq hid, processCdq] at hrun
  simp only [Option.bind_eq_bind, Option.bind_some, List.getElem?_cons_zero,
    List.getElem?_cons_succ, hsymb, if_true, hval] at hrun
  -- the bytes that are cut out are those of the extension
  have herr : z3HandlingExprPtr (.extract (.ury .signExt e (oi.size * 2)) oi.size
      (oi.size * 2 : Nat) (destOprnd vm r n).size) = .error .diverges := rfl
  exact not_readsAs_setSymValue h₁ hI.encoded herr hrun _ _ hreads

/-- Of a concrete one. -/
theorem WidenOperands.widenDone_cdq (hI : WidenOperands vm I S n s n r) (h : VMShape vm)
    (hid : I.id = .cdq ∨ I.id = .cwd) (hn : n ≠ 1) (hcon : vm.isSymLoc n s = false)
    (hword : vm.readWord n s = vm.conWord n s) : WidenDone vm I .copies n s n r := by
  obtain ⟨vm₁, oi, h₁, hsymb, hval, hexec⟩ := hI.exec_concrete h hcon
  rw [process_cdq hid, processCdq] at hexec
  simp only [Option.bind_eq_bind, Option.bind_some, List.getElem?_cons_zero,
    List.getElem?_cons_succ, hsymb, Bool.false_eq_true, if_false, hval] at hexec
  rw [widenDone_iff_of_setConValue h₁ hI.encoded hn hcon hexec, hword]
  show _ = (signCopies (vm.conWord n s)).setWidth (8 * n)
  rw [BitVec.setWidth_eq, ← setWidth_signCopies (bits_of_encoded hI.encoded)]
  rfl

/-- The operand of `process_cbw`. -/
theorem parse_accumulator (h : VMShape vm) (hops : I.operands = [regOperand r m true true])
    (henc : dyinstEncoding r = some m) (hknown : ∀ P ∈ I.readSet, dyinstEncoding P.1 = some P.2)
    (hsym : vm.isSYReg r = true) :
    ∃ oi vm₁ e, vm.parseOperands false I = some ([oi], vm₁) ∧ VMShape vm₁ ∧ SameCells vm vm₁ ∧
      oi.getSymValue = some e ∧ oi.symb = true ∧ oi.regIndex = some r ∧ oi.size = m := by
  obtain ⟨vm₀, hset, h₀, hsame₀⟩ := h.exists_setReadRegs hknown
  have hform : (regOperand r m true true).Form m := .register r rfl rfl henc
  obtain ⟨oi, vm₁, hp⟩ := h₀.exists_parseOperand_read I hform rfl rfl false
  obtain ⟨h₁, hsame₁, hparsed⟩ := h₀.parseOperand (isAccessSize_of_encoded henc) hp
  have hsymb : oi.symb = true := by
    rw [hparsed.symb_eq rfl, hsame₀.isSymOprnd]
    show (vm.isSYReg r || false) = true
    rw [hsym, Bool.true_or]
  obtain ⟨e, hval⟩ := hparsed.exists_symValue rfl hsymb
  obtain ⟨hindex, hsize⟩ := regIndex_of_parse rfl rfl hp
  refine ⟨oi, vm₁, e, ?_, h₁, hsame₀.trans hsame₁, hval, hsymb, hindex, hsize⟩
  rw [VMState.parseOperands, hset, hops]
  simp only [Option.bind_eq_bind, Option.bind_some, VMState.parseEach, hp]
  rfl

/-- What `process_cbw` does, by the lower half of the accumulator. -/
theorem exec_cbw (h : VMShape vm) (hid : I.id = .cbw ∨ I.id = .cwde ∨ I.id = .cwtl)
    {sub : SubIndex} (hlow : lowerHalf m = some (sub, n))
    (hops : I.operands = [regOperand ⟨.rax, accumulator m⟩ m true true])
    (henc : dyinstEncoding ⟨.rax, accumulator m⟩ = some m)
    (hlowEnc : dyinstEncoding ⟨.rax, sub⟩ = some n)
    (hknown : ∀ P ∈ I.readSet, dyinstEncoding P.1 = some P.2)
    (hdest : vm.isSYReg ⟨.rax, accumulator m⟩ = true) :
    ∃ vm₁ e, VMShape vm₁ ∧ exec vm I =
      if vm.isSYReg ⟨.rax, sub⟩ then
        (destOprnd vm ⟨.rax, accumulator m⟩ m).setSymValue vm₁ (.ury .signExt e m)
      else
        (destOprnd vm ⟨.rax, accumulator m⟩ m).setConValue vm₁
          ((vm.readWord n (.reg ⟨.rax, sub⟩)).signExtend 64) := by
  obtain ⟨oi, vm₁, e, hparse, h₁, hsame₁, hval, hsymb, hindex, hsize⟩ :=
    parse_accumulator h hops henc hknown hdest
  -- The lower half is read anew, since only the destination is an operand.
  obtain ⟨vm₂, hread, h₂, -⟩ := h₁.exists_readRegisterExpr hlowEnc
  have hset := setValue_destOprnd vm vm₂ hindex hsize
  have hbsym : (vm₁.cpu.valueRead (regRead ⟨.rax, sub⟩ n false)).bsym
      = vm.isSYReg ⟨.rax, sub⟩ := by
    rw [SYCPUState.bsym_valueRead]
    exact hsame₁.isSYReg ⟨.rax, sub⟩
  -- What is read is the word before the parsers ran.
  have hword : (vm₁.cpu.valueRead (regRead ⟨.rax, sub⟩ n false)).i64.setWidth (8 * n)
      = vm.readWord n (.reg ⟨.rax, sub⟩) := by
    rw [SYCPUState.i64_valueRead, ← hsame₁.view.readWord]
    rfl
  refine ⟨vm₂, e, h₂, ?_⟩
  rw [exec, hparse]
  show process I vm₁ [oi] = _
  rw [process_cbw hid, processCbw]
  simp only [Option.bind_eq_bind, Option.bind_some, List.getElem?_cons_zero, hsymb, if_true,
    hval, hsize, hlow, hread, hbsym, hword, hset.1]
  rw [(OprndInfo.setValue_register (regIndex_destOprnd vm _ m) vm₂).2]
  rfl

/-- The accumulator and its lower half. -/
theorem lowerHalf_cases (vm : VMState) {sub : SubIndex}
    (hlow : lowerHalf m = some (sub, n)) :
    (n ≤ m ∧ m ≠ 1) ∧ dyinstEncoding ⟨.rax, accumulator m⟩ = some m ∧
      dyinstEncoding ⟨.rax, sub⟩ = some n ∧
      (vm.isSYReg ⟨.rax, sub⟩ = true → vm.isSYReg ⟨.rax, accumulator m⟩ = true) := by
  -- a part that is symbolic is so in the whole
  have hpart : ∀ part whole : SubIndex, regMaskBits whole &&& regMaskBits part = regMaskBits part →
      vm.isSYReg ⟨.rax, part⟩ = true → vm.isSYReg ⟨.rax, whole⟩ = true := by
    intro part whole hmask hsym
    rw [VMState.isSYReg, SYCPUState.isSYReg, bne_iff_ne] at hsym ⊢
    intro hzero
    apply hsym
    rw [← hmask, ← BitVec.and_assoc]
    exact (congrArg (· &&& regMaskBits part) hzero).trans BitVec.zero_and
  rw [lowerHalf.eq_def] at hlow
  split at hlow
  · obtain ⟨rfl, rfl⟩ := Prod.mk.inj (Option.some.inj hlow)
    exact ⟨by decide, rfl, rfl, hpart .l .w (by decide)⟩
  · obtain ⟨rfl, rfl⟩ := Prod.mk.inj (Option.some.inj hlow)
    exact ⟨by decide, rfl, rfl, hpart .w .d (by decide)⟩
  · obtain ⟨rfl, rfl⟩ := Prod.mk.inj (Option.some.inj hlow)
    exact ⟨by decide, rfl, rfl, hpart .d .full (by decide)⟩
  · exact absurd hlow (by simp)

/-- `process_cbw`. -/
theorem widenDone_cbw_iff (h : VMShape vm) (hid : I.id = .cbw ∨ I.id = .cwde ∨ I.id = .cwtl)
    {sub : SubIndex} (hlow : lowerHalf m = some (sub, n))
    (hops : I.operands = [regOperand ⟨.rax, accumulator m⟩ m true true])
    (hknown : ∀ P ∈ I.readSet, dyinstEncoding P.1 = some P.2)
    (hdest : vm.isSYReg ⟨.rax, accumulator m⟩ = true) :
    WidenDone vm I .sign n (.reg ⟨.rax, sub⟩) m ⟨.rax, accumulator m⟩ ↔
      vm.isSYReg ⟨.rax, sub⟩ = false ∧
        (vm.readWord n (.reg ⟨.rax, sub⟩)).signExtend (8 * m)
          = (vm.conWord n (.reg ⟨.rax, sub⟩)).signExtend (8 * m) := by
  obtain ⟨⟨-, hm⟩, henc, hlowEnc, -⟩ := lowerHalf_cases vm hlow
  obtain ⟨vm₁, e, h₁, hexec⟩ := exec_cbw h hid hlow hops henc hlowEnc hknown hdest
  cases hsym : vm.isSYReg ⟨.rax, sub⟩ with
  | true =>
    rw [if_pos hsym] at hexec
    refine iff_of_false ?_ fun hno => Bool.false_ne_true hno.1.symm
    rintro ⟨vm', hrun, hreads⟩
    have herr : z3HandlingExprPtr (.ury .signExt e m) = .error .diverges := rfl
    exact not_readsAs_setSymValue h₁ henc herr (hexec.symm.trans hrun) _ _ hreads
  | false =>
    have hcon : vm.isSymLoc n (.reg ⟨.rax, sub⟩) = false := hsym
    rw [if_neg (by rw [hsym]; exact Bool.false_ne_true)] at hexec
    rw [widenDone_iff_of_setConValue h₁ henc hm hcon hexec,
      setWidth_signExtend (bits_of_encoded henc)]
    exact (and_iff_right rfl).symm

/-- The word of the source is the concrete one exactly where each of its bytes is. -/
theorem WidenOperands.readWord_iff (hI : WidenOperands vm I S n s m r) :
    vm.readWord n s = vm.conWord n s ↔ vm.ByteRead n s := by
  cases hI.lies with
  | register a hderef hval _ =>
    cases hI.source with
    | register b _ hval' henc =>
      have heq : OperandAST.register a n = .register b n := hval.symm.trans hval'
      obtain rfl : a = b := (OperandAST.register.inj heq).1
      exact readWord_reg_iff henc
    | memory hsome => exact absurd (hderef.symm.trans hsome) (by simp)
  | memory hsome _ =>
    cases hI.source with
    | register _ hderef => exact absurd (hderef.symm.trans hsome) (by simp)
    | memory _ hr =>
      exact iff_of_true (conWord_mem hr).symm fun _ hloc => absurd hloc (by simp)

end Handlers

/-- A widening is done right exactly when no byte of the part that is extended is symbolic,
a one-byte register has the byte above in its place, and a part that `movzx` widens has no
sign. The node of a symbolic source has no translation. A concrete source is read with its
sign and taken over as it is, and a one-byte register is read from the second byte of its
word. -/
theorem widenDone_iff (vm : VMState) (I : Instruction) (K : Widening) (n : Nat) (s : Loc) (m : Nat)
    (r : MachRegister) (h : VMShape vm) (hI : IsWidening vm I K n s m r)
    (hsym : vm.isSYReg r = true ∨ vm.isSymLoc n s = true) :
    WidenDone vm I K n s m r ↔ vm.isSymLoc n s = false ∧ vm.ByteRead n s ∧
      (K = .zero → n < m → (vm.conWord n s).msb = false) := by
  -- Each of the four kinds: with a symbolic source none is done.
  cases hI with
  | movsx S hid hops hle hm =>
    cases hs : vm.isSymLoc n s with
    | true =>
      exact iff_of_false (hops.not_widenDone_extend h (fun _ _ => rfl)
        (fun _ => process_movsx hid) hs) fun hno => Bool.false_ne_true hno.1.symm
    | false =>
      have hdest : vm.isSYReg r = true := hsym.resolve_right (by simp [hs])
      rw [hops.widenDone_extend_iff h (fun _ => process_movsx hid) hm hdest hs,
        Widening.apply, signExtend_inj (by omega), hops.readWord_iff]
      exact ⟨fun hbyte => ⟨rfl, hbyte, fun hK => absurd hK (by decide)⟩, fun hall => hall.2.1⟩
  | movzx S hid hops hle hm =>
    cases hs : vm.isSymLoc n s with
    | true =>
      exact iff_of_false (hops.not_widenDone_extend h (fun _ _ => rfl)
        (fun _ => process_movzx hid) hs) fun hno => Bool.false_ne_true hno.1.symm
    | false =>
      have hdest : vm.isSYReg r = true := hsym.resolve_right (by simp [hs])
      rw [hops.widenDone_extend_iff h (fun _ => process_movzx hid) hm hdest hs,
        Widening.apply, signExtend_eq_setWidth_iff (by omega), hops.readWord_iff]
      -- `movzx` is carried out as `movsx`, so the top bit of a narrower source has to be clear.
      constructor
      · rintro ⟨hbyte, hmsb⟩
        exact ⟨rfl, hbyte, fun _ hlt => hmsb (by omega)⟩
      · rintro ⟨-, hbyte, hmsb⟩
        exact ⟨hbyte, fun hlt => hmsb rfl (by omega)⟩
  | @cbw _ _ sub hid hlow hops hknown =>
    obtain ⟨⟨hle, -⟩, -, henc, hwhole⟩ := lowerHalf_cases vm hlow
    have hdest := hsym.elim id hwhole
    rw [widenDone_cbw_iff h hid hlow hops hknown hdest, signExtend_inj (by omega),
      readWord_reg_iff henc]
    exact and_congr_right fun _ => (and_iff_left fun hK => absurd hK (by decide)).symm
  | cdq hid hn hops hknown =>
    have henc : ∀ i, i = .rax ∨ i = .rdx → dyinstEncoding ⟨i, accumulator n⟩ = some n := by
      rintro i (rfl | rfl) <;> rcases hn with rfl | rfl | rfl <;> rfl
    have hax := henc .rax (Or.inl rfl)
    have hI : WidenOperands vm I _ n (.reg ⟨.rax, accumulator n⟩) n ⟨.rdx, accumulator n⟩ :=
      { operands := hops
        encoded := henc .rdx (Or.inr rfl)
        source := .register _ rfl rfl hax
        lies := .register _ rfl rfl (Prod.mk.inj (regIdxToAddrSize_of_encoded hax).1).2
        read := rfl
        written := rfl
        known := hknown }
    have hn1 : n ≠ 1 := by omega
    -- No one-byte register takes part here.
    have hbyte : vm.ByteRead n (.reg ⟨.rax, accumulator n⟩) := fun _ _ hone => absurd hone hn1
    cases hs : vm.isSymLoc n (.reg ⟨.rax, accumulator n⟩) with
    | true =>
      exact iff_of_false (hI.not_widenDone_cdq h hid hs) fun hno => Bool.false_ne_true hno.1.symm
    | false =>
      exact iff_of_true (hI.widenDone_cdq h hid hn1 hs (hI.readWord_iff.2 hbyte))
        ⟨rfl, hbyte, fun hK => absurd hK (by decide)⟩

/-! ## `movslq rdx, eax` -/

/-- The instruction. -/
def movslqRdxEax : Instruction :=
  ⟨.movslq, [regOperand ⟨.rdx, .full⟩ 8 false true, regOperand ⟨.rax, .d⟩ 4 true false], []⟩

/-- `movslq rdx, eax` widens four bytes to eight, from any state. -/
theorem widenOperands_movslqRdxEax (vm : VMState) :
    WidenOperands vm movslqRdxEax (regOperand ⟨.rax, .d⟩ 4 true false) 4 (.reg ⟨.rax, .d⟩) 8
      ⟨.rdx, .full⟩ where
  operands := rfl
  encoded := rfl
  source := .register _ rfl rfl rfl
  lies := .register _ rfl rfl rfl
  read := rfl
  written := rfl
  known := by
    intro P hP
    obtain rfl := List.mem_singleton.1 hP
    rfl

/-- A register object of a fresh machine. -/
theorem exists_createSYRegObject {r : MachRegister} {n : Nat} (henc : dyinstEncoding r = some n) :
    ∃ vm, (VMState.new (fun _ => 0) fun _ => 0).createSYRegObject r n = some (true, vm) ∧
      ListWritten (VMState.new (fun _ => 0) fun _ => 0) vm
        ⟨r, n, true, false, 0, Expr.udefExpr none, []⟩ := by
  have hV : (⟨r, n, true, false, 0, Expr.udefExpr none, []⟩ : RegValue).Writable :=
    ⟨henc, by simp⟩
  obtain ⟨vm, hset, hw⟩ := listWritten (vmShape_new _ _) (SameCells.refl _) hV
  exact ⟨vm, asserted_eq_some.1 hset, hw⟩

/-- A fresh machine with one symbolic register. -/
theorem exists_symReg {r : MachRegister} {n : Nat} (henc : dyinstEncoding r = some n) :
    ∃ vm, (VMState.new (fun _ => 0) fun _ => 0).createSYRegObject r n = some (true, vm) ∧
      VMShape vm ∧ vm.isSYReg r = true ∧
      ∀ i, i ≠ r.offt → RegKept (VMState.new (fun _ => 0) fun _ => 0) vm i := by
  obtain ⟨vm, hnew, hw⟩ := exists_createSYRegObject henc
  exact ⟨vm, hnew, hw.shape, hw.isSYReg_expr henc, fun i hi => hw.regKept hi⟩

/-- The sign goes up into a symbolic `rdx`. The source is concrete, and its word was read
with the sign. -/
theorem widenDone_movslq : ∃ vm,
    (VMState.new (fun _ => 0) fun _ => 0).createSYRegObject ⟨.rdx, .full⟩ 8 = some (true, vm) ∧
      WidenDone vm movslqRdxEax .sign 4 (.reg ⟨.rax, .d⟩) 8 ⟨.rdx, .full⟩ := by
  obtain ⟨vm, hnew, h, hsym, hkept⟩ := exists_symReg (r := ⟨.rdx, .full⟩) rfl
  have hcon : vm.isSymLoc 4 (.reg ⟨.rax, .d⟩) = false := by
    show (vm.cpu.symBitmap .rax &&& _ != 0) = false
    rw [(hkept .rax (by decide)).bits]
    rfl
  refine ⟨vm, hnew, (widenDone_iff vm movslqRdxEax .sign 4 (.reg ⟨.rax, .d⟩) 8 ⟨.rdx, .full⟩ h
    (.movsx _ (Or.inr (Or.inl rfl)) (widenOperands_movslqRdxEax vm) (by decide) (by decide))
    (Or.inl hsym)).2 ⟨hcon, ?_, fun hK => absurd hK (by decide)⟩⟩
  exact fun _ _ hone => absurd hone (by decide)

/-- That of a symbolic `eax` does not. The handler of the node translates the node itself
again, and never ends. -/
theorem not_widenDone_movslq : ∃ vm,
    (VMState.new (fun _ => 0) fun _ => 0).createSYRegObject ⟨.rax, .d⟩ 4 = some (true, vm) ∧
      ¬ WidenDone vm movslqRdxEax .sign 4 (.reg ⟨.rax, .d⟩) 8 ⟨.rdx, .full⟩ := by
  obtain ⟨vm, hnew, h, hsym, -⟩ := exists_symReg (r := ⟨.rax, .d⟩) rfl
  have hid : movslqRdxEax.id = .movsx ∨ movslqRdxEax.id = .movslq ∨ movslqRdxEax.id = .movsxd :=
    Or.inr (Or.inl rfl)
  exact ⟨vm, hnew, (widenOperands_movslqRdxEax vm).not_widenDone_extend h (fun _ _ => rfl)
    (fun _ => process_movsx hid) hsym⟩

end KRover
