import KRover.Proofs.BinaryStep

/-! # What a move copies

`process_mov` reads its source as a list of cells and merges the list into the
destination register. The merge replaces what lies from the first to the last
cell only, so an old cell of the destination that lies outside of that stays,
and reads as a symbolic byte again.

* `byteAt_exprOfCells`: which byte of which node a byte of a range is;
* `movCorrect_iff`: the destination reads as the source exactly when no old
  cell of it is left, and a source in memory lies in one chunk.
-/

set_option autoImplicit false

namespace KRover

open Segments Bytes SymbolListMap SymExecutor

/-! ## Bytes of the shadow -/

/-- A byte of the shadow: a byte of a node, or a concrete one. -/
inductive ShadowByte where
  | symbolic (e : Expr) (i : Nat)
  | concrete (b : BitVec 8)

/-- What a lookup finds, above a concrete byte. -/
def ShadowByte.of (x : Option (Expr × Nat)) (b : BitVec 8) : ShadowByte :=
  match x with
  | some (e, i) => .symbolic e i
  | none => .concrete b

/-- Whether a byte is one of a node. -/
def ShadowByte.isSymbolic : ShadowByte → Bool
  | .symbolic _ _ => true
  | .concrete _ => false

/-- A byte of a location is symbolic where a cell gives it. -/
theorem ShadowByte.isSymbolic_of (x : Option (Expr × Nat)) (b : BitVec 8) :
    (ShadowByte.of x b).isSymbolic = x.isSome := by
  cases x <;> rfl

/-- Byte `k` of a register. -/
def VMState.regShadow (vm : VMState) (i : PtIdx) (k : Nat) : ShadowByte :=
  .of (lookup Expr.byteAt (vm.cpu.regCells i) k) (byteOf (vm.cpu.ptRegs i).toNat k)

/-- The byte of the memory at an address. -/
def VMState.memShadow (vm : VMState) (a : Nat) : ShadowByte :=
  .of (lookup Expr.byteAt vm.mem.storedCells (toInt64 a)) (vm.mem.concrete a)

/-- Byte `k` of an operand. -/
def Operand.shadow (O : Operand) (vm : VMState) (I : Instruction) (k : Nat) : ShadowByte :=
  match O.deref, O.value with
  | some _, _ => vm.memShadow (O.address I vm.cpu + k)
  | none, .register r _ => vm.regShadow r.offt k
  | none, a => .concrete (byteOf (a.eval vm.cpu).toNat k)

/-- Byte `k` of a register value that was read as a list. -/
def RegValue.listByte (W : RegValue) (k : Nat) : ShadowByte :=
  .of (lookup Expr.byteAt W.symcellPtr k) (byteOf W.i64.toNat k)

/-- A byte of an expression with a byte of the shadow, a concrete one as a
literal. -/
def ShadowByte.lit : ShadowByte → Expr × Nat
  | .symbolic e i => (e, i)
  | .concrete b => (Expr.constExpr (b.setWidth 64) 1, 0)

/-- Byte `k` of an expression is the byte of the shadow, a concrete one as a
literal. -/
def ExprShows (e : Expr) (k : Nat) : ShadowByte → Prop
  | .symbolic e' i => e.byteAt k = (e', i)
  | .concrete b => ∃ v, e.byteAt k = (Expr.constExpr v 1, 0) ∧ byteOf v.toNat 0 = b

/-- The cells are cut by extraction, which keeps the bytes. -/
theorem cutLaw_byteAt (L : List (Segment Expr)) : CutLaw cutExpr Expr.byteAt L :=
  fun x _ s t i _ _ => Expr.byteAt_extractExpr x.val s t i

/-! ## Bytes of the expression of a range -/

/-- The pieces of a combination read as the segments they were taken from. -/
theorem selectMulti_eq_lookup {L : List (Segment Expr)} (h0 : ∀ x ∈ L, 0 ≤ x.addr) (i : Nat) :
    selectMulti true (L.map (·.val)) (L.map (·.addr.toNat)) (L.map (·.size)) i
      = lookup Expr.byteAt L i := by
  induction L with
  | nil => rfl
  | cons x xs ih =>
    have hx := h0 x (by simp)
    have hcov : x.Covers i ↔ x.addr.toNat ≤ i ∧ i < x.addr.toNat + x.size := by
      show x.addr ≤ (i : Int) ∧ (i : Int) < x.addr + x.size ↔ _
      omega
    have hidx : ((i : Int) - x.addr).toNat = i - x.addr.toNat := by omega
    simp only [List.map_cons, selectMulti, lookup, hcov, hidx, ih fun y hy => h0 y (by simp [hy])]
    rfl

/-- A byte of the expression of a range is that of the cell over it, or a
literal. -/
theorem byteAt_exprOfCells {L : List (Segment Expr)} {v : BitVec 64} {n : Nat} (hs : Sorted L)
    (hin : ∀ x ∈ L, 0 ≤ x.addr ∧ x.stop ≤ n) {e : Expr} (he : exprOfCells v n L = some e) {i : Nat}
    (hi : i < n) : e.byteAt i = (lookup Expr.byteAt L i).getD (constByte v i, 0) := by
  have htiles := @exprPieces_tiles v n L 0 hs hin (Nat.zero_le _)
  have hpieces := lookup_exprPieces (v := v) hs hin Expr.byteAt (fun i => (constByte v i, 0))
    (fun i => by rw [constByte, Expr.constExpr, Expr.byteAt, Expr.select]) hi
  rw [exprOfCells] at he
  split at he
  · rw [← Option.some.inj he, Expr.combineMultiExpr, Expr.byteAt, Expr.select, if_pos rfl,
      selectMulti_eq_lookup (fun x hx => (htiles.inside x hx).1), hpieces, Option.getD_some]
  · -- the range is a single cell
    rename_i hlen
    have hne : L ≠ [] := by
      rintro rfl
      simp at he
    obtain ⟨x, rfl, hone, haddr, hsize⟩ := exists_singleton hs hin hne hlen
    have hxe : x.val = e := by simpa using he
    have hcov : x.Covers i := ⟨by omega, by show (i : Int) < x.addr + x.size; omega⟩
    rw [lookup_of_mem _ hs (by simp) hcov, Option.getD_some, haddr, Int.sub_zero,
      Int.toNat_natCast, hxe]

/-- The expression of a range has its bytes. -/
theorem lit_exprOfCells {L : List (Segment Expr)} {v : BitVec 64} {n : Nat} (hs : Sorted L)
    (hin : ∀ x ∈ L, 0 ≤ x.addr ∧ x.stop ≤ n) {e : Expr} (he : exprOfCells v n L = some e) {i : Nat}
    (hi : i < n) :
    e.byteAt i = (ShadowByte.of (lookup Expr.byteAt L i) (byteOf v.toNat i)).lit := by
  rw [byteAt_exprOfCells hs hin he hi, constByte_eq]
  cases lookup Expr.byteAt L i <;> rfl

/-- A piece that is read as a literal shows the literal. -/
theorem exprShows_of_lit {e : Expr} {k : Nat} {b : ShadowByte} (h : e.byteAt k = b.lit) :
    ExprShows e k b := by
  cases b with
  | symbolic e' i => exact h
  | concrete b =>
    refine ⟨b.setWidth 64, h, BitVec.eq_of_toNat_eq ?_⟩
    rw [byteOf_toNat, BitVec.toNat_setWidth]
    omega

/-! ## Reading a range -/

section Read

variable {vm : VMState} {r : MachRegister} {addr n : Nat}

/-- The cells read at a register are those of the word, seen from the register's offset on. -/
theorem lookup_regWindow (r : MachRegister) (b : Bool) {k : Nat} (hk : k < n) :
    lookup Expr.byteAt (vm.cpu.regWindow (regRead r n b)) k
      = lookup Expr.byteAt (vm.cpu.regCells r.offt) k := by
  rw [SYCPUState.regWindow, lookup_shift]
  show lookup Expr.byteAt (window cutExpr 0 (0 + (n : Int)) (vm.cpu.regCells r.offt)) _ = _
  rw [lookup_window (cutLaw_byteAt _) (by omega), if_pos (by omega), Int.add_zero]

/-- The cells of a symbolic register and the word below them show its bytes. -/
theorem shadow_regWindow (h : VMShape vm) (henc : dyinstEncoding r = some n)
    (hsym : vm.isSYReg r = true) (b : Bool) {k : Nat} (hk : k < n) :
    ShadowByte.of (lookup Expr.byteAt (vm.cpu.regWindow (regRead r n b)) k)
      (byteOf (vm.cpu.readConcreteValue r n 0).toNat k) = vm.regShadow r.offt k := by
  rw [lookup_regWindow r b hk, VMState.regShadow]
  by_cases hn : n = 1
  · -- the only byte of a register of one byte lies under a cell
    have henc' : (regRead r n b).Encoded := henc
    obtain ⟨j, hj1, hj2, hcov⟩ := (h.cpu.word r.offt).covered_of_isSYReg henc' hsym
    have hj2 : j < 0 + (n : Int) := hj2
    have hjk : j = k := by omega
    rw [hjk, ← lookup_isSome Expr.byteAt] at hcov
    obtain ⟨x, hx⟩ := Option.isSome_iff_exists.1 hcov
    have hx : lookup Expr.byteAt (vm.cpu.regCells r.offt) k = some x := hx
    rw [hx]
    rfl
  · rw [byteOf_readConcreteValue vm.cpu henc hn hk]

/-- The cells of symbolic memory and the word below them show its bytes. -/
theorem shadow_memWindow (hr : AccessRange addr n) {k : Nat} (hk : k < n) :
    ShadowByte.of (lookup Expr.byteAt (vm.mem.memWindow addr n) k)
      (byteOf ((readConcrete vm.mem.concrete addr n).getD 0).toNat k)
        = vm.memShadow (addr + k) := by
  have hpos := hr.pos
  have hwin : lookup Expr.byteAt (vm.mem.memWindow addr n) k
      = lookup Expr.byteAt vm.mem.storedCells (toInt64 (addr + k)) := by
    rw [SYMemState.memWindow, lookup_shift, lookup_window (cutLaw_byteAt _)
      (show toInt64 addr < toInt64 addr + (n : Nat) by omega), if_pos (by omega),
      hr.toInt64_add hk, Int.add_comm]
  rw [hwin, byteOf_readConcrete vm.mem.concrete hr hk]
  rfl

/-- A symbolic register that is read as a list shows its bytes. -/
theorem listByte_valueRead (h : VMShape vm) (henc : dyinstEncoding r = some n)
    (hsym : vm.isSYReg r = true) {k : Nat} (hk : k < n) :
    (vm.cpu.valueRead (regRead r n true)).listByte k = vm.regShadow r.offt k := by
  rw [← shadow_regWindow h henc hsym true hk]
  have hcpu : vm.cpu.isSYReg (regRead r n true).indx = true := hsym
  rw [SYCPUState.valueRead, hcpu]
  rfl

/-- The expression of a symbolic register has its bytes. -/
theorem lit_valueRead (h : VMShape vm) (henc : dyinstEncoding r = some n)
    (hsym : vm.isSYReg r = true) {k : Nat} (hk : k < n) :
    (vm.cpu.valueRead (regRead r n false)).expr.byteAt k = (vm.regShadow r.offt k).lit := by
  have henc' : (regRead r n false).Encoded := henc
  have hword := h.cpu.word r.offt
  have hform : ReadForm n (vm.cpu.regWindow (regRead r n false)) :=
    ReadForm.window hword.repr.sorted (hword.covered_of_isSYReg henc' hsym)
  obtain ⟨e, he⟩ := exprOfCells_isSome (vm.cpu.readConcreteValue r n 0) n hform.ne
  have hexpr : (vm.cpu.valueRead (regRead r n false)).expr = e := by
    have hcpu : vm.cpu.isSYReg (regRead r n false).indx = true := hsym
    rw [SYCPUState.valueRead, hcpu]
    show (exprOfCells (vm.cpu.readConcreteValue r n 0) n (vm.cpu.regWindow _)).getD .null = e
    rw [he]
    rfl
  rw [hexpr, ← shadow_regWindow h henc hsym false hk]
  exact lit_exprOfCells hform.sorted hform.inside he hk

/-- That of symbolic memory too. -/
theorem lit_memValueRead (h : VMShape vm) (hr : AccessRange addr n)
    (hsym : vm.mem.isSYMemoryCell addr n = true) {k : Nat} (hk : k < n) :
    (vm.mem.valueRead (memRead addr n false)).expr.byteAt k = (vm.memShadow (addr + k)).lit := by
  have hform : ReadForm n (vm.mem.memWindow addr n) :=
    ReadForm.window h.mem.repr.sorted (h.mem.covered_of_test hr hsym)
  obtain ⟨e, he⟩ :=
    exprOfCells_isSome ((readConcrete vm.mem.concrete addr n).getD 0) n hform.ne
  have hexpr : (vm.mem.valueRead (memRead addr n false)).expr = e := by
    have htest : vm.mem.isSYMemoryCell (memRead addr n false).addr (memRead addr n false).size
        = true := hsym
    rw [SYMemState.valueRead, htest]
    show (exprOfCells ((readConcrete vm.mem.concrete addr n).getD 0) n
      (vm.mem.memWindow addr n)).getD .null = e
    rw [he]
    rfl
  rw [hexpr, ← shadow_memWindow hr hk]
  exact lit_exprOfCells hform.sorted hform.inside he hk

end Read

/-! ## The operands -/

/-- A source of `n` bytes: a register, or memory at a concrete address. -/
inductive MovSource (vm : VMState) (I : Instruction) (n : Nat) (S : Operand) : Prop where
  | register (r : MachRegister) (hderef : S.deref = none) (hval : S.value = .register r n)
      (henc : dyinstEncoding r = some n)
  | memory (hderef : S.deref = some n) (hr : AccessRange (S.address I vm.cpu) n)
      (haddr : S.readSet ≠ [] ∨ I.gsBase vm.cpu ≠ 0)
      (hcon : ∀ P ∈ S.readSet, vm.isSYReg P.1 = false)

/-- A move of `n` bytes to a register. -/
structure IsMov (vm : VMState) (I : Instruction) (D S : Operand) (r : MachRegister) (n : Nat) :
    Prop where
  operands : I.operands = [D, S]
  encoded : dyinstEncoding r = some n
  register : D.deref = none ∧ D.value = .register r n
  written : D.isRead = false ∧ D.isWritten = true
  read : S.isRead = true ∧ S.isWritten = false
  source : MovSource vm I n S
  known : ∀ P ∈ I.readSet, dyinstEncoding P.1 = some P.2

/-- A source in memory lies in one chunk of the bitmap. -/
def Operand.OneChunk (S : Operand) (vm : VMState) (I : Instruction) (n : Nat) : Prop :=
  S.deref.isSome = true → SYMemState.crossesChunk (S.address I vm.cpu) n = false

/-- A cell list and the word below it that show the bytes of an operand. -/
structure ListShows (vm : VMState) (I : Instruction) (S : Operand) (n : Nat)
    (cells : List (Segment Expr)) (v : BitVec 64) : Prop where
  form : ReadForm n cells
  bytes : ∀ k < n, ShadowByte.of (lookup Expr.byteAt cells k) (byteOf v.toNat k) = S.shadow vm I k

section Parse

variable {vm vm' : VMState} {I : Instruction} {D S : Operand} {r : MachRegister} {n : Nat}

/-- A register that has an encoding has one of the four sizes. -/
theorem isAccessSize_of_encoded (henc : dyinstEncoding r = some n) : isAccessSize n = true := by
  rcases (regIdxToAddrSize_of_encoded henc).2.2 with hn | hn | hn | hn <;> rw [hn] <;> rfl

/-- The source has the moved width. -/
theorem MovSource.size_eq (hS : MovSource vm I n S) : S.size = n := by
  cases hS with
  | register r hderef hval _ => exact Operand.size_register hderef hval
  | memory hderef _ _ _ => rw [Operand.size, hderef, Option.getD_some]

/-- That width is one of the four. -/
theorem MovSource.width (hS : MovSource vm I n S) : isAccessSize n = true := by
  cases hS with
  | register _ _ _ henc => exact isAccessSize_of_encoded henc
  | memory _ hr _ _ => exact hr.width

/-- So both operands have an accepted size. -/
theorem IsMov.width (hI : IsMov vm I D S r n) : ∀ O ∈ I.operands, isAccessSize O.size = true := by
  have hn := isAccessSize_of_encoded hI.encoded
  intro O hO
  rw [hI.operands, List.mem_pair] at hO
  rcases hO with rfl | rfl
  · rw [Operand.size_register hI.register.1 hI.register.2]
    exact hn
  · rw [hI.source.size_eq]
    exact hn

/-- What the parser finds out about a symbolic source shows its bytes. -/
theorem Parsed.listShows (h : VMShape vm) (hS : MovSource vm I n S) (hread : S.isRead = true)
    (hsym : vm.isSymOprnd I S = true) {oi : OprndInfo} (hp : Parsed vm I S true oi) :
    oi.symb = true ∧ ∃ cells v, oi.getSymList = some (cells, v) ∧ ListShows vm I S n cells v := by
  have hsize := hS.size_eq
  have hsymb : oi.symb = true := (hp.symb_eq hread).trans hsym
  refine ⟨hsymb, ?_⟩
  -- By the way the operand was parsed: only the two forms with a list are symbolic.
  cases hp with
  | imm | regCon | memCon | memWritten => exact absurd hsymb Bool.false_ne_true
  | regWritten _ _ _ _ hnot => exact absurd (hread.symm.trans hnot) Bool.false_ne_true.symm
  | regList s m hderef _ hval henc hsy =>
    obtain rfl : m = n := (Operand.size_register hderef hval).symm.trans hsize
    have hword := h.cpu.word s.offt
    refine ⟨_, _, rfl, ReadForm.window hword.repr.sorted (hword.covered_of_isSYReg henc hsy), ?_⟩
    -- The cells of the window show what the register shows.
    intro k hk
    rw [SYCPUState.i64_valueRead]
    have henc : dyinstEncoding s = some m := henc
    exact (shadow_regWindow h henc hsy true hk).trans (by rw [Operand.shadow, hderef, hval])
  | memList accs _ hderef _ hr hsy =>
    rw [hsize] at hr hsy
    obtain ⟨m, hm⟩ := Option.isSome_iff_exists.1 hderef
    have hcpu : vm.mem.isSYMemoryCell (memRead (S.address I vm.cpu) n true).addr
        (memRead (S.address I vm.cpu) n true).size = true := hsy
    refine ⟨_, _, rfl, ?_, ?_⟩
    · rw [hsize]
      exact ReadForm.window h.mem.repr.sorted (h.mem.covered_of_test hr hsy)
    · intro k hk
      rw [hsize, SYMemState.valueRead, hcpu]
      exact (shadow_memWindow hr hk).trans (by rw [Operand.shadow, hm])

/-- The parse of a register that is written, before a list is written to it. -/
theorem IsMov.parse_dest (hI : IsMov vm I D S r n) (vm₁ : VMState) :
    vm₁.parseOperand true I D
      = some (⟨.reg r, .wr, n, vm₁.isSYReg r, false, 0, []⟩, vm₁) := by
  obtain ⟨hderef, hval⟩ := hI.register
  obtain ⟨hread, hwritten⟩ := hI.written
  rw [VMState.parseOperand, Operand.readsMemory, Operand.writesMemory, hderef]
  show vm₁.parseOperandXX D = _
  rw [VMState.parseOperandXX, hread, hwritten, hval, Operand.size_register hderef hval]
  simp only [Bool.false_eq_true, if_false, if_true, vm₁.isSYRegAt_of_encoding hI.encoded,
    Option.bind_eq_bind, Option.bind_some]
  rfl

/-- A register that is only written is parsed without a read. -/
theorem IsMov.exists_parse_dest (hI : IsMov vm I D S r n) (vm₁ : VMState) (b : Bool) :
    ∃ oi, vm₁.parseOperand b I D = some (oi, vm₁) := by
  obtain ⟨hderef, hval⟩ := hI.register
  obtain ⟨hread, hwritten⟩ := hI.written
  exact VMShape.exists_parseOperand_written vm₁ I hderef hval hI.encoded hread hwritten b

/-- Memory is parsed, as an expression or as a list; symbolic memory when it
lies in one chunk. -/
theorem MovSource.exists_parse_memory (h : VMShape vm) (hS : MovSource vm I n S)
    (hread : S.isRead = true) (hwritten : S.isWritten = false) (hsome : S.deref.isSome = true)
    (hone : vm.isSymOprnd I S = true → S.OneChunk vm I n) (b : Bool) :
    ∃ oi vm₁, vm.parseOperand b I S = some (oi, vm₁) := by
  have hsize := hS.size_eq
  -- A register is no memory operand.
  cases hS with
  | register s hderef hval henc => simp [hderef] at hsome
  | memory hderef hr haddr hcon =>
    obtain ⟨vm₁, haddr, h₁, hsame⟩ :=
      h.exists_memConaddr (haddr.imp_right fun hgs => ⟨rfl, hgs⟩) hcon
    -- A symbolic cell is read through its one chunk, a concrete one without the list.
    have hmem : ∃ W vm₂, vm₁.readMemory (memRead (S.address I vm.cpu) n b)
        = some (true, W, vm₂) := by
      rw [VMState.isSymOprnd, if_pos hsome, hsize, ← hsame.isSYMemoryCell] at hone
      cases hsy : vm₁.mem.isSYMemoryCell (S.address I vm.cpu) n with
      | true => exact h₁.exists_readMemory hr hsy (hone hsy hsome) b
      | false => exact VMShape.exists_readMemory_concrete hr hsy b
    obtain ⟨W, vm₂, hmem⟩ := hmem
    have hmem : asserted (vm₁.readMemory ⟨S.address I vm.cpu, n, false, b, 0, .null, []⟩)
        = some (W, vm₂) := asserted_eq_some.2 hmem
    rw [VMState.parseOperand, Operand.readsMemory, Operand.writesMemory, hsome, hread, hwritten]
    show ∃ oi vm₁, vm.parseOperandRX b I S = some (oi, vm₁)
    simp only [VMState.parseOperandRX, haddr, Option.bind_eq_bind, Option.bind_some,
      VMState.parseMemCell, hsize, hmem]
    split
    · split
      · exact ⟨_, _, rfl⟩
      · exact ⟨_, _, rfl⟩
    · exact ⟨_, _, rfl⟩

/-- A symbolic source is parsed when it lies in one chunk. -/
theorem IsMov.exists_parse_source (h : VMShape vm) (hI : IsMov vm I D S r n)
    (hone : S.OneChunk vm I n) (b : Bool) :
    ∃ oi vm₁, vm.parseOperand b I S = some (oi, vm₁) := by
  obtain ⟨hread, hwritten⟩ := hI.read
  cases hsome : S.deref.isSome with
  | true => exact hI.source.exists_parse_memory h hread hwritten hsome (fun _ => hone) b
  | false =>
    have hderef : S.deref = none := Option.isNone_iff_eq_none.1 (by simpa using hsome)
    cases hI.source with
    | memory hmem _ _ _ => simp [hmem] at hsome
    | register s _ hval henc =>
      exact h.exists_parseOperand_read I (.register s hderef hval henc) hderef hread b

/-- Symbolic memory that was parsed lies in one chunk. -/
theorem oneChunk_of_parse (h : VMShape vm) (haccess : S.isRead = true ∧ S.isWritten = false)
    (hderef : S.deref = some n)
    (hsym : vm.mem.isSYMemoryCell (S.address I vm.cpu) n = true) {b : Bool} {oi : OprndInfo}
    (hp : vm.parseOperand b I S = some (oi, vm')) :
    SYMemState.crossesChunk (S.address I vm.cpu) n = false := by
  have hsize : S.size = n := by rw [Operand.size, hderef, Option.getD_some]
  rw [VMState.parseOperand, Operand.readsMemory, Operand.writesMemory, hderef, haccess.1,
    haccess.2] at hp
  have hp : vm.parseOperandRX b I S = some (oi, vm') := hp
  obtain ⟨⟨addr, vm₁⟩, haddr, hcell⟩ := bind_some hp
  obtain ⟨-, hsame, rfl⟩ := h.memConaddr haddr
  obtain ⟨⟨W, vm₂⟩, hmem, -⟩ := bind_some hcell
  rw [hsize] at hmem
  rw [← hsame.isSYMemoryCell] at hsym
  exact crossesChunk_of_readMemory hsym (asserted_eq_some.1 hmem)

/-- A symbolic source in memory was read by the parser, so it lies in one chunk of 32 bytes.
Across a chunk the read fails and with it the parse. -/
theorem IsMov.oneChunk_of_parse (h : VMShape vm) (hI : IsMov vm I D S r n)
    (hsym : vm.isSymOprnd I S = true) {oi : OprndInfo}
    (hp : vm.parseOperand true I S = some (oi, vm')) : S.OneChunk vm I n := by
  intro hsome
  obtain ⟨m, hderef⟩ := Option.isSome_iff_exists.1 hsome
  have hsize : m = n := by
    rw [← hI.source.size_eq, Operand.size, hderef, Option.getD_some]
  rw [VMState.isSymOprnd, if_pos hsome, hI.source.size_eq] at hsym
  exact KRover.oneChunk_of_parse h hI.read (hsize ▸ hderef) hsym hp

/-- The source is one over the same cells. -/
theorem SameCells.movSource {vm₁ : VMState} (hsame : SameCells vm vm₁)
    (hS : MovSource vm I n S) : MovSource vm₁ I n S := by
  cases hS with
  | register s hderef hval henc => exact .register s hderef hval henc
  | memory hderef hr haddr hcon =>
    refine .memory hderef ?_ ?_ fun P hP => ?_
    · rw [hsame.address]
      exact hr
    · rw [hsame.gsBase]
      exact haddr
    · rw [hsame.isSYReg]
      exact hcon P hP

/-- So is the move. -/
theorem SameCells.isMov {vm₁ : VMState} (hsame : SameCells vm vm₁) (hI : IsMov vm I D S r n) :
    IsMov vm₁ I D S r n :=
  { hI with source := hsame.movSource hI.source }

/-- The address of the source is the same, hence its chunk. -/
theorem SameCells.oneChunk {vm₁ : VMState} (hsame : SameCells vm vm₁) :
    S.OneChunk vm₁ I n ↔ S.OneChunk vm I n := by
  rw [Operand.OneChunk, Operand.OneChunk, hsame.address]

/-! ## The move -/

/-- The write of a cell list and the word below it. -/
def listWrite (r : MachRegister) (n : Nat) (cells : List (Segment Expr)) (v : BitVec 64) :
    RegValue :=
  ⟨r, n, true, true, v, .null, cells⟩

/-- The operands of a move are parsed when the source lies in one chunk. -/
theorem IsMov.exists_parse (h : VMShape vm) (hI : IsMov vm I D S r n)
    (hone : S.OneChunk vm I n) (b : Bool) :
    ∃ vecOI vm₁, vm.parseOperands b I = some (vecOI, vm₁) := by
  obtain ⟨vm₁, hset, h₁, hsame⟩ := h.exists_setReadRegs hI.known
  have hI₁ := hsame.isMov hI
  obtain ⟨oi, hdest⟩ := hI₁.exists_parse_dest vm₁ b
  obtain ⟨oi', vm₂, hsource⟩ := hI₁.exists_parse_source h₁ (hsame.oneChunk.2 hone) b
  rw [VMState.parseOperands, hset, hI.operands]
  simp only [Option.bind_eq_bind, Option.bind_some, VMState.parseEach, hdest, hsource]
  exact ⟨_, _, rfl⟩

/-- A move whose operands are parsed writes cells that show the source. -/
theorem IsMov.processMov_eq (h : VMShape vm) (hI : IsMov vm I D S r n)
    (hsym : vm.isSymOprnd I S = true) {vecOI : List OprndInfo} {vm₁ : VMState}
    (hp : vm.parseOperands true I = some (vecOI, vm₁)) :
    S.OneChunk vm I n ∧ VMShape vm₁ ∧ SameCells vm vm₁ ∧
      ∃ cells v, ListShows vm I S n cells v ∧
        processMov vm I = asserted (vm₁.writeRegister (listWrite r n cells v)) := by
  -- The operands are parsed in turn: the flag registers, the destination, the source.
  obtain ⟨vm₀, hset, hrest⟩ := bind_some hp
  obtain ⟨h₀, hsame₀⟩ := h.setReadRegs hset
  have hI₀ := hsame₀.isMov hI
  have hsym₀ : vm₀.isSymOprnd I S = true := (hsame₀.isSymOprnd I S).trans hsym
  rw [hI.operands] at hrest
  simp only [VMState.parseEach, hI₀.parse_dest, Option.bind_eq_bind, Option.bind_some] at hrest
  obtain ⟨⟨ois, vm₂⟩, htail, hout⟩ := bind_some hrest
  obtain ⟨⟨oi, vm₃⟩, hsource, hnil⟩ := bind_some htail
  obtain ⟨rfl, rfl⟩ := Prod.mk.inj (Option.some.inj hnil)
  obtain ⟨rfl, rfl⟩ := Prod.mk.inj (Option.some.inj hout)
  obtain ⟨h₁, hsame, hparsed⟩ := h₀.parseOperand (hI.width S (by simp [hI.operands])) hsource
  obtain ⟨hsymb, cells, v, hlist, hshows⟩ :=
    (hsame₀.parsed hparsed).listShows h hI.source hI.read.1 hsym
  refine ⟨hsame₀.oneChunk.1 (hI₀.oneChunk_of_parse h₀ hsym₀ hsource), h₁, hsame₀.trans hsame,
    cells, v, hshows, ?_⟩
  rw [processMov, hp]
  simp only [Option.bind_eq_bind, Option.bind_some, List.getElem?_cons_zero,
    List.getElem?_cons_succ, hsymb, hlist, if_true]
  rfl

end Parse

/-- What the write of a cell list leaves. -/
structure ListWritten (vm vm' : VMState) (V : RegValue) : Prop where
  shape : VMShape vm'
  cells : vm'.cpu.regCells V.indx.offt = V.cellsAfter (vm.cpu.regCells V.indx.offt)
  bits : vm'.cpu.symBitmap V.indx.offt = V.bitmapAfter (vm.cpu.symBitmap V.indx.offt)
  words : vm'.cpu.ptRegs = vm.cpu.wordsAfter V
  others : ∀ i, i ≠ V.indx.offt → vm'.cpu.regCells i = vm.cpu.regCells i ∧
    vm'.cpu.symBitmap i = vm.cpu.symBitmap i
  bitmap : vm'.mem.bitmap = vm.mem.bitmap

/-- The write of a cell list. -/
theorem listWritten {vm vm₁ : VMState} (h : VMShape vm₁) (hsame : SameCells vm vm₁) {V : RegValue}
    (hV : V.Writable) :
    ∃ vm', asserted (vm₁.writeRegister V) = some vm' ∧ ListWritten vm vm' V := by
  obtain ⟨m, hst, -, hsegs⟩ := (h.cpu.word V.indx.offt).write hV
  have hcpu := h.cpu.writeRegister hV hst
  -- The state after the write, given field by field.
  let cpu : SYCPUState :=
    { ptRegs := vm₁.cpu.wordsAfter V
      symBitmap := Function.update vm₁.cpu.symBitmap V.indx.offt
        (V.bitmapAfter (vm₁.cpu.symBitmap V.indx.offt))
      symList := Function.update vm₁.cpu.symList V.indx.offt m
      bsymFlag := vm₁.cpu.bsymFlag }
  have hwrite : vm₁.writeRegister V = some (true, { vm₁ with cpu := cpu }) := by
    rw [VMState.writeRegister, hst]
    rfl
  refine ⟨{ vm₁ with cpu := cpu }, asserted_eq_some.2 hwrite, ⟨h.mem, hcpu⟩, ?_, ?_, ?_, ?_,
    hsame.bitmap⟩
  · have hlist : cpu.symList V.indx.offt = m := Function.update_self _ _ _
    rw [← hsame.regCells, ← hsegs]
    show (cpu.symList V.indx.offt).segs (cpu.symList V.indx.offt).liveCells = _
    rw [hlist]
  · rw [← hsame.symBitmap]
    exact Function.update_self _ _ _
  · show vm₁.cpu.wordsAfter V = vm.cpu.wordsAfter V
    rw [SYCPUState.wordsAfter, SYCPUState.wordsAfter, SYCPUState.writeConcreteValue,
      SYCPUState.writeConcreteValue, SYCPUState.setWord, SYCPUState.setWord, hsame.ptRegs]
  · intro i hi
    have hlist : cpu.symList i = vm₁.cpu.symList i := Function.update_of_ne hi _ _
    have hbits : cpu.symBitmap i = vm₁.cpu.symBitmap i := Function.update_of_ne hi _ _
    rw [← hsame.regCells, ← hsame.symBitmap]
    refine ⟨?_, hbits⟩
    show (cpu.symList i).segs (cpu.symList i).liveCells = _
    rw [hlist]
    rfl

section Result

variable {vm vm' : VMState} {I : Instruction} {D S : Operand} {r : MachRegister} {n : Nat}
  {cells : List (Segment Expr)} {v : BitVec 64}

/-- The concrete bytes of a register of more than one byte after a write. -/
theorem byteOf_wordsAfter (cpu : SYCPUState) (henc : dyinstEncoding r = some n) (hn : n ≠ 1)
    {k : Nat} (hk : k < n) :
    byteOf (cpu.wordsAfter (listWrite r n cells v) r.offt).toNat k = byteOf v.toNat k := by
  have hsize := (regIdxToAddrSize_of_encoded henc).2.2
  have hword : cpu.wordsAfter (listWrite r n cells v) r.offt
      = assignLow (8 * n) (cpu.ptRegs r.offt) v := by
    rw [SYCPUState.wordsAfter, SYCPUState.writeConcreteValue]
    show Function.update _ _ (if n = 1 then _ else _) _ = _
    rw [if_neg hn]
    exact Function.update_self _ _ _
  rw [hword, ← byteOf_setWidth _ hk, setWidth_assignLow (by omega), byteOf_setWidth _ hk]

/-- A byte of the register after the write: one of the list between its first
and its last cell, and an old one outside of that. -/
theorem ListWritten.regShadow_eq (hw : ListWritten vm vm' (listWrite r n cells v))
    (henc : dyinstEncoding r = some n) (hform : ReadForm n cells) {k : Nat} (hk : k < n) :
    vm'.regShadow r.offt k
      = .of (if start cells ≤ k ∧ (k : Int) < finish cells then lookup Expr.byteAt cells k
          else lookup Expr.byteAt (vm.cpu.regCells r.offt) k) (byteOf v.toNat k) := by
  have hcells : vm'.cpu.regCells r.offt
      = splice cutExpr (start cells) (finish cells) cells (vm.cpu.regCells r.offt) := hw.cells
  have hlt := hform.sorted.start_lt_finish hform.ne
  rw [VMState.regShadow, hcells, lookup_splice (cutLaw_byteAt _) (le_of_lt hlt) hform.sorted.within]
  by_cases hn : n = 1
  · -- a list inside one byte covers it
    obtain ⟨hs, hf⟩ := start_finish_inside hform.ne hform.inside
    have hk0 : start cells = k ∧ finish cells = k + 1 := by omega
    have hcov := (hform.sorted.covered_ends hform.ne).1
    rw [hk0.1, ← lookup_isSome Expr.byteAt] at hcov
    obtain ⟨x, hx⟩ := Option.isSome_iff_exists.1 hcov
    rw [if_pos (by omega), hx]
    rfl
  · rw [hw.words]
    exact congrArg (ShadowByte.of _) (byteOf_wordsAfter vm.cpu henc hn hk)

/-- No byte outside of the list is symbolic in the source. -/
theorem ListShows.isSymbolic_iff (hshows : ListShows vm I S n cells v) {k : Nat} (hk : k < n) :
    (S.shadow vm I k).isSymbolic = true ↔ Covered cells k := by
  rw [← hshows.bytes k hk, ShadowByte.isSymbolic_of, lookup_isSome]

end Result

/-- Byte by byte the bitmaps say what the symbol lists cover. -/
def SYCPUState.Agrees (st : SYCPUState) : Prop :=
  ∀ i (k : Nat), k < 8 → ((st.symBitmap i).getLsbD k = true ↔ Covered (st.regCells i) k)

/-- The destination reads as the source, as a list and as an expression, and the
bitmap of its word says which bytes the cells cover. -/
structure MovCorrect (vm vm' : VMState) (I : Instruction) (S : Operand) (r : MachRegister)
    (n : Nat) : Prop where
  list : ∃ W vm₂, vm'.readRegister (regRead r n true) = some (true, W, vm₂) ∧
    ∀ k < n, W.listByte k = S.shadow vm I k
  expr : ∃ W vm₂, vm'.readRegister (regRead r n false) = some (true, W, vm₂) ∧
    ∀ k < n, ExprShows W.expr k (S.shadow vm I k)
  bitmap : ∀ k < 8, (vm'.cpu.symBitmap r.offt).getLsbD k = true ↔
    Covered (vm'.cpu.regCells r.offt) k

/-- A source in memory lies in one chunk, and no symbolic byte of the destination
lies before the first or behind the last symbolic byte of the source. -/
structure MovFits (vm : VMState) (I : Instruction) (S : Operand) (r : MachRegister) (n : Nat) :
    Prop where
  chunk : S.OneChunk vm I n
  between : ∀ k < n, (vm.regShadow r.offt k).isSymbolic = true →
    (∃ j ≤ k, (S.shadow vm I j).isSymbolic = true) ∧
      ∃ j < n, k ≤ j ∧ (S.shadow vm I j).isSymbolic = true

section Correct

variable {vm vm' : VMState} {I : Instruction} {D S : Operand} {r : MachRegister} {n : Nat}
  {cells : List (Segment Expr)} {v : BitVec 64}

/-- No old cell of the destination lies outside of the range of the list. -/
theorem ListShows.between_iff (hshows : ListShows vm I S n cells v) {k : Nat} :
    ((∃ j ≤ k, (S.shadow vm I j).isSymbolic = true) ∧
      ∃ j < n, k ≤ j ∧ (S.shadow vm I j).isSymbolic = true) ↔
    start cells ≤ k ∧ (k : Int) < finish cells := by
  have hsorted := hshows.form.sorted
  obtain ⟨hlow, hhigh⟩ := start_finish_inside hshows.form.ne hshows.form.inside
  constructor
  · intro ⟨⟨j, hj, hsym⟩, i, hi, hki, hsym'⟩
    obtain ⟨x, hx, hx1, -⟩ := (hshows.isSymbolic_iff (by omega)).1 hsym
    obtain ⟨y, hy, -, hy2⟩ := (hshows.isSymbolic_iff hi).1 hsym'
    have hxs := (hsorted.within x hx).1
    have hys := (hsorted.within y hy).2
    omega
  · intro ⟨hk1, hk2⟩
    obtain ⟨hfirst, hlast⟩ := hsorted.covered_ends hshows.form.ne
    obtain ⟨j, hj⟩ : ∃ j : Nat, start cells = j := ⟨(start cells).toNat, by omega⟩
    obtain ⟨i, hi⟩ : ∃ i : Nat, finish cells - 1 = i := ⟨(finish cells - 1).toNat, by omega⟩
    rw [hj] at hfirst
    rw [hi] at hlast
    exact ⟨⟨j, by omega, (hshows.isSymbolic_iff (by omega)).2 hfirst⟩,
      i, by omega, by omega, (hshows.isSymbolic_iff (by omega)).2 hlast⟩

/-- The destination shows the source when the list reaches over every old cell. -/
theorem ListWritten.regShadow_source (hw : ListWritten vm vm' (listWrite r n cells v))
    (henc : dyinstEncoding r = some n) (hshows : ListShows vm I S n cells v) {k : Nat} (hk : k < n)
    (hold : (vm.regShadow r.offt k).isSymbolic = true →
      start cells ≤ k ∧ (k : Int) < finish cells) :
    vm'.regShadow r.offt k = S.shadow vm I k := by
  rw [hw.regShadow_eq henc hshows.form hk, ← hshows.bytes k hk]
  split
  · rfl
  · rename_i hout
    have hnone : lookup Expr.byteAt (vm.cpu.regCells r.offt) k = none := by
      rw [← Option.not_isSome_iff_eq_none, ← ShadowByte.isSymbolic_of]
      exact fun hsym => hout (hold hsym)
    have hnone' : lookup Expr.byteAt cells k = none :=
      lookup_of_outside hshows.form.sorted.within (by omega)
    rw [hnone, hnone']

/-- A register that shows the source reads as it. -/
theorem movCorrect_of_regShadow (h : VMShape vm') (henc : dyinstEncoding r = some n)
    (hsym : vm'.isSYReg r = true) (hbytes : ∀ k < n, vm'.regShadow r.offt k = S.shadow vm I k)
    (hbits : ∀ k < 8, (vm'.cpu.symBitmap r.offt).getLsbD k = true ↔
      Covered (vm'.cpu.regCells r.offt) k) : MovCorrect vm vm' I S r n := by
  obtain ⟨vm₁, hlist, -, -⟩ := h.exists_readRegister henc true
  obtain ⟨vm₂, hexpr, -, -⟩ := h.exists_readRegister henc false
  refine ⟨⟨_, vm₁, hlist, fun k hk => ?_⟩, ⟨_, vm₂, hexpr, fun k hk => ?_⟩, hbits⟩
  · rw [listByte_valueRead h henc hsym hk, hbytes k hk]
  · rw [← hbytes k hk]
    exact exprShows_of_lit (lit_valueRead h henc hsym hk)

/-- The register is symbolic after the write. -/
theorem ListWritten.isSYReg (hw : ListWritten vm vm' (listWrite r n cells v))
    (hV : (listWrite r n cells v).Writable) : vm'.isSYReg r = true := by
  have hform : ReadForm n cells := hV.form rfl rfl
  have henc : dyinstEncoding r = some n := hV.encoded
  obtain ⟨-, hmask, hsize⟩ := regIdxToAddrSize_of_encoded henc
  obtain ⟨hlow, hhigh⟩ := start_finish_inside hform.ne hform.inside
  have hlt := hform.sorted.start_lt_finish hform.ne
  have hfirst := (hform.sorted.covered_ends hform.ne).1
  obtain ⟨j, hj⟩ : ∃ j : Nat, start cells = j := ⟨(start cells).toNat, by omega⟩
  rw [hj] at hfirst
  have hbits : vm'.cpu.symBitmap r.offt
      = (listWrite r n cells v).bitmapAfter (vm.cpu.symBitmap r.offt) := hw.bits
  have hbit : (vm'.cpu.symBitmap r.offt).getLsbD j = true := by
    rw [hbits, RegShadow.getLsbD_bitmapAfter hV]
    exact Or.inl hfirst
  rw [VMState.isSYReg, SYCPUState.isSYReg, hmask, bne_iff_ne]
  exact (BitRange.and_mask_ne_zero_iff (by omega) _).2 ⟨j, by omega, hbit⟩

/-- The bitmap and the cells agree after the write when the list reaches over
every old cell. -/
theorem ListWritten.bitmap_iff (hw : ListWritten vm vm' (listWrite r n cells v))
    (hV : (listWrite r n cells v).Writable) {k : Nat}
    (hagree : (vm.cpu.symBitmap r.offt).getLsbD k = true ↔ Covered (vm.cpu.regCells r.offt) k)
    (hold : k < n → Covered (vm.cpu.regCells r.offt) k →
      start cells ≤ k ∧ (k : Int) < finish cells) :
    (vm'.cpu.symBitmap r.offt).getLsbD k = true ↔ Covered (vm'.cpu.regCells r.offt) k := by
  have hform : ReadForm n cells := hV.form rfl rfl
  obtain ⟨hlow, hhigh⟩ := start_finish_inside hform.ne hform.inside
  have hbits : vm'.cpu.symBitmap r.offt
      = (listWrite r n cells v).bitmapAfter (vm.cpu.symBitmap r.offt) := hw.bits
  have hcells : vm'.cpu.regCells r.offt
      = (listWrite r n cells v).cellsAfter (vm.cpu.regCells r.offt) := hw.cells
  rw [hbits, hcells, RegShadow.getLsbD_bitmapAfter hV, hV.covered_after]
  show Covered cells k ∨ (¬ (k < n) ∧ _) ↔
    if start cells ≤ k ∧ (k : Int) < finish cells then Covered cells k else _
  split
  · exact or_iff_left fun hout => by omega
  · rename_i hout
    have hnone : ¬ Covered cells k := by
      rintro ⟨x, hx, hx1, hx2⟩
      have hin := hform.sorted.within x hx
      omega
    rw [or_iff_right hnone, hagree]
    exact and_iff_right_of_imp fun hcov hk => hout (hold hk hcov)

/-- A move after which the destination reads as the source met the condition. -/
theorem IsMov.fits (h : VMShape vm) (hI : IsMov vm I D S r n) (hsym : vm.isSymOprnd I S = true)
    (hmov : processMov vm I = some vm') (hcorrect : MovCorrect vm vm' I S r n) :
    MovFits vm I S r n := by
  obtain ⟨⟨vecOI, vm₁⟩, hp, -⟩ := bind_some hmov
  obtain ⟨hone, h₁, hsame, cells, v, hshows, heq⟩ := hI.processMov_eq h hsym hp
  have hV : (listWrite r n cells v).Writable := ⟨hI.encoded, fun _ _ => hshows.form⟩
  obtain ⟨vm₂, hwrite, hw⟩ := listWritten h₁ hsame hV
  obtain rfl := Option.some.inj (hmov.symm.trans (heq.trans hwrite))
  refine ⟨hone, fun k hk hold => hshows.between_iff.2 ?_⟩
  -- an old cell outside of the list would still be read
  obtain ⟨W, vm₃, hread, hbytes⟩ := hcorrect.list
  obtain ⟨vm₄, hread', -, -⟩ := hw.shape.exists_readRegister hI.encoded true
  obtain ⟨rfl, -⟩ := Prod.mk.inj (Prod.mk.inj (Option.some.inj (hread.symm.trans hread'))).2
  have hbyte := hbytes k hk
  rw [listByte_valueRead hw.shape hI.encoded (hw.isSYReg hV) hk,
    hw.regShadow_eq hI.encoded hshows.form hk] at hbyte
  by_contra hout
  rw [if_neg hout] at hbyte
  have hsource : (S.shadow vm I k).isSymbolic = true := by
    rw [← hbyte, ShadowByte.isSymbolic_of, ← hold, VMState.regShadow, ShadowByte.isSymbolic_of]
  obtain ⟨x, hx, hx1, hx2⟩ := (hshows.isSymbolic_iff hk).1 hsource
  have hin := hshows.form.sorted.within x hx
  omega

/-- A move of a source in one chunk returns. -/
theorem IsMov.exists_processMov (h : VMShape vm) (hI : IsMov vm I D S r n)
    (hsym : vm.isSymOprnd I S = true) (hone : S.OneChunk vm I n) :
    ∃ cells v vm', ListShows vm I S n cells v ∧ processMov vm I = some vm' ∧
      ListWritten vm vm' (listWrite r n cells v) := by
  obtain ⟨vecOI, vm₁, hp⟩ := hI.exists_parse h hone true
  obtain ⟨-, h₁, hsame, cells, v, hshows, heq⟩ := hI.processMov_eq h hsym hp
  obtain ⟨vm', hwrite, hw⟩ := listWritten (V := listWrite r n cells v) h₁ hsame
    ⟨hI.encoded, fun _ _ => hshows.form⟩
  exact ⟨cells, v, vm', hshows, heq.trans hwrite, hw⟩

/-- So does the executor, which parses the operands once more. -/
theorem IsMov.exists_exec (h : VMShape vm) (hI : IsMov vm I D S r n) (hid : I.id = .mov)
    (hsym : vm.isSymOprnd I S = true) (hone : S.OneChunk vm I n) :
    ∃ vm₁ vm' cells v, SameCells vm vm₁ ∧ ReadForm n cells ∧ exec vm I = some vm' ∧
      ListWritten vm₁ vm' (listWrite r n cells v) := by
  obtain ⟨vecOI, vm₁, hp⟩ := hI.exists_parse h hone false
  obtain ⟨h₁, hsame, -⟩ := h.parseOperands hI.width hp
  have hsym₁ : vm₁.isSymOprnd I S = true := (hsame.isSymOprnd I S).trans hsym
  obtain ⟨cells, v, vm', hshows, hmov, hw⟩ :=
    (hsame.isMov hI).exists_processMov h₁ hsym₁ (hsame.oneChunk.2 hone)
  refine ⟨vm₁, vm', cells, v, hsame, hshows.form, ?_, hw⟩
  rw [exec, hp]
  show process I vm₁ vecOI = some vm'
  rw [process, hid]
  exact hmov

/-- A move from an operand with a symbolic byte to a register of the same width leaves the
destination with the bytes of the source exactly when a source in memory lies in one chunk
and no symbolic byte of the destination lies before the first or behind the last symbolic
byte of the source. The cells of the source are merged over the range from the first to the
last of them, and a cell of the destination outside of that range stays. -/
theorem movCorrect_iff (h : VMShape vm) (hregs : vm.cpu.Agrees) (hI : IsMov vm I D S r n)
    (hsym : vm.isSymOprnd I S = true) :
    (∃ vm', processMov vm I = some vm' ∧ MovCorrect vm vm' I S r n) ↔ MovFits vm I S r n := by
  constructor
  · intro ⟨vm', hmov, hcorrect⟩
    exact hI.fits h hsym hmov hcorrect
  · intro ⟨hone, hbetween⟩
    obtain ⟨cells, v, vm', hshows, hmov, hw⟩ := hI.exists_processMov h hsym hone
    have hV : (listWrite r n cells v).Writable := ⟨hI.encoded, fun _ _ => hshows.form⟩
    have hold : ∀ k < n, (vm.regShadow r.offt k).isSymbolic = true →
        start cells ≤ k ∧ (k : Int) < finish cells :=
      fun k hk hk' => hshows.between_iff.1 (hbetween k hk hk')
    refine ⟨vm', hmov, ?_⟩
    refine movCorrect_of_regShadow hw.shape hI.encoded (hw.isSYReg hV)
      (fun k hk => hw.regShadow_source hI.encoded hshows hk (hold k hk)) fun k hk => ?_
    refine hw.bitmap_iff hV (hregs _ k hk) fun hkn hcov => hold k hkn ?_
    rw [VMState.regShadow, ShadowByte.isSymbolic_of, lookup_isSome]
    exact hcov

end Correct

/-! ## Two layouts -/

/-- A symbol of so many bytes. -/
def symbolOf (size : Nat) : Expr :=
  Expr.udefExpr (some ⟨0, "S", 4096, size, false, true, 1⟩)

/-- `rax` with a symbol in its low byte. -/
def raxCells : List (Segment Expr) := [⟨0, 1, symbolOf 1⟩]

/-- The destination of `mov rax, rbx`. -/
def movDest : Operand := ⟨.register ⟨.rax, .full⟩ 8, none, false, true⟩

/-- Its source. -/
def movSource : Operand := ⟨.register ⟨.rbx, .full⟩ 8, none, true, false⟩

/-- `mov rax, rbx`. -/
def movRaxRbx : Instruction := ⟨.mov, [movDest, movSource], []⟩

/-- `mov rax, rbx` is a move of eight bytes, from any state. -/
theorem isMov_movRaxRbx (vm : VMState) :
    IsMov vm movRaxRbx movDest movSource ⟨.rax, .full⟩ 8 where
  operands := rfl
  encoded := rfl
  register := ⟨rfl, rfl⟩
  written := ⟨rfl, rfl⟩
  read := ⟨rfl, rfl⟩
  source := .register ⟨.rbx, .full⟩ rfl rfl rfl
  known := by decide

/-- A list written to a word without cells is what the word holds then. -/
theorem ListWritten.fresh {vm vm' : VMState} {r : MachRegister} {n : Nat}
    {cells : List (Segment Expr)} {v : BitVec 64}
    (hw : ListWritten vm vm' (listWrite r n cells v)) (hV : (listWrite r n cells v).Writable)
    (hregs : vm.cpu.Agrees) (hnil : vm.cpu.regCells r.offt = []) :
    vm'.cpu.Agrees ∧ vm'.cpu.regCells r.offt = cells := by
  constructor
  · intro i k hk
    by_cases hi : i = r.offt
    · subst hi
      refine hw.bitmap_iff hV (hregs _ k hk) fun _ hcov => ?_
      rw [hnil] at hcov
      exact absurd hcov (covered_nil _)
    · obtain ⟨hcells, hbits⟩ := hw.others i hi
      rw [hcells, hbits]
      exact hregs i k hk
  · have hcells : vm'.cpu.regCells r.offt
        = splice cutExpr (start cells) (finish cells) cells (vm.cpu.regCells r.offt) := hw.cells
    rw [hcells, hnil, splice, below, above]
    simp

/-- One cell inside the range is in the form that a read returns. -/
theorem readForm_singleton {x : Segment Expr} {n : Nat}
    (hx : 0 < x.size ∧ 0 ≤ x.addr ∧ x.stop ≤ n) : ReadForm n [x] where
  ne := by simp
  sorted := sorted_cons.2 ⟨hx.1, Sorted.nil, by simp⟩
  inside := by simpa using hx.2

/-- A machine with a symbol in `rbx` and one in the low byte of `rax`. -/
theorem exists_movState {x : Segment Expr} (hx : 0 < x.size ∧ 0 ≤ x.addr ∧ x.stop ≤ 8) :
    ∃ vm, VMShape vm ∧ vm.cpu.Agrees ∧ vm.isSYReg ⟨.rbx, .full⟩ = true ∧
      vm.cpu.regCells .rbx = [x] ∧ vm.cpu.regCells .rax = raxCells := by
  have h₀ := vmAgrees_new (fun _ => 0) fun _ => 0
  have hrbx : (listWrite ⟨.rbx, .full⟩ 8 [x] 0).Writable :=
    ⟨rfl, fun _ _ => readForm_singleton hx⟩
  have hrax : (listWrite ⟨.rax, .full⟩ 8 raxCells 0).Writable :=
    ⟨rfl, fun _ _ => readForm_singleton (by decide)⟩
  obtain ⟨vm₁, -, h₁⟩ := listWritten h₀.cells.shape (SameCells.refl _) hrbx
  obtain ⟨vm₂, -, h₂⟩ := listWritten h₁.shape (SameCells.refl _) hrax
  obtain ⟨hregs₁, hcells₁⟩ := h₁.fresh hrbx h₀.regs (regCells_new _ _)
  -- the second write leaves the first word as it is, and the other way round
  obtain ⟨hrax₁, -⟩ := h₁.others .rax PtIdx.noConfusion
  obtain ⟨hrbx₂, hbits₂⟩ := h₂.others .rbx PtIdx.noConfusion
  obtain ⟨hregs₂, hcells₂⟩ := h₂.fresh hrax hregs₁ (hrax₁.trans (regCells_new _ _))
  refine ⟨vm₂, h₂.shape, hregs₂, ?_, hrbx₂.trans hcells₁, hcells₂⟩
  have hsym : vm₁.isSYReg ⟨.rbx, .full⟩ = true := h₁.isSYReg hrbx
  rw [VMState.isSYReg, SYCPUState.isSYReg] at hsym ⊢
  rw [hbits₂]
  exact hsym

/-- Where `rbx` is symbolic throughout, the move copies it. The cells reach over the whole
destination. -/
theorem movCorrect_movRaxRbx : ∃ vm vm',
    vm.cpu.regCells .rbx = [⟨0, 8, symbolOf 8⟩] ∧ vm.cpu.regCells .rax = raxCells ∧
    processMov vm movRaxRbx = some vm' ∧ MovCorrect vm vm' movRaxRbx movSource ⟨.rax, .full⟩ 8 := by
  obtain ⟨vm, h, hregs, hsym, hrbx, hrax⟩ :=
    exists_movState (x := ⟨0, 8, symbolOf 8⟩) ⟨by decide, by decide, by decide⟩
  have hsym : vm.isSymOprnd movRaxRbx movSource = true := by
    show ([(⟨.rbx, .full⟩, 8)] : List (MachRegister × Nat)).any (fun P => vm.isSYReg P.1) = true
    simp [hsym]
  have hbyte : ∀ k < 8, (movSource.shadow vm movRaxRbx k).isSymbolic = true := by
    intro k hk
    show (vm.regShadow .rbx k).isSymbolic = true
    rw [VMState.regShadow, ShadowByte.isSymbolic_of, lookup_isSome, hrbx]
    exact (covered_cons _ _ _).2 (Or.inl ⟨by simp, by simp [Segment.stop]; omega⟩)
  obtain ⟨vm', hmov, hcorrect⟩ := (movCorrect_iff h hregs (isMov_movRaxRbx vm) hsym).2
    ⟨fun hsome => absurd hsome (by decide), fun k hk _ =>
      ⟨⟨k, le_refl k, hbyte k hk⟩, k, hk, le_refl k, hbyte k hk⟩⟩
  exact ⟨vm, vm', hrbx, hrax, hmov, hcorrect⟩

/-- Where only the high half of `rbx` is symbolic, the low byte of `rax` stays symbolic. The
cells of the source begin behind it. -/
theorem not_movCorrect_movRaxRbx : ∃ vm vm', VMShape vm ∧ vm.cpu.Agrees ∧
    vm.isSymOprnd movRaxRbx movSource = true ∧
    vm.cpu.regCells .rbx = [⟨4, 4, symbolOf 4⟩] ∧ vm.cpu.regCells .rax = raxCells ∧
    processMov vm movRaxRbx = some vm' ∧
    ¬ MovCorrect vm vm' movRaxRbx movSource ⟨.rax, .full⟩ 8 := by
  obtain ⟨vm, h, hregs, hsym, hrbx, hrax⟩ :=
    exists_movState (x := ⟨4, 4, symbolOf 4⟩) ⟨by decide, by decide, by decide⟩
  have hsym : vm.isSymOprnd movRaxRbx movSource = true := by
    show ([(⟨.rbx, .full⟩, 8)] : List (MachRegister × Nat)).any (fun P => vm.isSYReg P.1) = true
    simp [hsym]
  have hI := isMov_movRaxRbx vm
  have hone : movSource.OneChunk vm movRaxRbx 8 := fun hsome => absurd hsome (by decide)
  obtain ⟨cells, v, vm', -, hmov, -⟩ := hI.exists_processMov h hsym hone
  refine ⟨vm, vm', h, hregs, hsym, hrbx, hrax, hmov, fun hcorrect => ?_⟩
  -- If the move were right, the cells would lie in the one run that the condition asks for.
  have hfits := hI.fits h hsym hmov hcorrect
  have hlow : (vm.regShadow .rax 0).isSymbolic = true := by
    rw [VMState.regShadow, ShadowByte.isSymbolic_of, lookup_isSome, hrax]
    exact (covered_cons _ _ _).2 (Or.inl ⟨by decide, by decide⟩)
  obtain ⟨⟨j, hj, hbyte⟩, -⟩ := hfits.between 0 (by decide) hlow
  obtain rfl : j = 0 := by omega
  have hbyte : (vm.regShadow .rbx 0).isSymbolic = true := hbyte
  rw [VMState.regShadow, ShadowByte.isSymbolic_of, lookup_isSome, hrbx, covered_cons] at hbyte
  -- The one symbolic cell of `rbx` starts at byte 4, so byte 0 is none.
  rcases hbyte with ⟨hle, -⟩ | hnil
  · exact absurd hle (by decide)
  · exact covered_nil _ hnil

end KRover
