import KRover.Proofs.MatchExec
import KRover.Proofs.MovStep

/-! # Moves beside the machine

The executor parses the operands of a move once more, as lists of cells. A symbolic
source is put into the destination as a list over its word; a concrete one overwrites
a register that is symbolic.

* `Parsed.list_spec`: the list stands for the source;
* `Matches.move`: the engine goes on to stand for the machine.
-/

set_option autoImplicit false

namespace KRover

open Segments BvTerm Bytes SymbolListMap SymExecutor

/-! ## The source -/

section Source

variable {ρ : Valuation} {vm : VMState} {I : Instruction} {S : Operand} {w : Nat}

/-- The cells of a register, as a list read of it has them. -/
theorem lookup_byte_regWindow (h : VMAgrees vm) (r : MachRegister) {k : Nat} (hk : k < w) :
    lookup (Expr.byte ρ) (vm.cpu.regWindow (regRead r w true)) k
      = lookup (Expr.byte ρ) (vm.cpu.regCells r.offt) k := by
  rw [SYCPUState.regWindow, lookup_shift]
  show lookup (Expr.byte ρ) (window cutExpr 0 (0 + (w : Int)) (vm.cpu.regCells r.offt)) _ = _
  rw [lookup_window (cutLaw_byte (h.cells.regCells _)) (by omega), if_pos (by omega), Int.add_zero]

/-- Those of memory. -/
theorem lookup_byte_memWindow (h : VMAgrees vm) {addr : Nat} (hr : AccessRange addr w) {k : Nat}
    (hk : k < w) : lookup (Expr.byte ρ) (vm.mem.memWindow addr w) k
      = lookup (Expr.byte ρ) vm.mem.storedCells (toInt64 (addr + k)) := by
  rw [SYMemState.memWindow, lookup_shift, lookup_window (cutLaw_byte h.cells.memCells)
    (show toInt64 addr < toInt64 addr + (w : Nat) by omega), if_pos (by omega),
    hr.toInt64_add hk, Int.add_comm]

/-- The list of a symbolic source stands for its bytes, and lies over those with a
mark. -/
theorem Parsed.list_spec (h : VMAgrees vm) (hw : w ≠ 1) (hS : S.Form w) (hread : S.isRead = true)
    {oi : OprndInfo} (hp : Parsed vm I S true oi) (hsymb : oi.symb = true) :
    ∃ cells v, oi.getSymList = some (cells, v) ∧ ReadForm w cells ∧ CellsOk HasBytes cells ∧
      (∀ ρ, overlay ρ cells v w = S.bytes ρ vm I) ∧
      ∀ k < w, Covered cells k ↔ vm.Marked ((S.loc I vm.cpu).byte k) := by
  have hsize := hS.size_eq
  -- Of the forms of the parse two carry a list, that of a register and that of memory.
  cases hp with
  | imm | regCon | memCon | memWritten => exact absurd hsymb Bool.false_ne_true
  | regWritten _ _ _ _ hnot => exact absurd (hread.symm.trans hnot) Bool.false_ne_true.symm
  | regList r n hderef _ hval henc hsym =>
    obtain rfl : n = w := (Operand.size_register hderef hval).symm.trans hsize
    have hloc : S.loc I vm.cpu = .reg r := by rw [Operand.loc, hderef, hval]
    obtain ⟨hform, hcells⟩ := h.cells.regWindow exprLaw_hasBytes henc hsym
    replace henc : dyinstEncoding r = some n := henc
    have hn := (regIdxToAddrSize_of_encoded henc).2.2
    refine ⟨_, _, rfl, hform, hcells, fun ρ => ?_, fun k hk => ?_⟩
    · rw [Operand.bytes, hderef, hval, overlay, SYCPUState.i64_valueRead]
      refine List.map_congr_left fun k hk => ?_
      have hk : k < n := List.mem_range.1 hk
      rw [lookup_byte_regWindow h r hk]
      show _ = (lookup (Expr.byte ρ) (vm.cpu.regCells r.offt) k).getD _
      rw [← byteOf_readConcreteValue vm.cpu henc hw hk]
      rfl
    · rw [← lookup_isSome (Expr.byte fun _ _ => 0), lookup_byte_regWindow h r hk, lookup_isSome,
        hloc, Loc.byte_encoded henc]
      exact (h.regs r.offt k (by omega)).symm
  | memList accs _ hderef _ hr hsym =>
    rw [hsize] at hr hsym
    obtain ⟨n, hn⟩ := Option.isSome_iff_exists.1 hderef
    obtain rfl : n = w := by rw [← hsize, Operand.size, hn]; rfl
    have hloc : S.loc I vm.cpu = .mem (S.address I vm.cpu) := by rw [Operand.loc, hn]
    have hle := hr.le
    have hcell : vm.mem.isSYMemoryCell (memRead (S.address I vm.cpu) n true).addr
        (memRead (S.address I vm.cpu) n true).size = true := hsym
    obtain ⟨hform, hcells⟩ := h.cells.memWindow exprLaw_hasBytes hr hsym
    refine ⟨_, _, rfl, ?_⟩
    rw [hsize]
    refine ⟨hform, hcells, fun ρ => ?_, fun k hk => ?_⟩
    · rw [Operand.bytes, hn, overlay, SYMemState.valueRead, hcell]
      refine List.map_congr_left fun k hk => ?_
      have hk : k < n := List.mem_range.1 hk
      rw [lookup_byte_memWindow h hr hk]
      show _ = (lookup (Expr.byte ρ) vm.mem.storedCells (toInt64 _)).getD _
      rw [← byteOf_readConcrete vm.mem.concrete hr hk]
      rfl
    · rw [← lookup_isSome (Expr.byte fun _ _ => 0), lookup_byte_memWindow h hr hk, lookup_isSome,
        hloc]
      exact (h.mem _ (by omega)).symm

/-- A concrete source is parsed for a list as it is for an expression. -/
theorem Parsed.con_parsed (hread : S.isRead = true) {oi : OprndInfo}
    (hp : Parsed vm I S true oi) (hsymb : oi.symb = false) : Parsed vm I S false oi := by
  cases hp with
  | imm _ hderef _ hset => exact .imm false hderef hread hset
  | regCon _ r hderef _ hcon hr => exact .regCon false r hderef hread hcon hr
  | regList | memList => exact absurd hsymb Bool.false_ne_true.symm
  | regWritten _ _ _ _ hnot => exact absurd (hread.symm.trans hnot) Bool.false_ne_true.symm
  | memWritten _ hnot => exact absurd (hread.symm.trans hnot) Bool.false_ne_true.symm
  | memCon _ accs haccs hderef _ hr hcon =>
    -- the word is read in either way
    have hval : ∀ b, (vm.mem.valueRead (memRead (S.address I vm.cpu) S.size b)).i64
        = (readConcrete vm.mem.concrete (S.address I vm.cpu) S.size).getD 0 := by
      intro b
      have hcell : vm.mem.isSYMemoryCell (memRead (S.address I vm.cpu) S.size b).addr
          (memRead (S.address I vm.cpu) S.size b).size = false := hcon
      rw [SYMemState.valueRead, hcell]
      rfl
    have hparsed : Parsed vm I S false _ := .memCon false accs haccs hderef hread hr hcon
    rw [hval] at hparsed ⊢
    exact hparsed

end Source

/-! ## The destination -/

/-- The operand that is parsed for a place that is only written. -/
def Loc.written : Loc → OperandType
  | .reg r => .reg r
  | .mem addr => .memCell addr

/-- A move in the executor: the source is read and the destination only written,
those in memory are where the engine can find them, and one that is written lies
inside a line. A symbolic source has symbolic bytes on both sides of every byte of
the destination that is symbolic. -/
structure MoveFits (vm : VMState) (I : Instruction) (D S : Operand) (w : Nat) : Prop where
  pair : I.IsPair D S w
  written : D.isRead = false ∧ D.isWritten = true
  read : S.isRead = true
  addressed : ∀ O ∈ I.operands, O.deref.isSome = true → O.Addressed vm I
  line : D.deref.isSome = true → D.address I vm.cpu % 16 + w ≤ 16
  between : vm.isSymOprnd I S = true → ∀ k < w, vm.Marked ((D.loc I vm.cpu).byte k) →
    (∃ j ≤ k, vm.Marked ((S.loc I vm.cpu).byte j)) ∧
      ∃ j < w, k ≤ j ∧ vm.Marked ((S.loc I vm.cpu).byte j)

section Move

variable {ρ : Valuation} {vm vm₁ vm' : VMState} {m : Machine} {I : Instruction}
  {D S : Operand} {w : Nat}
  {processor : Instruction → MacReg → (Nat → BitVec 8) → MacReg × (Nat → BitVec 8)}
  {reads writes : Instruction → Machine → Set MacLoc}

/-- The location of an operand is the same. -/
theorem SameCells.loc (hsame : SameCells vm vm₁) (O : Operand) :
    O.loc I vm₁.cpu = O.loc I vm.cpu := by
  rw [Operand.loc, Operand.loc, hsame.address]

/-- So is whether the move fits. -/
theorem SameCells.moveFits (hsame : SameCells vm vm₁) (h : MoveFits vm I D S w) :
    MoveFits vm₁ I D S w where
  pair := h.pair
  written := h.written
  read := h.read
  addressed O hO hsome := hsame.addressed (h.addressed O hO hsome)
  line hsome := by
    rw [hsame.address]
    exact h.line hsome
  between hsym k hk := by
    have hmark : ∀ b, vm₁.Marked b ↔ vm.Marked b := by
      intro b
      cases b with
      | reg i k => rw [VMState.Marked, VMState.Marked, hsame.symBitmap]
      | mem a => rw [VMState.Marked, VMState.Marked, hsame.bitmap]
    rw [hsame.isSymOprnd] at hsym
    simp only [hsame.loc, hmark]
    exact h.between hsym k hk

/-- The parse of the destination. Only a register can be symbolic. -/
theorem parseOperand_written (h : VMShape vm) (hD : D.Place w) (hwidth : isAccessSize w = true)
    (hread : D.isRead = false) (hwritten : D.isWritten = true) {oi : OprndInfo}
    (hp : vm.parseOperand true I D = some (oi, vm')) :
    VMShape vm' ∧ SameCells vm vm' ∧ oi.opty = (D.loc I vm'.cpu).written ∧ oi.size = w ∧
      (oi.symb = true → D.deref = none) := by
  have hsize := hD.form.size_eq
  obtain ⟨h', hsame, hparsed⟩ := h.parseOperand (by rwa [hsize]) hp
  refine ⟨h', hsame, ?_⟩
  -- A register keeps its name and its mark, and memory its address.
  cases hD with
  | register r hderef hval henc =>
    rw [VMState.parseOperand, Operand.readsMemory, Operand.writesMemory, hderef] at hp
    have hp : vm.parseOperandXX D = some (oi, vm') := hp
    rw [VMState.parseOperandXX, hread, hwritten, hval, hsize] at hp
    obtain ⟨symb, -, hp⟩ := bind_some hp
    obtain ⟨rfl, -⟩ := Prod.mk.inj (Option.some.inj hp)
    refine ⟨?_, rfl, fun _ => hderef⟩
    rw [Operand.loc, hderef, hval]
    rfl
  | memory hderef =>
    rw [hsame.loc]
    cases hparsed with
    | imm _ hnone _ _ | regCon _ _ hnone _ _ _ | regList _ _ hnone _ _ _ _
    | regWritten _ _ _ hnone _ => simp [hderef] at hnone
    | memCon _ _ _ _ hnot _ _ | memList _ _ _ hnot _ _ => simp [hread] at hnot
    | memWritten _ _ =>
      refine ⟨?_, hsize, fun hsymb => absurd hsymb Bool.false_ne_true⟩
      rw [Operand.loc, hderef]
      rfl

/-- What the handler of a move does. -/
theorem exec_move (h : VMAgrees vm) (hI : I.IsPair D S w) (hid : I.id = .mov)
    (hwritten : D.isRead = false ∧ D.isWritten = true) (hexec : exec vm I = some vm') :
    ∃ (vm₁ : VMState) (o1 o2 : OprndInfo), VMShape vm₁ ∧ SameCells vm vm₁ ∧
      o1.opty = (D.loc I vm₁.cpu).written ∧ o1.size = w ∧ (o1.symb = true → D.deref = none) ∧
      Parsed vm₁ I S true o2 ∧
      if o2.symb then ∃ cells v, o2.getSymList = some (cells, v) ∧
        o1.setSymList vm₁ cells v = some vm'
      else o1.symb = true ∧ ∃ v, o2.getConValue = some v ∧ o1.setConValue vm₁ v = some vm' := by
  have hwidth : isAccessSize w = true := by
    rcases hI.width with rfl | rfl | rfl <;> rfl
  obtain ⟨vm₀, o, o', h₀, hsame₀, -, -, hproc⟩ := exec_pair h hI hexec
  rw [process, hid] at hproc
  have hproc : processMov vm₀ I = some vm' := hproc
  obtain ⟨vecOI, vm₃, oidst, oisrc, hparse, hdst, hsrc, hmoved⟩ := processMov_cases hproc
  -- the two operands
  obtain ⟨vm₁, hset, hrun⟩ := bind_some hparse
  obtain ⟨h₁, hsame₁⟩ := h₀.setReadRegs hset
  rw [hI.operands, VMState.parseEach] at hrun
  obtain ⟨⟨o1, vm₂⟩, hp1, hrun⟩ := bind_some hrun
  obtain ⟨⟨ois, vm₄⟩, hrun', hout⟩ := bind_some hrun
  obtain ⟨rfl, rfl⟩ := Prod.mk.inj (Option.some.inj hout)
  rw [VMState.parseEach] at hrun'
  obtain ⟨⟨o2, vm₅⟩, hp2, hrun'⟩ := bind_some hrun'
  obtain ⟨rfl, rfl⟩ := Prod.mk.inj (Option.some.inj hrun')
  obtain ⟨h₂, hsame₂, hopty, hsize, hsymb⟩ :=
    parseOperand_written h₁ hI.dest hwidth hwritten.1 hwritten.2 hp1
  obtain ⟨h₃, hsame₃, hparsed⟩ :=
    h₂.parseOperand (by rwa [hI.source.size_eq]) hp2
  refine ⟨vm₅, o1, o2, h₃, ((hsame₀.trans hsame₁).trans hsame₂).trans hsame₃, ?_, hsize, hsymb,
    hsame₃.symm.parsed hparsed, ?_⟩
  · rw [hsame₃.loc]
    exact hopty
  · obtain rfl := Option.some.inj hdst
    obtain rfl := Option.some.inj hsrc
    -- The handler copies the list of a symbolic source, and sets the word of a concrete one.
    cases hmoved with
    | list cells v hsym hlist hset =>
      rw [if_pos hsym]
      exact ⟨cells, v, hlist, hset⟩
    | value v hcon hsymd hval hset =>
      rw [hcon, if_neg Bool.false_ne_true]
      exact ⟨hsymd, v, hval, hset⟩

/-- The list of a symbolic source, put into the destination. -/
theorem setSymList_stored (h : VMAgrees vm) (hfits : MoveFits vm I D S w) {o1 o2 : OprndInfo}
    (hopty : o1.opty = (D.loc I vm.cpu).written) (hsize : o1.size = w)
    (hp2 : Parsed vm I S true o2) (hsymb : o2.symb = true) {cells : List (Segment Expr)}
    {v : BitVec 64} (hlist : o2.getSymList = some (cells, v))
    (hset : o1.setSymList vm cells v = some vm') :
    FlagsKept vm vm' ∧ ∀ ρ, Stored ρ vm vm' w (D.loc I vm.cpu) (S.bytes ρ vm I) := by
  have hpair := hfits.pair
  have hw : w ≠ 1 := by
    have hwidth := hpair.width
    omega
  obtain ⟨_, _, hlist', hform, hcells, hbytes, hcov⟩ :=
    hp2.list_spec h hw hpair.source hfits.read hsymb
  obtain ⟨rfl, rfl⟩ := Prod.mk.inj (Option.some.inj (hlist.symm.trans hlist'))
  -- a symbolic byte of the destination lies between the ends of the list
  have hold : ∀ k < w, vm.Marked ((D.loc I vm.cpu).byte k) →
      start cells ≤ k ∧ (k : Int) < finish cells := by
    intro k hk hmark
    obtain ⟨⟨j, hjk, hj⟩, i, hi, hki, hi'⟩ :=
      hfits.between ((hp2.symb_eq hfits.read).symm.trans hsymb) k hk hmark
    obtain ⟨x, hx, hx1, -⟩ := (hcov j (by omega)).2 hj
    obtain ⟨y, hy, -, hy2⟩ := (hcov i hi).2 hi'
    have hxs := (hform.sorted.within x hx).1
    have hys := (hform.sorted.within y hy).2
    omega
  cases hpair.dest with
  | register r hderef hval henc =>
    obtain rfl : w = 8 := hpair.whole hderef
    have hloc : D.loc I vm.cpu = .reg r := by rw [Operand.loc, hderef, hval]
    rw [hloc] at hopty hold ⊢
    rw [OprndInfo.setSymList, hopty] at hset
    simp only [Loc.written, OprndInfo.regIndex, hopty, hsize, Option.bind_eq_bind,
      Option.bind_some] at hset
    have hefl : r.offt ≠ .efl :=
      hpair.general D (by simp) (r, 8) (by rw [hval]; exact List.mem_cons_self)
    obtain ⟨vm₂, hwrite, hkept, hstored⟩ := exists_stored_register h
      (V := ⟨r, 8, true, true, v, .null, cells⟩) ⟨henc, fun _ _ => hform⟩ rfl hefl hcells
      fun k hk hout hcov' => hout (hold k hk (by
        rw [Loc.byte_encoded henc]
        exact (h.regs r.offt k hk).2 hcov'))
    obtain rfl := Option.some.inj (hset.symm.trans hwrite)
    refine ⟨hkept, fun ρ => ?_⟩
    rw [← hbytes]
    exact hstored ρ
  | memory hderef =>
    have hloc : D.loc I vm.cpu = .mem (D.address I vm.cpu) := by rw [Operand.loc, hderef]
    have hsome : D.deref.isSome = true := by
      rw [hderef]
      rfl
    have hrange := (hfits.addressed D (by simp [hpair.operands]) hsome).range
    rw [hpair.dest.form.size_eq] at hrange
    rw [hloc] at hopty hold ⊢
    rw [OprndInfo.setSymList, hopty] at hset
    simp only [Loc.written, hsize] at hset
    obtain ⟨vm₂, hwrite, hkept, hstored⟩ :=
      exists_stored_memoryList h hrange (hfits.line hsome) hform hcells v hold
    obtain rfl := Option.some.inj (hset.symm.trans hwrite)
    refine ⟨hkept, fun ρ => ?_⟩
    rw [← hbytes]
    exact hstored ρ

/-- A concrete source, put into a symbolic register. -/
theorem setConValue_stored (h : VMAgrees vm) (hfits : MoveFits vm I D S w) {o1 o2 : OprndInfo}
    (hopty : o1.opty = (D.loc I vm.cpu).written) (hsize : o1.size = w) (hderef : D.deref = none)
    (hp2 : Parsed vm I S true o2) (hcon : o2.symb = false) {v : BitVec 64}
    (hval : o2.getConValue = some v) (hset : o1.setConValue vm v = some vm') :
    FlagsKept vm vm' ∧ ∀ ρ, Stored ρ vm vm' w (D.loc I vm.cpu) (S.bytes ρ vm I) := by
  have hpair := hfits.pair
  obtain rfl : w = 8 := hpair.whole hderef
  have hp2' := hp2.con_parsed hfits.read hcon
  obtain ⟨_, hval', hbytes⟩ :=
    (HoldsBytes.of_parsed h (by decide) hpair.source hfits.read hp2').con hcon
  obtain rfl := Option.some.inj (hval.symm.trans hval')
  rw [hp2.size_eq, hpair.source.size_eq] at hbytes
  cases hpair.dest with
  | memory hsome => simp [hderef] at hsome
  | register r _ hreg henc =>
    have hloc : D.loc I vm.cpu = .reg r := by rw [Operand.loc, hderef, hreg]
    rw [hloc] at hopty ⊢
    rw [OprndInfo.setConValue, hopty] at hset
    simp only [Loc.written, OprndInfo.regIndex, hopty, hsize, Option.bind_eq_bind,
      Option.bind_some] at hset
    have hefl : r.offt ≠ .efl :=
      hpair.general D (by simp) (r, 8) (by rw [hreg]; exact List.mem_cons_self)
    let V : RegValue := ⟨r, 8, false, false, v, .null, []⟩
    obtain ⟨vm₂, hwrite, hkept, hstored⟩ := exists_stored_register h (V := V)
      ⟨henc, by simp [V]⟩ rfl hefl cellsOk_nil
      fun k hk hout => absurd hk (by simpa [V, RegValue.newRange] using hout)
    obtain rfl := Option.some.inj (hset.symm.trans hwrite)
    refine ⟨hkept, fun ρ => ?_⟩
    rw [← hbytes]
    exact hstored ρ

/-- A move. -/
theorem Matches.move (h : Matches ρ vm m) (hlaw : ProcessorLaw processor reads writes)
    (hfits : MoveFits vm I D S w) (hid : I.id = .mov) (hexec : exec vm I = some vm') :
    Matches ρ vm' (m.ran processor I) := by
  obtain ⟨vm₁, o1, o2, hshape, hsame, hopty, hsize, hreg, hp2, hset⟩ :=
    exec_move h.agrees hfits.pair hid hfits.written hexec
  -- from here on the engine is behind the parsers
  replace h := h.same hshape hsame
  replace hfits := hsame.moveFits hfits
  have hpair := hfits.pair
  have hstored : FlagsKept vm₁ vm' ∧
      ∀ ρ, Stored ρ vm₁ vm' w (D.loc I vm₁.cpu) (S.bytes ρ vm₁ I) := by
    cases hsymb : o2.symb with
    | true =>
      rw [hsymb, if_pos rfl] at hset
      obtain ⟨cells, v, hlist, hset⟩ := hset
      exact setSymList_stored h.agrees hfits hopty hsize hp2 hsymb hlist hset
    | false =>
      simp only [hsymb, Bool.false_eq_true, if_false] at hset
      obtain ⟨hsymb₁, v, hval, hset⟩ := hset
      exact setConValue_stored h.agrees hfits hopty hsize (hreg hsymb₁) hp2 hsymb hval hset
  obtain ⟨hkept, hstored⟩ := hstored
  have hops : D ∈ I.operands ∧ S ∈ I.operands := by
    rw [hpair.operands]
    exact ⟨by simp, by simp⟩
  have hbytes : S.bytes ρ vm₁ I = m.bytes I S :=
    h.operandBytes hpair.source (hfits.addressed S hops.2) (hpair.general S (by simp))
  obtain ⟨hleaves, hefl⟩ := hlaw.move I D S w m hpair (h.inRange hfits.addressed) hid
  rw [← h.loc hfits.addressed hops.1 hpair.dest, ← hbytes] at hleaves
  exact h.stored (hstored ρ) hleaves (hpair.away vm₁.cpu)
    (h.flags.congr hkept.efl hkept.bsymFlag (by rw [hkept.eflagsMgr]) hefl)

end Move

end KRover
