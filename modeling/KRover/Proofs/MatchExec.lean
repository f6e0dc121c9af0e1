import KRover.Proofs.StoredBytes
import KRover.Proofs.SymExecStep

/-! # Executed turns beside the machine

The executor goes through an instruction with two operands of one size. It builds
the expression of the two, puts it into the destination or keeps it for the flags,
and goes on to stand for a machine that has carried the instruction out.

* `operate_split`: the expression is that of the two operands;
* `Matches.binary`, `Matches.compare`: arithmetic and logic, and comparisons.
-/

set_option autoImplicit false

namespace KRover

open Segments BvTerm StatusFlags Bytes SymExecutor

/-! ## The expression for the flags -/

/-- The bits of `eflags` that belong to no status flag are never symbolic. -/
theorem FlagsMatch.eflags_bit {ρ : Valuation} {vm : VMState} {m : Machine}
    (h : FlagsMatch ρ vm m) {i : Nat} (hi : ∀ f ∈ changedFlags, f.bit ≠ i) :
    (vm.cpu.ptRegs .efl).getLsbD i = (m.regs .efl).getLsbD i := by
  cases h with
  | definite hdef heflags => rw [heflags]
  | pending k op e1 e2 x y hsym hk hlast h1 h2 hlen hpos hflags heflags => exact heflags i hi

/-- Only status flags are uncertain. -/
theorem FlagsMatch.mem_changedFlags {ρ : Valuation} {vm : VMState} {m : Machine}
    (h : FlagsMatch ρ vm m) {f : Flag} (hf : vm.cpu.bsymFlag f = true) : f ∈ changedFlags := by
  cases h with
  | definite hdef heflags =>
    rw [hdef] at hf
    exact absurd hf Bool.false_ne_true
  | pending k op e1 e2 x y hsym hk hlast h1 h2 hlen hpos hflags heflags =>
    rw [hsym, decide_eq_true_eq] at hf
    exact hf

/-- Saving an expression leaves every status flag uncertain and nothing else changed. -/
theorem save_eq (vm : VMState) {id : EntryID} (hid : isFlagChangingInstr id = true) (e : Expr) :
    ∃ vm', vm.saveFlagChangingInstructionExpr id e = (true, vm') ∧ SameBytes vm vm' ∧
      vm'.eflagsMgr.lastExpr = e ∧
      ∀ f, vm'.cpu.bsymFlag f = (decide (f ∈ changedFlags) || vm.cpu.bsymFlag f) := by
  have hsame := sameBytes_save vm id e
  rw [VMState.saveFlagChangingInstructionExpr, EFlagsManager.saveFlagChangingInstructionExpr,
    hid] at hsame ⊢
  refine ⟨_, rfl, hsame, rfl, fun f => ?_⟩
  cases f <;> simp [SYCPUState.setFlagBit, Function.update, changedFlags]

section Pair

variable {ρ : Valuation} {vm vm₁ vm' : VMState} {m m' : Machine} {I : Instruction}
  {D S : Operand} {w : Nat} {op : BinOp} {k : BinKind} {id : EntryID}

/-- The flags of an operation are pending when its expression is saved. -/
theorem FlagsMatch.save (h : FlagsMatch ρ vm m) (hk : k.op = some op) {e1 e2 : Expr}
    {x y : List (BitVec 8)} (h1 : e1.denote ρ = some x) (h2 : e2.denote ρ = some y)
    (hx : x.length = w) (hy : y.length = w) (hw : 0 < w) (hsame : SameBytes vm₁ vm')
    (hlast : vm'.eflagsMgr.lastExpr = Expr.binExpr k e1 e2)
    (hsym : ∀ f, vm'.cpu.bsymFlag f = (decide (f ∈ changedFlags) || vm₁.cpu.bsymFlag f))
    (hkept : FlagsKept vm vm₁)
    (hflags : m'.regs.flags = statusFlags op (bitsOf x w) (bitsOf y w))
    (hefl : ∀ i, (∀ f ∈ changedFlags, f.bit ≠ i) →
      (m'.regs .efl).getLsbD i = (m.regs .efl).getLsbD i) : FlagsMatch ρ vm' m' := by
  subst hx
  refine .pending k op e1 e2 x y (fun f => ?_) hk hlast h1 h2 hy.symm hw hflags fun i hi => ?_
  · rw [hsym, hkept.bsymFlag]
    by_cases hf : f ∈ changedFlags
    · simp [hf]
    · -- a flag outside of the list was certain before
      have hnot : vm.cpu.bsymFlag f = false := by
        rw [← Bool.not_eq_true]
        exact mt h.mem_changedFlags hf
      simp [hf, hnot]
  · rw [hsame.ptRegs, hkept.efl, hefl i hi, h.eflags_bit hi]

/-! ## The operands -/

/-- The expression that the handler builds is that of its operands. -/
theorem operate_split {o1 o2 : OprndInfo} (h1 : HoldsBytes vm I D o1) (h2 : HoldsBytes vm I S o2)
    {oe : Expr} (hoe : operate k o1 o2 o1.size o2.size = some oe) :
    ∃ e1 e2, oe = Expr.binExpr k e1 e2 ∧ (∀ ρ, e1.denote ρ = some (D.bytes ρ vm I)) ∧
      ∀ ρ, e2.denote ρ = some (S.bytes ρ vm I) := by
  -- A concrete operand enters the expression as a literal of its own size.
  have hlit : ∀ {O : Operand} {oi : OprndInfo} {v : BitVec 64},
      (∀ ρ, bytesOf v.toNat oi.size = O.bytes ρ vm I) →
      ∀ ρ, (Expr.constExpr v oi.size).denote ρ = some (O.bytes ρ vm I) := by
    intro O oi v hv ρ
    rw [← hv ρ]
    exact denote_constExpr v oi.size
  rw [operate] at hoe
  -- The four cases are the source's: both symbolic, one of them, none (which is refused).
  cases hs1 : o1.symb with
  | true =>
    obtain ⟨e1, he1, hd1⟩ := h1.sym hs1
    cases hs2 : o2.symb with
    | true =>
      obtain ⟨e2, he2, hd2⟩ := h2.sym hs2
      simp [hs1, hs2, he1, he2] at hoe
      exact ⟨e1, e2, hoe.symm, hd1, hd2⟩
    | false =>
      obtain ⟨v2, hv2, hd2⟩ := h2.con hs2
      simp [hs1, hs2, he1, hv2] at hoe
      exact ⟨e1, _, hoe.symm, hd1, hlit hd2⟩
  | false =>
    obtain ⟨v1, hv1, hd1⟩ := h1.con hs1
    cases hs2 : o2.symb with
    | true =>
      obtain ⟨e2, he2, hd2⟩ := h2.sym hs2
      simp [hs1, hs2, he2, hv1] at hoe
      exact ⟨_, e2, hoe.symm, hlit hd1, hd2⟩
    | false => simp [hs1, hs2] at hoe

/-- The executor parses the two operands and runs the handler. -/
theorem exec_pair (h : VMAgrees vm) (hI : I.IsPair D S w) (hexec : exec vm I = some vm') :
    ∃ vm₁ o1 o2, VMShape vm₁ ∧ SameCells vm vm₁ ∧ Parsed vm₁ I D false o1 ∧
      Parsed vm₁ I S false o2 ∧ process I vm₁ [o1, o2] = some vm' := by
  have hwidth : isAccessSize w = true := by
    rcases hI.width with rfl | rfl | rfl <;> rfl
  have hsizes : ∀ O ∈ I.operands, isAccessSize O.size = true := by
    intro O hO
    rw [hI.operands, List.mem_cons, List.mem_singleton] at hO
    rcases hO with rfl | rfl
    · rwa [hI.dest.form.size_eq]
    · rwa [hI.source.size_eq]
  obtain ⟨⟨vecOI, vm₁⟩, hparse, hproc⟩ := bind_some hexec
  obtain ⟨hshape, hsame, hall⟩ := h.cells.shape.parseOperands hsizes hparse
  rw [hI.operands] at hall
  obtain ⟨o1, rest, hp1, hrest, rfl⟩ := List.forall₂_cons_left_iff.1 hall
  obtain ⟨o2, rest, hp2, hnil, rfl⟩ := List.forall₂_cons_left_iff.1 hrest
  rw [List.forall₂_nil_left_iff.1 hnil] at hproc
  exact ⟨vm₁, o1, o2, hshape, hsame, hsame.symm.parsed hp1, hsame.symm.parsed hp2, hproc⟩

/-- Setting the destination stores the bytes of the expression. -/
theorem Parsed.exists_stored (h : VMAgrees vm) (hI : I.IsPair D S w) (hread : D.isRead = true)
    (hline : D.deref.isSome = true → D.address I vm.cpu % 16 + w ≤ 16) {oi : OprndInfo}
    (hp : Parsed vm I D false oi) {e : Expr} (he : HasBytes e w) :
    ∃ vm', oi.setSymValue vm e = some vm' ∧ FlagsKept vm vm' ∧
      ∀ ρ x, e.denote ρ = some x → Stored ρ vm vm' w (D.loc I vm.cpu) x := by
  -- A register takes one new cell over the whole word; a memory operand one over its range.
  cases hI.dest with
  | register r hderef hval henc =>
    obtain rfl : w = 8 := hI.whole hderef
    let V : RegValue := ⟨r, 8, true, false, 0, e, []⟩
    have hefl : r.offt ≠ .efl :=
      hI.general D (by simp) (r, 8) (by rw [hval]; exact List.mem_cons_self)
    obtain ⟨vm', hset, hkept, hstored⟩ := exists_stored_register h (V := V) ⟨henc, by simp [V]⟩ rfl
      hefl (cellsOk_singleton he) fun k hk hout =>
        absurd hk (by simpa [V, RegValue.newRange] using hout)
    have hloc : D.loc I vm.cpu = .reg r := by rw [Operand.loc, hderef, hval]
    rw [hp.setSymValue_register hderef hval hread, hloc]
    refine ⟨vm', hset, hkept, fun ρ x hx => (hstored ρ).congr fun k hk => ?_⟩
    -- the one new cell reaches over the word
    rw [getD_overlay _ _ _ hk]
    show (lookup (Expr.byte ρ) [⟨0, 8, e⟩] (k : Nat)).getD _ = _
    rw [lookup_singleton, if_pos (by
      show (0 : Int) ≤ k ∧ (k : Int) < 0 + (8 : Nat)
      omega), Option.getD_some]
    show e.byte ρ ((k : Int) - 0).toNat = _
    rw [Expr.byte, hx, Int.sub_zero, Int.toNat_natCast, Option.getD_some]
  | memory hderef =>
    obtain ⟨hr, hset⟩ := hp.setSymValue_memory hderef hread
    obtain ⟨vm', hwrite, hkept, hstored⟩ :=
      exists_stored_memory h hr (hline (by rw [hderef]; rfl)) he
    have hloc : D.loc I vm.cpu = .mem (D.address I vm.cpu) := by rw [Operand.loc, hderef]
    rw [hloc]
    exact ⟨vm', (hset e).trans hwrite, hkept, hstored⟩

/-- Where the destination lies in the engine it lies in the machine. -/
theorem Matches.loc (h : Matches ρ vm m)
    (haddr : ∀ O ∈ I.operands, O.deref.isSome = true → O.Addressed vm I) (hD : D ∈ I.operands)
    (hplace : D.Place w) : D.loc I vm.cpu = D.loc I m.cpu := by
  cases hplace with
  | register r hderef hval henc => rw [Operand.loc, Operand.loc, hderef, hval]
  | memory hderef =>
    have hO := haddr D hD (by rw [hderef]; rfl)
    rw [Operand.loc, Operand.loc, hderef, h.address hO]

/-- The operands lie in range on the machine as they do in the engine. -/
theorem Matches.inRange (h : Matches ρ vm m)
    (haddr : ∀ O ∈ I.operands, O.deref.isSome = true → O.Addressed vm I) :
    I.InRange m.cpu := by
  intro O hO hsome
  rw [← h.address (haddr O hO hsome)]
  exact (haddr O hO hsome).range

/-- A destination away from `rip` and `eflags`. -/
theorem Instruction.IsPair.away (hI : I.IsPair D S w) (cpu : SYCPUState) :
    ∀ i ∈ [PtIdx.rip, .efl], ∀ j, ∀ k < w, ByteLoc.reg i j ≠ (D.loc I cpu).byte k := by
  intro i hi j k hk
  cases hI.dest with
  | register r hderef hval henc =>
    have hr : (r, w) ∈ D.value.uses := by
      rw [hval]
      exact List.mem_cons_self
    have hrip := hI.ripKept hderef _ hr
    have hefl := hI.general D (by simp) _ hr
    rw [Operand.loc, hderef, hval, Loc.byte_encoded henc]
    rintro ⟨⟩
    simp at hi
    exact hi.elim hrip hefl
  | memory hderef =>
    rw [Operand.loc, hderef]
    exact fun heq => nomatch heq

end Pair

/-! ## The handlers -/

/-- The operands of an instruction in the executor: they are read, those in memory
are where the engine can find them, and one that is written lies inside a line. -/
structure ExecFits (vm : VMState) (I : Instruction) (D S : Operand) (w : Nat) : Prop where
  pair : I.IsPair D S w
  read : D.isRead = true ∧ S.isRead = true
  addressed : ∀ O ∈ I.operands, O.deref.isSome = true → O.Addressed vm I
  line : D.deref.isSome = true → D.address I vm.cpu % 16 + w ≤ 16

section Handlers

variable {ρ : Valuation} {vm vm₁ vm' : VMState} {m : Machine} {I : Instruction}
  {D S : Operand} {w : Nat} {op : BinOp} {k : BinKind}
  {processor : Instruction → MacReg → (Nat → BitVec 8) → MacReg × (Nat → BitVec 8)}
  {reads writes : Instruction → Machine → Set MacLoc}

/-- An address that is computed over some cells is computed over the same ones. -/
theorem SameCells.addressed (hsame : SameCells vm vm₁) {O : Operand} (hO : O.Addressed vm I) :
    O.Addressed vm₁ I where
  registers P hP := by
    obtain ⟨hfull, hsize, hefl, hcon⟩ := hO.registers P hP
    refine ⟨hfull, hsize, hefl, fun k hk => ?_⟩
    rw [VMState.Marked, hsame.symBitmap]
    exact hcon k hk
  gs k hk := by
    rw [VMState.Marked, hsame.symBitmap]
    exact hO.gs k hk
  range := by
    rw [hsame.address]
    exact hO.range

/-- Whether the executor fits depends on the cells. -/
theorem SameCells.execFits (hsame : SameCells vm vm₁) (h : ExecFits vm I D S w) :
    ExecFits vm₁ I D S w where
  pair := h.pair
  read := h.read
  addressed O hO hsome := hsame.addressed (h.addressed O hO hsome)
  line hsome := by
    rw [hsame.address]
    exact h.line hsome

namespace ExecFits

variable (hfits : ExecFits vm I D S w) (h : Matches ρ vm m)

include hfits

/-- Both operands belong to the instruction. -/
theorem mem_operands : D ∈ I.operands ∧ S ∈ I.operands := by
  rw [hfits.pair.operands]
  exact ⟨by simp, by simp⟩

include h

/-- The operands of the engine stand for those of the machine. -/
theorem bytes_eq : D.bytes ρ vm I = m.bytes I D ∧ S.bytes ρ vm I = m.bytes I S := by
  obtain ⟨hD, hS⟩ := hfits.mem_operands
  have hgeneral := hfits.pair.general
  exact ⟨h.operandBytes hfits.pair.dest.form (hfits.addressed D hD) (hgeneral D (by simp)),
    h.operandBytes hfits.pair.source (hfits.addressed S hS) (hgeneral S (by simp))⟩

/-- The bytes of the two operands, as the handlers find them. -/
theorem holdsBytes {o1 o2 : OprndInfo} (hp1 : Parsed vm I D false o1)
    (hp2 : Parsed vm I S false o2) : HoldsBytes vm I D o1 ∧ HoldsBytes vm I S o2 := by
  have hw : w ≠ 1 := by
    have hwidth := hfits.pair.width
    omega
  exact ⟨.of_parsed h.agrees hw hfits.pair.dest.form hfits.read.1 hp1,
    .of_parsed h.agrees hw hfits.pair.source hfits.read.2 hp2⟩

end ExecFits

/-- Arithmetic and logic. -/
theorem Matches.binary (h : Matches ρ vm m) (hlaw : ProcessorLaw processor reads writes)
    (hfits : ExecFits vm I D S w) (hop : binaryOp I.id = some op) (hexec : exec vm I = some vm') :
    Matches ρ vm' (m.ran processor I) := by
  obtain ⟨vm₁, o1, o2, hshape, hsame, hp1, hp2, hproc⟩ := exec_pair h.agrees hfits.pair hexec
  obtain ⟨k, hk, hid, heq⟩ := process_eq_binary hop
  -- from here on the engine is behind the parsers
  replace h := h.same hshape hsame
  replace hfits := hsame.execFits hfits
  have hpair := hfits.pair
  obtain ⟨h1, h2⟩ := hfits.holdsBytes h hp1 hp2
  obtain ⟨hbytesD, hbytesS⟩ := hfits.bytes_eq h
  rw [heq, processBinary] at hproc
  simp only [List.getElem?_cons_zero, List.getElem?_cons_succ, Option.bind_eq_bind,
    Option.bind_some] at hproc
  obtain ⟨oe, hoe, hrest⟩ := bind_some hproc
  obtain ⟨vm₂, hset, hsave⟩ := bind_some hrest
  obtain ⟨e1, e2, rfl, hd1, hd2⟩ := operate_split h1 h2 hoe
  have hlenD := fun ρ => hpair.dest.form.length_bytes ρ vm₁ I
  have hlenS := fun ρ => hpair.source.length_bytes ρ vm₁ I
  have hden := fun ρ => denote_binExpr hk (hd1 ρ) (hd2 ρ) ((hlenD ρ).trans (hlenS ρ).symm)
  have hpos : 0 < w := by
    have hwidth := hpair.width
    omega
  have hexpr : HasBytes (Expr.binExpr k e1 e2) w :=
    ⟨hpos, fun ρ => ⟨_, hden ρ, (length_binBytes _ _ _).trans (hlenD ρ)⟩⟩
  -- the write
  obtain ⟨vm₃, hset', hkept, hstored⟩ :=
    hp1.exists_stored h.agrees hpair hfits.read.1 hfits.line hexpr
  obtain rfl := Option.some.inj (hset.symm.trans hset')
  replace hstored := hstored ρ _ (hden ρ)
  obtain ⟨hleaves, hflags⟩ :=
    hlaw.binary I D S w op m hpair (h.inRange hfits.addressed) hop
  rw [← h.loc hfits.addressed (hfits.mem_operands).1 hpair.dest, ← hbytesD, ← hbytesS] at hleaves
  rw [← hbytesD, ← hbytesS] at hflags
  -- the flags
  obtain ⟨vm₄, hsaved, hsame₂, hlast, hsym⟩ := save_eq vm₂ hid (Expr.binExpr k e1 e2)
  rw [hsaved, asserted_eq_some] at hsave
  obtain rfl := (Prod.mk.inj (Option.some.inj hsave)).2
  have hmatch := h.flags.save hk (hd1 ρ) (hd2 ρ) (hlenD ρ) (hlenS ρ) hpos hsame₂ hlast hsym
    hkept hflags hleaves.eflags
  refine h.stored ?_ hleaves (hpair.away vm₁.cpu) hmatch
  exact hsame₂.stored hstored

/-- The comparisons keep their expression for the flags. A literal takes the size of
the other operand, which is the same. -/
theorem process_eq_compare (hop : compareOp I.id = some op) :
    ∃ k : BinKind, k.op = some op ∧ isFlagChangingInstr I.id = true ∧
      ∀ (vm : VMState) (o1 o2 : OprndInfo), o1.size = o2.size → process I vm [o1, o2]
        = (operate k o1 o2 o1.size o2.size).map fun oe =>
          (vm.saveFlagChangingInstructionExpr I.id oe).2 := by
  obtain ⟨id, operands, implicitReads⟩ := I
  -- `cmp` and `test` are the two; the others have no comparison.
  cases id with
  | cmp =>
    obtain rfl := Option.some.inj hop
    refine ⟨.sub, rfl, rfl, fun vm o1 o2 hsize => ?_⟩
    show processCmp vm [o1, o2] = _
    rw [processCmp]
    simp only [List.getElem?_cons_zero, List.getElem?_cons_succ, Option.bind_eq_bind,
      Option.bind_some, hsize]
    cases operate .sub o1 o2 o2.size o2.size with
    | none => rfl
    | some oe =>
      obtain ⟨vm', hsaved, -⟩ := @save_eq vm .cmp rfl oe
      simp only [Option.bind_some, Option.map_some, hsaved]
      rfl
  | test =>
    obtain rfl := Option.some.inj hop
    refine ⟨.and, rfl, rfl, fun vm o1 o2 _ => ?_⟩
    show processTest vm [o1, o2] = _
    rw [processTest]
    simp only [List.getElem?_cons_zero, List.getElem?_cons_succ, Option.bind_eq_bind,
      Option.bind_some]
    cases operate .and o1 o2 o1.size o2.size <;> rfl
  | _ => simp [compareOp] at hop

/-- A comparison. -/
theorem Matches.compare (h : Matches ρ vm m) (hlaw : ProcessorLaw processor reads writes)
    (hfits : ExecFits vm I D S w) (hop : compareOp I.id = some op) (hexec : exec vm I = some vm') :
    Matches ρ vm' (m.ran processor I) := by
  obtain ⟨vm₁, o1, o2, hshape, hsame, hp1, hp2, hproc⟩ := exec_pair h.agrees hfits.pair hexec
  obtain ⟨k, hk, hid, heq⟩ := process_eq_compare hop
  -- from here on the engine is behind the parsers
  replace h := h.same hshape hsame
  replace hfits := hsame.execFits hfits
  have hpair := hfits.pair
  -- Both operands have the width of the instruction.
  have hsize : o1.size = o2.size := by
    rw [hp1.size_eq, hp2.size_eq, hpair.dest.form.size_eq, hpair.source.size_eq]
  obtain ⟨h1, h2⟩ := hfits.holdsBytes h hp1 hp2
  obtain ⟨hbytesD, hbytesS⟩ := hfits.bytes_eq h
  rw [heq vm₁ o1 o2 hsize] at hproc
  obtain ⟨oe, hoe, rfl⟩ := Option.map_eq_some_iff.1 hproc
  obtain ⟨e1, e2, rfl, hd1, hd2⟩ := operate_split h1 h2 hoe
  obtain ⟨hleaves, hflags⟩ :=
    hlaw.compare I D S w op m hpair (h.inRange hfits.addressed) hop
  rw [← hbytesD, ← hbytesS] at hflags
  obtain ⟨vm₂, hsaved, hsame₂, hlast, hsym⟩ := save_eq vm₁ hid (Expr.binExpr k e1 e2)
  -- The flags are read from a value of at least one byte.
  have hpos : 0 < w := by
    have hwidth := hpair.width
    omega
  have hmatch := h.flags.save hk (hd1 ρ) (hd2 ρ) (hpair.dest.form.length_bytes ρ vm₁ I)
    (hpair.source.length_bytes ρ vm₁ I) hpos hsame₂ hlast hsym ⟨rfl, rfl, rfl⟩ hflags
    hleaves.eflags
  rw [hsaved]
  -- no byte changes
  refine ⟨hsame₂.vmAgrees h.agrees, fun b hb => ?_, fun i hi k hk => ?_, hmatch⟩
  · rw [hleaves.others b hb (fun n l heq => nomatch heq), ← h.bytes b hb]
    cases b with
    | reg i k => exact hsame₂.regByte ρ i k
    | mem a => exact hsame₂.memByte ρ a
  · rw [VMState.Marked, hsame₂.symBitmap]
    exact h.plain i hi k hk

end Handlers

end KRover
