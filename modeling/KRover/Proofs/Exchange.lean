import KRover.Proofs.BytePut

/-! # What `process_xchg` leaves of its operands

An exchange is two writes of what was read before either. An expression marks
every byte of the place it is written to, and for a concrete value there is no
case when that place is symbolic memory.

* `exchanged_iff`: what two writes leave;
* `processXchg_iff`: the handler on operands that were handed over;
* `xchgDone_iff`: when the operands have exchanged their bytes.
-/

set_option autoImplicit false

namespace KRover

open Segments Bytes SymExecutor

/-! ## Two writes -/

/-- Each operand holds what the other held, and nothing else has changed. -/
structure Exchanged (vm vm' : VMState) (n : Nat) (l1 l2 : Loc) : Prop where
  first : ∀ k < n, vm'.content (l1.byte k) = vm.content (l2.byte k)
  second : ∀ k < n, vm'.content (l2.byte k) = vm.content (l1.byte k)
  others : ∀ b, b.Valid → (∀ k < n, b ≠ l1.byte k ∧ b ≠ l2.byte k) →
    vm'.content b = vm.content b
  bsymFlag : vm'.cpu.bsymFlag = vm.cpu.bsymFlag
  eflagsMgr : vm'.eflagsMgr = vm.eflagsMgr

/-- The byte above a register does not change when it becomes `v`: it is symbolic,
or `v` already. -/
def AboveKept (vm : VMState) (n : Nat) (l : Loc) (v : BitVec 8) : Prop :=
  ∀ b, l.Above n b → (vm.content b).isSymbolic = true ∨ vm.conByte b = v

section Writes

variable {vm vm₁ vm₂ : VMState} {n : Nat} {l l1 l2 : Loc} {new new1 new2 : Nat → ShadowByte}
  {v v1 v2 : BitVec 8} {b : ByteLoc}

/-- A write after the operands were parsed is one from the state before. -/
theorem Put.of_same (hsame : SameCells vm vm₁) (h : Put vm₁ vm₂ n l new v) :
    Put vm vm₂ n l new v where
  shape := h.shape
  bytes := h.bytes
  above b hb := by
    rw [← hsame.view.symAt]
    exact h.above b hb
  others b hb hout := by
    rw [← hsame.view.symAt, ← hsame.view.conByte]
    exact h.others b hb hout
  bsymFlag := h.bsymFlag.trans hsame.bsymFlag
  eflagsMgr := h.eflagsMgr.trans hsame.eflagsMgr

/-- It leaves the content of every byte that it does not touch. -/
theorem Put.content_others (h : Put vm vm₁ n l new v) (hb : b.Valid) (hout : ¬ l.Touches n b) :
    vm₁.content b = vm.content b := by
  obtain ⟨hsym, hcon⟩ := h.others b hb hout
  rw [VMState.content, VMState.content, hsym, hcon]

/-- A byte that keeps its mark keeps its content when it is symbolic, or when its
concrete byte is the same. -/
theorem of_symAt_eq_content_iff :
    ShadowByte.of (vm.symAt b) v = vm.content b ↔
      (vm.content b).isSymbolic = true ∨ vm.conByte b = v := by
  rw [isSymbolic_content, VMState.content]
  cases vm.symAt b with
  | none =>
    show ShadowByte.concrete v = .concrete (vm.conByte b) ↔ false = true ∨ _
    rw [ShadowByte.concrete.injEq, eq_comm]
    exact (or_iff_right Bool.false_ne_true).symm
  | some x => exact iff_of_true rfl (Or.inl rfl)

/-- Two writes exchange the operands when what they write is what the other
operand held, and the bytes above stay. -/
theorem exchanged_iff (hl1 : l1.Known n) (hl2 : l2.Known n) (h1 : Put vm vm₁ n l1 new1 v1)
    (h2 : Put vm₁ vm₂ n l2 new2 v2)
    (hcase : (l1 = l2 ∧ (∀ k < n, new1 k = new2 k) ∧ v1 = v2) ∨
      ∀ b, l1.Touches n b → ¬ l2.Touches n b) :
    Exchanged vm vm₂ n l1 l2 ↔
      ((∀ k < n, new1 k = vm.content (l2.byte k)) ∧ AboveKept vm n l1 v1) ∧
        (∀ k < n, new2 k = vm.content (l1.byte k)) ∧ AboveKept vm n l2 v2 := by
  -- The second write leaves the first operand alone, or writes the same over it.
  have hfirst : ∀ k < n, vm₂.content (l1.byte k) = new1 k := by
    intro k hk
    rcases hcase with ⟨rfl, hnew, -⟩ | hapart
    · rw [h2.bytes k hk, hnew k hk]
    · rw [h2.content_others (hl1.valid hk) (hapart _ (Or.inl ⟨k, hk, rfl⟩)), h1.bytes k hk]
  -- A byte above an operand keeps its cell and gets a concrete byte of the written word.
  have habove1 : ∀ b, l1.Above n b → vm₂.content b = .of (vm.symAt b) v1 := by
    intro b hb
    obtain ⟨hsym, hcon⟩ := h1.above b hb
    rcases hcase with ⟨rfl, -, rfl⟩ | hapart
    · obtain ⟨hsym2, hcon2⟩ := h2.above b hb
      rw [VMState.content, hsym2, hcon2, hsym]
    · rw [h2.content_others (Loc.above_valid hb) (hapart b (Or.inr hb)), VMState.content, hsym,
        hcon]
  have habove2 : ∀ b, l2.Above n b → vm₂.content b = .of (vm.symAt b) v2 := by
    intro b hb
    obtain ⟨hsym2, hcon2⟩ := h2.above b hb
    have hsym : vm₁.symAt b = vm.symAt b := by
      rcases hcase with ⟨rfl, -, -⟩ | hapart
      · exact (h1.above b hb).1
      · exact (h1.others b (Loc.above_valid hb) fun hin => hapart b hin (Or.inr hb)).1
    rw [VMState.content, hsym2, hcon2, hsym]
  -- neither byte above is one of the operands
  have hne1 : ∀ b, l1.Above n b → ∀ k < n, b ≠ l1.byte k ∧ b ≠ l2.byte k := by
    intro b hb k hk
    refine ⟨hl1.ne_byte hb hk, ?_⟩
    rcases hcase with ⟨rfl, -, -⟩ | hapart
    · exact hl1.ne_byte hb hk
    · exact fun heq => hapart b (Or.inr hb) (Or.inl ⟨k, hk, heq⟩)
  have hne2 : ∀ b, l2.Above n b → ∀ k < n, b ≠ l1.byte k ∧ b ≠ l2.byte k := by
    intro b hb k hk
    refine ⟨?_, hl2.ne_byte hb hk⟩
    rcases hcase with ⟨rfl, -, -⟩ | hapart
    · exact hl2.ne_byte hb hk
    · exact fun heq => hapart b (Or.inl ⟨k, hk, heq⟩) (Or.inr hb)
  constructor
  -- Read off the four parts of the condition at the bytes of the operands and at those above.
  · intro h
    refine ⟨⟨fun k hk => (hfirst k hk).symm.trans (h.first k hk), fun b hb => ?_⟩,
      fun k hk => (h2.bytes k hk).symm.trans (h.second k hk), fun b hb => ?_⟩
    · rw [← of_symAt_eq_content_iff, ← habove1 b hb]
      exact h.others b (Loc.above_valid hb) (hne1 b hb)
    · rw [← of_symAt_eq_content_iff, ← habove2 b hb]
      exact h.others b (Loc.above_valid hb) (hne2 b hb)
  · rintro ⟨⟨hnew1, hkept1⟩, hnew2, hkept2⟩
    refine ⟨fun k hk => (hfirst k hk).trans (hnew1 k hk),
      fun k hk => (h2.bytes k hk).trans (hnew2 k hk), fun b hb hout => ?_,
      h2.bsymFlag.trans h1.bsymFlag, h2.eflagsMgr.trans h1.eflagsMgr⟩
    -- Any byte outside of the operands is above one of them, or touched by neither write.
    by_cases hb1 : l1.Above n b
    · rw [habove1 b hb1]
      exact of_symAt_eq_content_iff.2 (hkept1 b hb1)
    · by_cases hb2 : l2.Above n b
      · rw [habove2 b hb2]
        exact of_symAt_eq_content_iff.2 (hkept2 b hb2)
      · have hout1 : ¬ l1.Touches n b := by
          rintro (⟨k, hk, heq⟩ | habove)
          · exact (hout k hk).1 heq
          · exact hb1 habove
        have hout2 : ¬ l2.Touches n b := by
          rintro (⟨k, hk, heq⟩ | habove)
          · exact (hout k hk).2 heq
          · exact hb2 habove
        rw [h2.content_others hb hout2, h1.content_others hb hout1]

/-- Two known places are one, or share no byte that a write changes, unless both
are memory. -/
theorem Loc.Known.eq_or_apart (hl1 : l1.Known n) (hl2 : l2.Known n)
    (hreg : ∀ a1 a2, l1 = .mem a1 → l2 ≠ .mem a2) :
    l1 = l2 ∨ ∀ b, l1.Touches n b → ¬ l2.Touches n b := by
  -- the bytes of a register are those of its word
  have hword : ∀ {r : MachRegister} {b : ByteLoc}, (Loc.reg r).Touches n b →
      ∃ k, b = .reg r.offt k := by
    rintro r b (⟨k, -, rfl⟩ | ⟨-, _, hr, rfl⟩)
    · exact ⟨_, rfl⟩
    · obtain rfl := Loc.reg.inj hr
      exact ⟨1, rfl⟩
  have hmem : ∀ {addr : Nat} {b : ByteLoc}, (Loc.mem addr).Touches n b → ∃ a, b = .mem a := by
    rintro addr b (⟨k, -, rfl⟩ | ⟨-, _, hr, -⟩)
    · exact ⟨_, rfl⟩
    · exact absurd hr (by simp)
  cases hl1 with
  | register r1 henc1 =>
    cases hl2 with
    | register r2 henc2 =>
      -- Two registers of one word and one width are the same register.
      by_cases hi : r1.offt = r2.offt
      · exact Or.inl (congrArg Loc.reg (Loc.eq_of_encoded hi henc1 henc2))
      · refine Or.inr fun b hb1 hb2 => ?_
        obtain ⟨k1, rfl⟩ := hword hb1
        obtain ⟨k2, heq⟩ := hword hb2
        exact hi (ByteLoc.reg.inj heq).1
    | memory a2 hr2 =>
      refine Or.inr fun b hb1 hb2 => ?_
      obtain ⟨k1, rfl⟩ := hword hb1
      obtain ⟨a, heq⟩ := hmem hb2
      exact absurd heq (by simp)
  | memory a1 hr1 =>
    cases hl2 with
    | register r2 henc2 =>
      refine Or.inr fun b hb1 hb2 => ?_
      obtain ⟨a, rfl⟩ := hmem hb1
      obtain ⟨k, heq⟩ := hword hb2
      exact absurd heq (by simp)
    | memory a2 _ => exact absurd rfl (hreg a1 a2 rfl)

end Writes

/-! ## The operands -/

/-- The concrete byte that is read of one byte: of a register, the one above. -/
def VMState.readByte (vm : VMState) : Loc → BitVec 8
  | .reg r => vm.conByte (.reg r.offt 1)
  | .mem addr => vm.conByte (.mem addr)

/-- An operand of `process_xchg`: of `n` bytes, read and written, and if it is
memory inside a line of 16 bytes. -/
structure XchgOperand (vm : VMState) (I : Instruction) (n : Nat) (O : Operand) (l : Loc) :
    Prop where
  lies : O.LiesAt vm I n l
  read : O.isRead = true
  written : O.isWritten = true
  line : ∀ addr, l = .mem addr → addr % 16 + n ≤ 16

/-- Two registers, or a register and memory. -/
structure IsXchg (vm : VMState) (I : Instruction) (n : Nat) (l1 l2 : Loc) : Prop where
  operands : ∃ O1 O2, I.operands = [O1, O2] ∧ XchgOperand vm I n O1 l1 ∧ XchgOperand vm I n O2 l2
  width : isAccessSize n = true
  register : ∀ a1 a2, l1 = .mem a1 → l2 ≠ .mem a2

/-- A word shows concrete bytes as they are read. -/
structure WordShows (vm : VMState) (n : Nat) (l : Loc) (v : BitVec 64) : Prop where
  one : n = 1 → byteOf v.toNat 0 = vm.readByte l
  more : n ≠ 1 → ∀ k < n, byteOf v.toNat k = vm.conByte (l.byte k)

/-- What the parser hands over of an operand. -/
structure Handed (vm : VMState) (n : Nat) (l : Loc) (oi : OprndInfo) : Prop where
  place : oi.At n l
  symb : oi.symb = vm.isSymLoc n l
  expr : oi.symb = true →
    ∃ e, oi.getSymValue = some e ∧ ∀ k < n, e.byteAt k = (vm.shadowAt l k).lit
  word : oi.symb = false → ∃ v, oi.getConValue = some v ∧ WordShows vm n l v

section Operands

variable {vm vm₁ : VMState} {I : Instruction} {O : Operand} {n : Nat} {l l1 l2 : Loc}
  {oi : OprndInfo}

/-- The concrete value that is read. -/
theorem wordShows_readWord (hl : l.Known n) :
    WordShows vm n l ((vm.readWord n l).signExtend 64) := by
  cases hl with
  | register r henc =>
    have hbits := bits_of_encoded henc
    have hread : vm.readWord n (.reg r)
        = (if n = 1 then vm.cpu.ptRegs r.offt >>> 8 else vm.cpu.ptRegs r.offt).setWidth (8 * n) :=
      setWidth_readConcreteValue vm.cpu (V := regRead r n false) henc 0
    constructor
    -- One byte is read from the second byte of the word, as the source has it.
    · rintro rfl
      rw [byteOf_signExtend _ hbits Nat.zero_lt_one, hread, if_pos rfl,
        byteOf_setWidth _ Nat.zero_lt_one]
      refine byteOf_congr fun i hi => ?_
      rw [BitVec.getLsbD_ushiftRight]
      congr 1
      omega
    · intro hn k hk
      rw [byteOf_signExtend _ hbits hk, hread, if_neg hn, byteOf_setWidth _ hk,
        Loc.byte_encoded henc]
      rfl
  | memory addr hr =>
    have hword : (vm.readWord n (.mem addr)).signExtend 64
        = (readConcrete vm.mem.concrete addr n).getD 0 := by
      rw [readConcrete, if_pos hr.width]
      rfl
    have hbyte : ∀ k < n, byteOf ((vm.readWord n (.mem addr)).signExtend 64).toNat k
        = vm.conByte (.mem (addr + k)) := by
      intro k hk
      rw [hword]
      exact byteOf_readConcrete vm.mem.concrete hr hk
    constructor
    · rintro rfl
      exact hbyte 0 Nat.zero_lt_one
    · intro _ k hk
      exact hbyte k hk

/-- A register that was parsed as one expression is handed over at its place. -/
theorem Parsed.handed_register (h : VMShape vm) {r : MachRegister} (hderef : O.deref = none)
    (hval : O.value = .register r n) (hpart : (regIdxToAddrSize r.sub).2 = n)
    (henc : dyinstEncoding r = some n) (hread : O.isRead = true) (hp : Parsed vm I O false oi) :
    Handed vm n (.reg r) oi := by
  have hlies : O.LiesAt vm I n (.reg r) := .register r hderef hval hpart
  have hset : O.readSet = [(r, n)] := Operand.Form.readSet_register hderef hval hread
  have hsymb : oi.symb = vm.isSymLoc n (.reg r) :=
    (hp.symb_eq hread).trans (isSymOprnd_eq hlies hread)
  have hword : oi.symb = false → ∃ v, oi.getConValue = some v ∧ WordShows vm n (.reg r) v :=
    fun hcon => ⟨_, hp.conValue hlies hread hcon, wordShows_readWord (.register r henc)⟩
  have hsize := hlies.size_eq
  -- A register that is read is handed over as a word or as a symbol.
  cases hp with
  | imm _ _ _ hnil => simp [hset] at hnil
  | regWritten _ _ _ _ hnot | memWritten _ hnot =>
    exact absurd (hread.symm.trans hnot) Bool.false_ne_true.symm
  | memCon _ _ _ hsome | memSym _ _ hsome => simp [hderef] at hsome
  | sum x y size e1 e2 _ _ hadd => simp [hval] at hadd
  | regCon _ r' _ _ _ hr =>
    rw [hset] at hr
    obtain rfl : r = r' := Option.some.inj hr
    exact ⟨.register r rfl henc hsize, hsymb, fun hno => absurd hno Bool.false_ne_true, hword⟩
  | regSym r' size _ _ hval' _ hsym =>
    obtain ⟨rfl, rfl⟩ : r = r' ∧ n = size := by simpa [hval] using hval'
    refine ⟨.register r rfl henc hsize, hsymb, fun _ => ⟨_, rfl, fun k hk => ?_⟩, hword⟩
    rw [shadowAt_encoded henc]
    exact lit_valueRead h henc hsym hk

/-- So is a range of memory, if it lies in one line. -/
theorem Parsed.handed_memory (h : VMShape vm) (hderef : O.deref = some n)
    (hmapped : VMState.mapped (O.address I vm.cpu) n = true) (hwidth : isAccessSize n = true)
    (hline : O.address I vm.cpu % 16 + n ≤ 16) (hread : O.isRead = true)
    (hp : Parsed vm I O false oi) : Handed vm n (.mem (O.address I vm.cpu)) oi := by
  have hlies : O.LiesAt vm I n (.mem (O.address I vm.cpu)) := .memory hderef hmapped
  have hr : AccessRange (O.address I vm.cpu) n := accessRange_of_mapped hwidth hmapped
  have hshown := hp.sourceShown_memory h hderef hread
  have hword : oi.symb = false →
      ∃ v, oi.getConValue = some v ∧ WordShows vm n (.mem (O.address I vm.cpu)) v :=
    fun hcon => ⟨_, hp.conValue hlies hread hcon, wordShows_readWord (.memory _ hr)⟩
  have hsize := hlies.size_eq
  refine ⟨?_, hshown.symb, hshown.expr, hword⟩
  cases hp with
  | imm _ hnone | regWritten _ _ _ hnone | sum _ _ _ _ _ hnone | regCon _ _ hnone
  | regSym _ _ hnone => simp [hderef] at hnone
  | memWritten _ hnot => exact absurd (hread.symm.trans hnot) Bool.false_ne_true.symm
  | memCon | memSym => exact .memory _ rfl hr hline hsize

/-- The operands of an instruction that was parsed. -/
theorem IsXchg.handed (hI : IsXchg vm I n l1 l2) (h : VMShape vm) {vecOI : List OprndInfo}
    (hparse : vm.parseOperands false I = some (vecOI, vm₁)) :
    VMShape vm₁ ∧ SameCells vm vm₁ ∧ ∃ oisrc1 oisrc2, vecOI = [oisrc1, oisrc2] ∧
      Handed vm n l1 oisrc1 ∧ Handed vm n l2 oisrc2 := by
  obtain ⟨O1, O2, hops, hO1, hO2⟩ := hI.operands
  have hmode : ∀ O ∈ I.operands,
      isAccessSize O.size = true ∧ (O.isRead = true ∨ O.isWritten = true) := by
    intro O hO
    rw [hops, List.mem_pair] at hO
    rcases hO with rfl | rfl
    · exact ⟨hO1.lies.size_eq ▸ hI.width, Or.inl hO1.read⟩
    · exact ⟨hO2.lies.size_eq ▸ hI.width, Or.inl hO2.read⟩
  obtain ⟨h₁, hsame, hall⟩ := h.parseOperands (fun O hO => (hmode O hO).1) hparse
  obtain ⟨hknown, -⟩ := h.parseOperands_found hmode hparse
  -- The same for each of the two operands.
  have hhanded : ∀ {O : Operand} {l : Loc} {oi : OprndInfo}, O ∈ I.operands →
      XchgOperand vm I n O l → Parsed vm I O false oi → Handed vm n l oi := by
    intro O l oi hO hx hp
    cases hx.lies with
    | register r hderef hval hpart =>
      have henc : dyinstEncoding r = some n := by
        refine hknown (r, n) (List.mem_append_left _ (List.mem_flatMap.2 ⟨O, hO, ?_⟩))
        rw [Operand.Form.readSet_register hderef hval hx.read]
        exact List.mem_singleton_self _
      exact hp.handed_register h hderef hval hpart henc hx.read
    | memory hderef hmapped =>
      exact hp.handed_memory h hderef hmapped hI.width (hx.line _ rfl) hx.read
  rw [hops] at hall
  obtain ⟨o1, ois, hp1, hrest, rfl⟩ := List.forall₂_cons_left_iff.1 hall
  obtain ⟨o2, ois, hp2, hnil, rfl⟩ := List.forall₂_cons_left_iff.1 hrest
  obtain rfl := List.forall₂_nil_left_iff.1 hnil
  exact ⟨h₁, hsame, o1, o2, rfl, hhanded (by simp [hops]) hO1 hp1,
    hhanded (by simp [hops]) hO2 hp2⟩

end Operands

/-! ## The exchange -/

/-- An operand takes over what the other holds. The other is symbolic as a whole,
if at all; memory that is symbolic takes over nothing concrete; and a register of
one byte, which is written to the byte above, has the concrete byte already. -/
structure Receives (vm : VMState) (n : Nat) (l l' : Loc) : Prop where
  whole : vm.isSymLoc n l' = true → ∀ k < n, (vm.content (l'.byte k)).isSymbolic = true
  kind : ∀ addr, l = .mem addr → vm.isSymLoc n l = true → vm.isSymLoc n l' = true
  low : ∀ r, l = .reg r → n = 1 → vm.isSymLoc n l' = false →
    vm.conByte (l.byte 0) = vm.conByte (l'.byte 0)
  above : AboveKept vm n l (if vm.isSymLoc n l' then 0 else vm.readByte l')

/-- `process_xchg` completes and the operands have exchanged their bytes. -/
def XchgDone (vm vm₁ : VMState) (vecOI : List OprndInfo) (n : Nat) (l1 l2 : Loc) : Prop :=
  ∃ vm', processXchg vm₁ vecOI = some vm' ∧ Exchanged vm vm' n l1 l2

section Exchange

variable {vm vm₁ : VMState} {I : Instruction} {n : Nat} {l l' l1 l2 : Loc} {r : MachRegister}
  {oisrc1 oisrc2 : OprndInfo} {e : Expr} {v : BitVec 64}

/-- An expression is written in place of what an operand holds. -/
theorem receives_symbolic_iff (hsym : vm.isSymLoc n l' = true)
    (he : ∀ k < n, e.byteAt k = (vm.shadowAt l' k).lit) :
    ((∀ k < n, ShadowByte.symbolic (e.byteAt k).1 (e.byteAt k).2 = vm.content (l'.byte k)) ∧
      AboveKept vm n l 0) ↔ Receives vm n l l' := by
  have hbyte : ∀ k < n,
      (ShadowByte.symbolic (e.byteAt k).1 (e.byteAt k).2 = vm.content (l'.byte k) ↔
        (vm.content (l'.byte k)).isSymbolic = true) := by
    intro k hk
    rw [he k hk]
    exact symbolic_lit_eq_content_iff
  constructor
  · rintro ⟨hbytes, habove⟩
    refine ⟨fun _ k hk => (hbyte k hk).1 (hbytes k hk), fun _ _ _ => hsym,
      fun _ _ _ hcon => absurd (hsym.symm.trans hcon) Bool.false_ne_true.symm, ?_⟩
    rw [if_pos hsym]
    exact habove
  · intro h
    refine ⟨fun k hk => (hbyte k hk).2 (h.whole hsym k hk), ?_⟩
    have habove := h.above
    rw [if_pos hsym] at habove
    exact habove

/-- A word is written to a register. -/
theorem receives_concrete_iff (henc : dyinstEncoding r = some n) (hl' : l'.Known n)
    (hcon : vm.isSymLoc n l' = false) (hv : WordShows vm n l' v) :
    ((∀ k < n, ShadowByte.concrete (if n = 1 then vm.conByte (.reg r.offt k)
        else byteOf v.toNat k) = vm.content (l'.byte k)) ∧
      AboveKept vm n (.reg r) (byteOf v.toNat 0)) ↔ Receives vm n (.reg r) l' := by
  have hnot : ¬ vm.isSymLoc n l' = true := by
    rw [hcon]
    exact Bool.false_ne_true
  have hbyte : ∀ k < n, vm.content (l'.byte k) = .concrete (vm.conByte (l'.byte k)) :=
    fun k hk => content_of_concrete hl' hcon hk
  have habove : AboveKept vm n (.reg r) (byteOf v.toNat 0) ↔
      AboveKept vm n (.reg r) (if vm.isSymLoc n l' then 0 else vm.readByte l') := by
    rw [if_neg hnot]
    refine forall_congr' fun b => forall_congr' fun hb => ?_
    rw [hv.one hb.1]
  constructor
  -- For a single byte the word has the second byte of the source in front, which must be the low
  -- one.
  · rintro ⟨hbytes, hkept⟩
    refine ⟨fun hsym => absurd hsym hnot, fun _ hmem => absurd hmem (by simp), ?_,
      habove.1 hkept⟩
    rintro r' hr' rfl -
    obtain rfl := Loc.reg.inj hr'
    have hlow := hbytes 0 Nat.zero_lt_one
    rw [if_pos rfl, hbyte 0 Nat.zero_lt_one, ShadowByte.concrete.injEq] at hlow
    rw [Loc.byte_encoded henc]
    exact hlow
  · intro h
    refine ⟨fun k hk => ?_, habove.2 h.above⟩
    rw [hbyte k hk]
    split
    · rename_i hone
      subst hone
      obtain rfl : k = 0 := by omega
      have hlow := h.low r rfl rfl hcon
      rw [Loc.byte_encoded henc] at hlow
      rw [hlow]
    · rename_i hn
      rw [hv.more hn k hk]

/-- `process_xchg` of operands that were handed over: it reads both, then it
writes the first and the second. -/
theorem processXchg_iff (h₁ : VMShape vm₁) (hsame : SameCells vm vm₁)
    (ho1 : Handed vm n l1 oisrc1) (ho2 : Handed vm n l2 oisrc2)
    (hreg : ∀ a1 a2, l1 = .mem a1 → l2 ≠ .mem a2)
    (hsym : vm.isSymLoc n l1 = true ∨ vm.isSymLoc n l2 = true) :
    XchgDone vm vm₁ [oisrc1, oisrc2] n l1 l2 ↔ Receives vm n l1 l2 ∧ Receives vm n l2 l1 := by
  have hl1 := ho1.place.known
  have hl2 := ho2.place.known
  have hapart := hl1.eq_or_apart hl2 hreg
  -- one run, and what it leaves
  have hdone : ∀ {vm'}, processXchg vm₁ [oisrc1, oisrc2] = some vm' →
      (XchgDone vm vm₁ [oisrc1, oisrc2] n l1 l2 ↔ Exchanged vm vm' n l1 l2) := by
    intro vm' hrun
    constructor
    · rintro ⟨_, hrun', hex⟩
      obtain rfl := Option.some.inj (hrun.symm.trans hrun')
      exact hex
    · exact fun hex => ⟨vm', hrun, hex⟩
  -- The code has three cases, for the marks of the two operands. The fourth is excluded by the
  -- test.
  cases hs1 : vm.isSymLoc n l1 with
  | true =>
    obtain ⟨e1, he1, hbytes1⟩ := ho1.expr (ho1.symb.trans hs1)
    cases hs2 : vm.isSymLoc n l2 with
    | true =>
      obtain ⟨e2, he2, hbytes2⟩ := ho2.expr (ho2.symb.trans hs2)
      obtain ⟨vm₂, hset1, hput1⟩ := ho1.place.exists_setSymValue h₁ e2
      obtain ⟨vm₃, hset2, hput2⟩ := ho2.place.exists_setSymValue hput1.shape e1
      have hrun : processXchg vm₁ [oisrc1, oisrc2] = some vm₃ := by
        rw [processXchg]
        simp only [Option.bind_eq_bind, Option.bind_some, List.getElem?_cons_zero,
          List.getElem?_cons_succ, ho1.symb, ho2.symb, hs1, hs2, Bool.and_self, if_true, he1, he2,
          hset1, hset2]
      rw [hdone hrun, exchanged_iff hl1 hl2 (hput1.of_same hsame) hput2 ?_,
        receives_symbolic_iff hs2 hbytes2, receives_symbolic_iff hs1 hbytes1]
      refine hapart.imp_left fun heq => ⟨heq, fun k hk => ?_, rfl⟩
      rw [hbytes1 k hk, hbytes2 k hk, heq]
    | false =>
      obtain ⟨v2, hv2, hshows⟩ := ho2.word (ho2.symb.trans hs2)
      have hprocess : processXchg vm₁ [oisrc1, oisrc2]
          = (oisrc1.setConValue vm₁ v2).bind fun vm => oisrc2.setSymValue vm e1 := by
        rw [processXchg]
        simp only [Option.bind_eq_bind, Option.bind_some, List.getElem?_cons_zero,
          List.getElem?_cons_succ, ho1.symb, ho2.symb, hs1, hs2, Bool.and_false, Bool.false_eq_true,
          if_false, if_true, he1, hv2]
      cases hl1 with
      | memory addr _ =>
        -- there is no case for it
        refine iff_of_false ?_ fun h => ?_
        · rintro ⟨vm', hrun, -⟩
          rw [hprocess, ho1.place.setConValue_memory he1] at hrun
          exact absurd hrun (by simp)
        · have hkind := h.1.kind addr rfl hs1
          exact absurd (hkind.symm.trans hs2) Bool.false_ne_true.symm
      | register r henc =>
        obtain ⟨vm₂, hset1, hput1⟩ := ho1.place.exists_setConValue h₁ v2
        obtain ⟨vm₃, hset2, hput2⟩ := ho2.place.exists_setSymValue hput1.shape e1
        have hrun : processXchg vm₁ [oisrc1, oisrc2] = some vm₃ := by
          rw [hprocess, hset1]
          exact hset2
        simp only [hsame.view.conByte] at hput1
        rw [hdone hrun, exchanged_iff (.register r henc) hl2 (hput1.of_same hsame) hput2 ?_,
          receives_concrete_iff henc hl2 hs2 hshows, receives_symbolic_iff hs1 hbytes1]
        refine Or.inr (hapart.resolve_left fun heq => ?_)
        rw [heq, hs2] at hs1
        exact absurd hs1 Bool.false_ne_true
  | false =>
    have hs2 : vm.isSymLoc n l2 = true := hsym.resolve_left (by simp [hs1])
    obtain ⟨e2, he2, hbytes2⟩ := ho2.expr (ho2.symb.trans hs2)
    obtain ⟨v1, hv1, hshows⟩ := ho1.word (ho1.symb.trans hs1)
    obtain ⟨vm₂, hset1, hput1⟩ := ho1.place.exists_setSymValue h₁ e2
    have hprocess : processXchg vm₁ [oisrc1, oisrc2] = oisrc2.setConValue vm₂ v1 := by
      rw [processXchg]
      simp only [Option.bind_eq_bind, Option.bind_some, List.getElem?_cons_zero,
        List.getElem?_cons_succ, ho1.symb, ho2.symb, hs1, hs2, Bool.and_true, Bool.false_eq_true,
        if_false, if_true, he2, hv1, hset1]
    -- One of the operands is symbolic and the other is not, so they are two.
    have happart : ∀ b, l1.Touches n b → ¬ l2.Touches n b := by
      refine hapart.resolve_left fun heq => ?_
      rw [heq, hs2] at hs1
      exact absurd hs1.symm Bool.false_ne_true
    cases hl2 with
    | memory addr _ =>
      refine iff_of_false ?_ fun h => ?_
      · rintro ⟨vm', hrun, -⟩
        rw [hprocess, ho2.place.setConValue_memory he2] at hrun
        exact absurd hrun (by simp)
      · have hkind := h.2.kind addr rfl hs2
        exact absurd (hkind.symm.trans hs1) Bool.false_ne_true.symm
    | register r henc =>
      obtain ⟨vm₃, hset2, hput2⟩ := ho2.place.exists_setConValue hput1.shape v1
      -- the first write has left the bytes of the second register
      have hbyte : ∀ k < n, vm₂.conByte (.reg r.offt k) = vm.conByte (.reg r.offt k) := by
        intro k hk
        have hvalid := (Loc.Known.register r henc).valid hk
        have htouch : (Loc.reg r).Touches n ((Loc.reg r).byte k) := Or.inl ⟨k, hk, rfl⟩
        rw [Loc.byte_encoded henc] at hvalid htouch
        rw [(hput1.others _ hvalid fun hin => happart _ hin htouch).2, hsame.view.conByte]
      rw [hdone (hprocess.trans hset2),
        exchanged_iff hl1 (.register r henc) (hput1.of_same hsame) hput2 (Or.inr happart),
        receives_symbolic_iff hs2 hbytes2, ← receives_concrete_iff henc hl1 hs1 hshows]
      refine and_congr_right fun _ => and_congr_left fun _ => ?_
      refine forall_congr' fun k => forall_congr' fun hk => ?_
      rw [hbyte k hk]

/-- `process_xchg` exchanges its operands exactly when each takes over what the other holds.
The handler writes one operand after the other, each with the value that was parsed before.
A concrete value cannot be set over symbolic memory, a register of one byte is written to
the byte above, and an operand that is symbolic in part is read as one expression. -/
theorem xchgDone_iff (vm vm₁ : VMState) (I : Instruction) (vecOI : List OprndInfo) (n : Nat)
    (l1 l2 : Loc) (h : VMShape vm) (hI : IsXchg vm I n l1 l2)
    (hparse : vm.parseOperands false I = some (vecOI, vm₁))
    (hsym : vm.isSymLoc n l1 = true ∨ vm.isSymLoc n l2 = true) :
    XchgDone vm vm₁ vecOI n l1 l2 ↔ Receives vm n l1 l2 ∧ Receives vm n l2 l1 := by
  obtain ⟨h₁, hsame, o1, o2, rfl, ho1, ho2⟩ := hI.handed h hparse
  exact processXchg_iff h₁ hsame ho1 ho2 hI.register hsym

end Exchange

/-! ## `xchg rax, rbx` -/

/-- The instruction. -/
def xchgRaxRbx : Instruction :=
  ⟨.xchg, [regOperand ⟨.rax, .full⟩ 8 true true, regOperand ⟨.rbx, .full⟩ 8 true true], []⟩

/-- `xchg rax, rbx` exchanges two registers of eight bytes. -/
theorem isXchg_xchgRaxRbx (vm : VMState) :
    IsXchg vm xchgRaxRbx 8 (.reg ⟨.rax, .full⟩) (.reg ⟨.rbx, .full⟩) where
  operands := ⟨_, _, rfl, ⟨.register _ rfl rfl rfl, rfl, rfl, by simp⟩,
    ⟨.register _ rfl rfl rfl, rfl, rfl, by simp⟩⟩
  width := rfl
  register _ _ hmem := absurd hmem (by simp)

/-- Its operands are parsed in any state. -/
theorem exists_parse_xchgRaxRbx {vm : VMState} (h : VMShape vm) :
    ∃ vecOI vm₁, vm.parseOperands false xchgRaxRbx = some (vecOI, vm₁) := by
  refine h.exists_parseOperands (fun O hO => ?_) (fun P hP => ?_) false
  · rcases List.mem_pair.1 hO with rfl | rfl
    · exact ⟨rfl, 8, .register _ rfl rfl rfl, Or.inl rfl, fun hsome => absurd hsome (by decide)⟩
    · exact ⟨rfl, 8, .register _ rfl rfl rfl, Or.inl rfl, fun hsome => absurd hsome (by decide)⟩
  · rcases List.mem_pair.1 hP with rfl | rfl
    · rfl
    · rfl

/-- The marked bytes of a fresh machine with one symbolic register. -/
theorem ListWritten.isSymbolic_fresh {vm : VMState} {r : MachRegister} {n : Nat} {e : Expr}
    (henc : dyinstEncoding r = some n)
    (hw : ListWritten (VMState.new (fun _ => 0) fun _ => 0) vm ⟨r, n, true, false, 0, e, []⟩)
    (k : Nat) : (vm.content (.reg r.offt k)).isSymbolic = decide (k < n) := by
  have hV : (⟨r, n, true, false, 0, e, []⟩ : RegValue).Writable := ⟨henc, by simp⟩
  rw [isSymbolic_content, hw.symAt_reg hV rfl]
  by_cases hk : k < n
  · rw [if_pos ⟨rfl, hk⟩, decide_eq_true hk]
    rfl
  · rw [if_neg fun hin => hk hin.2, decide_eq_false hk]
    show (if (0#64).getLsbD k = true then _ else none).isSome = false
    rw [BitVec.getLsbD_zero]
    rfl

/-- A symbolic `rax` changes places with a concrete `rbx`. Both are whole registers, so
nothing is left above. -/
theorem xchgDone_xchgRaxRbx : ∃ vm vm₁ vecOI,
    (VMState.new (fun _ => 0) fun _ => 0).createSYRegObject ⟨.rax, .full⟩ 8 = some (true, vm) ∧
      vm.parseOperands false xchgRaxRbx = some (vecOI, vm₁) ∧
      XchgDone vm vm₁ vecOI 8 (.reg ⟨.rax, .full⟩) (.reg ⟨.rbx, .full⟩) := by
  obtain ⟨vm, hnew, hw⟩ := exists_createSYRegObject (r := ⟨.rax, .full⟩) rfl
  obtain ⟨vecOI, vm₁, hparse⟩ := exists_parse_xchgRaxRbx hw.shape
  have hrax : vm.isSymLoc 8 (.reg ⟨.rax, .full⟩) = true := hw.isSYReg_expr rfl
  have hrbx : vm.isSymLoc 8 (.reg ⟨.rbx, .full⟩) = false := by
    show (vm.cpu.symBitmap .rbx &&& _ != 0) = false
    rw [(hw.regKept (i := .rbx) (by decide)).bits]
    rfl
  -- no register here has one byte
  have habove : ∀ r v, AboveKept vm 8 (.reg r) v := fun r v b hb => absurd hb.1 (by decide)
  refine ⟨vm, vm₁, vecOI, hnew, hparse, (xchgDone_iff vm vm₁ xchgRaxRbx vecOI 8
    (.reg ⟨.rax, .full⟩) (.reg ⟨.rbx, .full⟩) hw.shape (isXchg_xchgRaxRbx vm) hparse
    (Or.inl hrax)).2 ⟨⟨?_, by simp, fun _ _ hone => absurd hone (by decide), habove _ _⟩,
    ⟨fun _ k hk => ?_, by simp, fun _ _ hone => absurd hone (by decide), habove _ _⟩⟩⟩
  · intro hsym
    rw [hrbx] at hsym
    exact absurd hsym Bool.false_ne_true
  · rw [Loc.byte_encoded rfl, hw.isSymbolic_fresh rfl]
    exact decide_eq_true hk

/-- With a symbolic `eax` the upper half of `rbx` becomes symbolic too. The operand is read
as one expression of eight bytes, and that is written. -/
theorem not_xchgDone_xchgRaxRbx : ∃ vm vm₁ vecOI,
    (VMState.new (fun _ => 0) fun _ => 0).createSYRegObject ⟨.rax, .d⟩ 4 = some (true, vm) ∧
      vm.parseOperands false xchgRaxRbx = some (vecOI, vm₁) ∧
      ¬ XchgDone vm vm₁ vecOI 8 (.reg ⟨.rax, .full⟩) (.reg ⟨.rbx, .full⟩) := by
  obtain ⟨vm, hnew, hw⟩ := exists_createSYRegObject (r := ⟨.rax, .d⟩) rfl
  obtain ⟨vecOI, vm₁, hparse⟩ := exists_parse_xchgRaxRbx hw.shape
  obtain ⟨h₁, hsame, o1, o2, rfl, ho1, ho2⟩ := (isXchg_xchgRaxRbx vm).handed hw.shape hparse
  have hrax : vm.isSymLoc 8 (.reg ⟨.rax, .full⟩) = true := by
    rw [← Bool.not_eq_false]
    intro hcon
    have hbyte := symAt_of_concrete (.register _ rfl) hcon (k := 0) (by decide)
    have hsym := hw.isSymbolic_fresh rfl 0
    rw [isSymbolic_content, ← Loc.byte_encoded (r := ⟨.rax, .full⟩) rfl, hbyte] at hsym
    exact absurd hsym (by decide)
  refine ⟨vm, vm₁, [o1, o2], hnew, hparse, fun hdone => ?_⟩
  have hreceives := ((processXchg_iff h₁ hsame ho1 ho2 (isXchg_xchgRaxRbx vm).register
    (Or.inl hrax)).1 hdone).2
  have hfour := hreceives.whole hrax 4 (by decide)
  rw [Loc.byte_encoded rfl, hw.isSymbolic_fresh rfl] at hfour
  exact absurd hfour (by decide)

end KRover
