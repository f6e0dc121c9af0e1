import KRover.Proofs.FlagStatus
import KRover.Proofs.RegShadow

/-! # Loading a new concrete state

`setConcreteCPUState` overwrites the concrete registers and nothing else. So
registers reused between runs keep the marks, cells and uncertain flags of the
run before.

`reset_iff`: a loaded state reads back as such, and later writes behave as on
fresh registers, exactly when the state held nothing symbolic before; and, since
a one-byte register is read as the second byte of its word, when the two low
bytes of every general register are equal.
-/

set_option autoImplicit false

namespace KRover

open Segments SymbolListMap SYCPUState

/-- The general registers. -/
def PtIdx.isGeneral : PtIdx → Bool
  | .orax | .rip | .cs | .efl | .ss | .fs | .gs => false
  | _ => true

/-! ## Reading back -/

/-- The writes of a sequence, one after the other. -/
def runWrites : List RegValue → SYCPUState → Option SYCPUState
  | [], st => some st
  | V :: Vs, st => do
    let (_, st) ← st.writeRegister V
    runWrites Vs st

/-- What a register reads as after a sequence of writes. -/
def laterRead (st : SYCPUState) (Vs : List RegValue) (W : RegValue) : Option RegValue := do
  let st ← runWrites Vs st
  let (_, W, _) ← st.readRegister W
  return W

/-- The registers hold the concrete state `regs` and nothing else. -/
structure ReadsAs (st : SYCPUState) (regs : MacReg) : Prop where
  general : ∀ V : RegValue, V.Encoded → V.indx.offt.isGeneral = true →
    ∃ W st', st.readRegister V = some (true, W, st') ∧ W.bsym = false ∧
      W.i64.setWidth (8 * V.size) = (regs V.indx.offt).setWidth (8 * V.size)
  flags : ∀ f, st.flagBitDefinited f = true ∧
    st.getFlagBit f = if (regs .efl).getLsbD f.bit then .set else .clear
  concrete : st.readConcreteCPUState = regs
  later : ∀ Vs W, (∀ V ∈ Vs, V.Writable) → W.Encoded →
    laterRead st Vs W = laterRead (SYCPUState.new regs) Vs W

/-- Nothing symbolic is left, and the two low bytes of each general register of
`regs` are equal. -/
structure Resettable (st : SYCPUState) (regs : MacReg) : Prop where
  bitmap : ∀ i, st.symBitmap i = 0
  cells : ∀ i, st.regCells i = []
  flags : ∀ f, st.bsymFlag f = false
  lowBytes : ∀ i, i.isGeneral = true → (regs i >>> 8).setWidth 8 = (regs i).setWidth 8

/-! ## States that cannot be told apart -/

/-- The same words, bitmaps and cells. The symbol lists may lie differently in
their heaps. -/
structure SameRegs (st₁ st₂ : SYCPUState) : Prop where
  left : CpuShadow st₁
  right : CpuShadow st₂
  words : st₁.ptRegs = st₂.ptRegs
  bitmaps : st₁.symBitmap = st₂.symBitmap
  cells : ∀ i, st₁.regCells i = st₂.regCells i

namespace SameRegs

variable {st₁ st₂ : SYCPUState}

/-- Over the same registers a concrete read gives the same. -/
theorem valueRead (h : SameRegs st₁ st₂) (V : RegValue) : st₁.valueRead V = st₂.valueRead V := by
  unfold SYCPUState.valueRead isSYReg regWindow readConcreteValue
  rw [h.words, h.bitmaps, h.cells]

/-- A write leads to states that cannot be told apart either. -/
theorem writeRegister (h : SameRegs st₁ st₂) {V : RegValue} (hV : V.Writable) :
    ∃ st₁' st₂', st₁.writeRegister V = some (true, st₁') ∧
      st₂.writeRegister V = some (true, st₂') ∧ SameRegs st₁' st₂' := by
  obtain ⟨m₁, hst₁, -, hsegs₁⟩ := (h.left.word V.indx.offt).write hV
  obtain ⟨m₂, hst₂, -, hsegs₂⟩ := (h.right.word V.indx.offt).write hV
  refine ⟨_, _, hst₁, hst₂, ?_⟩
  constructor
  · exact h.left.writeRegister hV hst₁
  · exact h.right.writeRegister hV hst₂
  · show st₁.wordsAfter V = st₂.wordsAfter V
    unfold wordsAfter writeConcreteValue setWord
    rw [h.words]
  · show Function.update _ _ _ = Function.update _ _ _
    rw [h.bitmaps]
  · intro i
    by_cases hi : i = V.indx.offt
    · subst hi
      simp only [regCells, Function.update_self]
      rw [hsegs₁, hsegs₂, h.cells]
    · simp only [regCells, Function.update_of_ne hi]
      exact h.cells i

/-- Nor can they be told apart by what is read after a sequence of writes. -/
theorem laterRead (h : SameRegs st₁ st₂) {Vs : List RegValue} (hVs : ∀ V ∈ Vs, V.Writable)
    {W : RegValue} (hW : W.Encoded) : KRover.laterRead st₁ Vs W = KRover.laterRead st₂ Vs W := by
  induction Vs generalizing st₁ st₂ with
  | nil =>
    obtain ⟨m₁, hst₁, -⟩ := (h.left.word W.indx.offt).read hW
    obtain ⟨m₂, hst₂, -⟩ := (h.right.word W.indx.offt).read hW
    simp only [KRover.laterRead, runWrites, Option.bind_eq_bind, Option.bind_some, hst₁, hst₂,
      h.valueRead]
  | cons V Vs ih =>
    obtain ⟨st₁', st₂', hst₁, hst₂, hsame⟩ := h.writeRegister (hVs V (by simp))
    have hrest := ih hsame fun V' hV' => hVs V' (by simp [hV'])
    simp only [KRover.laterRead, runWrites, Option.bind_eq_bind, Option.bind_some, hst₁, hst₂]
    exact hrest

end SameRegs

/-! ## The exact condition -/

variable {st : SYCPUState} {regs : MacReg}

/-- A state without anything symbolic cannot be told from fresh registers once
it is loaded. -/
theorem Resettable.sameRegs (h : Resettable st regs) (hst : CpuShadow st) :
    SameRegs (st.setConcreteCPUState regs) (SYCPUState.new regs) where
  left := hst.congr rfl rfl
  right := cpuShadow_new regs
  words := rfl
  bitmaps := funext h.bitmap
  cells i := by
    rw [regCells_new]
    exact h.cells i

/-- A state that is resettable reads as a fresh one after the reset. -/
theorem Resettable.readsAs (h : Resettable st regs) (hst : CpuShadow st) :
    ReadsAs (st.setConcreteCPUState regs) regs where
  general V hV hgen := by
    have hload : CpuShadow (st.setConcreteCPUState regs) := hst.congr rfl rfl
    obtain ⟨m, hread, -⟩ := (hload.word V.indx.offt).read hV
    -- No mark is left, so every register reads as concrete.
    have hsym : (st.setConcreteCPUState regs).isSYReg V.indx = false := by
      rw [isSYReg]
      show (st.symBitmap V.indx.offt &&& _ != 0) = false
      rw [h.bitmap]
      simp
    have hval : (st.setConcreteCPUState regs).valueRead V
        = { V with
            bsym := false
            isSymList := false
            i64 := (st.setConcreteCPUState regs).readConcreteValue V.indx V.size V.i64 } := by
      rw [valueRead, hsym]
      rfl
    refine ⟨_, _, hread, by rw [hval], ?_⟩
    rw [hval]
    show BitVec.setWidth _ ((st.setConcreteCPUState regs).readConcreteValue V.indx V.size V.i64) = _
    rw [setWidth_readConcreteValue _ hV]
    show (if V.size = 1 then regs V.indx.offt >>> 8 else regs V.indx.offt).setWidth _ = _
    split
    · rename_i hone
      rw [hone]
      exact h.lowBytes _ hgen
    · rfl
  flags f := by
    have hsym : (st.setConcreteCPUState regs).bsymFlag f = false := h.flags f
    constructor
    · rw [flagBitDefinited, hsym]
      rfl
    · rw [getFlagBit_eq, hsym]
      rfl
  concrete := rfl
  later _ _ hVs hW := (h.sameRegs hst).laterRead hVs hW

/-- The access to a whole word. -/
def fullRead (i : PtIdx) (isSymList : Bool) : RegValue :=
  ⟨⟨i, .full⟩, 8, false, isSymList, 0, .null, []⟩

/-- A list of one cell of one byte, written to a whole word. -/
def byteWrite (i : PtIdx) (k : Nat) : RegValue :=
  ⟨⟨i, .full⟩, 8, true, true, 0, .null, [⟨k, 1, .null⟩]⟩

/-- One byte of a register can be written. -/
theorem byteWrite_writable {i : PtIdx} (hi : (fullRead i true).Encoded) {k : Nat} (hk : k < 8) :
    (byteWrite i k).Writable where
  encoded := hi
  form _ _ := by
    constructor
    · simp [byteWrite]
    · exact sorted_cons.2 ⟨Nat.one_pos, Sorted.nil, by simp⟩
    · intro x hx
      rw [List.mem_singleton.1 hx]
      show (0 : Int) ≤ k ∧ (k : Int) + 1 ≤ 8
      omega

/-- A word is named when its whole is. -/
theorem fullRead_encoded {i : PtIdx} (h : ¬ ∀ sub, dyinstEncoding ⟨i, sub⟩ = none) (l : Bool) :
    (fullRead i l).Encoded := by
  show dyinstEncoding ⟨i, .full⟩ = some 8
  cases i with
  | orax | cs | ss => exact absurd (fun sub => by cases sub <;> rfl) h
  | _ => rfl

/-- The value of a read after writes, when it comes about. -/
theorem laterRead_nil (h : CpuShadow st) {W : RegValue} (hW : W.Encoded) :
    laterRead st [] W = some (st.valueRead W) := by
  obtain ⟨m, hst, -⟩ := (h.word W.indx.offt).read hW
  simp only [laterRead, runWrites, Option.bind_eq_bind, Option.bind_some, hst]
  rfl

/-- No mark is left where the whole word reads as on fresh registers. -/
theorem ReadsAs.bitmap_eq_zero (h : ReadsAs (st.setConcreteCPUState regs) regs)
    (hst : CpuShadow st) (i : PtIdx) : st.symBitmap i = 0 := by
  -- A register without a name is never marked; the others are read whole.
  by_cases hnamed : ∀ sub, dyinstEncoding ⟨i, sub⟩ = none
  · exact (hst.unnamed i hnamed).1
  · have henc := fullRead_encoded hnamed false
    have hload : CpuShadow (st.setConcreteCPUState regs) := hst.congr rfl rfl
    have hread := h.later [] (fullRead i false) (by simp) henc
    rw [laterRead_nil hload henc, laterRead_nil (cpuShadow_new regs) henc] at hread
    have hbsym := congrArg RegValue.bsym (Option.some.inj hread)
    have hfresh : ((SYCPUState.new regs).valueRead (fullRead i false)).bsym = false := by
      have hsym : (SYCPUState.new regs).isSYReg (fullRead i false).indx = false := by
        simp [isSYReg, SYCPUState.new]
      rw [valueRead, hsym]
      rfl
    rw [hfresh] at hbsym
    have hsym : st.isSYReg ⟨i, .full⟩ = false := by
      by_contra hne
      have htrue : (st.setConcreteCPUState regs).isSYReg (fullRead i false).indx = true :=
        Bool.eq_true_of_not_eq_false hne
      rw [valueRead, htrue] at hbsym
      exact absurd hbsym (by simp [fullRead])
    -- the marks lie in the low eight bits, all of which the mask has
    apply BitVec.eq_of_getLsbD_eq
    intro k _
    by_contra hbit
    have hk : (st.symBitmap i).getLsbD k = true := by simpa using hbit
    have hmask := (regIdxToAddrSize_of_encoded henc).2.1
    have hne : st.symBitmap i &&& BitRange.mask 64 0 8 ≠ 0#64 :=
      (BitRange.and_mask_ne_zero_iff (by decide) _).2
        ⟨k, ⟨Nat.zero_le k, by have hk8 := ((hst.word i).marked k hk).1; omega⟩, hk⟩
    have hmask' : regMaskBits .full = BitRange.mask 64 0 8 := hmask
    rw [isSYReg] at hsym
    simp only [hmask', bne_eq_false_iff_eq] at hsym
    exact hne hsym

/-- A write of a fitting expression and the read after it are made. -/
theorem exists_laterRead (h : CpuShadow st) {V W : RegValue} (hV : V.Writable)
    (hW : W.Encoded) : ∃ W', laterRead st [V] W = some W' := by
  obtain ⟨m, hst, -⟩ := (h.word V.indx.offt).write hV
  obtain ⟨m', hst', -⟩ := ((h.writeRegister hV hst).word W.indx.offt).read hW
  simp only [laterRead, runWrites, Option.bind_eq_bind, Option.bind_some, hst, hst']
  exact ⟨_, rfl⟩

/-- The bytes that the whole word has cells for, after a write. -/
theorem covered_laterRead (h : CpuShadow st) {V W W' : RegValue} (hV : V.Writable)
    (hW : W.Encoded) (hlist : W.isSymList = true) (hi : W.indx.offt = V.indx.offt)
    (hsym : ((V.bitmapAfter (st.symBitmap V.indx.offt)) &&& regMaskBits W.indx.sub != 0) = true)
    (hread : laterRead st [V] W = some W') (b : Int) :
    Covered W'.symcellPtr b ↔
      (0 ≤ b ∧ b < 0 + W.size) ∧ Covered (V.cellsAfter (st.regCells V.indx.offt)) b := by
  obtain ⟨m, hst, -, hsegs⟩ := (h.word V.indx.offt).write hV
  have hnext := h.writeRegister hV hst
  obtain ⟨m', hst', -, -⟩ := (hnext.word W.indx.offt).read hW
  simp only [laterRead, runWrites, Option.bind_eq_bind, Option.bind_some, hst, hst'] at hread
  have hs := hW.size_bounds
  rw [← Option.some.inj hread, valueRead, if_pos (by
    rw [isSYReg, hi]
    simpa using hsym), hlist]
  simp only [if_true, regWindow, covered_shift, Int.add_zero]
  rw [covered_window cutExpr (by omega), hi]
  simp only [regCells, Function.update_self, hsegs]

/-- No cell is left either: a list written beside it would be read back with
it. -/
theorem ReadsAs.regCells_eq_nil (h : ReadsAs (st.setConcreteCPUState regs) regs)
    (hst : CpuShadow st) (i : PtIdx) : st.regCells i = [] := by
  by_cases hnamed : ∀ sub, dyinstEncoding ⟨i, sub⟩ = none
  · exact (hst.unnamed i hnamed).2
  · by_contra hne
    obtain ⟨x, xs, hx⟩ := List.exists_cons_of_ne_nil hne
    have hmem : x ∈ st.regCells i := by rw [hx]; simp
    have hin := (hst.word i).inside x hmem
    have hpos := (hst.word i).repr.sorted.positive x hmem
    have hstop : x.stop = x.addr + x.size := rfl
    -- write one byte that the cell does not start at
    let k : Nat := if x.addr = 0 then 1 else 0
    have hk : k < 8 := by simp only [k]; split <;> decide
    have hkx : (k : Int) ≠ x.addr := by
      simp only [k]
      split <;> omega
    have henc := fullRead_encoded hnamed true
    have hV := byteWrite_writable henc hk
    have hload : CpuShadow (st.setConcreteCPUState regs) := hst.congr rfl rfl
    have hnew := cpuShadow_new regs
    have hread := h.later [byteWrite i k] (fullRead i true) (by simpa using hV) henc
    -- After the write the register is read through its list, old cells included.
    have hmarked : ∀ b : BitVec 64,
        ((byteWrite i k).bitmapAfter b &&& regMaskBits (fullRead i true).indx.sub != 0) = true := by
      intro b
      rw [bne_iff_ne, (regIdxToAddrSize_of_encoded henc).2.1]
      refine (BitRange.and_mask_ne_zero_iff (show 0 + 8 ≤ 64 by decide) _).2
        ⟨k, ⟨Nat.zero_le k, by omega⟩, ?_⟩
      rw [RegShadow.getLsbD_bitmapAfter hV]
      exact Or.inl ⟨⟨k, 1, .null⟩, List.mem_singleton_self _, le_refl _, by
        show (k : Int) < k + 1
        omega⟩
    obtain ⟨W', hW'⟩ := exists_laterRead hnew hV henc
    have hold := covered_laterRead hload hV henc rfl rfl (hmarked _) (hread.trans hW') x.addr
    have hfresh := covered_laterRead hnew hV henc rfl rfl (hmarked _) hW' x.addr
    rw [hV.covered_after] at hold hfresh
    have hrange : (byteWrite i k).newRange = ((k : Int), (k : Int) + 1) := rfl
    rw [hrange, if_neg (by omega)] at hold hfresh
    have hcov : Covered ((st.setConcreteCPUState regs).regCells i) x.addr :=
      ⟨x, hmem, le_refl _, by omega⟩
    -- The old cell is seen where the written byte is not, and the fresh state has none there.
    have hin8 : 0 ≤ x.addr ∧ x.addr < 0 + (fullRead i true).size := by
      show 0 ≤ x.addr ∧ x.addr < 0 + 8
      omega
    have hnil : Covered ((SYCPUState.new regs).regCells i) x.addr :=
      (hfresh.1 (hold.2 ⟨hin8, hcov⟩)).2
    rw [regCells_new] at hnil
    exact covered_nil _ hnil

/-- After `setConcreteCPUState` the registers hold the loaded state and nothing else exactly
when nothing symbolic was left in them, and the two low bytes of each general register
loaded are equal. `setConcreteCPUState` copies the words and touches neither bitmaps nor
lists. A register of one byte is read from the second byte of its word, which is the low one
only if the two are equal. -/
theorem reset_iff (h : CpuReachable st) (regs : MacReg) :
    ReadsAs (st.setConcreteCPUState regs) regs ↔ Resettable st regs := by
  have hst := h.shadow
  constructor
  · intro hread
    -- Each of the four parts is read off what the loaded state shows.
    constructor
    · exact hread.bitmap_eq_zero hst
    · exact hread.regCells_eq_nil hst
    · intro f
      have hdef : (!st.bsymFlag f) = true := (hread.flags f).1
      simpa using hdef
    · intro i hi
      -- A read of the low byte shows where the loaded word has it.
      have henc : (⟨⟨i, .l⟩, 1, false, false, 0, .null, []⟩ : RegValue).Encoded := by
        cases i <;> first | rfl | exact absurd hi (by decide)
      obtain ⟨W, st', hW, hsym, hval⟩ := hread.general _ henc hi
      have hload : CpuShadow (st.setConcreteCPUState regs) := hst.congr rfl rfl
      obtain ⟨m, hread', -⟩ := (hload.word i).read henc
      rw [hread'] at hW
      obtain rfl := (Prod.mk.inj (Prod.mk.inj (Option.some.inj hW)).2).1
      have hi64 : ((st.setConcreteCPUState regs).valueRead
          ⟨⟨i, .l⟩, 1, false, false, 0, .null, []⟩).i64
          = (st.setConcreteCPUState regs).readConcreteValue ⟨i, .l⟩ 1 0 := by
        unfold valueRead
        split <;> rfl
      rw [hi64, setWidth_readConcreteValue _ henc] at hval
      exact hval
  · intro hreset
    exact hreset.readsAs hst

/-- What a write leaves of reachable registers. -/
theorem CpuReachable.exists_written {st : SYCPUState} {V : RegValue} (h : CpuReachable st)
    (hV : V.Writable) : ∃ st', st.writeRegister V = some (true, st') ∧ CpuReachable st' ∧
      st'.symBitmap
        = Function.update st.symBitmap V.indx.offt (V.bitmapAfter (st.symBitmap V.indx.offt)) ∧
      st'.bsymFlag = st.bsymFlag ∧
      st'.regCells V.indx.offt = V.cellsAfter (st.regCells V.indx.offt) ∧
      ∀ i, i ≠ V.indx.offt → st'.regCells i = st.regCells i := by
  obtain ⟨m, hwrite, -, hsegs⟩ := (h.shadow.word V.indx.offt).write hV
  refine ⟨_, hwrite, .step (.writeRegister V) h hV (congrArg (Option.map _) hwrite), rfl, rfl, ?_,
    fun i hi => ?_⟩
  · simp only [regCells, Function.update_self]
    exact hsegs
  · simp only [regCells, Function.update_of_ne hi]

/-- Registers after a symbolic write of a byte to `rax`. -/
theorem exists_byteWrite : ∃ st, CpuReachable st ∧
    st.symBitmap = Function.update (fun _ => 0) .rax ((byteWrite .rax 0).bitmapAfter 0) ∧
    (∀ f, st.bsymFlag f = false) ∧
    st.regCells .rax = (byteWrite .rax 0).cellsAfter [] ∧
    ∀ i, i ≠ .rax → st.regCells i = [] := by
  have henc := fullRead_encoded (i := .rax) (fun h => absurd (h .full) (by decide)) true
  have hV := byteWrite_writable henc (show 0 < 8 by decide)
  have hnew : CpuReachable (.construct (fun _ => 0) fun _ => 0) := .new _ _ fun _ => rfl
  have hcells : ∀ i, (SYCPUState.construct (fun _ => 0) fun _ => 0).regCells i = [] :=
    regCells_new _
  obtain ⟨st, -, hreach, hmap, hflags, hrax, hothers⟩ := hnew.exists_written hV
  refine ⟨st, hreach, hmap, fun f => by rw [hflags]; rfl, ?_, fun i hi => ?_⟩
  · rw [← hcells .rax]
    exact hrax
  · rw [hothers i hi, hcells]

/-- A concrete write of the whole of `rax`. -/
def wholeWrite : RegValue := ⟨⟨.rax, .full⟩, 8, false, false, 7, .null, []⟩

/-- Registers to which a symbol was written, and then a concrete value over it, take a state
with equal low bytes. -/
theorem reset_iff_overwritten : ∃ st st', CpuReachable st ∧ st.symBitmap .rax ≠ 0 ∧
    st.writeRegister wholeWrite = some (true, st') ∧
    ReadsAs (st'.setConcreteCPUState fun _ => 0x5a5a) fun _ => 0x5a5a := by
  obtain ⟨st, hreach, hmap, hflags, hrax, hothers⟩ := exists_byteWrite
  have hV : wholeWrite.Writable := ⟨rfl, fun hsym => absurd hsym (by decide)⟩
  obtain ⟨st', hwrite, hreach', hmap', hflags', hrax', hothers'⟩ := hreach.exists_written hV
  refine ⟨st, st', hreach, ?_, hwrite, (reset_iff hreach' _).2 ⟨fun i => ?_, fun i => ?_,
    fun f => ?_, fun _ _ => by decide⟩⟩
  · rw [hmap]
    decide
  · -- the bits of `rax` are cleared, the other bitmaps were never set
    rw [hmap', hmap]
    by_cases hi : i = .rax
    · subst hi
      decide
    · have hi' : i ≠ wholeWrite.indx.offt := hi
      rw [Function.update_of_ne hi', Function.update_of_ne hi]
  · by_cases hi : i = .rax
    · subst hi
      have hcells : st'.regCells .rax = wholeWrite.cellsAfter (st.regCells .rax) := hrax'
      rw [hcells, hrax]
      rfl
    · rw [hothers' i hi, hothers i hi]
  · rw [hflags', hflags]

/-- After a symbolic write to `rax` a loaded state does not read back. The bit and the cell
of the register are still there. -/
theorem not_reset_symbolic : ∃ st, CpuReachable st ∧
    ¬ ReadsAs (st.setConcreteCPUState fun _ => 0) fun _ => 0 := by
  obtain ⟨st, hreach, hmap, -⟩ := exists_byteWrite
  refine ⟨st, hreach, fun hread => ?_⟩
  have hzero := hread.bitmap_eq_zero hreach.shadow .rax
  rw [hmap] at hzero
  exact absurd hzero (by decide)

end KRover
