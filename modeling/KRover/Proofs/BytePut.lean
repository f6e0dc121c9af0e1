import KRover.Proofs.Widening

/-! # What a write leaves of every byte

The state byte by byte: the words of the registers and the memory, each byte
symbolic when its bitmap marks it. A write to an operand puts new bytes in its
place. A write of an expression marks all of them, and a write to a register of
one byte changes the concrete byte above.

* `VMState.content`: a byte of the state;
* `Put`: what a write leaves;
* `OprndInfo.At.exists_setSymValue`, `OprndInfo.At.exists_setConValue`: the
  writes of the handlers.
-/

set_option autoImplicit false

namespace KRover

open Segments Bytes

/-! ## The bytes of the state -/

/-- A byte of the word of a register, or of memory. -/
inductive ByteLoc where
  | reg (i : PtIdx) (k : Nat)
  | mem (b : Nat)
deriving DecidableEq, Repr

/-- A word has eight bytes, and an address 64 bits. -/
def ByteLoc.Valid : ByteLoc → Prop
  | .reg _ k => k < 8
  | .mem b => b < 2 ^ 64

namespace Loc

/-- A byte of an operand. -/
def byte : Loc → Nat → ByteLoc
  | .reg r, k => .reg r.offt ((regIdxToAddrSize r.sub).1.toNat + k)
  | .mem addr, k => .mem (addr + k)

/-- The byte above a register of one byte, to which its writes go. -/
def Above (n : Nat) (l : Loc) (b : ByteLoc) : Prop :=
  n = 1 ∧ ∃ r, l = .reg r ∧ b = .reg r.offt 1

/-- The bytes that a write to an operand changes. -/
def Touches (n : Nat) (l : Loc) (b : ByteLoc) : Prop :=
  (∃ k < n, b = l.byte k) ∨ l.Above n b

/-- The places of `n` bytes that the engine can read and write. -/
inductive Known (n : Nat) : Loc → Prop where
  | register (r : MachRegister) (henc : dyinstEncoding r = some n) : Known n (.reg r)
  | memory (addr : Nat) (hr : AccessRange addr n) : Known n (.mem addr)

/-- A register is known by its word and its size. -/
theorem eq_of_encoded {r1 r2 : MachRegister} {n : Nat} (hi : r1.offt = r2.offt)
    (h1 : dyinstEncoding r1 = some n) (h2 : dyinstEncoding r2 = some n) : r1 = r2 := by
  obtain ⟨i, s1⟩ := r1
  obtain ⟨_, s2⟩ := r2
  obtain rfl : i = _ := hi
  have hhigh1 : s1 ≠ .h := fun hh => by simp [encoding_high (r := ⟨i, s1⟩) hh] at h1
  have hhigh2 : s2 ≠ .h := fun hh => by simp [encoding_high (r := ⟨i, s2⟩) hh] at h2
  have hsize : (regIdxToAddrSize s1).2 = (regIdxToAddrSize s2).2 := by
    rw [(regIdxToAddrSize_of_encoded h1).1, (regIdxToAddrSize_of_encoded h2).1]
  cases s1 <;> cases s2 <;> simp_all [regIdxToAddrSize]

/-- The bytes of an encoded register follow its offset in the word. -/
theorem byte_encoded {r : MachRegister} {n : Nat} (henc : dyinstEncoding r = some n) (k : Nat) :
    byte (.reg r) k = .reg r.offt k := by
  rw [byte, (regIdxToAddrSize_of_encoded henc).1]
  show ByteLoc.reg r.offt (0 + k) = _
  rw [Nat.zero_add]

/-- Each byte of a known location exists. -/
theorem Known.valid {n : Nat} {l : Loc} (hl : l.Known n) {k : Nat} (hk : k < n) :
    (l.byte k).Valid := by
  cases hl with
  | register r henc =>
    have hsize := (regIdxToAddrSize_of_encoded henc).2.2
    rw [byte_encoded henc]
    show k < 8
    omega
  | memory addr hr =>
    have hle := hr.le
    show addr + k < 2 ^ 64
    omega

/-- The byte above is none of the operand. -/
theorem Known.ne_byte {n : Nat} {l : Loc} (hl : l.Known n) {b : ByteLoc} (hb : l.Above n b)
    {k : Nat} (hk : k < n) : b ≠ l.byte k := by
  obtain ⟨rfl, r, rfl, rfl⟩ := hb
  cases hl with
  | register _ henc =>
    rw [byte_encoded henc]
    intro heq
    have hone := (ByteLoc.reg.inj heq).2
    omega

/-- So does each byte of the word above it. -/
theorem above_valid {n : Nat} {l : Loc} {b : ByteLoc} (hb : l.Above n b) : b.Valid := by
  obtain ⟨-, r, -, rfl⟩ := hb
  show 1 < 8
  decide

end Loc

namespace VMState

/-- The expression of a byte that its bitmap marks. -/
def symAt (vm : VMState) : ByteLoc → Option (Expr × Nat)
  | .reg i k =>
    if (vm.cpu.symBitmap i).getLsbD k then lookup Expr.byteAt (vm.cpu.regCells i) k else none
  | .mem b =>
    if vm.mem.bitmap.Marked b then lookup Expr.byteAt vm.mem.storedCells (toInt64 b) else none

/-- The concrete byte, or what lies below a symbolic one. -/
def conByte (vm : VMState) : ByteLoc → BitVec 8
  | .reg i k => byteOf (vm.cpu.ptRegs i).toNat k
  | .mem b => vm.mem.concrete b

/-- The value of a byte and whether it is symbolic. -/
def content (vm : VMState) (b : ByteLoc) : ShadowByte := .of (vm.symAt b) (vm.conByte b)

end VMState

section Bytes

variable {vm vm' : VMState} {n : Nat} {l : Loc} {r : MachRegister}

/-- What looks the same has the same cell at each byte. -/
theorem SameView.symAt (hview : SameView vm vm') (b : ByteLoc) : vm'.symAt b = vm.symAt b := by
  cases b with
  | reg i k => rw [VMState.symAt, VMState.symAt, hview.symBitmap, hview.regCells]
  | mem b => simp only [VMState.symAt, hview.bitmap, hview.storedCells]

/-- It has the same concrete bytes. -/
theorem SameView.conByte (hview : SameView vm vm') (b : ByteLoc) :
    vm'.conByte b = vm.conByte b := by
  cases b with
  | reg i k => rw [VMState.conByte, VMState.conByte, hview.ptRegs]
  | mem b => rw [VMState.conByte, VMState.conByte, hview.concrete]

/-- A byte is symbolic where a cell covers it. -/
theorem isSymbolic_content (b : ByteLoc) : (vm.content b).isSymbolic = (vm.symAt b).isSome :=
  ShadowByte.isSymbolic_of _ _

/-- A byte that is marked is the one of the shadow. -/
theorem shadowAt_of_symAt {k : Nat} {x : Expr × Nat} (hx : vm.symAt (l.byte k) = some x) :
    vm.shadowAt l k = .symbolic x.1 x.2 := by
  cases l with
  | reg r =>
    rw [Loc.byte, VMState.symAt] at hx
    split at hx
    · rw [VMState.shadowAt, VMState.regShadow, hx]
      rfl
    · simp at hx
  | mem addr =>
    rw [Loc.byte, VMState.symAt] at hx
    split at hx
    · rw [VMState.shadowAt, VMState.memShadow, hx]
      rfl
    · simp at hx

/-- What is moved of a symbolic place is what it holds where it is marked. -/
theorem symbolic_lit_eq_content_iff {k : Nat} :
    ShadowByte.symbolic (vm.shadowAt l k).lit.1 (vm.shadowAt l k).lit.2 = vm.content (l.byte k)
      ↔ (vm.content (l.byte k)).isSymbolic = true := by
  constructor
  · intro heq
    rw [← heq]
    rfl
  · intro hsym
    rw [isSymbolic_content] at hsym
    obtain ⟨x, hx⟩ := Option.isSome_iff_exists.1 hsym
    rw [shadowAt_of_symAt hx, VMState.content, hx]
    rfl

/-- A place that is concrete has no marked byte. -/
theorem symAt_of_concrete (hl : l.Known n) (hcon : vm.isSymLoc n l = false) {k : Nat}
    (hk : k < n) : vm.symAt (l.byte k) = none := by
  cases hl with
  | register r henc =>
    obtain ⟨-, hmask, hsize⟩ := regIdxToAddrSize_of_encoded henc
    have hzero : ¬ vm.cpu.symBitmap r.offt &&& BitRange.mask 64 0 n ≠ 0#64 := by
      rw [← hmask, not_not]
      exact bne_eq_false_iff_eq.1 hcon
    rw [BitRange.and_mask_ne_zero_iff (by omega)] at hzero
    rw [Loc.byte_encoded henc, VMState.symAt, if_neg fun hbit => hzero ⟨k, by omega, hbit⟩]
  | memory addr hr =>
    have htest : ¬ vm.mem.isSYMemoryCell addr n = true := by
      rw [Bool.not_eq_true]
      exact hcon
    have hmark := mt (SYMemBitmap.testSYMemBitmap_iff vm.mem.bitmap hr.le hr.pos hr.noWrap).2 htest
    exact if_neg fun hbit => hmark ⟨addr + k, by omega, hbit⟩

/-- In a location that is not symbolic each byte is its concrete one. -/
theorem content_of_concrete (hl : l.Known n) (hcon : vm.isSymLoc n l = false) {k : Nat}
    (hk : k < n) : vm.content (l.byte k) = .concrete (vm.conByte (l.byte k)) := by
  rw [VMState.content, symAt_of_concrete hl hcon hk]
  rfl

end Bytes

/-! ## One write -/

/-- What a write leaves: new bytes at its place, a new concrete byte above a
register of one byte, and every other byte as it was. -/
structure Put (vm vm' : VMState) (n : Nat) (l : Loc) (new : Nat → ShadowByte) (v : BitVec 8) :
    Prop where
  shape : VMShape vm'
  bytes : ∀ k < n, vm'.content (l.byte k) = new k
  above : ∀ b, l.Above n b → vm'.symAt b = vm.symAt b ∧ vm'.conByte b = v
  others : ∀ b, b.Valid → ¬ l.Touches n b →
    vm'.symAt b = vm.symAt b ∧ vm'.conByte b = vm.conByte b
  bsymFlag : vm'.cpu.bsymFlag = vm.cpu.bsymFlag
  eflagsMgr : vm'.eflagsMgr = vm.eflagsMgr

section Writes

variable {vm vm' : VMState} {n : Nat} {l : Loc} {r : MachRegister} {oi : OprndInfo}

/-- The marks and cells of the registers after the write of a value that is no
list. -/
theorem ListWritten.symAt_reg {V : RegValue} (hw : ListWritten vm vm' V) (hV : V.Writable)
    (hexpr : V.isSymList = false) (i : PtIdx) (k : Nat) :
    vm'.symAt (.reg i k) = if i = V.indx.offt ∧ k < V.size then
        (if V.bsym then some (V.expr.byteAt k) else none)
      else vm.symAt (.reg i k) := by
  by_cases hi : i = V.indx.offt
  · subst hi
    have hrange : V.newRange = (0, (V.size : Int)) := by
      rw [RegValue.newRange, hexpr, if_neg (by simp)]
    have hnew := hV.newCells
    have hlook := lookup_splice (cutLaw_byteAt (vm.cpu.regCells V.indx.offt)) (le_of_lt hnew.lt)
      hnew.inside k
    rw [← RegValue.cellsAfter, ← hw.cells, hrange] at hlook
    dsimp only at hlook
    have hbit := RegShadow.getLsbD_bitmapAfter hV (vm.cpu.symBitmap V.indx.offt) k
    rw [← hw.bits] at hbit
    by_cases hk : k < V.size
    · rw [if_pos (by omega)] at hlook
      rw [if_pos ⟨rfl, hk⟩, VMState.symAt, hlook]
      cases hsym : V.bsym with
      | true =>
        have hcells : V.newCells = [⟨0, V.size, V.expr⟩] := by
          rw [RegValue.newCells, hsym, hexpr]
          rfl
        have hcov : Segment.Covers (⟨0, V.size, V.expr⟩ : Segment Expr) k :=
          ⟨Int.natCast_nonneg k, by show (k : Int) < 0 + V.size; omega⟩
        have hmark : Covered V.newCells k := by
          rw [hcells]
          exact (covered_cons _ _ _).2 (Or.inl hcov)
        rw [if_pos (hbit.2 (Or.inl hmark)), hcells, lookup, if_pos hcov, Int.sub_zero,
          Int.toNat_natCast]
        rfl
      | false =>
        have hcells : V.newCells = [] := by
          rw [RegValue.newCells, hsym]
          rfl
        rw [hcells]
        exact ite_self none
    · rw [if_neg (by omega)] at hlook
      rw [if_neg (fun hin => hk hin.2), VMState.symAt, VMState.symAt, hlook]
      have hout : ¬ Covered V.newCells k := by
        rintro ⟨x, hx, hx1, hx2⟩
        have hin := (hnew.inside x hx).2
        rw [hrange] at hin
        have hin : x.stop ≤ V.size := hin
        omega
      have hsame : (vm'.cpu.symBitmap V.indx.offt).getLsbD k = true ↔
          (vm.cpu.symBitmap V.indx.offt).getLsbD k = true :=
        hbit.trans ⟨fun hor => (hor.resolve_left hout).2, fun hold => Or.inr ⟨hk, hold⟩⟩
      simp only [hsame]
  · obtain ⟨hcells, hbits⟩ := hw.others i hi
    rw [if_neg (fun hin => hi hin.1), VMState.symAt, VMState.symAt, hcells, hbits]

/-- The concrete bytes: a register of one byte is written as the byte above. -/
theorem ListWritten.conByte_reg {V : RegValue} (hw : ListWritten vm vm' V) (henc : V.Encoded)
    (i : PtIdx) {k : Nat} (hk : k < 8) :
    vm'.conByte (.reg i k) = if i = V.indx.offt then
        if V.size = 1 then (if k = 1 then byteOf V.i64.toNat 0 else vm.conByte (.reg i k))
        else if k < V.size then byteOf V.i64.toNat k else vm.conByte (.reg i k)
      else vm.conByte (.reg i k) := by
  obtain ⟨hpart, -, hsize⟩ := regIdxToAddrSize_of_encoded henc
  have hhigh : V.indx.sub ≠ .h := by
    intro hh
    rw [RegValue.Encoded, encoding_high hh] at henc
    exact absurd henc (by simp)
  have hlow : V.indx.sub = .l ↔ V.size = 1 := by
    cases hsub : V.indx.sub <;> rw [hsub] at hpart hhigh <;>
      simp_all [regIdxToAddrSize] <;> omega
  have hword : vm.cpu.wordsAfter V = vm.cpu.wordsAfter (concreteWrite (V.indx, V.i64)) := by
    rw [SYCPUState.wordsAfter, SYCPUState.wordsAfter, concreteWrite, hpart]
  have hbyte := bytes_wordsAfter vm.cpu (W := (V.indx, V.i64)) hhigh i hk
  rw [← hword, ← hw.words, hpart] at hbyte
  simp only [hlow] at hbyte
  exact hbyte

/-- A write to a register. -/
theorem exists_put_register (h : VMShape vm) {V : RegValue} (hV : V.Writable)
    (hexpr : V.isSymList = false) :
    ∃ vm', asserted (vm.writeRegister V) = some vm' ∧
      Put vm vm' V.size (.reg V.indx)
        (fun k => if V.bsym then .symbolic (V.expr.byteAt k).1 (V.expr.byteAt k).2
          else .concrete (if V.size = 1 then vm.conByte (.reg V.indx.offt k)
            else byteOf V.i64.toNat k))
        (byteOf V.i64.toNat 0) := by
  obtain ⟨vm', hset, hw⟩ := listWritten h (SameCells.refl vm) hV
  have hsize := hV.encoded.size_bounds
  have hbyte := fun k => Loc.byte_encoded (r := V.indx) hV.encoded k
  have hsym := hw.symAt_reg hV hexpr
  have hcon := fun i => @ListWritten.conByte_reg _ _ _ hw hV.encoded i
  -- the rest of the machine is not assigned
  obtain ⟨m, hst, -, -⟩ := (h.cpu.word V.indx.offt).write hV
  have hvm := asserted_eq_some.1 hset
  rw [VMState.writeRegister, hst] at hvm
  obtain ⟨-, hvm⟩ := Prod.mk.inj (Option.some.inj hvm)
  have hmem : vm'.mem = vm.mem := by rw [← hvm]
  refine ⟨vm', hset, hw.shape, fun k hk => ?_, ?_, ?_, by rw [← hvm], by rw [← hvm]⟩
  · rw [hbyte, VMState.content, hsym, hcon V.indx.offt (by omega), if_pos ⟨rfl, hk⟩, if_pos rfl]
    cases V.bsym with
    | true => rfl
    | false =>
      show ShadowByte.concrete _ = .concrete _
      congr 1
      split
      · rw [if_neg (by omega)]
      · rfl
  · rintro b ⟨hone, _, hr, rfl⟩
    obtain rfl := Loc.reg.inj hr
    rw [hsym, hcon _ (by decide), if_neg (by omega), if_pos rfl, if_pos hone, if_pos rfl]
    exact ⟨rfl, rfl⟩
  · intro b hb hout
    cases b with
    | mem b =>
      rw [VMState.symAt, VMState.symAt, VMState.conByte, VMState.conByte, hmem]
      exact ⟨rfl, rfl⟩
    | reg i k =>
      rw [hsym, hcon i hb]
      by_cases hi : i = V.indx.offt
      · have hk : ¬ k < V.size := fun hk => hout (Or.inl ⟨k, hk, by rw [hbyte, hi]⟩)
        rw [if_neg (fun hin => hk hin.2), if_pos hi]
        refine ⟨rfl, ?_⟩
        split
        · rename_i hone
          rw [if_neg]
          rintro rfl
          exact hout (Or.inr ⟨hone, V.indx, rfl, by rw [hi]⟩)
        · rfl
      · rw [if_neg (fun hin => hi hin.1), if_neg hi]
        exact ⟨rfl, rfl⟩

/-- The write of an expression to memory inside a line. -/
theorem exists_put_memory (h : VMShape vm) {addr : Nat} (hr : AccessRange addr n)
    (hline : addr % 16 + n ≤ 16) (e : Expr) :
    ∃ vm', asserted (vm.writeMemory ⟨addr, n, true, false, 0, e, []⟩) = some vm' ∧
      Put vm vm' n (.mem addr) (fun k => .symbolic (e.byteAt k).1 (e.byteAt k).2) 0 := by
  have hle := hr.le
  have hpos := hr.pos
  have hin : SYMemState.insideHalfChunk addr n = true := by
    rw [SYMemState.insideHalfChunk, decide_eq_true_eq]
    omega
  -- the concrete zero is no part of the shadow
  let st : SYMemState := { vm.mem with concrete := storeBytes vm.mem.concrete addr n 0 }
  have hst : (vm.mem.writeConcreteValue addr n 0).2 = st := by
    rw [SYMemState.writeConcreteValue, if_pos hr.width]
  have hcells : MemCells st := h.mem.congr rfl rfl
  obtain ⟨m, ps, hwrite, hrepr, hsegs⟩ := hcells.repr.writeSymbolicExpr_spec hr hin e
  let mem : SYMemState :=
    { st with bitmap := (st.bitmap.markSYMemBitmap addr n).2, allSymbolList := m }
  have hmem : vm.mem.writeMemoryCell ⟨addr, n, true, false, 0, e, []⟩ = some (true, mem) := by
    rw [vm.mem.writeMemoryCell_expr rfl rfl, hst]
    exact hwrite
  have hvm : asserted (vm.writeMemory ⟨addr, n, true, false, 0, e, []⟩)
      = some { vm with mem := mem } := by
    rw [asserted_eq_some, VMState.writeMemory, if_pos hr.mapped, hmem]
    rfl
  have hshape := (h.mem.write (V := ⟨addr, n, true, false, 0, e, []⟩) hr (by simp) hmem).1
  -- marks and cells after the write
  have hmark : ∀ b, mem.bitmap.Marked b ↔ vm.mem.bitmap.Marked b ∨ addr ≤ b ∧ b < addr + n :=
    SYMemBitmap.marked_markSYMemBitmap _ hr.le hr.noWrap
  have hlook : ∀ b : Int, lookup Expr.byteAt mem.storedCells b
      = if toInt64 addr ≤ b ∧ b < toInt64 addr + n then
          lookup Expr.byteAt [(⟨toInt64 addr, n, e⟩ : Segment Expr)] b
        else lookup Expr.byteAt vm.mem.storedCells b := by
    intro b
    have hstored : mem.storedCells = splice SymbolListMap.cutExpr (toInt64 addr)
        (toInt64 addr + n) [⟨toInt64 addr, n, e⟩] vm.mem.storedCells :=
      (segs_liveCells hrepr).trans hsegs
    rw [hstored, lookup_splice (cutLaw_byteAt _) (by omega) (singleton_inside addr n e)]
  refine ⟨_, hvm, ⟨hshape, h.cpu⟩, fun k hk => ?_, ?_, ?_, rfl, rfl⟩
  · have hadd := hr.toInt64_add hk
    have hcov : Segment.Covers (⟨toInt64 addr, n, e⟩ : Segment Expr) (toInt64 (addr + k)) := by
      constructor
      · show toInt64 addr ≤ _
        omega
      · show _ < toInt64 addr + (n : Int)
        omega
    have hidx : (toInt64 (addr + k) - toInt64 addr).toNat = k := by omega
    have hsym : lookup Expr.byteAt mem.storedCells (toInt64 (addr + k)) = some (e.byteAt k) := by
      rw [hlook, lookup, if_pos hcov, hidx]
      exact if_pos hcov
    show ShadowByte.of (if mem.bitmap.Marked (addr + k) then _ else _) _ = _
    rw [if_pos ((hmark _).2 (Or.inr (by omega))), hsym]
    rfl
  · rintro b ⟨-, r, hr, -⟩
    exact absurd hr (by simp)
  · intro b hb hout
    cases b with
    | reg i k => exact ⟨rfl, rfl⟩
    | mem b =>
      have hb : b < 2 ^ 64 := hb
      have hout : ¬ (addr ≤ b ∧ b < addr + n) := by
        intro hin
        refine hout (Or.inl ⟨b - addr, by omega, ?_⟩)
        show ByteLoc.mem b = .mem (addr + (b - addr))
        rw [Nat.add_sub_cancel' hin.1]
      have hold := hlook (toInt64 b)
      rw [if_neg (mt (hr.mem_iff hb).2 hout)] at hold
      have hbit : mem.bitmap.Marked b ↔ vm.mem.bitmap.Marked b :=
        (hmark b).trans (or_iff_left hout)
      constructor
      · show (if mem.bitmap.Marked b then lookup Expr.byteAt mem.storedCells _ else none) = _
        rw [hold]
        simp only [hbit]
        rfl
      · exact storeBytes_outside hr.le 0 hb hout

/-- An operand that lies at a known place. -/
inductive OprndInfo.At (oi : OprndInfo) (n : Nat) : Loc → Prop where
  | register (r : MachRegister) (hindex : oi.regIndex = some r)
      (henc : dyinstEncoding r = some n) (hsize : oi.size = n) : At oi n (.reg r)
  | memory (addr : Nat) (haddr : oi.memConaddr = some addr) (hr : AccessRange addr n)
      (hline : addr % 16 + n ≤ 16) (hsize : oi.size = n) : At oi n (.mem addr)

/-- An operand that was parsed to a location has one of the known sizes. -/
theorem OprndInfo.At.known (h : oi.At n l) : l.Known n := by
  cases h with
  | register r _ henc => exact .register r henc
  | memory addr _ hr => exact .memory addr hr

/-- An expression that an operand is set to. -/
theorem OprndInfo.At.exists_setSymValue (hat : oi.At n l) (h : VMShape vm) (e : Expr) :
    ∃ vm', oi.setSymValue vm e = some vm' ∧
      Put vm vm' n l (fun k => .symbolic (e.byteAt k).1 (e.byteAt k).2) 0 := by
  cases hat with
  | register r hindex henc hsize =>
    have hV : (⟨r, n, true, false, 0, e, []⟩ : RegValue).Writable := ⟨henc, by simp⟩
    have hzero : byteOf (0 : BitVec 64).toNat 0 = 0 := by decide
    obtain ⟨vm', hset, hput⟩ := exists_put_register h hV rfl
    have hput : Put vm vm' n (.reg r) (fun k => .symbolic (e.byteAt k).1 (e.byteAt k).2)
        (byteOf (0 : BitVec 64).toNat 0) := hput
    rw [hzero] at hput
    rw [(OprndInfo.setValue_register hindex vm).1, hsize]
    exact ⟨vm', hset, hput⟩
  | memory addr haddr hr hline hsize =>
    rw [(OprndInfo.setSymValue_memory haddr vm e).2, hsize]
    exact exists_put_memory h hr hline e

/-- A concrete value that a register is set to. -/
theorem OprndInfo.At.exists_setConValue (hat : oi.At n (.reg r)) (h : VMShape vm)
    (v : BitVec 64) :
    ∃ vm', oi.setConValue vm v = some vm' ∧
      Put vm vm' n (.reg r) (fun k => .concrete
        (if n = 1 then vm.conByte (.reg r.offt k) else byteOf v.toNat k)) (byteOf v.toNat 0) := by
  cases hat with
  | register _ hindex henc hsize =>
    have hV : (⟨r, n, false, false, v, .null, []⟩ : RegValue).Writable := ⟨henc, by simp⟩
    obtain ⟨vm', hset, hput⟩ := exists_put_register h hV rfl
    rw [(OprndInfo.setValue_register hindex vm).2, hsize]
    exact ⟨vm', hset, hput⟩

/-- Symbolic memory is not set to a concrete value. -/
theorem OprndInfo.At.setConValue_memory {addr : Nat} (hat : oi.At n (.mem addr)) {e : Expr}
    (he : oi.getSymValue = some e) (vm : VMState) (v : BitVec 64) :
    oi.setConValue vm v = none := by
  cases hat with
  | memory _ haddr =>
    rw [OprndInfo.memConaddr] at haddr
    rw [OprndInfo.getSymValue] at he
    rw [OprndInfo.setConValue]
    cases hop : oi.opty <;> simp_all

end Writes

end KRover
