import KRover.Proofs.Matching

/-! # What a write stores

A write puts the bytes of a value in their place and leaves all others, whatever the
symbols stand for. The value of a whole register can be an expression, a word or a
list of cells; that of memory is an expression or a list.

* `exists_stored_register`, `exists_stored_memory`, `exists_stored_memoryList`: the
  writes;
* `Matches.stored`: the engine goes on beside a machine that stores the same bytes.
-/

set_option autoImplicit false

namespace KRover

open Segments BvTerm Bytes SymbolListMap

/-- New bytes at a place, and every other byte as it was. -/
structure Stored (ρ : Valuation) (vm vm' : VMState) (w : Nat) (l : Loc)
    (x : List (BitVec 8)) : Prop where
  agrees : VMAgrees vm'
  bytes : ∀ k < w, vm'.byteValue ρ (l.byte k) = x.getD k 0
  others : ∀ b : ByteLoc, b.Valid → (∀ k < w, b ≠ l.byte k) →
    vm'.byteValue ρ b = vm.byteValue ρ b ∧ (vm'.Marked b ↔ vm.Marked b)

/-- The flags are as they were. -/
structure FlagsKept (vm vm' : VMState) : Prop where
  efl : vm'.cpu.ptRegs .efl = vm.cpu.ptRegs .efl
  bsymFlag : vm'.cpu.bsymFlag = vm.cpu.bsymFlag
  eflagsMgr : vm'.eflagsMgr = vm.eflagsMgr

/-- What is stored is stored whatever becomes of the flags. -/
theorem SameBytes.stored {ρ : Valuation} {vm vm₁ vm' : VMState} {w : Nat} {l : Loc}
    {x : List (BitVec 8)} (hsame : SameBytes vm₁ vm') (h : Stored ρ vm vm₁ w l x) :
    Stored ρ vm vm' w l x := by
  have hvalue : ∀ b, vm'.byteValue ρ b = vm₁.byteValue ρ b := by
    intro b
    cases b with
    | reg i k => exact hsame.regByte ρ i k
    | mem a => exact hsame.memByte ρ a
  have hmark : ∀ b, vm'.Marked b ↔ vm₁.Marked b := by
    intro b
    cases b with
    | reg i k => rw [VMState.Marked, VMState.Marked, hsame.symBitmap]
    | mem a => rw [VMState.Marked, VMState.Marked, hsame.mem]
  refine ⟨hsame.vmAgrees h.agrees, fun k hk => ?_, fun b hb hout => ?_⟩
  · rw [hvalue, h.bytes k hk]
  · rw [hvalue, hmark]
    exact h.others b hb hout

/-- What a write leaves is known by the bytes. -/
theorem Stored.congr {ρ : Valuation} {vm vm' : VMState} {w : Nat} {l : Loc}
    {x y : List (BitVec 8)} (h : Stored ρ vm vm' w l x)
    (hxy : ∀ k < w, x.getD k 0 = y.getD k 0) : Stored ρ vm vm' w l y :=
  { h with bytes := fun k hk => (h.bytes k hk).trans (hxy k hk) }

section Shift

variable {ε : Type} {L : List (Segment ε)}

/-- A list that is moved starts so much earlier. -/
theorem start_shift (d : Int) (hne : L ≠ []) : start (L.map (Segment.shift d)) = start L - d := by
  obtain ⟨x, xs, rfl⟩ := List.exists_cons_of_ne_nil hne
  rfl

/-- And ends so much earlier. -/
theorem finish_shift (d : Int) (hne : L ≠ []) :
    finish (L.map (Segment.shift d)) = finish L - d := by
  rw [finish, finish, List.getLast?_map, List.getLast?_eq_some_getLast hne]
  exact Segment.shift_stop d _

end Shift

section Writes

variable {vm : VMState}

/-- A byte of the overlay is that of the cell over it, or else the concrete one. -/
theorem getD_overlay (ρ : Valuation) (L : List (Segment Expr)) (v : BitVec 64) {n k : Nat}
    (hk : k < n) :
    (overlay ρ L v n).getD k 0 = (lookup (Expr.byte ρ) L k).getD (byteOf v.toNat k) := by
  rw [overlay]
  simp [hk]

/-- A write to a whole register leaves the word and over it the new cells. They must
reach over all old ones. -/
theorem exists_stored_register (h : VMAgrees vm) {V : RegValue} (hV : V.Writable)
    (hsize : V.size = 8) (hefl : V.indx.offt ≠ .efl) (hnew : CellsOk HasBytes V.newCells)
    (hold : ∀ k : Nat, k < 8 → ¬ (V.newRange.1 ≤ k ∧ k < V.newRange.2) →
      ¬ Covered (vm.cpu.regCells V.indx.offt) k) :
    ∃ vm', asserted (vm.writeRegister V) = some vm' ∧ FlagsKept vm vm' ∧
      ∀ ρ, Stored ρ vm vm' 8 (.reg V.indx) (overlay ρ V.newCells V.i64 8) := by
  obtain ⟨vm', hset, hw⟩ := listWritten h.cells.shape (SameCells.refl vm) hV
  have hwrite := asserted_eq_some.1 hset
  obtain ⟨hcells, hmgr⟩ :=
    h.cells.writeRegister exprLaw_hasBytes hV.form (fun _ => hnew) hwrite
  -- the rest of the machine is not assigned
  obtain ⟨m, hst, -, -⟩ := (h.cells.shape.cpu.word V.indx.offt).write hV
  have hvm := hwrite
  rw [VMState.writeRegister, hst] at hvm
  obtain ⟨-, hvm⟩ := Prod.mk.inj (Option.some.inj hvm)
  have hmem : vm'.mem = vm.mem := by rw [← hvm]
  have hcovered : ∀ k : Nat, k < 8 →
      (Covered (vm'.cpu.regCells V.indx.offt) k ↔ Covered V.newCells k) := by
    intro k hk
    rw [hw.cells, hV.covered_after]
    split
    · exact Iff.rfl
    · rename_i hout
      refine iff_of_false (hold k hk hout) fun hcov => ?_
      obtain ⟨x, hx, hx1, hx2⟩ := hcov
      have hin := hV.newCells.inside x hx
      omega
  have hmarks : ∀ k : Nat, k < 8 →
      ((vm'.cpu.symBitmap V.indx.offt).getLsbD k = true ↔ Covered V.newCells k) := by
    intro k hk
    rw [hw.bits, RegShadow.getLsbD_bitmapAfter hV]
    exact or_iff_left fun hout => hout.1 (by omega)
  have hagrees : VMAgrees vm' := by
    refine ⟨hcells, ?_, fun i k hk => ?_⟩
    · rw [hmem]
      exact h.mem
    · by_cases hi : i = V.indx.offt
      · rw [hi, hmarks k hk, hcovered k hk]
      · obtain ⟨hregs, hbits⟩ := hw.others i hi
        rw [hregs, hbits]
        exact h.regs i k hk
  have hwords := fun i => @ListWritten.conByte_reg _ _ _ hw hV.encoded i
  have hword : vm'.cpu.ptRegs .efl = vm.cpu.ptRegs .efl := by
    refine eq_of_bytes fun k hk => ?_
    have hbyte := hwords .efl hk
    rwa [if_neg hefl.symm] at hbyte
  refine ⟨vm', hset, ⟨hword, by rw [← hvm], hmgr⟩, fun ρ =>
    ⟨hagrees, fun k hk => ?_, fun b hb hout => ?_⟩⟩
  · have hbyte := hwords V.indx.offt hk
    rw [if_pos rfl, if_neg (by omega), if_pos (by omega)] at hbyte
    rw [Loc.byte_encoded hV.encoded, getD_overlay _ _ _ hk]
    show (lookup (Expr.byte ρ) (vm'.cpu.regCells V.indx.offt) k).getD _ = _
    rw [show byteOf (vm'.cpu.ptRegs V.indx.offt).toNat k = byteOf V.i64.toNat k from hbyte]
    by_cases hcov : Covered V.newCells k
    · -- the new cells lie in the range of the write
      obtain ⟨x, hx, hx1, hx2⟩ := id hcov
      have hin := hV.newCells.inside x hx
      rw [hw.cells, RegValue.cellsAfter, lookup_splice (cutLaw_byte (h.cells.regCells _))
        (le_of_lt hV.newCells.lt) hV.newCells.inside, if_pos (by omega)]
    · rw [(lookup_eq_none _ _ _).2 (mt (hcovered k hk).1 hcov), (lookup_eq_none _ _ _).2 hcov]
  · cases b with
    | mem a =>
      rw [VMState.byteValue, VMState.byteValue, VMState.memByte, VMState.memByte,
        VMState.Marked, VMState.Marked, hmem]
      exact ⟨rfl, Iff.rfl⟩
    | reg i k =>
      have hi : i ≠ V.indx.offt := by
        rintro rfl
        exact hout k hb (Loc.byte_encoded hV.encoded k).symm
      obtain ⟨hregs, hbits⟩ := hw.others i hi
      have hbyte := hwords i hb
      rw [if_neg hi] at hbyte
      rw [VMState.byteValue, VMState.byteValue, VMState.regByte, VMState.regByte, hregs,
        VMState.Marked, VMState.Marked, hbits]
      refine ⟨?_, Iff.rfl⟩
      rw [show byteOf (vm'.cpu.ptRegs i).toNat k = byteOf (vm.cpu.ptRegs i).toNat k from hbyte]

/-- A write to memory leaves the registers and the flags. -/
theorem writeMemory_frame {vm' : VMState} {V : MemValue}
    (hset : asserted (vm.writeMemory V) = some vm') :
    vm'.cpu = vm.cpu ∧ vm'.eflagsMgr = vm.eflagsMgr := by
  have hwrite := asserted_eq_some.1 hset
  rw [VMState.writeMemory] at hwrite
  split at hwrite
  · obtain ⟨⟨res, mem⟩, -, hout⟩ := bind_some hwrite
    rw [← (Prod.mk.inj (Option.some.inj hout)).2]
    exact ⟨rfl, rfl⟩
  · simp at hwrite

/-- The write of an expression to memory inside a line. -/
theorem exists_stored_memory (h : VMAgrees vm) {addr n : Nat} (hr : AccessRange addr n)
    (hline : addr % 16 + n ≤ 16) {e : Expr} (he : HasBytes e n) :
    ∃ vm', asserted (vm.writeMemory ⟨addr, n, true, false, 0, e, []⟩) = some vm' ∧
      FlagsKept vm vm' ∧ ∀ ρ x, e.denote ρ = some x → Stored ρ vm vm' n (.mem addr) x := by
  obtain ⟨vm', hset, hagrees, hmgr, hholds, hkeep⟩ := writeMemory_expr h hr hline he
  obtain ⟨hcpu, -⟩ := writeMemory_frame hset
  refine ⟨vm', hset, ⟨by rw [hcpu], by rw [hcpu], hmgr⟩, fun ρ x hx =>
    ⟨hagrees, fun k hk => ?_, fun b hb hout => ?_⟩⟩
  · have hbyte := hholds.bytes ρ k hk
    rw [Expr.byte, hx] at hbyte
    exact hbyte
  · cases b with
    | reg i k =>
      rw [VMState.byteValue, VMState.byteValue, VMState.regByte, VMState.regByte,
        VMState.Marked, VMState.Marked, hcpu]
      exact ⟨rfl, Iff.rfl⟩
    | mem a =>
      have hnot : ¬ (addr ≤ a ∧ a < addr + n) := by
        intro hin
        refine hout (a - addr) (by omega) ?_
        rw [Loc.byte, Nat.add_sub_cancel' hin.1]
      obtain ⟨hmark, hbyte⟩ := hkeep.mem a hb hnot
      exact ⟨hbyte ρ, hmark⟩

/-- The write of a list of cells to memory inside a line leaves the word and over it
the list, which must reach over all old cells. -/
theorem exists_stored_memoryList (h : VMAgrees vm) {addr n : Nat} (hr : AccessRange addr n)
    (hline : addr % 16 + n ≤ 16) {cells : List (Segment Expr)} (hform : ReadForm n cells)
    (hnew : CellsOk HasBytes cells) (v : BitVec 64)
    (hold : ∀ k < n, vm.Marked (.mem (addr + k)) → start cells ≤ k ∧ (k : Int) < finish cells) :
    ∃ vm', asserted (vm.writeMemory ⟨addr, n, true, true, v, .null, cells⟩) = some vm' ∧
      FlagsKept vm vm' ∧ ∀ ρ, Stored ρ vm vm' n (.mem addr) (overlay ρ cells v n) := by
  let V : MemValue := ⟨addr, n, true, true, v, .null, cells⟩
  have hle := hr.le
  have hin : SYMemState.insideHalfChunk addr n = true := by
    rw [SYMemState.insideHalfChunk, decide_eq_true_eq]
    omega
  -- the word is written first
  let mem₁ := (vm.mem.writeConcreteValue addr n v).2
  have hsame := vm.mem.writeConcreteValue_shadow addr n v
  have h₁ : Shadow mem₁ := (Shadow.mk h.cells.shape.mem.repr h.mem).of_same hsame.1 hsame.2
  have hcells₁ : mem₁.storedCells = vm.mem.storedCells := by
    rw [SYMemState.storedCells, hsame.2]
    rfl
  have hconc : mem₁.concrete = storeBytes vm.mem.concrete addr n v := by
    simp only [mem₁, SYMemState.writeConcreteValue, hr.width, if_true]
  let src := cells.map (Segment.shift (-toInt64 addr))
  obtain ⟨m, ps, hst, hrepr, hsegs⟩ := h₁.repr.writeSymbolicList_spec hr hin hform
  let mem : SYMemState :=
    { mem₁ with
      bitmap := SYMemState.markCells (mem₁.bitmap.unmarkSYMemBitmap addr n) src
      allSymbolList := m }
  have hcells : mem.storedCells
      = splice cutExpr (start src) (finish src) src vm.mem.storedCells := by
    show m.segs m.liveCells = _
    rw [segs_liveCells hrepr, hsegs, ← hcells₁]
    rfl
  have hwrite : vm.writeMemory V = some (true, { vm with mem := mem }) := by
    rw [VMState.writeMemory, if_pos hr.mapped, vm.mem.writeMemoryCell_list rfl rfl]
    show (mem₁.writeSymbolicList addr n cells >>= _) = _
    rw [hst]
    rfl
  obtain ⟨hvm, hmgr⟩ := h.cells.writeMemory exprLaw_hasBytes (V := V) hr.width
    (fun _ _ => hform) (hnew.shift _) hwrite
  -- an old cell under the range lies between the ends of the list
  have hold' : ∀ k < n, Covered vm.mem.storedCells (toInt64 (addr + k)) →
      start cells ≤ k ∧ (k : Int) < finish cells := fun k hk hcov =>
    hold k hk ((h.mem (addr + k) (by omega)).2 hcov)
  have hmem : mem.Agrees := by
    refine ((h₁.write_list_iff hr hform hst).2).2 fun b hb hcov => ?_
    obtain ⟨k, hk⟩ : ∃ k : Nat, b = toInt64 addr + k := ⟨(b - toInt64 addr).toNat, by omega⟩
    have hkn : k < n := by omega
    rw [hcells₁, hk, ← hr.toInt64_add hkn] at hcov
    have hends := hold' k hkn hcov
    omega
  have hspan : start src ≤ finish src :=
    le_of_lt ((hform.sorted.shift _).start_lt_finish (hform.shift_ne _))
  have hwithin : ∀ x ∈ src, start src ≤ x.addr ∧ x.stop ≤ finish src :=
    (hform.sorted.shift _).within
  have hends := start_finish_inside hform.ne hform.inside
  have hlookup : ∀ ρ, ∀ k < n, lookup (Expr.byte ρ) mem.storedCells (toInt64 (addr + k))
      = lookup (Expr.byte ρ) cells k := by
    intro ρ k hk
    have hadd := hr.toInt64_add hk
    have hsrc : lookup (Expr.byte ρ) src (toInt64 (addr + k)) = lookup (Expr.byte ρ) cells k := by
      rw [lookup_shift, hadd]
      congr 1
      omega
    rw [hcells, lookup_splice (cutLaw_byte h.cells.memCells) hspan hwithin]
    split
    · exact hsrc
    · rename_i hout
      -- neither list has the byte
      rw [start_shift _ hform.ne, finish_shift _ hform.ne] at hout
      have hnew : ¬ Covered cells k := by
        rintro ⟨x, hx, hx1, hx2⟩
        have hwithin := hform.sorted.within x hx
        omega
      have hnone : ¬ Covered vm.mem.storedCells (toInt64 (addr + k)) := fun hcov => by
        have hends := hold' k hk hcov
        omega
      rw [(lookup_eq_none _ _ _).2 hnew, (lookup_eq_none _ _ _).2 hnone]
  have hagrees : VMAgrees { vm with mem := mem } := ⟨hvm, hmem, h.regs⟩
  refine ⟨{ vm with mem := mem }, asserted_eq_some.2 hwrite, ⟨rfl, rfl, hmgr⟩, fun ρ =>
    ⟨hagrees, fun k hk => ?_, fun b hb hout => ?_⟩⟩
  · show (lookup (Expr.byte ρ) mem.storedCells (toInt64 (addr + k))).getD (mem₁.concrete _) = _
    rw [hlookup ρ k hk, hconc, storeBytes_inside (by omega) v hk, getD_overlay _ _ _ hk]
  · cases b with
    | reg i k => exact ⟨rfl, Iff.rfl⟩
    | mem a =>
      have hnot : ¬ (addr ≤ a ∧ a < addr + n) := by
        intro hin
        refine hout (a - addr) (by omega) ?_
        rw [Loc.byte, Nat.add_sub_cancel' hin.1]
      have hlook : lookup (Expr.byte ρ) mem.storedCells (toInt64 a)
          = lookup (Expr.byte ρ) vm.mem.storedCells (toInt64 a) := by
        rw [hcells, lookup_splice (cutLaw_byte h.cells.memCells) hspan hwithin, if_neg]
        rw [hr.mem_iff hb] at hnot
        rw [start_shift _ hform.ne, finish_shift _ hform.ne]
        omega
      have hbyte : mem.concrete a = vm.mem.concrete a := by
        show mem₁.concrete a = _
        rw [hconc, storeBytes_outside hle v hb hnot]
      have hmark : mem.bitmap.Marked a ↔ vm.mem.bitmap.Marked a := by
        rw [hmem a hb, h.mem a hb, ← lookup_isSome (Expr.byte ρ), hlook, lookup_isSome]
      refine ⟨?_, hmark⟩
      show (lookup (Expr.byte ρ) mem.storedCells (toInt64 a)).getD (mem.concrete a) = _
      rw [hlook, hbyte]
      rfl

end Writes

/-- The engine and the machine store the same bytes, away from `rip` and `eflags`. -/
theorem Matches.stored {ρ : Valuation} {vm vm' : VMState} {m m' : Machine} {w : Nat} {l : Loc}
    {x : List (BitVec 8)} (h : Matches ρ vm m) (hstored : Stored ρ vm vm' w l x)
    (hleaves : m.Leaves m' (some (w, l)) x)
    (haway : ∀ i ∈ [PtIdx.rip, .efl], ∀ j, ∀ k < w, ByteLoc.reg i j ≠ l.byte k)
    (hflags : FlagsMatch ρ vm' m') : Matches ρ vm' m' := by
  refine ⟨hstored.agrees, fun b hb => ?_, fun i hi j hj => ?_, hflags⟩
  · by_cases hin : ∃ k < w, b = l.byte k
    · obtain ⟨k, hk, rfl⟩ := hin
      rw [hstored.bytes k hk, hleaves.bytes w l rfl k hk]
    · have hout : ∀ k < w, b ≠ l.byte k := fun k hk heq => hin ⟨k, hk, heq⟩
      rw [(hstored.others b hb.valid hout).1, h.bytes b hb]
      refine (hleaves.others b hb fun n l' heq => ?_).symm
      obtain ⟨rfl, rfl⟩ := Prod.mk.inj (Option.some.inj heq)
      exact hout
  · rw [(hstored.others (.reg i j) hj (haway i hi j)).2]
    exact h.plain i hi j hj

end KRover
