import KRover.ConExecutor
import KRover.Lib.X86Insn

/-! # The layouts of `RewRIPInsn`

The bytes that are copied to `T_insn` should be one instruction that does the
same with `r15` for `rip` (`Rewritten`). For each layout that the indexes are
right for: when they are.
-/

set_option autoImplicit false

namespace KRover

open X86 ConExecutor

/-! ## Instructions relative to `rip` -/

/-- The operation of an instruction, as the engine names it. -/
def entryID : Op → EntryID
  | .mov => .mov
  | .cmp => .cmp
  | .lea => .lea
  | .add => .add
  | .sub => .sub
  | .and => .and
  | .xadd => .xadd
  | .test => .test

/-- The encoding of an instruction with an operand relative to `rip` that does
not use `r15`. -/
structure IsRipInsn (e : Encoding) (info : OpInfo) (d0 d1 d2 d3 : Byte) : Prop where
  valid : e.Valid info
  addr : e.addr = .rip [d0, d1, d2, d3]
  others : info.register e.state e.reg ≠ some (.general 15)
  short : e.bytes.length ≤ 15

/-- `instr->isRead(x86_gs)`: for an address, or as the register that is moved. -/
def readsGS (e : Encoding) (info : OpInfo) : Bool :=
  e.state.seg = some .gs ∨ info.regKind = .segment ∧ info.toReg = false ∧ e.reg = 5

/-- The same instruction with `r15` for `rip`. -/
def onR15 (i : Insn) : Insn := { i with mem := { i.mem with base := some (.reg 15) } }

/-- What is copied is that instruction. -/
def Rewritten (e : Encoding) (info : OpInfo) (code : Nat → Byte) : Prop :=
  ∃ out, rewRIPInsn (entryID info.op) e.bytes.length (readsGS e info) code = some out ∧
    decode out = some (onR15 (e.insn info))

/-! ## Displacements -/

/-- The displacement that is copied behind the ModRM byte. -/
def rewDisp (d0 d1 d2 d3 : Byte) : List Byte :=
  if d0 = 0 ∧ d1 = 0 ∧ d2 = 0 ∧ d3 = 0 then []
  else if d0 ≠ 0 ∧ d1 = 0 ∧ d2 = 0 ∧ d3 = 0 then [d0]
  else [d0, d1, d2, d3]

/-- A displacement of one byte has no sign. -/
def DispFits (d0 d1 d2 d3 : Byte) : Prop := d1 = 0 → d2 = 0 → d3 = 0 → d0.toNat < 128

/-- A byte and the same byte with three zeroes above it are one number when it is not
negative as a byte. -/
theorem signed_single : ∀ d : Byte, signed [d] = signed [d, 0, 0, 0] ↔ d.toNat < 128 := by
  decide

/-- So the displacement that is copied is the one that was there exactly when it fits: a
byte of 0x80 or more is left with the wrong sign. -/
theorem signed_rewDisp_iff (d0 d1 d2 d3 : Byte) :
    signed (rewDisp d0 d1 d2 d3) = signed [d0, d1, d2, d3] ↔ DispFits d0 d1 d2 d3 := by
  rw [rewDisp, DispFits]
  by_cases hzero : d0 = 0 ∧ d1 = 0 ∧ d2 = 0 ∧ d3 = 0
  · obtain ⟨rfl, rfl, rfl, rfl⟩ := hzero
    decide
  · rw [if_neg hzero]
    by_cases hone : d0 ≠ 0 ∧ d1 = 0 ∧ d2 = 0 ∧ d3 = 0
    · rw [if_pos hone]
      obtain ⟨-, rfl, rfl, rfl⟩ := hone
      rw [signed_single]
      simp
    · rw [if_neg hone]
      refine iff_of_true rfl ?_
      rintro rfl rfl rfl
      by_cases h0 : d0 = 0
      · exact absurd ⟨h0, rfl, rfl, rfl⟩ hzero
      · exact absurd ⟨h0, rfl, rfl, rfl⟩ hone

/-- The three lengths that a displacement is copied with. -/
theorem length_rewDisp (d0 d1 d2 d3 : Byte) :
    (rewDisp d0 d1 d2 d3).length = 0 ∨ (rewDisp d0 d1 d2 d3).length = 1 ∨
      (rewDisp d0 d1 d2 d3).length = 4 := by
  rw [rewDisp]
  split
  · exact Or.inl rfl
  · split
    · exact Or.inr (Or.inl rfl)
    · exact Or.inr (Or.inr rfl)

/-- The three modes of `r15`, by the length of the displacement. -/
theorem modrm_or {reg : Nat} (hreg : reg < 8) (d d' : List Byte) :
    (d'.length = 0 → (Addressing.rip d).modrm reg ||| 0x02 = (Addressing.base 7 d').modrm reg) ∧
    (d'.length = 1 → (Addressing.rip d).modrm reg ||| 0x42 = (Addressing.base 7 d').modrm reg) ∧
    (d'.length = 4 → (Addressing.rip d).modrm reg ||| 0x82 = (Addressing.base 7 d').modrm reg) := by
  refine ⟨fun hd => ?_, fun hd => ?_, fun hd => ?_⟩
  · simp only [Addressing.modrm, Addressing.md, Addressing.rm, hd, if_true]
    interval_cases reg <;> decide
  · simp only [Addressing.modrm, Addressing.md, Addressing.rm, hd, if_true]
    interval_cases reg <;> decide
  · simp only [Addressing.modrm, Addressing.md, Addressing.rm, hd]
    interval_cases reg <;> decide

/-! ## Copies -/

/-- What is copied begins with the first byte. -/
theorem copyOut_succ (f : Nat → Byte) (n : Nat) :
    copyOut f (n + 1) = f 0 :: copyOut (fun i => f (i + 1)) n := by
  rw [copyOut, copyOut, List.range_succ_eq_map, List.map_cons, List.map_map]
  rfl

/-- A copy can be taken in two parts. -/
theorem copyOut_add (f : Nat → Byte) (m n : Nat) :
    copyOut f (m + n) = copyOut f m ++ copyOut (fun i => f (m + i)) n := by
  rw [copyOut, copyOut, copyOut, List.range_add, List.map_append, List.map_map]
  rfl

/-- What is copied with another ModRM byte. -/
theorem copyOut_orByte (f : Nat → Byte) (m n : Nat) (v : Byte) :
    copyOut (orByte f m v) (m + (n + 1))
      = copyOut f m ++ (f m ||| v) :: copyOut (fun i => f (m + 1 + i)) n := by
  rw [copyOut_add, copyOut_succ]
  have hfront : copyOut (orByte f m v) m = copyOut f m := by
    refine List.map_congr_left fun i hi => ?_
    have hlt : i < m := List.mem_range.1 hi
    exact Function.update_of_ne (by omega) _ _
  have hbehind : (fun i => orByte f m v (m + (i + 1))) = fun i => f (m + 1 + i) := by
    funext i
    rw [show m + 1 + i = m + (i + 1) by omega]
    exact Function.update_of_ne (by omega) _ _
  have hat : orByte f m v (m + 0) = f m ||| v := Function.update_self _ _ _
  rw [hfront, hbehind, hat]

/-- What is copied by the length of the displacement, when that is what stands
behind the ModRM byte. -/
theorem copyByDisp_eq {f : Nat → Byte} {m reg : Nat} {d : List Byte} (hreg : reg < 8)
    (hm : f m = (Addressing.rip d).modrm reg) :
    copyByDisp f m (m + 1) (m + 1) = copyOut f m ++
      (Addressing.base 7 (rewDisp (f (m + 1)) (f (m + 2)) (f (m + 3)) (f (m + 4)))).modrm reg ::
        rewDisp (f (m + 1)) (f (m + 2)) (f (m + 3)) (f (m + 4)) := by
  rw [copyByDisp, rewDisp]
  split
  · rw [copyOut_orByte f m 0, hm, (modrm_or hreg d []).1 rfl]
    rfl
  · split
    · rw [show m + 1 + 1 = m + (1 + 1) from rfl, copyOut_orByte f m 1, hm,
        (modrm_or hreg d [f (m + 1)]).2.1 rfl]
      rfl
    · rw [show m + 1 + 4 = m + (4 + 1) from rfl, copyOut_orByte f m 4, hm,
        (modrm_or hreg d [f (m + 1), f (m + 2), f (m + 3), f (m + 4)]).2.2 rfl]
      rfl

/-! ## The right layouts -/

/-- A `REX` prefix gives another meaning to four of the byte registers. -/
def KeepsReg (info : OpInfo) (reg : Nat) : Prop :=
  info.regKind = .general → info.byteSized = true → reg < 4

/-- The encoding with other prefixes and `r15` for `rip`. -/
def rewEncoding (e : Encoding) (prefixes : List Byte) (d0 d1 d2 d3 : Byte) : Encoding :=
  { e with prefixes := prefixes, addr := .base 7 (rewDisp d0 d1 d2 d3) }

/-- The state of the prefixes with a `REX` prefix put in. -/
def withRex (p : Prefixes) (r : Byte) : Prefixes := { p with rex := some r }

section Layout

variable {e : Encoding} {info : OpInfo} {d0 d1 d2 d3 : Byte}

/-- The size of the operands depends on `W` only. -/
theorem size_withRex {p : Prefixes} {r : Byte} (h : r.getLsbD 3 = p.rexBit 3) :
    info.size (withRex p r) = info.size p := by
  have hbit : (withRex p r).rexBit 3 = p.rexBit 3 := h
  rw [OpInfo.size, OpInfo.size, hbit]
  rfl

/-- A register operand stays what it was. -/
theorem register_withRex {p : Prefixes} {r : Byte} (h : r.getLsbD 2 = p.rexBit 2) (reg : Nat) :
    info.register (withRex p r) reg = info.register p reg ↔ (p.rex = none → KeepsReg info reg) := by
  have hext : (withRex p r).ext 2 = p.ext 2 := by
    rw [Prefixes.ext, Prefixes.ext, ← h]
    rfl
  have hrex : ¬ (info.byteSized = true ∧ (withRex p r).rex = none ∧ 4 ≤ reg) := by
    rintro ⟨-, hnone, -⟩
    exact absurd hnone (by simp [withRex])
  rw [OpInfo.register, OpInfo.register, KeepsReg]
  cases info.regKind with
  | extension => simp
  | segment => simp
  | general =>
    simp only [if_neg hrex, hext]
    by_cases hhigh : info.byteSized = true ∧ p.rex = none ∧ 4 ≤ reg
    · rw [if_pos hhigh]
      refine iff_of_false (by simp) fun hkeeps => ?_
      have hlt := hkeeps hhigh.2.1 trivial hhigh.1
      omega
    · rw [if_neg hhigh]
      refine iff_of_true rfl fun hnone _ hbyte => ?_
      by_contra hge
      exact hhigh ⟨hbyte, hnone, by omega⟩

/-- An encoding that was rewritten right is decoded to the same instruction
when the operand size, the register and the displacement are the same. -/
theorem decode_rewEncoding_iff (he : IsRipInsn e info d0 d1 d2 d3) {ps : List Byte} {r : Byte}
    (hps : ∀ b ∈ ps, isPrefix b = true)
    (hstate : ps.foldl Prefixes.add .empty = withRex e.state r) (hB : r.getLsbD 0 = true) :
    decode (rewEncoding e ps d0 d1 d2 d3).bytes = some (onR15 (e.insn info)) ↔
      info.size (withRex e.state r) = info.size e.state ∧
      info.register (withRex e.state r) e.reg = info.register e.state e.reg ∧
      DispFits d0 d1 d2 d3 := by
  have haddr : (rewEncoding e ps d0 d1 d2 d3).addr.Valid := by
    refine ⟨by omega, by omega, ?_⟩
    rcases length_rewDisp d0 d1 d2 d3 with hd | hd | hd
    · exact Or.inl ⟨hd, by omega⟩
    · exact Or.inr (Or.inl hd)
    · exact Or.inr (Or.inr hd)
  have hnew : (rewEncoding e ps d0 d1 d2 d3).state = withRex e.state r := hstate
  -- The bit B makes the base register `r15`.
  have hbase : 7 + (withRex e.state r).ext 0 = 15 := by
    have hext : (withRex e.state r).ext 0 = 8 := by
      rw [Prefixes.ext, show (withRex e.state r).rexBit 0 = true from hB]
      rfl
    rw [hext]
  have hknown : (rewEncoding e ps d0 d1 d2 d3).opcode.info (rewEncoding e ps d0 d1 d2 d3).reg
      = some info := he.valid.known
  have hreg : (rewEncoding e ps d0 d1 d2 d3).reg < 8 := he.valid.reg
  rw [Encoding.decode_bytes_of hps hknown hreg haddr, hnew, ← signed_rewDisp_iff]
  show (if e.imm.length = info.immLength (withRex e.state r) then _ else none) = _ ↔ _
  rw [he.valid.imm]
  have hinsn : (rewEncoding e ps d0 d1 d2 d3).insn info = onR15 (e.insn info) ↔
      info.size (withRex e.state r) = info.size e.state ∧
      info.register (withRex e.state r) e.reg = info.register e.state e.reg ∧
      signed (rewDisp d0 d1 d2 d3) = signed [d0, d1, d2, d3] := by
    rw [Encoding.insn, Encoding.insn, hnew, he.addr, OpInfo.insn, OpInfo.insn, onR15]
    simp only [Insn.mk.injEq, rewEncoding, Addressing.operand, MemOperand.mk.injEq, hbase]
    constructor
    · rintro ⟨-, -, -, -, hsize, -, hreg, ⟨-, -, -, -, hdisp⟩, -⟩
      exact ⟨hsize, hreg, hdisp⟩
    · rintro ⟨hsize, hreg, hdisp⟩
      exact ⟨trivial, rfl, rfl, rfl, hsize, trivial, hreg,
        ⟨rfl, rfl, trivial, trivial, hdisp⟩, rfl⟩
  -- The size of the operand decides the length of the immediate as well.
  by_cases hsize : info.size (withRex e.state r) = info.size e.state
  · have himm : info.immLength e.state = info.immLength (withRex e.state r) := by
      rw [OpInfo.immLength, OpInfo.immLength, hsize]
    rw [if_pos himm, Option.some.injEq, hinsn]
  · refine iff_of_false ?_ fun hright => hsize hright.1
    split
    · rw [Option.some.injEq, hinsn]
      exact fun hright => hsize hright.1
    · simp

/-- The bytes of such an instruction. -/
theorem IsRipInsn.bytes_eq (he : IsRipInsn e info d0 d1 d2 d3) :
    e.bytes = e.prefixes ++ (e.opcode.bytes ++
      (Addressing.rip [d0, d1, d2, d3]).modrm e.reg :: d0 :: d1 :: d2 :: d3 :: e.imm) := by
  rw [Encoding.bytes, he.addr]
  rfl

/-- What is copied by the length of the displacement, when no immediate follows
it. -/
theorem copyByDisp_bytes (he : IsRipInsn e info d0 d1 d2 d3) (himm : e.imm = [])
    {f : Nat → Byte} {m : Nat} {ps : List Byte} (hm : m = (ps ++ e.opcode.bytes).length)
    (hf : copyOut f (m + 5) = ps ++ e.opcode.bytes ++
      [(Addressing.rip [d0, d1, d2, d3]).modrm e.reg, d0, d1, d2, d3]) :
    copyByDisp f m (m + 1) (m + 1) = (rewEncoding e ps d0 d1 d2 d3).bytes := by
  rw [copyOut_add] at hf
  obtain ⟨hfront, hback⟩ := List.append_inj hf (by rw [copyOut, List.length_map,
    List.length_range, hm])
  simp only [copyOut, List.range_succ, List.range_zero, List.nil_append, List.cons_append,
    List.map_cons, List.map_nil, List.cons.injEq, and_true, Nat.add_zero] at hback
  obtain ⟨hmodrm, h0, h1, h2, h3⟩ := hback
  rw [copyByDisp_eq he.valid.reg hmodrm, hfront, h0, h1, h2, h3, Encoding.bytes]
  show _ = ps ++ (e.opcode.bytes ++ _ :: (rewDisp d0 d1 d2 d3 ++ e.imm))
  rw [himm, List.append_nil, List.append_assoc]
  rfl

/-- An instruction that is copied out is rewritten when the copy decodes to the instruction
on `r15`. -/
theorem rewritten_of_call {code : Nat → Byte} {bs : List Byte}
    (h : rewRIPInsn (entryID info.op) e.bytes.length (readsGS e info) code = some bs) :
    Rewritten e info code ↔ decode bs = some (onR15 (e.insn info)) := by
  rw [Rewritten, h]
  constructor
  · rintro ⟨out, hout, hdec⟩
    rw [Option.some.inj hout]
    exact hdec
  · exact fun hdec => ⟨bs, rfl, hdec⟩

/-- A layout with a `REX` prefix that has the bits of the one in effect. -/
theorem rewritten_of_layout (he : IsRipInsn e info d0 d1 d2 d3) {code : Nat → Byte}
    {ps : List Byte} {r : Byte}
    (hcall : rewRIPInsn (entryID info.op) e.bytes.length (readsGS e info) code
      = some (rewEncoding e ps d0 d1 d2 d3).bytes)
    (hps : ∀ b ∈ ps, isPrefix b = true)
    (hstate : ps.foldl Prefixes.add .empty = withRex e.state r) (hB : r.getLsbD 0 = true)
    (hR : r.getLsbD 2 = e.state.rexBit 2) (hW : r.getLsbD 3 = e.state.rexBit 3) :
    Rewritten e info code ↔
      (e.state.rex = none → KeepsReg info e.reg) ∧ DispFits d0 d1 d2 d3 := by
  rw [rewritten_of_call hcall, decode_rewEncoding_iff he hps hstate hB, register_withRex hR]
  exact and_iff_right (size_withRex hW)

end Layout

/-! ## The operations whose layout is chosen by the length -/

/-- The operations whose layout is guessed by the length of the instruction. -/
def ByLength : Op → Prop
  | .mov | .cmp | .lea | .add | .sub => True
  | _ => False

/-- What the function does with them where `gs` is not read: of seven bytes the first is
taken for a `REX` prefix, and of six the prefix is put in front. -/
theorem rewRIPInsn_byLength {op : Op} (hop : ByLength op) (size : Nat) (code : Nat → Byte) :
    rewRIPInsn (entryID op) size false code =
      if size = 7 then some (copyByDisp (orByte (memcpy (fun _ => 0) 0 code 0 8) 0 0x1) 2 3 3)
      else if size = 6 then
        some (copyByDisp (Function.update
          (memcpy (memcpy (fun _ => 0) 0 code 0 8) 1 code 0 6) 0 0x41) 2 3 3)
      else none := by
  cases op with
  | mov => rfl
  | cmp => rfl
  | lea => rfl
  | add => rfl
  | sub => rfl
  | and => exact hop.elim
  | xadd => exact hop.elim
  | test => exact hop.elim

/-- And where it is: only `mov` and `add` have a case, and of eight bytes the second is
taken for a `REX` prefix. -/
theorem rewRIPInsn_byLength_gs {op : Op} (hop : ByLength op) (size : Nat) (code : Nat → Byte) :
    rewRIPInsn (entryID op) size true code =
      if op = .mov ∨ op = .add then
        if size = 7 then
          some (copyByDisp (Function.update
            (memcpy (memcpy (fun _ => 0) 0 code 0 8) 2 code 1 6) 1 0x41) 3 4 4)
        else if size = 8 then
          some (copyByDisp (orByte (memcpy (fun _ => 0) 0 code 0 8) 1 0x1) 3 4 4)
        else none
      else none := by
  cases op with
  | mov => rfl
  | cmp => rfl
  | lea => rfl
  | add => rfl
  | sub => rfl
  | and => exact hop.elim
  | xadd => exact hop.elim
  | test => exact hop.elim

section Layouts

variable {e : Encoding} {info : OpInfo} {d0 d1 d2 d3 : Byte} {code : Nat → Byte} {b : Byte}

/-- A `REX` prefix with the bit of the base. -/
theorem isRex_or : ∀ r : Byte, isRex r = true → isRex (r ||| 0x1) = true ∧
    (r ||| 0x1).getLsbD 0 = true ∧ (r ||| 0x1).getLsbD 2 = r.getLsbD 2 ∧
    (r ||| 0x1).getLsbD 3 = r.getLsbD 3 := by
  decide

/-- A `REX` prefix takes the place of the one before. -/
theorem add_of_isRex {r : Byte} (hr : isRex r = true) (p : Prefixes) : p.add r = withRex p r := by
  rw [Prefixes.add, hr]
  rfl

/-- No byte is a prefix of both kinds. -/
theorem not_isRex_of_isLegacy : ∀ p : Byte, isLegacy p = true → isRex p = false := by decide

/-- A `REX` prefix is one. -/
theorem isPrefix_of_isRex {r : Byte} (hr : isRex r = true) : isPrefix r = true := by
  rw [isPrefix, hr]
  rfl

/-- Without prefixes: `41` in front. -/
theorem rewritten_bare (he : IsRipInsn e info d0 d1 d2 d3)
    (hcode : copyOut code e.bytes.length = e.bytes) (hop : ByLength info.op)
    (hone : e.opcode = .one b) (hgs : readsGS e info = false) (hps : e.prefixes = [])
    (himm : e.imm = []) :
    Rewritten e info code ↔ KeepsReg info e.reg ∧ DispFits d0 d1 d2 d3 := by
  have hbytes := he.bytes_eq
  rw [hps, hone, himm] at hbytes
  have hstate : e.state = .empty := by rw [Encoding.state, hps]; rfl
  rw [hbytes] at hcode
  simp [copyOut, List.range_succ, Opcode.bytes] at hcode
  have hcall : rewRIPInsn (entryID info.op) e.bytes.length (readsGS e info) code
      = some (rewEncoding e [0x41] d0 d1 d2 d3).bytes := by
    rw [hgs, rewRIPInsn_byLength hop, hbytes]
    refine congrArg some (copyByDisp_bytes he himm (by rw [hone]; rfl) ?_)
    simp [copyOut, List.range_succ, memcpy, Function.update, hone, Opcode.bytes, hcode]
  rw [rewritten_of_layout (r := 0x41) he hcall (by decide) (by rw [hstate]; decide) (by decide)
    (by rw [hstate]; decide) (by rw [hstate]; decide)]
  have hrex : e.state.rex = none := by rw [hstate]; rfl
  rw [forall_prop_of_true hrex]

/-- With a `REX` prefix only: the prefix gets the bit of the base. -/
theorem rewritten_rex (he : IsRipInsn e info d0 d1 d2 d3)
    (hcode : copyOut code e.bytes.length = e.bytes) (hop : ByLength info.op)
    (hone : e.opcode = .one b) (hgs : readsGS e info = false) {r : Byte} (hr : isRex r = true)
    (hps : e.prefixes = [r]) (himm : e.imm = []) :
    Rewritten e info code ↔ DispFits d0 d1 d2 d3 := by
  have hbytes := he.bytes_eq
  rw [hps, hone, himm] at hbytes
  have hstate : e.state = withRex .empty r := by
    rw [Encoding.state, hps, ← add_of_isRex hr]; rfl
  rw [hbytes] at hcode
  simp [copyOut, List.range_succ, Opcode.bytes] at hcode
  have hcall : rewRIPInsn (entryID info.op) e.bytes.length (readsGS e info) code
      = some (rewEncoding e [r ||| 0x1] d0 d1 d2 d3).bytes := by
    rw [hgs, rewRIPInsn_byLength hop, hbytes]
    refine congrArg some (copyByDisp_bytes he himm (by rw [hone]; rfl) ?_)
    simp [copyOut, List.range_succ, memcpy, orByte, Function.update, hone, Opcode.bytes, hcode]
  obtain ⟨hor, hB, hR, hW⟩ := isRex_or r hr
  rw [rewritten_of_layout he hcall (by simpa using isPrefix_of_isRex hor)
    (by rw [hstate]; exact add_of_isRex hor _) hB (by rw [hstate]; exact hR)
    (by rw [hstate]; exact hW)]
  have hrex : e.state.rex ≠ none := by rw [hstate]; simp [withRex]
  exact and_iff_right fun hnone => absurd hnone hrex

/-- Where an address is said to read `gs` its prefix is there, unless the register that is
moved is `gs` itself. -/
theorem seg_of_readsGS (h : readsGS e info = true) (hkind : info.regKind ≠ .segment) :
    e.state.seg = some .gs := by
  rw [readsGS, decide_eq_true_iff] at h
  exact h.resolve_right fun hseg => hkind hseg.1

/-- One prefix, that of `gs` when it is for an address. -/
theorem eq_of_readsGS (h : readsGS e info = true) (hkind : info.regKind ≠ .segment) {p : Byte}
    (hps : e.prefixes = [p]) : p = 0x65 := by
  have hseg := seg_of_readsGS h hkind
  rw [Encoding.state, hps] at hseg
  exact (Prefixes.seg_add hseg).resolve_right (by decide)

/-- With one prefix and `gs`: `41` behind it. -/
theorem rewritten_gsBare (he : IsRipInsn e info d0 d1 d2 d3)
    (hcode : copyOut code e.bytes.length = e.bytes) (hop : info.op = .mov ∨ info.op = .add)
    (hone : e.opcode = .one b) (hgs : readsGS e info = true) {p : Byte} (hps : e.prefixes = [p])
    (himm : e.imm = []) :
    Rewritten e info code ↔ KeepsReg info e.reg ∧ DispFits d0 d1 d2 d3 := by
  have hbytes := he.bytes_eq
  rw [hps, hone, himm] at hbytes
  have hstate : [p, 0x41].foldl Prefixes.add .empty = withRex e.state 0x41 := by
    rw [Encoding.state, hps]
    exact add_of_isRex (r := 0x41) (by decide) _
  have hby : ByLength info.op := by rcases hop with hop | hop <;> rw [hop] <;> trivial
  have hp : isPrefix p = true := he.valid.prefixes p (by rw [hps]; simp)
  rw [hbytes] at hcode
  simp [copyOut, List.range_succ, Opcode.bytes] at hcode
  have hcall : rewRIPInsn (entryID info.op) e.bytes.length (readsGS e info) code
      = some (rewEncoding e [p, 0x41] d0 d1 d2 d3).bytes := by
    rw [hgs, rewRIPInsn_byLength_gs hby, if_pos hop, hbytes]
    refine congrArg some (copyByDisp_bytes he himm (by rw [hone]; rfl) ?_)
    simp [copyOut, List.range_succ, memcpy, Function.update, hone, Opcode.bytes, hcode]
  by_cases hkind : info.regKind = .segment
  · -- no `REX` prefix changes a segment register
    rw [rewritten_of_call hcall, decode_rewEncoding_iff he
      (List.forall_mem_cons.2 ⟨hp, by decide⟩) hstate (by decide)]
    have hsize : info.size (withRex e.state 0x41) = info.size e.state := by
      rw [OpInfo.size, OpInfo.size, if_pos hkind, if_pos hkind]
    have hreg : info.register (withRex e.state 0x41) e.reg = info.register e.state e.reg := by
      rw [OpInfo.register, OpInfo.register, hkind]
    have hkeeps : KeepsReg info e.reg := fun h => absurd (h.symm.trans hkind) (by decide)
    rw [and_iff_right hsize, and_iff_right hreg, and_iff_right hkeeps]
  -- The operand is addressed through `gs`, so the one prefix is that of `gs`.
  · have hstate' : e.state = Prefixes.empty.add 0x65 := by
      rw [Encoding.state, hps, eq_of_readsGS hgs hkind hps]
      rfl
    rw [rewritten_of_layout (r := 0x41) he hcall (List.forall_mem_cons.2 ⟨hp, by decide⟩) hstate
      (by decide) (by rw [hstate']; decide) (by rw [hstate']; decide)]
    have hrex : e.state.rex = none := by rw [hstate']; rfl
    rw [forall_prop_of_true hrex]

/-- With another prefix, a `REX` prefix and `gs`. -/
theorem rewritten_gsRex (he : IsRipInsn e info d0 d1 d2 d3)
    (hcode : copyOut code e.bytes.length = e.bytes) (hop : info.op = .mov ∨ info.op = .add)
    (hone : e.opcode = .one b) (hgs : readsGS e info = true) {p r : Byte} (hr : isRex r = true)
    (hps : e.prefixes = [p, r]) (himm : e.imm = []) :
    Rewritten e info code ↔ DispFits d0 d1 d2 d3 := by
  have hbytes := he.bytes_eq
  rw [hps, hone, himm] at hbytes
  have hstate : e.state = withRex (Prefixes.empty.add p) r := by
    rw [Encoding.state, hps, ← add_of_isRex hr]; rfl
  have hby : ByLength info.op := by rcases hop with hop | hop <;> rw [hop] <;> trivial
  have hp : isPrefix p = true := he.valid.prefixes p (by rw [hps]; simp)
  rw [hbytes] at hcode
  simp [copyOut, List.range_succ, Opcode.bytes] at hcode
  have hcall : rewRIPInsn (entryID info.op) e.bytes.length (readsGS e info) code
      = some (rewEncoding e [p, r ||| 0x1] d0 d1 d2 d3).bytes := by
    rw [hgs, rewRIPInsn_byLength_gs hby, if_pos hop, hbytes]
    refine congrArg some (copyByDisp_bytes he himm (by rw [hone]; rfl) ?_)
    simp [copyOut, List.range_succ, memcpy, orByte, Function.update, hone, Opcode.bytes, hcode]
  obtain ⟨hor, hB, hR, hW⟩ := isRex_or r hr
  rw [rewritten_of_layout he hcall
    (List.forall_mem_cons.2 ⟨hp, by simpa using isPrefix_of_isRex hor⟩)
    (by rw [hstate]; exact add_of_isRex hor _) hB (by rw [hstate]; exact hR)
    (by rw [hstate]; exact hW)]
  have hrex : e.state.rex ≠ none := by rw [hstate]; simp [withRex]
  exact and_iff_right fun hnone => absurd hnone hrex

/-- An opcode with an immediate names its operation in the `reg` field, so there is no
register to go wrong. -/
theorem IsRipInsn.regKind (he : IsRipInsn e info d0 d1 d2 d3) (hone : e.opcode = .one b)
    (himm : e.imm ≠ []) : info.regKind = .extension := by
  have hknown := he.valid.known
  rw [hone] at hknown
  refine regKind_of_imm hknown fun hnone => himm ?_
  have hlen := he.valid.imm
  rw [OpInfo.immLength, hnone] at hlen
  exact List.length_eq_zero_iff.1 hlen

/-- A displacement whose second byte is not zero is copied whole. -/
theorem rewDisp_of_ne (h1 : d1 ≠ 0) : rewDisp d0 d1 d2 d3 = [d0, d1, d2, d3] := by
  rw [rewDisp, if_neg (fun h => h1 h.2.1), if_neg (fun h => h1 h.2.1)]

/-- What is copied with four bytes of displacement. -/
theorem copyOut_bytes (he : IsRipInsn e info d0 d1 d2 d3) (h1 : d1 ≠ 0) {f : Nat → Byte} {m : Nat}
    {ps : List Byte} (hm : m = (ps ++ e.opcode.bytes).length)
    (hf : copyOut f (m + (4 + e.imm.length + 1)) = ps ++ e.opcode.bytes ++
      ((Addressing.rip [d0, d1, d2, d3]).modrm e.reg :: d0 :: d1 :: d2 :: d3 :: e.imm)) :
    copyOut (orByte f m 0x82) (m + (4 + e.imm.length + 1))
      = (rewEncoding e ps d0 d1 d2 d3).bytes := by
  rw [copyOut_add, copyOut_succ] at hf
  obtain ⟨hfront, hback⟩ := List.append_inj hf (by rw [copyOut, List.length_map,
    List.length_range, hm])
  obtain ⟨hmodrm, hrest⟩ := List.cons.inj hback
  have hrest' : copyOut (fun i => f (m + 1 + i)) (4 + e.imm.length)
      = [d0, d1, d2, d3] ++ e.imm := by
    show _ = d0 :: d1 :: d2 :: d3 :: e.imm
    rw [← hrest]
    refine congrArg (copyOut · _) (funext fun i => ?_)
    rw [show m + 1 + i = m + (i + 1) by omega]
  rw [copyOut_orByte, hfront, hrest', show f m = _ from hmodrm,
    (modrm_or he.valid.reg _ [d0, d1, d2, d3]).2.2 rfl, Encoding.bytes]
  show _ = ps ++ (e.opcode.bytes ++ (Addressing.base 7 (rewDisp d0 d1 d2 d3)).modrm e.reg ::
    (rewDisp d0 d1 d2 d3 ++ e.imm))
  rw [rewDisp_of_ne h1, List.append_assoc]

/-- Where nothing is copied nothing is rewritten. -/
theorem not_rewritten_of_none
    (h : rewRIPInsn (entryID info.op) e.bytes.length (readsGS e info) code = none) :
    ¬ Rewritten e info code := by
  rintro ⟨out, hout, -⟩
  rw [h] at hout
  exact absurd hout (by simp)

/-- `and` with an immediate of four bytes: `41` behind the prefix of `gs`. -/
theorem rewritten_gsAnd (he : IsRipInsn e info d0 d1 d2 d3)
    (hcode : copyOut code e.bytes.length = e.bytes) (hop : info.op = .and)
    (hone : e.opcode = .one b) (hps : e.prefixes = [0x65]) (himm : e.imm.length = 4) :
    Rewritten e info code ↔ d0 ≠ 0 ∧ d1 ≠ 0 ∧ d2 ≠ 0 := by
  have hstate : e.state = Prefixes.empty.add 0x65 := by rw [Encoding.state, hps]; rfl
  have hgs : readsGS e info = true := decide_eq_true (Or.inl (by rw [hstate]; rfl))
  have hkind := he.regKind hone (List.ne_nil_of_length_eq_add_one himm)
  obtain ⟨i0, i1, i2, i3, hi⟩ : ∃ i0 i1 i2 i3, e.imm = [i0, i1, i2, i3] :=
    List.length_eq_four.1 himm
  have hbytes := he.bytes_eq
  rw [hps, hone, hi] at hbytes
  rw [hbytes] at hcode
  simp [copyOut, List.range_succ, Opcode.bytes] at hcode
  -- The code asserts that the low three bytes of the displacement are not zero.
  by_cases hd : d0 ≠ 0 ∧ d1 ≠ 0 ∧ d2 ≠ 0
  · have hcall : rewRIPInsn (entryID info.op) e.bytes.length (readsGS e info) code
        = some (rewEncoding e [0x65, 0x41] d0 d1 d2 d3).bytes := by
      rw [hgs, hop, hbytes, ← copyOut_bytes he hd.2.1 (m := 3)
        (f := Function.update (memcpy (memcpy (fun _ => 0) 0 code 0 1) 2 code 1 10) 1 0x41)
        (by rw [hone]; rfl)
        (by simp [hi, copyOut, List.range_succ, memcpy, Function.update, hone, Opcode.bytes,
          hcode]), himm]
      exact if_pos (by simpa [memcpy, Function.update, hcode] using hd)
    rw [rewritten_of_layout (r := 0x41) he hcall (by decide) (by rw [hstate]; decide) (by decide)
      (by rw [hstate]; decide) (by rw [hstate]; decide)]
    refine iff_of_true ⟨fun _ hgeneral => ?_, fun h1 => absurd h1 hd.2.1⟩ hd
    rw [hkind] at hgeneral
    exact absurd hgeneral (by decide)
  · refine iff_of_false (not_rewritten_of_none ?_) hd
    rw [hgs, hop, hbytes]
    exact if_neg (by simpa [memcpy, Function.update, hcode] using hd)

/-- `xadd`: `41` behind the one prefix. -/
theorem rewritten_oneXadd (he : IsRipInsn e info d0 d1 d2 d3)
    (hcode : copyOut code e.bytes.length = e.bytes) (hop : info.op = .xadd)
    (htwo : e.opcode = .two b) {p : Byte} (hp : isPrefix p = true) (hps : e.prefixes = [p])
    (himm : e.imm = []) :
    Rewritten e info code ↔ (d0 ≠ 0 ∧ d1 ≠ 0 ∧ d2 ≠ 0) ∧
      info.size (withRex e.state 0x41) = info.size e.state ∧
      info.register (withRex e.state 0x41) e.reg = info.register e.state e.reg := by
  have hstate : [p, 0x41].foldl Prefixes.add .empty = withRex e.state 0x41 := by
    rw [Encoding.state, hps]
    exact add_of_isRex (r := 0x41) (by decide) _
  have hbytes := he.bytes_eq
  rw [hps, htwo, himm] at hbytes
  rw [hbytes] at hcode
  simp [copyOut, List.range_succ, Opcode.bytes] at hcode
  -- The same assertion as for `and`.
  by_cases hd : d0 ≠ 0 ∧ d1 ≠ 0 ∧ d2 ≠ 0
  · have hcall : rewRIPInsn (entryID info.op) e.bytes.length (readsGS e info) code
        = some (rewEncoding e [p, 0x41] d0 d1 d2 d3).bytes := by
      rw [hop, hbytes, ← copyOut_bytes he hd.2.1 (m := 4)
        (f := Function.update (memcpy (memcpy (fun _ => 0) 0 code 0 1) 2 code 1 7) 1 0x41)
        (by rw [htwo]; rfl)
        (by simp [himm, copyOut, List.range_succ, memcpy, Function.update, htwo, Opcode.bytes,
          hcode]), himm]
      exact if_pos (by simpa [memcpy, Function.update, hcode] using hd)
    rw [rewritten_of_call hcall, decode_rewEncoding_iff he
      (List.forall_mem_cons.2 ⟨hp, by decide⟩) hstate (by decide), and_iff_right hd]
    have hdisp : DispFits d0 d1 d2 d3 := fun h1 => absurd h1 hd.2.1
    simp only [hdisp, and_true]
  · refine iff_of_false (not_rewritten_of_none ?_) fun h => hd h.1
    rw [hop, hbytes]
    exact if_neg (by simpa [memcpy, Function.update, hcode] using hd)

/-- A legacy prefix keeps its meaning. -/
theorem rewritten_xadd (he : IsRipInsn e info d0 d1 d2 d3)
    (hcode : copyOut code e.bytes.length = e.bytes) (hop : info.op = .xadd)
    (htwo : e.opcode = .two b) {p : Byte} (hp : isLegacy p = true) (hps : e.prefixes = [p])
    (himm : e.imm = []) :
    Rewritten e info code ↔ KeepsReg info e.reg ∧ d0 ≠ 0 ∧ d1 ≠ 0 ∧ d2 ≠ 0 := by
  have hprefix : isPrefix p = true := by rw [isPrefix, hp, Bool.or_true]
  have hnot : isRex p = false := not_isRex_of_isLegacy p hp
  have hstate : e.state = Prefixes.empty.add p := by rw [Encoding.state, hps]; rfl
  have hrex : e.state.rex = none := by rw [hstate, Prefixes.rex_add hnot]
  have hbit : ∀ i, e.state.rexBit i = false := by
    intro i
    rw [Prefixes.rexBit, hrex]
    rfl
  rw [rewritten_oneXadd he hcode hop htwo hprefix hps himm, register_withRex (by rw [hbit]; decide),
    forall_prop_of_true hrex]
  have hsize : info.size (withRex e.state 0x41) = info.size e.state :=
    size_withRex (by rw [hbit]; decide)
  rw [and_iff_right hsize, and_comm]

/-- Another `REX` prefix takes its place: of the bits of the first none is
left. -/
theorem rewritten_xaddRex (he : IsRipInsn e info d0 d1 d2 d3)
    (hcode : copyOut code e.bytes.length = e.bytes) (hop : info.op = .xadd)
    (htwo : e.opcode = .two b) {r : Byte} (hr : isRex r = true) (hps : e.prefixes = [r])
    (himm : e.imm = []) :
    Rewritten e info code ↔ r.getLsbD 2 = false ∧
      (info.byteSized = true ∨ r.getLsbD 3 = false) ∧ d0 ≠ 0 ∧ d1 ≠ 0 ∧ d2 ≠ 0 := by
  have hstate : e.state = withRex .empty r := by
    rw [Encoding.state, hps, ← add_of_isRex hr]; rfl
  have hknown := he.valid.known
  rw [htwo] at hknown
  obtain ⟨-, hkind, -⟩ := twoByte_eq hknown
  rw [rewritten_oneXadd he hcode hop htwo (isPrefix_of_isRex hr) hps himm, hstate]
  -- The new prefix takes the place of the old one, with W and R clear.
  have hsize : info.size (withRex (withRex .empty r) 0x41) = info.size (withRex .empty r) ↔
      info.byteSized = true ∨ r.getLsbD 3 = false := by
    simp only [OpInfo.size, hkind, Prefixes.rexBit, withRex, Option.map_some, Option.getD_some]
    by_cases hbyte : info.byteSized = true <;> by_cases hW : r.getLsbD 3 = true <;>
      simp [hbyte, hW, Prefixes.empty]
  have hreg : info.register (withRex (withRex .empty r) 0x41) e.reg
      = info.register (withRex .empty r) e.reg ↔ r.getLsbD 2 = false := by
    simp only [OpInfo.register, hkind, Prefixes.ext, Prefixes.rexBit, withRex, Option.map_some,
      Option.getD_some]
    by_cases hR : r.getLsbD 2 = true <;> simp [hR]
  rw [hsize, hreg]
  constructor
  · rintro ⟨hd, hW, hR⟩
    exact ⟨hR, hW, hd⟩
  · rintro ⟨hR, hW, hd⟩
    exact ⟨hd, hW, hR⟩

/-! ### `test` -/

/-- `41` and the opcode, with another displacement and one byte behind it. -/
def testEncoding (e : Encoding) (d : List Byte) (y : Byte) : Encoding :=
  { e with prefixes := [0x41], addr := .base 7 d, imm := [y] }

/-- The four bytes that decide start one behind the displacement. -/
def testDisp (d0 d1 d2 d3 y : Byte) : List Byte × Byte :=
  if d1 = 0 ∧ d2 = 0 ∧ d3 = 0 ∧ y = 0 then ([], d0)
  else if d1 ≠ 0 ∧ d2 = 0 ∧ d3 = 0 ∧ y = 0 then ([d0], d1)
  else ([d0, d1, d2, d3], y)

/-- What is copied of a `test`: the mode is decided by the bytes one behind the
displacement. -/
theorem copyByDisp_test {f : Nat → Byte} {reg : Nat} (hreg : reg < 8)
    (hm : f 2 = (Addressing.rip [d0, d1, d2, d3]).modrm reg) (h0 : f 3 = d0) (h1 : f 4 = d1)
    (h2 : f 5 = d2) (h3 : f 6 = d3) :
    copyByDisp f 2 4 4 = copyOut f 2 ++
      (Addressing.base 7 (testDisp d0 d1 d2 d3 (f 7)).1).modrm reg ::
        ((testDisp d0 d1 d2 d3 (f 7)).1 ++ [(testDisp d0 d1 d2 d3 (f 7)).2]) := by
  subst h0 h1 h2 h3
  rw [copyByDisp, testDisp]
  split
  · rw [copyOut_orByte f 2 1, hm, (modrm_or hreg _ []).1 rfl]
    rfl
  · split
    · rw [copyOut_orByte f 2 2, hm, (modrm_or hreg _ [f 3]).2.1 rfl]
      rfl
    · rw [copyOut_orByte f 2 5, hm, (modrm_or hreg _ [f 3, f 4, f 5, f 6]).2.2 rfl]
      rfl

/-- The three lengths that its displacement is copied with. -/
theorem length_testDisp (y : Byte) : (testDisp d0 d1 d2 d3 y).1.length = 0 ∨
    (testDisp d0 d1 d2 d3 y).1.length = 1 ∨ (testDisp d0 d1 d2 d3 y).1.length = 4 := by
  rw [testDisp]
  split
  · exact Or.inl rfl
  · split
    · exact Or.inr (Or.inl rfl)
    · exact Or.inr (Or.inr rfl)

/-- A byte is zero as a signed number only when it is zero. -/
theorem signed_single_eq_zero : ∀ x : Byte, signed [x] = signed [0] → x = 0 := by decide

/-- Displacement and immediate are right unless the upper bytes of the one and
the other are zero. -/
theorem signed_testDisp_iff (i : Byte) :
    signed (testDisp d0 d1 d2 d3 i).1 = signed [d0, d1, d2, d3] ∧
      signed [(testDisp d0 d1 d2 d3 i).2] = signed [i] ↔
      (d2 = 0 → d3 = 0 → i = 0 → d0 = 0 ∧ d1 = 0) := by
  rw [testDisp]
  by_cases hzero : d1 = 0 ∧ d2 = 0 ∧ d3 = 0 ∧ i = 0
  · rw [if_pos hzero]
    obtain ⟨rfl, rfl, rfl, rfl⟩ := hzero
    constructor
    · exact fun h _ _ _ => ⟨signed_single_eq_zero d0 h.2, rfl⟩
    · intro h
      obtain rfl := (h rfl rfl rfl).1
      decide
  · rw [if_neg hzero]
    by_cases hone : d1 ≠ 0 ∧ d2 = 0 ∧ d3 = 0 ∧ i = 0
    · rw [if_pos hone]
      obtain ⟨hd1, rfl, rfl, rfl⟩ := hone
      exact iff_of_false (fun h => hd1 (signed_single_eq_zero d1 h.2))
        fun h => hd1 (h rfl rfl rfl).2
    · rw [if_neg hone]
      refine iff_of_true ⟨rfl, rfl⟩ fun h2 h3 hi => ?_
      by_cases h1 : d1 = 0
      · exact absurd ⟨h1, h2, h3, hi⟩ hzero
      · exact absurd ⟨h1, h2, h3, hi⟩ hone

/-- The copy of a `test` is decoded when its immediate has one byte, since one byte of it is
copied. -/
theorem decode_testEncoding (he : IsRipInsn e info d0 d1 d2 d3) (hps : e.prefixes = [])
    {d : List Byte} (hd : d.length = 0 ∨ d.length = 1 ∨ d.length = 4) (z : Byte) :
    decode (testEncoding e d z).bytes
      = if 1 = e.imm.length then some ((testEncoding e d z).insn info) else none := by
  have haddr : (testEncoding e d z).addr.Valid := by
    refine ⟨by omega, by omega, ?_⟩
    rcases hd with hd | hd | hd
    · exact Or.inl ⟨hd, by omega⟩
    · exact Or.inr (Or.inl hd)
    · exact Or.inr (Or.inr hd)
  have hknown : (testEncoding e d z).opcode.info (testEncoding e d z).reg = some info :=
    he.valid.known
  have hstate : e.state = .empty := by rw [Encoding.state, hps]; rfl
  have himm : info.immLength (testEncoding e d z).state = e.imm.length := by
    have hsize : info.size (withRex .empty 0x41) = info.size .empty := size_withRex (by decide)
    rw [he.valid.imm, hstate, show (testEncoding e d z).state = withRex .empty 0x41 from rfl,
      OpInfo.immLength, OpInfo.immLength, hsize]
  rw [Encoding.decode_bytes_of (e := testEncoding e d z)
    (show ∀ b ∈ [0x41], isPrefix b = true by decide) hknown he.valid.reg haddr, himm]
  rfl

/-- With an immediate of one byte. -/
theorem insn_testEncoding_iff (he : IsRipInsn e info d0 d1 d2 d3) (hps : e.prefixes = [])
    (hkind : info.regKind = .extension) {i : Byte} (hi : e.imm = [i]) (d : List Byte) (z : Byte) :
    (testEncoding e d z).insn info = onR15 (e.insn info) ↔
      signed d = signed [d0, d1, d2, d3] ∧ signed [z] = signed [i] := by
  have hstate : e.state = .empty := by rw [Encoding.state, hps]; rfl
  have hnew : (testEncoding e d z).state = withRex .empty 0x41 := rfl
  have hsize : info.size (withRex .empty 0x41) = info.size .empty := size_withRex (by decide)
  have hreg : ∀ p, info.register p e.reg = none := fun p => by rw [OpInfo.register, hkind]
  have hbase : 7 + (withRex .empty 0x41).ext 0 = 15 := by decide
  rw [Encoding.insn, Encoding.insn, hnew, hstate, he.addr, OpInfo.insn, OpInfo.insn, onR15]
  simp only [Insn.mk.injEq, testEncoding, Addressing.operand, MemOperand.mk.injEq, hbase, hsize,
    hreg, hi, Option.some.injEq, if_false, true_and, List.cons_ne_nil]
  constructor
  · rintro ⟨-, -, -, ⟨-, -, hdisp⟩, himm⟩
    exact ⟨hdisp, himm⟩
  · rintro ⟨hdisp, himm⟩
    exact ⟨rfl, rfl, rfl, ⟨rfl, rfl, hdisp⟩, himm⟩

/-- Behind the opcode of a `test` without prefixes one byte is left for the
immediate. -/
theorem rewritten_test (he : IsRipInsn e info d0 d1 d2 d3)
    (hcode : copyOut code e.bytes.length = e.bytes) (hop : info.op = .test)
    (hone : e.opcode = .one b) (hps : e.prefixes = []) :
    Rewritten e info code ↔
      ∃ i, e.imm = [i] ∧ (d2 = 0 → d3 = 0 → i = 0 → d0 = 0 ∧ d1 = 0) := by
  have hbytes := he.bytes_eq
  rw [hps, hone] at hbytes
  have hlen : e.bytes.length = 6 + e.imm.length := by
    rw [hbytes]
    simp only [Opcode.bytes, List.nil_append, List.cons_append, List.length_cons]
    omega
  rw [hlen, copyOut_add, hbytes] at hcode
  have hsplit : copyOut code 6 ++ copyOut (fun i => code (6 + i)) e.imm.length
      = [b, (Addressing.rip [d0, d1, d2, d3]).modrm e.reg, d0, d1, d2, d3] ++ e.imm := hcode
  obtain ⟨hfront, hback⟩ := List.append_inj hsplit (by simp [copyOut])
  simp [copyOut, List.range_succ] at hfront
  obtain ⟨c0, c1, c2, c3, c4, c5⟩ := hfront
  have hcall : rewRIPInsn (entryID info.op) e.bytes.length (readsGS e info) code = some
      (testEncoding e (testDisp d0 d1 d2 d3 (code 6)).1
        (testDisp d0 d1 d2 d3 (code 6)).2).bytes := by
    rw [hop]
    show some (copyByDisp _ 2 4 4) = _
    rw [copyByDisp_test he.valid.reg c1 c2 c3 c4 c5, Encoding.bytes]
    simp [copyOut, List.range_succ, memcpy, Function.update, testEncoding, hone, Opcode.bytes,
      Addressing.disp, c0]
  rw [rewritten_of_call hcall, decode_testEncoding he hps (length_testDisp _)]
  -- The copy has room for one byte of the immediate.
  by_cases hi : 1 = e.imm.length
  · obtain ⟨i, hi'⟩ := List.length_eq_one_iff.1 hi.symm
    have hkind := he.regKind hone (by rw [hi']; simp)
    have c6 : code 6 = i := by
      rw [hi'] at hback
      simpa [copyOut] using hback
    rw [if_pos hi, Option.some.injEq, insn_testEncoding_iff he hps hkind hi', c6,
      signed_testDisp_iff]
    constructor
    · exact fun h => ⟨i, hi', h⟩
    · rintro ⟨j, hj, h⟩
      obtain rfl : i = j := by simpa [hi'] using hj
      exact h
  · rw [if_neg hi]
    refine iff_of_false (by simp) ?_
    rintro ⟨i, h, -⟩
    exact hi (by rw [h]; rfl)

end Layouts

end KRover
