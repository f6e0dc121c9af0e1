import KRover.Lib.Bytes
import Mathlib.Tactic.IntervalCases

/-! # x86-64 instructions with a memory operand

Prefixes, opcode, ModRM byte, displacement and immediate of an instruction in
64-bit mode, for the operations on general registers that follow.

* `decode`: one instruction that fills a string of bytes;
* `Encoding.decode_bytes_of`: every encoding is decoded to what it stands for, when its
  immediate has the length that the prefixes ask for;
* `base_lt_of_decode`: the upper eight registers are bases under a `REX`
  prefix only;
* `op_of_decode`: the first byte behind the prefixes decides the operation;
* `base_of_decode_rip`: a ModRM byte for `rip` decides the base.
-/

set_option autoImplicit false

namespace X86

/-- Machine code is a string of bytes. -/
abbrev Byte := BitVec 8

/-! ## Prefixes -/

/-- The segments whose bases are added in 64-bit mode. -/
inductive SegReg where
  | fs | gs
deriving DecidableEq, Repr

/-- The prefixes in front of an opcode, each of which may be there or not. Of the segments
the last one counts, and of the others it does not matter how often they are there. -/
structure Prefixes where
  opSize : Bool
  addrSize : Bool
  lock : Bool
  repne : Bool
  rep : Bool
  seg : Option SegReg
  rex : Option Byte
deriving DecidableEq, Repr

/-- Before the first byte is read there is no prefix. -/
def Prefixes.empty : Prefixes := ⟨false, false, false, false, false, none, none⟩

/-- The sixteen `REX` prefixes of 64-bit mode, 40 to 4f. -/
def isRex (b : Byte) : Bool := b.toNat / 16 = 4

/-- The prefixes of all modes: sizes, lock, repetition and segments. `cs`, `ds`, `es` and
`ss` are prefixes without an effect in 64-bit mode. -/
def isLegacy (b : Byte) : Bool :=
  [0x66, 0x67, 0xf0, 0xf2, 0xf3, 0x2e, 0x36, 0x3e, 0x26, 0x64, 0x65].contains b.toNat

/-- The bytes that cannot be an opcode. -/
def isPrefix (b : Byte) : Bool := isRex b || isLegacy b

/-- One more prefix. A `REX` prefix counts right before the opcode only. -/
def Prefixes.add (p : Prefixes) (b : Byte) : Prefixes :=
  if isRex b then { p with rex := some b }
  else
    let p := { p with rex := none }
    match b.toNat with
    | 0x66 => { p with opSize := true }
    | 0x67 => { p with addrSize := true }
    | 0xf0 => { p with lock := true }
    | 0xf2 => { p with repne := true }
    | 0xf3 => { p with rep := true }
    | 0x64 => { p with seg := some .fs }
    | 0x65 => { p with seg := some .gs }
    | _ => p

/-- The prefixes at the head of a string, and the rest of it. -/
def scanPrefixes (p : Prefixes) : List Byte → Prefixes × List Byte
  | [] => (p, [])
  | b :: bs => if isPrefix b then scanPrefixes (p.add b) bs else (p, b :: bs)

namespace Prefixes

/-- A bit of the `REX` prefix: 0 is `B`, 1 is `X`, 2 is `R` and 3 is `W`. -/
def rexBit (p : Prefixes) (i : Nat) : Bool := (p.rex.map (·.getLsbD i)).getD false

/-- What a bit of the `REX` prefix adds to the number of a register. -/
def ext (p : Prefixes) (i : Nat) : Nat := if p.rexBit i then 8 else 0

end Prefixes

/-! ## Opcodes -/

/-- The operations that can have an operand relative to `rip` and are rewritten. -/
inductive Op where
  | mov | cmp | lea | add | sub | and | xadd | test
deriving DecidableEq, Repr

/-- A byte, or a byte behind `0f`. -/
inductive Opcode where
  | one (b : Byte)
  | two (b : Byte)
deriving DecidableEq, Repr

/-- What the `reg` field of the ModRM byte names. -/
inductive RegKind where
  | general | segment | extension
deriving DecidableEq, Repr

/-- No immediate, one byte, or as many as the operand has, up to four. -/
inductive ImmKind where
  | none | byte | full
deriving DecidableEq, Repr

/-- What an opcode stands for: the operation, whether it is one on bytes, whether the
register is the destination, what the `reg` field names, and the kind of immediate. -/
structure OpInfo where
  op : Op
  byteSized : Bool
  toReg : Bool
  regKind : RegKind
  imm : ImmKind
deriving DecidableEq, Repr

/-- The four opcodes of an operation between a register and a register or
memory. -/
def regForm (op : Op) (n : Nat) : OpInfo := ⟨op, n % 2 = 0, n / 2 % 2 = 1, .general, .none⟩

/-- The operations of the first group of immediate opcodes. -/
def group1 : Nat → Option Op
  | 0 => some .add
  | 4 => some .and
  | 5 => some .sub
  | 7 => some .cmp
  | _ => none

/-- The opcodes of one byte. Those with an immediate take their operation from the `reg`
field. -/
def oneByte (n reg : Nat) : Option OpInfo :=
  match n with
  | 0x00 | 0x01 | 0x02 | 0x03 => some (regForm .add n)
  | 0x20 | 0x21 | 0x22 | 0x23 => some (regForm .and n)
  | 0x28 | 0x29 | 0x2a | 0x2b => some (regForm .sub n)
  | 0x38 | 0x39 | 0x3a | 0x3b => some (regForm .cmp n)
  | 0x80 => (group1 reg).map fun op => ⟨op, true, false, .extension, .byte⟩
  | 0x81 => (group1 reg).map fun op => ⟨op, false, false, .extension, .full⟩
  | 0x83 => (group1 reg).map fun op => ⟨op, false, false, .extension, .byte⟩
  | 0x84 | 0x85 => some ⟨.test, n % 2 = 0, false, .general, .none⟩
  | 0x88 | 0x89 | 0x8a | 0x8b => some (regForm .mov n)
  | 0x8c => some ⟨.mov, false, false, .segment, .none⟩
  | 0x8d => some ⟨.lea, false, true, .general, .none⟩
  | 0x8e => some ⟨.mov, false, true, .segment, .none⟩
  | 0xc6 => if reg = 0 then some ⟨.mov, true, false, .extension, .byte⟩ else none
  | 0xc7 => if reg = 0 then some ⟨.mov, false, false, .extension, .full⟩ else none
  | 0xf6 => if reg = 0 then some ⟨.test, true, false, .extension, .byte⟩ else none
  | 0xf7 => if reg = 0 then some ⟨.test, false, false, .extension, .full⟩ else none
  | _ => none

/-- The opcodes behind `0f`, of which `xadd` is the only one. -/
def twoByte (n : Nat) : Option OpInfo :=
  match n with
  | 0xc0 | 0xc1 => some ⟨.xadd, n % 2 = 0, false, .general, .none⟩
  | _ => none

namespace Opcode

/-- What an opcode stands for. The `reg` field of the ModRM byte decides for some. -/
def info : Opcode → Nat → Option OpInfo
  | .one b, reg => oneByte b.toNat reg
  | .two b, _ => twoByte b.toNat

/-- The bytes of an opcode. -/
def bytes : Opcode → List Byte
  | .one b => [b]
  | .two b => [0x0f, b]

end Opcode

/-- The opcode at the head of a string, and the rest of it. -/
def takeOpcode : List Byte → Option (Opcode × List Byte)
  | [] => none
  | b :: bs =>
    if b = 0x0f then
      match bs with
      | [] => none
      | b :: bs => some (.two b, bs)
    else some (.one b, bs)

/-! ## Operands -/

/-- A register operand. Without a `REX` prefix four of the byte registers are
second bytes. -/
inductive RegOperand where
  | general (n : Nat)
  | highByte (n : Nat)
  | segment (n : Nat)
deriving DecidableEq, Repr

namespace OpInfo

/-- The size of the operands in bytes. -/
def size (info : OpInfo) (p : Prefixes) : Nat :=
  if info.byteSized then 1
  else if info.regKind = .segment then 2
  else if p.rexBit 3 then 8
  else if p.opSize then 2
  else 4

/-- The number of bytes of the immediate. A full one has at most four, so that of an
eight-byte operand is extended. -/
def immLength (info : OpInfo) (p : Prefixes) : Nat :=
  match info.imm with
  | .none => 0
  | .byte => 1
  | .full => if info.size p = 2 then 2 else 4

/-- The operand that the `reg` field names, if it is one. In byte operations the numbers 4
to 7 are `ah` to `bh` without a `REX` prefix, and `spl` to `dil` with one. -/
def register (info : OpInfo) (p : Prefixes) (reg : Nat) : Option RegOperand :=
  match info.regKind with
  | .extension => none
  | .segment => some (.segment reg)
  | .general =>
    if info.byteSized ∧ p.rex = none ∧ 4 ≤ reg then some (.highByte (reg - 4))
    else some (.general (reg + p.ext 2))

end OpInfo

/-- The base of an address: the next instruction or a register. -/
inductive AddrBase where
  | rip
  | reg (n : Nat)
deriving DecidableEq, Repr

/-- A memory operand: the segment whose base is added, whether addresses are cut to 32 bits,
base, scaled index, and displacement. -/
structure MemOperand where
  seg : Option SegReg
  addrSize : Bool
  base : Option AddrBase
  index : Option (Nat × Nat)
  disp : BitVec 64
deriving DecidableEq, Repr

/-- A string of bytes as a signed number. -/
def signed (bs : List Byte) : BitVec 64 :=
  (BitVec.ofNat (8 * bs.length) (Bytes.ofBytes bs)).signExtend 64

/-- A displacement of `n` bytes, as a signed number, and the rest of the string. -/
def takeDisp (n : Nat) (bs : List Byte) : Option (BitVec 64 × List Byte) :=
  if n ≤ bs.length then some (signed (bs.take n), bs.drop n) else none

/-- The length of the displacement, by the `mod` field. -/
def dispLength : Nat → Nat
  | 0 => 0
  | 1 => 1
  | _ => 4

/-- The memory operand of a ModRM byte and what follows it. -/
def decodeAddr (p : Prefixes) (m : Byte) (bs : List Byte) : Option (MemOperand × List Byte) :=
  let md := m.toNat / 64
  let rm := m.toNat % 8
  if md = 3 then none
  else if rm = 4 then
    match bs with
    | [] => none
    | s :: bs => do
      let index := s.toNat / 8 % 8 + p.ext 1
      let noBase := s.toNat % 8 = 5 ∧ md = 0
      let (disp, bs) ← takeDisp (if noBase then 4 else dispLength md) bs
      return (⟨p.seg, p.addrSize, if noBase then none else some (.reg (s.toNat % 8 + p.ext 0)),
        if index = 4 then none else some (index, 2 ^ (s.toNat / 64)), disp⟩, bs)
  else if rm = 5 ∧ md = 0 then do
    let (disp, bs) ← takeDisp 4 bs
    return (⟨p.seg, p.addrSize, some .rip, none, disp⟩, bs)
  else do
    let (disp, bs) ← takeDisp (dispLength md) bs
    return (⟨p.seg, p.addrSize, some (.reg (rm + p.ext 0)), none, disp⟩, bs)

/-! ## Instructions -/

/-- An instruction with its operands. Two encodings are the same instruction when this
record is the same. -/
structure Insn where
  op : Op
  lock : Bool
  repne : Bool
  rep : Bool
  size : Nat
  toReg : Bool
  reg : Option RegOperand
  mem : MemOperand
  imm : Option (BitVec 64)
deriving DecidableEq, Repr

/-- The instruction that an opcode makes of its operands and the prefixes. -/
def OpInfo.insn (info : OpInfo) (p : Prefixes) (reg : Nat) (mem : MemOperand) (imm : List Byte) :
    Insn :=
  ⟨info.op, p.lock, p.repne, p.rep, info.size p, info.toReg, info.register p reg, mem,
    if imm = [] then none else some (signed imm)⟩

/-- What follows the prefixes. The immediate fills the rest of the string. -/
def decodeBody (p : Prefixes) (bs : List Byte) : Option Insn := do
  let (o, bs) ← takeOpcode bs
  match bs with
  | [] => none
  | m :: bs =>
    let reg := m.toNat / 8 % 8
    let info ← o.info reg
    let (mem, bs) ← decodeAddr p m bs
    if bs.length = info.immLength p then some (info.insn p reg mem bs) else none

/-- The instruction that fills a string of bytes, when it is one of these
operations with an operand in memory. -/
def decode (bs : List Byte) : Option Insn :=
  decodeBody (scanPrefixes .empty bs).1 (scanPrefixes .empty bs).2

/-! ## Encodings -/

/-- `rip` and four bytes, or a register with none, one or four. -/
inductive Addressing where
  | rip (disp : List Byte)
  | base (n : Nat) (disp : List Byte)
deriving DecidableEq, Repr

namespace Addressing

/-- The bytes of the displacement. -/
def disp : Addressing → List Byte
  | .rip d => d
  | .base _ d => d

/-- The `mod` field. -/
def md : Addressing → Nat
  | .rip _ => 0
  | .base _ d => if d.length = 0 then 0 else if d.length = 1 then 1 else 2

/-- The `r/m` field. -/
def rm : Addressing → Nat
  | .rip _ => 5
  | .base n _ => n

/-- The ModRM byte: `mod` in the upper two bits, `r/m` in the lower three, and the register
between them. -/
def modrm (a : Addressing) (reg : Nat) : Byte := BitVec.ofNat 8 (64 * a.md + 8 * reg + a.rm)

/-- The memory operand that an addressing stands for under the prefixes. They decide the
segment, the size of the address and the fourth bit of the base. -/
def operand (a : Addressing) (p : Prefixes) : MemOperand :=
  match a with
  | .rip d => ⟨p.seg, p.addrSize, some .rip, none, signed d⟩
  | .base n d => ⟨p.seg, p.addrSize, some (.reg (n + p.ext 0)), none, signed d⟩

/-- Neither the form with an index nor, without a displacement, that of `rip`. -/
def Valid : Addressing → Prop
  | .rip d => d.length = 4
  | .base n d => n < 8 ∧ n ≠ 4 ∧ (d.length = 0 ∧ n ≠ 5 ∨ d.length = 1 ∨ d.length = 4)

end Addressing

/-- An instruction part by part, as an assembler puts it together. `bytes` joins the parts,
and `insn` is what they stand for. -/
structure Encoding where
  prefixes : List Byte
  opcode : Opcode
  reg : Nat
  addr : Addressing
  imm : List Byte
deriving DecidableEq, Repr

namespace Encoding

/-- The machine code: prefixes, opcode, ModRM byte, displacement, immediate. -/
def bytes (e : Encoding) : List Byte :=
  e.prefixes ++ (e.opcode.bytes ++ e.addr.modrm e.reg :: (e.addr.disp ++ e.imm))

/-- The prefixes in effect. -/
def state (e : Encoding) : Prefixes := e.prefixes.foldl Prefixes.add .empty

/-- What the parts stand for, when the opcode is known. -/
def insn (e : Encoding) (info : OpInfo) : Insn :=
  info.insn e.state e.reg (e.addr.operand e.state) e.imm

/-- The parts fit together: the prefixes are some, the opcode is known, the fields have
their widths, and the immediate is as long as the opcode and the prefixes ask for. -/
structure Valid (e : Encoding) (info : OpInfo) : Prop where
  prefixes : ∀ b ∈ e.prefixes, isPrefix b = true
  known : e.opcode.info e.reg = some info
  reg : e.reg < 8
  addr : e.addr.Valid
  imm : e.imm.length = info.immLength e.state

end Encoding

/-! ## Decoding what was encoded -/

/-- The prefixes of an encoding are taken one by one. By induction on them. -/
theorem scanPrefixes_append {ps : List Byte} (hps : ∀ b ∈ ps, isPrefix b = true) (p : Prefixes)
    (bs : List Byte) : scanPrefixes p (ps ++ bs) = scanPrefixes (ps.foldl Prefixes.add p) bs := by
  induction ps generalizing p with
  | nil => rfl
  | cons b ps ih =>
    rw [List.cons_append, scanPrefixes, if_pos (hps b (by simp)),
      ih (fun c hc => hps c (by simp [hc]))]
    rfl

/-- The first byte that is no prefix ends the scan. -/
theorem scanPrefixes_cons_of_not {b : Byte} (hb : isPrefix b = false) (p : Prefixes)
    (bs : List Byte) : scanPrefixes p (b :: bs) = (p, b :: bs) := by
  rw [scanPrefixes, hb]
  rfl

/-- The list of all prefixes. No opcode that is modelled is among them. -/
theorem toNat_of_isPrefix : ∀ b : Byte, isPrefix b = true →
    b.toNat ∈ [0x26, 0x2e, 0x36, 0x3e, 0x40, 0x41, 0x42, 0x43, 0x44, 0x45, 0x46, 0x47, 0x48, 0x49,
      0x4a, 0x4b, 0x4c, 0x4d, 0x4e, 0x4f, 0x64, 0x65, 0x66, 0x67, 0xf0, 0xf2, 0xf3] := by
  decide

/-- An opcode is no prefix. -/
theorem isPrefix_of_oneByte {b : Byte} {reg : Nat} {info : OpInfo}
    (h : oneByte b.toNat reg = some info) : isPrefix b = false ∧ b ≠ 0x0f := by
  constructor
  · by_contra hb
    have hmem := toNat_of_isPrefix b (by simpa using hb)
    simp only [List.mem_cons, List.not_mem_nil, or_false] at hmem
    rcases hmem with hb | hb | hb | hb | hb | hb | hb | hb | hb | hb | hb | hb | hb | hb | hb | hb |
      hb | hb | hb | hb | hb | hb | hb | hb | hb | hb | hb <;>
      rw [hb] at h <;> exact absurd h (by simp [oneByte])
  · rintro rfl
    exact absurd h (by simp [oneByte])

/-- An immediate stands where the register would. -/
theorem regKind_of_imm {n reg : Nat} {info : OpInfo} (h : oneByte n reg = some info)
    (himm : info.imm ≠ .none) : info.regKind = .extension := by
  rw [oneByte.eq_def] at h
  split at h <;> grind [regForm, Option.map_eq_some_iff]

/-- Among the opcodes of one byte there is no `xadd`. -/
theorem ne_xadd_of_oneByte {n reg : Nat} {info : OpInfo} (h : oneByte n reg = some info) :
    info.op ≠ .xadd := by
  have hgroup : ∀ op, group1 reg = some op → op ≠ .xadd := by
    intro op hop
    rw [group1.eq_def] at hop
    split at hop <;> grind
  rw [oneByte.eq_def] at h
  split at h <;> grind [regForm, Option.map_eq_some_iff]

/-- Segment registers are moved only. -/
theorem op_of_segment {n reg : Nat} {info : OpInfo} (h : oneByte n reg = some info)
    (hkind : info.regKind = .segment) : info.op = .mov := by
  rw [oneByte.eq_def] at h
  split at h <;> grind [regForm, Option.map_eq_some_iff]

/-- What lies behind `0f` is an `xadd` between registers or memory, without immediate. -/
theorem twoByte_eq {n : Nat} {info : OpInfo} (h : twoByte n = some info) :
    info.op = .xadd ∧ info.regKind = .general ∧ info.imm = .none := by
  rw [twoByte.eq_def] at h
  split at h <;> grind

namespace Opcode

variable {o : Opcode} {reg : Nat} {info : OpInfo}

/-- A known opcode is not taken for a prefix, so the scan stops before it. -/
theorem scan_bytes (h : o.info reg = some info) (p : Prefixes) (bs : List Byte) :
    scanPrefixes p (o.bytes ++ bs) = (p, o.bytes ++ bs) := by
  cases o with
  | one b => exact scanPrefixes_cons_of_not (isPrefix_of_oneByte h).1 p _
  | two b => exact scanPrefixes_cons_of_not (by decide) p _

/-- The bytes of an opcode are read back as this opcode. -/
theorem take_bytes (h : o.info reg = some info) (bs : List Byte) :
    takeOpcode (o.bytes ++ bs) = some (o, bs) := by
  cases o with
  | one b =>
    show (if b = 0x0f then _ else some (Opcode.one b, bs)) = _
    rw [if_neg (isPrefix_of_oneByte h).2]
  | two b => rfl

end Opcode

namespace Addressing

variable {a : Addressing} {reg : Nat}

/-- An addressing in memory has no `mod` 3, and its register fits into three bits. -/
theorem Valid.fields (h : a.Valid) : a.md < 3 ∧ a.rm < 8 := by
  cases a with
  | rip d => exact ⟨show 0 < 3 by omega, show 5 < 8 by omega⟩
  | base n d =>
    obtain ⟨hn, -, -⟩ := h
    refine ⟨?_, hn⟩
    rw [md]
    split
    · omega
    · split
      · omega
      · omega

/-- The fields of the ModRM byte. -/
theorem Valid.toNat_modrm (h : a.Valid) (hreg : reg < 8) :
    (a.modrm reg).toNat / 64 = a.md ∧ (a.modrm reg).toNat / 8 % 8 = reg ∧
      (a.modrm reg).toNat % 8 = a.rm := by
  obtain ⟨hmd, hrm⟩ := h.fields
  rw [modrm, BitVec.toNat_ofNat]
  omega

/-- A displacement is read back from its own bytes. -/
theorem takeDisp_append (d bs : List Byte) : takeDisp d.length (d ++ bs) = some (signed d, bs) := by
  rw [takeDisp, if_pos (by simp), List.take_left, List.drop_left]

/-- What follows the ModRM byte of an addressing is read back as its operand. The cases are
those of `Valid`: a base that would ask for an index or for `rip` is not among them. -/
theorem Valid.decodeAddr (h : a.Valid) (hreg : reg < 8) (p : Prefixes) (bs : List Byte) :
    X86.decodeAddr p (a.modrm reg) (a.disp ++ bs) = some (a.operand p, bs) := by
  obtain ⟨hmd, -, hrm⟩ := h.toNat_modrm hreg
  obtain ⟨hlt, -⟩ := h.fields
  rw [X86.decodeAddr.eq_def]
  simp only [hmd, hrm]
  rw [if_neg (by omega)]
  cases a with
  | rip d =>
    have hd : d.length = 4 := h
    have hsib : ¬ (rip d).rm = 4 := show ¬ 5 = 4 by omega
    have hrip : (rip d).rm = 5 ∧ (rip d).md = 0 := ⟨rfl, rfl⟩
    rw [if_neg hsib, if_pos hrip, ← hd]
    show (takeDisp d.length (d ++ bs) >>= _) = _
    rw [takeDisp_append]
    rfl
  | base n d =>
    obtain ⟨-, hsib, hd⟩ := h
    have hlen : dispLength (base n d).md = d.length := by
      rw [md]
      rcases hd with ⟨hd, -⟩ | hd | hd <;> simp [hd, dispLength]
    have hsib : ¬ (base n d).rm = 4 := hsib
    have hrip : ¬ ((base n d).rm = 5 ∧ (base n d).md = 0) := by
      rintro ⟨hn, hzero⟩
      rcases hd with ⟨-, hn'⟩ | hd | hd
      · exact hn' hn
      · simp [md, hd] at hzero
      · simp [md, hd] at hzero
    rw [if_neg hsib, if_neg hrip, hlen]
    show (takeDisp d.length (d ++ bs) >>= _) = _
    rw [takeDisp_append]
    rfl

end Addressing

/-- What an encoding with any immediate is decoded to. -/
theorem Encoding.decode_bytes_of {e : Encoding} {info : OpInfo}
    (hps : ∀ b ∈ e.prefixes, isPrefix b = true) (hinfo : e.opcode.info e.reg = some info)
    (hreg : e.reg < 8) (haddr : e.addr.Valid) :
    decode e.bytes
      = if e.imm.length = info.immLength e.state then some (e.insn info) else none := by
  have hscan : scanPrefixes .empty e.bytes
      = (e.state, e.opcode.bytes ++ e.addr.modrm e.reg :: (e.addr.disp ++ e.imm)) := by
    rw [Encoding.bytes, scanPrefixes_append hps, Opcode.scan_bytes hinfo]
    rfl
  obtain ⟨-, hfield, -⟩ := haddr.toNat_modrm hreg
  rw [decode, hscan, decodeBody]
  simp only [Opcode.take_bytes hinfo, Option.bind_eq_bind, Option.bind_some, hfield, hinfo,
    haddr.decodeAddr hreg]
  rfl

/-! ## What a decoded instruction shows -/

/-- Behind a legacy prefix no `REX` prefix is in effect. -/
theorem Prefixes.rex_add {b : Byte} (hb : isRex b = false) (p : Prefixes) :
    (p.add b).rex = none := by
  rw [Prefixes.add, hb]
  simp only [Bool.false_eq_true, if_false]
  split <;> rfl

/-- The segment is that of one of the prefixes. -/
theorem Prefixes.seg_add {p : Prefixes} {b : Byte} (h : (p.add b).seg = some .gs) :
    b = 0x65 ∨ p.seg = some .gs := by
  rw [Prefixes.add] at h
  split at h
  · exact Or.inr h
  · simp only at h
    split at h
    all_goals first
      | exact Or.inr h
      | exact Or.inl (BitVec.eq_of_toNat_eq ‹_›)
      | simp at h

/-- Without a `REX` prefix the numbers of registers are not extended. -/
theorem Prefixes.ext_of_rex {p : Prefixes} (h : p.rex = none) (i : Nat) : p.ext i = 0 := by
  rw [Prefixes.ext, Prefixes.rexBit, h]
  rfl

/-- The upper eight registers are bases under a `REX` prefix only. -/
theorem base_lt_of_decodeBody {p : Prefixes} {bs : List Byte} {i : Insn} {n : Nat}
    (h : decodeBody p bs = some i) (hrex : p.rex = none) (hbase : i.mem.base = some (.reg n)) :
    n < 8 := by
  have hext := Prefixes.ext_of_rex hrex
  -- the memory operand of the address has the base
  have haddr : ∀ m rest mem rest', decodeAddr p m rest = some (mem, rest') →
      mem.base = some (.reg n) → n < 8 := by
    intro m rest mem rest' hdec hmem
    rw [decodeAddr.eq_def] at hdec
    simp only [hext, Nat.add_zero] at hdec
    split at hdec
    · simp at hdec
    · split at hdec
      · cases rest with
        | nil => simp at hdec
        | cons s rest =>
          simp only [Option.bind_eq_bind, Option.bind_eq_some_iff] at hdec
          obtain ⟨⟨disp, rest₂⟩, -, hout⟩ := hdec
          obtain ⟨rfl, -⟩ := Prod.mk.inj (Option.some.inj hout)
          simp only at hmem
          split at hmem
          · simp at hmem
          · obtain rfl := AddrBase.reg.inj (Option.some.inj hmem)
            omega
      · split at hdec
        · simp only [Option.bind_eq_bind, Option.bind_eq_some_iff] at hdec
          obtain ⟨⟨disp, rest₂⟩, -, hout⟩ := hdec
          obtain ⟨rfl, -⟩ := Prod.mk.inj (Option.some.inj hout)
          simp at hmem
        · simp only [Option.bind_eq_bind, Option.bind_eq_some_iff] at hdec
          obtain ⟨⟨disp, rest₂⟩, -, hout⟩ := hdec
          obtain ⟨rfl, -⟩ := Prod.mk.inj (Option.some.inj hout)
          obtain rfl := AddrBase.reg.inj (Option.some.inj hmem)
          omega
  rw [decodeBody] at h
  simp only [Option.bind_eq_bind, Option.bind_eq_some_iff] at h
  obtain ⟨⟨o, rest⟩, -, h⟩ := h
  cases rest with
  | nil => simp at h
  | cons m rest =>
    simp only [Option.bind_eq_some_iff] at h
    obtain ⟨info, -, ⟨mem, rest'⟩, hdec, hout⟩ := h
    split at hout
    · obtain rfl := Option.some.inj hout
      exact haddr m rest mem rest' hdec hbase
    · simp at hout

/-- So the base of a decoded instruction is one of the lower eight registers. -/
theorem base_lt_of_decode {ps : List Byte} (hps : ∀ b ∈ ps, isPrefix b = true) {b : Byte}
    (hb : isPrefix b = false) {bs : List Byte} {i : Insn} {n : Nat}
    (h : decode (ps ++ b :: bs) = some i) (hrex : (ps.foldl Prefixes.add .empty).rex = none)
    (hbase : i.mem.base = some (.reg n)) : n < 8 := by
  rw [decode, scanPrefixes_append hps, scanPrefixes_cons_of_not hb] at h
  exact base_lt_of_decodeBody h hrex hbase

/-- The operation is that of the first byte behind the prefixes. -/
theorem op_of_decode {ps : List Byte} (hps : ∀ b ∈ ps, isPrefix b = true) {b : Byte}
    (hb : isPrefix b = false) (h0f : b ≠ 0x0f) {bs : List Byte} {i : Insn}
    (h : decode (ps ++ b :: bs) = some i) :
    ∃ reg info, reg < 8 ∧ oneByte b.toNat reg = some info ∧ i.op = info.op := by
  rw [decode, scanPrefixes_append hps, scanPrefixes_cons_of_not hb, decodeBody] at h
  have htake : takeOpcode (b :: bs) = some (.one b, bs) := by
    show (if b = 0x0f then _ else some (Opcode.one b, bs)) = _
    rw [if_neg h0f]
  simp only [htake, Option.bind_eq_bind, Option.bind_some] at h
  cases bs with
  | nil => simp at h
  | cons m rest =>
    simp only [Option.bind_eq_some_iff] at h
    obtain ⟨info, hinfo, ⟨mem, rest'⟩, -, hout⟩ := h
    split at hout
    · obtain rfl := Option.some.inj hout
      exact ⟨_, info, by omega, hinfo, rfl⟩
    · simp at hout

/-- A ModRM byte for `rip` decides the base, however much of the string is
there. -/
theorem base_of_decode_rip {ps : List Byte} (hps : ∀ b ∈ ps, isPrefix b = true) {b : Byte}
    {reg : Nat} {info : OpInfo} (hinfo : oneByte b.toNat reg = some info) (hreg : reg < 8)
    {d bs : List Byte} {k : Nat} {i : Insn}
    (h : decode ((ps ++ b :: (Addressing.rip d).modrm reg :: bs).take k) = some i) :
    i.mem.base = some .rip := by
  obtain ⟨hb, h0f⟩ := isPrefix_of_oneByte hinfo
  rw [List.take_append, decode,
    scanPrefixes_append fun c hc => hps c (List.mem_of_mem_take hc)] at h
  cases hj : k - ps.length with
  | zero =>
    rw [hj] at h
    exact absurd h (by simp [scanPrefixes, decodeBody, takeOpcode])
  | succ j =>
    rw [hj, List.take_succ_cons, scanPrefixes_cons_of_not hb, decodeBody] at h
    have htake : ∀ rest, takeOpcode (b :: rest) = some (.one b, rest) := by
      intro rest
      show (if b = 0x0f then _ else some (Opcode.one b, rest)) = _
      rw [if_neg h0f]
    simp only [htake, Option.bind_eq_bind, Option.bind_some] at h
    cases j with
    | zero => simp at h
    | succ j =>
      rw [List.take_succ_cons] at h
      simp only [Option.bind_eq_some_iff] at h
      obtain ⟨info', -, ⟨mem, rest'⟩, hdec, hout⟩ := h
      have hmod : ((Addressing.rip d).modrm reg).toNat / 64 = 0 := by
        show (BitVec.ofNat 8 (64 * 0 + 8 * reg + 5)).toNat / 64 = 0
        rw [BitVec.toNat_ofNat]
        omega
      have hrm : ((Addressing.rip d).modrm reg).toNat % 8 = 5 := by
        show (BitVec.ofNat 8 (64 * 0 + 8 * reg + 5)).toNat % 8 = 5
        rw [BitVec.toNat_ofNat]
        omega
      rw [decodeAddr.eq_def] at hdec
      simp only [hmod, hrm] at hdec
      rw [if_neg (by omega), if_neg (by omega), if_pos ⟨trivial, trivial⟩] at hdec
      simp only [Option.bind_eq_bind, Option.bind_eq_some_iff] at hdec
      obtain ⟨⟨disp, rest₂⟩, -, hmem⟩ := hdec
      obtain ⟨rfl, -⟩ := Prod.mk.inj (Option.some.inj hmem)
      split at hout
      · obtain rfl := Option.some.inj hout
        rfl
      · simp at hout

end X86
