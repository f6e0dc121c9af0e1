import KRover.Proofs.OprndParse
import Mathlib.Tactic.FinCases
import Mathlib.Tactic.IntervalCases

/-! # Views of one register

The names of a general register are views of one word: the whole, its low half,
its low two bytes, its lowest byte and the byte above that. Concrete writes
through them should lay bytes over the word, which a read through any of them
shows (`ViewLaw`).

`writeConcreteValue` and `readConcreteValue` take a register of one byte for the
second byte of its word, and the engine has no high bytes. So the lowest byte is
read back when it was the last to be written, and every other view when it was
not (`viewLaw_iff`).
-/

set_option autoImplicit false

namespace KRover

open Bytes SYCPUState

/-! ## Bytes of words -/

/-- The bits of byte `k` are the eight from `8 * k` on. -/
theorem getLsbD_byteOf {w : Nat} (x : BitVec w) (k : Nat) {i : Nat} (hi : i < 8) :
    (byteOf x.toNat k).getLsbD i = x.getLsbD (8 * k + i) := by
  have hpow : (256 : Nat) ^ k = 2 ^ (8 * k) := by rw [Nat.pow_mul]
  rw [byteOf, hpow, BitVec.getLsbD_ofNat, Nat.testBit_div_two_pow]
  simp [hi, BitVec.getLsbD, Nat.add_comm]

/-- Two bytes are one when their bits are. -/
theorem byteOf_congr {w w' : Nat} {x : BitVec w} {y : BitVec w'} {k j : Nat}
    (h : ∀ i < 8, x.getLsbD (8 * k + i) = y.getLsbD (8 * j + i)) :
    byteOf x.toNat k = byteOf y.toNat j := by
  refine BitVec.eq_of_getLsbD_eq fun i hi => ?_
  rw [getLsbD_byteOf x k hi, getLsbD_byteOf y j hi, h i hi]

/-- An assignment through a narrower member replaces the low bytes. -/
theorem byteOf_assignLow {n : Nat} (hn : n ≤ 8) (u v : BitVec 64) {k : Nat} (hk : k < 8) :
    byteOf (assignLow (8 * n) u v).toNat k = byteOf (if k < n then v else u).toNat k := by
  refine byteOf_congr fun i hi => ?_
  simp only [assignLow, BitVec.getLsbD_or, BitVec.getLsbD_shiftLeft, BitVec.getLsbD_ushiftRight]
  split
  · have h1 : 8 * k + i < 8 * n := by omega
    have h2 : 64 - 8 * n + (8 * k + i) - (64 - 8 * n) = 8 * k + i := by omega
    have h3 : 64 - 8 * n + (8 * k + i) < 64 := by omega
    simp [h1, h2, h3]
  · have h1 : ¬ 8 * k + i < 8 * n := by omega
    have h2 : 8 * n + (8 * k + i - 8 * n) = 8 * k + i := by omega
    have h3 : 8 * k + i < 64 := by omega
    have h4 : ¬ 64 - 8 * n + (8 * k + i) < 64 := by omega
    simp [h1, h2, h3, h4]

/-! ## The law -/

/-- The words of the general registers. -/
def generalRegs : List PtIdx :=
  [.rax, .rcx, .rdx, .rbx, .rsp, .rbp, .rsi, .rdi, .r8, .r9, .r10, .r11, .r12, .r13, .r14, .r15]

/-- The bytes of the words. -/
abbrev WordBytes := PtIdx → Nat → BitVec 8

/-- The words of the registers byte by byte. -/
def MacReg.bytes (regs : MacReg) : WordBytes := fun i k => byteOf (regs i).toNat k

/-- The bytes of a value laid over the view that a name stands for. -/
def WordBytes.lay (B : WordBytes) (W : MachRegister × BitVec 64) : WordBytes := fun i k =>
  let (addr, size) := regIdxToAddrSize W.1.sub
  if i = W.1.offt ∧ addr ≤ k ∧ (k : Int) < addr + size then byteOf W.2.toNat (k - addr.toNat)
  else B i k

/-- The overlay of a sequence of writes. -/
def WordBytes.overlay (B : WordBytes) (ws : List (MachRegister × BitVec 64)) : WordBytes :=
  ws.foldl WordBytes.lay B

/-- A concrete write through a name. -/
def concreteWrite (W : MachRegister × BitVec 64) : RegValue :=
  ⟨W.1, (regIdxToAddrSize W.1.sub).2, false, false, W.2, .null, []⟩

/-- A sequence of concrete writes. -/
def writeAll (st : SYCPUState) : List (MachRegister × BitVec 64) → Option SYCPUState
  | [] => some st
  | W :: ws => do
    let (res, st) ← st.writeRegister (concreteWrite W)
    if res then writeAll st ws else none

/-- Writes through the names, of any values to any state, and a read through
`r`, which shows the bytes of the overlay. Words that are not named keep their
values. -/
def ViewLaw (names : List MachRegister) (r : MachRegister) (isSymList : Bool) : Prop :=
  ∀ st, CpuShadow st → ∀ vals : List (BitVec 64), vals.length = names.length →
    ∃ st₁ V st₂, writeAll st (names.zip vals) = some st₁ ∧
      st₁.readRegister (regRead r (regIdxToAddrSize r.sub).2 isSymList) = some (true, V, st₂) ∧
      (∀ k < (regIdxToAddrSize r.sub).2, byteOf V.i64.toNat k =
        (st.ptRegs.bytes.overlay (names.zip vals)) r.offt
          ((regIdxToAddrSize r.sub).1.toNat + k)) ∧
      ∀ i, (∀ r ∈ names, r.offt ≠ i) → st₁.ptRegs i = st.ptRegs i

/-- Whether the last name of a word is that of its lowest byte. -/
def lastIsLow (names : List MachRegister) (i : PtIdx) : Bool :=
  names.foldl (fun low r => if r.offt = i then r.sub = .l else low) false

/-! ## One write -/

/-- A view of a general register has an encoding, unless it is the high byte of its word. -/
theorem encoded_of_general {r : MachRegister} (hr : r.offt ∈ generalRegs) (hh : r.sub ≠ .h) :
    dyinstEncoding r = some (regIdxToAddrSize r.sub).2 := by
  obtain ⟨i, sub⟩ := r
  cases sub with
  | h => exact absurd rfl hh
  | full | l | w | d =>
    have hi : i ∈ generalRegs := hr
    fin_cases hi <;> rfl

/-- The name of a high byte is not known. -/
theorem encoding_high {r : MachRegister} (hh : r.sub = .h) : dyinstEncoding r = none := by
  obtain ⟨i, sub⟩ := r
  obtain rfl : sub = .h := hh
  cases i <;> rfl

/-- A view that is not a single byte. -/
theorem wide_of_ne_low {sub : SubIndex} (hh : sub ≠ .h) (hl : sub ≠ .l) :
    (regIdxToAddrSize sub).1 = 0 ∧ 2 ≤ (regIdxToAddrSize sub).2 ∧
      (regIdxToAddrSize sub).2 ≤ 8 := by
  cases sub with
  | h => exact absurd rfl hh
  | l => exact absurd rfl hl
  | full | w | d => decide

/-- The bytes of the words after a write. -/
theorem bytes_wordsAfter (st : SYCPUState) {W : MachRegister × BitVec 64} (hh : W.1.sub ≠ .h)
    (i : PtIdx) {k : Nat} (hk : k < 8) :
    (st.wordsAfter (concreteWrite W)).bytes i k =
      if i = W.1.offt then
        if W.1.sub = .l then (if k = 1 then byteOf W.2.toNat 0 else st.ptRegs.bytes i k)
        else (if k < (regIdxToAddrSize W.1.sub).2 then byteOf W.2.toNat k
          else st.ptRegs.bytes i k)
      else st.ptRegs.bytes i k := by
  obtain ⟨⟨j, sub⟩, v⟩ := W
  -- The written register first, then the others, which keep their words.
  by_cases hi : i = j
  · subst hi
    rw [if_pos rfl]
    -- `al` and its like are written into the second byte; every other name starts at the first.
    by_cases hl : sub = .l
    · subst hl
      have hword : st.wordsAfter (concreteWrite (⟨i, .l⟩, v)) i = assignLow (8 * 2) (st.ptRegs i)
          ((st.ptRegs i &&& (0xff : BitVec 64)) ||| ((v <<< 8) &&& (0xff00 : BitVec 64))) :=
        Function.update_self _ _ _
      rw [if_pos rfl, MacReg.bytes, hword, byteOf_assignLow (by decide) _ _ hk]
      obtain rfl | rfl | hk2 : k = 0 ∨ k = 1 ∨ 2 ≤ k := by omega
      · rw [if_pos (by decide), if_neg (by decide)]
        refine byteOf_congr fun j hj => ?_
        -- The first byte is masked by `0xff` and kept.
        interval_cases j <;> simp
      · rw [if_pos (by decide), if_pos rfl]
        refine byteOf_congr fun j hj => ?_
        interval_cases j <;> simp
      · rw [if_neg (by omega), if_neg (by omega)]
        rfl
    · have hh : sub ≠ .h := hh
      have hsize := wide_of_ne_low hh hl
      have hword : st.wordsAfter (concreteWrite (⟨i, sub⟩, v)) i
          = assignLow (8 * (regIdxToAddrSize sub).2) (st.ptRegs i) v := by
        rw [wordsAfter, writeConcreteValue]
        -- Only the one-byte names take the branch with the mask.
        show Function.update _ _ (if (regIdxToAddrSize sub).2 = 1 then _ else _) _ = _
        rw [if_neg (by omega)]
        exact Function.update_self _ _ _
      rw [if_neg hl, MacReg.bytes, hword, byteOf_assignLow hsize.2.2 _ _ hk]
      show _ = if k < (regIdxToAddrSize sub).2 then byteOf v.toNat k else _
      split <;> rfl
  · rw [if_neg hi]
    have hword : st.wordsAfter (concreteWrite (⟨j, sub⟩, v)) i = st.ptRegs i :=
      Function.update_of_ne hi _ _
    rw [MacReg.bytes, hword]
    rfl

/-- A write through a known name. -/
theorem exists_concreteWrite {st : SYCPUState} (h : CpuShadow st)
    {W : MachRegister × BitVec 64} (hr : W.1.offt ∈ generalRegs) (hh : W.1.sub ≠ .h) :
    ∃ st', st.writeRegister (concreteWrite W) = some (true, st') ∧ CpuShadow st' ∧
      st'.ptRegs = st.wordsAfter (concreteWrite W) := by
  have hV : (concreteWrite W).Writable :=
    ⟨encoded_of_general hr hh, fun hsym => absurd hsym Bool.false_ne_true⟩
  obtain ⟨m, hm, -, -⟩ := (h.word W.1.offt).write hV
  exact ⟨_, hm, h.writeRegister hV hm, rfl⟩

/-- The bytes of the overlay after a write. -/
theorem WordBytes.lay_eq (B : WordBytes) {W : MachRegister × BitVec 64} (hh : W.1.sub ≠ .h)
    (i : PtIdx) (k : Nat) : B.lay W i k =
      if i = W.1.offt ∧ k < (regIdxToAddrSize W.1.sub).2 then byteOf W.2.toNat k else B i k := by
  have hzero : (regIdxToAddrSize W.1.sub).1 = 0 := by
    cases hs : W.1.sub with
    | h => exact absurd hs hh
    | full | l | w | d => rfl
  show (if i = W.1.offt ∧ (regIdxToAddrSize W.1.sub).1 ≤ (k : Int) ∧
      (k : Int) < (regIdxToAddrSize W.1.sub).1 + ((regIdxToAddrSize W.1.sub).2 : Int) then
    byteOf W.2.toNat (k - (regIdxToAddrSize W.1.sub).1.toNat) else B i k) = _
  rw [hzero]
  exact if_congr (and_congr_right fun _ => by omega) rfl rfl

/-! ## Sequences of writes -/

/-- What the bytes of a word have to do with those of the overlay. After a write
of the lowest byte that byte is found in the second place. -/
def Tracks (low : Bool) (A E : Nat → BitVec 8) : Prop :=
  if low then A 1 = E 0 ∧ ∀ k < 8, 2 ≤ k → A k = E k else ∀ k < 8, A k = E k

/-- A word tracks itself. -/
theorem tracks_refl (B : WordBytes) (i : PtIdx) : Tracks false (B i) (B i) :=
  fun _ _ => rfl

/-- One write keeps the words in step with the overlay. -/
theorem Tracks.write {st : SYCPUState} {B : WordBytes} {low : Bool}
    {W : MachRegister × BitVec 64} (hh : W.1.sub ≠ .h) {i : PtIdx}
    (h : Tracks low (st.ptRegs.bytes i) (B i)) :
    Tracks (if W.1.offt = i then W.1.sub = .l else low)
      ((st.wordsAfter (concreteWrite W)).bytes i) (B.lay W i) := by
  have hA : ∀ k < 8, (st.wordsAfter (concreteWrite W)).bytes i k = _ :=
    fun k hk => bytes_wordsAfter st hh i hk
  have hE : ∀ k, B.lay W i k = _ := fun k => B.lay_eq hh i k
  -- A write to another register leaves both sides as they are.
  by_cases hi : W.1.offt = i
  · simp only [hi, if_true, true_and] at hA hE ⊢
    -- After a write of the low byte the two sides differ by the swap of the first two bytes.
    by_cases hl : W.1.sub = .l
    · simp only [hl, if_true, regIdxToAddrSize] at hA hE
      rw [Tracks, if_pos (by simpa using hl)]
      constructor
      · rw [hA 1 (by decide), hE 0]
        rfl
      · intro k hk hk2
        rw [hA k hk, hE k, if_neg (by omega), if_neg (by omega)]
        -- both sides keep what they had, which agreed from the third byte on
        cases low with
        | true => exact h.2 k hk hk2
        | false => exact h k hk
    · simp only [hl, if_false] at hA
      rw [Tracks, if_neg (by simpa using hl)]
      intro k hk
      rw [hA k hk, hE k]
      -- Inside the written bytes both sides show the value; outside they agreed from the second
      -- byte on.
      split
      · rfl
      · rename_i hout
        have hsize := wide_of_ne_low hh hl
        cases low with
        | true => exact h.2 k hk (by omega)
        | false => exact h k hk
  · have hi' : ¬ i = W.1.offt := fun heq => hi heq.symm
    simp only [hi', if_false, false_and] at hA hE
    rw [if_neg hi]
    cases low with
    | true =>
      refine ⟨?_, fun k hk hk2 => ?_⟩
      · rw [hA 1 (by decide), hE 0]
        exact h.1
      · rw [hA k hk, hE k]
        exact h.2 k hk hk2
    | false =>
      intro k hk
      rw [hA k hk, hE k]
      exact h k hk

/-- A sequence of writes through known names. -/
theorem exists_writeAll {names : List MachRegister} {vals : List (BitVec 64)}
    (hgen : ∀ r ∈ names, r.offt ∈ generalRegs) (hhigh : ∀ r ∈ names, r.sub ≠ .h)
    (hlen : vals.length = names.length) {st : SYCPUState} {B : WordBytes} {low : PtIdx → Bool}
    (h : CpuShadow st) (htracks : ∀ i, Tracks (low i) (st.ptRegs.bytes i) (B i)) :
    ∃ st', writeAll st (names.zip vals) = some st' ∧ CpuShadow st' ∧
      (∀ i, Tracks (names.foldl (fun low r => if r.offt = i then r.sub = .l else low) (low i))
        (st'.ptRegs.bytes i) (B.overlay (names.zip vals) i)) ∧
      ∀ i, (∀ r ∈ names, r.offt ≠ i) → st'.ptRegs i = st.ptRegs i := by
  -- The induction is on the names; what was last written to each register is carried along.
  induction names generalizing vals st B low with
  | nil => exact ⟨st, by simp [writeAll], h, htracks, fun _ _ => rfl⟩
  | cons r names ih =>
    cases vals with
    | nil => simp at hlen
    | cons v vals =>
      have hh : r.sub ≠ .h := hhigh r List.mem_cons_self
      obtain ⟨st₁, hwrite, h₁, hregs⟩ :=
        exists_concreteWrite (W := (r, v)) h (hgen r List.mem_cons_self) hh
      have htracks₁ : ∀ i, Tracks (if r.offt = i then r.sub = .l else low i)
          (st₁.ptRegs.bytes i) (B.lay (r, v) i) := by
        intro i
        rw [hregs]
        exact (htracks i).write (W := (r, v)) hh
      obtain ⟨st', hrest, h', htracks', hothers⟩ :=
        ih (fun r hr => hgen r (List.mem_cons_of_mem _ hr))
          (fun r hr => hhigh r (List.mem_cons_of_mem _ hr)) (Nat.succ.inj hlen) h₁ htracks₁
      refine ⟨st', ?_, h', htracks', fun i hi => ?_⟩
      · rw [List.zip_cons_cons, writeAll, hwrite]
        exact hrest
      · rw [hothers i fun r hr => hi r (List.mem_cons_of_mem _ hr), hregs]
        exact Function.update_of_ne (hi r List.mem_cons_self).symm _ _

/-- No sequence with a high byte in it goes through. -/
theorem writeAll_high {names : List MachRegister} {vals : List (BitVec 64)}
    (hlen : vals.length = names.length) {r : MachRegister} (hr : r ∈ names) (hh : r.sub = .h)
    (st : SYCPUState) : writeAll st (names.zip vals) = none := by
  induction names generalizing vals st with
  | nil => exact absurd hr List.not_mem_nil
  | cons x names ih =>
    cases vals with
    | nil => simp at hlen
    | cons v vals =>
      rw [List.zip_cons_cons, writeAll]
      rcases List.mem_cons.1 hr with rfl | hr
      · rw [writeRegister, show (concreteWrite (r, v)).indx = r from rfl, encoding_high hh]
        rfl
      · cases hwrite : st.writeRegister (concreteWrite (x, v)) with
        | none => rfl
        | some res =>
          obtain ⟨ok, st₁⟩ := res
          cases ok with
          | false => rfl
          | true => exact ih (Nat.succ.inj hlen) hr st₁

/-! ## Reading -/

/-- What a read shows of the bytes of the words. -/
theorem exists_read {st : SYCPUState} (h : CpuShadow st) {r : MachRegister}
    (hr : r.offt ∈ generalRegs) (hh : r.sub ≠ .h) (isSymList : Bool) :
    ∃ V st', st.readRegister (regRead r (regIdxToAddrSize r.sub).2 isSymList)
        = some (true, V, st') ∧
      ∀ k < (regIdxToAddrSize r.sub).2,
        byteOf V.i64.toNat k = st.ptRegs.bytes r.offt (if r.sub = .l then 1 else k) := by
  have henc := encoded_of_general hr hh
  have hV : (regRead r (regIdxToAddrSize r.sub).2 isSymList).Encoded := henc
  obtain ⟨m, hread, -, -⟩ := (h.word r.offt).read hV
  refine ⟨_, _, hread, fun k hk => ?_⟩
  -- The value read is the concrete one, whether or not the register is symbolic.
  have hval : (st.valueRead (regRead r (regIdxToAddrSize r.sub).2 isSymList)).i64
      = st.readConcreteValue r (regIdxToAddrSize r.sub).2 0 := by
    unfold valueRead
    split
    · split <;> rfl
    · rfl
  have hlow := setWidth_readConcreteValue st hV 0
  have hlow : (st.readConcreteValue r (regIdxToAddrSize r.sub).2 0).setWidth
        (8 * (regIdxToAddrSize r.sub).2)
      = (if (regIdxToAddrSize r.sub).2 = 1 then st.ptRegs r.offt >>> 8
          else st.ptRegs r.offt).setWidth (8 * (regIdxToAddrSize r.sub).2) := hlow
  rw [hval, ← byteOf_setWidth _ hk, hlow, byteOf_setWidth _ hk]
  -- `al` is shown by the second byte of its word.
  by_cases hl : r.sub = .l
  · have hk0 : k = 0 := by
      rw [hl] at hk
      exact Nat.lt_one_iff.1 hk
    rw [if_pos (show (regIdxToAddrSize r.sub).2 = 1 by rw [hl]; rfl), if_pos hl, hk0]
    refine byteOf_congr fun i hi => ?_
    rw [BitVec.getLsbD_ushiftRight, Nat.mul_zero, Nat.zero_add, Nat.mul_one]
  · have hwide := wide_of_ne_low hh hl
    rw [if_neg (show ¬ (regIdxToAddrSize r.sub).2 = 1 by omega), if_neg hl]
    rfl

/-- The word 1 has its lowest byte 1 and the next one 0. -/
theorem byteOf_one : byteOf (1 : BitVec 64).toNat 0 = 1 ∧ byteOf (1 : BitVec 64).toNat 1 = 0 := by
  decide

/-- Ones laid over ones leave the lowest byte at one and the second at zero. -/
theorem overlay_ones {names : List MachRegister} (hhigh : ∀ r ∈ names, r.sub ≠ .h)
    {B : WordBytes} {i : PtIdx} (h : B i 0 = 1 ∧ B i 1 = 0) :
    B.overlay (names.zip (names.map fun _ => 1)) i 0 = 1 ∧
      B.overlay (names.zip (names.map fun _ => 1)) i 1 = 0 := by
  induction names generalizing B with
  | nil => exact h
  | cons r names ih =>
    refine ih (fun r hr => hhigh r (List.mem_cons_of_mem _ hr)) ?_
    rw [WordBytes.lay_eq _ (hhigh r List.mem_cons_self),
      WordBytes.lay_eq _ (hhigh r List.mem_cons_self)]
    constructor
    · split
      · exact byteOf_one.1
      · exact h.1
    · split
      · exact byteOf_one.2
      · exact h.2

variable {names : List MachRegister} {r : MachRegister} {isSymList : Bool}

/-- Ones over ones tell the first byte of a word from the second, so the law
fails at the names that take one for the other. -/
theorem ViewLaw.named (hlaw : ViewLaw names r isSymList)
    (hgen : ∀ r ∈ names, r.offt ∈ generalRegs) (hr : r.offt ∈ generalRegs) :
    (∀ r ∈ names, r.sub ≠ .h) ∧ r.sub ≠ .h ∧ (r.sub = .l ↔ lastIsLow names r.offt = true) := by
  -- Every register holds 1, and 1 is written to each name: the lowest byte tells which byte is
  -- shown.
  have hnew := cpuShadow_new fun _ => 1
  obtain ⟨st₁, V, st₂, hwrite, hread, hbytes, -⟩ :=
    hlaw _ hnew (names.map fun _ => 1) (List.length_map _)
  have hhigh : ∀ r ∈ names, r.sub ≠ .h := by
    intro x hx hh
    rw [writeAll_high (List.length_map _) hx hh] at hwrite
    exact absurd hwrite (by simp)
  have hh : r.sub ≠ .h := by
    intro hh
    have hnone : dyinstEncoding (regRead r (regIdxToAddrSize r.sub).2 isSymList).indx = none :=
      encoding_high hh
    rw [readRegister, hnone] at hread
    exact absurd hread (by simp)
  refine ⟨hhigh, hh, ?_⟩
  obtain ⟨st₁', hwrite', h₁, htracks, -⟩ := exists_writeAll hgen hhigh
    (List.length_map _) hnew (tracks_refl _)
  obtain rfl : st₁ = st₁' := Option.some.inj (hwrite.symm.trans hwrite')
  obtain ⟨V', st₂', hread', hshow⟩ := exists_read h₁ hr hh isSymList
  obtain rfl : V = V' := (Prod.mk.inj (Prod.mk.inj (Option.some.inj
    (hread.symm.trans hread'))).2).1
  obtain ⟨hone, hzero⟩ := overlay_ones hhigh (B := MacReg.bytes fun _ => 1) (i := r.offt)
    byteOf_one
  have htracks : Tracks (lastIsLow names r.offt) _ _ := htracks r.offt
  have hne : (1 : BitVec 8) ≠ 0 := by decide
  -- The low byte is shown rightly only after a write that swapped the bytes as well.
  by_cases hl : r.sub = .l
  · have h0 := hbytes 0 (by rw [hl]; decide)
    rw [hshow 0 (by rw [hl]; decide), if_pos hl, hl] at h0
    refine iff_of_true hl ?_
    by_contra hlow
    rw [Tracks, if_neg hlow] at htracks
    exact hne (hone.symm.trans (h0.symm.trans ((htracks 1 (by decide)).trans hzero)))
  · have hsize := wide_of_ne_low hh hl
    have h1 := hbytes 1 (by omega)
    rw [hshow 1 (by omega), if_neg hl, hsize.1] at h1
    refine iff_of_false hl fun hlow => ?_
    rw [Tracks, if_pos hlow] at htracks
    exact hne (hone.symm.trans (htracks.1.symm.trans (h1.trans hzero)))

/-- The views of general registers show the overlay of the writes exactly when no high byte
is named, and the lowest byte is read just when it is what was written last. The test for
the low byte compares with a mask that no register meets. So `al` is read and written as the
second byte of the word, and `ah` has no encoding. -/
theorem viewLaw_iff (hgen : ∀ r ∈ names, r.offt ∈ generalRegs) (hr : r.offt ∈ generalRegs) :
    ViewLaw names r isSymList ↔ (∀ r ∈ names, r.sub ≠ .h) ∧ r.sub ≠ .h ∧
      (r.sub = .l ↔ lastIsLow names r.offt = true) := by
  constructor
  · intro hlaw
    exact hlaw.named hgen hr
  · intro ⟨hhigh, hh, hlow⟩ st h vals hlen
    obtain ⟨st₁, hwrite, h₁, htracks, hothers⟩ := exists_writeAll hgen
      hhigh hlen h (tracks_refl _)
    obtain ⟨V, st₂, hread, hshow⟩ := exists_read h₁ hr hh isSymList
    refine ⟨st₁, V, st₂, hwrite, hread, fun k hk => ?_, hothers⟩
    have htracks : Tracks (lastIsLow names r.offt) _ _ := htracks r.offt
    rw [hshow k hk]
    by_cases hl : r.sub = .l
    · have hk0 : k = 0 := by
        rw [hl] at hk
        exact Nat.lt_one_iff.1 hk
      rw [Tracks, if_pos (hlow.1 hl)] at htracks
      rw [if_pos hl, hl, hk0]
      exact htracks.1
    · have hsize := wide_of_ne_low hh hl
      rw [Tracks, if_neg (fun hlast => hl (hlow.2 hlast))] at htracks
      rw [if_neg hl, hsize.1, Int.toNat_zero, Nat.zero_add]
      exact htracks k (by omega)

/-- Writes of `rax` and `eax`, and a read of `ax`. No view of one byte is named, so nothing
differs. -/
theorem viewLaw_eax_ax : ViewLaw [⟨.rax, .full⟩, ⟨.rax, .d⟩] ⟨.rax, .w⟩ false :=
  (viewLaw_iff (by decide) (by decide)).2 (by decide)

/-- A write of `al` and a read of `ax`. The byte was written to the place of `ah`. -/
theorem not_viewLaw_al_ax : ¬ ViewLaw [⟨.rax, .l⟩] ⟨.rax, .w⟩ false :=
  fun hlaw => absurd (hlaw.named (by decide) (by decide)) (by decide)

end KRover
