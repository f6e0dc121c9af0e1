import KRover.MemState

/-! # The memory bitmap, byte by byte

`SYMemBitmap` works on runs of bits in 32-byte chunks. Read byte by byte, the
three operations are what their names say: marking a range adds its bytes,
unmarking takes them out, and a range tests as symbolic when one of its bytes
is marked.

Each is proved for one chunk first, and then along the recursion over the
chunks of a range.
-/

set_option autoImplicit false

namespace KRover.SYMemBitmap

/-- The bits of the chunk at `a`; no chunk has no bit set. -/
def bitsAt (B : SYMemBitmap) (a : Nat) : BitVec 32 :=
  ((B.chunk a).map SYMemChunk.bitmap).getD 0#32

/-- Byte `b` of the address space is marked. -/
def Marked (B : SYMemBitmap) (b : Nat) : Prop :=
  (B.bitsAt (b / 32 * 32)).getLsbD (b % 32) = true

/-- A mark is a bit of a word. -/
instance (B : SYMemBitmap) (b : Nat) : Decidable (B.Marked b) :=
  inferInstanceAs (Decidable (_ = true))

/-- A new bitmap has no mark. -/
theorem not_marked_new (b : Nat) : ¬ new.Marked b := by
  rw [Marked, show new.bitsAt (b / 32 * 32) = 0#32 from rfl, BitVec.getLsbD_zero]
  decide

/-! ## One chunk -/

/-- To set a chunk changes the bits of that chunk. -/
@[simp] theorem bitsAt_set (B : SYMemBitmap) (a : Nat) (c : Option SYMemChunk) (k : Nat) :
    (B.set a c).bitsAt k = if k = a then (c.map SYMemChunk.bitmap).getD 0#32 else B.bitsAt k := by
  show (Option.map SYMemChunk.bitmap (Function.update B.chunk a c k)).getD 0#32 = _
  by_cases hk : k = a
  · rw [if_pos hk, hk, Function.update_self]
  · rw [if_neg hk, Function.update_of_ne hk, bitsAt]

/-- The links of the chunks say nothing about the bits. -/
@[simp] theorem bitsAt_setL (B : SYMemBitmap) (a : Nat) (v : Option Nat) (k : Nat) :
    (B.setL a v).bitsAt k = B.bitsAt k := by
  rw [setL, bitsAt_set]
  split
  · rename_i hk
    rw [hk, bitsAt]
    cases B.chunk a <;> rfl
  · rfl

/-- The count of the R-bits has no part in the marks. -/
@[simp] theorem bitsAt_setR (B : SYMemBitmap) (a : Nat) (v : Option Nat) (k : Nat) :
    (B.setR a v).bitsAt k = B.bitsAt k := by
  rw [setR, bitsAt_set]
  split
  · rename_i hk
    rw [hk, bitsAt]
    cases B.chunk a <;> rfl
  · rfl

/-- A chunk that is erased has no bit set. -/
theorem bitsAt_erase (B : SYMemBitmap) (a : Nat) (c : SYMemChunk) (k : Nat) :
    (B.erase a c).bitsAt k = if k = a then 0#32 else B.bitsAt k := by
  have hset : (B.set a none).bitsAt k = if k = a then 0#32 else B.bitsAt k := bitsAt_set ..
  unfold erase
  cases c.l <;> cases c.r <;> simp only [bitsAt_setL, bitsAt_setR, hset]

/-- To mask is to join the bits of a range. -/
theorem bitsAt_maskChunk (B : SYMemBitmap) (a h n k : Nat) :
    (B.maskChunk a h n).bitsAt k
      = if k = a then B.bitsAt a ||| BitRange.mask 32 h n else B.bitsAt k := by
  have hbits : B.bitsAt a = ((B.chunk a).getD ⟨0, none, none⟩).bitmap := by
    rw [bitsAt]
    cases B.chunk a <;> rfl
  rw [maskChunk, bitsAt_set, hbits]
  rfl

/-- To unmask is to clear them. -/
theorem bitsAt_unmaskChunk (B : SYMemBitmap) (a h n k : Nat) :
    (B.unmaskChunk a h n).bitsAt k
      = if k = a then B.bitsAt a &&& ~~~(BitRange.mask 32 h n) else B.bitsAt k := by
  rw [unmaskChunk]
  cases hc : B.chunk a with
  | none =>
    have hzero : B.bitsAt a = 0#32 := by rw [bitsAt, hc]; rfl
    rw [hzero, BitVec.zero_and]
    show B.bitsAt k = _
    split
    · rename_i hk
      rw [hk, hzero]
    · rfl
  | some blk =>
    have hbits : B.bitsAt a = blk.bitmap := by rw [bitsAt, hc]; rfl
    rw [hbits]
    show (if blk.bitmap &&& ~~~(BitRange.mask 32 h n) = 0#32 then _ else _ : SYMemBitmap).bitsAt k
      = _
    split
    · -- the chunk is empty and is dropped
      rename_i hempty
      rw [bitsAt_erase, hempty]
    · rw [bitsAt_set]
      rfl

/-- The test of a range asks for any bit in it. -/
theorem testChunk_iff (B : SYMemBitmap) {a h n : Nat} (hn : h + n ≤ 32) :
    B.testChunk a h n = true ↔ ∃ i, (h ≤ i ∧ i < h + n) ∧ (B.bitsAt a).getLsbD i = true := by
  rw [testChunk, bitsAt]
  cases B.chunk a with
  | none => simp
  | some blk =>
    show (blk.bitmap &&& BitRange.mask 32 h n != 0#32) = true ↔ _
    rw [bne_iff_ne]
    exact BitRange.and_mask_ne_zero_iff hn blk.bitmap

/-- A byte of the chunk at `a` whose offset lies in a run is one of the
range. -/
theorem chunk_offset_iff {a h n b : Nat} (ha : a % 32 = 0) (hn : h + n ≤ 32) :
    (b / 32 * 32 = a ∧ h ≤ b % 32 ∧ b % 32 < h + n) ↔ a + h ≤ b ∧ b < a + h + n := by
  omega

/-- In bytes: what was marked, and the range. -/
theorem marked_maskChunk (B : SYMemBitmap) {a h n : Nat} (ha : a % 32 = 0) (hn : h + n ≤ 32)
    (b : Nat) :
    (B.maskChunk a h n).Marked b ↔ B.Marked b ∨ a + h ≤ b ∧ b < a + h + n := by
  rw [← chunk_offset_iff ha hn, Marked, Marked, bitsAt_maskChunk]
  split
  · rename_i hk
    rw [BitRange.getLsbD_or_mask hn, hk]
    simp
  · rename_i hk
    simp [hk]

/-- In bytes: what was marked outside of the range. -/
theorem marked_unmaskChunk (B : SYMemBitmap) {a h n : Nat} (ha : a % 32 = 0) (hn : h + n ≤ 32)
    (b : Nat) :
    (B.unmaskChunk a h n).Marked b ↔ B.Marked b ∧ ¬ (a + h ≤ b ∧ b < a + h + n) := by
  rw [← chunk_offset_iff ha hn, Marked, Marked, bitsAt_unmaskChunk]
  split
  · rename_i hk
    rw [BitRange.getLsbD_and_not_mask hn, hk]
    simp
  · rename_i hk
    simp [hk]

/-- The test asks for any marked byte of the range. -/
theorem testChunk_iff_marked (B : SYMemBitmap) {a h n : Nat} (ha : a % 32 = 0)
    (hn : h + n ≤ 32) :
    B.testChunk a h n = true ↔ ∃ b, (a + h ≤ b ∧ b < a + h + n) ∧ B.Marked b := by
  rw [testChunk_iff B hn]
  constructor
  · rintro ⟨i, hi, hbit⟩
    have hdiv : (a + i) / 32 * 32 = a := by omega
    have hmod : (a + i) % 32 = i := by omega
    refine ⟨a + i, by omega, ?_⟩
    rw [Marked, hdiv, hmod]
    exact hbit
  · rintro ⟨b, hb, hbit⟩
    obtain ⟨hdiv, hoff⟩ := (chunk_offset_iff ha hn).2 hb
    rw [Marked, hdiv] at hbit
    exact ⟨b % 32, hoff, hbit⟩

/-! ## Ranges -/

/-- The sum `align_sz` of a call does not overflow. -/
def NoWrap (addr size : Nat) : Prop := addr % 32 + size < 2 ^ 64

/-- The size from the start of the chunk on does not wrap where the access does not. -/
theorem alignSz_mod {addr size : Nat} (h : NoWrap addr size) :
    (addr - addr / 32 * 32 + size) % 2 ^ 64 = addr - addr / 32 * 32 + size := by
  unfold NoWrap at h
  omega

/-- What is left of a range behind its first chunk does not wrap either. -/
theorem NoWrap.rest {addr size : Nat} (h : NoWrap addr size) (next : Nat)
    (hnext : next % 32 = 0) : NoWrap next (size - (32 - (addr - addr / 32 * 32))) := by
  unfold NoWrap at *
  omega

/-- Marking a range adds its bytes. The induction is on what is left of the
range behind the first chunk. -/
theorem marked_markSYMemBitmap (B : SYMemBitmap) {addr size : Nat} (h : addr + size ≤ 2 ^ 64)
    (hw : NoWrap addr size) (b : Nat) :
    (B.markSYMemBitmap addr size).2.Marked b ↔ B.Marked b ∨ addr ≤ b ∧ b < addr + size := by
  induction size using Nat.strong_induction_on generalizing B addr with
  | _ size ih =>
    have ha : addr / 32 * 32 % 32 = 0 := by omega
    have hcave : addr / 32 * 32 + (addr - addr / 32 * 32) = addr := by omega
    rw [markSYMemBitmap]
    simp only [alignSz_mod hw]
    split
    · rename_i hbig
      have hnext : (addr / 32 * 32 + 32) % 2 ^ 64 = addr / 32 * 32 + 32 := by omega
      have hrest := @ih (size - (32 - (addr - addr / 32 * 32))) (by omega)
        (B.maskChunk (addr / 32 * 32) (addr - addr / 32 * 32) (32 - (addr - addr / 32 * 32)))
        (addr / 32 * 32 + 32) (by omega) (hw.rest _ (by omega))
      simp only [hnext]
      rw [Marked, bitsAt_setL, bitsAt_setR, ← Marked, hrest,
        marked_maskChunk B ha (by omega), hcave]
      constructor
      · rintro ((hb | hb) | hb)
        · exact Or.inl hb
        · exact Or.inr (by omega)
        · exact Or.inr (by omega)
      · rintro (hb | hb)
        · exact Or.inl (Or.inl hb)
        · by_cases hlt : b < addr / 32 * 32 + 32
          · exact Or.inl (Or.inr (by omega))
          · exact Or.inr (by omega)
    · rename_i hsmall
      have hchunk := marked_maskChunk B ha (show addr - addr / 32 * 32 + size ≤ 32 by omega) b
      rwa [hcave] at hchunk

/-- Unmarking a range takes its bytes out. -/
theorem marked_unmarkSYMemBitmap (B : SYMemBitmap) {addr size : Nat} (h : addr + size ≤ 2 ^ 64)
    (hw : NoWrap addr size) (b : Nat) :
    (B.unmarkSYMemBitmap addr size).Marked b
      ↔ B.Marked b ∧ ¬ (addr ≤ b ∧ b < addr + size) := by
  induction size using Nat.strong_induction_on generalizing B addr with
  | _ size ih =>
    have ha : addr / 32 * 32 % 32 = 0 := by omega
    have hcave : addr / 32 * 32 + (addr - addr / 32 * 32) = addr := by omega
    rw [unmarkSYMemBitmap]
    simp only [alignSz_mod hw]
    split
    · rename_i hbig
      have hnext : (addr / 32 * 32 + 32) % 2 ^ 64 = addr / 32 * 32 + 32 := by omega
      have hrest := @ih (size - (32 - (addr - addr / 32 * 32))) (by omega)
        (B.unmaskChunk (addr / 32 * 32) (addr - addr / 32 * 32) (32 - (addr - addr / 32 * 32)))
        (addr / 32 * 32 + 32) (by omega) (hw.rest _ (by omega))
      simp only [hnext]
      rw [hrest, marked_unmaskChunk B ha (by omega), hcave, and_assoc]
      refine and_congr_right fun _ => ?_
      omega
    · rename_i hsmall
      have hchunk := marked_unmaskChunk B ha (show addr - addr / 32 * 32 + size ≤ 32 by omega) b
      rwa [hcave] at hchunk

/-- A range tests as symbolic when one of its bytes is marked. A range that
runs past the last address goes on at the first. -/
theorem testSYMemBitmap_iff_mod (B : SYMemBitmap) {addr size : Nat} (ha64 : addr < 2 ^ 64)
    (hw : NoWrap addr size) :
    B.testSYMemBitmap addr size = true ↔ ∃ k < size, B.Marked ((addr + k) % 2 ^ 64) := by
  induction size using Nat.strong_induction_on generalizing addr with
  | _ size ih =>
    have ha : addr / 32 * 32 % 32 = 0 := by omega
    have hcave : addr / 32 * 32 + (addr - addr / 32 * 32) = addr := by omega
    rw [testSYMemBitmap]
    simp only [alignSz_mod hw]
    split
    · rename_i hbig
      have hrest := @ih (size - (32 - (addr - addr / 32 * 32))) (by omega)
        ((addr / 32 * 32 + 32) % 2 ^ 64) (by omega) (hw.rest _ (by omega))
      rw [Bool.or_eq_true, hrest, testChunk_iff_marked B ha (by omega), hcave]
      constructor
      · rintro (⟨b, hb, hm⟩ | ⟨k, hk, hm⟩)
        · have hmod : (addr + (b - addr)) % 2 ^ 64 = b := by omega
          exact ⟨b - addr, by omega, by rw [hmod]; exact hm⟩
        · have hmod : (addr + (32 - (addr - addr / 32 * 32) + k)) % 2 ^ 64
              = ((addr / 32 * 32 + 32) % 2 ^ 64 + k) % 2 ^ 64 := by omega
          exact ⟨32 - (addr - addr / 32 * 32) + k, by omega, by rw [hmod]; exact hm⟩
      · rintro ⟨k, hk, hm⟩
        by_cases hlt : addr + k < addr / 32 * 32 + 32
        · have hmod : (addr + k) % 2 ^ 64 = addr + k := by omega
          rw [hmod] at hm
          exact Or.inl ⟨addr + k, by omega, hm⟩
        · have hmod : ((addr / 32 * 32 + 32) % 2 ^ 64 + (k - (32 - (addr - addr / 32 * 32))))
              % 2 ^ 64 = (addr + k) % 2 ^ 64 := by omega
          exact Or.inr ⟨k - (32 - (addr - addr / 32 * 32)), by omega, by rw [hmod]; exact hm⟩
    · rename_i hsmall
      rw [testChunk_iff_marked B ha (show addr - addr / 32 * 32 + size ≤ 32 by omega), hcave]
      constructor
      · rintro ⟨b, hb, hm⟩
        have hmod : (addr + (b - addr)) % 2 ^ 64 = b := by omega
        exact ⟨b - addr, by omega, by rw [hmod]; exact hm⟩
      · rintro ⟨k, hk, hm⟩
        have hmod : (addr + k) % 2 ^ 64 = addr + k := by omega
        rw [hmod] at hm
        exact ⟨addr + k, by omega, hm⟩

/-- A range inside the address space tests as symbolic when one of its bytes
is marked. -/
theorem testSYMemBitmap_iff (B : SYMemBitmap) {addr size : Nat} (h : addr + size ≤ 2 ^ 64)
    (hpos : 0 < size) (hw : NoWrap addr size) :
    B.testSYMemBitmap addr size = true
      ↔ ∃ b, (addr ≤ b ∧ b < addr + size) ∧ B.Marked b := by
  rw [testSYMemBitmap_iff_mod B (by omega) hw]
  constructor
  · rintro ⟨k, hk, hm⟩
    rw [Nat.mod_eq_of_lt (by omega)] at hm
    exact ⟨addr + k, by omega, hm⟩
  · rintro ⟨b, hb, hm⟩
    have hmod : (addr + (b - addr)) % 2 ^ 64 = b := by omega
    exact ⟨b - addr, by omega, by rw [hmod]; exact hm⟩

end KRover.SYMemBitmap
