import KRover.Proofs.MemBitmap

/-! # Runs of the memory bitmap

A run marks and unmarks ranges in any order, starting from the empty bitmap.
The bitmap then answers for every byte what the calls say, no chunk is left
without a set bit, and the links between chunks are those of neighbours.

The sum `hcave_sz + size` is a `ulong`. It overflows in one kind of call only,
a range that starts inside the first block and ends with the address space,
and then just the rest of the first block is marked (`mark_wraps`).

* `LinksOk`: the invariant of the links;
* `linksOk_markSYMemBitmap`, `linksOk_unmarkSYMemBitmap`: each call keeps it;
* `bitmap_run`: every run whose calls do not overflow.
-/

set_option autoImplicit false

namespace KRover.SYMemBitmap

/-! ## The chunks that are there -/

/-- No chunk is without a set bit. -/
def NonZero (B : SYMemBitmap) : Prop := ∀ a c, B.chunk a = some c → c.bitmap ≠ 0#32

/-- There is no node yet, so none with an empty bitmap. -/
theorem nonZero_new : NonZero new := by
  intro a c hc
  exact absurd hc (by simp [new])

/-- There is a chunk at `a`. -/
def Live (B : SYMemBitmap) (a : Nat) : Prop := (B.chunk a).isSome = true

/-- A node with a mark may be put into the tree. -/
theorem nonZero_set {B : SYMemBitmap} (h : NonZero B) {a : Nat} {c : Option SYMemChunk}
    (hc : ∀ d, c = some d → d.bitmap ≠ 0#32) : NonZero (B.set a c) := by
  intro k d hd
  have hd' : Function.update B.chunk a c k = some d := hd
  by_cases hk : k = a
  · rw [hk, Function.update_self] at hd'
    exact hc d hd'
  · rw [Function.update_of_ne hk] at hd'
    exact h k d hd'

/-- The links are no part of the bitmap of a node. -/
theorem nonZero_setL {B : SYMemBitmap} (h : NonZero B) (a : Nat) (v : Option Nat) :
    NonZero (B.setL a v) := by
  refine nonZero_set h fun d hd => ?_
  obtain ⟨c, hc, rfl⟩ := Option.map_eq_some_iff.1 hd
  exact h a c hc

/-- The same of the other link. -/
theorem nonZero_setR {B : SYMemBitmap} (h : NonZero B) (a : Nat) (v : Option Nat) :
    NonZero (B.setR a v) := by
  refine nonZero_set h fun d hd => ?_
  obtain ⟨c, hc, rfl⟩ := Option.map_eq_some_iff.1 hd
  exact h a c hc

/-- A node is removed, and its neighbours change their links only. -/
theorem nonZero_erase {B : SYMemBitmap} (h : NonZero B) (a : Nat) (c : SYMemChunk) :
    NonZero (B.erase a c) := by
  have hset : NonZero (B.set a none) := nonZero_set h fun d hd => absurd hd (by simp)
  unfold erase
  cases c.l with
  | none =>
    cases c.r with
    | none => exact hset
    | some q => exact nonZero_setL hset q none
  | some p =>
    cases c.r with
    | none => exact nonZero_setR hset p none
    | some q => exact nonZero_setL (nonZero_setR hset p none) q none

/-- Setting a run of bits that is not empty leaves a bit set. -/
theorem nonZero_maskChunk {B : SYMemBitmap} (hB : NonZero B) (a : Nat) {h n : Nat}
    (hn : 0 < n) (hh : h < 32) : NonZero (B.maskChunk a h n) := by
  refine nonZero_set hB fun d hd => ?_
  rw [← Option.some.inj hd]
  intro hzero
  -- the first bit of the run is set
  have hbit : (((B.chunk a).getD ⟨0, none, none⟩).bitmap ||| BitRange.mask 32 h n).getLsbD h
      = true := by
    rw [BitVec.getLsbD_or, BitRange.getLsbD_mask_first hn hh, Bool.or_true]
  rw [show ((B.chunk a).getD ⟨0, none, none⟩).bitmap ||| BitRange.mask 32 h n = 0#32 from hzero,
    BitVec.getLsbD_zero] at hbit
  exact Bool.false_ne_true hbit

/-- Unmarking removes the node when its last mark goes. -/
theorem nonZero_unmaskChunk {B : SYMemBitmap} (hB : NonZero B) (a h n : Nat) :
    NonZero (B.unmaskChunk a h n) := by
  rw [unmaskChunk]
  cases B.chunk a with
  | none => exact hB
  | some blk =>
    show NonZero (if blk.bitmap &&& ~~~(BitRange.mask 32 h n) = 0#32 then _ else _ : SYMemBitmap)
    split
    · exact nonZero_erase hB a _
    · rename_i hne
      refine nonZero_set hB fun d hd => ?_
      rw [← Option.some.inj hd]
      exact hne

/-- Marking a range marks at least one byte in each chunk that it touches. By recursion over
the chunks, as the code. -/
theorem nonZero_markSYMemBitmap (B : SYMemBitmap) {addr size : Nat} (hpos : 0 < size)
    (hB : NonZero B) : NonZero (B.markSYMemBitmap addr size).2 := by
  induction size using Nat.strong_induction_on generalizing B addr with
  | _ size ih =>
    rw [markSYMemBitmap]
    split
    · have hmask := nonZero_maskChunk hB (addr / 32 * 32)
        (show 0 < 32 - (addr - addr / 32 * 32) by omega)
        (show addr - addr / 32 * 32 < 32 by omega)
      have hrest := @ih (size - (32 - (addr - addr / 32 * 32))) (by omega) _
        ((addr / 32 * 32 + 32) % 2 ^ 64) (by omega) hmask
      exact nonZero_setL (nonZero_setR hrest _ _) _ _
    · exact nonZero_maskChunk hB _ hpos (by omega)

/-- Unmarking a range, chunk by chunk. -/
theorem nonZero_unmarkSYMemBitmap (B : SYMemBitmap) {addr size : Nat} (hB : NonZero B) :
    NonZero (B.unmarkSYMemBitmap addr size) := by
  induction size using Nat.strong_induction_on generalizing B addr with
  | _ size ih =>
    rw [unmarkSYMemBitmap]
    split
    · exact ih (size - (32 - (addr - addr / 32 * 32))) (by omega) _
        (nonZero_unmaskChunk hB _ _ _)
    · exact nonZero_unmaskChunk hB _ _ _

/-! ## The links -/

/-- The left link of the chunk at `a`. -/
def lOf (B : SYMemBitmap) (a : Nat) : Option Nat := (B.chunk a).bind SYMemChunk.l

/-- The right link of the chunk at `a`. -/
def rOf (B : SYMemBitmap) (a : Nat) : Option Nat := (B.chunk a).bind SYMemChunk.r

/-- The links are inverse to each other and lead to the next block. -/
structure LinksOk (B : SYMemBitmap) : Prop where
  inverse : ∀ a p, B.lOf a = some p ↔ B.rOf p = some a
  next : ∀ p a, B.rOf p = some a → a = p + 32

/-- No node has a link yet. -/
theorem linksOk_new : LinksOk new := by
  constructor
  · intro a p
    exact iff_of_false (by simp [lOf, new]) (by simp [rOf, new])
  · intro p a h
    exact absurd h (by simp [rOf, new])

/-- The invariant is about the two link functions only. -/
theorem LinksOk.congr {B B' : SYMemBitmap} (h : LinksOk B) (hl : ∀ a, B'.lOf a = B.lOf a)
    (hr : ∀ a, B'.rOf a = B.rOf a) : LinksOk B' := by
  constructor
  · intro a p
    rw [hl, hr]
    exact h.inverse a p
  · intro p a
    rw [hr]
    exact h.next p a

/-- The left link of each chunk behind a write of one node. -/
theorem lOf_set (B : SYMemBitmap) (a : Nat) (c : Option SYMemChunk) (k : Nat) :
    (B.set a c).lOf k = if k = a then c.bind SYMemChunk.l else B.lOf k := by
  show (Function.update B.chunk a c k).bind SYMemChunk.l = _
  by_cases hk : k = a
  · rw [if_pos hk, hk, Function.update_self]
  · rw [if_neg hk, Function.update_of_ne hk, lOf]

/-- The right link of each chunk behind a write of one node. -/
theorem rOf_set (B : SYMemBitmap) (a : Nat) (c : Option SYMemChunk) (k : Nat) :
    (B.set a c).rOf k = if k = a then c.bind SYMemChunk.r else B.rOf k := by
  show (Function.update B.chunk a c k).bind SYMemChunk.r = _
  by_cases hk : k = a
  · rw [if_pos hk, hk, Function.update_self]
  · rw [if_neg hk, Function.update_of_ne hk, rOf]

/-- Which chunks have a node behind a write of one. -/
theorem live_set (B : SYMemBitmap) (a : Nat) (c : Option SYMemChunk) (k : Nat) :
    (B.set a c).Live k ↔ if k = a then c.isSome = true else B.Live k := by
  show (Function.update B.chunk a c k).isSome = true ↔ _
  by_cases hk : k = a
  · rw [if_pos hk, hk, Function.update_self]
  · rw [if_neg hk, Function.update_of_ne hk, Live]

/-- A link changes, and no node comes or goes. -/
theorem live_setL (B : SYMemBitmap) (a : Nat) (v : Option Nat) (k : Nat) :
    (B.setL a v).Live k ↔ B.Live k := by
  rw [setL, live_set]
  split
  · rename_i hk
    rw [hk, Live, Option.isSome_map]
  · rfl

/-- The same of the other link. -/
theorem live_setR (B : SYMemBitmap) (a : Nat) (v : Option Nat) (k : Nat) :
    (B.setR a v).Live k ↔ B.Live k := by
  rw [setR, live_set]
  split
  · rename_i hk
    rw [hk, Live, Option.isSome_map]
  · rfl

/-- A left link is written at a node that is there. -/
theorem lOf_setL (B : SYMemBitmap) {a : Nat} (ha : B.Live a) (v : Option Nat) (k : Nat) :
    (B.setL a v).lOf k = if k = a then v else B.lOf k := by
  obtain ⟨c, hc⟩ := Option.isSome_iff_exists.1 ha
  rw [setL, lOf_set, hc]
  rfl

/-- A right link is written, and the left ones stay. -/
theorem lOf_setR (B : SYMemBitmap) (a : Nat) (v : Option Nat) (k : Nat) :
    (B.setR a v).lOf k = B.lOf k := by
  rw [setR, lOf_set]
  split
  · rename_i hk
    rw [hk, lOf]
    cases B.chunk a <;> rfl
  · rfl

/-- A right link is written at a node that is there. -/
theorem rOf_setR (B : SYMemBitmap) {a : Nat} (ha : B.Live a) (v : Option Nat) (k : Nat) :
    (B.setR a v).rOf k = if k = a then v else B.rOf k := by
  obtain ⟨c, hc⟩ := Option.isSome_iff_exists.1 ha
  rw [setR, rOf_set, hc]
  rfl

/-- A left link is written, and the right ones stay. -/
theorem rOf_setL (B : SYMemBitmap) (a : Nat) (v : Option Nat) (k : Nat) :
    (B.setL a v).rOf k = B.rOf k := by
  rw [setL, rOf_set]
  split
  · rename_i hk
    rw [hk, rOf]
    cases B.chunk a <;> rfl
  · rfl

/-- Resetting the left link of a chunk that may not be there. -/
theorem lOf_setL_none (B : SYMemBitmap) (a k : Nat) :
    (B.setL a none).lOf k = if k = a then none else B.lOf k := by
  rw [setL, lOf_set]
  split
  · cases B.chunk a <;> rfl
  · rfl

/-- A right link is cut. Where there is no node there was no link, so this needs none. -/
theorem rOf_setR_none (B : SYMemBitmap) (a k : Nat) :
    (B.setR a none).rOf k = if k = a then none else B.rOf k := by
  rw [setR, rOf_set]
  split
  · cases B.chunk a <;> rfl
  · rfl

/-- A new chunk has no links, and an old one keeps them. -/
theorem links_maskChunk (B : SYMemBitmap) (a h n k : Nat) :
    (B.maskChunk a h n).lOf k = B.lOf k ∧ (B.maskChunk a h n).rOf k = B.rOf k := by
  rw [maskChunk, lOf_set, rOf_set]
  by_cases hk : k = a
  · rw [if_pos hk, if_pos hk, hk, lOf, rOf]
    cases B.chunk a <;> exact ⟨rfl, rfl⟩
  · rw [if_neg hk, if_neg hk]
    exact ⟨rfl, rfl⟩

/-- The destructor of a chunk resets the links that lead to it. -/
theorem linksOk_erase {B : SYMemBitmap} (h : LinksOk B) {a : Nat} {c d : SYMemChunk}
    (hc : B.chunk a = some c) (hl : d.l = c.l) (hr : d.r = c.r) : LinksOk (B.erase a d) := by
  have hla : B.lOf a = d.l := by rw [lOf, hc, hl]; rfl
  have hra : B.rOf a = d.r := by rw [rOf, hc, hr]; rfl
  have hlset : ∀ k, (B.set a none).lOf k = if k = a then none else B.lOf k := lOf_set B a none
  have hrset : ∀ k, (B.set a none).rOf k = if k = a then none else B.rOf k := rOf_set B a none
  have hl' : ∀ k, (B.erase a d).lOf k
      = if k = a ∨ d.r = some k then none else B.lOf k := by
    intro k
    unfold erase
    cases d.l <;> cases d.r <;>
      simp only [lOf_setL_none, lOf_setR, hlset, Option.some_inj] <;> grind
  have hr' : ∀ k, (B.erase a d).rOf k
      = if k = a ∨ d.l = some k then none else B.rOf k := by
    intro k
    unfold erase
    cases d.l <;> cases d.r <;>
      simp only [rOf_setR_none, rOf_setL, hrset, Option.some_inj] <;> grind
  -- What was linked to the erased chunk is unlinked on both sides.
  constructor
  · intro y p
    rw [hl', hr']
    have hy : y = a → B.rOf p = some y → d.l = some p := by
      intro hya hp
      rw [← hla, ← hya]
      exact (h.inverse y p).2 hp
    have hp : d.r = some y → B.lOf y = some p → p = a := by
      intro hdr hlp
      have hay := (h.inverse y a).2 (by rw [hra, hdr])
      rw [hlp] at hay
      exact Option.some.inj hay
    have hy' : d.l = some p → B.rOf p = some y → y = a := by
      intro hdl hrp
      have hpa := (h.inverse a p).1 (by rw [hla, hdl])
      rw [hrp] at hpa
      exact Option.some.inj hpa
    have hp' : p = a → B.rOf p = some y → d.r = some y := by
      intro hpa hrp
      rw [← hra, ← hpa]
      exact hrp
    have hinv := h.inverse y p
    grind
  · intro p x hx
    rw [hr'] at hx
    split at hx
    · simp at hx
    · exact h.next p x hx

/-- Unmarking keeps the links right. A node that goes is taken out between its two
neighbours. -/
theorem linksOk_unmaskChunk {B : SYMemBitmap} (hB : LinksOk B) (a h n : Nat) :
    LinksOk (B.unmaskChunk a h n) := by
  rw [unmaskChunk]
  cases hc : B.chunk a with
  | none => exact hB
  | some blk =>
    show LinksOk (if blk.bitmap &&& ~~~(BitRange.mask 32 h n) = 0#32 then _ else _ : SYMemBitmap)
    split
    · exact linksOk_erase hB hc rfl rfl
    · refine hB.congr (fun k => ?_) (fun k => ?_)
      · rw [lOf_set]
        split
        · rename_i hk
          rw [hk, lOf, hc]
          rfl
        · rfl
      · rw [rOf_set]
        split
        · rename_i hk
          rw [hk, rOf, hc]
          rfl
        · rfl

/-- Linking a chunk to the one in the next block. -/
theorem linksOk_link {B : SYMemBitmap} (h : LinksOk B) {a : Nat} (ha : B.Live a)
    (hr : B.Live (a + 32)) :
    LinksOk ((B.setR a (some (a + 32))).setL (a + 32) (some a)) := by
  have hl' : ∀ k, ((B.setR a (some (a + 32))).setL (a + 32) (some a)).lOf k
      = if k = a + 32 then some a else B.lOf k := by
    intro k
    rw [lOf_setL _ ((live_setR B a _ _).2 hr), lOf_setR]
  have hr' : ∀ k, ((B.setR a (some (a + 32))).setL (a + 32) (some a)).rOf k
      = if k = a then some (a + 32) else B.rOf k := by
    intro k
    rw [rOf_setL, rOf_setR _ ha]
  constructor
  · intro y p
    rw [hl', hr']
    have hinv := h.inverse y p
    have hnext := h.next p y
    by_cases hy : y = a + 32
    · by_cases hp : p = a
      · simp [hy, hp]
      · -- another chunk cannot lead to the next block of `a`
        rw [if_pos hy, if_neg hp]
        refine iff_of_false (fun heq => hp (Option.some.inj heq).symm) (fun heq => ?_)
        have hyp := hnext heq
        omega
    · by_cases hp : p = a
      · rw [if_neg hy, if_pos hp, hinv]
        refine iff_of_false (fun heq => ?_) (fun heq => hy (Option.some.inj heq).symm)
        have hyp := hnext heq
        omega
      · rw [if_neg hy, if_neg hp]
        exact hinv
  · intro p x hx
    rw [hr'] at hx
    split at hx
    · rename_i hp
      rw [← Option.some.inj hx, hp]
    · exact h.next p x hx

/-- A chunk that is marked has a node. -/
theorem live_maskChunk (B : SYMemBitmap) (a h n : Nat) : (B.maskChunk a h n).Live a := by
  rw [maskChunk, live_set, if_pos rfl]
  rfl

/-- Marking removes no node. -/
theorem live_maskChunk_of_live {B : SYMemBitmap} {k : Nat} (hk : B.Live k) (a h n : Nat) :
    (B.maskChunk a h n).Live k := by
  rw [maskChunk, live_set]
  split
  · rfl
  · exact hk

/-- Marking keeps every chunk, adds that of its address, and returns it. -/
theorem live_markSYMemBitmap (B : SYMemBitmap) (addr size : Nat) :
    (B.markSYMemBitmap addr size).1 = addr / 32 * 32 ∧
      (B.markSYMemBitmap addr size).2.Live (addr / 32 * 32) ∧
      ∀ k, B.Live k → (B.markSYMemBitmap addr size).2.Live k := by
  induction size using Nat.strong_induction_on generalizing B addr with
  | _ size ih =>
    rw [markSYMemBitmap]
    split
    · have hrest := @ih (size - (32 - (addr - addr / 32 * 32))) (by omega)
        (B.maskChunk (addr / 32 * 32) (addr - addr / 32 * 32) (32 - (addr - addr / 32 * 32)))
        ((addr / 32 * 32 + 32) % 2 ^ 64)
      refine ⟨rfl, ?_, fun k hk => ?_⟩
      · rw [live_setL, live_setR]
        exact hrest.2.2 _ (live_maskChunk B _ _ _)
      · rw [live_setL, live_setR]
        exact hrest.2.2 _ (live_maskChunk_of_live hk _ _ _)
    · exact ⟨rfl, live_maskChunk B _ _ _, fun k hk => live_maskChunk_of_live hk _ _ _⟩

/-- Marking a range keeps the links in order. -/
theorem linksOk_markSYMemBitmap (B : SYMemBitmap) {addr size : Nat}
    (h : addr + size ≤ 2 ^ 64) (hw : NoWrap addr size) (hB : LinksOk B) :
    LinksOk (B.markSYMemBitmap addr size).2 := by
  induction size using Nat.strong_induction_on generalizing B addr with
  | _ size ih =>
    have hmask : ∀ a x n, LinksOk (B.maskChunk a x n) := fun a x n =>
      hB.congr (fun k => (links_maskChunk B a x n k).1) (fun k => (links_maskChunk B a x n k).2)
    rw [markSYMemBitmap]
    simp only [alignSz_mod hw]
    split
    · rename_i hbig
      have hnext : (addr / 32 * 32 + 32) % 2 ^ 64 = addr / 32 * 32 + 32 := by omega
      have hblock : (addr / 32 * 32 + 32) / 32 * 32 = addr / 32 * 32 + 32 := by omega
      have hrest := @ih (size - (32 - (addr - addr / 32 * 32))) (by omega)
        (B.maskChunk (addr / 32 * 32) (addr - addr / 32 * 32) (32 - (addr - addr / 32 * 32)))
        (addr / 32 * 32 + 32) (by omega) (hw.rest _ (by omega)) (hmask _ _ _)
      obtain ⟨hfst, hlive, hkeep⟩ := live_markSYMemBitmap
        (B.maskChunk (addr / 32 * 32) (addr - addr / 32 * 32) (32 - (addr - addr / 32 * 32)))
        (addr / 32 * 32 + 32) (size - (32 - (addr - addr / 32 * 32)))
      rw [hblock] at hfst hlive
      simp only [hnext, hfst]
      exact linksOk_link hrest (hkeep _ (live_maskChunk B _ _ _)) hlive
    · exact hmask _ _ _

/-- Unmarking a range, chunk by chunk. -/
theorem linksOk_unmarkSYMemBitmap (B : SYMemBitmap) {addr size : Nat} (hB : LinksOk B) :
    LinksOk (B.unmarkSYMemBitmap addr size) := by
  induction size using Nat.strong_induction_on generalizing B addr with
  | _ size ih =>
    rw [unmarkSYMemBitmap]
    split
    · exact ih (size - (32 - (addr - addr / 32 * 32))) (by omega) _
        (linksOk_unmaskChunk hB _ _ _)
    · exact linksOk_unmaskChunk hB _ _ _

/-! ## Runs -/

/-- One call. -/
inductive BitmapOp where
  | mark (addr size : Nat)
  | unmark (addr size : Nat)

/-- The bitmap after a call. -/
def BitmapOp.apply (B : SYMemBitmap) : BitmapOp → SYMemBitmap
  | .mark addr size => (B.markSYMemBitmap addr size).2
  | .unmark addr size => B.unmarkSYMemBitmap addr size

/-- The bitmap after a sequence of calls, the first one first. -/
def afterOps (ops : List BitmapOp) : SYMemBitmap := ops.foldl BitmapOp.apply new

/-- The call has a range that is not empty and does not run past the last
address. -/
def BitmapOp.Valid : BitmapOp → Prop
  | .mark addr size | .unmark addr size => 1 ≤ size ∧ addr + size ≤ 2 ^ 64

/-- The sum of the call does not overflow. -/
def BitmapOp.NoOverflow : BitmapOp → Prop
  | .mark addr size | .unmark addr size => NoWrap addr size

/-- Byte `b` was marked after it was last unmarked. -/
def LastMarked (ops : List BitmapOp) (b : Nat) : Prop :=
  ∃ l a n r, ops = l ++ .mark a n :: r ∧ (a ≤ b ∧ b < a + n) ∧
    ∀ a' n', .unmark a' n' ∈ r → ¬ (a' ≤ b ∧ b < a' + n')

/-- Before the first call nothing is marked. -/
theorem not_lastMarked_nil (b : Nat) : ¬ LastMarked [] b := by
  rintro ⟨l, a, n, r, h, -⟩
  simp at h

/-- A call at the end marks its bytes and leaves the others. -/
theorem lastMarked_concat_mark (ops : List BitmapOp) (a n b : Nat) :
    LastMarked (ops ++ [.mark a n]) b ↔ LastMarked ops b ∨ a ≤ b ∧ b < a + n := by
  constructor
  · rintro ⟨l, a', n', r, h, hb, hr⟩
    rcases List.eq_nil_or_concat r with rfl | ⟨r, op, rfl⟩
    · have hlast := (List.append_inj' h rfl).2
      obtain ⟨rfl, rfl⟩ := BitmapOp.mark.inj (List.cons.inj hlast).1
      exact Or.inr hb
    · rw [List.concat_eq_append, ← List.cons_append, ← List.append_assoc] at h
      refine Or.inl ⟨l, a', n', r, (List.append_inj' h rfl).1, hb, fun a₁ n₁ hmem => ?_⟩
      exact hr a₁ n₁ (by rw [List.concat_eq_append]; exact List.mem_append_left _ hmem)
  · rintro (⟨l, a', n', r, rfl, hb, hr⟩ | hb)
    · refine ⟨l, a', n', r ++ [.mark a n], by simp, hb, fun a₁ n₁ hmem => ?_⟩
      rcases List.mem_append.1 hmem with hmem | hmem
      · exact hr a₁ n₁ hmem
      · exact absurd (List.mem_singleton.1 hmem) (by simp)
    · exact ⟨ops, a, n, [], rfl, hb, by simp⟩

/-- A call at the end unmarks its bytes and leaves the others. -/
theorem lastMarked_concat_unmark (ops : List BitmapOp) (a n b : Nat) :
    LastMarked (ops ++ [.unmark a n]) b ↔ LastMarked ops b ∧ ¬ (a ≤ b ∧ b < a + n) := by
  constructor
  · rintro ⟨l, a', n', r, h, hb, hr⟩
    rcases List.eq_nil_or_concat r with rfl | ⟨r, op, rfl⟩
    · have hlast := (List.append_inj' h rfl).2
      exact absurd (List.cons.inj hlast).1 (by simp)
    · rw [List.concat_eq_append] at hr
      rw [List.concat_eq_append, ← List.cons_append, ← List.append_assoc] at h
      obtain ⟨hops, hlast⟩ := List.append_inj' h rfl
      have hop : BitmapOp.unmark a n = op := (List.cons.inj hlast).1
      refine ⟨⟨l, a', n', r, hops, hb, fun a₁ n₁ hmem => ?_⟩, ?_⟩
      · exact hr a₁ n₁ (List.mem_append_left _ hmem)
      · exact hr a n (by simp [hop])
  · rintro ⟨⟨l, a', n', r, rfl, hb, hr⟩, hnot⟩
    refine ⟨l, a', n', r ++ [.unmark a n], by simp, hb, fun a₁ n₁ hmem => ?_⟩
    rcases List.mem_append.1 hmem with hmem | hmem
    · exact hr a₁ n₁ hmem
    · obtain ⟨rfl, rfl⟩ := BitmapOp.unmark.inj (List.mem_singleton.1 hmem)
      exact hnot

/-- What holds of the bitmap after every run. -/
structure RunInv (ops : List BitmapOp) (B : SYMemBitmap) : Prop where
  marked : ∀ b, B.Marked b ↔ LastMarked ops b
  nonZero : NonZero B
  links : LinksOk B

/-- One more call keeps the invariant. -/
theorem RunInv.concat {ops : List BitmapOp} {B : SYMemBitmap} (h : RunInv ops B) {op : BitmapOp}
    (hv : op.Valid) (hw : op.NoOverflow) : RunInv (ops ++ [op]) (op.apply B) := by
  cases op with
  | mark addr size =>
    refine ⟨fun b => ?_, nonZero_markSYMemBitmap B hv.1 h.nonZero,
      linksOk_markSYMemBitmap B hv.2 hw h.links⟩
    rw [lastMarked_concat_mark, ← h.marked b]
    exact marked_markSYMemBitmap B hv.2 hw b
  | unmark addr size =>
    refine ⟨fun b => ?_, nonZero_unmarkSYMemBitmap B h.nonZero,
      linksOk_unmarkSYMemBitmap B h.links⟩
    rw [lastMarked_concat_unmark, ← h.marked b]
    exact marked_unmarkSYMemBitmap B hv.2 hw b

/-- The invariant of the calls holds behind every sequence of them. By induction on the
sequence, from its end. -/
theorem runInv_afterOps {ops : List BitmapOp} (hv : ∀ op ∈ ops, op.Valid)
    (hw : ∀ op ∈ ops, op.NoOverflow) : RunInv ops (afterOps ops) := by
  induction ops using List.reverseRecOn with
  | nil =>
    refine ⟨fun b => ?_, nonZero_new, linksOk_new⟩
    exact iff_of_false (not_marked_new b) (not_lastMarked_nil b)
  | append_singleton ops op ih =>
    have ih := ih (fun x hx => hv x (by simp [hx])) (fun x hx => hw x (by simp [hx]))
    rw [afterOps, List.foldl_append]
    exact ih.concat (hv op (by simp)) (hw op (by simp))

/-- After every run whose calls do not overflow, a range tests as symbolic exactly when one
of its bytes was marked after it was last unmarked, no chunk is without a set bit, and the
links lead to the neighbours and back. A call goes from chunk to chunk, and the sum of the
offset in the chunk and the size is taken modulo 2^64. Without the overflow the invariant of
the run is that the chunks are those with a set bit, linked where a range went over their
ends. -/
theorem bitmap_run (ops : List BitmapOp) (hv : ∀ op ∈ ops, op.Valid)
    (hw : ∀ op ∈ ops, op.NoOverflow) :
    (∀ a n, a < 2 ^ 64 → 1 ≤ n → NoWrap a n →
      ((afterOps ops).testSYMemBitmap a n = true
        ↔ ∃ k < n, LastMarked ops ((a + k) % 2 ^ 64))) ∧
    (∀ a c, (afterOps ops).chunk a = some c → c.bitmap ≠ 0#32) ∧
    (∀ a c, (afterOps ops).chunk a = some c →
      (∀ p, c.l = some p →
        a = p + 32 ∧ ∃ d, (afterOps ops).chunk p = some d ∧ d.r = some a) ∧
      (∀ q, c.r = some q →
        q = a + 32 ∧ ∃ d, (afterOps ops).chunk q = some d ∧ d.l = some a)) := by
  -- The invariant of the run says all four parts at once.
  have hinv := runInv_afterOps hv hw
  refine ⟨fun a n ha _ hn => ?_, hinv.nonZero, fun a c hc => ⟨fun p hp => ?_, fun q hq => ?_⟩⟩
  · rw [testSYMemBitmap_iff_mod _ ha hn]
    simp only [hinv.marked]
  · have hl : (afterOps ops).lOf a = some p := by
      rw [lOf, hc]
      exact hp
    have hr := (hinv.links.inverse a p).1 hl
    exact ⟨hinv.links.next p a hr, Option.bind_eq_some_iff.1 hr⟩
  · have hr : (afterOps ops).rOf a = some q := by
      rw [rOf, hc]
      exact hq
    have hl := (hinv.links.inverse q a).2 hr
    exact ⟨hinv.links.next a q hr, Option.bind_eq_some_iff.1 hl⟩

/-- A run of two calls that link two chunks and drop one of them again. Neither of them
overflows. -/
theorem bitmap_run_two : (afterOps [.mark 30 8, .unmark 32 8]).testSYMemBitmap 24 8 = true
    ↔ ∃ k < 8, LastMarked [.mark 30 8, .unmark 32 8] ((24 + k) % 2 ^ 64) := by
  refine (bitmap_run [.mark 30 8, .unmark 32 8] ?_ ?_).1 24 8 (by decide) (by decide) (by
    unfold NoWrap
    decide)
  · intro op hop
    rcases List.mem_cons.1 hop with rfl | hop
    · exact ⟨by decide, by decide⟩
    · rw [List.mem_singleton.1 hop]
      exact ⟨by decide, by decide⟩
  · intro op hop
    rcases List.mem_cons.1 hop with rfl | hop
    · show 30 % 32 + 8 < 2 ^ 64
      decide
    · rw [List.mem_singleton.1 hop]
      show 32 % 32 + 8 < 2 ^ 64
      decide

/-- Marking everything but byte 0 overflows the sum: byte 32 is not marked. -/
theorem mark_wraps : (∀ op ∈ [BitmapOp.mark 1 (2 ^ 64 - 1)], op.Valid) ∧
    LastMarked [.mark 1 (2 ^ 64 - 1)] 32 ∧
    (afterOps [.mark 1 (2 ^ 64 - 1)]).testSYMemBitmap 32 1 = false := by
  refine ⟨?_, ⟨[], 1, 2 ^ 64 - 1, [], rfl, by decide, by simp⟩, ?_⟩
  · intro op hop
    rw [List.mem_singleton.1 hop]
    exact ⟨by decide, by decide⟩
  · have hmark : afterOps [.mark 1 (2 ^ 64 - 1)] = new.maskChunk 0 1 (2 ^ 64 - 1) := by
      show (new.markSYMemBitmap 1 (2 ^ 64 - 1)).2 = _
      rw [markSYMemBitmap, dif_neg (by decide)]
    rw [hmark, testSYMemBitmap, dif_neg (by decide)]
    rfl

end KRover.SYMemBitmap
