import KRover.Proofs.SymListRepr

/-! # The splits keep the list

Each of the three splits puts one or two new cells beside the one it cuts and
leaves every other cell alone.

* `Chain.seplitCellHead`, `Chain.seplitCellTail`, `Chain.splitCell3`: the
  links, for the live list and for copies of it alike;
* `Repr.seplitCellHead`, `Repr.seplitCellTail`, `Repr.splitCell3`: with
  `read = false`, the whole invariant, index included.
-/

set_option autoImplicit false

namespace KRover.SymbolListMap

open Segments DoublyLinked

/-! ## The links -/

section Links

variable {m : SymbolListMap} {A B : Nat} {l r : List Nat} {hs te : Int} {read : Bool}

/-- The next node to be made is not on the chain. -/
theorem Chain.fresh {zs : List Nat} (h : Chain m zs) : m.nextPtr ∉ zs := by
  intro hmem
  exact Nat.lt_irrefl _ (h.bound _ hmem)

/-- A node of the chain was made before. -/
theorem Chain.lt_of_middle (h : Chain m (l ++ A :: r)) : A < m.nextPtr :=
  h.bound A (by simp)

/-- A node cut at the head of a range is followed by its new second part. -/
theorem Chain.seplitCellHead (h : Chain m (l ++ A :: r)) :
    Chain (m.seplitCellHead A hs read) (l ++ A :: m.nextPtr :: r) := by
  have hA := h.lt_of_middle
  constructor
  · rw [next_seplitCellHead hA, prev_seplitCellHead hA]
    exact h.linked.insert_after h.nodup h.fresh
  · have hnd : (m.nextPtr :: (l ++ A :: r)).Nodup := List.nodup_cons.2 ⟨h.fresh, h.nodup⟩
    have hmid : ((l ++ [A]) ++ m.nextPtr :: r).Nodup :=
      List.nodup_middle.2 (by simpa using hnd)
    simpa using hmid
  · intro z hz
    rw [nextPtr_seplitCellHead]
    simp only [List.mem_append, List.mem_cons] at hz
    rcases hz with hz | rfl | rfl | hz
    · exact Nat.lt_succ_of_lt (h.bound z (by simp [hz]))
    · exact Nat.lt_succ_of_lt hA
    · exact Nat.lt_succ_self _
    · exact Nat.lt_succ_of_lt (h.bound z (by simp [hz]))

/-- A node cut at the end of a range is preceded by its new first part. -/
theorem Chain.seplitCellTail (h : Chain m (l ++ B :: r)) :
    Chain (m.seplitCellTail B te read) (l ++ m.nextPtr :: B :: r) := by
  have hB := h.lt_of_middle
  constructor
  · rw [next_seplitCellTail hB, prev_seplitCellTail hB]
    exact h.linked.insert_before h.nodup h.fresh
  · have hnd : (m.nextPtr :: (l ++ B :: r)).Nodup := List.nodup_cons.2 ⟨h.fresh, h.nodup⟩
    exact List.nodup_middle.2 hnd
  · intro z hz
    rw [nextPtr_seplitCellTail]
    simp only [List.mem_append, List.mem_cons] at hz
    rcases hz with hz | rfl | rfl | hz
    · exact Nat.lt_succ_of_lt (h.bound z (by simp [hz]))
    · exact Nat.lt_succ_self _
    · exact Nat.lt_succ_of_lt hB
    · exact Nat.lt_succ_of_lt (h.bound z (by simp [hz]))

/-- A node cut at both ends is followed by two new nodes, the last of them made first. -/
theorem Chain.splitCell3 (h : Chain m (l ++ A :: r)) :
    Chain (m.splitCell3 A hs te read).1 (l ++ A :: (m.nextPtr + 1) :: m.nextPtr :: r) := by
  have hA := h.lt_of_middle
  have h1 : A ≠ m.nextPtr := Nat.ne_of_lt hA
  have h2 : A ≠ m.nextPtr + 1 := Nat.ne_of_lt (Nat.lt_succ_of_lt hA)
  have hfresh : m.nextPtr + 1 ∉ l ++ A :: m.nextPtr :: r := by
    intro hmem
    simp only [List.mem_append, List.mem_cons] at hmem
    rcases hmem with hz | hz | hz | hz
    · have hlt := h.bound (m.nextPtr + 1) (by simp [hz])
      omega
    · exact h2 hz.symm
    · omega
    · have hlt := h.bound (m.nextPtr + 1) (by simp [hz])
      omega
  have hnd : (m.nextPtr :: (l ++ A :: r)).Nodup := List.nodup_cons.2 ⟨h.fresh, h.nodup⟩
  have hnd3 : (l ++ A :: m.nextPtr :: r).Nodup := by
    have hmid : ((l ++ [A]) ++ m.nextPtr :: r).Nodup :=
      List.nodup_middle.2 (by simpa using hnd)
    simpa using hmid
  constructor
  · -- the third cell goes behind `A` first, then the second one between them
    have hlink := (h.linked.insert_after h.nodup h.fresh).insert_after hnd3 hfresh
    refine hlink.congr ?_ ?_
    · intro y _
      rw [next_splitCell3 hA]
      by_cases hy : y = m.nextPtr + 1
      · simp [hy]
      · by_cases hy' : y = A <;> simp [hy, hy']
    · intro y _
      rw [prev_splitCell3 hA]
      -- The node behind `A` is an old one, so its back link is told from those of the new nodes.
      have hold : ∀ n, m.nextPtr ≤ n → some n ≠ m.next A := by
        intro n hn heq
        have hr : m.next A = r.head? := by
          have hr := (linked_append.1 h.linked).2.2.1
          rwa [Option.or_none] at hr
        have hlt := h.bound n (by simp [List.mem_of_head? (heq.trans hr).symm])
        omega
      have hn0 := hold m.nextPtr (Nat.le_refl _)
      have hn1 := hold (m.nextPtr + 1) (by omega)
      by_cases hy : y = m.nextPtr + 1
      · subst hy
        simp [hn1]
      · by_cases hy' : y = m.nextPtr <;> simp [hy, hy']
  · have hmid : ((l ++ [A]) ++ (m.nextPtr + 1) :: m.nextPtr :: r).Nodup :=
      List.nodup_middle.2 (by simpa using List.nodup_cons.2 ⟨hfresh, hnd3⟩)
    simpa using hmid
  · intro z hz
    rw [nextPtr_splitCell3]
    simp only [List.mem_append, List.mem_cons] at hz
    rcases hz with hz | rfl | rfl | rfl | hz
    · have hlt := h.bound z (by simp [hz])
      omega
    · omega
    · omega
    · omega
    · have hlt := h.bound z (by simp [hz])
      omega

end Links

/-! ## The index -/

namespace Repr

variable {m : SymbolListMap} {ps l r : List Nat} {A B : Nat} {hs te : Int}

/-- Two entries of the whole list with one key are the same cell. -/
theorem key_unique (h : Repr m ps) {p q : Nat} (hp : p ∈ ps ++ [m.listtail])
    (hq : q ∈ ps ++ [m.listtail])
    (hkey : addrToKey (m.seg p).addr = addrToKey (m.seg q).addr) : p = q := by
  have h1 := (h.indexed _ p).2 (Or.inr ⟨p, hp, rfl, rfl⟩)
  have h2 := (h.indexed _ q).2 (Or.inr ⟨q, hq, rfl, rfl⟩)
  rw [hkey, h2] at h1
  exact (Option.some.inj h1).symm

/-- Different cells do not overlap: what starts strictly inside a cell is no
other cell. -/
theorem not_starts_inside (h : Repr m ps) {p q : Nat} (hp : p ∈ ps) (hq : q ∈ ps)
    (h1 : (m.seg p).addr < (m.seg q).addr) : (m.seg p).stop ≤ (m.seg q).addr := by
  by_contra hlt
  have hpos := h.size_pos hq
  have hcov : (m.seg p).Covers (m.seg q).addr := ⟨by omega, by omega⟩
  have hcov' : (m.seg q).Covers (m.seg q).addr := ⟨by omega, h.addr_lt_stop hq⟩
  have hl1 := lookup_of_mem (fun (e : Expr) (i : Nat) => i) h.sorted
    (List.mem_map_of_mem hp) hcov
  have hl2 := lookup_of_mem (fun (e : Expr) (i : Nat) => i) h.sorted
    (List.mem_map_of_mem hq) hcov'
  rw [hl1] at hl2
  have heq := Option.some.inj hl2
  omega

/-- Strictly inside a cell no index entry lies. -/
theorem sm_inside (h : Repr m ps) {p : Nat} (hp : p ∈ ps) {a : Int}
    (h1 : (m.seg p).addr < a) (h2 : a < (m.seg p).stop) : m.sm (addrToKey a) = none := by
  have hc : Canonical a (a + 1) := (h.canonical p hp).mono (by omega) (by omega)
  rw [Option.eq_none_iff_forall_ne_some]
  intro q hq
  obtain ⟨hmem, rfl⟩ := (h.sm_eq_some (hc.searchable (by omega))).1 hq
  have hle := h.not_starts_inside hp hmem h1
  omega

/-- The key of a cell leads to it. -/
theorem sm_self (h : Repr m ps) {p : Nat} (hp : p ∈ ps) :
    m.sm (addrToKey (m.seg p).addr) = some p :=
  (h.indexed _ p).2 (Or.inr ⟨p, by simp [hp], rfl, rfl⟩)

/-- The nodes were made before the next one. -/
theorem lt_nextPtr (h : Repr m ps) {p : Nat} (hp : p ∈ ps) : p < m.nextPtr :=
  h.chain.bound p (mem_chainOf hp)

/-- None of them is the header. -/
theorem header_ne (h : Repr m ps) {p : Nat} (hp : p ∈ ps) : p ≠ m.listheader := by
  rintro rfl
  have hpos := h.size_pos hp
  rw [h.header] at hpos
  exact Nat.lt_irrefl 0 hpos

/-- None of them is the tail. -/
theorem tail_ne (h : Repr m ps) {p : Nat} (hp : p ∈ ps) : p ≠ m.listtail := by
  rintro rfl
  have hpos := h.size_pos hp
  rw [h.tail] at hpos
  exact Nat.lt_irrefl 0 hpos

/-- No node stands on the list twice. -/
theorem nodup (h : Repr m ps) : ps.Nodup :=
  (List.nodup_append.1 (List.nodup_cons.1 h.chain.nodup).2).1

/-- The pointers of a list beside `A` are not `A`. -/
theorem ne_of_mem_left (h : Repr m (l ++ A :: r)) {x : Nat} (hx : x ∈ l) : x ≠ A := by
  have hnd := List.nodup_append.1 h.nodup
  exact hnd.2.2 x hx A (by simp)

/-- A node is another than the ones to its right. -/
theorem ne_of_mem_right (h : Repr m (l ++ A :: r)) {x : Nat} (hx : x ∈ r) : x ≠ A := by
  have hnd := (List.nodup_append.1 h.nodup).2.1
  rintro rfl
  exact (List.nodup_cons.1 hnd).1 hx

/-- Replacing a cell by parts of it keeps the invariant. The parts are sorted
inside the old cell and one of them starts where it started; the other cells stay as they
are; and the index is changed at the keys of the parts only, where it now leads
to them. -/
theorem replaceCell (h : Repr m (l ++ A :: r)) {m' : SymbolListMap} (parts : List Nat)
    (hends : m'.ends = m.ends)
    (hchain : Chain m' ((m.listheader :: l) ++ (parts ++ (r ++ [m.listtail]))))
    (hold : ∀ x, x ≠ A → x < m.nextPtr → m'.seg x = m.seg x)
    (hsorted : Sorted (parts.map m'.seg))
    (hinside : ∀ x ∈ parts,
      (m.seg A).addr ≤ (m'.seg x).addr ∧ (m'.seg x).stop ≤ (m.seg A).stop)
    (hfirst : ∃ x ∈ parts, (m'.seg x).addr = (m.seg A).addr)
    (hkeyed : ∀ x ∈ parts, m'.sm (addrToKey (m'.seg x).addr) = some x)
    (hother : ∀ k, (∀ x ∈ parts, k ≠ addrToKey (m'.seg x).addr) → m'.sm k = m.sm k) :
    Repr m' (l ++ (parts ++ r)) := by
  have hAmem : A ∈ l ++ A :: r := by simp
  obtain ⟨hhd, htl⟩ := Prod.mk.inj hends
  have hmapl : l.map m'.seg = l.map m.seg :=
    List.map_congr_left fun x hx => hold x (h.ne_of_mem_left hx) (h.lt_nextPtr (by simp [hx]))
  have hmapr : r.map m'.seg = r.map m.seg :=
    List.map_congr_left fun x hx => hold x (h.ne_of_mem_right hx) (h.lt_nextPtr (by simp [hx]))
  -- the cells of the new list are the parts and the old cells other than `A`
  have hmem : ∀ x, x ∈ (l ++ (parts ++ r)) ++ [m.listtail]
      ↔ x ∈ parts ∨ x ≠ A ∧ x ∈ (l ++ A :: r) ++ [m.listtail] := by
    intro x
    have hl : x ∈ l → x ≠ A := h.ne_of_mem_left
    have hr : x ∈ r → x ≠ A := h.ne_of_mem_right
    have ht : x = m.listtail → x ≠ A := fun heq => heq ▸ (h.tail_ne hAmem).symm
    simp only [List.mem_append, List.mem_cons, List.not_mem_nil, or_false]
    tauto
  have hlt : ∀ x, x ∈ (l ++ A :: r) ++ [m.listtail] → x < m.nextPtr :=
    fun x hx => h.chain.bound x (List.mem_cons_of_mem _ hx)
  constructor
  · rw [chainOf, hhd, htl]
    simpa using hchain
  · rw [hhd, hold _ (h.header_ne hAmem).symm (h.chain.bound _ header_mem), h.header]
  · rw [htl, hold _ (h.tail_ne hAmem).symm (h.chain.bound _ tail_mem), h.tail]
  · have hsort := h.sorted
    rw [List.map_append, List.map_cons] at hsort
    have href := hsort.refine hsorted (by
      intro y hy
      obtain ⟨x, hx, rfl⟩ := List.mem_map.1 hy
      exact hinside x hx)
    simpa [hmapl, hmapr] using href
  · intro x hx
    rcases List.mem_append.1 hx with hx | hx
    · rw [hold x (h.ne_of_mem_left hx) (h.lt_nextPtr (by simp [hx]))]
      exact h.canonical x (by simp [hx])
    · rcases List.mem_append.1 hx with hx | hx
      · exact (h.canonical A hAmem).mono (hinside x hx).1 (hinside x hx).2
      · rw [hold x (h.ne_of_mem_right hx) (h.lt_nextPtr (by simp [hx]))]
        exact h.canonical x (by simp [hx])
  · intro k q
    rw [hhd, htl]
    by_cases hk : ∃ x ∈ parts, k = addrToKey (m'.seg x).addr
    · -- a key of a part: no other cell has it
      obtain ⟨x, hx, rfl⟩ := hk
      rw [hkeyed x hx, Option.some_inj]
      constructor
      · rintro rfl
        exact Or.inr ⟨x, (hmem x).2 (Or.inl hx), rfl, rfl⟩
      · rintro (⟨hk, -⟩ | ⟨p, hp, hk, rfl⟩)
        · have hnn := addrToKey_nonneg (m'.seg x).addr
          omega
        -- ⟨hqA, hq⟩ | A part with the same key is the same part. An old cell with it would start
        -- inside of `A`.
        · rcases (hmem q).1 hp with hq | ⟨hqA, hq⟩
          · have hx' := hkeyed x hx
            rw [hk, hkeyed q hq] at hx'
            exact (Option.some.inj hx').symm
          · rw [hold q hqA (hlt q hq)] at hk
            have hsmq := (h.indexed _ q).2 (Or.inr ⟨q, hq, rfl, rfl⟩)
            obtain ⟨hge, hle⟩ := hinside x hx
            have hpos := hsorted.positive _ (List.mem_map_of_mem hx)
            have hstop : (m'.seg x).stop = (m'.seg x).addr + (m'.seg x).size := rfl
            by_cases heq : (m'.seg x).addr = (m.seg A).addr
            · rw [← hk, heq, h.sm_self hAmem] at hsmq
              exact absurd (Option.some.inj hsmq).symm hqA
            · rw [← hk, h.sm_inside hAmem (by omega) (by omega)] at hsmq
              simp at hsmq
    · -- every other key
      push Not at hk
      rw [hother k hk, h.indexed]
      refine or_congr_right ?_
      constructor
      · rintro ⟨p, hp, hkp, rfl⟩
        have hqA : q ≠ A := by
          rintro rfl
          obtain ⟨x, hx, hxA⟩ := hfirst
          exact hk x hx (by rw [hxA, hkp])
        exact ⟨q, (hmem q).2 (Or.inr ⟨hqA, hp⟩), by rw [hold q hqA (hlt q hp), hkp], rfl⟩
      · rintro ⟨p, hp, hkp, rfl⟩
        rcases (hmem q).1 hp with hq | ⟨hqA, hq⟩
        · exact absurd hkp (hk q hq)
        · exact ⟨q, hq, by rw [hkp, hold q hqA (hlt q hq)], rfl⟩

/-- `SeplitCell_Head` on the live list. -/
theorem seplitCellHead (h : Repr m (l ++ A :: r)) (h1 : (m.seg A).addr < hs)
    (h2 : hs < (m.seg A).stop) :
    Repr (m.seplitCellHead A hs false) (l ++ A :: m.nextPtr :: r) := by
  have hAmem : A ∈ l ++ A :: r := by simp
  have hA := h.lt_nextPtr hAmem
  have hstop : (m.seg A).stop = (m.seg A).addr + (m.seg A).size := rfl
  have hseg : (m.seplitCellHead A hs false).seg = _ := seg_seplitCellHead hA
  have hsegA : (m.seplitCellHead A hs false).seg A = lowPart (m.seg A) hs := by simp [hseg]
  have hsegN : (m.seplitCellHead A hs false).seg m.nextPtr = highPart (m.seg A) hs := by
    simp [hseg, (Nat.ne_of_lt hA).symm]
  have hchain : Chain m ((m.listheader :: l) ++ A :: (r ++ [m.listtail])) := by
    simpa [chainOf] using h.chain
  -- the key of the new cell was free, so it is not the key of `A`
  have hne : addrToKey (m.seg A).addr ≠ addrToKey hs := by
    intro heq
    have hself := h.sm_self hAmem
    rw [heq, h.sm_inside hAmem h1 h2] at hself
    simp at hself
  apply h.replaceCell [A, m.nextPtr] ends_seplitCellHead hchain.seplitCellHead
  · intro x hxA hx
    simp [hseg, hxA, Nat.ne_of_lt hx]
  · simp only [List.map_cons, List.map_nil, hsegA, hsegN, sorted_cons, lowPart, highPart,
      Segment.stop, List.mem_singleton, forall_eq]
    exact ⟨by omega, ⟨by omega, Sorted.nil, by simp⟩, by omega⟩
  · intro x hx
    simp only [List.mem_cons, List.not_mem_nil, or_false] at hx
    rcases hx with hx | hx
    · rw [hx, hsegA]
      simp only [lowPart, Segment.stop]
      omega
    · rw [hx, hsegN]
      simp only [highPart, Segment.stop]
      omega
  · exact ⟨A, by simp, by rw [hsegA]; rfl⟩
  · intro x hx
    rw [sm_seplitCellHead hA]
    simp only [List.mem_cons, List.not_mem_nil, or_false] at hx
    rcases hx with hx | hx
    · rw [hx, hsegA, lowPart_addr]
      exact Function.update_self ..
    · rw [hx, hsegN, highPart_addr, Function.update_of_ne (Ne.symm hne)]
      exact Function.update_self ..
  · intro k hk
    rw [sm_seplitCellHead hA]
    have hkA := hk A (by simp)
    have hkN := hk m.nextPtr (by simp)
    rw [hsegA, lowPart_addr] at hkA
    rw [hsegN, highPart_addr] at hkN
    rw [Function.update_of_ne hkA, Function.update_of_ne hkN]

/-- `SeplitCell_Tail` on the live list. The old cell moves up to `te`, and
the new cell takes over its place and its key. -/
theorem seplitCellTail (h : Repr m (l ++ B :: r)) (h1 : (m.seg B).addr < te)
    (h2 : te < (m.seg B).stop) :
    Repr (m.seplitCellTail B te false) (l ++ m.nextPtr :: B :: r) := by
  have hBmem : B ∈ l ++ B :: r := by simp
  have hB := h.lt_nextPtr hBmem
  have hstop : (m.seg B).stop = (m.seg B).addr + (m.seg B).size := rfl
  have hseg : (m.seplitCellTail B te false).seg = _ := seg_seplitCellTail hB
  have hsegB : (m.seplitCellTail B te false).seg B = highPart (m.seg B) te := by simp [hseg]
  have hsegN : (m.seplitCellTail B te false).seg m.nextPtr = lowPart (m.seg B) te := by
    simp [hseg, (Nat.ne_of_lt hB).symm]
  have hchain : Chain m ((m.listheader :: l) ++ B :: (r ++ [m.listtail])) := by
    simpa [chainOf] using h.chain
  -- No cell starts at `te`, as it lies inside of `B`.
  have hne : addrToKey (m.seg B).addr ≠ addrToKey te := by
    intro heq
    have hself := h.sm_self hBmem
    rw [heq, h.sm_inside hBmem h1 h2] at hself
    simp at hself
  apply h.replaceCell [m.nextPtr, B] ends_seplitCellTail hchain.seplitCellTail
  · intro x hxB hx
    simp [hseg, hxB, Nat.ne_of_lt hx]
  · simp only [List.map_cons, List.map_nil, hsegB, hsegN, sorted_cons, lowPart, highPart,
      Segment.stop, List.mem_singleton, forall_eq]
    exact ⟨by omega, ⟨by omega, Sorted.nil, by simp⟩, by omega⟩
  · intro x hx
    simp only [List.mem_cons, List.not_mem_nil, or_false] at hx
    rcases hx with hx | hx
    · rw [hx, hsegN]
      simp only [lowPart, Segment.stop]
      omega
    · rw [hx, hsegB]
      simp only [highPart, Segment.stop]
      omega
  · exact ⟨m.nextPtr, by simp, by rw [hsegN]; rfl⟩
  · intro x hx
    rw [sm_seplitCellTail hB]
    simp only [List.mem_cons, List.not_mem_nil, or_false] at hx
    rcases hx with hx | hx
    · rw [hx, hsegN, lowPart_addr]
      exact Function.update_self ..
    · rw [hx, hsegB, highPart_addr, Function.update_of_ne (Ne.symm hne)]
      exact Function.update_self ..
  · intro k hk
    rw [sm_seplitCellTail hB]
    have hkB := hk B (by simp)
    have hkN := hk m.nextPtr (by simp)
    rw [hsegB, highPart_addr] at hkB
    rw [hsegN, lowPart_addr] at hkN
    rw [Function.update_of_ne hkN, Function.update_of_ne hkB]

/-- `SplitCell3` on the live list. -/
theorem splitCell3 (h : Repr m (l ++ A :: r)) (h1 : (m.seg A).addr < hs) (hst : hs < te)
    (h2 : te < (m.seg A).stop) :
    Repr (m.splitCell3 A hs te false).1 (l ++ A :: (m.nextPtr + 1) :: m.nextPtr :: r) := by
  have hAmem : A ∈ l ++ A :: r := by simp
  have hA := h.lt_nextPtr hAmem
  have hn1 : A ≠ m.nextPtr := Nat.ne_of_lt hA
  have hn2 : A ≠ m.nextPtr + 1 := Nat.ne_of_lt (Nat.lt_succ_of_lt hA)
  have hstop : (m.seg A).stop = (m.seg A).addr + (m.seg A).size := rfl
  have hseg : (m.splitCell3 A hs te false).1.seg = _ := seg_splitCell3 hA
  have hsegA : (m.splitCell3 A hs te false).1.seg A = lowPart (m.seg A) hs := by simp [hseg]
  have hseg2 : (m.splitCell3 A hs te false).1.seg (m.nextPtr + 1) = midPart (m.seg A) hs te := by
    simp [hseg, hn2.symm]
  have hseg3 : (m.splitCell3 A hs te false).1.seg m.nextPtr = highPart (m.seg A) te := by
    simp [hseg, hn1.symm]
  have hchain : Chain m ((m.listheader :: l) ++ A :: (r ++ [m.listtail])) := by
    simpa [chainOf] using h.chain
  have hself := h.sm_self hAmem
  -- The three parts start at three addresses of `A`, and these have different keys.
  have hnehs : addrToKey hs ≠ addrToKey (m.seg A).addr := by
    intro heq
    rw [← heq, h.sm_inside hAmem h1 (by omega)] at hself
    simp at hself
  have hnete : addrToKey te ≠ addrToKey (m.seg A).addr := by
    intro heq
    rw [← heq, h.sm_inside hAmem (by omega) h2] at hself
    simp at hself
  have hnehste : addrToKey te ≠ addrToKey hs := by
    intro heq
    have hc := h.canonical A hAmem
    have heq' := addrToKey_inj (hc.mono (by omega) (by omega)) (hc.mono (by omega) (by omega)) heq
    omega
  apply h.replaceCell [A, m.nextPtr + 1, m.nextPtr] ends_splitCell3
    hchain.splitCell3
  · intro x hxA hx
    have hx1 : x ≠ m.nextPtr + 1 := by omega
    simp [hseg, hxA, Nat.ne_of_lt hx, hx1]
  · simp only [List.map_cons, List.map_nil, hsegA, hseg2, hseg3, sorted_cons, lowPart, midPart,
      highPart, Segment.stop, List.mem_cons, List.not_mem_nil, or_false, forall_eq_or_imp,
      forall_eq]
    exact ⟨by omega, ⟨by omega, ⟨by omega, Sorted.nil, by simp⟩, by omega⟩, by omega⟩
  · intro x hx
    simp only [List.mem_cons, List.not_mem_nil, or_false] at hx
    rcases hx with hx | hx | hx
    · rw [hx, hsegA]
      simp only [lowPart, Segment.stop]
      omega
    · rw [hx, hseg2]
      simp only [midPart, Segment.stop]
      omega
    · rw [hx, hseg3]
      simp only [highPart, Segment.stop]
      omega
  · exact ⟨A, by simp, by rw [hsegA]; rfl⟩
  · intro x hx
    rw [sm_splitCell3 hA]
    simp only [List.mem_cons, List.not_mem_nil, or_false] at hx
    rcases hx with hx | hx | hx
    · rw [hx, hsegA, lowPart_addr]
      exact Function.update_self ..
    · rw [hx, hseg2, midPart_addr, Function.update_of_ne hnehs]
      exact Function.update_self ..
    · rw [hx, hseg3, highPart_addr, Function.update_of_ne hnete, Function.update_of_ne hnehste]
      exact Function.update_self ..
  · intro k hk
    rw [sm_splitCell3 hA]
    have hkA := hk A (by simp)
    have hk2 := hk (m.nextPtr + 1) (by simp)
    have hk3 := hk m.nextPtr (by simp)
    rw [hsegA, lowPart_addr] at hkA
    rw [hseg2, midPart_addr] at hk2
    rw [hseg3, highPart_addr] at hk3
    rw [Function.update_of_ne hkA, Function.update_of_ne hk2, Function.update_of_ne hk3]

end Repr

end KRover.SymbolListMap
