import Mathlib.Data.List.Induction
import KRover.Proofs.SymListOps

/-! # Reading the symbol list

`GetCellList` and `GetExpr` work on copies. The copies are new cells of the
same heap, so the live list and its index stay as they are, although the same
split code runs on the copies.

* `allocList_spec`: a list of fresh cells, and `mergeList_spec`, `Merge` of it;
* `createSymbolList_spec`: the copies;
* `cellList_spec`: the list `GetCellList` returns is the window of the range;
* `getExpr_spec`: what `GetExpr` builds from it.
-/

set_option autoImplicit false

namespace KRover.SymbolListMap

open Segments DoublyLinked

/-! ## Fresh lists -/

/-- A step that leaves the nodes of a store leaves the store. -/
theorem Repr.of_frame {m m' : SymbolListMap} {ps zs : List Nat} (h : Repr m ps)
    (hf : Frame m m' zs) (hout : ∀ x ∈ m.chainOf ps, x ∉ zs) (hsm : m'.sm = m.sm) :
    Repr m' ps ∧ segs m' ps = segs m ps := by
  obtain ⟨hhd, htl⟩ := Prod.mk.inj hf.ends
  have hseg : ∀ x ∈ m.chainOf ps, m'.seg x = m.seg x :=
    fun x hx => hf.seg x (h.chain.bound x hx) (hout x hx)
  have hsegps : ∀ x ∈ ps ++ [m.listtail], m'.seg x = m.seg x :=
    fun x hx => hseg x (List.mem_cons_of_mem _ hx)
  have hsegs : ps.map m'.seg = ps.map m.seg :=
    List.map_congr_left fun x hx => hseg x (mem_chainOf hx)
  refine ⟨?_, hsegs⟩
  constructor
  -- Each part of the invariant speaks of nodes of the chain, which are as they were.
  · rw [chainOf, hhd, htl]
    exact hf.chain h.chain hout
  · rw [hhd, hseg _ header_mem, h.header]
  · rw [htl, hseg _ tail_mem, h.tail]
  · rw [hsegs]
    exact h.sorted
  · intro p hp
    rw [hseg p (mem_chainOf hp)]
    exact h.canonical p hp
  · intro k q
    rw [hsm, hhd, htl, h.indexed]
    refine or_congr_right (exists_congr fun p => and_congr_right fun hp => ?_)
    rw [hsegps p hp]

/-- `allocList` makes a list of new cells that say what they are told. -/
theorem allocList_spec (m : SymbolListMap) (xs : List (Segment Expr)) :
    ∃ ss, (m.allocList xs).2 = ss.head? ∧ Chain (m.allocList xs).1 ss ∧
      segs (m.allocList xs).1 ss = xs ∧ Frame m (m.allocList xs).1 [] ∧
      (m.allocList xs).1.sm = m.sm ∧ ∀ x ∈ ss, m.nextPtr ≤ x := by
  -- The list is made from its end, so the rest of it exists when a cell is put in front.
  induction xs with
  | nil =>
    refine ⟨[], rfl, ⟨trivial, List.nodup_nil, by simp⟩, rfl, Frame.refl m [], rfl, by simp⟩
  | cons x xs ih =>
    obtain ⟨ss, hhead, hchain, hsegs, hframe, hsm, hnew⟩ := ih
    rw [allocList]
    cases hal : m.allocList xs with
    | mk m₁ q =>
    rw [hal] at hhead hchain hsegs hframe hsm
    simp only at hhead hchain hsegs hframe hsm ⊢
    have hfresh : ∀ s ∈ ss, s ≠ m₁.nextPtr := fun s hs => Nat.ne_of_lt (hchain.bound s hs)
    have hle := hframe.nextPtr
    simp only [alloc_fst]
    refine ⟨m₁.nextPtr :: ss, rfl, ?_, ?_, ?_, ?_, ?_⟩
    · constructor
      · simp only [next_setPrevOf, next_setNext, next_alloc, prev_setPrevOf, prev_setNext,
          prev_alloc]
        refine linked_cons.2 ⟨?_, ?_, ?_⟩
        · have hq : some m₁.nextPtr ≠ q := by
            rw [hhead]
            intro heq
            exact hfresh _ (List.mem_of_head? heq.symm) rfl
          simp [hq]
        · simp [hhead]
        -- The first of the rest gets a link back to the new cell, and the others keep theirs.
        · cases ss with
          | nil => trivial
          | cons s ss =>
            obtain ⟨-, hn, hl⟩ := linked_cons.1 hchain.linked
            have hs := hfresh s (by simp)
            have hnd := (List.nodup_cons.1 hchain.nodup).1
            have hqs : q = some s := by simpa using hhead
            refine linked_cons.2 ⟨by simp [hqs], by simp [hs, hn], ?_⟩
            refine hl.congr ?_ ?_
            · intro y hy
              simp [hfresh y (by simp [hy])]
            · intro y hy
              have hys : y ≠ s := fun heq => hnd (heq ▸ hy)
              simp [hqs, hys, hfresh y (by simp [hy])]
      · exact List.nodup_cons.2 ⟨fun hmem => hfresh _ hmem rfl, hchain.nodup⟩
      · intro z hz
        simp only [nextPtr_setPrevOf, nextPtr_setNext, nextPtr_alloc]
        rcases List.mem_cons.1 hz with rfl | hz
        · exact Nat.lt_succ_self _
        · exact Nat.lt_succ_of_lt (hchain.bound z hz)
    · have hmap : ss.map (Function.update m₁.seg m₁.nextPtr x) = ss.map m₁.seg :=
        List.map_congr_left fun s hs => Function.update_of_ne (hfresh s hs) _ _
      simp only [segs, seg_setPrevOf, seg_setNext, seg_alloc, List.map_cons,
        Function.update_self, hmap]
      rw [← hsegs]
      rfl
    · have hlt : ∀ y, y < m.nextPtr → y ≠ m₁.nextPtr := by
        intro y hy
        omega
      constructor
      · simpa using hframe.ends
      · simp only [nextPtr_setPrevOf, nextPtr_setNext, nextPtr_alloc]
        omega
      · intro y hy hn
        simp [hlt y hy, hframe.next y hy hn]
      · intro y hy hn
        have hq : some y ≠ q := by
          rw [hhead]
          intro heq
          have hge := hnew y (List.mem_of_head? heq.symm)
          omega
        simp [hlt y hy, hq, hframe.prev y hy hn]
      · intro y hy hn
        simp [hlt y hy, hframe.seg y hy hn]
    · simpa using hsm
    · intro z hz
      rcases List.mem_cons.1 hz with rfl | hz
      · exact hle
      · exact hnew z hz

/-- `Merge` of a fresh list replaces the range from its start to its end. -/
theorem Repr.mergeList_spec {m : SymbolListMap} {ps : List Nat} (h : Repr m ps)
    {src : List (Segment Expr)} (hne : src ≠ []) (hsort : Sorted src)
    (hc : Canonical (start src) (finish src)) :
    ∃ m' ps', m.mergeList src = some m' ∧ Repr m' ps' ∧
      segs m' ps' = splice cutExpr (start src) (finish src) src (segs m ps) := by
  obtain ⟨ss, hhead, hchain, hsegs, hframe, hsm, hnew⟩ := allocList_spec m src
  obtain ⟨hrepr, hsame⟩ := h.of_frame hframe (by simp) hsm
  cases ss with
  | nil => exact absurd hsegs.symm (by simpa [segs] using hne)
  | cons x₀ ss =>
    -- The cells were made just now, and those of the store before.
    have hout : ∀ x ∈ x₀ :: ss, x ∉ (m.allocList src).1.chainOf ps := by
      intro x hx hmem
      obtain ⟨hhd, htl⟩ := Prod.mk.inj hframe.ends
      have hmem' : x ∈ m.chainOf ps := by
        rw [chainOf, hhd, htl] at hmem
        exact hmem
      have hlt := h.chain.bound x hmem'
      have hge := hnew x hx
      omega
    obtain ⟨m', ps', hmerge, hrepr', hsplice⟩ :=
      hrepr.merge_spec hchain hout (by rw [hsegs]; exact hsort) (by rw [hsegs]; exact hc)
    refine ⟨m', ps', ?_, hrepr', ?_⟩
    · rw [mergeList]
      simp only [hhead, List.head?_cons, Option.bind_eq_bind, Option.bind_some]
      exact hmerge
    · rw [hsplice, hsegs, hsame]

/-! ## Copies -/

/-- The copying loop. The induction is on the cells from `A` up to the one
to copy next, from the back. -/
theorem copyBack_spec {A : Nat} (ws : List Nat) {m : SymbolListMap} {p q : Option Nat}
    {it : Nat} {cs : List Nat} (hlink : Linked m.next m.prev p ws q) (hnd : ws.Nodup)
    (hhead : ws.head? = some A) (hlast : ws.getLast? = some it)
    (hlt : ∀ x ∈ ws, x < m.nextPtr) (hcs : Chain m cs) (hdis : ∀ c ∈ cs, c ∉ ws)
    {fuel : Nat} (hfuel : ws.length ≤ fuel) :
    ∃ m' c cs', copyBack A fuel m it cs.head? = some (m', c) ∧
      Chain m' (cs' ++ cs) ∧ cs'.head? = some c ∧
      segs m' (cs' ++ cs) = segs m ws ++ segs m cs ∧
      Frame m m' cs ∧ m'.sm = m.sm ∧ ∀ x ∈ cs', m.nextPtr ≤ x := by
  -- The copy goes from the last cell to the first, so the induction takes the last cell off.
  induction ws using List.reverseRecOn generalizing m q it cs fuel with
  | nil => simp at hhead
  | append_singleton ys y ih =>
    have hity : y = it := by simpa using hlast
    subst hity
    cases fuel with
    | zero => simp at hfuel
    | succ fuel =>
      have hy : y < m.nextPtr := hlt y (by simp)
      have hyn : y ≠ m.nextPtr := Nat.ne_of_lt hy
      -- the heap with the copy of `y` in front of the copies made before
      let m₁ := ((m.alloc (m.seg y)).2.setNext m.nextPtr cs.head?).setPrevOf cs.head? m.nextPtr
      have hstep : copyBack A (fuel + 1) m y cs.head?
          = if y = A then some (m₁, m.nextPtr)
            else (m₁.prev y).bind fun p => copyBack A fuel m₁ p (some m.nextPtr) := rfl
      have hcfresh : ∀ c ∈ cs, c ≠ m.nextPtr := fun c hc => Nat.ne_of_lt (hcs.bound c hc)
      have hnext₁ : ∀ x, x ≠ m.nextPtr → m₁.next x = m.next x := by
        intro x hx
        simp [m₁, hx]
      have hprev₁ : ∀ x, x ≠ m.nextPtr → x ∉ cs → m₁.prev x = m.prev x := by
        intro x hx hxc
        have hxh : some x ≠ cs.head? := fun heq => hxc (List.mem_of_head? heq.symm)
        simp [m₁, hx, hxh]
      have hseg₁ : ∀ x, x ≠ m.nextPtr → m₁.seg x = m.seg x := by
        intro x hx
        simp [m₁, hx]
      have hsegN : m₁.seg m.nextPtr = m.seg y := by simp [m₁]
      have hptr₁ : m₁.nextPtr = m.nextPtr + 1 := by simp [m₁]
      have hsm₁ : m₁.sm = m.sm := by simp [m₁]
      have hframe₁ : Frame m m₁ cs := by
        constructor
        · simp [m₁]
        · omega
        · intro x hx _
          exact hnext₁ x (Nat.ne_of_lt hx)
        · intro x hx hxc
          exact hprev₁ x (Nat.ne_of_lt hx) hxc
        · intro x hx _
          exact hseg₁ x (Nat.ne_of_lt hx)
      have hchain₁ : Chain m₁ (m.nextPtr :: cs) := by
        constructor
        · refine linked_cons.2 ⟨?_, ?_, ?_⟩
          · have hh : some m.nextPtr ≠ cs.head? :=
              fun heq => hcfresh _ (List.mem_of_head? heq.symm) rfl
            simp [m₁, hh]
          · simp [m₁]
          · cases cs with
            | nil => trivial
            | cons c cs =>
              obtain ⟨-, hn, hl⟩ := linked_cons.1 hcs.linked
              have hc := hcfresh c (by simp)
              have hndc := (List.nodup_cons.1 hcs.nodup).1
              refine linked_cons.2 ⟨by simp [m₁], by rw [hnext₁ c hc, hn], ?_⟩
              refine hl.congr ?_ ?_
              · intro x hx
                exact hnext₁ x (hcfresh x (by simp [hx]))
              · intro x hx
                have hxc : x ≠ c := fun heq => hndc (heq ▸ hx)
                simp [m₁, hxc, hcfresh x (by simp [hx])]
        · exact List.nodup_cons.2 ⟨fun hmem => hcfresh _ hmem rfl, hcs.nodup⟩
        · intro z hz
          rw [hptr₁]
          rcases List.mem_cons.1 hz with rfl | hz
          · exact Nat.lt_succ_self _
          · exact Nat.lt_succ_of_lt (hcs.bound z hz)
      have hsegcs : segs m₁ cs = segs m cs :=
        List.map_congr_left fun c hc => hseg₁ c (hcfresh c hc)
      rw [hstep]
      rcases List.eq_nil_or_concat ys with rfl | ⟨zs, z, rfl⟩
      · -- `y` is the first cell
        have hyA : y = A := by simpa using hhead
        refine ⟨m₁, m.nextPtr, [m.nextPtr], if_pos hyA, hchain₁, rfl, ?_, hframe₁, hsm₁, ?_⟩
        · have hcons : segs m₁ (m.nextPtr :: cs) = m₁.seg m.nextPtr :: segs m₁ cs := rfl
          rw [List.singleton_append, hcons, hsegN, hsegcs]
          rfl
        · intro x hx
          exact Nat.le_of_eq (List.mem_singleton.1 hx).symm
      · -- the cell before `y` comes next
        rw [List.concat_eq_append] at *
        have hyA : y ≠ A := by
          rintro rfl
          have hmem : y ∈ zs ++ [z] := by
            rw [List.head?_append] at hhead
            cases hz : (zs ++ [z]).head? with
            | none => simp at hz
            | some w =>
              rw [hz] at hhead
              have hwy : w = y := by simpa using hhead
              exact List.mem_of_head? (hwy ▸ hz)
          exact (List.nodup_append.1 hnd).2.2 y hmem y (by simp) rfl
        have hprevy : m.prev y = some z := by
          have hp := (linked_append.1 hlink).2
          simpa using hp.1
        have hycs : y ∉ cs := fun hmem => hdis y hmem (by simp)
        rw [if_neg hyA, hprev₁ y hyn hycs, hprevy, Option.bind_some]
        have hwsne : ∀ x ∈ zs ++ [z], x ≠ m.nextPtr := fun x hx =>
          Nat.ne_of_lt (hlt x (by simp only [List.mem_append] at hx ⊢; tauto))
        have hwscs : ∀ x ∈ zs ++ [z], x ∉ cs := fun x hx hmem =>
          hdis x hmem (by simp only [List.mem_append] at hx ⊢; tauto)
        obtain ⟨m', c, cs', hcopy, hchain', hhead', hsegs', hframe', hsm', hnew'⟩ :=
          ih (m := m₁)
            ((linked_append.1 hlink).1.congr (fun x hx => hnext₁ x (hwsne x hx))
              (fun x hx => hprev₁ x (hwsne x hx) (hwscs x hx)))
            (List.nodup_append.1 hnd).1
            (by
              rw [List.head?_append] at hhead
              cases hz : (zs ++ [z]).head? with
              | none => simp at hz
              | some w =>
                rw [hz] at hhead
                simpa using hhead)
            (show (zs ++ [z]).getLast? = some z by simp)
            (fun x hx => by
              rw [hptr₁]
              exact Nat.lt_succ_of_lt (hlt x (by simp only [List.mem_append] at hx ⊢; tauto)))
            hchain₁
            (by
              intro c hc hmem
              rcases List.mem_cons.1 hc with rfl | hc
              · exact hwsne _ hmem rfl
              · exact hwscs c hmem hc)
            (show (zs ++ [z]).length ≤ fuel by
              simp only [List.length_append, List.length_cons, List.length_nil] at hfuel ⊢
              omega)
        refine ⟨m', c, cs' ++ [m.nextPtr], hcopy, by simpa using hchain', ?_, ?_, ?_, ?_, ?_⟩
        · rw [List.head?_append, hhead']
          rfl
        · have hws : segs m₁ (zs ++ [z]) = segs m (zs ++ [z]) :=
            List.map_congr_left fun x hx => hseg₁ x (hwsne x hx)
          have hcons : segs m₁ (m.nextPtr :: cs) = [m.seg y] ++ segs m cs := by
            rw [← hsegN, ← hsegcs]
            rfl
          rw [List.append_assoc, List.singleton_append, hsegs', hws, hcons]
          simp [segs]
        · refine hframe₁.trans hframe' ?_
          intro x hx
          rcases List.mem_cons.1 hx with rfl | hx
          · exact Or.inr (Nat.le_refl _)
          · exact Or.inl hx
        · rw [hsm', hsm₁]
        · intro x hx
          rcases List.mem_append.1 hx with hx | hx
          · have hge := hnew' x hx
            omega
          · exact Nat.le_of_eq (List.mem_singleton.1 hx).symm

/-- `CreateSymbolList` copies the cells from `A` to `B`. -/
theorem createSymbolList_spec {m : SymbolListMap} {l ws r : List Nat} {A B : Nat}
    (hc : Chain m (l ++ (ws ++ r))) (hhead : ws.head? = some A)
    (hlast : ws.getLast? = some B) :
    ∃ m' cs A' B', m.createSymbolList A B = some (m', A', B') ∧ Chain m' cs ∧
      segs m' cs = segs m ws ∧ cs.head? = some A' ∧ cs.getLast? = some B' ∧
      Frame m m' [] ∧ m'.sm = m.sm ∧ ∀ x ∈ cs, m.nextPtr ≤ x := by
  have hlink := (linked_append.1 (linked_append.1 hc.linked).2).1
  have hndws := (List.nodup_append.1 (List.nodup_append.1 hc.nodup).2.1).1
  have hlt : ∀ x ∈ ws, x < m.nextPtr := fun x hx => hc.bound x (by simp [hx])
  -- The walk back has as much fuel as there are nodes.
  have hlen : ws.length ≤ m.nextPtr + 1 := by
    have hsub : ws ⊆ List.range m.nextPtr := fun z hz => List.mem_range.2 (hlt z hz)
    have hle := (List.Nodup.subperm hndws hsub).length_le
    simp at hle
    omega
  obtain ⟨m', A', cs, hcopy, hchain, hhead', hsegs, hframe, hsm, hnew⟩ :=
    copyBack_spec ws hlink hndws hhead hlast hlt
      (show Chain m [] from ⟨trivial, List.nodup_nil, by simp⟩) (by simp) hlen
  rw [List.append_nil] at hchain hsegs
  cases cs with
  | nil => simp at hhead'
  | cons c cs =>
    have hcA : c = A' := by simpa using hhead'
    subst hcA
    obtain ⟨t, ht⟩ : ∃ t, (c :: cs).getLast? = some t :=
      ⟨(c :: cs).getLast (by simp), List.getLast?_eq_some_getLast (by simp)⟩
    have hlen' : cs.length < m'.nextPtr + 1 := by
      have hsub : c :: cs ⊆ List.range m'.nextPtr := fun z hz =>
        List.mem_range.2 (hchain.bound z hz)
      have hle := (List.Nodup.subperm hchain.nodup hsub).length_le
      simp at hle
      omega
    refine ⟨m', c :: cs, c, t, ?_, hchain, by simpa [segs] using hsegs, rfl, ht, hframe, hsm,
      hnew⟩
    rw [createSymbolList]
    have hcopy' : copyBack A (m.nextPtr + 1) m B none = some (m', c) := hcopy
    simp only [hcopy', Option.bind_eq_bind, Option.bind_some,
      lastFrom_spec cs hchain.linked ht hlen']
    rfl

/-! ## Cutting the copies -/

/-- With `read` set the splits do not touch the index. -/
theorem sm_splitHeadTail_read (m : SymbolListMap) (A B : Nat) (hs te : Int) :
    (m.splitHeadTail A B hs te true).1.sm = m.sm := by
  rw [splitHeadTail]
  by_cases hAB : A = B
  · rw [if_pos hAB]
    split
    · exact sm_splitCell3_read
    · rfl
  · rw [if_neg hAB]
    dsimp only
    split <;> split <;> simp [sm_seplitCellTail_read, sm_seplitCellHead_read]

/-- The copies of the cells from one edge to the other, cut at the edges: a
first cell, the window of the range, and a last cell. -/
theorem splitCopies_spec {m m₁ : SymbolListMap} {ps cs : List Nat} {hs te : Int}
    {A B A' B' : Nat} (h : Repr m ps) (hc : Searchable hs te) (hlt : hs < te)
    (haff : Affected m ps hs te A B) {ws l r : List Nat}
    (hzs : m.chainOf ps = l ++ (ws ++ r)) (hwA : ws.head? = some A) (hwB : ws.getLast? = some B)
    (hcs : Chain m₁ cs) (hsegs : segs m₁ cs = segs m ws) (hA' : cs.head? = some A')
    (hB' : cs.getLast? = some B') :
    ∃ m₂ B₂ mid, m₁.splitHeadTail A' B' hs te true = (m₂, B₂) ∧
      Chain m₂ (A' :: (mid ++ [B₂])) ∧ segs m₂ mid = window cutExpr hs te (segs m ps) ∧
      Frame m₁ m₂ cs ∧ (∀ x ∈ A' :: (mid ++ [B₂]), x ∈ cs ∨ m₁.nextPtr ≤ x) := by
  -- a list is determined by its two ends when it has no repetition
  have hndz : (l ++ (ws ++ r)).Nodup := hzs ▸ h.chain.nodup
  obtain ⟨ws₀, hws₀⟩ : ∃ ws₀, ws = A :: ws₀ := by
    cases ws with
    | nil => simp at hwA
    | cons w ws => exact ⟨ws, by simpa using hwA⟩
  obtain ⟨cs₀, hcs₀⟩ : ∃ cs₀, cs = A' :: cs₀ := by
    cases cs with
    | nil => simp at hA'
    | cons c cs => exact ⟨cs, by simpa using hA'⟩
  subst hws₀ hcs₀
  have hsegA : m₁.seg A' = m.seg A := (List.cons.inj hsegs).1
  have hseg₀ : segs m₁ cs₀ = segs m ws₀ := (List.cons.inj hsegs).2
  have hlen₀ : cs₀.length = ws₀.length := by
    have hl := congrArg List.length hseg₀
    simpa [segs] using hl
  -- Either one cell reaches over both ends of the range, or there is a first and a last cell with
  -- more between.
  cases haff with
  | inside l' r' hps hBA hA hte =>
    subst hBA
    -- the first and the last cell are one, so there is one copy
    have hws : ws₀ = [] := by
      rcases List.eq_nil_or_concat ws₀ with hnil | ⟨ws₁, w, rfl⟩
      · exact hnil
      · rw [List.concat_eq_append] at hwB hndz
        have hw : w = B := by
          rw [← List.cons_append, List.getLast?_append] at hwB
          simpa using hwB
        subst hw
        have hnd := (List.nodup_append.1 hndz).2.1
        simp at hnd
    subst hws
    have hcs₀ : cs₀ = [] := List.length_eq_zero_iff.1 hlen₀
    subst hcs₀
    have hAB' : A' = B' := by simpa using hB'
    subst hAB'
    have hcs' : Chain m₁ ([] ++ A' :: []) := hcs
    have hAlt : A' < m₁.nextPtr := hcs.bound A' (by simp)
    have hn2 : A' ≠ m₁.nextPtr + 1 := Nat.ne_of_lt (Nat.lt_succ_of_lt hAlt)
    obtain ⟨-, hwindow, -⟩ := h.pieces_inside hps hlt hA hte
    refine ⟨(m₁.splitCell3 A' hs te true).1, m₁.nextPtr, [m₁.nextPtr + 1], ?_, hcs'.splitCell3, ?_,
      hcs'.frame_splitCell3, ?_⟩
    · rw [splitHeadTail, if_pos rfl, if_pos (by rw [hsegA]; omega), ← splitCell3_snd]
    · rw [hwindow]
      simp [segs, seg_splitCell3 hAlt, hn2.symm, hsegA]
    · intro x hx
      simp only [List.mem_append, List.mem_cons, List.not_mem_nil, or_false] at hx ⊢
      rcases hx with hx | hx | hx
      · exact Or.inl hx
      · exact Or.inr (by omega)
      · exact Or.inr (by omega)
  | between zl mid zr hzs' hA hA'' hmid hB hte =>
    obtain ⟨ps₁, ps₂, hps, hleft, hright⟩ := Repr.split_chain hzs'
    have hAB : A ≠ B := by
      rintro rfl
      omega
    -- the copied cells are those between the edges
    have hws : ws₀ = mid ++ [B] := by
      have heq : l ++ A :: (ws₀ ++ r) = zl ++ A :: (mid ++ B :: zr) := by
        rw [← hzs']
        exact hzs.symm
      have hndA := List.nodup_append.1 hndz
      have hAl : A ∉ l := fun hmem => hndA.2.2 A hmem A (by simp) rfl
      have hAr : A ∉ ws₀ ++ r := (List.nodup_cons.1 hndA.2.1).1
      obtain ⟨-, -, htl⟩ := (List.append_cons_inj_of_notMem hAl hAr).1 heq
      obtain ⟨ws₁, rfl⟩ : ∃ ws₁, ws₀ = ws₁ ++ [B] := by
        rcases List.eq_nil_or_concat ws₀ with rfl | ⟨ws₁, w, rfl⟩
        · have hb : A = B := by simpa using hwB
          exact absurd hb hAB
        · rw [List.concat_eq_append, ← List.cons_append, List.getLast?_append] at hwB
          have hw : w = B := by simpa using hwB
          exact ⟨ws₁, by rw [hw, List.concat_eq_append]⟩
      have heq' : ws₁ ++ B :: r = mid ++ B :: zr := by simpa using htl
      have hndB : (ws₁ ++ B :: r).Nodup := by simpa using (List.nodup_cons.1 hndA.2.1).2
      have hB1 : B ∉ ws₁ := fun hmem => (List.nodup_append.1 hndB).2.2 B hmem B (by simp) rfl
      have hB2 : B ∉ r := (List.nodup_cons.1 (List.nodup_append.1 hndB).2.1).1
      rw [((List.append_cons_inj_of_notMem hB1 hB2).1 heq').1]
    subst hws
    obtain ⟨cmid, hcmid⟩ : ∃ cmid, cs₀ = cmid ++ [B'] := by
      rcases List.eq_nil_or_concat cs₀ with rfl | ⟨cmid, c, rfl⟩
      · simp at hlen₀
      · rw [List.concat_eq_append, ← List.cons_append, List.getLast?_append] at hB'
        have hc : c = B' := by simpa using hB'
        exact ⟨cmid, by rw [hc, List.concat_eq_append]⟩
    subst hcmid
    have hcut : segs m₁ cmid ++ [m₁.seg B'] = segs m mid ++ [m.seg B] := by
      simpa [segs] using hseg₀
    obtain ⟨hsegmid, hsegB⟩ := List.append_inj' hcut rfl
    have hsegB : m₁.seg B' = m.seg B := (List.cons.inj hsegB).1
    obtain ⟨m₂, mid', hcall, hchain, hframe, hfrom, -, -, -, hsegmid'⟩ :=
      splitHeadTail_between true hlt Chain (fun _ _ h => h)
        (fun _ _ _ _ h _ _ => h.seplitCellHead) (fun _ _ _ _ h _ _ => h.seplitCellTail)
        (show Chain m₁ ([] ++ A' :: (cmid ++ B' :: [])) from hcs)
        (by rw [hsegA]; exact hA) (by rw [hsegA]; exact hA'') (by rw [hsegB]; exact hB)
        (by rw [hsegB]; exact hte)
    refine ⟨m₂, B', mid', hcall, hchain, ?_, hframe, ?_⟩
    · obtain ⟨-, hw, -⟩ := h.pieces_between hc hps hleft hright hzs' hA hA'' hmid hB hte
      rw [hw, ← hsegmid, ← hsegA, ← hsegB]
      exact hsegmid'
    · intro x hx
      simp only [List.mem_append, List.mem_cons, List.not_mem_nil, or_false] at hx ⊢
      rcases hx with hx | hx | hx
      · simp [hx]
      · rcases hfrom x hx with hx | hx <;> simp [hx]
      · simp [hx]

/-! ## `GetCellList` -/

/-- The last loop of `GetCellList` moves each cell of the list and nothing
else. -/
theorem rebase_spec (addr : Int) (ss : List Nat) {m : SymbolListMap} {p : Option Nat}
    (hlink : Linked m.next m.prev p ss none) (hnd : ss.Nodup) {fuel : Nat}
    (hfuel : ss.length < fuel) :
    ∃ m', rebase addr fuel m ss.head? = some m' ∧ m'.next = m.next ∧ m'.prev = m.prev ∧
      m'.nextPtr = m.nextPtr ∧ m'.ends = m.ends ∧ m'.sm = m.sm ∧
      (∀ x, x ∉ ss → m'.seg x = m.seg x) ∧
      segs m' ss = (segs m ss).map (Segment.shift addr) := by
  -- The induction is on the nodes that are still to be moved. A step changes one address and no
  -- link.
  induction ss generalizing m p fuel with
  | nil =>
    cases fuel with
    | zero => simp at hfuel
    | succ fuel => exact ⟨m, rfl, rfl, rfl, rfl, rfl, rfl, fun _ _ => rfl, rfl⟩
  | cons x ss ih =>
    cases fuel with
    | zero => simp at hfuel
    | succ fuel =>
      obtain ⟨hx, hnd'⟩ := List.nodup_cons.1 hnd
      obtain ⟨-, hnext, hrest⟩ := linked_cons.1 hlink
      rw [Option.or_none] at hnext
      let m₁ := m.setSeg x ((m.seg x).shift addr)
      have hrest₁ : Linked m₁.next m₁.prev (some x) ss none := by simpa [m₁] using hrest
      obtain ⟨m', hm', h1, h2, h3, h4, h5, h6, h7⟩ :=
        ih hrest₁ hnd' (Nat.lt_of_succ_lt_succ hfuel)
      refine ⟨m', ?_, by simpa [m₁] using h1, by simpa [m₁] using h2, by simpa [m₁] using h3,
        by simpa [m₁] using h4, by simpa [m₁] using h5, ?_, ?_⟩
      · rw [List.head?_cons, rebase]
        have hnext₁ : m₁.next x = ss.head? := by simpa [m₁] using hnext
        simp only [m₁] at hnext₁ hm' ⊢
        rw [hnext₁]
        exact hm'
      · intro y hy
        have hyx : y ≠ x := fun heq => hy (by simp [heq])
        rw [h6 y fun hmem => hy (by simp [hmem])]
        simp [m₁, hyx]
      · have hsame : segs m₁ ss = segs m ss :=
          List.map_congr_left fun y hy => by
            have hyx : y ≠ x := fun heq => hx (heq ▸ hy)
            simp [m₁, hyx]
        have hxm' : m'.seg x = (m.seg x).shift addr := by
          rw [h6 x hx]
          simp [m₁]
        rw [hsame] at h7
        simp only [segs, List.map_cons, hxm'] at h7 ⊢
        rw [h7]

/-- Reading a list off the heap. -/
theorem readList_spec (ss : List Nat) {m : SymbolListMap} {p : Option Nat}
    (hlink : Linked m.next m.prev p ss none) {fuel : Nat} (hfuel : ss.length < fuel) :
    m.readList fuel ss.head? = segs m ss := by
  induction ss generalizing p fuel with
  | nil =>
    cases fuel with
    | zero => simp at hfuel
    | succ fuel => rfl
  | cons x ss ih =>
    cases fuel with
    | zero => simp at hfuel
    | succ fuel =>
      obtain ⟨-, hnext, hrest⟩ := linked_cons.1 hlink
      rw [Option.or_none] at hnext
      rw [List.head?_cons, readList, hnext, ih hrest (Nat.lt_of_succ_lt_succ hfuel)]
      rfl

/-- `GetCellList` on a range with a covered byte returns the window of the
range, moved to the origin, and leaves the store as it is. -/
theorem Repr.cellList_spec {m : SymbolListMap} {ps : List Nat} (h : Repr m ps) {addr : Int}
    {size : Nat} (hc : Searchable addr (addr + size))
    (hcov : ∃ b, addr ≤ b ∧ b < addr + size ∧ Covered (segs m ps) b) :
    ∃ m', m.cellList addr size = some (m',
        (window cutExpr addr (addr + size) (segs m ps)).map (Segment.shift addr)) ∧
      Repr m' ps ∧ segs m' ps = segs m ps ∧ Frame m m' [] ∧ m'.sm = m.sm := by
  have hlt : addr < addr + (size : Int) := by
    obtain ⟨b, hlo, hhi, -⟩ := hcov
    exact lt_of_le_of_lt hlo hhi
  obtain ⟨A, B, hfind, haff⟩ := h.getAffectedCells_spec hc hlt
  -- the cells from one edge to the other
  obtain ⟨l, ws, r, hzs, hwA, hwB⟩ : ∃ l ws r, m.chainOf ps = l ++ (ws ++ r) ∧
      ws.head? = some A ∧ ws.getLast? = some B := by
    cases haff with
    | inside l r hps hB _ _ =>
      refine ⟨m.listheader :: l, [A], r ++ [m.listtail], ?_, rfl, by simp [hB]⟩
      rw [chainOf, hps]
      simp
    | between l mid r hzs _ _ _ _ _ =>
      refine ⟨l, A :: (mid ++ [B]), r, by rw [hzs]; simp, rfl, ?_⟩
      rw [← List.cons_append, List.getLast?_append]
      simp
  -- The code copies these cells, cuts the copies at the range and moves what is in it.
  obtain ⟨m₁, cs, A', B', hcreate, hchain₁, hsegs₁, hhead₁, hlast₁, hframe₁, hsm₁, hnew₁⟩ :=
    createSymbolList_spec (hzs ▸ h.chain) hwA hwB
  obtain ⟨m₂, B₂, mid, hsplit, hchain₂, hsegs₂, hframe₂, hfrom₂⟩ :=
    splitCopies_spec h hc hlt haff hzs hwA hwB hchain₁ hsegs₁ hhead₁ hlast₁
  have hsm₂ : m₂.sm = m₁.sm := by
    have hsm := sm_splitHeadTail_read m₁ A' B' addr (addr + size)
    rw [hsplit] at hsm
    exact hsm
  -- the window is not empty, as some byte of the range is covered
  have hne : mid ≠ [] := by
    rintro rfl
    obtain ⟨b, hb1, hb2, hb⟩ := hcov
    have hw : Covered (window cutExpr addr (addr + size) (segs m ps)) b :=
      (covered_window cutExpr hlt _ b).2 ⟨⟨hb1, hb2⟩, hb⟩
    rw [← hsegs₂] at hw
    exact covered_nil b hw
  obtain ⟨w, mid₁, hmidw⟩ : ∃ w mid₁, mid = w :: mid₁ := List.exists_cons_of_ne_nil hne
  obtain ⟨mid₀, z, hmidz⟩ : ∃ mid₀ z, mid = mid₀ ++ [z] := by
    rcases List.eq_nil_or_concat mid with hnil | ⟨mid₀, z, hz⟩
    · exact absurd hnil hne
    · exact ⟨mid₀, z, by rw [hz, List.concat_eq_append]⟩
  obtain ⟨hAout, hnd₂⟩ := List.nodup_cons.1 hchain₂.nodup
  have hndmid : mid.Nodup := (List.nodup_append.1 hnd₂).1
  have hzA : z ≠ A' := fun heq => hAout (by simp [hmidz, heq])
  -- the links at the two ends of the window are cut
  have hprevB : m₂.prev B₂ = some z := by
    have hp : m₂.prev B₂ = (A' :: mid).getLast?.or none :=
      (show Linked m₂.next m₂.prev none ((A' :: mid) ++ B₂ :: []) none by
        simpa using hchain₂.linked).prev_eq
    rw [hp, hmidz, ← List.cons_append, List.getLast?_append]
    rfl
  have hnextA : m₂.next A' = some w := by
    have hl := hchain₂.linked.2.1
    rw [hl, hmidw]
    rfl
  let m₃ := (m₂.setNext z none).setPrev w none
  have hlink₃ : Linked m₃.next m₃.prev none mid none := by
    have hmid := (linked_append.1 hchain₂.linked.2.2).1
    have h1 : Linked (Function.update m₂.next z none) m₂.prev (some A') mid none := by
      rw [hmidz] at hmid hndmid ⊢
      exact hmid.set_next_last fun hmem => (List.nodup_append.1 hndmid).2.2 z hmem z (by simp) rfl
    have h2 : Linked (Function.update m₂.next z none) (Function.update m₂.prev w none) none
        mid none := by
      rw [hmidw] at h1 hndmid ⊢
      exact h1.set_prev_head (List.nodup_cons.1 hndmid).1
    simpa [m₃] using h2
  have hlen : mid.length < m₃.nextPtr + 1 := by
    have hsub : mid ⊆ List.range m₂.nextPtr := fun x hx =>
      List.mem_range.2 (hchain₂.bound x (by simp [hx]))
    have hle := (List.Nodup.subperm hndmid hsub).length_le
    have hptr : m₃.nextPtr = m₂.nextPtr := by simp [m₃]
    simp at hle
    omega
  obtain ⟨m₄, hrebase, hnext₄, hprev₄, hptr₄, hends₄, hsm₄, hout₄, hsegs₄⟩ :=
    rebase_spec addr mid hlink₃ hndmid hlen
  have hread : m₄.readList (m₄.nextPtr + 1) mid.head? = segs m₄ mid :=
    readList_spec mid (by rw [hnext₄, hprev₄]; exact hlink₃) (by rw [hptr₄]; exact hlen)
  -- All of it happens on nodes that the call has made, so that the store itself is as it was.
  have hmidnew : ∀ x ∈ mid, m.nextPtr ≤ x := by
    intro x hx
    rcases hfrom₂ x (by simp [hx]) with hmem | hge
    · exact hnew₁ x hmem
    · exact Nat.le_trans hframe₁.nextPtr hge
  have hframe : Frame m m₄ [] := by
    have h12 : Frame m m₂ [] := hframe₁.trans hframe₂ fun x hx => Or.inr (hnew₁ x hx)
    have h24 : Frame m₂ m₄ mid := by
      constructor
      · rw [hends₄]
        simp [m₃]
      · rw [hptr₄]
        simp [m₃]
      · intro x _ hx
        have hxz : x ≠ z := fun heq => hx (by simp [hmidz, heq])
        rw [hnext₄]
        simp [m₃, hxz]
      · intro x _ hx
        have hxw : x ≠ w := fun heq => hx (by simp [hmidw, heq])
        rw [hprev₄]
        simp [m₃, hxw]
      · intro x _ hx
        rw [hout₄ x hx]
        simp [m₃]
    exact h12.trans h24 fun x hx => Or.inr (hmidnew x hx)
  have hsm : m₄.sm = m.sm := by
    rw [hsm₄]
    simp [m₃, hsm₂, hsm₁]
  obtain ⟨hrepr, hsame⟩ := h.of_frame hframe (by simp) hsm
  refine ⟨m₄, ?_, hrepr, hsame, hframe, hsm⟩
  have hsegs₃ : segs m₃ mid = window cutExpr addr (addr + size) (segs m ps) := by
    rw [← hsegs₂]
    simp [segs, m₃]
  have hnextA₃ : (m₂.setNext z none).next A' = some w := by
    rw [next_setNext, Function.update_of_ne hzA.symm, hnextA]
  have hheadw : mid.head? = some w := by simp [hmidw]
  have hget : m.getCellList addr size = some (m₄, some w) := by
    rw [hheadw] at hrebase
    rw [getCellList]
    simp only [hfind, Option.bind_eq_bind, Option.bind_some, hcreate, hsplit, hprevB, hnextA₃]
    simp only [m₃] at hrebase
    rw [hrebase]
    rfl
  rw [cellList]
  simp only [hget, Option.bind_eq_bind, Option.bind_some]
  rw [← hheadw, hread, hsegs₄, hsegs₃]
  rfl

/-! ## `GetExpr` -/

/-- A list with a first cell gives an expression. -/
theorem exprOfCells_isSome (v : BitVec 64) (size : Nat) {cells : List (Segment Expr)}
    (hne : cells ≠ []) : ∃ e, exprOfCells v size cells = some e := by
  rw [exprOfCells]
  split
  · exact ⟨_, rfl⟩
  · obtain ⟨x, xs, rfl⟩ := List.exists_cons_of_ne_nil hne
    exact ⟨x.val, rfl⟩

/-- `GetExpr` on a range with a covered byte makes its expression of the
window of the range, and leaves the store as it is. -/
theorem Repr.getExpr_spec {m : SymbolListMap} {ps : List Nat} (h : Repr m ps) {addr : Int}
    {size : Nat} (v : BitVec 64) (hc : Searchable addr (addr + size))
    (hcov : ∃ b, addr ≤ b ∧ b < addr + size ∧ Covered (segs m ps) b) :
    ∃ m' e, m.getExpr addr size v = some (m', e) ∧
      exprOfCells v size
        ((window cutExpr addr (addr + size) (segs m ps)).map (Segment.shift addr)) = some e ∧
      Repr m' ps ∧ segs m' ps = segs m ps := by
  obtain ⟨m', hcells, hrepr, hsame, -⟩ := h.cellList_spec hc hcov
  have hne : (window cutExpr addr (addr + size) (segs m ps)).map (Segment.shift addr) ≠ [] := by
    intro hnil
    obtain ⟨b, hb1, hb2, hb⟩ := hcov
    have hlt : addr < addr + (size : Int) := lt_of_le_of_lt hb1 hb2
    have hw := (covered_window cutExpr hlt _ b).2 ⟨⟨hb1, hb2⟩, hb⟩
    rw [List.map_eq_nil_iff.1 hnil] at hw
    exact covered_nil b hw
  obtain ⟨e, he⟩ := exprOfCells_isSome v size hne
  refine ⟨m', e, ?_, he, hrepr, hsame⟩
  rw [getExpr]
  simp only [hcells, Option.bind_eq_bind, Option.bind_some, he]
  rfl

end KRover.SymbolListMap
