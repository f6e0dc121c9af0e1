import KRover.Proofs.SymListEdges

/-! # The operations on the live list

`Split_Head_Tail`, `Remove` and `Merge` on a store that holds the cells `ps`:
each succeeds on every canonical range, keeps the invariant, and leaves the
cells that `Segments.below`, `window`, `above` and `splice` compute.

* `splitHeadTail_spec`: the list cut at the edges of the range;
* `removeBetween_spec`: the range taken out;
* `remove_spec`, `merge_spec`: the two public writers.
-/

set_option autoImplicit false

namespace KRover.SymbolListMap

open Segments DoublyLinked

/-- What the cells of the store say, in order. -/
def segs (m : SymbolListMap) (ps : List Nat) : List (Segment Expr) := ps.map m.seg

/-- `A` is the cell, or the header, in front of the cells `ps₂`, and `B` the
cell, or the tail, behind the cells `ps₁`. -/
structure Edges (m : SymbolListMap) (ps₁ ps₂ : List Nat) (A B : Nat) : Prop where
  left : ∃ zl, m.listheader :: ps₁ = zl ++ [A]
  right : ∃ zr, ps₂ ++ [m.listtail] = B :: zr

namespace Repr

variable {m : SymbolListMap} {ps zl zr mid : List Nat} {A B : Nat} {hs te : Int}

/-- A place in the whole list between two neighbours is a place in the list
of cells. -/
theorem split_chain (hzs : m.chainOf ps = zl ++ A :: (mid ++ B :: zr)) :
    ∃ ps₁ ps₂, ps = ps₁ ++ (mid ++ ps₂) ∧ m.listheader :: ps₁ = zl ++ [A] ∧
      ps₂ ++ [m.listtail] = B :: zr := by
  obtain ⟨ps₁, hps₁⟩ : ∃ ps₁, m.listheader :: ps₁ = zl ++ [A] := by
    cases zl with
    | nil =>
      simp only [chainOf, List.nil_append, List.cons.injEq] at hzs
      exact ⟨[], by rw [hzs.1]; rfl⟩
    | cons w zl =>
      simp only [chainOf, List.cons_append, List.cons.injEq] at hzs
      exact ⟨zl ++ [A], by rw [hzs.1]; rfl⟩
  obtain ⟨ps₂, t, hps₂⟩ : ∃ ps₂ t, B :: zr = ps₂ ++ [t] := by
    rcases List.eq_nil_or_concat (B :: zr) with hnil | ⟨ps₂, t, ht⟩
    · simp at hnil
    · exact ⟨ps₂, t, by rw [ht, List.concat_eq_append]⟩
  have hcat : m.listheader :: (ps ++ [m.listtail])
      = m.listheader :: ((ps₁ ++ (mid ++ ps₂)) ++ [t]) := by
    calc m.listheader :: (ps ++ [m.listtail]) = zl ++ A :: (mid ++ B :: zr) := hzs
      _ = (zl ++ [A]) ++ (mid ++ B :: zr) := by simp
      _ = (m.listheader :: ps₁) ++ (mid ++ (ps₂ ++ [t])) := by rw [hps₁, hps₂]
      _ = m.listheader :: ((ps₁ ++ (mid ++ ps₂)) ++ [t]) := by simp
  obtain ⟨hps, ht⟩ := List.append_inj' (List.cons.inj hcat).2 rfl
  exact ⟨ps₁, ps₂, hps, hps₁, by rw [hps₂, ht]⟩

/-- A cell of positive size is one of `ps`, and its place in the whole list
is its place there. -/
theorem split_cell (h : Repr m ps) (hzs : m.chainOf ps = zl ++ A :: zr)
    (hA : (m.seg A).addr < (m.seg A).stop) :
    ∃ l r, ps = l ++ A :: r ∧ zl = m.listheader :: l ∧ zr = r ++ [m.listtail] := by
  have hAh : A ≠ m.listheader := by
    rintro rfl
    simp [h.header, Segment.stop] at hA
  have hAt : A ≠ m.listtail := by
    rintro rfl
    simp [h.tail, Segment.stop] at hA
  cases zl with
  | nil =>
    simp only [chainOf, List.nil_append, List.cons.injEq] at hzs
    exact absurd hzs.1.symm hAh
  | cons w l =>
    simp only [chainOf, List.cons_append, List.cons.injEq] at hzs
    rcases List.eq_nil_or_concat zr with rfl | ⟨r, t, rfl⟩
    · obtain ⟨-, ht⟩ := List.append_inj' hzs.2 rfl
      exact absurd (List.cons.inj ht).1.symm hAt
    · have hcat : ps ++ [m.listtail] = (l ++ A :: r) ++ [t] := by
        rw [hzs.2]
        simp
      obtain ⟨hps, ht⟩ := List.append_inj' hcat rfl
      exact ⟨l, r, hps, by rw [hzs.1], by rw [ht, List.concat_eq_append]⟩

/-! ## The pieces of the range at the edges -/

/-- The cells up to the one that is cut lie below the range, and of that one its low part. -/
theorem below_left (h : Repr m ps) {ps₁ ps₂ : List Nat} (hps : ps = ps₁ ++ ps₂)
    (hleft : m.listheader :: ps₁ = zl ++ [A]) (hA : (m.seg A).addr < hs)
    (m' : SymbolListMap) (hold : ∀ x ∈ ps₁, x ≠ A → m'.seg x = m.seg x)
    (hsegA : [m'.seg A] = belowOne cutExpr hs (m.seg A)) :
    segs m' ps₁ = below cutExpr hs (segs m ps₁) := by
  -- The node that is cut may be the header, and then no cell lies below.
  cases zl with
  | nil =>
    have hnil : ps₁ = [] := (List.cons.inj hleft).2
    subst hnil
    rfl
  | cons w l =>
    have hps₁ : ps₁ = l ++ [A] := (List.cons.inj hleft).2
    subst hps₁
    have hsort := h.sorted.disjoint
    rw [hps, List.map_append, List.map_append, List.pairwise_append,
      List.pairwise_append] at hsort
    -- The cells before `A` end where `A` starts at the latest, hence before the range.
    have hstop : ∀ x ∈ l.map m.seg, x.stop ≤ hs := by
      intro x hx
      have hle := hsort.1.2.2 x hx (m.seg A) (by simp)
      omega
    have hnd := h.nodup
    rw [hps, List.nodup_append, List.nodup_append] at hnd
    have hmap : l.map m'.seg = l.map m.seg :=
      List.map_congr_left fun x hx => hold x (by simp [hx]) (hnd.1.2.2 x hx A (by simp))
    rw [segs, segs, List.map_append, List.map_append, below_append,
      below_of_stop_le cutExpr hstop, hmap]
    simpa [below] using hsegA

/-- None of the cells before it reach into the range. -/
theorem window_left (h : Repr m ps) {ps₁ ps₂ : List Nat} (hps : ps = ps₁ ++ ps₂)
    (hleft : m.listheader :: ps₁ = zl ++ [A]) (hA : (m.seg A).addr < hs)
    (hheader : (m.seg m.listheader).stop ≤ hs) :
    window cutExpr hs te (segs m ps₁) = windowOne cutExpr hs te (m.seg A) := by
  cases zl with
  | nil =>
    have hinj := List.cons.inj hleft
    rw [hinj.2, ← hinj.1]
    exact (if_pos (Or.inl hheader)).symm
  | cons w l =>
    have hps₁ : ps₁ = l ++ [A] := (List.cons.inj hleft).2
    subst hps₁
    have hsort := h.sorted.disjoint
    rw [hps, List.map_append, List.map_append, List.pairwise_append,
      List.pairwise_append] at hsort
    have hstop : ∀ x ∈ l.map m.seg, x.stop ≤ hs := by
      intro x hx
      have hle := hsort.1.2.2 x hx (m.seg A) (by simp)
      omega
    rw [segs, List.map_append, window_append, window_of_stop_le cutExpr hstop]
    simp [window]

/-- The cells from the one that is cut on lie above the range, and of that one its high
part. -/
theorem above_right (h : Repr m ps) (ps₁ : List Nat) {ps₂ : List Nat} (hps : ps = ps₁ ++ ps₂)
    (hright : ps₂ ++ [m.listtail] = B :: zr) (hB : te < (m.seg B).stop)
    (m' : SymbolListMap) (hold : ∀ x ∈ ps₂, x ≠ B → m'.seg x = m.seg x)
    (hsegB : [m'.seg B] = aboveOne cutExpr te (m.seg B)) :
    segs m' ps₂ = above cutExpr te (segs m ps₂) := by
  -- The node that is cut may be the tail, and then no cell lies above.
  cases ps₂ with
  | nil => rfl
  | cons w r =>
    have hw : w = B := (List.cons.inj hright).1
    subst hw
    have hsort := h.sorted.disjoint
    rw [hps, List.map_append, List.map_cons, List.pairwise_append, List.pairwise_cons] at hsort
    -- The cells behind it start where it ends, hence behind the range.
    have haddr : ∀ x ∈ r.map m.seg, te ≤ x.addr := by
      intro x hx
      have hle := hsort.2.1.1 x hx
      omega
    have hnd := h.nodup
    rw [hps, List.nodup_append, List.nodup_cons] at hnd
    have hmap : r.map m'.seg = r.map m.seg :=
      List.map_congr_left fun x hx => hold x (by simp [hx]) (by
        rintro rfl
        exact hnd.2.1.1 hx)
    rw [segs, segs, List.map_cons, List.map_cons, hmap,
      show m.seg w :: r.map m.seg = [m.seg w] ++ r.map m.seg from rfl, above_append,
      above_of_le_addr cutExpr haddr]
    simp only [above, List.flatMap_cons, List.flatMap_nil, List.append_nil, ← hsegB]
    rfl

/-- None of the cells behind it reach into the range. -/
theorem window_right (h : Repr m ps) (ps₁ : List Nat) {ps₂ : List Nat} (hps : ps = ps₁ ++ ps₂)
    (hright : ps₂ ++ [m.listtail] = B :: zr) (hB : te < (m.seg B).stop)
    (htail : te ≤ (m.seg m.listtail).addr) :
    window cutExpr hs te (segs m ps₂) = windowOne cutExpr hs te (m.seg B) := by
  cases ps₂ with
  | nil =>
    rw [← (List.cons.inj hright).1]
    exact (if_pos (Or.inr htail)).symm
  | cons w r =>
    have hw : w = B := (List.cons.inj hright).1
    subst hw
    have hsort := h.sorted.disjoint
    rw [hps, List.map_append, List.map_cons, List.pairwise_append, List.pairwise_cons] at hsort
    have haddr : ∀ x ∈ r.map m.seg, te ≤ x.addr := by
      intro x hx
      have hle := hsort.2.1.1 x hx
      omega
    rw [segs, List.map_cons, show m.seg w :: r.map m.seg = [m.seg w] ++ r.map m.seg from rfl,
      window_append, window_of_le_addr cutExpr haddr]
    simp [window]

/-- The pieces of the whole list are those of its three parts. -/
theorem pieces_of_parts (hs te : Int) {xs ys zs : List (Segment Expr)}
    (hsort : Sorted (xs ++ (ys ++ zs)))
    (hys : ∀ y ∈ ys, hs ≤ y.addr ∧ y.stop ≤ te) (hxs : ∀ x ∈ xs, x.stop ≤ te)
    (hzs : ∀ z ∈ zs, hs ≤ z.addr) :
    below cutExpr hs (xs ++ (ys ++ zs)) = below cutExpr hs xs ∧
    window cutExpr hs te (xs ++ (ys ++ zs))
      = window cutExpr hs te xs ++ (ys ++ window cutExpr hs te zs) ∧
    above cutExpr te (xs ++ (ys ++ zs)) = above cutExpr te zs := by
  have hpos := hsort.positive
  have hposx : ∀ x ∈ xs, 0 < x.size := fun x hx => hpos x (by simp [hx])
  have hposy : ∀ y ∈ ys, 0 < y.size := fun y hy => hpos y (by simp [hy])
  have hposz : ∀ z ∈ zs, 0 < z.size := fun z hz => hpos z (by simp [hz])
  refine ⟨?_, ?_, ?_⟩
  · rw [below_append, below_append, below_of_le_addr cutExpr hposy fun y hy => (hys y hy).1,
      below_of_le_addr cutExpr hposz hzs, List.append_nil, List.append_nil]
  · rw [window_append, window_append, window_of_inside cutExpr hposy hys]
  · rw [above_append, above_append, above_of_stop_le cutExpr hposx hxs,
      above_of_stop_le cutExpr hposy fun y hy => (hys y hy).2, List.nil_append, List.nil_append]

/-- The header ends before any range that can be searched for. -/
theorem header_stop_le (h : Repr m ps) (hc : Searchable hs te) :
    (m.seg m.listheader).stop ≤ hs := by
  unfold Searchable at hc
  simp only [h.header, Segment.stop]
  omega

/-- The tail starts behind it. -/
theorem le_tail_addr (h : Repr m ps) (hc : Searchable hs te) : te ≤ (m.seg m.listtail).addr := by
  unfold Searchable at hc
  simp only [h.tail]
  omega

/-- The pieces of a range that lies inside one cell. -/
theorem pieces_inside (h : Repr m ps) {l r : List Nat} (hps : ps = l ++ A :: r)
    (hlt : hs < te) (hA : (m.seg A).addr < hs) (hA' : te < (m.seg A).stop) :
    below cutExpr hs (segs m ps) = segs m l ++ [lowPart (m.seg A) hs] ∧
    window cutExpr hs te (segs m ps) = [midPart (m.seg A) hs te] ∧
    above cutExpr te (segs m ps) = highPart (m.seg A) te :: segs m r := by
  have hsplit : segs m ps = segs m l ++ ([m.seg A] ++ segs m r) := by
    rw [hps]
    simp [segs]
  have hsort : Sorted (segs m ps) := h.sorted
  rw [hsplit] at hsort
  obtain ⟨hL, hBr, hLB⟩ := sorted_append.1 hsort
  obtain ⟨-, hR, hBR⟩ := sorted_append.1 hBr
  -- Every other cell lies on one side of the range, since the one cell reaches over both of its
  -- ends.
  have hlow : ∀ x ∈ segs m l, x.stop ≤ hs := by
    intro x hx
    have hle := hLB x hx (m.seg A) (by simp)
    omega
  have hhigh : ∀ x ∈ segs m r, te ≤ x.addr := by
    intro x hx
    have hle := hBR (m.seg A) (by simp) x hx
    omega
  have hlow' : ∀ x ∈ segs m l, x.stop ≤ te := fun x hx => le_trans (hlow x hx) (le_of_lt hlt)
  have hhigh' : ∀ x ∈ segs m r, hs ≤ x.addr := fun x hx => le_trans (le_of_lt hlt) (hhigh x hx)
  refine ⟨?_, ?_, ?_⟩
  · rw [hsplit, below_append, below_append, below_of_stop_le cutExpr hlow,
      below_of_le_addr cutExpr hR.positive hhigh']
    simp [below, belowOne_eq_lowPart hA (show hs < (m.seg A).stop by omega)]
  · rw [hsplit, window_append, window_append, window_of_stop_le cutExpr hlow,
      window_of_le_addr cutExpr hhigh]
    simp [window, windowOne_eq_midPart hA hA' hlt]
  · rw [hsplit, above_append, above_append, above_of_le_addr cutExpr hhigh,
      above_of_stop_le cutExpr hL.positive hlow']
    simp [above, aboveOne_eq_highPart (show (m.seg A).addr < te by omega) hA']

/-- The pieces of a range between two edge cells. -/
theorem pieces_between (h : Repr m ps) (hc : Searchable hs te) {ps₁ ps₂ : List Nat}
    (hps : ps = ps₁ ++ (mid ++ ps₂)) (hleft : m.listheader :: ps₁ = zl ++ [A])
    (hright : ps₂ ++ [m.listtail] = B :: zr)
    (hzs : m.chainOf ps = zl ++ A :: (mid ++ B :: zr))
    (hA : (m.seg A).addr < hs) (hA' : (m.seg A).stop ≤ te)
    (hmid : ∀ x ∈ mid, hs ≤ (m.seg x).addr ∧ (m.seg x).stop ≤ te)
    (hB : hs ≤ (m.seg B).addr) (hB' : te < (m.seg B).stop) :
    below cutExpr hs (segs m ps) = below cutExpr hs (segs m ps₁) ∧
    window cutExpr hs te (segs m ps) = windowOne cutExpr hs te (m.seg A) ++
      (segs m mid ++ windowOne cutExpr hs te (m.seg B)) ∧
    above cutExpr te (segs m ps) = above cutExpr te (segs m ps₂) := by
  have hsplit : segs m ps = segs m ps₁ ++ (segs m mid ++ segs m ps₂) := by
    rw [hps]
    simp [segs]
  have hsort : Sorted (segs m ps) := h.sorted
  rw [hsplit] at hsort
  have hord := h.ordered
  rw [hzs] at hord
  obtain ⟨-, hordA, hordl⟩ := List.pairwise_append.1 hord
  have hordB := (List.pairwise_append.1 (List.pairwise_cons.1 hordA).2).2.1
  have hstopA : (m.seg A).stop = (m.seg A).addr + (m.seg A).size := rfl
  -- Three parts of the list: the cells up to the first edge, those in the range, and those from the
  -- second edge on.
  obtain ⟨hb, hw, ha⟩ := pieces_of_parts hs te hsort
    (by
      intro y hy
      obtain ⟨x, hx, rfl⟩ := List.mem_map.1 hy
      exact hmid x hx)
    (by
      intro y hy
      obtain ⟨x, hx, rfl⟩ := List.mem_map.1 hy
      have hx' : x ∈ zl ++ [A] := by
        rw [← hleft]
        simp [hx]
      rcases List.mem_append.1 hx' with hx' | hx'
      · have hle := (hordl x hx' A (by simp)).2
        omega
      · rw [List.mem_singleton.1 hx']
        exact hA')
    (by
      intro z hz
      obtain ⟨x, hx, rfl⟩ := List.mem_map.1 hz
      have hx' : x ∈ B :: zr := by
        rw [← hright]
        simp [hx]
      rcases List.mem_cons.1 hx' with rfl | hx'
      · exact hB
      · have hle := ((List.pairwise_cons.1 hordB).1 x hx').1
        omega)
  rw [hsplit]
  refine ⟨hb, ?_, ha⟩
  rw [hw, h.window_left hps hleft hA (h.header_stop_le hc),
    h.window_right (ps₁ ++ mid) (by rw [hps, List.append_assoc]) hright hB' (h.le_tail_addr hc)]

/-- `Split_Head_Tail` on the live list: the cells before, in and behind the
range. -/
theorem splitHeadTail_spec (h : Repr m ps) (hc : Searchable hs te) (hlt : hs < te)
    (haff : Affected m ps hs te A B) :
    ∃ m' B' ps₁ mid ps₂, m.splitHeadTail A B hs te false = (m', B') ∧
      Repr m' (ps₁ ++ (mid ++ ps₂)) ∧ Edges m' ps₁ ps₂ A B' ∧ Frame m m' (m.chainOf ps) ∧
      (∀ x ∈ ps₁ ++ (mid ++ ps₂), x ∈ ps ∨ m.nextPtr ≤ x) ∧
      segs m' ps₁ = below cutExpr hs (segs m ps) ∧
      segs m' mid = window cutExpr hs te (segs m ps) ∧
      segs m' ps₂ = above cutExpr te (segs m ps) := by
  cases haff with
  | inside l r hps hBA hA hA' =>
    -- one cell reaches over both edges and becomes three
    subst hBA hps
    have hBmem : B ∈ l ++ B :: r := by simp
    have hBlt := h.lt_nextPtr hBmem
    have h1 : B ≠ m.nextPtr := Nat.ne_of_lt hBlt
    have h2 : B ≠ m.nextPtr + 1 := Nat.ne_of_lt (Nat.lt_succ_of_lt hBlt)
    have hrepr := h.splitCell3 hA hlt hA'
    have hcall : m.splitHeadTail B B hs te false
        = ((m.splitCell3 B hs te false).1, m.nextPtr) := by
      rw [splitHeadTail, if_pos rfl, if_pos (by omega), ← splitCell3_snd]
    have hseg : (m.splitCell3 B hs te false).1.seg = _ := seg_splitCell3 hBlt
    have hsegB : (m.splitCell3 B hs te false).1.seg B = lowPart (m.seg B) hs := by simp [hseg]
    have hseg2 : (m.splitCell3 B hs te false).1.seg (m.nextPtr + 1)
        = midPart (m.seg B) hs te := by simp [hseg, h2.symm]
    have hseg3 : (m.splitCell3 B hs te false).1.seg m.nextPtr = highPart (m.seg B) te := by
      simp [hseg, h1.symm]
    have hchain : Chain m ((m.listheader :: l) ++ B :: (r ++ [m.listtail])) := by
      simpa [chainOf] using h.chain
    have hframe : Frame m (m.splitCell3 B hs te false).1 (m.chainOf (l ++ B :: r)) :=
      hchain.frame_splitCell3.mono (by simp [chainOf])
    obtain ⟨hhd, htl⟩ := Prod.mk.inj hframe.ends
    have hold : ∀ x, x < m.nextPtr → x ≠ B →
        (m.splitCell3 B hs te false).1.seg x = m.seg x := by
      intro x hx hxB
      have hx1 : x ≠ m.nextPtr + 1 := by omega
      simp [hseg, hxB, Nat.ne_of_lt hx, hx1]
    have hmapl : l.map (m.splitCell3 B hs te false).1.seg = l.map m.seg :=
      List.map_congr_left fun x hx => hold x (h.lt_nextPtr (by simp [hx])) (h.ne_of_mem_left hx)
    have hmapr : r.map (m.splitCell3 B hs te false).1.seg = r.map m.seg :=
      List.map_congr_left fun x hx => hold x (h.lt_nextPtr (by simp [hx])) (h.ne_of_mem_right hx)
    obtain ⟨hbelow, hwindow, habove⟩ := h.pieces_inside rfl hlt hA hA'
    refine ⟨(m.splitCell3 B hs te false).1, m.nextPtr, l ++ [B], [m.nextPtr + 1],
      m.nextPtr :: r, hcall, by simpa using hrepr,
      ⟨⟨m.listheader :: l, ?_⟩, ⟨r ++ [m.listtail], ?_⟩⟩, hframe, ?_, ?_, ?_, ?_⟩
    · rw [hhd]
      rfl
    · rw [htl]
      rfl
    · intro x hx
      simp only [List.mem_append, List.mem_cons, List.not_mem_nil, or_false] at hx ⊢
      rcases hx with (hx | hx) | hx | hx | hx
      · simp [hx]
      · simp [hx]
      · exact Or.inr (by omega)
      · exact Or.inr (by omega)
      · simp [hx]
    · rw [hbelow]
      simp [segs, hmapl, hsegB]
    · rw [hwindow]
      simp [segs, hseg2]
    · rw [habove]
      simp [segs, hmapr, hseg3]
  | between zl mid zr hzs hA hA' hmid hB hB' =>
    obtain ⟨ps₁, ps₂, hps, hleft, hright⟩ := split_chain hzs
    -- the two partial splits keep the whole invariant
    obtain ⟨m', mid', hcall, ⟨ps', hzs', hrepr⟩, hframe, hfrom, hold, hsegA, hsegB, hsegmid⟩ :=
      splitHeadTail_between false hlt
        (fun m zs => ∃ ps, zs = m.chainOf ps ∧ Repr m ps)
        (by
          rintro m zs ⟨ps, rfl, h⟩
          exact h.chain)
        (by
          rintro m zl A zr ⟨ps, hzs, h⟩ h1 h2
          obtain ⟨l, r, rfl, rfl, rfl⟩ := h.split_cell hzs.symm (by omega)
          have hends : (m.seplitCellHead A hs false).ends = m.ends := ends_seplitCellHead
          obtain ⟨hhd, htl⟩ := Prod.mk.inj hends
          refine ⟨l ++ A :: m.nextPtr :: r, ?_, h.seplitCellHead h1 h2⟩
          rw [chainOf, hhd, htl]
          simp)
        (by
          rintro m zl B zr ⟨ps, hzs, h⟩ h1 h2
          obtain ⟨l, r, rfl, rfl, rfl⟩ := h.split_cell hzs.symm (by omega)
          have hends : (m.seplitCellTail B te false).ends = m.ends := ends_seplitCellTail
          obtain ⟨hhd, htl⟩ := Prod.mk.inj hends
          refine ⟨l ++ m.nextPtr :: B :: r, ?_, h.seplitCellTail h1 h2⟩
          rw [chainOf, hhd, htl]
          simp)
        ⟨ps, hzs.symm, h⟩ hA hA' hB hB'
    obtain ⟨hhd, htl⟩ := Prod.mk.inj hframe.ends
    -- the cells before and behind the range keep their places
    obtain ⟨ps₁', ps₂', hps', hleft', hright'⟩ := split_chain hzs'.symm
    have he1 : ps₁' = ps₁ := by
      rw [hhd] at hleft'
      exact (List.cons.inj (hleft'.trans hleft.symm)).2
    have he2 : ps₂' = ps₂ := by
      rw [htl] at hright'
      exact (List.append_inj' (hright'.trans hright.symm) rfl).1
    subst he1 he2 hps'
    have hAB : A ≠ B := by
      rintro rfl
      omega
    have hltm : ∀ x ∈ ps, x < m.nextPtr := fun x hx => h.lt_nextPtr hx
    have hnd : (zl ++ A :: (mid ++ B :: zr)).Nodup := hzs ▸ h.chain.nodup
    have hndA := (List.nodup_append.1 hnd).2.1
    have hA1 : ∀ x ∈ ps₁', x ≠ B := by
      rintro x hx rfl
      have hx' : x ∈ zl ++ [A] := by
        rw [← hleft]
        simp [hx]
      rcases List.mem_append.1 hx' with hx' | hx'
      · exact (List.nodup_append.1 hnd).2.2 x hx' x (by simp) rfl
      · exact hAB (List.mem_singleton.1 hx').symm
    have hB2 : ∀ x ∈ ps₂', x ≠ A := by
      rintro x hx rfl
      have hx' : x ∈ B :: zr := by
        rw [← hright]
        simp [hx]
      exact (List.nodup_cons.1 hndA).1 (List.mem_append_right _ hx')
    have hbelow := h.below_left hps hleft hA m'
      (fun x hx hxA => hold x (hltm x (by simp [hps, hx])) hxA (hA1 x hx)) hsegA
    have habove := h.above_right (ps₁' ++ mid) (by rw [hps, List.append_assoc]) hright hB' m'
      (fun x hx hxB => hold x (hltm x (by simp [hps, hx])) (hB2 x hx) hxB) hsegB
    obtain ⟨hb, hw, ha⟩ := h.pieces_between hc hps hleft hright hzs hA hA' hmid hB hB'
    refine ⟨m', B, ps₁', mid', ps₂', hcall, hrepr, ⟨⟨zl, hleft'⟩, ⟨zr, hright'⟩⟩,
      hzs ▸ hframe, ?_, ?_, ?_, ?_⟩
    · intro x hx
      rw [hps]
      simp only [List.mem_append] at hx ⊢
      rcases hx with hx | hx | hx
      · simp [hx]
      · rcases hfrom x hx with hx | hx <;> simp [hx]
      · simp [hx]
    · rw [hb, hbelow]
    · rw [hw]
      exact hsegmid
    · rw [ha, habove]

end Repr

/-! ## Unlinking -/

/-- The loop of `Remove` clears the entries of the cells it passes and
nothing else. The induction is on the cells up to `B`. -/
theorem unindexUntil_spec {B : Nat} {r : List Nat} (mid : List Nat) {m : SymbolListMap}
    {p q : Option Nat} (hlink : Linked m.next m.prev p (mid ++ B :: r) q) (hB : B ∉ mid)
    {fuel : Nat} (hfuel : mid.length < fuel) :
    ∃ m', unindexUntil B fuel m (mid ++ B :: r).head? = some m' ∧
      m'.next = m.next ∧ m'.prev = m.prev ∧ m'.seg = m.seg ∧ m'.nextPtr = m.nextPtr ∧
      m'.ends = m.ends ∧
      (∀ k, (∃ x ∈ mid, k = addrToKey (m.seg x).addr) → m'.sm k = none) ∧
      (∀ k, (∀ x ∈ mid, k ≠ addrToKey (m.seg x).addr) → m'.sm k = m.sm k) := by
  -- The induction is on the nodes of the range, each of which takes one step of fuel.
  induction mid generalizing m p fuel with
  | nil =>
    cases fuel with
    | zero => simp at hfuel
    | succ fuel =>
      refine ⟨m, ?_, rfl, rfl, rfl, rfl, rfl, ?_, fun _ _ => rfl⟩
      · simp [unindexUntil]
      · rintro k ⟨x, hx, -⟩
        simp at hx
  | cons x mid ih =>
    cases fuel with
    | zero => simp at hfuel
    | succ fuel =>
      have hxB : x ≠ B := fun heq => hB (by simp [heq])
      obtain ⟨-, hnext, hrest⟩ := linked_cons.1 hlink
      have hnext' : m.next x = (mid ++ B :: r).head? := by
        rw [List.cons_append] at hlink
        rw [hnext]
        cases mid <;> rfl
      obtain ⟨m', hm', h1, h2, h3, h4, h5, h6, h7⟩ :=
        ih (m := m.unindex x) hrest (fun hmem => hB (by simp [hmem]))
          (Nat.lt_of_succ_lt_succ hfuel)
      refine ⟨m', ?_, h1, h2, h3, h4, h5, ?_, ?_⟩
      · rw [List.cons_append, List.head?_cons, unindexUntil]
        simp only [Option.bind_eq_bind, Option.bind_some, if_neg hxB, hnext']
        exact hm'
      · rintro k ⟨y, hy, hk⟩
        -- A key that a later step takes out is out at the end. Any other key of the range is the
        -- one taken out here.
        by_cases hmem : ∃ z ∈ mid, k = addrToKey (m.seg z).addr
        · exact h6 k hmem
        · push Not at hmem
          rw [h7 k hmem]
          rcases List.mem_cons.1 hy with rfl | hy
          · rw [hk, sm_unindex]
            exact Function.update_self ..
          · exact absurd hk (hmem y hy)
      · intro k hk
        rw [h7 k fun z hz => hk z (by simp [hz]), sm_unindex]
        exact Function.update_of_ne (hk x (by simp)) _ _

namespace Repr

variable {m : SymbolListMap} {ps ps₁ ps₂ mid : List Nat} {A B : Nat} {hs te : Int}

/-- The whole list, seen from the two edge cells. -/
theorem chainOf_edges {zl zr : List Nat} (hleft : m.listheader :: ps₁ = zl ++ [A])
    (hright : ps₂ ++ [m.listtail] = B :: zr) :
    m.chainOf (ps₁ ++ (mid ++ ps₂)) = zl ++ A :: (mid ++ B :: zr) := by
  calc m.chainOf (ps₁ ++ (mid ++ ps₂))
      = (m.listheader :: ps₁) ++ (mid ++ (ps₂ ++ [m.listtail])) := by simp [chainOf]
    _ = (zl ++ [A]) ++ (mid ++ (B :: zr)) := by rw [hleft, hright]
    _ = zl ++ A :: (mid ++ B :: zr) := by simp

/-- `Remove(insertAfter, insertBefore)` takes out the cells between its
arguments. -/
theorem removeBetween_spec (h : Repr m (ps₁ ++ (mid ++ ps₂))) (he : Edges m ps₁ ps₂ A B) :
    ∃ m', m.removeBetween A B = some m' ∧ Repr m' (ps₁ ++ ps₂) ∧ Edges m' ps₁ ps₂ A B ∧
      m'.seg = m.seg ∧ Frame m m' (m.chainOf (ps₁ ++ (mid ++ ps₂))) := by
  obtain ⟨⟨zl, hleft⟩, ⟨zr, hright⟩⟩ := he
  have hzs : m.chainOf (ps₁ ++ (mid ++ ps₂)) = zl ++ A :: (mid ++ B :: zr) :=
    chainOf_edges hleft hright
  have hc := h.chain
  rw [hzs] at hc
  obtain ⟨-, hnextA, hlinkmid⟩ := linked_cons.1 (linked_append.1 hc.linked).2
  have hndA := List.nodup_cons.1 (List.nodup_append.1 hc.nodup).2.1
  have hndmid := List.nodup_append.1 hndA.2
  have hBmid : B ∉ mid := fun hmem => hndmid.2.2 B hmem B (by simp) rfl
  -- The fuel is the number of nodes ever made, and the chain has no more than that.
  have hlen : mid.length < m.nextPtr + 1 := by
    have hle := h.length_le
    rw [hzs] at hle
    simp at hle
    omega
  have hhead : m.next A = (mid ++ B :: zr).head? := by
    rw [hnextA]
    cases mid <;> rfl
  obtain ⟨m₁, hm₁, hnext₁, hprev₁, hseg₁, hptr₁, hends₁, hgone, hkept⟩ :=
    unindexUntil_spec mid hlinkmid hBmid hlen
  -- the two links across the gap
  have hjoin : Linked (Function.update m.next A (some B)) (Function.update m.prev B (some A))
      none (zl ++ A :: B :: zr) none := by
    have hl : Linked m.next m.prev none (zl ++ [A]) ((mid ++ B :: zr).head?.or none) :=
      (linked_append.1 (show Linked m.next m.prev none ((zl ++ [A]) ++ (mid ++ B :: zr)) none by
        simpa using hc.linked)).1
    have hr := (linked_append.1 hlinkmid).2
    refine hl.join hr ?_
    have hsub : List.Sublist (zl ++ A :: B :: zr) (zl ++ A :: (mid ++ B :: zr)) :=
      List.Sublist.append_left ((List.sublist_append_right mid (B :: zr)).cons_cons A) zl
    exact hsub.nodup hc.nodup
  refine ⟨(m₁.setNext A (some B)).setPrev B (some A), ?_, ?_, ?_, ?_, ?_⟩
  · rw [removeBetween, hhead, hm₁]
    rfl
  · obtain ⟨hhd, htl⟩ := Prod.mk.inj hends₁
    have hsegs : ((m₁.setNext A (some B)).setPrev B (some A)).seg = m.seg := by simp [hseg₁]
    have hhd' : ((m₁.setNext A (some B)).setPrev B (some A)).listheader = m.listheader := hhd
    have htl' : ((m₁.setNext A (some B)).setPrev B (some A)).listtail = m.listtail := htl
    have hchain' : ((m₁.setNext A (some B)).setPrev B (some A)).chainOf (ps₁ ++ ps₂)
        = zl ++ A :: B :: zr := by
      have hz : m.chainOf (ps₁ ++ ([] ++ ps₂)) = _ := chainOf_edges hleft hright
      rw [chainOf, hhd', htl']
      exact hz
    -- What is left of a sorted list is sorted.
    have hsort := h.sorted
    rw [List.map_append, List.map_append] at hsort
    obtain ⟨hs1, hs23, hs12⟩ := sorted_append.1 hsort
    obtain ⟨hs2, hs3, hs23⟩ := sorted_append.1 hs23
    constructor
    · rw [hchain']
      constructor
      · simpa [hnext₁, hprev₁] using hjoin
      · have hsub : List.Sublist (zl ++ A :: B :: zr) (zl ++ A :: (mid ++ B :: zr)) :=
          List.Sublist.append_left ((List.sublist_append_right mid (B :: zr)).cons_cons A) zl
        exact hsub.nodup hc.nodup
      · intro z hz
        have hz' : z ∈ zl ++ A :: (mid ++ B :: zr) := by
          simp only [List.mem_append, List.mem_cons] at hz ⊢
          tauto
        have hlt := hc.bound z hz'
        simpa [hptr₁] using hlt
    · rw [hsegs, hhd', h.header]
    · rw [hsegs, htl', h.tail]
    · rw [hsegs, List.map_append]
      exact hs1.append hs3 fun x hx y hy => hs12 x hx y (List.mem_append_right _ hy)
    · intro x hx
      rw [hsegs]
      refine h.canonical x ?_
      simp only [List.mem_append] at hx ⊢
      tauto
    · intro k q
      rw [hhd', htl', hsegs, sm_setPrev, sm_setNext]
      -- an entry survives exactly when it is not that of a removed cell
      by_cases hk : ∃ x ∈ mid, k = addrToKey (m.seg x).addr
      · rw [hgone k hk]
        obtain ⟨x, hx, rfl⟩ := hk
        constructor
        · intro hfalse
          simp at hfalse
        · rintro (⟨hk, -⟩ | ⟨y, hy, hk, rfl⟩)
          · have hnn := addrToKey_nonneg (m.seg x).addr
            omega
          · have hxmem : x ∈ (ps₁ ++ (mid ++ ps₂)) ++ [m.listtail] := by simp [hx]
            have hymem : q ∈ (ps₁ ++ (mid ++ ps₂)) ++ [m.listtail] := by
              simp only [List.mem_append] at hy ⊢
              tauto
            have hxq := h.key_unique hxmem hymem hk
            subst hxq
            -- a removed cell is neither before nor behind the gap
            have hnd := h.nodup
            rw [List.nodup_append, List.nodup_append] at hnd
            rcases List.mem_append.1 hy with hy | hy
            · rcases List.mem_append.1 hy with hy | hy
              · exact absurd rfl (hnd.2.2 x hy x (by simp [hx]))
              · exact absurd rfl (hnd.2.1.2.2 x hx x hy)
            · have hmem : x ∈ ps₁ ++ (mid ++ ps₂) := by simp [hx]
              exact absurd (List.mem_singleton.1 hy) (h.tail_ne hmem)
      · push Not at hk
        rw [hkept k hk, h.indexed]
        refine or_congr_right ⟨?_, ?_⟩
        · rintro ⟨y, hy, hky, rfl⟩
          have hymid : q ∉ mid := fun hmem => hk q hmem hky
          refine ⟨q, ?_, hky, rfl⟩
          simp only [List.mem_append] at hy ⊢
          tauto
        · rintro ⟨y, hy, hky, rfl⟩
          refine ⟨q, ?_, hky, rfl⟩
          simp only [List.mem_append] at hy ⊢
          tauto
  · obtain ⟨hhd, htl⟩ := Prod.mk.inj hends₁
    refine ⟨⟨zl, ?_⟩, ⟨zr, ?_⟩⟩
    · rw [← hleft]
      exact congrArg (· :: ps₁) hhd
    · rw [← hright]
      exact congrArg (fun t => ps₂ ++ [t]) htl
  · simp [hseg₁]
  -- Only the two nodes at the edges get new links.
  · have hA : A ∈ m.chainOf (ps₁ ++ (mid ++ ps₂)) := by simp [hzs]
    have hB : B ∈ m.chainOf (ps₁ ++ (mid ++ ps₂)) := by simp [hzs]
    constructor
    · simpa using hends₁
    · simp [hptr₁]
    · intro x _ hx
      have hxA : x ≠ A := fun heq => hx (heq ▸ hA)
      simp [hnext₁, hxA]
    · intro x _ hx
      have hxB : x ≠ B := fun heq => hx (heq ▸ hB)
      simp [hprev₁, hxB]
    · intro x _ _
      simp [hseg₁]

/-- `Remove(addr, size)` takes out what lies in the range. -/
theorem remove_spec (h : Repr m ps) {addr : Int} {size : Nat}
    (hc : Searchable addr (addr + size)) (hpos : 0 < size) :
    ∃ m' ps', m.remove addr size = some m' ∧ Repr m' ps' ∧
      segs m' ps' = splice cutExpr addr (addr + size) [] (segs m ps) := by
  have hlt : addr < addr + (size : Int) := by omega
  obtain ⟨A, B, hfind, haff⟩ := h.getAffectedCells_spec hc hlt
  obtain ⟨m₁, B', ps₁, mid, ps₂, hcut, hrepr, hedges, -, -, hbelow, -, habove⟩ :=
    h.splitHeadTail_spec hc hlt haff
  obtain ⟨m₂, hrem, hrepr₂, -, hseg₂, -⟩ := hrepr.removeBetween_spec hedges
  refine ⟨m₂, ps₁ ++ ps₂, ?_, hrepr₂, ?_⟩
  · simp [remove, hfind, hcut, hrem]
  · rw [segs, hseg₂, List.map_append, splice, List.nil_append, ← hbelow, ← habove]
    rfl

end Repr

/-! ## Linking -/

/-- `lastFrom` finds the last cell of a list. -/
theorem lastFrom_spec {m : SymbolListMap} (ss : List Nat) {p : Option Nat} {h t : Nat}
    (hlink : Linked m.next m.prev p (h :: ss) none) (ht : (h :: ss).getLast? = some t)
    {fuel : Nat} (hfuel : ss.length < fuel) : m.lastFrom fuel h = some t := by
  induction ss generalizing h p fuel with
  | nil =>
    cases fuel with
    | zero => simp at hfuel
    | succ fuel =>
      have hnext : m.next h = none := by simpa using hlink.2.1
      rw [lastFrom, hnext]
      exact ht
  | cons x ss ih =>
    cases fuel with
    | zero => simp at hfuel
    | succ fuel =>
      have hnext : m.next h = some x := by simpa using hlink.2.1
      rw [lastFrom, hnext]
      rw [List.getLast?_cons_cons] at ht
      exact ih hlink.2.2 ht (Nat.lt_of_succ_lt_succ hfuel)

/-- The last loop of `Merge` enters each cell of the list under its key and
changes nothing else. -/
theorem indexUntil_spec {t : Nat} (ss : List Nat) {m : SymbolListMap} {p q : Option Nat}
    {h : Nat} (hlink : Linked m.next m.prev p (h :: ss) q) (hnd : (h :: ss).Nodup)
    (ht : (h :: ss).getLast? = some t)
    (hkeys : (h :: ss).Pairwise fun x y =>
      addrToKey (m.seg x).addr ≠ addrToKey (m.seg y).addr)
    {fuel : Nat} (hfuel : ss.length < fuel) :
    ∃ m', indexUntil t fuel m h = some m' ∧
      m'.next = m.next ∧ m'.prev = m.prev ∧ m'.seg = m.seg ∧ m'.nextPtr = m.nextPtr ∧
      m'.ends = m.ends ∧
      (∀ x ∈ h :: ss, m'.sm (addrToKey (m.seg x).addr) = some x) ∧
      (∀ k, (∀ x ∈ h :: ss, k ≠ addrToKey (m.seg x).addr) → m'.sm k = m.sm k) := by
  -- The induction is on the new nodes behind the first. Their keys differ, so a later entry
  -- replaces none before it.
  induction ss generalizing m h p fuel with
  | nil =>
    cases fuel with
    | zero => simp at hfuel
    | succ fuel =>
      simp only [List.getLast?_singleton, Option.some_inj] at ht
      refine ⟨m.index h, ?_, rfl, rfl, rfl, rfl, rfl, ?_, ?_⟩
      · simp [indexUntil, ht]
      · intro x hx
        rw [List.mem_singleton.1 hx, sm_index]
        exact Function.update_self ..
      · intro k hk
        rw [sm_index]
        exact Function.update_of_ne (hk h (by simp)) _ _
  | cons y ss ih =>
    cases fuel with
    | zero => simp at hfuel
    | succ fuel =>
      have hnext : m.next h = some y := by simpa using hlink.2.1
      rw [List.getLast?_cons_cons] at ht
      obtain ⟨hh, hnd'⟩ := List.nodup_cons.1 hnd
      have hht : h ≠ t := fun heq => hh (heq ▸ List.mem_of_getLast? ht)
      obtain ⟨hkh, hkeys'⟩ := List.pairwise_cons.1 hkeys
      obtain ⟨m', hm', h1, h2, h3, h4, h5, h6, h7⟩ :=
        ih (m := m.index h) hlink.2.2 hnd' ht hkeys' (Nat.lt_of_succ_lt_succ hfuel)
      refine ⟨m', ?_, h1, h2, h3, h4, h5, ?_, ?_⟩
      · simp only [indexUntil, if_neg hht, next_index, hnext, Option.bind_eq_bind,
          Option.bind_some]
        exact hm'
      · intro x hx
        rcases List.mem_cons.1 hx with rfl | hx
        · rw [h7 _ fun z hz => hkh z hz, sm_index]
          exact Function.update_self ..
        · exact h6 x hx
      · intro k hk
        rw [h7 k fun z hz => hk z (by simp [List.mem_cons.1 hz]), sm_index]
        exact Function.update_of_ne (hk h (by simp)) _ _

namespace Repr

variable {m : SymbolListMap} {ps ps₁ ps₂ ss : List Nat} {A B : Nat}

/-- Linking new cells into a gap keeps the invariant: they are sorted into
place, and the index is changed at their keys only, where it leads to them. -/
theorem insertCells (h : Repr m (ps₁ ++ ps₂)) {m' : SymbolListMap} (hends : m'.ends = m.ends)
    (hseg : m'.seg = m.seg) (hchain : Chain m' (m.chainOf (ps₁ ++ (ss ++ ps₂))))
    (hsorted : Sorted (segs m (ps₁ ++ (ss ++ ps₂))))
    (hcanon : ∀ x ∈ ss, Canonical (m.seg x).addr (m.seg x).stop)
    (hkeyed : ∀ x ∈ ss, m'.sm (addrToKey (m.seg x).addr) = some x)
    (hother : ∀ k, (∀ x ∈ ss, k ≠ addrToKey (m.seg x).addr) → m'.sm k = m.sm k) :
    Repr m' (ps₁ ++ (ss ++ ps₂)) := by
  obtain ⟨hhd, htl⟩ := Prod.mk.inj hends
  constructor
  · rw [chainOf, hhd, htl]
    exact hchain
  · rw [hseg, hhd, h.header]
  · rw [hseg, htl, h.tail]
  · rw [hseg]
    exact hsorted
  · intro x hx
    rw [hseg]
    simp only [List.mem_append] at hx
    rcases hx with hx | hx | hx
    · exact h.canonical x (by simp [hx])
    · exact hcanon x hx
    · exact h.canonical x (by simp [hx])
  · intro k q
    rw [hhd, htl, hseg]
    by_cases hk : ∃ x ∈ ss, k = addrToKey (m.seg x).addr
    · obtain ⟨x, hx, rfl⟩ := hk
      have hxpos : 0 < (m.seg x).size := hsorted.positive _ (List.mem_map_of_mem (by simp [hx]))
      have hstop : (m.seg x).stop = (m.seg x).addr + (m.seg x).size := rfl
      have hxc : Canonical (m.seg x).addr ((m.seg x).addr + 1) :=
        (hcanon x hx).start (by omega)
      rw [hkeyed x hx, Option.some_inj]
      constructor
      · rintro rfl
        exact Or.inr ⟨x, by simp [hx], rfl, rfl⟩
      · rintro (⟨hk, -⟩ | ⟨y, hy, hk, rfl⟩)
        · have hnn := addrToKey_nonneg (m.seg x).addr
          omega
        · -- no old cell has the key of a new one: the addresses differ
          have hmaps : Sorted (segs m ps₁ ++ (segs m ss ++ segs m ps₂)) := by
            simpa [segs] using hsorted
          obtain ⟨-, hs23, hs12⟩ := sorted_append.1 hmaps
          obtain ⟨-, -, hs23⟩ := sorted_append.1 hs23
          simp only [List.mem_append, List.mem_singleton] at hy
          -- hy | hy) | hy | The cell is to the left of the new ones, one of them, to their right,
          -- or the tail.
          rcases hy with (hy | hy | hy) | hy
          · have hle := hs12 (m.seg q) (List.mem_map_of_mem hy) (m.seg x)
              (List.mem_append_left _ (List.mem_map_of_mem hx))
            have hlt := h.addr_lt_stop (p := q) (by simp [hy])
            have heq := addrToKey_inj hxc (h.canonical_start (by simp [hy])) hk
            omega
          · have hq := hkeyed q hy
            rw [← hk, hkeyed x hx] at hq
            exact Option.some.inj hq
          · have hle := hs23 (m.seg x) (List.mem_map_of_mem hx) (m.seg q)
              (List.mem_map_of_mem hy)
            have heq := addrToKey_inj hxc (h.canonical_start (by simp [hy])) hk
            omega
          · rw [hy, h.tail] at hk
            exact absurd hk (addrToKey_ne_tail (hxc.searchable (by omega)))
    · push Not at hk
      rw [hother k hk, h.indexed]
      refine or_congr_right ⟨?_, ?_⟩
      · rintro ⟨y, hy, hky, rfl⟩
        refine ⟨q, ?_, hky, rfl⟩
        simp only [List.mem_append] at hy ⊢
        tauto
      · rintro ⟨y, hy, hky, rfl⟩
        have hq : q ∉ ss := fun hmem => hk q hmem hky
        refine ⟨q, ?_, hky, rfl⟩
        simp only [List.mem_append] at hy ⊢
        tauto

/-- The keys of sorted canonical cells are different. -/
theorem keys_distinct {m : SymbolListMap} {ss : List Nat} (hsort : Sorted (segs m ss))
    (hcanon : ∀ x ∈ ss, Canonical (m.seg x).addr (m.seg x).stop) :
    ss.Pairwise fun x y => addrToKey (m.seg x).addr ≠ addrToKey (m.seg y).addr := by
  have hpos : ∀ x ∈ ss, (m.seg x).addr < (m.seg x).stop := by
    intro x hx
    have hp := hsort.positive _ (List.mem_map_of_mem hx)
    have hstop : (m.seg x).stop = (m.seg x).addr + (m.seg x).size := rfl
    omega
  have hdis : ss.Pairwise fun x y => (m.seg x).stop ≤ (m.seg y).addr :=
    List.pairwise_map.1 hsort.disjoint
  apply hdis.imp_of_mem
  intro x y hx hy hle hkey
  have heq := addrToKey_inj ((hcanon x hx).start (hpos x hx)) ((hcanon y hy).start (hpos y hy)) hkey
  have hlt := hpos x hx
  omega

/-- `Merge` of a list of cells outside the store replaces the range from its
first to its last cell. -/
theorem merge_spec (h : Repr m ps) {x₀ : Nat} (hss : Chain m (x₀ :: ss))
    (hout : ∀ x ∈ x₀ :: ss, x ∉ m.chainOf ps) (hsort : Sorted (segs m (x₀ :: ss)))
    (hc : Canonical (start (segs m (x₀ :: ss))) (finish (segs m (x₀ :: ss)))) :
    ∃ m' ps', m.merge x₀ = some m' ∧ Repr m' ps' ∧
      segs m' ps' = splice cutExpr (start (segs m (x₀ :: ss))) (finish (segs m (x₀ :: ss)))
        (segs m (x₀ :: ss)) (segs m ps) := by
  obtain ⟨t, ht⟩ : ∃ t, (x₀ :: ss).getLast? = some t :=
    ⟨(x₀ :: ss).getLast (by simp), List.getLast?_eq_some_getLast (by simp)⟩
  obtain ⟨ss₀, hss₀⟩ : ∃ ss₀, x₀ :: ss = ss₀ ++ [t] := List.getLast?_eq_some_iff.1 ht
  -- Distinct nodes that were made are no more than were made, which is the fuel of the walk.
  have hlenss : ss.length < m.nextPtr + 1 := by
    have hsub : x₀ :: ss ⊆ List.range m.nextPtr := fun z hz => List.mem_range.2 (hss.bound z hz)
    have hle := (List.Nodup.subperm hss.nodup hsub).length_le
    simp at hle
    omega
  have hlast : m.lastFrom (m.nextPtr + 1) x₀ = some t := lastFrom_spec ss hss.linked ht hlenss
  -- the range is that of the list
  have hstart : start (segs m (x₀ :: ss)) = (m.seg x₀).addr := rfl
  have hfinish : finish (segs m (x₀ :: ss)) = (m.seg t).stop := by
    rw [hss₀, segs, List.map_append]
    simp [finish]
  have hlt := hsort.start_lt_finish (by simp [segs])
  have hwithin := hsort.within
  have hsearch := hc.searchable hlt
  obtain ⟨A, B, hfind, haff⟩ := h.getAffectedCells_spec hsearch hlt
  obtain ⟨m₁, B', ps₁, mid, ps₂, hcut, hrepr₁, hedges₁, hframe₁, hfrom, hbelow, -, habove⟩ :=
    h.splitHeadTail_spec hsearch hlt haff
  obtain ⟨m₂, hrem, hrepr₂, hedges₂, hseg₂, hframe₂⟩ := hrepr₁.removeBetween_spec hedges₁
  -- the new cells are left alone until here
  have hout₁ : ∀ x ∈ x₀ :: ss, x ∉ m₁.chainOf (ps₁ ++ (mid ++ ps₂)) := by
    intro x hx hmem
    obtain ⟨hhd, htl⟩ := Prod.mk.inj hframe₁.ends
    rcases mem_of_mem_chainOf hmem with rfl | rfl | hmem
    · rw [hhd] at hx
      exact hout _ hx header_mem
    · rw [htl] at hx
      exact hout _ hx tail_mem
    · rcases hfrom x hmem with hps | hge
      · exact hout x hx (mem_chainOf hps)
      · have hlt' := hss.bound x hx
        omega
  have hss₁ : Chain m₁ (x₀ :: ss) := hframe₁.chain hss hout
  have hss₂ : Chain m₂ (x₀ :: ss) := hframe₂.chain hss₁ hout₁
  have hsegss : segs m₂ (x₀ :: ss) = segs m (x₀ :: ss) := by
    rw [segs, hseg₂]
    exact hframe₁.map_seg hss.bound hout
  obtain ⟨⟨zl, hleft⟩, ⟨zr, hright⟩⟩ := hedges₂
  have hzs : m₂.chainOf (ps₁ ++ ps₂) = zl ++ A :: B' :: zr := by
    have hz : m₂.chainOf (ps₁ ++ ([] ++ ps₂)) = _ := chainOf_edges hleft hright
    simpa using hz
  have hc₂ := hrepr₂.chain
  rw [hzs] at hc₂
  -- The gap was made of old nodes and of halves that the cut has made, and of no new cell.
  have hout₂ : ∀ x ∈ x₀ :: ss, x ∉ zl ++ A :: B' :: zr := by
    intro x hx hmem
    rw [← hzs] at hmem
    refine hout₁ x hx ?_
    obtain ⟨hhd, htl⟩ := Prod.mk.inj hframe₂.ends
    rcases mem_of_mem_chainOf hmem with rfl | rfl | hmem
    · rw [hhd]
      exact header_mem
    · rw [htl]
      exact tail_mem
    · refine mem_chainOf ?_
      simp only [List.mem_append] at hmem ⊢
      tauto
  -- the links of the new list
  have hnd : (zl ++ A :: ((x₀ :: ss) ++ B' :: zr)).Nodup := by
    have hperm : List.Perm ((x₀ :: ss) ++ (zl ++ A :: B' :: zr))
        (zl ++ A :: ((x₀ :: ss) ++ B' :: zr)) := by
      have hcomm : List.Perm ((x₀ :: ss) ++ (zl ++ [A])) ((zl ++ [A]) ++ (x₀ :: ss)) :=
        List.perm_append_comm
      have happ := hcomm.append_right (B' :: zr)
      simpa using happ
    refine hperm.nodup_iff.1 (List.nodup_append.2 ⟨hss₂.nodup, hc₂.nodup, ?_⟩)
    rintro x hx y hy rfl
    exact hout₂ x hx hy
  have hl : Linked m₂.next m₂.prev none (zl ++ [A]) ((B' :: zr).head?.or none) :=
    (linked_append.1 (show Linked m₂.next m₂.prev none ((zl ++ [A]) ++ B' :: zr) none by
      simpa using hc₂.linked)).1
  have hr : Linked m₂.next m₂.prev (some A) (B' :: zr) none :=
    (linked_append.1 hc₂.linked).2.2.2
  have hA : A ∉ B' :: zr :=
    (List.nodup_cons.1 (List.nodup_append.1 hc₂.nodup).2.1).1
  have hx₀ : x₀ ∉ B' :: zr := fun hmem => hout₂ x₀ (by simp) (by
    simp only [List.mem_append, List.mem_cons] at hmem ⊢
    tauto)
  -- First the left edge is linked to the first new cell, then the last one to the right edge.
  have hjoin₁ := hl.join hss₂.linked (by
    refine hnd.sublist (List.Sublist.append_left (List.Sublist.cons_cons A ?_) zl)
    exact List.sublist_append_left _ _)
  have hr₁ := (hr.set_next_of_notMem (v := some x₀) hA).set_prev_of_notMem (v := some A) hx₀
  have hcat : zl ++ A :: x₀ :: ss = (zl ++ A :: ss₀) ++ [t] := by
    rw [hss₀]
    simp
  have hcat' : zl ++ A :: ((x₀ :: ss) ++ B' :: zr) = (zl ++ A :: ss₀) ++ t :: B' :: zr := by
    rw [hss₀]
    simp
  rw [hcat] at hjoin₁
  have hjoin := hjoin₁.join hr₁ (by rw [← hcat']; exact hnd)
  rw [← hcat'] at hjoin
  -- the heap with the links set, before the cells are indexed
  let m₃ := (((m₂.setNext A (some x₀)).setPrev x₀ (some A)).setPrev B' (some t)).setNext t (some B')
  have hnext₃ : m₃.next = Function.update (Function.update m₂.next A (some x₀)) t (some B') := by
    simp [m₃]
  have hprev₃ : m₃.prev = Function.update (Function.update m₂.prev x₀ (some A)) B' (some t) := by
    simp [m₃]
  have hseg₃ : m₃.seg = m₂.seg := by simp [m₃]
  rw [← hnext₃, ← hprev₃] at hjoin
  have hcanon : ∀ x ∈ x₀ :: ss, Canonical (m₂.seg x).addr (m₂.seg x).stop := by
    intro x hx
    have hin := hwithin (m.seg x) (List.mem_map_of_mem hx)
    rw [hseg₂, hframe₁.seg x (hss.bound x hx) (hout x hx)]
    exact hc.mono hin.1 hin.2
  -- Last the new cells are entered in the index, each under its own key.
  obtain ⟨m₄, hidx, hnext₄, hprev₄, hseg₄, hptr₄, hends₄, hkeyed, hother⟩ :=
    indexUntil_spec ss (m := m₃) (t := t) (linked_append.1 (linked_cons.1
      (linked_append.1 hjoin).2).2.2).1 hss₂.nodup ht
      (by
        rw [hseg₃]
        exact keys_distinct (by rw [hsegss]; exact hsort) hcanon)
      (show ss.length < m₃.nextPtr + 1 by
        have hsub : x₀ :: ss ⊆ List.range m₂.nextPtr := fun z hz =>
          List.mem_range.2 (hss₂.bound z hz)
        have hle := (List.Nodup.subperm hss₂.nodup hsub).length_le
        have hptr : m₃.nextPtr = m₂.nextPtr := by simp [m₃]
        simp at hle
        omega)
  have hsegs₂ : segs m₂ (ps₁ ++ ((x₀ :: ss) ++ ps₂))
      = splice cutExpr (start (segs m (x₀ :: ss))) (finish (segs m (x₀ :: ss)))
        (segs m (x₀ :: ss)) (segs m ps) := by
    rw [splice, ← hbelow, ← habove, ← hsegss]
    simp only [segs, List.map_append, hseg₂]
  refine ⟨m₄, ps₁ ++ ((x₀ :: ss) ++ ps₂), ?_, ?_, ?_⟩
  · rw [merge, hlast]
    simp only [Option.bind_eq_bind, Option.bind_some]
    rw [← hstart, ← hfinish, hfind]
    simp only [Option.bind_some, hcut, hrem]
    exact hidx
  · apply hrepr₂.insertCells
    · rw [hends₄]
      simp [m₃]
    · rw [hseg₄, hseg₃]
    · have hzs' : m₂.chainOf (ps₁ ++ ((x₀ :: ss) ++ ps₂)) = _ := chainOf_edges hleft hright
      rw [hzs']
      constructor
      · rw [hnext₄, hprev₄]
        exact hjoin
      · exact hnd
      · intro z hz
        have hptr : m₃.nextPtr = m₂.nextPtr := by simp [m₃]
        rw [hptr₄, hptr]
        simp only [List.mem_append, List.mem_cons] at hz
        by_cases hzss : z ∈ x₀ :: ss
        · exact hss₂.bound z hzss
        · refine hc₂.bound z ?_
          simp only [List.mem_append, List.mem_cons] at hzss ⊢
          tauto
    · rw [hsegs₂]
      exact h.sorted.splice cutExpr hsort (le_of_lt hlt) hwithin
    · exact hcanon
    · intro x hx
      have hk := hkeyed x hx
      rwa [hseg₃] at hk
    · intro k hk
      rw [hother k (by rw [hseg₃]; exact hk)]
      simp [m₃]
  · rw [segs, hseg₄, hseg₃]
    exact hsegs₂

end Repr

end KRover.SymbolListMap
