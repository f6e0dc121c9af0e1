import KRover.Proofs.SymListSplit

/-! # Cutting a list at both edges of a range

`Split_Head_Tail` cuts the cells at the two edges that `GetAffectedCells`
found. On the live list and on copies of it the effect is the same: what lay
between the edges becomes the window of the range, and the two edge cells keep
what is below and above it.

`Frame` says what an operation on some cells leaves alone.
-/

set_option autoImplicit false

namespace KRover.SymbolListMap

open Segments DoublyLinked

/-- The value of a cut cell is an extraction. -/
abbrev cutExpr (e : Expr) (s t : Nat) : Expr := Expr.extractExpr e s t

/-- `m'` is `m` with changes to the cells `zs` and to new cells only. -/
structure Frame (m m' : SymbolListMap) (zs : List Nat) : Prop where
  ends : m'.ends = m.ends
  nextPtr : m.nextPtr ≤ m'.nextPtr
  next : ∀ x, x < m.nextPtr → x ∉ zs → m'.next x = m.next x
  prev : ∀ x, x < m.nextPtr → x ∉ zs → m'.prev x = m.prev x
  seg : ∀ x, x < m.nextPtr → x ∉ zs → m'.seg x = m.seg x

namespace Frame

/-- What does nothing leaves everything. -/
theorem refl (m : SymbolListMap) (zs : List Nat) : Frame m m zs :=
  ⟨rfl, Nat.le_refl _, fun _ _ _ => rfl, fun _ _ _ => rfl, fun _ _ _ => rfl⟩

/-- Two steps leave what is outside of both. A node that the first has made may be changed
by the second. -/
theorem trans {m m₁ m₂ : SymbolListMap} {zs zs₁ : List Nat} (h : Frame m m₁ zs)
    (h₁ : Frame m₁ m₂ zs₁) (hzs : ∀ x ∈ zs₁, x ∈ zs ∨ m.nextPtr ≤ x) : Frame m m₂ zs := by
  have hout : ∀ x, x < m.nextPtr → x ∉ zs → x ∉ zs₁ := by
    intro x hx hxz hmem
    rcases hzs x hmem with h | h
    · exact hxz h
    · omega
  have hlt : ∀ x, x < m.nextPtr → x < m₁.nextPtr := fun x hx => Nat.lt_of_lt_of_le hx h.nextPtr
  constructor
  · rw [h₁.ends, h.ends]
  · exact Nat.le_trans h.nextPtr h₁.nextPtr
  · intro x hx hxz
    rw [h₁.next x (hlt x hx) (hout x hx hxz), h.next x hx hxz]
  · intro x hx hxz
    rw [h₁.prev x (hlt x hx) (hout x hx hxz), h.prev x hx hxz]
  · intro x hx hxz
    rw [h₁.seg x (hlt x hx) (hout x hx hxz), h.seg x hx hxz]

/-- A step may be said to change more than it does. -/
theorem mono {m m' : SymbolListMap} {zs ws : List Nat} (h : Frame m m' zs)
    (hsub : ∀ x ∈ zs, x ∈ ws) : Frame m m' ws :=
  ⟨h.ends, h.nextPtr, fun x hx hxw => h.next x hx fun hz => hxw (hsub x hz),
    fun x hx hxw => h.prev x hx fun hz => hxw (hsub x hz),
    fun x hx hxw => h.seg x hx fun hz => hxw (hsub x hz)⟩

/-- A list that an operation leaves alone stays a list. -/
theorem chain {m m' : SymbolListMap} {zs ws : List Nat} (h : Frame m m' zs)
    (hws : Chain m ws) (hout : ∀ x ∈ ws, x ∉ zs) : Chain m' ws where
  linked := hws.linked.congr (fun x hx => h.next x (hws.bound x hx) (hout x hx))
    (fun x hx => h.prev x (hws.bound x hx) (hout x hx))
  nodup := hws.nodup
  bound := fun x hx => Nat.lt_of_lt_of_le (hws.bound x hx) h.nextPtr

/-- Old nodes outside of the changed ones have their segments. -/
theorem map_seg {m m' : SymbolListMap} {zs ws : List Nat} (h : Frame m m' zs)
    (hlt : ∀ x ∈ ws, x < m.nextPtr) (hout : ∀ x ∈ ws, x ∉ zs) :
    ws.map m'.seg = ws.map m.seg :=
  List.map_congr_left fun x hx => h.seg x (hlt x hx) (hout x hx)

end Frame

section

variable {m : SymbolListMap} {A B : Nat} {l r mid : List Nat} {hs te : Int} {read : Bool}

/-- The successor of a cell of a list is a cell of the list. -/
theorem Chain.next_mem (h : Chain m (l ++ A :: r)) {y : Nat} (hy : some y = m.next A) :
    y ∈ l ++ A :: r := by
  have hr := (linked_append.1 h.linked).2.2.1
  rw [Option.or_none, ← hy] at hr
  simp [List.mem_of_head? hr.symm]

/-- The node to the left of one on the chain is on it too. -/
theorem Chain.prev_mem (h : Chain m (l ++ A :: r)) {y : Nat} (hy : some y = m.prev A) :
    y ∈ l ++ A :: r := by
  have hr := (linked_append.1 h.linked).2.1
  rw [Option.or_none, ← hy] at hr
  simp [List.mem_of_getLast? hr.symm]

/-- The cut at the head changes nodes of the chain only. -/
theorem Chain.frame_seplitCellHead (h : Chain m (l ++ A :: r)) :
    Frame m (m.seplitCellHead A hs read) (l ++ A :: r) := by
  have hA := h.lt_of_middle
  have hne : ∀ x, x ∉ l ++ A :: r → x ≠ A := fun x hx heq => hx (by simp [heq])
  constructor
  · exact ends_seplitCellHead
  · rw [nextPtr_seplitCellHead]
    omega
  · intro x hx hxz
    simp [next_seplitCellHead hA, hne x hxz, Nat.ne_of_lt hx]
  · intro x hx hxz
    have hnext : some x ≠ m.next A := fun heq => hxz (h.next_mem heq)
    simp [prev_seplitCellHead hA, hnext, Nat.ne_of_lt hx]
  · intro x hx hxz
    simp [seg_seplitCellHead hA, hne x hxz, Nat.ne_of_lt hx]

/-- So does the cut at the end. -/
theorem Chain.frame_seplitCellTail (h : Chain m (l ++ B :: r)) :
    Frame m (m.seplitCellTail B te read) (l ++ B :: r) := by
  have hB := h.lt_of_middle
  have hne : ∀ x, x ∉ l ++ B :: r → x ≠ B := fun x hx heq => hx (by simp [heq])
  constructor
  · exact ends_seplitCellTail
  · rw [nextPtr_seplitCellTail]
    omega
  · intro x hx hxz
    have hprev : some x ≠ m.prev B := fun heq => hxz (h.prev_mem heq)
    simp [next_seplitCellTail hB, hprev, Nat.ne_of_lt hx]
  · intro x hx hxz
    simp [prev_seplitCellTail hB, hne x hxz, Nat.ne_of_lt hx]
  · intro x hx hxz
    simp [seg_seplitCellTail hB, hne x hxz, Nat.ne_of_lt hx]

/-- So does the cut at both. -/
theorem Chain.frame_splitCell3 (h : Chain m (l ++ A :: r)) :
    Frame m (m.splitCell3 A hs te read).1 (l ++ A :: r) := by
  have hA := h.lt_of_middle
  have hne : ∀ x, x ∉ l ++ A :: r → x ≠ A := fun x hx heq => hx (by simp [heq])
  constructor
  · exact ends_splitCell3
  · rw [nextPtr_splitCell3]
    omega
  · intro x hx hxz
    have hx1 : x ≠ m.nextPtr + 1 := by omega
    simp [next_splitCell3 hA, hne x hxz, Nat.ne_of_lt hx, hx1]
  · intro x hx hxz
    have hx1 : x ≠ m.nextPtr + 1 := by omega
    have hnext : some x ≠ m.next A := fun heq => hxz (h.next_mem heq)
    simp [prev_splitCell3 hA, hnext, Nat.ne_of_lt hx, hx1]
  · intro x hx hxz
    have hx1 : x ≠ m.nextPtr + 1 := by omega
    simp [seg_splitCell3 hA, hne x hxz, Nat.ne_of_lt hx, hx1]

/-! ## The parts of a cut cell, as pieces of the range -/

/-- Of a segment across the start of a range the low part is below it. -/
theorem belowOne_eq_lowPart {x : Segment Expr} (h1 : x.addr < hs) (h2 : hs < x.stop) :
    belowOne cutExpr hs x = [lowPart x hs] := by
  rw [belowOne, if_neg (by omega), if_pos h1, cutExpr, Int.toNat_of_nonneg (by omega)]
  rfl

/-- Of one across the end the high part is above it. -/
theorem aboveOne_eq_highPart {x : Segment Expr} (h1 : x.addr < te) (h2 : te < x.stop) :
    aboveOne cutExpr te x = [highPart x te] := by
  rw [aboveOne, if_neg (by omega), if_pos h2, cutExpr, Int.toNat_of_nonneg (by omega)]
  rfl

/-- A cell that reaches over the lower edge only. -/
theorem windowOne_eq_highPart {x : Segment Expr} (h1 : x.addr < hs) (h2 : hs < x.stop)
    (h3 : x.stop ≤ te) : windowOne cutExpr hs te x = [highPart x hs] := by
  have hstop : x.stop = x.addr + x.size := rfl
  have hmax : max hs x.addr = hs := max_eq_left (by omega)
  have hmin : min te x.stop = x.stop := min_eq_right h3
  have hsize : (x.stop - x.addr).toNat = x.size := by omega
  rw [windowOne, if_neg (by omega), if_neg (by omega)]
  simp only [hmax, hmin, hsize, cutExpr, Int.toNat_of_nonneg (show 0 ≤ hs - x.addr by omega)]
  rfl

/-- A cell that reaches over the upper edge only. -/
theorem windowOne_eq_lowPart {x : Segment Expr} (h1 : hs ≤ x.addr) (h2 : x.addr < te)
    (h3 : te < x.stop) (hst : hs < te) : windowOne cutExpr hs te x = [lowPart x te] := by
  have hmax : max hs x.addr = x.addr := max_eq_right h1
  have hmin : min te x.stop = te := min_eq_left (by omega)
  rw [windowOne, if_neg (by omega), if_neg (by omega)]
  simp only [hmax, hmin, sub_self, Int.toNat_zero, cutExpr,
    Int.toNat_of_nonneg (show 0 ≤ te - x.addr by omega)]
  rfl

/-- A cell that reaches over both edges. -/
theorem windowOne_eq_midPart {x : Segment Expr} (h1 : x.addr < hs) (h2 : te < x.stop)
    (hst : hs < te) : windowOne cutExpr hs te x = [midPart x hs te] := by
  have hmax : max hs x.addr = hs := max_eq_left (by omega)
  have hmin : min te x.stop = te := min_eq_left (by omega)
  rw [windowOne, if_neg (by omega), if_neg (by omega)]
  simp only [hmax, hmin, cutExpr, Int.toNat_of_nonneg (show 0 ≤ hs - x.addr by omega),
    Int.toNat_of_nonneg (show 0 ≤ te - x.addr by omega)]
  rfl

end

/-! ## `Split_Head_Tail` on two different cells -/

/-- What `Split_Head_Tail` does between two different edge cells. `Inv` is
any invariant of the list that the two partial splits keep: that it is a list,
for copies, or the whole invariant of the store, for the live list. -/
theorem splitHeadTail_between (read : Bool) {hs te : Int} (hst : hs < te)
    (Inv : SymbolListMap → List Nat → Prop)
    (hchain : ∀ m zs, Inv m zs → Chain m zs)
    (hhead : ∀ m l A r, Inv m (l ++ A :: r) → (m.seg A).addr < hs → hs < (m.seg A).stop →
      Inv (m.seplitCellHead A hs read) (l ++ A :: m.nextPtr :: r))
    (htail : ∀ m l B r, Inv m (l ++ B :: r) → (m.seg B).addr < te → te < (m.seg B).stop →
      Inv (m.seplitCellTail B te read) (l ++ m.nextPtr :: B :: r))
    {m : SymbolListMap} {l mid r : List Nat} {A B : Nat}
    (h : Inv m (l ++ A :: (mid ++ B :: r)))
    (hA : (m.seg A).addr < hs) (hA' : (m.seg A).stop ≤ te)
    (hB : hs ≤ (m.seg B).addr) (hB' : te < (m.seg B).stop) :
    ∃ m' mid', m.splitHeadTail A B hs te read = (m', B) ∧
      Inv m' (l ++ A :: (mid' ++ B :: r)) ∧
      Frame m m' (l ++ A :: (mid ++ B :: r)) ∧
      (∀ x ∈ mid', x ∈ mid ∨ m.nextPtr ≤ x) ∧
      (∀ x, x < m.nextPtr → x ≠ A → x ≠ B → m'.seg x = m.seg x) ∧
      [m'.seg A] = belowOne cutExpr hs (m.seg A) ∧
      [m'.seg B] = aboveOne cutExpr te (m.seg B) ∧
      mid'.map m'.seg = windowOne cutExpr hs te (m.seg A) ++
        (mid.map m.seg ++ windowOne cutExpr hs te (m.seg B)) := by
  have hc := hchain _ _ h
  have hnd := (List.nodup_append.1 hc.nodup).2.1
  have hAB : A ≠ B := by
    rintro rfl
    exact (List.nodup_cons.1 hnd).1 (by simp)
  have hAlt : A < m.nextPtr := hc.bound A (by simp)
  have hBlt : B < m.nextPtr := hc.bound B (by simp)
  -- the cut at the lower edge
  obtain ⟨m₁, mid₁, hm₁, hinv₁, hframe₁, hold₁, hsegA, hmid₁, hfrom₁⟩ : ∃ m₁ mid₁,
      (if (m.seg A).stop > hs then m.seplitCellHead A hs read else m) = m₁ ∧
      Inv m₁ (l ++ A :: (mid₁ ++ B :: r)) ∧
      Frame m m₁ (l ++ A :: (mid ++ B :: r)) ∧
      (∀ x, x < m.nextPtr → x ≠ A → m₁.seg x = m.seg x) ∧
      [m₁.seg A] = belowOne cutExpr hs (m.seg A) ∧
      mid₁.map m₁.seg = windowOne cutExpr hs te (m.seg A) ++ mid.map m.seg ∧
      (∀ x ∈ mid₁, x ∈ mid ∨ m.nextPtr ≤ x) := by
    by_cases hcut : (m.seg A).stop > hs
    · refine ⟨m.seplitCellHead A hs read, m.nextPtr :: mid, if_pos hcut, ?_, ?_, ?_, ?_, ?_, ?_⟩
      · exact hhead m l A (mid ++ B :: r) h hA hcut
      · exact hc.frame_seplitCellHead
      · intro x hx hxA
        simp [seg_seplitCellHead hAlt, hxA, Nat.ne_of_lt hx]
      · rw [belowOne_eq_lowPart hA hcut]
        simp [seg_seplitCellHead hAlt]
      · rw [windowOne_eq_highPart hA hcut hA']
        have hmem : ∀ x ∈ mid, x ≠ A ∧ x ≠ m.nextPtr := by
          intro x hx
          have hlt := hc.bound x (by simp [hx])
          refine ⟨?_, by omega⟩
          rintro rfl
          exact (List.nodup_cons.1 hnd).1 (by simp [hx])
        have hmap : mid.map (m.seplitCellHead A hs read).seg = mid.map m.seg :=
          List.map_congr_left fun x hx => by
            simp [seg_seplitCellHead hAlt, (hmem x hx).1, (hmem x hx).2]
        rw [List.map_cons, hmap]
        simp [seg_seplitCellHead hAlt, (Nat.ne_of_lt hAlt).symm]
      · intro x hx
        rcases List.mem_cons.1 hx with rfl | hx
        · exact Or.inr (Nat.le_refl _)
        · exact Or.inl hx
    · refine ⟨m, mid, if_neg hcut, h, Frame.refl m _, fun _ _ _ => rfl, ?_, ?_, fun _ => Or.inl⟩
      · rw [belowOne, if_pos (by omega)]
      · rw [windowOne, if_pos (Or.inl (by omega)), List.nil_append]
  -- the cut at the upper edge
  have hsegB : m₁.seg B = m.seg B := hold₁ B hBlt hAB.symm
  have hc₁ := hchain _ _ hinv₁
  have hB₁ : B < m₁.nextPtr := hc₁.bound B (by simp)
  have happ : ∀ xs : List Nat, l ++ A :: (xs ++ B :: r) = (l ++ A :: xs) ++ B :: r := by simp
  have heq : m.splitHeadTail A B hs te read
      = (if (m₁.seg B).addr < te then m₁.seplitCellTail B te read else m₁, B) := by
    rw [splitHeadTail, if_neg hAB, hm₁]
  rw [heq]
  by_cases hcut : (m₁.seg B).addr < te
  · rw [if_pos hcut]
    rw [happ] at hinv₁ hc₁
    have hinv₂ := htail m₁ _ B r hinv₁ hcut (by rw [hsegB]; exact hB')
    have hnew : ∀ x, x < m.nextPtr → x ≠ m₁.nextPtr := by
      intro x hx
      have hle := hframe₁.nextPtr
      omega
    have hA₁ : A ≠ m₁.nextPtr := hnew A hAlt
    refine ⟨m₁.seplitCellTail B te read, mid₁ ++ [m₁.nextPtr], rfl, ?_, ?_, ?_, ?_, ?_, ?_, ?_⟩
    · simpa using hinv₂
    · refine hframe₁.trans hc₁.frame_seplitCellTail ?_
      intro x hx
      simp only [List.mem_append, List.mem_cons] at hx ⊢
      rcases hx with (hx | hx | hx) | hx | hx
      · simp [hx]
      · simp [hx]
      · rcases hfrom₁ x hx with hx | hx <;> simp [hx]
      · simp [hx]
      · simp [hx]
    · intro x hx
      rcases List.mem_append.1 hx with hx | hx
      · exact hfrom₁ x hx
      · rw [List.mem_singleton.1 hx]
        exact Or.inr hframe₁.nextPtr
    · intro x hx hxA hxB
      simp [seg_seplitCellTail hB₁, hxB, hnew x hx, hold₁ x hx hxA]
    · rw [← hsegA]
      simp [seg_seplitCellTail hB₁, hAB, hA₁]
    · rw [← hsegB, aboveOne_eq_highPart hcut (by rw [hsegB]; exact hB')]
      simp [seg_seplitCellTail hB₁]
    · have hmem : ∀ x ∈ mid₁, x ≠ B ∧ x ≠ m₁.nextPtr := by
        intro x hx
        have hlt := hc₁.bound x (by simp [hx])
        refine ⟨?_, by omega⟩
        rintro rfl
        have hnd₁ := (List.nodup_append.1 hc₁.nodup).2.2
        exact hnd₁ x (by simp [hx]) x (by simp) rfl
      have hmap : mid₁.map (m₁.seplitCellTail B te read).seg = mid₁.map m₁.seg :=
        List.map_congr_left fun x hx => by
          simp [seg_seplitCellTail hB₁, (hmem x hx).1, (hmem x hx).2]
      rw [List.map_append, hmap, hmid₁, ← hsegB,
        windowOne_eq_lowPart (by rw [hsegB]; exact hB) hcut (by rw [hsegB]; exact hB') hst]
      simp [seg_seplitCellTail hB₁, (Nat.ne_of_lt hB₁).symm]
  · rw [if_neg hcut]
    refine ⟨m₁, mid₁, rfl, hinv₁, hframe₁, hfrom₁, fun x hx hxA _ => hold₁ x hx hxA, hsegA,
      ?_, ?_⟩
    · rw [hsegB, aboveOne, if_pos (by rw [← hsegB]; omega)]
    · have hnone : windowOne cutExpr hs te (m.seg B) = [] :=
        if_pos (Or.inr (by rw [← hsegB]; omega))
      rw [hmid₁, hnone, List.append_nil]

end KRover.SymbolListMap
