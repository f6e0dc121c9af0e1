import KRover.Proofs.ExprLaw

/-! # Widths of expressions

An expression has a width when it translates to a bit-vector term of so many
bytes. The ways the engine builds expressions keep widths, so every expression
built of parts with widths that fit translates.

* `exprLaw_hasWidth`: the translation is defined on what is built of
  expressions it is defined on, operands of one width given;
* `exprLaw_sized`: the size recorded in a node, the widths listed in the
  combinations below it and the operands of the operations below it fit as
  well.
-/

set_option autoImplicit false

namespace KRover

open Segments BvTerm SymbolListMap

/-- The term is a bit-vector of `n` bytes. -/
def TermWidth (t : SomeTerm) (n : Nat) : Prop := t.1 = .bv (8 * n)

/-- The expression translates to a bit-vector of `n` bytes. -/
def HasWidth (e : Expr) (n : Nat) : Prop :=
  0 < n ∧ ∃ t, z3HandlingExprPtr e = .ok t ∧ TermWidth t n

/-- A term of `n` bytes is a bit vector of `8 * n` bits. -/
theorem TermWidth.exists_eq {t : SomeTerm} {n : Nat} (h : TermWidth t n) :
    ∃ x : Term (.bv (8 * n)), t = ⟨.bv (8 * n), x⟩ := by
  obtain ⟨ty, x⟩ := t
  obtain rfl : ty = .bv (8 * n) := h
  exact ⟨x, rfl⟩

/-! ## The ways of building expressions -/

/-- A literal has the width it was made with. -/
theorem hasWidth_constExpr (v : BitVec 64) {n : Nat} (hn : 0 < n) :
    HasWidth (Expr.constExpr v n) n := by
  refine ⟨hn, ⟨.bv (n * 8), .lit (BitVec.ofNat (n * 8) v.toNat)⟩, ?_, ?_⟩
  · rw [Expr.constExpr, z3HandlingExprPtr, z3HandleConst, SomeTerm.lit, if_neg (by omega)]
    rfl
  · show Ty.bv (n * 8) = Ty.bv (8 * n)
    rw [Nat.mul_comm]

/-- A declared object has the width it was declared with, whatever the node
records. -/
theorem hasWidth_udef {obj : SYMemObject} (hn : 0 < obj.size) (size : Nat) :
    HasWidth (.udef (some obj) size) obj.size := by
  refine ⟨hn, ⟨.bv (obj.size * 8), .const obj.name (obj.size * 8)⟩, ?_, ?_⟩
  · rw [z3HandlingExprPtr, z3HandleUND, SomeTerm.const, if_neg (by omega)]
    rfl
  · show Ty.bv (obj.size * 8) = Ty.bv (8 * obj.size)
    rw [Nat.mul_comm]

/-- The operations that are no comparisons take two bit-vectors of one width to
a third. -/
theorem z3HandleBinKind_width {k : BinKind} (hk : k.isCompare = false) {w : Nat}
    (x y : Term (.bv w)) :
    ∃ z : Term (.bv w), z3HandleBinKind k ⟨.bv w, x⟩ ⟨.bv w, y⟩ = .ok ⟨.bv w, z⟩ := by
  have hbin : ∀ op : BinOp,
      z3Call (SomeTerm.bin op ⟨.bv w, x⟩ ⟨.bv w, y⟩) = .ok ⟨.bv w, .bin op x y⟩ := by
    intro op
    rw [SomeTerm.bin, dif_pos rfl]
    rfl
  cases k with
  | add => exact ⟨_, hbin .add⟩
  | sub => exact ⟨_, hbin .sub⟩
  | mul => exact ⟨_, hbin .mul⟩
  | uDiv => exact ⟨_, hbin .udiv⟩
  | sDiv => exact ⟨_, hbin .sdiv⟩
  | sRem => exact ⟨_, hbin .srem⟩
  | and => exact ⟨_, hbin .and⟩
  | or => exact ⟨_, hbin .or⟩
  | xor => exact ⟨_, hbin .xor⟩
  | shl => exact ⟨_, hbin .shl⟩
  | lShr => exact ⟨_, hbin .lshr⟩
  | aShr => exact ⟨_, hbin .ashr⟩
  | ult | ule | ugt | uge | slt | sle | sgt | sge => exact absurd hk (by decide)

/-- A binary node has the width of its operands, which must be one. -/
theorem hasWidth_bin {k : BinKind} (hk : k.isCompare = false) {r l : Expr} {n : Nat}
    (hr : HasWidth r n) (hl : HasWidth l n) (size : Nat) : HasWidth (.bin k r l size) n := by
  obtain ⟨hn, t, ht, htw⟩ := hr
  obtain ⟨-, u, hu, huw⟩ := hl
  obtain ⟨x, rfl⟩ := htw.exists_eq
  obtain ⟨y, rfl⟩ := huw.exists_eq
  obtain ⟨z, hz⟩ := z3HandleBinKind_width hk x y
  refine ⟨hn, ⟨.bv (8 * n), z⟩, ?_, rfl⟩
  rw [z3HandlingExprPtr, ht, hu]
  exact hz

/-- A negation has the width of its operand. -/
theorem hasWidth_neg {e : Expr} {n : Nat} (he : HasWidth e n) (size : Nat) :
    HasWidth (.ury .neg e size) n := by
  obtain ⟨hn, t, ht, htw⟩ := he
  obtain ⟨x, rfl⟩ := htw.exists_eq
  refine ⟨hn, ⟨.bv (8 * n), .un .neg x⟩, ?_, rfl⟩
  rw [z3HandlingExprPtr, ht]
  rfl

/-- An extract has the width of its range. -/
theorem hasWidth_extract {e : Expr} {n s t : Nat} (he : HasWidth e n) (hst : s < t)
    (ht : t ≤ n) (size : Nat) : HasWidth (.extract e s t size) (t - s) := by
  obtain ⟨hn, u, hu, huw⟩ := he
  obtain ⟨x, rfl⟩ := huw.exists_eq
  have hbits : s * 8 ≤ t * 8 - 1 ∧ t * 8 - 1 < 8 * n := by omega
  have hhigh : ((t : Int) * 8 - 1).toNat = t * 8 - 1 := by omega
  have hlow : ((s : Int) * 8).toNat = s * 8 := by omega
  have hneg : 0 ≤ (s : Int) ∧ 0 ≤ (t : Int) * 8 - 1 := by omega
  refine ⟨by omega, ⟨.bv (t * 8 - 1 - s * 8 + 1), .extract (t * 8 - 1) (s * 8) x⟩, ?_, ?_⟩
  · simp only [z3HandlingExprPtr, hu, bind, Except.bind]
    rw [z3HandleExtract, if_pos hneg, hhigh, hlow, SomeTerm.extract, if_pos hbits]
    rfl
  · show Ty.bv (t * 8 - 1 - s * 8 + 1) = Ty.bv (8 * (t - s))
    congr 1
    omega

/-- Concatenation adds the widths up. -/
theorem z3ConcatAll_width {ts : List SomeTerm} {ns : List Nat}
    (h : List.Forall₂ TermWidth ts ns) {acc : SomeTerm} {n : Nat} (hacc : TermWidth acc n) :
    ∃ t, z3ConcatAll acc ts = .ok t ∧ TermWidth t (n + ns.sum) := by
  induction h generalizing acc n with
  | nil => exact ⟨acc, rfl, hacc⟩
  | cons hu _ ih =>
    rename_i u m us ms _
    obtain ⟨x, rfl⟩ := hacc.exists_eq
    obtain ⟨y, rfl⟩ := hu.exists_eq
    have hcat : TermWidth ⟨.bv (8 * n + 8 * m), .concat x y⟩ (n + m) := by
      show Ty.bv (8 * n + 8 * m) = Ty.bv (8 * (n + m))
      rw [Nat.mul_add]
    obtain ⟨t, ht, htw⟩ := ih hcat
    refine ⟨t, ht, ?_⟩
    rw [List.sum_cons, ← Nat.add_assoc]
    exact htw

/-- A list of sized expressions is translated to terms of these sizes. -/
theorem z3HandlingExprPtrs_width {es : List Expr} {ns : List Nat}
    (h : List.Forall₂ HasWidth es ns) :
    ∃ ts, z3HandlingExprPtrs es = .ok ts ∧ List.Forall₂ TermWidth ts ns := by
  induction h with
  | nil => exact ⟨[], rfl, .nil⟩
  | cons he _ ih =>
    obtain ⟨-, t, ht, htw⟩ := he
    obtain ⟨ts, hts, htsw⟩ := ih
    refine ⟨t :: ts, ?_, .cons htw htsw⟩
    rw [z3HandlingExprPtrs, ht, hts]
    rfl

/-- At least two pieces are combined to what their widths add up to. -/
theorem hasWidth_combineMulti {es : List Expr} {ns : List Nat} (h : List.Forall₂ HasWidth es ns)
    (hlen : 1 < es.length) (offsets sizes : List Nat) (size : Nat) :
    HasWidth (.combineMulti es offsets sizes size) ns.sum := by
  obtain ⟨ts, hts, htsw⟩ := z3HandlingExprPtrs_width h
  have hlen' : 1 < ts.length := by rw [htsw.length_eq, ← h.length_eq]; exact hlen
  match es, ns, ts, h, htsw, hlen' with
  | _ :: _, n :: _, t :: u :: us, .cons he _, .cons ht htail, _ =>
    obtain ⟨r, hr, hrw⟩ := z3ConcatAll_width htail ht
    have hn : 0 < n := he.1
    refine ⟨by rw [List.sum_cons]; omega, r, ?_, hrw⟩
    rw [z3HandlingExprPtr, hts]
    exact hr

/-- The sizes of tiles add up. -/
theorem sum_sizes_of_tiles {L : List (Segment Expr)} {n : Nat} (h : Tiles 0 n L) :
    (L.map (·.size)).sum = n := by
  have hlen : ((spell (fun _ _ => ()) L).length : Int) = n - 0 := h.length_spell
  have hsum : (spell (fun _ _ => ()) L).length = (L.map Segment.size).sum := length_spell _ L
  rw [hsum] at hlen
  have heq : (L.map Segment.size).sum = n := by omega
  exact heq

/-- Pieces with their widths, as two lists. -/
theorem CellsOk.forall₂ {P : Expr → Nat → Prop} {L : List (Segment Expr)} (h : CellsOk P L) :
    List.Forall₂ P (L.map (·.val)) (L.map (·.size)) :=
  List.forall₂_map_left_iff.2 (List.forall₂_map_right_iff.2 (List.forall₂_same.2 h))

/-- What is built of expressions with widths that fit has a width. -/
theorem exprLaw_hasWidth : ExprLaw HasWidth where
  lit v _ hn := hasWidth_constExpr v hn
  bin hk hr hl := hasWidth_bin hk hr hl _
  neg he := hasWidth_neg he _
  extract he hst ht := hasWidth_extract he hst ht _
  combine := by
    intro n L htiles hlen hL
    have hmulti := hasWidth_combineMulti (CellsOk.forall₂ hL) (by simpa using hlen)
      (L.map (·.addr.toNat)) (L.map (·.size)) n
    rw [sum_sizes_of_tiles htiles] at hmulti
    exact hmulti

/-! ## Sizes recorded in the nodes -/

mutual

/-- All nodes of an expression, the root included. -/
def Expr.nodes : Expr → List Expr
  | .null => [.null]
  | .udef obj size => [.udef obj size]
  | .const v size => [.const v size]
  | .bin k r l size => .bin k r l size :: (r.nodes ++ l.nodes)
  | .ury k e size => .ury k e size :: e.nodes
  | .shrd r m l size => .shrd r m l size :: (r.nodes ++ m.nodes ++ l.nodes)
  | .combine r l rsz lsz size => .combine r l rsz lsz size :: (r.nodes ++ l.nodes)
  | .extract e s t size => .extract e s t size :: e.nodes
  | .combineMulti es offsets sizes size => .combineMulti es offsets sizes size :: nodesAll es

/-- All nodes of a list of expressions. -/
def nodesAll : List Expr → List Expr
  | [] => []
  | e :: es => e.nodes ++ nodesAll es

end

/-- What a node says of the widths of its operands is so: the pieces of a
combination have the widths listed for them, and the operands of an arithmetic
or logic operation have one width. -/
def Expr.OperandsFit : Expr → Prop
  | .bin k r l _ => k.isCompare = false → ∃ n, HasWidth r n ∧ HasWidth l n
  | .combineMulti es _ sizes _ => List.Forall₂ HasWidth es sizes
  | _ => True

/-- The expression records its width, `n` bytes, and so do all nodes of the
widths of their operands. -/
structure Sized (e : Expr) (n : Nat) : Prop where
  recorded : e.getExprSize = n
  width : HasWidth e n
  nodes : ∀ d ∈ e.nodes, d.OperandsFit

/-- A node of several expressions is one of some of them. -/
theorem mem_nodesAll {es : List Expr} {d : Expr} (h : d ∈ nodesAll es) :
    ∃ e ∈ es, d ∈ e.nodes := by
  induction es with
  | nil => simp [nodesAll] at h
  | cons e es ih =>
    rw [nodesAll, List.mem_append] at h
    rcases h with h | h
    · exact ⟨e, by simp, h⟩
    · obtain ⟨e', he', hd⟩ := ih h
      exact ⟨e', by simp [he'], hd⟩

/-- The nodes of an operation fit when those of its operands do. -/
theorem operandsFit_bin {k : BinKind} {r l : Expr} {n : Nat} (hr : Sized r n) (hl : Sized l n)
    (size : Nat) : ∀ d ∈ (Expr.bin k r l size).nodes, d.OperandsFit := by
  intro d hd
  rw [Expr.nodes, List.mem_cons, List.mem_append] at hd
  rcases hd with rfl | hd | hd
  · intro _
    exact ⟨n, hr.width, hl.width⟩
  · exact hr.nodes d hd
  · exact hl.nodes d hd

/-- What is built of expressions that record their widths records its own. -/
theorem exprLaw_sized : ExprLaw Sized where
  lit v _ hn := by
    constructor
    · rfl
    · exact hasWidth_constExpr v hn
    · intro d hd
      rw [Expr.constExpr, Expr.nodes, List.mem_singleton] at hd
      rw [hd]
      exact trivial
  bin hk hr hl := ⟨hr.recorded, hasWidth_bin hk hr.width hl.width _, operandsFit_bin hr hl _⟩
  neg := by
    intro e n he
    refine ⟨he.recorded, hasWidth_neg he.width _, ?_⟩
    intro d hd
    rw [Expr.uryExpr, Expr.nodes, List.mem_cons] at hd
    rcases hd with rfl | hd
    · exact trivial
    · exact he.nodes d hd
  extract := by
    intro e n s t he hst ht
    refine ⟨?_, hasWidth_extract he.width hst ht _, ?_⟩
    · show ((t : Int) - s).toNat = t - s
      omega
    · intro d hd
      rw [Expr.extractExpr, Expr.nodes, List.mem_cons] at hd
      rcases hd with rfl | hd
      · exact trivial
      · exact he.nodes d hd
  combine := by
    intro n L htiles hlen hL
    have hwidths : CellsOk HasWidth L := fun x hx => (hL x hx).width
    refine ⟨rfl, exprLaw_hasWidth.combine htiles hlen hwidths, ?_⟩
    intro d hd
    rw [Expr.combineMultiExpr, Expr.nodes, List.mem_cons] at hd
    rcases hd with rfl | hd
    · exact CellsOk.forall₂ hwidths
    · obtain ⟨e, he, hd⟩ := mem_nodesAll hd
      obtain ⟨x, hx, rfl⟩ := List.mem_map.1 he
      exact (hL x hx).nodes d hd

end KRover
