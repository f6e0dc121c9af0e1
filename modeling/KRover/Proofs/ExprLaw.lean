import KRover.Proofs.GetExprValue

/-! # Properties of expressions and the store

A property of an expression and its width that the ways of building expressions
preserve: a cell that is cut, a range that `GetExpr` puts together, and the
nodes that the handlers make. `ExprLaw` lists these ways, and what follows here
holds of every property that obeys it.

* `ExprLaw.splice` and `ExprLaw.window`: the cells after a write, and the cells
  that a read returns;
* `ExprLaw.exprOfCells`: the expression of a range.
-/

set_option autoImplicit false

namespace KRover

open Segments SymbolListMap

/-- What the ways of building expressions preserve. A shift builds its node like
the arithmetic and logic do; a comparison is no value. -/
structure ExprLaw (P : Expr → Nat → Prop) : Prop where
  lit : ∀ (v : BitVec 64) {n : Nat}, 0 < n → P (Expr.constExpr v n) n
  bin : ∀ {k : BinKind} {r l : Expr} {n : Nat}, k.isCompare = false → P r n → P l n →
    P (Expr.binExpr k r l) n
  neg : ∀ {e : Expr} {n : Nat}, P e n → P (Expr.uryExpr .neg e) n
  extract : ∀ {e : Expr} {n s t : Nat}, P e n → s < t → t ≤ n → P (Expr.extractExpr e s t) (t - s)
  combine : ∀ {n : Nat} {L : List (Segment Expr)}, Tiles 0 n L → 1 < L.length →
    (∀ x ∈ L, P x.val x.size) →
    P (Expr.combineMultiExpr (L.map (·.val)) (L.map (·.addr.toNat)) (L.map (·.size)) n) n

/-- The property holds of every cell, with the size of the cell. -/
def CellsOk (P : Expr → Nat → Prop) (L : List (Segment Expr)) : Prop :=
  ∀ x ∈ L, P x.val x.size

variable {P : Expr → Nat → Prop}

/-- No cells are fine. -/
theorem cellsOk_nil : CellsOk P [] := by
  intro x hx
  simp at hx

/-- One cell is, if its expression is. -/
theorem cellsOk_singleton {a : Int} {n : Nat} {e : Expr} (h : P e n) : CellsOk P [⟨a, n, e⟩] := by
  intro x hx
  rw [List.mem_singleton.1 hx]
  exact h

/-- The place of the cells does not matter. -/
theorem CellsOk.shift {L : List (Segment Expr)} (h : CellsOk P L) (d : Int) :
    CellsOk P (L.map (Segment.shift d)) := by
  intro x hx
  obtain ⟨y, hy, rfl⟩ := List.mem_map.1 hx
  exact h y hy

namespace ExprLaw

variable {L src : List (Segment Expr)}

/-- A cut cell keeps the property. -/
theorem cut (hP : ExprLaw P) (x : Segment Expr) (hx : P x.val x.size) (s t : Nat) (hst : s < t)
    (ht : t ≤ x.size) : P (cutExpr x.val s t) (t - s) :=
  hP.extract hx hst ht

/-- The cells after a write. -/
theorem splice (hP : ExprLaw P) (hL : CellsOk P L) (hsrc : CellsOk P src) (hs te : Int) :
    CellsOk P (splice cutExpr hs te src L) :=
  forall_mem_splice cutExpr (fun x _ hx s t hst ht => hP.cut x hx s t hst ht) hL hsrc

/-- The cells that a read returns. -/
theorem window (hP : ExprLaw P) (hL : CellsOk P L) {hs te : Int} (hlt : hs < te) :
    CellsOk P (window cutExpr hs te L) :=
  forall_mem_window cutExpr hlt (fun x _ hx s t hst ht => hP.cut x hx s t hst ht) hL

/-- The expression that `GetExpr` puts together. A single piece is the single
cell, and it fills the range. -/
theorem exprOfCells (hP : ExprLaw P) {v : BitVec 64} {n : Nat} (hs : Sorted L)
    (hin : ∀ x ∈ L, 0 ≤ x.addr ∧ x.stop ≤ n) (hL : CellsOk P L) {e : Expr}
    (he : exprOfCells v n L = some e) : P e n := by
  have htiles := @exprPieces_tiles v n L 0 hs hin (Nat.zero_le _)
  have hpieces : CellsOk P (exprPieces v n L 0) := by
    intro y hy
    rcases eq_or_of_mem_exprPieces hs hin (Nat.zero_le _) hy with hmem | ⟨i, -, -, rfl⟩
    · exact hL y hmem
    · exact hP.lit _ Nat.one_pos
  rw [SymbolListMap.exprOfCells] at he
  split at he
  · rename_i hlen
    rw [← Option.some.inj he]
    exact hP.combine htiles hlen hpieces
  · rename_i hlen
    have hne : L ≠ [] := by
      rintro rfl
      simp at he
    obtain ⟨x, rfl, -, -, hsize⟩ := exists_singleton hs hin hne hlen
    have hxe : x.val = e := by simpa using he
    rw [← hxe, ← hsize]
    exact hL x (by simp)

end ExprLaw

/-- What every expression has. -/
theorem exprLaw_true : ExprLaw fun _ _ => True where
  lit := fun _ _ _ => trivial
  bin := fun _ _ _ => trivial
  neg := fun _ => trivial
  extract := fun _ _ _ => trivial
  combine := fun _ _ _ => trivial

end KRover
