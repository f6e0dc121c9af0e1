import KRover.Proofs.ExprLaw

/-! # What an expression stands for

`Expr.denote` reads an expression as the bytes of a value, low byte first,
under a valuation of the symbols. It is the meaning that the tree is built
with, before any translation: a combination places each piece at its offset,
and an operation takes the width of its operands, not the size that its node
records.

* `exprLaw_hasBytes`: what the engine builds of expressions that stand for
  bytes stands for bytes, if the operands of an operation have one width;
* `denote_exprOfCells`: the expression of a range stands for the bytes of its
  cells and, between them, for those of the concrete word.
-/

set_option autoImplicit false

namespace KRover

open Segments BvTerm Bytes SymbolListMap

/-! ## The meaning of expressions -/

/-- The operation of a two-operand class; a comparison is no value. -/
def BinKind.op : BinKind → Option BinOp
  | .add => some .add
  | .sub => some .sub
  | .mul => some .mul
  | .uDiv => some .udiv
  | .sDiv => some .sdiv
  | .sRem => some .srem
  | .and => some .and
  | .or => some .or
  | .xor => some .xor
  | .shl => some .shl
  | .lShr => some .lshr
  | .aShr => some .ashr
  | .ult | .ule | .ugt | .uge | .slt | .sle | .sgt | .sge => none

/-- A byte string as a bit-vector. -/
def bitsOf (x : List (BitVec 8)) (n : Nat) : BitVec (8 * n) := BitVec.ofNat (8 * n) (ofBytes x)

/-- An operation on two byte strings of one length. -/
def binBytes (op : BinOp) (x y : List (BitVec 8)) : List (BitVec 8) :=
  bytesOf (op.eval (bitsOf x x.length) (bitsOf y x.length)).toNat x.length

/-- An operation on one byte string. -/
def unBytes (op : UnOp) (x : List (BitVec 8)) : List (BitVec 8) :=
  bytesOf (op.eval (bitsOf x x.length)).toNat x.length

/-- The pieces of a combination, each at its offset with its size. -/
def placePieces {α : Type} : List Nat → List Nat → List α → List (Segment α)
  | o :: os, n :: ns, a :: as => ⟨o, n, a⟩ :: placePieces os ns as
  | _, _, _ => []

mutual

/-- The bytes that an expression stands for. Null pointers, conditions and
operands that do not fit stand for nothing; no handler builds a double
shift. -/
def Expr.denote (ρ : Valuation) : Expr → Option (List (BitVec 8))
  | .null | .udef none _ | .shrd _ _ _ _ => none
  | .udef (some obj) _ => some (bytesOf (ρ obj.name (obj.size * 8)).toNat obj.size)
  | .const v size => some (bytesOf v.toNat size)
  | .bin k r l _ => do
    let op ← k.op
    let x ← r.denote ρ
    let y ← l.denote ρ
    if x.length = y.length then some (binBytes op x y) else none
  | .ury k e size => do
    let x ← e.denote ρ
    match k with
    | .neg => some (unBytes .neg x)
    | .not => some (unBytes .not x)
    | .signExt => some (bytesOf ((bitsOf x x.length).signExtend (8 * size)).toNat size)
    | .zeroExt => some (bytesOf (ofBytes x) size)
    | .lNot | .equal | .distinct | .sign | .noSign | .overflow | .noOverflow => none
  | .combine r l _ _ _ => do
    let x ← r.denote ρ
    let y ← l.denote ρ
    return y ++ x
  | .extract e s t _ => do
    let x ← e.denote ρ
    if 0 ≤ s ∧ s ≤ t ∧ t ≤ x.length then some ((x.drop s.toNat).take (t - s).toNat) else none
  | .combineMulti es offsets sizes size => do
    let xs ← denoteAll ρ es
    let byte := lookup (fun (x : List (BitVec 8)) i => x.getD i 0) (placePieces offsets sizes xs)
    -- every byte lies under a piece
    if ∀ i : Nat, i < size → (byte i).isSome then
      some ((List.range size).map fun (i : Nat) => (byte i).getD 0)
    else none

/-- The pieces of a combination. -/
def denoteAll (ρ : Valuation) : List Expr → Option (List (List (BitVec 8)))
  | [] => some []
  | e :: es => do
    let x ← e.denote ρ
    let xs ← denoteAll ρ es
    return x :: xs

end

/-- Byte `i` of what an expression stands for. -/
def Expr.byte (ρ : Valuation) (e : Expr) (i : Nat) : BitVec 8 :=
  ((e.denote ρ).getD []).getD i 0

/-- The expression stands for `n` bytes, whatever the symbols are. -/
def HasBytes (e : Expr) (n : Nat) : Prop :=
  0 < n ∧ ∀ ρ, ∃ x, e.denote ρ = some x ∧ x.length = n

/-! ## Byte strings -/

/-- A list is its elements in order. -/
theorem eq_map_getD {x : List (BitVec 8)} {n : Nat} (h : x.length = n) :
    x = (List.range n).map fun i => x.getD i 0 := by
  refine List.ext_getElem? fun i => ?_
  by_cases hi : i < n
  · simp [hi, h]
  · rw [List.getElem?_eq_none (by omega), List.getElem?_eq_none (by simp; omega)]

/-- An expression stands for the bytes read off it. -/
theorem HasBytes.denote_eq {e : Expr} {n : Nat} (h : HasBytes e n) (ρ : Valuation) :
    e.denote ρ = some ((List.range n).map (e.byte ρ)) := by
  obtain ⟨x, hx, hlen⟩ := h.2 ρ
  rw [hx]
  refine congrArg some ((eq_map_getD hlen).trans ?_)
  refine List.map_congr_left fun i _ => ?_
  rw [Expr.byte, hx, Option.getD_some]

/-- A binary operation keeps the length of its first operand. -/
theorem length_binBytes (op : BinOp) (x y : List (BitVec 8)) :
    (binBytes op x y).length = x.length := length_bytesOf _ _

/-- A unary one keeps that of its operand. -/
theorem length_unBytes (op : UnOp) (x : List (BitVec 8)) :
    (unBytes op x).length = x.length := length_bytesOf _ _

/-! ## The ways of building expressions -/

variable {ρ : Valuation}

/-- A literal stands for the low bytes of its value. -/
theorem denote_constExpr (v : BitVec 64) (n : Nat) :
    (Expr.constExpr v n).denote ρ = some (bytesOf v.toNat n) := by
  rw [Expr.constExpr, Expr.denote]

/-- A binary node stands for the operation on the bytes of its operands. -/
theorem denote_binExpr {k : BinKind} {op : BinOp} (hk : k.op = some op) {r l : Expr}
    {x y : List (BitVec 8)} (hr : r.denote ρ = some x) (hl : l.denote ρ = some y)
    (hlen : x.length = y.length) : (Expr.binExpr k r l).denote ρ = some (binBytes op x y) := by
  rw [Expr.binExpr, Expr.denote, hk, hr, hl]
  simp only [Option.bind_eq_bind, Option.bind_some]
  rw [if_pos hlen]

/-- An extract stands for the bytes from `s` up to `t`. -/
theorem denote_extractExpr {e : Expr} {x : List (BitVec 8)} (he : e.denote ρ = some x) {s t : Nat}
    (hst : s ≤ t) (ht : t ≤ x.length) :
    (Expr.extractExpr e s t).denote ρ = some ((x.drop s).take (t - s)) := by
  have hrange : (0 : Int) ≤ s ∧ (s : Int) ≤ t ∧ (t : Int) ≤ x.length := by omega
  have hlen : ((t : Int) - s).toNat = t - s := by omega
  rw [Expr.extractExpr, Expr.denote, he]
  simp only [Option.bind_eq_bind, Option.bind_some]
  rw [if_pos hrange, Int.toNat_natCast, hlen]

/-- A byte of an extraction is a byte of what it extracts from. -/
theorem byte_extractExpr {e : Expr} {n s t i : Nat} (he : HasBytes e n) (ht : t ≤ n)
    (hi : i < t - s) : (Expr.extractExpr e s t).byte ρ i = e.byte ρ (s + i) := by
  obtain ⟨x, hx, hlen⟩ := he.2 ρ
  have hext := denote_extractExpr hx (show s ≤ t by omega) (hlen ▸ ht)
  rw [Expr.byte, hext, Expr.byte, hx, Option.getD_some, Option.getD_some]
  simp only [List.getD_eq_getElem?_getD, List.getElem?_take, List.getElem?_drop, if_pos hi]

/-- The cells of a store read as what they were cut from. -/
theorem cutLaw_byte {L : List (Segment Expr)} (hL : CellsOk HasBytes L) :
    CutLaw cutExpr (Expr.byte ρ) L := by
  intro x hx s t i ht hi
  exact byte_extractExpr (hL x hx) ht hi

/-- The meanings of pieces that all have one. -/
theorem denoteAll_eq {L : List (Segment Expr)} (hL : CellsOk HasBytes L) :
    denoteAll ρ (L.map (·.val)) = some (L.map fun x => (List.range x.size).map (x.val.byte ρ)) := by
  induction L with
  | nil => rfl
  | cons x xs ih =>
    have htail := ih fun y hy => hL y (by simp [hy])
    rw [List.map_cons, denoteAll, (hL x (by simp)).denote_eq ρ, htail]
    rfl

/-- Reading the placed pieces is reading the segments. -/
theorem lookup_placePieces {L : List (Segment Expr)} (h0 : ∀ x ∈ L, 0 ≤ x.addr) (b : Int) :
    lookup (fun (x : List (BitVec 8)) i => x.getD i 0)
        (placePieces (L.map (·.addr.toNat)) (L.map (·.size))
          (L.map fun x => (List.range x.size).map (x.val.byte ρ))) b
      = lookup (Expr.byte ρ) L b := by
  induction L with
  | nil => rfl
  | cons x xs ih =>
    have haddr : ((x.addr.toNat : Nat) : Int) = x.addr := Int.toNat_of_nonneg (h0 x (by simp))
    have hcov : (⟨(x.addr.toNat : Nat), x.size, (List.range x.size).map (x.val.byte ρ)⟩ :
        Segment (List (BitVec 8))).Covers b ↔ x.Covers b := by
      simp only [Segment.Covers, Segment.stop, haddr]
    simp only [List.map_cons, placePieces, lookup, hcov, ih fun y hy => h0 y (by simp [hy])]
    split
    · rename_i hx
      have hlt : (b - x.addr).toNat < x.size := by
        have h1 := hx.1
        have h2 := hx.2
        have hstop : x.stop = x.addr + x.size := rfl
        omega
      simp [haddr, hlt]
    · rfl

/-- A combination of pieces that tile its range reads as the pieces. -/
theorem denote_combineMultiExpr {L : List (Segment Expr)} {n : Nat} (htiles : Tiles 0 n L)
    (hL : CellsOk HasBytes L) :
    (Expr.combineMultiExpr (L.map (·.val)) (L.map (·.addr.toNat)) (L.map (·.size)) n).denote ρ
      = some ((List.range n).map fun (i : Nat) => (lookup (Expr.byte ρ) L i).getD 0) := by
  have h0 : ∀ x ∈ L, 0 ≤ x.addr := fun x hx => (htiles.inside x hx).1
  have hall : ∀ i : Nat, i < n → (lookup (Expr.byte ρ) L i).isSome = true := by
    intro i hi
    exact (lookup_isSome _ _ _).2 (htiles.covered (by omega) (by omega))
  rw [Expr.combineMultiExpr, Expr.denote, denoteAll_eq hL]
  simp only [Option.bind_eq_bind, Option.bind_some, lookup_placePieces h0]
  rw [if_pos hall]

/-- What is built of expressions that stand for bytes does so too. -/
theorem exprLaw_hasBytes : ExprLaw HasBytes where
  lit v n hn := ⟨hn, fun ρ => ⟨_, denote_constExpr v n, length_bytesOf _ _⟩⟩
  bin := by
    intro k r l n hk hr hl
    have hop : ∃ op, k.op = some op := by
      cases k with
      | ult | ule | ugt | uge | slt | sle | sgt | sge => exact absurd hk (by decide)
      | add | sub | mul | uDiv | sDiv | sRem | and | or | xor | shl | lShr | aShr =>
        exact ⟨_, rfl⟩
    obtain ⟨op, hop⟩ := hop
    refine ⟨hr.1, fun ρ => ?_⟩
    obtain ⟨x, hx, hxlen⟩ := hr.2 ρ
    obtain ⟨y, hy, hylen⟩ := hl.2 ρ
    exact ⟨_, denote_binExpr hop hx hy (hxlen.trans hylen.symm),
      (length_binBytes _ _ _).trans hxlen⟩
  neg := by
    intro e n he
    refine ⟨he.1, fun ρ => ?_⟩
    obtain ⟨x, hx, hlen⟩ := he.2 ρ
    refine ⟨unBytes .neg x, ?_, (length_unBytes _ _).trans hlen⟩
    rw [Expr.uryExpr, Expr.denote, hx]
    rfl
  extract := by
    intro e n s t he hst ht
    refine ⟨by omega, fun ρ => ?_⟩
    obtain ⟨x, hx, hlen⟩ := he.2 ρ
    exact ⟨_, denote_extractExpr hx (le_of_lt hst) (hlen ▸ ht), by simp [hlen]; omega⟩
  combine := by
    intro n L htiles hlen hL
    obtain ⟨x, hx⟩ := List.exists_mem_of_length_pos (show 0 < L.length by omega)
    have hin := htiles.inside x hx
    have hstop : x.stop = x.addr + x.size := rfl
    have hpos : 0 < n := by omega
    exact ⟨hpos, fun ρ => ⟨_, denote_combineMultiExpr htiles hL, by simp⟩⟩

/-! ## The expression of a range -/

/-- The bytes of a word, those under a cell taken from the cells. -/
def overlay (ρ : Valuation) (L : List (Segment Expr)) (v : BitVec 64) (n : Nat) :
    List (BitVec 8) :=
  (List.range n).map fun (i : Nat) => (lookup (Expr.byte ρ) L i).getD (byteOf v.toNat i)

/-- The literal that stands for a byte of the word. -/
theorem byte_constByte (v : BitVec 64) (i : Nat) :
    (constByte v i).byte ρ 0 = byteOf v.toNat i := by
  rw [constByte_eq, Expr.byte, denote_constExpr, Option.getD_some]
  refine BitVec.eq_of_toNat_eq ?_
  have hlt := (byteOf v.toNat i).isLt
  simp [bytesOf, byteOf_toNat]

/-- The expression of a range stands for its bytes. -/
theorem denote_exprOfCells {L : List (Segment Expr)} {v : BitVec 64} {n : Nat} (hs : Sorted L)
    (hin : ∀ x ∈ L, 0 ≤ x.addr ∧ x.stop ≤ n) (hL : CellsOk HasBytes L) {e : Expr}
    (he : exprOfCells v n L = some e) : e.denote ρ = some (overlay ρ L v n) := by
  have htiles := @exprPieces_tiles v n L 0 hs hin (Nat.zero_le _)
  have hpieces : CellsOk HasBytes (exprPieces v n L 0) := by
    intro y hy
    rcases eq_or_of_mem_exprPieces hs hin (Nat.zero_le _) hy with hmem | ⟨i, -, -, rfl⟩
    · exact hL y hmem
    · exact exprLaw_hasBytes.lit _ Nat.one_pos
  have hbytes : ∀ i : Nat, i < n → lookup (Expr.byte ρ) (exprPieces v n L 0) i
      = some ((lookup (Expr.byte ρ) L i).getD (byteOf v.toNat i)) :=
    fun i hi => lookup_exprPieces hs hin (Expr.byte ρ) _ (byte_constByte v) hi
  rw [exprOfCells] at he
  split at he
  · rw [← Option.some.inj he, denote_combineMultiExpr htiles hpieces, overlay]
    refine congrArg some (List.map_congr_left fun i hi => ?_)
    rw [hbytes i (List.mem_range.1 hi), Option.getD_some]
  · -- the range is a single cell
    rename_i hlen
    have hne : L ≠ [] := by
      rintro rfl
      simp at he
    obtain ⟨x, rfl, hone, haddr, hsize⟩ := exists_singleton hs hin hne hlen
    have hxe : x.val = e := by simpa using he
    rw [← hxe, (hL x (by simp)).denote_eq ρ, overlay, hsize]
    refine congrArg some (List.map_congr_left fun i hi => ?_)
    have hi : i < n := List.mem_range.1 hi
    have hcov : x.Covers i := ⟨by omega, by show (i : Int) < x.addr + x.size; omega⟩
    rw [lookup_of_mem _ hs (by simp) hcov, Option.getD_some, haddr, Int.sub_zero,
      Int.toNat_natCast]

end KRover
