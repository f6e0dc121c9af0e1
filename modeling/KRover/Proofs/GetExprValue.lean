import KRover.Lib.Tiling
import KRover.Proofs.SymListRead
import KRover.Z3Handler

/-! # The value of the expression `GetExpr` builds

`GetExpr` collects the pieces of a range in the order of their addresses, and
`Z3HandleCombineMulti` puts each further piece below what it has. So the piece
with the lowest address ends up in the highest bits.

* `z3ConcatAll_spec`: the value of a combination is that of its pieces in
  reverse order.
-/

set_option autoImplicit false

namespace KRover

open Segments BvTerm Bytes SymbolListMap

variable {ρ : Valuation}

/-! ## Values of terms -/

/-- The term is a bit-vector whose value, low byte first, is `bs`. -/
def TermIs (ρ : Valuation) (t : SomeTerm) (bs : List (BitVec 8)) : Prop :=
  ∃ w x, t = ⟨.bv w, x⟩ ∧ w = 8 * bs.length ∧ (x.eval ρ).toNat = ofBytes bs

/-- The expression translates to a term whose value is `bs`. -/
def ExprIs (ρ : Valuation) (e : Expr) (bs : List (BitVec 8)) : Prop :=
  exprNat ρ e = some (8 * bs.length, ofBytes bs)

/-- An expression is some bytes where its term is. -/
theorem exprIs_iff {e : Expr} {bs : List (BitVec 8)} :
    ExprIs ρ e bs ↔ ∃ t, z3HandlingExprPtr e = .ok t ∧ TermIs ρ t bs := by
  unfold ExprIs exprNat
  constructor
  · intro h
    split at h
    · rename_i w t heq
      simp only [Option.some_inj, Prod.mk.injEq] at h
      exact ⟨⟨.bv w, t⟩, heq, w, t, rfl, h.1, h.2⟩
    · simp at h
  · rintro ⟨t, ht, w, x, rfl, hw, hx⟩
    rw [ht]
    simp [hw, hx]

/-- Then each of its bytes is the one at the index. -/
theorem ExprIs.byte {e : Expr} {bs : List (BitVec 8)} (h : ExprIs ρ e bs) (i : Nat)
    (hi : i < bs.length) : exprByte ρ e i = bs[i] := by
  rw [exprByte, show exprNat ρ e = _ from h]
  exact byteOf_ofBytes hi

/-- The value of an expression of `n` bytes fits into them. -/
theorem exprNat_lt {e : Expr} {n v : Nat} (h : exprNat ρ e = some (8 * n, v)) :
    v < 256 ^ n := by
  unfold exprNat at h
  split at h
  · rename_i w t _
    simp only [Option.some_inj, Prod.mk.injEq] at h
    obtain ⟨rfl, rfl⟩ := h
    have hpow : (2 : Nat) ^ (8 * n) = 256 ^ n := by rw [Nat.pow_mul]
    rw [← hpow]
    exact (t.eval ρ).isLt
  · simp at h

/-- An expression of `n` bytes is spelled by its bytes. -/
theorem exprIs_bytes {e : Expr} {n v : Nat} (h : exprNat ρ e = some (8 * n, v)) :
    ExprIs ρ e ((List.range n).map (exprByte ρ e)) := by
  have hlt := exprNat_lt h
  have hbytes : (List.range n).map (exprByte ρ e) = bytesOf v n := by
    refine List.map_congr_left fun i _ => ?_
    rw [exprByte, h]
  rw [ExprIs, hbytes, length_bytesOf, ofBytes_bytesOf, Nat.mod_eq_of_lt hlt, h]

/-- The value of an extraction. -/
theorem exprNat_extractExpr {e : Expr} {n v s t : Nat} (h : exprNat ρ e = some (8 * n, v))
    (hst : s < t) (ht : t ≤ n) :
    exprNat ρ (Expr.extractExpr e s t) = some (8 * (t - s), v / 256 ^ s % 256 ^ (t - s)) := by
  unfold exprNat at h
  split at h
  · rename_i w x hx
    simp only [Option.some_inj, Prod.mk.injEq] at h
    obtain ⟨rfl, rfl⟩ := h
    have hbits : s * 8 ≤ t * 8 - 1 ∧ t * 8 - 1 < 8 * n := by omega
    have hz : z3HandlingExprPtr (Expr.extractExpr e s t)
        = .ok ⟨.bv (t * 8 - 1 - s * 8 + 1), .extract (t * 8 - 1) (s * 8) x⟩ := by
      have hhigh : ((t : Int) * 8 - 1).toNat = t * 8 - 1 := by omega
      have hlow : ((s : Int) * 8).toNat = s * 8 := by omega
      have hneg : 0 ≤ (s : Int) ∧ 0 ≤ (t : Int) * 8 - 1 := by omega
      simp only [Expr.extractExpr, z3HandlingExprPtr, hx, bind, Except.bind]
      rw [z3HandleExtract, if_pos hneg, hhigh, hlow, SomeTerm.extract, if_pos hbits]
      rfl
    have hwidth : t * 8 - 1 - s * 8 + 1 = 8 * (t - s) := by omega
    have hpow : ∀ k : Nat, (2 : Nat) ^ (8 * k) = 256 ^ k := fun k => by rw [Nat.pow_mul]
    rw [exprNat, hz]
    simp only [Term.eval, BitVec.extractLsb_toNat, Nat.shiftRight_eq_div_pow]
    rw [hwidth, hpow, Nat.mul_comm s 8, hpow]
  · simp at h

/-- The literal of a byte of the word. -/
theorem constByte_eq (v : BitVec 64) (i : Nat) :
    constByte v i = Expr.constExpr ((byteOf v.toNat i).setWidth 64) 1 := by
  have hpow : (2 : Nat) ^ (8 * i) = 256 ^ i := by rw [Nat.pow_mul]
  have hbyte : (v >>> (8 * i)) &&& 0xff = (byteOf v.toNat i).setWidth 64 := by
    refine BitVec.eq_of_toNat_eq ?_
    have hlt := (byteOf v.toNat i).isLt
    rw [BitVec.toNat_and, BitVec.toNat_ushiftRight, Nat.shiftRight_eq_div_pow, hpow,
      BitVec.toNat_setWidth, Nat.mod_eq_of_lt (by omega), byteOf_toNat]
    exact Nat.and_two_pow_sub_one_eq_mod _ 8
  rw [constByte, hbyte]

/-- The value of a padding byte. -/
theorem exprIs_constByte (v : BitVec 64) (i : Nat) :
    ExprIs ρ (constByte v i) [byteOf v.toNat i] := by
  rw [exprIs_iff, constByte_eq]
  refine ⟨⟨.bv 8, .lit (BitVec.ofNat 8 ((byteOf v.toNat i).setWidth 64).toNat)⟩, rfl, 8, _, rfl,
    rfl, ?_⟩
  have hlt := (byteOf v.toNat i).isLt
  simp only [Term.eval, BitVec.toNat_ofNat, BitVec.toNat_setWidth, ofBytes_cons, ofBytes_nil]
  omega

/-! ## Combinations -/

/-- The value of a concatenation: the first argument is the high part. -/
theorem concat_spec {x y : SomeTerm} {bx cy : List (BitVec 8)} (hx : TermIs ρ x bx)
    (hy : TermIs ρ y cy) :
    ∃ t, SomeTerm.concat x y = some t ∧ TermIs ρ t (cy ++ bx) := by
  obtain ⟨v, x, rfl, rfl, hvx⟩ := hx
  obtain ⟨w, y, rfl, rfl, hvy⟩ := hy
  refine ⟨_, rfl, _, _, rfl, ?_, ?_⟩
  · rw [List.length_append]
    omega
  · have hpow : (2 : Nat) ^ (8 * cy.length) = 256 ^ cy.length := by rw [Nat.pow_mul]
    have hlt := ofBytes_lt cy
    rw [Term.eval, BitVec.toNat_append, ofBytes_append, hvx, hvy,
      ← Nat.shiftLeft_add_eq_or_of_lt (by rw [hpow]; exact hlt), Nat.shiftLeft_eq, hpow]
    ring

/-- Pieces are combined from the first, highest, to the last, lowest. The
induction is on the pieces still to come. -/
theorem z3ConcatAll_spec (ts : List SomeTerm) (bss : List (List (BitVec 8)))
    (h : List.Forall₂ (TermIs ρ) ts bss) {acc : SomeTerm} {bs : List (BitVec 8)}
    (hacc : TermIs ρ acc bs) :
    ∃ t, z3ConcatAll acc ts = .ok t ∧ TermIs ρ t (bss.reverse.flatten ++ bs) := by
  induction h generalizing acc bs with
  | nil => exact ⟨acc, rfl, by simpa using hacc⟩
  | cons hx _ ih =>
    rename_i x b xs bss _
    obtain ⟨t, ht, htis⟩ := concat_spec hacc hx
    obtain ⟨r, hr, hris⟩ := ih htis
    refine ⟨r, ?_, ?_⟩
    · rw [z3ConcatAll, ht]
      exact hr
    · rw [List.reverse_cons, List.flatten_append]
      simpa using hris

/-- The translations of a list of expressions. -/
theorem z3HandlingExprPtrs_spec (es : List Expr) (bss : List (List (BitVec 8)))
    (h : List.Forall₂ (ExprIs ρ) es bss) :
    ∃ ts, z3HandlingExprPtrs es = .ok ts ∧ List.Forall₂ (TermIs ρ) ts bss := by
  induction h with
  | nil => exact ⟨[], rfl, .nil⟩
  | cons he _ ih =>
    obtain ⟨t, ht, htis⟩ := exprIs_iff.1 he
    obtain ⟨ts, hts, htsis⟩ := ih
    refine ⟨t :: ts, ?_, .cons htis htsis⟩
    rw [z3HandlingExprPtrs, ht, hts]
    rfl

/-- The value of a combination of at least two pieces. -/
theorem exprIs_combineMulti {es : List Expr} {bss : List (List (BitVec 8))}
    (h : List.Forall₂ (ExprIs ρ) es bss) (hlen : 1 < es.length) (offsets sizes : List Nat)
    (size : Nat) :
    ExprIs ρ (Expr.combineMultiExpr es offsets sizes size) bss.reverse.flatten := by
  obtain ⟨ts, hts, htis⟩ := z3HandlingExprPtrs_spec es bss h
  have hlen' : 1 < ts.length := by rw [htis.length_eq, ← h.length_eq]; exact hlen
  match ts, bss, htis, hlen' with
  | t :: u :: us, b :: c :: cs, .cons htb (.cons hu hus), _ =>
    obtain ⟨r, hr, hris⟩ := z3ConcatAll_spec (u :: us) (c :: cs) (.cons hu hus) htb
    refine exprIs_iff.2 ⟨r, ?_, ?_⟩
    · rw [Expr.combineMultiExpr, z3HandlingExprPtr, hts]
      exact hr
    · simpa using hris

/-! ## The pieces of a range -/

/-- Byte `i` of the range from `addr` on: that of the cell over it, or that of
the word where no cell is. -/
def sourceByte (ρ : Valuation) (L : List (Segment Expr)) (addr : Int) (v : BitVec 64)
    (i : Nat) : BitVec 8 :=
  (lookup (exprByte ρ) L (addr + i)).getD (byteOf v.toNat i)

/-- The pieces of a gap tile it byte by byte. -/
theorem padBytes_tiles (v : BitVec 64) {a b : Nat} (h : a ≤ b) :
    Tiles (a : Int) b (padBytes v a b) := by
  obtain ⟨k, rfl⟩ := Nat.exists_eq_add_of_le h
  rw [padBytes, Nat.add_sub_cancel_left]
  clear h
  induction k generalizing a with
  | zero => rfl
  | succ k ih =>
    refine ⟨rfl, Nat.one_pos, ?_⟩
    have htail := @ih (a + 1)
    rw [show a + 1 + k = a + (k + 1) by omega] at htail
    exact htail

/-- Each of them is one concrete byte. -/
theorem mem_padBytes {v : BitVec 64} {a b : Nat} {y : Segment Expr} :
    y ∈ padBytes v a b ↔ ∃ i, (a ≤ i ∧ i < b) ∧ y = ⟨(i : Nat), 1, constByte v i⟩ := by
  simp only [padBytes, List.mem_map, List.mem_range'_1, eq_comm (b := y)]
  refine exists_congr fun i => and_congr_left fun _ => ?_
  omega

section Pieces

variable {v : BitVec 64} {size : Nat} {cells : List (Segment Expr)}

/-- The pieces follow each other through the whole range. -/
theorem exprPieces_tiles {next : Nat} (hs : Sorted cells)
    (hin : ∀ x ∈ cells, (next : Int) ≤ x.addr ∧ x.stop ≤ size) (hn : next ≤ size) :
    Tiles (next : Int) size (exprPieces v size cells next) := by
  induction cells generalizing next with
  | nil => exact padBytes_tiles v hn
  | cons x xs ih =>
    obtain ⟨hpos, hxs, hle⟩ := sorted_cons.1 hs
    have hx := hin x (by simp)
    have hstop : x.stop = x.addr + x.size := rfl
    have hpad := padBytes_tiles v (show next ≤ x.addr.toNat by omega)
    have hnext : ((x.addr.toNat + x.size : Nat) : Int) = x.stop := by omega
    have hrest := @ih (x.addr.toNat + x.size) hxs
      (fun y hy => ⟨by rw [hnext]; exact hle y hy, (hin y (by simp [hy])).2⟩) (by omega)
    rw [hnext] at hrest
    exact hpad.append ⟨by omega, hpos, hrest⟩

/-- A cell of the range is a piece. -/
theorem mem_exprPieces_of_mem {next : Nat} {x : Segment Expr} (hx : x ∈ cells) :
    x ∈ exprPieces v size cells next := by
  induction cells generalizing next with
  | nil => simp at hx
  | cons y ys ih =>
    rw [exprPieces]
    rcases List.mem_cons.1 hx with rfl | hx
    · simp
    · simp [ih hx]

/-- A byte that no cell covers is a piece of its own. -/
theorem mem_exprPieces_of_not_covered (h0 : ∀ x ∈ cells, 0 ≤ x.addr) {next i : Nat}
    (hi : next ≤ i ∧ i < size) (hc : ¬ Covered cells i) :
    ⟨i, 1, constByte v i⟩ ∈ exprPieces v size cells next := by
  induction cells generalizing next with
  | nil => exact mem_padBytes.2 ⟨i, hi, rfl⟩
  | cons x xs ih =>
    rw [covered_cons, not_or] at hc
    have hstop : x.stop = x.addr + x.size := rfl
    have hx : ¬ (x.addr ≤ i ∧ (i : Int) < x.stop) := hc.1
    have hx0 := h0 x (by simp)
    rw [exprPieces]
    by_cases hlt : (i : Int) < x.addr
    · exact List.mem_append_left _ (mem_padBytes.2 ⟨i, by omega, rfl⟩)
    · have hrest := ih (fun y hy => h0 y (by simp [hy]))
        (show x.addr.toNat + x.size ≤ i ∧ i < size by omega) hc.2
      simp [hrest]

/-- There are no other pieces. -/
theorem eq_or_of_mem_exprPieces {next : Nat} (hs : Sorted cells)
    (hin : ∀ x ∈ cells, (next : Int) ≤ x.addr ∧ x.stop ≤ size) (hn : next ≤ size)
    {y : Segment Expr} (hy : y ∈ exprPieces v size cells next) :
    y ∈ cells ∨ ∃ i : Nat, i < size ∧ ¬ Covered cells i ∧ y = ⟨i, 1, constByte v i⟩ := by
  have hinside := (exprPieces_tiles (v := v) hs hin hn).inside y hy
  induction cells generalizing next with
  | nil =>
    obtain ⟨i, hi, rfl⟩ := mem_padBytes.1 hy
    exact Or.inr ⟨i, hi.2, covered_nil _, rfl⟩
  | cons x xs ih =>
    obtain ⟨hpos, hxs, hle⟩ := sorted_cons.1 hs
    have hx := hin x (by simp)
    have hstop : x.stop = x.addr + x.size := rfl
    rw [exprPieces, List.mem_append, List.mem_cons] at hy
    rcases hy with hy | rfl | hy
    · -- a byte before the first cell
      obtain ⟨i, hi, rfl⟩ := mem_padBytes.1 hy
      refine Or.inr ⟨i, by omega, ?_, rfl⟩
      rintro ⟨z, hz, hz1, -⟩
      rcases List.mem_cons.1 hz with rfl | hz
      · omega
      · have hzle := hle z hz
        omega
    · exact Or.inl (List.mem_cons_self ..)
    · have hnext : ((x.addr.toNat + x.size : Nat) : Int) = x.stop := by omega
      have hin' : ∀ z ∈ xs, ((x.addr.toNat + x.size : Nat) : Int) ≤ z.addr ∧ z.stop ≤ size :=
        fun z hz => ⟨by rw [hnext]; exact hle z hz, (hin z (by simp [hz])).2⟩
      have hn' : x.addr.toNat + x.size ≤ size := by omega
      have hy' := (exprPieces_tiles (v := v) hxs hin' hn').inside y hy
      rcases ih hxs hin' hn' hy hy' with hmem | ⟨i, hi, hcov, rfl⟩
      · exact Or.inl (by simp [hmem])
      · refine Or.inr ⟨i, hi, ?_, rfl⟩
        rw [covered_cons, not_or]
        have hi' : x.stop ≤ (i : Int) := hnext ▸ hy'.1
        exact ⟨fun hcov' => absurd hcov'.2 (by omega), hcov⟩

variable (hs : Sorted cells) (hin : ∀ x ∈ cells, 0 ≤ x.addr ∧ x.stop ≤ size)

include hs hin

/-- A range of a single piece is filled by a single cell. -/
theorem exists_singleton (hne : cells ≠ []) (hlen : ¬ (exprPieces v size cells 0).length > 1) :
    ∃ x, cells = [x] ∧ exprPieces v size cells 0 = [x] ∧ x.addr = 0 ∧ x.size = size := by
  have htiles := @exprPieces_tiles v size cells 0 hs hin (Nat.zero_le _)
  obtain ⟨x, xs, rfl⟩ := List.exists_cons_of_ne_nil hne
  have hsplit : exprPieces v size (x :: xs) 0
      = padBytes v 0 x.addr.toNat ++ x :: exprPieces v size xs (x.addr.toNat + x.size) := rfl
  rw [hsplit, List.length_append, List.length_cons] at hlen
  have hpad : padBytes v 0 x.addr.toNat = [] := List.length_eq_zero_iff.1 (by omega)
  have hrest : exprPieces v size xs (x.addr.toNat + x.size) = [] :=
    List.length_eq_zero_iff.1 (by omega)
  have hxs : xs = [] := by
    cases xs with
    | nil => rfl
    | cons y ys =>
      have hy : y ∈ exprPieces v size (y :: ys) (x.addr.toNat + x.size) :=
        mem_exprPieces_of_mem (by simp)
      rw [hrest] at hy
      simp at hy
  have hone : exprPieces v size (x :: xs) 0 = [x] := by rw [hsplit, hpad, hrest]; rfl
  rw [hone] at htiles
  obtain ⟨haddr, -, hstop⟩ := htiles
  have hstart : x.addr = ((0 : Nat) : Int) := haddr
  have hend : x.addr + x.size = (size : Int) := hstop
  exact ⟨x, by rw [hxs], hone, hstart, by omega⟩

/-- Read as a list of segments, the pieces read as the cells and, between them,
as the bytes of the word. -/
theorem lookup_exprPieces {β : Type} (f : Expr → Nat → β) (g : Nat → β)
    (hf : ∀ i, f (constByte v i) 0 = g i) {i : Nat} (hi : i < size) :
    lookup f (exprPieces v size cells 0) i = some ((lookup f cells i).getD (g i)) := by
  have htiles := @exprPieces_tiles v size cells 0 hs hin (Nat.zero_le _)
  obtain ⟨y, hy, hcov⟩ := htiles.covered (b := i) (by omega) (by omega)
  rw [lookup_of_mem f htiles.sorted hy hcov]
  rcases eq_or_of_mem_exprPieces hs hin (Nat.zero_le _) hy with hmem | ⟨j, -, hnot, rfl⟩
  · rw [lookup_of_mem f hs hmem hcov, Option.getD_some]
  · have h1 : (j : Int) ≤ i := hcov.1
    have h2 : (i : Int) < j + (1 : Nat) := hcov.2
    obtain rfl : j = i := by omega
    have hnone : lookup f cells (j : Int) = none := (lookup_eq_none f cells j).2 hnot
    have hzero : ((j : Int) - j).toNat = 0 := by omega
    simp only [hnone, Option.getD_none, hzero, hf]

/-- A piece holds the bytes of the range that it lies over. -/
theorem exprByte_piece {y : Segment Expr} (hy : y ∈ exprPieces v size cells 0) {k : Nat}
    (hk : k < y.size) : exprByte ρ y.val k = sourceByte ρ cells 0 v (y.addr.toNat + k) := by
  have htiles := @exprPieces_tiles v size cells 0 hs hin (Nat.zero_le _)
  obtain ⟨h0, -, hstop⟩ := htiles.inside y hy
  have hend : y.stop = y.addr + y.size := rfl
  have hcov : y.Covers ((y.addr.toNat + k : Nat) : Int) := ⟨by omega, by omega⟩
  have hidx : (((y.addr.toNat + k : Nat) : Int) - y.addr).toNat = k := by omega
  have hpiece := lookup_exprPieces hs hin (exprByte ρ) (byteOf v.toNat)
    (fun i => (exprIs_constByte v i).byte 0 (by simp)) (show y.addr.toNat + k < size by omega)
  rw [lookup_of_mem _ htiles.sorted hy hcov, hidx] at hpiece
  rw [sourceByte, zero_add]
  exact Option.some.inj hpiece

/-- Taken in order the pieces spell the range. -/
theorem spell_exprPieces :
    spell (exprByte ρ) (exprPieces v size cells 0)
      = (List.range size).map (sourceByte ρ cells 0 v) := by
  have htiles := @exprPieces_tiles v size cells 0 hs hin (Nat.zero_le _)
  have hlen : ((spell (exprByte ρ) (exprPieces v size cells 0)).length : Int) = size - 0 :=
    htiles.length_spell
  refine List.ext_getElem? fun i => ?_
  by_cases hi : i < size
  · obtain ⟨y, hy, hy1, hy2⟩ := htiles.covered (b := i) (by omega) (by omega)
    have hstop : y.stop = y.addr + y.size := rfl
    have h0 := (htiles.inside y hy).1
    have hidx : (y.addr - ((0 : Nat) : Int)).toNat + (i - y.addr.toNat) = i := by omega
    have hget : (spell (exprByte ρ) (exprPieces v size cells 0))[_]? = some _ :=
      htiles.getElem?_spell hy (show i - y.addr.toNat < y.size by omega)
    rw [hidx, exprByte_piece hs hin hy (by omega)] at hget
    rw [hget, show y.addr.toNat + (i - y.addr.toNat) = i by omega]
    simp [hi]
  · rw [List.getElem?_eq_none (by omega), List.getElem?_eq_none (by simp; omega)]

/-- The expression built of the pieces has their value in reverse order. -/
theorem exprIs_exprOfCells (hw : ∀ x ∈ cells, ∃ w, exprNat ρ x.val = some (8 * x.size, w))
    {e : Expr} (he : exprOfCells v size cells = some e) :
    ExprIs ρ e (spell (exprByte ρ) (exprPieces v size cells 0).reverse) := by
  have hpiece : ∀ y ∈ exprPieces v size cells 0,
      ExprIs ρ y.val ((List.range y.size).map (exprByte ρ y.val)) := by
    intro y hy
    rcases eq_or_of_mem_exprPieces hs hin (Nat.zero_le _) hy with hmem | ⟨i, -, -, rfl⟩
    · obtain ⟨w, hw⟩ := hw y hmem
      exact exprIs_bytes hw
    · exact exprIs_bytes (exprIs_constByte v i)
  rw [exprOfCells] at he
  split at he
  · rename_i hlen
    rw [← Option.some.inj he]
    have hall : List.Forall₂ (ExprIs ρ) ((exprPieces v size cells 0).map (·.val))
        ((exprPieces v size cells 0).map fun y => (List.range y.size).map (exprByte ρ y.val)) :=
      List.forall₂_map_left_iff.2 (List.forall₂_map_right_iff.2 (List.forall₂_same.2 hpiece))
    have hcomb := exprIs_combineMulti hall (by simpa using hlen)
      ((exprPieces v size cells 0).map (·.addr.toNat))
      ((exprPieces v size cells 0).map (·.size)) size
    rw [← List.map_reverse, ← List.flatMap_def] at hcomb
    exact hcomb
  · -- a single piece, which is the single cell
    rename_i hlen
    have hne : cells ≠ [] := by
      rintro rfl
      simp at he
    obtain ⟨x, rfl, hone, -, -⟩ := exists_singleton hs hin hne hlen
    have hxe : x.val = e := by simpa using he
    rw [hone, ← hxe]
    have hxs := hpiece x (mem_exprPieces_of_mem (by simp))
    simpa [spell_cons] using hxs

end Pieces

end KRover
