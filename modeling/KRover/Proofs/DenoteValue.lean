import KRover.Proofs.ExprDenote
import KRover.Proofs.GetExprValue

/-! # The translation keeps the meaning

The translation puts the pieces of a `CombineMultiExpr` together in the wrong
order, and it does not get through an extension with a sign. Of an expression
without these two the value of its Z3 term is what the expression stands for.

* `exprIs_denote`: a direct expression translates to a term of its meaning;
* `exprIs_terms`: the terms of the two operands of an operation.
-/

set_option autoImplicit false

namespace KRover

open BvTerm Bytes

/-- Every node is a symbol, a literal, an operation, a pair or an extraction of at
least one byte. -/
def Expr.isDirect : Expr → Bool
  | .udef (some obj) _ => obj.size ≠ 0
  | .const _ size => size ≠ 0
  | .bin _ r l _ => r.isDirect && l.isDirect
  | .ury k e _ => (k = .neg || k = .not) && e.isDirect
  | .combine r l _ _ _ => r.isDirect && l.isDirect
  | .extract e s t _ => s < t && e.isDirect
  | .null | .udef none _ | .shrd _ _ _ _ | .combineMulti _ _ _ _ => false

variable {ρ : Valuation}

/-! ## One node -/

/-- Bytes are counted by powers of 256. -/
theorem two_pow_eight_mul (n : Nat) : (2 : Nat) ^ (8 * n) = 256 ^ n := by rw [Nat.pow_mul]

/-- The bit vector of some bytes is their number in little-endian order. -/
theorem toNat_bitsOf {x : List (BitVec 8)} : (bitsOf x x.length).toNat = ofBytes x := by
  rw [bitsOf, BitVec.toNat_ofNat, two_pow_eight_mul, Nat.mod_eq_of_lt (ofBytes_lt x)]

/-- A term of a byte string has its bits. -/
theorem eval_eq_bitsOf {x : List (BitVec 8)} {t : Term (.bv (8 * x.length))}
    (ht : (t.eval ρ).toNat = ofBytes x) : t.eval ρ = bitsOf x x.length :=
  BitVec.eq_of_toNat_eq (ht.trans toNat_bitsOf.symm)

/-- The bytes of a vector are the string of its value. -/
theorem ofBytes_bytesOf_toNat {n : Nat} (x : BitVec (8 * n)) :
    ofBytes (bytesOf x.toNat n) = x.toNat := by
  rw [ofBytes_bytesOf, ← two_pow_eight_mul, Nat.mod_eq_of_lt x.isLt]

/-- A unary node applies its operation to the bytes of its operand. -/
theorem termIs_un (op : UnOp) {t : SomeTerm} {x : List (BitVec 8)} (ht : TermIs ρ t x) :
    ∃ t', SomeTerm.un op t = some t' ∧ TermIs ρ t' (unBytes op x) := by
  obtain ⟨_, t, rfl, rfl, hval⟩ := ht
  refine ⟨_, rfl, _, _, rfl, by rw [length_unBytes], ?_⟩
  rw [unBytes, ofBytes_bytesOf_toNat, Term.eval, eval_eq_bitsOf hval]

/-- A binary node needs operands of one length and applies its operation to both. -/
theorem termIs_bin (op : BinOp) {t u : SomeTerm} {x y : List (BitVec 8)} (ht : TermIs ρ t x)
    (hu : TermIs ρ u y) (hlen : x.length = y.length) :
    ∃ t', SomeTerm.bin op t u = some t' ∧ TermIs ρ t' (binBytes op x y) := by
  obtain ⟨_, t, rfl, rfl, hx⟩ := ht
  obtain ⟨w, u, rfl, hw, hy⟩ := hu
  obtain rfl : w = 8 * x.length := by rw [hw, hlen]
  refine ⟨_, dif_pos rfl, _, _, rfl, by rw [length_binBytes], ?_⟩
  have hu : u.eval ρ = bitsOf y x.length := by
    refine BitVec.eq_of_toNat_eq ?_
    rw [hy, hlen, toNat_bitsOf]
  rw [binBytes, ofBytes_bytesOf_toNat, Term.eval, eval_eq_bitsOf hx, hu]

/-- The C++ operators for both sorts build the same terms. -/
theorem z3HandleBinKind_op {k : BinKind} {op : BinOp} (hk : k.op = some op) {t u : SomeTerm}
    {x y : List (BitVec 8)} (ht : TermIs ρ t x) (hu : TermIs ρ u y) :
    z3HandleBinKind k t u = z3Call (SomeTerm.bin op t u) := by
  obtain ⟨_, t, rfl, rfl, -⟩ := ht
  obtain ⟨w, u, rfl, hw, -⟩ := hu
  cases k <;> simp only [BinKind.op, Option.some.injEq, reduceCtorEq] at hk <;> subst hk <;> rfl

/-- The expressions do as their terms. -/
theorem exprIs_bin {k : BinKind} {op : BinOp} (hk : k.op = some op) {r l : Expr} {size : Nat}
    {x y : List (BitVec 8)} (hr : ExprIs ρ r x) (hl : ExprIs ρ l y)
    (hlen : x.length = y.length) : ExprIs ρ (.bin k r l size) (binBytes op x y) := by
  rw [exprIs_iff] at hr hl ⊢
  obtain ⟨t, hzr, ht⟩ := hr
  obtain ⟨u, hzl, hu⟩ := hl
  obtain ⟨t', hbin, ht'⟩ := termIs_bin op ht hu hlen
  refine ⟨t', ?_, ht'⟩
  rw [z3HandlingExprPtr, hzr, hzl]
  show z3HandleBinKind k t u = _
  rw [z3HandleBinKind_op hk ht hu, hbin]
  rfl

/-- A join puts the second operand below the first, so its bytes come first. -/
theorem exprIs_combine {r l : Expr} {rsz lsz size : Nat} {x y : List (BitVec 8)}
    (hr : ExprIs ρ r x) (hl : ExprIs ρ l y) : ExprIs ρ (.combine r l rsz lsz size) (y ++ x) := by
  rw [exprIs_iff] at hr hl ⊢
  obtain ⟨t, hzr, ht⟩ := hr
  obtain ⟨u, hzl, hu⟩ := hl
  obtain ⟨t', hconcat, ht'⟩ := concat_spec ht hu
  refine ⟨t', ?_, ht'⟩
  rw [z3HandlingExprPtr, hzr, hzl]
  show z3Call (SomeTerm.concat t u) = _
  rw [hconcat]
  rfl

/-- A unary expression does as its term. -/
theorem exprIs_ury {k : UryKind} {op : UnOp} {e : Expr} {size : Nat} {x : List (BitVec 8)}
    (hk : ∀ t, z3HandlingExprPtr e = .ok t →
      z3HandlingExprPtr (.ury k e size) = z3Call (SomeTerm.un op t))
    (he : ExprIs ρ e x) : ExprIs ρ (.ury k e size) (unBytes op x) := by
  rw [exprIs_iff] at he ⊢
  obtain ⟨t, hz, ht⟩ := he
  obtain ⟨t', hun, ht'⟩ := termIs_un op ht
  refine ⟨t', ?_, ht'⟩
  rw [hk t hz, hun]
  rfl

/-- A part of a number, as a part of its bytes. -/
theorem ofBytes_part (x : List (BitVec 8)) (s n : Nat) :
    ofBytes ((x.drop s).take n) = ofBytes x / 256 ^ s % 256 ^ n := by
  have hdrop : ofBytes (x.drop s) = ofBytes x / 256 ^ s := by
    by_cases hs : s ≤ x.length
    · have hsplit := ofBytes_append (x.take s) (x.drop s)
      have hlow := ofBytes_lt (x.take s)
      have hlen : (x.take s).length = s := by
        rw [List.length_take]
        omega
      rw [List.take_append_drop, hlen] at hsplit
      rw [hlen] at hlow
      rw [hsplit, Nat.add_mul_div_left _ _ (Nat.pow_pos (by decide)), Nat.div_eq_of_lt hlow,
        Nat.zero_add]
    · have hx := ofBytes_lt x
      have hpow : 256 ^ x.length ≤ 256 ^ s := Nat.pow_le_pow_right (by decide) (by omega)
      rw [List.drop_eq_nil_of_le (by omega), Nat.div_eq_of_lt (by omega)]
      rfl
  have htake : ∀ y : List (BitVec 8), ofBytes (y.take n) = ofBytes y % 256 ^ n := by
    intro y
    have hsplit := ofBytes_append (y.take n) (y.drop n)
    have hlow := ofBytes_lt (y.take n)
    rw [List.take_append_drop] at hsplit
    by_cases hn : n ≤ y.length
    · have hlen : (y.take n).length = n := by
        rw [List.length_take]
        omega
      rw [hlen] at hsplit hlow
      rw [hsplit, Nat.add_mul_mod_self_left, Nat.mod_eq_of_lt hlow]
    · have hy := ofBytes_lt y
      have hpow : 256 ^ y.length ≤ 256 ^ n := Nat.pow_le_pow_right (by decide) (by omega)
      rw [List.take_of_length_le (by omega), Nat.mod_eq_of_lt (by omega)]
  rw [htake, hdrop]

/-- An extract takes the bytes from `s` up to `t`. -/
theorem exprIs_extract {e : Expr} {s t : Int} {size : Nat} {x : List (BitVec 8)}
    (he : ExprIs ρ e x) (hs : 0 ≤ s) (hst : s < t) (ht : t ≤ x.length) :
    ExprIs ρ (.extract e s t size) ((x.drop s.toNat).take (t - s).toNat) := by
  have hval := exprNat_extractExpr he (show s.toNat < t.toNat by omega)
    (show t.toNat ≤ x.length by omega)
  -- the translation does not read the size of the node
  have hnode : exprNat ρ (.extract e s t size)
      = exprNat ρ (Expr.extractExpr e (s.toNat : Int) (t.toNat : Int)) := by
    rw [Int.toNat_of_nonneg hs, Int.toNat_of_nonneg (by omega), Expr.extractExpr, exprNat,
      exprNat, z3HandlingExprPtr, z3HandlingExprPtr]
  have hwidth : (t - s).toNat = t.toNat - s.toNat := by omega
  have hlen : ((x.drop s.toNat).take (t - s).toNat).length = t.toNat - s.toNat := by
    rw [List.length_take, List.length_drop]
    omega
  rw [ExprIs, hnode, hval, hlen, ofBytes_part, hwidth]

/-! ## Expressions -/

/-- A direct expression that stands for bytes translates to a term of their
value. -/
theorem exprIs_denote : ∀ (e : Expr) {x : List (BitVec 8)}, e.isDirect = true →
    e.denote ρ = some x → ExprIs ρ e x
  | .udef (some obj) size, x, hdirect, hx => by
    have hpos : obj.size * 8 ≠ 0 := by
      rw [Expr.isDirect, decide_eq_true_eq] at hdirect
      omega
    rw [Expr.denote] at hx
    rw [← Option.some.inj hx, exprIs_iff]
    refine ⟨⟨.bv (obj.size * 8), .const obj.name (obj.size * 8)⟩, ?_, _, _, rfl, ?_, ?_⟩
    · rw [z3HandlingExprPtr, z3HandleUND, SomeTerm.const, if_neg hpos]
      rfl
    · rw [length_bytesOf, Nat.mul_comm]
    · have hlt := (ρ obj.name (obj.size * 8)).isLt
      rw [Nat.mul_comm obj.size 8, two_pow_eight_mul] at hlt
      rw [ofBytes_bytesOf, Term.eval, Nat.mod_eq_of_lt]
      rwa [Nat.mul_comm obj.size 8]
  | .const v size, x, hdirect, hx => by
    have hpos : size * 8 ≠ 0 := by
      rw [Expr.isDirect, decide_eq_true_eq] at hdirect
      omega
    rw [Expr.denote] at hx
    rw [← Option.some.inj hx, exprIs_iff]
    refine ⟨⟨.bv (size * 8), .lit (BitVec.ofNat (size * 8) v.toNat)⟩, ?_, _, _, rfl, ?_, ?_⟩
    · rw [z3HandlingExprPtr, z3HandleConst, SomeTerm.lit, if_neg hpos]
      rfl
    · rw [length_bytesOf, Nat.mul_comm]
    · rw [ofBytes_bytesOf, Term.eval, BitVec.toNat_ofNat, Nat.mul_comm size 8, two_pow_eight_mul]
  | .bin k r l size, x, hdirect, hx => by
    rw [Expr.isDirect, Bool.and_eq_true] at hdirect
    rw [Expr.denote] at hx
    obtain ⟨op, hop, hx⟩ := Option.bind_eq_some_iff.1 hx
    obtain ⟨y, hy, hx⟩ := Option.bind_eq_some_iff.1 hx
    obtain ⟨z, hz, hx⟩ := Option.bind_eq_some_iff.1 hx
    split at hx
    · rename_i hlen
      rw [← Option.some.inj hx]
      exact exprIs_bin hop (exprIs_denote r hdirect.1 hy) (exprIs_denote l hdirect.2 hz) hlen
    · simp at hx
  | .ury k e size, x, hdirect, hx => by
    rw [Expr.isDirect, Bool.and_eq_true] at hdirect
    rw [Expr.denote] at hx
    obtain ⟨y, hy, hx⟩ := Option.bind_eq_some_iff.1 hx
    have he := exprIs_denote e hdirect.2 hy
    cases k with
    | neg =>
      rw [← Option.some.inj hx]
      refine exprIs_ury (fun t ht => ?_) he
      rw [z3HandlingExprPtr, ht]
      rfl
    | not =>
      rw [← Option.some.inj hx]
      refine exprIs_ury (fun t ht => ?_) he
      rw [z3HandlingExprPtr, ht]
      rfl
    | lNot | signExt | zeroExt | equal | distinct | sign | noSign | overflow | noOverflow =>
      exact absurd hdirect.1 (by decide)
  | .combine r l rsz lsz size, x, hdirect, hx => by
    rw [Expr.isDirect, Bool.and_eq_true] at hdirect
    rw [Expr.denote] at hx
    obtain ⟨y, hy, hx⟩ := Option.bind_eq_some_iff.1 hx
    obtain ⟨z, hz, hx⟩ := Option.bind_eq_some_iff.1 hx
    rw [← Option.some.inj hx]
    exact exprIs_combine (exprIs_denote r hdirect.1 hy) (exprIs_denote l hdirect.2 hz)
  | .extract e s t size, x, hdirect, hx => by
    rw [Expr.isDirect, Bool.and_eq_true, decide_eq_true_eq] at hdirect
    rw [Expr.denote] at hx
    obtain ⟨y, hy, hx⟩ := Option.bind_eq_some_iff.1 hx
    split at hx
    · rename_i hrange
      rw [← Option.some.inj hx]
      exact exprIs_extract (exprIs_denote e hdirect.2 hy) hrange.1 hdirect.1 hrange.2.2
    · simp at hx
  | .null, _, hdirect, _ | .udef none _, _, hdirect, _ | .shrd _ _ _ _, _, hdirect, _
  | .combineMulti _ _ _ _, _, hdirect, _ => absurd hdirect (by simp [Expr.isDirect])

/-- The terms of two direct operands of one length, with their values. -/
theorem exprIs_terms {r l : Expr} {x y : List (BitVec 8)} (hr : ExprIs ρ r x)
    (hl : ExprIs ρ l y) (hlen : x.length = y.length) :
    ∃ t u : Term (.bv (8 * x.length)), z3HandlingExprPtr r = .ok ⟨.bv (8 * x.length), t⟩ ∧
      z3HandlingExprPtr l = .ok ⟨.bv (8 * x.length), u⟩ ∧ t.eval ρ = bitsOf x x.length ∧
      u.eval ρ = bitsOf y x.length := by
  rw [exprIs_iff] at hr hl
  obtain ⟨_, hzr, _, t, rfl, rfl, ht⟩ := hr
  obtain ⟨_, hzl, w, u, rfl, hw, hu⟩ := hl
  obtain rfl : w = 8 * x.length := by rw [hw, hlen]
  refine ⟨t, u, hzr, hzl, eval_eq_bitsOf ht, BitVec.eq_of_toNat_eq ?_⟩
  rw [hu, hlen, toNat_bitsOf]

end KRover
