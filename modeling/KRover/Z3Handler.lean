import KRover.Lib.BvTerm
import KRover.Lib.Bytes
import KRover.Expr

/-! # Translation of expressions to Z3 terms

`Z3Handler::Z3HandlingExprPtr` and its handlers. A translation either builds
a sorted term or stops: on a null pointer, on a kind the switch throws for,
on an exception of the Z3 API (operands whose sorts do not fit, bits that
are not there, a constant of no width), or by calling itself without end.

The translation is total on the trees of each kind it supports; what it
reads of a node is what `z3HandlingExprPtr` matches on.
-/

set_option autoImplicit false

namespace KRover

open BvTerm

/-- The ways a translation stops without a term. -/
inductive Z3Error where
  | nullPtr
  | unsupported
  | z3Exception
  | tooFewPieces
  | diverges
deriving DecidableEq, Repr

/-- A term, or what was thrown instead. -/
abbrev Z3Result := Except Z3Error SomeTerm

/-- A call of the Z3 API: it throws when the sorts do not fit. -/
def z3Call : Option SomeTerm → Z3Result
  | some t => .ok t
  | none => .error .z3Exception

/-- `Z3HandleUND`: the constant of the object's name and size. -/
def z3HandleUND (obj : SYMemObject) : Z3Result :=
  z3Call (SomeTerm.const obj.name (obj.size * 8))

/-- `Z3HandleConst`. The size is in bytes; Z3 has no words of width zero. -/
def z3HandleConst (value : BitVec 64) (size : Nat) : Z3Result :=
  z3Call (SomeTerm.lit value.toNat (size * 8))

/-- `Z3HandleAdd`. Two terms of one width are added; the call throws on others. -/
def z3HandleAdd (r l : SomeTerm) : Z3Result := z3Call (SomeTerm.bin .add r l)
/-- `Z3HandleSub`, which subtracts the second term from the first. -/
def z3HandleSub (r l : SomeTerm) : Z3Result := z3Call (SomeTerm.bin .sub r l)
/-- `Z3HandleMul`. The product has the width of one factor. -/
def z3HandleMul (r l : SomeTerm) : Z3Result := z3Call (SomeTerm.bin .mul r l)
/-- `Z3HandleUDiv`, the quotient without sign. -/
def z3HandleUDiv (r l : SomeTerm) : Z3Result := z3Call (SomeTerm.bin .udiv r l)
/-- `Z3HandleSDiv`, the quotient with sign. -/
def z3HandleSDiv (r l : SomeTerm) : Z3Result := z3Call (SomeTerm.bin .sdiv r l)
/-- `Z3HandleSRem`, the remainder with the sign of the dividend. -/
def z3HandleSRem (r l : SomeTerm) : Z3Result := z3Call (SomeTerm.bin .srem r l)
/-- `Z3HandleAnd`. The operator `&` of the binding takes two Booleans as well. -/
def z3HandleAnd (r l : SomeTerm) : Z3Result := z3Call (SomeTerm.bitwise .and .and r l)
/-- `Z3HandleOr`, on words or Booleans. -/
def z3HandleOr (r l : SomeTerm) : Z3Result := z3Call (SomeTerm.bitwise .or .or r l)
/-- `Z3HandleXor`, on words or Booleans. -/
def z3HandleXor (r l : SomeTerm) : Z3Result := z3Call (SomeTerm.bitwise .xor .xor r l)
/-- `Z3HandleShl`. The count has the width of the word. -/
def z3HandleShl (r l : SomeTerm) : Z3Result := z3Call (SomeTerm.bin .shl r l)
/-- `Z3HandleLShr`, which fills with zeroes. -/
def z3HandleLShr (r l : SomeTerm) : Z3Result := z3Call (SomeTerm.bin .lshr r l)
/-- `Z3HandleAShr`, which fills with the sign. -/
def z3HandleAShr (r l : SomeTerm) : Z3Result := z3Call (SomeTerm.bin .ashr r l)

/-- `Z3HandleUlt`, less than without sign. -/
def z3HandleUlt (r l : SomeTerm) : Z3Result := z3Call (SomeTerm.cmp .ult r l)
/-- `Z3HandleUle`, less or equal without sign. -/
def z3HandleUle (r l : SomeTerm) : Z3Result := z3Call (SomeTerm.cmp .ule r l)
/-- `Z3HandleUgt`, greater than without sign. -/
def z3HandleUgt (r l : SomeTerm) : Z3Result := z3Call (SomeTerm.cmp .ugt r l)
/-- `Z3HandleUge`, greater or equal without sign. -/
def z3HandleUge (r l : SomeTerm) : Z3Result := z3Call (SomeTerm.cmp .uge r l)
/-- `Z3HandleSlt`, less than with sign. -/
def z3HandleSlt (r l : SomeTerm) : Z3Result := z3Call (SomeTerm.cmp .slt r l)
/-- `Z3HandleSle`, less or equal with sign. -/
def z3HandleSle (r l : SomeTerm) : Z3Result := z3Call (SomeTerm.cmp .sle r l)
/-- `Z3HandleSgt`, greater than with sign. -/
def z3HandleSgt (r l : SomeTerm) : Z3Result := z3Call (SomeTerm.cmp .sgt r l)
/-- `Z3HandleSge`, greater or equal with sign. -/
def z3HandleSge (r l : SomeTerm) : Z3Result := z3Call (SomeTerm.cmp .sge r l)

/-- `Z3HandleNeg`, the two's complement. -/
def z3HandleNeg (x : SomeTerm) : Z3Result := z3Call (SomeTerm.un .neg x)
/-- `Z3HandleNot`, the complement bit by bit. -/
def z3HandleNot (x : SomeTerm) : Z3Result := z3Call (SomeTerm.un .not x)
/-- `Z3HandleEqual`, which compares its one operand with zero. -/
def z3HandleEqual (x : SomeTerm) : Z3Result := z3Call (SomeTerm.cmpZero .eq x)
/-- `Z3HandleDistinct`, the opposite of `Z3HandleEqual`. -/
def z3HandleDistinct (x : SomeTerm) : Z3Result := z3Call (SomeTerm.cmpZero .ne x)
/-- `Z3HandleLNot`, on Booleans only. -/
def z3HandleLNot (x : SomeTerm) : Z3Result := z3Call (SomeTerm.not x)

/-- `Z3HandleSign`. The sign bit is extracted, but the test `bool_true ==
sign_bit.simplify()` builds an equation and asks whether that pointer is
null, so the answer is the one-bit literal 1 whatever the bit is. -/
def z3HandleSign (x : SomeTerm) (size : Nat) : Z3Result :=
  match SomeTerm.extract (size * 8 - 1) (size * 8 - 1) x with
  | some _ => z3Call (SomeTerm.lit 1 1)
  | none => .error .z3Exception

/-- `Z3HandleNoSign` makes the same test and gives the same answer. -/
def z3HandleNoSign (x : SomeTerm) (size : Nat) : Z3Result := z3HandleSign x size

/-- `Z3HandleCombine`, which puts the first operand above the second. -/
def z3HandleCombine (r l : SomeTerm) : Z3Result := z3Call (SomeTerm.concat r l)

/-- `Z3HandleExtract`: the bits from `s * 8` to `e * 8 - 1`. The API takes
them as unsigned numbers, so a negative one lies past every term. -/
def z3HandleExtract (x : SomeTerm) (s e : Int) : Z3Result :=
  if 0 ≤ s ∧ 0 ≤ e * 8 - 1 then
    z3Call (SomeTerm.extract (e * 8 - 1).toNat (s * 8).toNat x)
  else .error .z3Exception

/-- The loop of `Z3HandleCombineMulti`: each further piece is put below what
there is. -/
def z3ConcatAll : SomeTerm → List SomeTerm → Z3Result
  | acc, [] => .ok acc
  | acc, x :: xs => do
    let acc ← z3Call (SomeTerm.concat acc x)
    z3ConcatAll acc xs

/-- `Z3HandleCombineMulti`: at least two pieces, the first one highest. -/
def z3HandleCombineMulti : List SomeTerm → Z3Result
  | x :: y :: ys => z3ConcatAll x (y :: ys)
  | _ => .error .tooFewPieces

/-- The switch of `Z3HandlingExprPtr` over the two-operand kinds. -/
def z3HandleBinKind : BinKind → SomeTerm → SomeTerm → Z3Result
  | .add => z3HandleAdd
  | .sub => z3HandleSub
  | .mul => z3HandleMul
  | .uDiv => z3HandleUDiv
  | .sDiv => z3HandleSDiv
  | .sRem => z3HandleSRem
  | .and => z3HandleAnd
  | .or => z3HandleOr
  | .xor => z3HandleXor
  | .shl => z3HandleShl
  | .lShr => z3HandleLShr
  | .aShr => z3HandleAShr
  | .ult => z3HandleUlt
  | .ule => z3HandleUle
  | .ugt => z3HandleUgt
  | .uge => z3HandleUge
  | .slt => z3HandleSlt
  | .sle => z3HandleSle
  | .sgt => z3HandleSgt
  | .sge => z3HandleSge

mutual

/-- `Z3HandlingExprPtr`. The handler of `SignEXT` translates the node it was
called on again, so it never returns. -/
def z3HandlingExprPtr : Expr → Z3Result
  | .null => .error .nullPtr
  | .udef none _ => .error .nullPtr
  | .udef (some obj) _ => z3HandleUND obj
  | .const v size => z3HandleConst v size
  | .bin k r l _ => do
    let x ← z3HandlingExprPtr r
    let y ← z3HandlingExprPtr l
    z3HandleBinKind k x y
  | .ury k e size =>
    match k with
    | .neg => do z3HandleNeg (← z3HandlingExprPtr e)
    | .not => do z3HandleNot (← z3HandlingExprPtr e)
    | .lNot => do z3HandleLNot (← z3HandlingExprPtr e)
    | .equal => do z3HandleEqual (← z3HandlingExprPtr e)
    | .distinct => do z3HandleDistinct (← z3HandlingExprPtr e)
    | .sign => do z3HandleSign (← z3HandlingExprPtr e) size
    | .noSign => do z3HandleNoSign (← z3HandlingExprPtr e) size
    | .signExt => .error .diverges
    | .zeroExt | .overflow | .noOverflow => .error .unsupported
  | .shrd _ _ _ _ => .error .unsupported
  | .combine r l _ _ _ => do
    let x ← z3HandlingExprPtr r
    let y ← z3HandlingExprPtr l
    z3HandleCombine x y
  | .extract e s t _ => do
    let x ← z3HandlingExprPtr e
    z3HandleExtract x s t
  | .combineMulti es _ _ _ => do
    let xs ← z3HandlingExprPtrs es
    z3HandleCombineMulti xs

/-- The pieces of a combination, translated in order. -/
def z3HandlingExprPtrs : List Expr → Except Z3Error (List SomeTerm)
  | [] => .ok []
  | e :: es => do
    let x ← z3HandlingExprPtr e
    let xs ← z3HandlingExprPtrs es
    return x :: xs

end

mutual

/-- The objects whose constants a translation meets, in order: what it
enters into `symObjectsMap`. -/
def metObjects : Expr → List SYMemObject
  | .udef (some obj) _ => [obj]
  | .bin _ r l _ => metObjects r ++ metObjects l
  | .ury _ e _ => metObjects e
  | .combine r l _ _ _ => metObjects r ++ metObjects l
  | .extract e _ _ _ => metObjects e
  | .combineMulti es _ _ _ => metObjectsAll es
  | .null | .udef none _ | .const _ _ | .shrd _ _ _ _ => []

/-- Those of a list of expressions, in the order of the list. -/
def metObjectsAll : List Expr → List SYMemObject
  | [] => []
  | e :: es => metObjects e ++ metObjectsAll es

end

/-! ## Evaluation against the seeds -/

/-- The seed of an object, as `bv_val` takes it from the union member of the
object's size. -/
def SYMemObject.value (obj : SYMemObject) : BitVec (obj.size * 8) :=
  obj.seed.setWidth (obj.size * 8)

/-- `Z3ExpressionEvaluator`: one constant is replaced, and the result must
simplify to `true`. `S` is the simplifier of Z3. -/
def z3ExpressionEvaluator (S : Simplifier) (orgExpr : Term .bool) (obj : SYMemObject) : Bool :=
  (S.run (orgExpr.subst obj.name (obj.size * 8) obj.value)).isTrue

/-- The loop of `Z3SolveConcritize` over the objects with a seed: each one that
is in `symObjectsMap` is tried on the whole constraint, and the last answer
stands. -/
def z3EvaluateAll (S : Simplifier) (exprs : Term .bool) (symObjectsMap symobjs : List SYMemObject) :
    Bool :=
  symobjs.foldl (fun ret obj =>
    if (obj.size = 1 || obj.size = 2 || obj.size = 4 || obj.size = 8)
        && symObjectsMap.any (·.id = obj.id) then z3ExpressionEvaluator S exprs obj
    else ret) false

/-- `Z3SolveConcritize` on one constraint, which is conjoined with `true`
first. The translation enters its objects into `symObjectsMap`, which keeps
those of earlier calls. -/
def z3SolveConcritize (S : Simplifier) (symObjectsMap symobjsAll : List SYMemObject) (c : Expr) :
    Except Z3Error (Bool × List SYMemObject) := do
  let t ← z3HandlingExprPtr c
  match ← z3Call (SomeTerm.bitwise .and .and ⟨.bool, .boolLit true⟩ t) with
  | ⟨.bool, exprs⟩ =>
    let symObjectsMap := symObjectsMap ++ metObjects c
    return (z3EvaluateAll S exprs symObjectsMap (symobjsAll.filter (·.hasSeed)), symObjectsMap)
  | ⟨.bv _, _⟩ => .error .z3Exception

/-! ## Values -/

/-- The width in bits and the value of an expression under a valuation of the
symbols, when it translates to a bit-vector term. -/
def exprNat (ρ : Valuation) (e : Expr) : Option (Nat × Nat) :=
  match z3HandlingExprPtr e with
  | .ok ⟨.bv w, t⟩ => some (w, (t.eval ρ).toNat)
  | _ => none

/-- Byte `i` of the value of an expression. -/
def exprByte (ρ : Valuation) (e : Expr) (i : Nat) : BitVec 8 :=
  match exprNat ρ e with
  | some (_, v) => Bytes.byteOf v i
  | none => 0

/-- The truth of a condition under a valuation, when it translates to a
Boolean term. -/
def exprTruth (ρ : Valuation) (e : Expr) : Option Bool :=
  match z3HandlingExprPtr e with
  | .ok ⟨.bool, t⟩ => some (t.eval ρ)
  | _ => none

end KRover
