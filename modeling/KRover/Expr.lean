import Mathlib.Data.List.Basic

/-! # Symbolic expressions

The expression trees of `Expr.h`: one constructor for each shape of node,
with the classes of one shape told apart by their kind. `Expr.null` is the
null `ExprPtr`.

* `createExprByID`: the comparison a conditional instruction builds from the
  expression of the last flag-changing instruction;
* `Expr.byteAt`: which byte of which node a byte of an expression is, once
  the extractions and combinations above it are undone.
-/

set_option autoImplicit false

namespace KRover

/-- A memory object the user declared symbolic. `id` is its address in the
engine's heap, which is what `Z3Handler` keys its map by; `seed` is the union
that holds the concrete value. -/
structure SYMemObject where
  id : Nat
  name : String
  addr : Nat
  size : Nat
  isSigned : Bool
  hasSeed : Bool
  seed : BitVec 64
deriving DecidableEq, Repr

/-- The classes derived from `BinExpr` that carry two operands and nothing else. They differ
in the handler that translates them, and in nothing that the engine computes itself. -/
inductive BinKind where
  | add | sub | mul | uDiv | sDiv | sRem
  | and | or | xor | shl | lShr | aShr
  | ult | ule | ugt | uge | slt | sle | sgt | sge
deriving DecidableEq, Repr

/-- The classes derived from `UryExpr`, `ExtractExpr` apart. -/
inductive UryKind where
  | neg | not | lNot | signExt | zeroExt | equal | distinct
  | sign | noSign | overflow | noOverflow
deriving DecidableEq, Repr

/-- The `EXPR_` ids: the kinds, and the ids that no class of this shape
carries. -/
inductive ExprId where
  | bin (k : BinKind)
  | ury (k : UryKind)
  | uRem | lOr | lAnd | shrd | combine | extract | combineMulti | undefined
deriving DecidableEq, Repr

/-- Expression trees. Every node records its size in bytes; `udef` is a declared symbol,
`const` a literal whose value is kept in 64 bits. `none` in `udef` is a symbol without an
object, as `createSYRegObject` makes it. -/
inductive Expr where
  | null
  | udef (obj : Option SYMemObject) (size : Nat)
  | const (value : BitVec 64) (size : Nat)
  | bin (kind : BinKind) (r l : Expr) (size : Nat)
  | ury (kind : UryKind) (e : Expr) (size : Nat)
  | shrd (r m l : Expr) (size : Nat)
  | combine (r l : Expr) (rsz lsz size : Nat)
  | extract (e : Expr) (s t : Int) (size : Nat)
  | combineMulti (exprs : List Expr) (offsets sizes : List Nat) (size : Nat)
deriving Repr

namespace Expr

/-- `getExprSize`; a null pointer has none. -/
def getExprSize : Expr → Nat
  | .null => 0
  | .udef _ size => size
  | .const _ size => size
  | .bin _ _ _ size => size
  | .ury _ _ size => size
  | .shrd _ _ _ size => size
  | .combine _ _ _ _ size => size
  | .extract _ _ _ size => size
  | .combineMulti _ _ _ size => size

/-- A null pointer. -/
def isNull : Expr → Bool
  | .null => true
  | _ => false

/-- `UDefExpr(obj)`: the size is the default of `Expr()`, whatever the size of the object.
The translation takes the width from the object and not from this size. -/
def udefExpr (obj : Option SYMemObject) : Expr := .udef obj 4

/-- `ConstExpr(value, sz, off)`. -/
def constExpr (value : BitVec 64) (sz : Nat) : Expr := .const value sz

/-- The two-argument constructors of the `BinExpr` classes take the size of the first
operand. Nothing checks that the second operand has the same size. -/
def binExpr (k : BinKind) (r l : Expr) : Expr := .bin k r l r.getExprSize

/-- The one-argument constructors of the `UryExpr` classes take the size of
the operand. -/
def uryExpr (k : UryKind) (e : Expr) : Expr := .ury k e e.getExprSize

/-- `ExtractExpr(expr, start, end)`: the bytes from `start` to `end`. The recorded size is
the length of that range. -/
def extractExpr (e : Expr) (s t : Int) : Expr := .extract e s t (t - s).toNat

/-- `CombineMultiExpr(e, o, s, sz, off)`. -/
def combineMultiExpr (exprs : List Expr) (offsets sizes : List Nat) (sz : Nat) : Expr :=
  .combineMulti exprs offsets sizes sz

end Expr

/-! ## `CreateExprByID` -/

/-- The operands read through a `BinExpr *`. Any other node has no such members, so reading
them is undefined. `GetCondition` reads them of the last expression, whatever instruction
has saved it. -/
def getRL : Expr → Option (Expr × Expr)
  | .bin _ r l _ => some (r, l)
  | .combine r l _ _ _ => some (r, l)
  | _ => none

/-- The kinds of the two-operand comparisons. -/
def BinKind.isCompare : BinKind → Bool
  | .ult | .ule | .ugt | .uge | .slt | .sle | .sgt | .sge => true
  | _ => false

/-- `CreateExprByID`, the source's unused `M` and `L` left out. `none` is a failed
assertion, or members read that the node does not have; the `default` branch of the switch
leaves the result null. It is how the conditions are built from the operands of the last
expression. -/
def createExprByID (id : ExprId) (R : Expr) (size : Nat) : Option Expr :=
  match id with
  | .bin k => if k.isCompare then (getRL R).map fun (r, l) => .bin k r l size else none
  | .uRem | .ury .neg | .ury .not => none
  | .ury .equal => some (.ury .equal R size)
  | .ury .distinct => some (.ury .distinct R size)
  | .ury .sign => some (.ury .sign R size)
  | .ury .signExt => some (.ury .signExt R size)
  | .lOr | .lAnd | .ury .lNot | .ury .zeroExt | .shrd => none
  | .ury .noSign | .ury .overflow | .ury .noOverflow
  | .combine | .extract | .combineMulti | .undefined => some .null

/-! ## Bytes of an expression -/

mutual

/-- The node and the byte of it that byte `i` of the expression is. The extractions on the
way are undone, and the combinations too when `deep`. Both ways to read an expression byte
by byte are cases of it, so that a law about cuts is proved once. -/
def Expr.select (deep : Bool) : Expr → Nat → Expr × Nat
  | .extract e s _ _, i => e.select deep (s.toNat + i)
  | .combineMulti es offsets sizes size, i =>
    (if deep then selectMulti deep es offsets sizes i else none).getD
      (.combineMulti es offsets sizes size, i)
  | .null, i => (.null, i)
  | .udef obj size, i => (.udef obj size, i)
  | .const v size, i => (.const v size, i)
  | .bin k r l size, i => (.bin k r l size, i)
  | .ury k e size, i => (.ury k e size, i)
  | .shrd r m l size, i => (.shrd r m l size, i)
  | .combine r l rsz lsz size, i => (.combine r l rsz lsz size, i)

/-- Byte `i` of the pieces of a combination: that of the piece laid over it. -/
def selectMulti (deep : Bool) : List Expr → List Nat → List Nat → Nat → Option (Expr × Nat)
  | e :: es, o :: os, n :: ns, i =>
    if o ≤ i ∧ i < o + n then some (e.select deep (i - o)) else selectMulti deep es os ns i
  | _, _, _, _ => none

end

/-- A byte of an extraction is a byte of what it extracts from. -/
theorem Expr.select_extractExpr (deep : Bool) (e : Expr) (s t i : Nat) :
    (Expr.extractExpr e s t).select deep i = e.select deep (s + i) := by
  rw [Expr.extractExpr, Expr.select, Int.toNat_natCast]

/-- The byte that byte `i` of an expression is, down through the extractions and the
combinations above it. -/
def Expr.byteAt (e : Expr) (i : Nat) : Expr × Nat := e.select true i

/-- The byte that byte `i` of an expression selects, with the extractions above
it undone. -/
def Expr.resolve (e : Expr) (i : Nat) : Expr × Nat := e.select false i

/-- A cut of a cell reads as the bytes it was cut from. -/
@[simp] theorem Expr.byteAt_extractExpr (e : Expr) (s t i : Nat) :
    (Expr.extractExpr e s t).byteAt i = e.byteAt (s + i) :=
  Expr.select_extractExpr true e s t i

/-- The same where combinations are left as they are. -/
@[simp] theorem Expr.resolve_extractExpr (e : Expr) (s t i : Nat) :
    (Expr.extractExpr e s t).resolve i = e.resolve (s + i) :=
  Expr.select_extractExpr false e s t i

end KRover
