import Mathlib.Data.List.Basic
import Mathlib.Tactic.Common

/-! # Sorted bit-vector terms

The part of the SMT theory of bit-vectors and Booleans that symbolic
execution needs: terms indexed by their sort, their value under a
valuation of the constants, and substitution.

A term is well sorted by construction. An API that is handed two terms of
unknown sorts must check them first, which is what the `SomeTerm` builders
do: they return `none` exactly when the sorts do not fit.

* `Term.eval`: the value of a term;
* `Term.eval_congr`: it depends on the constants of the term only;
* `Term.eval_subst`: substituting a literal is changing the valuation;
* `Simplifier`: what a simplification procedure promises, with
  `Simplifier.isTrue_of_closed` and `Simplifier.eval_of_isTrue`.
-/

set_option autoImplicit false

namespace BvTerm

/-- The sort of a term. -/
inductive Ty where
  | bool
  | bv (w : Nat)
deriving DecidableEq, Repr

/-- The values of a sort. -/
@[reducible] def Ty.Value : Ty → Type
  | .bool => Bool
  | .bv w => BitVec w

/-- Unary bit-vector operations. -/
inductive UnOp where
  | neg
  | not
deriving DecidableEq, Repr

/-- Binary bit-vector operations. Division follows the SMT convention for a
zero divisor. -/
inductive BinOp where
  | add | sub | mul | udiv | sdiv | srem
  | and | or | xor | shl | lshr | ashr
deriving DecidableEq, Repr

/-- Comparisons of two bit-vectors. -/
inductive CmpOp where
  | eq | ne
  | ult | ule | ugt | uge
  | slt | sle | sgt | sge
deriving DecidableEq, Repr

/-- Binary Boolean operations. -/
inductive BoolOp where
  | and | or | xor
deriving DecidableEq, Repr

/-- The value of an operation on one word. -/
def UnOp.eval {w : Nat} : UnOp → BitVec w → BitVec w
  | .neg, x => -x
  | .not, x => ~~~x

/-- The value of an operation on two words. Division by zero and shifts beyond the width are
those of SMT-LIB. -/
def BinOp.eval {w : Nat} : BinOp → BitVec w → BitVec w → BitVec w
  | .add, x, y => x + y
  | .sub, x, y => x - y
  | .mul, x, y => x * y
  | .udiv, x, y => x.smtUDiv y
  | .sdiv, x, y => x.smtSDiv y
  | .srem, x, y => x.srem y
  | .and, x, y => x &&& y
  | .or, x, y => x ||| y
  | .xor, x, y => x ^^^ y
  | .shl, x, y => x <<< y
  | .lshr, x, y => x >>> y
  | .ashr, x, y => x.sshiftRight' y

/-- The value of a comparison. -/
def CmpOp.eval {w : Nat} : CmpOp → BitVec w → BitVec w → Bool
  | .eq, x, y => x == y
  | .ne, x, y => x != y
  | .ult, x, y => x.ult y
  | .ule, x, y => x.ule y
  | .ugt, x, y => y.ult x
  | .uge, x, y => y.ule x
  | .slt, x, y => x.slt y
  | .sle, x, y => x.sle y
  | .sgt, x, y => y.slt x
  | .sge, x, y => y.sle x

/-- The value of a connective. -/
def BoolOp.eval : BoolOp → Bool → Bool → Bool
  | .and, x, y => x && y
  | .or, x, y => x || y
  | .xor, x, y => x ^^ y

/-- Terms of each sort. A constant is identified by its name together with
its width, so constants of one name and two widths are different. -/
inductive Term : Ty → Type where
  | const (name : String) (w : Nat) : Term (.bv w)
  | lit {w : Nat} (v : BitVec w) : Term (.bv w)
  | un {w : Nat} (op : UnOp) (x : Term (.bv w)) : Term (.bv w)
  | bin {w : Nat} (op : BinOp) (x y : Term (.bv w)) : Term (.bv w)
  | concat {v w : Nat} (x : Term (.bv v)) (y : Term (.bv w)) : Term (.bv (v + w))
  | extract {w : Nat} (hi lo : Nat) (x : Term (.bv w)) : Term (.bv (hi - lo + 1))
  | cmp {w : Nat} (op : CmpOp) (x y : Term (.bv w)) : Term .bool
  | boolLit (b : Bool) : Term .bool
  | not (x : Term .bool) : Term .bool
  | bool (op : BoolOp) (x y : Term .bool) : Term .bool

/-- The term is the literal `true`. -/
def Term.isTrue : Term .bool → Bool
  | .boolLit b => b
  | _ => false

/-- The test for the literal `true` finds that literal only. -/
theorem Term.isTrue_iff {t : Term .bool} : t.isTrue = true ↔ t = .boolLit true := by
  cases t with
  | boolLit b => simp [isTrue]
  | cmp op x y => simp [isTrue]
  | not x => simp [isTrue]
  | bool op x y => simp [isTrue]

/-- A value for every constant. -/
abbrev Valuation := String → (w : Nat) → BitVec w

namespace Term

/-- The value of a term. The first argument of `concat` supplies the high
bits. -/
def eval (ρ : Valuation) : {ty : Ty} → Term ty → ty.Value
  | _, .const name w => ρ name w
  | _, .lit v => v
  | _, .un op x => op.eval (x.eval ρ)
  | _, .bin op x y => op.eval (x.eval ρ) (y.eval ρ)
  | _, .concat x y => x.eval ρ ++ y.eval ρ
  | _, .extract hi lo x => (x.eval ρ).extractLsb hi lo
  | _, .cmp op x y => op.eval (x.eval ρ) (y.eval ρ)
  | _, .boolLit b => b
  | _, .not x => !(x.eval ρ)
  | _, .bool op x y => op.eval (x.eval ρ) (y.eval ρ)

/-- The constants of a term. -/
def consts : {ty : Ty} → Term ty → List (String × Nat)
  | _, .const name w => [(name, w)]
  | _, .lit _ => []
  | _, .un _ x => x.consts
  | _, .bin _ x y => x.consts ++ y.consts
  | _, .concat x y => x.consts ++ y.consts
  | _, .extract _ _ x => x.consts
  | _, .cmp _ x y => x.consts ++ y.consts
  | _, .boolLit _ => []
  | _, .not x => x.consts
  | _, .bool _ x y => x.consts ++ y.consts

/-- No constant is left. -/
def Closed {ty : Ty} (t : Term ty) : Prop := t.consts = []

/-- Closedness is a test on the list of constants. -/
instance {ty : Ty} (t : Term ty) : Decidable t.Closed := inferInstanceAs (Decidable (_ = _))

/-- The term with one constant replaced by a literal. -/
def subst (name : String) (k : Nat) (c : BitVec k) : {ty : Ty} → Term ty → Term ty
  | _, .const n w => if h : n = name ∧ w = k then .lit (h.2 ▸ c) else .const n w
  | _, .lit v => .lit v
  | _, .un op x => .un op (x.subst name k c)
  | _, .bin op x y => .bin op (x.subst name k c) (y.subst name k c)
  | _, .concat x y => .concat (x.subst name k c) (y.subst name k c)
  | _, .extract hi lo x => .extract hi lo (x.subst name k c)
  | _, .cmp op x y => .cmp op (x.subst name k c) (y.subst name k c)
  | _, .boolLit b => .boolLit b
  | _, .not x => .not (x.subst name k c)
  | _, .bool op x y => .bool op (x.subst name k c) (y.subst name k c)

/-- The value of a term depends on its constants only. -/
theorem eval_congr {ρ σ : Valuation} {ty : Ty} (t : Term ty)
    (h : ∀ c ∈ t.consts, ρ c.1 c.2 = σ c.1 c.2) : t.eval ρ = t.eval σ := by
  induction t with
  | const n w => exact h (n, w) (by simp [consts])
  | lit v => rfl
  | boolLit b => rfl
  | un op x ih => simp only [eval, ih h]
  | extract hi lo x ih => simp only [eval, ih h]
  | not x ih => simp only [eval, ih h]
  | bin op x y ihx ihy | concat x y ihx ihy | cmp op x y ihx ihy | bool op x y ihx ihy =>
    simp only [consts, List.mem_append] at h
    simp only [eval, ihx (fun c hc => h c (Or.inl hc)), ihy (fun c hc => h c (Or.inr hc))]

/-- A closed term has one value. -/
theorem Closed.eval_eq {ty : Ty} {t : Term ty} (h : t.Closed) (ρ σ : Valuation) :
    t.eval ρ = t.eval σ := by
  refine t.eval_congr ?_
  intro c hc
  rw [h] at hc
  exact absurd hc (by simp)

/-- The valuation changed at one constant. -/
def set (ρ : Valuation) (name : String) (k : Nat) (c : BitVec k) : Valuation :=
  fun n w => if h : n = name ∧ w = k then h.2 ▸ c else ρ n w

/-- The constant that was set has its new value. -/
theorem set_self (ρ : Valuation) (name : String) (k : Nat) (c : BitVec k) :
    set ρ name k c name k = c := by
  simp [set]

/-- Every other constant keeps its value. A constant is a name with a width, so one name at
two widths is two constants. -/
theorem set_of_ne (ρ : Valuation) {name n : String} {k w : Nat} (c : BitVec k)
    (h : (n, w) ≠ (name, k)) : set ρ name k c n w = ρ n w := by
  refine dif_neg ?_
  rintro ⟨rfl, rfl⟩
  exact h rfl

/-- Substituting a literal for a constant is giving the constant its value. -/
theorem eval_subst (ρ : Valuation) (name : String) (k : Nat) (c : BitVec k) {ty : Ty}
    (t : Term ty) : (t.subst name k c).eval ρ = t.eval (set ρ name k c) := by
  induction t with
  | const n w =>
    unfold subst
    split
    · rename_i h
      simp [eval, set, h]
    · rename_i h
      simp [eval, set, h]
  | lit v => rfl
  | boolLit b => rfl
  | un op x ih => simp only [subst, eval, ih]
  | extract hi lo x ih => simp only [subst, eval, ih]
  | not x ih => simp only [subst, eval, ih]
  | bin op x y ihx ihy | concat x y ihx ihy | cmp op x y ihx ihy | bool op x y ihx ihy =>
    simp only [subst, eval, ihx, ihy]

/-- Substitution removes exactly the given constant. -/
theorem consts_subst (name : String) (k : Nat) (c : BitVec k) {ty : Ty} (t : Term ty) :
    (t.subst name k c).consts = t.consts.filter (· ≠ (name, k)) := by
  induction t with
  | const n w =>
    unfold subst
    split
    · rename_i h
      simp [consts, h]
    · rename_i h
      simp only [consts]
      have hne : (n, w) ≠ (name, k) := fun heq => h (Prod.mk.inj heq)
      refine (List.filter_eq_self.2 ?_).symm
      intro x hx
      rw [List.mem_singleton.1 hx]
      exact decide_eq_true hne
  | lit v => rfl
  | boolLit b => rfl
  | un op x ih => simpa only [subst, consts] using ih
  | extract hi lo x ih => simpa only [subst, consts] using ih
  | not x ih => simpa only [subst, consts] using ih
  | bin op x y ihx ihy | concat x y ihx ihy | cmp op x y ihx ihy | bool op x y ihx ihy =>
    simp only [subst, consts, ihx, ihy, List.filter_append]

/-- A term is closed after a substitution exactly when the constant that was replaced is the
only one in it. -/
theorem closed_subst {name : String} {k : Nat} {c : BitVec k} {ty : Ty} {t : Term ty} :
    (t.subst name k c).Closed ↔ ∀ x ∈ t.consts, x = (name, k) := by
  simp [Closed, consts_subst, List.filter_eq_nil_iff]

end Term

/-! ## Simplification -/

/-- A simplification procedure for Boolean terms that preserves the value
and turns a closed term into a literal. Nothing is promised about which
open terms it can decide. -/
structure Simplifier where
  run : Term .bool → Term .bool
  sound : ∀ t ρ, (run t).eval ρ = t.eval ρ
  closed : ∀ t, t.Closed → ∃ b, run t = .boolLit b

namespace Simplifier

/-- The simplified term is the literal `true`. -/
def IsTrue (S : Simplifier) (t : Term .bool) : Prop := S.run t = .boolLit true

/-- The test after the simplification, as a proposition. -/
theorem isTrue_run (S : Simplifier) (t : Term .bool) : (S.run t).isTrue = true ↔ S.IsTrue t :=
  Term.isTrue_iff

/-- A term that simplifies to `true` holds everywhere. -/
theorem eval_of_isTrue {S : Simplifier} {t : Term .bool} (h : S.IsTrue t) (ρ : Valuation) :
    t.eval ρ = true := by
  rw [← S.sound t ρ, h]
  rfl

/-- On a closed term the simplifier decides. -/
theorem isTrue_of_closed {S : Simplifier} {t : Term .bool} (h : t.Closed) (ρ : Valuation) :
    S.IsTrue t ↔ t.eval ρ = true := by
  refine ⟨fun ht => eval_of_isTrue ht ρ, fun ht => ?_⟩
  obtain ⟨b, hb⟩ := S.closed t h
  have hval := S.sound t ρ
  rw [hb, ht] at hval
  rw [IsTrue, hb, show b = true from hval]

/-- The weakest simplifier: it evaluates closed terms and leaves every other
term as it is. -/
def closedOnly : Simplifier where
  run t := if t.Closed then .boolLit (t.eval fun _ _ => 0) else t
  sound t ρ := by
    split
    · rename_i h
      exact h.eval_eq _ _
    · rfl
  closed t h := ⟨_, if_pos h⟩

/-- The weakest simplifier finds only closed terms true. -/
theorem closed_of_closedOnly {t : Term .bool} (h : closedOnly.IsTrue t) : t.Closed := by
  by_contra hopen
  have hrun : t = .boolLit true := by
    have h' : (if t.Closed then Term.boolLit (t.eval fun _ _ => 0) else t) = .boolLit true := h
    rwa [if_neg hopen] at h'
  exact hopen (by rw [hrun]; rfl)

end Simplifier

/-! ## Terms of unknown sort -/

/-- A term together with its sort. -/
abbrev SomeTerm := Σ ty : Ty, Term ty

namespace SomeTerm

/-- A bit-vector constant; the width must be positive. -/
def const (name : String) (w : Nat) : Option SomeTerm :=
  if w = 0 then none else some ⟨.bv w, .const name w⟩

/-- A literal of the given width; the width must be positive. -/
def lit (v : Nat) (w : Nat) : Option SomeTerm :=
  if w = 0 then none else some ⟨.bv w, .lit (BitVec.ofNat w v)⟩

/-- An operation on a word. On a Boolean the call throws. -/
def un (op : UnOp) : SomeTerm → Option SomeTerm
  | ⟨.bv w, x⟩ => some ⟨.bv w, .un op x⟩
  | ⟨.bool, _⟩ => none

/-- Both arguments must be bit-vectors of one width. -/
def bin (op : BinOp) : SomeTerm → SomeTerm → Option SomeTerm
  | ⟨.bv v, x⟩, ⟨.bv w, y⟩ => if h : w = v then some ⟨.bv v, .bin op x (h ▸ y)⟩ else none
  | _, _ => none

/-- A comparison of two words of one width. -/
def cmp (op : CmpOp) : SomeTerm → SomeTerm → Option SomeTerm
  | ⟨.bv v, x⟩, ⟨.bv w, y⟩ => if h : w = v then some ⟨.bool, .cmp op x (h ▸ y)⟩ else none
  | _, _ => none

/-- The C++ operators for conjunction, disjunction and exclusive or serve
both sorts. -/
def bitwise (op : BinOp) (bop : BoolOp) : SomeTerm → SomeTerm → Option SomeTerm
  | ⟨.bool, x⟩, ⟨.bool, y⟩ => some ⟨.bool, .bool bop x y⟩
  | ⟨.bv v, x⟩, ⟨.bv w, y⟩ => bin op ⟨.bv v, x⟩ ⟨.bv w, y⟩
  | _, _ => none

/-- Two words side by side, the first one above. The widths may differ. -/
def concat : SomeTerm → SomeTerm → Option SomeTerm
  | ⟨.bv v, x⟩, ⟨.bv w, y⟩ => some ⟨.bv (v + w), .concat x y⟩
  | _, _ => none

/-- The bits from `hi` down to `lo`, which must be bits of the term. -/
def extract (hi lo : Nat) : SomeTerm → Option SomeTerm
  | ⟨.bv w, x⟩ => if lo ≤ hi ∧ hi < w then some ⟨.bv (hi - lo + 1), .extract hi lo x⟩ else none
  | ⟨.bool, _⟩ => none

/-- Comparison with the literal zero of the term's own width. -/
def cmpZero (op : CmpOp) : SomeTerm → Option SomeTerm
  | ⟨.bv _, x⟩ => some ⟨.bool, .cmp op x (.lit 0)⟩
  | ⟨.bool, _⟩ => none

/-- The negation of a Boolean. On a word the call throws. -/
def not : SomeTerm → Option SomeTerm
  | ⟨.bool, x⟩ => some ⟨.bool, .not x⟩
  | ⟨.bv _, _⟩ => none

/-- The constants of the term. -/
def consts (t : SomeTerm) : List (String × Nat) := t.2.consts

end SomeTerm

end BvTerm
