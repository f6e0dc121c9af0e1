import KRover.Proofs.VMCells

/-! # Conditions decided by the seeds

`EvalCondition` tries the seed of each symbol alone: one constant is replaced,
and what is left must simplify to `true`. Only the last symbol tried has a say.

`evalCondition_correct_iff`: under every simplifier the decision is the truth of
the condition exactly when the condition is false, or when the last symbol that
is tried is its only one.
-/

set_option autoImplicit false

namespace KRover

open BvTerm SymbolListMap

/-! ## Runs -/

/-- The machine, the map of `Z3Handler`, and the objects that were declared. -/
structure EvalState where
  vm : VMState
  symObjectsMap : List SYMemObject
  declared : List SYMemObject

/-- The states reached by declarations of seeded objects with different names,
by calls of `EvalCondition` and by anything else that happens to the
machine. -/
inductive EvalRun : EvalState → Prop where
  | new (ptRegs : MacReg) (symBitmap : PtIdx → BitVec 64) (concrete : Nat → BitVec 8) :
    EvalRun ⟨VMState.construct ptRegs symBitmap concrete, [], []⟩
  | createSYMemObject {st : EvalState} (h : EvalRun st) (addr size : Nat) (isSigned : Bool)
      (conVal : BitVec 64) (name : String) {ok : Bool} {vm' : VMState}
      (hsize : isAccessSize size = true) (hname : ∀ o ∈ st.declared, o.name ≠ name)
      (hst : st.vm.createSYMemObject addr size isSigned true conVal name = some (ok, vm')) :
    EvalRun ⟨vm', st.symObjectsMap,
      st.declared ++ [st.vm.newSYMemObject addr size isSigned true conVal name]⟩
  | evalCondition {st : EvalState} (h : EvalRun st) (S : Simplifier) (insnID : EntryID)
      {bExecute : Bool} {vm' : VMState} {symObjectsMap' : List SYMemObject}
      (hst : st.vm.evalCondition S st.symObjectsMap insnID
        = some (bExecute, vm', symObjectsMap')) :
    EvalRun ⟨vm', symObjectsMap', st.declared⟩
  | other {st : EvalState} (h : EvalRun st) (vm' : VMState)
      (hobjs : vm'.symMemObjects = st.vm.symMemObjects) :
    EvalRun ⟨vm', st.symObjectsMap, st.declared⟩

/-- The objects of the machine are among those declared, which are seeded and
have a known size. -/
structure ObjectsDeclared (st : EvalState) : Prop where
  declared : ∀ p ∈ st.vm.symMemObjects, p.2 ∈ st.declared
  seeded : ∀ o ∈ st.declared, o.hasSeed = true ∧ isAccessSize o.size = true

/-- A created object enters the registry. -/
theorem symMemObjects_createSYMemObject {vm vm' : VMState} {addr size : Nat}
    {isSigned hasSeed ok : Bool} {conVal : BitVec 64} {name : String}
    (hst : vm.createSYMemObject addr size isSigned hasSeed conVal name = some (ok, vm')) :
    vm'.symMemObjects = SYMemObjects.insert (hashTogether addr size)
      (vm.newSYMemObject addr size isSigned hasSeed conVal name) vm.symMemObjects := by
  rw [VMState.createSYMemObject, Option.bind_eq_bind, Option.bind_eq_some_iff] at hst
  obtain ⟨⟨ok', mem⟩, -, hout⟩ := hst
  obtain ⟨-, rfl⟩ := Prod.mk.inj (Option.some.inj hout)
  rfl

/-- To decide a condition leaves the registry alone. -/
theorem symMemObjects_evalCondition {S : Simplifier} {vm vm' : VMState}
    {symObjectsMap symObjectsMap' : List SYMemObject} {insnID : EntryID} {bExecute : Bool}
    (hst : vm.evalCondition S symObjectsMap insnID = some (bExecute, vm', symObjectsMap')) :
    vm'.symMemObjects = vm.symMemObjects := by
  rw [VMState.evalCondition, Option.bind_eq_bind, Option.bind_eq_some_iff] at hst
  obtain ⟨c, -, hst⟩ := hst
  split at hst
  · simp at hst
  · split at hst
    · simp at hst
    · obtain ⟨-, hout⟩ := Prod.mk.inj (Option.some.inj hst)
      rw [← (Prod.mk.inj hout).1]

/-- In every run the objects of the registry are those declared. -/
theorem EvalRun.objectsDeclared {st : EvalState} (h : EvalRun st) : ObjectsDeclared st := by
  induction h with
  | new ptRegs symBitmap concrete => exact ⟨by simp [VMState.construct], by simp⟩
  | @createSYMemObject st h addr size isSigned conVal name ok vm' hsize hname hst ih =>
    constructor
    · intro p hp
      rw [show (EvalState.mk vm' _ _).vm.symMemObjects = vm'.symMemObjects from rfl,
        symMemObjects_createSYMemObject hst] at hp
      rcases SYMemObjects.mem_insert hp with rfl | hold
      · exact List.mem_append_right _ (List.mem_singleton_self _)
      · exact List.mem_append_left _ (ih.declared p hold)
    · intro o ho
      rcases List.mem_append.1 ho with hold | hnew
      · exact ih.seeded o hold
      · rw [List.mem_singleton.1 hnew]
        exact ⟨rfl, hsize⟩
  | evalCondition h S insnID hst ih =>
    refine ⟨fun p hp => ih.declared p ?_, ih.seeded⟩
    rw [← symMemObjects_evalCondition hst]
    exact hp
  | other h vm' hobjs ih =>
    refine ⟨fun p hp => ih.declared p ?_, ih.seeded⟩
    rw [← hobjs]
    exact hp

/-! ## The symbol that is tried last -/

/-- Every object has its seed as its value. -/
def Seeds (ρ : Valuation) (objs : List SYMemObject) : Prop :=
  ∀ o ∈ objs, ρ o.name (o.size * 8) = o.value

/-- The last object of `m_SYMemObjects` that is in `symObjectsMap` when a
condition has been translated. -/
def EvalState.lastTried (st : EvalState) (c : Expr) : Option SYMemObject :=
  ((st.vm.symMemObjects.map (·.2)).filter fun o =>
    (st.symObjectsMap ++ metObjects c).any (·.id = o.id)).getLast?

/-- A loop that overwrites its result keeps the last one. -/
theorem foldl_overwrite {α β : Type} (p : α → Bool) (f : α → β) (init : β) (L : List α) :
    L.foldl (fun ret a => if p a then f a else ret) init
      = ((L.filter p).getLast?.map f).getD init := by
  induction L using List.reverseRecOn with
  | nil => rfl
  | append_singleton L a ih =>
    rw [List.foldl_append, List.foldl_cons, List.foldl_nil, List.filter_append]
    cases hp : p a with
    | true => simp [hp]
    | false => simp [hp, ih]

/-- The loop returns what the last symbol gives, or `false`. -/
theorem z3EvaluateAll_eq {st : EvalState} (h : ObjectsDeclared st) (S : Simplifier)
    (exprs : Term .bool) (c : Expr) :
    z3EvaluateAll S exprs (st.symObjectsMap ++ metObjects c)
        ((st.vm.symMemObjects.map (·.2)).filter (·.hasSeed))
      = ((st.lastTried c).map (z3ExpressionEvaluator S exprs)).getD false := by
  have hall : ∀ o ∈ st.vm.symMemObjects.map (·.2),
      o.hasSeed = true ∧ isAccessSize o.size = true := by
    intro o ho
    obtain ⟨p, hp, rfl⟩ := List.mem_map.1 ho
    exact h.seeded p.2 (h.declared p hp)
  rw [z3EvaluateAll, foldl_overwrite, EvalState.lastTried, List.filter_filter]
  have hfilter : (st.vm.symMemObjects.map (·.2)).filter (fun o =>
        ((o.size = 1 || o.size = 2 || o.size = 4 || o.size = 8)
          && (st.symObjectsMap ++ metObjects c).any (·.id = o.id)) && o.hasSeed)
      = (st.vm.symMemObjects.map (·.2)).filter fun o =>
        (st.symObjectsMap ++ metObjects c).any (·.id = o.id) := by
    refine List.filter_congr fun o ho => ?_
    obtain ⟨hseed, hsize⟩ := hall o ho
    have hsize : (o.size = 1 || o.size = 2 || o.size = 4 || o.size = 8) = true := hsize
    rw [hseed, hsize, Bool.true_and, Bool.and_true]
  rw [hfilter]

/-- The symbol that is tried last was declared. -/
theorem EvalState.lastTried_declared {st : EvalState} (h : ObjectsDeclared st) {c : Expr}
    {s : SYMemObject} (hs : st.lastTried c = some s) : s ∈ st.declared := by
  have hmem := List.mem_of_getLast? hs
  obtain ⟨p, hp, rfl⟩ := List.mem_map.1 (List.mem_filter.1 hmem).1
  exact h.declared p hp

/-! ## One symbol -/

variable {ρ : Valuation}

/-- Giving a symbol its seed changes nothing where it has it. -/
theorem eval_subst_seed {obj : SYMemObject} (hρ : ρ obj.name (obj.size * 8) = obj.value)
    (t : Term .bool) : (t.subst obj.name (obj.size * 8) obj.value).eval ρ = t.eval ρ := by
  rw [Term.eval_subst]
  refine t.eval_congr fun c _ => ?_
  by_cases hc : (c.1, c.2) = (obj.name, obj.size * 8)
  · obtain ⟨h1, h2⟩ := Prod.mk.inj hc
    obtain ⟨n, w⟩ := c
    obtain rfl : n = obj.name := h1
    obtain rfl : w = obj.size * 8 := h2
    rw [Term.set_self, hρ]
  · exact Term.set_of_ne ρ _ hc

/-- What is found true with the seed of one symbol is true. -/
theorem eval_of_evaluator {S : Simplifier} {obj : SYMemObject} {t : Term .bool}
    (hρ : ρ obj.name (obj.size * 8) = obj.value) (h : z3ExpressionEvaluator S t obj = true) :
    t.eval ρ = true := by
  rw [← eval_subst_seed hρ t]
  exact Simplifier.eval_of_isTrue ((Simplifier.isTrue_run S _).1 h) ρ

/-- With the only symbol replaced the simplifier decides. -/
theorem evaluator_of_only {S : Simplifier} {obj : SYMemObject} {t : Term .bool}
    (hρ : ρ obj.name (obj.size * 8) = obj.value)
    (honly : ∀ x ∈ t.consts, x = (obj.name, obj.size * 8)) (h : t.eval ρ = true) :
    z3ExpressionEvaluator S t obj = true := by
  have hclosed : (t.subst obj.name (obj.size * 8) obj.value).Closed := Term.closed_subst.2 honly
  refine (Simplifier.isTrue_run S _).2 ((Simplifier.isTrue_of_closed hclosed ρ).2 ?_)
  rw [eval_subst_seed hρ]
  exact h

/-- The weakest simplifier needs the symbol to be the only one. -/
theorem only_of_evaluator {obj : SYMemObject} {t : Term .bool}
    (h : z3ExpressionEvaluator Simplifier.closedOnly t obj = true) :
    ∀ x ∈ t.consts, x = (obj.name, obj.size * 8) :=
  Term.closed_subst.1 (Simplifier.closed_of_closedOnly ((Simplifier.isTrue_run _ _).1 h))

/-! ## The decision -/

/-- `EvalCondition` returns the truth of the condition under the valuation, and
the constraint that it adds, the condition or its negation, is true under it. -/
def EvalCorrect (S : Simplifier) (ρ : Valuation) (st : EvalState) (insnID : EntryID) (c : Expr) :
    Prop :=
  ∃ b vm' symObjectsMap' e,
    st.vm.evalCondition S st.symObjectsMap insnID = some (b, vm', symObjectsMap') ∧
    exprTruth ρ c = some b ∧
    vm'.eflagsMgr.constraint = st.vm.eflagsMgr.constraint ++ [e] ∧
    (e = c ∨ e = .ury .lNot c c.getExprSize) ∧ exprTruth ρ e = some true

/-- A condition that has a truth is translated to a term of booleans, which has that value. -/
theorem exprTruth_eq_some {c : Expr} {b : Bool} (h : exprTruth ρ c = some b) :
    ∃ t, z3HandlingExprPtr c = .ok ⟨.bool, t⟩ ∧ t.eval ρ = b := by
  rw [exprTruth] at h
  split at h
  · rename_i t ht
    exact ⟨t, ht, Option.some.inj h⟩
  · simp at h

/-- A condition that is translated so has the truth of its term. -/
theorem exprTruth_of_z3 {c : Expr} {t : Term .bool} (h : z3HandlingExprPtr c = .ok ⟨.bool, t⟩) :
    exprTruth ρ c = some (t.eval ρ) := by
  rw [exprTruth, h]

/-- The negation of a condition has the other truth. -/
theorem exprTruth_lNot {c : Expr} {t : Term .bool} (h : z3HandlingExprPtr c = .ok ⟨.bool, t⟩)
    (size : Nat) : exprTruth ρ (.ury .lNot c size) = some !t.eval ρ := by
  refine exprTruth_of_z3 (t := .not t) ?_
  rw [z3HandlingExprPtr, h]
  rfl

/-- What `EvalCondition` decides of a condition that translates. -/
theorem evalCondition_eq {st : EvalState} (h : ObjectsDeclared st) {insnID : EntryID} {c : Expr}
    {t : Term .bool} (hget : st.vm.eflagsMgr.getCondition insnID = some c)
    (ht : z3HandlingExprPtr c = .ok ⟨.bool, t⟩) (S : Simplifier) {b : Bool}
    (hb : ((st.lastTried c).map
      (z3ExpressionEvaluator S (.bool .and (.boolLit true) t))).getD false = b) :
    st.vm.evalCondition S st.symObjectsMap insnID = some (b,
      { st.vm with eflagsMgr := { st.vm.eflagsMgr with
          constraint := st.vm.eflagsMgr.constraint
            ++ [if b then c else .ury .lNot c c.getExprSize] } },
      st.symObjectsMap ++ metObjects c) := by
  have hnull : c.isNull = false := by
    cases c with
    | null => simp [z3HandlingExprPtr] at ht
    | udef | const | bin | ury | shrd | combine | extract | combineMulti => rfl
  have hsolve : z3SolveConcritize S st.symObjectsMap (st.vm.symMemObjects.map (·.2)) c
      = .ok (b, st.symObjectsMap ++ metObjects c) := by
    rw [z3SolveConcritize, ht, ← hb, ← z3EvaluateAll_eq h]
    rfl
  simp only [VMState.evalCondition, hget, Option.bind_eq_bind, Option.bind_some, hnull, hsolve,
    Bool.false_eq_true, if_false]
  rfl

/-- A condition that every simplifier decides right is false, or the symbol that
is tried last is its only one. -/
theorem EvalCorrect.decided {st : EvalState} (h : ObjectsDeclared st) {insnID : EntryID} {c : Expr}
    (hget : st.vm.eflagsMgr.getCondition insnID = some c)
    (hall : ∀ S, EvalCorrect S ρ st insnID c) :
    ∃ t, z3HandlingExprPtr c = .ok ⟨.bool, t⟩ ∧
      (t.eval ρ = false ∨ ∃ s, st.lastTried c = some s ∧
        ∀ x ∈ t.consts, x = (s.name, s.size * 8)) := by
  obtain ⟨b, vm', map', e, hst, htruth, -, -, -⟩ := hall Simplifier.closedOnly
  obtain ⟨t, ht, hval⟩ := exprTruth_eq_some htruth
  refine ⟨t, ht, ?_⟩
  rw [evalCondition_eq h hget ht Simplifier.closedOnly rfl] at hst
  have hb := (Prod.mk.inj (Option.some.inj hst)).1
  cases b with
  | false => exact Or.inl hval
  | true =>
    -- the answer is that of the symbol tried last, which must be the only one
    cases hlast : st.lastTried c with
    | none => simp [hlast] at hb
    | some s =>
      rw [hlast] at hb
      exact Or.inr ⟨s, rfl, fun x hx => only_of_evaluator hb x (by simpa [Term.consts] using hx)⟩

/-- Such a condition is decided right. -/
theorem evalCorrect_of_decided {st : EvalState} (h : ObjectsDeclared st) (hρ : Seeds ρ st.declared)
    {insnID : EntryID} {c : Expr} (hget : st.vm.eflagsMgr.getCondition insnID = some c)
    {t : Term .bool} (ht : z3HandlingExprPtr c = .ok ⟨.bool, t⟩)
    (hcond : t.eval ρ = false ∨ ∃ s, st.lastTried c = some s ∧
      ∀ x ∈ t.consts, x = (s.name, s.size * 8)) (S : Simplifier) :
    EvalCorrect S ρ st insnID c := by
  have hdecides : ((st.lastTried c).map
      (z3ExpressionEvaluator S (.bool .and (.boolLit true) t))).getD false = t.eval ρ := by
    cases hval : t.eval ρ with
    | true =>
      obtain ⟨s, hlast, honly⟩ := hcond.resolve_left (by simp [hval])
      have hs := hρ s (EvalState.lastTried_declared h hlast)
      rw [hlast]
      exact evaluator_of_only hs (by simpa [Term.consts] using honly)
        (by simp [Term.eval, BoolOp.eval, hval])
    | false =>
      cases hlast : st.lastTried c with
      | none => rfl
      | some s =>
        -- a symbol that makes the condition true proves it true
        have hs := hρ s (EvalState.lastTried_declared h hlast)
        cases hans : z3ExpressionEvaluator S (.bool .and (.boolLit true) t) s with
        | false => simp [hans]
        | true =>
          have htrue := eval_of_evaluator hs hans
          simp [Term.eval, BoolOp.eval, hval] at htrue
  refine ⟨_, _, _, _, evalCondition_eq h hget ht S hdecides, exprTruth_of_z3 ht, rfl, ?_, ?_⟩
  · cases t.eval ρ with
    | true => exact Or.inl rfl
    | false => exact Or.inr rfl
  · cases hval : t.eval ρ with
    | true =>
      show exprTruth ρ c = some true
      rw [exprTruth_of_z3 ht, hval]
    | false =>
      show exprTruth ρ (.ury .lNot c _) = some true
      rw [exprTruth_lNot ht, hval]
      rfl

/-- The decision is right under every simplifier exactly when the condition is one, and is
false or has no symbol but the one that is tried last. The condition is evaluated once for
each object that has a seed, with that object's constant replaced alone, and the last answer
stands. What the simplifier makes of a term that is left with another constant is its own
affair, so the decision must hold for all of them. -/
theorem evalCondition_correct_iff {st : EvalState} (h : EvalRun st) (hρ : Seeds ρ st.declared)
    {insnID : EntryID} {c : Expr} (hget : st.vm.eflagsMgr.getCondition insnID = some c) :
    (∀ S, EvalCorrect S ρ st insnID c) ↔
      ∃ t, z3HandlingExprPtr c = .ok ⟨.bool, t⟩ ∧
        (t.eval ρ = false ∨ ∃ s, st.lastTried c = some s ∧
          ∀ x ∈ t.consts, x = (s.name, s.size * 8)) := by
  have hobjs := h.objectsDeclared
  constructor
  · exact EvalCorrect.decided hobjs hget
  · intro ⟨t, ht, hcond⟩
    exact evalCorrect_of_decided hobjs hρ hget ht hcond

/-! ## One symbol and two -/

/-- A symbol can be declared at the start of a chunk. -/
theorem exists_createSYMemObject {vm : VMState} (h : MemCells vm.mem) (addr size : Nat)
    (hwidth : isAccessSize size = true) (hmapped : VMState.mapped addr size = true)
    (hin : SYMemState.insideHalfChunk addr size = true) (conVal : BitVec 64) (name : String) :
    ∃ vm', vm.createSYMemObject addr size false true conVal name = some (true, vm') ∧
      MemCells vm'.mem := by
  let obj := vm.newSYMemObject addr size false true conVal name
  let V : MemValue := ⟨addr, size, true, false, 0, Expr.udefExpr (some obj), []⟩
  have hr : AccessRange V.addr V.size := accessRange_of_mapped hwidth hmapped
  obtain ⟨mem, hmem, hcells, -⟩ := h.exists_writeExpr (V := V) hr rfl rfl hin
  refine ⟨{ vm.addSYMemObject (hashTogether addr size) obj rfl with mem := mem }, ?_, hcells⟩
  show (vm.mem.writeMemoryCell V >>= _) = _
  rw [hmem]
  rfl

/-- The state after the operands `a` and `b` of one byte were compared. -/
def VMState.compared (vm : VMState) (a b : Expr) : VMState :=
  { vm with eflagsMgr := ⟨Expr.binExpr .sub a b, []⟩ }

/-- `cmp S, 5` and `je`, where the seed of `S` is 5. There is one symbol, and it is the one
that is tried. -/
theorem evalCondition_correct_one : ∃ st c, EvalRun st ∧ st.declared.length = 1 ∧
    st.vm.eflagsMgr.getCondition .je = some c ∧
    ∀ S, EvalCorrect S (fun _ w => BitVec.ofNat w 5) st .je c := by
  let vm₀ := VMState.new (fun _ => 0) fun _ => 0
  let x := vm₀.newSYMemObject 4096 1 false true 5 "S"
  obtain ⟨vm₁, hst, -⟩ := exists_createSYMemObject (show MemCells vm₀.mem from memCells_new _)
    4096 1
    (by decide) (by decide) (by decide) 5 "S"
  have hrun := (EvalRun.new (fun _ => 0) (fun _ => 0) fun _ => 0).createSYMemObject
    4096 1 false 5 "S" (by decide) (by simp) hst
  have hobjs : vm₁.symMemObjects = [(hashTogether 4096 1, x)] :=
    symMemObjects_createSYMemObject hst
  let vm₂ := vm₁.compared (Expr.udefExpr (some x)) (Expr.constExpr 5 1)
  refine ⟨_, _, hrun.other vm₂ rfl, rfl, rfl, ?_⟩
  refine (evalCondition_correct_iff (hrun.other vm₂ rfl) ?_ rfl).2 ⟨_, rfl, Or.inr ⟨x, ?_, ?_⟩⟩
  · intro o ho
    rw [List.mem_singleton.1 ho]
    rfl
  · rw [EvalState.lastTried]
    show ((vm₁.symMemObjects.map _).filter _).getLast? = _
    rw [hobjs]
    rfl
  · intro c hc
    exact List.mem_singleton.1 hc

/-- `cmp S, T` and `je` with two symbols whose seeds are equal: no seed alone
decides the condition, and the decision is `false`. -/
theorem not_evalCondition_correct_two : ¬ ∀ (S : Simplifier) (ρ : Valuation) (st : EvalState)
    (insnID : EntryID) (c : Expr), EvalRun st → Seeds ρ st.declared →
    st.vm.eflagsMgr.getCondition insnID = some c → (∀ o ∈ metObjects c, o ∈ st.declared) →
    EvalCorrect S ρ st insnID c := by
  intro hall
  let vm₀ := VMState.new (fun _ => 0) fun _ => 0
  let x := vm₀.newSYMemObject 4096 1 false true 5 "S"
  obtain ⟨vm₁, hst₁, hmem⟩ := exists_createSYMemObject (show MemCells vm₀.mem from memCells_new _)
    4096 1
    (by decide) (by decide) (by decide) 5 "S"
  let y := vm₁.newSYMemObject 4097 1 false true 5 "T"
  obtain ⟨vm₂, hst₂, -⟩ := exists_createSYMemObject hmem 4097 1
    (by decide) (by decide) (by decide) 5 "T"
  have hrun₁ := (EvalRun.new (fun _ => 0) (fun _ => 0) fun _ => 0).createSYMemObject
    4096 1 false 5 "S" (by decide) (by simp) hst₁
  have hrun₂ := hrun₁.createSYMemObject 4097 1 false 5 "T" (by decide)
    (by intro o ho; rw [List.mem_singleton.1 ho]; decide) hst₂
  have hobjs : vm₂.symMemObjects = [(hashTogether 4096 1, x), (hashTogether 4097 1, y)] := by
    rw [symMemObjects_createSYMemObject hst₂, symMemObjects_createSYMemObject hst₁]
    rfl
  let vm₃ := vm₂.compared (Expr.udefExpr (some x)) (Expr.udefExpr (some y))
  let ρ : Valuation := fun _ w => BitVec.ofNat w 5
  have hseeds : Seeds ρ [x, y] := by
    intro o ho
    rcases List.mem_cons.1 ho with rfl | ho
    · rfl
    · rw [List.mem_singleton.1 ho]
      rfl
  have hrun := hrun₂.other vm₃ rfl
  have hright := fun S => hall S ρ _ .je _ hrun hseeds rfl (by
    intro o ho
    exact ho)
  obtain ⟨t, ht, hcond⟩ := EvalCorrect.decided hrun.objectsDeclared rfl hright
  let u : Term .bool := .cmp .eq (.bin .sub (.const "S" 8) (.const "T" 8)) (.lit 0#8)
  have hu : (.ok ⟨.bool, u⟩ : Z3Result) = .ok ⟨.bool, t⟩ := ht
  obtain rfl : u = t := eq_of_heq (Sigma.mk.inj (Except.ok.inj hu)).2
  rcases hcond with hfalse | ⟨s, hlast, honly⟩
  · have htrue : u.eval ρ = true := by decide
    exact Bool.false_ne_true (hfalse.symm.trans htrue)
  · -- the second symbol is tried last, and the first one is left
    have hy : ([x, y].filter fun o => [x, y].any (·.id = o.id)).getLast? = some y := by simp
    rw [EvalState.lastTried] at hlast
    have hlast : ((vm₂.symMemObjects.map (·.2)).filter fun o =>
        [x, y].any (·.id = o.id)).getLast? = some s := hlast
    rw [hobjs] at hlast
    have hname := honly ("S", 8) (List.mem_cons_self)
    rw [← Option.some.inj (hy.symm.trans hlast)] at hname
    have hname : "S" = "T" := (Prod.mk.inj hname).1
    exact absurd hname (by decide)

end KRover
