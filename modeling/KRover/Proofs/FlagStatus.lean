import KRover.EFlagsManager

/-! # The status of a flag

`FlagOp` is a call that changes flags, and `record` what a reader of the calls
expects of each flag afterwards: the status written last, and the bit of
`eflags` after `clearAllSymFlag`. `StatusLaw` says that the state agrees.

`setFlagBit` with `SET` or `CLEAR` changes the bit of `eflags` and leaves the
uncertainty mark. So the law breaks at the first such call on an uncertain
flag, and at no other (`statusLawOver_iff`); and `ConcreteFlag` decides a
condition exactly when its flags were definite before the call
(`dependencyFlagConcreted_concreteFlag_iff`).
-/

set_option autoImplicit false

namespace KRover

open SYCPUState EFlagsManager

/-! ## One flag -/

/-- Different flags have different bits. -/
theorem Flag.bit_inj {f g : Flag} (h : f.bit = g.bit) : f = g := by
  cases f <;> cases g <;> first | rfl | exact absurd h (by decide)

/-- Each of them is a bit of the word of the flags. -/
theorem Flag.bit_lt (f : Flag) : f.bit < 64 := by
  cases f <;> decide

/-- The single bit that `setFlagBit` sets or clears. -/
theorem getLsbD_one_shiftLeft (f g : Flag) :
    (1#64 <<< f.bit).getLsbD g.bit = decide (g = f) := by
  have hlt := g.bit_lt
  by_cases hgf : g = f
  · subst hgf
    simp [hlt]
  · have hne : g.bit ≠ f.bit := fun h => hgf (Flag.bit_inj h)
    by_cases hle : f.bit ≤ g.bit
    · have hpos : g.bit - f.bit ≠ 0 := by omega
      simp [hgf, hlt, hpos]
    · simp [hgf, hlt, hle]

namespace SYCPUState

variable (st : SYCPUState) (f g : Flag)

/-- The bit of `eflags` that holds a flag. -/
def eflagsBit : FlagStat :=
  if (st.ptRegs .efl).getLsbD f.bit then .set else .clear

/-- A marked flag is uncertain, and any other is its bit. -/
theorem getFlagBit_eq : st.getFlagBit f = if st.bsymFlag f then .uncertain else st.eflagsBit f :=
  rfl

/-- A bit is set or clear. -/
theorem eflagsBit_ne_uncertain : st.eflagsBit f ≠ .uncertain := by
  unfold eflagsBit
  split <;> decide

/-- `SET` and `CLEAR` reach the bit of `eflags` of their flag only. -/
theorem eflagsBit_setFlagBit (s : FlagStat) :
    (st.setFlagBit f s).eflagsBit g
      = if g = f ∧ s ≠ .uncertain then s else st.eflagsBit g := by
  have hlt := g.bit_lt
  cases s with
  | uncertain =>
    rw [if_neg (fun h => h.2 rfl)]
    rfl
  | set =>
    unfold eflagsBit
    simp only [setFlagBit, setWord, Function.update_self, BitVec.getLsbD_or, getLsbD_one_shiftLeft]
    by_cases hgf : g = f <;> simp [hgf]
  | clear =>
    unfold eflagsBit
    simp only [setFlagBit, setWord, Function.update_self, BitVec.getLsbD_and, BitVec.getLsbD_not,
      getLsbD_one_shiftLeft]
    by_cases hgf : g = f <;> simp [hgf, hlt]

/-- Only `UNCERTAIN` touches the mark; nothing but `clearAllSymFlag` takes it
away. -/
theorem bsymFlag_setFlagBit (s : FlagStat) :
    (st.setFlagBit f s).bsymFlag g = (st.bsymFlag g || decide (g = f ∧ s = .uncertain)) := by
  cases s with
  | uncertain =>
    by_cases hgf : g = f
    · simp [setFlagBit, hgf]
    · simp [setFlagBit, hgf]
  | set => simp [setFlagBit, setWord]
  | clear => simp [setFlagBit, setWord]

/-- What a flag reads as after `setFlagBit`. -/
theorem getFlagBit_setFlagBit (s : FlagStat) :
    (st.setFlagBit f s).getFlagBit g
      = if g = f then (if st.bsymFlag f then .uncertain else s) else st.getFlagBit g := by
  rw [getFlagBit_eq, getFlagBit_eq, bsymFlag_setFlagBit, eflagsBit_setFlagBit]
  by_cases hgf : g = f
  · subst hgf
    cases s <;> simp
  · simp [hgf]

/-- A flag is definite when it does not read as uncertain. -/
theorem flagBitDefinited_iff : st.flagBitDefinited f = true ↔
    st.getFlagBit f = .set ∨ st.getFlagBit f = .clear := by
  rw [flagBitDefinited, getFlagBit_eq]
  cases hsym : st.bsymFlag f with
  | true => simp
  | false =>
    have hne := st.eflagsBit_ne_uncertain f
    cases hbit : st.eflagsBit f <;> simp_all

end SYCPUState

/-! ## Sequences of calls -/

/-- The flags manager and the registers it works on. -/
abbrev FlagState := EFlagsManager × SYCPUState

/-- A call that changes flags. -/
inductive FlagOp where
  | setFlagBit (f : Flag) (s : FlagStat)
  | saveFlagChangingInstructionExpr (instrID : EntryID) (exprPtr : Expr)
  | clearAllSymFlag

/-- What flags each status was last written to. -/
abbrev FlagRecord := Flag → FlagStat

/-- The six flags that a flag-changing instruction leaves uncertain. -/
def changedFlags : List Flag := [.zf, .cf, .of, .af, .pf, .sf]

namespace FlagOp

/-- The call. -/
def apply : FlagOp → FlagState → FlagState
  | .setFlagBit f s, (mgr, cpu) => (mgr, cpu.setFlagBit f s)
  | .saveFlagChangingInstructionExpr id e, (mgr, cpu) =>
    (mgr.saveFlagChangingInstructionExpr cpu id e).2
  | .clearAllSymFlag, (mgr, cpu) => (mgr, cpu.clearAllSymFlag)

/-- What the call writes. -/
def record : FlagOp → FlagState → FlagRecord → FlagRecord
  | .setFlagBit f s, _, last => Function.update last f s
  | .saveFlagChangingInstructionExpr id _, _, last =>
    if isFlagChangingInstr id || isFlagSettingInstr id then
      fun g => if g ∈ changedFlags then .uncertain else last g
    else last
  | .clearAllSymFlag, (_, cpu), _ => cpu.eflagsBit

/-- `SET` and `CLEAR` are written to definite flags only. -/
def Definite (cpu : SYCPUState) : FlagOp → Prop
  | .setFlagBit f s => s ≠ .uncertain → cpu.flagBitDefinited f = true
  | _ => True

end FlagOp

/-- Every flag reads as the status last written to it, and is definite exactly
when that status is. -/
def StatusLaw (σ : FlagState) (last : FlagRecord) : Prop :=
  ∀ f, σ.2.getFlagBit f = last f ∧
    (σ.2.flagBitDefinited f = true ↔ last f = .set ∨ last f = .clear)

/-- The law in every state of a sequence of calls. -/
def StatusLawOver : List FlagOp → FlagState → FlagRecord → Prop
  | [], σ, last => StatusLaw σ last
  | op :: ops, σ, last => StatusLaw σ last ∧ StatusLawOver ops (op.apply σ) (op.record σ last)

/-- The condition at every call of a sequence. -/
def DefiniteOver : List FlagOp → FlagState → Prop
  | [], _ => True
  | op :: ops, σ => op.Definite σ.2 ∧ DefiniteOver ops (op.apply σ)

/-- The second half of the law follows from the first. -/
theorem statusLaw_iff {σ : FlagState} {last : FlagRecord} :
    StatusLaw σ last ↔ σ.2.getFlagBit = last := by
  constructor
  · intro h
    exact funext fun f => (h f).1
  · intro h f
    rw [← h]
    exact ⟨rfl, σ.2.flagBitDefinited_iff f⟩

/-- What a flag reads as after a flag-changing instruction was saved. -/
theorem getFlagBit_save (mgr : EFlagsManager) (cpu : SYCPUState) (id : EntryID) (e : Expr)
    (g : Flag) : (mgr.saveFlagChangingInstructionExpr cpu id e).2.2.getFlagBit g
      = if (isFlagChangingInstr id || isFlagSettingInstr id) = true ∧ g ∈ changedFlags
        then .uncertain else cpu.getFlagBit g := by
  unfold saveFlagChangingInstructionExpr
  split
  · rename_i hattr
    show ((((((cpu.setFlagBit .zf .uncertain).setFlagBit .cf .uncertain).setFlagBit .of
      .uncertain).setFlagBit .af .uncertain).setFlagBit .pf .uncertain).setFlagBit .sf
      .uncertain).getFlagBit g = _
    simp only [getFlagBit_setFlagBit, ite_self, hattr, true_and]
    cases g <;> simp [changedFlags]
  · rename_i hattr
    simp [hattr]

/-- Without marks every flag is its bit. -/
theorem getFlagBit_clearAllSymFlag (cpu : SYCPUState) (g : Flag) :
    cpu.clearAllSymFlag.getFlagBit g = cpu.eflagsBit g := by
  rw [getFlagBit_eq]
  rfl

/-- One call keeps the law exactly when it meets the condition. -/
theorem statusLaw_apply_iff {op : FlagOp} {σ : FlagState} {last : FlagRecord}
    (h : StatusLaw σ last) : StatusLaw (op.apply σ) (op.record σ last) ↔ op.Definite σ.2 := by
  rw [statusLaw_iff] at h ⊢
  obtain ⟨mgr, cpu⟩ := σ
  have hread : ∀ g, cpu.getFlagBit g = last g := fun g => congrFun h g
  cases op with
  | setFlagBit f s =>
    show (cpu.setFlagBit f s).getFlagBit = Function.update last f s ↔
      (s ≠ .uncertain → cpu.flagBitDefinited f = true)
    constructor
    · intro heq hs
      -- at `f` itself the new status must have arrived
      have hself := congrFun heq f
      rw [getFlagBit_setFlagBit, Function.update_self, if_pos rfl] at hself
      cases hsym : cpu.bsymFlag f with
      | true => exact absurd (by simpa [hsym] using hself.symm) hs
      | false => simp [flagBitDefinited, hsym]
    · intro hdef
      funext g
      rw [getFlagBit_setFlagBit]
      by_cases hgf : g = f
      · subst hgf
        rw [if_pos rfl, Function.update_self]
        by_cases hs : s = .uncertain
        · simp [hs]
        · have hsym : cpu.bsymFlag g = false := by simpa [flagBitDefinited] using hdef hs
          simp [hsym]
      · rw [if_neg hgf, Function.update_of_ne hgf, hread]
  | saveFlagChangingInstructionExpr id e =>
    refine iff_of_true (funext fun g => ?_) trivial
    show (mgr.saveFlagChangingInstructionExpr cpu id e).2.2.getFlagBit g = _
    rw [getFlagBit_save, hread, FlagOp.record]
    cases hattr : (isFlagChangingInstr id || isFlagSettingInstr id) <;> simp
  | clearAllSymFlag =>
    exact iff_of_true (funext fun g => getFlagBit_clearAllSymFlag cpu g) trivial

/-- A sequence keeps the law in all its states exactly when each call meets
the condition. -/
theorem statusLawOver_iff (ops : List FlagOp) {σ : FlagState} {last : FlagRecord}
    (h : StatusLaw σ last) : StatusLawOver ops σ last ↔ DefiniteOver ops σ := by
  induction ops generalizing σ last with
  | nil => exact iff_of_true h trivial
  | cons op ops ih =>
    rw [StatusLawOver, DefiniteOver]
    constructor
    · intro ⟨_, hrest⟩
      -- the law in the next state is the first thing the rest says
      have hnext : StatusLaw (op.apply σ) (op.record σ last) := by
        cases ops with
        | nil => exact hrest
        | cons _ _ => exact hrest.1
      exact ⟨(statusLaw_apply_iff h).1 hnext, (ih hnext).1 hrest⟩
    · intro ⟨hop, hrest⟩
      have hnext := (statusLaw_apply_iff h).2 hop
      exact ⟨h, (ih hnext).2 hrest⟩

/-! ## Fixing the flags of a condition -/

/-- What `ConcreteFlag` writes at a label. -/
def fixedFlags : CondCase → Bool → List (Flag × FlagStat)
  | .nb, b => [(.cf, if b then .clear else .set)]
  | .nbe, true => [(.cf, .clear), (.zf, .clear)]
  | .b, b => [(.cf, if b then .set else .clear)]
  | .g, true => [(.zf, .clear)]
  | .le, b => [(.zf, if b then .set else .clear)]
  | .e, b => [(.zf, if b then .set else .clear)]
  | .ne, b => [(.zf, if b then .clear else .set)]
  | .ns, b => [(.sf, if b then .clear else .set)]
  | .s, b => [(.sf, if b then .set else .clear)]
  | .no, b => [(.of, if b then .clear else .set)]
  | .o, b => [(.of, if b then .set else .clear)]
  | .nbe, false | .be, _ | .ge, _ | .g, false | .l, _ => []

/-- `ConcreteFlag` forces the flags of a case one after the other. -/
theorem concreteFlagCase_eq (cpu : SYCPUState) (c : CondCase) (b : Bool) :
    concreteFlagCase cpu c b
      = (fixedFlags c b).foldl (fun cpu (f, s) => cpu.setFlagBit f s) cpu := by
  cases c <;> cases b <;> rfl

/-- `ConcreteFlag` fixes every flag the condition depends on. -/
def FixesAll (c : CondCase) (b : Bool) : Prop :=
  ∀ f ∈ dependencyFlags c, f ∈ (fixedFlags c b).map Prod.fst

/-- There are six flags, so a case is looked through. -/
instance (c : CondCase) (b : Bool) : Decidable (FixesAll c b) :=
  inferInstanceAs (Decidable (∀ f ∈ dependencyFlags c, f ∈ (fixedFlags c b).map Prod.fst))

/-- No mark goes away, whatever is fixed. -/
theorem flagBitDefinited_concreteFlagCase (cpu : SYCPUState) (c : CondCase) (b : Bool)
    (g : Flag) : (concreteFlagCase cpu c b).flagBitDefinited g = cpu.flagBitDefinited g := by
  unfold flagBitDefinited
  cases c <;> cases b <;> simp [concreteFlagCase, bsymFlag_setFlagBit]

/-- Definite flags read back as the decision they were fixed to. -/
theorem decideCase_concreteFlagCase {cpu : SYCPUState} {c : CondCase} {b : Bool}
    (hfix : FixesAll c b) (hdef : ∀ f ∈ dependencyFlags c, cpu.flagBitDefinited f = true) :
    decideCase (concreteFlagCase cpu c b) c = b := by
  have hsym : ∀ f ∈ dependencyFlags c, cpu.bsymFlag f = false := by
    intro f hf
    simpa [flagBitDefinited] using hdef f hf
  have hset : ∀ f s, cpu.bsymFlag f = false → (cpu.setFlagBit f s).getFlagBit f = s := by
    intro f s hf
    rw [getFlagBit_setFlagBit, if_pos rfl, hf]
    rfl
  revert hfix
  cases c with
  | be | ge | l | g | le => cases b <;> exact fun hfix => absurd hfix (by decide)
  | nbe =>
    have hcf := hsym .cf (by decide)
    have hzf := hsym .zf (by decide)
    cases b with
    | false => exact fun hfix => absurd hfix (by decide)
    | true =>
      intro _
      simp [decideCase, concreteFlagCase, getFlagBit_setFlagBit, bsymFlag_setFlagBit, hcf, hzf]
  | nb | b =>
    intro _
    have hcf := hsym .cf (by decide)
    cases b <;> simp [decideCase, concreteFlagCase, hset, hcf]
  | e | ne =>
    intro _
    have hzf := hsym .zf (by decide)
    cases b <;> simp [decideCase, concreteFlagCase, hset, hzf]
  | ns | s =>
    intro _
    have hsf := hsym .sf (by decide)
    cases b <;> simp [decideCase, concreteFlagCase, hset, hsf]
  | no | o =>
    intro _
    have hof := hsym .of (by decide)
    cases b <;> simp [decideCase, concreteFlagCase, hset, hof]

/-- `DependencyFlagConcreted` right after `ConcreteFlag`. -/
def decideAfterFix (cpu : SYCPUState) (instrID : EntryID) (taken bExecute : Bool) :
    Option (Bool × Bool) := do
  let (_, cpu) ← concreteFlag cpu instrID taken
  dependencyFlagConcreted cpu instrID bExecute

/-- Once all its flags are fixed, a condition is found definite with the
decision taken exactly when the flags were definite before. -/
theorem decideAfterFix_iff {instrID : EntryID} {c : CondCase} {taken : Bool}
    (hcase : switchCase instrID = some c) (hfix : FixesAll c taken) (cpu : SYCPUState)
    (bExecute : Bool) :
    decideAfterFix cpu instrID taken bExecute = some (true, taken) ↔
      ∀ f ∈ dependencyFlags c, cpu.flagBitDefinited f = true := by
  have hcond := isConditionalExecuteInstr_of_switchCase hcase
  have hsbb : switchCaseSbb instrID = some c := by
    rw [switchCaseSbb, if_neg (fun h => by simp [h, switchCase] at hcase), hcase]
  have hdep : decideAfterFix cpu instrID taken bExecute
      = if (dependencyFlags c).all cpu.flagBitDefinited
        then some (true, decideCase (concreteFlagCase cpu c taken) c)
        else some (false, bExecute) := by
    rw [decideAfterFix, concreteFlag, if_pos hcond, hcase]
    show dependencyFlagConcreted (concreteFlagCase cpu c taken) instrID bExecute = _
    rw [dependencyFlagConcreted, hsbb]
    simp only [Option.bind_eq_bind, Option.bind_some, List.all_eq_true,
      flagBitDefinited_concreteFlagCase]
    rfl
  rw [hdep]
  split
  · rename_i hall
    have hdef : ∀ f ∈ dependencyFlags c, cpu.flagBitDefinited f = true :=
      List.all_eq_true.1 hall
    rw [decideCase_concreteFlagCase hfix hdef]
    exact iff_of_true rfl hdef
  · rename_i hall
    refine iff_of_false (by simp) fun hdef => hall (List.all_eq_true.2 hdef)

/-- The law of flag statuses, over sequences of calls and for the decision of a condition
whose flags were fixed, with the exact condition of each. A forced flag is written as a bit,
while its mark stays. It reads back only if it was definite before, or became so by a native
run. -/
theorem flagStatus_iff (ops : List FlagOp) (σ : FlagState) (cpu : SYCPUState)
    (instrID : EntryID) (c : CondCase) (taken bExecute : Bool)
    (hcase : switchCase instrID = some c) (hfix : FixesAll c taken) :
    (StatusLawOver ops σ σ.2.getFlagBit ↔ DefiniteOver ops σ) ∧
    (decideAfterFix cpu instrID taken bExecute = some (true, taken) ↔
      ∀ f ∈ dependencyFlags c, cpu.flagBitDefinited f = true) :=
  ⟨statusLawOver_iff ops (statusLaw_iff.2 rfl), decideAfterFix_iff hcase hfix cpu bExecute⟩

/-- The state of a manager and registers as they are made. -/
def newFlagState : FlagState := (⟨.null, []⟩, SYCPUState.new fun _ => 0)

/-- A comparison with a symbol makes the flags uncertain and a native run makes them definite
again; then `jz` taken fixes its flag, and the flag reads back. It does so too where the carry
alone is uncertain. -/
theorem flagStatus_iff_jz :
    StatusLawOver [.saveFlagChangingInstructionExpr .cmp (Expr.udefExpr none), .clearAllSymFlag,
        .setFlagBit .zf .set] newFlagState newFlagState.2.getFlagBit ∧
      decideAfterFix (newFlagState.2.setFlagBit .cf .uncertain) .jz true false
        = some (true, true) := by
  obtain ⟨hlaw, -⟩ := flagStatus_iff [.saveFlagChangingInstructionExpr .cmp (Expr.udefExpr none),
    .clearAllSymFlag, .setFlagBit .zf .set] newFlagState newFlagState.2 .jz .e true false rfl
    (by decide)
  obtain ⟨-, hdecide⟩ := flagStatus_iff [] newFlagState (newFlagState.2.setFlagBit .cf .uncertain)
    .jz .e true false rfl (by decide)
  refine ⟨hlaw.2 ?_, hdecide.2 (by decide)⟩
  exact ⟨trivial, trivial, fun _ => rfl, trivial⟩

/-- A flag that was uncertain stays so when it is set, and `jz` is undecided
after its flag was fixed. -/
theorem not_statusLaw_uncertain_set :
    ¬ StatusLawOver [.setFlagBit .zf .uncertain, .setFlagBit .zf .set] newFlagState
        newFlagState.2.getFlagBit ∧
      decideAfterFix (newFlagState.2.setFlagBit .zf .uncertain) .jz true false
        = some (false, false) := by
  constructor
  · intro h
    have hread := (h.2.2 .zf).1
    exact absurd hread (by decide)
  · rfl

end KRover
