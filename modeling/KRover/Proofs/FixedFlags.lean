import KRover.Proofs.CondDecision

/-! # The flags that a decision implies

`ConcreteFlag` is handed the decision of a conditional instruction and writes
the flags that it takes the decision to imply. After a comparison it is right at
every label but that of `jle`: a jump that is taken there sets the zero flag,
and the operands need not be equal (`fixesRight_iff`).
-/

set_option autoImplicit false

namespace KRover

open StatusFlags EFlagsManager SYCPUState

/-- The condition of a label, as the processor reads it. -/
def CondCase.holds : CondCase → Flags → Bool
  | .nb, F => !F.cf
  | .nbe, F => !(F.cf || F.zf)
  | .be, F => F.cf || F.zf
  | .b, F => F.cf
  | .ge, F => F.sf == F.of
  | .g, F => !F.zf && F.sf == F.of
  | .le, F => F.zf || F.sf != F.of
  | .l, F => F.sf != F.of
  | .e, F => F.zf
  | .ne, F => !F.zf
  | .ns, F => !F.sf
  | .s, F => F.sf
  | .no, F => !F.of
  | .o, F => F.of

/-- The value of a flag among the four. -/
def Flag.value (F : Flags) : Flag → Option Bool
  | .cf => some F.cf
  | .zf => some F.zf
  | .sf => some F.sf
  | .of => some F.of
  | .pf | .af | .tf | .df | .rf => none

/-- The bit of `eflags` of a flag holds its value. -/
def HoldsFlag (cpu : SYCPUState) (F : Flags) (f : Flag) : Prop :=
  f.value F = some ((cpu.ptRegs .efl).getLsbD f.bit)

/-- `ConcreteFlag` writes to each flag that it fixes the value that the flag has,
and whoever decides a later condition by fixed flags alone decides as the
processor does: `DependencyFlagConcreted` when it finds them definite, and
`chkCondFail` at the jumps that it lists. -/
def FixesRight (cpu : SYCPUState) (instrID : EntryID) (taken : Bool) (F : Flags) : Prop :=
  ∃ c cpu', switchCase instrID = some c ∧ concreteFlag cpu instrID taken = some (true, cpu') ∧
    (∀ f ∈ (fixedFlags c taken).map Prod.fst, HoldsFlag cpu' F f) ∧
    ∀ id₂ c₂, switchCase id₂ = some c₂ →
      (∀ f ∈ dependencyFlags c₂, f ∈ (fixedFlags c taken).map Prod.fst) →
      (∀ b d, dependencyFlagConcreted cpu' id₂ b = some (true, d) → d = c₂.holds F) ∧
      ∀ r, chkCondFail id₂ cpu'.ptRegs = some r → (!r) = c₂.holds F

/-! ## The flags -/

variable {cpu : SYCPUState} {F : Flags}

/-- A flag that is fixed holds what was written to it. -/
theorem eflagsBit_concreteFlagCase {c : CondCase} {taken : Bool} {p : Flag × FlagStat}
    (hp : p ∈ fixedFlags c taken) : (concreteFlagCase cpu c taken).eflagsBit p.1 = p.2 := by
  -- no label writes one flag twice
  cases c <;> cases taken <;> simp only [fixedFlags, List.mem_cons, List.not_mem_nil,
    or_false, Bool.false_eq_true, if_true, if_false] at hp
  case nbe.true =>
    rcases hp with rfl | rfl <;> simp [concreteFlagCase, eflagsBit_setFlagBit]
  all_goals
    subst hp
    simp [concreteFlagCase, eflagsBit_setFlagBit]

/-- A flag holds what it should where its bit is the value, if there is one. -/
theorem holdsFlag_iff {f : Flag} {s : FlagStat} (hbit : cpu.eflagsBit f = s) :
    HoldsFlag cpu F f ↔ (f.value F).map (fun v => if v then FlagStat.set else .clear) = some s := by
  unfold HoldsFlag
  rw [← hbit, eflagsBit]
  cases f.value F with
  | none => simp
  | some v => cases v <;> cases (cpu.ptRegs .efl).getLsbD f.bit <;> simp

/-- What the decision implies of the flags that are fixed, and what it does not:
that the operands of a `jle` that is taken were equal. -/
theorem fixedFlags_implied_iff (c : CondCase) (F : Flags) :
    (∀ p ∈ fixedFlags c (c.holds F),
      (p.1.value F).map (fun v => if v then FlagStat.set else .clear) = some p.2) ↔
    (c = .le → c.holds F = true → F.zf = true) := by
  obtain ⟨cf, zf, sf, of⟩ := F
  cases c with
  | nb | b | be => cases cf <;> cases zf <;> decide +revert
  | nbe => cases cf <;> cases zf <;> decide +revert
  | g | le => cases zf <;> cases sf <;> cases of <;> decide +revert
  | ge | l => cases sf <;> cases of <;> decide +revert
  | e | ne => cases zf <;> decide +revert
  | ns | s => cases sf <;> decide +revert
  | no | o => cases of <;> decide +revert

/-! ## Later conditions -/

/-- No label fixes all that `jle` and its like depend on. -/
theorem ne_le_of_fixed {c c₂ : CondCase} {taken : Bool}
    (h : ∀ f ∈ dependencyFlags c₂, f ∈ (fixedFlags c taken).map Prod.fst) : c₂ ≠ .le := by
  rintro rfl
  have hsf := h .sf (by decide)
  have hzf := h .zf (by decide)
  cases c <;> cases taken <;> simp [fixedFlags] at hsf hzf

variable {id₂ : EntryID} {c₂ : CondCase}

/-- Definite flags that hold their values decide a condition. -/
theorem dependencyFlagConcreted_of_holds (hcase : switchCase id₂ = some c₂) (hne : c₂ ≠ .le)
    (h : ∀ f ∈ dependencyFlags c₂, HoldsFlag cpu F f) {b d : Bool}
    (hd : dependencyFlagConcreted cpu id₂ b = some (true, d)) : d = c₂.holds F := by
  rw [dependencyFlagConcreted, switchCaseSbb,
    if_neg (fun he => by simp [he, switchCase] at hcase), hcase] at hd
  simp only [Option.bind_eq_bind, Option.bind_some] at hd
  split at hd
  · rename_i hall
    have hread : ∀ f ∈ dependencyFlags c₂, ∀ v, f.value F = some v →
        cpu.getFlagBit f = if v then .set else .clear := by
      intro f hf v hv
      have hsym : cpu.bsymFlag f = false := by
        simpa [flagBitDefinited] using List.all_eq_true.1 hall f hf
      have hbit : v = (cpu.ptRegs .efl).getLsbD f.bit := Option.some.inj (hv.symm.trans (h f hf))
      rw [getFlagBit_eq, hsym, eflagsBit, hbit]
      rfl
    obtain rfl : decideCase cpu c₂ = d := (Prod.mk.inj (Option.some.inj hd)).2
    unfold decideCase
    cases c₂ with
    | le => exact absurd rfl hne
    | nb | b =>
      rw [hread .cf (by decide) F.cf rfl]
      cases hv : F.cf <;> simp [CondCase.holds, hv]
    | nbe | be =>
      rw [hread .cf (by decide) F.cf rfl, hread .zf (by decide) F.zf rfl]
      cases hv : F.cf <;> cases hz : F.zf <;> simp [CondCase.holds, hv, hz]
    | ge | l =>
      rw [hread .sf (by decide) F.sf rfl, hread .of (by decide) F.of rfl]
      cases hv : F.sf <;> cases ho : F.of <;> simp [CondCase.holds, hv, ho]
    | g =>
      rw [hread .zf (by decide) F.zf rfl, hread .sf (by decide) F.sf rfl,
        hread .of (by decide) F.of rfl]
      cases hz : F.zf <;> cases hv : F.sf <;> cases ho : F.of <;>
        simp [CondCase.holds, hv, ho, hz]
    | e | ne =>
      rw [hread .zf (by decide) F.zf rfl]
      cases hv : F.zf <;> simp [CondCase.holds, hv]
    | ns | s =>
      rw [hread .sf (by decide) F.sf rfl]
      cases hv : F.sf <;> simp [CondCase.holds, hv]
    | no | o =>
      rw [hread .of (by decide) F.of rfl]
      cases hv : F.of <;> simp [CondCase.holds, hv]
  · exact absurd (Prod.mk.inj (Option.some.inj hd)).1 Bool.false_ne_true

/-- Flags that hold their values decide a jump. -/
theorem chkCondFail_of_holds (hcase : switchCase id₂ = some c₂)
    (h : ∀ f ∈ dependencyFlags c₂, HoldsFlag cpu F f) {r : Bool}
    (hr : chkCondFail id₂ cpu.ptRegs = some r) : (!r) = c₂.holds F := by
  have hread : ∀ f ∈ dependencyFlags c₂, ∀ v, f.value F = some v →
      (cpu.ptRegs .efl).getLsbD f.bit = v := fun f hf v hv =>
    (Option.some.inj (hv.symm.trans (h f hf))).symm
  have hcf : Flag.cf ∈ dependencyFlags c₂ → (cpu.ptRegs .efl).getLsbD 0 = F.cf :=
    fun hf => hread .cf hf F.cf rfl
  have hzf : Flag.zf ∈ dependencyFlags c₂ → (cpu.ptRegs .efl).getLsbD 6 = F.zf :=
    fun hf => hread .zf hf F.zf rfl
  have hsf : Flag.sf ∈ dependencyFlags c₂ → (cpu.ptRegs .efl).getLsbD 7 = F.sf :=
    fun hf => hread .sf hf F.sf rfl
  have hof : Flag.of ∈ dependencyFlags c₂ → (cpu.ptRegs .efl).getLsbD 11 = F.of :=
    fun hf => hread .of hf F.of rfl
  unfold chkCondFail at hr
  -- one goal for each jump that is listed and that has a label
  cases id₂ <;> try (first | (simp at hr; done) | (simp [switchCase] at hcase; done))
  all_goals
    obtain rfl := Option.some.inj hr
    obtain rfl := Option.some.inj hcase
    simp only [dependencyFlags, List.mem_cons, List.not_mem_nil, or_false, or_true,
      forall_true_left, reduceCtorEq] at hcf hzf hsf hof
    simp only [*, CondCase.holds, Bool.not_not]
  all_goals
    cases F with
    | mk cf zf sf of => cases cf <;> cases zf <;> cases sf <;> cases of <;> rfl

/-! ## Fixed flags -/

/-- After a comparison whose condition was decided as the processor decides it, the flags
that `ConcreteFlag` writes are those of the comparison, except when `jle` or its like was
taken on operands that differ. When `jle` is taken ZF is set, though a smaller first operand
would do for it. The other labels force what the decision implies. -/
theorem fixesRight_iff {w : Nat} {a b : BitVec w} {instrID : EntryID} {c : CondCase}
    (hcase : switchCase instrID = some c) (cpu : SYCPUState) :
    FixesRight cpu instrID (c.holds (ofSub a b)) (ofSub a b) ↔
      (c = .le → c.holds (ofSub a b) = true → a = b) := by
  have hzero : (ofSub a b).zf = true ↔ a = b := by
    show (a - b == 0#w) = true ↔ a = b
    rw [sub_beq_zero, beq_iff_eq]
  have hfix : concreteFlag cpu instrID (c.holds (ofSub a b))
      = some (true, concreteFlagCase cpu c (c.holds (ofSub a b))) := by
    rw [concreteFlag, if_pos (isConditionalExecuteInstr_of_switchCase hcase), hcase]
    rfl
  have himplied := fixedFlags_implied_iff c (ofSub a b)
  rw [hzero] at himplied
  rw [← himplied]
  constructor
  · rintro ⟨c', cpu', hcase', hconc, hbits, -⟩ p hp
    obtain rfl : c = c' := Option.some.inj (hcase.symm.trans hcase')
    obtain rfl : _ = cpu' := (Prod.mk.inj (Option.some.inj (hfix.symm.trans hconc))).2
    exact (holdsFlag_iff (eflagsBit_concreteFlagCase hp)).1
      (hbits p.1 (List.mem_map_of_mem hp))
  · intro himp
    have hbits : ∀ f ∈ (fixedFlags c (c.holds (ofSub a b))).map Prod.fst,
        HoldsFlag (concreteFlagCase cpu c (c.holds (ofSub a b))) (ofSub a b) f := by
      intro f hf
      obtain ⟨p, hp, rfl⟩ := List.mem_map.1 hf
      exact (holdsFlag_iff (eflagsBit_concreteFlagCase hp)).2 (himp p hp)
    refine ⟨c, _, hcase, hfix, hbits, fun id₂ c₂ hcase₂ hsub => ⟨fun b d hd => ?_, fun r hr => ?_⟩⟩
    · exact dependencyFlagConcreted_of_holds hcase₂ (ne_le_of_fixed hsub)
        (fun f hf => hbits f (hsub f hf)) hd
    · exact chkCondFail_of_holds hcase₂ (fun f hf => hbits f (hsub f hf)) hr

/-- `cmp 1, 0` and `jle`, which is not taken, clears the zero flag. -/
theorem fixesRight_jle_greater :
    FixesRight (cpuWithEflags 0) .jle (CondCase.le.holds (ofSub 1#8 0#8)) (ofSub 1#8 0#8) :=
  (fixesRight_iff rfl _).2 fun _ h => absurd h (by decide)

/-- `cmp 0, 1` and `jle`, which is taken, sets the zero flag. -/
theorem not_fixesRight_jle_less :
    ¬ FixesRight (cpuWithEflags 0) .jle (CondCase.le.holds (ofSub 0#8 1#8)) (ofSub 0#8 1#8) := by
  intro ⟨c, cpu', hcase, hconc, hbits, _⟩
  obtain rfl := Option.some.inj hcase
  have hzf := hbits .zf (by decide)
  have hcpu : concreteFlagCase (cpuWithEflags 0) .le true = cpu' :=
    (Prod.mk.inj (Option.some.inj hconc)).2
  rw [← hcpu] at hzf
  have hzf : some (ofSub 0#8 1#8).zf
      = some (((concreteFlagCase (cpuWithEflags 0) .le true).ptRegs .efl).getLsbD 6) := hzf
  exact absurd hzf (by decide)

end KRover
