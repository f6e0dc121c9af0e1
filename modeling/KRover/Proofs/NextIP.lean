import KRover.ThinCtrl

/-! # The recorded next addresses

`m_NextIP` is keyed by the low half of an address and the count of the control
transfers, of which the key keeps 16 bits. So a line of the file takes the
place of an earlier one of the same address when their numbers differ by a
multiple of 65536.

* `transKey_eq_iff`: the keys of two lines are the same;
* `RecordedPath`: a trace that was recorded along the code;
* `preDisassembled_iff`: the pass follows it exactly when lines whose keys are
  the same have the same next address.
-/

set_option autoImplicit false

namespace KRover

/-! ## The key -/

/-- The key that both functions make of an address and a count. -/
def transKey (addr counter : Nat) : Nat :=
  (addr &&& 0xFFFFFFFF) ||| (counter <<< 48) % 2 ^ 64

/-- The address takes the low 32 bits of the key, the count the high 16. -/
theorem transKey_eq (addr counter : Nat) :
    transKey addr counter = counter % 2 ^ 16 * 2 ^ 48 + addr % 2 ^ 32 := by
  have haddr : addr &&& 0xFFFFFFFF = addr % 2 ^ 32 := Nat.and_two_pow_sub_one_eq_mod addr 32
  have hcounter : (counter <<< 48) % 2 ^ 64 = (counter % 2 ^ 16) <<< 48 := by
    rw [Nat.shiftLeft_eq, Nat.shiftLeft_eq]
    omega
  have hlt : addr % 2 ^ 32 < 2 ^ 48 := by omega
  rw [transKey, haddr, hcounter, Nat.or_comm, ← Nat.shiftLeft_add_eq_or_of_lt hlt,
    Nat.shiftLeft_eq]

/-- Two keys are the same when the addresses have one low half and the counts
differ by a multiple of 65536. -/
theorem transKey_eq_iff {a b c d : Nat} :
    transKey a c = transKey b d ↔ a % 2 ^ 32 = b % 2 ^ 32 ∧ c % 2 ^ 16 = d % 2 ^ 16 := by
  rw [transKey_eq, transKey_eq]
  omega

/-- A count that has wrapped around makes the same key. -/
theorem transKey_mod (addr counter : Nat) :
    transKey addr (counter % 2 ^ 64) = transKey addr counter := by
  rw [transKey_eq_iff]
  omega

/-! ## The map -/

/-- The counts of the lines, from the one after `counter` on. -/
theorem readNextIPFromFile_cons (nextIP : Nat → Nat) (counter : Nat) (line : Nat × Nat)
    (lines : List (Nat × Nat)) (hline : line.2 < 2 ^ 64) :
    readNextIPFromFile nextIP counter (line :: lines) =
      readNextIPFromFile (Function.update nextIP (transKey line.1 (counter + 1)) line.2)
        ((counter + 1) % 2 ^ 64) lines := by
  have hval : line.2 &&& 0xFFFFFFFFFFFFFFFF = line.2 := by
    have hand : line.2 &&& 0xFFFFFFFFFFFFFFFF = line.2 % 2 ^ 64 :=
      Nat.and_two_pow_sub_one_eq_mod line.2 64
    rw [hand, Nat.mod_eq_of_lt hline]
  rw [readNextIPFromFile, hval, ← transKey_mod]
  rfl

/-- A key that no line has keeps its value; else it has the value of a line
with this key. -/
theorem readNextIPFromFile_spec (lines : List (Nat × Nat)) (nextIP : Nat → Nat)
    (counter k : Nat) (hlines : ∀ p ∈ lines, p.2 < 2 ^ 64) :
    readNextIPFromFile nextIP counter lines k = nextIP k ∧
        (∀ j p, lines[j]? = some p → transKey p.1 (counter + j + 1) ≠ k) ∨
      ∃ j p, lines[j]? = some p ∧ transKey p.1 (counter + j + 1) = k ∧
        readNextIPFromFile nextIP counter lines k = p.2 := by
  induction lines generalizing nextIP counter with
  | nil => exact Or.inl ⟨rfl, fun j p h => absurd h (by simp)⟩
  | cons line lines ih =>
    rw [readNextIPFromFile_cons _ _ _ _ (hlines line List.mem_cons_self)]
    -- the counts of the other lines, with and without the wrap-around
    have hwrap : ∀ j a, transKey a ((counter + 1) % 2 ^ 64 + j + 1)
        = transKey a (counter + (j + 1) + 1) := by
      intro j a
      rw [transKey_eq_iff]
      omega
    have hrest := ih (Function.update nextIP (transKey line.1 (counter + 1)) line.2)
      ((counter + 1) % 2 ^ 64) fun p hp => hlines p (List.mem_cons_of_mem _ hp)
    rcases hrest with ⟨hval, hno⟩ | ⟨j, p, hp, hkey, hval⟩
    · by_cases hk : transKey line.1 (counter + 1) = k
      · refine Or.inr ⟨0, line, rfl, hk, ?_⟩
        rw [hval, hk, Function.update_self]
      · refine Or.inl ⟨?_, ?_⟩
        · rw [hval, Function.update_of_ne (Ne.symm hk)]
        · intro j p hp
          cases j with
          | zero =>
            rw [← Option.some.inj hp]
            exact hk
          | succ j =>
            rw [← hwrap]
            exact hno j p hp
    · refine Or.inr ⟨j + 1, p, hp, ?_, hval⟩
      rw [← hwrap]
      exact hkey

/-- Lines whose keys are the same have the same next address. -/
def SameNext (lines : List (Nat × Nat)) : Prop :=
  ∀ i j p q, lines[i]? = some p → lines[j]? = some q → p.1 = q.1 →
    i % 2 ^ 16 = j % 2 ^ 16 → p.2 = q.2

/-- All lines are found under their own keys. -/
def LinesFound (nextIP : Nat → Nat) (counter : Nat) (lines : List (Nat × Nat)) : Prop :=
  ∀ j p, lines[j]? = some p → nextIP (transKey p.1 (counter + j + 1)) = p.2

/-- Over addresses of one upper half, the lines are found exactly when those
with one key agree. -/
theorem linesFound_iff {lines : List (Nat × Nat)} (nextIP : Nat → Nat) {hi : Nat}
    (hlines : ∀ p ∈ lines, p.1 / 2 ^ 32 = hi ∧ p.2 < 2 ^ 64) :
    LinesFound (readNextIPFromFile nextIP 0 lines) 0 lines ↔ SameNext lines := by
  have hkey : ∀ i j p q, lines[i]? = some p → lines[j]? = some q →
      (transKey p.1 (0 + i + 1) = transKey q.1 (0 + j + 1) ↔
        p.1 = q.1 ∧ i % 2 ^ 16 = j % 2 ^ 16) := by
    intro i j p q hp hq
    have hpi := (hlines p (List.mem_of_getElem? hp)).1
    have hqi := (hlines q (List.mem_of_getElem? hq)).1
    rw [transKey_eq_iff]
    omega
  constructor
  · intro hfound i j p q hp hq haddr hcount
    rw [← hfound i p hp, ← hfound j q hq, (hkey i j p q hp hq).2 ⟨haddr, hcount⟩]
  · intro hsame i p hp
    rcases readNextIPFromFile_spec lines nextIP 0 (transKey p.1 (0 + i + 1))
      (fun p hp => (hlines p hp).2) with ⟨-, hno⟩ | ⟨j, q, hq, heq, hval⟩
    · exact absurd rfl (hno i p hp)
    · obtain ⟨haddr, hcount⟩ := (hkey j i q p hq hp).1 heq
      rw [hval]
      exact hsame j i q p hq hp haddr hcount

/-! ## The pass -/

section Pass

variable {Instr : Type} (decode : Nat → Instr) (isTransfer : Instr → Bool) (size : Instr → Nat)

/-- A trace that was recorded along the code, as the instruction cache shows
it, from `crtAddr` on for so many turns: every line is the control transfer
that comes next and where it goes to. The walk is over at `endRIP`. -/
inductive RecordedPath (endRIP : Nat) :
    (Nat → Option Instr) → Nat → List (Nat × Nat) → Nat → Prop
  | here (insnCache : Nat → Option Instr) (crtAddr : Nat) :
    RecordedPath endRIP insnCache crtAddr [] 0
  | straight {insnCache : Nat → Option Instr} {crtAddr turns : Nat} {lines : List (Nat × Nat)}
      (hinsn : isTransfer (UntaggedCache.fetch insnCacheIdx decode insnCache crtAddr).1 = false)
      (hend : (crtAddr + size (UntaggedCache.fetch insnCacheIdx decode insnCache crtAddr).1)
        % 2 ^ 64 = endRIP → turns = 0)
      (hrest : RecordedPath endRIP
        (UntaggedCache.fetch insnCacheIdx decode insnCache crtAddr).2
        ((crtAddr + size (UntaggedCache.fetch insnCacheIdx decode insnCache crtAddr).1)
          % 2 ^ 64) lines turns) :
    RecordedPath endRIP insnCache crtAddr lines (turns + 1)
  | transfer {insnCache : Nat → Option Instr} {crtAddr nextRIP turns : Nat}
      {lines : List (Nat × Nat)}
      (hinsn : isTransfer (UntaggedCache.fetch insnCacheIdx decode insnCache crtAddr).1 = true)
      (hend : nextRIP = endRIP → turns = 0)
      (hrest : RecordedPath endRIP
        (UntaggedCache.fetch insnCacheIdx decode insnCache crtAddr).2 nextRIP lines turns) :
    RecordedPath endRIP insnCache crtAddr ((crtAddr, nextRIP) :: lines) (turns + 1)

variable {decode isTransfer size}

/-- The pass follows a recorded trace exactly when it finds every line of it. -/
theorem RecordedPath.preDisassembled_eq_iff (call : FunctionCall)
    {insnCache : Nat → Option Instr} {crtAddr turns : Nat} {lines : List (Nat × Nat)}
    (h : RecordedPath decode isTransfer size call.endRIP insnCache crtAddr lines turns)
    (cfCounter : Nat) :
    preDisassembled decode isTransfer size call turns crtAddr cfCounter insnCache = lines ↔
      LinesFound call.nextIP cfCounter lines := by
  induction h generalizing cfCounter with
  | here insnCache crtAddr => exact iff_of_true rfl fun j p hp => absurd hp (by simp)
  | @straight insnCache crtAddr turns lines hinsn hend hrest ih =>
    have hnext : preNext isTransfer size call crtAddr cfCounter
        (UntaggedCache.fetch insnCacheIdx decode insnCache crtAddr).1
        = ((crtAddr + size (UntaggedCache.fetch insnCacheIdx decode insnCache crtAddr).1)
            % 2 ^ 64, cfCounter) := by
      rw [preNext, hinsn]
      rfl
    rw [preDisassembled]
    simp only [hnext, hinsn, Bool.false_eq_true, if_false]
    split
    · -- the walk is over
      next hstop =>
        have hturns := hend hstop
        subst hturns
        cases hrest
        exact iff_of_true rfl fun j p hp => absurd hp (by simp)
    · exact ih cfCounter
  | @transfer insnCache crtAddr nextRIP turns lines hinsn hend hrest ih =>
    have hnext : preNext isTransfer size call crtAddr cfCounter
        (UntaggedCache.fetch insnCacheIdx decode insnCache crtAddr).1
        = (call.nextIP (transKey crtAddr (cfCounter + 1)), (cfCounter + 1) % 2 ^ 64) := by
      rw [preNext, hinsn, ← transKey_mod]
      rfl
    -- the lines behind the first are counted from the next count on
    have hsplit : LinesFound call.nextIP cfCounter ((crtAddr, nextRIP) :: lines) ↔
        call.nextIP (transKey crtAddr (cfCounter + 1)) = nextRIP ∧
          LinesFound call.nextIP ((cfCounter + 1) % 2 ^ 64) lines := by
      have hwrap : ∀ j a, transKey a ((cfCounter + 1) % 2 ^ 64 + j + 1)
          = transKey a (cfCounter + (j + 1) + 1) := by
        intro j a
        rw [transKey_eq_iff]
        omega
      constructor
      · intro hall
        refine ⟨hall 0 _ rfl, ?_⟩
        intro j p hp
        rw [hwrap]
        exact hall (j + 1) p hp
      · rintro ⟨hfirst, hothers⟩ j p hp
        cases j with
        | zero =>
          rw [← Option.some.inj hp]
          exact hfirst
        | succ j =>
          rw [← hwrap]
          exact hothers j p hp
    rw [preDisassembled, hsplit]
    simp only [hnext, hinsn, if_true, List.cons.injEq, Prod.mk.injEq, true_and]
    refine and_congr_right ?_
    intro hval
    rw [hval]
    split
    · next hstop =>
        have hturns := hend hstop
        subst hturns
        cases hrest
        exact iff_of_true rfl fun j p hp => absurd hp (by simp)
    · exact ih _

/-- Along a recorded trace whose addresses share their upper half, the pass obtains every
recorded next address at its control transfer exactly when lines of one address whose
numbers differ by a multiple of 65536 agree. The lines are kept in a map whose key is made
of the lower half of an address and the low 16 bits of its number. A later line under one
key takes the place of an earlier one, so the two must say the same. -/
theorem preDisassembled_iff (call : FunctionCall) {insnCache : Nat → Option Instr}
    {turns hi : Nat} {lines : List (Nat × Nat)} (nextIP : Nat → Nat)
    (hcall : call.nextIP = readNextIPFromFile nextIP 0 lines)
    (hlines : ∀ p ∈ lines, p.1 / 2 ^ 32 = hi ∧ p.2 < 2 ^ 64)
    (hpath : RecordedPath decode isTransfer size call.endRIP insnCache call.rip lines turns) :
    preDisassembled decode isTransfer size call turns call.rip 0 insnCache = lines ↔
      SameNext lines := by
  rw [hpath.preDisassembled_eq_iff call, hcall]
  exact linesFound_iff nextIP hlines

/-! ## A loop -/

/-- A branch at `0xffffffff81000010` that is taken back to itself so many
times, and then goes on. -/
def loopLines (times : Nat) : List (Nat × Nat) :=
  List.replicate times (0xffffffff81000010, 0xffffffff81000010)
    ++ [(0xffffffff81000010, 0xffffffff81000020)]

/-- The call that runs the loop. -/
def loopCall (times : Nat) : FunctionCall where
  rip := 0xffffffff81000010
  endRIP := 0xffffffff81000020
  nextIP := readNextIPFromFile (fun _ => 0) 0 (loopLines times)
  executed := []

/-- The lines of the loop are a recorded path, however often it goes round. -/
theorem loopLines_recorded (times : Nat) (insnCache : Nat → Option Unit) :
    RecordedPath (fun _ => ()) (fun _ => true) (fun _ => 2) 0xffffffff81000020 insnCache
      0xffffffff81000010 (loopLines times) (times + 1) := by
  induction times generalizing insnCache with
  | zero => exact .transfer rfl (fun _ => rfl) (.here _ _)
  | succ times ih => exact .transfer rfl (fun h => absurd h (by decide)) (ih _)

/-- Its addresses have the upper half that the lines leave out. -/
theorem loopLines_upper (times : Nat) :
    ∀ p ∈ loopLines times, p.1 / 2 ^ 32 = 0xffffffff ∧ p.2 < 2 ^ 64 := by
  intro p hp
  rcases List.mem_append.1 hp with hp | hp
  · rw [List.eq_of_mem_replicate hp]
    decide
  · rw [List.mem_singleton.1 hp]
    decide

/-- The pass follows a loop that is taken back once. Its lines have numbers of their own, so
each is found. -/
theorem preDisassembled_loop :
    preDisassembled (fun _ => ()) (fun _ => true) (fun _ => 2) (loopCall 1) 2
      0xffffffff81000010 0 (fun _ => none) = loopLines 1 := by
  refine (preDisassembled_iff (loopCall 1) (fun _ => 0) rfl (loopLines_upper 1)
    (loopLines_recorded 1 _)).2 ?_
  intro i j p q hp hq haddr hcount
  have hi : i < 2 := (List.getElem?_eq_some_iff.1 hp).1
  have hj : j < 2 := (List.getElem?_eq_some_iff.1 hq).1
  have hij : i = j := by omega
  rw [hij, hq] at hp
  rw [Option.some.inj hp]

/-- A loop that is taken back a multiple of 65536 times it does not follow: the
last line has the key of the first. -/
theorem not_preDisassembled_loop_of {times : Nat} (hpos : 0 < times)
    (hmod : times % 2 ^ 16 = 0) :
    preDisassembled (fun _ => ()) (fun _ => true) (fun _ => 2) (loopCall times) (times + 1)
      0xffffffff81000010 0 (fun _ => none) ≠ loopLines times := by
  intro hfollows
  have hpath := loopLines_recorded times (fun _ => none)
  have hfound := (hpath.preDisassembled_eq_iff (loopCall times) 0).1 hfollows
  have hsame := (linesFound_iff _ (loopLines_upper times)).1 hfound
  have hfirst : (loopLines times)[0]? = some (0xffffffff81000010, 0xffffffff81000010) := by
    rw [loopLines, List.getElem?_append_left (by rw [List.length_replicate]; exact hpos),
      List.getElem?_replicate, if_pos hpos]
  have hlast : (loopLines times)[times]? = some (0xffffffff81000010, 0xffffffff81000020) := by
    rw [loopLines, List.getElem?_append_right (by rw [List.length_replicate]),
      List.length_replicate, Nat.sub_self]
    rfl
  exact absurd (hsame 0 times _ _ hfirst hlast rfl hmod.symm) (by decide)

/-- It is taken back 65536 times. The last line of the loop, which leaves it, then has the
key of the first. -/
theorem not_preDisassembled_loop :
    preDisassembled (fun _ => ()) (fun _ => true) (fun _ => 2) (loopCall 65536) (65536 + 1)
      0xffffffff81000010 0 (fun _ => none) ≠ loopLines 65536 :=
  not_preDisassembled_loop_of (by decide) (by decide)

end Pass

end KRover
