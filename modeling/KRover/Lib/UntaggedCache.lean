import Mathlib.Data.List.Pairwise
import Mathlib.Logic.Function.Basic
import Mathlib.Tactic.Common

/-! # Caches without a tag

A table that keeps the value of a function `f` at each point asked for, in the
slot of the point. A slot does not record which point filled it, so two points
of one slot share the value of the one that came first.

A `Client` asks for points one after the other, each chosen in the light of
the answers before it. It may take a value for good: the table keeps its slot
full, but what the slot holds is gone.

* `Filled`: what the table holds after the points `S` were asked for;
* `Sound`: no point comes behind one of its slot that was taken or has another
  value;
* `Filled.correct_iff`: all answers to a client are right exactly when the points
  it asks `f` itself for are sound.
-/

set_option autoImplicit false

namespace UntaggedCache

/-- Who asks: the next point, or none at the end, whether its value is taken for
good, and what an answer changes. -/
structure Client (α ν σ : Type) where
  ask : σ → Option α
  takes : σ → Bool
  answer : σ → ν → σ

section Spec

variable {α κ ν : Type} (slot : α → κ) (f : α → ν)

/-- The table after the points `S`, each with whether its value was taken: their
slots are full, what a slot holds is the value of one of them, and it is gone when
one of them was taken. -/
structure Filled (C : κ → Option ν) (D : κ → Bool) (S : List (α × Bool)) : Prop where
  full : ∀ p ∈ S, C (slot p.1) ≠ none
  source : ∀ k v, C k = some v → ∃ p ∈ S, slot p.1 = k ∧ f p.1 = v
  gone : ∀ k, D k = true ↔ ∃ p ∈ S, slot p.1 = k ∧ p.2 = true

/-- No point comes behind one of its slot that was taken or has another value. -/
def Sound (S : List (α × Bool)) : Prop :=
  S.Pairwise fun p q => slot p.1 = slot q.1 → p.2 = false ∧ f p.1 = f q.1

/-- The points a client asks for when `f` itself answers, with whether it takes
them, and its state afterwards. -/
def askAll {σ : Type} (K : Client α ν σ) : Nat → σ → List (α × Bool) × σ
  | 0, s => ([], s)
  | n + 1, s =>
    match K.ask s with
    | none => ([], s)
    | some a =>
      let (rest, s') := askAll K n (K.answer s (f a))
      ((a, K.takes s) :: rest, s')

/-- The table starts empty, and nothing was asked for. -/
theorem filled_nil : Filled slot f (fun _ => none) (fun _ => false) [] where
  full _ ha := absurd ha (by simp)
  source _ _ h := absurd h (by simp)
  gone k := by simp

/-- Before anything is asked for nothing can go wrong. -/
theorem sound_nil : Sound slot f [] := List.Pairwise.nil

variable {slot f}

/-- The points that were asked for first are sound on their own: what comes behind them
cannot mend an answer. -/
theorem Sound.of_append {S T : List (α × Bool)} (h : Sound slot f (S ++ T)) : Sound slot f S :=
  (List.pairwise_append.1 h).1

/-- Points of one slot have one value. -/
theorem Sound.value_eq {S : List (α × Bool)} (h : Sound slot f S) {p q : α × Bool} (hp : p ∈ S)
    (hq : q ∈ S) : slot p.1 = slot q.1 → f p.1 = f q.1 := by
  have hsymm : Std.Symm fun p q : α × Bool => slot p.1 = slot q.1 → f p.1 = f q.1 :=
    ⟨fun _ _ hpq hqp => (hpq hqp.symm).symm⟩
  have hvalues : S.Pairwise fun p q => slot p.1 = slot q.1 → f p.1 = f q.1 :=
    h.imp fun hpq heq => (hpq heq).2
  exact hvalues.forall_of_forall (fun _ _ _ => rfl) hp hq

/-- One point more. -/
theorem sound_concat {S : List (α × Bool)} {a : α} {b : Bool} : Sound slot f (S ++ [(a, b)]) ↔
    Sound slot f S ∧ ∀ p ∈ S, slot p.1 = slot a → p.2 = false ∧ f p.1 = f a := by
  rw [Sound, List.pairwise_append]
  constructor
  · rintro ⟨hS, -, hlast⟩
    exact ⟨hS, fun p hp => hlast p hp (a, b) (by simp)⟩
  · intro ⟨hS, hlast⟩
    refine ⟨hS, List.pairwise_singleton _ _, fun p hp q hq => ?_⟩
    rw [List.mem_singleton.1 hq]
    exact hlast p hp

end Spec

variable {α κ ν σ : Type} [DecidableEq κ] (slot : α → κ) (f : α → ν)

/-- The value in the slot, put there first if the slot is empty. -/
def fetch (C : κ → Option ν) (a : α) : ν × (κ → Option ν) :=
  match C (slot a) with
  | some v => (v, C)
  | none => (f a, Function.update C (slot a) (some (f a)))

/-- The same, unless what the slot holds is gone. -/
def handOut (C : κ → Option ν) (D : κ → Bool) (a : α) : Option (ν × (κ → Option ν)) :=
  if D (slot a) then none else some (fetch slot f C a)

/-- The points a client asks for with the answers the table gives, none where a value is
gone, which is the end; and its state, the table and the slots that are gone
afterwards. -/
def fetchAll (K : Client α ν σ) : Nat → σ → (κ → Option ν) → (κ → Bool) →
    List (α × Option ν) × σ × (κ → Option ν) × (κ → Bool)
  | 0, s, C, D => ([], s, C, D)
  | n + 1, s, C, D =>
    match K.ask s with
    | none => ([], s, C, D)
    | some a =>
      match handOut slot f C D a with
      | none => ([(a, none)], s, C, D)
      | some (v, C) =>
        let D := if K.takes s then Function.update D (slot a) true else D
        let (rest, s, C, D) := fetchAll K n (K.answer s v) C D
        ((a, some v) :: rest, s, C, D)

variable {slot f} {C : κ → Option ν} {D : κ → Bool} {S : List (α × Bool)} {K : Client α ν σ}

/-- What is true of every value of `f` and of the table is true of an answer. -/
theorem fetch_all {P : ν → Prop} (hf : ∀ a, P (f a)) (hC : ∀ k v, C k = some v → P v) (a : α) :
    P (fetch slot f C a).1 ∧ ∀ k v, (fetch slot f C a).2 k = some v → P v := by
  rw [fetch]
  split
  · rename_i v hslot
    exact ⟨hC _ v hslot, hC⟩
  · refine ⟨hf a, fun k v hk => ?_⟩
    have hk : Function.update C (slot a) (some (f a)) k = some v := hk
    by_cases heq : k = slot a
    · rw [heq, Function.update_self] at hk
      rw [← Option.some.inj hk]
      exact hf a
    · rw [Function.update_of_ne heq] at hk
      exact hC k v hk

/-- Asking for a point fills its slot. -/
theorem Filled.fetch (h : Filled slot f C D S) (a : α) (b : Bool) :
    Filled slot f (fetch slot f C a).2 (if b then Function.update D (slot a) true else D)
      (S ++ [(a, b)]) := by
  have hgone : ∀ k, (if b then Function.update D (slot a) true else D) k = true ↔
      ∃ p ∈ S ++ [(a, b)], slot p.1 = k ∧ p.2 = true := by
    intro k
    have hsplit : (∃ p ∈ S ++ [(a, b)], slot p.1 = k ∧ p.2 = true) ↔
        D k = true ∨ slot a = k ∧ b = true := by
      simp only [List.mem_append, List.mem_singleton, or_and_right, exists_or, exists_eq_left,
        h.gone k]
    rw [hsplit]
    cases b with
    | false => simp
    | true =>
      by_cases hk : k = slot a
      · rw [hk, if_pos rfl, Function.update_self]
        simp
      · have hk' : ¬ slot a = k := fun heq => hk heq.symm
        rw [if_pos rfl, Function.update_of_ne hk]
        simp [hk']
  cases hslot : C (slot a) with
  | some v =>
    have heq : (UntaggedCache.fetch slot f C a).2 = C := by rw [UntaggedCache.fetch, hslot]
    rw [heq]
    refine ⟨?_, ?_, hgone⟩
    · intro p hp
      rcases List.mem_append.1 hp with hp | hp
      · exact h.full p hp
      · rw [List.mem_singleton.1 hp, hslot]
        simp
    · intro k v' hk
      obtain ⟨p, hp, hpk⟩ := h.source k v' hk
      exact ⟨p, List.mem_append_left _ hp, hpk⟩
  | none =>
    have heq : (UntaggedCache.fetch slot f C a).2
        = Function.update C (slot a) (some (f a)) := by rw [UntaggedCache.fetch, hslot]
    rw [heq]
    refine ⟨?_, ?_, hgone⟩
    · intro p hp
      by_cases hk : slot p.1 = slot a
      · rw [hk, Function.update_self]
        simp
      · rw [Function.update_of_ne hk]
        rcases List.mem_append.1 hp with hp | hp
        · exact h.full p hp
        · rw [List.mem_singleton.1 hp] at hk
          exact absurd rfl hk
    · intro k v' hv
      by_cases hk : k = slot a
      · rw [hk, Function.update_self] at hv
        exact ⟨(a, b), by simp, hk.symm, Option.some.inj hv⟩
      · rw [Function.update_of_ne hk] at hv
        obtain ⟨p, hp, hpk⟩ := h.source k v' hv
        exact ⟨p, List.mem_append_left _ hp, hpk⟩

/-- The answer is right exactly when no earlier point of the slot was taken or has
another value. -/
theorem Filled.handOut_eq_iff (h : Filled slot f C D S) (hS : Sound slot f S) (a : α) (b : Bool) :
    (handOut slot f C D a).map (·.1) = some (f a) ↔ Sound slot f (S ++ [(a, b)]) := by
  rw [sound_concat, and_iff_right hS, handOut]
  cases hgone : D (slot a) with
  | true =>
    -- the value was taken at an earlier visit
    obtain ⟨p, hp, hslot, htaken⟩ := (h.gone _).1 hgone
    refine iff_of_false (by simp) fun hall => ?_
    have hkept := (hall p hp hslot).1
    rw [htaken] at hkept
    exact Bool.noConfusion hkept
  | false =>
    have hkept : ∀ p ∈ S, slot p.1 = slot a → p.2 = false := by
      intro p hp hslot
      rw [← Bool.not_eq_true]
      intro htaken
      rw [(h.gone _).2 ⟨p, hp, hslot, htaken⟩] at hgone
      exact Bool.noConfusion hgone
    rw [if_neg Bool.false_ne_true, Option.map_some, Option.some.injEq]
    cases hslot : C (slot a) with
    | none =>
      -- a miss: no earlier point has the slot
      have hmiss : ∀ p ∈ S, slot p.1 ≠ slot a := by
        intro p hp heq
        exact h.full p hp (by rw [heq, hslot])
      refine iff_of_true (by rw [UntaggedCache.fetch, hslot]) fun p hp heq => ?_
      exact absurd heq (hmiss p hp)
    | some v =>
      have hfst : (UntaggedCache.fetch slot f C a).1 = v := by rw [UntaggedCache.fetch, hslot]
      obtain ⟨p₀, hp₀, hk₀, hv₀⟩ := h.source _ _ hslot
      rw [hfst, ← hv₀]
      constructor
      · intro heq p hp hpa
        refine ⟨hkept p hp hpa, ?_⟩
        -- every earlier point of the slot agrees with the one that filled it
        rw [hS.value_eq hp hp₀ (hpa.trans hk₀.symm), heq]
      · intro hall
        exact (hall p₀ hp₀ hk₀).2

/-- All answers to a client are right exactly when the points it asks `f` itself for, behind
those asked for before, are sound; and then the table has answered as `f` would. -/
theorem Filled.correct_iff (h : Filled slot f C D S) (hS : Sound slot f S) (n : Nat) (s : σ) :
    ((∀ p ∈ (fetchAll slot f K n s C D).1, p.2 = some (f p.1)) ↔
      Sound slot f (S ++ (askAll f K n s).1)) ∧
    (Sound slot f (S ++ (askAll f K n s).1) →
      (fetchAll slot f K n s C D).2.1 = (askAll f K n s).2 ∧
      Filled slot f (fetchAll slot f K n s C D).2.2.1 (fetchAll slot f K n s C D).2.2.2
        (S ++ (askAll f K n s).1)) := by
  induction n generalizing C D S s with
  | zero =>
    simp only [fetchAll, askAll, List.append_nil]
    exact ⟨iff_of_true (fun _ hp => absurd hp (by simp)) hS, fun _ => ⟨trivial, h⟩⟩
  | succ n ih =>
    cases hask : K.ask s with
    | none =>
      simp only [fetchAll, askAll, hask, List.append_nil]
      exact ⟨iff_of_true (fun _ hp => absurd hp (by simp)) hS, fun _ => ⟨trivial, h⟩⟩
    | some a =>
      have happ : ∀ T, S ++ (a, K.takes s) :: T = S ++ [(a, K.takes s)] ++ T := by simp
      have hfirst := h.handOut_eq_iff hS a (K.takes s)
      simp only [askAll, hask]
      rw [happ]
      by_cases hnext : Sound slot f (S ++ [(a, K.takes s)])
      · -- the first answer is right, so the client goes on as with `f`
        obtain ⟨P, hP, hv⟩ := Option.map_eq_some_iff.1 (hfirst.2 hnext)
        obtain ⟨v, C₁⟩ := P
        have hgone : D (slot a) = false := by
          rw [← Bool.not_eq_true]
          intro hgone
          rw [handOut, hgone, if_pos rfl] at hP
          exact absurd hP (by simp)
        have hC₁ : (UntaggedCache.fetch slot f C a).2 = C₁ := by
          rw [handOut, hgone, if_neg Bool.false_ne_true] at hP
          rw [Option.some.inj hP]
        have hfilled := h.fetch a (K.takes s)
        rw [hC₁] at hfilled
        have hrest := ih hfilled hnext (K.answer s (f a))
        have hv : v = f a := hv
        simp only [fetchAll, hask, hP, List.forall_mem_cons, hv]
        exact ⟨⟨fun hall => hrest.1.1 hall.2, fun hno => ⟨trivial, hrest.1.2 hno⟩⟩, hrest.2⟩
      · refine ⟨iff_of_false (fun hall => hnext (hfirst.1 ?_)) fun hno => hnext hno.of_append,
          fun hno => absurd hno.of_append hnext⟩
        simp only [fetchAll, hask] at hall
        cases hP : handOut slot f C D a with
        | none =>
          simp only [hP, List.forall_mem_cons] at hall
          exact absurd hall.1 (by simp)
        | some P =>
          simp only [hP, List.forall_mem_cons] at hall
          exact hall.1

end UntaggedCache
