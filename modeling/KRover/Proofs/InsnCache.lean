import KRover.ThinCtrl

/-! # The instruction cache and the decoder

`m_InsnCache` is indexed by the low 28 bits of an address and keeps no tag,
while the code region that the loader passes reaches over the whole address
space. An instruction that the executor has run is deleted, and its address stays in
the cache. `fetched_correct_iff`: the instructions taken from the cache are the
decoded ones exactly when no address that the calls visit comes behind one with the
same low 28 bits that decodes differently or was run by the executor.
-/

set_option autoImplicit false

namespace KRover

open UntaggedCache

variable {Instr : Type} {decode : Nat → Instr} {isTransfer : Instr → Bool} {size : Instr → Nat}

/-- The statement for a table that earlier calls have filled. -/
theorem fetched_correct_of_filled (calls : List (FunctionCall × Nat))
    {insnCache : Nat → Option Instr} {freed : Nat → Bool} {S : List (Nat × Bool)}
    (h : Filled insnCacheIdx decode insnCache freed S) (hS : Sound insnCacheIdx decode S) :
    (∀ p ∈ fetchedInsns decode isTransfer size calls insnCache freed, p.2 = some (decode p.1)) ↔
      Sound insnCacheIdx decode (S ++ visitedAddrs decode isTransfer size calls) := by
  induction calls generalizing insnCache freed S with
  | nil =>
    have hnil : visitedAddrs decode isTransfer size [] = [] := rfl
    rw [hnil, List.append_nil]
    exact iff_of_true (fun _ hp => absurd hp (by simp [fetchedInsns])) hS
  | cons c calls ih =>
    obtain ⟨call, turns⟩ := c
    have hcall := h.correct_iff (K := fetchLoops isTransfer size call) hS turns
      (.preDisassemble call.rip 0)
    have hvisited : visitedAddrs decode isTransfer size ((call, turns) :: calls)
        = (askAll decode (fetchLoops isTransfer size call) turns
            (.preDisassemble call.rip 0)).1 ++ visitedAddrs decode isTransfer size calls := rfl
    rw [fetchedInsns, List.forall_mem_append, hcall.1, hvisited, ← List.append_assoc]
    constructor
    · intro ⟨hnow, hrest⟩
      exact (ih (hcall.2 hnow).2 hnow).1 hrest
    · intro hall
      have hnow := hall.of_append
      exact ⟨hnow, (ih (hcall.2 hnow).2 hnow).2 hall⟩

/-- Every instruction that calls of `processFunction` take from the cache is the decoding of
the bytes at its address exactly when no visited address comes behind one with the same low
28 bits that decodes differently or was run by the executor. The slot is chosen by the low
bits and holds no tag. It is never emptied, and the executor deletes the instruction that it
was given, while the slot keeps the pointer to it. -/
theorem fetched_correct_iff (decode : Nat → Instr) (isTransfer : Instr → Bool)
    (size : Instr → Nat) (calls : List (FunctionCall × Nat)) :
    (∀ p ∈ fetchedInsns decode isTransfer size calls (fun _ => none) (fun _ => false),
        p.2 = some (decode p.1)) ↔
      Sound insnCacheIdx decode (visitedAddrs decode isTransfer size calls) := by
  have hiff := @fetched_correct_of_filled Instr decode isTransfer size calls _ _ _
    (filled_nil insnCacheIdx decode) (sound_nil insnCacheIdx decode)
  rwa [List.nil_append] at hiff

/-- A call that starts in the kernel text and jumps to an address of a module
256 MiB further up. -/
def aliasingCall : FunctionCall where
  rip := 0xffffffff81000000
  endRIP := 0
  nextIP := fun _ => 0xffffffff91000000
  executed := []

/-- Code whose decoding tells every address from every other: the cache
returns the first instruction for the second. -/
theorem not_fetched_correct :
    ¬ ∀ p ∈ fetchedInsns (fun addr => addr) (fun _ => true) (fun _ => 1) [(aliasingCall, 2)]
      (fun _ => none) (fun _ => false), p.2 = some p.1 := by
  intro hall
  have hno := (fetched_correct_of_filled [(aliasingCall, 2)]
    (filled_nil insnCacheIdx fun addr => addr) (sound_nil insnCacheIdx fun addr => addr)).1 hall
  have hsame := hno.value_eq (p := (0xffffffff81000000, false)) (q := (0xffffffff91000000, false))
    (by decide) (by decide) (by decide)
  exact absurd hsame (by decide)

/-- A loop of one instruction at 0x1000, which the executor runs: at the second visit the
cache holds a pointer to what was deleted. -/
example : fetchedInsns (fun addr => addr) (fun _ => false) (fun _ => 1)
    [(⟨0x1000, 0x1001, fun _ => 0, [(0x1000, true), (0x1000, true)]⟩, 3)]
    (fun _ => none) (fun _ => false)
      = [(0x1000, some 0x1000), (0x1000, some 0x1000), (0x1000, none)] := by
  decide

end KRover
