import Mathlib.Data.Set.Basic

/-! # Steps with a footprint

A state is seen as a value at every location. A step with a footprint changes no
location outside its writes, and what it writes, and where, depends on its reads
only.

* `Local.agreeOn`: two states that agree where the step reads agree, behind it,
  wherever they did and where it writes;
* `Local.frame_other`: the second of them keeps the same locations as the first.
-/

set_option autoImplicit false

namespace Footprint

variable {σ L : Type} {V : L → Type} {view : σ → (l : L) → V l}

/-- The states have the same values at the locations of a set. -/
def AgreeOn (view : σ → (l : L) → V l) (X : Set L) (s t : σ) : Prop :=
  ∀ l ∈ X, view s l = view t l

/-- States that agree on a set of places agree on fewer of them. -/
theorem AgreeOn.mono {X Y : Set L} {s t : σ} (h : AgreeOn view Y s t) (hsub : X ⊆ Y) :
    AgreeOn view X s t :=
  fun l hl => h l (hsub hl)

/-- The step reads and writes inside its footprint. -/
structure Local (view : σ → (l : L) → V l) (step : σ → σ) (reads writes : σ → Set L) : Prop where
  frame : ∀ s l, l ∉ writes s → view (step s) l = view s l
  writes_eq : ∀ s t, AgreeOn view (reads s) s t → writes t = writes s
  results : ∀ s t, AgreeOn view (reads s) s t → AgreeOn view (writes s) (step s) (step t)

namespace Local

variable {step : σ → σ} {reads writes : σ → Set L} (h : Local view step reads writes) {s t : σ}
  {X : Set L}

include h

/-- After a step two states that agree on what it reads agree on what it writes too, and
still on what they agreed on before. The footprint grows along a run this way. -/
theorem agreeOn (hagree : AgreeOn view X s t) (hreads : reads s ⊆ X) :
    AgreeOn view (X ∪ writes s) (step s) (step t) := by
  have hread := hagree.mono hreads
  intro l hl
  by_cases hw : l ∈ writes s
  · exact h.results s t hread l hw
  · have hwt : l ∉ writes t := by rwa [h.writes_eq s t hread]
    have hX : l ∈ X := hl.resolve_right hw
    rw [h.frame s l hw, h.frame t l hwt]
    exact hagree l hX

/-- What a step does not write is what it was, in the other state as well, since the two
write the same places. -/
theorem frame_other (hread : AgreeOn view (reads s) s t) {l : L} (hl : l ∉ writes s) :
    view (step t) l = view t l := by
  refine h.frame t l ?_
  rwa [h.writes_eq s t hread]

end Local

end Footprint
