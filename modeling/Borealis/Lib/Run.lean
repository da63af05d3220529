/-!
# Runs under a guard

A system takes a state and an operation to the next state, or to none where it stops.  A run may
be restricted to operations that meet a guard in the state they are performed in.  What holds
initially and is preserved by every guarded step holds in every state such a run reaches.
-/

namespace Borealis.Lib

variable {σ ι : Type} (step : σ → ι → Option σ) (guard : σ → ι → Prop)

/-- The states that runs from `init` reach when every operation meets the guard. -/
inductive Reachable (init : σ) : σ → Prop
  | init : Reachable init init
  | step {s s' : σ} {i : ι} :
      Reachable init s → guard s i → step s i = some s' → Reachable init s'

namespace Reachable

variable {step guard} {init s : σ}

/-- The invariant rule. -/
theorem invariant {P : σ → Prop} (h : Reachable step guard init s) (hinit : P init)
    (hstep : ∀ s i s', P s → guard s i → step s i = some s' → P s') : P s := by
  induction h with
  | init => exact hinit
  | step _ hguard hs ih => exact hstep _ _ _ ih hguard hs

end Reachable

end Borealis.Lib
