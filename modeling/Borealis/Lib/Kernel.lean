import Mathlib.Logic.Relation

/-!
# Closures as kernels

The equivalence closure of a relation as the kernel of a map to class representatives.  When the
relation grows by edges between two classes, the map merges the two (`eqvGen_merge`).
-/

namespace Borealis

namespace Kernel

open Relation

variable {α β : Type*} {R S : α → α → Prop} {f : α → β}

/-- The representative after the class of `child` went into the class of `top`. -/
def merge [DecidableEq β] (child top x : β) : β := if x = child then top else x

theorem merge_self [DecidableEq β] (child top : β) : merge child top child = top := if_pos rfl

theorem merge_of_ne [DecidableEq β] {child top x : β} (h : x ≠ child) : merge child top x = x :=
  if_neg h

/-- **A relation that grows by edges between two classes merges them.** -/
theorem eqvGen_merge [DecidableEq β] {c t : α} (hkernel : ∀ x y, f x = f y ↔ EqvGen R x y)
    (hmono : R ≤ S) (hct : EqvGen S c t)
    (hedges : ∀ x y, S x y → R x y ∨ merge (f c) (f t) (f x) = merge (f c) (f t) (f y))
    (x y : α) : merge (f c) (f t) (f x) = merge (f c) (f t) (f y) ↔ EqvGen S x y := by
  have hold : ∀ {x y}, f x = f y → EqvGen S x y := fun h =>
    EqvGen.mono hmono _ _ ((hkernel _ _).mp h)
  constructor
  · intro heq
    unfold merge at heq
    split at heq <;> split at heq
    case isTrue.isTrue hx hy => exact hold (hx.trans hy.symm)
    case isTrue.isFalse hx hy => exact ((hold hx).trans _ _ _ hct).trans _ _ _ (hold heq)
    case isFalse.isTrue hx hy =>
      exact ((hold heq).trans _ _ _ (hct.symm _ _)).trans _ _ _ (hold hy.symm)
    case isFalse.isFalse hx hy => exact hold heq
  · intro hclosure
    induction hclosure with
    | rel x y hedge =>
        rcases hedges x y hedge with hR | heq
        · rw [(hkernel x y).mpr (EqvGen.rel x y hR)]
        · exact heq
    | refl x => rfl
    | symm x y _ ih => exact ih.symm
    | trans x y z _ _ ih₁ ih₂ => exact ih₁.trans ih₂

/-- An edge inside a class adds nothing. -/
theorem eqvGen_same {l r : α} (hlr : EqvGen R l r) (a b : α) :
    EqvGen R a b ↔ EqvGen (fun a b => R a b ∨ a = l ∧ b = r) a b := by
  refine ⟨EqvGen.mono (fun x y hxy => Or.inl hxy) _ _, fun hclosure => ?_⟩
  induction hclosure with
  | rel x y hxy =>
      rcases hxy with hR | ⟨rfl, rfl⟩
      · exact EqvGen.rel x y hR
      · exact hlr
  | refl x => exact EqvGen.refl x
  | symm x y _ ih => exact ih.symm _ _
  | trans x y z _ _ ih₁ ih₂ => exact ih₁.trans _ _ _ ih₂

/-- The kernel of an injective map is the closure of the empty relation. -/
theorem eqvGen_empty (hf : Function.Injective f) (a b : α) :
    f a = f b ↔ EqvGen (fun _ _ => False) a b := by
  refine ⟨fun h => hf h ▸ EqvGen.refl a, fun hclosure => ?_⟩
  induction hclosure with
  | rel _ _ h => exact h.elim
  | refl _ => rfl
  | symm _ _ _ ih => exact ih.symm
  | trans _ _ _ _ _ ih₁ ih₂ => exact ih₁.trans ih₂

end Kernel

end Borealis
