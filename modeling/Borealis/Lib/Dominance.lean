import Mathlib.Logic.Relation
import Mathlib.Data.List.Basic

/-!
# Walks and dominators

A rooted graph is a relation `E` with a root `r`.  `d` dominates `b` when every walk from the root
to `b` passes `d`; the immediate dominator is the dominator closest to `b`.

The graphs here are acyclic, which is said by a rank that grows along every edge.  A walk then
meets a vertex at most once, and dominance is antisymmetric.
-/

namespace Borealis.Lib

variable {α : Type} (E : α → α → Prop) (r : α)

/-- The vertices of a walk from the root, the last one first. -/
inductive Walk : α → List α → Prop
  | root : Walk r [r]
  | step {a b : α} {l : List α} : Walk a l → E a b → Walk b (b :: l)

/-- Some walk from the root ends at `b`. -/
def HasWalk (b : α) : Prop := ∃ l, Walk E r b l

/-- Every walk from the root to `b` passes `d`. -/
def Dominates (d b : α) : Prop := ∀ l, Walk E r b l → d ∈ l

/-- `d` is the dominator closest to `b`. -/
structure IsIdom (d b : α) : Prop where
  ne : d ≠ b
  dominates : Dominates E r d b
  closest : ∀ e, e ≠ b → Dominates E r e b → Dominates E r e d

variable {E r}

theorem Walk.self_mem {b : α} {l : List α} (h : Walk E r b l) : b ∈ l := by
  cases h with
  | root => exact List.mem_cons_self
  | step _ _ => exact List.mem_cons_self

/-- A walk passes every vertex on it after a walk to that vertex. -/
theorem Walk.exists_of_mem {b d : α} {l : List α} (h : Walk E r b l) (hd : d ∈ l) :
    ∃ l', Walk E r d l' ∧ l' ⊆ l := by
  induction h with
  | root =>
      rw [List.mem_singleton.mp hd]
      exact ⟨[r], Walk.root, fun _ hx => hx⟩
  | @step a b l hwalk hedge ih =>
      rcases List.mem_cons.mp hd with rfl | hd
      · exact ⟨d :: l, hwalk.step hedge, fun _ hx => hx⟩
      · obtain ⟨l', hl', hsub⟩ := ih hd
        exact ⟨l', hl', fun x hx => List.mem_cons_of_mem b (hsub hx)⟩

theorem HasWalk.root : HasWalk E r r := ⟨[r], Walk.root⟩

theorem HasWalk.step {a b : α} (ha : HasWalk E r a) (hedge : E a b) : HasWalk E r b := by
  obtain ⟨l, hl⟩ := ha
  exact ⟨b :: l, hl.step hedge⟩

/-! ## Dominators -/

theorem Dominates.refl (b : α) : Dominates E r b b := fun _ h => h.self_mem

theorem Dominates.root (b : α) : Dominates E r r b := by
  intro l h
  induction h with
  | root => exact List.mem_cons_self
  | step _ _ ih => exact List.mem_cons_of_mem _ ih

theorem Dominates.hasWalk {d b : α} (hdom : Dominates E r d b) (hb : HasWalk E r b) :
    HasWalk E r d := by
  obtain ⟨l, hl⟩ := hb
  obtain ⟨l', hl', -⟩ := hl.exists_of_mem (hdom l hl)
  exact ⟨l', hl'⟩

/-- What dominates a vertex, and is not the vertex itself, dominates its predecessors. -/
theorem Dominates.of_edge {d a b : α} (hdom : Dominates E r d b) (hne : d ≠ b) (hedge : E a b) :
    Dominates E r d a := by
  intro l hl
  rcases List.mem_cons.mp (hdom (b :: l) (hl.step hedge)) with rfl | hd
  · exact absurd rfl hne
  · exact hd

/-- Past a vertex with one successor every walk passes that successor. -/
theorem Dominates.of_onlySuccessor {d c b : α} (honly : ∀ x, E d x → x = c)
    (hdom : Dominates E r d b) (hne : d ≠ b) : Dominates E r c b := by
  have hpass : ∀ {b : α} {l : List α}, Walk E r b l → d ∈ l → d ≠ b → c ∈ l := by
    intro b l h
    induction h with
    | root => exact fun hd hne => absurd (List.mem_singleton.mp hd) hne
    | @step a b l hwalk hedge ih =>
        intro hd hne
        rcases List.mem_cons.mp hd with rfl | hd
        · exact absurd rfl hne
        · rcases eq_or_ne d a with rfl | hda
          · rw [honly b hedge]
            exact List.mem_cons_self
          · exact List.mem_cons_of_mem b (ih hd hda)
  intro l hl
  exact hpass hl (hdom l hl) hne

/-! ## Acyclic graphs -/

section Ranked

variable {rank : α → Nat} (hrank : ∀ a b, E a b → rank a < rank b)

include hrank

/-- The vertices on a walk come before its end. -/
theorem Walk.rank_lt {b d : α} {l : List α} (h : Walk E r b l) (hd : d ∈ l) (hne : d ≠ b) :
    rank d < rank b := by
  induction h with
  | root => exact absurd (List.mem_singleton.mp hd) hne
  | @step a b l hwalk hedge ih =>
      rcases List.mem_cons.mp hd with rfl | hd
      · exact absurd rfl hne
      · rcases eq_or_ne d a with rfl | hda
        · exact hrank d b hedge
        · exact Nat.lt_trans (ih hd hda) (hrank a b hedge)

theorem Dominates.rank_lt {d b : α} (hdom : Dominates E r d b) (hb : HasWalk E r b)
    (hne : d ≠ b) : rank d < rank b := by
  obtain ⟨l, hl⟩ := hb
  exact hl.rank_lt hrank (hdom l hl) hne

theorem Dominates.antisymm {d b : α} (hdb : Dominates E r d b) (hbd : Dominates E r b d)
    (hb : HasWalk E r b) : d = b := by
  by_contra hne
  have hlt := hdb.rank_lt hrank hb hne
  exact absurd (hbd.rank_lt hrank (hdb.hasWalk hb) (Ne.symm hne)) (Nat.not_lt_of_lt hlt)

end Ranked

end Borealis.Lib
