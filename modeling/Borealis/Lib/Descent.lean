import Borealis.Lib.WorkQueue
import Mathlib.Data.Fintype.Card
import Mathlib.Data.Set.Finite.Lattice

/-!
# Descents without cycles

Descending from an entry to a child again and again comes to an end, whichever children are chosen,
if no descendant descends from itself and there are finitely many descendants
(`acc_iff_acyclic`).  A recursive procedure that works through all children comes to an end under
just that condition, when it can handle each descendant by itself (`Fueled.exists_done_iff`).
-/

namespace Borealis.Lib

variable {α : Type} {children : α → List α}

/-- What descends from an entry is the entry with what descends from its children. -/
theorem setOf_descends (a : α) :
    {b | Descends children a b} =
      insert a (⋃ c ∈ {c | c ∈ children a}, {b | Descends children c b}) := by
  ext b
  simp only [Set.mem_ofPred_eq, Set.mem_insert_iff, Set.mem_iUnion, exists_prop]
  exact descends_iff

/-- **Descents end exactly when no descendant descends from itself**, among finitely many. -/
theorem acc_iff_acyclic {a : α} (hfinite : {b | Descends children a b}.Finite) :
    Acc (fun c b => Child children b c) a ↔
      ∀ b, Descends children a b → ¬ Relation.TransGen (Child children) b b := by
  constructor
  · intro hacc
    induction hacc with
    | intro a _ ih =>
      intro b hb hcycle
      rcases descends_iff.1 hb with rfl | ⟨c, hc, hcb⟩
      · -- a cycle through the entry is a cycle through its child
        obtain ⟨c, hc, hback⟩ := Relation.TransGen.head'_iff.1 hcycle
        have hsub : {d | Descends children c d} ⊆ {d | Descends children b d} :=
          fun d hd => Relation.ReflTransGen.head hc hd
        exact ih c hc (hfinite.subset hsub) c Relation.ReflTransGen.refl
          (Relation.TransGen.tail' hback hc)
      · have hsub : {d | Descends children c d} ⊆ {d | Descends children a d} :=
          fun d hd => Relation.ReflTransGen.head hc hd
        exact ih c hc (hfinite.subset hsub) b hcb hcycle
  · intro hacyclic
    -- below an entry in the transitive closure: well founded, for lack of cycles
    let below (c b : {b // Descends children a b}) : Prop :=
      Relation.TransGen (Child children) b.1 c.1
    have : Finite {b // Descends children a b} := hfinite
    have : IsTrans _ below := ⟨fun _ _ _ hcb hba => Relation.TransGen.trans hba hcb⟩
    have : Std.Irrefl below := ⟨fun b hb => hacyclic b.1 b.2 hb⟩
    have hwf : WellFounded below := Finite.wellFounded_of_trans_of_irrefl below
    suffices hmain : ∀ b : {b // Descends children a b},
        Acc (fun c b => Child children b c) b.1 from hmain ⟨a, Relation.ReflTransGen.refl⟩
    intro b
    induction b using hwf.induction with
    | _ b ih =>
      refine Acc.intro _ fun c hc => ?_
      exact ih ⟨c, b.2.tail hc⟩ (Relation.TransGen.single hc)

/-! ## Fuel -/

/-- A procedure that works through the children of an entry, with one unit of fuel for each level:
with so much fuel it is ready for the entry itself, and done with it when done with the children. -/
structure Fueled (children : α → List α) (ready done : ℕ → α → Prop) : Prop where
  zero : ∀ a, ¬ done 0 a
  succ : ∀ fuel a, done (fuel + 1) a ↔ ready fuel a ∧ ∀ c ∈ children a, done fuel c
  ready_mono : ∀ {fuel larger : ℕ} a, fuel ≤ larger → ready fuel a → ready larger a

variable {ready done : ℕ → α → Prop}

theorem Fueled.done_mono (h : Fueled children ready done) {fuel larger : ℕ} (hle : fuel ≤ larger)
    (a : α) (hdone : done fuel a) : done larger a := by
  induction fuel generalizing larger a with
  | zero => exact absurd hdone (h.zero a)
  | succ fuel ih =>
      obtain ⟨larger, rfl⟩ := Nat.exists_eq_add_of_le' (Nat.le_trans (Nat.succ_pos fuel) hle)
      have hle := Nat.le_of_succ_le_succ hle
      obtain ⟨hready, hchildren⟩ := (h.succ fuel a).1 hdone
      apply (h.succ larger a).2
      exact ⟨h.ready_mono a hle hready, fun c hc => ih hle c (hchildren c hc)⟩

/-- One amount of fuel is enough for finitely many entries. -/
theorem Fueled.exists_common (h : Fueled children ready done) :
    ∀ l : List α, (∀ c ∈ l, ∃ fuel, done fuel c) → ∃ fuel, ∀ c ∈ l, done fuel c
  | [], _ => ⟨0, fun _ hc => absurd hc List.not_mem_nil⟩
  | c :: l, hl => by
      obtain ⟨first, hfirst⟩ := hl c List.mem_cons_self
      obtain ⟨rest, hrest⟩ := h.exists_common l fun d hd => hl d (List.mem_cons_of_mem _ hd)
      refine ⟨max first rest, fun d hd => ?_⟩
      rcases List.mem_cons.1 hd with rfl | hd
      · exact h.done_mono (Nat.le_max_left _ _) _ hfirst
      · exact h.done_mono (Nat.le_max_right _ _) _ (hrest d hd)

/-- What is done has no endless descents, and all of its descendants can be made ready. -/
theorem Fueled.acc_of_done (h : Fueled children ready done) {fuel : ℕ} {a : α}
    (hdone : done fuel a) :
    (∀ b, Descends children a b → ∃ fuel, ready fuel b) ∧
      Acc (fun c b => Child children b c) a := by
  induction fuel generalizing a with
  | zero => exact absurd hdone (h.zero a)
  | succ fuel ih =>
      obtain ⟨hready, hchildren⟩ := (h.succ fuel a).1 hdone
      refine ⟨fun b hb => ?_, Acc.intro _ fun c hc => (ih (hchildren c hc)).2⟩
      rcases descends_iff.1 hb with rfl | ⟨c, hc, hcb⟩
      · exact ⟨fuel, hready⟩
      · exact (ih (hchildren c hc)).1 b hcb

theorem Fueled.exists_done_of_acc (h : Fueled children ready done) {a : α}
    (hacc : Acc (fun c b => Child children b c) a)
    (hready : ∀ b, Descends children a b → ∃ fuel, ready fuel b) : ∃ fuel, done fuel a := by
  induction hacc with
  | intro a _ ih =>
    obtain ⟨here, hhere⟩ := hready a Relation.ReflTransGen.refl
    obtain ⟨below, hbelow⟩ := h.exists_common (children a) fun c hc =>
      ih c hc fun b hb => hready b (Relation.ReflTransGen.head hc hb)
    refine ⟨max here below + 1, (h.succ _ a).2 ⟨?_, fun c hc => ?_⟩⟩
    · exact h.ready_mono a (Nat.le_max_left _ _) hhere
    · exact h.done_mono (Nat.le_max_right _ _) c (hbelow c hc)

/-- **A procedure comes to an end exactly when each descendant can be made ready and none descends
from itself.** -/
theorem Fueled.exists_done_iff (h : Fueled children ready done) {a : α}
    (hfinite : {b | Descends children a b}.Finite) :
    (∃ fuel, done fuel a) ↔ ∀ b, Descends children a b →
      (∃ fuel, ready fuel b) ∧ ¬ Relation.TransGen (Child children) b b := by
  have hacyclic := acc_iff_acyclic hfinite
  constructor
  · rintro ⟨fuel, hdone⟩ b hb
    obtain ⟨hready, hacc⟩ := h.acc_of_done hdone
    exact ⟨hready b hb, hacyclic.1 hacc b hb⟩
  · intro hall
    apply h.exists_done_of_acc
    · exact hacyclic.2 fun b hb => (hall b hb).2
    · exact fun b hb => (hall b hb).1

end Borealis.Lib
