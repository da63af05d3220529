import Mathlib.Data.List.Basic
import Mathlib.Data.Bool.Basic

/-!
# Predicate states

`State/PredicateState.def`: a predicate state is a sequence of predicates, a chain of two states
or a choice between states.  The states are generic in the predicates; `Borealis.Predicate` is
the instance the analyses use.  The visited locations a basic state also carries are read by no
operation modelled here.

`holds` is the meaning of a state under a valuation of its predicates, the one its SMT
translation gives it: a conjunction for a basic state and a chain, a disjunction for a choice,
so that the empty choice is false.
-/

namespace Borealis

/-- `PredicateState::Ptr`. -/
inductive PredicateState (Pred : Type) where
  | basic (data : List Pred)
  | chain (base curr : PredicateState Pred)
  | choice (choices : List (PredicateState Pred))

namespace PredicateState

variable {Pred : Type}

/-- Induction over states in which a choice hands over the hypothesis for each of its
alternatives. -/
theorem induction {motive : PredicateState Pred → Prop}
    (basic : ∀ data, motive (.basic data))
    (chain : ∀ base curr, motive base → motive curr → motive (.chain base curr))
    (choice : ∀ choices, (∀ c ∈ choices, motive c) → motive (.choice choices))
    (s : PredicateState Pred) : motive s :=
  @PredicateState.rec Pred motive (fun choices => ∀ c ∈ choices, motive c)
    basic chain choice (by simp)
    (fun head tail hhead htail c hc => by
      rcases List.mem_cons.mp hc with rfl | hc
      · exact hhead
      · exact htail c hc) s

/-! ## Emptiness and size -/

mutual
/-- `isEmpty` of the three classes. -/
def isEmpty : PredicateState Pred → Bool
  | basic data => data.isEmpty
  | chain base curr => isEmpty curr && isEmpty base
  | choice choices => allEmpty choices

/-- `std::all_of` over the alternatives of a choice. -/
def allEmpty : List (PredicateState Pred) → Bool
  | [] => true
  | c :: cs => isEmpty c && allEmpty cs
end

mutual
/-- `size` of the three classes: the number of predicates in the state. -/
def size : PredicateState Pred → Nat
  | basic data => data.length
  | chain base curr => size curr + size base
  | choice choices => sizeAll choices

/-- The sum of the sizes of the alternatives of a choice. -/
def sizeAll : List (PredicateState Pred) → Nat
  | [] => 0
  | c :: cs => size c + sizeAll cs
end

theorem allEmpty_eq_all (cs : List (PredicateState Pred)) : allEmpty cs = cs.all isEmpty := by
  induction cs with
  | nil => rfl
  | cons c cs ih => simp [allEmpty, ih]

theorem isEmpty_choice_iff {cs : List (PredicateState Pred)} :
    (choice cs).isEmpty = true ↔ ∀ c ∈ cs, c.isEmpty = true := by
  simp [isEmpty, allEmpty_eq_all]

/-! ## Meaning -/

mutual
/-- The truth value of a state when `v` gives the truth value of each predicate. -/
def holds (v : Pred → Bool) : PredicateState Pred → Bool
  | basic data => data.all v
  | chain base curr => holds v base && holds v curr
  | choice choices => holdsAny v choices

/-- The disjunction of the alternatives of a choice. -/
def holdsAny (v : Pred → Bool) : List (PredicateState Pred) → Bool
  | [] => false
  | c :: cs => holds v c || holdsAny v cs
end

theorem holdsAny_eq_any (v : Pred → Bool) (cs : List (PredicateState Pred)) :
    holdsAny v cs = cs.any (holds v) := by
  induction cs with
  | nil => rfl
  | cons c cs ih => simp [holdsAny, ih]

@[simp] theorem holds_basic (v : Pred → Bool) (data : List Pred) :
    (basic data).holds v = data.all v := by
  rw [holds]

@[simp] theorem holds_chain (v : Pred → Bool) (base curr : PredicateState Pred) :
    (chain base curr).holds v = (base.holds v && curr.holds v) := by
  rw [holds]

@[simp] theorem holds_choice (v : Pred → Bool) (cs : List (PredicateState Pred)) :
    (choice cs).holds v = cs.any (holds v) := by
  rw [holds, holdsAny_eq_any]

/-- A state stays true when more predicates become true: no predicate occurs negated. -/
theorem holds_mono {v w : Pred → Bool} (hvw : ∀ p, v p = true → w p = true)
    {s : PredicateState Pred} (hs : s.holds v = true) : s.holds w = true := by
  induction s using induction with
  | basic data =>
      rw [holds_basic, List.all_eq_true] at hs ⊢
      intro p hp
      exact hvw p (hs p hp)
  | chain base curr hbase hcurr =>
      rw [holds_chain, Bool.and_eq_true] at hs ⊢
      exact ⟨hbase hs.1, hcurr hs.2⟩
  | choice choices ih =>
      rw [holds_choice, List.any_eq_true] at hs ⊢
      obtain ⟨c, hc, hholds⟩ := hs
      exact ⟨c, hc, ih c hc hholds⟩

/-! ## Flattening -/

mutual
/-- All predicates of a state, in order. -/
def preds : PredicateState Pred → List Pred
  | basic data => data
  | chain base curr => preds base ++ preds curr
  | choice choices => predsAll choices

/-- All predicates of the alternatives of a choice, in order. -/
def predsAll : List (PredicateState Pred) → List Pred
  | [] => []
  | c :: cs => preds c ++ predsAll cs
end

theorem predsAll_eq_flatMap (cs : List (PredicateState Pred)) : predsAll cs = cs.flatMap preds := by
  induction cs with
  | nil => rfl
  | cons c cs ih => simp [predsAll, ih]

/-- A state is empty exactly when no predicate occurs in it. -/
theorem isEmpty_iff_preds (s : PredicateState Pred) : s.isEmpty = true ↔ s.preds = [] := by
  induction s using induction with
  | basic data => simp [isEmpty, preds]
  | chain base curr hbase hcurr =>
      simp only [isEmpty, preds, Bool.and_eq_true, List.append_eq_nil_iff, hbase, hcurr]
      exact and_comm
  | choice choices ih =>
      simp only [isEmpty_choice_iff, preds, predsAll_eq_flatMap, List.flatMap_eq_nil_iff]
      exact forall₂_congr ih

end PredicateState

end Borealis
