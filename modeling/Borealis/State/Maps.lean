import Borealis.State.Simplify

/-!
# Maps over predicate states

`reverse` of the three classes, and `map` to predicates that may be null followed by the `filter`
of the nulls.  The second half counts the state objects: simplification makes none
(`nodes_simplify_le`), which is why a walk that simplifies every choice it meets comes to an end.
-/

namespace Borealis

namespace PredicateState

variable {α β : Type}

/-! ## Maps over states -/

mutual
/-- `reverse` of the three classes. -/
def reverse : PredicateState α → PredicateState α
  | basic data => basic data.reverse
  | chain base curr => chain (reverse curr) (reverse base)
  | choice choices => choice (reverseAll choices)

/-- `reverse` on every alternative of a choice. -/
def reverseAll : List (PredicateState α) → List (PredicateState α)
  | [] => []
  | c :: cs => reverse c :: reverseAll cs
end

mutual
/-- `map` to predicates that may be null, followed by a `filter` of the nulls. -/
def filterMap (f : α → Option β) : PredicateState α → PredicateState β
  | basic data => basic (data.filterMap f)
  | chain base curr => chain (filterMap f base) (filterMap f curr)
  | choice choices => choice (filterMapAll f choices)

/-- The same for every alternative of a choice. -/
def filterMapAll (f : α → Option β) : List (PredicateState α) → List (PredicateState β)
  | [] => []
  | c :: cs => filterMap f c :: filterMapAll f cs
end

theorem reverseAll_eq_map (cs : List (PredicateState α)) : reverseAll cs = cs.map reverse := by
  induction cs with
  | nil => rfl
  | cons c cs ih => rw [reverseAll, ih, List.map_cons]

theorem filterMapAll_eq_map (f : α → Option β) (cs : List (PredicateState α)) :
    filterMapAll f cs = cs.map (filterMap f) := by
  induction cs with
  | nil => rfl
  | cons c cs ih => rw [filterMapAll, ih, List.map_cons]

/-- Two maps of the alternatives of a choice that agree on each alternative. -/
theorem any_congr_of_mem {f g : α → Bool} {cs : List α} (hfg : ∀ c ∈ cs, f c = g c) :
    cs.any f = cs.any g := by
  induction cs with
  | nil => rfl
  | cons c cs ih =>
      rw [List.any_cons, List.any_cons, hfg c List.mem_cons_self,
        ih fun d hd => hfg d (List.mem_cons_of_mem _ hd)]

@[simp] theorem holds_reverse (v : α → Bool) (s : PredicateState α) :
    s.reverse.holds v = s.holds v := by
  induction s using induction with
  | basic data => rw [reverse, holds_basic, holds_basic, List.all_reverse]
  | chain base curr hbase hcurr =>
      rw [reverse, holds_chain, holds_chain, hbase, hcurr, Bool.and_comm]
  | choice choices ih =>
      rw [reverse, reverseAll_eq_map, holds_choice, holds_choice, List.any_map]
      exact any_congr_of_mem ih

/-- Filtering the nulls out reads a null as true. -/
theorem holds_filterMap (f : α → Option β) (v : β → Bool) (s : PredicateState α) :
    (s.filterMap f).holds v = s.holds fun p => (f p).elim true v := by
  induction s using induction with
  | basic data =>
      rw [filterMap, holds_basic, holds_basic]
      induction data with
      | nil => rfl
      | cons p data ih =>
          rw [List.filterMap_cons, List.all_cons, ← ih]
          cases f p <;> simp
  | chain base curr hbase hcurr => rw [filterMap, holds_chain, holds_chain, hbase, hcurr]
  | choice choices ih =>
      rw [filterMap, filterMapAll_eq_map, holds_choice, holds_choice, List.any_map]
      exact any_congr_of_mem ih

theorem preds_reverse_perm (s : PredicateState α) : s.reverse.preds.Perm s.preds := by
  induction s using induction with
  | basic data => exact data.reverse_perm
  | chain base curr hbase hcurr =>
      rw [reverse, preds, preds]
      exact (hcurr.append hbase).trans List.perm_append_comm
  | choice choices ih =>
      rw [reverse, reverseAll_eq_map, preds, preds, predsAll_eq_flatMap, predsAll_eq_flatMap,
        List.flatMap_map]
      induction choices with
      | nil => exact List.Perm.refl _
      | cons c cs ihcs =>
          rw [List.flatMap_cons, List.flatMap_cons]
          exact (ih c List.mem_cons_self).append
            (ihcs fun d hd => ih d (List.mem_cons_of_mem _ hd))

theorem isEmpty_reverse (s : PredicateState α) : s.reverse.isEmpty = s.isEmpty := by
  rw [Bool.eq_iff_iff, isEmpty_iff_preds, isEmpty_iff_preds]
  constructor
  · intro h
    have := preds_reverse_perm s
    rw [h] at this
    exact this.symm.eq_nil
  · intro h
    have := preds_reverse_perm s
    rw [h] at this
    exact this.eq_nil

/-- Reversing a state loses nothing in its choices. -/
theorem choicesKept_reverse {complementary : α → α → Prop} {s : PredicateState α}
    (h : ChoicesKept complementary s) : ChoicesKept complementary s.reverse := by
  induction s using induction with
  | basic data => trivial
  | chain base curr hbase hcurr => exact ⟨hcurr h.2, hbase h.1⟩
  | choice choices ih =>
      obtain ⟨hall, hempty, hpair⟩ := h
      rw [choicesKeptAll_iff] at hall
      rw [reverse, reverseAll_eq_map]
      refine ⟨(choicesKeptAll_iff complementary).mpr fun d hd => ?_, fun d hd hde => ?_, ?_⟩
      · obtain ⟨c, hc, rfl⟩ := List.mem_map.mp hd
        exact ih c hc (hall c hc)
      · obtain ⟨c, hc, rfl⟩ := List.mem_map.mp hd
        rw [isEmpty_reverse] at hde
        rw [vacuous, holds_reverse]
        exact hempty c hc hde
      · -- a reversed alternative with one predicate has that predicate
        rintro ⟨a, b, p, q, hfilter, ha, hb, hcomp⟩
        have hfilter' : (choices.map reverse).filter (fun c => !c.isEmpty) =
            (choices.filter fun c => !c.isEmpty).map reverse := by
          rw [List.filter_map]
          congr 1
          exact List.filter_congr fun c _ => by simp only [Function.comp_apply, isEmpty_reverse]
        rw [hfilter'] at hfilter
        obtain ⟨a', rest, hrest, rfl, hmap⟩ := List.map_eq_cons_iff.mp hfilter
        obtain ⟨b', rest', hrest', rfl, hnil⟩ := List.map_eq_cons_iff.mp hmap
        obtain rfl : rest' = [] := List.map_eq_nil_iff.mp hnil
        subst hrest'
        have hsingle : ∀ (c : PredicateState α) (r : α), c.reverse.preds = [r] → c.preds = [r] := by
          intro c r hc
          have := preds_reverse_perm c
          rw [hc] at this
          exact List.perm_singleton.mp this.symm
        exact hpair ⟨a', b', p, q, hrest, hsingle a' p ha, hsingle b' q hb, hcomp⟩

/-- Predicates are mapped one by one. -/
theorem preds_filterMap (f : α → Option β) (s : PredicateState α) :
    (s.filterMap f).preds = s.preds.filterMap f := by
  induction s using induction with
  | basic data => rfl
  | chain base curr hbase hcurr => rw [filterMap, preds, hbase, hcurr, preds, List.filterMap_append]
  | choice choices ih =>
      rw [filterMap, preds, preds, filterMapAll_eq_map, predsAll_eq_flatMap, predsAll_eq_flatMap,
        List.flatMap_map, List.filterMap_flatMap]
      exact List.flatMap_congr fun c hc => ih c hc

/-- A map that drops no predicate keeps what is empty. -/
theorem isEmpty_filterMap {f : α → Option β} {s : PredicateState α}
    (hf : ∀ p ∈ s.preds, (f p).isSome = true) : (s.filterMap f).isEmpty = s.isEmpty := by
  rw [Bool.eq_iff_iff, isEmpty_iff_preds, isEmpty_iff_preds, preds_filterMap,
    List.filterMap_eq_nil_iff]
  constructor
  · intro hnone
    refine List.eq_nil_iff_forall_not_mem.2 fun p hp => ?_
    have hsome := hf p hp
    rw [hnone p hp] at hsome
    exact Bool.false_ne_true hsome
  · intro hnil p hp
    rw [hnil] at hp
    exact absurd hp List.not_mem_nil

/-- Simplification keeps no other predicates. -/
theorem mem_preds_of_simplify (matcher : List (PredicateState α) → Bool) {s : PredicateState α}
    {p : α} (hp : p ∈ (s.simplify matcher).preds) : p ∈ s.preds := by
  induction s using induction with
  | basic data => exact hp
  | chain base curr hbase hcurr =>
      rw [preds, List.mem_append]
      rw [simplify] at hp
      split_ifs at hp
      · exact Or.inl (hbase hp)
      · exact Or.inr (hcurr hp)
      · rw [preds, List.mem_append] at hp
        exact hp.imp hbase hcurr
  | choice choices ih =>
      rw [preds, predsAll_eq_flatMap, List.mem_flatMap]
      by_cases hmatch : matcher (kept matcher choices) = true
      · rw [simplify, simplifyAll_eq_map, ← kept, if_pos hmatch] at hp
        exact absurd hp List.not_mem_nil
      · rw [preds_simplify_choice_of_kept matcher (Bool.eq_false_iff.2 hmatch),
          List.mem_flatMap] at hp
        obtain ⟨c, hc, hp⟩ := hp
        obtain ⟨d, hd, rfl⟩ := List.mem_map.1 (List.mem_filter.1 hc).1
        exact ⟨d, hd, ih d hd hp⟩

/-- **A map and simplification change places**: what a map leaves to simplification can be read
before the map. -/
theorem simplify_filterMap (matcher : List (PredicateState β) → Bool) {f : α → Option β}
    {s : PredicateState α} (hf : ∀ p ∈ s.preds, (f p).isSome = true) :
    (s.filterMap f).simplify matcher =
      (s.simplify fun cs => matcher (cs.map (filterMap f))).filterMap f := by
  have hempty : ∀ t : PredicateState α, (∀ p ∈ t.preds, (f p).isSome = true) →
      ((t.simplify fun cs => matcher (cs.map (filterMap f))).filterMap f).isEmpty =
        (t.simplify fun cs => matcher (cs.map (filterMap f))).isEmpty := fun t ht =>
    isEmpty_filterMap fun p hp => ht p (mem_preds_of_simplify _ hp)
  induction s using induction with
  | basic data => rfl
  | chain base curr hbase hcurr =>
      have hfb : ∀ p ∈ base.preds, (f p).isSome = true := fun p hp =>
        hf p (by rw [preds]; exact List.mem_append_left _ hp)
      have hfc : ∀ p ∈ curr.preds, (f p).isSome = true := fun p hp =>
        hf p (by rw [preds]; exact List.mem_append_right _ hp)
      simp only [filterMap, simplify, hbase hfb, hcurr hfc, hempty base hfb, hempty curr hfc]
      split_ifs <;> rfl
  | choice choices ih =>
      have hfc : ∀ c ∈ choices, ∀ p ∈ c.preds, (f p).isSome = true := fun c hc p hp =>
        hf p (by rw [preds, predsAll_eq_flatMap]; exact List.mem_flatMap_of_mem hc hp)
      have hkept : ((filterMapAll f choices).map (simplify matcher)).filter
            (fun c => !c.isEmpty) =
          ((choices.map (simplify fun cs => matcher (cs.map (filterMap f)))).filter
            fun c => !c.isEmpty).map (filterMap f) := by
        have hagree : choices.map (simplify matcher ∘ filterMap f) =
            (choices.map (simplify fun cs => matcher (cs.map (filterMap f)))).map
              (filterMap f) := by
          rw [List.map_map]
          exact List.map_congr_left fun c hc => ih c hc (hfc c hc)
        rw [filterMapAll_eq_map, List.map_map, hagree, List.filter_map]
        refine congrArg _ (List.filter_congr fun d hd => ?_)
        obtain ⟨c, hc, rfl⟩ := List.mem_map.1 hd
        exact congrArg not (hempty c (hfc c hc))
      simp only [filterMap, simplify, simplifyAll_eq_map, hkept]
      split_ifs with hmatch
      · rfl
      · generalize (choices.map _).filter _ = kept
        rcases kept with _ | ⟨c, _ | ⟨d, cs⟩⟩
        · rfl
        · rfl
        · exact congrArg choice (filterMapAll_eq_map f (c :: d :: cs)).symm

/-! ## Size -/

mutual
/-- The number of state objects in a state. -/
def nodes : PredicateState α → Nat
  | basic _ => 1
  | chain base curr => nodes base + nodes curr + 1
  | choice choices => nodesAll choices + 1

/-- The number of state objects in the alternatives of a choice. -/
def nodesAll : List (PredicateState α) → Nat
  | [] => 0
  | c :: cs => nodes c + nodesAll cs
end

theorem nodes_pos (s : PredicateState α) : 0 < s.nodes := by
  cases s <;> rw [nodes] <;> omega

theorem nodes_le_nodesAll {c : PredicateState α} {cs : List (PredicateState α)} (hc : c ∈ cs) :
    c.nodes ≤ nodesAll cs := by
  induction cs with
  | nil => exact absurd hc List.not_mem_nil
  | cons d ds ih =>
      rw [nodesAll]
      rcases List.mem_cons.mp hc with rfl | hc
      · omega
      · have := ih hc
        omega

theorem nodesAll_filter_le (f : PredicateState α → Bool) (cs : List (PredicateState α)) :
    nodesAll (cs.filter f) ≤ nodesAll cs := by
  induction cs with
  | nil => exact Nat.le_refl _
  | cons c cs ih =>
      rw [List.filter_cons]
      split
      · rw [nodesAll, nodesAll]; omega
      · rw [nodesAll]; omega

/-- What a choice simplifies to: a choice of no more objects, or one of its alternatives,
simplified. -/
theorem simplify_choice_cases (matcher : List (PredicateState α) → Bool)
    (choices : List (PredicateState α)) :
    (∃ alts, simplify matcher (choice choices) = choice alts ∧
        nodesAll alts ≤ nodesAll (simplifyAll matcher choices)) ∨
      ∃ c ∈ choices, simplify matcher (choice choices) = simplify matcher c := by
  have hle := nodesAll_filter_le (fun c => !c.isEmpty) (simplifyAll matcher choices)
  simp only [simplify]
  split
  · exact Or.inl ⟨[], rfl, Nat.zero_le _⟩
  · split
    · next d hd =>
        have hmem : d ∈ simplifyAll matcher choices := by
          apply List.mem_of_mem_filter (p := fun c => !c.isEmpty)
          rw [hd]
          exact List.mem_singleton_self d
        rw [simplifyAll_eq_map] at hmem
        obtain ⟨c, hc, rfl⟩ := List.mem_map.mp hmem
        exact Or.inr ⟨c, hc, rfl⟩
    · exact Or.inl ⟨_, rfl, hle⟩

theorem nodes_simplify_le (matcher : List (PredicateState α) → Bool) (s : PredicateState α) :
    (simplify matcher s).nodes ≤ s.nodes := by
  induction s using induction with
  | basic data => exact Nat.le_of_eq (by rw [simplify])
  | chain base curr hbase hcurr =>
      rw [simplify]
      split
      · rw [nodes]; omega
      · split
        · rw [nodes]; omega
        · rw [nodes, nodes]; omega
  | choice choices ih =>
      have hall : nodesAll (simplifyAll matcher choices) ≤ nodesAll choices := by
        induction choices with
        | nil => exact Nat.le_refl _
        | cons c cs ihcs =>
            have hhead := ih c List.mem_cons_self
            have htail := ihcs fun d hd => ih d (List.mem_cons_of_mem _ hd)
            rw [simplifyAll, nodesAll, nodesAll]
            omega
      rcases simplify_choice_cases matcher choices with ⟨alts, halts, hle⟩ | ⟨c, hc, hsingle⟩
      · rw [halts, nodes, nodes]
        omega
      · have := ih c hc
        have := nodes_le_nodesAll hc
        rw [hsingle, nodes]
        omega

/-- A choice that collapses to one alternative gets smaller. -/
theorem nodes_simplify_choice_lt (matcher : List (PredicateState α) → Bool)
    (choices : List (PredicateState α))
    (hcollapse : ∀ alts, simplify matcher (choice choices) ≠ choice alts) :
    (simplify matcher (choice choices)).nodes < (choice choices).nodes := by
  rcases simplify_choice_cases matcher choices with ⟨alts, halts, -⟩ | ⟨c, hc, hsingle⟩
  · exact absurd halts (hcollapse alts)
  · have := nodes_simplify_le matcher c
    have := nodes_le_nodesAll hc
    rw [hsingle, nodes]
    omega

end PredicateState

end Borealis
