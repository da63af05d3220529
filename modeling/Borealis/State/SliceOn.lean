import Borealis.State.Builder

/-!
# Taking the front off a state

`sliceOn` is meant to undo `PredicateStateFactory::Chain`.  One half of that holds without
exception: if `on` comes off `s` and leaves `d`, then the paths of `s` are those of `on` continued
by those of `d` (`concatenates_of_sliceOn`).  The paths of `d` occur in `s` as they are; the part in
front was compared by `operator==`, so it agrees with a path of `on` predicate by predicate.

The other half, that `on` does come off `Chain(on, r)`, holds as long as the factory really builds a
chain.  Where it leaves out `on`, the rest has to begin with `on` by itself (`Leads`).  Where it
leaves out `r`, a state is sliced on itself, and only the basic class compares itself with `on`:
chain and choice ask their parts, which are smaller, and answer null
(`paths_eq_nil_of_sliceOn`).
-/

namespace Borealis

namespace PredicateState

variable {Pred : Type} (eqv : Pred → Pred → Bool)

/-! ## Sequences that agree -/

/-- The same predicate, by identity or by `Predicate::equals`. -/
def SamePredicate (p q : Pred) : Prop :=
  p = q ∨ eqv p q = true

/-- Two sequences that agree predicate by predicate. -/
def SamePath : List Pred → List Pred → Prop :=
  List.Forall₂ (SamePredicate eqv)

theorem SamePath.refl (p : List Pred) : SamePath eqv p p :=
  List.forall₂_same.mpr fun _ _ => Or.inl rfl

theorem SamePath.append {p p' q q' : List Pred} (hp : SamePath eqv p p')
    (hq : SamePath eqv q q') : SamePath eqv (p ++ q) (p' ++ q') :=
  List.rel_append hp hq

/-- Every path of the one state agrees with a path of the other. -/
structure SamePaths (s t : PredicateState Pred) : Prop where
  left : ∀ p ∈ s.paths, ∃ q ∈ t.paths, SamePath eqv p q
  right : ∀ q ∈ t.paths, ∃ p ∈ s.paths, SamePath eqv p q

/-! ## Paths of related states -/

/-- Whatever stands left in two related lists has a partner on the right. -/
theorem exists_right_of_forall₂ {α β : Type} {R : α → β → Prop} {as : List α} {bs : List β}
    (h : List.Forall₂ R as bs) {a : α} (ha : a ∈ as) : ∃ b ∈ bs, R a b := by
  induction h with
  | nil => exact absurd ha List.not_mem_nil
  | cons hab _ ih =>
      rcases List.mem_cons.mp ha with rfl | ha
      · exact ⟨_, List.mem_cons_self, hab⟩
      · obtain ⟨b, hb, hab⟩ := ih ha
        exact ⟨b, List.mem_cons_of_mem _ hb, hab⟩

theorem exists_left_of_forall₂ {α β : Type} {R : α → β → Prop} {as : List α} {bs : List β}
    (h : List.Forall₂ R as bs) {b : β} (hb : b ∈ bs) : ∃ a ∈ as, R a b :=
  exists_right_of_forall₂ h.flip hb

theorem weight_lt_choice {c : PredicateState Pred} {cs : List (PredicateState Pred)}
    (hc : c ∈ cs) : c.weight < (choice cs).weight := by
  have hle : c.weight ≤ (cs.map weight).sum := List.le_sum_of_mem (List.mem_map_of_mem hc)
  rw [weight, weightAll_eq_sum]
  omega

theorem paths_chain_eq_nil_iff {base curr : PredicateState Pred} :
    (chain base curr).paths = [] ↔ base.paths = [] ∨ curr.paths = [] := by
  rw [paths]
  cases hbase : base.paths with
  | nil => simp
  | cons p ps =>
      cases hcurr : curr.paths with
      | nil => simp
      | cons q qs => simp

theorem paths_choice_eq_nil_iff {cs : List (PredicateState Pred)} :
    (choice cs).paths = [] ↔ ∀ c ∈ cs, c.paths = [] := by
  rw [paths, pathsAll_eq_flatMap, List.flatMap_eq_nil_iff]

/-- The paths of `s` are those of `on` continued by those of `d`. -/
structure Concatenates (s on d : PredicateState Pred) : Prop where
  split : ∀ p ∈ s.paths, ∃ q ∈ on.paths, ∃ r ∈ d.paths, ∃ q', SamePath eqv q' q ∧ q' ++ r = p
  join : ∀ q ∈ on.paths, ∀ r ∈ d.paths, ∃ q', SamePath eqv q' q ∧ q' ++ r ∈ s.paths

theorem concatenates_of_samePaths {s on : PredicateState Pred} (h : SamePaths eqv s on) :
    Concatenates eqv s on (basic []) := by
  constructor
  · intro p hp
    obtain ⟨q, hq, hpq⟩ := h.left p hp
    exact ⟨q, hq, [], mem_paths_basic.mpr rfl, p, hpq, List.append_nil p⟩
  · intro q hq r hr
    obtain ⟨p, hp, hpq⟩ := h.right q hq
    rw [mem_paths_basic.mp hr]
    exact ⟨p, hpq, by rwa [List.append_nil]⟩

theorem concatenates_basic (data rest : List Pred) :
    Concatenates eqv (basic (data ++ rest)) (basic data) (basic rest) := by
  constructor
  · intro p hp
    rw [mem_paths_basic.mp hp]
    exact ⟨data, mem_paths_basic.mpr rfl, rest, mem_paths_basic.mpr rfl, data,
      SamePath.refl eqv data, rfl⟩
  · intro q hq r hr
    rw [mem_paths_basic.mp hq, mem_paths_basic.mp hr]
    exact ⟨data, SamePath.refl eqv data, mem_paths_basic.mpr rfl⟩

theorem concatenates_chain_of_samePaths {base on : PredicateState Pred}
    (h : SamePaths eqv base on) (curr : PredicateState Pred) :
    Concatenates eqv (chain base curr) on curr := by
  constructor
  · intro p hp
    obtain ⟨a, ha, b, hb, rfl⟩ := mem_paths_chain.mp hp
    obtain ⟨q, hq, haq⟩ := h.left a ha
    exact ⟨q, hq, b, hb, a, haq, rfl⟩
  · intro q hq r hr
    obtain ⟨a, ha, haq⟩ := h.right q hq
    exact ⟨a, haq, mem_paths_chain.mpr ⟨a, ha, r, hr, rfl⟩⟩

theorem Concatenates.chain {base on d : PredicateState Pred} (h : Concatenates eqv base on d)
    (curr : PredicateState Pred) : Concatenates eqv (chain base curr) on (chain d curr) := by
  constructor
  · intro p hp
    obtain ⟨a, ha, b, hb, rfl⟩ := mem_paths_chain.mp hp
    obtain ⟨q, hq, r, hr, q', hqq, rfl⟩ := h.split a ha
    exact ⟨q, hq, r ++ b, mem_paths_chain.mpr ⟨r, hr, b, hb, rfl⟩, q', hqq,
      (List.append_assoc q' r b).symm⟩
  · intro q hq rest hrest
    obtain ⟨r, hr, b, hb, rfl⟩ := mem_paths_chain.mp hrest
    obtain ⟨q', hqq, ha⟩ := h.join q hq r hr
    exact ⟨q', hqq, mem_paths_chain.mpr ⟨q' ++ r, ha, b, hb, List.append_assoc q' r b⟩⟩

/-- Slicing off a state that only offers the empty path changes no path. -/
theorem mem_paths_of_concatenates {on s d : PredicateState Pred} (hempty : on.isEmpty = true)
    (hne : on.paths ≠ []) (h : Concatenates eqv s on d) (p : List Pred) :
    p ∈ d.paths ↔ p ∈ s.paths := by
  constructor
  · intro hp
    obtain ⟨q, hq⟩ := List.exists_mem_of_ne_nil _ hne
    obtain ⟨q', hqq, hmem⟩ := h.join q hq p hp
    rw [eq_nil_of_mem_paths hempty hq] at hqq
    rwa [List.forall₂_nil_right_iff.mp hqq] at hmem
  · intro hp
    obtain ⟨q, hq, r, hr, q', hqq, rfl⟩ := h.split p hp
    rw [eq_nil_of_mem_paths hempty hq] at hqq
    rwa [List.forall₂_nil_right_iff.mp hqq]

/-! ## Equal states, and what a slice leaves -/

section Compare

variable [DecidableEq Pred]

theorem samePath_of_equals {data data' : List Pred}
    (h : equals eqv (basic data) (basic data') = true) : SamePath eqv data data' := by
  rw [equals, Bool.and_eq_true, decide_eq_true_eq, List.all_eq_true] at h
  refine List.forall₂_iff_zip.mpr ⟨h.1, fun {p q} hpq => ?_⟩
  simpa only [SamePredicate, Bool.or_eq_true, decide_eq_true_eq] using h.2 (p, q) hpq

theorem forall₂_of_equalsAll {cs ds : List (PredicateState Pred)}
    (h : equalsAll eqv cs ds = true) : List.Forall₂ (fun c d => equals eqv c d = true) cs ds := by
  induction cs generalizing ds with
  | nil =>
      cases ds with
      | nil => exact .nil
      | cons d ds => exact absurd h Bool.false_ne_true
  | cons c cs ih =>
      cases ds with
      | nil => exact absurd h Bool.false_ne_true
      | cons d ds =>
          rw [equalsAll, Bool.and_eq_true] at h
          exact .cons h.1 (ih h.2)

theorem samePaths_of_equals {s t : PredicateState Pred} (h : equals eqv s t = true) :
    SamePaths eqv s t := by
  induction s using induction generalizing t with
  | basic data =>
      cases t with
      | basic other =>
          have hsame := samePath_of_equals eqv h
          refine ⟨fun p hp => ⟨other, mem_paths_basic.mpr rfl, ?_⟩,
            fun q hq => ⟨data, mem_paths_basic.mpr rfl, ?_⟩⟩
          · rwa [mem_paths_basic.mp hp]
          · rwa [mem_paths_basic.mp hq]
      | chain base curr => exact absurd h Bool.false_ne_true
      | choice choices => exact absurd h Bool.false_ne_true
  | chain base curr hbase hcurr =>
      cases t with
      | basic other => exact absurd h Bool.false_ne_true
      | chain base' curr' =>
          rw [equals, Bool.and_eq_true] at h
          refine ⟨fun p hp => ?_, fun q hq => ?_⟩
          · obtain ⟨a, ha, b, hb, rfl⟩ := mem_paths_chain.mp hp
            obtain ⟨a', ha', haa'⟩ := (hbase h.1).left a ha
            obtain ⟨b', hb', hbb'⟩ := (hcurr h.2).left b hb
            exact ⟨a' ++ b', mem_paths_chain.mpr ⟨a', ha', b', hb', rfl⟩, haa'.append eqv hbb'⟩
          · obtain ⟨a', ha', b', hb', rfl⟩ := mem_paths_chain.mp hq
            obtain ⟨a, ha, haa'⟩ := (hbase h.1).right a' ha'
            obtain ⟨b, hb, hbb'⟩ := (hcurr h.2).right b' hb'
            exact ⟨a ++ b, mem_paths_chain.mpr ⟨a, ha, b, hb, rfl⟩, haa'.append eqv hbb'⟩
      | choice choices => exact absurd h Bool.false_ne_true
  | choice choices ih =>
      cases t with
      | basic other => exact absurd h Bool.false_ne_true
      | chain base curr => exact absurd h Bool.false_ne_true
      | choice others =>
          rw [equals] at h
          have hall := forall₂_of_equalsAll eqv h
          refine ⟨fun p hp => ?_, fun q hq => ?_⟩
          · obtain ⟨c, hc, hpc⟩ := mem_paths_choice.mp hp
            obtain ⟨d, hd, hcd⟩ := exists_right_of_forall₂ hall hc
            obtain ⟨q, hq, hpq⟩ := (ih c hc hcd).left p hpc
            exact ⟨q, mem_paths_choice.mpr ⟨d, hd, hq⟩, hpq⟩
          · obtain ⟨d, hd, hqd⟩ := mem_paths_choice.mp hq
            obtain ⟨c, hc, hcd⟩ := exists_left_of_forall₂ hall hd
            obtain ⟨p, hp, hpq⟩ := (ih c hc hcd).right q hqd
            exact ⟨p, mem_paths_choice.mpr ⟨c, hc, hp⟩, hpq⟩

theorem forall₂_of_sliceAllOn {on : PredicateState Pred} {cs slices : List (PredicateState Pred)}
    (h : sliceAllOn eqv on cs = some slices) :
    List.Forall₂ (fun c slice => sliceOn eqv on c = some slice) cs slices := by
  induction cs generalizing slices with
  | nil =>
      rw [sliceAllOn, Option.some.injEq] at h
      exact h ▸ .nil
  | cons c cs ih =>
      rw [sliceAllOn, Option.bind_eq_some_iff] at h
      obtain ⟨slice, hslice, h⟩ := h
      obtain ⟨rest, hrest, rfl⟩ := Option.map_eq_some_iff.mp h
      exact .cons hslice (ih hrest)

theorem sliceOn_basic_of_equals {on : PredicateState Pred} {data : List Pred}
    (h : equals eqv (basic data) on = true) : sliceOn eqv on (basic data) = some (basic []) := by
  cases on <;> simp only [sliceOn, h, if_true]

/-- A basic state that differs from `on` comes apart only behind a prefix. -/
theorem exists_prefix_of_sliceOn_basic {on d : PredicateState Pred} {data : List Pred}
    (hne : equals eqv (basic data) on = false) (h : sliceOn eqv on (basic data) = some d) :
    ∃ other rest, on = basic other ∧ data = other ++ rest ∧ d = basic rest := by
  cases on with
  | basic other =>
      simp only [sliceOn, hne, Bool.false_eq_true, if_false] at h
      split at h
      · next hstart =>
          obtain ⟨rest, rfl⟩ := List.isPrefixOf_iff_prefix.mp hstart
          rw [List.drop_left] at h
          exact ⟨other, rest, rfl, rfl, (Option.some.inj h).symm⟩
      · cases h
  | chain base curr =>
      simp only [sliceOn, hne, Bool.false_eq_true, if_false] at h
      cases h
  | choice choices =>
      simp only [sliceOn, hne, Bool.false_eq_true, if_false] at h
      cases h

/-- A chain or a choice is no prefix of a basic state. -/
theorem sliceOn_basic_of_not_isBasic {on : PredicateState Pred} (hbasic : on.isBasic = false)
    (data : List Pred) : sliceOn eqv on (basic data) = none := by
  cases on with
  | basic other => cases hbasic
  | chain base curr => simp [sliceOn, equals]
  | choice choices => simp [sliceOn, equals]

/-- **What `sliceOn` returns continues the paths of `on` to those of the state.** -/
theorem concatenates_of_sliceOn {on s d : PredicateState Pred} (h : sliceOn eqv on s = some d) :
    Concatenates eqv s on d := by
  induction s using induction generalizing d with
  | basic data =>
      cases heq : equals eqv (basic data) on with
      | true =>
          rw [sliceOn_basic_of_equals eqv heq] at h
          obtain rfl := Option.some.inj h
          exact concatenates_of_samePaths eqv (samePaths_of_equals eqv heq)
      | false =>
          obtain ⟨other, rest, rfl, rfl, rfl⟩ := exists_prefix_of_sliceOn_basic eqv heq h
          exact concatenates_basic eqv other rest
  | chain base curr hbase _ =>
      rw [sliceOn] at h
      split at h
      · next heq =>
          obtain rfl := Option.some.inj h
          exact concatenates_chain_of_samePaths eqv (samePaths_of_equals eqv heq) curr
      · obtain ⟨baseSlice, hslice, rfl⟩ := Option.map_eq_some_iff.mp h
        exact (hbase hslice).chain eqv curr
  | choice choices ih =>
      rw [sliceOn] at h
      obtain ⟨slices, hslices, rfl⟩ := Option.map_eq_some_iff.mp h
      have hall := forall₂_of_sliceAllOn eqv hslices
      constructor
      · intro p hp
        obtain ⟨c, hc, hpc⟩ := mem_paths_choice.mp hp
        obtain ⟨slice, hmem, hslice⟩ := exists_right_of_forall₂ hall hc
        obtain ⟨q, hq, r, hr, q', hqq, hp⟩ := (ih c hc hslice).split p hpc
        exact ⟨q, hq, r, mem_paths_choice.mpr ⟨slice, hmem, hr⟩, q', hqq, hp⟩
      · intro q hq r hr
        obtain ⟨slice, hmem, hrs⟩ := mem_paths_choice.mp hr
        obtain ⟨c, hc, hslice⟩ := exists_left_of_forall₂ hall hmem
        obtain ⟨q', hqq, hp⟩ := (ih c hc hslice).join q hq r hrs
        exact ⟨q', hqq, mem_paths_choice.mpr ⟨c, hc, hp⟩⟩

/-! ## Slicing a state on itself -/

/-- A chain or a choice comes off nothing that weighs less, unless choices without alternatives
are all there is to compare with. -/
theorem paths_eq_nil_of_sliceOn {on s d : PredicateState Pred} (hbasic : on.isBasic = false)
    (hle : s.weight ≤ on.weight) (h : sliceOn eqv on s = some d) : d.paths = [] := by
  induction s using induction generalizing d with
  | basic data =>
      rw [sliceOn_basic_of_not_isBasic eqv hbasic] at h
      cases h
  | chain base curr hbase _ =>
      have hlt := (weight_lt_chain base curr).trans_le hle
      rw [sliceOn] at h
      split at h
      · next heq => exact absurd (weight_eq_of_equals eqv heq) hlt.ne
      · obtain ⟨baseSlice, hslice, rfl⟩ := Option.map_eq_some_iff.mp h
        rw [paths, hbase hlt.le hslice, List.flatMap_nil]
  | choice choices ih =>
      rw [sliceOn] at h
      obtain ⟨slices, hslices, rfl⟩ := Option.map_eq_some_iff.mp h
      refine List.eq_nil_iff_forall_not_mem.mpr fun p hp => ?_
      obtain ⟨slice, hmem, hps⟩ := mem_paths_choice.mp hp
      obtain ⟨c, hc, hslice⟩ := exists_left_of_forall₂ (forall₂_of_sliceAllOn eqv hslices) hmem
      rw [ih c hc ((weight_lt_choice hc).trans_le hle).le hslice] at hps
      exact absurd hps List.not_mem_nil

/-! ## When `on` comes off the front -/

/-- `s` begins with `on`: on the way down its bases and alternatives a part equal to `on`, or a
basic state that continues it, is met everywhere. -/
inductive Leads (on : PredicateState Pred) : PredicateState Pred → Prop
  | whole {data : List Pred} : equals eqv (basic data) on = true → Leads on (basic data)
  | front {other rest : List Pred} : on = basic other → Leads on (basic (other ++ rest))
  | base {base curr : PredicateState Pred} : equals eqv base on = true → Leads on (chain base curr)
  | chain {base curr : PredicateState Pred} : Leads on base → Leads on (chain base curr)
  | choice {choices : List (PredicateState Pred)} : (∀ c ∈ choices, Leads on c) →
      Leads on (choice choices)

theorem leads_of_sliceOn {on s d : PredicateState Pred} (h : sliceOn eqv on s = some d) :
    Leads eqv on s := by
  induction s using induction generalizing d with
  | basic data =>
      cases heq : equals eqv (basic data) on with
      | true => exact .whole heq
      | false =>
          obtain ⟨other, rest, hon, rfl, -⟩ := exists_prefix_of_sliceOn_basic eqv heq h
          exact .front hon
  | chain base curr hbase _ =>
      rw [sliceOn] at h
      split at h
      · next heq => exact .base heq
      · obtain ⟨baseSlice, hslice, -⟩ := Option.map_eq_some_iff.mp h
        exact .chain (hbase hslice)
  | choice choices ih =>
      rw [sliceOn] at h
      obtain ⟨slices, hslices, -⟩ := Option.map_eq_some_iff.mp h
      refine .choice fun c hc => ?_
      obtain ⟨slice, -, hslice⟩ := exists_right_of_forall₂ (forall₂_of_sliceAllOn eqv hslices) hc
      exact ih c hc hslice

theorem exists_sliceAllOn {on : PredicateState Pred} {cs : List (PredicateState Pred)}
    (h : ∀ c ∈ cs, ∃ d, sliceOn eqv on c = some d) :
    ∃ slices, sliceAllOn eqv on cs = some slices := by
  induction cs with
  | nil => exact ⟨[], rfl⟩
  | cons c cs ih =>
      obtain ⟨d, hd⟩ := h c List.mem_cons_self
      obtain ⟨slices, hslices⟩ := ih fun c hc => h c (List.mem_cons_of_mem _ hc)
      exact ⟨d :: slices, by rw [sliceAllOn, hd, hslices]; rfl⟩

theorem Leads.exists_sliceOn {on s : PredicateState Pred} (h : Leads eqv on s) :
    ∃ d, sliceOn eqv on s = some d := by
  induction h with
  | whole heq => exact ⟨basic [], sliceOn_basic_of_equals eqv heq⟩
  | @front other rest hon =>
      subst hon
      rw [sliceOn]
      split
      · exact ⟨_, rfl⟩
      · rw [if_pos (List.isPrefixOf_iff_prefix.mpr (List.prefix_append other rest))]
        exact ⟨_, rfl⟩
  | @base base curr heq => exact ⟨curr, by rw [sliceOn, if_pos heq]⟩
  | @chain base curr _ ih =>
      obtain ⟨d, hd⟩ := ih
      rw [sliceOn]
      split
      · exact ⟨_, rfl⟩
      · exact ⟨.chain d curr, by rw [hd]; rfl⟩
  | choice _ ih =>
      obtain ⟨slices, hslices⟩ := exists_sliceAllOn eqv ih
      exact ⟨.choice slices, by rw [sliceOn, hslices]; rfl⟩

/-! ## Slicing `on` off `Chain(on, r)` -/

mutual
/-- Behind `on` the state `s` offers no path, because every way on runs into a choice without
alternatives. -/
def blocked (on : PredicateState Pred) : PredicateState Pred → Bool
  | basic _ => false
  | chain base curr =>
    if equals eqv base on then curr.paths.isEmpty else blocked on base || curr.paths.isEmpty
  | choice choices => allBlocked on choices

/-- The same for every alternative of a choice. -/
def allBlocked (on : PredicateState Pred) : List (PredicateState Pred) → Bool
  | [] => true
  | c :: cs => blocked on c && allBlocked on cs
end

theorem allBlocked_iff {on : PredicateState Pred} {cs : List (PredicateState Pred)} :
    allBlocked eqv on cs = true ↔ ∀ c ∈ cs, blocked eqv on c = true := by
  induction cs with
  | nil => simp [allBlocked]
  | cons c cs ih => simp [allBlocked, ih]

/-- `blocked` foresees whether the slice has a path. -/
theorem blocked_iff_paths_eq_nil {on s d : PredicateState Pred} (hbasic : on.isBasic = false)
    (h : sliceOn eqv on s = some d) : blocked eqv on s = true ↔ d.paths = [] := by
  induction s using induction generalizing d with
  | basic data =>
      rw [sliceOn_basic_of_not_isBasic eqv hbasic] at h
      cases h
  | chain base curr hbase _ =>
      rw [sliceOn] at h
      rw [blocked]
      split at h
      · next heq =>
          obtain rfl := Option.some.inj h
          rw [if_pos heq, List.isEmpty_iff]
      · next heq =>
          obtain ⟨baseSlice, hslice, rfl⟩ := Option.map_eq_some_iff.mp h
          rw [if_neg heq, Bool.or_eq_true, hbase hslice, List.isEmpty_iff, paths_chain_eq_nil_iff]
  | choice choices ih =>
      rw [sliceOn] at h
      obtain ⟨slices, hslices, rfl⟩ := Option.map_eq_some_iff.mp h
      have hall := forall₂_of_sliceAllOn eqv hslices
      rw [blocked, allBlocked_iff, paths_choice_eq_nil_iff]
      constructor
      · intro hblocked slice hmem
        obtain ⟨c, hc, hslice⟩ := exists_left_of_forall₂ hall hmem
        exact (ih c hc hslice).mp (hblocked c hc)
      · intro hpaths c hc
        obtain ⟨slice, hmem, hslice⟩ := exists_right_of_forall₂ hall hc
        exact (ih c hc hslice).mpr (hpaths slice hmem)

/-- `sliceOn` gives back what the factory has put behind `on`. -/
def SlicesBack (on r : PredicateState Pred) : Prop :=
  ∃ d, sliceOn eqv on (PredicateStateFactory.chain on r) = some d ∧
    ∀ p, p ∈ d.paths ↔ p ∈ r.paths

/-- What `on` and `r` have to be like for that.  If the factory leaves out `on`, then `r` has to
begin with it; if it leaves out `r`, then `on` has to be basic.  The other conditions concern
states without a path. -/
def Recoverable (on r : PredicateState Pred) : Prop :=
  if on.isEmpty then Leads eqv on r ∧ (on.paths ≠ [] ∨ blocked eqv on r = true)
  else if r.isEmpty then
    if on.isBasic then r.paths ≠ [] else Leads eqv on on ∧ r.paths = []
  else True

theorem slicesBack_iff_of_isEmpty {on r : PredicateState Pred} (hempty : on.isEmpty = true) :
    SlicesBack eqv on r ↔ Leads eqv on r ∧ (on.paths ≠ [] ∨ blocked eqv on r = true) := by
  have hchain : PredicateStateFactory.chain on r = r := if_pos hempty
  rw [SlicesBack, hchain]
  by_cases hne : on.paths = []
  · have hbasic : on.isBasic = false := by
      cases on with
      | basic data => exact absurd hne (List.cons_ne_nil _ _)
      | chain base curr => rfl
      | choice choices => rfl
    -- `r` has no path either, and `d` must not have one
    have hr : ∀ {d}, sliceOn eqv on r = some d → r.paths = [] := by
      intro d hslice
      refine List.eq_nil_iff_forall_not_mem.mpr fun p hp => ?_
      obtain ⟨q, hq, -⟩ := (concatenates_of_sliceOn eqv hslice).split p hp
      rw [hne] at hq
      exact absurd hq List.not_mem_nil
    constructor
    · rintro ⟨d, hslice, hpaths⟩
      refine ⟨leads_of_sliceOn eqv hslice, Or.inr ?_⟩
      rw [blocked_iff_paths_eq_nil eqv hbasic hslice]
      refine List.eq_nil_iff_forall_not_mem.mpr fun p hp => ?_
      rw [hpaths, hr hslice] at hp
      exact absurd hp List.not_mem_nil
    · rintro ⟨hleads, hor⟩
      obtain ⟨d, hslice⟩ := hleads.exists_sliceOn
      have hblocked := hor.resolve_left (not_not_intro hne)
      refine ⟨d, hslice, fun p => ?_⟩
      rw [(blocked_iff_paths_eq_nil eqv hbasic hslice).mp hblocked, hr hslice]
  · constructor
    · rintro ⟨d, hslice, -⟩
      exact ⟨leads_of_sliceOn eqv hslice, Or.inl hne⟩
    · rintro ⟨hleads, -⟩
      obtain ⟨d, hslice⟩ := hleads.exists_sliceOn
      exact ⟨d, hslice, mem_paths_of_concatenates eqv hempty hne
        (concatenates_of_sliceOn eqv hslice)⟩

theorem slicesBack_iff_of_basic {data : List Pred} {r : PredicateState Pred}
    (hdata : (basic data).isEmpty = false) (hempty : r.isEmpty = true) :
    SlicesBack eqv (basic data) r ↔ r.paths ≠ [] := by
  have hchain : PredicateStateFactory.chain (basic data) r = basic data := by
    rw [PredicateStateFactory.chain, hdata, hempty, if_neg Bool.false_ne_true, if_pos rfl]
  rw [SlicesBack, hchain, sliceOn_basic_of_equals eqv (equals_refl eqv _)]
  constructor
  · rintro ⟨d, hd, hpaths⟩ hnil
    obtain rfl := Option.some.inj hd
    have hmem := (hpaths []).mp (mem_paths_basic.mpr rfl)
    rw [hnil] at hmem
    exact absurd hmem List.not_mem_nil
  · intro hne
    refine ⟨basic [], rfl, fun p => ?_⟩
    obtain ⟨q, hq⟩ := List.exists_mem_of_ne_nil _ hne
    rw [mem_paths_basic]
    constructor
    · rintro rfl
      rwa [eq_nil_of_mem_paths hempty hq] at hq
    · exact eq_nil_of_mem_paths hempty

theorem slicesBack_iff_of_not_isBasic {on r : PredicateState Pred} (hbasic : on.isBasic = false)
    (hon : on.isEmpty = false) (hempty : r.isEmpty = true) :
    SlicesBack eqv on r ↔ Leads eqv on on ∧ r.paths = [] := by
  have hchain : PredicateStateFactory.chain on r = on := by
    rw [PredicateStateFactory.chain, hon, hempty, if_neg Bool.false_ne_true, if_pos rfl]
  rw [SlicesBack, hchain]
  constructor
  · rintro ⟨d, hslice, hpaths⟩
    refine ⟨leads_of_sliceOn eqv hslice, List.eq_nil_iff_forall_not_mem.mpr fun p hp => ?_⟩
    rw [← hpaths, paths_eq_nil_of_sliceOn eqv hbasic (Nat.le_refl _) hslice] at hp
    exact absurd hp List.not_mem_nil
  · rintro ⟨hleads, hnil⟩
    obtain ⟨d, hslice⟩ := hleads.exists_sliceOn
    refine ⟨d, hslice, fun p => ?_⟩
    rw [paths_eq_nil_of_sliceOn eqv hbasic (Nat.le_refl _) hslice, hnil]

/-- **`sliceOn` inverts `Chain` exactly on the recoverable pairs, and what it leaves always
continues the paths of `on`.** -/
theorem sliceOn_inverts_chain_iff :
    (∀ on r : PredicateState Pred, SlicesBack eqv on r ↔ Recoverable eqv on r) ∧
      ∀ s on d : PredicateState Pred, sliceOn eqv on s = some d → Concatenates eqv s on d := by
  refine ⟨fun on r => ?_, fun s on d => concatenates_of_sliceOn eqv⟩
  unfold Recoverable
  cases hon : on.isEmpty with
  | true => rw [if_pos rfl, slicesBack_iff_of_isEmpty eqv hon]
  | false =>
      rw [if_neg Bool.false_ne_true]
      cases hr : r.isEmpty with
      | true =>
          rw [if_pos rfl]
          cases on with
          | basic data => exact slicesBack_iff_of_basic eqv hon hr
          | chain base curr => exact slicesBack_iff_of_not_isBasic eqv rfl hon hr
          | choice choices => exact slicesBack_iff_of_not_isBasic eqv rfl hon hr
      | false =>
          rw [if_neg Bool.false_ne_true, iff_true]
          have hchain : PredicateStateFactory.chain on r = .chain on r := by
            rw [PredicateStateFactory.chain, hon, hr, if_neg Bool.false_ne_true,
              if_neg Bool.false_ne_true]
          rw [SlicesBack, hchain]
          exact ⟨r, by rw [sliceOn, if_pos (equals_refl eqv on)], fun p => Iff.rfl⟩

/-- A chain of two predicates does not come off itself. -/
theorem not_slicesBack_chain :
    ¬ SlicesBack (fun _ _ : Nat => false) (chain (basic [0]) (basic [1])) (basic []) := by
  rintro ⟨d, hslice, -⟩
  have hnull : sliceOn (fun _ _ : Nat => false) (chain (basic [0]) (basic [1]))
      (PredicateStateFactory.chain (chain (basic [0]) (basic [1])) (basic [])) = none := rfl
  rw [hnull] at hslice
  cases hslice

end Compare

end PredicateState

end Borealis
