import Borealis.Lib.Kernel
import Borealis.State.LocalStensgaardAA
import Mathlib.Algebra.Order.Ring.Nat
import Mathlib.Data.Finset.Card
import Mathlib.Data.List.Basic

/-!
# The forest of a disjoint set

`disjoint_set` of `Util/disjoint_sets.hpp` keeps its nodes in a list, which is only their owner: a
pointer to a node is its place in that list, and `nullptr` is `none`.

A pointer chain that never ends would make `getRoot` recurse forever, so `getRoot` takes fuel, and
the number of nodes is always enough (`getRoot_spec`): ranks grow along a chain, so each node of it
has fewer nodes of a larger rank than the node before.

What the nodes stand for is said by `RootOf`.  Path compression leaves it as it is
(`rootOf_setParent`), linking two roots merges their classes (`rootOf_link`), and the classes of a
whole run are the equivalence closure of the pairs united (`run_spec`).  `DisjointSet`, which knows
only the root of each token, is what the forest looks like from outside (`find_models`,
`unite_models`).
-/

namespace Borealis

namespace DisjointForest

open Kernel Relation

/-! ## The code -/

/-- `subset<T>`. -/
structure Subset (T : Type) where
  data : T
  parent : Nat
  rank : Nat

/-- `disjoint_set<T>` is its `children_`. -/
abbrev Children (T : Type) := List (Subset T)

variable {T : Type}

/-- `parent_` of a node. -/
def parent (s : Children T) (x : Nat) : Nat := (s[x]?.map Subset.parent).getD x

/-- `rank` of a node. -/
def rank (s : Children T) (x : Nat) : Nat := (s[x]?.map Subset.rank).getD 0

/-- `isRoot`. -/
abbrev isRoot (s : Children T) (x : Nat) : Prop := parent s x = x

/-- `set_parent`. -/
def setParent (s : Children T) (x p : Nat) : Children T :=
  s.modify x fun node => { node with parent := p }

/-- `++rank` of a node. -/
def incRank (s : Children T) (x : Nat) : Children T :=
  s.modify x fun node => { node with rank := node.rank + 1 }

/-- `getRoot`: on the way back every node of the chain gets the root as its parent. -/
def getRoot : Nat → Children T → Nat → Option (Nat × Children T)
  | 0, _, _ => none
  | fuel + 1, s, x =>
    if isRoot s x then some (x, s)
    else
      (getRoot fuel s (parent s x)).map fun (ancestor, s) => (ancestor, setParent s x ancestor)

/-- `getRootConst`: the same walk, and nothing is written. -/
def getRootConst : Nat → Children T → Nat → Option Nat
  | 0, _, _ => none
  | fuel + 1, s, x => if isRoot s x then some x else getRootConst fuel s (parent s x)

/-- `disjoint_set::find`. -/
def find (s : Children T) : Option Nat → Option (Option Nat × Children T)
  | none => some (none, s)
  | some needle => (getRoot s.length s needle).map fun (root, s) => (some root, s)

/-- `disjoint_set::findConst`. -/
def findConst (s : Children T) : Option Nat → Option (Option Nat)
  | none => some none
  | some needle => (getRootConst s.length s needle).map some

/-- The two roots of `unite` when they differ: the one of smaller rank goes below the other. -/
def linkRoots (s : Children T) (lRoot rRoot : Nat) : Nat × Children T :=
  if rank s lRoot < rank s rRoot then (rRoot, setParent s lRoot rRoot)
  else if rank s rRoot < rank s lRoot then (lRoot, setParent s rRoot lRoot)
  else (lRoot, incRank (setParent s rRoot lRoot) lRoot)

/-- `disjoint_set::unite`.  With one of the two pointers null the code reads the rank of a null
root, and the run has no further state. -/
def unite (s : Children T) (left right : Option Nat) : Option (Option Nat × Children T) :=
  (find s left).bind fun (lRoot, s) =>
    (find s right).bind fun (rRoot, s) =>
      if lRoot = rRoot then some (lRoot, s)
      else match lRoot, rRoot with
        | some lRoot, some rRoot =>
          let (root, s) := linkRoots s lRoot rRoot
          some (some root, s)
        | _, _ => none

/-- `disjoint_set::emplace`: the new node is its own parent and has rank zero. -/
def emplace (s : Children T) (data : T) : Nat × Children T :=
  (s.length, s ++ [{ data := data, parent := s.length, rank := 0 }])

/-- A call of one of the three functions. -/
inductive Call (T : Type) where
  | emplace (data : T)
  | find (needle : Option Nat)
  | unite (left right : Option Nat)

/-- What a call leaves behind. -/
def step (s : Children T) : Call T → Option (Children T)
  | .emplace data => some (emplace s data).2
  | .find needle => (find s needle).map Prod.snd
  | .unite left right => (unite s left right).map Prod.snd

/-- A sequence of calls. -/
def run (s : Children T) (calls : List (Call T)) : Option (Children T) := calls.foldlM step s

/-- The nodes a call makes. -/
def Call.made : Call T → Nat
  | .emplace _ => 1
  | _ => 0

/-- A caller has only pointers that `emplace` handed out, and `nullptr`; `unite` must not be given
a node and `nullptr`. -/
def Call.Valid (nodes : Nat) : Call T → Prop
  | .emplace _ => True
  | .find needle => ∀ x ∈ needle, x < nodes
  | .unite left right =>
    (∀ x ∈ left, x < nodes) ∧ (∀ x ∈ right, x < nodes) ∧ (left = none ↔ right = none)

/-- Each call is valid for the nodes there are when it is made. -/
def Valid : Nat → List (Call T) → Prop
  | _, [] => True
  | nodes, call :: calls => call.Valid nodes ∧ Valid (nodes + call.made) calls

/-- The pairs a sequence of calls unites. -/
def United (calls : List (Call T)) (a b : Nat) : Prop := Call.unite (some a) (some b) ∈ calls

/-! ## Reading a node after a write -/

section Nodes

variable {s : Children T} {x p : Nat}

@[simp] theorem length_setParent : (setParent s x p).length = s.length := by simp [setParent]

@[simp] theorem length_incRank : (incRank s x).length = s.length := by simp [incRank]

theorem parent_of_length_le (hx : s.length ≤ x) : parent s x = x := by
  simp [parent, List.getElem?_eq_none hx]

theorem parent_setParent (hx : x < s.length) (y : Nat) :
    parent (setParent s x p) y = if y = x then p else parent s y := by
  rcases eq_or_ne y x with rfl | hne
  · simp [parent, setParent, List.getElem?_eq_getElem hx]
  · simp [parent, setParent, List.getElem?_modify_ne _ _ hne.symm, hne]

@[simp] theorem rank_setParent (y : Nat) : rank (setParent s x p) y = rank s y := by
  rcases eq_or_ne x y with rfl | hne
  · cases hnode : s[x]? <;> simp [rank, setParent, hnode]
  · simp [rank, setParent, List.getElem?_modify_ne _ _ hne]

@[simp] theorem parent_incRank (y : Nat) : parent (incRank s x) y = parent s y := by
  rcases eq_or_ne x y with rfl | hne
  · cases hnode : s[x]? <;> simp [parent, incRank, hnode]
  · simp [parent, incRank, List.getElem?_modify_ne _ _ hne]

theorem rank_incRank (hx : x < s.length) (y : Nat) :
    rank (incRank s x) y = if y = x then rank s x + 1 else rank s y := by
  rcases eq_or_ne y x with rfl | hne
  · simp [rank, incRank, List.getElem?_eq_getElem hx]
  · simp [rank, incRank, List.getElem?_modify_ne _ _ hne.symm, hne]

theorem parent_emplace (data : T) (y : Nat) : parent (emplace s data).2 y = parent s y := by
  rcases Nat.lt_trichotomy y s.length with hlt | rfl | hgt
  · simp [parent, emplace, List.getElem?_append_left hlt]
  · simp [parent, emplace]
  · rw [parent_of_length_le (Nat.le_of_lt hgt), parent_of_length_le]
    simpa [emplace] using Nat.succ_le_of_lt hgt

theorem rank_emplace (data : T) (y : Nat) : rank (emplace s data).2 y = rank s y := by
  rcases Nat.lt_trichotomy y s.length with hlt | rfl | hgt
  · simp [rank, emplace, List.getElem?_append_left hlt]
  · simp [rank, emplace]
  · have hnone : (emplace s data).2[y]? = none :=
      List.getElem?_eq_none (by simpa [emplace] using Nat.succ_le_of_lt hgt)
    simp [rank, hnone, List.getElem?_eq_none (Nat.le_of_lt hgt)]

end Nodes

/-! ## Forests -/

/-- Parents are nodes, and a non-root has a smaller rank than its parent. -/
structure Forest (s : Children T) : Prop where
  parent_lt : ∀ x < s.length, parent s x < s.length
  rank_lt : ∀ x, parent s x ≠ x → rank s x < rank s (parent s x)

/-- A node and the root of its chain. -/
inductive RootOf (s : Children T) : Nat → Nat → Prop
  | root {x} : isRoot s x → RootOf s x x
  | step {x r} : ¬ isRoot s x → RootOf s (parent s x) r → RootOf s x r

/-- The link from a non-root to its parent. -/
def Link (s : Children T) (x y : Nat) : Prop := ¬ isRoot s x ∧ parent s x = y

/-- The nodes of a larger rank. -/
def above (s : Children T) (x : Nat) : Finset Nat :=
  (Finset.range s.length).filter fun y => rank s x < rank s y

section Forest

variable {s s' : Children T} {x y r q : Nat}

theorem RootOf.isRoot (h : RootOf s x r) : isRoot s r := by
  induction h with
  | root hroot => exact hroot
  | step _ _ ih => exact ih

theorem RootOf.unique (h : RootOf s x r) (h' : RootOf s x q) : r = q := by
  induction h with
  | root hroot =>
      cases h' with
      | root _ => rfl
      | step hnot _ => exact absurd hroot hnot
  | step hnot _ ih =>
      cases h' with
      | root hroot => exact absurd hroot hnot
      | step _ hrest => exact ih hrest

theorem RootOf.lt (hforest : Forest s) (h : RootOf s x r) (hx : x < s.length) : r < s.length := by
  induction h with
  | root _ => exact hx
  | step _ _ ih => exact ih (hforest.parent_lt _ hx)

theorem RootOf.rank_le (hforest : Forest s) (h : RootOf s x r) : rank s x ≤ rank s r := by
  induction h with
  | root _ => exact Nat.le_refl _
  | step hnot _ ih => exact Nat.le_trans (Nat.le_of_lt (hforest.rank_lt _ hnot)) ih

theorem RootOf.rank_lt (hforest : Forest s) (h : RootOf s x r) (hnot : ¬ DisjointForest.isRoot s x) :
    rank s x < rank s r := by
  cases h with
  | root hroot => exact absurd hroot hnot
  | step _ hrest => exact Nat.lt_of_lt_of_le (hforest.rank_lt x hnot) (hrest.rank_le hforest)

theorem card_above_lt_length (hx : x < s.length) : (above s x).card < s.length := by
  have hssub : above s x ⊂ Finset.range s.length :=
    Finset.filter_ssubset.mpr ⟨x, Finset.mem_range.mpr hx, Nat.lt_irrefl _⟩
  simpa using Finset.card_lt_card hssub

theorem card_above_parent_lt (hforest : Forest s) (hx : x < s.length) (hnot : ¬ isRoot s x) :
    (above s (parent s x)).card < (above s x).card := by
  have hrank := hforest.rank_lt x hnot
  refine Finset.card_lt_card ((Finset.ssubset_iff_of_subset fun y hy => ?_).mpr
    ⟨parent s x, ?_, ?_⟩)
  · simp only [above, Finset.mem_filter] at hy ⊢
    exact ⟨hy.1, hrank.trans hy.2⟩
  · exact Finset.mem_filter.mpr ⟨Finset.mem_range.mpr (hforest.parent_lt x hx), hrank⟩
  · simp [above]

/-- A chain of links climbs in rank, so it never closes. -/
theorem not_transGen_link (hforest : Forest s) (x : Nat) : ¬ TransGen (Link s) x x := by
  have hclimb : ∀ {a b}, TransGen (Link s) a b → rank s a < rank s b := by
    intro a b h
    induction h with
    | single hlink => exact hlink.2 ▸ hforest.rank_lt _ hlink.1
    | tail _ hlink ih => exact ih.trans (hlink.2 ▸ hforest.rank_lt _ hlink.1)
  exact fun h => Nat.lt_irrefl _ (hclimb h)

end Forest

/-! ## Path compression -/

section Compression

variable {s s' : Children T} {x r : Nat}

/-- A node hung below its root keeps its class, and so does every other node. -/
theorem rootOf_setParent (hx : x < s.length) (hnot : ¬ isRoot s x) (hroot : RootOf s x r)
    {y q : Nat} (h : RootOf s y q) : RootOf (setParent s x r) y q := by
  have hne : r ≠ x := fun heq => hnot (heq ▸ hroot.isRoot)
  induction h with
  | @root y hy =>
      refine RootOf.root ?_
      have hyx : y ≠ x := fun heq => hnot (heq ▸ hy)
      rw [isRoot, parent_setParent hx, if_neg hyx]
      exact hy
  | @step y q hy hrest ih =>
      rcases eq_or_ne y x with rfl | hyx
      · obtain rfl : r = q := hroot.unique (RootOf.step hy hrest)
        have hparent : parent (setParent s y r) y = r := by rw [parent_setParent hx, if_pos rfl]
        have hroot' : RootOf (setParent s y r) r r :=
          RootOf.root (by rw [isRoot, parent_setParent hx, if_neg hne]; exact hroot.isRoot)
        exact RootOf.step (by rwa [isRoot, hparent]) (by rwa [hparent])
      · have hparent : parent (setParent s x r) y = parent s y := by
          rw [parent_setParent hx, if_neg hyx]
        exact RootOf.step (by rwa [isRoot, hparent]) (hparent.symm ▸ ih)

theorem Forest.setParent (hforest : Forest s) (hx : x < s.length) (hnot : ¬ isRoot s x)
    (hroot : RootOf s x r) : Forest (DisjointForest.setParent s x r) := by
  refine ⟨fun y hy => ?_, fun y hy => ?_⟩
  · rw [length_setParent] at hy ⊢
    rw [parent_setParent hx]
    split
    · exact hroot.lt hforest hx
    · exact hforest.parent_lt y hy
  · rw [parent_setParent hx] at hy ⊢
    rw [rank_setParent, rank_setParent]
    split at hy
    case isTrue heq => rw [if_pos heq, heq]; exact hroot.rank_lt hforest hnot
    case isFalse hyx => rw [if_neg hyx]; exact hforest.rank_lt y hy

/-- What a walk to the root leaves as it was. -/
structure Compressed (s s' : Children T) : Prop where
  length_eq : s'.length = s.length
  forest : Forest s'
  rank_eq : ∀ y, rank s' y = rank s y
  rootOf : ∀ {y q}, RootOf s y q → RootOf s' y q

/-- **The walk ends at the root, and the number of nodes is enough fuel.** -/
theorem getRoot_spec (hforest : Forest s) (hx : x < s.length) {fuel : Nat}
    (hfuel : (above s x).card < fuel) :
    ∃ r s', getRoot fuel s x = some (r, s') ∧ getRootConst fuel s x = some r ∧ RootOf s x r ∧
      Compressed s s' := by
  induction fuel generalizing x with
  | zero => exact absurd hfuel (Nat.not_lt_zero _)
  | succ fuel ih =>
      by_cases hroot : isRoot s x
      · exact ⟨x, s, if_pos hroot, if_pos hroot, RootOf.root hroot, rfl, hforest, fun _ => rfl, id⟩
      · have hlt := card_above_parent_lt hforest hx hroot
        obtain ⟨r, s₁, hrun, hconst, hrest, hcompressed⟩ :=
          ih (hforest.parent_lt x hx) (by omega)
        have hx₁ : x < s₁.length := hcompressed.length_eq.symm ▸ hx
        have hroot₁ : RootOf s₁ x r := hcompressed.rootOf (RootOf.step hroot hrest)
        -- a node that is not its own root before the walk is not its own root after it
        have hnot₁ : ¬ isRoot s₁ x := fun h => by
          obtain rfl : x = r := (RootOf.root h).unique hroot₁
          exact hroot hrest.isRoot
        refine ⟨r, setParent s₁ x r, ?_, ?_, RootOf.step hroot hrest, ?_, ?_, fun y => ?_,
          fun h => ?_⟩
        · rw [getRoot, if_neg hroot, hrun, Option.map_some]
        · rw [getRootConst, if_neg hroot, hconst]
        · rw [length_setParent, hcompressed.length_eq]
        · exact hcompressed.forest.setParent hx₁ hnot₁ hroot₁
        · rw [rank_setParent, hcompressed.rank_eq]
        · exact rootOf_setParent hx₁ hnot₁ hroot₁ (hcompressed.rootOf h)

theorem find_spec (hforest : Forest s) (hx : x < s.length) :
    ∃ r s', find s (some x) = some (some r, s') ∧ findConst s (some x) = some (some r) ∧
      RootOf s x r ∧ Compressed s s' := by
  obtain ⟨r, s', hrun, hconst, hroot, hcompressed⟩ :=
    getRoot_spec hforest hx (card_above_lt_length hx)
  exact ⟨r, s', by rw [find, hrun, Option.map_some], by rw [findConst, hconst, Option.map_some],
    hroot, hcompressed⟩

theorem exists_rootOf (hforest : Forest s) (x : Nat) : ∃ r, RootOf s x r := by
  rcases Nat.lt_or_ge x s.length with hlt | hge
  · obtain ⟨r, _, _, _, hroot, _⟩ := find_spec hforest hlt
    exact ⟨r, hroot⟩
  · exact ⟨x, RootOf.root (parent_of_length_le hge)⟩

end Compression

/-! ## Linking two roots -/

/-- A state in which the root `child` went below the root `top`. -/
structure Linked (s s' : Children T) (child top : Nat) : Prop where
  length_eq : s'.length = s.length
  parent_eq : ∀ y, parent s' y = if y = child then top else parent s y
  rank_le : ∀ y, rank s y ≤ rank s' y
  rank_eq : ∀ y, y ≠ top → rank s' y = rank s y
  rank_lt : rank s child < rank s' top

section Linking

variable {s s' : Children T} {child top : Nat}

theorem Linked.forest (hforest : Forest s) (h : Linked s s' child top)
    (htop : isRoot s top) (hlt : top < s.length) (hne : child ≠ top) : Forest s' := by
  refine ⟨fun y hy => ?_, fun y hy => ?_⟩
  · rw [h.length_eq] at hy ⊢
    rw [h.parent_eq]
    split
    · exact hlt
    · exact hforest.parent_lt y hy
  · rw [h.parent_eq] at hy ⊢
    split at hy
    case isTrue heq => rw [if_pos heq, heq, h.rank_eq child hne]; exact h.rank_lt
    case isFalse hyc =>
      have hyt : y ≠ top := fun heq => hy (heq.symm ▸ htop)
      rw [if_neg hyc, h.rank_eq y hyt]
      exact Nat.lt_of_lt_of_le (hforest.rank_lt y hy) (h.rank_le _)

/-- Linking sends the class of `child` to `top` and leaves the other classes alone. -/
theorem rootOf_link (h : Linked s s' child top) (hchild : isRoot s child) (htop : isRoot s top)
    (hne : child ≠ top) {y q : Nat} (hroot : RootOf s y q) :
    RootOf s' y (merge child top q) := by
  have htop' : RootOf s' top top :=
    RootOf.root (by rw [isRoot, h.parent_eq, if_neg hne.symm]; exact htop)
  induction hroot with
  | @root y hy =>
      rcases eq_or_ne y child with rfl | hyc
      · have hparent : parent s' y = top := by rw [h.parent_eq, if_pos rfl]
        rw [merge, if_pos rfl]
        exact RootOf.step (by rw [isRoot, hparent]; exact hne.symm) (hparent.symm ▸ htop')
      · rw [merge, if_neg hyc]
        exact RootOf.root (by rw [isRoot, h.parent_eq, if_neg hyc]; exact hy)
  | @step y q hy _ ih =>
      have hyc : y ≠ child := fun heq => hy (heq.symm ▸ hchild)
      have hparent : parent s' y = parent s y := by rw [h.parent_eq, if_neg hyc]
      exact RootOf.step (by rwa [isRoot, hparent]) (hparent.symm ▸ ih)

theorem linked_setParent (hchild : child < s.length) (hrank : rank s child < rank s top) :
    Linked s (setParent s child top) child top :=
  ⟨length_setParent, parent_setParent hchild, fun y => by simp, fun y _ => by simp,
    by simpa using hrank⟩

/-- With equal ranks the new parent goes up by one. -/
theorem linked_incRank (hchild : child < s.length) (htop : top < s.length)
    (hrank : rank s child = rank s top) :
    Linked s (incRank (setParent s child top) top) child top := by
  have htop' : top < (setParent s child top).length := by rwa [length_setParent]
  refine ⟨by simp, fun y => ?_, fun y => ?_, fun y hy => ?_, ?_⟩
  · rw [parent_incRank, parent_setParent hchild]
  · rw [rank_incRank htop', rank_setParent, rank_setParent]
    split
    case isTrue hy => rw [hy]; exact Nat.le_succ _
    case isFalse => exact Nat.le_refl _
  · rw [rank_incRank htop', if_neg hy, rank_setParent]
  · rw [rank_incRank htop', if_pos rfl, rank_setParent, hrank]
    exact Nat.lt_succ_self _

/-- `unite` links the two roots it found, one way or the other. -/
theorem linkRoots_spec {lRoot rRoot : Nat} (hl : lRoot < s.length) (hr : rRoot < s.length) :
    Linked s (linkRoots s lRoot rRoot).2 lRoot rRoot ∨
      Linked s (linkRoots s lRoot rRoot).2 rRoot lRoot := by
  unfold linkRoots
  rcases Nat.lt_trichotomy (rank s lRoot) (rank s rRoot) with hlt | heq | hgt
  · rw [if_pos hlt]
    exact Or.inl (linked_setParent hl hlt)
  · rw [if_neg (by omega), if_neg (by omega)]
    exact Or.inr (linked_incRank hr hl heq.symm)
  · rw [if_neg (by omega), if_pos hgt]
    exact Or.inr (linked_setParent hr hgt)

end Linking

/-! ## Runs -/

/-- The forest's classes are those of the closure of `R`. -/
structure Tracks (s : Children T) (R : Nat → Nat → Prop) : Prop where
  forest : Forest s
  classes : ∀ {a b ra rb}, RootOf s a ra → RootOf s b rb → (ra = rb ↔ EqvGen R a b)

section Runs

variable {s s' : Children T} {R : Nat → Nat → Prop}

theorem Tracks.nil : Tracks ([] : Children T) fun _ _ => False := by
  have hparent : ∀ x, parent ([] : Children T) x = x := fun x => parent_of_length_le (Nat.zero_le x)
  refine ⟨⟨fun x hx => absurd hx (Nat.not_lt_zero x), fun x hx => absurd (hparent x) hx⟩,
    fun {a b ra rb} ha hb => ?_⟩
  obtain rfl := ha.unique (RootOf.root (hparent a))
  obtain rfl := hb.unique (RootOf.root (hparent b))
  exact eqvGen_empty Function.injective_id ra rb

theorem Compressed.rootOf_iff (hforest : Forest s) (h : Compressed s s') {y q : Nat} :
    RootOf s' y q ↔ RootOf s y q := by
  refine ⟨fun hroot => ?_, h.rootOf⟩
  obtain ⟨q', hq'⟩ := exists_rootOf hforest y
  exact hroot.unique (h.rootOf hq') ▸ hq'

theorem Tracks.compressed (h : Tracks s R) (hcompressed : Compressed s s') : Tracks s' R :=
  ⟨hcompressed.forest, fun ha hb => h.classes ((hcompressed.rootOf_iff h.forest).mp ha)
    ((hcompressed.rootOf_iff h.forest).mp hb)⟩

theorem Tracks.emplace (h : Tracks s R) (data : T) :
    Tracks (DisjointForest.emplace s data).2 R := by
  have hroots : ∀ {y q}, RootOf (DisjointForest.emplace s data).2 y q → RootOf s y q := by
    intro y q hroot
    induction hroot with
    | root hy => exact RootOf.root (by rwa [isRoot, parent_emplace] at hy)
    | step hy _ ih =>
        rw [isRoot, parent_emplace] at hy
        exact RootOf.step hy (by rwa [parent_emplace] at ih)
  refine ⟨⟨fun x hx => ?_, fun x hx => ?_⟩, fun ha hb => h.classes (hroots ha) (hroots hb)⟩
  · have hlength : (DisjointForest.emplace s data).2.length = s.length + 1 := by
      simp [DisjointForest.emplace]
    rw [hlength] at hx ⊢
    rw [parent_emplace]
    rcases Nat.lt_or_ge x s.length with hlt | hge
    · exact Nat.lt_succ_of_lt (h.forest.parent_lt x hlt)
    · rwa [parent_of_length_le hge]
  · rw [parent_emplace] at hx ⊢
    rw [rank_emplace, rank_emplace]
    exact h.forest.rank_lt x hx

/-- Linking the roots of `l` and `r` adds that pair to the closure. -/
theorem Tracks.link (h : Tracks s R) {l r lRoot rRoot child top : Nat}
    (hl : RootOf s l lRoot) (hr : RootOf s r rRoot) (hlinked : Linked s s' child top)
    (hlt : top < s.length) (hne : lRoot ≠ rRoot)
    (hends : child = lRoot ∧ top = rRoot ∨ child = rRoot ∧ top = lRoot) :
    Tracks s' fun a b => R a b ∨ a = l ∧ b = r := by
  have hchild : isRoot s child := by
    rcases hends with ⟨rfl, -⟩ | ⟨rfl, -⟩
    exacts [hl.isRoot, hr.isRoot]
  have htop : isRoot s top := by
    rcases hends with ⟨-, rfl⟩ | ⟨-, rfl⟩
    exacts [hr.isRoot, hl.isRoot]
  have hct : child ≠ top := by
    rcases hends with ⟨rfl, rfl⟩ | ⟨rfl, rfl⟩
    exacts [hne, hne.symm]
  choose f hf using exists_rootOf h.forest
  have hkernel : ∀ x y, f x = f y ↔ EqvGen R x y := fun x y => h.classes (hf x) (hf y)
  have hfl : f l = lRoot := (hf l).unique hl
  have hfr : f r = rRoot := (hf r).unique hr
  have hmerged : ∀ x y, merge child top (f x) = merge child top (f y) ↔
      EqvGen (fun a b => R a b ∨ a = l ∧ b = r) x y := by
    have hmono : R ≤ fun a b => R a b ∨ a = l ∧ b = r := fun a b hab => Or.inl hab
    have hlr : EqvGen (fun a b => R a b ∨ a = l ∧ b = r) l r := EqvGen.rel _ _ (Or.inr ⟨rfl, rfl⟩)
    rcases hends with ⟨rfl, rfl⟩ | ⟨rfl, rfl⟩
    · rw [← hfl, ← hfr]
      refine eqvGen_merge hkernel hmono hlr fun x y hxy => hxy.imp_right fun hedge => ?_
      rw [hedge.1, hedge.2]
      simp [merge]
    · rw [← hfl, ← hfr]
      refine eqvGen_merge hkernel hmono (hlr.symm _ _) fun x y hxy => hxy.imp_right fun hedge => ?_
      rw [hedge.1, hedge.2]
      simp [merge]
  refine ⟨hlinked.forest h.forest htop hlt hct, fun {a b ra rb} ha hb => ?_⟩
  rw [ha.unique (rootOf_link hlinked hchild htop hct (hf a)),
    hb.unique (rootOf_link hlinked hchild htop hct (hf b))]
  exact hmerged a b

theorem Tracks.congr {S : Nat → Nat → Prop} (h : Tracks s R) (hRS : ∀ a b, R a b ↔ S a b) :
    Tracks s S := by
  obtain rfl : R = S := funext fun a => funext fun b => propext (hRS a b)
  exact h

/-- A pair in one class adds nothing to the closure. -/
theorem Tracks.same (h : Tracks s R) {l r root : Nat} (hl : RootOf s l root)
    (hr : RootOf s r root) : Tracks s fun a b => R a b ∨ a = l ∧ b = r := by
  have hlr : EqvGen R l r := (h.classes hl hr).mp rfl
  exact ⟨h.forest, fun ha hb => (h.classes ha hb).trans (eqvGen_same hlr _ _)⟩

/-- A call adds the pair it unites, if it is one of `unite`. -/
def Call.Adds : Call T → Nat → Nat → Prop
  | .unite (some l) (some r), a, b => a = l ∧ b = r
  | _, _, _ => False

theorem unite_tracks (h : Tracks s R) {left right : Option Nat}
    (hvalid : (Call.unite (T := T) left right).Valid s.length) :
    ∃ root s', unite s left right = some (root, s') ∧ s'.length = s.length ∧
      Tracks s' fun a b => R a b ∨ (Call.unite (T := T) left right).Adds a b := by
  obtain ⟨hleft, hright, hnull⟩ := hvalid
  match left, right with
  | none, none =>
      refine ⟨none, s, rfl, rfl, h.congr fun a b => ?_⟩
      simp [Call.Adds]
  | none, some r => exact absurd (hnull.mp rfl) (by simp)
  | some l, none => exact absurd (hnull.mpr rfl) (by simp)
  | some l, some r =>
      obtain ⟨lRoot, s₁, hfindl, -, hl, hcompressed₁⟩ := find_spec h.forest (hleft l rfl)
      have hr₁ : r < s₁.length := hcompressed₁.length_eq.symm ▸ hright r rfl
      obtain ⟨rRoot, s₂, hfindr, -, hr, hcompressed₂⟩ := find_spec hcompressed₁.forest hr₁
      -- the finds shorten paths, and the roots stay
      have htracks : Tracks s₂ R := (h.compressed hcompressed₁).compressed hcompressed₂
      have hlength : s₂.length = s.length :=
        hcompressed₂.length_eq.trans hcompressed₁.length_eq
      have hl₂ : RootOf s₂ l lRoot := hcompressed₂.rootOf (hcompressed₁.rootOf hl)
      have hr₂ : RootOf s₂ r rRoot := hcompressed₂.rootOf hr
      have hunite : unite s (some l) (some r) =
          if (some lRoot : Option Nat) = some rRoot then some (some lRoot, s₂)
          else some (some (linkRoots s₂ lRoot rRoot).1, (linkRoots s₂ lRoot rRoot).2) := by
        simp only [unite, hfindl, hfindr, Option.bind_some]
      rcases eq_or_ne lRoot rRoot with rfl | hne
      · exact ⟨some lRoot, s₂, by rw [hunite, if_pos rfl], hlength, htracks.same hl₂ hr₂⟩
      · have hllt : lRoot < s₂.length := hlength.symm ▸ hl.lt h.forest (hleft l rfl)
        have hrlt : rRoot < s₂.length :=
          hcompressed₂.length_eq.symm ▸ hr.lt hcompressed₁.forest hr₁
        have hnot : (some lRoot : Option Nat) ≠ some rRoot := fun heq => hne (Option.some.inj heq)
        refine ⟨_, _, by rw [hunite, if_neg hnot], ?_, ?_⟩
        · rcases linkRoots_spec hllt hrlt with hlinked | hlinked
          all_goals exact hlinked.length_eq.trans hlength
        · rcases linkRoots_spec hllt hrlt with hlinked | hlinked
          · exact htracks.link hl₂ hr₂ hlinked hrlt hne (Or.inl ⟨rfl, rfl⟩)
          · exact htracks.link hl₂ hr₂ hlinked hllt hne (Or.inr ⟨rfl, rfl⟩)

/-- What one call does to the classes. -/
theorem step_spec (h : Tracks s R) {call : Call T} (hvalid : call.Valid s.length) :
    ∃ s', step s call = some s' ∧ s'.length = s.length + call.made ∧
      Tracks s' fun a b => R a b ∨ call.Adds a b := by
  cases call with
  | emplace data =>
      refine ⟨_, rfl, by simp [emplace, Call.made], (h.emplace data).congr fun a b => ?_⟩
      simp [Call.Adds]
  | find needle =>
      have hadds : ∀ a b, R a b ↔ R a b ∨ (Call.find (T := T) needle).Adds a b := by
        simp [Call.Adds]
      cases needle with
      | none => exact ⟨s, rfl, rfl, h.congr hadds⟩
      | some x =>
          obtain ⟨r, s', hfind, -, -, hcompressed⟩ := find_spec h.forest (hvalid x rfl)
          exact ⟨s', by rw [step, hfind, Option.map_some], hcompressed.length_eq,
            (h.compressed hcompressed).congr hadds⟩
  | unite left right =>
      obtain ⟨root, s', hunite, hlength, htracks⟩ := unite_tracks h hvalid
      exact ⟨s', by rw [step, hunite, Option.map_some], hlength, htracks⟩

theorem united_cons {call : Call T} {calls : List (Call T)} {a b : Nat} :
    United (call :: calls) a b ↔ call.Adds a b ∨ United calls a b := by
  rw [United, List.mem_cons, ← United]
  refine or_congr_left ?_
  match call with
  | .emplace _ => simp [Call.Adds]
  | .find _ => simp [Call.Adds]
  | .unite none _ => simp [Call.Adds]
  | .unite (some _) none => simp [Call.Adds]
  | .unite (some l) (some r) => simp [Call.Adds]

/-- **A run of valid calls has a last state, whose classes are the closure of the united pairs.** -/
theorem run_spec (h : Tracks s R) {calls : List (Call T)} (hvalid : Valid s.length calls) :
    ∃ s', run s calls = some s' ∧ s'.length = s.length + (calls.map Call.made).sum ∧
      Tracks s' fun a b => R a b ∨ United calls a b := by
  induction calls generalizing s R with
  | nil =>
      refine ⟨s, rfl, rfl, h.congr fun a b => ?_⟩
      simp [United]
  | cons call calls ih =>
      obtain ⟨s₁, hstep, hlength₁, htracks₁⟩ := step_spec h hvalid.1
      obtain ⟨s', hrun, hlength, htracks⟩ := ih htracks₁ (hlength₁.symm ▸ hvalid.2)
      refine ⟨s', ?_, ?_, htracks.congr fun a b => ?_⟩
      · rw [run, List.foldlM_cons, hstep]
        exact hrun
      · rw [hlength, hlength₁, List.map_cons, List.sum_cons, Nat.add_assoc]
      · rw [united_cons, or_assoc]

/-- **Union-find computes the equivalence closure.**  Whatever was called before: both finds of a
pair of nodes return, with one root exactly if the pair is connected; a find changes what no other
find returns; the links never close, and a non-root has a smaller rank than its parent. -/
theorem find_eq_iff_connected (calls : List (Call T)) (hvalid : Valid 0 calls) :
    ∃ s, run [] calls = some s ∧ s.length = (calls.map Call.made).sum ∧
      (∀ a < s.length, ∀ b < s.length, ∃ ra s₁ rb s₂,
        find s (some a) = some (some ra, s₁) ∧ find s₁ (some b) = some (some rb, s₂) ∧
        (ra = rb ↔ EqvGen (United calls) a b)) ∧
      (∀ x < s.length, ∀ y < s.length, ∃ rx s₁ ry s₂ s₃,
        find s (some x) = some (some rx, s₁) ∧ find s (some y) = some (some ry, s₂) ∧
        find s₁ (some y) = some (some ry, s₃)) ∧
      (∀ x, ¬ TransGen (Link s) x x) ∧
      ∀ x, ¬ isRoot s x → rank s x < rank s (parent s x) := by
  obtain ⟨s, hrun, hlength, htracks⟩ := run_spec Tracks.nil hvalid
  replace htracks : Tracks s (United calls) := htracks.congr fun a b => by simp
  have hfind : ∀ x < s.length, ∀ y < s.length, ∃ rx s₁ ry s₂ s₃,
      find s (some x) = some (some rx, s₁) ∧ find s (some y) = some (some ry, s₂) ∧
      find s₁ (some y) = some (some ry, s₃) ∧ RootOf s x rx ∧ RootOf s y ry := by
    intro x hx y hy
    obtain ⟨rx, s₁, hfindx, -, hrx, hcompressed⟩ := find_spec htracks.forest hx
    obtain ⟨ry, s₂, hfindy, -, hry, -⟩ := find_spec htracks.forest hy
    obtain ⟨ry', s₃, hfindy', -, hry', -⟩ :=
      find_spec hcompressed.forest (hcompressed.length_eq.symm ▸ hy)
    obtain rfl := hry'.unique (hcompressed.rootOf hry)
    exact ⟨rx, s₁, ry', s₂, s₃, hfindx, hfindy, hfindy', hrx, hry⟩
  refine ⟨s, hrun, by simpa using hlength, fun a ha b hb => ?_, fun x hx y hy => ?_,
    not_transGen_link htracks.forest, htracks.forest.rank_lt⟩
  · obtain ⟨ra, s₁, rb, -, s₂, hfinda, -, hfindb, hra, hrb⟩ := hfind a ha b hb
    exact ⟨ra, s₁, rb, s₂, hfinda, hfindb, htracks.classes hra hrb⟩
  · obtain ⟨rx, s₁, ry, s₂, s₃, hfindx, hfindy, hfindy', -⟩ := hfind x hx y hy
    exact ⟨rx, s₁, ry, s₂, s₃, hfindx, hfindy, hfindy'⟩

/-- Two nodes are united, one of them is looked up, and a third one stays apart. -/
theorem find_eq_iff_connected_three :
    Valid (T := Unit) 0 [.emplace (), .emplace (), .emplace (), .unite (some 0) (some 1),
        .find (some 1)] ∧
      ∃ s, run (T := Unit) [] [.emplace (), .emplace (), .emplace (), .unite (some 0) (some 1),
          .find (some 1)] = some s ∧ s.length = 3 := by
  have hvalid : Valid (T := Unit) 0 [.emplace (), .emplace (), .emplace (),
      .unite (some 0) (some 1), .find (some 1)] := by
    simp [Valid, Call.Valid, Call.made]
  obtain ⟨s, hrun, hlength, -⟩ := find_eq_iff_connected _ hvalid
  exact ⟨hvalid, s, hrun, hlength⟩

end Runs

/-! ## The set seen through its roots -/

/-- A forest and the set of its roots. -/
structure Models (s : Children T) (D : DisjointSet) : Prop where
  forest : Forest s
  size : s.length = D.size
  rootOf : ∀ x, RootOf s x (D.root x)
  rank_eq : ∀ x, rank s x = D.rank x

section Models

variable {s s' : Children T} {D : DisjointSet}

theorem Models.compressed (h : Models s D) (hcompressed : Compressed s s') : Models s' D :=
  ⟨hcompressed.forest, hcompressed.length_eq.trans h.size, fun x => hcompressed.rootOf (h.rootOf x),
    fun x => (hcompressed.rank_eq x).trans (h.rank_eq x)⟩

/-- `getRoot` returns the root of the set and compresses only the forest. -/
theorem find_models (h : Models s D) {x : Nat} (hx : x < D.size) :
    ∃ s', find s (some x) = some (D.find (some x), s') ∧ Models s' D := by
  obtain ⟨r, s', hfind, -, hroot, hcompressed⟩ := find_spec h.forest (h.size.symm ▸ hx)
  obtain rfl := hroot.unique (h.rootOf x)
  exact ⟨s', hfind, h.compressed hcompressed⟩

theorem Models.link (h : Models s D) {child top : Nat} (hlinked : Linked s s' child top)
    (hchild : isRoot s child) (htop : isRoot s top) (hlt : top < s.length) (hne : child ≠ top)
    {rank' : Nat → Nat} (hrank : ∀ x, rank s' x = rank' x) :
    Models s' { D.setParent child top with rank := rank' } :=
  ⟨hlinked.forest h.forest htop hlt hne, hlinked.length_eq.trans h.size,
    fun x => rootOf_link hlinked hchild htop hne (h.rootOf x), hrank⟩

/-- `unite` of two nodes returns and leaves what it does on the roots alone. -/
theorem unite_models (h : Models s D) {left right : Nat} (hleft : left < D.size)
    (hright : right < D.size) :
    ∃ s', unite s (some left) (some right) = some (some (D.unite left right).1, s') ∧
      Models s' (D.unite left right).2 := by
  obtain ⟨s₁, hfindl, h₁⟩ := find_models h hleft
  obtain ⟨s₂, hfindr, h₂⟩ := find_models h₁ hright
  have hl := h₂.rootOf left
  have hr := h₂.rootOf right
  have hllt : D.root left < s₂.length := hl.lt h₂.forest (h₂.size.symm ▸ hleft)
  have hrlt : D.root right < s₂.length := hr.lt h₂.forest (h₂.size.symm ▸ hright)
  simp only [DisjointSet.find, Option.map_some] at hfindl hfindr
  simp only [unite, hfindl, hfindr, Option.bind_some, DisjointSet.unite, linkRoots, h₂.rank_eq,
    Option.some.injEq]
  rcases eq_or_ne (D.root left) (D.root right) with heq | hne
  · exact ⟨s₂, by rw [if_pos heq, if_pos heq], by rw [if_pos heq]; exact h₂⟩
  rw [if_neg hne, if_neg hne]
  rcases Nat.lt_trichotomy (D.rank (D.root left)) (D.rank (D.root right)) with hlt | hsame | hgt
  · rw [if_pos hlt, if_pos hlt]
    have hrank : rank s₂ (D.root left) < rank s₂ (D.root right) := by
      rwa [h₂.rank_eq, h₂.rank_eq]
    have hlinked := linked_setParent hllt hrank
    exact ⟨_, rfl, h₂.link hlinked hl.isRoot hr.isRoot hrlt hne
      fun x => (rank_setParent x).trans (h₂.rank_eq x)⟩
  · rw [if_neg (by omega), if_neg (by omega), if_neg (by omega), if_neg (by omega)]
    have hrank : rank s₂ (D.root right) = rank s₂ (D.root left) := by
      rw [h₂.rank_eq, h₂.rank_eq, hsame]
    have hlinked := linked_incRank hrlt hllt hrank
    refine ⟨_, rfl, h₂.link hlinked hr.isRoot hl.isRoot hllt hne.symm fun x => ?_⟩
    rw [rank_incRank (by rwa [length_setParent]), Function.update_apply]
    simp only [rank_setParent, h₂.rank_eq]
  · have hnot : ¬ D.rank (D.root left) < D.rank (D.root right) := by omega
    rw [if_neg hnot, if_neg hnot, if_pos hgt, if_pos hgt]
    have hrank : rank s₂ (D.root right) < rank s₂ (D.root left) := by
      rwa [h₂.rank_eq, h₂.rank_eq]
    have hlinked := linked_setParent hrlt hrank
    exact ⟨_, rfl, h₂.link hlinked hr.isRoot hl.isRoot hllt hne.symm
      fun x => (rank_setParent x).trans (h₂.rank_eq x)⟩

end Models

end DisjointForest

end Borealis
