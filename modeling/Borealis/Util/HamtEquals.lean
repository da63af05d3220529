import Borealis.Util.Hamt

/-!
# Comparing persistent hash sets

`operator==` of `hamt_set` compares two tries node by node, the pointers to the branch nodes being
read as the branches they point to.  That decides equality of the sets as long as the elements alone
determine the shape: a leaf for elements of one hash, a branch only where there are two
(`Canonical`).

`insert` and `merge` keep this shape.  `erase` replaces a branch with a single leaf by the leaf, but
only where a whole child is gone: if the branch is itself the only child of another one, the leaf
stays below that.  `KeepsShape` excludes this case, and the runs without it are those in which
`operator==` is equality (`equals_iff_of_run`).
-/

namespace Borealis

namespace Hamt

open HamtNode

section Compare

variable {T : Type} (Hash : T → BitVec 64) (Equal : T → T → Bool)
  (same : HamtNode T → HamtNode T → Bool)

/-- `std::is_permutation` of two buckets. -/
def isPermutation : List T → List T → Bool
  | [], r => r.isEmpty
  | v :: l, r => r.any (Equal v) && isPermutation l (r.eraseP (Equal v))

/-- `equals`.  Equal masks have the same positions, so that the children are compared position by
position. -/
def equals : HamtNode T → HamtNode T → Bool
  | .null, .null => true
  | .leaf v n, .leaf w m =>
    same (.leaf v n) (.leaf w m) || isPermutation Equal (v :: n) (w :: m)
  | .branch data, .branch data' =>
    same (.branch data) (.branch data') ||
      (mask data == mask data' && (List.finRange 32).all fun i => equals (data i) (data' i))
  | l, r => same l r

/-- Each element of one list is equal to one of the other. -/
def SameElements (l r : List T) : Prop :=
  (∀ y ∈ l, ∃ z ∈ r, Equal y z = true) ∧ ∀ z ∈ r, ∃ y ∈ l, Equal y z = true

/-- Two elements of the list have different hashes. -/
def TwoHashes (l : List T) : Prop :=
  ∃ y ∈ l, ∃ z ∈ l, hash Hash y ≠ hash Hash z

/-- **The shape** that the elements determine: below every branch there are two hashes. -/
def Canonical : HamtNode T → Prop
  | .null => True
  | .leaf _ _ => True
  | .branch data => TwoHashes Hash (HamtNode.branch data).elements ∧ ∀ i, Canonical (data i)

/-- On the way to the value no branch has only one child in which the erasure leaves only one
hash. -/
def KeepsShape (value : T) : HamtNode T → ℕ → Prop
  | .null, _ => True
  | .leaf _ _, _ => True
  | .branch data, level =>
    (mask data = [digit level (hash Hash value)] →
      TwoHashes Hash ((data (digit level (hash Hash value))).elements.filter
        fun y => !Equal y value)) ∧
    KeepsShape value (data (digit level (hash Hash value))) (level + 1)

end Compare

section Shape

variable {T : Type} {Hash : T → BitVec 64} {Equal : T → T → Bool}
  {same : HamtNode T → HamtNode T → Bool}
  (hEqual : Equivalence fun a b => Equal a b = true)
  (hHash : ∀ a b, Equal a b = true → Hash a = Hash b)
  (hsame : ∀ a b, same a b = true → a = b)

/-! ## Buckets -/

/-- Erasing takes one element out. -/
theorem exists_perm_eraseP {p : T → Bool} {r : List T} {a : T} (ha : a ∈ r) (hp : p a = true) :
    ∃ b, p b = true ∧ List.Perm r (b :: r.eraseP p) := by
  obtain ⟨b, l₁, l₂, -, hb, hsplit, herase⟩ := List.exists_of_eraseP ha hp
  refine ⟨b, hb, ?_⟩
  rw [herase, hsplit]
  exact List.perm_middle

include hEqual in
/-- Buckets without equal elements are permutations if they have the same elements. -/
theorem isPermutation_iff {l r : List T} (hl : Distinct Equal l) (hr : Distinct Equal r) :
    isPermutation Equal l r = true ↔ SameElements Equal l r := by
  induction l generalizing r with
  | nil =>
      rw [isPermutation, List.isEmpty_iff]
      constructor
      · rintro rfl
        exact ⟨fun y hy => absurd hy List.not_mem_nil, fun z hz => absurd hz List.not_mem_nil⟩
      · intro h
        refine List.eq_nil_iff_forall_not_mem.mpr fun z hz => ?_
        obtain ⟨y, hy, -⟩ := h.2 z hz
        exact absurd hy List.not_mem_nil
  | cons v l ih =>
      obtain ⟨hv, hl⟩ := List.pairwise_cons.1 hl
      rw [isPermutation, Bool.and_eq_true, List.any_eq_true]
      have hsub : Distinct Equal (r.eraseP (Equal v)) := hr.sublist List.eraseP_sublist
      rw [ih hl hsub]
      constructor
      · rintro ⟨⟨a, ha, hva⟩, hforth, hback⟩
        obtain ⟨b, hvb, hperm⟩ := exists_perm_eraseP ha hva
        refine ⟨fun y hy => ?_, fun z hz => ?_⟩
        · rcases List.mem_cons.1 hy with rfl | hy
          · exact ⟨a, ha, hva⟩
          · obtain ⟨z, hz, hyz⟩ := hforth y hy
            exact ⟨z, List.mem_of_mem_eraseP hz, hyz⟩
        · rcases List.mem_cons.1 (hperm.mem_iff.1 hz) with rfl | hz
          · exact ⟨v, List.mem_cons_self, hvb⟩
          · obtain ⟨y, hy, hyz⟩ := hback z hz
            exact ⟨y, List.mem_cons_of_mem v hy, hyz⟩
      · rintro ⟨hforth, hback⟩
        obtain ⟨a, ha, hva⟩ := hforth v List.mem_cons_self
        obtain ⟨b, hvb, hperm⟩ := exists_perm_eraseP ha hva
        obtain ⟨hother, -⟩ := List.pairwise_cons.1 (hperm.pairwise hr (equal_false_symm hEqual))
        refine ⟨⟨a, ha, hva⟩, fun y hy => ?_, fun z hz => ?_⟩
        · obtain ⟨z, hz, hyz⟩ := hforth y (List.mem_cons_of_mem v hy)
          rcases List.mem_cons.1 (hperm.mem_iff.1 hz) with rfl | hz
          · have hvy : Equal v y = true := hEqual.trans hvb (hEqual.symm hyz)
            exact absurd hvy (by rw [hv y hy]; decide)
          · exact ⟨z, hz, hyz⟩
        · obtain ⟨y, hy, hyz⟩ := hback z (List.mem_of_mem_eraseP hz)
          rcases List.mem_cons.1 hy with rfl | hy
          · have hbz : Equal b z = true := hEqual.trans (hEqual.symm hvb) hyz
            exact absurd hbz (by rw [hother z hz]; decide)
          · exact ⟨y, hy, hyz⟩

/-! ## Nodes -/

include hHash in
theorem TwoHashes.of_covers {l r : List T} (h : TwoHashes Hash l)
    (hcovers : ∀ y ∈ l, ∃ z ∈ r, Equal z y = true) : TwoHashes Hash r := by
  obtain ⟨y, hy, z, hz, hne⟩ := h
  obtain ⟨y', hy', hyy⟩ := hcovers y hy
  obtain ⟨z', hz', hzz⟩ := hcovers z hz
  refine ⟨y', hy', z', hz', ?_⟩
  rwa [hash_eq_of_equal hHash hyy, hash_eq_of_equal hHash hzz]

/-- Only the null node has no elements. -/
theorem eq_null_of_elements_eq_nil {n : HamtNode T} (hn : Canonical Hash n)
    (h : n.elements = []) : n = .null := by
  cases n with
  | null => rfl
  | leaf v n => exact absurd h (List.cons_ne_nil v n)
  | branch data =>
      obtain ⟨⟨y, hy, -⟩, -⟩ := hn
      rw [h] at hy
      exact absurd hy List.not_mem_nil

theorem exists_mem_elements {n : HamtNode T} (hn : Canonical Hash n) (h : n.isNull = false) :
    ∃ y, y ∈ n.elements := by
  refine List.exists_mem_of_ne_nil _ fun hnil => ?_
  rw [eq_null_of_elements_eq_nil hn hnil] at h
  cases h

/-- A canonical node whose elements an empty one has is empty, too. -/
theorem isNull_of_covered {l r : HamtNode T} (hr : Canonical Hash r)
    (hcovered : ∀ z ∈ r.elements, ∃ y, y ∈ l.elements) (hnull : l.isNull = true) :
    r.isNull = true := by
  cases l with
  | null =>
      have hnil : r.elements = [] := by
        refine List.eq_nil_iff_forall_not_mem.mpr fun z hz => ?_
        obtain ⟨y, hy⟩ := hcovered z hz
        exact absurd hy List.not_mem_nil
      rw [eq_null_of_elements_eq_nil hr hnil]
      rfl
  | leaf v n => cases hnull
  | branch data => cases hnull

/-- A bucket and a branch of two hashes have different elements. -/
theorem not_sameElements_of_twoHashes (hHash : ∀ a b, Equal a b = true → Hash a = Hash b)
    {v : T} {n l : List T} {level : ℕ} (hinv : Inv Hash Equal (.leaf v n) level)
    (hl : TwoHashes Hash l) (hcovers : ∀ y ∈ l, ∃ z ∈ v :: n, Equal z y = true) : False := by
  obtain ⟨y, hy, z, hz, hne⟩ := hl.of_covers hHash hcovers
  exact hne ((hash_of_mem_bucket hinv y hy).trans (hash_of_mem_bucket hinv z hz).symm)

include hHash in
/-- The children of two branches with the same elements have the same elements. -/
theorem sameElements_child {data data' : Fin 32 → HamtNode T} {level : ℕ}
    (hl : Inv Hash Equal (.branch data) level) (hr : Inv Hash Equal (.branch data') level)
    (h : SameElements Equal (HamtNode.branch data).elements (HamtNode.branch data').elements)
    (i : Fin 32) : SameElements Equal (data i).elements (data' i).elements := by
  constructor
  · intro y hy
    obtain ⟨z, hz, hyz⟩ := h.1 y (mem_elements_branch.2 ⟨i, hy⟩)
    obtain ⟨j, hj⟩ := mem_elements_branch.1 hz
    have hij : i = j := by
      rw [← (hl.2 i).2 y hy, ← (hr.2 j).2 z hj, hash_eq_of_equal hHash hyz]
    exact ⟨z, hij ▸ hj, hyz⟩
  · intro z hz
    obtain ⟨y, hy, hyz⟩ := h.2 z (mem_elements_branch.2 ⟨i, hz⟩)
    obtain ⟨j, hj⟩ := mem_elements_branch.1 hy
    have hij : i = j := by
      rw [← (hr.2 i).2 z hz, ← (hl.2 j).2 y hj, hash_eq_of_equal hHash hyz]
    exact ⟨y, hij ▸ hj, hyz⟩

include hEqual in
theorem sameElements_refl (l : List T) : SameElements Equal l l :=
  ⟨fun y hy => ⟨y, hy, hEqual.refl y⟩, fun z hz => ⟨z, hz, hEqual.refl z⟩⟩

include hEqual hHash hsame in
/-- **In canonical shape `equals` compares the elements.** -/
theorem equals_iff (l : HamtNode T) :
    ∀ r level, Inv Hash Equal l level → Inv Hash Equal r level → Canonical Hash l →
      Canonical Hash r →
      (equals Equal same l r = true ↔ SameElements Equal l.elements r.elements) := by
  induction l with
  | null =>
      intro r level _ _ _ hr
      cases r with
      | null => exact iff_of_true rfl (sameElements_refl hEqual _)
      | leaf w m =>
          refine iff_of_false (fun h => by cases hsame _ _ h) fun h => ?_
          obtain ⟨y, hy, -⟩ := h.2 w List.mem_cons_self
          exact absurd hy List.not_mem_nil
      | branch data' =>
          refine iff_of_false (fun h => by cases hsame _ _ h) fun h => ?_
          obtain ⟨z, hz⟩ := exists_mem_elements hr rfl
          obtain ⟨y, hy, -⟩ := h.2 z hz
          exact absurd hy List.not_mem_nil
  | leaf v n =>
      intro r level hl hrInv _ hr
      cases r with
      | null =>
          refine iff_of_false (fun h => by cases hsame _ _ h) fun h => ?_
          obtain ⟨y, hy, -⟩ := h.1 v List.mem_cons_self
          exact absurd hy List.not_mem_nil
      | leaf w m =>
          rw [equals, Bool.or_eq_true, isPermutation_iff hEqual hl.2 hrInv.2]
          refine ⟨fun h => h.elim (fun hobject => ?_) id, Or.inr⟩
          obtain ⟨rfl, rfl⟩ := HamtNode.leaf.inj (hsame _ _ hobject)
          exact sameElements_refl hEqual _
      | branch data' =>
          refine iff_of_false (fun h => by cases hsame _ _ h) fun h => ?_
          exact not_sameElements_of_twoHashes hHash hl hr.1 h.2
  | branch data ih =>
      intro r level hl hrInv hlCan hr
      cases r with
      | null =>
          refine iff_of_false (fun h => by cases hsame _ _ h) fun h => ?_
          obtain ⟨z, hz⟩ := exists_mem_elements hlCan rfl
          obtain ⟨y, hy, -⟩ := h.1 z hz
          exact absurd hy List.not_mem_nil
      | leaf w m =>
          refine iff_of_false (fun h => by cases hsame _ _ h) fun h => ?_
          refine not_sameElements_of_twoHashes hHash hrInv hlCan.1 fun y hy => ?_
          obtain ⟨z, hz, hyz⟩ := h.1 y hy
          exact ⟨z, hz, hEqual.symm hyz⟩
      | branch data' =>
          have hchild := fun i =>
            ih i (data' i) (level + 1) (hl.2 i).1 (hrInv.2 i).1 (hlCan.2 i) (hr.2 i)
          rw [equals, Bool.or_eq_true, Bool.and_eq_true, List.all_eq_true]
          constructor
          · rintro (hobject | ⟨-, hall⟩)
            · obtain rfl := HamtNode.branch.inj (hsame _ _ hobject)
              exact sameElements_refl hEqual _
            · have hsub := fun i => (hchild i).1 (hall i (List.mem_finRange i))
              refine ⟨fun y hy => ?_, fun z hz => ?_⟩
              · obtain ⟨i, hi⟩ := mem_elements_branch.1 hy
                obtain ⟨z, hz, hyz⟩ := (hsub i).1 y hi
                exact ⟨z, mem_elements_branch.2 ⟨i, hz⟩, hyz⟩
              · obtain ⟨i, hi⟩ := mem_elements_branch.1 hz
                obtain ⟨y, hy, hyz⟩ := (hsub i).2 z hi
                exact ⟨y, mem_elements_branch.2 ⟨i, hy⟩, hyz⟩
          · intro h
            have hsub := sameElements_child hHash hl hrInv h
            refine Or.inr ⟨?_, fun i _ => (hchild i).2 (hsub i)⟩
            rw [beq_iff_eq, mask, mask]
            refine List.filter_congr fun i _ => ?_
            congr 1
            rw [Bool.eq_iff_iff]
            constructor
            · refine isNull_of_covered (hr.2 i) fun z hz => ?_
              obtain ⟨y, hy, -⟩ := (hsub i).2 z hz
              exact ⟨y, hy⟩
            · refine isNull_of_covered (hlCan.2 i) fun y hy => ?_
              obtain ⟨z, hz, -⟩ := (hsub i).1 y hy
              exact ⟨z, hz⟩

/-! ## The operations keep the shape -/

theorem canonical_ofList (l : List T) : Canonical Hash (ofList l) := by
  cases l <;> trivial

theorem canonical_noData (i : Fin 32) : Canonical Hash (noData i : HamtNode T) := trivial

theorem canonical_set {data : Fin 32 → HamtNode T} {ix : Fin 32} {c : HamtNode T}
    (hdata : ∀ i, Canonical Hash (data i)) (hc : Canonical Hash c) (i : Fin 32) :
    Canonical Hash (set data ix c i) := by
  by_cases h : i = ix
  · subst h
    rwa [set_same]
  · rw [set_of_ne h]
    exact hdata i

/-- Branches above a branch of two hashes. -/
theorem canonical_wrap (level : ℕ) (h : BitVec 32) (n : ℕ) {b : HamtNode T}
    (hb : Canonical Hash b) (htwo : TwoHashes Hash b.elements) :
    Canonical Hash (wrap level h n b) := by
  induction n generalizing b with
  | zero => exact hb
  | succ n ih =>
      obtain ⟨y, hy, z, hz, hne⟩ := htwo
      have hset : TwoHashes Hash
          (HamtNode.branch (set noData (digit (level + n) h) b)).elements :=
        ⟨y, mem_elements_set.2 (Or.inl hy), z, mem_elements_set.2 (Or.inl hz), hne⟩
      exact ih ⟨hset, canonical_set canonical_noData hb⟩ hset

theorem canonical_mergeBuckets (lv : T) (ln : List T) (rv : T) (rn : List T) :
    Canonical Hash (mergeBuckets Equal same lv ln rv rn) := by
  unfold mergeBuckets
  split
  · trivial
  · exact canonical_ofList _

include hEqual hHash hsame in
/-- **`insert_leaf`** keeps the shape. -/
theorem canonical_insertLeaf {value : T} {next : List T}
    (hleaf : ∀ l, Inv Hash Equal (.leaf value next) l) (n : HamtNode T) :
    ∀ level ≤ 7, Inv Hash Equal n level →
      (∀ y ∈ n.elements, ∀ k < level, digit k (hash Hash value) = digit k (hash Hash y)) →
      Canonical Hash n → ∀ r, insertLeaf Hash Equal same value next n level = some r →
      Canonical Hash r := by
  induction n with
  | null =>
      intro level _ _ _ _ r h
      obtain rfl := Option.some.inj h
      trivial
  | leaf v n =>
      intro level hlevel hinv hpath _ r h
      unfold insertLeaf at h
      split_ifs at h with hobject hhash
      · obtain rfl := Option.some.inj h
        trivial
      · obtain rfl := Option.some.inj h
        exact canonical_mergeBuckets _ _ _ _
      · obtain ⟨d, hd, -, -, hne, -⟩ := exists_divertLevel hhash (hpath v List.mem_cons_self)
        rw [hd, Option.map_some, Option.some.injEq] at h
        subst h
        have htwo : TwoHashes Hash (HamtNode.branch (set (set noData
            (digit d (hash Hash value)) (.leaf value next))
            (digit d (hash Hash v)) (.leaf v n))).elements := by
          refine ⟨value, ?_, v, mem_elements_set.2 (Or.inl List.mem_cons_self), hhash⟩
          refine mem_elements_set.2 (Or.inr ⟨_, hne, ?_⟩)
          rw [set_same]
          exact List.mem_cons_self
        exact canonical_wrap _ _ _
          ⟨htwo, canonical_set (canonical_set canonical_noData trivial) trivial⟩ htwo
  | branch data ih =>
      intro level hlevel hinv hpath hcan r h
      obtain ⟨r', hr', hunites⟩ :=
        insertLeaf_unites hEqual hsame hleaf (.branch data) level hlevel hinv hpath
      obtain rfl := Option.some.inj (h.symm.trans hr')
      have htwo := hcan.1.of_covers hHash fun y hy => hunites.covers y (Or.inl hy)
      unfold insertLeaf at h
      dsimp only at h
      split at h
      · obtain rfl := Option.some.inj h
        exact ⟨htwo, canonical_set hcan.2 trivial⟩
      · obtain ⟨replaced, hreplaced, rfl⟩ := Option.map_eq_some_iff.mp h
        rw [same_or_set hsame] at htwo ⊢
        refine ⟨htwo, canonical_set hcan.2 (ih _ (level + 1) (by have := hinv.1; omega)
          (hinv.2 _).1 (fun y hy k hk => ?_) (hcan.2 _) replaced hreplaced)⟩
        rcases Nat.lt_succ_iff_lt_or_eq.1 hk with hk | rfl
        · exact hpath y (mem_elements_branch.2 ⟨_, hy⟩) k hk
        · exact ((hinv.2 _).2 y hy).symm

/-- The children of a branch have the shape; the branch itself gets its second hash later. -/
def ChildrenCanonical (Hash : T → BitVec 64) : HamtNode T → Prop
  | .null => True
  | .leaf _ _ => True
  | .branch data => ∀ i, Canonical Hash (data i)

/-- Together with the value a branch has two hashes. -/
def TwoHashesWith (Hash : T → BitVec 64) (value : T) : HamtNode T → Prop
  | .null => True
  | .leaf _ _ => True
  | .branch data => TwoHashes Hash ((HamtNode.branch data).elements ++ [value])

theorem Canonical.children {n : HamtNode T} (h : Canonical Hash n) : ChildrenCanonical Hash n := by
  cases n with
  | null => trivial
  | leaf v n => trivial
  | branch data => exact h.2

theorem Canonical.twoHashesWith {n : HamtNode T} (h : Canonical Hash n) (value : T) :
    TwoHashesWith Hash value n := by
  cases n with
  | null => trivial
  | leaf v n => trivial
  | branch data =>
      obtain ⟨⟨y, hy, z, hz, hne⟩, -⟩ := h
      exact ⟨y, List.mem_append_left _ hy, z, List.mem_append_left _ hz, hne⟩

include hEqual hHash hsame in
/-- **`insert`** keeps the shape, also in the branch that it puts above a leaf first. -/
theorem canonical_insert (value : T) (fuel : ℕ) :
    ∀ (n : HamtNode T), ∀ level ≤ 7, Inv Hash Equal n level →
      (∀ y ∈ n.elements, ∀ k < level, digit k (hash Hash value) = digit k (hash Hash y)) →
      2 * (8 - level) - (if n.isLeaf then 0 else 1) ≤ fuel →
      ChildrenCanonical Hash n → TwoHashesWith Hash value n →
      ∀ r, insert Hash Equal same value fuel n level = some r → Canonical Hash r := by
  induction fuel with
  | zero =>
      intro n level hlevel _ _ hfuel
      split_ifs at hfuel <;> omega
  | succ fuel ih =>
      intro n level hlevel hinv hpath hfuel hchildren hwith r h
      obtain ⟨r', hr', hunites⟩ :=
        insert_unites hEqual hsame value (fuel + 1) n level hlevel hinv hpath hfuel
      obtain rfl := Option.some.inj (h.symm.trans hr')
      cases n with
      | null =>
          obtain rfl := Option.some.inj h
          trivial
      | leaf v n =>
          rw [insert] at h
          split_ifs at h with hhash hany
          · obtain rfl := Option.some.inj h
            trivial
          · obtain rfl := Option.some.inj h
            trivial
          · have hlevel6 : level ≤ 6 := by
              by_contra hgt
              refine hhash (eq_of_digits fun k hk => hpath v List.mem_cons_self k (by omega))
            have hbranch := unites_set hEqual (inv_noData hlevel6)
              (show Unites Hash Equal (level + 1)
                  (noData (digit level (hash Hash v)) : HamtNode T).elements (v :: n)
                  (.leaf v n) from unites_nil hEqual
                    (show Inv Hash Equal (.leaf v n) (level + 1) from hinv))
              (fun y hy => by rw [hash_of_mem_bucket hinv y hy])
            rw [elements_noData] at hbranch
            refine ih (.branch (set noData (digit level (hash Hash v)) (.leaf v n))) level hlevel
              hbranch.inv (fun y hy k hk => ?_) ?_ (canonical_set canonical_noData trivial) ?_ r h
            · rcases hbranch.subset y hy with hy | hy
              · exact absurd hy List.not_mem_nil
              · exact hpath y hy k hk
            · simp only [HamtNode.isLeaf, Bool.false_eq_true, if_true, if_false] at hfuel ⊢
              omega
            · exact ⟨v, List.mem_append_left _ (mem_elements_set.2 (Or.inl List.mem_cons_self)),
                value, List.mem_append_right _ (List.mem_singleton_self value), fun heq =>
                  hhash heq.symm⟩
      | branch data =>
          have htwo : TwoHashes Hash r.elements := hwith.of_covers hHash fun y hy =>
            hunites.covers y (List.mem_append.1 hy)
          rw [insert] at h
          split at h
          · obtain rfl := Option.some.inj h
            exact ⟨htwo, canonical_set hchildren trivial⟩
          · obtain ⟨replaced, hreplaced, rfl⟩ := Option.map_eq_some_iff.mp h
            rw [same_or_set hsame] at htwo ⊢
            have hchild : Canonical Hash (data (digit level (hash Hash value))) := hchildren _
            have hlevel6 := hinv.1
            refine ⟨htwo, canonical_set hchildren (ih _ (level + 1) (by omega) (hinv.2 _).1
              (fun y hy k hk => ?_) ?_ hchild.children (hchild.twoHashesWith value) replaced
              hreplaced)⟩
            · rcases Nat.lt_succ_iff_lt_or_eq.1 hk with hk | rfl
              · exact hpath y (mem_elements_branch.2 ⟨_, hy⟩) k hk
              · exact ((hinv.2 _).2 y hy).symm
            · simp only [HamtNode.isLeaf, Bool.false_eq_true, if_false] at hfuel
              omega

include hEqual hHash hsame in
/-- **`merge`** keeps the shape. -/
theorem canonical_merge (l : HamtNode T) :
    ∀ r : HamtNode T, ∀ level ≤ 7, Inv Hash Equal l level → Inv Hash Equal r level →
      (∀ y ∈ l.elements, ∀ z ∈ r.elements, ∀ k < level,
        digit k (hash Hash y) = digit k (hash Hash z)) →
      Canonical Hash l → Canonical Hash r →
      ∀ m, merge Hash Equal same l r level = some m → Canonical Hash m := by
  induction l with
  | null =>
      intro r level _ _ _ _ _ hr m h
      have hm : m = r := by
        cases r <;> exact (Option.some.inj h).symm
      rwa [hm]
  | leaf v n =>
      intro r level hlevel hl hrInv hpath hlCan hr m h
      have hleaf : ∀ level, Inv Hash Equal (.leaf v n) level := fun _ => hl
      cases r with
      | null =>
          obtain rfl := Option.some.inj h
          exact hlCan
      | leaf _ _ | branch _ =>
          rw [merge] at h
          · split_ifs at h
            · obtain rfl := Option.some.inj h
              trivial
            · exact canonical_insertLeaf hEqual hHash hsame hleaf _ level hlevel hrInv
                (fun y hy k hk => hpath v List.mem_cons_self y hy k hk) hr m h
          · intro h
            cases h
  | branch data ih =>
      intro r level hlevel hl hrInv hpath hlCan hr m h
      cases r with
      | null =>
          obtain rfl := Option.some.inj h
          exact hlCan
      | leaf w k =>
          exact canonical_insertLeaf hEqual hHash hsame (fun _ => hrInv) _ level hlevel hl
            (fun y hy k hk => (hpath y hy w List.mem_cons_self k hk).symm) hlCan m h
      | branch data' =>
          obtain ⟨m', hm', hunites⟩ :=
            merge_unites hEqual hsame (.branch data) (.branch data') level hlevel hl hrInv hpath
          obtain rfl := Option.some.inj (h.symm.trans hm')
          have htwo := hlCan.1.of_covers hHash fun y hy => hunites.covers y (Or.inl hy)
          rw [merge] at h
          split_ifs at h with hobject
          · obtain rfl := Option.some.inj h
            exact hlCan
          · have hchildPath : ∀ i, ∀ y ∈ (data i).elements, ∀ z ∈ (data' i).elements,
                ∀ k < level + 1, digit k (hash Hash y) = digit k (hash Hash z) := by
              intro i y hy z hz k hk
              rcases Nat.lt_succ_iff_lt_or_eq.1 hk with hk | rfl
              · exact hpath y (mem_elements_branch.2 ⟨i, hy⟩) z (mem_elements_branch.2 ⟨i, hz⟩) k hk
              · rw [(hl.2 i).2 y hy, (hrInv.2 i).2 z hz]
            have hlevel7 : level + 1 ≤ 7 := by
              have := hl.1
              omega
            have hchild : ∀ i, ∃ m, merge Hash Equal same (data i) (data' i) (level + 1) = some m :=
              fun i => (merge_unites hEqual hsame (data i) (data' i) (level + 1) hlevel7
                (hl.2 i).1 (hrInv.2 i).1 (hchildPath i)).imp fun _ hm => hm.1
            choose children hmerge using hchild
            rw [sequence_eq_some hmerge, Option.map_some, Option.some.injEq] at h
            subst h
            exact ⟨htwo, fun i => ih i (data' i) (level + 1) hlevel7 (hl.2 i).1 (hrInv.2 i).1
              (hchildPath i) (hlCan.2 i) (hr.2 i) (children i) (hmerge i)⟩

/-- Two children with elements make two hashes. -/
theorem twoHashes_of_children {data : Fin 32 → HamtNode T} {level : ℕ} {i j : Fin 32}
    (hinv : Inv Hash Equal (.branch data) level) (hij : i ≠ j)
    (hi : ∃ y, y ∈ (data i).elements) (hj : ∃ z, z ∈ (data j).elements) :
    TwoHashes Hash (HamtNode.branch data).elements := by
  obtain ⟨y, hy⟩ := hi
  obtain ⟨z, hz⟩ := hj
  refine ⟨y, mem_elements_branch.2 ⟨i, hy⟩, z, mem_elements_branch.2 ⟨j, hz⟩, fun heq => hij ?_⟩
  rw [← (hinv.2 i).2 y hy, ← (hinv.2 j).2 z hz, heq]

theorem nodup_mask (data : Fin 32 → HamtNode T) : (mask data).Nodup :=
  (List.nodup_finRange 32).filter _

/-- A branch from which a child is gone keeps the shape: it is left out if only a leaf remains. -/
theorem canonical_shrink {data : Fin 32 → HamtNode T} {level : ℕ}
    (hinv : Inv Hash Equal (.branch data) level) (hdata : ∀ i, Canonical Hash (data i)) :
    Canonical Hash (shrink data) := by
  have hmem : ∀ i ∈ mask data, ∃ y, y ∈ (data i).elements := fun i hi =>
    exists_mem_elements (hdata i) (mem_mask.1 hi)
  unfold shrink
  split
  · trivial
  · next i hmask =>
      split_ifs with hleaf
      · exact hdata i
      · refine ⟨?_, hdata⟩
        rw [elements_of_mask hmask]
        have hnull : (data i).isNull = false :=
          mem_mask.1 (by rw [hmask]; exact List.mem_singleton_self i)
        have hi := hdata i
        cases hchild : data i with
        | null => rw [hchild] at hnull; cases hnull
        | leaf v n => rw [hchild] at hleaf; exact absurd rfl hleaf
        | branch children =>
            rw [hchild] at hi
            exact hi.1
  · next hnil hsingle =>
      cases hmask : mask data with
      | nil => exact absurd hmask hnil
      | cons i rest =>
          cases rest with
          | nil => exact absurd hmask (hsingle i)
          | cons j rest =>
              have hnodup := nodup_mask data
              rw [hmask] at hnodup hmem
              have hij : i ≠ j := fun heq =>
                (List.nodup_cons.1 hnodup).1 (heq ▸ List.mem_cons_self)
              exact ⟨twoHashes_of_children hinv hij (hmem i List.mem_cons_self)
                (hmem j (List.mem_cons_of_mem i List.mem_cons_self)), hdata⟩

/-- A branch with a child has another one or only this. -/
theorem mask_eq_singleton_or {data : Fin 32 → HamtNode T} {i : Fin 32}
    (hi : (data i).isNull = false) : mask data = [i] ∨ ∃ j, j ≠ i ∧ (data j).isNull = false := by
  by_cases h : ∃ j, j ≠ i ∧ (data j).isNull = false
  · exact Or.inr h
  · left
    push Not at h
    have hmem : i ∈ mask data := mem_mask.2 hi
    have hall : ∀ j ∈ mask data, j = i := by
      intro j hj
      by_contra hne
      exact h j hne (mem_mask.1 hj)
    have hnodup := nodup_mask data
    cases hmask : mask data with
    | nil => rw [hmask] at hmem; exact absurd hmem List.not_mem_nil
    | cons a rest =>
        rw [hmask] at hall hnodup
        obtain rfl := hall a List.mem_cons_self
        cases rest with
        | nil => rfl
        | cons b rest =>
            obtain rfl := hall b (List.mem_cons_of_mem a List.mem_cons_self)
            exact absurd List.mem_cons_self (List.nodup_cons.1 hnodup).1

include hEqual hHash hsame in
/-- **`erase`** keeps the shape where no single child is left with one hash. -/
theorem canonical_erase (value : T) (n : HamtNode T) :
    ∀ level, Inv Hash Equal n level → Canonical Hash n →
      KeepsShape Hash Equal value n level →
      Canonical Hash (erase Hash Equal same value n level) := by
  induction n with
  | null => exact fun _ _ _ _ => trivial
  | leaf v n =>
      intro level _ _ _
      rw [erase]
      split
      · exact canonical_ofList _
      · trivial
  | branch data ih =>
      intro level hinv hcan hkeeps
      obtain ⟨hsingle, hkeepsChild⟩ := hkeeps
      have hchild := ih (digit level (hash Hash value)) (level + 1) (hinv.2 _).1 (hcan.2 _)
        hkeepsChild
      obtain ⟨herasedInv, herased⟩ := inv_erase hEqual hHash hsame value
        (data (digit level (hash Hash value))) (level + 1) (hinv.2 _).1
      have hset := inv_set hinv herasedInv fun y hy => by
        rw [herased] at hy
        exact (hinv.2 _).2 y (List.mem_of_mem_filter hy)
      rw [erase]
      split
      · exact hcan
      · next hnull =>
          split
          · next hgone =>
              rw [hgone] at hset
              exact canonical_shrink hset (canonical_set hcan.2 trivial)
          · next hremains =>
              rw [same_or_set hsame]
              refine ⟨?_, canonical_set hcan.2 hchild⟩
              have hix : (data (digit level (hash Hash value))).isNull = false := by
                cases hdata : data (digit level (hash Hash value)) with
                | null => exact absurd hdata hnull
                | _ => rfl
              rcases mask_eq_singleton_or hix with hmask | ⟨j, hj, hjnull⟩
              · obtain ⟨y, hy, z, hz, hne⟩ := hsingle hmask
                rw [← herased] at hy hz
                exact ⟨y, mem_elements_set.2 (Or.inl hy), z, mem_elements_set.2 (Or.inl hz), hne⟩
              · have helse : (erase Hash Equal same value
                    (data (digit level (hash Hash value))) (level + 1)).isNull = false := by
                  cases hdata : erase Hash Equal same value
                      (data (digit level (hash Hash value))) (level + 1) with
                  | null => exact absurd hdata hremains
                  | _ => rfl
                refine twoHashes_of_children hset hj ?_ ?_
                · rw [set_of_ne hj]
                  exact exists_mem_elements (hcan.2 j) hjnull
                · rw [set_same]
                  exact exists_mem_elements hchild helse

end Shape

/-! ## Runs -/

section Runs

variable {T : Type} (Hash : T → BitVec 64) (Equal : T → T → Bool)
  (same : ℕ → HamtNode T → HamtNode T → Bool)

/-- The operation is no erasure that leaves a leaf alone below a branch. -/
def Op.KeepsShape (versions : List (HamtNode T)) : Op T → Prop
  | .insert _ _ => True
  | .erase i value => Hamt.KeepsShape Hash Equal value (versions.getD i .null) 0
  | .unite _ _ => True

/-- No operation of the run is one. -/
def RunKeepsShape : List (Op T) → List (HamtNode T) → Prop
  | [], _ => True
  | op :: ops, versions =>
    op.KeepsShape Hash Equal versions ∧
      ∀ root, op.root Hash Equal same versions = some root →
        RunKeepsShape ops (versions ++ [root])

variable {Hash Equal same}

theorem canonical_getD {versions : List (HamtNode T)}
    (h : ∀ n ∈ versions, Canonical Hash n) (i : ℕ) : Canonical Hash (versions.getD i .null) := by
  rw [List.getD_eq_getElem?_getD]
  cases hget : versions[i]? with
  | none => trivial
  | some n => exact h n (List.mem_of_getElem? hget)

/-- **One operation** keeps the shape of the versions. -/
theorem canonical_root (hEqual : Equivalence fun a b => Equal a b = true)
    (hHash : ∀ a b, Equal a b = true → Hash a = Hash b)
    (hsame : ∀ k a b, same k a b = true → a = b)
    {versions : List (HamtNode T)} {sets : List (Set T)}
    (h : List.Forall₂ (Represents Hash Equal) versions sets)
    (hcan : ∀ n ∈ versions, Canonical Hash n) {op : Op T}
    (hkeeps : op.KeepsShape Hash Equal versions) {root : HamtNode T}
    (hroot : op.root Hash Equal same versions = some root) : Canonical Hash root := by
  have hpath : ∀ {P : ℕ → Prop}, ∀ k < 0, P k := fun k hk => absurd hk (Nat.not_lt_zero k)
  cases op with
  | insert i value =>
      have hi := canonical_getD hcan i
      exact canonical_insert hEqual hHash (hsame versions.length) value 16 (versions.getD i .null) 0
        (by decide) (represents_getD h i).inv (fun _ _ => hpath) (by omega) hi.children
        (hi.twoHashesWith value) root hroot
  | erase i value =>
      obtain rfl := Option.some.inj hroot
      exact canonical_erase hEqual hHash (hsame versions.length) value _ 0 (represents_getD h i).inv
        (canonical_getD hcan i) hkeeps
  | unite l r =>
      exact canonical_merge hEqual hHash (hsame versions.length) (versions.getD l .null)
        (versions.getD r .null) 0 (by decide) (represents_getD h l).inv (represents_getD h r).inv
        (fun _ _ _ _ => hpath) (canonical_getD hcan l) (canonical_getD hcan r) root hroot

theorem canonical_runAll (hEqual : Equivalence fun a b => Equal a b = true)
    (hHash : ∀ a b, Equal a b = true → Hash a = Hash b)
    (hsame : ∀ k a b, same k a b = true → a = b) (ops : List (Op T)) :
    ∀ {versions : List (HamtNode T)} {sets : List (Set T)},
      List.Forall₂ (Represents Hash Equal) versions sets →
      (∀ n ∈ versions, Canonical Hash n) → RunKeepsShape Hash Equal same ops versions →
      ∃ later, runAll Hash Equal same ops versions = some later ∧
        List.Forall₂ (Represents Hash Equal) later (setsAll Equal ops sets) ∧
        ∀ n ∈ later, Canonical Hash n := by
  induction ops with
  | nil => exact fun {versions _} h hcan _ => ⟨versions, rfl, h, hcan⟩
  | cons op ops ih =>
      intro versions sets h hcan hkeeps
      obtain ⟨root, hroot, hrep⟩ := represents_root hEqual hHash hsame h op
      have hnew := canonical_root hEqual hHash hsame h hcan hkeeps.1 hroot
      obtain ⟨later, hlater, hrest⟩ := ih (List.rel_append h (.cons hrep .nil))
        (List.forall_mem_append.2 ⟨hcan, List.forall_mem_singleton.2 hnew⟩) (hkeeps.2 root hroot)
      exact ⟨later, by rw [runAll, hroot, Option.bind_some, hlater], hrest⟩

/-- Two roots have the same elements if they stand for one set. -/
theorem sameElements_iff (hEqual : Equivalence fun a b => Equal a b = true)
    {l r : HamtNode T} {S S' : Set T} (hl : Represents Hash Equal l S)
    (hr : Represents Hash Equal r S') :
    SameElements Equal l.elements r.elements ↔ S = S' := by
  constructor
  · intro h
    ext x
    rw [hl.mem_iff, hr.mem_iff]
    constructor
    · rintro ⟨y, hy, hyx⟩
      obtain ⟨z, hz, hyz⟩ := h.1 y hy
      exact ⟨z, hz, hEqual.trans (hEqual.symm hyz) hyx⟩
    · rintro ⟨z, hz, hzx⟩
      obtain ⟨y, hy, hyz⟩ := h.2 z hz
      exact ⟨y, hy, hEqual.trans hyz hzx⟩
  · rintro rfl
    refine ⟨fun y hy => ?_, fun z hz => ?_⟩
    · obtain ⟨z, hz, hzy⟩ := (hr.mem_iff y).1 ((hl.mem_iff y).2 ⟨y, hy, hEqual.refl y⟩)
      exact ⟨z, hz, hEqual.symm hzy⟩
    · exact (hl.mem_iff z).1 ((hr.mem_iff z).2 ⟨z, hz, hEqual.refl z⟩)

/-- **In a run whose erasures leave no leaf alone below a branch**, two versions are equal by
`operator==` exactly when they stand for one set. -/
theorem equals_iff_of_run (hEqual : Equivalence fun a b => Equal a b = true)
    (hHash : ∀ a b, Equal a b = true → Hash a = Hash b)
    (hsame : ∀ k a b, same k a b = true → a = b) (ops : List (Op T))
    (hkeeps : RunKeepsShape Hash Equal same ops [.null]) :
    ∃ versions, runAll Hash Equal same ops [.null] = some versions ∧
      ∀ i j, equals Equal (same versions.length) (versions.getD i .null)
          (versions.getD j .null) = true ↔
        (setsAll Equal ops [∅]).getD i ∅ = (setsAll Equal ops [∅]).getD j ∅ := by
  have hempty : List.Forall₂ (Represents Hash Equal) [HamtNode.null] [(∅ : Set T)] :=
    .cons ⟨trivial, fun x => iff_of_false id fun ⟨_, hy, _⟩ => List.not_mem_nil hy⟩ .nil
  obtain ⟨versions, hrun, hrep, hcan⟩ := canonical_runAll hEqual hHash hsame ops hempty
    (List.forall_mem_singleton.2 trivial) hkeeps
  refine ⟨versions, hrun, fun i j => ?_⟩
  rw [equals_iff hEqual hHash (hsame versions.length) _ _ 0 (represents_getD hrep i).inv
    (represents_getD hrep j).inv (canonical_getD hcan i) (canonical_getD hcan j)]
  exact sameElements_iff hEqual (represents_getD hrep i) (represents_getD hrep j)

/-- `{3, 4}` built in two orders. -/
theorem equals_iff_of_run_two_orders :
    ∃ versions, runAll (fun _ : ℕ => 0) (fun a b => decide (a = b)) (fun _ _ _ => false)
      [.insert 0 3, .insert 1 4, .insert 0 4, .unite 3 1] [.null] = some versions ∧
      equals (fun a b => decide (a = b)) (fun _ _ => false) (versions.getD 2 .null)
        (versions.getD 4 .null) = true := by
  obtain ⟨versions, hrun, hequals⟩ := @equals_iff_of_run ℕ (fun _ => 0)
    (fun a b => decide (a = b)) (fun _ _ _ => false)
    ⟨fun _ => decide_eq_true rfl, fun h => decide_eq_true (of_decide_eq_true h).symm,
      fun h h' => decide_eq_true ((of_decide_eq_true h).trans (of_decide_eq_true h'))⟩
    (fun _ _ _ => rfl) (fun _ _ _ h => absurd h Bool.false_ne_true)
    [.insert 0 3, .insert 1 4, .insert 0 4, .unite 3 1]
    ⟨trivial, fun _ _ => ⟨trivial, fun _ _ => ⟨trivial, fun _ _ => ⟨trivial, fun _ _ => trivial⟩⟩⟩⟩
  refine ⟨versions, hrun, (hequals 2 4).2 ?_⟩
  ext x
  simp [setsAll, Op.toSet]
  omega

/-- The hashes of 0 and 93 share the first digit.  With 93 inserted and erased again the set `{0}`
is a branch, and not equal to the leaf. -/
theorem not_equals_after_erase :
    ∃ versions, runAll (fun n : ℕ => BitVec.ofNat 64 n) (fun a b => decide (a = b))
      (fun _ _ _ => false) [.insert 0 0, .insert 1 93, .erase 2 93] [.null] = some versions ∧
      (setsAll (fun a b => decide (a = b)) [.insert 0 0, .insert 1 93, .erase 2 93] [∅]).getD 1 ∅ =
        (setsAll (fun a b => decide (a = b)) [.insert 0 0, .insert 1 93, .erase 2 93]
          [(∅ : Set ℕ)]).getD 3 ∅ ∧
      equals (fun a b => decide (a = b)) (fun _ _ => false) (versions.getD 1 .null)
        (versions.getD 3 .null) = false := by
  refine ⟨_, rfl, ?_, by decide⟩
  ext x
  simp [setsAll, Op.toSet]
  omega

end Runs

end Hamt

end Borealis
