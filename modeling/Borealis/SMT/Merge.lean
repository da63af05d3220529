import Borealis.SMT.Support
import Mathlib.Algebra.Order.Ring.Nat

/-!
# What a merged context reads

A merged array is the array of the branch whose condition is true, of the last such branch, and the
default array where no condition is.  Two things spoil this.  When no branch has a greater version
than the default, `merge` returns the default array, although an array may have been replaced without
a greater version: by one of `externalizeEverythingMutable`, or by a constant that was made for the
first read.  And a bounds array that a branch has not created is taken to be an array of `get`, not
one of `initGepBounds`.  Apart from these two, a merged context reads like the branch that is taken.

## Strategy

`merge_mem_eq` evaluates a merged array under an assignment: the array of the context that is taken,
unless the shortcut applies.  The converse chooses the values of the constant that a branch would
make for its bounds array, which nothing in the contexts mentions.
-/

namespace Borealis

namespace SMT

variable {V : Type} (unknown : Bool)

/-! ## The taken branch -/

/-- The context is taken under an assignment: it is the last whose condition is true, or the default
where none is.  It comes with its index among the alternatives, the default with zero. -/
inductive Taken (ρ : Assignment V) (D : ExecutionContext V) :
    List ((Assignment V → Bool) × ExecutionContext V) → ℕ → ExecutionContext V → Prop
  | default {contexts} (h : ∀ e ∈ contexts, e.1 ρ = false) : Taken ρ D contexts 0 D
  | branch {earlier later} {cond : Assignment V → Bool} {ctx : ExecutionContext V}
      (hcond : cond ρ = true) (hlater : ∀ e ∈ later, e.1 ρ = false) :
      Taken ρ D (earlier ++ (cond, ctx) :: later) (earlier.length + 1) ctx

/-- What a context reads under an identifier: the array it has, or the one it would create.  A merge
creates the missing arrays itself, in its second operation; a bounds array would be made by the
operation after it. -/
inductive Sees (ctx : ExecutionContext V) (operation index : ℕ) :
    String → MemArrayWithVersion V → Prop
  | held {id a} (h : ctx.memArrays id = some a) : Sees ctx operation index id a
  | bounds {memspace} (h : ctx.memArrays (gepBoundsId memspace) = none) :
      Sees ctx operation index (gepBoundsId memspace)
        (ExecutionContext.freshBounds (operation + 2) memspace)
  | created {id} (hid : ∀ memspace, id ≠ gepBoundsId memspace) (h : ctx.memArrays id = none) :
      Sees ctx operation index id ⟨getNoMemoryArray unknown (operation + 1) id index, 0⟩

/-- The merged context reads like the branch that is taken, from every array and at every pointer. -/
def ReadsLikeTaken (n : ℕ) (D : ExecutionContext V)
    (contexts : List ((Assignment V → Bool) × ExecutionContext V)) : Prop :=
  ∀ id, D.activeIn contexts id = true →
    ∀ ρ index ctx, Taken ρ D contexts index ctx → ∀ seen, Sees unknown ctx n index id seen →
      ∀ p, ∃ merged, (D.switchOn unknown n contexts).memArrays id = some merged ∧
        merged.mem ρ p = seen.mem ρ p

/-- The condition: where the versions hide that an array was replaced, it is the array of the
default all the same; and nobody lacks a bounds array that another one has. -/
def VersionsTell (n : ℕ) (D : ExecutionContext V)
    (contexts : List ((Assignment V → Bool) × ExecutionContext V)) : Prop :=
  ∀ id, D.activeIn contexts id = true →
    ∀ ρ index ctx, Taken ρ D contexts index ctx →
      (∀ memspace, id = gepBoundsId memspace → ctx.holds id = true) ∧
      ((∀ e ∈ contexts, (e.2.peek unknown (n + 1) 0 id).version ≤
          (D.peek unknown (n + 1) 0 id).version) →
        (ctx.peek unknown (n + 1) index id).mem ρ = (D.peek unknown (n + 1) 0 id).mem ρ)

/-! ## The shortcut -/

theorem version_le_maxVersion (deflt : MemArrayWithVersion V)
    (alts : List ((Assignment V → Bool) × MemArrayWithVersion V)) :
    deflt.version ≤ deflt.maxVersion alts ∧
      ∀ alt ∈ alts, alt.2.version ≤ deflt.maxVersion alts := by
  unfold MemArrayWithVersion.maxVersion
  generalize deflt.version = v
  induction alts generalizing v with
  | nil => exact ⟨Nat.le_refl _, nofun⟩
  | cons alt alts ih =>
      obtain ⟨hv, hall⟩ := ih (max v alt.2.version)
      rw [List.foldl_cons]
      exact ⟨(Nat.le_max_left _ _).trans hv,
        List.forall_mem_cons.mpr ⟨(Nat.le_max_right _ _).trans hv, hall⟩⟩

theorem maxVersion_eq_of_forall_le {deflt : MemArrayWithVersion V}
    {alts : List ((Assignment V → Bool) × MemArrayWithVersion V)}
    (h : ∀ alt ∈ alts, alt.2.version ≤ deflt.version) :
    deflt.maxVersion alts = deflt.version := by
  unfold MemArrayWithVersion.maxVersion
  induction alts with
  | nil => rfl
  | cons alt alts ih =>
      rw [List.foldl_cons, Nat.max_eq_left (h alt List.mem_cons_self)]
      exact ih fun a ha => h a (List.mem_cons_of_mem _ ha)

/-- The version of an array that `get` finds does not depend on which of the gets it is. -/
theorem peek_version (ctx : ExecutionContext V) (n i j : ℕ) (id : String) :
    (ctx.peek unknown n i id).version = (ctx.peek unknown n j id).version := by
  unfold ExecutionContext.peek
  cases ctx.memArrays id <;> rfl

/-- The shortcut of `merge`, in terms of the contexts. -/
theorem shortcut_iff (D : ExecutionContext V) (n : ℕ)
    (contexts : List ((Assignment V → Bool) × ExecutionContext V)) (id : String) :
    (D.peek unknown n 0 id).version = (D.peek unknown n 0 id).maxVersion
        (ExecutionContext.alternatives unknown n contexts id) ↔
      ∀ e ∈ contexts, (e.2.peek unknown n 0 id).version ≤ (D.peek unknown n 0 id).version := by
  constructor
  · intro h e he
    obtain ⟨i, hi, rfl⟩ := List.getElem_of_mem he
    have hmem : (contexts[i].1, contexts[i].2.peek unknown n (i + 1) id) ∈
        ExecutionContext.alternatives unknown n contexts id := by
      refine List.mem_map.mpr ⟨(contexts[i], i), ?_, rfl⟩
      exact List.mem_zipIdx_iff_getElem?.mpr (List.getElem?_eq_getElem hi)
    rw [h, peek_version unknown _ n 0 (i + 1)]
    exact (version_le_maxVersion _ _).2 _ hmem
  · intro h
    refine (maxVersion_eq_of_forall_le fun alt halt => ?_).symm
    obtain ⟨⟨e, i⟩, he, rfl⟩ := List.mem_map.mp halt
    have hmem : e ∈ contexts := (List.mem_zipIdx' he).2 ▸ List.getElem_mem _
    rw [peek_version unknown _ n (i + 1) 0]
    exact h e hmem

/-! ## Reading a merged array -/

theorem switch_of_forall_false {ρ : Assignment V}
    {cases : List ((Assignment V → Bool) × MemArray V)} (h : ∀ c ∈ cases, c.1 ρ = false)
    (default : MemArray V) : switch cases default ρ = default ρ := by
  unfold switch
  generalize default ρ = value
  induction cases with
  | nil => rfl
  | cons c cases ih =>
      rw [List.foldl_cons, h c List.mem_cons_self, if_neg Bool.false_ne_true]
      exact ih fun d hd => h d (List.mem_cons_of_mem _ hd)

theorem switch_of_last {ρ : Assignment V}
    {earlier later : List ((Assignment V → Bool) × MemArray V)} {c : (Assignment V → Bool) × MemArray V}
    (hc : c.1 ρ = true) (hlater : ∀ d ∈ later, d.1 ρ = false) (default : MemArray V) :
    switch (earlier ++ c :: later) default ρ = c.2 ρ := by
  have hrest := switch_of_forall_false hlater c.2
  unfold switch at hrest ⊢
  rw [List.foldl_append, List.foldl_cons, hc, if_pos rfl]
  exact hrest

/-- The cases that a merged array is made of. -/
def mergeCases (n : ℕ) (contexts : List ((Assignment V → Bool) × ExecutionContext V))
    (id : String) : List ((Assignment V → Bool) × MemArray V) :=
  (ExecutionContext.alternatives unknown n contexts id).map fun alt => (alt.1, alt.2.mem)

/-- The choice between the alternatives gives the array of the context that is taken. -/
theorem switch_mergeCases {ρ : Assignment V} {D ctx : ExecutionContext V}
    {contexts : List ((Assignment V → Bool) × ExecutionContext V)} {index : ℕ}
    (h : Taken ρ D contexts index ctx) (n : ℕ) (id : String) :
    switch (mergeCases unknown n contexts id) (D.peek unknown n 0 id).mem ρ =
      (ctx.peek unknown n index id).mem ρ := by
  cases h with
  | default hfalse =>
      refine switch_of_forall_false (fun c hc => ?_) _
      obtain ⟨alt, halt, rfl⟩ := List.mem_map.mp hc
      obtain ⟨⟨e, i⟩, he, rfl⟩ := List.mem_map.mp halt
      exact hfalse e ((List.mem_zipIdx' he).2 ▸ List.getElem_mem _)
  | @branch earlier later cond ctx hcond hlater =>
      unfold mergeCases ExecutionContext.alternatives
      rw [List.zipIdx_append, List.zipIdx_cons, List.map_append, List.map_cons, List.map_append,
        List.map_cons, Nat.zero_add]
      refine switch_of_last hcond (fun c hc => ?_) _
      obtain ⟨alt, halt, rfl⟩ := List.mem_map.mp hc
      obtain ⟨⟨e, i⟩, he, rfl⟩ := List.mem_map.mp halt
      exact hlater e (List.fst_mem_of_mem_zipIdx he)

/-- The merged array of an identifier that some context holds. -/
theorem switchOn_memArrays {D : ExecutionContext V}
    {contexts : List ((Assignment V → Bool) × ExecutionContext V)} {id : String}
    (hactive : D.activeIn contexts id = true) (n : ℕ) :
    (D.switchOn unknown n contexts).memArrays id =
      some ((D.peek unknown (n + 1) 0 id).merge
        (ExecutionContext.alternatives unknown (n + 1) contexts id)) := by
  simp only [ExecutionContext.switchOn, ExecutionContext.takeOver, ExecutionContext.mergeMemory,
    if_pos hactive]

/-- What a merged array holds under an assignment. -/
theorem merge_mem_eq {ρ : Assignment V} {D ctx : ExecutionContext V}
    {contexts : List ((Assignment V → Bool) × ExecutionContext V)} {index : ℕ}
    (h : Taken ρ D contexts index ctx) (n : ℕ) (id : String) :
    ((D.peek unknown n 0 id).merge (ExecutionContext.alternatives unknown n contexts id)).mem ρ =
      open Classical in
      if ∀ e ∈ contexts, (e.2.peek unknown n 0 id).version ≤ (D.peek unknown n 0 id).version then
        (D.peek unknown n 0 id).mem ρ
      else (ctx.peek unknown n index id).mem ρ := by
  unfold MemArrayWithVersion.merge
  split
  · next hshort => rw [if_pos ((shortcut_iff unknown D n contexts id).mp hshort)]
  · next hlong =>
      rw [if_neg fun hall => hlong ((shortcut_iff unknown D n contexts id).mpr hall)]
      exact switch_mergeCases unknown h n id

/-! ## The condition is enough -/

theorem readsLikeTaken_of_versionsTell {n : ℕ} {D : ExecutionContext V}
    {contexts : List ((Assignment V → Bool) × ExecutionContext V)}
    (h : VersionsTell unknown n D contexts) : ReadsLikeTaken unknown n D contexts := by
  intro id hactive ρ index ctx htaken seen hseen p
  obtain ⟨hbounds, hshort⟩ := h id hactive ρ index ctx htaken
  refine ⟨_, switchOn_memArrays unknown hactive n, ?_⟩
  -- the merged array is the one that `get` finds in the taken context
  have hmerged : ((D.peek unknown (n + 1) 0 id).merge
      (ExecutionContext.alternatives unknown (n + 1) contexts id)).mem ρ =
        (ctx.peek unknown (n + 1) index id).mem ρ := by
    rw [merge_mem_eq unknown htaken]
    split
    · next hall => exact (hshort hall).symm
    · rfl
  rw [hmerged]
  cases hseen with
  | held hheld => rw [ExecutionContext.peek, hheld, Option.getD_some]
  | bounds hnone =>
      have := hbounds _ rfl
      rw [ExecutionContext.holds, hnone] at this
      cases this
  | created hid hnone => rw [ExecutionContext.peek, hnone, Option.getD_none]

/-! ## The condition is necessary -/

/-- The contexts and the conditions mention none of the constants that the merge and the operations
after it make. -/
structure BuiltBefore (n : ℕ) (D : ExecutionContext V)
    (contexts : List ((Assignment V → Bool) × ExecutionContext V)) : Prop where
  default : D.Ignores (madeFrom n)
  conditions : ∀ e ∈ contexts, Ignores (madeFrom n) e.1
  branches : ∀ e ∈ contexts, e.2.Ignores (madeFrom n)

theorem Taken.mem_or {ρ : Assignment V} {D ctx : ExecutionContext V}
    {contexts : List ((Assignment V → Bool) × ExecutionContext V)} {index : ℕ}
    (h : Taken ρ D contexts index ctx) : ctx = D ∨ ∃ e ∈ contexts, e.2 = ctx := by
  cases h with
  | default => exact Or.inl rfl
  | branch => exact Or.inr ⟨_, List.mem_append_right _ List.mem_cons_self, rfl⟩

/-- Whether a branch is taken does not depend on constants that the conditions do not mention. -/
theorem Taken.congr {S : Set ArrayName} {ρ ρ' : Assignment V} {D ctx : ExecutionContext V}
    {contexts : List ((Assignment V → Bool) × ExecutionContext V)} {index : ℕ}
    (h : Taken ρ D contexts index ctx) (hρ : AgreeOff S ρ ρ')
    (hconditions : ∀ e ∈ contexts, Ignores S e.1) : Taken ρ' D contexts index ctx := by
  cases h with
  | default hfalse =>
      exact .default fun e he => (hconditions e he ρ ρ' hρ).symm.trans (hfalse e he)
  | branch hcond hlater =>
      refine .branch ?_ fun e he => ?_
      · exact (hconditions _ (List.mem_append_right _ List.mem_cons_self) ρ ρ' hρ).symm.trans hcond
      · exact (hconditions e (List.mem_append_right _ (List.mem_cons_of_mem _ he)) ρ ρ' hρ).symm.trans
          (hlater e he)

/-- Away from the null pointer a new bounds array holds what its constant does. -/
theorem freshBounds_mem (operation memspace : ℕ) (ρ : Assignment V) {p : Pointer} (hp : p ≠ 0) :
    (ExecutionContext.freshBounds operation memspace).mem ρ p =
      ρ.array (.free operation (gepBoundsId memspace) 0) p :=
  Function.update_of_ne hp _ _

/-- A merged array mentions nothing that the contexts do not mention. -/
theorem merge_mem_congr {S : Set ArrayName} {ρ ρ' : Assignment V} (hρ : AgreeOff S ρ ρ')
    {D ctx : ExecutionContext V} {contexts : List ((Assignment V → Bool) × ExecutionContext V)}
    {index : ℕ} (htaken : Taken ρ D contexts index ctx) {n : ℕ}
    (hconditions : ∀ e ∈ contexts, Ignores S e.1) (hdefault : D.Ignores S)
    (hbranches : ∀ e ∈ contexts, e.2.Ignores S) {id : String}
    (hnew : ∀ i, .free n id i ∉ S) :
    ((D.peek unknown n 0 id).merge (ExecutionContext.alternatives unknown n contexts id)).mem ρ =
      ((D.peek unknown n 0 id).merge
        (ExecutionContext.alternatives unknown n contexts id)).mem ρ' := by
  have hctx : ctx.Ignores S := by
    rcases htaken.mem_or with rfl | ⟨e, he, rfl⟩
    · exact hdefault
    · exact hbranches e he
  rw [merge_mem_eq unknown htaken, merge_mem_eq unknown (htaken.congr hρ hconditions),
    hdefault.peek (hnew 0) ρ ρ' hρ, hctx.peek (hnew index) ρ ρ' hρ]

/-- A taken context that lacks a bounds array does not read like the merged one: the constant that
it would make can have any value. -/
theorem holds_bounds_of_readsLikeTaken {n : ℕ} {D : ExecutionContext V}
    {contexts : List ((Assignment V → Bool) × ExecutionContext V)}
    (hbuilt : BuiltBefore n D contexts) (h : ReadsLikeTaken unknown n D contexts)
    {ρ : Assignment V} {index : ℕ} {ctx : ExecutionContext V}
    (htaken : Taken ρ D contexts index ctx) {memspace : ℕ}
    (hactive : D.activeIn contexts (gepBoundsId memspace) = true) :
    ctx.holds (gepBoundsId memspace) = true := by
  cases hnone : ctx.memArrays (gepBoundsId memspace) with
  | some a =>
      rw [ExecutionContext.holds, hnone]
      rfl
  | none =>
      exfalso
      let name : ArrayName := .free (n + 2) (gepBoundsId memspace) 0
      have hsub : ({name} : Set ArrayName) ⊆ madeFrom n := by
        rintro _ rfl
        exact mem_madeFrom (by omega) _ _
      have hconditions : ∀ e ∈ contexts, Ignores {name} e.1 :=
        fun e he => (hbuilt.conditions e he).mono hsub
      have hread : ∀ value : Pointer → Byte,
          ((D.peek unknown (n + 1) 0 (gepBoundsId memspace)).merge
            (ExecutionContext.alternatives unknown (n + 1) contexts (gepBoundsId memspace))).mem
              ρ 1 = value 1 := by
        intro value
        have hρ := Assignment.agreeOff_setArray (Set.mem_singleton name) ρ value
        obtain ⟨merged, hmerged, heq⟩ := h _ hactive _ index ctx (htaken.congr hρ hconditions)
          _ (.bounds hnone) 1
        rw [switchOn_memArrays unknown hactive] at hmerged
        obtain rfl := Option.some.inj hmerged
        rw [freshBounds_mem _ _ _ (by decide), Assignment.setArray_self] at heq
        rw [← heq, merge_mem_congr unknown hρ htaken hconditions
          (hbuilt.default.mono hsub) fun e he => (hbuilt.branches e he).mono hsub]
        intro i hi
        have := (ArrayName.free.inj (Set.mem_singleton_iff.mp hi)).1
        omega
      have := (hread fun _ => 0).symm.trans (hread fun _ => 1)
      exact absurd this (by decide)

theorem versionsTell_of_readsLikeTaken {n : ℕ} {D : ExecutionContext V}
    {contexts : List ((Assignment V → Bool) × ExecutionContext V)}
    (hbuilt : BuiltBefore n D contexts) (h : ReadsLikeTaken unknown n D contexts) :
    VersionsTell unknown n D contexts := by
  intro id hactive ρ index ctx htaken
  have hbounds : ∀ memspace, id = gepBoundsId memspace → ctx.holds id = true := by
    rintro memspace rfl
    exact holds_bounds_of_readsLikeTaken unknown hbuilt h htaken hactive
  refine ⟨hbounds, fun hall => ?_⟩
  funext p
  have hsees : Sees unknown ctx n index id (ctx.peek unknown (n + 1) index id) := by
    unfold ExecutionContext.peek
    cases hid : ctx.memArrays id with
    | some a => exact .held hid
    | none =>
        refine .created (fun memspace heq => ?_) hid
        have := hbounds memspace heq
        rw [ExecutionContext.holds, hid] at this
        cases this
  obtain ⟨merged, hmerged, heq⟩ := h id hactive ρ index ctx htaken _ hsees p
  rw [switchOn_memArrays unknown hactive] at hmerged
  obtain rfl := Option.some.inj hmerged
  rw [← heq, merge_mem_eq unknown htaken, if_pos hall]

/-- **A merged context reads like the branch that is taken** if and only if the versions tell when
an array was replaced, and no bounds array is missing where another context has one. -/
theorem readsLikeTaken_iff {n : ℕ} {D : ExecutionContext V}
    {contexts : List ((Assignment V → Bool) × ExecutionContext V)}
    (hbuilt : BuiltBefore n D contexts) :
    ReadsLikeTaken unknown n D contexts ↔ VersionsTell unknown n D contexts :=
  ⟨versionsTell_of_readsLikeTaken unknown hbuilt, readsLikeTaken_of_versionsTell unknown⟩

/-! ## Runs in which the versions tell -/

/-- The operations that put constants of version zero in the place of all arrays. -/
def Op.externalizes : Op V → Bool
  | .externalizeEverythingMutable _ => true
  | .externalSwitchOn _ _ => true
  | _ => false

/-- Every array of the first context is still there in the second, or one with a greater version. -/
def Tracks (D ctx : ExecutionContext V) : Prop :=
  ∀ id d, D.memArrays id = some d →
    ∃ a, ctx.memArrays id = some a ∧ (a = d ∨ d.version < a.version)

namespace Tracks

theorem refl (ctx : ExecutionContext V) : Tracks ctx ctx :=
  fun _ d hd => ⟨d, hd, Or.inl rfl⟩

theorem trans {D ctx ctx' : ExecutionContext V} (h : Tracks D ctx) (h' : Tracks ctx ctx') :
    Tracks D ctx' := by
  intro id d hd
  obtain ⟨a, ha, hda⟩ := h id d hd
  obtain ⟨b, hb, hab⟩ := h' id a ha
  refine ⟨b, hb, ?_⟩
  rcases hab with rfl | hab
  · exact hda
  · rcases hda with rfl | hda
    · exact Or.inr hab
    · exact Or.inr (hda.trans hab)

theorem touch (ctx : ExecutionContext V) (n : ℕ) (id : String) :
    Tracks ctx (ctx.touch unknown n id) := by
  intro id' d hd
  by_cases hne : id' = id
  · subst hne
    rw [ExecutionContext.touch_of_some unknown hd]
    exact ⟨d, hd, Or.inl rfl⟩
  · exact ⟨d, (ExecutionContext.touch_of_ne unknown hne ctx n).1.trans hd, Or.inl rfl⟩

theorem gepBounds (ctx : ExecutionContext V) (n memspace : ℕ) :
    Tracks ctx (ctx.gepBounds n memspace).2 := by
  intro id d hd
  refine ⟨d, ?_, Or.inl rfl⟩
  by_cases hne : id = gepBoundsId memspace
  · subst hne
    unfold ExecutionContext.gepBounds
    rw [hd]
    exact hd
  · exact (ExecutionContext.gepBounds_of_ne hne ctx n).trans hd

/-- A write makes the version greater. -/
theorem write (ctx : ExecutionContext V) (n : ℕ) (id : String) (mem : MemArray V) :
    Tracks ctx ((ctx.touch unknown n id).set id
      ⟨mem, (ctx.peek unknown n 0 id).version + 1⟩) := by
  intro id' d hd
  by_cases hne : id' = id
  · subst hne
    refine ⟨_, ExecutionContext.set_self _ _ _, Or.inr ?_⟩
    rw [ExecutionContext.peek, hd]
    exact Nat.lt_succ_self _
  · refine ⟨d, ?_, Or.inl rfl⟩
    rw [ExecutionContext.set_of_ne hne]
    exact (ExecutionContext.touch_of_ne unknown hne ctx n).1.trans hd

/-- A merge keeps an array or makes the version greater. -/
theorem switchOn (ctx : ExecutionContext V) (n : ℕ)
    (contexts : List ((Assignment V → Bool) × ExecutionContext V)) :
    Tracks ctx (ctx.switchOn unknown n contexts) := by
  intro id d hd
  have hactive : ctx.activeIn contexts id = true := by
    rw [ExecutionContext.activeIn, ExecutionContext.holds, hd]
    rfl
  refine ⟨_, switchOn_memArrays unknown hactive n, ?_⟩
  rw [ExecutionContext.peek, hd, Option.getD_some]
  unfold MemArrayWithVersion.merge
  split
  · exact Or.inl rfl
  · exact Or.inr (Nat.lt_succ_of_le (version_le_maxVersion d _).1)

end Tracks

theorem tracks_op {op : Op V} (hop : op.externalizes = false) (ctx : ExecutionContext V) (n : ℕ) :
    Tracks ctx (op.run unknown ctx n).1 := by
  cases op with
  | getGlobalPtr memspace offsetSize origSize =>
      rw [Op.run]
      exact Tracks.gepBounds { ctx with globalPtr := ctx.globalPtr + 2 * offsetSize } n memspace
  | getLocalPtr memspace offsetSize origSize =>
      rw [Op.run]
      exact Tracks.gepBounds { ctx with localPtr := ctx.localPtr + 2 * offsetSize } n memspace
  | getBound memspace =>
      rw [Op.run]
      exact Tracks.gepBounds ctx n memspace
  | writeBound p bound memspace =>
      rw [Op.run]
      exact Tracks.gepBounds ctx n memspace
  | readExprFromMemory memspace =>
      rw [Op.run]
      exact Tracks.touch unknown ctx n _
  | writeExprToMemory ix val memspace =>
      rw [Op.run]
      exact Tracks.write unknown ctx n _ _
  | writeExprRangeToMemory start size val memspace =>
      rw [Op.run]
      exact Tracks.write unknown ctx n _ _
  | readProperty id =>
      rw [Op.run]
      exact Tracks.touch unknown ctx n id
  | writeProperty id ix val =>
      rw [Op.run]
      exact Tracks.write unknown ctx n id _
  | switchOn branches =>
      rw [Op.run]
      exact Tracks.switchOn unknown ctx _ _
  | externalizeEverythingMutable pfix => cases hop
  | externalSwitchOn branches pfix => cases hop

theorem tracks_runAll {ops : List (Op V)} (hops : ∀ op ∈ ops, op.externalizes = false)
    (ctx : ExecutionContext V) (n : ℕ) : Tracks ctx (runAll unknown ops ctx n).1 := by
  induction ops generalizing ctx n with
  | nil =>
      rw [runAll_nil]
      exact Tracks.refl ctx
  | cons op ops ih =>
      rw [runAll_cons]
      exact (tracks_op unknown (hops op List.mem_cons_self) ctx n).trans
        (ih (fun op' hop' => hops op' (List.mem_cons_of_mem _ hop')) _ _)

theorem tracks_runBranches {branches : List ((Assignment V → Bool) × List (Op V))}
    (hops : ∀ branch ∈ branches, ∀ op ∈ branch.2, op.externalizes = false)
    (ctx : ExecutionContext V) (n : ℕ) :
    ∀ e ∈ (runBranches unknown branches ctx n).1, Tracks ctx e.2 := by
  induction branches generalizing n with
  | nil =>
      rw [runBranches]
      exact fun e he => absurd he List.not_mem_nil
  | cons branch branches ih =>
      obtain ⟨cond, ops⟩ := branch
      rw [runBranches_cons]
      exact List.forall_mem_cons.mpr
        ⟨tracks_runAll unknown (hops _ List.mem_cons_self) ctx n,
          ih (fun branch hbranch => hops branch (List.mem_cons_of_mem _ hbranch)) _⟩

/-- A context reads like the branch that is taken when the branches externalise nothing and use only
arrays that the context had before them. -/
theorem readsLikeTaken_of_heldBefore {branches : List ((Assignment V → Bool) × List (Op V))}
    (hops : ∀ branch ∈ branches, ∀ op ∈ branch.2, op.externalizes = false)
    (ctx : ExecutionContext V) (n n' : ℕ)
    (hheld : ∀ id, ctx.activeIn (runBranches unknown branches ctx n).1 id = true →
      ctx.holds id = true) :
    ReadsLikeTaken unknown n' ctx (runBranches unknown branches ctx n).1 := by
  refine readsLikeTaken_of_versionsTell unknown fun id hactive ρ index taken htaken => ?_
  have htracks : Tracks ctx taken := by
    rcases htaken.mem_or with rfl | ⟨e, he, rfl⟩
    · exact Tracks.refl taken
    · exact tracks_runBranches unknown hops ctx n e he
  obtain ⟨d, hd⟩ := Option.isSome_iff_exists.mp (hheld id hactive)
  obtain ⟨a, ha, hda⟩ := htracks id d hd
  refine ⟨fun _ _ => by rw [ExecutionContext.holds, ha]; rfl, fun hall => ?_⟩
  rw [ExecutionContext.peek, ExecutionContext.peek, ha, hd, Option.getD_some, Option.getD_some]
  rcases hda with rfl | hlt
  · rfl
  · -- no branch has a greater version, so the taken context is the default itself
    rcases htaken.mem_or with rfl | ⟨e, he, rfl⟩
    · rw [hd] at ha
      rw [Option.some.inj ha]
    · have hle := hall e he
      rw [ExecutionContext.peek, ExecutionContext.peek, ha, hd] at hle
      exact absurd hle (Nat.not_le_of_lt hlt)

/-! ### Two branches -/

/-- A branch of each kind of the examples, under the condition that `c` is true. -/
def onlyIfC (ops : List (Op Bool)) : List ((Assignment Bool → Bool) × List (Op Bool)) :=
  [(fun ρ => ρ.var "c", ops), (fun ρ => !ρ.var "c", [])]

/-- One branch writes a property that was read before, the other does nothing. -/
theorem readsLikeTaken_iff_property :
    let D := (Op.run false (.readProperty "p") (ExecutionContext.init false 0 16 64) 1).1
    let contexts := (runBranches false
      (onlyIfC [.writeProperty "p" (fun _ => 1) (getIntConst 7)]) D 2).1
    ReadsLikeTaken false 3 D contexts ↔ VersionsTell false 3 D contexts := by
  intro D contexts
  have hinit : (ExecutionContext.init (V := Bool) false 0 16 64).Ignores (madeFrom 3) :=
    ExecutionContext.Ignores.init (fun id => not_mem_madeFrom (by decide) id 0) 16 64
  have hnew : ∀ operation < 3, ∀ id index, .free operation id index ∉ madeFrom 3 :=
    fun operation h id index => not_mem_madeFrom h id index
  have hread : Op.Ignores (madeFrom 3) (.readProperty "p" : Op Bool) := trivial
  have hwrite : Op.Ignores (madeFrom 3)
      (.writeProperty "p" (fun _ => 1) (getIntConst 7) : Op Bool) := ⟨.const _, .const _⟩
  have hD : D.Ignores (madeFrom 3) := ignores_step rfl hread false hinit (hnew 1 (by decide))
  refine readsLikeTaken_iff false ⟨hD, ?_, ?_⟩
  · exact List.forall_mem_cons.mpr ⟨fun ρ ρ' hρ => by dsimp only; rw [hρ.var],
      List.forall_mem_singleton.mpr fun ρ ρ' hρ => by dsimp only; rw [hρ.var]⟩
  · exact List.forall_mem_cons.mpr ⟨ignores_step rfl hwrite false hD (hnew 2 (by decide)),
      List.forall_mem_singleton.mpr hD⟩

/-- The bounds of a space that only the other branch used read `255` at the null pointer instead of
minus one, and a property that the taken branch externalised reads like before. -/
theorem readsDifferently :
    (¬ ReadsLikeTaken false 3 (ExecutionContext.init false 0 16 64)
        (runBranches false (onlyIfC [.getBound 1]) (ExecutionContext.init false 0 16 64) 1).1) ∧
      let D := (Op.run false (.writeProperty "p" (fun _ => 1) (getIntConst 7))
        (ExecutionContext.init false 0 16 64) 1).1
      ¬ ReadsLikeTaken false 3 D
        (runBranches false (onlyIfC [.externalizeEverythingMutable "$x"]) D 2).1 := by
  have hnotC : ∀ earlier ctx,
      Taken (⟨fun _ => false, fun _ _ => 0⟩ : Assignment Bool) ctx
        ([earlier] ++ [(fun ρ => !ρ.var "c", ctx)]) 2 ctx :=
    fun earlier ctx => .branch rfl nofun
  have hC : ∀ D ctx later, (later.1 : Assignment Bool → Bool) ⟨fun _ => true, fun _ _ => 0⟩ = false →
      Taken ⟨fun _ => true, fun _ _ => 0⟩ D ([] ++ (fun ρ => ρ.var "c", ctx) :: [later]) 1 ctx :=
    fun D ctx later h => .branch rfl (List.forall_mem_singleton.mpr h)
  constructor
  · intro h
    obtain ⟨merged, hmerged, heq⟩ := h (gepBoundsId 1) (by decide +kernel) _ _ _
      (hnotC _ (ExecutionContext.init false 0 16 64)) _ (.bounds (by decide +kernel)) 0
    rw [switchOn_memArrays false (by decide +kernel)] at hmerged
    obtain rfl := Option.some.inj hmerged
    exact absurd heq (by decide +kernel)
  · intro D h
    obtain ⟨merged, hmerged, heq⟩ := h "p" (by decide +kernel) _ _ _
      (hC _ (ExecutionContext.externalizeEverythingMutable _ "$x") _ rfl) _ (.held rfl) 1
    rw [switchOn_memArrays false (by decide +kernel)] at hmerged
    obtain rfl := Option.some.inj hmerged
    exact absurd heq (by decide +kernel)

end SMT

end Borealis
