import Borealis.SMT.ChosenConstants

/-!
# Feasible paths through a merge

A merge unites the axioms of its branches without their conditions.  A path through one branch stays
feasible if what the other branches say about bounds can be made true as well: they hand out the same
pointers, and a bounds array that was there before the branches is shared by all of them.  What they
say about memory is never in the way, since a range write is an axiom about a constant of its own.

## Strategy

If an extension of the assignment satisfies the merged context, it satisfies each branch, and then the
bounds of each are compatible (`noConflict_of_added`).  The other way round the constants of the
branches before and after the one in question are chosen so that their axioms hold
(`exists_holds_branches`); the branch in question mentions none of them.
-/

namespace Borealis

namespace SMT

variable {V : Type} (unknown : Bool)

/-! ## Extensions of an assignment -/

/-- Two assignments that differ at most on these variables and array constants. -/
structure DifferOn (T : Set String) (S : Set ArrayName) (ρ ρ' : Assignment V) : Prop where
  var : ∀ x, x ∉ T → ρ.var x = ρ'.var x
  array : ∀ name, name ∉ S → ρ.array name = ρ'.array name

/-- Everything in a context has the same value under two assignments. -/
structure ExecutionContext.SameUnder (ctx : ExecutionContext V) (ρ ρ' : Assignment V) : Prop where
  arrays : ∀ id a, ctx.memArrays id = some a → a.mem ρ = a.mem ρ'
  initial : ∀ id a, ctx.initialMemArrays id = some a → a.mem ρ = a.mem ρ'
  axioms : ∀ ax ∈ ctx.contextAxioms, ax ρ = ax ρ'

/-- The second assignment differs from the first in variables and arrays that the context does not
mention. -/
def ExecutionContext.Extends (ctx : ExecutionContext V) (ρ ρ' : Assignment V) : Prop :=
  ∃ T S, DifferOn T S ρ ρ' ∧ ∀ σ σ', DifferOn T S σ σ' → ctx.SameUnder σ σ'

theorem ExecutionContext.Extends.sameUnder {ctx : ExecutionContext V} {ρ ρ' : Assignment V}
    (h : ctx.Extends ρ ρ') : ctx.SameUnder ρ ρ' := by
  obtain ⟨T, S, hρ, hsame⟩ := h
  exact hsame ρ ρ' hρ

/-- An extension can be extended by constants that the context ignores. -/
theorem ExecutionContext.Extends.trans_agreeOff {ctx : ExecutionContext V}
    {ρ ρ' ρ'' : Assignment V} (h : ctx.Extends ρ ρ') {S' : Set ArrayName}
    (hρ : AgreeOff S' ρ' ρ'') (hctx : ctx.Ignores S') : ctx.Extends ρ ρ'' := by
  obtain ⟨T, S, hdiffer, hsame⟩ := h
  refine ⟨T, S ∪ S', ⟨fun x hx => ?_, fun name hname => ?_⟩, fun σ σ' hσ => ?_⟩
  · rw [hdiffer.var x hx, hρ.var]
  · rw [hdiffer.array name fun h => hname (Or.inl h), hρ.array name fun h => hname (Or.inr h)]
  · -- go from one to the other by way of an assignment that differs from each on one part
    classical
    let middle : Assignment V :=
      ⟨σ'.var, fun name => if name ∈ S then σ'.array name else σ.array name⟩
    have hfirst : DifferOn T S σ middle :=
      ⟨hσ.var, fun name hname => (if_neg hname).symm⟩
    have hsecond : AgreeOff S' middle σ' := by
      refine ⟨rfl, fun name hname => ?_⟩
      by_cases hS : name ∈ S
      · exact if_pos hS
      · exact (if_neg hS).trans (hσ.array name fun h => h.elim hS hname)
    have h₁ := hsame σ middle hfirst
    exact ⟨fun id a ha => (h₁.arrays id a ha).trans (hctx.arrays id a ha middle σ' hsecond),
      fun id a ha => (h₁.initial id a ha).trans (hctx.initial id a ha middle σ' hsecond),
      fun ax hax => (h₁.axioms ax hax).trans (hctx.axioms ax hax middle σ' hsecond)⟩

/-! ## Bounds that hold do not conflict -/

theorem boundsFrom_runAll {ops : List (Op V)} (hops : ∀ op ∈ ops, op.isMemoryOp = true)
    {D ctx : ExecutionContext V} {s n : ℕ} (h : BoundsFrom D s n ctx) (hs : s ≤ n) :
    BoundsFrom D s (n + ops.length) (runAll unknown ops ctx n).1 := by
  induction ops generalizing ctx n with
  | nil =>
      rw [runAll_nil]
      exact h
  | cons op ops ih =>
      have hmem := hops op List.mem_cons_self
      rw [runAll_cons, Op.run_snd (Op.isBasic_of_isMemoryOp hmem), List.length_cons]
      have := ih (fun op' hop' => hops op' (List.mem_cons_of_mem _ hop'))
        (boundsFrom_op unknown hmem h hs) (hs.trans (Nat.le_succ n))
      rwa [Nat.add_right_comm, Nat.add_assoc] at this

/-- After `gepBounds` the array that it gave back is there. -/
theorem gepBounds_self (ctx : ExecutionContext V) (n memspace : ℕ) :
    (ctx.gepBounds n memspace).2.memArrays (gepBoundsId memspace) =
      some (ctx.gepBounds n memspace).1 := by
  unfold ExecutionContext.gepBounds
  cases hid : ctx.memArrays (gepBoundsId memspace) with
  | some a => exact hid
  | none => exact ExecutionContext.set_self _ _ _

/-- A bound is written to the array that is there after the operation. -/
theorem Op.boundWrite_memArrays {op : Op V} {ctx : ExecutionContext V} {w : BoundWrite V}
    (h : op.boundWrite ctx = some w) (n : ℕ) :
    (op.run unknown ctx n).1.memArrays (gepBoundsId w.memspace) =
      some (ctx.gepBounds n w.memspace).1 := by
  cases op with
  | getGlobalPtr memspace offsetSize origSize =>
      obtain rfl := Option.some.inj h
      rw [Op.run, ← gepBounds_fst_congr ctx
        { ctx with globalPtr := ctx.globalPtr + 2 * offsetSize } rfl n memspace]
      exact gepBounds_self { ctx with globalPtr := ctx.globalPtr + 2 * offsetSize } n memspace
  | getLocalPtr memspace offsetSize origSize =>
      obtain rfl := Option.some.inj h
      rw [Op.run, ← gepBounds_fst_congr ctx
        { ctx with localPtr := ctx.localPtr + 2 * offsetSize } rfl n memspace]
      exact gepBounds_self { ctx with localPtr := ctx.localPtr + 2 * offsetSize } n memspace
  | writeBound p bound memspace =>
      obtain rfl := Option.some.inj h
      rw [Op.run]
      exact gepBounds_self ctx n memspace
  | _ => cases h

/-- The axiom of a bound is about the bounds array at the end of the run. -/
theorem exists_boundAxiom_mem_added {ops : List (Op V)} (hops : ∀ op ∈ ops, op.isMemoryOp = true)
    {ctx : ExecutionContext V} {n : ℕ} {w : BoundWrite V}
    (hw : w ∈ boundWrites unknown ops ctx n) :
    ∃ a, (runAll unknown ops ctx n).1.memArrays (gepBoundsId w.memspace) = some a ∧
      ExecutionContext.boundAxiom a.mem w.p w.bound ∈ added unknown ops ctx n := by
  induction ops generalizing ctx n with
  | nil => cases hw
  | cons op ops ih =>
      have hops' : ∀ op' ∈ ops, op'.isMemoryOp = true :=
        fun op' hop' => hops op' (List.mem_cons_of_mem _ hop')
      rw [boundWrites] at hw
      rw [runAll_cons, added]
      rcases List.mem_append.mp hw with hw | hw
      · have hw := Option.mem_toList.mp hw
        refine ⟨(ctx.gepBounds n w.memspace).1, ?_, List.mem_append_right _ ?_⟩
        · exact (boundsFrom_runAll unknown hops' (BoundsFrom.refl _ _ _) (Nat.le_refl _)).shared _ _
            (Op.boundWrite_memArrays unknown hw n)
        · rw [(Op.boundWrite_spec unknown hw n).1]
          exact List.mem_singleton_self _
      · obtain ⟨a, ha, hmem⟩ := ih hops' hw
        exact ⟨a, ha, List.mem_append_left _ hmem⟩

theorem axiomsHold_of_added {ops : List (Op V)} {ctx : ExecutionContext V} {n : ℕ}
    {ρ : Assignment V} (h : ∀ ax ∈ added unknown ops ctx n, ax ρ) :
    ∀ op ∈ ops, op.axiomsHold ρ := by
  induction ops generalizing ctx n with
  | nil => nofun
  | cons op ops ih =>
      rw [added] at h
      refine List.forall_mem_cons.mpr
        ⟨?_, ih fun ax hax => h ax (List.mem_append_left _ hax)⟩
      have hop : ∀ ax ∈ op.added unknown ctx n, ax ρ :=
        fun ax hax => h ax (List.mem_append_right _ hax)
      cases op with
      | getGlobalPtr memspace offsetSize origSize => exact (hop _ (List.mem_singleton_self _)).2
      | getLocalPtr memspace offsetSize origSize => exact (hop _ (List.mem_singleton_self _)).2
      | writeBound p bound memspace => exact (hop _ (List.mem_singleton_self _)).2
      | writeExprRangeToMemory start size val memspace =>
          exact (hop _ (List.mem_singleton_self _)).2
      | _ => trivial

/-- Where the axioms of a branch hold, its bounds do not conflict. -/
theorem noConflict_of_added {D : ExecutionContext V} {ops : List (Op V)}
    (hops : ∀ op ∈ ops, op.isMemoryOp = true) {n : ℕ} {ρ : Assignment V}
    (h : ∀ ax ∈ added unknown ops D n, ax ρ) : NoConflict unknown D ops n ρ := by
  let reached := (runAll unknown ops D n).1
  have hbounds : BoundsFrom D n (n + ops.length) reached :=
    boundsFrom_runAll unknown hops (BoundsFrom.refl D n n) (Nat.le_refl n)
  refine ⟨fun id => Function.update
    (((reached.memArrays id).map fun a => a.mem ρ).getD fun _ => 0) getNullPtr (-1), ?_⟩
  refine ⟨fun id => Function.update_self _ _ _, fun w hw d hd => ?_, fun w hw hnone => ?_,
    axiomsHold_of_added unknown h⟩
  · obtain ⟨a, ha, hmem⟩ := exists_boundAxiom_mem_added unknown hops hw
    obtain rfl := Option.some.inj (ha.symm.trans (hbounds.shared _ d hd))
    exact (h _ hmem).1
  · obtain ⟨a, ha, hmem⟩ := exists_boundAxiom_mem_added unknown hops hw
    obtain ⟨t, -, -, rfl⟩ := hbounds.own _ a hnone ha
    refine Eq.trans (select_congr ?_ w.p w.bound.bitSize) (h _ hmem).1
    rw [ha, Option.map_some, Option.getD_some, freshBounds_mem_eq, Function.update_idem]

theorem eachBranch_noConflict {D : ExecutionContext V}
    {branches : List ((Assignment V → Bool) × List (Op V))} (hops : OnMemory branches) {n : ℕ}
    {ρ : Assignment V}
    (h : ∀ e ∈ (runBranches unknown branches D n).1, ∀ ax ∈ e.2.contextAxioms, ax ρ) :
    EachBranch (fun ops k => NoConflict unknown D ops k ρ) branches n := by
  induction branches generalizing n with
  | nil => trivial
  | cons branch branches ih =>
      obtain ⟨cond, ops⟩ := branch
      have hhead := hops _ List.mem_cons_self
      rw [runBranches_cons, runAll_snd unknown hhead] at h
      obtain ⟨hfirst, hrest⟩ := List.forall_mem_cons.mp h
      refine ⟨noConflict_of_added unknown hhead fun ax hax => hfirst ax ?_,
        ih (fun b hb => hops b (List.mem_cons_of_mem _ hb)) hrest⟩
      dsimp only
      rw [contextAxioms_runAll unknown hhead]
      exact List.mem_append_left _ hax

/-! ## The merge -/

/-- The number of the first operation of a branch that comes after these. -/
def startAfter (D : ExecutionContext V) (n : ℕ)
    (earlier : List ((Assignment V → Bool) × List (Op V))) : ℕ :=
  (runBranches unknown earlier D n).2

/-- The context of a branch that comes after these. -/
def branchContext (D : ExecutionContext V) (n : ℕ)
    (earlier : List ((Assignment V → Bool) × List (Op V))) (ops : List (Op V)) :
    ExecutionContext V :=
  (runAll unknown ops D (startAfter unknown D n earlier)).1

/-- The merge keeps a path feasible: an assignment that makes the condition and the axioms of one
branch true and the conditions of the others false has an extension that makes all axioms of the
merged context true. -/
def KeepsFeasible (D : ExecutionContext V) (n m : ℕ)
    (earlier : List ((Assignment V → Bool) × List (Op V))) (cond : Assignment V → Bool)
    (ops : List (Op V)) (later : List ((Assignment V → Bool) × List (Op V)))
    (ρ : Assignment V) : Prop :=
  cond ρ = true → (∀ branch ∈ earlier ++ later, branch.1 ρ = false) →
    (∀ ax ∈ (branchContext unknown D n earlier ops).contextAxioms, ax ρ) →
      ∃ ρ', (branchContext unknown D n earlier ops).Extends ρ ρ' ∧
        ∀ ax ∈ (D.switchOn unknown m
          (runBranches unknown (earlier ++ (cond, ops) :: later) D n).1).contextAxioms, ax ρ'

/-- The condition: under some extension, what each of the other branches says about bounds
contradicts neither the arrays from before the branches, nor the bound of null, nor itself. -/
def OthersCompatible (D : ExecutionContext V) (n : ℕ)
    (earlier : List ((Assignment V → Bool) × List (Op V))) (cond : Assignment V → Bool)
    (ops : List (Op V)) (later : List ((Assignment V → Bool) × List (Op V)))
    (ρ : Assignment V) : Prop :=
  cond ρ = true → (∀ branch ∈ earlier ++ later, branch.1 ρ = false) →
    (∀ ax ∈ (branchContext unknown D n earlier ops).contextAxioms, ax ρ) →
      ∃ ρ', (branchContext unknown D n earlier ops).Extends ρ ρ' ∧
        EachBranch (fun ops k => NoConflict unknown D ops k ρ') earlier n ∧
        EachBranch (fun ops k => NoConflict unknown D ops k ρ') later
          (startAfter unknown D n earlier + ops.length)

/-- The other branches settle their bounds without reading what was made inside of a branch. -/
def OthersSettled (n : ℕ) (earlier later : List ((Assignment V → Bool) × List (Op V))) : Prop :=
  ∀ branch ∈ earlier ++ later, ∀ op ∈ branch.2, op.Settled (madeFrom n)

/-- The expressions of each branch mention only what was there before the branches and what the
branch itself has made: nothing that is not made yet, and for the branch in question nothing that an
earlier branch made. -/
structure ScopedBranches (D : ExecutionContext V) (n : ℕ)
    (earlier : List ((Assignment V → Bool) × List (Op V))) (ops : List (Op V))
    (later : List ((Assignment V → Bool) × List (Op V))) : Prop where
  default : D.Ignores (madeFrom n)
  early : EachBranch (Scoped ∅) earlier n
  branch : Scoped (madeBetween n (startAfter unknown D n earlier)) ops
    (startAfter unknown D n earlier)
  late : EachBranch (Scoped ∅) later (startAfter unknown D n earlier + ops.length)

section Merge

variable {D : ExecutionContext V} {n m : ℕ}
  {earlier later : List ((Assignment V → Bool) × List (Op V))} {cond : Assignment V → Bool}
  {ops : List (Op V)}

theorem mem_contextAxioms_switchOn {contexts : List ((Assignment V → Bool) × ExecutionContext V)}
    {ax : Assignment V → Prop} :
    ax ∈ (D.switchOn unknown m contexts).contextAxioms ↔
      ∃ e ∈ contexts, ax ∈ e.2.contextAxioms :=
  List.mem_flatMap

theorem runBranches_split (hops : OnMemory (earlier ++ (cond, ops) :: later)) :
    (runBranches unknown (earlier ++ (cond, ops) :: later) D n).1 =
      (runBranches unknown earlier D n).1 ++ (cond, branchContext unknown D n earlier ops) ::
        (runBranches unknown later D (startAfter unknown D n earlier + ops.length)).1 := by
  have hbranch := hops _ (List.mem_append_right _ List.mem_cons_self)
  rw [runBranches_append, runBranches_cons, runAll_snd unknown hbranch]
  rfl

theorem othersCompatible_of_keepsFeasible (hops : OnMemory (earlier ++ (cond, ops) :: later))
    {ρ : Assignment V} (h : KeepsFeasible unknown D n m earlier cond ops later ρ) :
    OthersCompatible unknown D n earlier cond ops later ρ := by
  intro hcond hfalse haxioms
  obtain ⟨ρ', hextends, hmerged⟩ := h hcond hfalse haxioms
  rw [runBranches_split unknown hops] at hmerged
  have hall : ∀ e ∈ (runBranches unknown earlier D n).1 ++
      (cond, branchContext unknown D n earlier ops) ::
        (runBranches unknown later D (startAfter unknown D n earlier + ops.length)).1,
      ∀ ax ∈ e.2.contextAxioms, ax ρ' :=
    fun e he ax hax => hmerged ax ((mem_contextAxioms_switchOn unknown).mpr ⟨e, he, hax⟩)
  refine ⟨ρ', hextends, ?_, ?_⟩
  · exact eachBranch_noConflict unknown (fun b hb => hops b (List.mem_append_left _ hb))
      fun e he => hall e (List.mem_append_left _ he)
  · exact eachBranch_noConflict unknown
      (fun b hb => hops b (List.mem_append_right _ (List.mem_cons_of_mem _ hb)))
      fun e he => hall e (List.mem_append_right _ (List.mem_cons_of_mem _ he))

theorem keepsFeasible_of_othersCompatible (hops : OnMemory (earlier ++ (cond, ops) :: later))
    (hscoped : ScopedBranches unknown D n earlier ops later)
    (hsettled : OthersSettled n earlier later) {ρ : Assignment V}
    (h : OthersCompatible unknown D n earlier cond ops later ρ) :
    KeepsFeasible unknown D n m earlier cond ops later ρ := by
  intro hcond hfalse haxioms
  obtain ⟨ρ₁, hextends, hearlier, hlater⟩ := h hcond hfalse haxioms
  let k := startAfter unknown D n earlier
  have hopsEarlier : OnMemory earlier := fun b hb => hops b (List.mem_append_left _ hb)
  have hopsLater : OnMemory later :=
    fun b hb => hops b (List.mem_append_right _ (List.mem_cons_of_mem _ hb))
  have hopsBranch := hops _ (List.mem_append_right _ List.mem_cons_self)
  have hnk : n ≤ k := le_runBranches_snd unknown hopsEarlier D n
  -- first the constants of the earlier branches, then those of the later ones
  obtain ⟨ρ₂, hρ₂, hheld₂⟩ := exists_holds_branches unknown (Nat.le_refl n) hscoped.default
    hopsEarlier (fun b hb => hsettled b (List.mem_append_left _ hb)) hscoped.early hearlier
  have hsettledLater : ∀ b ∈ later, ∀ op ∈ b.2, op.Settled (madeFrom n) :=
    fun b hb => hsettled b (List.mem_append_right _ hb)
  have hlater₂ : EachBranch (fun ops k => NoConflict unknown D ops k ρ₂) later
      (k + ops.length) := by
    refine hlater.imp fun b hb j hconflict => ?_
    obtain ⟨bounds, hcompatible⟩ := hconflict
    exact ⟨bounds, hcompatible.congr (hρ₂.mono (madeBetween_subset_madeFrom (Nat.le_refl n)))
      hscoped.default (hsettledLater b hb)
      fun w hw => settled_of_mem_boundWrites unknown (hsettledLater b hb) hw⟩
  obtain ⟨ρ₃, hρ₃, hheld₃⟩ := exists_holds_branches unknown
    (by omega : n ≤ k + ops.length) hscoped.default hopsLater hsettledLater hscoped.late hlater₂
  -- the branch mentions none of them
  have hbranch : (branchContext unknown D n earlier ops).Ignores
      (madeBetween n k ∪ madeFrom (k + ops.length)) := by
    refine ignores_runAll unknown hopsBranch hscoped.branch ?_ (hscoped.default.mono ?_)
    · rintro operation id index hle ⟨operation', id', index', -, hlt, heq⟩
      obtain ⟨rfl, -, -⟩ := ArrayName.free.inj heq
      omega
    · exact Set.union_subset (madeBetween_subset_madeFrom (Nat.le_refl n)) (madeFrom_mono hnk)
  have hchanged : AgreeOff (madeBetween n k ∪ madeFrom (k + ops.length)) ρ₁ ρ₃ :=
    (hρ₂.mono Set.subset_union_left).trans
      (hρ₃.mono ((madeBetween_subset_madeFrom (Nat.le_refl _)).trans Set.subset_union_right))
  have hextends₃ := hextends.trans_agreeOff hchanged hbranch
  have hown : ∀ ax ∈ (branchContext unknown D n earlier ops).contextAxioms, ax ρ₃ :=
    fun ax hax => hextends₃.sameUnder.axioms ax hax ▸ haxioms ax hax
  have hdefault : ∀ ax ∈ D.contextAxioms, ax ρ₃ := by
    intro ax hax
    refine hown ax ?_
    rw [branchContext, contextAxioms_runAll unknown hopsBranch]
    exact List.mem_append_right _ hax
  refine ⟨ρ₃, hextends₃, fun ax hax => ?_⟩
  rw [runBranches_split unknown hops] at hax
  obtain ⟨e, he, hax⟩ := (mem_contextAxioms_switchOn unknown).mp hax
  rcases List.mem_append.mp he with he | he
  · have hignores := ignores_runBranches unknown hopsEarlier hscoped.early hscoped.default e he
    rcases hheld₂ e he ax hax with hD | hax₂
    · exact hdefault ax hD
    · rw [← hignores.axioms ax hax ρ₂ ρ₃
        (hρ₃.mono (madeBetween_subset_madeFrom (Nat.le_add_right k _)))]
      exact hax₂
  · rcases List.mem_cons.mp he with rfl | he
    · exact hown ax hax
    · rcases hheld₃ e he ax hax with hD | hax₃
      · exact hdefault ax hD
      · exact hax₃

end Merge

/-! ### Two branches that allocate -/

/-- A request for a local object of this size in a memory space. -/
def allocate (memspace : ℕ) (size : BitVec 64) : Op Bool :=
  .getLocalPtr memspace size (ExecutionContext.defaultBound size)

/-- The condition of the first branch. -/
def ifC (ρ : Assignment Bool) : Bool := ρ.var "c"

/-- The condition of the second branch. -/
def unlessC (ρ : Assignment Bool) : Bool := !ρ.var "c"

/-- `c` is true, and every array holds one everywhere. -/
def allOnes : Assignment Bool := ⟨fun _ => true, fun _ _ => 1⟩

theorem allocate_ignores (S : Set ArrayName) (memspace : ℕ) (size : BitVec 64) :
    (allocate memspace size).Ignores S :=
  ⟨.const _, .const _⟩

end SMT

end Borealis
