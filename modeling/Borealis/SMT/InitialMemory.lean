import Borealis.SMT.Run

/-!
# The initial contents of memory

`getInitialMemoryContents` reads the arrays that `get` records when it creates them.  A merge takes
over the current arrays of the branches but not what the branches recorded, so a memory space that
is first used inside of a branch has no initial array in the merged context, and the current one is
given out in its place.  Where every space that a branch uses has been used before the branches, the
initial contents are those before the first write.

## Strategy

`firstWrites` keeps a list, for every array, of what it held before the first writes to it.
`Recorded` says that a context that has created a memory array has an initial one, equal to all of
them; every operation keeps it (`recorded_touch`, `recorded_write`, `recorded_switchOn`).
-/

namespace Borealis

namespace SMT

variable {V : Type} (unknown : Bool)

/-! ## What was there before the first writes -/

/-- For every array, what it held just before the first write to it, in this context or in each of
the branches that were merged into it. -/
abbrev FirstContents (V : Type) := String → List (MemArray V)

/-- A write to an array that has not been written to yet. -/
def recordWrite (ctx : ExecutionContext V) (n : ℕ) (id : String) (first : FirstContents V) :
    FirstContents V :=
  Function.update first id
    (if (first id).isEmpty then [(ctx.peek unknown n 0 id).mem] else first id)

/-- What the branches found before their first writes, unless the context was first. -/
def mergeFirst (first : FirstContents V) (branches : List (FirstContents V)) : FirstContents V :=
  fun id => if (first id).isEmpty then branches.flatMap fun b => b id else first id

mutual
/-- The record after an operation. -/
def Op.firstWrites : Op V → ExecutionContext V → ℕ → FirstContents V → FirstContents V
  | .writeExprToMemory _ _ memspace, ctx, n, first =>
    recordWrite unknown ctx n (memoryId memspace) first
  | .writeExprRangeToMemory _ _ _ memspace, ctx, n, first =>
    recordWrite unknown ctx n (memoryId memspace) first
  | .writeProperty id _ _, ctx, n, first => recordWrite unknown ctx n id first
  | .switchOn branches, ctx, n, first => mergeFirst first (branchFirstWrites branches ctx n first)
  | .externalSwitchOn branches _, ctx, n, first =>
    mergeFirst first (branchFirstWrites branches ctx n first)
  | _, _, _, first => first

/-- The record after a run. -/
def firstWrites : List (Op V) → ExecutionContext V → ℕ → FirstContents V → FirstContents V
  | [], _, _, first => first
  | op :: ops, ctx, n, first =>
    firstWrites ops (op.run unknown ctx n).1 (op.run unknown ctx n).2
      (op.firstWrites ctx n first)

/-- The records of the branches of a choice. -/
def branchFirstWrites : List ((Assignment V → Bool) × List (Op V)) → ExecutionContext V → ℕ →
    FirstContents V → List (FirstContents V)
  | [], _, _, _ => []
  | (_, ops) :: branches, ctx, n, first =>
    firstWrites ops ctx n first ::
      branchFirstWrites branches ctx (runAll unknown ops ctx n).2 first
end

/-! ## The condition -/

mutual
/-- The memory is not externalised, and every memory space that the context of a branch holds is
held by the context that the branches are merged into. -/
def Op.UsedBefore : Op V → ExecutionContext V → ℕ → Prop
  | .externalizeEverythingMutable _, _, _ => False
  | .externalSwitchOn _ _, _, _ => False
  | .switchOn branches, ctx, n =>
    (∀ e ∈ (runBranches unknown branches ctx n).1, ∀ memspace,
      e.2.holds (memoryId memspace) = true → ctx.holds (memoryId memspace) = true) ∧
    branchesUsedBefore branches ctx n
  | _, _, _ => True

/-- Every operation of a run meets the condition in the context it is performed in. -/
def UsedBefore : List (Op V) → ExecutionContext V → ℕ → Prop
  | [], _, _ => True
  | op :: ops, ctx, n =>
    op.UsedBefore ctx n ∧ UsedBefore ops (op.run unknown ctx n).1 (op.run unknown ctx n).2

/-- The runs of the branches meet the condition. -/
def branchesUsedBefore : List ((Assignment V → Bool) × List (Op V)) → ExecutionContext V → ℕ →
    Prop
  | [], _, _ => True
  | (_, ops) :: branches, ctx, n =>
    UsedBefore ops ctx n ∧ branchesUsedBefore branches ctx (runAll unknown ops ctx n).2
end

/-! ## Initial arrays stay -/

namespace ExecutionContext

/-- An initial array that is there stays. -/
def InitialKept (ctx ctx' : ExecutionContext V) : Prop :=
  ∀ id a, ctx.initialMemArrays id = some a → ctx'.initialMemArrays id = some a

theorem InitialKept.trans {ctx ctx' ctx'' : ExecutionContext V} (h : InitialKept ctx ctx')
    (h' : InitialKept ctx' ctx'') : InitialKept ctx ctx'' :=
  fun id a ha => h' id a (h id a ha)

theorem initialKept_touch (ctx : ExecutionContext V) (n : ℕ) (id : String) :
    InitialKept ctx (ctx.touch unknown n id) := by
  intro id' a ha
  unfold touch
  split
  · exact ha
  · exact emplace_of_some ha _

theorem initialKept_gepBounds (ctx : ExecutionContext V) (n memspace : ℕ) :
    InitialKept ctx (ctx.gepBounds n memspace).2 := by
  intro id a ha
  unfold gepBounds
  split <;> exact ha

end ExecutionContext

open ExecutionContext (InitialKept)

theorem initialKept_step {op : Op V} (hop : op.merges = false) (ctx : ExecutionContext V) (n : ℕ) :
    InitialKept ctx (op.run unknown ctx n).1 := by
  cases op with
  | getGlobalPtr memspace offsetSize origSize =>
      rw [Op.run]
      exact ExecutionContext.initialKept_gepBounds 
        { ctx with globalPtr := ctx.globalPtr + 2 * offsetSize } n memspace
  | getLocalPtr memspace offsetSize origSize =>
      rw [Op.run]
      exact ExecutionContext.initialKept_gepBounds 
        { ctx with localPtr := ctx.localPtr + 2 * offsetSize } n memspace
  | getBound memspace =>
      rw [Op.run]
      exact ctx.initialKept_gepBounds n memspace
  | writeBound p bound memspace =>
      rw [Op.run]
      exact ctx.initialKept_gepBounds n memspace
  | readExprFromMemory memspace =>
      rw [Op.run]
      exact ctx.initialKept_touch unknown n _
  | writeExprToMemory ix val memspace =>
      rw [Op.run]
      exact ctx.initialKept_touch unknown n _
  | writeExprRangeToMemory start size val memspace =>
      rw [Op.run]
      exact ctx.initialKept_touch unknown n _
  | readProperty id =>
      rw [Op.run]
      exact ctx.initialKept_touch unknown n id
  | writeProperty id ix val =>
      rw [Op.run]
      exact ctx.initialKept_touch unknown n id
  | externalizeEverythingMutable pfix =>
      rw [Op.run]
      exact fun id a ha => ha
  | switchOn branches => cases hop
  | externalSwitchOn branches pfix => cases hop

/-- No run changes an initial array. -/
theorem initialKept_runAll (ops : List (Op V)) : ∀ (ctx : ExecutionContext V) (n : ℕ),
    InitialKept ctx (runAll unknown ops ctx n).1 := by
  induction ops with
  | nil =>
      intro ctx n id a ha
      rwa [runAll_nil]
  | cons op ops ih =>
      intro ctx n
      rw [runAll_cons]
      refine InitialKept.trans ?_ (ih _ _)
      cases hop : op.merges with
      | false => exact initialKept_step unknown hop ctx n
      | true =>
          cases op with
          | switchOn branches => rw [Op.run]; exact fun id a ha => ha
          | externalSwitchOn branches pfix => rw [Op.run]; exact fun id a ha => ha
          | _ => cases hop

/-! ## The invariant -/

/-- A memory array that the context has created has an initial array, which is what was there before
each of the first writes, and is still there where nothing was written; of the other memory arrays
nothing is recorded. -/
structure Recorded (ctx : ExecutionContext V) (first : FirstContents V) : Prop where
  held : ∀ memspace a, ctx.memArrays (memoryId memspace) = some a →
    ∃ b, ctx.initialMemArrays (memoryId memspace) = some b ∧
      (∀ c ∈ first (memoryId memspace), c = b.mem) ∧
      (first (memoryId memspace) = [] → a.mem = b.mem)
  absent : ∀ memspace, ctx.memArrays (memoryId memspace) = none →
    ctx.initialMemArrays (memoryId memspace) = none ∧ first (memoryId memspace) = []

namespace Recorded

variable {unknown} {ctx ctx' : ExecutionContext V} {first : FirstContents V}

/-- Only the arrays matter. -/
theorem congr (h : Recorded ctx first) (hmem : ctx'.memArrays = ctx.memArrays)
    (hinitial : ctx'.initialMemArrays = ctx.initialMemArrays) : Recorded ctx' first := by
  constructor
  · rw [hmem, hinitial]
    exact h.held
  · rw [hmem, hinitial]
    exact h.absent

theorem touch (h : Recorded ctx first) (n : ℕ) (id : String) :
    Recorded (ctx.touch unknown n id) first := by
  cases hid : ctx.memArrays id with
  | some a =>
      rw [ExecutionContext.touch_of_some unknown hid]
      exact h
  | none =>
      constructor
      · intro memspace a ha
        by_cases hne : memoryId memspace = id
        · subst hne
          rw [ExecutionContext.touch_of_none unknown hid] at ha ⊢
          obtain ⟨hinitial, hfirst⟩ := h.absent memspace hid
          obtain rfl := Option.some.inj
            (ha.symm.trans (ExecutionContext.emplace_self hid _))
          refine ⟨_, ExecutionContext.emplace_self hinitial _, fun c hc => ?_, fun _ => rfl⟩
          rw [hfirst] at hc
          cases hc
        · obtain ⟨hmem, hinitial⟩ := ExecutionContext.touch_of_ne unknown hne ctx n
          rw [hmem] at ha
          rw [hinitial]
          exact h.held memspace a ha
      · intro memspace ha
        by_cases hne : memoryId memspace = id
        · subst hne
          rw [ExecutionContext.touch_self] at ha
          cases ha
        · obtain ⟨hmem, hinitial⟩ := ExecutionContext.touch_of_ne unknown hne ctx n
          rw [hmem] at ha
          rw [hinitial]
          exact h.absent memspace ha

theorem gepBounds (h : Recorded ctx first) (n memspace : ℕ) :
    Recorded (ctx.gepBounds n memspace).2 first := by
  have hother : ∀ m, (ctx.gepBounds n memspace).2.memArrays (memoryId m) =
      ctx.memArrays (memoryId m) :=
    fun m => ExecutionContext.gepBounds_of_ne (memoryId_ne_gepBoundsId m memspace) ctx n
  constructor
  · intro m a ha
    rw [hother m] at ha
    rw [ExecutionContext.gepBounds_initialMemArrays]
    exact h.held m a ha
  · intro m ha
    rw [hother m] at ha
    rw [ExecutionContext.gepBounds_initialMemArrays]
    exact h.absent m ha

/-- A write replaces an array that has been created, and what was there is kept in the record. -/
theorem write (h : Recorded ctx first) (n : ℕ) (id : String) (value : MemArrayWithVersion V) :
    Recorded ((ctx.touch unknown n id).set id value) (recordWrite unknown ctx n id first) := by
  have htouched : Recorded (ctx.touch unknown n id) first := h.touch n id
  constructor
  · intro memspace a ha
    by_cases hne : memoryId memspace = id
    · subst hne
      obtain ⟨b, hinitial, hfirst, hmem⟩ :=
        htouched.held memspace _ (ctx.touch_self unknown n _)
      refine ⟨b, hinitial, ?_, fun hnil => ?_⟩
      · rw [recordWrite, Function.update_self]
        split
        · next hempty =>
            rw [List.isEmpty_iff] at hempty
            intro c hc
            rw [List.mem_singleton.mp hc]
            exact hmem hempty
        · exact hfirst
      · rw [recordWrite, Function.update_self] at hnil
        split at hnil
        · cases hnil
        · next hempty => exact absurd (List.isEmpty_iff.mpr hnil) hempty
    · rw [ExecutionContext.set_of_ne hne] at ha
      rw [recordWrite, Function.update_of_ne hne]
      exact htouched.held memspace a ha
  · intro memspace ha
    by_cases hne : memoryId memspace = id
    · subst hne
      rw [ExecutionContext.set_self] at ha
      cases ha
    · rw [ExecutionContext.set_of_ne hne] at ha
      rw [recordWrite, Function.update_of_ne hne]
      exact htouched.absent memspace ha

end Recorded

theorem recorded_step {op : Op V} (hop : op.merges = false) {ctx : ExecutionContext V} {n : ℕ}
    (hused : op.UsedBefore unknown ctx n) {first : FirstContents V} (h : Recorded ctx first) :
    Recorded (op.run unknown ctx n).1 (op.firstWrites unknown ctx n first) := by
  cases op with
  | getGlobalPtr memspace offsetSize origSize =>
      rw [Op.run, Op.firstWrites]
      have hcounter : Recorded { ctx with globalPtr := ctx.globalPtr + 2 * offsetSize } first :=
        h.congr rfl rfl
      exact (hcounter.gepBounds n memspace).congr rfl rfl
      all_goals nofun
  | getLocalPtr memspace offsetSize origSize =>
      rw [Op.run, Op.firstWrites]
      have hcounter : Recorded { ctx with localPtr := ctx.localPtr + 2 * offsetSize } first :=
        h.congr rfl rfl
      exact (hcounter.gepBounds n memspace).congr rfl rfl
      all_goals nofun
  | getBound memspace =>
      rw [Op.run, Op.firstWrites]
      exact h.gepBounds n memspace
      all_goals nofun
  | writeBound p bound memspace =>
      rw [Op.run, Op.firstWrites]
      exact (h.gepBounds n memspace).congr rfl rfl
      all_goals nofun
  | readExprFromMemory memspace =>
      rw [Op.run, Op.firstWrites]
      exact h.touch n _
      all_goals nofun
  | writeExprToMemory ix val memspace =>
      rw [Op.run, Op.firstWrites]
      exact h.write n _ _
  | writeExprRangeToMemory start size val memspace =>
      rw [Op.run, Op.firstWrites]
      exact (h.write n _ _).congr rfl rfl
  | readProperty id =>
      rw [Op.run, Op.firstWrites]
      exact h.touch n id
      all_goals nofun
  | writeProperty id ix val =>
      rw [Op.run, Op.firstWrites]
      exact h.write n id _
  | externalizeEverythingMutable pfix =>
      rw [Op.UsedBefore] at hused
      exact hused.elim
  | switchOn branches => cases hop
  | externalSwitchOn branches pfix => cases hop

/-! ## Merges -/

/-- When the default and all cases are the same array, so is the choice between them. -/
theorem switch_eq_of_forall {mem : MemArray V} {cases : List ((Assignment V → Bool) × MemArray V)}
    (h : ∀ c ∈ cases, c.2 = mem) : switch cases mem = mem := by
  funext ρ
  unfold switch
  suffices hfold : ∀ cases' : List ((Assignment V → Bool) × MemArray V),
      (∀ c ∈ cases', c.2 = mem) →
        cases'.foldl (fun b a => if a.1 ρ then a.2 ρ else b) (mem ρ) = mem ρ from hfold cases h
  intro cases' h'
  induction cases' with
  | nil => rfl
  | cons c cases' ih =>
      rw [List.foldl_cons, h' c List.mem_cons_self, ite_self]
      exact ih fun c hc => h' c (List.mem_cons_of_mem _ hc)

/-- When the default and all alternatives are the same array, so is the merged one. -/
theorem merge_mem_of_forall {deflt : MemArrayWithVersion V}
    {alts : List ((Assignment V → Bool) × MemArrayWithVersion V)}
    (h : ∀ alt ∈ alts, alt.2.mem = deflt.mem) : (deflt.merge alts).mem = deflt.mem := by
  unfold MemArrayWithVersion.merge
  split
  · rfl
  · refine switch_eq_of_forall fun c hc => ?_
    obtain ⟨alt, halt, rfl⟩ := List.mem_map.mp hc
    exact h alt halt

/-- The array of a context that holds it is merged. -/
theorem switchOn_memArrays_of_held {ctx : ExecutionContext V} {id : String}
    {a : MemArrayWithVersion V} (h : ctx.memArrays id = some a) {n : ℕ}
    {contexts : List ((Assignment V → Bool) × ExecutionContext V)} :
    (ctx.switchOn unknown n contexts).memArrays id =
      some (a.merge (ExecutionContext.alternatives unknown (n + 1) contexts id)) := by
  have hactive : ctx.activeIn contexts id = true := by
    rw [ExecutionContext.activeIn, ExecutionContext.holds, h]
    rfl
  simp only [ExecutionContext.switchOn, ExecutionContext.takeOver, ExecutionContext.mergeMemory,
    if_pos hactive, ExecutionContext.peek, h, Option.getD_some]

/-- A memory space that nobody has used is not there after the merge either. -/
theorem switchOn_memArrays_of_not_active {ctx : ExecutionContext V} {memspace : ℕ}
    (h : ctx.memArrays (memoryId memspace) = none) {n : ℕ}
    {contexts : List ((Assignment V → Bool) × ExecutionContext V)}
    (hcontexts : ∀ e ∈ contexts, e.2.memArrays (memoryId memspace) = none) :
    (ctx.switchOn unknown n contexts).memArrays (memoryId memspace) = none := by
  have hactive : ctx.activeIn contexts (memoryId memspace) = false := by
    rw [ExecutionContext.activeIn, ExecutionContext.holds, h, Option.isSome_none, Bool.false_or,
      List.any_eq_false]
    intro e he
    rw [ExecutionContext.holds, hcontexts e he]
    exact Bool.false_ne_true
  simp only [ExecutionContext.switchOn, ExecutionContext.takeOver, ExecutionContext.mergeMemory,
    if_neg (ne_true_of_eq_false hactive)]
  exact ExecutionContext.init_of_ne unknown (memoryId_ne_gepBoundsId memspace 0) n 0 0

theorem mem_alternatives {n : ℕ} {contexts : List ((Assignment V → Bool) × ExecutionContext V)}
    {id : String} {alt : (Assignment V → Bool) × MemArrayWithVersion V}
    (h : alt ∈ ExecutionContext.alternatives unknown n contexts id) :
    ∃ e ∈ contexts, ∃ i, alt = (e.1, e.2.peek unknown n i id) := by
  obtain ⟨⟨e, i⟩, he, rfl⟩ := List.mem_map.mp h
  exact ⟨e, (List.mem_zipIdx' he).2 ▸ List.getElem_mem _, i + 1, rfl⟩

theorem exists_of_mem_left {α β : Type} {R : α → β → Prop} {xs : List α} {ys : List β}
    (h : List.Forall₂ R xs ys) {x : α} (hx : x ∈ xs) : ∃ y ∈ ys, R x y := by
  induction h with
  | nil => cases hx
  | cons hr _ ih =>
      rcases List.mem_cons.mp hx with rfl | hx
      · exact ⟨_, List.mem_cons_self, hr⟩
      · obtain ⟨y, hy, hr⟩ := ih hx
        exact ⟨y, List.mem_cons_of_mem _ hy, hr⟩

theorem exists_of_mem_right {α β : Type} {R : α → β → Prop} {xs : List α} {ys : List β}
    (h : List.Forall₂ R xs ys) {y : β} (hy : y ∈ ys) : ∃ x ∈ xs, R x y :=
  exists_of_mem_left h.flip hy

/-- The merge of branches that use no memory space of their own. -/
theorem recorded_switchOn {ctx : ExecutionContext V} {first : FirstContents V}
    (h : Recorded ctx first) (n : ℕ)
    {contexts : List ((Assignment V → Bool) × ExecutionContext V)}
    {firsts : List (FirstContents V)}
    (hused : ∀ e ∈ contexts, ∀ memspace,
      e.2.holds (memoryId memspace) = true → ctx.holds (memoryId memspace) = true)
    (hrecorded : List.Forall₂ (fun e f => Recorded e.2 f ∧ InitialKept ctx e.2) contexts firsts) :
    Recorded (ctx.switchOn unknown n contexts) (mergeFirst first firsts) := by
  constructor
  · intro memspace a ha
    cases hctx : ctx.memArrays (memoryId memspace) with
    | none =>
        -- the space is used by none of the branches either
        rw [switchOn_memArrays_of_not_active unknown hctx fun e he => ?_] at ha
        · cases ha
        · cases hheld : e.2.memArrays (memoryId memspace) with
          | none => rfl
          | some b =>
              have := hused e he memspace (by rw [ExecutionContext.holds, hheld]; rfl)
              rw [ExecutionContext.holds, hctx] at this
              cases this
    | some current =>
        obtain ⟨b, hinitial, hfirst, hmem⟩ := h.held memspace current hctx
        -- each branch started from the same initial array
        have hbranch : ∀ e ∈ contexts, ∀ f, Recorded e.2 f ∧ InitialKept ctx e.2 →
            ∃ a, e.2.memArrays (memoryId memspace) = some a ∧
              (∀ c ∈ f (memoryId memspace), c = b.mem) ∧
              (f (memoryId memspace) = [] → a.mem = b.mem) := by
          rintro e - f ⟨hrec, hkept⟩
          have hb := hkept _ _ hinitial
          cases he : e.2.memArrays (memoryId memspace) with
          | none =>
              rw [(hrec.absent memspace he).1] at hb
              cases hb
          | some a =>
              obtain ⟨b', hb', hf, ha⟩ := hrec.held memspace a he
              obtain rfl := Option.some.inj (hb.symm.trans hb')
              exact ⟨a, rfl, hf, ha⟩
        refine ⟨b, hinitial, ?_, fun hnil => ?_⟩
        · rw [mergeFirst]
          split
          · intro c hc
            obtain ⟨f, hf, hc⟩ := List.mem_flatMap.mp hc
            obtain ⟨e, he, hef⟩ := exists_of_mem_right hrecorded hf
            obtain ⟨-, -, hall, -⟩ := hbranch e he f hef
            exact hall c hc
          · exact hfirst
        · rw [mergeFirst] at hnil
          split at hnil
          · next hempty =>
              have hcurrent := hmem (List.isEmpty_iff.mp hempty)
              rw [switchOn_memArrays_of_held unknown hctx] at ha
              obtain rfl := Option.some.inj ha
              rw [merge_mem_of_forall, hcurrent]
              intro alt halt
              obtain ⟨e, he, i, rfl⟩ := mem_alternatives unknown halt
              obtain ⟨f, hf, hef⟩ := exists_of_mem_left hrecorded he
              obtain ⟨a, hea, -, hunwritten⟩ := hbranch e he f hef
              rw [ExecutionContext.peek, hea, Option.getD_some, hcurrent]
              exact hunwritten (List.flatMap_eq_nil_iff.mp hnil f hf)
          · next hempty => exact absurd (List.isEmpty_iff.mpr hnil) hempty
  · intro memspace ha
    cases hctx : ctx.memArrays (memoryId memspace) with
    | some current =>
        rw [switchOn_memArrays_of_held unknown hctx] at ha
        cases ha
    | none =>
        obtain ⟨hinitial, hfirst⟩ := h.absent memspace hctx
        refine ⟨hinitial, ?_⟩
        rw [mergeFirst, hfirst, if_pos List.isEmpty_nil, List.flatMap_eq_nil_iff]
        intro f hf
        obtain ⟨e, he, hrec, -⟩ := exists_of_mem_right hrecorded hf
        refine (hrec.absent memspace ?_).2
        cases hheld : e.2.memArrays (memoryId memspace) with
        | none => rfl
        | some b =>
            have := hused e he memspace (by rw [ExecutionContext.holds, hheld]; rfl)
            rw [ExecutionContext.holds, hctx] at this
            cases this

/-- **The initial contents are those before the first write**, at every moment of every run in which
each branch uses only memory spaces that were used before the branches. -/
theorem recorded_runAll (ops : List (Op V)) : ∀ (ctx : ExecutionContext V) (n : ℕ)
    (first : FirstContents V), UsedBefore unknown ops ctx n → Recorded ctx first →
      Recorded (runAll unknown ops ctx n).1 (firstWrites unknown ops ctx n first) := by
  refine runInduction
    (P := fun op => ∀ ctx n first, op.UsedBefore unknown ctx n → Recorded ctx first →
      Recorded (op.run unknown ctx n).1 (op.firstWrites unknown ctx n first))
    (Q := fun ops => ∀ ctx n first, UsedBefore unknown ops ctx n → Recorded ctx first →
      Recorded (runAll unknown ops ctx n).1 (firstWrites unknown ops ctx n first))
    (R := fun branches => ∀ ctx n first, branchesUsedBefore unknown branches ctx n →
      Recorded ctx first →
        List.Forall₂ (fun e f => Recorded e.2 f ∧ InitialKept ctx e.2)
          (runBranches unknown branches ctx n).1 (branchFirstWrites unknown branches ctx n first))
    ?_ ?_ ?_ ?_ ?_ ?_ ?_ ops
  · intro op hop ctx n first hused h
    exact recorded_step unknown hop hused h
  · intro branches ih ctx n first hused h
    rw [Op.UsedBefore] at hused
    rw [Op.run, Op.firstWrites]
    exact recorded_switchOn unknown h _ hused.1 (ih ctx n first hused.2 h)
  · intro branches pfix ih ctx n first hused h
    rw [Op.UsedBefore] at hused
    exact hused.elim
  · intro ctx n first _ h
    rw [runAll_nil, firstWrites]
    exact h
  · intro op ops hop hops ctx n first hused h
    rw [UsedBefore] at hused
    rw [runAll_cons, firstWrites]
    exact hops _ _ _ hused.2 (hop ctx n first hused.1 h)
  · intro ctx n first _ _
    rw [runBranches, branchFirstWrites]
    exact .nil
  · intro cond ops branches hops hbranches ctx n first hused h
    rw [branchesUsedBefore] at hused
    rw [runBranches_cons, branchFirstWrites]
    exact .cons ⟨hops ctx n first hused.1 h, initialKept_runAll unknown ops ctx n⟩
      (hbranches ctx _ first hused.2 h)

/-- The record at the start of a run. -/
theorem recorded_init (n : ℕ) (localMemoryStart localMemoryEnd : BitVec 64) :
    Recorded (ExecutionContext.init (V := V) unknown n localMemoryStart localMemoryEnd)
      fun _ => [] := by
  have hnone : ∀ memspace, (ExecutionContext.init (V := V) unknown n localMemoryStart
      localMemoryEnd).memArrays (memoryId memspace) = none :=
    fun memspace =>
      ExecutionContext.init_of_ne unknown (memoryId_ne_gepBoundsId memspace 0) n _ _
  constructor
  · intro memspace a ha
    rw [hnone memspace] at ha
    cases ha
  · intro memspace _
    refine ⟨?_, rfl⟩
    rw [ExecutionContext.init_initialMemArrays,
      ExecutionContext.emplace_of_ne (memoryId_ne_initial memspace)]

/-- What `getInitialMemoryContents` gives back at the end of a run with this record. -/
theorem Recorded.getInitialMemoryContents_eq {ctx : ExecutionContext V} {first : FirstContents V}
    (h : Recorded ctx first) (n memspace : ℕ) :
    (∀ c ∈ first (memoryId memspace), ctx.getInitialMemoryContents unknown n memspace = c) ∧
      (first (memoryId memspace) = [] → ctx.getInitialMemoryContents unknown n memspace =
        (ctx.peek unknown n 0 (memoryId memspace)).mem) := by
  unfold ExecutionContext.getInitialMemoryContents
  cases hctx : ctx.memArrays (memoryId memspace) with
  | some a =>
      obtain ⟨b, hinitial, hfirst, hmem⟩ := h.held memspace a hctx
      rw [hinitial]
      refine ⟨fun c hc => (hfirst c hc).symm, fun hnil => ?_⟩
      rw [ExecutionContext.peek, hctx]
      exact (hmem hnil).symm
  | none =>
      obtain ⟨hinitial, hfirst⟩ := h.absent memspace hctx
      rw [hinitial, hfirst]
      exact ⟨nofun, fun _ => rfl⟩

/-- **Initial memory is never changed** in a run where every branch uses only memory spaces that the
context has used before its branches: `getInitialMemoryContents` gives what was there before the
first write, by the context or by any branch, and the current contents when nothing was written. -/
theorem getInitialMemoryContents_eq_first (n : ℕ) (localMemoryStart localMemoryEnd : BitVec 64)
    (ops : List (Op V))
    (h : UsedBefore unknown ops
      (ExecutionContext.init unknown n localMemoryStart localMemoryEnd) (n + 1))
    (memspace : ℕ) :
    let start := ExecutionContext.init unknown n localMemoryStart localMemoryEnd
    let reached := runAll unknown ops start (n + 1)
    let first := firstWrites unknown ops start (n + 1) (fun _ => []) (memoryId memspace)
    (∀ c ∈ first, reached.1.getInitialMemoryContents unknown reached.2 memspace = c) ∧
      (first = [] → reached.1.getInitialMemoryContents unknown reached.2 memspace =
        (reached.1.peek unknown reached.2 0 (memoryId memspace)).mem) :=
  (recorded_runAll unknown ops _ _ _ h
    (recorded_init unknown n localMemoryStart localMemoryEnd)).getInitialMemoryContents_eq
      unknown _ memspace

/-! ### Runs on one memory space -/

/-- The value `7` is written to address `1` of memory space `0`. -/
def writeSeven : Op Unit :=
  .writeExprToMemory (fun _ => 1) (getIntConst 7) 0

/-- A space that is read before the branches that write to it. -/
theorem getInitialMemoryContents_eq_first_read :
    let ops : List (Op Unit) := [.readExprFromMemory 0, .switchOn [(fun _ => true, [writeSeven])]]
    let start := ExecutionContext.init false 0 16 64
    let reached := runAll false ops start 1
    let first := firstWrites false ops start 1 (fun _ => []) (memoryId 0)
    (∀ c ∈ first, reached.1.getInitialMemoryContents false reached.2 0 = c) ∧
      (first = [] → reached.1.getInitialMemoryContents false reached.2 0 =
        (reached.1.peek false reached.2 0 (memoryId 0)).mem) := by
  refine getInitialMemoryContents_eq_first false 0 16 64 _ ?_ 0
  refine ⟨trivial, ⟨fun e he memspace hheld => ?_, ⟨trivial, trivial⟩, trivial⟩, trivial⟩
  obtain rfl := List.mem_singleton.mp he
  by_cases hid : memoryId memspace = memoryId 0
  · rw [hid, ExecutionContext.holds]
    exact congrArg Option.isSome (ExecutionContext.touch_self false
      (ExecutionContext.init (V := Unit) false 0 16 64) 1 (memoryId 0))
  · have hmem := ExecutionContext.set_of_ne hid
      (ExecutionContext.touch false (ExecutionContext.touch false
        (ExecutionContext.init (V := Unit) false 0 16 64) 1 (memoryId 0)) 2 (memoryId 0))
    rw [ExecutionContext.holds] at hheld ⊢
    rw [← hheld]
    refine congrArg Option.isSome (Eq.symm ((hmem _).trans ?_))
    exact (ExecutionContext.touch_of_ne false hid _ 2).1

/-- A space that is first used inside of a branch: the value that the branch wrote to it is given
out as its initial contents. -/
theorem getInitialMemoryContents_ne_first :
    ¬ ∀ (ops : List (Op Unit)) (memspace : ℕ),
      let start := ExecutionContext.init false 0 16 64
      let reached := runAll false ops start 1
      ∀ c ∈ firstWrites false ops start 1 (fun _ => []) (memoryId memspace),
        reached.1.getInitialMemoryContents false reached.2 memspace = c := by
  intro h
  have hfirst : MemArray.mkDefault 0xff ∈ firstWrites false
      [.switchOn [(fun _ => true, [writeSeven])]] (ExecutionContext.init false 0 16 64) 1
      (fun _ => []) (memoryId 0) := List.mem_singleton.mpr rfl
  have heq := h [.switchOn [(fun _ => true, [writeSeven])]] 0 _ hfirst
  have := congrFun (congrFun heq ⟨fun _ => (), fun _ _ => 0⟩) 1
  exact absurd this (by decide)

end SMT

end Borealis
