import Borealis.SMT.BranchAxioms

/-!
# Constants that make the axioms of a branch true

Given an assignment under which the bounds of a branch are compatible, the constants that the branch
made are chosen anew: the bounds arrays first (`withBounds`), then the memories of the range writes in
the order they were made (`withRanges`).  Each choice touches only constants that everything built
before it ignores, so what was true stays true.
-/

namespace Borealis

namespace SMT

variable {V : Type} (unknown : Bool)

/-! ## Choosing the constants of a branch -/

/-- The constants that a range of operations makes. -/
def madeBetween (s e : ℕ) : Set ArrayName :=
  fun name => ∃ operation id index, s ≤ operation ∧ operation < e ∧ name = .free operation id index

theorem madeBetween_subset_madeFrom {s e n : ℕ} (h : n ≤ s) : madeBetween s e ⊆ madeFrom n := by
  rintro name ⟨operation, id, index, hs, -, rfl⟩
  exact mem_madeFrom (h.trans hs) id index

/-- The assignment with these values for the bounds arrays that some operations make. -/
def Assignment.withBounds (ρ : Assignment V) (s e : ℕ) (bounds : String → Pointer → Byte) :
    Assignment V :=
  { ρ with
    array := fun name =>
      match name with
      | .free operation id 0 =>
        if s ≤ operation ∧ operation < e then bounds id else ρ.array (.free operation id 0)
      | name => ρ.array name }

theorem Assignment.withBounds_array (ρ : Assignment V) {s e t : ℕ} (hs : s ≤ t) (he : t < e)
    (bounds : String → Pointer → Byte) (id : String) :
    (ρ.withBounds s e bounds).array (.free t id 0) = bounds id :=
  if_pos ⟨hs, he⟩

theorem Assignment.agreeOff_withBounds (ρ : Assignment V) (s e : ℕ)
    (bounds : String → Pointer → Byte) :
    AgreeOff (madeBetween s e) ρ (ρ.withBounds s e bounds) := by
  refine ⟨rfl, fun name hname => ?_⟩
  cases name with
  | var name => rfl
  | free operation id index =>
      cases index with
      | zero => exact (if_neg fun h => hname ⟨operation, id, 0, h.1, h.2, rfl⟩).symm
      | succ index => rfl

/-- The assignment with the memory that a range write says it made. -/
def Op.withRange : Op V → ExecutionContext V → ℕ → Assignment V → Assignment V
  | .writeExprRangeToMemory start size val memspace, ctx, n, ρ =>
    ρ.setArray (.free n (memoryId memspace) 1) fun inner =>
      if (start.expr ρ).sle inner ∧ inner.slt (start.expr ρ + size) then val.expr ρ
      else (ctx.peek unknown n 0 (memoryId memspace)).mem ρ inner
  | _, _, _, ρ => ρ

/-- The assignment with the memories of all range writes of a run, in their order. -/
def withRanges : List (Op V) → ExecutionContext V → ℕ → Assignment V → Assignment V
  | [], _, _, ρ => ρ
  | op :: ops, ctx, n, ρ =>
    withRanges ops (op.run unknown ctx n).1 (op.run unknown ctx n).2
      (op.withRange unknown ctx n ρ)

/-- The constants of range writes. -/
def rangesBetween (s e : ℕ) : Set ArrayName :=
  fun name => ∃ operation id, s ≤ operation ∧ operation < e ∧ name = .free operation id 1

theorem rangesBetween_subset (s e : ℕ) : rangesBetween s e ⊆ madeBetween s e := by
  rintro name ⟨operation, id, hs, he, rfl⟩
  exact ⟨operation, id, 1, hs, he, rfl⟩

theorem rangesBetween_mono {s s' e e' : ℕ} (hs : s' ≤ s) (he : e ≤ e') :
    rangesBetween s e ⊆ rangesBetween s' e' := by
  rintro name ⟨operation, id, h, h', rfl⟩
  exact ⟨operation, id, hs.trans h, h'.trans_le he, rfl⟩

theorem Op.agreeOff_withRange (op : Op V) (ctx : ExecutionContext V) (n : ℕ) (ρ : Assignment V) :
    AgreeOff (rangesBetween n (n + 1)) ρ (op.withRange unknown ctx n ρ) := by
  cases op with
  | writeExprRangeToMemory start size val memspace =>
      rw [Op.withRange]
      have hmem : .free n (memoryId memspace) 1 ∈ rangesBetween n (n + 1) :=
        ⟨n, memoryId memspace, Nat.le_refl n, Nat.lt_succ_self n, rfl⟩
      exact Assignment.agreeOff_setArray hmem ρ _
  | _ => exact AgreeOff.refl _ ρ

theorem agreeOff_withRanges {ops : List (Op V)} (hops : ∀ op ∈ ops, op.isMemoryOp = true)
    (ctx : ExecutionContext V) (n : ℕ) (ρ : Assignment V) :
    AgreeOff (rangesBetween n (n + ops.length)) ρ (withRanges unknown ops ctx n ρ) := by
  induction ops generalizing ctx n ρ with
  | nil => exact AgreeOff.refl _ ρ
  | cons op ops ih =>
      rw [withRanges, Op.run_snd (Op.isBasic_of_isMemoryOp (hops op List.mem_cons_self)),
        List.length_cons]
      have hfirst := op.agreeOff_withRange unknown ctx n ρ
      have hrest := ih (fun op' hop' => hops op' (List.mem_cons_of_mem _ hop'))
        (op.run unknown ctx n).1 (n + 1) (op.withRange unknown ctx n ρ)
      exact (hfirst.mono (rangesBetween_mono (Nat.le_refl n) (by omega))).trans
        (hrest.mono (rangesBetween_mono (Nat.le_succ n) (by omega)))

/-- A range write says of its memory what `withRange` makes it. -/
theorem rangeAxiom_withRange {start : ValueExpr V Pointer} {size : BitVec 64}
    {val : ValueExpr V Byte} {memspace : ℕ} {ctx : ExecutionContext V} {n : ℕ}
    (hop : Op.Ignores (madeFrom n) (.writeExprRangeToMemory start size val memspace))
    (hctx : ctx.Ignores (madeFrom n)) {ρ : Assignment V}
    (haxioms : Op.axiomsHold ρ (.writeExprRangeToMemory start size val memspace)) :
    ExecutionContext.rangeAxiom (getEmptyMemoryArray n (memoryId memspace) 1)
      (ctx.peek unknown n 0 (memoryId memspace)).mem start size val
      (Op.withRange unknown (.writeExprRangeToMemory start size val memspace) ctx n ρ) := by
  obtain ⟨⟨hstart, hstart'⟩, hval, hval'⟩ := hop
  have hρ := Op.agreeOff_withRange unknown (.writeExprRangeToMemory start size val memspace) ctx n ρ
  have hsub : rangesBetween n (n + 1) ⊆ madeFrom n :=
    (rangesBetween_subset n (n + 1)).trans (madeBetween_subset_madeFrom (Nat.le_refl n))
  have hcurrent : Ignores (rangesBetween n (n + 1))
      (ctx.peek unknown n 0 (memoryId memspace)).mem := by
    refine (hctx.mono hsub).peek ?_
    rintro ⟨operation, id, -, -, heq⟩
    cases heq
  refine ⟨fun inner => ?_, ?_, ?_⟩
  · rw [← hstart.mono hsub ρ _ hρ, ← hval.mono hsub ρ _ hρ, ← hcurrent ρ _ hρ, Op.withRange,
      getEmptyMemoryArray, MemArray.mkArray, Assignment.setArray_self]
    split <;> rfl
  · rw [← hstart'.mono hsub ρ _ hρ]
    exact haxioms.1
  · rw [← hval'.mono hsub ρ _ hρ]
    exact haxioms.2

/-! ## The axioms of a branch can be made true -/

/-- Under each assignment a new bounds array is its constant, with minus one for null. -/
theorem freshBounds_mem_eq (t memspace : ℕ) (ρ : Assignment V) :
    (ExecutionContext.freshBounds t memspace).mem ρ =
      Function.update (ρ.array (.free t (gepBoundsId memspace) 0)) getNullPtr (-1) := by
  have hcell : splitBytes ((-1 : BitVec 32).signExtend 64) = [-1] := by decide
  unfold ExecutionContext.freshBounds MemArrayWithVersion.store MemArray.store getIntConst
    AnyBitVector.mkConst
  dsimp only
  rw [hcell]
  rfl

/-- `select` reads the array under the assignment only. -/
theorem select_congr {a b : MemArray V} {ρ : Assignment V} (h : a ρ = b ρ)
    (i : Assignment V → Pointer) (size : ℕ) : a.select i size ρ = b.select i size ρ := by
  unfold MemArray.select
  rw [h]

/-- A bound holds in the array that the branch finds for it, when that array has the values that
were chosen for it. -/
theorem boundAxiom_of_chosen {D ctx : ExecutionContext V} {s n : ℕ} (hbounds : BoundsFrom D s n ctx)
    (hs : s ≤ n) {ρ : Assignment V} {bounds : String → Pointer → Byte}
    (hnull : ∀ id, bounds id getNullPtr = -1)
    (hchosen : ∀ t id, s ≤ t → t < n + 1 → ρ.array (.free t id 0) = bounds id)
    {w : BoundWrite V}
    (hshared : ∀ a, D.memArrays (gepBoundsId w.memspace) = some a →
      a.mem.select w.p w.bound.bitSize ρ = w.bound.expr ρ)
    (hown : D.memArrays (gepBoundsId w.memspace) = none →
      MemArray.select (fun _ => bounds (gepBoundsId w.memspace)) w.p w.bound.bitSize ρ =
        w.bound.expr ρ)
    (haxioms : w.bound.axioms ρ) :
    ExecutionContext.boundAxiom (ctx.gepBounds n w.memspace).1.mem w.p w.bound ρ := by
  obtain ⟨hheld, hmade⟩ := hbounds.gepBounds_fst hs w.memspace
  refine ⟨?_, haxioms⟩
  cases hD : D.memArrays (gepBoundsId w.memspace) with
  | some a =>
      rw [hheld a hD]
      exact hshared a hD
  | none =>
      obtain ⟨t, hst, htn, harray⟩ := hmade hD
      rw [harray, ← hown hD]
      refine select_congr ?_ w.p w.bound.bitSize
      rw [freshBounds_mem_eq, hchosen t _ hst htn, ← hnull (gepBoundsId w.memspace),
        Function.update_eq_self]

/-- The expressions of a run mention neither these constants nor such that are not made yet. -/
def Scoped (S : Set ArrayName) : List (Op V) → ℕ → Prop
  | [], _ => True
  | op :: ops, n => op.Ignores (S ∪ madeFrom n) ∧ Scoped S ops (n + 1)

theorem Op.Ignores.mono {S T : Set ArrayName} (hST : S ⊆ T) {op : Op V} (h : op.Ignores T) :
    op.Ignores S := by
  cases op with
  | getGlobalPtr memspace offsetSize origSize => exact ⟨h.1.mono hST, h.2.mono hST⟩
  | getLocalPtr memspace offsetSize origSize => exact ⟨h.1.mono hST, h.2.mono hST⟩
  | writeBound p bound memspace => exact ⟨h.1.mono hST, h.2.1.mono hST, h.2.2.mono hST⟩
  | writeExprToMemory ix val memspace => exact ⟨h.1.mono hST, h.2.mono hST⟩
  | writeExprRangeToMemory start size val memspace =>
      exact ⟨⟨h.1.1.mono hST, h.1.2.mono hST⟩, h.2.1.mono hST, h.2.2.mono hST⟩
  | writeProperty id ix val => exact ⟨h.1.mono hST, h.2.mono hST⟩
  | _ => trivial

/-- The operations of a run without merges are numbered one after the other. -/
theorem runAll_snd {ops : List (Op V)} (hops : ∀ op ∈ ops, op.isMemoryOp = true)
    (ctx : ExecutionContext V) (n : ℕ) : (runAll unknown ops ctx n).2 = n + ops.length := by
  induction ops generalizing ctx n with
  | nil => rw [runAll_nil, List.length_nil, Nat.add_zero]
  | cons op ops ih =>
      rw [runAll_cons, Op.run_snd (Op.isBasic_of_isMemoryOp (hops op List.mem_cons_self)),
        ih fun op' hop' => hops op' (List.mem_cons_of_mem _ hop'), List.length_cons]
      omega

/-- A context mentions what it started with, what its run mentions, and what the run made. -/
theorem ignores_runAll {S : Set ArrayName} {ops : List (Op V)}
    (hops : ∀ op ∈ ops, op.isMemoryOp = true) {n : ℕ} (hscoped : Scoped S ops n)
    (hS : ∀ operation id index, n ≤ operation → .free operation id index ∉ S)
    {ctx : ExecutionContext V} (hctx : ctx.Ignores (S ∪ madeFrom n)) :
    (runAll unknown ops ctx n).1.Ignores (S ∪ madeFrom (n + ops.length)) := by
  induction ops generalizing ctx n with
  | nil =>
      rw [runAll_nil]
      exact hctx
  | cons op ops ih =>
      obtain ⟨hop, hrest⟩ := hscoped
      have hbasic := Op.isBasic_of_isMemoryOp (hops op List.mem_cons_self)
      have hsub : S ∪ madeFrom (n + 1) ⊆ S ∪ madeFrom n :=
        Set.union_subset_union_right S (madeFrom_succ_subset n)
      have hnew : ∀ id index, .free n id index ∉ S ∪ madeFrom (n + 1) := by
        rintro id index (hname | hname)
        · exact hS n id index (Nat.le_refl n) hname
        · exact not_mem_madeFrom (Nat.lt_succ_self n) id index hname
      have hstep := ignores_step hbasic (hop.mono hsub) unknown (hctx.mono hsub) hnew
      rw [runAll_cons, Op.run_snd hbasic, List.length_cons]
      have := ih (fun op' hop' => hops op' (List.mem_cons_of_mem _ hop')) hrest
        (fun operation id index hle => hS operation id index (by omega)) hstep
      rwa [Nat.add_right_comm, Nat.add_assoc] at this

/-- The bound that an operation writes comes with its axioms, and its expressions are settled when
the operation is. -/
theorem Op.boundWrite_spec {op : Op V} {ctx : ExecutionContext V} {w : BoundWrite V}
    (h : op.boundWrite ctx = some w) (n : ℕ) :
    op.added unknown ctx n =
        [ExecutionContext.boundAxiom (ctx.gepBounds n w.memspace).1.mem w.p w.bound] ∧
      (∀ ρ, op.axiomsHold ρ → w.bound.axioms ρ) ∧
      (∀ S, op.Settled S → SMT.Ignores S w.p ∧ SMT.Ignores S w.bound.expr) ∧
      ∀ ρ, op.withRange unknown ctx n ρ = ρ := by
  cases op with
  | getGlobalPtr memspace offsetSize origSize =>
      obtain rfl := Option.some.inj h
      exact ⟨rfl, fun ρ hρ => hρ, fun S hS => ⟨.const _, hS.1⟩, fun ρ => rfl⟩
  | getLocalPtr memspace offsetSize origSize =>
      obtain rfl := Option.some.inj h
      exact ⟨rfl, fun ρ hρ => hρ, fun S hS => ⟨.const _, hS.1⟩, fun ρ => rfl⟩
  | writeBound p bound memspace =>
      obtain rfl := Option.some.inj h
      exact ⟨rfl, fun ρ hρ => hρ, fun S hS => ⟨hS.1, hS.2.1⟩, fun ρ => rfl⟩
  | _ => cases h

theorem Op.axiomsHold_congr {S : Set ArrayName} {ρ ρ' : Assignment V} (hρ : AgreeOff S ρ ρ')
    {op : Op V} (hop : op.Settled S) : op.axiomsHold ρ = op.axiomsHold ρ' := by
  cases op with
  | getGlobalPtr memspace offsetSize origSize => exact hop.2 ρ ρ' hρ
  | getLocalPtr memspace offsetSize origSize => exact hop.2 ρ ρ' hρ
  | writeBound p bound memspace => exact hop.2.2 ρ ρ' hρ
  | writeExprRangeToMemory start size val memspace =>
      exact congrArg₂ And (hop.1 ρ ρ' hρ) (hop.2 ρ ρ' hρ)
  | _ => rfl

theorem settled_of_mem_boundWrites {S : Set ArrayName} {ops : List (Op V)}
    (hops : ∀ op ∈ ops, op.Settled S) {ctx : ExecutionContext V} {n : ℕ} {w : BoundWrite V}
    (hw : w ∈ boundWrites unknown ops ctx n) :
    Ignores S w.p ∧ Ignores S w.bound.expr := by
  induction ops generalizing ctx n with
  | nil => cases hw
  | cons op ops ih =>
      rcases List.mem_append.mp hw with hw | hw
      · obtain ⟨-, -, hsettled, -⟩ :=
          Op.boundWrite_spec unknown (Option.mem_toList.mp hw) n
        exact hsettled S (hops op List.mem_cons_self)
      · exact ih (fun op' hop' => hops op' (List.mem_cons_of_mem _ hop')) hw

/-- The first axioms hold when the memory of a range write is what the write says. -/
theorem holds_op {op : Op V} (hop : op.isMemoryOp = true) {n : ℕ}
    (hscoped : op.Ignores (madeFrom n)) {D ctx : ExecutionContext V} {s e : ℕ}
    (hbounds : BoundsFrom D s n ctx) (hs : s ≤ n) (he : n < e) (hctx : ctx.Ignores (madeFrom n))
    {bounds : String → Pointer → Byte} {ρ : Assignment V}
    (harray : ∀ t id, s ≤ t → t < e → ρ.array (.free t id 0) = bounds id)
    (h : Compatible D bounds (op.boundWrite ctx).toList [op] ρ) :
    ∀ ax ∈ op.added unknown ctx n, ax (op.withRange unknown ctx n ρ) := by
  intro ax hax
  cases hw : op.boundWrite ctx with
  | some w =>
      obtain ⟨hadded, haxioms, -, hrange⟩ := Op.boundWrite_spec unknown hw n
      have hmem : w ∈ (op.boundWrite ctx).toList := Option.mem_toList.mpr hw
      rw [hadded, List.mem_singleton] at hax
      rw [hrange, hax]
      exact boundAxiom_of_chosen hbounds hs h.null
        (fun t id hst htn => harray t id hst (by omega)) (h.shared w hmem) (h.own w hmem)
        (haxioms ρ (h.axioms op List.mem_cons_self))
  | none =>
      cases op with
      | writeExprRangeToMemory start size val memspace =>
          rw [List.mem_singleton.mp hax]
          exact rangeAxiom_withRange unknown hscoped hctx (h.axioms _ List.mem_cons_self)
      | getGlobalPtr memspace offsetSize origSize => cases hw
      | getLocalPtr memspace offsetSize origSize => cases hw
      | writeBound p bound memspace => cases hw
      | _ => cases hax

/-- Constants that settled operations do not read change nothing. -/
theorem Compatible.congr {D : ExecutionContext V} {bounds : String → Pointer → Byte}
    {ops : List (Op V)} {writes : List (BoundWrite V)} {S : Set ArrayName} {ρ ρ' : Assignment V}
    (h : Compatible D bounds writes ops ρ) (hρ : AgreeOff S ρ ρ') (hD : D.Ignores S)
    (hops : ∀ op ∈ ops, op.Settled S)
    (hwrites : ∀ w ∈ writes, Ignores S w.p ∧ Ignores S w.bound.expr) :
    Compatible D bounds writes ops ρ' where
  null := h.null
  shared w hw a ha := by
    obtain ⟨hp, hbound⟩ := hwrites w hw
    have harray : Ignores S a.mem := hD.arrays _ a ha
    rw [← harray.select hp w.bound.bitSize ρ ρ' hρ, ← hbound ρ ρ' hρ]
    exact h.shared w hw a ha
  own w hw hnone := by
    obtain ⟨hp, hbound⟩ := hwrites w hw
    have harray : Ignores (V := V) S fun _ => bounds (gepBoundsId w.memspace) := .const _
    rw [← harray.select hp w.bound.bitSize ρ ρ' hρ, ← hbound ρ ρ' hρ]
    exact h.own w hw hnone
  axioms op hop := (Op.axiomsHold_congr hρ (hops op hop)) ▸ h.axioms op hop

/-- A part of the bounds and operations. -/
theorem Compatible.mono {D : ExecutionContext V} {bounds : String → Pointer → Byte}
    {ops ops' : List (Op V)} {writes writes' : List (BoundWrite V)} {ρ : Assignment V}
    (h : Compatible D bounds writes ops ρ) (hwrites : writes' ⊆ writes) (hops : ops' ⊆ ops) :
    Compatible D bounds writes' ops' ρ :=
  ⟨h.null, fun w hw => h.shared w (hwrites hw), fun w hw => h.own w (hwrites hw),
    fun op hop => h.axioms op (hops hop)⟩

/-- All axioms of a run hold when the memories of its range writes are what the writes say. -/
theorem holds_added {D : ExecutionContext V} {m s e : ℕ} (hms : m ≤ s) (hD : D.Ignores (madeFrom m))
    {bounds : String → Pointer → Byte} {ops : List (Op V)}
    (hops : ∀ op ∈ ops, op.isMemoryOp = true) (hsettled : ∀ op ∈ ops, op.Settled (madeFrom m))
    {n : ℕ} (hscoped : Scoped ∅ ops n) {ctx : ExecutionContext V} (hbounds : BoundsFrom D s n ctx)
    (hs : s ≤ n) (he : n + ops.length ≤ e) (hctx : ctx.Ignores (madeFrom n)) {ρ : Assignment V}
    (harray : ∀ t id, s ≤ t → t < e → ρ.array (.free t id 0) = bounds id)
    (h : Compatible D bounds (boundWrites unknown ops ctx n) ops ρ) :
    ∀ ax ∈ added unknown ops ctx n, ax (withRanges unknown ops ctx n ρ) := by
  induction ops generalizing n ctx ρ with
  | nil => nofun
  | cons op ops ih =>
      obtain ⟨hop, hrest⟩ := hscoped
      have hmem := hops op List.mem_cons_self
      have hops' : ∀ op' ∈ ops, op'.isMemoryOp = true :=
        fun op' hop' => hops op' (List.mem_cons_of_mem _ hop')
      have hsettled' : ∀ op' ∈ ops, op'.Settled (madeFrom m) :=
        fun op' hop' => hsettled op' (List.mem_cons_of_mem _ hop')
      have hsnd := Op.run_snd (Op.isBasic_of_isMemoryOp hmem) unknown ctx n
      have hop : op.Ignores (madeFrom n) := hop.mono Set.subset_union_right
      rw [List.length_cons] at he
      -- what the operation leaves to the rest of the run
      have hnext : (op.run unknown ctx n).1.Ignores (madeFrom (n + 1)) :=
        ignores_step (Op.isBasic_of_isMemoryOp hmem) (hop.mono (madeFrom_succ_subset n)) unknown
          (hctx.mono (madeFrom_succ_subset n))
          fun id index => not_mem_madeFrom (Nat.lt_succ_self n) id index
      have hrange := op.agreeOff_withRange unknown ctx n ρ
      have hsub : rangesBetween n (n + 1) ⊆ madeFrom m :=
        (rangesBetween_subset n (n + 1)).trans (madeBetween_subset_madeFrom (hms.trans hs))
      have harray' : ∀ t id, s ≤ t → t < e →
          (op.withRange unknown ctx n ρ).array (.free t id 0) = bounds id := by
        intro t id hst hte
        rw [← hrange.array _ ?_]
        · exact harray t id hst hte
        · rintro ⟨operation, id', -, -, heq⟩
          cases heq
      have hcompatible : Compatible D bounds
          (boundWrites unknown ops (op.run unknown ctx n).1 (n + 1)) ops
          (op.withRange unknown ctx n ρ) := by
        rw [boundWrites, hsnd] at h
        exact (h.mono (List.subset_append_right _ _) (List.subset_cons_self _ _)).congr
          (hrange.mono hsub) hD hsettled'
          fun w hw => settled_of_mem_boundWrites unknown hsettled' hw
      rw [added, withRanges, hsnd]
      intro ax hax
      rcases List.mem_append.mp hax with hax | hax
      · exact ih hops' hsettled' hrest (boundsFrom_op unknown hmem hbounds hs)
          (hs.trans (Nat.le_succ n)) (by omega) hnext harray' hcompatible ax hax
      · -- the later memories are constants that this axiom does not mention
        have hfirst : ax (op.withRange unknown ctx n ρ) := by
          rw [boundWrites] at h
          exact holds_op unknown hmem hop hbounds hs (by omega : n < e) hctx harray
            (h.mono (List.subset_append_left _ _)
              (List.cons_subset_cons op (List.nil_subset ops))) ax hax
        have hignores : Ignores (madeFrom (n + 1)) ax := by
          refine hnext.axioms ax ?_
          rw [contextAxioms_op unknown hmem]
          exact List.mem_append_left _ hax
        have hlater := agreeOff_withRanges unknown hops' (op.run unknown ctx n).1 (n + 1)
          (op.withRange unknown ctx n ρ)
        have hsub' : rangesBetween (n + 1) (n + 1 + ops.length) ⊆ madeFrom (n + 1) :=
          (rangesBetween_subset _ _).trans (madeBetween_subset_madeFrom (Nat.le_refl _))
        rw [← hignores _ _ (hlater.mono hsub')]
        exact hfirst

/-- The axioms that a branch adds can be made true by its own constants. -/
theorem exists_holds_added {D : ExecutionContext V} {m n : ℕ} (hmn : m ≤ n)
    (hD : D.Ignores (madeFrom m)) {ops : List (Op V)}
    (hops : ∀ op ∈ ops, op.isMemoryOp = true) (hsettled : ∀ op ∈ ops, op.Settled (madeFrom m))
    (hscoped : Scoped ∅ ops n) {ρ : Assignment V} (h : NoConflict unknown D ops n ρ) :
    ∃ ρ', AgreeOff (madeBetween n (n + ops.length)) ρ ρ' ∧
      ∀ ax ∈ added unknown ops D n, ax ρ' := by
  obtain ⟨bounds, h⟩ := h
  have hbounds := ρ.agreeOff_withBounds n (n + ops.length) bounds
  have hranges := agreeOff_withRanges unknown hops D n (ρ.withBounds n (n + ops.length) bounds)
  refine ⟨_, hbounds.trans (hranges.mono (rangesBetween_subset _ _)), ?_⟩
  refine holds_added unknown hmn hD hops hsettled hscoped (BoundsFrom.refl D n n) (Nat.le_refl n)
    (Nat.le_refl _) (hD.mono (madeFrom_mono hmn))
    (fun t id hst hte => ρ.withBounds_array hst hte bounds id) ?_
  exact h.congr (hbounds.mono (madeBetween_subset_madeFrom hmn)) hD hsettled
    fun w hw => settled_of_mem_boundWrites unknown hsettled hw

/-! ## The other branches together -/

/-- Every branch has a property, with the number of its first operation. -/
def EachBranch (P : List (Op V) → ℕ → Prop) :
    List ((Assignment V → Bool) × List (Op V)) → ℕ → Prop
  | [], _ => True
  | (_, ops) :: branches, n => P ops n ∧ EachBranch P branches (n + ops.length)

theorem EachBranch.imp {P Q : List (Op V) → ℕ → Prop}
    {branches : List ((Assignment V → Bool) × List (Op V))}
    (hPQ : ∀ branch ∈ branches, ∀ n, P branch.2 n → Q branch.2 n) {n : ℕ}
    (h : EachBranch P branches n) : EachBranch Q branches n := by
  induction branches generalizing n with
  | nil => trivial
  | cons branch branches ih =>
      obtain ⟨cond, ops⟩ := branch
      exact ⟨hPQ _ List.mem_cons_self n h.1,
        ih (fun b hb => hPQ b (List.mem_cons_of_mem _ hb)) h.2⟩

/-- The operations of a branch are on memory and bounds. -/
def OnMemory (branches : List ((Assignment V → Bool) × List (Op V))) : Prop :=
  ∀ branch ∈ branches, ∀ op ∈ branch.2, op.isMemoryOp = true

theorem runBranches_append (branches branches' : List ((Assignment V → Bool) × List (Op V)))
    (ctx : ExecutionContext V) (n : ℕ) :
    runBranches unknown (branches ++ branches') ctx n =
      ((runBranches unknown branches ctx n).1 ++
        (runBranches unknown branches' ctx (runBranches unknown branches ctx n).2).1,
        (runBranches unknown branches' ctx (runBranches unknown branches ctx n).2).2) := by
  induction branches generalizing n with
  | nil =>
      rw [List.nil_append, runBranches]
      rfl
  | cons branch branches ih =>
      obtain ⟨cond, ops⟩ := branch
      rw [List.cons_append, runBranches_cons, runBranches_cons, ih]
      rfl

theorem le_runBranches_snd {branches : List ((Assignment V → Bool) × List (Op V))}
    (hops : OnMemory branches) (ctx : ExecutionContext V) (n : ℕ) :
    n ≤ (runBranches unknown branches ctx n).2 := by
  induction branches generalizing n with
  | nil => rw [runBranches]
  | cons branch branches ih =>
      obtain ⟨cond, ops⟩ := branch
      rw [runBranches_cons, runAll_snd unknown (hops _ List.mem_cons_self)]
      exact (Nat.le_add_right n _).trans
        (ih (fun b hb => hops b (List.mem_cons_of_mem _ hb)) _)

/-- What is after the branches is mentioned by none of them. -/
theorem ignores_runBranches {branches : List ((Assignment V → Bool) × List (Op V))}
    (hops : OnMemory branches) {n : ℕ} (hscoped : EachBranch (Scoped ∅) branches n)
    {D : ExecutionContext V} (hD : D.Ignores (madeFrom n)) :
    ∀ e ∈ (runBranches unknown branches D n).1,
      e.2.Ignores (madeFrom (runBranches unknown branches D n).2) := by
  induction branches generalizing n with
  | nil =>
      rw [runBranches]
      exact fun e he => absurd he List.not_mem_nil
  | cons branch branches ih =>
      obtain ⟨cond, ops⟩ := branch
      have hhead := hops _ List.mem_cons_self
      have htail : OnMemory branches := fun b hb => hops b (List.mem_cons_of_mem _ hb)
      have hsnd := runAll_snd unknown hhead D n
      rw [runBranches_cons, hsnd]
      refine List.forall_mem_cons.mpr ⟨?_, ih htail hscoped.2
        (hD.mono (madeFrom_mono (Nat.le_add_right n _)))⟩
      have := ignores_runAll unknown hhead hscoped.1 (fun _ _ _ _ h => h)
        (hD.mono (Set.union_subset (Set.empty_subset _) (Set.Subset.refl _)))
      exact this.mono ((madeFrom_mono (le_runBranches_snd unknown htail D _)).trans
        Set.subset_union_right)

/-- The axioms that branches add can be made true by their own constants. -/
theorem exists_holds_branches {D : ExecutionContext V} {m n : ℕ} (hmn : m ≤ n)
    (hD : D.Ignores (madeFrom m)) {branches : List ((Assignment V → Bool) × List (Op V))}
    (hops : OnMemory branches)
    (hsettled : ∀ branch ∈ branches, ∀ op ∈ branch.2, op.Settled (madeFrom m))
    (hscoped : EachBranch (Scoped ∅) branches n) {ρ : Assignment V}
    (h : EachBranch (fun ops k => NoConflict unknown D ops k ρ) branches n) :
    ∃ ρ', AgreeOff (madeBetween n (runBranches unknown branches D n).2) ρ ρ' ∧
      ∀ e ∈ (runBranches unknown branches D n).1, ∀ ax ∈ e.2.contextAxioms,
        ax ∈ D.contextAxioms ∨ ax ρ' := by
  induction branches generalizing n ρ with
  | nil =>
      rw [runBranches]
      exact ⟨ρ, AgreeOff.refl _ ρ, fun e he => absurd he List.not_mem_nil⟩
  | cons branch branches ih =>
      obtain ⟨cond, ops⟩ := branch
      have hhead := hops _ List.mem_cons_self
      have htail : OnMemory branches := fun b hb => hops b (List.mem_cons_of_mem _ hb)
      have hsettled' : ∀ b ∈ branches, ∀ op ∈ b.2, op.Settled (madeFrom m) :=
        fun b hb => hsettled b (List.mem_cons_of_mem _ hb)
      obtain ⟨ρ₁, hρ₁, hadded⟩ := exists_holds_added unknown hmn hD hhead
        (hsettled _ List.mem_cons_self) hscoped.1 h.1
      have hnext : EachBranch (fun ops k => NoConflict unknown D ops k ρ₁) branches
          (n + ops.length) := by
        refine h.2.imp fun b hb k hconflict => ?_
        obtain ⟨bounds, hcompatible⟩ := hconflict
        exact ⟨bounds, hcompatible.congr (hρ₁.mono (madeBetween_subset_madeFrom hmn)) hD
          (hsettled' b hb) fun w hw => settled_of_mem_boundWrites unknown (hsettled' b hb) hw⟩
      obtain ⟨ρ₂, hρ₂, hrest⟩ := ih (hmn.trans (Nat.le_add_right n _)) htail hsettled'
        hscoped.2 hnext
      rw [runBranches_cons, runAll_snd unknown hhead]
      have hle := le_runBranches_snd unknown htail D (n + ops.length)
      refine ⟨ρ₂, ?_, List.forall_mem_cons.mpr ⟨fun ax hax => ?_, hrest⟩⟩
      · refine (hρ₁.mono ?_).trans (hρ₂.mono ?_)
        · rintro name ⟨operation, id, index, hs, he, rfl⟩
          exact ⟨operation, id, index, hs, he.trans_le hle, rfl⟩
        · rintro name ⟨operation, id, index, hs, he, rfl⟩
          exact ⟨operation, id, index, by omega, he, rfl⟩
      · dsimp only at hax
        have hignores := ignores_runAll unknown hhead hscoped.1 (fun _ _ _ _ h => h)
          (hD.mono (Set.union_subset (Set.empty_subset _) (madeFrom_mono hmn)))
        have hax' := (hignores.mono Set.subset_union_right).axioms ax hax
        rw [contextAxioms_runAll unknown hhead] at hax
        rcases List.mem_append.mp hax with hax | hax
        · right
          rw [← hax' _ _ (hρ₂.mono (madeBetween_subset_madeFrom (Nat.le_refl _)))]
          exact hadded ax hax
        · exact Or.inl hax

end SMT

end Borealis
