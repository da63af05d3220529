import Borealis.Defect.DefectManager

/-!
# The null-dereference checker

`CheckNullDereferencePass` visits the loads, stores and address computations of a function.  The
first one it visits on a pointer is checked by the solver, and a later one on the same pointer
copies what is recorded for the first one.

`check` is known by what it finds: it returns at once if the predicate state of the instruction is
empty, and otherwise the solver, which is exact here, says whether the state can hold with the
pointer being null.

## Strategy

Up to the first instruction on the pointer nothing is recorded about the two defects (`Untouched`),
and from then on the record of the first one stays (`Marked`), so that the visit of a later one
finds it.
-/

namespace Borealis

open DefectManager

/-- `llvm::Value*`, as far as the checker looks at it. -/
inductive PointerValue where
  | null
  | constant (id : ℕ)
  | constantGep (id : ℕ) (allZero : Bool) (base : PointerValue)
  | constantCast (id : ℕ) (base : PointerValue)
  | alloca (id : ℕ)
  | call (id : ℕ) (nonNull : Bool)
  | gep (id : ℕ) (allZero : Bool) (base : PointerValue)
  | cast (id : ℕ) (base : PointerValue)
  | other (id : ℕ)
deriving DecidableEq, Repr

namespace PointerValue

/-- `Value::stripPointerCasts`. -/
def stripPointerCasts : PointerValue → PointerValue
  | .constantGep _ true base | .gep _ true base => base.stripPointerCasts
  | .constantCast _ base | .cast _ base => base.stripPointerCasts
  | ptr => ptr

/-- `stripAllOffsets`. -/
def stripAllOffsets : PointerValue → PointerValue
  | .constantGep _ _ base | .gep _ _ base => base.stripAllOffsets
  | base => base.stripPointerCasts

/-- `isNonNull`.  `isDereferenceable` is `Value::isDereferenceablePointer`; the flag of a call says
that the called function is `nonnull` or allocates. -/
def isNonNull (isDereferenceable : PointerValue → Bool) (ptr : PointerValue) : Bool :=
  if isDereferenceable ptr then true
  else
    match ptr with
    | .gep _ _ _ => true
    | ptr =>
      match ptr.stripAllOffsets with
      | .null => false
      | .constant _ | .constantGep _ _ _ | .constantCast _ _ | .alloca _ => true
      | .call _ nonNull => nonNull
      | _ => false

end PointerValue

/-- A load, a store or an address computation, with the defect that stands for it: one of the type
`INI_03` at its location. -/
structure MemoryInst (Defect : Type) where
  id : ℕ
  pointerOperand : PointerValue
  defect : Defect
deriving DecidableEq

/-- What the checker is run with: the instructions that are configured to be skipped, and what
`check` finds out about the others. -/
structure NullChecks (Defect : Type) where
  isDereferenceable : PointerValue → Bool
  shouldSkipInstruction : MemoryInst Defect → Bool
  stateIsEmpty : MemoryInst Defect → Bool
  canBeNull : MemoryInst Defect → Bool

/-- The fields of `CheckNullsVisitor`, with the data of the defect manager. -/
structure CheckNullsVisitor (Defect : Type) where
  p2i : PointerValue → Option (MemoryInst Defect)
  data : PersistentDefectData Defect

variable {Defect : Type} [DecidableEq Defect]

namespace DefectManager.PersistentDefectData

variable (data : PersistentDefectData Defect)

/-- `hasDefect`. -/
def hasDefect (di : Defect) : Bool := di ∈ data.trueData ∪ data.truePastData

/-- `hasInfo`. -/
def hasInfo (di : Defect) : Bool :=
  di ∈ data.trueData ∪ data.truePastData ∪ data.falsePastData ∪ data.falseAbsIntData

/-- `addDefect`. -/
def addDefect (di : Defect) : PersistentDefectData Defect :=
  { data with trueData := insert di data.trueData }

/-- `addNoDefect`. -/
def addNoDefect (di : Defect) : PersistentDefectData Defect :=
  { data with falseData := insert di data.falseData }

/-- The defect as a Boolean record. -/
def record (di : Defect) (verdict : Bool) : PersistentDefectData Defect :=
  if verdict then data.addDefect di else data.addNoDefect di

/-- `CheckHelper::alias`. -/
def aliasTo (inst other : MemoryInst Defect) : PersistentDefectData Defect :=
  data.record inst.defect (data.hasDefect other.defect)

end DefectManager.PersistentDefectData

namespace NullChecks

variable (c : NullChecks Defect)

/-- The pointer that an instruction is checked for; there is none if its operand is syntactically
not null. -/
def target (inst : MemoryInst Defect) : Option PointerValue :=
  if inst.pointerOperand.isNonNull c.isDereferenceable then none
  else some inst.pointerOperand.stripAllOffsets

/-- `CheckHelper::skip`. -/
def skip (data : PersistentDefectData Defect) (inst : MemoryInst Defect) : Bool :=
  c.shouldSkipInstruction inst || data.hasInfo inst.defect

/-- `CheckHelper::check`: nothing is recorded if the state is empty. -/
def check (data : PersistentDefectData Defect) (inst : MemoryInst Defect) :
    PersistentDefectData Defect :=
  if c.stateIsEmpty inst then data else data.record inst.defect (c.canBeNull inst)

/-- `visitMemoryInst`. -/
def visitMemoryInst (v : CheckNullsVisitor Defect) (inst : MemoryInst Defect) :
    CheckNullsVisitor Defect :=
  match c.target inst with
  | none => v
  | some ptr =>
    match v.p2i ptr with
    | some other =>
      if c.skip v.data inst then v else { v with data := v.data.aliasTo inst other }
    | none =>
      let v := { v with p2i := Function.update v.p2i ptr (some inst) }
      if c.skip v.data inst then v else { v with data := c.check v.data inst }

/-- The visits of the instructions of a function, one after the other. -/
def visit (data : PersistentDefectData Defect) (insts : List (MemoryInst Defect)) :
    CheckNullsVisitor Defect :=
  insts.foldl c.visitMemoryInst { p2i := fun _ => none, data }

/-! ## What a visit changes -/

/-- What the data say about a defect: whether it was found, whether anything stops another check of
it, and whether it is recorded as none. -/
def about (data : PersistentDefectData Defect) (d : Defect) : Bool × Bool × Bool :=
  (data.hasDefect d, data.hasInfo d, d ∈ data.falseData)

theorem about_record_of_ne {data : PersistentDefectData Defect} {d di : Defect} (hne : d ≠ di)
    (verdict : Bool) : about (data.record di verdict) d = about data d := by
  cases verdict <;>
    simp [about, PersistentDefectData.record, PersistentDefectData.addDefect,
      PersistentDefectData.addNoDefect, PersistentDefectData.hasDefect,
      PersistentDefectData.hasInfo, hne]

/-- The record of a defect nothing was known of. -/
theorem about_record {data : PersistentDefectData Defect} {d : Defect}
    (hd : about data d = (false, false, false)) (verdict : Bool) :
    (about (data.record d verdict) d).1 = verdict ∧
      (verdict = true → (about (data.record d verdict) d).2.2 = false) := by
  cases verdict <;>
    simp_all [about, PersistentDefectData.record, PersistentDefectData.addDefect,
      PersistentDefectData.addNoDefect, PersistentDefectData.hasDefect,
      PersistentDefectData.hasInfo]

variable {c : NullChecks Defect} {v : CheckNullsVisitor Defect} {inst other : MemoryInst Defect}
  {ptr : PointerValue} {d : Defect}

theorem visitMemoryInst_none (htarget : c.target inst = none) :
    c.visitMemoryInst v inst = v := by
  simp only [visitMemoryInst, htarget]

theorem visitMemoryInst_first (htarget : c.target inst = some ptr) (hv : v.p2i ptr = none) :
    c.visitMemoryInst v inst =
      { p2i := Function.update v.p2i ptr (some inst)
        data := if c.skip v.data inst then v.data else c.check v.data inst } := by
  simp only [visitMemoryInst, htarget, hv]
  split <;> rfl

theorem visitMemoryInst_later (htarget : c.target inst = some ptr)
    (hv : v.p2i ptr = some other) :
    c.visitMemoryInst v inst =
      { v with data := if c.skip v.data inst then v.data else v.data.aliasTo inst other } := by
  simp only [visitMemoryInst, htarget, hv]
  split <;> rfl

/-- A visit says nothing about the other defects. -/
theorem about_visitMemoryInst (hd : (c.target inst).isSome → inst.defect ≠ d) :
    about (c.visitMemoryInst v inst).data d = about v.data d := by
  cases htarget : c.target inst with
  | none => rw [visitMemoryInst_none htarget]
  | some ptr =>
      have hne : d ≠ inst.defect := (hd (by rw [htarget]; rfl)).symm
      cases hv : v.p2i ptr with
      | none =>
          rw [visitMemoryInst_first htarget hv]
          simp only [check]
          split
          · rfl
          · split
            · rfl
            · exact about_record_of_ne hne _
      | some other =>
          rw [visitMemoryInst_later htarget hv]
          simp only [PersistentDefectData.aliasTo]
          split
          · rfl
          · exact about_record_of_ne hne _

/-- The first instruction on a pointer stays the first one. -/
theorem p2i_visitMemoryInst_some (hv : v.p2i ptr = some other) :
    (c.visitMemoryInst v inst).p2i ptr = some other := by
  cases htarget : c.target inst with
  | none => rwa [visitMemoryInst_none htarget]
  | some ptr' =>
      cases hp : v.p2i ptr' with
      | none =>
          have hne : ptr ≠ ptr' := by
            rintro rfl
            simp [hp] at hv
          simp [visitMemoryInst_first htarget hp, hne, hv]
      | some first => rwa [visitMemoryInst_later htarget hp]

theorem p2i_visitMemoryInst_of_ne (hne : c.target inst ≠ some ptr) :
    (c.visitMemoryInst v inst).p2i ptr = v.p2i ptr := by
  cases htarget : c.target inst with
  | none => rw [visitMemoryInst_none htarget]
  | some ptr' =>
      have hne : ptr ≠ ptr' := by
        rintro rfl
        exact hne htarget
      cases hp : v.p2i ptr' with
      | none => simp [visitMemoryInst_first htarget hp, hne]
      | some first => rw [visitMemoryInst_later htarget hp]

section Runs

variable {insts : List (MemoryInst Defect)}

theorem about_foldl (hd : ∀ inst ∈ insts, (c.target inst).isSome → inst.defect ≠ d) :
    about (insts.foldl c.visitMemoryInst v).data d = about v.data d := by
  induction insts generalizing v with
  | nil => rfl
  | cons inst insts ih =>
      rw [List.foldl_cons, ih fun inst' h => hd inst' (List.mem_cons_of_mem _ h)]
      exact about_visitMemoryInst (hd inst List.mem_cons_self)

theorem p2i_foldl_some (hv : v.p2i ptr = some other) :
    (insts.foldl c.visitMemoryInst v).p2i ptr = some other := by
  induction insts generalizing v with
  | nil => exact hv
  | cons inst insts ih => exact ih (p2i_visitMemoryInst_some hv)

theorem p2i_foldl_of_ne (hne : ∀ inst ∈ insts, c.target inst ≠ some ptr) :
    (insts.foldl c.visitMemoryInst v).p2i ptr = v.p2i ptr := by
  induction insts generalizing v with
  | nil => rfl
  | cons inst insts ih =>
      rw [List.foldl_cons, ih fun inst' h => hne inst' (List.mem_cons_of_mem _ h)]
      exact p2i_visitMemoryInst_of_ne (hne inst List.mem_cons_self)

end Runs

/-! ## The two visits that count -/

/-- The first instruction on a pointer. -/
theorem visit_first (htarget : c.target inst = some ptr) (hv : v.p2i ptr = none)
    (hd : about v.data inst.defect = (false, false, false)) :
    (c.visitMemoryInst v inst).p2i ptr = some inst ∧
      ((about (c.visitMemoryInst v inst).data inst.defect).1 = true ↔
        c.shouldSkipInstruction inst = false ∧ c.stateIsEmpty inst = false ∧
          c.canBeNull inst = true) ∧
      ((about (c.visitMemoryInst v inst).data inst.defect).1 = true →
        (about (c.visitMemoryInst v inst).data inst.defect).2.2 = false) := by
  have hinfo : v.data.hasInfo inst.defect = false := congrArg (·.2.1) hd
  have hfound : (about v.data inst.defect).1 = false := congrArg (·.1) hd
  rw [visitMemoryInst_first htarget hv]
  simp only [skip, hinfo, Bool.or_false]
  cases hskip : c.shouldSkipInstruction inst with
  | true => simp [hfound]
  | false =>
      cases hempty : c.stateIsEmpty inst with
      | true => simp [check, hempty, hfound]
      | false =>
          obtain ⟨hrecord, hnot⟩ := about_record hd (c.canBeNull inst)
          simp only [check, hempty, Bool.false_eq_true, if_false, Function.update_self, true_and]
          exact ⟨by rw [hrecord], fun h => hnot (hrecord ▸ h)⟩

/-- A later instruction on a pointer. -/
theorem visit_later (htarget : c.target inst = some ptr) (hv : v.p2i ptr = some other)
    (hd : about v.data inst.defect = (false, false, false)) :
    ((about (c.visitMemoryInst v inst).data inst.defect).1 = true ↔
        c.shouldSkipInstruction inst = false ∧ (about v.data other.defect).1 = true) ∧
      ((about (c.visitMemoryInst v inst).data inst.defect).1 = true →
        (about (c.visitMemoryInst v inst).data inst.defect).2.2 = false) := by
  have hinfo : v.data.hasInfo inst.defect = false := congrArg (·.2.1) hd
  have hfound : (about v.data inst.defect).1 = false := congrArg (·.1) hd
  rw [visitMemoryInst_later htarget hv]
  simp only [skip, hinfo, Bool.or_false]
  cases hskip : c.shouldSkipInstruction inst with
  | true => simp [hfound]
  | false =>
      obtain ⟨hrecord, hnot⟩ := about_record hd (v.data.hasDefect other.defect)
      simp only [PersistentDefectData.aliasTo, Bool.false_eq_true, if_false, true_and]
      exact ⟨by rw [hrecord]; rfl, fun h => hnot (hrecord ▸ h)⟩

/-! ## A function -/

/-- The defect is recorded as one, and not as none. -/
def Recorded (data : PersistentDefectData Defect) (d : Defect) : Prop :=
  (about data d).1 = true ∧ (about data d).2.2 = false

/-- No other checked instruction stands for the defect of this one, and nothing is recorded about
it yet. -/
def Alone (c : NullChecks Defect) (data : PersistentDefectData Defect)
    (insts : List (MemoryInst Defect)) (inst : MemoryInst Defect) : Prop :=
  (∀ other ∈ insts, (c.target other).isSome → other.defect = inst.defect → other = inst) ∧
    about data inst.defect = (false, false, false)

section Visit

variable {data : PersistentDefectData Defect} {insts : List (MemoryInst Defect)}
  {first : MemoryInst Defect}

/-- Visits of other instructions say nothing about the defect of this one. -/
theorem Alone.about_foldl {part : List (MemoryInst Defect)} (halone : c.Alone data insts inst)
    (hpart : ∀ other ∈ part, other ∈ insts) (hinst : inst ∉ part) :
    about (part.foldl c.visitMemoryInst v).data inst.defect = about v.data inst.defect := by
  refine NullChecks.about_foldl fun other hother hsome heq => hinst ?_
  rwa [← halone.1 other (hpart other hother) hsome heq]

/-- The record of the first instruction on a pointer after the instructions up to it. -/
theorem about_first {before : List (MemoryInst Defect)} (hfirst : c.target first = some ptr)
    (hbefore : ∀ other ∈ before, c.target other ≠ some ptr)
    (hmem : ∀ other ∈ before, other ∈ insts) (halone : c.Alone data insts first) :
    ((before ++ [first]).foldl c.visitMemoryInst ⟨fun _ => none, data⟩).p2i ptr = some first ∧
      ((about ((before ++ [first]).foldl c.visitMemoryInst ⟨fun _ => none, data⟩).data
          first.defect).1 = true ↔
        c.shouldSkipInstruction first = false ∧ c.stateIsEmpty first = false ∧
          c.canBeNull first = true) ∧
      ((about ((before ++ [first]).foldl c.visitMemoryInst ⟨fun _ => none, data⟩).data
          first.defect).1 = true →
        (about ((before ++ [first]).foldl c.visitMemoryInst ⟨fun _ => none, data⟩).data
          first.defect).2.2 = false) := by
  rw [List.foldl_append, List.foldl_cons, List.foldl_nil]
  refine visit_first hfirst ?_ ?_
  · rw [p2i_foldl_of_ne hbefore]
  · rw [halone.about_foldl hmem fun hin => hbefore first hin hfirst]
    exact halone.2

end Visit

end NullChecks

/-! ## A function with two loads -/

/-- Two loads through the same argument: the first one under a check of the pointer. -/
def guardedLoad : MemoryInst ℕ := ⟨0, .other 0, 0⟩

/-- The load behind the branch. -/
def bareLoad : MemoryInst ℕ := ⟨1, .other 0, 1⟩

/-- The checks of the two loads, of which the given ones can fail. -/
def loadChecks (canBeNull : MemoryInst ℕ → Bool) : NullChecks ℕ where
  isDereferenceable _ := false
  shouldSkipInstruction _ := false
  stateIsEmpty _ := false
  canBeNull := canBeNull

end Borealis
