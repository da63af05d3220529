import Borealis.SMT.Logic
import Borealis.Term.TermFactory
import Mathlib

/-!
# Recovered models

`Model::query` of `SMT/Model.cpp`, and `recollectModel` and `recollectMemory` of
`SMT/Z3/Solver.cpp`, which fill a model from a satisfying assignment.  The keys of a map are
compared as terms are, by name and not by type, and the term of a pointer value is a number.

## Strategy

What is recorded for a pointer is what the last one of its address and memory space reads
(`recorded_eq`).  `query` answers a term where `Returns` holds, and `Resolves` is the answer; it
reads through the answer for the operand of a cast or a load without a look at it.
-/

namespace Borealis

namespace RecoveredModel

open SMT (MemArray Assignment)

/-! ## Models -/

/-- A map from terms; equal keys are one. -/
abbrev TermMap := Term → Option Term

/-- An assignment to `operator[]`. -/
def assign (map : TermMap) (key value : Term) : TermMap := fun t =>
  if t.equals key then some value else map t

/-- `MemoryShape`. -/
structure MemoryShape where
  initial : TermMap
  final : TermMap

/-- `Model`. -/
structure Model where
  assignments : TermMap
  memories : ℕ → Option MemoryShape
  bounds : ℕ → Option MemoryShape
  properties : String → Option MemoryShape

/-- `TermUtils::stripCasts`. -/
def stripCasts : Term → Term
  | .mk _ (.cast _) _ _ [rhv] => stripCasts rhv
  | .mk _ .axiomTerm _ _ [_, rhv] => stripCasts rhv
  | t => t

theorem sizeOf_stripCasts_le (t : Term) : sizeOf (stripCasts t) ≤ sizeOf t := by
  fun_induction stripCasts t with
  | case1 obj signExtend type name rhv ih =>
      simp only [Term.mk.sizeOf_spec, List.cons.sizeOf_spec]
      omega
  | case2 obj type name lhv rhv ih =>
      simp only [Term.mk.sizeOf_spec, List.cons.sizeOf_spec]
      omega
  | case3 t => exact le_rfl

/-- The memory space of a pointer, and of other terms that are used as one. -/
def memspaceOf (t : Term) : ℕ :=
  match t.getType with
  | .pointer _ memspace => memspace
  | _ => 0

/-- What a query does: nothing is a failure, and then comes a null or a term. -/
abbrev Outcome := Option (Option Term)

variable (FN : TermFactory)

/-- `query` of a term. -/
def queryTerm (m : Model) (t : Term) : Outcome :=
  if t.isConstantTerm then some (some t)
  else if t.isNamedTerm then some (m.assignments t)
  else
    match t with
    | .mk _ (.cast signExtend) type _ [rhv] =>
        match queryTerm m rhv with
        | some (some resolve) => some (some (FN.getCastTerm type signExtend resolve))
        | _ => none
    | .mk _ .load _ _ [ptr] =>
        match queryTerm m ptr with
        | some (some resolved) =>
            let reptr := stripCasts resolved
            match m.memories (memspaceOf reptr) with
            | none => some none
            | some shape => some (shape.final reptr)
        | _ => none
    | .mk _ .bound _ _ [rhv] =>
        match queryTerm m (stripCasts rhv) with
        | some (some resolved) =>
            let reptr := stripCasts resolved
            match m.memories (memspaceOf reptr) with
            | none => some none
            | some _ =>
                match m.bounds (memspaceOf reptr) with
                | none => none
                | some shape => some (shape.final reptr)
        | _ => none
    | .mk _ .readProperty _ _ [propertyName, rhv] =>
        match queryTerm m (stripCasts rhv) with
        | some (some resolved) =>
            match m.properties propertyName.getName with
            | none => some none
            | some shape => some (shape.final (stripCasts resolved))
        | _ => none
    | _ => none
termination_by sizeOf t
decreasing_by
  all_goals
    simp only [Term.mk.sizeOf_spec, List.cons.sizeOf_spec]
    try have := sizeOf_stripCasts_le rhv
    omega

attribute [local simp] queryTerm

/-- `query`; the casts that it tries first do not take a null. -/
def query (m : Model) : Option Term → Outcome
  | none => none
  | some t => queryTerm FN m t

/-! ## What is recovered -/

/-- A value of the solver. -/
inductive Z3Value
  | bv (width : ℕ) (v : BitVec width)
  | real (q : ℚ)
  | bool (b : Bool)

/-- The double that the division of a numerator and a denominator gives: its text, and its value. -/
structure Doubles where
  text : ℚ → String
  read : String → ℚ

/-- `undoThat`. -/
def undoThat (doubles : Doubles) (witness : Ty) : Z3Value → Term
  | .bv width v =>
      if 64 < width then
        .mk 0 (.opaqueBigIntConstant (toString v.toNat)) witness (toString v.toNat) []
      else TermFactory.getIntTerm (BitVec.ofNat 64 v.toNat).toInt witness
  | .real q => .mk 0 .opaqueFloatingConstant witness (doubles.text q) []
  | .bool b => TermFactory.getBooleanTerm b

/-- A satisfying assignment, and what the translation in the context at its end makes of terms; the
memory and the bounds of a space are those at the start and at the end. -/
structure Assigned (V : Type) where
  assignment : Assignment V
  value : Term → Z3Value
  address : Term → SMT.Pointer
  initialMemory : ℕ → MemArray V
  currentMemory : ℕ → MemArray V
  initialGepBounds : ℕ → MemArray V
  currentGepBounds : ℕ → MemArray V
  sizeForType : Ty → ℕ

variable {V : Type} (doubles : Doubles) (a : Assigned V)

namespace Assigned

/-- `TypeUtils::getPointerElementType`. -/
def element (ptr : Term) : Ty :=
  match ptr.getType with
  | .pointer pointed _ => pointed
  | type => type

/-- What a memory has at a pointer. -/
def select (memory : ℕ → MemArray V) (ptr : Term) : BitVec (a.sizeForType (element ptr)) :=
  (memory (memspaceOf ptr)).select (fun _ => a.address ptr) _ a.assignment

/-- What an array of bounds has at a pointer. -/
def bound (bounds : ℕ → MemArray V) (ptr : Term) : BitVec 64 :=
  bounds (memspaceOf ptr) a.assignment (a.address ptr)

/-- `undonePtr`. -/
def undonePtr (ptr : Term) : Term :=
  undoThat doubles ptr.getType (.bv 64 (a.address ptr))

/-- The term of a value that a memory has at a pointer. -/
def undoneValue (memory : ℕ → MemArray V) (ptr : Term) : Term :=
  undoThat doubles (element ptr) (.bv _ (a.select memory ptr))

/-- The term of a value that the bounds have at a pointer. -/
def undoneBound (bounds : ℕ → MemArray V) (ptr : Term) : Term :=
  undoThat doubles (.integer 64 .unsigned) (.bv 64 (a.bound bounds ptr))

end Assigned

/-- The assignments to both shapes of a space, which is made if it is not there. -/
def assignShapes (shapes : ℕ → Option MemoryShape) (memspace : ℕ) (key initial final : Term) :
    ℕ → Option MemoryShape :=
  let shape := (shapes memspace).getD ⟨fun _ => none, fun _ => none⟩
  Function.update shapes memspace
    (some ⟨assign shape.initial key initial, assign shape.final key final⟩)

/-- The body of the loop of `recollectMemory`.  Both bounds are read from the current ones. -/
def recollectPtr (m : Model) (ptr : Term) : Model :=
  { m with
    memories := assignShapes m.memories (memspaceOf ptr) (a.undonePtr doubles ptr)
      (a.undoneValue doubles a.initialMemory ptr) (a.undoneValue doubles a.currentMemory ptr)
    bounds := assignShapes m.bounds (memspaceOf ptr) (a.undonePtr doubles ptr)
      (a.undoneBound doubles a.currentGepBounds ptr)
      (a.undoneBound doubles a.currentGepBounds ptr) }

/-- `recollectMemory`. -/
def recollectMemory (m : Model) (ptrs : List Term) : Model :=
  ptrs.foldl (recollectPtr doubles a) m

/-- `recollectModel`. -/
def recollectModel (vars : List Term) : TermMap := fun t =>
  (vars.find? fun var => t.equals var).map fun var =>
    undoThat doubles var.getType (a.value var)

/-- The model of a satisfiable query. -/
def recollect (vars ptrs : List Term) : Model :=
  recollectMemory doubles a
    ⟨recollectModel doubles a vars, fun _ => none, fun _ => none, fun _ => none⟩ ptrs

/-! ## What is recorded for a pointer -/

/-- The entries of a space. -/
def entryOf (shapes : ℕ → Option MemoryShape) (side : MemoryShape → TermMap) (memspace : ℕ)
    (key : Term) : Option Term :=
  (shapes memspace).bind fun shape => side shape key

/-- The last pointer of a space whose term is the key. -/
def lastAt (ptrs : List Term) (memspace : ℕ) (key : Term) : Option Term :=
  ptrs.reverse.find? fun ptr => decide (memspaceOf ptr = memspace) &&
    key.equals (a.undonePtr doubles ptr)

theorem entryOf_assignShapes (shapes : ℕ → Option MemoryShape) (memspace memspace' : ℕ)
    (key key' initial final : Term) :
    entryOf (assignShapes shapes memspace key initial final) MemoryShape.initial memspace' key' =
        (if memspace = memspace' ∧ key'.equals key = true then some initial
          else entryOf shapes MemoryShape.initial memspace' key') ∧
      entryOf (assignShapes shapes memspace key initial final) MemoryShape.final memspace' key' =
        (if memspace = memspace' ∧ key'.equals key = true then some final
          else entryOf shapes MemoryShape.final memspace' key') := by
  unfold entryOf assignShapes
  by_cases hspace : memspace = memspace'
  · subst hspace
    rw [Function.update_self]
    cases shapes memspace <;> simp [assign]
  · rw [Function.update_of_ne (Ne.symm hspace)]
    simp [hspace]

/-- What one round records. -/
theorem recorded_recollectPtr (m : Model) (ptr : Term) (memspace : ℕ) (key : Term) :
    let here := memspaceOf ptr = memspace ∧ key.equals (a.undonePtr doubles ptr) = true
    let next := recollectPtr doubles a m ptr
    entryOf next.memories MemoryShape.initial memspace key =
        (if here then some (a.undoneValue doubles a.initialMemory ptr)
          else entryOf m.memories MemoryShape.initial memspace key) ∧
      entryOf next.memories MemoryShape.final memspace key =
        (if here then some (a.undoneValue doubles a.currentMemory ptr)
          else entryOf m.memories MemoryShape.final memspace key) ∧
      entryOf next.bounds MemoryShape.initial memspace key =
        (if here then some (a.undoneBound doubles a.currentGepBounds ptr)
          else entryOf m.bounds MemoryShape.initial memspace key) ∧
      entryOf next.bounds MemoryShape.final memspace key =
        (if here then some (a.undoneBound doubles a.currentGepBounds ptr)
          else entryOf m.bounds MemoryShape.final memspace key) := by
  intro here next
  have hmemories := entryOf_assignShapes m.memories (memspaceOf ptr) memspace
    (a.undonePtr doubles ptr) key (a.undoneValue doubles a.initialMemory ptr)
    (a.undoneValue doubles a.currentMemory ptr)
  have hbounds := entryOf_assignShapes m.bounds (memspaceOf ptr) memspace
    (a.undonePtr doubles ptr) key (a.undoneBound doubles a.currentGepBounds ptr)
    (a.undoneBound doubles a.currentGepBounds ptr)
  exact ⟨hmemories.1, hmemories.2, hbounds.1, hbounds.2⟩

theorem recollect_append (vars ptrs : List Term) (ptr : Term) :
    recollect doubles a vars (ptrs ++ [ptr]) =
      recollectPtr doubles a (recollect doubles a vars ptrs) ptr := by
  rw [recollect, recollectMemory, List.foldl_append]
  rfl

/-- **What is recorded** is what the last pointer of the key reads. -/
theorem recorded_eq (vars ptrs : List Term) (memspace : ℕ) (key : Term) :
    let m := recollect doubles a vars ptrs
    let last := lastAt doubles a ptrs memspace key
    entryOf m.memories MemoryShape.initial memspace key =
        last.map (a.undoneValue doubles a.initialMemory) ∧
      entryOf m.memories MemoryShape.final memspace key =
        last.map (a.undoneValue doubles a.currentMemory) ∧
      entryOf m.bounds MemoryShape.initial memspace key =
        last.map (a.undoneBound doubles a.currentGepBounds) ∧
      entryOf m.bounds MemoryShape.final memspace key =
        last.map (a.undoneBound doubles a.currentGepBounds) := by
  induction ptrs using List.reverseRecOn with
  | nil => exact ⟨rfl, rfl, rfl, rfl⟩
  | append_singleton ptrs ptr ih =>
      have hstep := recorded_recollectPtr doubles a (recollect doubles a vars ptrs) ptr memspace key
      have hnext := recollect_append doubles a vars ptrs ptr
      have hlast : lastAt doubles a (ptrs ++ [ptr]) memspace key =
          if memspaceOf ptr = memspace ∧ key.equals (a.undonePtr doubles ptr) = true then some ptr
          else lastAt doubles a ptrs memspace key := by
        rw [lastAt, List.reverse_append, List.reverse_singleton, List.singleton_append,
          List.find?_cons]
        by_cases hspace : memspaceOf ptr = memspace
        · cases hkey : key.equals (a.undonePtr doubles ptr) <;> simp [hspace, lastAt]
        · simp [hspace, lastAt]
      intro m last
      obtain ⟨h₁, h₂, h₃, h₄⟩ := hstep
      obtain ⟨ih₁, ih₂, ih₃, ih₄⟩ := ih
      rw [show m = _ from hnext, show last = _ from hlast, h₁, h₂, h₃, h₄, ih₁, ih₂, ih₃, ih₄]
      split <;> exact ⟨rfl, rfl, rfl, rfl⟩

/-! ## Numbers -/

/-- What a term or a value of the solver stands for. -/
inductive Meaning
  | number (n : ℕ)
  | real (q : ℚ)
  | bool (b : Bool)

def Z3Value.meaning : Z3Value → Meaning
  | .bv _ v => .number v.toNat
  | .real q => .real q
  | .bool b => .bool b

/-- What a constant term stands for; an integer constant is a number of 64 bits. -/
def meaning (t : Term) : Option Meaning :=
  match t.cls with
  | .opaqueIntConstant i => some (.number (BitVec.ofInt 64 i).toNat)
  | .opaqueBigIntConstant representation =>
      some (.number (Nat.ofDigitChars 10 representation.toList 0))
  | .opaqueFloatingConstant => some (.real (doubles.read t.getName))
  | .opaqueBoolConstant b => some (.bool b)
  | _ => none

/-- A double is the value. -/
def Z3Value.Exact (v : Z3Value) : Prop :=
  ∀ q, v = .real q → doubles.read (doubles.text q) = q

/-- **What the term of a value stands for.** -/
theorem meaning_undoThat (witness : Ty) (v : Z3Value) :
    meaning doubles (undoThat doubles witness v) = some v.meaning ↔ v.Exact doubles := by
  cases v with
  | bv width v =>
      refine iff_of_true ?_ fun q h => Z3Value.noConfusion h
      rw [undoThat]
      split
      · have hdigits : Nat.ofDigitChars 10 (toString v.toNat).toList 0 = v.toNat := by
          rw [Nat.toString_eq_repr, Nat.toList_repr,
            Nat.ofDigitChars_toDigits (by decide) (by decide)]
        exact congrArg (fun n => some (Meaning.number n)) hdigits
      · next hsmall =>
          have hlt : v.toNat < 2 ^ 64 :=
            v.isLt.trans_le (Nat.pow_le_pow_right (by decide) (not_lt.mp hsmall))
          have hnumber : (BitVec.ofInt 64 (BitVec.ofNat 64 v.toNat).toInt).toNat = v.toNat := by
            rw [BitVec.ofInt_toInt, BitVec.toNat_ofNat, Nat.mod_eq_of_lt hlt]
          exact congrArg (fun n => some (Meaning.number n)) hnumber
  | real q =>
      constructor
      · intro h q' hq'
        cases hq'
        exact Meaning.real.inj (Option.some.inj h)
      · intro h
        exact congrArg (fun q => some (Meaning.real q)) (h q rfl)
  | bool b => exact iff_of_true rfl fun q h => Z3Value.noConfusion h

/-! ## What is queried -/

/-- The answer of a query that has one: no property is ever recorded. -/
inductive Resolves (vars ptrs : List Term) : Term → Term → Prop
  | constant {t : Term} : t.isConstantTerm = true → Resolves vars ptrs t t
  | named {t value : Term} : t.isNamedTerm = true → recollectModel doubles a vars t = some value →
      Resolves vars ptrs t value
  | cast {obj : ℕ} {signExtend : Bool} {type : Ty} {name : String} {rhv u : Term} :
      Resolves vars ptrs rhv u →
      Resolves vars ptrs (.mk obj (.cast signExtend) type name [rhv])
        (FN.getCastTerm type signExtend u)
  | load {obj : ℕ} {type : Ty} {name : String} {ptr u last : Term} :
      Resolves vars ptrs ptr u →
      lastAt doubles a ptrs (memspaceOf (stripCasts u)) (stripCasts u) = some last →
      Resolves vars ptrs (.mk obj .load type name [ptr])
        (a.undoneValue doubles a.currentMemory last)
  | bound {obj : ℕ} {type : Ty} {name : String} {rhv u last : Term} :
      Resolves vars ptrs (stripCasts rhv) u →
      lastAt doubles a ptrs (memspaceOf (stripCasts u)) (stripCasts u) = some last →
      Resolves vars ptrs (.mk obj .bound type name [rhv])
        (a.undoneBound doubles a.currentGepBounds last)

/-- What can be queried: a constant or a named term, or a term whose operand has an answer. -/
def Returns (vars ptrs : List Term) (t : Term) : Prop :=
  t.isConstantTerm = true ∨ t.isNamedTerm = true ∨
    match t with
    | .mk _ (.cast _) _ _ [rhv] => ∃ u, Resolves FN doubles a vars ptrs rhv u
    | .mk _ .load _ _ [ptr] => ∃ u, Resolves FN doubles a vars ptrs ptr u
    | .mk _ .bound _ _ [rhv] => ∃ u, Resolves FN doubles a vars ptrs (stripCasts rhv) u
    | .mk _ .readProperty _ _ [_, rhv] => ∃ u, Resolves FN doubles a vars ptrs (stripCasts rhv) u
    | _ => False

section Query

variable (vars ptrs : List Term)

theorem assignments_recollect :
    (recollect doubles a vars ptrs).assignments = recollectModel doubles a vars := by
  induction ptrs using List.reverseRecOn with
  | nil => rfl
  | append_singleton ptrs ptr ih =>
      rw [recollect_append]
      exact ih

/-- No property is recorded. -/
theorem properties_recollect : (recollect doubles a vars ptrs).properties = fun _ => none := by
  induction ptrs using List.reverseRecOn with
  | nil => rfl
  | append_singleton ptrs ptr ih =>
      rw [recollect_append]
      exact ih

/-- A space that has a memory has its bounds. -/
theorem isSome_bounds_recollect (memspace : ℕ) :
    ((recollect doubles a vars ptrs).bounds memspace).isSome =
      ((recollect doubles a vars ptrs).memories memspace).isSome := by
  induction ptrs using List.reverseRecOn with
  | nil => rfl
  | append_singleton ptrs ptr ih =>
      rw [recollect_append]
      by_cases hspace : memspace = memspaceOf ptr
      · subst hspace
        simp only [recollectPtr, assignShapes, Function.update_self, Option.isSome_some]
      · simp only [recollectPtr, assignShapes, Function.update_of_ne hspace]
        exact ih

/-- What a query makes of the answer to another one. -/
def onAnswer (answer : Outcome) (next : Term → Option Term) : Outcome :=
  match answer with
  | some (some resolved) => some (next resolved)
  | _ => none

theorem onAnswer_ne_none_iff (answer : Outcome) (next : Term → Option Term) :
    onAnswer answer next ≠ none ↔ ∃ resolved, answer = some (some resolved) := by
  rcases answer with _ | _ | resolved <;> simp [onAnswer]

theorem queryTerm_cast (m : Model) (obj : ℕ) (signExtend : Bool) (type : Ty) (name : String)
    (rhv : Term) :
    queryTerm FN m (.mk obj (.cast signExtend) type name [rhv]) =
      onAnswer (queryTerm FN m rhv) fun resolve =>
        some (FN.getCastTerm type signExtend resolve) := by
  rw [queryTerm]
  simp only [Term.isConstantTerm, Term.isNamedTerm, Term.cls, Bool.false_eq_true, if_false]
  rcases queryTerm FN m rhv with _ | _ | resolve <;> rfl

theorem queryTerm_load (obj : ℕ) (type : Ty) (name : String) (ptr : Term) :
    queryTerm FN (recollect doubles a vars ptrs) (.mk obj .load type name [ptr]) =
      onAnswer (queryTerm FN (recollect doubles a vars ptrs) ptr) fun resolved =>
        (lastAt doubles a ptrs (memspaceOf (stripCasts resolved)) (stripCasts resolved)).map
          (a.undoneValue doubles a.currentMemory) := by
  rw [queryTerm]
  simp only [Term.isConstantTerm, Term.isNamedTerm, Term.cls, Bool.false_eq_true, if_false]
  rcases queryTerm FN (recollect doubles a vars ptrs) ptr with _ | _ | resolved
  · rfl
  · rfl
  · have hentry := (recorded_eq doubles a vars ptrs (memspaceOf (stripCasts resolved))
      (stripCasts resolved)).2.1
    rw [onAnswer, ← hentry, entryOf]
    cases hshape : (recollect doubles a vars ptrs).memories (memspaceOf (stripCasts resolved)) <;>
      simp [hshape]

theorem queryTerm_bound (obj : ℕ) (type : Ty) (name : String) (rhv : Term) :
    queryTerm FN (recollect doubles a vars ptrs) (.mk obj .bound type name [rhv]) =
      onAnswer (queryTerm FN (recollect doubles a vars ptrs) (stripCasts rhv)) fun resolved =>
        (lastAt doubles a ptrs (memspaceOf (stripCasts resolved)) (stripCasts resolved)).map
          (a.undoneBound doubles a.currentGepBounds) := by
  rw [queryTerm]
  simp only [Term.isConstantTerm, Term.isNamedTerm, Term.cls, Bool.false_eq_true, if_false]
  rcases queryTerm FN (recollect doubles a vars ptrs) (stripCasts rhv) with _ | _ | resolved
  · rfl
  · rfl
  · have hentry := (recorded_eq doubles a vars ptrs (memspaceOf (stripCasts resolved))
      (stripCasts resolved)).2.2.2
    have hsome := isSome_bounds_recollect doubles a vars ptrs (memspaceOf (stripCasts resolved))
    rw [onAnswer, ← hentry, entryOf]
    cases hshape : (recollect doubles a vars ptrs).memories (memspaceOf (stripCasts resolved)) <;>
      cases hbounds : (recollect doubles a vars ptrs).bounds (memspaceOf (stripCasts resolved)) <;>
      simp_all

theorem queryTerm_readProperty (obj : ℕ) (type : Ty) (name : String) (propertyName rhv : Term) :
    queryTerm FN (recollect doubles a vars ptrs)
        (.mk obj .readProperty type name [propertyName, rhv]) =
      onAnswer (queryTerm FN (recollect doubles a vars ptrs) (stripCasts rhv)) fun _ => none := by
  rw [queryTerm, properties_recollect]
  simp only [Term.isConstantTerm, Term.isNamedTerm, Term.cls, Bool.false_eq_true, if_false]
  rcases queryTerm FN (recollect doubles a vars ptrs) (stripCasts rhv) with _ | _ | resolved <;> rfl

/-- **The answer of a query.** -/
theorem queryTerm_eq_some_iff (t u : Term) :
    queryTerm FN (recollect doubles a vars ptrs) t = some (some u) ↔
      Resolves FN doubles a vars ptrs t u := by
  constructor
  · generalize hm : recollect doubles a vars ptrs = m
    intro h
    fun_induction queryTerm FN m t generalizing u with
    | case1 t hconstant =>
        cases h
        exact .constant hconstant
    | case2 t hconstant hnamed =>
        subst hm
        rw [assignments_recollect] at h
        exact .named hnamed (Option.some.inj h)
    | case3 obj signExtend type name rhv resolve hresolve hconstant hnamed ih =>
        cases h
        exact .cast (ih resolve hresolve)
    | case6 obj type name ptr resolved hresolved reptr shape hshape hconstant hnamed ih =>
        subst hm
        have hentry := (recorded_eq doubles a vars ptrs (memspaceOf reptr) reptr).2.1
        rw [entryOf, hshape, Option.bind_some, Option.some.inj h] at hentry
        obtain ⟨last, hlast, rfl⟩ := Option.map_eq_some_iff.mp hentry.symm
        exact .load (ih resolved hresolved) hlast
    | case10 obj type name rhv resolved hresolved reptr memory hmemory shape hshape hconstant
        hnamed ih =>
        subst hm
        have hentry := (recorded_eq doubles a vars ptrs (memspaceOf reptr) reptr).2.2.2
        rw [entryOf, hshape, Option.bind_some, Option.some.inj h] at hentry
        obtain ⟨last, hlast, rfl⟩ := Option.map_eq_some_iff.mp hentry.symm
        exact .bound (ih resolved hresolved) hlast
    | case13 obj type name propertyName rhv resolved hresolved shape hshape =>
        subst hm
        rw [properties_recollect] at hshape
        cases hshape
    | case4 | case5 | case7 | case8 | case9 | case11 | case12 | case14 | case15 => cases h
  · intro h
    induction h with
    | constant hconstant =>
        rw [queryTerm.eq_def, if_pos hconstant]
    | @named t value hnamed hvalue =>
        have hconstant : ¬t.isConstantTerm = true := by
          rw [Term.isNamedTerm] at hnamed
          rw [Term.isConstantTerm]
          split at hnamed <;> simp_all
        rw [queryTerm.eq_def, if_neg hconstant, if_pos hnamed, assignments_recollect, hvalue]
    | cast h ih =>
        rw [queryTerm_cast, ih]
        rfl
    | load h hlast ih =>
        rw [queryTerm_load, ih, onAnswer, hlast]
        rfl
    | bound h hlast ih =>
        rw [queryTerm_bound, ih, onAnswer, hlast]
        rfl

/-- **A query returns** where its operand has an answer. -/
theorem queryTerm_ne_none_iff (t : Term) :
    queryTerm FN (recollect doubles a vars ptrs) t ≠ none ↔ Returns FN doubles a vars ptrs t := by
  by_cases hconstant : t.isConstantTerm = true
  · rw [queryTerm.eq_def, if_pos hconstant]
    exact iff_of_true (Option.some_ne_none _) (Or.inl hconstant)
  by_cases hnamed : t.isNamedTerm = true
  · rw [queryTerm.eq_def, if_neg hconstant, if_pos hnamed]
    exact iff_of_true (Option.some_ne_none _) (Or.inr (Or.inl hnamed))
  rw [Returns.eq_def, or_iff_right hconstant, or_iff_right hnamed]
  split
  · rw [queryTerm_cast, onAnswer_ne_none_iff]
    simp only [queryTerm_eq_some_iff]
  · rw [queryTerm_load, onAnswer_ne_none_iff]
    simp only [queryTerm_eq_some_iff]
  · rw [queryTerm_bound, onAnswer_ne_none_iff]
    simp only [queryTerm_eq_some_iff]
  · rw [queryTerm_readProperty, onAnswer_ne_none_iff]
    simp only [queryTerm_eq_some_iff]
  · next hcast hload hbound hproperty =>
      rw [queryTerm.eq_def, if_neg hconstant, if_neg hnamed]
      refine iff_of_false (fun h => h ?_) id
      split
      · exact absurd rfl (hcast _ _ _ _ _)
      · exact absurd rfl (hload _ _ _ _)
      · exact absurd rfl (hbound _ _ _ _)
      · exact absurd rfl (hproperty _ _ _ _ _)
      · rfl

end Query

/-! ## Agreement -/

/-- An entry stands for a number. -/
def Recorded (shapes : ℕ → Option MemoryShape) (side : MemoryShape → TermMap) (memspace : ℕ)
    (key : Term) (n : ℕ) : Prop :=
  ∃ v, entryOf shapes side memspace key = some v ∧ meaning doubles v = some (.number n)

/-- The recovered model agrees with the assignment, and a query of any term returns. -/
structure Agrees (vars ptrs : List Term) (queried : Option Term) : Prop where
  values : ∀ var ∈ vars, ∃ v, query FN (recollect doubles a vars ptrs) (some var) = some (some v) ∧
    meaning doubles v = some (a.value var).meaning
  initialMemory : ∀ ptr ∈ ptrs, Recorded doubles (recollect doubles a vars ptrs).memories
    MemoryShape.initial (memspaceOf ptr) (a.undonePtr doubles ptr)
    (a.select a.initialMemory ptr).toNat
  finalMemory : ∀ ptr ∈ ptrs, Recorded doubles (recollect doubles a vars ptrs).memories
    MemoryShape.final (memspaceOf ptr) (a.undonePtr doubles ptr)
    (a.select a.currentMemory ptr).toNat
  initialBounds : ∀ ptr ∈ ptrs, Recorded doubles (recollect doubles a vars ptrs).bounds
    MemoryShape.initial (memspaceOf ptr) (a.undonePtr doubles ptr)
    (a.bound a.initialGepBounds ptr).toNat
  finalBounds : ∀ ptr ∈ ptrs, Recorded doubles (recollect doubles a vars ptrs).bounds
    MemoryShape.final (memspaceOf ptr) (a.undonePtr doubles ptr)
    (a.bound a.currentGepBounds ptr).toNat
  returns : query FN (recollect doubles a vars ptrs) queried ≠ none

/-- When it does: the reals are doubles; the last pointer of an address in a space, whose type may
be another one, reads the same numbers; the bounds of the start are those of the end; and the term
is not null and has no operand without an answer. -/
structure Recoverable (vars ptrs : List Term) (queried : Option Term) : Prop where
  exact : ∀ var ∈ vars, (a.value var).Exact doubles
  shared : ∀ ptr ∈ ptrs, ∀ last,
    lastAt doubles a ptrs (memspaceOf ptr) (a.undonePtr doubles ptr) = some last →
      (a.select a.initialMemory last).toNat = (a.select a.initialMemory ptr).toNat ∧
        (a.select a.currentMemory last).toNat = (a.select a.currentMemory ptr).toNat
  bounds : ∀ ptr ∈ ptrs, a.bound a.initialGepBounds ptr = a.bound a.currentGepBounds ptr
  queried : ∃ t, queried = some t ∧ Returns FN doubles a vars ptrs t

section Agreement

variable (vars ptrs : List Term)

/-- The last pointer of an address is one of its address. -/
theorem lastAt_spec (memspace : ℕ) (key last : Term)
    (h : lastAt doubles a ptrs memspace key = some last) :
    memspaceOf last = memspace ∧ key.equals (a.undonePtr doubles last) = true := by
  have hfound := List.find?_some h
  rw [Bool.and_eq_true, decide_eq_true_eq] at hfound
  exact hfound

theorem exists_lastAt {ptr : Term} (hptr : ptr ∈ ptrs) :
    ∃ last, lastAt doubles a ptrs (memspaceOf ptr) (a.undonePtr doubles ptr) = some last := by
  rw [← Option.isSome_iff_exists, lastAt, List.find?_isSome]
  refine ⟨ptr, List.mem_reverse.mpr hptr, ?_⟩
  rw [Term.equals_refl, decide_eq_true rfl]
  rfl

/-- The terms of two addresses are one where the addresses are. -/
theorem address_eq_of_equals {ptr last : Term}
    (h : (a.undonePtr doubles ptr).equals (a.undonePtr doubles last) = true) :
    a.address ptr = a.address last := by
  rw [Assigned.undonePtr, Assigned.undonePtr, undoThat, undoThat, if_neg (lt_irrefl _),
    if_neg (lt_irrefl _), TermFactory.getIntTerm, TermFactory.getIntTerm, Term.equals,
    Bool.and_eq_true, Bool.and_eq_true, decide_eq_true_eq, decide_eq_true_eq] at h
  have hint := BitVec.eq_of_toInt_eq (Int.repr_injective h.1.2)
  rw [BitVec.ofNat_toNat, BitVec.ofNat_toNat, BitVec.setWidth_eq, BitVec.setWidth_eq] at hint
  exact hint

/-- An entry that is made of a number of the last pointer. -/
theorem recorded_iff {shapes : ℕ → Option MemoryShape} {side : MemoryShape → TermMap}
    {width : Term → ℕ} {type : Term → Ty} {v : (ptr : Term) → BitVec (width ptr)} {ptr last : Term}
    (hentry : entryOf shapes side (memspaceOf ptr) (a.undonePtr doubles ptr) =
      (some last).map fun ptr => undoThat doubles (type ptr) (.bv (width ptr) (v ptr))) (n : ℕ) :
    Recorded doubles shapes side (memspaceOf ptr) (a.undonePtr doubles ptr) n ↔
      (v last).toNat = n := by
  have hmeaning := (meaning_undoThat doubles (type last) (.bv (width last) (v last))).mpr
    fun q h => Z3Value.noConfusion h
  rw [Recorded, hentry, Option.map_some]
  constructor
  · rintro ⟨t, ht, hn⟩
    rw [← Option.some.inj ht, hmeaning] at hn
    exact Meaning.number.inj (Option.some.inj hn)
  · intro h
    refine ⟨_, rfl, hmeaning.trans ?_⟩
    rw [← h]
    rfl

/-- A bound is read at the address. -/
theorem bound_last (bounds : ℕ → MemArray V) {ptr last : Term}
    (h : lastAt doubles a ptrs (memspaceOf ptr) (a.undonePtr doubles ptr) = some last) :
    a.bound bounds last = a.bound bounds ptr := by
  obtain ⟨hspace, hkey⟩ := lastAt_spec doubles a ptrs _ _ _ h
  rw [Assigned.bound, Assigned.bound, hspace, address_eq_of_equals doubles a hkey]

/-- What is recorded for a pointer is what the last one of its address reads. -/
theorem recorded_last (vars : List Term) {ptr last : Term}
    (hlast : lastAt doubles a ptrs (memspaceOf ptr) (a.undonePtr doubles ptr) = some last)
    (n : ℕ) :
    let m := recollect doubles a vars ptrs
    let key := a.undonePtr doubles ptr
    (Recorded doubles m.memories MemoryShape.initial (memspaceOf ptr) key n ↔
        (a.select a.initialMemory last).toNat = n) ∧
      (Recorded doubles m.memories MemoryShape.final (memspaceOf ptr) key n ↔
        (a.select a.currentMemory last).toNat = n) ∧
      (Recorded doubles m.bounds MemoryShape.initial (memspaceOf ptr) key n ↔
        (a.bound a.currentGepBounds ptr).toNat = n) ∧
      (Recorded doubles m.bounds MemoryShape.final (memspaceOf ptr) key n ↔
        (a.bound a.currentGepBounds ptr).toNat = n) := by
  intro m key
  obtain ⟨h₁, h₂, h₃, h₄⟩ := recorded_eq doubles a vars ptrs (memspaceOf ptr)
    (a.undonePtr doubles ptr)
  rw [hlast] at h₁ h₂ h₃ h₄
  rw [← bound_last doubles a ptrs a.currentGepBounds hlast]
  exact ⟨recorded_iff doubles a h₁ n, recorded_iff doubles a h₂ n, recorded_iff doubles a h₃ n,
    recorded_iff doubles a h₄ n⟩

/-- The query of a term that was collected. -/
theorem query_var {vars : List Term} (hnamed : ∀ var ∈ vars, var.isNamedTerm = true)
    (hset : vars.Pairwise fun var var' => ¬var.equals var' = true) {var : Term}
    (hvar : var ∈ vars) :
    query FN (recollect doubles a vars ptrs) (some var) =
      some (some (undoThat doubles var.getType (a.value var))) := by
  refine (queryTerm_eq_some_iff FN doubles a vars ptrs var _).mpr (.named (hnamed var hvar) ?_)
  have hfind : vars.find? (fun u => var.equals u) = some var := by
    obtain ⟨before, after, rfl⟩ := List.append_of_mem hvar
    rw [List.find?_eq_some_iff_append]
    refine ⟨var.equals_refl, before, after, rfl, fun u hu => ?_⟩
    have hdiffers := (List.pairwise_append.mp hset).2.2 u hu var (List.mem_cons_self ..)
    rw [Bool.not_eq_true']
    exact Bool.eq_false_iff.mpr fun h => hdiffers (Term.equals_symm h)
  rw [recollectModel, hfind, Option.map_some]

end Agreement

/-- **A recovered model agrees** with the assignment where what it is made of can be recovered. -/
theorem recollect_agrees_iff (vars ptrs : List Term) (queried : Option Term)
    (hnamed : ∀ var ∈ vars, var.isNamedTerm = true)
    (hset : vars.Pairwise fun var var' => ¬var.equals var' = true) :
    Agrees FN doubles a vars ptrs queried ↔ Recoverable FN doubles a vars ptrs queried := by
  constructor
  · intro h
    refine ⟨fun var hvar => ?_, fun ptr hptr last hlast => ?_, fun ptr hptr => ?_, ?_⟩
    · obtain ⟨v, hv, hmeaning⟩ := h.values var hvar
      rw [query_var FN doubles a ptrs hnamed hset hvar] at hv
      rw [← Option.some.inj (Option.some.inj hv)] at hmeaning
      exact (meaning_undoThat doubles _ _).mp hmeaning
    · have hinitial := (recorded_last doubles a ptrs vars hlast _).1.mp (h.initialMemory ptr hptr)
      have hfinal := (recorded_last doubles a ptrs vars hlast _).2.1.mp (h.finalMemory ptr hptr)
      exact ⟨hinitial, hfinal⟩
    · obtain ⟨last, hlast⟩ := exists_lastAt doubles a ptrs hptr
      have hbound := (recorded_last doubles a ptrs vars hlast _).2.2.1.mp (h.initialBounds ptr hptr)
      exact (BitVec.eq_of_toNat_eq hbound).symm
    · cases queried with
      | none => exact absurd rfl h.returns
      | some t => exact ⟨t, rfl, (queryTerm_ne_none_iff FN doubles a vars ptrs t).mp h.returns⟩
  · intro h
    refine ⟨fun var hvar => ?_, fun ptr hptr => ?_, fun ptr hptr => ?_, fun ptr hptr => ?_,
      fun ptr hptr => ?_, ?_⟩
    · exact ⟨_, query_var FN doubles a ptrs hnamed hset hvar,
        (meaning_undoThat doubles _ _).mpr (h.exact var hvar)⟩
    · obtain ⟨last, hlast⟩ := exists_lastAt doubles a ptrs hptr
      exact (recorded_last doubles a ptrs vars hlast _).1.mpr (h.shared ptr hptr last hlast).1
    · obtain ⟨last, hlast⟩ := exists_lastAt doubles a ptrs hptr
      exact (recorded_last doubles a ptrs vars hlast _).2.1.mpr (h.shared ptr hptr last hlast).2
    · obtain ⟨last, hlast⟩ := exists_lastAt doubles a ptrs hptr
      rw [h.bounds ptr hptr]
      exact (recorded_last doubles a ptrs vars hlast _).2.2.1.mpr rfl
    · obtain ⟨last, hlast⟩ := exists_lastAt doubles a ptrs hptr
      exact (recorded_last doubles a ptrs vars hlast _).2.2.2.mpr rfl
    · obtain ⟨t, rfl, ht⟩ := h.queried
      exact (queryTerm_ne_none_iff FN doubles a vars ptrs t).mpr ht

/-- A pointer. -/
def pointer : Term := .mk 0 (.value false) (.pointer (.integer 32 .signed) 0) "p" []

/-- A pointer to a place whose bound is given at the start and at the end. -/
def boundedBy (initial current : BitVec 64) : Assigned Unit where
  assignment := ⟨fun _ => (), fun _ _ => 0⟩
  value := fun _ => .bv 64 16
  address := fun _ => 16
  initialMemory := fun _ => MemArray.mkDefault 0
  currentMemory := fun _ => MemArray.mkDefault 0
  initialGepBounds := fun _ => MemArray.mkDefault initial
  currentGepBounds := fun _ => MemArray.mkDefault current
  sizeForType := fun _ => 32

/-- A factory that prints nothing. -/
def unnamed : TermFactory := ⟨fun _ type _ => type, fun _ _ _ => ""⟩

/-- Doubles that are all zero. -/
def zeros : Doubles := ⟨fun _ => "", fun _ => 0⟩

/-- The only pointer is the last of its address, and its value can be queried. -/
theorem agrees_pointer :
    Agrees unnamed zeros (boundedBy 40 40) [pointer] [pointer] (some pointer) := by
  refine (recollect_agrees_iff unnamed zeros (boundedBy 40 40) [pointer] [pointer] (some pointer)
    ?_ ?_).mpr ⟨?_, ?_, fun _ _ => rfl, ⟨pointer, rfl, Or.inr (Or.inl rfl)⟩⟩
  · intro var hvar
    rw [List.mem_singleton.mp hvar]
    rfl
  · exact List.pairwise_singleton _ _
  · intro var _ q hq
    cases hq
  · intro ptr hptr last hlast
    rw [List.mem_singleton.mp hptr]
    have hlast' : last = pointer := by
      have hmem := List.mem_of_find?_eq_some hlast
      exact List.mem_singleton.mp (List.mem_reverse.mp hmem)
    rw [hlast']
    exact ⟨rfl, rfl⟩

/-- **A bound that changes** is recorded for the start as it is at the end. -/
theorem not_agrees :
    ¬ ∀ (FN : TermFactory) (doubles : Doubles) (a : Assigned Unit) (vars ptrs : List Term)
      (queried : Option Term), (∀ var ∈ vars, var.isNamedTerm = true) →
      (vars.Pairwise fun var var' => ¬var.equals var' = true) →
      Agrees FN doubles a vars ptrs queried := by
  intro h
  have hagrees := h unnamed zeros (boundedBy 0 40) [] [pointer] (some pointer)
    (fun _ hvar => absurd hvar List.not_mem_nil) List.Pairwise.nil
  obtain ⟨v, hv, hmeaning⟩ := hagrees.initialBounds pointer (List.mem_singleton_self _)
  have hentry : entryOf (recollect zeros (boundedBy 0 40) [] [pointer]).bounds
      MemoryShape.initial (memspaceOf pointer) ((boundedBy 0 40).undonePtr zeros pointer) =
      some (TermFactory.getIntTerm 40 (.integer 64 .unsigned)) := by
    rfl
  rw [hentry] at hv
  rw [← Option.some.inj hv] at hmeaning
  exact absurd (Meaning.number.inj (Option.some.inj hmeaning)) (by decide)

end RecoveredModel

end Borealis
