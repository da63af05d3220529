import Borealis.State.CallSiteInitializer
import Mathlib

/-!
# Old values

`OldValueExtractor` and `OldValueEraser` of `State/Transformer/OldValueExtractor.cpp`, with what
`AnnotationProcessor` makes of the annotations of a function and `FunctionDecomposer` of the
contracts of its calls.  Materialization is a parameter; a term that cannot be materialized is none.

Every extractor counts from zero, so that the first `\old` of two annotations has one name.

## Strategy

The arguments of the `\old` calls are listed in the order in which they are named (`olds`).  An
extraction appends one binding for each of them (`transform_spec`), and the bindings of all parts
can only hold together where the parts agree.
-/

namespace Borealis

namespace OldValueExtractor

/-! ## Extraction -/

/-- A call of `\old` with one argument. -/
def isOld (cls : TermClass) (subterms : List Term) : Bool :=
  match cls, subterms with
  | .opaqueCall, [lhv, _] => decide (lhv.cls = .opaqueBuiltin) && decide (lhv.getName = "\\old")
  | _, _ => false

/-- An assumption that a free variable is equal to a term. -/
structure OldBinding where
  name : String
  type : Ty
  arg : Term

/-- The members `seed` and `assumes`. -/
structure Extraction where
  seed : ℕ
  assumes : List OldBinding

/-- The name that `getFreeName` makes of the seed. -/
def freeName (seed : ℕ) : String := "borealis.old." ++ toString seed

variable (FN : TermFactory)

/-- The end of `accept`: the term itself if its subterms are what they were. -/
def rebuild (obj : ℕ) (cls : TermClass) (type : Ty) (name : String)
    (subterms subterms' : List Term) : Term :=
  if subterms' = subterms then .mk obj cls type name subterms
  else .mk 0 cls (FN.type cls type subterms') (FN.name cls type subterms') subterms'

namespace OldValueEraser

/-- `OldValueEraser::transformOpaqueCallTerm`. -/
def transformOpaqueCallTerm : Term → Term
  | .mk obj cls type name [lhv, arg] =>
      if isOld cls [lhv, arg] then arg else .mk obj cls type name [lhv, arg]
  | t => t

mutual
/-- `transform`. -/
def transform : Term → Term
  | .mk obj cls type name subterms =>
    if cls.isCompound then
      transformOpaqueCallTerm (rebuild FN obj cls type name subterms (transformAll subterms))
    else .mk obj cls type name subterms

/-- The same for a list of terms. -/
def transformAll : List Term → List Term
  | [] => []
  | t :: ts => transform t :: transformAll ts
end

end OldValueEraser

/-- `OldValueExtractor::transformOpaqueCallTerm`. -/
def transformOpaqueCallTerm (t : Term) (s : Extraction) : Term × Extraction :=
  match t with
  | .mk obj cls type name [lhv, arg] =>
      if isOld cls [lhv, arg] then
        (.mk 0 .freeVar arg.getType (freeName s.seed) [],
          ⟨s.seed + 1,
            s.assumes ++ [⟨freeName s.seed, arg.getType, OldValueEraser.transform FN arg⟩]⟩)
      else (.mk obj cls type name [lhv, arg], s)
  | t => (t, s)

mutual
/-- `transform`. -/
def transform : Term → Extraction → Term × Extraction
  | .mk obj cls type name subterms, s =>
    if cls.isCompound then
      let out := if cls = .opaqueCall then acceptCall subterms s else transformAll subterms s
      transformOpaqueCallTerm FN (rebuild FN obj cls type name subterms out.1) out.2
    else (.mk obj cls type name subterms, s)

/-- `OpaqueCallTerm::accept`.  The arguments are a view that transforms them each time it is looked
at: once to see if they change, up to the first that does, and once to take them. -/
def acceptCall : List Term → Extraction → List Term × Extraction
  | [], s => ([], s)
  | lhv :: rhv, s =>
    let first := transform lhv s
    let seen := if first.1 = lhv then compareAll rhv first.2 else first.2
    let taken := transformAll rhv seen
    (first.1 :: taken.1, taken.2)

/-- `util::equal` of the arguments and what they become. -/
def compareAll : List Term → Extraction → Extraction
  | [], s => s
  | t :: ts, s =>
    let next := transform t s
    if next.1 = t then compareAll ts next.2 else next.2

/-- The transformed terms of a list. -/
def transformAll : List Term → Extraction → List Term × Extraction
  | [], s => ([], s)
  | t :: ts, s =>
    let next := transform t s
    let rest := transformAll ts next.2
    (next.1 :: rest.1, rest.2)
end

/-- `OldValueExtractor ove{FN}` on the term of an annotation. -/
def extract (t : Term) : Term × Extraction := transform FN t ⟨0, []⟩

/-! ## What terms stand for -/

/-- What materialized terms stand for in a state. -/
structure Reading (V : Type) where
  leaf : Option Term → V
  node : TermClass → List V → V

variable {V : Type}

/-- A reading of the terms before a transformation of the leaves that may fail. -/
def Reading.before (r : Reading V) (transformLeaf : Term → Option Term) : Reading V :=
  ⟨fun t => r.leaf (t.bind transformLeaf), r.node⟩

mutual
/-- What a term stands for, where the argument of an `\old` is read in another state. -/
def denote (r entry : Reading V) : Term → V
  | .mk obj cls type name subterms =>
    if cls.isCompound then
      if isOld cls subterms then
        match denoteAll entry entry subterms with
        | [_, v] => v
        | values => r.node cls values
      else r.node cls (denoteAll r entry subterms)
    else r.leaf (some (.mk obj cls type name subterms))

/-- The same for a list of terms. -/
def denoteAll (r entry : Reading V) : List Term → List V
  | [] => []
  | t :: ts => denote r entry t :: denoteAll r entry ts
end

mutual
/-- What an extracted term stands for, with the values of the free variables. -/
def evaluate (r : Reading V) (vars : String → V) : Term → V
  | .mk obj cls type name subterms =>
    if cls.isCompound then r.node cls (evaluateAll r vars subterms)
    else if cls = .freeVar then vars name
    else r.leaf (some (.mk obj cls type name subterms))

/-- The same for a list of terms. -/
def evaluateAll (r : Reading V) (vars : String → V) : List Term → List V
  | [] => []
  | t :: ts => evaluate r vars t :: evaluateAll r vars ts
end

/-! ## The arguments of the `\old` calls -/

mutual
/-- Whether there is an `\old` in a term. -/
def mentionsOld : Term → Bool
  | .mk _ cls _ _ subterms => cls.isCompound && (isOld cls subterms || mentionsAny subterms)

/-- The same for a list of terms. -/
def mentionsAny : List Term → Bool
  | [] => false
  | t :: ts => mentionsOld t || mentionsAny ts
end

mutual
/-- The arguments of the `\old` calls in the order in which they are named. -/
def olds : Term → List Term
  | .mk _ cls _ _ subterms =>
    if cls.isCompound then
      (if cls = .opaqueCall then oldsCall subterms else oldsAll subterms) ++
        (if isOld cls subterms then subterms.drop 1 else [])
    else []

/-- Those of a callee and its arguments. -/
def oldsCall : List Term → List Term
  | [] => []
  | lhv :: rhv => olds lhv ++ (if mentionsOld lhv then [] else oldsFirst rhv) ++ oldsAll rhv

/-- Those of the first term that has some. -/
def oldsFirst : List Term → List Term
  | [] => []
  | t :: ts => if mentionsOld t then olds t else oldsFirst ts

/-- Those of all terms. -/
def oldsAll : List Term → List Term
  | [] => []
  | t :: ts => olds t ++ oldsAll ts
end

/-! ## Terms without `\old` -/

theorem isOld_iff (cls : TermClass) (subterms : List Term) :
    isOld cls subterms = true ↔ cls = .opaqueCall ∧ ∃ lhv arg, subterms = [lhv, arg] ∧
      lhv.cls = .opaqueBuiltin ∧ lhv.getName = "\\old" := by
  unfold isOld
  split
  · next lhv arg => simp
  · next hne =>
      refine iff_of_false (by simp) fun h => ?_
      obtain ⟨hcls, lhv, arg, hsubterms, -⟩ := h
      exact hne lhv arg hcls hsubterms

theorem rebuild_eq (obj : ℕ) (cls : TermClass) (type : Ty) (name : String)
    (subterms subterms' : List Term) : ∃ obj' type' name',
      rebuild FN obj cls type name subterms subterms' = .mk obj' cls type' name' subterms' := by
  unfold rebuild
  split
  · next h => exact ⟨obj, type, name, by rw [h]⟩
  · exact ⟨_, _, _, rfl⟩

theorem rebuild_self (obj : ℕ) (cls : TermClass) (type : Ty) (name : String)
    (subterms : List Term) : rebuild FN obj cls type name subterms subterms =
      .mk obj cls type name subterms :=
  if_pos rfl

theorem OldValueEraser.transformOpaqueCallTerm_of_not {obj : ℕ} {cls : TermClass} {type : Ty}
    {name : String} {subterms : List Term} (h : isOld cls subterms = false) :
    transformOpaqueCallTerm (.mk obj cls type name subterms) = .mk obj cls type name subterms := by
  unfold transformOpaqueCallTerm
  split
  · next heq =>
      injection heq with _ hcls _ _ hsubterms
      subst hcls hsubterms
      rw [if_neg (by rw [h]; exact Bool.false_ne_true)]
      simp_all
  · rfl

theorem transformOpaqueCallTerm_of_not {obj : ℕ} {cls : TermClass} {type : Ty} {name : String}
    {subterms : List Term} (h : isOld cls subterms = false) (s : Extraction) :
    transformOpaqueCallTerm FN (.mk obj cls type name subterms) s =
      (.mk obj cls type name subterms, s) := by
  unfold transformOpaqueCallTerm
  split
  · next heq =>
      injection heq with _ hcls _ _ hsubterms
      subst hcls hsubterms
      rw [if_neg (by rw [h]; exact Bool.false_ne_true)]
      simp_all
  · rfl

theorem transformOpaqueCallTerm_of_old {obj : ℕ} {type : Ty} {name : String} {lhv arg : Term}
    (h : isOld .opaqueCall [lhv, arg] = true) (s : Extraction) :
    transformOpaqueCallTerm FN (.mk obj .opaqueCall type name [lhv, arg]) s =
      (.mk 0 .freeVar arg.getType (freeName s.seed) [],
        ⟨s.seed + 1,
          s.assumes ++ [⟨freeName s.seed, arg.getType, OldValueEraser.transform FN arg⟩]⟩) := by
  unfold transformOpaqueCallTerm
  exact if_pos h

theorem mentionsOld_mk (obj : ℕ) (cls : TermClass) (type : Ty) (name : String)
    (subterms : List Term) : mentionsOld (.mk obj cls type name subterms) =
      (cls.isCompound && (isOld cls subterms || mentionsAny subterms)) := by
  rw [mentionsOld]

mutual
/-- The eraser leaves a term without `\old` alone. -/
theorem erase_eq : (t : Term) → mentionsOld t = false → OldValueEraser.transform FN t = t
  | .mk obj cls type name subterms, h => by
      rw [OldValueEraser.transform]
      split
      · next hcompound =>
          rw [mentionsOld_mk, hcompound, Bool.true_and, Bool.or_eq_false_iff] at h
          rw [eraseAll_eq subterms h.2, rebuild_self,
            OldValueEraser.transformOpaqueCallTerm_of_not h.1]
      · rfl

theorem eraseAll_eq : (ts : List Term) → mentionsAny ts = false →
    OldValueEraser.transformAll FN ts = ts
  | [], _ => by rw [OldValueEraser.transformAll]
  | t :: ts, h => by
      rw [mentionsAny, Bool.or_eq_false_iff] at h
      rw [OldValueEraser.transformAll, erase_eq t h.1, eraseAll_eq ts h.2]
end

mutual
/-- The extractor leaves a term without `\old` alone. -/
theorem transform_of_not : (t : Term) → (s : Extraction) → mentionsOld t = false →
    transform FN t s = (t, s)
  | .mk obj cls type name subterms, s, h => by
      rw [transform]
      split
      · next hcompound =>
          rw [mentionsOld_mk, hcompound, Bool.true_and, Bool.or_eq_false_iff] at h
          rw [acceptCall_of_not subterms s h.2, transformAll_of_not subterms s h.2, ite_self]
          dsimp only
          rw [rebuild_self, transformOpaqueCallTerm_of_not FN h.1]
      · rfl

theorem acceptCall_of_not : (ts : List Term) → (s : Extraction) → mentionsAny ts = false →
    acceptCall FN ts s = (ts, s)
  | [], s, _ => by rw [acceptCall]
  | t :: ts, s, h => by
      rw [mentionsAny, Bool.or_eq_false_iff] at h
      rw [acceptCall, transform_of_not t s h.1, if_pos rfl, compareAll_of_not ts s h.2,
        transformAll_of_not ts s h.2]

theorem compareAll_of_not : (ts : List Term) → (s : Extraction) → mentionsAny ts = false →
    compareAll FN ts s = s
  | [], s, _ => by rw [compareAll]
  | t :: ts, s, h => by
      rw [mentionsAny, Bool.or_eq_false_iff] at h
      rw [compareAll, transform_of_not t s h.1, if_pos rfl, compareAll_of_not ts s h.2]

theorem transformAll_of_not : (ts : List Term) → (s : Extraction) → mentionsAny ts = false →
    transformAll FN ts s = (ts, s)
  | [], s, _ => by rw [transformAll]
  | t :: ts, s, h => by
      rw [mentionsAny, Bool.or_eq_false_iff] at h
      rw [transformAll, transform_of_not t s h.1, transformAll_of_not ts s h.2]
end

/-! ## What an extraction does -/

/-- The terms the parser makes have no free variables. -/
def Parsed (t : Term) : Prop := ∀ leaf ∈ t.leaves, leaf.cls ≠ .freeVar

/-- The free variables from a seed on have the values of the terms. -/
def Names (landed : Reading V) (vars : String → V) (seed : ℕ) (es : List Term) : Prop :=
  ∀ k e, es[k]? = some e → vars (freeName (seed + k)) = denote landed landed e

theorem names_append {landed : Reading V} {vars : String → V} {seed : ℕ} {es es' : List Term} :
    Names landed vars seed (es ++ es') ↔
      Names landed vars seed es ∧ Names landed vars (seed + es.length) es' := by
  constructor
  · intro h
    refine ⟨fun k e he => ?_, fun k e he => ?_⟩
    · exact h k e (by rw [List.getElem?_append_left (List.getElem?_eq_some_iff.mp he).1, he])
    · have hk := h (es.length + k) e
        (by rw [List.getElem?_append_right (Nat.le_add_right _ _), Nat.add_sub_cancel_left, he])
      rw [← Nat.add_assoc] at hk
      exact hk
  · intro h k e he
    rcases Nat.lt_or_ge k es.length with hk | hk
    · rw [List.getElem?_append_left hk] at he
      exact h.1 k e he
    · rw [List.getElem?_append_right hk] at he
      have hlate := h.2 (k - es.length) e he
      rw [Nat.add_assoc, Nat.add_sub_cancel' hk] at hlate
      exact hlate

/-- The bindings that the terms get from a seed on: each is right where those before it are. -/
inductive Defines (seed : ℕ) : List Term → List OldBinding → Prop
  | nil : Defines seed [] []
  | snoc {es : List Term} {bs : List OldBinding} {e : Term} {b : OldBinding} :
      Defines seed es bs → b.name = freeName (seed + es.length) →
      (∀ (V : Type) (landed : Reading V) (vars : String → V), Names landed vars seed es →
        evaluate landed vars b.arg = denote landed landed e) →
      Defines seed (es ++ [e]) (bs ++ [b])

theorem Defines.append {seed : ℕ} {es es' : List Term} {bs bs' : List OldBinding}
    (h : Defines seed es bs) (h' : Defines (seed + es.length) es' bs') :
    Defines seed (es ++ es') (bs ++ bs') := by
  induction h' with
  | nil => rw [List.append_nil, List.append_nil]; exact h
  | snoc _ hname hvalue ih =>
      rw [← List.append_assoc, ← List.append_assoc]
      refine ih.snoc ?_ fun V landed vars hnames => ?_
      · rw [hname, List.length_append, Nat.add_assoc]
      · exact hvalue V landed vars (names_append.mp hnames).2

/-- An extraction goes from one state to another and names the terms. -/
def Extracted (s s' : Extraction) (es : List Term) : Prop :=
  s'.seed = s.seed + es.length ∧ ∃ new, s'.assumes = s.assumes ++ new ∧ Defines s.seed es new

theorem Extracted.refl (s : Extraction) : Extracted s s [] :=
  ⟨rfl, [], (List.append_nil _).symm, .nil⟩

theorem Extracted.trans {s s' s'' : Extraction} {es es' : List Term} (h : Extracted s s' es)
    (h' : Extracted s' s'' es') : Extracted s s'' (es ++ es') := by
  obtain ⟨hseed, new, hnew, hdefines⟩ := h
  obtain ⟨hseed', new', hnew', hdefines'⟩ := h'
  refine ⟨?_, new ++ new', ?_, ?_⟩
  · rw [hseed', hseed, List.length_append, Nat.add_assoc]
  · rw [hnew', hnew, List.append_assoc]
  · rw [hseed] at hdefines'
    exact hdefines.append hdefines'

theorem length_transformAll (ts : List Term) (s : Extraction) :
    (transformAll FN ts s).1.length = ts.length := by
  induction ts generalizing s with
  | nil => rw [transformAll]
  | cons t ts ih => rw [transformAll, List.length_cons, List.length_cons, ih]

/-- A transformed term is the builtin only if the term is. -/
theorem builtin_transform (t : Term) (s : Extraction) :
    (transform FN t s).1.cls = .opaqueBuiltin ∧ (transform FN t s).1.getName = "\\old" ↔
      t.cls = .opaqueBuiltin ∧ t.getName = "\\old" := by
  obtain ⟨obj, cls, type, name, subterms⟩ := t
  rw [transform]
  split
  · next hcompound =>
      have hcls : cls ≠ .opaqueBuiltin := by
        intro h
        rw [h] at hcompound
        cases hcompound
      refine iff_of_false (fun h => ?_) fun h => hcls h.1
      dsimp only at h
      obtain ⟨obj', type', name', heq⟩ := rebuild_eq FN obj cls type name subterms
        (if cls = .opaqueCall then acceptCall FN subterms s else transformAll FN subterms s).1
      rw [heq, transformOpaqueCallTerm.eq_def] at h
      split at h
      · next heq' =>
          injection heq' with _ hcls'
          split at h
          · cases h.1
          · exact hcls (hcls'.trans h.1)
      · exact hcls h.1
  · exact Iff.rfl

theorem isOld_acceptCall (ts : List Term) (s : Extraction) :
    isOld .opaqueCall (acceptCall FN ts s).1 = isOld .opaqueCall ts := by
  rw [Bool.eq_iff_iff, isOld_iff, isOld_iff]
  cases ts with
  | nil => rw [acceptCall]
  | cons lhv rhv =>
      rw [acceptCall]
      dsimp only
      have hlength := length_transformAll FN rhv
        (if (transform FN lhv s).1 = lhv then compareAll FN rhv (transform FN lhv s).2
          else (transform FN lhv s).2)
      have hbuiltin := builtin_transform FN lhv s
      constructor
      · rintro ⟨-, lhv', arg', heq, hold⟩
        injection heq with hlhv hrest
        rw [hrest, List.length_singleton] at hlength
        obtain ⟨arg, harg⟩ := List.length_eq_one_iff.mp hlength.symm
        rw [← hlhv] at hold
        exact ⟨rfl, lhv, arg, by rw [harg], hbuiltin.mp hold⟩
      · rintro ⟨-, lhv', arg', heq, hold⟩
        injection heq with hlhv hrest
        rw [hrest, List.length_singleton] at hlength
        obtain ⟨arg, harg⟩ := List.length_eq_one_iff.mp hlength
        rw [← hlhv] at hold
        exact ⟨rfl, _, arg, by rw [hrest, harg], hbuiltin.mpr hold⟩

theorem parsed_mk {obj : ℕ} {cls : TermClass} {type : Ty} {name : String} {subterms : List Term}
    (hcompound : cls.isCompound = true) (h : Parsed (.mk obj cls type name subterms)) :
    ∀ t ∈ subterms, Parsed t := by
  intro t ht leaf hleaf
  refine h leaf ?_
  rw [Term.leaves, if_pos hcompound, Term.leavesAll_eq_flatMap]
  exact List.mem_flatMap.mpr ⟨t, ht, hleaf⟩

/-- What the extraction of a term does. -/
def TermSpec (t : Term) (s : Extraction) (out : Term × Extraction) : Prop :=
  Extracted s out.2 (olds t) ∧ mentionsOld out.1 = false ∧
    ∀ (V : Type) (r landed : Reading V) (vars : String → V),
      Names landed vars s.seed (olds t) → evaluate r vars out.1 = denote r landed t

/-- The same for a list, whose terms are named as given. -/
def ListSpec (ts es : List Term) (s : Extraction) (out : List Term × Extraction) : Prop :=
  Extracted s out.2 es ∧ mentionsAny out.1 = false ∧
    ∀ (V : Type) (r landed : Reading V) (vars : String → V),
      Names landed vars s.seed es → evaluateAll r vars out.1 = denoteAll r landed ts

/-- A term that is not changed has no `\old`. -/
theorem transform_eq_iff {t : Term} {s : Extraction} (h : TermSpec t s (transform FN t s)) :
    (transform FN t s).1 = t ↔ mentionsOld t = false := by
  constructor
  · intro heq
    rw [← heq]
    exact h.2.1
  · intro hnot
    rw [transform_of_not FN t s hnot]

/-- A node other than a call of `\old`. -/
theorem TermSpec.node {obj obj' : ℕ} {cls : TermClass} {type type' : Ty} {name name' : String}
    {subterms es : List Term} {s : Extraction} {out : List Term × Extraction}
    (hcompound : cls.isCompound = true) (hnot : isOld cls subterms = false)
    (hnot' : isOld cls out.1 = false) (holds : olds (.mk obj cls type name subterms) = es)
    (h : ListSpec subterms es s out) :
    TermSpec (.mk obj cls type name subterms) s (.mk obj' cls type' name' out.1, out.2) := by
  obtain ⟨hextracted, hmentions, hvalue⟩ := h
  rw [TermSpec, holds]
  refine ⟨hextracted, ?_, fun V r landed vars hnames => ?_⟩
  · rw [mentionsOld_mk, hnot', hmentions, Bool.or_false, Bool.and_false]
  · rw [evaluate, if_pos hcompound, denote, if_pos hcompound,
      if_neg (by rw [hnot]; exact Bool.false_ne_true), hvalue V r landed vars hnames]

/-- A call of `\old`: its value is that of a new variable. -/
theorem TermSpec.old {obj : ℕ} {type : Ty} {name : String} {lhv arg lhv' arg' : Term}
    {s s' : Extraction} (hold : isOld .opaqueCall [lhv, arg] = true)
    (h : ListSpec [lhv, arg] (oldsCall [lhv, arg]) s ([lhv', arg'], s')) :
    TermSpec (.mk obj .opaqueCall type name [lhv, arg]) s
      (.mk 0 .freeVar arg'.getType (freeName s'.seed) [],
        ⟨s'.seed + 1,
          s'.assumes ++ [⟨freeName s'.seed, arg'.getType, OldValueEraser.transform FN arg'⟩]⟩) := by
  obtain ⟨⟨hseed, new, hnew, hdefines⟩, hmentions, hvalue⟩ := h
  have holds : olds (.mk obj .opaqueCall type name [lhv, arg]) =
      oldsCall [lhv, arg] ++ [arg] := by
    rw [olds, if_pos rfl, if_pos hold,
      if_pos (show TermClass.opaqueCall.isCompound = true from rfl)]
    rfl
  -- the argument, whose own `\old` calls were named before it
  have harg : ∀ (V : Type) (landed : Reading V) (vars : String → V),
      Names landed vars s.seed (oldsCall [lhv, arg]) →
        evaluate landed vars arg' = denote landed landed arg := by
    intro V landed vars hnames
    have hboth := hvalue V landed landed vars hnames
    rw [evaluateAll, evaluateAll, evaluateAll, denoteAll, denoteAll, denoteAll] at hboth
    injection hboth with _ htail
    injection htail
  have hclean : mentionsOld arg' = false := by
    rw [mentionsAny, mentionsAny, mentionsAny, Bool.or_false, Bool.or_eq_false_iff] at hmentions
    exact hmentions.2
  rw [TermSpec, holds]
  refine ⟨⟨?_, new ++ [⟨freeName s'.seed, arg'.getType, OldValueEraser.transform FN arg'⟩], ?_,
    hdefines.snoc ?_ fun V landed vars hnames => ?_⟩, ?_, fun V r landed vars hnames => ?_⟩
  · dsimp only
    rw [List.length_append, List.length_singleton, ← Nat.add_assoc, ← hseed]
  · dsimp only
    rw [← List.append_assoc, ← hnew]
  · rw [← hseed]
  · rw [erase_eq FN arg' hclean]
    exact harg V landed vars hnames
  · rw [mentionsOld_mk]
    rfl
  · obtain ⟨hbefore, hlast⟩ := names_append.mp hnames
    have hvar := hlast 0 arg rfl
    rw [Nat.add_zero, ← hseed] at hvar
    rw [evaluate, if_neg (by exact Bool.false_ne_true), if_pos rfl, hvar, denote, if_pos hold,
      if_pos (show TermClass.opaqueCall.isCompound = true from rfl), denoteAll, denoteAll, denoteAll]

mutual
theorem transform_spec : (t : Term) → Parsed t → (s : Extraction) →
    TermSpec t s (transform FN t s)
  | .mk obj cls type name subterms, hparsed, s => by
      rw [transform]
      split
      · next hcompound =>
          have hsub := parsed_mk hcompound hparsed
          dsimp only
          by_cases hcall : cls = .opaqueCall
          · subst hcall
            rw [if_pos rfl]
            have hspec := acceptCall_spec subterms hsub s
            obtain ⟨obj', type', name', heq⟩ := rebuild_eq FN obj .opaqueCall type name subterms
              (acceptCall FN subterms s).1
            rw [heq]
            have hsame := isOld_acceptCall FN subterms s
            cases hold : isOld .opaqueCall subterms with
            | false =>
                rw [hold] at hsame
                rw [transformOpaqueCallTerm_of_not FN hsame]
                refine TermSpec.node rfl hold hsame ?_ hspec
                rw [olds, if_pos hcompound, if_pos rfl,
                  if_neg (by rw [hold]; exact Bool.false_ne_true), List.append_nil]
            | true =>
                rw [hold] at hsame
                obtain ⟨-, lhv, arg, rfl, -⟩ := (isOld_iff _ _).mp hold
                obtain ⟨-, lhv', arg', hout, -⟩ := (isOld_iff _ _).mp hsame
                have hpair : acceptCall FN [lhv, arg] s =
                    ([lhv', arg'], (acceptCall FN [lhv, arg] s).2) := by
                  rw [← hout]
                rw [hpair] at hspec
                rw [hout] at hsame ⊢
                rw [transformOpaqueCallTerm_of_old FN hsame]
                exact TermSpec.old FN hold hspec
          · rw [if_neg hcall]
            have hspec := transformAll_spec subterms hsub s
            obtain ⟨obj', type', name', heq⟩ := rebuild_eq FN obj cls type name subterms
              (transformAll FN subterms s).1
            have hnever : ∀ ts, isOld cls ts = false := by
              intro ts
              rw [Bool.eq_false_iff]
              exact fun h => hcall ((isOld_iff _ _).mp h).1
            rw [heq, transformOpaqueCallTerm_of_not FN (hnever _)]
            refine TermSpec.node hcompound (hnever _) (hnever _) ?_ hspec
            rw [olds, if_pos hcompound, if_neg hcall,
              if_neg (by rw [hnever]; exact Bool.false_ne_true), List.append_nil]
      · next hleaf =>
          have hnames : olds (.mk obj cls type name subterms) = [] := by
            rw [olds, if_neg hleaf]
          rw [TermSpec, hnames]
          refine ⟨Extracted.refl s, ?_, fun V r landed vars _ => ?_⟩
          · rw [mentionsOld_mk, Bool.not_eq_true _ |>.mp hleaf, Bool.false_and]
          · have hfree : cls ≠ .freeVar := by
              refine hparsed (.mk obj cls type name subterms) ?_
              rw [Term.leaves, if_neg hleaf]
              exact List.mem_singleton_self _
            rw [evaluate, if_neg hleaf, if_neg hfree, denote, if_neg hleaf]

theorem acceptCall_spec : (ts : List Term) → (∀ t ∈ ts, Parsed t) → (s : Extraction) →
    ListSpec ts (oldsCall ts) s (acceptCall FN ts s)
  | [], _, s => by
      rw [acceptCall, oldsCall]
      exact ⟨Extracted.refl s, rfl, fun _ _ _ _ _ => by rw [evaluateAll, denoteAll]⟩
  | lhv :: rhv, hparsed, s => by
      have hfirst := transform_spec lhv (hparsed _ List.mem_cons_self) s
      have hrhv := fun t ht => hparsed t (List.mem_cons_of_mem _ ht)
      rw [acceptCall, oldsCall]
      -- what the comparison names
      have hseen : Extracted s
          (if (transform FN lhv s).1 = lhv then compareAll FN rhv (transform FN lhv s).2
            else (transform FN lhv s).2)
          (olds lhv ++ if mentionsOld lhv then [] else oldsFirst rhv) := by
        cases hmentions : mentionsOld lhv with
        | false =>
            rw [if_pos ((transform_eq_iff FN hfirst).mpr hmentions),
              if_neg Bool.false_ne_true]
            exact hfirst.1.trans (compareAll_spec rhv hrhv _)
        | true =>
            rw [if_neg (fun h => by
              rw [(transform_eq_iff FN hfirst).mp h] at hmentions
              cases hmentions), if_pos rfl]
            exact hfirst.1.trans (Extracted.refl _)
      have htaken := transformAll_spec rhv hrhv
        (if (transform FN lhv s).1 = lhv then compareAll FN rhv (transform FN lhv s).2
          else (transform FN lhv s).2)
      refine ⟨hseen.trans htaken.1, ?_, fun V r landed vars hnames => ?_⟩
      · rw [mentionsAny, hfirst.2.1, htaken.2.1, Bool.or_false]
      · obtain ⟨hseenNames, htakenNames⟩ := names_append.mp hnames
        rw [← hseen.1] at htakenNames
        rw [evaluateAll, denoteAll, hfirst.2.2 V r landed vars (names_append.mp hseenNames).1,
          htaken.2.2 V r landed vars htakenNames]

theorem compareAll_spec : (ts : List Term) → (∀ t ∈ ts, Parsed t) → (s : Extraction) →
    Extracted s (compareAll FN ts s) (oldsFirst ts)
  | [], _, s => by
      rw [compareAll, oldsFirst]
      exact Extracted.refl s
  | t :: ts, hparsed, s => by
      have hfirst := transform_spec t (hparsed _ List.mem_cons_self) s
      rw [compareAll, oldsFirst]
      cases hmentions : mentionsOld t with
      | false =>
          rw [if_pos ((transform_eq_iff FN hfirst).mpr hmentions), if_neg Bool.false_ne_true,
            transform_of_not FN t s hmentions]
          exact compareAll_spec ts (fun t ht => hparsed t (List.mem_cons_of_mem _ ht)) s
      | true =>
          rw [if_neg (fun h => by
            rw [(transform_eq_iff FN hfirst).mp h] at hmentions
            cases hmentions), if_pos rfl]
          exact hfirst.1

theorem transformAll_spec : (ts : List Term) → (∀ t ∈ ts, Parsed t) → (s : Extraction) →
    ListSpec ts (oldsAll ts) s (transformAll FN ts s)
  | [], _, s => by
      rw [transformAll, oldsAll]
      exact ⟨Extracted.refl s, rfl, fun _ _ _ _ _ => by rw [evaluateAll, denoteAll]⟩
  | t :: ts, hparsed, s => by
      have hfirst := transform_spec t (hparsed _ List.mem_cons_self) s
      have hrest := transformAll_spec ts (fun t ht => hparsed t (List.mem_cons_of_mem _ ht))
        (transform FN t s).2
      rw [transformAll, oldsAll]
      refine ⟨hfirst.1.trans hrest.1, ?_, fun V r landed vars hnames => ?_⟩
      · rw [mentionsAny, hfirst.2.1, hrest.2.1, Bool.or_false]
      · obtain ⟨hfirstNames, hrestNames⟩ := names_append.mp hnames
        rw [← hfirst.1.1] at hrestNames
        rw [evaluateAll, denoteAll, hfirst.2.2 V r landed vars hfirstNames,
          hrest.2.2 V r landed vars hrestNames]
end

/-! ## The parts of a function -/

/-- An annotation, or a contract of a call: its term, what its terms stand for in the entry state or
at the time of the call, and what those of its bindings do where they land. -/
structure Part (V : Type) where
  term : Term
  parsed : Parsed term
  entry : Reading V
  landed : Reading V

/-- The kinds of logic annotations. -/
inductive LogicAnnotation
  | requires
  | ensures
  | assigns
  | assert
  | assume
deriving DecidableEq

/-- `Locus`; none is the default one. -/
abbrev Locus := Option (String × ℕ × ℕ)

/-- An annotation with the place it is bound to. -/
structure Annotation where
  kind : LogicAnnotation
  locus : Locus
  term : Term
  parsed : Parsed term

/-- A call of a function with contracts, with the state before it. -/
structure Call (V : Type) where
  state : Reading V
  caller : Caller
  site : CallSite
  materialize : Term → Option Term
  contracts : List {t : Term // Parsed t}

/-- A function: the state at its start, what becomes of names and builtins in an annotation of a
kind at a locus, its annotations and its calls. -/
structure Function (V : Type) where
  state : Reading V
  materialize : LogicAnnotation → Locus → Term → Option Term
  annotations : List Annotation
  calls : List (Call V)

/-- What `AnnotationProcessor` lands.  The locus of an extractor is the default one, and its
bindings are assumptions. -/
def Function.partOf (f : Function V) (anno : Annotation) : Part V where
  term := anno.term
  parsed := anno.parsed
  entry := f.state.before (f.materialize anno.kind anno.locus)
  landed := f.state.before (f.materialize .assume none)

/-- What `FunctionDecomposer` lands: only the contract goes through `CallSiteInitializer`. -/
def Call.partOf (call : Call V) (contract : {t : Term // Parsed t}) : Part V where
  term := contract.1
  parsed := contract.2
  entry := (call.state.before (CallSiteInitializer.transformLeaf call.caller call.site)).before
    call.materialize
  landed := call.state.before call.materialize

/-- All that is extracted in a function. -/
def Function.parts (f : Function V) : List (Part V) :=
  f.annotations.map f.partOf ++ f.calls.flatMap fun call => call.contracts.map call.partOf

/-- The bindings of all parts hold together, every variable has the value of the argument of its
`\old` in the entry state, and every part says what it did. -/
structure Captures (f : Function V) (vars : String → V) : Prop where
  bindings : ∀ part ∈ f.parts, ∀ binding ∈ (extract FN part.term).2.assumes,
    vars binding.name = evaluate part.landed vars binding.arg
  values : ∀ part ∈ f.parts, ∀ k e, (olds part.term)[k]? = some e →
    vars (freeName k) = denote part.entry part.entry e
  meanings : ∀ part ∈ f.parts, ∀ here : Reading V,
    evaluate here vars (extract FN part.term).1 = denote here part.entry part.term

/-- When they do: what is bound is what was meant, and the arguments that are named by one number
have one value. -/
structure Capturable (f : Function V) : Prop where
  landed : ∀ part ∈ f.parts, ∀ e ∈ olds part.term,
    denote part.landed part.landed e = denote part.entry part.entry e
  agree : ∀ part ∈ f.parts, ∀ part' ∈ f.parts, ∀ (k : ℕ) (e e' : Term),
    (olds part.term)[k]? = some e → (olds part'.term)[k]? = some e' →
      denote part.entry part.entry e = denote part'.entry part'.entry e'

theorem freeName_injective : Function.Injective freeName := by
  intro m n h
  have hlists := congrArg String.toList h
  rw [freeName, freeName, String.toList_append, String.toList_append] at hlists
  exact Nat.repr_injective (String.toList_injective (List.append_cancel_left hlists))

/-- The bindings hold where the variables have the values of what is bound. -/
theorem Defines.hold_iff {seed : ℕ} {es : List Term} {bs : List OldBinding}
    (h : Defines seed es bs) (landed : Reading V) (vars : String → V) :
    (∀ b ∈ bs, vars b.name = evaluate landed vars b.arg) ↔ Names landed vars seed es := by
  induction h with
  | nil => exact iff_of_true (fun _ hb => absurd hb List.not_mem_nil) fun _ _ he => by cases he
  | @snoc es bs e b _ hname hvalue ih =>
      constructor
      · intro hbindings
        have hbefore := ih.mp fun b hb => hbindings b (List.mem_append_left _ hb)
        refine names_append.mpr ⟨hbefore, fun k e' he' => ?_⟩
        obtain ⟨hk, rfl⟩ := List.getElem?_eq_some_iff.mp he'
        have hzero : k = 0 := Nat.lt_one_iff.mp hk
        subst hzero
        have hlast := hbindings b (List.mem_append_right _ (List.mem_singleton_self _))
        rw [hname, hvalue V landed vars hbefore] at hlast
        exact hlast
      · intro hnames b' hb'
        obtain ⟨hbefore, hlast⟩ := names_append.mp hnames
        cases List.mem_append.mp hb' with
        | inl hb' => exact ih.mpr hbefore b' hb'
        | inr hb' =>
            rw [List.mem_singleton.mp hb', hname, hvalue V landed vars hbefore]
            exact hlast 0 e rfl

/-- The bindings of a part. -/
theorem bindings_iff (part : Part V) (vars : String → V) :
    (∀ binding ∈ (extract FN part.term).2.assumes,
        vars binding.name = evaluate part.landed vars binding.arg) ↔
      Names part.landed vars 0 (olds part.term) := by
  obtain ⟨-, new, hnew, hdefines⟩ := (transform_spec FN part.term part.parsed ⟨0, []⟩).1
  rw [extract, hnew, List.nil_append]
  exact hdefines.hold_iff part.landed vars

/-- **Old values are captured** where what is bound is what was meant and the arguments that are
named by one number agree. -/
theorem captures_iff (f : Function V) : (∃ vars, Captures FN f vars) ↔ Capturable f := by
  constructor
  · rintro ⟨vars, hcaptures⟩
    refine ⟨fun part hpart e he => ?_, fun part hpart part' hpart' k e e' he he' => ?_⟩
    · obtain ⟨k, hk⟩ := List.getElem?_of_mem he
      have hbound := (bindings_iff FN part vars).mp (hcaptures.bindings part hpart) k e hk
      rw [Nat.zero_add] at hbound
      exact hbound.symm.trans (hcaptures.values part hpart k e hk)
    · exact (hcaptures.values part hpart k e he).symm.trans
        (hcaptures.values part' hpart' k e' he')
  · intro h
    -- the value of any part that uses the number
    let Named : String → V → Prop := fun name v => ∃ part ∈ f.parts, ∃ k e,
      name = freeName k ∧ (olds part.term)[k]? = some e ∧ v = denote part.entry part.entry e
    let vars : String → V := fun name =>
      haveI := Classical.propDecidable (∃ v, Named name v)
      if hv : ∃ v, Named name v then hv.choose else f.state.leaf none
    have hvalues : ∀ part ∈ f.parts, ∀ k e, (olds part.term)[k]? = some e →
        vars (freeName k) = denote part.entry part.entry e := by
      intro part hpart k e he
      have hv : ∃ v, Named (freeName k) v := ⟨_, part, hpart, k, e, rfl, he, rfl⟩
      obtain ⟨part', hpart', k', e', hname, he', hchosen⟩ := hv.choose_spec
      have hkey := freeName_injective hname
      subst hkey
      calc vars (freeName k) = hv.choose := dif_pos hv
        _ = denote part'.entry part'.entry e' := hchosen
        _ = denote part.entry part.entry e := h.agree part' hpart' part hpart k e' e he' he
    refine ⟨vars, fun part hpart => ?_, hvalues, fun part hpart here => ?_⟩
    · refine (bindings_iff FN part vars).mpr fun k e he => ?_
      rw [Nat.zero_add, hvalues part hpart k e he]
      exact (h.landed part hpart e (List.mem_of_getElem? he)).symm
    · refine (transform_spec FN part.term part.parsed ⟨0, []⟩).2.2 V here part.entry vars ?_
      intro k e he
      rw [Nat.zero_add]
      exact hvalues part hpart k e he

/-! ## Two annotations -/

/-- A name as the parser reads it. -/
def opaqueVar (name : String) : Term := .mk 0 .opaqueVar .unknownType name []

/-- An annotation that is the `\old` of a name. -/
def ensuresOld (name : String) : Annotation where
  kind := .ensures
  locus := none
  term := .mk 0 .opaqueCall .unknownType ""
    [.mk 0 .opaqueBuiltin .unknownType "\\old" [], opaqueVar name]
  parsed := by
    intro leaf hleaf
    have hmem : leaf ∈ [Term.mk 0 .opaqueBuiltin .unknownType "\\old" [], opaqueVar name] := hleaf
    rcases List.mem_pair.mp hmem with rfl | rfl <;> exact fun h => by cases h

/-- A function where every name is a variable of that name, and the annotations on it. -/
def annotated (names : List String) : Function String where
  state := ⟨fun t => (t.map Term.getName).getD "", fun _ _ => ""⟩
  materialize := fun _ _ t => some t
  annotations := names.map ensuresOld
  calls := []

/-- **Two annotations** bind one name to two values. -/
theorem not_captures :
    ¬ ∀ (FN : TermFactory) (f : Function String), ∃ vars, Captures FN f vars := by
  intro h
  obtain ⟨vars, hcaptures⟩ := h ⟨fun _ type _ => type, fun _ _ _ => ""⟩ (annotated ["x", "y"])
  have hx := hcaptures.values ((annotated ["x", "y"]).partOf (ensuresOld "x"))
    (List.mem_append_left _ (List.mem_map_of_mem List.mem_cons_self)) 0 (opaqueVar "x") rfl
  have hy := hcaptures.values ((annotated ["x", "y"]).partOf (ensuresOld "y"))
    (List.mem_append_left _ (List.mem_map_of_mem (List.mem_cons_of_mem _ List.mem_cons_self)))
    0 (opaqueVar "y") rfl
  exact absurd (hx.symm.trans hy) (by decide)

end OldValueExtractor

end Borealis
