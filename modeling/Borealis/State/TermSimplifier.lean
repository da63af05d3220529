import Borealis.State.CallSiteInitializer
import Borealis.Term.MachineValue

/-!
# The simplifier of terms

`Simplifier` rewrites a term from the leaves up: negated comparisons, connectives with a constant,
comparisons, and axiom terms, whose axioms go to a list of the object and are attached to the result
at level zero.

A comparison that is strict falls through to the case of `FALSE` when its sides differ, so it
always becomes false.  The list of axioms is never emptied, so a result also carries the axioms of
the terms that the object simplified before.

## Strategy

`transformTerm_eq` separates the list from the rewriting, and `axioms_eq` says what a term adds to
it.  `Kept` collects what a rewritten term has in common with the original: the value, the type,
and that constants stay.  One node keeps this when its operands do and it is no strict comparison
that is true (`kept_transformNode`), and a whole term by induction.
-/

namespace Borealis

/-- `makeNot`, which ends in `BYE_BYE` for `UNKNOWN`. -/
def Simplifier.makeNot : ConditionType → Option ConditionType
  | .eq => some .neq
  | .neq => some .eq
  | .gt => some .le
  | .ge => some .lt
  | .lt => some .ge
  | .le => some .gt
  | .ugt => some .ule
  | .uge => some .ult
  | .ult => some .uge
  | .ule => some .ugt
  | .true => some .false
  | .false => some .true
  | .unknown => none

/-- The comparisons that fall through to `FALSE`. -/
def ConditionType.IsStrict (op : ConditionType) : Prop :=
  op = .neq ∨ op = .gt ∨ op = .ugt ∨ op = .lt ∨ op = .ult

namespace Simplifier

variable (FN : TermFactory)

/-- `FN.Term->getTrueTerm()`. -/
def tru : Term := TermFactory.getBooleanTerm true

/-- `FN.Term->getFalseTerm()`. -/
def fls : Term := TermFactory.getBooleanTerm false

/-- `transformUnaryTerm`. -/
def transformUnaryTerm (t : Term) (op : UnaryArithType) (rhv : Term) : Option Term :=
  match op with
  | .not =>
    match rhv with
    | .mk _ (.cmp cmpOp) _ _ [cmpLhv, cmpRhv] =>
      (makeNot cmpOp).map fun negated => FN.getCmpTerm negated cmpLhv cmpRhv
    | rhv =>
      if rhv.equals tru then some fls
      else if rhv.equals fls then some tru
      else some t
  | _ => some t

/-- `transformBinaryTerm`. -/
def transformBinaryTerm (t : Term) (op : ArithType) (lhv rhv : Term) : Term :=
  match op with
  | .land =>
    if lhv.equals tru then rhv
    else if rhv.equals tru then lhv
    else if lhv.equals fls then fls
    else if rhv.equals fls then fls
    else t
  | .lor =>
    if lhv.equals fls then rhv
    else if rhv.equals fls then lhv
    else if lhv.equals tru then tru
    else if rhv.equals tru then tru
    else t
  | _ => t

/-- `transformCmpTerm`.  The test for equal sides has no effect: without a `break` the next case
returns the same. -/
def transformCmpTerm (t : Term) (op : ConditionType) (lhv rhv : Term) : Term :=
  match op with
  | .neq | .gt | .ugt | .lt | .ult => if lhv.equals rhv then fls else fls
  | .false => fls
  | .true => tru
  | _ => t

/-- The overridden method of the class, for a term with these subterms. -/
def transformNode (t : Term) (cls : TermClass) (subterms axs : List Term) :
    Option (Term × List Term) :=
  match cls, subterms with
  | .axiomTerm, [lhv, rhv] => some (lhv, axs ++ [rhv])
  | .unary op, [rhv] => (transformUnaryTerm FN t op rhv).map fun t' => (t', axs)
  | .binary op, [lhv, rhv] => some (transformBinaryTerm t op lhv rhv, axs)
  | .cmp op, [lhv, rhv] => some (transformCmpTerm t op lhv rhv, axs)
  | _, _ => some (t, axs)

/-- What `accept` returns when the subterms have been transformed. -/
def accepted (t : Term) (subterms : List Term) : Term :=
  if subterms = t.getSubterms then t else FN.build t.cls t.getType subterms

mutual
/-- `transformBase` below level zero: the result, and the list of axioms afterwards. -/
def transformTerm (axs : List Term) : Term → Option (Term × List Term)
  | .mk obj cls type name subterms =>
    if cls.isCompound then
      (transformTerms axs subterms).bind fun r =>
        transformNode FN (accepted FN (.mk obj cls type name subterms) r.1) cls r.1 r.2
    else some (.mk obj cls type name subterms, axs)

/-- The subterms, one after the other. -/
def transformTerms (axs : List Term) : List Term → Option (List Term × List Term)
  | [] => some ([], axs)
  | t :: ts =>
    (transformTerm axs t).bind fun r =>
      (transformTerms r.2 ts).map fun rs => (r.1 :: rs.1, rs.2)
end

/-- The term with the axioms attached. -/
def attach (axs : List Term) (res : Term) : Term :=
  match axs with
  | [] => res
  | acc :: rest => FN.build .axiomTerm .unknownType
      [res, rest.foldl (fun acc next => FN.getBinaryTerm .land acc next) acc]

/-- `transform`: the result, and the list of axioms, all of which are attached to it. -/
def transform (axs : List Term) (t : Term) : Option (Term × List Term) :=
  (transformTerm FN axs t).map fun r => (attach FN r.2 r.1, r.2)

/-- The list of axioms after a sequence of terms. -/
def transformAll (axs : List Term) : List Term → Option (List Term)
  | [] => some axs
  | t :: ts => (transform FN axs t).bind fun r => transformAll r.2 ts

end Simplifier

/-! ## Values -/

/-- What the leaves of a term stand for, and what the operators do that the simplifier leaves
alone. -/
structure Interpretation where
  leaf : TermClass → Ty → String → Option Meaning
  node : TermClass → Ty → List (Option Meaning) → Option Meaning

/-- The value of a term of this class from those of its subterms. -/
def TermClass.valueIn (I : Interpretation) :
    TermClass → Ty → String → List (Option Meaning) → Option Meaning
  | .opaqueBoolConstant b, _, _, _ => some (.bool b)
  | .axiomTerm, _, _, [lhv, _] => lhv
  | .axiomTerm, _, _, _ => none
  | .binary .land, _, _, [some (.bool a), some (.bool b)] => some (.bool (a && b))
  | .binary .land, _, _, _ => none
  | .binary .lor, _, _, [some (.bool a), some (.bool b)] => some (.bool (a || b))
  | .binary .lor, _, _, _ => none
  | .unary .not, _, _, [some (.bool a)] => some (.bool !a)
  | .unary .not, _, _, _ => none
  | .cmp op, _, _, [some lhv, some rhv] => lhv.machineCmp op rhv
  | .cmp _, _, _, _ => none
  | cls, type, name, operands =>
    if cls.isCompound then I.node cls type operands else I.leaf cls type name

namespace Term

mutual
/-- The value of a term. -/
def valueIn (I : Interpretation) : Term → Option Meaning
  | mk _ cls type name subterms => cls.valueIn I type name (valuesIn I subterms)

/-- The values of the subterms. -/
def valuesIn (I : Interpretation) : List Term → List (Option Meaning)
  | [] => []
  | t :: ts => valueIn I t :: valuesIn I ts
end

/-- Every strict comparison in the term is false. -/
def StrictFalse (I : Interpretation) (t : Term) : Prop :=
  ∀ u ∈ t.collected, ∀ op, u.cls = .cmp op → op.IsStrict → u.valueIn I = some (.bool false)

/-! ## Terms of the factory -/

/-- A transformed term that can stand for another as an operand of the factory: it has the same
type, and a constant is left alone. -/
def SameKind (t u : Term) : Prop := u.getType = t.getType ∧ (t.isConstantTerm = true → u = t)

/-- The node is one that the factory makes.  Its type follows from the types of the subterms and
from constants among them; conditions are boolean, and constants are named after their values. -/
structure Made (FN : TermFactory) (cls : TermClass) (type : Ty) (name : String)
    (subterms : List Term) : Prop where
  leaf_subterms : cls.isCompound = false → subterms = []
  build_type : cls.isCompound = true → ∀ subterms', List.Forall₂ SameKind subterms subterms' →
    FN.type cls type subterms' = type
  cmp_type : ∀ op, cls = .cmp op → type = .bool ∧ ∀ op' subterms',
    List.Forall₂ SameKind subterms subterms' → FN.type (.cmp op') .bool subterms' = .bool
  connective_type : cls = .binary .land ∨ cls = .binary .lor ∨ cls = .unary .not →
    type = .bool ∧ ∀ u ∈ subterms, u.getType = .bool
  axiom_type : cls = .axiomTerm → ∀ lhv rhv, subterms = [lhv, rhv] → type = lhv.getType
  property_type : cls = .readProperty → ∀ rhv rest, subterms = rhv :: rest →
    ∃ pointed memspace, rhv.getType = .pointer pointed memspace
  constant_name : ∀ b, cls = .opaqueBoolConstant b → type = .bool ∧ name = toString b

mutual
/-- Every node is one that the factory makes. -/
def AllMade (FN : TermFactory) : Term → Prop
  | mk _ cls type name subterms => Made FN cls type name subterms ∧ AllMadeSubterms FN subterms

/-- The same for the subterms. -/
def AllMadeSubterms (FN : TermFactory) : List Term → Prop
  | [] => True
  | t :: ts => AllMade FN t ∧ AllMadeSubterms FN ts
end

end Term

/-! ## The list of axioms -/

namespace Simplifier

/-- The axiom that a node is there for, as the simplifier keeps it. -/
def axiomOf (FN : TermFactory) : Term → Option Term
  | .mk _ .axiomTerm _ _ [_, rhv] => (transformTerm FN [] rhv).map Prod.fst
  | _ => none

/-- The axioms that occur in a term. -/
def axiomsIn (FN : TermFactory) (t : Term) : List Term := t.collected.filterMap (axiomOf FN)

variable {FN : TermFactory}

theorem transformNode_eq (t : Term) (cls : TermClass) (subterms axs : List Term) :
    transformNode FN t cls subterms axs =
      (transformNode FN t cls subterms []).map fun r => (r.1, axs ++ r.2) := by
  unfold transformNode
  split
  · rfl
  · rw [Option.map_map]
    exact congrArg (fun f => Option.map f _) (funext fun t' => by simp)
  · simp
  · simp
  · simp

mutual
/-- **The list only collects**: what is in it has no effect. -/
theorem transformTerm_eq (axs : List Term) : (t : Term) →
    transformTerm FN axs t = (transformTerm FN [] t).map fun r => (r.1, axs ++ r.2)
  | .mk obj cls type name subterms => by
    rw [transformTerm, transformTerm]
    split
    · rw [transformTerms_eq axs subterms, Option.bind_map, Option.map_bind]
      refine congrArg (fun f => Option.bind _ f) (funext fun r => ?_)
      simp only [Function.comp_apply]
      rw [transformNode_eq, transformNode_eq _ _ _ r.2, Option.map_map]
      exact congrArg (fun f => Option.map f _) (funext fun r' => by simp)
    · simp

theorem transformTerms_eq (axs : List Term) : (ts : List Term) →
    transformTerms FN axs ts = (transformTerms FN [] ts).map fun r => (r.1, axs ++ r.2)
  | [] => by simp [transformTerms]
  | t :: ts => by
    rw [transformTerms, transformTerms, transformTerm_eq axs t, Option.bind_map, Option.map_bind]
    refine congrArg (fun f => Option.bind _ f) (funext fun r => ?_)
    simp only [Function.comp_apply]
    rw [transformTerms_eq (axs ++ r.2) ts, transformTerms_eq r.2 ts, Option.map_map, Option.map_map,
      Option.map_map]
    exact congrArg (fun f => Option.map f _) (funext fun r' => by simp)
end

/-- Each result belongs to its own subterm. -/
theorem transformTerms_forall {axs ts : List Term} {rs : List Term × List Term}
    (hrs : transformTerms FN axs ts = some rs) :
    List.Forall₂ (fun t t' => (transformTerm FN [] t).map Prod.fst = some t') ts rs.1 := by
  induction ts generalizing axs rs with
  | nil =>
      obtain rfl := Option.some.inj hrs
      exact .nil
  | cons t ts ih =>
      obtain ⟨r, hr, hrest⟩ := Option.bind_eq_some_iff.1 hrs
      obtain ⟨rs', hrs', rfl⟩ := Option.map_eq_some_iff.1 hrest
      refine .cons ?_ (ih hrs')
      rw [transformTerm_eq] at hr
      obtain ⟨r', hr', rfl⟩ := Option.map_eq_some_iff.1 hr
      rw [hr', Option.map_some]

/-- Only axiom terms add to the list. -/
theorem transformNode_snd {t : Term} {cls : TermClass} {subterms axs : List Term}
    {r : Term × List Term} (hr : transformNode FN t cls subterms axs = some r)
    (hcls : cls ≠ .axiomTerm) : r.2 = axs := by
  unfold transformNode at hr
  split at hr
  · exact absurd rfl hcls
  · obtain ⟨t', _, rfl⟩ := Option.map_eq_some_iff.1 hr
    rfl
  all_goals
    obtain rfl := Option.some.inj hr
    rfl

/-- What a node adds to the list. -/
theorem axioms_transformNode {t : Term} {cls : TermClass} {type : Ty} {name : String} {obj : ℕ}
    {subterms subterms' axs : List Term} {r : Term × List Term}
    (hsubterms : List.Forall₂ (fun t t' => (transformTerm FN [] t).map Prod.fst = some t')
      subterms subterms')
    (hr : transformNode FN t cls subterms' axs = some r) :
    r.2 = axs ++ [Term.mk obj cls type name subterms].filterMap (axiomOf FN) := by
  have hother : axiomOf FN (.mk obj cls type name subterms) = none → r.2 = axs →
      r.2 = axs ++ [Term.mk obj cls type name subterms].filterMap (axiomOf FN) := by
    intro hnone haxs
    rw [List.filterMap_cons, hnone, List.filterMap_nil, List.append_nil, haxs]
  cases cls with
  | axiomTerm =>
      rcases hsubterms with _ | ⟨hlhv, _ | ⟨hrhv, _ | _⟩⟩
      · exact hother rfl (by rw [← Option.some.inj hr])
      · exact hother rfl (by rw [← Option.some.inj hr])
      · rw [← Option.some.inj hr, List.filterMap_cons, axiomOf, hrhv]
        rfl
      · exact hother rfl (by rw [← Option.some.inj hr])
  | _ => exact hother rfl (transformNode_snd hr TermClass.noConfusion)

mutual
/-- **The list gets the axioms that occur in the term**, and no others. -/
theorem axioms_eq {r : Term × List Term} : (t : Term) → t.AllMade FN →
    transformTerm FN [] t = some r → r.2 = axiomsIn FN t
  | .mk obj cls type name subterms, hmade, hr => by
    rw [transformTerm] at hr
    rw [axiomsIn, Term.collected, List.filterMap_append]
    split at hr
    · obtain ⟨rs, hrs, hnode⟩ := Option.bind_eq_some_iff.1 hr
      rw [axioms_transformNode (transformTerms_forall hrs) hnode,
        axiomsAll_eq subterms hmade.2 hrs]
    · next hleaf =>
      obtain rfl := hmade.1.leaf_subterms (Bool.eq_false_of_not_eq_true hleaf)
      obtain rfl := Option.some.inj hr
      have hnone : axiomOf FN (.mk obj cls type name []) = none := by
        unfold axiomOf
        split <;> simp_all
      rw [Term.collectedAll, List.filterMap_nil, List.filterMap_cons, hnone]
      rfl

theorem axiomsAll_eq {rs : List Term × List Term} : (ts : List Term) →
    Term.AllMadeSubterms FN ts → transformTerms FN [] ts = some rs →
    rs.2 = (Term.collectedAll ts).filterMap (axiomOf FN)
  | [], _, hrs => by
    obtain rfl := Option.some.inj hrs
    rfl
  | t :: ts, hmade, hrs => by
    obtain ⟨r, hr, hrest⟩ := Option.bind_eq_some_iff.1 hrs
    obtain ⟨rs', hrs', rfl⟩ := Option.map_eq_some_iff.1 hrest
    rw [transformTerms_eq] at hrs'
    obtain ⟨rs'', hrs'', rfl⟩ := Option.map_eq_some_iff.1 hrs'
    rw [Term.collectedAll, List.filterMap_append, ← axiomsAll_eq ts hmade.2 hrs'',
      axioms_eq t hmade.1 hr, axiomsIn]
end

/-! ## Values of the results -/

/-- What a result has in common with the term it stands for. -/
structure Kept (FN : TermFactory) (I : Interpretation) (t r : Term) : Prop where
  value : r.valueIn I = t.valueIn I
  kind : t.SameKind r
  constant_name : ∀ b, r.cls = .opaqueBoolConstant b → r.getName = toString b
  cmp_type : ∀ op, r.cls = .cmp op → ∀ op', FN.type (.cmp op') .bool r.getSubterms = .bool

section Values

variable {I : Interpretation} {t : Term}

/-- A result of an operand can be the result of a term that has the value and the type of the
operand. -/
theorem Kept.standsFor {u r : Term} (h : Kept FN I u r) (hvalue : t.valueIn I = u.valueIn I)
    (htype : t.getType = u.getType) (hconst : t.isConstantTerm = false) : Kept FN I t r where
  value := h.value.trans hvalue.symm
  kind := ⟨h.kind.1.trans htype.symm, fun hc => absurd hc (by simp [hconst])⟩
  constant_name := h.constant_name
  cmp_type := h.cmp_type

theorem kept_constant {b : Bool} (hvalue : t.valueIn I = some (.bool b)) (htype : t.getType = .bool)
    (hconst : t.isConstantTerm = false) : Kept FN I t (TermFactory.getBooleanTerm b) where
  value := hvalue.symm
  kind := ⟨htype.symm, fun hc => absurd hc (by simp [hconst])⟩
  constant_name := fun b' hb => by
    obtain rfl := TermClass.opaqueBoolConstant.inj hb
    rfl
  cmp_type := fun _ hcls => TermClass.noConfusion hcls

/-- A term that is equal to a boolean constant has its value. -/
theorem Kept.value_of_equals {u r : Term} {b : Bool} (h : Kept FN I u r)
    (heq : r.equals (TermFactory.getBooleanTerm b) = true) : r.valueIn I = some (.bool b) := by
  have hname := h.constant_name
  obtain ⟨obj, cls, type, name, subterms⟩ := r
  rw [TermFactory.getBooleanTerm, Term.equals, Bool.and_eq_true, Bool.and_eq_true,
    decide_eq_true_eq, decide_eq_true_eq] at heq
  obtain ⟨⟨hcompared, hb⟩, -⟩ := heq
  cases cls with
  | opaqueBoolConstant b' =>
      have hsame : toString b' = toString b := (hname b' rfl).symm.trans hb
      have hbb : b' = b := by
        revert hsame
        cases b <;> cases b' <;> decide
      subst hbb
      rfl
  | _ => exact TermClass.noConfusion hcompared

/-! ### Negation -/

theorem bvCompare_makeNot {w : ℕ} {op op' : ConditionType} (hop : makeNot op = some op')
    (x y : BitVec w) :
    Meaning.bvCompare op' x y = (Meaning.bvCompare op x y).map not := by
  cases op with
  | unknown => exact absurd hop (Option.some_ne_none _).symm
  | eq | neq | true | false =>
      obtain rfl := Option.some.inj hop
      simp [Meaning.bvCompare]
  | gt | lt | ge | le =>
      obtain rfl := Option.some.inj hop
      simp [Meaning.bvCompare, BitVec.sle_eq_not_slt]
  | ugt | ult | uge | ule =>
      obtain rfl := Option.some.inj hop
      simp [Meaning.bvCompare, BitVec.ule_eq_not_ult]

theorem machineCmp_makeNot {op op' : ConditionType} (hop : makeNot op = some op')
    {lhv rhv m : Meaning} (hm : lhv.machineCmp op rhv = some m) :
    ∃ c, m = .bool c ∧ lhv.machineCmp op' rhv = some (.bool !c) := by
  cases lhv with
  | bool a =>
      cases rhv with
      | bool b =>
          obtain ⟨c, hc, rfl⟩ := Option.map_eq_some_iff.1 hm
          refine ⟨c, rfl, ?_⟩
          rw [Meaning.machineCmp, bvCompare_makeNot hop, hc]
          rfl
      | bv n y => exact absurd hm (Option.some_ne_none _).symm
  | bv k x =>
      cases rhv with
      | bool b => exact absurd hm (Option.some_ne_none _).symm
      | bv n y =>
          rw [Meaning.machineCmp] at hm ⊢
          split_ifs at hm with hn
          subst hn
          obtain ⟨c, hc, rfl⟩ := Option.map_eq_some_iff.1 hm
          refine ⟨c, rfl, ?_⟩
          rw [dif_pos rfl, bvCompare_makeNot hop, hc]
          rfl

/-- The value of a comparison. -/
theorem valueIn_cmp_eq_some {op : ConditionType} {type : Ty} {name : String} {obj : ℕ}
    {subterms : List Term} {m : Meaning}
    (hm : (Term.mk obj (.cmp op) type name subterms).valueIn I = some m) :
    ∃ lhv rhv a b, subterms = [lhv, rhv] ∧ lhv.valueIn I = some a ∧ rhv.valueIn I = some b ∧
      a.machineCmp op b = some m := by
  rcases subterms with _ | ⟨lhv, _ | ⟨rhv, _ | _⟩⟩
  · exact absurd hm (Option.some_ne_none _).symm
  · simp [Term.valueIn, Term.valuesIn, TermClass.valueIn] at hm
  · rw [Term.valueIn, Term.valuesIn, Term.valuesIn, Term.valuesIn] at hm
    rcases ha : lhv.valueIn I with _ | a
    · simp [ha, TermClass.valueIn] at hm
    · rcases hb : rhv.valueIn I with _ | b
      · simp [ha, hb, TermClass.valueIn] at hm
      · rw [ha, hb] at hm
        exact ⟨lhv, rhv, a, b, rfl, ha, hb, hm⟩
  · simp [Term.valueIn, Term.valuesIn, TermClass.valueIn] at hm

/-! ### One node -/

theorem valueIn_of_compound {cls : TermClass} (hcls : cls.isCompound = true) (type : Ty)
    (name name' : String) (operands : List (Option Meaning)) :
    cls.valueIn I type name operands = cls.valueIn I type name' operands := by
  unfold TermClass.valueIn
  split <;> simp_all

theorem isConstantTerm_of_compound {cls : TermClass} (hcls : cls.isCompound = true) (obj : ℕ)
    (type : Ty) (name : String) (subterms : List Term) :
    (Term.mk obj cls type name subterms).isConstantTerm = false := by
  cases cls <;> first | rfl | exact absurd hcls (by decide) | simp [TermClass.isCompound] at hcls

theorem valuesIn_eq_of_kept {ts rs : List Term} (hrs : List.Forall₂ (Kept FN I) ts rs) :
    Term.valuesIn I rs = Term.valuesIn I ts := by
  induction hrs with
  | nil => rfl
  | cons hhead _ ih => rw [Term.valuesIn, Term.valuesIn, hhead.value, ih]

variable {obj : ℕ} {cls : TermClass} {type : Ty} {name : String} {subterms rs : List Term}

/-- The term that `accept` makes has the new subterms. -/
theorem accepted_eq (obj : ℕ) (hmade : Term.Made FN cls type name subterms)
    (hcls : cls.isCompound = true)
    (hrs : List.Forall₂ (Kept FN I) subterms rs) :
    ∃ obj' name', accepted FN (.mk obj cls type name subterms) rs =
      .mk obj' cls type name' rs := by
  have hkinds : List.Forall₂ Term.SameKind subterms rs := hrs.imp fun _ _ h => h.kind
  unfold accepted
  split_ifs with hsame
  · obtain rfl : rs = subterms := hsame
    exact ⟨obj, name, rfl⟩
  · have htype := hmade.build_type hcls rs hkinds
    have hplain : ∃ obj' name', Term.mk 0 cls (FN.type cls type rs) (FN.name cls type rs) rs =
        .mk obj' cls type name' rs := ⟨_, _, by rw [htype]⟩
    show ∃ obj' name', FN.build cls type rs = _
    unfold TermFactory.build
    split
    · next rhv' rest' hrhv =>
      rcases hkinds with _ | ⟨hhead, _⟩
      obtain ⟨pointed, memspace, hpointer⟩ := hmade.property_type rfl _ _ rfl
      rw [hhead.1, hpointer]
      exact hplain
    · exact hplain

/-- The rebuilt term stands for the original. -/
theorem kept_accepted (hmade : Term.Made FN cls type name subterms) (hcls : cls.isCompound = true)
    (hrs : List.Forall₂ (Kept FN I) subterms rs) :
    Kept FN I (.mk obj cls type name subterms)
      (accepted FN (.mk obj cls type name subterms) rs) := by
  obtain ⟨obj', name', heq⟩ := accepted_eq obj hmade hcls hrs
  have hconst := isConstantTerm_of_compound hcls obj type name subterms
  rw [heq]
  refine ⟨?_, ⟨rfl, fun hc => absurd hc (by simp [hconst])⟩, ?_, ?_⟩
  · rw [Term.valueIn, Term.valueIn, valuesIn_eq_of_kept hrs]
    exact valueIn_of_compound hcls _ _ _ _
  · rintro b rfl
    exact absurd hcls Bool.false_ne_true
  · exact fun op hop op' => (hmade.cmp_type op hop).2 op' rs (hrs.imp fun _ _ h => h.kind)

/-- `transformUnaryTerm` keeps the value. -/
theorem kept_transformUnaryTerm {op : UnaryArithType} {rhv rhv' t' : Term}
    (hmade : Term.Made FN (.unary op) type name [rhv]) (hself : Kept FN I t t')
    (ht : t = .mk obj (.unary op) type name [rhv]) (hvalue : t.valueIn I ≠ none)
    (hrhv : Kept FN I rhv rhv') :
    ∃ r, transformUnaryTerm FN t' op rhv' = some r ∧ Kept FN I t r := by
  cases op with
  | neg | bnot => exact ⟨t', rfl, hself⟩
  | not =>
      have htype : t.getType = .bool := by
        rw [ht]
        exact (hmade.connective_type (Or.inr (Or.inr rfl))).1
      have hconst : t.isConstantTerm = false := by
        rw [ht]
        rfl
      obtain ⟨a, ha⟩ : ∃ a, rhv.valueIn I = some (.bool a) := by
        rw [ht, Term.valueIn, Term.valuesIn, Term.valuesIn] at hvalue
        rcases h : rhv.valueIn I with _ | a | ⟨w, x⟩
        · exact absurd (by rw [h]; rfl) hvalue
        · exact ⟨a, rfl⟩
        · exact absurd (by rw [h]; rfl) hvalue
      have hnot : t.valueIn I = some (.bool !a) := by
        rw [ht, Term.valueIn, Term.valuesIn, Term.valuesIn, ha]
        rfl
      have ha' : rhv'.valueIn I = some (.bool a) := hrhv.value.trans ha
      have hread : ∀ b, rhv'.equals (TermFactory.getBooleanTerm b) = true → a = b := fun b h =>
        Meaning.bool.inj (Option.some.inj (ha'.symm.trans (hrhv.value_of_equals h)))
      unfold transformUnaryTerm
      dsimp only
      split
      · next _ cmpOp _ _ cmpLhv cmpRhv =>
        obtain ⟨lhv, rhv, x, y, hsub, hx, hy, hcmp⟩ := valueIn_cmp_eq_some ha'
        simp only [List.cons.injEq, and_true] at hsub
        obtain ⟨rfl, rfl⟩ := hsub
        cases hop : makeNot cmpOp with
        | none =>
            -- `UNKNOWN` has no value
            obtain rfl : cmpOp = .unknown := by
              cases cmpOp <;> first | rfl | exact absurd hop (Option.some_ne_none _)
            cases x <;> cases y <;> simp [Meaning.machineCmp, Meaning.bvCompare] at hcmp
        | some negated =>
            obtain ⟨c, hc, hnegated⟩ := machineCmp_makeNot hop hcmp
            obtain rfl := Meaning.bool.inj hc
            refine ⟨FN.getCmpTerm negated _ _, rfl, ?_,
              ⟨?_, fun h => absurd h (by simp [hconst])⟩, ?_, ?_⟩
            · rw [hnot, TermFactory.getCmpTerm, Term.valueIn, Term.valuesIn, Term.valuesIn,
                Term.valuesIn, hx, hy]
              exact hnegated
            · exact (hrhv.cmp_type cmpOp rfl negated).trans htype.symm
            · exact fun _ h => TermClass.noConfusion h
            · exact fun _ _ op' => hrhv.cmp_type cmpOp rfl op'
      · split_ifs with htru hfls
        · obtain rfl := hread _ htru
          exact ⟨_, rfl, kept_constant hnot htype hconst⟩
        · obtain rfl := hread _ hfls
          exact ⟨_, rfl, kept_constant hnot htype hconst⟩
        · exact ⟨t', rfl, hself⟩

/-- The values of the operands of a connective. -/
theorem valueIn_connective {op : ArithType} (hop : op = .land ∨ op = .lor)
    (hvalue : (Term.mk obj (.binary op) type name subterms).valueIn I ≠ none) :
    ∃ lhv rhv a b, subterms = [lhv, rhv] ∧ lhv.valueIn I = some (.bool a) ∧
      rhv.valueIn I = some (.bool b) := by
  rcases hop with rfl | rfl <;>
  · rw [Term.valueIn] at hvalue
    unfold TermClass.valueIn at hvalue
    split at hvalue <;> simp_all
    next a b hvalues =>
    rcases subterms with _ | ⟨lhv, _ | ⟨rhv, _ | _⟩⟩ <;> simp_all [Term.valuesIn]

/-- `transformBinaryTerm` keeps the value. -/
theorem kept_transformBinaryTerm {op : ArithType} {lhv rhv lhv' rhv' t' : Term}
    (hmade : Term.Made FN (.binary op) type name [lhv, rhv]) (hself : Kept FN I t t')
    (ht : t = .mk obj (.binary op) type name [lhv, rhv]) (hvalue : t.valueIn I ≠ none)
    (hlhv : Kept FN I lhv lhv') (hrhv : Kept FN I rhv rhv') :
    Kept FN I t (transformBinaryTerm t' op lhv' rhv') := by
  by_cases hop : op = .land ∨ op = .lor
  · obtain ⟨htype, hoperands⟩ := hmade.connective_type
      (hop.imp (congrArg TermClass.binary) fun h => Or.inl (congrArg TermClass.binary h))
    have htype' : t.getType = .bool := by
      rw [ht]
      exact htype
    have hconst : t.isConstantTerm = false := by
      rw [ht]
      rfl
    obtain ⟨lhv₀, rhv₀, a, b, hsub, ha, hb⟩ := valueIn_connective hop (ht ▸ hvalue)
    simp only [List.cons.injEq, and_true] at hsub
    obtain ⟨rfl, rfl⟩ := hsub
    have hltype : lhv.getType = .bool := hoperands lhv List.mem_cons_self
    have hrtype : rhv.getType = .bool := hoperands rhv (List.mem_cons_of_mem _ List.mem_cons_self)
    -- an operand that is a constant has its value
    have hleft : ∀ c, lhv'.equals (TermFactory.getBooleanTerm c) = true → a = c := fun c h =>
      Meaning.bool.inj (Option.some.inj
        (ha.symm.trans (hlhv.value.symm.trans (hlhv.value_of_equals h))))
    have hright : ∀ c, rhv'.equals (TermFactory.getBooleanTerm c) = true → b = c := fun c h =>
      Meaning.bool.inj (Option.some.inj
        (hb.symm.trans (hrhv.value.symm.trans (hrhv.value_of_equals h))))
    have hasLeft : t.valueIn I = some (.bool a) → Kept FN I t lhv' := fun h =>
      hlhv.standsFor (h.trans ha.symm) (htype'.trans hltype.symm) hconst
    have hasRight : t.valueIn I = some (.bool b) → Kept FN I t rhv' := fun h =>
      hrhv.standsFor (h.trans hb.symm) (htype'.trans hrtype.symm) hconst
    have hasConstant : ∀ c, t.valueIn I = some (.bool c) →
        Kept FN I t (TermFactory.getBooleanTerm c) := fun c h => kept_constant h htype' hconst
    rcases hop with rfl | rfl
    · have hand : t.valueIn I = some (.bool (a && b)) := by
        rw [ht, Term.valueIn, Term.valuesIn, Term.valuesIn, Term.valuesIn, ha, hb]
        rfl
      unfold transformBinaryTerm
      dsimp only
      split_ifs with h₁ h₂ h₃ h₄
      · exact hasRight (by rw [hand, hleft true h₁, Bool.true_and])
      · exact hasLeft (by rw [hand, hright true h₂, Bool.and_true])
      · exact hasConstant false (by rw [hand, hleft false h₃, Bool.false_and])
      · exact hasConstant false (by rw [hand, hright false h₄, Bool.and_false])
      · exact hself
    · have hor : t.valueIn I = some (.bool (a || b)) := by
        rw [ht, Term.valueIn, Term.valuesIn, Term.valuesIn, Term.valuesIn, ha, hb]
        rfl
      unfold transformBinaryTerm
      dsimp only
      split_ifs with h₁ h₂ h₃ h₄
      · exact hasRight (by rw [hor, hleft false h₁, Bool.false_or])
      · exact hasLeft (by rw [hor, hright false h₂, Bool.or_false])
      · exact hasConstant true (by rw [hor, hleft true h₃, Bool.true_or])
      · exact hasConstant true (by rw [hor, hright true h₄, Bool.or_true])
      · exact hself
  · unfold transformBinaryTerm
    split
    · exact absurd (Or.inl rfl) hop
    · exact absurd (Or.inr rfl) hop
    · exact hself

/-- `transformCmpTerm` keeps the value unless a strict comparison is true. -/
theorem kept_transformCmpTerm {op : ConditionType} {lhv' rhv' t' : Term}
    (hmade : Term.Made FN (.cmp op) type name subterms) (hself : Kept FN I t t')
    (ht : t = .mk obj (.cmp op) type name subterms) (hvalue : t.valueIn I ≠ none)
    (hstrict : op.IsStrict → t.valueIn I = some (.bool false)) :
    Kept FN I t (transformCmpTerm t' op lhv' rhv') := by
  have htype : t.getType = .bool := by
    rw [ht]
    exact (hmade.cmp_type op rfl).1
  have hconst : t.isConstantTerm = false := by
    rw [ht]
    rfl
  have hfls : t.valueIn I = some (.bool false) → Kept FN I t fls := fun h =>
    kept_constant h htype hconst
  -- `TRUE` and `FALSE` are what they say on any operands
  obtain ⟨m, hm⟩ := Option.ne_none_iff_exists'.1 hvalue
  obtain ⟨lhv, rhv, a, b, -, -, -, hcmp⟩ := valueIn_cmp_eq_some (ht ▸ hm)
  have hconstant : ∀ c, (∀ {w : ℕ} (x y : BitVec w), Meaning.bvCompare op x y = some c) →
      t.valueIn I = some (.bool c) := by
    intro c hc
    rw [hm]
    cases a with
    | bool a =>
        cases b with
        | bool b =>
            rw [Meaning.machineCmp, hc] at hcmp
            exact hcmp.symm
        | bv n y => exact absurd hcmp (Option.some_ne_none _).symm
    | bv k x =>
        cases b with
        | bool b => exact absurd hcmp (Option.some_ne_none _).symm
        | bv n y =>
            rw [Meaning.machineCmp] at hcmp
            split_ifs at hcmp
            rw [hc] at hcmp
            exact hcmp.symm
  cases op with
  | neq | gt | ugt | lt | ult =>
      have hfalse := hfls (hstrict (by simp [ConditionType.IsStrict]))
      unfold transformCmpTerm
      dsimp only
      split_ifs <;> exact hfalse
  | false => exact hfls (hconstant Bool.false fun _ _ => rfl)
  | true => exact kept_constant (hconstant Bool.true fun _ _ => rfl) htype hconst
  | eq | ge | le | uge | ule | unknown => exact hself

/-- **One node keeps its value** unless it is a strict comparison that is true. -/
theorem kept_transformNode (hmade : Term.Made FN cls type name subterms)
    (hcls : cls.isCompound = true) (ht : t = .mk obj cls type name subterms)
    (hvalue : t.valueIn I ≠ none)
    (hstrict : ∀ op, cls = .cmp op → op.IsStrict → t.valueIn I = some (.bool false))
    (hrs : List.Forall₂ (Kept FN I) subterms rs) (axs : List Term) :
    ∃ r, transformNode FN (accepted FN t rs) cls rs axs = some r ∧ Kept FN I t r.1 := by
  have hself : Kept FN I t (accepted FN t rs) := ht ▸ kept_accepted hmade hcls hrs
  unfold transformNode
  split
  · next lhv' rhv' =>
    rcases hrs with _ | ⟨hlhv, hrest⟩
    rcases hrest with _ | ⟨_, _ | _⟩
    refine ⟨_, rfl, hlhv.standsFor ?_ ?_ ?_⟩
    · rw [ht]
      rfl
    · rw [ht]
      exact hmade.axiom_type rfl _ _ rfl
    · rw [ht]
      rfl
  · next op rhv' =>
    rcases hrs with _ | ⟨hrhv, _ | _⟩
    obtain ⟨r, hr, hkept⟩ := kept_transformUnaryTerm hmade hself ht hvalue hrhv
    exact ⟨_, by rw [hr]; rfl, hkept⟩
  · next op lhv' rhv' =>
    rcases hrs with _ | ⟨hlhv, hrest⟩
    rcases hrest with _ | ⟨hrhv, _ | _⟩
    exact ⟨_, rfl, kept_transformBinaryTerm hmade hself ht hvalue hlhv hrhv⟩
  · next op lhv' rhv' =>
    exact ⟨_, rfl, kept_transformCmpTerm hmade hself ht hvalue (hstrict op rfl)⟩
  · exact ⟨_, rfl, hself⟩

/-! ### Whole terms -/

mutual
/-- **A term keeps its value** when none of its strict comparisons is true. -/
theorem kept_transformTerm : (t : Term) → t.AllMade FN →
    (∀ u ∈ t.collected, u.valueIn I ≠ none) → t.StrictFalse I → (axs : List Term) →
    ∃ r, transformTerm FN axs t = some r ∧ Kept FN I t r.1
  | .mk obj cls type name subterms, hmade, hvalues, hstrict, axs => by
    rw [Term.collected, List.forall_mem_append, List.forall_mem_singleton] at hvalues
    rw [Term.StrictFalse, Term.collected, List.forall_mem_append, List.forall_mem_singleton]
      at hstrict
    rw [transformTerm]
    split_ifs with hcls
    · obtain ⟨rs, hrs, hkept⟩ :=
        kept_transformTerms subterms hmade.2 hvalues.1 hstrict.1 axs
      obtain ⟨r, hr, hnode⟩ :=
        kept_transformNode hmade.1 hcls rfl hvalues.2 hstrict.2 hkept rs.2
      exact ⟨r, by rw [hrs, Option.bind_some, hr], hnode⟩
    · have hcompound : cls.isCompound = false := Bool.eq_false_of_not_eq_true hcls
      refine ⟨_, rfl, rfl, ⟨rfl, fun _ => rfl⟩, fun b hb => (hmade.1.constant_name b hb).2, ?_⟩
      rintro op rfl
      exact absurd hcompound (by simp [TermClass.isCompound])

theorem kept_transformTerms : (ts : List Term) → Term.AllMadeSubterms FN ts →
    (∀ u ∈ Term.collectedAll ts, u.valueIn I ≠ none) →
    (∀ u ∈ Term.collectedAll ts, ∀ op, u.cls = .cmp op → op.IsStrict →
      u.valueIn I = some (.bool false)) → (axs : List Term) →
    ∃ rs, transformTerms FN axs ts = some rs ∧ List.Forall₂ (Kept FN I) ts rs.1
  | [], _, _, _, axs => ⟨_, rfl, .nil⟩
  | t :: ts, hmade, hvalues, hstrict, axs => by
    rw [Term.collectedAll, List.forall_mem_append] at hvalues hstrict
    obtain ⟨r, hr, hkept⟩ := kept_transformTerm t hmade.1 hvalues.1 hstrict.1 axs
    obtain ⟨rs, hrs, hkepts⟩ := kept_transformTerms ts hmade.2 hvalues.2 hstrict.2 r.2
    exact ⟨_, by rw [transformTerms, hr, Option.bind_some, hrs]; rfl, .cons hkept hkepts⟩
end

/-- Attaching axioms does not change the value. -/
theorem valueIn_attach (axs : List Term) (r : Term) :
    (attach FN axs r).valueIn I = r.valueIn I := by
  cases axs with
  | nil => rfl
  | cons acc rest => rfl

/-- A comparison that is strict becomes false. -/
theorem transform_strict {op : ConditionType} (hop : op.IsStrict) {axs : List Term}
    {r : Term × List Term} (hvalue : (Term.mk obj (.cmp op) type name subterms).valueIn I ≠ none)
    (hr : transform FN axs (.mk obj (.cmp op) type name subterms) = some r) :
    r.1.valueIn I = some (.bool false) := by
  obtain ⟨r', hr', rfl⟩ := Option.map_eq_some_iff.1 hr
  obtain ⟨m, hm⟩ := Option.ne_none_iff_exists'.1 hvalue
  obtain ⟨lhv, rhv, a, b, rfl, -⟩ := valueIn_cmp_eq_some hm
  rw [transformTerm, if_pos (show (TermClass.cmp op).isCompound = true from rfl)] at hr'
  obtain ⟨rs, hrs, hnode⟩ := Option.bind_eq_some_iff.1 hr'
  have hforall := transformTerms_forall hrs
  rcases rs with ⟨rs, axs'⟩
  rcases hforall with _ | ⟨_, hrest⟩
  rcases hrest with _ | ⟨_, _ | _⟩
  obtain rfl := Option.some.inj hnode
  rw [valueIn_attach]
  unfold transformCmpTerm
  rcases hop with rfl | rfl | rfl | rfl | rfl <;>
  · dsimp only
    split_ifs <;> rfl

/-! ### Sequences of terms -/

mutual
theorem allMade_of_mem_collected {u : Term} : (t : Term) → t.AllMade FN → u ∈ t.collected →
    u.AllMade FN
  | .mk obj cls type name subterms, hmade, hu => by
    rcases List.mem_append.1 hu with hu | hu
    · exact allMade_of_mem_collectedAll subterms hmade.2 hu
    · rw [List.mem_singleton.1 hu]
      exact hmade

theorem allMade_of_mem_collectedAll {u : Term} : (ts : List Term) → Term.AllMadeSubterms FN ts →
    u ∈ Term.collectedAll ts → u.AllMade FN
  | [], _, hu => absurd hu List.not_mem_nil
  | t :: ts, hmade, hu => by
    rcases List.mem_append.1 hu with hu | hu
    · exact allMade_of_mem_collected t hmade.1 hu
    · exact allMade_of_mem_collectedAll ts hmade.2 hu
end

/-- The list after a term has what it had before and the axioms in the term. -/
theorem transform_snd {axs : List Term} {r : Term × List Term} (hmade : t.AllMade FN)
    (hr : transform FN axs t = some r) : r.2 = axs ++ axiomsIn FN t := by
  obtain ⟨r', hr', rfl⟩ := Option.map_eq_some_iff.1 hr
  rw [transformTerm_eq] at hr'
  obtain ⟨r'', hr'', rfl⟩ := Option.map_eq_some_iff.1 hr'
  exact congrArg (axs ++ ·) (axioms_eq t hmade hr'')

/-- **The list holds the axioms of all terms so far.** -/
theorem transformAll_eq {earlier axs axs' : List Term} (hmade : ∀ s ∈ earlier, s.AllMade FN)
    (hrun : transformAll FN axs earlier = some axs') :
    axs' = axs ++ earlier.flatMap (axiomsIn FN) := by
  induction earlier generalizing axs with
  | nil =>
      obtain rfl := Option.some.inj hrun
      exact (List.append_nil _).symm
  | cons s earlier ih =>
      obtain ⟨r, hr, hrest⟩ := Option.bind_eq_some_iff.1 hrun
      obtain ⟨hs, hmade⟩ := List.forall_mem_cons.1 hmade
      rw [ih hmade hrest, transform_snd hs hr, List.flatMap_cons, List.append_assoc]

/-- **A simplified term keeps its meaning**, with its own axioms and no others, exactly when none of
its strict comparisons is true and no term before it had an axiom. -/
theorem transform_preserves_iff {earlier axs : List Term}
    (hearlier : ∀ s ∈ earlier, s.AllMade FN) (hrun : transformAll FN [] earlier = some axs)
    (hmade : t.AllMade FN) (hvalues : ∀ u ∈ t.collected, u.valueIn I ≠ none) :
    ((∀ u ∈ t.collected, ∃ r, transform FN axs u = some r ∧ r.1.valueIn I = u.valueIn I) ∧
        ∃ r, transform FN axs t = some r ∧ r.2 = axiomsIn FN t) ↔
      t.StrictFalse I ∧ ∀ s ∈ earlier, axiomsIn FN s = [] := by
  have haxs : axs = [] ↔ ∀ s ∈ earlier, axiomsIn FN s = [] := by
    rw [transformAll_eq hearlier hrun, List.nil_append, List.flatMap_eq_nil_iff]
  have hlist : ∀ r, transform FN axs t = some r → (r.2 = axiomsIn FN t ↔ axs = []) := by
    intro r hr
    rw [transform_snd hmade hr]
    exact List.append_left_eq_self
  rw [← haxs]
  constructor
  · rintro ⟨hall, r, hr, haxioms⟩
    refine ⟨fun u hu op hcls hop => ?_, (hlist r hr).1 haxioms⟩
    obtain ⟨ru, hru, hvalue⟩ := hall u hu
    obtain ⟨obj, cls, type, name, subterms⟩ := u
    obtain rfl : cls = .cmp op := hcls
    rw [← hvalue]
    exact transform_strict hop (hvalues _ hu) hru
  · rintro ⟨hstrict, hnil⟩
    have hkept : ∀ u ∈ t.collected, ∃ r, transform FN axs u = some r ∧
        r.1.valueIn I = u.valueIn I := by
      intro u hu
      have hsubset := Term.collected_subset t hu
      obtain ⟨r, hr, hkept⟩ := kept_transformTerm u (allMade_of_mem_collected t hmade hu)
        (fun v hv => hvalues v (hsubset hv)) (fun v hv => hstrict v (hsubset hv)) axs
      exact ⟨_, by rw [transform, hr, Option.map_some], by rw [valueIn_attach, hkept.value]⟩
    obtain ⟨r, hr, _⟩ := hkept t (Term.collected_self t)
    exact ⟨hkept, r, hr, (hlist r hr).2 hnil⟩

end Values

/-! ### Comparisons of a variable with 5 -/

/-- A factory that makes boolean terms. -/
def plainFactory : TermFactory := ⟨fun _ _ _ => .bool, fun _ _ _ => ""⟩

/-- The variable and the constant. -/
def variableAndFive : List Term :=
  [.mk 0 (.argument 0 .any) (.integer 8 .unknown) "x" [],
    .mk 0 (.opaqueIntConstant 5) (.integer 8 .unknown) "5" []]

/-- `x op 5`. -/
def compareWithFive (op : ConditionType) : Term := .mk 0 (.cmp op) .bool "" variableAndFive

/-- The variable is 3. -/
def variableIsThree : Interpretation where
  leaf cls _ _ := if cls = .argument 0 .any then some (.bv 8 3) else some (.bv 8 5)
  node _ _ _ := none

theorem allMade_compareWithFive (op : ConditionType) :
    (compareWithFive op).AllMade plainFactory := by
  have hleaf : ∀ {cls type name}, cls.isCompound = false → (∀ b, cls ≠ .opaqueBoolConstant b) →
      Term.Made plainFactory cls type name [] := by
    intro cls type name hcls hconst
    refine ⟨fun _ => rfl, fun h => absurd (hcls.symm.trans h) (by decide), ?_, ?_, ?_, ?_, ?_⟩
    · rintro op rfl
      exact absurd hcls (by simp [TermClass.isCompound])
    · rintro (rfl | rfl | rfl) <;> exact absurd hcls (by simp [TermClass.isCompound])
    · exact fun _ _ _ h => absurd h (by simp)
    · exact fun _ _ _ h => absurd h (by simp)
    · exact fun b hb => absurd hb (hconst b)
  refine ⟨⟨?_, ?_, ?_, ?_, ?_, ?_, ?_⟩, ⟨hleaf rfl ?_, trivial⟩, ⟨hleaf rfl ?_, trivial⟩, trivial⟩
  · exact fun h => absurd h (by simp [TermClass.isCompound])
  · exact fun _ _ _ => rfl
  · exact fun _ _ => ⟨rfl, fun _ _ _ => rfl⟩
  · exact fun h => absurd h (by simp)
  · exact fun h => absurd h (by simp)
  · exact fun h => absurd h (by simp)
  · exact fun _ h => absurd h (by simp)
  · exact fun _ => TermClass.noConfusion
  · exact fun _ => TermClass.noConfusion

theorem values_compareWithFive (op : ConditionType) (hop : op ≠ .unknown) :
    ∀ u ∈ (compareWithFive op).collected, u.valueIn variableIsThree ≠ none := by
  refine List.forall_mem_cons.2 ⟨Option.some_ne_none _, List.forall_mem_cons.2
    ⟨Option.some_ne_none _, List.forall_mem_singleton.2 ?_⟩⟩
  cases op <;> first | exact absurd rfl hop | exact Option.some_ne_none _

/-- An equality is left alone, after terms without axioms. -/
theorem transform_preserves_equality :
    ∃ r, transform plainFactory [] (compareWithFive .eq) = some r ∧
      r.1.valueIn variableIsThree = (compareWithFive .eq).valueIn variableIsThree := by
  have hiff := @transform_preserves_iff plainFactory variableIsThree _ _ _
    (List.forall_mem_singleton.2 (allMade_compareWithFive .ge))
    (show transformAll plainFactory [] [compareWithFive .ge] = some [] from rfl)
    (allMade_compareWithFive .eq) (values_compareWithFive .eq (by decide))
  refine (hiff.2 ⟨?_, List.forall_mem_singleton.2 rfl⟩).1 _ (Term.collected_self _)
  refine List.forall_mem_cons.2 ⟨?_, List.forall_mem_cons.2 ⟨?_, List.forall_mem_singleton.2 ?_⟩⟩
  · exact fun _ h => TermClass.noConfusion h
  · exact fun _ h => TermClass.noConfusion h
  · intro op hop hstrict
    obtain rfl := TermClass.cmp.inj hop
    rcases hstrict with h | h | h | h | h <;> exact absurd h (by decide)

/-- **`3 != 5` becomes false.** -/
theorem inequality_becomes_false :
    ¬ ∀ (FN : TermFactory) (I : Interpretation) (earlier axs : List Term) (t : Term),
      (∀ s ∈ earlier, s.AllMade FN) → transformAll FN [] earlier = some axs → t.AllMade FN →
        (∀ u ∈ t.collected, u.valueIn I ≠ none) →
          ∃ r, transform FN axs t = some r ∧ r.1.valueIn I = t.valueIn I ∧
            r.2 = axiomsIn FN t := by
  intro hclaim
  obtain ⟨r, hr, hvalue, -⟩ := hclaim plainFactory variableIsThree [] [] (compareWithFive .neq)
    (fun _ h => absurd h List.not_mem_nil) rfl (allMade_compareWithFive .neq)
    (values_compareWithFive .neq (by decide))
  obtain rfl := Option.some.inj hr
  exact absurd hvalue (by decide)

end Simplifier

end Borealis
