import Borealis.Interpreter.IntervalCompare
import Borealis.Interpreter.PointerJoin

/-!
# Comparing pointers

`apply(llvm::ConditionType, ConstPtr)` and `splitByEq` of
`Interpreter/Domain/Memory/PointerDomain.hpp`, and `equals` that the former asks.  A concrete
pointer is null, a function, or an allocation with an offset into it.

## Strategy

`Location.Denotes` says which pointers a location stands for.  Locations of one allocation have one
key, so sets without a common location share no pointer but a function (`function_of_denotes`).
Sets that `equals` calls equal may still stand for many pointers, and a comparison of those is
right only where `Location.Only` one is left.
-/

namespace Borealis

namespace PointerJoin

open ArrayAccess

/-! ## Functions -/

/-- `FunctionDomain`; a function is known by its number. -/
structure FunctionDomain where
  isBottom : Bool
  functions : Finset Nat

namespace FunctionDomain

def isTop (d : FunctionDomain) : Bool :=
  !d.isBottom && decide (d.functions = ∅)

/-- `equals`. -/
def equals (this other : FunctionDomain) : Bool :=
  if this.isTop then other.isTop
  else if this.isBottom then other.isBottom
  else if other.isTop || other.isBottom then false
  else if this.functions.card ≠ other.functions.card then false
  else decide (this.functions ⊆ other.functions)

/-- The functions of a domain. -/
def Denotes (d : FunctionDomain) (f : Nat) : Prop :=
  d.isTop = true ∨ d.isBottom = false ∧ f ∈ d.functions

end FunctionDomain

/-- The function domains that the locations name.  A name stands for all equal domains. -/
structure Functions where
  domain : Nat → FunctionDomain
  equals_iff : ∀ i j, (domain i).equals (domain j) = true ↔ i = j

/-! ## Concrete pointers -/

inductive Pointer
  | null
  | function (f : Nat)
  | array (base : Nat) (offset : Index)
  | struct (base : Nat) (offset : Index)

variable {D : Type} [SemilatticeSup D] [BoundedOrder D] [DecidableEq D]

namespace Location

/-- `offsets`. -/
def offsets : Location → List (Interval.Ptr false 64)
  | .null => []
  | .function _ => []
  | .array _ offset => [offset]
  | .struct _ offsets => offsets

variable (functions : Functions)

/-- The pointers a location stands for. -/
def Denotes : Location → Pointer → Prop
  | .null, .null => True
  | .function domain, .function f => (functions.domain domain).Denotes f
  | .array base offset, .array base' x => base = base' ∧ x ∈ offset
  | .struct base offsets, .struct base' x => base = base' ∧ ∃ offset ∈ offsets, x ∈ offset
  | _, _ => False

/-- A location without a function, or without an offset. -/
def Empty : Location → Prop
  | .null => False
  | .function domain => ∀ f, ¬ (functions.domain domain).Denotes f
  | .array _ offset => ∀ x, x ∉ offset
  | .struct _ offsets => ∀ offset ∈ offsets, ∀ x, x ∉ offset

/-- A location of one function, or of one offset. -/
def Only : Location → Pointer → Prop
  | .null, .null => True
  | .function domain, .function f => ∀ g, (functions.domain domain).Denotes g ↔ g = f
  | .array base offset, .array base' x => base = base' ∧ ∀ y, y ∈ offset ↔ y = x
  | .struct base offsets, .struct base' x =>
      base = base' ∧ ∀ y, (∃ offset ∈ offsets, y ∈ offset) ↔ y = x
  | _, _ => False

variable {functions}

theorem empty_iff {location : Location} :
    location.Empty functions ↔ ∀ p, ¬ location.Denotes functions p := by
  constructor
  · intro h p hp
    cases location with
    | null => exact h
    | function domain => cases p with
      | function f => exact h f hp
      | _ => exact hp
    | array base offset => cases p with
      | array base' x => exact h x hp.2
      | _ => exact hp
    | struct base offsets => cases p with
      | struct base' x =>
          obtain ⟨-, offset, hoffset, hx⟩ := hp
          exact h offset hoffset x hx
      | _ => exact hp
  · intro h
    cases location with
    | null => exact h .null trivial
    | function domain => exact fun f hf => h (.function f) hf
    | array base offset => exact fun x hx => h (.array base x) ⟨rfl, hx⟩
    | struct base offsets =>
        exact fun offset hoffset x hx => h (.struct base x) ⟨rfl, offset, hoffset, hx⟩

theorem only_iff {location : Location} {p : Pointer} :
    location.Only functions p ↔ ∀ q, location.Denotes functions q ↔ q = p := by
  constructor
  · intro h q
    cases location <;> cases p <;> try exact False.elim h
    · cases q <;> simp [Denotes]
    · cases q <;> simp [Denotes]
      exact h _
    · obtain ⟨rfl, h⟩ := h
      cases q <;> simp [Denotes, h, eq_comm]
    · obtain ⟨rfl, h⟩ := h
      cases q <;> simp [Denotes, h, eq_comm]
  · intro h
    have hp : location.Denotes functions p := (h p).mpr rfl
    cases location <;> cases p <;> try exact False.elim hp
    · trivial
    · exact fun g => (h (.function g)).trans (by simp)
    case array.array base offset base' x =>
      obtain ⟨rfl, -⟩ := hp
      exact ⟨rfl, fun y => by simpa [Denotes] using h (.array base y)⟩
    case struct.struct base offsets base' x =>
      obtain ⟨rfl, -⟩ := hp
      exact ⟨rfl, fun y => by simpa [Denotes] using h (.struct base y)⟩

/-- **A pointer of two locations is a function, or they have one key.** -/
theorem function_of_denotes {this other : Location} {p : Pointer}
    (hthis : this.Denotes functions p) (hother : other.Denotes functions p) :
    this.key = other.key ∨ ∃ i j f, this = .function i ∧ other = .function j ∧
      p = .function f ∧ (functions.domain i).Denotes f ∧ (functions.domain j).Denotes f := by
  cases p with
  | null =>
      left
      cases this <;> cases other <;> first | rfl | exact False.elim hthis | exact False.elim hother
  | function f =>
      right
      cases this <;> try exact False.elim hthis
      cases other <;> try exact False.elim hother
      exact ⟨_, _, f, rfl, rfl, rfl, hthis, hother⟩
  | array base x =>
      left
      cases this <;> try exact False.elim hthis
      cases other <;> try exact False.elim hother
      rw [key, key, hthis.1, hother.1]
  | struct base x =>
      left
      cases this <;> try exact False.elim hthis
      cases other <;> try exact False.elim hother
      rw [key, key, hthis.1, hother.1]

end Location

/-! ## Sets -/

section Sets

variable (memory : Memory D)

/-- `util::contains`. -/
def contains (ptsTo : List Location) (location : Location) : Bool :=
  ptsTo.any fun m => sameKey memory location.key m.key

/-- `util::hasIntersection`. -/
def hasIntersection (lhv rhv : List Location) : Bool :=
  lhv.any (contains memory rhv)

/-- The comparison of two sets of offsets in `equals`. -/
def equalOffsets (these others : List (Interval.Ptr false 64)) : Bool :=
  if these.length ≠ others.length then false
  else these.all fun offset =>
    match others.find? (Interval.equals offset) with
    | none => false
    | some other => Interval.equals offset other

theorem contains_of_key_eq {memory : Memory D} {ptsTo : List Location} {location m : Location}
    (hm : m ∈ ptsTo) (hkey : location.key = m.key) : contains memory ptsTo location = true := by
  rw [contains, List.any_eq_true]
  exact ⟨m, hm, by rw [hkey, sameKey_self]⟩

theorem contains_function_iff {memory : Memory D} {ptsTo : List Location} {domain : Nat} :
    contains memory ptsTo (.function domain) = true ↔ Location.function domain ∈ ptsTo := by
  constructor
  · intro h
    obtain ⟨m, hm, hsame⟩ := List.any_eq_true.mp h
    cases m with
    | function domain' =>
        obtain rfl : domain = domain' := by simpa [Location.key, sameKey] using hsame
        exact hm
    | _ => cases hsame
  · intro h
    exact contains_of_key_eq h rfl

end Sets

/-! ## Comparison -/

namespace PointerDomain

/-- `isNull`. -/
def isNull (d : PointerDomain) : Bool :=
  match d.ptsTo with
  | [.null] => true
  | _ => false

/-- `equals`; `same` says that the two are one object. -/
def equals (memory : Memory D) (same : Bool) (this other : PointerDomain) : Bool :=
  if same then true
  else if this.isTop then other.isTop
  else if this.isBottom then other.isBottom
  else if other.isTop || other.isBottom then false
  else if this.isNull then other.isNull
  else if this.ptsTo.length ≠ other.ptsTo.length then false
  else other.ptsTo.all fun it =>
    match this.ptsTo.find? (fun m => sameKey memory it.key m.key) with
    | none => false
    | some its => equalOffsets its.offsets it.offsets

/-- `apply(llvm::ConditionType, ConstPtr)`. -/
def apply (memory : Memory D) (same : Bool) (op : ConditionType) (this other : PointerDomain) :
    Interval.Ptr false 1 :=
  if this.isTop || other.isTop then Interval.top
  else if this.isBottom || other.isBottom then Interval.top
  else
    match op with
    | .true => Interval.getBool true
    | .false => Interval.getBool false
    | .unknown => Interval.top
    | .eq =>
      if this.isNull && other.isNull then Interval.getBool true
      else if !hasIntersection memory this.ptsTo other.ptsTo then Interval.getBool false
      else if this.equals memory same other then Interval.getBool true else Interval.top
    | .neq =>
      if this.isNull && other.isNull then Interval.getBool false
      else if !hasIntersection memory this.ptsTo other.ptsTo then Interval.getBool true
      else if this.equals memory same other then Interval.getBool false else Interval.top
    | _ => Interval.top

/-- The pointers of a domain. -/
def Denotes (functions : Functions) (d : PointerDomain) (p : Pointer) : Prop :=
  d.isTop = true ∨ ∃ location ∈ d.ptsTo, location.Denotes functions p

/-- A definite answer is the right one. -/
def ComparesRight (memory : Memory D) (functions : Functions) (same : Bool)
    (a b : PointerDomain) : Prop :=
  ∀ (v : Bool) (p q : Pointer), a.Denotes functions p → b.Denotes functions q →
    (a.apply memory same .eq b = Interval.getBool v → (v = true ↔ p = q)) ∧
      (a.apply memory same .neq b = Interval.getBool v → (v = true ↔ p ≠ q))

/-- Where a comparison is right. -/
structure Comparable (memory : Memory D) (functions : Functions) (same : Bool)
    (a b : PointerDomain) : Prop where
  apart : hasIntersection memory a.ptsTo b.ptsTo = false →
    ∀ i j, .function i ∈ a.ptsTo → .function j ∈ b.ptsTo →
      ∀ f, (functions.domain i).Denotes f → ¬ (functions.domain j).Denotes f
  single : hasIntersection memory a.ptsTo b.ptsTo = true → a.equals memory same b = true →
    ∀ location ∈ a.ptsTo, ∀ m ∈ b.ptsTo, location.Empty functions ∨ m.Empty functions ∨
      ∃ p, location.Only functions p ∧ m.Only functions p

variable {memory : Memory D} {functions : Functions} {same : Bool} {a b : PointerDomain}

/-- The locations of a domain that is neither top nor bottom. -/
theorem exists_location {d : PointerDomain} {p : Pointer} (hp : d.Denotes functions p)
    (htop : d.isTop = false) : ∃ location ∈ d.ptsTo, location.Denotes functions p :=
  hp.resolve_left (by simp [htop])

omit [SemilatticeSup D] [BoundedOrder D] in
theorem ptsTo_of_isNull {d : PointerDomain} (h : d.isNull = true) : d.ptsTo = [.null] := by
  unfold isNull at h
  split at h
  · assumption
  · cases h

theorem comparable_of_nil (h : a.ptsTo = [] ∨ b.ptsTo = []) :
    a.Comparable memory functions same b where
  apart _ i j hi hj := by
    rcases h with h | h
    · rw [h] at hi
      cases hi
    · rw [h] at hj
      cases hj
  single _ _ location hlocation m hm := by
    rcases h with h | h
    · rw [h] at hlocation
      cases hlocation
    · rw [h] at hm
      cases hm

/-- Two nulls are one pointer. -/
theorem comparable_of_isNull (ha : a.isNull = true) (hb : b.isNull = true) :
    a.Comparable memory functions same b where
  apart _ i _ hi _ := by
    rw [ptsTo_of_isNull ha, List.mem_singleton] at hi
    cases hi
  single _ _ location hlocation m hm := by
    rw [ptsTo_of_isNull ha, List.mem_singleton] at hlocation
    rw [ptsTo_of_isNull hb, List.mem_singleton] at hm
    subst hlocation hm
    exact Or.inr (Or.inr ⟨.null, trivial, trivial⟩)

theorem eq_of_isNull (ha : a.isNull = true) {p : Pointer} (hp : a.Denotes functions p) :
    p = .null := by
  have hptsTo := ptsTo_of_isNull ha
  obtain ⟨location, hlocation, hp⟩ := exists_location hp (by simp [isTop, hptsTo])
  rw [hptsTo, List.mem_singleton] at hlocation
  subst hlocation
  cases p with
  | null => rfl
  | _ => exact False.elim hp

/-- Sets without a common location share no pointer but a function. -/
theorem ne_of_not_hasIntersection (hapart : hasIntersection memory a.ptsTo b.ptsTo = false) :
    (∀ p, (∃ location ∈ a.ptsTo, location.Denotes functions p) →
        ¬ ∃ m ∈ b.ptsTo, m.Denotes functions p) ↔
      ∀ i j, .function i ∈ a.ptsTo → .function j ∈ b.ptsTo →
        ∀ f, (functions.domain i).Denotes f → ¬ (functions.domain j).Denotes f := by
  constructor
  · intro h i j hi hj f hfi hfj
    exact h (.function f) ⟨_, hi, hfi⟩ ⟨_, hj, hfj⟩
  · rintro h p ⟨location, hlocation, hp⟩ ⟨m, hm, hp'⟩
    rcases Location.function_of_denotes hp hp' with hkey | ⟨i, j, f, rfl, rfl, -, hfi, hfj⟩
    · exact absurd (hapart.symm.trans (List.any_eq_true.mpr
        ⟨location, hlocation, contains_of_key_eq hm hkey⟩)) Bool.false_ne_true
    · exact h i j hlocation hm f hfi hfj

/-- Two sets stand for one pointer where any two of their locations do. -/
theorem eq_of_denotes_iff :
    (∀ p q, (∃ location ∈ a.ptsTo, location.Denotes functions p) →
        (∃ m ∈ b.ptsTo, m.Denotes functions q) → p = q) ↔
      ∀ location ∈ a.ptsTo, ∀ m ∈ b.ptsTo, location.Empty functions ∨ m.Empty functions ∨
        ∃ p, location.Only functions p ∧ m.Only functions p := by
  constructor
  · intro h location hlocation m hm
    rw [Location.empty_iff, Location.empty_iff]
    by_cases hp : ∀ p, ¬ location.Denotes functions p
    · exact Or.inl hp
    by_cases hq : ∀ q, ¬ m.Denotes functions q
    · exact Or.inr (Or.inl hq)
    push Not at hp hq
    obtain ⟨p, hp⟩ := hp
    obtain ⟨q, hq⟩ := hq
    have heq := h p q ⟨location, hlocation, hp⟩ ⟨m, hm, hq⟩
    subst heq
    refine Or.inr (Or.inr ⟨p, Location.only_iff.mpr fun p' => ?_, Location.only_iff.mpr fun q' => ?_⟩)
    · constructor
      · intro hp'
        exact h p' p ⟨location, hlocation, hp'⟩ ⟨m, hm, hq⟩
      · intro hp'
        rwa [hp']
    · constructor
      · intro hq'
        exact (h p q' ⟨location, hlocation, hp⟩ ⟨m, hm, hq'⟩).symm
      · intro hq'
        rwa [hq']
  · rintro h p q ⟨location, hlocation, hp⟩ ⟨m, hm, hq⟩
    rcases h location hlocation m hm with hempty | hempty | ⟨r, hr, hr'⟩
    · exact absurd hp (Location.empty_iff.mp hempty p)
    · exact absurd hq (Location.empty_iff.mp hempty q)
    · exact ((Location.only_iff.mp hr p).mp hp).trans ((Location.only_iff.mp hr' q).mp hq).symm

theorem comparesRight_of_top (heq : a.apply memory same .eq b = Interval.top)
    (hneq : a.apply memory same .neq b = Interval.top) :
    a.ComparesRight memory functions same b := by
  intro v p q _ _
  constructor
  · intro h
    exact absurd (heq.symm.trans h) (Interval.top_ne_getBool v)
  · intro h
    exact absurd (hneq.symm.trans h) (Interval.top_ne_getBool v)

/-- The two operators answer the opposite. -/
theorem comparesRight_iff_of_apply {w : Bool}
    (heq : a.apply memory same .eq b = Interval.getBool w)
    (hneq : a.apply memory same .neq b = Interval.getBool (!w)) :
    a.ComparesRight memory functions same b ↔
      ∀ p q, a.Denotes functions p → b.Denotes functions q → (w = true ↔ p = q) := by
  constructor
  · intro h p q hp hq
    exact (h w p q hp hq).1 heq
  · intro h v p q hp hq
    have hw := h p q hp hq
    constructor
    · intro hv
      rw [← Interval.getBool_inj.mp (heq.symm.trans hv)]
      exact hw
    · intro hv
      rw [← Interval.getBool_inj.mp (hneq.symm.trans hv), ne_eq, ← hw, Bool.not_eq_true,
        Bool.not_eq_true']

/-- **When a definite answer is right**: no function is in locations of both sets where they share
no location, and equal sets stand for one pointer. -/
theorem comparesRight_iff (memory : Memory D) (functions : Functions) (same : Bool)
    (a b : PointerDomain) :
    a.ComparesRight memory functions same b ↔ a.Comparable memory functions same b := by
  cases htop : a.isTop || b.isTop with
  | true =>
      refine iff_of_true (comparesRight_of_top ?_ ?_) (comparable_of_nil ?_)
      · rw [apply, if_pos htop]
      · rw [apply, if_pos htop]
      · exact (Bool.or_eq_true_iff.mp htop).imp ptsTo_of_isTop ptsTo_of_isTop
  | false =>
  cases hbottom : a.isBottom || b.isBottom with
  | true =>
      refine iff_of_true (comparesRight_of_top ?_ ?_) (comparable_of_nil ?_)
      · simp [apply, htop, hbottom]
      · simp [apply, htop, hbottom]
      · exact (Bool.or_eq_true_iff.mp hbottom).imp ptsTo_of_isBottom ptsTo_of_isBottom
  | false =>
  cases hnull : a.isNull && b.isNull with
  | true =>
      obtain ⟨ha, hb⟩ := Bool.and_eq_true_iff.mp hnull
      refine iff_of_true ?_ (comparable_of_isNull ha hb)
      rw [comparesRight_iff_of_apply (w := true) (by simp [apply, htop, hbottom, hnull])
        (by simp [apply, htop, hbottom, hnull])]
      intro p q hp hq
      rw [eq_of_isNull ha hp, eq_of_isNull hb hq]
      exact iff_of_true rfl rfl
  | false =>
  obtain ⟨hatop, hbtop⟩ := Bool.or_eq_false_iff.mp htop
  have hdenotes : ∀ p q, a.Denotes functions p → b.Denotes functions q →
      (∃ location ∈ a.ptsTo, location.Denotes functions p) ∧
        ∃ m ∈ b.ptsTo, m.Denotes functions q :=
    fun p q hp hq => ⟨exists_location hp hatop, exists_location hq hbtop⟩
  cases hinter : hasIntersection memory a.ptsTo b.ptsTo with
  | false =>
      rw [comparesRight_iff_of_apply (w := false) (by simp [apply, htop, hbottom, hnull, hinter])
        (by simp [apply, htop, hbottom, hnull, hinter])]
      constructor
      · intro h
        refine ⟨fun _ => (ne_of_not_hasIntersection hinter).mp fun p hp hp' => ?_,
          fun hinter' => absurd (hinter.symm.trans hinter') Bool.false_ne_true⟩
        exact Bool.false_ne_true ((h p p (Or.inr hp) (Or.inr hp')).mpr rfl)
      · intro h p q hp hq
        obtain ⟨hp, hq⟩ := hdenotes p q hp hq
        refine iff_of_false Bool.false_ne_true fun heq => ?_
        exact (ne_of_not_hasIntersection hinter).mpr (h.apart hinter) p hp (heq ▸ hq)
  | true =>
      cases hequals : a.equals memory same b with
      | false =>
          -- the sets share a location and differ: nothing is answered
          refine iff_of_true (comparesRight_of_top ?_ ?_) ⟨?_, ?_⟩
          · simp [apply, htop, hbottom, hnull, hinter, hequals]
          · simp [apply, htop, hbottom, hnull, hinter, hequals]
          · exact fun h => absurd (hinter.symm.trans h) Bool.false_ne_true.symm
          · exact fun _ h => absurd (hequals.symm.trans h) Bool.false_ne_true
      | true =>
          rw [comparesRight_iff_of_apply (w := true)
            (by simp [apply, htop, hbottom, hnull, hinter, hequals])
            (by simp [apply, htop, hbottom, hnull, hinter, hequals])]
          constructor
          · intro h
            refine ⟨fun hinter' => absurd (hinter.symm.trans hinter') Bool.false_ne_true.symm,
              fun _ _ => eq_of_denotes_iff.mp fun p q hp hq => ?_⟩
            exact (h p q (Or.inr hp) (Or.inr hq)).mp rfl
          · intro h p q hp hq
            obtain ⟨hp, hq⟩ := hdenotes p q hp hq
            exact iff_of_true rfl (eq_of_denotes_iff.mpr (h.single hinter hequals) p q hp hq)

/-- Each name stands for the domain of one function. -/
def singletons : Functions where
  domain i := ⟨false, {i}⟩
  equals_iff i j := by
    simp [FunctionDomain.equals, FunctionDomain.isTop]

/-- **Two arrays of equal contents are one** to the comparison. -/
theorem not_comparesRight :
    ¬ ∀ (memory : Memory Bool) (functions : Functions) (same : Bool) (a b : PointerDomain),
      a.ComparesRight memory functions same b := by
  intro h
  have hright := h (arrays 4) singletons false (third 0) (third 1) true
    (.array 0 (indexAt 2)) (.array 1 (indexAt 2))
    (Or.inr ⟨_, List.mem_cons_self, rfl, by decide⟩)
    (Or.inr ⟨_, List.mem_cons_self, rfl, by decide⟩)
  have heq := (hright.1 (by decide)).mp rfl
  injection heq with hbase
  cases hbase

/-! ## Splitting -/

/-- The body of the loop of `splitByEq`: the locations that are and are not in `ptsTo`. -/
def splitLocation (memory : Memory D) (ptsTo : List Location)
    (locs : List Location × List Location) (loc : Location) : List Location × List Location :=
  if contains memory ptsTo loc then (insert memory locs.1 loc, locs.2)
  else (locs.1, insert memory locs.2 loc)

/-- `splitByEq`: the true part and the false part.  Its branch for a top `this` comes after a test
that a top `this` does not pass. -/
def splitByEq (memory : Memory D) (this other : PointerDomain) : PointerDomain × PointerDomain :=
  if this.isNull || this.isTop || this.isBottom || other.isTop || other.isBottom then (this, this)
  else
    let locs := other.ptsTo.foldl (splitLocation memory this.ptsTo) ([], [])
    (⟨false, locs.1⟩, ⟨false, locs.2⟩)

/-- What a `PointsToSet` is: no location of it equals an earlier one. -/
def IsSet (memory : Memory D) (ptsTo : List Location) : Prop :=
  ptsTo.Pairwise fun l m => sameKey memory m.key l.key = false

/-- No pointer is lost in a split. -/
def Keeps (functions : Functions) (a b : PointerDomain) (split : PointerDomain × PointerDomain) :
    Prop :=
  ∀ p, a.Denotes functions p →
    (b.Denotes functions p → split.1.Denotes functions p) ∧
      ((∃ q, b.Denotes functions q ∧ p ≠ q) → split.2.Denotes functions p)

theorem insert_of_isSet {memory : Memory D} {ptsTo : List Location} {location : Location}
    (h : ∀ m ∈ ptsTo, sameKey memory location.key m.key = false) :
    insert memory ptsTo location = ptsTo ++ [location] := by
  rw [insert, if_neg]
  intro hany
  obtain ⟨m, hm, hsame⟩ := List.any_eq_true.mp hany
  exact Bool.false_ne_true ((h m hm).symm.trans hsame)

/-- **What the loop of a split collects.** -/
theorem foldl_splitLocation {memory : Memory D} (ptsTo : List Location) (others : List Location)
    (locs : List Location × List Location)
    (hlocs : ∀ m, m ∈ locs.1 ∨ m ∈ locs.2 → ∀ loc ∈ others,
      sameKey memory loc.key m.key = false) (hothers : IsSet memory others) :
    others.foldl (splitLocation memory ptsTo) locs =
      (locs.1 ++ others.filter (contains memory ptsTo),
        locs.2 ++ others.filter fun loc => !contains memory ptsTo loc) := by
  induction others generalizing locs with
  | nil => simp
  | cons loc others ih =>
      obtain ⟨hfirst, hrest⟩ := List.pairwise_cons.mp hothers
      have hnew : ∀ m, m ∈ locs.1 ∨ m ∈ locs.2 → sameKey memory loc.key m.key = false :=
        fun m hm => hlocs m hm loc List.mem_cons_self
      rw [List.foldl_cons]
      cases hcontains : contains memory ptsTo loc with
      | true =>
          have hstep : splitLocation memory ptsTo locs loc = (locs.1 ++ [loc], locs.2) := by
            rw [splitLocation, if_pos hcontains, insert_of_isSet fun m hm => hnew m (Or.inl hm)]
          rw [hstep, ih _ ?_ hrest]
          · simp [hcontains]
          · intro m hm loc' hloc'
            simp only [List.mem_append, List.mem_singleton] at hm
            rcases hm with (hm | rfl) | hm
            · exact hlocs m (Or.inl hm) loc' (List.mem_cons_of_mem _ hloc')
            · exact hfirst loc' hloc'
            · exact hlocs m (Or.inr hm) loc' (List.mem_cons_of_mem _ hloc')
      | false =>
          have hstep : splitLocation memory ptsTo locs loc = (locs.1, locs.2 ++ [loc]) := by
            rw [splitLocation, if_neg (by simp [hcontains]),
              insert_of_isSet fun m hm => hnew m (Or.inr hm)]
          rw [hstep, ih _ ?_ hrest]
          · simp [hcontains]
          · intro m hm loc' hloc'
            simp only [List.mem_append, List.mem_singleton] at hm
            rcases hm with hm | (hm | rfl)
            · exact hlocs m (Or.inl hm) loc' (List.mem_cons_of_mem _ hloc')
            · exact hlocs m (Or.inr hm) loc' (List.mem_cons_of_mem _ hloc')
            · exact hfirst loc' hloc'

/-- Where a split keeps all pointers. -/
structure Splittable (memory : Memory D) (functions : Functions) (a b : PointerDomain) :
    Prop where
  /-- A shared function is in a shared location, or there is no shared location. -/
  shared : (∀ m ∈ b.ptsTo, contains memory a.ptsTo m = false) ∨
    ∀ i j f, .function i ∈ a.ptsTo → .function j ∈ b.ptsTo →
      (functions.domain i).Denotes f → (functions.domain j).Denotes f →
        ∃ k, .function k ∈ a.ptsTo ∧ .function k ∈ b.ptsTo ∧ (functions.domain k).Denotes f
  /-- A pointer is the only one of `b`, or a function in a location that only `b` has. -/
  different : (∀ m ∈ b.ptsTo, contains memory a.ptsTo m = true) ∨
    ∀ location ∈ a.ptsTo, ∀ p, location.Denotes functions p →
      (∀ m ∈ b.ptsTo, m.Empty functions ∨ m.Only functions p) ∨
        ∃ f k, p = .function f ∧ .function k ∉ a.ptsTo ∧ .function k ∈ b.ptsTo ∧
          (functions.domain k).Denotes f

theorem keeps_self : Keeps functions a b (a, a) :=
  fun _ hp => ⟨fun _ => hp, fun _ => hp⟩

/-- The pointers of a part. -/
theorem denotes_part {locs : List Location} {p : Pointer} :
    (⟨false, locs⟩ : PointerDomain).Denotes functions p ↔
      locs = [] ∨ ∃ location ∈ locs, location.Denotes functions p := by
  rw [Denotes, isTop]
  simp

/-- The true part. -/
theorem keeps_true_iff (hatop : a.isTop = false) (hbtop : b.isTop = false) :
    (∀ p, a.Denotes functions p → b.Denotes functions p →
        (⟨false, b.ptsTo.filter (contains memory a.ptsTo)⟩ : PointerDomain).Denotes functions p) ↔
      ((∀ m ∈ b.ptsTo, contains memory a.ptsTo m = false) ∨
        ∀ i j f, .function i ∈ a.ptsTo → .function j ∈ b.ptsTo →
          (functions.domain i).Denotes f → (functions.domain j).Denotes f →
            ∃ k, .function k ∈ a.ptsTo ∧ .function k ∈ b.ptsTo ∧
              (functions.domain k).Denotes f) := by
  simp only [denotes_part, List.filter_eq_nil_iff, Bool.not_eq_true, List.mem_filter]
  constructor
  · intro h
    by_cases hnone : ∀ m ∈ b.ptsTo, contains memory a.ptsTo m = false
    · exact Or.inl hnone
    · refine Or.inr fun i j f hi hj hfi hfj => ?_
      obtain ⟨m, ⟨hm, hshared⟩, hf⟩ := (h (.function f) (Or.inr ⟨_, hi, hfi⟩)
        (Or.inr ⟨_, hj, hfj⟩)).resolve_left hnone
      cases m with
      | function k => exact ⟨k, contains_function_iff.mp hshared, hm, hf⟩
      | _ => exact False.elim hf
  · intro h p hp hp'
    refine h.imp id fun h => ?_
    obtain ⟨location, hlocation, hp⟩ := exists_location hp hatop
    obtain ⟨m, hm, hp'⟩ := exists_location hp' hbtop
    rcases Location.function_of_denotes hp hp' with hkey | ⟨i, j, f, rfl, rfl, rfl, hfi, hfj⟩
    · exact ⟨m, ⟨hm, contains_of_key_eq hlocation hkey.symm⟩, hp'⟩
    · obtain ⟨k, hka, hkb, hf⟩ := h i j f hlocation hm hfi hfj
      exact ⟨.function k, ⟨hkb, contains_function_iff.mpr hka⟩, hf⟩

/-- A pointer is the only one of a set. -/
theorem not_exists_ne_iff {d : PointerDomain} (htop : d.isTop = false) {p : Pointer} :
    (¬ ∃ q, d.Denotes functions q ∧ p ≠ q) ↔
      ∀ m ∈ d.ptsTo, ∀ q, m.Denotes functions q → q = p := by
  constructor
  · intro h m hm q hq
    by_contra hne
    exact h ⟨q, Or.inr ⟨m, hm, hq⟩, fun heq => hne heq.symm⟩
  · rintro h ⟨q, hq, hne⟩
    obtain ⟨m, hm, hq⟩ := exists_location hq htop
    exact hne (h m hm q hq).symm

theorem empty_or_only_iff {location : Location} {p : Pointer} :
    (location.Empty functions ∨ location.Only functions p) ↔
      ∀ q, location.Denotes functions q → q = p := by
  rw [Location.empty_iff, Location.only_iff]
  constructor
  · rintro (h | h) q hq
    · exact absurd hq (h q)
    · exact (h q).mp hq
  · intro h
    by_cases hp : location.Denotes functions p
    · refine Or.inr fun q => ⟨h q, ?_⟩
      intro heq
      rwa [heq]
    · refine Or.inl fun q hq => hp ?_
      rwa [← h q hq]

/-- The false part. -/
theorem keeps_false_iff (hatop : a.isTop = false) (hbtop : b.isTop = false) :
    (∀ p, a.Denotes functions p → (∃ q, b.Denotes functions q ∧ p ≠ q) →
        (⟨false, b.ptsTo.filter fun m => !contains memory a.ptsTo m⟩ : PointerDomain).Denotes
          functions p) ↔
      ((∀ m ∈ b.ptsTo, contains memory a.ptsTo m = true) ∨
        ∀ location ∈ a.ptsTo, ∀ p, location.Denotes functions p →
          (∀ m ∈ b.ptsTo, m.Empty functions ∨ m.Only functions p) ∨
            ∃ f k, p = .function f ∧ .function k ∉ a.ptsTo ∧ .function k ∈ b.ptsTo ∧
              (functions.domain k).Denotes f) := by
  simp only [denotes_part, List.filter_eq_nil_iff, Bool.not_eq_true', Bool.not_eq_false,
    List.mem_filter, empty_or_only_iff]
  constructor
  · intro h
    by_cases hall : ∀ m ∈ b.ptsTo, contains memory a.ptsTo m = true
    · exact Or.inl hall
    · refine Or.inr fun location hlocation p hp => ?_
      rw [← not_exists_ne_iff hbtop]
      by_cases hother : ∃ q, b.Denotes functions q ∧ p ≠ q
      · obtain ⟨m, ⟨hm, hnot⟩, hp'⟩ := (h p (Or.inr ⟨location, hlocation, hp⟩)
          hother).resolve_left hall
        rcases Location.function_of_denotes hp hp' with hkey | ⟨i, j, f, rfl, rfl, rfl, hfi, hfj⟩
        · exact absurd (hnot.symm.trans (contains_of_key_eq hlocation hkey.symm))
            Bool.false_ne_true
        · refine Or.inr ⟨f, j, rfl, fun hmem => ?_, hm, hfj⟩
          exact Bool.false_ne_true (hnot.symm.trans (contains_function_iff.mpr hmem))
      · exact Or.inl hother
  · intro h p hp hother
    refine h.imp id fun h => ?_
    obtain ⟨location, hlocation, hp⟩ := exists_location hp hatop
    rcases h location hlocation p hp with honly | ⟨f, k, rfl, hka, hkb, hf⟩
    · exact absurd hother ((not_exists_ne_iff hbtop).mpr honly)
    · exact ⟨.function k, ⟨hkb, Bool.eq_false_iff.mpr fun hshared =>
        hka (contains_function_iff.mp hshared)⟩, hf⟩

/-- Pointers to the third elements of two arrays. -/
def thirds : PointerDomain :=
  ⟨false, [.array 0 (between 2 2), .array 1 (between 2 2)]⟩

theorem isSet_thirds : IsSet (arrays 8) thirds.ptsTo := by
  rw [IsSet, thirds, List.pairwise_pair]
  decide

end PointerDomain

end PointerJoin

end Borealis
