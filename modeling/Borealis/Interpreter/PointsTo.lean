import Borealis.Interpreter.IntervalLattice

/-!
# Pointer variables and the memory they point to

The memory part of the interpreter's state: `PointerDomain`, `MemoryLocation`, `ArrayDomain`,
`StructDomain` and `PointsToDomain` of `Interpreter/Domain/Memory`, with the lookup order of
`PointsToDomainImpl::get`.

Domains are shared objects in the source.  A pointer domain is an object of its own, which several
variables, globals and memory cells may share, and so is the array or structure that a location
points into; `State.pointers` and `State.aggregates` are the two tables of objects.  Assigning to
a variable binds it to a new object.  `setTop` changes the object, and so everything that shares
it.

Locations are compared by the contents of what they point into.  `equals` stands for that
comparison; nothing here depends on what it answers.
-/

namespace Borealis

/-- What the memory domain uses of a numerical domain. -/
class NumberDomain (D : Type) (V : outParam Type) where
  top : D
  bottom : D
  join : D → D → D
  contains : D → V → Prop
  contains_top : ∀ v, contains top v
  exists_not_contains_bottom : ∃ v, ¬ contains bottom v

instance (width : Nat) : NumberDomain (DoubleInterval (width + 1)) (BitVec (width + 1)) where
  top := DoubleInterval.interval Interval.top Interval.top
  bottom := DoubleInterval.interval Interval.bottom Interval.bottom
  join := DoubleInterval.join
  contains a x := x ∈ a
  contains_top _ := (DoubleInterval.mem_interval_iff width.succ_pos).mpr (Or.inl rfl)
  exists_not_contains_bottom := by
    refine ⟨0, fun hmem => ?_⟩
    rcases (DoubleInterval.mem_interval_iff width.succ_pos).mp hmem with h | h | h
    · simp [Interval.bottom, Interval.interval, Interval.ofBounds, Bound.ofInt] at h
    · simp [Interval.bottom, Interval.interval, Interval.ofBounds, Bound.ofInt] at h
    · exact DoubleInterval.not_mem_bottom width.succ_pos _ h.2

namespace PointsTo

/-! ## Locations and pointers -/

/-- What a pointer points to, as far as a load cares. -/
inductive PointeeType
  | number
  | pointer
  | aggregate
deriving DecidableEq, Repr

/-- `unsignedBounds` of an offset; an upper bound of `none` is infinite. -/
structure Offset where
  lower : Nat
  upper : Option Nat
deriving DecidableEq, Repr

/-- `join` of two offsets. -/
def Offset.join (this other : Offset) : Offset :=
  { lower := min this.lower other.lower
    upper := this.upper.bind fun u => other.upper.map (max u) }

/-- `NullLocation`, `ArrayLocation`, `StructLocation` and `FunctionLocation`; a base is the object
the location points into. -/
inductive MemoryLocation
  | null
  | array (base : Nat) (offset : Offset)
  | struct (base : Nat) (offsets : List Offset)
  | function
deriving DecidableEq, Repr

/-- The object a location points into. -/
def MemoryLocation.base : MemoryLocation → Option Nat
  | .null => none
  | .array base _ => some base
  | .struct base _ => some base
  | .function => none

/-- `join` of two equal locations. -/
def MemoryLocation.join : MemoryLocation → MemoryLocation → MemoryLocation
  | .array base offset, .array _ other => .array base (offset.join other)
  | .struct base offsets, .struct _ others => .struct base (offsets ∪ others)
  | this, _ => this

/-- `PointerDomain`. -/
structure PointerDomain where
  isBottom_ : Bool
  ptsTo : List MemoryLocation
deriving DecidableEq, Repr

namespace PointerDomain

def top : PointerDomain :=
  ⟨false, []⟩

def bottom : PointerDomain :=
  ⟨true, []⟩

def isTop (d : PointerDomain) : Bool :=
  !d.isBottom_ && d.ptsTo.isEmpty

def isBottom (d : PointerDomain) : Bool :=
  d.isBottom_ && d.ptsTo.isEmpty

@[simp] theorem isTop_top : top.isTop = true := rfl

@[simp] theorem isTop_bottom : bottom.isTop = false := rfl

theorem eq_top_of_isTop {d : PointerDomain} (htop : d.isTop = true) : d = top := by
  obtain ⟨bottom, ptsTo⟩ := d
  simp only [isTop, Bool.and_eq_true, Bool.not_eq_true', List.isEmpty_iff] at htop
  rw [htop.1, htop.2, top]

/-- One step of `joinWith`: the location is merged with an equal one, or added. -/
def insertLocation (equals : MemoryLocation → MemoryLocation → Bool)
    (ptsTo : List MemoryLocation) (location : MemoryLocation) : List MemoryLocation :=
  match ptsTo.find? (equals location) with
  | none => ptsTo ++ [location]
  | some found => ptsTo.erase found ++ [found.join location]

/-- `joinWith`. -/
def joinWith (equals : MemoryLocation → MemoryLocation → Bool) (this other : PointerDomain) :
    PointerDomain :=
  if this.isBottom then other
  else if this.isTop then this
  else if other.isBottom then this
  else if other.isTop then top
  else { this with ptsTo := other.ptsTo.foldl (insertLocation equals) this.ptsTo }

theorem insertLocation_ne_nil (equals : MemoryLocation → MemoryLocation → Bool)
    (ptsTo : List MemoryLocation) (location : MemoryLocation) :
    insertLocation equals ptsTo location ≠ [] := by
  unfold insertLocation
  split <;> simp

theorem foldl_insertLocation_ne_nil (equals : MemoryLocation → MemoryLocation → Bool)
    (locations : List MemoryLocation) {ptsTo : List MemoryLocation} (hptsTo : ptsTo ≠ []) :
    locations.foldl (insertLocation equals) ptsTo ≠ [] := by
  induction locations generalizing ptsTo with
  | nil => exact hptsTo
  | cons location locations ih => exact ih (insertLocation_ne_nil equals ptsTo location)

/-- A join is top when one of the two is. -/
theorem isTop_joinWith (equals : MemoryLocation → MemoryLocation → Bool)
    (this other : PointerDomain) :
    (this.joinWith equals other).isTop = (this.isTop || other.isTop) := by
  have hneither {d : PointerDomain} (hbottom : d.isBottom = false) (htop : d.isTop = false) :
      d.ptsTo ≠ [] := by
    intro hnil
    simp only [isBottom, isTop, hnil, List.isEmpty_nil, Bool.and_true, Bool.not_eq_false']
      at hbottom htop
    rw [hbottom] at htop
    exact Bool.false_ne_true htop
  unfold joinWith
  split
  · next hbottom =>
      have hthis : this.isTop = false := by
        simp only [isBottom, Bool.and_eq_true] at hbottom
        simp [isTop, hbottom.1]
      rw [hthis, Bool.false_or]
  · next hbottom =>
      split
      · next htop => rw [htop, Bool.true_or]
      · next htop =>
          have hthis : this.isTop = false := by simpa using htop
          split
          · next hother =>
              have hnot : other.isTop = false := by
                simp only [isBottom, Bool.and_eq_true] at hother
                simp [isTop, hother.1]
              rw [hthis, hnot, Bool.false_or]
          · split
            · next hother => rw [hother, Bool.or_true, isTop_top]
            · next hother =>
                have hnot : other.isTop = false := by simpa using hother
                have hnonempty := foldl_insertLocation_ne_nil equals other.ptsTo
                  (hneither (by simpa using hbottom) hthis)
                rw [hthis, hnot]
                simp [isTop, hnonempty]

/-- The objects a pointer may point into: a top pointer may point anywhere. -/
def MayPointTo (d : PointerDomain) (base : Nat) : Prop :=
  d.isTop = true ∨ ∃ location ∈ d.ptsTo, location.base = some base

end PointerDomain

/-! ## Memory -/

section Memory

variable (D : Type)

/-- One cell of an array or a field of a structure: a number, a pointer object, or an array or
structure inside it. -/
inductive Content
  | number (domain : D)
  | pointer (object : Nat)
  | aggregate (base : Nat)

/-- `ArrayDomain` and `StructDomain`.  An array keeps the upper bound of its length, `none` for an
infinite one; its elements that nothing was stored to have no entry. -/
inductive Aggregate
  | arrayTop (elementType : PointeeType)
  | arrayBottom (elementType : PointeeType)
  | array (length : Option Nat) (elementType : PointeeType) (elements : Nat → Option (Content D))
  | struct (elements : List (Content D))

/-- The value of a load of a number or a pointer; `abort` where an assertion fails or the loop
over an array does not end. -/
inductive Loaded
  | number (domain : D)
  | pointer (domain : PointerDomain)
  | abort

end Memory

variable {D V : Type} [NumberDomain D V]

namespace Loaded

def top : PointeeType → Loaded D
  | .number => .number NumberDomain.top
  | .pointer => .pointer .top
  | .aggregate => .abort

def bottom : PointeeType → Loaded D
  | .number => .number NumberDomain.bottom
  | .pointer => .pointer .bottom
  | .aggregate => .abort

/-- `join`: of two numbers or of two pointers. -/
def join (equals : MemoryLocation → MemoryLocation → Bool) : Loaded D → Loaded D → Loaded D
  | .number a, .number b => .number (NumberDomain.join a b)
  | .pointer a, .pointer b => .pointer (a.joinWith equals b)
  | _, _ => .abort

/-- The domain is above every value of its type. -/
def Full : Loaded D → Prop
  | .number d => ∀ v : V, NumberDomain.contains d v
  | .pointer d => d.isTop = true
  | .abort => False

end Loaded

/-! ## The state -/

/-- A pointer-typed constant, whose domain is built anew at every use: a fixed one, or the
address of a part of a global, which is top or bottom when the global's pointer is. -/
inductive Constant
  | fixed (domain : PointerDomain)
  | gep (global : Nat) (address : PointerDomain)

/-- A pointer-typed value of the module. -/
inductive Variable
  | global (id : Nat)
  | constant (id : Nat)
  | temporary (id : Nat)
deriving DecidableEq, Repr

/-- The pointer objects that the cells of an aggregate refer to. -/
def Aggregate.Refers (aggregate : Aggregate D) (object : Nat) : Prop :=
  match aggregate with
  | .array _ _ elements => ∃ i, elements i = some (.pointer object)
  | .struct elements => .pointer object ∈ elements
  | .arrayTop _ => False
  | .arrayBottom _ => False

/-- `AbstractDomainEquals` of two locations, which looks at the contents of their bases. -/
abbrev Comparison (D : Type) :=
  (Nat → PointerDomain) → (Nat → Aggregate D) → MemoryLocation → MemoryLocation → Bool

/-- The memory of `DomainStorage`, with the globals and constants of the module.  Every object in
use has been created, so a new one is shared with nothing. -/
structure State (D : Type) where
  globals : Nat → Nat
  constants : Nat → Constant
  env : Variable → Nat
  pointers : Nat → PointerDomain
  aggregates : Nat → Aggregate D
  next : Nat
  globals_lt : ∀ g, globals g < next
  env_lt : ∀ x, env x < next
  refers_lt : ∀ base object, (aggregates base).Refers object → object < next

namespace State

variable (equals : Comparison D) (state : State D)

/-- The domain of a constant. -/
def constant : Constant → PointerDomain
  | .fixed domain => domain
  | .gep global address =>
      let domain := state.pointers (state.globals global)
      if domain.isTop then .top
      else if domain.isBottom then .bottom
      else address

/-- `PointsToDomainImpl::get`: a global first, then a constant, then the environment. -/
def get : Variable → PointerDomain
  | .global id => state.pointers (state.globals id)
  | .constant id => state.constant (state.constants id)
  | .temporary id => state.pointers (state.env (.temporary id))

/-- `assign`: the variable is bound to a new object, in the environment. -/
def assign (x : Variable) (domain : PointerDomain) : State D where
  globals := state.globals
  constants := state.constants
  env := Function.update state.env x state.next
  pointers := Function.update state.pointers state.next domain
  aggregates := state.aggregates
  next := state.next + 1
  globals_lt g := Nat.lt_succ_of_lt (state.globals_lt g)
  env_lt y := by
    rcases eq_or_ne y x with rfl | hne
    · simp
    · rw [Function.update_of_ne hne]
      exact Nat.lt_succ_of_lt (state.env_lt y)
  refers_lt base object hrefers := Nat.lt_succ_of_lt (state.refers_lt base object hrefers)

/-- The object that `get` returns; the domain of a constant is a new one each time. -/
def object : Variable → Option Nat
  | .global id => some (state.globals id)
  | .constant _ => none
  | .temporary id => some (state.env (.temporary id))

/-- `get(x)->setTop()`. -/
def setTop (x : Variable) : State D :=
  { state with
    pointers := fun object =>
      if state.object x = some object then .top else state.pointers object }

/-! ## Loads -/

/-- `equals` of two locations, in this state. -/
def sameLocation : MemoryLocation → MemoryLocation → Bool :=
  equals state.pointers state.aggregates

/-- The value of a cell that a load joins. -/
def read : Content D → Loaded D
  | .number domain => .number domain
  | .pointer object => .pointer (state.pointers object)
  | .aggregate _ => .abort

/-- The element of an array that a load joins: bottom where nothing was stored. -/
def readElement (elementType : PointeeType) (elements : Nat → Option (Content D)) (i : Nat) :
    Loaded D :=
  match elements i with
  | some content => state.read content
  | none => .bottom elementType

/-- Where the loop over the elements of an array ends. -/
def loopEnd (length upper : Option Nat) : Option Nat :=
  match length, upper with
  | some n, some u => some (min n (u + 1))
  | some n, none => some n
  | none, some u => some (u + 1)
  | none, none => none

/-- The indices the loop of a load visits; a load beyond the end visits none. -/
def indices (length : Option Nat) (offset : Offset) : List Nat :=
  match loopEnd length offset.upper with
  | some stop => List.range' offset.lower (stop - offset.lower)
  | none => []

/-- The offset is at or beyond the end of the array. -/
def pastEnd (length : Option Nat) (offset : Offset) : Bool :=
  match length with
  | some n => decide (n ≤ offset.lower)
  | none => false

/-- `ArrayDomain::load` and `StructDomain::load`. -/
def loadAggregate (offset : Offset) : Aggregate D → Loaded D
  | .arrayTop elementType => .top elementType
  | .arrayBottom elementType => .bottom elementType
  | .array length elementType elements =>
      if pastEnd length offset then .top elementType
      else if (loopEnd length offset.upper).isNone then .abort
      else (indices length offset).foldl (fun result i =>
        result.join (state.sameLocation equals) (state.readElement elementType elements i))
        (.bottom elementType)
  | .struct elements =>
      if offset.upper = some offset.lower then
        match elements[offset.lower]? with
        | some content => state.read content
        | none => .abort
      else .abort

/-- `load` of a location. -/
def loadLocation (type : PointeeType) : MemoryLocation → Loaded D
  | .null => .top type
  | .array base offset => state.loadAggregate equals offset (state.aggregates base)
  | .struct base offsets =>
      offsets.foldl (fun result offset => result.join (state.sameLocation equals)
        (state.loadAggregate equals offset (state.aggregates base))) (.bottom type)
  | .function => .abort

/-- `PointerDomain::load`. -/
def loadPointer (type : PointeeType) (domain : PointerDomain) : Loaded D :=
  if domain.isTop then .top type
  else if domain.isBottom then .bottom type
  else domain.ptsTo.foldl (fun result location => result.join (state.sameLocation equals)
    (state.loadLocation equals type location)) (.bottom type)

/-- `loadFrom`. -/
def loadFrom (type : PointeeType) (x : Variable) : Loaded D :=
  state.loadPointer equals type (state.get x)

end State

/-! ## What topping some pointer objects does to a load -/

/-- A load before and after some pointer objects become top: a number stays what it was, a pointer
becomes top when `P` says that such an object is among the ones it joins. -/
def Loaded.Lifted (P : Prop) : Loaded D → Loaded D → Prop
  | .number before, .number after => before = after
  | .pointer before, .pointer after => after.isTop = true ↔ before.isTop = true ∨ P
  | .abort, .abort => True
  | _, _ => False

/-- The load is of a pointer. -/
def Loaded.IsPointer : Loaded D → Prop
  | .pointer _ => True
  | .number _ => False
  | .abort => False

namespace Loaded.Lifted

variable {P Q : Prop} {before before' after after' : Loaded D}

theorem refl (loaded : Loaded D) : Loaded.Lifted False loaded loaded := by
  cases loaded <;> simp [Loaded.Lifted]

theorem of_iff (hlifted : Loaded.Lifted P before after) (hiff : P ↔ Q) :
    Loaded.Lifted Q before after := by
  rwa [← propext hiff]

theorem join {equals equals' : MemoryLocation → MemoryLocation → Bool}
    (hfirst : Loaded.Lifted P before after) (hsecond : Loaded.Lifted Q before' after') :
    Loaded.Lifted (P ∨ Q) (before.join equals before') (after.join equals' after') := by
  cases before <;> cases after <;> cases before' <;> cases after' <;>
    simp only [Loaded.Lifted, Loaded.join] at hfirst hsecond ⊢
  case number.number.number.number a b c d => rw [hfirst, hsecond]
  case pointer.pointer.pointer.pointer a b c d =>
    rw [PointerDomain.isTop_joinWith, PointerDomain.isTop_joinWith, Bool.or_eq_true,
      Bool.or_eq_true, hfirst, hsecond]
    tauto

theorem foldl {α : Type} {equals equals' : MemoryLocation → MemoryLocation → Bool}
    {f g : α → Loaded D} {R : α → Prop} (items : List α)
    (hitems : ∀ item ∈ items, Loaded.Lifted (R item) (f item) (g item))
    (hlifted : Loaded.Lifted P before after) :
    Loaded.Lifted (P ∨ ∃ item ∈ items, R item)
      (items.foldl (fun result item => result.join equals (f item)) before)
      (items.foldl (fun result item => result.join equals' (g item)) after) := by
  induction items generalizing P before after with
  | nil => exact hlifted.of_iff (by simp)
  | cons item items ih =>
      have hhead : Loaded.Lifted (P ∨ R item) (before.join equals (f item))
          (after.join equals' (g item)) := hlifted.join (hitems item List.mem_cons_self)
      have hrest := ih (fun other hother => hitems other (List.mem_cons_of_mem _ hother)) hhead
      exact hrest.of_iff (by simp [or_assoc])

/-- **A load is above every value afterwards** when it was before, or joins a pointer that has
become top. -/
theorem full_iff (hlifted : Loaded.Lifted P before after) :
    after.Full ↔ before.Full ∨ before.IsPointer ∧ P := by
  cases before <;> cases after <;>
    simp only [Loaded.Lifted, Loaded.Full, Loaded.IsPointer] at hlifted ⊢
  case number.number a b => simp [hlifted]
  case pointer.pointer a b => simpa using hlifted
  case abort.abort => simp

end Loaded.Lifted

/-- A load at this offset joins the pointer object. -/
def Aggregate.Reads (offset : Offset) (object : Nat) : Aggregate D → Prop
  | .array length _ elements => State.pastEnd length offset = false ∧
      ∃ i ∈ State.indices length offset, elements i = some (.pointer object)
  | .struct elements => offset.upper = some offset.lower ∧
      elements[offset.lower]? = some (.pointer object)
  | .arrayTop _ => False
  | .arrayBottom _ => False

/-- A load of the location joins the pointer object. -/
def State.ReadsLocation (state : State D) (object : Nat) : MemoryLocation → Prop
  | .array base offset => (state.aggregates base).Reads offset object
  | .struct base offsets => ∃ offset ∈ offsets, (state.aggregates base).Reads offset object
  | .null => False
  | .function => False

/-- A load through a pointer with this domain joins the pointer object. -/
def State.Reads (state : State D) (domain : PointerDomain) (object : Nat) : Prop :=
  ∃ location ∈ domain.ptsTo, state.ReadsLocation object location

/-- The step from `before` to `after` tops the objects in `T` and leaves the other objects that
existed, and the arrays and structures, as they were. -/
structure State.Tops (T : Nat → Prop) (before after : State D) : Prop where
  aggregates : after.aggregates = before.aggregates
  globals : after.globals = before.globals
  constants : after.constants = before.constants
  next_le : before.next ≤ after.next
  top : ∀ object < before.next, T object → after.pointers object = .top
  same : ∀ object < before.next, ¬ T object → after.pointers object = before.pointers object

namespace State.Tops

variable {T : Nat → Prop} {before after : State D} {equals : Comparison D}

theorem lifted_read (htops : State.Tops T before after) {content : Content D}
    (hlt : ∀ object, content = .pointer object → object < before.next) :
    Loaded.Lifted (∃ object, T object ∧ content = .pointer object) (before.read content)
      (after.read content) := by
  cases content with
  | number domain => simp [State.read, Loaded.Lifted]
  | aggregate base => simp [State.read, Loaded.Lifted]
  | pointer object =>
      have hobject := hlt object rfl
      simp only [State.read, Loaded.Lifted, Content.pointer.injEq]
      by_cases htopped : T object
      · simp [htops.top object hobject htopped, htopped]
      · simp [htops.same object hobject htopped, htopped]

theorem lifted_readElement (htops : State.Tops T before after) {elementType : PointeeType}
    {elements : Nat → Option (Content D)} {i : Nat}
    (hlt : ∀ object, elements i = some (.pointer object) → object < before.next) :
    Loaded.Lifted (∃ object, T object ∧ elements i = some (.pointer object))
      (before.readElement elementType elements i) (after.readElement elementType elements i) := by
  unfold State.readElement
  cases helement : elements i with
  | none => exact (Loaded.Lifted.refl _).of_iff (by simp)
  | some content =>
      refine (htops.lifted_read fun object hpointer => ?_).of_iff (by simp)
      exact hlt object (by rw [helement, hpointer])

theorem lifted_loadAggregate (htops : State.Tops T before after) (base : Nat)
    (offset : Offset) :
    Loaded.Lifted (∃ object, T object ∧ (before.aggregates base).Reads offset object)
      (before.loadAggregate equals offset (before.aggregates base))
      (after.loadAggregate equals offset (after.aggregates base)) := by
  have hrefers := before.refers_lt base
  rw [htops.aggregates]
  generalize before.aggregates base = aggregate at hrefers
  cases aggregate with
  | arrayTop elementType =>
      exact (Loaded.Lifted.refl _).of_iff (by simp [Aggregate.Reads])
  | arrayBottom elementType =>
      exact (Loaded.Lifted.refl _).of_iff (by simp [Aggregate.Reads])
  | array length elementType elements =>
      unfold State.loadAggregate
      dsimp only
      split
      · next hpast => exact (Loaded.Lifted.refl _).of_iff (by simp [Aggregate.Reads, hpast])
      · next hpast =>
          split
          · next hend =>
              refine (Loaded.Lifted.refl _).of_iff ?_
              simp [Aggregate.Reads, State.indices, Option.isNone_iff_eq_none.mp hend]
          · -- the loop joins the elements one by one
            have hitems : ∀ i ∈ State.indices length offset,
                Loaded.Lifted (∃ object, T object ∧ elements i = some (.pointer object))
                  (before.readElement elementType elements i)
                  (after.readElement elementType elements i) := by
              intro i _
              exact htops.lifted_readElement fun object helement => hrefers object ⟨i, helement⟩
            refine (Loaded.Lifted.foldl _ hitems (Loaded.Lifted.refl _)).of_iff ?_
            simp only [Aggregate.Reads, Bool.not_eq_true _ ▸ hpast, true_and, false_or]
            constructor
            · rintro ⟨i, hi, object, hobject, helement⟩
              exact ⟨object, hobject, i, hi, helement⟩
            · rintro ⟨object, hobject, i, hi, helement⟩
              exact ⟨i, hi, object, hobject, helement⟩
  | struct elements =>
      unfold State.loadAggregate
      dsimp only
      split
      · next hconstant =>
          cases helement : elements[offset.lower]? with
          | none =>
              exact (Loaded.Lifted.refl _).of_iff (by simp [Aggregate.Reads, helement])
          | some content =>
              have hmem := List.mem_of_getElem? helement
              refine (htops.lifted_read fun object hpointer => ?_).of_iff ?_
              · exact hrefers object (by rw [hpointer] at hmem; exact hmem)
              · simp [Aggregate.Reads, helement, hconstant]
      · next hconstant =>
          exact (Loaded.Lifted.refl _).of_iff (by simp [Aggregate.Reads, hconstant])

theorem lifted_loadLocation (htops : State.Tops T before after) (type : PointeeType)
    (location : MemoryLocation) :
    Loaded.Lifted (∃ object, T object ∧ before.ReadsLocation object location)
      (before.loadLocation equals type location) (after.loadLocation equals type location) := by
  cases location with
  | null => exact (Loaded.Lifted.refl _).of_iff (by simp [State.ReadsLocation])
  | function => exact (Loaded.Lifted.refl _).of_iff (by simp [State.ReadsLocation])
  | array base offset => exact htops.lifted_loadAggregate base offset
  | struct base offsets =>
      refine (Loaded.Lifted.foldl offsets (fun offset _ =>
        htops.lifted_loadAggregate base offset) (Loaded.Lifted.refl _)).of_iff ?_
      simp only [State.ReadsLocation, false_or]
      constructor
      · rintro ⟨offset, hoffset, object, hobject, hreads⟩
        exact ⟨object, hobject, offset, hoffset, hreads⟩
      · rintro ⟨object, hobject, offset, hoffset, hreads⟩
        exact ⟨offset, hoffset, object, hobject, hreads⟩

/-- **The loads through a pointer whose own object is not topped.** -/
theorem lifted_loadPointer (htops : State.Tops T before after) (type : PointeeType)
    (domain : PointerDomain) :
    Loaded.Lifted (∃ object, T object ∧ before.Reads domain object)
      (before.loadPointer equals type domain) (after.loadPointer equals type domain) := by
  have hnone (hempty : domain.ptsTo = []) :
      False ↔ ∃ object, T object ∧ before.Reads domain object := by
    simp [State.Reads, hempty]
  unfold State.loadPointer
  split
  · next htop =>
      simp only [PointerDomain.isTop, Bool.and_eq_true, List.isEmpty_iff] at htop
      exact (Loaded.Lifted.refl _).of_iff (hnone htop.2)
  · split
    · next hbottom =>
        simp only [PointerDomain.isBottom, Bool.and_eq_true, List.isEmpty_iff] at hbottom
        exact (Loaded.Lifted.refl _).of_iff (hnone hbottom.2)
    · refine (Loaded.Lifted.foldl domain.ptsTo (fun location _ =>
        htops.lifted_loadLocation type location) (Loaded.Lifted.refl _)).of_iff ?_
      simp only [State.Reads, false_or]
      constructor
      · rintro ⟨location, hlocation, object, hobject, hreads⟩
        exact ⟨object, hobject, location, hlocation, hreads⟩
      · rintro ⟨object, hobject, location, hlocation, hreads⟩
        exact ⟨location, hlocation, object, hobject, hreads⟩

end State.Tops

end PointsTo

end Borealis
