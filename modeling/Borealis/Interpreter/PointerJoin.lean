import Borealis.Interpreter.ArrayAccess
import Borealis.Interpreter.IntervalLattice

/-!
# Stores through a joined pointer

`joinWith`, `widenWith` and `store` of `Interpreter/Domain/Memory/PointerDomain.hpp`, with the
locations of `MemoryLocation.hpp` and the arrays and structures they point into.  An allocation is
an object of the memory; a location is such an object with offsets into it.

A points-to set is a hash set, and two locations are the same key when the *contents* of their
objects are equal.  The hash of an array or a structure is a constant of its class, so the keys of
a set stay in their bucket when a store changes the contents.

## Strategy

`merged` is what a join is for: locations of one allocation are merged, all others are kept.
`mem_foldl_joinLocation` says that `joinWith` computes it where equal contents mean the same
allocation.  A store only raises what the objects hold and keeps their shape (`Raised`), so what
one location has written is still there after the others (`foldlM_raised`).
-/

namespace Borealis

open ArrayAccess

section Contents

variable {D : Type} [SemilatticeSup D] [BoundedOrder D] [DecidableEq D]

omit [SemilatticeSup D] [BoundedOrder D] in
/-- `equals`. -/
def ArrayAccess.ArrayDomain.equals (this other : ArrayDomain D) : Bool :=
  if this.isBottom then other.isBottom
  else if this.isTop then other.isTop
  else if other.isTop || other.isBottom then false
  else Interval.equals this.length other.length &&
    this.elements.entries.all (fun entry => other.elements.lookup entry.1 = some entry.2) &&
    other.elements.entries.all fun entry => this.elements.lookup entry.1 = some entry.2

namespace PointerJoin

/-! ## Objects -/

/-- What a location points into: an `ArrayDomain`, or a `StructDomain` with its `elements_`. -/
inductive Base (D : Type)
  | array (domain : ArrayDomain D)
  | struct (elements : List D)

/-- `isTop` of a structure. -/
def structIsTop (elements : List D) : Bool :=
  elements.all (· = ⊤)

/-- `isBottom` of a structure. -/
def structIsBottom (elements : List D) : Bool :=
  elements.all (· = ⊥)

namespace Base

/-- `equals`. -/
def equals : Base D → Base D → Bool
  | .array this, .array other => this.equals other
  | .struct this, .struct other =>
      if structIsBottom this then structIsBottom other
      else if structIsTop this then structIsTop other
      else if structIsTop other || structIsBottom other then false
      else this = other
  | _, _ => false

/-- `StructDomain::store`; `none` where the assertion fails or the index is beyond the end. -/
def storeStruct (value : D) (interval : Interval.Ptr false 64) (elements : List D) :
    Option (List D) :=
  let (lb, ub) := unsignedBounds interval
  if lb = ub then
    if structIsTop elements then some elements
    else (elements[Index.pos lb.number]?).map fun old =>
      elements.set (Index.pos lb.number) (old ⊔ value)
  else none

/-- `store`; `none` when it fails, or when its loop has not ended after `fuel` tests. -/
def store (fuel : Nat) (value : D) (interval : Interval.Ptr false 64) :
    Base D → Option (Base D)
  | .array domain => (domain.store fuel value interval).map .array
  | .struct elements => (storeStruct value interval elements).map .struct

omit [DecidableEq D] in
/-- The abstract value of an element. -/
def valueAt : Base D → Index → D
  | .array domain, x => domain.valueAt x
  | .struct elements, x => elements.getD (Index.pos x) ⊥

omit [SemilatticeSup D] [BoundedOrder D] [DecidableEq D] in
/-- The elements an access may concern. -/
def Touched (interval : Interval.Ptr false 64) (x : Index) : Base D → Prop
  | .array domain => ArrayAccess.Touched domain.length interval x
  | .struct elements => x ∈ interval ∧ Index.pos x < elements.length

omit [SemilatticeSup D] [BoundedOrder D] [DecidableEq D] in
/-- The elements a store goes to. -/
def Visits (interval : Interval.Ptr false 64) (x : Index) : Base D → Prop
  | .array domain => domain.length.isBottom = false ∧ lowerEnd interval ≤ Index.pos x ∧
      ∀ m, accessLimit domain.length interval = some m → Index.pos x < m
  | .struct elements => Index.pos x = lowerEnd interval ∧ Index.pos x < elements.length

/-- A store ends without a failure. -/
def Accepts (interval : Interval.Ptr false 64) : Base D → Prop
  | .array domain => domain.isTop = true ∨ domain.isBottom = true ∨
      Terminates domain.length interval
  | .struct elements => interval.ub.isFinite = true ∧
      (structIsTop elements = true ∨ lowerEnd interval < elements.length)

end Base

/-! ## What a store does to an object -/

/-- Nothing is lower than before, and the shape is the same. -/
structure Raised (base next : Base D) : Prop where
  value : ∀ x, base.valueAt x ≤ next.valueAt x
  accepts : ∀ interval, base.Accepts interval → next.Accepts interval
  visits : ∀ interval x, next.Visits interval x ↔ base.Visits interval x

theorem Raised.refl (base : Base D) : Raised base base :=
  ⟨fun _ => le_rfl, fun _ h => h, fun _ _ => Iff.rfl⟩

theorem Raised.trans {base mid next : Base D} (h : Raised base mid) (h' : Raised mid next) :
    Raised base next where
  value x := (h.value x).trans (h'.value x)
  accepts interval hinterval := h'.accepts interval (h.accepts interval hinterval)
  visits interval x := (h'.visits interval x).trans (h.visits interval x)

namespace Base

/-- What an array becomes when its loop ends. -/
theorem store_array {domain : ArrayDomain D} {interval : Interval.Ptr false 64} (value : D)
    (haccepts : (Base.array domain).Accepts interval) : ∃ fuel next,
      (∀ fuel', fuel ≤ fuel' → domain.store fuel' value interval = some next) ∧
        Raised (.array domain) (.array next) ∧
        ∀ x, (Base.array domain).Visits interval x → value ≤ next.valueAt x := by
  cases htop : domain.isTop with
  | true =>
      refine ⟨0, domain, fun fuel' _ => by simp [ArrayDomain.store, htop], Raised.refl _,
        fun x _ => ?_⟩
      rw [ArrayDomain.valueAt, if_pos htop]
      exact le_top
  | false =>
  cases hbottom : domain.isBottom with
  | true =>
      refine ⟨0, domain, fun fuel' _ => by simp [ArrayDomain.store, htop, hbottom],
        Raised.refl _, fun x hx => ?_⟩
      rw [ArrayDomain.isBottom, Bool.and_eq_true] at hbottom
      exact Bool.noConfusion (hx.1.symm.trans hbottom.1)
  | false =>
  obtain ⟨m, hm, hlt⟩ := (terminates_iff _ _).mp
    ((haccepts.resolve_left (by simp [htop])).resolve_left (by simp [hbottom]))
  have hstore := store_eq htop hbottom hm hlt value
  refine ⟨m - lowerEnd interval + 1, _, fun fuel' hfuel => store_mono hfuel hstore, ?_, ?_⟩
  · refine ⟨fun x => ?_, fun interval' h => ?_, fun _ _ => Iff.rfl⟩
    · rw [valueAt, valueAt, ArrayDomain.valueAt, if_neg (by simp [htop]), ArrayDomain.valueAt]
      split
      · exact le_top
      · exact (foldl_cell value x _ domain.elements).1
    · exact Or.inr (Or.inr
        ((h.resolve_left (by simp [htop])).resolve_left (by simp [hbottom])))
  · rintro x ⟨-, hlow, hhigh⟩
    rw [ArrayDomain.valueAt]
    split
    · exact le_top
    · refine (foldl_cell value x _ domain.elements).2.1 (List.mem_map.mpr ⟨_, ?_, indexAt_pos x⟩)
      have := hhigh m hm
      rw [List.mem_range'_1]
      omega

/-- What a structure becomes. -/
theorem store_struct {elements : List D} {interval : Interval.Ptr false 64} (value : D)
    (haccepts : (Base.struct elements).Accepts interval) :
    ∃ next, storeStruct value interval elements = some next ∧
      Raised (.struct elements) (.struct next) ∧
      ∀ x, (Base.struct elements).Visits interval x → value ≤ (Base.struct next).valueAt x := by
  obtain ⟨hub, hindex⟩ := haccepts
  have hbounds : unsignedBounds interval =
      (.finite (indexAt (lowerEnd interval)), .finite (indexAt (lowerEnd interval))) := by
    rw [unsignedBounds_eq, if_pos hub]
  have hpos := pos_indexAt (lowerEnd_lt interval)
  cases htop : structIsTop elements with
  | true =>
      refine ⟨elements, by simp [storeStruct, hbounds, htop], Raised.refl _, fun x hx => ?_⟩
      have hall := List.all_eq_true.mp htop _ (List.getElem_mem hx.2)
      rw [valueAt, List.getD_eq_getElem _ _ hx.2, of_decide_eq_true hall]
      exact le_top
  | false =>
      have hlt := hindex.resolve_left (by simp [htop])
      refine ⟨elements.set (lowerEnd interval) (elements[lowerEnd interval] ⊔ value), ?_, ?_, ?_⟩
      · simp [storeStruct, hbounds, htop, Bound.number, hpos, hlt]
      · refine ⟨fun x => ?_, fun interval' h => ⟨h.1, Or.inr ?_⟩, fun _ _ => ?_⟩
        · by_cases hx : Index.pos x = lowerEnd interval
          · simp [valueAt, hx, hlt]
          · simp [valueAt, List.getElem?_set_ne (Ne.symm hx)]
        · rw [List.length_set]
          exact h.2.resolve_left (by simp [htop])
        · rw [Visits, Visits, List.length_set]
      · rintro x ⟨hx, -⟩
        simp [valueAt, hx, hlt]

/-- **What a store does to an object.** -/
theorem store_raised {base : Base D} {interval : Interval.Ptr false 64} (value : D)
    (haccepts : base.Accepts interval) : ∃ fuel next,
      (∀ fuel', fuel ≤ fuel' → base.store fuel' value interval = some next) ∧
        Raised base next ∧ ∀ x, base.Visits interval x → value ≤ next.valueAt x := by
  cases base with
  | array domain =>
      obtain ⟨fuel, next, hstore, hnext⟩ := store_array value haccepts
      refine ⟨fuel, .array next, fun fuel' hfuel => ?_, hnext⟩
      rw [store, hstore fuel' hfuel, Option.map_some]
  | struct elements =>
      obtain ⟨next, hstore, hnext⟩ := store_struct value haccepts
      exact ⟨0, .struct next, fun fuel' _ => by rw [store, hstore, Option.map_some], hnext⟩

end Base

/-! ## Locations and pointers -/

/-- The objects that locations point into. -/
abbrev Memory (D : Type) := Nat → Base D

/-- `NullLocation`, `FunctionLocation`, `ArrayLocation` and `StructLocation`.  A function domain
stands for all that are equal to it. -/
inductive Location
  | null
  | function (domain : Nat)
  | array (base : Nat) (offset : Interval.Ptr false 64)
  | struct (base : Nat) (offsets : List (Interval.Ptr false 64))

/-- What a location points into. -/
inductive Key
  | null
  | function (domain : Nat)
  | array (base : Nat)
  | struct (base : Nat)
deriving DecidableEq

/-- `join` or `widen`. -/
inductive Combination
  | join
  | widen

/-- The operation on offsets. -/
def Combination.apply : Combination → Interval.Ptr false 64 → Interval.Ptr false 64 →
    Interval.Ptr false 64
  | .join => Interval.join
  | .widen => Interval.widen

namespace Location

def key : Location → Key
  | .null => .null
  | .function domain => .function domain
  | .array base _ => .array base
  | .struct base _ => .struct base

/-- `OffsetSet::insert`. -/
def insertOffset (offsets : List (Interval.Ptr false 64)) (offset : Interval.Ptr false 64) :
    List (Interval.Ptr false 64) :=
  if offsets.any (Interval.equals offset) then offsets else offsets ++ [offset]

/-- `join` or `widen` of two equal locations; a structure location collects its offsets. -/
def combine (op : Combination) : Location → Location → Location
  | .array base offset, .array _ other => .array base (op.apply offset other)
  | .struct base offsets, .struct _ others => .struct base (others.foldl insertOffset offsets)
  | this, _ => this

@[simp] theorem key_combine (op : Combination) (this other : Location) :
    (this.combine op other).key = this.key := by
  cases this <;> cases other <;> rfl

end Location

/-- `equals` of two locations: the same object, or objects of equal contents. -/
def sameKey (memory : Memory D) : Key → Key → Bool
  | .null, .null => true
  | .function this, .function other => this = other
  | .array this, .array other => this = other || (memory this).equals (memory other)
  | .struct this, .struct other => this = other || (memory this).equals (memory other)
  | _, _ => false

theorem sameKey_self (memory : Memory D) (key : Key) : sameKey memory key key = true := by
  cases key <;> simp [sameKey]

section Sets

variable (op : Combination) (memory : Memory D)

/-- `PointsToSet::insert`. -/
def insert (ptsTo : List Location) (location : Location) : List Location :=
  if ptsTo.any (fun m => sameKey memory location.key m.key) then ptsTo else ptsTo ++ [location]

/-- The body of the loop of `joinWith` and `widenWith`. -/
def joinLocation (ptsTo : List Location) (location : Location) : List Location :=
  match ptsTo.find? (fun m => sameKey memory location.key m.key) with
  | none => insert memory ptsTo location
  | some found =>
      insert memory (ptsTo.eraseP fun m => sameKey memory location.key m.key)
        (found.combine op location)

end Sets

/-- `PointerDomain`. -/
structure PointerDomain where
  isBottom_ : Bool
  ptsTo : List Location

namespace PointerDomain

def isTop (d : PointerDomain) : Bool :=
  !d.isBottom_ && d.ptsTo.isEmpty

def isBottom (d : PointerDomain) : Bool :=
  d.isBottom_ && d.ptsTo.isEmpty

theorem ptsTo_of_isTop {d : PointerDomain} (htop : d.isTop = true) : d.ptsTo = [] := by
  rw [isTop, Bool.and_eq_true, List.isEmpty_iff] at htop
  exact htop.2

theorem ptsTo_of_isBottom {d : PointerDomain} (hbottom : d.isBottom = true) : d.ptsTo = [] := by
  rw [isBottom, Bool.and_eq_true, List.isEmpty_iff] at hbottom
  exact hbottom.2

/-- `joinWith` and `widenWith`. -/
def combineWith (op : Combination) (memory : Memory D) (this other : PointerDomain) :
    PointerDomain :=
  if this.isBottom then other
  else if this.isTop then this
  else if other.isBottom then this
  else if other.isTop then ⟨false, []⟩
  else { this with ptsTo := other.ptsTo.foldl (joinLocation op memory) this.ptsTo }

/-- A set has no two locations of one object: they would be equal. -/
def Distinct (d : PointerDomain) : Prop :=
  (d.ptsTo.map Location.key).Nodup

end PointerDomain

/-! ### The invariant of a set -/

theorem key_not_mem {memory : Memory D} {ptsTo : List Location} {key : Key}
    (hnone : ptsTo.any (fun m => sameKey memory key m.key) = false) :
    key ∉ ptsTo.map Location.key := by
  intro hmem
  obtain ⟨m, hm, rfl⟩ := List.mem_map.mp hmem
  exact Bool.false_ne_true (hnone.symm.trans (List.any_eq_true.mpr ⟨m, hm, sameKey_self _ _⟩))

theorem nodup_insert {memory : Memory D} {ptsTo : List Location} (location : Location)
    (hptsTo : (ptsTo.map Location.key).Nodup) :
    ((insert memory ptsTo location).map Location.key).Nodup := by
  unfold insert
  split
  · exact hptsTo
  · next hnone =>
      rw [List.map_append, List.map_singleton, List.nodup_append]
      refine ⟨hptsTo, List.nodup_singleton _, fun key hkey key' hkey' heq => ?_⟩
      rw [List.mem_singleton.mp hkey'] at heq
      exact key_not_mem (Bool.eq_false_iff.mpr hnone) (heq ▸ hkey)

theorem nodup_joinLocation (op : Combination) {memory : Memory D} {ptsTo : List Location}
    (location : Location) (hptsTo : (ptsTo.map Location.key).Nodup) :
    ((joinLocation op memory ptsTo location).map Location.key).Nodup := by
  unfold joinLocation
  split
  · exact nodup_insert location hptsTo
  · exact nodup_insert _ (hptsTo.sublist (List.eraseP_sublist.map _))

theorem nodup_foldl_joinLocation (op : Combination) {memory : Memory D} (locations : List Location)
    {ptsTo : List Location} (hptsTo : (ptsTo.map Location.key).Nodup) :
    ((locations.foldl (joinLocation op memory) ptsTo).map Location.key).Nodup := by
  induction locations generalizing ptsTo with
  | nil => exact hptsTo
  | cons location locations ih => exact ih (nodup_joinLocation op location hptsTo)

/-- **A join of two sets is a set.** -/
theorem PointerDomain.distinct_combineWith (op : Combination) (memory : Memory D)
    {this other : PointerDomain} (hthis : this.Distinct) (hother : other.Distinct) :
    (this.combineWith op memory other).Distinct := by
  unfold combineWith
  split
  · exact hother
  split
  · exact hthis
  split
  · exact hthis
  split
  · exact List.nodup_nil
  · exact nodup_foldl_joinLocation op other.ptsTo hthis

/-! ## What a join is for -/

/-- A location, merged with the one of the same object among others. -/
def Location.mergeWith (op : Combination) (location : Location) (others : List Location) :
    Location :=
  match others.find? (fun m => m.key = location.key) with
  | some other => location.combine op other
  | none => location

/-- The locations of two sets, where those of one object are merged. -/
def merged (op : Combination) (these others : List Location) : List Location :=
  these.map (fun location => location.mergeWith op others) ++
    others.filter fun other => other.key ∉ these.map Location.key

@[simp] theorem Location.key_mergeWith (op : Combination) (location : Location)
    (others : List Location) : (location.mergeWith op others).key = location.key := by
  unfold mergeWith
  split
  · exact key_combine op _ _
  · rfl

theorem mem_merged {op : Combination} {these others : List Location} {m : Location} :
    m ∈ merged op these others ↔
      (∃ location ∈ these, location.mergeWith op others = m) ∨
        (m ∈ others ∧ m.key ∉ these.map Location.key) := by
  rw [merged, List.mem_append, List.mem_map, List.mem_filter, decide_eq_true_iff]

theorem find?_key_eq_none {locations : List Location} {key : Key}
    (hkey : key ∉ locations.map Location.key) :
    locations.find? (fun m => m.key = key) = none := by
  rw [List.find?_eq_none]
  intro m hm heq
  exact hkey (List.mem_map.mpr ⟨m, hm, of_decide_eq_true heq⟩)

theorem Location.mergeWith_of_not_mem {op : Combination} {location : Location}
    {others : List Location} (hkey : location.key ∉ others.map Location.key) :
    location.mergeWith op others = location := by
  rw [mergeWith, find?_key_eq_none hkey]

theorem Location.mergeWith_concat_of_ne {op : Combination} {location other : Location}
    {others : List Location} (hkey : other.key ≠ location.key) :
    location.mergeWith op (others ++ [other]) = location.mergeWith op others := by
  rw [mergeWith, mergeWith, List.find?_append, List.find?_singleton,
    if_neg (by simpa using hkey), Option.or_none]

theorem Location.mergeWith_concat {op : Combination} {location other : Location}
    {others : List Location} (hothers : location.key ∉ others.map Location.key)
    (hkey : other.key = location.key) :
    location.mergeWith op (others ++ [other]) = location.combine op other := by
  rw [mergeWith, List.find?_append, find?_key_eq_none hothers, List.find?_singleton,
    if_pos (by simpa using hkey)]
  rfl

/-- `erase` of the key that a search finds. -/
theorem mem_eraseP_key {ptsTo : List Location} {found : Location → Bool} {key : Key}
    (hptsTo : (ptsTo.map Location.key).Nodup)
    (hfound : ∀ m ∈ ptsTo, found m = true ↔ m.key = key) (y : Location) :
    y ∈ ptsTo.eraseP found ↔ y ∈ ptsTo ∧ y.key ≠ key := by
  induction ptsTo with
  | nil => simp
  | cons m ptsTo ih =>
      rw [List.map_cons, List.nodup_cons] at hptsTo
      have hrest := ih hptsTo.2 fun z hz => hfound z (List.mem_cons_of_mem m hz)
      by_cases hm : found m = true
      · have hkey := (hfound m List.mem_cons_self).mp hm
        rw [List.eraseP_cons_of_pos hm, List.mem_cons]
        refine ⟨fun hy => ⟨Or.inr hy, fun heq => hptsTo.1 ?_⟩, ?_⟩
        · exact List.mem_map.mpr ⟨y, hy, heq.trans hkey.symm⟩
        · rintro ⟨rfl | hy, hne⟩
          · exact absurd hkey hne
          · exact hy
      · have hkey : m.key ≠ key := fun h => hm ((hfound m List.mem_cons_self).mpr h)
        rw [List.eraseP_cons_of_neg hm, List.mem_cons, List.mem_cons, hrest]
        constructor
        · rintro (rfl | ⟨hy, hne⟩)
          · exact ⟨Or.inl rfl, hkey⟩
          · exact ⟨Or.inr hy, hne⟩
        · rintro ⟨rfl | hy, hne⟩
          · exact Or.inl rfl
          · exact Or.inr ⟨hy, hne⟩

section Join

variable {op : Combination} {memory : Memory D} {ptsTo : List Location} {location : Location}

theorem mem_insert_of_not_mem
    (hsame : ∀ m ∈ ptsTo, sameKey memory location.key m.key = true → m.key = location.key)
    (hkey : location.key ∉ ptsTo.map Location.key) (y : Location) :
    y ∈ insert memory ptsTo location ↔ y ∈ ptsTo ∨ y = location := by
  have hnone : ptsTo.any (fun m => sameKey memory location.key m.key) = false := by
    rw [List.any_eq_false]
    intro m hm h
    exact hkey (List.mem_map.mpr ⟨m, hm, hsame m hm h⟩)
  rw [insert, if_neg (by simp [hnone]), List.mem_append, List.mem_singleton]

/-- A location of a new object is added. -/
theorem mem_joinLocation_of_not_mem
    (hsame : ∀ m ∈ ptsTo, sameKey memory location.key m.key = true → m.key = location.key)
    (hkey : location.key ∉ ptsTo.map Location.key) (y : Location) :
    y ∈ joinLocation op memory ptsTo location ↔ y ∈ ptsTo ∨ y = location := by
  have hnone : ptsTo.find? (fun m => sameKey memory location.key m.key) = none := by
    rw [List.find?_eq_none]
    intro m hm h
    exact hkey (List.mem_map.mpr ⟨m, hm, hsame m hm h⟩)
  rw [joinLocation, hnone]
  exact mem_insert_of_not_mem hsame hkey y

/-- A location of an object that the set has is merged with the location there. -/
theorem mem_joinLocation_of_mem (hptsTo : (ptsTo.map Location.key).Nodup)
    (hsame : ∀ m ∈ ptsTo, sameKey memory location.key m.key = true → m.key = location.key)
    {x : Location} (hx : x ∈ ptsTo) (hkey : x.key = location.key) (y : Location) :
    y ∈ joinLocation op memory ptsTo location ↔
      (y ∈ ptsTo ∧ y.key ≠ location.key) ∨ y = x.combine op location := by
  have hfound : ∀ m ∈ ptsTo, sameKey memory location.key m.key = true ↔ m.key = location.key :=
    fun m hm => ⟨hsame m hm, fun h => h ▸ sameKey_self memory m.key⟩
  have herase := mem_eraseP_key hptsTo hfound
  cases hfind : ptsTo.find? (fun m => sameKey memory location.key m.key) with
  | none =>
      exact absurd ((hfound x hx).mpr hkey) (List.find?_eq_none.mp hfind x hx)
  | some found =>
      have hmem := List.mem_of_find?_eq_some hfind
      have hfoundKey := hsame found hmem
        (List.find?_some (p := fun m : Location => sameKey memory location.key m.key) hfind)
      obtain rfl := List.inj_on_of_nodup_map hptsTo hmem hx (hfoundKey.trans hkey.symm)
      rw [joinLocation, hfind]
      refine (mem_insert_of_not_mem ?_ ?_ y).trans (or_congr (herase y) Iff.rfl)
      · intro m hm h
        rw [Location.key_combine, hkey] at h ⊢
        exact hsame m ((herase m).mp hm).1 h
      · rintro hmap
        obtain ⟨m, hm, heq⟩ := List.mem_map.mp hmap
        exact ((herase m).mp hm).2 (by rw [heq, Location.key_combine, hkey])

end Join

/-- The contents tell the objects of the other set apart, from each other and from these. -/
def Separate (memory : Memory D) (these others : List Location) : Prop :=
  ∀ location ∈ others, ∀ m ∈ these ++ others,
    sameKey memory location.key m.key = true → m.key = location.key

/-- **Joining separate sets merges the locations of one object.** -/
theorem mem_foldl_joinLocation {op : Combination} {memory : Memory D}
    {these others : List Location} (hthese : (these.map Location.key).Nodup)
    (hothers : (others.map Location.key).Nodup) (hseparate : Separate memory these others)
    (y : Location) :
    y ∈ others.foldl (joinLocation op memory) these ↔ y ∈ merged op these others := by
  induction others using List.reverseRecOn generalizing y with
  | nil => simp [merged, Location.mergeWith]
  | append_singleton others location ih =>
      rw [List.map_append, List.map_singleton, List.nodup_append] at hothers
      have hnew : location.key ∉ others.map Location.key := fun h =>
        hothers.2.2 _ h _ (List.mem_singleton.mpr rfl) rfl
      have hmem : location ∈ others ++ [location] := by simp
      replace ih := ih hothers.1 fun l hl m hm =>
        hseparate l (List.mem_append_left _ hl) m
          (by simp only [List.mem_append] at hm ⊢; tauto)
      -- what the set holds before this location has the key of one of the two sets
      have hkeys : ∀ m ∈ others.foldl (joinLocation op memory) these,
          m.key ∈ (these ++ others).map Location.key := by
        intro m hm
        rw [List.map_append, List.mem_append]
        rcases mem_merged.mp ((ih m).mp hm) with ⟨l, hl, rfl⟩ | ⟨hm, -⟩
        · exact Or.inl (List.mem_map.mpr ⟨l, hl, (l.key_mergeWith op others).symm⟩)
        · exact Or.inr (List.mem_map_of_mem hm)
      have hsame : ∀ m ∈ others.foldl (joinLocation op memory) these,
          sameKey memory location.key m.key = true → m.key = location.key := by
        intro m hm h
        obtain ⟨l, hl, heq⟩ := List.mem_map.mp (hkeys m hm)
        rw [← heq] at h ⊢
        exact hseparate location hmem l (by simp only [List.mem_append] at hl ⊢; tauto) h
      have hnodup : ((others.foldl (joinLocation op memory) these).map Location.key).Nodup :=
        nodup_foldl_joinLocation op others hthese
      rw [List.foldl_append, List.foldl_cons, List.foldl_nil, mem_merged]
      by_cases hold : location.key ∈ these.map Location.key
      · obtain ⟨l, hl, hkey⟩ := List.mem_map.mp hold
        have hunmerged : l.mergeWith op others = l :=
          Location.mergeWith_of_not_mem (hkey ▸ hnew)
        have hfound : l ∈ others.foldl (joinLocation op memory) these :=
          (ih l).mpr (mem_merged.mpr (Or.inl ⟨l, hl, hunmerged⟩))
        have hmerged : l.mergeWith op (others ++ [location]) = l.combine op location :=
          Location.mergeWith_concat (hkey ▸ hnew) hkey.symm
        rw [mem_joinLocation_of_mem hnodup hsame hfound hkey, ih, mem_merged]
        constructor
        · rintro (⟨⟨x, hx, rfl⟩ | ⟨hy, hy'⟩, hne⟩ | rfl)
          · rw [Location.key_mergeWith] at hne
            exact Or.inl ⟨x, hx, Location.mergeWith_concat_of_ne hne.symm⟩
          · exact Or.inr ⟨List.mem_append_left _ hy, hy'⟩
          · exact Or.inl ⟨l, hl, hmerged⟩
        · rintro (⟨x, hx, rfl⟩ | ⟨hy, hy'⟩)
          · by_cases hx' : x.key = location.key
            · obtain rfl := List.inj_on_of_nodup_map hthese hx hl (hx'.trans hkey.symm)
              exact Or.inr hmerged
            · rw [Location.mergeWith_concat_of_ne (Ne.symm hx')]
              exact Or.inl ⟨Or.inl ⟨x, hx, rfl⟩, by rwa [Location.key_mergeWith]⟩
          · rcases List.mem_append.mp hy with hy | hy
            · exact Or.inl ⟨Or.inr ⟨hy, hy'⟩, fun h => hy' (h ▸ hold)⟩
            · exact absurd (List.mem_singleton.mp hy ▸ hold) hy'
      · have hother : ∀ l ∈ these, location.key ≠ l.key := fun l hl h =>
          hold (h ▸ List.mem_map_of_mem hl)
        have hfresh : location.key ∉
            (others.foldl (joinLocation op memory) these).map Location.key := by
          intro h
          obtain ⟨m, hm, heq⟩ := List.mem_map.mp h
          have := heq ▸ hkeys m hm
          rw [List.map_append, List.mem_append] at this
          exact this.elim hold hnew
        rw [mem_joinLocation_of_not_mem hsame hfresh, ih, mem_merged]
        constructor
        · rintro ((⟨x, hx, rfl⟩ | ⟨hy, hy'⟩) | rfl)
          · exact Or.inl ⟨x, hx, Location.mergeWith_concat_of_ne (hother x hx)⟩
          · exact Or.inr ⟨List.mem_append_left _ hy, hy'⟩
          · exact Or.inr ⟨List.mem_append_right _ List.mem_cons_self, hold⟩
        · rintro (⟨x, hx, rfl⟩ | ⟨hy, hy'⟩)
          · exact Or.inl (Or.inl ⟨x, hx, (Location.mergeWith_concat_of_ne (hother x hx)).symm⟩)
          · rcases List.mem_append.mp hy with hy | hy
            · exact Or.inl (Or.inr ⟨hy, hy'⟩)
            · exact Or.inr (List.mem_singleton.mp hy)

/-- **`joinWith` and `widenWith` merge the locations of one object**, when neither pointer is top
and the sets are separate. -/
theorem PointerDomain.mem_combineWith {op : Combination} {memory : Memory D}
    {this other : PointerDomain} (hthis : this.Distinct) (hother : other.Distinct)
    (htop : this.isTop = false) (htop' : other.isTop = false)
    (hseparate : this.isBottom = false → Separate memory this.ptsTo other.ptsTo) (y : Location) :
    y ∈ (this.combineWith op memory other).ptsTo ↔ y ∈ merged op this.ptsTo other.ptsTo := by
  unfold combineWith
  split
  · next hbottom => simp [merged, ptsTo_of_isBottom hbottom]
  next hbottom' =>
    rw [if_neg (by simp [htop])]
    split
    · next hbottom => simp [merged, ptsTo_of_isBottom hbottom, Location.mergeWith]
    · rw [if_neg (by simp [htop'])]
      exact mem_foldl_joinLocation hthis hother (hseparate (Bool.eq_false_iff.mpr hbottom')) y

/-! ## Stores -/

/-- `operator+` of two offsets. -/
def plus (lhv rhv : Interval.Ptr false 64) : Interval.Ptr false 64 :=
  Interval.clone (Interval.add lhv.toInterval rhv.toInterval)

/-- `base_->store(value, interval)`. -/
def storeBase (fuel : Nat) (value : D) (base : Nat) (memory : Memory D)
    (interval : Interval.Ptr false 64) : Option (Memory D) :=
  ((memory base).store fuel value interval).map (Function.update memory base)

namespace Location

/-- The object a location points into. -/
def object : Location → Option Nat
  | .null => none
  | .function _ => none
  | .array base _ => some base
  | .struct base _ => some base

/-- Where in its object a location accesses, for an offset of the access. -/
def intervals (offset : Interval.Ptr false 64) : Location → List (Interval.Ptr false 64)
  | .null => []
  | .function _ => []
  | .array _ offset_ => [plus offset offset_]
  | .struct _ offsets_ => offsets_.map fun offset_ => plus offset_ offset

/-- `store`; a function location does not support it. -/
def store (fuel : Nat) (value : D) (offset : Interval.Ptr false 64) (memory : Memory D) :
    Location → Option (Memory D)
  | .null => some memory
  | .function _ => none
  | .array base offset_ => storeBase fuel value base memory (plus offset offset_)
  | .struct base offsets_ =>
      (offsets_.map fun offset_ => plus offset_ offset).foldlM (storeBase fuel value base) memory

/-- The elements of an object that an access may concern. -/
def Touched (memory : Memory D) (offset : Interval.Ptr false 64) (location : Location)
    (base : Nat) (x : Index) : Prop :=
  location.object = some base ∧
    ∃ interval ∈ location.intervals offset, (memory base).Touched interval x

/-- The elements of an object that a store goes to. -/
def Visits (memory : Memory D) (offset : Interval.Ptr false 64) (location : Location)
    (base : Nat) (x : Index) : Prop :=
  location.object = some base ∧
    ∃ interval ∈ location.intervals offset, (memory base).Visits interval x

/-- A store ends without a failure. -/
def Accepts (memory : Memory D) (offset : Interval.Ptr false 64) (location : Location) : Prop :=
  (∀ domain, location ≠ .function domain) ∧ ∀ base, location.object = some base →
    ∀ interval ∈ location.intervals offset, (memory base).Accepts interval

end Location

/-- `store`. -/
def PointerDomain.store (fuel : Nat) (value : D) (offset : Interval.Ptr false 64)
    (memory : Memory D) (d : PointerDomain) : Option (Memory D) :=
  if d.isTop then some memory
  else if d.isBottom then some memory
  else d.ptsTo.foldlM (fun memory location => location.store fuel value offset memory) memory

/-- No object is lower than before, and all keep their shape. -/
def MemoryRaised (memory next : Memory D) : Prop :=
  ∀ base, Raised (memory base) (next base)

/-- **Writes one after the other.**  Each of them ends, raises the memory and leaves what it has
done; so all of them do. -/
theorem foldlM_raised {α : Type} (step : Nat → Memory D → α → Option (Memory D))
    (Good Done : Memory D → α → Prop)
    (hstep : ∀ memory x, Good memory x → ∃ fuel next,
      (∀ fuel', fuel ≤ fuel' → step fuel' memory x = some next) ∧
        MemoryRaised memory next ∧ Done next x)
    (hgood : ∀ memory next x, MemoryRaised memory next → Good memory x → Good next x)
    (hdone : ∀ memory next x, MemoryRaised memory next → Done memory x → Done next x)
    (l : List α) (memory : Memory D) (hl : ∀ x ∈ l, Good memory x) :
    ∃ fuel next, (∀ fuel', fuel ≤ fuel' → l.foldlM (step fuel') memory = some next) ∧
      MemoryRaised memory next ∧ ∀ x ∈ l, Done next x := by
  induction l generalizing memory with
  | nil => exact ⟨0, memory, fun _ _ => rfl, fun _ => Raised.refl _, by simp⟩
  | cons x l ih =>
      obtain ⟨fuel, mid, hmid, hraised, hx⟩ := hstep memory x (hl x List.mem_cons_self)
      obtain ⟨fuel', next, hnext, hraised', hrest⟩ := ih mid fun y hy =>
        hgood memory mid y hraised (hl y (List.mem_cons_of_mem x hy))
      refine ⟨max fuel fuel', next, fun fuel'' h => ?_, fun base =>
        (hraised base).trans (hraised' base), fun y hy => ?_⟩
      · rw [List.foldlM_cons, hmid fuel'' ((le_max_left _ _).trans h)]
        exact hnext fuel'' ((le_max_right _ _).trans h)
      · rcases List.mem_cons.mp hy with rfl | hy
        · exact hdone mid next y hraised' hx
        · exact hrest y hy

/-- One write into an object. -/
theorem storeBase_raised (value : D) {base : Nat} {memory : Memory D}
    {interval : Interval.Ptr false 64} (haccepts : (memory base).Accepts interval) :
    ∃ fuel next, (∀ fuel', fuel ≤ fuel' →
        storeBase fuel' value base memory interval = some next) ∧ MemoryRaised memory next ∧
      ∀ x, (next base).Visits interval x → value ≤ (next base).valueAt x := by
  obtain ⟨fuel, next, hstore, hraised, hvalue⟩ := Base.store_raised value haccepts
  refine ⟨fuel, Function.update memory base next, fun fuel' hfuel => ?_, fun other => ?_,
    fun x hx => ?_⟩
  · rw [storeBase, hstore fuel' hfuel, Option.map_some]
  · by_cases heq : other = base
    · subst heq
      rwa [Function.update_self]
    · rw [Function.update_of_ne heq]
      exact Raised.refl _
  · rw [Function.update_self] at hx ⊢
    exact hvalue x ((hraised.visits interval x).mp hx)

/-- What a store through a location leaves. -/
def Stored (value : D) (offset : Interval.Ptr false 64) (memory : Memory D)
    (location : Location) : Prop :=
  ∀ base x, location.Visits memory offset base x → value ≤ (memory base).valueAt x

theorem Stored.raised {value : D} {offset : Interval.Ptr false 64} {memory next : Memory D}
    {location : Location} (hraised : MemoryRaised memory next)
    (hstored : Stored value offset memory location) : Stored value offset next location := by
  rintro base x ⟨hobject, interval, hinterval, hvisits⟩
  exact (hstored base x ⟨hobject, interval, hinterval,
    ((hraised base).visits interval x).mp hvisits⟩).trans ((hraised base).value x)

/-- Writes at several offsets of one object. -/
theorem storeBase_foldlM_raised (value : D) (base : Nat)
    (intervals : List (Interval.Ptr false 64)) (memory : Memory D)
    (haccepts : ∀ interval ∈ intervals, (memory base).Accepts interval) :
    ∃ fuel next, (∀ fuel', fuel ≤ fuel' →
        intervals.foldlM (storeBase fuel' value base) memory = some next) ∧
      MemoryRaised memory next ∧ ∀ interval ∈ intervals, ∀ x,
        (next base).Visits interval x → value ≤ (next base).valueAt x :=
  foldlM_raised (fun fuel => storeBase fuel value base)
    (fun memory interval => (memory base).Accepts interval)
    (fun memory interval => ∀ x,
      (memory base).Visits interval x → value ≤ (memory base).valueAt x)
    (fun _ _ h => storeBase_raised value h)
    (fun _ _ interval hraised h => (hraised base).accepts interval h)
    (fun _ _ interval hraised h x hx =>
      (h x (((hraised base).visits interval x).mp hx)).trans ((hraised base).value x))
    intervals memory haccepts

/-- A store through one location. -/
theorem Location.store_raised (value : D) {offset : Interval.Ptr false 64} {memory : Memory D}
    {location : Location} (haccepts : location.Accepts memory offset) :
    ∃ fuel next, (∀ fuel', fuel ≤ fuel' →
        location.store fuel' value offset memory = some next) ∧
      MemoryRaised memory next ∧ Stored value offset next location := by
  cases location with
  | null =>
      exact ⟨0, memory, fun _ _ => rfl, fun _ => Raised.refl _,
        fun _ _ h => absurd h.1.symm (Option.some_ne_none _)⟩
  | function domain => exact absurd rfl (haccepts.1 domain)
  | array base offset_ =>
      obtain ⟨fuel, next, hstore, hraised, hvalue⟩ := storeBase_raised value
        (haccepts.2 base rfl (plus offset offset_) List.mem_cons_self)
      refine ⟨fuel, next, hstore, hraised, ?_⟩
      rintro base' x ⟨hobject, interval, hinterval, hvisits⟩
      obtain rfl := Option.some.inj hobject
      obtain rfl := List.mem_singleton.mp hinterval
      exact hvalue x hvisits
  | struct base offsets_ =>
      obtain ⟨fuel, next, hstore, hraised, hvalue⟩ := storeBase_foldlM_raised value base
        (offsets_.map fun offset_ => plus offset_ offset) memory (haccepts.2 base rfl)
      refine ⟨fuel, next, hstore, hraised, ?_⟩
      rintro base' x ⟨hobject, interval, hinterval, hvisits⟩
      obtain rfl := Option.some.inj hobject
      exact hvalue interval hinterval x hvisits

/-- A store through a pointer reaches what the store through each of its locations does. -/
theorem PointerDomain.store_raised (value : D) {offset : Interval.Ptr false 64}
    {memory : Memory D} {d : PointerDomain}
    (haccepts : ∀ location ∈ d.ptsTo, location.Accepts memory offset) :
    ∃ fuel next, (∀ fuel', fuel ≤ fuel' → d.store fuel' value offset memory = some next) ∧
      MemoryRaised memory next ∧ ∀ location ∈ d.ptsTo, Stored value offset next location := by
  have hfold := foldlM_raised (fun fuel memory location =>
      Location.store fuel value offset memory location)
    (fun memory location => Location.Accepts memory offset location)
    (fun memory location => Stored value offset memory location)
    (fun _ _ h => Location.store_raised value h)
    (fun _ _ _ hraised h => ⟨h.1, fun base hbase interval hinterval =>
      (hraised base).accepts interval (h.2 base hbase interval hinterval)⟩)
    (fun _ _ _ hraised h => h.raised hraised) d.ptsTo memory haccepts
  obtain ⟨fuel, next, hstore, hnext⟩ := hfold
  refine ⟨fuel, next, fun fuel' hfuel => ?_, hnext⟩
  -- a pointer that is top or bottom has no locations
  have hempty : d.ptsTo = [] → some memory = some next := fun h => by
    rw [← hstore fuel le_rfl, h]
    rfl
  unfold store
  split
  · next htop => exact hempty (ptsTo_of_isTop htop)
  split
  · next hbottom => exact hempty (ptsTo_of_isBottom hbottom)
  · exact hstore fuel' hfuel

/-! ## Stores through a join -/

/-- What an access through this pointer may concern is above the value; a top pointer may point
anywhere. -/
def Reached (value : D) (offset : Interval.Ptr false 64) (memory next : Memory D)
    (d : PointerDomain) : Prop :=
  (d.isTop = true → ∀ base x, value ≤ (next base).valueAt x) ∧
    ∀ location ∈ d.ptsTo, ∀ base x, location.Touched memory offset base x →
      value ≤ (next base).valueAt x

/-- The contents tell the allocations apart, the stores at the merged offsets end, and they go to
all elements that are not above the value before. -/
structure Merges (op : Combination) (value : D) (offset : Interval.Ptr false 64)
    (memory : Memory D) (this other : PointerDomain) : Prop where
  not_top : this.isTop = false
  other_not_top : other.isTop = false
  separate : this.isBottom = false → Separate memory this.ptsTo other.ptsTo
  accepts : ∀ location ∈ merged op this.ptsTo other.ptsTo, location.Accepts memory offset
  covered : ∀ location ∈ this.ptsTo ++ other.ptsTo, ∀ base x,
    location.Touched memory offset base x → value ≤ (memory base).valueAt x ∨
      ∃ m ∈ merged op this.ptsTo other.ptsTo, m.Visits memory offset base x

/-- **A store through a joined or widened pointer reaches every target** of the two, when contents
tell the allocations apart and the accesses at the merged offsets cover the elements. -/
theorem combineWith_store_reaches {op : Combination} {value : D} {offset : Interval.Ptr false 64}
    {memory : Memory D} {this other : PointerDomain} (hthis : this.Distinct)
    (hother : other.Distinct) (hmerges : Merges op value offset memory this other) :
    ∃ fuel next, (this.combineWith op memory other).store fuel value offset memory = some next ∧
      Reached value offset memory next this ∧ Reached value offset memory next other := by
  have hlocations : ∀ location, location ∈ (this.combineWith op memory other).ptsTo ↔
      location ∈ merged op this.ptsTo other.ptsTo :=
    PointerDomain.mem_combineWith hthis hother hmerges.not_top hmerges.other_not_top
      hmerges.separate
  obtain ⟨fuel, next, hstore, hraised, hstored⟩ := PointerDomain.store_raised value
    fun location hlocation => hmerges.accepts location ((hlocations location).mp hlocation)
  have hreached : ∀ location ∈ this.ptsTo ++ other.ptsTo, ∀ base x,
      location.Touched memory offset base x → value ≤ (next base).valueAt x := by
    intro location hlocation base x htouched
    rcases hmerges.covered location hlocation base x htouched with hold | ⟨m, hm, hvisits⟩
    · exact hold.trans ((hraised base).value x)
    · obtain ⟨hobject, interval, hinterval, hx⟩ := hvisits
      exact hstored m ((hlocations m).mpr hm) base x
        ⟨hobject, interval, hinterval, ((hraised base).visits interval x).mpr hx⟩
  refine ⟨fuel, next, hstore fuel le_rfl, ⟨fun htop => ?_, fun location hlocation => ?_⟩,
    ⟨fun htop => ?_, fun location hlocation => ?_⟩⟩
  · exact absurd (hmerges.not_top.symm.trans htop) Bool.false_ne_true
  · exact hreached location (List.mem_append_left _ hlocation)
  · exact absurd (hmerges.other_not_top.symm.trans htop) Bool.false_ne_true
  · exact hreached location (List.mem_append_right _ hlocation)

/-- Arrays that hold one element, the first of four and the others of `length`. -/
def arrays (length : Nat) : Memory Bool := fun base =>
  .array ⟨if base = 0 then between 4 4 else between length length,
    AList.insert (indexAt 2) false ∅⟩

/-- A pointer to the third element of an array. -/
def third (base : Nat) : PointerDomain :=
  ⟨false, [.array base (between 2 2)]⟩

theorem plus_third : plus (between 0 0) (between 2 2) = between 2 2 :=
  Interval.ext_bounds (by decide) (by decide)

/-- The third element is the only one that a store at the third index concerns. -/
theorem visits_third {location : Location} {k base : Nat} (hk : k = 0 ∨ k = 1)
    (hlocation : location = .array k (between 2 2)) {x : Index}
    (htouched : location.Touched (arrays 8) (between 0 0) base x) :
    location.Visits (arrays 8) (between 0 0) base x := by
  subst hlocation
  obtain ⟨hobject, interval, hinterval, hx⟩ := htouched
  obtain rfl := Option.some.inj hobject
  refine ⟨rfl, interval, hinterval, ?_⟩
  obtain rfl := List.mem_singleton.mp hinterval
  rw [plus_third] at hx ⊢
  have hpos : Index.pos x = 2 := by
    have h := hx.1.2
    rw [Interval.contains, Bool.and_eq_true] at h
    exact Nat.le_antisymm (leq_iff.mp h.2) (leq_iff.mp h.1)
  have hlimit : ∀ n, n = 4 ∨ n = 8 → accessLimit (between n n) (between 2 2) = some 3 := by
    rintro n (rfl | rfl) <;> decide
  rcases hk with rfl | rfl
  · refine ⟨rfl, hpos.ge, fun m hm => ?_⟩
    obtain rfl := Option.some.inj (hm.symm.trans (hlimit 4 (Or.inl rfl)))
    omega
  · refine ⟨rfl, hpos.ge, fun m hm => ?_⟩
    obtain rfl := Option.some.inj (hm.symm.trans (hlimit 8 (Or.inr rfl)))
    omega

/-- Two arrays of different lengths, and a store through the join of their pointers. -/
theorem combineWith_store_reaches_third :
    ∃ fuel next, ((third 0).combineWith .join (arrays 8) (third 1)).store fuel true (between 0 0)
        (arrays 8) = some next ∧
      Reached true (between 0 0) (arrays 8) next (third 0) ∧
      Reached true (between 0 0) (arrays 8) next (third 1) := by
  refine combineWith_store_reaches (List.nodup_singleton _) (List.nodup_singleton _)
    ⟨rfl, rfl, fun _ => ?_, ?_, ?_⟩
  · intro location hlocation m hm hsame
    obtain rfl := List.mem_singleton.mp hlocation
    rcases List.mem_pair.mp hm with rfl | rfl
    · exact absurd hsame (by decide)
    · rfl
  · intro location hlocation
    rcases List.mem_pair.mp hlocation with rfl | rfl
    all_goals
      refine ⟨fun _ h => Location.noConfusion h, fun base hbase _ _ => ?_⟩
      obtain rfl := Option.some.inj hbase
      exact Or.inr (Or.inr (Or.inl rfl))
  · intro location hlocation base x htouched
    refine Or.inr ⟨location, ?_, ?_⟩
    · exact hlocation
    · rcases List.mem_pair.mp hlocation with rfl | rfl
      · exact visits_third (Or.inl rfl) rfl htouched
      · exact visits_third (Or.inr rfl) rfl htouched

/-- **Two arrays of equal contents are merged**, and a store goes to the first one only. -/
theorem combineWith_store_misses :
    ¬ ∀ (memory : Memory Bool) (this other : PointerDomain) (value : Bool)
      (offset : Interval.Ptr false 64), this.Distinct → other.Distinct →
      ∃ fuel next, (this.combineWith .join memory other).store fuel value offset memory =
          some next ∧
        Reached value offset memory next this ∧ Reached value offset memory next other := by
  intro hclaim
  obtain ⟨fuel, next, hstore, -, -, hother⟩ := hclaim (arrays 4) (third 0) (third 1) true
    (between 0 0) (List.nodup_singleton _) (List.nodup_singleton _)
  have hjoined : (third 0).combineWith .join (arrays 4) (third 1) = third 0 := by
    rfl
  rw [hjoined] at hstore
  have hnext : next 1 = arrays 4 1 := by
    have hwrite : storeBase fuel true 0 (arrays 4) (plus (between 0 0) (between 2 2)) =
        some next := by
      simpa [PointerDomain.store, third, PointerDomain.isTop, PointerDomain.isBottom,
        Location.store] using hstore
    obtain ⟨base, -, rfl⟩ := Option.map_eq_some_iff.mp hwrite
    exact Function.update_of_ne (by decide) _ _
  have hvalue := hother _ List.mem_cons_self 1 (indexAt 2)
    ⟨rfl, plus (between 0 0) (between 2 2), List.mem_cons_self,
      ⟨by decide, indexAt 4, by decide, by decide⟩⟩
  rw [hnext] at hvalue
  exact absurd hvalue (by decide)

end PointerJoin

end Contents

end Borealis
