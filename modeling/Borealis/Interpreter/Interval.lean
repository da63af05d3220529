import Borealis.Interpreter.Bound
import Borealis.Term.Term

/-!
# The interval domain

`Interval<Number>` of `Interpreter/Domain/Numerical/Interval.hpp` over machine integers of one
width and signedness.  The constructors compute the flags `isBottom` and `isTop` in different
ways; every interval the domain hands out comes from the cache, which builds it from its bounds,
and `Interval.Ptr` is the type of these.  The arithmetic operators build intermediate intervals,
which `apply` clones into the cache.

An operator returns `none` where the source fails an assertion.
-/

namespace Borealis

/-- `Interval<BitInt<sign>>`. -/
structure Interval (sign : Bool) (width : Nat) where
  lb : Bound sign width
  ub : Bound sign width
  isBottom : Bool
  isTop : Bool
deriving DecidableEq, Repr

namespace Interval

variable {sign : Bool} {width : Nat}

/-! ## Constructors -/

/-- `Interval(const BoundT& from, const BoundT& to)`. -/
def ofBounds (lb ub : Bound sign width) : Interval sign width :=
  { lb, ub, isBottom := lb.gt ub, isTop := lb == .minusInfinity && ub == .plusInfinity }

/-- `Interval(const Number& n, caster)`. -/
def ofNumber (n : BitInt sign width) : Interval sign width :=
  { lb := .finite n, ub := .finite n, isBottom := false, isTop := false }

/-- `Interval(int n, caster)`. -/
def ofInt (n : ℤ) : Interval sign width :=
  ofNumber (BitInt.ofInt n)

/-- `getTop`. -/
def getTop : Interval sign width :=
  { lb := .minusInfinity, ub := .plusInfinity, isBottom := false, isTop := true }

/-- `getBottom`. -/
def getBottom : Interval sign width :=
  { lb := .ofInt 1, ub := .ofInt 0, isBottom := true, isTop := false }

/-- The intervals of the cache: the flags are the ones computed from the bounds. -/
structure Ptr (sign : Bool) (width : Nat) extends Interval sign width where
  flags : toInterval = ofBounds lb ub

/-- `interval`, the cache. -/
def interval (lb ub : Bound sign width) : Ptr sign width :=
  { ofBounds lb ub with flags := rfl }

@[simp] theorem interval_toInterval (lb ub : Bound sign width) :
    (interval lb ub).toInterval = ofBounds lb ub := rfl

@[simp] theorem ofBounds_lb (lb ub : Bound sign width) : (ofBounds lb ub).lb = lb := rfl

@[simp] theorem ofBounds_ub (lb ub : Bound sign width) : (ofBounds lb ub).ub = ub := rfl

theorem eq_interval (a : Ptr sign width) : a = interval a.lb a.ub := by
  cases a with
  | mk i hflags =>
      simp only [interval]
      congr 1

/-- `clone`. -/
def clone (i : Interval sign width) : Ptr sign width :=
  interval i.lb i.ub

/-- `top`. -/
def top : Ptr sign width :=
  interval .minusInfinity .plusInfinity

/-- `bottom`. -/
def bottom : Ptr sign width :=
  interval (.ofInt 1) (.ofInt 0)

/-! ## Queries -/

/-- `isConstant()`. -/
def isConstant (i : Interval sign width) : Bool :=
  i.lb == i.ub

/-- `isConstant(n)`. -/
def isConstantInt (i : Interval sign width) (n : ℤ) : Bool :=
  i.lb == .ofInt n && i.ub == .ofInt n

/-- `isZero`. -/
def isZero (i : Interval sign width) : Bool :=
  i.isConstantInt 0

/-- `asConstant`, of a constant interval. -/
def asConstant (i : Interval sign width) : BitInt sign width :=
  i.lb.number

/-- `contains(const Number& n)`. -/
def contains (i : Interval sign width) (n : BitInt sign width) : Bool :=
  i.lb.leq (.finite n) && (Bound.finite n).leq i.ub

/-- The machine integers of an interval. -/
instance : Membership (BitInt sign width) (Interval sign width) :=
  ⟨fun i n => i.isBottom = false ∧ i.contains n = true⟩

instance : Membership (BitInt sign width) (Ptr sign width) :=
  ⟨fun i n => n ∈ i.toInterval⟩

instance (n : BitInt sign width) (i : Interval sign width) : Decidable (n ∈ i) :=
  inferInstanceAs (Decidable (i.isBottom = false ∧ i.contains n = true))

instance (n : BitInt sign width) (i : Ptr sign width) : Decidable (n ∈ i) :=
  inferInstanceAs (Decidable (n ∈ i.toInterval))

/-- `meet`. -/
def meet (this other : Interval sign width) : Ptr sign width :=
  if this.isBottom || other.isBottom then bottom
  else interval (this.lb.max other.lb) (this.ub.min other.ub)

/-! ## Arithmetic -/

/-- `operator+`. -/
def add (lhv rhv : Interval sign width) : Interval sign width :=
  if lhv.isBottom || rhv.isBottom then getBottom
  else ofBounds (lhv.lb + rhv.lb) (lhv.ub + rhv.ub)

/-- `operator-`. -/
def sub (lhv rhv : Interval sign width) : Interval sign width :=
  if lhv.isBottom || rhv.isBottom then getBottom
  else ofBounds (lhv.lb - rhv.ub) (lhv.ub - rhv.lb)

/-- `operator*`. -/
def mul (lhv rhv : Interval sign width) : Interval sign width :=
  if lhv.isBottom || rhv.isBottom then getBottom
  else
    let ll := lhv.lb * rhv.lb
    let ul := lhv.ub * rhv.lb
    let lu := lhv.lb * rhv.ub
    let uu := lhv.ub * rhv.ub
    ofBounds (Bound.min₄ ll ul lu uu) (Bound.max₄ ll ul lu uu)

/-- `operator/`. -/
def div (lhv rhv : Interval sign width) : Option (Interval sign width) := do
  if lhv.isBottom || rhv.isBottom then return getBottom
  if rhv.contains (BitInt.ofInt 0) then return getTop
  if lhv.contains (BitInt.ofInt 0) then return getTop
  let ll ← lhv.lb.div rhv.lb
  let ul ← lhv.ub.div rhv.lb
  let lu ← lhv.lb.div rhv.ub
  let uu ← lhv.ub.div rhv.ub
  return ofBounds (Bound.min₄ ll ul lu uu) (Bound.max₄ ll ul lu uu)

/-- `operator%`. -/
def rem (lhv rhv : Interval sign width) : Option (Interval sign width) := do
  if lhv.isBottom || rhv.isBottom then return getBottom
  if rhv.isZero then return getBottom
  if lhv.isConstant && rhv.isConstant then
    let r ← lhv.asConstant.rem rhv.asConstant
    return ofNumber r
  let zero := Bound.ofInt 0
  let nub := lhv.lb.abs.max lhv.ub.abs
  let dub := rhv.lb.abs.max rhv.ub.abs - .ofInt 1
  let ub := nub.min dub
  if lhv.lb.lt zero then
    if lhv.ub.gt zero then return ofBounds (-ub) ub
    else return ofBounds (-ub) zero
  else return ofBounds zero ub

/-- The shifts an interval operator uses: the non-negative part of `rhv`. -/
def shift (rhv : Interval sign width) : Interval sign width :=
  (rhv.meet (interval (.ofInt 0) .plusInfinity).toInterval).toInterval

/-- `operator<<`. -/
def shl (lhv rhv : Interval sign width) : Option (Interval sign width) := do
  if lhv.isBottom || rhv.isBottom then return getBottom
  if rhv.shift.isBottom then return getBottom
  let lower ← (Bound.ofInt 1).shl rhv.shift.lb
  let upper ←
    if rhv.shift.ub.isFinite then (Bound.ofInt 1).shl rhv.shift.ub else pure .plusInfinity
  return lhv.mul (ofBounds lower upper)

/-- `operator>>` and `lshr`: both shift the bounds of `lhv`, with `op`, by the bounds of the
shift. -/
def shiftRight (op : Bound sign width → Bound sign width → Option (Bound sign width))
    (lhv rhv : Interval sign width) : Option (Interval sign width) := do
  if lhv.isBottom || rhv.isBottom then return getBottom
  if rhv.shift.isBottom then return getBottom
  if lhv.contains (BitInt.ofInt 0) then return getTop
  let ll ← op lhv.lb rhv.shift.lb
  let lu ← op lhv.lb rhv.shift.ub
  let ul ← op lhv.ub rhv.shift.lb
  let uu ← op lhv.ub rhv.shift.ub
  return ofBounds (Bound.min₄ ll lu ul uu) (Bound.max₄ ll lu ul uu)

/-- `operator>>`. -/
def ashr (lhv rhv : Interval sign width) : Option (Interval sign width) :=
  shiftRight Bound.ashr lhv rhv

/-- `lshr`. -/
def lshr (lhv rhv : Interval sign width) : Option (Interval sign width) :=
  shiftRight Bound.lshr lhv rhv

/-- `operator&`.  The third comparison with zero repeats the second. -/
def band (lhv rhv : Interval sign width) : Interval sign width :=
  if lhv.isBottom || rhv.isBottom then getBottom
  else if lhv.isConstant && rhv.isConstant then ofNumber (lhv.asConstant &&& rhv.asConstant)
  else if lhv.isZero || rhv.isZero then ofInt 0
  else if lhv.isConstantInt (-1) then rhv
  else if rhv.isConstantInt (-1) then lhv
  else if lhv.lb.geq (.ofInt 0) && rhv.lb.geq (.ofInt 0) then
    ofBounds (.ofInt 0) (lhv.ub.min rhv.ub)
  else if lhv.lb.geq (.ofInt 0) then ofBounds (.ofInt 0) lhv.ub
  else if lhv.lb.geq (.ofInt 0) then ofBounds (.ofInt 0) rhv.ub
  else getTop

/-- `operator|`. -/
def bor (lhv rhv : Interval sign width) : Interval sign width :=
  if lhv.isBottom || rhv.isBottom then getBottom
  else if lhv.isConstant && rhv.isConstant then ofNumber (lhv.asConstant ||| rhv.asConstant)
  else if lhv.isConstantInt (-1) || rhv.isConstantInt (-1) then ofInt (-1)
  else if rhv.isZero then lhv
  else if lhv.isZero then rhv
  else getTop

/-- `operator^`. -/
def xor (lhv rhv : Interval sign width) : Interval sign width :=
  if lhv.isBottom || rhv.isBottom then getBottom
  else if lhv.isConstant && rhv.isConstant then ofNumber (lhv.asConstant ^^^ rhv.asConstant)
  else if rhv.isZero then lhv
  else if lhv.isZero then rhv
  else getTop

/-- `apply(llvm::ArithType, ConstPtr)`. -/
def apply (opcode : ArithType) (this other : Ptr sign width) : Option (Ptr sign width) :=
  match opcode with
  | .add => some (clone (this.add other.toInterval))
  | .sub => some (clone (this.sub other.toInterval))
  | .mul => some (clone (this.mul other.toInterval))
  | .div => (this.div other.toInterval).map clone
  | .rem => (this.rem other.toInterval).map clone
  | .shl => (this.shl other.toInterval).map clone
  | .ashr => (this.ashr other.toInterval).map clone
  | .lshr => (this.lshr other.toInterval).map clone
  | .band => some (clone (this.band other.toInterval))
  | .land => some (clone (this.band other.toInterval))
  | .bor => some (clone (this.bor other.toInterval))
  | .lor => some (clone (this.bor other.toInterval))
  | .xor => some (clone (this.xor other.toInterval))
  | .implies => some top

end Interval

end Borealis
