import Borealis.Interpreter.PointsTo

/-!
# Calls of declared functions

`Interpreter::handleDeclaration`, with the descriptions of `FuncInfoProvider` and the assignment
of the result in `visitCallInst`.

A described function assigns a new top pointer to each written argument, and a new bottom pointer
to each deleted one: only the variable that is the argument changes, not the memory it points to
and not the other pointers to that memory.  An unknown function tops the pointer objects of its
arguments, and so what shares these objects.  A description has one entry for each parameter and
one more for all the extra arguments of a variadic function, and is read at the index of the
argument.

## Strategy

`describedArguments_get` and `unknownArguments_get` say what each variable is bound to
afterwards, and that the step tops some objects (`State.Tops`); `Loaded.Lifted.full_iff` then says
which loads give everything.
-/

namespace Borealis.PointsTo

/-! ## Descriptions -/

/-- `func_info::AccessPatternTag`. -/
inductive AccessPatternTag
  | read
  | write
  | readWrite
  | delete
  | none
deriving DecidableEq, Repr

/-- `func_info::ArgInfo`. -/
structure ArgInfo where
  access : AccessPatternTag := .none
deriving DecidableEq, Repr

/-- `func_info::FuncInfo`. -/
structure FuncInfo where
  id : String
  argInfo : List ArgInfo
deriving DecidableEq, Repr

/-- A declared function. -/
structure Function where
  name : String
  argSize : Nat
  isVarArg : Bool
deriving DecidableEq, Repr

/-- `resize` of the descriptions to the parameters: one more when the function is variadic. -/
def Function.resize (f : Function) (argInfo : List ArgInfo) : List ArgInfo :=
  let size := if f.isVarArg then f.argSize + 1 else f.argSize
  argInfo.take size ++ List.replicate (size - argInfo.length) ⟨.none⟩

/-- `FuncInfoProvider::runOnModule`: the descriptions of the functions of the module.  `libName`
is the name the target gives to a library function. -/
def runOnModule (libName : String → String) (getFunction : String → Option Function)
    (descriptions : List FuncInfo) : String → Option FuncInfo :=
  descriptions.foldl (fun functions opt =>
    match getFunction (libName opt.id) with
    | some func => Function.update functions (libName opt.id)
        (some { opt with argInfo := func.resize opt.argInfo })
    | none => functions) fun _ => none

/-- The declarations of the module, the files that describe them, and the pointee types. -/
structure Module where
  getFunction : String → Option Function
  libName : String → String
  descriptions : List FuncInfo
  pointee : Variable → PointeeType

/-- `getInfo`; `none` where the source throws `std::out_of_range`. -/
def Module.getInfo (m : Module) (f : Function) : Option FuncInfo :=
  runOnModule m.libName m.getFunction m.descriptions f.name

/-! ## The call -/

/-- An argument of a call: a pointer, or a value of another type. -/
inductive Argument
  | pointer (x : Variable)
  | other
deriving DecidableEq, Repr

/-- A call of a declared function of the module, with the arguments its type asks for; `result` is
the variable of the call when its type is a pointer type. -/
structure Call (m : Module) where
  function : Function
  declared : m.getFunction function.name = some function
  args : List Argument
  result : Option Nat
  arity : if function.isVarArg then function.argSize ≤ args.length
    else function.argSize = args.length

/-- What `handleDeclaration` assigns to an argument with this access. -/
def AccessPatternTag.assigned : AccessPatternTag → Option PointerDomain
  | .write => some .top
  | .readWrite => some .top
  | .delete => some .bottom
  | .read => Option.none
  | .none => Option.none

variable {D V : Type} [NumberDomain D V]

/-- The effect of one described argument. -/
def State.assignAccess (state : State D) (x : Variable) (access : AccessPatternTag) : State D :=
  match access.assigned with
  | some domain => state.assign x domain
  | none => state

/-- The loop over the arguments of a described function, from index `j`; `none` where it reads an
entry past the end of `argInfo`. -/
def describedArguments (argInfo : List ArgInfo) : Nat → List Argument → State D →
    Option (State D)
  | _, [], state => some state
  | j, .other :: args, state => describedArguments argInfo (j + 1) args state
  | j, .pointer x :: args, state =>
      match argInfo[j]? with
      | none => none
      | some info => describedArguments argInfo (j + 1) args (state.assignAccess x info.access)

/-- The loop over the arguments of an unknown function. -/
def unknownArguments : List Argument → State D → State D
  | [], state => state
  | .other :: args, state => unknownArguments args state
  | .pointer x :: args, state => unknownArguments args (state.setTop x)

/-- The functions that are skipped. -/
def Function.isDebug (f : Function) : Bool :=
  f.name.startsWith "llvm.dbg."

section

variable {m : Module} (call : Call m)

/-- `top(function->getReturnType())`, of a function that returns a pointer. -/
def Call.returned : Option PointerDomain :=
  call.result.map fun _ => .top

/-- `handleDeclaration`: the state after the call and the value of the call. -/
def handleDeclaration (state : State D) : Option (State D × Option PointerDomain) :=
  match m.getInfo call.function with
  | some info =>
      (describedArguments info.argInfo 0 call.args state).map fun after => (after, call.returned)
  | none =>
      if call.function.isDebug then some (state, none)
      else some (unknownArguments call.args state, call.returned)

/-- `visitCallInst`, of a call of a declared function. -/
def visitCallInst (state : State D) : Option (State D) :=
  match handleDeclaration call state with
  | none => none
  | some (after, retval) =>
      match retval, call.result with
      | some domain, some id => some (after.assign (.temporary id) domain)
      | _, _ => some after

/-! ## What the call should forget -/

/-- The arguments the function may write to: those described as written, or all of them. -/
def Call.Written (j : Nat) (x : Variable) : Prop :=
  call.args[j]? = some (.pointer x) ∧
    match m.getInfo call.function with
    | some info => ∃ access, (info.argInfo[j]?).map ArgInfo.access = some access ∧
        (access = .write ∨ access = .readWrite)
    | none => True

end

/-- A pointer kept in the memory of a base. -/
inductive State.Holds (state : State D) (base : Nat) : PointerDomain → Prop
  | cell {object : Nat} (hrefers : (state.aggregates base).Refers object) :
      Holds state base (state.pointers object)
  | unknown {elementType : PointeeType} (htop : state.aggregates base = .arrayTop elementType)
      (helement : elementType ≠ .number) : Holds state base .top

/-- An array or structure inside another. -/
def Aggregate.Contains (base : Nat) : Aggregate D → Prop
  | .array _ _ elements => ∃ i, elements i = some (.aggregate base)
  | .struct elements => .aggregate base ∈ elements
  | .arrayTop _ => False
  | .arrayBottom _ => False

/-- The memory that can be reached from a pointer. -/
inductive State.Reaches (state : State D) (domain : PointerDomain) : Nat → Prop
  | pointsTo {base : Nat} (hpoints : domain.MayPointTo base) : Reaches state domain base
  | holds {base base' : Nat} {inner : PointerDomain} (hreaches : Reaches state domain base)
      (hholds : state.Holds base inner) (hpoints : inner.MayPointTo base') :
      Reaches state domain base'
  | inside {base base' : Nat} (hreaches : Reaches state domain base)
      (hcontains : (state.aggregates base).Contains base') : Reaches state domain base'

section

variable {m : Module} (call : Call m) (equals : Comparison D) (state : State D)

/-- The memory the function may have written to. -/
def Call.MayWrite (base : Nat) : Prop :=
  ∃ j x, call.Written j x ∧ state.Reaches (state.get x) base

/-- **The call forgets what the function may change**: it reads no description that does not
exist, and afterwards a load through any pointer to the memory gives everything. -/
def Call.Forgets : Prop :=
  ∃ after, visitCallInst call state = some after ∧
    ∀ x base, m.pointee x ≠ .aggregate → (state.get x).MayPointTo base →
      call.MayWrite state base → (after.loadFrom equals (m.pointee x) x).Full

/-! ## When it does -/

/-- Every pointer argument of a described function has a description: an extra argument of a
variadic function has none, the first one apart. -/
def Call.Described : Prop :=
  (m.getInfo call.function).isSome → call.function.isVarArg = true →
    ∀ j x, call.args[j]? = some (.pointer x) → j ≤ call.function.argSize

/-- What the loop over the arguments assigns last to a variable. -/
def lastAssigned (argInfo : List ArgInfo) (x : Variable) : Nat → List Argument →
    Option PointerDomain
  | _, [] => none
  | j, arg :: args =>
      match lastAssigned argInfo x (j + 1) args with
      | some domain => some domain
      | none => if arg = .pointer x then (argInfo[j]?).bind fun info => info.access.assigned
          else none

/-- What a described function leaves the variable: a global or a constant is not looked up in the
environment, so assigning to it changes nothing. -/
def Call.assigned (info : FuncInfo) : Variable → Option PointerDomain
  | .temporary id => lastAssigned info.argInfo (.temporary id) 0 call.args
  | .global _ => none
  | .constant _ => none

/-- The pointer object is the one an argument is bound to. -/
def Call.Tops (object : Nat) : Prop :=
  ∃ x, .pointer x ∈ call.args ∧ state.object x = some object

/-- The object that the domain of a variable comes from. -/
def State.source : Variable → Option Nat
  | .global id => some (state.globals id)
  | .constant id =>
      match state.constants id with
      | .fixed _ => none
      | .gep global _ => some (state.globals global)
  | .temporary id => some (state.env (.temporary id))

/-- The call leaves the variable so that a load gives everything: the variable is its result, or
is last assigned top, or keeps a domain whose loads give everything; with an unknown function, or
it shares its pointer object with an argument, or the load joins such an object. -/
def Call.Covers (x : Variable) : Prop :=
  match m.getInfo call.function with
  | some info =>
      (∃ id, call.result = some id ∧ x = .temporary id) ∨
        match call.assigned info x with
        | some domain => domain.isTop = true
        | none => (state.loadFrom equals (m.pointee x) x).Full
  | none =>
      if call.function.isDebug then (state.loadFrom equals (m.pointee x) x).Full
      else
        (∃ id, call.result = some id ∧ x = .temporary id) ∨
          (∃ object, state.source x = some object ∧ call.Tops state object) ∨
          (state.loadFrom equals (m.pointee x) x).Full ∨
          ((state.loadFrom equals (m.pointee x) x).IsPointer ∧
            ∃ object, call.Tops state object ∧ state.Reads (state.get x) object)

end

/-! ## Descriptions exist -/

theorem Function.length_resize (f : Function) (argInfo : List ArgInfo) :
    (f.resize argInfo).length = if f.isVarArg then f.argSize + 1 else f.argSize := by
  unfold Function.resize
  simp only [List.length_append, List.length_take, List.length_replicate]
  omega

/-- A description in use has been resized to the parameters of its function. -/
theorem runOnModule_length {libName : String → String} {getFunction : String → Option Function}
    (descriptions : List FuncInfo) {name : String} {f : Function} {info : FuncInfo}
    (hf : getFunction name = some f)
    (hinfo : runOnModule libName getFunction descriptions name = some info) :
    info.argInfo.length = if f.isVarArg then f.argSize + 1 else f.argSize := by
  -- holds of every entry while the files are read
  have hstep : ∀ functions : String → Option FuncInfo,
      (∀ info, functions name = some info →
        info.argInfo.length = if f.isVarArg then f.argSize + 1 else f.argSize) →
      ∀ info, descriptions.foldl (fun functions opt =>
        match getFunction (libName opt.id) with
        | some func => Function.update functions (libName opt.id)
            (some { opt with argInfo := func.resize opt.argInfo })
        | none => functions) functions name = some info →
        info.argInfo.length = if f.isVarArg then f.argSize + 1 else f.argSize := by
    clear hinfo info
    induction descriptions with
    | nil => exact fun functions hfunctions info hinfo => hfunctions info hinfo
    | cons opt descriptions ih =>
        intro functions hfunctions info hinfo
        refine ih _ ?_ info hinfo
        intro entry hentry
        cases hfunc : getFunction (libName opt.id) with
        | none =>
            simp only [hfunc] at hentry
            exact hfunctions entry hentry
        | some func =>
            simp only [hfunc] at hentry
            rcases eq_or_ne name (libName opt.id) with rfl | hne
            · obtain rfl : f = func := Option.some_injective _ (hf.symm.trans hfunc)
              rw [Function.update_self, Option.some.injEq] at hentry
              rw [← hentry]
              exact f.length_resize opt.argInfo
            · rw [Function.update_of_ne hne] at hentry
              exact hfunctions entry hentry
  exact hstep (fun _ => none) (fun _ h => by simp at h) info hinfo

/-- The loop over the arguments stays within the descriptions. -/
theorem describedArguments_isSome_iff (argInfo : List ArgInfo) (args : List Argument) (j : Nat)
    (state : State D) :
    (describedArguments argInfo j args state).isSome ↔
      ∀ i x, args[i]? = some (.pointer x) → j + i < argInfo.length := by
  induction args generalizing j state with
  | nil => simp [describedArguments]
  | cons arg args ih =>
      have hshift : (∀ i x, args[i]? = some (.pointer x) → j + 1 + i < argInfo.length) ↔
          ∀ i x, (arg :: args)[i + 1]? = some (.pointer x) → j + (i + 1) < argInfo.length := by
        simp only [List.getElem?_cons_succ]
        refine forall_congr' fun i => forall_congr' fun x => imp_congr_right fun _ => ?_
        rw [Nat.add_assoc, Nat.add_comm 1 i]
      have hsplit : (∀ i x, (arg :: args)[i]? = some (.pointer x) → j + i < argInfo.length) ↔
          (∀ x, arg = .pointer x → j < argInfo.length) ∧
            ∀ i x, (arg :: args)[i + 1]? = some (.pointer x) → j + (i + 1) < argInfo.length := by
        constructor
        · intro h
          exact ⟨fun x hx => h 0 x (by simp [hx]), fun i x hx => h (i + 1) x hx⟩
        · rintro ⟨hzero, hsucc⟩ i x hx
          cases i with
          | zero => exact hzero x (by simpa using hx)
          | succ i => exact hsucc i x hx
      rw [hsplit, ← hshift]
      cases arg with
      | other => simp [describedArguments, ih]
      | pointer x =>
          unfold describedArguments
          cases hinfo : argInfo[j]? with
          | none =>
              have hlength : argInfo.length ≤ j := List.getElem?_eq_none_iff.mp hinfo
              simp [hlength]
          | some info =>
              obtain ⟨hlength, -⟩ := List.getElem?_eq_some_iff.mp hinfo
              simp [ih, hlength]

/-! ## What the variables are bound to -/

namespace State.Tops

variable {T U : Nat → Prop} {first second third : State D}

theorem refl (state : State D) : State.Tops (fun _ => False) state state where
  aggregates := rfl
  globals := rfl
  constants := rfl
  next_le := le_rfl
  top _ _ h := h.elim
  same _ _ _ := rfl

theorem trans (hfirst : State.Tops T first second) (hsecond : State.Tops U second third) :
    State.Tops (fun object => T object ∨ U object) first third where
  aggregates := hsecond.aggregates.trans hfirst.aggregates
  globals := hsecond.globals.trans hfirst.globals
  constants := hsecond.constants.trans hfirst.constants
  next_le := hfirst.next_le.trans hsecond.next_le
  top object hlt htopped := by
    have hlt' := hlt.trans_le hfirst.next_le
    by_cases hU : U object
    · exact hsecond.top object hlt' hU
    · rw [hsecond.same object hlt' hU]
      exact hfirst.top object hlt (htopped.resolve_right hU)
  same object hlt htopped := by
    rw [not_or] at htopped
    rw [hsecond.same object (hlt.trans_le hfirst.next_le) htopped.2,
      hfirst.same object hlt htopped.1]

theorem of_iff (htops : State.Tops T first second) (hiff : ∀ object, T object ↔ U object) :
    State.Tops U first second := by
  rwa [← funext fun object => propext (hiff object)]

theorem assign (state : State D) (x : Variable) (domain : PointerDomain) :
    State.Tops (fun _ => False) state (state.assign x domain) where
  aggregates := rfl
  globals := rfl
  constants := rfl
  next_le := Nat.le_succ _
  top _ _ h := h.elim
  same _ hlt _ := Function.update_of_ne hlt.ne _ _

theorem assignAccess (state : State D) (x : Variable) (access : AccessPatternTag) :
    State.Tops (fun _ => False) state (state.assignAccess x access) := by
  unfold State.assignAccess
  split
  · exact assign state x _
  · exact refl state

theorem setTop (state : State D) (x : Variable) :
    State.Tops (fun object => state.object x = some object) state (state.setTop x) where
  aggregates := rfl
  globals := rfl
  constants := rfl
  next_le := le_rfl
  top _ _ h := if_pos h
  same _ _ h := if_neg h

/-- A variable that is not rebound is top when its object has been topped, and unchanged
otherwise. -/
theorem get_eq (htops : State.Tops T first second) {x : Variable}
    (henv : ∀ id, x = .temporary id → second.env x = first.env x) :
    (∀ object, first.source x = some object → T object → second.get x = .top) ∧
      ((∀ object, first.source x = some object → ¬ T object) → second.get x = first.get x) := by
  cases x with
  | global id =>
      have hlt := first.globals_lt id
      simp only [State.source, State.get, htops.globals, Option.some.injEq]
      constructor
      · rintro object rfl htopped
        exact htops.top _ hlt htopped
      · intro hnot
        exact htops.same _ hlt (hnot _ rfl)
  | temporary id =>
      have hlt := first.env_lt (.temporary id)
      simp only [State.source, State.get, henv id rfl, Option.some.injEq]
      constructor
      · rintro object rfl htopped
        exact htops.top _ hlt htopped
      · intro hnot
        exact htops.same _ hlt (hnot _ rfl)
  | constant id =>
      simp only [State.source, State.get, htops.constants]
      cases first.constants id with
      | fixed domain => simp [State.constant]
      | gep global address =>
          have hlt := first.globals_lt global
          simp only [State.constant, htops.globals, Option.some.injEq]
          constructor
          · rintro object rfl htopped
            rw [htops.top _ hlt htopped, if_pos PointerDomain.isTop_top]
          · intro hnot
            rw [htops.same _ hlt (hnot _ rfl)]

end State.Tops

theorem State.get_assign_self (state : State D) (id : Nat) (domain : PointerDomain) :
    (state.assign (.temporary id) domain).get (.temporary id) = domain := by
  simp [State.get, State.assign]

/-- **The arguments of a described function.**  No object changes; an argument holds what was
assigned to it last. -/
theorem describedArguments_spec (argInfo : List ArgInfo) (args : List Argument) {j : Nat}
    {state after : State D} (hafter : describedArguments argInfo j args state = some after) :
    State.Tops (fun _ => False) state after ∧
      ∀ id, match lastAssigned argInfo (.temporary id) j args with
        | some domain => after.get (.temporary id) = domain
        | none => after.env (.temporary id) = state.env (.temporary id) := by
  induction args generalizing j state with
  | nil =>
      obtain rfl : state = after := by simpa [describedArguments] using hafter
      exact ⟨.refl state, fun id => rfl⟩
  | cons arg args ih =>
      cases arg with
      | other =>
          obtain ⟨htops, hlast⟩ := ih hafter
          refine ⟨htops, fun id => ?_⟩
          have hid := hlast id
          unfold lastAssigned
          cases hrest : lastAssigned argInfo (.temporary id) (j + 1) args with
          | some domain => simpa [hrest] using hid
          | none => simpa [hrest] using hid
      | pointer x =>
          unfold describedArguments at hafter
          cases hinfo : argInfo[j]? with
          | none => simp [hinfo] at hafter
          | some info =>
              simp only [hinfo] at hafter
              obtain ⟨htops, hlast⟩ := ih hafter
              refine ⟨((State.Tops.assignAccess state x info.access).trans htops).of_iff
                (by simp), fun id => ?_⟩
              have hid := hlast id
              unfold lastAssigned
              cases hrest : lastAssigned argInfo (.temporary id) (j + 1) args with
              | some domain => simpa [hrest] using hid
              | none =>
                  simp only [hrest] at hid
                  by_cases hx : x = .temporary id
                  · subst hx
                    simp only [if_true, hinfo, Option.bind_some]
                    unfold State.assignAccess at hid htops
                    cases hassigned : info.access.assigned with
                    | none => simpa [hassigned] using hid
                    | some domain =>
                        -- the new object is not touched by the rest of the loop
                        simp only [hassigned] at hid htops
                        have hsame := (htops.get_eq (x := .temporary id)
                          fun _ _ => hid).2 (fun _ _ => not_false)
                        rw [hsame, State.get_assign_self]
                  · have hne : Argument.pointer x ≠ .pointer (.temporary id) := by simpa using hx
                    simp only [if_neg hne]
                    rw [hid]
                    unfold State.assignAccess
                    split
                    · exact Function.update_of_ne (Ne.symm hx) _ _
                    · rfl

/-- **The arguments of an unknown function.**  Their objects are topped; no variable is rebound. -/
theorem unknownArguments_spec (args : List Argument) (state : State D) :
    State.Tops (fun object => ∃ x, .pointer x ∈ args ∧ state.object x = some object) state
        (unknownArguments args state) ∧
      (unknownArguments args state).env = state.env := by
  induction args generalizing state with
  | nil => exact ⟨(State.Tops.refl state).of_iff (by simp), rfl⟩
  | cons arg args ih =>
      cases arg with
      | other =>
          obtain ⟨htops, henv⟩ := ih state
          exact ⟨htops.of_iff (by simp), henv⟩
      | pointer x =>
          obtain ⟨htops, henv⟩ := ih (state.setTop x)
          have hobject (y : Variable) : (state.setTop x).object y = state.object y := by
            cases y <;> rfl
          refine ⟨((State.Tops.setTop state x).trans htops).of_iff fun object => ?_, henv⟩
          simp only [hobject, List.mem_cons, Argument.pointer.injEq]
          constructor
          · rintro (h | ⟨y, hy, h⟩)
            · exact ⟨x, Or.inl rfl, h⟩
            · exact ⟨y, Or.inr hy, h⟩
          · rintro ⟨y, rfl | hy, h⟩
            · exact Or.inl h
            · exact Or.inr ⟨y, hy, h⟩

/-! ## Loads after the call -/

section

variable {equals : Comparison D} {type : PointeeType} {x : Variable}

theorem Loaded.full_top (htype : type ≠ .aggregate) : (Loaded.top type : Loaded D).Full := by
  cases type with
  | number => exact NumberDomain.contains_top
  | pointer => exact PointerDomain.isTop_top
  | aggregate => exact absurd rfl htype

theorem Loaded.not_full_bottom : ¬ (Loaded.bottom type : Loaded D).Full := by
  cases type with
  | number =>
      obtain ⟨v, hv⟩ := NumberDomain.exists_not_contains_bottom (D := D)
      exact fun hfull => hv (hfull v)
  | pointer => exact Bool.false_ne_true
  | aggregate => exact id

theorem State.full_of_get_top {state : State D} (htype : type ≠ .aggregate)
    (hget : state.get x = .top) : (state.loadFrom equals type x).Full := by
  rw [State.loadFrom, hget, State.loadPointer, if_pos PointerDomain.isTop_top]
  exact Loaded.full_top htype

/-- What a variable whose domain is kept loads after some objects are topped. -/
theorem State.Tops.full_iff {T : Nat → Prop} {before after : State D}
    (htops : State.Tops T before after) (hget : after.get x = before.get x) :
    (after.loadFrom equals type x).Full ↔ (before.loadFrom equals type x).Full ∨
      (before.loadFrom equals type x).IsPointer ∧
        ∃ object, T object ∧ before.Reads (before.get x) object := by
  unfold State.loadFrom
  rw [hget]
  exact (htops.lifted_loadPointer type (before.get x)).full_iff

theorem State.Tops.full_iff_of_none {before after : State D}
    (htops : State.Tops (fun _ => False) before after) (hget : after.get x = before.get x) :
    (after.loadFrom equals type x).Full ↔ (before.loadFrom equals type x).Full := by
  rw [htops.full_iff hget]
  simp

end

section

variable {m : Module} (call : Call m) {equals : Comparison D} {state : State D} {x : Variable}

/-- Only top and bottom are ever assigned to an argument. -/
theorem lastAssigned_eq {argInfo : List ArgInfo} (args : List Argument) {j : Nat}
    {domain : PointerDomain} (hassigned : lastAssigned argInfo x j args = some domain) :
    domain = .top ∨ domain = .bottom := by
  induction args generalizing j with
  | nil => simp [lastAssigned] at hassigned
  | cons arg args ih =>
      unfold lastAssigned at hassigned
      cases hrest : lastAssigned argInfo x (j + 1) args with
      | some other =>
          simp only [hrest, Option.some.injEq] at hassigned
          rw [hassigned] at hrest
          exact ih hrest
      | none =>
          simp only [hrest] at hassigned
          split at hassigned
          · obtain ⟨info, -, haccess⟩ := Option.bind_eq_some_iff.mp hassigned
            cases hinfo : info.access <;> simp [AccessPatternTag.assigned, hinfo] at haccess
            · exact Or.inl haccess.symm
            · exact Or.inl haccess.symm
            · exact Or.inr haccess.symm
          · simp at hassigned

/-- The assignment of the result in `visitCallInst`. -/
def Call.assignResult (state : State D) : State D :=
  match call.result with
  | some id => state.assign (.temporary id) .top
  | none => state

theorem Call.full_assignResult_iff {type : PointeeType} (htype : type ≠ .aggregate) :
    ((call.assignResult state).loadFrom equals type x).Full ↔
      (∃ id, call.result = some id ∧ x = .temporary id) ∨
        (state.loadFrom equals type x).Full := by
  unfold Call.assignResult
  cases hresult : call.result with
  | none => simp
  | some id =>
      by_cases hx : x = .temporary id
      · subst hx
        have hfull : ((state.assign (.temporary id) .top).loadFrom equals type
            (.temporary id)).Full :=
          State.full_of_get_top htype (state.get_assign_self id .top)
        simp [hfull]
      · have htops := State.Tops.assign state (.temporary id) .top
        have hget := (htops.get_eq (x := x) fun id' hid' =>
          Function.update_of_ne hx _ _).2 fun _ _ => not_false
        rw [htops.full_iff_of_none hget]
        simp [hx]

theorem visitCallInst_described {info : FuncInfo} (hinfo : m.getInfo call.function = some info) :
    visitCallInst call state =
      (describedArguments info.argInfo 0 call.args state).map call.assignResult := by
  unfold visitCallInst handleDeclaration Call.returned
  simp only [hinfo]
  cases describedArguments info.argInfo 0 call.args state with
  | none => rfl
  | some after => cases hresult : call.result <;> simp [Call.assignResult, hresult]

theorem visitCallInst_unknown (hinfo : m.getInfo call.function = none) :
    visitCallInst call state =
      if call.function.isDebug then some state
      else some (call.assignResult (unknownArguments call.args state)) := by
  unfold visitCallInst handleDeclaration Call.returned
  simp only [hinfo]
  cases call.function.isDebug
  · cases hresult : call.result <;> simp [Call.assignResult, hresult]
  · simp

/-- **The loads after a call of a described function.** -/
theorem full_described_iff {info : FuncInfo} {after : State D}
    (hafter : describedArguments info.argInfo 0 call.args state = some after)
    {type : PointeeType} (htype : type ≠ .aggregate) :
    (after.loadFrom equals type x).Full ↔
      match call.assigned info x with
      | some domain => domain.isTop = true
      | none => (state.loadFrom equals type x).Full := by
  obtain ⟨htops, hlast⟩ := describedArguments_spec info.argInfo call.args hafter
  have hkept (henv : ∀ id, x = .temporary id → after.env x = state.env x) :
      (after.loadFrom equals type x).Full ↔ (state.loadFrom equals type x).Full :=
    htops.full_iff_of_none ((htops.get_eq henv).2 fun _ _ => not_false)
  cases x with
  | global id => exact hkept (by simp)
  | constant id => exact hkept (by simp)
  | temporary id =>
      have hid := hlast id
      simp only [Call.assigned]
      cases hassigned : lastAssigned info.argInfo (.temporary id) 0 call.args with
      | none =>
          simp only [hassigned] at hid
          exact hkept fun _ _ => hid
      | some domain =>
          simp only [hassigned] at hid
          constructor
          · intro hfull
            rcases lastAssigned_eq call.args hassigned with rfl | rfl
            · exact PointerDomain.isTop_top
            · rw [State.loadFrom, hid] at hfull
              exact absurd hfull Loaded.not_full_bottom
          · intro htop
            exact State.full_of_get_top htype
              (hid.trans (PointerDomain.eq_top_of_isTop htop))

/-- **The loads after a call of an unknown function.** -/
theorem full_unknown_iff {type : PointeeType} (htype : type ≠ .aggregate) :
    ((unknownArguments call.args state).loadFrom equals type x).Full ↔
      (∃ object, state.source x = some object ∧ call.Tops state object) ∨
        (state.loadFrom equals type x).Full ∨
        ((state.loadFrom equals type x).IsPointer ∧
          ∃ object, call.Tops state object ∧ state.Reads (state.get x) object) := by
  obtain ⟨htops, henv⟩ := unknownArguments_spec call.args state
  have hget := htops.get_eq (x := x) fun _ _ => by rw [henv]
  by_cases hshared : ∃ object, state.source x = some object ∧ call.Tops state object
  · obtain ⟨object, hsource, htopped⟩ := hshared
    have hfull : ((unknownArguments call.args state).loadFrom equals type x).Full :=
      State.full_of_get_top htype (hget.1 object hsource htopped)
    exact ⟨fun _ => Or.inl ⟨object, hsource, htopped⟩, fun _ => hfull⟩
  · have hkept := hget.2 fun object hsource htopped => hshared ⟨object, hsource, htopped⟩
    rw [htops.full_iff hkept, or_iff_right hshared]
    rfl

/-- A described call reads no description past the end exactly when every pointer argument has
one. -/
theorem described_iff {info : FuncInfo} (hinfo : m.getInfo call.function = some info)
    (state : State D) :
    (describedArguments info.argInfo 0 call.args state).isSome ↔ call.Described := by
  rw [describedArguments_isSome_iff, runOnModule_length m.descriptions call.declared hinfo]
  have harity := call.arity
  simp only [Call.Described, hinfo, Option.isSome_some, forall_const, Nat.zero_add]
  cases hvariadic : call.function.isVarArg with
  | true =>
      simp only [if_true, forall_const, Nat.lt_succ_iff]
  | false =>
      rw [hvariadic] at harity
      simp only [Bool.false_eq_true, if_false, false_imp_iff, iff_true] at harity ⊢
      intro i x hx
      obtain ⟨hlt, -⟩ := List.getElem?_eq_some_iff.mp hx
      omega

/-- **When a call of a declared function forgets what the function may change**: every pointer
argument has a description, and every pointer to memory that may be written is left so that its
loads give everything. -/
theorem forgets_iff (m : Module) (call : Call m) (equals : Comparison D) (state : State D) :
    call.Forgets equals state ↔ call.Described ∧
      ∀ x base, m.pointee x ≠ .aggregate → (state.get x).MayPointTo base →
        call.MayWrite state base → call.Covers equals state x := by
  unfold Call.Forgets Call.Covers
  cases hinfo : m.getInfo call.function with
  | some info =>
      rw [visitCallInst_described call hinfo, ← described_iff call hinfo state]
      cases hafter : describedArguments info.argInfo 0 call.args state with
      | none => simp
      | some after =>
          simp only [Option.map_some, Option.some.injEq, exists_eq_left', Option.isSome_some,
            true_and]
          refine forall_congr' fun x => forall_congr' fun base => forall_congr' fun htype =>
            imp_congr_right fun _ => imp_congr_right fun _ => ?_
          rw [call.full_assignResult_iff htype, full_described_iff call hafter htype]
  | none =>
      have hdescribed : call.Described := by simp [Call.Described, hinfo]
      rw [visitCallInst_unknown call hinfo, and_iff_right hdescribed]
      cases hdebug : call.function.isDebug with
      | true => simp
      | false =>
          simp only [Bool.false_eq_true, if_false, Option.some.injEq, exists_eq_left']
          refine forall_congr' fun x => forall_congr' fun base => forall_congr' fun htype =>
            imp_congr_right fun _ => imp_congr_right fun _ => ?_
          rw [call.full_assignResult_iff htype, full_unknown_iff call htype]

end

/-! ## A pointer to the same buffer -/

/-- A declaration with one pointer parameter, described as written. -/
def fillModule : Module where
  getFunction name := if name = "fill" then some ⟨"fill", 1, false⟩ else none
  libName := id
  descriptions := [⟨"fill", [⟨.write⟩]⟩]
  pointee _ := .number

def fillCall : Call fillModule where
  function := ⟨"fill", 1, false⟩
  declared := by decide
  args := [.pointer (.temporary 0)]
  result := none
  arity := by decide

/-- Both temporaries point to the one element of an array, which holds a zero. -/
def aliasState : State (DoubleInterval 32) where
  globals _ := 0
  constants _ := .fixed .top
  env x := if x = .temporary 0 then 0 else 1
  pointers _ := ⟨false, [.array 0 ⟨0, some 0⟩]⟩
  aggregates _ := .array (some 1) .number fun _ =>
    some (.number (DoubleInterval.interval (Interval.interval (.ofInt 0) (.ofInt 0))
      (Interval.interval (.ofInt 0) (.ofInt 0))))
  next := 2
  globals_lt _ := by decide
  env_lt x := by split <;> decide
  refers_lt base object hrefers := by simp [Aggregate.Refers] at hrefers

/-- **The other pointer still loads what the buffer held before the call.** -/
theorem alias_keeps_old_value : ¬ fillCall.Forgets (fun _ _ => (· == ·)) aliasState := by
  rintro ⟨after, hafter, hforgets⟩
  obtain rfl := Option.some.inj hafter
  have hpoints (id : Nat) : (aliasState.get (.temporary id)).MayPointTo 0 :=
    Or.inr ⟨_, List.mem_singleton_self _, rfl⟩
  have hwritten : fillCall.Written 0 (.temporary 0) :=
    ⟨rfl, .write, rfl, Or.inl rfl⟩
  have hfull := hforgets (.temporary 1) 0 (by decide) (hpoints 1)
    ⟨0, .temporary 0, hwritten, .pointsTo (hpoints 0)⟩
  -- the buffer may hold a one now
  have hone : ¬ (1 : BitVec 32) ∈ DoubleInterval.join
      (DoubleInterval.interval Interval.bottom Interval.bottom)
      (DoubleInterval.interval (Interval.interval (.ofInt 0) (.ofInt 0))
        (Interval.interval (.ofInt 0) (.ofInt 0))) := by decide
  exact hone (hfull 1)

end Borealis.PointsTo
