import Borealis.Lib.Search

/-!
# The call graph slicer

`CallGraphSlicer` keeps the functions with a body that the root functions and the functions whose
address is taken lead to by direct calls.  `hasAddressTaken` goes over the users of a function and
over the users of its bitcasts.

## Strategy

The work list finds what its start leads to (`mem_slice_iff`).  A function that an instruction or an
initializer mentions has its address taken, except in two places (`hasAddressTaken_of_mentioned`):
where it is the callee of a call, and under a bitcast that only calls use.
-/

namespace Borealis.CallGraphSlicer

/-! ## Modules -/

/-- `llvm::Value` as an operand: a function, a constant expression, a constant array or structure,
or a value that mentions no function.  A bitcast is told from the other constant expressions. -/
inductive Operand (Fn : Type) where
  | function (f : Fn)
  | bitcast (type : Nat) (operand : Operand Fn)
  | constantExpr (opcode : Nat) (operands : List (Operand Fn))
  | aggregate (operands : List (Operand Fn))
  | other

/-- `llvm::Instruction`. -/
inductive Instruction (Fn : Type) where
  | call (callee : Operand Fn) (args : List (Operand Fn))
  | invoke (callee : Operand Fn) (args : List (Operand Fn))
  | other (operands : List (Operand Fn))

/-- `llvm::Module`: its functions, of which a declaration has no body, and the initializers of its
globals. -/
structure LlvmModule (Fn : Type) where
  functions : List Fn
  complete : ∀ f, f ∈ functions
  name : Fn → String
  body : Fn → Option (List (Instruction Fn))
  initializers : List (Operand Fn)

namespace Operand

variable {Fn : Type}

/-- The operands of a constant. -/
def operands : Operand Fn → List (Operand Fn)
  | bitcast _ operand => [operand]
  | constantExpr _ operands | aggregate operands => operands
  | function _ | other => []

mutual
/-- A constant and the constants inside it. -/
def constants : Operand Fn → List (Operand Fn)
  | function f => [function f]
  | bitcast type operand => bitcast type operand :: constants operand
  | constantExpr opcode operands => constantExpr opcode operands :: constantsAll operands
  | aggregate operands => aggregate operands :: constantsAll operands
  | other => [other]

/-- The same for a list of constants. -/
def constantsAll : List (Operand Fn) → List (Operand Fn)
  | [] => []
  | c :: cs => constants c ++ constantsAll cs
end

/-- The operand is the function itself. -/
def isFunction [DecidableEq Fn] (f : Fn) : Operand Fn → Bool
  | function g => g = f
  | _ => false

/-- The operand is the function under a bitcast to a type. -/
def isBitcastOf [DecidableEq Fn] (f : Fn) (type : Nat) : Operand Fn → Bool
  | bitcast type' (function g) => type' = type && g = f
  | _ => false

@[simp] theorem isFunction_self [DecidableEq Fn] (f : Fn) : (function f).isFunction f = true :=
  decide_eq_true rfl

@[simp] theorem isBitcastOf_self [DecidableEq Fn] (f : Fn) (type : Nat) :
    (bitcast type (function f)).isBitcastOf f type = true := by
  rw [isBitcastOf, decide_eq_true rfl, decide_eq_true rfl]
  rfl

/-- The functions that a constant mentions. -/
def mentioned (c : Operand Fn) : List Fn :=
  c.constants.filterMap fun
    | function f => some f
    | _ => none

theorem constantsAll_eq_flatMap (cs : List (Operand Fn)) :
    constantsAll cs = cs.flatMap constants := by
  induction cs with
  | nil => rfl
  | cons c cs ih => rw [constantsAll, ih, List.flatMap_cons]

theorem mem_constants_self (op : Operand Fn) : op ∈ op.constants := by
  cases op <;> exact List.mem_cons_self

/-- A constant inside another is an operand of one inside it. -/
theorem mem_constants_cases : ∀ {op c : Operand Fn}, c ∈ op.constants →
    c = op ∨ ∃ d ∈ op.constants, c ∈ d.operands
  | .function f, c, hc => Or.inl (List.mem_singleton.1 hc)
  | .other, c, hc => Or.inl (List.mem_singleton.1 hc)
  | .bitcast type operand, c, hc => by
    rcases List.mem_cons.1 hc with rfl | hc
    · exact Or.inl rfl
    · refine Or.inr ?_
      rcases mem_constants_cases hc with rfl | ⟨d, hd, hcd⟩
      · exact ⟨_, List.mem_cons_self, List.mem_singleton.2 rfl⟩
      · exact ⟨d, List.mem_cons_of_mem _ hd, hcd⟩
  | .constantExpr opcode operands, c, hc => by
    rw [constants, constantsAll_eq_flatMap] at hc ⊢
    rcases List.mem_cons.1 hc with rfl | hc
    · exact Or.inl rfl
    · obtain ⟨operand, hoperand, hc⟩ := List.mem_flatMap.1 hc
      refine Or.inr ?_
      rcases mem_constants_cases hc with rfl | ⟨d, hd, hcd⟩
      · exact ⟨_, List.mem_cons_self, hoperand⟩
      · exact ⟨d, List.mem_cons_of_mem _ (List.mem_flatMap.2 ⟨operand, hoperand, hd⟩), hcd⟩
  | .aggregate operands, c, hc => by
    rw [constants, constantsAll_eq_flatMap] at hc ⊢
    rcases List.mem_cons.1 hc with rfl | hc
    · exact Or.inl rfl
    · obtain ⟨operand, hoperand, hc⟩ := List.mem_flatMap.1 hc
      refine Or.inr ?_
      rcases mem_constants_cases hc with rfl | ⟨d, hd, hcd⟩
      · exact ⟨_, List.mem_cons_self, hoperand⟩
      · exact ⟨d, List.mem_cons_of_mem _ (List.mem_flatMap.2 ⟨operand, hoperand, hd⟩), hcd⟩

/-- A mentioned function is one of the constants. -/
theorem function_mem_constants {f : Fn} {op : Operand Fn} (hf : f ∈ op.mentioned) :
    function f ∈ op.constants := by
  obtain ⟨c, hc, hcf⟩ := List.mem_filterMap.1 hf
  cases c with
  | function g =>
      obtain rfl := Option.some.inj hcf
      exact hc
  | _ => exact absurd hcf (Option.some_ne_none _).symm

end Operand

namespace Instruction

variable {Fn : Type}

/-- `operands`. -/
def operands : Instruction Fn → List (Operand Fn)
  | call callee args | invoke callee args => args ++ [callee]
  | other operands => operands

/-- `getCalledFunction` of the call site, if the instruction is one. -/
def getCalledFunction : Instruction Fn → Option Fn
  | call (.function f) _ | invoke (.function f) _ => some f
  | _ => none

end Instruction

/-- `llvm::User`. -/
inductive User (Fn : Type) where
  | instruction (i : Instruction Fn)
  | constant (c : Operand Fn)
  | global

namespace LlvmModule

variable {Fn : Type} (M : LlvmModule Fn)

/-- `isDeclaration`. -/
def isDeclaration (f : Fn) : Bool := (M.body f).isNone

/-- The instructions of a module. -/
def instructions : List (Instruction Fn) := M.functions.flatMap fun f => (M.body f).getD []

/-- The constants of a module. -/
def constants : List (Operand Fn) :=
  (M.instructions.flatMap Instruction.operands ++ M.initializers).flatMap Operand.constants

/-- The functions that the calls of a function name. -/
def called (f : Fn) : List Fn := ((M.body f).getD []).filterMap Instruction.getCalledFunction

/-- `users` of a value. -/
def users (isValue : Operand Fn → Bool) : List (User Fn) :=
  (M.instructions.filter fun i => i.operands.any isValue).map User.instruction ++
    (M.constants.filter fun c => c.operands.any isValue).map User.constant ++
      (M.initializers.filter isValue).map fun _ => User.global

theorem mem_users_of_instruction {isValue : Operand Fn → Bool} {i : Instruction Fn}
    {op : Operand Fn} (hi : i ∈ M.instructions) (hop : op ∈ i.operands)
    (hvalue : isValue op = true) : User.instruction i ∈ M.users isValue :=
  List.mem_append_left _ (List.mem_append_left _ (List.mem_map_of_mem
    (List.mem_filter.2 ⟨hi, List.any_eq_true.2 ⟨op, hop, hvalue⟩⟩)))

theorem mem_users_of_constant {isValue : Operand Fn → Bool} {c op : Operand Fn}
    (hc : c ∈ M.constants) (hop : op ∈ c.operands) (hvalue : isValue op = true) :
    User.constant c ∈ M.users isValue :=
  List.mem_append_left _ (List.mem_append_right _ (List.mem_map_of_mem
    (List.mem_filter.2 ⟨hc, List.any_eq_true.2 ⟨op, hop, hvalue⟩⟩)))

theorem mem_users_of_initializer {isValue : Operand Fn → Bool} {op : Operand Fn}
    (hop : op ∈ M.initializers) (hvalue : isValue op = true) : User.global ∈ M.users isValue :=
  List.mem_append_right _ (List.mem_map.2 ⟨op, List.mem_filter.2 ⟨hop, hvalue⟩, rfl⟩)

variable [DecidableEq Fn]

/-- `llvm::Function::hasAddressTaken`: some use is not that of a callee. -/
def llvmHasAddressTaken (f : Fn) : Bool :=
  (M.users (Operand.isFunction f)).any fun
    | .instruction (.call _ args) | .instruction (.invoke _ args) =>
      args.any (Operand.isFunction f)
    | _ => true

/-- `hasAddressTaken`. -/
def hasAddressTaken (f : Fn) : Bool :=
  M.llvmHasAddressTaken f &&
    (M.users (Operand.isFunction f)).any fun
      | .instruction (.call callee args) =>
        (Instruction.call callee args).getCalledFunction ≠ some f
      | .instruction (.invoke callee args) =>
        (Instruction.invoke callee args).getCalledFunction ≠ some f
      | .constant (.bitcast type _) =>
        (M.users (Operand.isBitcastOf f type)).any fun
          | .instruction (.call _ _) => false
          | _ => true
      | _ => true

/-- What the queue starts with: `getFunction` of the roots, and the functions whose address is
taken. -/
def seeds (roots : List String) : List Fn :=
  roots.filterMap (fun name => M.functions.find? fun f => M.name f = name) ++
    M.functions.filter M.hasAddressTaken

/-- `runOnModule`, up to the set `slice`. -/
def slice (roots : List String) : List Fn :=
  if roots.isEmpty then []
  else Lib.search M.functions M.complete M.called M.isDeclaration [] (M.seeds roots)

/-- **The slice is what roots and address-taken functions lead to by direct calls.** -/
theorem mem_slice_iff {roots : List String} (hroots : roots ≠ []) {f : Fn} :
    f ∈ M.slice roots ↔ Lib.Found M.called M.isDeclaration (M.seeds roots) f := by
  rw [slice, if_neg (by rwa [List.isEmpty_iff])]
  exact Lib.mem_search_iff

/-! ## Mentioned functions -/

/-- A user of a bitcast other than a call takes the address. -/
theorem hasAddressTaken_of_castUser {f : Fn} {type : Nat} {u : User Fn}
    (hc : .bitcast type (.function f) ∈ M.constants)
    (hu : u ∈ M.users (Operand.isBitcastOf f type))
    (hcall : ∀ callee args, u ≠ .instruction (.call callee args)) :
    M.hasAddressTaken f = true := by
  have huser : User.constant (.bitcast type (.function f)) ∈ M.users (Operand.isFunction f) :=
    M.mem_users_of_constant hc (List.mem_singleton.2 rfl) (decide_eq_true rfl)
  rw [hasAddressTaken, Bool.and_eq_true]
  refine ⟨List.any_eq_true.2 ⟨_, huser, rfl⟩, List.any_eq_true.2 ⟨_, huser, ?_⟩⟩
  refine List.any_eq_true.2 ⟨u, hu, ?_⟩
  rcases u with (⟨callee, args⟩ | ⟨callee, args⟩ | operands) | c | _
  · exact absurd rfl (hcall callee args)
  all_goals rfl

/-- A constant other than a bitcast takes the addresses of its operands. -/
theorem hasAddressTaken_of_constant {f : Fn} {c : Operand Fn} (hc : c ∈ M.constants)
    (hf : .function f ∈ c.operands) (hcast : ∀ type operand, c ≠ .bitcast type operand) :
    M.hasAddressTaken f = true := by
  have huser : User.constant c ∈ M.users (Operand.isFunction f) :=
    M.mem_users_of_constant hc hf (decide_eq_true rfl)
  rw [hasAddressTaken, Bool.and_eq_true]
  refine ⟨List.any_eq_true.2 ⟨_, huser, rfl⟩, List.any_eq_true.2 ⟨_, huser, ?_⟩⟩
  rcases c with _ | ⟨type, operand⟩ | _ | _ | _
  · rfl
  · exact absurd rfl (hcast type operand)
  all_goals rfl

/-- A constant takes the address of each function it mentions, unless it is the function or a
bitcast of it. -/
theorem hasAddressTaken_of_mem_constants {f : Fn} {op : Operand Fn}
    (hop : ∀ c ∈ op.constants, c ∈ M.constants) (hf : f ∈ op.mentioned) :
    M.hasAddressTaken f = true ∨ op = .function f ∨ ∃ type, op = .bitcast type (.function f) := by
  rcases Operand.mem_constants_cases (Operand.function_mem_constants hf) with
    heq | ⟨d, hd, hfd⟩
  · exact Or.inr (Or.inl heq.symm)
  · by_cases hcast : ∃ type operand, d = .bitcast type operand
    · obtain ⟨type, operand, rfl⟩ := hcast
      obtain rfl : Operand.function f = operand := List.mem_singleton.1 hfd
      rcases Operand.mem_constants_cases hd with rfl | ⟨e, he, hde⟩
      · exact Or.inr (Or.inr ⟨type, rfl⟩)
      · -- the bitcast is part of another constant
        have huser := M.mem_users_of_constant (hop e he) hde (Operand.isBitcastOf_self f type)
        refine Or.inl (M.hasAddressTaken_of_castUser (hop _ hd) huser ?_)
        rintro callee args ⟨⟩
    · exact Or.inl (M.hasAddressTaken_of_constant (hop d hd) hfd fun type operand heq =>
        hcast ⟨type, operand, heq⟩)

/-- **An initializer takes the address of each function it mentions.** -/
theorem hasAddressTaken_of_initializer {f : Fn} {op : Operand Fn} (hop : op ∈ M.initializers)
    (hf : f ∈ op.mentioned) : M.hasAddressTaken f = true := by
  have hconstants : ∀ c ∈ op.constants, c ∈ M.constants := fun c hc =>
    List.mem_flatMap.2 ⟨op, List.mem_append_right _ hop, hc⟩
  rcases M.hasAddressTaken_of_mem_constants hconstants hf with htaken | rfl | ⟨type, rfl⟩
  · exact htaken
  · have huser := M.mem_users_of_initializer hop (Operand.isFunction_self f)
    rw [hasAddressTaken, Bool.and_eq_true]
    exact ⟨List.any_eq_true.2 ⟨_, huser, rfl⟩, List.any_eq_true.2 ⟨_, huser, rfl⟩⟩
  · have huser := M.mem_users_of_initializer hop (Operand.isBitcastOf_self f type)
    refine M.hasAddressTaken_of_castUser (hconstants _ (Operand.mem_constants_self _)) huser ?_
    rintro callee args ⟨⟩

/-- **An instruction takes the address of each function it mentions**, unless it is a call of the
function, or a call with a bitcast of it. -/
theorem hasAddressTaken_of_instruction {f : Fn} {i : Instruction Fn} {op : Operand Fn}
    (hi : i ∈ M.instructions) (hop : op ∈ i.operands) (hf : f ∈ op.mentioned) :
    M.hasAddressTaken f = true ∨ i.getCalledFunction = some f ∨
      ∃ callee args type, i = .call callee args ∧ op = .bitcast type (.function f) := by
  have hconstants : ∀ c ∈ op.constants, c ∈ M.constants := fun c hc =>
    List.mem_flatMap.2 ⟨op, List.mem_append_left _ (List.mem_flatMap.2 ⟨i, hi, hop⟩), hc⟩
  rcases M.hasAddressTaken_of_mem_constants hconstants hf with htaken | rfl | ⟨type, rfl⟩
  · exact Or.inl htaken
  · by_cases hcalled : i.getCalledFunction = some f
    · exact Or.inr (Or.inl hcalled)
    · refine Or.inl ?_
      have huser := M.mem_users_of_instruction hi hop (Operand.isFunction_self f)
      -- a use in a call of something else is one as an argument
      have hargs : ∀ {callee : Operand Fn} {args : List (Operand Fn)},
          .function f ∈ args ++ [callee] → callee ≠ .function f →
            args.any (Operand.isFunction f) = true := by
        intro callee args hmem hne
        rcases List.mem_append.1 hmem with hmem | hmem
        · exact List.any_eq_true.2 ⟨_, hmem, Operand.isFunction_self f⟩
        · exact absurd (List.mem_singleton.1 hmem).symm hne
      rw [hasAddressTaken, Bool.and_eq_true]
      refine ⟨List.any_eq_true.2 ⟨_, huser, ?_⟩, List.any_eq_true.2 ⟨_, huser, ?_⟩⟩
      · rcases i with ⟨callee, args⟩ | ⟨callee, args⟩ | operands
        · exact hargs hop fun hcallee => hcalled (by rw [hcallee]; rfl)
        · exact hargs hop fun hcallee => hcalled (by rw [hcallee]; rfl)
        · rfl
      · rcases i with ⟨callee, args⟩ | ⟨callee, args⟩ | operands
        · exact decide_eq_true hcalled
        · exact decide_eq_true hcalled
        · rfl
  · by_cases hcall : ∃ callee args, i = .call callee args
    · obtain ⟨callee, args, rfl⟩ := hcall
      exact Or.inr (Or.inr ⟨callee, args, type, rfl, rfl⟩)
    · have huser := M.mem_users_of_instruction hi hop (Operand.isBitcastOf_self f type)
      refine Or.inl (M.hasAddressTaken_of_castUser
        (hconstants _ (Operand.mem_constants_self _)) huser ?_)
      rintro callee args ⟨⟩
      exact hcall ⟨callee, args, rfl⟩

end LlvmModule

end Borealis.CallGraphSlicer
