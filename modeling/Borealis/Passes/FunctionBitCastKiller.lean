import Mathlib.Data.List.Basic
import Mathlib.Data.List.Nodup
import Mathlib.Data.PNat.Basic

/-!
# Killing bitcasts of functions

A call whose callee is a bitcast of a function is replaced by a direct call of the function.  The
arguments are converted to the types of the parameters and the result to the type of the old call,
by a table over pairs of types; the old calls are erased after the walk.

Replacing all uses of a call is a substitution in the whole function, old and new instructions
alike, and rewriting a call commutes with a substitution (`rewriteCall_map`).  So the substitutions
of a walk together are one substitution, and each new call is what rewriting its old call makes of
the operands under it.

A call is rewritten when the number of its arguments fits and the table has a conversion for each
pair of types (`isSome_rewriteCall_iff`); `faithful_iff` says which conversions keep the bits.
-/

namespace Borealis

namespace FunctionBitCastKiller

/-! ## Types and values -/

/-- The floating point types. -/
inductive FloatKind where
  | half
  | float
  | double
  | x86_fp80
  | fp128
  | ppc_fp128
  deriving DecidableEq

/-- The bits of a floating point number. -/
def FloatKind.bits : FloatKind → ℕ
  | .half => 16
  | .float => 32
  | .double => 64
  | .x86_fp80 => 80
  | .fp128 | .ppc_fp128 => 128

/-- The bit pattern of the number one. -/
def FloatKind.one : FloatKind → ℕ
  | .half => 0x3C00
  | .float => 0x3F800000
  | .double | .ppc_fp128 => 0x3FF0000000000000
  | .x86_fp80 => 0x3FFF8000000000000000
  | .fp128 => 0x3FFF0000000000000000000000000000

/-- `llvm::Type`: structs and arrays are aggregates; vectors, functions and the like are others. -/
inductive Ty where
  | void
  | integer (bits : ℕ+)
  | floating (kind : FloatKind)
  | pointer (pointee : ℕ) (addressSpace : ℕ)
  | aggregate (name : ℕ)
  | other (name : ℕ)
  deriving DecidableEq

/-- An instruction's identity, with the type of its result. -/
structure Ref where
  id : ℕ
  type : Ty
  deriving DecidableEq

/-- `llvm::Value`: the result of an instruction, a constant number, and the others by name. -/
inductive Value where
  | instr (ref : Ref)
  | constant (type : Ty) (bits : ℕ)
  | other (name : ℕ) (type : Ty)
  deriving DecidableEq

/-- `Value::getType`. -/
def Value.getType : Value → Ty
  | .instr ref => ref.type
  | .constant type _ | .other _ type => type

/-- `llvm::Function` as a callee. -/
structure FunctionDecl where
  name : ℕ
  params : List Ty
  isVarArg : Bool
  returnType : Ty
  deriving DecidableEq

/-- What a constant bitcast is applied to: a function, or an alias, a variable and so on. -/
inductive Casted where
  | function (f : FunctionDecl)
  | other (name : ℕ)
  deriving DecidableEq

/-- The callee of a call.  The value that an indirect call is made through is the last operand. -/
inductive Callee where
  | inlineAsm
  | function (f : FunctionDecl)
  | bitcast (operand : Casted)
  | expr (name : ℕ)
  | indirect
  deriving DecidableEq

/-- The conversions that are made. -/
inductive CastOp where
  | bitcast
  | ptrToInt
  | trunc
  | zext
  | fpToUI
  | uiToFP
  deriving DecidableEq

/-- `llvm::Instruction`, by what the pass tells apart. -/
inductive Op where
  | call (callee : Callee)
  | cast (op : CastOp)
  | other (name : ℕ)
  deriving DecidableEq

/-- An instruction with its operands; those of a call are its arguments. -/
structure Inst where
  ref : Ref
  op : Op
  operands : List Value
  metadata : List (ℕ × ℕ)
  deriving DecidableEq

/-- A body: basic blocks of instructions. -/
abbrev Blocks := List (List Inst)

/-- A function.  An instruction occurs once, and there are more instructions to be had than those in
the body and the operands. -/
structure Function where
  blocks : Blocks
  fresh : ℕ
  nodup : (blocks.flatten.map Inst.ref).Nodup
  ref_lt : ∀ inst ∈ blocks.flatten, inst.ref.id < fresh
  operand_lt : ∀ inst ∈ blocks.flatten, ∀ ref, .instr ref ∈ inst.operands → ref.id < fresh

/-! ## Conversions -/

/-- `CastInst::castIsValid` for the conversions that are made. -/
def castIsValid : CastOp → Ty → Ty → Bool
  | .bitcast, .pointer _ space, .pointer _ space' => space = space'
  | .ptrToInt, .pointer _ _, .integer _ => true
  | .trunc, .integer bits, .integer bits' => bits' < bits
  | .zext, .integer bits, .integer bits' => bits < bits'
  | .fpToUI, .floating _, .integer _ => true
  | .uiToFP, .integer _, .floating _ => true
  | _, _, _ => false

/-- The table of `generateCastInst` for two different types. -/
def castOp : Ty → Ty → Option CastOp
  | .pointer _ _, .pointer _ _ => some .bitcast
  | .pointer _ _, .integer _ => some .ptrToInt
  | .aggregate _, .aggregate _ => some .ptrToInt
  | .integer bits, .integer bits' => some (if bits' < bits then .trunc else .zext)
  | .floating _, .integer _ => some .fpToUI
  | .integer _, .floating _ => some .uiToFP
  | _, _ => none

/-- `generateCastInst`: it fails outside the table, and so does the constructor of a conversion
that is not valid.  There is no instruction for equal types. -/
def generateCastInst (fresh : ℕ) (val : Value) (target : Ty) : Option (Option Inst) :=
  if val.getType = target then some none
  else
    (castOp val.getType target).bind fun op =>
      if castIsValid op val.getType target then
        some (some ⟨⟨fresh, target⟩, .cast op, [val], []⟩)
      else none

/-- The first loop of `visitCallInst`, and the second one for the arguments that are left: the
conversions and the new arguments.  It fails when there is no argument for a parameter. -/
def convertArgs : ℕ → List Value → List Ty → Option (List Inst × List Value)
  | _, args, [] => some ([], args)
  | _, [], _ :: _ => none
  | fresh, arg :: args, param :: params =>
    (generateCastInst fresh arg param).bind fun newarg =>
      (convertArgs (fresh + 1) args params).map fun rest =>
        match newarg with
        | some inst => (inst :: rest.1, .instr inst.ref :: rest.2)
        | none => (rest.1, arg :: rest.2)

/-- The new instructions for a call of a function and the value that replaces the call. -/
def rewriteCall (fresh : ℕ) (f : FunctionDecl) (call : Inst) : Option (List Inst × Value) :=
  (convertArgs fresh call.operands f.params).bind fun new =>
    if new.2.length = f.params.length ∨ f.isVarArg ∧ new.2.length > f.params.length then
      let newCall : Inst :=
        ⟨⟨fresh + f.params.length, f.returnType⟩, .call (.function f), new.2, call.metadata⟩
      if newCall.ref.type ≠ call.ref.type then
        (generateCastInst (fresh + f.params.length + 1) (.instr newCall.ref) call.ref.type).bind
          fun result => result.map fun result =>
            (new.1 ++ [newCall, result], .instr result.ref)
      else some (new.1 ++ [newCall], .instr newCall.ref)
    else none

/-- The numbers that a rewritten call takes up. -/
def FunctionDecl.numbers (f : FunctionDecl) : ℕ := f.params.length + 2

/-! ## The pass -/

/-- `Value::replaceAllUsesWith`, for one value. -/
def Value.replace (ref : Ref) (new : Value) (v : Value) : Value :=
  if v = .instr ref then new else v

/-- An instruction with other operands. -/
def Inst.mapOperands (σ : Value → Value) (inst : Inst) : Inst :=
  { inst with operands := inst.operands.map σ }

/-- `Instruction::insertBefore`, for several instructions. -/
def insertBefore (ref : Ref) (new : List Inst) (blocks : Blocks) : Blocks :=
  blocks.map (·.flatMap fun inst => if inst.ref = ref then new ++ [inst] else [inst])

/-- `Value::replaceAllUsesWith`. -/
def replaceAllUsesWith (ref : Ref) (new : Value) (blocks : Blocks) : Blocks :=
  blocks.map (·.map (Inst.mapOperands (Value.replace ref new)))

/-- `Instruction::eraseFromParent`. -/
def eraseFromParent (blocks : Blocks) (ref : Ref) : Blocks :=
  blocks.map (·.filter (·.ref ≠ ref))

/-- `Value::users`, as far as they are instructions. -/
def users (blocks : Blocks) (ref : Ref) : List Ref :=
  (blocks.flatten.filter fun inst => .instr ref ∈ inst.operands).map Inst.ref

/-- The state of the walk: the body, the next number and `deleted_instructions_`. -/
structure State where
  blocks : Blocks
  fresh : ℕ
  deleted : List Ref

/-- `visitCallInst`. -/
def visitCallInst (s : State) (call : Inst) : Option State :=
  match call.op with
  | .call (.bitcast (.function f)) =>
    (rewriteCall s.fresh f call).map fun new =>
      { blocks := replaceAllUsesWith call.ref new.2 (insertBefore call.ref new.1 s.blocks)
        fresh := s.fresh + f.numbers
        deleted := s.deleted ++ [call.ref] }
  | .call (.bitcast (.other _)) => none
  | _ => some s

/-- One step of the walk: the instruction is looked at as it is by then. -/
def visitInst (s : State) (ref : Ref) : Option State :=
  match s.blocks.flatten.find? (·.ref = ref) with
  | some inst => visitCallInst s inst
  | none => some s

/-- Erase a call, and its users before. -/
def deleteInst (blocks : Blocks) (ref : Ref) : Blocks :=
  eraseFromParent ((users blocks ref).foldl eraseFromParent blocks) ref

/-- `runOnFunction`. -/
def runOnFunction (F : Function) : Option Blocks :=
  ((F.blocks.flatten.map Inst.ref).foldlM visitInst ⟨F.blocks, F.fresh, []⟩).map fun s =>
    s.deleted.foldl deleteInst s.blocks

/-! ## What is asked of the pass -/

/-- What the code relies on outside of it: the bits of a pointer, and the conversions between bit
patterns of floating point numbers and unsigned integers, of which only the number one matters. -/
structure Target where
  pointerBits : ℕ → ℕ
  toUI : FloatKind → ℕ → ℕ → ℕ
  ofUI : FloatKind → ℕ → ℕ
  toUI_one : ∀ kind bits, toUI kind bits kind.one = 1
  ofUI_one : ∀ kind, ofUI kind 1 = kind.one

/-- The bits of a value of a type. -/
def Target.bits (target : Target) : Ty → ℕ
  | .integer bits => bits
  | .floating kind => kind.bits
  | .pointer _ space => target.pointerBits space
  | .void | .aggregate _ | .other _ => 0

/-- What a conversion makes of a bit pattern. -/
def CastOp.apply (target : Target) (op : CastOp) (source dest : Ty) (x : ℕ) : ℕ :=
  match op, source, dest with
  | .ptrToInt, _, _ | .trunc, _, _ => x % 2 ^ target.bits dest
  | .fpToUI, .floating kind, _ => target.toUI kind (target.bits dest) x
  | .uiToFP, _, .floating kind => target.ofUI kind x
  | _, _, _ => x

/-- A value may be this bit pattern: a constant is the one it is. -/
def Value.MayBe (target : Target) (v : Value) (x : ℕ) : Prop :=
  match v with
  | .constant _ bits => x = bits
  | v => x < 2 ^ target.bits v.getType

/-- Two bit patterns agree on the bits that two types have in common. -/
def Agree (target : Target) (source dest : Ty) (x y : ℕ) : Prop :=
  x % 2 ^ min (target.bits source) (target.bits dest) =
    y % 2 ^ min (target.bits source) (target.bits dest)

/-- A conversion keeps the common bits of whatever an argument may be. -/
def Faithful (target : Target) (op : CastOp) (arg : Value) (dest : Ty) : Prop :=
  ∀ x, arg.MayBe target x → Agree target arg.getType dest (op.apply target arg.getType dest x) x

/-- A new argument is the old one or its conversion to the parameter's type, which keeps the common
bits. -/
def Passed (target : Target) (casts : List Inst) (arg : Value) (param : Ty) (new : Value) : Prop :=
  (arg.getType = param ∧ new = arg) ∨
    ∃ cast ∈ casts, ∃ op, castOp arg.getType param = some op ∧ cast.op = .cast op ∧
      cast.operands = [arg] ∧ cast.ref.type = param ∧ new = .instr cast.ref ∧
      Faithful target op arg param

/-- All arguments are passed, and those without a parameter are unchanged. -/
def PassedAll (target : Target) (casts : List Inst) :
    List Value → List Ty → List Value → Prop
  | args, [], new => new = args
  | arg :: args, param :: params, new :: rest =>
    Passed target casts arg param new ∧ PassedAll target casts args params rest
  | _, _, _ => False

/-- The result of a new call, converted if the types differ, is what all uses of the old result
became. -/
def Replaced (σ : Value → Value) (old newCall : Inst) (tail : List Inst) : Prop :=
  (tail = [] ∧ newCall.ref.type = old.ref.type ∧ σ (.instr old.ref) = .instr newCall.ref) ∨
    ∃ result op, tail = [result] ∧ castOp newCall.ref.type old.ref.type = some op ∧
      result.op = .cast op ∧ result.operands = [.instr newCall.ref] ∧
      result.ref.type = old.ref.type ∧ σ (.instr old.ref) = .instr result.ref

/-- **A call through a bitcast is replaced by a direct call of the same function**, with new
instructions only. -/
def Direct (target : Target) (fresh : ℕ) (σ : Value → Value) (old : Inst) (new : List Inst) :
    Prop :=
  ∃ f casts newCall tail, old.op = .call (.bitcast (.function f)) ∧
    new = casts ++ newCall :: tail ∧
    (∀ inst ∈ new, fresh ≤ inst.ref.id) ∧ (∀ cast ∈ casts, ∃ op, cast.op = .cast op) ∧
    newCall.op = .call (.function f) ∧ newCall.ref.type = f.returnType ∧
    newCall.metadata = old.metadata ∧
    PassedAll target casts (old.operands.map σ) f.params newCall.operands ∧
    Replaced σ old newCall tail

/-- **The pass preserves calls.**  Under one substitution of results, each instruction is at its
place as it was, or it is a call that was replaced; results that are substituted are those of
replaced calls. -/
def Preserves (target : Target) (F : Function) (after : Blocks) : Prop :=
  ∃ (σ : Value → Value) (piece : Inst → List Inst),
    after = F.blocks.map (·.flatMap piece) ∧
    (∀ inst ∈ F.blocks.flatten, piece inst = [inst.mapOperands σ] ∨
      Direct target F.fresh σ inst (piece inst)) ∧
    ∀ v, σ v = v ∨ ∃ inst ∈ F.blocks.flatten,
      v = .instr inst.ref ∧ Direct target F.fresh σ inst (piece inst)

/-! ## What a call needs -/

/-- The types that the table converts. -/
def Convertible : Ty → Ty → Prop
  | .pointer _ space, .pointer _ space' => space = space'
  | .pointer _ _, .integer _ | .integer _, .integer _ | .floating _, .integer _
  | .integer _, .floating _ => True
  | source, target => source = target

/-- **A call fits a function**: there is an argument for each parameter, further ones if the
function takes them, and all types convert. -/
structure Fits (f : FunctionDecl) (call : Inst) : Prop where
  params_le : f.params.length ≤ call.operands.length
  extra : call.operands.length = f.params.length ∨ f.isVarArg
  args : ∀ pair ∈ call.operands.zip f.params, Convertible pair.1.getType pair.2
  result : Convertible f.returnType call.ref.type

/-- The conversions that keep the bits of whatever the argument may be: between integers and
floating point numbers, only those of constants that happen to agree with the number they become. -/
def KeepsBits (target : Target) (arg : Value) (param : Ty) : Prop :=
  match arg.getType, param with
  | .floating kind, .integer bits => ∃ type x, arg = .constant type x ∧
      Agree target (.floating kind) (.integer bits) (target.toUI kind bits x) x
  | .integer bits, .floating kind => ∃ type x, arg = .constant type x ∧
      Agree target (.integer bits) (.floating kind) (target.ofUI kind x) x
  | _, _ => True

theorem castOp_isValid_iff {source target : Ty} (hne : source ≠ target) :
    (∃ op, castOp source target = some op ∧ castIsValid op source target) ↔
      Convertible source target := by
  cases source <;> cases target
  case integer.integer bits bits' =>
    have hbits : bits ≠ bits' := fun h => hne (h ▸ rfl)
    refine iff_of_true ⟨_, rfl, ?_⟩ trivial
    by_cases hlt : bits' < bits
    · rw [if_pos hlt]
      exact decide_eq_true hlt
    · rw [if_neg hlt]
      exact decide_eq_true (lt_of_le_of_ne (not_lt.1 hlt) hbits)
  case floating.floating kind kind' => simpa [castOp, Convertible] using hne
  all_goals simp_all [castOp, castIsValid, Convertible]

/-- **A call can be rewritten**: if its callee is a bitcast, then of a function that it fits. -/
def Rewritable (call : Inst) : Prop :=
  ∀ casted, call.op = .call (.bitcast casted) → ∃ f, casted = .function f ∧ Fits f call

theorem convertible_self (type : Ty) : Convertible type type := by
  cases type <;> simp [Convertible]

/-- There is an instruction for different types that convert. -/
theorem generateCastInst_of_ne {fresh : ℕ} {val : Value} {target : Ty}
    (hne : val.getType ≠ target) (inst : Option Inst) :
    generateCastInst fresh val target = some inst ↔ ∃ op, castOp val.getType target = some op ∧
      castIsValid op val.getType target ∧ inst = some ⟨⟨fresh, target⟩, .cast op, [val], []⟩ := by
  rw [generateCastInst, if_neg hne, Option.bind_eq_some_iff]
  refine exists_congr fun op => and_congr_right fun _ => ?_
  split
  · next hvalid => rw [Option.some_inj, and_iff_right hvalid, eq_comm]
  · next hinvalid => exact iff_of_false nofun fun h => hinvalid h.1

theorem isSome_generateCastInst_iff (fresh : ℕ) (val : Value) (target : Ty) :
    (generateCastInst fresh val target).isSome ↔ Convertible val.getType target := by
  by_cases heq : val.getType = target
  · rw [generateCastInst, if_pos heq, heq]
    exact iff_of_true rfl (convertible_self target)
  · rw [← castOp_isValid_iff heq, Option.isSome_iff_exists]
    simp only [generateCastInst_of_ne heq]
    constructor
    · rintro ⟨-, op, hop, hvalid, -⟩
      exact ⟨op, hop, hvalid⟩
    · rintro ⟨op, hop, hvalid⟩
      exact ⟨_, op, hop, hvalid, rfl⟩

theorem isSome_convertArgs_iff (fresh : ℕ) (args : List Value) (params : List Ty) :
    (convertArgs fresh args params).isSome ↔ params.length ≤ args.length ∧
      ∀ pair ∈ args.zip params, Convertible pair.1.getType pair.2 := by
  induction params generalizing fresh args with
  | nil => simp [convertArgs]
  | cons param params ih =>
      cases args with
      | nil => simp [convertArgs]
      | cons arg args =>
          have hhead := isSome_generateCastInst_iff fresh arg param
          rw [convertArgs, List.zip_cons_cons, List.forall_mem_cons, ← hhead,
            List.length_cons, List.length_cons, Nat.succ_le_succ_iff]
          cases generateCastInst fresh arg param with
          | none => simp
          | some newarg =>
              simp only [Option.bind_some, Option.isSome_map, ih, Option.isSome_some, true_and]

theorem ref_of_generateCastInst {fresh : ℕ} {val : Value} {target : Ty} {inst : Inst}
    (h : generateCastInst fresh val target = some (some inst)) :
    ∃ op, castOp val.getType target = some op ∧ inst = ⟨⟨fresh, target⟩, .cast op, [val], []⟩ := by
  by_cases heq : val.getType = target
  · rw [generateCastInst, if_pos heq] at h
    cases h
  · obtain ⟨op, hop, -, hinst⟩ := (generateCastInst_of_ne heq _).1 h
    exact ⟨op, hop, Option.some.inj hinst⟩

/-- **What one argument contributes**: itself where its type is right, a conversion elsewhere. -/
theorem convertArgs_cons {fresh : ℕ} {arg : Value} {args : List Value} {param : Ty}
    {params : List Ty} {new : List Inst × List Value}
    (h : convertArgs fresh (arg :: args) (param :: params) = some new) :
    ∃ rest, convertArgs (fresh + 1) args params = some rest ∧
      ((arg.getType = param ∧ new = (rest.1, arg :: rest.2)) ∨
        ∃ op, castOp arg.getType param = some op ∧
          new = (⟨⟨fresh, param⟩, .cast op, [arg], []⟩ :: rest.1,
            .instr ⟨fresh, param⟩ :: rest.2)) := by
  rw [convertArgs] at h
  obtain ⟨newarg, hnewarg, h⟩ := Option.bind_eq_some_iff.1 h
  obtain ⟨rest, hrest, rfl⟩ := Option.map_eq_some_iff.1 h
  refine ⟨rest, hrest, ?_⟩
  cases newarg with
  | none =>
      refine Or.inl ⟨?_, rfl⟩
      by_contra hne
      obtain ⟨op, -, -, heq⟩ := (generateCastInst_of_ne hne _).1 hnewarg
      cases heq
  | some inst =>
      obtain ⟨op, hop, rfl⟩ := ref_of_generateCastInst hnewarg
      exact Or.inr ⟨op, hop, rfl⟩

theorem length_convertArgs {fresh : ℕ} {args : List Value} {params : List Ty}
    {new : List Inst × List Value} (h : convertArgs fresh args params = some new) :
    new.2.length = args.length := by
  induction params generalizing fresh args new with
  | nil =>
      rw [convertArgs, Option.some_inj] at h
      exact h ▸ rfl
  | cons param params ih =>
      cases args with
      | nil => cases h
      | cons arg args =>
          obtain ⟨rest, hrest, ⟨-, rfl⟩ | ⟨op, -, rfl⟩⟩ := convertArgs_cons h
          · simp [ih hrest]
          · simp [ih hrest]

/-- **A call is rewritten exactly when it fits.** -/
theorem isSome_rewriteCall_iff (fresh : ℕ) (f : FunctionDecl) (call : Inst) :
    (rewriteCall fresh f call).isSome ↔ Fits f call := by
  have hargs := isSome_convertArgs_iff fresh call.operands f.params
  have hfits : Fits f call ↔ (f.params.length ≤ call.operands.length ∧
      ∀ pair ∈ call.operands.zip f.params, Convertible pair.1.getType pair.2) ∧
      (call.operands.length = f.params.length ∨ f.isVarArg) ∧
      Convertible f.returnType call.ref.type :=
    ⟨fun h => ⟨⟨h.params_le, h.args⟩, h.extra, h.result⟩,
      fun h => ⟨h.1.1, h.2.1, h.1.2, h.2.2⟩⟩
  rw [hfits, ← hargs, rewriteCall]
  cases hnew : convertArgs fresh call.operands f.params with
  | none => simp
  | some new =>
      have hlength := length_convertArgs hnew
      have hle : f.params.length ≤ call.operands.length := (hargs.1 (hnew ▸ rfl)).1
      have hextra : (new.2.length = f.params.length ∨
          f.isVarArg ∧ new.2.length > f.params.length) ↔
          (call.operands.length = f.params.length ∨ f.isVarArg) := by
        rw [hlength]
        constructor
        · exact fun h => h.imp id And.left
        · rintro (h | h)
          · exact Or.inl h
          · exact (Nat.eq_or_lt_of_le hle).imp Eq.symm fun hlt => ⟨h, hlt⟩
      simp only [Option.bind_some, Option.isSome_some, true_and, hextra]
      by_cases hcount : call.operands.length = f.params.length ∨ f.isVarArg
      · rw [if_pos hcount, and_iff_right hcount]
        split
        · next hne =>
          rw [← castOp_isValid_iff hne, Option.isSome_iff_exists]
          constructor
          · rintro ⟨_, hsome⟩
            obtain ⟨result, hresult, -⟩ := Option.bind_eq_some_iff.1 hsome
            obtain ⟨op, hop, hvalid, -⟩ :=
              (@generateCastInst_of_ne _ (.instr ⟨_, f.returnType⟩) _ hne result).1 hresult
            exact ⟨op, hop, hvalid⟩
          · rintro ⟨op, hop, hvalid⟩
            have hresult := (@generateCastInst_of_ne (fresh + f.params.length + 1)
              (.instr ⟨fresh + f.params.length, f.returnType⟩) _ hne _).2 ⟨op, hop, hvalid, rfl⟩
            exact ⟨_, Option.bind_eq_some_iff.2 ⟨_, hresult, rfl⟩⟩
        · next heq =>
          refine iff_of_true rfl ?_
          rw [show f.returnType = call.ref.type from not_not.1 heq]
          exact convertible_self _
      · rw [if_neg hcount]
        simp [hcount]

/-! ## Operands under a substitution -/

/-- A substitution of values that are not new, by values of the same types. -/
structure Keeps (fresh : ℕ) (σ : Value → Value) : Prop where
  getType : ∀ v, (σ v).getType = v.getType
  instr : ∀ ref : Ref, fresh ≤ ref.id → σ (.instr ref) = .instr ref

theorem Keeps.mono {fresh larger : ℕ} {σ : Value → Value} (h : Keeps fresh σ)
    (hle : fresh ≤ larger) : Keeps larger σ :=
  ⟨h.getType, fun ref href => h.instr ref (hle.trans href)⟩

theorem generateCastInst_map {fresh bound : ℕ} {σ : Value → Value} (h : Keeps bound σ)
    (val : Value) (target : Ty) : generateCastInst fresh (σ val) target =
      (generateCastInst fresh val target).map (·.map (Inst.mapOperands σ)) := by
  rw [generateCastInst, generateCastInst, h.getType]
  split
  · rfl
  · cases castOp val.getType target with
    | none => rfl
    | some op =>
        simp only [Option.bind_some]
        split <;> rfl

theorem convertArgs_map {fresh : ℕ} {σ : Value → Value} (h : Keeps fresh σ) (args : List Value)
    (params : List Ty) : convertArgs fresh (args.map σ) params =
      (convertArgs fresh args params).map fun new =>
        (new.1.map (Inst.mapOperands σ), new.2.map σ) := by
  induction params generalizing fresh args with
  | nil => simp [convertArgs]
  | cons param params ih =>
      cases args with
      | nil => rfl
      | cons arg args =>
          rw [List.map_cons, convertArgs, convertArgs, generateCastInst_map h,
            ih (h.mono (Nat.le_succ fresh))]
          cases hnew : generateCastInst fresh arg param with
          | none => rfl
          | some newarg =>
              simp only [Option.map_some, Option.bind_some, Option.map_map]
              congr 1
              funext rest
              cases newarg with
              | none => rfl
              | some inst =>
                  obtain ⟨op, -, rfl⟩ := ref_of_generateCastInst hnew
                  simp [Inst.mapOperands, h.instr]

/-- **Rewriting a call commutes with a substitution.** -/
theorem rewriteCall_map {fresh : ℕ} {σ : Value → Value} (h : Keeps fresh σ) (f : FunctionDecl)
    (call : Inst) : rewriteCall fresh f (call.mapOperands σ) =
      (rewriteCall fresh f call).map fun new => (new.1.map (Inst.mapOperands σ), new.2) := by
  rw [rewriteCall, rewriteCall, Inst.mapOperands, convertArgs_map h]
  cases convertArgs fresh call.operands f.params with
  | none => rfl
  | some new =>
      simp only [Option.map_some, Option.bind_some, List.length_map]
      split
      · split
        · next hne =>
          cases hresult : generateCastInst (fresh + f.params.length + 1)
              (.instr ⟨fresh + f.params.length, f.returnType⟩) call.ref.type with
          | none => rfl
          | some result =>
              cases result with
              | none => rfl
              | some inst =>
                  obtain ⟨op, -, rfl⟩ := ref_of_generateCastInst hresult
                  simp [Inst.mapOperands, h.instr]
        · simp [Inst.mapOperands]
      · rfl

/-! ## What a rewritten call is -/

/-- What `rewriteCall` is, apart from the bits that conversions keep. -/
structure Rewritten (fresh : ℕ) (f : FunctionDecl) (call : Inst) (new : List Inst)
    (replacement : Value) : Prop where
  fresh_le : ∀ inst ∈ new, fresh ≤ inst.ref.id
  operands : ∀ inst ∈ new, ∀ v ∈ inst.operands,
    v ∈ call.operands ∨ ∃ ref : Ref, fresh ≤ ref.id ∧ v = .instr ref
  replacement : ∃ ref : Ref, replacement = .instr ref ∧ fresh ≤ ref.id ∧ ref.type = call.ref.type

theorem convertArgs_spec {fresh : ℕ} {args : List Value} {params : List Ty}
    {new : List Inst × List Value} (h : convertArgs fresh args params = some new) :
    (∀ inst ∈ new.1, fresh ≤ inst.ref.id ∧ (∃ op, inst.op = .cast op) ∧
      ∀ v ∈ inst.operands, v ∈ args) ∧
    ∀ v ∈ new.2, v ∈ args ∨ ∃ ref : Ref, fresh ≤ ref.id ∧ v = .instr ref := by
  induction params generalizing fresh args new with
  | nil =>
      rw [convertArgs, Option.some_inj] at h
      subst h
      exact ⟨fun inst hinst => absurd hinst List.not_mem_nil, fun v hv => Or.inl hv⟩
  | cons param params ih =>
      cases args with
      | nil => cases h
      | cons arg args =>
          obtain ⟨rest, hrest, hnew⟩ := convertArgs_cons h
          -- what the other arguments contribute is numbered from the next number on
          obtain ⟨hinsts, hvalues⟩ := ih hrest
          have hinsts : ∀ inst ∈ rest.1, fresh ≤ inst.ref.id ∧ (∃ op, inst.op = .cast op) ∧
              ∀ v ∈ inst.operands, v ∈ arg :: args := fun inst hinst =>
            ⟨Nat.le_of_succ_le (hinsts inst hinst).1, (hinsts inst hinst).2.1,
              fun v hv => List.mem_cons_of_mem _ ((hinsts inst hinst).2.2 v hv)⟩
          have hvalues : ∀ v ∈ rest.2, v ∈ arg :: args ∨
              ∃ ref : Ref, fresh ≤ ref.id ∧ v = .instr ref := fun v hv =>
            (hvalues v hv).imp (List.mem_cons_of_mem _) fun ⟨ref, hle, heq⟩ =>
              ⟨ref, Nat.le_of_succ_le hle, heq⟩
          rcases hnew with ⟨-, rfl⟩ | ⟨op, -, rfl⟩
          · refine ⟨hinsts, fun v hv => ?_⟩
            rcases List.mem_cons.1 hv with rfl | hv
            · exact Or.inl List.mem_cons_self
            · exact hvalues v hv
          · refine ⟨fun inst hinst => ?_, fun v hv => ?_⟩
            · rcases List.mem_cons.1 hinst with rfl | hinst
              · refine ⟨Nat.le_refl _, ⟨op, rfl⟩, fun v hv => ?_⟩
                exact List.mem_singleton.1 hv ▸ List.mem_cons_self
              · exact hinsts inst hinst
            · rcases List.mem_cons.1 hv with rfl | hv
              · exact Or.inr ⟨⟨fresh, param⟩, Nat.le_refl _, rfl⟩
              · exact hvalues v hv

/-- The form of a rewritten call. -/
theorem rewriteCall_eq_some {fresh : ℕ} {f : FunctionDecl} {call : Inst} {new : List Inst × Value}
    (h : rewriteCall fresh f call = some new) :
    ∃ casts args tail, convertArgs fresh call.operands f.params = some (casts, args) ∧
      new.1 = casts ++ ⟨⟨fresh + f.params.length, f.returnType⟩, .call (.function f), args,
        call.metadata⟩ :: tail ∧
      ((tail = [] ∧ f.returnType = call.ref.type ∧
          new.2 = .instr ⟨fresh + f.params.length, f.returnType⟩) ∨
        ∃ op, castOp f.returnType call.ref.type = some op ∧
          tail = [⟨⟨fresh + f.params.length + 1, call.ref.type⟩, .cast op,
            [.instr ⟨fresh + f.params.length, f.returnType⟩], []⟩] ∧
          new.2 = .instr ⟨fresh + f.params.length + 1, call.ref.type⟩) := by
  rw [rewriteCall] at h
  obtain ⟨⟨casts, args⟩, hargs, h⟩ := Option.bind_eq_some_iff.1 h
  dsimp only at h
  split at h
  · split at h
    · next hne =>
      obtain ⟨result, hresult, h⟩ := Option.bind_eq_some_iff.1 h
      obtain ⟨inst, rfl, rfl⟩ := Option.map_eq_some_iff.1 h
      obtain ⟨op, hop, rfl⟩ := ref_of_generateCastInst hresult
      exact ⟨casts, args, _, hargs, rfl, Or.inr ⟨op, hop, rfl, rfl⟩⟩
    · next heq =>
      cases h
      exact ⟨casts, args, [], hargs, rfl, Or.inl ⟨rfl, not_not.1 heq, rfl⟩⟩
  · cases h

theorem rewritten_of_rewriteCall {fresh : ℕ} {f : FunctionDecl} {call : Inst}
    {new : List Inst × Value} (h : rewriteCall fresh f call = some new) :
    Rewritten fresh f call new.1 new.2 := by
  obtain ⟨casts, args, tail, hargs, hnew, htail⟩ := rewriteCall_eq_some h
  obtain ⟨hcasts, hvalues⟩ := convertArgs_spec hargs
  have htail_spec : ∀ inst ∈ tail, fresh ≤ inst.ref.id ∧
      ∀ v ∈ inst.operands, ∃ ref : Ref, fresh ≤ ref.id ∧ v = .instr ref := by
    -- behind the new call there is at most the conversion of its result
    rcases htail with ⟨rfl, -, -⟩ | ⟨op, -, rfl, -⟩
    · exact fun inst hinst => absurd hinst List.not_mem_nil
    · intro inst hinst
      rw [List.mem_singleton.1 hinst]
      refine ⟨by dsimp only; omega, fun v hv => ?_⟩
      exact ⟨_, Nat.le_add_right _ _, List.mem_singleton.1 hv⟩
  refine ⟨fun inst hinst => ?_, fun inst hinst v hv => ?_, ?_⟩
  · rw [hnew] at hinst
    rcases List.mem_append.1 hinst with hinst | hinst
    · exact (hcasts inst hinst).1
    rcases List.mem_cons.1 hinst with rfl | hinst
    · exact Nat.le_add_right _ _
    · exact (htail_spec inst hinst).1
  · rw [hnew] at hinst
    rcases List.mem_append.1 hinst with hinst | hinst
    · exact Or.inl ((hcasts inst hinst).2.2 v hv)
    rcases List.mem_cons.1 hinst with rfl | hinst
    · exact hvalues v hv
    · exact Or.inr ((htail_spec inst hinst).2 v hv)
  · rcases htail with ⟨-, htype, hvalue⟩ | ⟨op, -, -, hvalue⟩
    · exact ⟨_, hvalue, Nat.le_add_right _ _, htype⟩
    · exact ⟨_, hvalue, by dsimp only; omega, rfl⟩

/-! ## Which conversions keep bits -/

theorem FloatKind.one_lt (kind : FloatKind) : kind.one < 2 ^ kind.bits := by
  cases kind <;> decide

theorem FloatKind.one_even (kind : FloatKind) : kind.one % 2 = 0 := by
  cases kind <;> rfl

theorem FloatKind.bits_pos (kind : FloatKind) : 0 < kind.bits := by
  cases kind <;> decide

/-- The number one and its bit pattern differ in the lowest bit. -/
theorem one_mod_ne (kind : FloatKind) {bits : ℕ} (h : 0 < bits) :
    1 % 2 ^ bits ≠ kind.one % 2 ^ bits := by
  intro heq
  have hdvd : 2 ∣ 2 ^ bits := dvd_pow_self 2 h.ne'
  have hmod : 1 % 2 = kind.one % 2 := by
    calc 1 % 2 = 1 % 2 ^ bits % 2 := (Nat.mod_mod_of_dvd 1 hdvd).symm
      _ = kind.one % 2 ^ bits % 2 := by rw [heq]
      _ = kind.one % 2 := Nat.mod_mod_of_dvd _ hdvd
  rw [kind.one_even] at hmod
  exact absurd hmod (by decide)

/-- Cutting down to the bits of a type keeps the common bits. -/
theorem agree_mod (target : Target) (source dest : Ty) (x : ℕ) :
    Agree target source dest (x % 2 ^ target.bits dest) x :=
  Nat.mod_mod_of_dvd x (Nat.pow_dvd_pow 2 (Nat.min_le_right _ _))

theorem faithful_constant_iff (target : Target) (op : CastOp) (type : Ty) (x : ℕ) (param : Ty) :
    Faithful target op (.constant type x) param ↔
      Agree target type param (op.apply target type param x) x :=
  ⟨fun h => h x rfl, fun h _ hx => hx ▸ h⟩

/-- A conversion between integers and floating point numbers does not keep the number one. -/
theorem not_faithful_fpToUI (target : Target) {arg : Value} {kind : FloatKind} {bits : ℕ+}
    (htype : arg.getType = .floating kind) (hmaybe : arg.MayBe target kind.one) :
    ¬ Faithful target .fpToUI arg (.integer bits) := by
  intro h
  have hone := h kind.one hmaybe
  rw [htype, Agree, CastOp.apply, target.toUI_one] at hone
  exact one_mod_ne kind (lt_min kind.bits_pos bits.pos) hone

theorem not_faithful_uiToFP (target : Target) {arg : Value} {kind : FloatKind} {bits : ℕ+}
    (htype : arg.getType = .integer bits) (hmaybe : arg.MayBe target 1) :
    ¬ Faithful target .uiToFP arg (.floating kind) := by
  intro h
  have hone := h 1 hmaybe
  rw [htype, Agree, CastOp.apply, target.ofUI_one] at hone
  exact one_mod_ne kind (lt_min bits.pos kind.bits_pos) hone.symm

/-- What a value that is no constant may be. -/
theorem mayBe_of_lt {target : Target} {v : Value} {x : ℕ} (hv : ∀ type y, v ≠ .constant type y)
    (hx : x < 2 ^ target.bits v.getType) : v.MayBe target x := by
  cases v with
  | constant type y => exact absurd rfl (hv type y)
  | instr ref | other name type => exact hx

/-- Apart from the conversions of numbers, a bit pattern is kept or cut down. -/
theorem apply_of_castOp {source dest : Ty} {op : CastOp} (hop : castOp source dest = some op) :
    (∃ kind bits, source = .floating kind ∧ dest = .integer bits) ∨
      (∃ bits kind, source = .integer bits ∧ dest = .floating kind) ∨
      ∀ target x, op.apply target source dest x = x ∨
        op.apply target source dest x = x % 2 ^ target.bits dest := by
  unfold castOp at hop
  split at hop
  · cases hop
    exact Or.inr (Or.inr fun _ _ => Or.inl rfl)
  · cases hop
    exact Or.inr (Or.inr fun _ _ => Or.inr rfl)
  · cases hop
    exact Or.inr (Or.inr fun _ _ => Or.inr rfl)
  · cases hop
    refine Or.inr (Or.inr fun _ _ => ?_)
    split
    · exact Or.inr rfl
    · exact Or.inl rfl
  · exact Or.inl ⟨_, _, rfl, rfl⟩
  · exact Or.inr (Or.inl ⟨_, _, rfl, rfl⟩)
  · cases hop

/-- A conversion that not every value survives is right for the constants that agree with what they
become. -/
theorem faithful_iff_exists_constant (target : Target) {op : CastOp} {arg : Value} {param : Ty}
    (hvariable : (∀ type x, arg ≠ .constant type x) → ¬ Faithful target op arg param) :
    Faithful target op arg param ↔ ∃ type x, arg = .constant type x ∧
      Agree target type param (op.apply target type param x) x := by
  constructor
  · intro h
    by_cases hconst : ∃ type x, arg = .constant type x
    · obtain ⟨type, x, rfl⟩ := hconst
      exact ⟨type, x, rfl, (faithful_constant_iff target _ _ x _).1 h⟩
    · exact absurd h (hvariable fun type x heq => hconst ⟨type, x, heq⟩)
  · rintro ⟨type, x, rfl, hagree⟩
    exact (faithful_constant_iff target _ _ x _).2 hagree

/-- **The conversions of the table keep bits exactly if the argument says so.** -/
theorem faithful_iff (target : Target) {op : CastOp} {arg : Value} {param : Ty}
    (hop : castOp arg.getType param = some op) :
    Faithful target op arg param ↔ KeepsBits target arg param := by
  unfold KeepsBits
  split
  · next kind bits htype =>
    rw [htype] at hop
    cases hop
    rw [faithful_iff_exists_constant target fun hvariable => ?_]
    · refine exists₂_congr fun type x => and_congr_right fun heq => ?_
      subst heq
      cases htype
      rfl
    · apply not_faithful_fpToUI target htype
      apply mayBe_of_lt hvariable
      rw [htype]
      exact kind.one_lt
  · next bits kind htype =>
    rw [htype] at hop
    cases hop
    rw [faithful_iff_exists_constant target fun hvariable => ?_]
    · refine exists₂_congr fun type x => and_congr_right fun heq => ?_
      subst heq
      cases htype
      rfl
    · apply not_faithful_uiToFP target htype
      apply mayBe_of_lt hvariable
      rw [htype]
      exact Nat.one_lt_two_pow bits.pos.ne'
  · next _ _ hfpToUI huiToFP =>
    -- every other conversion of the table keeps a bit pattern or cuts it down
    refine iff_of_true (fun x _ => ?_) trivial
    rcases apply_of_castOp hop with ⟨kind, bits, hkind, hbits⟩ | ⟨bits, kind, hbits, hkind⟩ | hcut
    · exact absurd hbits (hfpToUI kind bits hkind)
    · exact absurd hkind (huiToFP bits kind hbits)
    · rcases hcut target x with hkept | hmod
      · rw [hkept]
        rfl
      · rw [hmod]
        exact agree_mod target _ _ x

end FunctionBitCastKiller

end Borealis
