import Borealis.Passes.CallGraphSlicer
import Mathlib.Logic.Relation

/-!
# Functions that executions call

An execution is followed as far as it decides which functions are called: the functions on the
stack, and the functions whose addresses the program has got hold of so far.  Every instruction of a
function may come next, and a call through a pointer may reach every known function.  A function
without a body may call back what it could be told of.

The slicer overlooks a function when all that uses its address are calls with a bitcast of it.  Such
a function is lost when one of these calls is executed, or hands the bitcast over before the program
calls through a pointer.

## Strategy

As long as no function is lost, the functions on the stack and the known ones lead back to roots and
functions whose address is taken (`Holds`), and one step keeps that.  In the other direction an
execution that has read the bitcast returns to the root and starts again, now knowing more
(`Step.mono`).
-/

namespace Borealis.CallGraphSlicer

variable {Fn : Type}

/-! ## Executions -/

/-- The function that a callee stands for when it is not a pointer. -/
def Operand.target : Operand Fn → Option Fn
  | .function f => some f
  | .bitcast _ operand => operand.target
  | _ => none

theorem Operand.mem_mentioned_of_target {f : Fn} : ∀ {op : Operand Fn}, op.target = some f →
    f ∈ op.mentioned
  | .function g, h => by
    obtain rfl := Option.some.inj h
    exact List.mem_singleton.2 rfl
  | .bitcast type operand, h => @mem_mentioned_of_target f operand h
  | .constantExpr _ _, h | .aggregate _, h | .other, h => absurd h.symm (Option.some_ne_none f)

namespace Instruction

/-- The function that a call names, also under a bitcast. -/
def target : Instruction Fn → Option Fn
  | call callee _ | invoke callee _ => callee.target
  | other _ => none

/-- The instruction calls through a pointer. -/
def callsPointer : Instruction Fn → Bool
  | call callee _ | invoke callee _ => callee.target.isNone
  | other _ => false

/-- The functions whose addresses the instruction reads. -/
def addresses : Instruction Fn → List Fn
  | call callee args | invoke callee args =>
    args.flatMap Operand.mentioned ++ if callee.target.isSome then [] else callee.mentioned
  | other operands => operands.flatMap Operand.mentioned

/-- An address is read from an operand, other than a callee that is no pointer. -/
theorem exists_of_mem_addresses {i : Instruction Fn} {f : Fn} (hf : f ∈ i.addresses) :
    ∃ op ∈ i.operands, f ∈ op.mentioned ∧
      ∀ callee args, i = call callee args → op ∈ args ∨ op.target = none := by
  have hcall : ∀ {callee : Operand Fn} {args : List (Operand Fn)},
      f ∈ args.flatMap Operand.mentioned ++
        (if callee.target.isSome then [] else callee.mentioned) →
      ∃ op ∈ args ++ [callee], f ∈ op.mentioned ∧ (op ∈ args ∨ op.target = none) := by
    intro callee args hf
    rcases List.mem_append.1 hf with hf | hf
    · obtain ⟨op, hop, hf⟩ := List.mem_flatMap.1 hf
      exact ⟨op, List.mem_append_left _ hop, hf, Or.inl hop⟩
    · split_ifs at hf with htarget
      · exact absurd hf List.not_mem_nil
      · exact ⟨callee, List.mem_append_right _ (List.mem_singleton.2 rfl), hf,
          Or.inr (Option.not_isSome_iff_eq_none.1 htarget)⟩
  cases i with
  | call callee args =>
      obtain ⟨op, hop, hf, hcases⟩ := hcall hf
      refine ⟨op, hop, hf, ?_⟩
      rintro _ _ ⟨⟩
      exact hcases
  | invoke callee args =>
      obtain ⟨op, hop, hf, _⟩ := hcall hf
      exact ⟨op, hop, hf, fun _ _ heq => Instruction.noConfusion rfl (heq_of_eq heq)⟩
  | other operands =>
      obtain ⟨op, hop, hf⟩ := List.mem_flatMap.1 hf
      exact ⟨op, hop, hf, fun _ _ heq => Instruction.noConfusion rfl (heq_of_eq heq)⟩

end Instruction

/-- The functions on the stack, and the functions whose addresses are known. -/
structure Config (Fn : Type) where
  stack : List Fn
  known : List Fn

namespace LlvmModule

variable (M : LlvmModule Fn)

/-- One step of an execution. -/
inductive Step : Config Fn → Config Fn → Prop
  | read {f : Fn} {stack known : List Fn} {body : List (Instruction Fn)} {i : Instruction Fn} :
      M.body f = some body → i ∈ body →
        Step ⟨f :: stack, known⟩ ⟨f :: stack, known ++ i.addresses⟩
  | call {f g : Fn} {stack known : List Fn} {body : List (Instruction Fn)} {i : Instruction Fn} :
      M.body f = some body → i ∈ body → i.target = some g →
        Step ⟨f :: stack, known⟩ ⟨g :: f :: stack, known ++ i.addresses⟩
  | callPointer {f g : Fn} {stack known : List Fn} {body : List (Instruction Fn)}
      {i : Instruction Fn} :
      M.body f = some body → i ∈ body → i.callsPointer = true → g ∈ known ++ i.addresses →
        Step ⟨f :: stack, known⟩ ⟨g :: f :: stack, known ++ i.addresses⟩
  | callBack {f g : Fn} {stack known : List Fn} :
      M.body f = none → g ∈ known → Step ⟨f :: stack, known⟩ ⟨g :: f :: stack, known⟩
  | ret {f : Fn} {stack known : List Fn} : Step ⟨f :: stack, known⟩ ⟨stack, known⟩

/-- An execution from a root: at first the initializers are known. -/
def start (root : Fn) : Config Fn := ⟨[root], M.initializers.flatMap Operand.mentioned⟩

/-- Some execution from the root calls the function. -/
def Callable (root f : Fn) : Prop :=
  ∃ stack known, Relation.ReflTransGen M.Step (M.start root) ⟨f :: stack, known⟩

/-- Running the function may call through a pointer. -/
def MayCallPointer (f : Fn) : Prop :=
  M.body f = none ∨ ∃ body i, M.body f = some body ∧ i ∈ body ∧ i.callsPointer = true

/-! ## More knowledge, further stack -/

variable {M}

/-- What is known stays known, and a step can be made with more of it. -/
theorem Step.mono {c d : Config Fn} (h : M.Step c d) {known : List Fn} (hknown : c.known ⊆ known) :
    ∃ known', M.Step ⟨c.stack, known⟩ ⟨d.stack, known'⟩ ∧ d.known ⊆ known' ∧ known ⊆ known' := by
  cases h with
  | @read f stack _ body i hbody hi =>
      exact ⟨known ++ i.addresses, .read hbody hi,
        List.append_subset.2 ⟨List.Subset.trans hknown (List.subset_append_left _ _),
          List.subset_append_right _ _⟩, List.subset_append_left _ _⟩
  | @call f g stack _ body i hbody hi htarget =>
      exact ⟨known ++ i.addresses, .call hbody hi htarget,
        List.append_subset.2 ⟨List.Subset.trans hknown (List.subset_append_left _ _),
          List.subset_append_right _ _⟩, List.subset_append_left _ _⟩
  | @callPointer f g stack _ body i hbody hi hpointer hg =>
      have hsubset := List.append_subset.2
        ⟨List.Subset.trans hknown (List.subset_append_left known i.addresses),
          List.subset_append_right known i.addresses⟩
      exact ⟨known ++ i.addresses, .callPointer hbody hi hpointer (hsubset hg), hsubset,
        List.subset_append_left _ _⟩
  | callBack hbody hg => exact ⟨known, .callBack hbody (hknown hg), hknown, List.Subset.refl _⟩
  | ret => exact ⟨known, .ret, hknown, List.Subset.refl _⟩

theorem run_mono {c d : Config Fn} (h : Relation.ReflTransGen M.Step c d) {known : List Fn}
    (hknown : c.known ⊆ known) :
    ∃ known', Relation.ReflTransGen M.Step ⟨c.stack, known⟩ ⟨d.stack, known'⟩ ∧
      d.known ⊆ known' ∧ known ⊆ known' := by
  induction h with
  | refl => exact ⟨known, .refl, hknown, List.Subset.refl _⟩
  | tail _ hstep ih =>
      obtain ⟨mid, hrun, hmid, hsub⟩ := ih
      obtain ⟨known', hlast, hknown', hsub'⟩ := hstep.mono hmid
      exact ⟨known', hrun.tail hlast, hknown', List.Subset.trans hsub hsub'⟩

theorem known_subset_of_run {c d : Config Fn} (h : Relation.ReflTransGen M.Step c d) :
    c.known ⊆ d.known := by
  induction h with
  | refl => exact List.Subset.refl _
  | tail _ hstep ih =>
      refine List.Subset.trans ih ?_
      cases hstep with
      | read | call | callPointer => exact List.subset_append_left _ _
      | callBack | ret => exact List.Subset.refl _

/-- The root is at the bottom of the stack. -/
theorem root_at_bottom {root : Fn} {c : Config Fn}
    (h : Relation.ReflTransGen M.Step (M.start root) c) :
    c.stack = [] ∨ ∃ upper, c.stack = upper ++ [root] := by
  induction h with
  | refl => exact Or.inr ⟨[], rfl⟩
  | tail _ hstep ih =>
      cases hstep with
      | read => exact ih
      | call | callPointer | callBack =>
          obtain ⟨upper, hupper⟩ := ih.resolve_left (List.cons_ne_nil _ _)
          exact Or.inr ⟨_ :: upper, congrArg _ hupper⟩
      | @ret f stack known =>
          obtain ⟨upper, hupper⟩ := ih.resolve_left (List.cons_ne_nil _ _)
          rcases upper with _ | ⟨g, upper⟩
          · exact Or.inl (List.cons.inj hupper).2
          · exact Or.inr ⟨upper, (List.cons.inj hupper).2⟩

/-- The upper functions return. -/
theorem run_return (upper stack known : List Fn) :
    Relation.ReflTransGen M.Step ⟨upper ++ stack, known⟩ ⟨stack, known⟩ := by
  induction upper with
  | nil => exact .refl
  | cons f upper ih => exact .head .ret ih

/-- **A function whose address can be read and a pointer call come together in one execution.** -/
theorem callable_of_read {root f g h : Fn} {body : List (Instruction Fn)} {i : Instruction Fn}
    (hf : M.Callable root f) (hbody : M.body f = some body) (hi : i ∈ body)
    (hg : g ∈ i.addresses) (hh : M.Callable root h) (hpointer : M.MayCallPointer h) :
    M.Callable root g := by
  obtain ⟨stack, known, hrun⟩ := hf
  -- read the address, return to the root, and run to the pointer call
  have hread := hrun.tail (.read hbody hi)
  obtain ⟨upper, hupper⟩ := (root_at_bottom hread).resolve_left (List.cons_ne_nil _ _)
  rw [show f :: stack = upper ++ [root] from hupper] at hread
  have hback := hread.trans (run_return upper [root] (known ++ i.addresses))
  obtain ⟨stack', known', hrun'⟩ := hh
  obtain ⟨known'', hagain, _, hsub⟩ := run_mono hrun' (known_subset_of_run hback)
  have hknown : g ∈ known'' := hsub (List.mem_append_right _ hg)
  have hrun'' := hback.trans hagain
  rcases hpointer with hnone | ⟨body', j, hbody', hj, hpointer⟩
  · exact ⟨_, _, hrun''.tail (.callBack hnone hknown)⟩
  · exact ⟨_, _, hrun''.tail (.callPointer hbody' hj hpointer (List.mem_append_left _ hknown))⟩

/-! ## What the slicer keeps -/

theorem mem_instructions {f : Fn} {body : List (Instruction Fn)} {i : Instruction Fn}
    (hbody : M.body f = some body) (hi : i ∈ body) : i ∈ M.instructions :=
  List.mem_flatMap.2 ⟨f, M.complete f, by rwa [hbody]⟩

theorem mem_called {f g : Fn} {body : List (Instruction Fn)} {i : Instruction Fn}
    (hbody : M.body f = some body) (hi : i ∈ body) (hg : i.getCalledFunction = some g) :
    g ∈ M.called f :=
  List.mem_filterMap.2 ⟨i, by rwa [hbody], hg⟩

variable [DecidableEq Fn]

/-- The root functions that the module has. -/
def rootFunctions (M : LlvmModule Fn) (roots : List String) : List Fn :=
  roots.filterMap fun name => M.functions.find? fun f => M.name f = name

/-- The function has no body, or roots and functions whose address is taken lead to it. -/
def Led (M : LlvmModule Fn) (roots : List String) (f : Fn) : Prop :=
  M.isDeclaration f = true ∨ Lib.Found M.called M.isDeclaration (M.seeds roots) f

/-- No execution loses a function: where one calls a bitcast of a function, or hands a bitcast over
and has a call through a pointer, the function is one that something else leads to. -/
structure NoneLost (M : LlvmModule Fn) (roots : List String) : Prop where
  callee : ∀ root ∈ M.rootFunctions roots, ∀ f, M.Callable root f → ∀ body, M.body f = some body →
    ∀ type g args, .call (.bitcast type (.function g)) args ∈ body → M.Led roots g
  arg : ∀ root ∈ M.rootFunctions roots, ∀ f, M.Callable root f → ∀ body, M.body f = some body →
    ∀ callee args type g, .call callee args ∈ body → .bitcast type (.function g) ∈ args →
      M.Led roots g ∨ ∀ h, M.Callable root h → ¬ M.MayCallPointer h

theorem led_of_called {roots : List String} {f g : Fn} (hf : M.Led roots f)
    (hg : g ∈ M.called f) : M.Led roots g := by
  rcases hf with hdecl | hfound
  · rw [called, Option.isNone_iff_eq_none.1 hdecl] at hg
    exact absurd hg List.not_mem_nil
  · by_cases hdecl : M.isDeclaration g = true
    · exact Or.inl hdecl
    · exact Or.inr (hfound.next hg (Bool.eq_false_iff.2 hdecl))

theorem led_of_mem_seeds {roots : List String} {f : Fn} (hf : f ∈ M.seeds roots) :
    M.Led roots f := by
  by_cases hdecl : M.isDeclaration f = true
  · exact Or.inl hdecl
  · exact Or.inr (Lib.Found.start hf (Bool.eq_false_iff.2 hdecl))

theorem led_of_hasAddressTaken {roots : List String} {f : Fn} (hf : M.hasAddressTaken f = true) :
    M.Led roots f :=
  led_of_mem_seeds (List.mem_append_right _ (List.mem_filter.2 ⟨M.complete f, hf⟩))

/-- The function a call names is not lost. -/
theorem led_of_target {roots : List String} (hlost : M.NoneLost roots) {root f g : Fn}
    (hroot : root ∈ M.rootFunctions roots) (hcallable : M.Callable root f) (hf : M.Led roots f)
    {body : List (Instruction Fn)} {i : Instruction Fn} (hbody : M.body f = some body)
    (hi : i ∈ body) (htarget : i.target = some g) : M.Led roots g := by
  have hcallee : ∃ callee ∈ i.operands, callee.target = some g ∧
      ∀ callee' args, i = .call callee' args → callee' = callee := by
    cases i with
    | call callee args | invoke callee args =>
        refine ⟨callee, List.mem_append_right _ (List.mem_singleton.2 rfl), htarget, ?_⟩
        rintro _ _ ⟨⟩
        try rfl
    | other operands => exact absurd htarget.symm (Option.some_ne_none g)
  obtain ⟨callee, hcallee, hg, hunique⟩ := hcallee
  rcases M.hasAddressTaken_of_instruction (mem_instructions hbody hi) hcallee
    (Operand.mem_mentioned_of_target hg) with htaken | hcalled | ⟨callee', args, type, rfl, rfl⟩
  · exact led_of_hasAddressTaken htaken
  · exact led_of_called hf (mem_called hbody hi hcalled)
  · obtain rfl := hunique _ _ rfl
    exact hlost.callee root hroot f hcallable body hbody type g args hi

/-- An address that is read is not lost, or never called. -/
theorem led_of_mem_addresses {roots : List String} (hlost : M.NoneLost roots) {root f g : Fn}
    (hroot : root ∈ M.rootFunctions roots) (hcallable : M.Callable root f) (hf : M.Led roots f)
    {body : List (Instruction Fn)} {i : Instruction Fn} (hbody : M.body f = some body)
    (hi : i ∈ body) (hg : g ∈ i.addresses) :
    M.Led roots g ∨ ∀ h, M.Callable root h → ¬ M.MayCallPointer h := by
  obtain ⟨op, hop, hg, hargs⟩ := Instruction.exists_of_mem_addresses hg
  rcases M.hasAddressTaken_of_instruction (mem_instructions hbody hi) hop hg with
    htaken | hcalled | ⟨callee, args, type, rfl, rfl⟩
  · exact Or.inl (led_of_hasAddressTaken htaken)
  · exact Or.inl (led_of_called hf (mem_called hbody hi hcalled))
  · rcases hargs callee args rfl with hmem | hnone
    · exact hlost.arg root hroot f hcallable body hbody callee args type g hi hmem
    · exact absurd hnone (Option.some_ne_none g)

/-- What holds of an execution as long as no function is lost. -/
structure Holds (M : LlvmModule Fn) (roots : List String) (root : Fn) (c : Config Fn) : Prop where
  stack : ∀ f ∈ c.stack, M.Led roots f
  known : ∀ f ∈ c.known, M.Led roots f ∨ ∀ h, M.Callable root h → ¬ M.MayCallPointer h
/-- One step keeps it. -/
theorem Holds.step {roots : List String} (hlost : M.NoneLost roots) {root : Fn}
    (hroot : root ∈ M.rootFunctions roots) {c d : Config Fn}
    (hrun : Relation.ReflTransGen M.Step (M.start root) c) (hc : M.Holds roots root c)
    (hstep : M.Step c d) : M.Holds roots root d := by
  have hread : ∀ {f : Fn} {stack known : List Fn} {body : List (Instruction Fn)}
      {i : Instruction Fn}, c = ⟨f :: stack, known⟩ → M.body f = some body → i ∈ body →
      ∀ g ∈ known ++ i.addresses,
        M.Led roots g ∨ ∀ h, M.Callable root h → ¬ M.MayCallPointer h := by
    rintro f stack known body i rfl hbody hi g hg
    rcases List.mem_append.1 hg with hg | hg
    · exact hc.known g hg
    · exact led_of_mem_addresses hlost hroot ⟨stack, known, hrun⟩
        (hc.stack f List.mem_cons_self) hbody hi hg
  cases hstep with
  | read hbody hi => exact ⟨hc.stack, hread rfl hbody hi⟩
  | @call f g stack known body i hbody hi htarget =>
      have hg := led_of_target hlost hroot ⟨stack, known, hrun⟩ (hc.stack f List.mem_cons_self)
        hbody hi htarget
      exact ⟨List.forall_mem_cons.2 ⟨hg, hc.stack⟩, hread rfl hbody hi⟩
  | @callPointer f g stack known body i hbody hi hpointer hg =>
      have hled := (hread rfl hbody hi g hg).resolve_right fun hnever =>
        hnever f ⟨stack, known, hrun⟩ (Or.inr ⟨body, i, hbody, hi, hpointer⟩)
      exact ⟨List.forall_mem_cons.2 ⟨hled, hc.stack⟩, hread rfl hbody hi⟩
  | @callBack f g stack known hnone hg =>
      have hled := (hc.known g hg).resolve_right fun hnever =>
        hnever f ⟨stack, known, hrun⟩ (Or.inl hnone)
      exact ⟨List.forall_mem_cons.2 ⟨hled, hc.stack⟩, hc.known⟩
  | ret => exact ⟨fun f hf => hc.stack f (List.mem_cons_of_mem _ hf), hc.known⟩

/-- **No execution calls a function that the slicer loses**, as long as none is lost. -/
theorem Holds.run {roots : List String} (hlost : M.NoneLost roots) {root : Fn}
    (hroot : root ∈ M.rootFunctions roots) {c : Config Fn}
    (hrun : Relation.ReflTransGen M.Step (M.start root) c) : M.Holds roots root c := by
  induction hrun with
  | refl =>
      refine ⟨fun f hf => ?_, fun f hf => ?_⟩
      · obtain rfl := List.mem_singleton.1 hf
        exact led_of_mem_seeds (List.mem_append_left _ hroot)
      · obtain ⟨op, hop, hf⟩ := List.mem_flatMap.1 hf
        exact Or.inl (led_of_hasAddressTaken (M.hasAddressTaken_of_initializer hop hf))
  | tail hrun hstep ih => exact ih.step hlost hroot hrun hstep

/-- **The slicer keeps every function that an execution can call, exactly when none is lost.** -/
theorem keeps_callable_iff (M : LlvmModule Fn) (roots : List String) :
    (∀ root ∈ M.rootFunctions roots, ∀ f, M.Callable root f →
        f ∈ M.slice roots ∨ M.isDeclaration f = true) ↔
      M.NoneLost roots := by
  have hled : ∀ root ∈ M.rootFunctions roots, ∀ f,
      f ∈ M.slice roots ∨ M.isDeclaration f = true ↔ M.Led roots f := by
    intro root hroot f
    have hroots : roots ≠ [] := by
      rintro rfl
      exact absurd hroot List.not_mem_nil
    rw [M.mem_slice_iff hroots, or_comm]
    rfl
  constructor
  · intro hkeeps
    refine ⟨fun root hroot f hf body hbody type g args hi => ?_,
      fun root hroot f hf body hbody callee args type g hi hg => ?_⟩
    · obtain ⟨stack, known, hrun⟩ := hf
      exact (hled root hroot g).1 (hkeeps root hroot g ⟨_, _, hrun.tail (.call hbody hi rfl)⟩)
    · by_cases hpointer : ∃ h, M.Callable root h ∧ M.MayCallPointer h
      · obtain ⟨h, hh, hpointer⟩ := hpointer
        refine Or.inl ((hled root hroot g).1 (hkeeps root hroot g
          (callable_of_read hf hbody hi ?_ hh hpointer)))
        exact List.mem_append_left _ (List.mem_flatMap.2 ⟨_, hg, List.mem_singleton.2 rfl⟩)
      · exact Or.inr fun h hh hp => hpointer ⟨h, hh, hp⟩
  · intro hlost root hroot f hf
    obtain ⟨stack, known, hrun⟩ := hf
    exact (hled root hroot f).2 ((Holds.run hlost hroot hrun).stack f List.mem_cons_self)

end LlvmModule

/-! ## A call through a bitcast -/

/-- A root, and a function that it calls through a bitcast. -/
inductive TwoFunctions where
  | main | target
deriving DecidableEq

/-- `main` calls `target` under another type, and nothing else mentions `target`. -/
def castModule : LlvmModule TwoFunctions where
  functions := [.main, .target]
  complete f := by cases f <;> decide
  name
    | .main => "main"
    | .target => "target"
  body
    | .main => some [.call (.bitcast 0 (.function .target)) []]
    | .target => some []
  initializers := []

/-- **The slicer loses a function that is only called through a bitcast.** -/
theorem bitcast_callee_lost :
    ¬ ∀ (M : LlvmModule TwoFunctions) (roots : List String), ∀ root ∈ M.rootFunctions roots, ∀ f,
      M.Callable root f → f ∈ M.slice roots ∨ M.isDeclaration f = true := by
  intro hclaim
  have hcallable : castModule.Callable .main .target :=
    ⟨_, _, .tail .refl (.call (i := .call (.bitcast 0 (.function .target)) []) rfl
      List.mem_cons_self rfl)⟩
  rcases hclaim castModule ["main"] .main (by decide) .target hcallable with hslice | hdecl
  · rw [castModule.mem_slice_iff (List.cons_ne_nil _ _)] at hslice
    -- from the root no direct call leads on
    have hmain : ∀ f, Lib.Found castModule.called castModule.isDeclaration
        (castModule.seeds ["main"]) f → f = .main := by
      intro f hfound
      induction hfound with
      | start hmem _ =>
          have hseeds : castModule.seeds ["main"] = [.main] := by decide
          exact List.mem_singleton.1 (hseeds ▸ hmem)
      | next _ hmem _ ih =>
          have hcalled : castModule.called .main = [] := by decide
          rw [ih, hcalled] at hmem
          exact absurd hmem List.not_mem_nil
    exact TwoFunctions.noConfusion (hmain _ hslice)
  · exact Bool.false_ne_true hdecl

end Borealis.CallGraphSlicer
