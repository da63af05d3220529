import Borealis.Passes.Executions

/-!
# The call graph chopper

`CallGraphChopper` deletes the bodies of the functions that the slicer does not keep, and takes a
function out of the module when nothing uses it any more.

What is deleted is never run: the executions from a root are those of the whole module, as long as
the slicer loses no function (`chop_run_iff`).  A function that was taken out is mentioned nowhere,
so that no execution, of whatever root is left, comes upon it (`erased_unreached`).
-/

namespace Borealis.CallGraphSlicer

variable {Fn : Type}

namespace Operand

mutual
/-- The functions that the second loop of the slicer finds in an operand: it looks into constant
expressions only. -/
def named : Operand Fn → List Fn
  | function f => [f]
  | bitcast _ operand => named operand
  | constantExpr _ operands => namedAll operands
  | aggregate _ | other => []

/-- The same for a list of operands. -/
def namedAll : List (Operand Fn) → List Fn
  | [] => []
  | op :: ops => named op ++ namedAll ops
end

end Operand

namespace LlvmModule

/-- A step looks only at the body of the function on top of the stack. -/
theorem Step.congr {M N : LlvmModule Fn} {c d : Config Fn} (h : M.Step c d)
    (hbody : ∀ f ∈ c.stack, N.body f = M.body f) : N.Step c d := by
  cases h with
  | read hf hi => exact .read ((hbody _ List.mem_cons_self).trans hf) hi
  | call hf hi htarget => exact .call ((hbody _ List.mem_cons_self).trans hf) hi htarget
  | callPointer hf hi hpointer hg =>
      exact .callPointer ((hbody _ List.mem_cons_self).trans hf) hi hpointer hg
  | callBack hf hg => exact .callBack ((hbody _ List.mem_cons_self).trans hf) hg
  | ret => exact .ret

variable [DecidableEq Fn] (M : LlvmModule Fn)

/-- `addressTakenFunctions`: what initializers and kept functions mention, filtered in the end. -/
def addressTakenFunctions (roots : List String) : List Fn :=
  (M.initializers.flatMap Operand.mentioned ++ (M.slice roots).flatMap fun F =>
    ((M.body F).getD []).flatMap fun i => i.operands.flatMap Operand.named).filter fun f =>
      !M.isDeclaration f && M.hasAddressTaken f

/-- `deleteBody`. -/
def deleteBody (F : Fn) : LlvmModule Fn :=
  { M with body := fun f => if f = F then none else M.body f }

/-- `hasNUsesOrMore(1)`, in a module that has lost bodies of the module `M`: the constants of `M`
are still there. -/
def hasUses (N : LlvmModule Fn) (F : Fn) : Bool :=
  N.instructions.any (fun i => i.operands.any (Operand.isFunction F)) ||
    M.constants.any (fun c => c.operands.any (Operand.isFunction F)) ||
      N.initializers.any (Operand.isFunction F)

/-- The module on its way through the chopper, and the functions that were taken out. -/
structure Chopped (Fn : Type) where
  module : LlvmModule Fn
  erased : List Fn := []

/-- The body of the loop in `runOnModule`. -/
def chopFunction (roots : List String) (s : Chopped Fn) (F : Fn) : Chopped Fn :=
  if F ∉ M.slice roots ∧ F ∉ M.addressTakenFunctions roots ∧ s.module.isDeclaration F = false then
    let module := s.module.deleteBody F
    if M.hasUses module F then { s with module } else ⟨module, F :: s.erased⟩
  else s

/-- `CallGraphChopper::runOnModule`. -/
def chop (roots : List String) : Chopped Fn :=
  if (M.slice roots).isEmpty then ⟨M, []⟩
  else M.functions.foldl (M.chopFunction roots) ⟨M, []⟩

variable {M}

/-! ## What is left -/

/-- The functions whose address is taken are kept by the slicer anyway. -/
theorem addressTakenFunctions_subset {roots : List String} (hroots : roots ≠ []) {f : Fn}
    (hf : f ∈ M.addressTakenFunctions roots) : f ∈ M.slice roots := by
  obtain ⟨-, hf⟩ := List.mem_filter.mp hf
  rw [Bool.and_eq_true, Bool.not_eq_true'] at hf
  rw [M.mem_slice_iff hroots]
  refine .start (List.mem_append_right _ ?_) hf.1
  exact List.mem_filter.mpr ⟨M.complete f, hf.2⟩

/-- What the loop keeps: only bodies are lost, not those of the slice, and what was taken out is
mentioned in no operand any more. -/
structure Chops (M : LlvmModule Fn) (roots : List String) (s : Chopped Fn) : Prop where
  initializers : s.module.initializers = M.initializers
  kept : ∀ f, s.module.body f = M.body f ∨
    s.module.body f = none ∧ f ∉ M.slice roots ∧ M.isDeclaration f = false
  erased : ∀ f ∈ s.erased, M.hasUses s.module f = false ∧ s.module.body f = none

/-- The instructions that are left were there before. -/
theorem Chops.mem_instructions {roots : List String} {s : Chopped Fn} (h : M.Chops roots s)
    {i : Instruction Fn} (hi : i ∈ s.module.instructions) : i ∈ M.instructions := by
  obtain ⟨f, -, hf⟩ := List.mem_flatMap.mp hi
  rcases h.kept f with heq | ⟨hnone, -, -⟩
  · exact List.mem_flatMap.mpr ⟨f, M.complete f, heq ▸ hf⟩
  · rw [hnone] at hf
    exact absurd hf List.not_mem_nil

theorem body_deleteBody_self (N : LlvmModule Fn) (F : Fn) : (N.deleteBody F).body F = none :=
  if_pos rfl

theorem body_deleteBody_of_ne (N : LlvmModule Fn) {f F : Fn} (h : f ≠ F) :
    (N.deleteBody F).body f = N.body f :=
  if_neg h

/-- Uses go with the bodies they are in. -/
theorem hasUses_deleteBody {N : LlvmModule Fn} {f F : Fn} (h : M.hasUses N f = false) :
    M.hasUses (N.deleteBody F) f = false := by
  rw [hasUses, Bool.or_eq_false_iff, Bool.or_eq_false_iff, List.any_eq_false] at h ⊢
  refine ⟨⟨fun i hi => h.1.1 i ?_, h.1.2⟩, h.2⟩
  obtain ⟨g, -, hg⟩ := List.mem_flatMap.mp hi
  rcases eq_or_ne g F with rfl | hne
  · rw [body_deleteBody_self] at hg
    exact absurd hg List.not_mem_nil
  · rw [body_deleteBody_of_ne N hne] at hg
    exact List.mem_flatMap.mpr ⟨g, N.complete g, hg⟩

theorem Chops.step {roots : List String} {s : Chopped Fn} (h : M.Chops roots s) (F : Fn) :
    M.Chops roots (M.chopFunction roots s F) := by
  unfold chopFunction
  split
  · next hF =>
    obtain ⟨hslice, -, hbody⟩ := hF
    have hdecl : M.isDeclaration F = false := by
      rcases h.kept F with heq | ⟨-, -, hdecl⟩
      · rw [isDeclaration, ← heq]
        exact hbody
      · exact hdecl
    have hkept : ∀ f, (s.module.deleteBody F).body f = M.body f ∨
        (s.module.deleteBody F).body f = none ∧ f ∉ M.slice roots ∧
          M.isDeclaration f = false := by
      intro f
      rcases eq_or_ne f F with rfl | hne
      · exact Or.inr ⟨body_deleteBody_self _ f, hslice, hdecl⟩
      · rw [body_deleteBody_of_ne _ hne]
        exact h.kept f
    have herased : ∀ f ∈ s.erased, M.hasUses (s.module.deleteBody F) f = false ∧
        (s.module.deleteBody F).body f = none := by
      intro f hf
      obtain ⟨huses, hnone⟩ := h.erased f hf
      refine ⟨hasUses_deleteBody huses, ?_⟩
      rcases eq_or_ne f F with rfl | hne
      · exact body_deleteBody_self _ f
      · exact (body_deleteBody_of_ne _ hne).trans hnone
    dsimp only
    split
    · exact ⟨h.initializers, hkept, herased⟩
    · next huses =>
      refine ⟨h.initializers, hkept, List.forall_mem_cons.mpr
        ⟨⟨?_, body_deleteBody_self _ F⟩, herased⟩⟩
      exact Bool.eq_false_iff.mpr huses
  · exact h

theorem chops_chop (M : LlvmModule Fn) (roots : List String) : M.Chops roots (M.chop roots) := by
  have hinit : M.Chops roots ⟨M, []⟩ :=
    ⟨rfl, fun f => Or.inl rfl, fun f hf => absurd hf List.not_mem_nil⟩
  have hfold : ∀ (fs : List Fn) (s : Chopped Fn), M.Chops roots s →
      M.Chops roots (fs.foldl (M.chopFunction roots) s) := by
    intro fs
    induction fs with
    | nil => exact fun s hs => hs
    | cons F fs ih => exact fun s hs => ih _ (hs.step F)
  unfold chop
  split
  · exact hinit
  · exact hfold M.functions _ hinit

/-- The functions that roots lead to, and those without a body, stay as they are. -/
theorem body_chop {roots : List String} (hroots : roots ≠ []) {f : Fn} (hf : M.Led roots f) :
    (M.chop roots).module.body f = M.body f := by
  rcases (chops_chop M roots).kept f with heq | ⟨-, hslice, hdecl⟩
  · exact heq
  · rcases hf with hdecl' | hfound
    · exact Bool.noConfusion (hdecl'.symm.trans hdecl)
    · exact absurd ((M.mem_slice_iff hroots).mpr hfound) hslice

/-! ## Executions -/

/-- **The chopper keeps the executions from the roots**, when the slicer loses no function. -/
theorem chop_run_iff {roots : List String} (hlost : M.NoneLost roots) {root : Fn}
    (hroot : root ∈ M.rootFunctions roots) {c : Config Fn} :
    Relation.ReflTransGen (M.chop roots).module.Step ((M.chop roots).module.start root) c ↔
      Relation.ReflTransGen M.Step (M.start root) c := by
  have hroots : roots ≠ [] := by
    rintro rfl
    exact absurd hroot List.not_mem_nil
  have hstart : (M.chop roots).module.start root = M.start root := by
    rw [start, start, (chops_chop M roots).initializers]
  have hbody : ∀ {c}, Relation.ReflTransGen M.Step (M.start root) c →
      ∀ f ∈ c.stack, (M.chop roots).module.body f = M.body f :=
    fun hrun f hf => body_chop hroots ((Holds.run hlost hroot hrun).stack f hf)
  rw [hstart]
  constructor
  · intro hrun
    induction hrun with
    | refl => exact .refl
    | tail _ hstep ih => exact ih.tail (hstep.congr fun f hf => (hbody ih f hf).symm)
  · intro hrun
    induction hrun with
    | refl => exact .refl
    | tail hrun hstep ih => exact ih.tail (hstep.congr (hbody hrun))

/-! ## Functions that were taken out -/

/-- Without uses a function is mentioned nowhere. -/
theorem Chops.not_mentioned {roots : List String} {s : Chopped Fn} (h : M.Chops roots s) {f : Fn}
    (hf : f ∈ s.erased) :
    (∀ i ∈ s.module.instructions, ∀ op ∈ i.operands, f ∉ op.mentioned) ∧
      ∀ op ∈ s.module.initializers, f ∉ op.mentioned := by
  obtain ⟨huses, -⟩ := h.erased f hf
  simp only [hasUses, Bool.or_eq_false_iff, List.any_eq_false, List.any_eq_true, not_exists,
    not_and] at huses
  obtain ⟨⟨hinstructions, hconstants⟩, hinitializers⟩ := huses
  -- a mention is a use by an instruction or initializer, or by one of the constants
  have hmentioned : ∀ {op : Operand Fn}, (∀ c ∈ op.constants, c ∈ M.constants) →
      f ∈ op.mentioned → op = .function f := by
    intro op hop hmem
    rcases Operand.mem_constants_cases (Operand.function_mem_constants hmem) with heq | ⟨d, hd, hfd⟩
    · exact heq.symm
    · exact absurd (Operand.isFunction_self f) (hconstants d (hop d hd) _ hfd)
  constructor
  · intro i hi op hop hmem
    have heq := hmentioned (fun c hc => List.mem_flatMap.mpr ⟨op, List.mem_append_left _
      (List.mem_flatMap.mpr ⟨i, h.mem_instructions hi, hop⟩), hc⟩) hmem
    exact hinstructions i hi op hop (heq ▸ Operand.isFunction_self f)
  · intro op hop hmem
    have heq := hmentioned (fun c hc => List.mem_flatMap.mpr
      ⟨op, List.mem_append_right _ (h.initializers ▸ hop), hc⟩) hmem
    exact hinitializers op hop (heq ▸ Operand.isFunction_self f)

/-- **No execution of what is left comes upon a function that was taken out**: it is never called,
and its address never known. -/
theorem erased_unreached {roots : List String} {root f : Fn} (hf : f ∈ (M.chop roots).erased)
    (hroot : root ∉ (M.chop roots).erased) {c : Config Fn}
    (hrun : Relation.ReflTransGen (M.chop roots).module.Step ((M.chop roots).module.start root) c) :
    f ∉ c.stack ∧ f ∉ c.known := by
  obtain ⟨hinstructions, hinitializers⟩ := (chops_chop M roots).not_mentioned hf
  have haddresses : ∀ {g : Fn} {body : List (Instruction Fn)} {i : Instruction Fn}
      {known : List Fn}, (M.chop roots).module.body g = some body → i ∈ body → f ∉ known →
        f ∉ known ++ i.addresses := by
    intro g body i known hbody hi hknown hmem
    rcases List.mem_append.mp hmem with hmem | hmem
    · exact hknown hmem
    · obtain ⟨op, hop, hmem, -⟩ := Instruction.exists_of_mem_addresses hmem
      exact hinstructions i (mem_instructions hbody hi) op hop hmem
  induction hrun with
  | refl =>
      constructor
      · intro hmem
        obtain rfl := List.mem_singleton.mp hmem
        exact hroot hf
      · intro hmem
        obtain ⟨op, hop, hmem⟩ := List.mem_flatMap.mp hmem
        exact hinitializers op hop hmem
  | tail _ hstep ih =>
      obtain ⟨hstack, hknown⟩ := ih
      cases hstep with
      | read hbody hi => exact ⟨hstack, haddresses hbody hi hknown⟩
      | @call a g stack known body i hbody hi htarget =>
          refine ⟨fun hmem => ?_, haddresses hbody hi hknown⟩
          rcases List.mem_cons.mp hmem with rfl | hmem
          · -- the callee would be an operand that mentions the function
            cases i with
            | call callee args | invoke callee args =>
                exact hinstructions _ (mem_instructions hbody hi) callee
                  (List.mem_append_right _ (List.mem_singleton.mpr rfl))
                  (Operand.mem_mentioned_of_target htarget)
            | other operands => cases htarget
          · exact hstack hmem
      | callPointer hbody hi _ hg =>
          refine ⟨fun hmem => ?_, haddresses hbody hi hknown⟩
          rcases List.mem_cons.mp hmem with rfl | hmem
          · exact haddresses hbody hi hknown hg
          · exact hstack hmem
      | callBack _ hg =>
          refine ⟨fun hmem => ?_, hknown⟩
          rcases List.mem_cons.mp hmem with rfl | hmem
          · exact hknown hg
          · exact hstack hmem
      | ret => exact ⟨fun hmem => hstack (List.mem_cons_of_mem _ hmem), hknown⟩

/-! ### A module with an unused function -/

/-- Nothing uses `target`. -/
def unusedModule : LlvmModule TwoFunctions where
  functions := [.main, .target]
  complete := castModule.complete
  name f := if f = .main then "main" else "target"
  body _ := some []
  initializers := []

theorem noneLost_unused : unusedModule.NoneLost ["main"] := by
  have hbody : ∀ f body, unusedModule.body f = some body → body = [] := by
    intro f body hbody
    exact (Option.some.inj hbody).symm
  refine ⟨fun _ _ f _ body hf _ _ _ hmem => ?_, fun _ _ f _ body hf _ _ _ _ hmem => ?_⟩
  · rw [hbody f body hf] at hmem
    exact absurd hmem List.not_mem_nil
  · rw [hbody f body hf] at hmem
    exact absurd hmem List.not_mem_nil

theorem chop_run_iff_unused :
    Relation.ReflTransGen (unusedModule.chop ["main"]).module.Step
        ((unusedModule.chop ["main"]).module.start .main) ⟨[], []⟩ ↔
      Relation.ReflTransGen unusedModule.Step (unusedModule.start .main) ⟨[], []⟩ :=
  chop_run_iff noneLost_unused (by decide)

theorem mem_slice_unused {f : TwoFunctions} : f ∈ unusedModule.slice ["main"] ↔ f = .main := by
  rw [unusedModule.mem_slice_iff (List.cons_ne_nil _ _)]
  have hseeds : unusedModule.seeds ["main"] = [.main] := by decide
  constructor
  · intro hfound
    induction hfound with
    | start hmem _ => exact List.mem_singleton.mp (hseeds ▸ hmem)
    | @next a b _ hmem _ _ =>
        have hcalled : unusedModule.called a = [] := by cases a <;> rfl
        rw [hcalled] at hmem
        exact absurd hmem List.not_mem_nil
  · rintro rfl
    exact .start (hseeds ▸ List.mem_singleton.mpr rfl) rfl

theorem erased_unused : (unusedModule.chop ["main"]).erased = [.target] := by
  have hmain : .main ∈ unusedModule.slice ["main"] := mem_slice_unused.mpr rfl
  have htarget : .target ∉ unusedModule.slice ["main"] := fun hmem => by
    cases mem_slice_unused.mp hmem
  have htaken : .target ∉ unusedModule.addressTakenFunctions ["main"] := fun hmem =>
    htarget (addressTakenFunctions_subset (List.cons_ne_nil _ _) hmem)
  have hnonempty : ¬ (unusedModule.slice ["main"]).isEmpty = true := by
    rw [List.isEmpty_iff]
    exact List.ne_nil_of_mem hmain
  have hchopMain : unusedModule.chopFunction ["main"] ⟨unusedModule, []⟩ .main =
      ⟨unusedModule, []⟩ := if_neg fun h => h.1 hmain
  have hchopTarget : unusedModule.chopFunction ["main"] ⟨unusedModule, []⟩ .target =
      ⟨unusedModule.deleteBody .target, [.target]⟩ := if_pos ⟨htarget, htaken, rfl⟩
  rw [chop, if_neg hnonempty]
  show (([TwoFunctions.main, .target].foldl (unusedModule.chopFunction ["main"])
    ⟨unusedModule, []⟩)).erased = _
  rw [List.foldl_cons, hchopMain, List.foldl_cons, hchopTarget, List.foldl_nil]

theorem erased_unreached_unused : TwoFunctions.target ∉ [TwoFunctions.main] ∧
    TwoFunctions.target ∉ ([] : List TwoFunctions) := by
  have hrun : Relation.ReflTransGen (unusedModule.chop ["main"]).module.Step
      ((unusedModule.chop ["main"]).module.start .main) ⟨[.main], []⟩ := by
    rw [start, (chops_chop unusedModule ["main"]).initializers]
    exact .refl
  have hin : TwoFunctions.target ∈ (unusedModule.chop ["main"]).erased := by
    rw [erased_unused]
    exact List.mem_singleton.mpr rfl
  have hout : TwoFunctions.main ∉ (unusedModule.chop ["main"]).erased := by
    rw [erased_unused]
    decide
  exact erased_unreached hin hout hrun

end LlvmModule

end Borealis.CallGraphSlicer
