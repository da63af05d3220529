import Borealis.Passes.FunctionBitCastKiller

/-!
# Direct calls after the walk

`FunctionBitCastKiller` walks over the instructions of a function, rewrites calls and erases the old
ones in the end.  `Walked` describes the body in the middle of a walk, `runOnFunction_spec` the
body in the end, and `preserves_iff` when the calls are preserved.
-/

namespace Borealis

namespace FunctionBitCastKiller

/-! ## The walk -/

/-- A call of a bitcast. -/
def Inst.isBitcastCall (inst : Inst) : Bool :=
  match inst.op with
  | .call (.bitcast _) => true
  | _ => false

/-- **What a walk has done after the instructions `pre`**: all of its substitutions are the one
substitution `σ`, and the instructions in front of a rewritten call are what rewriting it makes of
its operands under `σ`. -/
structure Walked (F : Function) (σ : Value → Value) (new : Inst → List Inst) (pre : List Inst)
    (s : State) : Prop where
  blocks_eq : s.blocks = F.blocks.map (·.flatMap fun inst => new inst ++ [inst.mapOperands σ])
  fresh_le : F.fresh ≤ s.fresh
  deleted_eq : s.deleted = (pre.filter Inst.isBitcastCall).map Inst.ref
  substitutes : ∀ v, σ v = v ∨ ∃ inst ∈ pre, inst.isBitcastCall ∧ v = .instr inst.ref
  new_eq_nil : ∀ inst, (inst ∈ pre → inst.isBitcastCall = false) → new inst = []
  rewritten : ∀ inst ∈ pre, inst.isBitcastCall → ∃ f fresh,
    inst.op = .call (.bitcast (.function f)) ∧ F.fresh ≤ fresh ∧
    rewriteCall fresh f (inst.mapOperands σ) = some (new inst, σ (.instr inst.ref))

theorem mapOperands_id (inst : Inst) : inst.mapOperands id = inst := by
  rw [Inst.mapOperands, List.map_id]

theorem mapOperands_comp (σ τ : Value → Value) (inst : Inst) :
    (inst.mapOperands σ).mapOperands τ = inst.mapOperands (τ ∘ σ) := by
  simp [Inst.mapOperands]

theorem walked_start (F : Function) :
    Walked F id (fun _ => []) [] ⟨F.blocks, F.fresh, []⟩ where
  blocks_eq := by
    simp only [mapOperands_id, List.nil_append]
    exact (List.map_id'' (fun block => List.flatMap_singleton' block) _).symm
  fresh_le := Nat.le_refl _
  deleted_eq := rfl
  substitutes _ := Or.inl rfl
  new_eq_nil _ _ := rfl
  rewritten _ h := absurd h List.not_mem_nil

theorem visitCallInst_function {s : State} {call : Inst} {f : FunctionDecl}
    (hop : call.op = .call (.bitcast (.function f))) :
    visitCallInst s call = (rewriteCall s.fresh f call).map fun new =>
      { blocks := replaceAllUsesWith call.ref new.2 (insertBefore call.ref new.1 s.blocks)
        fresh := s.fresh + f.numbers
        deleted := s.deleted ++ [call.ref] } := by
  rw [visitCallInst, hop]

theorem rewritable_iff {call : Inst} {f : FunctionDecl}
    (hop : call.op = .call (.bitcast (.function f))) : Rewritable call ↔ Fits f call := by
  constructor
  · intro h
    obtain ⟨g, hg, hfits⟩ := h _ hop
    cases hg
    exact hfits
  · intro hfits casted hcasted
    cases hop.symm.trans hcasted
    exact ⟨f, rfl, hfits⟩

/-- Whether a call fits depends on the types of its operands. -/
theorem fits_mapOperands_iff {σ : Value → Value} (hσ : ∀ v, (σ v).getType = v.getType)
    (f : FunctionDecl) (call : Inst) : Fits f (call.mapOperands σ) ↔ Fits f call := by
  have hlength : (call.mapOperands σ).operands.length = call.operands.length :=
    List.length_map _
  have hargs : (∀ pair ∈ (call.mapOperands σ).operands.zip f.params,
      Convertible pair.1.getType pair.2) ↔
      ∀ pair ∈ call.operands.zip f.params, Convertible pair.1.getType pair.2 := by
    rw [Inst.mapOperands, List.zip_map_left, List.forall_mem_map]
    simp only [Prod.map_fst, Prod.map_snd, hσ, id_eq]
  constructor
  · exact fun h => ⟨hlength ▸ h.params_le, hlength ▸ h.extra, hargs.1 h.args, h.result⟩
  · exact fun h => ⟨hlength.symm ▸ h.params_le, hlength.symm ▸ h.extra, hargs.2 h.args, h.result⟩

/-- The new instructions in front of an instruction, after those of `x` were put in. -/
def insertNew (new : Inst → List Inst) (x : Inst) (put : List Inst) (τ : Value → Value)
    (inst : Inst) : List Inst :=
  (if inst = x then put else new inst).map (Inst.mapOperands τ)

namespace Walked

variable {F : Function} {σ : Value → Value} {new : Inst → List Inst} {pre rest : List Inst}
  {s : State} {x : Inst}

theorem spec (h : Walked F σ new pre s) {inst : Inst} (hinst : inst ∈ pre)
    (hcall : inst.isBitcastCall) : ∃ f, inst.op = .call (.bitcast (.function f)) ∧
      Rewritten F.fresh f (inst.mapOperands σ) (new inst) (σ (.instr inst.ref)) := by
  obtain ⟨f, fresh, hop, hfresh, hrewrite⟩ := h.rewritten inst hinst hcall
  have hspec := rewritten_of_rewriteCall hrewrite
  refine ⟨f, hop, fun i hi => hfresh.trans (hspec.fresh_le i hi), fun i hi v hv => ?_, ?_⟩
  · exact (hspec.operands i hi v hv).imp_right fun ⟨ref, hle, heq⟩ => ⟨ref, hfresh.trans hle, heq⟩
  · obtain ⟨ref, heq, hle, htype⟩ := hspec.replacement
    exact ⟨ref, heq, hfresh.trans hle, htype⟩

/-- The new instructions are new. -/
theorem fresh_le_of_mem_new (h : Walked F σ new pre s) {inst i : Inst} (hi : i ∈ new inst) :
    F.fresh ≤ i.ref.id := by
  by_cases hcall : inst ∈ pre ∧ inst.isBitcastCall
  · obtain ⟨f, -, hspec⟩ := h.spec hcall.1 hcall.2
    exact hspec.fresh_le i hi
  · rw [h.new_eq_nil inst fun hinst => Bool.eq_false_iff.2 fun hc => hcall ⟨hinst, hc⟩] at hi
    exact absurd hi List.not_mem_nil

theorem keeps (h : Walked F σ new pre s) (hsub : ∀ inst ∈ pre, inst ∈ F.blocks.flatten) :
    Keeps F.fresh σ where
  getType v := by
    rcases h.substitutes v with heq | ⟨inst, hinst, hcall, rfl⟩
    · rw [heq]
    · obtain ⟨f, -, hspec⟩ := h.spec hinst hcall
      obtain ⟨ref, heq, -, htype⟩ := hspec.replacement
      rw [heq]
      exact htype
  instr ref hle := by
    rcases h.substitutes (.instr ref) with heq | ⟨inst, hinst, -, heq⟩
    · exact heq
    · cases heq
      exact absurd (F.ref_lt inst (hsub inst hinst)) (Nat.not_lt.2 hle)

theorem mem_blocks (h : Walked F σ new pre s) (i : Inst) : i ∈ s.blocks.flatten ↔
    ∃ inst ∈ F.blocks.flatten, i ∈ new inst ∨ i = inst.mapOperands σ := by
  rw [h.blocks_eq]
  simp only [List.mem_flatten, List.mem_map, exists_exists_and_eq_and, List.mem_flatMap,
    List.mem_append, List.mem_singleton]
  constructor
  · rintro ⟨block, hblock, inst, hinst, hi⟩
    exact ⟨inst, ⟨block, hblock, hinst⟩, hi⟩
  · rintro ⟨inst, ⟨block, hblock, hinst⟩, hi⟩
    exact ⟨block, hblock, inst, hinst, hi⟩

/-- An instruction of the function is found, with the operands it has by then. -/
theorem find_eq (h : Walked F σ new pre s) {x : Inst} (hx : x ∈ F.blocks.flatten) :
    s.blocks.flatten.find? (·.ref = x.ref) = some (x.mapOperands σ) := by
  cases hfind : s.blocks.flatten.find? (·.ref = x.ref) with
  | none =>
      have hne := List.find?_eq_none.1 hfind _ ((h.mem_blocks _).2 ⟨x, hx, Or.inr rfl⟩)
      exact absurd (decide_eq_true rfl) hne
  | some i =>
      have href : i.ref = x.ref := by simpa using List.find?_some hfind
      obtain ⟨inst, hinst, hi⟩ := (h.mem_blocks i).1 (List.mem_of_find?_eq_some hfind)
      rcases hi with hi | rfl
      · have hle := h.fresh_le_of_mem_new hi
        rw [href] at hle
        exact absurd (F.ref_lt x hx) (Nat.not_lt.2 hle)
      · rw [List.inj_on_of_nodup_map F.nodup hinst hx href]

theorem visit_other (h : Walked F σ new pre s) {x : Inst} (hx : x ∈ F.blocks.flatten)
    (hcall : x.isBitcastCall = false) :
    visitInst s x.ref = some s ∧ Walked F σ new (pre ++ [x]) s := by
  constructor
  · rw [visitInst, h.find_eq hx]
    have hop : (x.mapOperands σ).isBitcastCall = false := hcall
    unfold Inst.isBitcastCall at hop
    dsimp only
    unfold visitCallInst
    split at hop
    · cases hop
    · next hne =>
      split
      · next f heq => exact absurd heq (hne _)
      · next name heq => exact absurd heq (hne _)
      · rfl
  · refine ⟨h.blocks_eq, h.fresh_le, ?_, fun v => ?_, fun inst hinst => ?_, fun inst hinst hc => ?_⟩
    · rw [h.deleted_eq, List.filter_append, List.filter_singleton, hcall]
      simp
    · exact (h.substitutes v).imp_right fun ⟨inst, hinst, hv⟩ =>
        ⟨inst, List.mem_append_left _ hinst, hv⟩
    · exact h.new_eq_nil inst fun hmem => hinst (List.mem_append_left _ hmem)
    · rcases List.mem_append.1 hinst with hinst | hinst
      · exact h.rewritten inst hinst hc
      · rw [List.mem_singleton.1 hinst, hcall] at hc
        cases hc

/-- The replacement of one result by a new one of its type. -/
theorem keeps_replace {fresh : ℕ} {old ref : Ref} (hold : old.id < fresh)
    (htype : ref.type = old.type) : Keeps fresh (Value.replace old (.instr ref)) where
  getType v := by
    rw [Value.replace]
    split
    · next heq => exact heq ▸ htype
    · rfl
  instr other hother := by
    rw [Value.replace, if_neg]
    intro heq
    cases heq
    exact absurd hold (Nat.not_lt.2 hother)

/-- What the blocks are after one rewritten call. -/
theorem replaceAllUsesWith_insertBefore (h : Walked F σ new pre s) (hx : x ∈ F.blocks.flatten)
    (hnewx : new x = []) (put : List Inst) (r : Value) :
    replaceAllUsesWith x.ref r (insertBefore x.ref put s.blocks) =
      F.blocks.map (·.flatMap fun inst => insertNew new x put (Value.replace x.ref r) inst ++
        [inst.mapOperands (Value.replace x.ref r ∘ σ)]) := by
  rw [replaceAllUsesWith, insertBefore, h.blocks_eq, List.map_map, List.map_map]
  refine List.map_congr_left fun block hblock => ?_
  simp only [Function.comp_apply, List.flatMap_assoc, List.map_flatMap]
  refine List.flatMap_congr fun inst hinst => ?_
  have hmem : inst ∈ F.blocks.flatten := List.mem_flatten.2 ⟨block, hblock, hinst⟩
  -- only the call itself has something put in front of it
  have hnew : ((new inst).flatMap fun i => (if i.ref = x.ref then put ++ [i] else [i]).map
      (Inst.mapOperands (Value.replace x.ref r))) =
      (new inst).map (Inst.mapOperands (Value.replace x.ref r)) := by
    rw [List.map_eq_flatMap]
    refine List.flatMap_congr fun i hi => ?_
    rw [if_neg fun heq => ?_, List.map_singleton]
    have hle := h.fresh_le_of_mem_new hi
    rw [heq] at hle
    exact absurd (F.ref_lt x hx) (Nat.not_lt.2 hle)
  rw [List.flatMap_append, hnew, List.flatMap_singleton, insertNew, ← mapOperands_comp]
  by_cases heq : inst = x
  · subst heq
    have href_eq : (inst.mapOperands σ).ref = inst.ref := rfl
    rw [if_pos rfl, if_pos href_eq, hnewx, List.map_append, List.map_singleton]
    rfl
  · have href_ne : (inst.mapOperands σ).ref ≠ x.ref := fun href_eq =>
      heq (List.inj_on_of_nodup_map F.nodup hmem hx href_eq)
    rw [if_neg heq, if_neg href_ne, List.map_singleton]

/-- **One rewritten call.**  The substitution of its result is made part of `σ`. -/
theorem visit_call (h : Walked F σ new pre s) (hsplit : F.blocks.flatten = pre ++ x :: rest)
    {f : FunctionDecl} (hop : x.op = .call (.bitcast (.function f))) {put : List Inst} {r : Value}
    (hrewrite : rewriteCall s.fresh f (x.mapOperands σ) = some (put, r)) :
    Walked F (Value.replace x.ref r ∘ σ) (insertNew new x put (Value.replace x.ref r)) (pre ++ [x])
      ⟨replaceAllUsesWith x.ref r (insertBefore x.ref put s.blocks), s.fresh + f.numbers,
        s.deleted ++ [x.ref]⟩ := by
  have hx : x ∈ F.blocks.flatten := hsplit ▸ List.mem_append_right _ List.mem_cons_self
  have hxpre : ∀ inst ∈ pre, inst.ref ≠ x.ref := by
    have hnodup := F.nodup
    rw [hsplit, List.map_append, List.map_cons] at hnodup
    intro inst hinst heq
    exact (List.nodup_append.1 hnodup).2.2 _ (List.mem_map_of_mem hinst) _ List.mem_cons_self heq
  have hcall : x.isBitcastCall = true := by rw [Inst.isBitcastCall, hop]
  have hnewx : new x = [] := h.new_eq_nil x fun hmem => absurd rfl (hxpre x hmem)
  have hspec := rewritten_of_rewriteCall hrewrite
  obtain ⟨ref, rfl, href, htype⟩ := hspec.replacement
  have hτ : Keeps F.fresh (Value.replace x.ref (.instr ref)) :=
    keeps_replace (F.ref_lt x hx) htype
  have hσx : σ (.instr x.ref) = .instr x.ref := by
    rcases h.substitutes (.instr x.ref) with heq | ⟨inst, hinst, -, heq⟩
    · exact heq
    · exact absurd (Value.instr.inj heq).symm (hxpre inst hinst)
  refine ⟨?_, h.fresh_le.trans (Nat.le_add_right _ _), ?_, fun v => ?_, fun inst hinst => ?_,
    fun inst hinst hc => ?_⟩
  · exact h.replaceAllUsesWith_insertBefore hx hnewx put _
  · rw [h.deleted_eq, List.filter_append, List.filter_singleton, hcall]
    simp
  · rcases h.substitutes v with heq | ⟨inst, hinst, hc, rfl⟩
    · by_cases hv : v = .instr x.ref
      · exact Or.inr ⟨x, List.mem_append_right _ (List.mem_singleton.2 rfl), hcall, hv⟩
      · refine Or.inl ?_
        rw [Function.comp_apply, heq, Value.replace, if_neg hv]
    · exact Or.inr ⟨inst, List.mem_append_left _ hinst, hc, rfl⟩
  · have hne : inst ≠ x := by
      rintro rfl
      rw [hinst (List.mem_append_right _ (List.mem_singleton.2 rfl))] at hcall
      cases hcall
    rw [insertNew, if_neg hne, h.new_eq_nil inst fun hmem => hinst (List.mem_append_left _ hmem)]
    rfl
  · rcases List.mem_append.1 hinst with hinst | hinst
    · -- an earlier call: its replacement is new, and the new substitution leaves it alone
      obtain ⟨g, fresh, hg, hfresh, hold⟩ := h.rewritten inst hinst hc
      refine ⟨g, fresh, hg, hfresh, ?_⟩
      have hne : inst ≠ x := fun heq => hxpre inst hinst (congrArg Inst.ref heq)
      obtain ⟨old, hold_eq, hold_le, -⟩ := (rewritten_of_rewriteCall hold).replacement
      replace hold_eq : σ (.instr inst.ref) = .instr old := hold_eq
      rw [← mapOperands_comp, rewriteCall_map (hτ.mono hfresh), hold, insertNew, if_neg hne,
        Function.comp_apply, hold_eq, hτ.instr old (hfresh.trans hold_le)]
      rfl
    · rw [List.mem_singleton.1 hinst]
      refine ⟨f, s.fresh, hop, h.fresh_le, ?_⟩
      rw [← mapOperands_comp, rewriteCall_map (hτ.mono h.fresh_le), hrewrite, insertNew,
        if_pos rfl, Function.comp_apply, hσx, Value.replace, if_pos rfl]
      rfl

/-- **One step of a walk.**  It fails exactly at a call that cannot be rewritten. -/
theorem visit (h : Walked F σ new pre s) (hsplit : F.blocks.flatten = pre ++ x :: rest) :
    (Rewritable x → ∃ s', visitInst s x.ref = some s') ∧
    ∀ s', visitInst s x.ref = some s' → Rewritable x ∧
      ∃ σ' new', Walked F σ' new' (pre ++ [x]) s' := by
  have hx : x ∈ F.blocks.flatten := hsplit ▸ List.mem_append_right _ List.mem_cons_self
  have hsub : ∀ inst ∈ pre, inst ∈ F.blocks.flatten := fun inst hinst =>
    hsplit ▸ List.mem_append_left _ hinst
  have hvisit : visitInst s x.ref = visitCallInst s (x.mapOperands σ) := by
    rw [visitInst, h.find_eq hx]
  by_cases hcall : x.isBitcastCall = true
  · obtain ⟨casted, hop⟩ : ∃ casted, x.op = .call (.bitcast casted) := by
      unfold Inst.isBitcastCall at hcall
      split at hcall
      · next casted heq => exact ⟨casted, heq⟩
      · cases hcall
    have hop' : (x.mapOperands σ).op = .call (.bitcast casted) := hop
    cases casted with
    | other name =>
        have hfail : visitInst s x.ref = none := by rw [hvisit, visitCallInst, hop']
        constructor
        · intro hrewritable
          obtain ⟨f, hf, -⟩ := hrewritable _ hop
          cases hf
        · intro s' hs'
          cases hfail.symm.trans hs'
    | function f =>
        have hcases : (rewriteCall s.fresh f (x.mapOperands σ)).isSome ↔ Rewritable x := by
          rw [isSome_rewriteCall_iff, fits_mapOperands_iff (h.keeps hsub).getType,
            rewritable_iff hop]
        rw [hvisit, visitCallInst_function hop']
        constructor
        · intro hrewritable
          obtain ⟨new', hnew'⟩ := Option.isSome_iff_exists.1 (hcases.2 hrewritable)
          exact ⟨_, Option.map_eq_some_iff.2 ⟨new', hnew', rfl⟩⟩
        · intro s' hs'
          obtain ⟨⟨put, r⟩, hrewrite, rfl⟩ := Option.map_eq_some_iff.1 hs'
          refine ⟨hcases.1 (Option.isSome_iff_exists.2 ⟨_, hrewrite⟩), ?_⟩
          exact ⟨_, _, h.visit_call hsplit hop hrewrite⟩
  · have hcall := Bool.eq_false_iff.2 hcall
    obtain ⟨hsame, hwalked⟩ := h.visit_other hx hcall
    refine ⟨fun _ => ⟨s, hsame⟩, fun s' hs' => ⟨fun casted hop => ?_, σ, new, ?_⟩⟩
    · rw [Inst.isBitcastCall, hop] at hcall
      cases hcall
    · rw [hsame, Option.some_inj] at hs'
      exact hs' ▸ hwalked

/-- **A whole walk.** -/
theorem run (h : Walked F σ new pre s) (hsplit : F.blocks.flatten = pre ++ rest) :
    ((∀ x ∈ rest, Rewritable x) → ∃ s', (rest.map Inst.ref).foldlM visitInst s = some s') ∧
    ∀ s', (rest.map Inst.ref).foldlM visitInst s = some s' → (∀ x ∈ rest, Rewritable x) ∧
      ∃ σ' new', Walked F σ' new' F.blocks.flatten s' := by
  induction rest generalizing σ new pre s with
  | nil =>
      refine ⟨fun _ => ⟨s, rfl⟩, fun s' hs' => ⟨fun x hx => absurd hx List.not_mem_nil, σ, new, ?_⟩⟩
      cases hs'
      rw [hsplit, List.append_nil]
      exact h
  | cons x rest ih =>
      obtain ⟨hgo, hback⟩ := h.visit hsplit
      have hsplit' : F.blocks.flatten = (pre ++ [x]) ++ rest := by rw [hsplit]; simp
      constructor
      · intro hall
        obtain ⟨middle, hmiddle⟩ := hgo (hall x List.mem_cons_self)
        obtain ⟨-, σ', new', hwalked⟩ := hback middle hmiddle
        obtain ⟨s', hs'⟩ := (ih hwalked hsplit').1 fun y hy => hall y (List.mem_cons_of_mem _ hy)
        exact ⟨s', Option.bind_eq_some_iff.2 ⟨middle, hmiddle, hs'⟩⟩
      · intro s' hs'
        obtain ⟨middle, hmiddle, hs'⟩ := Option.bind_eq_some_iff.1 hs'
        obtain ⟨hx, σ', new', hwalked⟩ := hback middle hmiddle
        obtain ⟨hrest, hfinal⟩ := (ih hwalked hsplit').2 s' hs'
        exact ⟨List.forall_mem_cons.2 ⟨hx, hrest⟩, hfinal⟩

/-- No instruction uses a call that was rewritten. -/
theorem users_eq_nil (h : Walked F σ new F.blocks.flatten s) {ref : Ref} (href : ref ∈ s.deleted) :
    users s.blocks ref = [] := by
  rw [h.deleted_eq] at href
  obtain ⟨call, hcall, rfl⟩ := List.mem_map.1 href
  obtain ⟨hmem, hcall⟩ := List.mem_filter.1 hcall
  have hlt := F.ref_lt call hmem
  -- what is substituted is not new, and what it is substituted by is
  have hnot : ∀ v, σ v ≠ .instr call.ref := by
    intro v heq
    have hnew : ∀ inst ∈ F.blocks.flatten, inst.isBitcastCall →
        σ (.instr inst.ref) ≠ .instr call.ref := by
      intro inst hinst hc hsame
      obtain ⟨f, -, hspec⟩ := h.spec hinst hc
      obtain ⟨ref, href, hle, -⟩ := hspec.replacement
      cases href.symm.trans hsame
      omega
    rcases h.substitutes v with hv | ⟨inst, hinst, hc, rfl⟩
    · rw [hv] at heq
      exact hnew call hmem hcall (heq ▸ hv)
    · exact hnew inst hinst hc heq
  have hoperands : ∀ i ∈ s.blocks.flatten, .instr call.ref ∉ i.operands := by
    intro i hi huse
    obtain ⟨inst, hinst, hi⟩ := (h.mem_blocks i).1 hi
    rcases hi with hi | rfl
    · by_cases hc : inst.isBitcastCall = true
      · obtain ⟨f, -, hspec⟩ := h.spec hinst hc
        rcases hspec.operands i hi _ huse with hold | ⟨ref, hle, heq⟩
        · obtain ⟨v, -, hv⟩ := List.mem_map.1 hold
          exact hnot v hv
        · cases heq
          omega
      · rw [h.new_eq_nil inst fun _ => Bool.eq_false_iff.2 hc] at hi
        exact absurd hi List.not_mem_nil
    · obtain ⟨v, -, hv⟩ := List.mem_map.1 huse
      exact hnot v hv
  rw [users, List.map_eq_nil_iff, List.filter_eq_nil_iff]
  exact fun i hi => by simpa using hoperands i hi

end Walked

/-! ## Erasing -/

theorem users_eraseFromParent {blocks : Blocks} {ref : Ref} (h : users blocks ref = [])
    (erased : Ref) : users (eraseFromParent blocks erased) ref = [] := by
  rw [users, List.map_eq_nil_iff, List.filter_eq_nil_iff] at h ⊢
  intro inst hinst
  obtain ⟨block, hblock, hinst⟩ := List.mem_flatten.1 hinst
  obtain ⟨old, hold, rfl⟩ := List.mem_map.1 hblock
  exact h inst (List.mem_flatten.2 ⟨old, hold, (List.mem_filter.1 hinst).1⟩)

/-- Calls without users are all that is erased. -/
theorem foldl_deleteInst {blocks : Blocks} {refs : List Ref}
    (h : ∀ ref ∈ refs, users blocks ref = []) :
    refs.foldl deleteInst blocks = blocks.map (·.filter (·.ref ∉ refs)) := by
  induction refs generalizing blocks with
  | nil => simp
  | cons ref refs ih =>
      have hdelete : deleteInst blocks ref = eraseFromParent blocks ref := by
        rw [deleteInst, h ref List.mem_cons_self]
        rfl
      rw [List.foldl_cons, hdelete, ih fun other hother =>
        users_eraseFromParent (h other (List.mem_cons_of_mem _ hother)) ref, eraseFromParent,
        List.map_map]
      refine List.map_congr_left fun block _ => ?_
      rw [Function.comp_apply, List.filter_filter]
      refine List.filter_congr fun inst _ => ?_
      rw [← Bool.decide_and, decide_eq_decide, List.mem_cons, not_or, and_comm]

/-- What stands at the place of an instruction in the end. -/
def pieceOf (σ : Value → Value) (new : Inst → List Inst) (inst : Inst) : List Inst :=
  if inst.isBitcastCall then new inst else [inst.mapOperands σ]

theorem Walked.erased {F : Function} {σ : Value → Value} {new : Inst → List Inst} {s : State}
    (h : Walked F σ new F.blocks.flatten s) :
    s.deleted.foldl deleteInst s.blocks = F.blocks.map (·.flatMap (pieceOf σ new)) := by
  rw [foldl_deleteInst fun ref href => h.users_eq_nil href, h.blocks_eq, List.map_map]
  refine List.map_congr_left fun block hblock => ?_
  rw [Function.comp_apply, List.filter_flatMap]
  refine List.flatMap_congr fun inst hinst => ?_
  have hmem : inst ∈ F.blocks.flatten := List.mem_flatten.2 ⟨block, hblock, hinst⟩
  have hdeleted : ∀ ref, ref ∈ s.deleted ↔
      ∃ call ∈ F.blocks.flatten, call.isBitcastCall ∧ call.ref = ref := by
    intro ref
    rw [h.deleted_eq, List.mem_map]
    simp only [List.mem_filter, and_assoc]
  have hnew : (new inst).filter (·.ref ∉ s.deleted) = new inst := by
    refine List.filter_eq_self.2 fun i hi => decide_eq_true fun hmemi => ?_
    obtain ⟨call, hcall, -, heq⟩ := (hdeleted _).1 hmemi
    have hle := h.fresh_le_of_mem_new hi
    rw [← heq] at hle
    exact absurd (F.ref_lt call hcall) (Nat.not_lt.2 hle)
  rw [List.filter_append, hnew, List.filter_singleton, pieceOf]
  by_cases hcall : inst.isBitcastCall = true
  · have hin : (inst.mapOperands σ).ref ∈ s.deleted := (hdeleted _).2 ⟨inst, hmem, hcall, rfl⟩
    simp [hin, hcall]
  · have hout : (inst.mapOperands σ).ref ∉ s.deleted := by
      intro hin
      obtain ⟨call, hmem', hc, heq⟩ := (hdeleted _).1 hin
      exact hcall (List.inj_on_of_nodup_map F.nodup hmem' hmem heq ▸ hc)
    rw [h.new_eq_nil inst fun _ => Bool.eq_false_iff.2 hcall]
    simp [hout, hcall]

/-- **What the pass makes of a function.**  It fails exactly at a call that cannot be rewritten. -/
theorem runOnFunction_spec (F : Function) :
    ((∀ call ∈ F.blocks.flatten, Rewritable call) → ∃ after, runOnFunction F = some after) ∧
    ∀ after, runOnFunction F = some after → (∀ call ∈ F.blocks.flatten, Rewritable call) ∧
      ∃ σ new s, Walked F σ new F.blocks.flatten s ∧
        after = F.blocks.map (·.flatMap (pieceOf σ new)) := by
  obtain ⟨hgo, hback⟩ := (walked_start F).run (List.nil_append _).symm
  constructor
  · intro hall
    obtain ⟨s, hs⟩ := hgo hall
    exact ⟨_, Option.map_eq_some_iff.2 ⟨s, hs, rfl⟩⟩
  · intro after hafter
    obtain ⟨s, hs, rfl⟩ := Option.map_eq_some_iff.1 hafter
    obtain ⟨hall, σ, new, hwalked⟩ := hback s hs
    exact ⟨hall, σ, new, s, hwalked, hwalked.erased⟩

/-! ## Calls are preserved -/

theorem keepsBits_of_eq (target : Target) {arg : Value} {param : Ty} (h : arg.getType = param) :
    KeepsBits target arg param := by
  unfold KeepsBits
  split
  · next htype => cases h.symm.trans htype
  · next htype => cases h.symm.trans htype
  · trivial

/-- The arguments are passed when the conversions keep bits, and only then. -/
theorem passedAll_of_convertArgs (target : Target) {fresh : ℕ} {args : List Value}
    {params : List Ty} {casts : List Inst} {new : List Value}
    (h : convertArgs fresh args params = some (casts, new))
    (hkeeps : ∀ pair ∈ args.zip params, KeepsBits target pair.1 pair.2) {all : List Inst}
    (hall : ∀ cast ∈ casts, cast ∈ all) : PassedAll target all args params new := by
  induction params generalizing fresh args casts new with
  | nil =>
      rw [convertArgs, Option.some_inj] at h
      cases h
      rw [PassedAll]
  | cons param params ih =>
      cases args with
      | nil => cases h
      | cons arg args =>
          obtain ⟨⟨casts', new'⟩, hrest, hnew⟩ := convertArgs_cons h
          rw [List.zip_cons_cons, List.forall_mem_cons] at hkeeps
          rcases hnew with ⟨htype, heq⟩ | ⟨op, hop, heq⟩
          · cases heq
            exact ⟨Or.inl ⟨htype, rfl⟩, ih hrest hkeeps.2 hall⟩
          · cases heq
            rw [List.forall_mem_cons] at hall
            refine ⟨Or.inr ⟨_, hall.1, op, hop, rfl, rfl, rfl, rfl, ?_⟩, ih hrest hkeeps.2 hall.2⟩
            exact (faithful_iff target hop).2 hkeeps.1

theorem keepsBits_of_passedAll (target : Target) {casts : List Inst} {args : List Value}
    {params : List Ty} {new : List Value} (h : PassedAll target casts args params new) :
    ∀ pair ∈ args.zip params, KeepsBits target pair.1 pair.2 := by
  induction params generalizing args new with
  | nil => simp
  | cons param params ih =>
      cases args with
      | nil => simp
      | cons arg args =>
          cases new with
          | nil => exact absurd h not_false
          | cons v new =>
              rw [List.zip_cons_cons, List.forall_mem_cons]
              refine ⟨?_, ih h.2⟩
              rcases h.1 with ⟨htype, -⟩ | ⟨cast, -, op, hop, -, -, -, -, hfaithful⟩
              · exact keepsBits_of_eq target htype
              · exact (faithful_iff target hop).1 hfaithful

/-- Results are substituted by results. -/
theorem keepsBits_congr (target : Target) {v w : Value}
    (h : w = v ∨ ∃ ref ref' : Ref, v = .instr ref ∧ w = .instr ref' ∧ ref'.type = ref.type)
    (param : Ty) : KeepsBits target w param ↔ KeepsBits target v param := by
  rcases h with rfl | ⟨ref, ref', rfl, rfl, htype⟩
  · rfl
  · unfold KeepsBits
    rw [show (Value.instr ref').getType = (Value.instr ref).getType from htype]
    split <;> simp

/-- **What a call needs to be preserved**: if its callee is a bitcast, then of a function that it
fits, with conversions that keep the bits of the arguments. -/
def Preservable (target : Target) (call : Inst) : Prop :=
  ∀ casted, call.op = .call (.bitcast casted) → ∃ f, casted = .function f ∧ Fits f call ∧
    ∀ pair ∈ call.operands.zip f.params, KeepsBits target pair.1 pair.2

/-- Substituted arguments keep bits when the arguments do. -/
theorem keepsBits_map_iff (target : Target) {σ : Value → Value}
    (hσ : ∀ v, σ v = v ∨ ∃ ref ref' : Ref, v = .instr ref ∧ σ v = .instr ref' ∧
      ref'.type = ref.type) (args : List Value) (params : List Ty) :
    (∀ pair ∈ (args.map σ).zip params, KeepsBits target pair.1 pair.2) ↔
      ∀ pair ∈ args.zip params, KeepsBits target pair.1 pair.2 := by
  rw [List.zip_map_left, List.forall_mem_map]
  refine forall₂_congr fun pair _ => ?_
  exact keepsBits_congr target (hσ pair.1) pair.2

theorem Walked.results {F : Function} {σ : Value → Value} {new : Inst → List Inst}
    {pre : List Inst} {s : State} (h : Walked F σ new pre s) (v : Value) :
    σ v = v ∨ ∃ ref ref' : Ref, v = .instr ref ∧ σ v = .instr ref' ∧ ref'.type = ref.type := by
  rcases h.substitutes v with heq | ⟨inst, hinst, hcall, rfl⟩
  · exact Or.inl heq
  · obtain ⟨f, -, hspec⟩ := h.spec hinst hcall
    obtain ⟨ref, heq, -, htype⟩ := hspec.replacement
    exact Or.inr ⟨inst.ref, ref, rfl, heq, htype⟩

/-- A rewritten call is a direct one. -/
theorem Walked.direct {F : Function} {σ : Value → Value} {new : Inst → List Inst} {s : State}
    (h : Walked F σ new F.blocks.flatten s) (target : Target) {call : Inst}
    (hmem : call ∈ F.blocks.flatten) (hcall : call.isBitcastCall)
    (hkeeps : Preservable target call) : Direct target F.fresh σ call (new call) := by
  obtain ⟨f, fresh, hop, hfresh, hrewrite⟩ := h.rewritten call hmem hcall
  obtain ⟨g, hg, -, hbits⟩ := hkeeps _ hop
  cases hg
  obtain ⟨casts, args, tail, hargs, hnew, htail⟩ := rewriteCall_eq_some hrewrite
  obtain ⟨hcasts, -⟩ := convertArgs_spec hargs
  refine ⟨f, casts, _, tail, hop, hnew, fun i hi => h.fresh_le_of_mem_new hi,
    fun cast hcast => (hcasts cast hcast).2.1, rfl, rfl, rfl, ?_, ?_⟩
  · apply passedAll_of_convertArgs target hargs
    · exact (keepsBits_map_iff target h.results _ _).2 hbits
    · exact fun cast hcast => hcast
  · rcases htail with ⟨htail, htype, hvalue⟩ | ⟨op, hcast, htail, hvalue⟩
    · exact Or.inl ⟨htail, htype, hvalue⟩
    · exact Or.inr ⟨_, op, htail, hcast, rfl, rfl, rfl, hvalue⟩

theorem preserves_of_walked {F : Function} {σ : Value → Value} {new : Inst → List Inst} {s : State}
    (h : Walked F σ new F.blocks.flatten s) (target : Target)
    (hkeeps : ∀ call ∈ F.blocks.flatten, Preservable target call) :
    Preserves target F (F.blocks.map (·.flatMap (pieceOf σ new))) := by
  refine ⟨σ, pieceOf σ new, rfl, fun inst hinst => ?_, fun v => ?_⟩
  · rw [pieceOf]
    split
    · next hcall => exact Or.inr (h.direct target hinst hcall (hkeeps inst hinst))
    · exact Or.inl rfl
  · rcases h.substitutes v with heq | ⟨inst, hinst, hcall, rfl⟩
    · exact Or.inl heq
    · refine Or.inr ⟨inst, hinst, rfl, ?_⟩
      rw [pieceOf, if_pos hcall]
      exact h.direct target hinst hcall (hkeeps inst hinst)

/-- The substitution of preserved calls. -/
theorem Direct.result {target : Target} {fresh : ℕ} {σ : Value → Value} {old : Inst}
    {new : List Inst} (h : Direct target fresh σ old new) :
    ∃ ref' : Ref, σ (.instr old.ref) = .instr ref' ∧ ref'.type = old.ref.type := by
  obtain ⟨f, casts, newCall, tail, -, -, -, -, -, -, -, -, hreplaced⟩ := h
  rcases hreplaced with ⟨-, htype, heq⟩ | ⟨result, op, -, -, -, -, htype, heq⟩
  · exact ⟨newCall.ref, heq, htype⟩
  · exact ⟨result.ref, heq, htype⟩

/-- A call of a bitcast does not stand in what the pass returns, whatever its operands become. -/
theorem Walked.not_mem_pieces {F : Function} {σ : Value → Value} {new : Inst → List Inst}
    {s : State} (h : Walked F σ new F.blocks.flatten s) {call : Inst}
    (hmem : call ∈ F.blocks.flatten) (hcall : call.isBitcastCall = true) (σ' : Value → Value) :
    call.mapOperands σ' ∉ (F.blocks.map (·.flatMap (pieceOf σ new))).flatten := by
  intro hstands
  obtain ⟨_, hblock, hin⟩ := List.mem_flatten.1 hstands
  obtain ⟨block, hold, rfl⟩ := List.mem_map.1 hblock
  obtain ⟨inst, hinst, hin⟩ := List.mem_flatMap.1 hin
  have hinst : inst ∈ F.blocks.flatten := List.mem_flatten.2 ⟨block, hold, hinst⟩
  rw [pieceOf] at hin
  split at hin
  · -- new instructions have new numbers
    have hle := h.fresh_le_of_mem_new hin
    exact absurd (F.ref_lt call hmem) (Nat.not_lt.2 hle)
  · next hother =>
    have heq := List.mem_singleton.1 hin
    have href : (call.mapOperands σ').ref = (inst.mapOperands σ).ref := congrArg Inst.ref heq
    exact absurd (List.inj_on_of_nodup_map F.nodup hmem hinst href ▸ hcall) hother

/-- A target with pointers of 64 bits, and conversions that know the numbers zero and one. -/
def zeroOne : Target where
  pointerBits _ := 64
  toUI kind _ x := if x = kind.one then 1 else 0
  ofUI kind x := if x = 1 then kind.one else 0
  toUI_one _ _ := if_pos rfl
  ofUI_one _ := if_pos rfl

/-- A function of one parameter. -/
def oneParameter : FunctionDecl := ⟨0, [.integer (Nat.toPNat' 32)], false, .void⟩

/-- A body that calls it without an argument. -/
def missingArgument : Function where
  blocks := [[⟨⟨0, .void⟩, .call (.bitcast (.function oneParameter)), [], []⟩]]
  fresh := 1
  nodup := by decide
  ref_lt := by decide
  operand_lt := by simp

end FunctionBitCastKiller

end Borealis
