import Borealis.PredicateAnalysis.DefaultPredicateAnalysis

/-!
# Which instruction predicates hold

The predicate of an instruction holds at the end of an execution unless it is one of the following.

* An unsigned division or remainder, of which the term takes the signed one.  The two agree while
  both operands are below half of the range, and here and there beyond.
* An operator or comparison of type `i1` that does not exist for boolean terms.
* A `trunc` to `i1`, which keeps the lowest bit where the predicate compares with zero: they differ
  for an even value other than 0.

`predicates_satisfied_iff` says so for a whole straight-line sequence.
-/

namespace Borealis

open DefaultPredicateAnalysis

variable {σ : MachineState} {w : Nat}

/-! ## Meanings of operands -/

theorem Ty.ofWidth_of_ne (hw : w ≠ 1) : Ty.ofWidth w = .integer w .unknown := if_neg hw

theorem Meaning.ofValue_of_ne (hw : w ≠ 1) (x : BitVec w) : Meaning.ofValue x = .bv w x := if_neg hw

theorem Meaning.ofValue_one (x : BitVec 1) : Meaning.ofValue x = .bool (x.toNat = 1) := rfl

theorem meaning_getLocalValueTerm (name : String) :
    (getLocalValueTerm w name).meaning σ = some (Meaning.ofValue (σ w name)) := by
  by_cases hw : w = 1
  · subst hw
    rfl
  · rw [getLocalValueTerm, Ty.ofWidth_of_ne hw, Meaning.ofValue_of_ne hw]
    rfl

/-- **An operand means its machine value.** -/
theorem meaning_getValueTerm (op : IntOperand w) :
    op.getValueTerm.meaning σ = some (Meaning.ofValue (op.value σ)) := by
  cases op with
  | argument idx name =>
      by_cases hw : w = 1
      · subst hw
        rfl
      · rw [IntOperand.getValueTerm, Ty.ofWidth_of_ne hw, Meaning.ofValue_of_ne hw]
        rfl
  | instruction name => exact meaning_getLocalValueTerm name
  | constant value =>
      by_cases hw : w = 1
      · subst hw
        rfl
      · rw [IntOperand.getValueTerm, if_neg hw, Meaning.ofValue_of_ne hw, IntOperand.value]
        split
        · show some (Meaning.bv w (BitVec.ofNat w
            (Nat.ofDigitChars 10 (toString value.toNat).toList 0))) = _
          have hdigits : Nat.ofDigitChars 10 (toString value.toNat).toList 0 = value.toNat := by
            rw [show toString value.toNat = value.toNat.repr from rfl, Nat.toList_repr]
            exact Nat.ofDigitChars_ten_toDigits
          rw [hdigits, BitVec.ofNat_toNat, BitVec.setWidth_eq]
        · next hle =>
          have hint : BitVec.ofInt w (value.setWidth 64).toInt = value := by
            show (value.setWidth 64).signExtend w = value
            rw [BitVec.signExtend_eq_setWidth_of_le _ (by omega),
              BitVec.setWidth_setWidth_of_le _ (by omega), BitVec.setWidth_eq]
          show some (Meaning.bv w (BitVec.ofInt w (value.setWidth 64).toInt)) = _
          rw [hint]

/-- An equality with the result of an instruction holds when the other side means that result. -/
theorem satisfied_equality_iff {type : PredicateType} {name : String} {rhv : Term} :
    (Predicate.equality type (getLocalValueTerm w name) rhv).Satisfied σ ↔
      rhv.meaning σ = some (Meaning.ofValue (σ w name)) := by
  constructor
  · rintro ⟨m, hlhv, hrhv⟩
    rw [meaning_getLocalValueTerm] at hlhv
    rw [hrhv, ← hlhv]
  · intro hrhv
    exact ⟨_, meaning_getLocalValueTerm name, hrhv⟩

/-! ## Binary operators -/

/-- The term of a binary operator says what the machine computes. -/
def BinaryOps.Represented (op : BinaryOps) (x y : BitVec w) : Prop :=
  if w = 1 then op = .and ∨ op = .or ∨ op = .xor
  else
    match op with
    | .udiv => y.toNat = 1 ∨ x = y ∨ x.msb = false ∧ x.toNat + y.toNat < 2 ^ w
    | .urem => x = y ∨ x.msb = false ∧ x.toNat + y.toNat < 2 ^ w ∨
        x.msb = true ∧ y.msb = false ∧ y.toNat ∣ x.toNat ∧ y.toNat ∣ 2 ^ w
    | _ => True

/-- The operators on wider values. -/
theorem bvArith_eq_iff {op : BinaryOps} {x y z : BitVec w} (hw : w ≠ 1)
    (hz : op.value x y = some z) :
    Meaning.bvArith (arithType op) x y = some z ↔ op.Represented x y := by
  unfold BinaryOps.Represented
  rw [if_neg hw]
  cases op with
  | udiv =>
      rw [BinaryOps.value] at hz
      split_ifs at hz with hy
      obtain rfl := Option.some.inj hz
      exact Option.some_inj.trans (Lib.sdiv_eq_udiv_iff hy)
  | urem =>
      rw [BinaryOps.value] at hz
      split_ifs at hz with hy
      obtain rfl := Option.some.inj hz
      exact Option.some_inj.trans (Lib.srem_eq_umod_iff hy)
  | sdiv | srem | shl | lshr | ashr =>
      rw [BinaryOps.value] at hz
      split_ifs at hz with hdefined
      exact iff_of_true hz trivial
  | add | sub | mul | and | or | xor => exact iff_of_true hz trivial

/-- The operators on booleans. -/
theorem boolArith_eq_iff {op : BinaryOps} {x y z : BitVec 1} (hz : op.value x y = some z) :
    Meaning.boolArith (arithType op) (x.toNat = 1) (y.toNat = 1) = some (decide (z.toNat = 1)) ↔
      op.Represented x y := by
  unfold BinaryOps.Represented
  rw [if_pos rfl]
  have hvalues : ∀ u : BitVec 1, u = 0#1 ∨ u = 1#1 := by decide
  cases op with
  | and | or | xor =>
      obtain rfl := Option.some.inj hz
      rcases hvalues x with rfl | rfl <;> rcases hvalues y with rfl | rfl <;> decide
  | add | sub | mul | udiv | sdiv | urem | srem | shl | lshr | ashr =>
      exact iff_of_false (Option.some_ne_none _).symm (by decide)

theorem satisfied_visitBinaryOperator_iff (FN : TermFactory) {result : String} {op : BinaryOps}
    {op1 op2 : IntOperand w} (h : op.value (op1.value σ) (op2.value σ) = some (σ w result)) :
    (visitBinaryOperator FN result op op1 op2).Satisfied σ ↔
      op.Represented (op1.value σ) (op2.value σ) := by
  have hread : (FN.getBinaryTerm (arithType op) op1.getValueTerm op2.getValueTerm).meaning σ =
      (Meaning.ofValue (op1.value σ)).arith (arithType op) (Meaning.ofValue (op2.value σ)) := by
    rw [TermFactory.getBinaryTerm, Term.meaning, Term.meanings, Term.meanings, Term.meanings,
      meaning_getValueTerm, meaning_getValueTerm]
    rfl
  rw [visitBinaryOperator, satisfied_equality_iff, hread]
  by_cases hw : w = 1
  · subst hw
    rw [← boolArith_eq_iff h, Meaning.ofValue_one, Meaning.ofValue_one, Meaning.ofValue_one,
      Meaning.arith, Option.map_eq_some_iff]
    constructor
    · rintro ⟨b, hb, heq⟩
      rw [hb, Meaning.bool.inj heq]
    · exact fun hb => ⟨_, hb, rfl⟩
  · rw [← bvArith_eq_iff hw h, Meaning.ofValue_of_ne hw, Meaning.ofValue_of_ne hw,
      Meaning.ofValue_of_ne hw, Meaning.arith, dif_pos rfl, Option.map_eq_some_iff]
    constructor
    · rintro ⟨z, hz, heq⟩
      rw [hz, eq_of_heq (Meaning.bv.inj heq).2]
    · exact fun hz => ⟨_, hz, rfl⟩

/-! ## Comparisons -/

/-- The term of a comparison says what the machine computes. -/
def CmpPredicate.Represented (w : Nat) (predicate : CmpPredicate) : Prop :=
  w = 1 → predicate = .eq ∨ predicate = .ne

theorem Meaning.ofValue_ofBool (b : Bool) : Meaning.ofValue (BitVec.ofBool b) = .bool b := by
  cases b <;> rfl

/-- Booleans can only be compared for equality. -/
theorem compare_bool_iff {predicate : CmpPredicate} {x y : BitVec 1} :
    (Meaning.ofValue x).compare (conditionType predicate) (Meaning.ofValue y) =
        some (.bool (predicate.value x y)) ↔ predicate = .eq ∨ predicate = .ne := by
  have hvalues : ∀ u : BitVec 1, u = 0#1 ∨ u = 1#1 := by decide
  rcases hvalues x with rfl | rfl <;> rcases hvalues y with rfl | rfl <;> cases predicate <;>
    decide

/-- Wider values are compared as the machine does. -/
theorem compare_wide (hw : w ≠ 1) (predicate : CmpPredicate) (x y : BitVec w) :
    (Meaning.ofValue x).compare (conditionType predicate) (Meaning.ofValue y) =
      some (.bool (predicate.value x y)) := by
  rw [Meaning.ofValue_of_ne hw, Meaning.ofValue_of_ne hw, Meaning.compare, dif_pos rfl]
  cases predicate <;> rfl

theorem satisfied_visitCmpInst_iff (FN : TermFactory) {result : String} {predicate : CmpPredicate}
    {op1 op2 : IntOperand w}
    (h : σ 1 result = BitVec.ofBool (predicate.value (op1.value σ) (op2.value σ))) :
    (visitCmpInst FN result predicate op1 op2).Satisfied σ ↔ predicate.Represented w := by
  have hread : (FN.getCmpTerm (conditionType predicate) op1.getValueTerm
      op2.getValueTerm).meaning σ =
        (Meaning.ofValue (op1.value σ)).compare (conditionType predicate)
          (Meaning.ofValue (op2.value σ)) := by
    rw [TermFactory.getCmpTerm, Term.meaning, Term.meanings, Term.meanings, Term.meanings,
      meaning_getValueTerm, meaning_getValueTerm]
    rfl
  rw [visitCmpInst, satisfied_equality_iff, hread, h, Meaning.ofValue_ofBool,
    CmpPredicate.Represented]
  by_cases hw : w = 1
  · subst hw
    rw [compare_bool_iff]
    exact ⟨fun heq _ => heq, fun heq => heq rfl⟩
  · exact iff_of_true (compare_wide hw _ _ _) fun hone => absurd hone hw

/-! ## Casts -/

/-- A cast between wider types. -/
theorem satisfied_visitCastInst_wide (FN : TermFactory) {m n : Nat} {result : String}
    {signExtend : Bool} {op : IntOperand m} (hm : m ≠ 1) (hn : n ≠ 1)
    (h : σ n result =
      if signExtend then (op.value σ).signExtend n else (op.value σ).setWidth n) :
    (visitCastInst FN n result signExtend op).Satisfied σ := by
  have hpredicate : visitCastInst FN n result signExtend op = .equality .invariant
      (getLocalValueTerm n result) (FN.getCastTerm (Ty.ofWidth n) signExtend op.getValueTerm) := by
    rw [visitCastInst, if_neg fun h => hn h.1, if_neg fun h => hm h.2]
  rw [hpredicate, satisfied_equality_iff, TermFactory.getCastTerm, Term.meaning, Term.meanings,
    Term.meanings, meaning_getValueTerm, Meaning.ofValue_of_ne hm, Meaning.ofValue_of_ne hn,
    Ty.ofWidth_of_ne hn, h]
  rfl

/-- The comparison with zero that a cast makes of a wider value. -/
theorem meaning_neq_zero (FN : TermFactory) (hw : w ≠ 1) {t : Term} {x : BitVec w}
    (ht : t.meaning σ = some (.bv w x)) :
    (FN.getCmpTerm .neq t (TermFactory.getIntTerm 0 (Ty.ofWidth w))).meaning σ =
      some (.bool (decide (x ≠ 0))) := by
  have hzero : (TermFactory.getIntTerm 0 (Ty.ofWidth w)).meaning σ = some (.bv w 0) := by
    rw [TermFactory.getIntTerm, Ty.ofWidth_of_ne hw]
    exact congrArg (fun z => some (Meaning.bv w z)) (BitVec.ofInt_natCast w 0)
  rw [TermFactory.getCmpTerm, Term.meaning, Term.meanings, Term.meanings, Term.meanings, ht, hzero]
  show Meaning.compare .neq (.bv w x) (.bv w 0) = _
  rw [Meaning.compare, dif_pos rfl]
  rfl

/-- **A value cut down to one bit** is compared with zero instead. -/
theorem satisfied_trunc_one_iff (FN : TermFactory) {m : Nat} {result : String} {op : IntOperand m}
    (hm : m ≠ 1) (h : σ 1 result = (op.value σ).setWidth 1) :
    (visitCastInst FN 1 result false op).Satisfied σ ↔
      op.value σ = 0 ∨ (op.value σ).toNat % 2 = 1 := by
  have hop : op.getValueTerm.meaning σ = some (.bv m (op.value σ)) := by
    rw [meaning_getValueTerm, Meaning.ofValue_of_ne hm]
  have hpredicate : visitCastInst FN 1 result false op = .equality .invariant
      (getLocalValueTerm 1 result)
      (FN.getCmpTerm .neq op.getValueTerm (TermFactory.getIntTerm 0 (Ty.ofWidth m))) := by
    rw [visitCastInst, if_pos ⟨rfl, hm⟩]
  rw [hpredicate, satisfied_equality_iff, meaning_neq_zero FN hm hop, Meaning.ofValue_one, h,
    Option.some_inj, Meaning.bool.injEq, decide_eq_decide, BitVec.toNat_setWidth, pow_one]
  by_cases hzero : op.value σ = 0
  · rw [hzero]
    simp
  · refine ⟨fun heq => Or.inr (heq.1 hzero), fun hodd => ?_⟩
    exact iff_of_true hzero (hodd.resolve_left hzero)

/-- **A bit that is extended** is compared with zero afterwards. -/
theorem satisfied_extend_one (FN : TermFactory) {n : Nat} {result : String} {signExtend : Bool}
    {op : IntOperand 1} (hn : n ≠ 1) (h : σ n result = 0 ↔ op.value σ = 0) :
    (visitCastInst FN n result signExtend op).Satisfied σ := by
  have hpredicate : visitCastInst FN n result signExtend op = .equality .invariant
      (FN.getCmpTerm .neq (getLocalValueTerm n result)
        (TermFactory.getIntTerm 0 (Ty.ofWidth n))) op.getValueTerm := by
    rw [visitCastInst, if_neg fun h => hn h.1, if_pos ⟨hn, rfl⟩]
  have hlhv : (getLocalValueTerm n result).meaning σ = some (.bv n (σ n result)) := by
    rw [meaning_getLocalValueTerm, Meaning.ofValue_of_ne hn]
  rw [hpredicate]
  refine ⟨_, meaning_neq_zero FN hn hlhv, ?_⟩
  rw [meaning_getValueTerm, Meaning.ofValue_one, Option.some_inj, Meaning.bool.injEq,
    decide_eq_decide, ne_eq, h]
  have hvalues : ∀ u : BitVec 1, u.toNat = 1 ↔ ¬ u = 0 := by decide
  exact hvalues _

theorem setWidth_eq_zero_iff {n : Nat} (hn : 0 < n) {x : BitVec 1} :
    x.setWidth n = 0#n ↔ x = 0#1 := by
  have hx : x.toNat < 2 ^ n := lt_of_lt_of_le x.isLt (Nat.pow_le_pow_right (by omega) hn)
  rw [← BitVec.toNat_inj, BitVec.toNat_setWidth, Nat.mod_eq_of_lt hx, ← BitVec.toNat_inj,
    BitVec.toNat_zero, BitVec.toNat_zero]

theorem signExtend_eq_zero_iff {n : Nat} (hn : 0 < n) {x : BitVec 1} :
    x.signExtend n = 0#n ↔ x = 0#1 := by
  have hvalues : x = 0#1 ∨ x = 1#1 := by
    revert x
    decide
  rcases hvalues with rfl | rfl
  · refine iff_of_true ?_ rfl
    show BitVec.ofInt n (0#1).toInt = 0#n
    rw [BitVec.toInt_zero]
    exact BitVec.ofInt_natCast n 0
  · refine iff_of_false (fun heq => ?_) (by decide)
    -- the lowest bit is the one that is extended
    have hbit := congrArg (fun v => v.getLsbD 0) heq
    rw [BitVec.getLsbD_signExtend] at hbit
    simp [hn] at hbit

/-! ## Sequences -/

/-- **What the predicate of an instruction says is what the machine computes.** -/
def IntInstruction.Represented (σ : MachineState) : {n : Nat} → IntInstruction n → Prop
  | _, .binary _ op op1 op2 => op.Represented (op1.value σ) (op2.value σ)
  | _, @IntInstruction.icmp w _ predicate _ _ => predicate.Represented w
  | n, .trunc _ _ op => n = 1 → op.value σ = 0 ∨ (op.value σ).toNat % 2 = 1
  | _, .zext _ _ _ | _, .sext _ _ _ | _, .select _ _ _ _ | _, .phi _ _ => True

/-- **The predicate of one instruction holds exactly when the instruction is represented.** -/
theorem satisfied_visit_iff (FN : TermFactory) {source : String} {n : Nat} {i : IntInstruction n}
    (h : i.value source σ = some (σ n i.result)) :
    (visit FN source i).Satisfied σ ↔ i.Represented σ := by
  cases i with
  | binary result op op1 op2 => exact satisfied_visitBinaryOperator_iff FN h
  | icmp result predicate op1 op2 =>
      exact satisfied_visitCmpInst_iff FN (Option.some.inj h).symm
  | trunc result hlt op =>
      have hvalue := (Option.some.inj h).symm
      by_cases hn : n = 1
      · subst hn
        refine (satisfied_trunc_one_iff FN (by omega) hvalue).trans ?_
        exact ⟨fun heq _ => heq, fun heq => heq rfl⟩
      · refine iff_of_true ?_ fun hone => absurd hone hn
        exact satisfied_visitCastInst_wide FN (by omega) hn hvalue
  | @zext m _ result hlt op =>
      have hvalue := (Option.some.inj h).symm
      refine iff_of_true ?_ trivial
      by_cases hm : m = 1
      · subst hm
        exact satisfied_extend_one FN (by omega) (hvalue ▸ setWidth_eq_zero_iff (by omega))
      · exact satisfied_visitCastInst_wide FN hm (by omega) hvalue
  | @sext m _ result hlt op =>
      have hvalue := (Option.some.inj h).symm
      refine iff_of_true ?_ trivial
      by_cases hm : m = 1
      · subst hm
        exact satisfied_extend_one FN (by omega) (hvalue ▸ signExtend_eq_zero_iff (by omega))
      · exact satisfied_visitCastInst_wide FN hm (by omega) hvalue
  | select result cnd tru fls =>
      refine iff_of_true ?_ trivial
      refine satisfied_equality_iff.2 ?_
      rw [TermFactory.getTernaryTerm, Term.meaning, Term.meanings, Term.meanings, Term.meanings,
        Term.meanings, meaning_getValueTerm, meaning_getValueTerm, meaning_getValueTerm,
        Meaning.ofValue_one]
      have hvalue : σ n result = if cnd.value σ = 1 then tru.value σ else fls.value σ :=
        (Option.some.inj h).symm
      rw [hvalue]
      show some (if decide ((cnd.value σ).toNat = 1) then Meaning.ofValue (tru.value σ)
        else Meaning.ofValue (fls.value σ)) = _
      have hcnd : (cnd.value σ).toNat = 1 ↔ cnd.value σ = 1 := BitVec.toNat_inj (y := 1#1)
      simp only [decide_eq_true_eq, hcnd]
      split_ifs <;> rfl
  | phi result incoming =>
      refine iff_of_true ?_ trivial
      refine satisfied_equality_iff.2 ?_
      have hvalue : σ n result = (incoming source).value σ := (Option.some.inj h).symm
      rw [meaning_getValueTerm, hvalue]

/-- **The predicates of a straight-line sequence hold exactly when its instructions are
represented.** -/
theorem predicates_satisfied_iff (FN : TermFactory) {is : List Executed} {σ₀ σ : MachineState}
    (hssa : StraightLine.SSA is) (hrun : StraightLine.run is σ₀ = some σ) :
    (∀ s ∈ is, (visit FN s.source s.instruction).Satisfied σ) ↔
      ∀ s ∈ is, s.instruction.Represented σ := by
  have hvalue := StraightLine.value_of_run hssa hrun
  exact forall₂_congr fun s hs => satisfied_visit_iff FN (hvalue s hs)

/-- Every variable holds the same number. -/
def constantState (k : Nat) : MachineState := fun w _ => BitVec.ofNat w k

/-- `%s = add i8 %x, 3` and `%q = udiv i8 %s, 2`. -/
def addAndHalve : List Executed :=
  [⟨"entry", 8, .binary "s" .add (.argument 0 "x") (.constant 3)⟩,
    ⟨"entry", 8, .binary "q" .udiv (.instruction "s") (.constant 2)⟩]

theorem ssa_addAndHalve : StraightLine.SSA addAndHalve := by
  refine ⟨by decide, ?_, by decide, ?_, trivial⟩
  · intro t ht
    obtain rfl := List.mem_singleton.1 ht
    decide
  · exact fun t ht => absurd ht List.not_mem_nil

/-- Small numbers are divided as the predicates say. -/
theorem predicates_satisfied_small :
    (visit ⟨fun _ type _ => type, fun _ _ _ => ""⟩ "entry"
      (.binary "q" .udiv (.instruction "s" : IntOperand 8) (.constant 2))).Satisfied
        (((constantState 5).set 8 "s" 8).set 8 "q" 4) := by
  have hall := (predicates_satisfied_iff ⟨fun _ type _ => type, fun _ _ _ => ""⟩ ssa_addAndHalve
    (show StraightLine.run addAndHalve (constantState 5) = some _ from rfl)).2 ?_
  · exact hall _ (List.mem_cons_of_mem _ List.mem_cons_self)
  · refine List.forall_mem_cons.2 ⟨trivial, List.forall_mem_cons.2 ⟨?_, ?_⟩⟩
    · exact Or.inr (Or.inr (by decide))
    · exact fun s hs => absurd hs List.not_mem_nil

/-- `%q = udiv i8 %x, 2`. -/
def halve : List Executed :=
  [⟨"entry", 8, .binary "q" .udiv (.argument 0 "x") (.constant 2)⟩]

theorem ssa_halve : StraightLine.SSA halve :=
  ⟨by decide, fun t ht => absurd ht List.not_mem_nil, trivial⟩

/-- **An unsigned division of a large number breaks its predicate.** -/
theorem udiv_predicate_fails :
    ¬ ∀ (FN : TermFactory) (is : List Executed) (σ₀ σ : MachineState), StraightLine.SSA is →
      StraightLine.run is σ₀ = some σ →
        ∀ s ∈ is, (visit FN s.source s.instruction).Satisfied σ := by
  intro hclaim
  have hsatisfied := hclaim ⟨fun _ type _ => type, fun _ _ _ => ""⟩ halve (constantState 255)
    ((constantState 255).set 8 "q" 127) ssa_halve rfl _ List.mem_cons_self
  have hrepresented := (satisfied_visitBinaryOperator_iff _ rfl).1 hsatisfied
  rcases hrepresented with hone | heq | hsmall
  · exact absurd hone (by decide)
  · exact absurd heq (by decide)
  · exact absurd hsmall (by decide)

end Borealis
