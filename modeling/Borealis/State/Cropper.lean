import Borealis.State.Builder

/-!
# Cropping a state

`cropStateOn` cuts a state off behind the first predicate that a checker accepts.  A chain is cut
in its base, and otherwise in its other part; of a choice only the alternatives are left in which
something was cut.

The walk looks at every state once, and does not know the paths.  Cutting the base of a chain
drops the paths that are to be cut behind it, so that cutting a state is cutting its paths when no
path is accepted twice (`language_cropStateOn`).
-/

namespace Borealis

open PredicateState

variable {Pred : Type}

namespace Cropper

variable (checker : Pred → Bool)

/-- The loop of `transformBasic`: the predicates it collects, and whether the checker has accepted
the last one. -/
def collect : List Pred → List Pred × Bool
  | [] => ([], false)
  | pred :: data =>
    if checker pred then ([pred], true)
    else (pred :: (collect data).1, (collect data).2)

mutual
/-- `transform`, with the flag `crop` before and after the call. -/
def transform : PredicateState Pred → Bool → PredicateState Pred × Bool
  | basic data, crop =>
    if crop then (basic data, crop)
    else if (collect checker data).2 then (basic (collect checker data).1, true)
    else (basic data, crop)
  | chain base curr, crop =>
    if crop then (chain base curr, crop)
    else
      let rebase := transform base crop
      if rebase.2 then (rebase.1, true)
      else
        let recurr := transform curr rebase.2
        if recurr.2 then (PredicateStateFactory.chain rebase.1 recurr.1, true)
        else (chain base curr, false)
  | choice choices, crop =>
    if crop then (choice choices, crop)
    else
      match transformAll choices with
      | [] => (choice choices, false)
      | croppedChoice => (PredicateStateFactory.choice croppedChoice, true)

/-- The loop of `transformChoice`: the alternatives in which something was cut. -/
def transformAll : List (PredicateState Pred) → List (PredicateState Pred)
  | [] => []
  | sub :: choices =>
    let cropped := transform sub false
    if cropped.2 then cropped.1 :: transformAll choices else transformAll choices
end

/-- `cropStateOn`. -/
def cropStateOn (state : PredicateState Pred) : PredicateState Pred :=
  (transform checker state false).1

/-! ## Cutting paths -/

/-- The checker accepts a predicate of the path. -/
def Hits (p : List Pred) : Prop := (collect checker p).2 = true

/-- The paths that the checker accepts a predicate of, cut off behind the first one. -/
def cropped (L : Language Pred) : Language Pred := {q | ∃ p ∈ L, collect checker p = (q, true)}

attribute [local simp] collect

variable {checker}

theorem mem_cropped {L : Language Pred} {q : List Pred} :
    q ∈ cropped checker L ↔ ∃ p ∈ L, collect checker p = (q, true) := Iff.rfl

theorem hits_iff {p : List Pred} : Hits checker p ↔ ∃ x ∈ p, checker x = true := by
  induction p with
  | nil => simp [Hits]
  | cons x p ih =>
      rw [Hits] at ih ⊢
      by_cases hx : checker x = true
      · simp [hx]
      · simp [hx, ih]

theorem hits_cons {x : Pred} {p : List Pred} :
    Hits checker (x :: p) ↔ checker x = true ∨ Hits checker p := by
  simp only [hits_iff, List.mem_cons, exists_eq_or_imp]

theorem collect_append_of_hits {p : List Pred} (h : Hits checker p) (q : List Pred) :
    collect checker (p ++ q) = collect checker p := by
  induction p with
  | nil => exact absurd h Bool.false_ne_true
  | cons x p ih =>
      by_cases hx : checker x = true
      · simp [hx]
      · have htail : Hits checker p := by simpa [Hits, hx] using h
        simp [hx, ih htail]

theorem collect_append_of_not_hits {p : List Pred} (h : ¬ Hits checker p) (q : List Pred) :
    collect checker (p ++ q) = (p ++ (collect checker q).1, (collect checker q).2) := by
  induction p with
  | nil => rfl
  | cons x p ih =>
      rw [hits_cons, not_or] at h
      simp [h.1, ih h.2]

theorem hits_of_collect {p q : List Pred} (h : collect checker p = (q, true)) :
    Hits checker p := congrArg Prod.snd h

theorem hits_append {p q : List Pred} :
    Hits checker (p ++ q) ↔ Hits checker p ∨ Hits checker q := by
  simp only [hits_iff, List.mem_append, or_and_right, exists_or]

/-- The part of a path that is kept is not empty. -/
theorem ne_nil_of_collect {p q : List Pred} (h : collect checker p = (q, true)) : q ≠ [] := by
  cases p with
  | nil => exact absurd (hits_of_collect h) Bool.false_ne_true
  | cons x p =>
      rintro rfl
      by_cases hx : checker x = true <;> simp [hx] at h

/-- No path of the language is accepted in two places. -/
def Once (checker : Pred → Bool) (L : Language Pred) : Prop :=
  ∀ p q, p ++ q ∈ L → Hits checker p → ¬ Hits checker q

/-- A path that is cut in front drops what follows. -/
theorem cropped_mul_of_hits {B C : Language Pred} (honce : Once checker (B * C))
    {p : List Pred} (hp : p ∈ B) (hhits : Hits checker p) {r : List Pred} (hr : r ∈ C) :
    cropped checker (B * C) = cropped checker B := by
  ext q
  rw [mem_cropped, mem_cropped]
  constructor
  · rintro ⟨_, hmem, hq⟩
    obtain ⟨b, hb, c, hc, rfl⟩ := Language.mem_mul.mp hmem
    have hbhits : Hits checker b := by
      by_contra hnot
      -- the part behind would be accepted, and with it the path that is accepted in front
      have hchits := (hits_append.mp (hits_of_collect hq)).resolve_left hnot
      exact honce p c (Language.append_mem_mul hp hc) hhits hchits
    rw [collect_append_of_hits hbhits] at hq
    exact ⟨b, hb, hq⟩
  · rintro ⟨b, hb, hq⟩
    refine ⟨b ++ r, Language.append_mem_mul hb hr, ?_⟩
    rw [collect_append_of_hits (hits_of_collect hq)]
    exact hq

theorem cropped_mul_of_not_hits {B C : Language Pred} (hB : ∀ p ∈ B, ¬ Hits checker p) :
    cropped checker (B * C) = B * cropped checker C := by
  ext q
  rw [mem_cropped, Language.mem_mul]
  constructor
  · rintro ⟨_, hmem, hq⟩
    obtain ⟨b, hb, c, hc, rfl⟩ := Language.mem_mul.mp hmem
    rw [collect_append_of_not_hits (hB b hb), Prod.mk.injEq] at hq
    exact ⟨b, hb, (collect checker c).1, ⟨c, hc, Prod.ext rfl hq.2⟩, hq.1⟩
  · rintro ⟨b, hb, d, ⟨c, hc, hd⟩, rfl⟩
    refine ⟨b ++ c, Language.append_mem_mul hb hc, ?_⟩
    rw [collect_append_of_not_hits (hB b hb), hd]

/-! ## Cutting states -/

/-- What a call makes of a state: nothing is changed if nothing is accepted; otherwise the paths
are cut. -/
structure Crops (checker : Pred → Bool) (s : PredicateState Pred)
    (result : PredicateState Pred × Bool) : Prop where
  snd_iff : result.2 = true ↔ ∃ p ∈ s.language, Hits checker p
  unchanged : result.2 = false → result.1 = s
  isTidy : result.1.isTidy = true
  language : result.2 = true → result.1.language = cropped checker s.language

theorem Crops.not_hits {s : PredicateState Pred} {result : PredicateState Pred × Bool}
    (h : Crops checker s result) (hresult : result.2 = false) :
    ∀ p ∈ s.language, ¬ Hits checker p := by
  intro p hp hhits
  exact Bool.false_ne_true (hresult.symm.trans (h.snd_iff.mpr ⟨p, hp, hhits⟩))

theorem Crops.isEmpty_eq_false {s : PredicateState Pred} {result : PredicateState Pred × Bool}
    (h : Crops checker s result) (hresult : result.2 = true) : result.1.isEmpty = false := by
  obtain ⟨p, hp, hhits⟩ := h.snd_iff.mp hresult
  have hmem : (collect checker p).1 ∈ result.1.language := by
    rw [h.language hresult]
    exact ⟨p, hp, Prod.ext rfl hhits⟩
  by_contra hempty
  rw [language_eq_one (Bool.not_eq_false _ ▸ hempty) h.isTidy, Language.mem_one] at hmem
  exact ne_nil_of_collect (Prod.ext rfl hhits : collect checker p = (_, true)) hmem

attribute [local simp] transform

theorem crops_basic (data : List Pred) :
    Crops checker (basic data) (transform checker (basic data) false) := by
  by_cases hhits : Hits checker data
  · have hrun : transform checker (basic data) false =
        (basic (collect checker data).1, true) := by
      have hsome : (collect checker data).2 = true := hhits
      rw [transform, if_neg Bool.false_ne_true, if_pos hsome]
    rw [hrun]
    refine ⟨⟨fun _ => ⟨data, mem_paths_basic.mpr rfl, hhits⟩, fun _ => rfl⟩,
      fun h => absurd h.symm Bool.false_ne_true, isTidy_basic _, fun _ => ?_⟩
    ext q
    rw [mem_language, mem_paths_basic, mem_cropped]
    constructor
    · rintro rfl
      exact ⟨data, mem_paths_basic.mpr rfl, Prod.ext rfl hhits⟩
    · rintro ⟨p, hp, hq⟩
      rw [mem_paths_basic.mp hp] at hq
      rw [hq]
  · have hrun : transform checker (basic data) false = (basic data, false) := by
      have hnone : ¬ (collect checker data).2 = true := hhits
      rw [transform, if_neg Bool.false_ne_true, if_neg hnone]
    rw [hrun]
    refine ⟨⟨fun h => absurd h Bool.false_ne_true, ?_⟩, fun _ => rfl, isTidy_basic _,
      fun h => absurd h Bool.false_ne_true⟩
    rintro ⟨p, hp, h⟩
    rw [mem_paths_basic.mp hp] at h
    exact absurd h hhits

theorem Once.left {B C : Language Pred} (h : Once checker (B * C)) {r : List Pred} (hr : r ∈ C) :
    Once checker B := by
  intro p q hpq hp hq
  have hmem : p ++ (q ++ r) ∈ B * C := by
    rw [← List.append_assoc]
    exact Language.append_mem_mul hpq hr
  exact h p (q ++ r) hmem hp (hits_append.mpr (Or.inl hq))

theorem Once.right {B C : Language Pred} (h : Once checker (B * C)) {r : List Pred} (hr : r ∈ B) :
    Once checker C := by
  intro p q hpq hp hq
  have hmem : (r ++ p) ++ q ∈ B * C := by
    rw [List.append_assoc]
    exact Language.append_mem_mul hr hpq
  exact h (r ++ p) q hmem (hits_append.mpr (Or.inr hp)) hq

theorem crops_chain {base curr : PredicateState Pred} (hs : (chain base curr).isTidy = true)
    (honce : Once checker (chain base curr).language)
    (hbase : Crops checker base (transform checker base false))
    (hcurr : Crops checker curr (transform checker curr false)) :
    Crops checker (chain base curr) (transform checker (chain base curr) false) := by
  obtain ⟨hbaseEmpty, -, hbaseTidy, hcurrTidy⟩ := isTidy_chain.mp hs
  obtain ⟨r, hr⟩ := exists_mem_paths (hasAlternatives_of_isTidy hcurrTidy)
  obtain ⟨l, hl⟩ := exists_mem_paths (hasAlternatives_of_isTidy hbaseTidy)
  rw [language_chain] at honce
  cases hb : (transform checker base false).2 with
  | true =>
      have hrun : transform checker (chain base curr) false =
          ((transform checker base false).1, true) := by
        rw [transform, if_neg Bool.false_ne_true, if_pos hb]
      obtain ⟨p, hp, hhits⟩ := hbase.snd_iff.mp hb
      rw [hrun]
      refine ⟨⟨fun _ => ⟨p ++ r, ?_, hits_append.mpr (Or.inl hhits)⟩, fun _ => rfl⟩,
        fun h => absurd h.symm Bool.false_ne_true, hbase.isTidy, fun _ => ?_⟩
      · rw [language_chain]
        exact Language.append_mem_mul hp hr
      · rw [language_chain, cropped_mul_of_hits honce hp hhits hr]
        exact hbase.language hb
  | false =>
      have hnot := hbase.not_hits hb
      cases hc : (transform checker curr false).2 with
      | true =>
          have hrun : transform checker (chain base curr) false =
              (chain base (transform checker curr false).1, true) := by
            rw [transform, if_neg Bool.false_ne_true, if_neg (by rw [hb]; exact Bool.false_ne_true)]
            dsimp only
            rw [hb, if_pos hc, hbase.unchanged hb, PredicateStateFactory.chain,
              if_neg (by rw [hbaseEmpty]; exact Bool.false_ne_true),
              if_neg (by rw [hcurr.isEmpty_eq_false hc]; exact Bool.false_ne_true)]
          obtain ⟨p, hp, hhits⟩ := hcurr.snd_iff.mp hc
          rw [hrun]
          refine ⟨⟨fun _ => ⟨l ++ p, ?_, hits_append.mpr (Or.inr hhits)⟩, fun _ => rfl⟩,
            fun h => absurd h.symm Bool.false_ne_true,
            isTidy_chain.mpr ⟨hbaseEmpty, hcurr.isEmpty_eq_false hc, hbaseTidy, hcurr.isTidy⟩,
            fun _ => ?_⟩
          · rw [language_chain]
            exact Language.append_mem_mul hl hp
          · rw [language_chain, language_chain, cropped_mul_of_not_hits hnot, hcurr.language hc]
      | false =>
          have hrun : transform checker (chain base curr) false = (chain base curr, false) := by
            rw [transform, if_neg Bool.false_ne_true, if_neg (by rw [hb]; exact Bool.false_ne_true)]
            dsimp only
            rw [hb, if_neg (by rw [hc]; exact Bool.false_ne_true)]
          rw [hrun]
          refine ⟨⟨fun h => absurd h Bool.false_ne_true, ?_⟩, fun _ => rfl, hs,
            fun h => absurd h Bool.false_ne_true⟩
          rintro ⟨_, hmem, hhits⟩
          rw [language_chain] at hmem
          obtain ⟨b, hbmem, c, hcmem, rfl⟩ := Language.mem_mul.mp hmem
          rcases hits_append.mp hhits with h | h
          · exact absurd h (hnot b hbmem)
          · exact absurd h (hcurr.not_hits hc c hcmem)

/-- The alternatives that are kept are those that are accepted, cut. -/
theorem transformAll_spec {choices : List (PredicateState Pred)}
    (h : ∀ c ∈ choices, Crops checker c (transform checker c false)) :
    (∀ t ∈ transformAll checker choices, t.isTidy = true) ∧
      (∀ q, (∃ t ∈ transformAll checker choices, q ∈ t.language) ↔
        ∃ c ∈ choices, q ∈ cropped checker c.language) ∧
      (transformAll checker choices = [] ↔ ∀ c ∈ choices, ∀ p ∈ c.language, ¬ Hits checker p) := by
  induction choices with
  | nil => simp [transformAll]
  | cons c cs ih =>
      obtain ⟨hc, hcs⟩ := List.forall_mem_cons.mp h
      obtain ⟨ihTidy, ihMem, ihNil⟩ := ih hcs
      cases hresult : (transform checker c false).2 with
      | true =>
          have hrun : transformAll checker (c :: cs) =
              (transform checker c false).1 :: transformAll checker cs := by
            rw [transformAll, if_pos hresult]
          rw [hrun]
          refine ⟨List.forall_mem_cons.mpr ⟨hc.isTidy, ihTidy⟩, fun q => ?_, ?_⟩
          · simp only [List.mem_cons, exists_eq_or_imp]
            rw [ihMem q, hc.language hresult]
          · refine ⟨fun hnil => absurd hnil (List.cons_ne_nil _ _), fun hnone => ?_⟩
            obtain ⟨p, hp, hhits⟩ := hc.snd_iff.mp hresult
            exact absurd hhits (hnone c List.mem_cons_self p hp)
      | false =>
          have hrun : transformAll checker (c :: cs) = transformAll checker cs := by
            rw [transformAll, if_neg (by rw [hresult]; exact Bool.false_ne_true)]
          have hnot := hc.not_hits hresult
          rw [hrun]
          refine ⟨ihTidy, fun q => ?_, ?_⟩
          · rw [ihMem q]
            simp only [List.mem_cons, exists_eq_or_imp]
            refine ⟨Or.inr, fun hq => hq.resolve_left ?_⟩
            rintro ⟨p, hp, hq⟩
            exact hnot p hp (hits_of_collect hq)
          · rw [ihNil, List.forall_mem_cons]
            exact ⟨fun hall => ⟨hnot, hall⟩, fun hall => hall.2⟩

theorem crops_choice {choices : List (PredicateState Pred)}
    (hs : (choice choices).isTidy = true)
    (h : ∀ c ∈ choices, Crops checker c (transform checker c false)) :
    Crops checker (choice choices) (transform checker (choice choices) false) := by
  obtain ⟨htidy, hmem, hnil⟩ := transformAll_spec h
  rcases hcases : transformAll checker choices with _ | ⟨t, ts⟩
  · have hrun : transform checker (choice choices) false = (choice choices, false) := by
      rw [transform, if_neg Bool.false_ne_true, hcases]
    rw [hrun]
    refine ⟨⟨fun h => absurd h Bool.false_ne_true, ?_⟩, fun _ => rfl, hs,
      fun h => absurd h Bool.false_ne_true⟩
    rintro ⟨p, hp, hhits⟩
    obtain ⟨c, hc, hp⟩ := mem_language_choice.mp hp
    exact absurd hhits (hnil.mp hcases c hc p hp)
  · have hrun : transform checker (choice choices) false =
        (PredicateStateFactory.choice (t :: ts), true) := by
      rw [transform, if_neg Bool.false_ne_true, hcases]
    rw [hcases] at htidy hmem
    have hlanguage : (PredicateStateFactory.choice (t :: ts)).language =
        cropped checker (choice choices).language := by
      ext q
      rw [language_factoryChoice, mem_language_choice, hmem q, mem_cropped]
      constructor
      · rintro ⟨c, hc, p, hp, hq⟩
        exact ⟨p, mem_language_choice.mpr ⟨c, hc, hp⟩, hq⟩
      · rintro ⟨p, hp, hq⟩
        obtain ⟨c, hc, hp⟩ := mem_language_choice.mp hp
        exact ⟨c, hc, p, hp, hq⟩
    rw [hrun]
    refine ⟨⟨fun _ => ?_, fun _ => rfl⟩, fun h => absurd h.symm Bool.false_ne_true,
      isTidy_factoryChoice (List.cons_ne_nil _ _) htidy, fun _ => hlanguage⟩
    by_contra hnone
    rw [hnil.mpr fun c hc p hp hhits =>
      hnone ⟨p, mem_language_choice.mpr ⟨c, hc, hp⟩, hhits⟩] at hcases
    cases hcases

/-- A call cuts the paths of a tidy state, when none of them is accepted twice. -/
theorem crops_transform {s : PredicateState Pred} (hs : s.isTidy = true)
    (honce : Once checker s.language) : Crops checker s (transform checker s false) := by
  induction s using induction with
  | basic data => exact crops_basic data
  | chain base curr hbase hcurr =>
      obtain ⟨-, -, hbaseTidy, hcurrTidy⟩ := isTidy_chain.mp hs
      obtain ⟨r, hr⟩ := exists_mem_paths (hasAlternatives_of_isTidy hcurrTidy)
      obtain ⟨l, hl⟩ := exists_mem_paths (hasAlternatives_of_isTidy hbaseTidy)
      have hmul := honce
      rw [language_chain] at hmul
      exact crops_chain hs honce (hbase hbaseTidy (hmul.left hr)) (hcurr hcurrTidy (hmul.right hl))
  | choice choices ih =>
      refine crops_choice hs fun c hc => ih c hc ((isTidy_choice.mp hs).2 c hc) ?_
      exact fun p q hpq => honce p q (mem_language_choice.mpr ⟨c, hc, hpq⟩)

/-- **Cropping a state crops its paths**, when the checker accepts no path twice; where it accepts
none the state stays as it is. -/
theorem language_cropStateOn {s : PredicateState Pred} (hs : s.isTidy = true)
    (honce : Once checker s.language) :
    ((∃ p ∈ s.language, Hits checker p) →
      (cropStateOn checker s).language = cropped checker s.language) ∧
    ((∀ p ∈ s.language, ¬ Hits checker p) → cropStateOn checker s = s) := by
  have hcrops := crops_transform hs honce
  refine ⟨fun hhits => hcrops.language (hcrops.snd_iff.mpr hhits), fun hnot => ?_⟩
  refine hcrops.unchanged (Bool.eq_false_iff.mpr fun hcut => ?_)
  obtain ⟨p, hp, hhits⟩ := hcrops.snd_iff.mp hcut
  exact hnot p hp hhits

theorem language_cropStateOn_choice :
    ((∃ p ∈ (choice [basic [1, 2, 3], basic [4]]).language, Hits (· == 2) p) →
      (cropStateOn (· == 2) (choice [basic [1, 2, 3], basic [4]])).language =
        cropped (· == 2) (choice [basic [1, 2, 3], basic [4]]).language) ∧
    ((∀ p ∈ (choice [basic [1, 2, 3], basic [4]]).language, ¬ Hits (· == 2) p) →
      cropStateOn (· == 2) (choice [basic [1, 2, 3], basic [4]]) =
        choice [basic [1, 2, 3], basic [4]]) := by
  refine language_cropStateOn rfl fun p q hmem hp hq => ?_
  obtain ⟨c, hc, hpq⟩ := mem_language_choice.mp hmem
  -- the number 2 would stand in the path twice
  obtain ⟨x, hx, hx2⟩ := hits_iff.mp hp
  obtain ⟨y, hy, hy2⟩ := hits_iff.mp hq
  rw [beq_iff_eq] at hx2 hy2
  subst hx2 hy2
  have hcount : ∀ c ∈ [basic [1, 2, 3], basic [4]], ∀ r ∈ c.language, r.count 2 ≤ 1 := by
    intro c hc r hr
    rcases List.mem_pair.mp hc with rfl | rfl <;> obtain rfl := mem_paths_basic.mp hr <;> decide
  have hle := hcount c hc _ hpq
  rw [List.count_append] at hle
  have hp1 := List.one_le_count_iff.mpr hx
  have hq1 := List.one_le_count_iff.mpr hy
  omega

end Cropper

end Borealis
