import Borealis.State.StateOptimizer
import Borealis.State.Unreachable

/-!
# Function descriptions

`Passes/Manager/FunctionManager`: what is known of a function, split into the requirements, the
body and the ensures part.  `update` adds a state to the description, the queries read one part of
it, and both make the entry of a function when there is none yet.

A query by call makes it from the state of the intrinsic, a query by function from the empty state
and `update` from the state it was given.  `intrinsic` is what `IntrinsicsManager` answers for a
function, `none` for a function it does not know; `RR` is what `Retyper` makes of a predicate.

## Strategy

Parts are compared as sets of paths.  Splitting a state by type filters its paths
(`language_splitByTypes`), and merging two descriptions multiplies them (`part_mergeFunctionDesc`)
as long as a part that `isEmpty` has the empty path; a state with a path has such parts only.
The invariant `Holds` of a run says that the entry of a function, when there is one, is the product
of its intrinsic part and its updates; `holds_step` is the step lemma.
-/

namespace Borealis

namespace PredicateState

/-! ## Splitting by type filters the paths -/

/-- The paths of a state with only the predicates that `keep` accepts. -/
def filtered (keep : Predicate → Bool) (L : Language Predicate) : Language Predicate :=
  List.filter keep '' L

theorem filtered_one (keep : Predicate → Bool) : filtered keep 1 = 1 :=
  Set.image_singleton

theorem filtered_mul (keep : Predicate → Bool) (L M : Language Predicate) :
    filtered keep (L * M) = filtered keep L * filtered keep M := by
  ext p
  constructor
  · rintro ⟨_, hqr, rfl⟩
    obtain ⟨q, hq, r, hr, rfl⟩ := Language.mem_mul.mp hqr
    rw [List.filter_append]
    exact Language.mem_mul.mpr ⟨_, ⟨q, hq, rfl⟩, _, ⟨r, hr, rfl⟩, rfl⟩
  · intro hp
    obtain ⟨_, ⟨q, hq, rfl⟩, _, ⟨r, hr, rfl⟩, rfl⟩ := Language.mem_mul.mp hp
    exact ⟨q ++ r, Language.mem_mul.mpr ⟨q, hq, r, hr, rfl⟩, List.filter_append q r⟩

theorem filtered_filtered (keep keep' : Predicate → Bool) (L : Language Predicate) :
    filtered keep (filtered keep' L) = filtered (fun p => keep' p && keep p) L := by
  have hfilter : ∀ p : List Predicate,
      (p.filter keep').filter keep = p.filter fun x => keep' x && keep x := by
    intro p
    rw [List.filter_filter]
    exact List.filter_congr fun x _ => Bool.and_comm _ _
  exact (Set.image_image _ _ _).trans (Set.image_congr fun p _ => hfilter p)

/-- The language of a choice whose alternatives have filtered paths. -/
theorem language_choice_filtered {keep : Predicate → Bool}
    {f : PredicateState Predicate → PredicateState Predicate}
    {cs : List (PredicateState Predicate)}
    (hf : ∀ c ∈ cs, (f c).language = filtered keep c.language) :
    (choice (cs.map f)).language = filtered keep (choice cs).language := by
  ext p
  rw [mem_language_choice]
  constructor
  · rintro ⟨d, hd, hp⟩
    obtain ⟨c, hc, rfl⟩ := List.mem_map.mp hd
    rw [hf c hc] at hp
    obtain ⟨q, hq, rfl⟩ := hp
    exact ⟨q, mem_language_choice.mpr ⟨c, hc, hq⟩, rfl⟩
  · rintro ⟨q, hq, rfl⟩
    obtain ⟨c, hc, hq⟩ := mem_language_choice.mp hq
    exact ⟨f c, List.mem_map_of_mem hc, hf c hc ▸ ⟨q, hq, rfl⟩⟩

/-- **The two halves of a split state have the filtered paths of the state.** -/
theorem language_splitByTypes (types : List PredicateType) (s : PredicateState Predicate) :
    (s.splitByTypes types).1.language =
        filtered (fun p => types.any fun type => p.getType == type) s.language ∧
      (s.splitByTypes types).2.language =
        filtered (fun p => !types.any fun type => p.getType == type) s.language := by
  induction s using induction with
  | basic data =>
      simp only [splitByTypes, language_basic]
      exact ⟨Set.image_singleton.symm, Set.image_singleton.symm⟩
  | chain base curr hbase hcurr =>
      simp only [splitByTypes, language_chain, filtered_mul]
      exact ⟨by rw [hbase.1, hcurr.1], by rw [hbase.2, hcurr.2]⟩
  | choice choices ih =>
      simp only [splitByTypes, splitAllByTypes_eq_map, List.map_map]
      exact ⟨language_choice_filtered fun c hc => (ih c hc).1,
        language_choice_filtered fun c hc => (ih c hc).2⟩

/-- An empty state with a path stands for the empty word. -/
theorem language_eq_one_of_mem {s : PredicateState Predicate} (hempty : s.isEmpty = true)
    {p : List Predicate} (hp : p ∈ s.language) : s.language = 1 := by
  ext q
  rw [Language.mem_one]
  constructor
  · exact eq_nil_of_mem_paths hempty
  · rintro rfl
    exact eq_nil_of_mem_paths hempty hp ▸ hp

/-- Appending a part multiplies the languages when both states have a path. -/
theorem language_add_of_mem {s t : PredicateState Predicate} {p q : List Predicate}
    (hp : p ∈ s.language) (hq : q ∈ t.language) :
    (PredicateStateBuilder.add s t).language = s.language * t.language := by
  cases hempty : t.isEmpty with
  | true =>
      rw [PredicateStateBuilder.add_of_isEmpty hempty, language_eq_one_of_mem hempty hq, mul_one]
  | false =>
      cases hsEmpty : s.isEmpty with
      | true =>
          have hone := language_eq_one_of_mem hsEmpty hp
          simp [PredicateStateBuilder.add, hempty, hsEmpty, hone]
      | false => rw [PredicateStateBuilder.add_eq_chain hsEmpty hempty, language_chain]

end PredicateState

namespace FunctionManager

open PredicateState

/-! ## Descriptions -/

/-- The three parts of a description. -/
inductive Part where
  | req | bdy | ens
deriving DecidableEq

/-- `FunctionDesc`. -/
structure FunctionDesc where
  Req : PredicateState Predicate
  Bdy : PredicateState Predicate
  Ens : PredicateState Predicate

/-- The constructor of `FunctionDesc` from a state. -/
def FunctionDesc.ofState (state : PredicateState Predicate) : FunctionDesc :=
  let reqRest := state.splitByTypes [.requires]
  let ensRest := reqRest.2.splitByTypes [.ensures]
  { Req := reqRest.1, Bdy := ensRest.2, Ens := ensRest.1 }

/-- The part a query returns. -/
def FunctionDesc.part (desc : FunctionDesc) : Part → PredicateState Predicate
  | .req => desc.Req
  | .bdy => desc.Bdy
  | .ens => desc.Ens

variable {Fun : Type}

/-- What the manager takes from other components. -/
structure Env (Fun : Type) where
  RR : Predicate → Predicate
  intrinsic : Fun → Option (PredicateState Predicate)

/-- `data`: the descriptions known so far. -/
abbrev Data (Fun : Type) := Fun → Option FunctionDesc

variable [DecidableEq Fun] (E : Env Fun)

/-- `(FN.State * a + b)()`. -/
def merged (a b : PredicateState Predicate) : PredicateState Predicate :=
  (PredicateStateBuilder.add a b).map E.RR

/-- `mergeFunctionDesc`. -/
def mergeFunctionDesc (d1 d2 : FunctionDesc) : FunctionDesc :=
  { Req := merged E d1.Req d2.Req
    Bdy := merged E d1.Bdy d2.Bdy
    Ens := merged E d1.Ens d2.Ens }

/-- `update`. -/
def update (data : Data Fun) (F : Fun) (state : PredicateState Predicate) : Data Fun :=
  match data F with
  | some desc => Function.update data F (some (mergeFunctionDesc E desc (.ofState state)))
  | none => Function.update data F (some (.ofState state))

/-- `get` by function: the description, and the descriptions known afterwards. -/
def get (data : Data Fun) (F : Fun) : FunctionDesc × Data Fun :=
  match data F with
  | some desc => (desc, data)
  | none => (.ofState (.basic []), Function.update data F (some (.ofState (.basic []))))

/-- The state of a function that is called: the one of the intrinsic, or the empty one. -/
def calledState (F : Fun) : PredicateState Predicate :=
  (E.intrinsic F).getD (.basic [])

/-- `get` by call instruction. -/
def getCall (data : Data Fun) (F : Fun) : FunctionDesc × Data Fun :=
  match data F with
  | some desc => (desc, data)
  | none =>
    (.ofState (calledState E F), Function.update data F (some (.ofState (calledState E F))))

/-- The operations on the manager: `update`, and `getReq`, `getBdy` and `getEns` by function and
by call. -/
inductive Operation (Fun : Type) where
  | update (F : Fun) (state : PredicateState Predicate)
  | query (F : Fun) (part : Part)
  | queryCall (F : Fun) (part : Part)

/-- One operation: its answer, and the descriptions known afterwards. -/
def step (data : Data Fun) : Operation Fun → Option (PredicateState Predicate) × Data Fun
  | .update F state => (none, update E data F state)
  | .query F part => (some ((get data F).1.part part), (get data F).2)
  | .queryCall F part => (some ((getCall E data F).1.part part), (getCall E data F).2)

/-- The descriptions known after a sequence of operations. -/
def run (data : Data Fun) (ops : List (Operation Fun)) : Data Fun :=
  ops.foldl (fun data op => (step E data op).2) data

/-- The answer to an operation that follows a sequence of others on a new manager. -/
def answer (ops : List (Operation Fun)) (op : Operation Fun) :
    Option (PredicateState Predicate) :=
  (step E (run E (fun _ => none) ops) op).1

/-! ## What a query should answer -/

/-- Whether a predicate belongs to a part. -/
def Part.keeps : Part → Predicate → Bool
  | .req, p => p.getType == .requires
  | .bdy, p => p.getType != .requires && p.getType != .ensures
  | .ens, p => p.getType == .ensures

/-- The paths of one part of a state. -/
def partPaths (part : Part) (state : PredicateState Predicate) : Language Predicate :=
  filtered part.keeps state.language

/-- The paths of one part of everything that was passed to `update` for `F`. -/
def updatedPaths (F : Fun) (part : Part) : List (Operation Fun) → Language Predicate
  | [] => 1
  | .update G state :: ops =>
    if G = F then partPaths part state * updatedPaths F part ops else updatedPaths F part ops
  | _ :: ops => updatedPaths F part ops

/-- The paths of one part of `F`: its intrinsic state combined with every state passed to `update`
so far. -/
def combinedPaths (F : Fun) (part : Part) (ops : List (Operation Fun)) : Language Predicate :=
  partPaths part (calledState E F) * updatedPaths F part ops

/-- `ops'` is `ops` without some of its queries. -/
inductive WithoutQueries : List (Operation Fun) → List (Operation Fun) → Prop
  | nil : WithoutQueries [] []
  | keep (op : Operation Fun) {ops ops' : List (Operation Fun)} :
      WithoutQueries ops ops' → WithoutQueries (op :: ops) (op :: ops')
  | query (F : Fun) (part : Part) {ops ops' : List (Operation Fun)} :
      WithoutQueries ops ops' → WithoutQueries (.query F part :: ops) ops'
  | queryCall (F : Fun) (part : Part) {ops ops' : List (Operation Fun)} :
      WithoutQueries ops ops' → WithoutQueries (.queryCall F part :: ops) ops'

/-! ## What a description is made of -/

/-- **The parts of the description of a state have the paths of the parts of the state.** -/
theorem language_part_ofState (state : PredicateState Predicate) (part : Part) :
    ((FunctionDesc.ofState state).part part).language = partPaths part state := by
  have hrest := (language_splitByTypes [.requires] state).2
  cases part with
  | req =>
      refine (language_splitByTypes [.requires] state).1.trans ?_
      have hkeep : (fun p : Predicate => [PredicateType.requires].any fun type =>
          p.getType == type) = Part.req.keeps := by
        funext p
        simp [Part.keeps]
      rw [hkeep, partPaths]
  | bdy =>
      refine (language_splitByTypes [.ensures] _).2.trans ?_
      rw [hrest, filtered_filtered, partPaths]
      congr 1
      funext p
      simp only [Part.keeps]
      cases p.getType <;> rfl
  | ens =>
      refine (language_splitByTypes [.ensures] _).1.trans ?_
      rw [hrest, filtered_filtered, partPaths]
      congr 1
      funext p
      simp only [Part.keeps]
      cases p.getType <;> rfl

/-- A set of paths that is not empty and in which `Retyper` has nothing to do. -/
structure Ready (L : Language Predicate) : Prop where
  path : ∃ p, p ∈ L
  typed : ∀ p ∈ L, ∀ x ∈ p, E.RR x = x

namespace Ready

variable {E}

omit [DecidableEq Fun] in
theorem one : Ready E 1 :=
  ⟨⟨[], (Language.mem_one []).mpr rfl⟩, fun p hp x hx => by
    rw [(Language.mem_one p).mp hp] at hx
    exact absurd hx List.not_mem_nil⟩

omit [DecidableEq Fun] in
theorem mul {L M : Language Predicate} (hL : Ready E L) (hM : Ready E M) : Ready E (L * M) := by
  obtain ⟨p, hp⟩ := hL.path
  obtain ⟨q, hq⟩ := hM.path
  refine ⟨⟨p ++ q, Language.mem_mul.mpr ⟨p, hp, q, hq, rfl⟩⟩, fun path hpath x hx => ?_⟩
  obtain ⟨q, hq, r, hr, rfl⟩ := Language.mem_mul.mp hpath
  rcases List.mem_append.mp hx with hx | hx
  · exact hL.typed q hq x hx
  · exact hM.typed r hr x hx

omit [DecidableEq Fun] in
theorem filtered {L : Language Predicate} (hL : Ready E L) (keep : Predicate → Bool) :
    Ready E (filtered keep L) := by
  obtain ⟨p, hp⟩ := hL.path
  refine ⟨⟨p.filter keep, p, hp, rfl⟩, ?_⟩
  rintro _ ⟨q, hq, rfl⟩ x hx
  exact hL.typed q hq x (List.mem_of_mem_filter hx)

omit [DecidableEq Fun] in
theorem map_eq {L : Language Predicate} (hL : Ready E L) : Language.map E.RR L = L := by
  have hself : ∀ p ∈ L, p.map E.RR = p := fun p hp => by
    conv_rhs => rw [← List.map_id p]
    exact List.map_congr_left fun x hx => hL.typed p hp x hx
  ext p
  constructor
  · rintro ⟨q, hq, rfl⟩
    exact (hself q hq).symm ▸ hq
  · intro hp
    exact ⟨p, hp, hself p hp⟩

end Ready

omit [DecidableEq Fun] in
/-- **Merging two descriptions multiplies the paths of each part.** -/
theorem part_mergeFunctionDesc {d1 d2 : FunctionDesc} {part : Part}
    (h1 : Ready E (d1.part part).language) (h2 : Ready E (d2.part part).language) :
    ((mergeFunctionDesc E d1 d2).part part).language =
      (d1.part part).language * (d2.part part).language := by
  obtain ⟨p, hp⟩ := h1.path
  obtain ⟨q, hq⟩ := h2.path
  have hmerged : (merged E (d1.part part) (d2.part part)).language =
      (d1.part part).language * (d2.part part).language := by
    calc (merged E (d1.part part) (d2.part part)).language
        = Language.map E.RR ((d1.part part).language * (d2.part part).language) := by
          rw [merged, language_map, language_add_of_mem hp hq]
      _ = (d1.part part).language * (d2.part part).language := (h1.mul h2).map_eq
  cases part with
  | req => exact hmerged
  | bdy => exact hmerged
  | ens => exact hmerged

omit [DecidableEq Fun] in
theorem partPaths_ready {state : PredicateState Predicate} (h : Ready E state.language)
    (part : Part) : Ready E (partPaths part state) := h.filtered _

theorem updatedPaths_append (F : Fun) (part : Part) (ops ops' : List (Operation Fun)) :
    updatedPaths F part (ops ++ ops') = updatedPaths F part ops * updatedPaths F part ops' := by
  induction ops with
  | nil => rw [List.nil_append, updatedPaths, one_mul]
  | cons op ops ih =>
      cases op with
      | update G state =>
          rw [List.cons_append, updatedPaths, updatedPaths, ih]
          split
          · rw [mul_assoc]
          · rfl
      | query G p => exact ih
      | queryCall G p => exact ih

/-- Queries pass nothing to `update`. -/
theorem updatedPaths_withoutQueries {ops ops' : List (Operation Fun)}
    (h : WithoutQueries ops ops') (F : Fun) (part : Part) :
    updatedPaths F part ops' = updatedPaths F part ops := by
  induction h with
  | nil => rfl
  | keep op _ ih =>
      cases op with
      | update G state => rw [updatedPaths, updatedPaths, ih]
      | query G p => exact ih
      | queryCall G p => exact ih
  | query G p _ ih => exact ih
  | queryCall G p _ ih => exact ih

/-! ## Runs in which the intrinsic state is not lost -/

/-- The intrinsic state of `F`, if it has one, has only the empty path. -/
def Silent (F : Fun) : Prop := ∀ part, partPaths part (calledState E F) = 1

/-- The operation does not make the entry of an intrinsic from another state than its own, and the
states it brings are ready. -/
def Meets (data : Data Fun) : Operation Fun → Prop
  | .update F state => Ready E state.language ∧ (data F = none → Silent E F)
  | .query F _ => data F = none → Silent E F
  | .queryCall F _ => data F = none → Ready E (calledState E F).language

/-- Every step of the run meets the condition. -/
def MeetsAll (data : Data Fun) : List (Operation Fun) → Prop
  | [] => True
  | op :: ops => Meets E data op ∧ MeetsAll (step E data op).2 ops

theorem meetsAll_append {data : Data Fun} {ops : List (Operation Fun)} {op : Operation Fun} :
    MeetsAll E data (ops ++ [op]) ↔ MeetsAll E data ops ∧ Meets E (run E data ops) op := by
  induction ops generalizing data with
  | nil => simp [MeetsAll, run]
  | cons o ops ih => rw [List.cons_append, MeetsAll, MeetsAll, ih, and_assoc]; rfl

/-- **The invariant of a run.**  A function without an entry was not updated; an entry is the
intrinsic part with all updates. -/
structure Holds (data : Data Fun) (ops : List (Operation Fun)) : Prop where
  absent : ∀ F part, data F = none → updatedPaths F part ops = 1
  present : ∀ F desc part, data F = some desc →
    (desc.part part).language = combinedPaths E F part ops ∧ Ready E (desc.part part).language

theorem holds_new : Holds E (fun _ => none) [] where
  absent _ _ _ := rfl
  present _ _ _ h := absurd h.symm (Option.some_ne_none _)

/-- An operation that adds an entry, or changes one, for the paths it adds. -/
theorem Holds.set {data : Data Fun} {ops : List (Operation Fun)} (h : Holds E data ops)
    {op : Operation Fun} {F : Fun} {desc : FunctionDesc}
    (hF : ∀ part, (desc.part part).language = combinedPaths E F part (ops ++ [op]) ∧
      Ready E (desc.part part).language)
    (hother : ∀ G part, G ≠ F → updatedPaths G part [op] = 1) :
    Holds E (Function.update data F (some desc)) (ops ++ [op]) where
  absent G part hG := by
    by_cases hGF : G = F
    · subst hGF
      rw [Function.update_self] at hG
      exact absurd hG (Option.some_ne_none _)
    · rw [Function.update_of_ne hGF] at hG
      rw [updatedPaths_append, h.absent G part hG, hother G part hGF, one_mul]
  present G desc' part hG := by
    by_cases hGF : G = F
    · subst hGF
      rw [Function.update_self] at hG
      exact Option.some.inj hG ▸ hF part
    · rw [Function.update_of_ne hGF] at hG
      obtain ⟨hpaths, hready⟩ := h.present G desc' part hG
      refine ⟨?_, hready⟩
      rw [hpaths, combinedPaths, combinedPaths, updatedPaths_append, hother G part hGF, mul_one]

/-- An operation that changes no entry and passes nothing to `update`. -/
theorem Holds.keep {data : Data Fun} {ops : List (Operation Fun)} (h : Holds E data ops)
    {op : Operation Fun} (hop : ∀ G part, updatedPaths G part [op] = 1) :
    Holds E data (ops ++ [op]) where
  absent G part hG := by rw [updatedPaths_append, h.absent G part hG, hop, one_mul]
  present G desc part hG := by
    rw [combinedPaths, updatedPaths_append, hop, mul_one]
    exact h.present G desc part hG

/-- **One step keeps the invariant.** -/
theorem holds_step {data : Data Fun} {ops : List (Operation Fun)} (h : Holds E data ops)
    {op : Operation Fun} (hmeets : Meets E data op) :
    Holds E (step E data op).2 (ops ++ [op]) := by
  cases op with
  | update F state =>
      obtain ⟨hready, hsilent⟩ := hmeets
      have hself : ∀ part, updatedPaths F part [.update F state] = partPaths part state := by
        intro part
        rw [updatedPaths, if_pos rfl, updatedPaths, mul_one]
      have hother : ∀ G part, G ≠ F → updatedPaths G part [.update F state] = 1 := by
        intro G part hGF
        rw [updatedPaths, if_neg (Ne.symm hGF), updatedPaths]
      rw [step, update]
      cases hF : data F with
      | none =>
          -- the entry is the state alone, so the intrinsic part must be the empty path
          refine h.set E (fun part => ?_) hother
          rw [language_part_ofState, combinedPaths, updatedPaths_append, hself,
            h.absent F part hF, hsilent hF part, one_mul, one_mul]
          exact ⟨rfl, partPaths_ready E hready part⟩
      | some desc =>
          refine h.set E (fun part => ?_) hother
          obtain ⟨hpaths, hdesc⟩ := h.present F desc part hF
          have hstate : Ready E ((FunctionDesc.ofState state).part part).language := by
            rw [language_part_ofState]
            exact partPaths_ready E hready part
          rw [part_mergeFunctionDesc E hdesc hstate]
          refine ⟨?_, hdesc.mul hstate⟩
          rw [hpaths, language_part_ofState, combinedPaths, combinedPaths, updatedPaths_append,
            hself, mul_assoc]
  | query F p =>
      rw [step, get]
      cases hF : data F with
      | none =>
          refine h.set E (fun part => ?_) fun _ _ _ => rfl
          have hone : partPaths part (.basic []) = 1 := by
            rw [partPaths, language_basic_nil, filtered_one]
          rw [language_part_ofState, hone, combinedPaths, updatedPaths_append,
            h.absent F part hF, hmeets hF part, one_mul, one_mul]
          exact ⟨rfl, Ready.one⟩
      | some desc => exact h.keep E fun _ _ => rfl
  | queryCall F p =>
      rw [step, getCall]
      cases hF : data F with
      | none =>
          refine h.set E (fun part => ?_) fun _ _ _ => rfl
          rw [language_part_ofState, combinedPaths, updatedPaths_append, h.absent F part hF,
            one_mul]
          exact ⟨(mul_one _).symm, partPaths_ready E (hmeets hF) part⟩
      | some desc => exact h.keep E fun _ _ => rfl

/-- A whole run keeps the invariant. -/
theorem holds_run {ops : List (Operation Fun)} (hmeets : MeetsAll E (fun _ => none) ops) :
    Holds E (run E (fun _ => none) ops) ops := by
  induction ops using List.reverseRecOn with
  | nil => exact holds_new E
  | append_singleton ops op ih =>
      obtain ⟨hops, hop⟩ := (meetsAll_append E).mp hmeets
      have hrun : run E (fun _ => none) (ops ++ [op]) =
          (step E (run E (fun _ => none) ops) op).2 := by
        rw [run, List.foldl_append]
        rfl
      rw [hrun]
      exact holds_step E (ih hops) hop

/-- Where the invariant holds and the condition is met, both kinds of query answer alike. -/
theorem language_answer {data : Data Fun} {ops : List (Operation Fun)} (h : Holds E data ops)
    (F : Fun) (part : Part) :
    (Meets E data (.query F part) →
        ((get data F).1.part part).language = combinedPaths E F part ops) ∧
      ((getCall E data F).1.part part).language = combinedPaths E F part ops := by
  rw [get, getCall]
  cases hF : data F with
  | some desc => exact ⟨fun _ => (h.present F desc part hF).1, (h.present F desc part hF).1⟩
  | none =>
      refine ⟨fun hsilent => ?_, ?_⟩
      · rw [language_part_ofState, partPaths, language_basic_nil, filtered_one, combinedPaths,
          h.absent F part hF, hsilent hF part, one_mul]
      · rw [language_part_ofState, combinedPaths, h.absent F part hF, mul_one]

/-- **Queries do not change descriptions.**  In a run in which no entry of an intrinsic is made
from another state than its own, a query by call returns the paths of the intrinsic part with
everything that was passed to `update`, and leaving out earlier queries changes no answer, as long
as the run that is left is such a run too. -/
theorem description_unchanged {ops : List (Operation Fun)} {op : Operation Fun}
    (hrun : MeetsAll E (fun _ => none) (ops ++ [op])) :
    (∀ F part, op = .queryCall F part → ∃ state, answer E ops op = some state ∧
        state.language = combinedPaths E F part ops) ∧
      ∀ ops', WithoutQueries ops ops' → MeetsAll E (fun _ => none) (ops' ++ [op]) →
        (answer E ops op).map language = (answer E ops' op).map language := by
  obtain ⟨hops, hop⟩ := (meetsAll_append E).mp hrun
  have hholds := holds_run E hops
  constructor
  · rintro F part rfl
    exact ⟨_, rfl, (language_answer E hholds F part).2⟩
  · intro ops' hwithout hrun'
    obtain ⟨hops', hop'⟩ := (meetsAll_append E).mp hrun'
    have hholds' := holds_run E hops'
    have hcombined : ∀ F part, combinedPaths E F part ops' = combinedPaths E F part ops := by
      intro F part
      rw [combinedPaths, combinedPaths, updatedPaths_withoutQueries hwithout]
    cases op with
    | update F state => rfl
    | query F part =>
        refine congrArg some ?_
        calc ((get (run E _ ops) F).1.part part).language
            = combinedPaths E F part ops := (language_answer E hholds F part).1 hop
          _ = combinedPaths E F part ops' := (hcombined F part).symm
          _ = ((get (run E _ ops') F).1.part part).language :=
              ((language_answer E hholds' F part).1 hop').symm
    | queryCall F part =>
        refine congrArg some ?_
        calc ((getCall E (run E _ ops) F).1.part part).language
            = combinedPaths E F part ops := (language_answer E hholds F part).2
          _ = combinedPaths E F part ops' := (hcombined F part).symm
          _ = ((getCall E (run E _ ops') F).1.part part).language :=
              (language_answer E hholds' F part).2.symm

/-! ## An intrinsic that ensures something -/

/-- What the intrinsic of the example ensures. -/
def ensured : Predicate := .globals .ensures []

/-- What is required of it later. -/
def required : Predicate := .globals .requires []

/-- A manager with one function, an intrinsic. -/
def intrinsicEnv : Env Unit where
  RR := id
  intrinsic _ := some (.basic [ensured])

/-- A query by call, an update and a query by call. -/
theorem callFirst_unchanged :
    ∃ state, answer intrinsicEnv [.queryCall () .req, .update () (.basic [required])]
        (.queryCall () .ens) = some state ∧
      state.language = combinedPaths intrinsicEnv () .ens
        [.queryCall () .req, .update () (.basic [required])] := by
  have hready : ∀ s : PredicateState Predicate, s.hasAlternatives = true →
      Ready intrinsicEnv s.language := fun s hs =>
    ⟨exists_mem_paths hs, fun _ _ _ _ => rfl⟩
  refine (description_unchanged intrinsicEnv ?_).1 () .ens rfl
  exact ⟨fun _ => hready _ rfl, ⟨hready _ rfl, fun h => absurd h (Option.some_ne_none _)⟩,
    fun h => absurd h (Option.some_ne_none _), trivial⟩

/-- **After an update the intrinsic part is lost, and after a query by function it is lost as
well**: what the intrinsic ensures is not in the answer to a call, and leaving out the query by
function changes that answer. -/
theorem updateFirst_loses :
    (¬ ∀ (ops : List (Operation Unit)) (F : Unit) (part : Part), ∃ state,
        answer intrinsicEnv ops (.queryCall F part) = some state ∧
          state.language = combinedPaths intrinsicEnv F part ops) ∧
      ¬ ∀ (ops ops' : List (Operation Unit)) (op : Operation Unit), WithoutQueries ops ops' →
        (answer intrinsicEnv ops op).map language = (answer intrinsicEnv ops' op).map language := by
  have hempty : ∀ ops, (answer intrinsicEnv ops (.queryCall () .ens)) = some (.basic []) →
      ∀ L : Language Predicate, [ensured] ∈ L →
        (answer intrinsicEnv ops (.queryCall () .ens)).map language ≠ some L := by
    intro ops hops L hL heq
    rw [hops, Option.map_some, Option.some.injEq, language_basic_nil] at heq
    rw [← heq, Language.mem_one] at hL
    exact List.cons_ne_nil _ _ hL
  have hensured : [ensured] ∈ combinedPaths intrinsicEnv () .ens
      [.update () (.basic [required])] := by
    refine Language.mem_mul.mpr ⟨[ensured], ⟨[ensured], mem_paths_basic.mpr rfl, rfl⟩, [], ?_, rfl⟩
    exact Language.mem_mul.mpr ⟨[], ⟨[required], mem_paths_basic.mpr rfl, rfl⟩, [], rfl, rfl⟩
  constructor
  · intro hall
    obtain ⟨state, hanswer, hpaths⟩ := hall [.update () (.basic [required])] () .ens
    refine hempty [.update () (.basic [required])] rfl _ hensured ?_
    rw [hanswer, Option.map_some, hpaths]
  · intro hall
    have h := hall [.query () .req] [] (.queryCall () .ens)
      (.query () .req .nil)
    refine hempty [.query () .req] rfl ({[ensured]} : Language Predicate) rfl ?_
    rw [h]
    exact congrArg some (language_basic [ensured])

end FunctionManager

end Borealis
