import Borealis.Executor.Walks

/-!
# What a load reports

`peek` is `loadTraverser` by recursion on the height: the first node on the way whose state is
known answers, a missing node is an illegal load, and a chunk without a state answers with its
buffer.  A load changes nothing.
-/

namespace Borealis

open Lib

/-- What a node answers about all of its bytes, if its state is known. -/
def SegmentNode.answer (n : SegmentNode) : Option IntervalState :=
  if n.state ≠ .unknown then some ⟨none, n.state, n.memSetTo⟩ else none

/-- The result of a load of `a` in the node `t` of height `h` at `lo`. -/
def peek (c : ℕ) : (h lo : ℕ) → NodePtr → (a : ℕ) → Except Fault IntervalState
  | _, _, .null, a => .error (.illegalLoad a)
  | 0, lo, .node n _ _, a => .ok (n.answer.getD ⟨some (n.chunk, a - lo), .unknown, 0xFF⟩)
  | h + 1, lo, .node n l r, a =>
    match n.answer with
    | some answer => .ok answer
    | none => if a < lo + span c h then peek c h lo l a else peek c h (lo + span c h) r a

attribute [local simp] peek

section Peek

variable {c h lo a : ℕ} {n : SegmentNode} {l r : NodePtr}

@[simp] theorem peek_null : peek c h lo .null a = .error (.illegalLoad a) := by
  cases h <;> rfl

theorem SegmentNode.answer_of_known (hn : n.state ≠ .unknown) :
    n.answer = some ⟨none, n.state, n.memSetTo⟩ := by
  simp [answer, hn]

theorem SegmentNode.answer_of_unknown (hn : n.state = .unknown) : n.answer = none := by
  simp [answer, hn]

theorem peek_known (hn : n.state ≠ .unknown) :
    peek c h lo (.node n l r) a = .ok ⟨none, n.state, n.memSetTo⟩ := by
  cases h <;> simp [peek, SegmentNode.answer_of_known hn]

theorem peek_chunk (hn : n.state = .unknown) :
    peek c 0 lo (.node n l r) a = .ok ⟨some (n.chunk, a - lo), .unknown, 0xFF⟩ := by
  simp [peek, SegmentNode.answer_of_unknown hn]

theorem peek_left (hn : n.state = .unknown) (ha : a < lo + span c h) :
    peek c (h + 1) lo (.node n l r) a = peek c h lo l a := by
  simp [peek, SegmentNode.answer_of_unknown hn, ha]

theorem peek_right (hn : n.state = .unknown) (ha : lo + span c h ≤ a) :
    peek c (h + 1) lo (.node n l r) a = peek c h (lo + span c h) r a := by
  simp [peek, SegmentNode.answer_of_unknown hn, Nat.not_lt.mpr ha]

end Peek

/-- The number of bytes from `a` on that the node stands for that answers a load of `a`. -/
def extent (c : ℕ) : (h lo : ℕ) → NodePtr → (a : ℕ) → ℕ
  | 0, lo, _, a => lo + c - a
  | h + 1, lo, .null, a => lo + span c (h + 1) - a
  | h + 1, lo, .node n l r, a =>
    match n.answer with
    | some _ => lo + span c (h + 1) - a
    | none =>
      if a < lo + span c h then extent c h lo l a else extent c h (lo + span c h) r a

attribute [local simp] extent

section Extent

variable {c h lo a : ℕ} {n : SegmentNode} {l r t : NodePtr}

theorem extent_known (hn : n.state ≠ .unknown) :
    extent c (h + 1) lo (.node n l r) a = lo + span c (h + 1) - a := by
  simp [extent, SegmentNode.answer_of_known hn]

theorem extent_left (hn : n.state = .unknown) (ha : a < lo + span c h) :
    extent c (h + 1) lo (.node n l r) a = extent c h lo l a := by
  simp [extent, SegmentNode.answer_of_unknown hn, ha]

theorem extent_right (hn : n.state = .unknown) (ha : lo + span c h ≤ a) :
    extent c (h + 1) lo (.node n l r) a = extent c h (lo + span c h) r a := by
  simp [extent, SegmentNode.answer_of_unknown hn, Nat.not_lt.mpr ha]

/-- The node that answers ends behind the address and in the tree. -/
theorem extent_bounds (hhi : a < lo + span c h) :
    0 < extent c h lo t a ∧ a + extent c h lo t a ≤ lo + span c h := by
  induction h generalizing lo t with
  | zero =>
      rw [span_zero] at hhi ⊢
      simp only [extent]
      omega
  | succ h ih =>
      cases t with
      | null =>
          simp only [extent]
          omega
      | node n l r =>
          by_cases hn : n.state = .unknown
          · rw [span_succ] at hhi ⊢
            rcases Nat.lt_or_ge a (lo + span c h) with ha | ha
            · have hbelow := ih (t := l) ha
              rw [extent_left hn ha]
              omega
            · have hbelow := @ih (lo + span c h) r (by omega)
              rw [extent_right hn ha]
              omega
          · rw [extent_known hn]
            omega

/-- The node that answers stands for the whole chunk of the address. -/
theorem le_extent {q : ℕ} (hq : IsNode c h lo 0 q) (hlo : q ≤ a) (hhi : a < q + c) :
    q + c ≤ a + extent c h lo t a := by
  induction h generalizing lo t with
  | zero =>
      obtain rfl : q = lo := by
        have hbase := hq.le_base
        have hend := hq.end_le
        simp only [span_zero] at hend
        omega
      simp only [extent]
      omega
  | succ h ih =>
      have hend := hq.end_le
      rw [span_zero] at hend
      cases t with
      | null =>
          simp only [extent]
          omega
      | node n l r =>
          by_cases hn : n.state = .unknown
          · cases hq with
            | left hq =>
                have hend' := hq.end_le
                rw [span_zero] at hend'
                rw [extent_left hn (by omega)]
                exact ih hq
            | right hq =>
                have hbase := hq.le_base
                rw [extent_right hn (by omega)]
                exact ih hq
          · rw [extent_known hn]
            omega

/-- What an interval says about the byte `j` behind its first one, in the same node. -/
def IntervalState.shift (i : IntervalState) (j : ℕ) : IntervalState :=
  { i with data := i.data.map fun d => (d.1, d.2 + j) }

/-- A node answers in the same way about all of its bytes. -/
theorem peek_shift (hlo : lo ≤ a) {j : ℕ} (hj : j < extent c h lo t a) {i : IntervalState}
    (hpeek : peek c h lo t a = .ok i) : peek c h lo t (a + j) = .ok (i.shift j) := by
  induction h generalizing lo t with
  | zero =>
      cases t with
      | null => cases hpeek
      | node n l r =>
          by_cases hn : n.state = .unknown
          · rw [peek_chunk hn] at hpeek ⊢
            obtain rfl := Except.ok.inj hpeek
            have hoffset : a + j - lo = a - lo + j := by omega
            simp [IntervalState.shift, hoffset]
          · rw [peek_known hn] at hpeek ⊢
            obtain rfl := Except.ok.inj hpeek
            rfl
  | succ h ih =>
      cases t with
      | null => simp at hpeek
      | node n l r =>
          by_cases hn : n.state = .unknown
          · rcases Nat.lt_or_ge a (lo + span c h) with ha | ha
            · rw [extent_left hn ha] at hj
              have hend := extent_bounds (t := l) ha
              rw [peek_left hn ha] at hpeek
              rw [peek_left hn (by omega)]
              exact ih hlo hj hpeek
            · rw [extent_right hn ha] at hj
              rw [peek_right hn ha] at hpeek
              rw [peek_right hn (by omega)]
              exact ih ha hj hpeek
          · rw [peek_known hn] at hpeek ⊢
            obtain rfl := Except.ok.inj hpeek
            rfl

end Extent

theorem handleMemState_eq (n : SegmentNode) :
    handleMemState n {} =
      n.answer.map fun i => { state := i.memState, filledWith := i.filledWith } := by
  unfold handleMemState SegmentNode.answer
  split <;> rfl

/-- What `SegmentTree::get` returns of a traverser. -/
def LoadState.interval (s : LoadState) : IntervalState :=
  ⟨s.ptr, s.state, s.filledWith⟩

/-- The traverser of a load that found an interval of some bytes. -/
def IntervalState.load (i : IntervalState) (dataSize : ℕ) : LoadState :=
  ⟨i.data, dataSize, i.memState, i.filledWith⟩

/-- A load reports what `peek` says, up to the end of the node that answers, and leaves the tree as
it is. -/
theorem descend_loadState {c h lo a : ℕ} (ha : lo ≤ a ∧ a < lo + span c h) (t : NodePtr) :
    (descend loadTraverser c h lo {} a t).1 =
        (peek c h lo t a).map (IntervalState.load · (extent c h lo t a)) ∧
      (descend loadTraverser c h lo {} a t).2 = t := by
  induction h generalizing lo t with
  | zero =>
      cases t with
      | null =>
          rw [descend_empty ha (e := .illegalLoad a) rfl]
          exact ⟨rfl, rfl⟩
      | node n l r =>
          rw [span_zero] at ha
          rw [descend_chunk ha rfl]
          simp only [loadTraverser, NodePtr.force, handleMemState_eq, peek, and_true]
          unfold SegmentNode.answer
          split <;> rfl
  | succ h ih =>
      cases t with
      | null =>
          rw [descend_empty ha (e := .illegalLoad a) rfl]
          exact ⟨rfl, rfl⟩
      | node n l r =>
          by_cases hn : n.state = .unknown
          · have hpath : ∀ visitLeft visitRight : Visit LoadState,
                loadTraverser.handlePath visitLeft visitRight lo (lo + span c (h + 1)) n l r a {} =
                  .descend {} := by
              intro _ _
              simp only [loadTraverser, handleMemState_eq, SegmentNode.answer_of_unknown hn,
                Option.map_none]
            rw [span_succ] at ha
            by_cases hlt : a < lo + span c h
            · obtain ⟨hresult, htree⟩ := ih ⟨ha.1, hlt⟩ l
              rw [descend_left ⟨ha.1, hlt⟩ rfl (hpath _ _), peek_left hn hlt, extent_left hn hlt]
              exact ⟨hresult, congrArg (NodePtr.node n · r) htree⟩
            · have hge : lo + span c h ≤ a := by omega
              obtain ⟨hresult, htree⟩ := ih ⟨hge, by omega⟩ r
              rw [descend_right ⟨hge, by omega⟩ rfl (hpath _ _), peek_right hn hge,
                extent_right hn hge]
              exact ⟨hresult, congrArg (NodePtr.node n l ·) htree⟩
          · have hpath : ∀ visitLeft visitRight : Visit LoadState,
                loadTraverser.handlePath visitLeft visitRight lo (lo + span c (h + 1)) n l r a {} =
                  .done (.ok ⟨none, lo + span c (h + 1) - a, n.state, n.memSetTo⟩)
                    (.node n l r) := by
              intro _ _
              simp only [loadTraverser, handleMemState_eq, SegmentNode.answer_of_known hn,
                Option.map_some]
            rw [descend_done ha rfl (hpath _ _), peek_known hn, extent_known hn]
            exact ⟨rfl, rfl⟩

/-- The interval of a load is what `peek` says. -/
theorem descend_load {c h lo a : ℕ} (ha : lo ≤ a ∧ a < lo + span c h) (t : NodePtr) :
    (descend loadTraverser c h lo {} a t).1.map LoadState.interval = peek c h lo t a ∧
      (descend loadTraverser c h lo {} a t).2 = t := by
  obtain ⟨hresult, htree⟩ := descend_loadState ha t
  refine ⟨?_, htree⟩
  rw [hresult]
  cases peek c h lo t a <;> rfl

/-- The result of `SegmentTree::get`. -/
def Session.get (s : Session) (a : ℕ) : Except Fault IntervalState :=
  (s.sim.tree.get a).1

variable {L : Layout} {s : Session}

theorem Session.get_eq (hs : s.sim.HasLayout L) {a : ℕ} (hlo : Layout.start ≤ a)
    (hhi : a < L.stop) : s.get a = peek L.chunkSize L.power Layout.start s.root a := by
  simp only [get, SegmentTree.get, hs.run_eq]
  exact (descend_load ⟨hlo, hhi⟩ s.root).1

end Borealis
