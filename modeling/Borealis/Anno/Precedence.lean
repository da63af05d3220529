import Borealis.Anno.Spelling

/-!
# The parser against the precedence of C

Both directions together.  What the parser gets right is read by the rules as it is written
(`Reading`); what it gets wrong is either refused by every rule (`Spelling`) or read as a tree that
no action builds (`Stack`).
-/

namespace Borealis.Anno

open Peg

mutual

theorem Rendering.All.and {p q : Rendering → Prop} {s : Rendering} (hp : s.All p)
    (hq : s.All q) : s.All fun s => p s ∧ q s := by
  match s with
  | .leaf _ _ => exact ⟨hp, hq⟩
  | .paren _ _ _ => exact ⟨⟨hp.1, hq.1⟩, Rendering.All.and hp.2 hq.2⟩
  | .index _ _ _ _ =>
      exact ⟨⟨hp.1, hq.1⟩, Rendering.All.and hp.2.1 hq.2.1, Rendering.All.and hp.2.2 hq.2.2⟩
  | .emptyCall _ _ _ => exact ⟨⟨hp.1, hq.1⟩, Rendering.All.and hp.2 hq.2⟩
  | .call _ _ _ _ =>
      exact ⟨⟨hp.1, hq.1⟩, Rendering.All.and hp.2.1 hq.2.1, Arguments.All.and hp.2.2 hq.2.2⟩
  | .member _ _ _ _ _ => exact ⟨⟨hp.1, hq.1⟩, Rendering.All.and hp.2 hq.2⟩
  | .unary _ _ _ => exact ⟨⟨hp.1, hq.1⟩, Rendering.All.and hp.2 hq.2⟩
  | .binary _ _ _ _ =>
      exact ⟨⟨hp.1, hq.1⟩, Rendering.All.and hp.2.1 hq.2.1, Rendering.All.and hp.2.2 hq.2.2⟩

theorem Arguments.All.and {p q : Rendering → Prop} {args : Arguments} (hp : args.All p)
    (hq : args.All q) : args.All fun s => p s ∧ q s := by
  match args with
  | .first _ => exact Rendering.All.and hp hq
  | .more _ _ _ => exact ⟨Arguments.All.and hp.1 hq.1, Rendering.All.and hp.2 hq.2⟩

end

/-- A tree on the stack at the end was built by the actions. -/
theorem producible_of_parseExpression {input : List Char} {tree : Production}
    (hparse : parseExpression input = some tree) : Producible tree := by
  unfold parseExpression at hparse
  split at hparse
  · rename_i rest tree' hmatch
    obtain rfl : tree' = tree := Option.some.inj hparse
    have heof : Preserves AllProducible spaceUntilEof := by
      refine (Preserves.char _).star.seq fun input stack hstack => ?_
      simp only [eof]
      split <;> exact hstack
    have hstack := ((allProducible_invariant.expr _).seq heof).matched hmatch
      (by simp [AllProducible])
    exact hstack.head
  · simp at hparse

/-- What is read as its tree is supported. -/
theorem supported_of_parseExpression (lead : Spaces) {s : Rendering} (hfits : s.Fits 12)
    (hparse : parseExpression (lead.1 ++ s.text) = some s.tree) : s.Supported := by
  have haccepts := accepts_of_parseExpression hparse s.not_hasDouble
  rw [accepts_spaces (by decide) lead, ← List.append_nil s.text] at haccepts
  have hspelled := (s.spelled_of_accepts 12 hfits .operand (.inl rfl) [] haccepts).1
  exact hspelled.and (s.kept_of_producible (producible_of_parseExpression hparse))

/-- **An expression is parsed to the tree C precedence says if and only if it is supported.**  It
may be written with any spaces between its tokens and any parentheses above those it needs. -/
theorem parseExpression_iff (lead : Spaces) (s : Rendering) (hfits : s.Fits 12) :
    parseExpression (lead.1 ++ s.text) = some s.tree ↔ s.Supported :=
  ⟨supported_of_parseExpression lead hfits, parseExpression_of_supported lead hfits⟩

def letter (c : Char) (hname : IsName [c]) : Rendering :=
  .leaf (.identifier ⟨[c], hname⟩ ⟨by simp, by simp⟩) noSpaces

/-- `a-b-1`. -/
def twoMinus : Rendering :=
  .binary (.binary (letter 'a' (by decide)) .subtract noSpaces (letter 'b' (by decide))) .subtract
    noSpaces (.leaf (.integer 1 (by decide)) noSpaces)

theorem parses_twoMinus : parseExpression (noSpaces.1 ++ twoMinus.text) = some twoMinus.tree :=
  (parseExpression_iff noSpaces twoMinus
    ⟨by decide, ⟨by decide, trivial, trivial⟩, trivial⟩).mpr
      (by simp [Rendering.Supported, Rendering.All, twoMinus, letter, Rendering.Spelled,
        Rendering.Kept])

/-- `a>>b`. -/
def shiftRight : Rendering :=
  .binary (letter 'a' (by decide)) .rightShift noSpaces (letter 'b' (by decide))

/-- A shift to the right is read as a shift to the left. -/
theorem shiftRight_parsed : shiftRight.Fits 12 ∧ shiftRight.text = "a>>b".toList ∧
    parseExpression (noSpaces.1 ++ shiftRight.text) =
      some (.binary .lsh (.variable ['a']) (.variable ['b'])) ∧
    parseExpression (noSpaces.1 ++ shiftRight.text) ≠ some shiftRight.tree := by
  have hparse : parseExpression (noSpaces.1 ++ shiftRight.text) =
      some (.binary .lsh (.variable ['a']) (.variable ['b'])) := rfl
  refine ⟨⟨by decide, trivial, trivial⟩, rfl, hparse, ?_⟩
  rw [hparse]
  simp [shiftRight, Rendering.tree, letter, BinaryOperator.code]

end Borealis.Anno
