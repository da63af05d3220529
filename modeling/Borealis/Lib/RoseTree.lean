import Mathlib.Data.List.Basic

/-!
# Trees from their preorder

The labels of a tree, a node before its children, determine the tree when each label says how many
children its node has.  They are read from the last to the first: a label takes as many trees from
the top of a stack as it has children, in this order, and leaves one tree there.
-/

namespace Borealis

/-- Trees whose nodes have lists of children. -/
inductive RoseTree (α : Type*)
  | node (label : α) (children : List (RoseTree α))

namespace RoseTree

variable {α : Type*} (arity : α → ℕ)

mutual
/-- The labels, a node before its children. -/
def preorder : RoseTree α → List α
  | node label children => label :: preorders children

/-- The labels of several trees. -/
def preorders : List (RoseTree α) → List α
  | [] => []
  | t :: ts => preorder t ++ preorders ts
end

mutual
/-- Every node has as many children as its label asks for. -/
def HasArity : RoseTree α → Prop
  | node label children => children.length = arity label ∧ HaveArity children

/-- The same for several trees. -/
def HaveArity : List (RoseTree α) → Prop
  | [] => True
  | t :: ts => HasArity t ∧ HaveArity ts
end

/-- A label takes its children from the top of the stack. -/
def attach (label : α) (stack : List (RoseTree α)) : Option (List (RoseTree α)) :=
  if arity label ≤ stack.length then
    some (node label (stack.take (arity label)) :: stack.drop (arity label))
  else none

/-- The labels, one after the other. -/
def rebuild (labels : List α) (stack : List (RoseTree α)) : Option (List (RoseTree α)) :=
  labels.foldlM (fun stack label => attach arity label stack) stack

theorem rebuild_nil (stack : List (RoseTree α)) : rebuild arity [] stack = some stack := rfl

theorem rebuild_cons (label : α) (labels : List α) (stack : List (RoseTree α)) :
    rebuild arity (label :: labels) stack =
      (attach arity label stack).bind (rebuild arity labels) := rfl

theorem rebuild_append (first second : List α) (stack : List (RoseTree α)) :
    rebuild arity (first ++ second) stack =
      (rebuild arity first stack).bind (rebuild arity second) :=
  List.foldlM_append

/-- A label whose children are on top of the stack takes exactly these. -/
theorem attach_append {label : α} {children : List (RoseTree α)}
    (hlength : children.length = arity label) (stack : List (RoseTree α)) :
    attach arity label (children ++ stack) = some (node label children :: stack) := by
  have hle : arity label ≤ (children ++ stack).length := by
    rw [List.length_append, hlength]
    exact Nat.le_add_right _ _
  rw [attach, if_pos hle, ← hlength, List.take_left, List.drop_left]

mutual
/-- **The preorder rebuilds the tree**, on top of any stack. -/
theorem rebuild_preorder : (t : RoseTree α) → t.HasArity arity → (stack : List (RoseTree α)) →
    rebuild arity t.preorder.reverse stack = some (t :: stack)
  | node label children, ⟨hlength, hchildren⟩, stack => by
    rw [preorder, List.reverse_cons, rebuild_append, rebuild_preorders children hchildren,
      Option.bind_some, rebuild_cons, attach_append arity hlength, Option.bind_some, rebuild_nil]

theorem rebuild_preorders : (ts : List (RoseTree α)) → HaveArity arity ts →
    (stack : List (RoseTree α)) →
    rebuild arity (preorders ts).reverse stack = some (ts ++ stack)
  | [], _, _ => rfl
  | t :: ts, ⟨ht, hts⟩, stack => by
    -- the last tree is rebuilt first and lies below the others
    rw [preorders, List.reverse_append, rebuild_append, rebuild_preorders ts hts,
      Option.bind_some, rebuild_preorder t ht, List.cons_append]
end

end RoseTree

end Borealis
