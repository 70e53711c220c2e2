import LightTree.Tree.Basic

/-!
# Walks along a tree

Three walks follow one step at a time: from a gated field to the field inside, from a field to the
list around it, and from a node to its parent. The steps go from a later field to an earlier one, or
up a forest, so there are no more of them than fields or nodes.
-/

namespace LightTree

/-- A start and what `next` leads to from it, in `fuel` steps at most. -/
def chain {α : Type} (next : α → Option α) : Nat → α → List α
  | 0, a => [a]
  | fuel + 1, a =>
    match next a with
    | some b => a :: chain next fuel b
    | none => [a]

@[simp] theorem chain_zero {α : Type} (next : α → Option α) (a : α) : chain next 0 a = [a] := rfl

theorem chain_of_none {α : Type} {next : α → Option α} {a : α} (h : next a = none) (fuel : Nat) :
    chain next fuel a = [a] := by
  cases fuel <;> simp [chain, h]

theorem chain_of_some {α : Type} {next : α → Option α} {a b : α} (h : next a = some b)
    (fuel : Nat) : chain next (fuel + 1) a = a :: chain next fuel b := by
  simp [chain, h]

theorem chain_ne_nil {α : Type} (next : α → Option α) (fuel : Nat) (a : α) :
    chain next fuel a ≠ [] := by
  cases fuel with
  | zero => simp
  | succ fuel =>
      unfold chain
      split <;> simp

theorem mem_chain_self {α : Type} (next : α → Option α) (fuel : Nat) (a : α) :
    a ∈ chain next fuel a := by
  cases fuel with
  | zero => simp
  | succ fuel =>
      unfold chain
      split <;> simp

namespace Tree

def inner? (tree : Tree) (id : FieldId) : Option FieldId :=
  (tree.field? id).bind (·.value.inner?)

def container? (tree : Tree) (id : FieldId) : Option FieldId :=
  (tree.field? id).bind (·.container)

def parent? (tree : Tree) (id : NodeId) : Option NodeId :=
  (tree.node? id).bind (·.parent)

/-- A field and the fields it wraps, from the outside in. -/
def layers (tree : Tree) (id : FieldId) : List FieldId :=
  chain tree.inner? tree.fields.size id

/-- The field that holds the value of a field, inside all its gates. -/
def unwrap (tree : Tree) (id : FieldId) : FieldId :=
  (tree.layers id).getLast (chain_ne_nil _ _ _)

/-- A field and the lists around it, from the inside out. -/
def enclosing (tree : Tree) (id : FieldId) : List FieldId :=
  chain tree.container? tree.fields.size id

def lineage (tree : Tree) (id : NodeId) : List NodeId :=
  chain tree.parent? tree.nodes.size id

def isAncestor (tree : Tree) (ancestor id : NodeId) : Bool :=
  (tree.lineage id).contains ancestor

/-! ## Searching below a node -/

/-- The node `id` if it stands at or below `start`, looking `depth` levels down. -/
def descendantWithin? (tree : Tree) (id : NodeId) : Nat → NodeId → Option Node
  | 0, _ => none
  | depth + 1, start =>
    (tree.node? start).bind fun node ↦
      if start = id then some node
      else node.children.findSome? (tree.descendantWithin? id depth)

def descendant? (tree : Tree) (start id : NodeId) : Option Node :=
  tree.descendantWithin? id (tree.nodes.size + 1) start

end Tree

end LightTree
