import LightTree.Tree.Walk

/-!
# What a change of a field can reach

A change of a field reaches its listeners and the list around it. A field may not depend on one
that it reaches.
-/

namespace LightTree

namespace Tree

/-- The fields that a change of a field reaches in one step. -/
def outward (tree : Tree) (id : FieldId) : List FieldId :=
  match tree.field? id with
  | some field => field.listeners ++ field.container.toList
  | none => []

/-- The fields of `seen` and those reached from `frontier`, in `fuel` rounds at most. -/
def explore (tree : Tree) : Nat → List FieldId → List FieldId → List FieldId
  | 0, seen, frontier => seen ++ frontier
  | fuel + 1, seen, frontier =>
    if frontier.isEmpty then seen
    else
      let seen := seen ++ frontier
      tree.explore fuel seen ((frontier.flatMap tree.outward).eraseDups.filter (· ∉ seen))

/-- A field and all that a change of it can reach. Only live fields lead on, so as many rounds as
fields are enough. -/
def reached (tree : Tree) (id : FieldId) : List FieldId :=
  tree.explore (tree.fields.size + 1) [] [id]

/-- Whether a change of `dependent` can already reach `source` or a field inside it. -/
def closesCycle (tree : Tree) (dependent : FieldId) : Source → Bool
  | .children _ => false
  | .field id => (tree.reached dependent).any (tree.layers id).contains

end Tree

end LightTree
