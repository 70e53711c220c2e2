import LightTree.Tree.Walk

/-!
# Rehearsing a cascade

Before a change is stored, the cascade it would set off is walked without changing anything. The
walk fails where a dependent would be entered a second time, or where the chain of dependents would
grow beyond the limit.
-/

namespace LightTree

namespace Tree

def listeners (tree : Tree) (id : FieldId) : List FieldId :=
  match tree.field? id with
  | some field => field.listeners
  | none => []

/-- The dependents that a change of a source tells itself: its listeners and, for a field, those of
the lists around it. -/
def audience (tree : Tree) : Source → List FieldId
  | .children node =>
    match tree.node? node with
    | some node => node.listeners
    | none => []
  | .field id => (tree.enclosing id).flatMap tree.listeners

def guard (tree : Tree) (path : List FieldId) (id : FieldId) (field : Field) :
    Except Fault Unit :=
  if id ∈ path then .error (.cycle field.name)
  else if tree.settings.maxDepth ≤ path.length then .error (.tooDeep tree.settings.maxDepth)
  else .ok ()

/-- Walks the cascade that enters a dependent after those of `path`. No dependent is entered twice
on a path, so one more step than there are fields is never taken. -/
def rehearseWithin (tree : Tree) : Nat → List FieldId → FieldId → Except Fault Unit
  | 0, _, _ => .error .exhausted
  | fuel + 1, path, id =>
    match tree.field? id with
    | none => .ok ()
    | some field => do
      tree.guard path id field
      (tree.audience (.field id)).forM (tree.rehearseWithin fuel (id :: path))

def rehearseEntry (tree : Tree) (id : FieldId) : Except Fault Unit :=
  tree.rehearseWithin (tree.fields.size + 2) [] id

def rehearse (tree : Tree) (source : Source) : Except Fault Unit :=
  (tree.audience source).forM tree.rehearseEntry

end Tree

end LightTree
