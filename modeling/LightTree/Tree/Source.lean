import LightTree.Tree.Walk

/-!
# What a source looks like to its dependents

A gated field depends on whether its source is present or has a given text; a linked list has the
length of its source. What a gated field shows is that of the field inside, but it is present only
while it is active itself.
-/

namespace LightTree

namespace Tree

def raw? (tree : Tree) (id : FieldId) : Option String :=
  (tree.field? (tree.unwrap id)).bind (·.value.raw?)

def listLength (tree : Tree) (id : FieldId) : Nat :=
  match (tree.field? (tree.unwrap id)).bind (·.value.elements?) with
  | some elements => elements.length
  | none => 0

/-- A field is present while it is active and, if it holds a boolean, set; children are present
unless there are none. -/
def isPresent (tree : Tree) : Source → Bool
  | .children node => !(tree.children node).isEmpty
  | .field id =>
    match tree.field? id, tree.field? (tree.unwrap id) with
    | some field, some target =>
      match target.value with
      | .scalar (.boolean set) => field.active && set
      | _ => field.active
    | _, _ => false

def sourceRaw? (tree : Tree) : Source → Option String
  | .children node => (tree.node? node).map fun node ↦ toString node.children.length
  | .field id => tree.raw? id

def sourceLength (tree : Tree) : Source → Nat
  | .children node => (tree.children node).length
  | .field id => tree.listLength id

def holds (tree : Tree) (source : Source) : Condition → Bool
  | .present => tree.isPresent source
  | .equals target => tree.sourceRaw? source == some target

end Tree

end LightTree
