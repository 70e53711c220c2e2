import LightTree.Tree.Walk

/-!
# Subscriptions

A dependent listens to its source. Listening to a gated field means listening to the fields inside
it as well, so that a change of the value inside reaches the dependent at once.
-/

namespace LightTree

def Field.addListener (dependent : FieldId) (field : Field) : Field :=
  { field with listeners := field.listeners ++ [dependent] }

def Field.removeListener (dependent : FieldId) (field : Field) : Field :=
  { field with listeners := field.listeners.filter (· ≠ dependent) }

def Node.addListener (dependent : FieldId) (node : Node) : Node :=
  { node with listeners := node.listeners ++ [dependent] }

def Node.removeListener (dependent : FieldId) (node : Node) : Node :=
  { node with listeners := node.listeners.filter (· ≠ dependent) }

namespace Tree

def updateFields (tree : Tree) (ids : List FieldId) (f : Field → Field) : Tree :=
  ids.foldl (fun tree id ↦ tree.updateField id f) tree

@[simp] theorem updateFields_nil (tree : Tree) (f : Field → Field) :
    tree.updateFields [] f = tree := rfl

@[simp] theorem updateFields_cons (tree : Tree) (id : FieldId) (ids : List FieldId)
    (f : Field → Field) :
    tree.updateFields (id :: ids) f = (tree.updateField id f).updateFields ids f := rfl

@[simp] theorem node?_updateFields (tree : Tree) (ids : List FieldId) (f : Field → Field)
    (j : NodeId) : (tree.updateFields ids f).node? j = tree.node? j := by
  induction ids generalizing tree with
  | nil => rfl
  | cons id ids ih => simp [ih]

def subscribe (tree : Tree) (dependent : FieldId) : Source → Tree
  | .children node => tree.updateNode node (·.addListener dependent)
  | .field id => tree.updateFields (tree.layers id) (·.addListener dependent)

def unsubscribe (tree : Tree) (dependent : FieldId) : Source → Tree
  | .children node => tree.updateNode node (·.removeListener dependent)
  | .field id => tree.updateFields (tree.layers id) (·.removeListener dependent)

/-- Does something to a tree with a source, if there is one. -/
def withSource (tree : Tree) (source : Option Source) (act : Tree → Source → Tree) : Tree :=
  match source with
  | some source => act tree source
  | none => tree

def relink (tree : Tree) (dependent : FieldId) (source : Option Source) : Tree :=
  let previous := (tree.field? dependent).bind (·.link)
  let tree := tree.withSource previous (·.unsubscribe dependent)
  let tree := tree.withSource source (·.subscribe dependent)
  tree.updateField dependent ({ · with link := source })

/-! ## Releasing -/

/-- Removes a field with all that it owns, `fuel` levels deep. Each level removes a field. -/
def releaseFieldWithin : Nat → Tree → FieldId → Tree
  | 0, tree, _ => tree
  | fuel + 1, tree, id =>
    match tree.field? id with
    | none => tree
    | some field =>
      let tree := (tree.withSource field.link (·.unsubscribe id)).removeField id
      field.value.parts.foldl (releaseFieldWithin fuel) tree

/-- Removes a field with all that it owns and takes each from the source it listens to. -/
def releaseField (tree : Tree) (id : FieldId) : Tree :=
  releaseFieldWithin (tree.fields.size + 1) tree id

def releaseFields (tree : Tree) (ids : List FieldId) : Tree :=
  ids.foldl releaseField tree

/-- Removes a node, the nodes below it and their fields, `fuel` levels deep. -/
def releaseNodeWithin : Nat → Tree → NodeId → Tree
  | 0, tree, _ => tree
  | fuel + 1, tree, id =>
    match tree.node? id with
    | none => tree
    | some node =>
      (node.children.foldl (releaseNodeWithin fuel) (tree.removeNode id)).releaseFields node.fields

def releaseNode (tree : Tree) (id : NodeId) : Tree :=
  releaseNodeWithin (tree.nodes.size + 1) tree id

end Tree

end LightTree
