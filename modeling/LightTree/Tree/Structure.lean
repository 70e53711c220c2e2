import LightTree.Tree.Cascade

/-!
# Changing the shape of a tree

A node is built with its fields and the children it requires. It is attached to a parent that takes
its category and has room for it, or built for that parent, and it is removed or replaced with all
that is below it. A request that does not fit is ignored.
-/

namespace LightTree

/-- Runs the cascade of changed children, with or without a refresh of the view. -/
def childrenChanged (parent : NodeId) (refresh : Bool) : Edit Unit :=
  if refresh then settle (.children parent) else settleQuietly (.children parent)

def release (id : NodeId) : Edit Unit :=
  modify (·.releaseNode id)

/-! ## Attaching -/

namespace Tree

/-- Whether a live, unattached node other than the root may become a child of a live node with room
for it that does not stand below it. -/
def canAttach (tree : Tree) (parent child : NodeId) : Bool :=
  match tree.node? parent, tree.node? child with
  | some target, some node =>
    node.parent.isNone && child != tree.root && !tree.isAncestor child parent &&
      target.accepts node.kind.category
  | _, _ => false

def isDetached (tree : Tree) (id : NodeId) : Bool :=
  match tree.node? id with
  | some node => id != tree.root && node.parent.isNone
  | none => false

end Tree

def attach (parent child : NodeId) (refresh : Bool) : Edit Outcome := do
  if !(← get).canAttach parent child then return .ignored
  Edit.check (·.rehearse (.children parent))
  modify (·.updateNode parent fun node ↦ { node with children := node.children ++ [child] })
  modify (·.updateNode child ({ · with parent := some parent }))
  childrenChanged parent refresh
  return .applied

/-! ## Building -/

def furnish (id : NodeId) : List FieldDecl → Edit Unit
  | [] => return
  | decl :: rest => do
    let field ← instantiate (enter false) id [] none decl
    modify (·.updateNode id fun node ↦ { node with fields := node.fields ++ [field] })
    furnish id rest

/-- Makes a child and attaches it; a child that cannot be attached is released. -/
def populateOne (make : NodeKind → Edit NodeId) (id : NodeId) (kind childKind : NodeKind) :
    Edit Unit := do
  let child ← make childKind
  let outcome ← (attach id child false).orElseUndo (release child)
  if outcome = .ignored then
    release child
    throw (.schema (.childRejected kind.name childKind.name))

def populate (make : NodeKind → Edit NodeId) (id : NodeId) (kind : NodeKind)
    (childKind? : Option NodeKind) : Nat → Edit Unit
  | 0 => return
  | count + 1 => do
    match childKind? with
    | none => throw (.schema (.noChildKind kind.name kind.minChildren kind.childCategory))
    | some childKind => populateOne make id kind childKind
    populate make id kind childKind? count

/-- Fills a new node with its fields and the children it requires. -/
def build (make : NodeKind → Edit NodeId) (id : NodeId) (kind : NodeKind) : Edit Unit := do
  furnish id kind.fields
  if kind.childCategory != .nothing then
    let childKind? := (← get).catalog.first? kind.childCategory
    populate make id kind childKind? kind.minChildren

/-- Makes a node with those it requires below it, `depth` levels deep. -/
def createWithin : Nat → NodeKind → Edit NodeId
  | 0, _ => throw .exhausted
  | depth + 1, kind => do
    Edit.check fun _ ↦ kind.check
    let id ← Edit.addNode { kind }
    (build (createWithin depth) id kind).orElseUndo (release id)
    return id

/-- Makes a node with those it requires below it. Each level requires another category than the
levels above, so there are five levels at most. -/
def create (kind : NodeKind) : Edit NodeId :=
  createWithin 5 kind

/-! ## Adding and removing -/

/-- Attaches a node. A detached node that is not attached is released. -/
def addChild (parent child : NodeId) : Edit Outcome := do
  let giveUp : Edit Unit := do
    if (← get).isDetached child then release child
  let outcome ← (attach parent child true).orElseUndo giveUp
  if outcome = .ignored then giveUp
  return outcome

/-- Makes a node of the first kind of a category and attaches it, if the parent has room. -/
def addByCategory (parent : NodeId) (category : Category) : Edit Outcome := do
  let tree ← get
  if !(tree.node? parent).any (·.accepts category) then return .ignored
  match tree.catalog.first? category with
  | none => return .ignored
  | some kind => addChild parent (← create kind)

def removeChild (parent child : NodeId) : Edit Outcome := do
  if !((← get).children parent).contains child then return .ignored
  Edit.check (·.rehearse (.children parent))
  modify (·.updateNode parent fun node ↦ { node with children := node.children.erase child })
  release child
  childrenChanged parent true
  return .applied

def detach (id : NodeId) : Edit Outcome := do
  match (← get).parent? id with
  | some parent => removeChild parent id
  | none => return .ignored

def replaceChild (parent old new : NodeId) : Edit Unit := do
  modify (·.updateNode parent fun node ↦ { node with children := node.children.replace old new })
  modify (·.updateNode new ({ · with parent := some parent }))

/-- Replaces a node by a new one of the same category, whose kind has the given symbol. -/
def retype (id : NodeId) (symbol : String) : Edit Outcome := do
  let tree ← get
  let some node := tree.node? id | return .ignored
  let some parent := node.parent | return .ignored
  let some kind := tree.catalog.find? node.kind.category symbol | return .ignored
  Edit.check (·.rehearse (.children parent))
  let replacement ← create kind
  if !((← get).children parent).contains id then
    release replacement
    return .ignored
  replaceChild parent id replacement
  release id
  childrenChanged parent true
  return .applied

/-! ## Starting -/

namespace Tree

def start (catalog : Catalog) (settings : Settings) : Except Fault Tree :=
  let kind := catalog.root
  let edit : Edit Unit := do
    let id ← Edit.addNode { kind }
    build create id kind
  match edit.runOn { catalog, settings } with
  | (.ok (), tree) => .ok tree
  | (.error fault, _) => .error fault

end Tree

end LightTree
