import LightTree.Catalog.Basic
import LightTree.Settings
import LightTree.Store

/-!
# The state of a tree

A tree owns its nodes and its fields. A node lists its fields and its children. A field may be
linked to a source, from which its activity or its length derives; the source lists the fields that
listen to it. A field inside an element of a list knows that list as its container.
-/

namespace LightTree

/-- What a field may derive from: a field, or the children of a node. -/
inductive Source
  | field (id : FieldId)
  | children (node : NodeId)
deriving DecidableEq, Repr

/-- Whether a request to change the shape of the tree was carried out. -/
inductive Outcome
  | applied
  | ignored
deriving DecidableEq, Repr

def Outcome.label : Outcome → String
  | applied => "Applied"
  | ignored => "Ignored"

/-- The value of a field. A list keeps the declarations that its elements are built from, and
`linked` says that its length follows a source. -/
inductive Value
  | scalar (value : Scalar)
  | choice (options : List Choice) (chosen : Nat)
  | list (linked : Bool) (template : List FieldDecl) (elements : List (List FieldId))
  | gated (condition : Condition) (inner : FieldId)
deriving DecidableEq, Repr

structure Field where
  name : String
  owner : NodeId
  value : Value
  active : Bool := true
  link : Option Source := none
  listeners : List FieldId := []
  container : Option FieldId := none
deriving DecidableEq, Repr

structure Node where
  kind : NodeKind
  fields : List FieldId := []
  children : List NodeId := []
  parent : Option NodeId := none
  listeners : List FieldId := []
deriving DecidableEq, Repr

/-- `refreshes` counts how often the view has been told of a change. -/
structure Tree where
  catalog : Catalog
  settings : Settings
  nodes : Store Node := {}
  fields : Store Field := {}
  root : NodeId := ⟨0⟩
  refreshes : Nat := 0

/-! ## Values -/

def Scalar.token : Scalar → String
  | integer n => toString n
  | position n => toString n
  | boolean b => if b then "1" else "0"
  | text s => s
  | color s => s

namespace Value

def kind : Value → FieldKind
  | scalar s => s.kind
  | choice .. => .choice
  | list linked _ _ => if linked then .link else .list
  | gated condition _ => condition.kind

def inner? : Value → Option FieldId
  | gated _ inner => some inner
  | _ => none

def elements? : Value → Option (List (List FieldId))
  | list _ _ elements => some elements
  | _ => none

def chosen? : Value → Option Choice
  | choice options chosen => options[chosen]?
  | _ => none

def parts : Value → List FieldId
  | list _ _ elements => elements.flatten
  | gated _ inner => [inner]
  | _ => []

/-- The text that conditions compare: the token of a scalar, the value of the chosen option, the
length of a list. -/
def raw? : Value → Option String
  | scalar s => some s.token
  | choice options chosen => options[chosen]?.map (·.value)
  | list _ _ elements => some (toString elements.length)
  | gated .. => none

/-- The number of declarations that elements of a list are built from. -/
def weight : Value → Nat
  | list _ template _ => FieldDecl.weights template
  | _ => 0

def mapElements (f : List (List FieldId) → List (List FieldId)) : Value → Value
  | list linked template elements => list linked template (f elements)
  | value => value

end Value

/-! ## Nodes -/

namespace Node

def isFull (node : Node) : Bool :=
  match node.kind.maxChildren with
  | some most => decide (most ≤ node.children.length)
  | none => false

def accepts (node : Node) (category : Category) : Bool :=
  !node.isFull && category == node.kind.childCategory && category != .nothing

/-- Whether the number of children stands on the wire: it does unless at most one is allowed. -/
def showsCount (node : Node) : Bool :=
  match node.kind.maxChildren with
  | some most => decide (1 < most)
  | none => true

end Node

/-! ## Look-up and change -/

namespace Tree

def node? (tree : Tree) (id : NodeId) : Option Node := tree.nodes.find? id.index

def field? (tree : Tree) (id : FieldId) : Option Field := tree.fields.find? id.index

def updateNode (tree : Tree) (id : NodeId) (f : Node → Node) : Tree :=
  { tree with nodes := tree.nodes.update id.index f }

def updateField (tree : Tree) (id : FieldId) (f : Field → Field) : Tree :=
  { tree with fields := tree.fields.update id.index f }

def removeNode (tree : Tree) (id : NodeId) : Tree :=
  { tree with nodes := tree.nodes.remove id.index }

def removeField (tree : Tree) (id : FieldId) : Tree :=
  { tree with fields := tree.fields.remove id.index }

def insertNode (tree : Tree) (node : Node) : Tree :=
  { tree with nodes := tree.nodes.insert node }

def insertField (tree : Tree) (field : Field) : Tree :=
  { tree with fields := tree.fields.insert field }

def nextNode (tree : Tree) : NodeId := ⟨tree.nodes.size⟩

def nextField (tree : Tree) : FieldId := ⟨tree.fields.size⟩

def liveNodes (tree : Tree) : List (NodeId × Node) :=
  tree.nodes.live.map fun (i, node) ↦ (⟨i⟩, node)

def liveFields (tree : Tree) : List (FieldId × Field) :=
  tree.fields.live.map fun (i, field) ↦ (⟨i⟩, field)

def topFields (tree : Tree) (id : NodeId) : List FieldId :=
  match tree.node? id with
  | some node => node.fields
  | none => []

def children (tree : Tree) (id : NodeId) : List NodeId :=
  match tree.node? id with
  | some node => node.children
  | none => []

def firstNamed? (tree : Tree) (name : String) (ids : List FieldId) : Option FieldId :=
  ids.find? fun id ↦ (tree.field? id).any (·.name == name)

def fieldNamed? (tree : Tree) (id : NodeId) (name : String) : Option FieldId :=
  tree.firstNamed? name (tree.topFields id)

/-! ### What a change leaves alone -/

@[simp] theorem field?_updateNode (tree : Tree) (i : NodeId) (f : Node → Node) (j : FieldId) :
    (tree.updateNode i f).field? j = tree.field? j := rfl

@[simp] theorem node?_updateField (tree : Tree) (i : FieldId) (f : Field → Field) (j : NodeId) :
    (tree.updateField i f).node? j = tree.node? j := rfl

@[simp] theorem field?_removeNode (tree : Tree) (i : NodeId) (j : FieldId) :
    (tree.removeNode i).field? j = tree.field? j := rfl

@[simp] theorem node?_removeField (tree : Tree) (i : FieldId) (j : NodeId) :
    (tree.removeField i).node? j = tree.node? j := rfl

@[simp] theorem field?_insertNode (tree : Tree) (node : Node) (j : FieldId) :
    (tree.insertNode node).field? j = tree.field? j := rfl

@[simp] theorem node?_insertField (tree : Tree) (field : Field) (j : NodeId) :
    (tree.insertField field).node? j = tree.node? j := rfl

theorem node?_updateNode (tree : Tree) (i j : NodeId) (f : Node → Node) :
    (tree.updateNode i f).node? j = if i = j then (tree.node? j).map f else tree.node? j := by
  cases i
  cases j
  simp [node?, updateNode, Store.find?_update]

theorem field?_updateField (tree : Tree) (i j : FieldId) (f : Field → Field) :
    (tree.updateField i f).field? j = if i = j then (tree.field? j).map f else tree.field? j := by
  cases i
  cases j
  simp [field?, updateField, Store.find?_update]

@[simp] theorem node?_removeNode_self (tree : Tree) (i : NodeId) :
    (tree.removeNode i).node? i = none := by
  simp [node?, removeNode]

theorem node?_removeNode_of_ne (tree : Tree) {i j : NodeId} (h : i ≠ j) :
    (tree.removeNode i).node? j = tree.node? j := by
  cases i
  cases j
  exact tree.nodes.find?_remove_of_ne (by simpa using h)

@[simp] theorem field?_removeField_self (tree : Tree) (i : FieldId) :
    (tree.removeField i).field? i = none := by
  simp [field?, removeField]

theorem field?_removeField_of_ne (tree : Tree) {i j : FieldId} (h : i ≠ j) :
    (tree.removeField i).field? j = tree.field? j := by
  cases i
  cases j
  exact tree.fields.find?_remove_of_ne (by simpa using h)

@[simp] theorem node?_insertNode_self (tree : Tree) (node : Node) :
    (tree.insertNode node).node? tree.nextNode = some node := by
  simp [node?, insertNode, nextNode]

theorem node?_insertNode_of_ne (tree : Tree) (node : Node) {i : NodeId} (h : i ≠ tree.nextNode) :
    (tree.insertNode node).node? i = tree.node? i := by
  cases i
  exact tree.nodes.find?_insert_of_ne node (by simpa [nextNode] using h)

@[simp] theorem field?_insertField_self (tree : Tree) (field : Field) :
    (tree.insertField field).field? tree.nextField = some field := by
  simp [field?, insertField, nextField]

theorem field?_insertField_of_ne (tree : Tree) (field : Field) {i : FieldId}
    (h : i ≠ tree.nextField) : (tree.insertField field).field? i = tree.field? i := by
  cases i
  exact tree.fields.find?_insert_of_ne field (by simpa [nextField] using h)

end Tree

end LightTree
