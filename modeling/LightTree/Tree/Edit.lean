import LightTree.Tree.Subscription

/-!
# Edits

An edit changes a tree and gives a value or a fault. What it changed before a fault stays changed.
-/

namespace LightTree

abbrev Edit (α : Type) : Type := ExceptT Fault (StateM Tree) α

namespace Edit

/-- The value or fault of an edit, and the tree after it. -/
def runOn {α : Type} (edit : Edit α) (tree : Tree) : Except Fault α × Tree :=
  (ExceptT.run edit).run tree

/-- Fails where a check of the tree does, and changes nothing. -/
def check {α : Type} (f : Tree → Except Fault α) : Edit α := do
  match f (← get) with
  | .ok a => return a
  | .error fault => throw fault

def field (id : FieldId) : Edit Field :=
  check fun tree ↦
    match tree.field? id with
    | some field => .ok field
    | none => .error (.unknownField id)

def setValue (id : FieldId) (value : Value) : Edit Unit :=
  modify (·.updateField id ({ · with value }))

def setActive (id : FieldId) (active : Bool) : Edit Unit :=
  modify (·.updateField id ({ · with active }))

def mapElements (id : FieldId) (f : List (List FieldId) → List (List FieldId)) : Edit Unit :=
  modify (·.updateField id fun field ↦ { field with value := field.value.mapElements f })

def addField (field : Field) : Edit FieldId :=
  modifyGet fun tree ↦ (tree.nextField, tree.insertField field)

def addNode (node : Node) : Edit NodeId :=
  modifyGet fun tree ↦ (tree.nextNode, tree.insertNode node)

def refresh : Edit Unit :=
  modify fun tree ↦ { tree with refreshes := tree.refreshes + 1 }

/-- Runs an edit; if it fails, runs another one before failing the same way. -/
def orElseUndo {α : Type} (edit : Edit α) (undo : Edit Unit) : Edit α :=
  tryCatch edit fun fault ↦ do
    undo
    throw fault

/-! ## Running -/

section

variable {α β : Type} (tree : Tree)

@[simp] theorem runOn_pure (a : α) : (pure a : Edit α).runOn tree = (.ok a, tree) := rfl

@[simp] theorem runOn_throw (fault : Fault) :
    (throw fault : Edit α).runOn tree = (.error fault, tree) := rfl

theorem runOn_bind (edit : Edit α) (next : α → Edit β) :
    (edit >>= next).runOn tree =
      match edit.runOn tree with
      | (.ok a, tree) => (next a).runOn tree
      | (.error fault, tree) => (.error fault, tree) := by
  show (match (ExceptT.run edit).run tree with
    | (a, tree) => (ExceptT.bindCont next a).run tree) = _
  unfold runOn
  rcases (ExceptT.run edit).run tree with ⟨_ | _, _⟩ <;> rfl

@[simp] theorem runOn_get : (get : Edit Tree).runOn tree = (.ok tree, tree) := rfl

@[simp] theorem runOn_modify (f : Tree → Tree) :
    (modify f : Edit Unit).runOn tree = (.ok (), f tree) := rfl

@[simp] theorem runOn_check (f : Tree → Except Fault α) :
    (check f).runOn tree = (f tree, tree) := by
  rw [check, runOn_bind, runOn_get]
  cases h : f tree <;> simp [h]

theorem runOn_field (id : FieldId) :
    (field id).runOn tree =
      match tree.field? id with
      | some field => (.ok field, tree)
      | none => (.error (.unknownField id), tree) := by
  rw [field, runOn_check]
  cases tree.field? id <;> rfl

@[simp] theorem runOn_addField (field : Field) :
    (addField field).runOn tree = (.ok tree.nextField, tree.insertField field) := rfl

@[simp] theorem runOn_addNode (node : Node) :
    (addNode node).runOn tree = (.ok tree.nextNode, tree.insertNode node) := rfl

theorem runOn_tryCatch (edit : Edit α) (handle : Fault → Edit α) :
    (tryCatch edit handle).runOn tree =
      match edit.runOn tree with
      | (.ok a, tree) => (.ok a, tree)
      | (.error fault, tree) => (handle fault).runOn tree := by
  simp only [runOn, tryCatch, tryCatchThe, MonadExceptOf.tryCatch, ExceptT.tryCatch, ExceptT.run,
    ExceptT.mk, StateT.run_bind]
  rcases h : StateT.run edit tree with ⟨_ | _, _⟩
  · rfl
  · rfl

theorem runOn_orElseUndo (edit : Edit α) (undo : Edit Unit) :
    (edit.orElseUndo undo).runOn tree =
      match edit.runOn tree with
      | (.ok a, tree) => (.ok a, tree)
      | (.error fault, tree) =>
        match undo.runOn tree with
        | (.ok (), tree) => (.error fault, tree)
        | (.error other, tree) => (.error other, tree) := by
  rw [orElseUndo, runOn_tryCatch]
  rcases edit.runOn tree with ⟨_ | _, tree⟩
  · simp only [runOn_bind]
    rcases undo.runOn tree with ⟨_ | _, _⟩ <;> rfl
  · rfl

end

end Edit

end LightTree
