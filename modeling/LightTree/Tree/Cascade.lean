import LightTree.Tree.Edit
import LightTree.Tree.Reach
import LightTree.Tree.Rehearsal
import LightTree.Tree.Source

/-!
# Cascades

A change of a source visits its listeners, then those of each list around it. A visited dependent
derives its state anew and visits its own listeners before the next one is visited.

Deriving the length of a linked list may build fields, and wiring a new field to its source starts
a cascade of its own, which does not refresh the view. The functions that build fields therefore
take the visit to make of a new dependent as an argument, and `notify` ties the knot.
-/

namespace LightTree

/-! ## Propagation -/

/-- Visits the listeners of fields that enclose one another, from the inside out, as long as they
are alive. -/
def spread (visit : FieldId → Edit Unit) : List FieldId → Edit Unit
  | [] => return
  | id :: outer => do
    match (← get).field? id with
    | none => return
    | some field =>
      field.listeners.forM visit
      spread visit outer

def propagate (visit : FieldId → Edit Unit) : Source → Edit Unit
  | .children id => do
    match (← get).node? id with
    | none => return
    | some node => node.listeners.forM visit
  | .field id => do
    spread visit ((← get).enclosing id)

/-! ## Wiring -/

def relink (dependent : FieldId) (source : Option Source) : Edit Unit := do
  discard (Edit.field dependent)
  modify (·.relink dependent source)

/-- Moves a dependent onto a new source and visits it. A source that the dependent reaches is
refused. If the visit fails, the dependent goes back to the source it had. -/
def rebindWith (visit : FieldId → Edit Unit) (dependent : FieldId) (source : Source) :
    Edit Unit := do
  let field ← Edit.field dependent
  if (← get).closesCycle dependent source then throw (.cycle field.name)
  Edit.check (·.rehearseEntry dependent)
  let previous := field.link
  relink dependent (some source)
  (visit dependent).orElseUndo (relink dependent previous)

/-! ## Building fields -/

/-- The source that a declaration names. Names resolve in the group first and then among the fields
at the top of the node. -/
def resolve (owner : NodeId) (group : List FieldId) (decl : FieldDecl) : Edit (Option Source) :=
  match decl with
  | .list _ .children _ => return some (.children owner)
  | decl =>
    match decl.dependency? with
    | none => return none
    | some source =>
      Edit.check fun tree ↦
        match tree.firstNamed? source (group ++ tree.topFields owner) with
        | some id => .ok (some (.field id))
        | none => .error (.unknownSource decl.name source)

/-- Adds the field of a declaration with its first value and wires it to its source. -/
def plant (visit : FieldId → Edit Unit) (owner : NodeId) (group : List FieldId)
    (container : Option FieldId) (decl : FieldDecl) (value : Value) : Edit FieldId := do
  let id ← Edit.addField { name := decl.name, owner, value, container }
  match ← resolve owner group decl with
  | some source => rebindWith visit id source
  | none => pure ()
  return id

/-- Builds the field of a declaration after those of `group`. The field inside a gate is built
before the gate. -/
def instantiate (visit : FieldId → Edit Unit) (owner : NodeId) (group : List FieldId)
    (container : Option FieldId) : FieldDecl → Edit FieldId
  | .scalar name initial =>
    plant visit owner group container (.scalar name initial) (.scalar initial)
  | .choice name options => do
    if options.isEmpty then throw (.schema (.noOptions name))
    plant visit owner group container (.choice name options) (.choice options 0)
  | .list name rule element =>
    plant visit owner group container (.list name rule element)
      (.list (rule != .free) element [])
  | .gated name source condition inner => do
    let id ← instantiate visit owner group container inner
    plant visit owner group container (.gated name source condition inner) (.gated condition id)

/-- Builds the rest of a group after the fields of `group`, and gives the whole group. -/
def instantiateGroup (visit : FieldId → Edit Unit) (owner : NodeId) (container : Option FieldId) :
    List FieldId → List FieldDecl → Edit (List FieldId)
  | group, [] => return group
  | group, decl :: rest => do
    let id ← instantiate visit owner group container decl
    instantiateGroup visit owner container (group ++ [id]) rest

/-! ## Linked lists -/

def grow (visit : FieldId → Edit Unit) (owner : NodeId) (template : List FieldDecl)
    (id : FieldId) : Nat → Edit Unit
  | 0 => return
  | count + 1 => do
    let group ← instantiateGroup visit owner (some id) [] template
    discard (Edit.field id)
    Edit.mapElements id (· ++ [group])
    grow visit owner template id count

def shrink (id : FieldId) : Nat → Edit Unit
  | 0 => return
  | count + 1 => do
    let field ← Edit.field id
    Edit.mapElements id (·.dropLast)
    modify (·.releaseFields ((field.value.elements?.bind (·.getLast?)).getD []))
    shrink id count

def resize (visit : FieldId → Edit Unit) (id : FieldId) (length : Nat) : Edit Unit := do
  let field ← Edit.field id
  match field.value with
  | .list _ template elements =>
    grow visit field.owner template id (length - elements.length)
    shrink id (elements.length - length)
  | _ => throw (.wrongKind field.name FieldKind.link.keyword)

/-! ## Deriving and notifying -/

def recompute (visit : FieldId → Edit Unit) (id : FieldId) : Edit Unit := do
  let field ← Edit.field id
  match field.link with
  | none => return
  | some source =>
    match field.value with
    | .gated condition _ => Edit.setActive id ((← get).holds source condition)
    | .list true _ _ => resize visit id ((← get).sourceLength source)
    | _ => return

/-- Visits a dependent after those of `path`, unless it has been released before. The visits that
wire new fields begin paths of their own. -/
def notify : Nat → Bool → List FieldId → FieldId → Edit Unit
  | 0, _, _, _ => throw .exhausted
  | fuel + 1, refresh, path, id => do
    match (← get).field? id with
    | none => return
    | some field =>
      Edit.check (·.guard path id field)
      recompute (notify fuel false []) id
      if refresh && !(← get).settings.coalesce then Edit.refresh
      propagate (notify fuel refresh (id :: path)) (.field id)

namespace Tree

/-- The declarations that elements of lists are built from, over all fields. -/
def templateWeight (tree : Tree) : Nat :=
  (tree.liveFields.map fun (_, field) ↦ field.value.weight).foldr (· + ·) 0

/-- A bound on the visits that are under way at once. A field is under way once at most, and between
two fields that were there before stand only new ones, of one element of each list around them. -/
def cascadeBudget (tree : Tree) : Nat :=
  (tree.fields.size + 1) * (tree.templateWeight + 2)

end Tree

def enter (refresh : Bool) (id : FieldId) : Edit Unit := do
  notify (← get).cascadeBudget refresh [] id

/-- Runs the cascade of a change without refreshing the view. -/
def settleQuietly (source : Source) : Edit Unit :=
  propagate (enter false) source

/-- Runs the cascade of a change and then refreshes the view, even if the cascade stopped early:
the change is stored by then. -/
def settle (source : Source) : Edit Unit := do
  (propagate (enter true) source).orElseUndo Edit.refresh
  Edit.refresh

end LightTree
