import LightTree.Tree.Rehearsal
import LightTree.Tree.Subscription
import Mathlib.Logic.Relation
import Mathlib.Tactic.ByContra

/-!
# Views of a tree

The invariants of a tree speak of one part of a field or node at a time: its link, its listeners,
the fields it owns. A view reads such a part, with a default for what is not alive, and each change
of a tree says here what it does to every view.
-/

namespace LightTree

theorem Store.update_congr {α : Type} {store : Store α} {i : Nat} {f g : α → α}
    (h : ∀ a, store.find? i = some a → f a = g a) : store.update i f = store.update i g := by
  unfold update
  congr 1
  refine Array.ext (by simp) fun j hj _ ↦ ?_
  have hj' : j < store.slots.size := by simpa using hj
  rw [Array.getElem_modify, Array.getElem_modify]
  split
  · next hij =>
      subst hij
      cases ha : store.slots[i] with
      | none => rfl
      | some a =>
          have hfind : store.find? i = some a := by simp [find?, hj', ha]
          rw [Option.map_some, Option.map_some, h a hfind]
  · rfl

namespace Tree

variable {α : Type}

/-! ## Reading -/

/-- A part of a field, or the default if the field is not alive. -/
def read (tree : Tree) (part : Field → α) (default : α) (id : FieldId) : α :=
  (tree.field? id).elim default part

/-- A part of a node, or the default if the node is not alive. -/
def readNode (tree : Tree) (part : Node → α) (default : α) (id : NodeId) : α :=
  (tree.node? id).elim default part

def Live (tree : Tree) (id : FieldId) : Prop :=
  (tree.field? id).isSome = true

def LiveNode (tree : Tree) (id : NodeId) : Prop :=
  (tree.node? id).isSome = true

instance (tree : Tree) (id : FieldId) : Decidable (tree.Live id) :=
  inferInstanceAs (Decidable (_ = true))

instance (tree : Tree) (id : NodeId) : Decidable (tree.LiveNode id) :=
  inferInstanceAs (Decidable (_ = true))

def link? (tree : Tree) : FieldId → Option Source :=
  tree.read (·.link) none

def parts (tree : Tree) : FieldId → List FieldId :=
  tree.read (·.value.parts) []

def elements (tree : Tree) : FieldId → List (List FieldId) :=
  tree.read (·.value.elements?.getD []) []

def owner? (tree : Tree) : FieldId → Option NodeId :=
  tree.read (fun field ↦ some field.owner) none

def nodeListeners (tree : Tree) : NodeId → List FieldId :=
  tree.readNode (·.listeners) []

theorem read_of_some {tree : Tree} {id : FieldId} {field : Field} (h : tree.field? id = some field)
    (part : Field → α) (default : α) : tree.read part default id = part field := by
  simp [read, h]

theorem read_of_none {tree : Tree} {id : FieldId} (h : tree.field? id = none)
    (part : Field → α) (default : α) : tree.read part default id = default := by
  simp [read, h]

theorem elements_of_some {tree : Tree} {id : FieldId} {field : Field}
    (hf : tree.field? id = some field) {elements : List (List FieldId)}
    (hv : field.value.elements? = some elements) : tree.elements id = elements := by
  rw [Tree.elements, read_of_some hf, hv, Option.getD_some]

theorem readNode_of_some {tree : Tree} {id : NodeId} {node : Node} (h : tree.node? id = some node)
    (part : Node → α) (default : α) : tree.readNode part default id = part node := by
  simp [readNode, h]

theorem readNode_of_none {tree : Tree} {id : NodeId} (h : tree.node? id = none)
    (part : Node → α) (default : α) : tree.readNode part default id = default := by
  simp [readNode, h]

/-- Two trees agree on a part of a node if they agree on something that has the same part. -/
theorem readNode_congr {tree after : Tree} {id : NodeId} {f : Node → Node} {part : Node → α}
    (hpart : ∀ node, part (f node) = part node)
    (h : (after.node? id).map f = (tree.node? id).map f) (default : α) :
    after.readNode part default id = tree.readNode part default id := by
  have hread : ∀ t : Tree, t.readNode part default id = ((t.node? id).map f).elim default part := by
    intro t
    unfold readNode
    cases t.node? id with
    | none => rfl
    | some node => exact (hpart node).symm
  rw [hread, hread, h]

theorem listeners_eq_read (tree : Tree) : tree.listeners = tree.read (·.listeners) [] := by
  funext id
  unfold listeners read
  cases tree.field? id <;> rfl

theorem container?_eq_read (tree : Tree) : tree.container? = tree.read (·.container) none := by
  funext id
  unfold container? read
  cases tree.field? id <;> rfl

theorem inner?_eq_read (tree : Tree) : tree.inner? = tree.read (·.value.inner?) none := by
  funext id
  unfold inner? read
  cases tree.field? id <;> rfl

theorem topFields_eq_readNode (tree : Tree) :
    tree.topFields = tree.readNode (·.fields) [] := by
  funext id
  unfold topFields readNode
  cases tree.node? id <;> rfl

theorem children_eq_readNode (tree : Tree) :
    tree.children = tree.readNode (·.children) [] := by
  funext id
  unfold children readNode
  cases tree.node? id <;> rfl

theorem parent?_eq_readNode (tree : Tree) :
    tree.parent? = tree.readNode (·.parent) none := by
  funext id
  unfold parent? readNode
  cases tree.node? id <;> rfl

/-! ## What is alive -/

theorem live_iff {tree : Tree} {id : FieldId} :
    tree.Live id ↔ ∃ field, tree.field? id = some field := by
  simp [Live, Option.isSome_iff_exists]

theorem not_live_iff {tree : Tree} {id : FieldId} : ¬tree.Live id ↔ tree.field? id = none := by
  simp [Live]

theorem liveNode_iff {tree : Tree} {id : NodeId} :
    tree.LiveNode id ↔ ∃ node, tree.node? id = some node := by
  simp [LiveNode, Option.isSome_iff_exists]

theorem not_liveNode_iff {tree : Tree} {id : NodeId} :
    ¬tree.LiveNode id ↔ tree.node? id = none := by
  simp [LiveNode]

theorem liveNode_of_some {tree : Tree} {id : NodeId} {node : Node}
    (h : tree.node? id = some node) : tree.LiveNode id :=
  liveNode_iff.2 ⟨node, h⟩

theorem live_of_some {tree : Tree} {id : FieldId} {field : Field}
    (h : tree.field? id = some field) : tree.Live id :=
  live_iff.2 ⟨field, h⟩

theorem Live.lt_size {tree : Tree} {id : FieldId} (h : tree.Live id) :
    id.index < tree.fields.size := by
  obtain ⟨field, hf⟩ := live_iff.1 h
  exact Store.lt_size_of_find? hf

theorem LiveNode.lt_size {tree : Tree} {id : NodeId} (h : tree.LiveNode id) :
    id.index < tree.nodes.size := by
  obtain ⟨node, hn⟩ := liveNode_iff.1 h
  exact Store.lt_size_of_find? hn

theorem live_of_read_ne {tree : Tree} {part : Field → α} {default : α} {id : FieldId}
    (h : tree.read part default id ≠ default) : tree.Live id := by
  by_contra hdead
  exact h (read_of_none (not_live_iff.1 hdead) part default)

theorem liveNode_of_readNode_ne {tree : Tree} {part : Node → α} {default : α} {id : NodeId}
    (h : tree.readNode part default id ≠ default) : tree.LiveNode id := by
  by_contra hdead
  exact h (readNode_of_none (not_liveNode_iff.1 hdead) part default)

theorem liveNode_of_mem_children {tree : Tree} {id child : NodeId} (h : child ∈ tree.children id) :
    tree.LiveNode id := by
  rw [children_eq_readNode] at h
  exact liveNode_of_readNode_ne (List.ne_nil_of_mem h)

theorem liveNode_of_mem_topFields {tree : Tree} {id : NodeId} {field : FieldId}
    (h : field ∈ tree.topFields id) : tree.LiveNode id := by
  rw [topFields_eq_readNode] at h
  exact liveNode_of_readNode_ne (List.ne_nil_of_mem h)

theorem liveNode_of_parent?_eq_some {tree : Tree} {id parent : NodeId}
    (h : tree.parent? id = some parent) : tree.LiveNode id := by
  rw [parent?_eq_readNode] at h
  exact liveNode_of_readNode_ne (ne_of_eq_of_ne h (Option.some_ne_none parent))

theorem live_of_link?_eq_some {tree : Tree} {id : FieldId} {source : Source}
    (h : tree.link? id = some source) : tree.Live id :=
  live_of_read_ne (ne_of_eq_of_ne h (Option.some_ne_none source))

theorem live_of_inner?_eq_some {tree : Tree} {id inner : FieldId}
    (h : tree.inner? id = some inner) : tree.Live id := by
  rw [inner?_eq_read] at h
  exact live_of_read_ne (ne_of_eq_of_ne h (Option.some_ne_none inner))

theorem live_of_container?_eq_some {tree : Tree} {id list : FieldId}
    (h : tree.container? id = some list) : tree.Live id := by
  rw [container?_eq_read] at h
  exact live_of_read_ne (ne_of_eq_of_ne h (Option.some_ne_none list))

theorem live_of_mem_listeners {tree : Tree} {id dependent : FieldId}
    (h : dependent ∈ tree.listeners id) : tree.Live id := by
  rw [listeners_eq_read] at h
  exact live_of_read_ne (List.ne_nil_of_mem h)

theorem live_of_mem_parts {tree : Tree} {id part : FieldId} (h : part ∈ tree.parts id) :
    tree.Live id :=
  live_of_read_ne (List.ne_nil_of_mem h)

theorem live_of_firstNamed?_eq_some {tree : Tree} {name : String} {ids : List FieldId}
    {id : FieldId} (h : tree.firstNamed? name ids = some id) : tree.Live id := by
  have hany := List.find?_some h
  cases hf : tree.field? id with
  | none => simp [hf] at hany
  | some field => exact live_of_some hf

theorem mem_parts_of_inner? {tree : Tree} {id inner : FieldId} (h : tree.inner? id = some inner) :
    inner ∈ tree.parts id := by
  obtain ⟨field, hf⟩ := live_iff.1 (live_of_inner?_eq_some h)
  rw [inner?_eq_read, read_of_some hf] at h
  rw [parts, read_of_some hf]
  cases hv : field.value <;> rw [hv] at h <;> simp_all [Value.inner?, Value.parts]

/-! ## Changing a field -/

section

variable {tree : Tree} {f : Field → Field} {part : Field → α}

theorem read_updateField_of_keeps (hf : ∀ field, part (f field) = part field) (i : FieldId)
    (default : α) : (tree.updateField i f).read part default = tree.read part default := by
  funext j
  unfold read
  rw [field?_updateField]
  split
  · cases tree.field? j <;> simp [hf]
  · rfl

theorem read_updateField_of_ne {i j : FieldId} (h : i ≠ j) (default : α) :
    (tree.updateField i f).read part default j = tree.read part default j := by
  simp [read, field?_updateField, h]

theorem read_updateFields_of_keeps (hf : ∀ field, part (f field) = part field)
    (ids : List FieldId) (default : α) :
    (tree.updateFields ids f).read part default = tree.read part default := by
  induction ids generalizing tree with
  | nil => rfl
  | cons i ids ih => rw [updateFields_cons, ih, read_updateField_of_keeps hf]

theorem link?_updateField (hf : ∀ field, (f field).link = field.link) (i : FieldId) :
    (tree.updateField i f).link? = tree.link? :=
  read_updateField_of_keeps hf i none

theorem parts_updateField (hf : ∀ field, (f field).value.parts = field.value.parts)
    (i : FieldId) : (tree.updateField i f).parts = tree.parts :=
  read_updateField_of_keeps hf i []

theorem owner?_updateField (hf : ∀ field, (f field).owner = field.owner) (i : FieldId) :
    (tree.updateField i f).owner? = tree.owner? :=
  read_updateField_of_keeps (fun field ↦ by rw [hf field]) i none

theorem listeners_updateField (hf : ∀ field, (f field).listeners = field.listeners)
    (i : FieldId) : (tree.updateField i f).listeners = tree.listeners := by
  rw [listeners_eq_read, listeners_eq_read, read_updateField_of_keeps hf]

theorem container?_updateField (hf : ∀ field, (f field).container = field.container)
    (i : FieldId) : (tree.updateField i f).container? = tree.container? := by
  rw [container?_eq_read, container?_eq_read, read_updateField_of_keeps hf]

theorem inner?_updateField (hf : ∀ field, (f field).value.inner? = field.value.inner?)
    (i : FieldId) : (tree.updateField i f).inner? = tree.inner? := by
  rw [inner?_eq_read, inner?_eq_read, read_updateField_of_keeps hf]

@[simp] theorem live_updateField (tree : Tree) (i : FieldId) (f : Field → Field) (j : FieldId) :
    (tree.updateField i f).Live j ↔ tree.Live j := by
  unfold Live
  rw [field?_updateField]
  split <;> simp

@[simp] theorem live_updateFields (tree : Tree) (ids : List FieldId) (f : Field → Field)
    (j : FieldId) : (tree.updateFields ids f).Live j ↔ tree.Live j := by
  induction ids generalizing tree with
  | nil => rfl
  | cons i ids ih => rw [updateFields_cons, ih, live_updateField]

theorem field?_updateFields {ids : List FieldId} (hn : ids.Nodup) (j : FieldId) :
    (tree.updateFields ids f).field? j =
      if j ∈ ids then (tree.field? j).map f else tree.field? j := by
  induction ids generalizing tree with
  | nil => simp
  | cons i ids ih =>
      obtain ⟨hi, hn⟩ := List.nodup_cons.1 hn
      rw [updateFields_cons, ih hn, field?_updateField]
      by_cases hij : i = j
      · subst hij
        simp [hi]
      · simp [hij, Ne.symm hij]

@[simp] theorem size_updateField (tree : Tree) (i : FieldId) (f : Field → Field) :
    (tree.updateField i f).fields.size = tree.fields.size := by
  simp [updateField]

@[simp] theorem size_updateFields (tree : Tree) (ids : List FieldId) (f : Field → Field) :
    (tree.updateFields ids f).fields.size = tree.fields.size := by
  induction ids generalizing tree with
  | nil => rfl
  | cons i ids ih => rw [updateFields_cons, ih, size_updateField]

@[simp] theorem nodes_updateField (tree : Tree) (i : FieldId) (f : Field → Field) :
    (tree.updateField i f).nodes = tree.nodes := rfl

@[simp] theorem nodes_updateFields (tree : Tree) (ids : List FieldId) (f : Field → Field) :
    (tree.updateFields ids f).nodes = tree.nodes := by
  induction ids generalizing tree with
  | nil => rfl
  | cons i ids ih => rw [updateFields_cons, ih, nodes_updateField]

end

/-- Only what a change does to the field itself matters. -/
theorem updateField_congr {tree : Tree} {id : FieldId} {f g : Field → Field}
    (h : ∀ field, tree.field? id = some field → f field = g field) :
    tree.updateField id f = tree.updateField id g := by
  unfold updateField
  rw [Store.update_congr h]

/-! ## Adding and removing a field -/

theorem read_insertField (tree : Tree) (field : Field) (part : Field → α) (default : α)
    (j : FieldId) : (tree.insertField field).read part default j =
      if j = tree.nextField then part field else tree.read part default j := by
  by_cases h : j = tree.nextField
  · subst h
    simp [read]
  · simp [read, h, tree.field?_insertField_of_ne field h]

theorem live_insertField (tree : Tree) (field : Field) (j : FieldId) :
    (tree.insertField field).Live j ↔ j = tree.nextField ∨ tree.Live j := by
  unfold Live
  by_cases h : j = tree.nextField
  · subst h
    simp
  · simp [h, tree.field?_insertField_of_ne field h]

@[simp] theorem size_insertField (tree : Tree) (field : Field) :
    (tree.insertField field).fields.size = tree.fields.size + 1 := by
  simp [insertField]

theorem ne_nextField_of_lt_size {tree : Tree} {id : FieldId}
    (h : id.index < tree.fields.size) : id ≠ tree.nextField := by
  rintro rfl
  exact Nat.lt_irrefl _ h

theorem Live.ne_nextField {tree : Tree} {id : FieldId} (h : tree.Live id) : id ≠ tree.nextField :=
  ne_nextField_of_lt_size h.lt_size

theorem not_live_nextField (tree : Tree) : ¬tree.Live tree.nextField :=
  fun h ↦ h.ne_nextField rfl

theorem read_removeField (tree : Tree) (i : FieldId) (part : Field → α) (default : α)
    (j : FieldId) : (tree.removeField i).read part default j =
      if j = i then default else tree.read part default j := by
  by_cases h : j = i
  · subst h
    simp [read]
  · simp [read, h, tree.field?_removeField_of_ne (Ne.symm h)]

theorem live_removeField (tree : Tree) (i j : FieldId) :
    (tree.removeField i).Live j ↔ j ≠ i ∧ tree.Live j := by
  unfold Live
  by_cases h : j = i
  · subst h
    simp
  · simp [h, tree.field?_removeField_of_ne (Ne.symm h)]

@[simp] theorem size_removeField (tree : Tree) (i : FieldId) :
    (tree.removeField i).fields.size = tree.fields.size := by
  simp [removeField]

/-! ## Changing, adding and removing a node -/

theorem readNode_updateNode_of_keeps {tree : Tree} {f : Node → Node} {part : Node → α}
    (hf : ∀ node, part (f node) = part node) (i : NodeId) (default : α) :
    (tree.updateNode i f).readNode part default = tree.readNode part default := by
  funext j
  unfold readNode
  rw [node?_updateNode]
  split
  · cases tree.node? j <;> simp [hf]
  · rfl

theorem readNode_updateNode_of_ne {tree : Tree} {f : Node → Node} {part : Node → α}
    {i j : NodeId} (h : i ≠ j) (default : α) :
    (tree.updateNode i f).readNode part default j = tree.readNode part default j := by
  simp [readNode, node?_updateNode, h]

@[simp] theorem liveNode_updateNode (tree : Tree) (i : NodeId) (f : Node → Node) (j : NodeId) :
    (tree.updateNode i f).LiveNode j ↔ tree.LiveNode j := by
  unfold LiveNode
  rw [node?_updateNode]
  split <;> simp

theorem readNode_insertNode (tree : Tree) (node : Node) (part : Node → α) (default : α)
    (j : NodeId) : (tree.insertNode node).readNode part default j =
      if j = tree.nextNode then part node else tree.readNode part default j := by
  by_cases h : j = tree.nextNode
  · subst h
    simp [readNode]
  · simp [readNode, h, tree.node?_insertNode_of_ne node h]

theorem liveNode_insertNode (tree : Tree) (node : Node) (j : NodeId) :
    (tree.insertNode node).LiveNode j ↔ j = tree.nextNode ∨ tree.LiveNode j := by
  unfold LiveNode
  by_cases h : j = tree.nextNode
  · subst h
    simp
  · simp [h, tree.node?_insertNode_of_ne node h]

theorem not_liveNode_nextNode (tree : Tree) : ¬tree.LiveNode tree.nextNode :=
  fun h ↦ Nat.lt_irrefl _ h.lt_size

theorem readNode_removeNode (tree : Tree) (i : NodeId) (part : Node → α) (default : α)
    (j : NodeId) : (tree.removeNode i).readNode part default j =
      if j = i then default else tree.readNode part default j := by
  by_cases h : j = i
  · subst h
    simp [readNode]
  · simp [readNode, h, tree.node?_removeNode_of_ne (Ne.symm h)]

theorem liveNode_removeNode (tree : Tree) (i j : NodeId) :
    (tree.removeNode i).LiveNode j ↔ j ≠ i ∧ tree.LiveNode j := by
  unfold LiveNode
  by_cases h : j = i
  · subst h
    simp
  · simp [h, tree.node?_removeNode_of_ne (Ne.symm h)]

@[simp] theorem size_updateNode (tree : Tree) (i : NodeId) (f : Node → Node) :
    (tree.updateNode i f).nodes.size = tree.nodes.size := by
  simp [updateNode]

@[simp] theorem size_insertNode (tree : Tree) (node : Node) :
    (tree.insertNode node).nodes.size = tree.nodes.size + 1 := by
  simp [insertNode]

@[simp] theorem size_removeNode (tree : Tree) (i : NodeId) :
    (tree.removeNode i).nodes.size = tree.nodes.size := by
  simp [removeNode]

end Tree

end LightTree
