import LightTree.Proofs.Fencing
import LightTree.Proofs.Placement

/-!
# Nodes as their kinds describe them

A field is fresh if it is as its declaration makes it. A node is built if it has the fields that its
kind declares, in order, and as many children as its kind requires, which are built in the same way
from the first kind of the category that they are to have. Neither looks at what cascades change, so
a node stays built in whatever outlasts it.
-/

namespace LightTree

open Relation

namespace Value

theorem eq_of_settled {old new : Value} (h : new.settled = old.settled)
    (hold : ∀ template elements, old ≠ .list true template elements) : new = old := by
  have hfix : old.settled = old := by
    unfold settled
    split
    · next template elements => exact absurd rfl (hold template elements)
    · rfl
  rw [hfix] at h
  subst h
  unfold settled
  split
  · next template elements =>
      exact absurd rfl (hold template [])
  · rfl

theorem exists_of_settled {new : Value} {template : List FieldDecl}
    (h : new.settled = .list true template []) :
    ∃ elements, new = .list true template elements := by
  unfold settled at h
  split at h
  · next elements =>
      cases h
      exact ⟨elements, rfl⟩
  · exact ⟨[], h⟩

end Value

namespace Tree

variable {tree after : Tree} {id child : NodeId} {kind childKind : NodeKind}

/-! ## Fields as they are declared -/

/-- A field of a node outside lists, with a name and a value of some form. -/
def Shows (tree : Tree) (node : NodeId) (name : String) (form : Value → Prop) (x : FieldId) :
    Prop :=
  ∃ field, tree.field? x = some field ∧ field.name = name ∧ field.owner = node ∧
    field.container = none ∧ form field.value

/-- A field as its declaration makes it, and so is the field inside a gate. A scalar has the initial
value, a choice the first of its options and a list that its user sets no element. -/
def Fresh (tree : Tree) (node : NodeId) : FieldDecl → FieldId → Prop
  | .scalar name initial => tree.Shows node name (· = .scalar initial)
  | .choice name options => tree.Shows node name fun value ↦ options ≠ [] ∧ value = .choice options 0
  | .list name rule element => tree.Shows node name fun value ↦
    ∃ elements, value = .list (rule != .free) element elements ∧ (rule = .free → elements = [])
  | .gated name _ condition inner => tree.Shows node name fun value ↦
    ∃ part, value = .gated condition part ∧ tree.Fresh node inner part

theorem Shows.outlast (h : tree.FieldsOutlast after) {name : String} {form form' : Value → Prop}
    {x : FieldId} (hx : tree.Shows node name form x)
    (hform : ∀ old new : Value, new.settled = old.settled → form old → form' new) :
    after.Shows node name form' x := by
  obtain ⟨old, ho, hname, howner, hcontainer, hvalue⟩ := hx
  obtain ⟨new, hn, hcore⟩ := h x old ho hcontainer
  exact ⟨new, hn, (congrArg Field.name hcore).trans hname,
    (congrArg Field.owner hcore).trans howner, (congrArg Field.container hcore).trans hcontainer,
    hform old.value new.value (congrArg Field.value hcore) hvalue⟩

theorem Shows.imp {name : String} {form form' : Value → Prop} {x : FieldId}
    (h : tree.Shows node name form x) (himp : ∀ value, form value → form' value) :
    tree.Shows node name form' x := by
  obtain ⟨field, hf, hname, howner, hcontainer, hvalue⟩ := h
  exact ⟨field, hf, hname, howner, hcontainer, himp field.value hvalue⟩

theorem Fresh.outlast (h : tree.FieldsOutlast after) :
    ∀ {decl : FieldDecl} {x : FieldId}, tree.Fresh node decl x → after.Fresh node decl x
  | .scalar _ _, _, hx => Shows.outlast h hx fun old new hs hold ↦ by
    subst hold
    exact Value.eq_of_settled hs nofun
  | .choice _ _, _, hx => Shows.outlast h hx fun old new hs hold ↦ by
    obtain ⟨hoptions, rfl⟩ := hold
    exact ⟨hoptions, Value.eq_of_settled hs nofun⟩
  | .list _ rule _, _, hx => Shows.outlast h hx fun old new hs hold ↦ by
    obtain ⟨elements, rfl, hfree⟩ := hold
    by_cases hrule : rule = .free
    · subst hrule
      exact ⟨elements, Value.eq_of_settled hs nofun, hfree⟩
    · have hlinked : (rule != .free) = true := bne_iff_ne.2 hrule
      rw [hlinked] at hs ⊢
      obtain ⟨elements', helements⟩ := Value.exists_of_settled hs
      exact ⟨elements', helements, fun hf ↦ absurd hf hrule⟩
  | .gated _ _ _ _, _, hx => Shows.outlast h hx fun old new hs hold ↦ by
    obtain ⟨part, rfl, hpart⟩ := hold
    exact ⟨part, Value.eq_of_settled hs nofun, hpart.outlast h⟩

/-! ## Nodes as their kinds describe them -/

/-- A node of a kind below a parent, with the fields that the kind declares, in order, and with the
children that it requires. They are of the first kind of their category and like that themselves. -/
inductive Built (tree : Tree) : NodeKind → Option NodeId → NodeId → Prop
  | intro {kind : NodeKind} {parent : Option NodeId} {id : NodeId} (node : Node)
      (childKind : NodeKind) (found : tree.node? id = some node) (kind_eq : node.kind = kind)
      (parent_eq : node.parent = parent)
      (fields : List.Forall₂ (tree.Fresh id) kind.fields node.fields)
      (count : node.children.length = kind.minChildren)
      (required : 0 < kind.minChildren → tree.catalog.first? kind.childCategory = some childKind)
      (children : ∀ child ∈ node.children, tree.Built childKind (some id) child) :
      tree.Built kind parent id

/-- What has been built below a parent stays so if nodes with parents last. -/
theorem Built.of_below (hcatalog : after.catalog = tree.catalog)
    (hfields : tree.FieldsOutlast after)
    (hnodes : ∀ n old, tree.node? n = some old → old.parent ≠ none →
      ∃ new, after.node? n = some new ∧ new.bare = old.bare) {parent : Option NodeId}
    (hparent : parent ≠ none) (h : tree.Built kind parent id) : after.Built kind parent id := by
  induction h with
  | intro node childKind found kind_eq parent_eq fields count required _ ih =>
      obtain ⟨new, hn, hbare⟩ := hnodes _ node found (parent_eq ▸ hparent)
      have hchildren : new.children = node.children := congrArg (·.children) hbare
      refine .intro new childKind hn ((congrArg (·.kind) hbare).trans kind_eq)
        ((congrArg (·.parent) hbare).trans parent_eq) ?_ (hchildren ▸ count) (hcatalog ▸ required)
        fun child hc ↦ ih child (hchildren ▸ hc) (Option.some_ne_none _)
      rw [show new.fields = node.fields from congrArg (·.fields) hbare]
      exact fields.imp fun _ _ hx ↦ hx.outlast hfields

/-- A node that lasts is still built as it was. -/
theorem Built.outlast (hcatalog : after.catalog = tree.catalog) (ho : tree.Outlasts after)
    {parent : Option NodeId} (h : tree.Built kind parent id) : after.Built kind parent id := by
  cases h with
  | intro node childKind found kind_eq parent_eq fields count required children =>
      obtain ⟨new, hn, hbare⟩ := ho.node id node found
      have hchildren : new.children = node.children := congrArg (·.children) hbare
      refine .intro new childKind hn ((congrArg (·.kind) hbare).trans kind_eq)
        ((congrArg (·.parent) hbare).trans parent_eq) ?_ (hchildren ▸ count) (hcatalog ▸ required)
        fun child hc ↦ .of_below hcatalog ho.field (fun n old ho' _ ↦ ho.node n old ho')
          (Option.some_ne_none _) (children child (hchildren ▸ hc))
      rw [show new.fields = node.fields from congrArg (·.fields) hbare]
      exact fields.imp fun _ _ hx ↦ hx.outlast ho.field

/-! ## Nodes that get a parent -/

/-- Whatever happens to a node without a parent, what has been built below others stays so. -/
theorem Built.updateNode {n p : NodeId} {f : Node → Node} (hn : tree.parent? n = none)
    (h : tree.Built kind (some p) id) : (tree.updateNode n f).Built kind (some p) id := by
  have hcatalog : (tree.updateNode n f).catalog = tree.catalog := rfl
  have hfields : tree.FieldsOutlast (tree.updateNode n f) := .of_field? rfl
  refine .of_below hcatalog hfields (fun m old ho hparent ↦ ⟨old, ?_, rfl⟩)
    (Option.some_ne_none p) h
  have hne : n ≠ m := by
    rintro rfl
    rw [parent?, ho] at hn
    exact hparent hn
  rwa [node?_updateNode, if_neg hne]

theorem Built.parent?_eq {parent : Option NodeId} (h : tree.Built kind parent id) :
    tree.parent? id = parent := by
  cases h with
  | intro node childKind found kind_eq parent_eq =>
      rw [parent?, found, Option.bind_some, parent_eq]

section

variable (hid : tree.parent? id = none) (hchild : tree.parent? child = none)

include hid hchild

theorem Built.adopt {x p : NodeId} (h : tree.Built kind (some p) x) :
    (tree.adopt id child).Built kind (some p) x := by
  have hmid := h.updateNode hid (f := fun n ↦ { n with children := n.children ++ [child] })
  refine hmid.updateNode ?_
  exact (congrFun (parent?_mapChildren tree id (· ++ [child])) child).trans hchild

theorem Built.adopted (hne : child ≠ id) (h : tree.Built childKind none child) :
    (tree.adopt id child).Built childKind (some id) child := by
  cases h with
  | intro node grandKind found kind_eq parent_eq fields count required children =>
      refine .intro { node with parent := some id } grandKind ?_ kind_eq rfl ?_ count required
        fun c hc ↦ (children c hc).adopt hid hchild
      · rw [Tree.adopt, node?_updateNode, if_pos rfl, node?_updateNode, if_neg hne.symm, found]
        rfl
      · have hkept : tree.FieldsOutlast (tree.adopt id child) := .of_field? rfl
        exact fields.imp fun _ _ hx ↦ hx.outlast hkept

end

end Tree

end LightTree
