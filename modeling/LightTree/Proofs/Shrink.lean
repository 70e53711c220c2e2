import LightTree.Proofs.Dependency
import LightTree.Proofs.Mirror

/-!
# Trees that shrink

A tree shrinks when fields and nodes are taken away and the listeners of the others thinned out.
What is left is as it was before in every other respect, so the order of fields and the absence of
cycles survive.
-/

namespace LightTree

open Relation

namespace Tree

/-- The second tree is the first one without some fields, nodes and listeners. -/
structure Shrinks (tree after : Tree) : Prop where
  fields_size : after.fields.size = tree.fields.size
  nodes_size : after.nodes.size = tree.nodes.size
  root : after.root = tree.root
  catalog : after.catalog = tree.catalog
  settings : after.settings = tree.settings
  refreshes : after.refreshes = tree.refreshes
  field : ∀ id new, after.field? id = some new → ∃ old, tree.field? id = some old ∧
    new = { old with listeners := new.listeners } ∧ new.listeners.Sublist old.listeners
  node : ∀ id new, after.node? id = some new → ∃ old, tree.node? id = some old ∧
    new = { old with listeners := new.listeners } ∧ new.listeners.Sublist old.listeners

variable {α : Type} {tree after last : Tree}

namespace Shrinks

theorem refl (tree : Tree) : tree.Shrinks tree where
  fields_size := rfl
  nodes_size := rfl
  root := rfl
  catalog := rfl
  settings := rfl
  refreshes := rfl
  field _ new h := ⟨new, h, rfl, .refl _⟩
  node _ new h := ⟨new, h, rfl, .refl _⟩

theorem trans (h : tree.Shrinks after) (h' : after.Shrinks last) : tree.Shrinks last where
  fields_size := h'.fields_size.trans h.fields_size
  nodes_size := h'.nodes_size.trans h.nodes_size
  root := h'.root.trans h.root
  catalog := h'.catalog.trans h.catalog
  settings := h'.settings.trans h.settings
  refreshes := h'.refreshes.trans h.refreshes
  field id new hn := by
    obtain ⟨mid, hm, hnew, hsub⟩ := h'.field id new hn
    obtain ⟨old, ho, hmid, hsub'⟩ := h.field id mid hm
    refine ⟨old, ho, ?_, hsub.trans hsub'⟩
    rw [hnew, hmid]
  node id new hn := by
    obtain ⟨mid, hm, hnew, hsub⟩ := h'.node id new hn
    obtain ⟨old, ho, hmid, hsub'⟩ := h.node id mid hm
    refine ⟨old, ho, ?_, hsub.trans hsub'⟩
    rw [hnew, hmid]

theorem live (h : tree.Shrinks after) {id : FieldId} (hl : after.Live id) : tree.Live id := by
  obtain ⟨new, hn⟩ := live_iff.1 hl
  obtain ⟨old, ho, _⟩ := h.field id new hn
  exact live_of_some ho

theorem liveNode (h : tree.Shrinks after) {id : NodeId} (hl : after.LiveNode id) :
    tree.LiveNode id := by
  obtain ⟨new, hn⟩ := liveNode_iff.1 hl
  obtain ⟨old, ho, _⟩ := h.node id new hn
  exact liveNode_iff.2 ⟨old, ho⟩

theorem read_eq (h : tree.Shrinks after) {part : Field → α}
    (hpart : ∀ field list, part { field with listeners := list } = part field) {id : FieldId}
    (hl : after.Live id) (default : α) :
    after.read part default id = tree.read part default id := by
  obtain ⟨new, hn⟩ := live_iff.1 hl
  obtain ⟨old, ho, hnew, _⟩ := h.field id new hn
  rw [read_of_some hn, read_of_some ho, hnew, hpart]

theorem readNode_eq (h : tree.Shrinks after) {part : Node → α}
    (hpart : ∀ node list, part { node with listeners := list } = part node) {id : NodeId}
    (hl : after.LiveNode id) (default : α) :
    after.readNode part default id = tree.readNode part default id := by
  obtain ⟨new, hn⟩ := liveNode_iff.1 hl
  obtain ⟨old, ho, hnew, _⟩ := h.node id new hn
  rw [readNode_of_some hn, readNode_of_some ho, hnew, hpart]

theorem link? (h : tree.Shrinks after) {id : FieldId} (hl : after.Live id) :
    after.link? id = tree.link? id :=
  h.read_eq (fun _ _ ↦ rfl) hl none

theorem parts (h : tree.Shrinks after) {id : FieldId} (hl : after.Live id) :
    after.parts id = tree.parts id :=
  h.read_eq (fun _ _ ↦ rfl) hl []

theorem inner? (h : tree.Shrinks after) {id : FieldId} (hl : after.Live id) :
    after.inner? id = tree.inner? id := by
  rw [inner?_eq_read, inner?_eq_read]
  exact h.read_eq (fun _ _ ↦ rfl) hl none

theorem container? (h : tree.Shrinks after) {id : FieldId} (hl : after.Live id) :
    after.container? id = tree.container? id := by
  rw [container?_eq_read, container?_eq_read]
  exact h.read_eq (fun _ _ ↦ rfl) hl none

theorem mem_parts (h : tree.Shrinks after) {id part : FieldId} (hp : part ∈ after.parts id) :
    part ∈ tree.parts id := by
  rwa [h.parts (live_of_mem_parts hp)] at hp

theorem mem_topFields (h : tree.Shrinks after) {id : NodeId} {field : FieldId}
    (hf : field ∈ after.topFields id) : field ∈ tree.topFields id := by
  by_cases hl : after.LiveNode id
  · rwa [topFields_eq_readNode, h.readNode_eq (fun _ _ ↦ rfl) hl, ← topFields_eq_readNode] at hf
  · rw [topFields_eq_readNode, readNode_of_none (not_liveNode_iff.1 hl)] at hf
    exact absurd hf List.not_mem_nil

theorem listeners (h : tree.Shrinks after) (id : FieldId) :
    (after.listeners id).Sublist (tree.listeners id) := by
  rw [listeners_eq_read, listeners_eq_read]
  by_cases hl : after.Live id
  · obtain ⟨new, hn⟩ := live_iff.1 hl
    obtain ⟨old, ho, _, hsub⟩ := h.field id new hn
    rwa [read_of_some hn, read_of_some ho]
  · rw [read_of_none (not_live_iff.1 hl)]
    exact List.nil_sublist _

theorem nodeListeners (h : tree.Shrinks after) (id : NodeId) :
    (after.nodeListeners id).Sublist (tree.nodeListeners id) := by
  by_cases hl : after.LiveNode id
  · obtain ⟨new, hn⟩ := liveNode_iff.1 hl
    obtain ⟨old, ho, _, hsub⟩ := h.node id new hn
    rwa [Tree.nodeListeners, Tree.nodeListeners, readNode_of_some hn, readNode_of_some ho]
  · rw [Tree.nodeListeners, readNode_of_none (not_liveNode_iff.1 hl)]
    exact List.nil_sublist _

theorem innerOlder (h : tree.Shrinks after) (ho : tree.InnerOlder) : after.InnerOlder := by
  intro a b hab
  refine ho a b ?_
  rwa [← h.inner? (live_of_inner?_eq_some hab)]

theorem ordered (h : tree.Shrinks after) (ho : tree.Ordered) : after.Ordered := by
  refine ho.mono ?_ ?_ ?_ ?_ h.fields_size.ge h.nodes_size.ge
  · intro a b hab
    rwa [← h.inner? (live_of_inner?_eq_some hab)]
  · intro a b hab
    rwa [← h.container? (live_of_container?_eq_some hab)]
  · intro a s ha
    rwa [← h.link? (live_of_link?_eq_some ha)]
  · intro a node ha
    have hl : after.Live a := live_of_read_ne (ne_of_eq_of_ne ha (Option.some_ne_none node))
    rwa [owner?, h.read_eq (fun _ _ ↦ rfl) hl] at ha

theorem feeds (h : tree.Shrinks after) {a b : FieldId} (hab : after.Feeds a b) :
    tree.Feeds a b := by
  rcases feeds_iff.1 hab with hm | hc
  · exact feeds_iff.2 (.inl ((h.listeners a).subset hm))
  · rw [h.container? (live_of_container?_eq_some hc)] at hc
    exact feeds_iff.2 (.inr hc)

theorem acyclic (h : tree.Shrinks after) (ha : tree.Acyclic) : after.Acyclic :=
  ha.mono fun _ _ ↦ h.feeds

theorem wraps (h : tree.Shrinks after) {a b : FieldId} (hab : after.Wraps a b) :
    tree.Wraps a b := by
  unfold Wraps at hab ⊢
  rwa [← h.inner? (live_of_inner?_eq_some hab)]

/-! ### Steps -/

theorem updateField (tree : Tree) (id : FieldId) {p : FieldId → Bool} :
    tree.Shrinks (tree.updateField id fun field ↦
      { field with listeners := field.listeners.filter p }) where
  fields_size := by simp
  nodes_size := rfl
  root := rfl
  catalog := rfl
  settings := rfl
  refreshes := rfl
  field j new hn := by
    rw [field?_updateField] at hn
    split at hn
    · obtain ⟨old, ho, rfl⟩ := Option.map_eq_some_iff.1 hn
      exact ⟨old, ho, rfl, List.filter_sublist⟩
    · exact ⟨new, hn, rfl, .refl _⟩
  node _ new hn := ⟨new, hn, rfl, .refl _⟩

theorem updateNode (tree : Tree) (id : NodeId) {p : FieldId → Bool} :
    tree.Shrinks (tree.updateNode id fun node ↦
      { node with listeners := node.listeners.filter p }) where
  fields_size := rfl
  nodes_size := by simp
  root := rfl
  catalog := rfl
  settings := rfl
  refreshes := rfl
  field _ new hn := ⟨new, hn, rfl, .refl _⟩
  node j new hn := by
    rw [node?_updateNode] at hn
    split at hn
    · obtain ⟨old, ho, rfl⟩ := Option.map_eq_some_iff.1 hn
      exact ⟨old, ho, rfl, List.filter_sublist⟩
    · exact ⟨new, hn, rfl, .refl _⟩

theorem updateFields (tree : Tree) (ids : List FieldId) {p : FieldId → Bool} :
    tree.Shrinks (tree.updateFields ids fun field ↦
      { field with listeners := field.listeners.filter p }) := by
  induction ids generalizing tree with
  | nil => exact refl tree
  | cons id ids ih => exact (updateField tree id).trans (ih _)

theorem quit (tree : Tree) (dependent : FieldId) : tree.Shrinks (tree.quit dependent) := by
  unfold Tree.quit
  rcases tree.link? dependent with _ | s | s
  · exact refl tree
  · exact updateFields tree _
  · exact updateNode tree s

theorem removeField (tree : Tree) (id : FieldId) : tree.Shrinks (tree.removeField id) where
  fields_size := by simp
  nodes_size := rfl
  root := rfl
  catalog := rfl
  settings := rfl
  refreshes := rfl
  field j new hn := by
    have hj : j ≠ id := by
      rintro rfl
      simp at hn
    exact ⟨new, by rwa [tree.field?_removeField_of_ne (Ne.symm hj)] at hn, rfl, .refl _⟩
  node _ new hn := ⟨new, hn, rfl, .refl _⟩

theorem removeNode (tree : Tree) (id : NodeId) : tree.Shrinks (tree.removeNode id) where
  fields_size := rfl
  nodes_size := by simp
  root := rfl
  catalog := rfl
  settings := rfl
  refreshes := rfl
  field _ new hn := ⟨new, hn, rfl, .refl _⟩
  node j new hn := by
    have hj : j ≠ id := by
      rintro rfl
      simp at hn
    exact ⟨new, by rwa [tree.node?_removeNode_of_ne (Ne.symm hj)] at hn, rfl, .refl _⟩

theorem foldl {β : Type} {f : Tree → β → Tree} (hf : ∀ (tree : Tree) b, tree.Shrinks (f tree b))
    (list : List β) (tree : Tree) : tree.Shrinks (list.foldl f tree) := by
  induction list generalizing tree with
  | nil => exact refl tree
  | cons b list ih => exact (hf tree b).trans (ih (f tree b))

end Shrinks

end Tree

end LightTree
