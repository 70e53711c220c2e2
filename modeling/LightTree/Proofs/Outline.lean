import LightTree.Proofs.Lasting
import LightTree.Proofs.Release

/-!
# Outlines of nodes

The outline of a node is what places it in the tree: its kind, its parent and its children. Only the
changes that move nodes touch outlines, each those of the nodes it names. Releasing a node removes
exactly the nodes at or below it.
-/

namespace LightTree

open Relation

def Node.outline (node : Node) : Node := { node with fields := [], listeners := [] }

namespace Tree

def kind? (tree : Tree) : NodeId → Option NodeKind :=
  tree.readNode (fun node ↦ some node.kind) none

/-- An identity of a node that has been handed out, alive or not. -/
def Known (tree : Tree) (id : NodeId) : Prop :=
  id.index < tree.nodes.size

/-- The second tree has the outlines of the first one on a set of nodes. -/
structure Retains (set : NodeId → Prop) (tree after : Tree) : Prop where
  nodes_size : tree.nodes.size ≤ after.nodes.size
  root : after.root = tree.root
  outline : ∀ id, set id → (after.node? id).map Node.outline = (tree.node? id).map Node.outline

variable {α : Type} {set set' : NodeId → Prop} {tree after last : Tree}

theorem liveNode_of_kind?_eq_some {id : NodeId} {kind : NodeKind}
    (h : tree.kind? id = some kind) : tree.LiveNode id :=
  liveNode_of_readNode_ne (ne_of_eq_of_ne h (Option.some_ne_none kind))

theorem LiveNode.known {id : NodeId} (h : tree.LiveNode id) : tree.Known id :=
  h.lt_size

theorem not_known_nextNode (tree : Tree) : ¬tree.Known tree.nextNode :=
  Nat.lt_irrefl _

namespace Retains

theorem refl (set : NodeId → Prop) (tree : Tree) : tree.Retains set tree :=
  ⟨Nat.le_refl _, rfl, fun _ _ ↦ rfl⟩

theorem trans (h : tree.Retains set after) (h' : after.Retains set last) :
    tree.Retains set last where
  nodes_size := h.nodes_size.trans h'.nodes_size
  root := h'.root.trans h.root
  outline id hid := (h'.outline id hid).trans (h.outline id hid)

theorem mono (h : tree.Retains set after) (hset : ∀ id, set' id → set id) :
    tree.Retains set' after :=
  ⟨h.nodes_size, h.root, fun id hid ↦ h.outline id (hset id hid)⟩

theorem readNode (h : tree.Retains set after) {id : NodeId} (hid : set id) {part : Node → α}
    (hpart : ∀ node, part node.outline = part node) (default : α) :
    after.readNode part default id = tree.readNode part default id :=
  readNode_congr hpart (h.outline id hid) default

theorem liveNode (h : tree.Retains set after) {id : NodeId} (hid : set id) :
    after.LiveNode id ↔ tree.LiveNode id := by
  unfold LiveNode
  rw [← Option.isSome_map (f := Node.outline), h.outline id hid, Option.isSome_map]

theorem children (h : tree.Retains set after) {id : NodeId} (hid : set id) :
    after.children id = tree.children id := by
  rw [children_eq_readNode, children_eq_readNode, h.readNode hid fun _ ↦ rfl]

theorem parent? (h : tree.Retains set after) {id : NodeId} (hid : set id) :
    after.parent? id = tree.parent? id := by
  rw [parent?_eq_readNode, parent?_eq_readNode, h.readNode hid fun _ ↦ rfl]

theorem kind? (h : tree.Retains set after) {id : NodeId} (hid : set id) :
    after.kind? id = tree.kind? id :=
  h.readNode hid (fun _ ↦ rfl) none

theorem known (h : tree.Retains set after) {id : NodeId} (hid : tree.Known id) : after.Known id :=
  Nat.lt_of_lt_of_le hid h.nodes_size

theorem of_sameNodes (h : tree.SameNodes after) (set : NodeId → Prop) :
    tree.Retains set after where
  nodes_size := h.nodes_size.ge
  root := h.root
  outline id _ := by
    have hbare := congrArg (Option.map Node.outline) (h.bare id)
    rwa [Option.map_map, Option.map_map] at hbare

theorem updateNode {id : NodeId} {f : Node → Node}
    (hf : set id → ∀ node, (f node).outline = node.outline) :
    tree.Retains set (tree.updateNode id f) where
  nodes_size := (size_updateNode tree id f).ge
  root := rfl
  outline i hi := by
    rw [node?_updateNode]
    split
    · next he =>
        subst he
        cases tree.node? id with
        | none => rfl
        | some node => exact congrArg some (hf hi node)
    · rfl

theorem insertNode (tree : Tree) (node : Node) :
    tree.Retains tree.Known (tree.insertNode node) where
  nodes_size := (Nat.le_succ _).trans_eq (size_insertNode tree node).symm
  root := rfl
  outline id hid := by
    have hne : id ≠ tree.nextNode := by
      rintro rfl
      exact Nat.lt_irrefl _ hid
    rw [tree.node?_insertNode_of_ne node hne]

theorem adopt {parent child : NodeId} (hparent : ¬set parent) (hchild : ¬set child) :
    tree.Retains set (tree.adopt parent child) :=
  (updateNode fun h ↦ absurd h hparent).trans (updateNode fun h ↦ absurd h hchild)

end Retains

/-- The changes of fields keep all outlines. -/
theorem steady_retains (set : NodeId → Prop) : Steady (Retains set) where
  refl := .refl set
  trans := .trans
  insertField tree field h := .of_sameNodes (harmless_sameNodes.insertField tree field h) set
  relink tree dependent s := .of_sameNodes (harmless_sameNodes.relink tree dependent s) set
  setActive tree id active h := .of_sameNodes (harmless_sameNodes.setActive tree id active h) set
  push tree id group := .of_sameNodes (harmless_sameNodes.push tree id group) set
  drop tree id f group := .of_sameNodes (harmless_sameNodes.drop tree id f group) set
  refresh tree := .of_sameNodes (harmless_sameNodes.refresh tree) set
  addTop _ _ _ := .updateNode fun _ _ ↦ rfl
  setValue tree id _ _ _ _ _ := .of_sameNodes (.updateField tree id _) set

/-! ## Releasing a node -/

def Heads (tree : Tree) : NodeId → NodeId → Prop :=
  ReflTransGen fun parent child ↦ child ∈ tree.children parent

/-- Nodes are below the node that lists them. -/
noncomputable def nodePurge : Purge Tree NodeId :=
  .ofNumbers LiveNode children (fun _ _ _ ↦ liveNode_of_mem_children) NodeId.index
    (fun _ _ h ↦ congrArg NodeId.mk h) (·.nodes.size) fun _ _ ↦ LiveNode.lt_size

theorem Shrinks.loses_nodes (h : tree.Shrinks after) : nodePurge.Loses tree after := by
  refine fun id hl ↦ ⟨h.liveNode hl, ?_⟩
  show after.children id = tree.children id
  rw [children_eq_readNode, children_eq_readNode]
  exact h.readNode_eq (fun _ _ ↦ rfl) hl []

theorem carried_releaseNodeWithin : nodePurge.Carried releaseNodeWithin where
  zero _ _ := rfl
  dead fuel _ _ h := releaseNodeWithin_of_not_live h fuel
  succ fuel tree id h := by
    obtain ⟨node, hn⟩ := liveNode_iff.1 h
    have hbelow : nodePurge.below tree id = node.children := by
      show tree.children id = node.children
      rw [children_eq_readNode, readNode_of_some hn]
    refine ⟨tree.removeNode id, liveNode_removeNode tree id,
      (Shrinks.removeNode tree id).loses_nodes, ?_, ?_⟩
    · rw [releaseNodeWithin_of_live hn, hbelow]
      exact (releaseFields_shrinks _ _).loses_nodes
    · rw [releaseNodeWithin_of_live hn, hbelow]
      exact fun x hx ↦ ((SameNodes.releaseFields _ _).liveNode x).2 hx

/-- Exactly the nodes at or below a node go with it. -/
theorem liveNode_releaseNode_iff {id x : NodeId} :
    (tree.releaseNode id).LiveNode x ↔ tree.LiveNode x ∧ ¬tree.Heads id x :=
  carried_releaseNodeWithin.live_iff (Purge.count_ofNumbers_lt ..)

theorem Retains.releaseNode (tree : Tree) (id : NodeId) :
    tree.Retains (fun x ↦ tree.LiveNode x → ¬tree.Heads id x) (tree.releaseNode id) where
  nodes_size := (releaseNode_shrinks tree id).nodes_size.ge
  root := (releaseNode_shrinks tree id).root
  outline x hx := by
    by_cases hl : tree.LiveNode x
    · obtain ⟨new, hn⟩ := liveNode_iff.1 (liveNode_releaseNode_iff.2 ⟨hl, hx hl⟩)
      obtain ⟨old, ho, hnew, _⟩ := (releaseNode_shrinks tree id).node x new hn
      rw [hn, ho, hnew]
      rfl
    · have hdead : ¬(tree.releaseNode id).LiveNode x := fun h ↦ hl (liveNode_releaseNode_iff.1 h).1
      rw [not_liveNode_iff.1 hl, not_liveNode_iff.1 hdead]

theorem retains_releaseNode (tree : Tree) (id : NodeId) :
    tree.Retains (fun x ↦ ¬tree.Heads id x) (tree.releaseNode id) :=
  (Retains.releaseNode tree id).mono fun _ hx _ ↦ hx

theorem not_heads_of_liveNode_releaseNode {id x : NodeId} (hx : (tree.releaseNode id).LiveNode x) :
    ¬tree.Heads id x :=
  (liveNode_releaseNode_iff.1 hx).2

theorem parent?_of_releaseNode {id c p : NodeId} (hp : (tree.releaseNode id).parent? c = some p) :
    ¬tree.Heads id c ∧ tree.parent? c = some p := by
  have hc := not_heads_of_liveNode_releaseNode (liveNode_of_parent?_eq_some hp)
  exact ⟨hc, ((tree.retains_releaseNode id).parent? hc).symm.trans hp⟩

theorem mem_children_of_releaseNode {id p c : NodeId} (hc : c ∈ (tree.releaseNode id).children p) :
    ¬tree.Heads id p ∧ c ∈ tree.children p := by
  have hp := not_heads_of_liveNode_releaseNode (liveNode_of_mem_children hc)
  exact ⟨hp, (tree.retains_releaseNode id).children hp ▸ hc⟩

theorem kind?_of_releaseNode {id x : NodeId} {kind : NodeKind}
    (hx : (tree.releaseNode id).kind? x = some kind) :
    ¬tree.Heads id x ∧ tree.kind? x = some kind := by
  have hn := not_heads_of_liveNode_releaseNode (liveNode_of_kind?_eq_some hx)
  exact ⟨hn, ((tree.retains_releaseNode id).kind? hn).symm.trans hx⟩

end Tree

end LightTree
