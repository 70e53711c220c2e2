import LightTree.Proofs.Annex
import LightTree.Proofs.Hierarchy

/-!
# Nodes of a failed creation

Creation puts one new node at the top of what it makes: the others are attached below it or released
again. If it fails it releases the top as well, and then no new node is left. What was there before
has not been touched, so the live nodes are the same as before.
-/

namespace LightTree

open Relation Edit

namespace Tree

/-- A live node without a parent. -/
def Apex (tree : Tree) (id : NodeId) : Prop :=
  tree.LiveNode id ∧ tree.parent? id = none

variable {base tree mid after : Tree} {id parent child : NodeId}

/-! ## Steps -/

theorem Retains.apex (h : tree.Retains (fun _ ↦ True) after) (hid : after.Apex id) :
    tree.Apex id :=
  ⟨(h.liveNode trivial).1 hid.1, (h.parent? trivial).symm.trans hid.2⟩

theorem apex_insertNode {kind : NodeKind} (h : (tree.insertNode { kind }).Apex id) :
    id = tree.nextNode ∨ tree.Apex id := by
  obtain ⟨hlive, hparent⟩ := h
  rw [parent?_insertNode] at hparent
  exact ((liveNode_insertNode tree _ id).1 hlive).imp_right fun hl ↦ ⟨hl, hparent⟩

/-- The children of a released node go with it, so they do not come to the top. -/
theorem apex_releaseNode {x : NodeId} (h : (tree.releaseNode id).Apex x) :
    x ≠ id ∧ tree.Apex x := by
  obtain ⟨hlive, hparent⟩ := h
  obtain ⟨hold, hoff⟩ := liveNode_releaseNode_iff.1 hlive
  refine ⟨fun heq ↦ hoff (heq ▸ .refl), hold, ?_⟩
  rwa [(retains_releaseNode tree id).parent? hoff] at hparent

theorem isDetached_iff : tree.isDetached id = true ↔ id ≠ tree.root ∧ tree.Apex id := by
  rw [isDetached, Apex, LiveNode, parent?]
  cases hn : tree.node? id with
  | none => simp
  | some node => simp

theorem apex_giveUp {x : NodeId} (hroot : id ≠ tree.root) (h : (tree.giveUp id).Apex x) :
    x ≠ id ∧ tree.Apex x := by
  rw [giveUp] at h
  split at h
  · exact apex_releaseNode h
  · next hkept =>
      refine ⟨?_, h⟩
      rintro rfl
      exact hkept (isDetached_iff.2 ⟨hroot, h⟩)

theorem Attached.apex (ha : tree.Attached parent child after) (h : after.Apex id) :
    id ≠ child ∧ tree.Apex id := by
  obtain ⟨hlive, hparent⟩ := ha.retains.apex h
  rw [adopt_eq, liveNode_setParent, liveNode_mapChildren] at hlive
  have hchild : tree.LiveNode child := by
    have hattach := ha.can_attach
    unfold canAttach at hattach
    cases hc : tree.node? child with
    | some node => exact liveNode_of_some hc
    | none => cases hp : tree.node? parent <;> rw [hp, hc] at hattach <;> cases hattach
  rw [adopt_eq, parent?_setParent ((liveNode_mapChildren ..).2 hchild), parent?_mapChildren]
    at hparent
  split at hparent
  · cases hparent
  · next hne => exact ⟨hne, hlive, hparent⟩

end Tree

open LightTree.Tree

/-! ## Making nodes -/

/-- Makes one new top, or none if it fails. -/
def Tops (make : NodeKind → Edit NodeId) : Prop :=
  ∀ kind tree, (make kind).Meets tree (fun id after ↦ ∀ x, after.Apex x → x = id ∨ tree.Apex x)
    fun _ after ↦ ∀ x, after.Apex x → tree.Apex x

/-- An edit brings no node to the top, however it ends. -/
def Edit.AddsNoApex {α : Type} (edit : Edit α) : Prop :=
  edit.Respects fun tree after ↦ ∀ x, after.Apex x → tree.Apex x

namespace Tops

variable {make : NodeKind → Edit NodeId}

theorem populateOne (hmake : Tops make) (id : NodeId) (kind childKind : NodeKind) :
    (populateOne make id kind childKind).AddsNoApex := by
  intro tree
  rw [meets_populateOne]
  refine (hmake childKind tree).imp (fun child mid hmid ↦ ?_) fun _ _ ha ↦ ha
  have hrelease : ∀ {after : Tree}, (∀ x, after.Apex x → mid.Apex x) →
      ∀ x, (after.releaseNode child).Apex x → tree.Apex x := by
    intro after hafter x hx
    obtain ⟨hne, hx⟩ := apex_releaseNode hx
    exact (hmid x (hafter x hx)).resolve_left hne
  apply (attach_outcome id child false mid).imp
  · rintro outcome after ⟨hignored, happlied⟩
    constructor
    · intro ho
      rw [hignored ho]
      exact hrelease fun _ hx ↦ hx
    · intro ho x hx
      obtain ⟨hne, hx⟩ := (happlied ho).apex hx
      exact (hmid x hx).resolve_left hne
  · rintro _ after (rfl | hattached)
    · exact hrelease fun _ hx ↦ hx
    · exact hrelease fun _ hx ↦ (hattached.apex hx).2

theorem populate (hmake : Tops make) (id : NodeId) (kind : NodeKind) (childKind? : Option NodeKind)
    (count : Nat) : (populate make id kind childKind? count).AddsNoApex := by
  induction count with
  | zero => exact fun _ _ hx ↦ hx
  | succ count ih =>
      intro tree
      rw [meets_populate_succ]
      refine ⟨fun _ _ hx ↦ hx, fun childKind _ ↦ ?_⟩
      refine (hmake.populateOne id kind childKind tree).imp (fun _ mid hmid ↦ ?_) fun _ _ ha ↦ ha
      exact (ih mid).imp (fun _ _ ha x hx ↦ hmid x (ha x hx)) fun _ _ ha x hx ↦ hmid x (ha x hx)

theorem build (hmake : Tops make) (id : NodeId) (kind : NodeKind) :
    (build make id kind).AddsNoApex := by
  intro tree
  rw [meets_build]
  have hfurnish := (steady_retains fun _ ↦ True).toQuiet.furnish
    (steady_retains fun _ ↦ True).addTop id kind.fields tree
  refine hfurnish.imp (fun _ mid hmid ↦ ?_) fun _ _ ha x hx ↦ ha.apex hx
  refine ⟨fun _ ↦ ?_, fun _ x hx ↦ hmid.apex hx⟩
  exact (hmake.populate id kind _ _ mid).imp (fun _ _ ha x hx ↦ hmid.apex (ha x hx))
    fun _ _ ha x hx ↦ hmid.apex (ha x hx)

theorem createWithin (depth : Nat) : Tops (createWithin depth) := by
  induction depth with
  | zero => exact fun _ _ _ hx ↦ hx
  | succ depth ih =>
      intro kind tree
      rw [meets_createWithin_succ]
      refine ⟨fun _ _ _ hx ↦ hx, fun _ ↦ ?_⟩
      apply (ih.build tree.nextNode kind (tree.insertNode { kind })).imp
      · exact fun _ after ha x hx ↦ apex_insertNode (ha x hx)
      · intro _ after ha x hx
        obtain ⟨hne, hx⟩ := apex_releaseNode hx
        exact (apex_insertNode (ha x hx)).resolve_left hne

theorem create : Tops create :=
  createWithin 5

end Tops

namespace Tree

variable {base tree mid after : Tree} {id : NodeId}

/-- Where no new node is at the top, every live node stands below an old one, which lists the same
children as before. The induction goes up the parents. -/
theorem Forest.liveNode_of_apex (h : after.Forest) (hb : base.Forest)
    (hapex : ∀ x, after.Apex x → base.Apex x)
    (hchildren : ∀ x, base.LiveNode x → after.children x = base.children x)
    (hlive : after.LiveNode id) : base.LiveNode id := by
  induction id using h.wellFounded_parent.induction with
  | _ id ih =>
    cases hp : after.parent? id with
    | none => exact (hapex id ⟨hlive, hp⟩).1
    | some parent =>
        have hparent := ih parent hp (h.parent_live hp)
        have hlisted : id ∈ after.children parent := h.mem_children_iff.2 hp
        rw [hchildren parent hparent] at hlisted
        exact hb.child_live hlisted

/-- What was there in the first tree is untouched in the second one, and no new node is at the
top. -/
structure Withdrawn (base after : Tree) : Prop extends base.Annexed after where
  forest : after.Forest
  apex : ∀ x, after.Apex x → base.Apex x

namespace Withdrawn

theorem refl (h : base.Sound) (hf : base.Forest) : base.Withdrawn base :=
  ⟨.refl h, hf, fun _ hx ↦ hx⟩

theorem liveNode_iff (h : base.Withdrawn after) (hb : base.Forest) :
    after.LiveNode id ↔ base.LiveNode id := by
  refine ⟨h.forest.liveNode_of_apex hb h.apex fun x hx ↦ ?_, fun hlive ↦ ?_⟩
  · rw [children_eq_readNode, h.toUntouched.readNode hx.lt_size, ← children_eq_readNode]
  · obtain ⟨node, hn⟩ := Tree.liveNode_iff.1 hlive
    exact liveNode_of_some ((h.node id hlive.lt_size).trans hn)

end Withdrawn

/-- Creation that fails leaves no node behind. -/
theorem create_withdraws (h : tree.Sound) (hf : tree.Forest) (kind : NodeKind) :
    (create kind).Meets tree
      (fun id after ↦ tree.Annexed after ∧ after.Forest ∧ tree.Later (.children id) ∧
        ∀ x, after.Apex x → x = id ∨ tree.Apex x) fun _ ↦ tree.Withdrawn := by
  refine (((h.create_annexed kind).and (create_keeps_forest kind tree hf)).and
    (Tops.create kind tree)).imp ?_ ?_
  · exact fun _ _ ⟨⟨⟨hannexed, hlater⟩, hforest⟩, hapex⟩ ↦ ⟨hannexed, hforest, hlater, hapex⟩
  · exact fun _ _ ⟨⟨hannexed, hforest⟩, hapex⟩ ↦ ⟨hannexed, hforest, hapex⟩

end Tree

end LightTree
