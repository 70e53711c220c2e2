import LightTree.Proofs.Placement

/-!
# Growing a forest

Making a node puts a tree of new nodes beside the forest that was there before and leaves the old
nodes as they were. A node that fails to be made takes the new nodes below it away again. When a
child has been attached and its cascade fails, the child is released first, and the node above it,
which still lists the child, is released right after.
-/

namespace LightTree

open Relation Edit

namespace Tree

variable {base tree mid after : Tree} {broken : NodeId → Prop} {id : NodeId} {kind : NodeKind}

/-! ## Attaching -/

/-- The second tree is the first one after a child has been attached. -/
structure Attached (tree : Tree) (parent child : NodeId) (after : Tree) : Prop where
  can_attach : tree.canAttach parent child = true
  retains : (tree.adopt parent child).Retains (fun _ ↦ True) after

namespace Attached

variable {parent child : NodeId}

theorem forest (ha : tree.Attached parent child after) (h : tree.Forest) : after.Forest :=
  ForestBut.of_retains (h.adopt ha.can_attach) ha.retains

theorem retains_of_not_mem (ha : tree.Attached parent child after) {set : NodeId → Prop}
    (hparent : ¬set parent) (hchild : ¬set child) : tree.Retains set after :=
  (Retains.adopt hparent hchild).trans (ha.retains.mono fun _ _ ↦ trivial)

theorem kind? (ha : tree.Attached parent child after) : after.kind? = tree.kind? := by
  funext x
  rw [ha.retains.kind? trivial, adopt_eq, kind?_setParent, kind?_mapChildren]

theorem parent? (ha : tree.Attached parent child after) (h : tree.Forest) (x : NodeId) :
    after.parent? x = if x = child then some parent else tree.parent? x := by
  have hl := (h.placeable ha.can_attach).1.child_live
  rw [ha.retains.parent? trivial, adopt_eq, parent?_setParent ((liveNode_mapChildren ..).2 hl),
    parent?_mapChildren]

end Attached

/-- An attached child has been placed, even if the cascade after that failed; otherwise nothing has
happened. -/
theorem attach_outcome (parent child : NodeId) (refresh : Bool) (tree : Tree) :
    (attach parent child refresh).Meets tree
      (fun outcome after ↦ (outcome = .ignored → after = tree) ∧
        (outcome = .applied → tree.Attached parent child after))
      fun _ after ↦ after = tree ∨ tree.Attached parent child after := by
  rw [meets_attach]
  refine ⟨fun _ ↦ ⟨fun _ ↦ rfl, nofun⟩, fun hc ↦ ⟨fun _ _ ↦ .inl rfl, fun _ ↦ ?_⟩⟩
  exact ((steady_retains fun _ ↦ True).childrenChanged parent refresh _).imp
    (fun _ _ hk ↦ ⟨nofun, fun _ ↦ ⟨hc, hk⟩⟩) fun _ _ hk ↦ .inr ⟨hc, hk⟩

/-! ## New nodes and old ones -/

def ParentsKnown (tree : Tree) : Prop :=
  ∀ c p, tree.Ascends c p → tree.Known p

theorem Forest.parentsKnown (h : tree.Forest) : tree.ParentsKnown :=
  fun _ _ hup ↦ (h.parent_live hup).known

/-- No new node stands above an old one. -/
theorem ParentsKnown.not_heads (h : base.ParentsKnown) (hk : base.Retains base.Known tree)
    (ht : tree.ForestBut broken fun _ ↦ False) (hid : ¬base.Known id) {x : NodeId}
    (hx : base.Known x) (hl : tree.LiveNode x) : ¬tree.Heads id x := by
  intro hhead
  induction hhead with
  | refl => exact hid hx
  | @tail p c _ hc ih =>
      rcases ht.listed p c hc with hup | ⟨_, hdead⟩
      · exact ih (h c p ((hk.parent? hx).symm.trans hup)) (liveNode_of_mem_children hc)
      · exact hdead hl

/-- A new tree stands beside the forest of `base`: its top has no parent. -/
structure Beside (base : Tree) (id : NodeId) (kind : NodeKind) (broken : NodeId → Prop)
    (tree : Tree) : Prop where
  forest : tree.ForestBut broken fun _ ↦ False
  old : base.Retains base.Known tree
  parentless : tree.parent? id = none
  kind : tree.kind? id = some kind

namespace Beside

theorem live (h : base.Beside id kind broken tree) : tree.LiveNode id :=
  liveNode_of_kind?_eq_some h.kind

theorem mono (h : base.Beside id kind broken tree) {broken' : NodeId → Prop}
    (hb : ∀ p, broken p → broken' p) : base.Beside id kind broken' tree :=
  ⟨h.forest.mono hb fun _ hf ↦ hf, h.old, h.parentless, h.kind⟩

/-- Nothing known is changed by what comes next. -/
theorem next (h : base.Beside id kind (fun _ ↦ False) tree) (hforest : after.Forest)
    (hold : tree.Retains tree.Known after) :
    base.Beside id kind (fun _ ↦ False) after where
  forest := hforest
  old := h.old.trans (hold.mono fun _ hx ↦ h.old.known hx)
  parentless := (hold.parent? h.live.known).trans h.parentless
  kind := (hold.kind? h.live.known).trans h.kind

theorem of_retains (h : base.Beside id kind broken tree)
    (hk : tree.Retains (fun _ ↦ True) after) : base.Beside id kind broken after where
  forest := h.forest.of_retains hk
  old := h.old.trans (hk.mono fun _ _ ↦ trivial)
  parentless := (hk.parent? trivial).trans h.parentless
  kind := (hk.kind? trivial).trans h.kind

variable {child : NodeId}

theorem attached (h : base.Beside id kind (fun _ ↦ False) tree) (hid : ¬base.Known id)
    (hchild : ¬base.Known child) (ha : tree.Attached id child after) :
    base.Beside id kind (fun _ ↦ False) after where
  forest := ha.forest h.forest
  old := h.old.trans (ha.retains_of_not_mem hid hchild)
  parentless := by
    have hne := (Forest.placeable h.forest ha.can_attach).1.ne
    rw [ha.parent? h.forest, if_neg hne]
    exact h.parentless
  kind := by rw [ha.kind?, h.kind]

/-- Another new node is released, which only the top may have listed. -/
theorem release (hbase : base.ParentsKnown) (h : base.Beside id kind (fun _ ↦ False) tree)
    (hchild : ¬base.Known child) (hne : id ≠ child) (hroot : child ≠ tree.root)
    (hup : ∀ p, tree.Ascends child p → p = id) :
    base.Beside id kind (· = id) (tree.releaseNode child) := by
  have hid : ¬tree.Heads child id := h.forest.not_heads hne h.live h.parentless
  have hk := Retains.releaseNode tree child
  refine ⟨?_, h.old.trans (hk.mono fun x hx hl ↦ ?_), ?_, ?_⟩
  · exact (h.forest.releaseNode hroot (fun _ ↦ False.elim) fun _ ↦ False.elim).mono
      (fun p hp ↦ hup p (Forest.mem_children_iff h.forest |>.1 hp)) fun _ hf ↦ hf
  · exact hbase.not_heads h.old h.forest hchild hx hl
  · exact (hk.parent? fun _ ↦ hid).trans h.parentless
  · exact (hk.kind? fun _ ↦ hid).trans h.kind

/-- The top is released with all that was built below it. -/
theorem undo (hbase : base.Forest) (h : base.Beside id kind (· = id) tree)
    (hid : ¬base.Known id) :
    (tree.releaseNode id).Forest ∧ base.Retains base.Known (tree.releaseNode id) := by
  have hroot : id ≠ tree.root := fun he ↦ hid (he ▸ h.old.root ▸ hbase.root_live.known)
  refine ⟨?_, h.old.trans ((Retains.releaseNode tree id).mono fun x hx hl ↦ ?_)⟩
  · exact h.forest.releaseNode_of_unlisted hroot (fun _ hp ↦ hp) (fun _ ↦ False.elim)
      (h.forest.unlisted h.live h.parentless)
  · exact hbase.parentsKnown.not_heads h.old h.forest hid hx hl

end Beside

/-! ## Making nodes -/

/-- Making a node puts a new tree beside a forest, or leaves a forest with the old nodes. -/
def Makes (make : NodeKind → Edit NodeId) : Prop :=
  ∀ kind tree, tree.Forest → (make kind).Meets tree
    (fun id after ↦ id = tree.nextNode ∧ tree.Beside id kind (fun _ ↦ False) after)
    fun _ after ↦ after.Forest ∧ tree.Retains tree.Known after

variable {make : NodeKind → Edit NodeId}

theorem Makes.populateOne (hmake : Makes make) (hbase : base.ParentsKnown) (hid : ¬base.Known id)
    (h : base.Beside id kind (fun _ ↦ False) tree) (named childKind : NodeKind) :
    (populateOne make id named childKind).Meets tree
      (fun _ ↦ base.Beside id kind fun _ ↦ False) fun _ ↦ base.Beside id kind (· = id) := by
  rw [meets_populateOne]
  refine (hmake childKind tree h.forest).imp ?_ fun _ after ⟨hforest, hold⟩ ↦
    (h.next hforest hold).mono fun _ ↦ False.elim
  rintro child mid ⟨rfl, hmid⟩
  have hnew : ¬base.Known tree.nextNode := fun hk ↦ tree.not_known_nextNode (h.old.known hk)
  have hne : id ≠ tree.nextNode := fun he ↦ tree.not_known_nextNode (he ▸ h.live.known)
  have hroot : tree.nextNode ≠ mid.root := fun he ↦
    tree.not_known_nextNode (he ▸ hmid.old.root ▸ h.forest.root_live.known)
  have hbeside := h.next hmid.forest hmid.old
  have hloose : base.Beside id kind (· = id) (mid.releaseNode tree.nextNode) :=
    hbeside.release hbase hnew hne hroot fun p hp ↦
      absurd (hp.symm.trans hmid.parentless) (Option.some_ne_none p)
  apply (attach_outcome id tree.nextNode false mid).imp
  · rintro outcome after ⟨hignored, happlied⟩
    exact ⟨fun ho ↦ hignored ho ▸ hloose, fun ho ↦ hbeside.attached hid hnew (happlied ho)⟩
  · rintro fault after (rfl | ha)
    · exact hloose
    · refine (hbeside.attached hid hnew ha).release hbase hnew hne ?_ fun p hp ↦ ?_
      · exact ha.retains.root ▸ hroot
      · rw [Ascends, ha.parent? hmid.forest, if_pos rfl] at hp
        exact (Option.some.inj hp).symm

theorem Makes.populate (hmake : Makes make) (hbase : base.ParentsKnown) (hid : ¬base.Known id)
    (named : NodeKind) (childKind? : Option NodeKind) (count : Nat)
    (h : base.Beside id kind (fun _ ↦ False) tree) :
    (populate make id named childKind? count).Meets tree
      (fun _ ↦ base.Beside id kind fun _ ↦ False) fun _ ↦ base.Beside id kind (· = id) := by
  induction count generalizing tree with
  | zero => exact h
  | succ count ih =>
      rw [meets_populate_succ]
      refine ⟨fun _ ↦ h.mono fun _ ↦ False.elim, fun childKind _ ↦ ?_⟩
      exact (hmake.populateOne hbase hid h named childKind).imp (fun _ _ ↦ ih) fun _ _ ha ↦ ha

theorem Makes.build (hmake : Makes make) (hbase : base.ParentsKnown) (hid : ¬base.Known id)
    (named : NodeKind) (h : base.Beside id kind (fun _ ↦ False) tree) :
    (build make id named).Meets tree
      (fun _ ↦ base.Beside id kind fun _ ↦ False) fun _ ↦ base.Beside id kind (· = id) := by
  rw [meets_build]
  have hsteady := steady_retains fun _ ↦ True
  refine (hsteady.toQuiet.furnish hsteady.addTop id named.fields tree).imp ?_ ?_
  · intro _ mid hk
    have hmid := h.of_retains hk
    exact ⟨fun _ ↦ hmake.populate hbase hid named _ _ hmid, fun _ ↦ hmid⟩
  · exact fun _ _ hk ↦ (h.of_retains hk).mono fun _ ↦ False.elim

theorem beside_insertNode (h : (tree.insertNode { kind }).Forest) :
    tree.Beside tree.nextNode kind (fun _ ↦ False) (tree.insertNode { kind }) where
  forest := h
  old := .insertNode tree { kind }
  parentless := by
    rw [parent?_insertNode, parent?_eq_readNode,
      readNode_of_none (not_liveNode_iff.1 tree.not_liveNode_nextNode)]
  kind := by rw [kind?_insertNode, if_pos rfl]

/-- The induction is on the depth: the required children are made one level further down. -/
theorem makes_createWithin (depth : Nat) : Makes (createWithin depth) := by
  induction depth with
  | zero => exact fun _ tree h ↦ ⟨h, .refl _ tree⟩
  | succ depth ih =>
      intro kind tree h
      rw [meets_createWithin_succ]
      refine ⟨fun _ _ ↦ ⟨h, .refl _ tree⟩, fun _ ↦ ?_⟩
      have hbeside := beside_insertNode (h.insertNode kind)
      exact (ih.build h.parentsKnown tree.not_known_nextNode kind hbeside).imp
        (fun _ _ ha ↦ ⟨rfl, ha⟩) fun _ _ ha ↦ ha.undo h tree.not_known_nextNode

theorem makes_create : Makes create :=
  makes_createWithin 5

end Tree

end LightTree
