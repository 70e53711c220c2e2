import LightTree.Proofs.Hierarchy
import LightTree.Proofs.Naming
import LightTree.Wire

/-!
# The children that nodes require

A node is made with the children that its kind requires, and hardly any change takes one of them
away: a replaced child leaves its place to the node that replaces it, and what is released goes with
all that is below it. Only the removal of a child does not ask whether its parent can spare one.
-/

namespace LightTree

open Relation Edit

namespace Tree

variable {base tree mid after : Tree} {short : NodeId → Prop} {id : NodeId} {kind : NodeKind}

/-- If the node is alive, it has at least as many children as its kind requires. -/
def Staffed (tree : Tree) (id : NodeId) : Prop :=
  ∀ node, tree.node? id = some node → node.kind.minChildren ≤ node.children.length

/-- Every node is staffed, apart from some. -/
def StaffedBut (short : NodeId → Prop) (tree : Tree) : Prop :=
  ∀ id, tree.Staffed id ∨ short id

/-- An operation takes a child from a node that has no more children than its kind requires. -/
def Robs (tree : Tree) (operation : Operation) (id : NodeId) : Prop :=
  ∃ child node, (operation = .removeChild id child ∨ operation = .detach child) ∧
    tree.node? id = some node ∧ child ∈ node.children ∧
    node.children.length ≤ node.kind.minChildren ∧ tree.rehearse (.children id) = .ok ()

theorem staffed_iff : tree.Staffed id ↔
    ∀ kind, tree.kind? id = some kind → kind.minChildren ≤ (tree.children id).length := by
  rw [Staffed, kind?, children_eq_readNode, readNode, readNode]
  cases tree.node? id with
  | none => simp
  | some node => simp

/-! ## Steps -/

theorem Staffed.of_length (h : tree.Staffed id)
    (hkind : ∀ kind, after.kind? id = some kind → tree.kind? id = some kind)
    (hlength : after.LiveNode id → (tree.children id).length ≤ (after.children id).length) :
    after.Staffed id :=
  staffed_iff.2 fun kind hk ↦
    (staffed_iff.1 h kind (hkind kind hk)).trans (hlength (liveNode_of_kind?_eq_some hk))

theorem staffed_of_not_liveNode (h : ¬tree.LiveNode id) : tree.Staffed id := by
  intro node hn
  exact absurd (liveNode_of_some hn) h

theorem Retains.staffed_iff {set : NodeId → Prop} (hk : tree.Retains set after) (hid : set id) :
    after.Staffed id ↔ tree.Staffed id := by
  rw [Tree.staffed_iff, Tree.staffed_iff, hk.kind? hid, hk.children hid]

theorem Staffed.releaseNode (h : tree.Staffed id) (gone : NodeId) :
    (tree.releaseNode gone).Staffed id := by
  refine h.of_length (fun _ hk ↦ (kind?_of_releaseNode hk).2) fun hl ↦ ?_
  rw [(tree.retains_releaseNode gone).children (not_heads_of_liveNode_releaseNode hl)]

namespace StaffedBut

theorem of_retains (h : tree.StaffedBut short) (hk : tree.Retains (fun _ ↦ True) after) :
    after.StaffedBut short :=
  fun id ↦ (h id).imp_left (hk.staffed_iff trivial).2

theorem releaseNode (h : tree.StaffedBut short) (gone : NodeId) :
    (tree.releaseNode gone).StaffedBut short :=
  fun id ↦ (h id).imp_left (·.releaseNode gone)

/-- What is released need not have been staffed. -/
theorem releaseNode_of_short {gone : NodeId} (h : tree.StaffedBut fun id ↦ short id ∨ id = gone) :
    (tree.releaseNode gone).StaffedBut short := by
  intro id
  rcases h id with hstaffed | hshort | rfl
  · exact .inl (hstaffed.releaseNode gone)
  · exact .inr hshort
  · exact .inl (staffed_of_not_liveNode fun hl ↦ not_heads_of_liveNode_releaseNode hl .refl)

theorem giveUp (h : tree.StaffedBut short) (child : NodeId) :
    (tree.giveUp child).StaffedBut short := by
  rw [Tree.giveUp]
  split
  · exact h.releaseNode child
  · exact h

theorem insertNode (h : tree.StaffedBut short) (kind : NodeKind) :
    (tree.insertNode { kind }).StaffedBut fun id ↦ short id ∨ id = tree.nextNode := by
  intro id
  by_cases hid : id = tree.nextNode
  · exact .inr (.inr hid)
  · refine (h id).imp (fun hstaffed ↦ ?_) .inl
    refine hstaffed.of_length (fun k hk ↦ ?_) fun _ ↦ by rw [children_insertNode]
    rwa [kind?_insertNode, if_neg hid] at hk

end StaffedBut

theorem Attached.children {parent child : NodeId} (ha : tree.Attached parent child after)
    (h : tree.Forest) (x : NodeId) :
    after.children x = if x = parent then tree.children x ++ [child] else tree.children x := by
  have hl := (h.placeable ha.can_attach).1.parent_live
  rw [ha.retains.children trivial, adopt_eq, children_setParent, children_mapChildren hl]
  split
  · next he => rw [he]
  · rfl

theorem StaffedBut.attached {parent child : NodeId} (h : tree.StaffedBut short)
    (hf : tree.Forest) (ha : tree.Attached parent child after) : after.StaffedBut short := by
  refine fun id ↦ (h id).imp_left fun hstaffed ↦ ?_
  refine hstaffed.of_length (fun _ ↦ (ha.kind? ▸ ·)) fun _ ↦ ?_
  rw [ha.children hf]
  split
  · exact (List.sublist_append_left _ _).length_le
  · exact Nat.le_refl _

/-! ## Making nodes -/

/-- Making a node leaves no further node short of children, however it ends. -/
def Staffs (make : NodeKind → Edit NodeId) : Prop :=
  ∀ short kind tree, tree.Forest → tree.StaffedBut short →
    (make kind).Meets tree (fun _ ↦ StaffedBut short) fun _ ↦ StaffedBut short

namespace Staffs

variable {make : NodeKind → Edit NodeId}

theorem populateOne (hstaffs : Staffs make) (hmake : Makes make)
    (hb : base.Beside id kind (fun _ ↦ False) tree) (h : tree.StaffedBut short)
    (named childKind : NodeKind) :
    (populateOne make id named childKind).Meets tree
      (fun _ after ↦ after.StaffedBut short ∧
        (after.children id).length = (tree.children id).length + 1)
      fun _ ↦ StaffedBut short := by
  rw [meets_populateOne]
  refine ((hmake childKind tree hb.forest).and (hstaffs short childKind tree hb.forest h)).imp ?_
    fun _ _ ha ↦ ha.2
  rintro child mid ⟨⟨_, hmid⟩, hshort⟩
  have hforest : mid.Forest := hmid.forest
  apply (attach_outcome id child false mid).imp
  · rintro outcome after ⟨hignored, happlied⟩
    refine ⟨fun ho ↦ hignored ho ▸ hshort.releaseNode child, fun ho ↦ ?_⟩
    refine ⟨hshort.attached hforest (happlied ho), ?_⟩
    rw [(happlied ho).children hforest, if_pos rfl, List.length_append,
      hmid.old.children hb.live.known, List.length_singleton]
  · rintro _ after (rfl | ha)
    · exact hshort.releaseNode child
    · exact (hshort.attached hforest ha).releaseNode child

theorem populate (hstaffs : Staffs make) (hmake : Makes make) (hbase : base.ParentsKnown)
    (hid : ¬base.Known id) (named : NodeKind) (childKind? : Option NodeKind) (count : Nat)
    (hb : base.Beside id kind (fun _ ↦ False) tree) (h : tree.StaffedBut short) :
    (populate make id named childKind? count).Meets tree
      (fun _ after ↦ after.StaffedBut short ∧
        (after.children id).length = (tree.children id).length + count)
      fun _ ↦ StaffedBut short := by
  induction count generalizing tree with
  | zero => exact ⟨h, rfl⟩
  | succ count ih =>
      rw [meets_populate_succ]
      refine ⟨fun _ ↦ h, fun childKind _ ↦ ?_⟩
      refine ((hmake.populateOne hbase hid hb named childKind).and
        (hstaffs.populateOne hmake hb h named childKind)).imp ?_ fun _ _ ha ↦ ha.2
      rintro _ mid ⟨hmid, hshort, hlength⟩
      refine (ih hmid hshort).imp (fun _ after ⟨hafter, hmore⟩ ↦ ⟨hafter, ?_⟩) fun _ _ ha ↦ ha
      rw [hmore, hlength, Nat.add_assoc, Nat.add_comm 1 count]

/-- A new node is short of children until it has been filled. -/
theorem build (hstaffs : Staffs make) (hmake : Makes make) (hbase : base.ParentsKnown)
    (hid : ¬base.Known id) (hcheck : kind.check = .ok ())
    (hb : base.Beside id kind (fun _ ↦ False) tree)
    (h : tree.StaffedBut fun x ↦ short x ∨ x = id) :
    (build make id kind).Meets tree (fun _ ↦ StaffedBut short)
      fun _ ↦ StaffedBut fun x ↦ short x ∨ x = id := by
  have hfilled : ∀ {after : Tree}, after.StaffedBut (fun x ↦ short x ∨ x = id) →
      after.kind? id = some kind → kind.minChildren ≤ (after.children id).length →
      after.StaffedBut short := by
    intro after hafter hkind hlength x
    rcases hafter x with hstaffed | hshort | rfl
    · exact .inl hstaffed
    · exact .inr hshort
    · refine .inl (staffed_iff.2 fun k hk ↦ ?_)
      rw [hkind] at hk
      exact Option.some.inj hk ▸ hlength
  rw [meets_build]
  have hsteady := steady_retains fun _ ↦ True
  refine (hsteady.toQuiet.furnish hsteady.addTop id kind.fields tree).imp (fun _ mid hk ↦ ?_)
    fun _ _ hk ↦ h.of_retains hk
  have hmid := hb.of_retains hk
  have hshort := h.of_retains hk
  refine ⟨fun _ ↦ ?_, fun hnothing ↦ ?_⟩
  · refine ((hmake.populate hbase hid kind _ _ hmid).and
      (hstaffs.populate hmake hbase hid kind _ _ hmid hshort)).imp ?_ fun _ _ ha ↦ ha.2
    rintro _ after ⟨hbeside, hafter, hlength⟩
    exact hfilled hafter hbeside.kind (hlength ▸ Nat.le_add_left _ _)
  · refine hfilled hshort hmid.kind ?_
    rw [NodeKind.minChildren_of_check hcheck hnothing]
    exact Nat.zero_le _

theorem createWithin (depth : Nat) : Staffs (createWithin depth) := by
  induction depth with
  | zero => exact fun _ _ _ _ h ↦ h
  | succ depth ih =>
      intro short kind tree hf h
      rw [meets_createWithin_succ]
      refine ⟨fun _ _ ↦ h, fun hcheck ↦ ?_⟩
      have hb := beside_insertNode (hf.insertNode kind)
      exact (ih.build (makes_createWithin depth) hf.parentsKnown tree.not_known_nextNode hcheck hb
        (h.insertNode kind)).imp (fun _ _ ha ↦ ha) fun _ _ ha ↦ ha.releaseNode_of_short

theorem create : Staffs create :=
  createWithin 5

end Staffs

end Tree

/-! ## Operations -/

/-- An edit of a forest leaves no further node short of children, however it ends. -/
def Edit.LeavesStaffed {α : Type} (edit : Edit α) : Prop :=
  ∀ short tree, tree.Forest → tree.StaffedBut short →
    edit.Meets tree (fun _ ↦ Tree.StaffedBut short) fun _ ↦ Tree.StaffedBut short

namespace Tree

variable {tree mid after : Tree} {short : NodeId → Prop} {id parent child : NodeId}

theorem leavesStaffed_of_respects {α : Type} {edit : Edit α}
    (he : edit.Respects (Retains fun _ ↦ True)) : edit.LeavesStaffed :=
  fun _ tree _ h ↦ (he tree).imp (fun _ _ ↦ h.of_retains) fun _ _ ↦ h.of_retains

theorem leavesStaffed_create (kind : NodeKind) : (create kind).LeavesStaffed :=
  fun short tree ↦ Staffs.create short kind tree

theorem leavesStaffed_addChild (parent child : NodeId) : (addChild parent child).LeavesStaffed := by
  intro short tree hf h
  rw [meets_addChild]
  apply (attach_outcome parent child true tree).imp
  · rintro outcome after ⟨hignored, happlied⟩
    exact ⟨fun ho ↦ hignored ho ▸ h.giveUp child, fun ho ↦ h.attached hf (happlied ho)⟩
  · rintro fault after (rfl | ha)
    · exact h.giveUp child
    · exact (h.attached hf ha).giveUp child

theorem leavesStaffed_addByCategory (parent : NodeId) (category : Category) :
    (addByCategory parent category).LeavesStaffed := by
  intro short tree hf h
  rw [meets_addByCategory]
  refine ⟨fun _ ↦ h, fun kind _ _ ↦ ?_⟩
  exact ((create_keeps_forest kind tree hf).and (leavesStaffed_create kind short tree hf h)).imp
    (fun child _ hm ↦ leavesStaffed_addChild parent child short _ hm.1 hm.2) fun _ _ hm ↦ hm.2

/-- The new node takes the place of the old one among the children. -/
theorem StaffedBut.supplant (h : tree.StaffedBut short) (hl : tree.LiveNode parent)
    (old new : NodeId) : (tree.supplant parent old new).StaffedBut short := by
  refine fun id ↦ (h id).imp_left fun hstaffed ↦ hstaffed.of_length (fun kind hk ↦ ?_) fun _ ↦ ?_
  · rwa [supplant_eq, kind?_setParent, kind?_mapChildren] at hk
  · rw [supplant_eq, children_setParent, children_mapChildren hl]
    split
    · next he => rw [he, List.length_replace]
    · exact Nat.le_refl _

theorem leavesStaffed_retype (id : NodeId) (symbol : String) : (retype id symbol).LeavesStaffed := by
  intro short tree hf h
  refine meets_retype h fun node parent kind _ _ _ ↦ ⟨fun _ _ ↦ h, fun _ ↦ ?_⟩
  refine (leavesStaffed_create kind short tree hf h).imp (fun new mid hmid ↦ ?_) fun _ _ hmid ↦ hmid
  refine ⟨fun _ ↦ hmid.releaseNode new, fun hold ↦ ?_⟩
  have hreplaced := hmid.supplant (liveNode_of_mem_children hold) id new
  exact ((steady_retains _).childrenChanged parent true _).imp
    (fun _ _ ↦ (hreplaced.releaseNode id).of_retains) fun _ _ ↦ (hreplaced.releaseNode id).of_retains

/-! ### Removing a child -/

theorem disown_staffed_iff (hl : tree.LiveNode parent) (hc : child ∈ tree.children parent)
    (x : NodeId) : (tree.disown parent child).Staffed x ↔
      if x = parent then ∀ kind, tree.kind? x = some kind →
        kind.minChildren < (tree.children x).length
      else tree.Staffed x := by
  rw [staffed_iff, disown_eq, kind?_mapChildren, children_mapChildren hl]
  split
  · next he =>
      subst he
      have hlength := List.length_erase_add_one hc
      rw [← hlength]
      exact forall₂_congr fun _ _ ↦ Nat.lt_add_one_iff.symm
  · exact staffed_iff.symm

theorem removeChild_robs (h : tree.StaffedBut short) (parent child : NodeId)
    {robbed : NodeId → Prop}
    (hrobbed : ∀ node, tree.node? parent = some node → child ∈ node.children →
      node.children.length ≤ node.kind.minChildren → tree.rehearse (.children parent) = .ok () →
      robbed parent) :
    (removeChild parent child).Meets tree (fun _ ↦ StaffedBut fun x ↦ short x ∨ robbed x)
      fun _ ↦ StaffedBut fun x ↦ short x ∨ robbed x := by
  have hweak : tree.StaffedBut fun x ↦ short x ∨ robbed x := fun x ↦ (h x).imp_right .inl
  rw [meets_removeChild]
  refine ⟨fun _ ↦ hweak, fun hc ↦ ⟨fun _ _ ↦ hweak, fun hrehearsed ↦ ?_⟩⟩
  have hl := liveNode_of_mem_children hc
  have hdisowned : (tree.disown parent child).StaffedBut fun x ↦ short x ∨ robbed x := by
    intro x
    rw [disown_staffed_iff hl hc]
    split
    · next he =>
      subst he
      obtain ⟨node, hn⟩ := liveNode_iff.1 hl
      have hchildren : tree.children x = node.children := by
        rw [children_eq_readNode, readNode_of_some hn]
      have hkind : tree.kind? x = some node.kind := readNode_of_some hn _ _
      rw [hkind, hchildren]
      rw [hchildren] at hc
      by_cases hfew : node.children.length ≤ node.kind.minChildren
      · exact .inr (.inr (hrobbed node hn hc hfew hrehearsed))
      · left
        rintro kind ⟨⟩
        exact Nat.lt_of_not_le hfew
    · exact hweak x
  have hgone := hdisowned.releaseNode child
  exact ((steady_retains _).childrenChanged parent true _).imp (fun _ _ ↦ hgone.of_retains)
    fun _ _ ↦ hgone.of_retains

/-- No node stands below its own child. -/
theorem Forest.not_heads_of_ascends (hf : tree.Forest) (hup : tree.Ascends child parent) :
    ¬tree.Heads child parent := by
  intro hheads
  have habove : ReflTransGen tree.Ascends parent child :=
    reflTransGen_swap.1 (ReflTransGen.mono (fun _ _ ↦ hf.mem_children_iff.1) _ _ hheads)
  exact hf.acyclic parent (.tail' habove hup)

theorem staffed_releaseNode_iff {gone : NodeId} (h : ¬tree.Heads gone id) :
    (tree.releaseNode gone).Staffed id ↔ tree.Staffed id := by
  have hk := tree.retains_releaseNode gone
  rw [staffed_iff, staffed_iff, hk.kind? h, hk.children h]

/-- The operation that robs a node leaves it short of children. -/
theorem Forest.not_staffed_of_robs (hf : tree.Forest) {operation : Operation}
    (h : tree.Robs operation id) : ¬(tree.perform operation).2.Staffed id := by
  obtain ⟨child, node, hop, hn, hc, hfew, hrehearsed⟩ := h
  have hchildren : tree.children id = node.children := by
    rw [children_eq_readNode, readNode_of_some hn]
  have hmem : child ∈ tree.children id := hchildren ▸ hc
  have hl := liveNode_of_some hn
  have hup := hf.mem_children_iff.1 hmem
  have hkept : ¬(tree.disown id child).Heads child id := by
    intro hheads
    refine hf.not_heads_of_ascends hup (ReflTransGen.mono (fun a b hb ↦ ?_) _ _ hheads)
    rw [disown_eq, children_mapChildren hl] at hb
    split at hb
    · next he => exact he ▸ List.mem_of_mem_erase hb
    · exact hb
  have hshort : ¬((tree.disown id child).releaseNode child).Staffed id := by
    rw [staffed_releaseNode_iff hkept, disown_staffed_iff hl hmem, if_pos rfl, hchildren]
    exact fun hstaffed ↦ Nat.not_lt_of_le hfew (hstaffed node.kind (readNode_of_some hn _ _))
  have hremove : (removeChild id child).Meets tree (fun _ after ↦ ¬after.Staffed id)
      fun _ after ↦ ¬after.Staffed id := by
    rw [meets_removeChild]
    refine ⟨fun hnot ↦ absurd hmem hnot, fun _ ↦ ⟨fun fault hfault ↦ ?_, fun _ ↦ ?_⟩⟩
    · rw [hrehearsed] at hfault
      cases hfault
    · have hcascade := (steady_retains fun _ ↦ True).childrenChanged id true
        ((tree.disown id child).releaseNode child)
      exact hcascade.imp (fun _ _ hk ↦ (hk.staffed_iff trivial).not.2 hshort)
        fun _ _ hk ↦ (hk.staffed_iff trivial).not.2 hshort
  suffices operation.edit.Meets tree (fun _ after ↦ ¬after.Staffed id)
      fun _ after ↦ ¬after.Staffed id from meets_const_iff.1 this
  rcases hop with rfl | rfl
  · exact (meets_bind ..).2 hremove
  · refine (meets_bind ..).2 (meets_detach.2 ⟨fun hnone ↦ ?_, fun parent hparent ↦ ?_⟩)
    · exact absurd (hup.symm.trans hnone) (Option.some_ne_none id)
    · rwa [← Option.some.inj (hup.symm.trans hparent)]

/-- Every other node that is not short of children before an operation is not short after it. -/
theorem StaffedBut.perform (h : tree.StaffedBut short) (hf : tree.Forest) (operation : Operation) :
    (tree.perform operation).2.StaffedBut fun id ↦ short id ∨ tree.Robs operation id := by
  have hweak : tree.StaffedBut fun id ↦ short id ∨ tree.Robs operation id := fun id ↦
    (h id).imp_right .inl
  have hanswer : ∀ {α : Type} {edit : Edit α} (answer : α → Answer), edit.LeavesStaffed →
      (edit >>= fun a ↦ pure (answer a) : Edit Answer).Meets tree
        (fun _ ↦ StaffedBut fun id ↦ short id ∨ tree.Robs operation id)
        fun _ ↦ StaffedBut fun id ↦ short id ∨ tree.Robs operation id :=
    fun answer hedit ↦ (meets_bind ..).2 (hedit _ tree hf hweak)
  have hfield : ∀ {α : Type} {edit : Edit α} (answer : α → Answer),
      edit.Respects (Retains fun _ ↦ True) →
      (edit >>= fun a ↦ pure (answer a) : Edit Answer).Meets tree
        (fun _ ↦ StaffedBut fun id ↦ short id ∨ tree.Robs operation id)
        fun _ ↦ StaffedBut fun id ↦ short id ∨ tree.Robs operation id :=
    fun answer hedit ↦ hanswer answer (leavesStaffed_of_respects hedit)
  have hsteady := steady_retains fun _ ↦ True
  refine meets_const_iff.1 (?_ : operation.edit.Meets tree _ _)
  cases operation with
  | create kind => exact hanswer .created (leavesStaffed_create kind)
  | addChild parent child => exact hanswer .outcome (leavesStaffed_addChild parent child)
  | addByCategory parent category =>
      exact hanswer .outcome (leavesStaffed_addByCategory parent category)
  | removeChild parent child =>
      refine (meets_bind ..).2 (removeChild_robs h parent child fun node hn hc hfew hr ↦ ?_)
      exact ⟨child, node, .inl rfl, hn, hc, hfew, hr⟩
  | detach child =>
      refine (meets_bind ..).2 (meets_detach.2 ⟨fun _ ↦ hweak, fun parent _ ↦ ?_⟩)
      refine removeChild_robs h parent child fun node hn hc hfew hr ↦ ?_
      exact ⟨child, node, .inr rfl, hn, hc, hfew, hr⟩
  | retype id symbol => exact hanswer .outcome (leavesStaffed_retype id symbol)
  | setInteger id n => exact hfield (fun _ ↦ .done) (hsteady.mutate id (leafy_setInteger n))
  | setBoolean id b => exact hfield (fun _ ↦ .done) (hsteady.mutate id (leafy_setBoolean b))
  | choose id option => exact hfield (fun _ ↦ .done) (hsteady.mutate id (leafy_choose option))
  | setText id text => exact hfield (fun _ ↦ .done) (hsteady.mutate id (leafy_setText text))
  | setColor id text => exact hfield (fun _ ↦ .done) (hsteady.mutate id (leafy_setColor text))
  | appendElement id => exact hfield .element (hsteady.appendElement id)
  | removeElement id index => exact hfield .outcome (hsteady.removeElement id index)
  | rebind dependent source => exact hfield (fun _ ↦ .done) (hsteady.rebind dependent source)

/-! ## Histories -/

/-- Which nodes an operation of a history has robbed of a child. -/
def RobbedAlong (tree : Tree) (operations : List Operation) (id : NodeId) : Prop :=
  ∃ done operation, done ++ [operation] <+: operations ∧ (tree.run done).2.Robs operation id

theorem robbedAlong_cons {operation : Operation} {rest : List Operation} :
    tree.RobbedAlong (operation :: rest) id ↔
      tree.Robs operation id ∨ (tree.perform operation).2.RobbedAlong rest id := by
  constructor
  · rintro ⟨_ | ⟨first, done⟩, last, hprefix, hrobs⟩
    · obtain ⟨rfl, -⟩ := List.cons_prefix_cons.1 hprefix
      exact .inl hrobs
    · obtain ⟨rfl, hrest⟩ := List.cons_prefix_cons.1 hprefix
      exact .inr ⟨done, last, hrest, hrobs⟩
  · rintro (hrobs | ⟨done, last, hprefix, hrobs⟩)
    · exact ⟨[], operation, List.cons_prefix_cons.2 ⟨rfl, List.nil_prefix⟩, hrobs⟩
    · exact ⟨operation :: done, last, List.cons_prefix_cons.2 ⟨rfl, hprefix⟩, hrobs⟩

theorem StaffedBut.run (h : tree.StaffedBut short) (hf : tree.Forest)
    (operations : List Operation) :
    (tree.run operations).2.StaffedBut fun id ↦ short id ∨ tree.RobbedAlong operations id := by
  induction operations generalizing tree short with
  | nil => exact fun id ↦ (h id).imp_right .inl
  | cons operation rest ih =>
      intro id
      show _ ∨ short id ∨ tree.RobbedAlong (operation :: rest) id
      rw [robbedAlong_cons, ← or_assoc (a := short id)]
      exact ih (h.perform hf operation) (hf.perform operation) id

theorem staffedBut_start {catalog : Catalog} {settings : Settings}
    (h : start catalog settings = .ok tree) : tree.StaffedBut fun _ ↦ False := by
  refine of_start ?_ h
  have hempty : ({ catalog, settings } : Tree).StaffedBut fun _ ↦ False := by
    intro id
    refine .inl (staffed_of_not_liveNode (not_liveNode_iff.2 ?_))
    exact node?_empty catalog settings id
  have hbase : ({ catalog, settings } : Tree).ParentsKnown := fun c p hup ↦
    absurd (node?_empty catalog settings c)
      (Option.isSome_iff_ne_none.1 (liveNode_of_parent?_eq_some hup))
  have hdead : ¬({ catalog, settings } : Tree).Known ⟨0⟩ := Nat.not_lt_zero _
  have hbeside := beside_insertNode (forest_single catalog settings catalog.root)
  have hcheck := catalog.check_of_mem catalog.root_mem
  exact (Staffs.create.build makes_create hbase hdead hcheck hbeside
    (hempty.insertNode catalog.root)).imp (fun _ _ ha ↦ ha) fun _ _ _ ↦ trivial

/-- After any history, with any faults in it, a node that is alive has all the children that its
kind requires, unless one of its children has been removed on the way when it had none to spare.
Such a removal is carried out, and leaves the node with too few. -/
theorem staffed_run {catalog : Catalog} {settings : Settings} {tree : Tree}
    (hstart : start catalog settings = .ok tree) (operations : List Operation) {final : Tree}
    (hfinal : (tree.run operations).2 = final) :
    (∀ id, final.Staffed id ∨ tree.RobbedAlong operations id) ∧
      ∀ operation id, final.Robs operation id → ¬(final.perform operation).2.Staffed id := by
  have hf : final.Forest := hfinal ▸ (forest_start hstart).run operations
  refine ⟨fun id ↦ ?_, fun operation id ↦ hf.not_staffed_of_robs⟩
  rw [← hfinal]
  exact ((staffedBut_start hstart).run (forest_start hstart) operations id).imp_right
    fun h ↦ h.resolve_left fun hnone ↦ hnone

/-- An object that becomes a generator has the child that a generator requires, until that child is
removed. -/
theorem staffed_run_standard :
    let final := (standardTree.run [.addByCategory ⟨0⟩ .object, .retype ⟨1⟩ "g"]).2
    final.LiveNode ⟨2⟩ ∧ final.Staffed ⟨2⟩ ∧ final.Robs (.removeChild ⟨2⟩ ⟨3⟩) ⟨2⟩ ∧
      ¬(final.perform (.removeChild ⟨2⟩ ⟨3⟩)).2.Staffed ⟨2⟩ := by
  intro final
  have hlive : final.LiveNode ⟨2⟩ := by
    decide +kernel
  have hchildren : final.readNode Node.children [] ⟨2⟩ = [⟨3⟩] := by
    decide +kernel
  have hrequired : final.readNode (·.kind.minChildren) 0 ⟨2⟩ = 1 := by
    decide +kernel
  have haudience : final.audience (.children ⟨2⟩) = [] := by
    decide +kernel
  obtain ⟨node, hn⟩ := liveNode_iff.1 hlive
  rw [readNode_of_some hn] at hchildren hrequired
  obtain ⟨hstaffed, hshort⟩ := staffed_run start_standard
    [.addByCategory ⟨0⟩ .object, .retype ⟨1⟩ "g"] rfl
  have hrobs : final.Robs (.removeChild ⟨2⟩ ⟨3⟩) ⟨2⟩ := by
    refine ⟨⟨3⟩, node, .inl rfl, hn, ?_, ?_, ?_⟩
    · simp [hchildren]
    · simp [hchildren, hrequired]
    · rw [rehearse, haudience]
      rfl
  refine ⟨hlive, (hstaffed ⟨2⟩).resolve_right ?_, hrobs, hshort _ _ hrobs⟩
  rintro ⟨done, operation, hprefix, child, _, hop, -⟩
  have hmem := hprefix.subset (List.mem_append_right _ (List.mem_singleton_self operation))
  rcases hop with rfl | rfl
  · simp at hmem
  · simp at hmem

/-- A generator requires its one child, which is removed all the same. As a generator has no other
child, no count of them stands on the wire, and nothing there says that the child is missing. -/
theorem required_child_removed :
    let last := standardTree.run
      [.addByCategory ⟨0⟩ .object, .retype ⟨1⟩ "g", .removeChild ⟨2⟩ ⟨3⟩]
    last.1 = [.ok (.outcome .applied), .ok (.outcome .applied), .ok (.outcome .applied)] ∧
      last.2.kind? ⟨2⟩ = Catalog.standard.find? .object "g" ∧
      last.2.readNode (·.kind.minChildren) 0 ⟨2⟩ = 1 ∧ last.2.children ⟨2⟩ = [] ∧
      last.2.line = "1 g 0 0" := by
  intro last
  refine ⟨?_, ?_, ?_, ?_, ?_⟩
  · decide +kernel
  · decide +kernel
  · decide +kernel
  · decide +kernel
  · decide +kernel

end Tree

end LightTree
