import LightTree.Proofs.Growth

/-!
# Reachable trees are forests

Every operation keeps a forest, with any identities, alive, dead or never handed out, and however it
ends. The first tree is a forest with one top.
-/

namespace LightTree

open Relation Edit

namespace Tree

variable {tree after : Tree} {parent child : NodeId}

/-! ## Operations -/

theorem keeps_forest_of_retains {α : Type} {edit : Edit α}
    (he : edit.Respects (Retains fun _ ↦ True)) : edit.Keeps Forest :=
  fun tree h ↦ (he tree).imp (fun _ _ ↦ ForestBut.of_retains h) fun _ _ ↦ ForestBut.of_retains h

theorem childrenChanged_keeps_forest (parent : NodeId) (refresh : Bool) :
    (childrenChanged parent refresh).Keeps Forest :=
  keeps_forest_of_retains ((steady_retains _).childrenChanged parent refresh)

theorem create_keeps_forest (kind : NodeKind) : (create kind).Keeps Forest :=
  fun tree h ↦ (makes_create kind tree h).imp (fun _ _ hm ↦ hm.2.forest) fun _ _ hm ↦ hm.1

theorem Forest.giveUp (h : tree.Forest) (child : NodeId) : (tree.giveUp child).Forest := by
  unfold Tree.giveUp
  split
  · next hd =>
      unfold isDetached at hd
      cases hn : tree.node? child with
      | none => simp [hn] at hd
      | some node =>
          simp only [hn, Bool.and_eq_true, bne_iff_ne, Option.isNone_iff_eq_none] at hd
          have hparent : tree.parent? child = none := by
            rw [parent?_eq_readNode, readNode_of_some hn, hd.2]
          exact h.releaseNode_of_unlisted hd.1 (fun _ ↦ False.elim) (fun _ ↦ False.elim)
            (h.unlisted hparent)
  · exact h

theorem addChild_keeps_forest (parent child : NodeId) : (addChild parent child).Keeps Forest := by
  intro tree h
  rw [meets_addChild]
  apply (attach_outcome parent child true tree).imp
  · rintro outcome after ⟨hignored, happlied⟩
    exact ⟨fun ho ↦ hignored ho ▸ h.giveUp child, fun ho ↦ (happlied ho).forest h⟩
  · rintro fault after (rfl | ha)
    · exact h.giveUp child
    · exact (ha.forest h).giveUp child

/-- A node that is missing from the children of its parent is listed nowhere. -/
theorem ForestBut.unlisted_of_ascends {broken stray : NodeId → Prop}
    (h : tree.ForestBut broken stray) (hup : tree.Ascends child parent)
    (hn : child ∉ tree.children parent) (p : NodeId) : child ∉ tree.children p := by
  intro hc
  rcases h.listed p child hc with hp | ⟨_, hdead⟩
  · exact hn (Option.some.inj (hup.symm.trans hp) ▸ hc)
  · exact hdead (liveNode_of_parent?_eq_some hup)

theorem Forest.ne_root_of_ascends (h : tree.Forest) (hup : tree.Ascends child parent) :
    child ≠ tree.root :=
  fun he ↦ Option.some_ne_none parent (hup.symm.trans (he ▸ h.root_parent))

theorem Forest.releaseNode_disown (h : tree.Forest) (hc : child ∈ tree.children parent) :
    ((tree.disown parent child).releaseNode child).Forest := by
  have hup := h.mem_children_iff.1 hc
  have hd := h.disown hc
  have hup' : (tree.disown parent child).Ascends child parent := by rwa [ascends_disown]
  have hgone : child ∉ (tree.disown parent child).children parent := by
    rw [children_disown (liveNode_of_mem_children hc)]
    exact (h.nodup parent).not_mem_erase
  exact hd.releaseNode_of_unlisted (h.ne_root_of_ascends hup) (fun _ ↦ False.elim) (fun _ hs ↦ hs)
    (hd.unlisted_of_ascends hup' hgone)

theorem removeChild_keeps_forest (parent child : NodeId) :
    (removeChild parent child).Keeps Forest := by
  intro tree h
  rw [meets_removeChild]
  exact ⟨fun _ ↦ h, fun hc ↦ ⟨fun _ _ ↦ h, fun _ ↦
    childrenChanged_keeps_forest parent true _ (h.releaseNode_disown hc)⟩⟩

theorem Forest.releaseNode_supplant (h : tree.Forest) {old new : NodeId}
    (hp : tree.Placeable parent new) (hold : old ∈ tree.children parent) :
    ((tree.supplant parent old new).releaseNode old).Forest := by
  have hup := h.mem_children_iff.1 hold
  have hs := h.supplant hp hold
  have hne : old ≠ new := fun he ↦ h.unlisted hp.parentless parent (he ▸ hold)
  have hlive := (liveNode_mapChildren tree parent (·.replace old new) new).2 hp.child_live
  have hup' : (tree.supplant parent old new).Ascends old parent := by
    rw [supplant_eq, ascends_setParent hlive, ascends_mapChildren]
    exact .inr ⟨hne, hup⟩
  have hgone : old ∉ (tree.supplant parent old new).children parent := by
    rw [children_supplant hp.parent_live, mem_replace_iff (h.nodup parent) hold]
    rintro (he | ⟨_, he⟩)
    · exact hne he
    · exact he rfl
  exact hs.releaseNode_of_unlisted (h.ne_root_of_ascends hup) (fun _ ↦ False.elim) (fun _ hs ↦ hs)
    (hs.unlisted_of_ascends hup' hgone)

/-- A new node stands above none of the old ones. -/
theorem Forest.not_ascends_beside (h : tree.Forest) {new : NodeId} {kind : NodeKind}
    (hlive : tree.LiveNode parent) (hnew : ¬tree.Known new)
    (hb : tree.Beside new kind (fun _ ↦ False) after) :
    ¬ReflTransGen after.Ascends parent new := by
  intro habove
  have hforest : after.Forest := hb.forest
  have hheads : after.Heads new parent := by
    refine reflTransGen_swap.1 (ReflTransGen.mono (fun a b hab ↦ ?_) _ _ habove)
    exact hforest.mem_children_iff.2 hab
  exact h.parentsKnown.not_heads hb.old hb.forest hnew hlive.known
    ((hb.old.liveNode hlive.known).2 hlive) hheads

/-- The new node fits in the place of an old one of its category. -/
theorem Forest.placeable_beside (h : tree.Forest) {new id : NodeId} {kind idKind : NodeKind}
    (hup : tree.Ascends id parent) (hkind : tree.kind? id = some idKind)
    (hcategory : kind.category = idKind.category) (hnew : ¬tree.Known new)
    (hb : tree.Beside new kind (fun _ ↦ False) after) : after.Placeable parent new := by
  have hlive := h.parent_live hup
  have hparent := hlive.known
  refine ⟨(hb.old.liveNode hparent).2 hlive, hb.live, hb.parentless, fun he ↦ ?_,
    h.not_ascends_beside hlive hnew hb, fun parentKind newKind hpk hnk ↦ ?_⟩
  · exact hnew (he ▸ hb.old.root ▸ h.root_live.known)
  · rw [hb.old.kind? hparent] at hpk
    rw [hb.kind] at hnk
    obtain ⟨hsame, hsome⟩ :=
      h.typed parent id parentKind idKind (h.mem_children_iff.2 hup) hpk hkind
    exact ⟨(Option.some.inj hnk ▸ hcategory).trans hsame, hsome⟩

theorem retype_keeps_forest (id : NodeId) (symbol : String) : (retype id symbol).Keeps Forest := by
  intro tree h
  refine meets_retype h fun node parent kind hn hparent hfind ↦ ⟨fun _ _ ↦ h, fun _ ↦ ?_⟩
  have hup : tree.Ascends id parent := by
    rw [Ascends, parent?_eq_readNode, readNode_of_some hn, hparent]
  have hkind : tree.kind? id = some node.kind := readNode_of_some hn _ _
  have hcategory : kind.category = node.kind.category := by
    have hp := List.find?_some hfind
    simp only [Bool.and_eq_true, beq_iff_eq] at hp
    exact hp.1
  refine (makes_create kind tree h).imp ?_ fun _ _ hm ↦ hm.1
  rintro new mid ⟨rfl, hb⟩
  have hp := h.placeable_beside hup hkind hcategory tree.not_known_nextNode hb
  have hmid : mid.Forest := hb.forest
  refine ⟨fun _ ↦ ?_, fun hold ↦ ?_⟩
  · exact hmid.releaseNode_of_unlisted hp.not_root (fun _ ↦ False.elim) (fun _ ↦ False.elim)
      (hmid.unlisted hb.parentless)
  · exact childrenChanged_keeps_forest parent true _ (hmid.releaseNode_supplant hp hold)

theorem invariant_forest : Invariant Forest (fun _ ↦ Forest) fun _ ↦ True where
  catalog _ _ _ _ := trivial
  create kind _ := create_keeps_forest kind
  addChild := addChild_keeps_forest
  removeChild := removeChild_keeps_forest
  retype := retype_keeps_forest
  mutate id _ hchange := keeps_forest_of_retains ((steady_retains _).mutate id hchange)
  appendElement id := keeps_forest_of_retains ((steady_retains _).appendElement id)
  removeElement id index := keeps_forest_of_retains ((steady_retains _).removeElement id index)

theorem Forest.perform (h : tree.Forest) (operation : Operation) :
    (tree.perform operation).2.Forest := by
  refine meets_const_iff.1 (invariant_forest.operation h operation
    (fun _ _ ↦ trivial) fun dependent source _ ↦ ?_)
  exact keeps_forest_of_retains ((steady_retains _).rebind dependent source) tree h

theorem Forest.run (h : tree.Forest) (operations : List Operation) :
    (tree.run operations).2.Forest := by
  induction operations generalizing tree with
  | nil => exact h
  | cons operation rest ih => exact ih (h.perform operation)

/-! ## The first tree -/

theorem forest_single (catalog : Catalog) (settings : Settings) (kind : NodeKind) :
    (({ catalog, settings } : Tree).insertNode { kind }).Forest := by
  have hchildren : ∀ p, (({ catalog, settings } : Tree).insertNode { kind }).children p = [] := by
    intro p
    rw [children_insertNode, children, node?_empty]
  have hparent : ∀ c, (({ catalog, settings } : Tree).insertNode { kind }).parent? c = none := by
    intro c
    rw [parent?_insertNode, parent?, node?_empty]
    rfl
  have hascends : ∀ c p, ¬(({ catalog, settings } : Tree).insertNode { kind }).Ascends c p :=
    fun c p hup ↦ Option.some_ne_none p (hup.symm.trans (hparent c))
  refine ⟨?_, hparent _, fun p c hc ↦ ?_, fun c p hup ↦ absurd hup (hascends c p), fun p ↦ ?_,
    fun id hup ↦ ?_, fun p k most _ _ ↦ ?_, fun p c k childKind hc _ _ ↦ ?_⟩
  · exact (liveNode_insertNode _ _ _).2 (.inl rfl)
  · exact absurd (hchildren p ▸ hc) List.not_mem_nil
  · rw [hchildren]
    exact List.nodup_nil
  · obtain ⟨p, hp, _⟩ := TransGen.head'_iff.1 hup
    exact hascends id p hp
  · rw [hchildren]
    exact Nat.zero_le most
  · exact absurd (hchildren p ▸ hc) List.not_mem_nil

theorem forest_start {catalog : Catalog} {settings : Settings}
    (h : start catalog settings = .ok tree) : tree.Forest := by
  refine of_start ?_ h
  have hdead : ∀ id, ¬({ catalog, settings } : Tree).Known id := fun _ hk ↦ Nat.not_lt_zero _ hk
  have hbase : ({ catalog, settings } : Tree).ParentsKnown := fun c p hup ↦
    absurd (node?_empty catalog settings c)
      (Option.isSome_iff_ne_none.1 (liveNode_of_parent?_eq_some hup))
  have hbeside := beside_insertNode (forest_single catalog settings catalog.root)
  exact (makes_create.build hbase (hdead _) catalog.root hbeside).imp
    (fun _ _ hb ↦ hb.forest) fun _ _ _ ↦ trivial

/-! ## What a forest says of its nodes -/

theorem lasting_root : Lasting fun tree after ↦ after.root = tree.root where
  refl _ := rfl
  trans h h' := h'.trans h
  insertField _ _ _ := rfl
  relink tree dependent source := (SameNodes.relink tree dependent source).root
  setActive _ _ _ _ := rfl
  push _ _ _ := rfl
  drop tree id f group := (SameNodes.drop tree id f group).root
  refresh _ := rfl
  addTop _ _ _ := rfl
  setValue _ _ _ _ _ _ _ := rfl
  insertNode _ _ := rfl
  adopt _ _ _ := rfl
  disown _ _ _ := rfl
  supplant _ _ _ _ := rfl
  releaseNode tree id := (releaseNode_shrinks tree id).root

theorem mem_liveNodes_iff {id : NodeId} {node : Node} :
    (id, node) ∈ tree.liveNodes ↔ tree.node? id = some node := by
  unfold liveNodes
  rw [List.mem_map]
  constructor
  · rintro ⟨⟨i, n⟩, hmem, heq⟩
    obtain ⟨rfl, rfl⟩ := Prod.mk.inj heq
    exact Store.mem_live_iff.1 hmem
  · exact fun hn ↦ ⟨(id.index, node), Store.mem_live_iff.2 hn, rfl⟩

theorem pairwise_liveNodes (tree : Tree) : tree.liveNodes.Pairwise fun a b ↦ a.1 ≠ b.1 := by
  unfold liveNodes Store.live
  rw [List.pairwise_map, List.pairwise_filterMap]
  refine List.nodup_range.imp fun {i j} hij a ha b hb heq ↦ hij ?_
  obtain ⟨_, _, rfl⟩ := Option.map_eq_some_iff.1 ha
  obtain ⟨_, _, rfl⟩ := Option.map_eq_some_iff.1 hb
  exact congrArg NodeId.index heq

theorem Forest.nodup_listed (h : tree.Forest) :
    (tree.liveNodes.flatMap (·.2.children)).Nodup := by
  have hchildren : ∀ entry ∈ tree.liveNodes, entry.2.children = tree.children entry.1 := by
    rintro ⟨id, node⟩ hmem
    rw [children_eq_readNode, readNode_of_some (mem_liveNodes_iff.1 hmem)]
  refine List.nodup_flatMap.2 ⟨fun entry hentry ↦ ?_, ?_⟩
  · rw [hchildren entry hentry]
    exact h.nodup entry.1
  · refine (pairwise_liveNodes tree).imp_of_mem fun {a b} ha hb hne x hxa hxb ↦ hne ?_
    have hxa : x ∈ tree.children a.1 := hchildren a ha ▸ hxa
    have hxb : x ∈ tree.children b.1 := hchildren b hb ▸ hxb
    exact Option.some.inj ((h.mem_children_iff.1 hxa).symm.trans (h.mem_children_iff.1 hxb))

theorem Forest.parent?_getLast_lineage (h : tree.Forest) (id : NodeId) :
    tree.parent? ((tree.lineage id).getLast (chain_ne_nil _ _ _)) = none :=
  next_getLast_chain (fun id ↦ (tree.above id).card) h.card_above_lt (tree.card_above_le id)

theorem Forest.liveNode_of_mem_lineage (h : tree.Forest) {id x : NodeId} (hl : tree.LiveNode id)
    (hx : x ∈ tree.lineage id) : tree.LiveNode x := by
  have hreach := h.mem_lineage_iff.1 hx
  induction hreach with
  | refl => exact hl
  | tail _ hup => exact h.parent_live hup

theorem Forest.wellFounded_children (h : tree.Forest) :
    WellFounded fun child parent : NodeId ↦ child ∈ tree.children parent := by
  refine Subrelation.wf ?_ (measure fun id ↦ tree.nodes.size - (tree.above id).card).wf
  intro child parent hc
  have hlt := h.card_above_lt child parent (h.mem_children_iff.1 hc)
  have hle := tree.card_above_le child
  show tree.nodes.size - _ < tree.nodes.size - _
  omega

theorem Forest.wellFounded_parent (h : tree.Forest) :
    WellFounded fun parent child : NodeId ↦ tree.parent? child = some parent :=
  Subrelation.wf (fun {parent child} hp ↦ h.card_above_lt child parent hp)
    (measure fun id ↦ (tree.above id).card).wf

/-- The nodes of a reachable tree always form a forest. The root stays alive and at the top, every
listed child is alive, names the node that lists it and is listed nowhere else, every node is listed
by its parent, and each walk upwards or downwards ends. No node has more children than its kind
allows, and all are of the category that its kind asks for. -/
theorem forest_run {catalog : Catalog} {settings : Settings} {tree : Tree}
    (hstart : start catalog settings = .ok tree) (operations : List Operation) {final : Tree}
    (hfinal : (tree.run operations).2 = final) :
    (∃ root, final.node? tree.root = some root ∧ root.parent = none) ∧
    (final.liveNodes.flatMap (·.2.children)).Nodup ∧
    (WellFounded fun parent child : NodeId ↦ final.parent? child = some parent) ∧
    (WellFounded fun child parent : NodeId ↦ child ∈ final.children parent) ∧
    ∀ id node, final.node? id = some node →
      (∀ child ∈ node.children, ∃ below, final.node? child = some below ∧
        below.parent = some id ∧ below.kind.category = node.kind.childCategory ∧
        node.kind.childCategory ≠ .nothing) ∧
      (∀ parent, node.parent = some parent →
        ∃ above, final.node? parent = some above ∧ id ∈ above.children) ∧
      (∃ top above, (final.lineage id).getLast? = some top ∧ final.node? top = some above ∧
        above.parent = none) ∧
      ∀ most, node.kind.maxChildren = some most → node.children.length ≤ most := by
  have h : final.Forest := hfinal ▸ (forest_start hstart).run operations
  have hroot : final.root = tree.root := hfinal ▸ lasting_root.run tree operations
  have hparent : ∀ {x n}, final.node? x = some n → final.parent? x = n.parent := by
    intro x n hn
    rw [parent?_eq_readNode, readNode_of_some hn]
  have hchildren : ∀ {x n}, final.node? x = some n → final.children x = n.children := by
    intro x n hn
    rw [children_eq_readNode, readNode_of_some hn]
  have hkind : ∀ {x n}, final.node? x = some n → final.kind? x = some n.kind := fun hn ↦
    readNode_of_some hn _ _
  refine ⟨?_, h.nodup_listed, h.wellFounded_parent, h.wellFounded_children, fun id node hn ↦
    ⟨fun child hc ↦ ?_, fun parent hp ↦ ?_, ?_, fun most hmost ↦ ?_⟩⟩
  · obtain ⟨root, hr⟩ := liveNode_iff.1 (hroot ▸ h.root_live)
    exact ⟨root, hr, (hparent hr).symm.trans (hroot ▸ h.root_parent)⟩
  · rw [← hchildren hn] at hc
    obtain ⟨below, hb⟩ := liveNode_iff.1 (h.child_live hc)
    exact ⟨below, hb, (hparent hb).symm.trans (h.mem_children_iff.1 hc),
      h.typed id child node.kind below.kind hc (hkind hn) (hkind hb)⟩
  · have hup : final.Ascends id parent := (hparent hn).trans hp
    obtain ⟨above, ha⟩ := liveNode_iff.1 (h.parent_live hup)
    exact ⟨above, ha, hchildren ha ▸ h.mem_children_iff.2 hup⟩
  · have hlast := List.getLast_mem (chain_ne_nil final.parent? final.nodes.size id)
    obtain ⟨above, ha⟩ := liveNode_iff.1 (h.liveNode_of_mem_lineage (liveNode_of_some hn) hlast)
    exact ⟨_, above, List.getLast?_eq_some_getLast _, ha,
      (hparent ha).symm.trans (h.parent?_getLast_lineage id)⟩
  · exact hchildren hn ▸ h.fits id node.kind most (hkind hn) hmost

/-- Requests that name nodes never handed out or above themselves leave an object below the root. -/
theorem forest_run_standard :
    ∃ object, (standardTree.run [.addByCategory ⟨0⟩ .object, .addChild ⟨0⟩ ⟨7⟩, .addChild ⟨1⟩ ⟨0⟩,
        .detach ⟨9⟩]).2.node? ⟨1⟩ = some object ∧
      ∃ root, (standardTree.run [.addByCategory ⟨0⟩ .object, .addChild ⟨0⟩ ⟨7⟩,
        .addChild ⟨1⟩ ⟨0⟩, .detach ⟨9⟩]).2.node? ⟨0⟩ = some root ∧ ⟨1⟩ ∈ root.children := by
  refine ⟨_, rfl, ?_⟩
  obtain ⟨-, -, -, -, hnodes⟩ := forest_run start_standard [.addByCategory ⟨0⟩ .object,
    .addChild ⟨0⟩ ⟨7⟩, .addChild ⟨1⟩ ⟨0⟩, .detach ⟨9⟩] rfl
  exact (hnodes ⟨1⟩ _ rfl).2.1 ⟨0⟩ rfl

end Tree

end LightTree
