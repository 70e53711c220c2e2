import LightTree.Proofs.Forest

/-!
# Placing nodes in a forest

A new node stands alone. A node without a parent may be listed by a node that it does not stand
above, at the end of its children or in the place of one of them, and a child may be taken out. The
node that was replaced or taken out is the only one that is not listed any more.
-/

namespace LightTree

open Relation

theorem mem_replace_iff {α : Type} [BEq α] [LawfulBEq α] {list : List α} {old new : α}
    (hn : list.Nodup) (hold : old ∈ list) {x : α} :
    x ∈ list.replace old new ↔ x = new ∨ x ∈ list ∧ x ≠ old := by
  obtain ⟨front, back, rfl⟩ := List.append_of_mem hold
  obtain ⟨hmid, -⟩ := List.nodup_cons.1 (List.nodup_middle.1 hn)
  have hfront : old ∉ front := fun h ↦ hmid (List.mem_append_left _ h)
  have hback : old ∉ back := fun h ↦ hmid (List.mem_append_right _ h)
  rw [List.replace_append_right hfront, List.replace_cons_self]
  simp only [List.mem_append, List.mem_cons]
  constructor
  · rintro (hx | rfl | hx)
    · exact .inr ⟨.inl hx, fun he ↦ hfront (he ▸ hx)⟩
    · exact .inl rfl
    · exact .inr ⟨.inr (.inr hx), fun he ↦ hback (he ▸ hx)⟩
  · rintro (rfl | ⟨hx | rfl | hx, hne⟩)
    · exact .inr (.inl rfl)
    · exact .inl hx
    · exact absurd rfl hne
    · exact .inr (.inr hx)

theorem nodup_replace {α : Type} [BEq α] [LawfulBEq α] {list : List α} {old new : α}
    (hn : list.Nodup) (hold : old ∈ list) (hnew : new ∉ list) : (list.replace old new).Nodup := by
  obtain ⟨front, back, rfl⟩ := List.append_of_mem hold
  obtain ⟨hmid, hrest⟩ := List.nodup_cons.1 (List.nodup_middle.1 hn)
  have hfront : old ∉ front := fun h ↦ hmid (List.mem_append_left _ h)
  rw [List.replace_append_right hfront, List.replace_cons_self, List.nodup_middle,
    List.nodup_cons]
  refine ⟨fun h ↦ hnew ?_, hrest⟩
  rcases List.mem_append.1 h with h | h
  · exact List.mem_append_left _ h
  · exact List.mem_append_right _ (List.mem_cons_of_mem _ h)

namespace Tree

/-! ## Children and parents -/

def mapChildren (tree : Tree) (id : NodeId) (f : List NodeId → List NodeId) : Tree :=
  tree.updateNode id fun node ↦ { node with children := f node.children }

def setParent (tree : Tree) (id parent : NodeId) : Tree :=
  tree.updateNode id ({ · with parent := some parent })

variable {tree after : Tree} {parent child : NodeId} {f : List NodeId → List NodeId}

@[simp] theorem parent?_mapChildren (tree : Tree) (id : NodeId) (f : List NodeId → List NodeId) :
    (tree.mapChildren id f).parent? = tree.parent? := by
  rw [parent?_eq_readNode, parent?_eq_readNode]
  refine readNode_updateNode_of_keeps ?_ id none
  exact fun _ ↦ rfl

@[simp] theorem kind?_mapChildren (tree : Tree) (id : NodeId) (f : List NodeId → List NodeId) :
    (tree.mapChildren id f).kind? = tree.kind? := by
  refine readNode_updateNode_of_keeps ?_ id none
  exact fun _ ↦ rfl

@[simp] theorem liveNode_mapChildren (tree : Tree) (id : NodeId) (f : List NodeId → List NodeId)
    (x : NodeId) : (tree.mapChildren id f).LiveNode x ↔ tree.LiveNode x :=
  liveNode_updateNode tree id _ x

theorem children_mapChildren (hl : tree.LiveNode parent) (x : NodeId) :
    (tree.mapChildren parent f).children x =
      if x = parent then f (tree.children parent) else tree.children x := by
  obtain ⟨node, hn⟩ := liveNode_iff.1 hl
  unfold children mapChildren
  rw [node?_updateNode]
  by_cases he : x = parent
  · subst he
    simp [hn]
  · simp [he, Ne.symm he]

@[simp] theorem children_setParent (tree : Tree) (id parent : NodeId) :
    (tree.setParent id parent).children = tree.children := by
  rw [children_eq_readNode, children_eq_readNode]
  refine readNode_updateNode_of_keeps ?_ id []
  exact fun _ ↦ rfl

@[simp] theorem kind?_setParent (tree : Tree) (id parent : NodeId) :
    (tree.setParent id parent).kind? = tree.kind? := by
  refine readNode_updateNode_of_keeps ?_ id none
  exact fun _ ↦ rfl

@[simp] theorem liveNode_setParent (tree : Tree) (id parent x : NodeId) :
    (tree.setParent id parent).LiveNode x ↔ tree.LiveNode x :=
  liveNode_updateNode tree id _ x

theorem parent?_setParent (hl : tree.LiveNode child) (x : NodeId) :
    (tree.setParent child parent).parent? x =
      if x = child then some parent else tree.parent? x := by
  obtain ⟨node, hn⟩ := liveNode_iff.1 hl
  unfold parent? setParent
  rw [node?_updateNode]
  by_cases he : x = child
  · subst he
    simp [hn]
  · simp [he, Ne.symm he]

theorem ascends_setParent (hl : tree.LiveNode child) {x y : NodeId} :
    (tree.setParent child parent).Ascends x y ↔
      x = child ∧ y = parent ∨ x ≠ child ∧ tree.Ascends x y := by
  unfold Ascends
  rw [parent?_setParent hl]
  split
  · next he => simp [he, eq_comm]
  · next hne => simp [hne]

theorem ascends_mapChildren {id : NodeId} : (tree.mapChildren id f).Ascends = tree.Ascends := by
  unfold Ascends
  rw [parent?_mapChildren]

/-! ## Placing a child -/

/-- A node without a parent that may be placed below another one. -/
structure Placeable (tree : Tree) (parent child : NodeId) : Prop where
  parent_live : tree.LiveNode parent
  child_live : tree.LiveNode child
  parentless : tree.parent? child = none
  not_root : child ≠ tree.root
  not_above : ¬ReflTransGen tree.Ascends parent child
  typed : ∀ kind childKind, tree.kind? parent = some kind → tree.kind? child = some childKind →
    childKind.category = kind.childCategory ∧ kind.childCategory ≠ .nothing

theorem Placeable.ne (h : tree.Placeable parent child) : parent ≠ child :=
  fun he ↦ h.not_above (he ▸ .refl)

theorem Forest.unlisted (h : tree.Forest) (hparent : tree.parent? child = none) (p : NodeId) :
    child ∉ tree.children p :=
  fun hc ↦ Option.some_ne_none p ((h.mem_children_iff.1 hc).symm.trans hparent)

/-- The second tree lists other children below a parent: the `new` ones have been placed there, and
the `gone` ones are missing. -/
structure Relisted (tree : Tree) (parent : NodeId) (new gone : NodeId → Prop) (after : Tree) :
    Prop where
  root : after.root = tree.root
  liveNode : ∀ x, after.LiveNode x ↔ tree.LiveNode x
  kind? : after.kind? = tree.kind?
  other : ∀ p, p ≠ parent → after.children p = tree.children p
  mem : ∀ x, x ∈ after.children parent ↔ new x ∨ x ∈ tree.children parent ∧ ¬gone x
  ascends : ∀ x p, after.Ascends x p ↔ new x ∧ p = parent ∨ ¬new x ∧ tree.Ascends x p
  placeable : ∀ x, new x → tree.Placeable parent x

theorem Relisted.listed {new gone : NodeId → Prop} (hr : tree.Relisted parent new gone after)
    (h : tree.Forest) {p c : NodeId} (hc : c ∈ after.children p) :
    new c ∧ p = parent ∨ ¬new c ∧ c ∈ tree.children p := by
  have hold : ∀ {q}, c ∈ tree.children q → ¬new c := fun hq hnew ↦
    h.unlisted (hr.placeable c hnew).parentless _ hq
  by_cases hp : p = parent
  · subst hp
    rcases (hr.mem c).1 hc with hnew | ⟨hc, _⟩
    · exact .inl ⟨hnew, rfl⟩
    · exact .inr ⟨hold hc, hc⟩
  · rw [hr.other p hp] at hc
    exact .inr ⟨hold hc, hc⟩

/-- Children that are placed at the end of a forest leave those stray that they displace. -/
theorem Forest.relist {new gone : NodeId → Prop} (h : tree.Forest)
    (hr : tree.Relisted parent new gone after) (hnodup : (after.children parent).Nodup)
    (hfits : ∀ kind most, tree.kind? parent = some kind → kind.maxChildren = some most →
      (after.children parent).length ≤ most) : after.ForestBut (fun _ ↦ False) gone := by
  refine ⟨?_, ?_, fun p c hc ↦ .inl ?_, fun c p hcp ↦ ?_, fun p ↦ ?_, fun x hx ↦ ?_,
    fun p kind most hk hmost ↦ ?_, fun p c kind childKind hc hk hck ↦ ?_⟩
  · rw [hr.root, hr.liveNode]
    exact h.root_live
  · refine Option.eq_none_iff_forall_ne_some.2 fun p hp ↦ ?_
    rw [hr.root] at hp
    rcases (hr.ascends tree.root p).1 hp with ⟨hnew, _⟩ | ⟨_, hp⟩
    · exact (hr.placeable tree.root hnew).not_root rfl
    · exact Option.some_ne_none p (hp.symm.trans h.root_parent)
  · rw [hr.ascends]
    exact (hr.listed h hc).imp_right fun ⟨hn, hold⟩ ↦ ⟨hn, h.mem_children_iff.1 hold⟩
  · by_cases hgone : gone c
    · exact .inr hgone
    · left
      by_cases hp : p = parent
      · subst hp
        refine (hr.mem c).2 (((hr.ascends c p).1 hcp).imp And.left fun ⟨_, hup⟩ ↦ ?_)
        exact ⟨h.mem_children_iff.2 hup, hgone⟩
      · rw [hr.other p hp]
        rcases (hr.ascends c p).1 hcp with ⟨_, he⟩ | ⟨_, hup⟩
        · exact absurd he hp
        · exact h.mem_children_iff.2 hup
  · by_cases hp : p = parent
    · exact hp ▸ hnodup
    · exact hr.other p hp ▸ h.nodup p
  · -- A new step leads to the parent, from which the old steps do not lead to a new child.
    have hsteps : ∀ a b, after.Ascends a b → tree.Ascends a b ∨ new a ∧ b = parent :=
      fun a b hab ↦ ((hr.ascends a b).1 hab).symm.imp_left And.right
    exact acyclic_of_new_edges hsteps (fun a ha ↦ (hr.placeable a ha).not_above) h.acyclic x hx
  · rw [hr.kind?] at hk
    by_cases hp : p = parent
    · subst hp
      exact hfits kind most hk hmost
    · rw [hr.other p hp]
      exact h.fits p kind most hk hmost
  · rw [hr.kind?] at hk hck
    rcases hr.listed h hc with ⟨hnew, rfl⟩ | ⟨_, hold⟩
    · exact (hr.placeable c hnew).typed kind childKind hk hck
    · exact h.typed p c kind childKind hold hk hck

/-- A child is placed below a parent whose children change. -/
theorem Placeable.relisted (hp : tree.Placeable parent child) {gone : NodeId → Prop}
    (hmem : ∀ x, x ∈ f (tree.children parent) ↔ x = child ∨ x ∈ tree.children parent ∧ ¬gone x) :
    tree.Relisted parent (· = child) gone
      ((tree.mapChildren parent f).setParent child parent) where
  root := rfl
  liveNode x := by rw [liveNode_setParent, liveNode_mapChildren]
  kind? := by rw [kind?_setParent, kind?_mapChildren]
  other p hne := by
    rw [children_setParent, children_mapChildren hp.parent_live, if_neg hne]
  mem x := by
    rw [children_setParent, children_mapChildren hp.parent_live, if_pos rfl]
    exact hmem x
  ascends x p := by
    rw [ascends_setParent ((liveNode_mapChildren ..).2 hp.child_live), ascends_mapChildren]
  placeable x hx := hx ▸ hp

theorem room_of_accepts {node : Node} {category : Category} (h : node.accepts category = true) :
    (∀ most, node.kind.maxChildren = some most → node.children.length < most) ∧
      category = node.kind.childCategory ∧ node.kind.childCategory ≠ .nothing := by
  unfold Node.accepts at h
  simp only [Bool.and_eq_true, Bool.not_eq_true', beq_iff_eq, bne_iff_ne] at h
  obtain ⟨⟨hroom, hcategory⟩, hsome⟩ := h
  refine ⟨fun most hmost ↦ ?_, hcategory, hcategory ▸ hsome⟩
  simpa [Node.isFull, hmost] using hroom

theorem Forest.placeable (h : tree.Forest) (hc : tree.canAttach parent child = true) :
    tree.Placeable parent child ∧ ∀ kind most, tree.kind? parent = some kind →
      kind.maxChildren = some most → (tree.children parent).length < most := by
  unfold canAttach at hc
  split at hc
  · next target node hp hn =>
      simp only [Bool.and_eq_true, Bool.not_eq_true', Option.isNone_iff_eq_none, bne_iff_ne] at hc
      obtain ⟨⟨⟨hparent, hroot⟩, habove⟩, haccepts⟩ := hc
      obtain ⟨hroom, htyped⟩ := room_of_accepts haccepts
      have hkind : ∀ {kind}, tree.kind? parent = some kind → kind = target.kind := by
        intro kind hk
        rw [kind?, readNode_of_some hp] at hk
        exact (Option.some.inj hk).symm
      refine ⟨⟨liveNode_of_some hp, liveNode_of_some hn, ?_, hroot, fun hup ↦ ?_, ?_⟩, ?_⟩
      · rw [parent?_eq_readNode, readNode_of_some hn, hparent]
      · have hmem := List.contains_iff_mem.2 (h.mem_lineage_iff.2 hup)
        exact Bool.false_ne_true (habove.symm.trans hmem)
      · intro kind childKind hk hck
        rw [kind?, readNode_of_some hn] at hck
        rw [hkind hk, ← Option.some.inj hck]
        exact htyped
      · intro kind most hk hmost
        rw [children_eq_readNode, readNode_of_some hp]
        exact hroom most (hkind hk ▸ hmost)
  · cases hc

theorem adopt_eq (tree : Tree) (parent child : NodeId) :
    tree.adopt parent child = (tree.mapChildren parent (· ++ [child])).setParent child parent :=
  rfl

theorem children_adopt (hl : tree.LiveNode parent) :
    (tree.adopt parent child).children parent = tree.children parent ++ [child] := by
  rw [adopt_eq, children_setParent, children_mapChildren hl, if_pos rfl]

theorem Forest.adopt (h : tree.Forest) (hc : tree.canAttach parent child = true) :
    (tree.adopt parent child).Forest := by
  obtain ⟨hp, hroom⟩ := h.placeable hc
  have hr : tree.Relisted parent (· = child) (fun _ ↦ False) (tree.adopt parent child) := by
    rw [adopt_eq]
    apply hp.relisted
    simp [or_comm]
  apply h.relist hr
  · rw [children_adopt hp.parent_live, List.nodup_append_comm]
    exact List.nodup_cons.2 ⟨h.unlisted hp.parentless parent, h.nodup parent⟩
  · intro kind most hk hmost
    rw [children_adopt hp.parent_live, List.length_append]
    exact hroom kind most hk hmost

theorem supplant_eq (tree : Tree) (parent old new : NodeId) :
    tree.supplant parent old new =
      (tree.mapChildren parent (·.replace old new)).setParent new parent :=
  rfl

theorem children_supplant (hl : tree.LiveNode parent) (old new : NodeId) :
    (tree.supplant parent old new).children parent = (tree.children parent).replace old new := by
  rw [supplant_eq, children_setParent, children_mapChildren hl, if_pos rfl]

/-- A node in the place of a child leaves that child stray. -/
theorem Forest.supplant (h : tree.Forest) (hp : tree.Placeable parent child) {old : NodeId}
    (hold : old ∈ tree.children parent) :
    (tree.supplant parent old child).ForestBut (fun _ ↦ False) (· = old) := by
  have hr : tree.Relisted parent (· = child) (· = old) (tree.supplant parent old child) := by
    rw [supplant_eq]
    apply hp.relisted
    intro x
    exact mem_replace_iff (h.nodup parent) hold
  apply h.relist hr
  · rw [children_supplant hp.parent_live]
    exact nodup_replace (h.nodup parent) hold (h.unlisted hp.parentless parent)
  · intro kind most hk hmost
    rw [children_supplant hp.parent_live, List.length_replace]
    exact h.fits parent kind most hk hmost

theorem disown_eq (tree : Tree) (parent child : NodeId) :
    tree.disown parent child = tree.mapChildren parent (·.erase child) :=
  rfl

theorem children_disown (hl : tree.LiveNode parent) (child : NodeId) :
    (tree.disown parent child).children parent = (tree.children parent).erase child := by
  rw [disown_eq, children_mapChildren hl, if_pos rfl]

theorem ascends_disown (tree : Tree) (parent child : NodeId) :
    (tree.disown parent child).Ascends = tree.Ascends := by
  rw [disown_eq, ascends_mapChildren]

theorem Forest.relisted_disown (h : tree.Forest) (hl : tree.LiveNode parent) (child : NodeId) :
    tree.Relisted parent (fun _ ↦ False) (· = child) (tree.disown parent child) where
  root := rfl
  liveNode x := by rw [disown_eq, liveNode_mapChildren]
  kind? := by rw [disown_eq, kind?_mapChildren]
  other p hne := by rw [disown_eq, children_mapChildren hl, if_neg hne]
  mem x := by rw [children_disown hl, (h.nodup parent).mem_erase_iff, false_or, and_comm]
  ascends x p := by rw [ascends_disown, false_and, false_or, not_false_eq_true, true_and]
  placeable _ := False.elim

/-- A child that has been taken out is stray. -/
theorem Forest.disown (h : tree.Forest) (hc : child ∈ tree.children parent) :
    (tree.disown parent child).ForestBut (fun _ ↦ False) (· = child) := by
  have hl := liveNode_of_mem_children hc
  have hsub : ((tree.disown parent child).children parent).Sublist (tree.children parent) := by
    rw [children_disown hl]
    exact List.erase_sublist
  apply h.relist (h.relisted_disown hl child)
  · exact hsub.nodup (h.nodup parent)
  · intro kind most hk hmost
    exact hsub.length_le.trans (h.fits parent kind most hk hmost)

/-! ## New nodes -/

theorem kind?_insertNode (tree : Tree) (node : Node) (x : NodeId) :
    (tree.insertNode node).kind? x = if x = tree.nextNode then some node.kind else tree.kind? x :=
  readNode_insertNode tree node _ _ x

theorem children_insertNode (tree : Tree) (kind : NodeKind) :
    (tree.insertNode { kind }).children = tree.children := by
  funext x
  rw [children_eq_readNode, children_eq_readNode, readNode_insertNode]
  split
  · next he =>
      rw [readNode_of_none (not_liveNode_iff.1 (he ▸ tree.not_liveNode_nextNode))]
  · rfl

theorem parent?_insertNode (tree : Tree) (kind : NodeKind) :
    (tree.insertNode { kind }).parent? = tree.parent? := by
  funext x
  rw [parent?_eq_readNode, parent?_eq_readNode, readNode_insertNode]
  split
  · next he =>
      rw [readNode_of_none (not_liveNode_iff.1 (he ▸ tree.not_liveNode_nextNode))]
  · rfl

theorem Forest.insertNode (h : tree.Forest) (kind : NodeKind) :
    (tree.insertNode { kind }).Forest := by
  have hascends : (tree.insertNode { kind }).Ascends = tree.Ascends := by
    unfold Ascends
    rw [parent?_insertNode]
  refine ⟨?_, ?_, fun p c hc ↦ ?_, fun c p hp ↦ ?_, fun p ↦ ?_, ?_, ?_, ?_⟩
  · exact (liveNode_insertNode tree _ _).2 (.inr h.root_live)
  · rw [parent?_insertNode]
    exact h.root_parent
  · rw [children_insertNode] at hc
    rw [hascends]
    exact .inl (h.mem_children_iff.1 hc)
  · rw [hascends] at hp
    rw [children_insertNode]
    exact h.lists c p hp
  · rw [children_insertNode]
    exact h.nodup p
  · rw [hascends]
    exact h.acyclic
  · intro p k most hk hmost
    rw [kind?_insertNode] at hk
    rw [children_insertNode]
    split at hk
    · next he =>
        rw [children, not_liveNode_iff.1 (he ▸ tree.not_liveNode_nextNode)]
        exact Nat.zero_le most
    · exact h.fits p k most hk hmost
  · intro p c k childKind hc hk hck
    rw [children_insertNode] at hc
    have hp : p ≠ tree.nextNode := fun he ↦
      tree.not_liveNode_nextNode (he ▸ liveNode_of_mem_children hc)
    have hnew : c ≠ tree.nextNode := fun he ↦
      tree.not_liveNode_nextNode (he ▸ h.child_live hc)
    rw [kind?_insertNode, if_neg hp] at hk
    rw [kind?_insertNode, if_neg hnew] at hck
    exact h.typed p c k childKind hc hk hck

end Tree

end LightTree
