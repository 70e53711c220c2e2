import LightTree.Proofs.Clearance
import LightTree.Proofs.Elements

/-!
# Nodes have the fields of their kind

The fields at the top of a node are those that its kind declares, in order. Each is formed by its
declaration and linked to the field of its node that the declaration names. A node is built so, and
what is left of it stays so.
-/

namespace LightTree

open Edit

namespace Tree

/-- A name means a field at the top of a node that has the name. -/
def Tops (tree : Tree) (node : NodeId) (name : String) (target : FieldId) : Prop :=
  target ∈ tree.topFields node ∧ tree.name? target = some name

/-- The fields at the top of a node are those of the declarations, in order. -/
def Furnished (tree : Tree) (node : NodeId) (decls : List FieldDecl) : Prop :=
  List.Forall₂ (fun decl x ↦ tree.Formed decl x ∧ tree.Wired (tree.Tops node) decl x) decls
    (tree.topFields node)

variable {tree mid after : Tree} {id : FieldId} {node parent child : NodeId}
  {decls : List FieldDecl}

theorem Wired.of_endures (he : tree.Endures after) (ht : tree.Owned) (ha : after.Owned)
    (htop : ∀ x ∈ tree.topFields node, x ∈ after.topFields node) {decl : FieldDecl}
    (h : tree.Wired (tree.Tops node) decl id) (hid : tree.Live id) (hl : after.Live id) :
    after.Wired (after.Tops node) decl id := by
  apply (h.of_keepsWires he.toKeepsWires ht ha hid hl).imp
  rintro name target ⟨hmem, hname⟩
  have hlive := ht.tops_live node target hmem
  have hlive' := ha.tops_live node target (htop target hmem)
  exact ⟨htop target hmem, (he.name? hlive hlive').trans hname⟩

namespace Furnished

theorem of_endures (h : tree.Furnished node decls) (he : tree.Endures after) (ht : tree.Owned)
    (ha : after.Owned) (htop : after.topFields node = tree.topFields node) :
    after.Furnished node decls := by
  rw [Furnished, htop]
  have hlive : ∀ x ∈ tree.topFields node, tree.Live x ∧ after.Live x := fun x hx ↦
    ⟨ht.tops_live node x hx, ha.tops_live node x (htop ▸ hx)⟩
  refine List.forall₂_iff_get.2 ⟨h.length_eq, fun i hi hi' ↦ ?_⟩
  obtain ⟨hold, hnew⟩ := hlive _ (List.get_mem (tree.topFields node) ⟨i, hi'⟩)
  obtain ⟨hformed, hwired⟩ := h.get hi hi'
  exact ⟨hformed.of_endures he ha hnew,
    hwired.of_endures he ht ha (fun x hx ↦ htop ▸ hx) hold hnew⟩

/-- A node may be handed the field of the next declaration. -/
theorem addTop (h : tree.Furnished node decls) (ht : tree.Owned) (hnode : tree.LiveNode node)
    (hid : tree.Loose id) {decl : FieldDecl} (hformed : tree.Formed decl id)
    (hwired : tree.Wired (tree.Tops node) decl id) :
    (tree.addTop node id).Furnished node (decls ++ [decl]) := by
  have ha := ht.addTop hnode hid
  have he : tree.Endures (tree.addTop node id) := .of_field? rfl rfl
  have htop : (tree.addTop node id).topFields node = tree.topFields node ++ [id] := by
    rw [topFields_addTop tree hnode, if_pos rfl]
  have hmem : ∀ x ∈ tree.topFields node, x ∈ (tree.addTop node id).topFields node :=
    fun x hx ↦ htop ▸ List.mem_append_left _ hx
  have hkept : ∀ decl x, tree.Formed decl x ∧ tree.Wired (tree.Tops node) decl x →
      (tree.addTop node id).Formed decl x ∧
        (tree.addTop node id).Wired ((tree.addTop node id).Tops node) decl x := by
    rintro decl x ⟨hf, hw⟩
    have hlive := hf.bears.live
    exact ⟨hf.of_endures he ha hlive, hw.of_endures he ht ha hmem hlive hlive⟩
  rw [Furnished, htop]
  exact List.rel_append (h.imp hkept) (.cons (hkept decl id ⟨hformed, hwired⟩) .nil)

end Furnished

/-- The elements of lists and the fields of nodes are as declared. Some nodes may be exempt. -/
structure Shaped (catalog : Catalog) (exempt : NodeId → Prop) (tree : Tree) : Prop
    extends tree.Grouped where
  catalog_eq : tree.catalog = catalog
  furnished : ∀ id node, tree.node? id = some node → ¬exempt id →
    node.kind ∈ catalog.kinds ∧ tree.Furnished id node.kind.fields

namespace Shaped

variable {catalog : Catalog} {exempt : NodeId → Prop}

theorem step (h : tree.Shaped catalog exempt) (hg : after.Grouped) (he : tree.Endures after)
    (hk : tree.KeepsTops after) : after.Shaped catalog exempt where
  toGroupedBy := hg
  catalog_eq := hk.catalog.trans h.catalog_eq
  furnished id new hn hexempt := by
    obtain ⟨old, ho, hkind, hfields⟩ := hk.node id new hn
    obtain ⟨hmem, hfurnished⟩ := h.furnished id old ho hexempt
    rw [hkind]
    refine ⟨hmem, hfurnished.of_endures he h.owned hg.owned ?_⟩
    rw [topFields_eq_readNode, topFields_eq_readNode, readNode_of_some hn, readNode_of_some ho,
      hfields]

theorem of_nodes (h : tree.Shaped catalog exempt) (ha : after.Sound)
    (hfields : after.field? = tree.field?) (hsize : after.fields.size = tree.fields.size)
    (hk : tree.KeepsTops after) : after.Shaped catalog exempt :=
  h.step (Grouped.of_field? h.toGroupedBy ha hfields hsize) (.of_field? hfields hsize) hk

theorem of_shrinks (h : tree.Shaped catalog exempt) (ha : after.Sound) (hs : tree.Shrinks after) :
    after.Shaped catalog exempt :=
  h.step (Grouped.of_shrinks h.toGroupedBy ha hs) (.of_shrinks hs) (.of_shrinks hs)

theorem releaseNode (h : tree.Shaped catalog exempt) (id : NodeId) :
    (tree.releaseNode id).Shaped catalog exempt :=
  h.of_shrinks (h.toSound.releaseNode id) (releaseNode_shrinks tree id)

theorem adopt (h : tree.Shaped catalog exempt) (parent child : NodeId) :
    (tree.adopt parent child).Shaped catalog exempt :=
  h.of_nodes (h.toSound.adopt parent child) rfl rfl (.adopt tree parent child)

theorem disown (h : tree.Shaped catalog exempt) (parent child : NodeId) :
    (tree.disown parent child).Shaped catalog exempt :=
  h.of_nodes (h.toSound.disown parent child) rfl rfl (.disown tree parent child)

theorem supplant (h : tree.Shaped catalog exempt) (parent old new : NodeId) :
    (tree.supplant parent old new).Shaped catalog exempt :=
  h.of_nodes (h.toSound.supplant parent old new) rfl rfl (.supplant tree parent old new)

/-- What a cascade may do changes no node and no form. -/
theorem of_leads (h : tree.Shaped catalog exempt) (hl : tree.whole.Leads tree after)
    (hg : after.Grouped) : after.Shaped catalog exempt :=
  h.step hg (.of_leads h.toSound hl) (.of_sameNodes (hl.framed h.toSound.governs).nodes)

theorem settle (h : tree.Shaped catalog exempt) (source : Source) :
    (settle source).Meets tree (fun _ ↦ Shaped catalog exempt) fun _ _ ↦ True :=
  ((h.toSound.settle_stays source).and
    (settle_keepsGroups durable_formsElement source tree h.toGroupedBy)).imp
    (fun _ _ ha ↦ h.of_leads ha.1 ha.2) fun _ _ _ ↦ trivial

theorem childrenChanged (h : tree.Shaped catalog exempt) (parent : NodeId) (refresh : Bool) :
    (childrenChanged parent refresh).Meets tree (fun _ ↦ Shaped catalog exempt)
      fun _ _ ↦ True := by
  have hgroups := childrenChanged_keepsGroups durable_formsElement parent refresh
  exact ((h.toSound.childrenChanged_stays parent refresh).and (hgroups tree h.toGroupedBy)).imp
    (fun _ _ ha ↦ h.of_leads ha.1 ha.2) fun _ _ _ ↦ trivial

end Shaped

end Tree

/-- An edit that ends without a fault leaves lists and nodes as declared. -/
def Edit.KeepsShape {α : Type} (edit : Edit α) (catalog : Catalog) : Prop :=
  edit.Carries (Tree.Shaped catalog fun _ ↦ False) fun _ _ ↦ True

namespace Tree

variable {catalog : Catalog} {tree : Tree}

theorem attach_keepsShape (parent child : NodeId) (refresh : Bool) :
    (attach parent child refresh).KeepsShape catalog := by
  intro tree h
  rw [meets_attach]
  refine ⟨fun _ ↦ h, fun _ ↦ ⟨fun _ _ ↦ trivial, fun _ ↦ ?_⟩⟩
  exact (h.adopt parent child).childrenChanged parent refresh

theorem removeChild_keepsShape (parent child : NodeId) :
    (removeChild parent child).KeepsShape catalog := by
  intro tree h
  rw [meets_removeChild]
  refine ⟨fun _ ↦ h, fun _ ↦ ⟨fun _ _ ↦ trivial, fun _ ↦ ?_⟩⟩
  exact ((h.disown parent child).releaseNode child).childrenChanged parent true

/-- Retyping leaves a tree as declared if making the new node does. -/
theorem Shaped.retype (h : Shaped catalog (fun _ ↦ False) tree)
    (hcreate : ∀ kind ∈ catalog.kinds, (create kind).Meets tree
      (fun _ ↦ Shaped catalog fun _ ↦ False) fun _ _ ↦ True) (id : NodeId) (symbol : String) :
    (retype id symbol).Meets tree (fun _ ↦ Shaped catalog fun _ ↦ False) fun _ _ ↦ True := by
  apply meets_retype h
  intro node parent kind hn hp hk
  refine ⟨fun _ _ ↦ trivial, fun _ ↦ ?_⟩
  have hkind : kind ∈ catalog.kinds := h.catalog_eq ▸ List.mem_of_find?_eq_some hk
  apply (hcreate kind hkind).imp ?_ fun _ _ _ ↦ trivial
  refine fun new mid hmid ↦ ⟨fun _ ↦ hmid.releaseNode new, fun _ ↦ ?_⟩
  exact ((hmid.supplant parent id new).releaseNode id).childrenChanged parent true

theorem mutate_keepsShape (id : FieldId) {change : Field → Except Fault Value}
    (hchange : Faithful change) : (mutate id change).KeepsShape catalog := by
  intro tree h
  apply meets_mutate fun _ ↦ trivial
  intro _ field value hf hvalue
  obtain ⟨hold, hnew⟩ := hchange.leafy field value hvalue
  have he := Endures.setValue hf (Value.inner?_of_isLeaf hold hnew)
    (hchange.admits field value hvalue)
  have ha := h.toSound.setValue hf hold hnew
  refine Shaped.settle (h.step (h.toGroupedBy.setValue hf hold hnew ?_) he ?_) _
  · exact fun _ _ _ hl hform ↦ hform.of_endures he ha.owned fun x hx ↦ (hl x hx).2
  · exact .of_sameNodes (.updateField tree _ _)

theorem appendElement_keepsShape (id : FieldId) : (appendElement id).KeepsShape catalog := by
  intro tree h
  apply meets_appendElement fun _ ↦ trivial
  intro _ field template elements hf hvalue
  apply (Grouping.element_of_list durable_formsElement h.toGroupedBy hf hvalue).imp ?_
    fun _ _ _ ↦ trivial
  intro group mid hpushed
  refine ⟨fun hl ↦ ?_, fun _ ↦ trivial⟩
  obtain ⟨hleads, hpush⟩ := hpushed hl
  exact (h.of_leads hleads hpush).settle _

theorem removeElement_keepsShape (id : FieldId) (index : Nat) :
    (removeElement id index).KeepsShape catalog := by
  intro tree h
  apply meets_removeElement (fun _ ↦ trivial) h
  intro _ field template elements element hf hvalue he
  have hsplit : Splits (·.eraseIdx index) element field.value :=
    hvalue ▸ splits_eraseIdx he
  refine Shaped.settle (h.step ?_ (.drop tree _ _ element) ?_) _
  · exact h.toGroupedBy.drop durable_formsElement hf (fun _ ↦ List.eraseIdx_subset) hsplit
  · exact .of_sameNodes (.drop tree _ _ element)

end Tree

end LightTree
