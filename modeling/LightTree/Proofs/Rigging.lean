import LightTree.Proofs.Elements
import LightTree.Proofs.Slots

/-!
# What an operation builds is wired

The fields at the top of a new node and those of a new element are linked to the fields that their
declarations mean, whether the element was asked for, comes with a new node or lets a list grow
along with its source. What has been wired stays so until the operation ends, since cascades move no
link and a rebind moves one that was there before. While a node gets its fields it is exempt.
-/

namespace LightTree

open Edit

namespace Tree

variable {base tree mid after : Tree} {exempt : NodeId → Prop} {id : FieldId} {owner node : NodeId}
  {group : List FieldId} {declared : List String} {template : List FieldDecl}

/-- The fields at the top of a node and in an element that another tree did not have are linked to
what their declarations mean. -/
structure WiredSince (base tree : Tree) : Prop where
  element : ∀ list owner template, tree.template? list = some (owner, template) →
    ∀ group ∈ tree.elements list, (∃ x ∈ group, ¬base.Live x) →
      tree.WiresGroup tree owner [] [] template group
  node : ∀ id kind, tree.kind? id = some kind → ¬base.LiveNode id →
    tree.WiresGroup tree id [] [] kind.fields (tree.topFields id)

/-! ## Groups that stay wired -/

theorem Means.lasts {name : String} {target : FieldId}
    (h : tree.Means owner group declared name target) (hab : tree.Abides after) (ht : tree.Owned)
    (ha : after.Owned) (htop : ∀ x ∈ tree.topFields owner, x ∈ after.topFields owner) :
    after.Means owner group declared name target := by
  refine h.imp_right fun ⟨hnot, hmem, hname⟩ ↦ ⟨hnot, htop target hmem, ?_⟩
  rw [hab.name? (ht.tops_live owner target hmem).lt_size
    (ha.tops_live owner target (htop target hmem))]
  exact hname

namespace WiresGroup

theorem of_keepsWires (hk : mid.KeepsWires after) (hm : mid.Owned) (ha : after.Owned) :
    ∀ {decls : List FieldDecl} {ids group : List FieldId} {declared : List String},
      tree.WiresGroup mid owner group declared decls ids → (∀ x ∈ ids, mid.Live x ∧ after.Live x) →
        tree.WiresGroup after owner group declared decls ids
  | _ :: _, _ :: _, _, _, ⟨hw, hrest⟩, hl => by
    obtain ⟨⟨hold, hnew⟩, hl⟩ := List.forall_mem_cons.1 hl
    exact ⟨hw.of_keepsWires hk hm ha hold hnew, hrest.of_keepsWires hk hm ha hl⟩
  | [], [], _, _, _, _ => trivial

/-- A group stays wired while the links of its fields, names and the fields of its node stay. -/
theorem lasts {decls : List FieldDecl} {ids : List FieldId}
    (h : tree.WiresGroup tree owner group declared decls ids) (hk : tree.KeepsWires after)
    (hab : tree.Abides after) (ht : tree.Owned) (ha : after.Owned)
    (htop : ∀ x ∈ tree.topFields owner, x ∈ after.topFields owner)
    (hl : ∀ x ∈ ids, tree.Live x ∧ after.Live x) :
    after.WiresGroup after owner group declared decls ids :=
  (h.of_keepsWires hk ht ha hl).imp fun _ _ _ _ hm ↦ hm.lasts hab ht ha htop

theorem concat {decl : FieldDecl} :
    ∀ {decls : List FieldDecl} {ids group : List FieldId} {declared : List String},
      tree.WiresGroup after owner group declared decls ids →
      after.Wired (tree.Means owner (group ++ ids) (declared ++ decls.map (·.name))) decl id →
        tree.WiresGroup after owner group declared (decls ++ [decl]) (ids ++ [id])
  | first :: decls, x :: ids, group, declared, ⟨hw, hrest⟩, hlast => by
    rw [List.append_cons group, List.map_cons, List.append_cons declared] at hlast
    exact ⟨hw, hrest.concat hlast⟩
  | [], [], _, _, _, hlast => by
    rw [List.append_nil, List.map_nil, List.append_nil] at hlast
    exact ⟨hlast, trivial⟩

end WiresGroup

/-- A name that is known at the top of a node means the field that was declared under it there. -/
theorem Declares.means_top (h : tree.Declares (tree.topFields node) declared) {name : String}
    {target : FieldId} (hm : tree.Means node [] [] name target) :
    tree.Means node (tree.topFields node) declared name target := by
  obtain ⟨i, hi, _⟩ | ⟨_, hmem, htarget⟩ := hm
  · exact absurd hi nofun
  · obtain ⟨i, hi⟩ := List.mem_iff_getElem?.1 hmem
    exact .inl ⟨i, hi, (h.name?_eq hi).symm.trans htarget⟩

/-- A node may be handed a field that is wired by those at its top. -/
theorem WiresGroup.addTop {decls : List FieldDecl} {decl : FieldDecl}
    (h : tree.WiresGroup tree node [] [] decls (tree.topFields node)) (ht : tree.Owned)
    (hnode : tree.LiveNode node) (hid : tree.Loose id)
    (hdeclares : tree.Declares (tree.topFields node) (decls.map (·.name)))
    (hwired : tree.Wired (tree.Means node [] []) decl id) :
    (tree.addTop node id).WiresGroup (tree.addTop node id) node [] [] (decls ++ [decl])
      (tree.topFields node ++ [id]) := by
  have ha := ht.addTop hnode hid
  have hadded : (tree.addTop node id).topFields node = tree.topFields node ++ [id] := by
    rw [topFields_addTop tree hnode, if_pos rfl]
  have hgroup : tree.WiresGroup tree node [] [] (decls ++ [decl]) (tree.topFields node ++ [id]) :=
    h.concat (hwired.imp fun _ _ hm ↦ hdeclares.means_top hm)
  have he : tree.Endures (tree.addTop node id) := .of_field? rfl rfl
  apply hgroup.lasts he.toKeepsWires (.of_field? rfl rfl) ht ha
  · exact fun x hx ↦ hadded ▸ List.mem_append_left _ hx
  · intro x hx
    have hl : tree.Live x := ha.tops_live node x (hadded ▸ hx)
    exact ⟨hl, hl⟩

/-- An element with a field that another tree did not have is wired. -/
def WiresNew (base tree : Tree) (owner : NodeId) (template : List FieldDecl)
    (group : List FieldId) : Prop :=
  (∃ x ∈ group, ¬base.Live x) → tree.WiresGroup tree owner [] [] template group

theorem WiresNew.lasts (h : base.WiresNew tree owner template group) (hk : tree.KeepsWires after)
    (hab : tree.Abides after) (ht : tree.Owned) (ha : after.Owned)
    (htop : ∀ x ∈ tree.topFields owner, x ∈ after.topFields owner)
    (hl : ∀ x ∈ group, tree.Live x ∧ after.Live x) : base.WiresNew after owner template group :=
  fun hnew ↦ (h hnew).lasts hk hab ht ha htop hl

theorem durable_wiresNew (base : Tree) : Durable base.WiresNew where
  lasts ht ha he hab hn hl h :=
    h.lasts he.toKeepsWires hab ht.owned ha.owned (fun _ hx ↦ hn.topFields ▸ hx) hl
  built := by
    intro tree visit owner container hv hrespects h hhost template
    have hnone : ∀ x ∈ ([] : List FieldId), tree.Loose x := fun _ hx ↦ absurd hx List.not_mem_nil
    have hdeclares : tree.Declares [] [] := rfl
    refine ((hv.instantiateGroup h.governs hhost .nil template).and
      (hv.instantiateGroup_wires hrespects h hhost hnone hdeclares template)).imp ?_
      fun _ _ _ ↦ trivial
    rintro _ after ⟨⟨hlead, _⟩, ha, _, _, group, rfl, hwires⟩ _
    have hframed := hlead.framed h.governs
    apply hwires.imp
    intro _ _ _ _ hm
    apply hm.lasts (.of_framed hframed rfl) h.owned ha.owned
    rw [hframed.nodes.topFields]
    exact fun _ hx ↦ hx

/-! ## Nodes that keep their fields -/

/-- What is left of the nodes has the kind and the fields it had. -/
structure KeepsTops (tree after : Tree) : Prop where
  catalog : after.catalog = tree.catalog
  node : ∀ id new, after.node? id = some new → ∃ old, tree.node? id = some old ∧
    new.kind = old.kind ∧ new.fields = old.fields

namespace KeepsTops

theorem of_sameNodes (h : tree.SameNodes after) : tree.KeepsTops after where
  catalog := h.catalog
  node id new hn := by
    have hbare := h.bare id
    rw [hn] at hbare
    obtain ⟨old, ho, heq⟩ := Option.map_eq_some_iff.1 hbare.symm
    exact ⟨old, ho, (congrArg (·.kind) heq).symm, (congrArg (·.fields) heq).symm⟩

theorem of_shrinks (h : tree.Shrinks after) : tree.KeepsTops after where
  catalog := h.catalog
  node id new hn := by
    obtain ⟨old, ho, hnew, _⟩ := h.node id new hn
    exact ⟨old, ho, congrArg (·.kind) hnew, congrArg (·.fields) hnew⟩

theorem updateNode {f : Node → Node} (hkind : ∀ old, (f old).kind = old.kind)
    (hfields : ∀ old, (f old).fields = old.fields) (id : NodeId) :
    tree.KeepsTops (tree.updateNode id f) where
  catalog := rfl
  node x new hn := by
    rw [node?_updateNode] at hn
    split at hn
    · obtain ⟨old, ho, rfl⟩ := Option.map_eq_some_iff.1 hn
      exact ⟨old, ho, hkind old, hfields old⟩
    · exact ⟨new, hn, rfl, rfl⟩

theorem trans (h : tree.KeepsTops mid) (h' : mid.KeepsTops after) : tree.KeepsTops after where
  catalog := h'.catalog.trans h.catalog
  node id new hn := by
    obtain ⟨between, hb, hkind, hfields⟩ := h'.node id new hn
    obtain ⟨old, ho, hkind', hfields'⟩ := h.node id between hb
    exact ⟨old, ho, hkind.trans hkind', hfields.trans hfields'⟩

theorem adopt (tree : Tree) (parent child : NodeId) : tree.KeepsTops (tree.adopt parent child) := by
  refine .trans (.updateNode ?_ ?_ parent) (.updateNode ?_ ?_ child)
  all_goals exact fun _ ↦ rfl

theorem disown (tree : Tree) (parent child : NodeId) :
    tree.KeepsTops (tree.disown parent child) := by
  refine .updateNode ?_ ?_ parent
  all_goals exact fun _ ↦ rfl

theorem supplant (tree : Tree) (parent old new : NodeId) :
    tree.KeepsTops (tree.supplant parent old new) := by
  refine .trans (.updateNode ?_ ?_ parent) (.updateNode ?_ ?_ new)
  all_goals exact fun _ ↦ rfl

theorem of_kind? (h : tree.KeepsTops after) {node : NodeId} {kind : NodeKind}
    (hk : after.kind? node = some kind) :
    tree.kind? node = some kind ∧ after.topFields node = tree.topFields node := by
  obtain ⟨new, hn⟩ := liveNode_iff.1 (liveNode_of_kind?_eq_some hk)
  obtain ⟨old, ho, hkind, hfields⟩ := h.node node new hn
  rw [kind?, readNode_of_some hn] at hk
  rw [kind?, topFields_eq_readNode, topFields_eq_readNode, readNode_of_some hn,
    readNode_of_some ho, readNode_of_some ho, ← hkind]
  exact ⟨hk, hfields⟩

end KeepsTops

/-- Setting a leaf moves no link. -/
theorem KeepsWires.setValue {field : Field} {value : Value} (hf : tree.field? id = some field)
    (hold : field.value.IsLeaf) (hnew : value.IsLeaf) :
    tree.KeepsWires (tree.updateField id ({ · with value })) where
  fields_size := (size_updateField tree id _).ge
  field x _ hl := by
    rw [live_updateField] at hl
    rw [updateField_value hf hold]
    refine ⟨hl, congrFun (link?_updateField ?_ id) x, congrFun (inner?_updateField ?_ id) x⟩
    · exact fun _ ↦ rfl
    · exact fun old ↦ Value.inner?_replaceLeaf hnew old.value

/-- What is left of a tenured tree belongs to nodes that are left. -/
theorem Tenured.liveNode_of_template? (ht : tree.Tenured)
    (h : tree.template? id = some (owner, template)) : tree.LiveNode owner := by
  obtain ⟨field, hf⟩ := live_iff.1 (live_of_template?_eq_some h)
  rw [template?, read_of_some hf] at h
  obtain ⟨_, _, heq⟩ := Option.map_eq_some_iff.1 h
  cases heq
  exact liveNode_of_placed (ht.placed hf)

/-- The node of a list that is left has all the fields at its top. -/
theorem Tenured.topFields_releaseNode (ht : tree.Tenured)
    (h : (tree.releaseNode node).template? id = some (owner, template)) :
    (tree.releaseNode node).topFields owner = tree.topFields owner := by
  have howner := (ht.of_upholds (ht.releaseNode node)).liveNode_of_template? h
  rw [topFields_eq_readNode, topFields_eq_readNode,
    (releaseNode_shrinks tree node).readNode_eq (fun _ _ ↦ rfl) howner]

/-! ## Trees in which what is new is wired -/

/-- A sound tree in which new elements are wired, and new nodes but for those that are exempt. -/
structure Rigged (base : Tree) (exempt : NodeId → Prop) (tree : Tree) : Prop
    extends tree.GroupedBy base.WiresNew where
  node : ∀ id kind, tree.kind? id = some kind → ¬base.LiveNode id → ¬exempt id →
    tree.WiresGroup tree id [] [] kind.fields (tree.topFields id)

namespace Rigged

theorem wiredSince (h : base.Rigged (fun _ ↦ False) tree) : base.WiredSince tree where
  element := h.element
  node id kind hk hnew := h.node id kind hk hnew not_false

/-- Nothing is new in a tree with fields and nodes of another one only. -/
theorem of_live (h : tree.Sound) (hfields : ∀ x, tree.Live x → base.Live x)
    (hnodes : ∀ id, tree.LiveNode id → base.LiveNode id) : base.Rigged exempt tree where
  toSound := h
  element id _ _ _ _ hg := fun ⟨x, hx, hnew⟩ ↦
    absurd (hfields x (h.owned.parts_live id x (mem_parts_of_mem_elements hg hx))) hnew
  node id _ hk hnew := absurd (hnodes id (liveNode_of_kind?_eq_some hk)) hnew

theorem step (h : base.Rigged exempt tree) (hg : after.GroupedBy base.WiresNew)
    (hk : tree.KeepsWires after) (hab : tree.Abides after) (hn : tree.KeepsTops after) :
    base.Rigged exempt after where
  toGroupedBy := hg
  node id kind hkind hnew hexempt := by
    obtain ⟨hold, htop⟩ := hn.of_kind? hkind
    rw [htop]
    apply (h.node id kind hold hnew hexempt).lasts hk hab h.owned hg.owned fun x hx ↦ htop ▸ hx
    exact fun x hx ↦ ⟨h.owned.tops_live id x hx, hg.owned.tops_live id x (htop ▸ hx)⟩

/-- A change of nodes, which may add to the fields of those that are exempt afterwards. -/
theorem of_tops {exempt' : NodeId → Prop} (h : base.Rigged exempt tree) (ha : after.Sound)
    (hfields : after.field? = tree.field?) (hsize : after.fields.size = tree.fields.size)
    (htop : ∀ owner x, x ∈ tree.topFields owner → x ∈ after.topFields owner)
    (hnode : ∀ id kind, after.kind? id = some kind → ¬exempt' id →
      ¬exempt id ∧ tree.kind? id = some kind ∧ after.topFields id = tree.topFields id) :
    base.Rigged exempt' after := by
  have hab : tree.Abides after := .of_field? hfields hsize
  have hk : tree.KeepsWires after := (Endures.of_field? hfields hsize).toKeepsWires
  refine { toGroupedBy := h.toGroupedBy.step ha hab ?_ ?_, node := ?_ }
  · exact fun owner _ _ _ hl hw ↦ hw.lasts hk hab h.owned ha.owned (htop owner) hl
  · intro list _ _ _ group hg
    left
    rwa [Tree.elements, Tree.read, hfields] at hg
  · intro id kind hkind hnew hexempt
    obtain ⟨hexempt', hold, hsame⟩ := hnode id kind hkind hexempt
    rw [hsame]
    apply (h.node id kind hold hnew hexempt').lasts hk hab h.owned ha.owned (htop id)
    exact fun x hx ↦ ⟨h.owned.tops_live id x hx, ha.owned.tops_live id x (hsame ▸ hx)⟩

theorem of_nodes (h : base.Rigged exempt tree) (ha : after.Sound)
    (hfields : after.field? = tree.field?) (hsize : after.fields.size = tree.fields.size)
    (hn : tree.KeepsTops after) (htops : after.topFields = tree.topFields) :
    base.Rigged exempt after :=
  h.of_tops ha hfields hsize (fun _ _ hx ↦ htops ▸ hx)
    fun _ _ hk hexempt ↦ ⟨hexempt, hn.of_kind? hk⟩

theorem adopt (h : base.Rigged exempt tree) (parent child : NodeId) :
    base.Rigged exempt (tree.adopt parent child) := by
  apply h.of_nodes (h.toSound.adopt parent child) rfl rfl (.adopt tree parent child)
  rw [Tree.adopt, topFields_updateNode, topFields_updateNode]
  all_goals exact fun _ ↦ rfl

theorem disown (h : base.Rigged exempt tree) (parent child : NodeId) :
    base.Rigged exempt (tree.disown parent child) := by
  apply h.of_nodes (h.toSound.disown parent child) rfl rfl (.disown tree parent child)
  rw [Tree.disown, topFields_updateNode]
  exact fun _ ↦ rfl

theorem supplant (h : base.Rigged exempt tree) (parent old new : NodeId) :
    base.Rigged exempt (tree.supplant parent old new) := by
  apply h.of_nodes (h.toSound.supplant parent old new) rfl rfl (.supplant tree parent old new)
  rw [Tree.supplant, topFields_updateNode, topFields_updateNode]
  all_goals exact fun _ ↦ rfl

theorem releaseNode (h : base.Rigged exempt tree) (ht : tree.Tenured) (id : NodeId) :
    base.Rigged exempt (tree.releaseNode id) := by
  have hs := releaseNode_shrinks tree id
  have ha := h.toSound.releaseNode id
  have hk : tree.KeepsWires (tree.releaseNode id) := (Endures.of_shrinks hs).toKeepsWires
  refine h.step (h.toGroupedBy.step ha (.of_shrinks hs) ?_ ?_) hk (.of_shrinks hs) (.of_shrinks hs)
  · rintro owner template group ⟨list, hlist⟩ hl hw
    have htop := ht.topFields_releaseNode hlist
    exact hw.lasts hk (.of_shrinks hs) h.owned ha.owned (fun x hx ↦ htop ▸ hx) hl
  · intro list _ _ hlist group hg
    exact .inl (elements_of_shrinks hs (live_of_template?_eq_some hlist) ▸ hg)

theorem giveUp (h : base.Rigged exempt tree) (ht : tree.Tenured) (child : NodeId) :
    base.Rigged exempt (tree.giveUp child) := by
  rw [Tree.giveUp]
  split
  · exact h.releaseNode ht child
  · exact h

/-- No cascade changes what is wired. -/
theorem of_leads (h : base.Rigged exempt tree) (hl : tree.whole.Leads tree after)
    (hg : after.GroupedBy base.WiresNew) : base.Rigged exempt after := by
  have hframed := hl.framed h.toSound.governs
  exact h.step hg (.of_framed hframed rfl) (.of_framed hframed rfl) (.of_sameNodes hframed.nodes)

theorem settle (h : base.Rigged exempt tree) (source : Source) :
    (settle source).Meets tree (fun _ ↦ base.Rigged exempt) fun _ _ ↦ True :=
  ((h.toSound.settle_stays source).and
    (settle_keepsGroups (durable_wiresNew base) source tree h.toGroupedBy)).imp
    (fun _ _ ha ↦ h.of_leads ha.1 ha.2) fun _ _ _ ↦ trivial

theorem childrenChanged (h : base.Rigged exempt tree) (parent : NodeId) (refresh : Bool) :
    (childrenChanged parent refresh).Meets tree (fun _ ↦ base.Rigged exempt) fun _ _ ↦ True := by
  have hgroups := childrenChanged_keepsGroups (durable_wiresNew base) parent refresh
  exact ((h.toSound.childrenChanged_stays parent refresh).and (hgroups tree h.toGroupedBy)).imp
    (fun _ _ ha ↦ h.of_leads ha.1 ha.2) fun _ _ _ ↦ trivial

/-! ## Nodes that get their fields -/

theorem insertNode (h : base.Rigged (fun _ ↦ False) tree) (kind : NodeKind) :
    base.Rigged (· = tree.nextNode) (tree.insertNode { kind }) := by
  have htops : (tree.insertNode { kind }).topFields = tree.topFields :=
    topFields_insertNode_of_nil rfl
  apply h.of_tops (h.toSound.insertNode rfl rfl) rfl rfl fun _ _ hx ↦ htops ▸ hx
  intro id _ hk hexempt
  rw [kind?_insertNode, if_neg hexempt] at hk
  exact ⟨not_false, hk, congrFun htops id⟩

/-- A node that is exempt may be handed any field. -/
theorem addTop (h : base.Rigged (· = node) tree) (hnode : tree.LiveNode node)
    (hid : tree.Loose id) : base.Rigged (· = node) (tree.addTop node id) := by
  apply h.of_tops (h.toSound.addTop hnode hid) rfl rfl
  · intro owner x hx
    rw [topFields_addTop tree hnode]
    split
    · exact List.mem_append_left _ hx
    · exact hx
  · intro other _ hk hexempt
    rw [kind?, Tree.addTop, readNode_updateNode_of_ne (Ne.symm hexempt)] at hk
    refine ⟨hexempt, hk, ?_⟩
    rw [topFields_addTop tree hnode, if_neg hexempt]

/-- A node is exempt no longer once it has the fields of its kind. -/
theorem of_wired (h : base.Rigged (· = node) tree)
    (hnode : ∀ kind, tree.kind? node = some kind →
      tree.WiresGroup tree node [] [] kind.fields (tree.topFields node)) :
    base.Rigged (fun _ ↦ False) tree where
  toGroupedBy := h.toGroupedBy
  node id kind hk hnew _ := by
    by_cases hid : id = node
    · subst hid
      exact hnode kind hk
    · exact h.node id kind hk hnew hid

/-- The fields of a node are built in order, each wired by those that it has already. -/
theorem furnish (h : base.Rigged (· = node) tree) (hnode : tree.LiveNode node)
    {done : List FieldDecl}
    (hdone : tree.WiresGroup tree node [] [] done (tree.topFields node))
    (hdeclares : tree.Declares (tree.topFields node) (done.map (·.name)))
    (decls : List FieldDecl) :
    (furnish node decls).Meets tree
      (fun _ after ↦ base.Rigged (· = node) after ∧
        after.WiresGroup after node [] [] (done ++ decls) (after.topFields node))
      fun _ _ ↦ True := by
  induction decls generalizing tree done with
  | nil => exact ⟨h, (List.append_nil done).symm ▸ hdone⟩
  | cons decl rest ih =>
      have hs := h.toSound
      have hhost := hosts_whole hnode.lt_size
      have hv := Confined.enter false
      have hd := durable_wiresNew base
      have hnone : ∀ x ∈ ([] : List FieldId), tree.Loose x := fun _ hx ↦ absurd hx List.not_mem_nil
      have hempty : tree.Declares [] [] := rfl
      have hbuilt := (hv.instantiate hs.governs hhost (fun x (_ : x ∈ []) ↦ trivial) decl).and
        ((Grouping.enter hd false).instantiate hd hv h.toGroupedBy hhost [] decl)
      have hdeclared :=
        (Resolving.instantiate_named (lasting_abides.toHarmless.enter false) decl).and
          (hv.instantiate_wires hs hhost hnone hempty decl)
      rw [meets_furnish_cons]
      apply (hbuilt.and hdeclared).imp ?_ fun _ _ _ ↦ trivial
      rintro id mid ⟨⟨⟨hlead, hid, _⟩, hgroups⟩, hname, hwired⟩
      have hframed := hlead.framed hs.governs
      have hmid := h.of_leads hlead hgroups
      have hlive : mid.LiveNode node := (hframed.nodes.liveNode node).2 hnode
      have hab : tree.Abides mid := .of_framed hframed rfl
      have htop : mid.topFields node = tree.topFields node := congrFun hframed.nodes.topFields node
      have hsub : ∀ x ∈ tree.topFields node, x ∈ mid.topFields node := fun x hx ↦ htop ▸ hx
      have hkept : ∀ x ∈ tree.topFields node, tree.Live x ∧ mid.Live x := fun x hx ↦
        ⟨hs.owned.tops_live node x hx, hmid.owned.tops_live node x (hsub x hx)⟩
      have hdone' : mid.WiresGroup mid node [] [] done (mid.topFields node) :=
        htop ▸ hdone.lasts (.of_framed hframed rfl) hab hs.owned hmid.owned hsub hkept
      have hdeclares' : mid.Declares (mid.topFields node) (done.map (·.name)) :=
        htop ▸ hdeclares.of_abides hab hkept
      have hwired' : mid.Wired (mid.Means node [] []) decl id :=
        hwired.imp fun _ _ hm ↦ hm.lasts hab hs.owned hmid.owned hsub
      have hadded : (mid.addTop node id).topFields node = mid.topFields node ++ [id] := by
        rw [topFields_addTop mid hlive, if_pos rfl]
      rw [List.append_cons]
      apply ih (hmid.addTop hlive hid) ((liveNode_updateNode ..).2 hlive)
      · rw [hadded]
        exact hdone'.addTop hmid.owned hlive hid hdeclares' hwired'
      · rw [hadded, List.map_append]
        exact hdeclares'.append (hname hid.live)

end Rigged

end Tree

/-- An edit that ends without a fault leaves what is new wired. -/
def Edit.Rigs {α : Type} (edit : Edit α) (base : Tree) : Prop :=
  edit.Carries (base.Rigged fun _ ↦ False) fun _ _ ↦ True

namespace Tree

variable {base tree : Tree}

theorem attach_rigs (parent child : NodeId) (refresh : Bool) :
    (attach parent child refresh).Rigs base := by
  intro tree h
  rw [meets_attach]
  refine ⟨fun _ ↦ h, fun _ ↦ ⟨fun _ _ ↦ trivial, fun _ ↦ ?_⟩⟩
  exact (h.adopt parent child).childrenChanged parent refresh

section

variable {make : NodeKind → Edit NodeId} (hmake : ∀ kind, (make kind).Rigs base)

include hmake

theorem populate_rigs (id : NodeId) (kind : NodeKind) (childKind? : Option NodeKind)
    (count : Nat) : (populate make id kind childKind? count).Rigs base := by
  induction count with
  | zero => exact fun _ h ↦ h
  | succ count ih =>
      intro tree h
      rw [meets_populate_succ]
      refine ⟨fun _ ↦ trivial, fun childKind _ ↦ ?_⟩
      rw [meets_populateOne]
      refine (hmake childKind tree h).imp (fun child mid hmid ↦ ?_) fun _ _ _ ↦ trivial
      exact (attach_rigs id child false mid hmid).imp
        (fun _ after ha ↦ ⟨fun _ ↦ trivial, fun _ ↦ ih after ha⟩) fun _ _ _ ↦ trivial

/-- A new node is wired before it gets its children. -/
theorem Rigged.build (h : base.Rigged (fun _ ↦ False) tree) (kind : NodeKind) :
    (build make tree.nextNode kind).Meets (tree.insertNode { kind })
      (fun _ ↦ base.Rigged fun _ ↦ False) fun _ _ ↦ True := by
  have hlive : (tree.insertNode { kind }).LiveNode tree.nextNode :=
    (liveNode_insertNode tree { kind } _).2 (.inl rfl)
  have hnil : (tree.insertNode { kind }).topFields tree.nextNode = [] := by
    rw [topFields_insertNode, if_pos rfl]
  have hkind : (tree.insertNode { kind }).kind? tree.nextNode = some kind := by
    rw [kind?_insertNode, if_pos rfl]
  have hretains := (steady_retains fun _ ↦ True).toQuiet.furnish
    (steady_retains fun _ ↦ True).addTop tree.nextNode kind.fields (tree.insertNode { kind })
  have hdone : (tree.insertNode { kind }).WiresGroup (tree.insertNode { kind }) tree.nextNode [] []
      [] ((tree.insertNode { kind }).topFields tree.nextNode) := by
    rw [hnil]
    trivial
  have hdeclares : (tree.insertNode { kind }).Declares
      ((tree.insertNode { kind }).topFields tree.nextNode) [] := by
    rw [hnil]
    rfl
  have hfurnish := (h.insertNode kind).furnish hlive hdone hdeclares kind.fields
  rw [meets_build]
  apply (hfurnish.and hretains).imp ?_ fun _ _ _ ↦ trivial
  rintro _ mid ⟨⟨hmid, hwired⟩, hretained⟩
  have hafter : base.Rigged (fun _ ↦ False) mid := by
    apply hmid.of_wired
    intro kind' hk
    rw [hretained.kind? trivial, hkind, Option.some.injEq] at hk
    exact hk ▸ hwired
  exact ⟨fun _ ↦ populate_rigs hmake _ kind _ _ mid hafter, fun _ ↦ hafter⟩

end

theorem createWithin_rigs (depth : Nat) (kind : NodeKind) : (createWithin depth kind).Rigs base := by
  induction depth generalizing kind with
  | zero => exact fun _ _ ↦ trivial
  | succ depth ih =>
      intro tree h
      rw [meets_createWithin_succ]
      exact ⟨fun _ _ ↦ trivial, fun _ ↦ (h.build ih kind).imp (fun _ _ ha ↦ ha)
        fun _ _ _ ↦ trivial⟩

theorem create_rigs (kind : NodeKind) : (create kind).Rigs base :=
  createWithin_rigs 5 kind

/-! ## Operations -/

theorem mutate_rigs (id : FieldId) {change : Field → Except Fault Value} (hchange : Leafy change) :
    (mutate id change).Rigs base := by
  intro tree h
  apply meets_mutate fun _ ↦ trivial
  intro _ field value hf hvalue
  obtain ⟨hold, hnew⟩ := hchange field value hvalue
  have hk := KeepsWires.setValue hf hold hnew
  have hab := Abides.setValue hf hold hnew
  have hn := SameNodes.updateField tree (tree.unwrap id) fun field ↦ { field with value }
  have hs := h.toSound.setValue hf hold hnew
  refine Rigged.settle (h.step (h.toGroupedBy.setValue hf hold hnew ?_) hk hab ?_) _
  · exact fun _ _ _ hl hw ↦
      hw.lasts hk hab h.owned hs.owned (fun _ hx ↦ hn.topFields ▸ hx) hl
  · exact .of_sameNodes hn

theorem appendElement_rigs (id : FieldId) : (appendElement id).Rigs base := by
  intro tree h
  apply meets_appendElement fun _ ↦ trivial
  intro _ field template elements hf hvalue
  apply (Grouping.element_of_list (durable_wiresNew base) h.toGroupedBy hf hvalue).imp ?_
    fun _ _ _ ↦ trivial
  intro group mid hpushed
  refine ⟨fun hl ↦ ?_, fun _ ↦ trivial⟩
  obtain ⟨hleads, hpush⟩ := hpushed hl
  exact (h.of_leads hleads hpush).settle _

theorem removeElement_rigs (id : FieldId) (index : Nat) : (removeElement id index).Rigs base := by
  intro tree h
  apply meets_removeElement (fun _ ↦ trivial) h
  intro _ field template elements element hf hvalue he
  have hsplit : Splits (·.eraseIdx index) element field.value := hvalue ▸ splits_eraseIdx he
  have hgroups := h.toGroupedBy.drop (durable_wiresNew base) hf (fun _ ↦ List.eraseIdx_subset) hsplit
  exact Rigged.settle (h.step hgroups (Endures.drop tree _ _ element).toKeepsWires
    (.drop tree _ _ element) (.of_sameNodes (.drop tree _ _ element))) _

/-- A rebind moves the link of a field that was there before. -/
theorem Sound.rebind_rigs (h : tree.Sound) (dependent : FieldId) {source : Source}
    (hissued : tree.Issued source) :
    (rebind dependent source).Meets tree (fun _ ↦ tree.Rigged fun _ ↦ False) fun _ _ ↦ True := by
  rw [rebind, meets_rebindWith]
  refine ⟨fun field hf ↦ ⟨fun _ ↦ trivial, fun hc ↦ ⟨fun _ _ ↦ trivial, fun _ ↦ ?_⟩⟩,
    fun _ ↦ trivial⟩
  have hs := h.relink_of_not_closesCycle (live_of_some hf) hissued hc
  have hstart : tree.Rigged (fun _ ↦ False) (tree.relink dependent (some source)) :=
    .of_live hs (fun x hl ↦ (live_relink _ _ x).1 hl) fun id hl ↦
      ((SameNodes.relink tree dependent (some source)).liveNode id).1 hl
  have hgroups := Grouping.enter (durable_wiresNew tree) false dependent _ hstart.toGroupedBy
  apply ((Confined.enter false _ _ dependent hs.governs trivial).and hgroups).imp
  · exact fun _ _ ha ↦ hstart.of_leads ha.1 ha.2
  · intro fault after _
    rw [meets_relink]
    exact ⟨fun _ ↦ trivial, fun _ ↦ trivial⟩

theorem addChild_rigs (h : base.Rigged (fun _ ↦ False) tree) (ht : tree.Tenured)
    (parent child : NodeId) :
    (addChild parent child).Meets tree (fun _ ↦ base.Rigged fun _ ↦ False) fun _ _ ↦ True := by
  rw [meets_addChild]
  apply ((attach_rigs parent child true tree h).and
    ((attach_lodges parent child true).keepsTenured tree ht)).imp ?_ fun _ _ _ ↦ trivial
  exact fun _ _ ha ↦ ⟨fun _ ↦ ha.1.giveUp ha.2 child, fun _ ↦ ha.1⟩

theorem removeChild_rigs (h : base.Rigged (fun _ ↦ False) tree) (ht : tree.Tenured)
    (parent child : NodeId) :
    (removeChild parent child).Meets tree (fun _ ↦ base.Rigged fun _ ↦ False) fun _ _ ↦ True := by
  rw [meets_removeChild]
  refine ⟨fun _ ↦ h, fun _ ↦ ⟨fun _ _ ↦ trivial, fun _ ↦ ?_⟩⟩
  have ht' := ht.of_upholds (ht.disown parent child)
  exact ((h.disown parent child).releaseNode ht' child).childrenChanged parent true

theorem retype_rigs (h : base.Rigged (fun _ ↦ False) tree) (ht : tree.Tenured) (id : NodeId)
    (symbol : String) :
    (retype id symbol).Meets tree (fun _ ↦ base.Rigged fun _ ↦ False) fun _ _ ↦ True := by
  apply meets_retype h
  intro node parent kind _ _ _
  refine ⟨fun _ _ ↦ trivial, fun _ ↦ ?_⟩
  apply ((create_rigs kind tree h).and ((create_lodges kind).keepsTenured tree ht)).imp ?_
    fun _ _ _ ↦ trivial
  refine fun new mid ⟨hmid, htm⟩ ↦ ⟨fun _ ↦ hmid.releaseNode htm new, fun _ ↦ ?_⟩
  have ht' := htm.of_upholds (htm.supplant parent id new)
  exact ((hmid.supplant parent id new).releaseNode ht' id).childrenChanged parent true

/-- What an edit carries on is carried on together with tenure. -/
theorem meets_tenured_and {α : Type} {edit : Edit α} {inv : Tree → Prop}
    {bad : Fault → Tree → Prop} (ht : edit.Meets tree (fun _ ↦ Tenured) fun _ _ ↦ True)
    (h : edit.Meets tree (fun _ ↦ inv) bad) :
    edit.Meets tree (fun _ after ↦ after.Tenured ∧ inv after) fun _ _ ↦ True :=
  (ht.and h).imp (fun _ _ ha ↦ ha) fun _ _ _ ↦ trivial

theorem invariant_rigged (base : Tree) :
    Invariant (fun tree ↦ tree.Tenured ∧ base.Rigged (fun _ ↦ False) tree) (fun _ _ ↦ True)
      fun _ ↦ True where
  catalog _ _ _ _ := trivial
  create kind _ tree h :=
    meets_tenured_and (invariant_tenured.create kind trivial tree h.1) (create_rigs kind tree h.2)
  addChild parent child tree h :=
    meets_tenured_and (invariant_tenured.addChild parent child tree h.1)
      (addChild_rigs h.2 h.1 parent child)
  removeChild parent child tree h :=
    meets_tenured_and (invariant_tenured.removeChild parent child tree h.1)
      (removeChild_rigs h.2 h.1 parent child)
  retype id symbol tree h :=
    meets_tenured_and (invariant_tenured.retype id symbol tree h.1)
      (retype_rigs h.2 h.1 id symbol)
  mutate id change hchange tree h :=
    meets_tenured_and (invariant_tenured.mutate id change hchange tree h.1)
      (mutate_rigs id hchange tree h.2)
  appendElement id tree h :=
    meets_tenured_and (invariant_tenured.appendElement id tree h.1)
      (appendElement_rigs id tree h.2)
  removeElement id index tree h :=
    meets_tenured_and (invariant_tenured.removeElement id index tree h.1)
      (removeElement_rigs id index tree h.2)

/-- What an operation builds is wired when it ends. -/
theorem Tenured.wiredSince_perform (ht : tree.Tenured) {operation : Operation}
    (hl : operation.NamesLive tree) {answer : Answer}
    (hok : (tree.perform operation).1 = .ok answer) :
    tree.WiredSince (tree.perform operation).2 := by
  have hrun : operation.edit.runOn tree = (.ok answer, (tree.perform operation).2) :=
    Prod.ext hok rfl
  have hbase : tree.Rigged (fun _ ↦ False) tree := .of_live ht.sound (fun _ hl ↦ hl) fun _ hl ↦ hl
  refine ((invariant_rigged tree).operation ⟨ht, hbase⟩ operation (fun _ _ ↦ trivial)
    ?_).of_runOn_ok hrun |>.2.wiredSince
  rintro dependent source rfl
  exact meets_tenured_and (rebind_keepsTenured ht dependent hl)
    (ht.sound.rebind_rigs dependent hl.issued)

/-- The first tree is wired throughout. -/
theorem wiredSince_start {catalog : Catalog} {settings : Settings}
    (h : start catalog settings = .ok tree) :
    ({ catalog, settings } : Tree).WiredSince tree := by
  have hempty : Rigged { catalog, settings } (fun _ ↦ False) { catalog, settings } :=
    .of_live (sound_empty catalog settings) (fun _ hl ↦ hl) fun _ hl ↦ hl
  refine of_start ?_ h
  exact (hempty.build create_rigs catalog.root).imp (fun _ _ ha ↦ ha.wiredSince)
    fun _ _ _ ↦ trivial

end Tree

end LightTree
