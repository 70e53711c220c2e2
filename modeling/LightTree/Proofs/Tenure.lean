import LightTree.Proofs.Invariant
import LightTree.Proofs.Lodging

/-!
# Histories leave no field loose

A housed tree is sound and homed, and every operation leaves it so, whatever it answers. An
operation that does not fail also leaves no field loose that was not loose before: what it builds is
handed to a node, a gate or a list in the end. A tree without loose fields is tenured, and stays so
along a history without faults.
-/

namespace LightTree

open Edit

namespace Tree

structure Housed (tree : Tree) : Prop where
  sound : tree.Sound
  homed : tree.Homed

/-- The second tree is sound as well and houses what it has built since the first one. -/
structure Upholds (tree after : Tree) : Prop extends tree.Houses after where
  sound : after.Sound

variable {α : Type} {tree mid after : Tree} {id : FieldId}

namespace Upholds

theorem housed (h : tree.Upholds after) : after.Housed :=
  ⟨h.sound, h.homed⟩

theorem refl (h : tree.Housed) : tree.Upholds tree :=
  ⟨.refl h.homed, h.sound⟩

theorem trans (h : tree.Upholds mid) (h' : mid.Upholds after) : tree.Upholds after :=
  ⟨h.toHouses.trans h'.toHouses, h'.sound⟩

/-- A node takes over the one field that has been built for it. -/
theorem addTop {node : NodeId} (hm : mid.Sound) (hnode : mid.LiveNode node) (hid : mid.Loose id)
    (he : tree.Equips (node, none) [id] mid) : tree.Upholds (mid.addTop node id) := by
  have ha := hm.addTop hnode hid
  refine ⟨⟨he.abides.trans (.of_field? rfl rfl), he.homed.addTop hm.owned hnode ha.owned ?_,
    fun x hx ↦ ?_⟩, ha⟩
  · exact he.home id (List.mem_singleton.2 rfl) hid.live
  · obtain ⟨hx, hne⟩ := loose_of_addTop hnode hx
    exact (he.loose x hx).resolve_left fun hself ↦ hne (List.mem_singleton.1 hself)

end Upholds

structure Tenured (tree : Tree) : Prop extends tree.Housed where
  kept : ∀ id, ¬tree.Loose id

theorem Tenured.of_upholds (h : tree.Tenured) (hu : tree.Upholds after) : after.Tenured :=
  ⟨hu.housed, fun id hid ↦ h.kept id (hu.loose id hid)⟩

/-! ## Nodes -/

theorem topFields_updateNode {f : Node → Node} (hf : ∀ node, (f node).fields = node.fields)
    (id : NodeId) : (tree.updateNode id f).topFields = tree.topFields := by
  rw [topFields_eq_readNode, topFields_eq_readNode, readNode_updateNode_of_keeps hf]

namespace Housed

theorem refresh (h : tree.Housed) : tree.Upholds tree.refreshed :=
  ⟨.refresh h.homed, h.sound.refresh⟩

theorem adopt (h : tree.Housed) (parent child : NodeId) :
    tree.Upholds (tree.adopt parent child) := by
  refine ⟨.of_nodes h.homed rfl rfl ?_, h.sound.adopt parent child⟩
  rw [Tree.adopt, topFields_updateNode, topFields_updateNode] <;> exact fun _ ↦ rfl

theorem disown (h : tree.Housed) (parent child : NodeId) :
    tree.Upholds (tree.disown parent child) := by
  refine ⟨.of_nodes h.homed rfl rfl ?_, h.sound.disown parent child⟩
  rw [Tree.disown, topFields_updateNode]
  exact fun _ ↦ rfl

theorem supplant (h : tree.Housed) (parent old new : NodeId) :
    tree.Upholds (tree.supplant parent old new) := by
  refine ⟨.of_nodes h.homed rfl rfl ?_, h.sound.supplant parent old new⟩
  rw [Tree.supplant, topFields_updateNode, topFields_updateNode] <;> exact fun _ ↦ rfl

theorem insertNode (h : tree.Housed) (kind : NodeKind) :
    tree.Upholds (tree.insertNode { kind }) :=
  ⟨.of_nodes h.homed rfl rfl (topFields_insertNode_of_nil rfl), h.sound.insertNode rfl rfl⟩

theorem releaseNode (h : tree.Housed) (id : NodeId) : tree.Upholds (tree.releaseNode id) := by
  have hs := releaseNode_shrinks tree id
  have ha := h.sound.releaseNode id
  exact ⟨⟨.of_shrinks hs, h.homed.of_shrinks h.sound.owned ha.owned hs,
    fun _ hx ↦ loose_of_releaseNodeWithin _ hx⟩, ha⟩

theorem giveUp (h : tree.Housed) (child : NodeId) : tree.Upholds (tree.giveUp child) := by
  unfold Tree.giveUp
  split
  · exact h.releaseNode child
  · exact .refl h

end Housed

end Tree

/-- An edit keeps a housed tree housed, and houses what it builds unless it fails. -/
def Edit.Lodges {α : Type} (edit : Edit α) : Prop :=
  ∀ tree, tree.Housed → edit.Meets tree (fun _ ↦ tree.Upholds) fun _ ↦ Tree.Housed

namespace Edit.Lodges

variable {α : Type} {edit : Edit α}

theorem keeps (h : edit.Lodges) : edit.Keeps Tree.Housed := fun tree ht ↦
  (h tree ht).imp (fun _ _ ha ↦ ha.housed) fun _ _ ha ↦ ha

theorem keepsTenured (h : edit.Lodges) : edit.Carries Tree.Tenured fun _ _ ↦ True := fun tree ht ↦
  (h tree ht.toHoused).imp (fun _ _ ↦ ht.of_upholds) fun _ _ _ ↦ trivial

end Edit.Lodges

namespace Tree

variable {α : Type} {tree mid : Tree} {id : FieldId}

theorem Upholds.andThen (h : tree.Upholds mid) {edit : Edit α} (he : edit.Lodges) :
    edit.Meets mid (fun _ ↦ tree.Upholds) fun _ ↦ Housed :=
  (he mid h.housed).imp (fun _ _ ↦ h.trans) fun _ _ ha ↦ ha

/-! ## Cascades -/

theorem propagate_lodges (refresh : Bool) (source : Source) :
    (propagate (enter refresh) source).Lodges := fun tree h ↦
  ((propagate_keeps_sound refresh source tree h.sound).and
    ((Housing.enter refresh).propagate (Confined.enter refresh) h.sound h.homed source)).imp
    (fun _ _ ⟨hs, hh⟩ ↦ ⟨hh, hs⟩) fun _ _ ⟨hs, hm⟩ ↦ ⟨hs, hm⟩

theorem settle_lodges (source : Source) : (settle source).Lodges := by
  intro tree h
  rw [meets_settle]
  exact (propagate_lodges true source tree h).imp (fun _ _ ha ↦ ha.trans ha.housed.refresh)
    fun _ _ ha ↦ ha.refresh.housed

theorem childrenChanged_lodges (parent : NodeId) (refresh : Bool) :
    (childrenChanged parent refresh).Lodges := by
  unfold LightTree.childrenChanged
  split
  · exact settle_lodges _
  · exact propagate_lodges false _

/-! ## Attaching and building -/

theorem attach_lodges (parent child : NodeId) (refresh : Bool) :
    (attach parent child refresh).Lodges := by
  intro tree h
  rw [meets_attach]
  exact ⟨fun _ ↦ .refl h, fun _ ↦ ⟨fun _ _ ↦ h, fun _ ↦
    (h.adopt parent child).andThen (childrenChanged_lodges parent refresh)⟩⟩

theorem furnish_lodges (id : NodeId) (decls : List FieldDecl) (h : tree.Housed)
    (hid : tree.LiveNode id) :
    (furnish id decls).Meets tree (fun _ ↦ tree.Upholds) fun _ ↦ Housed := by
  induction decls generalizing tree with
  | nil => exact .refl h
  | cons decl rest ih =>
      rw [meets_furnish_cons]
      have hhost := hosts_whole hid.lt_size
      have hg := h.sound.governs
      have hv := Confined.enter false
      refine ((hv.instantiate hg hhost (fun _ _ ↦ trivial) decl).and
        ((Housing.enter false).instantiate hv h.sound h.homed hhost [] decl)).imp ?_
        fun _ _ ⟨hlead, hm⟩ ↦ ⟨h.sound.of_leads hlead, hm⟩
      rintro field mid ⟨⟨hlead, hloose, _⟩, hequips⟩
      have hnode : mid.LiveNode id := ((hlead.framed hg).nodes.liveNode id).2 hid
      have hup := Upholds.addTop (h.sound.of_leads hlead) hnode hloose hequips
      exact (ih hup.housed ((liveNode_updateNode _ _ _ _).2 hnode)).imp (fun _ _ ↦ hup.trans)
        fun _ _ ha ↦ ha

section

variable {make : NodeKind → Edit NodeId} (hmake : ∀ kind, (make kind).Lodges)

include hmake

theorem populateOne_lodges (id : NodeId) (kind childKind : NodeKind) :
    (populateOne make id kind childKind).Lodges := by
  intro tree h
  rw [meets_populateOne]
  refine (hmake childKind tree h).imp (fun child mid hmid ↦ ?_) fun _ _ ha ↦ ha
  exact (hmid.andThen (attach_lodges id child false)).imp
    (fun _ _ ha ↦ ⟨fun _ ↦ (ha.housed.releaseNode child).housed, fun _ ↦ ha⟩)
    fun _ _ ha ↦ (ha.releaseNode child).housed

theorem populate_lodges (id : NodeId) (kind : NodeKind) (childKind? : Option NodeKind)
    (count : Nat) : (populate make id kind childKind? count).Lodges := by
  induction count with
  | zero => exact fun _ h ↦ .refl h
  | succ count ih =>
      intro tree h
      rw [meets_populate_succ]
      exact ⟨fun _ ↦ h, fun childKind _ ↦
        (populateOne_lodges hmake id kind childKind tree h).imp (fun _ _ ha ↦ ha.andThen ih)
          fun _ _ ha ↦ ha⟩

theorem build_lodges (id : NodeId) (kind : NodeKind) (h : tree.Housed) (hid : tree.LiveNode id) :
    (build make id kind).Meets tree (fun _ ↦ tree.Upholds) fun _ ↦ Housed := by
  rw [meets_build]
  refine (furnish_lodges id kind.fields h hid).imp (fun _ mid hmid ↦ ?_) fun _ _ ha ↦ ha
  exact ⟨fun _ ↦ hmid.andThen (populate_lodges hmake id kind _ _), fun _ ↦ hmid⟩

end

theorem createWithin_lodges (depth : Nat) (kind : NodeKind) :
    (createWithin depth kind).Lodges := by
  induction depth generalizing kind with
  | zero => exact fun _ h ↦ h
  | succ depth ih =>
      intro tree h
      rw [meets_createWithin_succ]
      have hlive : (tree.insertNode { kind }).LiveNode tree.nextNode :=
        (liveNode_insertNode _ _ _).2 (.inl rfl)
      have hnew := h.insertNode kind
      exact ⟨fun _ _ ↦ h, fun _ ↦ (build_lodges ih _ kind hnew.housed hlive).imp
        (fun _ _ ↦ hnew.trans) fun _ _ ha ↦ (ha.releaseNode _).housed⟩

theorem create_lodges (kind : NodeKind) : (create kind).Lodges :=
  createWithin_lodges 5 kind

/-! ## Adding and removing -/

theorem addChild_lodges (parent child : NodeId) : (addChild parent child).Lodges := by
  intro tree h
  rw [meets_addChild]
  exact (attach_lodges parent child true tree h).imp
    (fun _ _ ha ↦ ⟨fun _ ↦ ha.trans (ha.housed.giveUp child), fun _ ↦ ha⟩)
    fun _ _ ha ↦ (ha.giveUp child).housed

theorem removeChild_lodges (parent child : NodeId) : (removeChild parent child).Lodges := by
  intro tree h
  rw [meets_removeChild]
  refine ⟨fun _ ↦ .refl h, fun _ ↦ ⟨fun _ _ ↦ h, fun _ ↦ ?_⟩⟩
  have hgone := h.disown parent child
  exact (hgone.trans (hgone.housed.releaseNode child)).andThen (childrenChanged_lodges parent true)

theorem retype_lodges (id : NodeId) (symbol : String) : (retype id symbol).Lodges := by
  intro tree h
  refine meets_retype (.refl h) fun node parent kind _ _ _ ↦ ⟨fun _ _ ↦ h, fun _ ↦ ?_⟩
  refine (create_lodges kind tree h).imp (fun new mid hmid ↦ ?_) fun _ _ ha ↦ ha
  refine ⟨fun _ ↦ hmid.trans (hmid.housed.releaseNode new), fun _ ↦ ?_⟩
  have hin := hmid.housed.supplant parent id new
  exact ((hmid.trans hin).trans (hin.housed.releaseNode id)).andThen
    (childrenChanged_lodges parent true)

/-! ## Changing values -/

theorem Housed.setValue (h : tree.Housed) {field : Field} {value : Value}
    (hf : tree.field? id = some field) (hold : field.value.IsLeaf) (hnew : value.IsLeaf) :
    tree.Upholds (tree.updateField id ({ · with value })) := by
  have ha := h.sound.setValue hf hold hnew
  have habides := Abides.setValue hf hold hnew
  rw [updateField_value hf hold] at ha habides ⊢
  exact ⟨.updateField h.sound h.homed ha habides fun field ↦
    Value.parts_replaceLeaf hnew field.value, ha⟩

theorem mutate_lodges (id : FieldId) {change : Field → Except Fault Value}
    (hchange : Leafy change) : (mutate id change).Lodges := by
  intro tree h
  refine meets_mutate (fun _ ↦ h) fun _ field value hf hv ↦ ?_
  obtain ⟨hold, hnew⟩ := hchange field value hv
  exact (h.setValue hf hold hnew).andThen (settle_lodges _)

/-- An element that has been built for a list may be handed to it while the list is there. -/
theorem Housed.element (h : tree.Housed) {field : Field} {linked : Bool}
    {template : List FieldDecl} {elements : List (List FieldId)}
    (hf : tree.field? id = some field) (hvalue : field.value = .list linked template elements) :
    (instantiateGroup (enter false) field.owner (some id) [] template).Meets tree
      (fun group mid ↦ mid.Housed ∧ (mid.Live id → tree.Upholds (mid.push id group)))
      fun _ ↦ Housed := by
  have hg := h.sound.governs
  have hv := Confined.enter false
  have hhost := hg.hosts hf trivial
  refine ((hv.instantiateGroup hg hhost .nil template).and
    ((Housing.enter false).instantiateGroup hv h.sound h.homed hhost
      (fun _ hx ↦ absurd hx List.not_mem_nil) template)).imp ?_
    fun _ _ ⟨hlead, hm⟩ ↦ ⟨h.sound.of_leads hlead, hm⟩
  rintro group mid ⟨⟨hlead, hgroup⟩, hmid, _⟩
  have hms := h.sound.of_leads hlead
  have hloose : ∀ x ∈ group, mid.Loose x := fun x hx ↦ (hgroup.loose x hx).1
  exact ⟨⟨hms, hmid.homed⟩, fun hlive ↦
    ⟨hmid.push (shelter?_of_list hf hvalue) hms hlive hgroup.nodup hloose,
      hms.push _ hgroup.nodup hloose⟩⟩

theorem appendElement_lodges (id : FieldId) : (appendElement id).Lodges := by
  intro tree h
  refine meets_appendElement (fun _ ↦ h) fun _ field template elements hf hvalue ↦ ?_
  refine (h.element hf hvalue).imp ?_ fun _ _ ha ↦ ha
  exact fun group mid ⟨hmid, hpush⟩ ↦
    ⟨fun hlive ↦ (hpush hlive).andThen (settle_lodges _), fun _ ↦ hmid⟩

theorem removeElement_lodges (id : FieldId) (index : Nat) : (removeElement id index).Lodges := by
  intro tree h
  refine meets_removeElement (fun _ ↦ h) (.refl h)
    fun _ field template elements element hf hv he ↦ ?_
  have hsplit : Splits (·.eraseIdx index) element field.value := hv ▸ splits_eraseIdx he
  have hdrop : tree.Upholds (tree.drop (tree.unwrap id) (·.eraseIdx index) element) :=
    ⟨.drop h.sound h.homed hf hsplit, h.sound.drop hf hsplit⟩
  exact hdrop.andThen (settle_lodges _)

theorem rebind_lodges (h : tree.Housed) (dependent : FieldId) {source : Source}
    (hissued : tree.Issued source) :
    (rebind dependent source).Meets tree (fun _ ↦ tree.Upholds) fun _ ↦ Housed :=
  ((rebind_keeps_sound h.sound dependent hissued).and
    ((Housing.enter false).rebindWith h.sound h.homed hissued)).imp
    (fun _ _ ⟨hs, hh⟩ ↦ ⟨hh, hs⟩) fun _ _ ⟨hs, hm⟩ ↦ ⟨hs, hm⟩

/-! ## Histories -/

theorem invariant_housed : Invariant Housed (fun _ ↦ Housed) fun _ ↦ True where
  catalog _ _ _ _ := trivial
  create kind _ := (create_lodges kind).keeps
  addChild parent child := (addChild_lodges parent child).keeps
  removeChild parent child := (removeChild_lodges parent child).keeps
  retype id symbol := (retype_lodges id symbol).keeps
  mutate id _ hchange := (mutate_lodges id hchange).keeps
  appendElement id := (appendElement_lodges id).keeps
  removeElement id index := (removeElement_lodges id index).keeps

theorem invariant_tenured : Invariant Tenured (fun _ _ ↦ True) fun _ ↦ True where
  catalog _ _ _ _ := trivial
  create kind _ := (create_lodges kind).keepsTenured
  addChild parent child := (addChild_lodges parent child).keepsTenured
  removeChild parent child := (removeChild_lodges parent child).keepsTenured
  retype id symbol := (retype_lodges id symbol).keepsTenured
  mutate id _ hchange := (mutate_lodges id hchange).keepsTenured
  appendElement id := (appendElement_lodges id).keepsTenured
  removeElement id index := (removeElement_lodges id index).keepsTenured

theorem rebind_keepsTenured (h : tree.Tenured) (dependent : FieldId) {source : Source}
    (hsource : tree.SourceLive source) :
    (rebind dependent source).Meets tree (fun _ ↦ Tenured) fun _ _ ↦ True :=
  (rebind_lodges h.toHoused dependent hsource.issued).imp (fun _ _ ↦ h.of_upholds)
    fun _ _ _ ↦ trivial

theorem Tenured.perform (h : tree.Tenured) {operation : Operation}
    (hl : operation.NamesLive tree) {answer : Answer}
    (hok : (tree.perform operation).1 = .ok answer) : (tree.perform operation).2.Tenured := by
  have hrun : operation.edit.runOn tree = (.ok answer, (tree.perform operation).2) :=
    Prod.ext hok rfl
  refine (invariant_tenured.operation h operation (fun _ _ ↦ trivial) ?_).of_runOn_ok hrun
  rintro dependent source rfl
  exact rebind_keepsTenured h dependent hl

theorem Tenured.run (h : tree.Tenured) {operations : List Operation}
    (hl : tree.RebindsLive operations)
    (hok : ∀ answer ∈ (tree.run operations).1, ∃ a, answer = .ok a) :
    (tree.run operations).2.Tenured := by
  induction operations generalizing tree with
  | nil => exact h
  | cons operation rest ih =>
      rw [run_cons] at hok ⊢
      obtain ⟨a, ha⟩ := hok _ List.mem_cons_self
      exact ih (h.perform hl.1 ha) hl.2 fun answer hm ↦ hok answer (List.mem_cons_of_mem _ hm)

theorem homed_empty (catalog : Catalog) (settings : Settings) :
    ({ catalog, settings } : Tree).Homed := by
  constructor
  · intro p x hx
    exact absurd (live_of_mem_parts hx) (not_live_iff.2 (field?_empty catalog settings p))
  · intro node x hx
    rw [topFields, node?_empty] at hx
    exact absurd hx List.not_mem_nil

theorem tenured_start {catalog : Catalog} {settings : Settings}
    (h : start catalog settings = .ok tree) : tree.Tenured := by
  refine of_start ?_ h
  have hempty : ({ catalog, settings } : Tree).Tenured := by
    refine ⟨⟨sound_empty catalog settings, homed_empty catalog settings⟩, fun id hid ↦ ?_⟩
    exact not_live_iff.2 (field?_empty catalog settings id) hid.live
  have hroot := hempty.insertNode catalog.root
  exact (build_lodges create_lodges ⟨0⟩ catalog.root hroot.housed
    ((liveNode_insertNode _ _ _).2 (.inl rfl))).imp
    (fun _ _ ha ↦ hempty.of_upholds (hroot.trans ha)) fun _ _ _ ↦ trivial

end Tree

end LightTree
