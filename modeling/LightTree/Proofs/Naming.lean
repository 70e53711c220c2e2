import LightTree.Proofs.Refusals
import LightTree.Proofs.Rigging

/-!
# Accepted kinds that resolve

As long as all kinds are local, no operation that builds fields misses a source, whatever was built,
moved and removed before it, and what it builds is wired to the sources that the declarations mean.
Kinds that are accepted but not local do miss one: the field of an outer element is in scope for the
check, but not for the new field.
-/

namespace LightTree

open Edit

/-- Whether a kind is accepted and local. -/
def NodeKind.Resolvable (kind : NodeKind) : Prop :=
  kind.check = .ok () ∧ kind.isLocal = true

theorem Catalog.check_of_mem (catalog : Catalog) {kind : NodeKind} (h : kind ∈ catalog.kinds) :
    kind.check = .ok () := by
  have hchecked := catalog.checked
  unfold Catalog.check at hchecked
  cases hall : catalog.kinds.forM NodeKind.check with
  | ok u => exact eq_ok_of_forM_eq_ok hall kind h
  | error fault =>
      rw [hall] at hchecked
      cases hchecked

namespace Tree

/-- A tree where names resolve by what it knows itself, and whose catalog is local. -/
structure Named (tree : Tree) : Prop where
  names : tree.Scoped tree
  kinds : ∀ kind ∈ tree.catalog.kinds, kind.isLocal = true

variable {tree mid after : Tree}

theorem Named.resolvable (h : tree.Named) {kind : NodeKind} (hk : kind ∈ tree.catalog.kinds) :
    kind.Resolvable :=
  ⟨tree.catalog.check_of_mem hk, h.kinds kind hk⟩

theorem Scoped.rebase {base : Tree} (h : base.Scoped tree) : tree.Scoped tree where
  sound := h.sound
  knows _ _ hk := hk
  suits := h.suits.imp fun owner _ ⟨tops, hknown, hlocal⟩ ↦
    ⟨tops, fun name hn ↦ h.knows owner name (hknown name hn), hlocal⟩

theorem Named.of_scoped (h : tree.Named) (ha : tree.Scoped after)
    (hc : after.catalog = tree.catalog) : after.Named :=
  ⟨ha.rebase, hc ▸ h.kinds⟩

/-! ## Nodes -/

/-- Nodes that keep the fields at their top keep the names that they know. -/
theorem Named.of_nodes (h : tree.Named) (ha : after.Sound) (hfield : after.field? = tree.field?)
    (hsize : after.fields.size = tree.fields.size) (hc : after.catalog = tree.catalog)
    (htop : ∀ node x, x ∈ tree.topFields node → x ∈ after.topFields node) : after.Named := by
  have hab : tree.Abides after := .of_field? hfield hsize
  refine h.of_scoped ⟨ha, fun node name hk ↦ ?_, h.names.suits.of_abides hab hsize⟩ hc
  refine hab.finds hk fun x hx hl ↦ ⟨htop node x hx, ?_⟩
  rwa [Live, hfield]

theorem Named.adopt (h : tree.Named) (parent child : NodeId) : (tree.adopt parent child).Named := by
  refine h.of_nodes (h.names.sound.adopt parent child) rfl rfl rfl fun node x hx ↦ ?_
  rwa [Tree.adopt, topFields_updateNode, topFields_updateNode] <;> exact fun _ ↦ rfl

theorem Named.insertNode (h : tree.Named) (kind : NodeKind) : (tree.insertNode { kind }).Named := by
  refine h.of_nodes (h.names.sound.insertNode rfl rfl) rfl rfl rfl fun node x hx ↦ ?_
  rwa [topFields_insertNode_of_nil rfl]

theorem Named.addTop (h : tree.Named) {node : NodeId} (hnode : tree.LiveNode node) {id : FieldId}
    (hid : tree.Loose id) : (tree.addTop node id).Named := by
  refine h.of_nodes (h.names.sound.addTop hnode hid) rfl rfl rfl fun n x hx ↦ ?_
  rw [topFields_addTop tree hnode]
  split
  · next heq =>
      subst heq
      exact List.mem_append_left _ hx
  · exact hx

end Tree

/-- An edit leads from a tree where names resolve to another one, or fails for another reason than a
missing source. -/
def Edit.Names {α : Type} (edit : Edit α) : Prop :=
  edit.Carries Tree.Named fun fault _ ↦ fault.isUnknownSource = false

namespace Tree

variable {tree : Tree}

theorem childrenChanged_names (parent : NodeId) (refresh : Bool) :
    (childrenChanged parent refresh).Names := by
  intro tree h
  exact ((Resolving.childrenChanged h.names parent refresh).and
    (lasting_catalog.childrenChanged parent refresh tree)).imp
    (fun _ _ ha ↦ h.of_scoped ha.1 ha.2) fun _ _ ha ↦ ha.1

theorem attach_names (parent child : NodeId) (refresh : Bool) :
    (attach parent child refresh).Names := by
  intro tree h
  rw [meets_attach]
  exact ⟨fun _ ↦ h, fun _ ↦ ⟨fun _ ↦ isUnknownSource_of_rehearse, fun _ ↦
    childrenChanged_names parent refresh _ (h.adopt parent child)⟩⟩

/-! ## Building -/

/-- The fields of a node are built in order, each after those whose names it may use. -/
theorem furnish_names (h : tree.Named) {id : NodeId} (hid : tree.LiveNode id)
    {declared : List String} (hdeclared : ∀ name ∈ declared, tree.Knows id name)
    {decls : List FieldDecl} (hlocal : FieldDecl.fieldsAreLocal declared decls = true) :
    (furnish id decls).Meets tree (fun _ ↦ Named) fun fault _ ↦ fault.isUnknownSource = false := by
  induction decls generalizing tree declared with
  | nil => exact h
  | cons decl rest ih =>
      rw [FieldDecl.fieldsAreLocal, Bool.and_eq_true] at hlocal
      rw [meets_furnish_cons]
      have hhost := hosts_whole hid.lt_size
      have hg := h.names.sound.governs
      have hv := Confined.enter false
      have habides : ∀ d, (enter false d).Respects Abides := lasting_abides.toHarmless.enter false
      refine ((((hv.instantiate hg hhost (fun _ hx ↦ absurd hx List.not_mem_nil) decl).and
        (Resolving.instantiate_named habides decl)).and
        ((Resolving.enter false).instantiate hv h.names hhost
          (fun _ hx ↦ absurd hx List.not_mem_nil) hdeclared
          (fun _ hn ↦ absurd hn List.not_mem_nil) decl hlocal.1)).and
        (lasting_catalog.toHarmless.instantiate (lasting_catalog.enter false) [] none decl
          tree)).imp ?_ fun _ _ ha ↦ ha.1.2
      rintro field mid ⟨⟨⟨⟨hlead, hloose, _⟩, hname⟩, hmid⟩, hcatalog⟩
      have hnode : mid.LiveNode id := ((hlead.framed hg).nodes.liveNode id).2 hid
      have hnamed := (h.of_scoped hmid hcatalog).addTop hnode hloose
      refine ih hnamed ((liveNode_updateNode _ _ _ _).2 hnode) (fun name hn ↦ ?_) hlocal.2
      rw [Knows, topFields_addTop mid hnode, if_pos rfl]
      rcases List.mem_append.1 hn with hn | hn
      · obtain ⟨x, hx, hxn⟩ := hmid.knows id name (hdeclared name hn)
        exact ⟨x, List.mem_append_left _ hx, hxn⟩
      · rw [List.mem_singleton.1 hn]
        exact ⟨field, List.mem_append_right _ (List.mem_singleton.2 rfl), hname hloose.live⟩

section

variable {make : NodeKind → Edit NodeId} (hmake : ∀ kind, kind.Resolvable → (make kind).Names)

include hmake

theorem populateOne_names (id : NodeId) (kind : NodeKind) {childKind : NodeKind}
    (hchild : childKind.Resolvable) : (populateOne make id kind childKind).Names := by
  intro tree h
  rw [meets_populateOne]
  refine (hmake childKind hchild tree h).imp (fun child mid hmid ↦ ?_) fun _ _ ha ↦ ha
  exact (attach_names id child false mid hmid).imp (fun _ _ ha ↦ ⟨fun _ ↦ rfl, fun _ ↦ ha⟩)
    fun _ _ ha ↦ ha

theorem populate_names (id : NodeId) (kind : NodeKind) {childKind? : Option NodeKind}
    (hchild : ∀ childKind, childKind? = some childKind → childKind.Resolvable) (count : Nat) :
    (populate make id kind childKind? count).Names := by
  induction count with
  | zero => exact fun _ h ↦ h
  | succ count ih =>
      intro tree h
      rw [meets_populate_succ]
      exact ⟨fun _ ↦ rfl, fun childKind hk ↦
        (populateOne_names hmake id kind (hchild childKind hk) tree h).imp (fun _ ↦ ih)
          fun _ _ ha ↦ ha⟩

theorem build_names (h : tree.Named) {id : NodeId} (hid : tree.LiveNode id) {kind : NodeKind}
    (hlocal : kind.isLocal = true) :
    (build make id kind).Meets tree (fun _ ↦ Named)
      fun fault _ ↦ fault.isUnknownSource = false := by
  rw [meets_build]
  refine (furnish_names h hid (fun _ hn ↦ absurd hn List.not_mem_nil) hlocal).imp
    (fun _ mid hmid ↦ ⟨fun _ ↦ ?_, fun _ ↦ hmid⟩) fun _ _ ha ↦ ha
  refine populate_names hmake id kind (fun childKind hk ↦ ?_) _ mid hmid
  exact hmid.resolvable (List.mem_of_find?_eq_some hk)

end

theorem createWithin_names (depth : Nat) {kind : NodeKind} (hkind : kind.Resolvable) :
    (createWithin depth kind).Names := by
  induction depth generalizing kind with
  | zero => exact fun _ _ ↦ rfl
  | succ depth ih =>
      intro tree h
      rw [meets_createWithin_succ]
      refine ⟨fun fault hfault ↦ ?_, fun _ ↦ ?_⟩
      · rw [hkind.1] at hfault
        cases hfault
      · have hlive : (tree.insertNode { kind }).LiveNode tree.nextNode :=
          (liveNode_insertNode _ _ _).2 (.inl rfl)
        exact (build_names (fun kind hk ↦ ih hk) (h.insertNode kind) hlive hkind.2).imp
          (fun _ _ ha ↦ ha) fun _ _ ha ↦ ha

theorem create_names {kind : NodeKind} (hkind : kind.Resolvable) : (create kind).Names :=
  createWithin_names 5 hkind

/-! ## Adding and removing -/

/-- What is left of a tenured tree belongs to nodes that are left, with all the fields at their
top. -/
theorem Named.releaseNode (h : tree.Named) (ht : tree.Tenured) (id : NodeId) :
    (tree.releaseNode id).Named := by
  have hs := releaseNode_shrinks tree id
  have hab : tree.Abides (tree.releaseNode id) := .of_shrinks hs
  have ha := ht.of_upholds (ht.releaseNode id)
  refine ⟨⟨ha.sound, fun _ _ hk ↦ hk, fun x owner template hx ↦ ?_⟩, hs.catalog ▸ h.kinds⟩
  have hl := live_of_template?_eq_some hx
  have htop := ht.topFields_releaseNode hx
  rw [hab.template? (hs.fields_size ▸ hl.lt_size) hl] at hx
  obtain ⟨tops, hknown, hlocal⟩ := h.names.suits x owner template hx
  refine ⟨tops, fun name hn ↦ hab.finds (hknown name hn) fun y hy _ ↦ ?_, hlocal⟩
  exact ⟨htop ▸ hy, ha.sound.owned.tops_live owner y (htop ▸ hy)⟩

theorem Named.giveUp (h : tree.Named) (ht : tree.Tenured) (child : NodeId) :
    (tree.giveUp child).Named := by
  unfold Tree.giveUp
  split
  · exact h.releaseNode ht child
  · exact h

theorem Named.disown (h : tree.Named) (parent child : NodeId) :
    (tree.disown parent child).Named := by
  refine h.of_nodes (h.names.sound.disown parent child) rfl rfl rfl fun node x hx ↦ ?_
  rwa [Tree.disown, topFields_updateNode]
  exact fun _ ↦ rfl

theorem Named.supplant (h : tree.Named) (parent old new : NodeId) :
    (tree.supplant parent old new).Named := by
  refine h.of_nodes (h.names.sound.supplant parent old new) rfl rfl rfl fun node x hx ↦ ?_
  rwa [Tree.supplant, topFields_updateNode, topFields_updateNode] <;> exact fun _ ↦ rfl

theorem addChild_names (h : tree.Named) (ht : tree.Tenured) (parent child : NodeId) :
    (addChild parent child).Meets tree (fun _ ↦ Named)
      fun fault _ ↦ fault.isUnknownSource = false := by
  rw [meets_addChild]
  exact ((attach_names parent child true tree h).and
    ((attach_lodges parent child true).keepsTenured tree ht)).imp
    (fun _ _ ha ↦ ⟨fun _ ↦ ha.1.giveUp ha.2 child, fun _ ↦ ha.1⟩) fun _ _ ha ↦ ha.1

theorem addByCategory_names (h : tree.Named) (ht : tree.Tenured) (parent : NodeId)
    (category : Category) :
    (addByCategory parent category).Meets tree (fun _ ↦ Named)
      fun fault _ ↦ fault.isUnknownSource = false := by
  rw [meets_addByCategory]
  refine ⟨fun _ ↦ h, fun kind _ hk ↦ ?_⟩
  have hkind := h.resolvable (List.mem_of_find?_eq_some hk)
  exact ((create_names hkind tree h).and ((create_lodges kind).keepsTenured tree ht)).imp
    (fun child mid hmid ↦ addChild_names hmid.1 hmid.2 parent child) fun _ _ ha ↦ ha.1

theorem removeChild_names (h : tree.Named) (ht : tree.Tenured) (parent child : NodeId) :
    (removeChild parent child).Meets tree (fun _ ↦ Named)
      fun fault _ ↦ fault.isUnknownSource = false := by
  rw [meets_removeChild]
  exact ⟨fun _ ↦ h, fun _ ↦ ⟨fun _ ↦ isUnknownSource_of_rehearse, fun _ ↦
    childrenChanged_names parent true _
      ((h.disown parent child).releaseNode (ht.of_upholds (ht.disown parent child)) child)⟩⟩

theorem retype_names (h : tree.Named) (ht : tree.Tenured) (id : NodeId) (symbol : String) :
    (retype id symbol).Meets tree (fun _ ↦ Named)
      fun fault _ ↦ fault.isUnknownSource = false := by
  refine meets_retype h fun node parent kind _ _ hk ↦
    ⟨fun _ ↦ isUnknownSource_of_rehearse, fun _ ↦ ?_⟩
  have hkind := h.resolvable (List.mem_of_find?_eq_some hk)
  refine ((create_names hkind tree h).and ((create_lodges kind).keepsTenured tree ht)).imp
    (fun new mid hmid ↦ ?_) fun _ _ ha ↦ ha.1
  have hin := hmid.2.of_upholds (hmid.2.supplant parent id new)
  exact ⟨fun _ ↦ hmid.1.releaseNode hmid.2 new, fun _ ↦ childrenChanged_names parent true _
    ((hmid.1.supplant parent id new).releaseNode hin id)⟩

/-! ## Changing values -/

theorem settle_names (source : Source) : (settle source).Names := by
  intro tree h
  exact ((Resolving.settle h.names source).and (lasting_catalog.toHarmless.settle source tree)).imp
    (fun _ _ ha ↦ h.of_scoped ha.1 ha.2) fun _ _ ha ↦ ha.1

theorem mutate_names (h : tree.Named) (id : FieldId) {change : Field → Except Fault Value}
    (hchange : Leafy change) : (mutate id change).Meets tree (fun _ ↦ Named) fun _ _ ↦ True := by
  refine meets_mutate (fun _ ↦ trivial) fun _ field value hf hv ↦ ?_
  obtain ⟨hold, hnew⟩ := hchange field value hv
  have hab := Abides.setValue hf hold hnew
  have ha := h.names.step (.updateField tree _ _) hab (h.names.sound.setValue hf hold hnew)
    (h.names.suits.of_abides hab (size_updateField tree _ _))
  exact (settle_names _ _ (h.of_scoped ha rfl)).imp (fun _ _ hm ↦ hm) fun _ _ _ ↦ trivial

theorem appendElement_names (h : tree.Named) (id : FieldId) :
    (appendElement id).Meets tree (fun _ ↦ Named)
      fun fault _ ↦ fault.isUnknownSource = false := by
  unfold appendElement
  rw [meets_bind, meets_target]
  refine ⟨fun _ ↦ isUnknownSource_of_rehearse,
    fun _ ↦ ⟨fun field hf ↦ ?_, fun _ ↦ rfl⟩⟩
  cases hvalue : field.value with
  | scalar | choice | gated =>
      simp only [hvalue, meets_throw]
      rfl
  | list linked template elements =>
      cases linked with
      | true =>
          simp only [hvalue, meets_throw]
          rfl
      | false =>
          simp only [hvalue, meets_bind, meets_discard_field, meets_mapElements, meets_pure]
          have hg := h.names.sound.governs
          have hv := Confined.enter false
          have hhost := hg.hosts hf trivial
          refine (((hv.instantiateGroup hg hhost .nil template).and
            (Resolving.element (lasting_abides.toHarmless.enter false) hv (Resolving.enter false)
              h.names hhost (h.names.suits _ _ _ (template?_of_list hf hvalue)))).and
            (lasting_catalog.toHarmless.instantiateGroup (lasting_catalog.enter false) _ [] template
              tree)).imp ?_ fun _ _ ha ↦ ha.1.2
          rintro group mid ⟨⟨⟨hlead, hgroup⟩, hmid⟩, hcatalog⟩
          have hpush : tree.Scoped (mid.push (tree.unwrap id) group) :=
            h.names.of_leads (hlead.tail (.push trivial hgroup.nodup hgroup.loose))
              (hmid.suits.push _ group)
          exact ⟨fun _ ↦ settle_names _ _ (h.of_scoped hpush hcatalog), fun _ ↦ rfl⟩

theorem removeElement_names (h : tree.Named) (id : FieldId) (index : Nat) :
    (removeElement id index).Meets tree (fun _ ↦ Named) fun _ _ ↦ True := by
  refine meets_removeElement (fun _ ↦ trivial) h
    fun _ field template elements element hf hv he ↦ ?_
  have hsplit : Splits (·.eraseIdx index) element field.value := hv ▸ splits_eraseIdx he
  have ha := h.names.step (.drop tree _ _ _) (.drop tree _ _ _) (h.names.sound.drop hf hsplit)
    (h.names.suits.of_abides (.drop tree _ _ _) (Region.fields_size_drop tree _ _ _))
  exact (settle_names _ _ (h.of_scoped ha (SameNodes.drop tree _ _ _).catalog)).imp
    (fun _ _ hm ↦ hm) fun _ _ _ ↦ trivial

theorem rebind_names (h : tree.Named) (dependent : FieldId) {source : Source}
    (hsource : tree.SourceLive source) :
    (rebind dependent source).Meets tree (fun _ ↦ Named)
      fun fault _ ↦ fault.isUnknownSource = false :=
  (((Resolving.enter false).rebindWith h.names dependent hsource.issued).and
    (lasting_catalog.rebind dependent source tree)).imp
    (fun _ _ ha ↦ h.of_scoped ha.1 ha.2) fun _ _ ha ↦ ha.1

/-! ## Histories -/

theorem invariant_named :
    Invariant (fun tree ↦ tree.Tenured ∧ tree.Named) (fun _ _ ↦ True) NodeKind.Resolvable where
  catalog _ h _ hk := h.2.resolvable hk
  create kind hkind tree h :=
    meets_tenured_and (invariant_tenured.create kind trivial tree h.1) (create_names hkind tree h.2)
  addChild parent child tree h :=
    meets_tenured_and (invariant_tenured.addChild parent child tree h.1)
      (addChild_names h.2 h.1 parent child)
  removeChild parent child tree h :=
    meets_tenured_and (invariant_tenured.removeChild parent child tree h.1)
      (removeChild_names h.2 h.1 parent child)
  retype id symbol tree h :=
    meets_tenured_and (invariant_tenured.retype id symbol tree h.1)
      (retype_names h.2 h.1 id symbol)
  mutate id change hchange tree h :=
    meets_tenured_and (invariant_tenured.mutate id change hchange tree h.1)
      (mutate_names h.2 id hchange)
  appendElement id tree h :=
    meets_tenured_and (invariant_tenured.appendElement id tree h.1) (appendElement_names h.2 id)
  removeElement id index tree h :=
    meets_tenured_and (invariant_tenured.removeElement id index tree h.1)
      (removeElement_names h.2 id index)

theorem named_perform (ht : tree.Tenured) (h : tree.Named) {operation : Operation}
    (hcreate : ∀ kind, operation = .create kind → kind.Resolvable)
    (hl : operation.NamesLive tree) {answer : Answer}
    (hok : (tree.perform operation).1 = .ok answer) :
    (tree.perform operation).2.Tenured ∧ (tree.perform operation).2.Named := by
  have hrun : operation.edit.runOn tree = (.ok answer, (tree.perform operation).2) :=
    Prod.ext hok rfl
  refine (invariant_named.operation ⟨ht, h⟩ operation hcreate ?_).of_runOn_ok hrun
  rintro dependent source rfl
  exact meets_tenured_and (rebind_keepsTenured ht dependent hl) (rebind_names h dependent hl)

theorem named_run (ht : tree.Tenured) (h : tree.Named) {operations : List Operation}
    (hcreate : ∀ kind, .create kind ∈ operations → kind.Resolvable)
    (hl : tree.RebindsLive operations)
    (hok : ∀ answer ∈ (tree.run operations).1, ∃ a, answer = .ok a) :
    (tree.run operations).2.Tenured ∧ (tree.run operations).2.Named := by
  induction operations generalizing tree with
  | nil => exact ⟨ht, h⟩
  | cons operation rest ih =>
      rw [run_cons] at hok ⊢
      obtain ⟨a, ha⟩ := hok _ List.mem_cons_self
      have hfirst := named_perform ht h
        (fun kind he ↦ hcreate kind (he ▸ List.mem_cons_self)) hl.1 ha
      exact ih hfirst.1 hfirst.2 (fun kind hk ↦ hcreate kind (List.mem_cons_of_mem _ hk)) hl.2
        fun answer hm ↦ hok answer (List.mem_cons_of_mem _ hm)

theorem named_start {catalog : Catalog} {settings : Settings}
    (hkinds : ∀ kind ∈ catalog.kinds, kind.isLocal = true)
    (h : start catalog settings = .ok tree) : tree.Named := by
  refine of_start ?_ h
  have hempty : ({ catalog, settings } : Tree).Named := by
    refine ⟨⟨sound_empty catalog settings, fun _ _ hk ↦ hk, fun id _ _ ht ↦ ?_⟩, hkinds⟩
    exact absurd (live_of_template?_eq_some ht) (not_live_iff.2 (field?_empty catalog settings id))
  exact (build_names (fun _ hk ↦ create_names hk) (hempty.insertNode catalog.root)
    ((liveNode_insertNode _ _ _).2 (.inl rfl)) (hkinds _ catalog.root_mem)).imp (fun _ _ ha ↦ ha)
    fun _ _ _ ↦ trivial

theorem edit_resolves (ht : tree.Tenured) (h : tree.Named) {operation : Operation}
    (hcreate : ∀ kind, operation = .create kind → kind.Resolvable)
    (hgrows : operation.grows = true) (hl : operation.NamesLive tree) :
    operation.edit.Meets tree (fun _ _ ↦ True) fun fault _ ↦ fault.isUnknownSource = false := by
  have hanswer : ∀ {α : Type} {edit : Edit α} (answer : α → Answer),
      edit.Meets tree (fun _ ↦ Named) (fun fault _ ↦ fault.isUnknownSource = false) →
      (edit >>= fun a ↦ pure (answer a) : Edit Answer).Meets tree (fun _ _ ↦ True)
        fun fault _ ↦ fault.isUnknownSource = false := by
    intro α edit answer hedit
    rw [meets_bind]
    exact hedit.imp (fun _ _ _ ↦ trivial) fun _ _ hf ↦ hf
  cases operation with
  | create kind => exact hanswer .created (create_names (hcreate kind rfl) tree h)
  | addChild parent child => exact hanswer .outcome (addChild_names h ht parent child)
  | addByCategory parent category =>
      exact hanswer .outcome (addByCategory_names h ht parent category)
  | retype id symbol => exact hanswer .outcome (retype_names h ht id symbol)
  | appendElement id => exact hanswer .element (appendElement_names h id)
  | rebind dependent source => exact hanswer (fun _ ↦ .done) (rebind_names h dependent hl)
  | removeChild | detach | setInteger | setBoolean | choose | setText | setColor | removeElement =>
      cases hgrows

/-- As long as all kinds are accepted and local, no operation after a history without faults misses
a source. The fields of a new element are wired to the fields that their declarations mean: those
declared before them in the element, and else those at the top of the node. So is all else that an
operation builds, the elements of lists that grow and the fields of created nodes, and so is the
first tree. -/
theorem resolved_run {catalog : Catalog} {settings : Settings} {tree : Tree}
    {operations : List Operation} (hkinds : ∀ kind ∈ catalog.kinds, kind.isLocal = true)
    (hstart : start catalog settings = .ok tree)
    (hcreate : ∀ kind, .create kind ∈ operations → kind.Resolvable)
    (hlive : tree.RebindsLive operations)
    (hok : ∀ answer ∈ (tree.run operations).1, ∃ a, answer = .ok a) {final : Tree}
    (hfinal : (tree.run operations).2 = final) {operation : Operation}
    (hnew : ∀ kind, operation = .create kind → kind.Resolvable)
    (hgrows : operation.grows = true) (hnames : operation.NamesLive final) :
    (∀ field source, (final.perform operation).1 ≠ .error (.unknownSource field source)) ∧
      (∀ id group, operation = .appendElement id →
        (final.perform operation).1 = .ok (.element group) →
        final.WiresElement (final.perform operation).2 (final.unwrap id) group) ∧
      (∀ answer, (final.perform operation).1 = .ok answer →
        final.WiredSince (final.perform operation).2) ∧
      ({ catalog, settings } : Tree).WiredSince tree := by
  obtain ⟨ht, h⟩ := named_run (tenured_start hstart) (named_start hkinds hstart) hcreate hlive hok
  rw [hfinal] at ht h
  refine ⟨?_, ?_, fun answer ↦ ht.wiredSince_perform hnames, wiredSince_start hstart⟩
  · intro field source herror
    have hfault := (meets_iff.1 (edit_resolves ht h hnew hgrows hnames)).2 _ _
      (Prod.ext herror rfl)
    cases hfault
  · rintro id group rfl hgroup
    have hwires : (Operation.appendElement id).edit.Meets final
        (fun answer after ↦ ∀ group, answer = .element group →
          final.WiresElement after (final.unwrap id) group) fun _ _ ↦ True := by
      refine (meets_bind ..).2 ((appendElement_wires h.names.sound id).imp ?_ fun _ _ hf ↦ hf)
      rintro group after hw other heq
      cases heq
      exact hw
    exact hwires.of_runOn_ok (Prod.ext hgroup rfl) group rfl

/-- In the elements of a list one field depends on the field before it, another on the top. -/
def localKind : NodeKind :=
  loneKind [.scalar "g" (.boolean false), .list "a" .free [.scalar "v" (.boolean false),
    .gated "w" "v" .present (.scalar "i" (.integer 0)),
    .gated "u" "g" .present (.scalar "k" (.integer 0))]]

/-- The second element of the list is wired as the first one was. -/
theorem resolved_run_local :
    let final := ((loneTree localKind rfl).run [.appendElement ⟨1⟩]).2
    (final.perform (.appendElement ⟨1⟩)).1 = .ok (.element [⟨7⟩, ⟨9⟩, ⟨11⟩]) ∧
      final.WiresElement (final.perform (.appendElement ⟨1⟩)).2 ⟨1⟩ [⟨7⟩, ⟨9⟩, ⟨11⟩] ∧
      final.WiredSince (final.perform (.appendElement ⟨1⟩)).2 := by
  intro final
  have hstart : start ⟨[localKind], rfl⟩ {} = .ok (loneTree localKind rfl) := rfl
  have hkinds : ∀ kind ∈ (⟨[localKind], rfl⟩ : Catalog).kinds, kind.isLocal = true := by
    decide +kernel
  have hok : ∀ answer ∈ ((loneTree localKind rfl).run [.appendElement ⟨1⟩]).1,
      ∃ a, answer = .ok a := by
    have hanswers : ((loneTree localKind rfl).run [.appendElement ⟨1⟩]).1 =
        [.ok (.element [⟨2⟩, ⟨4⟩, ⟨6⟩])] := by
      decide +kernel
    rw [hanswers]
    exact fun answer ha ↦ ⟨_, List.mem_singleton.1 ha⟩
  have hcreate : ∀ kind, .create kind ∈ [Operation.appendElement ⟨1⟩] → kind.Resolvable := by
    intro kind hk
    cases List.mem_singleton.1 hk
  have hlive : (loneTree localKind rfl).RebindsLive [.appendElement ⟨1⟩] := ⟨trivial, trivial⟩
  have hnew : ∀ kind, Operation.appendElement ⟨1⟩ = .create kind → kind.Resolvable := by
    intro kind hk
    cases hk
  have hgroup : (final.perform (.appendElement ⟨1⟩)).1 = .ok (.element [⟨7⟩, ⟨9⟩, ⟨11⟩]) := by
    decide +kernel
  have hresolved := resolved_run hkinds hstart hcreate hlive hok rfl hnew rfl trivial
  exact ⟨hgroup, hresolved.2.1 ⟨1⟩ _ rfl hgroup, hresolved.2.2.1 _ hgroup⟩

/-- The element of a list that has grown along is wired within itself. -/
example :
    let kind := loneKind [.list "a" .free [], .list "b" (.field "a") [.scalar "v" (.boolean false),
      .gated "w" "v" .present (.scalar "i" (.integer 0))]]
    let after := ((loneTree kind rfl).perform (.appendElement ⟨0⟩)).2
    after.elements ⟨1⟩ = [[⟨2⟩, ⟨4⟩]] ∧ after.link? ⟨4⟩ = some (.field ⟨2⟩) := by
  decide +kernel

/-- A field in an inner element that depends on a field of the outer element. -/
def nestedKind : NodeKind :=
  loneKind [.list "a" .free [.scalar "v" (.boolean false),
    .list "m" .free [.gated "w" "v" .present (.scalar "i" (.integer 0))]]]

/-- The check takes the field of the outer element as known, but the inner element misses it. -/
theorem unresolved_nested :
    nestedKind.check = .ok () ∧
      ((loneTree nestedKind rfl).run [.appendElement ⟨0⟩, .appendElement ⟨2⟩]).1 =
        [.ok (.element [⟨1⟩, ⟨2⟩]), .error (.unknownSource "w" "v")] := by
  decide +kernel

end Tree

end LightTree
