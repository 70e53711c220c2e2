import LightTree.Proofs.Lasting
import LightTree.Proofs.Refreshing

/-!
# Histories leave all fields up to date

A tree is settled if it is sound and all its fields are up to date. An operation that does not fail
leaves a settled tree settled: what it changes spoils only what listens to the changed source, and
the cascade of that source comes last.
-/

namespace LightTree

open Edit

namespace Tree

structure Settled (tree : Tree) : Prop where
  sound : tree.Sound
  upToDate : ∀ id, tree.UpToDate id

def ListensTo (tree : Tree) (id : FieldId) : Source → Prop
  | .field s => tree.Follows id s
  | .children node => tree.link? id = some (.children node)

/-- All fields are up to date but for some that listen to a source. -/
structure SettledBut (tree : Tree) (source : Source) : Prop where
  sound : tree.Sound
  upToDate : ∀ id, tree.UpToDate id ∨ tree.ListensTo id source

variable {tree after : Tree}

theorem Settled.of_keeps (h : tree.Settled) (ha : after.Sound) (hk : tree.Keeps after) :
    after.Settled :=
  ⟨ha, fun id ↦ hk id (h.upToDate id)⟩

theorem Settled.of_shrinks (h : tree.Settled) (hs : tree.Shrinks after) (ha : after.Sound) :
    after.Settled :=
  h.of_keeps ha (hs.keeps h.sound ha)

theorem Settled.releaseNode (h : tree.Settled) (id : NodeId) : (tree.releaseNode id).Settled :=
  h.of_shrinks (releaseNode_shrinks tree id) (h.sound.releaseNode id)

end Tree

/-- An edit that ends without a fault leaves a settled tree settled. -/
def Edit.KeepsSettled {α : Type} (edit : Edit α) : Prop :=
  edit.Carries Tree.Settled fun _ _ ↦ True

namespace Tree

variable {tree after : Tree}

/-! ## Cascades -/

/-- The cascade of a source settles what listens to it. -/
theorem SettledBut.propagate {source : Source} (h : tree.SettledBut source) (refresh : Bool) :
    (propagate (enter refresh) source).Meets tree (fun _ ↦ Settled) fun _ _ ↦ True := by
  have hv := Confined.enter refresh
  have hr := Refreshing.enter refresh
  cases source with
  | field id =>
      refine (Refreshing.propagate_field hv hr h.sound id).imp ?_ fun _ _ _ ↦ trivial
      exact fun _ after ⟨ha, hdone⟩ ↦ ⟨ha, fun j ↦ hdone j (h.upToDate j)⟩
  | children node =>
      rw [meets_propagate_children]
      refine (Refreshing.forM hv hr h.sound _).imp ?_ fun _ _ _ ↦ trivial
      rintro _ after ⟨ha, hdone⟩
      refine ⟨ha, fun j ↦ hdone j ?_⟩
      rcases h.upToDate j with hj | hj
      · exact .inl hj
      · by_cases hnode : tree.LiveNode node
        · exact .inr ((h.sound.mirrored.node_mem_iff node j hnode).2 hj)
        · exact .inl (upToDate_of_source_not_live hj hnode)

theorem SettledBut.settle {source : Source} (h : tree.SettledBut source) :
    (settle source).Meets tree (fun _ ↦ Settled) fun _ _ ↦ True := by
  rw [meets_settle]
  refine (h.propagate true).imp (fun _ after ha ↦ ?_) fun _ _ _ ↦ trivial
  exact ha.of_keeps ha.sound.refresh (keeps_refresh ha.sound)

theorem SettledBut.childrenChanged {parent : NodeId} (h : tree.SettledBut (.children parent))
    (refresh : Bool) :
    (childrenChanged parent refresh).Meets tree (fun _ ↦ Settled) fun _ _ ↦ True := by
  unfold LightTree.childrenChanged
  split
  · exact h.settle
  · exact h.propagate false

/-! ## Nodes -/

/-- A change of the children of one node spoils what listens to them only. -/
theorem Settled.of_children (h : tree.Settled) (ha : after.Sound)
    (hfields : after.field? = tree.field?) {parent : NodeId}
    (hchildren : ∀ node, node ≠ parent → after.LiveNode node →
      tree.LiveNode node ∧ after.children node = tree.children node) :
    after.SettledBut (.children parent) := by
  refine ⟨ha, fun id ↦ ?_⟩
  by_cases hlink : tree.link? id = some (.children parent)
  · right
    have heq : after.link? id = tree.link? id := by
      unfold link? read
      rw [hfields]
    exact heq.trans hlink
  · refine .inl ((h.upToDate id).of_fields h.sound ha hfields fun node hnode hlive ↦ ?_)
    exact hchildren node (fun he ↦ hlink (he ▸ hnode)) hlive

theorem children_updateNode {f : Node → Node} (hf : ∀ node, (f node).children = node.children)
    (id : NodeId) : (tree.updateNode id f).children = tree.children := by
  rw [children_eq_readNode, children_eq_readNode, readNode_updateNode_of_keeps hf]

theorem children_updateNode_of_ne {f : Node → Node} {id node : NodeId} (h : node ≠ id) :
    (tree.updateNode id f).children node = tree.children node := by
  rw [children_eq_readNode, children_eq_readNode, readNode_updateNode_of_ne (Ne.symm h)]

theorem children_adopt_of_ne {parent child node : NodeId} (h : node ≠ parent) :
    (tree.adopt parent child).children node = tree.children node := by
  rw [adopt, children_updateNode, children_updateNode_of_ne h]
  exact fun _ ↦ rfl

theorem children_supplant_of_ne {parent old new node : NodeId} (h : node ≠ parent) :
    (tree.supplant parent old new).children node = tree.children node := by
  rw [supplant, children_updateNode, children_updateNode_of_ne h]
  exact fun _ ↦ rfl

theorem Settled.adopt (h : tree.Settled) (parent child : NodeId) :
    (tree.adopt parent child).SettledBut (.children parent) := by
  refine h.of_children (h.sound.adopt parent child) rfl fun node hne hlive ↦ ?_
  rw [Tree.adopt, liveNode_updateNode, liveNode_updateNode] at hlive
  exact ⟨hlive, children_adopt_of_ne hne⟩

theorem Settled.disown (h : tree.Settled) (parent child : NodeId) :
    (tree.disown parent child).SettledBut (.children parent) := by
  refine h.of_children (h.sound.disown parent child) rfl fun node hne hlive ↦ ?_
  rw [Tree.disown, liveNode_updateNode] at hlive
  exact ⟨hlive, children_updateNode_of_ne hne⟩

theorem Settled.supplant (h : tree.Settled) (parent old new : NodeId) :
    (tree.supplant parent old new).SettledBut (.children parent) := by
  refine h.of_children (h.sound.supplant parent old new) rfl fun node hne hlive ↦ ?_
  rw [Tree.supplant, liveNode_updateNode, liveNode_updateNode] at hlive
  exact ⟨hlive, children_supplant_of_ne hne⟩

theorem SettledBut.releaseNode {parent : NodeId} (h : tree.SettledBut (.children parent))
    (id : NodeId) : (tree.releaseNode id).SettledBut (.children parent) := by
  have hs := releaseNode_shrinks tree id
  have ha := h.sound.releaseNode id
  refine ⟨ha, fun j ↦ ?_⟩
  rcases h.upToDate j with hj | hj
  · exact .inl (hs.keeps h.sound ha j hj)
  · by_cases hlive : (tree.releaseNode id).Live j
    · exact .inr ((hs.link? hlive).trans hj)
    · exact .inl (upToDate_of_not_live hlive)

theorem Settled.insertNode (h : tree.Settled) (kind : NodeKind) :
    (tree.insertNode { kind }).Settled := by
  have ha : (tree.insertNode { kind }).Sound := h.sound.insertNode rfl rfl
  refine ⟨ha, fun id ↦ (h.upToDate id).of_fields h.sound ha rfl fun node hlink hlive ↦ ?_⟩
  have hne : node ≠ tree.nextNode := by
    rintro rfl
    exact Nat.lt_irrefl _ (h.sound.ordered.link_issued id _ hlink)
  refine ⟨((liveNode_insertNode tree _ node).1 hlive).resolve_left hne, ?_⟩
  rw [children_eq_readNode, readNode_insertNode, if_neg hne, children_eq_readNode]

theorem Settled.addTop (h : tree.Settled) {node : NodeId} (hnode : tree.LiveNode node)
    {id : FieldId} (hid : tree.Loose id) : (tree.addTop node id).Settled := by
  have ha := h.sound.addTop hnode hid
  refine ⟨ha, fun j ↦ (h.upToDate j).of_fields h.sound ha rfl fun n _ hlive ↦ ?_⟩
  rw [Tree.addTop, liveNode_updateNode] at hlive
  refine ⟨hlive, ?_⟩
  rw [Tree.addTop, children_updateNode]
  exact fun _ ↦ rfl

theorem Settled.giveUp (h : tree.Settled) (child : NodeId) : (tree.giveUp child).Settled := by
  unfold Tree.giveUp
  split
  · exact h.releaseNode child
  · exact h

/-! ## Attaching and building -/

theorem attach_keepsSettled (parent child : NodeId) (refresh : Bool) :
    (attach parent child refresh).KeepsSettled := by
  intro tree h
  rw [meets_attach]
  exact ⟨fun _ ↦ h, fun _ ↦ ⟨fun _ _ ↦ trivial, fun _ ↦
    (h.adopt parent child).childrenChanged refresh⟩⟩

theorem furnish_settles (id : NodeId) (decls : List FieldDecl) (h : tree.Settled)
    (hid : tree.LiveNode id) :
    (furnish id decls).Meets tree (fun _ ↦ Settled) fun _ _ ↦ True := by
  induction decls generalizing tree with
  | nil => exact h
  | cons decl rest ih =>
      rw [meets_furnish_cons]
      have hhost := hosts_whole hid.lt_size
      have hg := h.sound.governs
      refine (((Confined.enter false).instantiate hg hhost (fun _ _ ↦ trivial) decl).and
        (Refreshing.instantiate (Confined.enter false) (Refreshing.enter false) hg hhost
          (fun _ _ ↦ trivial) decl)).imp ?_ fun _ _ _ ↦ trivial
      rintro field mid ⟨⟨hlead, hloose, _⟩, hkeeps⟩
      have hmid : mid.Settled := h.of_keeps (h.sound.of_leads hlead) hkeeps
      have hnode : mid.LiveNode id := ((hlead.framed hg).nodes.liveNode id).2 hid
      exact ih (hmid.addTop hnode hloose) ((liveNode_updateNode _ _ _ _).2 hnode)

section

variable {make : NodeKind → Edit NodeId} (hmake : ∀ kind, (make kind).KeepsSettled)

include hmake

theorem populateOne_keepsSettled (id : NodeId) (kind childKind : NodeKind) :
    (populateOne make id kind childKind).KeepsSettled := by
  intro tree h
  rw [meets_populateOne]
  refine (hmake childKind tree h).imp (fun child mid hmid ↦ ?_) fun _ _ _ ↦ trivial
  exact (attach_keepsSettled id child false mid hmid).imp
    (fun _ _ ha ↦ ⟨fun _ ↦ trivial, fun _ ↦ ha⟩) fun _ _ _ ↦ trivial

theorem populate_keepsSettled (id : NodeId) (kind : NodeKind) (childKind? : Option NodeKind)
    (count : Nat) : (populate make id kind childKind? count).KeepsSettled := by
  induction count with
  | zero => exact fun _ h ↦ h
  | succ count ih =>
      intro tree h
      rw [meets_populate_succ]
      exact ⟨fun _ ↦ trivial, fun childKind _ ↦
        (populateOne_keepsSettled hmake id kind childKind tree h).imp (fun _ ↦ ih)
          fun _ _ _ ↦ trivial⟩

theorem build_settles (id : NodeId) (kind : NodeKind) (h : tree.Settled)
    (hid : tree.LiveNode id) :
    (build make id kind).Meets tree (fun _ ↦ Settled) fun _ _ ↦ True := by
  rw [meets_build]
  refine (furnish_settles id kind.fields h hid).imp (fun _ mid hmid ↦ ?_) fun _ _ _ ↦ trivial
  exact ⟨fun _ ↦ populate_keepsSettled hmake id kind _ _ mid hmid, fun _ ↦ hmid⟩

end

theorem createWithin_keepsSettled (depth : Nat) (kind : NodeKind) :
    (createWithin depth kind).KeepsSettled := by
  induction depth generalizing kind with
  | zero => exact fun _ _ ↦ trivial
  | succ depth ih =>
      intro tree h
      rw [meets_createWithin_succ]
      have hlive : (tree.insertNode { kind }).LiveNode tree.nextNode :=
        (liveNode_insertNode _ _ _).2 (.inl rfl)
      exact ⟨fun _ _ ↦ trivial, fun _ ↦ (build_settles ih _ kind (h.insertNode kind) hlive).imp
        (fun _ _ ha ↦ ha) fun _ _ _ ↦ trivial⟩

theorem create_keepsSettled (kind : NodeKind) : (create kind).KeepsSettled :=
  createWithin_keepsSettled 5 kind

/-! ## Adding and removing -/

theorem addChild_keepsSettled (parent child : NodeId) : (addChild parent child).KeepsSettled := by
  intro tree h
  rw [meets_addChild]
  exact (attach_keepsSettled parent child true tree h).imp
    (fun _ _ ha ↦ ⟨fun _ ↦ ha.giveUp child, fun _ ↦ ha⟩) fun _ _ _ ↦ trivial

theorem removeChild_keepsSettled (parent child : NodeId) :
    (removeChild parent child).KeepsSettled := by
  intro tree h
  rw [meets_removeChild]
  exact ⟨fun _ ↦ h, fun _ ↦ ⟨fun _ _ ↦ trivial, fun _ ↦
    ((h.disown parent child).releaseNode child).childrenChanged true⟩⟩

theorem retype_keepsSettled (id : NodeId) (symbol : String) : (retype id symbol).KeepsSettled := by
  intro tree h
  refine meets_retype h fun node parent kind _ _ _ ↦ ⟨fun _ _ ↦ trivial, fun _ ↦ ?_⟩
  refine (create_keepsSettled kind tree h).imp (fun new mid hmid ↦ ?_) fun _ _ _ ↦ trivial
  exact ⟨fun _ ↦ hmid.releaseNode new, fun _ ↦
    ((hmid.supplant parent id new).releaseNode id).childrenChanged true⟩

/-! ## Changing values -/

/-- A change that spoils the followers of a field leaves the tree settled but for them. -/
theorem Settled.of_keepsBut (h : tree.Settled) (ha : after.Sound) {id : FieldId}
    (hbut : tree.KeepsBut after id) (hid : after.UpToDate id) :
    after.SettledBut (.field id) := by
  refine ⟨ha, fun j ↦ ?_⟩
  by_cases hj : j = id
  · exact .inl (hj ▸ hid)
  · exact hbut j hj (.inl (h.upToDate j))

/-- A new value spoils what follows its field only. -/
theorem Settled.setValue (h : tree.Settled) {id : FieldId} {field : Field} {value : Value}
    (hf : tree.field? id = some field) (hold : field.value.IsLeaf) (hnew : value.IsLeaf) :
    (tree.updateField id ({ · with value })).SettledBut (.field id) := by
  have ha := h.sound.setValue hf hold hnew
  have hafter : (tree.updateField id ({ · with value })).field? id = some { field with value } := by
    simp [field?_updateField, hf]
  refine h.of_keepsBut ha ?_ (upToDate_of_underived hafter ?_ ?_)
  · rw [updateField_value hf hold] at ha ⊢
    exact keepsBut_updateField h.sound (retouches_replaceLeaf hnew) ha
  · cases value with
    | scalar | choice => rfl
    | list | gated => exact hnew.elim
  · rintro template elements rfl
    exact hnew

theorem mutate_keepsSettled (id : FieldId) {change : Field → Except Fault Value}
    (hchange : Leafy change) : (mutate id change).KeepsSettled := by
  intro tree h
  refine meets_mutate (fun _ ↦ trivial) fun _ field value hf hv ↦ ?_
  obtain ⟨hold, hnew⟩ := hchange field value hv
  exact (h.setValue hf hold hnew).settle

/-- A list that its user sets derives nothing. -/
theorem upToDate_of_becomes {id : FieldId} {field new : Field} {template : List FieldDecl}
    {elements : List (List FieldId)} (hvalue : field.value = .list false template elements)
    (hn : tree.field? id = some new) (hnew : field.Becomes new) : tree.UpToDate id := by
  obtain ⟨f, hf⟩ := hnew
  have hlist : new.value = .list false template (f elements) := by
    rw [hf]
    simp only [hvalue, Value.mapElements]
  refine upToDate_of_underived hn (by rw [hlist]; rfl) fun template' elements' h ↦ ?_
  rw [hlist] at h
  cases h

theorem appendElement_keepsSettled (id : FieldId) : (appendElement id).KeepsSettled := by
  intro tree h
  refine meets_appendElement (fun _ ↦ trivial) fun _ field template elements hf hvalue ↦ ?_
  have hg := h.sound.governs
  have hhost := hg.hosts hf trivial
  refine (((Confined.enter false).instantiateGroup hg hhost .nil template).and
    (Refreshing.instantiateGroup (Confined.enter false) (Refreshing.enter false) hg hhost
      (fun _ _ ↦ trivial) template)).imp ?_ fun _ _ _ ↦ trivial
  rintro group mid ⟨⟨hlead, hgroup⟩, hkeeps⟩
  refine ⟨fun hlive ↦ ?_, fun _ ↦ trivial⟩
  have hmid : mid.Settled := h.of_keeps (h.sound.of_leads hlead) hkeeps
  have ha : (mid.push (tree.unwrap id) group).Sound :=
    hmid.sound.push _ hgroup.nodup fun x hx ↦ (hgroup.loose x hx).1
  obtain ⟨new, hn⟩ := live_iff.1 hlive
  obtain ⟨old, ho, hbecomes, _⟩ :=
    (hlead.framed hg).field _ new (live_of_some hf).lt_size hn
  rw [hf] at ho
  cases ho
  have hafter : (mid.push (tree.unwrap id) group).field? (tree.unwrap id) =
      some { new with value := new.value.mapElements (· ++ [group]) } := by
    simp [push, field?_updateField, hn]
  refine (hmid.of_keepsBut ha (keepsBut_updateField hmid.sound (retouches_mapElements _) ha)
    (upToDate_of_becomes hvalue hafter ?_)).settle
  exact hbecomes.trans (Region.becomes_mapElements _ new)

theorem removeElement_keepsSettled (id : FieldId) (index : Nat) :
    (removeElement id index).KeepsSettled := by
  intro tree h
  refine meets_removeElement (fun _ ↦ trivial) h
    fun _ field template elements element hf hv he ↦ ?_
  have ha : (tree.drop (tree.unwrap id) (·.eraseIdx index) element).Sound :=
    h.sound.drop hf (hv ▸ splits_eraseIdx he)
  refine (h.of_keepsBut ha (keepsBut_drop h.sound ha) ?_).settle
  by_cases hlive : (tree.drop (tree.unwrap id) (·.eraseIdx index) element).Live (tree.unwrap id)
  · obtain ⟨new, hn⟩ := live_iff.1 hlive
    obtain ⟨mid, hm, hnew, _⟩ := (releaseFields_shrinks _ element).field _ new hn
    rw [field?_updateField, if_pos rfl, hf] at hm
    cases hm
    exact upToDate_of_becomes hv hn
      ((Region.becomes_mapElements (·.eraseIdx index) field).trans (.of_listeners hnew))
  · exact upToDate_of_not_live hlive

theorem rebind_keepsSettled (h : tree.Settled) (dependent : FieldId) {source : Source}
    (hsource : tree.SourceLive source) :
    (rebind dependent source).Meets tree (fun _ ↦ Settled) fun _ _ ↦ True :=
  ((rebind_keeps_sound h.sound dependent hsource.issued).and
    ((Refreshing.enter false).rebindWith h.sound hsource.issued)).imp
    (fun _ _ ha ↦ h.of_keeps ha.1 ha.2.1) fun _ _ _ ↦ trivial

/-! ## Histories -/

theorem invariant_settled : Invariant Settled (fun _ _ ↦ True) fun _ ↦ True where
  catalog _ _ _ _ := trivial
  create kind _ := create_keepsSettled kind
  addChild := addChild_keepsSettled
  removeChild := removeChild_keepsSettled
  retype := retype_keepsSettled
  mutate id _ hchange := mutate_keepsSettled id hchange
  appendElement := appendElement_keepsSettled
  removeElement := removeElement_keepsSettled

theorem Settled.perform (h : tree.Settled) {operation : Operation}
    (hl : operation.NamesLive tree) {answer : Answer}
    (hok : (tree.perform operation).1 = .ok answer) : (tree.perform operation).2.Settled := by
  have hrun : operation.edit.runOn tree = (.ok answer, (tree.perform operation).2) :=
    Prod.ext hok rfl
  refine (invariant_settled.operation h operation (fun _ _ ↦ trivial) ?_).of_runOn_ok hrun
  rintro dependent source rfl
  exact rebind_keepsSettled h dependent hl

theorem Settled.run (h : tree.Settled) {operations : List Operation}
    (hl : tree.RebindsLive operations)
    (hok : ∀ answer ∈ (tree.run operations).1, ∃ a, answer = .ok a) :
    (tree.run operations).2.Settled := by
  induction operations generalizing tree with
  | nil => exact h
  | cons operation rest ih =>
      rw [run_cons] at hok ⊢
      obtain ⟨a, ha⟩ := hok _ List.mem_cons_self
      exact ih (h.perform hl.1 ha) hl.2 fun answer hm ↦ hok answer (List.mem_cons_of_mem _ hm)

theorem settled_start {catalog : Catalog} {settings : Settings}
    (h : start catalog settings = .ok tree) : tree.Settled := by
  refine of_start ?_ h
  have hempty : ({ catalog, settings } : Tree).Settled :=
    ⟨sound_empty catalog settings, fun id ↦
      upToDate_of_not_live (not_live_iff.2 (field?_empty catalog settings id))⟩
  exact build_settles create_keepsSettled ⟨0⟩ catalog.root (hempty.insertNode catalog.root)
    ((liveNode_insertNode _ _ _).2 (.inl rfl))

/-! ## Fields without a gate -/

/-- Only gated fields may be inactive. -/
def PlainActive (tree : Tree) : Prop :=
  ∀ id field, tree.field? id = some field → field.value.inner? = none → field.active = true

/-- Fields that are still there keep what they wrap, and only gated ones change their activity. -/
theorem PlainActive.of_sameAt (h : tree.PlainActive)
    (hsame : ∀ id new, after.field? id = some new → new.value.inner? = none →
      ∃ old, tree.field? id = some old ∧ old.value.inner? = none ∧ new.active = old.active) :
    after.PlainActive := by
  intro id new hn hinner
  obtain ⟨old, ho, hold, hactive⟩ := hsame id new hn hinner
  exact hactive.trans (h id old ho hold)

theorem PlainActive.of_field? (h : tree.PlainActive) (hfields : after.field? = tree.field?) :
    after.PlainActive :=
  h.of_sameAt fun _ new hn hinner ↦ ⟨new, hfields ▸ hn, hinner, rfl⟩

theorem PlainActive.of_shrinks (h : tree.PlainActive) (hs : tree.Shrinks after) :
    after.PlainActive := by
  refine h.of_sameAt fun id new hn hinner ↦ ?_
  obtain ⟨old, ho, hvalue, hactive⟩ := hs.sameAt id new hn
  exact ⟨old, ho, hvalue ▸ hinner, hactive⟩

theorem PlainActive.updateField (h : tree.PlainActive) {id : FieldId} {f : Field → Field}
    (hinner : ∀ field, (f field).value.inner? = field.value.inner?)
    (hactive : ∀ field, (f field).active = field.active) : (tree.updateField id f).PlainActive := by
  refine h.of_sameAt fun x new hn hnone ↦ ?_
  rw [field?_updateField] at hn
  split at hn
  · obtain ⟨old, ho, rfl⟩ := Option.map_eq_some_iff.1 hn
    exact ⟨old, ho, hinner old ▸ hnone, hactive old⟩
  · exact ⟨new, hn, hnone, rfl⟩

theorem PlainActive.setActive (h : tree.PlainActive) {id : FieldId} (active : Bool)
    (hgated : (tree.inner? id).isSome) :
    (tree.updateField id ({ · with active })).PlainActive := by
  refine h.of_sameAt fun x new hn hnone ↦ ?_
  rw [field?_updateField] at hn
  split at hn
  · next he =>
      obtain ⟨old, ho, rfl⟩ := Option.map_eq_some_iff.1 hn
      subst he
      rw [inner?_eq_read, read_of_some ho] at hgated
      exact absurd hgated (by rw [show old.value.inner? = none from hnone]; nofun)
  · exact ⟨new, hn, hnone, rfl⟩

theorem PlainActive.insertField (h : tree.PlainActive) {field : Field}
    (hactive : field.active = true) : (tree.insertField field).PlainActive := by
  intro id new hn hnone
  by_cases hid : id = tree.nextField
  · subst hid
    rw [field?_insertField_self] at hn
    exact Option.some.inj hn ▸ hactive
  · rw [field?_insertField_of_ne tree field hid] at hn
    exact h id new hn hnone

/-- No operation makes a field inactive that is not gated. -/
theorem lasting_plainActive : Lasting fun tree after ↦ tree.PlainActive → after.PlainActive where
  refl _ h := h
  trans h h' ht := h' (h ht)
  insertField _ _ hactive h := h.insertField hactive
  relink tree dependent source h := by
    refine h.of_sameAt fun id new hn hnone ↦ ?_
    obtain ⟨old, ho, hvalue, hactive⟩ := sameAt_relink tree dependent source id new hn
    exact ⟨old, ho, hvalue ▸ hnone, hactive⟩
  setActive _ _ active hgated h := h.setActive active hgated
  push _ _ _ h := h.updateField (retouches_mapElements _).inner? fun _ ↦ rfl
  drop tree id f group h :=
    (h.updateField (retouches_mapElements f).inner? fun _ ↦ rfl).of_shrinks
      (releaseFields_shrinks _ group)
  refresh _ h := h.of_field? rfl
  insertNode _ _ h := h.of_field? rfl
  addTop _ _ _ h := h.of_field? rfl
  adopt _ _ _ h := h.of_field? rfl
  disown _ _ _ h := h.of_field? rfl
  supplant _ _ _ _ h := h.of_field? rfl
  releaseNode tree id h := h.of_shrinks (releaseNode_shrinks tree id)
  setValue tree id field value hf hold hnew h := by
    rw [updateField_value hf hold]
    exact h.updateField (retouches_replaceLeaf hnew).inner? fun _ ↦ rfl

theorem plainActive_start {catalog : Catalog} {settings : Settings}
    (h : start catalog settings = .ok tree) : tree.PlainActive := by
  refine of_start ?_ h
  have hempty : ({ catalog, settings } : Tree).PlainActive := fun id field hf ↦ by
    rw [field?_empty] at hf
    cases hf
  exact (lasting_plainActive.build lasting_plainActive.create ⟨0⟩ catalog.root _).imp
    (fun _ _ ha ↦ ha (hempty.of_field? rfl)) fun _ _ _ ↦ trivial

/-- After a history without faults, a gated field whose source is alive is active exactly under its
condition on the source, and a linked list is exactly as long as its source. A field that is not
gated is always active. -/
theorem derived_state_run {catalog : Catalog} {settings : Settings} {tree : Tree}
    {operations : List Operation} (hstart : start catalog settings = .ok tree)
    (hlive : tree.RebindsLive operations)
    (hok : ∀ answer ∈ (tree.run operations).1, ∃ a, answer = .ok a) {final : Tree}
    (hfinal : (tree.run operations).2 = final) {id : FieldId} {field : Field}
    (hf : final.field? id = some field) :
    (∀ source, field.link = some source → final.SourceLive source →
      (∀ inner, field.value = .gated .present inner →
        (field.active = true ↔ final.isPresent source = true)) ∧
      (∀ target inner, field.value = .gated (.equals target) inner →
        (field.active = true ↔ final.sourceRaw? source = some target)) ∧
      ∀ template elements, field.value = .list true template elements →
        elements.length = final.sourceLength source) ∧
    ((∀ condition inner, field.value ≠ .gated condition inner) → field.active = true) := by
  subst hfinal
  have hsettled := (settled_start hstart).run hlive hok
  have hplain := lasting_plainActive.run tree operations (plainActive_start hstart)
  refine ⟨fun source hlink hsource ↦ ?_, fun hungated ↦ hplain id field hf ?_⟩
  · obtain ⟨hgate, hlist⟩ := hsettled.upToDate id field source hf hlink hsource
    refine ⟨fun inner hv ↦ ?_, fun target inner hv ↦ ?_, hlist⟩
    · rw [hgate .present inner hv]
      rfl
    · rw [hgate (.equals target) inner hv]
      exact beq_iff_eq
  · cases hv : field.value with
    | gated condition inner => exact absurd hv (hungated condition inner)
    | scalar | choice | list => rfl

/-- The colours of an object are active, since colours have been chosen. -/
theorem derived_state_run_standard :
    ∃ field, (standardTree.run standardHistory).2.field? ⟨6⟩ = some field ∧
      (field.active = true ↔
        (standardTree.run standardHistory).2.sourceRaw? (.field ⟨2⟩) = some "c") := by
  have hok : ∀ answer ∈ (standardTree.run standardHistory).1, ∃ a, answer = .ok a := by
    have hanswers : (standardTree.run standardHistory).1 =
        [.ok (.outcome .applied), .ok .done, .ok .done] := rfl
    simp [hanswers]
  obtain ⟨field, hf⟩ : ∃ field, (standardTree.run standardHistory).2.field? ⟨6⟩ = some field :=
    ⟨_, rfl⟩
  obtain ⟨hderived, -⟩ := derived_state_run start_standard rebindsLive_standardHistory hok rfl hf
  cases hf
  exact ⟨_, rfl, (hderived (.field ⟨2⟩) rfl rfl).2.1 "c" ⟨5⟩ rfl⟩

end Tree

end LightTree
