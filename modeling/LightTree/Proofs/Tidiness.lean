import LightTree.Proofs.Upkeep

/-!
# Tidy trees

A tree is tidy if every gate is newer than the field inside it and every element newer than its
list, whoever listens follows, and what a field or a node owns is kept where its owner is. This is
less than soundness, and no change can break it: links may point to what has not been handed out
yet, and what is released may be mentioned further on.
-/

namespace LightTree

open Relation Edit

namespace Tree

/-- An element is newer than the list around it. -/
def ContainerOlder (tree : Tree) : Prop :=
  ∀ a b, tree.container? a = some b → b.index < a.index

structure Tidy (tree : Tree) : Prop where
  inner_older : tree.InnerOlder
  container_older : tree.ContainerOlder
  attended : tree.Attended
  part : ∀ p x home, tree.shelter? p = some home → x ∈ tree.parts p → tree.Seated home x
  top : ∀ node x, x ∈ tree.topFields node → tree.Seated (node, none) x

variable {tree after : Tree} {id : FieldId} {field : Field} {node : NodeId}

theorem InnerOlder.abides (h : tree.InnerOlder) (ha : tree.Abides after)
    (hsize : after.fields.size = tree.fields.size) : after.InnerOlder := by
  intro a b hab
  have hl := live_of_inner?_eq_some hab
  refine h a b ?_
  rw [inner?_eq_read, ← hab, inner?_eq_read]
  refine (ha.read (fun field ↦ ?_) (hsize ▸ hl.lt_size) hl none).symm
  cases hv : field.value <;> simp [Field.outline, Value.frame, Value.inner?, hv]

theorem ContainerOlder.abides (h : tree.ContainerOlder) (ha : tree.Abides after)
    (hsize : after.fields.size = tree.fields.size) : after.ContainerOlder := by
  intro a b hab
  have hl := live_of_container?_eq_some hab
  refine h a b ?_
  rw [container?_eq_read, ← hab, container?_eq_read]
  exact (ha.read (fun _ ↦ rfl) (hsize ▸ hl.lt_size) hl none).symm

namespace Tidy

/-- What is owned in a changed tree was owned before or is kept where its owner is. -/
theorem step (h : tree.Tidy) (hab : tree.Abides after) (hinner : after.InnerOlder)
    (hcontainer : after.ContainerOlder) (hattended : after.Attended)
    (hparts : ∀ p x home, after.shelter? p = some home → x ∈ after.parts p →
      x ∈ tree.parts p ∨ tree.Seated home x)
    (htops : ∀ node x, x ∈ after.topFields node →
      x ∈ tree.topFields node ∨ tree.Seated (node, none) x) : after.Tidy where
  inner_older := hinner
  container_older := hcontainer
  attended := hattended
  part p x home hhome hx := by
    rcases hparts p x home hhome hx with hold | hseat
    · rw [hab.shelter? (live_of_mem_parts hold) (live_of_mem_parts hx)] at hhome
      exact (h.part p x home hhome hold).abides hab
    · exact hseat.abides hab
  top node x hx := (htops node x hx).elim (fun hold ↦ (h.top node x hold).abides hab)
    fun hseat ↦ hseat.abides hab

/-! ## Changing fields -/

theorem insertField (h : tree.Tidy) (hlink : field.link = none) (hlisteners : field.listeners = [])
    (hcontainer : ∀ c, field.container = some c → c.index < tree.fields.size)
    (hparts : ∀ c ∈ field.value.parts, tree.Seated (field.shelter tree.nextField) c) :
    (tree.insertField field).Tidy := by
  refine h.step (.insertField tree field) (fun a b hab ↦ ?_) (fun a b hab ↦ ?_)
    (h.attended.insertField hlink hlisteners) (fun p x home hhome hx ↦ ?_) fun _ _ hx ↦ .inl hx
  · by_cases ha : a = tree.nextField
    · rw [inner?_eq_read, read_insertField, if_pos ha] at hab
      have hb : b ∈ field.value.parts := by
        cases hv : field.value <;> simp_all [Value.inner?, Value.parts]
      exact ha ▸ (hparts b hb).issued
    · rw [inner?_eq_read, read_insertField, if_neg ha, ← inner?_eq_read] at hab
      exact h.inner_older a b hab
  · rw [container?_eq_read, read_insertField] at hab
    split at hab
    · next ha => exact ha ▸ hcontainer b hab
    · exact h.container_older a b (by rwa [container?_eq_read])
  · refine (mem_parts_insertField hx).imp_right ?_
    rintro ⟨rfl, hc⟩
    rw [shelter?, read_insertField, if_pos rfl] at hhome
    exact Option.some.inj hhome ▸ hparts x hc

theorem relink (h : tree.Tidy) {dependent : FieldId} (hl : tree.Live dependent)
    (source : Option Source) : (tree.relink dependent source).Tidy := by
  have hab := Abides.relink tree dependent source
  have hsize : (tree.relink dependent source).fields.size = tree.fields.size :=
    fields_size_relink dependent source
  refine h.step hab (h.inner_older.abides hab hsize) (h.container_older.abides hab hsize)
    (h.attended.relink h.inner_older hl source) (fun p x _ _ hx ↦ .inl ?_) fun n x hx ↦ .inl ?_
  · rwa [parts, read_relink dependent source fun _ _ _ ↦ rfl] at hx
  · rwa [topFields_eq_readNode, readNode_relink dependent source fun _ _ ↦ rfl,
      ← topFields_eq_readNode] at hx

/-- A field may take over what is kept where its parts are. -/
theorem retouch (h : tree.Tidy) {f : Field → Field} (hf : Retouches f)
    (hab : tree.Abides (tree.updateField id f))
    (hparts : ∀ x ∈ (tree.updateField id f).parts id, x ∈ tree.parts id ∨
      ∀ home, tree.shelter? id = some home → tree.Seated home x) :
    (tree.updateField id f).Tidy := by
  have hsize := size_updateField tree id f
  refine h.step hab (h.inner_older.abides hab hsize) (h.container_older.abides hab hsize)
    (h.attended.congr (listeners_updateField hf.listeners id) (link?_updateField hf.link id)
      (wraps_updateField hf.inner? id) rfl) (fun p x home hhome hx ↦ ?_) fun _ _ hx ↦ .inl hx
  by_cases hp : p = id
  · subst hp
    have hl := live_of_mem_parts hx
    rw [hab.shelter? ((live_updateField tree p f p).1 hl) hl] at hhome
    exact (hparts x hx).imp_right fun hseat ↦ hseat home hhome
  · rw [parts_updateField_of_ne hp] at hx
    exact .inl hx

theorem setActive (h : tree.Tidy) (id : FieldId) (active : Bool) :
    (tree.updateField id ({ · with active })).Tidy := by
  refine h.retouch (retouches_setActive active) (.setActive tree id active) fun x hx ↦ .inl ?_
  rwa [parts_updateField (f := ({ · with active })) fun _ ↦ rfl] at hx

theorem setValue (h : tree.Tidy) (hf : tree.field? id = some field) {value : Value}
    (hold : field.value.IsLeaf) (hnew : value.IsLeaf) :
    (tree.updateField id ({ · with value })).Tidy := by
  have hab := Abides.setValue hf hold hnew
  rw [updateField_value hf hold] at hab ⊢
  refine h.retouch (retouches_replaceLeaf hnew) hab fun x hx ↦ .inl ?_
  rwa [parts_updateField fun old ↦ Value.parts_replaceLeaf hnew old.value] at hx

theorem push (h : tree.Tidy) {group : List FieldId}
    (hgroup : ∀ x ∈ group, ∀ home, tree.shelter? id = some home → tree.Seated home x) :
    (tree.push id group).Tidy := by
  refine h.retouch (retouches_mapElements _) (.mapElements tree id _) fun x hx ↦ ?_
  obtain ⟨more, hsub, hparts⟩ := parts_push tree id group
  change x ∈ (tree.push id group).parts id at hx
  rw [hparts, List.mem_append] at hx
  exact hx.imp_right fun hm ↦ hgroup x (hsub.subset hm)

/-! ## Releasing fields -/

theorem of_shrinks (h : tree.Tidy) (hs : tree.Shrinks after) (ha : after.Attended) : after.Tidy :=
  h.step (.of_shrinks hs) (hs.innerOlder h.inner_older)
    (h.container_older.abides (.of_shrinks hs) hs.fields_size) ha
    (fun _ _ _ _ hx ↦ .inl (hs.mem_parts hx)) fun _ _ hx ↦ .inl (hs.mem_topFields hx)

theorem releaseField (h : tree.Tidy) (id : FieldId) : (tree.releaseField id).Tidy :=
  h.of_shrinks (releaseField_shrinks tree id) (h.attended.releaseField h.inner_older id)

theorem releaseFields (h : tree.Tidy) (ids : List FieldId) : (tree.releaseFields ids).Tidy :=
  List.foldlRecOn (motive := Tidy) _ _ h fun _ ht x _ ↦ ht.releaseField x

theorem drop (h : tree.Tidy) (hf : tree.field? id = some field)
    {f : List (List FieldId) → List (List FieldId)} {group : List FieldId}
    (hsplit : Splits f group field.value) : (tree.drop id f group).Tidy := by
  exact (h.retouch (retouches_mapElements f) (.mapElements tree id f) fun _ hx ↦
    .inl (mem_parts_of_mem_kept hf hsplit hx)).releaseFields group

/-! ## Changing nodes -/

theorem of_nodes (h : tree.Tidy) (hfields : after.fields = tree.fields)
    (hlisteners : after.nodeListeners = tree.nodeListeners)
    (htops : ∀ node x, x ∈ after.topFields node →
      x ∈ tree.topFields node ∨ tree.Seated (node, none) x) : after.Tidy := by
  have hfield? : after.field? = tree.field? := by
    funext x
    rw [field?, field?, hfields]
  have hread : ∀ {α : Type} (part : Field → α) (default : α),
      after.read part default = tree.read part default := by
    intro α part default
    unfold read
    rw [hfield?]
  have hsize : after.fields.size = tree.fields.size := congrArg Store.size hfields
  have hab : tree.Abides after := .of_field? hfield? hsize
  refine h.step hab (h.inner_older.abides hab hsize) (h.container_older.abides hab hsize)
    (h.attended.congr ?_ ?_ ?_ hlisteners) (fun p x _ _ hx ↦ .inl ?_) htops
  · rw [listeners_eq_read, listeners_eq_read, hread]
  · exact hread _ _
  · funext a b
    rw [Wraps, Wraps, inner?_eq_read, inner?_eq_read, hread]
  · rwa [parts, hread] at hx

theorem updateNode (h : tree.Tidy) {f : Node → Node}
    (hlisteners : ∀ n, (f n).listeners = n.listeners) (hfields : ∀ n, (f n).fields = n.fields) :
    (tree.updateNode node f).Tidy := by
  refine h.of_nodes rfl (readNode_updateNode_of_keeps hlisteners node []) fun n x hx ↦ .inl ?_
  rwa [topFields_eq_readNode, readNode_updateNode_of_keeps hfields, ← topFields_eq_readNode] at hx

theorem insertNode (h : tree.Tidy) (kind : NodeKind) : (tree.insertNode { kind }).Tidy := by
  refine h.of_nodes rfl (nodeListeners_insertNode rfl) fun n x hx ↦ .inl ?_
  rwa [topFields_insertNode_of_nil rfl] at hx

theorem addTop (h : tree.Tidy) (hnode : tree.LiveNode node) (hid : tree.Seated (node, none) id) :
    (tree.addTop node id).Tidy := by
  have hlisteners : (tree.addTop node id).nodeListeners = tree.nodeListeners :=
    readNode_updateNode_of_keeps (f := fun n ↦ { n with fields := n.fields ++ [id] })
      (fun _ ↦ rfl) node []
  refine h.of_nodes rfl hlisteners fun n x hx ↦ ?_
  refine (mem_topFields_addTop hnode hx).imp_right ?_
  rintro ⟨rfl, rfl⟩
  exact hid

theorem mapChildren (h : tree.Tidy) (node : NodeId) (f : List NodeId → List NodeId) :
    (tree.updateNode node fun n ↦ { n with children := f n.children }).Tidy :=
  h.updateNode (fun _ ↦ rfl) fun _ ↦ rfl

theorem setParent (h : tree.Tidy) (node parent : NodeId) :
    (tree.updateNode node ({ · with parent := some parent })).Tidy :=
  h.updateNode (fun _ ↦ rfl) fun _ ↦ rfl

theorem adopt (h : tree.Tidy) (parent child : NodeId) : (tree.adopt parent child).Tidy :=
  (h.mapChildren parent (· ++ [child])).setParent child parent

theorem disown (h : tree.Tidy) (parent child : NodeId) : (tree.disown parent child).Tidy :=
  h.mapChildren parent (·.erase child)

theorem supplant (h : tree.Tidy) (parent old new : NodeId) :
    (tree.supplant parent old new).Tidy :=
  (h.mapChildren parent (·.replace old new)).setParent new parent

theorem refreshed (h : tree.Tidy) : tree.refreshed.Tidy :=
  h.of_nodes rfl rfl fun _ _ ↦ .inl

theorem removeNode (h : tree.Tidy) (node : NodeId) : (tree.removeNode node).Tidy := by
  have hs := Shrinks.removeNode tree node
  refine h.of_shrinks hs ⟨h.attended.nodup, h.attended.follows,
    fun n ↦ (hs.nodeListeners n).nodup (h.attended.node_nodup n), fun n d hd ↦ ?_⟩
  exact h.attended.node_linked n d ((hs.nodeListeners n).subset hd)

theorem releaseNodeWithin (h : tree.Tidy) (fuel : Nat) (node : NodeId) :
    (releaseNodeWithin fuel tree node).Tidy := by
  induction fuel generalizing tree node with
  | zero => exact h
  | succ fuel ih =>
      by_cases hl : tree.LiveNode node
      · obtain ⟨n, hn⟩ := liveNode_iff.1 hl
        rw [releaseNodeWithin_of_live hn]
        exact (List.foldlRecOn (motive := Tidy) _ _ (h.removeNode node)
          fun t ht c _ ↦ ih ht c).releaseFields _
      · rwa [releaseNodeWithin_of_not_live hl]

theorem releaseNode (h : tree.Tidy) (node : NodeId) : (tree.releaseNode node).Tidy :=
  h.releaseNodeWithin _ node

theorem giveUp (h : tree.Tidy) (node : NodeId) : (tree.giveUp node).Tidy := by
  unfold Tree.giveUp
  split
  · exact h.releaseNode node
  · exact h

end Tidy

/-- Cascades leave a tidy tree wherever they go. -/
theorem upkeep_tidy : Upkeep (fun _ ↦ True) Tidy where
  fresh _ := trivial
  listener _ _ _ := trivial
  nodeListener _ _ _ := trivial
  container _ _ _ := trivial
  link _ _ _ := trivial
  owner _ _ _ := trivial
  top _ _ _ := trivial
  insertField h hlink hlisteners _ hcontainer hparts :=
    h.insertField hlink hlisteners (fun c hc ↦ (hcontainer c hc).2) fun c hc ↦ (hparts c hc).2
  relink h hl _ _ := h.relink hl _
  setActive active h _ := h.setActive _ active
  push h _ hf hvalue hgroup := h.push fun x hx home hhome ↦ by
    rw [shelter?_of_list hf hvalue] at hhome
    exact Option.some.inj hhome ▸ (hgroup x hx).2
  drop h _ hf _ hsplit := h.drop hf hsplit
  refreshed h := h.refreshed

/-! ## Operations -/

variable {parent child : NodeId}

theorem keeps_tidy_of_tends {α : Type} {edit : Edit α}
    (he : ∀ tree, Tidy tree → edit.Tends Tidy tree) : edit.Keeps Tidy := fun tree h ↦
  (he tree h).imp (fun _ _ ha ↦ ha) fun _ _ ha ↦ ha.2

theorem settle_keeps_tidy (source : Source) : (settle source).Keeps Tidy :=
  keeps_tidy_of_tends fun _ h ↦ upkeep_tidy.settle h trivial

theorem childrenChanged_keeps_tidy (parent : NodeId) (refresh : Bool) :
    (childrenChanged parent refresh).Keeps Tidy := by
  unfold childrenChanged
  split
  · exact settle_keeps_tidy _
  · exact keeps_tidy_of_tends fun _ h ↦ upkeep_tidy.settleQuietly h trivial

theorem attach_keeps_tidy (parent child : NodeId) (refresh : Bool) :
    (attach parent child refresh).Keeps Tidy := by
  intro tree h
  rw [meets_attach]
  exact ⟨fun _ ↦ h, fun _ ↦ ⟨fun _ _ ↦ h, fun _ ↦
    childrenChanged_keeps_tidy parent refresh _ (h.adopt parent child)⟩⟩

theorem addChild_keeps_tidy (parent child : NodeId) : (addChild parent child).Keeps Tidy := by
  intro tree h
  rw [meets_addChild]
  exact (attach_keeps_tidy parent child true tree h).imp
    (fun _ _ ha ↦ ⟨fun _ ↦ ha.giveUp child, fun _ ↦ ha⟩) fun _ _ ha ↦ ha.giveUp child

theorem removeChild_keeps_tidy (parent child : NodeId) :
    (removeChild parent child).Keeps Tidy := by
  intro tree h
  rw [meets_removeChild]
  exact ⟨fun _ ↦ h, fun _ ↦ ⟨fun _ _ ↦ h, fun _ ↦
    childrenChanged_keeps_tidy parent true _ ((h.disown parent child).releaseNode child)⟩⟩

theorem mutate_keeps_tidy (id : FieldId) {change : Field → Except Fault Value}
    (hchange : Leafy change) : (mutate id change).Keeps Tidy := by
  intro tree h
  refine meets_mutate (fun _ ↦ h) fun _ field value hf hv ↦ ?_
  obtain ⟨hold, hnew⟩ := hchange field value hv
  exact settle_keeps_tidy _ _ (h.setValue hf hold hnew)

theorem appendElement_keeps_tidy (id : FieldId) : (appendElement id).Keeps Tidy := by
  intro tree h
  refine meets_appendElement (fun _ ↦ h) fun _ field template elements hf hvalue ↦ ?_
  have hshelter := shelter?_of_list hf hvalue
  have hcontainer : ContainerIn (fun _ ↦ True) (some (tree.unwrap id)) tree := fun c hc ↦
    ⟨trivial, Option.some.inj hc ▸ (live_of_some hf).lt_size⟩
  have hquiet := lasting_abides.toHarmless.enter false
  refine ((upkeep_tidy.instantiateGroup (upkeep_tidy.enter false) h trivial hcontainer
    (fun x hx ↦ absurd hx List.not_mem_nil) template).and
    (lasting_abides.toHarmless.instantiateGroup hquiet _ [] template tree)).imp ?_
    fun _ _ ha ↦ ha.1.2
  rintro group mid ⟨⟨hmid, hgroup⟩, habides⟩
  refine ⟨fun hl ↦ settle_keeps_tidy _ _ (hmid.push fun x hx home hhome ↦ ?_), fun _ ↦ hmid⟩
  rw [habides.shelter? (live_of_some hf) hl, hshelter] at hhome
  exact Option.some.inj hhome ▸ (hgroup x hx).2

theorem removeElement_keeps_tidy (id : FieldId) (index : Nat) :
    (removeElement id index).Keeps Tidy := by
  intro tree h
  refine meets_removeElement (fun _ ↦ h) h fun _ field template elements element hf hv he ↦ ?_
  have hsplit : Splits (·.eraseIdx index) element field.value := hv ▸ splits_eraseIdx he
  exact settle_keeps_tidy _ _ (h.drop hf hsplit)

theorem rebind_keeps_tidy (dependent : FieldId) (source : Source) :
    (rebind dependent source).Keeps Tidy :=
  keeps_tidy_of_tends fun _ h ↦
    upkeep_tidy.rebindWith (upkeep_tidy.enter false) h trivial trivial

end Tree

end LightTree
