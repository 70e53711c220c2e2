import LightTree.Proofs.Lasting
import LightTree.Proofs.Region

/-!
# What the fields of a node may be given

A field gets its first value from a declaration, and a list keeps the declarations that its elements
are built from. A charter says which declarations the fields of a node may be built from and which
values they may have. What holds of the kinds in the catalog then holds of every field that is ever
built from them, whatever the operations are asked and however they end.
-/

namespace LightTree

open Edit

/-- Which declarations the fields of a node may be built from, and which values they may have. -/
structure Charter where
  declared : NodeId → FieldDecl → Prop
  stored : NodeId → Value → Prop

/-- Whatever the node, the fields of a kind are declared as they may be. -/
def Charter.Admits (charter : Charter) (kind : NodeKind) : Prop :=
  ∀ owner, ∀ decl ∈ kind.fields, charter.declared owner decl

/-- A change of leaves that stores what may be stored. -/
structure Charter.Permits (charter : Charter) (change : Field → Except Fault Value) : Prop where
  leafy : Leafy change
  stored : ∀ field value, change field = .ok value → charter.stored field.owner field.value →
    charter.stored field.owner value

/-- The first value of a declared field may be stored, and what a stored list keeps may be
declared. -/
structure Charter.Lawful (charter : Charter) : Prop where
  scalar : ∀ owner name initial, charter.declared owner (.scalar name initial) →
    charter.stored owner (.scalar initial)
  choice : ∀ owner name options, charter.declared owner (.choice name options) →
    charter.stored owner (.choice options 0)
  list : ∀ owner name rule element, charter.declared owner (.list name rule element) →
    charter.stored owner (.list (rule != .free) element [])
  gate : ∀ owner name source condition inner,
    charter.declared owner (.gated name source condition inner) →
    ∀ id, charter.stored owner (.gated condition id)
  inner : ∀ owner name source condition inner,
    charter.declared owner (.gated name source condition inner) → charter.declared owner inner
  template : ∀ owner linked template elements,
    charter.stored owner (.list linked template elements) →
    ∀ decl ∈ template, charter.declared owner decl
  mapElements : ∀ owner value f, charter.stored owner value →
    charter.stored owner (value.mapElements f)

namespace Tree

/-- Every field has a value that it may have. -/
def Obeys (tree : Tree) (charter : Charter) : Prop :=
  ∀ id field, tree.field? id = some field → charter.stored field.owner field.value

/-- Every field has a value that it may have, and the kinds in the catalog declare such fields. -/
structure Chartered (tree : Tree) (charter : Charter) : Prop where
  obeys : tree.Obeys charter
  kinds : ∀ kind ∈ tree.catalog.kinds, charter.Admits kind

end Tree

namespace Tree

variable {charter : Charter} {tree after : Tree}

/-! ## Changes -/

theorem Obeys.relink (h : tree.Obeys charter) (dependent : FieldId) (source : Option Source) :
    (tree.relink dependent source).Obeys charter := by
  intro id new hn
  obtain ⟨old, ho⟩ := live_iff.1 ((live_relink dependent source id).1 (live_of_some hn))
  have heq : (tree.relink dependent source).read (fun field ↦ (field.owner, field.value))
      (new.owner, new.value) id = tree.read _ (new.owner, new.value) id :=
    congrFun (read_relink dependent source (fun _ _ _ ↦ rfl) _) id
  rw [read_of_some hn, read_of_some ho, Prod.mk.injEq] at heq
  rw [heq.1, heq.2]
  exact h id old ho

theorem Obeys.insertField (h : tree.Obeys charter) {field : Field}
    (hfield : charter.stored field.owner field.value) :
    (tree.insertField field).Obeys charter := by
  intro id new hn
  by_cases hid : id = tree.nextField
  · rw [hid, field?_insertField_self] at hn
    exact Option.some.inj hn ▸ hfield
  · rw [tree.field?_insertField_of_ne field hid] at hn
    exact h id new hn

theorem Chartered.of_nodes (h : tree.Chartered charter) (hfields : after.fields = tree.fields)
    (hc : after.catalog = tree.catalog) : after.Chartered charter := by
  refine ⟨fun id field hf ↦ h.obeys id field ?_, hc ▸ h.kinds⟩
  unfold field? at hf ⊢
  rwa [← hfields]

end Tree

namespace Charter.Lawful

open LightTree.Tree

variable {charter : Charter} {tree after : Tree}

section

variable (hc : charter.Lawful)

include hc

theorem obeys_of_becomes (h : tree.Obeys charter)
    (hb : ∀ id new, after.field? id = some new →
      ∃ old, tree.field? id = some old ∧ old.Becomes new) : after.Obeys charter := by
  intro id new hn
  obtain ⟨old, ho, f, hf⟩ := hb id new hn
  rw [hf]
  exact hc.mapElements old.owner old.value f (h id old ho)

theorem obeys_of_shrinks (h : tree.Obeys charter) (hs : tree.Shrinks after) :
    after.Obeys charter :=
  hc.obeys_of_becomes h fun id new hn ↦
    have ⟨old, ho, hnew, _⟩ := hs.field id new hn
    ⟨old, ho, .of_listeners hnew⟩

theorem obeys_updateField (h : tree.Obeys charter) (id : FieldId) {f : Field → Field}
    (hf : ∀ field : Field, field.Becomes (f field)) : (tree.updateField id f).Obeys charter := by
  refine hc.obeys_of_becomes h fun x new hn ↦ ?_
  rw [field?_updateField] at hn
  split at hn
  · obtain ⟨old, ho, rfl⟩ := Option.map_eq_some_iff.1 hn
    exact ⟨old, ho, hf old⟩
  · exact ⟨new, hn, .refl new⟩

theorem obeys_push (h : tree.Obeys charter) (id : FieldId) (group : List FieldId) :
    (tree.push id group).Obeys charter :=
  hc.obeys_updateField h id (Region.becomes_mapElements _)

theorem obeys_drop (h : tree.Obeys charter) (id : FieldId)
    (f : List (List FieldId) → List (List FieldId)) (group : List FieldId) :
    (tree.drop id f group).Obeys charter :=
  hc.obeys_of_shrinks (hc.obeys_updateField h id (Region.becomes_mapElements f))
    (releaseFields_shrinks _ group)

end

/-! ## Cascades -/

variable {visit : FieldId → Edit Unit} {owner : NodeId}

section

variable (hv : ∀ d, (visit d).Keeps (Obeys · charter))

include hv

theorem rebindWith (dependent : FieldId) (source : Source) :
    (rebindWith visit dependent source).Keeps (Obeys · charter) := by
  intro tree h
  rw [meets_rebindWith]
  refine ⟨fun field _ ↦ ⟨fun _ ↦ h, fun _ ↦ ⟨fun _ _ ↦ h, fun _ ↦ ?_⟩⟩, fun _ ↦ h⟩
  refine (hv dependent _ (h.relink dependent _)).imp (fun _ _ ha ↦ ha) fun fault after ha ↦ ?_
  rw [meets_relink]
  exact ⟨fun _ ↦ ha.relink dependent _, fun _ ↦ ha⟩

theorem plant (group : List FieldId) (container : Option FieldId) (decl : FieldDecl) {value : Value}
    (hvalue : charter.stored owner value) :
    (plant visit owner group container decl value).Keeps (Obeys · charter) := by
  intro tree h
  rw [meets_plant]
  have hnew : (tree.insertField { name := decl.name, owner, value, container }).Obeys charter :=
    h.insertField hvalue
  refine (meets_resolve owner group decl).imp ?_ ?_
  · rintro source after ⟨rfl, _⟩
    exact ⟨fun _ ↦ hnew, fun s _ ↦ rebindWith hv _ s _ hnew⟩
  · rintro fault after ⟨rfl, _⟩
    exact hnew

variable (hc : charter.Lawful)

include hc

theorem instantiate (group : List FieldId) (container : Option FieldId) :
    ∀ decl : FieldDecl, charter.declared owner decl →
      (instantiate visit owner group container decl).Keeps (Obeys · charter)
  | .scalar name initial, hd => plant hv group container _ (hc.scalar owner name initial hd)
  | .choice name options, hd => by
    intro tree h
    rw [meets_instantiate_choice]
    exact ⟨fun _ ↦ h, fun _ ↦
      plant hv group container _ (hc.choice owner name options hd) tree h⟩
  | .list name rule element, hd => plant hv group container _ (hc.list owner name rule element hd)
  | .gated name source condition inner, hd => by
    intro tree h
    rw [meets_instantiate_gated]
    refine (instantiate group container inner (hc.inner owner _ _ _ _ hd) tree h).imp
      (fun id mid hmid ↦ ?_) fun _ _ ha ↦ ha
    exact plant hv group container _ (hc.gate owner _ _ _ _ hd id) mid hmid

theorem instantiateGroup (container : Option FieldId) (group : List FieldId)
    {decls : List FieldDecl} (hdecls : ∀ decl ∈ decls, charter.declared owner decl) :
    (instantiateGroup visit owner container group decls).Keeps (Obeys · charter) := by
  induction decls generalizing group with
  | nil => exact fun _ h ↦ h
  | cons decl rest ih =>
      intro tree h
      rw [meets_instantiateGroup_cons]
      have hd := List.forall_mem_cons.1 hdecls
      exact (instantiate hv hc group container decl hd.1 tree h).imp
        (fun id mid hmid ↦ ih (group ++ [id]) hd.2 mid hmid) fun _ _ ha ↦ ha

theorem grow {template : List FieldDecl} (ht : ∀ decl ∈ template, charter.declared owner decl)
    (id : FieldId) (count : Nat) :
    (grow visit owner template id count).Keeps (Obeys · charter) := by
  induction count with
  | zero => exact fun _ h ↦ h
  | succ count ih =>
      intro tree h
      rw [meets_grow_succ]
      refine (instantiateGroup hv hc (some id) [] ht tree h).imp ?_ fun _ _ ha ↦ ha
      exact fun group mid hmid ↦ ⟨fun _ ↦ ih _ (hc.obeys_push hmid id group), fun _ ↦ hmid⟩

omit hv in
theorem shrink (id : FieldId) (count : Nat) : (shrink id count).Keeps (Obeys · charter) := by
  induction count with
  | zero => exact fun _ h ↦ h
  | succ count ih =>
      intro tree h
      rw [meets_shrink_succ]
      exact ⟨fun field _ ↦ ih _ (hc.obeys_drop h id _ _), fun _ ↦ h⟩

theorem resize (id : FieldId) (length : Nat) :
    (resize visit id length).Keeps (Obeys · charter) := by
  intro tree h
  rw [meets_resize]
  refine ⟨fun field hf ↦ ⟨fun linked template elements hvalue ↦ ?_, fun _ ↦ h⟩, fun _ ↦ h⟩
  have ht := hc.template field.owner linked template elements (hvalue ▸ h id field hf)
  exact (grow hv hc ht id _ tree h).imp (fun _ mid hmid ↦ hc.shrink id _ mid hmid) fun _ _ ha ↦ ha

theorem recompute (id : FieldId) : (recompute visit id).Keeps (Obeys · charter) := by
  intro tree h
  rw [meets_recompute]
  refine ⟨fun field _ ↦ ⟨fun source condition _ _ _ ↦ ?_, fun source _ _ _ _ ↦ ?_, fun _ ↦ h⟩,
    fun _ ↦ h⟩
  · exact hc.obeys_updateField h id (Region.becomes_setActive _)
  · exact resize hv hc id _ tree h

omit hc

theorem forM (ids : List FieldId) : (ids.forM visit).Keeps (Obeys · charter) := fun tree h ↦
  meets_forM (fun _ mid ↦ mid.Obeys charter) (fun _ hm ↦ hm) (fun d _ mid hmid ↦ hv d mid hmid) ids
    tree h

theorem spread (ids : List FieldId) : (spread visit ids).Keeps (Obeys · charter) := by
  induction ids with
  | nil => exact fun _ h ↦ h
  | cons id outer ih =>
      intro tree h
      rw [meets_spread_cons]
      exact ⟨fun _ ↦ (forM hv _ tree h).imp (fun _ mid hmid ↦ ih mid hmid) fun _ _ ha ↦ ha,
        fun _ ↦ h⟩

theorem propagate (source : Source) : (propagate visit source).Keeps (Obeys · charter) := by
  intro tree h
  cases source with
  | children id =>
      rw [meets_propagate_children]
      exact forM hv _ tree h
  | field id =>
      rw [meets_propagate_field]
      exact spread hv _ tree h

end

variable (hc : charter.Lawful)

include hc

theorem notify (fuel : Nat) : ∀ (refresh : Bool) (path : List FieldId) (id : FieldId),
    (notify fuel refresh path id).Keeps (Obeys · charter) := by
  induction fuel with
  | zero => exact fun _ _ _ _ h ↦ h
  | succ fuel ih =>
      intro refresh path id tree h
      rw [meets_notify_succ]
      refine ⟨fun field _ ↦ ⟨fun _ _ ↦ h, fun _ ↦ ?_⟩, fun _ ↦ h⟩
      refine (recompute (ih false []) hc id tree h).imp (fun _ mid hmid ↦ ?_) fun _ _ ha ↦ ha
      refine propagate (ih refresh (id :: path)) (.field id) _ ?_
      split
      · exact hmid
      · exact hmid

theorem enter (refresh : Bool) (id : FieldId) : (enter refresh id).Keeps (Obeys · charter) := by
  intro tree h
  rw [LightTree.enter, meets_bind, meets_get]
  exact hc.notify _ refresh [] id tree h

end Charter.Lawful

/-! ## Operations -/

/-- An edit keeps to a charter, however it ends. -/
def Edit.KeepsTo {α : Type} (edit : Edit α) (charter : Charter) : Prop :=
  edit.Keeps (Tree.Chartered · charter)

namespace Tree

theorem lasting_catalog : Lasting fun tree after ↦ after.catalog = tree.catalog where
  refl _ := rfl
  trans h h' := h'.trans h
  insertField _ _ _ := rfl
  relink tree dependent source := (SameNodes.relink tree dependent source).catalog
  setActive _ _ _ _ := rfl
  push _ _ _ := rfl
  drop tree id f group := (SameNodes.drop tree id f group).catalog
  refresh _ := rfl
  insertNode _ _ := rfl
  addTop _ _ _ := rfl
  adopt _ _ _ := rfl
  disown _ _ _ := rfl
  supplant _ _ _ _ := rfl
  releaseNode tree id := (releaseNode_shrinks tree id).catalog
  setValue _ _ _ _ _ _ _ := rfl

end Tree

namespace Charter

open LightTree.Tree

variable {charter : Charter} {tree : Tree}

theorem keepsTo {α : Type} {edit : Edit α} (hobeys : edit.Keeps (Obeys · charter))
    (hcatalog : edit.Respects fun tree after ↦ after.catalog = tree.catalog) :
    edit.KeepsTo charter := fun tree h ↦
  ((hobeys tree h.obeys).and (hcatalog tree)).imp (fun _ _ ⟨hs, hc⟩ ↦ ⟨hs, hc ▸ h.kinds⟩)
    fun _ _ ⟨hs, hc⟩ ↦ ⟨hs, hc ▸ h.kinds⟩

namespace Lawful

variable (hc : charter.Lawful)

include hc

theorem chartered_releaseNode (h : tree.Chartered charter) (id : NodeId) :
    (tree.releaseNode id).Chartered charter :=
  have hs := releaseNode_shrinks tree id
  ⟨hc.obeys_of_shrinks h.obeys hs, hs.catalog ▸ h.kinds⟩

theorem chartered_giveUp (h : tree.Chartered charter) (child : NodeId) :
    (tree.giveUp child).Chartered charter := by
  unfold Tree.giveUp
  split
  · exact hc.chartered_releaseNode h child
  · exact h

theorem settle (source : Source) : (settle source).KeepsTo charter := by
  refine keepsTo (fun tree h ↦ ?_) (lasting_catalog.toHarmless.settle source)
  rw [meets_settle]
  exact (propagate (hc.enter true) source tree h).imp (fun _ _ ha ↦ ha) fun _ _ ha ↦ ha

theorem childrenChanged (parent : NodeId) (refresh : Bool) :
    (childrenChanged parent refresh).KeepsTo charter := by
  unfold LightTree.childrenChanged
  split
  · exact hc.settle _
  · exact keepsTo (propagate (hc.enter false) _) (lasting_catalog.toHarmless.settleQuietly _)

theorem attach (parent child : NodeId) (refresh : Bool) :
    (attach parent child refresh).KeepsTo charter := by
  intro tree h
  rw [meets_attach]
  exact ⟨fun _ ↦ h, fun _ ↦ ⟨fun _ _ ↦ h, fun _ ↦
    hc.childrenChanged parent refresh _ (h.of_nodes rfl rfl)⟩⟩

theorem furnish (id : NodeId) {decls : List FieldDecl}
    (hdecls : ∀ owner, ∀ decl ∈ decls, charter.declared owner decl) :
    (furnish id decls).KeepsTo charter := by
  induction decls with
  | nil => exact fun _ h ↦ h
  | cons decl rest ih =>
      intro tree h
      rw [meets_furnish_cons]
      have hd := fun owner ↦ List.forall_mem_cons.1 (hdecls owner)
      exact (keepsTo (instantiate (hc.enter false) hc [] none decl (hd id).1)
        (lasting_catalog.toHarmless.instantiate (lasting_catalog.enter false) [] none decl)
        tree h).imp
        (fun field mid hmid ↦ ih (fun owner ↦ (hd owner).2) _ (hmid.of_nodes rfl rfl))
        fun _ _ ha ↦ ha

section

variable {make : NodeKind → Edit NodeId}
  (hmake : ∀ kind, charter.Admits kind → (make kind).KeepsTo charter)

include hmake

theorem populateOne (id : NodeId) (kind : NodeKind) {childKind : NodeKind}
    (hchild : charter.Admits childKind) : (populateOne make id kind childKind).KeepsTo charter := by
  intro tree h
  rw [meets_populateOne]
  refine (hmake childKind hchild tree h).imp (fun child mid hmid ↦ ?_) fun _ _ ha ↦ ha
  exact (hc.attach id child false mid hmid).imp
    (fun _ _ ha ↦ ⟨fun _ ↦ hc.chartered_releaseNode ha child, fun _ ↦ ha⟩)
    fun _ _ ha ↦ hc.chartered_releaseNode ha child

theorem populate (id : NodeId) (kind : NodeKind) {childKind? : Option NodeKind}
    (hchild : ∀ childKind, childKind? = some childKind → charter.Admits childKind) (count : Nat) :
    (populate make id kind childKind? count).KeepsTo charter := by
  induction count with
  | zero => exact fun _ h ↦ h
  | succ count ih =>
      intro tree h
      rw [meets_populate_succ]
      exact ⟨fun _ ↦ h, fun childKind hk ↦
        (hc.populateOne hmake id kind (hchild childKind hk) tree h).imp (fun _ ↦ ih)
          fun _ _ ha ↦ ha⟩

theorem build (id : NodeId) {kind : NodeKind} (hkind : charter.Admits kind) :
    (build make id kind).KeepsTo charter := by
  intro tree h
  rw [meets_build]
  refine (hc.furnish id hkind tree h).imp (fun _ mid hmid ↦ ?_) fun _ _ ha ↦ ha
  refine ⟨fun _ ↦ hc.populate hmake id kind (fun childKind hk ↦ ?_) _ mid hmid, fun _ ↦ hmid⟩
  exact hmid.kinds childKind (List.mem_of_find?_eq_some hk)

end

theorem createWithin (depth : Nat) {kind : NodeKind} (hkind : charter.Admits kind) :
    (createWithin depth kind).KeepsTo charter := by
  induction depth generalizing kind with
  | zero => exact fun _ h ↦ h
  | succ depth ih =>
      intro tree h
      rw [meets_createWithin_succ]
      have hnew : (tree.insertNode { kind }).Chartered charter := h.of_nodes rfl rfl
      exact ⟨fun _ _ ↦ h, fun _ ↦ (hc.build (fun _ ↦ ih) _ hkind _ hnew).imp (fun _ _ ha ↦ ha)
        fun _ _ ha ↦ hc.chartered_releaseNode ha _⟩

theorem create {kind : NodeKind} (hkind : charter.Admits kind) : (create kind).KeepsTo charter :=
  hc.createWithin 5 hkind

theorem addChild (parent child : NodeId) : (addChild parent child).KeepsTo charter := by
  intro tree h
  rw [meets_addChild]
  exact (hc.attach parent child true tree h).imp
    (fun _ _ ha ↦ ⟨fun _ ↦ hc.chartered_giveUp ha child, fun _ ↦ ha⟩)
    fun _ _ ha ↦ hc.chartered_giveUp ha child

theorem removeChild (parent child : NodeId) : (removeChild parent child).KeepsTo charter := by
  intro tree h
  rw [meets_removeChild]
  have hgone : (tree.disown parent child).Chartered charter := h.of_nodes rfl rfl
  exact ⟨fun _ ↦ h, fun _ ↦ ⟨fun _ _ ↦ h, fun _ ↦
    hc.childrenChanged parent true _ (hc.chartered_releaseNode hgone child)⟩⟩

theorem addByCategory (parent : NodeId) (category : Category) :
    (addByCategory parent category).KeepsTo charter := by
  intro tree h
  rw [meets_addByCategory]
  refine ⟨fun _ ↦ h, fun kind _ hkind ↦ ?_⟩
  exact (hc.create (h.kinds kind (List.mem_of_find?_eq_some hkind)) tree h).imp
    (fun child mid hmid ↦ hc.addChild parent child mid hmid) fun _ _ ha ↦ ha

theorem detach (id : NodeId) : (detach id).KeepsTo charter := by
  intro tree h
  rw [meets_detach]
  exact ⟨fun _ ↦ h, fun parent _ ↦ hc.removeChild parent id tree h⟩

theorem retype (id : NodeId) (symbol : String) : (retype id symbol).KeepsTo charter := by
  intro tree h
  refine meets_retype h fun node parent kind _ _ hk ↦ ⟨fun _ _ ↦ h, fun _ ↦ ?_⟩
  have hkind := h.kinds kind (List.mem_of_find?_eq_some hk)
  refine (hc.create hkind tree h).imp (fun new mid hmid ↦ ?_) fun _ _ ha ↦ ha
  have hin : (mid.supplant parent id new).Chartered charter := hmid.of_nodes rfl rfl
  exact ⟨fun _ ↦ hc.chartered_releaseNode hmid new, fun _ ↦
    hc.childrenChanged parent true _ (hc.chartered_releaseNode hin id)⟩

theorem mutate (id : FieldId) {change : Field → Except Fault Value}
    (hchange : charter.Permits change) : (mutate id change).KeepsTo charter := by
  intro tree h
  refine meets_mutate (fun _ ↦ h) fun _ field value hf hv ↦ hc.settle _ _ ⟨?_, h.kinds⟩
  intro x new hn
  rw [field?_updateField] at hn
  split at hn
  · next hx =>
      obtain ⟨old, ho, rfl⟩ := Option.map_eq_some_iff.1 hn
      cases Option.some.inj ((hx ▸ hf).symm.trans ho)
      exact hchange.stored field value hv (h.obeys _ field hf)
  · exact h.obeys x new hn

theorem appendElement (id : FieldId) : (appendElement id).KeepsTo charter := by
  intro tree h
  refine meets_appendElement (fun _ ↦ h) fun _ field template elements hf hv ↦ ?_
  have hdecls := hc.template field.owner false template elements (hv ▸ h.obeys _ field hf)
  refine (keepsTo (instantiateGroup (hc.enter false) hc _ [] hdecls)
    (lasting_catalog.toHarmless.instantiateGroup (lasting_catalog.enter false) _ [] template)
    tree h).imp (fun group mid hmid ↦ ⟨fun _ ↦ ?_, fun _ ↦ hmid⟩) fun _ _ ha ↦ ha
  exact hc.settle _ _ ⟨hc.obeys_push hmid.obeys _ group, hmid.kinds⟩

theorem removeElement (id : FieldId) (index : Nat) :
    (removeElement id index).KeepsTo charter := by
  intro tree h
  refine meets_removeElement (fun _ ↦ h) h fun _ field template elements element _ _ _ ↦ ?_
  exact hc.settle _ _ ⟨hc.obeys_drop h.obeys _ _ _, (SameNodes.drop tree _ _ _).catalog ▸ h.kinds⟩

theorem rebind (dependent : FieldId) (source : Source) :
    (rebind dependent source).KeepsTo charter :=
  keepsTo (rebindWith (hc.enter false) dependent source) (lasting_catalog.rebind dependent source)

end Lawful

end Charter

end LightTree
