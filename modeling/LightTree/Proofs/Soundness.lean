import LightTree.Proofs.Ownership

/-!
# Sound trees

A tree is sound if its fields mention older ones only, no field has two owners, the subscriptions
mirror the links and no change comes back to the field it began with. Every primitive change of a
tree keeps it sound.
-/

namespace LightTree

open Relation

namespace Tree

structure Sound (tree : Tree) : Prop where
  ordered : tree.Ordered
  owned : tree.Owned
  mirrored : tree.Mirrored
  acyclic : tree.Acyclic

variable {tree after : Tree}

theorem Sound.lt_size_of_feeds (h : tree.Sound) {a b : FieldId} (hab : tree.Feeds a b) :
    b.index < tree.fields.size := by
  rcases feeds_iff.1 hab with hm | hc
  · exact (h.mirrored.live_of_mem hm).lt_size
  · exact Nat.lt_trans (h.ordered.container_lt a b hc) (live_of_feeds hab).lt_size

theorem Sound.not_feeds_self (h : tree.Sound) (id : FieldId) : ¬tree.Feeds id id :=
  fun hf ↦ h.acyclic id (.single hf)

/-- A source that a live field is linked to feeds it. -/
theorem Sound.feeds_of_follows (h : tree.Sound) {id dependent : FieldId} (hid : tree.Live id)
    (hf : tree.Follows dependent id) : tree.Feeds id dependent :=
  feeds_iff.2 (.inl ((h.mirrored.mem_iff hid).2 hf))

theorem Sound.refresh (h : tree.Sound) :
    Sound { tree with refreshes := tree.refreshes + 1 } where
  ordered := ⟨h.ordered.inner_lt, h.ordered.container_lt, h.ordered.link_issued,
    h.ordered.owner_issued⟩
  owned := h.owned.congr (fun _ ↦ Iff.rfl) rfl rfl
  mirrored := h.mirrored.congr (fun _ ↦ Iff.rfl) rfl rfl rfl (fun _ h ↦ h) fun _ _ ↦ rfl
  acyclic := h.acyclic

/-! ## Fields -/

theorem feeds_insertField {field : Field} (hlisteners : field.listeners = []) {a b : FieldId}
    (h : (tree.insertField field).Feeds a b) :
    tree.Feeds a b ∨ a = tree.nextField ∧ field.container = some b := by
  rcases feeds_iff.1 h with hm | hc
  · rw [listeners_eq_read, read_insertField, hlisteners] at hm
    split at hm
    · exact absurd hm List.not_mem_nil
    · exact .inl (feeds_iff.2 (.inl (by rwa [listeners_eq_read])))
  · rw [container?_eq_read, read_insertField] at hc
    split at hc
    · next ha => exact .inr ⟨ha, hc⟩
    · exact .inl (feeds_iff.2 (.inr (by rwa [container?_eq_read])))

/-- A new field feeds at most the list around it, and nothing feeds the new field. -/
theorem Sound.acyclic_insertField (h : tree.Sound) {field : Field}
    (hlisteners : field.listeners = [])
    (hcontainer : ∀ c, field.container = some c → c.index < tree.fields.size) :
    (tree.insertField field).Acyclic := by
  cases hc : field.container with
  | none =>
      refine h.acyclic.mono fun a b hab ↦ ?_
      rcases feeds_insertField hlisteners hab with hab | ⟨_, hb⟩
      · exact hab
      · exact absurd (hc.symm.trans hb) nofun
  | some c =>
      have hnew : ∀ a b, (tree.insertField field).Feeds a b →
          tree.Feeds a b ∨ a = tree.nextField ∧ b = c := by
        intro a b hab
        refine (feeds_insertField hlisteners hab).imp_right fun ⟨ha, hb⟩ ↦ ⟨ha, ?_⟩
        exact (Option.some.inj (hc.symm.trans hb)).symm
      refine acyclic_of_new_edges hnew ?_ h.acyclic
      rintro x rfl hreach
      rcases hreach.cases_tail with heq | ⟨y, _, hy⟩
      · exact Nat.lt_irrefl _ (heq ▸ hcontainer c hc : tree.nextField.index < tree.fields.size)
      · exact Nat.lt_irrefl _ (h.lt_size_of_feeds hy)

theorem Sound.insertField (h : tree.Sound) {field : Field} (hlink : field.link = none)
    (hlisteners : field.listeners = [])
    (hcontainer : ∀ c, field.container = some c → c.index < tree.fields.size)
    (howner : field.owner.index < tree.nodes.size) (hn : field.value.parts.Nodup)
    (hparts : ∀ c ∈ field.value.parts, tree.Loose c) : (tree.insertField field).Sound where
  ordered := by
    refine h.ordered.insertField (fun b hb ↦ ?_) hcontainer hlink howner
    have hmem : b ∈ field.value.parts := by
      cases hv : field.value <;> rw [hv] at hb <;> simp_all [Value.inner?, Value.parts]
    exact (hparts b hmem).live.lt_size
  owned := h.owned.insertField hn hparts
  mirrored := h.mirrored.insertField h.ordered hlink hlisteners
  acyclic := h.acyclic_insertField hlisteners hcontainer

theorem feeds_relink (ho : tree.Ordered) {dependent a b : FieldId} {source : Option Source}
    (h : (tree.relink dependent source).Feeds a b) :
    tree.Feeds a b ∨ (tree.Live a ∧ tree.Covers source a) ∧ b = dependent := by
  have hl : tree.Live a := (live_relink dependent source a).1 (live_of_feeds h)
  rcases feeds_iff.1 h with hm | hc
  · rcases (mem_listeners_relink ho.innerOlder hl).1 hm with ⟨hm, _⟩ | ⟨hb, hcov⟩
    · exact .inl (feeds_iff.2 (.inl hm))
    · exact .inr ⟨⟨hl, hcov⟩, hb⟩
  · rw [container?_relink] at hc
    exact .inl (feeds_iff.2 (.inr hc))

/-- A dependent may move to a source if it reaches no live layer of it. -/
theorem Sound.relink (h : tree.Sound) {dependent : FieldId} (hl : tree.Live dependent)
    {source : Option Source} (hs : ∀ s, source = some s → tree.Issued s ∧ tree.Admits dependent s) :
    (tree.relink dependent source).Sound where
  ordered := h.ordered.relink hl fun s hss ↦ (hs s hss).1
  owned := by
    apply h.owned.congr (live_relink dependent source)
    · exact read_relink dependent source (fun _ _ _ ↦ rfl) []
    · rw [topFields_eq_readNode, topFields_eq_readNode,
        readNode_relink dependent source fun _ _ ↦ rfl]
  mirrored := h.mirrored.relink h.ordered hl source
  acyclic := by
    refine acyclic_of_new_edges (fun a b ↦ feeds_relink h.ordered) ?_ h.acyclic
    rintro x ⟨hx, s, hss, hw⟩
    exact (hs _ hss).2 x ((mem_layers_iff h.ordered.innerOlder).2 hw) hx

/-- What is checked before a dependent is moved keeps the tree sound. -/
theorem Sound.relink_of_not_closesCycle (h : tree.Sound) {dependent : FieldId}
    (hl : tree.Live dependent) {source : Source} (hissued : tree.Issued source)
    (hc : tree.closesCycle dependent source = false) :
    (tree.relink dependent (some source)).Sound := by
  refine h.relink hl fun s hs ↦ ?_
  cases hs
  exact ⟨hissued, admits_of_not_closesCycle hc⟩

theorem Loose.relink {x : FieldId} (hx : tree.Loose x) (dependent : FieldId)
    (source : Option Source) : (tree.relink dependent source).Loose x := by
  apply hx.congr (live_relink dependent source)
  · exact read_relink dependent source (fun _ _ _ ↦ rfl) []
  · rw [topFields_eq_readNode, topFields_eq_readNode,
      readNode_relink dependent source fun _ _ ↦ rfl]

section

variable {id : FieldId} {f : Field → Field}

/-- A change of a field that leaves its place, its link and its listeners alone. -/
structure Retouches (f : Field → Field) : Prop where
  owner : ∀ field, (f field).owner = field.owner
  link : ∀ field, (f field).link = field.link
  listeners : ∀ field, (f field).listeners = field.listeners
  container : ∀ field, (f field).container = field.container
  inner? : ∀ field, (f field).value.inner? = field.value.inner?

theorem wraps_updateField (hf : ∀ field, (f field).value.inner? = field.value.inner?)
    (id : FieldId) : (tree.updateField id f).Wraps = tree.Wraps := by
  funext a b
  unfold Wraps
  rw [inner?_updateField hf]

theorem feeds_updateField (hf : Retouches f) (id : FieldId) :
    (tree.updateField id f).Feeds = tree.Feeds := by
  funext a b
  rw [eq_iff_iff, feeds_iff, feeds_iff, listeners_updateField hf.listeners,
    container?_updateField hf.container]

theorem Sound.retouch (h : tree.Sound) (hf : Retouches f) (ho : (tree.updateField id f).Owned) :
    (tree.updateField id f).Sound where
  ordered := by
    refine h.ordered.mono ?_ ?_ ?_ ?_ (by simp) (Nat.le_refl _)
    · rw [inner?_updateField hf.inner?]
      exact fun _ _ ↦ fun h ↦ h
    · rw [container?_updateField hf.container]
      exact fun _ _ ↦ fun h ↦ h
    · rw [link?_updateField hf.link]
      exact fun _ _ ↦ fun h ↦ h
    · rw [owner?_updateField hf.owner]
      exact fun _ _ ↦ fun h ↦ h
  owned := ho
  mirrored := by
    refine h.mirrored.congr (live_updateField tree id f) (listeners_updateField hf.listeners id)
      (link?_updateField hf.link id) (wraps_updateField hf.inner? id) (fun _ ↦ fun h ↦ h)
      fun _ _ ↦ rfl
  acyclic := h.acyclic.mono fun a b ↦ by
    rw [feeds_updateField hf]
    exact fun h ↦ h

theorem retouches_mapElements (f : List (List FieldId) → List (List FieldId)) :
    Retouches fun field ↦ { field with value := field.value.mapElements f } where
  owner _ := rfl
  link _ := rfl
  listeners _ := rfl
  container _ := rfl
  inner? field := by cases field.value <;> rfl

theorem retouches_setActive (active : Bool) : Retouches ({ · with active }) :=
  ⟨fun _ ↦ rfl, fun _ ↦ rfl, fun _ ↦ rfl, fun _ ↦ rfl, fun _ ↦ rfl⟩

theorem Sound.retouch_of_parts (h : tree.Sound) (hf : Retouches f)
    (hparts : ∀ field, (f field).value.parts = field.value.parts) (id : FieldId) :
    (tree.updateField id f).Sound :=
  h.retouch hf (h.owned.congr (live_updateField tree id f) (parts_updateField hparts id) rfl)

theorem Loose.retouch {x : FieldId} (hx : tree.Loose x)
    (hparts : ∀ field, (f field).value.parts = field.value.parts) (id : FieldId) :
    (tree.updateField id f).Loose x :=
  hx.congr (live_updateField tree id f) (parts_updateField hparts id) rfl

theorem Loose.setActive {x : FieldId} (hx : tree.Loose x) (id : FieldId) (active : Bool) :
    (tree.updateField id ({ · with active })).Loose x :=
  hx.retouch (f := ({ · with active })) (fun _ ↦ rfl) id

theorem Sound.setActive (h : tree.Sound) (id : FieldId) (active : Bool) :
    (tree.updateField id ({ · with active })).Sound :=
  h.retouch_of_parts (retouches_setActive active) (fun _ ↦ rfl) id

theorem parts_updateField_self {field : Field} (hf : tree.field? id = some field)
    (f : Field → Field) : (tree.updateField id f).parts id = (f field).value.parts := by
  simp [parts, read, field?_updateField, hf]

end

end Tree

namespace Value

def IsLeaf : Value → Prop
  | scalar _ => True
  | choice .. => True
  | _ => False

/-- A new value in the place of a leaf. -/
def replaceLeaf (new : Value) (old : Value) : Value :=
  match old with
  | scalar _ => new
  | choice .. => new
  | old => old

theorem replaceLeaf_of_isLeaf {new old : Value} (h : old.IsLeaf) : new.replaceLeaf old = new := by
  cases old with
  | scalar | choice => rfl
  | list | gated => exact h.elim

theorem inner?_replaceLeaf {new : Value} (h : new.IsLeaf) (old : Value) :
    (new.replaceLeaf old).inner? = old.inner? := by
  cases new with
  | scalar | choice => cases old <;> rfl
  | list | gated => exact h.elim

theorem parts_replaceLeaf {new : Value} (h : new.IsLeaf) (old : Value) :
    (new.replaceLeaf old).parts = old.parts := by
  cases new with
  | scalar | choice => cases old <;> rfl
  | list | gated => exact h.elim

end Value

namespace Tree

variable {tree after : Tree}

theorem updateField_value {id : FieldId} {field : Field} {value : Value}
    (hf : tree.field? id = some field) (hold : field.value.IsLeaf) :
    tree.updateField id ({ · with value }) = tree.updateField id fun field ↦
      { field with value := value.replaceLeaf field.value } := by
  refine updateField_congr fun other ho ↦ ?_
  rw [hf] at ho
  cases ho
  rw [Value.replaceLeaf_of_isLeaf hold]

theorem retouches_replaceLeaf {value : Value} (h : value.IsLeaf) :
    Retouches fun field ↦ { field with value := value.replaceLeaf field.value } where
  owner _ := rfl
  link _ := rfl
  listeners _ := rfl
  container _ := rfl
  inner? field := Value.inner?_replaceLeaf h field.value

theorem Sound.setValue (h : tree.Sound) {id : FieldId} {field : Field} {value : Value}
    (hf : tree.field? id = some field) (hold : field.value.IsLeaf) (hnew : value.IsLeaf) :
    (tree.updateField id ({ · with value })).Sound := by
  rw [updateField_value hf hold]
  exact h.retouch_of_parts (retouches_replaceLeaf hnew)
    (fun field ↦ Value.parts_replaceLeaf hnew field.value) id

section

variable {id : FieldId} {f : Field → Field}

/-- Puts a group of fields at the end of a list, as its last element. -/
def push (tree : Tree) (id : FieldId) (group : List FieldId) : Tree :=
  tree.updateField id fun field ↦ { field with value := field.value.mapElements (· ++ [group]) }

theorem parts_push (tree : Tree) (id : FieldId) (group : List FieldId) :
    ∃ more, more.Sublist group ∧ (tree.push id group).parts id = tree.parts id ++ more := by
  by_cases hl : tree.Live id
  · obtain ⟨field, hf⟩ := live_iff.1 hl
    rw [push, parts_updateField_self hf, parts, read_of_some hf]
    cases field.value with
    | list linked template elements =>
        exact ⟨group, .refl _, by simp [Value.mapElements, Value.parts]⟩
    | scalar | choice | gated =>
        exact ⟨[], List.nil_sublist _, by simp [Value.mapElements]⟩
  · refine ⟨[], List.nil_sublist _, ?_⟩
    have hl' : ¬(tree.push id group).Live id := by rwa [push, live_updateField]
    rw [parts, parts, read_of_none (not_live_iff.1 hl), read_of_none (not_live_iff.1 hl')]
    rfl

theorem Sound.push (h : tree.Sound) (id : FieldId) {group : List FieldId} (hn : group.Nodup)
    (hgroup : ∀ x ∈ group, tree.Loose x) : (tree.push id group).Sound := by
  obtain ⟨more, hsub, hparts⟩ := parts_push tree id group
  refine h.retouch (retouches_mapElements _) (h.owned.updateField ?_ ?_)
  · change ((tree.push id group).parts id).Nodup
    rw [hparts, List.nodup_append]
    refine ⟨h.owned.parts_nodup id, hsub.nodup hn, fun a ha b hb hab ↦ ?_⟩
    exact (hgroup b (hsub.subset hb)).not_part id (hab ▸ ha)
  · intro c hc
    change c ∈ (tree.push id group).parts id at hc
    rw [hparts, List.mem_append] at hc
    exact hc.imp_right fun hc ↦ hgroup c (hsub.subset hc)

end

theorem Sound.releaseFields (h : tree.Sound) {ids : List FieldId} (hn : ids.Nodup)
    (hids : ∀ id ∈ ids, tree.Loose id) : (tree.releaseFields ids).Sound where
  ordered := (releaseFields_shrinks tree ids).ordered h.ordered
  owned := h.owned.releaseFields hn hids
  mirrored := h.mirrored.releaseFields h.ordered ids
  acyclic := (releaseFields_shrinks tree ids).acyclic h.acyclic

/-- Takes elements from a list and releases their fields. -/
def drop (tree : Tree) (id : FieldId) (f : List (List FieldId) → List (List FieldId))
    (group : List FieldId) : Tree :=
  (tree.updateField id fun field ↦
    { field with value := field.value.mapElements f }).releaseFields group

/-- What a list keeps and what it drops make up what it had. -/
def Splits (f : List (List FieldId) → List (List FieldId)) (group : List FieldId)
    (value : Value) : Prop :=
  ((value.mapElements f).parts ++ group).Perm value.parts

section

variable {id : FieldId} {field : Field} {f : List (List FieldId) → List (List FieldId)}
  {group : List FieldId}

theorem mem_parts_of_mem_dropped (hf : tree.field? id = some field)
    (hsplit : Splits f group field.value) {x : FieldId} (hx : x ∈ group) : x ∈ tree.parts id := by
  rw [parts, read_of_some hf]
  exact hsplit.subset (List.mem_append_right _ hx)

theorem mem_parts_of_mem_kept (hf : tree.field? id = some field)
    (hsplit : Splits f group field.value) {p x : FieldId}
    (hx : x ∈ (tree.updateField id fun field ↦
      { field with value := field.value.mapElements f }).parts p) : x ∈ tree.parts p := by
  by_cases hp : p = id
  · subst hp
    rw [parts_updateField_self hf] at hx
    rw [parts, read_of_some hf]
    exact hsplit.subset (List.mem_append_left _ hx)
  · rwa [parts_updateField_of_ne hp] at hx

end

theorem Sound.drop (h : tree.Sound) {id : FieldId} {field : Field}
    (hf : tree.field? id = some field) {f : List (List FieldId) → List (List FieldId)}
    {group : List FieldId} (hsplit : Splits f group field.value) :
    (tree.drop id f group).Sound := by
  have hold : tree.parts id = field.value.parts := read_of_some hf _ _
  have hnew : (tree.updateField id fun field ↦
      { field with value := field.value.mapElements f }).parts id =
      (field.value.mapElements f).parts := parts_updateField_self hf _
  have hnodup : ((field.value.mapElements f).parts ++ group).Nodup :=
    hsplit.nodup_iff.2 (hold ▸ h.owned.parts_nodup id)
  obtain ⟨hkept, hgroup, hapart⟩ := List.nodup_append.1 hnodup
  have hs : (tree.updateField id fun field ↦
      { field with value := field.value.mapElements f }).Sound := by
    refine h.retouch (retouches_mapElements f) (h.owned.updateField (hnew ▸ hkept) fun c hc ↦ ?_)
    rw [hnew] at hc
    exact .inl (hold ▸ hsplit.subset (List.mem_append_left group hc))
  refine hs.releaseFields hgroup fun x hx ↦ h.owned.loose_of_dropped ?_ ?_
  · exact hold ▸ hsplit.subset (List.mem_append_right _ hx)
  · rw [hnew]
    exact fun hc ↦ hapart x hc x hx rfl

theorem Loose.drop {x : FieldId} (hx : tree.Loose x) {id : FieldId} {field : Field}
    (hf : tree.field? id = some field) {f : List (List FieldId) → List (List FieldId)}
    {group : List FieldId} (hsplit : Splits f group field.value) :
    (tree.drop id f group).Loose x := by
  have hnot : x ∉ (field.value.mapElements f).parts ++ group := by
    rw [hsplit.mem_iff, ← read_of_some hf (·.value.parts) []]
    exact hx.not_part id
  rw [List.mem_append, not_or] at hnot
  refine (hx.updateField ?_).releaseFields hnot.2
  rw [parts_updateField_self hf]
  exact hnot.1

theorem Loose.push {x id : FieldId} {group : List FieldId} (hx : tree.Loose x)
    (hgroup : x ∉ group) : (tree.push id group).Loose x := by
  obtain ⟨more, hsub, hparts⟩ := parts_push tree id group
  apply hx.updateField
  change x ∉ (tree.push id group).parts id
  rw [hparts, List.mem_append, not_or]
  exact ⟨hx.not_part id, fun hm ↦ hgroup (hsub.subset hm)⟩

/-! ## Nodes -/

theorem Sound.updateNode (h : tree.Sound) {f : Node → Node}
    (hfields : ∀ node, (f node).fields = node.fields)
    (hlisteners : ∀ node, (f node).listeners = node.listeners) (id : NodeId) :
    (tree.updateNode id f).Sound where
  ordered := h.ordered.mono (fun _ _ ↦ fun h ↦ h) (fun _ _ ↦ fun h ↦ h) (fun _ _ ↦ fun h ↦ h)
    (fun _ _ ↦ fun h ↦ h) (Nat.le_refl _) (by simp)
  owned := by
    refine h.owned.congr (fun _ ↦ Iff.rfl) rfl ?_
    rw [topFields_eq_readNode, topFields_eq_readNode, readNode_updateNode_of_keeps hfields]
  mirrored := by
    refine h.mirrored.congr (fun _ ↦ Iff.rfl) rfl rfl rfl (fun x ↦ (liveNode_updateNode _ _ _ x).1)
      fun x _ ↦ ?_
    exact congrFun (readNode_updateNode_of_keeps hlisteners id []) x
  acyclic := h.acyclic

theorem Sound.insertNode (h : tree.Sound) {node : Node} (hfields : node.fields = [])
    (hlisteners : node.listeners = []) : (tree.insertNode node).Sound where
  ordered := h.ordered.mono (fun _ _ ↦ fun h ↦ h) (fun _ _ ↦ fun h ↦ h) (fun _ _ ↦ fun h ↦ h)
    (fun _ _ ↦ fun h ↦ h) (Nat.le_refl _) (by simp)
  owned := h.owned.congr (fun _ ↦ Iff.rfl) rfl (topFields_insertNode_of_nil hfields)
  mirrored := h.mirrored.insertNode h.ordered hlisteners
  acyclic := h.acyclic

theorem Sound.addTop (h : tree.Sound) {node : NodeId} (hnode : tree.LiveNode node) {id : FieldId}
    (hid : tree.Loose id) : (tree.addTop node id).Sound where
  ordered := h.ordered.mono (fun _ _ ↦ fun h ↦ h) (fun _ _ ↦ fun h ↦ h) (fun _ _ ↦ fun h ↦ h)
    (fun _ _ ↦ fun h ↦ h) (Nat.le_refl _) (by simp [Tree.addTop])
  owned := h.owned.addTop hnode hid
  mirrored := by
    have hkeeps : ∀ n : Node, ({ n with fields := n.fields ++ [id] } : Node).listeners =
        n.listeners := fun _ ↦ rfl
    unfold Tree.addTop
    refine h.mirrored.congr (fun _ ↦ Iff.rfl) rfl rfl rfl (fun x ↦ (liveNode_updateNode _ _ _ x).1)
      fun x _ ↦ ?_
    exact congrFun (readNode_updateNode_of_keeps hkeeps node []) x
  acyclic := h.acyclic

theorem Sound.removeNode (h : tree.Sound) (id : NodeId) : (tree.removeNode id).Sound where
  ordered := (Shrinks.removeNode tree id).ordered h.ordered
  owned := h.owned.removeNode id
  mirrored := by
    refine h.mirrored.congr (fun _ ↦ Iff.rfl) rfl rfl rfl (fun x hx ↦ ?_) fun x hx ↦ ?_
    · exact ((liveNode_removeNode tree id x).1 hx).2
    · rw [nodeListeners, readNode_removeNode, if_neg ((liveNode_removeNode tree id x).1 hx).1]
      rfl
  acyclic := h.acyclic

theorem Loose.removeNode {x : FieldId} (hx : tree.Loose x) (id : NodeId) :
    (tree.removeNode id).Loose x :=
  (Shrinks.removeNode tree id).loose hx hx.live

/-! ## Releasing a node -/

theorem releaseNodeWithin_of_live {fuel : Nat} {id : NodeId} {node : Node}
    (hn : tree.node? id = some node) : releaseNodeWithin (fuel + 1) tree id =
      (node.children.foldl (releaseNodeWithin fuel) (tree.removeNode id)).releaseFields
        node.fields := by
  simp [releaseNodeWithin, hn]

theorem releaseNodeWithin_of_not_live {id : NodeId} (hn : ¬tree.LiveNode id) (fuel : Nat) :
    releaseNodeWithin fuel tree id = tree := by
  cases fuel with
  | zero => rfl
  | succ fuel => simp [releaseNodeWithin, not_liveNode_iff.1 hn]

theorem releaseNodeWithin_shrinks (fuel : Nat) (tree : Tree) (id : NodeId) :
    tree.Shrinks (releaseNodeWithin fuel tree id) := by
  induction fuel generalizing tree id with
  | zero => exact .refl tree
  | succ fuel ih =>
      by_cases hl : tree.LiveNode id
      · obtain ⟨node, hn⟩ := liveNode_iff.1 hl
        rw [releaseNodeWithin_of_live hn]
        exact ((Shrinks.removeNode tree id).trans (.foldl ih _ _)).trans
          (releaseFields_shrinks _ _)
      · rw [releaseNodeWithin_of_not_live hl]
        exact .refl tree

/-- Releasing a node leaves a sound tree, and loose fields stay loose. -/
theorem Sound.releaseNodeWithin (h : tree.Sound) (fuel : Nat) (id : NodeId) :
    (releaseNodeWithin fuel tree id).Sound ∧
      ∀ x, tree.Loose x → (Tree.releaseNodeWithin fuel tree id).Loose x := by
  induction fuel generalizing tree id with
  | zero => exact ⟨h, fun _ hx ↦ hx⟩
  | succ fuel ih =>
      by_cases hl : tree.LiveNode id
      · obtain ⟨node, hn⟩ := liveNode_iff.1 hl
        rw [releaseNodeWithin_of_live hn]
        have htops : tree.topFields id = node.fields := by
          rw [topFields_eq_readNode, readNode_of_some hn]
        have hfold : ∀ (list : List NodeId) (t : Tree), t.Sound →
            (list.foldl (Tree.releaseNodeWithin fuel) t).Sound ∧
              ∀ x, t.Loose x → (list.foldl (Tree.releaseNodeWithin fuel) t).Loose x := by
          intro list
          induction list with
          | nil => exact fun t ht ↦ ⟨ht, fun _ hx ↦ hx⟩
          | cons c list ihl =>
              intro t ht
              obtain ⟨hs, hloose⟩ := ihl _ (ih ht c).1
              exact ⟨hs, fun x hx ↦ hloose x ((ih ht c).2 x hx)⟩
        obtain ⟨hs, hloose⟩ := hfold node.children _ (h.removeNode id)
        refine ⟨hs.releaseFields (htops ▸ h.owned.tops_nodup id) fun x hx ↦ hloose x ?_, ?_⟩
        · exact h.owned.loose_removeNode (htops ▸ hx)
        · intro x hx
          refine (hloose x (hx.removeNode id)).releaseFields fun hmem ↦ ?_
          exact hx.not_top id (htops ▸ hmem)
      · rw [releaseNodeWithin_of_not_live hl]
        exact ⟨h, fun _ hx ↦ hx⟩

theorem releaseNode_shrinks (tree : Tree) (id : NodeId) : tree.Shrinks (tree.releaseNode id) :=
  releaseNodeWithin_shrinks _ tree id

theorem Sound.releaseNode (h : tree.Sound) (id : NodeId) : (tree.releaseNode id).Sound :=
  (h.releaseNodeWithin _ id).1

end Tree

end LightTree
