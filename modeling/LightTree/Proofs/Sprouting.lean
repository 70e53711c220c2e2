import LightTree.Proofs.Annex
import LightTree.Proofs.Slots
import LightTree.Proofs.Thinning

/-!
# Trees that sprout

While cascades run, linked lists get further elements, new fields listen to old ones, and gated
fields go on and off. What a tree had at first stays there otherwise, in its old order, and whatever
is new refers downwards to new fields and nodes only. The additions that a request makes itself, one
element or one child, are told apart from those that cascades make.
-/

namespace LightTree

open Relation

/-- The elements and the children that a request has added itself. -/
structure Additions where
  elements : FieldId → List (List FieldId) := fun _ ↦ []
  children : NodeId → List NodeId := fun _ ↦ []

namespace Additions

def none : Additions := {}

def element (list : FieldId) (group : List FieldId) : Additions where
  elements id := if id = list then [group] else []

def child (parent child : NodeId) : Additions where
  children id := if id = parent then [child] else []

end Additions

namespace Tree

/-- A live source determines the state of the field. -/
def Steered (tree : Tree) (id : FieldId) : Prop :=
  ∃ source, tree.link? id = some source ∧ tree.SourceLive source

/-- Whatever listens to a field is linked to a live one. -/
theorem Mirrored.steered_of_mem_listeners {tree : Tree} (h : tree.Mirrored) {id d : FieldId}
    (hd : d ∈ tree.listeners id) : tree.Steered d := by
  have hlive := live_of_mem_listeners hd
  obtain ⟨s, hs, hw⟩ := (h.mem_iff hlive).1 hd
  refine ⟨.field s, hs, ?_⟩
  rcases hw.cases_head with rfl | ⟨x, hx, _⟩
  · exact hlive
  · exact live_of_inner?_eq_some hx

/-- The second list is the first one with new fields after it. -/
def Extends (base : Tree) (old new : List FieldId) : Prop :=
  ∃ more, new = old ++ more ∧ ∀ x ∈ more, base.Later (.field x)

/-- What has become of a field that was there before. Only a linked list with a live source has
elements that were not asked for, and only a gate with a live source goes on or off. -/
structure Outgrows (base : Tree) (added : Additions) (id : FieldId) (old new : Field) : Prop where
  frame : new = { old with value := new.value, active := new.active, listeners := new.listeners }
  value : ∃ extra, new.value = old.value.mapElements (· ++ extra) ∧
    (∀ group ∈ extra, ∀ x ∈ group, base.Later (.field x)) ∧
    (¬(old.value.isLinked = true ∧ base.Steered id) → extra = added.elements id)
  active : ¬(old.value.inner?.isSome = true ∧ base.Steered id) → new.active = old.active
  listeners : base.Extends old.listeners new.listeners

/-- What has become of a node that was there before. -/
structure OutgrowsNode (base : Tree) (added : Additions) (id : NodeId) (old new : Node) : Prop where
  frame : new = { old with children := new.children, listeners := new.listeners }
  children : new.children = old.children ++ added.children id
  listeners : base.Extends old.listeners new.listeners

/-- The fields of the second tree have sprouted from those of the first. -/
structure SproutsFields (base : Tree) (added : Additions) (tree : Tree) : Prop where
  fields_size : base.fields.size ≤ tree.fields.size
  old : ∀ id field, base.field? id = some field →
    ∃ new, tree.field? id = some new ∧ base.Outgrows added id field new
  live : ∀ id, id.index < base.fields.size → tree.Live id → base.Live id
  part : ∀ id field, base.Later (.field id) → tree.field? id = some field →
    ∀ x ∈ field.value.parts, base.Later (.field x)
  listener : ∀ id field, base.Later (.field id) → tree.field? id = some field →
    ∀ x ∈ field.listeners, base.Later (.field x)

/-- The nodes of the second tree have sprouted from those of the first. -/
structure SproutsNodes (base : Tree) (added : Additions) (tree : Tree) : Prop where
  nodes_size : base.nodes.size ≤ tree.nodes.size
  oldNode : ∀ id node, base.node? id = some node →
    ∃ new, tree.node? id = some new ∧ base.OutgrowsNode added id node new
  liveNode : ∀ id, id.index < base.nodes.size → tree.LiveNode id → base.LiveNode id
  top : ∀ id node, base.Later (.children id) → tree.node? id = some node →
    ∀ x ∈ node.fields, base.Later (.field x)
  child : ∀ id node, base.Later (.children id) → tree.node? id = some node →
    ∀ x ∈ node.children, base.Later (.children x)
  nodeListener : ∀ id node, base.Later (.children id) → tree.node? id = some node →
    ∀ x ∈ node.listeners, base.Later (.field x)

structure Sprouts (base : Tree) (added : Additions) (tree : Tree) : Prop
    extends base.SproutsFields added tree, base.SproutsNodes added tree

variable {base tree after : Tree} {added added' : Additions} {id : FieldId} {node : NodeId}

/-! ## Old and new -/

theorem not_later_of_live (h : base.Live id) : ¬base.Later (.field id) :=
  Nat.not_le_of_lt h.lt_size

namespace Extends

theorem refl (base : Tree) (list : List FieldId) : base.Extends list list :=
  ⟨[], (List.append_nil list).symm, nofun⟩

theorem append {old new : List FieldId} (h : base.Extends old new) {d : FieldId}
    (hd : base.Later (.field d)) : base.Extends old (new ++ [d]) := by
  obtain ⟨more, rfl, hmore⟩ := h
  refine ⟨more ++ [d], List.append_assoc .., fun x hx ↦ ?_⟩
  rcases List.mem_append.1 hx with hx | hx
  · exact hmore x hx
  · exact List.mem_singleton.1 hx ▸ hd

/-- What is new may go again, since it is not among what is old. -/
theorem filter {old new : List FieldId} (h : base.Extends old new)
    (hold : ∀ x ∈ old, base.Live x) {d : FieldId} (hd : base.Later (.field d)) :
    base.Extends old (new.filter (· ≠ d)) := by
  obtain ⟨more, rfl, hmore⟩ := h
  have hkeep : old.filter (· ≠ d) = old := List.filter_eq_self.2 fun x hx ↦ by
    have hne : x ≠ d := fun he ↦ not_later_of_live (hold x hx) (he ▸ hd)
    simpa using hne
  refine ⟨more.filter (· ≠ d), ?_, fun x hx ↦ hmore x (List.mem_filter.1 hx).1⟩
  rw [List.filter_append, hkeep]

end Extends

namespace Outgrows

theorem refl (base : Tree) (id : FieldId) (field : Field) : base.Outgrows .none id field field where
  frame := rfl
  value := ⟨[], by cases field.value <;> simp [Value.mapElements], nofun, fun _ ↦ rfl⟩
  active _ := rfl
  listeners := .refl base _

theorem setActive {old new : Field} (h : base.Outgrows added id old new) (active : Bool)
    (hgate : old.value.inner?.isSome = true ∧ base.Steered id) :
    base.Outgrows added id old { new with active } where
  frame := by
    rw [h.frame]
  value := h.value
  active hnot := absurd hgate hnot
  listeners := h.listeners

theorem setListeners {old new : Field} (h : base.Outgrows added id old new) {list : List FieldId}
    (hlist : base.Extends old.listeners list) :
    base.Outgrows added id old { new with listeners := list } where
  frame := by
    rw [h.frame]
  value := h.value
  active := h.active
  listeners := hlist

/-- Elements go and come at the end of a list, and a list that follows a live source may have any
new ones. -/
theorem setElements {old new : Field} (h : base.Outgrows added id old new)
    {f : List (List FieldId) → List (List FieldId)} {extra : List (List FieldId)}
    (hf : new.value.mapElements f = old.value.mapElements (· ++ extra))
    (hextra : ∀ group ∈ extra, ∀ x ∈ group, base.Later (.field x))
    (hadded : ¬(old.value.isLinked = true ∧ base.Steered id) → extra = added'.elements id) :
    base.Outgrows added' id old { new with value := new.value.mapElements f } where
  frame := by
    rw [h.frame]
  value := ⟨extra, hf, hextra, hadded⟩
  active := h.active
  listeners := h.listeners

end Outgrows

theorem SproutsFields.refl (base : Tree) : base.SproutsFields .none base where
  fields_size := Nat.le_refl _
  old id field hf := ⟨field, hf, .refl base id field⟩
  live _ _ hl := hl
  part _ _ hid hf := absurd hid (not_later_of_live (live_of_some hf))
  listener _ _ hid hf := absurd hid (not_later_of_live (live_of_some hf))

theorem SproutsNodes.refl (base : Tree) : base.SproutsNodes .none base where
  nodes_size := Nat.le_refl _
  oldNode _ node hn := ⟨node, hn, rfl, (List.append_nil _).symm, .refl base _⟩
  liveNode _ _ hl := hl
  top _ _ hid hn := absurd (liveNode_of_some hn).lt_size (Nat.not_lt_of_le hid)
  child _ _ hid hn := absurd (liveNode_of_some hn).lt_size (Nat.not_lt_of_le hid)
  nodeListener _ _ hid hn := absurd (liveNode_of_some hn).lt_size (Nat.not_lt_of_le hid)

theorem Sprouts.refl (base : Tree) : base.Sprouts .none base :=
  ⟨.refl base, .refl base⟩

/-! ## Changing fields -/

namespace SproutsFields

theorem updateField (h : base.SproutsFields added tree) (id : FieldId) {f : Field → Field}
    (hadded : ∀ x, x ≠ id → added'.elements x = added.elements x)
    (hold : ∀ old new, base.field? id = some old → tree.field? id = some new →
      base.Outgrows added id old new → base.Outgrows added' id old (f new))
    (hpart : ∀ new, base.Later (.field id) → tree.field? id = some new →
      ∀ x ∈ (f new).value.parts, base.Later (.field x))
    (hlistener : ∀ new, base.Later (.field id) → tree.field? id = some new →
      ∀ x ∈ (f new).listeners, base.Later (.field x)) :
    base.SproutsFields added' (tree.updateField id f) where
  fields_size := h.fields_size.trans (size_updateField tree id f).ge
  old x field hx := by
    obtain ⟨new, hn, hgrown⟩ := h.old x field hx
    rw [field?_updateField, hn]
    by_cases hid : id = x
    · subst hid
      exact ⟨f new, by simp, hold field new hx hn hgrown⟩
    · refine ⟨new, if_neg hid, hgrown.frame, ?_, hgrown.active, hgrown.listeners⟩
      rw [hadded x (Ne.symm hid)]
      exact hgrown.value
  live x hx hl := h.live x hx ((live_updateField tree id f x).1 hl)
  part x field hx hf := by
    rw [field?_updateField] at hf
    split at hf
    · next hid =>
        subst hid
        obtain ⟨new, hn, rfl⟩ := Option.map_eq_some_iff.1 hf
        exact hpart new hx hn
    · exact h.part x field hx hf
  listener x field hx hf := by
    rw [field?_updateField] at hf
    split at hf
    · next hid =>
        subst hid
        obtain ⟨new, hn, rfl⟩ := Option.map_eq_some_iff.1 hf
        exact hlistener new hx hn
    · exact h.listener x field hx hf

theorem setActive (h : base.SproutsFields added tree)
    (hid : base.Later (.field id) ∨ (base.inner? id).isSome = true ∧ base.Steered id)
    (active : Bool) : base.SproutsFields added (tree.updateField id ({ · with active })) := by
  refine h.updateField id (fun _ _ ↦ rfl) (fun old new ho _ hgrown ↦ ?_) (h.part id) (h.listener id)
  rcases hid with hid | ⟨hinner, hsteered⟩
  · exact absurd hid (not_later_of_live (live_of_some ho))
  · rw [inner?_eq_read, read_of_some ho] at hinner
    exact hgrown.setActive active ⟨hinner, hsteered⟩

theorem setListeners (h : base.SproutsFields added tree) (id : FieldId)
    {f : List FieldId → List FieldId}
    (hf : ∀ old new, (∀ x ∈ old, base.Live x) → base.Extends old new → base.Extends old (f new))
    (hb : base.Mirrored) :
    base.SproutsFields added
      (tree.updateField id fun field ↦ { field with listeners := f field.listeners }) := by
  refine h.updateField id (fun _ _ ↦ rfl) (fun old new ho _ hgrown ↦ ?_) (h.part id)
    fun new hid hn x hx ↦ ?_
  · refine hgrown.setListeners (hf _ _ (fun x hx ↦ ?_) hgrown.listeners)
    apply hb.live_of_mem
    rw [listeners_eq_read, read_of_some ho]
    exact hx
  · obtain ⟨more, hmore, hlater⟩ := hf [] new.listeners nofun ⟨_, rfl, h.listener id new hid hn⟩
    exact hlater x (by simpa [hmore] using hx)

theorem mapListeners (h : base.SproutsFields added tree) (source : Option Source)
    {f : List FieldId → List FieldId}
    (hf : ∀ old new, (∀ x ∈ old, base.Live x) → base.Extends old new → base.Extends old (f new))
    (hb : base.Mirrored) : base.SproutsFields added (tree.mapListeners f source) := by
  rcases source with _ | node | s
  · exact h
  · have hall : ∀ (ids : List FieldId) (mid : Tree), base.SproutsFields added mid →
        base.SproutsFields added (mid.updateFields ids fun field ↦
          { field with listeners := f field.listeners }) := by
      intro ids
      induction ids with
      | nil => exact fun _ hmid ↦ hmid
      | cons first rest ih => exact fun _ hmid ↦ ih _ (hmid.setListeners first hf hb)
    exact hall _ tree h
  · exact ⟨h.fields_size, h.old, h.live, h.part, h.listener⟩

theorem insertField (h : base.SproutsFields added tree) {field : Field}
    (hparts : ∀ x ∈ field.value.parts, base.Later (.field x)) (hlisteners : field.listeners = []) :
    base.SproutsFields added (tree.insertField field) where
  fields_size := h.fields_size.trans ((Nat.le_succ _).trans_eq (size_insertField tree field).symm)
  old x old ho := by
    obtain ⟨new, hn, hgrown⟩ := h.old x old ho
    exact ⟨new, by rw [tree.field?_insertField_of_ne field (live_of_some hn).ne_nextField, hn],
      hgrown⟩
  live x hx hl := by
    rcases (live_insertField tree field x).1 hl with rfl | hl
    · exact absurd hx (Nat.not_lt_of_le h.fields_size)
    · exact h.live x hx hl
  part x new hx hn := by
    by_cases hnext : x = tree.nextField
    · rw [hnext, field?_insertField_self] at hn
      exact Option.some.inj hn ▸ hparts
    · rw [tree.field?_insertField_of_ne field hnext] at hn
      exact h.part x new hx hn
  listener x new hx hn := by
    by_cases hnext : x = tree.nextField
    · rw [hnext, field?_insertField_self] at hn
      rw [← Option.some.inj hn, hlisteners]
      exact nofun
    · rw [tree.field?_insertField_of_ne field hnext] at hn
      exact h.listener x new hx hn

theorem removeField (h : base.SproutsFields added tree) (hid : base.Later (.field id)) :
    base.SproutsFields added (tree.removeField id) where
  fields_size := h.fields_size.trans (size_removeField tree id).ge
  old x field hx := by
    obtain ⟨new, hn, hgrown⟩ := h.old x field hx
    have hne : id ≠ x := fun he ↦ not_later_of_live (live_of_some hx) (he ▸ hid)
    exact ⟨new, by rw [tree.field?_removeField_of_ne hne, hn], hgrown⟩
  live x hx hl := h.live x hx ((live_removeField tree id x).1 hl).2
  part x field hx hf := by
    by_cases hne : id = x
    · rw [hne, field?_removeField_self] at hf
      cases hf
    · rw [tree.field?_removeField_of_ne hne] at hf
      exact h.part x field hx hf
  listener x field hx hf := by
    by_cases hne : id = x
    · rw [hne, field?_removeField_self] at hf
      cases hf
    · rw [tree.field?_removeField_of_ne hne] at hf
      exact h.listener x field hx hf

theorem of_fields (h : base.SproutsFields added tree) (hadded : added'.elements = added.elements)
    (hfields : after.fields = tree.fields) : base.SproutsFields added' after := by
  have heq : after.field? = tree.field? := by
    unfold field?
    rw [hfields]
  have hlive : ∀ x, after.Live x ↔ tree.Live x := fun x ↦ by
    rw [Live, Live, heq]
  refine ⟨hfields ▸ h.fields_size, fun x field hx ↦ ?_, fun x hx hl ↦ h.live x hx ((hlive x).1 hl),
    fun x field hx hf ↦ h.part x field hx (heq ▸ hf),
    fun x field hx hf ↦ h.listener x field hx (heq ▸ hf)⟩
  obtain ⟨new, hn, hgrown⟩ := h.old x field hx
  exact ⟨new, heq ▸ hn, hgrown.frame, hadded ▸ hgrown.value, hgrown.active, hgrown.listeners⟩

end SproutsFields

/-! ## Changing nodes -/

namespace OutgrowsNode

theorem setListeners {old new : Node} (h : base.OutgrowsNode added node old new)
    {list : List FieldId} (hlist : base.Extends old.listeners list) :
    base.OutgrowsNode added node old { new with listeners := list } where
  frame := by
    rw [h.frame]
  children := h.children
  listeners := hlist

theorem setChildren {old new : Node} (h : base.OutgrowsNode added node old new)
    {list : List NodeId} (hlist : list = old.children ++ added'.children node) :
    base.OutgrowsNode added' node old { new with children := list } where
  frame := by
    rw [h.frame]
  children := hlist
  listeners := h.listeners

end OutgrowsNode

namespace SproutsNodes

theorem of_nodes (h : base.SproutsNodes added tree) (hadded : added'.children = added.children)
    (hnodes : after.nodes = tree.nodes) : base.SproutsNodes added' after := by
  have heq : after.node? = tree.node? := by
    unfold node?
    rw [hnodes]
  have hlive : ∀ x, after.LiveNode x ↔ tree.LiveNode x := fun x ↦ by
    rw [LiveNode, LiveNode, heq]
  refine ⟨hnodes ▸ h.nodes_size, fun x n hx ↦ ?_,
    fun x hx hl ↦ h.liveNode x hx ((hlive x).1 hl), fun x n hx hn ↦ h.top x n hx (heq ▸ hn),
    fun x n hx hn ↦ h.child x n hx (heq ▸ hn), fun x n hx hn ↦ h.nodeListener x n hx (heq ▸ hn)⟩
  obtain ⟨new, hn, hgrown⟩ := h.oldNode x n hx
  exact ⟨new, heq ▸ hn, hgrown.frame, hadded ▸ hgrown.children, hgrown.listeners⟩

theorem updateNode (h : base.SproutsNodes added tree) (node : NodeId) {f : Node → Node}
    (hadded : ∀ x, x ≠ node → added'.children x = added.children x)
    (hold : ∀ old new, base.node? node = some old → tree.node? node = some new →
      base.OutgrowsNode added node old new → base.OutgrowsNode added' node old (f new))
    (hnew : ∀ new, base.Later (.children node) → tree.node? node = some new →
      (∀ x ∈ (f new).fields, base.Later (.field x)) ∧
      (∀ x ∈ (f new).children, base.Later (.children x)) ∧
      ∀ x ∈ (f new).listeners, base.Later (.field x)) :
    base.SproutsNodes added' (tree.updateNode node f) := by
  have hlater : ∀ x n, base.Later (.children x) → (tree.updateNode node f).node? x = some n →
      (∀ y ∈ n.fields, base.Later (.field y)) ∧ (∀ y ∈ n.children, base.Later (.children y)) ∧
        ∀ y ∈ n.listeners, base.Later (.field y) := by
    intro x n hx hn
    rw [node?_updateNode] at hn
    split at hn
    · next hid =>
        subst hid
        obtain ⟨new, hnew', rfl⟩ := Option.map_eq_some_iff.1 hn
        exact hnew new hx hnew'
    · exact ⟨h.top x n hx hn, h.child x n hx hn, h.nodeListener x n hx hn⟩
  refine ⟨h.nodes_size.trans (size_updateNode tree node f).ge, fun x old hx ↦ ?_,
    fun x hx hl ↦ h.liveNode x hx ((liveNode_updateNode tree node f x).1 hl),
    fun x n hx hn ↦ (hlater x n hx hn).1, fun x n hx hn ↦ (hlater x n hx hn).2.1,
    fun x n hx hn ↦ (hlater x n hx hn).2.2⟩
  obtain ⟨new, hn, hgrown⟩ := h.oldNode x old hx
  rw [node?_updateNode, hn]
  by_cases hid : node = x
  · subst hid
    exact ⟨f new, by simp, hold old new hx hn hgrown⟩
  · refine ⟨new, if_neg hid, hgrown.frame, ?_, hgrown.listeners⟩
    rw [hadded x (Ne.symm hid)]
    exact hgrown.children

theorem mapListeners (h : base.SproutsNodes added tree) (source : Option Source)
    {f : List FieldId → List FieldId}
    (hf : ∀ old new, (∀ x ∈ old, base.Live x) → base.Extends old new → base.Extends old (f new))
    (hb : base.Mirrored) : base.SproutsNodes added (tree.mapListeners f source) := by
  rcases source with _ | id | node
  · exact h
  · exact h.of_nodes rfl (nodes_updateFields ..)
  · refine h.updateNode node (fun _ _ ↦ rfl) (fun old new ho _ hgrown ↦ ?_) fun new hnode hn ↦ ?_
    · refine hgrown.setListeners (hf _ _ (fun x hx ↦ ?_) hgrown.listeners)
      have hmem : x ∈ base.nodeListeners node := by
        rwa [nodeListeners, readNode_of_some ho]
      exact live_of_link?_eq_some ((hb.node_mem_iff node x (liveNode_of_some ho)).1 hmem)
    · refine ⟨h.top node new hnode hn, h.child node new hnode hn, fun x hx ↦ ?_⟩
      obtain ⟨more, hmore, hlater⟩ :=
        hf [] new.listeners (fun _ hx ↦ absurd hx List.not_mem_nil)
          ⟨_, rfl, h.nodeListener node new hnode hn⟩
      exact hlater x (by simpa [hmore] using hx)

theorem removeNode (h : base.SproutsNodes added tree) (hnode : base.Later (.children node)) :
    base.SproutsNodes added (tree.removeNode node) := by
  have hrest : ∀ x n, (tree.removeNode node).node? x = some n → tree.node? x = some n := by
    intro x n hn
    by_cases hid : node = x
    · rw [hid, node?_removeNode_self] at hn
      cases hn
    · rwa [tree.node?_removeNode_of_ne hid] at hn
  refine ⟨h.nodes_size.trans (size_removeNode tree node).ge, fun x old hx ↦ ?_,
    fun x hx hl ↦ h.liveNode x hx ((liveNode_removeNode tree node x).1 hl).2,
    fun x n hx hn ↦ h.top x n hx (hrest x n hn), fun x n hx hn ↦ h.child x n hx (hrest x n hn),
    fun x n hx hn ↦ h.nodeListener x n hx (hrest x n hn)⟩
  obtain ⟨new, hn, hgrown⟩ := h.oldNode x old hx
  have hne : node ≠ x := hnode.node_ne_of_lt (liveNode_of_some hx).lt_size
  exact ⟨new, by rw [tree.node?_removeNode_of_ne hne, hn], hgrown⟩

end SproutsNodes

/-! ## Steps of cascades -/

namespace Sprouts

theorem of_fields (h : base.Sprouts added tree) (hf : base.SproutsFields added after)
    (hnodes : after.nodes = tree.nodes) : base.Sprouts added after :=
  ⟨hf, h.toSproutsNodes.of_nodes rfl hnodes⟩

theorem refreshed (h : base.Sprouts added tree) : base.Sprouts added tree.refreshed :=
  h.of_fields (h.toSproutsFields.of_fields rfl rfl) rfl

theorem setActive (h : base.Sprouts added tree)
    (hid : base.Later (.field id) ∨ (base.inner? id).isSome = true ∧ base.Steered id)
    (active : Bool) : base.Sprouts added (tree.updateField id ({ · with active })) :=
  h.of_fields (h.toSproutsFields.setActive hid active) rfl

theorem insertField (h : base.Sprouts added tree) {field : Field}
    (hparts : ∀ x ∈ field.value.parts, base.Later (.field x)) (hlisteners : field.listeners = []) :
    base.Sprouts added (tree.insertField field) :=
  h.of_fields (h.toSproutsFields.insertField hparts hlisteners) rfl

section

variable (hb : base.Mirrored)

include hb

theorem mapListeners (h : base.Sprouts added tree) (source : Option Source)
    {f : List FieldId → List FieldId}
    (hf : ∀ old new, (∀ x ∈ old, base.Live x) → base.Extends old new → base.Extends old (f new)) :
    base.Sprouts added (tree.mapListeners f source) :=
  ⟨h.toSproutsFields.mapListeners source hf hb, h.toSproutsNodes.mapListeners source hf hb⟩

theorem quit (h : base.Sprouts added tree) (hid : base.Later (.field id)) :
    base.Sprouts added (tree.quit id) :=
  h.mapListeners hb _ fun _ _ hold hnew ↦ hnew.filter hold hid

/-- A new field may move to any source. -/
theorem relink (h : base.Sprouts added tree) (hid : base.Later (.field id))
    (source : Option Source) : base.Sprouts added (tree.relink id source) := by
  rw [relink_eq]
  have hmid : base.Sprouts added ((tree.quit id).mapListeners (· ++ [id]) source) :=
    (h.quit hb hid).mapListeners hb source fun _ _ _ hnew ↦ hnew.append hid
  refine hmid.of_fields (hmid.toSproutsFields.updateField id (fun _ _ ↦ rfl) ?_ ?_ ?_) rfl
  · exact fun old _ ho _ _ ↦ absurd hid (not_later_of_live (live_of_some ho))
  · exact fun new hid hn ↦ hmid.part id new hid hn
  · exact fun new hid hn ↦ hmid.listener id new hid hn

theorem retire (h : base.Sprouts added tree) (hid : base.Later (.field id)) :
    base.Sprouts added (tree.retire id) :=
  have hquit := h.quit hb hid
  hquit.of_fields (hquit.toSproutsFields.removeField hid) rfl

theorem releaseFieldWithin (fuel : Nat) (h : base.Sprouts added tree)
    (hid : base.Later (.field id)) : base.Sprouts added (releaseFieldWithin fuel tree id) := by
  induction fuel generalizing tree id with
  | zero => exact h
  | succ fuel ih =>
      by_cases hl : tree.Live id
      · rw [releaseFieldWithin_of_live hl]
        obtain ⟨field, hf⟩ := live_iff.1 hl
        have hparts : tree.parts id = field.value.parts := read_of_some hf _ _
        refine List.foldlRecOn (motive := base.Sprouts added) _ _ (h.retire hb hid) ?_
        exact fun mid hmid x hx ↦ ih hmid (h.part id field hid hf x (hparts ▸ hx))
      · rwa [releaseFieldWithin_of_not_live hl]

theorem releaseFields (h : base.Sprouts added tree) {ids : List FieldId}
    (hids : ∀ x ∈ ids, base.Later (.field x)) : base.Sprouts added (tree.releaseFields ids) :=
  List.foldlRecOn (motive := base.Sprouts added) _ _ h fun _ hmid x hx ↦
    hmid.releaseFieldWithin hb _ (hids x hx)

end

/-! ### Elements -/

/-- A list has got elements after those that it had at first. -/
theorem exists_elements (h : base.Sprouts added tree) {old : Field} (ho : base.field? id = some old)
    {elements : List (List FieldId)} (helements : old.value.elements? = some elements) :
    ∃ extra, tree.elements id = elements ++ extra ∧
      (∀ group ∈ extra, ∀ x ∈ group, base.Later (.field x)) ∧
      (¬(old.value.isLinked = true ∧ base.Steered id) → extra = added.elements id) := by
  obtain ⟨new, hn, hgrown⟩ := h.old id old ho
  obtain ⟨extra, hvalue, hextra, hasked⟩ := hgrown.value
  refine ⟨extra, elements_of_some hn ?_, hextra, hasked⟩
  rw [hvalue, Value.elements?_mapElements, helements, Option.map_some]

theorem later_of_mem_elements (h : base.Sprouts added tree) (hid : base.Later (.field id)) :
    ∀ group ∈ tree.elements id, ∀ x ∈ group, base.Later (.field x) := by
  intro group hgroup x hx
  have hparts : x ∈ tree.parts id := by
    rw [(parts_of_elements (List.ne_nil_of_mem hgroup)).1]
    exact List.mem_flatten_of_mem hgroup hx
  obtain ⟨field, hf⟩ := live_iff.1 (live_of_mem_parts hparts)
  rw [parts, read_of_some hf] at hparts
  exact h.part id field hid hf x hparts

/-- The elements after those that a list had at first may change. -/
theorem mapElements (h : base.Sprouts added tree) (id : FieldId)
    {f : List (List FieldId) → List (List FieldId)}
    (hadded : ∀ x, x ≠ id → added'.elements x = added.elements x)
    (hchildren : added'.children = added.children)
    (hold : ∀ old, base.field? id = some old → ∃ elements, old.value.elements? = some elements ∧
      ∀ extra, tree.elements id = elements ++ extra →
        (∀ group ∈ extra, ∀ x ∈ group, base.Later (.field x)) →
        (¬(old.value.isLinked = true ∧ base.Steered id) → extra = added.elements id) →
        ∃ extra', f (elements ++ extra) = elements ++ extra' ∧
          (∀ group ∈ extra', ∀ x ∈ group, base.Later (.field x)) ∧
          (¬(old.value.isLinked = true ∧ base.Steered id) → extra' = added'.elements id))
    (hnew : base.Later (.field id) → (∀ group ∈ tree.elements id, ∀ x ∈ group,
      base.Later (.field x)) → ∀ group ∈ f (tree.elements id), ∀ x ∈ group,
      base.Later (.field x)) :
    base.Sprouts added' (tree.updateField id fun field ↦
      { field with value := field.value.mapElements f }) where
  toSproutsFields := by
    refine h.toSproutsFields.updateField id hadded (fun old new ho hn hgrown ↦ ?_)
      (fun new hlater hn x hx ↦ ?_) (h.listener id)
    · obtain ⟨elements, helements, hstep⟩ := hold old ho
      obtain ⟨extra, hvalue, hextra, hasked⟩ := hgrown.value
      have hmid : new.value.elements? = some (elements ++ extra) := by
        rw [hvalue, Value.elements?_mapElements, helements, Option.map_some]
      obtain ⟨extra', hf, hextra', hasked'⟩ :=
        hstep extra (elements_of_some hn hmid) hextra hasked
      refine hgrown.setElements ?_ hextra' hasked'
      cases hv : old.value with
      | list linked template _ =>
          rw [hv] at helements hvalue
          cases Option.some.inj helements
          simp only [hvalue, Value.mapElements, hf]
      | scalar | choice | gated =>
          rw [hv] at helements
          cases helements
    · have hparts := h.part id new hlater hn
      cases hv : new.value with
      | list linked template elements =>
          have helements : tree.elements id = elements :=
            elements_of_some hn (by rw [hv]; rfl)
          simp only [hv, Value.mapElements, Value.parts, List.mem_flatten] at hx hparts
          obtain ⟨group, hgroup, hx⟩ := hx
          refine hnew hlater (fun g hg y hy ↦ ?_) group (helements ▸ hgroup) x hx
          exact hparts y ⟨g, helements ▸ hg, hy⟩
      | scalar | choice | gated =>
          simp only [hv, Value.mapElements] at hx hparts
          exact hparts x hx
  toSproutsNodes := h.toSproutsNodes.of_nodes hchildren rfl

/-- A new list, or one that follows a live source, may get an element of new fields. -/
theorem push (h : base.Sprouts added tree)
    (hid : base.Later (.field id) ∨ base.isLinked id = true ∧ base.Steered id)
    {group : List FieldId} (hgroup : ∀ x ∈ group, base.Later (.field x)) :
    base.Sprouts added (tree.push id group) := by
  refine h.mapElements id (fun _ _ ↦ rfl) rfl (fun old ho ↦ ?_) fun _ hlater g hg ↦ ?_
  · obtain ⟨hlinked, hsteered⟩ := hid.resolve_left (not_later_of_live (live_of_some ho))
    obtain ⟨template, elements, hv⟩ := list_of_isLinked hlinked ho
    refine ⟨elements, by rw [hv]; rfl, fun extra _ hextra _ ↦ ?_⟩
    refine ⟨extra ++ [group], List.append_assoc .., fun g hg ↦ ?_, fun hnot ↦ ?_⟩
    · rcases List.mem_append.1 hg with hg | hg
      · exact hextra g hg
      · exact List.mem_singleton.1 hg ▸ hgroup
    · exact absurd ⟨by rw [hv]; rfl, hsteered⟩ hnot
  · rcases List.mem_append.1 hg with hg | hg
    · exact hlater g hg
    · exact List.mem_singleton.1 hg ▸ hgroup

/-- A list that its user sets gets the element that was asked for. -/
theorem push_added (h : base.Sprouts .none tree) {field : Field}
    (hf : base.field? id = some field) {template : List FieldDecl}
    {elements : List (List FieldId)} (hv : field.value = .list false template elements)
    {group : List FieldId} (hgroup : ∀ x ∈ group, base.Later (.field x)) :
    base.Sprouts (.element id group) (tree.push id group) := by
  refine h.mapElements id (fun x hx ↦ if_neg hx) rfl (fun old ho ↦ ?_) fun hlater ↦ ?_
  · cases Option.some.inj (hf.symm.trans ho)
    refine ⟨elements, by rw [hv]; rfl, fun extra _ _ hasked ↦ ⟨[group], ?_, ?_, fun _ ↦ ?_⟩⟩
    · have hnone : extra = [] := hasked fun hlinked ↦ by simp [hv, Value.isLinked] at hlinked
      rw [hnone, List.append_nil]
    · exact List.forall_mem_singleton.2 hgroup
    · exact (if_pos rfl).symm
  · exact absurd hlater (not_later_of_live (live_of_some hf))

section

variable (hb : base.Mirrored)

include hb

/-- A new list, or one that has more elements than at first, may lose its last element. -/
theorem dropLast (h : base.Sprouts added tree) {elements : List (List FieldId)}
    (helements : tree.elements id = elements)
    (hid : base.Later (.field id) ∨ base.isLinked id = true ∧ base.Steered id ∧
      (base.elements id).length < elements.length) :
    base.Sprouts added (tree.drop id (·.dropLast) (elements.getLast?.getD [])) := by
  have hkept : base.Sprouts added (tree.updateField id fun field ↦
      { field with value := field.value.mapElements (·.dropLast) }) := by
    refine h.mapElements id (fun _ _ ↦ rfl) rfl (fun old ho ↦ ?_) fun _ hlater g hg ↦
      hlater g (List.mem_of_mem_dropLast hg)
    obtain ⟨hlinked, hsteered, hlength⟩ :=
      hid.resolve_left (not_later_of_live (live_of_some ho))
    obtain ⟨template, first, hv⟩ := list_of_isLinked hlinked ho
    refine ⟨first, by rw [hv]; rfl, fun extra hextra hlater _ ↦ ⟨extra.dropLast, ?_, ?_, ?_⟩⟩
    · have hne : extra ≠ [] := by
        rintro rfl
        rw [elements_of_some ho (by rw [hv]; rfl), ← helements, hextra] at hlength
        simp at hlength
      exact List.dropLast_append_of_ne_nil hne
    · exact fun g hg ↦ hlater g (List.mem_of_mem_dropLast hg)
    · exact fun hnot ↦ absurd ⟨by rw [hv]; rfl, hsteered⟩ hnot
  refine hkept.releaseFields hb fun x hx ↦ ?_
  obtain ⟨group, hlast, hx⟩ : ∃ group, elements.getLast? = some group ∧ x ∈ group := by
    cases hlast : elements.getLast? with
    | none => simp [hlast] at hx
    | some group => exact ⟨group, rfl, by simpa [hlast] using hx⟩
  rcases hid with hid | ⟨hlinked, hsteered, hlength⟩
  · exact h.later_of_mem_elements hid group (helements ▸ List.mem_of_getLast? hlast) x hx
  · obtain ⟨old, ho⟩ := live_iff.1 (live_of_isLinked hlinked)
    obtain ⟨template, first, hv⟩ := list_of_isLinked hlinked ho
    have hfirst : old.value.elements? = some first := by rw [hv]; rfl
    obtain ⟨extra, hextra, hlater, _⟩ := h.exists_elements ho hfirst
    rw [elements_of_some ho hfirst] at hlength
    rw [← helements, hextra] at hlast hlength
    have hne : extra ≠ [] := by
      rintro rfl
      simp at hlength
    rw [List.getLast?_append_of_ne_nil _ hne] at hlast
    exact hlater group (List.mem_of_getLast? hlast) x hx

/-- A list that its user sets may lose the element that was asked for. -/
theorem drop_added {group : List FieldId} (h : base.Sprouts (.element id group) tree)
    {field : Field} (hf : base.field? id = some field) {template : List FieldDecl}
    {elements : List (List FieldId)} (hv : field.value = .list false template elements)
    (hgroup : ∀ x ∈ group, base.Later (.field x)) :
    base.Sprouts .none (tree.drop id (·.eraseIdx elements.length) group) := by
  have hkept : base.Sprouts .none (tree.updateField id fun field ↦
      { field with value := field.value.mapElements (·.eraseIdx elements.length) }) := by
    refine h.mapElements id (fun x hx ↦ (if_neg hx).symm) rfl (fun old ho ↦ ?_) fun hlater ↦ ?_
    · cases Option.some.inj (hf.symm.trans ho)
      refine ⟨elements, by rw [hv]; rfl, fun extra _ _ hasked ↦ ⟨[], ?_, nofun, fun _ ↦ rfl⟩⟩
      have hone : extra = [group] :=
        (hasked fun hlinked ↦ by simp [hv, Value.isLinked] at hlinked).trans (if_pos rfl)
      simp [hone, List.eraseIdx_append_of_length_le]
    · exact absurd hlater (not_later_of_live (live_of_some hf))
  exact hkept.releaseFields hb hgroup

end

/-! ## Steps of requests for nodes -/

theorem updateNode_later (h : base.Sprouts added tree) (hnode : base.Later (.children node))
    {f : Node → Node} (hfields : ∀ n, ∀ x ∈ (f n).fields, x ∈ n.fields ∨ base.Later (.field x))
    (hchildren : ∀ n, (f n).children = n.children)
    (hlisteners : ∀ n, (f n).listeners = n.listeners) :
    base.Sprouts added (tree.updateNode node f) := by
  refine ⟨h.toSproutsFields.of_fields rfl rfl, h.toSproutsNodes.updateNode node (fun _ _ ↦ rfl)
    (fun old _ ho _ _ ↦ ?_) fun new _ hn ↦ ⟨fun x hx ↦ ?_, ?_, ?_⟩⟩
  · exact absurd hnode (Nat.not_le_of_lt (liveNode_of_some ho).lt_size)
  · exact (hfields new x hx).elim (h.top node new hnode hn x) id
  · rw [hchildren]
    exact h.child node new hnode hn
  · rw [hlisteners]
    exact h.nodeListener node new hnode hn

/-- A node that was there before gets a new one as its last child. -/
theorem adopt (h : base.Sprouts .none tree) {parent child : NodeId} (hp : base.LiveNode parent)
    (hc : base.Later (.children child)) : base.Sprouts (.child parent child)
      (tree.adopt parent child) := by
  have hparent : base.Sprouts (.child parent child) (tree.updateNode parent fun node ↦
      { node with children := node.children ++ [child] }) := by
    refine ⟨h.toSproutsFields.of_fields rfl rfl,
      h.toSproutsNodes.updateNode parent (fun x hx ↦ if_neg hx) (fun old new _ _ hgrown ↦ ?_)
        fun _ hlater _ ↦ absurd hlater (Nat.not_le_of_lt hp.lt_size)⟩
    refine hgrown.setChildren ?_
    rw [hgrown.children]
    simp [Additions.none, Additions.child]
  exact hparent.updateNode_later hc (fun _ _ hx ↦ .inl hx) (fun _ ↦ rfl) fun _ ↦ rfl

/-- The child that was asked for goes again. -/
theorem disown {parent child : NodeId} (h : base.Sprouts (.child parent child) tree)
    (hp : base.LiveNode parent) (hold : child ∉ base.children parent) :
    base.Sprouts .none (tree.disown parent child) := by
  refine ⟨h.toSproutsFields.of_fields rfl rfl,
    h.toSproutsNodes.updateNode parent (fun x hx ↦ (if_neg hx).symm) (fun old new ho _ hgrown ↦ ?_)
      fun _ hlater _ ↦ absurd hlater (Nat.not_le_of_lt hp.lt_size)⟩
  refine hgrown.setChildren ?_
  have hnot : child ∉ old.children := by
    rwa [children_eq_readNode, readNode_of_some ho] at hold
  rw [hgrown.children]
  simp [Additions.none, Additions.child, List.erase_append_right _ hnot]

theorem releaseNodeWithin (hb : base.Mirrored) (fuel : Nat) (h : base.Sprouts added tree)
    (hnode : base.Later (.children node)) :
    base.Sprouts added (releaseNodeWithin fuel tree node) := by
  induction fuel generalizing tree node with
  | zero => exact h
  | succ fuel ih =>
      by_cases hl : tree.LiveNode node
      · obtain ⟨n, hn⟩ := liveNode_iff.1 hl
        rw [releaseNodeWithin_of_live hn]
        have hremoved : base.Sprouts added (tree.removeNode node) :=
          ⟨h.toSproutsFields.of_fields rfl rfl, h.toSproutsNodes.removeNode hnode⟩
        exact (List.foldlRecOn (motive := base.Sprouts added) _ _ hremoved
          fun mid hmid c hc ↦ ih hmid (h.child node n hnode hn c hc)).releaseFields hb
          (h.top node n hnode hn)
      · rwa [releaseNodeWithin_of_not_live hl]

theorem releaseNode (hb : base.Mirrored) (h : base.Sprouts added tree)
    (hnode : base.Later (.children node)) : base.Sprouts added (tree.releaseNode node) :=
  h.releaseNodeWithin hb _ hnode

/-- What is sealed off from a tree has sprouted from it. -/
theorem of_annexed (hb : base.Ordered) (h : base.Annexed tree) : base.Sprouts .none tree where
  fields_size := h.fields_size
  nodes_size := h.nodes_size
  old id field hf := by
    refine ⟨field, ?_, .refl base id field⟩
    rw [h.field id (live_of_some hf).lt_size, hf]
  live id hid hl := by
    rwa [Live, h.field id hid] at hl
  part id field hid hf x hx := by
    refine h.part id x hid ?_
    rwa [parts, read_of_some hf]
  listener id field hid hf x hx := by
    refine (h.governs hb).listeners id x hid ?_
    rwa [listeners_eq_read, read_of_some hf]
  oldNode id node hn := by
    refine ⟨node, ?_, rfl, (List.append_nil _).symm, .refl base _⟩
    rw [h.node id (liveNode_of_some hn).lt_size, hn]
  liveNode id hid hl := by
    rwa [LiveNode, h.node id hid] at hl
  top id node hid hn x hx := by
    refine h.top id x hid ?_
    rwa [topFields_eq_readNode, readNode_of_some hn]
  child id node hid hn x hx := by
    refine h.child id x hid ?_
    rwa [children_eq_readNode, readNode_of_some hn]
  nodeListener id node hid hn x hx := by
    refine h.later_of_mem_nodeListeners hb hid ?_
    rwa [nodeListeners, readNode_of_some hn]

/-! ## What is the same -/

variable {α : Type}

theorem live_old (h : base.Sprouts added tree) (hid : base.Live id) : tree.Live id := by
  obtain ⟨old, ho⟩ := live_iff.1 hid
  obtain ⟨new, hn, _⟩ := h.old id old ho
  exact live_of_some hn

theorem read_eq (h : base.Sprouts added tree) {part : Field → α}
    (hpart : ∀ (field : Field) value active listeners,
      part { field with value, active, listeners } = part field)
    (hid : base.Live id) (default : α) :
    tree.read part default id = base.read part default id := by
  obtain ⟨old, ho⟩ := live_iff.1 hid
  obtain ⟨new, hn, hgrown⟩ := h.old id old ho
  rw [read_of_some hn, read_of_some ho, hgrown.frame, hpart]

theorem link?_eq (h : base.Sprouts added tree) (hid : base.Live id) :
    tree.link? id = base.link? id :=
  h.read_eq (fun _ _ _ _ ↦ rfl) hid _

/-- What does not depend on the elements of a list is the same of its value. -/
theorem readValue_eq (h : base.Sprouts added tree) {part : Value → α}
    (hpart : ∀ value f, part (Value.mapElements f value) = part value) (hid : base.Live id)
    (default : α) :
    tree.read (fun field ↦ part field.value) default id =
      base.read (fun field ↦ part field.value) default id := by
  obtain ⟨old, ho⟩ := live_iff.1 hid
  obtain ⟨new, hn, hgrown⟩ := h.old id old ho
  obtain ⟨extra, hvalue, _⟩ := hgrown.value
  rw [read_of_some hn, read_of_some ho, hvalue, hpart]

theorem inner?_eq (h : base.Sprouts added tree) (hid : base.Live id) :
    tree.inner? id = base.inner? id := by
  rw [inner?_eq_read, inner?_eq_read]
  exact h.readValue_eq (fun value _ ↦ by cases value <;> rfl) hid _

theorem isLinked_eq (h : base.Sprouts added tree) (hid : base.Live id) :
    tree.isLinked id = base.isLinked id :=
  h.readValue_eq (fun value _ ↦ by cases value <;> rfl) hid _

theorem children_eq (h : base.Sprouts added tree) (hnode : base.LiveNode node) :
    tree.children node = base.children node ++ added.children node := by
  obtain ⟨old, ho⟩ := liveNode_iff.1 hnode
  obtain ⟨new, hn, hgrown⟩ := h.oldNode node old ho
  rw [children_eq_readNode, children_eq_readNode, readNode_of_some hn, readNode_of_some ho,
    hgrown.children]

/-- The layers of what was there before are the same. -/
theorem layers_eq (h : base.Sprouts added tree) (hb : base.Sound) (hid : base.Live id) :
    tree.layers id = base.layers id := by
  have hwithin : ∀ x ∈ base.layers id, base.Live x := fun x hx ↦
    hb.owned.wraps_live ((mem_layers_iff hb.ordered.innerOlder).1 hx) hid
  exact chain_congr h.fields_size (fun x hx ↦ h.inner?_eq (hwithin x hx))
    (inner?_unwrap hb.ordered id)

theorem unwrap_eq (h : base.Sprouts added tree) (hb : base.Sound) (hid : base.Live id) :
    tree.unwrap id = base.unwrap id := by
  simp only [unwrap, h.layers_eq hb hid]

/-- The length of a source does not fall below what it was at first. -/
theorem sourceLength_le (h : base.Sprouts added tree) (hb : base.Sound) {source : Source}
    (hs : base.SourceLive source) : base.sourceLength source ≤ tree.sourceLength source := by
  cases source with
  | children node =>
      rw [sourceLength, sourceLength, h.children_eq hs, List.length_append]
      exact Nat.le_add_right _ _
  | field s =>
      have hlive : base.Live (base.unwrap s) := hb.owned.wraps_live (wraps_unwrap base s) hs
      obtain ⟨old, ho⟩ := live_iff.1 hlive
      rw [sourceLength, sourceLength, listLength_eq, listLength_eq, h.unwrap_eq hb hs]
      cases helements : old.value.elements? with
      | none => rw [elements, read_of_some ho, helements]; exact Nat.zero_le _
      | some elements =>
          obtain ⟨extra, hextra, _⟩ := h.exists_elements ho helements
          rw [hextra, elements_of_some ho helements, List.length_append]
          exact Nat.le_add_right _ _

/-- Whatever listens to a source in the tree is new, or it listened to it at first and its source is
alive there. -/
theorem steered_of_mem_listeners (h : base.Sprouts added tree) (hb : base.Mirrored) {d : FieldId}
    (hd : d ∈ tree.listeners id) : base.Later (.field d) ∨ base.Steered d := by
  obtain ⟨new, hn⟩ := live_iff.1 (live_of_mem_listeners hd)
  rw [listeners_eq_read, read_of_some hn] at hd
  by_cases hid : base.Later (.field id)
  · exact .inl (h.listener id new hid hn d hd)
  · have hlive := h.live id (Nat.lt_of_not_le hid) (live_of_some hn)
    obtain ⟨old, ho⟩ := live_iff.1 hlive
    obtain ⟨new', hn', hgrown⟩ := h.old id old ho
    cases Option.some.inj (hn.symm.trans hn')
    obtain ⟨more, hmore, hlater⟩ := hgrown.listeners
    rw [hmore] at hd
    rcases List.mem_append.1 hd with hd | hd
    · right
      apply hb.steered_of_mem_listeners
      rwa [listeners_eq_read, read_of_some ho]
    · exact .inl (hlater d hd)

theorem steered_of_mem_nodeListeners (h : base.Sprouts added tree) (hb : base.Mirrored)
    {d : FieldId} (hd : d ∈ tree.nodeListeners node) : base.Later (.field d) ∨ base.Steered d := by
  obtain ⟨new, hn⟩ := liveNode_iff.1 (liveNode_of_readNode_ne (List.ne_nil_of_mem hd))
  rw [nodeListeners, readNode_of_some hn] at hd
  by_cases hnode : base.Later (.children node)
  · exact .inl (h.nodeListener node new hnode hn d hd)
  · have hlive := h.liveNode node (Nat.lt_of_not_le hnode) (liveNode_of_some hn)
    obtain ⟨old, ho⟩ := liveNode_iff.1 hlive
    obtain ⟨new', hn', hgrown⟩ := h.oldNode node old ho
    cases Option.some.inj (hn.symm.trans hn')
    obtain ⟨more, hmore, hlater⟩ := hgrown.listeners
    rw [hmore] at hd
    rcases List.mem_append.1 hd with hd | hd
    · have hmem : d ∈ base.nodeListeners node := by
        rwa [nodeListeners, readNode_of_some ho]
      exact .inr ⟨.children node, (hb.node_mem_iff node d hlive).1 hmem, hlive⟩
    · exact .inl (hlater d hd)

end Sprouts

end Tree

end LightTree
