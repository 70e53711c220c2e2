import LightTree.Proofs.Layers

/-!
# Subscriptions mirror links

A field follows the layers of its source, and a tree is mirrored if the listeners of a live field
are exactly its followers, each of them once, and likewise for the children of a live node. A tree
is attended if this holds in one direction: whoever listens follows. A link to what has not been
handed out yet leaves a tree attended. Subscribing, unsubscribing and moving a link are described by
what they do to either side.
-/

namespace LightTree

open Relation

namespace Tree

/-- A source is a field that is, or wraps, the given one. -/
def Covers (tree : Tree) (source : Option Source) (id : FieldId) : Prop :=
  ∃ s, source = some (.field s) ∧ ReflTransGen tree.Wraps s id

/-- The link of the first field leads to the second one or to a field that wraps it. -/
def Follows (tree : Tree) (dependent id : FieldId) : Prop :=
  tree.Covers (tree.link? dependent) id

/-- Whoever listens follows, and listens once, but for the listeners of the fields in `out`. -/
structure AttendedOutside (out : FieldId → Prop) (tree : Tree) : Prop where
  nodup : ∀ id, ¬out id → (tree.listeners id).Nodup
  follows : ∀ id dependent, ¬out id → dependent ∈ tree.listeners id → tree.Follows dependent id
  node_nodup : ∀ id, (tree.nodeListeners id).Nodup
  node_linked : ∀ id dependent, dependent ∈ tree.nodeListeners id →
    tree.link? dependent = some (.children id)

def Attended (tree : Tree) : Prop :=
  tree.AttendedOutside fun _ ↦ False

/-- The subscriptions mirror the links, but for the listeners of the fields in `out`. -/
structure MirroredOutside (out : FieldId → Prop) (tree : Tree) : Prop where
  nodup : ∀ id, ¬out id → (tree.listeners id).Nodup
  mem_iff : ∀ id dependent, ¬out id → tree.Live id →
    (dependent ∈ tree.listeners id ↔ tree.Follows dependent id)
  node_nodup : ∀ id, (tree.nodeListeners id).Nodup
  node_mem_iff : ∀ id dependent, tree.LiveNode id →
    (dependent ∈ tree.nodeListeners id ↔ tree.link? dependent = some (.children id))

def Mirrored (tree : Tree) : Prop :=
  tree.MirroredOutside fun _ ↦ False

variable {α : Type} {tree : Tree}

theorem MirroredOutside.mono {out out' : FieldId → Prop} (h : tree.MirroredOutside out)
    (hout : ∀ id, out id → out' id) : tree.MirroredOutside out' where
  nodup id hid := h.nodup id fun ho ↦ hid (hout id ho)
  mem_iff id dependent hid := h.mem_iff id dependent fun ho ↦ hid (hout id ho)
  node_nodup := h.node_nodup
  node_mem_iff := h.node_mem_iff

theorem AttendedOutside.mono {out out' : FieldId → Prop} (h : tree.AttendedOutside out)
    (hout : ∀ id, out id → out' id) : tree.AttendedOutside out' where
  nodup id hid := h.nodup id fun ho ↦ hid (hout id ho)
  follows id dependent hid := h.follows id dependent fun ho ↦ hid (hout id ho)
  node_nodup := h.node_nodup
  node_linked := h.node_linked

theorem MirroredOutside.attended {out : FieldId → Prop} (h : tree.MirroredOutside out) :
    tree.AttendedOutside out where
  nodup := h.nodup
  follows id dependent hid hd := (h.mem_iff id dependent hid (live_of_mem_listeners hd)).1 hd
  node_nodup := h.node_nodup
  node_linked id dependent hd := (h.node_mem_iff id dependent
    (liveNode_of_readNode_ne (List.ne_nil_of_mem hd))).1 hd

theorem live_of_follows {dependent id : FieldId} (h : tree.Follows dependent id) :
    tree.Live dependent := by
  obtain ⟨s, hs, _⟩ := h
  exact live_of_link?_eq_some hs

theorem Mirrored.mem_iff (h : tree.Mirrored) {id dependent : FieldId} (hid : tree.Live id) :
    dependent ∈ tree.listeners id ↔ tree.Follows dependent id :=
  MirroredOutside.mem_iff h id dependent not_false hid

theorem Mirrored.live_of_mem (h : tree.Mirrored) {id dependent : FieldId}
    (hd : dependent ∈ tree.listeners id) : tree.Live dependent :=
  live_of_follows ((h.mem_iff (live_of_mem_listeners hd)).1 hd)

/-! ## Changing the listeners of a source -/

/-- Changes the listeners of a source: those of a node, or those of all layers of a field. -/
def mapListeners (tree : Tree) (f : List FieldId → List FieldId) : Option Source → Tree
  | none => tree
  | some (.children id) => tree.updateNode id fun node ↦ { node with listeners := f node.listeners }
  | some (.field id) =>
    tree.updateFields (tree.layers id) fun field ↦ { field with listeners := f field.listeners }

theorem withSource_subscribe (tree : Tree) (dependent : FieldId) (source : Option Source) :
    tree.withSource source (·.subscribe dependent) =
      tree.mapListeners (· ++ [dependent]) source := by
  rcases source with _ | _ | _ <;> rfl

theorem withSource_unsubscribe (tree : Tree) (dependent : FieldId) (source : Option Source) :
    tree.withSource source (·.unsubscribe dependent) =
      tree.mapListeners (List.filter (· ≠ dependent)) source := by
  rcases source with _ | _ | _ <;> rfl

section

variable (f : List FieldId → List FieldId) (source : Option Source)

theorem read_mapListeners {part : Field → α}
    (hpart : ∀ field list, part { field with listeners := list } = part field) (default : α) :
    (tree.mapListeners f source).read part default = tree.read part default := by
  rcases source with _ | id | id
  · rfl
  · exact read_updateFields_of_keeps (fun field ↦ hpart field _) _ _
  · rfl

theorem readNode_mapListeners {part : Node → α}
    (hpart : ∀ node list, part { node with listeners := list } = part node) (default : α) :
    (tree.mapListeners f source).readNode part default = tree.readNode part default := by
  rcases source with _ | id | id
  · rfl
  · funext j
    simp [mapListeners, readNode]
  · exact readNode_updateNode_of_keeps (fun node ↦ hpart node _) _ _

@[simp] theorem live_mapListeners (id : FieldId) :
    (tree.mapListeners f source).Live id ↔ tree.Live id := by
  rcases source with _ | s | s
  · rfl
  · exact live_updateFields _ _ _ _
  · rfl

@[simp] theorem liveNode_mapListeners (id : NodeId) :
    (tree.mapListeners f source).LiveNode id ↔ tree.LiveNode id := by
  rcases source with _ | s | s
  · rfl
  · simp [mapListeners, LiveNode]
  · exact liveNode_updateNode _ _ _ _

@[simp] theorem fields_size_mapListeners :
    (tree.mapListeners f source).fields.size = tree.fields.size := by
  rcases source with _ | s | s
  · rfl
  · exact size_updateFields _ _ _
  · rfl

@[simp] theorem nodes_size_mapListeners :
    (tree.mapListeners f source).nodes.size = tree.nodes.size := by
  rcases source with _ | s | s
  · rfl
  · simp [mapListeners]
  · exact size_updateNode _ _ _

theorem link?_mapListeners : (tree.mapListeners f source).link? = tree.link? :=
  read_mapListeners f source (fun _ _ ↦ rfl) none

theorem wraps_mapListeners : (tree.mapListeners f source).Wraps = tree.Wraps := by
  funext a b
  unfold Wraps
  rw [inner?_eq_read, inner?_eq_read, read_mapListeners f source fun _ _ ↦ rfl]

variable {f source}

theorem listeners_mapListeners_of_covers (h : tree.InnerOlder) {id : FieldId}
    (hc : tree.Covers source id) (hl : tree.Live id) :
    (tree.mapListeners f source).listeners id = f (tree.listeners id) := by
  obtain ⟨s, rfl, hs⟩ := hc
  obtain ⟨field, hf⟩ := live_iff.1 hl
  simp [mapListeners, listeners, field?_updateFields (nodup_layers h s), mem_layers_iff h, hs, hf]

theorem listeners_mapListeners_of_not_covers (h : tree.InnerOlder) {id : FieldId}
    (hc : ¬tree.Covers source id) :
    (tree.mapListeners f source).listeners id = tree.listeners id := by
  rcases source with _ | s | s
  · rfl
  · have hs : id ∉ tree.layers s := fun hs ↦ hc ⟨s, rfl, (mem_layers_iff h).1 hs⟩
    simp [mapListeners, listeners, field?_updateFields (nodup_layers h s), hs]
  · rfl

theorem nodeListeners_mapListeners_self {id : NodeId} (hl : tree.LiveNode id) :
    (tree.mapListeners f (some (.children id))).nodeListeners id = f (tree.nodeListeners id) := by
  obtain ⟨node, hn⟩ := liveNode_iff.1 hl
  simp [mapListeners, nodeListeners, readNode, node?_updateNode, hn]

theorem nodeListeners_mapListeners_of_ne {id : NodeId} (hs : source ≠ some (.children id)) :
    (tree.mapListeners f source).nodeListeners id = tree.nodeListeners id := by
  rcases source with _ | s | s
  · rfl
  · simp [mapListeners, nodeListeners, readNode]
  · have hne : s ≠ id := fun he ↦ hs (he ▸ rfl)
    exact readNode_updateNode_of_ne hne []

end

/-! ## Leaving a source -/

/-- Takes a field from the listeners of the source it has. -/
def quit (tree : Tree) (dependent : FieldId) : Tree :=
  tree.mapListeners (List.filter (· ≠ dependent)) (tree.link? dependent)

theorem mem_listeners_quit (h : tree.InnerOlder) {dependent id d : FieldId} (hl : tree.Live id) :
    d ∈ (tree.quit dependent).listeners id ↔
      d ∈ tree.listeners id ∧ ¬(d = dependent ∧ tree.Follows dependent id) := by
  unfold quit
  by_cases hc : tree.Covers (tree.link? dependent) id
  · rw [listeners_mapListeners_of_covers h hc hl]
    have hf : tree.Follows dependent id := hc
    simp [hf]
  · rw [listeners_mapListeners_of_not_covers h hc]
    have hf : ¬tree.Follows dependent id := hc
    simp [hf]

theorem nodup_listeners_quit (h : tree.InnerOlder) (dependent : FieldId) {id : FieldId}
    (hn : (tree.listeners id).Nodup) : ((tree.quit dependent).listeners id).Nodup := by
  unfold quit
  by_cases hc : tree.Covers (tree.link? dependent) id
  · by_cases hl : tree.Live id
    · rw [listeners_mapListeners_of_covers h hc hl]
      exact hn.filter _
    · have hdead : ¬(tree.mapListeners (List.filter (· ≠ dependent))
          (tree.link? dependent)).Live id := by simpa using hl
      rw [listeners_eq_read, read_of_none (not_live_iff.1 hdead)]
      exact List.nodup_nil
  · rwa [listeners_mapListeners_of_not_covers h hc]

theorem InnerOlder.quit (h : tree.InnerOlder) (dependent : FieldId) :
    (tree.quit dependent).InnerOlder := by
  unfold InnerOlder Tree.quit
  rw [inner?_eq_read, read_mapListeners _ _ fun _ _ ↦ rfl, ← inner?_eq_read]
  exact h

theorem mem_nodeListeners_quit {dependent d : FieldId} {id : NodeId} (hl : tree.LiveNode id) :
    d ∈ (tree.quit dependent).nodeListeners id ↔
      d ∈ tree.nodeListeners id ∧
        ¬(d = dependent ∧ tree.link? dependent = some (.children id)) := by
  unfold quit
  by_cases hs : tree.link? dependent = some (.children id)
  · rw [hs, nodeListeners_mapListeners_self hl]
    simp
  · rw [nodeListeners_mapListeners_of_ne hs]
    simp [hs]

theorem nodup_nodeListeners_quit (dependent : FieldId) {id : NodeId}
    (hn : (tree.nodeListeners id).Nodup) : ((tree.quit dependent).nodeListeners id).Nodup := by
  unfold quit
  by_cases hs : tree.link? dependent = some (.children id)
  · by_cases hl : tree.LiveNode id
    · rw [hs, nodeListeners_mapListeners_self hl]
      exact hn.filter _
    · have hdead : ¬(tree.mapListeners (List.filter (· ≠ dependent))
          (tree.link? dependent)).LiveNode id := by simpa using hl
      rw [nodeListeners, readNode_of_none (not_liveNode_iff.1 hdead)]
      exact List.nodup_nil
  · rwa [nodeListeners_mapListeners_of_ne hs]

/-! ## Moving a link -/

theorem relink_eq (tree : Tree) (dependent : FieldId) (source : Option Source) :
    tree.relink dependent source =
      ((tree.quit dependent).mapListeners (· ++ [dependent]) source).updateField dependent
        ({ · with link := source }) := by
  have hlink : (tree.field? dependent).bind (·.link) = tree.link? dependent := by
    unfold link? read
    cases tree.field? dependent <;> rfl
  simp only [relink, quit, hlink, withSource_unsubscribe, withSource_subscribe]

section

variable (dependent : FieldId) (source : Option Source)

theorem read_relink {part : Field → α}
    (hpart : ∀ field list link, part { field with listeners := list, link := link } = part field)
    (default : α) : (tree.relink dependent source).read part default = tree.read part default := by
  rw [relink_eq, read_updateField_of_keeps (fun field ↦ hpart field _ _), quit,
    read_mapListeners _ _ fun field list ↦ hpart field list _,
    read_mapListeners _ _ fun field list ↦ hpart field list _]

theorem readNode_relink {part : Node → α}
    (hpart : ∀ node list, part { node with listeners := list } = part node) (default : α) :
    (tree.relink dependent source).readNode part default = tree.readNode part default := by
  rw [relink_eq]
  show ((tree.quit dependent).mapListeners _ source).readNode part default = _
  rw [quit, readNode_mapListeners _ _ hpart, readNode_mapListeners _ _ hpart]

@[simp] theorem live_relink (id : FieldId) :
    (tree.relink dependent source).Live id ↔ tree.Live id := by
  simp [relink_eq, quit]

@[simp] theorem liveNode_relink (id : NodeId) :
    (tree.relink dependent source).LiveNode id ↔ tree.LiveNode id := by
  rw [relink_eq]
  show ((tree.quit dependent).mapListeners _ source).LiveNode id ↔ _
  simp [quit]

@[simp] theorem fields_size_relink :
    (tree.relink dependent source).fields.size = tree.fields.size := by
  simp [relink_eq, quit]

@[simp] theorem nodes_size_relink :
    (tree.relink dependent source).nodes.size = tree.nodes.size := by
  simp [relink_eq, quit]

theorem inner?_relink : (tree.relink dependent source).inner? = tree.inner? := by
  rw [inner?_eq_read, inner?_eq_read, read_relink dependent source fun _ _ _ ↦ rfl]

theorem container?_relink : (tree.relink dependent source).container? = tree.container? := by
  rw [container?_eq_read, container?_eq_read, read_relink dependent source fun _ _ _ ↦ rfl]

theorem wraps_relink : (tree.relink dependent source).Wraps = tree.Wraps := by
  funext a b
  unfold Wraps
  rw [inner?_relink]

variable {dependent}

theorem link?_relink (hl : tree.Live dependent) (d : FieldId) :
    (tree.relink dependent source).link? d = if d = dependent then source else tree.link? d := by
  rw [relink_eq]
  by_cases hd : d = dependent
  · subst hd
    have hl' : ((tree.quit d).mapListeners (· ++ [d]) source).Live d := by simpa [quit] using hl
    obtain ⟨field, hf⟩ := live_iff.1 hl'
    simp [link?, read, field?_updateField, hf]
  · rw [link?, read_updateField_of_ne (Ne.symm hd), if_neg hd]
    show ((tree.quit dependent).mapListeners _ source).link? d = _
    rw [link?_mapListeners, quit, link?_mapListeners]

end

theorem Ordered.relink (h : tree.Ordered) {dependent : FieldId} {source : Option Source}
    (hl : tree.Live dependent) (hs : ∀ s, source = some s → tree.Issued s) :
    (tree.relink dependent source).Ordered where
  inner_lt := by
    rw [inner?_relink]
    exact h.inner_lt
  container_lt := by
    rw [container?_relink]
    exact h.container_lt
  link_issued a s ha := by
    rw [link?_relink source hl] at ha
    split at ha
    · exact (hs s ha).mono (by simp) (by simp)
    · exact (h.link_issued a s ha).mono (by simp) (by simp)
  owner_issued a node ha := by
    rw [owner?, read_relink dependent source fun _ _ _ ↦ rfl] at ha
    simpa using h.owner_issued a node ha

theorem mem_listeners_relink (h : tree.InnerOlder) {dependent id d : FieldId}
    {source : Option Source} (hl : tree.Live id) :
    d ∈ (tree.relink dependent source).listeners id ↔
      (d ∈ tree.listeners id ∧ ¬(d = dependent ∧ tree.Follows dependent id)) ∨
        (d = dependent ∧ tree.Covers source id) := by
  have hq : (tree.quit dependent).Live id := by simpa [quit] using hl
  have hw : (tree.quit dependent).Wraps = tree.Wraps := by rw [quit, wraps_mapListeners]
  rw [relink_eq, listeners_updateField (f := ({ · with link := source })) fun _ ↦ rfl,
    ← mem_listeners_quit h hl]
  by_cases hc : tree.Covers source id
  · have hc' : (tree.quit dependent).Covers source id := by rwa [Covers, hw]
    rw [listeners_mapListeners_of_covers (h.quit dependent) hc' hq]
    simp [hc]
  · have hc' : ¬(tree.quit dependent).Covers source id := by rwa [Covers, hw]
    rw [listeners_mapListeners_of_not_covers (h.quit dependent) hc']
    simp [hc]

theorem mem_nodeListeners_relink {dependent d : FieldId} {id : NodeId} {source : Option Source}
    (hl : tree.LiveNode id) :
    d ∈ (tree.relink dependent source).nodeListeners id ↔
      (d ∈ tree.nodeListeners id ∧ ¬(d = dependent ∧ tree.link? dependent = some (.children id))) ∨
        (d = dependent ∧ source = some (.children id)) := by
  have hq : (tree.quit dependent).LiveNode id := by simpa [quit] using hl
  rw [relink_eq, ← mem_nodeListeners_quit hl]
  show d ∈ ((tree.quit dependent).mapListeners _ source).nodeListeners id ↔ _
  by_cases hs : source = some (.children id)
  · rw [hs, nodeListeners_mapListeners_self hq]
    simp
  · rw [nodeListeners_mapListeners_of_ne hs]
    simp [hs]

theorem follows_relink {dependent d id : FieldId} {source : Option Source}
    (hl : tree.Live dependent) : (tree.relink dependent source).Follows d id ↔
      if d = dependent then tree.Covers source id else tree.Follows d id := by
  unfold Follows Covers
  rw [link?_relink source hl, wraps_relink]
  split <;> rfl

theorem Attended.relink (ho : tree.InnerOlder) (h : tree.Attended) {dependent : FieldId}
    (hl : tree.Live dependent) (source : Option Source) :
    (tree.relink dependent source).Attended where
  nodup id _ := by
    rw [relink_eq, listeners_updateField (f := ({ · with link := source })) fun _ ↦ rfl]
    have hn := nodup_listeners_quit ho dependent (h.nodup id not_false)
    by_cases hid : (tree.quit dependent).Live id
    · by_cases hc : (tree.quit dependent).Covers source id
      · rw [listeners_mapListeners_of_covers (ho.quit dependent) hc hid]
        have hid' : tree.Live id := by simpa [Tree.quit] using hid
        have hmem : dependent ∉ (tree.quit dependent).listeners id := by
          rw [mem_listeners_quit ho hid']
          exact fun ⟨hf, hnf⟩ ↦ hnf ⟨rfl, h.follows id dependent not_false hf⟩
        simpa [List.nodup_append] using ⟨hn, fun d hd he ↦ hmem (he ▸ hd)⟩
      · rwa [listeners_mapListeners_of_not_covers (ho.quit dependent) hc]
    · have hdead : ¬((tree.quit dependent).mapListeners (· ++ [dependent]) source).Live id := by
        simpa using hid
      rw [listeners_eq_read, read_of_none (not_live_iff.1 hdead)]
      exact List.nodup_nil
  follows id d _ hd := by
    have hid : tree.Live id := (live_relink dependent source id).1 (live_of_mem_listeners hd)
    rw [follows_relink hl]
    rcases (mem_listeners_relink ho hid).1 hd with ⟨hold, hne⟩ | ⟨rfl, hc⟩
    · have hf := h.follows id d not_false hold
      rwa [if_neg fun he ↦ hne ⟨he, he ▸ hf⟩]
    · rwa [if_pos rfl]
  node_nodup id := by
    rw [relink_eq]
    show (((tree.quit dependent).mapListeners _ source).nodeListeners id).Nodup
    have hn := nodup_nodeListeners_quit dependent (h.node_nodup id)
    by_cases hs : source = some (.children id)
    · by_cases hid : (tree.quit dependent).LiveNode id
      · rw [hs, nodeListeners_mapListeners_self hid]
        have hid' : tree.LiveNode id := by simpa [Tree.quit] using hid
        have hmem : dependent ∉ (tree.quit dependent).nodeListeners id := by
          rw [mem_nodeListeners_quit hid']
          exact fun ⟨hf, hnf⟩ ↦ hnf ⟨rfl, h.node_linked id dependent hf⟩
        simpa [List.nodup_append] using ⟨hn, fun d hd he ↦ hmem (he ▸ hd)⟩
      · have hdead :
            ¬((tree.quit dependent).mapListeners (· ++ [dependent]) source).LiveNode id := by
          simpa using hid
        rw [nodeListeners, readNode_of_none (not_liveNode_iff.1 hdead)]
        exact List.nodup_nil
    · rwa [nodeListeners_mapListeners_of_ne hs]
  node_linked id d hd := by
    have hid : tree.LiveNode id := (liveNode_relink dependent source id).1
      (liveNode_of_readNode_ne (List.ne_nil_of_mem hd))
    rw [link?_relink source hl]
    rcases (mem_nodeListeners_relink hid).1 hd with ⟨hold, hne⟩ | ⟨rfl, hs⟩
    · have hlink := h.node_linked id d hold
      rwa [if_neg fun he ↦ hne ⟨he, he ▸ hlink⟩]
    · rwa [if_pos rfl]

theorem Mirrored.relink (ho : tree.Ordered) (h : tree.Mirrored) {dependent : FieldId}
    (hl : tree.Live dependent) (source : Option Source) :
    (tree.relink dependent source).Mirrored where
  nodup := (Attended.relink ho.innerOlder h.attended hl source).nodup
  mem_iff id d _ hid := by
    have hid' : tree.Live id := by simpa using hid
    rw [mem_listeners_relink ho.innerOlder hid', h.mem_iff hid', follows_relink hl]
    by_cases hd : d = dependent
    · subst hd
      simp
    · simp [hd]
  node_nodup := (Attended.relink ho.innerOlder h.attended hl source).node_nodup
  node_mem_iff id d hid := by
    have hid' : tree.LiveNode id := by simpa using hid
    rw [mem_nodeListeners_relink hid', h.node_mem_iff id d hid', link?_relink source hl]
    by_cases hd : d = dependent
    · subst hd
      simp
    · simp [hd]

/-! ## Other changes -/

theorem Attended.congr {after : Tree} (h : tree.Attended)
    (hlisteners : after.listeners = tree.listeners) (hlink : after.link? = tree.link?)
    (hwraps : after.Wraps = tree.Wraps) (hnode : after.nodeListeners = tree.nodeListeners) :
    after.Attended := by
  refine ⟨?_, ?_, ?_, ?_⟩
  · rw [hlisteners]
    exact h.nodup
  · intro id d ho hd
    rw [Follows, Covers, hlink, hwraps]
    exact h.follows id d ho (hlisteners ▸ hd)
  · rw [hnode]
    exact h.node_nodup
  · rw [hnode, hlink]
    exact h.node_linked

theorem Mirrored.congr {after : Tree} (h : tree.Mirrored)
    (hlive : ∀ id, after.Live id ↔ tree.Live id)
    (hlisteners : after.listeners = tree.listeners) (hlink : after.link? = tree.link?)
    (hwraps : after.Wraps = tree.Wraps)
    (hliveNode : ∀ id, after.LiveNode id → tree.LiveNode id)
    (hnode : ∀ id, after.LiveNode id → after.nodeListeners id = tree.nodeListeners id) :
    after.Mirrored where
  nodup id := by
    rw [hlisteners]
    exact h.nodup id
  mem_iff id dependent _ hid := by
    rw [hlisteners, h.mem_iff ((hlive id).1 hid), Follows, Follows, Covers, Covers, hlink, hwraps]
  node_nodup id := by
    by_cases hid : after.LiveNode id
    · rw [hnode id hid]
      exact h.node_nodup id
    · rw [nodeListeners, readNode_of_none (not_liveNode_iff.1 hid)]
      exact List.nodup_nil
  node_mem_iff id dependent hid := by
    rw [hnode id hid, hlink]
    exact h.node_mem_iff id dependent (hliveNode id hid)

theorem link?_insertField {field : Field} (hlink : field.link = none) :
    (tree.insertField field).link? = tree.link? := by
  funext d
  rw [link?, read_insertField, hlink]
  split
  · next hd => rw [hd, link?, read_of_none (not_live_iff.1 tree.not_live_nextField)]
  · rfl

theorem listeners_insertField {field : Field} (hlisteners : field.listeners = []) :
    (tree.insertField field).listeners = tree.listeners := by
  funext id
  rw [listeners_eq_read, listeners_eq_read, read_insertField, hlisteners]
  split
  · next hid => rw [hid, read_of_none (not_live_iff.1 tree.not_live_nextField)]
  · rfl

theorem nodeListeners_insertNode {node : Node} (hlisteners : node.listeners = []) :
    (tree.insertNode node).nodeListeners = tree.nodeListeners := by
  funext id
  rw [nodeListeners, nodeListeners, readNode_insertNode, hlisteners]
  split
  · next hid => rw [hid, readNode_of_none (not_liveNode_iff.1 tree.not_liveNode_nextNode)]
  · rfl

theorem Attended.insertField (h : tree.Attended) {field : Field} (hlink : field.link = none)
    (hlisteners : field.listeners = []) : (tree.insertField field).Attended := by
  refine ⟨?_, fun id d ho hd ↦ ?_, h.node_nodup, ?_⟩
  · rw [listeners_insertField hlisteners]
    exact h.nodup
  · rw [listeners_insertField hlisteners] at hd
    obtain ⟨s, hs, hw⟩ := h.follows id d ho hd
    refine ⟨s, by rw [link?_insertField hlink, hs], ReflTransGen.mono (fun a b hab ↦ ?_) _ _ hw⟩
    rw [wraps_insertField, if_neg (live_of_inner?_eq_some hab).ne_nextField]
    exact hab
  · rw [link?_insertField hlink]
    exact h.node_linked

/-- A field without a link follows nothing, and nothing that is older is linked to it. -/
theorem Mirrored.insertField (ho : tree.Ordered) (h : tree.Mirrored) {field : Field}
    (hlink : field.link = none) (hlisteners : field.listeners = []) :
    (tree.insertField field).Mirrored := by
  have hattended := Attended.insertField h.attended hlink hlisteners
  refine ⟨hattended.nodup, fun id d _ hid ↦ ?_, h.node_nodup, ?_⟩
  · refine ⟨hattended.follows id d not_false, ?_⟩
    rintro ⟨s, hs, hw⟩
    rw [link?_insertField hlink] at hs
    have hs' : s.index < tree.fields.size := ho.link_issued d _ hs
    rw [ho.wraps_insertField_iff field hs'] at hw
    rw [listeners_insertField hlisteners]
    refine (h.mem_iff ?_).2 ⟨s, hs, hw⟩
    have hne := ne_nextField_of_lt_size (Nat.lt_of_le_of_lt (ho.le_of_wraps hw) hs')
    exact ((live_insertField tree field id).1 hid).resolve_left hne
  · intro id d hid
    rw [link?_insertField hlink]
    exact h.node_mem_iff id d hid

theorem Attended.insertNode (h : tree.Attended) {node : Node} (hlisteners : node.listeners = []) :
    (tree.insertNode node).Attended :=
  h.congr rfl rfl rfl (nodeListeners_insertNode hlisteners)

/-- Nothing is linked to the children of a node before it is there. -/
theorem Mirrored.insertNode (ho : tree.Ordered) (h : tree.Mirrored) {node : Node}
    (hlisteners : node.listeners = []) : (tree.insertNode node).Mirrored := by
  have hattended := Attended.insertNode h.attended hlisteners
  refine ⟨h.nodup, fun id d ho hl ↦ MirroredOutside.mem_iff h id d ho hl, hattended.node_nodup,
    fun id d hid ↦ ⟨hattended.node_linked id d, fun hd ↦ ?_⟩⟩
  rw [nodeListeners_insertNode hlisteners]
  have hne : id ≠ tree.nextNode := by
    rintro rfl
    exact Nat.lt_irrefl _ (ho.link_issued d _ hd)
  exact (h.node_mem_iff id d (((liveNode_insertNode tree node id).1 hid).resolve_left hne)).2 hd

end Tree

end LightTree
