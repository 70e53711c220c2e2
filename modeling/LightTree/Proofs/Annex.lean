import LightTree.Proofs.Lasting
import LightTree.Proofs.Reachable

/-!
# What is built apart

A node is built of fields and nodes that are new, and what is new refers to what is new only: its
links, its parts, its list, its node. Hence no step of the building changes a field or a node that
was there before, nor does a release of what has been built, and this is so however the building
ends.
-/

namespace LightTree

open Relation Edit

namespace Tree

/-- What had been handed out in the first tree is in the second one as it was. -/
structure Untouched (base tree : Tree) : Prop where
  fields_size : base.fields.size ≤ tree.fields.size
  nodes_size : base.nodes.size ≤ tree.nodes.size
  settings : tree.settings = base.settings
  field : ∀ id : FieldId, id.index < base.fields.size → tree.field? id = base.field? id
  node : ∀ id : NodeId, id.index < base.nodes.size → tree.node? id = base.node? id

/-- What has been handed out since. -/
def Later (base : Tree) : Source → Prop
  | .field id => base.fields.size ≤ id.index
  | .children id => base.nodes.size ≤ id.index

/-- What is new refers to what is new only, and the rest is untouched. -/
structure Sealed (base tree : Tree) : Prop extends base.Untouched tree where
  link : ∀ x s, base.Later (.field x) → tree.link? x = some s → base.Later s
  part : ∀ x y, base.Later (.field x) → y ∈ tree.parts x → base.Later (.field y)
  container : ∀ x y, base.Later (.field x) → tree.container? x = some y → base.Later (.field y)
  owner : ∀ x n, base.Later (.field x) → tree.owner? x = some n → base.Later (.children n)
  top : ∀ n x, base.Later (.children n) → x ∈ tree.topFields n → base.Later (.field x)
  child : ∀ n c, base.Later (.children n) → c ∈ tree.children n → base.Later (.children c)

variable {α : Type} {base tree after last : Tree} {id : FieldId} {node : NodeId}

theorem Later.ne_of_lt (h : base.Later (.field id)) {x : FieldId}
    (hx : x.index < base.fields.size) : id ≠ x := by
  rintro rfl
  exact Nat.not_lt_of_le h hx

theorem Later.node_ne_of_lt (h : base.Later (.children node)) {x : NodeId}
    (hx : x.index < base.nodes.size) : node ≠ x := by
  rintro rfl
  exact Nat.not_lt_of_le h hx

theorem Issued.not_later {source : Source} (h : base.Issued source) : ¬base.Later source := by
  cases source with
  | field id => exact Nat.not_le_of_lt h
  | children id => exact Nat.not_le_of_lt h

/-! ## What stays untouched -/

namespace Untouched

theorem refl (tree : Tree) : tree.Untouched tree :=
  ⟨Nat.le_refl _, Nat.le_refl _, rfl, fun _ _ ↦ rfl, fun _ _ ↦ rfl⟩

theorem trans (h : base.Untouched tree) (h' : tree.Untouched after) : base.Untouched after where
  fields_size := h.fields_size.trans h'.fields_size
  nodes_size := h.nodes_size.trans h'.nodes_size
  settings := h'.settings.trans h.settings
  field id hid := (h'.field id (Nat.lt_of_lt_of_le hid h.fields_size)).trans (h.field id hid)
  node id hid := (h'.node id (Nat.lt_of_lt_of_le hid h.nodes_size)).trans (h.node id hid)

theorem read (h : base.Untouched tree) (hid : id.index < base.fields.size) (part : Field → α)
    (default : α) : tree.read part default id = base.read part default id := by
  unfold Tree.read
  rw [h.field id hid]

theorem readNode (h : base.Untouched tree) (hnode : node.index < base.nodes.size)
    (part : Node → α) (default : α) :
    tree.readNode part default node = base.readNode part default node := by
  unfold Tree.readNode
  rw [h.node node hnode]

theorem updateField (h : base.Untouched tree) (hid : base.Later (.field id)) (f : Field → Field) :
    base.Untouched (tree.updateField id f) :=
  { h with
    fields_size := h.fields_size.trans (size_updateField tree id f).ge
    field := fun x hx ↦ by
      rw [field?_updateField, if_neg (hid.ne_of_lt hx)]
      exact h.field x hx }

theorem updateFields (h : base.Untouched tree) {ids : List FieldId}
    (hids : ∀ id ∈ ids, base.Later (.field id)) (f : Field → Field) :
    base.Untouched (tree.updateFields ids f) := by
  induction ids generalizing tree with
  | nil => exact h
  | cons id ids ih =>
      have hid := List.forall_mem_cons.1 hids
      exact ih (h.updateField hid.1 f) hid.2

theorem updateNode (h : base.Untouched tree) (hnode : base.Later (.children node))
    (f : Node → Node) : base.Untouched (tree.updateNode node f) :=
  { h with
    nodes_size := h.nodes_size.trans (size_updateNode tree node f).ge
    node := fun x hx ↦ by
      rw [node?_updateNode, if_neg (hnode.node_ne_of_lt hx)]
      exact h.node x hx }

theorem insertField (h : base.Untouched tree) (field : Field) :
    base.Untouched (tree.insertField field) :=
  { h with
    fields_size := h.fields_size.trans
      ((Nat.le_succ _).trans_eq (size_insertField tree field).symm)
    field := fun x hx ↦ by
      have hlt : x.index < tree.fields.size := Nat.lt_of_lt_of_le hx h.fields_size
      rw [tree.field?_insertField_of_ne field (ne_nextField_of_lt_size hlt)]
      exact h.field x hx }

theorem insertNode (h : base.Untouched tree) (n : Node) : base.Untouched (tree.insertNode n) :=
  { h with
    nodes_size := h.nodes_size.trans ((Nat.le_succ _).trans_eq (size_insertNode tree n).symm)
    node := fun x hx ↦ by
      have hne : x ≠ tree.nextNode := by
        rintro rfl
        exact Nat.not_lt_of_le h.nodes_size hx
      rw [tree.node?_insertNode_of_ne n hne]
      exact h.node x hx }

theorem removeField (h : base.Untouched tree) (hid : base.Later (.field id)) :
    base.Untouched (tree.removeField id) :=
  { h with
    fields_size := h.fields_size.trans (size_removeField tree id).ge
    field := fun x hx ↦ by
      rw [tree.field?_removeField_of_ne (hid.ne_of_lt hx)]
      exact h.field x hx }

theorem removeNode (h : base.Untouched tree) (hnode : base.Later (.children node)) :
    base.Untouched (tree.removeNode node) :=
  { h with
    nodes_size := h.nodes_size.trans (size_removeNode tree node).ge
    node := fun x hx ↦ by
      rw [tree.node?_removeNode_of_ne (hnode.node_ne_of_lt hx)]
      exact h.node x hx }

end Untouched

/-! ## What stays sealed -/

namespace Sealed

theorem refl (tree : Tree) : tree.Sealed tree where
  toUntouched := .refl tree
  link _ _ hx hs := absurd (live_of_link?_eq_some hs).lt_size (Nat.not_lt_of_le hx)
  part _ _ hx hy := absurd (live_of_mem_parts hy).lt_size (Nat.not_lt_of_le hx)
  container _ _ hx hy := absurd (live_of_container?_eq_some hy).lt_size (Nat.not_lt_of_le hx)
  owner _ n hx hn := absurd (live_of_read_ne (ne_of_eq_of_ne hn (Option.some_ne_none n))).lt_size
    (Nat.not_lt_of_le hx)
  top _ _ hn hx := absurd (liveNode_of_mem_topFields hx).lt_size (Nat.not_lt_of_le hn)
  child _ _ hn hc := absurd (liveNode_of_mem_children hc).lt_size (Nat.not_lt_of_le hn)

/-- What a tree mentions after a change it mentioned before. -/
theorem mono (h : base.Sealed tree) (hu : base.Untouched after)
    (hlink : ∀ x s, after.link? x = some s → tree.link? x = some s)
    (hpart : ∀ x y, y ∈ after.parts x → y ∈ tree.parts x)
    (hcontainer : ∀ x y, after.container? x = some y → tree.container? x = some y)
    (howner : ∀ x n, after.owner? x = some n → tree.owner? x = some n)
    (htop : ∀ n x, x ∈ after.topFields n → x ∈ tree.topFields n)
    (hchild : ∀ n c, c ∈ after.children n → c ∈ tree.children n) : base.Sealed after where
  toUntouched := hu
  link x s hx hs := h.link x s hx (hlink x s hs)
  part x y hx hy := h.part x y hx (hpart x y hy)
  container x y hx hy := h.container x y hx (hcontainer x y hy)
  owner x n hx hn := h.owner x n hx (howner x n hn)
  top n x hn hx := h.top n x hn (htop n x hx)
  child n c hn hc := h.child n c hn (hchild n c hc)

theorem of_shrinks (h : base.Sealed tree) (hu : base.Untouched after) (hs : tree.Shrinks after) :
    base.Sealed after := by
  refine h.mono hu (fun x s hx ↦ ?_) (fun _ _ ↦ hs.mem_parts) (fun x y hx ↦ ?_) (fun x n hx ↦ ?_)
    (fun _ _ ↦ hs.mem_topFields) fun n c hc ↦ ?_
  · rwa [← hs.link? (live_of_link?_eq_some hx)]
  · rwa [← hs.container? (live_of_container?_eq_some hx)]
  · have hl : after.Live x := live_of_read_ne (ne_of_eq_of_ne hx (Option.some_ne_none n))
    rwa [owner?, hs.read_eq (fun _ _ ↦ rfl) hl] at hx
  · have hl := liveNode_of_mem_children hc
    rwa [children_eq_readNode, hs.readNode_eq (fun _ _ ↦ rfl) hl, ← children_eq_readNode] at hc

/-! ### Changing fields -/

theorem layers_later (h : base.Sealed tree) (hid : base.Later (.field id)) :
    ∀ x ∈ tree.layers id, base.Later (.field x) := by
  intro x hx
  have hwraps : ReflTransGen tree.Wraps id x := reflTransGen_of_mem_chain hx
  clear hx
  induction hwraps with
  | refl => exact hid
  | tail _ hxy ih => exact h.part _ _ ih (mem_parts_of_inner? hxy)

theorem mapListeners (h : base.Sealed tree) {source : Option Source}
    (hs : ∀ s, source = some s → base.Later s) (f : List FieldId → List FieldId) :
    base.Sealed (tree.mapListeners f source) := by
  have hu : base.Untouched (tree.mapListeners f source) := by
    rcases source with _ | n | s
    · exact h.toUntouched
    · exact h.toUntouched.updateFields (h.layers_later (hs _ rfl)) _
    · exact h.toUntouched.updateNode (hs _ rfl) _
  refine h.mono hu ?_ ?_ ?_ ?_ ?_ ?_
  · rw [link?_mapListeners]
    exact fun _ _ hx ↦ hx
  · rw [parts, read_mapListeners _ _ fun _ _ ↦ rfl]
    exact fun _ _ hx ↦ hx
  · rw [container?_eq_read, read_mapListeners _ _ fun _ _ ↦ rfl, ← container?_eq_read]
    exact fun _ _ hx ↦ hx
  · rw [owner?, read_mapListeners _ _ fun _ _ ↦ rfl]
    exact fun _ _ hx ↦ hx
  · rw [topFields_eq_readNode, readNode_mapListeners _ _ fun _ _ ↦ rfl, ← topFields_eq_readNode]
    exact fun _ _ hx ↦ hx
  · rw [children_eq_readNode, readNode_mapListeners _ _ fun _ _ ↦ rfl, ← children_eq_readNode]
    exact fun _ _ hx ↦ hx

theorem quit (h : base.Sealed tree) (hid : base.Later (.field id)) : base.Sealed (tree.quit id) :=
  h.mapListeners (fun s ↦ h.link id s hid) _

theorem relink (h : base.Sealed tree) (hid : base.Later (.field id)) (hl : tree.Live id)
    {source : Option Source} (hs : ∀ s, source = some s → base.Later s) :
    base.Sealed (tree.relink id source) := by
  have hm := (h.quit hid).mapListeners hs (· ++ [id])
  have hu : base.Untouched (tree.relink id source) := by
    rw [relink_eq]
    exact hm.toUntouched.updateField hid _
  refine ⟨hu, fun x s hx hxs ↦ ?_, fun x y ↦ ?_, fun x y ↦ ?_, fun x n ↦ ?_, fun n x ↦ ?_,
    fun n c ↦ ?_⟩
  · rw [link?_relink source hl] at hxs
    split at hxs
    · exact hs s hxs
    · exact h.link x s hx hxs
  · rw [parts, read_relink id source fun _ _ _ ↦ rfl]
    exact h.part x y
  · rw [container?_relink]
    exact h.container x y
  · rw [owner?, read_relink id source fun _ _ _ ↦ rfl]
    exact h.owner x n
  · rw [topFields_eq_readNode, readNode_relink id source fun _ _ ↦ rfl, ← topFields_eq_readNode]
    exact h.top n x
  · rw [children_eq_readNode, readNode_relink id source fun _ _ ↦ rfl, ← children_eq_readNode]
    exact h.child n c

theorem insertField (h : base.Sealed tree) {field : Field} (hlink : field.link = none)
    (hparts : ∀ c ∈ field.value.parts, base.Later (.field c))
    (hcontainer : ∀ c, field.container = some c → base.Later (.field c))
    (howner : base.Later (.children field.owner)) : base.Sealed (tree.insertField field) := by
  refine ⟨h.toUntouched.insertField field, fun x s hx hs ↦ ?_, fun x y hx hy ↦ ?_,
    fun x y hx hy ↦ ?_, fun x n hx hn ↦ ?_, h.top, h.child⟩
  · rw [link?, read_insertField, hlink] at hs
    split at hs
    · cases hs
    · exact h.link x s hx hs
  · rcases mem_parts_insertField hy with hy | ⟨_, hy⟩
    · exact h.part x y hx hy
    · exact hparts y hy
  · rw [container?_eq_read, read_insertField] at hy
    split at hy
    · exact hcontainer y hy
    · exact h.container x y hx (by rwa [container?_eq_read])
  · rw [owner?, read_insertField] at hn
    split at hn
    · exact Option.some.inj hn ▸ howner
    · exact h.owner x n hx hn

theorem retouch (h : base.Sealed tree) (hid : base.Later (.field id)) {f : Field → Field}
    (hf : Retouches f) (hparts : ∀ y ∈ (tree.updateField id f).parts id, base.Later (.field y)) :
    base.Sealed (tree.updateField id f) := by
  refine ⟨h.toUntouched.updateField hid f, ?_, fun x y hx hy ↦ ?_, ?_, ?_, h.top, h.child⟩
  · rw [link?_updateField hf.link]
    exact h.link
  · by_cases hxid : x = id
    · exact hparts y (hxid ▸ hy)
    · rw [parts_updateField_of_ne hxid] at hy
      exact h.part x y hx hy
  · rw [container?_updateField hf.container]
    exact h.container
  · rw [owner?_updateField hf.owner]
    exact h.owner

theorem setActive (h : base.Sealed tree) (hid : base.Later (.field id)) (active : Bool) :
    base.Sealed (tree.updateField id ({ · with active })) := by
  refine h.retouch hid (retouches_setActive active) fun y hy ↦ h.part id y hid ?_
  rwa [parts_updateField (f := ({ · with active })) fun _ ↦ rfl] at hy

theorem push (h : base.Sealed tree) (hid : base.Later (.field id)) {group : List FieldId}
    (hgroup : ∀ x ∈ group, base.Later (.field x)) : base.Sealed (tree.push id group) := by
  refine h.retouch hid (retouches_mapElements _) fun y hy ↦ ?_
  obtain ⟨more, hsub, hparts⟩ := parts_push tree id group
  change y ∈ (tree.push id group).parts id at hy
  rw [hparts, List.mem_append] at hy
  exact hy.elim (h.part id y hid) fun hm ↦ hgroup y (hsub.subset hm)

theorem refreshed (h : base.Sealed tree) : base.Sealed tree.refreshed :=
  { h with }

/-! ### Releasing fields -/

theorem retire (h : base.Sealed tree) (hid : base.Later (.field id)) :
    base.Sealed (tree.retire id) :=
  (h.quit hid).of_shrinks ((h.quit hid).toUntouched.removeField hid) (.removeField _ id)

theorem releaseFieldWithin (fuel : Nat) (h : base.Sealed tree) (hid : base.Later (.field id)) :
    base.Sealed (releaseFieldWithin fuel tree id) := by
  induction fuel generalizing tree id with
  | zero => exact h
  | succ fuel ih =>
      by_cases hl : tree.Live id
      · rw [releaseFieldWithin_of_live hl]
        refine List.foldlRecOn (motive := base.Sealed) _ _ (h.retire hid) fun t ht part hp ↦ ?_
        exact ih ht (h.part id part hid hp)
      · rwa [releaseFieldWithin_of_not_live hl]

theorem releaseFields (h : base.Sealed tree) {ids : List FieldId}
    (hids : ∀ x ∈ ids, base.Later (.field x)) : base.Sealed (tree.releaseFields ids) :=
  List.foldlRecOn (motive := base.Sealed) _ _ h fun _ ht x hx ↦
    ht.releaseFieldWithin _ (hids x hx)

theorem drop (h : base.Sealed tree) (hid : base.Later (.field id)) {field : Field}
    (hf : tree.field? id = some field) {f : List (List FieldId) → List (List FieldId)}
    {group : List FieldId} (hsplit : Splits f group field.value) :
    base.Sealed (tree.drop id f group) := by
  have hparts : ∀ y ∈ (field.value.mapElements f).parts ++ group, base.Later (.field y) := by
    intro y hy
    refine h.part id y hid ?_
    rw [parts, read_of_some hf]
    exact hsplit.subset hy
  refine (h.retouch hid (retouches_mapElements f) fun y hy ↦ ?_).releaseFields fun y hy ↦
    hparts y (List.mem_append_right _ hy)
  rw [parts_updateField_self hf] at hy
  exact hparts y (List.mem_append_left _ hy)

/-! ### Changing nodes -/

theorem updateNode (h : base.Sealed tree) (hnode : base.Later (.children node)) {f : Node → Node}
    (hfields : ∀ n, ∀ x ∈ (f n).fields, x ∈ n.fields ∨ base.Later (.field x))
    (hchildren : ∀ n, ∀ c ∈ (f n).children, c ∈ n.children ∨ base.Later (.children c)) :
    base.Sealed (tree.updateNode node f) := by
  refine ⟨h.toUntouched.updateNode hnode f, h.link, h.part, h.container, h.owner,
    fun n x hn hx ↦ ?_, fun n c hn hc ↦ ?_⟩
  · obtain ⟨m, hm⟩ := liveNode_iff.1 (liveNode_of_mem_topFields hx)
    rw [topFields_eq_readNode, readNode_of_some hm] at hx
    have htop : ∀ old, tree.node? n = some old → x ∈ old.fields → base.Later (.field x) :=
      fun old ho hxo ↦ h.top n x hn (by rwa [topFields_eq_readNode, readNode_of_some ho])
    rw [node?_updateNode] at hm
    split at hm
    · obtain ⟨old, ho, rfl⟩ := Option.map_eq_some_iff.1 hm
      exact (hfields old x hx).elim (htop old ho) fun hl ↦ hl
    · exact htop m hm hx
  · obtain ⟨m, hm⟩ := liveNode_iff.1 (liveNode_of_mem_children hc)
    rw [children_eq_readNode, readNode_of_some hm] at hc
    have hchild : ∀ old, tree.node? n = some old → c ∈ old.children → base.Later (.children c) :=
      fun old ho hco ↦ h.child n c hn (by rwa [children_eq_readNode, readNode_of_some ho])
    rw [node?_updateNode] at hm
    split at hm
    · obtain ⟨old, ho, rfl⟩ := Option.map_eq_some_iff.1 hm
      exact (hchildren old c hc).elim (hchild old ho) fun hl ↦ hl
    · exact hchild m hm hc

theorem insertNode (h : base.Sealed tree) (kind : NodeKind) :
    base.Sealed (tree.insertNode { kind }) := by
  refine ⟨h.toUntouched.insertNode _, h.link, h.part, h.container, h.owner, fun n x hn hx ↦ ?_,
    fun n c hn hc ↦ ?_⟩
  · rw [topFields_insertNode_of_nil rfl] at hx
    exact h.top n x hn hx
  · rw [children_eq_readNode, readNode_insertNode] at hc
    split at hc
    · exact absurd hc List.not_mem_nil
    · exact h.child n c hn (by rwa [children_eq_readNode])

theorem addTop (h : base.Sealed tree) (hnode : base.Later (.children node))
    (hid : base.Later (.field id)) : base.Sealed (tree.addTop node id) := by
  refine h.updateNode (f := fun n ↦ { n with fields := n.fields ++ [id] }) hnode (fun n x hx ↦ ?_)
    fun _ _ hc ↦ .inl hc
  rcases List.mem_append.1 hx with hx | hx
  · exact .inl hx
  · rw [List.mem_singleton.1 hx]
    exact .inr hid

theorem adopt (h : base.Sealed tree) {parent child : NodeId} (hp : base.Later (.children parent))
    (hc : base.Later (.children child)) : base.Sealed (tree.adopt parent child) := by
  refine (h.updateNode (f := fun n ↦ { n with children := n.children ++ [child] }) hp
    (fun _ _ hx ↦ .inl hx) fun n c hcn ↦ ?_).updateNode (f := ({ · with parent := some parent })) hc
    (fun _ _ hx ↦ .inl hx) fun _ _ hcn ↦ .inl hcn
  rcases List.mem_append.1 hcn with hcn | hcn
  · exact .inl hcn
  · rw [List.mem_singleton.1 hcn]
    exact .inr hc

theorem releaseNodeWithin (fuel : Nat) (h : base.Sealed tree)
    (hnode : base.Later (.children node)) : base.Sealed (releaseNodeWithin fuel tree node) := by
  induction fuel generalizing tree node with
  | zero => exact h
  | succ fuel ih =>
      by_cases hl : tree.LiveNode node
      · obtain ⟨n, hn⟩ := liveNode_iff.1 hl
        have htop : tree.topFields node = n.fields := by
          rw [topFields_eq_readNode, readNode_of_some hn]
        have hchildren : tree.children node = n.children := by
          rw [children_eq_readNode, readNode_of_some hn]
        rw [releaseNodeWithin_of_live hn]
        have hremoved := h.of_shrinks (h.toUntouched.removeNode hnode) (.removeNode tree node)
        refine releaseFields (List.foldlRecOn (motive := base.Sealed) _ _ hremoved
          fun t ht c hc ↦ ih ht (h.child node c hnode (hchildren ▸ hc))) fun x hx ↦ ?_
        exact h.top node x hnode (htop ▸ hx)
      · rwa [releaseNodeWithin_of_not_live hl]

theorem releaseNode (h : base.Sealed tree) (hnode : base.Later (.children node)) :
    base.Sealed (tree.releaseNode node) :=
  h.releaseNodeWithin _ hnode

theorem giveUp (h : base.Sealed tree) (hnode : base.Later (.children node)) :
    base.Sealed (tree.giveUp node) := by
  unfold Tree.giveUp
  split
  · exact h.releaseNode hnode
  · exact h

end Sealed

/-! ## The region of what is new -/

/-- A field that is linked to something new is new. -/
theorem Sealed.later_of_link (h : base.Sealed tree) (hb : base.Ordered) {d : FieldId}
    {source : Source} (hd : tree.link? d = some source) (hs : base.Later source) :
    base.Later (.field d) := by
  by_contra hold
  have hlink : base.link? d = some source :=
    (h.toUntouched.read (Nat.lt_of_not_le hold) _ none).symm.trans hd
  exact (hb.link_issued d source hlink).not_later hs

/-- What is new since a tree. -/
def annex (base : Tree) : Region where
  base := base.fields.size
  visited x := base.Later (.field x)
  within x := base.Later (.field x)
  sources := base.Later

/-- A sound tree in which what is new since another one is sealed off. -/
structure Annexed (base tree : Tree) : Prop extends base.Sealed tree where
  sound : tree.Sound

namespace Annexed

theorem refl (h : base.Sound) : base.Annexed base :=
  ⟨.refl base, h⟩

theorem governs (h : base.Annexed tree) (hb : base.Ordered) : base.annex.Governs tree where
  sound := h.sound
  base_le := h.fields_size
  fresh _ hx := hx
  visited_within _ hx := hx
  listeners x d hx hd := by
    obtain ⟨s, hs, hw⟩ := (h.sound.mirrored.mem_iff (live_of_mem_listeners hd)).1 hd
    exact h.later_of_link hb hs (Nat.le_trans hx (h.sound.ordered.le_of_wraps hw))
  container := h.container
  fresh_source _ hx := hx
  offers x n hx hn := ⟨h.owner x n hx hn, fun y hy ↦ h.top n y (h.owner x n hx hn) hy⟩

theorem later_of_mem_nodeListeners (h : base.Annexed tree) (hb : base.Ordered)
    (hnode : base.Later (.children node)) {d : FieldId} (hd : d ∈ tree.nodeListeners node) :
    base.Later (.field d) := by
  have hl : tree.LiveNode node := liveNode_of_readNode_ne (List.ne_nil_of_mem hd)
  exact h.later_of_link hb ((h.sound.mirrored.node_mem_iff node d hl).1 hd) hnode

theorem of_change (h : base.Annexed tree) (hc : base.annex.Change tree after) :
    base.Annexed after := by
  refine ⟨?_, hc.sound h.sound⟩
  cases hc with
  | insert link listeners container owner offers nodup loose =>
      exact h.insertField link (fun c hc ↦ (loose c hc).2) (fun c hc ↦ (container c hc).1) offers.1
  | relink live new sources admits => exact h.relink new live sources
  | setActive visited active => exact h.toSealed.setActive visited active
  | push visited nodup loose => exact h.push visited fun x hx ↦ (loose x hx).2
  | drop visited live splits => exact h.drop visited live splits
  | refresh => exact h.toSealed.refreshed

theorem of_leads (h : base.Annexed tree) (hl : base.annex.Leads tree after) :
    base.Annexed after := by
  induction hl with
  | refl => exact h
  | tail _ hc ih => exact ih.of_change hc

theorem releaseNode (h : base.Annexed tree) (hnode : base.Later (.children node)) :
    base.Annexed (tree.releaseNode node) :=
  ⟨h.toSealed.releaseNode hnode, h.sound.releaseNode node⟩

theorem giveUp (h : base.Annexed tree) (hnode : base.Later (.children node)) :
    base.Annexed (tree.giveUp node) :=
  ⟨h.toSealed.giveUp hnode, h.sound.giveUp node⟩

end Annexed

/-! ## Building -/

variable (hb : base.Ordered)

include hb

theorem settleQuietly_annexed (hnode : base.Later (.children node)) :
    (settleQuietly (.children node)).Keeps base.Annexed := by
  intro tree h
  rw [settleQuietly, meets_propagate_children]
  exact ((Confined.enter false).forM (h.governs hb) fun d hd ↦
    h.later_of_mem_nodeListeners hb hnode hd).imp (fun _ _ ↦ h.of_leads) fun _ _ ↦ h.of_leads

theorem attach_annexed {parent child : NodeId} (hp : base.Later (.children parent))
    (hc : base.Later (.children child)) : (attach parent child false).Keeps base.Annexed := by
  intro tree h
  rw [meets_attach]
  exact ⟨fun _ ↦ h, fun _ ↦ ⟨fun _ _ ↦ h, fun _ ↦
    settleQuietly_annexed hb hp _ ⟨h.toSealed.adopt hp hc, h.sound.adopt parent child⟩⟩⟩

theorem furnish_annexed (hnode : base.Later (.children node)) (decls : List FieldDecl) :
    (furnish node decls).Keeps fun tree ↦ base.Annexed tree ∧ tree.LiveNode node := by
  induction decls with
  | nil => exact fun _ h ↦ h
  | cons decl rest ih =>
      rintro tree ⟨h, hlive⟩
      rw [meets_furnish_cons]
      have hg := h.governs hb
      have hhost : base.annex.Hosts tree node none :=
        ⟨⟨hnode, fun x hx ↦ h.top node x hnode hx⟩, hlive.lt_size, nofun⟩
      have hlive' : ∀ after, base.annex.Leads tree after → after.LiveNode node := fun after hl ↦
        ((hl.framed hg).nodes.liveNode node).2 hlive
      apply ((Confined.enter false).instantiate hg hhost
        (fun _ hx ↦ absurd hx List.not_mem_nil) decl).imp
      · rintro field after ⟨hlead, hloose, hnew⟩
        have hafter := h.of_leads hlead
        refine ih _ ⟨⟨hafter.toSealed.addTop hnode hnew,
          hafter.sound.addTop (hlive' after hlead) hloose⟩, ?_⟩
        exact (liveNode_updateNode _ _ _ _).2 (hlive' after hlead)
      · exact fun _ after hlead ↦ ⟨h.of_leads hlead, hlive' after hlead⟩

omit hb

/-- Makes of a kind, out of what is new, a node that is new. -/
def Annexes (base : Tree) (make : NodeKind → Edit NodeId) : Prop :=
  ∀ kind tree, base.Annexed tree →
    (make kind).Meets tree (fun id after ↦ base.Annexed after ∧ base.Later (.children id))
      fun _ ↦ base.Annexed

section

include hb

variable {make : NodeKind → Edit NodeId} (hmake : base.Annexes make)

include hmake

theorem populateOne_annexed (hnode : base.Later (.children node)) (kind childKind : NodeKind) :
    (populateOne make node kind childKind).Keeps base.Annexed := by
  intro tree h
  rw [meets_populateOne]
  refine (hmake childKind tree h).imp ?_ fun _ _ ha ↦ ha
  rintro child mid ⟨hmid, hchild⟩
  exact (attach_annexed hb hnode hchild mid hmid).imp
    (fun _ _ ha ↦ ⟨fun _ ↦ ha.releaseNode hchild, fun _ ↦ ha⟩) fun _ _ ha ↦ ha.releaseNode hchild

theorem populate_annexed (hnode : base.Later (.children node)) (kind : NodeKind)
    (childKind? : Option NodeKind) (count : Nat) :
    (populate make node kind childKind? count).Keeps base.Annexed := by
  induction count with
  | zero => exact fun _ h ↦ h
  | succ count ih =>
      intro tree h
      rw [meets_populate_succ]
      exact ⟨fun _ ↦ h, fun childKind _ ↦
        (populateOne_annexed hb hmake hnode kind childKind tree h).imp (fun _ ↦ ih) fun _ _ ha ↦ ha⟩

theorem build_annexed (hnode : base.Later (.children node)) (kind : NodeKind)
    (h : base.Annexed tree) (hlive : tree.LiveNode node) :
    (build make node kind).Meets tree (fun _ ↦ base.Annexed) fun _ ↦ base.Annexed := by
  rw [meets_build]
  refine (furnish_annexed hb hnode kind.fields tree ⟨h, hlive⟩).imp ?_ fun _ _ ha ↦ ha.1
  exact fun _ mid ⟨hmid, _⟩ ↦
    ⟨fun _ ↦ populate_annexed hb hmake hnode kind _ _ mid hmid, fun _ ↦ hmid⟩

end

theorem annexes_createWithin (hb : base.Ordered) (depth : Nat) :
    base.Annexes (createWithin depth) := by
  induction depth with
  | zero => exact fun _ _ h ↦ h
  | succ depth ih =>
      intro kind tree h
      rw [meets_createWithin_succ]
      refine ⟨fun _ _ ↦ h, fun _ ↦ ?_⟩
      have hnode : base.Later (.children tree.nextNode) := h.nodes_size
      have hlive : (tree.insertNode { kind }).LiveNode tree.nextNode :=
        (liveNode_insertNode _ _ _).2 (.inl rfl)
      have hnew : base.Annexed (tree.insertNode { kind }) :=
        ⟨h.toSealed.insertNode kind, h.sound.insertNode rfl rfl⟩
      exact (build_annexed hb ih hnode kind hnew hlive).imp (fun _ _ ha ↦ ⟨ha, hnode⟩)
        fun _ _ ha ↦ ha.releaseNode hnode

/-- However it ends, making a node changes nothing that was there before. -/
theorem Sound.create_annexed (h : base.Sound) (kind : NodeKind) :
    (create kind).Meets base (fun id after ↦ base.Annexed after ∧ base.Later (.children id))
      fun _ ↦ base.Annexed :=
  annexes_createWithin h.ordered 5 kind base (.refl h)

/-! ## The view -/

theorem refreshes_mapListeners (tree : Tree) (f : List FieldId → List FieldId)
    (source : Option Source) : (tree.mapListeners f source).refreshes = tree.refreshes := by
  rcases source with _ | n | s
  · rfl
  · rw [Tree.mapListeners]
    induction tree.layers n generalizing tree with
    | nil => rfl
    | cons x ids ih => exact ih (tree.updateField x _)
  · rfl

/-- Making a node does not refresh the view. -/
theorem growing_refreshes : Growing fun tree after ↦ after.refreshes = tree.refreshes where
  refl _ := rfl
  trans h h' := h'.trans h
  insertField _ _ _ := rfl
  relink tree dependent source := by
    rw [relink_eq]
    show ((tree.quit dependent).mapListeners _ source).refreshes = _
    rw [refreshes_mapListeners, quit, refreshes_mapListeners]
  setActive _ _ _ _ := rfl
  push _ _ _ := rfl
  drop _ _ _ _ := (releaseFields_shrinks _ _).refreshes
  addTop _ _ _ := rfl
  insertNode _ _ := rfl
  adopt _ _ _ := rfl
  releaseNode tree id := (releaseNode_shrinks tree id).refreshes

end Tree

end LightTree
