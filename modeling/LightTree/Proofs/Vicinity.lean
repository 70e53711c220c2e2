import LightTree.Proofs.Placement
import LightTree.Proofs.Precinct
import LightTree.Proofs.Tenure

/-!
# What operations touch

An operation on an insular tree leaves an insular tree, and it touches at most the node whose
fields or children it addresses. What is left of any other node and its fields is as it was: the
kind, the fields and the children of the node, and the values and the activity of the fields. New
nodes do not count, as nothing that was there before belongs to them.
-/

namespace LightTree

open Relation Edit

/-- What a node shows of itself, apart from its fields. -/
def Node.face (node : Node) : Node := { node with parent := none, listeners := [] }

namespace Tree

/-- What is left of the nodes that are not touched, and of their fields, shows what it showed. -/
structure DiffersAt (touched : NodeId → Prop) (tree after : Tree) : Prop
    extends tree.Abides after where
  nodes_size : tree.nodes.size ≤ after.nodes.size
  node : ∀ id new, id.index < tree.nodes.size → after.node? id = some new →
    ∃ old, tree.node? id = some old ∧ (¬touched id → new.face = old.face)
  same : ∀ id old new, tree.field? id = some old → after.field? id = some new →
    ¬touched old.owner → new.value = old.value ∧ new.active = old.active

variable {touched touched' : NodeId → Prop} {tree mid after : Tree} {id : FieldId} {node : NodeId}

namespace DiffersAt

theorem refl (touched : NodeId → Prop) (tree : Tree) : tree.DiffersAt touched tree where
  toAbides := .refl tree
  nodes_size := Nat.le_refl _
  node _ new _ hn := ⟨new, hn, fun _ ↦ rfl⟩
  same _ old new ho hn _ := by
    obtain rfl : old = new := Option.some.inj (ho.symm.trans hn)
    exact ⟨rfl, rfl⟩

theorem owner (h : tree.DiffersAt touched after) {old new : Field} (ho : tree.field? id = some old)
    (hn : after.field? id = some new) : new.owner = old.owner := by
  have hread := h.owner? (live_of_some ho).lt_size (live_of_some hn)
  rw [owner?, owner?, read_of_some ho, read_of_some hn] at hread
  exact Option.some.inj hread

theorem trans (h : tree.DiffersAt touched mid) (h' : mid.DiffersAt touched after) :
    tree.DiffersAt touched after where
  toAbides := h.toAbides.trans h'.toAbides
  nodes_size := h.nodes_size.trans h'.nodes_size
  node id new hid hn := by
    obtain ⟨between, hb, hnew⟩ := h'.node id new (hid.trans_le h.nodes_size) hn
    obtain ⟨old, ho, hbetween⟩ := h.node id between hid hb
    exact ⟨old, ho, fun hu ↦ (hnew hu).trans (hbetween hu)⟩
  same id old new ho hn hu := by
    have hlt := (live_of_some ho).lt_size.trans_le h.fields_size
    obtain ⟨between, hb, _⟩ := h'.field id new hlt hn
    have hold := h.same id old between ho hb hu
    have hnew := h'.same id between new hb hn (h.owner ho hb ▸ hu)
    exact ⟨hnew.1.trans hold.1, hnew.2.trans hold.2⟩

/-- Touched nodes that are new do not count. -/
theorem mono (h : tree.DiffersAt touched after) (ho : tree.Ordered)
    (htouched : ∀ n : NodeId, n.index < tree.nodes.size → touched n → touched' n) :
    tree.DiffersAt touched' after where
  toAbides := h.toAbides
  nodes_size := h.nodes_size
  node id new hid hn := by
    obtain ⟨old, hold, hface⟩ := h.node id new hid hn
    exact ⟨old, hold, fun hu ↦ hface fun ht ↦ hu (htouched id hid ht)⟩
  same id old new hold hn hu := by
    refine h.same id old new hold hn fun ht ↦ hu (htouched old.owner ?_ ht)
    exact ho.owner_issued id old.owner (read_of_some hold ..)

/-! ### What is not touched -/

theorem exists_fields (h : tree.DiffersAt touched after) (hu : ¬touched node)
    (howner : tree.owner? id = some node) (hl : after.Live id) :
    ∃ old new, tree.field? id = some old ∧ after.field? id = some new ∧
      new.value = old.value ∧ new.active = old.active := by
  obtain ⟨old, ho⟩ := live_iff.1 (live_of_owner?_eq_some howner)
  obtain ⟨new, hn⟩ := live_iff.1 hl
  have hnode : old.owner = node := Option.some.inj ((read_of_some ho ..).symm.trans howner)
  exact ⟨old, new, ho, hn, h.same id old new ho hn (hnode ▸ hu)⟩

theorem parts (h : tree.DiffersAt touched after) (hu : ¬touched node)
    (howner : tree.owner? id = some node) (hl : after.Live id) :
    after.parts id = tree.parts id := by
  obtain ⟨old, new, ho, hn, hvalue, _⟩ := h.exists_fields hu howner hl
  rw [Tree.parts, Tree.parts, read_of_some ho, read_of_some hn, hvalue]

theorem exists_nodes (h : tree.DiffersAt touched after) (hu : ¬touched node)
    (hlt : node.index < tree.nodes.size) (hl : after.LiveNode node) :
    ∃ old new, tree.node? node = some old ∧ after.node? node = some new ∧
      new.face = old.face := by
  obtain ⟨new, hn⟩ := liveNode_iff.1 hl
  obtain ⟨old, ho, hface⟩ := h.node node new hlt hn
  exact ⟨old, new, ho, hn, hface hu⟩

theorem topFields (h : tree.DiffersAt touched after) (hu : ¬touched node)
    (hlt : node.index < tree.nodes.size) (hl : after.LiveNode node) :
    after.topFields node = tree.topFields node := by
  obtain ⟨old, new, ho, hn, hface⟩ := h.exists_nodes hu hlt hl
  rw [topFields_eq_readNode, topFields_eq_readNode, readNode_of_some ho, readNode_of_some hn]
  exact (congrArg Node.fields hface :)

theorem children (h : tree.DiffersAt touched after) (hu : ¬touched node)
    (hlt : node.index < tree.nodes.size) (hl : after.LiveNode node) :
    after.children node = tree.children node := by
  obtain ⟨old, new, ho, hn, hface⟩ := h.exists_nodes hu hlt hl
  rw [children_eq_readNode, children_eq_readNode, readNode_of_some ho, readNode_of_some hn]
  exact (congrArg Node.children hface :)

/-! ### Steps -/

theorem of_leads (h : tree.Insular) (hl : (tree.precinct node).Leads tree after) :
    tree.DiffersAt (· = node) after := by
  have hf := hl.framed (h.governs node)
  refine ⟨.of_framed hf rfl, hf.nodes.nodes_size.ge, fun id new _ hn ↦ ?_,
    fun id old new ho hn hne ↦ ?_⟩
  · have hbare := hf.nodes.bare id
    rw [hn, Option.map_some, eq_comm] at hbare
    obtain ⟨old, ho, heq⟩ := Option.map_eq_some_iff.1 hbare
    exact ⟨old, ho, fun _ ↦ (congrArg Node.face heq).symm⟩
  · obtain ⟨old', ho', _, hsame⟩ := hf.field id new (live_of_some ho).lt_size hn
    obtain rfl : old = old' := Option.some.inj (ho.symm.trans ho')
    exact hsame fun hlocal ↦ hne (hlocal old.owner (read_of_some ho ..))

theorem of_shrinks (hs : tree.Shrinks after) : tree.DiffersAt touched after where
  toAbides := .of_shrinks hs
  nodes_size := hs.nodes_size.ge
  node id new _ hn := by
    obtain ⟨old, ho, hnew, _⟩ := hs.node id new hn
    exact ⟨old, ho, fun _ ↦ by rw [hnew]; rfl⟩
  same id old new ho hn _ := by
    obtain ⟨old', ho', hnew, _⟩ := hs.field id new hn
    obtain rfl : old = old' := Option.some.inj (ho.symm.trans ho')
    rw [hnew]
    exact ⟨rfl, rfl⟩

/-- A change of nodes that leaves all fields alone. -/
theorem of_nodes (hfield : after.field? = tree.field?)
    (hsize : after.fields.size = tree.fields.size) (hnodes : tree.nodes.size ≤ after.nodes.size)
    (hnode : ∀ id new, id.index < tree.nodes.size → after.node? id = some new →
      ∃ old, tree.node? id = some old ∧ (¬touched id → new.face = old.face)) :
    tree.DiffersAt touched after where
  toAbides := .of_field? hfield hsize
  nodes_size := hnodes
  node := hnode
  same id old new ho hn _ := by
    rw [hfield, ho] at hn
    obtain rfl : old = new := Option.some.inj hn
    exact ⟨rfl, rfl⟩

theorem updateNode {f : Node → Node} (hf : ¬touched node → ∀ old, (f old).face = old.face) :
    tree.DiffersAt touched (tree.updateNode node f) := by
  refine of_nodes rfl rfl (size_updateNode tree node f).ge fun id new _ hn ↦ ?_
  rw [node?_updateNode] at hn
  split at hn
  · next hid =>
      obtain ⟨old, ho, rfl⟩ := Option.map_eq_some_iff.1 hn
      exact ⟨old, ho, fun hu ↦ hf (hid ▸ hu) old⟩
  · exact ⟨new, hn, fun _ ↦ rfl⟩

theorem insertNode (tree : Tree) (kind : NodeKind) :
    tree.DiffersAt touched (tree.insertNode { kind }) := by
  refine of_nodes rfl rfl (by simp) fun id new hid hn ↦ ⟨new, ?_, fun _ ↦ rfl⟩
  rwa [tree.node?_insertNode_of_ne _ (by rintro rfl; exact Nat.lt_irrefl _ hid)] at hn

theorem updateField {f : Field → Field} (hab : tree.Abides (tree.updateField id f))
    (hid : ∀ field, tree.field? id = some field → touched field.owner) :
    tree.DiffersAt touched (tree.updateField id f) where
  toAbides := hab
  nodes_size := Nat.le_refl _
  node _ new _ hn := ⟨new, hn, fun _ ↦ rfl⟩
  same x old new ho hn hu := by
    rw [field?_updateField] at hn
    split at hn
    · next hx =>
        subst hx
        exact absurd (hid old ho) hu
    · rw [ho] at hn
      obtain rfl : old = new := Option.some.inj hn
      exact ⟨rfl, rfl⟩

end DiffersAt

/-- The second tree is insular and differs from the first one at touched nodes. -/
structure KeepsTo (touched : NodeId → Prop) (tree after : Tree) : Prop
    extends tree.DiffersAt touched after where
  insular : after.Insular

namespace KeepsTo

theorem refl (h : tree.Insular) : tree.KeepsTo touched tree :=
  ⟨.refl touched tree, h⟩

theorem trans (h : tree.KeepsTo touched mid) (h' : mid.KeepsTo touched after) :
    tree.KeepsTo touched after :=
  ⟨h.toDiffersAt.trans h'.toDiffersAt, h'.insular⟩

theorem mono (h : tree.KeepsTo touched after) (ht : tree.Insular)
    (htouched : ∀ n : NodeId, n.index < tree.nodes.size → touched n → touched' n) :
    tree.KeepsTo touched' after :=
  ⟨h.toDiffersAt.mono ht.ordered htouched, h.insular⟩

end KeepsTo

end Tree

/-- An edit of a tree touches some nodes, however it ends. -/
def Edit.StaysAt {α : Type} (edit : Edit α) (touched : NodeId → Prop) (tree : Tree) : Prop :=
  edit.Meets tree (fun _ ↦ tree.KeepsTo touched) fun _ ↦ tree.KeepsTo touched

section

variable {α : Type} {edit : Edit α} {touched touched' : NodeId → Prop} {tree mid : Tree}

theorem Edit.StaysAt.mono (he : edit.StaysAt touched tree) (h : tree.Insular)
    (htouched : ∀ n : NodeId, n.index < tree.nodes.size → touched n → touched' n) :
    edit.StaysAt touched' tree :=
  he.imp (fun _ _ hk ↦ hk.mono h htouched) fun _ _ hk ↦ hk.mono h htouched

theorem Tree.KeepsTo.andThen (h : tree.KeepsTo touched mid) (he : edit.StaysAt touched mid) :
    edit.Meets mid (fun _ ↦ tree.KeepsTo touched) fun _ ↦ tree.KeepsTo touched :=
  he.imp (fun _ _ ↦ h.trans) fun _ _ ↦ h.trans

end

namespace Tree

variable {touched : NodeId → Prop} {tree mid after : Tree} {id : FieldId}
  {node parent child : NodeId}

/-! ## Changes of nodes and fields -/

namespace Insular

theorem leads (h : tree.Insular) (hl : (tree.precinct node).Leads tree after) :
    tree.KeepsTo (· = node) after :=
  ⟨.of_leads h hl, h.of_leads hl⟩

theorem updateNode (h : tree.Insular) {f : Node → Node}
    (hfields : ∀ old, (f old).fields = old.fields)
    (hlisteners : ∀ old, (f old).listeners = old.listeners)
    (hface : ¬touched node → ∀ old, (f old).face = old.face) :
    tree.KeepsTo touched (tree.updateNode node f) :=
  ⟨.updateNode hface, h.of_nodes (h.toSound.updateNode hfields hlisteners node) rfl rfl
    (topFields_updateNode hfields node)⟩

theorem mapChildren (h : tree.Insular) (parent : NodeId) (f : List NodeId → List NodeId) :
    tree.KeepsTo (· = parent) (tree.mapChildren parent f) :=
  h.updateNode (fun _ ↦ rfl) (fun _ ↦ rfl) fun hne ↦ absurd rfl hne

theorem setParent (h : tree.Insular) (child parent : NodeId) :
    tree.KeepsTo touched (tree.setParent child parent) :=
  h.updateNode (fun _ ↦ rfl) (fun _ ↦ rfl) fun _ _ ↦ rfl

theorem adopt (h : tree.Insular) (parent child : NodeId) :
    tree.KeepsTo (· = parent) (tree.adopt parent child) := by
  have hlist := h.mapChildren parent (· ++ [child])
  rw [adopt_eq]
  exact hlist.trans (hlist.insular.setParent child parent)

theorem disown (h : tree.Insular) (parent child : NodeId) :
    tree.KeepsTo (· = parent) (tree.disown parent child) :=
  h.mapChildren parent (·.erase child)

theorem supplant (h : tree.Insular) (parent old new : NodeId) :
    tree.KeepsTo (· = parent) (tree.supplant parent old new) := by
  have hlist := h.mapChildren parent (·.replace old new)
  rw [supplant_eq]
  exact hlist.trans (hlist.insular.setParent new parent)

theorem release (h : tree.Insular) (node : NodeId) :
    tree.KeepsTo touched (tree.releaseNode node) :=
  ⟨.of_shrinks (releaseNode_shrinks tree node), h.releaseNode node⟩

theorem giveUp (h : tree.Insular) (child : NodeId) : tree.KeepsTo touched (tree.giveUp child) := by
  unfold Tree.giveUp
  split
  · exact h.release child
  · exact .refl h

theorem insertNode (h : tree.Insular) (kind : NodeKind) :
    tree.KeepsTo touched (tree.insertNode { kind }) :=
  ⟨.insertNode tree kind, h.of_nodes (h.toSound.insertNode rfl rfl) rfl rfl
    (topFields_insertNode_of_nil rfl)⟩

theorem takeTop (h : tree.Insular) (hnode : tree.LiveNode node) (hid : tree.Loose id)
    (howner : tree.owner? id = some node) : tree.KeepsTo (· = node) (tree.addTop node id) :=
  ⟨.updateNode fun hne ↦ absurd rfl hne, h.addTop hnode hid howner⟩

theorem setValue (h : tree.Insular) {field : Field} {value : Value}
    (hf : tree.field? id = some field) (hold : field.value.IsLeaf) (hnew : value.IsLeaf) :
    tree.KeepsTo (· = field.owner) (tree.updateField id ({ · with value })) := by
  have hab := Abides.setValue hf hold hnew
  refine ⟨.updateField hab fun other ho ↦ ?_, ?_⟩
  · rw [Option.some.inj (hf.symm.trans ho)]
  · rw [updateField_value hf hold] at hab ⊢
    exact h.retouch (retouches_replaceLeaf hnew) (fun _ ↦ Value.parts_replaceLeaf hnew _) hab

/-! ## Cascades -/

theorem propagate (h : tree.Insular) {source : Source}
    (hs : (tree.precinct node).sources source) (refresh : Bool) :
    (propagate (enter refresh) source).Stays (tree.precinct node) tree := by
  cases source with
  | field id => exact (Confined.enter refresh).propagate (h.governs node) hs
  | children other =>
      obtain rfl : other = node := hs
      unfold Stays
      rw [meets_propagate_children]
      refine (Confined.enter refresh).forM (h.governs other) fun d hd ↦ local_of_owner? ?_
      have hl : tree.LiveNode other := liveNode_of_readNode_ne (List.ne_nil_of_mem hd)
      exact h.attends d other (.inl ((h.mirrored.node_mem_iff other d hl).1 hd))

theorem settle (h : tree.Insular) {source : Source} (hs : (tree.precinct node).sources source) :
    (settle source).StaysAt (· = node) tree := by
  unfold StaysAt
  rw [meets_settle]
  exact (h.propagate hs true).imp (fun _ _ hl ↦ h.leads (hl.tail .refresh))
    fun _ _ hl ↦ h.leads (hl.tail .refresh)

theorem settleField (h : tree.Insular) (hid : tree.Local node id) :
    (LightTree.settle (.field id)).StaysAt (· = node) tree :=
  h.settle (show (tree.precinct node).sources (.field id) from hid)

theorem childrenChanged (h : tree.Insular) (parent : NodeId) (refresh : Bool) :
    (childrenChanged parent refresh).StaysAt (· = parent) tree := by
  unfold LightTree.childrenChanged
  split
  · exact h.settle rfl
  · have hs : (tree.precinct parent).sources (.children parent) := rfl
    exact (h.propagate hs false).imp (fun _ _ ↦ h.leads) fun _ _ ↦ h.leads

/-! ## Building -/

theorem attach (h : tree.Insular) (parent child : NodeId) (refresh : Bool) :
    (attach parent child refresh).StaysAt (· = parent) tree := by
  unfold StaysAt
  rw [meets_attach]
  have hadopt := h.adopt parent child
  exact ⟨fun _ ↦ .refl h, fun _ ↦ ⟨fun _ _ ↦ .refl h, fun _ ↦
    hadopt.andThen (hadopt.insular.childrenChanged parent refresh)⟩⟩

theorem furnish (h : tree.Insular) (hnode : tree.LiveNode node) (decls : List FieldDecl) :
    (furnish node decls).StaysAt (· = node) tree := by
  induction decls generalizing tree with
  | nil => exact .refl h
  | cons decl rest ih =>
      unfold StaysAt
      rw [meets_furnish_cons]
      have hg := h.governs node
      refine ((Confined.enter false).instantiate hg (h.hosts hnode.lt_size)
        (fun _ hx ↦ absurd hx List.not_mem_nil) decl).imp ?_ fun _ _ ↦ h.leads
      rintro field mid ⟨hlead, hloose, hnew⟩
      have hlive : mid.LiveNode node := ((hlead.framed hg).nodes.liveNode node).2 hnode
      have hb := (hlead.insular hg (belongsTo_precinct tree node) h).2
      have hmid := h.leads hlead
      have htop := hmid.insular.takeTop hlive hloose
        (hb.within field (local_of_size_le hnew) hloose.live)
      have hlast : (mid.addTop node field).LiveNode node :=
        (liveNode_updateNode mid node _ node).2 hlive
      exact (hmid.trans htop).andThen (ih htop.insular hlast)

end Insular

section

variable {make : NodeKind → Edit NodeId} (hmake : ∀ kind tree, tree.Insular →
  (make kind).StaysAt (fun _ ↦ False) tree)

include hmake

theorem Insular.populateOne (h : tree.Insular) (kind childKind : NodeKind) :
    (populateOne make node kind childKind).StaysAt (· = node) tree := by
  unfold StaysAt
  rw [meets_populateOne]
  have hchild : (make childKind).StaysAt (· = node) tree :=
    Edit.StaysAt.mono (hmake childKind tree h) h fun _ _ ↦ False.elim
  refine hchild.imp ?_ fun _ _ hk ↦ hk
  intro child mid hmid
  refine (hmid.andThen (hmid.insular.attach node child false)).imp ?_ ?_
  · exact fun _ after hk ↦ ⟨fun _ ↦ hk.trans (hk.insular.release child), fun _ ↦ hk⟩
  · exact fun _ after hk ↦ hk.trans (hk.insular.release child)

theorem Insular.populate (h : tree.Insular) (kind : NodeKind) (childKind? : Option NodeKind)
    (count : Nat) : (populate make node kind childKind? count).StaysAt (· = node) tree := by
  induction count generalizing tree with
  | zero => exact .refl h
  | succ count ih =>
      unfold StaysAt
      rw [meets_populate_succ]
      refine ⟨fun _ ↦ .refl h, fun childKind _ ↦ ?_⟩
      exact (h.populateOne hmake kind childKind).imp (fun _ _ hk ↦ hk.andThen (ih hk.insular))
        fun _ _ hk ↦ hk

theorem Insular.build (h : tree.Insular) (hnode : tree.LiveNode node) (kind : NodeKind) :
    (build make node kind).StaysAt (· = node) tree := by
  unfold StaysAt
  rw [meets_build]
  refine (h.furnish hnode kind.fields).imp ?_ fun _ _ hk ↦ hk
  exact fun _ mid hk ↦ ⟨fun _ ↦ hk.andThen (hk.insular.populate hmake kind _ _), fun _ ↦ hk⟩

end

/-- A new node touches nothing that was there before. -/
theorem Insular.createWithin (h : tree.Insular) (depth : Nat) (kind : NodeKind) :
    (createWithin depth kind).StaysAt (fun _ ↦ False) tree := by
  induction depth generalizing tree kind with
  | zero => exact .refl h
  | succ depth ih =>
      unfold StaysAt
      rw [meets_createWithin_succ]
      refine ⟨fun _ _ ↦ .refl h, fun _ ↦ ?_⟩
      have hinsert : tree.KeepsTo (· = tree.nextNode) (tree.insertNode { kind }) :=
        h.insertNode kind
      have hnode : (tree.insertNode { kind }).LiveNode tree.nextNode :=
        (liveNode_insertNode _ _ _).2 (.inl rfl)
      have hbuild := hinsert.insular.build (fun kind _ ht ↦ ih ht kind) hnode kind
      have hnew : ∀ n : NodeId, n.index < tree.nodes.size → n = tree.nextNode → False := by
        rintro _ hlt rfl
        exact Nat.lt_irrefl _ hlt
      refine (hinsert.andThen hbuild).imp (fun _ _ hk ↦ hk.mono h hnew) fun _ _ hk ↦ ?_
      exact (hk.trans (hk.insular.release tree.nextNode)).mono h hnew

theorem Insular.create (h : tree.Insular) (kind : NodeKind) : (create kind).StaysAt touched tree :=
  Edit.StaysAt.mono (h.createWithin 5 kind) h fun _ _ ↦ False.elim

/-! ## Operations -/

namespace Insular

theorem addChild (h : tree.Insular) (parent child : NodeId) :
    (addChild parent child).StaysAt (· = parent) tree := by
  unfold StaysAt
  rw [meets_addChild]
  refine (h.attach parent child true).imp (fun _ after hk ↦ ⟨fun _ ↦ ?_, fun _ ↦ hk⟩)
    fun _ _ hk ↦ ?_
  · exact hk.trans (hk.insular.giveUp child)
  · exact hk.trans (hk.insular.giveUp child)

theorem addByCategory (h : tree.Insular) (parent : NodeId) (category : Category) :
    (addByCategory parent category).StaysAt (· = parent) tree := by
  unfold StaysAt
  rw [meets_addByCategory]
  refine ⟨fun _ ↦ .refl h, fun kind _ _ ↦ ?_⟩
  exact (h.create kind).imp (fun child _ hk ↦ hk.andThen (hk.insular.addChild parent child))
    fun _ _ hk ↦ hk

theorem removeChild (h : tree.Insular) (parent child : NodeId) :
    (removeChild parent child).StaysAt (· = parent) tree := by
  unfold StaysAt
  rw [meets_removeChild]
  have hdisown := h.disown parent child
  have hrelease := hdisown.trans (hdisown.insular.release child)
  exact ⟨fun _ ↦ .refl h, fun _ ↦ ⟨fun _ _ ↦ .refl h, fun _ ↦
    hrelease.andThen (hrelease.insular.childrenChanged parent true)⟩⟩

theorem detach (h : tree.Insular) (node : NodeId) :
    (detach node).StaysAt (fun n ↦ tree.parent? node = some n) tree := by
  unfold StaysAt
  rw [meets_detach]
  refine ⟨fun _ ↦ .refl h, fun parent hparent ↦ ?_⟩
  exact Edit.StaysAt.mono (h.removeChild parent node) h fun n _ hn ↦ hn ▸ hparent

theorem retype (h : tree.Insular) (node : NodeId) (symbol : String) :
    (retype node symbol).StaysAt (fun n ↦ tree.parent? node = some n) tree := by
  refine meets_retype (.refl h) fun old parent kind hn hparent _ ↦ ⟨fun _ _ ↦ .refl h, fun _ ↦ ?_⟩
  have hup : tree.parent? node = some parent := by
    rw [parent?_eq_readNode, readNode_of_some hn, hparent]
  have htouched : ∀ n : NodeId, n.index < tree.nodes.size → n = parent →
      tree.parent? node = some n := fun n _ he ↦ he ▸ hup
  have hcreate : (LightTree.create kind).StaysAt (· = parent) tree := h.create kind
  refine hcreate.imp (fun new mid hk ↦ ⟨fun _ ↦ ?_, fun _ ↦ ?_⟩) fun _ _ hk ↦ hk.mono h htouched
  · exact (hk.trans (hk.insular.release new)).mono h htouched
  · have hsupplant := hk.trans (hk.insular.supplant parent node new)
    have hrelease := hsupplant.trans (hsupplant.insular.release node)
    exact (hrelease.andThen (hrelease.insular.childrenChanged parent true)).imp
      (fun _ _ hl ↦ hl.mono h htouched) fun _ _ hl ↦ hl.mono h htouched

theorem owner?_unwrap (h : tree.Insular) (id : FieldId) :
    tree.owner? (tree.unwrap id) = tree.owner? id :=
  h.owner?_of_wraps (tree.wraps_unwrap id)

/-- What is done at the value of a field touches the node that the field belongs to. -/
theorem touches_owner (h : tree.Insular) {field : Field}
    (hf : tree.field? (tree.unwrap id) = some field) (hk : tree.KeepsTo (· = field.owner) after) :
    tree.KeepsTo (fun n ↦ tree.owner? id = some n) after := by
  refine hk.mono h ?_
  rintro _ _ rfl
  rw [← h.owner?_unwrap, owner?, read_of_some hf]

theorem local_of_leads (h : tree.Insular) (hl : (tree.precinct node).Leads tree after)
    {x : FieldId} (hx : tree.Local node x) : after.Local node x := by
  intro other ho
  have hb := (hl.insular (h.governs node) (belongsTo_precinct tree node) h).2
  exact Option.some.inj (ho.symm.trans (hb.within x hx (live_of_owner?_eq_some ho)))

theorem mutate (h : tree.Insular) (id : FieldId) {change : Field → Except Fault Value}
    (hchange : Leafy change) :
    (mutate id change).StaysAt (fun n ↦ tree.owner? id = some n) tree := by
  refine meets_mutate (fun _ ↦ .refl h) fun _ field value hf hv ↦ ?_
  obtain ⟨hold, hnew⟩ := hchange field value hv
  have hset := h.setValue hf hold hnew
  have hlocal : (tree.updateField (tree.unwrap id) ({ · with value })).Local field.owner
      (tree.unwrap id) := by
    refine local_of_owner? ?_
    have hl := live_of_some hf
    rw [hset.owner? hl.lt_size ((live_updateField ..).2 hl), owner?, read_of_some hf]
  exact (hset.andThen (hset.insular.settleField hlocal)).imp (fun _ _ ↦ h.touches_owner hf)
    fun _ _ ↦ h.touches_owner hf

theorem appendElement (h : tree.Insular) (id : FieldId) :
    (appendElement id).StaysAt (fun n ↦ tree.owner? id = some n) tree := by
  refine meets_appendElement (fun _ ↦ .refl h) fun _ field template elements hf _ ↦ ?_
  have hlocal : tree.Local field.owner (tree.unwrap id) := local_of_owner? (read_of_some hf ..)
  have hg := h.governs field.owner
  refine ((Confined.enter false).instantiateGroup hg (hg.hosts hf hlocal) .nil template).imp ?_
    fun _ _ hl ↦ h.touches_owner hf (h.leads hl)
  rintro group mid ⟨hlead, hgroup⟩
  refine ⟨fun _ ↦ ?_, fun _ ↦ h.touches_owner hf (h.leads hlead)⟩
  have hpush := hlead.tail (.push hlocal hgroup.nodup hgroup.loose)
  have hk := h.leads hpush
  exact (hk.andThen (hk.insular.settleField (h.local_of_leads hpush hlocal))).imp
    (fun _ _ ↦ h.touches_owner hf) fun _ _ ↦ h.touches_owner hf

theorem removeElement (h : tree.Insular) (id : FieldId) (index : Nat) :
    (removeElement id index).StaysAt (fun n ↦ tree.owner? id = some n) tree := by
  refine meets_removeElement (fun _ ↦ .refl h) (.refl h) fun _ field template elements element hf
    hvalue helement ↦ ?_
  have hlocal : tree.Local field.owner (tree.unwrap id) := local_of_owner? (read_of_some hf ..)
  have hdrop : (tree.precinct field.owner).Leads tree
      (tree.drop (tree.unwrap id) (·.eraseIdx index) element) :=
    .single (.drop hlocal hf (hvalue ▸ splits_eraseIdx helement))
  have hk := h.leads hdrop
  exact (hk.andThen (hk.insular.settleField (h.local_of_leads hdrop hlocal))).imp
    (fun _ _ ↦ h.touches_owner hf) fun _ _ ↦ h.touches_owner hf

end Insular

end Tree

namespace Operation

def rebinds : Operation → Bool
  | rebind .. => true
  | _ => false

/-- The node that an operation addresses: the one that the field to change belongs to, or the one
whose children are to change. -/
def addressed? (tree : Tree) : Operation → Option NodeId
  | create _ | rebind .. => none
  | addChild parent _ | addByCategory parent _ | removeChild parent _ => some parent
  | detach node | retype node _ => tree.parent? node
  | setInteger field _ | setBoolean field _ | choose field _ | setText field _ | setColor field _
  | appendElement field | removeElement field _ => tree.owner? field

end Operation

namespace Tree

variable {tree : Tree} {operation : Operation}

/-- An operation that does not rebind touches the node that it addresses. -/
theorem Insular.perform (h : tree.Insular) (hop : operation.rebinds = false) :
    tree.KeepsTo (fun n ↦ operation.addressed? tree = some n) (tree.perform operation).2 := by
  refine meets_const_iff.1 ?_
  have hsome : ∀ parent n : NodeId, n.index < tree.nodes.size → n = parent →
      some parent = some n := fun _ _ _ he ↦ he ▸ rfl
  cases operation with
  | create kind => exact (meets_bind ..).2 (h.create kind)
  | addChild parent child =>
      exact (meets_bind ..).2 (Edit.StaysAt.mono (h.addChild parent child) h (hsome parent))
  | addByCategory parent category =>
      exact (meets_bind ..).2 (Edit.StaysAt.mono (h.addByCategory parent category) h (hsome parent))
  | removeChild parent child =>
      exact (meets_bind ..).2 (Edit.StaysAt.mono (h.removeChild parent child) h (hsome parent))
  | detach node => exact (meets_bind ..).2 (h.detach node)
  | retype node symbol => exact (meets_bind ..).2 (h.retype node symbol)
  | setInteger id n => exact (meets_bind ..).2 (h.mutate id (leafy_setInteger n))
  | setBoolean id b => exact (meets_bind ..).2 (h.mutate id (leafy_setBoolean b))
  | choose id option => exact (meets_bind ..).2 (h.mutate id (leafy_choose option))
  | setText id text => exact (meets_bind ..).2 (h.mutate id (leafy_setText text))
  | setColor id text => exact (meets_bind ..).2 (h.mutate id (leafy_setColor text))
  | appendElement id => exact (meets_bind ..).2 (h.appendElement id)
  | removeElement id index => exact (meets_bind ..).2 (h.removeElement id index)
  | rebind => cases hop

theorem insular_empty (catalog : Catalog) (settings : Settings) :
    ({ catalog, settings } : Tree).Insular := by
  have hdead : ∀ x, ¬({ catalog, settings } : Tree).Live x := fun x ↦
    not_live_iff.2 (field?_empty catalog settings x)
  have hs := sound_empty catalog settings
  exact ⟨hs, fun x _ hxy _ ↦ absurd (live_of_tied hxy) (hdead x), fun x _ hx ↦
    absurd (hs.live_of_attends hx) (hdead x)⟩

theorem insular_start {catalog : Catalog} {settings : Settings}
    (h : start catalog settings = .ok tree) : tree.Insular := by
  have hroot : ({ catalog, settings } : Tree).KeepsTo (fun _ ↦ False)
      (({ catalog, settings } : Tree).insertNode { kind := catalog.root }) :=
    (insular_empty catalog settings).insertNode catalog.root
  refine of_start ?_ h
  have hlive := (liveNode_insertNode ({ catalog, settings } : Tree) { kind := catalog.root } ⟨0⟩).2
    (.inl rfl)
  exact (hroot.insular.build (fun kind _ ht ↦ ht.create kind) hlive catalog.root).imp
    (fun _ _ hk ↦ hk.insular) fun _ _ _ ↦ trivial

end Tree

end LightTree
