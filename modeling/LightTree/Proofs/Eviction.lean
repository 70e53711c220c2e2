import LightTree.Proofs.Outline
import LightTree.Proofs.Tidiness

/-!
# What goes with a node

A node goes with the nodes below it and with whatever their fields hold. Nothing else goes, and of
what stays only the lists of listeners change: in a tidy tree those that go are taken out of them
and no other ones.
-/

namespace LightTree

open Relation

/-- A part of a list without repetitions is known by its members. -/
theorem eq_filter_of_sublist {α : Type} {part whole : List α} (h : part.Sublist whole)
    (hn : whole.Nodup) {p : α → Bool} (hmem : ∀ a, a ∈ part ↔ a ∈ whole ∧ p a = true) :
    part = whole.filter p := by
  have hpart : part.filter p = part := List.filter_eq_self.2 fun a ha ↦ ((hmem a).1 ha).2
  have hsub : part.Sublist (whole.filter p) := hpart ▸ h.filter p
  refine hsub.eq_of_length_le ((hn.filter p).subperm fun a ha ↦ ?_).length_le
  exact (hmem a).2 (List.mem_filter.1 ha)

namespace Tree

variable {tree mid after : Tree} {nodes : NodeId → Prop} {fields : FieldId → Prop}
  {id n : NodeId} {x d : FieldId}

/-- A field that is held by a field at the top of a node that is, or is below, the given one. -/
def Spans (tree : Tree) (id : NodeId) (x : FieldId) : Prop :=
  ∃ n top, tree.Heads id n ∧ top ∈ tree.topFields n ∧ tree.Holds top x

/-! ## Closed sets -/

/-- Nodes and fields with all that is below them. -/
structure Enclosed (nodes : NodeId → Prop) (fields : FieldId → Prop) (tree : Tree) : Prop where
  child : ∀ p c, nodes p → c ∈ tree.children p → nodes c
  top : ∀ n x, nodes n → x ∈ tree.topFields n → fields x
  part : tree.OwnsClosed fields

theorem enclosed_spans (tree : Tree) (id : NodeId) :
    tree.Enclosed (tree.Heads id) (tree.Spans id) where
  child _ _ := ReflTransGen.tail
  top n x hn hx := ⟨n, x, hn, hx, .refl⟩
  part := by
    rintro x part ⟨n, top, hn, htop, hx⟩ hpart
    exact ⟨n, top, hn, htop, hx.tail hpart⟩

theorem Shrinks.mem_children (h : tree.Shrinks after) {p c : NodeId} (hc : c ∈ after.children p) :
    c ∈ tree.children p := by
  have hl := liveNode_of_mem_children hc
  rwa [children_eq_readNode, h.readNode_eq (fun _ _ ↦ rfl) hl, ← children_eq_readNode] at hc

theorem Shrinks.enclosed (h : tree.Shrinks after) (hc : tree.Enclosed nodes fields) :
    after.Enclosed nodes fields where
  child p c hp hm := hc.child p c hp (h.mem_children hm)
  top n x hn hx := hc.top n x hn (h.mem_topFields hx)
  part := h.ownsClosed hc.part

theorem releaseFields_of_retire {motive : Tree → Prop} (hc : tree.OwnsClosed fields)
    (hretire : ∀ t x, tree.Shrinks t → motive t → fields x → motive (t.retire x))
    {ids : List FieldId} (hids : ∀ x ∈ ids, fields x) (h : motive tree) :
    motive (tree.releaseFields ids) := by
  refine (List.foldlRecOn (motive := fun t ↦ tree.Shrinks t ∧ motive t) _ _ ⟨.refl tree, h⟩ ?_).2
  intro t ⟨ht, hm⟩ x hx
  exact ⟨ht.trans (releaseField_shrinks t x), releaseFieldWithin_of_retire (ht.ownsClosed hc)
    (fun u y hu ↦ hretire u y (ht.trans hu)) (hids x hx) hm _⟩

/-- What survives the retirement of fields and the removal of nodes in a closed set survives the
release of a node in it. -/
theorem releaseNodeWithin_of_retire {motive : Tree → Prop} (hc : tree.Enclosed nodes fields)
    (hretire : ∀ t x, tree.Shrinks t → motive t → fields x → motive (t.retire x))
    (hremove : ∀ t n, tree.Shrinks t → motive t → nodes n → motive (t.removeNode n))
    (hid : nodes id) (h : motive tree) (fuel : Nat) : motive (releaseNodeWithin fuel tree id) := by
  induction fuel generalizing tree id with
  | zero => exact h
  | succ fuel ih =>
      by_cases hl : tree.LiveNode id
      · obtain ⟨node, hn⟩ := liveNode_iff.1 hl
        have hchildren : tree.children id = node.children := by
          rw [children_eq_readNode, readNode_of_some hn]
        have htops : tree.topFields id = node.fields := by
          rw [topFields_eq_readNode, readNode_of_some hn]
        have hremoved := Shrinks.removeNode tree id
        rw [releaseNodeWithin_of_live hn]
        obtain ⟨hs, hm⟩ := List.foldlRecOn (motive := fun t ↦ tree.Shrinks t ∧ motive t)
          node.children (releaseNodeWithin fuel)
          ⟨hremoved, hremove tree id (.refl tree) h hid⟩ fun t ⟨ht, hm⟩ c hmem ↦
            ⟨ht.trans (releaseNodeWithin_shrinks fuel t c),
              ih (ht.enclosed hc) (fun u x hu ↦ hretire u x (ht.trans hu))
                (fun u n hu ↦ hremove u n (ht.trans hu)) (hc.child id c hid (hchildren ▸ hmem)) hm⟩
        exact releaseFields_of_retire (hs.enclosed hc).part
          (fun u x hu ↦ hretire u x (hs.trans hu)) (fun x hx ↦ hc.top id x hid (htops ▸ hx)) hm
      · rwa [releaseNodeWithin_of_not_live hl]

/-! ## What stays -/

theorem live_releaseNode_of_not_spans (hx : ¬tree.Spans id x) (hl : tree.Live x) :
    (tree.releaseNode id).Live x :=
  releaseNodeWithin_of_retire (motive := fun t ↦ t.Live x) (enclosed_spans tree id)
    (fun t y _ hm hy ↦ (live_retire t y x).2 ⟨fun he ↦ hx (he ▸ hy), hm⟩) (fun _ _ _ hm _ ↦ hm)
    .refl hl _

theorem mem_listeners_releaseNode (ho : tree.InnerOlder) (hx : ¬tree.Spans id x)
    (hd : ¬tree.Spans id d) (hm : d ∈ tree.listeners x) :
    d ∈ (tree.releaseNode id).listeners x := by
  refine releaseNodeWithin_of_retire (motive := fun t ↦ d ∈ t.listeners x) (enclosed_spans tree id)
    (fun t y hs hm hy ↦ ?_) (fun _ _ _ hm _ ↦ hm) .refl hm _
  have hne : x ≠ y := fun he ↦ hx (he ▸ hy)
  exact (mem_listeners_retire (hs.innerOlder ho) hne (live_of_mem_listeners hm)).2
    ⟨hm, fun he ↦ hd (he.1 ▸ hy)⟩

theorem mem_nodeListeners_releaseNode (hn : ¬tree.Heads id n) (hd : ¬tree.Spans id d)
    (hm : d ∈ tree.nodeListeners n) : d ∈ (tree.releaseNode id).nodeListeners n := by
  refine releaseNodeWithin_of_retire (motive := fun t ↦ d ∈ t.nodeListeners n)
    (enclosed_spans tree id) (fun t y _ hm hy ↦ ?_) (fun t m _ hmem hhead ↦ ?_) .refl hm _
  · have hl : t.LiveNode n := liveNode_of_readNode_ne (List.ne_nil_of_mem hm)
    exact (mem_nodeListeners_quit hl).2 ⟨hm, fun he ↦ hd (he.1 ▸ hy)⟩
  · have hne : n ≠ m := fun he ↦ hn (he ▸ hhead)
    rwa [nodeListeners, readNode_removeNode, if_neg hne]

/-! ## What goes -/

/-- A smaller tree without anything that was held by a field that went or stood at the top of a node
that went. -/
structure Sweeps (tree after : Tree) : Prop extends tree.Shrinks after where
  part : ∀ p c, tree.Live p → ¬after.Live p → c ∈ tree.parts p → ¬after.Live c
  top : ∀ n x, tree.LiveNode n → ¬after.LiveNode n → x ∈ tree.topFields n → ¬after.Live x

namespace Sweeps

theorem refl (tree : Tree) : tree.Sweeps tree where
  toShrinks := .refl tree
  part _ _ hl hn := absurd hl hn
  top _ _ hl hn := absurd hl hn

theorem trans (h : tree.Sweeps mid) (h' : mid.Sweeps after) : tree.Sweeps after where
  toShrinks := h.toShrinks.trans h'.toShrinks
  part p c hl hn hc := by
    by_cases hm : mid.Live p
    · exact h'.part p c hm hn (h.toShrinks.parts hm ▸ hc)
    · exact fun hlive ↦ h.part p c hl hm hc (h'.toShrinks.live hlive)
  top n x hl hn hx := by
    by_cases hm : mid.LiveNode n
    · refine h'.top n x hm hn ?_
      rwa [topFields_eq_readNode, h.readNode_eq (fun _ _ ↦ rfl) hm, ← topFields_eq_readNode]
    · exact fun hlive ↦ h.top n x hl hm hx (h'.toShrinks.live hlive)

theorem foldl {f : Tree → NodeId → Tree} (hf : ∀ t : Tree, ∀ c, t.Sweeps (f t c))
    (list : List NodeId) (tree : Tree) : tree.Sweeps (list.foldl f tree) := by
  induction list generalizing tree with
  | nil => exact refl tree
  | cons c list ih => exact (hf tree c).trans (ih _)

theorem releaseFields (tree : Tree) (ids : List FieldId) :
    tree.Sweeps (tree.releaseFields ids) where
  toShrinks := releaseFields_shrinks tree ids
  part p c hl hn hc hlive := by
    obtain ⟨-, hfree⟩ := live_releaseFields_iff.1 hlive
    exact hn (live_releaseFields_iff.2 ⟨hl, fun y hy hp ↦ hfree y hy (hp.tail hc)⟩)
  top n x hl hn _ := absurd (((SameNodes.releaseFields tree ids).liveNode n).2 hl) hn

end Sweeps

/-- The node itself goes before its fields do, so it is looked at apart from the nodes below. -/
theorem sweeps_releaseNodeWithin (fuel : Nat) (tree : Tree) (id : NodeId) :
    tree.Sweeps (releaseNodeWithin fuel tree id) := by
  induction fuel generalizing tree id with
  | zero => exact .refl tree
  | succ fuel ih =>
      by_cases hl : tree.LiveNode id
      · obtain ⟨node, hnode⟩ := liveNode_iff.1 hl
        rw [releaseNodeWithin_of_live hnode]
        have hrest := (Sweeps.foldl ih node.children (tree.removeNode id)).trans
          (.releaseFields _ node.fields)
        refine ⟨(Shrinks.removeNode tree id).trans hrest.toShrinks, hrest.part,
          fun n x hn hgone hx hlive ↦ ?_⟩
        by_cases he : n = id
        · rw [he, topFields_eq_readNode, readNode_of_some hnode] at hx
          exact (live_releaseFields_iff.1 hlive).2 x hx .refl
        · refine hrest.top n x ((liveNode_removeNode tree id n).2 ⟨he, hn⟩) hgone ?_ hlive
          rwa [topFields_removeNode, if_neg he]
      · rw [releaseNodeWithin_of_not_live hl]
        exact .refl tree

/-- Exactly what is held below a node goes with it. -/
theorem live_releaseNode_iff :
    (tree.releaseNode id).Live x ↔ tree.Live x ∧ ¬tree.Spans id x := by
  refine ⟨fun hl ↦ ⟨(releaseNode_shrinks tree id).live hl, ?_⟩,
    fun h ↦ live_releaseNode_of_not_spans h.2 h.1⟩
  rintro ⟨n, top, hn, htop, hx⟩
  have hsweeps : tree.Sweeps (tree.releaseNode id) := sweeps_releaseNodeWithin _ tree id
  have hgone : ¬(tree.releaseNode id).Live x := by
    clear hl
    induction hx with
    | refl =>
        exact hsweeps.top n top (liveNode_of_mem_topFields htop)
          (fun hl ↦ not_heads_of_liveNode_releaseNode hl hn) htop
    | tail _ hpart ih => exact hsweeps.part _ _ (live_of_mem_parts hpart) ih hpart
  exact hgone hl

/-! ## What is left -/

open Classical in
/-- Listeners without those that go with a node. -/
noncomputable def remaining (tree : Tree) (id : NodeId) (listeners : List FieldId) : List FieldId :=
  listeners.filter fun d ↦ ¬tree.Spans id d

/-- Who listens in a tidy tree is alive, so it is not among those that went. -/
theorem Tidy.listeners_releaseNode (h : tree.Tidy) (hx : ¬tree.Spans id x) :
    (tree.releaseNode id).listeners x = tree.remaining id (tree.listeners x) := by
  refine eq_filter_of_sublist ((releaseNode_shrinks tree id).listeners x)
    (h.attended.nodup x not_false) fun d ↦ ?_
  simp only [decide_eq_true_eq]
  refine ⟨fun hd ↦ ⟨((releaseNode_shrinks tree id).listeners x).subset hd, ?_⟩,
    fun ⟨hd, hs⟩ ↦ mem_listeners_releaseNode h.inner_older hx hs hd⟩
  have hfollows := (h.releaseNode id).attended.follows x d not_false hd
  exact (live_releaseNode_iff.1 (live_of_follows hfollows)).2

theorem Tidy.nodeListeners_releaseNode (h : tree.Tidy) (hn : ¬tree.Heads id n) :
    (tree.releaseNode id).nodeListeners n = tree.remaining id (tree.nodeListeners n) := by
  refine eq_filter_of_sublist ((releaseNode_shrinks tree id).nodeListeners n)
    (h.attended.node_nodup n) fun d ↦ ?_
  simp only [decide_eq_true_eq]
  refine ⟨fun hd ↦ ⟨((releaseNode_shrinks tree id).nodeListeners n).subset hd, ?_⟩,
    fun ⟨hd, hs⟩ ↦ mem_nodeListeners_releaseNode hn hs hd⟩
  have hlink := (h.releaseNode id).attended.node_linked n d hd
  exact (live_releaseNode_iff.1 (live_of_link?_eq_some hlink)).2

/-- The second tree is the first one without a node, the nodes below it and what their fields hold.
None of these listens to anything any more, and all else is as it was. -/
structure Evicts (tree : Tree) (id : NodeId) (after : Tree) : Prop where
  node_gone : ∀ n, tree.Heads id n → after.node? n = none
  node_kept : ∀ n, ¬tree.Heads id n → after.node? n =
    (tree.node? n).map fun node ↦ { node with listeners := tree.remaining id node.listeners }
  field_gone : ∀ x, tree.Spans id x → after.field? x = none
  field_kept : ∀ x, ¬tree.Spans id x → after.field? x =
    (tree.field? x).map fun field ↦ { field with listeners := tree.remaining id field.listeners }

theorem Tidy.evicts (h : tree.Tidy) (id : NodeId) : tree.Evicts id (tree.releaseNode id) where
  node_gone n hn := not_liveNode_iff.1 fun hl ↦ not_heads_of_liveNode_releaseNode hl hn
  node_kept n hn := by
    cases ho : tree.node? n with
    | none =>
        refine not_liveNode_iff.1 fun hl ↦ ?_
        exact not_liveNode_iff.2 ho (liveNode_releaseNode_iff.1 hl).1
    | some old =>
        obtain ⟨new, hnew⟩ := liveNode_iff.1
          (liveNode_releaseNode_iff.2 ⟨liveNode_of_some ho, hn⟩)
        obtain ⟨old', ho', hsame, -⟩ := (releaseNode_shrinks tree id).node n new hnew
        have hlisteners := h.nodeListeners_releaseNode hn
        rw [nodeListeners, nodeListeners, readNode_of_some hnew, readNode_of_some ho] at hlisteners
        rw [Option.some.inj (ho'.symm.trans ho), hlisteners] at hsame
        rw [hnew, hsame]
        rfl
  field_gone x hx := not_live_iff.1 fun hl ↦ (live_releaseNode_iff.1 hl).2 hx
  field_kept x hx := by
    cases ho : tree.field? x with
    | none =>
        refine not_live_iff.1 fun hl ↦ ?_
        exact not_live_iff.2 ho (live_releaseNode_iff.1 hl).1
    | some old =>
        obtain ⟨new, hnew⟩ := live_iff.1 (live_releaseNode_iff.2 ⟨live_of_some ho, hx⟩)
        obtain ⟨old', ho', hsame, -⟩ := (releaseNode_shrinks tree id).field x new hnew
        have hlisteners := h.listeners_releaseNode hx
        rw [listeners_eq_read, listeners_eq_read, read_of_some hnew, read_of_some ho] at hlisteners
        rw [Option.some.inj (ho'.symm.trans ho), hlisteners] at hsame
        rw [hnew, hsame]
        rfl

end Tree

end LightTree
