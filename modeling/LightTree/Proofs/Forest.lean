import LightTree.Proofs.Outline

/-!
# Forests of nodes

Children and parents mirror one another, each child is listed once, no node stands above itself, and
every node has no more children than its kind allows, all of the category that its kind asks for.
Halfway through a change two things may be wrong for a while: a node that is about to be released
may list children that have been released already, and a node that is about to be released may be
missing from the children of its parent.
-/

namespace LightTree

open Relation

namespace Tree

def Ascends (tree : Tree) (id parent : NodeId) : Prop :=
  tree.parent? id = some parent

/-- The nodes form a forest within the bounds of their kinds, but `broken` ones may list dead
children, and `stray` ones may not be listed. -/
structure ForestBut (broken stray : NodeId → Prop) (tree : Tree) : Prop where
  root_live : tree.LiveNode tree.root
  root_parent : tree.parent? tree.root = none
  listed : ∀ p c, c ∈ tree.children p → tree.Ascends c p ∨ broken p ∧ ¬tree.LiveNode c
  lists : ∀ c p, tree.Ascends c p → c ∈ tree.children p ∨ stray c
  nodup : ∀ p, (tree.children p).Nodup
  acyclic : ∀ id, ¬TransGen tree.Ascends id id
  fits : ∀ p kind most, tree.kind? p = some kind → kind.maxChildren = some most →
    (tree.children p).length ≤ most
  typed : ∀ p c kind childKind, c ∈ tree.children p → tree.kind? p = some kind →
    tree.kind? c = some childKind →
    childKind.category = kind.childCategory ∧ kind.childCategory ≠ .nothing

def Forest (tree : Tree) : Prop :=
  tree.ForestBut (fun _ ↦ False) fun _ ↦ False

variable {broken broken' stray stray' : NodeId → Prop} {tree after : Tree}

theorem ForestBut.mono (h : tree.ForestBut broken stray) (hbroken : ∀ id, broken id → broken' id)
    (hstray : ∀ id, stray id → stray' id) : tree.ForestBut broken' stray' where
  root_live := h.root_live
  root_parent := h.root_parent
  listed p c hc := (h.listed p c hc).imp_right fun ⟨hb, hl⟩ ↦ ⟨hbroken p hb, hl⟩
  lists c p hp := (h.lists c p hp).imp_right (hstray c)
  nodup := h.nodup
  acyclic := h.acyclic
  fits := h.fits
  typed := h.typed

/-- A forest lies in the outlines. -/
theorem ForestBut.of_retains (h : tree.ForestBut broken stray)
    (hk : tree.Retains (fun _ ↦ True) after) : after.ForestBut broken stray := by
  have hchildren : after.children = tree.children := funext fun _ ↦ hk.children trivial
  have hparent : after.parent? = tree.parent? := funext fun _ ↦ hk.parent? trivial
  have hkind : after.kind? = tree.kind? := funext fun _ ↦ hk.kind? trivial
  have hlive : ∀ id, after.LiveNode id ↔ tree.LiveNode id := fun _ ↦ hk.liveNode trivial
  have hascends : after.Ascends = tree.Ascends := by
    unfold Ascends
    rw [hparent]
  refine ⟨?_, ?_, ?_, ?_, ?_, ?_, ?_, ?_⟩
  · rw [hk.root, hlive]
    exact h.root_live
  · rw [hk.root, hparent]
    exact h.root_parent
  · simpa only [hchildren, hascends, hlive] using h.listed
  · simpa only [hchildren, hascends] using h.lists
  · simpa only [hchildren] using h.nodup
  · simpa only [hascends] using h.acyclic
  · simpa only [hchildren, hkind] using h.fits
  · simpa only [hchildren, hkind] using h.typed

theorem Forest.mem_children_iff (h : tree.Forest) {p c : NodeId} :
    c ∈ tree.children p ↔ tree.Ascends c p :=
  ⟨fun hc ↦ (h.listed p c hc).resolve_right fun hf ↦ hf.1, fun hp ↦
    (h.lists c p hp).resolve_right fun hf ↦ hf⟩

theorem Forest.child_live (h : tree.Forest) {p c : NodeId}
    (hc : c ∈ tree.children p) : tree.LiveNode c :=
  liveNode_of_parent?_eq_some (h.mem_children_iff.1 hc)

theorem Forest.parent_live (h : tree.Forest) {p c : NodeId} (hp : tree.Ascends c p) :
    tree.LiveNode p :=
  liveNode_of_mem_children (h.mem_children_iff.2 hp)

/-! ## Lineages -/

open Classical in
/-- The numbers of the nodes above a node. -/
noncomputable def above (tree : Tree) (id : NodeId) : Finset Nat :=
  (Finset.range tree.nodes.size).filter fun i ↦ TransGen tree.Ascends id ⟨i⟩

theorem mem_above {id : NodeId} {i : Nat} :
    i ∈ tree.above id ↔ i < tree.nodes.size ∧ TransGen tree.Ascends id ⟨i⟩ := by
  simp [above]

theorem card_above_le (tree : Tree) (id : NodeId) : (tree.above id).card ≤ tree.nodes.size := by
  have hsub : tree.above id ⊆ Finset.range tree.nodes.size := fun i hi ↦
    Finset.mem_range.2 (mem_above.1 hi).1
  exact (Finset.card_le_card hsub).trans_eq (Finset.card_range _)

theorem Forest.card_above_lt (h : tree.Forest) (id parent : NodeId)
    (hp : tree.parent? id = some parent) :
    (tree.above parent).card < (tree.above id).card := by
  have hup : tree.Ascends id parent := hp
  refine Finset.card_lt_card ((Finset.ssubset_iff_of_subset fun i hi ↦ ?_).2 ⟨parent.index, ?_, ?_⟩)
  · obtain ⟨hlt, hi⟩ := mem_above.1 hi
    exact mem_above.2 ⟨hlt, .head hup hi⟩
  · exact mem_above.2 ⟨(h.parent_live hup).lt_size, .single hup⟩
  · exact fun hi ↦ h.acyclic parent (mem_above.1 hi).2

theorem Forest.mem_lineage_iff (h : tree.Forest) {id x : NodeId} :
    x ∈ tree.lineage id ↔ ReflTransGen tree.Ascends id x :=
  ⟨reflTransGen_of_mem_chain, mem_chain_of_reflTransGen (fun id ↦ (tree.above id).card)
    h.card_above_lt (tree.card_above_le id)⟩

/-! ## Releasing a node -/

theorem ForestBut.not_heads (h : tree.ForestBut broken stray) {id x : NodeId} (hne : x ≠ id)
    (hl : tree.LiveNode x) (hx : tree.parent? x = none) : ¬tree.Heads id x := by
  intro hhead
  rcases hhead.cases_tail with he | ⟨p, _, hc⟩
  · exact hne he
  · rcases h.listed p x hc with hp | ⟨_, hdead⟩
    · exact Option.some_ne_none p (hp.symm.trans hx)
    · exact hdead hl

/-- After a node has been released, at most the nodes that listed it are broken. -/
theorem ForestBut.releaseNode (h : tree.ForestBut broken stray) {id : NodeId}
    (hroot : id ≠ tree.root) (hbroken : ∀ p, broken p → p = id) (hstray : ∀ c, stray c → c = id) :
    (tree.releaseNode id).ForestBut (fun p ↦ id ∈ tree.children p) fun _ ↦ False := by
  have hk := tree.retains_releaseNode id
  have hself : tree.Heads id id := .refl
  have hkeep : ¬tree.Heads id tree.root := h.not_heads hroot.symm h.root_live h.root_parent
  refine ⟨?_, ?_, fun p c hc ↦ ?_, fun c p hp ↦ .inl ?_, fun p ↦ ?_, fun x hx ↦ ?_,
    fun p kind most hp hmost ↦ ?_, fun p c kind childKind hc hp hck ↦ ?_⟩
  · rw [hk.root]
    exact liveNode_releaseNode_iff.2 ⟨h.root_live, hkeep⟩
  · rw [hk.root, hk.parent? hkeep]
    exact h.root_parent
  · obtain ⟨hp, hc⟩ := mem_children_of_releaseNode hc
    rcases h.listed p c hc with hup | ⟨hb, _⟩
    · by_cases hhead : tree.Heads id c
      · -- What heads a child and is not its parent is the child itself.
        rcases hhead.cases_tail with he | ⟨q, hq, hcq⟩
        · exact .inr ⟨he ▸ hc, fun hl ↦ not_heads_of_liveNode_releaseNode hl hhead⟩
        · rcases h.listed q c hcq with hup' | ⟨_, hdead⟩
          · exact absurd (Option.some.inj (hup.symm.trans hup') ▸ hq) hp
          · exact absurd (liveNode_of_parent?_eq_some hup) hdead
      · exact .inl ((hk.parent? hhead).trans hup)
    · exact absurd (hbroken p hb ▸ hself) hp
  · obtain ⟨hc, hp⟩ := parent?_of_releaseNode hp
    have hmem := (h.lists c p hp).resolve_right fun hs ↦ hc (hstray c hs ▸ hself)
    rwa [hk.children fun hh ↦ hc (hh.tail hmem)]
  · by_cases hp : tree.Heads id p
    · rw [Tree.children, not_liveNode_iff.1 fun hl ↦ not_heads_of_liveNode_releaseNode hl hp]
      exact List.nodup_nil
    · rw [hk.children hp]
      exact h.nodup p
  · exact h.acyclic x (TransGen.mono (fun _ _ hab ↦ (parent?_of_releaseNode hab).2) _ _ hx)
  · obtain ⟨hn, hp⟩ := kind?_of_releaseNode hp
    rw [hk.children hn]
    exact h.fits p kind most hp hmost
  · exact h.typed p c kind childKind (mem_children_of_releaseNode hc).2
      (kind?_of_releaseNode hp).2 (kind?_of_releaseNode hck).2

theorem ForestBut.releaseNode_of_unlisted (h : tree.ForestBut broken stray) {id : NodeId}
    (hroot : id ≠ tree.root) (hbroken : ∀ p, broken p → p = id) (hstray : ∀ c, stray c → c = id)
    (hunlisted : ∀ p, id ∉ tree.children p) : (tree.releaseNode id).Forest :=
  (h.releaseNode hroot hbroken hstray).mono hunlisted fun _ hf ↦ hf

theorem ForestBut.unlisted (h : tree.ForestBut broken stray) {id : NodeId} (hl : tree.LiveNode id)
    (hparent : tree.parent? id = none) (p : NodeId) : id ∉ tree.children p := by
  intro hc
  rcases h.listed p id hc with hp | ⟨_, hdead⟩
  · exact Option.some_ne_none p (hp.symm.trans hparent)
  · exact hdead hl

end Tree

end LightTree
