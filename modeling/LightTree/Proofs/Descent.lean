import LightTree.Proofs.Hierarchy

/-!
# Looking down and looking up

A search for a node goes down the children, and the test for ancestors goes up the parents. In a
forest both find the same nodes, and neither walk is cut short.
-/

namespace LightTree

open Relation

namespace Tree

variable {tree : Tree} {upper id : NodeId} {node : Node} {depth : Nat}

/-! ## Going down -/

/-- What a search finds is the node it looks for, at or below the start. -/
theorem heads_of_descendantWithin? (h : tree.descendantWithin? id depth upper = some node) :
    tree.node? id = some node ∧ tree.Heads upper id := by
  induction depth generalizing upper with
  | zero => cases h
  | succ depth ih =>
      obtain ⟨top, htop, hfound⟩ := Option.bind_eq_some_iff.1 h
      split at hfound
      · next heq => exact ⟨heq ▸ htop.trans hfound, heq ▸ .refl⟩
      · obtain ⟨child, hchild, hbelow⟩ := List.exists_of_findSome?_eq_some hfound
        obtain ⟨hnode, hheads⟩ := ih hbelow
        refine ⟨hnode, .head ?_ hheads⟩
        rwa [children_eq_readNode, readNode_of_some htop]

/-- A search finds what is alive below its start, with levels to spare for the nodes that are not
above the start. -/
theorem Forest.isSome_descendantWithin? (h : tree.Forest) (hlive : tree.LiveNode id)
    (hdepth : tree.nodes.size < depth + (tree.above upper).card) (hheads : tree.Heads upper id) :
    (tree.descendantWithin? id depth upper).isSome = true := by
  induction depth generalizing upper with
  | zero => exact absurd (tree.card_above_le upper) (by omega)
  | succ depth ih =>
      by_cases heq : upper = id
      · subst heq
        obtain ⟨top, htop⟩ := liveNode_iff.1 hlive
        simp [descendantWithin?, htop]
      · obtain ⟨child, hchild, hbelow⟩ := hheads.cases_head.resolve_left heq
        obtain ⟨top, htop⟩ := liveNode_iff.1 (liveNode_of_mem_children hchild)
        have hlt := h.card_above_lt child upper (h.mem_children_iff.1 hchild)
        rw [children_eq_readNode, readNode_of_some htop] at hchild
        simp only [descendantWithin?, htop, Option.bind_some, heq, if_false]
        exact List.findSome?_isSome_iff.2 ⟨child, hchild, ih (by omega) hbelow⟩

theorem Forest.descendant?_eq_some_iff (h : tree.Forest) :
    tree.descendant? upper id = some node ↔ tree.node? id = some node ∧ tree.Heads upper id := by
  refine ⟨heads_of_descendantWithin?, fun ⟨hnode, hheads⟩ ↦ ?_⟩
  have hdepth : tree.nodes.size < tree.nodes.size + 1 + (tree.above upper).card := by omega
  obtain ⟨found, hfound⟩ := Option.isSome_iff_exists.1
    (h.isSome_descendantWithin? (liveNode_of_some hnode) hdepth hheads)
  have hfoundNode := (heads_of_descendantWithin? hfound).1
  exact hfound.trans (hfoundNode.symm.trans hnode)

/-! ## Going up -/

/-- Down from one node to another leads the same way as up from the second to the first. -/
theorem Forest.heads_iff (h : tree.Forest) :
    tree.Heads upper id ↔ ReflTransGen tree.Ascends id upper := by
  have hstep : (fun parent child ↦ child ∈ tree.children parent) =
      Function.swap tree.Ascends := by
    funext parent child
    exact propext h.mem_children_iff
  rw [Heads, hstep, reflTransGen_swap]

theorem Forest.isAncestor_iff (h : tree.Forest) :
    tree.isAncestor upper id = true ↔ ReflTransGen tree.Ascends id upper := by
  rw [isAncestor, List.contains_iff_mem, h.mem_lineage_iff]

theorem Forest.isSome_descendant?_iff (h : tree.Forest) (hlive : tree.LiveNode id) :
    (tree.descendant? upper id).isSome = true ↔ tree.isAncestor upper id = true := by
  obtain ⟨node, hnode⟩ := liveNode_iff.1 hlive
  simp only [Option.isSome_iff_exists, h.descendant?_eq_some_iff, h.isAncestor_iff, h.heads_iff,
    hnode, Option.some.injEq, exists_and_right, exists_eq', true_and]

/-- A node that is not alive has nothing below it but itself. -/
theorem Forest.descendant?_eq_none (h : tree.Forest)
    (hdead : ¬tree.LiveNode upper ∨ ¬tree.LiveNode id) : tree.descendant? upper id = none := by
  by_contra hfound
  obtain ⟨node, hnode⟩ := Option.ne_none_iff_exists'.1 hfound
  obtain ⟨hid, hheads⟩ := h.descendant?_eq_some_iff.1 hnode
  have hlive := liveNode_of_some hid
  refine hdead.elim (fun hupper ↦ hupper ?_) fun hend ↦ hend hlive
  rcases hheads.cases_head with rfl | ⟨child, hchild, _⟩
  · exact hlive
  · exact liveNode_of_mem_children hchild

/-! ## Histories -/

/-- After any history, a search below one live node for another finds it exactly if the test for
ancestors says so, which is exactly if the two are the same or the way up the parents of the second
leads to the first. A search that involves a node that is not alive finds nothing. -/
theorem descendant_run {catalog : Catalog} {settings : Settings} {tree : Tree}
    (hstart : start catalog settings = .ok tree) (operations : List Operation) {final : Tree}
    (hfinal : (tree.run operations).2 = final) (a b : NodeId) :
    (final.LiveNode a → final.LiveNode b →
      ((final.descendant? a b).isSome = true ↔ final.isAncestor a b = true) ∧
      (final.isAncestor a b = true ↔ a = b ∨ TransGen final.Ascends b a) ∧
      ∀ node, final.descendant? a b = some node → final.node? b = some node) ∧
    (¬final.LiveNode a ∨ ¬final.LiveNode b → final.descendant? a b = none) := by
  have h : final.Forest := hfinal ▸ (forest_start hstart).run operations
  refine ⟨fun _ hb ↦ ⟨h.isSome_descendant?_iff hb, ?_, fun node hnode ↦ ?_⟩,
    h.descendant?_eq_none⟩
  · rw [h.isAncestor_iff, reflTransGen_iff_eq_or_transGen]
  · exact (h.descendant?_eq_some_iff.1 hnode).1

/-- An animation stands below the root and not above the object it was added to, also after the
root has been offered to it as a child. -/
theorem descendant_run_standard :
    let final := (standardTree.run [.addByCategory ⟨0⟩ .object, .addByCategory ⟨1⟩ .animation,
      .addChild ⟨2⟩ ⟨0⟩]).2
    (final.descendant? ⟨0⟩ ⟨2⟩).isSome = true ∧ final.isAncestor ⟨2⟩ ⟨1⟩ = false ∧
      (final.descendant? ⟨2⟩ ⟨1⟩).isSome = false ∧ final.descendant? ⟨0⟩ ⟨3⟩ = none := by
  intro final
  have hroot : final.LiveNode ⟨0⟩ := by decide +kernel
  have hobject : final.LiveNode ⟨1⟩ := by decide +kernel
  have hanimation : final.LiveNode ⟨2⟩ := by decide +kernel
  have hnone : ¬final.LiveNode ⟨3⟩ := by decide +kernel
  have hbelow : final.isAncestor ⟨0⟩ ⟨2⟩ = true := by decide +kernel
  have hbeside : final.isAncestor ⟨2⟩ ⟨1⟩ = false := by decide +kernel
  have hrun := descendant_run start_standard _ (rfl : _ = final)
  refine ⟨((hrun ⟨0⟩ ⟨2⟩).1 hroot hanimation).1.2 hbelow, hbeside, ?_,
    (hrun ⟨0⟩ ⟨3⟩).2 (.inr hnone)⟩
  rw [Bool.eq_false_iff, Ne, ((hrun ⟨2⟩ ⟨1⟩).1 hanimation hobject).1, hbeside]
  exact Bool.false_ne_true

end Tree

end LightTree
