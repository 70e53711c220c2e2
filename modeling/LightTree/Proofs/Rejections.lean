import LightTree.Proofs.Creation
import LightTree.Proofs.Eviction
import LightTree.Proofs.Locality
import LightTree.Proofs.Withdrawal

/-!
# Ignored requests change nothing

A request that does not fit is ignored before anything happens. Where a node is made first, it does
fit: its parent has been asked before, nothing that was there has changed since and the new node
stands above none of it. Only a detached node that is offered to a parent in vain goes, with all
that is below it, and none of that shows below the root.
-/

namespace LightTree

open Relation Edit

/-- The edit leaves a certain tree if it is ignored. -/
def Edit.Ignores (edit : Edit Outcome) (tree last : Tree) : Prop :=
  edit.Meets tree (fun outcome after ↦ outcome = .ignored → after = last) fun _ _ ↦ True

/-- What has been applied has not been ignored. -/
theorem Edit.meets_applied {α : Type} (edit : Edit α) (tree last : Tree) :
    edit.Meets tree (fun _ after ↦ Outcome.applied = .ignored → after = last) fun _ _ ↦ True :=
  meets_iff.2 ⟨fun _ _ _ ho ↦ Outcome.noConfusion ho, fun _ _ _ ↦ trivial⟩

/-- What the operation leaves of a tree if it is ignored. -/
def Operation.leaves (tree : Tree) : Operation → Tree
  | addChild _ child => tree.giveUp child
  | _ => tree

namespace Tree

variable {tree mid after : Tree} {id child parent n : NodeId} {x y : FieldId}

/-! ## Requests that are ignored -/

theorem addChild_ignores (tree : Tree) (parent child : NodeId) :
    (addChild parent child).Ignores tree (tree.giveUp child) := by
  unfold Ignores
  rw [meets_addChild]
  refine (attach_outcome parent child true tree).imp ?_ fun _ _ _ ↦ trivial
  rintro outcome after ⟨hignored, -⟩
  exact ⟨fun ho _ ↦ hignored ho ▸ rfl, fun _ ho ↦ Outcome.noConfusion ho⟩

theorem removeChild_ignores (tree : Tree) (parent child : NodeId) :
    (removeChild parent child).Ignores tree tree := by
  unfold Ignores
  rw [meets_removeChild]
  exact ⟨fun _ _ ↦ rfl, fun _ ↦ ⟨fun _ _ ↦ trivial, fun _ ↦ meets_applied ..⟩⟩

theorem detach_ignores (tree : Tree) (id : NodeId) : (detach id).Ignores tree tree := by
  unfold Ignores
  rw [meets_detach]
  exact ⟨fun _ _ ↦ rfl, fun parent _ ↦ removeChild_ignores tree parent id⟩

theorem removeElement_ignores (tree : Tree) (id : FieldId) (index : Nat) :
    (removeElement id index).Ignores tree tree :=
  meets_removeElement (fun _ ↦ trivial) (fun _ ↦ rfl) fun _ _ _ _ _ _ _ _ ↦ meets_applied ..

/-! ## New nodes fit -/

/-- A parent that had room for the category before the node was made has it afterwards. -/
theorem Created.canAttach {kind : NodeKind} (h : tree.Created kind child mid) (hf : tree.Forest)
    (hb : tree.Beside child kind (fun _ ↦ False) mid)
    (haccepts : (tree.node? parent).any (·.accepts kind.category) = true) :
    mid.canAttach parent child = true := by
  cases htarget : tree.node? parent with
  | none =>
      rw [htarget] at haccepts
      cases haccepts
  | some target =>
      rw [htarget, Option.any_some] at haccepts
      have hlive := liveNode_of_some htarget
      have hforest : mid.Forest := hb.forest
      have hkept : mid.node? parent = some target :=
        (h.fenced.toUntouched.node parent hlive.lt_size).trans htarget
      have hroot : child ≠ mid.root := h.root ▸ h.later.node_ne_of_lt hf.root_known
      have habove : mid.isAncestor child parent = false := by
        rw [isAncestor, ← Bool.not_eq_true, List.contains_iff_mem, hforest.mem_lineage_iff]
        exact hf.not_ascends_beside hlive (Nat.not_lt_of_le h.later) hb
      cases h.built with
      | intro item childKind found kind_eq parent_eq =>
          simp [Tree.canAttach, hkept, found, parent_eq, hroot, habove, kind_eq, haccepts]

theorem attach_applied (hcan : tree.canAttach parent child = true) (refresh : Bool) :
    (attach parent child refresh).Meets tree (fun outcome _ ↦ outcome = .applied)
      fun _ _ ↦ True := by
  rw [meets_attach]
  exact ⟨fun hnot ↦ absurd (hcan.symm.trans hnot).symm Bool.false_ne_true, fun _ ↦
    ⟨fun _ _ ↦ trivial, fun _ ↦ meets_iff.2 ⟨fun _ _ _ ↦ rfl, fun _ _ _ ↦ trivial⟩⟩⟩

theorem addByCategory_ignores (h : tree.Tidy) (hf : tree.Forest) (parent : NodeId)
    (category : Category) : (addByCategory parent category).Ignores tree tree := by
  unfold Ignores
  rw [meets_addByCategory]
  refine ⟨fun _ _ ↦ rfl, fun kind haccepts hkind ↦ ?_⟩
  have hcategory : kind.category = category := by simpa using List.find?_some hkind
  refine ((create_rears kind tree h hf.root_known).and (makes_create kind tree hf)).imp ?_
    fun _ _ _ ↦ trivial
  rintro child mid ⟨hcreated, -, hbeside⟩
  have hcan := hcreated.canAttach hf hbeside (hcategory ▸ haccepts)
  rw [meets_addChild]
  refine (attach_applied hcan true).imp ?_ fun _ _ _ ↦ trivial
  rintro _ after rfl
  exact ⟨fun ho ↦ Outcome.noConfusion ho, fun _ ho ↦ Outcome.noConfusion ho⟩

/-- While the new node is made, the old one stays with its parent. -/
theorem retype_ignores (h : tree.Tidy) (hf : tree.Forest) (id : NodeId) (symbol : String) :
    (retype id symbol).Ignores tree tree := by
  refine meets_retype (fun _ ↦ rfl) fun node parent kind hn hparent _ ↦
    ⟨fun _ _ ↦ trivial, fun _ ↦ ?_⟩
  have hlisted : id ∈ tree.children parent := by
    refine hf.mem_children_iff.2 ?_
    rw [Ascends, parent?_eq_readNode, readNode_of_some hn, hparent]
  refine (create_rears kind tree h hf.root_known).imp (fun new mid hmid ↦ ⟨fun hnot ↦ ?_, fun _ ↦
    meets_applied ..⟩) fun _ _ _ ↦ trivial
  have hkept : mid.children parent = tree.children parent := by
    rw [children_eq_readNode, children_eq_readNode]
    exact hmid.fenced.toUntouched.readNode (liveNode_of_mem_children hlisted).lt_size _ _
  exact absurd (hkept ▸ hlisted) hnot

/-- An operation that is ignored leaves the tree as it is, apart from a node that is given up. -/
theorem edit_ignores (h : tree.Tidy) (hf : tree.Forest) (operation : Operation) :
    operation.edit.Meets tree
      (fun answer after ↦ answer = .outcome .ignored → after = operation.leaves tree)
      fun _ _ ↦ True := by
  have houtcome : ∀ {edit : Edit Outcome} {last : Tree}, edit.Ignores tree last →
      (edit >>= fun outcome ↦ pure (.outcome outcome) : Edit Answer).Meets tree
        (fun answer after ↦ answer = .outcome .ignored → after = last) fun _ _ ↦ True :=
    fun hedit ↦ (meets_bind ..).2 (hedit.imp (fun _ _ ha he ↦ ha (Answer.outcome.inj he))
      fun _ _ _ ↦ trivial)
  have hother : ∀ {α : Type} {edit : Edit α} {answer : α → Answer} {last : Tree},
      (∀ a, answer a ≠ .outcome .ignored) → (edit >>= fun a ↦ pure (answer a) : Edit Answer).Meets
        tree (fun answer after ↦ answer = .outcome .ignored → after = last) fun _ _ ↦ True :=
    fun hne ↦ (meets_bind ..).2 (meets_iff.2 ⟨fun a _ _ he ↦ absurd he (hne a), fun _ _ _ ↦ trivial⟩)
  cases operation with
  | addChild parent child => exact houtcome (addChild_ignores tree parent child)
  | addByCategory parent category => exact houtcome (addByCategory_ignores h hf parent category)
  | removeChild parent child => exact houtcome (removeChild_ignores tree parent child)
  | detach id => exact houtcome (detach_ignores tree id)
  | retype id symbol => exact houtcome (retype_ignores h hf id symbol)
  | removeElement id index => exact houtcome (removeElement_ignores tree id index)
  | create | setInteger | setBoolean | choose | setText | setColor | appendElement | rebind =>
      exact hother fun _ he ↦ Answer.noConfusion he

/-! ## What does not show below the root -/

theorem Forest.ascends_of_heads (h : tree.Forest) (hn : tree.Heads id n) :
    ReflTransGen tree.Ascends n id :=
  reflTransGen_swap.1 (ReflTransGen.mono (fun _ _ hc ↦ h.mem_children_iff.1 hc) _ _ hn)

/-- No node stands below two nodes without parents. -/
theorem Forest.eq_of_heads (h : tree.Forest) {top : NodeId} (hid : tree.Heads id n)
    (htop : tree.Heads top n) (hidParent : tree.parent? id = none)
    (htopParent : tree.parent? top = none) : id = top := by
  have hunique : Relator.RightUnique tree.Ascends := fun _ _ _ ha hb ↦
    Option.some.inj (ha.symm.trans hb)
  have hend : ∀ {a b : NodeId}, tree.parent? a = none → ReflTransGen tree.Ascends a b → a = b := by
    intro a b ha hab
    rcases hab.cases_head with he | ⟨p, hp, -⟩
    · exact he
    · exact absurd (hp.symm.trans ha) (Option.some_ne_none p)
  rcases ReflTransGen.total_of_right_unique hunique (h.ascends_of_heads hid)
    (h.ascends_of_heads htop) with hup | hup
  · exact hend hidParent hup
  · exact (hend htopParent hup).symm

/-- A part has the owner of the field that it is a part of. -/
theorem Tidy.owner?_of_part (h : tree.Tidy) (hy : y ∈ tree.parts x) (hl : tree.Live y) :
    tree.owner? y = tree.owner? x := by
  obtain ⟨field, hf⟩ := live_iff.1 (live_of_mem_parts hy)
  obtain ⟨part, hp⟩ := live_iff.1 hl
  have hseat := h.part x y (field.shelter x) (by rw [shelter?, read_of_some hf]) hy
  have howner := congrArg Prod.fst (hseat.at_home _ (by rw [home?, read_of_some hp]))
  have hpart : tree.owner? y = some part.owner := read_of_some hp ..
  have hfield : tree.owner? x = some field.owner := read_of_some hf ..
  rw [hpart, hfield]
  exact congrArg some howner

theorem Tidy.owner?_of_top (h : tree.Tidy) (hx : x ∈ tree.topFields n) (hl : tree.Live x) :
    tree.owner? x = some n := by
  obtain ⟨field, hf⟩ := live_iff.1 hl
  have howner := congrArg Prod.fst ((h.top n x hx).at_home _ (by rw [home?, read_of_some hf]))
  exact (read_of_some hf ..).trans (congrArg some howner)

theorem Tidy.owner?_of_spans (h : tree.Tidy) (hx : tree.Spans id x) (hl : tree.Live x) :
    ∃ n, tree.Heads id n ∧ tree.owner? x = some n := by
  obtain ⟨n, top, hn, htop, hholds⟩ := hx
  refine ⟨n, hn, ?_⟩
  induction hholds with
  | refl => exact h.owner?_of_top htop hl
  | tail _ hpart ih => exact (h.owner?_of_part hpart hl).trans (ih (live_of_mem_parts hpart))

/-- What goes with a node without a parent does not show below the root. -/
theorem Tidy.line_releaseNode (h : tree.Tidy) (hf : tree.Forest) (hroot : id ≠ tree.root)
    (hparent : tree.parent? id = none) : (tree.releaseNode id).line = tree.line := by
  have hevicts := h.evicts id
  have hs := releaseNode_shrinks tree id
  have hapart : ∀ n, tree.Heads tree.root n → ¬tree.Heads id n := fun n hn hgone ↦
    hroot (hf.eq_of_heads hgone hn hparent hf.root_parent)
  have hmatch : tree.Matches (fun x ↦ ∀ n, tree.owner? x = some n → tree.Heads tree.root n)
      (tree.releaseNode id) := by
    refine ⟨fun x hx ↦ ?_, fun x y hx hy n hn ↦ ?_⟩
    · by_cases hgone : tree.Spans id x
      · have hdead : ¬tree.Live x := by
          intro hl
          obtain ⟨n, hn, howner⟩ := h.owner?_of_spans hgone hl
          exact hapart n (hx n howner) hn
        rw [sight, sight, hevicts.field_gone x hgone, not_live_iff.1 hdead]
      · rw [sight, sight, hevicts.field_kept x hgone, Option.map_map]
        rfl
    · have hl : tree.Live y := live_of_read_ne (ne_of_eq_of_ne hn (Option.some_ne_none n))
      exact hx n ((h.owner?_of_part hy hl).symm.trans hn)
  have hnodes : tree.MatchesNodes (tree.Heads tree.root) (tree.releaseNode id) := by
    refine ⟨fun n hn ↦ ?_, fun n x hn hx ↦ hmatch.fieldTokens_eq hs.fields_size fun m hm ↦ ?_,
      fun _ _ ↦ ReflTransGen.tail⟩
    · have hl : tree.LiveNode n := by
        rcases hn.cases_tail with he | ⟨p, -, hc⟩
        · exact he ▸ hf.root_live
        · exact hf.child_live hc
      obtain ⟨old, ho⟩ := liveNode_iff.1 hl
      exact ⟨old, _, ho, (hevicts.node_kept n (hapart n hn)).trans (congrArg _ ho), rfl⟩
    · have hl : tree.Live x := live_of_read_ne (ne_of_eq_of_ne hm (Option.some_ne_none m))
      exact Option.some.inj ((h.owner?_of_top hx hl).symm.trans hm) ▸ hn
  rw [line, line, hs.root]
  exact hnodes.nodeLine_eq hs.nodes_size .refl

/-! ## Histories -/

theorem leaves_eq_or (tree : Tree) (operation : Operation) :
    (∃ parent child, operation = .addChild parent child ∧ tree.isDetached child = true ∧
      operation.leaves tree = tree.releaseNode child) ∨
      (∀ parent child, operation = .addChild parent child → tree.isDetached child = false) ∧
        operation.leaves tree = tree := by
  cases operation with
  | addChild parent child =>
      rw [Operation.leaves, giveUp]
      by_cases hd : tree.isDetached child = true
      · exact .inl ⟨parent, child, rfl, hd, if_pos hd⟩
      · refine .inr ⟨fun p c he ↦ ?_, if_neg hd⟩
        cases he
        exact Bool.not_eq_true _ ▸ hd
  | create | addByCategory | removeChild | detach | retype | setInteger | setBoolean | choose
  | setText | setColor | appendElement | removeElement | rebind =>
      exact .inr ⟨fun _ _ he ↦ Operation.noConfusion he, rfl⟩

/-- After any history, with any faults and rebinds in it, a request that is ignored hands out no
number, does not refresh the view and does not change the line of the tree. It leaves everything as
it is, unless it offers a detached node to a parent. That node goes, with exactly the nodes below it
and what their fields hold, and what goes no longer listens to what stays. -/
theorem ignored_run {catalog : Catalog} {settings : Settings} {tree : Tree}
    (hstart : start catalog settings = .ok tree) (operations : List Operation) {final : Tree}
    (hfinal : (tree.run operations).2 = final) {operation : Operation} {after : Tree}
    (hafter : final.perform operation = (.ok (.outcome .ignored), after)) :
    (after.nodes.size = final.nodes.size ∧ after.fields.size = final.fields.size ∧
      after.refreshes = final.refreshes ∧ after.line = final.line) ∧
      ((∀ parent child, operation = .addChild parent child → final.isDetached child = false) →
        after = final) ∧
      ∀ parent child, operation = .addChild parent child → final.isDetached child = true →
        final.Evicts child after := by
  have hforest : final.Forest := hfinal ▸ (forest_start hstart).run operations
  have htidy : final.Tidy := hfinal ▸ (tidy_start hstart).run (forest_start hstart) operations
  have hleft : after = operation.leaves final :=
    (edit_ignores htidy hforest operation).of_runOn_ok hafter rfl
  rcases leaves_eq_or final operation with ⟨parent, child, rfl, hdetached, hgone⟩ | ⟨hkept, hsame⟩
  · obtain ⟨hroot, -, hparent⟩ := isDetached_iff.1 hdetached
    rw [hleft, hgone]
    have hs := releaseNode_shrinks final child
    refine ⟨⟨hs.nodes_size, hs.fields_size, hs.refreshes,
      htidy.line_releaseNode hforest hroot hparent⟩, fun hnone ↦ ?_, ?_⟩
    · exact absurd ((hnone parent child rfl).symm.trans hdetached) Bool.false_ne_true
    · rintro _ _ heq -
      cases heq
      exact htidy.evicts child
  · rw [hleft, hsame]
    refine ⟨⟨rfl, rfl, rfl, rfl⟩, fun _ ↦ rfl, fun parent child he hdetached ↦ ?_⟩
    exact absurd ((hkept parent child he).symm.trans hdetached) Bool.false_ne_true

/-- A generator that is not attached yet is offered to the object below it. Both go, and the object
of the tree stays. -/
theorem ignored_run_standard :
    let final := (standardTree.run
      [.addByCategory ⟨0⟩ .object, .create Catalog.standardKinds[2]]).2
    let after := (final.perform (.addChild ⟨3⟩ ⟨2⟩)).2
    final.children ⟨2⟩ = [⟨3⟩] ∧
      (final.perform (.addChild ⟨3⟩ ⟨2⟩)).1 = .ok (.outcome .ignored) ∧
      final.isDetached ⟨2⟩ = true ∧ final.Evicts ⟨2⟩ after ∧ after.node? ⟨3⟩ = none ∧
      after.line = final.line := by
  intro final after
  have hchildren : final.children ⟨2⟩ = [⟨3⟩] := by
    decide +kernel
  have hanswer : (final.perform (.addChild ⟨3⟩ ⟨2⟩)).1 = .ok (.outcome .ignored) := by
    decide +kernel
  have hdetached : final.isDetached ⟨2⟩ = true := by
    decide +kernel
  have hperform : final.perform (.addChild ⟨3⟩ ⟨2⟩) = (.ok (.outcome .ignored), after) :=
    Prod.mk.eta.symm.trans (congrArg (·, after) hanswer)
  obtain ⟨⟨-, -, -, hline⟩, -, hgone⟩ := ignored_run start_standard
    [.addByCategory ⟨0⟩ .object, .create Catalog.standardKinds[2]] rfl hperform
  have hevicts := hgone ⟨3⟩ ⟨2⟩ rfl hdetached
  refine ⟨hchildren, hanswer, hdetached, hevicts, ?_, hline⟩
  exact hevicts.node_gone ⟨3⟩ (.single (hchildren ▸ List.mem_singleton_self _))

end Tree

end LightTree
